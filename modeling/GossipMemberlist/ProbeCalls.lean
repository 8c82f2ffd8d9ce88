import GossipMemberlist.ProbeRounds
import GossipMemberlist.Library.BoundedSearch

/-!
# One call of `probe`

`probe` gives up after as many skipped nodes and shuffles as the vector has
nodes. The shuffle counts too, so a call can come back empty-handed although
there is somebody to probe.
-/

namespace GossipMemberlist

open BoundedSearch

variable {cfg : Config}

/-- Between two critical sections the other threads insert nothing and change neither names nor
who is to be skipped. -/
structure Member.Calm (cfg : Config) (m m' : Member) : Prop where
  nodes : m'.table.nodes = m.table.nodes
  probeIndex : m'.probeIndex = m.probeIndex
  names : ∀ r ∈ m.table.nodes, (m'.table.heap r).n.name = (m.table.heap r).n.name
  skips : ∀ r ∈ m.table.nodes,
    Prober.skips cfg (m'.table.heap r) = Prober.skips cfg (m.table.heap r)

theorem Member.Calm.refl (cfg : Config) (m : Member) : m.Calm cfg m :=
  ⟨rfl,rfl,fun _ _ => rfl,fun _ _ => rfl⟩

/-- The loop of a `probe` call, with the record it hands to `probeNode`. `shuffled k` is the
order that `random_shuffle` produces when `numCheck = k`, and `env k` what the other threads do
before that section; `none` if the fuel runs out. -/
def probeCall (cfg : Config) (shuffled : ℕ → List ℕ) (env : ℕ → Member → Member) :
    ℕ → ℕ → Member → Option (Member × Option NodeState)
  | 0, _, _ => none
  | fuel+1, numCheck, m =>
    let r := (env numCheck m).probeSection cfg numCheck (shuffled numCheck)
    match r.2 with
    | .returns => some (r.1,none)
    | .again => probeCall cfg shuffled env fuel (numCheck + 1) r.1
    | .probes node => some (r.1,some node)

def reorder (shuffled nodes : List ℕ) : List ℕ := if shuffled.Perm nodes then shuffled else nodes

theorem shuffle_nodes (shuffled : List ℕ) (t : Table) :
    (t.shuffle shuffled).nodes = reorder shuffled t.nodes := by
  unfold Table.shuffle reorder
  split <;> rfl

theorem shuffle_heap (shuffled : List ℕ) (t : Table) : (t.shuffle shuffled).heap = t.heap := by
  unfold Table.shuffle
  split <;> rfl

theorem reorder_perm (shuffled nodes : List ℕ) : (reorder shuffled nodes).Perm nodes := by
  unfold reorder
  split
  · assumption
  · exact List.Perm.refl _

/-- The member as the search sees it: the order, the cursor and whom it may probe. -/
structure Member.View (cfg : Config) (m m₀ : Member) (order : List ℕ) (i : ℕ) : Prop where
  nodes : m.table.nodes = order
  probeIndex : m.probeIndex = i
  names : ∀ r ∈ order, (m.table.heap r).n.name = (m₀.table.heap r).n.name
  skips : ∀ r ∈ order, Prober.skips cfg (m.table.heap r) = Prober.skips cfg (m₀.table.heap r)

theorem Member.View.calm {m₀ m m' : Member} {nodes : List ℕ} {i : ℕ} (h : m.View cfg m₀ nodes i)
    (hc : m.Calm cfg m') : m'.View cfg m₀ nodes i := by
  have hmem : ∀ r ∈ nodes, r ∈ m.table.nodes := fun r hr => h.nodes ▸ hr
  exact ⟨hc.nodes.trans h.nodes,hc.probeIndex.trans h.probeIndex,
    fun r hr => (hc.names r (hmem r hr)).trans (h.names r hr),
    fun r hr => (hc.skips r (hmem r hr)).trans (h.skips r hr)⟩

theorem Member.View.shuffle {m₀ m : Member} {nodes : List ℕ} {i : ℕ} (h : m.View cfg m₀ nodes i)
    (shuffled : List ℕ) :
    Member.View cfg { m with table := m.table.shuffle shuffled, probeIndex := 0 } m₀
      (reorder shuffled nodes) 0 := by
  have hsub : ∀ r ∈ reorder shuffled nodes, r ∈ nodes := fun r hr =>
    (reorder_perm _ _).mem_iff.mp hr
  refine ⟨?_,rfl,fun r hr => ?_,fun r hr => ?_⟩
  · rw [← h.nodes]
    exact shuffle_nodes _ _
  · rw [shuffle_heap]
    exact h.names r (hsub r hr)
  · rw [shuffle_heap]
    exact h.skips r (hsub r hr)

/-- The call is the bounded search, and the record it probes is a copy of what that finds. -/
theorem probeCall_search (shuffled : ℕ → List ℕ) {env : ℕ → Member → Member}
    (henv : ∀ k m, Member.Calm cfg m (env k m)) {m₀ m : Member} {n fuel left i : ℕ} {nodes : List ℕ}
    (hlen : nodes.length = n) (hv : m.View cfg m₀ nodes i) (hleft : left ≤ n)
    (hfuel : left < fuel) :
    ∃ m' probed, probeCall cfg shuffled env fuel (n - left) m = some (m',probed) ∧
      probed.map (·.n.name) = (search (fun r => !Prober.skips cfg (m₀.table.heap r))
        (fun left nodes => reorder (shuffled (n - left - 1)) nodes) left nodes i).map
          fun r => (m₀.table.heap r).n.name := by
  induction left generalizing fuel m i nodes with
  | zero =>
    obtain ⟨fuel,rfl⟩ := Nat.exists_eq_add_of_lt hfuel
    have hn := (hv.calm (henv n m)).nodes
    refine ⟨env n m,none,?_,by simp [search]⟩
    rw [Nat.zero_add,Nat.sub_zero,probeCall]
    simp [Member.probeSection,hn,hlen]
  | succ left ih =>
    obtain ⟨fuel,rfl⟩ : ∃ f, fuel = f + 1 := ⟨fuel - 1,by omega⟩
    have hv' := hv.calm (henv (n - (left + 1)) m)
    generalize henvm : env (n - (left + 1)) m = m₁ at hv'
    have hcheck : ¬nodes.length ≤ n - (left + 1) := by omega
    have hleft' := Nat.le_of_succ_le hleft
    have hfuel' := Nat.lt_of_succ_lt_succ hfuel
    have hnext : n - (left + 1) + 1 = n - left := by omega
    simp only [probeCall,henvm,Member.probeSection,hv'.nodes,hv'.probeIndex,hcheck,if_false,search]
    cases hr : nodes[i]? with
    | none =>
      have hindex : n - left - 1 = n - (left + 1) := by omega
      simp only [hnext,hindex]
      exact ih ((reorder_perm _ _).length_eq.trans hlen) (hv'.shuffle _) hleft' hfuel'
    | some r =>
      have hmem := List.mem_of_getElem? hr
      have hskip := hv'.skips r hmem
      by_cases hs : Prober.skips cfg (m₀.table.heap r) = true
      · have h : (m₁.table.heap r).n.name = cfg.name ∨ (m₁.table.heap r).deadOrLeft = true := by
          simpa [Prober.skips] using hskip.trans hs
        simp only [h,if_true,hs,Bool.not_true,Bool.false_eq_true,if_false,hnext]
        exact ih hlen ⟨hv'.nodes,rfl,hv'.names,hv'.skips⟩ hleft' hfuel'
      · have hs := Bool.eq_false_iff.mpr hs
        have h : ¬((m₁.table.heap r).n.name = cfg.name ∨
            (m₁.table.heap r).deadOrLeft = true) := by
          simpa [Prober.skips] using hskip.trans hs
        simp only [h,if_false,hs,Bool.not_false,if_true]
        exact ⟨_,_,rfl,by simp [hv'.names r hmem]⟩

/-- The length of the vector bounds the sections of a call, whatever else happens to the records,
and the record that it hands on was eligible when it was read. -/
theorem probeCall_ends (shuffled : ℕ → List ℕ) {env : ℕ → Member → Member}
    (henv : ∀ k m, (env k m).table.nodes.length = m.table.nodes.length) {fuel numCheck : ℕ}
    {m : Member} (hcheck : numCheck ≤ m.table.nodes.length)
    (hfuel : m.table.nodes.length < numCheck + fuel) :
    ∃ m' probed, probeCall cfg shuffled env fuel numCheck m = some (m',probed) ∧
      ∀ node, probed = some node → Prober.skips cfg node = false := by
  induction fuel generalizing numCheck m with
  | zero => omega
  | succ fuel ih =>
    have hlen := henv numCheck m
    generalize henvm : env numCheck m = m₁ at hlen
    simp only [probeCall,henvm,Member.probeSection]
    split_ifs with hdone
    · exact ⟨m₁,none,rfl,by simp⟩
    · cases hr : m₁.table.nodes[m₁.probeIndex]? with
      | none =>
        have hlen' : (m₁.table.shuffle (shuffled numCheck)).nodes.length =
            m.table.nodes.length := by
          rw [shuffle_nodes,(reorder_perm _ _).length_eq,hlen]
        exact ih (by dsimp only; omega) (by dsimp only; omega)
      | some r =>
        by_cases h : (m₁.table.heap r).n.name = cfg.name ∨ (m₁.table.heap r).deadOrLeft = true
        · simp only [h,if_true]
          exact ih (by dsimp only; omega) (by dsimp only; omega)
        · simp only [h,if_false]
          refine ⟨_,_,rfl,fun node hnode => ?_⟩
          rw [← Option.some.inj hnode]
          simpa [Prober.skips] using h

/-- A call without insertions ends with one probe of an eligible node or with none. If the others
leave alone who is eligible, it probes when an eligible node lies ahead of the cursor, or when the
nodes there, the shuffle and those that the new order puts before the first eligible one are
together fewer than the nodes of the vector. -/
theorem probe_call (cfg : Config) (shuffled : ℕ → List ℕ) (env : ℕ → Member → Member)
    (henv : ∀ k m, (env k m).table.nodes.length = m.table.nodes.length) (m : Member) :
    let nodes := m.table.nodes
    let eligible := fun r => !Prober.skips cfg (m.table.heap r)
    let rest := nodes.length - m.probeIndex
    let order := reorder (shuffled rest) nodes
    ∃ m' probed, probeCall cfg shuffled env (nodes.length + 1) 0 m = some (m',probed) ∧
      (∀ node, probed = some node → Prober.skips cfg node = false) ∧
      ((∀ k m, Member.Calm cfg m (env k m)) →
        (probed.isSome ↔ (∃ r ∈ nodes.drop m.probeIndex, eligible r) ∨
          rest + 1 + order.findIdx eligible < nodes.length)) := by
  intro nodes eligible rest order
  obtain ⟨m',probed,hcall,hskip⟩ := probeCall_ends shuffled henv (Nat.zero_le nodes.length)
    (by omega : nodes.length < 0 + (nodes.length + 1))
  refine ⟨m',probed,hcall,hskip,fun hcalm => ?_⟩
  have hview : m.View cfg m nodes m.probeIndex := ⟨rfl,rfl,fun _ _ => rfl,fun _ _ => rfl⟩
  obtain ⟨m'',probed',hcall',hname⟩ := probeCall_search shuffled hcalm rfl
    hview (Nat.le_refl nodes.length) (Nat.lt_succ_self _)
  rw [Nat.sub_self,hcall] at hcall'
  obtain ⟨rfl,rfl⟩ := Prod.mk.inj (Option.some.inj hcall')
  have hsome := congrArg Option.isSome hname
  rw [Option.isSome_map,Option.isSome_map,search_length fun k => (reorder_perm _ _).length_eq]
    at hsome
  rw [hsome]
  dsimp only
  rw [Option.isSome_or,Bool.or_eq_true,List.find?_isSome]
  refine or_congr Iff.rfl ?_
  by_cases hrest : rest < nodes.length
  · have hindex : nodes.length - (nodes.length - rest - 1) - 1 = rest := by omega
    rw [hindex]
    change (if rest + 1 + order.findIdx eligible < nodes.length then order.find? eligible
      else none).isSome = true ↔ _
    split_ifs with hlt
    · refine iff_of_true (List.find?_isSome.mpr (List.findIdx_lt_length.mp ?_)) hlt
      rw [(reorder_perm _ _).length_eq]
      omega
    · exact iff_of_false (by simp) hlt
  · rw [if_neg (by omega)]
    exact iff_of_false (by simp) (by omega)

/-- The local node `"a"` knows of `"b"`. -/
def probePair : List Op :=
  [.alive (genAliveBroadcast ⟨1,"b","10.0.0.2",6666⟩) (-1) ⟨0,0,0,0,[],[]⟩]

theorem probe_call_pair :
    let m := (Process.run (defaultLANConfig "a") .small 3 ⟨0,0,0,0,[],[]⟩ probePair).member
    ∃ m' probed, probeCall (defaultLANConfig "a") (fun _ => []) (fun _ m => m)
      (m.table.nodes.length + 1) 0 m = some (m',probed) ∧ probed.isSome := by
  intro m
  obtain ⟨m',probed,hcall,-,hsome⟩ := probe_call (defaultLANConfig "a") (fun _ => [])
    (fun _ m => m) (fun _ _ => rfl) m
  exact ⟨m',probed,hcall,(hsome fun _ m => Member.Calm.refl _ m).mpr (Or.inl (by decide +kernel))⟩

/-- After `"b"` was probed the cursor is on the local node. The next call passes over it and
shuffles, and that is all the vector's two nodes allow. -/
theorem probe_call_returns :
    let m := (Process.run (defaultLANConfig "a") .small 3 ⟨0,0,0,0,[],[]⟩
      (probePair ++ [.probe 0 []])).member
    (∃ r ∈ m.table.nodes, Prober.skips (defaultLANConfig "a") (m.table.heap r) = false) ∧
      ∀ shuffled ∈ [[0,1],[1,0]],
        (probeCall (defaultLANConfig "a") (fun _ => shuffled) (fun _ m => m) 3 0 m).map
          (·.2) = some none := by
  decide +kernel

end GossipMemberlist
