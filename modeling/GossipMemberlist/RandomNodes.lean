import GossipMemberlist.Coherence
import GossipMemberlist.Library.Sampling
import GossipMemberlist.Reachability
import Mathlib.Data.List.Perm.Subperm
import Mathlib.Data.Nat.Find
import Mathlib.Logic.Function.Iterate

/-!
# Choosing random nodes

The loop of `kRandomNodes`, turn by turn. It gives up after three draws for each
node of the vector, counts them in an `int`, and divides by the size of the vector.
-/

namespace GossipMemberlist

/-- A call in its loop with the counter `i`, returned, or past undefined behaviour. -/
inductive RandomNodes
  | loop (i : ℕ) (kNodes : List NodeState)
  | returned (kNodes : List NodeState)
  | undefined
  deriving DecidableEq

namespace RandomNodes

/-- `exclude != nullptr && exclude(n)` -/
def excluded (exclude : Option (NodeState → Bool)) (n : NodeState) : Bool :=
  exclude.any fun exclude => exclude n

def pick (exclude : Option (NodeState → Bool)) (kNodes : List NodeState) (n : NodeState) :
    List NodeState :=
  if excluded exclude n then kNodes
  else if kNodes.any fun m => n.n.name = m.n.name then kNodes
  else kNodes ++ [n]

/-- One turn of the loop; `rand i` is what `rand()` answers in turn `i`. -/
def turn (k : ℕ) (nodes : List NodeState) (exclude : Option (NodeState → Bool)) (rand : ℕ → ℕ) :
    RandomNodes → RandomNodes
  | .loop i kNodes =>
    if i < 3 * nodes.length ∧ kNodes.length < k then
      -- a division by zero
      if nodes.length = 0 then .undefined
      else match nodes[rand i % nodes.length]? with
        | none => .undefined
        | some n =>
          -- `i++` on an `int`
          if i = 2 ^ 31 - 1 then .undefined else .loop (i + 1) (pick exclude kNodes n)
    else .returned kNodes
  | s => s

/-- The nodes that the first `t` draws hit. -/
def hits (nodes : List NodeState) (rand : ℕ → ℕ) (t : ℕ) : List NodeState :=
  (List.range t).filterMap fun i => nodes[rand i % nodes.length]?

/-- The eligible ones, in the order in which they first come up. -/
def drawn (nodes : List NodeState) (exclude : Option (NodeState → Bool)) (rand : ℕ → ℕ) (t : ℕ) :
    List NodeState :=
  ((hits nodes rand t).filter fun n => !excluded exclude n).eraseDups

open Sampling

variable {k : ℕ} {nodes : List NodeState} {exclude : Option (NodeState → Bool)} {rand : ℕ → ℕ}

theorem hits_succ {t : ℕ} {n : NodeState} (h : nodes[rand t % nodes.length]? = some n) :
    hits nodes rand (t + 1) = hits nodes rand t ++ [n] := by
  rw [hits,List.range_succ,List.filterMap_append]
  simp [hits,h]

theorem hits_mem {t : ℕ} {n : NodeState} (h : n ∈ hits nodes rand t) : n ∈ nodes := by
  obtain ⟨i,-,hi⟩ := List.mem_filterMap.mp h
  exact List.mem_of_getElem? hi

theorem hits_mono {t t' : ℕ} (h : t ≤ t') : hits nodes rand t <+: hits nodes rand t' := by
  obtain ⟨d,rfl⟩ := Nat.exists_eq_add_of_le h
  rw [hits,hits,List.range_add,List.filterMap_append]
  exact List.prefix_append _ _

theorem mem_drawn {t : ℕ} {n : NodeState} :
    n ∈ drawn nodes exclude rand t ↔ n ∈ hits nodes rand t ∧ excluded exclude n = false := by
  rw [drawn,List.mem_eraseDups,List.mem_filter,Bool.not_eq_true']

theorem drawn_mono {t t' : ℕ} (h : t ≤ t') :
    drawn nodes exclude rand t <+: drawn nodes exclude rand t' :=
  eraseDups_prefix ((hits_mono h).filter _)

section Names

variable (hnames : (nodes.map fun n => n.n.name).Nodup)
include hnames

theorem pick_eq {kNodes : List NodeState} (hsub : kNodes ⊆ nodes) {n : NodeState} (hn : n ∈ nodes)
    (hlen : kNodes.length < k) :
    pick exclude kNodes n = if excluded exclude n then kNodes else keep k kNodes n := by
  have hany : (kNodes.any fun m => n.n.name = m.n.name) = decide (n ∈ kNodes) := by
    rw [Bool.eq_iff_iff,List.any_eq_true,decide_eq_true_eq]
    constructor
    · rintro ⟨m,hm,hname⟩
      have hnm := List.inj_on_of_nodup_map hnames hn (hsub hm) (by simpa using hname)
      exact hnm ▸ hm
    · exact fun h => ⟨n,h,by simp⟩
  rw [pick,hany,keep,if_neg (Nat.not_le.mpr hlen)]
  simp only [decide_eq_true_eq]

theorem drawn_succ {t : ℕ} {n : NodeState} (h : nodes[rand t % nodes.length]? = some n)
    (hlen : ((drawn nodes exclude rand t).take k).length < k) :
    (drawn nodes exclude rand (t + 1)).take k =
      pick exclude ((drawn nodes exclude rand t).take k) n := by
  have hsub : (drawn nodes exclude rand t).take k ⊆ nodes := fun m hm =>
    hits_mem (mem_drawn.mp (List.mem_of_mem_take hm)).1
  rw [pick_eq hnames hsub (List.mem_of_getElem? h) hlen,drawn,hits_succ h,List.filter_append]
  by_cases hex : excluded exclude n = true
  · simp [hex,drawn]
  · have hone : [n].filter (fun n => !excluded exclude n) = [n] := by simp [hex]
    rw [if_neg hex,hone,take_eraseDups_snoc]
    rfl

theorem turn_loop {t : ℕ} (ht : t < 3 * nodes.length) (hint : t < 2 ^ 31 - 1)
    (hlen : (drawn nodes exclude rand t).length < k) :
    turn k nodes exclude rand (.loop t ((drawn nodes exclude rand t).take k)) =
      .loop (t + 1) ((drawn nodes exclude rand (t + 1)).take k) := by
  have hlen' : ((drawn nodes exclude rand t).take k).length < k := by
    rw [List.length_take]
    omega
  have hn : rand t % nodes.length < nodes.length := Nat.mod_lt _ (by omega)
  rw [drawn_succ hnames (List.getElem?_eq_getElem hn) hlen',turn,if_pos ⟨ht,hlen'⟩,
    if_neg (by omega),List.getElem?_eq_getElem hn]
  exact if_neg hint.ne

/-- Up to its end the loop holds what the draws so far have brought. -/
theorem turns_loop {t : ℕ} (ht : t ≤ 3 * nodes.length) (hint : t ≤ 2 ^ 31 - 1)
    (hlen : ∀ i < t, (drawn nodes exclude rand i).length < k) :
    (turn k nodes exclude rand)^[t] (.loop 0 []) =
      .loop t ((drawn nodes exclude rand t).take k) := by
  induction t with
  | zero => simp [drawn,hits]
  | succ t ih =>
    rw [Function.iterate_succ_apply',ih (by omega) (by omega) fun i hi => hlen i (by omega)]
    exact turn_loop hnames (by omega) (by omega) (hlen t (Nat.lt_succ_self t))

end Names

theorem turns_final {s : RandomNodes} (h : turn k nodes exclude rand s = s) {t t' : ℕ}
    (ht : (turn k nodes exclude rand)^[t] (.loop 0 []) = s) (hle : t ≤ t') :
    (turn k nodes exclude rand)^[t'] (.loop 0 []) = s := by
  obtain ⟨d,rfl⟩ := Nat.exists_eq_add_of_le' hle
  rw [Function.iterate_add_apply,ht]
  exact Function.iterate_fixed h d

theorem turns_unique {s s' : RandomNodes} (h : turn k nodes exclude rand s = s)
    (h' : turn k nodes exclude rand s' = s') {t t' : ℕ}
    (ht : (turn k nodes exclude rand)^[t] (.loop 0 []) = s)
    (ht' : (turn k nodes exclude rand)^[t'] (.loop 0 []) = s') : s = s' :=
  (turns_final h ht (Nat.le_max_left t t')).symm.trans (turns_final h' ht' (Nat.le_max_right t t'))

/-- The call returns the first `k` distinct nodes that are not excluded among those that the
first `3 * nodes.size()` draws hit. -/
structure Chooses (k : ℕ) (nodes : List NodeState) (exclude : Option (NodeState → Bool))
    (rand : ℕ → ℕ) (r : List NodeState) : Prop where
  returns : ∃ t, (turn k nodes exclude rand)^[t] (.loop 0 []) = .returned r
  first : r = (drawn nodes exclude rand (3 * nodes.length)).take k
  eligible : ∀ n ∈ r, n ∈ nodes ∧ excluded exclude n = false
  distinct : (r.map fun n => n.n.name).Nodup
  enough : r.length ≤ k
  short : r.length < k → ∀ l : List NodeState, l.Nodup →
    (∀ n ∈ l, n ∈ hits nodes rand (3 * nodes.length) ∧ excluded exclude n = false) → l.length < k

theorem chooses_of_returned (hnames : (nodes.map fun n => n.n.name).Nodup) {t : ℕ}
    (h : (turn k nodes exclude rand)^[t] (.loop 0 []) =
      .returned ((drawn nodes exclude rand (3 * nodes.length)).take k)) :
    Chooses k nodes exclude rand ((drawn nodes exclude rand (3 * nodes.length)).take k) := by
  have hmem : ∀ n ∈ (drawn nodes exclude rand (3 * nodes.length)).take k,
      n ∈ nodes ∧ excluded exclude n = false := by
    intro n hn
    obtain ⟨hhit,hex⟩ := mem_drawn.mp (List.mem_of_mem_take hn)
    exact ⟨hits_mem hhit,hex⟩
  refine ⟨⟨t,h⟩,rfl,hmem,?_,List.length_take_le _ _,fun hshort l hl hsub => ?_⟩
  · refine List.Nodup.map_on (fun n hn m hm hname => ?_)
      ((eraseDups_nodup _).sublist (List.take_sublist _ _))
    exact List.inj_on_of_nodup_map hnames (hmem n hn).1 (hmem m hm).1 hname
  · rw [List.length_take] at hshort
    have hle : l.length ≤ (drawn nodes exclude rand (3 * nodes.length)).length :=
      (List.subperm_of_subset hl fun n hn => mem_drawn.mpr (hsub n hn)).length_le
    omega

theorem returns_of_bound (hnames : (nodes.map fun n => n.n.name).Nodup)
    (h : 3 * nodes.length < 2 ^ 31 ∨ k ≤ (drawn nodes exclude rand (2 ^ 31 - 1)).length) :
    ∃ t, (turn k nodes exclude rand)^[t] (.loop 0 []) =
      .returned ((drawn nodes exclude rand (3 * nodes.length)).take k) := by
  have hend : ∃ t, 3 * nodes.length ≤ t ∨ k ≤ (drawn nodes exclude rand t).length :=
    ⟨3 * nodes.length,Or.inl (Nat.le_refl _)⟩
  obtain ⟨t,ht,hmin⟩ : ∃ t, (3 * nodes.length ≤ t ∨ k ≤ (drawn nodes exclude rand t).length) ∧
      ∀ i < t, ¬(3 * nodes.length ≤ i ∨ k ≤ (drawn nodes exclude rand i).length) :=
    ⟨Nat.find hend,Nat.find_spec hend,fun _ => Nat.find_min hend⟩
  have hbound : t ≤ 3 * nodes.length :=
    Nat.le_of_not_lt fun hlt => hmin _ hlt (Or.inl (Nat.le_refl _))
  have hint : t ≤ 2 ^ 31 - 1 := by
    rcases h with h | h
    · omega
    · exact Nat.le_of_not_lt fun hlt => hmin _ hlt (Or.inr h)
  have hlen : ∀ i < t, (drawn nodes exclude rand i).length < k := fun i hi =>
    Nat.lt_of_not_le fun hk => hmin i hi (Or.inr hk)
  have hlast : turn k nodes exclude rand (.loop t ((drawn nodes exclude rand t).take k)) =
      .returned ((drawn nodes exclude rand t).take k) := by
    refine if_neg fun ⟨hlt,hk⟩ => ?_
    rw [List.length_take] at hk
    omega
  have htake : (drawn nodes exclude rand (3 * nodes.length)).take k =
      (drawn nodes exclude rand t).take k := by
    rcases ht with ht | ht
    · rw [Nat.le_antisymm hbound ht]
    · exact take_eraseDups_eq ((hits_mono hbound).filter _) ht
  exact ⟨t + 1,by rw [Function.iterate_succ_apply',turns_loop hnames hbound hint hlen,hlast,htake]⟩

/-- Otherwise the counter overflows. -/
theorem undefined_of_overflow (hnames : (nodes.map fun n => n.n.name).Nodup)
    (hsize : 2 ^ 31 ≤ 3 * nodes.length)
    (hfew : (drawn nodes exclude rand (2 ^ 31 - 1)).length < k) :
    (turn k nodes exclude rand)^[2 ^ 31 - 1 + 1] (.loop 0 []) = .undefined := by
  have hlen : ∀ i < 2 ^ 31 - 1, (drawn nodes exclude rand i).length < k := fun i hi =>
    Nat.lt_of_le_of_lt (drawn_mono hi.le).length_le hfew
  have hn : rand (2 ^ 31 - 1) % nodes.length < nodes.length := Nat.mod_lt _ (by omega)
  have hguard : 2 ^ 31 - 1 < 3 * nodes.length ∧
      ((drawn nodes exclude rand (2 ^ 31 - 1)).take k).length < k := by
    rw [List.length_take]
    omega
  rw [Function.iterate_succ_apply',turns_loop hnames (by omega) (Nat.le_refl _) hlen,turn,
    if_pos hguard,if_neg (by omega),List.getElem?_eq_getElem hn]
  exact if_pos rfl

theorem not_chooses {t : ℕ} (h : (turn k nodes exclude rand)^[t] (.loop 0 []) = .undefined) :
    ¬∃ r, Chooses k nodes exclude rand r := by
  rintro ⟨r,⟨t',ht'⟩,-⟩
  cases turns_unique rfl rfl h ht'

theorem kRandomNodes_eq (hnames : (nodes.map fun n => n.n.name).Nodup) :
    kRandomNodes k nodes (excluded exclude) ((List.range (3 * nodes.length)).map rand) =
      (drawn nodes exclude rand (3 * nodes.length)).take k := by
  have htake : ((List.range (3 * nodes.length)).map rand).take (3 * nodes.length) =
      (List.range (3 * nodes.length)).map rand := List.take_of_length_le (by simp)
  rw [kRandomNodes,htake,List.foldl_map]
  induction 3 * nodes.length with
  | zero => simp [drawn,hits]
  | succ t ih =>
    rw [List.range_succ,List.foldl_concat,ih]
    cases hn : nodes[rand t % nodes.length]? with
    | none =>
      have hhits : hits nodes rand (t + 1) = hits nodes rand t := by
        rw [hits,List.range_succ,List.filterMap_append]
        simp [hits,hn]
      have hdrawn : drawn nodes exclude rand (t + 1) = drawn nodes exclude rand t := by
        rw [drawn,hhits,drawn]
      rw [hdrawn]
      split <;> rfl
    | some n =>
      by_cases hk : k ≤ ((drawn nodes exclude rand t).take k).length
      · rw [if_pos hk]
        have hlen : k ≤ (drawn nodes exclude rand t).length := by
          rw [List.length_take] at hk
          omega
        exact (take_eraseDups_eq ((hits_mono (Nat.le_succ t)).filter _) hlen).symm
      · rw [if_neg hk,drawn_succ hnames hn (Nat.lt_of_not_le hk)]
        rfl

/-- The loop refines its summary: whatever it returns is what `kRandomNodes` gives. -/
theorem returned_eq (hnames : (nodes.map fun n => n.n.name).Nodup) {t : ℕ} {r : List NodeState}
    (h : (turn k nodes exclude rand)^[t] (.loop 0 []) = .returned r) :
    r = kRandomNodes k nodes (excluded exclude) ((List.range (3 * nodes.length)).map rand) := by
  rw [kRandomNodes_eq hnames]
  by_cases hbound : 3 * nodes.length < 2 ^ 31 ∨
      k ≤ (drawn nodes exclude rand (2 ^ 31 - 1)).length
  · obtain ⟨t',ht'⟩ := returns_of_bound hnames hbound
    exact returned.inj (turns_unique rfl rfl h ht')
  · obtain ⟨hsize,hfew⟩ := not_or.mp hbound
    have hundefined := undefined_of_overflow hnames (by omega) (Nat.lt_of_not_le hfew)
    cases turns_unique rfl rfl h hundefined

theorem kRandomNodes_chooses_iff (hnames : (nodes.map fun n => n.n.name).Nodup) :
    (∃ r, Chooses k nodes exclude rand r) ↔
      3 * nodes.length < 2 ^ 31 ∨ k ≤ (drawn nodes exclude rand (2 ^ 31 - 1)).length := by
  constructor
  · intro hchooses
    by_contra h
    obtain ⟨hsize,hfew⟩ := not_or.mp h
    exact not_chooses (undefined_of_overflow hnames (by omega) (Nat.lt_of_not_le hfew)) hchooses
  · intro h
    obtain ⟨t,ht⟩ := returns_of_bound hnames h
    exact ⟨_,chooses_of_returned hnames ht⟩

/-- Two indirect probes are looked for among three nodes, of which the first is the local one;
the draws hit the second node twice. -/
theorem kRandomNodes_chooses_three :
    let node (name : String) : NodeState := ⟨⟨name,"10.0.0.1",6666⟩,1,.stateAlive,0⟩
    let nodes := [node "a",node "b",node "c"]
    let exclude := some fun n : NodeState => decide (n.n.name = "a")
    let rand (i : ℕ) := [7,4,0,1,2].getD i 0
    drawn nodes exclude rand 9 = [node "b",node "c"] ∧ ∃ r, Chooses 2 nodes exclude rand r := by
  intro node nodes exclude rand
  exact ⟨by decide,(kRandomNodes_chooses_iff (by decide)).mpr (Or.inl (by decide))⟩

/-- A vector with so many nodes that three times their number does not fit an `int`. -/
def manyNodes : List NodeState :=
  (List.range 715827883).map fun i => ⟨⟨i.repr,"10.0.0.1",6666⟩,1,.stateLeft,0⟩

/-- When all of them have left, `gossip` counts beyond the range of its counter. -/
theorem kRandomNodes_overflows :
    (manyNodes.map fun n => n.n.name).Nodup ∧
      ¬∃ r, Chooses 1 manyNodes (some (gossipExcludes (defaultLANConfig "node") 30000000 0))
        (fun i => i) r := by
  have hnames : (manyNodes.map fun n => n.n.name).Nodup := by
    rw [manyNodes,List.map_map]
    exact List.nodup_range.map repr_injective
  have hsize : manyNodes.length = 715827883 := by rw [manyNodes,List.length_map,List.length_range]
  have hnone : ∀ n ∈ manyNodes,
      excluded (some (gossipExcludes (defaultLANConfig "node") 30000000 0)) n = true := by
    intro n hn
    obtain ⟨i,-,rfl⟩ := List.mem_map.mp hn
    simp [excluded,gossipExcludes]
  have hfew : (drawn manyNodes (some (gossipExcludes (defaultLANConfig "node") 30000000 0))
      (fun i => i) (2 ^ 31 - 1)).length < 1 := by
    refine Nat.lt_of_not_le fun hpos => ?_
    obtain ⟨n,hn⟩ := List.length_pos_iff_exists_mem.mp hpos
    obtain ⟨hhit,hex⟩ := mem_drawn.mp hn
    rw [hnone n (hits_mem hhit)] at hex
    cases hex
  exact ⟨hnames,not_chooses (undefined_of_overflow hnames (by rw [hsize]; decide) hfew)⟩

end RandomNodes
end GossipMemberlist
