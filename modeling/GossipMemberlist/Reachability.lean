import GossipMemberlist.Address
import GossipMemberlist.Cell

/-!
# The addresses that periodic tasks use

`probe`, the indirect probes, `pushPull` and `gossip` turn the text address of the
records they pick into a socket address, and `Node::FullAddr` ends the process when
the text is not an address. `aliveNode` stores what it is told.
-/

namespace GossipMemberlist

/-- `draws` are the values of `rand()`. -/
def kRandomNodes (k : ℕ) (nodes : List NodeState) (exclude : NodeState → Bool)
    (draws : List ℕ) : List NodeState :=
  (draws.take (3 * nodes.length)).foldl (fun kNodes idx =>
    if k ≤ kNodes.length then kNodes
    else match nodes[idx % nodes.length]? with
      | none => kNodes
      | some n =>
        if exclude n then kNodes
        else if kNodes.any fun m => n.n.name = m.n.name then kNodes
        else kNodes ++ [n]) []

/-- The filter of the indirect probes and of `pushPull`. -/
def excludesAllButAlive (cfg : Config) (n : NodeState) : Bool :=
  n.n.name = cfg.name ∨ n.state ≠ .stateAlive

/-- The filter of `gossip`, which still talks to the recently dead. -/
def gossipExcludes (cfg : Config) (gossipToTheDeadTime ts : ℤ) (n : NodeState) : Bool :=
  if n.n.name = cfg.name then true
  else match n.state with
    | .stateAlive | .stateSuspect => false
    | .stateDead => gossipToTheDeadTime ≤ ts - n.stateChange
    | .stateLeft => true

def Member.records (m : Member) : List NodeState := m.table.nodes.map m.table.heap

theorem mem_kRandomNodes {k : ℕ} {nodes : List NodeState} {exclude : NodeState → Bool}
    {draws : List ℕ} {s : NodeState} (h : s ∈ kRandomNodes k nodes exclude draws) :
    s ∈ nodes ∧ exclude s = false := by
  unfold kRandomNodes at h
  generalize draws.take (3 * nodes.length) = ds at h
  induction ds using List.reverseRecOn with
  | nil => cases h
  | append_singleton ds d ih =>
    rw [List.foldl_concat] at h
    split at h
    · exact ih h
    · split at h
      · exact ih h
      · rename_i n hn
        split at h
        · exact ih h
        · rename_i hex
          split at h
          · exact ih h
          · rcases List.mem_append.mp h with h | h
            · exact ih h
            · rw [List.mem_singleton.mp h]
              exact ⟨List.mem_of_getElem? hn,by simpa using hex⟩

namespace Process

variable {cfg : Config} {fl : Floats}

/-- The alive message of the step brings no address that is not one into the table: it
is about the local node, or keeps a known address, or cannot take over a name, or
carries an address. -/
def BringsAddress (cfg : Config) (p : Process) (op : Op) : Prop :=
  match p.heard cfg op with
  | .alive a e =>
    a.node ≠ cfg.name →
      (∀ s, p.member.find a.node = some s →
        Member.addressDiffers a s = true ∧ Member.canReplace cfg e.now s = true) →
      (inetPton a.addr).isSome
  | _ => True

/-- Every other node's record and every record under probe has an address. -/
structure Addressed (cfg : Config) (p : Process) : Prop where
  sound : p.member.Sound cfg
  records : ∀ x ≠ cfg.name, ∀ s, p.member.find x = some s → (inetPton s.n.addr).isSome
  probing : ∀ n ∈ p.probing, (inetPton n.n.addr).isSome

theorem Addressed.records_next {p : Process} (hp : p.Addressed cfg) {op : Op}
    (h : p.BringsAddress cfg op) : ∀ x ≠ cfg.name, ∀ s,
      (p.next cfg fl op).member.find x = some s → (inetPton s.n.addr).isSome := by
  intro x hx s hs
  obtain ⟨hcell,-,-⟩ := next_cellStep fl hp.sound op x
  have hold := hp.records x hx
  have hnew : ∀ {r t us}, ((p.next cfg fl op).member.cell x).Becomes r t us → r = some s :=
    fun hb => hb.record_eq.symm.trans hs
  unfold BringsAddress at h
  generalize p.heard cfg op = l at hcell h
  cases hcell with
  | kept hk => exact hold s (hnew hk)
  | disarmed _ _ hb => exact hold s (hnew hb)
  | ended _ hb => exact hold s (hnew hb)
  | created hnone ha _ _ hb =>
    subst ha
    rw [← Option.some_inj.mp (hnew hb)]
    exact h hx fun s' hs' => by cases hnone.symm.trans hs'
  | joined hnone ha _ _ hb =>
    subst ha
    rw [← Option.some_inj.mp (hnew hb)]
    exact h hx fun s' hs' => by cases hnone.symm.trans hs'
  | @accepted a e r hr ha _ hd _ hb =>
    have hsame : a.addr = r.n.addr := by
      have hd : ¬(a.addr ≠ r.n.addr ∨ a.port ≠ r.n.port.toNat) := by
        simpa [Member.addressDiffers] using hd
      exact not_not.mp fun hne => hd (Or.inl hne)
    rw [← Option.some_inj.mp (hnew hb)]
    change (inetPton a.addr).isSome
    rw [hsame]
    exact hold r hr
  | @replaced a e r hr ha _ hd hc hb =>
    subst ha
    rw [← Option.some_inj.mp (hnew hb)]
    refine h hx fun s' hs' => ?_
    cases hr.symm.trans hs'
    exact ⟨hd,hc⟩
  | refuted _ hc => exact absurd hc hx
  | confirmed _ _ _ _ hb =>
    rcases hb with hb | ⟨-,hb⟩ <;> exact hold s (hnew hb)
  | @suspected _ _ r _ hr _ _ _ _ _ hb =>
    rw [← Option.some_inj.mp (hnew hb)]
    exact hold r hr
  | @buried _ _ r hr _ _ _ _ hb =>
    rw [← Option.some_inj.mp (hnew hb)]
    exact hold r hr

theorem Addressed.of_node {p : Process} (hp : p.Addressed cfg) {r : ℕ}
    (hr : r ∈ p.member.table.nodes) (hne : (p.member.table.heap r).n.name ≠ cfg.name) :
    (inetPton (p.member.table.heap r).n.addr).isSome := by
  have hfind := Table.find_eq (Table.nodeMap_of_mem hr)
  exact hp.records _ hne _ hfind

theorem probeSection_probes {m : Member} {numCheck : ℕ} {shuffled : List ℕ} {node : NodeState}
    (h : (m.probeSection cfg numCheck shuffled).2 = .probes node) :
    ∃ r ∈ m.table.nodes, m.table.heap r = node ∧ node.n.name ≠ cfg.name := by
  unfold Member.probeSection at h
  split at h
  · cases h
  · split at h
    · cases h
    · rename_i r hr
      dsimp only at h
      split at h
      · cases h
      · rename_i hskip
        cases h
        exact ⟨r,List.mem_of_getElem? hr,rfl,fun hn => hskip (Or.inl hn)⟩

theorem next_probing (cfg : Config) (fl : Floats) (p : Process) (op : Op) :
    (p.next cfg fl op).probing ⊆ p.probing ∨
    ∃ numCheck shuffled node,
      (p.member.probeSection cfg numCheck shuffled).2 = .probes node ∧
        (p.next cfg fl op).probing = node::p.probing := by
  cases op with
  | probe numCheck shuffled =>
    simp only [next,step,probe]
    split
    · exact Or.inl (List.Subset.refl _)
    · cases hexit : (p.member.probeSection cfg numCheck shuffled).2 with
      | probes node => exact Or.inr ⟨numCheck,shuffled,node,hexit,by simp⟩
      | returns => exact Or.inl (by simp)
      | again => exact Or.inl (by simp)
  | probeFail node e =>
    left
    simp only [next,step]
    split
    · exact List.erase_subset
    · exact List.Subset.refl _
  | timerCheck f =>
    left
    simp only [next,step,timerCheck]
    split <;> exact List.Subset.refl _
  | leaveSet =>
    left
    simp only [next,step,leaveSet]
    split <;> exact List.Subset.refl _
  | leaveRead =>
    left
    simp only [next,step,leaveRead]
    split <;> exact List.Subset.refl _
  | timerWake x =>
    left
    simp only [next,step]
    split
    · split <;> exact List.Subset.refl _
    · exact List.Subset.refl _
  | timerEnd | probeSend | updateAlive | leaveTest | sendState | timerDead | leaveDead =>
    left
    simp only [next,step]
    split <;> exact List.Subset.refl _
  | _ => exact Or.inl (List.Subset.refl _)

theorem Addressed.next {p : Process} (hp : p.Addressed cfg) {op : Op}
    (h : p.BringsAddress cfg op) : (p.next cfg fl op).Addressed cfg := by
  refine ⟨next_sound hp.sound op,hp.records_next h,fun n hn => ?_⟩
  rcases next_probing cfg fl p op with hsub | ⟨numCheck,shuffled,node,hnode,heq⟩
  · exact hp.probing n (hsub hn)
  · rw [heq] at hn
    rcases List.mem_cons.mp hn with rfl | hn
    · obtain ⟨r,hr,rfl,hne⟩ := probeSection_probes hnode
      exact hp.of_node hr hne
    · exact hp.probing n hn

theorem Addressed.start (cfg : Config) (leaveFd : ℤ) (e : Env) :
    (start cfg leaveFd e).Addressed cfg := by
  refine ⟨start_sound cfg leaveFd e,fun x hx s hs => ?_,fun n hn => absurd hn List.not_mem_nil⟩
  have hnone := ((start_cell cfg leaveFd e).2 x hx).record_eq
  cases hs.symm.trans hnone

/-- As long as the alive messages that change an address bring one, whatever the
periodic tasks pick has a socket address, so that `FullAddr` does not exit. (A send to it
still throws where the kernel refuses it, as with port 0.) -/
theorem selected_addressed (cfg : Config) (fl : Floats) (leaveFd : ℤ) (e : Env) (ops : List Op)
    (h : Transitions.Along (Process.next cfg fl) (BringsAddress cfg) (Process.start cfg leaveFd e)
      ops) :
    let p := run cfg fl leaveFd e ops
    (∀ numCheck shuffled node, (p.member.probeSection cfg numCheck shuffled).2 = .probes node →
      node.n.fullAddr.isSome) ∧
    (∀ node ∈ p.probing, node.n.fullAddr.isSome) ∧
    (∀ k draws, ∀ s ∈ kRandomNodes k p.member.records (excludesAllButAlive cfg) draws,
      s.n.fullAddr.isSome) ∧
    ∀ gossipToTheDeadTime ts k draws,
      ∀ s ∈ kRandomNodes k p.member.records (gossipExcludes cfg gossipToTheDeadTime ts) draws,
        s.n.fullAddr.isSome := by
  have hp : (run cfg fl leaveFd e ops).Addressed cfg :=
    h.invariant (Addressed.start cfg leaveFd e) fun _ _ hop hp => hp.next hop
  have hrecord : ∀ s ∈ (run cfg fl leaveFd e ops).member.records, s.n.name ≠ cfg.name →
      s.n.fullAddr.isSome := by
    intro s hs hne
    obtain ⟨r,hr,rfl⟩ := List.mem_map.mp hs
    rw [fullAddr_isSome]
    exact hp.of_node hr hne
  refine ⟨fun numCheck shuffled node hnode => ?_,fun node hnode => ?_,fun k draws s hs => ?_,
    fun time ts k draws s hs => ?_⟩
  · obtain ⟨r,hr,rfl,hne⟩ := probeSection_probes hnode
    exact hrecord _ (List.mem_map_of_mem hr) hne
  · rw [fullAddr_isSome]
    exact hp.probing node hnode
  · obtain ⟨hmem,hex⟩ := mem_kRandomNodes hs
    refine hrecord s hmem fun hn => ?_
    simp [excludesAllButAlive,hn] at hex
  · obtain ⟨hmem,hex⟩ := mem_kRandomNodes hs
    refine hrecord s hmem fun hn => ?_
    simp [gossipExcludes,hn] at hex

/-- A member that has heard of b at an address is ready to gossip to it. -/
theorem selected_addressed_heard :
    let cfg := defaultLANConfig "node"
    let p := run cfg .small 3 ⟨0,0,0,0,[],[]⟩
      [.alive (genAliveBroadcast ⟨1,"b","10.0.0.2",6666⟩) (-1) ⟨0,0,1,1,[],[]⟩]
    (p.member.records.map fun s => s.n.name) = ["b","node"] ∧
      ∀ s ∈ kRandomNodes 3 p.member.records (gossipExcludes cfg 30000000 2) [0,1],
        s.n.fullAddr.isSome := by
  intro cfg p
  have h := selected_addressed cfg .small 3 ⟨0,0,0,0,[],[]⟩
    [.alive (genAliveBroadcast ⟨1,"b","10.0.0.2",6666⟩) (-1) ⟨0,0,1,1,[],[]⟩]
    (Transitions.along_cons.mpr ⟨fun _ _ => by decide +kernel,trivial⟩)
  exact ⟨by decide +kernel,h.2.2.2 30000000 2 3 [0,1]⟩

/-- One alive message is enough to make `gossip` end the process. -/
theorem gossip_exits :
    let cfg := defaultLANConfig "node"
    let p := run cfg .small 3 ⟨0,0,0,0,[],[]⟩
      [.alive (genAliveBroadcast ⟨1,"b","b.example",6666⟩) (-1) ⟨0,0,1,1,[],[]⟩]
    ∃ s ∈ kRandomNodes 3 p.member.records (gossipExcludes cfg 30000000 2) [0,1],
      s.n.fullAddr = none := by
  decide +kernel

end Process
end GossipMemberlist
