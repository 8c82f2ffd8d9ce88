import GossipMemberlist.Accusations
import GossipMemberlist.Deliveries
import GossipMemberlist.Threads

/-!
# Anti-entropy

What `mergeRemoteState` makes of another member's state: each entry is taken in by
the handler it is translated to, and touches the node that it names and no other.
An entry that confirms an overdue suspicion keeps the lock for good.
-/

namespace GossipMemberlist

variable {cfg : Config} {fl : Floats}

/-- What the merge makes of the record of the node that an entry is about. -/
def PushNodeState.Absorbed (st : PushNodeState) : Option NodeState → Option NodeState → Prop
  | none, after => after.isSome = true ↔ st.state = .stateAlive
  | some s, after => ∃ s', after = some s' ∧ match st.state with
    | .stateAlive => st.incarnation ≤ s'.incarnation
    | .stateSuspect | .stateDead => st.incarnation < s'.incarnation ∨ s'.state ≠ .stateAlive
    | .stateLeft => st.incarnation < s'.incarnation ∨ s'.deadOrLeft = true
    | .unrecognized _ => s' = s

def PushNodeState.alive (st : PushNodeState) : Alive := ⟨st.incarnation,st.name,st.addr,st.port⟩

def PushNodeState.suspicion (cfg : Config) (st : PushNodeState) : Suspect :=
  ⟨st.incarnation,st.name,cfg.name⟩

def PushNodeState.farewell (st : PushNodeState) : Dead := ⟨st.incarnation,st.name,st.name⟩

/-- The entry confirms a suspicion whose time is over already. -/
def PushNodeState.Stalls (cfg : Config) (fl : Floats) (e : Env) (m : Member) (st : PushNodeState) :
    Prop :=
  (st.state = .stateSuspect ∨ st.state = .stateDead) ∧ m.Overdue fl e.now (st.suspicion cfg)

def PushNodeState.AddressKnown (m : Member) (st : PushNodeState) : Prop :=
  ∀ s ∈ m.find st.name, st.addr = s.n.addr ∧ st.port = s.n.port.toNat

namespace Member

theorem mergeState_alive {m : Member} {e : Env} {st : PushNodeState} (hs : st.state = .stateAlive) :
    m.mergeState cfg fl e st = m.aliveNode cfg e (genAliveBroadcast st.alive) false (-1) := by
  simp only [mergeState,hs,PushNodeState.alive]

theorem mergeState_suspicion {m : Member} {e : Env} {st : PushNodeState}
    (hs : st.state = .stateSuspect ∨ st.state = .stateDead) :
    m.mergeState cfg fl e st =
      m.suspectNode cfg fl e (genSuspectBroadcast (st.suspicion cfg)) := by
  rcases hs with hs | hs <;> simp only [mergeState,hs,PushNodeState.suspicion]

theorem mergeState_farewell {m : Member} {e : Env} {st : PushNodeState}
    (hs : st.state = .stateLeft) :
    m.mergeState cfg fl e st = m.deadNode cfg e (genDeadBroadcast st.farewell) := by
  simp only [mergeState,hs,PushNodeState.farewell]

theorem mergeState_elsewhere (fl : Floats) {m : Member} (hm : m.Sound cfg) (e : Env)
    (st : PushNodeState) : m.SameElsewhere st.name (m.mergeState cfg fl e st) := by
  cases hs : st.state with
  | stateAlive =>
    rw [mergeState_alive hs]
    exact aliveNode_elsewhere hm e (genAliveBroadcast st.alive) (-1)
  | stateSuspect =>
    rw [mergeState_suspicion (Or.inl hs)]
    exact suspectNode_elsewhere hm e (genSuspectBroadcast (st.suspicion cfg))
  | stateDead =>
    rw [mergeState_suspicion (Or.inr hs)]
    exact suspectNode_elsewhere hm e (genSuspectBroadcast (st.suspicion cfg))
  | stateLeft =>
    rw [mergeState_farewell hs]
    exact deadNode_elsewhere hm e (genDeadBroadcast st.farewell)
  | unrecognized v =>
    simp only [mergeState,hs]
    exact .refl _ _

theorem refute_find (cfg : Config) {m : Member} {x : String} {r : ℕ}
    (hr : m.table.nodeMap x = some r) {e : Env} {accusedInc : ℕ}
    (hinc : accusedInc + raises e.before + raises e.between < 2 ^ 32 - 1) :
    ∃ s, (m.refute cfg e r accusedInc).find x = some s ∧ accusedInc < s.incarnation := by
  obtain ⟨hmap,hheap,hlt⟩ := refute_beats cfg hr hinc
  refine ⟨_,Table.find_eq (by rw [hmap]; exact hr),?_⟩
  rw [hheap]
  exact hlt

theorem aliveNode_absorbs {m : Member} (hm : m.Settled cfg) (hleave : m.leave = false)
    (hd : m.deadlocked = false) {b : Broadcast}
    (haddr : ∀ s, m.find b.alive.node = some s → addressDiffers b.alive s = false)
    {e : Env} (hinc : b.alive.incarnation + raises e.before + raises e.between < 2 ^ 32 - 1)
    (notifyFd : ℤ) :
    ∃ s, (m.aliveNode cfg e b false notifyFd).find b.alive.node = some s ∧
      b.alive.incarnation ≤ s.incarnation := by
  have h := aliveNode_exit hm.known e b notifyFd
  generalize m.aliveNode cfg e b false notifyFd = m' at h ⊢
  have hsame {r : ℕ} (hr : m.table.nodeMap b.alive.node = some r) :
      addressDiffers b.alive (m.table.heap r) = false := haddr _ (Table.find_eq hr)
  cases h with
  | blocked h => rw [hd] at h; cases h
  | leaving _ _ h => rw [hleave] at h; cases h
  | created _ hnone _ hzero =>
    have hrecord := congrArg Cell.record (addNode_cell (e := e) hnone b.alive.node)
    rw [if_pos rfl] at hrecord
    exact ⟨_,hrecord,hzero.le⟩
  | joined _ hnone => exact ⟨_,(join_cell hm.queue hnone notifyFd).1.record_eq,le_refl _⟩
  | conflict _ hr h => rw [hsame hr] at h; cases h
  | stale _ hr _ _ hle => exact ⟨_,Table.find_eq hr,hle⟩
  | accepted _ hr => exact ⟨_,(acceptAlive_cell hm.queue hr e notifyFd).1.record_eq,le_refl _⟩
  | replaced _ hr _ h => rw [hsame hr] at h; cases h
  | staleLocal _ hr _ _ hlt => exact ⟨_,Table.find_eq hr,hlt.le⟩
  | echoed _ hr _ _ _ heq => exact ⟨_,Table.find_eq (t := m.table) hr,heq.le⟩
  | refuted _ hr =>
    obtain ⟨s,hs,hlt⟩ := refute_find cfg (m := m.setTimer cfg.name none) hr hinc
    exact ⟨s,hs,hlt.le⟩

theorem suspectNode_absorbs (fl : Floats) {m : Member} (hm : m.Settled cfg)
    (hd : m.deadlocked = false) {b : Broadcast} {e : Env}
    (hinc : b.suspect.incarnation + raises e.before + raises e.between < 2 ^ 32 - 1) :
    (m.find b.suspect.node = none ∧ m.suspectNode cfg fl e b = m) ∨
      m.find b.suspect.node ≠ none ∧ ∃ s, (m.suspectNode cfg fl e b).find b.suspect.node = some s ∧
        (b.suspect.incarnation < s.incarnation ∨ s.state ≠ .stateAlive) := by
  have h : SuspectExit cfg fl e b.suspect m _ := suspectNode_exit m e b
  generalize m.suspectNode cfg fl e b = m' at h ⊢
  have hknown {r : ℕ} (hr : m.table.nodeMap b.suspect.node = some r) :
      m.find b.suspect.node ≠ none := fun h => by
    cases h.symm.trans (Table.find_eq hr)
  cases h with
  | blocked h => rw [hd] at h; cases h
  | unknown _ hnone => exact Or.inl ⟨Table.find_eq_none.mpr hnone,rfl⟩
  | stale _ hr hlt => exact Or.inr ⟨hknown hr,_,Table.find_eq hr,Or.inl hlt⟩
  | @confirmed r t _ hr _ ht =>
    obtain ⟨q,d,h,-⟩ := confirmTimer_frame fl e b.suspect t m
    obtain ⟨-,s,hs,hsuspect,-⟩ := (hm.timed b.suspect.node).episode t ht
    rw [h]
    exact Or.inr ⟨hknown hr,s,hs,Or.inr (by simp [hsuspect])⟩
  | settled _ hr _ _ hs => exact Or.inr ⟨hknown hr,_,Table.find_eq hr,Or.inr hs⟩
  | refuted _ hr =>
    obtain ⟨s,hs,hlt⟩ := refute_find cfg hr hinc
    exact Or.inr ⟨hknown hr,s,hs,Or.inl hlt⟩
  | suspected _ hr =>
    have hcell := (startSuspicion_cell cfg fl hm.queue hr e).1
    exact Or.inr ⟨hknown hr,_,hcell.record_eq,Or.inr nofun⟩

theorem deadNode_absorbs {m : Member} (hm : m.Settled cfg) (hd : m.deadlocked = false)
    {b : Broadcast} {e : Env}
    (hinc : b.dead.incarnation + raises e.before + raises e.between < 2 ^ 32 - 1) :
    (m.find b.dead.node = none ∧ m.deadNode cfg e b = m) ∨
      m.find b.dead.node ≠ none ∧ ∃ s, (m.deadNode cfg e b).find b.dead.node = some s ∧
        (b.dead.incarnation < s.incarnation ∨ s.deadOrLeft = true) := by
  have h : DeadExit cfg e b.dead m _ := deadNode_exit m e b
  generalize m.deadNode cfg e b = m' at h ⊢
  have hknown {r : ℕ} (hr : m.table.nodeMap b.dead.node = some r) :
      m.find b.dead.node ≠ none := fun h => by
    cases h.symm.trans (Table.find_eq hr)
  cases h with
  | blocked h => rw [hd] at h; cases h
  | unknown _ hnone => exact Or.inl ⟨Table.find_eq_none.mpr hnone,rfl⟩
  | stale _ hr hlt => exact Or.inr ⟨hknown hr,_,Table.find_eq hr,Or.inl hlt⟩
  | settled _ hr _ hdead => exact Or.inr ⟨hknown hr,_,Table.find_eq (t := m.table) hr,Or.inr hdead⟩
  | refuted _ hr =>
    obtain ⟨s,hs,hlt⟩ := refute_find cfg (m := m.setTimer cfg.name none) hr hinc
    exact Or.inr ⟨hknown hr,s,hs,Or.inl hlt⟩
  | buried _ hr =>
    refine Or.inr ⟨hknown hr,_,(acceptDead_cell hm.queue hr e _).1.record_eq,Or.inr ?_⟩
    rw [deadRecord,NodeState.deadOrLeft]
    split <;> rfl

theorem mergeState_absorbed (fl : Floats) {m : Member} (hm : m.Settled cfg)
    (hleave : m.leave = false) (hd : m.deadlocked = false) {st : PushNodeState}
    (haddr : st.AddressKnown m) {e : Env}
    (hinc : st.incarnation + raises e.before + raises e.between < 2 ^ 32 - 1) :
    st.Absorbed (m.find st.name) ((m.mergeState cfg fl e st).find st.name) := by
  have hsuspect (hs : st.state = .stateSuspect ∨ st.state = .stateDead) :
      st.Absorbed (m.find st.name) ((m.mergeState cfg fl e st).find st.name) := by
    rw [mergeState_suspicion hs]
    rcases suspectNode_absorbs fl hm hd (b := genSuspectBroadcast (st.suspicion cfg)) hinc with
      ⟨hnone,h⟩ | ⟨hknown,s',hs',h⟩
    · rw [h,show m.find st.name = none from hnone]
      rcases hs with hs | hs <;> simp [PushNodeState.Absorbed,hs]
    · obtain ⟨s,hfind⟩ := Option.ne_none_iff_exists'.mp hknown
      rw [show m.find st.name = some s from hfind]
      rcases hs with hs | hs <;> exact ⟨s',hs',by rw [hs]; exact h⟩
  cases hs : st.state with
  | stateAlive =>
    rw [mergeState_alive hs]
    have haddr' (s : NodeState) (hfind : m.find st.name = some s) :
        addressDiffers st.alive s = false := by
      obtain ⟨ha,hp⟩ := haddr s hfind
      simp [addressDiffers,PushNodeState.alive,ha,hp]
    obtain ⟨s',hs',hle⟩ :=
      aliveNode_absorbs hm hleave hd (b := genAliveBroadcast st.alive) haddr' hinc (-1)
    cases m.find st.name with
    | none =>
      rw [show Member.find st.name _ = some s' from hs']
      simp [PushNodeState.Absorbed,hs]
    | some s => exact ⟨s',hs',by rw [hs]; exact hle⟩
  | stateSuspect => exact hsuspect (Or.inl hs)
  | stateDead => exact hsuspect (Or.inr hs)
  | stateLeft =>
    rw [mergeState_farewell hs]
    rcases deadNode_absorbs hm hd (b := genDeadBroadcast st.farewell) hinc with
      ⟨hnone,h⟩ | ⟨hknown,s',hs',h⟩
    · rw [h,show m.find st.name = none from hnone]
      simp [PushNodeState.Absorbed,hs]
    · obtain ⟨s,hfind⟩ := Option.ne_none_iff_exists'.mp hknown
      rw [show m.find st.name = some s from hfind]
      exact ⟨s',hs',by rw [hs]; exact h⟩
  | unrecognized v =>
    have h : m.mergeState cfg fl e st = m := by simp only [mergeState,hs]
    rw [h]
    cases m.find st.name with
    | none => simp [PushNodeState.Absorbed,hs]
    | some s => exact ⟨s,rfl,by rw [hs]⟩

/-- Only an overdue confirmation keeps the lock. -/
theorem mergeState_deadlocked (fl : Floats) (e : Env) (st : PushNodeState) {m : Member}
    (hm : m.Sound cfg) : (m.mergeState cfg fl e st).deadlocked = false ↔
      m.deadlocked = false ∧ ¬st.Stalls cfg fl e m := by
  cases hd : m.deadlocked with
  | true =>
    have h : Effect cfg fl m _ _ := mergeState_effect hm e st
    simp [h.deadlocked hd]
  | false =>
    have hsuspect (hs : st.state = .stateSuspect ∨ st.state = .stateDead) :
        (m.mergeState cfg fl e st).deadlocked = false ↔ false = false ∧ ¬st.Stalls cfg fl e m := by
      have h : m.Relocks _ ↔ m.Overdue fl e.now (st.suspicion cfg) :=
        relocks_iff_overdue cfg fl e (genSuspectBroadcast (st.suspicion cfg)) m
      rw [mergeState_suspicion hs]
      constructor
      · intro hfree
        refine ⟨rfl,fun hstall => ?_⟩
        have hlocked := (h.mpr hstall.2).2
        rw [hfree] at hlocked
        cases hlocked
      · rintro ⟨-,hstall⟩
        by_contra hlocked
        exact hstall ⟨hs,h.mp ⟨hd,by simpa using hlocked⟩⟩
    cases hs : st.state with
    | stateAlive =>
      rw [mergeState_alive hs,aliveNode_deadlocked hm,hd]
      simp [PushNodeState.Stalls,hs]
    | stateSuspect => exact hsuspect (Or.inl hs)
    | stateDead => exact hsuspect (Or.inr hs)
    | stateLeft =>
      rw [mergeState_farewell hs,deadNode_deadlocked,hd]
      simp [PushNodeState.Stalls,hs]
    | unrecognized v => simp [mergeState,hs,hd,PushNodeState.Stalls]

end Member

theorem PushNodeState.stalls_congr {x : String} {m m' : Member} (h : m.SameElsewhere x m')
    (hd : m.deadlocked = false) (hd' : m'.deadlocked = false) {st : PushNodeState}
    (hst : st.name ≠ x) (e : Env) : st.Stalls cfg fl e m' ↔ st.Stalls cfg fl e m := by
  obtain ⟨hfind,htimer⟩ := h st.name hst
  have hfind : m'.find (st.suspicion cfg).node = m.find (st.suspicion cfg).node := hfind
  have htimer : m'.nodeTimers (st.suspicion cfg).node = m.nodeTimers (st.suspicion cfg).node :=
    htimer
  rw [Stalls,Stalls,Member.Overdue,Member.Overdue,hd,hd',hfind,htimer]

namespace Process

def merges (env : ℕ → Env) (sts : List (PushNodeState × ℕ)) : List Op :=
  sts.map fun st => .merge st.1 (env st.2)

theorem run_merges_sound (fl : Floats) (env : ℕ → Env) (sts : List (PushNodeState × ℕ))
    {p : Process} (hp : p.member.Sound cfg) :
    (Transitions.run (next cfg fl) p (merges env sts)).member.Sound cfg ∧
      (Transitions.run (next cfg fl) p (merges env sts)).member.leave = p.member.leave := by
  induction sts generalizing p with
  | nil => exact ⟨hp,rfl⟩
  | cons st sts ih =>
    let op : Op := .merge st.1 (env st.2)
    have hleave : (p.next cfg fl op).member.leave = p.member.leave := next_leave fl hp nofun
    obtain ⟨hsound,hrest⟩ := ih (next_sound hp op)
    exact ⟨hsound,hrest.trans hleave⟩

theorem run_merges_elsewhere (fl : Floats) (env : ℕ → Env) {sts : List (PushNodeState × ℕ)}
    {p : Process} (hp : p.member.Sound cfg) {y : String} (hy : y ∉ sts.map (·.1.name)) :
    (Transitions.run (next cfg fl) p (merges env sts)).member.find y = p.member.find y := by
  induction sts generalizing p with
  | nil => rfl
  | cons st sts ih =>
    obtain ⟨hne,hy⟩ := not_or.mp fun h => hy (List.mem_cons.mpr h)
    have helse : p.member.SameElsewhere st.1.name _ :=
      Member.mergeState_elsewhere fl hp (env st.2) st.1
    exact (ih (next_sound hp (.merge st.1 (env st.2))) hy).trans (helse y hne).1

/-- The lock comes free again if no entry stalls, where each may be judged by the table
that the message finds. -/
theorem run_merges_free (fl : Floats) (env : ℕ → Env) {sts : List (PushNodeState × ℕ)}
    (hnames : (sts.map (·.1.name)).Nodup) {p : Process} (hp : p.member.Sound cfg) :
    (Transitions.run (next cfg fl) p (merges env sts)).member.deadlocked = false ↔
      p.member.deadlocked = false ∧ ∀ st ∈ sts, ¬st.1.Stalls cfg fl (env st.2) p.member := by
  induction sts generalizing p with
  | nil => simp [merges]
  | cons st sts ih =>
    obtain ⟨hnew,hnames⟩ := List.nodup_cons.mp hnames
    let op : Op := .merge st.1 (env st.2)
    have helse : p.member.SameElsewhere st.1.name (p.next cfg fl op).member :=
      Member.mergeState_elsewhere fl hp (env st.2) st.1
    have hname (st') (h : st' ∈ sts) : st'.1.name ≠ st.1.name := fun heq =>
      hnew (List.mem_map.mpr ⟨st',h,heq⟩)
    have hlock : (p.next cfg fl op).member.deadlocked = false ↔ _ ∧ _ :=
      Member.mergeState_deadlocked fl (env st.2) st.1 hp
    have hfree := ih hnames (p := p.next cfg fl op) (next_sound hp op)
    have hcongr (hd : p.member.deadlocked = false)
        (hd' : (p.next cfg fl op).member.deadlocked = false) (st') (h : st' ∈ sts) :
        st'.1.Stalls cfg fl (env st'.2) (p.next cfg fl op).member ↔
          st'.1.Stalls cfg fl (env st'.2) p.member :=
      PushNodeState.stalls_congr helse hd hd' (hname st' h) (env st'.2)
    constructor
    · intro hd
      obtain ⟨hd₁,hstall⟩ := hfree.mp hd
      obtain ⟨hd₀,hst⟩ := hlock.mp hd₁
      refine ⟨hd₀,fun st' h => ?_⟩
      rcases List.mem_cons.mp h with rfl | h
      · exact hst
      · exact fun hs => hstall st' h ((hcongr hd₀ hd₁ st' h).mpr hs)
    · rintro ⟨hd₀,hstall⟩
      have hd₁ := hlock.mpr ⟨hd₀,hstall st List.mem_cons_self⟩
      refine hfree.mpr ⟨hd₁,fun st' h hs => ?_⟩
      exact hstall st' (List.mem_cons_of_mem _ h) ((hcongr hd₀ hd₁ st' h).mp hs)

end Process

end GossipMemberlist
