import GossipMemberlist.AntiEntropy
import GossipMemberlist.Silence

/-!
# Push/pull exchanges

Two members that send each other their state, each as it was before, and take in what
they get agree afterwards on who is alive and under which number: about every third
member at once, and about each other after the next exchange, since a member that is
taken for suspect or dead by the other answers with a new number first.
-/

namespace GossipMemberlist

variable {cfg : Config} {fl : Floats}

/-- The number under which a name is recorded alive. -/
def aliveAs (r : Option NodeState) : Option ℕ :=
  r.bind fun s => if s.state = .stateAlive then some s.incarnation else none

def number (r : Option NodeState) : ℕ := r.elim 0 (·.incarnation)

/-- Who is alive after the record `r` has met the entry `st`. -/
def PushNodeState.joins (st : PushNodeState) (r : Option NodeState) : Option ℕ :=
  if st.state = .stateAlive then
    if number r < st.incarnation then some st.incarnation else aliveAs r
  else if st.incarnation < number r then aliveAs r else none

theorem aliveAs_alive {s : NodeState} (h : s.state = .stateAlive) :
    aliveAs (some s) = some s.incarnation := by simp [aliveAs,h]

theorem aliveAs_not_alive {s : NodeState} (h : s.state ≠ .stateAlive) : aliveAs (some s) = none := by
  simp [aliveAs,h]

theorem aliveAs_eq_some {r : Option NodeState} {k : ℕ} (h : aliveAs r = some k) :
    ∃ s, r = some s ∧ s.incarnation = k := by
  obtain ⟨s,hs,hk⟩ := Option.bind_eq_some_iff.mp h
  split at hk
  · exact ⟨s,hs,Option.some.inj hk⟩
  · cases hk

theorem exists_of_number {r : Option NodeState} (h : 0 < number r) :
    ∃ s, r = some s ∧ number r = s.incarnation := by
  cases r with
  | none => exact absurd h (lt_irrefl 0)
  | some s => exact ⟨s,rfl,rfl⟩

theorem pushNodeState_alive {s : NodeState} :
    (Member.pushNodeState s).state = .stateAlive ↔ s.state = .stateAlive := by
  cases hs : s.state <;> simp [Member.pushNodeState,hs]

/-- It does not matter which of two records meets the other. -/
theorem joins_comm {s s' : NodeState} :
    (Member.pushNodeState s).joins (some s') = (Member.pushNodeState s').joins (some s) := by
  have hinc (s : NodeState) : (Member.pushNodeState s).incarnation = s.incarnation := rfl
  simp only [PushNodeState.joins,pushNodeState_alive,hinc,number,Option.elim]
  by_cases h : s.state = .stateAlive <;> by_cases h' : s'.state = .stateAlive <;>
    simp only [h,h',if_true,if_false,aliveAs_alive,aliveAs_not_alive,ne_eq,not_false_eq_true]
  · rcases lt_trichotomy s.incarnation s'.incarnation with hlt | heq | hlt
    · rw [if_neg hlt.asymm,if_pos hlt]
    · rw [heq]
    · rw [if_pos hlt,if_neg hlt.asymm]
  · -- nobody takes it for alive
    rw [ite_self,ite_self]

theorem joins_none {s : NodeState} (h : 0 < s.incarnation) :
    (Member.pushNodeState s).joins none = aliveAs (some s) := by
  have hinc : (Member.pushNodeState s).incarnation = s.incarnation := rfl
  simp only [PushNodeState.joins,pushNodeState_alive,hinc,number,Option.elim,h,if_true]
  split
  · rename_i hs
    exact (aliveAs_alive hs).symm
  · rename_i hs
    rw [if_neg (Nat.not_lt_zero _)]
    exact (aliveAs_not_alive hs).symm

namespace Member

/-- An alive message about somebody else is taken when it is newer, or else it changes
nothing. -/
theorem aliveNode_joins {m : Member} (hm : m.Sound cfg) (hd : m.deadlocked = false)
    {b : Broadcast} (hb : b.alive.node ≠ cfg.name)
    (haddr : ∀ s, m.find b.alive.node = some s → addressDiffers b.alive s = false)
    (hpos : 0 < b.alive.incarnation) (e : Env) (notifyFd : ℤ) :
    if number (m.find b.alive.node) < b.alive.incarnation then
      aliveAs ((m.aliveNode cfg e b false notifyFd).find b.alive.node) = some b.alive.incarnation
    else (m.aliveNode cfg e b false notifyFd).find b.alive.node = m.find b.alive.node := by
  have h := aliveNode_exit hm.known e b notifyFd
  generalize m.aliveNode cfg e b false notifyFd = m' at h ⊢
  have hsame {r : ℕ} (hr : m.table.nodeMap b.alive.node = some r) :
      addressDiffers b.alive (m.table.heap r) = false := haddr _ (Table.find_eq hr)
  have hnumber {r : ℕ} (hr : m.table.nodeMap b.alive.node = some r) :
      number (m.find b.alive.node) = (m.table.heap r).incarnation := by
    rw [show m.find b.alive.node = some _ from Table.find_eq hr]
    rfl
  cases h with
  | blocked h => cases hd.symm.trans h
  | leaving _ h => exact absurd h hb
  | created _ _ _ h => exact absurd h hpos.ne'
  | joined _ hnone =>
    rw [show m.find b.alive.node = none from Table.find_eq_none.mpr hnone,
      if_pos (show number none < _ from hpos),
      show Member.find _ _ = some _ from (join_cell hm.queue hnone notifyFd).1.record_eq]
    exact aliveAs_alive rfl
  | conflict _ hr h => cases (hsame hr).symm.trans h
  | stale _ hr _ _ hle => rw [if_neg (hnumber hr ▸ Nat.not_lt.mpr hle)]
  | accepted _ hr _ _ hlt =>
    rw [if_pos (hnumber hr ▸ hlt),
      show Member.find _ _ = some _ from (acceptAlive_cell hm.queue hr e notifyFd).1.record_eq]
    exact aliveAs_alive rfl
  | replaced _ hr _ h => cases (hsame hr).symm.trans h
  | staleLocal _ _ h | echoed _ _ h | refuted _ _ h => exact absurd h hb

theorem suspectNode_joins (fl : Floats) {m : Member} (hm : m.Settled cfg)
    (hd : m.deadlocked = false) {b : Broadcast} (hb : b.suspect.node ≠ cfg.name) (e : Env) :
    aliveAs ((m.suspectNode cfg fl e b).find b.suspect.node) =
      if b.suspect.incarnation < number (m.find b.suspect.node) then
        aliveAs (m.find b.suspect.node) else none := by
  have h : SuspectExit cfg fl e b.suspect m _ := suspectNode_exit m e b
  generalize m.suspectNode cfg fl e b = m' at h ⊢
  have hfind {r : ℕ} (hr : m.table.nodeMap b.suspect.node = some r) :
      m.find b.suspect.node = some (m.table.heap r) := Table.find_eq hr
  cases h with
  | blocked h => cases hd.symm.trans h
  | unknown _ hnone =>
    rw [show m.find b.suspect.node = none from Table.find_eq_none.mpr hnone]
    exact (ite_self _).symm
  | stale _ hr hlt => rw [hfind hr,number,Option.elim,if_pos hlt]
  | @confirmed r t _ hr hle ht =>
    obtain ⟨q,d,h,-⟩ := confirmTimer_frame fl e b.suspect t m
    obtain ⟨-,s,hs,hsuspect,-⟩ := (hm.timed b.suspect.node).episode t ht
    cases hs.symm.trans (hfind hr)
    rw [h,hfind hr,number,Option.elim,if_neg (Nat.not_lt.mpr hle)]
    exact (congrArg aliveAs (hfind hr)).trans (aliveAs_not_alive (by rw [hsuspect]; nofun))
  | settled _ hr hle _ hs =>
    rw [hfind hr,number,Option.elim,if_neg (Nat.not_lt.mpr hle)]
    exact aliveAs_not_alive hs
  | refuted _ _ h => exact absurd h hb
  | suspected _ hr _ hle =>
    rw [hfind hr,number,Option.elim,if_neg (Nat.not_lt.mpr hle),
      show Member.find _ _ = some _ from (startSuspicion_cell cfg fl hm.queue hr e).1.record_eq]
    exact aliveAs_not_alive nofun

theorem deadNode_joins {m : Member} (hm : m.Sound cfg) (hd : m.deadlocked = false)
    {b : Broadcast} (hb : b.dead.node ≠ cfg.name) (e : Env) :
    aliveAs ((m.deadNode cfg e b).find b.dead.node) =
      if b.dead.incarnation < number (m.find b.dead.node) then
        aliveAs (m.find b.dead.node) else none := by
  have h : DeadExit cfg e b.dead m _ := deadNode_exit m e b
  generalize m.deadNode cfg e b = m' at h ⊢
  have hfind {r : ℕ} (hr : m.table.nodeMap b.dead.node = some r) :
      m.find b.dead.node = some (m.table.heap r) := Table.find_eq hr
  have hgone {s : NodeState} (h : s.deadOrLeft = true) : aliveAs (some s) = none :=
    aliveAs_not_alive fun halive => by simp [NodeState.deadOrLeft,halive] at h
  cases h with
  | blocked h => cases hd.symm.trans h
  | unknown _ hnone =>
    rw [show m.find b.dead.node = none from Table.find_eq_none.mpr hnone]
    exact (ite_self _).symm
  | stale _ hr hlt => rw [hfind hr,number,Option.elim,if_pos hlt]
  | settled _ hr hle hdead =>
    rw [hfind hr,number,Option.elim,if_neg (Nat.not_lt.mpr hle)]
    exact (congrArg aliveAs (hfind hr)).trans (hgone hdead)
  | refuted _ _ h => exact absurd h hb
  | buried _ hr hle =>
    rw [hfind hr,number,Option.elim,if_neg (Nat.not_lt.mpr hle),
      show Member.find _ _ = some _ from (acceptDead_cell hm.queue hr e _).1.record_eq]
    refine hgone ?_
    simp only [NodeState.deadOrLeft,deadRecord]
    split <;> rfl

/-- What an entry about somebody else makes of the record of its name. -/
theorem mergeState_joins (fl : Floats) {m : Member} (hm : m.Settled cfg)
    (hd : m.deadlocked = false) {s : NodeState} (hs : s.n.name ≠ cfg.name)
    (haddr : (pushNodeState s).AddressKnown m) (hpos : 0 < s.incarnation) (e : Env) :
    let st := pushNodeState s
    aliveAs ((m.mergeState cfg fl e st).find st.name) = st.joins (m.find st.name) ∧
      (s.state = .stateAlive → s.incarnation ≤ number (m.find st.name) →
        (m.mergeState cfg fl e st).find st.name = m.find st.name) := by
  intro st
  cases hstate : s.state with
  | stateAlive =>
    have hst : st.state = .stateAlive := pushNodeState_alive.mpr hstate
    have haddr' (t : NodeState) (hfind : m.find st.name = some t) :
        addressDiffers st.alive t = false := by
      obtain ⟨ha,hp⟩ := haddr t hfind
      simp [addressDiffers,PushNodeState.alive,st,ha,hp]
    have h := aliveNode_joins hm.toSound hd (b := genAliveBroadcast st.alive) hs haddr' hpos e (-1)
    rw [mergeState_alive hst,PushNodeState.joins,if_pos hst]
    split at h
    · rename_i hlt
      exact ⟨h.trans (if_pos hlt).symm,fun _ hle => absurd hlt (Nat.not_lt.mpr hle)⟩
    · rename_i hle
      exact ⟨(congrArg aliveAs h).trans (if_neg hle).symm,fun _ _ => h⟩
  | stateSuspect | stateDead =>
    have hst : st.state = .stateSuspect ∨ st.state = .stateDead := by
      simp [st,pushNodeState,hstate]
    refine ⟨?_,fun h => by cases h⟩
    rw [mergeState_suspicion hst,PushNodeState.joins,if_neg (by rcases hst with h | h <;> simp [h])]
    exact suspectNode_joins fl hm hd (b := genSuspectBroadcast (st.suspicion cfg)) hs e
  | stateLeft =>
    have hst : st.state = .stateLeft := by simp [st,pushNodeState,hstate]
    refine ⟨?_,fun h => by cases h⟩
    rw [mergeState_farewell hst,PushNodeState.joins,if_neg (by simp [hst])]
    exact deadNode_joins hm.toSound hd (b := genDeadBroadcast st.farewell) hs e

/-- A refutation that stays within the counter beats the number it is given, if that is
one of the counter's own. -/
theorem refuteInc_above (cfg : Config) (e : Env) {accusedInc : ℕ} {m : Member}
    (hacc : accusedInc ≤ m.incarnation.total)
    (hwrap : (m.refuteInc cfg e accusedInc).1.incarnation.total < 2 ^ 32) :
    accusedInc < (m.refuteInc cfg e accusedInc).2 := by
  have hle := (refuteInc_spec cfg e accusedInc m).1
  have htotal := refuteInc_total cfg e accusedInc m
  dsimp only at hle htotal
  have hload : m.incarnation.load = m.incarnation.total :=
    WrapCounter.load_eq (hle.trans_lt hwrap)
  split_ifs at htotal with hlt
  · exact hlt.trans_eq htotal.2.symm
  · have hone : (accusedInc - m.incarnation.load + 1) % 2 ^ 32 = 1 := by
      have hzero : accusedInc - m.incarnation.load = 0 := by omega
      rw [hzero]
      rfl
    rw [htotal.2,WrapCounter.load_eq hwrap,htotal.1,hone]
    omega

theorem refute_above {m : Member} {me : ℕ} (hme : m.table.nodeMap cfg.name = some me)
    (halive : (m.table.heap me).state = .stateAlive) {e : Env} {accusedInc : ℕ}
    (hacc : accusedInc ≤ m.incarnation.total)
    (hwrap : (m.refute cfg e me accusedInc).incarnation.total < 2 ^ 32) :
    ∃ own, (m.refute cfg e me accusedInc).find cfg.name = some own ∧ own.state = .stateAlive ∧
      accusedInc < own.incarnation := by
  have heq := refute_eq cfg e accusedInc hme
  have hcounter : (m.refute cfg e me accusedInc).incarnation =
      (m.refuteInc cfg e accusedInc).1.incarnation := by rw [heq]
  rw [hcounter] at hwrap
  refine ⟨{ m.table.heap me with incarnation := (m.refuteInc cfg e accusedInc).2 },?_,halive,
    refuteInc_above cfg e hacc hwrap⟩
  rw [heq]
  exact (Table.find_modify hme (fun s => { s with
    incarnation := (m.refuteInc cfg e accusedInc).2 }) (fun _ => rfl) cfg.name).trans (if_pos rfl)

theorem aliveNode_own {m : Member} (hm : m.Sound cfg) (hleave : m.leave = false) {own : NodeState}
    (hown : m.find cfg.name = some own) {b : Broadcast} (hb : b.alive.node = cfg.name)
    (hinc : b.alive.incarnation ≤ own.incarnation) (e : Env) (notifyFd : ℤ) :
    (m.aliveNode cfg e b false notifyFd).find cfg.name = some own := by
  have h := aliveNode_exit hm.known e b notifyFd
  generalize m.aliveNode cfg e b false notifyFd = m' at h ⊢
  have hsame {r : ℕ} (hr : m.table.nodeMap b.alive.node = some r) : m.table.heap r = own := by
    rw [hb] at hr
    exact Option.some.inj ((Table.find_eq hr).symm.trans hown)
  cases h with
  | blocked | conflict | staleLocal | echoed => exact hown
  | leaving _ _ h => cases hleave.symm.trans h
  | refuted _ hr _ _ _ hlt => exact absurd hlt (Nat.not_lt.mpr (hsame hr ▸ hinc))
  | created _ _ hne | joined _ _ hne => exact absurd hb hne
  | stale _ _ hne | accepted _ _ hne | replaced _ _ hne => exact absurd hb hne

theorem suspectNode_own (fl : Floats) {m : Member} (hm : m.Settled cfg)
    (hd : m.deadlocked = false) (hleave : m.leave = false) {own : NodeState}
    (hown : m.find cfg.name = some own) {b : Broadcast} (hb : b.suspect.node = cfg.name) {e : Env}
    (hacc : b.suspect.incarnation ≤ m.incarnation.total)
    (hwrap : (m.suspectNode cfg fl e b).incarnation.total < 2 ^ 32) :
    if b.suspect.incarnation < own.incarnation then
      (m.suspectNode cfg fl e b).find cfg.name = some own
    else ∃ own', (m.suspectNode cfg fl e b).find cfg.name = some own' ∧
      own'.state = .stateAlive ∧ b.suspect.incarnation < own'.incarnation := by
  have halive := hm.localCell.alive hown (Or.inl hleave)
  have h : SuspectExit cfg fl e b.suspect m _ := suspectNode_exit m e b
  generalize m.suspectNode cfg fl e b = m' at h hwrap ⊢
  have hsame {r : ℕ} (hr : m.table.nodeMap b.suspect.node = some r) : m.table.heap r = own := by
    rw [hb] at hr
    exact Option.some.inj ((Table.find_eq hr).symm.trans hown)
  cases h with
  | blocked h => cases hd.symm.trans h
  | unknown _ hnone =>
    rw [hb] at hnone
    cases (Table.find_eq_none.mpr hnone).symm.trans hown
  | stale _ hr hlt => rwa [if_pos (hsame hr ▸ hlt)]
  | confirmed _ _ _ ht =>
    rw [hb] at ht
    cases ht.symm.trans hm.localCell.timer
  | settled _ hr _ _ hs => exact absurd (hsame hr ▸ halive) hs
  | refuted _ hr _ hle =>
    rw [if_neg (Nat.not_lt.mpr (hsame hr ▸ hle))]
    exact refute_above (hb ▸ hr) (hsame hr ▸ halive) hacc hwrap
  | suspected _ _ hne => exact absurd hb hne

/-- What somebody else's entry about it makes of a member's own record. -/
theorem mergeState_own (fl : Floats) {m : Member} (hm : m.Settled cfg)
    (hd : m.deadlocked = false) (hleave : m.leave = false) {own s : NodeState}
    (hown : m.find cfg.name = some own) (hs : s.n.name = cfg.name)
    (hstate : s.state ≠ .stateLeft) (hinc : s.incarnation ≤ own.incarnation) {e : Env}
    (hwrap : (m.mergeState cfg fl e (pushNodeState s)).incarnation.total < 2 ^ 32) :
    if s.state ≠ .stateAlive ∧ s.incarnation = own.incarnation then
      ∃ own', (m.mergeState cfg fl e (pushNodeState s)).find cfg.name = some own' ∧
        own'.state = .stateAlive ∧ own.incarnation < own'.incarnation
    else (m.mergeState cfg fl e (pushNodeState s)).find cfg.name = some own := by
  obtain ⟨-,t,ht,-,halive⟩ := hm.localCell
  cases ht.symm.trans hown
  have hname : (pushNodeState s).name = cfg.name := hs
  have hsuspect (hst : (pushNodeState s).state = .stateSuspect ∨
      (pushNodeState s).state = .stateDead) :
      if s.incarnation < own.incarnation then
        (m.mergeState cfg fl e (pushNodeState s)).find cfg.name = some own
      else ∃ own', (m.mergeState cfg fl e (pushNodeState s)).find cfg.name = some own' ∧
        own'.state = .stateAlive ∧ s.incarnation < own'.incarnation := by
    rw [mergeState_suspicion hst] at hwrap ⊢
    exact suspectNode_own fl hm hd hleave hown
      (b := genSuspectBroadcast ((pushNodeState s).suspicion cfg)) hname
      (hinc.trans (halive hleave).2) hwrap
  have hwanted (hne : s.state ≠ .stateAlive)
      (hst : (pushNodeState s).state = .stateSuspect ∨ (pushNodeState s).state = .stateDead) :
      if s.state ≠ .stateAlive ∧ s.incarnation = own.incarnation then
        ∃ own', (m.mergeState cfg fl e (pushNodeState s)).find cfg.name = some own' ∧
          own'.state = .stateAlive ∧ own.incarnation < own'.incarnation
      else (m.mergeState cfg fl e (pushNodeState s)).find cfg.name = some own := by
    have h := hsuspect hst
    split at h
    · rename_i hlt
      rwa [if_neg fun h => hlt.ne h.2]
    · rename_i hnot
      have heq : s.incarnation = own.incarnation := le_antisymm hinc (Nat.not_lt.mp hnot)
      rw [if_pos ⟨hne,heq⟩,← heq]
      exact h
  cases hcase : s.state with
  | stateAlive =>
    rw [if_neg fun h => h.1 rfl,mergeState_alive (pushNodeState_alive.mpr hcase)]
    exact aliveNode_own hm.toSound hleave hown (b := genAliveBroadcast (pushNodeState s).alive)
      hname hinc e (-1)
  | stateSuspect =>
    rw [← hcase]
    exact hwanted (by simp [hcase]) (by simp [pushNodeState,hcase])
  | stateDead =>
    rw [← hcase]
    exact hwanted (by simp [hcase]) (by simp [pushNodeState,hcase])
  | stateLeft => exact absurd hcase hstate

theorem sendLocalState_nodup (m : Member) (join : Bool) :
    ((m.sendLocalState join).states.map (·.name)).Nodup := by
  have hmap : (m.sendLocalState join).states.map (·.name) =
      m.table.nodes.map fun r => (m.table.heap r).n.name := by
    rw [sendLocalState,List.map_map]
    rfl
  rw [hmap]
  refine m.table.nodup.map_on fun r hr r' hr' hname => ?_
  have h := Table.nodeMap_of_mem hr
  rw [hname,Table.nodeMap_of_mem hr'] at h
  exact (Option.some.inj h).symm

theorem mem_sendLocalState {m : Member} {n : String} {s : NodeState} (hs : m.find n = some s)
    (join : Bool) : pushNodeState s ∈ (m.sendLocalState join).states := by
  obtain ⟨r,hr,rfl⟩ := Option.map_eq_some_iff.mp hs
  exact List.mem_map.mpr ⟨r,(m.table.listed r).mpr ⟨n,hr⟩,rfl⟩

end Member

namespace Process

theorem run_total_le {p : Process} (hp : p.member.Sound cfg) (ops : List Op) :
    p.member.incarnation.total ≤
      (Transitions.run (next cfg fl) p ops).member.incarnation.total := by
  induction ops generalizing p with
  | nil => exact le_refl _
  | cons op ops ih => exact (next_cellStep fl hp op cfg.name).2.2.trans (ih (next_sound hp op))

/-- In a run of merges from `p` to `p'`, the step for the entry `st` is taken at `q`. -/
structure TakesEntry (cfg : Config) (fl : Floats) (p p' : Process) (st : PushNodeState) (q : Member)
    (e : Env) : Prop where
  settled : q.Settled cfg
  free : q.deadlocked = false
  leave : q.leave = p.member.leave
  before : q.find st.name = p.member.find st.name
  after : p'.member.find st.name = (q.mergeState cfg fl e st).find st.name
  bound : (q.mergeState cfg fl e st).incarnation.total ≤ p'.member.incarnation.total

theorem run_merges_takes (cfg : Config) (fl : Floats) (leaveFd : ℤ) (e : Env) (ops : List Op)
    (env : ℕ → Env) {sts : List (PushNodeState × ℕ)} (hnames : (sts.map (·.1.name)).Nodup)
    {st : PushNodeState × ℕ} (hst : st ∈ sts)
    (hd : (Transitions.run (next cfg fl) (run cfg fl leaveFd e ops)
      (merges env sts)).member.deadlocked = false) :
    ∃ q, TakesEntry cfg fl (run cfg fl leaveFd e ops)
      (Transitions.run (next cfg fl) (run cfg fl leaveFd e ops) (merges env sts)) st.1 q
      (env st.2) := by
  obtain ⟨pre,post,rfl⟩ := List.append_of_mem hst
  rw [List.map_append,List.map_cons,List.nodup_middle,List.nodup_cons] at hnames
  obtain ⟨hnew,hnames⟩ := hnames
  rw [List.mem_append,not_or] at hnew
  set p := run cfg fl leaveFd e ops with hpdef
  set q := run cfg fl leaveFd e (ops ++ merges env pre)
  have hp : p.member.Sound cfg := run_sound cfg fl leaveFd e ops
  have hq : q.member.Settled cfg := run_settled cfg fl leaveFd e (ops ++ merges env pre)
  have hpq : q = Transitions.run (next cfg fl) p (merges env pre) := Transitions.run_append ..
  let op : Op := .merge st.1 (env st.2)
  have hsplit : Transitions.run (next cfg fl) p (merges env (pre ++ st::post)) =
      Transitions.run (next cfg fl) (q.next cfg fl op) (merges env post) := by
    rw [merges,List.map_append,Transitions.run_append,hpq]
    rfl
  rw [hsplit] at hd ⊢
  have hnext : (q.next cfg fl op).member.Sound cfg := next_sound hq.toSound op
  have hfree := (run_merges_free fl env (List.nodup_append.mp hnames).2.1 hnext).mp hd
  refine ⟨q.member,hq,next_free op hq.toSound hfree.1,?_,?_,?_,?_⟩
  · rw [hpq]
    exact (run_merges_sound fl env pre hp).2
  · rw [hpq]
    exact run_merges_elsewhere fl env hp hnew.1
  · exact run_merges_elsewhere fl env hnext hnew.2
  · exact run_total_le hnext (merges env post)

end Process

namespace Roster

variable {ι : Type*} [DecidableEq ι] {R : Roster ι} {evs round : List (ι × Op)} {x y z : ι}

def view (R : Roster ι) (c : Cluster ι) (y x : ι) : Option NodeState :=
  (c.node y).member.find (R.name x)

/-- Of these events, `y` takes those in which it sends its state and takes in what `z` has
had on record before. -/
def Hears (c : Cluster ι) (y z : ι) (round : List (ι × Op)) : Prop :=
  ∃ join env, (round.filter (·.1 = y)).map (·.2) = .sendState join::Process.merges env
    ((c.node z).member.sendLocalState join).states.zipIdx

/-- `y` and `z` exchange their states; what everybody else does in the meantime is open. -/
structure Exchange (R : Roster ι) (c : Cluster ι) (y z : ι) (round : List (ι × Op)) : Prop where
  delivered : Transitions.Along R.network.next (fun c ev => ev.2.arrives c.sent = true) c round
  left : Hears c y z round
  right : Hears c z y round

theorem Exchange.symm {c : Cluster ι} (h : R.Exchange c y z round) : R.Exchange c z y round :=
  ⟨h.delivered,h.right,h.left⟩

theorem Exchange.takes (h : R.Exchange (R.run evs) y z round)
    (hfree : ((R.run (evs ++ round)).node y).member.deadlocked = false) :
    ((R.run (evs ++ round)).node y).member.leave = ((R.run evs).node y).member.leave ∧
      (∀ s, R.view (R.run evs) z x = some s → ∃ q e, Process.TakesEntry (R.config y) R.floats
        ((R.run evs).node y) ((R.run (evs ++ round)).node y) (Member.pushNodeState s) q e) ∧
      (R.view (R.run evs) z x = none →
        R.view (R.run (evs ++ round)) y x = R.view (R.run evs) y x) := by
  obtain ⟨join,env,hy⟩ := h.left
  obtain ⟨ops,hp⟩ := R.run_node evs y
  set sts := (((R.run evs).node z).member.sendLocalState join).states.zipIdx with hsts
  have hrun : (R.run (evs ++ round)).node y = Transitions.run
      (Process.next (R.config y) R.floats) ((R.run evs).node y) (Process.merges env sts) := by
    have hnode := Network.node_delivered (N := R.network) h.delivered y
    rw [hy] at hnode
    have hsend : ((R.run evs).node y).next (R.config y) R.floats (.sendState join) =
        (R.run evs).node y := by
      simp only [Process.next,Process.step]
      split <;> rfl
    rw [run_append,hnode]
    exact congrArg (Transitions.run _ · _) hsend
  have hfst : sts.map (·.1) = (((R.run evs).node z).member.sendLocalState join).states :=
    List.zipIdx_map_fst 0 _
  have hmap : sts.map (·.1.name) =
      (((R.run evs).node z).member.sendLocalState join).states.map (·.name) := by
    rw [← hfst,List.map_map]
    rfl
  have hsound : ((R.run evs).node y).member.Sound (R.config y) := (run_steady R evs y).sound
  rw [hrun] at hfree ⊢
  refine ⟨(Process.run_merges_sound R.floats env sts hsound).2,fun s hs => ?_,fun hnone => ?_⟩
  · obtain ⟨st,hst,hfst'⟩ := List.mem_map.mp (hfst ▸ Member.mem_sendLocalState hs join)
    rw [hp] at hfree ⊢
    obtain ⟨q,hq⟩ := Process.run_merges_takes (R.config y) R.floats (R.leaveFd y) (R.env y) ops env
      (hmap ▸ Member.sendLocalState_nodup _ join) hst hfree
    exact ⟨q,env st.2,hfst' ▸ hq⟩
  · rw [view,hrun]
    refine Process.run_merges_elsewhere R.floats env hsound fun hmem => ?_
    rw [hmap] at hmem
    obtain ⟨st,hst,hname⟩ := List.mem_map.mp hmem
    obtain ⟨n,s,hs,rfl⟩ := Member.sendLocalState_states hst
    have hn : n = R.name x := (Table.find_name hs).symm.trans hname
    rw [view,← hn] at hnone
    cases hnone.symm.trans hs

theorem view_good (hwrap : NoWrap (R.run evs)) {s : NodeState}
    (hs : R.view (R.run evs) y x = some s) :
    s.n = (R.config x).advertised ∧ 0 < s.incarnation ∧
      s.incarnation ≤ R.ownInc (R.run evs) x ∧
      (s.state = .stateLeft → R.Gone (R.run evs) (R.name x) s.incarnation) := by
  have hgood := (((run_provenance R evs hwrap).nodes y).cells _).record s hs
  have hname : s.n.name = R.name x := Table.find_name hs
  exact ⟨hgood.genuine x hname.symm,hgood.pos,hgood.below x hname.symm,
    fun h => hname ▸ hgood.left h⟩

theorem Exchange.third (h : R.Exchange (R.run evs) y z round) (hwrap : NoWrap (R.run evs))
    (hfree : ((R.run (evs ++ round)).node y).member.deadlocked = false) (hxy : x ≠ y)
    {s : NodeState} (hs : R.view (R.run evs) z x = some s) :
    aliveAs (R.view (R.run (evs ++ round)) y x) =
        (Member.pushNodeState s).joins (R.view (R.run evs) y x) ∧
      (s.state = .stateAlive → s.incarnation ≤ number (R.view (R.run evs) y x) →
        R.view (R.run (evs ++ round)) y x = R.view (R.run evs) y x) := by
  obtain ⟨-,htakes,-⟩ := h.takes (x := x) hfree
  obtain ⟨q,e,hq⟩ := htakes s hs
  obtain ⟨hn,hpos,-⟩ := view_good hwrap hs
  have hname : (Member.pushNodeState s).name = R.name x := Table.find_name hs
  have hother : s.n.name ≠ (R.config y).name := fun h => hxy (R.distinct (hname.symm.trans h))
  have haddr : (Member.pushNodeState s).AddressKnown q := by
    intro t ht
    rw [hq.before,hname] at ht
    rw [(view_good hwrap ht).1,Member.pushNodeState,hn]
    exact ⟨rfl,rfl⟩
  have hjoins := Member.mergeState_joins R.floats hq.settled hq.free hother haddr hpos e
  dsimp only at hjoins
  rwa [← hq.after,hq.before,hname] at hjoins

theorem Exchange.own (h : R.Exchange (R.run evs) y z round) (hwrap : NoWrap (R.run (evs ++ round)))
    (hfree : ((R.run (evs ++ round)).node y).member.deadlocked = false)
    (hleave : ((R.run evs).node y).member.leave = false) {own s : NodeState}
    (hown : R.view (R.run evs) y y = some own) (hs : R.view (R.run evs) z y = some s) :
    if s.state ≠ .stateAlive ∧ s.incarnation = own.incarnation then
      ∃ own', R.view (R.run (evs ++ round)) y y = some own' ∧
        own'.state = .stateAlive ∧ own.incarnation < own'.incarnation
    else R.view (R.run (evs ++ round)) y y = some own := by
  obtain ⟨-,htakes,-⟩ := h.takes (x := y) hfree
  obtain ⟨q,e,hq⟩ := htakes s hs
  obtain ⟨hn,-,hinc,hgone⟩ := view_good hwrap.of_append hs
  have hname : (Member.pushNodeState s).name = R.name y := Table.find_name hs
  have hbelow : s.incarnation ≤ own.incarnation := by
    rwa [ownInc,show R.own (R.run evs) y = some own from hown] at hinc
  have hleft : s.state ≠ .stateLeft := fun hleft => by
    obtain ⟨own',hown',hstate,-⟩ := hgone hleft y rfl
    have halive := (run_steady R evs y).record.alive hown' (Or.inl hleave)
    cases halive.symm.trans hstate
  have hqown : q.find (R.config y).name = some own := by
    have hbefore := hq.before
    rw [hname] at hbefore
    exact hbefore.trans hown
  have hfinal := Member.mergeState_own R.floats hq.settled hq.free (hq.leave.trans hleave) hqown
    (s := s) hname hleft hbelow (hq.bound.trans_lt (hwrap y))
  have hafter := hq.after
  rw [hname] at hafter
  rwa [view,hafter]

theorem Exchange.agrees (h : R.Exchange (R.run evs) y z round)
    (hwrap : NoWrap (R.run (evs ++ round)))
    (hy : ((R.run (evs ++ round)).node y).member.deadlocked = false)
    (hz : ((R.run (evs ++ round)).node z).member.deadlocked = false) (hxy : x ≠ y) (hxz : x ≠ z) :
    aliveAs (R.view (R.run (evs ++ round)) y x) = aliveAs (R.view (R.run (evs ++ round)) z x) := by
  have hwrap' := hwrap.of_append
  have hkept {y z : ι} (h : R.Exchange (R.run evs) y z round)
      (hy : ((R.run (evs ++ round)).node y).member.deadlocked = false)
      (hnone : R.view (R.run evs) z x = none) :
      R.view (R.run (evs ++ round)) y x = R.view (R.run evs) y x := (h.takes hy).2.2 hnone
  cases hview : R.view (R.run evs) y x with
  | none =>
    rw [hkept h.symm hz hview]
    cases hview' : R.view (R.run evs) z x with
    | none => rw [hkept h hy hview',hview]
    | some s' =>
      rw [(h.third hwrap' hy hxy hview').1,hview]
      exact joins_none (view_good hwrap' hview').2.1
  | some s =>
    cases hview' : R.view (R.run evs) z x with
    | none =>
      rw [hkept h hy hview',(h.symm.third hwrap' hz hxz hview).1,hview,hview']
      exact (joins_none (view_good hwrap' hview).2.1).symm
    | some s' =>
      rw [(h.third hwrap' hy hxy hview').1,(h.symm.third hwrap' hz hxz hview).1,hview,hview']
      exact joins_comm

/-- After an exchange its two parties agree on who else is alive, and under which number. -/
theorem exchange_agrees (R : Roster ι) (evs round : List (ι × Op)) (y z : ι)
    (hwrap : NoWrap (R.run (evs ++ round))) (h : R.Exchange (R.run evs) y z round)
    (hy : ((R.run (evs ++ round)).node y).member.deadlocked = false)
    (hz : ((R.run (evs ++ round)).node z).member.deadlocked = false) (x : ι) (hxy : x ≠ y)
    (hxz : x ≠ z) :
    aliveAs (R.view (R.run (evs ++ round)) y x) = aliveAs (R.view (R.run (evs ++ round)) z x) :=
  h.agrees hwrap hy hz hxy hxz

def trio : Roster (Fin 3) where
  config i := { defaultLANConfig (["a","b","c"].getD i "") with
    advertiseAddr := ["10.0.0.1","10.0.0.2","10.0.0.3"].getD i "" }
  floats := .small
  leaveFd _ := 3
  env _ := ⟨0,0,0,0,[],[]⟩
  distinct := by decide

/-- `a` has heard of `c`, and `b` hears of it in the exchange. -/
theorem exchange_agrees_newcomer :
    let e : Env := ⟨0,0,2,3,[],[]⟩
    let joined : List (Fin 3 × Op) := [(2,.sendState true),
      (0,.merge ⟨"c","10.0.0.3",6666,1,.stateAlive⟩ ⟨0,0,0,1,[],[]⟩)]
    let round : List (Fin 3 × Op) := [(0,.sendState false),(1,.sendState false),
      (1,.merge ⟨"c","10.0.0.3",6666,1,.stateAlive⟩ e),(0,.merge ⟨"b","10.0.0.2",6666,1,.stateAlive⟩ e),
      (1,.merge ⟨"a","10.0.0.1",6666,1,.stateAlive⟩ e)]
    aliveAs (trio.view (trio.run (joined ++ round)) 0 2) =
      aliveAs (trio.view (trio.run (joined ++ round)) 1 2) := by
  intro e joined round
  have ha : (((trio.run joined).node 0).member.sendLocalState false).states =
      [⟨"c","10.0.0.3",6666,1,.stateAlive⟩,⟨"a","10.0.0.1",6666,1,.stateAlive⟩] := by decide +kernel
  have hb : (((trio.run joined).node 1).member.sendLocalState false).states =
      [⟨"b","10.0.0.2",6666,1,.stateAlive⟩] := by decide +kernel
  refine exchange_agrees trio joined round 0 1 (by unfold NoWrap; decide +kernel)
    ⟨by decide +kernel,⟨false,fun _ => e,?_⟩,⟨false,fun _ => e,?_⟩⟩ (by decide +kernel)
    (by decide +kernel) 2 (by decide) (by decide)
  · rw [hb]
    rfl
  · rw [ha]
    rfl

/-- `y` agrees with `z` about `z`, or the next thing it hears of `z` will be news. -/
def Abreast (R : Roster ι) (c : Cluster ι) (y z : ι) : Prop :=
  aliveAs (R.view c y z) = aliveAs (R.view c z z) ∨ number (R.view c y z) < number (R.view c z z)

/-- What one of the two has on record about the other comes up to it in two exchanges: in the
first one that one answers whatever is said against it. -/
theorem Exchange.abreast (h : R.Exchange (R.run evs) y z round)
    (hwrap : NoWrap (R.run (evs ++ round))) (hyz : y ≠ z)
    (hy : ((R.run (evs ++ round)).node y).member.deadlocked = false)
    (hz : ((R.run (evs ++ round)).node z).member.deadlocked = false)
    (hleave : ((R.run evs).node z).member.leave = false) :
    R.Abreast (R.run (evs ++ round)) y z ∧ (R.Abreast (R.run evs) y z →
      aliveAs (R.view (R.run (evs ++ round)) y z) =
        aliveAs (R.view (R.run (evs ++ round)) z z)) := by
  have hwrap' := hwrap.of_append
  obtain ⟨own,hown,-,halive⟩ := (run_steady R evs z).record.record
  have hown : R.view (R.run evs) z z = some own := hown
  obtain ⟨halive,-⟩ := halive hleave
  obtain ⟨hthird,hstale⟩ := h.third hwrap' hy hyz.symm hown
  have hinc : (Member.pushNodeState own).incarnation = own.incarnation := rfl
  rw [PushNodeState.joins,if_pos (pushNodeState_alive.mpr halive),hinc] at hthird
  have hnews (hlt : number (R.view (R.run evs) y z) < own.incarnation)
      (hsame : R.view (R.run (evs ++ round)) z z = some own) :
      aliveAs (R.view (R.run (evs ++ round)) y z) =
        aliveAs (R.view (R.run (evs ++ round)) z z) := by
    rw [hthird,if_pos hlt,hsame,aliveAs_alive halive]
  cases hview : R.view (R.run evs) y z with
  | none =>
    have hsame := (h.symm.takes hz).2.2 hview
    have hagree := hnews (by rw [hview]; exact (view_good hwrap' hown).2.1) (hsame.trans hown)
    exact ⟨Or.inl hagree,fun _ => hagree⟩
  | some s =>
    have hself := h.symm.own hwrap hz hleave hown hview
    have hle : s.incarnation ≤ own.incarnation := by
      obtain ⟨-,-,hle,-⟩ := view_good hwrap' hview
      rwa [ownInc,show R.own (R.run evs) z = some own from hown] at hle
    split at hself
    · -- what `y` holds against `z` is answered
      rename_i hagainst
      obtain ⟨hstate,heq⟩ := hagainst
      obtain ⟨own',hown',-,hlt⟩ := hself
      have hsame := hstale halive (by rw [hview]; exact heq.ge)
      refine ⟨Or.inr ?_,fun hbefore => ?_⟩
      · rw [hsame,hview,hown']
        exact heq.trans_lt hlt
      · rcases hbefore with hbefore | hbefore
        · rw [hview,hown,aliveAs_not_alive hstate,aliveAs_alive halive] at hbefore
          cases hbefore
        · rw [hview,hown] at hbefore
          exact absurd heq hbefore.ne
    · rename_i hnot
      have hagree : aliveAs (R.view (R.run (evs ++ round)) y z) =
          aliveAs (R.view (R.run (evs ++ round)) z z) := by
        rcases hle.lt_or_eq with hlt | heq
        · exact hnews (by rw [hview]; exact hlt) hself
        · have hstate : s.state = .stateAlive := by
            by_contra hstate
            exact hnot ⟨hstate,heq⟩
          rw [hstale halive (by rw [hview]; exact heq.ge),hview,hself,aliveAs_alive hstate,
            aliveAs_alive halive,heq]
      exact ⟨Or.inl hagree,fun _ => hagree⟩

/-- After two exchanges in a row their parties agree on everybody, themselves included. -/
theorem exchanges_agree (R : Roster ι) (evs round round' : List (ι × Op)) (y z : ι) (hyz : y ≠ z)
    (hwrap : NoWrap (R.run (evs ++ round ++ round'))) (h : R.Exchange (R.run evs) y z round)
    (h' : R.Exchange (R.run (evs ++ round)) y z round')
    (hy : ((R.run (evs ++ round ++ round')).node y).member.deadlocked = false)
    (hz : ((R.run (evs ++ round ++ round')).node z).member.deadlocked = false)
    (hleave : ((R.run evs).node y).member.leave = false ∧
      ((R.run evs).node z).member.leave = false) (x : ι) :
    aliveAs (R.view (R.run (evs ++ round ++ round')) y x) =
      aliveAs (R.view (R.run (evs ++ round ++ round')) z x) := by
  have hy₁ := run_free hy
  have hz₁ := run_free hz
  have hwrap₁ := hwrap.of_append
  by_cases hxy : x = y
  · subst hxy
    have hopen := (h.takes (x := x) hy₁).1.trans hleave.1
    have hbefore := (h.symm.abreast hwrap₁ hyz.symm hz₁ hy₁ hleave.1).1
    exact ((h'.symm.abreast hwrap hyz.symm hz hy hopen).2 hbefore).symm
  by_cases hxz : x = z
  · subst hxz
    have hopen := (h.symm.takes (x := x) hz₁).1.trans hleave.2
    have hbefore := (h.abreast hwrap₁ hyz hy₁ hz₁ hleave.2).1
    exact (h'.abreast hwrap hyz hy hz hopen).2 hbefore
  exact h'.agrees hwrap hy hz hxy hxz

/-- `b` holds `a` for dead; `a` hears of it in the first exchange, and `b` of the answer in
the second one. -/
theorem exchanges_agree_burial :
    let e : Env := ⟨0,0,6,7,[],[]⟩
    let round : List (Bool × Op) := [(true,.sendState false),(false,.sendState false),
      (false,.merge ⟨"a","10.0.0.1",6666,1,.stateAlive⟩ e),(true,.merge ⟨"a","10.0.0.1",6666,1,.stateDead⟩ e),
      (true,.merge ⟨"b","10.0.0.2",6666,1,.stateAlive⟩ e)]
    let round' : List (Bool × Op) := [(true,.sendState false),(false,.sendState false),
      (true,.merge ⟨"a","10.0.0.1",6666,1,.stateDead⟩ e),(true,.merge ⟨"b","10.0.0.2",6666,1,.stateAlive⟩ e),
      (false,.merge ⟨"b","10.0.0.2",6666,1,.stateAlive⟩ e),(false,.merge ⟨"a","10.0.0.1",6666,2,.stateAlive⟩ e)]
    aliveAs (pair.view (pair.run (burial ++ round ++ round')) true true) =
      aliveAs (pair.view (pair.run (burial ++ round ++ round')) false true) := by
  intro e round round'
  have ha : (((pair.run burial).node true).member.sendLocalState false).states =
      [⟨"a","10.0.0.1",6666,1,.stateAlive⟩] := by decide +kernel
  have hb : (((pair.run burial).node false).member.sendLocalState false).states =
      [⟨"a","10.0.0.1",6666,1,.stateDead⟩,⟨"b","10.0.0.2",6666,1,.stateAlive⟩] := by decide +kernel
  have ha' : (((pair.run (burial ++ round)).node true).member.sendLocalState false).states =
      [⟨"b","10.0.0.2",6666,1,.stateAlive⟩,⟨"a","10.0.0.1",6666,2,.stateAlive⟩] := by decide +kernel
  have hb' : (((pair.run (burial ++ round)).node false).member.sendLocalState false).states =
      [⟨"a","10.0.0.1",6666,1,.stateDead⟩,⟨"b","10.0.0.2",6666,1,.stateAlive⟩] := by decide +kernel
  refine exchanges_agree pair burial round round' true false (by decide)
    (fun i => by cases i <;> decide +kernel)
    ⟨by decide +kernel,⟨false,fun _ => e,?_⟩,⟨false,fun _ => e,?_⟩⟩
    ⟨by decide +kernel,⟨false,fun _ => e,?_⟩,⟨false,fun _ => e,?_⟩⟩ (by decide +kernel)
    (by decide +kernel) (by decide +kernel) true
  · rw [hb]
    rfl
  · rw [ha]
    rfl
  · rw [hb']
    rfl
  · rw [ha']
    rfl

end Roster
end GossipMemberlist
