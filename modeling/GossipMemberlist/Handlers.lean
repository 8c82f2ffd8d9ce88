import GossipMemberlist.Member

/-!
# The exits of the three handlers

One case per way through `aliveNode`, `suspectNode` and `deadNode`, with every test
that was passed on the way. A proof about a single call takes its cases from here.
-/

namespace GossipMemberlist

/-- No `UpdateNode` call raises the counter while the handler runs. -/
def Env.alone (e : Env) : Prop := e.before = [] ∧ e.between = []

namespace Member

/-- What `aliveNode` does with a message that is not the member's own bootstrap. -/
inductive AliveExit (cfg : Config) (e : Env) (a : Alive) (notifyFd : ℤ) (m : Member) :
    Member → Prop
  | blocked : m.deadlocked = true → AliveExit cfg e a notifyFd m m
  | leaving : m.deadlocked = false → a.node = cfg.name → m.leave = true →
      AliveExit cfg e a notifyFd m m
  | created : m.deadlocked = false → m.table.nodeMap a.node = none → a.node ≠ cfg.name →
      a.incarnation = 0 → AliveExit cfg e a notifyFd m (m.addNode e a)
  | joined : m.deadlocked = false → m.table.nodeMap a.node = none → a.node ≠ cfg.name →
      0 < a.incarnation → AliveExit cfg e a notifyFd m
        (((m.addNode e a).setTimer a.node none).acceptAlive e a notifyFd m.table.next)
  | conflict {r} : m.deadlocked = false → m.table.nodeMap a.node = some r →
      addressDiffers a (m.table.heap r) = true → canReplace cfg e.now (m.table.heap r) = false →
      AliveExit cfg e a notifyFd m m
  | stale {r} : m.deadlocked = false → m.table.nodeMap a.node = some r → a.node ≠ cfg.name →
      addressDiffers a (m.table.heap r) = false → a.incarnation ≤ (m.table.heap r).incarnation →
      AliveExit cfg e a notifyFd m m
  | accepted {r} : m.deadlocked = false → m.table.nodeMap a.node = some r → a.node ≠ cfg.name →
      addressDiffers a (m.table.heap r) = false → (m.table.heap r).incarnation < a.incarnation →
      AliveExit cfg e a notifyFd m ((m.setTimer a.node none).acceptAlive e a notifyFd r)
  | replaced {r} : m.deadlocked = false → m.table.nodeMap a.node = some r → a.node ≠ cfg.name →
      addressDiffers a (m.table.heap r) = true → canReplace cfg e.now (m.table.heap r) = true →
      AliveExit cfg e a notifyFd m ((m.setTimer a.node none).acceptAlive e a notifyFd r)
  | staleLocal {r} : m.deadlocked = false → m.table.nodeMap a.node = some r →
      a.node = cfg.name → m.leave = false → a.incarnation < (m.table.heap r).incarnation →
      AliveExit cfg e a notifyFd m m
  | echoed {r} : m.deadlocked = false → m.table.nodeMap a.node = some r →
      a.node = cfg.name → m.leave = false →
      (addressDiffers a (m.table.heap r) = true → canReplace cfg e.now (m.table.heap r) = true) →
      a.incarnation = (m.table.heap r).incarnation →
      AliveExit cfg e a notifyFd m (m.setTimer cfg.name none)
  | refuted {r} : m.deadlocked = false → m.table.nodeMap a.node = some r →
      a.node = cfg.name → m.leave = false →
      (addressDiffers a (m.table.heap r) = true → canReplace cfg e.now (m.table.heap r) = true) →
      (m.table.heap r).incarnation < a.incarnation →
      AliveExit cfg e a notifyFd m ((m.setTimer cfg.name none).refute cfg e r a.incarnation)

inductive SuspectExit (cfg : Config) (fl : Floats) (e : Env) (s : Suspect) (m : Member) :
    Member → Prop
  | blocked : m.deadlocked = true → SuspectExit cfg fl e s m m
  | unknown : m.deadlocked = false → m.table.nodeMap s.node = none → SuspectExit cfg fl e s m m
  | stale {r} : m.deadlocked = false → m.table.nodeMap s.node = some r →
      s.incarnation < (m.table.heap r).incarnation → SuspectExit cfg fl e s m m
  | confirmed {r t} : m.deadlocked = false → m.table.nodeMap s.node = some r →
      (m.table.heap r).incarnation ≤ s.incarnation → m.nodeTimers s.node = some t →
      SuspectExit cfg fl e s m (m.confirmTimer fl e s t)
  | settled {r} : m.deadlocked = false → m.table.nodeMap s.node = some r →
      (m.table.heap r).incarnation ≤ s.incarnation → m.nodeTimers s.node = none →
      (m.table.heap r).state ≠ .stateAlive → SuspectExit cfg fl e s m m
  | refuted {r} : m.deadlocked = false → m.table.nodeMap s.node = some r → s.node = cfg.name →
      (m.table.heap r).incarnation ≤ s.incarnation → m.nodeTimers s.node = none →
      (m.table.heap r).state = .stateAlive →
      SuspectExit cfg fl e s m (m.refute cfg e r s.incarnation)
  | suspected {r} : m.deadlocked = false → m.table.nodeMap s.node = some r → s.node ≠ cfg.name →
      (m.table.heap r).incarnation ≤ s.incarnation → m.nodeTimers s.node = none →
      (m.table.heap r).state = .stateAlive →
      SuspectExit cfg fl e s m (m.startSuspicion cfg fl e s r)

inductive DeadExit (cfg : Config) (e : Env) (d : Dead) (m : Member) : Member → Prop
  | blocked : m.deadlocked = true → DeadExit cfg e d m m
  | unknown : m.deadlocked = false → m.table.nodeMap d.node = none → DeadExit cfg e d m m
  | stale {r} : m.deadlocked = false → m.table.nodeMap d.node = some r →
      d.incarnation < (m.table.heap r).incarnation → DeadExit cfg e d m m
  | settled {r} : m.deadlocked = false → m.table.nodeMap d.node = some r →
      (m.table.heap r).incarnation ≤ d.incarnation → (m.table.heap r).deadOrLeft = true →
      DeadExit cfg e d m (m.setTimer d.node none)
  | refuted {r} : m.deadlocked = false → m.table.nodeMap d.node = some r → d.node = cfg.name →
      (m.table.heap r).incarnation ≤ d.incarnation → (m.table.heap r).deadOrLeft = false →
      m.leave = false → DeadExit cfg e d m ((m.setTimer cfg.name none).refute cfg e r d.incarnation)
  | buried {r} : m.deadlocked = false → m.table.nodeMap d.node = some r →
      (m.table.heap r).incarnation ≤ d.incarnation → (m.table.heap r).deadOrLeft = false →
      (d.node = cfg.name → m.leave = true) → DeadExit cfg e d m
        ((m.setTimer d.node none).acceptDead e d (if d.node = cfg.name then m.leaveFd else -1) r)

variable {cfg : Config} {fl : Floats}

def raises (us : List UpdateStep) : ℕ := us.count .add

theorem updateSteps_raises (cfg : Config) (us : List UpdateStep) (m : Member) :
    (m.updateSteps cfg us).incarnation.total = m.incarnation.total + raises us := by
  induction us generalizing m with
  | nil => rfl
  | cons u us ih =>
    have h : (m.updateSteps cfg (u::us)).incarnation.total =
        (m.updateStep cfg u).incarnation.total + raises us := ih (m.updateStep cfg u)
    rw [h]
    cases u with
    | add =>
      simp only [updateStep,WrapCounter.fetchAdd_total,raises,List.count_cons_self]
      omega
    | load =>
      have hload : (m.updateStep cfg .load).incarnation = m.incarnation := by
        simp only [updateStep]
        split <;> rfl
      simp [hload,raises]

theorem refuteInc_total (cfg : Config) (e : Env) (accusedInc : ℕ) (m : Member) :
    let r := m.refuteInc cfg e accusedInc
    if accusedInc < m.incarnation.load then
      r.1.incarnation.total = m.incarnation.total + raises e.before ∧ r.2 = m.incarnation.load
    else
      r.1.incarnation.total = m.incarnation.total + raises e.before +
        (accusedInc - m.incarnation.load + 1) % 2 ^ 32 + raises e.between ∧
        r.2 = r.1.incarnation.load := by
  intro r
  split
  · rename_i hlt
    have hr : r = (m.updateSteps cfg e.before,m.incarnation.load) := by
      simp [r,refuteInc,Nat.not_le.mpr hlt]
    rw [hr]
    exact ⟨updateSteps_raises cfg e.before m,rfl⟩
  · rename_i hle
    have hr : r = (m.updateSteps cfg e.before).skipIncarnation cfg e.between
        (accusedInc - m.incarnation.load + 1) := by
      simp [r,refuteInc,Nat.not_lt.mp hle]
    rw [hr]
    refine ⟨?_,rfl⟩
    simp only [skipIncarnation,updateSteps_raises,WrapCounter.fetchAdd_total]

theorem raises_alone {e : Env} (he : e.alone) {accusedInc : ℕ} (hinc : accusedInc < 2 ^ 32 - 1) :
    accusedInc + raises e.before + raises e.between < 2 ^ 32 - 1 := by
  rw [he.1,he.2]
  exact hinc

theorem refuteInc_lt (cfg : Config) {e : Env} {accusedInc : ℕ}
    (hinc : accusedInc + raises e.before + raises e.between < 2 ^ 32 - 1) (m : Member) :
    accusedInc < (m.refuteInc cfg e accusedInc).2 := by
  have htotal := refuteInc_total cfg e accusedInc m
  dsimp only at htotal
  split_ifs at htotal with hlt
  · omega
  · rw [htotal.2]
    simp only [WrapCounter.load] at hlt htotal ⊢
    omega

/-- A refutation leaves the accusation behind. -/
theorem refute_beats (cfg : Config) {m : Member} {x : String} {me : ℕ}
    (hr : m.table.nodeMap x = some me) {e : Env} {accusedInc : ℕ}
    (hinc : accusedInc + raises e.before + raises e.between < 2 ^ 32 - 1) :
    (m.refute cfg e me accusedInc).table.nodeMap = m.table.nodeMap ∧
      (m.refute cfg e me accusedInc).table.heap me =
        { m.table.heap me with incarnation := (m.refuteInc cfg e accusedInc).2 } ∧
      accusedInc < (m.refuteInc cfg e accusedInc).2 := by
  rw [refute_eq cfg e accusedInc hr]
  exact ⟨rfl,Function.update_self ..,refuteInc_lt cfg hinc m⟩

theorem aliveNode_exit {m : Member} (hknown : ∃ r, m.table.nodeMap cfg.name = some r) (e : Env)
    (b : Broadcast) (notifyFd : ℤ) :
    AliveExit cfg e b.alive notifyFd m (m.aliveNode cfg e b false notifyFd) := by
  unfold aliveNode
  dsimp only
  split
  · rename_i hd
    exact .blocked hd
  rename_i hd
  have hd : m.deadlocked = false := by simpa using hd
  split
  · rename_i hl
    exact .leaving hd hl.2 hl.1
  rename_i hleave
  split
  · -- a node that was never heard of, so not the local one
    rename_i hnone
    have hne : b.alive.node ≠ cfg.name := fun he => by
      obtain ⟨r,hr⟩ := hknown
      rw [he,hr] at hnone
      cases hnone
    have hheap : (m.addNode e b.alive).table.heap m.table.next = newNodeState e b.alive :=
      Table.heap_insert hnone _
    simp only [aliveKnown,hheap,newNodeState,hne,false_and,not_false_eq_true,true_and,and_true,
      and_false,if_false]
    split
    · exact .created hd hnone hne (by omega)
    · exact .joined hd hnone hne (by omega)
  rename_i r hr
  have hname : (m.table.heap r).n.name = b.alive.node := m.table.named hr
  by_cases hl : b.alive.node = cfg.name
  · have hleave : m.leave = false := by simpa [hl] using hleave
    have hknown (updateNode : Bool) (haddr : addressDiffers b.alive (m.table.heap r) = true →
        canReplace cfg e.now (m.table.heap r) = true) : AliveExit cfg e b.alive notifyFd m
        (m.aliveKnown cfg e b.alive false notifyFd r updateNode) := by
      simp only [aliveKnown,hname,hl,true_and,not_true_eq_false,false_and,if_false,if_true]
      split
      · rename_i hinc
        exact .staleLocal hd hr hl hleave hinc
      split
      · rename_i hinc
        exact .echoed hd hr hl hleave haddr hinc
      · exact .refuted hd hr hl hleave haddr (by omega)
    split
    · rename_i hdiff
      split
      · rename_i hrep
        exact hknown true fun _ => hrep
      · rename_i hrep
        exact .conflict hd hr hdiff (by simpa using hrep)
    · rename_i hdiff
      exact hknown false fun h => absurd h hdiff
  · split
    · rename_i hdiff
      split
      · rename_i hrep
        simp only [aliveKnown,hname,hl,false_and,not_false_eq_true,and_false,if_false,
          Bool.true_eq_false]
        exact .replaced hd hr hl hdiff hrep
      · rename_i hrep
        exact .conflict hd hr hdiff (by simpa using hrep)
    · rename_i hdiff
      have hdiff : addressDiffers b.alive (m.table.heap r) = false := by simpa using hdiff
      simp only [aliveKnown,hname,hl,false_and,not_false_eq_true,true_and,and_true,and_false,
        if_false]
      split
      · rename_i hinc
        exact .stale hd hr hl hdiff hinc
      · exact .accepted hd hr hl hdiff (by omega)

theorem suspectNode_exit (m : Member) (e : Env) (b : Broadcast) :
    SuspectExit cfg fl e b.suspect m (m.suspectNode cfg fl e b) := by
  unfold suspectNode
  dsimp only
  split
  · rename_i hd
    exact .blocked hd
  rename_i hd
  have hd : m.deadlocked = false := by simpa using hd
  split
  · rename_i hnone
    exact .unknown hd hnone
  rename_i r hr
  have hname : (m.table.heap r).n.name = b.suspect.node := m.table.named hr
  split
  · rename_i hinc
    exact .stale hd hr hinc
  rename_i hinc
  split
  · rename_i t ht
    exact .confirmed hd hr (by omega) ht
  rename_i hnone
  split
  · rename_i hs
    exact .settled hd hr (by omega) hnone hs
  rename_i hs
  have hs : (m.table.heap r).state = .stateAlive := by simpa using hs
  split
  · rename_i hl
    exact .refuted hd hr (hname.symm.trans hl) (by omega) hnone hs
  · rename_i hl
    exact .suspected hd hr (fun he => hl (hname.trans he)) (by omega) hnone hs

theorem deadNode_exit (m : Member) (e : Env) (b : Broadcast) :
    DeadExit cfg e b.dead m (m.deadNode cfg e b) := by
  unfold deadNode
  dsimp only
  split
  · rename_i hd
    exact .blocked hd
  rename_i hd
  have hd : m.deadlocked = false := by simpa using hd
  split
  · rename_i hnone
    exact .unknown hd hnone
  rename_i r hr
  have hname : (m.table.heap r).n.name = b.dead.node := m.table.named hr
  split
  · rename_i hinc
    exact .stale hd hr hinc
  rename_i hinc
  split
  · rename_i hdead
    exact .settled hd hr (by omega) hdead
  rename_i hdead
  have hdead : (m.table.heap r).deadOrLeft = false := by simpa using hdead
  split
  · rename_i hl
    have hl : b.dead.node = cfg.name := hname.symm.trans hl
    split
    · rename_i hleave
      rw [hl]
      exact .refuted hd hr hl (by omega) hdead hleave
    · rename_i hleave
      have hleave : m.leave = true := by simpa [setTimer] using hleave
      have h : DeadExit cfg e b.dead m _ := .buried hd hr (by omega) hdead fun _ => hleave
      rwa [if_pos hl] at h
  · rename_i hl
    have hl : b.dead.node ≠ cfg.name := fun he => hl (hname.trans he)
    have h : DeadExit cfg e b.dead m _ :=
      .buried hd hr (by omega) hdead fun he => absurd he hl
    rwa [if_neg hl] at h

end Member
end GossipMemberlist
