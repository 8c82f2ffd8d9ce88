import GossipMemberlist.Member

/-!
# The node lock and the timers

Destroying or restarting a timer joins its thread, and this happens in critical
sections of `nodeMutex`: `aliveNode` and `deadNode` erase entries of `nodeTimers`,
`Confirm` restarts a suspicion inside `suspectNode`, and `ShutDown` resets the
periodic timers. The threads here are cut at the lock and the unlock, the cancel
request and the join; which branch a handler takes is part of the event.
-/

namespace GossipMemberlist

/-- The timers of `schedule`, in the order in which `deschedule` resets them. -/
inductive Periodic
  | probe | pushPull | gossip
  deriving DecidableEq

def Periodic.after : Periodic → List Periodic
  | .probe => [.pushPull,.gossip]
  | .pushPull => [.gossip]
  | .gossip => []

/-- Threads of handlers and users, the runner of each suspicion and of each periodic timer. -/
inductive Tid
  | worker (n : ℕ)
  | suspicion (i : ℕ)
  | periodic (p : Periodic)
  deriving DecidableEq

/-- The critical sections of `nodeMutex`: one that does not touch the timers, the three handlers
with the name they are about, the check in the callback of a suspicion, and `ShutDown`. -/
inductive Section
  | plain
  | aliveNode (x : String)
  | suspectNode (x : String)
  | deadNode (x : String)
  | check
  | shutDown
  deriving DecidableEq

inductive Pc
  /-- outside `nodeMutex`, between two calls -/
  | free
  /-- in the sleep of a timer -/
  | sleep
  /-- in a system call that is a cancellation point -/
  | io
  /-- about to lock `nodeMutex` -/
  | enter (c : Section)
  /-- waiting for `nodeMutex` -/
  | wait (c : Section)
  | inside (c : Section)
  /-- inside, joining a thread -/
  | join (c : Section) (u : Tid)
  /-- inside, with these timers still to reset -/
  | deschedule (ps : List Periodic)
  /-- inside, waiting for the lock that it holds: `Confirm` has called the callback -/
  | relock
  /-- about to unlock; `timeout` is what the check in a callback has found -/
  | unlock (timeout : Bool)
  /-- in a callback, between the check and `deadNode` -/
  | verdict
  /-- past the callback, about to clear `running` -/
  | finish
  | ended
  deriving DecidableEq

/-- What a thread chooses, or meets, in its next step. In a handler `act` means that it gets as
far as its operation on the timers, `late` that a confirmation leaves no time. -/
inductive Choice
  | go | call (c : Section) | io | rest | act | late
  deriving DecidableEq

structure Move where
  t : Tid
  choice : Choice
  deriving DecidableEq

/-- `running` is the flag of the timer that a thread belongs to, `cancelled` a request of
`pthread_cancel` to it. `nodeTimers` maps a name to its suspicion and `node` back. -/
structure Locking where
  pc : Tid → Pc
  nodeMutex : Option Tid
  running : Tid → Bool
  cancelled : Tid → Bool
  nodeTimers : String → Option ℕ
  node : ℕ → String
  next : ℕ
  shutdown : Bool

def Tid.IsTimer : Tid → Prop
  | .worker _ => False
  | _ => True

/-- The critical sections that a thread enters on its own: the callback of a suspicion has its
fixed course. -/
def Tid.calls : Tid → Section → Bool
  | _, .check => false
  | .worker _, _ => true
  | .periodic _, .shutDown => false
  | .periodic _, _ => true
  | .suspicion _, _ => false

def Tid.afterUnlock (timeout : Bool) : Tid → Pc
  | .suspicion _ => if timeout then .verdict else .finish
  | _ => .free

namespace Locking

/-- After `schedule`, with the periodic timers whose interval is positive. -/
def initial (enabled : Periodic → Bool) : Locking where
  pc
    | .worker _ => .free
    | .suspicion _ => .ended
    | .periodic p => if enabled p then .sleep else .ended
  nodeMutex := none
  running
    | .periodic p => enabled p
    | _ => false
  cancelled _ := false
  nodeTimers _ := none
  node _ := ""
  next := 0
  shutdown := false

def goto (t : Tid) (pc : Pc) (s : Locking) : Locking := { s with pc := Function.update s.pc t pc }

def stop (u : Tid) (s : Locking) : Locking :=
  if s.running u then
    { s with running := Function.update s.running u false
             cancelled := Function.update s.cancelled u true }
  else s

/-- What `Run` does first: it sets the flag, and only then joins the thread of the last run. -/
def flag (u : Tid) (s : Locking) : Locking :=
  { s with running := Function.update s.running u true }

/-- What `Run` does last. The flag is not set again: a thread that clears it while it is being
joined leaves it clear for the new one. -/
def spawn (u : Tid) (s : Locking) : Locking :=
  { s with pc := Function.update s.pc u .sleep
           cancelled := Function.update s.cancelled u false }

/-- A cancellation point: the end of the thread if it has been asked to end. -/
def point (t : Tid) (pc : Pc) (s : Locking) : Locking :=
  s.goto t (if s.cancelled t then .ended else pc)

/-- `nodeTimers.erase`: the destructor stops the timer and joins its thread. -/
def eraseTimer (t : Tid) (c : Section) (x : String) (s : Locking) : Locking :=
  match s.nodeTimers x with
  | none => s.goto t (.unlock false)
  | some i => (s.stop (.suspicion i)).goto t (.join c (.suspicion i))

/-- A confirmation that counts: `Stop` and, if that has stopped the timer, `Restart`. -/
def confirm (t : Tid) (c : Section) (i : ℕ) (s : Locking) : Locking :=
  if s.running (.suspicion i) then
    ((s.stop (.suspicion i)).flag (.suspicion i)).goto t (.join c (.suspicion i))
  else s.goto t (.unlock false)

/-- The same when no time remains: the callback runs at once, in this thread. -/
def confirmLate (t : Tid) (i : ℕ) (s : Locking) : Locking :=
  if s.running (.suspicion i) then (s.stop (.suspicion i)).goto t .relock
  else s.goto t (.unlock false)

/-- `nodeTimers[x] = make_shared<suspicion>(…)` -/
def newSuspicion (t : Tid) (x : String) (s : Locking) : Locking :=
  goto t (.unlock false) (spawn (.suspicion s.next) (flag (.suspicion s.next) { s with
    nodeTimers := Function.update s.nodeTimers x (some s.next)
    node := Function.update s.node s.next x
    next := s.next + 1 }))

def body (t : Tid) (c : Section) (choice : Choice) (s : Locking) : Locking :=
  match c, choice with
  | .aliveNode x, .act => s.eraseTimer t c x
  | .deadNode x, .act => s.eraseTimer t c x
  | .suspectNode x, .act =>
    match s.nodeTimers x with
    | some i => s.confirm t c i
    | none => s.newSuspicion t x
  | .suspectNode x, .late =>
    match s.nodeTimers x with
    | some i => s.confirmLate t i
    | none => s.goto t (.unlock false)
  | .check, choice => s.goto t (.unlock (choice = .act))
  | .shutDown, _ =>
    if s.shutdown then s.goto t (.unlock false)
    else { s with shutdown := true }.goto t (.deschedule [.probe,.pushPull,.gossip])
  | _, _ => s.goto t (.unlock false)

def joined (t : Tid) (c : Section) (u : Tid) (s : Locking) : Locking :=
  match c, u with
  | .aliveNode x, _ | .deadNode x, _ =>
    { s with nodeTimers := Function.update s.nodeTimers x none }.goto t (.unlock false)
  | .suspectNode _, u => (s.spawn u).goto t (.unlock false)
  | _, .periodic p => s.goto t (.deschedule p.after)
  | _, _ => s.goto t (.unlock false)

def step (enabled : Periodic → Bool) (s : Locking) (m : Move) : Locking :=
  let t := m.t
  match s.pc t with
  | .free =>
    match m.choice, t with
    | .call c, t => if t.calls c then s.goto t (.enter c) else s
    | .io, t => s.goto t .io
    | .rest, .periodic _ => s.goto t .sleep
    | _, _ => s
  | .sleep =>
    match t with
    | .suspicion _ => s.point t (.enter .check)
    | _ => s.point t .free
  | .io => s.point t .free
  | .enter c => s.goto t (.wait c)
  | .wait c =>
    if s.nodeMutex = none then { s with nodeMutex := some t }.goto t (.inside c) else s
  | .inside c => s.body t c m.choice
  | .join c u => if s.pc u = .ended then s.joined t c u else s
  | .deschedule [] => s.goto t (.unlock false)
  | .deschedule (p::ps) =>
    if enabled p then (s.stop (.periodic p)).goto t (.join .shutDown (.periodic p))
    else s.goto t (.deschedule ps)
  | .relock => s
  | .unlock timeout => { s with nodeMutex := none }.goto t (t.afterUnlock timeout)
  | .verdict =>
    match m.choice, t with
    | .io, t => s.point t .verdict
    | _, .suspicion i => s.goto t (.enter (.deadNode (s.node i)))
    | _, _ => s
  | .finish => { s with running := Function.update s.running t false }.goto t .ended
  | .ended => s

end Locking

namespace Member

theorem aliveKnown_timers (cfg : Config) (e : Env) (a : Alive) (bootstrap : Bool) (notifyFd : ℤ)
    {m : Member} {r : ℕ} {y : String} (hr : m.table.nodeMap y = some r) (updateNode : Bool) :
    (m.aliveKnown cfg e a bootstrap notifyFd r updateNode).nodeTimers = m.nodeTimers ∨
      (m.aliveKnown cfg e a bootstrap notifyFd r updateNode).nodeTimers =
        Function.update m.nodeTimers a.node none := by
  unfold aliveKnown
  dsimp only
  split_ifs
  · exact Or.inl rfl
  · exact Or.inl rfl
  · exact Or.inr rfl
  · obtain ⟨_,_,_,_,_,hrefute⟩ := refute_frame cfg e a.incarnation
      (m := m.setTimer a.node none) hr
    rw [hrefute]
    exact Or.inr rfl
  · exact Or.inr rfl

theorem aliveNode_timers (cfg : Config) (m : Member) (e : Env) (b : Broadcast) (bootstrap : Bool)
    (notifyFd : ℤ) : (m.aliveNode cfg e b bootstrap notifyFd).nodeTimers = m.nodeTimers ∨
      (m.aliveNode cfg e b bootstrap notifyFd).nodeTimers =
        Function.update m.nodeTimers b.alive.node none := by
  unfold aliveNode
  dsimp only
  split
  · exact Or.inl rfl
  split
  · exact Or.inl rfl
  split
  · next hnone =>
    refine aliveKnown_timers cfg e b.alive bootstrap notifyFd (m := m.addNode e b.alive)
      (r := m.table.next) (y := b.alive.node) ?_ false
    have hmap := Table.nodeMap_insert (s := newNodeState e b.alive) hnone e.rand
    exact (congrFun hmap b.alive.node).trans (Function.update_self _ _ _)
  · next r hr =>
    split
    · split
      · exact aliveKnown_timers cfg e b.alive bootstrap notifyFd hr true
      · exact Or.inl rfl
    · exact aliveKnown_timers cfg e b.alive bootstrap notifyFd hr false

theorem deadNode_timers (cfg : Config) (m : Member) (e : Env) (b : Broadcast) :
    (m.deadNode cfg e b).nodeTimers = m.nodeTimers ∨
      (m.deadNode cfg e b).nodeTimers = Function.update m.nodeTimers b.dead.node none := by
  unfold deadNode
  dsimp only
  split
  · exact Or.inl rfl
  split
  · exact Or.inl rfl
  next r hr =>
    split
    · exact Or.inl rfl
    split
    · exact Or.inr rfl
    split
    · split
      · obtain ⟨_,_,_,_,_,hrefute⟩ := refute_frame cfg e b.dead.incarnation
          (m := m.setTimer b.dead.node none) hr
        rw [hrefute]
        exact Or.inr rfl
      · exact Or.inr rfl
    · exact Or.inr rfl

end Member

namespace Locking

variable {s s' : Locking}

def Shows (s : Locking) (m : Member) : Prop :=
  ∀ x, (s.nodeTimers x).isSome = (m.nodeTimers x).isSome

theorem Shows.update {m m' : Member} (h : s.Shows m) {x : String} {i : Option ℕ}
    {timer : Option Suspicion} (heq : i.isSome = timer.isSome)
    (hs : s'.nodeTimers = Function.update s.nodeTimers x i)
    (hm : m'.nodeTimers = Function.update m.nodeTimers x timer) : s'.Shows m' := by
  intro y
  rw [hs,hm]
  by_cases hy : y = x
  · rw [hy,Function.update_self,Function.update_self]
    exact heq
  · rw [Function.update_of_ne hy,Function.update_of_ne hy]
    exact h y

theorem stop_nodeTimers (u : Tid) (s : Locking) : (s.stop u).nodeTimers = s.nodeTimers := by
  unfold stop
  split <;> rfl

end Locking

end GossipMemberlist
