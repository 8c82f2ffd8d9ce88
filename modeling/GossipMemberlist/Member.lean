import GossipMemberlist.Library.Transitions
import GossipMemberlist.Suspicion
import GossipMemberlist.Table
import GossipMemberlist.TransmitQueue

/-!
# One member

The state that `nodeMutex` protects and the operations on it. Each handler runs
under that mutex, so it is one atomic function here; what a function does outside
the mutex (`Leave`, `UpdateNode`, `probe`, the suspicion callback) is cut at the
points where other threads can run. The incarnation counter is the exception:
`UpdateNode` raises it without the mutex, also in the middle of a `refute`.
-/

namespace GossipMemberlist

structure Member where
  table : Table
  nodeTimers : String → Option Suspicion
  incarnation : WrapCounter 32
  /-- `UpdateNode` calls between the two halves of `nextIncarnation`. -/
  adding : ℕ
  /-- Alive broadcasts that `UpdateNode` calls are about to hand to `aliveNode`. -/
  updates : List Broadcast
  leave : Bool
  /-- The write end of the pipe that `Leave` waits on. -/
  leaveFd : ℤ
  probeIndex : ℕ
  queue : BroadcastQueue
  /-- Some thread waits for `nodeMutex` while holding it; nobody gets it again. -/
  deadlocked : Bool

/-- The two halves of `nextIncarnation` as `UpdateNode` calls it. -/
inductive UpdateStep
  | add | load
  deriving DecidableEq

/-- What one handler call gets from its surroundings: a random number, the bytes
a new record's `StateChange` happens to occupy, two clock readings, and what
`UpdateNode` calls do to the counter before and after `refute` adds to it. -/
structure Env where
  rand : ℕ
  mem : ℤ
  now : ℤ
  later : ℤ
  before : List UpdateStep
  between : List UpdateStep
  deriving DecidableEq

namespace Member

def find (x : String) (m : Member) : Option NodeState := m.table.find x

def modify (r : ℕ) (f : NodeState → NodeState) (hf : ∀ s, (f s).n.name = s.n.name)
    (m : Member) : Member := { m with table := m.table.modify r f hf }

def setTimer (x : String) (t : Option Suspicion) (m : Member) : Member :=
  { m with nodeTimers := Function.update m.nodeTimers x t }

def broadcastNotify (node : String) (bc : Broadcast) (notifyFd : ℤ) (m : Member) : Member :=
  { m with queue := m.queue.queueBroadcast ⟨node,bc,notifyFd⟩ 0 }

def onlyBroadcast (node : String) (bc : Broadcast) (m : Member) : Member :=
  m.broadcastNotify node bc (-1)

/-- Once the counter has been raised, `UpdateNode` reads it and the address of the
local record and builds its message. -/
def updateStep (cfg : Config) (m : Member) : UpdateStep → Member
  | .add => { m with incarnation := m.incarnation.fetchAdd 1, adding := m.adding + 1 }
  | .load =>
    match m.adding, m.find cfg.name with
    | adding+1, some state =>
      let a : Alive := ⟨m.incarnation.load,cfg.name,state.n.addr,state.n.port.toNat⟩
      { m with adding, updates := genAliveBroadcast a::m.updates }
    | _, _ => m

def updateSteps (cfg : Config) (steps : List UpdateStep) (m : Member) : Member :=
  Transitions.run (updateStep cfg) m steps

def takeUpdate (b : Broadcast) (m : Member) : Member := { m with updates := m.updates.erase b }

def skipIncarnation (cfg : Config) (between : List UpdateStep) (offset : ℕ) (m : Member) :
    Member × ℕ :=
  let m := { m with incarnation := m.incarnation.fetchAdd offset }
  let m := m.updateSteps cfg between
  (m,m.incarnation.load)

/-- As `setAlive` calls it, before there are other threads. -/
def nextIncarnation (cfg : Config) (m : Member) : Member × ℕ := m.skipIncarnation cfg [] 1

def refuteInc (cfg : Config) (e : Env) (accusedInc : ℕ) (m : Member) : Member × ℕ :=
  let inc := m.incarnation.load
  let m := m.updateSteps cfg e.before
  if inc ≤ accusedInc then m.skipIncarnation cfg e.between (accusedInc - inc + 1) else (m,inc)

/-- Answer an accusation with a number that beats it. -/
def refute (cfg : Config) (e : Env) (me : ℕ) (accusedInc : ℕ) (m : Member) : Member :=
  let (m,inc) := m.refuteInc cfg e accusedInc
  let m := m.modify me (fun s => { s with incarnation := inc }) fun _ => rfl
  let n := (m.table.heap me).n
  m.onlyBroadcast n.name (genAliveBroadcast ⟨inc,n.name,n.addr,n.port.toNat⟩)

/-- The record `aliveNode` stores for a node it has never seen. The constructor
leaves `StateChange` as it finds it. -/
def newNodeState (e : Env) (a : Alive) : NodeState :=
  ⟨⟨a.node,a.addr,.ofNat a.port⟩,0,.stateDead,e.mem⟩

def addNode (e : Env) (a : Alive) (m : Member) : Member :=
  { m with table := m.table.insert e.rand (newNodeState e a) }

def addressDiffers (a : Alive) (s : NodeState) : Bool := a.addr ≠ s.n.addr ∨ a.port ≠ s.n.port.toNat

/-- Whether the name of a dead or left node may move to another address. -/
def canReplace (cfg : Config) (now : ℤ) (s : NodeState) : Bool :=
  s.state = .stateLeft ∨ s.state = .stateDead ∧ 0 < cfg.deadNodeReclaimTime ∧
    cfg.deadNodeReclaimTime ≤ now - s.stateChange

def aliveRecord (a : Alive) (now : ℤ) (s : NodeState) : NodeState :=
  { n := ⟨s.n.name,a.addr,.ofNat a.port⟩
    incarnation := a.incarnation
    state := .stateAlive
    stateChange := if s.state = .stateAlive then s.stateChange else now }

def acceptAlive (e : Env) (a : Alive) (notifyFd : ℤ) (r : ℕ) (m : Member) : Member :=
  (m.broadcastNotify a.node (genAliveBroadcast a) notifyFd).modify r (aliveRecord a e.later)
    fun _ => rfl

/-- The part of `aliveNode` after the record `r` has been found or made. -/
def aliveKnown (cfg : Config) (e : Env) (a : Alive) (bootstrap : Bool) (notifyFd : ℤ) (r : ℕ)
    (updateNode : Bool) (m : Member) : Member :=
  let state := m.table.heap r
  let isLocalNode := state.n.name = cfg.name
  if isLocalNode ∧ a.incarnation < state.incarnation then m
  else if ¬isLocalNode ∧ a.incarnation ≤ state.incarnation ∧ updateNode = false then m
  else
    let m := m.setTimer a.node none
    if bootstrap = false ∧ isLocalNode then
      if a.incarnation = state.incarnation then m else m.refute cfg e r a.incarnation
    else m.acceptAlive e a notifyFd r

def aliveNode (cfg : Config) (e : Env) (b : Broadcast) (bootstrap : Bool) (notifyFd : ℤ)
    (m : Member) : Member :=
  let a := b.alive
  if m.deadlocked then m
  -- An alive message still in the queue must not undo a Leave.
  else if m.leave ∧ a.node = cfg.name then m
  else match m.table.nodeMap a.node with
    | none => (m.addNode e a).aliveKnown cfg e a bootstrap notifyFd m.table.next false
    | some r =>
      let state := m.table.heap r
      if addressDiffers a state then
        if canReplace cfg e.now state then m.aliveKnown cfg e a bootstrap notifyFd r true else m
      else m.aliveKnown cfg e a bootstrap notifyFd r false

/-- The branch of `suspectNode` that finds a running timer. The callback locks
`nodeMutex`, which this call holds. -/
def confirmTimer (fl : Floats) (e : Env) (s : Suspect) (timer : Suspicion) (m : Member) : Member :=
  let c := timer.confirm fl e.now s.from_
  let m := m.setTimer s.node (some c.1)
  match c.2 with
  | .refused => m
  | .counted => m.onlyBroadcast s.node (genSuspectBroadcast s)
  | .callsBack => { m with deadlocked := true }

def suspectRecord (s : Suspect) (now : ℤ) (state : NodeState) : NodeState :=
  { state with incarnation := s.incarnation, state := .stateSuspect, stateChange := now }

/-- The timer of a new episode: `k` and `n - 2` are unsigned and wrap. -/
def newSuspicion (cfg : Config) (fl : Floats) (e : Env) (s : Suspect) (n : ℕ) : Suspicion :=
  let k := (cfg.suspicionMult + (2 ^ 8 - 2)) % 2 ^ 8
  let k := if (n + (2 ^ 32 - 2)) % 2 ^ 32 < k then 0 else k
  let min := suspicionTimeout fl cfg.suspicionMult n cfg.probeInterval
  .new s.from_ k min (cfg.suspicionMaxTimeoutMult * min) e.later ⟨s,e.now⟩

def startSuspicion (cfg : Config) (fl : Floats) (e : Env) (s : Suspect) (r : ℕ) (m : Member) :
    Member :=
  let m := m.onlyBroadcast s.node (genSuspectBroadcast s)
  let m := m.modify r (suspectRecord s e.now) fun _ => rfl
  m.setTimer s.node (some (newSuspicion cfg fl e s m.table.numNodes.load))

def suspectNode (cfg : Config) (fl : Floats) (e : Env) (b : Broadcast) (m : Member) : Member :=
  let s := b.suspect
  if m.deadlocked then m
  else match m.table.nodeMap s.node with
    | none => m
    | some r =>
      let state := m.table.heap r
      if s.incarnation < state.incarnation then m
      else match m.nodeTimers s.node with
        | some timer => m.confirmTimer fl e s timer
        | none =>
          if state.state ≠ .stateAlive then m
          else if state.n.name = cfg.name then m.refute cfg e r s.incarnation
          else m.startSuspicion cfg fl e s r

/-- A dead message sent by the node itself says that it left. -/
def deadRecord (d : Dead) (now : ℤ) (state : NodeState) : NodeState :=
  { state with
    incarnation := d.incarnation
    state := if d.node = d.from_ then .stateLeft else .stateDead
    stateChange := now }

def acceptDead (e : Env) (d : Dead) (notifyFd : ℤ) (r : ℕ) (m : Member) : Member :=
  (m.broadcastNotify d.node (genDeadBroadcast d) notifyFd).modify r (deadRecord d e.now)
    fun _ => rfl

def deadNode (cfg : Config) (e : Env) (b : Broadcast) (m : Member) : Member :=
  let d := b.dead
  if m.deadlocked then m
  else match m.table.nodeMap d.node with
    | none => m
    | some r =>
      let state := m.table.heap r
      if d.incarnation < state.incarnation then m
      else
        let m := m.setTimer d.node none
        if state.deadOrLeft then m
        else if state.n.name = cfg.name then
          if m.leave = false then m.refute cfg e r d.incarnation
          else m.acceptDead e d m.leaveFd r
        else m.acceptDead e d (-1) r

/-- One entry of a push/pull message. A dead entry only raises a suspicion. -/
def mergeState (cfg : Config) (fl : Floats) (e : Env) (state : PushNodeState) (m : Member) :
    Member :=
  match state.state with
  | .stateAlive =>
    m.aliveNode cfg e
      (genAliveBroadcast ⟨state.incarnation,state.name,state.addr,state.port⟩) false (-1)
  | .stateLeft => m.deadNode cfg e (genDeadBroadcast ⟨state.incarnation,state.name,state.name⟩)
  | .stateDead | .stateSuspect =>
    m.suspectNode cfg fl e (genSuspectBroadcast ⟨state.incarnation,state.name,cfg.name⟩)
  | .unrecognized _ => m

/-- `env i` is what the handler call for entry `i` reads. -/
def mergeRemoteState (cfg : Config) (fl : Floats) (env : ℕ → Env) (pushpull : PushPull)
    (m : Member) : Member :=
  pushpull.states.zipIdx.foldl (fun m st => m.mergeState cfg fl (env st.2) st.1) m

/-- The first critical section of the suspicion callback: the dead message to
deliver, when the episode it belongs to is still the current one. -/
def timeoutCheck (cfg : Config) (f : Callback) (m : Member) : Option Broadcast :=
  match m.find f.s.node with
  | none => none
  | some state =>
    if state.state = .stateSuspect ∧ state.stateChange = f.now then
      some (genDeadBroadcast ⟨state.incarnation,state.n.name,cfg.name⟩)
    else none

/-- How a critical section of `probe` ends: the search is over, it goes on, or
the copied record is probed. -/
inductive ProbeExit
  | returns | again | probes (node : NodeState)

/-- One critical section of `probe` and what follows it up to the next one;
`numCheck` is a local and `shuffled` the outcome of the shuffle. -/
def probeSection (cfg : Config) (numCheck : ℕ) (shuffled : List ℕ) (m : Member) :
    Member × ProbeExit :=
  if m.table.nodes.length ≤ numCheck then (m,.returns)
  else match m.table.nodes[m.probeIndex]? with
    | none => ({ m with table := m.table.shuffle shuffled, probeIndex := 0 },.again)
    | some r =>
      let node := m.table.heap r
      let m := { m with probeIndex := m.probeIndex + 1 }
      if node.n.name = cfg.name ∨ node.deadOrLeft then (m,.again) else (m,.probes node)

def pushNodeState (s : NodeState) : PushNodeState where
  name := s.n.name
  addr := s.n.addr
  port := s.n.port.toNat
  incarnation := s.incarnation
  state := match s.state with
    | .stateAlive => .stateAlive
    | .stateSuspect => .stateSuspect
    | .stateDead => .stateDead
    | .stateLeft => .stateLeft

def sendLocalState (join : Bool) (m : Member) : PushPull :=
  ⟨join,m.table.nodes.map fun r => pushNodeState (m.table.heap r)⟩

def newmemberlist (cfg : Config) (leaveFd : ℤ) : Member where
  table := .empty
  nodeTimers := fun _ => none
  incarnation := .zero
  adding := 0
  updates := []
  leave := false
  leaveFd := leaveFd
  probeIndex := 0
  queue := .new cfg.retransmitMult
  deadlocked := false

def setAlive (cfg : Config) (e : Env) (m : Member) : Member :=
  let (m,incarnation) := m.nextIncarnation cfg
  m.aliveNode cfg e
    (genAliveBroadcast ⟨incarnation,cfg.name,cfg.advertiseAddr,cfg.advertisePort.toNat⟩) true (-1)

theorem updateStep_frame (cfg : Config) (m : Member) (u : UpdateStep) :
    ∃ incarnation adding updates, m.updateStep cfg u = { m with incarnation, adding, updates } := by
  cases u with
  | add => exact ⟨_,_,_,rfl⟩
  | load =>
    cases ha : m.adding with
    | zero =>
      have h : m.updateStep cfg .load = m := by simp [updateStep,ha]
      exact ⟨m.incarnation,m.adding,m.updates,h⟩
    | succ adding =>
      cases hs : m.find cfg.name with
      | none =>
        have h : m.updateStep cfg .load = m := by simp [updateStep,ha,hs]
        exact ⟨m.incarnation,m.adding,m.updates,h⟩
      | some state =>
        have h : m.updateStep cfg .load = { m with
            adding := adding
            updates := genAliveBroadcast
              ⟨m.incarnation.load,cfg.name,state.n.addr,state.n.port.toNat⟩::m.updates } := by
          simp only [updateStep,ha,hs]
        exact ⟨m.incarnation,adding,_,h⟩

theorem updateSteps_frame (cfg : Config) (us : List UpdateStep) (m : Member) :
    ∃ incarnation adding updates,
      m.updateSteps cfg us = { m with incarnation, adding, updates } := by
  refine Transitions.run_invariant (P := fun m' : Member => ∃ incarnation adding updates,
    m' = { m with incarnation, adding, updates })
    ⟨m.incarnation,m.adding,m.updates,rfl⟩ ?_ us
  rintro _ u ⟨i,a,b,rfl⟩
  obtain ⟨i',a',b',h⟩ :=
    updateStep_frame cfg { m with incarnation := i, adding := a, updates := b } u
  exact ⟨i',a',b',h⟩

theorem refuteInc_frame (cfg : Config) (e : Env) (accusedInc : ℕ) (m : Member) :
    ∃ incarnation adding updates,
      (m.refuteInc cfg e accusedInc).1 = { m with incarnation, adding, updates } := by
  obtain ⟨i,a,b,h⟩ := updateSteps_frame cfg e.before m
  unfold refuteInc
  dsimp only
  split
  · obtain ⟨i',a',b',h'⟩ := updateSteps_frame cfg e.between
      { m.updateSteps cfg e.before with
        incarnation := (m.updateSteps cfg e.before).incarnation.fetchAdd
          (accusedInc - m.incarnation.load + 1) }
    exact ⟨i',a',b',by rw [skipIncarnation,h',h]⟩
  · exact ⟨i,a,b,h⟩

theorem refute_eq (cfg : Config) (e : Env) (accusedInc : ℕ) {me : ℕ} {m : Member} {x : String}
    (hr : m.table.nodeMap x = some me) :
    m.refute cfg e me accusedInc =
      let inc := (m.refuteInc cfg e accusedInc).2
      let n := (m.table.heap me).n
      { (m.refuteInc cfg e accusedInc).1 with
        table := m.table.modify me (fun s => { s with incarnation := inc }) fun _ => rfl
        queue := m.queue.queueBroadcast
          ⟨x,genAliveBroadcast ⟨inc,x,n.addr,n.port.toNat⟩,-1⟩ 0 } := by
  obtain ⟨i,a,b,h⟩ := refuteInc_frame cfg e accusedInc m
  simp [refute,h,modify,onlyBroadcast,broadcastNotify,Table.modify,m.table.named hr]

theorem refute_frame (cfg : Config) (e : Env) (accusedInc : ℕ) {me : ℕ} {m : Member} {x : String}
    (hr : m.table.nodeMap x = some me) :
    ∃ incarnation adding updates table queue, m.refute cfg e me accusedInc =
      { m with incarnation, adding, updates, table, queue } := by
  obtain ⟨i,a,b,h⟩ := refuteInc_frame cfg e accusedInc m
  exact ⟨i,a,b,_,_,by rw [refute_eq cfg e accusedInc hr,h]⟩

theorem updateSteps_total (cfg : Config) (us : List UpdateStep) (m : Member) :
    m.incarnation.total ≤ (m.updateSteps cfg us).incarnation.total := by
  refine Transitions.run_mono (f := fun m : Member => m.incarnation.total) (fun m u => ?_) m us
  cases u with
  | add => exact m.incarnation.total_le_fetchAdd 1
  | load =>
    simp only [updateStep]
    split <;> exact le_refl _

theorem refuteInc_spec (cfg : Config) (e : Env) (accusedInc : ℕ) (m : Member) :
    let r := m.refuteInc cfg e accusedInc
    m.incarnation.total ≤ r.1.incarnation.total ∧ r.2 ≤ r.1.incarnation.total ∧
      (r.1.incarnation.total < 2 ^ 32 → m.incarnation.total ≤ r.2) := by
  have h₁ := updateSteps_total cfg e.before m
  dsimp only
  unfold refuteInc
  dsimp only
  split
  · simp only [skipIncarnation]
    set m₂ : Member := { m.updateSteps cfg e.before with
      incarnation := (m.updateSteps cfg e.before).incarnation.fetchAdd
        (accusedInc - m.incarnation.load + 1) } with hm₂
    have h₂ : (m.updateSteps cfg e.before).incarnation.total ≤ m₂.incarnation.total :=
      WrapCounter.total_le_fetchAdd _ _
    have h₃ := updateSteps_total cfg e.between m₂
    refine ⟨h₁.trans (h₂.trans h₃),Nat.mod_le _ _,fun h => ?_⟩
    rw [WrapCounter.load_eq h]
    exact h₁.trans (h₂.trans h₃)
  · refine ⟨h₁,(Nat.mod_le _ _).trans h₁,fun h => ?_⟩
    rw [WrapCounter.load_eq (h₁.trans_lt h)]

theorem confirmTimer_frame (fl : Floats) (e : Env) (s : Suspect) (t : Suspicion) (m : Member) :
    ∃ queue deadlocked, m.confirmTimer fl e s t =
      { m with
        nodeTimers := Function.update m.nodeTimers s.node (some (t.confirm fl e.now s.from_).1)
        queue, deadlocked } ∧
      (queue = m.queue ∨ (t.confirm fl e.now s.from_).2 = .counted ∧
        queue = m.queue.queueBroadcast ⟨s.node,genSuspectBroadcast s,-1⟩ 0) ∧
      (deadlocked = m.deadlocked ∨ deadlocked = true) := by
  cases hc : (t.confirm fl e.now s.from_).2 with
  | refused =>
    exact ⟨m.queue,m.deadlocked,by simp [confirmTimer,hc,setTimer],Or.inl rfl,Or.inl rfl⟩
  | counted =>
    exact ⟨_,m.deadlocked,by simp [confirmTimer,hc,setTimer,onlyBroadcast,broadcastNotify],
      Or.inr ⟨rfl,rfl⟩,Or.inl rfl⟩
  | callsBack =>
    exact ⟨m.queue,true,by simp [confirmTimer,hc,setTimer],Or.inl rfl,Or.inr rfl⟩

theorem timeoutCheck_some {cfg : Config} {f : Callback} {m : Member} {b : Broadcast}
    (h : m.timeoutCheck cfg f = some b) : ∃ s, m.find f.s.node = some s ∧
      s.state = .stateSuspect ∧ s.stateChange = f.now ∧
      b = genDeadBroadcast ⟨s.incarnation,f.s.node,cfg.name⟩ := by
  unfold timeoutCheck at h
  split at h
  · cases h
  · rename_i s hs
    split at h
    · rename_i hcheck
      cases h
      exact ⟨s,hs,hcheck.1,hcheck.2,by rw [Table.find_name hs]⟩
    · cases h

end Member
end GossipMemberlist
