import GossipMemberlist.Member

/-!
# One member with its threads

A `Process` is a member together with the calls that its other threads have
begun: what each has read outside `nodeMutex` and has not acted on yet. An `Op`
is one atomic step of some thread, with everything it takes from outside.
-/

namespace GossipMemberlist

structure Process where
  member : Member
  /-- `Leave` calls that have found the flag clear and not set it yet. -/
  entering : ℕ
  /-- `Leave` calls that have set the flag and not read the incarnation yet. -/
  leaving : ℕ
  /-- Dead broadcasts that `Leave` calls are about to hand to `deadNode`. -/
  farewells : List Broadcast
  /-- Suspicion callbacks that have started and not done their check yet. -/
  firing : List Callback
  /-- Dead broadcasts that suspicion callbacks are about to hand to `deadNode`. -/
  verdicts : List Broadcast
  /-- Records that `probe` has handed to `probeNode`. -/
  probing : List NodeState

inductive Op
  | alive (b : Broadcast) (notifyFd : ℤ) (e : Env)
  | suspect (b : Broadcast) (e : Env)
  | dead (b : Broadcast) (e : Env)
  | merge (state : PushNodeState) (e : Env)
  | timerWake (x : String)
  | timerCheck (f : Callback)
  | timerDead (b : Broadcast) (e : Env)
  | timerEnd (x : String)
  | probe (numCheck : ℕ) (shuffled : List ℕ)
  | probeSend (node : NodeState)
  | probeFail (node : NodeState) (e : Env)
  | update (u : UpdateStep)
  | updateAlive (b : Broadcast) (notifyFd : ℤ) (e : Env)
  | leaveTest
  | leaveSet
  | leaveRead
  | leaveDead (b : Broadcast) (e : Env)
  | sendState (join : Bool)
  | gossip (overhead limit : ℕ) (haveMsg : Bool)
  | prune (maxRetain : ℕ)
  | clear

/-- What a member puts on the network: a gossiped broadcast or its state. -/
inductive Packet
  | broadcast (b : Broadcast)
  | pushPull (pp : PushPull)
  deriving DecidableEq

namespace Process

def start (cfg : Config) (leaveFd : ℤ) (e : Env) : Process where
  member := (Member.newmemberlist cfg leaveFd).setAlive cfg e
  entering := 0
  leaving := 0
  farewells := []
  firing := []
  verdicts := []
  probing := []

def act (f : Member → Member) (p : Process) : Process := { p with member := f p.member }

def timerCheck (cfg : Config) (f : Callback) (p : Process) : Process :=
  if f ∈ p.firing ∧ p.member.deadlocked = false then
    { p with
      firing := p.firing.erase f
      verdicts := (p.member.timeoutCheck cfg f).toList ++ p.verdicts }
  else p

def leaveSet (p : Process) : Process :=
  match p.entering with
  | 0 => p
  | entering+1 =>
    { p with member := { p.member with leave := true }, entering, leaving := p.leaving + 1 }

def leaveRead (cfg : Config) (p : Process) : Process :=
  match p.leaving, p.member.deadlocked, p.member.find cfg.name with
  | leaving+1, false, some state =>
    let d : Dead := ⟨state.incarnation,state.n.name,state.n.name⟩
    { p with leaving, farewells := genDeadBroadcast d::p.farewells }
  | _, _, _ => p

def probe (cfg : Config) (numCheck : ℕ) (shuffled : List ℕ) (p : Process) : Process :=
  if p.member.deadlocked then p
  else
    let r := p.member.probeSection cfg numCheck shuffled
    { p with
      member := r.1
      probing := match r.2 with
        | .probes node => node::p.probing
        | _ => p.probing }

/-- The suspect message that `probeNode` sends along with its ping to a node that
is not recorded alive, and the one it acts on when no ack arrives. -/
def probeSuspicion (cfg : Config) (node : NodeState) : Broadcast :=
  genSuspectBroadcast ⟨node.incarnation,node.n.name,cfg.name⟩

/-- One gossip round to one node: the queue it leaves and the packets it sends. -/
def gossip (fl : Floats) (overhead limit : ℕ) (haveMsg : Bool) (p : Process) :
    Process × List Packet :=
  let r := p.member.queue.getBroadcasts fl p.member.table.numNodes.load overhead limit haveMsg
  (p.act fun m => { m with queue := r.2.2 },if r.1 then r.2.1.map .broadcast else [])

/-- The handlers always end here. In the code the erase of a timer joins its thread, so
that a run may stop earlier: see `Host.step`. -/
def step (cfg : Config) (fl : Floats) (p : Process) : Op → Process × List Packet
  | .alive b notifyFd e => (p.act (·.aliveNode cfg e b false notifyFd),[])
  | .suspect b e => (p.act (·.suspectNode cfg fl e b),[])
  | .dead b e => (p.act (·.deadNode cfg e b),[])
  | .merge state e => (p.act (·.mergeState cfg fl e state),[])
  | .timerWake x =>
    match p.member.nodeTimers x with
    | some t => if t.running then ({ p with firing := t.f::p.firing },[]) else (p,[])
    | none => (p,[])
  | .timerCheck f => (p.timerCheck cfg f,[])
  | .timerDead b e =>
    if b ∈ p.verdicts ∧ p.member.deadlocked = false then
      ({ p with verdicts := p.verdicts.erase b }.act (·.deadNode cfg e b),[])
    else (p,[])
  | .timerEnd x =>
    match p.member.nodeTimers x with
    | some t => (p.act (·.setTimer x (some { t with running := false })),[])
    | none => (p,[])
  | .probe numCheck shuffled => (p.probe cfg numCheck shuffled,[])
  | .probeSend node =>
    if node ∈ p.probing ∧ node.state ≠ .stateAlive then
      (p,[.broadcast (probeSuspicion cfg node)])
    else (p,[])
  | .probeFail node e =>
    if node ∈ p.probing ∧ p.member.deadlocked = false then
      ({ p with probing := p.probing.erase node }.act
        (·.suspectNode cfg fl e (probeSuspicion cfg node)),[])
    else (p,[])
  | .update u => (p.act (·.updateStep cfg u),[])
  | .updateAlive b notifyFd e =>
    if b ∈ p.member.updates ∧ p.member.deadlocked = false then
      (p.act fun m => (m.takeUpdate b).aliveNode cfg e b false notifyFd,[])
    else (p,[])
  | .leaveTest => if p.member.leave then (p,[]) else ({ p with entering := p.entering + 1 },[])
  | .leaveSet => (p.leaveSet,[])
  | .leaveRead => (p.leaveRead cfg,[])
  | .leaveDead b e =>
    if b ∈ p.farewells ∧ p.member.deadlocked = false then
      ({ p with farewells := p.farewells.erase b }.act (·.deadNode cfg e b),[])
    else (p,[])
  | .sendState join =>
    if p.member.deadlocked then (p,[]) else (p,[.pushPull (p.member.sendLocalState join)])
  | .gossip overhead limit haveMsg => p.gossip fl overhead limit haveMsg
  | .prune maxRetain => (p.act fun m => { m with queue := m.queue.prune maxRetain },[])
  | .clear => (p.act fun m => { m with queue := m.queue.clear },[])

def next (cfg : Config) (fl : Floats) (p : Process) (op : Op) : Process := (p.step cfg fl op).1

def run (cfg : Config) (fl : Floats) (leaveFd : ℤ) (e : Env) (ops : List Op) : Process :=
  Transitions.run (next cfg fl) (start cfg leaveFd e) ops

/-- A `mergeRemoteState` that nothing interrupts is a run of the steps for its entries. -/
theorem run_merge (cfg : Config) (fl : Floats) (env : ℕ → Env) (pushpull : PushPull)
    (p : Process) : Transitions.run (next cfg fl) p
      (pushpull.states.zipIdx.map fun st => .merge st.1 (env st.2)) =
        p.act (·.mergeRemoteState cfg fl env pushpull) := by
  unfold Member.mergeRemoteState
  induction pushpull.states.zipIdx generalizing p with
  | nil => rfl
  | cons st sts ih => exact ih (p.act (·.mergeState cfg fl (env st.2) st.1))

end Process

end GossipMemberlist
