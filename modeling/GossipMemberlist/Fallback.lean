import GossipMemberlist.Library.FairRuns
import GossipMemberlist.Address
import GossipMemberlist.Transport

/-!
# A probe without an ack

When no ack comes, a call of `probeNode` waits for the expiry callback and then for the
thread that tries the target over TCP. The thread is started only if the configuration
allows it, and the socket wrappers throw where they cannot go on; nobody catches that.
-/

namespace GossipMemberlist

/-- What `Select` and, on a ready socket, `getsockopt` answer to `ConnectTimeout`. -/
inductive Selecting
  | error | timeout | ready (soError : Option ℤ)

/-- What `connect` answers. A connection that is there at once leaves `error` as it was found
on the stack. -/
inductive Connecting
  | failed | done (stale : ℤ) | inProgress (select : Selecting)

/-- `none` is an exception. -/
def connectTimeout : Connecting → Option Unit
  | .failed => none
  | .done stale => if stale ≠ 0 then none else some ()
  | .inProgress .error => none
  | .inProgress .timeout => none
  | .inProgress (.ready none) => none
  | .inProgress (.ready (some error)) => if error ≠ 0 then none else some ()

/-- What `Read` does on the connection. The seconds of its timeout are never written either, so
there may be none. -/
inductive Reading
  | throws | blocks | gets (bytes : List UInt8)

/-- What the calls of `sendPingAndWaitForAck` meet: the two readings of the clock, and whether
`Socket` and `Write` go through. -/
structure Attempt where
  socket : Bool
  start : ℤ
  connect : Connecting
  connected : ℤ
  write : Bool
  read : Reading

inductive Ending
  | throws | blocks | returns (didConnect : Bool)
  deriving DecidableEq

def sendPingAndWaitForAck (parse : Parser) (a : Attempt) (ping : MessageData) (deadline : ℤ) :
    Ending :=
  if !a.socket then .throws
  else if deadline - a.start ≤ 0 then .returns false
  else match connectTimeout a.connect with
    | none => .throws
    | some _ =>
      if deadline - a.connected < 0 then .returns false
      else if !a.write then .throws
      else match a.read with
        | .throws => .throws
        | .blocks => .blocks
        | .gets bytes =>
          let resp := (decodeReceiveTCP parse bytes).md
          .returns (if resp.head ≠ .ackRespMsg then false
            else if resp.ackResp.seqNo ≠ ping.ping.seqNo then false else true)

def Connecting.Succeeds : Connecting → Prop
  | .done stale => stale = 0
  | .inProgress (.ready (some error)) => error = 0
  | _ => False

/-- No wrapper has a reason to throw or to wait for ever. -/
def Attempt.Smooth (a : Attempt) (deadline : ℤ) : Prop :=
  a.socket = true ∧ (deadline ≤ a.start ∨
    a.connect.Succeeds ∧ (deadline < a.connected ∨ a.write = true ∧ ∃ bytes, a.read = .gets bytes))

theorem connectTimeout_eq_none {c : Connecting} : connectTimeout c = none ↔ ¬c.Succeeds := by
  rcases c with _ | stale | (_ | _ | _ | error) <;> simp [connectTimeout,Connecting.Succeeds]

theorem sendPing_returns_iff {parse : Parser} {a : Attempt} {ping : MessageData} {deadline : ℤ} :
    (∃ didConnect, sendPingAndWaitForAck parse a ping deadline = .returns didConnect) ↔
      a.Smooth deadline := by
  obtain ⟨socket,start,connect,connected,write,read⟩ := a
  simp only [sendPingAndWaitForAck,Attempt.Smooth]
  cases socket with
  | false => simp
  | true =>
    by_cases hstart : deadline ≤ start
    · simp [hstart]
    · cases hconnect : connectTimeout connect with
      | none => simp [hstart,connectTimeout_eq_none.mp hconnect]
      | some u =>
        have hsucceeds : connect.Succeeds := by
          by_contra h
          rw [connectTimeout_eq_none.mpr h] at hconnect
          cases hconnect
        by_cases hconnected : deadline < connected
        · simp [hstart,hconnected,hsucceeds]
        · cases write with
          | false => simp [hstart,hconnected,hsucceeds]
          | true => cases read <;> simp [hstart,hconnected,hsucceeds]

/-- What one call of `probeNode` finds: the configuration, the snapshot of the target, the
members it asks, what the sockets do, and the seconds of the timeout of its `Select`, which it
never writes. -/
structure Surroundings where
  cfg : Config
  allowTcpPing : Bool
  node : NodeState
  seqNo : ℕ
  kNodes : List Node
  sendto : SockaddrIn → MessageData → Bool
  selectSec : ℤ
  deadline : ℤ
  parse : Parser
  attempt : Attempt

inductive CallAt
  | fullAddr | ping (addr : SockaddrIn) | select | writeBack | indirect | fork | read | fallback
  | erase | close (failed : Bool) | suspect | returned
  deriving DecidableEq

inductive TcpAt
  | unforked | ping | write (didConnect : Bool) | done
  deriving DecidableEq

/-- A callback that the listener has taken and not called yet. -/
inductive CallbackAt
  | idle | ackFn | nackFn
  deriving DecidableEq

/-- A call of `probeNode` after `setProbePipes`, with the threads that share its pipes. The
process is gone when it has `ended`. -/
structure ProbeCall where
  pc : CallAt
  ackPipe : List Bool
  fallbackPipe : List Bool
  tcp : TcpAt
  expired : Bool
  registered : Bool
  listener : CallbackAt
  suspects : List Broadcast
  ended : Bool

inductive CallEvent
  | prober | tcp | expire | handleAck | handleNack | listener
  deriving DecidableEq

namespace Surroundings

def ping (w : Surroundings) : MessageData :=
  genPing w.seqNo w.node.n.name w.cfg.advertiseAddr w.cfg.advertisePort.toNat w.cfg.name

def suspicion (w : Surroundings) : Suspect := ⟨w.node.incarnation,w.node.n.name,w.cfg.name⟩

def pings (w : Surroundings) : List MessageData :=
  if w.node.state = .stateAlive then [w.ping] else [w.ping,genSuspectMsg w.suspicion]

def indirectPing (w : Surroundings) : MessageData :=
  genIndirectPing w.seqNo w.node.n.name w.node.n.addr w.node.n.port.toNat true
    w.cfg.advertiseAddr w.cfg.advertisePort.toNat w.cfg.name

def answer (w : Surroundings) : Ending :=
  sendPingAndWaitForAck w.parse w.attempt w.ping w.deadline

end Surroundings

namespace ProbeCall

def initial : ProbeCall := ⟨.fullAddr,[],[],.unforked,false,true,.idle,[],false⟩

variable (w : Surroundings)

/-- An exception that nobody catches, or `exit(-1)`. -/
def terminate (s : ProbeCall) : ProbeCall := { s with ended := true }

/-- `FullAddr` and `encodeSendUDP` for each of the members asked. -/
def asks (n : Node) : Bool := n.fullAddr.any fun addr => w.sendto addr w.indirectPing

/-- Without a timeout that is negative, `Select` comes back when the pipe has something or the
time is over. -/
def selectAck (s : ProbeCall) : ProbeCall :=
  if w.selectSec < 0 then s.terminate
  else match s.ackPipe with
    | [] => { s with pc := .indirect }
    | true::rest => { s with ackPipe := rest, pc := .close false }
    | false::rest => { s with ackPipe := rest, pc := .writeBack }

/-- `Read` blocks on an empty pipe. -/
def readAck (s : ProbeCall) : ProbeCall :=
  match s.ackPipe with
  | [] => s
  | true::rest => { s with ackPipe := rest, pc := .close false }
  | false::rest => { s with ackPipe := rest, pc := .fallback }

def readFallback (s : ProbeCall) : ProbeCall :=
  match s.fallbackPipe with
  | [] => s
  | didConnect::rest =>
    { s with
      fallbackPipe := rest
      pc := if w.allowTcpPing && didConnect then .close false else .erase }

def proberStep (s : ProbeCall) : ProbeCall :=
  match s.pc with
  | .fullAddr =>
    match w.node.n.fullAddr with
    | some addr => { s with pc := .ping addr }
    | none => s.terminate
  | .ping addr => if w.pings.all (w.sendto addr) then { s with pc := .select } else s.terminate
  | .select => s.selectAck w
  | .writeBack => { s with ackPipe := s.ackPipe ++ [false], pc := .indirect }
  | .indirect => if w.kNodes.all (asks w) then { s with pc := .fork } else s.terminate
  | .fork => { s with tcp := if w.allowTcpPing then .ping else s.tcp, pc := .read }
  | .read => s.readAck
  | .fallback => s.readFallback w
  | .erase => { s with registered := false, pc := .close true }
  | .close failed => { s with pc := if failed then .suspect else .returned }
  | .suspect =>
    { s with suspects := s.suspects ++ [genSuspectBroadcast w.suspicion], pc := .returned }
  | .returned => s

def tcpStep (s : ProbeCall) : ProbeCall :=
  match s.tcp with
  | .ping =>
    match w.node.n.fullAddr, w.answer with
    | some _, .returns didConnect => { s with tcp := .write didConnect }
    | some _, .blocks => s
    | _, _ => s.terminate
  | .write didConnect => { s with fallbackPipe := s.fallbackPipe ++ [didConnect], tcp := .done }
  | .unforked | .done => s

def expire (s : ProbeCall) : ProbeCall :=
  if s.expired then s else { s with ackPipe := s.ackPipe ++ [false], expired := true }

/-- An ack that comes after the expiry callback has reported the failure. -/
def handleAck (s : ProbeCall) : ProbeCall :=
  if s.expired ∧ s.registered ∧ s.listener = .idle then
    { s with registered := false, listener := .ackFn }
  else s

def handleNack (s : ProbeCall) : ProbeCall :=
  if s.registered ∧ s.listener = .idle then { s with listener := .nackFn } else s

/-- The callback writes; `Write` throws if the pipe is closed. -/
def listenerStep (s : ProbeCall) : ProbeCall :=
  match s.listener with
  | .idle => s
  | .ackFn =>
    if s.pc = .suspect then s.terminate
    else { s with ackPipe := s.ackPipe ++ [true], listener := .idle }
  | .nackFn => if s.pc = .suspect then s.terminate else { s with listener := .idle }

def step (s : ProbeCall) (e : CallEvent) : ProbeCall :=
  if s.ended ∨ s.pc = .returned then s
  else match e with
    | .prober => s.proberStep w
    | .tcp => s.tcpStep w
    | .expire => s.expire
    | .handleAck => s.handleAck
    | .handleNack => s.handleNack
    | .listener => s.listenerStep

end ProbeCall

namespace Surroundings

variable (w : Surroundings)

def Pinged : Prop := ∃ addr, w.node.n.fullAddr = some addr ∧ ∀ md ∈ w.pings, w.sendto addr md = true

def Asked : Prop :=
  ∀ n ∈ w.kNodes, ∃ addr, n.fullAddr = some addr ∧ w.sendto addr w.indirectPing = true

/-- The addresses parse and the kernel takes the datagrams, the unwritten seconds are not
negative, and the TCP attempt is made and meets no error. -/
structure Good : Prop where
  pinged : w.Pinged
  select : 0 ≤ w.selectSec
  asked : w.Asked
  allowTcpPing : w.allowTcpPing = true
  smooth : w.attempt.Smooth w.deadline

/-- What `suspectNode` is to be called with. -/
def verdict : List Broadcast :=
  if w.allowTcpPing = true ∧ w.answer = .returns true then [] else [genSuspectBroadcast w.suspicion]

end Surroundings

namespace ProbeCall

open Transitions

/-- The condition on a step, in the state before it. A late ack goes into the pipe when the
prober has already put a report of failure back that it found too early, and no callback is
left when the prober closes the pipes of a target that it is about to suspect. -/
def Orderly (s : ProbeCall) : CallEvent → Prop
  | .listener => s.listener = .ackFn →
      s.pc ≠ .select ∧ s.pc ≠ .writeBack ∧ s.pc ≠ .fullAddr ∧ ∀ addr, s.pc ≠ .ping addr
  | .prober => s.pc = .close true → s.listener = .idle
  | _ => True

variable (w : Surroundings)

/-- The call has returned, in a process that still runs, and has suspected its target unless
that has answered over TCP. -/
def Settled (s : ProbeCall) : Prop :=
  s.pc = .returned ∧ s.ended = false ∧ s.suspects = w.verdict

/-- What a call knows of its surroundings by the point it has reached. -/
def Passed : CallAt → Prop
  | .fullAddr => True
  | .ping addr => w.node.n.fullAddr = some addr
  | .select => w.Pinged
  | .writeBack | .indirect => w.Pinged ∧ 0 ≤ w.selectSec
  | .fork | .read | .fallback => w.Pinged ∧ 0 ≤ w.selectSec ∧ w.Asked
  | .erase | .close true | .suspect => w.Good ∧ w.answer = .returns false
  | .close false => w.Good ∧ w.answer = .returns true
  | .returned => w.Good

/-- The report of failure is the first thing in the pipe. -/
def PipeAt (expired : Bool) (pipe : List Bool) : CallAt → Prop
  | .fullAddr | .ping _ | .select => pipe = if expired then [false] else []
  | .writeBack => expired = true ∧ pipe = []
  | .indirect | .fork | .read => if expired then pipe.head? = some false else pipe = []
  | _ => True

/-- The thread has not written yet, or its answer is in the pipe. -/
def Trying (tcp : TcpAt) (pipe : List Bool) : Prop :=
  tcp = .ping ∧ pipe = [] ∨ ∃ didConnect, w.answer = .returns didConnect ∧
    (tcp = .write didConnect ∧ pipe = [] ∨ tcp = .done ∧ pipe = [didConnect])

def ThreadAt (tcp : TcpAt) (pipe : List Bool) : CallAt → Prop
  | .read | .fallback =>
    if w.allowTcpPing then Trying w tcp pipe else tcp = .unforked ∧ pipe = []
  | .erase | .close _ | .suspect | .returned => tcp = .done
  | _ => tcp = .unforked ∧ pipe = []

structure Sound (s : ProbeCall) : Prop where
  passed : Passed w s.pc
  pipe : PipeAt s.expired s.ackPipe s.pc
  tcp : ThreadAt w s.tcp s.fallbackPipe s.pc
  ackFn : s.listener = .ackFn → s.expired = true
  erased : s.pc = .close true ∨ s.pc = .suspect → s.registered = false
  alone : s.pc = .suspect → s.listener = .idle
  suspects : s.suspects = if s.pc = .returned then w.verdict else []

/-- The process ends only where it can be told from the surroundings. -/
def Kept (s : ProbeCall) : Prop := if s.ended then ¬w.Good else Sound w s

variable {w} {s : ProbeCall}

theorem Sound.initial : Sound w initial := by
  constructor <;> simp [ProbeCall.initial,Passed,PipeAt,ThreadAt]

theorem Sound.kept (hs : Sound w s) (halive : s.ended = false) : Kept w s := by
  rw [Kept,halive]
  exact hs

theorem kept_terminate (h : ¬w.Good) : Kept w s.terminate := h

theorem Sound.expire (hs : Sound w s) : Sound w s.expire := by
  obtain ⟨hpassed,hpipe,htcp,hackFn,herased,halone,hsuspects⟩ := hs
  unfold ProbeCall.expire
  split
  · constructor <;> assumption
  · rename_i hexpired
    refine ⟨hpassed,?_,htcp,fun _ => rfl,herased,halone,hsuspects⟩
    cases hpc : s.pc <;> simp_all [PipeAt]

theorem Sound.handleAck (hs : Sound w s) : Sound w s.handleAck := by
  obtain ⟨hpassed,hpipe,htcp,hackFn,herased,halone,hsuspects⟩ := hs
  unfold ProbeCall.handleAck
  split
  · rename_i h
    refine ⟨hpassed,hpipe,htcp,fun _ => h.1,fun _ => rfl,fun hpc => ?_,hsuspects⟩
    have hgone := herased (.inr hpc)
    rw [hgone] at h
    exact absurd h.2.1 Bool.false_ne_true
  · constructor <;> assumption

theorem Sound.handleNack (hs : Sound w s) : Sound w s.handleNack := by
  obtain ⟨hpassed,hpipe,htcp,hackFn,herased,halone,hsuspects⟩ := hs
  unfold ProbeCall.handleNack
  split
  · rename_i h
    refine ⟨hpassed,hpipe,htcp,fun h => (CallbackAt.noConfusion h),herased,fun hpc => ?_,hsuspects⟩
    have hgone := herased (.inr hpc)
    rw [hgone] at h
    exact absurd h.1 Bool.false_ne_true
  · constructor <;> assumption

theorem Sound.listener (hs : Sound w s) (halive : s.ended = false) (ho : s.Orderly .listener) :
    Kept w s.listenerStep := by
  have hopen : s.listener ≠ .idle → s.pc ≠ .suspect := fun hl h => hl (hs.alone h)
  obtain ⟨hpassed,hpipe,htcp,hackFn,herased,halone,hsuspects⟩ := hs
  unfold ProbeCall.listenerStep
  cases hl : s.listener with
  | idle => exact Sound.kept ⟨hpassed,hpipe,htcp,hackFn,herased,halone,hsuspects⟩ halive
  | ackFn =>
    simp only [hopen (by rw [hl]; decide),if_false]
    refine Sound.kept ⟨hpassed,?_,htcp,fun h => (CallbackAt.noConfusion h),herased,fun _ => rfl,
      hsuspects⟩ halive
    have hexpired := hackFn hl
    have hlate := ho hl
    cases hpc : s.pc <;> simp_all [PipeAt]
  | nackFn =>
    simp only [hopen (by rw [hl]; decide),if_false]
    exact Sound.kept ⟨hpassed,hpipe,htcp,fun h => (CallbackAt.noConfusion h),herased,
      fun _ => rfl,hsuspects⟩ halive

/-- As long as the thread is at work, the prober waits for the ack or for the thread. -/
theorem Sound.trying (hs : Sound w s) (hunforked : s.tcp ≠ .unforked) (hdone : s.tcp ≠ .done) :
    (s.pc = .read ∨ s.pc = .fallback) ∧ w.allowTcpPing = true ∧ Trying w s.tcp s.fallbackPipe := by
  have htcp := hs.tcp
  cases hpc : s.pc <;> simp_all [ThreadAt]

theorem Sound.setTcp (hs : Sound w s) {tcp : TcpAt} {pipe : List Bool}
    (hpc : s.pc = .read ∨ s.pc = .fallback) (hallow : w.allowTcpPing = true)
    (h : Trying w tcp pipe) : Sound w { s with fallbackPipe := pipe, tcp := tcp } := by
  obtain ⟨hpassed,hpipe,htcp,hackFn,herased,halone,hsuspects⟩ := hs
  refine ⟨hpassed,hpipe,?_,hackFn,herased,halone,hsuspects⟩
  rcases hpc with hpc | hpc <;> simpa [hpc,ThreadAt,hallow] using h

theorem answer_returns (hw : w.Good) : ∃ didConnect, w.answer = .returns didConnect :=
  sendPing_returns_iff.mpr hw.smooth

theorem Sound.tcpStep (hs : Sound w s) (halive : s.ended = false) : Kept w (s.tcpStep w) := by
  unfold ProbeCall.tcpStep
  cases hat : s.tcp with
  | unforked => exact hs.kept halive
  | done => exact hs.kept halive
  | ping =>
    obtain ⟨hpc,hallow,htrying⟩ := hs.trying (by rw [hat]; decide) (by rw [hat]; decide)
    have hpipe : s.fallbackPipe = [] := by simpa [Trying,hat] using htrying
    have hpinged : w.Pinged := by
      have hpassed := hs.passed
      rcases hpc with h | h <;> rw [h] at hpassed <;> exact hpassed.1
    obtain ⟨addr,haddr,-⟩ := hpinged
    rw [haddr]
    cases hanswer : w.answer with
    | throws =>
      refine kept_terminate fun hw => ?_
      obtain ⟨didConnect,h⟩ := answer_returns hw
      rw [hanswer] at h
      cases h
    | blocks => exact hs.kept halive
    | returns didConnect =>
      exact (hs.setTcp hpc hallow (.inr ⟨didConnect,hanswer,.inl ⟨rfl,hpipe⟩⟩)).kept halive
  | write didConnect =>
    obtain ⟨hpc,hallow,htrying⟩ := hs.trying (by rw [hat]; nofun) (by rw [hat]; nofun)
    obtain ⟨hanswer,hpipe⟩ : w.answer = .returns didConnect ∧ s.fallbackPipe = [] := by
      simp only [Trying,hat] at htrying
      grind
    simp only [hpipe,List.nil_append]
    exact (hs.setTcp hpc hallow (.inr ⟨didConnect,hanswer,.inr ⟨rfl,rfl⟩⟩)).kept halive

theorem Sound.goto (hs : Sound w s) (halive : s.ended = false) (hpc : s.pc ≠ .returned)
    (pc : CallAt) (ackPipe : List Bool) (hplain : pc ≠ .returned ∧ pc ≠ .suspect ∧ pc ≠ .close true)
    (hpassed : Passed w pc) (hpipe : PipeAt s.expired ackPipe pc)
    (htcp : ThreadAt w s.tcp s.fallbackPipe pc) :
    Kept w { s with pc := pc, ackPipe := ackPipe } := by
  have hsuspects := hs.suspects
  rw [if_neg hpc] at hsuspects
  refine Sound.kept ⟨hpassed,hpipe,htcp,hs.ackFn,?_,fun h => absurd h hplain.2.1,?_⟩ halive
  · rintro (h | h)
    · exact absurd h hplain.2.2
    · exact absurd h hplain.2.1
  · exact hsuspects.trans (if_neg hplain.1).symm

theorem all_pings_iff {addr : SockaddrIn} (haddr : w.node.n.fullAddr = some addr) :
    w.pings.all (w.sendto addr) = true ↔ w.Pinged := by
  rw [List.all_eq_true]
  constructor
  · exact fun h => ⟨addr,haddr,h⟩
  · rintro ⟨addr',haddr',h⟩
    rw [haddr] at haddr'
    cases haddr'
    exact h

theorem all_asks_iff : w.kNodes.all (asks w) = true ↔ w.Asked := by
  simp [List.all_eq_true,asks,Surroundings.Asked,Option.any_eq_true]

theorem Sound.selectAck (hs : Sound w s) (halive : s.ended = false) (hat : s.pc = .select) :
    Kept w (s.selectAck w) := by
  have hpc : s.pc ≠ .returned := by rw [hat]; decide
  have hgoto := hs.goto halive hpc
  have hpassed := hs.passed
  have hpipe := hs.pipe
  have htcp := hs.tcp
  rw [hat] at hpassed hpipe htcp
  unfold ProbeCall.selectAck
  split
  · rename_i hsec
    exact kept_terminate fun hw => absurd hw.select (not_le.mpr hsec)
  · rename_i hsec
    have hselected := And.intro hpassed (not_lt.mp hsec)
    rcases Bool.eq_false_or_eq_true s.expired with hexpired | hexpired
    · have hfull : s.ackPipe = [false] := by simpa [PipeAt,hexpired] using hpipe
      simp only [hfull]
      exact hgoto .writeBack [] (by decide) hselected ⟨hexpired,rfl⟩ htcp
    · have hempty : s.ackPipe = [] := by simpa [PipeAt,hexpired] using hpipe
      simp only [hempty]
      exact hgoto .indirect [] (by decide) hselected (by simp [PipeAt,hexpired]) htcp

theorem Sound.readAck (hs : Sound w s) (halive : s.ended = false) (hat : s.pc = .read) :
    Kept w s.readAck := by
  have hpc : s.pc ≠ .returned := by rw [hat]; decide
  have hpassed := hs.passed
  have hpipe := hs.pipe
  have htcp := hs.tcp
  rw [hat] at hpassed hpipe htcp
  unfold ProbeCall.readAck
  cases hack : s.ackPipe with
  | nil => exact hs.kept halive
  | cons complete rest =>
    obtain rfl : complete = false := by
      rw [hack] at hpipe
      cases hexpired : s.expired <;> simp_all [PipeAt]
    exact hs.goto halive hpc .fallback rest (by decide) hpassed trivial htcp

theorem Sound.readFallback (hs : Sound w s) (halive : s.ended = false) (hat : s.pc = .fallback) :
    Kept w (s.readFallback w) := by
  have hpc : s.pc ≠ .returned := by rw [hat]; decide
  have hpassed := hs.passed
  have htcp := hs.tcp
  have hsuspects := hs.suspects
  rw [hat] at hpassed htcp hsuspects
  unfold ProbeCall.readFallback
  cases hfallback : s.fallbackPipe with
  | nil => exact hs.kept halive
  | cons didConnect rest =>
    cases hallow : w.allowTcpPing with
    | false => simp [ThreadAt,hallow,hfallback] at htcp
    | true =>
      obtain ⟨hanswer,hdone⟩ : w.answer = .returns didConnect ∧ s.tcp = .done := by
        simp only [ThreadAt,hallow,if_true,Trying,hfallback] at htcp
        grind
      have hsmooth : w.attempt.Smooth w.deadline := sendPing_returns_iff.mp ⟨didConnect,hanswer⟩
      have hgood : w.Good := ⟨hpassed.1,hpassed.2.1,hpassed.2.2,hallow,hsmooth⟩
      have hleft := And.intro hgood hanswer
      cases didConnect with
      | false => exact Sound.kept ⟨hleft,trivial,hdone,hs.ackFn,nofun,nofun,hsuspects⟩ halive
      | true => exact Sound.kept ⟨hleft,trivial,hdone,hs.ackFn,nofun,nofun,hsuspects⟩ halive

theorem Sound.fork (hs : Sound w s) (halive : s.ended = false) (hat : s.pc = .fork) :
    Kept w { s with tcp := if w.allowTcpPing then .ping else s.tcp, pc := .read } := by
  have hpassed := hs.passed
  have hpipe := hs.pipe
  have hsuspects := hs.suspects
  obtain ⟨htcp,hfallback⟩ : s.tcp = .unforked ∧ s.fallbackPipe = [] := by
    have htcp := hs.tcp
    rwa [hat] at htcp
  rw [hat] at hpassed hpipe hsuspects
  refine Sound.kept ⟨hpassed,hpipe,?_,hs.ackFn,nofun,nofun,hsuspects⟩ halive
  cases hallow : w.allowTcpPing <;> simp [ThreadAt,Trying,hallow,htcp,hfallback]

theorem Sound.leave (hs : Sound w s) (halive : s.ended = false) (ho : s.Orderly .prober)
    {failed : Bool} (hat : s.pc = .close failed) :
    Kept w { s with pc := if failed then .suspect else .returned } := by
  have hpassed := hs.passed
  have htcp := hs.tcp
  have hsuspects := hs.suspects
  have herased := hs.erased
  rw [hat] at hpassed htcp hsuspects herased
  cases failed with
  | false =>
    refine Sound.kept ⟨hpassed.1,trivial,htcp,hs.ackFn,nofun,nofun,?_⟩ halive
    exact hsuspects.trans (if_pos ⟨hpassed.1.allowTcpPing,hpassed.2⟩).symm
  | true =>
    exact Sound.kept ⟨hpassed,trivial,htcp,hs.ackFn,fun _ => herased (.inl rfl),fun _ => ho hat,
      hsuspects⟩ halive

theorem Sound.suspect (hs : Sound w s) (halive : s.ended = false) (hat : s.pc = .suspect) :
    Kept w { s with
      suspects := s.suspects ++ [genSuspectBroadcast w.suspicion], pc := .returned } := by
  have hpassed := hs.passed
  have htcp := hs.tcp
  have hsuspects := hs.suspects
  rw [hat] at hpassed htcp hsuspects
  refine Sound.kept ⟨hpassed.1,trivial,htcp,hs.ackFn,nofun,nofun,?_⟩ halive
  have hno : ¬(w.allowTcpPing = true ∧ w.answer = .returns true) := by
    rw [hpassed.2]
    exact fun h => nomatch h.2
  rw [hsuspects,if_neg nofun,if_pos rfl,Surroundings.verdict,if_neg hno]
  rfl

theorem Sound.prober (hs : Sound w s) (halive : s.ended = false) (hpc : s.pc ≠ .returned)
    (ho : s.Orderly .prober) : Kept w (s.proberStep w) := by
  have hgoto := hs.goto halive hpc
  have hpassed := hs.passed
  have hpipe := hs.pipe
  have htcp := hs.tcp
  unfold ProbeCall.proberStep
  split <;> rename_i hat
  · rw [hat] at hpassed hpipe htcp
    split
    · rename_i addr haddr
      exact hgoto (.ping addr) s.ackPipe (by simp) haddr hpipe htcp
    · rename_i haddr
      refine kept_terminate fun hw => ?_
      obtain ⟨addr,h,-⟩ := hw.pinged
      rw [haddr] at h
      cases h
  · rw [hat] at hpassed hpipe htcp
    split
    · rename_i hall
      exact hgoto .select s.ackPipe (by decide) ((all_pings_iff hpassed).mp hall) hpipe htcp
    · rename_i hall
      exact kept_terminate fun hw => hall ((all_pings_iff hpassed).mpr hw.pinged)
  · exact hs.selectAck halive hat
  · rw [hat] at hpassed hpipe htcp
    exact hgoto .indirect _ (by decide) hpassed (by simp [PipeAt,hpipe.1,hpipe.2]) htcp
  · rw [hat] at hpassed hpipe htcp
    split
    · rename_i hall
      exact hgoto .fork s.ackPipe (by decide) ⟨hpassed.1,hpassed.2,all_asks_iff.mp hall⟩ hpipe htcp
    · rename_i hall
      exact kept_terminate fun hw => hall (all_asks_iff.mpr hw.asked)
  · exact hs.fork halive hat
  · exact hs.readAck halive hat
  · exact hs.readFallback halive hat
  · have hsuspects := hs.suspects
    rw [hat] at hpassed htcp hsuspects
    exact Sound.kept ⟨hpassed,trivial,htcp,hs.ackFn,fun _ => rfl,nofun,hsuspects⟩ halive
  · exact hs.leave halive ho hat
  · exact hs.suspect halive hat
  · exact absurd hat hpc

theorem Kept.step (hk : Kept w s) {e : CallEvent} (ho : s.Orderly e) : Kept w (s.step w e) := by
  unfold ProbeCall.step
  split
  · exact hk
  · rename_i h
    obtain ⟨hended,hpc⟩ := not_or.mp h
    have halive : s.ended = false := Bool.eq_false_iff.mpr hended
    have hs : Sound w s := by rwa [Kept,halive] at hk
    cases e with
    | prober => exact hs.prober halive hpc ho
    | tcp => exact hs.tcpStep halive
    | expire =>
      refine hs.expire.kept ?_
      unfold ProbeCall.expire
      split <;> exact halive
    | handleAck =>
      refine hs.handleAck.kept ?_
      unfold ProbeCall.handleAck
      split <;> exact halive
    | handleNack =>
      refine hs.handleNack.kept ?_
      unfold ProbeCall.handleNack
      split <;> exact halive
    | listener => exact hs.listener halive ho

/-- How much is left to do; the thread that `fork` starts is paid for there. -/
def pcRank : CallAt → ℕ
  | .fullAddr => 13
  | .ping _ => 12
  | .select => 11
  | .writeBack => 10
  | .indirect => 9
  | .fork => 8
  | .read => 5
  | .fallback => 4
  | .erase => 3
  | .close _ => 2
  | .suspect => 1
  | .returned => 0

def tcpRank : TcpAt → ℕ
  | .ping => 2
  | .write _ => 1
  | .unforked | .done => 0

def rank (s : ProbeCall) : ℕ := pcRank s.pc + tcpRank s.tcp + (!s.expired).toNat

/-- Whose turn it is, so that the call goes on. -/
def next (s : ProbeCall) : CallEvent :=
  match s.pc with
  | .read => if s.ackPipe = [] then .expire else .prober
  | .fallback => if s.fallbackPipe = [] then .tcp else .prober
  | _ => .prober

theorem Kept.settled (hk : Kept w s) (hw : w.Good) (hpc : s.pc = .returned) : Settled w s := by
  have halive : s.ended = false := by
    cases h : s.ended with
    | false => rfl
    | true =>
      rw [Kept,h] at hk
      exact absurd hw hk
  have hs : Sound w s := by rwa [Kept,halive] at hk
  exact ⟨hpc,halive,by rw [hs.suspects,if_pos hpc]⟩

def silent (allowTcpPing : Bool) : Surroundings where
  cfg := defaultLANConfig "a"
  allowTcpPing := allowTcpPing
  node := ⟨⟨"b","10.0.0.2",6666⟩,1,.stateAlive,0⟩
  seqNo := 7
  kNodes := []
  sendto _ _ := true
  selectSec := 0
  deadline := 1000000
  parse := wireParse
  attempt := ⟨true,600000,.failed,600000,true,.throws⟩

end ProbeCall

end GossipMemberlist
