import GossipMemberlist.Library.Transitions
import Mathlib.Logic.Function.Basic

/-!
# The pipes of a probe

`probeNode` opens its pipes, registers a handler whose callbacks write to them, and
closes them on each of its four ways out. The listener thread takes handlers out of
`ackHandlers` under `ackLock` but calls them after it has released the lock, and the
timer thread of a handler writes when the probe interval has passed.
-/

namespace GossipMemberlist

/-- The thread of a handler's `onceTimer`. `Stop` cancels it; the sleep and the write
are the points where that takes effect. -/
inductive TimerAt
  | unarmed | sleeping | due | done | cancelled
  deriving DecidableEq

inductive ExitPath
  | directAck | indirectAck | tcpFallback | failure
  deriving DecidableEq

/-- What a call of `probeNode` does next; `start h` calls `Run` on the timer of handler `h`. -/
inductive ProbeAt
  | idle | insert | find | start (h : ℕ) | select | read | fallback | erase
  | clear (path : ExitPath) | returned
  deriving DecidableEq

/-- A call of `probeNode` with its ack pipe, as the `Complete` flags of the unread messages,
and the timer of its handler. Nobody reads its nack pipe. -/
structure Probe where
  seqNo : ℕ
  pc : ProbeAt
  ackPipe : List Bool
  timer : TimerAt
  deriving DecidableEq

/-- What the listener thread does next with the handler that it has copied; in `release` it
drops the copy. -/
inductive ListenerAt
  | idle | stop (h : ℕ) | ackFn (h : ℕ) | nackFn (h : ℕ) | release (h : ℕ)
  deriving DecidableEq

/-- `ackHandlers` maps a sequence number to the probe whose handler it is. `late` lists the
probes to whose pipes a callback wrote after they were closed. The process has no defined
behaviour any more when it is `dead`. -/
structure Probing where
  probes : ℕ → Probe
  ackHandlers : ℕ → Option ℕ
  listener : ListenerAt
  late : List ℕ
  dead : Bool

inductive ProbeEvent
  | probeNode (r seqNo : ℕ)
  | prober (r : ℕ) (didConnect : Bool)
  | handleAck (seqNo : ℕ)
  | handleNack (seqNo : ℕ)
  | listener
  | wake (r : ℕ)
  | fire (r : ℕ)

def TimerAt.Pending : TimerAt → Prop
  | .sleeping | .due => True
  | _ => False

def TimerAt.stop : TimerAt → TimerAt
  | .sleeping | .due => .cancelled
  | t => t

def TimerAt.run : TimerAt → TimerAt
  | .due => .due
  | _ => .sleeping

theorem TimerAt.not_pending_stop (t : TimerAt) : ¬t.stop.Pending := by
  cases t <;> simp [stop,Pending]

def ListenerAt.handler : ListenerAt → Option ℕ
  | .idle => none
  | .stop h | .ackFn h | .nackFn h | .release h => some h

namespace Probing

def initial : Probing := ⟨fun _ => ⟨0,.idle,[],.unarmed⟩,fun _ => none,.idle,[],false⟩

def setProbe (r : ℕ) (p : Probe) (s : Probing) : Probing :=
  { s with probes := Function.update s.probes r p }

def goto (r : ℕ) (pc : ProbeAt) (s : Probing) : Probing :=
  s.setProbe r { s.probes r with pc }

def stopTimer (h : ℕ) (s : Probing) : Probing :=
  s.setProbe h { s.probes h with timer := (s.probes h).timer.stop }

/-- A handler goes with the last reference to it, and its timer is stopped. -/
def unref (h : ℕ) (s : Probing) : Probing :=
  if s.ackHandlers (s.probes h).seqNo = some h ∨ s.listener.handler = some h then s
  else s.stopTimer h

def erase (seqNo : ℕ) (s : Probing) : Probing :=
  match s.ackHandlers seqNo with
  | none => s
  | some h => unref h { s with ackHandlers := Function.update s.ackHandlers seqNo none }

/-- A callback of probe `r` writes; its pipes are closed once the call has returned. -/
def writeAck (r : ℕ) (complete : Bool) (s : Probing) : Probing :=
  if (s.probes r).pc = .returned then { s with late := s.late ++ [r] }
  else s.setProbe r { s.probes r with ackPipe := (s.probes r).ackPipe ++ [complete] }

def writeNack (r : ℕ) (s : Probing) : Probing :=
  if (s.probes r).pc = .returned then { s with late := s.late ++ [r] } else s

def insertHandler (r : ℕ) (s : Probing) : Probing :=
  let seqNo := (s.probes r).seqNo
  let s := s.erase seqNo
  goto r .find { s with ackHandlers := Function.update s.ackHandlers seqNo (some r) }

/-- `ackHandlers[seqNo]` without the lock; a null pointer when the handler is gone. -/
def findHandler (r : ℕ) (s : Probing) : Probing :=
  match s.ackHandlers (s.probes r).seqNo with
  | some h => s.goto r (.start h)
  | none => { s with dead := true }

def startTimer (h r : ℕ) (s : Probing) : Probing :=
  if s.ackHandlers (s.probes h).seqNo = some h ∨ s.listener.handler = some h then
    (s.setProbe h { s.probes h with timer := (s.probes h).timer.run }).goto r .select
  else { s with dead := true }

/-- `Select` comes back with an empty pipe when its timeout has passed. -/
def selectAck (r : ℕ) (s : Probing) : Probing :=
  match (s.probes r).ackPipe with
  | [] => s.goto r .read
  | true::rest => s.setProbe r { s.probes r with ackPipe := rest, pc := .clear .directAck }
  | false::rest => s.setProbe r { s.probes r with ackPipe := rest ++ [false], pc := .read }

/-- `Read` blocks on an empty pipe. -/
def readAck (r : ℕ) (s : Probing) : Probing :=
  match (s.probes r).ackPipe with
  | [] => s
  | true::rest => s.setProbe r { s.probes r with ackPipe := rest, pc := .clear .indirectAck }
  | false::rest => s.setProbe r { s.probes r with ackPipe := rest, pc := .fallback }

/-- Without the fallback thread nobody writes to its pipe. -/
def readFallback (allowTcpPing didConnect : Bool) (r : ℕ) (s : Probing) : Probing :=
  if !allowTcpPing then s
  else if didConnect then s.goto r (.clear .tcpFallback) else s.goto r .erase

def eraseHandler (r : ℕ) (s : Probing) : Probing :=
  (s.erase (s.probes r).seqNo).goto r (.clear .failure)

def clearProbePipes (r : ℕ) (s : Probing) : Probing := s.goto r .returned

def proberStep (allowTcpPing didConnect : Bool) (r : ℕ) (s : Probing) : Probing :=
  match (s.probes r).pc with
  | .idle | .returned => s
  | .insert => s.insertHandler r
  | .find => s.findHandler r
  | .start h => s.startTimer h r
  | .select => s.selectAck r
  | .read => s.readAck r
  | .fallback => s.readFallback allowTcpPing didConnect r
  | .erase => s.eraseHandler r
  | .clear _ => s.clearProbePipes r

def handleAck (seqNo : ℕ) (s : Probing) : Probing :=
  match s.listener, s.ackHandlers seqNo with
  | .idle, some h =>
    { s with ackHandlers := Function.update s.ackHandlers seqNo none, listener := .stop h }
  | _, _ => s

def handleNack (seqNo : ℕ) (s : Probing) : Probing :=
  match s.listener, s.ackHandlers seqNo with
  | .idle, some h => { s with listener := .nackFn h }
  | _, _ => s

def listenerStep (s : Probing) : Probing :=
  match s.listener with
  | .idle => s
  | .stop h => { s.stopTimer h with listener := .ackFn h }
  | .ackFn h => { s.writeAck h true with listener := .release h }
  | .nackFn h => { s.writeNack h with listener := .release h }
  | .release h => unref h { s with listener := .idle }

def wake (r : ℕ) (s : Probing) : Probing :=
  if (s.probes r).timer = .sleeping then s.setProbe r { s.probes r with timer := .due } else s

def fire (r : ℕ) (s : Probing) : Probing :=
  if (s.probes r).timer = .due then
    (s.setProbe r { s.probes r with timer := .done }).writeAck r false
  else s

def step (allowTcpPing : Bool) (s : Probing) (e : ProbeEvent) : Probing :=
  if s.dead then s
  else match e with
    | .probeNode r seqNo =>
      if (s.probes r).pc = .idle then s.setProbe r ⟨seqNo,.insert,[],.unarmed⟩ else s
    | .prober r didConnect => s.proberStep allowTcpPing didConnect r
    | .handleAck seqNo => s.handleAck seqNo
    | .handleNack seqNo => s.handleNack seqNo
    | .listener => s.listenerStep
    | .wake r => s.wake r
    | .fire r => s.fire r

end Probing

def ProbeAt.Unfinished (pc : ProbeAt) : Prop := pc ≠ .idle ∧ pc ≠ .returned

/-- A callback that the listener has copied and not called yet. -/
def ListenerAt.Pending (l : ListenerAt) (h : ℕ) : Prop := l = .stop h ∨ l = .ackFn h ∨ l = .nackFn h

def Probe.Acked (p : Probe) : Prop :=
  true ∈ p.ackPipe ∨ p.pc = .clear .directAck ∨ p.pc = .clear .indirectAck

def Probe.Expired (p : Probe) : Prop :=
  false ∈ p.ackPipe ∨ p.pc = .fallback ∨ p.pc = .erase ∨ p.pc = .clear .tcpFallback ∨
    p.pc = .clear .failure

/-- What holds of a call, where `reg` says that its handler is in the table and `l` is where
the listener is. -/
structure Probe.Good (reg : Prop) (l : ListenerAt) (r : ℕ) (p : Probe) : Prop where
  registered : reg → p.pc.Unfinished ∧ p.pc ≠ .insert ∧ p.pc ≠ .clear .failure ∧ ¬p.Acked
  taken : l = .stop r ∨ l = .ackFn r → ¬reg
  pending : l.Pending r → p.pc.Unfinished ∧ p.pc ≠ .insert ∧ ¬p.Acked
  timer : p.timer.Pending → reg ∨ l = .stop r
  expired : p.Expired → p.timer = .done
  fresh : p.pc = .insert → p.ackPipe = []
  unarmed : p.pc = .insert ∨ p.pc = .find ∨ (∃ h, p.pc = .start h) → p.timer = .unarmed
  own : ∀ h, p.pc = .start h → h = r

namespace Probing

/-- The condition on a step, in the state before it. A new call gets a number that no unfinished
call has; `setProbePipes` finds its own handler in the table when it starts the timer; and when
the pipes are closed the listener has no uncalled copy of the handler, nor, after a successful
fallback, has the table the handler itself. -/
def Orderly (s : Probing) : ProbeEvent → Prop
  | .probeNode _ seqNo => ∀ r, (s.probes r).pc.Unfinished → (s.probes r).seqNo ≠ seqNo
  | .prober r _ =>
    match (s.probes r).pc with
    | .find | .start _ => s.ackHandlers (s.probes r).seqNo = some r
    | .clear path => ¬s.listener.Pending r ∧
        (path = .tcpFallback → s.ackHandlers (s.probes r).seqNo ≠ some r)
    | _ => True
  | _ => True

/-- No callback has written to a closed pipe. Every handler in the table belongs to an unfinished
call with that number; a call that has returned has none, the listener holds no uncalled copy of
it, and its timer will not fire. -/
structure Quiet (s : Probing) : Prop where
  late : s.late = []
  table : ∀ k r, s.ackHandlers k = some r → (s.probes r).seqNo = k ∧ (s.probes r).pc.Unfinished
  returned : ∀ r, (s.probes r).pc = .returned → (∀ k, s.ackHandlers k ≠ some r) ∧
    ¬s.listener.Pending r ∧ ¬(s.probes r).timer.Pending

structure Sound (s : Probing) : Prop where
  key : ∀ k r, s.ackHandlers k = some r → (s.probes r).seqNo = k
  distinct : ∀ r r', (s.probes r).pc.Unfinished → (s.probes r').pc.Unfinished →
    (s.probes r).seqNo = (s.probes r').seqNo → r = r'
  good : ∀ r, Probe.Good (s.ackHandlers (s.probes r).seqNo = some r) s.listener r (s.probes r)
  late : s.late = []
  dead : s.dead = false

theorem Sound.initial : initial.Sound where
  key := by simp [Probing.initial]
  distinct := by simp [Probing.initial,ProbeAt.Unfinished]
  good r := by
    constructor <;> simp [Probing.initial,ListenerAt.Pending,TimerAt.Pending,Probe.Expired]
  late := rfl
  dead := rfl

theorem Sound.quiet {s : Probing} (hs : s.Sound) : s.Quiet where
  late := hs.late
  table k r hk := ⟨hs.key k r hk,((hs.good r).registered ((hs.key k r hk).symm ▸ hk)).1⟩
  returned r hr := by
    have hg := hs.good r
    have hreg : ¬s.ackHandlers (s.probes r).seqNo = some r := fun h =>
      (hg.registered h).1.2 hr
    have hpending : ¬s.listener.Pending r := fun h => (hg.pending h).1.2 hr
    refine ⟨fun k hk => hreg ((hs.key k r hk).symm ▸ hk),hpending,fun ht => ?_⟩
    rcases hg.timer ht with h | h
    · exact hreg h
    · exact hpending (Or.inl h)

variable {s : Probing} {r : ℕ}

theorem Sound.setProbe (hs : s.Sound) {p : Probe} (hseq : p.seqNo = (s.probes r).seqNo)
    (hunfinished : p.pc.Unfinished → (s.probes r).pc.Unfinished)
    (hg : Probe.Good (s.ackHandlers (s.probes r).seqNo = some r) s.listener r p) :
    (s.setProbe r p).Sound where
  key k r' hk := by
    by_cases hr : r' = r
    · subst hr
      simpa [Probing.setProbe,hseq] using hs.key k r' hk
    · simpa [Probing.setProbe,hr] using hs.key k r' hk
  distinct r₁ r₂ h₁ h₂ heq := by
    have hat : ∀ r', ((s.setProbe r p).probes r').seqNo = (s.probes r').seqNo ∧
        (((s.setProbe r p).probes r').pc.Unfinished → (s.probes r').pc.Unfinished) := by
      intro r'
      by_cases hr : r' = r
      · subst hr
        simpa [Probing.setProbe,hseq] using hunfinished
      · simp [Probing.setProbe,hr]
    exact hs.distinct r₁ r₂ ((hat r₁).2 h₁) ((hat r₂).2 h₂) (by rw [← (hat r₁).1,heq,(hat r₂).1])
  good r' := by
    by_cases hr : r' = r
    · subst hr
      simpa [Probing.setProbe,hseq] using hg
    · simpa [Probing.setProbe,hr] using hs.good r'
  late := hs.late
  dead := hs.dead

theorem unref_eq {h : ℕ} (ht : (s.probes h).timer.Pending →
    s.ackHandlers (s.probes h).seqNo = some h) : s.unref h = s := by
  unfold unref
  split
  · rfl
  · next hn =>
    have hstop : (s.probes h).timer.stop = (s.probes h).timer := by
      cases htimer : (s.probes h).timer <;> simp_all [TimerAt.stop,TimerAt.Pending]
    rw [stopTimer,hstop]
    simp [Probing.setProbe]

theorem Sound.free_of_insert (hs : s.Sound) (hpc : (s.probes r).pc = .insert) :
    s.ackHandlers (s.probes r).seqNo = none := by
  rcases Option.eq_none_or_eq_some (s.ackHandlers (s.probes r).seqNo) with hnone | ⟨h,hh⟩
  · exact hnone
  · have hkey := hs.key _ h hh
    have hreg := (hs.good h).registered (hkey.symm ▸ hh)
    have heq : h = r := hs.distinct h r hreg.1 (by simp [hpc,ProbeAt.Unfinished]) hkey
    exact absurd (heq ▸ hpc) hreg.2.1

theorem Sound.goto (hs : s.Sound) {pc : ProbeAt}
    (hunfinished : pc.Unfinished → (s.probes r).pc.Unfinished)
    (hg : Probe.Good (s.ackHandlers (s.probes r).seqNo = some r) s.listener r
      { s.probes r with pc }) : (s.goto r pc).Sound := hs.setProbe rfl hunfinished hg

theorem Sound.setTable (hs : s.Sound) {k : ℕ} {v : Option ℕ}
    (hk : ∀ r', (s.probes r').seqNo = k → (v = some r' ∨ s.ackHandlers k = some r') →
      Probe.Good (v = some r') s.listener r' (s.probes r'))
    (hv : ∀ r', v = some r' → (s.probes r').seqNo = k) :
    Sound { s with ackHandlers := Function.update s.ackHandlers k v } where
  key k' r' h := by
    by_cases he : k' = k
    · subst he
      exact hv r' (by simpa using h)
    · exact hs.key k' r' (by simpa [he] using h)
  distinct := hs.distinct
  good r' := by
    by_cases he : (s.probes r').seqNo = k
    · by_cases hr : v = some r' ∨ s.ackHandlers k = some r'
      · simpa [he] using hk r' he hr
      · have hgood := hs.good r'
        simp only [not_or] at hr
        simpa [he,hr.1,hr.2] using hgood
    · simpa [he] using hs.good r'
  late := hs.late
  dead := hs.dead

theorem Sound.insertHandler (hs : s.Sound) (hpc : (s.probes r).pc = .insert) :
    (s.insertHandler r).Sound := by
  have hfree := hs.free_of_insert hpc
  have hunfinished : (s.probes r).pc.Unfinished := by simp [hpc,ProbeAt.Unfinished]
  have herase : s.erase (s.probes r).seqNo = s := by
    unfold erase
    rw [hfree]
  obtain ⟨hregistered,htaken,hpending,htimer,hexpired,hfresh,hunarmed,hown⟩ := hs.good r
  have hgoto : (s.goto r .find).Sound := by
    refine hs.goto (fun _ => hunfinished) ?_
    constructor <;> grind [Probe.Acked,Probe.Expired,ProbeAt.Unfinished]
  have hat : (s.goto r .find).probes r = { s.probes r with pc := .find } := by
    simp [Probing.goto,Probing.setProbe]
  unfold Probing.insertHandler
  simp only [herase]
  refine hgoto.setTable ?_ ?_
  · intro r' _ hr
    have heq : r' = r := by
      rcases hr with h | h
      · exact (Option.some.inj h).symm
      · rw [show (s.goto r .find).ackHandlers = s.ackHandlers from rfl,hfree] at h
        cases h
    subst heq
    show Probe.Good _ s.listener r' _
    rw [hat]
    constructor <;> grind [Probe.Acked,Probe.Expired,ProbeAt.Unfinished,ListenerAt.Pending,
      TimerAt.Pending]
  · intro r' h
    obtain rfl := Option.some.inj h
    rw [hat]

theorem Sound.findHandler (hs : s.Sound) (hpc : (s.probes r).pc = .find)
    (ho : s.ackHandlers (s.probes r).seqNo = some r) : (s.findHandler r).Sound := by
  have hunfinished : (s.probes r).pc.Unfinished := by simp [hpc,ProbeAt.Unfinished]
  obtain ⟨hregistered,htaken,hpending,htimer,hexpired,hfresh,hunarmed,hown⟩ := hs.good r
  unfold Probing.findHandler
  simp only [ho]
  refine hs.goto (fun _ => hunfinished) ?_
  constructor <;> grind [Probe.Acked,Probe.Expired,ProbeAt.Unfinished]

theorem Sound.startTimer (hs : s.Sound) (hpc : (s.probes r).pc = .start r)
    (ho : s.ackHandlers (s.probes r).seqNo = some r) : (s.startTimer r r).Sound := by
  have hunfinished : (s.probes r).pc.Unfinished := by simp [hpc,ProbeAt.Unfinished]
  have hmerge : s.startTimer r r =
      s.setProbe r { s.probes r with timer := (s.probes r).timer.run, pc := .select } := by
    simp [Probing.startTimer,ho,Probing.goto,Probing.setProbe]
  obtain ⟨hregistered,htaken,hpending,htimer,hexpired,hfresh,hunarmed,hown⟩ := hs.good r
  rw [hmerge]
  refine hs.setProbe rfl (fun _ => hunfinished) ?_
  constructor <;> grind [Probe.Acked,Probe.Expired,ProbeAt.Unfinished]

theorem Sound.selectAck (hs : s.Sound) (hpc : (s.probes r).pc = .select) :
    (s.selectAck r).Sound := by
  have hunfinished : (s.probes r).pc.Unfinished := by simp [hpc,ProbeAt.Unfinished]
  obtain ⟨hregistered,htaken,hpending,htimer,hexpired,hfresh,hunarmed,hown⟩ := hs.good r
  unfold Probing.selectAck
  split
  · refine hs.goto (fun _ => hunfinished) ?_
    constructor <;> grind [Probe.Acked,Probe.Expired,ProbeAt.Unfinished]
  · refine hs.setProbe rfl (fun _ => hunfinished) ?_
    constructor <;> grind [Probe.Acked,Probe.Expired,ProbeAt.Unfinished]
  · refine hs.setProbe rfl (fun _ => hunfinished) ?_
    constructor <;> grind [Probe.Acked,Probe.Expired,ProbeAt.Unfinished]

theorem Sound.readAck (hs : s.Sound) (hpc : (s.probes r).pc = .read) : (s.readAck r).Sound := by
  have hunfinished : (s.probes r).pc.Unfinished := by simp [hpc,ProbeAt.Unfinished]
  obtain ⟨hregistered,htaken,hpending,htimer,hexpired,hfresh,hunarmed,hown⟩ := hs.good r
  unfold Probing.readAck
  split
  · exact hs
  · refine hs.setProbe rfl (fun _ => hunfinished) ?_
    constructor <;> grind [Probe.Acked,Probe.Expired,ProbeAt.Unfinished]
  · refine hs.setProbe rfl (fun _ => hunfinished) ?_
    constructor <;> grind [Probe.Acked,Probe.Expired,ProbeAt.Unfinished]

theorem Sound.readFallback (hs : s.Sound) (hpc : (s.probes r).pc = .fallback)
    (allowTcpPing didConnect : Bool) : (s.readFallback allowTcpPing didConnect r).Sound := by
  have hunfinished : (s.probes r).pc.Unfinished := by simp [hpc,ProbeAt.Unfinished]
  obtain ⟨hregistered,htaken,hpending,htimer,hexpired,hfresh,hunarmed,hown⟩ := hs.good r
  unfold Probing.readFallback
  split
  · exact hs
  · split
    · refine hs.goto (fun _ => hunfinished) ?_
      constructor <;> grind [Probe.Acked,Probe.Expired,ProbeAt.Unfinished]
    · refine hs.goto (fun _ => hunfinished) ?_
      constructor <;> grind [Probe.Acked,Probe.Expired,ProbeAt.Unfinished]

theorem Sound.eraseHandler (hs : s.Sound) (hpc : (s.probes r).pc = .erase) :
    (s.eraseHandler r).Sound := by
  have hunfinished : (s.probes r).pc.Unfinished := by simp [hpc,ProbeAt.Unfinished]
  have hg := hs.good r
  have hdone : (s.probes r).timer = .done := hg.expired (by simp [Probe.Expired,hpc])
  have hat : ∀ h, s.ackHandlers (s.probes r).seqNo = some h → h = r := fun h hh =>
    have hkey := hs.key _ h hh
    hs.distinct h r ((hs.good h).registered (hkey.symm ▸ hh)).1 hunfinished hkey
  -- the timer has fired, so the end of the handler changes nothing else
  have herase : s.erase (s.probes r).seqNo =
      { s with ackHandlers := Function.update s.ackHandlers (s.probes r).seqNo none } := by
    unfold erase
    split
    · next hnone =>
      rw [← hnone,Function.update_eq_self]
    · next h hh =>
      obtain rfl := hat h hh
      exact unref_eq fun hp => absurd hp (by simp [hdone,TimerAt.Pending])
  unfold Probing.eraseHandler
  rw [herase]
  have htable : Sound
      { s with ackHandlers := Function.update s.ackHandlers (s.probes r).seqNo none } := by
    refine hs.setTable (fun r' _ hr => ?_) (by simp)
    obtain rfl := hat r' (hr.resolve_left (by simp))
    obtain ⟨hregistered,htaken,hpending,htimer,hexpired,hfresh,hunarmed,hown⟩ := hg
    constructor <;> grind [TimerAt.Pending]
  refine htable.goto (fun _ => hunfinished) ?_
  obtain ⟨hregistered,htaken,hpending,htimer,hexpired,hfresh,hunarmed,hown⟩ := htable.good r
  constructor <;> grind [Probe.Acked,Probe.Expired,ProbeAt.Unfinished]

theorem Sound.clearProbePipes (hs : s.Sound) {path : ExitPath}
    (hpc : (s.probes r).pc = .clear path) (hpending' : ¬s.listener.Pending r)
    (htcp : path = .tcpFallback → s.ackHandlers (s.probes r).seqNo ≠ some r) :
    (s.clearProbePipes r).Sound := by
  obtain ⟨hregistered,htaken,hpending,htimer,hexpired,hfresh,hunarmed,hown⟩ := hs.good r
  have hgone : s.ackHandlers (s.probes r).seqNo ≠ some r := by
    intro hreg
    obtain ⟨_,_,hfailure,hacked⟩ := hregistered hreg
    cases path <;> grind [Probe.Acked]
  have hstop : s.listener ≠ .stop r := fun h => hpending' (Or.inl h)
  unfold Probing.clearProbePipes
  refine hs.goto (fun h => absurd rfl h.2) ?_
  constructor <;> grind [Probe.Acked,Probe.Expired,ProbeAt.Unfinished]

theorem Sound.proberStep (hs : s.Sound) (allowTcpPing didConnect : Bool)
    (ho : s.Orderly (.prober r didConnect)) : (s.proberStep allowTcpPing didConnect r).Sound := by
  unfold Orderly at ho
  unfold Probing.proberStep
  split
  · exact hs
  · exact hs
  · next hpc => exact hs.insertHandler hpc
  · next hpc =>
    simp only [hpc] at ho
    exact hs.findHandler hpc ho
  · next h hpc =>
    obtain rfl := (hs.good r).own h hpc
    simp only [hpc] at ho
    exact hs.startTimer hpc ho
  · next hpc => exact hs.selectAck hpc
  · next hpc => exact hs.readAck hpc
  · next hpc => exact hs.readFallback hpc allowTcpPing didConnect
  · next hpc => exact hs.eraseHandler hpc
  · next path hpc =>
    simp only [hpc] at ho
    exact hs.clearProbePipes hpc ho.1 ho.2

theorem Good.frame {reg reg' : Prop} {l l' : ListenerAt} {p : Probe} (hg : Probe.Good reg l r p)
    (hreg : reg' ↔ reg) (hl : l.handler ≠ some r) (hl' : l'.handler ≠ some r) :
    Probe.Good reg' l' r p := by
  obtain ⟨hregistered,htaken,hpending,htimer,hexpired,hfresh,hunarmed,hown⟩ := hg
  constructor <;> grind [ListenerAt.handler,ListenerAt.Pending]

theorem Sound.listen (hs : s.Sound) {h : ℕ} {l : ListenerAt} {p : Probe}
    (hbefore : ∀ r, r ≠ h → s.listener.handler ≠ some r) (hafter : ∀ r, r ≠ h → l.handler ≠ some r)
    (hseq : p.seqNo = (s.probes h).seqNo) (hpc : p.pc = (s.probes h).pc)
    (hg : Probe.Good (s.ackHandlers (s.probes h).seqNo = some h) l h p) :
    Sound { s.setProbe h p with listener := l } where
  key k r hk := by
    by_cases hr : r = h
    · subst hr
      simpa [Probing.setProbe,hseq] using hs.key k r hk
    · simpa [Probing.setProbe,hr] using hs.key k r hk
  distinct r₁ r₂ h₁ h₂ heq := by
    have hat : ∀ r, ((s.setProbe h p).probes r).seqNo = (s.probes r).seqNo ∧
        ((s.setProbe h p).probes r).pc = (s.probes r).pc := by
      intro r
      by_cases hr : r = h
      · subst hr
        simp [Probing.setProbe,hseq,hpc]
      · simp [Probing.setProbe,hr]
    refine hs.distinct r₁ r₂ ((hat r₁).2 ▸ h₁) ((hat r₂).2 ▸ h₂) ?_
    rw [← (hat r₁).1,← (hat r₂).1]
    exact heq
  good r := by
    by_cases hr : r = h
    · subst hr
      simpa [Probing.setProbe,hseq] using hg
    · have hgood := Good.frame (hs.good r) Iff.rfl (hbefore r hr) (hafter r hr)
      simpa [Probing.setProbe,hr] using hgood
  late := hs.late
  dead := hs.dead

theorem Sound.attend (hs : s.Sound) (h : ℕ) {l : ListenerAt}
    (hbefore : ∀ r, r ≠ h → s.listener.handler ≠ some r) (hafter : ∀ r, r ≠ h → l.handler ≠ some r)
    (hg : Probe.Good (s.ackHandlers (s.probes h).seqNo = some h) l h (s.probes h)) :
    Sound { s with listener := l } := by
  have hself : s.setProbe h (s.probes h) = s := by simp [Probing.setProbe]
  have hlisten := hs.listen hbefore hafter rfl rfl hg
  rwa [hself] at hlisten

theorem Sound.handleAck (hs : s.Sound) (seqNo : ℕ) : (s.handleAck seqNo).Sound := by
  unfold Probing.handleAck
  split
  · next h hidle hh =>
    have hkey := hs.key seqNo h hh
    have hg := hs.good h
    rw [hkey] at hg
    refine Sound.mk (fun k r hk => ?_) hs.distinct (fun r => ?_) hs.late hs.dead
    · by_cases hks : k = seqNo
      · simp [hks] at hk
      · exact hs.key k r (by simpa [hks] using hk)
    · by_cases hr : r = h
      · subst hr
        obtain ⟨hregistered,htaken,hpending,htimer,hexpired,hfresh,hunarmed,hown⟩ := hg
        have hreg := hregistered hh
        simp only [hkey,Function.update_self]
        constructor <;> grind
      · have hreg : Function.update s.ackHandlers seqNo none (s.probes r).seqNo = some r ↔
            s.ackHandlers (s.probes r).seqNo = some r := by
          by_cases hks : (s.probes r).seqNo = seqNo
          · simp [hks,hh,Ne.symm hr]
          · simp [hks]
        refine Good.frame (hs.good r) hreg (by simp [hidle,ListenerAt.handler]) ?_
        simp [ListenerAt.handler,Ne.symm hr]
  · exact hs

theorem Sound.handleNack (hs : s.Sound) (seqNo : ℕ) : (s.handleNack seqNo).Sound := by
  unfold Probing.handleNack
  split
  · next h hidle hh =>
    have hkey := hs.key seqNo h hh
    obtain ⟨hregistered,htaken,hpending,htimer,hexpired,hfresh,hunarmed,hown⟩ := hs.good h
    refine hs.attend h (by simp [hidle,ListenerAt.handler]) (fun r hr => ?_) ?_
    · simp [ListenerAt.handler,Ne.symm hr]
    · rw [hkey] at *
      constructor <;> grind [ListenerAt.Pending]
  · exact hs

theorem Sound.listenerStep (hs : s.Sound) : s.listenerStep.Sound := by
  unfold Probing.listenerStep
  split
  · exact hs
  · next h hl =>
    obtain ⟨hregistered,htaken,hpending,htimer,hexpired,hfresh,hunarmed,hown⟩ := hs.good h
    refine hs.listen (fun r hr => ?_) (fun r hr => ?_) rfl rfl ?_
    · simp [hl,ListenerAt.handler,Ne.symm hr]
    · simp [ListenerAt.handler,Ne.symm hr]
    · constructor <;> grind [ListenerAt.Pending,TimerAt.not_pending_stop,TimerAt.stop,
        Probe.Expired,Probe.Acked]
  · next h hl =>
    obtain ⟨hregistered,htaken,hpending,htimer,hexpired,hfresh,hunarmed,hown⟩ := hs.good h
    have hopen : (s.probes h).pc ≠ .returned := (hpending (Or.inr (Or.inl hl))).1.2
    rw [writeAck,if_neg hopen]
    refine hs.listen (fun r hr => ?_) (fun r hr => ?_) rfl rfl ?_
    · simp [hl,ListenerAt.handler,Ne.symm hr]
    · simp [ListenerAt.handler,Ne.symm hr]
    · constructor <;> grind [ListenerAt.Pending,Probe.Expired,Probe.Acked]
  · next h hl =>
    obtain ⟨hregistered,htaken,hpending,htimer,hexpired,hfresh,hunarmed,hown⟩ := hs.good h
    have hopen : (s.probes h).pc ≠ .returned := (hpending (Or.inr (Or.inr hl))).1.2
    rw [writeNack,if_neg hopen]
    refine hs.attend h (fun r hr => ?_) (fun r hr => ?_) ?_
    · simp [hl,ListenerAt.handler,Ne.symm hr]
    · simp [ListenerAt.handler,Ne.symm hr]
    · constructor <;> grind [ListenerAt.Pending]
  · next h hl =>
    obtain ⟨hregistered,htaken,hpending,htimer,hexpired,hfresh,hunarmed,hown⟩ := hs.good h
    have hlisten : Sound { s with listener := .idle } := by
      refine hs.attend h (fun r hr => ?_) (fun r _ => ?_) ?_
      · simp [hl,ListenerAt.handler,Ne.symm hr]
      · simp [ListenerAt.handler]
      · constructor <;> grind [ListenerAt.Pending]
    -- a timer that could still fire has its handler in the table
    have hdrop : unref h { s with listener := .idle } = { s with listener := .idle } :=
      unref_eq fun hp => (htimer hp).resolve_right (by simp [hl])
    rw [hdrop]
    exact hlisten

theorem Sound.wake (hs : s.Sound) (r : ℕ) : (s.wake r).Sound := by
  unfold Probing.wake
  split
  · next ht =>
    obtain ⟨hregistered,htaken,hpending,htimer,hexpired,hfresh,hunarmed,hown⟩ := hs.good r
    have hlive := htimer (by simp [ht,TimerAt.Pending])
    refine hs.setProbe rfl id ?_
    constructor <;> grind [Probe.Expired,Probe.Acked]
  · exact hs

theorem Sound.fire (hs : s.Sound) (r : ℕ) : (s.fire r).Sound := by
  unfold Probing.fire
  split
  · next ht =>
    obtain ⟨hregistered,htaken,hpending,htimer,hexpired,hfresh,hunarmed,hown⟩ := hs.good r
    have hlive := htimer (by simp [ht,TimerAt.Pending])
    have hunfinished : (s.probes r).pc.Unfinished := by
      rcases hlive with h | h
      · exact (hregistered h).1
      · exact (hpending (Or.inl h)).1
    have hwrite : (s.setProbe r { s.probes r with timer := .done }).writeAck r false = s.setProbe r
        { s.probes r with timer := .done, ackPipe := (s.probes r).ackPipe ++ [false] } := by
      simp [writeAck,Probing.setProbe,hunfinished.2]
    rw [hwrite]
    refine hs.setProbe rfl id ?_
    constructor <;> grind [Probe.Expired,Probe.Acked,TimerAt.Pending]
  · exact hs

theorem Sound.probeNode (hs : s.Sound) {seqNo : ℕ} (hpc : (s.probes r).pc = .idle)
    (ho : ∀ r', (s.probes r').pc.Unfinished → (s.probes r').seqNo ≠ seqNo) :
    (s.setProbe r ⟨seqNo,.insert,[],.unarmed⟩).Sound := by
  obtain ⟨hregistered,htaken,hpending,htimer,hexpired,hfresh,hunarmed,hown⟩ := hs.good r
  have hidle : ∀ k, s.ackHandlers k ≠ some r := by
    intro k hk
    have hkey := hs.key k r hk
    exact (hregistered (hkey.symm ▸ hk)).1.1 hpc
  refine Sound.mk (fun k r' hk => ?_) (fun r₁ r₂ h₁ h₂ heq => ?_) (fun r' => ?_) hs.late hs.dead
  · by_cases hr : r' = r
    · exact absurd (hr ▸ hk) (hidle k)
    · simpa [Probing.setProbe,hr] using hs.key k r' hk
  · by_cases hr₁ : r₁ = r <;> by_cases hr₂ : r₂ = r
    · rw [hr₁,hr₂]
    · simp only [Probing.setProbe,hr₁,hr₂,Function.update_self,ne_eq,not_false_eq_true,
        Function.update_of_ne] at h₂ heq
      exact absurd heq.symm (ho r₂ h₂)
    · simp only [Probing.setProbe,hr₁,hr₂,Function.update_self,ne_eq,not_false_eq_true,
        Function.update_of_ne] at h₁ heq
      exact absurd heq (ho r₁ h₁)
    · simp only [Probing.setProbe,hr₁,hr₂,ne_eq,not_false_eq_true,Function.update_of_ne]
        at h₁ h₂ heq
      exact hs.distinct r₁ r₂ h₁ h₂ heq
  · by_cases hr : r' = r
    · subst hr
      have hreg := hidle seqNo
      simp only [Probing.setProbe,Function.update_self]
      constructor <;> grind [ProbeAt.Unfinished,Probe.Expired,Probe.Acked,TimerAt.Pending]
    · simpa [Probing.setProbe,hr] using hs.good r'

theorem Sound.step (hs : s.Sound) (allowTcpPing : Bool) (e : ProbeEvent) (ho : s.Orderly e) :
    (s.step allowTcpPing e).Sound := by
  unfold Probing.step
  rw [if_neg (by simp [hs.dead])]
  cases e with
  | probeNode r seqNo =>
    by_cases hpc : (s.probes r).pc = .idle
    · simpa [hpc] using hs.probeNode hpc ho
    · simpa [hpc] using hs
  | prober r didConnect => exact hs.proberStep allowTcpPing didConnect ho
  | handleAck seqNo => exact hs.handleAck seqNo
  | handleNack seqNo => exact hs.handleNack seqNo
  | listener => exact hs.listenerStep
  | wake r => exact hs.wake r
  | fire r => exact hs.fire r

open Transitions in
/-- A run whose steps are all orderly never writes to closed pipes, and leaves nothing of a call
behind that has returned. -/
theorem no_late_callback (allowTcpPing : Bool) {evs : List ProbeEvent}
    (h : Along (step allowTcpPing) Orderly initial evs) :
    (run (step allowTcpPing) initial evs).Quiet := by
  have hsound : (run (step allowTcpPing) initial evs).Sound :=
    h.invariant Sound.initial fun s e ho hs => hs.step allowTcpPing e ho
  exact hsound.quiet

def directRun : List ProbeEvent :=
  [.probeNode 0 7,.prober 0 false,.prober 0 false,.prober 0 false,.handleAck 7,.listener,.listener,
    .prober 0 false,.prober 0 false,.listener,.handleAck 7,.wake 0,.fire 0]

open Transitions in
theorem no_late_callback_direct :
    Along (step true) Orderly initial directRun ∧ (run (step true) initial directRun).Quiet := by
  have h : Along (step true) Orderly initial directRun := by
    refine ⟨fun r hr => absurd rfl hr.1,trivial,rfl,rfl,trivial,trivial,trivial,trivial,?_,trivial,
      trivial,trivial,trivial,trivial⟩
    exact ⟨by show ¬(ListenerAt.release 0).Pending 0; simp [ListenerAt.Pending],by decide⟩
  exact ⟨h,no_late_callback true h⟩

/-- The fallback connects after the probe interval and `probeNode` returns with its handler
in the table; then the ack arrives. -/
def fallbackRun : List ProbeEvent :=
  [.probeNode 0 7,.prober 0 false,.prober 0 false,.prober 0 false,.prober 0 false,.wake 0,.fire 0,
    .prober 0 false,.prober 0 true,.prober 0 false,.handleAck 7,.listener,.listener]

theorem fallback_writes_late : ¬∀ (allowTcpPing : Bool) (evs : List ProbeEvent),
    (Transitions.run (step allowTcpPing) initial evs).Quiet := by
  intro hall
  have hlate : (Transitions.run (step true) initial fallbackRun).late = [0] := by decide +kernel
  have hnone := (hall true fallbackRun).late
  rw [hlate] at hnone
  cases hnone

end Probing

end GossipMemberlist
