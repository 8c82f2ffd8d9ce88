import GossipMemberlist.Library.Transitions
import GossipMemberlist.Library.WrapCounter
import Mathlib.Logic.Function.Basic

/-!
# Relayed pings

A relay pings the target of an indirect ping and registers a handler that passes the
ack on. If the originator wants a nack, a thread waits on the read end of a pipe
whose write end the handler closes, and sends the nack when the wait expires first.
The listener takes a handler out of `ackHandlers` under `ackLock` and calls it after
that; the thread erases it without the lock. When both get as far as closing the
write end, the second `Close` finds no such descriptor and throws before its answer
is built, unless the number has been given out again in the meantime.
-/

namespace GossipMemberlist

/-- What the nack thread of a request does next; `idle` before the request has come,
`unwanted` if it has none. -/
inductive NackAt
  | idle | unwanted
  | select | cancel | cancelled
  | erase | closeRead | closeWrite | send | nacked
  deriving DecidableEq

/-- A request with its local sequence number, how often each end of its pipe has been closed,
and what has been sent to the originator. `expired` says that its timeout has passed,
`reopened` that the number of its closed write end is in use again. -/
structure Relay where
  seqNo : ℕ
  thread : NackAt
  expired : Bool
  readClosed : ℕ
  writeClosed : ℕ
  acks : ℕ
  nacks : ℕ
  reopened : Bool
  deriving DecidableEq

inductive HandlerOf
  | relay (r : ℕ)
  | probe
  deriving DecidableEq

inductive RelayStage
  | idle | stop (r : ℕ) | close (r : ℕ) | send (r : ℕ)
  deriving DecidableEq

/-- `gone` says that an exception has left a thread and the process with it. -/
structure Relaying where
  relays : ℕ → Relay
  ackHandlers : ℕ → Option HandlerOf
  sequenceNum : WrapCounter 32
  listener : RelayStage
  gone : Bool

/-- `reopen` is another thread that opens a descriptor and gets the number of a closed write
end. The last three are what calls of `probeNode` do to the table and the counter. -/
inductive RelayEvent
  | handleIndirectPing (r : ℕ) (nack : Bool)
  | handleAck (seqNo : ℕ)
  | listener
  | nackThread (r : ℕ)
  | expire (r : ℕ)
  | reopen (r : ℕ)
  | nextSeqNum
  | setProbePipes (seqNo : ℕ)
  | eraseProbe (seqNo : ℕ)

def RelayStage.handler : RelayStage → Option ℕ
  | .idle => none
  | .stop r | .close r | .send r => some r

/-- `Close(cancelFd[1])` finds a descriptor of that number: the write end, or one that has got
the number since and is closed in its place. -/
def Relay.inUse (p : Relay) : Bool := p.writeClosed = 0 ∨ p.reopened = true

namespace Relaying

def initial : Relaying :=
  ⟨fun _ => ⟨0,.idle,false,0,0,0,0,false⟩,fun _ => none,.zero,.idle,false⟩

def setRelay (r : ℕ) (p : Relay) (s : Relaying) : Relaying :=
  { s with relays := Function.update s.relays r p }

def setHandler (seqNo : ℕ) (h : Option HandlerOf) (s : Relaying) : Relaying :=
  { s with ackHandlers := Function.update s.ackHandlers seqNo h }

/-- The timer that `setAckHandler` makes has no task and is never started. -/
def handleIndirectPing (r : ℕ) (nack : Bool) (s : Relaying) : Relaying :=
  if s.listener = .idle ∧ (s.relays r).thread = .idle then
    let sequenceNum := s.sequenceNum.fetchAdd 1
    let localSeqNo := sequenceNum.load
    ({ s with sequenceNum }.setRelay r
      ⟨localSeqNo,if nack then .select else .unwanted,false,0,0,0,0,false⟩).setHandler localSeqNo
        (some (.relay r))
  else s

def handleAck (seqNo : ℕ) (s : Relaying) : Relaying :=
  match s.listener, s.ackHandlers seqNo with
  | .idle, some (.relay r) => { s.setHandler seqNo none with listener := .stop r }
  | .idle, some .probe => s.setHandler seqNo none
  | _, _ => s

/-- `respHandler` closes the write end and sends the ack. -/
def listenerStep (s : Relaying) : Relaying :=
  match s.listener with
  | .idle => s
  | .stop r => { s with listener := .close r }
  | .close r =>
    let p := s.relays r
    if p.inUse then
      { s.setRelay r { p with writeClosed := p.writeClosed + 1, reopened := false } with
        listener := .send r }
    else { s with gone := true }
  | .send r =>
    { s.setRelay r { s.relays r with acks := (s.relays r).acks + 1 } with listener := .idle }

/-- `Select` returns at once when the write end is closed. -/
def nackStep (r : ℕ) (s : Relaying) : Relaying :=
  let p := s.relays r
  match p.thread with
  | .idle | .unwanted | .cancelled | .nacked => s
  | .select => if p.writeClosed = 0 then s else s.setRelay r { p with thread := .cancel }
  | .cancel => s.setRelay r { p with thread := .cancelled, readClosed := p.readClosed + 1 }
  | .erase => (s.setHandler p.seqNo none).setRelay r { p with thread := .closeRead }
  | .closeRead => s.setRelay r { p with thread := .closeWrite, readClosed := p.readClosed + 1 }
  | .closeWrite =>
    if p.inUse then
      s.setRelay r { p with thread := .send, writeClosed := p.writeClosed + 1, reopened := false }
    else { s with gone := true }
  | .send => s.setRelay r { p with thread := .nacked, nacks := p.nacks + 1 }

/-- The timeout of a request passes: the wait of its thread, if it is still waiting. The seconds
of the timeout are never written, so a wait can have any length; `Select` throws where they are
negative, and the process is gone. -/
def expire (r : ℕ) (s : Relaying) : Relaying :=
  let p := s.relays r
  if p.thread = .idle then s
  else s.setRelay r { p with
    expired := true
    thread := if p.thread = .select then if p.writeClosed = 0 then .erase else .cancel
      else p.thread }

def reopen (r : ℕ) (s : Relaying) : Relaying :=
  let p := s.relays r
  if p.writeClosed = 0 then s else s.setRelay r { p with reopened := true }

def step (s : Relaying) (e : RelayEvent) : Relaying :=
  if s.gone then s
  else match e with
    | .handleIndirectPing r nack => s.handleIndirectPing r nack
    | .handleAck seqNo => s.handleAck seqNo
    | .listener => s.listenerStep
    | .nackThread r => s.nackStep r
    | .expire r => s.expire r
    | .reopen r => s.reopen r
    | .nextSeqNum => { s with sequenceNum := s.sequenceNum.fetchAdd 1 }
    | .setProbePipes seqNo => s.setHandler seqNo (some .probe)
    | .eraseProbe seqNo => s.setHandler seqNo none

def Registered (r : ℕ) (s : Relaying) : Prop := ∃ k, s.ackHandlers k = some (.relay r)

/-- One answer at most, each end closed once at most, and no handler once the ack has been
passed on or the timeout has passed and its thread, if any, has seen to that. -/
structure Answers (r : ℕ) (s : Relaying) : Prop where
  answers : (s.relays r).acks + (s.relays r).nacks ≤ 1
  readClosed : (s.relays r).readClosed ≤ 1
  writeClosed : (s.relays r).writeClosed ≤ 1
  handler : 0 < (s.relays r).acks ∨ (s.relays r).expired = true ∧ (s.relays r).thread ≠ .erase →
    ¬s.Registered r

/-- The condition on a step, in the state before it. When a timeout passes, a handler that is
still in the table has a thread that waits or is about to erase it; and no write end is
closed whose number is in use again. -/
def Timely (s : Relaying) (e : RelayEvent) : Prop :=
  s.gone = false → match e with
    | .expire r => s.Registered r → (s.relays r).thread = .select ∨ (s.relays r).thread = .erase
    | .listener => ∀ r, s.listener = .close r → (s.relays r).reopened = false
    | .nackThread r => (s.relays r).thread = .closeWrite → (s.relays r).reopened = false
    | _ => True

end Relaying

/-- The wait has expired, so the thread does not look at the pipe again. -/
def NackAt.givesUp : NackAt → Bool
  | .erase | .closeRead | .closeWrite | .send | .nacked => true
  | _ => false

def NackAt.readClosed : NackAt → Bool
  | .closeWrite | .send | .nacked | .cancelled => true
  | _ => false

def NackAt.writeClosed : NackAt → Bool
  | .send | .nacked => true
  | _ => false

/-- What holds of a request, where `reg` says that its handler is in the table and `l` is
where the listener is. -/
structure Relay.Good (reg : Prop) (l : RelayStage) (r : ℕ) (p : Relay) : Prop where
  nacks : p.nacks = (decide (p.thread = .nacked)).toNat
  readClosed : p.readClosed = p.thread.readClosed.toNat
  writeClosed : p.writeClosed = p.thread.writeClosed.toNat + p.acks + (decide (l = .send r)).toNat
  closedOnce : p.writeClosed ≤ 1
  reopened : p.reopened = true → p.writeClosed ≠ 0
  taken : l.handler = some r ∨ 0 < p.acks → ¬reg ∧ p.thread ≠ .idle
  once : l.handler = some r → p.acks = 0
  registered : reg → p.thread ≠ .idle ∧ (p.thread.givesUp = true → p.thread = .erase)
  expired : p.expired = true → reg → p.thread = .erase

variable {r : ℕ}

theorem Relay.Good.frame {reg reg' : Prop} {l l' : RelayStage} {p : Relay}
    (hg : Relay.Good reg l r p) (hreg : reg' → reg) (hl : l'.handler = some r → l.handler = some r)
    (hsend : l' = .send r ↔ l = .send r) : Relay.Good reg' l' r p where
  nacks := hg.nacks
  readClosed := hg.readClosed
  writeClosed := by simpa [hsend] using hg.writeClosed
  closedOnce := hg.closedOnce
  reopened := hg.reopened
  taken h := ⟨fun h' => (hg.taken (h.imp_left hl)).1 (hreg h'),(hg.taken (h.imp_left hl)).2⟩
  once h := hg.once (hl h)
  registered h := hg.registered (hreg h)
  expired he h := hg.expired he (hreg h)

theorem Relay.Good.mono {reg reg' : Prop} {l : RelayStage} {p : Relay} (hg : Relay.Good reg l r p)
    (hreg : reg' → reg) : Relay.Good reg' l r p := hg.frame hreg id Iff.rfl

theorem Relay.Good.taken_of_closed {reg : Prop} {l : RelayStage} {p : Relay}
    (hg : Relay.Good reg l r p) (hclosed : p.writeClosed ≠ 0)
    (hthread : p.thread.writeClosed = false) : ¬reg := by
  have hwrite := hg.writeClosed
  rw [hthread] at hwrite
  refine (hg.taken ?_).1
  by_cases hl : l = .send r
  · exact Or.inl (by rw [hl]; rfl)
  · simp only [hl,decide_false,Bool.toNat_false] at hwrite
    exact Or.inr (by omega)

theorem Relay.Good.open_of_inUse {reg : Prop} {l : RelayStage} {p : Relay}
    (hg : Relay.Good reg l r p) (huse : p.inUse = true) (hreopened : p.reopened = false) :
    p.writeClosed = 0 ∧ p.thread.writeClosed = false ∧ p.acks = 0 ∧ l ≠ .send r := by
  have hwrite := hg.writeClosed
  have hopen : p.writeClosed = 0 := by simpa [inUse,hreopened] using huse
  rw [hopen] at hwrite
  refine ⟨hopen,?_,by omega,fun hl => by simp [hl] at hwrite⟩
  cases h : p.thread.writeClosed with
  | false => rfl
  | true =>
    rw [h] at hwrite
    simp at hwrite
    omega

theorem Relay.Good.gone {reg : Prop} {l : RelayStage} {p : Relay} (hg : Relay.Good reg l r p)
    (hup : p.thread.givesUp = true) (hne : p.thread ≠ .erase) : ¬reg := fun h =>
  hne ((hg.registered h).2 hup)

namespace Relaying

structure Sound (s : Relaying) : Prop where
  key : ∀ k r, s.ackHandlers k = some (.relay r) → (s.relays r).seqNo = k
  good : ∀ r, Relay.Good (s.Registered r) s.listener r (s.relays r)

theorem Sound.initial : initial.Sound where
  key := by simp [Relaying.initial]
  good r := by
    constructor <;> simp [Relaying.initial,Registered,RelayStage.handler,NackAt.readClosed,
      NackAt.writeClosed,NackAt.givesUp]

theorem Sound.answers {s : Relaying} (hs : s.Sound) (r : ℕ) : s.Answers r := by
  have hg := hs.good r
  have hwrite := hg.writeClosed
  have honce := hg.closedOnce
  refine ⟨?_,?_,honce,?_⟩
  · -- each answer comes after a close of the write end
    rw [hg.nacks]
    by_cases h : (s.relays r).thread = .nacked
    · simp only [h,NackAt.writeClosed,Bool.toNat_true] at hwrite
      simp only [h,decide_true,Bool.toNat_true]
      omega
    · simp only [h,decide_false,Bool.toNat_false]
      omega
  · rw [hg.readClosed]
    exact Bool.toNat_le _
  · rintro (h | ⟨h,hne⟩) hreg
    · exact (hg.taken (Or.inr h)).1 hreg
    · exact hne (hg.expired h hreg)

variable {s : Relaying}

theorem Sound.setHandler (hs : s.Sound) (k : ℕ) {h : Option HandlerOf}
    (hh : ∀ r, h ≠ some (.relay r)) : (s.setHandler k h).Sound := by
  have hold (k' r : ℕ) (hk : (s.setHandler k h).ackHandlers k' = some (.relay r)) :
      s.ackHandlers k' = some (.relay r) := by
    by_cases he : k' = k
    · subst he
      exact absurd (by simpa [Relaying.setHandler] using hk) (hh r)
    · simpa [Relaying.setHandler,he] using hk
  refine ⟨fun k' r hk => hs.key k' r (hold k' r hk),fun r => ?_⟩
  exact (hs.good r).mono fun ⟨k',hk⟩ => ⟨k',hold k' r hk⟩

theorem Sound.not_registered (hs : s.Sound) (r : ℕ) :
    ¬(s.setHandler (s.relays r).seqNo none).Registered r := by
  rintro ⟨k,hk⟩
  by_cases he : k = (s.relays r).seqNo
  · simp [Relaying.setHandler,he] at hk
  · have hk : s.ackHandlers k = some (.relay r) := by simpa [Relaying.setHandler,he] using hk
    exact he (hs.key k r hk).symm

theorem Sound.setRelay (hs : s.Sound) {p : Relay} (hseq : p.seqNo = (s.relays r).seqNo)
    (hg : Relay.Good (s.Registered r) s.listener r p) : (s.setRelay r p).Sound := by
  refine ⟨fun k r' hk => ?_,fun r' => ?_⟩
  · by_cases hr : r' = r
    · subst hr
      simpa [Relaying.setRelay,hseq] using hs.key k r' hk
    · simpa [Relaying.setRelay,hr] using hs.key k r' hk
  · by_cases hr : r' = r
    · subst hr
      have hrelay : (s.setRelay r' p).relays r' = p := Function.update_self ..
      rwa [hrelay]
    · have hrelay : (s.setRelay r p).relays r' = s.relays r' := Function.update_of_ne hr ..
      rw [hrelay]
      exact hs.good r'

theorem Sound.expire (hs : s.Sound)
    (ht : s.Registered r → (s.relays r).thread = .select ∨ (s.relays r).thread = .erase) :
    (s.expire r).Sound := by
  have hg := hs.good r
  simp only [Relaying.expire]
  split
  · exact hs
  by_cases hselect : (s.relays r).thread = .select
  · have hnacks := hg.nacks
    have hread := hg.readClosed
    have hwrite := hg.writeClosed
    simp only [hselect,if_true] at hnacks hread hwrite ⊢
    split
    · -- the wait has expired
      exact hs.setRelay rfl ⟨hnacks,hread,hwrite,hg.closedOnce,hg.reopened,
        fun h => ⟨(hg.taken h).1,by simp⟩,hg.once,fun _ => ⟨by simp,fun _ => rfl⟩,
        fun _ _ => rfl⟩
    · rename_i hclosed
      have hgone := hg.taken_of_closed hclosed (by rw [hselect]; rfl)
      exact hs.setRelay rfl ⟨hnacks,hread,hwrite,hg.closedOnce,hg.reopened,
        fun h => ⟨(hg.taken h).1,by simp⟩,hg.once,fun hreg => absurd hreg hgone,
        fun _ hreg => absurd hreg hgone⟩
  · rw [if_neg hselect]
    exact hs.setRelay rfl ⟨hg.nacks,hg.readClosed,hg.writeClosed,hg.closedOnce,hg.reopened,
      hg.taken,hg.once,hg.registered,fun _ hreg => (ht hreg).resolve_left hselect⟩

theorem Sound.nackStep (hs : s.Sound)
    (ht : (s.relays r).thread = .closeWrite → (s.relays r).reopened = false) :
    (s.nackStep r).Sound := by
  have hg := hs.good r
  have hnacks := hg.nacks
  have hread := hg.readClosed
  have hwrite := hg.writeClosed
  simp only [Relaying.nackStep]
  split
  · exact hs
  · exact hs
  · exact hs
  · exact hs
  · rename_i hthread
    simp only [hthread] at hnacks hread hwrite
    split
    · exact hs
    · rename_i hclosed
      have hgone := hg.taken_of_closed hclosed (by rw [hthread]; rfl)
      exact hs.setRelay rfl ⟨hnacks,hread,hwrite,hg.closedOnce,hg.reopened,
        fun h => ⟨hgone,by simp⟩,hg.once,fun hreg => absurd hreg hgone,
        fun _ hreg => absurd hreg hgone⟩
  · rename_i hthread
    have hexpired := hg.expired
    simp only [hthread] at hnacks hread hwrite hexpired
    refine hs.setRelay rfl ⟨hnacks,by simp [hread,NackAt.readClosed],hwrite,hg.closedOnce,
      hg.reopened,fun h => ⟨(hg.taken h).1,by simp⟩,hg.once,
      fun _ => ⟨by simp,fun h => by cases h⟩,fun he hreg => ?_⟩
    cases hexpired he hreg
  · -- the handler goes, if the listener has not taken it
    rename_i hthread
    simp only [hthread] at hnacks hread hwrite
    have hgone := hs.not_registered r
    exact (hs.setHandler _ fun _ h => by cases h).setRelay rfl ⟨hnacks,hread,hwrite,
      hg.closedOnce,hg.reopened,fun _ => ⟨hgone,by simp⟩,hg.once,
      fun hreg => absurd hreg hgone,fun _ hreg => absurd hreg hgone⟩
  · rename_i hthread
    have hgone := hg.gone (by rw [hthread]; rfl) (by rw [hthread]; decide)
    simp only [hthread] at hnacks hread hwrite
    exact hs.setRelay rfl ⟨hnacks,by simp [hread,NackAt.readClosed],hwrite,hg.closedOnce,
      hg.reopened,fun _ => ⟨hgone,by simp⟩,hg.once,fun hreg => absurd hreg hgone,
      fun _ hreg => absurd hreg hgone⟩
  · rename_i hthread
    have hgone := hg.gone (by rw [hthread]; rfl) (by rw [hthread]; decide)
    split
    · rename_i huse
      obtain ⟨hopen,-,hacks,hsend⟩ := hg.open_of_inUse huse (ht hthread)
      simp only [hthread] at hnacks hread
      exact hs.setRelay rfl ⟨hnacks,hread,by simp [NackAt.writeClosed,hopen,hacks,hsend],
        by simp [hopen],fun h => (by cases h),fun _ => ⟨hgone,by simp⟩,hg.once,
        fun hreg => absurd hreg hgone,fun _ hreg => absurd hreg hgone⟩
    · exact ⟨hs.key,hs.good⟩
  · rename_i hthread
    have hgone := hg.gone (by rw [hthread]; rfl) (by rw [hthread]; decide)
    simp only [hthread] at hnacks hread hwrite
    exact hs.setRelay rfl ⟨by simp [hnacks],hread,hwrite,hg.closedOnce,hg.reopened,
      fun _ => ⟨hgone,by simp⟩,hg.once,fun hreg => absurd hreg hgone,
      fun _ hreg => absurd hreg hgone⟩

theorem Sound.reopen (hs : s.Sound) (r : ℕ) : (s.reopen r).Sound := by
  have hg := hs.good r
  simp only [Relaying.reopen]
  split
  · exact hs
  · rename_i hclosed
    exact hs.setRelay rfl ⟨hg.nacks,hg.readClosed,hg.writeClosed,hg.closedOnce,fun _ => hclosed,
      hg.taken,hg.once,hg.registered,hg.expired⟩

theorem Sound.handleIndirectPing (hs : s.Sound) (r : ℕ) (nack : Bool) :
    (s.handleIndirectPing r nack).Sound := by
  simp only [Relaying.handleIndirectPing]
  split
  · rename_i hidle
    obtain ⟨hlistener,hthread⟩ := hidle
    have hnew : ¬s.Registered r := fun h => ((hs.good r).registered h).1 hthread
    generalize (s.sequenceNum.fetchAdd 1).load = k
    generalize s.sequenceNum.fetchAdd 1 = sequenceNum
    generalize hp : (⟨k,if nack then .select else .unwanted,false,0,0,0,0,false⟩ : Relay) = p
    have hold (k' r' : ℕ) (hk : ((({ s with sequenceNum }.setRelay r p).setHandler k
        (some (.relay r)))).ackHandlers k' = some (.relay r')) :
        k' = k ∧ r' = r ∨ s.ackHandlers k' = some (.relay r') := by
      by_cases he : k' = k
      · subst he
        have hk : r = r' := by simpa [Relaying.setHandler] using hk
        exact Or.inl ⟨rfl,hk.symm⟩
      · exact Or.inr (by simpa [Relaying.setHandler,Relaying.setRelay,he] using hk)
    refine ⟨fun k' r' hk => ?_,fun r' => ?_⟩
    · rcases hold k' r' hk with ⟨rfl,rfl⟩ | hk
      · simp [Relaying.setHandler,Relaying.setRelay,← hp]
      · have hr : r' ≠ r := fun h => hnew ⟨k',h ▸ hk⟩
        simpa [Relaying.setHandler,Relaying.setRelay,hr] using hs.key k' r' hk
    · by_cases hr : r' = r
      · subst hr
        simp only [Relaying.setHandler,Relaying.setRelay,Function.update_self,hlistener,← hp]
        constructor <;>
          cases nack <;> simp [NackAt.readClosed,NackAt.writeClosed,NackAt.givesUp,
            RelayStage.handler]
      · simp only [Relaying.setHandler,Relaying.setRelay,Function.update_of_ne hr]
        refine (hs.good r').mono ?_
        rintro ⟨k',hk⟩
        exact ⟨k',(hold k' r' hk).resolve_left fun h => hr h.2⟩
  · exact hs

theorem Sound.listen (hs : s.Sound) {h : ℕ} {l : RelayStage} {p : Relay}
    (hbefore : ∀ r, r ≠ h → s.listener.handler ≠ some r) (hafter : ∀ r, r ≠ h → l.handler ≠ some r)
    (hseq : p.seqNo = (s.relays h).seqNo) (hg : Relay.Good (s.Registered h) l h p) :
    Sound { s.setRelay h p with listener := l } := by
  refine ⟨fun k r hk => ?_,fun r => ?_⟩
  · by_cases hr : r = h
    · subst hr
      simpa [Relaying.setRelay,hseq] using hs.key k r hk
    · simpa [Relaying.setRelay,hr] using hs.key k r hk
  · by_cases hr : r = h
    · subst hr
      simp only [Relaying.setRelay,Function.update_self]
      exact hg
    · simp only [Relaying.setRelay,Function.update_of_ne hr]
      refine (hs.good r).frame id (fun h' => absurd h' (hafter r hr)) (iff_of_false ?_ ?_)
      · rintro rfl
        exact hafter r hr rfl
      · intro h'
        exact hbefore r hr (by rw [h']; rfl)

theorem Sound.attend (hs : s.Sound) (h : ℕ) {l : RelayStage}
    (hbefore : ∀ r, r ≠ h → s.listener.handler ≠ some r) (hafter : ∀ r, r ≠ h → l.handler ≠ some r)
    (hg : Relay.Good (s.Registered h) l h (s.relays h)) : Sound { s with listener := l } := by
  have hself : s.setRelay h (s.relays h) = s := by simp [Relaying.setRelay]
  have hlisten := hs.listen hbefore hafter rfl hg
  rwa [hself] at hlisten

theorem Sound.handleAck (hs : s.Sound) (seqNo : ℕ) : (s.handleAck seqNo).Sound := by
  simp only [Relaying.handleAck]
  split
  · rename_i r hidle hr
    have hg := hs.good r
    have hreg : s.Registered r := ⟨seqNo,hr⟩
    have hgone : ¬(s.setHandler seqNo none).Registered r := by
      rw [← hs.key seqNo r hr]
      exact hs.not_registered r
    have hacks : (s.relays r).acks = 0 := by
      by_contra h
      exact (hg.taken (Or.inr (by omega))).1 hreg
    have hwrite := hg.writeClosed
    simp only [hidle] at hwrite
    refine (hs.setHandler seqNo fun _ h => by cases h).attend r (fun r' _ => ?_) (fun r' hr' => ?_)
      ⟨hg.nacks,hg.readClosed,hwrite,hg.closedOnce,hg.reopened,
        fun _ => ⟨hgone,(hg.registered hreg).1⟩,fun _ => hacks,fun h => absurd h hgone,
        fun _ h => absurd h hgone⟩
    · simp [Relaying.setHandler,hidle,RelayStage.handler]
    · simp [RelayStage.handler,Ne.symm hr']
  · exact hs.setHandler _ fun _ h => by cases h
  · exact hs

theorem Sound.listenerStep (hs : s.Sound)
    (ht : ∀ r, s.listener = .close r → (s.relays r).reopened = false) : s.listenerStep.Sound := by
  have hat {h : ℕ} {l : RelayStage} (hl : l.handler = some h) (r : ℕ) (hr : r ≠ h) :
      l.handler ≠ some r := by
    rw [hl]
    exact fun he => hr (Option.some.inj he).symm
  simp only [Relaying.listenerStep]
  split
  · exact hs
  · rename_i h hl
    have hg := hs.good h
    have hwrite := hg.writeClosed
    have htaken := hg.taken
    have honce := hg.once
    rw [hl] at hwrite htaken honce
    exact hs.attend h (hat (by rw [hl]; rfl)) (hat rfl)
      ⟨hg.nacks,hg.readClosed,hwrite,hg.closedOnce,hg.reopened,htaken,honce,hg.registered,
        hg.expired⟩
  · rename_i h hl
    have hg := hs.good h
    have htaken := hg.taken
    have honce := hg.once
    rw [hl] at htaken honce
    split
    · rename_i huse
      obtain ⟨hopen,hthread,hacks,-⟩ := hg.open_of_inUse huse (ht h hl)
      refine hs.listen (hat (by rw [hl]; rfl)) (hat rfl) rfl
        ⟨hg.nacks,hg.readClosed,?_,by simp [hopen],fun h => (by cases h),htaken,honce,
          hg.registered,hg.expired⟩
      simp [hopen,hthread,hacks]
    · exact ⟨hs.key,hs.good⟩
  · rename_i h hl
    have hg := hs.good h
    have hwrite := hg.writeClosed
    have htaken := hg.taken
    rw [hl] at hwrite htaken
    refine hs.listen (hat (by rw [hl]; rfl)) (fun _ _ h => by cases h) rfl
      ⟨hg.nacks,hg.readClosed,?_,hg.closedOnce,hg.reopened,fun _ => htaken (Or.inl rfl),
        fun h => (by cases h),hg.registered,hg.expired⟩
    simp [hwrite,Nat.add_assoc]

theorem Sound.step (hs : s.Sound) (e : RelayEvent) (ht : s.Timely e) : (s.step e).Sound := by
  unfold Relaying.step
  split
  · exact hs
  · rename_i hgone
    have ht := ht (by simpa using hgone)
    cases e with
    | handleIndirectPing r nack => exact hs.handleIndirectPing r nack
    | handleAck seqNo => exact hs.handleAck seqNo
    | listener => exact hs.listenerStep ht
    | nackThread r => exact hs.nackStep ht
    | expire r => exact hs.expire ht
    | reopen r => exact hs.reopen r
    | nextSeqNum => exact ⟨hs.key,hs.good⟩
    | setProbePipes seqNo => exact hs.setHandler _ fun _ h => by cases h
    | eraseProbe seqNo => exact hs.setHandler _ fun _ h => by cases h

/-- A step that does not meet the condition leaves a handler behind, or closes twice. -/
theorem Sound.untimely (hs : s.Sound) {e : RelayEvent} (ht : ¬s.Timely e) :
    ¬∀ r, (s.step e).Answers r := by
  have hin : s.gone = false := by
    by_contra h
    exact ht fun h' => absurd h' h
  have ht : ¬_ := fun h => ht fun _ => h
  have htwice {r : ℕ} (hreopened : ¬(s.relays r).reopened = false) :
      (s.relays r).inUse = true ∧ 2 ≤ (s.relays r).writeClosed + 1 := by
    have hreopened : (s.relays r).reopened = true := by simpa using hreopened
    have hclosed := (hs.good r).reopened hreopened
    exact ⟨by simp [Relay.inUse,hreopened],by omega⟩
  intro hall
  simp only [Relaying.step,hin,Bool.false_eq_true,if_false] at hall
  cases e with
  | expire r =>
    obtain ⟨hreg,hthread⟩ := Classical.not_imp.mp ht
    obtain ⟨hselect,herase⟩ := not_or.mp hthread
    have hidle := ((hs.good r).registered hreg).1
    refine (hall r).handler (Or.inr ?_) ?_
    · simp [Relaying.expire,hidle,hselect,Relaying.setRelay,herase]
    · simpa [Relaying.expire,hidle,hselect,Relaying.setRelay,Registered] using hreg
  | listener =>
    obtain ⟨r,hr⟩ := not_forall.mp ht
    obtain ⟨hl,hreopened⟩ := Classical.not_imp.mp hr
    obtain ⟨huse,htwo⟩ := htwice hreopened
    have hclosed := (hall r).writeClosed
    simp [Relaying.listenerStep,hl,huse,Relaying.setRelay] at hclosed
    omega
  | nackThread r =>
    obtain ⟨hthread,hreopened⟩ := Classical.not_imp.mp ht
    obtain ⟨huse,htwo⟩ := htwice hreopened
    have hclosed := (hall r).writeClosed
    simp [Relaying.nackStep,hthread,huse,Relaying.setRelay] at hclosed
    omega
  | _ => exact ht trivial

open Transitions in
/-- A relay answers every request as it should, in every state it gets to, exactly when its
steps are all timely. -/
theorem relay_answers_iff (evs : List RelayEvent) :
    (∀ evs', evs' <+: evs → ∀ r, (run step initial evs').Answers r) ↔
      Along step Timely initial evs :=
  always_iff_along (Q := fun s => ∀ r, s.Answers r) Sound.initial (fun _ e ht hs => hs.step e ht)
    (fun _ hs => hs.answers) fun _ _ hs ht => hs.untimely ht

/-- The wait expires after the listener has taken the handler: the nack goes out, and the
listener finds the write end closed. -/
def racedRun : List RelayEvent :=
  [.handleIndirectPing 0 true,.handleAck 1,.expire 0,.nackThread 0,.nackThread 0,.nackThread 0,
    .nackThread 0,.listener,.listener,.listener]

example : (Transitions.run step initial racedRun).relays 0 = ⟨1,.nacked,true,1,1,0,1,false⟩ ∧
    (Transitions.run step initial racedRun).gone = true := by decide +kernel

def forgottenRun : List RelayEvent := [.handleIndirectPing 0 false,.expire 0]

open Transitions in
theorem relay_forgets :
    (run step initial forgottenRun).ackHandlers 1 = some (.relay 0) ∧
      ((run step initial forgottenRun).relays 0).expired = true ∧
      ¬(run step initial forgottenRun).Answers 0 := by
  have hkept : (run step initial forgottenRun).ackHandlers 1 = some (.relay 0) := by
    decide +kernel
  refine ⟨hkept,by decide +kernel,fun h => ?_⟩
  exact h.handler (Or.inr (by decide +kernel)) ⟨1,hkept⟩

end Relaying

end GossipMemberlist
