import GossipMemberlist.Handoff
import GossipMemberlist.MessageData

/-!
# The end of the datagram threads

`ShutDown` closes the write end of `shutdownFd`, which both `packetListen` and
`packetHandler` look at first when their `Select` returns. A listener that is past its
`Select` still receives its datagram and puts what it brings on the stacks, and
`packetHandler` still empties them. What keeps the two from returning is a handoff pipe
that is full, since nobody reads it any more, and `nodeMutex`, which every handler of
`packetHandler` needs and `ShutDown` has until it has joined the periodic timers.
-/

namespace GossipMemberlist

/-- Where `packetListen` is; `ready` is between its `Select` and `decodeReceiveUDP`. -/
inductive PacketListenAt
  | select | ready (md : MessageData) (remote_addr : SockaddrIn) | handling | returned
  deriving DecidableEq

/-- Who has `nodeMutex`: `ShutDown` or another call, that of a handler that `packetHandler` is in
among them. -/
inductive NodeLock
  | shutDown | other
  deriving DecidableEq

structure DatagramThreads where
  listener : PacketListenAt
  handoff : Handoff
  received : ℕ
  nodeMutex : Option NodeLock
  deriving DecidableEq

def BroadcastType.handled : BroadcastType → Bool
  | .unrecognized _ => false
  | _ => true

namespace DatagramThreads

inductive Event
  | arrives (md : MessageData) (remote_addr : SockaddrIn)
  | packetListen | packetHandler
  | lock (l : NodeLock) | unlock | shutDown

def Event.own : Event → Bool
  | .arrives _ _ | .packetListen | .packetHandler => true
  | _ => false

def start : DatagramThreads := ⟨.select,.initial,0,none⟩

variable (capacity depth : ℕ)

/-- `decodeReceiveUDP` and `handleCommand`; only a compound broadcast has to do with the
handoff. -/
def receive (md : MessageData) (remote_addr : SockaddrIn) (s : DatagramThreads) :
    DatagramThreads :=
  if md.head = .compoundBroad then
    match s.handoff.lock md.comBroadcast.bs remote_addr with
    | some handoff => { s with listener := .handling, handoff, received := s.received + 1 }
    | none => s
  else { s with listener := .select, received := s.received + 1 }

/-- The next step of `packetListen` when no datagram is there. -/
def packetListen (s : DatagramThreads) : DatagramThreads :=
  match s.listener with
  | .select => if s.handoff.shutdown then { s with listener := .returned } else s
  | .ready md remote_addr => s.receive md remote_addr
  | .handling =>
    match s.handoff.produce capacity depth with
    | some handoff =>
      { s with listener := if handoff.holder.isSome then .handling else .select, handoff }
    | none => s
  | .returned => s

def waits (s : DatagramThreads) : Bool :=
  match s.handoff.handler with
  | .dispatch msg => msg.b.type.handled && s.nodeMutex.isSome
  | _ => false

def step (s : DatagramThreads) : Event → DatagramThreads
  | .arrives md remote_addr =>
    if s.listener = .select then
      { s with listener := if s.handoff.shutdown then .returned else .ready md remote_addr }
    else s
  | .packetListen => s.packetListen capacity depth
  | .packetHandler =>
    if s.waits then s else { s with handoff := s.handoff.handle.getD s.handoff }
  | .lock l => if s.nodeMutex = none then { s with nodeMutex := some l } else s
  | .unlock => { s with nodeMutex := none }
  | .shutDown =>
    if s.nodeMutex = some .shutDown then { s with handoff := { s.handoff with shutdown := true } }
    else s

def toPush (s : DatagramThreads) : ℕ :=
  match s.listener, s.handoff.holder with
  | .ready md _, _ => md.comBroadcast.bs.length
  | .handling, some p => p.rest.length
  | _, _ => 0

def listenerSteps (s : DatagramThreads) : ℕ :=
  match s.listener, s.handoff.holder with
  | .select, _ => 1
  | .ready md _, _ => 3 + 2 * md.comBroadcast.bs.length
  | .handling, some p => 2 + 2 * p.rest.length + p.owes.toNat
  | _, _ => 0

def handlerSteps : HandlerAt → ℕ
  | .select => 1
  | .drain => 2
  | .dispatch _ => 3
  | .returned => 0

/-- How many steps the two threads still have after `ShutDown`. -/
def remaining (s : DatagramThreads) : ℕ :=
  s.listenerSteps + handlerSteps s.handoff.handler +
    2 * (s.handoff.high.length + s.handoff.low.length + s.toPush)

/-- The listener has to write to a pipe that is full; it holds `msgQueueMutex`. -/
def Blocked (s : DatagramThreads) : Prop := s.handoff.owes = true ∧ capacity ≤ s.handoff.pipe

/-- The listener holds `msgQueueMutex` while it handles a compound broadcast, and only then. -/
def Held (s : DatagramThreads) : Prop := s.handoff.holder.isSome = true ↔ s.listener = .handling

/-- What a member in shutdown has still to receive. -/
def toReceive (s : DatagramThreads) : ℕ :=
  match s.listener with
  | .ready _ _ => 1
  | _ => 0

variable {capacity depth} {s : DatagramThreads}

theorem handle_holder {h h' : Handoff} (he : h.handle = some h') :
    h'.holder = h.holder ∧ h'.shutdown = h.shutdown ∧ h'.pipe ≤ h.pipe := by
  rcases Handoff.handle_cases he with ⟨-,-,rfl⟩ | ⟨-,-,rfl⟩ | ⟨_,_,-,-,-,rfl⟩ | ⟨_,_,-,-,-,-,rfl⟩ |
    ⟨-,-,-,-,rfl⟩ | ⟨_,-,rfl⟩
  all_goals simp

theorem Held.step (hs : s.Held) (e : Event) : (s.step capacity depth e).Held := by
  unfold Held at hs ⊢
  cases e with
  | arrives md remote_addr =>
    simp only [DatagramThreads.step]
    split
    · rename_i hl
      rw [hl] at hs
      dsimp only
      split <;> simpa using hs
    · exact hs
  | packetListen =>
    simp only [DatagramThreads.step,DatagramThreads.packetListen]
    split
    · rename_i hl
      rw [hl] at hs
      split
      · simpa using hs
      · rw [hl]
        exact hs
    · rename_i md remote_addr hl
      rw [hl] at hs
      unfold receive
      split
      · split
        · rename_i h hlock
          obtain ⟨-,rfl⟩ := Handoff.lock_some hlock
          simp
        · rw [hl]
          exact hs
      · simpa using hs
    · split
      · rename_i h hp
        cases h.holder <;> simp
      · exact hs
    · exact hs
  | packetHandler =>
    simp only [DatagramThreads.step]
    split
    · exact hs
    · cases he : s.handoff.handle with
      | none => exact hs
      | some h =>
        rw [Option.getD_some,(handle_holder he).1]
        exact hs
  | lock l =>
    simp only [DatagramThreads.step]
    split <;> exact hs
  | unlock => exact hs
  | shutDown =>
    simp only [DatagramThreads.step]
    split <;> exact hs

theorem handle_pipe (hdown : s.handoff.shutdown = true) {h : Handoff}
    (he : s.handoff.handle = some h) :
    h.pipe = s.handoff.pipe ∧ (s.handoff.handler = .select → h.handler = .returned) := by
  by_cases hh : s.handoff.handler = .select
  · simp only [Handoff.handle,hh,hdown,if_true] at he
    cases he
    exact ⟨rfl,fun _ => rfl⟩
  · refine ⟨?_,fun h => absurd h hh⟩
    rcases Handoff.handle_cases he with ⟨-,-,rfl⟩ | ⟨hs,-⟩ | ⟨_,_,-,-,-,rfl⟩ | ⟨_,_,-,-,-,-,rfl⟩ |
      ⟨-,-,-,-,rfl⟩ | ⟨_,-,rfl⟩
    · rfl
    · exact absurd hs hh
    all_goals rfl

theorem step_shutdown (hdown : s.handoff.shutdown = true) (e : Event) :
    (s.step capacity depth e).handoff.shutdown = true := by
  cases e with
  | arrives md remote_addr =>
    simp only [DatagramThreads.step]
    split <;> exact hdown
  | packetListen =>
    simp only [DatagramThreads.step,DatagramThreads.packetListen]
    split
    · split <;> exact hdown
    · unfold receive
      split
      · split
        · rename_i h hlock
          obtain ⟨-,rfl⟩ := Handoff.lock_some hlock
          exact hdown
        · exact hdown
      · exact hdown
    · split
      · rename_i h hp
        rcases Handoff.produce_cases hp with ⟨_,_,-,-,rfl⟩ | ⟨_,-,rfl⟩ | ⟨bc,rest,from_,-,rfl⟩
        · exact hdown
        · exact hdown
        · rcases Handoff.offer_cases depth bc from_ rest s.handoff with
            ⟨-,-,he⟩ | ⟨-,-,he⟩ | ⟨-,he⟩ <;> rw [he] <;> exact hdown
      · exact hdown
    · exact hdown
  | packetHandler =>
    simp only [DatagramThreads.step]
    split
    · exact hdown
    · cases he : s.handoff.handle with
      | none => exact hdown
      | some h =>
        rw [Option.getD_some,(handle_holder he).2.1]
        exact hdown
  | lock l =>
    simp only [DatagramThreads.step]
    split <;> exact hdown
  | unlock => exact hdown
  | shutDown =>
    simp only [DatagramThreads.step]
    split
    · rfl
    · exact hdown

/-- The bytes in the pipe, with those still to be written. -/
def claimed (s : DatagramThreads) : ℕ := s.handoff.pipe + s.handoff.owes.toNat + s.toPush

theorem step_claimed (hs : s.Held) (hdown : s.handoff.shutdown = true) (e : Event) :
    (s.step capacity depth e).claimed ≤ s.claimed ∧
      (s.step capacity depth e).received + (s.step capacity depth e).toReceive ≤
        s.received + s.toReceive := by
  cases e with
  | arrives md remote_addr =>
    simp only [DatagramThreads.step]
    split
    · rename_i hl
      simp only [claimed,toPush,toReceive,hl]
      exact ⟨le_refl _,le_refl _⟩
    · exact ⟨le_refl _,le_refl _⟩
  | packetListen =>
    simp only [DatagramThreads.step,DatagramThreads.packetListen]
    split
    · rename_i hl
      simp only [hdown,if_true,claimed,toPush,toReceive,hl]
      exact ⟨le_refl _,le_refl _⟩
    · rename_i md remote_addr hl
      have hnone : s.handoff.holder = none := by
        have hh := mt hs.mp (by simp [hl])
        simpa using hh
      unfold receive
      split
      · simp only [Handoff.lock,hnone,Option.isSome_none]
        simp only [claimed,toPush,toReceive,hl,Handoff.owes,hnone]
        exact ⟨le_refl _,le_refl _⟩
      · simp only [claimed,toPush,toReceive,hl]
        exact ⟨by omega,le_refl _⟩
    · rename_i hl
      split
      · rename_i h hp
        rcases Handoff.produce_cases hp with ⟨rest,from_,hh,-,rfl⟩ | ⟨from_,hh,rfl⟩ |
          ⟨bc,rest,from_,hh,rfl⟩
        · simp [claimed,toPush,toReceive,hl,Handoff.owes,hh]
        · simp [claimed,toPush,toReceive,hl,Handoff.owes,hh]
        · rcases Handoff.offer_cases depth bc from_ rest s.handoff with
            ⟨-,-,he⟩ | ⟨-,-,he⟩ | ⟨-,he⟩
          all_goals
            rw [he]
            simp [claimed,toPush,toReceive,hl,Handoff.owes,hh]
            try omega
      · exact ⟨le_refl _,le_refl _⟩
    · exact ⟨le_refl _,le_refl _⟩
  | packetHandler =>
    simp only [DatagramThreads.step]
    split
    · exact ⟨le_refl _,le_refl _⟩
    · cases he : s.handoff.handle with
      | none => exact ⟨le_refl _,le_refl _⟩
      | some h =>
        obtain ⟨hholder,-,hpipe⟩ := handle_holder he
        simp only [Option.getD_some,claimed,toPush,toReceive,Handoff.owes,hholder]
        exact ⟨by omega,le_refl _⟩
  | lock l =>
    simp only [DatagramThreads.step]
    split <;> exact ⟨le_refl _,le_refl _⟩
  | unlock => exact ⟨le_refl _,le_refl _⟩
  | shutDown =>
    simp only [DatagramThreads.step]
    split <;> exact ⟨le_refl _,le_refl _⟩

/-- Nobody makes room in the pipe any more. -/
theorem Blocked.step (h : s.Blocked capacity) (hs : s.Held) (hdown : s.handoff.shutdown = true)
    (e : Event) : (s.step capacity depth e).Blocked capacity := by
  obtain ⟨howes,hfull⟩ := h
  obtain ⟨⟨rest,from_,owes⟩,hh⟩ : ∃ p, s.handoff.holder = some p := by
    cases hh : s.handoff.holder with
    | none => simp [Handoff.owes,hh] at howes
    | some p => exact ⟨p,rfl⟩
  have hl : s.listener = .handling := hs.mp (by rw [hh]; rfl)
  cases e with
  | arrives md remote_addr =>
    simp only [DatagramThreads.step,hl]
    exact ⟨howes,hfull⟩
  | packetListen =>
    have hp : s.handoff.produce capacity depth = none := by
      simp only [Handoff.owes,hh] at howes
      simp [Handoff.produce,hh,howes,hfull]
    simp only [DatagramThreads.step,DatagramThreads.packetListen,hl,hp]
    exact ⟨howes,hfull⟩
  | packetHandler =>
    simp only [DatagramThreads.step]
    split
    · exact ⟨howes,hfull⟩
    · cases he : s.handoff.handle with
      | none => exact ⟨howes,hfull⟩
      | some h =>
        refine ⟨?_,(handle_pipe hdown he).1.symm ▸ hfull⟩
        simp only [Option.getD_some,Handoff.owes,(handle_holder he).1]
        exact howes
  | lock l =>
    simp only [DatagramThreads.step]
    split <;> exact ⟨howes,hfull⟩
  | unlock => exact ⟨howes,hfull⟩
  | shutDown =>
    simp only [DatagramThreads.step]
    split <;> exact ⟨howes,hfull⟩

/-- What holds of every state `t` after the state `s` of a member in shutdown. -/
structure Winding (s t : DatagramThreads) : Prop where
  held : t.Held
  shutdown : t.handoff.shutdown = true
  claimed : t.claimed ≤ s.claimed
  received : t.received + t.toReceive ≤ s.received + s.toReceive

theorem Winding.step {t : DatagramThreads} (h : Winding s t) (e : Event) :
    Winding s (t.step capacity depth e) := by
  obtain ⟨hclaimed,hreceived⟩ := step_claimed h.held h.shutdown e
  exact ⟨h.held.step e,step_shutdown h.shutdown e,hclaimed.trans h.claimed,
    hreceived.trans h.received⟩

end DatagramThreads
end GossipMemberlist
