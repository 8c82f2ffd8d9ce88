import GossipMemberlist.Address
import GossipMemberlist.Library.Transitions

/-!
# The handoff queues

`handleComBroadcast` pushes the entries of a compound broadcast on two stacks and
writes a byte to the handoff pipe for each; `packetHandler` reads one byte and
then takes messages until the stacks are empty. The stacks are guarded by
`msgQueueMutex`, which `handleComBroadcast` holds for a whole compound broadcast,
blocked writes included. The pipe is in packet mode: every byte is a packet of its
own, and a read takes one.
-/

namespace GossipMemberlist

structure MsgHandoff where
  b : Broadcast
  from_ : SockaddrIn
  deriving DecidableEq

inductive HandlerAt
  | select | drain | dispatch (msg : MsgHandoff) | returned
  deriving DecidableEq

/-- The call of `handleComBroadcast` that holds the mutex: the entries it has not
looked at and whether it still has to write the byte of the last one it pushed. -/
structure Producer where
  rest : List Broadcast
  from_ : SockaddrIn
  owes : Bool
  deriving DecidableEq

/-- `pipe` counts the unread bytes, the stacks have their tops first, and the last
two fields record what was pushed and what was passed to a handler. -/
structure Handoff where
  pipe : ℕ
  high : List MsgHandoff
  low : List MsgHandoff
  holder : Option Producer
  handler : HandlerAt
  shutdown : Bool
  accepted : List MsgHandoff
  dispatched : List MsgHandoff
  deriving DecidableEq

namespace Handoff

def initial : Handoff := ⟨0,[],[],none,.select,false,[],[]⟩

variable (capacity depth : ℕ)

/-- One round of the loop of `handleComBroadcast`, up to the write. -/
def offer (bc : Broadcast) (from_ : SockaddrIn) (rest : List Broadcast) (s : Handoff) : Handoff :=
  if bc.type = .aliveMsg then
    if s.high.length < depth then
      { s with high := ⟨bc,from_⟩::s.high, accepted := s.accepted ++ [⟨bc,from_⟩],
               holder := some ⟨rest,from_,true⟩ }
    else { s with holder := some ⟨rest,from_,false⟩ }
  else
    if s.low.length < depth then
      { s with low := ⟨bc,from_⟩::s.low, accepted := s.accepted ++ [⟨bc,from_⟩],
               holder := some ⟨rest,from_,true⟩ }
    else { s with holder := some ⟨rest,from_,false⟩ }

def lock (bs : List Broadcast) (from_ : SockaddrIn) (s : Handoff) : Option Handoff :=
  if s.holder.isSome then none else some { s with holder := some ⟨bs,from_,false⟩ }

/-- The next step of the call that holds the mutex; a write to a full pipe blocks. -/
def produce (s : Handoff) : Option Handoff :=
  match s.holder with
  | none => none
  | some ⟨rest,from_,true⟩ =>
    if s.pipe < capacity then
      some { s with pipe := s.pipe + 1, holder := some ⟨rest,from_,false⟩ }
    else none
  | some ⟨[],_,false⟩ => some { s with holder := none }
  | some ⟨bc::rest,from_,false⟩ => some (s.offer depth bc from_ rest)

def getNextMessage (s : Handoff) : Option MsgHandoff × Handoff :=
  match s.high with
  | msg::high => (some msg,{ s with high := high })
  | [] =>
    match s.low with
    | msg::low => (some msg,{ s with low := low })
    | [] => (none,s)

/-- The next step of `packetHandler`; `getNextMessage` waits for the mutex. -/
def handle (s : Handoff) : Option Handoff :=
  match s.handler with
  | .select =>
    if s.shutdown then some { s with handler := .returned }
    else if 0 < s.pipe then some { s with pipe := s.pipe - 1, handler := .drain }
    else none
  | .drain =>
    if s.holder.isSome then none
    else match s.getNextMessage with
      | (some msg,s) => some { s with handler := .dispatch msg }
      | (none,s) => some { s with handler := .select }
  | .dispatch msg => some { s with dispatched := s.dispatched ++ [msg], handler := .drain }
  | .returned => none

/-- A call that waits for the mutex has done nothing yet, so calls show up when they
get it. -/
inductive Event
  | lock (bs : List Broadcast) (from_ : SockaddrIn)
  | produce
  | handle
  | shutdown

def step (s : Handoff) : Event → Handoff
  | .lock bs from_ => (s.lock bs from_).getD s
  | .produce => (s.produce capacity depth).getD s
  | .handle => s.handle.getD s
  | .shutdown => { s with shutdown := true }

/-- The message that `packetHandler` has taken but not passed on yet. -/
def inHand (s : Handoff) : List MsgHandoff :=
  match s.handler with
  | .dispatch msg => [msg]
  | _ => []

def owes (s : Handoff) : Bool :=
  match s.holder with
  | some p => p.owes
  | none => false

variable {capacity depth : ℕ} {s s' : Handoff}

/-- A round pushes its entry on the stack of its priority, or drops it because that
stack is full. -/
theorem offer_cases (depth : ℕ) (bc : Broadcast) (from_ : SockaddrIn) (rest : List Broadcast)
    (s : Handoff) :
    (bc.type = .aliveMsg ∧ s.high.length < depth ∧ s.offer depth bc from_ rest =
      { s with high := ⟨bc,from_⟩::s.high, accepted := s.accepted ++ [⟨bc,from_⟩],
               holder := some ⟨rest,from_,true⟩ }) ∨
    (bc.type ≠ .aliveMsg ∧ s.low.length < depth ∧ s.offer depth bc from_ rest =
      { s with low := ⟨bc,from_⟩::s.low, accepted := s.accepted ++ [⟨bc,from_⟩],
               holder := some ⟨rest,from_,true⟩ }) ∨
    ((if bc.type = .aliveMsg then depth ≤ s.high.length else depth ≤ s.low.length) ∧
      s.offer depth bc from_ rest = { s with holder := some ⟨rest,from_,false⟩ }) := by
  unfold offer
  by_cases ht : bc.type = .aliveMsg
  · by_cases hd : s.high.length < depth <;> simp [ht,hd]
    omega
  · by_cases hd : s.low.length < depth <;> simp [ht,hd]
    omega

theorem produce_cases (h : s.produce capacity depth = some s') :
    (∃ rest from_, s.holder = some ⟨rest,from_,true⟩ ∧ s.pipe < capacity ∧
      s' = { s with pipe := s.pipe + 1, holder := some ⟨rest,from_,false⟩ }) ∨
    (∃ from_, s.holder = some ⟨[],from_,false⟩ ∧ s' = { s with holder := none }) ∨
    ∃ bc rest from_, s.holder = some ⟨bc::rest,from_,false⟩ ∧
      s' = s.offer depth bc from_ rest := by
  unfold produce at h
  split at h
  · cases h
  · rename_i rest from_ hholder
    split at h
    · rename_i hpipe
      cases h
      exact Or.inl ⟨rest,from_,hholder,hpipe,rfl⟩
    · cases h
  · rename_i from_ hholder
    cases h
    exact Or.inr (Or.inl ⟨from_,hholder,rfl⟩)
  · rename_i bc rest from_ hholder
    cases h
    exact Or.inr (Or.inr ⟨bc,rest,from_,hholder,rfl⟩)

theorem handle_cases (h : s.handle = some s') :
    (s.handler = .select ∧ s.shutdown = true ∧ s' = { s with handler := .returned }) ∨
    (s.handler = .select ∧ 0 < s.pipe ∧ s' = { s with pipe := s.pipe - 1, handler := .drain }) ∨
    (∃ msg high, s.handler = .drain ∧ s.holder = none ∧ s.high = msg::high ∧
      s' = { s with high := high, handler := .dispatch msg }) ∨
    (∃ msg low, s.handler = .drain ∧ s.holder = none ∧ s.high = [] ∧ s.low = msg::low ∧
      s' = { s with low := low, handler := .dispatch msg }) ∨
    (s.handler = .drain ∧ s.holder = none ∧ s.high = [] ∧ s.low = [] ∧
      s' = { s with handler := .select }) ∨
    ∃ msg, s.handler = .dispatch msg ∧
      s' = { s with dispatched := s.dispatched ++ [msg], handler := .drain } := by
  unfold handle at h
  cases hh : s.handler with
  | select =>
    rw [hh] at h
    by_cases hs : s.shutdown
    · simp_all
    · by_cases hp : 0 < s.pipe <;> simp_all
  | drain =>
    rw [hh] at h
    cases hholder : s.holder with
    | some p => simp [hholder] at h
    | none =>
      cases hhigh : s.high with
      | cons msg high => simp_all [getNextMessage]
      | nil => cases hlow : s.low <;> simp_all [getNextMessage]
  | dispatch msg => simp_all
  | returned => simp [hh] at h

theorem lock_some {bs : List Broadcast} {from_ : SockaddrIn} (h : s.lock bs from_ = some s') :
    s.holder = none ∧ s' = { s with holder := some ⟨bs,from_,false⟩ } := by
  unfold lock at h
  split at h
  · cases h
  · rename_i hn
    cases h
    exact ⟨by simpa using hn,rfl⟩

/-- What holds between the stacks, the pipe and the two threads. -/
structure Accounted (depth : ℕ) (s : Handoff) : Prop where
  account : s.accepted.Perm (s.dispatched ++ s.inHand ++ s.high ++ s.low)
  alive : ∀ m ∈ s.high, m.b.type = .aliveMsg
  others : ∀ m ∈ s.low, m.b.type ≠ .aliveMsg
  highDepth : s.high.length ≤ depth
  lowDepth : s.low.length ≤ depth
  wake : s.handler = .select → s.high ++ s.low ≠ [] → 0 < s.pipe ∨ s.owes = true

theorem Accounted.initial (depth : ℕ) : initial.Accounted depth :=
  ⟨List.Perm.refl _,by simp [Handoff.initial],by simp [Handoff.initial],Nat.zero_le _,
    Nat.zero_le _,by simp [Handoff.initial]⟩

theorem perm_push {α : Type*} {l a b : List α} (m : α) (h : l.Perm (a ++ b)) :
    (l ++ [m]).Perm (a ++ m::b) :=
  (List.perm_append_singleton m l).trans ((h.cons m).trans List.perm_middle.symm)

theorem Accounted.offer (hs : s.Accounted depth) (hpaid : s.owes = false) (bc : Broadcast)
    (from_ : SockaddrIn) (rest : List Broadcast) :
    (s.offer depth bc from_ rest).Accounted depth := by
  have hwake := hs.wake
  rw [hpaid] at hwake
  have hacc := hs.account
  rcases offer_cases depth bc from_ rest s with ⟨ht,hd,h⟩ | ⟨ht,hd,h⟩ | ⟨-,h⟩ <;> rw [h]
  · refine ⟨?_,?_,hs.others,hd,hs.lowDepth,fun _ _ => Or.inr rfl⟩
    · rw [List.append_assoc] at hacc ⊢
      exact perm_push ⟨bc,from_⟩ hacc
    · intro m hm
      rcases List.mem_cons.mp hm with rfl | hm
      · exact ht
      · exact hs.alive m hm
  · refine ⟨perm_push ⟨bc,from_⟩ hacc,hs.alive,?_,hs.highDepth,hd,fun _ _ => Or.inr rfl⟩
    intro m hm
    rcases List.mem_cons.mp hm with rfl | hm
    · exact ht
    · exact hs.others m hm
  · exact ⟨hacc,hs.alive,hs.others,hs.highDepth,hs.lowDepth,fun h₁ h₂ =>
      Or.inl ((hwake h₁ h₂).resolve_right (by simp))⟩

theorem Accounted.produce (hs : s.Accounted depth) (h : s.produce capacity depth = some s') :
    s'.Accounted depth := by
  have hwake := hs.wake
  rcases produce_cases h with ⟨rest,from_,-,-,rfl⟩ | ⟨from_,hh,rfl⟩ | ⟨bc,rest,from_,hh,rfl⟩
  · exact ⟨hs.account,hs.alive,hs.others,hs.highDepth,hs.lowDepth,fun _ _ =>
      Or.inl (Nat.succ_pos _)⟩
  · have hpaid : s.owes = false := by simp [owes,hh]
    rw [hpaid] at hwake
    exact ⟨hs.account,hs.alive,hs.others,hs.highDepth,hs.lowDepth,fun h₁ h₂ =>
      Or.inl ((hwake h₁ h₂).resolve_right (by simp))⟩
  · exact hs.offer (by simp [owes,hh]) bc from_ rest

theorem Accounted.handle (hs : s.Accounted depth) (h : s.handle = some s') :
    s'.Accounted depth := by
  have hacc := hs.account
  rcases handle_cases h with ⟨hh,-,rfl⟩ | ⟨hh,-,rfl⟩ | ⟨msg,high,hh,-,hhigh,rfl⟩ |
    ⟨msg,low,hh,-,hhigh,hlow,rfl⟩ | ⟨hh,-,hhigh,hlow,rfl⟩ | ⟨msg,hh,rfl⟩
  · simp only [inHand,hh] at hacc
    exact ⟨hacc,hs.alive,hs.others,hs.highDepth,hs.lowDepth,by simp⟩
  · simp only [inHand,hh] at hacc
    exact ⟨hacc,hs.alive,hs.others,hs.highDepth,hs.lowDepth,by simp⟩
  · simp only [inHand,hh,hhigh] at hacc
    refine ⟨by simpa [inHand] using hacc,fun m hm => hs.alive m ?_,hs.others,?_,hs.lowDepth,by simp⟩
    · rw [hhigh]
      exact List.mem_cons_of_mem msg hm
    · have hd := hs.highDepth
      rw [hhigh] at hd
      exact Nat.le_of_succ_le hd
  · simp only [inHand,hh,hhigh,hlow] at hacc
    refine ⟨by simpa [inHand,hhigh] using hacc,hs.alive,fun m hm => hs.others m ?_,hs.highDepth,?_,
      by simp⟩
    · rw [hlow]
      exact List.mem_cons_of_mem msg hm
    · have hd := hs.lowDepth
      rw [hlow] at hd
      exact Nat.le_of_succ_le hd
  · simp only [inHand,hh] at hacc
    exact ⟨hacc,hs.alive,hs.others,hs.highDepth,hs.lowDepth,by simp [hhigh,hlow]⟩
  · simp only [inHand,hh] at hacc
    exact ⟨by simpa [inHand] using hacc,hs.alive,hs.others,hs.highDepth,hs.lowDepth,by simp⟩

theorem Accounted.lock (hs : s.Accounted depth) {bs : List Broadcast} {from_ : SockaddrIn}
    (h : s.lock bs from_ = some s') : s'.Accounted depth := by
  obtain ⟨hn,rfl⟩ := lock_some h
  refine ⟨hs.account,hs.alive,hs.others,hs.highDepth,hs.lowDepth,fun h₁ h₂ => ?_⟩
  exact Or.inl ((hs.wake h₁ h₂).resolve_right (by simp [owes,hn]))

theorem Accounted.step (hs : s.Accounted depth) (e : Event) :
    (s.step capacity depth e).Accounted depth := by
  cases e with
  | lock bs from_ =>
    cases h : s.lock bs from_ with
    | none => simpa [Handoff.step,h] using hs
    | some s' => simpa [Handoff.step,h] using hs.lock h
  | produce =>
    cases h : s.produce capacity depth with
    | none => simpa [Handoff.step,h] using hs
    | some s' => simpa [Handoff.step,h] using hs.produce h
  | handle =>
    cases h : s.handle with
    | none => simpa [Handoff.step,h] using hs
    | some s' => simpa [Handoff.step,h] using hs.handle h
  | shutdown => exact ⟨hs.account,hs.alive,hs.others,hs.highDepth,hs.lowDepth,hs.wake⟩

theorem taken_in_priority (hs : s.Accounted depth) {msg : MsgHandoff} (h : s.handle = some s')
    (hd : s.handler = .drain) (hm : s'.handler = .dispatch msg) (ht : msg.b.type ≠ .aliveMsg) :
    ∀ m ∈ s.high ++ s.low, m.b.type ≠ .aliveMsg := by
  rcases handle_cases h with ⟨hh,-⟩ | ⟨hh,-⟩ | ⟨m,high,-,-,hhigh,rfl⟩ |
    ⟨m,low,-,-,hhigh,-⟩ | ⟨-,-,-,-,rfl⟩ | ⟨m,hh,-⟩
  · cases hd.symm.trans hh
  · cases hd.symm.trans hh
  · obtain rfl : m = msg := by simpa using hm
    exact absurd (hs.alive m (by simp [hhigh])) ht
  · rw [hhigh]
    exact hs.others
  · cases hm
  · cases hd.symm.trans hh

/-- The handoff between any number of calls and `packetHandler`, in every order of their
steps: nothing accepted is lost or handled twice, the stacks keep their bounds, alive
messages go first, and no message waits for a byte that nobody will write. -/
theorem handoff_accounts (capacity depth : ℕ) (evs : List Event) :
    let s := Transitions.run (step capacity depth) initial evs
    s.accepted.Perm (s.dispatched ++ s.inHand ++ (s.high ++ s.low)) ∧
    s.high.length ≤ depth ∧ s.low.length ≤ depth ∧
    (∀ s' msg, s.handle = some s' → s.handler = .drain → s'.handler = .dispatch msg →
      msg.b.type ≠ .aliveMsg → ∀ m ∈ s.high ++ s.low, m.b.type ≠ .aliveMsg) ∧
    (s.handler = .select → s.holder = none → s.high ++ s.low ≠ [] → 0 < s.pipe) := by
  have hs : (Transitions.run (Handoff.step capacity depth) initial evs).Accounted depth :=
    Transitions.run_invariant (Accounted.initial depth) (fun _ e h => h.step e) evs
  dsimp only
  refine ⟨by simpa using hs.account,hs.highDepth,hs.lowDepth,
    fun s' msg h hd hm ht => taken_in_priority hs h hd hm ht,fun hsel hnone hne => ?_⟩
  exact (hs.wake hsel hne).resolve_right (by simp [owes,hnone])

end Handoff
end GossipMemberlist
