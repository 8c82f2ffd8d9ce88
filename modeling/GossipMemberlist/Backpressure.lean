import GossipMemberlist.Handoff

/-!
# The listener against a full handoff pipe

The listener writes to the handoff pipe while it holds `msgQueueMutex`, and
`packetHandler` needs that mutex before it returns to the pipe. Two threads and
their order of steps are the whole run here, so whether they can block each other
is a matter of counting bytes.
-/

namespace GossipMemberlist

/-- The listener with the compound broadcasts it will receive, and the handoff. -/
structure Listening where
  todo : List (List Broadcast × SockaddrIn)
  handoff : Handoff
  deriving DecidableEq

namespace Listening

open Handoff

inductive Thread
  | listener | packetHandler
  deriving DecidableEq

variable (capacity depth : ℕ)

def listen (s : Listening) : Option Listening :=
  match s.handoff.holder with
  | some _ => (s.handoff.produce capacity depth).map fun h => { s with handoff := h }
  | none =>
    match s.todo with
    | [] => none
    | c::cs => (s.handoff.lock c.1 c.2).map fun h => ⟨cs,h⟩

def handle (s : Listening) : Option Listening :=
  s.handoff.handle.map fun h => { s with handoff := h }

def step (s : Listening) : Thread → Listening
  | .listener => (s.listen capacity depth).getD s
  | .packetHandler => s.handle.getD s

def start (cs : List (List Broadcast × SockaddrIn)) : Listening := ⟨cs,.initial⟩

def Finished (s : Listening) : Prop := s.todo = [] ∧ s.handoff.holder = none

def Stuck (s : Listening) : Prop :=
  ¬s.Finished ∧ s.listen capacity depth = none ∧ s.handle = none

instance (s : Listening) : Decidable s.Finished := inferInstanceAs (Decidable (_ ∧ _))

instance (s : Listening) : Decidable (s.Stuck capacity depth) :=
  inferInstanceAs (Decidable (_ ∧ _ ∧ _))

def isAlive (b : Broadcast) : Bool := b.type = .aliveMsg

/-- How many entries of `bs` two stacks of these sizes can take. -/
def room (high low : ℕ) (bs : List Broadcast) : ℕ :=
  min (bs.countP isAlive) (depth - high) + min (bs.countP fun b => !isAlive b) (depth - low)

def total (cs : List (List Broadcast × SockaddrIn)) : ℕ := (cs.map fun c => room depth 0 0 c.1).sum

def pending (s : Listening) : ℕ :=
  match s.handoff.holder with
  | none => 0
  | some p => room depth s.handoff.high.length s.handoff.low.length p.rest

/-- Bytes of accepted entries are in the pipe, owed or read; `packetHandler` is past its
`Select` only after a read. -/
structure Bounded (n : ℕ) (s : Listening) : Prop where
  bytes : s.handoff.pipe + s.handoff.owes.toNat + (if s.handoff.handler = .select then 0 else 1) ≤
    s.handoff.accepted.length
  accepted : s.handoff.accepted.length + s.pending depth + total depth s.todo ≤ n
  shutdown : s.handoff.shutdown = false
  returned : s.handoff.handler ≠ .returned

variable {capacity depth} {n : ℕ} {s s' : Listening}

theorem room_le (depth high low : ℕ) (bs : List Broadcast) :
    room depth high low bs ≤ room depth 0 0 bs := by
  unfold room
  omega

theorem room_offer (depth : ℕ) (bc : Broadcast) (from_ : SockaddrIn) (rest : List Broadcast)
    (h : Handoff) :
    (h.offer depth bc from_ rest).accepted.length + room depth
        (h.offer depth bc from_ rest).high.length (h.offer depth bc from_ rest).low.length rest =
      h.accepted.length + room depth h.high.length h.low.length (bc::rest) := by
  rcases offer_cases depth bc from_ rest h with ⟨ht,hd,he⟩ | ⟨ht,hd,he⟩ | ⟨hd,he⟩ <;> rw [he]
  · simp [room,isAlive,ht]
    omega
  · simp [room,isAlive,ht]
    omega
  · by_cases ht : bc.type = .aliveMsg <;> simp [room,isAlive,ht] at hd ⊢ <;> omega

theorem offer_frame (depth : ℕ) (bc : Broadcast) (from_ : SockaddrIn) (rest : List Broadcast)
    (h : Handoff) :
    (h.offer depth bc from_ rest).pipe = h.pipe ∧
      (h.offer depth bc from_ rest).handler = h.handler ∧
      (h.offer depth bc from_ rest).shutdown = h.shutdown ∧
      ∃ o, (h.offer depth bc from_ rest).holder = some ⟨rest,from_,o⟩ ∧
        (h.offer depth bc from_ rest).accepted.length = h.accepted.length + o.toNat := by
  rcases offer_cases depth bc from_ rest h with ⟨-,-,he⟩ | ⟨-,-,he⟩ | ⟨-,he⟩ <;> rw [he] <;> simp

theorem Bounded.start (depth : ℕ) (cs : List (List Broadcast × SockaddrIn)) :
    (start cs).Bounded depth (total depth cs) :=
  ⟨Nat.le_refl _,by simp [Listening.start,pending,Handoff.initial],rfl,by
    simp [Listening.start,Handoff.initial]⟩

theorem Bounded.listen (hs : s.Bounded depth n) (h : s.listen capacity depth = some s') :
    s'.Bounded depth n := by
  obtain ⟨hb,ha,hsd,hr⟩ := hs
  unfold Listening.listen at h
  cases hh : s.handoff.holder with
  | none =>
    simp only [hh] at h
    cases htodo : s.todo with
    | nil => simp [htodo] at h
    | cons c cs =>
      simp only [htodo,Option.map_eq_some_iff] at h
      obtain ⟨h₁,hlock,rfl⟩ := h
      obtain ⟨-,rfl⟩ := lock_some hlock
      have hroom := room_le depth s.handoff.high.length s.handoff.low.length c.1
      simp only [owes,hh] at hb
      simp only [pending,hh,total,htodo,List.map_cons,List.sum_cons] at ha
      refine ⟨hb,?_,hsd,hr⟩
      simp only [pending,total]
      omega
  | some p =>
    simp only [hh,Option.map_eq_some_iff] at h
    obtain ⟨h₁,hp,rfl⟩ := h
    rcases produce_cases hp with
      ⟨rest,from_,hho,hlt,rfl⟩ | ⟨from_,hho,rfl⟩ | ⟨bc,rest,from_,hho,rfl⟩
    · simp only [owes,hho,Bool.toNat_true] at hb
      simp only [pending,hho] at ha
      refine ⟨?_,ha,hsd,hr⟩
      simp only [owes,Bool.toNat_false]
      omega
    · simp only [owes,hho] at hb
      simp only [pending,hho] at ha
      refine ⟨hb,?_,hsd,hr⟩
      simp only [pending]
      omega
    · simp only [owes,hho,Bool.toNat_false] at hb
      simp only [pending,hho] at ha
      have hroom := room_offer depth bc from_ rest s.handoff
      obtain ⟨hpipe,hhandler,hshut,o,hnew,hacc⟩ := offer_frame depth bc from_ rest s.handoff
      refine ⟨?_,?_,hshut.trans hsd,hhandler ▸ hr⟩
      · simp only [owes,hnew,hpipe,hhandler,hacc]
        omega
      · simp only [pending,hnew]
        omega

theorem Bounded.handle (hs : s.Bounded depth n) (h : s.handle = some s') : s'.Bounded depth n := by
  obtain ⟨hb,ha,hsd,hr⟩ := hs
  unfold Listening.handle at h
  obtain ⟨h₁,hh,rfl⟩ := Option.map_eq_some_iff.mp h
  rcases handle_cases hh with ⟨_,hsh,-⟩ | ⟨hat,hlt,rfl⟩ | ⟨msg,high,hat,hnone,hhigh,rfl⟩ |
    ⟨msg,low,hat,hnone,hhigh,hlow,rfl⟩ | ⟨hat,hnone,-,-,rfl⟩ | ⟨msg,hat,rfl⟩
  · rw [hsd] at hsh
    cases hsh
  · rw [hat] at hb
    refine ⟨?_,ha,hsd,by simp⟩
    simp only [owes,reduceCtorEq,if_true,if_false] at hb ⊢
    omega
  · rw [hat] at hb
    exact ⟨hb,by simpa [pending,hnone] using ha,hsd,by simp⟩
  · rw [hat] at hb
    exact ⟨hb,by simpa [pending,hnone] using ha,hsd,by simp⟩
  · rw [hat] at hb
    refine ⟨?_,ha,hsd,by simp⟩
    simp only [owes,reduceCtorEq,if_true,if_false] at hb ⊢
    omega
  · rw [hat] at hb
    exact ⟨hb,ha,hsd,by simp⟩

theorem Bounded.run (capacity depth : ℕ) (cs : List (List Broadcast × SockaddrIn))
    (ts : List Thread) :
    (Transitions.run (step capacity depth) (Listening.start cs) ts).Bounded depth
      (total depth cs) := by
  refine Transitions.run_invariant (Bounded.start depth cs) (fun s t hs => ?_) ts
  cases t with
  | listener =>
    cases h : s.listen capacity depth with
    | none => simpa [step,h] using hs
    | some s' => simpa [step,h] using hs.listen h
  | packetHandler =>
    cases h : s.handle with
    | none => simpa [step,h] using hs
    | some s' => simpa [step,h] using hs.handle h

theorem stuck_of (ho : s.handoff.owes = true) (hp : capacity ≤ s.handoff.pipe)
    (hh : s.handoff.handler = .drain) : s.Stuck capacity depth := by
  unfold owes at ho
  cases hholder : s.handoff.holder with
  | none => simp [hholder] at ho
  | some p =>
    obtain ⟨rest,from_,o⟩ := p
    obtain rfl : o = true := by simpa [hholder] using ho
    refine ⟨fun hf => by simp [hf.2] at hholder,?_,?_⟩
    · simp [Listening.listen,Handoff.produce,hholder,Nat.not_lt.mpr hp]
    · simp [Listening.handle,Handoff.handle,hh,hholder]

/-- A stuck listener owes a byte to a full pipe, and `packetHandler` waits for the mutex. -/
theorem Stuck.inv (hst : s.Stuck capacity depth) (hC : 1 ≤ capacity) (hs : s.Bounded depth n) :
    s.handoff.owes = true ∧ capacity ≤ s.handoff.pipe ∧ s.handoff.handler = .drain := by
  obtain ⟨-,-,hsd,hr⟩ := hs
  revert hst
  unfold Stuck Finished Listening.listen Listening.handle owes
  cases hh : s.handoff.holder with
  | none => cases s.todo <;> simp [Handoff.lock,hh]
  | some p =>
    obtain ⟨rest,from_,o⟩ := p
    cases o with
    | false => cases rest <;> simp [Handoff.produce,hh]
    | true =>
      cases hat : s.handoff.handler with
      | returned => exact absurd hat hr
      | select =>
        simp [Handoff.produce,Handoff.handle,hh,hat,hsd]
        omega
      | drain => simp [Handoff.produce,Handoff.handle,hh,hat]
      | dispatch msg => simp [Handoff.handle,hat]

section Schedule

variable {todo : List (List Broadcast × SockaddrIn)} {c : List Broadcast × SockaddrIn}
  {h : Handoff} {bc : Broadcast} {rest : List Broadcast} {from_ : SockaddrIn} {msg : MsgHandoff}
  {msgs : List MsgHandoff}

theorem step_lock (hh : h.holder = none) : step capacity depth ⟨c::todo,h⟩ .listener =
    ⟨todo,{ h with holder := some ⟨c.1,c.2,false⟩ }⟩ := by
  simp [step,Listening.listen,Handoff.lock,hh]

theorem step_unlock (hh : h.holder = some ⟨[],from_,false⟩) :
    step capacity depth ⟨todo,h⟩ .listener = ⟨todo,{ h with holder := none }⟩ := by
  simp [step,Listening.listen,Handoff.produce,hh]

theorem step_offer (hh : h.holder = some ⟨bc::rest,from_,false⟩) :
    step capacity depth ⟨todo,h⟩ .listener = ⟨todo,h.offer depth bc from_ rest⟩ := by
  simp [step,Listening.listen,Handoff.produce,hh]

theorem step_write (hh : h.holder = some ⟨rest,from_,true⟩) (hp : h.pipe < capacity) :
    step capacity depth ⟨todo,h⟩ .listener =
      ⟨todo,{ h with pipe := h.pipe + 1, holder := some ⟨rest,from_,false⟩ }⟩ := by
  simp [step,Listening.listen,Handoff.produce,hh,hp]

theorem step_high (hat : h.handler = .drain) (hh : h.holder = none) (hq : h.high = msg::msgs) :
    step capacity depth ⟨todo,h⟩ .packetHandler =
      ⟨todo,{ h with high := msgs, handler := .dispatch msg }⟩ := by
  simp [step,Listening.handle,Handoff.handle,Handoff.getNextMessage,hat,hh,hq]

theorem step_low (hat : h.handler = .drain) (hh : h.holder = none) (hq : h.high = [])
    (hl : h.low = msg::msgs) : step capacity depth ⟨todo,h⟩ .packetHandler =
      ⟨todo,{ h with low := msgs, handler := .dispatch msg }⟩ := by
  simp [step,Listening.handle,Handoff.handle,Handoff.getNextMessage,hat,hh,hq,hl]

theorem step_dispatch (hat : h.handler = .dispatch msg) :
    step capacity depth ⟨todo,h⟩ .packetHandler =
      ⟨todo,{ h with dispatched := h.dispatched ++ [msg], handler := .drain }⟩ := by
  simp [step,Listening.handle,Handoff.handle,hat]

theorem step_read (hat : h.handler = .select) (hs : h.shutdown = false) (hp : 0 < h.pipe) :
    step capacity depth ⟨todo,h⟩ .packetHandler =
      ⟨todo,{ h with pipe := h.pipe - 1, handler := .drain }⟩ := by
  simp [step,Listening.handle,Handoff.handle,hat,hs,hp]

variable (capacity depth)

/-- The listener works through a compound broadcast while `packetHandler` waits for the
mutex: the pipe fills up, or the call ends. -/
theorem stall_call (todo : List (List Broadcast × SockaddrIn))
    (hA : ∀ h : Handoff, h.holder = none → h.handler = .drain → h.pipe ≤ capacity →
      capacity < h.pipe + total depth todo →
        Transitions.CanReach (step capacity depth) (Stuck capacity depth) ⟨todo,h⟩)
    (rest : List Broadcast) (h : Handoff) (hh : h.holder = some ⟨rest,from_,false⟩)
    (hat : h.handler = .drain) (hp : h.pipe ≤ capacity)
    (hroom : capacity < h.pipe + room depth h.high.length h.low.length rest + total depth todo) :
    Transitions.CanReach (step capacity depth) (Stuck capacity depth) ⟨todo,h⟩ := by
  induction rest generalizing h with
  | nil =>
    refine Transitions.CanReach.after .listener ?_
    rw [step_unlock hh]
    exact hA _ rfl hat hp (by simpa [room] using hroom)
  | cons bc rest ih =>
    have hoff := room_offer depth bc from_ rest h
    obtain ⟨hpipe,hhandler,-,o,hnew,hacc⟩ := offer_frame depth bc from_ rest h
    refine Transitions.CanReach.after .listener ?_
    rw [step_offer hh]
    generalize h.offer depth bc from_ rest = h' at hoff hpipe hhandler hnew hacc
    cases o with
    | false =>
      simp only [Bool.toNat_false] at hacc
      exact ih h' hnew (hhandler.trans hat) (hpipe ▸ hp) (by omega)
    | true =>
      simp only [Bool.toNat_true] at hacc
      by_cases hfull : h'.pipe < capacity
      · refine Transitions.CanReach.after .listener ?_
        rw [step_write hnew hfull]
        exact ih _ rfl (hhandler.trans hat) hfull (by dsimp only; omega)
      · exact .here (stuck_of (by simp [owes,hnew]) (Nat.le_of_not_lt hfull) (hhandler.trans hat))

/-- Between two calls `packetHandler` empties the stacks without returning to the pipe. -/
theorem stall_drain (todo : List (List Broadcast × SockaddrIn)) (h : Handoff)
    (hh : h.holder = none) (hat : h.handler = .drain) (hp : h.pipe ≤ capacity)
    (hroom : capacity < h.pipe + total depth todo) :
    Transitions.CanReach (step capacity depth) (Stuck capacity depth) ⟨todo,h⟩ := by
  induction todo generalizing h with
  | nil =>
    simp only [total,List.map_nil,List.sum_nil] at hroom
    omega
  | cons c todo ih =>
    induction hm : h.high.length + h.low.length generalizing h with
    | zero =>
      refine Transitions.CanReach.after .listener ?_
      rw [step_lock hh]
      refine stall_call capacity depth todo (fun h => ih h) c.1 _ rfl hat hp ?_
      simp only [total,List.map_cons,List.sum_cons] at hroom ⊢
      have h₁ : h.high.length = 0 := by omega
      have h₂ : h.low.length = 0 := by omega
      rw [h₁,h₂]
      omega
    | succ k ihk =>
      cases hq : h.high with
      | cons msg msgs =>
        refine Transitions.CanReach.after .packetHandler (.after .packetHandler ?_)
        rw [step_high hat hh hq,step_dispatch rfl]
        refine ihk _ hh rfl hp hroom ?_
        simp only [hq,List.length_cons] at hm ⊢
        omega
      | nil =>
        cases hl : h.low with
        | nil => simp [hq,hl] at hm
        | cons msg msgs =>
          refine Transitions.CanReach.after .packetHandler (.after .packetHandler ?_)
          rw [step_low hat hh hq hl,step_dispatch rfl]
          refine ihk _ hh rfl hp hroom ?_
          simp only [hl,List.length_cons] at hm ⊢
          omega

theorem stall_start (hC : 1 ≤ capacity) (cs : List (List Broadcast × SockaddrIn))
    (hroom : capacity + 1 < total depth cs) :
    Transitions.CanReach (step capacity depth) (Stuck capacity depth) (start cs) := by
  induction cs with
  | nil =>
    simp only [total,List.map_nil,List.sum_nil] at hroom
    omega
  | cons c cs ih =>
    obtain ⟨bs,from_⟩ := c
    simp only [total,List.map_cons,List.sum_cons] at hroom
    refine Transitions.CanReach.after .listener ?_
    rw [start,step_lock rfl]
    cases bs with
    | nil =>
      refine Transitions.CanReach.after .listener ?_
      rw [step_unlock rfl]
      exact ih (by simpa [room,total] using hroom)
    | cons bc rest =>
      have hd : 0 < depth := by
        by_contra hd
        obtain rfl : depth = 0 := by omega
        simp [room] at hroom
      let h₀ : Handoff := { Handoff.initial with holder := some ⟨bc::rest,from_,false⟩ }
      have hoff := room_offer depth bc from_ rest h₀
      obtain ⟨hpipe,hhandler,hshut,o,hnew,hacc⟩ := offer_frame depth bc from_ rest h₀
      have ho : o = true := by
        rcases offer_cases depth bc from_ rest h₀ with ⟨-,-,he⟩ | ⟨-,-,he⟩ | ⟨hle,-⟩
        · simpa [he,eq_comm] using hnew
        · simpa [he,eq_comm] using hnew
        · by_cases ht : bc.type = .aliveMsg <;> simp [ht,h₀,Handoff.initial] at hle <;> omega
      subst ho
      refine Transitions.CanReach.after .listener ?_
      rw [step_offer rfl]
      change Transitions.CanReach _ _ (Listening.mk cs (h₀.offer depth bc from_ rest))
      have hacc₀ : h₀.accepted.length = 0 := rfl
      have hroom₀ : room depth h₀.high.length h₀.low.length (bc::rest) =
        room depth 0 0 (bc::rest) := rfl
      generalize h₀.offer depth bc from_ rest = h' at hoff hpipe hhandler hshut hnew hacc
      have hpipe : h'.pipe = 0 := hpipe
      simp only [Bool.toNat_true] at hacc
      refine Transitions.CanReach.after .listener (.after .packetHandler ?_)
      rw [step_write hnew (by omega),
        step_read (by exact hhandler) (by exact hshut) (by exact Nat.succ_pos _)]
      refine stall_call capacity depth cs (stall_drain capacity depth cs) rest _ rfl rfl ?_ ?_
      · dsimp only
        omega
      · simp only [total] at hroom ⊢
        omega

end Schedule

/-- The two threads cannot block each other exactly when the pipe has room for all but one
of the bytes that the calls can write. -/
theorem never_stuck_iff (capacity depth : ℕ) (hC : 1 ≤ capacity)
    (cs : List (List Broadcast × SockaddrIn)) :
    (∀ ts, ¬(Transitions.run (step capacity depth) (start cs) ts).Stuck capacity depth) ↔
      total depth cs ≤ capacity + 1 := by
  constructor
  · intro h
    by_contra hroom
    obtain ⟨ts,hts⟩ := stall_start capacity depth hC cs (by omega)
    exact h ts hts
  · intro hroom ts hst
    have hb := Bounded.run capacity depth cs ts
    obtain ⟨ho,hp,hat⟩ := hst.inv hC hb
    have hbytes := hb.bytes
    have hacc := hb.accepted
    rw [ho,hat,Bool.toNat_true,if_neg (by simp)] at hbytes
    omega

/-- Two broadcasts and a pipe for one byte. -/
theorem never_stuck_two :
    let b : Broadcast := genAliveBroadcast ⟨1,"b","10.0.0.2",6666⟩
    let cs : List (List Broadcast × SockaddrIn) := [([b,b],⟨htons 6666,⟨10,0,0,1⟩⟩)]
    ¬(Transitions.run (step 1 1024) (start cs)
      [.listener,.listener,.listener,.packetHandler]).Stuck 1 1024 := by
  intro b cs
  exact (never_stuck_iff 1 1024 (by decide) cs).mpr (by decide) _

/-- A compound broadcast of eighteen entries for a pipe of sixteen packets: the listener
blocks with the mutex in its hands. -/
theorem listener_stalls :
    let b : Broadcast := genAliveBroadcast ⟨1,"b","10.0.0.2",6666⟩
    let cs : List (List Broadcast × SockaddrIn) :=
      [(List.replicate 18 b,⟨htons 6666,⟨10,0,0,1⟩⟩)]
    let ts := List.replicate 3 Thread.listener ++ .packetHandler::List.replicate 33 .listener
    (Transitions.run (step 16 1024) (start cs) ts).Stuck 16 1024 := by
  intro b cs ts
  decide +kernel

end Listening
end GossipMemberlist
