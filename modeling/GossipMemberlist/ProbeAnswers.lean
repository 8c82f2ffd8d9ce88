import GossipMemberlist.ProbePipes

/-!
# Probes that are answered in time

When the listener stops the timer of a probe before it has fired, the probe does not
suspect its target any more: no report of failure ever reaches its pipe, so it leaves
with the ack as soon as it takes two more steps.
-/

namespace GossipMemberlist

/-- The steps that are left to a call with an ack in its pipe. -/
def ProbeAt.left : ProbeAt → ℕ
  | .select | .read => 2
  | .clear _ => 1
  | _ => 0

theorem ProbeAt.left_le (pc : ProbeAt) : pc.left ≤ 2 := by
  cases pc <;> simp [left]

def ProbeEvent.isProber (r : ℕ) : ProbeEvent → Bool
  | .prober r' _ => r' = r
  | _ => false

namespace Probing

open Transitions

def Arrived (r : ℕ) (s : Probing) : Prop := (s.probes r).Acked ∨ (s.probes r).pc = .returned

/-- The timer of the call was stopped in time, by a listener that is about to call the callback
or has done so. -/
structure Answered (r : ℕ) (s : Probing) : Prop where
  begun : (s.probes r).pc ≠ .idle
  timer : (s.probes r).timer = .cancelled
  ack : s.listener = .ackFn r ∨ s.Arrived r

/-- Where nothing but the ends of the pipe and the timer may change, and a stopped timer stays
stopped. -/
structure Waits (r : ℕ) (s t : Probing) : Prop where
  pc : (t.probes r).pc = (s.probes r).pc
  timer : (s.probes r).timer = .cancelled → (t.probes r).timer = .cancelled
  pipe : (s.probes r).ackPipe <+: (t.probes r).ackPipe

variable {s t u : Probing} {r : ℕ}

theorem Waits.refl (r : ℕ) (s : Probing) : Waits r s s := ⟨rfl,id,List.prefix_refl _⟩

theorem Waits.trans (h : Waits r s t) (h' : Waits r t u) : Waits r s u :=
  ⟨h'.pc.trans h.pc,fun hc => h'.timer (h.timer hc),h.pipe.trans h'.pipe⟩

theorem Waits.of_probes (h : t.probes r = s.probes r) : Waits r s t :=
  ⟨by rw [h],by rw [h]; exact id,h ▸ List.prefix_refl _⟩

theorem waits_table (ackHandlers : ℕ → Option ℕ) (s : Probing) :
    Waits r s { s with ackHandlers } := Waits.of_probes rfl

theorem waits_listener (listener : ListenerAt) (s : Probing) :
    Waits r s { s with listener } := Waits.of_probes rfl

theorem waits_setProbe {r' : ℕ} (h : r' ≠ r) (p : Probe) (s : Probing) :
    Waits r s (s.setProbe r' p) :=
  Waits.of_probes (by simp [setProbe,h.symm])

theorem waits_goto {r' : ℕ} (h : r' ≠ r) (pc : ProbeAt) (s : Probing) :
    Waits r s (s.goto r' pc) := waits_setProbe h _ s

theorem waits_stopTimer (h : ℕ) (s : Probing) : Waits r s (s.stopTimer h) := by
  by_cases hr : h = r
  · subst hr
    refine ⟨?_,fun hc => ?_,?_⟩ <;> simp_all [stopTimer,setProbe,TimerAt.stop]
  · exact waits_setProbe hr _ s

theorem waits_unref (h : ℕ) (s : Probing) : Waits r s (s.unref h) := by
  unfold unref
  split
  · exact Waits.refl r s
  · exact waits_stopTimer h s

theorem waits_erase (seqNo : ℕ) (s : Probing) : Waits r s (s.erase seqNo) := by
  unfold erase
  split
  · exact Waits.refl r s
  · exact (waits_table _ s).trans (waits_unref _ _)

theorem waits_writeAck (h : ℕ) (complete : Bool) (s : Probing) :
    Waits r s (s.writeAck h complete) := by
  unfold writeAck
  split
  · exact Waits.of_probes rfl
  · by_cases hr : h = r
    · subst hr
      refine ⟨?_,?_,?_⟩ <;> simp [setProbe]
    · exact waits_setProbe hr _ s

theorem waits_writeNack (h : ℕ) (s : Probing) : Waits r s (s.writeNack h) := by
  unfold writeNack
  split <;> exact Waits.of_probes rfl

theorem waits_proberStep {r' : ℕ} (hs : s.Sound) (h : r' ≠ r) (allowTcpPing didConnect : Bool) :
    Waits r s (s.proberStep allowTcpPing didConnect r') := by
  unfold proberStep
  split
  · exact Waits.refl r s
  · exact Waits.refl r s
  · exact (waits_erase _ s).trans ((waits_table _ _).trans (waits_goto h _ _))
  · unfold findHandler
    split
    · exact waits_goto h _ s
    · exact Waits.of_probes rfl
  · next h' hpc =>
    obtain rfl := (hs.good r').own h' hpc
    unfold startTimer
    split
    · exact (waits_setProbe h _ s).trans (waits_goto h _ _)
    · exact Waits.of_probes rfl
  · unfold selectAck
    split
    · exact waits_goto h _ s
    · exact waits_setProbe h _ s
    · exact waits_setProbe h _ s
  · unfold readAck
    split
    · exact Waits.refl r s
    · exact waits_setProbe h _ s
    · exact waits_setProbe h _ s
  · unfold readFallback
    split
    · exact Waits.refl r s
    · split <;> exact waits_goto h _ s
  · exact (waits_erase _ s).trans (waits_goto h _ _)
  · exact waits_goto h _ s

theorem waits_listenerStep (s : Probing) : Waits r s s.listenerStep := by
  unfold listenerStep
  split
  · exact Waits.refl r s
  · exact (waits_stopTimer _ s).trans (Waits.of_probes rfl)
  · exact (waits_writeAck _ true s).trans (Waits.of_probes rfl)
  · exact (waits_writeNack _ s).trans (Waits.of_probes rfl)
  · exact (waits_listener .idle s).trans (waits_unref _ _)

theorem waits_wake (hr : (s.probes r).timer = .cancelled) (r' : ℕ) : Waits r s (s.wake r') := by
  unfold wake
  split
  · next hsleeping =>
    refine waits_setProbe (fun h => ?_) _ s
    subst h
    cases hr.symm.trans hsleeping
  · exact Waits.refl r s

theorem waits_fire (hr : (s.probes r).timer = .cancelled) (r' : ℕ) : Waits r s (s.fire r') := by
  unfold fire
  split
  · next hdue =>
    refine (waits_setProbe (fun h => ?_) _ s).trans (waits_writeAck r' false _)
    subst h
    cases hr.symm.trans hdue
  · exact Waits.refl r s

@[simp] theorem setProbe_listener (r : ℕ) (p : Probe) (s : Probing) :
    (s.setProbe r p).listener = s.listener := rfl

@[simp] theorem goto_listener (r : ℕ) (pc : ProbeAt) (s : Probing) :
    (s.goto r pc).listener = s.listener := rfl

@[simp] theorem unref_listener (h : ℕ) (s : Probing) : (s.unref h).listener = s.listener := by
  unfold unref
  split <;> rfl

@[simp] theorem erase_listener (seqNo : ℕ) (s : Probing) :
    (s.erase seqNo).listener = s.listener := by
  unfold erase
  split <;> simp

@[simp] theorem writeAck_listener (h : ℕ) (complete : Bool) (s : Probing) :
    (s.writeAck h complete).listener = s.listener := by
  unfold writeAck
  split <;> rfl

@[simp] theorem proberStep_listener (allowTcpPing didConnect : Bool) (r : ℕ) (s : Probing) :
    (s.proberStep allowTcpPing didConnect r).listener = s.listener := by
  unfold proberStep
  split
  · rfl
  · rfl
  · simp [insertHandler]
  · unfold findHandler
    split <;> rfl
  · unfold startTimer
    split <;> rfl
  · unfold selectAck
    split <;> rfl
  · unfold readAck
    split <;> rfl
  · unfold readFallback
    split
    · rfl
    · split <;> rfl
  · simp [eraseHandler]
  · rfl

theorem Waits.arrived (h : Waits r s t) (ha : s.Arrived r) : t.Arrived r := by
  unfold Arrived Probe.Acked at ha ⊢
  rw [h.pc]
  exact ha.imp_left (Or.imp_left fun hmem => h.pipe.subset hmem)

theorem Answered.not_expired (hs : s.Sound) (ha : s.Answered r) : ¬(s.probes r).Expired := by
  intro h
  have hdone := (hs.good r).expired h
  rw [ha.timer] at hdone
  cases hdone

theorem Answered.armed (hs : s.Sound) (ha : s.Answered r) : (s.probes r).pc ≠ .insert ∧
    (s.probes r).pc ≠ .find ∧ ∀ h, (s.probes r).pc ≠ .start h := by
  have hno : (s.probes r).timer ≠ .unarmed := by
    rw [ha.timer]
    decide
  have hunarmed := (hs.good r).unarmed
  exact ⟨fun h => hno (hunarmed (.inl h)),fun h => hno (hunarmed (.inr (.inl h))),
    fun h' h => hno (hunarmed (.inr (.inr ⟨h',h⟩)))⟩

theorem Answered.leaves (htimer : (s.probes r).timer = .cancelled) {path : ExitPath}
    (hpath : path = .directAck ∨ path = .indirectAck) (hleft : (s.probes r).pc.left = 2)
    (rest : List Bool) :
    let t := s.setProbe r { s.probes r with ackPipe := rest, pc := .clear path }
    t.Answered r ∧ (s.Arrived r → t.Arrived r ∧
      (t.probes r).pc.left ≤ (s.probes r).pc.left - 1) := by
  intro t
  have hpc : (t.probes r).pc = .clear path := by simp [t,setProbe]
  have harrived : t.Arrived r := by
    rcases hpath with rfl | rfl
    · exact .inl (.inr (.inl hpc))
    · exact .inl (.inr (.inr hpc))
  refine ⟨⟨by simp [hpc],by simpa [t,setProbe] using htimer,.inr harrived⟩,fun _ => ⟨harrived,?_⟩⟩
  rw [hpc,hleft]
  exact Nat.le_refl _

/-- Its own step takes an answered call on to the end. -/
theorem Answered.own (hs : s.Sound) (ha : s.Answered r) (allowTcpPing didConnect : Bool) :
    let t := s.proberStep allowTcpPing didConnect r
    t.Answered r ∧ (s.Arrived r → t.Arrived r ∧
      (t.probes r).pc.left ≤ (s.probes r).pc.left - 1) := by
  obtain ⟨hinsert,hfind,hstart⟩ := ha.armed hs
  have hexpired := ha.not_expired hs
  obtain ⟨hbegun,htimer,hack⟩ := ha
  unfold proberStep
  split <;> rename_i hpc
  · exact absurd hpc hbegun
  · exact ⟨⟨hbegun,htimer,hack⟩,fun h => ⟨h,by simp [hpc,ProbeAt.left]⟩⟩
  · exact absurd hpc hinsert
  · exact absurd hpc hfind
  · exact absurd hpc (hstart _)
  · unfold selectAck
    cases hpipe : (s.probes r).ackPipe with
    | nil =>
      have hnone : ¬s.Arrived r := by simp [Arrived,Probe.Acked,hpc,hpipe]
      refine ⟨⟨?_,?_,.inl (hack.resolve_right hnone)⟩,fun h => absurd h hnone⟩ <;>
        simp [goto,setProbe,htimer]
    | cons complete rest =>
      cases complete with
      | false => exact absurd (.inl (by simp [hpipe])) hexpired
      | true => exact leaves htimer (by simp) (by simp [hpc,ProbeAt.left]) rest
  · unfold readAck
    cases hpipe : (s.probes r).ackPipe with
    | nil =>
      have hnone : ¬s.Arrived r := by simp [Arrived,Probe.Acked,hpc,hpipe]
      exact ⟨⟨hbegun,htimer,hack⟩,fun h => absurd h hnone⟩
    | cons complete rest =>
      cases complete with
      | false => exact absurd (.inl (by simp [hpipe])) hexpired
      | true => exact leaves htimer (by simp) (by simp [hpc,ProbeAt.left]) rest
  · exact absurd (.inr (.inl hpc)) hexpired
  · exact absurd (.inr (.inr (.inl hpc))) hexpired
  · refine ⟨⟨?_,?_,?_⟩,fun _ => ⟨?_,?_⟩⟩ <;>
      simp [clearProbePipes,goto,setProbe,htimer,Arrived,hpc,ProbeAt.left]

theorem Answered.waits (hs : s.Sound) (ha : s.Answered r) (allowTcpPing : Bool) {e : ProbeEvent}
    (he : e.isProber r = false) : Waits r s (s.step allowTcpPing e) := by
  have hrefl := Waits.refl r s
  unfold step
  rw [if_neg (by simp [hs.dead])]
  cases e with
  | probeNode r' seqNo =>
    by_cases hr : r' = r
    · subst hr
      simpa [ha.begun] using hrefl
    · dsimp only
      split
      · exact waits_setProbe hr _ s
      · exact hrefl
  | prober r' didConnect =>
    have hr : r' ≠ r := by simpa [ProbeEvent.isProber] using he
    exact waits_proberStep hs hr allowTcpPing didConnect
  | handleAck seqNo =>
    dsimp only [handleAck]
    split
    · exact Waits.of_probes rfl
    · exact hrefl
  | handleNack seqNo =>
    dsimp only [handleNack]
    split
    · exact Waits.of_probes rfl
    · exact hrefl
  | listener => exact waits_listenerStep s
  | wake r' => exact waits_wake ha.timer r'
  | fire r' => exact waits_fire ha.timer r'

theorem step_listener_of_ne (hs : s.Sound) (hl : s.listener = .ackFn r) (allowTcpPing : Bool)
    {e : ProbeEvent} (he : e ≠ .listener) : (s.step allowTcpPing e).listener = .ackFn r := by
  unfold step
  rw [if_neg (by simp [hs.dead])]
  cases e with
  | listener => exact absurd rfl he
  | prober r' didConnect => exact (proberStep_listener allowTcpPing didConnect r' s).trans hl
  | handleAck seqNo => simp only [handleAck,hl]
  | handleNack seqNo => simp only [handleNack,hl]
  | probeNode r' seqNo | wake r' | fire r' =>
    simp only [wake,fire]
    split <;> simp [hl]

theorem Sound.arrives (hs : s.Sound) (hl : s.listener = .ackFn r) (allowTcpPing : Bool) :
    (s.step allowTcpPing .listener).Arrived r := by
  have hpc : (s.probes r).pc ≠ .returned := ((hs.good r).pending (.inr (.inl hl))).1.2
  unfold Probing.step
  rw [if_neg (by simp [hs.dead])]
  simp [Probing.listenerStep,hl,writeAck,hpc,Arrived,Probe.Acked,Probing.setProbe]

theorem step_prober (hs : s.Sound) (allowTcpPing didConnect : Bool) (r : ℕ) :
    s.step allowTcpPing (.prober r didConnect) = s.proberStep allowTcpPing didConnect r := by
  unfold Probing.step
  rw [if_neg (by simp [hs.dead])]

theorem Answered.step (hs : s.Sound) (ha : s.Answered r) (allowTcpPing : Bool) (e : ProbeEvent) :
    (s.step allowTcpPing e).Answered r := by
  cases he : e.isProber r with
  | true =>
    cases e with
    | prober r' didConnect =>
      obtain rfl : r' = r := by simpa [ProbeEvent.isProber] using he
      rw [step_prober hs]
      exact (ha.own hs allowTcpPing didConnect).1
    | _ => cases he
  | false =>
    have hw := ha.waits hs allowTcpPing he
    refine ⟨by rw [hw.pc]; exact ha.begun,hw.timer ha.timer,?_⟩
    rcases ha.ack with hl | harrived
    · by_cases hlistener : e = .listener
      · subst hlistener
        exact .inr (hs.arrives hl allowTcpPing)
      · exact .inl (step_listener_of_ne hs hl allowTcpPing hlistener)
    · exact .inr (hw.arrived harrived)

/-- Each of its own steps brings a call whose ack has arrived nearer to the end. -/
theorem Answered.arrived_step (hs : s.Sound) (ha : s.Answered r) (harrived : s.Arrived r)
    (allowTcpPing : Bool) (e : ProbeEvent) : (s.step allowTcpPing e).Arrived r ∧
      ((s.step allowTcpPing e).probes r).pc.left ≤
        (s.probes r).pc.left - (e.isProber r).toNat := by
  cases he : e.isProber r with
  | true =>
    cases e with
    | prober r' didConnect =>
      obtain rfl : r' = r := by simpa [ProbeEvent.isProber] using he
      rw [step_prober hs]
      exact (ha.own hs allowTcpPing didConnect).2 harrived
    | _ => cases he
  | false =>
    have hw := ha.waits hs allowTcpPing he
    exact ⟨hw.arrived harrived,by rw [hw.pc]; exact Nat.le_refl _⟩

theorem Answered.returned (hs : s.Sound) (ha : s.Answered r)
    (hleft : (s.probes r).pc.left = 0) : (s.probes r).pc = .returned := by
  obtain ⟨hinsert,hfind,hstart⟩ := ha.armed hs
  have hexpired := ha.not_expired hs
  have hbegun := ha.begun
  cases hpc : (s.probes r).pc <;> simp_all [ProbeAt.left,Probe.Expired]

section Runs

variable {allowTcpPing : Bool} {evs : List ProbeEvent}

theorem Answered.arrives (hs : s.Sound) (ha : s.Answered r) :
    (s.step allowTcpPing .listener).Arrived r := by
  rcases ha.ack with hl | harrived
  · exact hs.arrives hl allowTcpPing
  · exact (ha.arrived_step hs harrived allowTcpPing .listener).1

end Runs

end Probing
end GossipMemberlist
