import GossipMemberlist.Library.Transitions
import GossipMemberlist.Library.WrapCounter
import Mathlib.Logic.Function.Basic
import Mathlib.Tactic.SplitIfs

/-!
# Sequence numbers

`nextSeqNum` adds one to an atomic counter and then reads it, in two steps. The
probe timer and the handler of indirect pings call it in any number of threads,
and the number that a call returns is the key of its entry in `ackHandlers`.
-/

namespace GossipMemberlist

/-- Where a call is: before its `fetch_add`, between that and its `load`, back with a number,
waiting for an ack under that number, or no longer. -/
inductive SeqStage
  | idle | added | returned (v : ℕ) | waiting (v : ℕ) | settled (v : ℕ)
  deriving DecidableEq

namespace SeqStage

def number : SeqStage → Option ℕ
  | .idle | .added => none
  | .returned v | .waiting v | .settled v => some v

end SeqStage

/-- `ackHandlers` maps a number to the call whose handler is filed under it. -/
structure Sequencing where
  sequenceNum : WrapCounter 32
  stage : ℕ → SeqStage
  ackHandlers : ℕ → Option ℕ

namespace Sequencing

inductive Event
  | add (c : ℕ)
  | load (c : ℕ)
  /-- `setProbePipes` or `setAckHandler` with the number of the call. -/
  | setHandler (c : ℕ)
  /-- The ack for the number of the call, or its expiry. -/
  | settle (c : ℕ)

def start : Sequencing := ⟨.zero,fun _ => .idle,fun _ => none⟩

def moved (c : ℕ) (x : SeqStage) (s : Sequencing) : Sequencing :=
  { s with stage := Function.update s.stage c x }

def step (s : Sequencing) : Event → Sequencing
  | .add c =>
    if s.stage c = .idle then { s.moved c .added with sequenceNum := s.sequenceNum.fetchAdd 1 }
    else s
  | .load c => if s.stage c = .added then s.moved c (.returned s.sequenceNum.load) else s
  | .setHandler c =>
    match s.stage c with
    | .returned v =>
      { s.moved c (.waiting v) with ackHandlers := Function.update s.ackHandlers v (some c) }
    | _ => s
  | .settle c =>
    match s.stage c with
    | .waiting v =>
      { s.moved c (.settled v) with ackHandlers := Function.update s.ackHandlers v none }
    | _ => s

def begun : List Event → ℕ
  | [] => 0
  | .add _::evs => begun evs + 1
  | _::evs => begun evs

/-- No call adds while another is between its two steps. -/
def Undisturbed (s : Sequencing) : Event → Prop
  | .add c => s.stage c = .idle → ∀ d, s.stage d ≠ .added
  | _ => True

/-- No two calls have the same number, and who waits for an ack finds its own entry. -/
structure Unshared (s : Sequencing) : Prop where
  distinct : ∀ c d v, (s.stage c).number = some v → (s.stage d).number = some v → c = d
  own : ∀ c v, s.stage c = .waiting v → s.ackHandlers v = some c

theorem begun_append (evs evs' : List Event) : begun (evs ++ evs') = begun evs + begun evs' := by
  induction evs with
  | nil => simp [begun]
  | cons e evs ih => cases e <;> simp [begun,ih,Nat.add_right_comm]

/-- A number that was returned is behind the counter as long as a call has to read it. -/
structure Inv (s : Sequencing) : Prop extends s.Unshared where
  small : s.sequenceNum.total < 2 ^ 32
  single : ∀ c d, s.stage c = .added → s.stage d = .added → c = d
  below : ∀ c v, (s.stage c).number = some v →
    v ≤ s.sequenceNum.total ∧ ∀ d, s.stage d = .added → v < s.sequenceNum.total

theorem Inv.start : start.Inv :=
  ⟨⟨by simp [Sequencing.start,SeqStage.number],by simp [Sequencing.start]⟩,by decide,
    by simp [Sequencing.start],by simp [Sequencing.start,SeqStage.number]⟩

variable {s : Sequencing}

theorem Inv.add (hs : s.Inv) (c : ℕ) (hG : ∀ d, s.stage d ≠ .added)
    (hsmall : s.sequenceNum.total + 1 < 2 ^ 32) :
    Inv { s.moved c .added with sequenceNum := s.sequenceNum.fetchAdd 1 } := by
  have hnum : ∀ d v, (Function.update s.stage c .added d).number = some v →
      (s.stage d).number = some v := fun d v h => by
    by_cases hd : d = c
    · simp [hd,SeqStage.number] at h
    · rwa [Function.update_of_ne hd] at h
  have hadded : ∀ d, Function.update s.stage c .added d = .added → d = c := fun d h => by
    by_contra hd
    rw [Function.update_of_ne hd] at h
    exact hG d h
  have htotal : (s.sequenceNum.fetchAdd 1).total = s.sequenceNum.total + 1 := rfl
  refine ⟨⟨fun d e v hd he => hs.distinct d e v (hnum d v hd) (hnum e v he),fun d v hd => ?_⟩,
    hsmall,fun d e hd he => (hadded d hd).trans (hadded e he).symm,fun d v hd => ?_⟩
  · by_cases hdc : d = c
    · simp [moved,hdc] at hd
    · simp only [moved,Function.update_of_ne hdc] at hd
      exact hs.own d v hd
  · have hle := (hs.below d v (hnum d v hd)).1
    simp only [htotal]
    exact ⟨by omega,fun _ _ => by omega⟩

theorem Inv.load (hs : s.Inv) {c : ℕ} (hc : s.stage c = .added) :
    (s.moved c (.returned s.sequenceNum.load)).Inv := by
  have hload := WrapCounter.load_eq hs.small
  have hnum : ∀ d v, (Function.update s.stage c (.returned s.sequenceNum.load) d).number = some v →
      d = c ∧ v = s.sequenceNum.total ∨ (s.stage d).number = some v ∧ v < s.sequenceNum.total := by
    intro d v h
    by_cases hd : d = c
    · subst hd
      rw [Function.update_self,SeqStage.number,hload] at h
      exact Or.inl ⟨rfl,(Option.some.inj h).symm⟩
    · rw [Function.update_of_ne hd] at h
      exact Or.inr ⟨h,(hs.below d v h).2 c hc⟩
  have hadded : ∀ d, Function.update s.stage c (.returned s.sequenceNum.load) d ≠ .added := by
    intro d h
    by_cases hd : d = c
    · simp [hd] at h
    · rw [Function.update_of_ne hd] at h
      exact hd (hs.single d c h hc)
  refine ⟨⟨fun d e v hd he => ?_,fun d v hd => ?_⟩,hs.small,
    fun d _ hd _ => absurd hd (hadded d),fun d v hd => ?_⟩
  · rcases hnum d v hd with ⟨rfl,h₁⟩ | ⟨hd,h₁⟩ <;> rcases hnum e v he with ⟨rfl,h₂⟩ | ⟨he,h₂⟩
    · rfl
    · omega
    · omega
    · exact hs.distinct d e v hd he
  · by_cases hdc : d = c
    · simp [moved,hdc] at hd
    · simp only [moved,Function.update_of_ne hdc] at hd
      exact hs.own d v hd
  · refine ⟨?_,fun e he => absurd he (hadded e)⟩
    rcases hnum d v hd with ⟨-,h⟩ | ⟨-,h⟩ <;> simp only [moved] <;> omega

theorem Inv.refile (hs : s.Inv) {c v : ℕ} {x : SeqStage} (hc : (s.stage c).number = some v)
    (hx : x.number = some v) (o : Option ℕ) (ho : ∀ w, x = .waiting w → o = some c) :
    Inv { s.moved c x with ackHandlers := Function.update s.ackHandlers v o } := by
  have hnum : ∀ d, (Function.update s.stage c x d).number = (s.stage d).number := fun d => by
    by_cases hd : d = c
    · rw [hd,Function.update_self,hc,hx]
    · rw [Function.update_of_ne hd]
  have hadded : ∀ d, Function.update s.stage c x d = .added → s.stage d = .added := fun d h => by
    by_cases hd : d = c
    · subst hd
      rw [Function.update_self] at h
      simp [h,SeqStage.number] at hx
    · rwa [Function.update_of_ne hd] at h
  refine ⟨⟨fun d e w hd he => ?_,fun d w hd => ?_⟩,hs.small,
    fun d e hd he => hs.single d e (hadded d hd) (hadded e he),fun d w hd => ?_⟩
  · exact hs.distinct d e w (hnum d ▸ hd) (hnum e ▸ he)
  · have hw : (s.stage d).number = some w := by
      rw [← hnum d]
      exact congrArg SeqStage.number hd
    by_cases hdc : d = c
    · subst hdc
      obtain rfl : v = w := Option.some.inj (hc.symm.trans hw)
      simp only [moved,Function.update_self] at hd ⊢
      exact ho v hd
    · have hne : w ≠ v := fun h => hdc (hs.distinct d c v (h ▸ hw) hc)
      simp only [moved,Function.update_of_ne hdc] at hd
      simp only [Function.update_of_ne hne]
      exact hs.own d w hd
  · obtain ⟨h₁,h₂⟩ := hs.below d w (hnum d ▸ hd)
    exact ⟨h₁,fun e he => h₂ e (hadded e he)⟩

theorem Inv.step (hs : s.Inv) {e : Event} (hG : s.Undisturbed e)
    (hsmall : s.sequenceNum.total + begun [e] < 2 ^ 32) : (s.step e).Inv := by
  cases e with
  | add c =>
    simp only [Sequencing.step]
    split
    · rename_i hc
      exact hs.add c (hG hc) hsmall
    · exact hs
  | load c =>
    simp only [Sequencing.step]
    split
    · rename_i hc
      exact hs.load hc
    · exact hs
  | setHandler c =>
    simp only [Sequencing.step]
    split
    · rename_i v hc
      exact hs.refile (by rw [hc]; rfl) rfl _ fun _ _ => rfl
    · exact hs
  | settle c =>
    simp only [Sequencing.step]
    split
    · rename_i v hc
      exact hs.refile (by rw [hc]; rfl) rfl _ fun w hw => by cases hw
    · exact hs

theorem step_total (s : Sequencing) (e : Event) :
    (s.step e).sequenceNum.total ≤ s.sequenceNum.total + begun [e] := by
  cases e with
  | add c =>
    simp only [step]
    split
    · exact le_refl _
    · exact Nat.le_add_right _ _
  | _ =>
    simp only [step]
    split <;> exact le_refl _

/-- Calls that take their two steps without another call's add in between return numbers of
their own. -/
theorem nextSeqNum_distinct (evs : List Event) (hcount : begun evs < 2 ^ 32)
    (hG : Transitions.Along step Undisturbed start evs) :
    (Transitions.run step start evs).Unshared := by
  have h := hG.history (P := fun evs s => s.sequenceNum.total ≤ begun evs ∧
    (begun evs < 2 ^ 32 → s.Inv)) ⟨le_refl _,fun _ => Inv.start⟩ fun evs e he ih => by
      rw [begun_append]
      have ht := step_total (Transitions.run step start evs) e
      exact ⟨by omega,fun hlt => (ih.2 (by omega)).step he (by omega)⟩
  exact (h.2 hcount).toUnshared

/-- Two calls one after the other. -/
theorem nextSeqNum_distinct_two :
    (Transitions.run step start
      [.add 0,.load 0,.setHandler 0,.add 1,.load 1,.setHandler 1]).Unshared :=
  nextSeqNum_distinct _ (by decide)
    ⟨fun _ d => by simp [start],trivial,trivial,fun _ d => by
      by_cases hd : d = 0 <;> simp [step,start,moved,hd],trivial,trivial,trivial⟩

/-- Two calls that both add before either reads get the same number, and the second files its
handler over that of the first. -/
theorem nextSeqNum_shared :
    let s := Transitions.run step start
      [.add 0,.add 1,.load 0,.load 1,.setHandler 0,.setHandler 1]
    ¬s.Unshared ∧ s.stage 0 = .waiting 2 ∧ s.stage 1 = .waiting 2 ∧ s.ackHandlers 2 = some 1 := by
  intro s
  have h₀ : s.stage 0 = .waiting 2 := by decide
  have h₁ : s.stage 1 = .waiting 2 := by decide
  refine ⟨fun h => ?_,h₀,h₁,by decide⟩
  exact absurd (h.distinct 0 1 2 (by rw [h₀]; rfl) (by rw [h₁]; rfl)) (by decide)

end Sequencing
end GossipMemberlist
