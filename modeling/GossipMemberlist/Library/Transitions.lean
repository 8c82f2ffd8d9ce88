import Mathlib.Data.List.Induction
import Mathlib.Order.Basic

/-!
# Runs of deterministic machines

A machine is a total function `step`. Every choice the environment makes (the
scheduler, the clock, the random numbers, the network) is part of the event, so
a list of events determines a run. An event that is not enabled leaves the state
as it is.
-/

namespace Transitions

variable {σ ε : Type*} (step : σ → ε → σ)

def run (s : σ) (evs : List ε) : σ := evs.foldl step s

@[simp] theorem run_nil (s : σ) : run step s [] = s := rfl

@[simp] theorem run_cons (s : σ) (e : ε) (evs : List ε) :
    run step s (e::evs) = run step (step s e) evs := rfl

theorem run_append (s : σ) (evs evs' : List ε) :
    run step s (evs ++ evs') = run step (run step s evs) evs' := by
  simp [run]

theorem run_snoc (s : σ) (evs : List ε) (e : ε) :
    run step s (evs ++ [e]) = step (run step s evs) e := by
  simp [run]

variable {step}

theorem run_invariant {P : σ → Prop} {s : σ} (h₀ : P s)
    (hstep : ∀ s e, P s → P (step s e)) (evs : List ε) : P (run step s evs) := by
  induction evs generalizing s with
  | nil => exact h₀
  | cons e evs ih => exact ih (hstep s e h₀)

theorem run_history {P : List ε → σ → Prop} {s : σ} (h₀ : P [] s)
    (hstep : ∀ evs e, P evs (run step s evs) → P (evs ++ [e]) (step (run step s evs) e))
    (evs : List ε) : P evs (run step s evs) := by
  induction evs using List.reverseRecOn with
  | nil => exact h₀
  | append_singleton evs e ih =>
    rw [run_snoc]
    exact hstep evs e ih

theorem run_mono {β : Type*} [Preorder β] {f : σ → β} (hstep : ∀ s e, f s ≤ f (step s e))
    (s : σ) (evs : List ε) : f s ≤ f (run step s evs) := by
  induction evs generalizing s with
  | nil => exact le_refl _
  | cons e evs ih => exact (hstep s e).trans (ih _)

variable (step)

def CanReach (Q : σ → Prop) (s : σ) : Prop := ∃ evs, Q (run step s evs)

variable {step}

theorem CanReach.here {Q : σ → Prop} {s : σ} (h : Q s) : CanReach step Q s := ⟨[],h⟩

theorem CanReach.after {Q : σ → Prop} {s : σ} (e : ε) (h : CanReach step Q (step s e)) :
    CanReach step Q s := by
  obtain ⟨evs,h⟩ := h
  exact ⟨e::evs,h⟩

variable (step)

/-- How many steps of the run that starts in `s` have the property `p`. -/
def tally (p : σ → ε → Bool) : σ → List ε → ℕ
  | _, [] => 0
  | s, e::evs => (p s e).toNat + tally p (step s e) evs

@[simp] theorem tally_nil (p : σ → ε → Bool) (s : σ) : tally step p s [] = 0 := rfl

theorem tally_snoc (p : σ → ε → Bool) (s : σ) (evs : List ε) (e : ε) :
    tally step p s (evs ++ [e]) = tally step p s evs + (p (run step s evs) e).toNat := by
  induction evs generalizing s with
  | nil => simp [tally]
  | cons e' evs ih => simp only [List.cons_append,tally,ih,run_cons,Nat.add_assoc]

def Along (G : σ → ε → Prop) : σ → List ε → Prop
  | _, [] => True
  | s, e::evs => G s e ∧ Along G (step s e) evs

variable {step}

@[simp] theorem along_nil {G : σ → ε → Prop} {s : σ} : Along step G s [] := trivial

@[simp] theorem along_cons {G : σ → ε → Prop} {s : σ} {e : ε} {evs : List ε} :
    Along step G s (e::evs) ↔ G s e ∧ Along step G (step s e) evs := Iff.rfl

theorem along_append {G : σ → ε → Prop} {s : σ} {evs evs' : List ε} :
    Along step G s (evs ++ evs') ↔ Along step G s evs ∧ Along step G (run step s evs) evs' := by
  induction evs generalizing s with
  | nil => simp
  | cons e evs ih => simp only [List.cons_append,along_cons,run_cons,ih,and_assoc]

instance Along.decidable {G : σ → ε → Prop} [∀ s e, Decidable (G s e)] :
    ∀ s evs, Decidable (Along step G s evs)
  | _, [] => isTrue trivial
  | s, e::evs =>
    haveI : Decidable (Along step G (step s e) evs) := Along.decidable _ evs
    inferInstanceAs (Decidable (G s e ∧ Along step G (step s e) evs))

theorem Along.invariant {G : σ → ε → Prop} {P : σ → Prop} {s : σ} {evs : List ε}
    (hG : Along step G s evs) (h₀ : P s) (hstep : ∀ s e, G s e → P s → P (step s e)) :
    P (run step s evs) := by
  induction evs generalizing s with
  | nil => exact h₀
  | cons e evs ih => exact ih hG.2 (hstep s e hG.1 h₀)

theorem Along.imp {G Q : σ → ε → Prop} {P : σ → Prop} {s : σ} {evs : List ε}
    (hG : Along step G s evs) (h₀ : P s) (hstep : ∀ s e, G s e → P s → P (step s e))
    (hQ : ∀ s e, G s e → P s → Q s e) : Along step Q s evs := by
  induction evs generalizing s with
  | nil => trivial
  | cons e evs ih => exact ⟨hQ s e hG.1 h₀,ih hG.2 (hstep s e hG.1 h₀)⟩

theorem Along.history {G : σ → ε → Prop} {P : List ε → σ → Prop} {s : σ} {evs : List ε}
    (hG : Along step G s evs) (h₀ : P [] s)
    (hstep : ∀ evs e, G (run step s evs) e → P evs (run step s evs) →
      P (evs ++ [e]) (step (run step s evs) e)) : P evs (run step s evs) := by
  induction evs using List.reverseRecOn with
  | nil => exact h₀
  | append_singleton evs e ih =>
    obtain ⟨hevs,he,-⟩ := along_append.mp hG
    rw [run_snoc]
    exact hstep evs e he (ih hevs)

/-- A condition on steps is exact when it keeps an invariant, and a step that does not meet it
leads out of what the invariant promises. -/
theorem always_iff_along {G : σ → ε → Prop} {P Q : σ → Prop} {s : σ} {evs : List ε} (h₀ : P s)
    (hstep : ∀ s e, G s e → P s → P (step s e)) (hQ : ∀ s, P s → Q s)
    (hexact : ∀ s e, P s → ¬G s e → ¬Q (step s e)) :
    (∀ evs', evs' <+: evs → Q (run step s evs')) ↔ Along step G s evs := by
  constructor
  · intro h
    induction evs generalizing s with
    | nil => trivial
    | cons e evs ih =>
      have he : G s e := by
        by_contra hno
        exact hexact s e h₀ hno (h [e] (by simp))
      refine ⟨he,ih (hstep s e he h₀) fun evs' hpre => ?_⟩
      exact h (e::evs') (List.cons_prefix_cons.mpr ⟨rfl,hpre⟩)
  · rintro hG _ ⟨rest,rfl⟩
    exact hQ _ ((along_append.mp hG).1.invariant h₀ hstep)

variable (step)

def Happens (G : σ → ε → Prop) : σ → List ε → Prop
  | _, [] => False
  | s, e::evs => G s e ∨ Happens G (step s e) evs

variable {step}

theorem happens_snoc {G : σ → ε → Prop} {s : σ} {evs : List ε} {e : ε} :
    Happens step G s (evs ++ [e]) ↔ Happens step G s evs ∨ G (run step s evs) e := by
  induction evs generalizing s with
  | nil => simp [Happens]
  | cons e' evs ih => simp only [List.cons_append,Happens,ih,run_cons,or_assoc]

theorem Happens.split {G : σ → ε → Prop} {s : σ} {evs : List ε} (h : Happens step G s evs) :
    ∃ pre e post, evs = pre ++ e::post ∧ G (run step s pre) e := by
  induction evs generalizing s with
  | nil => exact h.elim
  | cons e evs ih =>
    rcases h with h | h
    · exact ⟨[],e,evs,rfl,h⟩
    · obtain ⟨pre,e',post,rfl,hG⟩ := ih h
      exact ⟨e::pre,e',post,rfl,hG⟩

theorem Along.not_happens {G F : σ → ε → Prop} {s : σ} {evs : List ε} (hG : Along step G s evs)
    (hF : ∀ s e, G s e → ¬F s e) : ¬Happens step F s evs := by
  induction evs generalizing s with
  | nil => exact id
  | cons e evs ih => exact not_or.mpr ⟨hF s e hG.1,ih hG.2⟩

theorem tally_append (p : σ → ε → Bool) (s : σ) (evs evs' : List ε) :
    tally step p s (evs ++ evs') = tally step p s evs + tally step p (run step s evs) evs' := by
  induction evs generalizing s with
  | nil => simp [tally]
  | cons e evs ih => simp only [List.cons_append,tally,ih,run_cons,Nat.add_assoc]

theorem Along.tally_balance {G : σ → ε → Prop} {s : σ} {evs : List ε} (hG : Along step G s evs)
    (begun done : σ → ε → Bool) (pending : σ → ℕ) (hstep : ∀ s e, G s e →
      (done s e).toNat + pending (step s e) = (begun s e).toNat + pending s) :
    tally step done s evs + pending (run step s evs) = tally step begun s evs + pending s := by
  induction evs generalizing s with
  | nil => simp [tally]
  | cons e evs ih =>
    have h₁ := hstep s e hG.1
    have h₂ := ih hG.2
    simp only [tally,run_cons] at h₂ ⊢
    omega

section Simulation

variable {τ μ : Type*} (step' : τ → μ → τ) (abs : σ → τ) (moves : σ → ε → List μ)

variable (step) in
/-- What a run amounts to on another machine, where a step is any number of moves. -/
def trace : σ → List ε → List μ
  | _, [] => []
  | s, e::evs => moves s e ++ trace (step s e) evs

variable {moves} in

theorem mem_trace {s : σ} {evs : List ε} {v : μ} (h : v ∈ trace step moves s evs) :
    Happens step (fun s e => v ∈ moves s e) s evs := by
  induction evs generalizing s with
  | nil => cases h
  | cons e evs ih => exact (List.mem_append.mp h).imp_right ih

/-- If every step is what its moves make of the abstract state, so is every run, and
an event of the one machine happens as often as its counterpart in the other. -/
theorem Along.simulates {G : σ → ε → Prop} {I : σ → Prop} {s : σ} {evs : List ε}
    (hG : Along step G s evs) (h₀ : I s) (hI : ∀ s e, G s e → I s → I (step s e))
    (hstep : ∀ s e, G s e → I s → run step' (abs s) (moves s e) = abs (step s e)) :
    run step' (abs s) (trace step moves s evs) = abs (run step s evs) ∧
      ∀ (q : τ → μ → Bool) (p : σ → ε → Bool),
        (∀ s e, G s e → I s → tally step' q (abs s) (moves s e) = (p s e).toNat) →
        tally step' q (abs s) (trace step moves s evs) = tally step p s evs := by
  induction evs generalizing s with
  | nil => exact ⟨rfl,fun _ _ _ => rfl⟩
  | cons e evs ih =>
    obtain ⟨hrun,htally⟩ := ih hG.2 (hI s e hG.1 h₀)
    have h := hstep s e hG.1 h₀
    constructor
    · rw [trace,run_append,h,hrun]
      rfl
    · intro q p hq
      rw [trace,tally_append,h,htally q p hq,hq s e hG.1 h₀]
      rfl

end Simulation

end Transitions
