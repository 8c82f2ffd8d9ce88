import GossipMemberlist.Confirmations
import Mathlib.Analysis.SpecialFunctions.Log.Basic
import Mathlib.Tactic.Linarith

/-!
# The countdown of a suspicion

The thread of a `onceTimer` sleeps, calls the callback and clears `running`. An
accepted confirmation stops the timer and starts it again with what remains, or
calls the callback itself. `pthread_cancel` ends a sleeping thread, but does not
hold back one that is past its sleep.
-/

namespace GossipMemberlist

noncomputable def truncate (x : ℝ) : ℤ := if 0 ≤ x then ⌊x⌋ else ⌈x⌉

/-- The logarithms of `remainingSuspicionTime` are exact; for `k = 0` it divides by zero. -/
def Floats.Exact (fl : Floats) : Prop :=
  ∀ (n k : ℕ) (min max : ℤ), 1 ≤ k → fl.confirmTimeout n k min max =
    truncate (max - Real.log (n + 1) / Real.log (k + 1) * (max - min))

noncomputable def Floats.exact : Floats :=
  { Floats.small with
    confirmTimeout := fun n k min max =>
      if k = 0 then -2 ^ 63
      else truncate (max - Real.log (n + 1) / Real.log (k + 1) * (max - min)) }

theorem Floats.exact_exact : Floats.exact.Exact := fun _ _ _ _ hk => if_neg (by omega)

theorem truncate_mono {x y : ℝ} (h : x ≤ y) : truncate x ≤ truncate y := by
  unfold truncate
  split_ifs with hx hy hy
  · exact Int.floor_le_floor h
  · exact absurd (hx.trans h) hy
  · exact (Int.ceil_le.mpr (by push_cast; linarith)).trans (Int.floor_nonneg.mpr hy)
  · exact Int.ceil_le_ceil h

@[simp] theorem truncate_intCast (m : ℤ) : truncate m = m := by
  simp [truncate]

theorem log_pos_of_one_le {k : ℕ} (hk : 1 ≤ k) : 0 < Real.log (k + 1) := by
  refine Real.log_pos ?_
  have : (1 : ℝ) ≤ k := by exact_mod_cast hk
  linarith

section Timeout

variable {fl : Floats} (hfl : fl.Exact) {k : ℕ} (hk : 1 ≤ k) {min max : ℤ}
include hfl hk

theorem confirmTimeout_zero : fl.confirmTimeout 0 k min max = max := by
  rw [hfl 0 k min max hk]
  simp

theorem confirmTimeout_full : fl.confirmTimeout k k min max = min := by
  rw [hfl k k min max hk,div_self (log_pos_of_one_le hk).ne']
  simp

theorem confirmTimeout_anti (hspan : min ≤ max) {n n' : ℕ} (h : n ≤ n') :
    fl.confirmTimeout n' k min max ≤ fl.confirmTimeout n k min max := by
  rw [hfl n' k min max hk,hfl n k min max hk]
  refine truncate_mono ?_
  have hlog : Real.log (n + 1) ≤ Real.log (n' + 1) :=
    Real.log_le_log (by positivity) (by exact_mod_cast Nat.succ_le_succ h)
  have hfrac := div_le_div_of_nonneg_right hlog (log_pos_of_one_le hk).le
  have hspan' : (0 : ℝ) ≤ max - min := by exact_mod_cast Int.sub_nonneg_of_le hspan
  have := mul_le_mul_of_nonneg_right hfrac hspan'
  linarith

theorem le_confirmTimeout (hspan : min ≤ max) {n : ℕ} (h : n ≤ k ∨ min = max) :
    min ≤ fl.confirmTimeout n k min max := by
  rcases h with h | rfl
  · exact (confirmTimeout_full hfl hk).ge.trans (confirmTimeout_anti hfl hk hspan h)
  · rw [hfl n k min min hk]
    simp

theorem confirmTimeout_le (hspan : min ≤ max) (n : ℕ) : fl.confirmTimeout n k min max ≤ max :=
  (confirmTimeout_anti hfl hk hspan (Nat.zero_le n)).trans (confirmTimeout_zero hfl hk).le

end Timeout

inductive Runner
  | asleep | awake | inTask | ended
  deriving DecidableEq

/-- `due` is the instant at which the callback is due, and `fired` are the readings of the
clock at which it was started. -/
structure Countdown where
  t : Suspicion
  clock : ℤ
  due : ℤ
  runner : Runner
  fired : List ℤ

namespace Countdown

inductive Event
  | tick (d : ℕ)
  | confirm (from_ : String)
  | wake
  | call
  | finish

def start (from_ : String) (k : ℕ) (min max now : ℤ) (f : Callback) : Countdown :=
  ⟨.new from_ k min max now f,now,now + (Suspicion.new from_ k min max now f).timeinterval,
    .asleep,[]⟩

def confirm (fl : Floats) (from_ : String) (c : Countdown) : Countdown :=
  let r := c.t.confirm fl c.clock from_
  match r.2 with
  | .refused => c
  | .counted =>
    if c.t.running then
      { c with t := r.1, due := c.clock + r.1.timeinterval, runner := .asleep }
    else { c with t := r.1 }
  | .callsBack =>
    { c with
      t := r.1
      due := c.clock + r.1.remainingSuspicionTime fl c.clock
      -- only a thread that sleeps is at a cancellation point
      runner := if c.runner = .asleep then .ended else c.runner
      fired := c.fired ++ [c.clock] }

def step (fl : Floats) (c : Countdown) : Event → Countdown
  | .tick d => { c with clock := c.clock + d }
  | .confirm from_ => c.confirm fl from_
  | .wake => if c.runner = .asleep ∧ c.due ≤ c.clock then { c with runner := .awake } else c
  | .call =>
    if c.runner = .awake then { c with runner := .inTask, fired := c.fired ++ [c.clock] } else c
  | .finish =>
    if c.runner = .inTask then { c with t := { c.t with running := false }, runner := .ended }
    else c

/-- What is left of the window is an `int64_t` at either end. -/
def Fits (c : Countdown) : Prop :=
  -2 ^ 63 ≤ c.t.start + c.t.min - c.clock ∧ c.t.start + c.t.max - c.clock < 2 ^ 63

/-- A confirmation that is not refused finds the timer at its end, or its thread asleep and
fewer names counted than wanted, at a time from which the window can be measured. -/
def Orderly (c : Countdown) : Event → Prop
  | .confirm from_ => c.t.n ≤ c.t.k → from_ ∉ c.t.confirmations → c.t.running = true →
      c.runner = .asleep ∧ (c.t.n < c.t.k ∨ 1 ≤ c.t.k ∧ c.t.min = c.t.max) ∧ c.Fits
  | _ => True

/-- The callback is due within the window, and started once at most, not before it is due. -/
structure Window (c : Countdown) : Prop where
  after : c.t.start + c.t.min ≤ c.due
  before : c.due ≤ c.t.start + c.t.max
  once : c.fired.length ≤ 1
  late : ∀ x ∈ c.fired, c.due ≤ x

/-- No step moves the due instant later, and an accepted confirmation that finds the new one
past starts the callback at once. -/
def Prompt (fl : Floats) (c : Countdown) (e : Event) : Prop :=
  (step fl c e).due ≤ c.due ∧ ∀ from_, e = .confirm from_ → c.t.n ≤ c.t.k →
    from_ ∉ c.t.confirmations → c.t.running = true →
      if (step fl c e).due ≤ c.clock then (step fl c e).fired = c.fired ++ [c.clock]
      else (step fl c e).fired = c.fired ∧ (step fl c e).runner = .asleep

variable {fl : Floats} {c : Countdown}

/-- A confirmation is refused, or counted, and then it restarts the timer with the rest of the
new timeout, or finds that nothing is left, or finds no timer. -/
theorem confirm_cases (fl : Floats) (from_ : String) (c : Countdown) :
    ((c.t.k < c.t.n ∨ from_ ∈ c.t.confirmations) ∧ c.confirm fl from_ = c) ∨
    c.t.n ≤ c.t.k ∧ from_ ∉ c.t.confirmations ∧
      let remain := (c.t.count from_).remainingSuspicionTime fl c.clock
      let t := { c.t with confirmations := from_::c.t.confirmations, n := c.t.n + 1 }
      (c.t.running = false ∧ c.confirm fl from_ = { c with t }) ∨
      (c.t.running = true ∧ 0 < remain ∧ c.confirm fl from_ =
        { c with
          t := { t with timeinterval := remain }, due := c.clock + remain, runner := .asleep }) ∨
      c.t.running = true ∧ remain ≤ 0 ∧ c.confirm fl from_ =
        { c with
          t := { t with running := false }
          due := c.clock + remain
          runner := if c.runner = .asleep then .ended else c.runner
          fired := c.fired ++ [c.clock] } := by
  rcases Suspicion.confirm_cases fl c.clock from_ c.t with
    ⟨hwhy,he⟩ | ⟨⟨hle,hx⟩,⟨hr,he⟩ | ⟨hr,hpos,he⟩ | ⟨hr,hneg,he⟩⟩
  · exact Or.inl ⟨hwhy,by simp only [confirm,he]⟩
  · exact Or.inr ⟨hle,hx,Or.inl ⟨hr,by simp [confirm,he,hr,Suspicion.count]⟩⟩
  · refine Or.inr ⟨hle,hx,Or.inr (Or.inl ⟨hr,hpos,?_⟩)⟩
    simp only [confirm,he,hr,if_true,Suspicion.count]
  · refine Or.inr ⟨hle,hx,Or.inr (Or.inr ⟨hr,hneg,?_⟩)⟩
    simp only [confirm,he]
    rfl

theorem Fits.remain (h : c.Fits) {from_ : String}
    (hlow : c.t.min ≤ fl.confirmTimeout (c.t.n + 1) c.t.k c.t.min c.t.max)
    (hhigh : fl.confirmTimeout (c.t.n + 1) c.t.k c.t.min c.t.max ≤ c.t.max) :
    (c.t.count from_).remainingSuspicionTime fl c.clock =
      c.t.start + fl.confirmTimeout (c.t.n + 1) c.t.k c.t.min c.t.max - c.clock := by
  obtain ⟨hmin,hmax⟩ := h
  rw [Suspicion.remainingSuspicionTime_eq (by simp only [Suspicion.count]; omega)
    (by simp only [Suspicion.count]; omega)]
  simp only [Suspicion.count]
  omega

/-- While the timer runs its thread is asleep or past its sleep, and the callback is due when
the timeout for the names counted so far ends. -/
structure Inv (fl : Floats) (c : Countdown) : Prop extends c.Window where
  span : c.t.min ≤ c.t.max
  armed : c.t.running = true → 1 ≤ c.t.k →
    c.due = c.t.start + fl.confirmTimeout c.t.n c.t.k c.t.min c.t.max
  asleep : c.runner = .asleep → c.t.running = true ∧ c.fired = []
  awake : c.runner = .awake → c.t.running = true ∧ c.fired = [] ∧ c.due ≤ c.clock
  ended : c.runner = .ended → c.t.running = false

theorem Inv.start (hfl : fl.Exact) (from_ : String) (k : ℕ) {min max : ℤ} (hspan : min ≤ max)
    (now : ℤ) (f : Callback) : (start from_ k min max now f).Inv fl where
  after := by
    simp only [Countdown.start,Suspicion.new]
    split <;> omega
  before := by
    simp only [Countdown.start,Suspicion.new]
    split <;> omega
  once := Nat.zero_le _
  late := by simp [Countdown.start]
  span := hspan
  armed := fun _ hk => by
    have hk : 1 ≤ k := hk
    simp only [Countdown.start,Suspicion.new]
    rw [confirmTimeout_zero hfl hk,if_neg (by omega)]
  asleep := fun _ => ⟨rfl,rfl⟩
  awake := fun h => by cases h
  ended := fun h => by cases h

theorem Inv.confirm (hfl : fl.Exact) (hc : c.Inv fl) {from_ : String}
    (hG : c.Orderly (.confirm from_)) :
    (c.confirm fl from_).Inv fl ∧ Prompt fl c (.confirm from_) := by
  have hkeep : c.due ≤ c.due := le_refl _
  rcases confirm_cases fl from_ c with ⟨hno,he⟩ | ⟨hn,hx,hrun⟩
  · rw [Prompt,step,he]
    refine ⟨hc,hkeep,fun x hx hn hx' _ => ?_⟩
    obtain rfl := Event.confirm.inj hx
    exact absurd hno (not_or.mpr ⟨Nat.not_lt.mpr hn,hx'⟩)
  · rw [Prompt,step]
    rcases hrun with ⟨hr,he⟩ | ⟨hr,hlt,he⟩ | ⟨hr,hle,he⟩
    · rw [he]
      refine ⟨⟨⟨hc.after,hc.before,hc.once,hc.late⟩,hc.span,fun h => ?_,fun h => ?_,fun h => ?_,
        hc.ended⟩,hkeep,fun _ _ _ _ h => ?_⟩
      · exact absurd h (by simp [hr])
      · exact absurd (hc.asleep h).1 (by simp [hr])
      · exact absurd (hc.awake h).1 (by simp [hr])
      · exact absurd h (by simp [hr])
    all_goals
      obtain ⟨hasleep,hcount,hfits⟩ := hG hn hx hr
      have hk : 1 ≤ c.t.k := by omega
      have hcount' : c.t.n + 1 ≤ c.t.k ∨ c.t.min = c.t.max := hcount.imp id And.right
      have hafter := le_confirmTimeout hfl hk hc.span hcount'
      have hbefore := confirmTimeout_le hfl hk hc.span (c.t.n + 1)
      have hremain : (c.t.count from_).remainingSuspicionTime fl c.clock = _ :=
        hfits.remain hafter hbefore
      have hanti := confirmTimeout_anti hfl hk hc.span (Nat.le_add_right c.t.n 1)
      have hdue := hc.armed hr hk
      have hfired := (hc.asleep hasleep).2
    · rw [he]
      refine ⟨⟨⟨?_,?_,hc.once,?_⟩,hc.span,fun _ _ => ?_,fun _ => ⟨hr,hfired⟩,?_,?_⟩,?_,
        fun _ _ _ _ _ => ?_⟩
      · dsimp only; omega
      · dsimp only; omega
      · simp [hfired]
      · dsimp only; omega
      · exact fun h => by cases h
      · exact fun h => by cases h
      · dsimp only; omega
      · rw [if_neg (by dsimp only; omega)]
        exact ⟨rfl,rfl⟩
    · rw [he]
      refine ⟨⟨⟨?_,?_,?_,?_⟩,hc.span,?_,?_,?_,fun _ => rfl⟩,?_,
        fun _ _ _ _ _ => by rw [if_pos (by dsimp only; omega)]⟩
      · dsimp only; omega
      · dsimp only; omega
      · simp [hfired]
      · simpa [hfired] using hle
      · exact fun h => by cases h
      · simp [hasleep]
      · simp [hasleep]
      · dsimp only; omega

theorem Inv.step (hfl : fl.Exact) (hc : c.Inv fl) {e : Event} (hG : c.Orderly e) :
    (step fl c e).Inv fl ∧ Prompt fl c e := by
  have hother : (∀ from_, e ≠ .confirm from_) → (Countdown.step fl c e).due = c.due →
      Prompt fl c e := fun hne hdue =>
    ⟨hdue.le,fun from_ he => absurd he (hne from_)⟩
  cases e with
  | confirm from_ => exact hc.confirm hfl hG
  | tick d =>
    refine ⟨⟨⟨hc.after,hc.before,hc.once,hc.late⟩,hc.span,hc.armed,hc.asleep,fun h => ?_,
      hc.ended⟩,hother (by simp) rfl⟩
    obtain ⟨h₁,h₂,h₃⟩ := hc.awake h
    exact ⟨h₁,h₂,by simp only [Countdown.step]; omega⟩
  | wake =>
    refine ⟨?_,hother (by simp) (by simp only [Countdown.step]; split <;> rfl)⟩
    simp only [Countdown.step]
    split
    · rename_i h
      obtain ⟨hr,hf⟩ := hc.asleep h.1
      exact ⟨⟨hc.after,hc.before,hc.once,hc.late⟩,hc.span,hc.armed,fun h => (by cases h),
        fun _ => ⟨hr,hf,h.2⟩,fun h => (by cases h)⟩
    · exact hc
  | call =>
    refine ⟨?_,hother (by simp) (by simp only [Countdown.step]; split <;> rfl)⟩
    simp only [Countdown.step]
    split
    · rename_i h
      obtain ⟨hr,hf,hle⟩ := hc.awake h
      exact ⟨⟨hc.after,hc.before,by simp [hf],by simpa [hf] using hle⟩,hc.span,hc.armed,
        fun h => (by cases h),fun h => (by cases h),fun h => (by cases h)⟩
    · exact hc
  | finish =>
    refine ⟨?_,hother (by simp) (by simp only [Countdown.step]; split <;> rfl)⟩
    simp only [Countdown.step]
    split
    · exact ⟨⟨hc.after,hc.before,hc.once,hc.late⟩,hc.span,fun h => (by cases h),
        fun h => (by cases h),fun h => (by cases h),fun _ => rfl⟩
    · exact hc

/-- Firing window: in a run without a confirmation too many or too late, the callback is always
due within the window and started at most once, and no confirmation puts it off. -/
theorem countdown_window (hfl : fl.Exact) (from_ : String) (k : ℕ) {min max : ℤ}
    (hspan : min ≤ max) (now : ℤ) (f : Callback) (evs : List Event)
    (hG : Transitions.Along (Countdown.step fl) Orderly (start from_ k min max now f) evs) :
    (Transitions.run (Countdown.step fl) (start from_ k min max now f) evs).Window ∧
      Transitions.Along (Countdown.step fl) (Prompt fl) (start from_ k min max now f) evs := by
  have h₀ := Inv.start hfl from_ k hspan now f
  have hstep : ∀ c e, c.Orderly e → c.Inv fl → (Countdown.step fl c e).Inv fl :=
    fun c e he hc => (hc.step hfl he).1
  exact ⟨(hG.invariant h₀ hstep).toWindow,hG.imp h₀ hstep fun c e he hc => (hc.step hfl he).2⟩

theorem countdown_window_one :
    let c := start "a" 2 10 20 0 ⟨⟨1,"x","a"⟩,0⟩
    (Transitions.run (Countdown.step .exact) c [.tick 5,.confirm "b"]).Window := by
  intro c
  refine (countdown_window Floats.exact_exact "a" 2 (by decide) 0 ⟨⟨1,"x","a"⟩,0⟩
    [.tick 5,.confirm "b"] ⟨trivial,fun _ _ _ => ?_,trivial⟩).1
  simp [Countdown.step,start,Suspicion.new,Fits]

theorem three_halves_le : (3 / 2 : ℝ) ≤ Real.log (2 + 1) / Real.log (1 + 1) := by
  have h₂ : 0 < Real.log 2 := Real.log_pos (by norm_num)
  have h : Real.log (2 ^ 3) ≤ Real.log (3 ^ 2) := Real.log_le_log (by norm_num) (by norm_num)
  rw [Real.log_pow,Real.log_pow] at h
  rw [show (2 + 1 : ℝ) = 3 by norm_num,show (1 + 1 : ℝ) = 2 by norm_num,le_div_iff₀ h₂]
  push_cast at h
  linarith

theorem le_two : Real.log (2 + 1) / Real.log (1 + 1) ≤ (2 : ℝ) := by
  have h₂ : 0 < Real.log 2 := Real.log_pos (by norm_num)
  have h : Real.log 3 ≤ Real.log (2 ^ 2) := Real.log_le_log (by norm_num) (by norm_num)
  rw [Real.log_pow] at h
  rw [show (2 + 1 : ℝ) = 3 by norm_num,show (1 + 1 : ℝ) = 2 by norm_num,div_le_iff₀ h₂]
  push_cast at h
  linarith

theorem confirmTimeout_past : 0 ≤ Floats.exact.confirmTimeout 2 1 10 20 ∧
    Floats.exact.confirmTimeout 2 1 10 20 ≤ 5 := by
  have hexact := Floats.exact_exact 2 1 10 20 (le_refl 1)
  have hlow : ((0 : ℤ) : ℝ) ≤ ((20 : ℤ) : ℝ) - Real.log ((2 : ℕ) + 1) / Real.log ((1 : ℕ) + 1) *
      (((20 : ℤ) : ℝ) - ((10 : ℤ) : ℝ)) := by
    have := le_two
    push_cast
    linarith
  have hhigh : ((20 : ℤ) : ℝ) - Real.log ((2 : ℕ) + 1) / Real.log ((1 : ℕ) + 1) *
      (((20 : ℤ) : ℝ) - ((10 : ℤ) : ℝ)) ≤ ((5 : ℤ) : ℝ) := by
    have := three_halves_le
    push_cast
    linarith
  rw [hexact]
  exact ⟨(truncate_intCast 0).ge.trans (truncate_mono hlow),
    (truncate_mono hhigh).trans (truncate_intCast 5).le⟩

/-- The second name moves the end to before the minimum; and a confirmation that comes when the
thread is past its sleep starts the callback a second time. -/
theorem countdown_window_fails :
    let c := start "a" 1 10 20 0 ⟨⟨1,"x","a"⟩,0⟩
    (¬(Transitions.run (Countdown.step .exact) c [.confirm "b",.confirm "c"]).Window) ∧
      ¬(Transitions.run (Countdown.step .exact) c
        [.tick 20,.wake,.confirm "b",.call]).Window := by
  intro c
  have hone : Floats.exact.confirmTimeout 1 1 10 20 = 10 :=
    confirmTimeout_full Floats.exact_exact (le_refl 1)
  obtain ⟨hlow,hpast⟩ := confirmTimeout_past
  constructor
  · intro hw
    have hafter := hw.after
    let t : Suspicion := { c.t with confirmations := ["b","a"], n := 1, timeinterval := 10 }
    have hb : c.confirm .exact "b" = { c with t, due := 10 } := by
      simp [Countdown.confirm,Suspicion.confirm,Suspicion.remainingSuspicionTime,c,t,start,
        Suspicion.new,hone]
    simp only [Transitions.run_cons,Transitions.run_nil,Countdown.step,hb] at hafter
    have hremain : (t.count "c").remainingSuspicionTime .exact 0 =
        Floats.exact.confirmTimeout 2 1 10 20 - (0 - 0) := by
      refine Suspicion.remainingSuspicionTime_eq ?_ ?_ <;>
        simp only [Suspicion.count,c,t,start,Suspicion.new,Nat.reduceAdd] <;> omega
    rcases confirm_cases .exact "c" { c with t, due := 10 } with
      ⟨hno,-⟩ | ⟨-,-,⟨hr,-⟩ | ⟨-,-,he⟩ | ⟨-,-,he⟩⟩
    · exact absurd hno (by simp [c,t,start,Suspicion.new])
    · exact absurd hr (by simp [c,t,start,Suspicion.new])
    all_goals
      rw [he] at hafter
      have hafter : (0 : ℤ) + 10 ≤ 0 + (t.count "c").remainingSuspicionTime .exact 0 := hafter
      rw [hremain] at hafter
      omega
  · intro hw
    have honce := hw.once
    simp [Countdown.step,Countdown.confirm,Suspicion.confirm,Suspicion.remainingSuspicionTime,c,
      start,Suspicion.new,hone] at honce

end Countdown
end GossipMemberlist
