import GossipMemberlist.Config
import Mathlib.Tactic.SplitIfs

/-!
# Suspicion timers

`suspicion`: the timer that declares a suspected node dead unless somebody hears
from it in time, and the independent confirmations that bring its end forward.
-/

namespace GossipMemberlist

/-- The variables that the timeout callback of `suspectNode` captures. -/
structure Callback where
  s : Suspect
  now : ℤ
  deriving DecidableEq

/-- `timeinterval` and `running` belong to the underlying `onceTimer`. -/
structure Suspicion where
  n : ℕ
  k : ℕ
  start : ℤ
  min : ℤ
  max : ℤ
  f : Callback
  timeinterval : ℤ
  running : Bool
  confirmations : List String
  deriving DecidableEq

/-- What `Confirm` does besides its bookkeeping: nothing, report a new
confirmation, or call the callback from within the caller. -/
inductive ConfirmExit
  | refused | counted | callsBack
  deriving DecidableEq

namespace Suspicion

def new (from_ : String) (k : ℕ) (min max start : ℤ) (f : Callback) : Suspicion :=
  ⟨0,k,start,min,max,f,if k < 1 then min else max,true,[from_]⟩

/-- The difference is an `int64_t` and wraps. -/
def remainingSuspicionTime (fl : Floats) (now : ℤ) (t : Suspicion) : ℤ :=
  (fl.confirmTimeout t.n t.k t.min t.max - (now - t.start)).bmod (2 ^ 64)

def confirm (fl : Floats) (now : ℤ) (from_ : String) (t : Suspicion) : Suspicion × ConfirmExit :=
  if t.k < t.n then (t,.refused)
  else if from_ ∈ t.confirmations then (t,.refused)
  else
    let t := { t with confirmations := from_::t.confirmations, n := t.n + 1 }
    let remain := t.remainingSuspicionTime fl now
    if t.running then
      if 0 < remain then ({ t with timeinterval := remain },.counted)
      else ({ t with running := false },.callsBack)
    else (t,.counted)

theorem remainingSuspicionTime_eq {fl : Floats} {now : ℤ} {t : Suspicion}
    (hlow : -2 ^ 63 ≤ fl.confirmTimeout t.n t.k t.min t.max - (now - t.start))
    (hhigh : fl.confirmTimeout t.n t.k t.min t.max - (now - t.start) < 2 ^ 63) :
    t.remainingSuspicionTime fl now = fl.confirmTimeout t.n t.k t.min t.max - (now - t.start) :=
  Int.bmod_eq_of_le_mul_two (by push_cast; omega) (by push_cast; omega)

/-- After a division by zero the timeout is as small as it can be, and the difference comes out
as large as it can be as soon as any time has gone by. -/
theorem remainingSuspicionTime_wraps {fl : Floats} {now : ℤ} {t : Suspicion}
    (hzero : fl.confirmTimeout t.n t.k t.min t.max = -2 ^ 63) (hlate : t.start < now)
    (hnow : now ≤ t.start + 2 ^ 63) :
    t.remainingSuspicionTime fl now = 2 ^ 63 - (now - t.start) := by
  have hwrap : -2 ^ 63 - (now - t.start) = 2 ^ 63 - (now - t.start) - ((2 ^ 64 : ℕ) : ℤ) := by
    push_cast
    omega
  rw [remainingSuspicionTime,hzero,hwrap,Int.sub_bmod_right]
  exact Int.bmod_eq_of_le_mul_two (by push_cast; omega) (by push_cast; omega)

def count (from_ : String) (t : Suspicion) : Suspicion :=
  { t with confirmations := from_::t.confirmations, n := t.n + 1 }

/-- All that a call can do. -/
theorem confirm_cases (fl : Floats) (now : ℤ) (from_ : String) (t : Suspicion) :
    ((t.k < t.n ∨ from_ ∈ t.confirmations) ∧ t.confirm fl now from_ = (t,.refused)) ∨
    (t.n ≤ t.k ∧ from_ ∉ t.confirmations) ∧
      ((t.running = false ∧ t.confirm fl now from_ = (t.count from_,.counted)) ∨
      (t.running = true ∧ 0 < (t.count from_).remainingSuspicionTime fl now ∧
        t.confirm fl now from_ = ({ t.count from_ with
          timeinterval := (t.count from_).remainingSuspicionTime fl now },.counted)) ∨
      t.running = true ∧ (t.count from_).remainingSuspicionTime fl now ≤ 0 ∧
        t.confirm fl now from_ = ({ t.count from_ with running := false },.callsBack)) := by
  unfold confirm count
  by_cases hk : t.k < t.n
  · exact Or.inl ⟨Or.inl hk,if_pos hk⟩
  · by_cases hx : from_ ∈ t.confirmations
    · exact Or.inl ⟨Or.inr hx,by rw [if_neg hk,if_pos hx]⟩
    · refine Or.inr ⟨⟨Nat.le_of_not_lt hk,hx⟩,?_⟩
      rw [if_neg hk,if_neg hx]
      dsimp only
      split_ifs with hr hpos
      · exact Or.inr (Or.inl ⟨hr,hpos,rfl⟩)
      · exact Or.inr (Or.inr ⟨hr,Int.not_lt.mp hpos,rfl⟩)
      · exact Or.inl ⟨Bool.eq_false_iff.mpr hr,rfl⟩

/-- Where no confirmation is expected, a second accuser puts the end off for ever. -/
theorem confirm_unexpected {fl : Floats} {now : ℤ} {from_ : String} {t : Suspicion}
    (hk : t.k = 0) (hn : t.n = 0) (hnew : from_ ∉ t.confirmations) (hrun : t.running = true)
    (hzero : fl.confirmTimeout 1 0 t.min t.max = -2 ^ 63) (hlate : t.start < now)
    (hnow : now < t.start + 2 ^ 63) :
    t.confirm fl now from_ =
      ({ t.count from_ with timeinterval := 2 ^ 63 - (now - t.start) },.counted) := by
  have hremain : (t.count from_).remainingSuspicionTime fl now = 2 ^ 63 - (now - t.start) :=
    remainingSuspicionTime_wraps (by simpa [count,hk,hn] using hzero) hlate hnow.le
  rcases confirm_cases fl now from_ t with
    ⟨hwhy,-⟩ | ⟨-,⟨hr,-⟩ | ⟨-,-,he⟩ | ⟨-,hneg,-⟩⟩
  · exact absurd hwhy (not_or.mpr ⟨by omega,hnew⟩)
  · rw [hrun] at hr
    cases hr
  · rw [he,hremain]
  · rw [hremain] at hneg
    omega

theorem confirm_keeps (fl : Floats) (now : ℤ) (from_ : String) (t : Suspicion) :
    (t.confirm fl now from_).1.f = t.f ∧
      t.confirmations ⊆ (t.confirm fl now from_).1.confirmations := by
  rcases confirm_cases fl now from_ t with ⟨-,h⟩ | ⟨-,⟨-,h⟩ | ⟨-,-,h⟩ | ⟨-,-,h⟩⟩ <;>
    simp [h,count]

theorem confirm_counted {fl : Floats} {now : ℤ} {from_ : String} {t : Suspicion}
    (h : (t.confirm fl now from_).2 = .counted) :
    from_ ∉ t.confirmations ∧ from_ ∈ (t.confirm fl now from_).1.confirmations := by
  rcases confirm_cases fl now from_ t with ⟨-,he⟩ | ⟨⟨-,hx⟩,⟨-,he⟩ | ⟨-,-,he⟩ | ⟨-,-,he⟩⟩
  · rw [he] at h
    cases h
  all_goals simp [he,hx,count]

theorem confirm_refused {fl : Floats} {now : ℤ} {from_ : String} {t : Suspicion}
    (h : (t.confirm fl now from_).2 = .refused) : t.confirm fl now from_ = (t,.refused) := by
  rcases confirm_cases fl now from_ t with ⟨-,he⟩ | ⟨-,⟨-,he⟩ | ⟨-,-,he⟩ | ⟨-,-,he⟩⟩
  · exact he
  all_goals
    rw [he] at h
    cases h

theorem confirm_known {fl : Floats} {now : ℤ} {from_ : String} {t : Suspicion}
    (h : from_ ∈ t.confirmations) : t.confirm fl now from_ = (t,.refused) := by
  rcases confirm_cases fl now from_ t with ⟨-,he⟩ | ⟨⟨-,hx⟩,-⟩
  · exact he
  · exact absurd h hx

theorem confirm_again (fl : Floats) (now now' : ℤ) (from_ : String) (t : Suspicion) :
    (t.confirm fl now from_).1.confirm fl now' from_ = ((t.confirm fl now from_).1,.refused) := by
  rcases confirm_cases fl now from_ t with ⟨hwhy,he⟩ | ⟨-,⟨-,he⟩ | ⟨-,-,he⟩ | ⟨-,-,he⟩⟩
  · rw [he]
    rcases confirm_cases fl now' from_ t with ⟨-,he'⟩ | ⟨⟨hle,hx⟩,-⟩
    · exact he'
    · exact absurd hwhy (not_or.mpr ⟨Nat.not_lt.mpr hle,hx⟩)
  all_goals
    rw [he]
    exact confirm_known (by simp [count])

theorem new_confirm (fl : Floats) (now : ℤ) (from_ : String) (k : ℕ) (min max start : ℤ)
    (f : Callback) : (new from_ k min max start f).confirm fl now from_ =
      (new from_ k min max start f,.refused) :=
  confirm_known (List.mem_singleton_self from_)

end Suspicion
end GossipMemberlist
