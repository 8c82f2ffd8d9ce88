import Mathlib.Data.Nat.ModEq
import Mathlib.Order.Basic

/-!
# Wrapping atomic counters

An unsigned counter of a fixed width, kept as the total of everything ever added
to it. Reading it reduces the total, so the counter wraps exactly when the total
reaches `2 ^ bits`, and a run can say that it has not.
-/

structure WrapCounter (bits : ℕ) where
  total : ℕ
  deriving DecidableEq

namespace WrapCounter

variable {bits : ℕ}

def zero : WrapCounter bits := ⟨0⟩

def load (c : WrapCounter bits) : ℕ := c.total % 2 ^ bits

/-- The operand is itself a number of the counter's width. -/
def fetchAdd (c : WrapCounter bits) (n : ℕ) : WrapCounter bits := ⟨c.total + n % 2 ^ bits⟩

@[simp] theorem fetchAdd_total (c : WrapCounter bits) (n : ℕ) :
    (c.fetchAdd n).total = c.total + n % 2 ^ bits := rfl

theorem load_lt (c : WrapCounter bits) : c.load < 2 ^ bits :=
  Nat.mod_lt _ (Nat.two_pow_pos bits)

theorem load_eq {c : WrapCounter bits} (h : c.total < 2 ^ bits) : c.load = c.total :=
  Nat.mod_eq_of_lt h

theorem total_le_fetchAdd (c : WrapCounter bits) (n : ℕ) : c.total ≤ (c.fetchAdd n).total :=
  Nat.le_add_right _ _

end WrapCounter
