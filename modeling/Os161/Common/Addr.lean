import Mathlib.Algebra.Group.Nat.Defs
/-!
# Addresses of a 32-bit machine

Addresses and sizes are natural numbers below `2 ^ 32`, and sums and differences
of them wrap around.
-/

namespace Os161

/-- `a + b` in 32 bits. -/
def add32 (a b : ℕ) : ℕ := (a + b) % 2 ^ 32

/-- `a - b` in 32 bits. -/
def sub32 (a b : ℕ) : ℕ := (a + (2 ^ 32 - b % 2 ^ 32)) % 2 ^ 32

variable {a b : ℕ}

theorem add32_of_lt (h : a + b < 2 ^ 32) : add32 a b = a + b := Nat.mod_eq_of_lt h

theorem sub32_of_le (h : b ≤ a) (ha : a < 2 ^ 32) : sub32 a b = a - b := by
  unfold sub32
  omega

end Os161
