import Mathlib.Tactic

/-!
# Unsigned 32-bit words

The source computes with `u_long32`. A word is a natural number below `2 ^ 32`, and the
operations here wrap exactly as the C operators do. Inside the bounds they agree with the
operations on natural numbers.
-/

namespace GridEngine

/-- `U_LONG32_MAX`. -/
def uLong32Max : ℕ := 4294967295

def wadd (a b : ℕ) : ℕ := (a + b) % 2 ^ 32

def wsub (a b : ℕ) : ℕ := (a + 2 ^ 32 - b) % 2 ^ 32

def wmul (a b : ℕ) : ℕ := (a * b) % 2 ^ 32

/-- A word read as a C `int`. -/
def toInt (n : ℕ) : ℤ := if n < 2 ^ 31 then n else n - 2 ^ 32

theorem wadd_eq {a b : ℕ} (h : a + b < 2 ^ 32) : wadd a b = a + b := Nat.mod_eq_of_lt h

theorem wsub_eq {a b : ℕ} (hb : b ≤ a) (ha : a < 2 ^ 32) : wsub a b = a - b := by
  unfold wsub
  omega

theorem wmul_eq {a b : ℕ} (h : a * b < 2 ^ 32) : wmul a b = a * b := Nat.mod_eq_of_lt h

/-- A difference is the word `c` exactly when the minuend is the unwrapped sum. -/
theorem wsub_eq_iff {a b c : ℕ} (ha : a < 2 ^ 31) (hb : b < 2 ^ 31) (hc : c < 2 ^ 31) :
    wsub a b = c ↔ a = c + b := by
  unfold wsub
  omega

theorem toInt_eq {n : ℕ} (hn : n < 2 ^ 31) : toInt n = n := if_pos hn

theorem toInt_large {n : ℕ} (hn : 2 ^ 31 ≤ n) (hlt : n < 2 ^ 32) :
    toInt n = -((2 ^ 32 - n : ℕ) : ℤ) := by
  rw [toInt, if_neg (by omega)]
  omega

end GridEngine
