import Mathlib.Algebra.Group.Nat.Defs
import Mathlib.Algebra.Group.Int.Defs

/-!
# 32-bit unsigned arithmetic on naturals
-/

namespace MiniOS

def wrap (n : Nat) : Nat := n % 2 ^ 32

def wsub (a b : Nat) : Nat := wrap (a + (2 ^ 32 - wrap b))

/-- An `int` where an `unsigned` is asked for. -/
def toUnsigned (n : Int) : Nat := (n % 2 ^ 32).toNat

/-- An `unsigned` where an `int` is asked for. -/
def toSigned (n : Nat) : Int := if n < 2 ^ 31 then n else n - 2 ^ 32

theorem wrap_lt (n : Nat) : wrap n < 2 ^ 32 := Nat.mod_lt _ (by decide)

theorem wrap_of_lt {n : Nat} (h : n < 2 ^ 32) : wrap n = n := Nat.mod_eq_of_lt h

theorem wsub_of_le {a b : Nat} (h : b ≤ a) (ha : a < 2 ^ 32) : wsub a b = a - b := by
  unfold wsub wrap; omega

theorem wsub_wrap_add {a : Nat} (h : a < 2 ^ 32) (b : Nat) : wsub (wrap (a + b)) b = a := by
  unfold wsub wrap
  omega

theorem toUnsigned_of_nonneg {n : Int} (h : 0 ≤ n) (hlt : n < 2 ^ 31) : toUnsigned n = n.toNat := by
  unfold toUnsigned; omega

theorem toSigned_of_lt {n : Nat} (h : n < 2 ^ 31) : toSigned n = n := if_pos h

end MiniOS
