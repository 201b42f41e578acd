import MiniOS.Word

/-!
# Address layout

The constants of `mm/layout.h` and the rounding macros of `mm/pages.h`.
-/

namespace MiniOS

def pageShift : Nat := 12

def pageSize : Nat := 4096

def kernelBaseAddr : Nat := 0xC0000000

def normalAddr : Nat := 0x30000000

def userUnnameZone : Nat := 0x40000000

def userStackTop : Nat := 0xBF800000

def userStackBott : Nat := 0xBF400000

def userTempBott : Nat := 0xBF800000

def roundDown (a n : Nat) : Nat := a - a % n

def roundUp (a n : Nat) : Nat := roundDown (wrap (a + n - 1)) n

theorem roundDown_le (a n : Nat) : roundDown a n ≤ a := Nat.sub_le _ _

theorem dvd_roundDown (a n : Nat) : n ∣ roundDown a n := Nat.dvd_sub_mod a

theorem le_roundDown {a b n : Nat} (hb : n ∣ b) (h : b ≤ a) : b ≤ roundDown a n := by
  obtain ⟨k, rfl⟩ := hb
  have hdiv : roundDown a n = n * (a / n) := Nat.sub_eq_of_eq_add (Nat.div_add_mod a n).symm
  rw [hdiv]
  by_cases hn : n = 0
  · simp [hn]
  · exact Nat.mul_le_mul_left n ((Nat.le_div_iff_mul_le (Nat.pos_of_ne_zero hn)).mpr (Nat.mul_comm n k ▸ h))

theorem lt_roundDown_add {a n : Nat} (h : 0 < n) : a < roundDown a n + n := by
  have := Nat.mod_lt a h
  have := Nat.mod_le a n
  unfold roundDown; omega

theorem roundDown_of_dvd {a n : Nat} (h : n ∣ a) : roundDown a n = a := by
  unfold roundDown
  rw [Nat.mod_eq_zero_of_dvd h, Nat.sub_zero]

theorem roundDown_eq {a b n : Nat} (hb : n ∣ b) (h₁ : b ≤ a) (h₂ : a < b + n) : roundDown a n = b := by
  obtain ⟨k, rfl⟩ := hb
  have hm : a % n = a - n * k := by
    rw [← Nat.sub_add_cancel h₁, Nat.add_mul_mod_self_left, Nat.mod_eq_of_lt (by omega)]
    omega
  unfold roundDown; omega

end MiniOS
