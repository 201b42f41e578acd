import Mathlib.Data.Nat.ModEq
import Mathlib.Logic.Function.Basic

/-!
# Ring buffers

A buffer of `n` cells filled round and round: position `k` of the stream is cell
`k % n`.
-/

namespace MiniOS

section
variable {α : Type}

def Holds (n : Nat) (buf : Nat → α) (r : Nat) : List α → Prop
  | [] => True
  | b :: l => buf (r % n) = b ∧ Holds n buf (r + 1) l

variable {n : Nat} {buf : Nat → α} {b : α}

theorem cell_ne {r k : Nat} (h₀ : 0 < k) (h₁ : k < n) : r % n ≠ (r + k) % n := by
  intro h
  have h₂ : r + k ≡ r + 0 [MOD n] := h.symm
  have h₃ : k % n = 0 % n := Nat.ModEq.add_left_cancel' r h₂
  rw [Nat.mod_eq_of_lt h₁, Nat.zero_mod] at h₃
  omega

theorem Holds.push : ∀ {l : List α} {r : Nat}, Holds n buf r l → l.length < n →
    Holds n (Function.update buf ((r + l.length) % n) b) r (l ++ [b])
  | [], r, _, _ => ⟨Function.update_self .., trivial⟩
  | c :: l, r, h, hn => by
    have hlen : (c :: l).length = l.length + 1 := rfl
    have hr : r + (c :: l).length = r + 1 + l.length := by omega
    have hne : r % n ≠ (r + (c :: l).length) % n := cell_ne (by omega) hn
    refine ⟨(Function.update_of_ne hne ..).trans h.1, ?_⟩
    rw [hr]
    exact Holds.push h.2 (by omega)

theorem Holds.getElem : ∀ {l : List α} {r : Nat}, Holds n buf r l → ∀ i (hi : i < l.length),
    buf ((r + i) % n) = l[i]
  | _ :: _, _, h, 0, _ => h.1
  | _ :: l, r, h, i + 1, hi => by
    rw [show r + (i + 1) = r + 1 + i by omega]
    exact Holds.getElem h.2 i (Nat.lt_of_succ_lt_succ hi)

theorem Holds.drop : ∀ {l : List α} {r : Nat} (k : Nat), Holds n buf r l → Holds n buf (r + k) (l.drop k)
  | _, _, 0, h => h
  | [], _, _ + 1, _ => trivial
  | _ :: l, r, k + 1, h => by
    rw [show r + (k + 1) = r + 1 + k by omega]
    exact Holds.drop k h.2

theorem Holds.congr_start : ∀ {l : List α} {r r' : Nat}, r % n = r' % n → Holds n buf r l → Holds n buf r' l
  | [], _, _, _, _ => trivial
  | _ :: _, r, r', e, h => ⟨e ▸ h.1, Holds.congr_start (by rw [Nat.add_mod, e, ← Nat.add_mod]) h.2⟩

end

end MiniOS
