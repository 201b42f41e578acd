import Mathlib.Logic.Basic
import Mathlib.Logic.Function.Basic
import Mathlib.Data.UInt

/-!
# Byte memory

A memory is a function from addresses to bytes. Words are four bytes, low byte
first, and hold values below `2 ^ 32`. A log of stores acts on any function.
-/

namespace MiniOS

abbrev Mem := Nat → UInt8

def ld32 (m : Mem) (a : Nat) : Nat :=
  (m a).toNat + 256 * (m (a + 1)).toNat + 65536 * (m (a + 2)).toNat + 16777216 * (m (a + 3)).toNat

def st32 (m : Mem) (a v : Nat) : Mem := fun x =>
  if x = a then UInt8.ofNat v
  else if x = a + 1 then UInt8.ofNat (v / 256)
  else if x = a + 2 then UInt8.ofNat (v / 65536)
  else if x = a + 3 then UInt8.ofNat (v / 16777216)
  else m x

theorem ld32_congr {m m' : Mem} {a : Nat} (h : ∀ x, a ≤ x → x < a + 4 → m' x = m x) :
    ld32 m' a = ld32 m a := by
  unfold ld32
  rw [h a (by omega) (by omega), h (a + 1) (by omega) (by omega), h (a + 2) (by omega) (by omega),
    h (a + 3) (by omega) (by omega)]

theorem st32_apart {a x : Nat} (m : Mem) (v : Nat) (h : x < a ∨ a + 4 ≤ x) : st32 m a v x = m x := by
  unfold st32
  simp (disch := omega) only [if_neg]

theorem ld32_st32 {v : Nat} (m : Mem) (a : Nat) (h : v < 2 ^ 32) : ld32 (st32 m a v) a = v := by
  simp (disch := omega) only [ld32, st32, UInt8.toNat_ofNat', ite_true, if_neg]
  omega

theorem ld32_st32_apart {a b : Nat} (m : Mem) (v : Nat) (h : a + 4 ≤ b ∨ b + 4 ≤ a) :
    ld32 (st32 m a v) b = ld32 m b :=
  ld32_congr fun x _ _ => st32_apart m v (by omega)

def wordBytes (n : Nat) : List UInt8 :=
  [UInt8.ofNat n, UInt8.ofNat (n / 256), UInt8.ofNat (n / 65536), UInt8.ofNat (n / 16777216)]

/-! ## Logs of stores -/

section
variable {α β : Type*} [DecidableEq α]

def applyStores (f : α → β) (l : List (α × β)) : α → β := l.foldl (fun f e => Function.update f e.1 e.2) f

theorem applyStores_append (f : α → β) (l l' : List (α × β)) :
    applyStores f (l ++ l') = applyStores (applyStores f l) l' := List.foldl_append

theorem applyStores_of_notMem {a : α} : ∀ {l : List (α × β)} {f : α → β}, a ∉ l.map Prod.fst →
    applyStores f l a = f a
  | [], _, _ => rfl
  | e :: l, f, h => by
    rw [List.map_cons, List.mem_cons, not_or] at h
    exact (applyStores_of_notMem h.2).trans (Function.update_of_ne h.1 ..)

theorem applyStores_of_mem {a : α} {b : β} : ∀ {l : List (α × β)} {f : α → β}, (l.map Prod.fst).Nodup → (a, b) ∈ l →
    applyStores f l a = b
  | e :: l, f, hn, h => by
    rw [List.map_cons, List.nodup_cons] at hn
    rcases List.mem_cons.mp h with rfl | h
    · exact (applyStores_of_notMem hn.1).trans (Function.update_self ..)
    · change applyStores (Function.update f e.1 e.2) l a = b
      exact applyStores_of_mem hn.2 h

end

end MiniOS
