import MiniOS.ByteMem
import MiniOS.Word

/-!
# `memmove`

Four loops of `rep movs`: upwards or downwards, by words or by bytes. All of them leave the memory in
which the bytes have been read together before they are stored.
-/

namespace MiniOS

def copied (m : Mem) (dst src n : Nat) : Mem := fun x => if dst ≤ x ∧ x < dst + n then m (src + (x - dst)) else m x

def advance (down : Bool) (size r : Nat) : Nat := if down then wsub r size else wrap (r + size)

/-- `rep movs` of `size` bytes at a time, under the direction flag `down`. -/
def repMovs (size : Nat) (down : Bool) : (count di si : Nat) → Mem → Mem
  | 0, _, _, m => m
  | count + 1, di, si, m => repMovs size down count (advance down size di) (advance down size si)
    (copied m di si size)

def memmove (dst src n : Nat) (m : Mem) : Mem :=
  if src < dst ∧ dst < wrap (src + n) then
    let s := wrap (src + n)
    let d := wrap (dst + n)
    if s % 4 = 0 ∧ d % 4 = 0 ∧ n % 4 = 0 then repMovs 4 true (n / 4) (wsub d 4) (wsub s 4) m
    else repMovs 1 true n (wsub d 1) (wsub s 1) m
  else if src % 4 = 0 ∧ dst % 4 = 0 ∧ n % 4 = 0 then repMovs 4 false (n / 4) dst src m
  else repMovs 1 false n dst src m

theorem copied_zero (m : Mem) (dst src : Nat) : copied m dst src 0 = m := by
  funext x
  unfold copied
  rw [if_neg (by omega)]

theorem copied_outside {dst src n x : Nat} (m : Mem) (h : x < dst ∨ dst + n ≤ x) : copied m dst src n x = m x :=
  if_neg (by omega)

theorem copied_inside {src n i : Nat} (m : Mem) (dst : Nat) (h : i < n) :
    copied m dst src n (dst + i) = m (src + i) := by
  unfold copied
  rw [if_pos (by omega), Nat.add_sub_cancel_left]

section
variable {dst src : Nat} (m : Mem) (a b : Nat)

/-- The lower part first: it must not reach what is still to be read. -/
theorem copied_up (h : dst ≤ src ∨ src + (a + b) ≤ dst) :
    copied (copied m dst src a) (dst + a) (src + a) b = copied m dst src (a + b) := by
  funext x
  simp only [copied]
  grind

theorem copied_down (h : src ≤ dst) :
    copied (copied m (dst + a) (src + a) b) dst src a = copied m dst src (a + b) := by
  funext x
  simp only [copied]
  grind

end

section
variable {size : Nat} (hs : 0 < size)
include hs

-- The registers are said to be right only while there is something left to do: behind the last
-- element they may have left the address space.
theorem repMovs_up : ∀ {count dst src di si : Nat} (m : Mem), (0 < count → di = dst ∧ si = src) →
    src + size * count ≤ 2 ^ 32 → dst + size * count ≤ 2 ^ 32 → dst ≤ src ∨ src + size * count ≤ dst →
    repMovs size false count di si m = copied m dst src (size * count)
  | 0, dst, src, _, _, m, _, _, _, _ => (copied_zero m dst src).symm
  | count + 1, dst, src, di, si, m, hr, hsrc, hdst, h => by
    obtain ⟨rfl, rfl⟩ := hr (Nat.zero_lt_succ _)
    rw [Nat.mul_succ] at *
    have hnext : 0 < count → advance false size di = di + size ∧ advance false size si = si + size := by
      intro hc
      have : size * 1 ≤ size * count := Nat.mul_le_mul_left _ hc
      exact ⟨wrap_of_lt (by omega), wrap_of_lt (by omega)⟩
    rw [repMovs, repMovs_up _ hnext (by omega) (by omega) (by omega), copied_up _ _ _ (by omega), Nat.add_comm]

theorem repMovs_down {dst src : Nat} (h : src ≤ dst) : ∀ {count di si : Nat} (m : Mem),
    (0 < count → di + size = dst + size * count ∧ si + size = src + size * count) → dst + size * count ≤ 2 ^ 32 →
    repMovs size true count di si m = copied m dst src (size * count)
  | 0, _, _, m, _, _ => (copied_zero m dst src).symm
  | count + 1, di, si, m, hr, hdst => by
    rw [Nat.mul_succ] at *
    obtain ⟨hdi, hsi⟩ := hr (Nat.zero_lt_succ _)
    have hnext : 0 < count → advance true size di + size = dst + size * count ∧
        advance true size si + size = src + size * count := by
      intro hc
      have : size * 1 ≤ size * count := Nat.mul_le_mul_left _ hc
      constructor
      · show wsub di size + size = _
        rw [wsub_of_le (by omega) (by omega)]
        omega
      · show wsub si size + size = _
        rw [wsub_of_le (by omega) (by omega)]
        omega
    rw [repMovs, repMovs_down h _ hnext (by omega), show di = dst + size * count by omega,
      show si = src + size * count by omega, copied_down _ _ _ h]

end

theorem memmove_up {dst src n : Nat} (hsrc : src + n ≤ 2 ^ 32) (hdst : dst + n ≤ 2 ^ 32)
    (h : dst ≤ src ∨ src + n ≤ dst) (m : Mem) : memmove dst src n m = copied m dst src n := by
  unfold memmove
  rw [if_neg (by unfold wrap; omega)]
  split
  next h4 =>
    have h4 : 4 * (n / 4) = n := by omega
    rw [repMovs_up (by decide) m (fun _ => ⟨rfl, rfl⟩) (by omega) (by omega) (by omega), h4]
  next => rw [repMovs_up (by decide) m (fun _ => ⟨rfl, rfl⟩) (by omega) (by omega) (by omega), Nat.one_mul]

/-- However the two areas overlap, and whichever of the four loops runs. -/
theorem memmove_copies {dst src n : Nat} (hsrc : src + n ≤ 2 ^ 32) (hdst : dst + n ≤ 2 ^ 32) (m : Mem) :
    memmove dst src n m = copied m dst src n := by
  by_cases h : dst ≤ src ∨ src + n ≤ dst
  · exact memmove_up hsrc hdst h m
  -- `src + n` is below `dst + n`, so that the comparison is not made with a wrapped address.
  have hs : wrap (src + n) = src + n := wrap_of_lt (by omega)
  have hle : src ≤ dst := by omega
  have hback : ∀ k, 0 < k → k ≤ n → wsub (wrap (dst + n)) k + k = dst + n ∧ wsub (src + n) k + k = src + n := by
    intro k h0 hk
    unfold wsub wrap
    omega
  unfold memmove
  rw [hs, if_pos (by omega)]
  dsimp only
  split
  next h4 =>
    have h4 : 4 * (n / 4) = n := by omega
    rw [repMovs_down (by decide) hle m (fun _ => ?_) (by omega), h4]
    rw [h4]
    exact hback 4 (by decide) (by omega)
  next =>
    rw [repMovs_down (by decide) hle m (fun _ => ?_) (by omega), Nat.one_mul]
    rw [Nat.one_mul]
    exact hback 1 (by decide) (by omega)

theorem memmove_copies_down :
    8 < 2 ^ 32 ∧ memmove 4 0 8 (fun x => UInt8.ofNat x) = copied (fun x => UInt8.ofNat x) 4 0 8 :=
  ⟨by decide, memmove_copies (by decide) (by decide) _⟩

end MiniOS
