import Mathlib.Data.Nat.Bitwise
import Mathlib.Data.Set.Insert
import Mathlib.Algebra.BigOperators.Group.Finset.Basic
import Mathlib.Algebra.Order.BigOperators.Group.Finset
import Mathlib.Order.Interval.Finset.Nat

/-!
# Tilings by aligned blocks

A block `(i, k)` covers the `2 ^ k` indices from `i` on. A set of blocks tiles a
set of indices when the blocks are aligned, cover exactly that set and do not
overlap. Halving a block and joining two buddies keep the tiling.
-/

namespace MiniOS

abbrev Block := Nat × Nat

def Block.Apart (b c : Block) : Prop := b.1 + 2 ^ b.2 ≤ c.1 ∨ c.1 + 2 ^ c.2 ≤ b.1

structure Tiling (F : Set Nat) (B : Set Block) : Prop where
  aligned : ∀ b ∈ B, 2 ^ b.2 ∣ b.1
  cover : ∀ p, p ∈ F ↔ ∃ b ∈ B, b.1 ≤ p ∧ p < b.1 + 2 ^ b.2
  apart : ∀ b ∈ B, ∀ c ∈ B, b ≠ c → b.Apart c

/-! ## Buddies -/

theorem mul_two_pow_xor (m n k : Nat) : (2 ^ k * m) ^^^ (2 ^ k * n) = 2 ^ k * (m ^^^ n) := by
  simp only [Nat.mul_comm (2 ^ k), ← Nat.shiftLeft_eq]
  exact Nat.shiftLeft_xor_distrib.symm

theorem mul_two_pow_and (m n k : Nat) : (2 ^ k * m) &&& (2 ^ k * n) = 2 ^ k * (m &&& n) := by
  simp only [Nat.mul_comm (2 ^ k), ← Nat.shiftLeft_eq]
  exact Nat.shiftLeft_and_distrib.symm

theorem and_succ_of_even {m : Nat} (h : Even m) : m &&& (m + 1) = m := by
  rw [← Nat.xor_one_of_even h, Nat.and_xor_distrib_left, Nat.and_self, Nat.and_one_is_mod,
    Nat.even_iff.mp h, Nat.xor_zero]

/-- The buddy of an aligned block is the other half of the block twice as
large, and the bitwise `and` of the two starts is where that block starts. -/
theorem buddy_cases {i k : Nat} (h : 2 ^ k ∣ i) :
    (i ^^^ 2 ^ k = i + 2 ^ k ∧ i &&& (i ^^^ 2 ^ k) = i ∧ 2 ^ (k + 1) ∣ i) ∨
    ((i ^^^ 2 ^ k) + 2 ^ k = i ∧ i &&& (i ^^^ 2 ^ k) = i ^^^ 2 ^ k ∧ 2 ^ (k + 1) ∣ i ^^^ 2 ^ k) := by
  obtain ⟨m, rfl⟩ := h
  have hx : (2 ^ k * m) ^^^ 2 ^ k = 2 ^ k * (m ^^^ 1) := by
    have := mul_two_pow_xor m 1 k
    rwa [Nat.mul_one] at this
  rw [hx, mul_two_pow_and]
  rcases Nat.even_or_odd m with he | ho
  · left
    rw [Nat.xor_one_of_even he, and_succ_of_even he]
    refine ⟨Nat.mul_succ _ _, rfl, ?_⟩
    rw [Nat.pow_succ]
    exact Nat.mul_dvd_mul_left _ he.two_dvd
  · right
    obtain ⟨n, rfl⟩ := ho
    have he : Even (2 * n) := even_two_mul n
    rw [Nat.xor_one_of_odd (odd_two_mul_add_one n), Nat.add_sub_cancel]
    refine ⟨(Nat.mul_succ _ _).symm, ?_, ?_⟩
    · rw [Nat.land_comm, and_succ_of_even he]
    · rw [Nat.pow_succ]
      exact Nat.mul_dvd_mul_left _ (Nat.dvd_mul_right 2 n)

/-! ## Halving and joining -/

section
variable {F : Set Nat} {B : Set Block} {n : Nat} {B' : Set Block} {R : Set Block} {i k : Nat}

theorem Tiling.subset (h : Tiling F B) {b : Block} (hb : b ∈ B) {p : Nat} (h₁ : b.1 ≤ p)
    (h₂ : p < b.1 + 2 ^ b.2) : p ∈ F := (h.cover p).mpr ⟨b, hb, h₁, h₂⟩

theorem Tiling.eq_of_mem (h : Tiling F B) {b c : Block} (hb : b ∈ B) (hc : c ∈ B) {p : Nat}
    (hb₁ : b.1 ≤ p) (hb₂ : p < b.1 + 2 ^ b.2) (hc₁ : c.1 ≤ p) (hc₂ : p < c.1 + 2 ^ c.2) : b = c := by
  by_contra hne
  rcases h.apart b hb c hc hne with h | h <;> omega

theorem Tiling.congr (h : Tiling F B) (B' : Set Block) (e : ∀ b, b ∈ B ↔ b ∈ B') : Tiling F B' := by
  rwa [show B' = B from Set.ext fun b => (e b).symm]

theorem Tiling.replace {C C' R : Set Block} (h : Tiling F (C ∪ R))
    (hal : ∀ b ∈ C', 2 ^ b.2 ∣ b.1)
    (hcov : ∀ p, (∃ b ∈ C', b.1 ≤ p ∧ p < b.1 + 2 ^ b.2) ↔ ∃ b ∈ C, b.1 ≤ p ∧ p < b.1 + 2 ^ b.2)
    (hap : ∀ b ∈ C', ∀ c ∈ C', b ≠ c → b.Apart c) (hCR : ∀ b ∈ C, b ∉ R) : Tiling F (C' ∪ R) := by
  have hout : ∀ b ∈ C', ∀ c ∈ R, b.Apart c := by
    intro b hb c hc
    by_contra hn
    simp only [Block.Apart, not_or, Nat.not_le] at hn
    have hpow := Nat.two_pow_pos b.2
    have hpow' := Nat.two_pow_pos c.2
    obtain ⟨d, hd, hd₁, hd₂⟩ := (hcov (max b.1 c.1)).mp ⟨b, hb, by omega, by omega⟩
    have : d = c := h.eq_of_mem (.inl hd) (.inr hc) hd₁ hd₂ (by omega) (by omega)
    exact hCR d hd (this ▸ hc)
  refine ⟨?_, fun p => ?_, ?_⟩
  · rintro b (hb | hb)
    · exact hal b hb
    · exact h.aligned b (.inr hb)
  · rw [h.cover p]
    simp only [Set.mem_union, or_and_right, exists_or]
    rw [hcov p]
  · rintro b (hb | hb) c (hc | hc) hne
    · exact hap b hb c hc hne
    · exact hout b hb c hc
    · exact (hout c hc b hb).symm
    · exact h.apart b (.inr hb) c (.inr hc) hne

theorem Tiling.split (h : Tiling F ({(i, k + 1)} ∪ R))
    (hR : (i, k + 1) ∉ R) : Tiling F ({(i, k), (i + 2 ^ k, k)} ∪ R) := by
  have hal : 2 ^ (k + 1) ∣ i := h.aligned (i, k + 1) (.inl rfl)
  have hk : 2 ^ k ∣ i := Nat.dvd_trans (Nat.pow_dvd_pow 2 (Nat.le_succ k)) hal
  refine h.replace ?_ ?_ ?_ ?_
  · rintro b (rfl | rfl)
    · exact hk
    · exact (Nat.dvd_add_right hk).mpr (Nat.dvd_refl _)
  · intro p
    have := Nat.two_pow_pos k
    simp only [Set.mem_insert_iff, Set.mem_singleton_iff, exists_eq_or_imp, exists_eq_left, Nat.pow_succ]
    omega
  · rintro b (rfl | rfl) c (rfl | rfl) hne <;> simp [Block.Apart] at hne ⊢
  · rintro b rfl; exact hR

theorem Tiling.join (h : Tiling F ({(i, k), (i + 2 ^ k, k)} ∪ R))
    (hal : 2 ^ (k + 1) ∣ i) (h₁ : (i, k) ∉ R) (h₂ : (i + 2 ^ k, k) ∉ R) :
    Tiling F ({(i, k + 1)} ∪ R) := by
  refine h.replace ?_ ?_ ?_ ?_
  · rintro b rfl; exact hal
  · intro p
    have := Nat.two_pow_pos k
    simp only [Set.mem_insert_iff, Set.mem_singleton_iff, exists_eq_or_imp, exists_eq_left, Nat.pow_succ]
    omega
  · rintro b rfl c rfl hne; exact absurd rfl hne
  · rintro b (rfl | rfl)
    · exact h₁
    · exact h₂

theorem Tiling.sum_le (h : Tiling F B) (hF : ∀ p ∈ F, p < n) {S : Finset Block}
    (hS : ∀ b ∈ S, b ∈ B) : ∑ b ∈ S, 2 ^ b.2 ≤ n := by
  have hcard : ∑ b ∈ S, 2 ^ b.2 = (S.biUnion fun b => Finset.Ico b.1 (b.1 + 2 ^ b.2)).card := by
    rw [Finset.card_biUnion]
    · simp
    · intro b hb c hc hne
      refine Finset.disjoint_left.mpr fun p hp hp' => ?_
      simp only [Finset.mem_Ico] at hp hp'
      exact hne (h.eq_of_mem (hS b hb) (hS c hc) hp.1 hp.2 hp'.1 hp'.2)
  rw [hcard, ← Finset.card_range n]
  refine Finset.card_le_card fun p hp => ?_
  simp only [Finset.mem_biUnion, Finset.mem_Ico] at hp
  obtain ⟨b, hb, h₁, h₂⟩ := hp
  exact Finset.mem_range.mpr (hF p (h.subset (hS b hb) h₁ h₂))

/-! ## Merged tilings -/

/-- No two buddies of an order below the last of `n` orders are both there. -/
def Merged (n : Nat) (B : Set Block) : Prop := ∀ i k, k + 1 < n → (i, k) ∈ B → (i ^^^ 2 ^ k, k) ∉ B

theorem Merged.mono (h : Merged n B) (hs : B' ⊆ B) : Merged n B' :=
  fun i k hk hi hb => h i k hk (hs hi) (hs hb)

theorem Merged.insert {n i k : Nat} (h : Merged n B) (hb : k + 1 < n → (i ^^^ 2 ^ k, k) ∉ B) :
    Merged n (insert (i, k) B) := by
  have hself : ∀ j : Nat, j ^^^ 2 ^ k ≠ j := by
    intro j e
    have hx : j ^^^ (j ^^^ 2 ^ k) = j ^^^ j := by rw [e]
    rw [← Nat.xor_assoc, Nat.xor_self, Nat.zero_xor] at hx
    exact absurd hx (Nat.two_pow_pos k).ne'
  intro j m hm hj hj'
  rcases hj with e | hj
  · obtain ⟨rfl, rfl⟩ := Prod.mk.inj e
    rcases hj' with e | hj'
    · exact hself j (Prod.mk.inj e).1
    · exact hb hm hj'
  · rcases hj' with e | hj'
    · obtain ⟨rfl, rfl⟩ := Prod.mk.inj e
      refine hb hm ?_
      rw [Nat.xor_assoc, Nat.xor_self, Nat.xor_zero]
      exact hj
    · exact h j m hm hj hj'

def pagesOf (B : Set Block) : Set Nat := {p | ∃ b ∈ B, b.1 ≤ p ∧ p < b.1 + 2 ^ b.2}

theorem Tiling.part (h : Tiling F (B ∪ R)) : Tiling (pagesOf B) B where
  aligned b hb := h.aligned b (.inl hb)
  cover _ := Iff.rfl
  apart b hb c hc := h.apart b (.inl hb) c (.inl hc)

theorem xor_two_pow_of_dvd (h : 2 ^ (k + 1) ∣ i) : i ^^^ 2 ^ k = i + 2 ^ k := by
  have hk : 2 ^ k ∣ i := Nat.dvd_trans (Nat.pow_dvd_pow 2 (Nat.le_succ k)) h
  rcases buddy_cases hk with ⟨hx, -, -⟩ | ⟨hx, -, hd⟩
  · exact hx
  · have hdvd : 2 ^ (k + 1) ∣ 2 ^ k := (Nat.dvd_add_right hd).mp (by rw [hx]; exact h)
    have hle := Nat.le_of_dvd (Nat.two_pow_pos k) hdvd
    rw [Nat.pow_succ] at hle
    have := Nat.two_pow_pos k
    omega

theorem aligned_nested {i k j m p : Nat} (hi : 2 ^ k ∣ i) (hj : 2 ^ m ∣ j) (hmk : m ≤ k) (hi₁ : i ≤ p)
    (hi₂ : p < i + 2 ^ k) (hj₁ : j ≤ p) (hj₂ : p < j + 2 ^ m) : i ≤ j ∧ j + 2 ^ m ≤ i + 2 ^ k := by
  have hpow : 2 ^ m ∣ 2 ^ k := Nat.pow_dvd_pow 2 hmk
  obtain ⟨a, ha⟩ := Nat.dvd_trans hpow hi
  obtain ⟨b, hb⟩ := hj
  obtain ⟨c, hc⟩ := hpow
  rw [hc] at hi₂ ⊢
  rw [ha] at hi₁ hi₂ ⊢
  rw [hb] at hj₁ hj₂ ⊢
  rw [← Nat.mul_succ] at hj₂ ⊢
  rw [← Nat.mul_add] at hi₂ ⊢
  have h₁ : a < b.succ := Nat.lt_of_mul_lt_mul_left (hi₁.trans_lt hj₂)
  have h₂ : b < a + c := Nat.lt_of_mul_lt_mul_left (hj₁.trans_lt hi₂)
  exact ⟨Nat.mul_le_mul_left _ (Nat.le_of_lt_succ h₁), Nat.mul_le_mul_left _ h₂⟩

theorem Tiling.run (h : Tiling F B) (hm : Merged n B) : ∀ (k : Nat), k < n → ∀ {j : Nat}, 2 ^ k ∣ j →
    (∀ p, j ≤ p → p < j + 2 ^ k → p ∈ F) → ∃ b ∈ B, k ≤ b.2 ∧ b.1 ≤ j ∧ j + 2 ^ k ≤ b.1 + 2 ^ b.2 := by
  intro k
  induction k with
  | zero =>
    intro _ j _ hp
    obtain ⟨b, hb, h₁, h₂⟩ := (h.cover j).mp (hp j (Nat.le_refl j) (Nat.lt_succ_self j))
    exact ⟨b, hb, Nat.zero_le _, h₁, h₂⟩
  | succ k ih =>
    intro hk j hj hp
    have hpow := Nat.two_pow_pos k
    have hj' : 2 ^ k ∣ j := Nat.dvd_trans (Nat.pow_dvd_pow 2 (Nat.le_succ k)) hj
    -- a block of a larger order that meets the run holds all of it
    have hlarge : ∀ b ∈ B, k + 1 ≤ b.2 → ∀ p, j ≤ p → p < j + 2 ^ (k + 1) → b.1 ≤ p → p < b.1 + 2 ^ b.2 →
        b.1 ≤ j ∧ j + 2 ^ (k + 1) ≤ b.1 + 2 ^ b.2 := fun b hb hle p h₁ h₂ h₃ h₄ =>
      aligned_nested (h.aligned b hb) hj hle h₃ h₄ h₁ h₂
    rw [Nat.pow_succ] at hp hlarge ⊢
    obtain ⟨b, hb, hkb, hb₁, hb₂⟩ := ih (by omega) hj' fun p h₁ h₂ => hp p h₁ (by omega)
    obtain ⟨c, hc, hkc, hc₁, hc₂⟩ := ih (by omega) ((Nat.dvd_add_right hj').mpr (Nat.dvd_refl _))
      fun p h₁ h₂ => hp p (by omega) (by omega)
    rcases Nat.lt_or_eq_of_le hkb with hlt | heq
    · exact ⟨b, hb, hlt, hlarge b hb hlt j (Nat.le_refl j) (by omega) hb₁ (by omega)⟩
    rcases Nat.lt_or_eq_of_le hkc with hlt | heq'
    · exact ⟨c, hc, hlt, hlarge c hc hlt (j + 2 ^ k) (by omega) (by omega) hc₁ (by omega)⟩
    -- otherwise the two halves are blocks, and buddies
    have eb : b = (j, k) := Prod.ext (by simp only [← heq] at hb₂ ⊢; omega) heq.symm
    have ec : c = (j + 2 ^ k, k) := Prod.ext (by simp only [← heq'] at hc₂ ⊢; omega) heq'.symm
    rw [eb] at hb
    rw [ec, ← xor_two_pow_of_dvd hj] at hc
    exact absurd hc (hm j k hk hb)

theorem Tiling.subset_of_merged (h : Tiling F B) (h' : Tiling F B') (hm : Merged n B)
    (hm' : Merged n B') (hn : ∀ b ∈ B, b.2 < n) (hn' : ∀ b ∈ B', b.2 < n) : B ⊆ B' := by
  intro b hb
  have hpow := Nat.two_pow_pos b.2
  obtain ⟨c, hc, hle, hc₁, hc₂⟩ := h'.run hm' b.2 (hn b hb) (h.aligned b hb) fun p => h.subset hb
  obtain ⟨d, hd, hle', hd₁, hd₂⟩ := h.run hm c.2 (hn' c hc) (h'.aligned c hc) fun p => h'.subset hc
  have hdb : d = b := h.eq_of_mem hd hb (by omega) (by omega) (Nat.le_refl _) (by omega)
  rw [hdb] at hle' hd₁ hd₂
  have hcb : c = b := Prod.ext (by omega) (by omega)
  exact hcb ▸ hc

/-- A set of indices has one merged tiling. -/
theorem Tiling.unique (h : Tiling F B) (h' : Tiling F B') (hm : Merged n B)
    (hm' : Merged n B') (hn : ∀ b ∈ B, b.2 < n) (hn' : ∀ b ∈ B', b.2 < n) : B = B' :=
  Set.Subset.antisymm (h.subset_of_merged h' hm hm' hn hn') (h'.subset_of_merged h hm' hm hn' hn)

end

end MiniOS
