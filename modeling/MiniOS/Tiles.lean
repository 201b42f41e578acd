import Mathlib.Data.List.Pairwise
import Mathlib.Data.List.Chain

/-!
# Segments in a row

Elements with a position and a length that follow one another, with or without gaps.
-/

namespace MiniOS

open List

section
variable {α : Type} (pos len : α → Nat)

def Tiles : Nat → Nat → List α → Prop
  | lo, hi, [] => lo = hi
  | lo, hi, a :: l => pos a = lo ∧ Tiles (lo + len a) hi l

def Packed : Nat → Nat → List α → Prop
  | lo, hi, [] => lo ≤ hi
  | lo, hi, a :: l => lo ≤ pos a ∧ Packed (pos a + len a) hi l

def Covered (l : List α) (x : Nat) : Prop := ∃ a ∈ l, pos a ≤ x ∧ x < pos a + len a

variable {pos len} {lo lo' hi hi' x : Nat} {l l₁ l₂ : List α} {a b : α}

/-! ## Addresses -/

theorem covered_cons : Covered pos len (a :: l) x ↔ (pos a ≤ x ∧ x < pos a + len a) ∨ Covered pos len l x := by
  simp only [Covered, mem_cons, exists_eq_or_imp]

theorem covered_append : Covered pos len (l₁ ++ l₂) x ↔ Covered pos len l₁ x ∨ Covered pos len l₂ x := by
  simp only [Covered, mem_append]
  constructor
  · rintro ⟨a, ha | ha, hx⟩
    · exact .inl ⟨a, ha, hx⟩
    · exact .inr ⟨a, ha, hx⟩
  · rintro (⟨a, ha, hx⟩ | ⟨a, ha, hx⟩)
    · exact ⟨a, .inl ha, hx⟩
    · exact ⟨a, .inr ha, hx⟩

/-! ## With gaps -/

namespace Packed

theorem le : ∀ {l : List α} {lo : Nat}, Packed pos len lo hi l → lo ≤ hi := by
  intro l
  induction l with
  | nil => intro lo h; exact h
  | cons a l ih => intro lo h; exact Nat.le_trans (h.1.trans (Nat.le_add_right ..)) (ih h.2)

theorem mono_lo (h : Packed pos len lo hi l) (hle : lo' ≤ lo) : Packed pos len lo' hi l := by
  cases l with
  | nil => exact hle.trans h
  | cons a l => exact ⟨hle.trans h.1, h.2⟩

theorem mono_hi (hle : hi ≤ hi') : ∀ {l : List α} {lo : Nat}, Packed pos len lo hi l → Packed pos len lo hi' l := by
  intro l
  induction l with
  | nil => intro lo h; exact h.trans hle
  | cons a l ih => intro lo h; exact ⟨h.1, ih h.2⟩

theorem within : ∀ {l : List α} {lo : Nat}, Packed pos len lo hi l → a ∈ l → lo ≤ pos a ∧ pos a + len a ≤ hi := by
  intro l
  induction l with
  | nil => intro lo _ ha; cases ha
  | cons b l ih =>
    intro lo h ha
    cases mem_cons.mp ha with
    | inl e =>
      rw [e]
      exact ⟨h.1, h.2.le⟩
    | inr ha =>
      obtain ⟨h₁, h₂⟩ := ih h.2 ha
      have := h.1
      exact ⟨by omega, h₂⟩

theorem pairwise : ∀ {l : List α} {lo : Nat}, Packed pos len lo hi l →
    l.Pairwise fun a b => pos a + len a ≤ pos b := by
  intro l
  induction l with
  | nil => intro lo _; exact .nil
  | cons a l ih =>
    intro lo h
    exact .cons (fun b hb => (h.2.within hb).1) (ih h.2)

theorem apart (h : Packed pos len lo hi l) (ha : a ∈ l) (hb : b ∈ l) (hne : pos a ≠ pos b) :
    pos a + len a ≤ pos b ∨ pos b + len b ≤ pos a := by
  have hsymm : Std.Symm fun a b => pos a + len a ≤ pos b ∨ pos b + len b ≤ pos a := ⟨fun _ _ => Or.symm⟩
  have hall : l.Pairwise fun a b => pos a + len a ≤ pos b ∨ pos b + len b ≤ pos a := h.pairwise.imp .inl
  exact hall.forall ha hb fun e => hne (congrArg pos e)

theorem length_le (hpos : ∀ a, 0 < len a) : ∀ {l : List α} {lo : Nat}, Packed pos len lo hi l →
    l.length + lo ≤ hi := by
  intro l
  induction l with
  | nil => intro lo h; rw [length_nil, Nat.zero_add]; exact h
  | cons a l ih =>
    intro lo h
    have := ih h.2
    have := hpos a
    have := h.1
    rw [length_cons]
    omega

end Packed

theorem packed_middle : ∀ {l₁ : List α} {lo : Nat}, Packed pos len lo hi (l₁ ++ a :: l₂) ↔
    Packed pos len lo (pos a) l₁ ∧ Packed pos len (pos a + len a) hi l₂ := by
  intro l₁
  induction l₁ with
  | nil => intro lo; exact Iff.rfl
  | cons b l₁ ih => intro lo; rw [cons_append, Packed, ih, Packed, and_assoc]

theorem Packed.last_end (hpos : ∀ a, 0 < len a) (h : Packed pos len lo hi l) (hx : x + 1 = hi)
    (hc : Covered pos len l x) (hb : b ∈ l.getLast?) : pos b + len b = hi := by
  obtain ⟨l', rfl⟩ := getLast?_eq_some_iff.mp hb
  obtain ⟨hl', hend⟩ := packed_middle.mp h
  have := hpos b
  have : pos b + len b ≤ hi := hend
  obtain ⟨a, ha, -, hlt⟩ := hc
  rcases mem_append.mp ha with ha | ha
  · have := (hl'.within ha).2
    omega
  · rw [mem_singleton.mp ha] at hlt
    omega

/-! ## Without gaps -/

theorem Tiles.packed : ∀ {l : List α} {lo : Nat}, Tiles pos len lo hi l → Packed pos len lo hi l := by
  intro l
  induction l with
  | nil => intro lo h; exact Nat.le_of_eq h
  | cons a l ih =>
    intro lo h
    refine ⟨Nat.le_of_eq h.1.symm, ?_⟩
    rw [h.1]
    exact ih h.2

theorem Tiles.covered : ∀ {l : List α} {lo : Nat}, Tiles pos len lo hi l → lo ≤ x → x < hi →
    Covered pos len l x := by
  intro l
  induction l with
  | nil =>
    intro lo h h₁ h₂
    have : lo = hi := h
    omega
  | cons a l ih =>
    intro lo h h₁ h₂
    rw [covered_cons, h.1]
    by_cases hx : x < lo + len a
    · exact .inl ⟨h₁, hx⟩
    · exact .inr (ih h.2 (Nat.le_of_not_lt hx) h₂)

theorem tiles_iff (hpos : ∀ a, 0 < len a) : ∀ {l : List α} {lo : Nat}, Tiles pos len lo hi l ↔
    Packed pos len lo hi l ∧ ∀ x, lo ≤ x → x < hi → Covered pos len l x := by
  intro l
  induction l with
  | nil =>
    intro lo
    constructor
    · exact fun h => ⟨h.packed, fun x => h.covered⟩
    · rintro ⟨hle, hall⟩
      by_contra hne
      have hlt : lo < hi := Nat.lt_of_le_of_ne hle hne
      obtain ⟨a, ha, -⟩ := hall lo (Nat.le_refl _) hlt
      cases ha
  | cons a l ih =>
    intro lo
    constructor
    · exact fun h => ⟨h.packed, fun x => h.covered⟩
    · rintro ⟨hp, hall⟩
      have hge := hp.1
      have hpa := hpos a
      have hend := hp.2.le
      -- the first address is not behind the first segment
      have hlo : pos a = lo := by
        rcases covered_cons.mp (hall lo (Nat.le_refl _) (by omega)) with hx | ⟨b, hb, hx⟩
        · omega
        · have := (hp.2.within hb).1
          omega
      rw [Tiles, ih, ← hlo]
      refine ⟨rfl, hp.2, fun x h₁ h₂ => ?_⟩
      rcases covered_cons.mp (hall x (by omega) h₂) with hx | hx
      · omega
      · exact hx

theorem Tiles.le (h : Tiles pos len lo hi l) : lo ≤ hi := h.packed.le

theorem Tiles.adjacent : ∀ {l₁ : List α} {lo : Nat}, Tiles pos len lo hi (l₁ ++ a :: b :: l₂) →
    pos a + len a = pos b := by
  intro l₁
  induction l₁ with
  | nil => intro lo h; rw [h.1]; exact h.2.1.symm
  | cons c l₁ ih => intro lo h; exact ih h.2

theorem Tiles.mem_tail (h : Tiles pos len lo hi (a :: l)) (hx : pos b ≠ lo) :
    b ∈ a :: l ↔ b ∈ l := by
  rw [mem_cons]
  refine ⟨fun hb => hb.resolve_left ?_, .inr⟩
  rintro rfl
  exact hx h.1

-- The next segment begins inside the first one of the other list.
theorem Tiles.len_le (hpos : ∀ a, 0 < len a) {used : α → Prop} (h : Tiles pos len lo hi (a :: l₁))
    (h' : Tiles pos len lo hi (b :: l₂)) (hchain : (a :: l₁).IsChain fun a b => used a ∨ used b) (ha : ¬ used a)
    (hsub : ∀ c, used c → c ∈ a :: l₁ → c ∈ b :: l₂) : len b ≤ len a := by
  by_contra hlt
  have hend := h'.2.le
  cases l₁ with
  | nil =>
    have : lo + len a = hi := h.2
    omega
  | cons c l₁ =>
    have hc : used c := (isChain_cons_cons.mp hchain).1.resolve_left ha
    have hpc : pos c = lo + len a := h.2.1
    have := hpos a
    have hin := hsub c hc (by simp)
    rw [h'.mem_tail (by omega)] at hin
    have := (h'.2.packed.within hin).1
    omega

theorem Tiles.eq_nil (hpos : ∀ a, 0 < len a) (h : Tiles pos len lo lo l) : l = [] := by
  cases l with
  | nil => rfl
  | cons a l =>
    have := h.2.le
    have := hpos a
    omega

theorem Tiles.head_of_mem (hpos : ∀ a, 0 < len a) (h : Tiles pos len lo hi (a :: l₁))
    (h' : Tiles pos len lo hi (b :: l₂)) (hin : a ∈ b :: l₂) : a = b := by
  refine (mem_cons.mp hin).resolve_right fun hin => ?_
  have := (h'.2.packed.within hin).1
  have := h.1
  have := hpos b
  omega

section
variable (hpos : ∀ a, 0 < len a) {used : α → Prop}
  (hext : ∀ a b, ¬ used a → ¬ used b → pos a = pos b → len a = len b → a = b)
include hpos hext

theorem Tiles.head_eq (h : Tiles pos len lo hi (a :: l₁)) (h' : Tiles pos len lo hi (b :: l₂))
    (hc : (a :: l₁).IsChain fun a b => used a ∨ used b) (hc' : (b :: l₂).IsChain fun a b => used a ∨ used b)
    (hsame : ∀ c, used c → (c ∈ a :: l₁ ↔ c ∈ b :: l₂)) : a = b := by
  by_cases ha : used a
  · exact h.head_of_mem hpos h' ((hsame a ha).mp (mem_cons_self ..))
  · by_cases hb : used b
    · exact (h'.head_of_mem hpos h ((hsame b hb).mpr (mem_cons_self ..))).symm
    · have h₁ := h.len_le hpos h' hc ha fun c hu => (hsame c hu).mp
      have h₂ := h'.len_le hpos h hc' hb fun c hu => (hsame c hu).mpr
      exact hext a b ha hb (h.1.trans h'.1.symm) (Nat.le_antisymm h₂ h₁)

/-- Two tilings with the same used segments are the same if no two segments that are not used are neighbours. -/
theorem Tiles.unique :
    ∀ {l l' : List α} {lo : Nat}, Tiles pos len lo hi l → Tiles pos len lo hi l' →
      l.IsChain (fun a b => used a ∨ used b) → l'.IsChain (fun a b => used a ∨ used b) →
      (∀ a, used a → (a ∈ l ↔ a ∈ l')) → l = l' := by
  intro l
  induction l with
  | nil =>
    intro l' lo h h' _ _ _
    cases h
    exact (h'.eq_nil hpos).symm
  | cons a l ih =>
    intro l' lo h h' hc hc' hsame
    cases l' with
    | nil =>
      cases h'
      exact h.eq_nil hpos
    | cons b l' =>
      obtain rfl := h.head_eq hpos hext h' hc hc' hsame
      rw [ih h.2 h'.2 hc.tail hc'.tail]
      intro c hu
      have hlater : ∀ {l : List α}, Tiles pos len (lo + len a) hi l → c ∈ l → pos c ≠ lo := by
        intro l hl hin
        have := (hl.packed.within hin).1
        have := hpos a
        omega
      constructor
      · intro hin
        rw [← h'.mem_tail (hlater h.2 hin), ← hsame c hu]
        exact mem_cons_of_mem _ hin
      · intro hin
        rw [← h.mem_tail (hlater h'.2 hin), hsame c hu]
        exact mem_cons_of_mem _ hin

end

theorem Tiles.concat : ∀ {l : List α} {lo : Nat}, Tiles pos len lo hi l → pos a = hi → Tiles pos len lo (hi + len a)
    (l ++ [a]) := by
  intro l
  induction l with
  | nil =>
    intro lo h ha
    have hlo : lo = hi := h
    rw [hlo]
    exact ⟨ha, rfl⟩
  | cons b l ih => exact fun h ha => ⟨h.1, ih h.2 ha⟩

theorem Tiles.last : ∀ {l₁ : List α} {lo : Nat}, Tiles pos len lo hi (l₁ ++ [a]) → pos a + len a = hi := by
  intro l₁
  induction l₁ with
  | nil => intro lo h; rw [h.1]; exact h.2
  | cons c l₁ ih => intro lo h; exact ih h.2

end

end MiniOS
