import MiniOS.VmaTree

/-!
# What the two searches answer

`find_vma` descends to the left from an area that ends above the address and to the right from
one that does not. `find_vma_prev` was made from it by turning the comparison round, but an area
that ends below the address starts below it too, so that the first such area ends the search; and
from all others it goes to the right, where the areas end later still.
-/

namespace MiniOS

open List

def FirstAbove (m : Mm) (l : List Nat) (addr r : Nat) : Prop :=
  (r = 0 ∧ ∀ a ∈ l, (m.heap a).vmEnd ≤ addr) ∨
    (r ∈ l ∧ r ≠ 0 ∧ addr < (m.heap r).vmEnd ∧
      ∀ a ∈ l, addr < (m.heap a).vmEnd → a ≠ r → (m.heap r).vmEnd < (m.heap a).vmEnd)

def LastBelow (m : Mm) (l : List Nat) (addr r : Nat) : Prop :=
  (r = 0 ∧ ∀ a ∈ l, addr < (m.heap a).vmEnd) ∨
    (r ∈ l ∧ r ≠ 0 ∧ (m.heap r).vmEnd ≤ addr ∧
      ∀ a ∈ l, (m.heap a).vmEnd ≤ addr → a ≠ r → (m.heap a).vmEnd < (m.heap r).vmEnd)

/-- No area ends at or below `addr`, or the root ends below it and every area that ends later
than the root ends above it. -/
def RootIsLast (m : Mm) (l : List Nat) (addr : Nat) : Prop :=
  (∀ a ∈ l, addr < (m.heap a).vmEnd) ∨
    ((m.heap m.rbNode).vmEnd < addr ∧ ∀ a ∈ l, (m.heap m.rbNode).vmEnd < (m.heap a).vmEnd → addr < (m.heap a).vmEnd)

section
variable {m : Mm} {t : BTree Nat} {addr r : Nat}

theorem InOrder.firstAbove {l : List Nat} (h : InOrder m l) (h₀ : ∀ a ∈ l, a ≠ 0) :
    FirstAbove m l addr ((l.find? fun a => addr < (m.heap a).vmEnd).getD 0) := by
  cases hfind : l.find? fun a => decide (addr < (m.heap a).vmEnd) with
  | none =>
    refine .inl ⟨rfl, fun a ha => ?_⟩
    simpa using find?_eq_none.mp hfind a ha
  | some x =>
    obtain ⟨habove, pre, post, hsplit, hpre⟩ := find?_eq_some_iff_append.mp hfind
    have hx : x ∈ l := mem_of_find?_eq_some hfind
    refine .inr ⟨hx, h₀ x hx, of_decide_eq_true habove, fun a ha ha' hne => ?_⟩
    have hends := h.ends
    rw [hsplit] at ha hends
    rcases mem_append.mp ha with ha | ha
    · -- before the first one that ends above the address none does
      have := hpre a ha
      simp [ha'] at this
    · rcases mem_cons.mp ha with rfl | ha
      · exact absurd rfl hne
      · exact (pairwise_cons.mp (pairwise_append.mp hends).2.1).1 a ha

theorem InOrder.end_ne {l : List Nat} (h : InOrder m l) {a b : Nat} (ha : a ∈ l) (hb : b ∈ l) (hne : a ≠ b) :
    (m.heap a).vmEnd ≠ (m.heap b).vmEnd :=
  have : Std.Symm fun a b => (m.heap a).vmEnd ≠ (m.heap b).vmEnd := ⟨fun _ _ => Ne.symm⟩
  (h.ends.imp Nat.ne_of_lt).forall ha hb hne

/-- The root is the answer of `find_vma_prev` if it ends below the address; it is the right one
if nothing else ends between it and the address. -/
theorem lastBelow_root_iff (ht : TreeBelow m.links 0 m.rbNode t) (ha : InOrder m t.inorder) :
    LastBelow m t.inorder addr (if m.rbNode ≠ 0 ∧ (m.heap m.rbNode).vmEnd < addr then m.rbNode else 0) ↔
      RootIsLast m t.inorder addr := by
  by_cases hroot : m.rbNode ≠ 0 ∧ (m.heap m.rbNode).vmEnd < addr
  · rw [if_pos hroot]
    have hmem := ht.root_mem hroot.1
    constructor
    · rintro (⟨hn, -⟩ | ⟨-, -, -, hlast⟩)
      · exact absurd hn hroot.1
      · refine .inr ⟨hroot.2, fun a hal hlater => Nat.not_le.mp fun hend => ?_⟩
        have hne : a ≠ m.rbNode := fun e => Nat.lt_irrefl _ (e ▸ hlater)
        exact Nat.lt_asymm hlater (hlast a hal hend hne)
    · rintro (hnone | ⟨-, hlater⟩)
      · exact absurd (hnone _ hmem) (Nat.lt_asymm hroot.2)
      · refine .inr ⟨hmem, hroot.1, Nat.le_of_lt hroot.2, fun a hal hend hne => ?_⟩
        rcases Nat.lt_or_gt_of_ne (ha.end_ne hal hmem hne) with h | h
        · exact h
        · exact absurd hend (Nat.not_le.mpr (hlater a hal h))
  · rw [if_neg hroot]
    constructor
    · rintro (⟨-, hnone⟩ | ⟨-, hn, -⟩)
      · exact .inl hnone
      · exact absurd rfl hn
    · rintro (hnone | ⟨hend, -⟩)
      · exact .inl ⟨rfl, hnone⟩
      · refine .inl ⟨rfl, fun a hal => ?_⟩
        exact absurd ⟨ht.root_ne_null hal, hend⟩ hroot

end

theorem find_vma_exact {m : Mm} {t : BTree Nat} {fuel : Nat} (ht : TreeBelow m.links 0 m.rbNode t)
    (ha : InOrder m t.inorder) (hf : t.inorder.length < fuel) (addr : Nat) :
    ∃ r, m.findVma addr fuel m.rbNode 0 = some r ∧ FirstAbove m t.inorder addr r := by
  obtain ⟨r, hr⟩ := findVma_isSome addr fuel 0 ht hf
  have hspec := findVma_spec fuel ht ha hr
  exact ⟨r, hr, hspec ▸ ha.firstAbove ht.ne_null⟩

def twoAreas : Mm :=
  { Mm.allocMm (fun a =>
      if a = 48 then { zeroVma with rbLeft := 16, vmStart := 0x5000, vmEnd := 0x6000 }
      else { zeroVma with rbParent := 48, vmStart := 0x1000, vmEnd := 0x2000 }) with
    rbNode := 48 }

theorem twoAreas_tree : TreeBelow twoAreas.links 0 twoAreas.rbNode (.node (.node .nil 16 .nil) 48 .nil) :=
  ⟨rfl, by decide, ⟨rfl, by decide, rfl, rfl⟩, rfl⟩

theorem twoAreas_inOrder : InOrder twoAreas [16, 48] := ⟨by decide, by decide⟩

theorem find_vma_exact_gap : ∃ r, twoAreas.findVma 0x2000 3 twoAreas.rbNode 0 = some r ∧
    FirstAbove twoAreas [16, 48] 0x2000 r :=
  find_vma_exact twoAreas_tree twoAreas_inOrder (Nat.lt_succ_self 2) 0x2000

/-- Of all addresses, `find_vma_prev` answers the right area exactly for those of `RootIsLast`. -/
theorem find_vma_prev_iff {m : Mm} {t : BTree Nat} {fuel : Nat} (ht : TreeBelow m.links 0 m.rbNode t)
    (ha : InOrder m t.inorder) (hf : t.inorder.length < fuel) (addr : Nat) :
    ∃ r, m.findVmaPrev addr fuel m.rbNode 0 = some r ∧
      (LastBelow m t.inorder addr r ↔ RootIsLast m t.inorder addr) := by
  obtain ⟨r, hr⟩ := findVmaPrev_isSome addr fuel 0 ht hf
  have hspec := findVmaPrev_spec ht ha hr
  exact ⟨r, hr, hspec ▸ lastBelow_root_iff ht ha⟩

theorem find_vma_prev_iff_above : ∃ r, twoAreas.findVmaPrev 0x7000 3 twoAreas.rbNode 0 = some r ∧
    LastBelow twoAreas [16, 48] 0x7000 r := by
  obtain ⟨r, hr, hiff⟩ := find_vma_prev_iff twoAreas_tree twoAreas_inOrder (Nat.lt_succ_self 2) 0x7000
  exact ⟨r, hr, hiff.mpr (.inr (by decide))⟩

/-- The start of the upper area, an address between the two, and the end of the upper one: the
search answers `NULL`, though an area ends at or below each of them. -/
theorem find_vma_prev_misses : InOrder twoAreas [16, 48] ∧ ∀ addr ∈ [0x5000, 0x3000, 0x6000],
    ((∃ a ∈ [16, 48], (twoAreas.heap a).vmStart = addr) ∨
      ∀ a ∈ [16, 48], (twoAreas.heap a).vmEnd ≤ addr ∨ addr < (twoAreas.heap a).vmStart) ∧
    twoAreas.findVmaPrev addr 3 twoAreas.rbNode 0 = some 0 ∧ ¬ LastBelow twoAreas [16, 48] addr 0 := by
  have hleft : (twoAreas.heap 16).vmEnd = 0x2000 := rfl
  refine ⟨twoAreas_inOrder, fun addr haddr => ?_⟩
  refine ⟨by revert addr; decide, by revert addr; decide, ?_⟩
  rintro (⟨-, hnone⟩ | ⟨-, hn, -⟩)
  · have habove := hnone 16 (by decide)
    rw [hleft] at habove
    simp only [mem_cons, not_mem_nil, or_false] at haddr
    omega
  · exact hn rfl

end MiniOS
