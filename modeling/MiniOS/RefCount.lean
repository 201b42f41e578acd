import Mathlib.Data.Finset.Card
import Mathlib.Data.Finset.Prod

/-! # Counting references

Positions `D`, each of which may refer to an object, and the number of them that
refer to a given one. -/

namespace MiniOS

open Finset

section
variable {ι α : Type} [DecidableEq α]

def refs (D : Finset ι) (f : ι → Option α) (p : α) : Nat := (D.filter fun i => f i = some p).card

def hits (o : Option α) (p : α) : Nat := if o = some p then 1 else 0

variable {D E : Finset ι} {f g : ι → Option α} {p : α} {i j : ι}

@[simp] theorem hits_none (p : α) : hits none p = 0 := rfl

@[simp] theorem hits_self (p : α) : hits (some p) p = 1 := if_pos rfl

theorem hits_of_ne {o : Option α} (h : o ≠ some p) : hits o p = 0 := if_neg h

theorem hits_le_one (o : Option α) (p : α) : hits o p ≤ 1 := by unfold hits; split <;> decide

theorem refs_pos : 0 < refs D f p ↔ ∃ i ∈ D, f i = some p := by
  simp only [refs, card_pos, Finset.Nonempty, mem_filter]

theorem refs_eq_zero : refs D f p = 0 ↔ ∀ i ∈ D, f i ≠ some p := by
  simp only [refs, card_eq_zero, filter_eq_empty_iff, ne_eq]

theorem refs_congr (h : ∀ i ∈ D, g i = f i) : refs D g p = refs D f p := by
  rw [refs, refs, filter_congr fun i hi => by rw [h i hi]]

theorem refs_le_card : refs D f p ≤ D.card := card_filter_le _ _

theorem refs_le_one (h : ∀ i ∈ D, f i = some p → i = j) : refs D f p ≤ 1 := by
  refine card_le_one.mpr fun a ha b hb => ?_
  simp only [mem_filter] at ha hb
  rw [h a ha.1 ha.2, h b hb.1 hb.2]

theorem refs_of_subset (hs : E ⊆ D) (h : ∀ i ∈ D, i ∉ E → f i = none) : refs D f p = refs E f p := by
  refine congrArg card (ext fun i => ?_)
  simp only [mem_filter]
  refine ⟨fun ⟨hi, hf⟩ => ⟨?_, hf⟩, fun ⟨hi, hf⟩ => ⟨hs hi, hf⟩⟩
  refine Classical.byContradiction fun hn => ?_
  rw [h i hi hn] at hf
  cases hf

variable [DecidableEq ι] {κ : Type}

theorem refs_erase (hi : i ∈ D) : refs D f p = refs (D.erase i) f p + hits (f i) p := by
  rw [refs, refs, filter_erase]
  by_cases h : f i = some p
  · rw [h, hits_self, card_erase_add_one (mem_filter.mpr ⟨hi, h⟩)]
  · have hm : i ∉ D.filter fun i => f i = some p := fun hm => h (mem_filter.mp hm).2
    rw [hits_of_ne h, erase_eq_of_notMem hm, Nat.add_zero]

theorem refs_set (hi : i ∈ D) (h : ∀ j ∈ D, j ≠ i → g j = f j) (p : α) :
    refs D g p + hits (f i) p = refs D f p + hits (g i) p := by
  have e : refs (D.erase i) g p = refs (D.erase i) f p :=
    refs_congr fun j hj => h j (mem_of_mem_erase hj) (ne_of_mem_erase hj)
  rw [refs_erase hi, refs_erase hi, e]
  omega

theorem refs_union (h : Disjoint D E) : refs (D ∪ E) f p = refs D f p + refs E f p := by
  rw [refs, filter_union, card_union_of_disjoint (disjoint_filter_filter h)]
  rfl

theorem refs_image {a : κ → ι} (ha : Function.Injective a) {K : Finset κ} :
    refs (K.image a) f p = refs K (fun k => f (a k)) p := by
  rw [refs, filter_image, card_image_of_injective _ ha]
  rfl

theorem refs_insert_row [DecidableEq κ] {t : ι} {L : Finset ι} {K : Finset κ} {f : ι × κ → Option α}
    (ht : t ∉ L) : refs (insert t L ×ˢ K) f p = refs (L ×ˢ K) f p + refs K (fun k => f (t, k)) p := by
  have hrows : insert t L ×ˢ K = (L ×ˢ K) ∪ K.image (Prod.mk t) := by
    ext ⟨a, k⟩
    simp only [mem_product, mem_insert, mem_union, mem_image, Prod.mk.injEq]
    constructor
    · rintro ⟨rfl | ha, hk⟩
      · exact .inr ⟨k, hk, rfl, rfl⟩
      · exact .inl ⟨ha, hk⟩
    · rintro (⟨ha, hk⟩ | ⟨k, hk, rfl, rfl⟩)
      · exact ⟨.inr ha, hk⟩
      · exact ⟨.inl rfl, hk⟩
  have hdisj : Disjoint (L ×ˢ K) (K.image (Prod.mk t)) := by
    rw [disjoint_right]
    intro x hx hx'
    obtain ⟨k, -, rfl⟩ := mem_image.mp hx
    exact ht (mem_product.mp hx').1
  rw [hrows, refs_union hdisj, refs_image fun _ _ h => (Prod.mk.inj h).2]

theorem refs_erase_row {t : ι} {L : Finset ι} {K : Finset κ} {f : ι × κ → Option α}
    (h : ∀ k ∈ K, f (t, k) = none) : refs (L.erase t ×ˢ K) f p = refs (L ×ˢ K) f p := by
  refine (refs_of_subset (product_subset_product_left (erase_subset ..)) fun x hx hn => ?_).symm
  have hk := (mem_product.mp hx).2
  have e : x.1 = t := by
    by_contra e
    exact hn (mem_product.mpr ⟨mem_erase.mpr ⟨e, (mem_product.mp hx).1⟩, hk⟩)
  rw [← h x.2 hk, ← e]

theorem two_le_refs (hi : i ∈ D) (hj : j ∈ D) (hne : i ≠ j) (hfi : f i = some p) (hfj : f j = some p) :
    2 ≤ refs D f p := by
  have h : 0 < refs (D.erase i) f p := refs_pos.mpr ⟨j, mem_erase.mpr ⟨hne.symm, hj⟩, hfj⟩
  rw [refs_erase hi, hfi, hits_self]
  omega

end

end MiniOS
