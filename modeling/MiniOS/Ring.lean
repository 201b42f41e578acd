import MiniOS.Chain
import Mathlib.Data.List.Nodup
import Mathlib.Data.List.Lattice
import Mathlib.Logic.Function.Basic

/-!
# Circular doubly linked lists

A list of nodes is `Linked` when consecutive nodes point at each other through
a `next` and a `prev` field; a `Ring` is a list that closes on its head. The two
edits of a ring are stated for any pair of new field functions that agree with
the old ones away from the seam, so they apply to record heaps and to fields
stored in byte memory alike.
-/

namespace MiniOS

open List

variable {P : Type*}

def Linked (nx pv : P → P) : List P → Prop
  | x :: y :: l => nx x = y ∧ pv y = x ∧ Linked nx pv (y :: l)
  | _ => True

def Ring (nx pv : P → P) (h : P) (xs : List P) : Prop :=
  Linked nx pv (h :: xs ++ [h])

section
variable {nx pv nx' pv' : P → P} {xs : List P} {h : P}

theorem linked_append (l₁ l₂ : List P) (x y : P) :
    Linked nx pv (l₁ ++ [x] ++ y :: l₂) ↔
      Linked nx pv (l₁ ++ [x]) ∧ nx x = y ∧ pv y = x ∧ Linked nx pv (y :: l₂) := by
  induction l₁ with
  | nil => simp [Linked]
  | cons a l₁ ih =>
    cases l₁ with
    | nil => simp only [cons_append, nil_append, Linked] at ih ⊢; tauto
    | cons b l₁ => simp only [cons_append, Linked] at ih ⊢; tauto

theorem Linked.congr : ∀ {l : List P}, Linked nx pv l → (∀ p ∈ l.dropLast, nx' p = nx p) →
    (∀ p ∈ l.tail, pv' p = pv p) → Linked nx' pv' l
  | [], _, _, _ => trivial
  | [_], _, _, _ => trivial
  | x :: y :: l, ⟨h1, h2, h3⟩, hn, hp => by
    refine ⟨(hn x (by simp)).trans h1, (hp y (by simp)).trans h2, h3.congr ?_ ?_⟩
    · intro p hm; exact hn p (by rw [dropLast_cons_cons]; exact mem_cons_of_mem _ hm)
    · intro p hm; exact hp p (mem_of_mem_tail hm)

theorem ring_nil : Ring nx pv h [] ↔ nx h = h ∧ pv h = h := by
  simp [Ring, Linked]

theorem Ring.next_head {h x : P} (hr : Ring nx pv h (x :: xs)) : nx h = x := hr.1

theorem Ring.prev_head {h x : P} (hr : Ring nx pv h (xs ++ [x])) : pv h = x := by
  unfold Ring at hr
  rw [show h :: (xs ++ [x]) ++ [h] = (h :: xs) ++ [x] ++ h :: [] by simp, linked_append] at hr
  exact hr.2.2.1

theorem Ring.last (hr : Ring nx pv h xs) : (h :: xs).getLast? = some (pv h) := by
  rcases eq_nil_or_concat xs with rfl | ⟨ys, x, rfl⟩
  · simpa using (ring_nil.mp hr).2.symm
  · rw [concat_eq_append] at hr ⊢
    rw [hr.prev_head, ← cons_append, getLast?_concat]

theorem Ring.congr (hr : Ring nx pv h xs) (hn : ∀ p ∈ h :: xs, nx' p = nx p)
    (hp : ∀ p ∈ h :: xs, pv' p = pv p) : Ring nx' pv' h xs := by
  refine Linked.congr hr ?_ ?_
  · intro p hm; rw [dropLast_concat] at hm; exact hn p hm
  · intro p hm; exact hp p (by simpa [or_comm] using hm)

theorem ring_cut (h : P) (xs ys : List P) :
    ∃ as a b bs, h :: xs = as ++ [a] ∧ ys ++ [h] = b :: bs := by
  obtain ⟨as, a, ha⟩ := eq_nil_or_concat (h :: xs) |>.resolve_left (by simp)
  obtain ⟨b, bs, hb⟩ := exists_cons_of_ne_nil (show ys ++ [h] ≠ [] by simp)
  exact ⟨as, a, b, bs, by simpa using ha, hb⟩

theorem mem_of_seam {h a b : P} {xs ys : List P} (ha : (h :: xs).getLast? = some a)
    (hb : (ys ++ [h]).head? = some b) : a ∈ h :: (xs ++ ys) ∧ b ∈ h :: (xs ++ ys) := by
  constructor
  · rw [← cons_append]
    exact mem_append_left _ (mem_of_getLast? ha)
  · have := mem_of_head? hb
    simp only [mem_append, mem_cons, not_mem_nil, or_false] at this ⊢
    exact this.elim (fun hy => .inr (.inr hy)) .inl

/-- The two ends of a seam are met nowhere else. -/
theorem seam_apart {h a b : P} {xs ys as bs : List P} (hnd : (h :: (xs ++ ys)).Nodup)
    (ha : h :: xs = as ++ [a]) (hb : ys ++ [h] = b :: bs) : a ∉ as ∧ b ∉ xs ∧ a ∉ ys ∧ b ∉ bs := by
  have hfront : ((as ++ [a]) ++ ys).Nodup := by
    rw [← ha]
    exact hnd
  have hback : (xs ++ b :: bs).Nodup := by
    rw [← hb, ← append_assoc]
    exact nodup_append_comm.mp hnd
  refine ⟨?_, ?_, ?_, ?_⟩
  · intro hmem
    exact (nodup_append'.mp (nodup_append'.mp hfront).1).2.2 hmem (mem_singleton_self a)
  · intro hmem
    exact (nodup_append'.mp hback).2.2 hmem (mem_cons_self ..)
  · exact (nodup_append'.mp hfront).2.2 (mem_append_right _ (mem_singleton_self a))
  · exact (nodup_cons.mp (nodup_append'.mp hback).2.1).1

/-- What an edit between `xs` and `ys` may assume: everything away from the
seam keeps its links. -/
theorem linked_halves {h a b : P} {xs ys as bs : List P} (hnd : (h :: (xs ++ ys)).Nodup)
    (ha : h :: xs = as ++ [a]) (hb : ys ++ [h] = b :: bs)
    (hl : Linked nx pv (as ++ [a])) (hr : Linked nx pv (b :: bs))
    (hn : ∀ p ∈ h :: (xs ++ ys), p ≠ a → nx' p = nx p)
    (hp : ∀ p ∈ h :: (xs ++ ys), p ≠ b → pv' p = pv p) :
    Linked nx' pv' (as ++ [a]) ∧ Linked nx' pv' (b :: bs) := by
  obtain ⟨haas, hbxs, hays, hbbs⟩ := seam_apart hnd ha hb
  have hfront : ∀ p ∈ h :: xs, p ∈ h :: (xs ++ ys) := fun p hm => mem_append_left ys hm
  constructor
  · apply hl.congr
    · intro p hm
      rw [dropLast_concat] at hm
      apply hn p (hfront p _) fun e => haas (e ▸ hm)
      rw [ha]
      exact mem_append_left _ hm
    · intro p hm
      rw [← ha, tail_cons] at hm
      exact hp p (hfront p (mem_cons_of_mem _ hm)) fun e => hbxs (e ▸ hm)
  · apply hr.congr
    · intro p hm
      rw [← hb, dropLast_concat] at hm
      exact hn p (mem_cons_of_mem _ (mem_append_right _ hm)) fun e => hays (e ▸ hm)
    · intro p hm
      rw [tail_cons] at hm
      apply hp p _ fun e => hbbs (e ▸ hm)
      have hback : p ∈ ys ++ [h] := hb ▸ mem_cons_of_mem _ hm
      rcases mem_append.mp hback with hmem | hmem
      · exact mem_cons_of_mem _ (mem_append_right _ hmem)
      · exact mem_singleton.mp hmem ▸ mem_cons_self ..

theorem Ring.insert {h n : P} {xs ys : List P} (hr : Ring nx pv h (xs ++ ys))
    (hnd : (h :: (xs ++ ys)).Nodup)
    {a b : P} (ha : (h :: xs).getLast? = some a) (hb : (ys ++ [h]).head? = some b)
    (ha' : nx' a = n) (hna : pv' n = a) (hnb : nx' n = b) (hb' : pv' b = n)
    (hn : ∀ p ∈ h :: (xs ++ ys), p ≠ a → nx' p = nx p)
    (hp : ∀ p ∈ h :: (xs ++ ys), p ≠ b → pv' p = pv p) : Ring nx' pv' h (xs ++ n :: ys) := by
  obtain ⟨as, a₀, b₀, bs, hxs, hys⟩ := ring_cut h xs ys
  obtain rfl : a₀ = a := by rw [hxs] at ha; simpa using ha
  obtain rfl : b₀ = b := by rw [hys] at hb; simpa using hb
  unfold Ring at hr ⊢
  rw [show h :: (xs ++ ys) ++ [h] = as ++ [a₀] ++ b₀ :: bs by
    rw [← hxs, ← hys]; simp, linked_append] at hr
  obtain ⟨hl', hr'⟩ := linked_halves hnd hxs hys hr.1 hr.2.2.2 hn hp
  rw [show h :: (xs ++ n :: ys) ++ [h] = as ++ [a₀] ++ n :: (b₀ :: bs) by
    rw [← hxs, ← hys]; simp, linked_append]
  exact ⟨hl', ha', hna, hnb, hb', hr'⟩

theorem Ring.remove {h n : P} {xs ys : List P} (hr : Ring nx pv h (xs ++ n :: ys))
    (hnd : (h :: (xs ++ n :: ys)).Nodup)
    {a b : P} (ha : (h :: xs).getLast? = some a) (hb : (ys ++ [h]).head? = some b)
    (ha' : nx' a = b) (hb' : pv' b = a)
    (hn : ∀ p ∈ h :: (xs ++ ys), p ≠ a → nx' p = nx p)
    (hp : ∀ p ∈ h :: (xs ++ ys), p ≠ b → pv' p = pv p) : Ring nx' pv' h (xs ++ ys) := by
  obtain ⟨as, a₀, b₀, bs, hxs, hys⟩ := ring_cut h xs ys
  obtain rfl : a₀ = a := by rw [hxs] at ha; simpa using ha
  obtain rfl : b₀ = b := by rw [hys] at hb; simpa using hb
  have hnd' : (h :: (xs ++ ys)).Nodup :=
    hnd.sublist (cons_sublist_cons.mpr (List.Sublist.append_left (sublist_cons_self ..) _))
  unfold Ring at hr ⊢
  rw [show h :: (xs ++ n :: ys) ++ [h] = as ++ [a₀] ++ n :: (b₀ :: bs) by
    rw [← hxs, ← hys]; simp, linked_append] at hr
  obtain ⟨hl', hr'⟩ := linked_halves hnd' hxs hys hr.1 hr.2.2.2.2.2 hn hp
  rw [show h :: (xs ++ ys) ++ [h] = as ++ [a₀] ++ b₀ :: bs by
    rw [← hxs, ← hys]; simp, linked_append]
  exact ⟨hl', ha', hb', hr'⟩

theorem Ring.neighbours {h n : P} {xs ys : List P} (hr : Ring nx pv h (xs ++ n :: ys)) :
    (h :: xs).getLast? = some (pv n) ∧ (ys ++ [h]).head? = some (nx n) := by
  obtain ⟨as, a, b, bs, hxs, hys⟩ := ring_cut h xs ys
  unfold Ring at hr
  rw [show h :: (xs ++ n :: ys) ++ [h] = as ++ [a] ++ n :: (b :: bs) by
    rw [← hxs, ← hys]; simp, linked_append] at hr
  constructor
  · rw [hxs, hr.2.2.1]; simp
  · rw [hys]; simpa using hr.2.2.2.1.symm

/-! ## Walking a ring -/

theorem Linked.reverse : ∀ {l : List P}, Linked nx pv l → Linked pv nx l.reverse := by
  intro l
  induction l with
  | nil => intro _; trivial
  | cons x l ih =>
    intro h
    cases l with
    | nil => trivial
    | cons y l =>
      have hrev := ih h.2.2
      rw [reverse_cons] at hrev ⊢
      have happ : l.reverse ++ [y] ++ [x] = l.reverse ++ [y] ++ x :: [] := rfl
      rw [reverse_cons, happ, linked_append]
      exact ⟨hrev, h.2.1, h.1, trivial⟩

theorem Ring.reverse (hr : Ring nx pv h xs) : Ring pv nx h xs.reverse := by
  have hrev := Linked.reverse hr
  rw [cons_append, reverse_cons, reverse_append] at hrev
  exact hrev

theorem Ring.chain (hr : Ring nx pv h xs) (hx : h ∉ xs) : Chain nx h (nx h) xs := by
  have hlinked : ∀ {a : P} {ys : List P}, h ∉ ys → Linked nx pv (a :: ys ++ [h]) → Chain nx h (nx a) ys := by
    intro a ys
    induction ys generalizing a with
    | nil => intro _ hl; exact hl.1
    | cons y ys ih =>
      intro hy hl
      rw [mem_cons, not_or] at hy
      exact ⟨hl.1, Ne.symm hy.1, ih hy.2 hl.2.2⟩
  exact hlinked hx hr

end

end MiniOS
