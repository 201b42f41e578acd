import MiniOS.Ring

/-!
# `struct list_head`

The intrusive lists of `include/fuckOS/list.h`. A heap of `list_head`s is its
two field functions; the operations below write the fields in the order the
source does (`rawListAdd` and `rawListDel` are `__list_add` and `__list_del`).
`Rings` is a family of disjoint circular lists living in one heap.
-/

namespace MiniOS

open List

structure Links (P : Type*) where
  next : P → P
  prev : P → P

namespace Links

variable {P : Type*} [DecidableEq P]

def setNext (L : Links P) (p v : P) : Links P := { L with next := Function.update L.next p v }

def setPrev (L : Links P) (p v : P) : Links P := { L with prev := Function.update L.prev p v }

def initListHead (L : Links P) (h : P) : Links P := (L.setNext h h).setPrev h h

def rawListAdd (L : Links P) (new prev next : P) : Links P :=
  (((L.setPrev next new).setNext new next).setPrev new prev).setNext prev new

def listAdd (L : Links P) (new head : P) : Links P := L.rawListAdd new head (L.next head)

def listAddTail (L : Links P) (new head : P) : Links P := L.rawListAdd new (L.prev head) head

def rawListDel (L : Links P) (prev next : P) : Links P := (L.setPrev next prev).setNext prev next

def listDel (L : Links P) (entry : P) : Links P :=
  ((L.rawListDel (L.prev entry) (L.next entry)).setNext entry entry).setPrev entry entry

def listEmpty (L : Links P) (head : P) : Bool := L.next head = head

/-! ## What the operations write -/

section
variable (L : Links P) {p new prev next entry : P}

theorem rawListAdd_next_new (h : new ≠ prev) : (L.rawListAdd new prev next).next new = next := by
  simp [rawListAdd, setNext, setPrev, Function.update_of_ne h]

theorem rawListAdd_next_prev : (L.rawListAdd new prev next).next prev = new := by
  simp [rawListAdd, setNext, setPrev]

theorem rawListAdd_prev_new : (L.rawListAdd new prev next).prev new = prev := by
  simp [rawListAdd, setNext, setPrev]

theorem rawListAdd_prev_next (h : next ≠ new) : (L.rawListAdd new prev next).prev next = new := by
  simp [rawListAdd, setNext, setPrev, Function.update_of_ne h]

theorem rawListAdd_next_of_ne (h₁ : p ≠ new) (h₂ : p ≠ prev) :
    (L.rawListAdd new prev next).next p = L.next p := by
  simp [rawListAdd, setNext, setPrev, Function.update_of_ne h₁, Function.update_of_ne h₂]

theorem rawListAdd_prev_of_ne (h₁ : p ≠ new) (h₂ : p ≠ next) :
    (L.rawListAdd new prev next).prev p = L.prev p := by
  simp [rawListAdd, setNext, setPrev, Function.update_of_ne h₁, Function.update_of_ne h₂]

theorem listDel_next_prev (h : L.prev entry ≠ entry) :
    (L.listDel entry).next (L.prev entry) = L.next entry := by
  simp [listDel, rawListDel, setNext, setPrev, Function.update_of_ne h]

theorem listDel_prev_next (h : L.next entry ≠ entry) :
    (L.listDel entry).prev (L.next entry) = L.prev entry := by
  simp [listDel, rawListDel, setNext, setPrev, Function.update_of_ne h]

theorem listDel_next_of_ne (h₁ : p ≠ entry) (h₂ : p ≠ L.prev entry) :
    (L.listDel entry).next p = L.next p := by
  simp [listDel, rawListDel, setNext, setPrev, Function.update_of_ne h₁, Function.update_of_ne h₂]

theorem listDel_prev_of_ne (h₁ : p ≠ entry) (h₂ : p ≠ L.next entry) :
    (L.listDel entry).prev p = L.prev p := by
  simp [listDel, rawListDel, setNext, setPrev, Function.update_of_ne h₁, Function.update_of_ne h₂]

theorem listDel_self : (L.listDel entry).next entry = entry ∧ (L.listDel entry).prev entry = entry := by
  simp [listDel, rawListDel, setNext, setPrev]

theorem listDel_of_self (h : L.next entry = entry ∧ L.prev entry = entry) : L.listDel entry = L := by
  have h₁ : Function.update L.next entry entry = L.next := Function.update_eq_self_iff.mpr h.1.symm
  have h₂ : Function.update L.prev entry entry = L.prev := Function.update_eq_self_iff.mpr h.2.symm
  simp only [listDel, rawListDel, setNext, setPrev, h.1, h.2, h₁, h₂]

theorem initListHead_self {h : P} (hp : L.next p = p ∧ L.prev p = p ∨ p = h) :
    (L.initListHead h).next p = p ∧ (L.initListHead h).prev p = p := by
  by_cases e : p = h
  · subst e; simp [initListHead, setNext, setPrev]
  · simpa [initListHead, setNext, setPrev, e] using hp

theorem foldl_initListHead {κ : Type*} (hd : κ → P) : ∀ (l : List κ) (L : Links P) (p : P),
    (L.next p = p ∧ L.prev p = p) ∨ (∃ k ∈ l, p = hd k) →
    (l.foldl (fun L k => L.initListHead (hd k)) L).next p = p ∧
      (l.foldl (fun L k => L.initListHead (hd k)) L).prev p = p
  | [], _, _, h => h.resolve_right (by simp)
  | k :: l, L, p, h => by
    refine foldl_initListHead hd l _ p ?_
    cases h with
    | inl h => exact .inl (L.initListHead_self (.inl h))
    | inr h =>
      obtain ⟨k', hk', rfl⟩ := h
      cases hk' with
      | head => exact .inl (L.initListHead_self (.inr rfl))
      | tail _ hk' => exact .inr ⟨k', hk', rfl⟩

end

end Links

/-! ## Families of rings -/

structure Rings {P κ : Type*} (L : Links P) (D : κ → Prop) (hd : κ → P) (f : κ → List P) : Prop where
  ring : ∀ k, D k → Ring L.next L.prev (hd k) (f k)
  nodup : ∀ k, D k → (hd k :: f k).Nodup
  disj : ∀ k k', D k → D k' → k ≠ k' → List.Disjoint (hd k :: f k) (hd k' :: f k')

section
variable {P κ : Type*} [DecidableEq P] {L : Links P} {D : κ → Prop} {hd : κ → P} {f : κ → List P}

theorem Rings.empty_iff (hr : Rings L D hd f) {k : κ} (hk : D k) :
    L.listEmpty (hd k) = true ↔ f k = [] := by
  have h := hr.ring k hk
  unfold Links.listEmpty
  cases hf : f k with
  | nil => rw [hf] at h; simpa using (ring_nil.mp h).1
  | cons x xs =>
    rw [hf] at h
    have hnd := hr.nodup k hk
    rw [hf] at hnd
    simp only [h.next_head, decide_eq_true_eq, reduceCtorEq, iff_false]
    exact fun e => (nodup_cons.mp hnd).1 (by rw [← e]; simp)

variable [DecidableEq κ] {k : κ}

omit [DecidableEq P] in
/-- One list changes; the heap keeps the links of the others. -/
theorem Rings.update (hr : Rings L D hd f) {L' : Links P} {l : List P}
    (hring : Ring L'.next L'.prev (hd k) l) (hnd : (hd k :: l).Nodup)
    (hkeep : ∀ k', D k' → k' ≠ k → ∀ p ∈ hd k' :: f k', L'.next p = L.next p ∧ L'.prev p = L.prev p)
    (hdisj : ∀ k', D k' → k' ≠ k → List.Disjoint (hd k :: l) (hd k' :: f k')) :
    Rings L' D hd (Function.update f k l) := by
  refine ⟨?_, ?_, ?_⟩
  · intro k' hk'
    by_cases e : k' = k
    · rw [e, Function.update_self]
      exact hring
    · rw [Function.update_of_ne e]
      exact (hr.ring k' hk').congr (fun p hp => (hkeep k' hk' e p hp).1) fun p hp => (hkeep k' hk' e p hp).2
  · intro k' hk'
    by_cases e : k' = k
    · rw [e, Function.update_self]
      exact hnd
    · rw [Function.update_of_ne e]
      exact hr.nodup k' hk'
  · intro k₁ k₂ h₁ h₂ hne
    by_cases e₁ : k₁ = k
    · have e₂ : k₂ ≠ k := fun e₂ => hne (e₁.trans e₂.symm)
      rw [e₁, Function.update_self, Function.update_of_ne e₂]
      exact hdisj k₂ h₂ e₂
    · rw [Function.update_of_ne e₁]
      by_cases e₂ : k₂ = k
      · rw [e₂, Function.update_self]
        exact (hdisj k₁ h₁ e₁).symm
      · rw [Function.update_of_ne e₂]
        exact hr.disj k₁ k₂ h₁ h₂ hne

theorem Rings.rawListAdd (hr : Rings L D hd f) (hk : D k) {new a b : P} (xs ys : List P)
    (hf : f k = xs ++ ys) (hnew : ∀ k, D k → new ∉ hd k :: f k)
    (ha : (hd k :: xs).getLast? = some a) (hb : (ys ++ [hd k]).head? = some b) :
    Rings (L.rawListAdd new a b) D hd (Function.update f k (xs ++ new :: ys)) := by
  obtain ⟨haL, hbL⟩ := mem_of_seam ha hb
  have hring := hr.ring k hk
  have hnd := hr.nodup k hk
  have hn := hnew k hk
  have hdisj := fun k' hk' (e : k' ≠ k) => hr.disj k k' hk hk' e.symm
  rw [hf] at hring hnd hn hdisj
  have hna : a ≠ new := fun e => hn (e ▸ haL)
  have hnb : b ≠ new := fun e => hn (e ▸ hbL)
  have hperm : (hd k :: (xs ++ new :: ys)).Perm (new :: hd k :: (xs ++ ys)) :=
    (perm_middle.cons _).trans (List.Perm.swap ..)
  apply hr.update
  · refine hring.insert hnd ha hb (L.rawListAdd_next_prev) (L.rawListAdd_prev_new)
      (L.rawListAdd_next_new hna.symm) (L.rawListAdd_prev_next hnb) ?_ ?_
    · intro p hp hpa
      exact L.rawListAdd_next_of_ne (fun e => hn (e ▸ hp)) hpa
    · intro p hp hpb
      exact L.rawListAdd_prev_of_ne (fun e => hn (e ▸ hp)) hpb
  · exact hperm.nodup_iff.mpr (nodup_cons.mpr ⟨hn, hnd⟩)
  · intro k' hk' e p hp
    have hpn : p ≠ new := fun e' => hnew k' hk' (e' ▸ hp)
    exact ⟨L.rawListAdd_next_of_ne hpn fun e' => hdisj k' hk' e haL (e' ▸ hp),
      L.rawListAdd_prev_of_ne hpn fun e' => hdisj k' hk' e hbL (e' ▸ hp)⟩
  · intro k' hk' e p hp hp'
    rcases mem_cons.mp (hperm.mem_iff.mp hp) with rfl | hp
    · exact hnew k' hk' hp'
    · exact hdisj k' hk' e hp hp'

theorem Rings.listAdd (hr : Rings L D hd f) (hk : D k) {new : P}
    (hnew : ∀ k, D k → new ∉ hd k :: f k) :
    Rings (L.listAdd new (hd k)) D hd (Function.update f k (new :: f k)) := by
  refine hr.rawListAdd hk [] _ rfl hnew (by simp) ?_
  have h := hr.ring k hk
  cases hf : f k with
  | nil => rw [hf] at h; simpa using (ring_nil.mp h).1.symm
  | cons x xs => rw [hf] at h; simpa using h.next_head.symm

theorem Rings.listAddTail (hr : Rings L D hd f) (hk : D k) {new : P}
    (hnew : ∀ k, D k → new ∉ hd k :: f k) :
    Rings (L.listAddTail new (hd k)) D hd (Function.update f k (f k ++ [new])) :=
  hr.rawListAdd hk (f k) [] (by simp) hnew (hr.ring k hk).last (by simp)

theorem Rings.listDel (hr : Rings L D hd f) (hk : D k) {entry : P} {xs ys : List P}
    (hf : f k = xs ++ entry :: ys) :
    Rings (L.listDel entry) D hd (Function.update f k (xs ++ ys)) := by
  have hring := hr.ring k hk
  have hnd := hr.nodup k hk
  have hdisj := fun k' hk' (e : k' ≠ k) => hr.disj k k' hk hk' e.symm
  rw [hf] at hring hnd hdisj
  obtain ⟨ha, hb⟩ := hring.neighbours
  obtain ⟨haL, hbL⟩ := mem_of_seam ha hb
  have hsub : (hd k :: (xs ++ ys)).Sublist (hd k :: (xs ++ entry :: ys)) :=
    cons_sublist_cons.mpr (List.Sublist.append_left (sublist_cons_self ..) _)
  have hentL : entry ∈ hd k :: (xs ++ entry :: ys) := by simp
  have hent : entry ∉ hd k :: (xs ++ ys) := by
    rw [← cons_append, nodup_middle, cons_append] at hnd
    exact (nodup_cons.mp hnd).1
  have hane : L.prev entry ≠ entry := fun e => hent (by rw [← e]; exact haL)
  have hbne : L.next entry ≠ entry := fun e => hent (by rw [← e]; exact hbL)
  apply hr.update
  · refine hring.remove hnd ha hb (L.listDel_next_prev hane) (L.listDel_prev_next hbne) ?_ ?_
    · intro p hp hpa
      exact L.listDel_next_of_ne (fun e => hent (e ▸ hp)) hpa
    · intro p hp hpb
      exact L.listDel_prev_of_ne (fun e => hent (e ▸ hp)) hpb
  · exact hnd.sublist hsub
  · intro k' hk' e p hp
    have hout : ∀ q ∈ hd k :: (xs ++ entry :: ys), p ≠ q := fun q hq e' => hdisj k' hk' e hq (e' ▸ hp)
    exact ⟨L.listDel_next_of_ne (hout _ hentL) (hout _ (hsub.subset haL)),
      L.listDel_prev_of_ne (hout _ hentL) (hout _ (hsub.subset hbL))⟩
  · intro k' hk' e p hp hp'
    exact hdisj k' hk' e (hsub.subset hp) hp'

end

end MiniOS
