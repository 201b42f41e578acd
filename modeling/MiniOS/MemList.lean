import MiniOS.ByteMem
import MiniOS.Ring
import Mathlib.Data.List.Pairwise

/-!
# `struct list_head` in byte memory

The word `next` of a node is at its address and the word `prev` behind it. Nodes lie
anywhere, at least eight bytes apart. The operations write in the order the source does.
-/

namespace MiniOS

open List

namespace Mem

def next (m : Mem) (p : Nat) : Nat := ld32 m p

def prev (m : Mem) (p : Nat) : Nat := ld32 m (p + 4)

def initListHead (m : Mem) (list : Nat) : Mem := st32 (st32 m list list) (list + 4) list

def rawListAdd (m : Mem) (new prev next : Nat) : Mem :=
  st32 (st32 (st32 (st32 m (next + 4) new) new next) (new + 4) prev) prev new

def listAdd (m : Mem) (new head : Nat) : Mem := m.rawListAdd new head (m.next head)

def listAddTail (m : Mem) (new head : Nat) : Mem := m.rawListAdd new (m.prev head) head

def rawListDel (m : Mem) (prev next : Nat) : Mem := st32 (st32 m (next + 4) prev) prev next

def listDel (m : Mem) (entry : Nat) : Mem :=
  st32 (st32 (m.rawListDel (m.prev entry) (m.next entry)) entry entry) (entry + 4) entry

def Spread (l : List Nat) : Prop := l.Pairwise fun p q => p + 8 ≤ q ∨ q + 8 ≤ p

theorem Spread.apart {l : List Nat} (h : Spread l) {p q : Nat} (hp : p ∈ l) (hq : q ∈ l) (hne : p ≠ q) :
    p + 8 ≤ q ∨ q + 8 ≤ p := by
  have hsymm : Std.Symm fun p q : Nat => p + 8 ≤ q ∨ q + 8 ≤ p := ⟨fun _ _ => Or.symm⟩
  exact List.Pairwise.forall h hp hq hne

theorem Spread.eq_or_apart {l : List Nat} (h : Spread l) {p q : Nat} (hp : p ∈ l) (hq : q ∈ l) :
    p = q ∨ p + 8 ≤ q ∨ q + 8 ≤ p := by
  by_cases e : p = q
  · exact .inl e
  · exact .inr (h.apart hp hq e)

theorem Spread.nodup {l : List Nat} (h : Spread l) : l.Nodup := h.imp (by omega)

variable {m : Mem} {h n a b : Nat} {xs ys : List Nat} {x : Nat}

/-! ## Bytes the operations leave alone -/

theorem initListHead_apart (hx : x < n ∨ n + 8 ≤ x) : m.initListHead n x = m x := by
  simp (disch := omega) only [initListHead, st32_apart]

theorem rawListAdd_apart (hn : x < n ∨ n + 8 ≤ x) (ha : x < a ∨ a + 8 ≤ x) (hb : x < b ∨ b + 8 ≤ x) :
    m.rawListAdd n a b x = m x := by
  simp (disch := omega) only [rawListAdd, st32_apart]

theorem listDel_apart (hn : x < n ∨ n + 8 ≤ x) (hp : x < m.prev n ∨ m.prev n + 8 ≤ x)
    (hx : x < m.next n ∨ m.next n + 8 ≤ x) : m.listDel n x = m x := by
  simp (disch := omega) only [listDel, rawListDel, st32_apart]

/-! ## Rings -/

theorem ring_rawListAdd (hr : Ring m.next m.prev h (xs ++ ys)) (hs : Spread (n :: h :: (xs ++ ys)))
    (hlt : ∀ p ∈ n :: h :: (xs ++ ys), p < 2 ^ 32)
    (ha : (h :: xs).getLast? = some a) (hb : (ys ++ [h]).head? = some b) :
    Ring (m.rawListAdd n a b).next (m.rawListAdd n a b).prev h (xs ++ n :: ys) := by
  have hnd := nodup_cons.mp hs.nodup
  obtain ⟨haL, hbL⟩ := mem_of_seam ha hb
  have hfar : ∀ p ∈ h :: (xs ++ ys), p + 8 ≤ n ∨ n + 8 ≤ p := by
    intro p hp
    exact hs.apart (mem_cons_of_mem _ hp) (mem_cons_self ..) fun e => hnd.1 (e ▸ hp)
  have hna := hfar a haL
  have hnb := hfar b hbL
  have hapart : ∀ p ∈ h :: (xs ++ ys), ∀ q ∈ h :: (xs ++ ys), p = q ∨ p + 8 ≤ q ∨ q + 8 ≤ p := by
    intro p hp q hq
    exact hs.eq_or_apart (mem_cons_of_mem _ hp) (mem_cons_of_mem _ hq)
  have hab := hapart a haL b hbL
  have hltn := hlt n (mem_cons_self ..)
  have hlta := hlt a (mem_cons_of_mem _ haL)
  have hltb := hlt b (mem_cons_of_mem _ hbL)
  refine hr.insert hnd.2 ha hb ?_ ?_ ?_ ?_ ?_ ?_
  · rw [next, rawListAdd, ld32_st32 _ _ hltn]
  · simp (disch := omega) only [prev, rawListAdd, ld32_st32_apart, ld32_st32]
  · simp (disch := omega) only [next, rawListAdd, ld32_st32_apart, ld32_st32]
  · simp (disch := omega) only [prev, rawListAdd, ld32_st32_apart, ld32_st32]
  · intro p hp hpa
    have hpn := hfar p hp
    have hpa' := (hapart p hp a haL).resolve_left hpa
    have hpb := hapart p hp b hbL
    simp (disch := omega) only [next, rawListAdd, ld32_st32_apart]
  · intro p hp hpb
    have hpn := hfar p hp
    have hpb' := (hapart p hp b hbL).resolve_left hpb
    have hpa := hapart p hp a haL
    simp (disch := omega) only [prev, rawListAdd, ld32_st32_apart]

theorem ring_listDel (hr : Ring m.next m.prev h (xs ++ n :: ys)) (hs : Spread (h :: (xs ++ n :: ys)))
    (hlt : ∀ p ∈ h :: (xs ++ n :: ys), p < 2 ^ 32) :
    Ring (m.listDel n).next (m.listDel n).prev h (xs ++ ys) := by
  obtain ⟨ha, hb⟩ := hr.neighbours
  have hdel : m.listDel n = st32 (st32 (m.rawListDel (m.prev n) (m.next n)) n n) (n + 4) n := rfl
  generalize m.prev n = a at ha hdel
  generalize m.next n = b at hb hdel
  obtain ⟨haL, hbL⟩ := mem_of_seam ha hb
  have hsub : ∀ p ∈ h :: (xs ++ ys), p ∈ h :: (xs ++ n :: ys) := by
    intro p hp
    simp only [mem_append, mem_cons] at hp ⊢
    tauto
  have hfar : ∀ p ∈ h :: (xs ++ ys), p + 8 ≤ n ∨ n + 8 ≤ p := by
    intro p hp
    apply hs.apart (hsub p hp) (by simp)
    rintro rfl
    have hnd := hs.nodup
    rw [← cons_append, nodup_middle] at hnd
    exact (nodup_cons.mp hnd).1 hp
  have hapart : ∀ p ∈ h :: (xs ++ ys), ∀ q ∈ h :: (xs ++ ys), p = q ∨ p + 8 ≤ q ∨ q + 8 ≤ p := by
    intro p hp q hq
    exact hs.eq_or_apart (hsub p hp) (hsub q hq)
  have hna := hfar a haL
  have hnb := hfar b hbL
  have hlta := hlt a (hsub a haL)
  have hltb := hlt b (hsub b hbL)
  have hab := hapart a haL b hbL
  rw [hdel]
  refine hr.remove hs.nodup ha hb ?_ ?_ ?_ ?_
  · simp (disch := omega) only [next, rawListDel, ld32_st32_apart, ld32_st32]
  · simp (disch := omega) only [prev, rawListDel, ld32_st32_apart, ld32_st32]
  · intro p hp hpa
    have hpn := hfar p hp
    have hpa' := (hapart p hp a haL).resolve_left hpa
    have hpb := hapart p hp b hbL
    simp (disch := omega) only [next, rawListDel, ld32_st32_apart]
  · intro p hp hpb
    have hpn := hfar p hp
    have hpb' := (hapart p hp b hbL).resolve_left hpb
    have hpa := hapart p hp a haL
    simp (disch := omega) only [prev, rawListDel, ld32_st32_apart]

end Mem

end MiniOS
