import Mathlib.Logic.Basic
import Mathlib.Data.List.Basic

/-!
# Null-terminated linked lists

`Chain nx null p xs`: following `nx` from `p` visits `xs` and ends at `null`.
-/

namespace MiniOS

open List

variable {P : Type*}

def Chain (nx : P → P) (null : P) : P → List P → Prop
  | p, [] => p = null
  | p, x :: xs => p = x ∧ x ≠ null ∧ Chain nx null (nx x) xs

section
variable {nx nx' : P → P} {null : P}

theorem Chain.congr : ∀ {p : P} {xs : List P}, Chain nx null p xs → (∀ x ∈ xs, nx' x = nx x) →
    Chain nx' null p xs
  | _, [], h, _ => h
  | _, x :: xs, ⟨h₁, h₂, h₃⟩, hx => by
    refine ⟨h₁, h₂, ?_⟩
    rw [hx x (mem_cons_self ..)]
    exact h₃.congr fun y hy => hx y (mem_cons_of_mem _ hy)

theorem Chain.ne_null {p : P} : ∀ {xs : List P}, Chain nx null p xs → ∀ x ∈ xs, x ≠ null
  | _ :: _, ⟨_, h₂, _⟩, _, .head _ => h₂
  | _ :: _, ⟨_, _, h₃⟩, y, .tail _ hy => h₃.ne_null y hy

theorem Chain.nil_iff {p : P} {xs : List P} (h : Chain nx null p xs) : xs = [] ↔ p = null := by
  cases xs with
  | nil => exact iff_of_true rfl h
  | cons x xs => simpa using fun e => h.2.1 (h.1.symm.trans e)

theorem Chain.exists_cons {p : P} {xs : List P} (h : Chain nx null p xs) (hp : p ≠ null) :
    ∃ ys, xs = p :: ys ∧ Chain nx null (nx p) ys := by
  cases xs with
  | nil => exact absurd h hp
  | cons x xs => exact ⟨xs, by rw [h.1], by rw [h.1]; exact h.2.2⟩

theorem Chain.unique : ∀ {p : P} {xs ys : List P}, Chain nx null p xs → Chain nx null p ys → xs = ys
  | _, [], _, h, h' => ((h'.nil_iff).mpr h).symm
  | p, x :: xs, ys, h, h' => by
    obtain ⟨zs, rfl, hz⟩ := h'.exists_cons (fun e => h.2.1 (h.1.symm.trans e))
    rw [h.1] at hz ⊢
    rw [h.2.2.unique hz]

theorem Chain.insert {n x : P} (hn : n ≠ null) (hx : nx' x = n) (hn' : nx' n = nx x) :
    ∀ {p : P} {xs ys : List P}, Chain nx null p (xs ++ x :: ys) → (∀ y ∈ xs ++ ys, nx' y = nx y) →
      Chain nx' null p (xs ++ x :: n :: ys)
  | _, [], _, ⟨h₁, h₂, h₃⟩, h => by
    refine ⟨h₁, h₂, hx, hn, ?_⟩
    rw [hn']; exact h₃.congr h
  | _, y :: xs, _, ⟨h₁, h₂, h₃⟩, h => by
    refine ⟨h₁, h₂, ?_⟩
    rw [h y (by simp)]
    exact Chain.insert hn hx hn' h₃ fun z hz => h z (mem_cons_of_mem _ hz)

theorem Chain.remove {n x : P} (hx : nx' x = nx n) :
    ∀ {p : P} {xs ys : List P}, Chain nx null p (xs ++ x :: n :: ys) → (∀ y ∈ xs ++ ys, nx' y = nx y) →
      Chain nx' null p (xs ++ x :: ys)
  | _, [], _, ⟨h₁, h₂, _, _, h₅⟩, h => by
    refine ⟨h₁, h₂, ?_⟩
    rw [hx]; exact h₅.congr h
  | _, y :: xs, _, ⟨h₁, h₂, h₃⟩, h => by
    refine ⟨h₁, h₂, ?_⟩
    rw [h y (by simp)]
    exact Chain.remove hx h₃ fun z hz => h z (mem_cons_of_mem _ hz)

theorem Chain.after {x : P} : ∀ {p : P} {xs ys : List P}, Chain nx null p (xs ++ x :: ys) → Chain nx null (nx x) ys
  | _, [], _, ⟨_, _, h₃⟩ => h₃
  | _, _ :: _, _, ⟨_, _, h₃⟩ => h₃.after

theorem chain_range (a : Nat → P) {n : Nat} (h₀ : ∀ i < n, a i ≠ null)
    (h₁ : ∀ i, i + 1 < n → nx (a i) = a (i + 1)) (h₂ : ∀ i, i + 1 = n → nx (a i) = null) :
    ∀ left j, left + j + 1 = n → Chain nx null (a j) ((List.range' j (left + 1)).map a)
  | 0, j, h => ⟨rfl, h₀ j (by omega), h₂ j (by omega)⟩
  | left + 1, j, h => by
    rw [range'_succ, map_cons]
    refine ⟨rfl, h₀ j (by omega), ?_⟩
    rw [h₁ j (by omega)]
    exact chain_range a h₀ h₁ h₂ left (j + 1) (by omega)

end

/-! ## Searching -/

def chainFind [DecidableEq P] (nx : P → P) (null : P) (test : P → Bool) : Nat → P → Option P
  | 0, _ => none
  | fuel + 1, p =>
    if p = null then some null
    else if test p then some p
    else chainFind nx null test fuel (nx p)

theorem Chain.find [DecidableEq P] {nx : P → P} {null : P} (test : P → Bool) :
    ∀ (fuel : Nat) {p : P} {xs : List P}, Chain nx null p xs → xs.length < fuel →
      chainFind nx null test fuel p = some ((xs.find? test).getD null) := by
  intro fuel
  induction fuel with
  | zero => intro p xs _ hlt; exact absurd hlt (Nat.not_lt_zero _)
  | succ fuel ih =>
    intro p xs h hlt
    rw [chainFind]
    cases xs with
    | nil =>
      have hp : p = null := h
      rw [if_pos hp]
      rfl
    | cons x xs =>
      obtain ⟨rfl, hx, hrest⟩ := h
      rw [if_neg hx]
      cases ht : test p with
      | true => simp [ht]
      | false =>
        rw [length_cons] at hlt
        simp only [Bool.false_eq_true, if_false, find?_cons, ht]
        exact ih hrest (by omega)

/-! ## Reading the whole list -/

def chainNodes [DecidableEq P] (nx : P → P) (null : P) : Nat → P → Option (List P)
  | 0, _ => none
  | fuel + 1, p => if p = null then some [] else (chainNodes nx null fuel (nx p)).map (p :: ·)

theorem Chain.nodes [DecidableEq P] {nx : P → P} {null : P} : ∀ (fuel : Nat) {p : P} {xs : List P},
    Chain nx null p xs → xs.length < fuel → chainNodes nx null fuel p = some xs := by
  intro fuel
  induction fuel with
  | zero => intro p xs _ hlt; exact absurd hlt (Nat.not_lt_zero _)
  | succ fuel ih =>
    intro p xs h hlt
    rw [chainNodes]
    cases xs with
    | nil =>
      have hp : p = null := h
      rw [if_pos hp]
    | cons x xs =>
      obtain ⟨rfl, hx, hrest⟩ := h
      rw [length_cons] at hlt
      rw [if_neg hx, ih hrest (by omega)]
      rfl

end MiniOS
