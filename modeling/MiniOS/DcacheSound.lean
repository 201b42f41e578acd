import MiniOS.Dcache
import MiniOS.HashTable
import Mathlib.Data.List.Induction
import Mathlib.Data.List.Nodup

/-!
# What a lookup in the dentry cache finds

A lookup answers the dentry inserted last among those of its chain whose name
begins with the name looked for: neither the parent nor the length is compared.
-/

namespace MiniOS

open List

theorem strncmp_eq_zero : ∀ {q p : List UInt8}, 0 ∉ q → (strncmp q.length p q = 0 ↔ q <+: p) := by
  intro q
  induction q with
  | nil => intro p _; simp [strncmp]
  | cons b q ih =>
    intro p hq
    rw [mem_cons, not_or] at hq
    rw [length_cons, strncmp]
    cases p with
    | nil => simpa [Int.sub_eq_zero, ← UInt8.toNat_inj] using Ne.symm hq.1
    | cons a p =>
      rw [cons_prefix_cons]
      change (if a ≠ 0 ∧ a = b then strncmp q.length p q else (a.toNat : Int) - b.toNat) = 0 ↔ _
      by_cases hab : a ≠ 0 ∧ a = b
      · rw [if_pos hab, ih hq.2]
        exact ⟨fun h => ⟨hab.2.symm, h⟩, And.right⟩
      · rw [if_neg hab]
        have hne : a ≠ b := fun e => hab ⟨fun h₀ => hq.1 (h₀.symm.trans e), e⟩
        have hdiff : (a.toNat : Int) - b.toNat ≠ 0 := by
          rw [Ne, Int.sub_eq_zero, Int.natCast_inj, UInt8.toNat_inj]
          exact hne
        exact iff_of_false hdiff fun h => hne h.1.symm

section
variable {dName : Nat → Qstr} {calls : List Insertion} {parent : Nat} {q : Qstr}

instance : DecidablePred (Insertion.Mistakable dName parent q) := fun e =>
  inferInstanceAs (Decidable (bucket e.parent (dName e.dentry).name = bucket parent q.name ∧
    q.name <+: (dName e.dentry).name))

theorem Insertion.Is.mistakable {e : Insertion} (h : e.Is dName parent q) :
    e.Mistakable dName parent q := by
  obtain ⟨rfl, rfl⟩ := h
  exact ⟨rfl, prefix_rfl⟩

/-! ## The chains -/

theorem after_dName : ∀ (calls : List Insertion), (Dcache.after dName calls).dName = dName := by
  intro calls
  induction calls using List.reverseRecOn with
  | nil => rfl
  | append_singleton calls e ih =>
    rw [Dcache.after, foldl_append]
    exact ih

theorem after_hashed (h₀ : ∀ e ∈ calls, e.dentry ≠ 0) (h₁ : (calls.map Insertion.dentry).Nodup) :
    Hashed (fun e => bucket e.parent (dName e.dentry).name) Insertion.dentry 0 calls
      (Dcache.after dName calls).first (Dcache.after dName calls).next := by
  induction calls using List.reverseRecOn with
  | nil => exact Hashed.nil
  | append_singleton calls e ih =>
    rw [map_append, nodup_append] at h₁
    have hnew : e.dentry ∉ calls.map Insertion.dentry := fun he => h₁.2.2 _ he _ (by simp) rfl
    have hins := (ih (fun e he => h₀ e (mem_append_left _ he)) h₁.1).insert (h₀ e (by simp)) hnew
    have hstep : Dcache.after dName (calls ++ [e]) =
        dentryInsert (Dcache.after dName calls) e.parent e.dentry := by
      rw [Dcache.after, foldl_append]
      rfl
    rw [hstep, dentryInsert, after_dName]
    exact hins

/-! ## The answer -/

def lastMistakable (dName : Nat → Qstr) (calls : List Insertion) (parent : Nat) (q : Qstr) : Option Insertion :=
  calls.reverse.find? fun e => e.Mistakable dName parent q

theorem dentryLookup_after (h : Distinct dName calls) {fuel : Nat} (hf : calls.length < fuel) :
    dentryLookup (Dcache.after dName calls) fuel parent q =
      some (((lastMistakable dName calls parent q).map Insertion.dentry).getD 0) := by
  rw [dentryLookup, after_dName,
    (after_hashed h.nonnull h.dentries (bucket parent q.name)).find _ fuel
      (Nat.lt_of_le_of_lt (length_bucketChain _) hf)]
  congr 2
  rw [bucketChain, ← map_reverse, ← filter_reverse, find?_map, find?_filter,
    lastMistakable]
  congr 2
  funext e
  rw [Bool.eq_iff_iff]
  simp only [decide_eq_true_iff, Function.comp_apply, Qstr.len, strncmp_eq_zero q.noZero]
  rfl

theorem Distinct.eq_of_dentry (h : Distinct dName calls) {e e' : Insertion} (he : e ∈ calls) (he' : e' ∈ calls)
    (hd : e.dentry = e'.dentry) : e = e' :=
  inj_on_of_nodup_map h.dentries he he' hd

theorem Distinct.eq_of_is (h : Distinct dName calls) {e e' : Insertion} (he : e ∈ calls) (he' : e' ∈ calls)
    (hi : e.Is dName parent q) (hi' : e'.Is dName parent q) : e = e' := by
  apply inj_on_of_nodup_map h.keys he he'
  rw [hi.1, hi.2, hi'.1, hi'.2]

theorem Distinct.looksUp_iff (h : Distinct dName calls) {e : Insertion} (he : e ∈ calls) :
    LooksUp dName calls parent q e.dentry ↔ e.Is dName parent q := by
  constructor
  · intro hl
    obtain ⟨e', he', hi, hd⟩ := (hl e.dentry (h.nonnull e he)).mp rfl
    exact h.eq_of_dentry he' he hd ▸ hi
  · intro hi d _
    constructor
    · intro hd
      exact ⟨e, he, hi, hd⟩
    · rintro ⟨e', he', hi', rfl⟩
      rw [h.eq_of_is he he' hi hi']

theorem lastMistakable_iff {e₀ : Insertion} (h : lastMistakable dName calls parent q = some e₀) :
    e₀ ∈ calls ∧ (e₀.Is dName parent q ↔ ∀ pre e post, calls = pre ++ e :: post →
      e.Mistakable dName parent q → ∃ e' ∈ e :: post, e'.Is dName parent q) := by
  exact find?_reverse_iff (fun _ => Insertion.Is.mistakable) h

/-- With enough fuel for the longest chain, a lookup is the lookup of a finite map if and
only if every dentry it could be mistaken for is the right one or was inserted before it. -/
theorem dcache_refines_map (dName : Nat → Qstr) (calls : List Insertion) (h : Distinct dName calls) (parent : Nat)
    (q : Qstr) :
    (∃ r, (∀ fuel, calls.length < fuel →
        dentryLookup (Dcache.after dName calls) fuel parent q = some r) ∧
        LooksUp dName calls parent q r) ↔
      ∀ pre e post, calls = pre ++ e :: post → e.Mistakable dName parent q →
        ∃ e' ∈ e :: post, e'.Is dName parent q := by
  have hanswer : (∃ r, (∀ fuel, calls.length < fuel →
      dentryLookup (Dcache.after dName calls) fuel parent q = some r) ∧
      LooksUp dName calls parent q r) ↔ LooksUp dName calls parent q
        (((lastMistakable dName calls parent q).map Insertion.dentry).getD 0) := by
    constructor
    · rintro ⟨r, hr, hl⟩
      have hr := hr _ (Nat.lt_succ_self _)
      rw [dentryLookup_after h (Nat.lt_succ_self _)] at hr
      exact Option.some.inj hr ▸ hl
    · intro hl
      exact ⟨_, fun fuel hf => dentryLookup_after h hf, hl⟩
  rw [hanswer]
  cases hlast : lastMistakable dName calls parent q with
  | some e₀ =>
    obtain ⟨hmem, hiff⟩ := lastMistakable_iff hlast
    exact (h.looksUp_iff hmem).trans hiff
  | none =>
    have hnone : ∀ e ∈ calls, ¬ e.Mistakable dName parent q := by
      intro e he
      simpa using find?_eq_none.mp hlast e (mem_reverse.mpr he)
    constructor
    · intro _ pre e post hsplit hm
      exact absurd hm (hnone e (by rw [hsplit]; simp))
    · intro _ d hd
      refine iff_of_false (Ne.symm hd) ?_
      rintro ⟨e, he, hi, -⟩
      exact hnone e he hi.mistakable

end

instance (dName : Nat → Qstr) (parent : Nat) (q : Qstr) : DecidablePred (Insertion.Is dName parent q) := fun e =>
  inferInstanceAs (Decidable (e.parent = parent ∧ dName e.dentry = q))

def devName : Qstr := ⟨[100, 101, 118], by decide, by decide⟩

def ttyName : Qstr := ⟨[116, 116, 121], by decide, by decide⟩

def devCalls : List Insertion := [⟨0xC0100000, 0xC0100060⟩, ⟨0xC0100060, 0xC01000C0⟩]

def devNames (d : Nat) : Qstr := if d = 0xC0100060 then devName else ttyName

theorem dcache_refines_map_dev : Distinct devNames devCalls ∧
    ∃ r, (∀ fuel, devCalls.length < fuel →
      dentryLookup (Dcache.after devNames devCalls) fuel 0xC0100060 ttyName = some r) ∧
      LooksUp devNames devCalls 0xC0100060 ttyName r := by
  have hdist : Distinct devNames devCalls := ⟨by decide, by decide, by decide⟩
  refine ⟨hdist, (dcache_refines_map devNames devCalls hdist 0xC0100060 ttyName).mpr ?_⟩
  intro pre e post hsplit hm
  have hexact : ∀ e ∈ devCalls, e.Mistakable devNames 0xC0100060 ttyName →
      e.Is devNames 0xC0100060 ttyName := by decide
  exact ⟨e, mem_cons_self .., hexact e (by rw [hsplit]; simp) hm⟩

def appName : Qstr := ⟨[97, 112, 112], by decide, by decide⟩

def aName : Qstr := ⟨[97], by decide, by decide⟩

/-- Only `/app` is there, and the lookup of `/a` answers it. -/
theorem dcache_answers_longer_name :
    Distinct (fun _ => appName) [⟨0xC0100000, 0xC0100060⟩] ∧
    dentryLookup (Dcache.after (fun _ => appName) [⟨0xC0100000, 0xC0100060⟩]) 2 0xC0100000 aName =
      some 0xC0100060 ∧
    ¬ LooksUp (fun _ => appName) [⟨0xC0100000, 0xC0100060⟩] 0xC0100000 aName 0xC0100060 := by
  refine ⟨⟨by decide, by decide, by decide⟩, by decide, ?_⟩
  intro hl
  obtain ⟨e, he, hi, -⟩ := (hl 0xC0100060 (by decide)).mp rfl
  have hne : appName ≠ aName := by decide
  exact hne hi.2

end MiniOS
