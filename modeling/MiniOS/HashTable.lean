import MiniOS.Chain
import Mathlib.Logic.Function.Basic

/-!
# Hash tables of chains

Chains that grow at their heads: after a sequence of insertions the chain of a bucket holds
the nodes put there, the newest first, and a search finds the newest that passes its test.
-/

namespace MiniOS

open Function List

variable {P ι ε : Type*} [DecidableEq ι]

def bucketChain (bucketOf : ε → ι) (node : ε → P) (calls : List ε) (b : ι) : List P :=
  ((calls.filter fun e => bucketOf e = b).map node).reverse

def Hashed (bucketOf : ε → ι) (node : ε → P) (null : P) (calls : List ε) (first : ι → P) (next : P → P) : Prop :=
  ∀ b, Chain next null (first b) (bucketChain bucketOf node calls b)

section
variable {bucketOf : ε → ι} {node : ε → P} {null : P} {calls : List ε} {first : ι → P} {next : P → P}

theorem mem_bucketChain {b : ι} {x : P} :
    x ∈ bucketChain bucketOf node calls b ↔ ∃ e ∈ calls, bucketOf e = b ∧ node e = x := by
  simp [bucketChain, and_assoc]

theorem length_bucketChain (b : ι) : (bucketChain bucketOf node calls b).length ≤ calls.length := by
  rw [bucketChain, length_reverse, length_map]
  exact length_filter_le _ _

theorem bucketChain_append (e : ε) (b : ι) : bucketChain bucketOf node (calls ++ [e]) b =
    if bucketOf e = b then node e :: bucketChain bucketOf node calls b else bucketChain bucketOf node calls b := by
  by_cases hb : bucketOf e = b <;> simp [bucketChain, hb]

theorem Chain.addHead [DecidableEq P] {x : P} {b b' : ι} {xs : List P} (h₀ : x ≠ null) (hnew : x ∉ xs)
    (h : Chain next null (first b) xs) :
    Chain (update next x (first b')) null (update first b' x b)
      (if b' = b then x :: xs else xs) := by
  have hold : Chain (update next x (first b')) null (first b) xs := by
    apply h.congr
    intro y hy
    have hne : y ≠ x := fun e => hnew (e ▸ hy)
    exact update_of_ne hne ..
  by_cases hb : b' = b
  · subst hb
    rw [if_pos rfl, update_self]
    refine ⟨rfl, h₀, ?_⟩
    rw [update_self]
    exact hold
  · rw [if_neg hb, update_of_ne (Ne.symm hb)]
    exact hold

theorem Hashed.nil : Hashed bucketOf node null [] (fun _ => null) next := fun _ => rfl

theorem Hashed.congr {bucketOf' : ε → ι} {next' : P → P} (h : Hashed bucketOf node null calls first next)
    (hb : ∀ e ∈ calls, bucketOf' e = bucketOf e) (hx : ∀ e ∈ calls, next' (node e) = next (node e)) :
    Hashed bucketOf' node null calls first next' := by
  intro b
  have hchain : bucketChain bucketOf' node calls b = bucketChain bucketOf node calls b := by
    have hfilter : calls.filter (fun e => bucketOf' e = b) = calls.filter (fun e => bucketOf e = b) := by
      apply filter_congr
      intro e he
      rw [hb e he]
    rw [bucketChain, hfilter, bucketChain]
  rw [hchain]
  apply (h b).congr
  intro x hm
  obtain ⟨e, he, -, rfl⟩ := mem_bucketChain.mp hm
  exact hx e he

/-- What can be reached from the heads is what was inserted. -/
theorem Hashed.reach_iff (h : Hashed bucketOf node null calls first next) {x : P} :
    (∃ b xs, Chain next null (first b) xs ∧ x ∈ xs) ↔ x ∈ calls.map node := by
  rw [List.mem_map]
  constructor
  · rintro ⟨b, xs, hc, hx⟩
    rw [hc.unique (h b)] at hx
    obtain ⟨e, he, -, heq⟩ := mem_bucketChain.mp hx
    exact ⟨e, he, heq⟩
  · rintro ⟨e, he, heq⟩
    exact ⟨bucketOf e, _, h _, mem_bucketChain.mpr ⟨e, he, rfl, heq⟩⟩

theorem Hashed.insert [DecidableEq P] (h : Hashed bucketOf node null calls first next) {e : ε} (h₀ : node e ≠ null)
    (hnew : node e ∉ calls.map node) :
    Hashed bucketOf node null (calls ++ [e]) (update first (bucketOf e) (node e))
      (update next (node e) (first (bucketOf e))) := by
  intro b
  rw [bucketChain_append]
  apply (h b).addHead h₀
  intro hm
  obtain ⟨e', he', -, heq⟩ := mem_bucketChain.mp hm
  exact hnew (heq ▸ List.mem_map_of_mem he')

theorem Hashed.find [DecidableEq P] (h : Hashed bucketOf node null calls first next) (test : P → Bool) {fuel : Nat}
    (hf : calls.length < fuel) (b : ι) :
    chainFind next null test fuel (first b) =
      some (((calls.reverse.find? fun e => bucketOf e = b ∧ test (node e)).map node).getD null) := by
  rw [(h b).find test fuel (Nat.lt_of_le_of_lt (length_bucketChain b) hf), bucketChain, ← map_reverse,
    ← filter_reverse, find?_map, find?_filter]
  simp only [decide_eq_true_eq, comp_apply]

end

/-- The newest candidate is a right one if and only if every candidate is followed by a
right one or is one. -/
theorem find?_reverse_iff {p q : ε → Prop} [DecidablePred p] (hqp : ∀ e, q e → p e) {l : List ε} {e₀ : ε}
    (h : l.reverse.find? (fun e => p e) = some e₀) :
    e₀ ∈ l ∧ (q e₀ ↔ ∀ pre e post, l = pre ++ e :: post → p e → ∃ e' ∈ e :: post, q e') := by
  obtain ⟨hm, as, bs, hrev, has⟩ := find?_eq_some_iff_append.mp h
  have hm : p e₀ := of_decide_eq_true hm
  have hlate : ∀ e ∈ as.reverse, ¬ p e := by
    intro e he
    simpa using has e (mem_reverse.mp he)
  have hl : l = bs.reverse ++ e₀ :: as.reverse := by
    rw [← reverse_reverse l, hrev]
    simp
  refine ⟨by rw [hl]; simp, ?_⟩
  constructor
  · intro hi pre e post hsplit hp
    refine ⟨e₀, ?_, hi⟩
    -- no candidate stands behind `e₀`, so `e` is `e₀` or stands in front of it
    rw [hl] at hsplit
    obtain ⟨mid, -, hmid⟩ | ⟨mid, -, hmid⟩ := append_eq_append_iff.mp hsplit
    · cases mid with
      | nil => exact (List.cons.inj hmid).1 ▸ mem_cons_self ..
      | cons x mid =>
        have hlast : e ∈ as.reverse := by rw [(List.cons.inj hmid).2]; simp
        exact absurd hp (hlate e hlast)
    · rw [hmid]
      simp
  · intro hcond
    obtain ⟨e', he', hi⟩ := hcond _ _ _ hl hm
    cases he' with
    | head => exact hi
    | tail _ he' => exact absurd (hqp e' hi) (hlate e' he')

end MiniOS
