import Mathlib.Data.Set.Basic
import Mathlib.Data.List.Induction

/-!
# Radix trees of tables

Tables whose slots point to tables of the next level. A path is the list of slots
taken from the root; `D` is the set of paths that are looked at.
-/

namespace MiniOS

open Option

variable {F : Type*}

def follow (child : F → Nat → Option F) : F → List Nat → Option F
  | f, [] => some f
  | f, k :: p => (child f k).bind fun g => follow child g p

structure Radix (child : F → Nat → Option F) (root : F) (D : Set (List Nat)) : Prop where
  closed : ∀ p k, p ++ [k] ∈ D → p ∈ D
  inj : ∀ p ∈ D, ∀ q ∈ D, ∀ f, follow child root p = some f → follow child root q = some f → p = q

section
variable {child child' : F → Nat → Option F} {root : F} {D : Set (List Nat)} {p : List Nat} {k : Nat} {f n : F}

theorem follow_concat (child : F → Nat → Option F) (k : Nat) : ∀ (f : F) (p : List Nat),
    follow child f (p ++ [k]) = (follow child f p).bind fun g => child g k
  | f, [] => by
    rw [List.nil_append, follow, follow, bind_some]
    cases child f k with
    | none => rfl
    | some g => rfl
  | f, j :: p => by
    rw [List.cons_append, follow, follow]
    cases child f j with
    | none => rfl
    | some g => exact follow_concat child k g p

theorem Radix.same (h : Radix child root D)
    (hc : ∀ p k f, p ++ [k] ∈ D → follow child root p = some f → child' f k = child f k) :
    ∀ p ∈ D, follow child' root p = follow child root p := by
  intro p
  induction p using List.reverseRecOn with
  | nil => intro _; rfl
  | append_singleton p k ih =>
    intro hp
    rw [follow_concat, follow_concat, ih (h.closed p k hp)]
    cases hf : follow child root p with
    | none => rfl
    | some f => exact hc p k f hp hf

theorem Radix.congr (h : Radix child root D) (hc : ∀ p ∈ D, follow child' root p = follow child root p) :
    Radix child' root D where
  closed := h.closed
  inj p hp q hq f := by
    rw [hc p hp, hc q hq]
    exact h.inj p hp q hq f

theorem Radix.follow_grow (h : Radix child root D) (hp : p ++ [k] ∈ D) (hf : follow child root p = some f)
    (hk : child f k = none) (hn : ∀ q ∈ D, follow child root q ≠ some n) (hset : child' f k = some n)
    (hnew : ∀ j, child' n j = none) (hold : ∀ g j, g ≠ n → (g = f → j ≠ k) → child' g j = child g j) (q : List Nat)
    (hq : q ∈ D) : (q = p ++ [k] → follow child' root q = some n) ∧
      (q ≠ p ++ [k] → follow child' root q = follow child root q) := by
  have hold' : follow child root (p ++ [k]) = none := by rw [follow_concat, hf]; exact hk
  induction q using List.reverseRecOn with
  | nil => exact ⟨fun e => by simp at e, fun _ => rfl⟩
  | append_singleton q j ih =>
    have hq' := h.closed q j hq
    obtain ⟨ih₁, ih₂⟩ := ih hq'
    rw [follow_concat, follow_concat]
    by_cases e : q = p ++ [k]
    · -- below the new table there was nothing and is nothing
      refine ⟨fun e' => ?_, fun _ => ?_⟩
      · have hlen := congrArg List.length e'
        rw [e] at hlen
        simp at hlen
      · rw [ih₁ e, e, hold', bind_some, bind_none]
        exact hnew j
    · rw [ih₂ e]
      cases hg : follow child root q with
      | none =>
        refine ⟨fun e' => ?_, fun _ => rfl⟩
        rw [(List.append_inj' e' rfl).1, hf] at hg
        cases hg
      | some g =>
        rw [bind_some, bind_some]
        refine ⟨fun e' => ?_, fun hne => hold g j (fun e' => hn q hq' (e' ▸ hg)) fun e' ej => hne ?_⟩
        · obtain ⟨rfl, ej⟩ := List.append_inj' e' rfl
          rw [hg, some.injEq] at hf
          rw [hf, (List.cons.inj ej).1]
          exact hset
        · rw [h.inj q hq' p (h.closed p k hp) f (e' ▸ hg) hf, ej]

theorem Radix.grow (h : Radix child root D) (hn : ∀ q ∈ D, follow child root q ≠ some n)
    (hc : ∀ q ∈ D, (q = p ++ [k] → follow child' root q = some n) ∧
      (q ≠ p ++ [k] → follow child' root q = follow child root q)) : Radix child' root D where
  closed := h.closed
  inj q hq r hr g h₁ h₂ := by
    by_cases eq : q = p ++ [k]
    · by_cases er : r = p ++ [k]
      · rw [eq, er]
      · rw [(hc q hq).1 eq] at h₁
        rw [(hc r hr).2 er, ← h₁] at h₂
        exact absurd h₂ (hn r hr)
    · rw [(hc q hq).2 eq] at h₁
      by_cases er : r = p ++ [k]
      · rw [(hc r hr).1 er] at h₂
        rw [← h₂] at h₁
        exact absurd h₁ (hn q hq)
      · rw [(hc r hr).2 er] at h₂
        exact h.inj q hq r hr g h₁ h₂

end

end MiniOS
