import Mathlib.Logic.Basic

/-!
# Runs of operations

What holds all along the run of a list of operations, and when it does if an invariant
says so for one operation.
-/

namespace MiniOS

section
variable {σ ο : Type} {step : σ → ο → σ} {P Q A : σ → ο → Prop}

def Along (step : σ → ο → σ) (P : σ → ο → Prop) : σ → List ο → Prop
  | _, [] => True
  | s, op :: ops => P s op ∧ Along step P (step s op) ops

theorem along_iff (Inv : σ → Prop) (hstep : ∀ {s op}, Inv s → A s op → Q s op → Inv (step s op))
    (hiff : ∀ {s op}, Inv s → A s op → (P s op ↔ Q s op)) :
    ∀ (ops : List ο) {s : σ}, Inv s → Along step A s ops → (Along step P s ops ↔ Along step Q s ops)
  | [], _, _, _ => Iff.rfl
  | op :: ops, s, hs, ha => by
    have hop := hiff hs ha.1
    constructor
    · rintro ⟨hp, hrun⟩
      exact ⟨hop.mp hp, (along_iff Inv hstep hiff ops (hstep hs ha.1 (hop.mp hp)) ha.2).mp hrun⟩
    · rintro ⟨hq, hrun⟩
      exact ⟨hop.mpr hq, (along_iff Inv hstep hiff ops (hstep hs ha.1 hq) ha.2).mpr hrun⟩

theorem along_of (Inv : σ → Prop) (hstep : ∀ {s op}, Inv s → A s op → Q s op → P s op ∧ Inv (step s op)) :
    ∀ (ops : List ο) {s : σ}, Inv s → Along step A s ops → Along step Q s ops → Along step P s ops
  | [], _, _, _, _ => trivial
  | _ :: ops, _, hs, ha, hq => by
    obtain ⟨hp, hinv⟩ := hstep hs ha.1 hq.1
    exact ⟨hp, along_of Inv hstep ops hinv ha.2 hq.2⟩

theorem along_forall {R : ο → Prop} : ∀ {ops : List ο} {s : σ}, Along step (fun _ op => R op) s ops ↔
    ∀ op ∈ ops, R op
  | [], _ => by simp [Along]
  | op :: ops, s => by rw [Along, along_forall, List.forall_mem_cons]

theorem along_append : ∀ (ops ops' : List ο) {s : σ},
    Along step P s (ops ++ ops') ↔ Along step P s ops ∧ Along step P (ops.foldl step s) ops'
  | [], _, _ => by simp [Along]
  | op :: ops, ops', s => by
    simp only [List.cons_append, Along, List.foldl_cons, along_append ops ops', and_assoc]

theorem foldlM_snoc {f : σ → ο → Option σ} {ops : List ο} {op : ο} {s s' : σ} :
    (ops ++ [op]).foldlM f s = some s' ↔ ∃ s₁, ops.foldlM f s = some s₁ ∧ f s₁ op = some s' := by
  rw [List.foldlM_append, Option.bind_eq_bind, Option.bind_eq_some_iff]
  simp only [List.foldlM_cons, List.foldlM_nil, bind_pure]

end

end MiniOS
