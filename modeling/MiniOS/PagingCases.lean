import MiniOS.Paging

/-!
# What the paging operations can do

One inversion for each operation with several ways to end; the invariants of paging are proved
from these and not from the bodies.
-/

namespace MiniOS

namespace Paging

variable {s s' : Paging} {t : Nat}

/-! ## Memory for objects -/

theorem kmalloc_eq {ok : Bool} (h : s.kmalloc = (ok, s')) : ∃ rest, s' = { s with kmallocs := rest } := by
  unfold kmalloc at h
  split at h
  · cases h
    exact ⟨s.kmallocs, rfl⟩
  · cases h
    exact ⟨_, rfl⟩

theorem copyFiles_eq {ok : Bool} (h : s.copyFiles = (ok, s')) : ∃ rest, s' = { s with kmallocs := rest } := by
  unfold copyFiles at h
  split at h
  · next hk =>
    cases h
    exact kmalloc_eq hk
  · next hk =>
    obtain ⟨_, rfl⟩ := kmalloc_eq hk
    obtain ⟨rest, rfl⟩ := kmalloc_eq h
    exact ⟨rest, rfl⟩

structure Accepts (s : Paging) (t addr len : Nat) : Prop where
  start : roundDown addr pageSize ≠ 0
  len_le : len ≤ kernelBaseAddr
  end_le : wrap (addr + len) ≤ kernelBaseAddr
  next : ¬ ((s.mm t).findVma addr).any (fun a => a.vmStart < wrap (addr + len)) = true

theorem createVma_cases {addr len : Nat} {ok : Bool} (h : s.createVma t addr len = (ok, s')) : ∃ rest,
    (ok = false ∧ s' = { s with kmallocs := rest }) ∨
      (ok = true ∧ s.Accepts t addr len ∧ s' = { s with kmallocs := rest }.setMm t
        { s.mm t with mmap := insertArea (newArea addr len) (s.mm t).mmap }) := by
  unfold createVma at h
  dsimp only at h
  split at h
  · cases h
    exact ⟨s.kmallocs, .inl ⟨rfl, rfl⟩⟩
  next hno =>
  simp only [not_or, Nat.not_lt] at hno
  cases hk : s.kmalloc with | mk b s₁
  obtain ⟨rest, rfl⟩ := kmalloc_eq hk
  rw [hk] at h
  split at h
  · cases h
    exact ⟨rest, .inr ⟨rfl, ⟨hno.1, hno.2.1, hno.2.2.1, hno.2.2.2⟩, rfl⟩⟩
  · cases h
    exact ⟨rest, .inl ⟨rfl, rfl⟩⟩

theorem createVma_accepts {addr len : Nat} (h : s.createVma t addr len = (true, s')) : s.Accepts t addr len := by
  obtain ⟨rest, ⟨hno, -⟩ | ⟨-, hacc, -⟩⟩ := createVma_cases h
  · cases hno
  · exact hacc

/-! ## Faults -/

/-- A write to a page that may not be written: the entry becomes writable, or the page is copied
through `USER_TEMPBOTT`, or there is no memory and the task ends. -/
inductive WpFault (s : Paging) (t va : Nat) (e : Pte) : Bool → Paging → Prop
  | own : s.nref e.frame = 1 → WpFault s t va e true (s.pteSet t (va / pageSize) (some { e with write := true }))
  | noPage {s₁} : s.nref e.frame ≠ 1 → s.pageAlloc = (none, s₁) → WpFault s t va e false s₁
  | noTable {p s₁ s₂} : s.nref e.frame ≠ 1 → s.pageAlloc = (some p, s₁) →
      s₁.pageInsert t p userTempBott = some (false, s₂) → WpFault s t va e false (s₂.pageFree p)
  | copy {p s₁ s₂ s₃ s₄ s'} : s.nref e.frame ≠ 1 → s.pageAlloc = (some p, s₁) →
      s₁.pageInsert t p userTempBott = some (true, s₂) →
      s₂.moveFrame t (userTempBott / pageSize) (va / pageSize) = some s₃ → s₃.pageInsert t p va = some (true, s₄) →
      s₄.pageRemove t userTempBott = some s' → WpFault s t va e true s'

theorem doWpFault_cases {va : Nat} {e : Pte} {ok : Bool} (h : s.doWpFault t va e = some (ok, s')) :
    WpFault s t va e ok s' := by
  unfold doWpFault at h
  split at h
  · next hone =>
    cases h
    exact .own hone
  next hone =>
  split at h
  · next ha =>
    cases h
    exact .noPage hone ha
  next p s₁ ha =>
  simp only [Option.bind_eq_bind, Option.bind_eq_some_iff, Prod.exists] at h
  obtain ⟨ok, s₂, hi, h⟩ := h
  cases ok with
  | false =>
    cases h
    exact .noTable hone ha hi
  | true =>
    simp only [if_true, Option.bind_eq_some_iff, Prod.exists] at h
    obtain ⟨s₃, hm, ok, s₄, hi₄, s₅, hr, h⟩ := h
    cases ok with
    | false => cases h
    | true =>
      cases h
      exact .copy hone ha hi hm hi₄ hr

inductive PteFault (s : Paging) (t va : Nat) : Bool → Paging → Prop
  | wp {e ok s'} : (s.mm t).pte (va / pageSize) = some e → s.doWpFault t va e = some (ok, s') →
    PteFault s t va ok s'
  | noPage {s₁} : (s.mm t).pte (va / pageSize) = none → s.pageAlloc = (none, s₁) → PteFault s t va false s₁
  | map {p s₁ s'} : (s.mm t).pte (va / pageSize) = none → s.pageAlloc = (some p, s₁) →
    s₁.pageInsert t p va = some (true, s') → PteFault s t va true s'

theorem handlePteFault_cases {a : Area} {va : Nat} {write ok : Bool}
    (h : s.handlePteFault t a va write = some (ok, s')) : PteFault s t va ok s' := by
  unfold handlePteFault at h
  split at h
  · next e he =>
    split at h
    · exact .wp he h
    · cases h
  next hnone =>
  split at h
  · split at h
    · next ha =>
      cases h
      exact .noPage hnone ha
    · next ha =>
      simp only [Option.bind_eq_bind, Option.bind_eq_some_iff, Prod.exists] at h
      obtain ⟨ok, s₂, hi, h⟩ := h
      cases ok with
      | false => cases h
      | true =>
        cases h
        exact .map hnone ha hi
  · cases h

/-- The task ends at once, or for want of a table, or `handle_pte_fault` decides. -/
inductive Fault (s : Paging) (t va : Nat) (write : Bool) (vma : Option Area) : Bool → Paging → Prop
  | outside : (∀ a ∈ vma, va < a.vmStart) → Fault s t va write vma false s
  | noTable {a s'} : vma = some a → ¬ va < a.vmStart → s.pageWalk t (va / pageSize) = (false, s') →
      Fault s t va write vma false s'
  | inside {a s₁ ok s'} : vma = some a → ¬ va < a.vmStart → s.pageWalk t (va / pageSize) = (true, s₁) →
      s₁.handlePteFault t a va write = some (ok, s') → Fault s t va write vma ok s'

theorem faultIn_cases {va : Nat} {write ok : Bool} {vma : Option Area}
    (h : s.faultIn t va write vma = some (ok, s')) : Fault s t va write vma ok s' := by
  unfold faultIn at h
  split at h
  · cases h
    exact .outside nofun
  split at h
  · next hstart =>
    cases h
    exact .outside fun _ ha => Option.mem_some.mp ha ▸ hstart
  next hstart =>
  split at h
  · next hw =>
    cases h
    exact .noTable rfl hstart hw
  · next hw => exact .inside rfl hstart hw h

/-! ## Fork -/

def sharePage (s : Paging) (src dest v : Nat) (e : Pte) : Paging :=
  ((s.pteSet src v (some { e with write := false })).atomicInc e.frame).pteSet dest v
    (some { e with write := false })

theorem copyPages_cons {src dest va : Nat} {l : List Nat} {ok : Bool}
    (h : s.copyPages src dest (va :: l) = (ok, s')) :
    ((s.mm src).pte (va / pageSize) = none ∧ s.copyPages src dest l = (ok, s')) ∨
      ∃ e, (s.mm src).pte (va / pageSize) = some e ∧
        ((ok = false ∧ s.pageWalk dest (va / pageSize) = (false, s')) ∨
          ∃ s₁, s.pageWalk dest (va / pageSize) = (true, s₁) ∧
            (s₁.sharePage src dest (va / pageSize) e).copyPages src dest l = (ok, s')) := by
  unfold copyPages at h
  dsimp only at h
  split at h
  · next hnone => exact .inl ⟨hnone, h⟩
  next e he =>
  refine .inr ⟨e, he, ?_⟩
  split at h
  · next hw =>
    cases h
    exact .inl ⟨rfl, hw⟩
  · next s₁ hw => exact .inr ⟨s₁, hw, h⟩

theorem copyTask_cons {src dest : Nat} {a : Area} {l : List Area} {ok : Bool}
    (h : s.copyTask src dest (a :: l) = (ok, s')) :
    (ok = false ∧ s.createVma dest a.vmStart a.length = (false, s')) ∨
      ∃ s₁, s.createVma dest a.vmStart a.length = (true, s₁) ∧
        ((ok = false ∧ s₁.copyPages src dest a.addrs = (false, s')) ∨
          ∃ s₂, s₁.copyPages src dest a.addrs = (true, s₂) ∧ s₂.copyTask src dest l = (ok, s')) := by
  unfold copyTask at h
  split at h
  · next hv =>
    cases h
    exact .inl ⟨rfl, hv⟩
  next s₁ hv =>
  refine .inr ⟨s₁, hv, ?_⟩
  split at h
  · next hp =>
    cases h
    exact .inl ⟨rfl, hp⟩
  · next s₂ hp => exact .inr ⟨s₂, hp, h⟩

inductive Takes : Paging → Paging → Prop
  | kmalloc {s s' ok} : s.kmalloc = (ok, s') → Takes s s'
  | pageAlloc {s s' r} : s.pageAlloc = (r, s') → Takes s s'
  | copyFiles {s s' ok} : s.copyFiles = (ok, s') → Takes s s'
  | trans {s s' s'' : Paging} : Takes s s' → Takes s' s'' → Takes s s''

inductive ForkAreas (s : Paging) (t child : Nat) (l : List Area) (back : List Area → List Area) : Paging → Prop
  | copied {s' : Paging} : s.copyTask t child l = (true, s') → ForkAreas s t child l back s'
  | ended {s₁ s' : Paging} : s.copyTask t child l = (false, s₁) →
      s₁.exitAreas child (back (s₁.mm child).mmap) = some s' → ForkAreas s t child l back s'

theorem forkStart_cases {r : Option Nat} (h : s.forkStart = (r, s')) :
    (r = none ∧ Takes s s') ∨ ∃ p s₂ s₃, r = some p ∧ Takes s s₂ ∧ s₂.pageAlloc = (some p, s₃) ∧
      s₃.copyFiles = (true, s') := by
  unfold forkStart at h
  split at h
  · next hk =>
    cases h
    exact .inl ⟨rfl, .kmalloc hk⟩
  next s₁ hk₁ =>
  split at h
  · next hk =>
    cases h
    exact .inl ⟨rfl, .trans (.kmalloc hk₁) (.kmalloc hk)⟩
  next s₂ hk₂ =>
  have h₂ : Takes s s₂ := .trans (.kmalloc hk₁) (.kmalloc hk₂)
  split at h
  · next ha =>
    cases h
    exact .inl ⟨rfl, h₂.trans (.pageAlloc ha)⟩
  next p s₃ ha =>
  split at h
  · next hf =>
    cases h
    exact .inl ⟨rfl, (h₂.trans (.pageAlloc ha)).trans (.copyFiles hf)⟩
  · next hf =>
    cases h
    exact .inr ⟨p, s₂, s₃, rfl, h₂, ha, hf⟩

theorem forkAlong_cases {child : Nat} {l : List Area} {back : List Area → List Area}
    (h : s.forkAlong t child l back = some s') :
    Takes s s' ∨ ∃ p s₂ s₃ s₄, Takes s s₂ ∧ s₂.pageAlloc = (some p, s₃) ∧ s₃.copyFiles = (true, s₄) ∧
      ForkAreas (s₄.newMm child (s₄.mm t).startBrk p) t child l back s' := by
  unfold forkAlong at h
  split at h
  · next hstart =>
    cases h
    obtain ⟨-, htakes⟩ | ⟨_, _, _, hno, -⟩ := forkStart_cases hstart
    · exact .inl htakes
    · cases hno
  next p s₄ hstart =>
  obtain ⟨hno, -⟩ | ⟨p', s₂, s₃, hp, h₂, ha, hf⟩ := forkStart_cases hstart
  · cases hno
  cases hp
  refine .inr ⟨p, s₂, s₃, s₄, h₂, ha, hf, ?_⟩
  split at h
  · next hcopy =>
    cases h
    exact .copied hcopy
  · next hcopy => exact .ended hcopy h

end Paging

end MiniOS
