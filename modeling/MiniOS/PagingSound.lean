import MiniOS.PageEntries

/-! # Copy-on-write: counters, write bits and the free list stay in step -/

namespace MiniOS

open Function List Option Paging Space

/-! ## Counting -/

namespace Paging

def userRefs (s : Paging) : Nat → Nat :=
  refs (s.tasks ×ˢ Finset.range userPages) fun x => (s.mm x.1).frame x.2

def pmdRefs (s : Paging) : Nat → Nat :=
  refs (s.tasks ×ˢ Finset.range userPgds) fun x => ((s.mm x.1).pgd x.2).map PmdTable.page

def pteRefs (s : Paging) : Nat → Nat :=
  refs (s.tasks ×ˢ Finset.range (userPgds * ptrsPerTable)) fun x => ((s.mm x.1).pteTable x.2).map PteTable.page

def tableRefs (s : Paging) (p : Nat) : Nat := s.pmdRefs p + s.pteRefs p

/-- Page directories that live in `p`; they are not counted in `nref`. -/
def rootRefs (s : Paging) : Nat → Nat := refs s.tasks fun t => some (s.mm t).page

section
variable {s : Paging} {t : Nat} {sp : Space}

theorem userRefs_setMm (h : ∀ v, sp.frame v = (s.mm t).frame v) (p : Nat) :
    (s.setMm t sp).userRefs p = s.userRefs p :=
  refs_congr fun x _ => setMm_keeps (fun sp => sp.frame x.2) (h x.2) x.1

theorem pmdRefs_setMm (h : ∀ i, (sp.pgd i).map PmdTable.page = ((s.mm t).pgd i).map PmdTable.page) (p : Nat) :
    (s.setMm t sp).pmdRefs p = s.pmdRefs p :=
  refs_congr fun x _ => setMm_keeps (fun sp => (sp.pgd x.2).map PmdTable.page) (h x.2) x.1

theorem pteRefs_setMm (h : ∀ j, (sp.pteTable j).map PteTable.page = ((s.mm t).pteTable j).map PteTable.page)
    (p : Nat) : (s.setMm t sp).pteRefs p = s.pteRefs p :=
  refs_congr fun x _ => setMm_keeps (fun sp => (sp.pteTable x.2).map PteTable.page) (h x.2) x.1

theorem rootRefs_setMm (h : sp.page = (s.mm t).page) (p : Nat) : (s.setMm t sp).rootRefs p = s.rootRefs p :=
  refs_congr fun t' _ => setMm_keeps (fun sp => some sp.page) (congrArg some h) t'

theorem refs_setMm {α : Type} [DecidableEq α] (f : Space → Nat → Option α) {n k : Nat}
    (ht : t ∈ s.tasks) (hk : k < n) (h : ∀ i, i ≠ k → f sp i = f (s.mm t) i) (p : α) :
    refs (s.tasks ×ˢ Finset.range n) (fun x => f ((s.setMm t sp).mm x.1) x.2) p + hits (f (s.mm t) k) p =
      refs (s.tasks ×ˢ Finset.range n) (fun x => f (s.mm x.1) x.2) p + hits (f sp k) p := by
  have hi : (t, k) ∈ s.tasks ×ˢ Finset.range n := Finset.mk_mem_product ht (Finset.mem_range.mpr hk)
  have := refs_set (f := fun x => f (s.mm x.1) x.2) (g := fun x => f ((s.setMm t sp).mm x.1) x.2) hi
    (fun x _ hx => ?_) p
  · simpa only [setMm_mm_self] using this
  · by_cases e : x.1 = t
    · have hx₂ : x.2 ≠ k := fun e₂ => hx (Prod.ext e e₂)
      rw [e, setMm_mm_self, h _ hx₂]
    · exact congrArg (f · x.2) (setMm_mm_of_ne s sp e)

theorem tableRefs_pgdSet {i : Nat} {m : Option PmdTable} (ht : t ∈ s.tasks) (hi : i < userPgds)
    (hpt : ∀ j, ((s.mm t).pgdSet i m).pteTable j = (s.mm t).pteTable j) (q : Nat) :
    (s.setMm t ((s.mm t).pgdSet i m)).tableRefs q + hits (((s.mm t).pgd i).map PmdTable.page) q =
      s.tableRefs q + hits (m.map PmdTable.page) q := by
  have hpmd := refs_setMm (fun sp i => (sp.pgd i).map PmdTable.page) ht hi
    (fun k hk => congrArg _ (pgdSet_pgd_of_ne _ m hk)) q
  have hpte := pteRefs_setMm (fun j => congrArg (Option.map PteTable.page) (hpt j)) q
  rw [pgdSet_pgd_self] at hpmd
  rw [tableRefs, hpte, Nat.add_right_comm]
  exact (congrArg (· + s.pteRefs q) hpmd).trans (Nat.add_right_comm ..)

theorem tableRefs_pmdSet {j : Nat} {m : Option PteTable} (ht : t ∈ s.tasks) (hj : j < userPgds * ptrsPerTable)
    (hpt : ∀ k, ((s.mm t).pmdSet j m).pteTable k = if k = j then m else (s.mm t).pteTable k) (q : Nat) :
    (s.setMm t ((s.mm t).pmdSet j m)).tableRefs q + hits (((s.mm t).pteTable j).map PteTable.page) q =
      s.tableRefs q + hits (m.map PteTable.page) q := by
  have hpte := refs_setMm (fun sp j => (sp.pteTable j).map PteTable.page) ht hj
    (fun k hk => congrArg _ ((hpt k).trans (if_neg hk))) q
  rw [hpt, if_pos rfl] at hpte
  rw [tableRefs, pmdRefs_setMm (pmdSet_pgd (s.mm t) j m), Nat.add_assoc]
  exact (congrArg (s.pmdRefs q + ·) hpte).trans (Nat.add_assoc ..).symm

variable {v : Nat} {e : Option Pte} (htab : ((s.mm t).pteTable (v / ptrsPerTable)).isSome)
include htab

theorem userRefs_pteSet (ht : t ∈ s.tasks) (hv : v < userPages) (p : Nat) :
    (s.pteSet t v e).userRefs p + hits ((s.mm t).frame v) p = s.userRefs p + hits (e.map Pte.frame) p := by
  have hne : ∀ w, w ≠ v → ((s.mm t).pteSet v e).frame w = (s.mm t).frame w := fun w hw => by
    rw [Space.frame, Space.pteSet_pte htab, if_neg hw, Space.frame]
  have hself : ((s.mm t).pteSet v e).frame v = e.map Pte.frame := by
    rw [Space.frame, Space.pteSet_pte htab, if_pos rfl]
  rw [← hself]
  exact refs_setMm frame ht hv hne p

theorem tableRefs_pteSet (p : Nat) : (s.pteSet t v e).tableRefs p = s.tableRefs p :=
  congrArg₂ (· + ·) (pmdRefs_setMm (pteSet_pgd _ _ _) p) (pteRefs_setMm (pteSet_pteTable htab e) p)

omit htab in
theorem rootRefs_pteSet (p : Nat) : (s.pteSet t v e).rootRefs p = s.rootRefs p :=
  rootRefs_setMm (pteSet_page ..) p

end

end Paging

/-! ## The invariant -/

namespace Paging

variable (s : Paging) (p : Nat)

theorem pageDecref_nref : (s.pageDecref p).nref = update s.nref p (s.nref p - 1) := by
  unfold pageDecref
  dsimp only
  split <;> rfl

theorem pageDecref_free : (s.pageDecref p).free = if s.nref p - 1 = 0 then p :: s.free else s.free := by
  simp only [pageDecref, update_self]
  split <;> rfl

theorem pageDecref_userRefs : (s.pageDecref p).userRefs = s.userRefs := by
  unfold userRefs; rw [pageDecref_mm, pageDecref_tasks]

theorem pageDecref_tableRefs : (s.pageDecref p).tableRefs = s.tableRefs := by
  unfold tableRefs pmdRefs pteRefs; rw [pageDecref_mm, pageDecref_tasks]

theorem pageDecref_rootRefs : (s.pageDecref p).rootRefs = s.rootRefs := by
  unfold rootRefs; rw [pageDecref_mm, pageDecref_tasks]

end Paging

/-- `held` is a frame whose counter is ahead of the entries by one, `exempt` one that
may be mapped writable more than once; both are `none` between operations. -/
structure PagingInv (held exempt : Option Nat) (s : Paging) : Prop where
  nref : ∀ p, s.nref p = (s.userRefs p + s.tableRefs p + hits held p : Nat)
  nodup : s.free.Nodup
  free : ∀ p ∈ s.free, s.userRefs p = 0 ∧ s.tableRefs p + s.rootRefs p = 0 ∧ hits held p = 0
  kern : ∀ p, s.tableRefs p + s.rootRefs p ≤ 1
  apart : ∀ p, 0 < s.tableRefs p + s.rootRefs p → s.userRefs p = 0 ∧ hits held p = 0
  write : ∀ t ∈ s.tasks, ∀ v < userPages, ∀ p, (s.mm t).pte v = some ⟨p, true⟩ → s.userRefs p = 1 ∨ exempt = some p

def Paging.Loose (s : Paging) (p : Nat) : Prop := p ∉ s.free ∧ s.tableRefs p + s.rootRefs p = 0

namespace PagingInv

variable {s s' : Paging} {held exempt : Option Nat} {t v p : Nat}

theorem congr (h : PagingInv held exempt s) (hn : s'.nref = s.nref) (hf : s'.free = s.free)
    (ht : s'.tasks = s.tasks) (hm : s'.mm = s.mm) : PagingInv held exempt s' := by
  cases s; cases s'
  subst hn hf ht hm
  exact ⟨h.nref, h.nodup, h.free, h.kern, h.apart, h.write⟩

theorem mapped_pos (ht : t ∈ s.tasks) (hv : v < userPages) (hp : (s.mm t).frame v = some p) : 0 < s.userRefs p :=
  refs_pos.mpr ⟨(t, v), Finset.mk_mem_product ht (Finset.mem_range.mpr hv), hp⟩

theorem loose_of_pos (h : PagingInv held exempt s) (hp : 0 < s.userRefs p) : s.Loose p := by
  refine ⟨fun hf => ?_, ?_⟩
  · have := (h.free p hf).1
    omega
  · refine Classical.byContradiction fun hk => ?_
    have := (h.apart p (by omega)).1
    omega

/-- A writable entry is the only one that maps its frame. -/
theorem unshared (h : PagingInv held exempt s) {t' v' : Nat} (ht : t ∈ s.tasks) (hv : v < userPages)
    (ht' : t' ∈ s.tasks) (hv' : v' < userPages) (hp : (s.mm t).pte v = some ⟨p, true⟩)
    (hp' : (s.mm t').frame v' = some p) : (t' = t ∧ v' = v) ∨ exempt = some p := by
  refine (h.write t ht v hv p hp).imp (fun h₁ => ?_) id
  refine Classical.byContradiction fun hne => ?_
  have hpos {t v : Nat} (ht : t ∈ s.tasks) (hv : v < userPages) : (t, v) ∈ s.tasks ×ˢ Finset.range userPages :=
    Finset.mk_mem_product ht (Finset.mem_range.mpr hv)
  have : 2 ≤ s.userRefs p := by
    refine two_le_refs (hpos ht' hv') (hpos ht hv) (fun e => hne ?_) hp' (congrArg (Option.map Pte.frame) hp)
    exact ⟨congrArg Prod.fst e, congrArg Prod.snd e⟩
  omega

/-! ### Counters first, entries second -/

theorem inc (h : PagingInv none exempt s) (hp : s.Loose p) : PagingInv (some p) exempt (s.atomicInc p) := by
  refine ⟨fun q => ?_, h.nodup, fun q hq => ?_, h.kern, fun q hq => ?_, h.write⟩
  · have hn := h.nref q
    rw [hits_none] at hn
    show update s.nref p (s.nref p + 1) q = (s.userRefs q + s.tableRefs q + hits (some p) q : Nat)
    by_cases e : q = p
    · subst e
      rw [update_self, hits_self, hn]
      push_cast; omega
    · rw [update_of_ne e, hits_of_ne fun e' => e (some.inj e').symm, hn]
  · have hne : (some p : Option Nat) ≠ some q := fun e => hp.1 (some.inj e ▸ hq)
    exact ⟨(h.free q hq).1, (h.free q hq).2.1, hits_of_ne hne⟩
  · have hne : (some p : Option Nat) ≠ some q := fun e => by
      have hk : s.tableRefs q + s.rootRefs q = 0 := some.inj e ▸ hp.2
      have hq : 0 < s.tableRefs q + s.rootRefs q := hq
      omega
    exact ⟨(h.apart q hq).1, hits_of_ne hne⟩

section
variable (ht : t ∈ s.tasks) (hv : v < userPages) (htab : ((s.mm t).pteTable (v / ptrsPerTable)).isSome)
include ht hv htab

theorem place (h : PagingInv (some p) exempt s) {w : Bool} (hnone : (s.mm t).pte v = none)
    (hw : exempt = some p ∨ s.userRefs p = 0 ∨
      (w = false ∧ ∀ t ∈ s.tasks, ∀ v < userPages, (s.mm t).pte v ≠ some ⟨p, true⟩)) :
    PagingInv none exempt (s.pteSet t v (some ⟨p, w⟩)) := by
  have hu : ∀ q, (s.pteSet t v (some ⟨p, w⟩)).userRefs q = s.userRefs q + hits (some p) q := fun q => by
    have := userRefs_pteSet htab ht hv q (e := some ⟨p, w⟩)
    rwa [frame, hnone] at this
  have hloose : p ∉ s.free ∧ ¬ 0 < s.tableRefs p + s.rootRefs p := by
    have h₁ : hits (some p) p ≠ 0 := by rw [hits_self]; decide
    exact ⟨fun hf => h₁ (h.free p hf).2.2, fun hk => h₁ (h.apart p hk).2⟩
  refine ⟨fun q => ?_, h.nodup, fun q hq => ?_, fun q => ?_, fun q hq => ?_, fun t' ht' v' hv' q hq => ?_⟩
  · rw [hu, tableRefs_pteSet htab, hits_none]
    show s.nref q = _
    rw [h.nref q]
    congr 1; omega
  · have hne : (some p : Option Nat) ≠ some q := fun e => hloose.1 (some.inj e ▸ hq)
    rw [hu, tableRefs_pteSet htab, rootRefs_pteSet, hits_of_ne hne]
    exact ⟨(h.free q hq).1, (h.free q hq).2.1, rfl⟩
  · rw [tableRefs_pteSet htab, rootRefs_pteSet]
    exact h.kern q
  · rw [tableRefs_pteSet htab, rootRefs_pteSet] at hq
    have hne : (some p : Option Nat) ≠ some q := fun e => hloose.2 (some.inj e ▸ hq)
    rw [hu, hits_of_ne hne]
    exact ⟨(h.apart q hq).1, rfl⟩
  · rw [Paging.pteSet_pte htab] at hq
    rw [hu]
    by_cases e : q = p
    · subst e
      rw [hits_self]
      rcases hw with hx | hz | ⟨rfl, hno⟩
      · exact .inr hx
      · exact .inl (by omega)
      · split at hq
        · cases hq
        · exact absurd hq (hno t' ht' v' hv')
    · have hne : (some p : Option Nat) ≠ some q := fun e' => e (some.inj e').symm
      rw [hits_of_ne hne]
      split at hq
      · cases hq; exact absurd rfl e
      · exact h.write t' ht' v' hv' q hq

theorem rewrite (h : PagingInv held exempt s) {w₀ w : Bool} (hp : (s.mm t).pte v = some ⟨p, w₀⟩)
    (hw : w = true → s.userRefs p = 1) : PagingInv held exempt (s.pteSet t v (some ⟨p, w⟩)) := by
  have hu : ∀ q, (s.pteSet t v (some ⟨p, w⟩)).userRefs q = s.userRefs q := fun q => by
    have := userRefs_pteSet htab ht hv q (e := some ⟨p, w⟩)
    rw [frame, hp] at this
    exact Nat.add_right_cancel this
  refine ⟨fun q => ?_, h.nodup, fun q hq => ?_, fun q => ?_, fun q hq => ?_, fun t' ht' v' hv' q hq => ?_⟩
  · rw [hu, tableRefs_pteSet htab]
    exact h.nref q
  · rw [hu, tableRefs_pteSet htab, rootRefs_pteSet]
    exact h.free q hq
  · rw [tableRefs_pteSet htab, rootRefs_pteSet]
    exact h.kern q
  · rw [tableRefs_pteSet htab, rootRefs_pteSet] at hq
    rw [hu]
    exact h.apart q hq
  · rw [Paging.pteSet_pte htab] at hq
    rw [hu]
    split at hq
    · cases hq; exact .inl (hw rfl)
    · exact h.write t' ht' v' hv' q hq

end

theorem lose (h : PagingInv held exempt s) (hn : s'.nref = (s.pageDecref p).nref)
    (hf : s'.free = (s.pageDecref p).free)
    (hsum : ∀ q, s'.userRefs q + s'.tableRefs q + hits (some p) q = s.userRefs q + s.tableRefs q)
    (hu : ∀ q, s'.userRefs q ≤ s.userRefs q) (hk : ∀ q, s'.tableRefs q ≤ s.tableRefs q)
    (hr : ∀ q, s'.rootRefs q = s.rootRefs q)
    (hw : ∀ t ∈ s'.tasks, ∀ v < userPages, ∀ q, (s'.mm t).pte v = some ⟨q, true⟩ → s'.userRefs q = 1 ∨
    exempt = some q) : PagingInv held exempt s' := by
  have hsum' := hsum p
  rw [hits_self] at hsum'
  have hp : p ∉ s.free ∧ s.rootRefs p = 0 := by
    refine ⟨fun hf => ?_, ?_⟩
    · have := h.free p hf
      omega
    · have h₁ := h.kern p
      have h₂ := h.apart p
      omega
  have hnref : ∀ q, s'.nref q = (s'.userRefs q + s'.tableRefs q + hits held q : Nat) := fun q => by
    have e := hsum q
    have hq := h.nref q
    rw [hn]
    by_cases eq : q = p
    · subst eq
      rw [hits_self] at e
      rw [Paging.pageDecref_nref, update_self, hq]
      omega
    · rw [hits_of_ne fun e' => eq (some.inj e').symm] at e
      rw [Paging.pageDecref_nref, update_of_ne eq, hq]
      congr 1; omega
  have hfree : ∀ q ∈ s.free, s'.userRefs q = 0 ∧ s'.tableRefs q + s'.rootRefs q = 0 ∧ hits held q = 0 :=
      fun q hq => by
    have h₁ := h.free q hq
    have h₂ := hu q
    have h₃ := hk q
    have h₄ := hr q
    omega
  refine ⟨hnref, ?_, fun q hq => ?_, fun q => ?_, fun q hq => ?_, hw⟩
  · rw [hf, Paging.pageDecref_free]
    split
    · exact nodup_cons.mpr ⟨hp.1, h.nodup⟩
    · exact h.nodup
  · rw [hf, Paging.pageDecref_free] at hq
    split at hq
    · next hz =>
      rcases mem_cons.mp hq with rfl | hq
      · have h₁ := hnref q
        have h₂ := hr q
        rw [hn, Paging.pageDecref_nref, update_self] at h₁
        omega
      · exact hfree q hq
    · exact hfree q hq
  · have h₁ := h.kern q
    have h₂ := hk q
    have h₃ := hr q
    omega
  · have h₁ := h.apart q
    have h₂ := hk q
    have h₃ := hr q
    have h₄ := hu q
    omega

theorem drop (h : PagingInv held exempt s) (ht : t ∈ s.tasks) (hv : v < userPages) {e : Pte}
    (he : (s.mm t).pte v = some e) : PagingInv held exempt ((s.pageDecref e.frame).pteSet t v none) := by
  have htab := pteTable_of_pte he
  have hm : (s.pageDecref e.frame).mm = s.mm := pageDecref_mm ..
  have htasks : (s.pageDecref e.frame).tasks = s.tasks := pageDecref_tasks ..
  have htab' : (((s.pageDecref e.frame).mm t).pteTable (v / ptrsPerTable)).isSome := by rw [hm]; exact htab
  have hu : ∀ q, ((s.pageDecref e.frame).pteSet t v none).userRefs q + hits (some e.frame) q = s.userRefs q :=
      fun q => by
    have h₁ := userRefs_pteSet htab' (htasks ▸ ht) hv q (e := none)
    rw [hm, frame, he, pageDecref_userRefs] at h₁
    exact h₁
  have hk : ∀ q, ((s.pageDecref e.frame).pteSet t v none).tableRefs q = s.tableRefs q := fun q => by
    rw [tableRefs_pteSet htab', pageDecref_tableRefs]
  refine h.lose rfl rfl (fun q => ?_) (fun q => ?_) (fun q => (hk q).le) (fun q => ?_) fun t' ht' v' hv' q hq => ?_
  · have := hu q
    rw [hk]
    omega
  · exact (hu q) ▸ Nat.le_add_right ..
  · rw [rootRefs_pteSet, pageDecref_rootRefs]
  · rw [Paging.pteSet_pte htab', hm] at hq
    have ht' : t' ∈ s.tasks := htasks ▸ ht'
    split at hq
    · cases hq
    · next hne =>
      by_cases eq : e.frame = q
      · subst eq
        -- the entry that went away mapped the same frame
        rcases h.unshared ht' hv' ht hv hq (congrArg (Option.map Pte.frame) he) with ⟨e₁, e₂⟩ | hx
        · exact absurd ⟨e₁.symm, e₂.symm⟩ hne
        · exact .inr hx
      · have h₁ := hu q
        rw [hits_of_ne fun e' => eq (some.inj e')] at h₁
        exact (h.write t' ht' v' hv' q hq).imp_left fun h₂ => h₁.trans h₂

theorem gainTable (h : PagingInv held exempt s) {sp : Space} (hl : s.Loose p) (hz : s.userRefs p = 0)
    (hh : hits held p = 0) (hpte : ∀ v, sp.pte v = (s.mm t).pte v) (hpage : sp.page = (s.mm t).page)
    (hk : ∀ q, (s.setMm t sp).tableRefs q = s.tableRefs q + hits (some p) q) :
    PagingInv held exempt ((s.atomicInc p).setMm t sp) := by
  have hu : ∀ q, (s.setMm t sp).userRefs q = s.userRefs q :=
    userRefs_setMm fun v => by rw [frame, hpte, frame]
  have hr : ∀ q, (s.setMm t sp).rootRefs q = s.rootRefs q := rootRefs_setMm hpage
  have hne {q : Nat} (e : q ≠ p) : hits (some p) q = 0 := hits_of_ne fun e' => e (some.inj e').symm
  refine ⟨fun q => ?_, h.nodup, fun q hq => ?_, fun q => ?_, fun q hq => ?_, fun t' ht' v' hv' q hq => ?_⟩
  · show update s.nref p (s.nref p + 1) q =
      ((s.setMm t sp).userRefs q + (s.setMm t sp).tableRefs q + hits held q : Nat)
    rw [hu, hk]
    by_cases e : q = p
    · subst e
      rw [update_self, h.nref, hits_self]
      push_cast; omega
    · rw [update_of_ne e, h.nref, hne e, Nat.add_zero]
  · show (s.setMm t sp).userRefs q = 0 ∧ (s.setMm t sp).tableRefs q + (s.setMm t sp).rootRefs q = 0 ∧
      hits held q = 0
    have e : q ≠ p := fun e => hl.1 (e ▸ hq)
    rw [hu, hk, hr, hne e]
    exact h.free q hq
  · show (s.setMm t sp).tableRefs q + (s.setMm t sp).rootRefs q ≤ 1
    rw [hk, hr]
    by_cases e : q = p
    · have hl₂ := e ▸ hl.2
      have := hits_le_one (some p) q
      omega
    · rw [hne e]
      exact h.kern q
  · replace hq : 0 < (s.setMm t sp).tableRefs q + (s.setMm t sp).rootRefs q := hq
    show (s.setMm t sp).userRefs q = 0 ∧ hits held q = 0
    rw [hu]
    by_cases e : q = p
    · subst e
      exact ⟨hz, hh⟩
    · rw [hk, hr, hne e] at hq
      exact h.apart q hq
  · show (s.setMm t sp).userRefs q = 1 ∨ exempt = some q
    rw [hu]
    refine h.write t' ht' v' hv' q ?_
    rw [← hq]
    exact (setMm_keeps (fun sp => sp.pte v') (hpte v') t').symm

theorem setAreas (h : PagingInv held exempt s) {sp : Space} (hpgd : sp.pgd = (s.mm t).pgd)
    (hpage : sp.page = (s.mm t).page) : PagingInv held exempt (s.setMm t sp) := by
  have hpt : ∀ j, sp.pteTable j = (s.mm t).pteTable j := fun j => by rw [pteTable, hpgd, pteTable]
  have hpte : ∀ v, sp.pte v = (s.mm t).pte v := fun v => pte_congr (hpt _)
  have hu : ∀ q, (s.setMm t sp).userRefs q = s.userRefs q :=
    userRefs_setMm fun v => by rw [frame, hpte, frame]
  have hk : ∀ q, (s.setMm t sp).tableRefs q = s.tableRefs q := fun q => by
    rw [tableRefs, pmdRefs_setMm (fun i => by rw [hpgd]), pteRefs_setMm (fun j => by rw [hpt]),
      tableRefs]
  have hr : ∀ q, (s.setMm t sp).rootRefs q = s.rootRefs q := rootRefs_setMm hpage
  refine ⟨fun q => ?_, h.nodup, fun q hq => ?_, fun q => ?_, fun q hq => ?_, fun t' ht' v' hv' q hq => ?_⟩
  · rw [hu, hk]; exact h.nref q
  · rw [hu, hk, hr]; exact h.free q hq
  · rw [hk, hr]; exact h.kern q
  · rw [hk, hr] at hq
    rw [hu]; exact h.apart q hq
  · rw [hu]
    refine h.write t' ht' v' hv' q ?_
    rw [← hq]
    exact (setMm_keeps (fun sp => sp.pte v') (hpte v') t').symm

end PagingInv

/-! ## `page_alloc` and `page_walk` -/

structure Paging.Keeps (s s' : Paging) : Prop extends SameEntries s s' where
  loose : ∀ p, s.Loose p → s'.Loose p

namespace Paging

variable {s s' s'' : Paging} {held exempt : Option Nat} {t v p : Nat} {ok : Bool}

theorem Keeps.refl (s : Paging) : Keeps s s := ⟨.refl s, fun _ => id⟩

theorem Keeps.userRefs (h : Keeps s s') (p : Nat) : s'.userRefs p = s.userRefs p := by
  unfold Paging.userRefs
  rw [h.tasks]
  exact refs_congr fun x _ => by rw [frame, h.pte, frame]

theorem pageAlloc_spec {r : Option Nat} (h : PagingInv held exempt s) (ha : s.pageAlloc = (r, s')) :
    PagingInv held exempt s' ∧ Keeps s s' ∧ s'.mm = s.mm ∧ s'.nref = s.nref ∧
      ∀ p, r = some p → s'.Loose p ∧ s'.userRefs p = 0 ∧ hits held p = 0 ∧ ∀ q, s.Loose q → q ≠ p := by
  have hsame := pageAlloc_same ha
  unfold pageAlloc at ha
  split at ha
  · cases ha
    exact ⟨h, Keeps.refl s, rfl, rfl, nofun⟩
  · next a rest _ =>
    split at ha
    · next hmem =>
      cases ha
      refine ⟨?_, ⟨hsame, ?_⟩, rfl, rfl, ?_⟩
      · exact ⟨h.nref, h.nodup.erase a, fun q hq => h.free q (mem_of_mem_erase hq), h.kern, h.apart, h.write⟩
      · exact fun q hq => ⟨fun hq' => hq.1 (mem_of_mem_erase hq'), hq.2⟩
      · intro p hp
        cases hp
        have hz := h.free _ hmem
        exact ⟨⟨fun hq => (List.Nodup.mem_erase_iff h.nodup).mp hq |>.1 rfl, hz.2.1⟩, hz.1, hz.2.2,
          fun q hq e => hq.1 (e ▸ hmem)⟩
    · cases ha
      exact ⟨h.congr rfl rfl rfl rfl, ⟨hsame, fun _ => id⟩, rfl, rfl, nofun⟩

theorem loose_atomicInc_setMm {sp : Space} {q : Nat} (hpage : sp.page = (s.mm t).page)
    (hk : (s.setMm t sp).tableRefs q = s.tableRefs q + hits (some p) q) (hne : q ≠ p) (hq : s.Loose q) :
    ((s.atomicInc p).setMm t sp).Loose q := by
  refine ⟨hq.1, ?_⟩
  show (s.setMm t sp).tableRefs q + (s.setMm t sp).rootRefs q = 0
  rw [hk, rootRefs_setMm hpage, hits_of_ne fun e => hne (some.inj e).symm]
  exact hq.2

theorem getPmd_spec {i : Nat} (h : PagingInv held exempt s) (ht : t ∈ s.tasks) (hi : i < userPgds)
    (hnone : (s.mm t).pgd i = none) (hg : s.getPmd t i = (ok, s')) :
    PagingInv held exempt s' ∧ ∀ q, s.Loose q → s'.Loose q := by
  unfold getPmd at hg
  split at hg
  · next s₁ ha =>
    cases hg
    obtain ⟨h₁, hs, -⟩ := pageAlloc_spec h ha
    exact ⟨h₁, hs.loose⟩
  · next p s₁ ha =>
    cases hg
    obtain ⟨h₁, hs, hm, -, hp⟩ := pageAlloc_spec h ha
    obtain ⟨hl, hz, hh, hne⟩ := hp p rfl
    rw [← hm] at hnone
    have hpt : ∀ j, ((s₁.mm t).pgdSet i (some ⟨p, fun _ => none⟩)).pteTable j = (s₁.mm t).pteTable j :=
      pgdSet_pteTable hnone fun _ => rfl
    have hk := tableRefs_pgdSet (hs.tasks ▸ ht) hi hpt
    rw [hnone] at hk
    have hpte := fun v => pte_congr (hpt (v / ptrsPerTable))
    exact ⟨h₁.gainTable hl hz hh hpte rfl hk,
      fun q hq => loose_atomicInc_setMm rfl (hk q) (hne q hq) (hs.loose q hq)⟩

theorem getPte_spec {j : Nat} (h : PagingInv held exempt s) (ht : t ∈ s.tasks)
    (hj : j < userPgds * ptrsPerTable) (hpgd : ((s.mm t).pgd (j / ptrsPerTable)).isSome)
    (hnone : (s.mm t).pteTable j = none) (hg : s.getPte t j = (ok, s')) :
    PagingInv held exempt s' ∧ ∀ q, s.Loose q → s'.Loose q := by
  unfold getPte at hg
  split at hg
  · next s₁ ha =>
    cases hg
    obtain ⟨h₁, hs, -⟩ := pageAlloc_spec h ha
    exact ⟨h₁, hs.loose⟩
  · next p s₁ ha =>
    cases hg
    obtain ⟨h₁, hs, hm, -, hp⟩ := pageAlloc_spec h ha
    obtain ⟨hl, hz, hh, hne⟩ := hp p rfl
    rw [← hm] at hnone hpgd
    have hpt := pmdSet_pteTable hpgd (some ⟨p, fun _ => none⟩)
    have hk := tableRefs_pmdSet (hs.tasks ▸ ht) hj hpt
    rw [hnone] at hk
    have hpte : ∀ v, ((s₁.mm t).pmdSet j (some ⟨p, fun _ => none⟩)).pte v = (s₁.mm t).pte v :=
      pmdSet_pte hpgd hnone fun _ => rfl
    exact ⟨h₁.gainTable hl hz hh hpte rfl hk,
      fun q hq => loose_atomicInc_setMm rfl (hk q) (hne q hq) (hs.loose q hq)⟩

theorem pageWalk_spec (h : PagingInv held exempt s) (ht : t ∈ s.tasks) (hv : v < userPages)
    (hw : s.pageWalk t v = (ok, s')) :
    PagingInv held exempt s' ∧ Keeps s s' ∧ (ok = true → ((s'.mm t).pteTable (v / ptrsPerTable)).isSome) := by
  have hj : v / ptrsPerTable < userPgds * ptrsPerTable := by
    unfold userPages kernelBaseAddr pageSize at hv
    unfold ptrsPerTable userPgds
    omega
  have hi : v / ptrsPerTable / ptrsPerTable < userPgds := by
    unfold ptrsPerTable userPgds at *
    omega
  obtain ⟨hs, hok⟩ := pageWalk_entries hw
  have hrule := (pageWalk_rule (P := fun s' => (PagingInv held exempt s' ∧ ∀ q, s.Loose q → s'.Loose q) ∧
    t ∈ s'.tasks) hw ⟨⟨h, fun _ => id⟩, ht⟩ (fun hnone hg => ?_) fun h₁ hpgd hnone hg => ?_).1.1
  · exact ⟨hrule.1, ⟨hs, hrule.2⟩, hok⟩
  · exact ⟨getPmd_spec h ht hi hnone hg, (getPmd_entries hnone hg).1.tasks ▸ ht⟩
  · obtain ⟨h₂, hl⟩ := getPte_spec h₁.1.1 h₁.2 hj hpgd hnone hg
    exact ⟨⟨h₂, fun q hq => hl q (h₁.1.2 q hq)⟩, (getPte_entries hpgd hnone hg).1.tasks ▸ h₁.2⟩

/-! ## `page_remove` and `page_insert` -/

theorem Edits.unmapped (h : Edits t v none s s') (hz : s.userRefs p = 0) : s'.userRefs p = 0 := by
  refine refs_eq_zero.mpr fun x hx => ?_
  rw [h.tasks] at hx
  have := refs_eq_zero.mp hz x hx
  rw [frame, h.pte]
  split
  · exact fun e => by cases e
  · exact this

theorem pageRemove_spec {va : Nat} (h : PagingInv held exempt s) (ht : t ∈ s.tasks) (hva : va < kernelBaseAddr)
    (hr : s.pageRemove t va = some s') :
    PagingInv held exempt s' ∧ Edits t (va / pageSize) none s s' ∧
      ∀ j, ((s.mm t).pteTable j).isSome → ((s'.mm t).pteTable j).isSome := by
  refine ⟨?_, pageRemove_entries hr⟩
  unfold pageRemove at hr
  split at hr
  · cases hr
  split at hr
  · cases hr
    exact h
  · next e he =>
    cases hr
    exact h.drop ht (page_lt hva) he

theorem pageInsert_spec {va : Nat} (h : PagingInv none exempt s) (ht : t ∈ s.tasks)
    (hva : va < kernelBaseAddr) (hl : s.Loose p) (hx : exempt = some p ∨ s.userRefs p = 0)
    (hi : s.pageInsert t p va = some (ok, s')) :
    PagingInv none exempt s' ∧ (ok = false → Keeps s s') ∧
      (ok = true → Edits t (va / pageSize) (some ⟨p, true⟩) s s') := by
  have hedits := (pageInsert_entries hi).2
  unfold pageInsert at hi
  split at hi
  · cases hi
  split at hi
  · next s₁ hw =>
    cases hi
    obtain ⟨h₁, hs, -⟩ := pageWalk_spec h ht (page_lt hva) hw
    exact ⟨h₁, fun _ => hs, hedits⟩
  · next s₁ hw =>
    obtain ⟨h₁, hs, htab⟩ := pageWalk_spec h ht (page_lt hva) hw
    have ht₁ : t ∈ s₁.tasks := hs.tasks ▸ ht
    have h₂ := h₁.inc (hs.loose p hl)
    -- whatever was mapped there goes first
    simp only [map_eq_some_iff, Prod.mk.injEq] at hi
    obtain ⟨s₃, hr, rfl, rfl⟩ := hi
    obtain ⟨h₃, he, htab₃⟩ : PagingInv (some p) exempt s₃ ∧ Edits t (va / pageSize) none (s₁.atomicInc p) s₃ ∧
        ∀ j, ((s₁.mm t).pteTable j).isSome → ((s₃.mm t).pteTable j).isSome := by
      split at hr
      · exact pageRemove_spec h₂ ht₁ hva hr
      · next hnone =>
        cases hr
        exact ⟨h₂, edits_same (not_isSome_iff_eq_none.mp hnone), fun _ => id⟩
    have hnone : (s₃.mm t).pte (va / pageSize) = none := by rw [he.pte, if_pos ⟨rfl, rfl⟩]
    have hz : s.userRefs p = 0 → s₃.userRefs p = 0 := fun hz => he.unmapped ((hs.userRefs p).trans hz)
    exact ⟨h₃.place (he.tasks ▸ ht₁) (page_lt hva) (htab₃ _ (htab rfl)) hnone (hx.imp_right fun hx => .inl (hz hx)),
      nofun, hedits⟩

end Paging

def Space.Covered (sp : Space) : Prop := ∀ v, sp.pte v ≠ none → ∃ a ∈ sp.mmap, a.Covers v

/-- The areas of a space are apart, and all its pages are inside them. -/
structure SpaceFits (sp : Space) : Prop where
  area : ∀ a ∈ sp.mmap, a.Fits
  apart : sp.mmap.Pairwise fun a b => a.vmEnd ≤ b.vmStart ∨ b.vmEnd ≤ a.vmStart
  covered : sp.Covered

namespace Paging

variable {s s' s'' : Paging} {held exempt : Option Nat} {t v p : Nat} {ok : Bool} {va : Nat} {src dest : Nat}
    {l : List Area} {a : Area} {sp : Space}

/-! ## Teardown -/

theorem unmapPages_spec (h : PagingInv none none s) (ht : t ∈ s.tasks) {l : List Nat}
    (hl : ∀ va ∈ l, va < kernelBaseAddr) (hu : s.unmapPages t l = some s') :
    PagingInv none none s' ∧ Only t s s' ∧ (s'.mm t).mmap = (s.mm t).mmap ∧
      ∀ v, (s'.mm t).pte v ≠ none → (s.mm t).pte v ≠ none ∧ ∀ va ∈ l, va / pageSize ≠ v := by
  induction l generalizing s with
  | nil =>
    cases hu
    exact ⟨h, Only.refl t _, rfl, fun v hv => ⟨hv, by simp⟩⟩
  | cons va l ih =>
    simp only [unmapPages, bind_eq_bind, bind_eq_some_iff] at hu
    obtain ⟨s₁, hr, hu⟩ := hu
    obtain ⟨h₁, he, -⟩ := pageRemove_spec h ht (hl va (mem_cons_self ..)) hr
    obtain ⟨h₂, ho, hm, hgone⟩ := ih h₁ (he.tasks ▸ ht) (fun va hva => hl va (mem_cons_of_mem _ hva)) hu
    refine ⟨h₂, (pageRemove_only hr).trans ho, hm.trans (he.mmap t), fun v hv => ?_⟩
    obtain ⟨hv₁, hv₂⟩ := hgone v hv
    rw [he.pte] at hv₁
    split at hv₁
    · exact absurd rfl hv₁
    · next hne =>
      refine ⟨hv₁, fun va' hva' => ?_⟩
      rcases mem_cons.mp hva' with rfl | hva'
      · exact fun e => hne ⟨rfl, e.symm⟩
      · exact hv₂ va' hva'

theorem deleteAllVma_spec (h : PagingInv none none s) (ht : t ∈ s.tasks) (hl : ∀ a ∈ l, a.Fits)
    (hd : s.deleteAllVma t l = some s') :
    PagingInv none none s' ∧ Only t s s' ∧
      ∀ v, (s'.mm t).pte v ≠ none → (s.mm t).pte v ≠ none ∧ ∀ a ∈ l, ¬ a.Covers v := by
  induction l generalizing s with
  | nil =>
    cases hd
    exact ⟨h, Only.refl t _, fun v hv => ⟨hv, by simp⟩⟩
  | cons a l ih =>
    simp only [deleteAllVma, bind_eq_bind, bind_eq_some_iff] at hd
    obtain ⟨s₁, hu, hd⟩ := hd
    have hok := hl a (mem_cons_self ..)
    obtain ⟨h₁, ho, -, hgone⟩ := unmapPages_spec h ht (fun va hva => (Area.page_of_addr hok hva).1) hu
    -- taking the area off the list changes no page
    have h₂ : PagingInv none none (s₁.setMm t { s₁.mm t with mmap := l }) := h₁.setAreas rfl rfl
    obtain ⟨h₃, ho', hgone'⟩ := ih h₂ (ho.tasks ▸ ht) (fun a ha => hl a (mem_cons_of_mem _ ha)) hd
    refine ⟨h₃, (ho.trans (only_setMm ..)).trans ho', fun v hv => ?_⟩
    obtain ⟨hv₁, hv₂⟩ := hgone' v hv
    rw [setMm_mm_self] at hv₁
    obtain ⟨hv₃, hv₄⟩ := hgone v hv₁
    refine ⟨hv₃, fun b hb hc => ?_⟩
    rcases mem_cons.mp hb with rfl | hb
    · exact hv₄ _ (Area.addr_of_page hok hc) (Nat.mul_div_cancel v (by decide))
    · exact hv₂ b hb hc

structure Tears (t : Nat) (s s' : Paging) : Prop where
  only : Only t s s'
  gone : ∀ v, (s'.mm t).pte v = none
  pteTable : ∀ j, (s.mm t).pteTable j = none → (s'.mm t).pteTable j = none
  pgd : ∀ i, (s.mm t).pgd i = none → (s'.mm t).pgd i = none
  page : (s'.mm t).page = (s.mm t).page

theorem Tears.refl (h : ∀ v, (s.mm t).pte v = none) :
    Tears t s s := ⟨Only.refl t s, h, fun _ => id, fun _ => id, rfl⟩

theorem Tears.trans (h : Tears t s s') (h' : Tears t s' s'') : Tears t s s'' :=
  ⟨h.only.trans h'.only, h'.gone, fun j hj => h'.pteTable j (h.pteTable j hj), fun i hi => h'.pgd i (h.pgd i hi),
    h'.page.trans h.page⟩

theorem loseTable (h : PagingInv held exempt s) (hgone : ∀ v, (s.mm t).pte v = none)
    (hgone' : ∀ v, sp.pte v = none) (hpage : sp.page = (s.mm t).page)
    (hk : ∀ q, (s.setMm t sp).tableRefs q + hits (some p) q = s.tableRefs q) :
    PagingInv held exempt ((s.pageDecref p).setMm t sp) := by
  generalize hs₁ : s.pageDecref p = s₁
  have hm : s₁.mm = s.mm := hs₁ ▸ pageDecref_mm ..
  have htasks : s₁.tasks = s.tasks := hs₁ ▸ pageDecref_tasks ..
  have hu : ∀ q, (s₁.setMm t sp).userRefs q = s.userRefs q := fun q => by
    rw [userRefs_setMm fun v => by rw [frame, hgone', frame, hm, hgone], ← hs₁, pageDecref_userRefs]
  have hk' : ∀ q, (s₁.setMm t sp).tableRefs q = (s.setMm t sp).tableRefs q := fun q => by
    simp only [tableRefs, pmdRefs, pteRefs, setMm, hm, htasks]
  refine h.lose (p := p) (by rw [hs₁]; rfl) (by rw [hs₁]; rfl) (fun q => ?_) (fun q => (hu q).le)
    (fun q => ?_) (fun q => ?_) fun t' ht' v' hv' q hq => ?_
  · rw [hu, hk', ← hk]
    omega
  · rw [hk', ← hk]
    omega
  · rw [rootRefs_setMm (by rw [hm, hpage]), ← hs₁, pageDecref_rootRefs]
  · rw [hu]
    by_cases e : t' = t
    · rw [e, setMm_mm_self, hgone'] at hq
      cases hq
    · rw [setMm_mm_of_ne _ _ e, hm] at hq
      exact h.write t' (htasks ▸ ht') v' hv' q hq

theorem freePte_spec {j : Nat} (h : PagingInv none none s) (ht : t ∈ s.tasks) (hj : j < userPgds * ptrsPerTable)
    (hgone : ∀ v, (s.mm t).pte v = none) :
    PagingInv none none (s.freePte t j) ∧ Tears t s (s.freePte t j) ∧ ((s.freePte t j).mm t).pteTable j = none ∧
      ∀ i, (((s.freePte t j).mm t).pgd i).map PmdTable.page = ((s.mm t).pgd i).map PmdTable.page := by
  unfold freePte
  split
  · next hnone => exact ⟨h, Tears.refl hgone, hnone, fun _ => rfl⟩
  · next tab htab =>
    have hpgd := pgd_of_pteTable (isSome_of_eq_some htab)
    have hpt := pmdSet_pteTable hpgd none
    have hgone' : ∀ v, ((s.mm t).pmdSet j none).pte v = none := fun v => by
      rw [pte, hpt]
      split
      · rfl
      · exact hgone v
    have hk := tableRefs_pmdSet ht hj hpt
    rw [htab] at hk
    have e : ((s.pageDecref tab.page).mm t).pmdSet j none = (s.mm t).pmdSet j none := by rw [pageDecref_mm]
    dsimp only
    rw [e]
    refine ⟨loseTable h hgone hgone' rfl hk, ⟨only_pageDecref .., ?_, fun k hk => ?_, fun i hi => ?_, ?_⟩, ?_, ?_⟩
    all_goals rw [setMm_mm_self]
    · exact hgone'
    · rw [hpt]
      split
      · rfl
      · exact hk
    · have := pmdSet_pgd (s.mm t) j none i
      rw [hi] at this
      exact map_eq_none_iff.mp this
    · rfl
    · rw [hpt, if_pos rfl]
    · exact pmdSet_pgd (s.mm t) j none

theorem foldl_freePte {i : Nat} (hi : i < userPgds) (l : List Nat) (hl : ∀ k ∈ l, k < ptrsPerTable)
    (h : PagingInv none none s) (ht : t ∈ s.tasks) (hgone : ∀ v, (s.mm t).pte v = none)
    (hs' : l.foldl (fun s k => s.freePte t (i * ptrsPerTable + k)) s = s') :
    PagingInv none none s' ∧ Tears t s s' ∧ (∀ k ∈ l, (s'.mm t).pteTable (i * ptrsPerTable + k) = none) ∧
      ∀ i, ((s'.mm t).pgd i).map PmdTable.page = ((s.mm t).pgd i).map PmdTable.page := by
  induction l generalizing s with
  | nil =>
    cases hs'
    exact ⟨h, Tears.refl hgone, by simp, fun _ => rfl⟩
  | cons k l ih =>
    have hk := hl k (mem_cons_self ..)
    have hj : i * ptrsPerTable + k < userPgds * ptrsPerTable := by
      unfold userPgds ptrsPerTable at *
      omega
    obtain ⟨h₁, hd₁, hnone, hp₁⟩ := freePte_spec h ht hj hgone
    obtain ⟨h₂, hd₂, hall, hp₂⟩ := ih (fun k hk => hl k (mem_cons_of_mem _ hk)) h₁
      (hd₁.only.tasks ▸ ht) hd₁.gone hs'
    refine ⟨h₂, hd₁.trans hd₂, fun k' hk' => ?_, fun i => (hp₂ i).trans (hp₁ i)⟩
    rcases mem_cons.mp hk' with rfl | hk'
    · exact hd₂.pteTable _ hnone
    · exact hall k' hk'

theorem freePmd_spec {i : Nat} (h : PagingInv none none s) (ht : t ∈ s.tasks) (hi : i < userPgds)
    (hgone : ∀ v, (s.mm t).pte v = none) :
    PagingInv none none (s.freePmd t i) ∧ Tears t s (s.freePmd t i) ∧ ((s.freePmd t i).mm t).pgd i = none := by
  unfold freePmd
  split
  · next hnone => exact ⟨h, Tears.refl hgone, hnone⟩
  · next m hm =>
    dsimp only
    generalize hs₁ : (List.range ptrsPerTable).foldl (fun s k => s.freePte t (i * ptrsPerTable + k)) s = s₁
    obtain ⟨h₁, hd₁, hall, hp⟩ := foldl_freePte hi _ (fun k hk => mem_range.mp hk) h ht hgone hs₁
    have hpage : ((s₁.mm t).pgd i).map PmdTable.page = some m.page := by rw [hp, hm]; rfl
    have hpt : ∀ j, ((s₁.mm t).pgdSet i none).pteTable j = (s₁.mm t).pteTable j := by
      intro j
      unfold pteTable
      by_cases e : j / ptrsPerTable = i
      · have := hall (j % ptrsPerTable) (mem_range.mpr (Nat.mod_lt _ (by decide)))
        rw [← e, Nat.div_add_mod', pteTable] at this
        rw [this, e, pgdSet_pgd_self]
        rfl
      · rw [pgdSet_pgd_of_ne _ _ e]
    have hgone' : ∀ v, ((s₁.mm t).pgdSet i none).pte v = none := fun v => by
      rw [pte, hpt]
      exact hd₁.gone v
    have hk := tableRefs_pgdSet (hd₁.only.tasks ▸ ht) hi hpt
    rw [hpage] at hk
    have e : ((s₁.pageDecref m.page).mm t).pgdSet i none = (s₁.mm t).pgdSet i none := by rw [pageDecref_mm]
    rw [e]
    refine ⟨loseTable h₁ hd₁.gone hgone' rfl hk,
      hd₁.trans ⟨only_pageDecref .., ?_, fun j hj => ?_, fun k hk => ?_, ?_⟩, ?_⟩
    all_goals rw [setMm_mm_self]
    · exact hgone'
    · rw [hpt]; exact hj
    · by_cases e : k = i
      · rw [e, pgdSet_pgd_self]
      · rw [pgdSet_pgd_of_ne _ _ e]; exact hk
    · rfl
    · exact pgdSet_pgd_self ..

theorem foldl_freePmd (l : List Nat) (hl : ∀ i ∈ l, i < userPgds) (h : PagingInv none none s) (ht : t ∈ s.tasks)
    (hgone : ∀ v, (s.mm t).pte v = none) (hs' : l.foldl (fun s i => s.freePmd t i) s = s') :
    PagingInv none none s' ∧ Tears t s s' ∧ ∀ i ∈ l, (s'.mm t).pgd i = none := by
  induction l generalizing s with
  | nil =>
    cases hs'
    exact ⟨h, Tears.refl hgone, by simp⟩
  | cons i l ih =>
    obtain ⟨h₁, hd₁, hnone⟩ := freePmd_spec h ht (hl i (mem_cons_self ..)) hgone
    obtain ⟨h₂, hd₂, hall⟩ := ih (fun i hi => hl i (mem_cons_of_mem _ hi)) h₁ (hd₁.only.tasks ▸ ht) hd₁.gone hs'
    refine ⟨h₂, hd₁.trans hd₂, fun k hk => ?_⟩
    rcases mem_cons.mp hk with rfl | hk
    · exact hd₂.pgd _ hnone
    · exact hall k hk

def buried (s : Paging) (t : Nat) : Paging := { s.pageFree (s.mm t).page with tasks := s.tasks.erase t }

theorem buried_userRefs (hgone : ∀ v, (s.mm t).pte v = none) (q : Nat) : (s.buried t).userRefs q = s.userRefs q :=
  refs_erase_row fun v _ => congrArg (Option.map Pte.frame) (hgone v)

theorem buried_tableRefs (hpgd : ∀ i < userPgds, (s.mm t).pgd i = none) (q : Nat) :
    (s.buried t).tableRefs q = s.tableRefs q := by
  have hpt : ∀ j < userPgds * ptrsPerTable, (s.mm t).pteTable j = none := fun j hj => by
    rw [pteTable, hpgd _ (by unfold userPgds ptrsPerTable at *; omega)]
    rfl
  have h₁ : (s.buried t).pmdRefs q = s.pmdRefs q :=
    refs_erase_row fun i hi => congrArg (Option.map PmdTable.page) (hpgd i (Finset.mem_range.mp hi))
  have h₂ : (s.buried t).pteRefs q = s.pteRefs q :=
    refs_erase_row fun j hj => congrArg (Option.map PteTable.page) (hpt j (Finset.mem_range.mp hj))
  rw [tableRefs, h₁, h₂]
  rfl

theorem buried_rootRefs (ht : t ∈ s.tasks) (q : Nat) :
    s.rootRefs q = (s.buried t).rootRefs q + hits (some (s.mm t).page) q := refs_erase ht

theorem bury (h : PagingInv none none s) (ht : t ∈ s.tasks) (hgone : ∀ v, (s.mm t).pte v = none)
    (hpgd : ∀ i < userPgds, (s.mm t).pgd i = none) : PagingInv none none (s.buried t) := by
  have hu := buried_userRefs hgone
  have hk := buried_tableRefs hpgd
  have hr := buried_rootRefs ht
  have hroot := hr (s.mm t).page
  rw [hits_self] at hroot
  have hone := h.kern (s.mm t).page
  refine ⟨fun q => ?_, ?_, fun q hq => ?_, fun q => ?_, fun q hq => ?_, fun t' ht' v' hv' q hq => ?_⟩
  · rw [hu, hk]
    exact h.nref q
  · refine nodup_cons.mpr ⟨fun hf => ?_, h.nodup⟩
    have := (h.free _ hf).2.1
    omega
  · rw [hu, hk]
    rcases mem_cons.mp hq with rfl | hq
    · exact ⟨(h.apart _ (by omega)).1, by omega, rfl⟩
    · have h₁ := h.free q hq
      have h₂ := hr q
      exact ⟨h₁.1, by omega, rfl⟩
  · have h₁ := h.kern q
    have h₂ := hr q
    rw [hk]
    omega
  · have h₁ := h.apart q
    have h₂ := hr q
    rw [hk] at hq
    rw [hu]
    exact ⟨(h₁ (by omega)).1, rfl⟩
  · rw [hu]
    exact h.write t' (Finset.mem_of_mem_erase ht') v' hv' q hq

structure Good (s : Paging) : Prop where
  inv : PagingInv none none s
  space : ∀ t ∈ s.tasks, SpaceFits (s.mm t)

theorem exitAreas_good (h : s.Good) (ht : t ∈ s.tasks) (hl : l.Perm (s.mm t).mmap)
    (he : s.exitAreas t l = some s') : s'.Good := by
  have hok := h.space t ht
  simp only [exitAreas, bind_eq_bind, bind_eq_some_iff, Option.pure_def, some.injEq] at he
  obtain ⟨s₁, hd, rfl⟩ := he
  obtain ⟨h₁, ho₁, hgone⟩ := deleteAllVma_spec h.inv ht (fun a ha => hok.area a (hl.mem_iff.mp ha)) hd
  have hgone : ∀ v, (s₁.mm t).pte v = none := fun v => Classical.byContradiction fun hv => by
    obtain ⟨hv₁, hv₂⟩ := hgone v hv
    obtain ⟨a, ha, hc⟩ := hok.covered v hv₁
    exact hv₂ a (hl.mem_iff.mpr ha) hc
  generalize hs₂ : (List.range userPgds).foldl (fun s i => s.freePmd t i) s₁ = s₂
  obtain ⟨h₂, hd₂, hpgd⟩ := foldl_freePmd _ (fun i hi => mem_range.mp hi) h₁ (ho₁.tasks ▸ ht) hgone hs₂
  have ho := ho₁.trans hd₂.only
  refine ⟨bury h₂ (ho.tasks ▸ ht) hd₂.gone fun i hi => hpgd i (mem_range.mpr hi), fun t' ht' => ?_⟩
  have ht' : t' ∈ s₂.tasks.erase t := ht'
  show SpaceFits (s₂.mm t')
  rw [ho.other t' (Finset.ne_of_mem_erase ht')]
  exact h.space t' (ho.tasks ▸ Finset.mem_of_mem_erase ht')

/-! ## Page faults -/

theorem SpaceFits.update {sp sp' : Space} (h : SpaceFits sp) (hm : sp'.mmap = sp.mmap)
    (hp : ∀ v, sp'.pte v ≠ none → sp.pte v ≠ none ∨ ∃ a ∈ sp.mmap, a.Covers v) : SpaceFits sp' where
  area := hm ▸ h.area
  apart := hm ▸ h.apart
  covered v hv := hm ▸ (hp v hv).elim (h.covered v) id

theorem Good.keeps (h : s.Good) (hi : PagingInv none none s') (hk : Keeps s s') : s'.Good :=
  ⟨hi, fun t ht => SpaceFits.update (h.space t (hk.tasks ▸ ht)) (hk.mmap t) fun v hv => .inl (hk.pte t v ▸ hv)⟩

theorem Good.edits {e : Option Pte} (h : s.Good) (hi : PagingInv none none s') (he : Edits t v e s s')
    (hc : e = none ∨ ∃ a ∈ (s.mm t).mmap, a.Covers v) : s'.Good := by
  refine ⟨hi, fun t' ht' => SpaceFits.update (h.space t' (he.tasks ▸ ht')) (he.mmap t') fun v' hv' => ?_⟩
  rw [he.pte] at hv'
  split at hv'
  · next e' =>
    rw [e'.1, e'.2]
    exact .inr (hc.resolve_left hv')
  · exact .inl hv'

theorem findVma_covers (h : SpaceFits sp) (hf : sp.findVma va = some a)
    (hs : ¬ va < a.vmStart) : a ∈ sp.mmap ∧ a.Covers (va / pageSize) ∧ va < kernelBaseAddr := by
  have ha : a ∈ sp.mmap := mem_of_find?_eq_some hf
  have hend : va < a.vmEnd := by simpa using find?_some hf
  have hok := h.area a ha
  obtain ⟨k, hk⟩ := hok.start_dvd
  have hle := hok.end_le
  refine ⟨ha, ⟨?_, ?_⟩, by omega⟩
  · rw [hk]
    rw [hk] at hs
    unfold pageSize at *
    omega
  · have := Nat.div_mul_le_self va pageSize
    omega

theorem PagingInv.weaken (h : PagingInv held none s) (exempt : Option Nat) : PagingInv held exempt s :=
  ⟨h.nref, h.nodup, h.free, h.kern, h.apart, fun t ht v hv p hp => (h.write t ht v hv p hp).imp_right nofun⟩

theorem pageFree_inv (h : PagingInv none exempt s) (hl : s.Loose p) (hz : s.userRefs p = 0) :
    PagingInv none exempt (s.pageFree p) := by
  refine ⟨h.nref, nodup_cons.mpr ⟨hl.1, h.nodup⟩, fun q hq => ?_, h.kern, h.apart, h.write⟩
  rcases mem_cons.mp hq with rfl | hq
  · exact ⟨hz, hl.2, rfl⟩
  · exact h.free q hq

/-- A frame that is mapped once needs no exemption. -/
theorem PagingInv.mapped_once (h : PagingInv none (some p) s) (hp : s.userRefs p ≤ 1) : PagingInv none none s := by
  refine ⟨h.nref, h.nodup, h.free, h.kern, h.apart, fun t' ht' v' hv' q hq => ?_⟩
  rcases h.write t' ht' v' hv' q hq with h₁ | hx
  · exact .inl h₁
  · cases hx
    have := PagingInv.mapped_pos ht' hv' (congrArg (Option.map Pte.frame) hq)
    exact .inl (by simp only at this; omega)

/-- The copy is mapped at its page only, whatever was at the temporary one. -/
theorem copied_once {u : Nat} {s₁ s₂ s₄ s₅ : Paging} (hz : s₁.userRefs p = 0)
    (h₂ : Edits t u (some ⟨p, true⟩) s₁ s₂)
    (h₄ : Edits t v (some ⟨p, true⟩) s₂ s₄) (h₅ : Edits t u none s₄ s₅) (h : PagingInv none (some p) s₅) :
    PagingInv none none s₅ := by
  have hpos : ∀ x ∈ s₅.tasks ×ˢ Finset.range userPages, (s₅.mm x.1).frame x.2 = some p → x = (t, v) := by
    intro x hx he
    rw [h₅.tasks, h₄.tasks, h₂.tasks] at hx
    rw [frame, h₅.pte, h₄.pte, h₂.pte] at he
    by_cases e₁ : x.1 = t ∧ x.2 = u
    · rw [if_pos e₁] at he
      cases he
    · rw [if_neg e₁, if_neg e₁] at he
      by_cases e₂ : x.1 = t ∧ x.2 = v
      · exact Prod.ext e₂.1 e₂.2
      · rw [if_neg e₂] at he
        exact absurd he (refs_eq_zero.mp hz x hx)
  exact PagingInv.mapped_once h (refs_le_one hpos)

theorem Good.copied {u : Nat} {s₁ s₂ s₄ s₅ : Paging} (h : s₁.Good) (hc : ∃ a ∈ (s₁.mm t).mmap, a.Covers v)
    (hz : s₁.userRefs p = 0) (h₂ : Edits t u (some ⟨p, true⟩) s₁ s₂) (h₄ : Edits t v (some ⟨p, true⟩) s₂ s₄)
    (h₅ : Edits t u none s₄ s₅) (hinv : PagingInv none (some p) s₅) : s₅.Good := by
  refine ⟨copied_once hz h₂ h₄ h₅ hinv, fun t' ht' => ?_⟩
  rw [h₅.tasks, h₄.tasks, h₂.tasks] at ht'
  refine SpaceFits.update (h.space t' ht') ((h₅.mmap t').trans ((h₄.mmap t').trans (h₂.mmap t'))) fun v' hv => ?_
  rw [h₅.pte, h₄.pte, h₂.pte] at hv
  by_cases e₁ : t' = t ∧ v' = u
  · rw [if_pos e₁] at hv
    exact absurd rfl hv
  · rw [if_neg e₁, if_neg e₁] at hv
    by_cases e₂ : t' = t ∧ v' = v
    · rw [e₂.1, e₂.2]
      exact .inr hc
    · rw [if_neg e₂] at hv
      exact .inl hv

/-- For a moment the copy is mapped twice, at the temporary page and in place of the shared frame. -/
theorem Good.replace {s₁ s₂ s₃ s₄ s₅ : Paging} (h : s₁.Good) (ht : t ∈ s₁.tasks) (hva : va < kernelBaseAddr)
    (hc : ∃ a ∈ (s₁.mm t).mmap, a.Covers (va / pageSize)) (hz : s₁.userRefs p = 0) (h₂ : PagingInv none none s₂)
    (he₂ : Edits t (userTempBott / pageSize) (some ⟨p, true⟩) s₁ s₂)
    (hm : s₂.moveFrame t (userTempBott / pageSize) (va / pageSize) = some s₃)
    (hi : s₃.pageInsert t p va = some (true, s₄)) (hr : s₄.pageRemove t userTempBott = some s₅) : s₅.Good := by
  have ht₂ : t ∈ s₂.tasks := he₂.tasks ▸ ht
  simp only [moveFrame, bind_eq_bind, bind_eq_some_iff, Option.pure_def, some.injEq] at hm
  obtain ⟨d, -, q, -, rfl⟩ := hm
  have hmap : (s₂.mm t).frame (userTempBott / pageSize) = some p := by
    rw [frame, he₂.pte, if_pos ⟨rfl, rfl⟩]
    rfl
  have hl₂ := h₂.loose_of_pos (PagingInv.mapped_pos ht₂ (page_lt (by decide)) hmap)
  have h₃ : PagingInv none (some p) { s₂ with mem := update s₂.mem d (s₂.mem q) } :=
    (PagingInv.weaken h₂ (some p)).congr rfl rfl rfl rfl
  obtain ⟨h₄, -, he₄⟩ := pageInsert_spec h₃ ht₂ hva hl₂ (.inl rfl) hi
  have he₄ := he₄ rfl
  have he₄' : Edits t (va / pageSize) (some ⟨p, true⟩) s₂ s₄ := ⟨he₄.tasks, he₄.pte, he₄.mmap, he₄.startBrk⟩
  obtain ⟨h₅, he₅, -⟩ := pageRemove_spec h₄ (he₄.tasks ▸ ht₂) (by decide) hr
  exact h.copied hc hz he₂ he₄' he₅ h₅

theorem doWpFault_good {e : Pte} (h : s.Good) (ht : t ∈ s.tasks) (hva : va < kernelBaseAddr)
    (hc : ∃ a ∈ (s.mm t).mmap, a.Covers (va / pageSize)) (he : (s.mm t).pte (va / pageSize) = some e)
    (hf : s.doWpFault t va e = some (ok, s')) : s'.Good := by
  cases doWpFault_cases hf with
  | own hone =>
    -- the last owner
    have htab := pteTable_of_pte he
    have hpos := PagingInv.mapped_pos ht (page_lt hva) (congrArg (Option.map Pte.frame) he)
    have hu : s.userRefs e.frame = 1 := by
      have := h.inv.nref e.frame
      rw [hone, hits_none] at this
      omega
    have hi := h.inv.rewrite ht (page_lt hva) htab (w := true) he fun _ => hu
    exact h.edits hi (edits_pteSet htab) (.inr hc)
  | noPage _ ha =>
    obtain ⟨h₁, hs, -⟩ := pageAlloc_spec h.inv ha
    exact h.keeps h₁ hs
  | @noTable p s₁ s₂ _ ha hi =>
    obtain ⟨h₁, hs, -, -, hp⟩ := pageAlloc_spec h.inv ha
    obtain ⟨hl, hz, -⟩ := hp p rfl
    obtain ⟨h₂, hk, -⟩ := pageInsert_spec h₁ (hs.tasks ▸ ht) (by decide) hl (.inr hz) hi
    have hk := hk rfl
    exact ⟨pageFree_inv h₂ (hk.loose p hl) ((hk.userRefs p).trans hz), ((h.keeps h₁ hs).keeps h₂ hk).space⟩
  | @copy p s₁ _ _ _ _ _ ha hi hm hi₄ hr =>
    obtain ⟨h₁, hs, -, -, hp⟩ := pageAlloc_spec h.inv ha
    obtain ⟨hl, hz, -⟩ := hp p rfl
    have ht₁ : t ∈ s₁.tasks := hs.tasks ▸ ht
    obtain ⟨h₂, -, he₂⟩ := pageInsert_spec h₁ ht₁ (by decide) hl (.inr hz) hi
    exact (h.keeps h₁ hs).replace ht₁ hva (by rw [hs.mmap]; exact hc) hz h₂ (he₂ rfl) hm hi₄ hr

theorem handlePteFault_good {write ok : Bool} (h : s.Good) (ht : t ∈ s.tasks)
    (hva : va < kernelBaseAddr) (hc : ∃ a ∈ (s.mm t).mmap, a.Covers (va / pageSize))
    (hf : s.handlePteFault t a va write = some (ok, s')) : s'.Good := by
  cases handlePteFault_cases hf with
  | wp he hw => exact doWpFault_good h ht hva hc he hw
  | noPage _ ha =>
    obtain ⟨h₁, hs, -⟩ := pageAlloc_spec h.inv ha
    exact h.keeps h₁ hs
  | @map p _ _ _ ha hi =>
    obtain ⟨h₁, hs, -, -, hp⟩ := pageAlloc_spec h.inv ha
    obtain ⟨hl, hz, -⟩ := hp p rfl
    obtain ⟨h₂, -, he⟩ := pageInsert_spec h₁ (hs.tasks ▸ ht) hva hl (.inr hz) hi
    exact (h.keeps h₁ hs).edits h₂ (he rfl) (.inr ((hs.mmap t).symm ▸ hc))

theorem faultIn_good {write ok : Bool} (h : s.Good) (ht : t ∈ s.tasks)
    (hf : s.faultIn t va write ((s.mm t).findVma va) = some (ok, s')) : s'.Good := by
  cases faultIn_cases hf with
  | outside => exact h
  | noTable hfind hs hw =>
    obtain ⟨-, -, hva⟩ := findVma_covers (h.space t ht) hfind hs
    obtain ⟨h₁, hk, -⟩ := pageWalk_spec h.inv ht (page_lt hva) hw
    exact h.keeps h₁ hk
  | inside hfind hs hw hf =>
    obtain ⟨ha, hc, hva⟩ := findVma_covers (h.space t ht) hfind hs
    obtain ⟨h₁, hk, -⟩ := pageWalk_spec h.inv ht (page_lt hva) hw
    exact handlePteFault_good (h.keeps h₁ hk) (hk.tasks ▸ ht) hva ⟨_, (hk.mmap t).symm ▸ ha, hc⟩ hf

theorem pageFaultHandler_good {write : Bool} (h : s.Good) (ht : t ∈ s.tasks)
    (hf : s.pageFaultHandler t va write = some s') : s'.Good := by
  simp only [pageFaultHandler, bind_eq_some_iff, Prod.exists] at hf
  obtain ⟨ok, s₁, hin, hf⟩ := hf
  have h₁ := faultIn_good h ht hin
  cases ok with
  | true =>
    cases hf
    exact h₁
  | false => exact exitAreas_good h₁ ((faultIn_areas hin).tasks ▸ ht) (.refl _) hf

/-! ## Fork -/

structure Copies (dest : Nat) (pages : List Nat) (s s' : Paging) : Prop where
  tasks : s'.tasks = s.tasks
  mmap : ∀ t, (s'.mm t).mmap = (s.mm t).mmap
  frame : ∀ t, t ≠ dest → ∀ v, (s'.mm t).frame v = (s.mm t).frame v
  dest : ∀ v, (s'.mm dest).pte v ≠ none → (s.mm dest).pte v ≠ none ∨ v ∈ pages

theorem Keeps.copies (h : Keeps s s') (dest : Nat) (pages : List Nat) : Copies dest pages s s' where
  tasks := h.tasks
  mmap := h.mmap
  frame t _ v := by rw [frame, h.pte, frame]
  dest v hv := .inl (h.pte dest v ▸ hv)

theorem Copies.trans {dest : Nat} {l l' : List Nat} (h : Copies dest l s s') (h' : Copies dest l' s' s'') :
    Copies dest (l ++ l') s s'' where
  tasks := h'.tasks.trans h.tasks
  mmap t := (h'.mmap t).trans (h.mmap t)
  frame t ht v := (h'.frame t ht v).trans (h.frame t ht v)
  dest v hv := by
    rcases h'.dest v hv with hv | hv
    · exact (h.dest v hv).imp_right fun hv => mem_append_left _ hv
    · exact .inr (mem_append_right _ hv)

theorem share_spec {e : Pte} (h : PagingInv none none s) (hs : src ∈ s.tasks) (hd : dest ∈ s.tasks)
    (hne : src ≠ dest) (hv : v < userPages) (he : (s.mm src).pte v = some e)
    (htab : ((s.mm dest).pteTable (v / ptrsPerTable)).isSome) (hnone : (s.mm dest).pte v = none) :
    PagingInv none none (s.sharePage src dest v e) ∧ Copies dest [v] s (s.sharePage src dest v e) := by
  unfold sharePage
  have htab₁ := pteTable_of_pte he
  have h₁ := h.rewrite hs hv htab₁ (w := false) he nofun
  have he₁ := edits_pteSet (e := some { e with write := false }) htab₁
  have hm : (s.pteSet src v (some { e with write := false })).mm dest = s.mm dest := setMm_mm_of_ne _ _ hne.symm
  generalize s.pteSet src v (some { e with write := false }) = s₁ at h₁ he₁ hm ⊢
  have hmap : (s₁.mm src).frame v = some e.frame := by
    rw [frame, he₁.pte, if_pos ⟨rfl, rfl⟩]
    rfl
  have h₂ := h₁.inc (h₁.loose_of_pos (PagingInv.mapped_pos (he₁.tasks ▸ hs) hv hmap))
  -- an entry that is still writable maps another frame
  have hro : ∀ t ∈ s₁.tasks, ∀ w < userPages, (s₁.mm t).pte w ≠ some ⟨e.frame, true⟩ := by
    intro t ht w hw hp
    rw [he₁.pte] at hp
    split at hp
    · cases hp
    · next hne' =>
      have hf : (s.mm src).frame v = some e.frame := congrArg (Option.map Pte.frame) he
      rcases h.unshared (he₁.tasks ▸ ht) hw hs hv hp hf with ⟨e₁, e₂⟩ | hx
      · exact hne' ⟨e₁.symm, e₂.symm⟩
      · cases hx
  have htab₂ : (((s₁.atomicInc e.frame).mm dest).pteTable (v / ptrsPerTable)).isSome :=
    (congrArg (fun sp => (pteTable sp (v / ptrsPerTable)).isSome) hm).trans htab
  have hnone₂ : ((s₁.atomicInc e.frame).mm dest).pte v = none := (congrArg (fun sp => sp.pte v) hm).trans hnone
  have he₂ := edits_pteSet (e := some { e with write := false }) htab₂
  have hd₂ : dest ∈ (s₁.atomicInc e.frame).tasks := he₁.tasks ▸ hd
  have h₃ := h₂.place hd₂ hv htab₂ hnone₂ (.inr (.inr ⟨rfl, hro⟩))
  refine ⟨h₃, he₂.tasks.trans he₁.tasks, fun t => (he₂.mmap t).trans (he₁.mmap t), fun t ht w => ?_, fun w hw => ?_⟩
  · rw [frame, he₂.pte, if_neg fun e => ht e.1]
    show ((s₁.mm t).pte w).map Pte.frame = _
    rw [he₁.pte]
    split
    · next e' => rw [e'.1, e'.2, frame, he]; rfl
    · rfl
  · rw [he₂.pte] at hw
    split at hw
    · next e' => exact .inr (e'.2 ▸ mem_singleton_self v)
    · exact .inl (by rw [← hm]; exact hw)

theorem copyPages_spec (l : List Nat) (hl : ∀ va ∈ l, va < kernelBaseAddr)
    (hnd : (l.map (· / pageSize)).Nodup) (h : PagingInv none none s) (hs : src ∈ s.tasks) (hd : dest ∈ s.tasks)
    (hne : src ≠ dest) (hnone : ∀ va ∈ l, (s.mm dest).pte (va / pageSize) = none)
    (hc : s.copyPages src dest l = (ok, s')) :
    PagingInv none none s' ∧ Copies dest (l.map (· / pageSize)) s s' := by
  induction l generalizing s with
  | nil =>
    cases hc
    exact ⟨h, (Keeps.refl _).copies dest []⟩
  | cons va l ih =>
    have hv := page_lt (hl va (mem_cons_self ..))
    have hnd' := nodup_cons.mp hnd
    have hl' : ∀ va ∈ l, va < kernelBaseAddr := fun va h => hl va (mem_cons_of_mem _ h)
    have hnone' : ∀ va ∈ l, (s.mm dest).pte (va / pageSize) = none := fun va h => hnone va (mem_cons_of_mem _ h)
    obtain ⟨-, hc⟩ | ⟨e, he, ⟨-, hw⟩ | ⟨s₁, hw, hc⟩⟩ := copyPages_cons hc
    · obtain ⟨h₁, hc₁⟩ := ih hl' hnd'.2 h hs hd hnone' hc
      exact ⟨h₁, ((Keeps.refl s).copies dest [va / pageSize]).trans hc₁⟩
    · obtain ⟨h₁, hk, -⟩ := pageWalk_spec h hd hv hw
      exact ⟨h₁, hk.copies ..⟩
    · obtain ⟨h₁, hk, htab⟩ := pageWalk_spec h hd hv hw
      have he₁ : (s₁.mm src).pte (va / pageSize) = some e := by rw [hk.pte, he]
      have hn₁ : (s₁.mm dest).pte (va / pageSize) = none := by rw [hk.pte, hnone va (mem_cons_self ..)]
      obtain ⟨h₂, hc₂⟩ := share_spec h₁ (hk.tasks ▸ hs) (hk.tasks ▸ hd) hne hv he₁ (htab rfl) hn₁
      generalize s₁.sharePage src dest (va / pageSize) e = s₂ at h₂ hc₂ hc
      have ht₂ : s₂.tasks = s.tasks := hc₂.tasks.trans hk.tasks
      -- the pages to come are other pages
      have hnone₂ : ∀ va ∈ l, (s₂.mm dest).pte (va / pageSize) = none := fun va' h' => by
        refine Classical.byContradiction fun hn => ?_
        rcases hc₂.dest _ hn with hn | hn
        · exact hn (by rw [hk.pte, hnone' va' h'])
        · refine hnd'.1 (List.mem_map.mpr ⟨va', h', mem_singleton.mp hn⟩)
      obtain ⟨h₃, hc₃⟩ := ih hl' hnd'.2 h₂ (ht₂ ▸ hs) (ht₂ ▸ hd) hnone₂ hc
      exact ⟨h₃, ((hk.copies dest []).trans hc₂).trans hc₃⟩

section
variable {a : Area} (ha : a.Fits)
include ha

/-- The area of the child ends where the last page of the area does. -/
theorem copied_end : pageSize ∣ a.copied.vmEnd ∧ a.vmEnd ≤ a.copied.vmEnd ∧
    a.copied.vmEnd < a.vmEnd + pageSize := by
  have h₁ := ha.start_le
  have h₂ := ha.end_le
  have h₃ := ha.start_dvd
  show pageSize ∣ wrap (roundDown a.vmStart pageSize + roundUp a.length pageSize) ∧ _ ≤ wrap _ ∧ wrap _ < _
  rw [Area.length_of_le h₁ h₂]
  unfold roundUp roundDown wrap pageSize kernelBaseAddr at *
  omega

theorem copied_le {n : Nat} (hn : pageSize ∣ n) : a.copied.vmEnd ≤ n ↔ a.vmEnd ≤ n := by
  obtain ⟨h₁, h₂, h₃⟩ := copied_end ha
  unfold pageSize at *
  omega

theorem copied_fits : a.copied.Fits where
  start_pos := by rw [Area.copied_start ha.start_dvd]; exact ha.start_pos
  start_le := by rw [Area.copied_start ha.start_dvd]; exact ha.start_le.trans (copied_end ha).2.1
  start_dvd := by rw [Area.copied_start ha.start_dvd]; exact ha.start_dvd
  end_le := (copied_le ha (by decide)).mpr ha.end_le

theorem copied_covers : a.copied.Covers v ↔ a.Covers v := by
  unfold Area.Covers
  rw [Area.copied_start ha.start_dvd, ← Nat.not_le, ← Nat.not_le, copied_le ha (Nat.dvd_mul_left ..)]

theorem copied_apart {b : Area} (hb : pageSize ∣ b.vmStart) :
    (a.copied.vmEnd ≤ b.vmStart ∨ b.vmEnd ≤ a.copied.vmStart) ↔ (a.vmEnd ≤ b.vmStart ∨ b.vmEnd ≤ a.vmStart) := by
  rw [Area.copied_start ha.start_dvd, copied_le ha hb]

end

theorem SpaceFits.insert (h : SpaceFits sp) (ha : a.Fits)
    (hd : ∀ b ∈ sp.mmap, a.vmEnd ≤ b.vmStart ∨ b.vmEnd ≤ a.vmStart) :
    SpaceFits { sp with mmap := insertArea a sp.mmap } where
  area b hb := by
    rcases mem_cons.mp ((insertArea_perm a _).mem_iff.mp hb) with rfl | hb
    · exact ha
    · exact h.area b hb
  apart := by
    refine ((insertArea_perm a sp.mmap).pairwise_iff fun hab => ?_).mpr (pairwise_cons.mpr ⟨hd, h.apart⟩)
    exact hab.symm
  covered v hv := by
    obtain ⟨b, hb, hc⟩ := h.covered v hv
    exact ⟨b, (insertArea_perm a _).mem_iff.mpr (mem_cons_of_mem _ hb), hc⟩

theorem pages_nodup (a : Area) (h : pageSize ∣ a.vmStart) : (a.addrs.map (· / pageSize)).Nodup := by
  obtain ⟨k, hk⟩ := h
  unfold Area.addrs
  rw [List.map_map]
  refine List.Nodup.map (fun i j e => ?_) nodup_range
  simp only [comp, hk] at e
  unfold pageSize at e
  omega

theorem Good.copies {dest : Nat} {pages : List Nat} (h : s.Good) (hi : PagingInv none none s')
    (hc : Copies dest pages s s') (hp : ∀ v ∈ pages, ∃ a ∈ (s.mm dest).mmap, a.Covers v) : s'.Good := by
  refine ⟨hi, fun t ht => SpaceFits.update (h.space t (hc.tasks ▸ ht)) (hc.mmap t) fun v hv => ?_⟩
  by_cases e : t = dest
  · subst e
    exact (hc.dest v hv).imp_right (hp v)
  · refine .inl fun hn => hv ?_
    have := hc.frame t e v
    rw [frame, frame, hn] at this
    exact map_eq_none_iff.mp this

theorem createVma_good (h : s.Good) (hd : t ∈ s.tasks) (ha : a.Fits)
    (hdis : ∀ b ∈ (s.mm t).mmap, a.vmEnd ≤ b.vmStart ∨ b.vmEnd ≤ a.vmStart)
    (hc : s.createVma t a.vmStart a.length = (ok, s')) :
    s'.Good ∧ s'.tasks = s.tasks ∧
      (ok = true → s'.mm t = { s.mm t with mmap := insertArea a.copied (s.mm t).mmap }) := by
  obtain ⟨hn, hf, ht, ⟨hok, hm⟩ | ⟨-, hm⟩⟩ := createVma_spec hc
  · exact ⟨⟨h.inv.congr hn hf ht hm, fun t' ht' => by rw [hm]; exact h.space t' (ht ▸ ht')⟩, ht,
      fun e => by rw [hok] at e; cases e⟩
  · have hset : PagingInv none none (s.setMm t { s.mm t with mmap := insertArea a.copied (s.mm t).mmap }) :=
      h.inv.setAreas rfl rfl
    have hself : s'.mm t = { s.mm t with mmap := insertArea a.copied (s.mm t).mmap } := by
      rw [hm, setMm_mm_self]
      rfl
    refine ⟨⟨hset.congr hn hf ht hm, fun t' ht' => ?_⟩, ht, fun _ => hself⟩
    by_cases e : t' = t
    · rw [e, hself]
      exact SpaceFits.insert (h.space t hd) (copied_fits ha) fun b hb =>
        (copied_apart ha ((h.space t hd).area b hb).start_dvd).mpr (hdis b hb)
    · rw [hm, setMm_mm_of_ne _ _ e]
      exact h.space t' (ht ▸ ht')

theorem copyPages_good (h : s.Good) (hs : src ∈ s.tasks) (hd : dest ∈ s.tasks)
    (hne : src ≠ dest) (ha : a.Fits) (hmem : a.copied ∈ (s.mm dest).mmap)
    (hnone : ∀ v, a.Covers v → (s.mm dest).pte v = none) (hc : s.copyPages src dest a.addrs = (ok, s')) :
    s'.Good ∧ s'.tasks = s.tasks ∧ (s'.mm dest).mmap = (s.mm dest).mmap := by
  have hpage : ∀ va ∈ a.addrs, va < kernelBaseAddr ∧ a.Covers (va / pageSize) := fun _ => Area.page_of_addr ha
  obtain ⟨hi, hcopies⟩ := copyPages_spec a.addrs (fun va hva => (hpage va hva).1)
    (pages_nodup a ha.start_dvd) h.inv hs hd hne (fun va hva => hnone _ (hpage va hva).2) hc
  refine ⟨h.copies hi hcopies fun v hv => ?_, hcopies.tasks, hcopies.mmap dest⟩
  obtain ⟨va, hva, rfl⟩ := List.mem_map.mp hv
  exact ⟨a.copied, hmem, (copied_covers ha).mpr (hpage va hva).2⟩

theorem copyTask_good (l : List Area) (hl : ∀ a ∈ l, a.Fits)
    (hap : l.Pairwise fun a b => a.vmEnd ≤ b.vmStart ∨ b.vmEnd ≤ a.vmStart) (h : s.Good) (hs : src ∈ s.tasks)
    (hd : dest ∈ s.tasks) (hne : src ≠ dest)
    (hdis : ∀ a ∈ l, ∀ b ∈ (s.mm dest).mmap, a.vmEnd ≤ b.vmStart ∨ b.vmEnd ≤ a.vmStart)
    (hc : s.copyTask src dest l = (ok, s')) : s'.Good ∧ s'.tasks = s.tasks := by
  induction l generalizing s with
  | nil =>
    cases hc
    exact ⟨h, rfl⟩
  | cons a l ih =>
    have ha := hl a (mem_cons_self ..)
    have hda := hdis a (mem_cons_self ..)
    have hap' := pairwise_cons.mp hap
    obtain ⟨-, hv⟩ | ⟨s₁, hv, hc⟩ := copyTask_cons hc
    · obtain ⟨hg, ht, -⟩ := createVma_good h hd ha hda hv
      exact ⟨hg, ht⟩
    obtain ⟨hg₁, ht₁, hm₁⟩ := createVma_good h hd ha hda hv
    have hm₁ := hm₁ rfl
    have hmem : a.copied ∈ (s₁.mm dest).mmap := by
      rw [hm₁]
      exact (insertArea_perm ..).mem_iff.mpr (mem_cons_self ..)
    -- no page of the new area is mapped yet
    have hnone : ∀ v, a.Covers v → (s₁.mm dest).pte v = none := by
      intro v hv₁
      refine Classical.byContradiction fun hn => ?_
      rw [hm₁] at hn
      obtain ⟨b, hb, hv₂⟩ := (h.space dest hd).covered v hn
      have := hda b hb
      unfold Area.Covers at hv₁ hv₂
      omega
    obtain ⟨-, hp⟩ | ⟨s₂, hp, hc⟩ := hc
    · obtain ⟨hg₂, ht₂, -⟩ := copyPages_good hg₁ (ht₁ ▸ hs) (ht₁ ▸ hd) hne ha hmem hnone hp
      exact ⟨hg₂, ht₂.trans ht₁⟩
    · obtain ⟨hg₂, ht₂, hm₂⟩ := copyPages_good hg₁ (ht₁ ▸ hs) (ht₁ ▸ hd) hne ha hmem hnone hp
      have ht₂ := ht₂.trans ht₁
      have hdis₂ : ∀ c ∈ l, ∀ b ∈ (s₂.mm dest).mmap, c.vmEnd ≤ b.vmStart ∨ b.vmEnd ≤ c.vmStart := by
        intro c hc b hb
        rw [hm₂, hm₁] at hb
        rcases mem_cons.mp ((insertArea_perm ..).mem_iff.mp hb) with rfl | hb
        · exact ((copied_apart ha (hl c (mem_cons_of_mem _ hc)).start_dvd).mpr (hap'.1 c hc)).symm
        · exact hdis c (mem_cons_of_mem _ hc) b hb
      obtain ⟨hg₃, ht₃⟩ := ih (fun a ha => hl a (mem_cons_of_mem _ ha)) hap'.2 hg₂ (ht₂ ▸ hs) (ht₂ ▸ hd) hdis₂ hc
      exact ⟨hg₃, ht₃.trans ht₂⟩

theorem newMm_mm_self {brk : Nat} : (s.newMm t brk p).mm t = ⟨[], brk, p, fun _ => none⟩ := setMm_mm_self ..

theorem newMm_mm_of_mem {brk t' : Nat} (ht : t ∉ s.tasks) (ht' : t' ∈ s.tasks) :
    (s.newMm t brk p).mm t' = s.mm t' :=
  setMm_mm_of_ne _ _ fun e => ht (e ▸ ht')

theorem newMm_tasks_erase {brk : Nat} (ht : t ∉ s.tasks) : (s.newMm t brk p).tasks.erase t = s.tasks :=
  Finset.erase_insert ht

/-- An empty space refers to nothing. -/
theorem newMm_refs {n : Nat} (brk p : Nat) (ht : t ∉ s.tasks) (f : Space → Nat → Option Nat)
    (hf : ∀ k, f ⟨[], brk, p, fun _ => none⟩ k = none) (q : Nat) :
    refs ((s.newMm t brk p).tasks ×ˢ Finset.range n) (fun x => f ((s.newMm t brk p).mm x.1) x.2) q =
      refs (s.tasks ×ˢ Finset.range n) (fun x => f (s.mm x.1) x.2) q := by
  rw [← refs_erase_row (t := t) fun k _ => by rw [newMm_mm_self, hf], newMm_tasks_erase ht]
  exact refs_congr fun x hx => by rw [newMm_mm_of_mem ht (Finset.mem_product.mp hx).1]

theorem newMm_userRefs (brk p : Nat) (ht : t ∉ s.tasks) (q : Nat) : (s.newMm t brk p).userRefs q = s.userRefs q :=
  newMm_refs brk p ht frame (fun _ => rfl) q

theorem newMm_tableRefs (brk p : Nat) (ht : t ∉ s.tasks) (q : Nat) :
    (s.newMm t brk p).tableRefs q = s.tableRefs q := by
  have h₁ := newMm_refs (n := userPgds) brk p ht (fun sp i => (sp.pgd i).map PmdTable.page) (fun _ => rfl) q
  have h₂ := newMm_refs (n := userPgds * ptrsPerTable) brk p ht
    (fun sp j => (sp.pteTable j).map PteTable.page) (fun _ => rfl) q
  rw [tableRefs, pmdRefs, pteRefs, h₁, h₂]
  rfl

theorem newMm_rootRefs (brk p : Nat) (ht : t ∉ s.tasks) (q : Nat) :
    (s.newMm t brk p).rootRefs q = s.rootRefs q + hits (some p) q := by
  have h₁ : (s.newMm t brk p).rootRefs q = _ := refs_erase (Finset.mem_insert_self t s.tasks)
  rw [h₁, newMm_mm_self, newMm_tasks_erase ht]
  exact congrArg (· + _) (refs_congr fun x hx => by rw [newMm_mm_of_mem ht hx])

theorem newMm_inv (h : PagingInv none none s) (ht : t ∉ s.tasks) (brk : Nat) (hl : s.Loose p)
    (hz : s.userRefs p = 0) : PagingInv none none (s.newMm t brk p) := by
  have hu := newMm_userRefs brk p ht
  have hk := newMm_tableRefs brk p ht
  have hr := newMm_rootRefs brk p ht
  have hroot := hl.2
  refine ⟨fun q => ?_, h.nodup, fun q hq => ?_, fun q => ?_, fun q hq => ?_, fun t' ht' v' hv' q hq => ?_⟩
  · rw [hu, hk]
    exact h.nref q
  · have hne : (some p : Option Nat) ≠ some q := fun e => hl.1 (some.inj e ▸ hq)
    rw [hu, hk, hr, hits_of_ne hne]
    exact h.free q hq
  · rw [hk, hr]
    by_cases e : p = q
    · subst e
      rw [hits_self]
      omega
    · rw [hits_of_ne fun e' => e (some.inj e')]
      exact h.kern q
  · rw [hk, hr] at hq
    rw [hu]
    by_cases e : p = q
    · subst e
      exact ⟨hz, rfl⟩
    · rw [hits_of_ne fun e' => e (some.inj e')] at hq
      exact h.apart q hq
  · rw [hu]
    rcases Finset.mem_insert.mp ht' with rfl | ht'
    · rw [newMm_mm_self] at hq
      cases hq
    · rw [newMm_mm_of_mem ht ht'] at hq
      exact h.write t' ht' v' hv' q hq

theorem newMm_good (h : s.Good) (ht : t ∉ s.tasks) (brk : Nat) (hl : s.Loose p) (hz : s.userRefs p = 0) :
    (s.newMm t brk p).Good := by
  refine ⟨newMm_inv h.inv ht brk hl hz, fun t' ht' => ?_⟩
  rcases Finset.mem_insert.mp ht' with rfl | ht'
  · rw [newMm_mm_self]
    exact ⟨by simp, List.Pairwise.nil, fun v hv => absurd rfl hv⟩
  · have e : (s.newMm t brk p).mm t' = s.mm t' := setMm_mm_of_ne _ _ fun e => ht (e ▸ ht')
    rw [e]
    exact h.space t' ht'

theorem Good.kmallocs (h : s.Good) (rest : List Bool) : { s with kmallocs := rest }.Good :=
  ⟨h.inv.congr rfl rfl rfl rfl, h.space⟩

theorem Takes.good (ht : Takes s s') (h : s.Good) : s'.Good := by
  induction ht with
  | kmalloc hk =>
    obtain ⟨rest, rfl⟩ := kmalloc_eq hk
    exact h.kmallocs rest
  | pageAlloc ha =>
    obtain ⟨h₁, hs, -⟩ := pageAlloc_spec h.inv ha
    exact h.keeps h₁ hs
  | copyFiles hk =>
    obtain ⟨rest, rfl⟩ := copyFiles_eq hk
    exact h.kmallocs rest
  | trans _ _ ih ih' => exact ih' (ih h)

/-- The areas of `t` are copied into a space that has none. -/
theorem newMm_copyTask_good {child : Nat} (h : s.Good) (ht : t ∈ s.tasks) (hc : child ∉ s.tasks)
    (hl : s.Loose p) (hz : s.userRefs p = 0) (hperm : l.Perm (s.mm t).mmap)
    (hcopy : (s.newMm child (s.mm t).startBrk p).copyTask t child l = (ok, s')) : s'.Good ∧ child ∈ s'.tasks := by
  have hne : t ≠ child := fun e => hc (e ▸ ht)
  have hg := newMm_good h hc (s.mm t).startBrk hl hz
  have hnew : ((s.newMm child (s.mm t).startBrk p).mm child).mmap = [] := by rw [newMm_mm_self]
  have hmem := Finset.mem_insert_self child s.tasks
  have hok := h.space t ht
  have hapart := (hperm.pairwise_iff fun hab => hab.symm).mpr hok.apart
  obtain ⟨h', ht'⟩ := copyTask_good _ (fun a ha => hok.area a (hperm.mem_iff.mp ha)) hapart hg
    (Finset.mem_insert_of_mem ht) hmem hne (fun a _ b hb => by rw [hnew] at hb; cases hb) hcopy
  exact ⟨h', ht' ▸ hmem⟩

theorem forkAlong_good {child : Nat} {back : List Area → List Area} (h : s.Good) (ht : t ∈ s.tasks)
    (hc : child ∉ s.tasks) (hl : l.Perm (s.mm t).mmap) (hback : ∀ l, (back l).Perm l)
    (hf : s.forkAlong t child l back = some s') : s'.Good := by
  obtain htakes | ⟨p, s₂, s₃, s₄, h₂, ha, hfiles, hareas⟩ := forkAlong_cases hf
  · exact htakes.good h
  obtain ⟨h₃, hs₃, -, -, hp⟩ := pageAlloc_spec (h₂.good h).inv ha
  obtain ⟨hloose, hz, -⟩ := hp p rfl
  obtain ⟨rest, rfl⟩ := copyFiles_eq hfiles
  have htasks : s₃.tasks = s.tasks := hs₃.tasks.trans h₂.mm.1
  have ht₃ : t ∈ s₃.tasks := htasks ▸ ht
  have hc₃ : child ∉ s₃.tasks := htasks ▸ hc
  have h₄ := ((h₂.good h).keeps h₃ hs₃).kmallocs rest
  have hl₃ : l.Perm (s₃.mm t).mmap := by
    rw [hs₃.mmap, h₂.mm.2]
    exact hl
  cases hareas with
  | copied hcopy => exact (newMm_copyTask_good h₄ ht₃ hc₃ hloose hz hl₃ hcopy).1
  | ended hcopy hexit =>
    obtain ⟨h₅, hmem⟩ := newMm_copyTask_good h₄ ht₃ hc₃ hloose hz hl₃ hcopy
    exact exitAreas_good h₅ hmem (hback _) hexit

/-! ## Runs -/

theorem pagingStep_good (h : s.Good) (hs : PagingStep s s') : s'.Good := by
  cases hs with
  | fork ht hc hf => exact forkAlong_good h ht hc (.refl _) List.Perm.refl hf
  | fault ht hf => exact pageFaultHandler_good h ht hf
  | remove ht hva hr =>
    obtain ⟨h₁, he, -⟩ := pageRemove_spec h.inv ht hva hr
    exact h.edits h₁ he (.inl rfl)
  | exit ht he => exact exitAreas_good h ht (.refl _) he
  | store ht hs =>
    unfold store at hs
    split at hs
    · split at hs
      · cases hs
        exact ⟨h.inv.congr rfl rfl rfl rfl, h.space⟩
      · cases hs
    · cases hs
  | oracle => exact ⟨h.inv.congr rfl rfl rfl rfl, h.space⟩

/-- A frame that one task can write is read by no other. -/
theorem store_isolated {va b t' : Nat} (h : PagingInv none none s) (ht : t ∈ s.tasks)
    (ht' : t' ∈ s.tasks) (hne : t' ≠ t)
    (hs : s.store t va b = some s') (va' : Nat) : s'.read t' va' = s.read t' va' := by
  unfold store at hs
  split at hs
  · next p hp =>
    split at hs
    · next hva =>
      cases hs
      unfold read
      split
      · next hva' =>
        dsimp only
        cases hf : (s.mm t').frame (va' / pageSize) with
        | none => rfl
        | some q =>
          have hq : q ≠ p := fun e => by
            rcases h.unshared ht (page_lt hva) ht' (page_lt hva') hp (e ▸ hf) with h₁ | h₁
            · exact hne h₁.1
            · cases h₁
          rw [map_some, map_some, update_of_ne hq]
      · rfl
    · cases hs
  · cases hs

end Paging

structure CowStart (s : Paging) : Prop where
  once : ∀ p, s.userRefs p ≤ 1
  nref : ∀ p, s.nref p = (s.userRefs p + s.tableRefs p : Nat)
  nodup : s.free.Nodup
  free : ∀ p ∈ s.free, s.userRefs p = 0 ∧ s.tableRefs p + s.rootRefs p = 0
  kern : ∀ p, s.tableRefs p + s.rootRefs p ≤ 1
  apart : ∀ p, 0 < s.tableRefs p + s.rootRefs p → s.userRefs p = 0

structure CowInv (s : Paging) : Prop where
  nref : ∀ p, s.tableRefs p = 0 → s.nref p = s.userRefs p
  write : ∀ t ∈ s.tasks, ∀ v < userPages, ∀ p, (s.mm t).pte v = some ⟨p, true⟩ → s.nref p = 1
  free : ∀ t ∈ s.tasks, ∀ v < userPages, ∀ p, (s.mm t).frame v = some p → p ∉ s.free
  store : ∀ t ∈ s.tasks, ∀ t' ∈ s.tasks, t' ≠ t → ∀ va b s', s.store t va b = some s' →
    ∀ va', s'.read t' va' = s.read t' va'

theorem CowStart.inv {s : Paging} (h : CowStart s) : PagingInv none none s where
  nref := h.nref
  nodup := h.nodup
  free p hp := ⟨(h.free p hp).1, (h.free p hp).2, rfl⟩
  kern := h.kern
  apart p hp := ⟨h.apart p hp, rfl⟩
  write t ht v hv p hp := by
    have h₁ := PagingInv.mapped_pos ht hv (congrArg (Option.map Pte.frame) hp)
    have h₂ := h.once p
    exact .inl (by simp only at h₁; omega)

theorem PagingInv.cow {s : Paging} (h : PagingInv none none s) : CowInv s where
  nref p hp := by rw [h.nref, hp]; rfl
  write t ht v hv p hp := by
    have hu := (h.write t ht v hv p hp).resolve_right nofun
    have hk := (h.loose_of_pos (by omega : 0 < s.userRefs p)).2
    rw [h.nref, hits_none]
    omega
  free t ht v hv p hp := (h.loose_of_pos (PagingInv.mapped_pos ht hv hp)).1
  store _ ht _ ht' hne _ _ _ hs va' := store_isolated h ht ht' hne hs va'

/-! ## Loaded segments -/

namespace Paging

variable {s s' : Paging} {t : Nat}

def AllWritable (s : Paging) : Prop := ∀ t ∈ s.tasks, ∀ v e, (s.mm t).pte v = some e → e.write = true

theorem PagingInv.start (h : PagingInv none none s) (hw : s.AllWritable) : CowStart s where
  once p := Classical.byContradiction fun hp => by
    obtain ⟨x, hx, hf⟩ := refs_pos.mp (by omega : 0 < s.userRefs p)
    obtain ⟨ht, hv⟩ := Finset.mem_product.mp hx
    obtain ⟨⟨q, w⟩, he, rfl⟩ := map_eq_some_iff.mp hf
    obtain rfl : w = true := hw x.1 ht x.2 _ he
    rcases h.write x.1 ht x.2 (Finset.mem_range.mp hv) q he with h₁ | h₁
    · exact hp h₁.le
    · cases h₁
  nref := h.nref
  nodup := h.nodup
  free p hp := ⟨(h.free p hp).1, (h.free p hp).2.1⟩
  kern := h.kern
  apart p hp := (h.apart p hp).1

theorem regionAlloc_inv : ∀ {l : List Nat} {s : Paging} {ok : Bool}, (∀ va ∈ l, va < kernelBaseAddr) →
    PagingInv none none s → t ∈ s.tasks → s.regionAlloc t l = some (ok, s') → PagingInv none none s'
  | [], _, _, _, h, _, hr => by
    cases hr
    exact h
  | va :: l, s, ok, hl, h, ht, hr => by
    unfold regionAlloc at hr
    split at hr
    · next s₁ ha =>
      cases hr
      exact (pageAlloc_spec h ha).1
    · next p s₁ ha =>
      obtain ⟨h₁, hk, -, -, hp⟩ := pageAlloc_spec h ha
      obtain ⟨hl₁, hz, -⟩ := hp p rfl
      simp only [bind_eq_bind, bind_eq_some_iff, Prod.exists] at hr
      obtain ⟨ok₁, s₂, hi, hr⟩ := hr
      obtain ⟨h₂, -, he₂⟩ := pageInsert_spec h₁ (hk.tasks ▸ ht) (hl va (mem_cons_self ..)) hl₁ (.inr hz) hi
      cases ok₁ with
      | false =>
        cases hr
        exact h₂
      | true =>
        have ht₂ : t ∈ s₂.tasks := (he₂ rfl).tasks ▸ hk.tasks ▸ ht
        exact regionAlloc_inv (fun va h => hl va (mem_cons_of_mem _ h)) h₂ ht₂ hr

theorem regionAlloc_spec {ok : Bool} {l : List Nat} (hl : ∀ va ∈ l, va < kernelBaseAddr) (h : PagingInv none none s)
    (ht : t ∈ s.tasks) (hw : s.AllWritable) (hr : s.regionAlloc t l = some (ok, s')) :
    PagingInv none none s' ∧ s'.tasks = s.tasks ∧ s'.AllWritable ∧
      ∀ t' v, (s'.mm t').pte v ≠ none → (s.mm t').pte v ≠ none ∨ v ∈ l.map (· / pageSize) := by
  have hsome := (regionAlloc_entries hr).1
  refine ⟨regionAlloc_inv hl h ht hr, hsome.tasks, fun t' ht' v e he => ?_, fun t' v hv => ?_⟩
  · rcases hsome.pte t' v with hold | ⟨-, p, hnew⟩
    · exact hw t' (hsome.tasks ▸ ht') v e (hold ▸ he)
    · rw [hnew] at he
      cases he
      rfl
  · rcases hsome.pte t' v with hold | ⟨⟨-, hv⟩, -⟩
    · exact .inl (hold ▸ hv)
    · exact .inr hv

theorem loadSegment_spec {va memsz : Nat} {ok : Bool} {l : List Nat}
    (hl : Area.addrs ⟨roundDown va pageSize, roundUp (wrap (va + memsz)) pageSize⟩ = l)
    (hlt : ∀ va ∈ l, va < kernelBaseAddr) (h : PagingInv none none s) (ht : t ∈ s.tasks) (hw : s.AllWritable)
    (hs : s.loadSegment t va memsz = some (ok, s')) :
    PagingInv none none s' ∧ s'.tasks = s.tasks ∧ s'.AllWritable ∧
      ∀ v, (s'.mm t).pte v ≠ none → (s.mm t).pte v ≠ none ∨ v ∈ l.map (· / pageSize) := by
  unfold loadSegment at hs
  split at hs
  · next s₁ hc =>
    cases hs
    obtain ⟨hn, hf, ht₁, ⟨-, hm⟩ | ⟨e, -⟩⟩ := createVma_spec hc
    · exact ⟨h.congr hn hf ht₁ hm, ht₁, fun t' ht' => hm ▸ hw t' (ht₁ ▸ ht'), fun v hv => .inl (hm ▸ hv)⟩
    · cases e
  · next s₁ hc =>
    obtain ⟨hn, hf, ht₁, ⟨e, -⟩ | ⟨-, hm⟩⟩ := createVma_spec hc
    · cases e
    have hset : PagingInv none none (s.setMm t
        { s.mm t with mmap := insertArea (newArea va memsz) (s.mm t).mmap }) :=
      h.setAreas rfl rfl
    have h₁ := hset.congr hn hf ht₁ hm
    have hpte : ∀ t' v, (s₁.mm t').pte v = (s.mm t').pte v := fun t' v => by
      have hsp : pte { s.mm t with mmap := insertArea (newArea va memsz) (s.mm t).mmap } v = (s.mm t).pte v := rfl
      rw [hm]
      exact setMm_keeps (fun sp => sp.pte v) hsp t'
    have hw₁ : s₁.AllWritable := fun t' ht' v e he => hw t' (ht₁ ▸ ht') v e (hpte t' v ▸ he)
    rw [hl] at hs
    obtain ⟨h₂, ht₂, hw₂, hp⟩ := regionAlloc_spec hlt h₁ (ht₁ ▸ ht) hw₁ hs
    exact ⟨h₂, ht₂.trans ht₁, hw₂, fun v hv => hpte t v ▸ hp t v hv⟩

def freeFrames : List Nat := [2, 3, 4, 5, 6, 7, 8, 9, 10, 11]

def bare (answers : List Nat) : Paging :=
  newMm ⟨fun _ => 0, freeFrames, fun _ _ => 0, ∅, fun _ => ⟨[], 0, 0, fun _ => none⟩, answers,
    List.replicate 9 true⟩ 1 0 1

theorem bare_inv (answers : List Nat) : PagingInv none none (bare answers) ∧ (bare answers).AllWritable := by
  refine ⟨newMm_inv ?_ (by simp) 0 ⟨show 1 ∉ freeFrames by decide, rfl⟩ rfl, fun t ht v e he => ?_⟩
  · refine ⟨fun _ => rfl, show freeFrames.Nodup by decide, fun p _ => ⟨rfl, rfl, rfl⟩, fun p => Nat.zero_le 1,
      fun p _ => ⟨rfl, rfl⟩, ?_⟩
    exact fun t ht => absurd ht (by simp)
  · rw [Finset.mem_singleton.mp ht, bare, newMm, setMm_mm_self] at he
    cases he

end Paging

/-- **Copy-on-write isolation** for tasks whose pages lie in their areas. -/
theorem cow_isolation {s₀ s : Paging} (h₀ : CowStart s₀) (hsp : ∀ t ∈ s₀.tasks, SpaceFits (s₀.mm t))
    (hrun : Relation.ReflTransGen PagingStep s₀ s) : CowInv s := by
  have key : s.Good := by
    induction hrun with
    | refl => exact ⟨h₀.inv, hsp⟩
    | tail _ hstep ih => exact pagingStep_good ih hstep
  exact key.inv.cow

open Paging in
theorem cow_isolation_fork : ∃ s₀ s₁ s₂, (bare freeFrames).loadSegment 1 0x800000 0x1000 = some (true, s₀) ∧
    s₀.doFork 1 2 = some s₁ ∧ s₁.pageFaultHandler 1 0x800004 true = some s₂ ∧ CowInv s₂ := by
  have h : (((bare freeFrames).loadSegment 1 0x800000 0x1000).bind fun r => (r.2.doFork 1 2).bind fun s₁ =>
      (s₁.pageFaultHandler 1 0x800004 true).map fun _ => (r.1, (r.2.mm 1).mmap, decide (1 ∈ s₁.tasks))) =
      some (true, [⟨0x800000, 0x801000⟩], true) := by decide +kernel
  simp only [bind_eq_some_iff, map_eq_some_iff, Prod.mk.injEq, decide_eq_true_eq] at h
  obtain ⟨⟨_, s₀⟩, hl, s₁, hf, s₂, hw, rfl, hm, h₁⟩ := h
  obtain ⟨hi, ht, hrw, hp⟩ := loadSegment_spec (l := [0x800000]) (by decide) (by decide) (bare_inv _).1 (by decide)
    (bare_inv _).2 hl
  refine ⟨s₀, s₁, s₂, hl, hf, hw, cow_isolation (PagingInv.start hi hrw) (fun t ht' => ?_)
    (.tail (.single (.fork (by rw [ht]; decide) (by rw [ht]; decide) hf)) (.fault h₁ hw))⟩
  rw [ht] at ht'
  obtain rfl : t = 1 := Finset.mem_singleton.mp ht'
  refine ⟨fun a ha => ?_, by rw [hm]; exact pairwise_singleton .., fun v hv => ?_⟩
  · rw [hm] at ha
    rw [mem_singleton.mp ha]
    exact ⟨by decide, by decide, by decide, by decide⟩
  · rw [hm]
    rcases hp v hv with hv | hv
    · exact absurd rfl hv
    · rw [mem_singleton.mp hv]
      exact ⟨_, mem_singleton_self _, by decide, by decide⟩

open Paging in
/-- The last page of a segment that does not start on a page boundary is in no area:
the exit of its task forgets it. -/
theorem cow_broken : ∃ s₀ s, (bare freeFrames).loadSegment 1 0x800020 0xff0 = some (true, s₀) ∧ CowStart s₀ ∧
    PagingStep s₀ s ∧ ¬ CowInv s := by
  have h : (((bare freeFrames).loadSegment 1 0x800020 0xff0).bind fun r => (r.2.exitMm 1).map fun s =>
      (r.1, s.tasks, s.nref 5)) = some (true, ∅, 1) := by decide +kernel
  simp only [bind_eq_some_iff, map_eq_some_iff, Prod.mk.injEq] at h
  obtain ⟨⟨_, s₀⟩, hl, s, he, rfl, htasks, hn⟩ := h
  obtain ⟨hi, ht, hrw, -⟩ := loadSegment_spec (l := [0x800000, 0x801000]) (by decide) (by decide)
    (bare_inv _).1 (by decide) (bare_inv _).2 hl
  refine ⟨s₀, s, hl, PagingInv.start hi hrw, .exit (by rw [ht]; decide) he, fun hc => ?_⟩
  have hu : s.userRefs 5 = 0 := by rw [userRefs, htasks]; rfl
  have hk : s.tableRefs 5 = 0 := by rw [tableRefs, pmdRefs, pteRefs, htasks]; rfl
  have := hc.nref 5 hk
  rw [hn, hu] at this
  cases this

end MiniOS
