import MiniOS.PagingCases
import Mathlib.Logic.Relation

/-!
# What paging does to the entries

The operations of `mm/page.c`, of fork and of the loader on the entries and areas of the
address spaces, whatever the counters of the frames say.
-/

namespace MiniOS

open Function Option Space

/-! ## Page tables -/

namespace Space

@[simp] theorem pteSet_page (sp : Space) (v : Nat) (e : Option Pte) : (sp.pteSet v e).page = sp.page := rfl

theorem pgdSet_pgd_self (sp : Space) (i : Nat) (m : Option PmdTable) : (sp.pgdSet i m).pgd i = m :=
  update_self ..

theorem pgdSet_pgd_of_ne (sp : Space) (m : Option PmdTable) {i k : Nat} (h : k ≠ i) :
    (sp.pgdSet i m).pgd k = sp.pgd k :=
  update_of_ne h ..

theorem pmdSet_pgd (sp : Space) (j : Nat) (t : Option PteTable) (i : Nat) :
    ((sp.pmdSet j t).pgd i).map PmdTable.page = (sp.pgd i).map PmdTable.page := by
  unfold pmdSet
  by_cases h : i = j / ptrsPerTable
  · subst h
    rw [pgdSet_pgd_self, Option.map_map]
    rfl
  · rw [pgdSet_pgd_of_ne _ _ h]

theorem pmdSet_pteTable {sp : Space} {j : Nat} (h : (sp.pgd (j / ptrsPerTable)).isSome)
    (t : Option PteTable) (k : Nat) : (sp.pmdSet j t).pteTable k = if k = j then t else sp.pteTable k := by
  obtain ⟨m, hm⟩ := isSome_iff_exists.mp h
  unfold pteTable pmdSet
  by_cases h₁ : k / ptrsPerTable = j / ptrsPerTable
  · rw [h₁, pgdSet_pgd_self, hm, map_some, bind_some, bind_some]
    by_cases h₂ : k % ptrsPerTable = j % ptrsPerTable
    · have e : k = j := by rw [← Nat.div_add_mod k ptrsPerTable, h₁, h₂, Nat.div_add_mod]
      rw [h₂, if_pos e]
      exact update_self ..
    · have e : k ≠ j := fun e => h₂ (by rw [e])
      rw [if_neg e]
      exact update_of_ne h₂ ..
  · have e : k ≠ j := fun e => h₁ (by rw [e])
    rw [pgdSet_pgd_of_ne _ _ h₁, if_neg e]

theorem pgd_of_pteTable {sp : Space} {j : Nat} (h : (sp.pteTable j).isSome) :
    (sp.pgd (j / ptrsPerTable)).isSome := by
  unfold pteTable at h
  cases hm : sp.pgd (j / ptrsPerTable) with
  | none => rw [hm] at h; cases h
  | some m => rfl

theorem pteTable_of_pte {sp : Space} {v : Nat} {e : Pte} (h : sp.pte v = some e) :
    (sp.pteTable (v / ptrsPerTable)).isSome := by
  unfold pte at h
  cases ht : sp.pteTable (v / ptrsPerTable) with
  | none => rw [ht] at h; cases h
  | some t => rfl

section
variable {sp : Space} {v : Nat} (h : (sp.pteTable (v / ptrsPerTable)).isSome) (e : Option Pte)
include h

theorem pteSet_pte (w : Nat) : (sp.pteSet v e).pte w = if w = v then e else sp.pte w := by
  obtain ⟨t, ht⟩ := isSome_iff_exists.mp h
  unfold pteSet pte
  rw [pmdSet_pteTable (pgd_of_pteTable h), ht, map_some]
  by_cases h₁ : w / ptrsPerTable = v / ptrsPerTable
  · rw [if_pos h₁, h₁, ht, bind_some, bind_some]
    by_cases h₂ : w % ptrsPerTable = v % ptrsPerTable
    · have e : w = v := by rw [← Nat.div_add_mod w ptrsPerTable, h₁, h₂, Nat.div_add_mod]
      rw [h₂, if_pos e]
      exact update_self ..
    · have e : w ≠ v := fun e => h₂ (by rw [e])
      rw [if_neg e]
      exact update_of_ne h₂ ..
  · have e : w ≠ v := fun e => h₁ (by rw [e])
    rw [if_neg h₁, if_neg e]

theorem pteSet_pteTable (j : Nat) :
    ((sp.pteSet v e).pteTable j).map PteTable.page = (sp.pteTable j).map PteTable.page := by
  unfold pteSet
  rw [pmdSet_pteTable (pgd_of_pteTable h)]
  by_cases hj : j = v / ptrsPerTable
  · rw [if_pos hj, hj, Option.map_map]
    rfl
  · rw [if_neg hj]

end

theorem pteSet_pgd (sp : Space) (v : Nat) (e : Option Pte) (i : Nat) :
    ((sp.pteSet v e).pgd i).map PmdTable.page = (sp.pgd i).map PmdTable.page := pmdSet_pgd ..

theorem pgdSet_pteTable {sp : Space} {i : Nat} {m : PmdTable} (h : sp.pgd i = none)
    (hm : ∀ k, m.pmd k = none) (j : Nat) : (sp.pgdSet i (some m)).pteTable j = sp.pteTable j := by
  unfold pteTable
  by_cases hj : j / ptrsPerTable = i
  · rw [hj, pgdSet_pgd_self, h, bind_some, hm]
    rfl
  · rw [pgdSet_pgd_of_ne _ _ hj]

theorem pte_congr {sp sp' : Space} {v : Nat}
    (h : sp'.pteTable (v / ptrsPerTable) = sp.pteTable (v / ptrsPerTable)) : sp'.pte v = sp.pte v := by
  unfold pte; rw [h]

theorem pmdSet_pte {sp : Space} {j : Nat} {t : PteTable} (hp : (sp.pgd (j / ptrsPerTable)).isSome)
    (h : sp.pteTable j = none) (ht : ∀ k, t.pte k = none) (v : Nat) : (sp.pmdSet j (some t)).pte v = sp.pte v := by
  unfold pte
  rw [pmdSet_pteTable hp]
  by_cases hv : v / ptrsPerTable = j
  · rw [if_pos hv, hv, h, bind_some, ht]
    rfl
  · rw [if_neg hv]

end Space

namespace Paging

theorem setMm_mm_self (s : Paging) (t : Nat) (sp : Space) : (s.setMm t sp).mm t = sp := update_self ..

theorem setMm_mm_of_ne (s : Paging) (sp : Space) {t t' : Nat} (h : t' ≠ t) : (s.setMm t sp).mm t' = s.mm t' :=
  update_of_ne h ..

theorem setMm_keeps {β : Type} (f : Space → β) {s : Paging} {t : Nat} {sp : Space}
    (h : f sp = f (s.mm t)) (t' : Nat) : f ((s.setMm t sp).mm t') = f (s.mm t') := by
  by_cases ht : t' = t
  · rw [ht, setMm_mm_self, h]
  · rw [setMm_mm_of_ne s sp ht]

section
variable {s : Paging} {t : Nat} {v : Nat} {e : Option Pte} (htab : ((s.mm t).pteTable (v / ptrsPerTable)).isSome)
include htab

theorem pteSet_pte (t' v' : Nat) :
    ((s.pteSet t v e).mm t').pte v' = if t' = t ∧ v' = v then e else (s.mm t').pte v' := by
  by_cases ht : t' = t
  · rw [ht, pteSet, setMm_mm_self, Space.pteSet_pte htab]
    simp only [true_and]
  · rw [pteSet, setMm_mm_of_ne _ _ ht, if_neg fun h => ht h.1]

end

section
variable (s : Paging) (p : Nat)

theorem pageDecref_mm : (s.pageDecref p).mm = s.mm := by
  unfold pageDecref
  dsimp only
  split <;> rfl

theorem pageDecref_tasks : (s.pageDecref p).tasks = s.tasks := by
  unfold pageDecref
  dsimp only
  split <;> rfl

end

/-! ## One entry -/

variable {s s' s'' : Paging} {t v p : Nat} {va : Nat} {ok : Bool}

structure Edits (t v : Nat) (e : Option Pte) (s s' : Paging) : Prop where
  tasks : s'.tasks = s.tasks
  pte : ∀ t' v', (s'.mm t').pte v' = if t' = t ∧ v' = v then e else (s.mm t').pte v'
  mmap : ∀ t', (s'.mm t').mmap = (s.mm t').mmap
  startBrk : ∀ t', (s'.mm t').startBrk = (s.mm t').startBrk

theorem edits_pteSet {e : Option Pte} (htab : ((s.mm t).pteTable (v / ptrsPerTable)).isSome) :
    Edits t v e s (s.pteSet t v e) where
  tasks := rfl
  pte := pteSet_pte htab
  mmap := setMm_keeps mmap rfl
  startBrk := setMm_keeps startBrk rfl

theorem page_lt (h : va < kernelBaseAddr) : va / pageSize < userPages := by
  unfold userPages kernelBaseAddr pageSize at *
  omega

/-! ## Walks and single pages -/

structure SameEntries (s s' : Paging) : Prop where
  tasks : s'.tasks = s.tasks
  pte : ∀ t v, (s'.mm t).pte v = (s.mm t).pte v
  mmap : ∀ t, (s'.mm t).mmap = (s.mm t).mmap
  startBrk : ∀ t, (s'.mm t).startBrk = (s.mm t).startBrk

theorem SameEntries.refl (s : Paging) : SameEntries s s := ⟨rfl, fun _ _ => rfl, fun _ => rfl, fun _ => rfl⟩

theorem SameEntries.trans (h : SameEntries s s') (h' : SameEntries s' s'') : SameEntries s s'' where
  tasks := h'.tasks.trans h.tasks
  pte t v := (h'.pte t v).trans (h.pte t v)
  mmap t := (h'.mmap t).trans (h.mmap t)
  startBrk t := (h'.startBrk t).trans (h.startBrk t)

theorem SameEntries.of_mm (htasks : s'.tasks = s.tasks) (hmm : s'.mm = s.mm) : SameEntries s s' :=
  ⟨htasks, fun _ _ => by rw [hmm], fun _ => by rw [hmm], fun _ => by rw [hmm]⟩

theorem SameEntries.edits {e : Option Pte} (h : SameEntries s s') (h' : Edits t v e s' s'') :
    Edits t v e s s'' where
  tasks := h'.tasks.trans h.tasks
  pte t' v' := by rw [h'.pte, h.pte]
  mmap t' := (h'.mmap t').trans (h.mmap t')
  startBrk t' := (h'.startBrk t').trans (h.startBrk t')

theorem Edits.again {e e' : Option Pte} (h : Edits t v e s s') (h' : Edits t v e' s' s'') : Edits t v e' s s'' where
  tasks := h'.tasks.trans h.tasks
  pte t' v' := by
    rw [h'.pte, h.pte]
    split
    · rfl
    · rfl
  mmap t' := (h'.mmap t').trans (h.mmap t')
  startBrk t' := (h'.startBrk t').trans (h.startBrk t')

theorem edits_same (h : (s.mm t).pte v = none) : Edits t v none s s where
  tasks := rfl
  pte t' v' := by
    split
    · next e => rw [e.1, e.2, h]
    · rfl
  mmap _ := rfl
  startBrk _ := rfl

theorem pageAlloc_fields {r : Option Nat} (h : s.pageAlloc = (r, s')) :
    s'.tasks = s.tasks ∧ s'.mm = s.mm ∧ s'.nref = s.nref := by
  unfold pageAlloc at h
  split at h
  · cases h
    exact ⟨rfl, rfl, rfl⟩
  · split at h
    · cases h
      exact ⟨rfl, rfl, rfl⟩
    · cases h
      exact ⟨rfl, rfl, rfl⟩

theorem pageAlloc_same {r : Option Nat} (h : s.pageAlloc = (r, s')) : SameEntries s s' :=
  .of_mm (pageAlloc_fields h).1 (pageAlloc_fields h).2.1

theorem Takes.mm (h : Takes s s') : s'.tasks = s.tasks ∧ s'.mm = s.mm := by
  induction h with
  | kmalloc h =>
    obtain ⟨rest, rfl⟩ := kmalloc_eq h
    exact ⟨rfl, rfl⟩
  | pageAlloc h => exact ⟨(pageAlloc_fields h).1, (pageAlloc_fields h).2.1⟩
  | copyFiles h =>
    obtain ⟨rest, rfl⟩ := copyFiles_eq h
    exact ⟨rfl, rfl⟩
  | trans _ _ ih ih' => exact ⟨ih'.1.trans ih.1, ih'.2.trans ih.2⟩

/-- A table is added to the space of `t`, and it is empty. -/
theorem same_atomicInc_setMm {sp : Space} (hpte : ∀ v, sp.pte v = (s.mm t).pte v) (hmmap : sp.mmap = (s.mm t).mmap)
    (hbrk : sp.startBrk = (s.mm t).startBrk) : SameEntries s ((s.atomicInc p).setMm t sp) where
  tasks := rfl
  pte t' v := setMm_keeps (s := s) (fun sp => sp.pte v) (hpte v) t'
  mmap t' := setMm_keeps (s := s) mmap hmmap t'
  startBrk t' := setMm_keeps (s := s) startBrk hbrk t'

theorem getPmd_entries {i : Nat} (hnone : (s.mm t).pgd i = none) (hg : s.getPmd t i = (ok, s')) :
    SameEntries s s' ∧ (ok = true → ((s'.mm t).pgd i).isSome) := by
  unfold getPmd at hg
  split at hg
  · next s₁ ha =>
    cases hg
    exact ⟨pageAlloc_same ha, nofun⟩
  · next p s₁ ha =>
    cases hg
    rw [← (pageAlloc_fields ha).2.1] at hnone
    have hpte : ∀ v, ((s₁.mm t).pgdSet i (some ⟨p, fun _ => none⟩)).pte v = (s₁.mm t).pte v := fun v =>
      pte_congr (pgdSet_pteTable hnone (fun _ => rfl) _)
    refine ⟨(pageAlloc_same ha).trans (same_atomicInc_setMm hpte rfl rfl), fun _ => ?_⟩
    rw [setMm_mm_self, pgdSet_pgd_self]
    rfl

theorem getPte_entries {j : Nat} (hpgd : ((s.mm t).pgd (j / ptrsPerTable)).isSome)
    (hnone : (s.mm t).pteTable j = none) (hg : s.getPte t j = (ok, s')) :
    SameEntries s s' ∧ (ok = true → ((s'.mm t).pteTable j).isSome) := by
  unfold getPte at hg
  split at hg
  · next s₁ ha =>
    cases hg
    exact ⟨pageAlloc_same ha, nofun⟩
  · next p s₁ ha =>
    cases hg
    rw [← (pageAlloc_fields ha).2.1] at hnone hpgd
    have hpte : ∀ v, ((s₁.mm t).pmdSet j (some ⟨p, fun _ => none⟩)).pte v = (s₁.mm t).pte v :=
      pmdSet_pte hpgd hnone fun _ => rfl
    refine ⟨(pageAlloc_same ha).trans (same_atomicInc_setMm hpte rfl rfl), fun _ => ?_⟩
    show (((s₁.atomicInc p).setMm t ((s₁.mm t).pmdSet j (some ⟨p, fun _ => none⟩))).mm t).pteTable j |>.isSome
    rw [setMm_mm_self, pmdSet_pteTable hpgd, if_pos rfl]
    rfl

/-- What `page_walk` keeps: it makes the middle directory first, and then the table. -/
theorem pageWalk_rule {P : Paging → Prop} (hw : s.pageWalk t v = (ok, s')) (h : P s)
    (hpmd : ∀ {ok s₁}, (s.mm t).pgd (v / ptrsPerTable / ptrsPerTable) = none →
      s.getPmd t (v / ptrsPerTable / ptrsPerTable) = (ok, s₁) → P s₁)
    (hpte : ∀ {s₁ ok s'}, P s₁ → ((s₁.mm t).pgd (v / ptrsPerTable / ptrsPerTable)).isSome →
      (s₁.mm t).pteTable (v / ptrsPerTable) = none → s₁.getPte t (v / ptrsPerTable) = (ok, s') → P s') :
    P s' ∧ (ok = true → ((s'.mm t).pteTable (v / ptrsPerTable)).isSome) := by
  unfold pageWalk at hw
  dsimp only at hw
  obtain ⟨ok₁, s₁, e, h₁, hpgd⟩ : ∃ ok₁ s₁, (if
      ((s.mm t).pgd (v / ptrsPerTable / ptrsPerTable)).isSome then (true, s)
      else s.getPmd t (v / ptrsPerTable / ptrsPerTable)) = (ok₁, s₁) ∧ P s₁ ∧
      (ok₁ = true → ((s₁.mm t).pgd (v / ptrsPerTable / ptrsPerTable)).isSome) := by
    by_cases hsome : ((s.mm t).pgd (v / ptrsPerTable / ptrsPerTable)).isSome
    · exact ⟨true, s, if_pos hsome, h, fun _ => hsome⟩
    · have hnone := not_isSome_iff_eq_none.mp hsome
      exact ⟨_, _, if_neg hsome, hpmd hnone rfl, (getPmd_entries hnone rfl).2⟩
  rw [e] at hw
  cases ok₁ with
  | false =>
    cases hw
    exact ⟨h₁, nofun⟩
  | true =>
    rw [if_pos rfl] at hw
    by_cases hsome : ((s₁.mm t).pteTable (v / ptrsPerTable)).isSome
    · rw [if_pos hsome] at hw
      cases hw
      exact ⟨h₁, fun _ => hsome⟩
    · rw [if_neg hsome] at hw
      have hnone := not_isSome_iff_eq_none.mp hsome
      exact ⟨hpte h₁ (hpgd rfl) hnone hw, (getPte_entries (hpgd rfl) hnone hw).2⟩

theorem pageWalk_entries (hw : s.pageWalk t v = (ok, s')) :
    SameEntries s s' ∧ (ok = true → ((s'.mm t).pteTable (v / ptrsPerTable)).isSome) :=
  pageWalk_rule hw (.refl s) (fun hnone hg => (getPmd_entries hnone hg).1)
    fun h hpgd hnone hg => h.trans (getPte_entries hpgd hnone hg).1

/-- A walk to a table that is there. -/
theorem pageWalk_of_table (h : ((s.mm t).pteTable (v / ptrsPerTable)).isSome) : s.pageWalk t v = (true, s) := by
  unfold pageWalk
  dsimp only
  rw [if_pos (pgd_of_pteTable h)]
  rw [if_pos rfl, if_pos h]

theorem pageRemove_entries (hr : s.pageRemove t va = some s') :
    Edits t (va / pageSize) none s s' ∧ ∀ j, ((s.mm t).pteTable j).isSome → ((s'.mm t).pteTable j).isSome := by
  unfold pageRemove at hr
  split at hr
  · cases hr
  · split at hr
    · next hnone =>
      cases hr
      exact ⟨edits_same hnone, fun _ => id⟩
    · next e he =>
      cases hr
      have hm := pageDecref_mm s e.frame
      have hsame : SameEntries s (s.pageDecref e.frame) := .of_mm (pageDecref_tasks ..) hm
      have htab : (((s.pageDecref e.frame).mm t).pteTable (va / pageSize / ptrsPerTable)).isSome := by
        rw [hm]; exact pteTable_of_pte he
      refine ⟨hsame.edits (edits_pteSet htab), fun j hj => ?_⟩
      have hj' := congrArg Option.isSome (pteSet_pteTable htab none j)
      rw [isSome_map, isSome_map, hm] at hj'
      rw [pteSet, setMm_mm_self, hm, hj']
      exact hj

theorem pageRemove_ne_none (hva : va ≠ 0) : s.pageRemove t va ≠ none := by
  unfold pageRemove
  rw [if_neg hva]
  split
  · exact nofun
  · exact nofun

theorem pageInsert_entries (hi : s.pageInsert t p va = some (ok, s')) :
    (ok = false → SameEntries s s') ∧ (ok = true → Edits t (va / pageSize) (some ⟨p, true⟩) s s') := by
  unfold pageInsert at hi
  split at hi
  · cases hi
  split at hi
  · next s₁ hw =>
    cases hi
    exact ⟨fun _ => (pageWalk_entries hw).1, nofun⟩
  · next s₁ hw =>
    obtain ⟨hs, htab⟩ := pageWalk_entries hw
    have htab := htab rfl
    simp only [map_eq_some_iff, Prod.mk.injEq] at hi
    obtain ⟨s₃, hr, rfl, rfl⟩ := hi
    -- whatever was mapped there goes first
    obtain ⟨he, htab₃⟩ : Edits t (va / pageSize) none (s₁.atomicInc p) s₃ ∧
        ∀ j, ((s₁.mm t).pteTable j).isSome → ((s₃.mm t).pteTable j).isSome := by
      split at hr
      · exact pageRemove_entries hr
      · next hnone =>
        cases hr
        exact ⟨edits_same (not_isSome_iff_eq_none.mp hnone), fun _ => id⟩
    have hinc : SameEntries s (s₁.atomicInc p) := hs.trans (.of_mm rfl rfl)
    exact ⟨nofun, fun _ => hinc.edits (he.again (edits_pteSet (htab₃ _ htab)))⟩

theorem pageInsert_ne_none (hva : va ≠ 0) : s.pageInsert t p va ≠ none := by
  unfold pageInsert
  rw [if_neg hva]
  split
  · exact nofun
  · next s₁ _ =>
    dsimp only
    split
    · obtain ⟨s₂, hs₂⟩ := ne_none_iff_exists'.mp (pageRemove_ne_none (s := s₁.atomicInc p) (t := t) hva)
      rw [hs₂]
      exact nofun
    · exact nofun

/-- Where there is a table, the page is inserted. -/
theorem pageInsert_of_table (hva : va ≠ 0) (h : ((s.mm t).pteTable (va / pageSize / ptrsPerTable)).isSome) :
    ∃ s', s.pageInsert t p va = some (true, s') := by
  unfold pageInsert
  rw [if_neg hva, pageWalk_of_table h]
  dsimp only
  split
  · obtain ⟨s₂, hs₂⟩ := ne_none_iff_exists'.mp (pageRemove_ne_none (s := s.atomicInc p) (t := t) hva)
    rw [hs₂]
    exact ⟨_, rfl⟩
  · exact ⟨_, rfl⟩

end Paging

/-! ## Areas -/

def Area.Covers (a : Area) (v : Nat) : Prop := a.vmStart ≤ v * pageSize ∧ v * pageSize < a.vmEnd

def Area.copied (a : Area) : Area := Paging.newArea a.vmStart a.length

theorem Area.copied_start {a : Area} (h : pageSize ∣ a.vmStart) : a.copied.vmStart = a.vmStart := roundDown_of_dvd h

/-- The end may be inside a page: `brk` leaves it there. -/
structure Area.Fits (a : Area) : Prop where
  start_pos : 0 < a.vmStart
  start_le : a.vmStart ≤ a.vmEnd
  start_dvd : pageSize ∣ a.vmStart
  end_le : a.vmEnd ≤ kernelBaseAddr

theorem Area.length_of_le {a : Area} (h₁ : a.vmStart ≤ a.vmEnd) (h₂ : a.vmEnd ≤ kernelBaseAddr) :
    a.length = a.vmEnd - a.vmStart := by
  unfold Area.length wrap
  unfold kernelBaseAddr at h₂
  omega

theorem Area.mem_addrs {a : Area} (h : pageSize ∣ a.vmStart) {va : Nat} :
    va ∈ a.addrs ↔ pageSize ∣ va ∧ a.vmStart ≤ va ∧ va < a.vmEnd := by
  obtain ⟨k, hk⟩ := h
  unfold Area.addrs
  simp only [List.mem_map, List.mem_range]
  unfold pageSize at *
  constructor
  · intro ⟨i, hi, e⟩
    exact ⟨⟨k + i, by omega⟩, by omega, by omega⟩
  · intro ⟨⟨n, hn⟩, h₁, h₂⟩
    exact ⟨n - k, by omega, by omega⟩

theorem Area.page_of_addr {a : Area} (h : a.Fits) {va : Nat} (hva : va ∈ a.addrs) :
    va < kernelBaseAddr ∧ a.Covers (va / pageSize) := by
  obtain ⟨h₁, h₂, h₃⟩ := (Area.mem_addrs h.start_dvd).mp hva
  have := h.end_le
  refine ⟨by omega, ?_⟩
  rw [Area.Covers, Nat.div_mul_cancel h₁]
  exact ⟨h₂, h₃⟩

theorem Area.addr_of_page {a : Area} (h : a.Fits) {v : Nat} (hv : a.Covers v) : v * pageSize ∈ a.addrs :=
  (Area.mem_addrs h.start_dvd).mpr ⟨Nat.dvd_mul_left .., hv⟩

namespace Paging

variable {s s' s'' : Paging} {t v p : Nat} {ok : Bool} {va : Nat} {l : List Nat}

/-! ## One space -/

structure Only (t : Nat) (s s' : Paging) : Prop where
  tasks : s'.tasks = s.tasks
  other : ∀ t', t' ≠ t → s'.mm t' = s.mm t'

theorem Only.refl (t : Nat) (s : Paging) : Only t s s := ⟨rfl, fun _ _ => rfl⟩

theorem Only.trans (h : Only t s s') (h' : Only t s' s'') : Only t s s'' :=
  ⟨h'.tasks.trans h.tasks, fun t' ht => (h'.other t' ht).trans (h.other t' ht)⟩

theorem only_setMm (s : Paging) (t : Nat) (sp : Space) : Only t s (s.setMm t sp) :=
  ⟨rfl, fun _ h => setMm_mm_of_ne s sp h⟩

theorem only_pageDecref (s : Paging) (t p : Nat) (sp : Space) : Only t s ((s.pageDecref p).setMm t sp) :=
  ⟨pageDecref_tasks .., fun _ h => by rw [setMm_mm_of_ne _ sp h, pageDecref_mm]⟩

theorem pageRemove_only (h : s.pageRemove t va = some s') : Only t s s' := by
  unfold pageRemove at h
  split at h
  · cases h
  · split at h
    · cases h; exact Only.refl t s
    · cases h; exact only_pageDecref ..

theorem only_of_mm (htasks : s'.tasks = s.tasks) (hmm : s'.mm = s.mm) : Only t s s' :=
  ⟨htasks, fun _ _ => by rw [hmm]⟩

theorem pageAlloc_only {r : Option Nat} (h : s.pageAlloc = (r, s')) : Only t s s' :=
  only_of_mm (pageAlloc_fields h).1 (pageAlloc_fields h).2.1

theorem only_atomicInc (s : Paging) (t p : Nat) : Only t s (s.atomicInc p) := only_of_mm rfl rfl

theorem getPmd_only {i : Nat} (h : s.getPmd t i = (ok, s')) : Only t s s' := by
  unfold getPmd at h
  split at h
  · next ha =>
    cases h
    exact pageAlloc_only ha
  · next ha =>
    cases h
    exact ((pageAlloc_only ha).trans (only_atomicInc ..)).trans (only_setMm ..)

theorem getPte_only {j : Nat} (h : s.getPte t j = (ok, s')) : Only t s s' := by
  unfold getPte at h
  split at h
  · next ha =>
    cases h
    exact pageAlloc_only ha
  · next ha =>
    cases h
    exact ((pageAlloc_only ha).trans (only_atomicInc ..)).trans (only_setMm ..)

theorem pageWalk_only (h : s.pageWalk t v = (ok, s')) : Only t s s' :=
  (pageWalk_rule h (.refl t s) (fun _ hg => getPmd_only hg) fun ho _ _ hg => ho.trans (getPte_only hg)).1

theorem pageInsert_only (h : s.pageInsert t p va = some (ok, s')) : Only t s s' := by
  unfold pageInsert at h
  split at h
  · cases h
  split at h
  · next hw =>
    cases h
    exact pageWalk_only hw
  · next s₁ hw =>
    simp only [map_eq_some_iff, Prod.mk.injEq] at h
    obtain ⟨s₃, hr, -, rfl⟩ := h
    have ho : Only t s (s₁.atomicInc p) := (pageWalk_only hw).trans (only_atomicInc ..)
    split at hr
    · exact (ho.trans (pageRemove_only hr)).trans (only_setMm ..)
    · cases hr
      exact ho.trans (only_setMm ..)

/-! ## The areas -/

structure SameAreas (s s' : Paging) : Prop where
  tasks : s'.tasks = s.tasks
  mmap : ∀ t, (s'.mm t).mmap = (s.mm t).mmap
  startBrk : ∀ t, (s'.mm t).startBrk = (s.mm t).startBrk

theorem SameAreas.trans (h : SameAreas s s') (h' : SameAreas s' s'') : SameAreas s s'' :=
  ⟨h'.tasks.trans h.tasks, fun t => (h'.mmap t).trans (h.mmap t), fun t => (h'.startBrk t).trans (h.startBrk t)⟩

theorem SameEntries.areas (h : SameEntries s s') : SameAreas s s' := ⟨h.tasks, h.mmap, h.startBrk⟩

theorem Edits.areas {e : Option Pte} (h : Edits t v e s s') : SameAreas s s' := ⟨h.tasks, h.mmap, h.startBrk⟩

theorem pageInsert_areas (h : s.pageInsert t p va = some (ok, s')) : SameAreas s s' := by
  cases ok with
  | false => exact ((pageInsert_entries h).1 rfl).areas
  | true => exact ((pageInsert_entries h).2 rfl).areas

theorem moveFrame_areas {dst src : Nat} (h : s.moveFrame t dst src = some s') : SameAreas s s' := by
  simp only [moveFrame, bind_eq_bind, bind_eq_some_iff, Option.pure_def, some.injEq] at h
  obtain ⟨_, _, _, _, rfl⟩ := h
  exact ⟨rfl, fun _ => rfl, fun _ => rfl⟩

theorem doWpFault_areas {e : Pte} (he : (s.mm t).pte (va / pageSize) = some e)
    (h : s.doWpFault t va e = some (ok, s')) : SameAreas s s' := by
  cases doWpFault_cases h with
  | own => exact (edits_pteSet (pteTable_of_pte he)).areas
  | noPage _ ha => exact (pageAlloc_same ha).areas
  | noTable _ ha hi =>
    obtain ⟨htasks, hmmap, hbrk⟩ := (pageAlloc_same ha).areas.trans (pageInsert_areas hi)
    exact ⟨htasks, hmmap, hbrk⟩
  | copy _ ha hi hm hi₄ hr =>
    have h₃ := ((pageAlloc_same ha).areas.trans (pageInsert_areas hi)).trans (moveFrame_areas hm)
    exact (h₃.trans (pageInsert_areas hi₄)).trans (pageRemove_entries hr).1.areas

theorem handlePteFault_areas {a : Area} {write ok : Bool}
    (h : s.handlePteFault t a va write = some (ok, s')) : SameAreas s s' := by
  cases handlePteFault_cases h with
  | wp he hw => exact doWpFault_areas he hw
  | noPage _ ha => exact (pageAlloc_same ha).areas
  | map _ ha hi => exact (pageAlloc_same ha).areas.trans (pageInsert_areas hi)

theorem faultIn_areas {write ok : Bool} {vma : Option Area}
    (h : s.faultIn t va write vma = some (ok, s')) : SameAreas s s' := by
  cases faultIn_cases h with
  | outside => exact (SameEntries.refl s).areas
  | noTable _ _ hw => exact (pageWalk_entries hw).1.areas
  | inside _ _ hw hf => exact (pageWalk_entries hw).1.areas.trans (handlePteFault_areas hf)

/-! ## The loader -/

structure MapsSome (t : Nat) (pages : List Nat) (s s' : Paging) : Prop where
  tasks : s'.tasks = s.tasks
  mmap : ∀ t', (s'.mm t').mmap = (s.mm t').mmap
  startBrk : ∀ t', (s'.mm t').startBrk = (s.mm t').startBrk
  pte : ∀ t' v, (s'.mm t').pte v = (s.mm t').pte v ∨ ((t' = t ∧ v ∈ pages) ∧ ∃ p, (s'.mm t').pte v = some ⟨p, true⟩)

structure Maps (t : Nat) (pages : List Nat) (s s' : Paging) : Prop extends MapsSome t pages s s' where
  mapped : ∀ v ∈ pages, ∃ p, (s'.mm t).pte v = some ⟨p, true⟩

theorem SameEntries.mapsSome (h : SameEntries s s') (pages : List Nat) : MapsSome t pages s s' :=
  ⟨h.tasks, h.mmap, h.startBrk, fun t' v => .inl (h.pte t' v)⟩

theorem MapsSome.cons (h : Edits t v (some ⟨p, true⟩) s s') (h' : MapsSome t l s' s'') :
    MapsSome t (v :: l) s s'' where
  tasks := h'.tasks.trans h.tasks
  mmap t' := (h'.mmap t').trans (h.mmap t')
  startBrk t' := (h'.startBrk t').trans (h.startBrk t')
  pte t' w := by
    rcases h'.pte t' w with hw | ⟨⟨ht, hw⟩, hp⟩
    · rw [hw, h.pte]
      split
      · next e => exact .inr ⟨⟨e.1, e.2 ▸ List.mem_cons_self ..⟩, p, rfl⟩
      · exact .inl rfl
    · exact .inr ⟨⟨ht, List.mem_cons_of_mem _ hw⟩, hp⟩

theorem Maps.cons (h : Edits t v (some ⟨p, true⟩) s s') (h' : Maps t l s' s'') : Maps t (v :: l) s s'' where
  toMapsSome := .cons h h'.toMapsSome
  mapped w hw := by
    by_cases hl : w ∈ l
    · exact h'.mapped w hl
    · obtain rfl : w = v := (List.mem_cons.mp hw).resolve_right hl
      rcases h'.pte t w with he | ⟨-, he⟩
      · rw [he, h.pte, if_pos ⟨rfl, rfl⟩]
        exact ⟨p, rfl⟩
      · exact he

theorem MapsSome.kept (h : MapsSome t l s s') {t' : Nat} (hv : t' ≠ t ∨ v ∉ l) :
    (s'.mm t').pte v = (s.mm t').pte v :=
  (h.pte t' v).resolve_right fun hp => hv.elim (· hp.1.1) (· hp.1.2)

theorem regionAlloc_entries : ∀ {l : List Nat} {s : Paging} {ok : Bool}, s.regionAlloc t l = some (ok, s') →
    MapsSome t (l.map (· / pageSize)) s s' ∧ (ok = true → Maps t (l.map (· / pageSize)) s s')
  | [], _, _, h => by
    cases h
    have hsome := (SameEntries.refl s').mapsSome (t := t) []
    exact ⟨hsome, fun _ => ⟨hsome, nofun⟩⟩
  | va :: l, s, ok, h => by
    unfold regionAlloc at h
    split at h
    · next s₁ ha =>
      cases h
      exact ⟨(pageAlloc_same ha).mapsSome _, nofun⟩
    · next p s₁ ha =>
      simp only [bind_eq_bind, bind_eq_some_iff, Prod.exists] at h
      obtain ⟨ok₁, s₂, hi, h⟩ := h
      cases ok₁ with
      | false =>
        cases h
        exact ⟨((pageAlloc_same ha).trans ((pageInsert_entries hi).1 rfl)).mapsSome _, nofun⟩
      | true =>
        have he := (pageAlloc_same ha).edits ((pageInsert_entries hi).2 rfl)
        obtain ⟨hsome, hall⟩ := regionAlloc_entries h
        exact ⟨.cons he hsome, fun hok => .cons he (hall hok)⟩

theorem insertArea_perm (a : Area) : ∀ l : List Area, (insertArea a l).Perm (a :: l)
  | [] => List.Perm.refl _
  | b :: l => by
    unfold insertArea
    split
    · exact List.Perm.refl _
    · exact ((insertArea_perm a l).cons b).trans (List.Perm.swap a b l)

theorem createVma_spec {addr len : Nat} (hc : s.createVma t addr len = (ok, s')) :
    s'.nref = s.nref ∧ s'.free = s.free ∧ s'.tasks = s.tasks ∧
      ((ok = false ∧ s'.mm = s.mm) ∨
        (ok = true ∧ s'.mm = (s.setMm t
          { s.mm t with mmap := insertArea (newArea addr len) (s.mm t).mmap }).mm)) := by
  obtain ⟨rest, ⟨rfl, rfl⟩ | ⟨rfl, -, rfl⟩⟩ := createVma_cases hc
  · exact ⟨rfl, rfl, rfl, .inl ⟨rfl, rfl⟩⟩
  · exact ⟨rfl, rfl, rfl, .inr ⟨rfl, rfl⟩⟩

end Paging

end MiniOS
