import MiniOS.Process
import MiniOS.PagingSound
import MiniOS.ProcTableSound

/-! # What a process leaves behind -/

namespace MiniOS

open Function List Option

/-! ## Pages that come back -/

namespace Paging

variable {s s' s'' : Paging} {t p : Nat}

structure Drains (t : Nat) (s s' : Paging) : Prop where
  only : Only t s s'
  page : (s'.mm t).page = (s.mm t).page
  free : s.free ⊆ s'.free
  zero : ∀ p, s'.nref p = 0 → s.nref p = 0 ∨ p ∈ s'.free

theorem Drains.refl (t : Nat) (s : Paging) : Drains t s s := ⟨Only.refl t s, rfl, fun _ => id, fun _ => .inl⟩

theorem Drains.trans (h : Drains t s s') (h' : Drains t s' s'') : Drains t s s'' where
  only := h.only.trans h'.only
  page := h'.page.trans h.page
  free := fun _ hp => h'.free (h.free hp)
  zero p hp := (h'.zero p hp).elim (fun h₁ => (h.zero p h₁).imp id fun hf => h'.free hf) .inr

theorem drains_setMm {sp : Space} (hp : sp.page = (s.mm t).page) : Drains t s (s.setMm t sp) :=
  ⟨only_setMm .., by rw [setMm_mm_self, hp], fun _ => id, fun _ => .inl⟩

theorem drains_pageDecref (s : Paging) (t p : Nat) : Drains t s (s.pageDecref p) where
  only := ⟨pageDecref_tasks .., fun _ _ => by rw [pageDecref_mm]⟩
  page := by rw [pageDecref_mm]
  free q hq := by
    rw [pageDecref_free]
    split
    · exact mem_cons_of_mem _ hq
    · exact hq
  zero q hq := by
    rw [pageDecref_nref] at hq
    by_cases e : q = p
    · rw [e, update_self] at hq
      rw [e, pageDecref_free, if_pos hq]
      exact .inr (mem_cons_self ..)
    · rw [update_of_ne e] at hq
      exact .inl hq

theorem pageRemove_drains {va : Nat} (h : s.pageRemove t va = some s') : Drains t s s' := by
  unfold pageRemove at h
  split at h
  · cases h
  · split at h
    · cases h
      exact Drains.refl t s
    · cases h
      exact (drains_pageDecref ..).trans (drains_setMm rfl)

theorem unmapPages_drains {l : List Nat} (h : s.unmapPages t l = some s') : Drains t s s' := by
  induction l generalizing s with
  | nil =>
    cases h
    exact Drains.refl t _
  | cons va l ih =>
    simp only [unmapPages, bind_eq_bind, bind_eq_some_iff] at h
    obtain ⟨s₁, hr, h⟩ := h
    exact (pageRemove_drains hr).trans (ih h)

theorem deleteAllVma_drains {l : List Area} (h : s.deleteAllVma t l = some s') : Drains t s s' := by
  induction l generalizing s with
  | nil =>
    cases h
    exact Drains.refl t _
  | cons a l ih =>
    simp only [deleteAllVma, bind_eq_bind, bind_eq_some_iff] at h
    obtain ⟨s₁, hu, h⟩ := h
    have hset : Drains t s₁ (s₁.setMm t { s₁.mm t with mmap := l }) := drains_setMm rfl
    exact (unmapPages_drains hu).trans (hset.trans (ih h))

theorem freePte_drains (s : Paging) (t j : Nat) : Drains t s (s.freePte t j) := by
  unfold freePte
  split
  · exact Drains.refl t s
  · exact (drains_pageDecref ..).trans (drains_setMm rfl)

theorem foldl_drains {f : Paging → Nat → Paging} (hf : ∀ s k, Drains t s (f s k)) (l : List Nat) (s : Paging) :
    Drains t s (l.foldl f s) := by
  induction l generalizing s with
  | nil => exact Drains.refl t s
  | cons k l ih => exact (hf s k).trans (ih _)

theorem freePmd_drains (s : Paging) (t i : Nat) : Drains t s (s.freePmd t i) := by
  unfold freePmd
  split
  · exact Drains.refl t s
  · have h := foldl_drains (fun s k => freePte_drains s t (i * ptrsPerTable + k)) (List.range ptrsPerTable) s
    exact (h.trans (drains_pageDecref ..)).trans (drains_setMm rfl)

theorem exitMm_frees (h : s.exitMm t = some s') :
    s'.tasks = s.tasks.erase t ∧ (∀ t', t' ≠ t → s'.mm t' = s.mm t') ∧ (s.mm t).page ∈ s'.free ∧
      ∀ p, s'.nref p = 0 → s.nref p = 0 ∨ p ∈ s'.free := by
  simp only [exitMm, exitAreas, bind_eq_bind, bind_eq_some_iff, Option.pure_def, some.injEq] at h
  obtain ⟨s₁, hd, rfl⟩ := h
  have hd := (deleteAllVma_drains hd).trans (foldl_drains (fun s i => freePmd_drains s t i)
    (List.range userPgds) s₁)
  generalize (List.range userPgds).foldl (fun s i => s.freePmd t i) s₁ = s₂ at hd ⊢
  refine ⟨by rw [← hd.only.tasks]; rfl, hd.only.other, ?_, fun p hp => (hd.zero p hp).imp id (mem_cons_of_mem _)⟩
  rw [← hd.page]
  exact mem_cons_self ..

theorem refs_row {α : Type} [DecidableEq α] {f : Space → Nat → Option α} {n : Nat} (ht : t ∈ s.tasks)
    (htasks : s'.tasks = s.tasks.erase t) (hm : ∀ t', t' ≠ t → s'.mm t' = s.mm t') (q : α) :
    refs (s.tasks ×ˢ Finset.range n) (fun x => f (s.mm x.1) x.2) q =
      refs (s'.tasks ×ˢ Finset.range n) (fun x => f (s'.mm x.1) x.2) q + refs (Finset.range n) (f (s.mm t)) q := by
  have h := refs_insert_row (p := q) (K := Finset.range n) (f := fun x => f (s.mm x.1) x.2)
    (Finset.notMem_erase t s.tasks)
  rw [Finset.insert_erase ht] at h
  rw [h, htasks]
  congr 1
  refine refs_congr fun x hx => ?_
  rw [hm x.1 (Finset.ne_of_mem_erase (Finset.mem_product.mp hx).1)]

theorem exitMm_back (h : s.Good) (ht : t ∈ s.tasks) (he : s.exitMm t = some s') :
    s'.free.Nodup ∧ (s.mm t).page ∈ s'.free ∧
      (∀ p, 0 < refs (Finset.range userPages) (s.mm t).frame p →
        s'.nref p = s.nref p - refs (Finset.range userPages) (s.mm t).frame p) ∧
      (∀ p, 0 < s.nref p → s'.userRefs p + s'.tableRefs p = 0 → p ∈ s'.free) ∧
      ∀ p, s.tableRefs p = s'.tableRefs p + (refs (Finset.range userPgds)
        (fun i => ((s.mm t).pgd i).map PmdTable.page) p +
        refs (Finset.range (userPgds * ptrsPerTable)) (fun j => ((s.mm t).pteTable j).map PteTable.page) p) := by
  obtain ⟨htasks, hm, hpage, hzero⟩ := exitMm_frees he
  have h' := exitAreas_good h ht (.refl _) he
  have huser : ∀ p, s.userRefs p = s'.userRefs p + refs (Finset.range userPages) (s.mm t).frame p :=
    refs_row (f := fun sp => sp.frame) ht htasks hm
  have htable : ∀ p, s.tableRefs p = s'.tableRefs p +
      (refs (Finset.range userPgds) (fun i => ((s.mm t).pgd i).map PmdTable.page) p +
        refs (Finset.range (userPgds * ptrsPerTable)) (fun j => ((s.mm t).pteTable j).map PteTable.page) p) :=
        fun p => by
    have h₁ : s.pmdRefs p = s'.pmdRefs p + _ :=
      refs_row (f := fun sp i => (sp.pgd i).map PmdTable.page) ht htasks hm p
    have h₂ : s.pteRefs p = s'.pteRefs p + _ :=
      refs_row (f := fun sp j => (sp.pteTable j).map PteTable.page) ht htasks hm p
    rw [tableRefs, tableRefs, h₁, h₂]
    omega
  refine ⟨h'.inv.nodup, hpage, fun p hp => ?_, fun p hp hz => ?_, htable⟩
  · have h₁ := h.inv.nref p
    have h₂ := h'.inv.nref p
    have h₃ := huser p
    have h₄ := htable p
    have h₅ := (h.inv.loose_of_pos (p := p) (by omega)).2
    rw [hits_none] at h₁ h₂
    omega
  · have h₂ := h'.inv.nref p
    rw [hits_none] at h₂
    exact (hzero p (by omega)).resolve_left (by omega)

end Paging

namespace Kernel

variable {s s' s₁ : Kernel} {t : Nat} {mem : TaskMem} {i : Nat} {r : Int} {old : Task}

/-- An exit gives back the pages of a task whose pages lie in its areas. -/
theorem pagesBack_of_exitMm {g : Paging} (h : s.paging.Good) (ht : s.mm t ∈ s.paging.tasks)
    (he : s.paging.exitMm (s.mm t) = some g) (hg : s'.paging = g) : s.PagesBack t s' := by
  subst hg
  obtain ⟨hn, hpage, hshared, hfree, htable⟩ := Paging.exitMm_back h ht he
  obtain ⟨htasks, hm, -⟩ := Paging.exitMm_frees he
  refine ⟨fun p hp hown => ?_, fun p hp => ?_, count_eq_one_of_mem hn hpage, hshared⟩
  · -- nobody else maps the frame, and it is no table
    have hrow := Paging.refs_row (f := fun sp => sp.frame) (n := userPages) ht htasks hm p
    have hu : s'.paging.userRefs p = 0 := refs_eq_zero.mpr fun x hx hf => by
      obtain ⟨h₁, h₂⟩ := Finset.mem_product.mp hx
      rw [htasks] at h₁
      have hne := Finset.ne_of_mem_erase h₁
      rw [hm _ hne] at hf
      have := hown x.1 (Finset.mem_of_mem_erase h₁) hne
      exact refs_eq_zero.mp this x.2 h₂ hf
    have hpos : 0 < s.paging.userRefs p := by
      show 0 < refs _ _ p
      unfold mappings at hp
      omega
    have hloose := (h.inv.loose_of_pos hpos).2
    have h₁ := htable p
    have h₂ := h.inv.nref p
    rw [hits_none] at h₂
    exact count_eq_one_of_mem hn (hfree p (by omega) (by omega))
  · have hown : 0 < refs (Finset.range userPgds) (fun i => ((s.paging.mm (s.mm t)).pgd i).map PmdTable.page) p +
        refs (Finset.range (userPgds * ptrsPerTable))
          (fun j => ((s.paging.mm (s.mm t)).pteTable j).map PteTable.page) p := by
      rcases hp with ⟨i, hi, hp⟩ | ⟨j, hj, hp⟩
      · exact Nat.add_pos_left (refs_pos.mpr ⟨i, Finset.mem_range.mpr hi, hp⟩) _
      · exact Nat.add_pos_right _ (refs_pos.mpr ⟨j, Finset.mem_range.mpr hj, hp⟩)
    have h₁ := htable p
    have h₂ := h.inv.nref p
    have h₃ := h.inv.kern p
    have h₄ := (h.inv.apart p (by omega)).1
    have h₅ := Paging.refs_row (f := fun sp => sp.frame) (n := userPages) ht htasks hm p
    have h₆ : s'.paging.userRefs p ≤ s.paging.userRefs p := by
      show refs _ _ p ≤ refs _ _ p
      omega
    rw [hits_none] at h₂
    exact count_eq_one_of_mem hn (hfree p (by omega) (by omega))

/-! ## The process table -/

structure Inv (s : Kernel) : Prop where
  apart : (s.sched.live.flatMap s.objects).Nodup
  owned : ∀ t ∈ s.sched.live, ∀ a ∈ s.objects t, a ∈ s.heap
  pids : PidsOk s.sched s.map

structure Kept (s s' : Kernel) : Prop where
  live : s'.sched.live = s.sched.live
  pidmap : s'.sched.pidmap = s.sched.pidmap
  used : ∀ i, s'.map.used i = s.map.used i
  nrFree : s'.map.nrFree = s.map.nrFree
  pid : ∀ t ∈ s.sched.live, (s'.sched.task t).pid = (s.sched.task t).pid
  objects : ∀ t ∈ s.sched.live, s'.objects t = s.objects t

theorem Inv.kept (h : s.Inv) (hk : s.Kept s') (hheap : ∀ t ∈ s.sched.live, ∀ a ∈ s.objects t, a ∈ s'.heap) :
    s'.Inv where
  apart := by
    have e : s'.sched.live.flatMap s'.objects = s.sched.live.flatMap s.objects := by
      rw [hk.live]
      exact flatMap_congr hk.objects
    rw [e]
    exact h.apart
  owned t ht a ha := by
    rw [hk.live] at ht
    rw [hk.objects t ht] at ha
    exact hheap t ht a ha
  pids := h.pids.kept hk.live hk.pidmap hk.pid hk.used (hk.nrFree ▸ h.pids.nrFree)

structure Begun (s : Kernel) (t i : Nat) (s₁ : Kernel) : Prop where
  live : s₁.sched.live = s.sched.live
  pidmap : s₁.sched.pidmap = s.sched.pidmap
  links : s₁.sched.links = s.sched.links
  task : ∀ a, a ≠ t → s₁.sched.task a = s.sched.task a
  objects : ∀ a, a ≠ t → s₁.objects a = s.objects a
  pid : (s₁.sched.task t).pid = i
  lt : i < bitsPerPage
  free : s.map.used i = false
  some : s.map.nrFree ≠ 0
  used : ∀ j, s₁.map.used j = if j = i then true else s.map.used j
  nrFree : s₁.map.nrFree = wsub s.map.nrFree 1

structure Within (t : Nat) (s s' : Kernel) : Prop where
  sched : s'.sched = s.sched
  map : s'.map = s.map
  objects : ∀ a, a ≠ t → s'.objects a = s.objects a

theorem Within.trans {s'' : Kernel} (h : Within t s s') (h' : Within t s' s'') : Within t s s'' :=
  ⟨h'.sched.trans h.sched, h'.map.trans h.map, fun a ha => (h'.objects a ha).trans (h.objects a ha)⟩

theorem Begun.then (h : s.Begun t i s₁) (hw : Within t s₁ s') : s.Begun t i s' where
  live := hw.sched ▸ h.live
  pidmap := hw.sched ▸ h.pidmap
  links := hw.sched ▸ h.links
  task := hw.sched ▸ h.task
  objects a ha := (hw.objects a ha).trans (h.objects a ha)
  pid := hw.sched ▸ h.pid
  lt := h.lt
  free := h.free
  some := h.some
  used := hw.map ▸ h.used
  nrFree := hw.map ▸ h.nrFree

theorem Begun.undo (h : s.Inv) (hb : s.Begun t i s₁) (ht : t ≠ 0) (htl : t ∉ s.sched.live) :
    s.Kept (s₁.exitTask t) ∧ (s₁.exitTask t).sched.links = s.sched.links ∧ (s₁.exitTask t).heap = s₁.heap.erase t ∧
      (s₁.exitTask t).paging = s₁.paging ∧ (s₁.exitTask t).fCount = s₁.fCount := by
  have hne : ∀ {a}, a ∈ s.sched.live → a ≠ t := fun ha e => htl (e ▸ ha)
  have hi : (0 : Int) ≤ i := Int.natCast_nonneg i
  have e : s₁.exitTask t = { s₁ with
      sched := s₁.sched.exitTask t
      map := s₁.map.freePidmap i
      heap := s₁.heap.erase t } := by
    rw [exitTask, if_neg ht]
    simp only [hb.pid, if_pos hi, kfree]
  rw [e]
  refine ⟨⟨?_, ?_, fun j => ?_, ?_, fun a ha => ?_, fun a ha => hb.objects a (hne ha)⟩, hb.links, rfl, rfl, rfl⟩
  · show s₁.sched.live.erase t = _
    rw [hb.live, erase_of_not_mem htl]
  · -- a free pid has no task
    have hz : s.sched.pidmap i = 0 := h.pids.of_free hb.lt hb.free
    simp only [Sched.exitTask, hb.pid, if_pos hi, hb.pidmap]
    exact hz ▸ update_eq_self ..
  · show (s₁.map.freePidmap i).used j = _
    rw [Pidmap.freePidmap_used hb.lt, hb.used]
    split
    · next e => rw [e, hb.free]
    · rfl
  · have h₁ := h.pids.nrFree
    have h₂ := hb.some
    show wrap (s₁.map.nrFree + 1) = _
    rw [hb.nrFree, wsub_of_le (by omega) h₁, wrap_of_lt (by omega)]
    omega
  · show (s₁.sched.task a).pid = _
    rw [hb.task a (hne ha)]

/-! ## What the parts of `do_fork` do -/

theorem allocTask_cases {a child : Nat} (h : s.allocTask a = (r, child, s₁)) :
    (a = 0 ∧ r = -enomem ∧ child = 0 ∧ s₁ = s) ∨
      (a ≠ 0 ∧ s₁.heap = insert a s.heap ∧ s₁.paging = s.paging ∧ s₁.fCount = s.fCount ∧
        ((¬ s.map.Available ∧ r = -emproc ∧ child = 0 ∧ s₁.map = s.map ∧
          s₁.sched = s.sched.setTask a (s₁.sched.task a) ∧ ∀ b, b ≠ a → s₁.objects b = s.objects b) ∨
        s.map.Available ∧ r = 0 ∧ child = a ∧ ∃ i, s.Begun a i s₁)) := by
  unfold allocTask kmalloc at h
  by_cases ha : a = 0
  · rw [if_pos ha] at h
    cases h
    exact .inl ⟨ha, rfl, rfl, rfl⟩
  rw [if_neg ha] at h
  dsimp only at h
  refine .inr ⟨ha, ?_⟩
  cases hp : s.map.allocPidmap with | mk pid map
  rw [hp] at h
  dsimp only at h
  rcases Pidmap.allocPidmap_cases hp with ⟨rfl, rfl, hno⟩ | ⟨i, rfl, hi, -, -, hfree, hav, hn, -, hu⟩
  · rw [if_pos (by decide)] at h
    cases h
    refine ⟨rfl, rfl, rfl, .inl ⟨hno, rfl, rfl, rfl, ?_, fun b hb => ?_⟩⟩
    · simp [Sched.setTask]
    · simp [objects, update_of_ne hb]
  · rw [if_neg (by omega)] at h
    cases h
    refine ⟨rfl, rfl, rfl, .inr ⟨hav, rfl, rfl, i, rfl, rfl, rfl, fun b hb => ?_, fun b hb => ?_, ?_, hi,
      hfree, hav.1, hu, hn⟩⟩
    · simp [Sched.setTask, update_of_ne hb]
    · simp [objects, update_of_ne hb]
    · simp [Sched.setTask]

theorem pageAlloc_cases {o : Option Nat} {g : Paging} (h : s.paging.pageAlloc = (o, g)) :
    (o = none ∧ ¬ s.HasPage ∧ g.nref = s.paging.nref ∧ g.free = s.paging.free ∧ g.tasks = s.paging.tasks ∧
      g.mm = s.paging.mm) ∨ (∃ p, o = some p) ∧ s.HasPage := by
  unfold Paging.pageAlloc at h
  split at h
  · next ha =>
    cases h
    refine .inl ⟨rfl, fun ⟨p, rest, e, _⟩ => ?_, rfl, rfl, rfl, rfl⟩
    rw [ha] at e
    cases e
  · next p rest ha =>
    split at h
    · next hp =>
      cases h
      exact .inr ⟨⟨p, rfl⟩, p, rest, ha, hp⟩
    · next hp =>
      cases h
      refine .inl ⟨rfl, fun ⟨q, rest', e, hq⟩ => hp ?_, rfl, rfl, rfl, rfl⟩
      rw [ha] at e
      cases e
      exact hq

theorem taskSetVm_cases {a brk : Nat} (ha : a ≠ 0 → a ∉ s.heap) (h : s.taskSetVm t a brk = (r, s')) :
    Within t s s' ∧ s'.fs = s.fs ∧ s'.files = s.files ∧ s'.fCount = s.fCount ∧
      ((r = -enomem ∧ (a = 0 ∨ ¬ s.HasPage) ∧ s'.heap = s.heap ∧ s'.paging.nref = s.paging.nref ∧
          s'.paging.free = s.paging.free ∧ s'.paging.tasks = s.paging.tasks ∧ s'.paging.mm = s.paging.mm) ∨
        r = 0 ∧ a ≠ 0 ∧ s.HasPage ∧ s'.heap = insert a s.heap ∧ s'.mm t = a) := by
  unfold taskSetVm kmalloc at h
  by_cases hz : a = 0
  · rw [if_pos hz] at h
    cases h
    refine ⟨⟨rfl, rfl, fun b hb => ?_⟩, rfl, rfl, rfl, .inl ⟨rfl, .inl hz, rfl, rfl, rfl, rfl, rfl⟩⟩
    simp [objects, update_of_ne hb]
  rw [if_neg hz] at h
  dsimp only at h
  cases hg : s.paging.pageAlloc with | mk o g
  rw [hg] at h
  rcases pageAlloc_cases hg with ⟨rfl, hno, hsame⟩ | ⟨⟨p, rfl⟩, hpage⟩
  · cases h
    refine ⟨⟨rfl, rfl, fun b hb => ?_⟩, rfl, rfl, rfl, .inl ⟨rfl, .inr hno, Finset.erase_insert (ha hz), hsame⟩⟩
    simp [objects, kfree, update_of_ne hb]
  · cases h
    refine ⟨⟨rfl, rfl, fun b hb => ?_⟩, rfl, rfl, rfl, .inr ⟨rfl, hz, hpage, rfl, update_self ..⟩⟩
    simp [objects, update_of_ne hb]

theorem incCounts_within (h : s.incCounts = some s') :
    Within t s s' ∧ s'.heap = s.heap ∧ s'.paging = s.paging ∧ s'.mm = s.mm ∧ s'.fs = s.fs ∧ s'.files = s.files := by
  obtain ⟨f, -, rfl⟩ := map_eq_some_iff.mp h
  exact ⟨⟨rfl, rfl, fun _ _ => rfl⟩, rfl, rfl, rfl, rfl, rfl⟩

theorem copyFiles_cases {fs files : Nat} (hfs : fs ≠ 0 → fs ∉ s.heap)
    (h : s.copyFiles t fs files = some (r, s')) :
    Within t s s' ∧ s'.paging = s.paging ∧ s'.mm = s.mm ∧
      ((r = -enomem ∧ (fs = 0 ∨ files = 0) ∧ s'.heap = s.heap) ∨
        r = 0 ∧ fs ≠ 0 ∧ files ≠ 0 ∧ s'.heap = insert files (insert fs s.heap) ∧ s'.fs t = fs ∧
        s'.files t = files) := by
  unfold copyFiles kmalloc at h
  by_cases hz : fs = 0
  · rw [if_pos hz] at h
    cases h
    exact ⟨⟨rfl, rfl, fun _ _ => rfl⟩, rfl, rfl, .inl ⟨rfl, .inl hz, rfl⟩⟩
  rw [if_neg hz] at h
  dsimp only at h
  by_cases hz' : files = 0
  · rw [if_pos hz'] at h
    cases h
    exact ⟨⟨rfl, rfl, fun _ _ => rfl⟩, rfl, rfl, .inl ⟨rfl, .inr hz', Finset.erase_insert (hfs hz)⟩⟩
  rw [if_neg hz'] at h
  obtain ⟨s₁, hc, e⟩ := map_eq_some_iff.mp h
  cases e
  obtain ⟨hw, hheap, hp, hm, -⟩ := incCounts_within (t := t) hc
  refine ⟨⟨hw.sched, hw.map, fun b hb => ?_⟩, hp, hm, .inr ⟨rfl, hz, hz', hheap, update_self .., update_self ..⟩⟩
  have := hw.objects b hb
  simpa [objects, update_of_ne hb] using this

theorem exitMm_within {m : Nat} (h : s.exitMm m = some s') : Within t s s' ∧ s'.heap = s.heap.erase m := by
  obtain ⟨g, -, rfl⟩ := map_eq_some_iff.mp h
  exact ⟨⟨rfl, rfl, fun _ _ => rfl⟩, rfl⟩

theorem copyTask_within {src dest : Nat} (h : s.copyTask src dest = (r, s')) :
    Within t s s' ∧ s'.heap = s.heap ∧ s'.mm = s.mm ∧ s'.fs = s.fs ∧ s'.files = s.files ∧
    (r = 0 ∨ r = -enomem) := by
  unfold copyTask at h
  cases h
  refine ⟨⟨rfl, rfl, fun _ _ => rfl⟩, rfl, rfl, rfl, rfl, ?_⟩
  split
  · exact .inl rfl
  · exact .inr rfl

structure Born (s : Kernel) (mem : TaskMem) (i : Nat) (s' : Kernel) : Prop where
  live : s'.sched.live = mem.task :: s.sched.live
  pidmap : s'.sched.pidmap = update s.sched.pidmap i mem.task
  task : ∀ a, a ≠ mem.task → s'.sched.task a = s.sched.task a
  objects : ∀ a, a ≠ mem.task → s'.objects a = s.objects a
  own : s'.objects mem.task = [mem.task, mem.mm, mem.fs, mem.files]
  pid : (s'.sched.task mem.task).pid = i
  lt : i < bitsPerPage
  free : s.map.used i = false
  used : ∀ j, s'.map.used j = if j = i then true else s.map.used j
  nrFree : s'.map.nrFree < 2 ^ 32
  heap : ∀ a, a ∈ s'.heap ↔ a ∈ [mem.task, mem.mm, mem.fs, mem.files] ∨ a ∈ s.heap
  nonzero : ∀ a ∈ [mem.task, mem.mm, mem.fs, mem.files], a ≠ 0

theorem Inv.fresh (h : s.Inv) (ht : t ≠ 0 → t ∉ s.heap) : t ∉ s.sched.live := fun hl =>
  ht (h.pids.proper t hl) (h.owned t hl t (mem_cons_self ..))

theorem Inv.born (h : s.Inv) (hf : s.Fresh mem) (hb : s.Born mem i s') : s'.Inv := by
  have htl := h.fresh (hf.notLive mem.task (mem_cons_self ..))
  have hne : ∀ {a}, a ∈ s.sched.live → a ≠ mem.task := fun ha e => htl (e ▸ ha)
  have hnew : ∀ a ∈ [mem.task, mem.mm, mem.fs, mem.files], a ∉ s.heap :=
    fun a ha => hf.notLive a ha (hb.nonzero a ha)
  have hlive : ∀ {a}, a ∈ s'.sched.live → a = mem.task ∨ a ∈ s.sched.live := fun ha => mem_cons.mp (hb.live ▸ ha)
  refine ⟨?_, fun a ha o ho => ?_, ?_⟩
  · rw [hb.live, flatMap_cons, hb.own, flatMap_congr fun a ha => hb.objects a (hne ha)]
    refine nodup_append.mpr ⟨hf.apart.imp_of_mem fun ha _ hab => hab (hb.nonzero _ ha), h.apart,
      fun a ha b hb' e => ?_⟩
    obtain ⟨t, ht, hb'⟩ := mem_flatMap.mp hb'
    exact hnew a ha (e ▸ h.owned t ht b hb')
  · rw [hb.heap]
    rcases hlive ha with rfl | ha
    · exact .inl (hb.own ▸ ho)
    · rw [hb.objects a (hne ha)] at ho
      exact .inr (h.owned a ha o ho)
  · exact h.pids.born (hb.nonzero _ (mem_cons_self ..)) htl hb.lt hb.free hb.live hb.pidmap hb.pid
      (fun a ha => congrArg Task.pid (hb.task a (hne ha))) hb.used hb.nrFree

inductive ForkEnd (s : Kernel) (mem : TaskMem) (r : Int) (s' : Kernel) : Prop
  | noTask (h : mem.task = 0) (hr : r = -enomem) (hs : s' = s)
  | noPid (ht : mem.task ≠ 0) (hp : ¬ s.map.Available) (hr : r = -emproc) (hk : s.Kept s')
      (heap : s'.heap = insert mem.task s.heap)
  | noMm (ht : mem.task ≠ 0) (hp : s.map.Available) (hm : mem.mm = 0 ∨ ¬ s.HasPage) (hr : r = -enomem)
      (hk : s.Kept s') (hs : s.Unchanged s')
  | noFiles (ht : mem.task ≠ 0) (hp : s.map.Available) (hm : mem.mm ≠ 0) (hg : s.HasPage) (hr : r = -enomem)
      (hk : s.Kept s') (heap : s'.heap = insert mem.mm s.heap)
  | noCopy (ht : mem.task ≠ 0) (hp : s.map.Available) (hm : mem.mm ≠ 0) (hg : s.HasPage) (hr : r = -enomem)
      (hk : s.Kept s') (hf : mem.files ≠ 0) (heap : s'.heap = insert mem.files (insert mem.fs s.heap))
  | done (i : Nat) (hr : r = i) (hb : s.Born mem i s')

theorem kept_of_setTask {a : Nat} {x : Task} (ha : a ∉ s.sched.live) (hs : s'.sched = s.sched.setTask a x)
    (hm : s'.map = s.map) (ho : ∀ b, b ≠ a → s'.objects b = s.objects b) : s.Kept s' := by
  have hne : ∀ {b}, b ∈ s.sched.live → b ≠ a := fun hb e => ha (e ▸ hb)
  refine ⟨by rw [hs]; rfl, by rw [hs]; rfl, fun _ => by rw [hm], by rw [hm], fun b hb => ?_,
    fun b hb => ho b (hne hb)⟩
  rw [hs]
  exact congrArg Task.pid (update_of_ne (hne hb) ..)

theorem Begun.born (h : s.Begun mem.task i s₁) (hlive : s'.sched.live = mem.task :: s₁.sched.live)
    (hpidmap : s'.sched.pidmap = update s₁.sched.pidmap i mem.task) (htask : s'.sched.task = s₁.sched.task)
    (hmap : s'.map = s₁.map) (hobj : ∀ a, s'.objects a = s₁.objects a)
    (hown : s₁.objects mem.task = [mem.task, mem.mm, mem.fs, mem.files])
    (hheap : ∀ a, a ∈ s'.heap ↔ a ∈ [mem.task, mem.mm, mem.fs, mem.files] ∨ a ∈ s.heap)
    (hz : ∀ a ∈ [mem.task, mem.mm, mem.fs, mem.files], a ≠ 0) : s.Born mem i s' where
  live := hlive.trans (by rw [h.live])
  pidmap := hpidmap.trans (by rw [h.pidmap])
  task a ha := by rw [htask, h.task a ha]
  objects a ha := (hobj a).trans (h.objects a ha)
  own := (hobj _).trans hown
  pid := by rw [htask, h.pid]
  lt := h.lt
  free := h.free
  used := hmap ▸ h.used
  nrFree := by
    rw [hmap, h.nrFree]
    exact wrap_lt _
  heap := hheap
  nonzero := hz

theorem Fresh.facts (hf : s.Fresh mem) :
    (mem.task ≠ 0 → mem.task ∉ s.heap ∧ mem.mm ≠ mem.task ∧ mem.fs ≠ mem.task ∧ mem.files ≠ mem.task) ∧
      (mem.mm ≠ 0 → mem.mm ∉ s.heap ∧ mem.fs ≠ mem.mm ∧ mem.files ≠ mem.mm) ∧
      (mem.fs ≠ 0 → mem.fs ∉ s.heap) ∧ (mem.files ≠ 0 → mem.files ∉ s.heap) := by
  have hnew := hf.notLive
  have hap := hf.apart
  simp only [mem_cons, not_mem_nil, or_false, forall_eq_or_imp, forall_eq] at hnew
  simp only [pairwise_cons, mem_cons, not_mem_nil, or_false, forall_eq_or_imp, forall_eq] at hap
  obtain ⟨h₁, h₂, h₃, h₄⟩ := hnew
  obtain ⟨⟨a₁, a₂, a₃⟩, ⟨b₁, b₂⟩, -⟩ := hap
  exact ⟨fun hz => ⟨h₁ hz, (a₁ hz).symm, (a₂ hz).symm, (a₃ hz).symm⟩,
    fun hz => ⟨h₂ hz, (b₁ hz).symm, (b₂ hz).symm⟩, h₃, h₄⟩

section
variable {mem : TaskMem} {r : Int} {i : Nat} (h : s.Inv) (hf : s.Fresh mem) (ht : mem.task ≠ 0)
    (hav : s.map.Available)
include h hf ht hav

theorem forkSpace_cases (hb : s.Begun mem.task i s₁) (hg : s.HasPage) (hm : mem.mm ≠ 0) (hfs : mem.fs ≠ 0)
    (hfiles : mem.files ≠ 0)
    (hheap : s₁.heap = insert mem.files (insert mem.fs (insert mem.mm (insert mem.task s.heap))))
    (hown : s₁.objects mem.task = [mem.task, mem.mm, mem.fs, mem.files])
    (hd : s₁.forkSpace mem.task = some (r, s')) : s.ForkEnd mem r s' := by
  unfold forkSpace at hd
  cases hcp : s₁.copyTask s₁.curtask mem.task with | mk r₂ s₂
  rw [hcp] at hd
  dsimp only at hd
  obtain ⟨hw, hheap₂, hm₂, hfs₂, hfiles₂, hr⟩ := copyTask_within (t := mem.task) hcp
  have hb₂ := hb.then hw
  have hown₂ : s₂.objects mem.task = [mem.task, mem.mm, mem.fs, mem.files] := by
    rw [← hown, objects, objects, hm₂, hfs₂, hfiles₂]
  rw [← hheap₂] at hheap
  rcases hr with rfl | rfl
  · rw [if_neg (by decide)] at hd
    cases hd
    refine .done i hb₂.pid (hb₂.born rfl ?_ rfl rfl (fun _ => rfl) hown₂ (fun a => ?_) ?_)
    · show update _ (s₂.sched.task mem.task).pid _ = _
      rw [hb₂.pid]
      rfl
    · show a ∈ s₂.heap ↔ _
      rw [hheap]
      simp only [Finset.mem_insert, mem_cons, not_mem_nil, or_false]
      grind
    · simp only [mem_cons, not_mem_nil, or_false, forall_eq_or_imp, forall_eq]
      exact ⟨ht, hm, hfs, hfiles⟩
  · rw [if_pos (by decide)] at hd
    obtain ⟨s₃, he, e⟩ := map_eq_some_iff.mp hd
    cases e
    obtain ⟨hw₃, hheap₃⟩ := exitMm_within (t := mem.task) he
    obtain ⟨hmem, hmt, hft, hft'⟩ := hf.facts.1 ht
    obtain ⟨hmm, hfm, hfm'⟩ := hf.facts.2.1 hm
    obtain ⟨hk, -, hheap₄, -⟩ := Begun.undo h (hb₂.then hw₃) ht (h.fresh fun _ => hmem)
    refine .noCopy ht hav hm hg rfl hk hfiles ?_
    have hmm₂ : s₂.mm mem.task = mem.mm := (List.cons.inj (List.cons.inj hown₂).2).1
    have hmm' : mem.mm ∉ insert mem.task s.heap := fun hm' => (Finset.mem_insert.mp hm').elim hmt hmm
    rw [hheap₄, hheap₃, hmm₂, hheap, Finset.erase_insert_of_ne hfm', Finset.erase_insert_of_ne hfm,
      Finset.erase_insert hmm',
      Finset.erase_insert_of_ne hft', Finset.erase_insert_of_ne hft, Finset.erase_insert hmem]

theorem forkFiles_cases {cloneVm : Bool} (hb : s.Begun mem.task i s₁) (hg : s.HasPage) (hm : mem.mm ≠ 0)
    (hheap : s₁.heap = insert mem.mm (insert mem.task s.heap)) (hmm₁ : s₁.mm mem.task = mem.mm)
    (hd : ((s₁.copyFiles mem.task mem.fs mem.files).bind fun (r, s) =>
      if r < 0 then some (r, s.exitTask mem.task) else if cloneVm then none else s.forkSpace mem.task) =
        some (r, s')) :
    s.ForkEnd mem r s' := by
  obtain ⟨⟨r₂, s₂⟩, hc, hd⟩ := bind_eq_some_iff.mp hd
  dsimp only at hd
  obtain ⟨hmem, hmt, hft, hft'⟩ := hf.facts.1 ht
  obtain ⟨hmm, hfm, hfm'⟩ := hf.facts.2.1 hm
  have hfs : mem.fs ≠ 0 → mem.fs ∉ s₁.heap := fun hz hin => by
    rw [hheap, Finset.mem_insert, Finset.mem_insert] at hin
    exact hin.elim hfm fun hin => hin.elim hft (hf.facts.2.2.1 hz)
  obtain ⟨hw, -, hm₂, ⟨rfl, -, hheap₂⟩ | ⟨rfl, hfz, hfz', hheap₂, hfs₂, hfiles₂⟩⟩ := copyFiles_cases hfs hc
  · cases hd
    obtain ⟨hk, -, hheap₃, -⟩ := Begun.undo h (hb.then hw) ht (h.fresh fun _ => hmem)
    refine .noFiles ht hav hm hg rfl hk ?_
    rw [hheap₃, hheap₂, hheap, Finset.erase_insert_of_ne hmt, Finset.erase_insert hmem]
  · rw [if_neg (by decide)] at hd
    split at hd
    · cases hd
    · refine forkSpace_cases h hf ht hav (hb.then hw) hg hm hfz hfz' (hheap₂.trans (by rw [hheap])) ?_ hd
      rw [objects, hm₂, hmm₁, hfs₂, hfiles₂]

end

theorem doFork_cases {cloneVm : Bool} (h : s.Inv) (hf : s.Fresh mem)
    (hd : s.doFork cloneVm mem = some (r, s')) : s.ForkEnd mem r s' := by
  unfold doFork at hd
  cases ha : s.allocTask mem.task with | mk r₁ p
  obtain ⟨child, s₁⟩ := p
  rw [ha] at hd
  dsimp only at hd
  rcases allocTask_cases ha with ⟨hz, rfl, rfl, rfl⟩ |
    ⟨hz, hheap₁, hg₁, hc₁, ⟨hno, rfl, rfl, hmap, hsched, hobj⟩ | ⟨hav, rfl, rfl, i, hb⟩⟩
  · cases hd
    exact .noTask hz rfl rfl
  · cases hd
    exact .noPid hz hno rfl (kept_of_setTask (h.fresh fun _ => (hf.facts.1 hz).1) hsched hmap hobj) hheap₁
  rw [if_neg (by decide)] at hd
  cases hv : s₁.taskSetVm mem.task mem.mm (s₁.paging.mm (s₁.mm s₁.curtask)).startBrk with | mk r₂ s₂
  rw [hv] at hd
  dsimp only at hd
  obtain ⟨hmem, hmt, -⟩ := hf.facts.1 hz
  have hpage : s₁.HasPage ↔ s.HasPage := by rw [HasPage, HasPage, hg₁]
  have hmm : mem.mm ≠ 0 → mem.mm ∉ s₁.heap := fun hne hin => by
    rw [hheap₁, Finset.mem_insert] at hin
    exact hin.elim hmt (hf.facts.2.1 hne).1
  obtain ⟨hw, -, -, hc₂, ⟨rfl, hfail, hheap₂, hn₂, hf₂, ht₂, hm₂⟩ | ⟨rfl, hmz, hpg, hheap₂, hmm₂⟩⟩ :=
    taskSetVm_cases hmm hv
  · cases hd
    obtain ⟨hk, hl, hheap, hp, hc⟩ := Begun.undo h (hb.then hw) hz (h.fresh fun _ => hmem)
    refine .noMm hz hav (hfail.imp id (mt hpage.mpr)) rfl hk
      ⟨hk.used, hk.nrFree, ?_, ?_, ?_, fun m a => ?_, fun p => ?_, hl, fun i _ _ => by rw [hk.pidmap]⟩
    · rw [hc, hc₂, hc₁]
    · rw [hp, hn₂, hg₁]
    · rw [hheap, hheap₂, hheap₁, Finset.erase_insert hmem]
    · rw [HasArea, HasArea, hp, ht₂, hm₂, hg₁]
    · rw [hp, hf₂, hg₁]
  · rw [if_neg (by decide)] at hd
    exact forkFiles_cases h hf hz hav (hb.then hw) (hpage.mp hpg) hmz (hheap₂.trans (by rw [hheap₁])) hmm₂ hd

/-! ## New programs -/

theorem kmalloc_eq {a : Nat} (h : s.kmalloc a = some s') : a ≠ 0 ∧ s' = { s with heap := insert a s.heap } := by
  unfold kmalloc at h
  split at h
  · cases h
  · next ha =>
    cases h
    exact ⟨ha, rfl⟩

theorem allocFilesStruct_within {files fs : Nat} (h : s.allocFilesStruct t files fs = some s') :
    Within t s s' ∧ s'.heap = insert fs (insert files s.heap) ∧ s'.mm = s.mm ∧ s'.fs t = fs ∧ s'.files t = files ∧
      files ≠ 0 ∧ fs ≠ 0 := by
  unfold allocFilesStruct at h
  obtain ⟨s₁, h₁, h⟩ := bind_eq_some_iff.mp h
  obtain ⟨s₂, h₂, rfl⟩ := map_eq_some_iff.mp h
  obtain ⟨hz₁, rfl⟩ := kmalloc_eq h₁
  obtain ⟨hz₂, rfl⟩ := kmalloc_eq h₂
  refine ⟨⟨rfl, rfl, fun a ha => ?_⟩, rfl, rfl, update_self .., update_self .., hz₁, hz₂⟩
  simp [objects, update_of_ne ha]

theorem taskAlloc_begun {ppid : Int} (hf : s.Fresh mem)
    (h : s.taskAlloc mem old ppid = some s') :
    (∃ i, s.Begun mem.task i s') ∧ (∀ a, a ∈ s'.heap ↔ a ∈ [mem.task, mem.mm, mem.fs, mem.files] ∨ a ∈ s.heap) ∧
      s'.objects mem.task = [mem.task, mem.mm, mem.fs, mem.files] ∧
      ∀ a ∈ [mem.task, mem.mm, mem.fs, mem.files], a ≠ 0 := by
  unfold taskAlloc at h
  obtain ⟨s₁, h₁, h'⟩ := bind_eq_some_iff.mp h
  obtain ⟨s₂, h₂, hd⟩ := bind_eq_some_iff.mp h'
  clear h h'
  obtain ⟨hz, rfl⟩ := kmalloc_eq h₁
  obtain ⟨hw₂, hheap₂, -, hfs₂, hfiles₂, hz₁, hz₂⟩ := allocFilesStruct_within h₂
  cases hv : s₂.taskSetVm mem.task mem.mm 0 with | mk r s₃
  cases hp : s₃.map.allocPidmap with | mk pid map
  rw [hv] at hd
  dsimp only at hd
  rw [hp] at hd
  have hmm : mem.mm ≠ 0 → mem.mm ∉ s₂.heap := fun hm hin => by
    rw [hheap₂] at hin
    simp only [Finset.mem_insert] at hin
    obtain ⟨hnew, hfm, hfm'⟩ := hf.facts.2.1 hm
    exact hin.elim (hfm ·.symm) fun hin => hin.elim (hfm' ·.symm) fun hin => hin.elim (hf.facts.1 hz).2.1 hnew
  obtain ⟨hw₃, hfs₃, hfiles₃, -, ⟨rfl, -⟩ | ⟨rfl, hmz, -, hheap₃, hmm₃⟩⟩ := taskSetVm_cases hmm hv
  · cases hd
  rw [if_neg (by decide)] at hd
  have hw := hw₂.trans hw₃
  rcases Pidmap.allocPidmap_cases hp with ⟨rfl, -⟩ | ⟨i, rfl, hi, -, -, hfree, hav, hn, -, hu⟩
  · cases hd
  rw [if_neg (by omega)] at hd
  cases hd
  rw [hw.map] at hfree hav hn hu
  refine ⟨⟨i, ?_, ?_, ?_, fun a ha => ?_, fun a ha => (hw.objects a ha).trans rfl, ?_, hi, hfree, hav.1, hu, hn⟩,
    fun a => ?_, ?_, ?_⟩
  · show s₃.sched.live = _
    rw [hw.sched]
  · show s₃.sched.pidmap = _
    rw [hw.sched]
  · show s₃.sched.links = _
    rw [hw.sched]
  · show update s₃.sched.task _ _ a = _
    rw [update_of_ne ha, hw.sched]
  · show (update s₃.sched.task mem.task _ mem.task).pid = _
    rw [update_self]
  · show a ∈ s₃.heap ↔ _
    rw [hheap₃, hheap₂]
    simp only [Finset.mem_insert, mem_cons, not_mem_nil, or_false]
    grind
  · show [mem.task, s₃.mm mem.task, s₃.fs mem.task, s₃.files mem.task] = _
    rw [hmm₃, hfs₃, hfs₂, hfiles₃, hfiles₂]
  · simp only [mem_cons, not_mem_nil, or_false, forall_eq_or_imp, forall_eq]
    exact ⟨hz, hmz, hz₂, hz₁⟩

theorem taskCreate_born {ppid : Int} {creator : Nat} {prog : List Segment} (hf : s.Fresh mem)
    (h : s.taskCreate mem old ppid creator prog = some s') : ∃ i, s.Born mem i s' := by
  unfold taskCreate at h
  obtain ⟨s₁, ha, h'⟩ := bind_eq_some_iff.mp h
  obtain ⟨⟨ok, g⟩, -, hd⟩ := bind_eq_some_iff.mp h'
  obtain ⟨⟨i, hb⟩, hheap, hown, hz⟩ := taskAlloc_begun hf ha
  dsimp only at hd
  split at hd
  · cases hd
    refine ⟨i, hb.born rfl ?_ rfl rfl (fun _ => rfl) hown hheap hz⟩
    show update s₁.sched.pidmap (s₁.sched.task mem.task).pid _ = _
    rw [hb.pid]
  · cases hd

theorem Born.then (h : s.Born mem i s₁) (hs : s'.sched = s₁.sched) (hm : s'.map = s₁.map)
    (ho : ∀ a, s'.objects a = s₁.objects a) (hh : s'.heap = s₁.heap) : s.Born mem i s' where
  live := hs ▸ h.live
  pidmap := hs ▸ h.pidmap
  task := hs ▸ h.task
  objects a ha := (ho a).trans (h.objects a ha)
  own := (ho _).trans h.own
  pid := hs ▸ h.pid
  lt := h.lt
  free := h.free
  used := hm ▸ h.used
  nrFree := hm ▸ h.nrFree
  heap := hh ▸ h.heap
  nonzero := h.nonzero

theorem execve_born {prog : List Segment} (hf : s.Fresh mem)
    (h : s.execve mem old prog = some s') : ∃ i, s.Born mem i s' := by
  unfold execve at h
  obtain ⟨s₁, hc, h'⟩ := bind_eq_some_iff.mp h
  obtain ⟨s₂, hi, h''⟩ := bind_eq_some_iff.mp h'
  obtain ⟨g, -, rfl⟩ := map_eq_some_iff.mp h''
  obtain ⟨i, hb⟩ := taskCreate_born hf hc
  obtain ⟨hw, hheap, -, hm, hfs, hfiles⟩ := incCounts_within (t := 0) hi
  refine ⟨i, hb.then hw.sched hw.map (fun a => ?_) hheap⟩
  rw [hm, hfs, hfiles]
  rfl

/-! ## The end of a task -/

theorem exitFiles_within (h : s.exitFiles t = some s') :
    Within t s s' ∧ s'.heap = s.heap ∧ s'.paging = s.paging ∧ ∀ a, s'.objects a = s.objects a := by
  obtain ⟨f, -, rfl⟩ := map_eq_some_iff.mp h
  exact ⟨⟨rfl, rfl, fun _ _ => rfl⟩, rfl, rfl, fun _ => rfl⟩

structure Gone (s : Kernel) (teardown : Paging → Option Paging) (t i : Nat) (s' : Kernel) : Prop where
  live : s'.sched.live = s.sched.live.erase t
  pidmap : s'.sched.pidmap = update s.sched.pidmap i 0
  pid : ∀ a ∈ s.sched.live, (s'.sched.task a).pid = (s.sched.task a).pid
  objects : ∀ a, s'.objects a = s.objects a
  used : ∀ j, s'.map.used j = if j = i then false else s.map.used j
  nrFree : s'.map.nrFree < 2 ^ 32
  heap : s'.heap = (s.heap.erase (s.mm t)).erase t
  space : teardown s.paging = some s'.paging

theorem exitBy_gone {teardown : Paging → Option Paging} (ht : t ≠ 0) (hpid : (s.sched.task t).pid = i)
    (hi : i < bitsPerPage) (he : s.exitBy teardown t = some s') : s.Gone teardown t i s' := by
  unfold exitBy at he
  obtain ⟨c, hn, he₁⟩ := bind_eq_some_iff.mp he
  obtain ⟨s₁, hm, he₂⟩ := bind_eq_some_iff.mp he₁
  obtain ⟨s₂, hfl, hlast⟩ := bind_eq_some_iff.mp he₂
  obtain ⟨g, hsp, rfl⟩ := map_eq_some_iff.mp hm
  obtain ⟨hw, hheap₂, hg₂, hobj₂⟩ := exitFiles_within hfl
  have hsched : s₂.sched = c := hw.sched
  have hc : SameTable s.sched c := ((SameTable.refl s.sched).reorder ..).trans (Sched.exitNotify_sameTable hn)
  have hpid₂ : (c.task t).pid = i := (Sched.exitNotify_keeps Task.pid (fun _ => rfl) hn t).trans hpid
  have hi' : (0 : Int) ≤ i := Int.natCast_nonneg i
  -- `exit_task`
  have hgone : s.Gone teardown t i (s₂.exitTask t) := by
    have e : s₂.exitTask t = { s₂ with
        sched := c.exitTask t
        map := s₂.map.freePidmap i
        heap := s₂.heap.erase t } := by
      rw [exitTask, if_neg ht]
      simp only [hsched, hpid₂, if_pos hi', kfree]
    rw [e]
    refine ⟨congrArg (List.erase · t) hc.live, ?_, hc.pid, fun a => ?_, fun j => ?_, wrap_lt _, ?_, ?_⟩
    · simp only [Sched.exitTask, hpid₂, if_pos hi', hc.pidmap]
    · exact hobj₂ a
    · show (s₂.map.freePidmap i).used j = _
      rw [Pidmap.freePidmap_used hi, hw.map]
      rfl
    · show s₂.heap.erase t = _
      rw [hheap₂]
      rfl
    · show _ = some s₂.paging
      rw [hg₂]
      exact hsp
  generalize s₂.exitTask t = s₃ at hgone hlast
  dsimp only at hlast
  split at hlast
  · obtain ⟨c', hs, rfl⟩ := map_eq_some_iff.mp hlast
    have hc' := (Sched.schedule_same hs).2
    have htab := (Sched.schedule_same hs).1
    exact ⟨htab.live.trans hgone.live, htab.pidmap.trans hgone.pidmap, fun a ha => (hc' a).1.trans (hgone.pid a ha),
      hgone.objects, hgone.used, hgone.nrFree, hgone.heap, hgone.space⟩
  · cases hlast
    exact hgone

theorem Inv.split (h : s.Inv) (ht : t ∈ s.sched.live) :
    (s.objects t).Nodup ∧ ((s.sched.live.erase t).flatMap s.objects).Nodup ∧
      ∀ a ∈ s.sched.live.erase t, ∀ o ∈ s.objects a, o ∉ s.objects t := by
  have hperm : (s.sched.live.flatMap s.objects).Perm (s.objects t ++ (s.sched.live.erase t).flatMap s.objects) :=
    (perm_cons_erase ht).flatMap_right s.objects
  obtain ⟨h₁, h₂, h₃⟩ := nodup_append.mp (hperm.nodup h.apart)
  exact ⟨h₁, h₂, fun a ha o ho ho' => h₃ o ho' o (mem_flatMap.mpr ⟨a, ha, ho⟩) rfl⟩

theorem Inv.gone {teardown : Paging → Option Paging} (h : s.Inv) (ht : t ∈ s.sched.live)
    (hpid : (s.sched.task t).pid = i) (hg : s.Gone teardown t i s') : s'.Inv := by
  obtain ⟨-, hrest, hdisj⟩ := h.split ht
  have hlive : ∀ {a}, a ∈ s'.sched.live → a ∈ s.sched.live := fun ha => mem_of_mem_erase (hg.live ▸ ha)
  refine ⟨?_, fun a ha o ho => ?_, ?_⟩
  · rw [hg.live, flatMap_congr fun a _ => hg.objects a]
    exact hrest
  · rw [hg.objects] at ho
    have ho' := hdisj a (hg.live ▸ ha) o ho
    rw [hg.heap]
    refine Finset.mem_erase.mpr ⟨fun e => ho' ?_, Finset.mem_erase.mpr ⟨fun e => ho' ?_, h.owned a (hlive ha) o ho⟩⟩
    · rw [e]
      exact mem_cons_self ..
    · rw [e]
      exact mem_cons_of_mem _ (mem_cons_self ..)
  · exact h.pids.gone ht hpid hg.live hg.pidmap (fun a ha => hg.pid a (hlive ha)) hg.used hg.nrFree

/-! ## Runs -/

theorem Start.inv (h : s.Start) : s.Inv where
  apart := by rw [h.live]; exact nodup_nil
  owned t ht := by rw [h.live] at ht; cases ht
  pids := by
    refine ⟨by rw [h.live]; exact nodup_nil, fun t ht => ?_, fun t ht => ?_,
      fun i hi hz => absurd ?_ hz, by rw [h.map]; decide⟩
    · rw [h.live] at ht
      cases ht
    · rw [h.live] at ht
      cases ht
    · refine h.pidmap i (Int.natCast_nonneg i) ?_
      unfold bitsPerPage at hi
      unfold pidMaxDefault
      omega

theorem kernelStep_inv (h : s.Inv) (hs : KernelStep s s') : s'.Inv := by
  cases hs with
  | create hf hc =>
    obtain ⟨i, hb⟩ := taskCreate_born hf hc
    exact h.born hf hb
  | execve hf hc =>
    obtain ⟨i, hb⟩ := execve_born hf hc
    exact h.born hf hb
  | fork hf hd =>
    have hsub : ∀ {x : Finset Nat}, s.heap ⊆ x → ∀ t ∈ s.sched.live, ∀ a ∈ s.objects t, a ∈ x :=
      fun hx t ht a ha => hx (h.owned t ht a ha)
    cases doFork_cases h hf hd with
    | noTask _ _ e => exact e ▸ h
    | noPid _ _ _ hk heap => exact h.kept hk (hsub (heap ▸ Finset.subset_insert ..))
    | noMm _ _ _ _ hk hu => exact h.kept hk (hsub hu.heap.ge)
    | noFiles _ _ _ _ _ hk heap => exact h.kept hk (hsub (heap ▸ Finset.subset_insert ..))
    | noCopy _ _ _ _ _ hk _ heap =>
      exact h.kept hk (hsub (heap ▸ (Finset.subset_insert ..).trans (Finset.subset_insert ..)))
    | done i _ hb => exact h.born hf hb
  | exit ht he =>
    obtain ⟨i, hpid, hi, -⟩ := h.pids.pid _ ht
    exact h.gone ht hpid (exitBy_gone (h.pids.proper _ ht) hpid hi he)
  | other ho =>
    refine h.kept ⟨ho.live, ho.pidmap, fun i => by rw [ho.map], by rw [ho.map], ho.pid, ho.objects⟩
      fun t ht a ha => ?_
    exact ho.heap t ht a ha (h.owned t ht a ha)

theorem Reachable.inv (h : s.Reachable) : s.Inv := by
  obtain ⟨s₀, h₀, hrun⟩ := h
  induction hrun with
  | refl => exact h₀.inv
  | tail _ hs ih => exact kernelStep_inv ih hs

end Kernel

namespace Kernel

/-! ## What is left -/

variable {s s' : Kernel} {t : Nat}

/-- `exit` frees the `task_struct` and the `mm_struct`, and nothing else of the task. -/
theorem exit_heap (h : s.Inv) (ht : t ∈ s.sched.live) (he : s.exit t = some s') :
    s'.heap = (s.heap.erase (s.mm t)).erase t ∧ s.fs t ∈ s'.heap ∧ s.files t ∈ s'.heap := by
  obtain ⟨i, hpid, hi, -⟩ := h.pids.pid t ht
  have hg := exitBy_gone (h.pids.proper t ht) hpid hi he
  have hown := h.owned t ht
  have hn := (h.split ht).1
  simp only [objects, mem_cons, not_mem_nil, or_false, forall_eq_or_imp, forall_eq] at hown
  simp only [objects, nodup_cons, mem_cons, not_mem_nil, or_false, not_or] at hn
  obtain ⟨-, -, hfs, hfiles⟩ := hown
  obtain ⟨⟨-, h₁, h₂⟩, ⟨h₃, h₄⟩, -⟩ := hn
  rw [hg.heap]
  exact ⟨rfl, Finset.mem_erase.mpr ⟨Ne.symm h₁, Finset.mem_erase.mpr ⟨Ne.symm h₃, hfs⟩⟩,
    Finset.mem_erase.mpr ⟨Ne.symm h₂, Finset.mem_erase.mpr ⟨Ne.symm h₄, hfiles⟩⟩⟩

theorem fork_exit_heap {cloneVm : Bool} {mem : TaskMem} {r : Int} {s₁ s₂ : Kernel} (h : s.Inv) (hf : s.Fresh mem)
    (hd : s.doFork cloneVm mem = some (r, s₁)) (hr : 0 ≤ r) (he : s₁.exit mem.task = some s₂) :
    s₂.heap = insert mem.fs (insert mem.files s.heap) ∧ mem.fs ∉ s.heap ∧ mem.files ∉ s.heap := by
  have hinv := kernelStep_inv h (.fork hf hd)
  cases doFork_cases h hf hd with
  | done i _ hb =>
    have hnz := hb.nonzero
    simp only [mem_cons, not_mem_nil, or_false, forall_eq_or_imp, forall_eq] at hnz
    obtain ⟨hz, hmz, hfz, hfz'⟩ := hnz
    obtain ⟨ht, -, htf, htf'⟩ := hf.facts.1 hz
    obtain ⟨hm, hmf, hmf'⟩ := hf.facts.2.1 hmz
    have hlive : mem.task ∈ s₁.sched.live := hb.live ▸ mem_cons_self ..
    have hmm : s₁.mm mem.task = mem.mm := (List.cons.inj (List.cons.inj hb.own).2).1
    refine ⟨Finset.ext fun a => ?_, hf.facts.2.2.1 hfz, hf.facts.2.2.2 hfz'⟩
    rw [(exit_heap hinv hlive he).1, hmm, Finset.mem_erase, Finset.mem_erase, hb.heap]
    simp only [mem_cons, not_mem_nil, or_false, Finset.mem_insert]
    constructor
    · rintro ⟨h₁, h₂, h₃⟩
      grind
    · rintro (rfl | rfl | ha)
      · exact ⟨htf, hmf, by grind⟩
      · exact ⟨htf', hmf', by grind⟩
      · exact ⟨fun e => ht (e ▸ ha), fun e => hm (e ▸ ha), .inr ha⟩
  | noTask _ e => rw [e] at hr; exact absurd hr (by decide)
  | noPid _ _ e => rw [e] at hr; exact absurd hr (by decide)
  | noMm _ _ _ e => rw [e] at hr; exact absurd hr (by decide)
  | noFiles _ _ _ _ e => rw [e] at hr; exact absurd hr (by decide)
  | noCopy _ _ _ _ e => rw [e] at hr; exact absurd hr (by decide)

theorem boot_reachable {mem : TaskMem} {old : Task} {prog : List Segment} (h : s.Start) (hf : s.Fresh mem)
    (hb : s.boot mem old prog = some s') : s'.Reachable := by
  obtain ⟨s₁, hc, hb⟩ := bind_eq_some_iff.mp hb
  obtain ⟨c, hs, rfl⟩ := map_eq_some_iff.mp hb
  have ht := (Sched.schedule_same hs).1
  refine ⟨s, h, .tail (.single (.create hf hc)) (.other ?_)⟩
  exact ⟨ht.live, ht.pidmap, rfl, ht.pid, fun _ _ => rfl, fun _ _ _ _ => id⟩

end Kernel

def blankKernel : Kernel where
  sched := blankSched
  map := Pidmap.start
  heap := ∅
  mm := fun _ => 0
  fs := fun _ => 0
  files := fun _ => 0
  paging := ⟨fun _ => 0, Paging.freeFrames, fun _ _ => 0, ∅, fun _ => ⟨[], 0, 0, fun _ => none⟩, Paging.freeFrames,
    List.replicate 9 true⟩
  fd := fun _ _ => none
  fCount := fun _ => none

theorem blankKernel_start : blankKernel.Start := ⟨rfl, fun _ _ _ => rfl, rfl⟩

def onePage : List Segment := [⟨0x800000, 0x1000, 0x1000, true⟩]

def firstMem : TaskMem := ⟨16, 32, 48, 64⟩

theorem blankKernel_fresh : blankKernel.Fresh firstMem := ⟨fun _ _ _ => Finset.notMem_empty _, by decide⟩

theorem forked_first : ∃ s₁ s₂ s₃, blankKernel.boot firstMem blankTask onePage = some s₁ ∧
    s₁.doFork false ⟨80, 96, 112, 128⟩ = some (1, s₂) ∧ s₂.exit 80 = some s₃ ∧ s₁.Reachable ∧
    s₁.Fresh ⟨80, 96, 112, 128⟩ ∧ s₂.files 80 = 128 ∧ 128 ∈ s₃.heap ∧ s₂.curtask = 16 ∧
    s₂.sched.live = [80, 16] ∧ (s₂.sched.task 16).pwait = 0 ∧
    (s₂.sched.links.listDel 16).listEmpty rqHead = false := by
  have h : ((blankKernel.boot firstMem blankTask onePage).bind fun s₁ =>
        (s₁.doFork false ⟨80, 96, 112, 128⟩).bind fun r => (r.2.exit 80).map fun s₃ =>
      ((r.1, [80, 96, 112, 128].all (· ∉ s₁.heap), r.2.files 80, decide (128 ∈ s₃.heap)), r.2.curtask,
        r.2.sched.live, (r.2.sched.task 16).pwait, (r.2.sched.links.listDel 16).listEmpty rqHead)) =
      some ((1, true, 128, true), 16, [80, 16], 0, false) := by decide +kernel
  simp only [bind_eq_some_iff, map_eq_some_iff, Prod.mk.injEq, List.all_eq_true, decide_eq_true_eq] at h
  obtain ⟨s₁, hb, ⟨r, s₂⟩, hf, s₃, he, ⟨rfl, hnew, hfiles, hheap⟩, hqueue⟩ := h
  exact ⟨s₁, s₂, s₃, hb, hf, he, Kernel.boot_reachable blankKernel_start blankKernel_fresh hb,
    ⟨fun a ha _ => hnew a ha, by decide⟩, hfiles, hheap, hqueue⟩

/-- **No exit gives everything back**: the `files_struct` and the `fs_struct` stay, so that a fork
and the exit of the child cost two objects. The pages do come back where they lie in areas. -/
theorem exit_leaks {s : Kernel} (h : s.Reachable) :
    (∀ t ∈ s.sched.live, ∀ s', s.exit t = some s' →
      ¬ s.Reclaimed t s' ∧ s.fs t ∈ s'.heap ∧ s.files t ∈ s'.heap ∧ s'.heap = (s.heap.erase (s.mm t)).erase t ∧
        (s.paging.Good → s.mm t ∈ s.paging.tasks → s.PagesBack t s')) ∧
      ∀ cloneVm mem r s₁ s₂, s.Fresh mem → s.doFork cloneVm mem = some (r, s₁) → 0 ≤ r →
      s₁.exit mem.task = some s₂ →
        s₂.heap = insert mem.fs (insert mem.files s.heap) ∧ mem.fs ∉ s.heap ∧ mem.files ∉ s.heap := by
  have hinv := h.inv
  refine ⟨fun t ht s' he => ?_, fun cloneVm mem r s₁ s₂ hf hd hr he => Kernel.fork_exit_heap hinv hf hd hr he⟩
  obtain ⟨hheap, hfs, hfiles⟩ := Kernel.exit_heap hinv ht he
  refine ⟨fun hr => hr.heap (s.fs t) ?_ hfs, hfs, hfiles, hheap, fun hg hm => ?_⟩
  · simp [Kernel.objects]
  · obtain ⟨i, hpid, hi, -⟩ := hinv.pids.pid t ht
    exact Kernel.pagesBack_of_exitMm hg hm (Kernel.exitBy_gone (hinv.pids.proper t ht) hpid hi he).space rfl

theorem exit_leaks_child : ∃ s₁ s₂ s₃, blankKernel.boot firstMem blankTask onePage = some s₁ ∧
    s₁.doFork false ⟨80, 96, 112, 128⟩ = some (1, s₂) ∧ s₂.exit 80 = some s₃ ∧
    s₃.heap = insert 112 (insert 128 s₁.heap) ∧ 112 ∉ s₁.heap ∧ 128 ∉ s₁.heap := by
  obtain ⟨s₁, s₂, s₃, hb, hf, he, hreach, hfresh, -⟩ := forked_first
  exact ⟨s₁, s₂, s₃, hb, hf, he, (exit_leaks hreach).2 _ _ _ s₂ s₃ hfresh hf (by decide) he⟩

theorem files_left : ∃ s₁ s₂ s₃, blankKernel.boot firstMem blankTask onePage = some s₁ ∧
    s₁.doFork false ⟨80, 96, 112, 128⟩ = some (1, s₂) ∧ s₂.exit 80 = some s₃ ∧ ¬ s₂.Reclaimed 80 s₃ := by
  obtain ⟨s₁, s₂, s₃, hb, hf, he, -, -, hfiles, hheap, -⟩ := forked_first
  refine ⟨s₁, s₂, s₃, hb, hf, he, fun hr => hr.heap 128 ?_ hheap⟩
  rw [← hfiles]
  simp [Kernel.objects]

/-- **Failing forks.** Nothing is lost when `do_fork` fails for want of a `task_struct`, an
`mm_struct` or a page directory, and something is in every other case. -/
theorem fork_atomic {s s' : Kernel} {cloneVm : Bool} {mem : TaskMem} {r : Int} (h : s.Reachable) (hf : s.Fresh mem)
    (hd : s.doFork cloneVm mem = some (r, s')) (hr : r < 0) : s.Unchanged s' ↔ s.FailsEarly mem := by
  have hfacts := hf.facts
  cases Kernel.doFork_cases h.inv hf hd with
  | noTask hz _ hs =>
    refine ⟨fun _ => .inl hz, fun _ => ?_⟩
    subst hs
    exact ⟨fun _ => rfl, rfl, rfl, rfl, rfl, fun _ _ => Iff.rfl, fun _ => Iff.rfl, rfl, fun _ _ _ => rfl⟩
  | noPid ht hp _ _ heap =>
    -- the `task_struct` stays
    refine ⟨fun hu => ?_, fun he => ?_⟩
    · rw [hu.heap] at heap
      exact absurd (heap ▸ Finset.mem_insert_self ..) (hfacts.1 ht).1
    · exact he.elim (absurd · ht) fun he => absurd he.1 hp
  | noMm ht hp hm _ _ hu => exact ⟨fun _ => .inr ⟨hp, hm⟩, fun _ => hu⟩
  | noFiles ht hp hm hg _ _ heap =>
    -- the `mm_struct` stays
    refine ⟨fun hu => ?_, fun he => ?_⟩
    · rw [hu.heap] at heap
      exact absurd (heap ▸ Finset.mem_insert_self ..) (hfacts.2.1 hm).1
    · exact he.elim (absurd · ht) fun he => he.2.elim (absurd · hm) (absurd hg)
  | noCopy ht hp hm hg _ _ hfl heap =>
    -- the `files_struct` stays
    refine ⟨fun hu => ?_, fun he => ?_⟩
    · rw [hu.heap] at heap
      exact absurd (heap ▸ Finset.mem_insert_self ..) (hfacts.2.2.2 hfl)
    · exact he.elim (absurd · ht) fun he => he.2.elim (absurd · hm) (absurd hg)
  | done i hi _ => omega

theorem fork_atomic_mm : ∃ s₁ s₂, blankKernel.boot firstMem blankTask onePage = some s₁ ∧
    s₁.doFork false ⟨80, 0, 112, 128⟩ = some (-12, s₂) ∧ s₁.Unchanged s₂ := by
  have h : ((blankKernel.boot firstMem blankTask onePage).bind fun s₁ =>
        (s₁.doFork false ⟨80, 0, 112, 128⟩).map fun r =>
      ((r.1, [80, 0, 112, 128].all (· ∉ s₁.heap)), decide (s₁.map.nrFree ≠ 0), s₁.map.first, s₁.map.used 1)) =
      some ((-12, true), true, 1, false) := by decide +kernel
  simp only [bind_eq_some_iff, map_eq_some_iff, Prod.mk.injEq, List.all_eq_true, decide_eq_true_eq] at h
  obtain ⟨s₁, hb, ⟨r, s₂⟩, hf, ⟨rfl, hnew⟩, hn, hfirst, hu⟩ := h
  have hreach := Kernel.boot_reachable blankKernel_start blankKernel_fresh hb
  refine ⟨s₁, s₂, hb, hf, (fork_atomic hreach ⟨fun a ha _ => hnew a ha, by decide⟩ hf (by decide)).mpr
    (.inr ⟨?_, .inl rfl⟩)⟩
  exact ⟨hn, 1, hfirst.le, by decide, hu⟩

/-- No memory for an `fs_struct`: the new `mm_struct` is lost. -/
theorem fork_mm_lost : ∃ s₁ s₂, blankKernel.boot firstMem blankTask onePage = some s₁ ∧
    s₁.doFork false ⟨80, 96, 0, 128⟩ = some (-12, s₂) ∧ ¬ s₁.Unchanged s₂ := by
  have h : ((blankKernel.boot firstMem blankTask onePage).bind fun s₁ =>
        (s₁.doFork false ⟨80, 96, 0, 128⟩).map fun r =>
      (r.1, decide (96 ∈ s₁.heap), decide (96 ∈ r.2.heap))) = some (-12, false, true) := by decide +kernel
  simp only [bind_eq_some_iff, map_eq_some_iff, Prod.mk.injEq, decide_eq_true_eq, decide_eq_false_iff_not] at h
  obtain ⟨s₁, hb, ⟨r, s₂⟩, hf, rfl, hout, hin⟩ := h
  exact ⟨s₁, s₂, hb, hf, fun hu => hout (hu.heap ▸ hin)⟩

end MiniOS
