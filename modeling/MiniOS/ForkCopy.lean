import MiniOS.TaskSpacesSound
import Mathlib.Data.List.Find

/-!
# Fork copies the address space

What a program of the parent reads, a program of the child reads as well, as long as the pages
are in the areas. `create_vma` rounds the end of an area up to a page: an area that `brk` has
ended inside of a page that is not there becomes larger in the child.
-/

namespace MiniOS

open List Option

/-- What a read of user mode ends in: the byte it gets, after a fault if the page comes on
demand, a panic of the kernel, or the end of the task. -/
inductive View where
  | byte (b : Nat)
  | panic
  | invalid
deriving DecidableEq

/-- The answer of `find_vma` is `vma`. -/
def Space.demandView (sp : Space) (va : Nat) (vma : Option Area) : View :=
  match vma with
  | none => .invalid
  | some a =>
    if va < a.vmStart then .invalid
    else if a.vmStart = userStackBott ∨ a.vmStart = sp.startBrk then .byte 0
    else .panic

def Paging.viewIn (s : Paging) (t va : Nat) (vma : Option Area) : View :=
  if kernelBaseAddr ≤ va then .invalid
  else
    match (s.mm t).frame (va / pageSize) with
    | some p => .byte (s.mem p (va % pageSize))
    | none => (s.mm t).demandView va vma

def Paging.view (s : Paging) (t va : Nat) : View := s.viewIn t va ((s.mm t).findVma va)

/-- What the parent saw before the fork, what it sees after it, and what the child sees. -/
structure ForkCopies (before parent child : Nat → Option View) : Prop where
  byte : ∀ va b, before va = some (.byte b) → child va = some (.byte b)
  invalid : ∀ va, before va = some .invalid → child va = some .invalid
  parent : ∀ va, parent va = before va

/-- Where an area ends inside of a page, that page is there. -/
def Space.EndsFilled (sp : Space) : Prop :=
  ∀ a ∈ sp.mmap, ¬ pageSize ∣ a.vmEnd → sp.frame (a.vmEnd / pageSize) ≠ none

/-! ## The two views -/

namespace Paging

variable {s s' : Paging} {t child va : Nat}

theorem view_eq {t' : Nat} (hframe : (s'.mm t').frame (va / pageSize) = (s.mm t).frame (va / pageSize))
    (hmem : ∀ p, (s.mm t).frame (va / pageSize) = some p → s'.mem p = s.mem p)
    (hdemand : (s.mm t).frame (va / pageSize) = none →
      (s'.mm t').demandView va ((s'.mm t').findVma va) = (s.mm t).demandView va ((s.mm t).findVma va)) :
    s'.view t' va = s.view t va := by
  unfold view viewIn
  rw [hframe]
  split
  · rfl
  · cases hf : (s.mm t).frame (va / pageSize) with
    | none => exact hdemand hf
    | some p =>
      dsimp only
      rw [hmem p hf]

theorem mem_areaPages_iff {l : List Area} {v : Nat} (h : ∀ a ∈ l, a.Fits) :
    v ∈ areaPages l ↔ ∃ a ∈ l, a.Covers v := by
  unfold areaPages
  rw [mem_flatMap]
  constructor
  · intro hv
    obtain ⟨a, ha, hv⟩ := hv
    exact ⟨a, ha, (mem_addrs_pages (h a ha).start_dvd).mp hv⟩
  · intro hv
    obtain ⟨a, ha, hv⟩ := hv
    exact ⟨a, ha, (mem_addrs_pages (h a ha).start_dvd).mpr hv⟩

/-- No area has the first address behind an area that ends inside of a page. -/
theorem demandView_end {sp : Space} (h : SpaceFits sp) {a : Area} (ha : a ∈ sp.mmap) (hend : ¬ pageSize ∣ a.vmEnd) :
    sp.demandView a.vmEnd (sp.findVma a.vmEnd) = .invalid := by
  unfold Space.demandView
  split
  · rfl
  · next b hfind =>
    have hb : b ∈ sp.mmap := mem_of_find?_eq_some hfind
    have hlt : a.vmEnd < b.vmEnd := by simpa using find?_some hfind
    have hne : a ≠ b := fun e => Nat.lt_irrefl _ (e ▸ hlt)
    have hsymm : Std.Symm fun a b : Area => a.vmEnd ≤ b.vmStart ∨ b.vmEnd ≤ a.vmStart := ⟨fun _ _ => Or.symm⟩
    have hstart : a.vmEnd < b.vmStart := by
      rcases h.apart.forall ha hb hne with hab | hab
      · exact Nat.lt_of_le_of_ne hab fun e => hend (e ▸ (h.area b hb).start_dvd)
      · have := (h.area a ha).start_le
        omega
    rw [if_pos hstart]

section
variable {l : List Area} (hfit : SpaceFits (s.mm t)) (hsorted : (s.mm t).Sorted)
  (hlong : ∀ a ∈ (s.mm t).mmap, a.vmStart < a.vmEnd) (hused : ∀ v p, (s.mm t).frame v = some p → p ∉ s.free)
  (hl : l.Perm (s.mm t).mmap) (hf : Forked t child l s s')

include hfit hl hf in
theorem child_frame (v : Nat) : (s'.mm child).frame v = (s.mm t).frame v := by
  rw [hf.frame]
  split
  · rfl
  · next hv =>
    refine (Classical.byContradiction fun hsome => hv ?_ : (s.mm t).frame v = none).symm
    obtain ⟨a, ha, hc⟩ := hfit.covered v fun hnone => hsome (by rw [Space.frame, hnone]; rfl)
    exact (mem_areaPages_iff fun a ha => hfit.area a (hl.mem_iff.mp ha)).mpr ⟨a, hl.mem_iff.mpr ha, hc⟩

include hfit hlong in
/-- Of two areas with one start the first would be empty. -/
theorem eq_of_starts {a b : Area} (ha : a ∈ (s.mm t).mmap) (hb : b ∈ (s.mm t).mmap) (e : a.vmStart = b.vmStart) :
    a = b := by
  have hsymm : Std.Symm fun a b : Area => a.vmEnd ≤ b.vmStart ∨ b.vmEnd ≤ a.vmStart := ⟨fun _ _ => Or.symm⟩
  by_contra hne
  have hside := hfit.apart.forall ha hb hne
  have h₁ := hlong a ha
  have h₂ := hlong b hb
  omega

include hfit hsorted hlong hl hf in
theorem child_mmap : (s'.mm child).mmap = (s.mm t).mmap.map Area.copied := by
  have hstart : ∀ a ∈ (s.mm t).mmap, a.copied.vmStart = a.vmStart := fun a ha =>
    Area.copied_start (hfit.area a ha).start_dvd
  have hperm : (copiedAreas l []).Perm ((s.mm t).mmap.map Area.copied) := by
    have hcopies := copiedAreas_perm l []
    rw [append_nil] at hcopies
    exact hcopies.trans (hl.map _)
  rw [hf.mmap]
  refine sorted_unique (copiedAreas_sorted List.Pairwise.nil) (pairwise_map.mpr ?_) hperm fun x hx y hy e => ?_
  · refine hsorted.imp_of_mem fun {a b} ha hb hab => ?_
    rw [hstart a ha, hstart b hb]
    exact hab
  · obtain ⟨a, ha, rfl⟩ := List.mem_map.mp hx
    obtain ⟨b, hb, rfl⟩ := List.mem_map.mp hy
    rw [hstart a ha, hstart b hb] at e
    rw [eq_of_starts hfit hlong ha hb e]

include hused hf in
theorem child_mem (v p : Nat) (hp : (s.mm t).frame v = some p) : s'.mem p = s.mem p := hf.grows.mem p (hused v p hp)

include hused hf in
theorem view_parent (hne : t ≠ child) (hsp : Spares child s s') : s'.view t va = s.view t va := by
  refine view_eq (hsp.frame t hne _) (fun p hp => child_mem hused hf _ p hp) fun _ => ?_
  unfold Space.demandView Space.findVma
  rw [hsp.mmap t hne, hsp.startBrk t hne]

include hfit hsorted hlong hl hf in
/-- Where the page is not there, the areas of the two agree. -/
theorem child_demandView (hends : (s.mm t).EndsFilled) (hnone : (s.mm t).frame (va / pageSize) = none) :
    (s'.mm child).demandView va ((s'.mm child).findVma va) = (s.mm t).demandView va ((s.mm t).findVma va) := by
  have hagree : ∀ a ∈ (s.mm t).mmap, decide (va < a.copied.vmEnd) = decide (va < a.vmEnd) := by
    intro a ha
    obtain ⟨-, hle, hlt⟩ := copied_end (hfit.area a ha)
    refine decide_eq_decide.mpr ⟨fun h => Nat.lt_of_not_le fun hge => ?_, fun h => h.trans_le hle⟩
    -- the address is behind the end, in the page the area ends in
    have hdvd : ¬ pageSize ∣ a.vmEnd := fun hd => by
      have := (copied_le (hfit.area a ha) hd).mpr (Nat.le_refl _)
      omega
    obtain ⟨⟨k, hk⟩, -, -⟩ := copied_end (hfit.area a ha)
    have hpage : va / pageSize = a.vmEnd / pageSize := by
      unfold pageSize at *
      omega
    exact hends a ha hdvd (hpage ▸ hnone)
  have hfind : (s'.mm child).findVma va = ((s.mm t).findVma va).map Area.copied := by
    unfold Space.findVma
    have hcongr : (s.mm t).mmap.find? ((fun a => decide (va < a.vmEnd)) ∘ Area.copied) =
        (s.mm t).mmap.find? fun a => decide (va < a.vmEnd) := find?_congr fun a ha => by
      rw [Function.comp_apply]
      exact hagree a ha
    rw [child_mmap hfit hsorted hlong hl hf, find?_map, hcongr]
  unfold Space.demandView
  rw [hfind, hf.startBrk]
  cases hp : (s.mm t).findVma va with
  | none => rfl
  | some a =>
    dsimp only [map_some]
    rw [Area.copied_start (hfit.area a (mem_of_find?_eq_some hp)).start_dvd]

include hfit hsorted hlong hl hf in
/-- The child's area goes on behind the end. -/
theorem child_demandView_end {a : Area} (ha : a ∈ (s.mm t).mmap) (hend : ¬ pageSize ∣ a.vmEnd) :
    (s'.mm child).demandView a.vmEnd ((s'.mm child).findVma a.vmEnd) ≠ .invalid := by
  have hfits := hfit.area a ha
  obtain ⟨hdvd, hle, -⟩ := copied_end hfits
  have hmem : a.copied ∈ (s'.mm child).mmap := by
    rw [child_mmap hfit hsorted hlong hl hf]
    exact List.mem_map_of_mem ha
  have hlt : a.vmEnd < a.copied.vmEnd := by
    refine Nat.lt_of_le_of_ne hle fun e => hend ?_
    rw [e]
    exact hdvd
  have hs : (s'.mm child).Sorted := by
    unfold Space.Sorted
    rw [hf.mmap]
    exact copiedAreas_sorted List.Pairwise.nil
  have hstart : a.copied.vmStart ≤ a.vmEnd := by
    rw [Area.copied_start hfits.start_dvd]
    exact hfits.start_le
  obtain ⟨c, hc, hle⟩ := (Space.findVma_in hs).mpr ⟨_, hmem, hstart, hlt⟩
  unfold Space.demandView
  rw [Option.mem_def.mp hc]
  dsimp only
  rw [if_neg hle.not_gt]
  split
  · exact nofun
  · exact nofun

include hfit hsorted hlong hused hl hf in
theorem forkCopies_iff (hne : t ≠ child) (hsp : Spares child s s') :
    ForkCopies (fun va => some (s.view t va)) (fun va => some (s'.view t va)) (fun va => some (s'.view child va)) ↔
      (s.mm t).EndsFilled := by
  have hframe := child_frame hfit hl hf
  constructor
  · intro h a ha hend hnone
    have hva : ¬ kernelBaseAddr ≤ a.vmEnd := fun hge => by
      have hle := (hfit.area a ha).end_le
      exact hend (Nat.le_antisymm hle hge ▸ (by decide : pageSize ∣ kernelBaseAddr))
    have hparent : s.view t a.vmEnd = .invalid := by
      unfold view viewIn
      rw [if_neg hva, hnone]
      exact demandView_end hfit ha hend
    have hchild := some.inj (h.invalid _ (congrArg some hparent))
    unfold view viewIn at hchild
    rw [if_neg hva, hframe, hnone] at hchild
    exact child_demandView_end hfit hsorted hlong hl hf ha hend hchild
  · intro h
    have hview : ∀ va, s'.view child va = s.view t va := fun va =>
      view_eq (hframe _) (fun p hp => child_mem hused hf _ p hp) (child_demandView hfit hsorted hlong hl hf h)
    refine ⟨fun va b hb => ?_, fun va hi => ?_, fun va => congrArg some (view_parent hused hf hne hsp)⟩
    · rw [hview]
      exact hb
    · rw [hview]
      exact hi

end

end Paging

/-- With the area that `find_vma` finds in the tree. -/
def TaskSpaces.view (s : TaskSpaces) (t va : Nat) : Option View :=
  ((s.vm t).lookup va).map fun vma => s.paging.viewIn t va vma

theorem TaskSpaces.view_eq {s : TaskSpaces} {t : Nat} (h : MiniOS.Backed (s.vm t) (s.paging.mm t)) :
    s.view t = fun va => some (s.paging.view t va) := by
  funext va
  unfold TaskSpaces.view
  rw [h.lookup]
  rfl

theorem Paging.Fits.apart {s : Paging} (h : s.Fits) : s.Apart := fun t ht =>
  ⟨(h t ht).apart, fun a ha => ((h t ht).area a ha).end_le⟩

/-- **Fork copies the address space**, if and only if no area of the parent ends inside of a page that
is not there; all along a run in which the areas of the live tasks have all their pages. -/
theorem fork_copies_iff {s s' : TaskSpaces} (hrun : TaskRun Paging.Fits s) {t child : Nat} {memory junk : Nat → Vma}
    {mems : List Nat} (ht : t ∈ s.paging.tasks) (hchild : child ∉ s.paging.tasks)
    (hmems : FreshMems memory [0] mems)
    (hf : s.doFork t child memory mems junk = some s') (hnew : child ∈ s'.paging.tasks) :
    ForkCopies (s.view t) (s'.view t) (s'.view child) ↔ (s.paging.mm t).EndsFilled := by
  obtain ⟨hlists, hback, hfits⟩ := hrun.refines fun _ => Paging.Fits.apart
  have hne : t ≠ child := fun e => hchild (e ▸ ht)
  obtain ⟨⟨l, back, hl, -, hpaging⟩, hvm, hbackc⟩ :=
    TaskSpaces.doFork_rep (hback t ht) (hfits.apart t ht) hne hchild hmems hf
  obtain ⟨-, hsp, hforked⟩ := Paging.forkAlong_spaces ht hchild hpaging
  have hfit := hfits t ht
  have hused : ∀ v p, (s.paging.mm t).frame v = some p → p ∉ s.paging.free := fun v p hp => by
    obtain ⟨a, ha, hc⟩ := hfit.covered v fun hnone => by rw [Space.frame, hnone] at hp; cases hp
    have hv : v < userPages := by
      have hend := (hfit.area a ha).end_le
      have hlt := hc.2
      unfold userPages kernelBaseAddr pageSize at *
      omega
    exact (hlists.inv.loose_of_pos (PagingInv.mapped_pos ht hv hp)).1
  have hparent : MiniOS.Backed (s'.vm t) (s'.paging.mm t) := by
    rw [hvm t hne]
    exact (hback t ht).congr (hsp.mmap t hne) (hsp.startBrk t hne)
  rw [TaskSpaces.view_eq (hback t ht), TaskSpaces.view_eq hparent, TaskSpaces.view_eq (hbackc hnew)]
  exact Paging.forkCopies_iff hfit (hback t ht).sorted (fun a ha => ((hback t ht).area a ha).1) hused hl
    (hforked hnew) hne hsp

/-- A program of two pages forks; its list of areas is code, heap, stack and data. -/
theorem fork_copies_iff_aligned : ∃ s s', TaskRun Paging.Fits s ∧
    s.doFork 1 2 (fun _ => zeroVma) [80, 96, 112, 128] (fun _ => zeroVma) = some s' ∧
    ForkCopies (s.view 1) (s'.view 1) (s'.view 2) := by
  have h : ((TaskSpaces.blank.taskCreate 1 [onePageSegment 0x800000 true, onePageSegment 0x802000 false]
      (fun _ => zeroVma) [16, 32, 48, 64]).bind fun s =>
        (s.doFork 1 2 (fun _ => zeroVma) [80, 96, 112, 128] (fun _ => zeroVma)).map fun s' =>
          (s.paging.tasks, (s.paging.mm 1).mmap, s'.paging.tasks)) =
      some ({1}, [⟨0x800000, 0x801000⟩, ⟨0x802000, 0x803000⟩, ⟨0x803000, 0x804000⟩, ⟨0xBF400000, 0xBF800000⟩],
        {1, 2}) := by
    decide +kernel
  simp only [bind_eq_some_iff, map_eq_some_iff, Prod.mk.injEq] at h
  obtain ⟨s, hc, s', hfork, htasks, hmmap, htasks'⟩ := h
  have hfresh : FreshMems (fun _ => zeroVma) [0] [16, 32, 48, 64] := freshMems_zero (by decide) (by decide)
  have hblank : TaskSpaces.blank.paging.Fits := fun t ht => by cases ht
  have hagrees : ∀ g ∈ [onePageSegment 0x800000 true, onePageSegment 0x802000 false], g.Agrees := by
    unfold Segment.Agrees
    decide
  have hfit := TaskSpaces.taskCreate_fits hblank (by decide) hagrees hfresh hc
  have hrun : TaskRun Paging.Fits s :=
    .step (.start TaskSpaces.blank_start hblank) (.create (Finset.notMem_empty 1) (by decide) hfresh hc) hfit
  have hends : (s.paging.mm 1).EndsFilled := fun a ha hend => by
    rw [hmmap] at ha
    have hall : ∀ a ∈ [(⟨0x800000, 0x801000⟩ : Area), ⟨0x802000, 0x803000⟩, ⟨0x803000, 0x804000⟩,
        ⟨0xBF400000, 0xBF800000⟩], pageSize ∣ a.vmEnd := by decide
    exact absurd (hall a ha) hend
  have h₁ : 1 ∈ s.paging.tasks := by rw [htasks]; decide
  have h₂ : 2 ∉ s.paging.tasks := by rw [htasks]; decide
  have h₃ : 2 ∈ s'.paging.tasks := by rw [htasks']; decide
  have hcopy := fork_copies_iff hrun h₁ h₂ (freshMems_zero (by decide) (by decide)) hfork h₃
  exact ⟨s, s', hrun, hfork, hcopy.mpr hends⟩

/-- A program linked at `0x800020` forks: its last page is in no area, and the child has not got it. -/
theorem fork_loses_page : ∃ s s', TaskRun (fun _ => True) s ∧ 1 ∈ s.paging.tasks ∧ 2 ∉ s.paging.tasks ∧
    s.doFork 1 2 (fun _ => zeroVma) [64, 80, 96] (fun _ => zeroVma) = some s' ∧ 2 ∈ s'.paging.tasks ∧
    s.view 1 0x801000 = some (.byte 0) ∧ s'.view 2 0x801000 = some .invalid ∧
    ¬ ForkCopies (s.view 1) (s'.view 1) (s'.view 2) := by
  have h : ((TaskSpaces.blank.taskCreate 1 [⟨0x800020, 0xff0, 0xff0, true⟩] (fun _ => zeroVma) [16, 32, 48]).bind
        fun s =>
      (s.doFork 1 2 (fun _ => zeroVma) [64, 80, 96] (fun _ => zeroVma)).map fun s' =>
        (s.paging.tasks, s'.paging.tasks, s.view 1 0x801000, s'.view 2 0x801000)) =
      some ({1}, {1, 2}, some (.byte 0), some .invalid) := by decide +kernel
  simp only [bind_eq_some_iff, map_eq_some_iff, Prod.mk.injEq] at h
  obtain ⟨s, hc, s', hfork, htasks, htasks', hview, hview'⟩ := h
  have hrun : TaskRun (fun _ => True) s := .step (.start TaskSpaces.blank_start trivial)
    (.create (Finset.notMem_empty 1) (by decide) (freshMems_zero (by decide) (by decide)) hc) trivial
  refine ⟨s, s', hrun, by rw [htasks]; decide, by rw [htasks]; decide, hfork, by rw [htasks']; decide,
    hview, hview', fun hcopies => ?_⟩
  have hread := hcopies.byte _ _ hview
  rw [hview'] at hread
  cases hread

end MiniOS
