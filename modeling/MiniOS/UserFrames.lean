import MiniOS.SegmentArea
import MiniOS.UserRun

/-!
# The frames along a run

What is counted in `nref` stays in step with the entries when programs are loaded, get their
arguments, grow their heaps, fault, fork and exit, as long as the areas have all the pages.
-/

namespace MiniOS

/-- The areas of every live task are apart, below the kernel's half, and have all its pages. -/
def Paging.Fits (s : Paging) : Prop := ∀ t ∈ s.tasks, SpaceFits (s.mm t)

namespace Paging

variable {s s' : Paging} {t : Nat} {ok : Bool}

/-! ## The loader -/

theorem createVma_inv {addr len : Nat} (h : PagingInv none none s) (hc : s.createVma t addr len = (ok, s')) :
    PagingInv none none s' := by
  obtain ⟨hn, hf, ht, ⟨-, hm⟩ | ⟨-, hm⟩⟩ := createVma_spec hc
  · exact h.congr hn hf ht hm
  · have hset : PagingInv none none (s.setMm t
        { s.mm t with mmap := insertArea (newArea addr len) (s.mm t).mmap }) :=
      h.setAreas rfl rfl
    exact hset.congr hn hf ht hm

theorem regionAddrs_lt {va memsz x : Nat} (hsum : wrap (va + memsz) ≤ kernelBaseAddr)
    (hx : x ∈ regionAddrs va memsz) : x < kernelBaseAddr := by
  obtain ⟨-, -, hlt⟩ := (Area.mem_addrs (dvd_roundDown ..)).mp hx
  replace hlt : x < roundUp (wrap (va + memsz)) pageSize := hlt
  rw [roundUp_of_le hsum] at hlt
  unfold kernelBaseAddr at *
  omega

theorem loadSegment_inv {va memsz : Nat} (h : PagingInv none none s) (ht : t ∈ s.tasks)
    (hs : s.loadSegment t va memsz = some (ok, s')) : PagingInv none none s' ∧ s'.tasks = s.tasks := by
  unfold loadSegment at hs
  split at hs
  · next s₁ hc =>
    cases hs
    exact ⟨createVma_inv h hc, (createVma_spec hc).2.2.1⟩
  · next s₁ hc =>
    have htasks : s₁.tasks = s.tasks := (createVma_spec hc).2.2.1
    have hsum := (createVma_accepts hc).end_le
    exact ⟨regionAlloc_inv (fun x hx => regionAddrs_lt hsum hx) (createVma_inv h hc) (htasks ▸ ht) hs,
      (regionAlloc_entries hs).1.tasks.trans htasks⟩

theorem loadSegments_inv : ∀ {prog : List Segment} {s : Paging} {ok : Bool}, PagingInv none none s → t ∈ s.tasks →
    s.loadSegments t prog = some (ok, s') → PagingInv none none s' ∧ s'.tasks = s.tasks
  | [], _, _, h, _, hs => by
    cases hs
    exact ⟨h, rfl⟩
  | g :: prog, s, ok, h, ht, hs => by
    simp only [loadSegments, Option.bind_eq_some_iff, Prod.exists] at hs
    obtain ⟨ok₁, s₁, hl, hs⟩ := hs
    obtain ⟨h₁, ht₁⟩ := loadSegment_inv h ht hl
    split at hs
    · obtain ⟨h₂, ht₂⟩ := loadSegments_inv h₁ (ht₁ ▸ ht) hs
      exact ⟨h₂, ht₂.trans ht₁⟩
    · cases hs
      exact ⟨h₁, ht₁⟩

theorem loadIcode_inv {prog : List Segment} (h : PagingInv none none s) (ht : t ∈ s.tasks)
    (hs : s.loadIcode t prog = some (ok, s')) : PagingInv none none s' := by
  simp only [loadIcode, Option.bind_eq_some_iff, Prod.exists] at hs
  obtain ⟨ok₁, s₁, hl, hs⟩ := hs
  obtain ⟨h₁, -⟩ := loadSegments_inv h ht hl
  split at hs
  · split at hs
    · cases hs
    next s₂ hc₂ =>
    have h₃ : PagingInv none none (s₂.setMm t { s₂.mm t with startBrk := heapStart prog }) :=
      (createVma_inv h₁ hc₂).setAreas rfl rfl
    split at hs
    · cases hs
    next s₄ hc₄ =>
    cases hs
    exact createVma_inv h₃ hc₄
  · cases hs
    exact h₁

/-! ## The arguments of `execve` -/

/-- Where the page of the arguments may be mapped in the end. -/
theorem pushArgs_once {cur p v : Nat} {ok₂ ok₃ : Bool} {s₁ s₂ s₃ s₄ : Paging} (hz : s₁.userRefs p = 0)
    (h₂ : (ok₂ = false → SameEntries s₁ s₂) ∧ (ok₂ = true → Edits t v (some ⟨p, true⟩) s₁ s₂))
    (h₃ : (ok₃ = false → SameEntries s₂ s₃) ∧
      (ok₃ = true → Edits cur (userTempBott / pageSize) (some ⟨p, true⟩) s₂ s₃))
    (h₄ : Edits cur (userTempBott / pageSize) none s₃ s₄) : s₄.userRefs p ≤ 1 := by
  have htasks : s₄.tasks = s₁.tasks := by
    rw [h₄.tasks]
    cases ok₃ with
    | false => cases ok₂ with
      | false => exact (h₃.1 rfl).tasks.trans (h₂.1 rfl).tasks
      | true => exact (h₃.1 rfl).tasks.trans (h₂.2 rfl).tasks
    | true => cases ok₂ with
      | false => exact (h₃.2 rfl).tasks.trans (h₂.1 rfl).tasks
      | true => exact (h₃.2 rfl).tasks.trans (h₂.2 rfl).tasks
  refine refs_le_one (j := (t, v)) fun x hx he => ?_
  rw [htasks] at hx
  rw [Space.frame, h₄.pte] at he
  by_cases hcur : x.1 = cur ∧ x.2 = userTempBott / pageSize
  · rw [if_pos hcur] at he
    cases he
  · rw [if_neg hcur] at he
    have he₃ : ((s₂.mm x.1).pte x.2).map Pte.frame = some p := by
      cases ok₃ with
      | false => rw [← (h₃.1 rfl).pte]; exact he
      | true =>
        rw [(h₃.2 rfl).pte, if_neg hcur] at he
        exact he
    by_cases ht : x.1 = t ∧ x.2 = v
    · exact Prod.ext ht.1 ht.2
    · have he₂ : ((s₁.mm x.1).pte x.2).map Pte.frame = some p := by
        cases ok₂ with
        | false => rw [← (h₂.1 rfl).pte]; exact he₃
        | true =>
          rw [(h₂.2 rfl).pte, if_neg ht] at he₃
          exact he₃
      exact absurd he₂ (refs_eq_zero.mp hz x hx)

theorem pushArgs_inv {cur : Nat} (h : PagingInv none none s) (ht : t ∈ s.tasks) (hcur : cur ∈ s.tasks)
    (hs : s.pushArgs t cur = some s') : PagingInv none none s' := by
  unfold pushArgs at hs
  split at hs
  · cases hs
  next p s₁ ha =>
  simp only [Option.bind_eq_some_iff, Prod.exists] at hs
  obtain ⟨ok₂, s₂, hi₂, ok₃, s₃, hi₃, hr⟩ := hs
  obtain ⟨h₁, hk, -, -, hp⟩ := pageAlloc_spec h ha
  obtain ⟨hl, hz, -⟩ := hp p rfl
  have ht₁ : t ∈ s₁.tasks := hk.tasks ▸ ht
  obtain ⟨h₂, hk₂, he₂⟩ := pageInsert_spec h₁ ht₁ (by decide) hl (.inr hz) hi₂
  have hl₂ : s₂.tasks = s₁.tasks ∧ s₂.Loose p := by
    cases ok₂ with
    | false => exact ⟨(hk₂ rfl).tasks, (hk₂ rfl).loose p hl⟩
    | true =>
      have htasks := (he₂ rfl).tasks
      have hmap : (s₂.mm t).frame ((userStackTop - pageSize) / pageSize) = some p := by
        rw [Space.frame, (he₂ rfl).pte, if_pos ⟨rfl, rfl⟩]
        rfl
      exact ⟨htasks, h₂.loose_of_pos (PagingInv.mapped_pos (htasks ▸ ht₁) (page_lt (by decide)) hmap)⟩
  -- both pages show the same frame for a moment
  have hcur₂ : cur ∈ s₂.tasks := hl₂.1 ▸ hk.tasks ▸ hcur
  obtain ⟨h₃, hk₃, he₃⟩ := pageInsert_spec (PagingInv.weaken h₂ (some p)) hcur₂ (by decide) hl₂.2 (.inl rfl) hi₃
  have hcur₃ : cur ∈ s₃.tasks := by
    cases ok₃ with
    | false => exact (hk₃ rfl).tasks ▸ hcur₂
    | true => exact (he₃ rfl).tasks ▸ hcur₂
  obtain ⟨h₄, he₄, -⟩ := pageRemove_spec h₃ hcur₃ (by decide) hr
  exact PagingInv.mapped_once h₄ (pushArgs_once hz (pageInsert_entries hi₂) (pageInsert_entries hi₃) he₄)

/-! ## Runs -/

theorem Start.inv (h : s.Start) : PagingInv none none s := by
  have hu : ∀ p, s.userRefs p = 0 := fun p => by rw [userRefs, h.tasks]; rfl
  have hk : ∀ p, s.tableRefs p = 0 := fun p => by rw [tableRefs, pmdRefs, pteRefs, h.tasks]; rfl
  have hr : ∀ p, s.rootRefs p = 0 := fun p => by rw [rootRefs, h.tasks]; rfl
  refine ⟨fun p => ?_, h.nodup, fun p _ => ?_, fun p => ?_, fun p hp => ?_, fun t ht => ?_⟩
  · rw [h.nref, hu, hk]
    rfl
  · rw [hu, hk, hr]
    exact ⟨rfl, rfl, rfl⟩
  · rw [hk, hr]
    exact Nat.zero_le 1
  · exact ⟨hu p, rfl⟩
  · rw [h.tasks] at ht
    cases ht

theorem taskCreate_inv {prog : List Segment} (h : PagingInv none none s) (ht : t ∉ s.tasks)
    (hs : s.taskCreate t prog = some s') : PagingInv none none s' := by
  obtain ⟨p, g, ha, hl⟩ := taskCreate_some hs
  obtain ⟨h₁, hk, -, -, hp⟩ := pageAlloc_spec h ha
  obtain ⟨hloose, hz, -⟩ := hp p rfl
  exact loadIcode_inv (newMm_inv h₁ (hk.tasks ▸ ht) 0 hloose hz) (Finset.mem_insert_self t g.tasks) hl

theorem step_inv (hfit : s.Fits) (h : PagingInv none none s) (hs : UserStep s s') : PagingInv none none s' := by
  have hgood : s.Good := ⟨h, hfit⟩
  cases hs with
  | create ht _ hs => exact taskCreate_inv h ht hs
  | pushArgs ht hcur hs => exact pushArgs_inv h ht hcur hs
  | fault ht _ hs => exact (faultIn_good hgood ht hs).inv
  | kill ht _ hs hl hexit =>
    have hareas := faultIn_areas hs
    refine (exitAreas_good (faultIn_good hgood ht hs) (hareas.tasks ▸ ht) ?_ hexit).inv
    rw [hareas.mmap]
    exact hl
  | brk endData _ => exact h.setAreas rfl rfl
  | fork ht hc hl hback hs => exact (forkAlong_good hgood ht hc hl hback hs).inv
  | exit ht hl hs => exact (exitAreas_good hgood ht hl hs).inv
  | memory => exact h.congr rfl rfl rfl rfl
  | oracle => exact h.congr rfl rfl rfl rfl

end Paging

theorem UserRun.inv {s : Paging} (h : UserRun Paging.Fits s) : PagingInv none none s :=
  h.invariant (fun _ h₀ => h₀.inv) fun _ _ hfit hi hs _ => Paging.step_inv hfit hi hs

end MiniOS
