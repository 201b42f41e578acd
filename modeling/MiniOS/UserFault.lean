import MiniOS.ForkEntries
import MiniOS.SegmentArea
import MiniOS.UserRun

/-!
# Faults of user mode

`handle_pte_fault` panics where a page is missing outside the stack and the heap. The areas of
the segments keep all their pages along a run, except for the one at `USER_TEMPBOTT`, which
`do_wp_fault` and `execve` take for themselves.
-/

namespace MiniOS

open List Option

def tempPage : Nat := userTempBott / pageSize

/-- Every area starts on a page, and it is one of those that are filled on demand or has
all its pages. -/
def Space.Filled (onDemand : Nat → Prop) (sp : Space) : Prop :=
  ∀ a ∈ sp.mmap, (0 < a.vmStart ∧ a.vmStart < 2 ^ 32 ∧ pageSize ∣ a.vmStart) ∧
    (onDemand a.vmStart ∨ ∀ v, a.Covers v → sp.frame v ≠ none)

def Space.OnDemand (sp : Space) (start : Nat) : Prop := start = userStackBott ∨ start = sp.startBrk

def Space.Full (sp : Space) : Prop := sp.Filled sp.OnDemand

def Space.Clear (sp : Space) : Prop := ∀ a ∈ sp.mmap, a.vmEnd ≤ kernelBaseAddr ∧ ¬ a.Covers tempPage

/-- No area of a live task goes into the kernel's half or has the page at `USER_TEMPBOTT`. -/
def Paging.Clear (s : Paging) : Prop := ∀ t ∈ s.tasks, (s.mm t).Clear

theorem Area.covers_of_mem {a : Area} {va : Nat} (h : pageSize ∣ a.vmStart) (h₁ : a.vmStart ≤ va)
    (h₂ : va < a.vmEnd) : a.Covers (va / pageSize) := by
  obtain ⟨k, hk⟩ := h
  unfold Area.Covers
  rw [hk] at h₁ ⊢
  unfold pageSize at *
  omega

namespace Paging

variable {s s' s'' : Paging} {t v p : Nat}

/-! ## Pages that stay mapped -/

/-- The space of `t` keeps its areas and its pages, except for the temporary one. -/
structure Holds (t : Nat) (s s' : Paging) : Prop where
  mmap : (s'.mm t).mmap = (s.mm t).mmap
  startBrk : (s'.mm t).startBrk = (s.mm t).startBrk
  frame : ∀ v, v ≠ tempPage → (s.mm t).frame v ≠ none → (s'.mm t).frame v ≠ none

theorem Holds.trans (h : Holds t s s') (h' : Holds t s' s'') : Holds t s s'' where
  mmap := h'.mmap.trans h.mmap
  startBrk := h'.startBrk.trans h.startBrk
  frame v hv hf := h'.frame v hv (h.frame v hv hf)

theorem SameEntries.holds (h : SameEntries s s') (t : Nat) : Holds t s s' :=
  ⟨h.mmap t, h.startBrk t, fun v _ hf => by rw [h.frame]; exact hf⟩

theorem Edits.holds {e : Option Pte} (h : Edits t v e s s') (he : e ≠ none ∨ v = tempPage) (t' : Nat) :
    Holds t' s s' where
  mmap := h.mmap t'
  startBrk := h.startBrk t'
  frame w hw hf := by
    rw [Space.frame, h.pte]
    split
    · next heq =>
      have hne : e ≠ none := he.resolve_right fun hv => hw (heq.2.trans hv)
      exact fun hn => hne (map_eq_none_iff.mp hn)
    · exact hf

theorem Holds.full (h : Holds t s s') (hclear : (s.mm t).Clear) (hfull : (s.mm t).Full) : (s'.mm t).Full := by
  intro a ha
  rw [h.mmap] at ha
  obtain ⟨hstart, hall⟩ := hfull a ha
  refine ⟨hstart, hall.imp (fun hd => ?_) fun hm v hv => ?_⟩
  · unfold Space.OnDemand
    rw [h.startBrk]
    exact hd
  · exact h.frame v (fun e => (hclear a ha).2 (e ▸ hv)) (hm v hv)

/-! ## The handler -/

structure Serves (t va : Nat) (write : Bool) (s : Paging) (ok : Bool) (s' : Paging) : Prop where
  only : Only t s s'
  holds : Holds t s s'
  done : ok = true → ¬ s'.Faults t va write

theorem not_faults {va : Nat} {write : Bool} (hva : va < kernelBaseAddr)
    (h : (s.mm t).pte (va / pageSize) = some ⟨p, true⟩) : ¬ s.Faults t va write := by
  intro hf
  rcases hf with hf | hf | hf
  · omega
  · rw [h] at hf
    cases hf
  · obtain ⟨-, q, hq⟩ := hf
    rw [h] at hq
    cases hq

def Handled (t va : Nat) (write : Bool) (s : Paging) (r : Option (Bool × Paging)) : Prop :=
  ∃ ok s', r = some (ok, s') ∧ Serves t va write s ok s'

section
variable {va : Nat} {write : Bool}

theorem handled_exit (ho : Only t s s') (h : Holds t s s') : Handled t va write s (some (false, s')) :=
  ⟨false, s', rfl, ho, h, nofun⟩

theorem Handled.after (ho : Only t s s') (hh : Holds t s s') {r : Option (Bool × Paging)}
    (h : Handled t va write s' r) : Handled t va write s r := by
  obtain ⟨ok, s₁, e, hs⟩ := h
  exact ⟨ok, s₁, e, ho.trans hs.only, hh.trans hs.holds, hs.done⟩

theorem handled_edits (hva : va < kernelBaseAddr) (ho : Only t s s')
    (h : Edits t (va / pageSize) (some ⟨p, true⟩) s s') : Handled t va write s (some (true, s')) :=
  ⟨true, s', rfl, ho, h.holds (.inl nofun) t, fun _ => not_faults hva (by rw [h.pte, if_pos ⟨rfl, rfl⟩])⟩

theorem table_of_frame (h : (s.mm t).frame v ≠ none) : ((s.mm t).pteTable (v / ptrsPerTable)).isSome := by
  obtain ⟨p, hp⟩ := ne_none_iff_exists'.mp h
  obtain ⟨e, he, -⟩ := map_eq_some_iff.mp hp
  exact Space.pteTable_of_pte he

theorem moveFrame_of_frames {dst src q : Nat} (hd : (s.mm t).frame dst = some p)
    (hq : (s.mm t).frame src = some q) :
    ∃ s', s.moveFrame t dst src = some s' ∧ s'.tasks = s.tasks ∧ s'.mm = s.mm := by
  simp only [moveFrame, bind_eq_bind, hd, hq, bind_some, Option.pure_def]
  exact ⟨_, rfl, rfl, rfl⟩

/-- The frame `p`, mapped at the temporary page of `s₂`, takes the place of the shared page. -/
theorem copyShared_serves {e : Pte} {s₂ : Paging} (hva : va < kernelBaseAddr) (h₀ : va ≠ 0)
    (htemp : va / pageSize ≠ tempPage)
    (he : (s.mm t).pte (va / pageSize) = some e) (ho₂ : Only t s s₂)
    (he₂ : Edits t tempPage (some ⟨p, true⟩) s s₂) :
    ∃ s₃ s₄ s₅, s₂.moveFrame t (userTempBott / pageSize) (va / pageSize) = some s₃ ∧
      s₃.pageInsert t p va = some (true, s₄) ∧ s₄.pageRemove t userTempBott = some s₅ ∧
      Serves t va write s true s₅ := by
  have hd : (s₂.mm t).frame (userTempBott / pageSize) = some p := by
    rw [Space.frame, he₂.pte, if_pos ⟨rfl, rfl⟩]
    rfl
  have hq : (s₂.mm t).frame (va / pageSize) = some e.frame := by
    rw [Space.frame, he₂.pte, if_neg fun h => htemp h.2, he]
    rfl
  obtain ⟨s₃, hmove, ht₃, hm₃⟩ := moveFrame_of_frames hd hq
  have htab : ((s₃.mm t).pteTable (va / pageSize / ptrsPerTable)).isSome := by
    rw [hm₃]
    exact table_of_frame (by rw [hq]; exact some_ne_none _)
  obtain ⟨s₄, hi₄⟩ := pageInsert_of_table (p := p) h₀ htab
  have hne₅ : s₄.pageRemove t userTempBott ≠ none := pageRemove_ne_none (by decide)
  obtain ⟨s₅, hr⟩ := ne_none_iff_exists'.mp hne₅
  have he₄ : Edits t (va / pageSize) (some ⟨p, true⟩) s₂ s₄ :=
    (SameEntries.of_mm ht₃ hm₃).edits ((pageInsert_entries hi₄).2 rfl)
  have he₅ := (pageRemove_entries hr).1
  have hholds : Holds t s s₅ := ((he₂.holds (.inl (some_ne_none _)) t).trans
    (he₄.holds (.inl (some_ne_none _)) t)).trans
    (he₅.holds (.inr rfl) t)
  have honly : Only t s s₅ := ((ho₂.trans (only_of_mm ht₃ hm₃)).trans (pageInsert_only hi₄)).trans
    (pageRemove_only hr)
  refine ⟨s₃, s₄, s₅, hmove, hi₄, hr, honly, hholds, fun _ => not_faults (p := p) hva ?_⟩
  rw [he₅.pte, if_neg fun h => htemp h.2, he₄.pte, if_pos ⟨rfl, rfl⟩]

theorem doWpFault_handled {e : Pte} (hva : va < kernelBaseAddr) (h₀ : va ≠ 0) (htemp : va / pageSize ≠ tempPage)
    (he : (s.mm t).pte (va / pageSize) = some e) : Handled t va write s (s.doWpFault t va e) := by
  unfold doWpFault
  split
  · exact handled_edits hva (only_setMm ..) (edits_pteSet (Space.pteTable_of_pte he))
  split
  · next s₁ ha => exact handled_exit (pageAlloc_only ha) ((pageAlloc_same ha).holds t)
  next p s₁ ha =>
  have hs₁ := pageAlloc_same ha
  have hne₂ : s₁.pageInsert t p userTempBott ≠ none := pageInsert_ne_none (by decide)
  obtain ⟨⟨ok, s₂⟩, hi₂⟩ := ne_none_iff_exists'.mp hne₂
  have ho₂ := (pageAlloc_only ha).trans (pageInsert_only hi₂)
  simp only [bind_eq_bind, hi₂, bind_some]
  cases ok with
  | false =>
    have hs₂ := hs₁.trans ((pageInsert_entries hi₂).1 rfl)
    have hfreed : SameEntries s (s₂.pageFree p) := hs₂.trans (.of_mm rfl rfl)
    exact handled_exit (ho₂.trans (only_of_mm rfl rfl)) (hfreed.holds t)
  | true =>
    obtain ⟨s₃, s₄, s₅, hmove, hi₄, hr, hserves⟩ :=
      copyShared_serves hva h₀ htemp he ho₂ (hs₁.edits ((pageInsert_entries hi₂).2 rfl))
    simp only [if_true, hmove, hi₄, hr, bind_some]
    exact ⟨true, s₅, rfl, hserves⟩

theorem handlePteFault_handled {a : Area} (hfull : (s.mm t).Full) (hclear : (s.mm t).Clear) (ha : a ∈ (s.mm t).mmap)
    (h₁ : a.vmStart ≤ va) (h₂ : va < a.vmEnd) (htab : ((s.mm t).pteTable (va / pageSize / ptrsPerTable)).isSome)
    (hf : s.Faults t va write) : Handled t va write s (s.handlePteFault t a va write) := by
  obtain ⟨⟨hstart, -, hdvd⟩, hall⟩ := hfull a ha
  have hc := Area.covers_of_mem hdvd h₁ h₂
  have hva : va < kernelBaseAddr := h₂.trans_le (hclear a ha).1
  have h₀ : va ≠ 0 := Nat.ne_of_gt (hstart.trans_le h₁)
  unfold handlePteFault
  split
  · next e he =>
    -- a present page faults only when it is written and not writable
    have hw : write = true ∧ e.write = false := by
      rcases hf with hf | hf | hf
      · omega
      · rw [he] at hf
        cases hf
      · obtain ⟨hwrite, q, hq⟩ := hf
        rw [he] at hq
        cases hq
        exact ⟨hwrite, rfl⟩
    rw [hw.1, hw.2]
    exact doWpFault_handled hva h₀ (fun e => (hclear a ha).2 (e ▸ hc)) he
  · next hnone =>
    have hdemand : a.vmStart = userStackBott ∨ a.vmStart = (s.mm t).startBrk :=
      hall.resolve_right fun h => h _ hc (by rw [Space.frame, hnone]; rfl)
    rw [if_pos hdemand]
    split
    · next s₁ hal => exact handled_exit (pageAlloc_only hal) ((pageAlloc_same hal).holds t)
    · next p s₁ hal =>
      have htab₁ : ((s₁.mm t).pteTable (va / pageSize / ptrsPerTable)).isSome := by
        rw [(pageAlloc_fields hal).2.1]
        exact htab
      obtain ⟨s₂, hi⟩ := pageInsert_of_table (p := p) h₀ htab₁
      have he := (pageAlloc_same hal).edits ((pageInsert_entries hi).2 rfl)
      simp only [bind_eq_bind, hi, bind_some, if_true]
      exact handled_edits hva ((pageAlloc_only hal).trans (pageInsert_only hi)) he

theorem faultIn_handled (hfull : (s.mm t).Full) (hclear : (s.mm t).Clear) (hf : s.Faults t va write) :
    Handled t va write s (s.faultIn t va write ((s.mm t).findVma va)) := by
  have hsame := (SameEntries.refl s).holds t
  unfold faultIn
  split
  · exact handled_exit (.refl t s) hsame
  next a hfind =>
  split
  · exact handled_exit (.refl t s) hsame
  next hstart =>
  split
  · next s₁ hw => exact handled_exit (pageWalk_only hw) ((pageWalk_entries hw).1.holds t)
  · next s₁ hw =>
    obtain ⟨hsame, htab⟩ := pageWalk_entries hw
    have hholds := hsame.holds t
    have hf₁ : s₁.Faults t va write := by
      unfold Faults
      rw [hsame.pte]
      exact hf
    have hclear₁ : (s₁.mm t).Clear := by
      unfold Space.Clear
      rw [hsame.mmap]
      exact hclear
    have ha : a ∈ (s₁.mm t).mmap := by
      rw [hsame.mmap]
      exact mem_of_find?_eq_some hfind
    have hend : va < a.vmEnd := by simpa using find?_some hfind
    exact (handlePteFault_handled (hholds.full hclear hfull) hclear₁ ha (Nat.not_lt.mp hstart) hend
      (htab rfl) hf₁).after (pageWalk_only hw) hholds

end

/-! ## The loader -/

section
variable {P : Nat → Prop} {va memsz : Nat} {prog : List Segment}

theorem createVma_filled {addr len : Nat} (h : s.createVma t addr len = (true, s')) (haddr : addr < 2 ^ 32)
    (hf : (s.mm t).Filled P)
    (hnew : P (roundDown addr pageSize) ∨ ∀ v, (newArea addr len).Covers v → (s.mm t).frame v ≠ none) :
    (s'.mm t).Filled P := by
  have hpos := (createVma_accepts h).start
  rw [createVma_self h]
  intro a ha
  rcases mem_cons.mp ((insertArea_perm ..).mem_iff.mp ha) with rfl | ha
  · have hle : roundDown addr pageSize ≤ addr := roundDown_le ..
    exact ⟨⟨Nat.pos_of_ne_zero hpos, hle.trans_lt haddr, dvd_roundDown ..⟩, hnew⟩
  · exact hf a ha

theorem filled_setBrk {sp : Space} (brk : Nat) (h : sp.Filled P) : { sp with startBrk := brk }.Filled P := h

/-- Every page of the area is one of those that are mapped. -/
theorem mem_regionPages_of_covers (hva : va < 2 ^ 32) (hm : memsz ≤ kernelBaseAddr)
    (hsum : wrap (va + memsz) ≤ kernelBaseAddr) (hv : (newArea va memsz).Covers v) : v ∈ regionPages va memsz := by
  rw [regionPages_covers]
  obtain ⟨h₁, h₂⟩ := hv
  refine ⟨h₁, ?_⟩
  show v * pageSize < roundUp (wrap (va + memsz)) pageSize
  rw [roundUp_of_le hsum]
  replace h₁ : roundDown va pageSize ≤ v * pageSize := h₁
  replace h₂ : v * pageSize < wrap (roundDown va pageSize + roundUp memsz pageSize) := h₂
  rw [roundUp_of_le hm] at h₂
  unfold roundDown wrap pageSize kernelBaseAddr at *
  omega

theorem Maps.spares {pages : List Nat} (h : Maps t pages s s') : Spares t s s' where
  mmap t' _ := h.mmap t'
  startBrk t' _ := h.startBrk t'
  frame t' ht v := by rw [Space.frame, h.kept (.inl ht), Space.frame]

theorem Maps.frame {pages : List Nat} (h : Maps t pages s s') (hv : v ∈ pages ∨ (s.mm t).frame v ≠ none) :
    (s'.mm t).frame v ≠ none := by
  by_cases hp : v ∈ pages
  · obtain ⟨p, hp⟩ := h.mapped v hp
    rw [Space.frame, hp]
    exact some_ne_none _
  · rw [Space.frame, h.kept (.inr hp)]
    exact hv.resolve_left hp

theorem loadSegment_filled (hva : va < 2 ^ 32) (h : s.loadSegment t va memsz = some (true, s')) :
    s'.tasks = s.tasks ∧ Spares t s s' ∧ ((s.mm t).Filled (fun _ => False) → (s'.mm t).Filled fun _ => False) := by
  obtain ⟨s₁, hc, hmaps⟩ := loadSegment_accepts h
  obtain ⟨hpos, hm, hsum, -⟩ := createVma_accepts hc
  refine ⟨hmaps.tasks.trans (createVma_spec hc).2.2.1, (createVma_spares hc).trans hmaps.spares, fun hf => ?_⟩
  have hself := createVma_self hc
  intro a ha
  rw [hmaps.mmap, hself] at ha
  rcases mem_cons.mp ((insertArea_perm ..).mem_iff.mp ha) with rfl | ha
  · have hle : roundDown va pageSize ≤ va := roundDown_le ..
    exact ⟨⟨Nat.pos_of_ne_zero hpos, hle.trans_lt hva, dvd_roundDown ..⟩,
      .inr fun v hv => hmaps.frame (.inl (mem_regionPages_of_covers hva hm hsum hv))⟩
  · obtain ⟨hstart, hall⟩ := hf a ha
    refine ⟨hstart, .inr fun v hv => hmaps.frame (.inr ?_)⟩
    rw [hself]
    exact hall.resolve_left id v hv

theorem loadSegments_cons {g : Segment} (h : s.loadSegments t (g :: prog) = some (true, s')) :
    ∃ s₁, s.loadSegment t g.va g.memsz = some (true, s₁) ∧ s₁.loadSegments t prog = some (true, s') := by
  simp only [loadSegments, bind_eq_some_iff, Prod.exists] at h
  obtain ⟨ok, s₁, hl, h⟩ := h
  split at h
  · next hok =>
    rw [hok.1] at hl
    exact ⟨s₁, hl, h⟩
  · cases h

/-- A program that is loaded: its segments, the stack, and the heap behind them. -/
theorem loadIcode_parts (h : s.loadIcode t prog = some (true, s')) : ∃ s₁ s₂,
    s.loadSegments t prog = some (true, s₁) ∧
    s₁.createVma t userStackBott (userStackTop - userStackBott) = (true, s₂) ∧
      (s₂.setMm t { s₂.mm t with startBrk := heapStart prog }).createVma t (heapStart prog) pageSize =
      (true, s') := by
  simp only [loadIcode, bind_eq_some_iff, Prod.exists] at h
  obtain ⟨ok, s₁, hl, h⟩ := h
  split at h
  · next hok =>
    rw [hok] at hl
    split at h
    · cases h
    next s₂ hc₂ =>
    split at h
    · cases h
    next s₄ hc₄ =>
    cases h
    exact ⟨s₁, s₂, hl, hc₂, hc₄⟩
  · cases h

theorem loadSegments_filled : ∀ {prog : List Segment} {s : Paging}, (∀ g ∈ prog, g.va < 2 ^ 32) →
    s.loadSegments t prog = some (true, s') → s'.tasks = s.tasks ∧ Spares t s s' ∧
      ((s.mm t).Filled (fun _ => False) → (s'.mm t).Filled fun _ => False)
  | [], _, _, h => by
    cases h
    exact ⟨rfl, (SameEntries.refl _).spares t, id⟩
  | g :: prog, s, hva, h => by
    obtain ⟨s₁, hl, h⟩ := loadSegments_cons h
    obtain ⟨ht₁, hs₁, hf₁⟩ := loadSegment_filled (hva g (mem_cons_self ..)) hl
    obtain ⟨ht₂, hs₂, hf₂⟩ := loadSegments_filled (fun g hg => hva g (mem_cons_of_mem _ hg)) h
    exact ⟨ht₂.trans ht₁, hs₁.trans hs₂, fun hf => hf₂ (hf₁ hf)⟩

theorem heapStart_lt (prog : List Segment) : heapStart prog < 2 ^ 32 :=
  Nat.lt_of_le_of_lt (roundDown_le ..) (wrap_lt _)

theorem loadIcode_full (hva : ∀ g ∈ prog, g.va < 2 ^ 32)
    (h : s.loadIcode t prog = some (true, s')) (hempty : (s.mm t).mmap = []) :
    s'.tasks = s.tasks ∧ Spares t s s' ∧ (s'.mm t).Full := by
  obtain ⟨s₁, s₂, hl, hc₂, hc₄⟩ := loadIcode_parts h
  obtain ⟨ht₁, hs₁, hf₁⟩ := loadSegments_filled hva hl
  have hf₁ := hf₁ fun a ha => by rw [hempty] at ha; cases ha
  generalize hs₃ : s₂.setMm t { s₂.mm t with startBrk := heapStart prog } = s₃ at hc₄
  have hm₃ : s₃.mm t = { s₂.mm t with startBrk := heapStart prog } := by rw [← hs₃, setMm_mm_self]
  have ht₃ : s₃.tasks = s₂.tasks := by rw [← hs₃]; rfl
  have hs₃ : Spares t s₂ s₃ := .of_other fun t' ht => by rw [← hs₃, setMm_mm_of_ne _ _ ht]
  refine ⟨(createVma_spec hc₄).2.2.1.trans (ht₃.trans ((createVma_spec hc₂).2.2.1.trans ht₁)),
    ((hs₁.trans (createVma_spares hc₂)).trans hs₃).trans (createVma_spares hc₄), ?_⟩
  -- the segments are there, the stack and the heap come on demand
  have hf₂ : (s₂.mm t).Filled fun start => start = userStackBott ∨ start = heapStart prog :=
    createVma_filled hc₂ (by decide) (fun a ha => ⟨(hf₁ a ha).1, .inr ((hf₁ a ha).2.resolve_left id)⟩)
      (.inl (.inl rfl))
  have hf₃ : (s₃.mm t).Filled fun start => start = userStackBott ∨ start = heapStart prog := by
    rw [hm₃]
    exact filled_setBrk _ hf₂
  have hround : roundDown (heapStart prog) pageSize = heapStart prog := roundDown_of_dvd (dvd_roundUp _)
  have hf₄ := createVma_filled hc₄ (heapStart_lt prog) hf₃ (.inl (.inr hround))
  have hbrk : (s'.mm t).startBrk = heapStart prog := by
    rw [createVma_self hc₄, hm₃]
  unfold Space.Full Space.OnDemand
  rw [hbrk]
  exact hf₄

end

/-! ## Fork and `brk` -/

theorem copiedAreas_perm : ∀ l m : List Area, (copiedAreas l m).Perm (l.map Area.copied ++ m)
  | [], m => .refl m
  | a :: l, m => (copiedAreas_perm l (insertArea a.copied m)).trans
      (((insertArea_perm a.copied m).append_left _).trans perm_middle)

/-- The copy of an area has no page that the area has not. -/
theorem covers_of_copy {a : Area} (h₁ : a.vmStart < 2 ^ 32) (h₂ : pageSize ∣ a.vmStart)
    (h₃ : a.vmEnd ≤ kernelBaseAddr) (hv : a.copied.Covers v) : a.Covers v := by
  obtain ⟨hv₁, hv₂⟩ := hv
  replace hv₁ : roundDown a.vmStart pageSize ≤ v * pageSize := hv₁
  replace hv₂ : v * pageSize < wrap (roundDown a.vmStart pageSize + roundUp a.length pageSize) := hv₂
  obtain ⟨start, fin⟩ := a
  obtain ⟨k, rfl⟩ := h₂
  unfold Area.Covers
  unfold roundUp roundDown Area.length wrap pageSize kernelBaseAddr at *
  dsimp only at *
  omega

theorem mem_areaPages {l : List Area} {a : Area} (ha : a ∈ l) (h : pageSize ∣ a.vmStart) (hv : a.Covers v) :
    v ∈ areaPages l :=
  mem_flatMap.mpr ⟨a, ha, (mem_addrs_pages h).mpr hv⟩

theorem Forked.full {child : Nat} {l : List Area} (h : Forked t child l s s') (hl : l.Perm (s.mm t).mmap)
    (hclear : (s.mm t).Clear) (hfull : (s.mm t).Full) : (s'.mm child).Full := by
  intro a ha
  rw [h.mmap] at ha
  have ha := (copiedAreas_perm l []).mem_iff.mp ha
  rw [append_nil] at ha
  obtain ⟨b, hbl, rfl⟩ := List.mem_map.mp ha
  have hb : b ∈ (s.mm t).mmap := hl.mem_iff.mp hbl
  obtain ⟨⟨hpos, hlt, hdvd⟩, hall⟩ := hfull b hb
  rw [Area.copied_start hdvd]
  refine ⟨⟨hpos, hlt, hdvd⟩, hall.imp (fun hd => ?_) fun hm v hv => ?_⟩
  · unfold Space.OnDemand
    rw [h.startBrk]
    exact hd
  · have hv := covers_of_copy hlt hdvd (hclear b hb).1 hv
    rw [h.frame, if_pos (mem_areaPages hbl hdvd hv)]
    exact hm v hv

theorem Spares.full {dest : Nat} (h : Spares dest s s') (ht : t ≠ dest) (hfull : (s.mm t).Full) :
    (s'.mm t).Full := by
  intro a ha
  rw [h.mmap t ht] at ha
  obtain ⟨hstart, hall⟩ := hfull a ha
  refine ⟨hstart, hall.imp (fun hd => ?_) fun hm v hv => ?_⟩
  · unfold Space.OnDemand
    rw [h.startBrk t ht]
    exact hd
  · rw [h.frame t ht]
    exact hm v hv

theorem pushArgs_holds {cur : Nat} (h : s.pushArgs t cur = some s') : s'.tasks = s.tasks ∧ ∀ t', Holds t' s s' := by
  have hinsert {s s' : Paging} {t p va : Nat} {ok : Bool} (h : s.pageInsert t p va = some (ok, s')) :
      s'.tasks = s.tasks ∧ ∀ t', Holds t' s s' := by
    cases ok with
    | false => exact ⟨((pageInsert_entries h).1 rfl).tasks, ((pageInsert_entries h).1 rfl).holds⟩
    | true => exact ⟨((pageInsert_entries h).2 rfl).tasks, ((pageInsert_entries h).2 rfl).holds (.inl nofun)⟩
  unfold pushArgs at h
  split at h
  · cases h
  next p s₁ ha =>
  simp only [bind_eq_some_iff, Prod.exists] at h
  obtain ⟨ok₂, s₂, h₂, ok₃, s₃, h₃, h₄⟩ := h
  have hs₁ := pageAlloc_same ha
  have hs₄ := (pageRemove_entries h₄).1
  refine ⟨hs₄.tasks.trans ((hinsert h₃).1.trans ((hinsert h₂).1.trans hs₁.tasks)), fun t' => ?_⟩
  exact (((hs₁.holds t').trans ((hinsert h₂).2 t')).trans ((hinsert h₃).2 t')).trans (hs₄.holds (.inr rfl) t')

/-! ## Runs -/

def Full (s : Paging) : Prop := ∀ t ∈ s.tasks, (s.mm t).Full

theorem taskCreate_spaces {prog : List Segment} (hva : ∀ g ∈ prog, g.va < 2 ^ 32)
    (hs : s.taskCreate t prog = some s') :
    (∀ t' ∈ s'.tasks, t' ≠ t → t' ∈ s.tasks) ∧ Spares t s s' ∧ (s'.mm t).Full := by
  obtain ⟨p, g, ha, hl⟩ := taskCreate_some hs
  have hnew : ((g.newMm t 0 p).mm t).mmap = [] := by rw [newMm, setMm_mm_self]
  obtain ⟨htasks, hsp, hfull⟩ := loadIcode_full hva hl hnew
  obtain ⟨ht, hm, -⟩ := pageAlloc_fields ha
  refine ⟨fun t' ht' hne => ?_, .trans (.of_other fun t' hne => ?_) hsp, hfull⟩
  · have hmem : t' ∈ (g.newMm t 0 p).tasks := htasks ▸ ht'
    exact ht ▸ (Finset.mem_insert.mp hmem).resolve_left hne
  · rw [← hm]
    exact setMm_mm_of_ne _ _ hne

theorem taskCreate_full {prog : List Segment} (h : s.Full) (hva : ∀ g ∈ prog, g.va < 2 ^ 32)
    (hs : s.taskCreate t prog = some s') : s'.Full := by
  obtain ⟨htasks, hsp, hfull⟩ := taskCreate_spaces hva hs
  intro t' ht'
  by_cases e : t' = t
  · rw [e]
    exact hfull
  · exact hsp.full e (h t' (htasks t' ht' e))

theorem growHeap_full (endData : Nat) (h : s.Full) : (s.growHeap t endData).Full := by
  intro t' ht'
  by_cases e : t' = t
  · subst e
    have hself : (s.growHeap t' endData).mm t' = { s.mm t' with mmap := (s.mm t').mmap.map fun b =>
        if b.vmStart = (s.mm t').startBrk then { b with vmEnd := endData } else b } := setMm_mm_self ..
    rw [hself]
    intro b hb
    obtain ⟨c, hc, rfl⟩ := List.mem_map.mp hb
    obtain ⟨hstart, hall⟩ := h t' ht' c hc
    split
    · next hbrk => exact ⟨hstart, .inl (.inr hbrk)⟩
    · exact ⟨hstart, hall⟩
  · have hother : (s.growHeap t endData).mm t' = s.mm t' := setMm_mm_of_ne _ _ e
    rw [hother]
    exact h t' ht'

section
variable {child : Nat} {l : List Area} {back : List Area → List Area}

theorem forkAlong_spaces (ht : t ∈ s.tasks) (hchild : child ∉ s.tasks) (hs : s.forkAlong t child l back = some s') :
    (∀ t' ∈ s'.tasks, t' ≠ child → t' ∈ s.tasks) ∧ Spares child s s' ∧
      (child ∈ s'.tasks → Forked t child l s s') := by
  have hne : t ≠ child := fun e => hchild (e ▸ ht)
  obtain ⟨hsp, hout⟩ := forkAlong_entries hne hchild hs
  refine ⟨fun t' ht' hne => ?_, hsp, fun hnew => hout.resolve_left fun hsame => hchild (hsame ▸ hnew)⟩
  rcases hout with hsame | hforked
  · exact hsame ▸ ht'
  · exact (Finset.mem_insert.mp (hforked.tasks ▸ ht')).resolve_left hne

theorem forkAlong_full (h : s.Full) (hc : s.Clear) (ht : t ∈ s.tasks) (hchild : child ∉ s.tasks)
    (hl : l.Perm (s.mm t).mmap) (hs : s.forkAlong t child l back = some s') : s'.Full := by
  obtain ⟨htasks, hsp, hforked⟩ := forkAlong_spaces ht hchild hs
  intro t' ht'
  by_cases e : t' = child
  · rw [e] at ht' ⊢
    exact (hforked ht').full hl (hc t ht) (h t ht)
  · exact hsp.full e (h t' (htasks t' ht' e))

end

theorem kills_full (h : s.Full) (hk : Kills t s s') : s'.Full := by
  intro t' ht'
  have hmem : t' ∈ s.tasks.erase t := hk.tasks ▸ ht'
  rw [hk.other t' (Finset.ne_of_mem_erase hmem)]
  exact h t' (Finset.mem_of_mem_erase hmem)

theorem serves_full {ok write : Bool} {va : Nat} (h : s.Full) (hc : s.Clear) (ht : t ∈ s.tasks)
    (hserve : Serves t va write s ok s') : s'.Full := by
  intro t' ht'
  have ht' : t' ∈ s.tasks := hserve.only.tasks ▸ ht'
  by_cases e : t' = t
  · rw [e]
    exact hserve.holds.full (hc t ht) (h t ht)
  · rw [hserve.only.other t' e]
    exact h t' ht'

theorem step_full (hc : s.Clear) (h : s.Full) (hs : UserStep s s') : s'.Full := by
  cases hs with
  | create _ hva hs => exact taskCreate_full h hva hs
  | pushArgs _ _ hs =>
    obtain ⟨htasks, hholds⟩ := pushArgs_holds hs
    intro t' ht'
    have ht' : t' ∈ s.tasks := htasks ▸ ht'
    exact (hholds t').full (hc t' ht') (h t' ht')
  | fault ht hf hs =>
    obtain ⟨ok, g, e, hserve⟩ := faultIn_handled (h _ ht) (hc _ ht) hf
    cases hs.symm.trans e
    exact serves_full h hc ht hserve
  | kill ht hf hs _ hexit =>
    obtain ⟨ok, g, e, hserve⟩ := faultIn_handled (h _ ht) (hc _ ht) hf
    cases hs.symm.trans e
    exact kills_full h (hserve.only.kills (exitAreas_kills hexit))
  | brk endData _ => exact growHeap_full endData h
  | fork ht hchild hl _ hs => exact forkAlong_full h hc ht hchild hl hs
  | exit _ _ hs => exact kills_full h (exitAreas_kills hs)
  | memory => exact h
  | oracle => exact h

end Paging

theorem UserRun.full {P : Paging → Prop} (hP : ∀ g, P g → g.Clear) {s : Paging} (h : UserRun P s) : s.Full :=
  h.invariant (fun s h₀ t ht => by rw [h₀.tasks] at ht; cases ht) fun _ _ hp hf hs _ =>
    Paging.step_full (hP _ hp) hf hs

end MiniOS
