import MiniOS.PagingSound

/-!
# A loaded segment, its area and its pages

`create_vma` rounds the start and the length of a segment, `region_alloc` its start and its
end. The area is a page short where the two offsets add up to more than a page.
-/

namespace MiniOS

def Area.Has (a : Area) (addr : Nat) : Prop := a.vmStart ≤ addr ∧ addr < a.vmEnd

def Area.pages (a : Area) : Set Nat := { v | ∃ addr, a.Has addr ∧ addr / pageSize = v }

namespace Paging

def regionAddrs (va len : Nat) : List Nat :=
  Area.addrs ⟨roundDown va pageSize, roundUp (wrap (va + len)) pageSize⟩

def regionPages (va len : Nat) : List Nat := (regionAddrs va len).map (· / pageSize)

structure SegmentAgrees (va memsz : Nat) : Prop where
  has : ∀ addr, va ≤ addr → addr < va + memsz → (newArea va memsz).Has addr
  pages : ∀ v, v ∈ regionPages va memsz ↔ v ∈ (newArea va memsz).pages

/-! ## Ranges of whole pages -/

theorem mem_pages {a : Area} (h₁ : pageSize ∣ a.vmStart) (h₂ : pageSize ∣ a.vmEnd) {v : Nat} :
    v ∈ a.pages ↔ a.Covers v := by
  unfold Area.pages Area.Covers Area.Has pageSize at *
  rw [Set.mem_ofPred_eq]
  constructor
  · intro h
    obtain ⟨addr, h, e⟩ := h
    omega
  · intro h
    exact ⟨v * 4096, h, by omega⟩

theorem mem_addrs_pages {a : Area} (h : pageSize ∣ a.vmStart) {v : Nat} :
    v ∈ a.addrs.map (· / pageSize) ↔ a.Covers v := by
  rw [List.mem_map]
  constructor
  · intro hv
    obtain ⟨va, hva, rfl⟩ := hv
    obtain ⟨hd, hrange⟩ := (Area.mem_addrs h).mp hva
    rw [Area.Covers, Nat.div_mul_cancel hd]
    exact hrange
  · intro hv
    exact ⟨v * pageSize, (Area.mem_addrs h).mpr ⟨Nat.dvd_mul_left .., hv⟩, Nat.mul_div_cancel v (by decide)⟩

theorem dvd_roundUp (a : Nat) : pageSize ∣ roundUp a pageSize := dvd_roundDown ..

theorem dvd_newArea_end (va memsz : Nat) : pageSize ∣ (newArea va memsz).vmEnd := by
  have h₁ := dvd_roundDown va pageSize
  have h₂ := dvd_roundUp memsz
  show pageSize ∣ wrap (roundDown va pageSize + roundUp memsz pageSize)
  generalize roundDown va pageSize = a at *
  generalize roundUp memsz pageSize = b at *
  unfold wrap pageSize at *
  omega

/-! ## An accepted segment -/

section
variable {s s' : Paging} {t va memsz : Nat}

theorem loadSegment_accepts (h : s.loadSegment t va memsz = some (true, s')) :
    ∃ s₁, s.createVma t va memsz = (true, s₁) ∧ Maps t (regionPages va memsz) s₁ s' := by
  unfold loadSegment at h
  split at h
  · cases h
  · next s₁ hc => exact ⟨s₁, hc, (regionAlloc_entries h).2 rfl⟩

theorem loadSegment_state (h : s.loadSegment t va memsz = some (true, s')) :
    newArea va memsz ∈ (s'.mm t).mmap ∧ (∀ v ∈ regionPages va memsz, (s'.mm t).pte v ≠ none) ∧
      ∀ v, v ∉ regionPages va memsz → (s'.mm t).pte v = (s.mm t).pte v := by
  obtain ⟨s₁, hc, hmaps⟩ := loadSegment_accepts h
  obtain ⟨-, -, -, ⟨hno, -⟩ | ⟨-, hm⟩⟩ := createVma_spec hc
  · cases hno
  · refine ⟨?_, fun v hv => ?_, fun v hv => ?_⟩
    · rw [hmaps.mmap, hm, setMm_mm_self]
      exact (insertArea_perm ..).mem_iff.mpr (List.mem_cons_self ..)
    · obtain ⟨p, hp⟩ := hmaps.mapped v hv
      rw [hp]
      exact nofun
    · rw [hmaps.kept (.inr hv), hm, setMm_mm_self]
      rfl

theorem roundUp_of_le {a : Nat} (h : a ≤ kernelBaseAddr) : roundUp a pageSize = (a + 4095) / 4096 * 4096 := by
  unfold roundUp roundDown wrap pageSize
  unfold kernelBaseAddr at h
  omega

/-- The end of the area, when nothing wraps. -/
theorem newArea_end (hm : memsz ≤ kernelBaseAddr) (hend : va + memsz ≤ kernelBaseAddr) :
    (newArea va memsz).vmEnd = va / 4096 * 4096 + (memsz + 4095) / 4096 * 4096 := by
  show wrap (roundDown va pageSize + roundUp memsz pageSize) = _
  rw [roundUp_of_le hm]
  unfold roundDown wrap pageSize
  unfold kernelBaseAddr at *
  omega

theorem regionPages_covers {v : Nat} : v ∈ regionPages va memsz ↔
    Area.Covers ⟨roundDown va pageSize, roundUp (wrap (va + memsz)) pageSize⟩ v :=
  mem_addrs_pages (dvd_roundDown ..)

theorem segmentAgrees_iff (hpos : 0 < memsz) (hm : memsz ≤ kernelBaseAddr)
    (hsum : wrap (va + memsz) ≤ kernelBaseAddr) :
    SegmentAgrees va memsz ↔ va + memsz < 2 ^ 32 ∧ va % pageSize + (memsz - 1) % pageSize < pageSize := by
  constructor
  · intro h
    -- the last byte of the segment is in the area
    have hlast := (h.has (va + memsz - 1) (by omega) (by omega)).2
    have hlt : (newArea va memsz).vmEnd < 2 ^ 32 := wrap_lt _
    have hwrap : va + memsz < 2 ^ 32 := by omega
    rw [wrap_of_lt hwrap] at hsum
    rw [newArea_end hm hsum] at hlast
    refine ⟨hwrap, ?_⟩
    unfold pageSize
    omega
  · intro h
    obtain ⟨hwrap, hoff⟩ := h
    rw [wrap_of_lt hwrap] at hsum
    have hend := newArea_end hm hsum
    have hstart : (newArea va memsz).vmStart = va / 4096 * 4096 := by
      show roundDown va pageSize = _
      unfold roundDown pageSize
      omega
    have hup : roundUp (wrap (va + memsz)) pageSize = (newArea va memsz).vmEnd := by
      rw [wrap_of_lt hwrap, roundUp_of_le hsum, hend]
      unfold pageSize at hoff
      omega
    refine ⟨fun addr h₁ h₂ => ?_, fun v => ?_⟩
    · unfold Area.Has
      rw [hstart, hend]
      unfold pageSize at hoff
      omega
    · rw [mem_pages (dvd_roundDown ..) (dvd_newArea_end ..), regionPages_covers, hup]
      rfl

end

end Paging

open Paging in
/-- The area of an accepted segment and its pages agree if and only if the segment does not wrap and the
offset of its start and that of its last byte stay below a page together. -/
theorem segment_area_agrees (s s' : Paging) (t va memsz : Nat) (hpos : 0 < memsz)
    (h : s.loadSegment t va memsz = some (true, s')) :
    newArea va memsz ∈ (s'.mm t).mmap ∧ (∀ v ∈ regionPages va memsz, (s'.mm t).pte v ≠ none) ∧
      (∀ v, v ∉ regionPages va memsz → (s'.mm t).pte v = (s.mm t).pte v) ∧
      (SegmentAgrees va memsz ↔ va + memsz < 2 ^ 32 ∧ va % pageSize + (memsz - 1) % pageSize < pageSize) := by
  obtain ⟨s₁, hc, -⟩ := loadSegment_accepts h
  obtain ⟨-, hm, hsum, -⟩ := createVma_accepts hc
  obtain ⟨harea, hmapped, hkept⟩ := loadSegment_state h
  exact ⟨harea, hmapped, hkept, segmentAgrees_iff hpos hm hsum⟩

open Paging in
theorem segment_area_agrees_aligned : ∃ s', (bare freeFrames).loadSegment 1 0x800000 0x1000 = some (true, s') ∧
    SegmentAgrees 0x800000 0x1000 := by
  have h : ((bare freeFrames).loadSegment 1 0x800000 0x1000).map Prod.fst = some true := by decide +kernel
  obtain ⟨⟨ok, s'⟩, hl, rfl⟩ := Option.map_eq_some_iff.mp h
  exact ⟨s', hl, (segment_area_agrees _ s' 1 0x800000 0x1000 (by decide) hl).2.2.2.mpr (by decide)⟩

open Paging in
/-- A segment at `0x800020`, where the programs are linked: the page at `0x801000` is mapped, and in no area. -/
theorem segment_area_short : ∃ s', (bare freeFrames).loadSegment 1 0x800020 0xff0 = some (true, s') ∧
    (s'.mm 1).mmap = [⟨0x800000, 0x801000⟩] ∧ (s'.mm 1).pte 0x801 ≠ none ∧ ¬ SegmentAgrees 0x800020 0xff0 := by
  have h : ((bare freeFrames).loadSegment 1 0x800020 0xff0).map (fun r => (r.1, (r.2.mm 1).mmap,
      ((r.2.mm 1).pte 0x801).isSome)) = some (true, [⟨0x800000, 0x801000⟩], true) := by decide +kernel
  simp only [Option.map_eq_some_iff, Prod.mk.injEq] at h
  obtain ⟨⟨ok, s'⟩, hl, rfl, hmmap, hpte⟩ := h
  refine ⟨s', hl, hmmap, Option.isSome_iff_ne_none.mp hpte, fun hagree => ?_⟩
  exact absurd (hagree.has 0x80100f (by decide) (by decide)).2 (by decide)

end MiniOS
