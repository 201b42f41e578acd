import MiniOS.AreaOrder
import MiniOS.UserFrames

/-!
# Programs whose pages are in their areas

The pages of a program whose segments agree with their areas are inside of the areas that
`load_icode` makes.
-/

namespace MiniOS

open List

def Segment.Agrees (g : Segment) : Prop :=
  0 < g.memsz ∧ g.va + g.memsz < 2 ^ 32 ∧ g.va % pageSize + (g.memsz - 1) % pageSize < pageSize

namespace Paging

variable {s s' : Paging} {t : Nat}

theorem createVma_covered {addr len : Nat} (h : s.createVma t addr len = (true, s')) (hc : (s.mm t).Covered) :
    (s'.mm t).Covered := by
  rw [createVma_self h]
  intro v hv
  obtain ⟨b, hb, hcov⟩ := hc v hv
  exact ⟨b, (insertArea_perm ..).mem_iff.mpr (mem_cons_of_mem _ hb), hcov⟩

theorem loadSegment_covered {g : Segment} (hg : g.Agrees) (h : s.loadSegment t g.va g.memsz = some (true, s'))
    (hc : (s.mm t).Covered) : (s'.mm t).Covered := by
  obtain ⟨hpos, hno, hoff⟩ := hg
  obtain ⟨s₁, hnew, hmaps⟩ := loadSegment_accepts h
  obtain ⟨-, hlen, hsum, -⟩ := createVma_accepts hnew
  have hself : newArea g.va g.memsz ∈ (s₁.mm t).mmap := by
    rw [createVma_self hnew]
    exact (insertArea_perm ..).mem_iff.mpr (mem_cons_self ..)
  have hagree := (segmentAgrees_iff hpos hlen hsum).mpr ⟨hno, hoff⟩
  intro v hv
  rw [hmaps.mmap]
  by_cases hp : v ∈ regionPages g.va g.memsz
  · exact ⟨_, hself, (mem_pages (dvd_roundDown ..) (dvd_newArea_end ..)).mp ((hagree.pages v).mp hp)⟩
  · exact createVma_covered hnew hc v (hmaps.kept (.inr hp) ▸ hv)

theorem loadSegments_covered : ∀ {prog : List Segment} {s : Paging}, (∀ g ∈ prog, g.Agrees) →
    s.loadSegments t prog = some (true, s') → (s.mm t).Covered → (s'.mm t).Covered
  | [], _, _, h, hc => by
    cases h
    exact hc
  | g :: prog, s, hg, h, hc => by
    obtain ⟨s₁, hl, h⟩ := loadSegments_cons h
    exact loadSegments_covered (fun g h => hg g (mem_cons_of_mem _ h)) h
      (loadSegment_covered (hg g (mem_cons_self ..)) hl hc)

theorem loadSegments_ends : ∀ {prog : List Segment} {s : Paging}, s.loadSegments t prog = some (true, s') →
    ∀ g ∈ prog, wrap (g.va + g.memsz) ≤ kernelBaseAddr
  | g :: prog, s, h, g', hg' => by
    obtain ⟨s₁, hl, h⟩ := loadSegments_cons h
    obtain ⟨s₂, hc, -⟩ := loadSegment_accepts hl
    rcases mem_cons.mp hg' with rfl | hg'
    · exact (createVma_accepts hc).end_le
    · exact loadSegments_ends h g' hg'

theorem heapStart_le {prog : List Segment} (h : ∀ g ∈ prog, wrap (g.va + g.memsz) ≤ kernelBaseAddr) :
    heapStart prog ≤ kernelBaseAddr := by
  have hround : ∀ {e : Nat}, e ≤ kernelBaseAddr → roundUp e pageSize ≤ kernelBaseAddr := fun he => by
    rw [roundUp_of_le he]
    unfold kernelBaseAddr at *
    omega
  unfold heapStart
  split
  · exact hround (endOf_le h)
  · exact hround (endOf_le h)

theorem loadIcode_covered {prog : List Segment} (hg : ∀ g ∈ prog, g.Agrees)
    (h : s.loadIcode t prog = some (true, s')) (hc : (s.mm t).Covered) : (s'.mm t).Covered := by
  obtain ⟨s₁, s₂, hl, hstack, hheap⟩ := loadIcode_parts h
  have hset : ∀ {sp : Space} (brk : Nat), sp.Covered → { sp with startBrk := brk }.Covered := fun _ h => h
  refine createVma_covered hheap ?_
  rw [setMm_mm_self]
  exact hset _ (createVma_covered hstack (loadSegments_covered hg hl hc))

theorem Spares.fits {dest : Nat} (h : Spares dest s s') (ht : t ≠ dest) (hfit : SpaceFits (s.mm t)) :
    SpaceFits (s'.mm t) where
  area := h.mmap t ht ▸ hfit.area
  apart := h.mmap t ht ▸ hfit.apart
  covered v hv := by
    rw [h.mmap t ht]
    refine hfit.covered v fun hnone => hv ?_
    have hframe := h.frame t ht v
    rw [Space.frame, Space.frame, hnone] at hframe
    exact Option.map_eq_none_iff.mp hframe

end Paging

end MiniOS
