import MiniOS.BootmmSound
import MiniOS.ZoneComplete
import MiniOS.ZoneInit

/-!
# Frames and their zones

The end of `zone_normal` is where the last usable frame below `NORMAL_ADDR` ends, so a
usable frame is in the zone its address says, and a freed block goes back to its zone.
Buddies are found by index in the zone but must be aligned in physical memory, which for
`zone_high` depends on that end.
-/

namespace MiniOS

open Option Relation

section
variable {map : List Mmap} {s s' : Zones} {mempage mempage' : Nat → Page} {links : ZoneName → Links ZNode}
  {H H' : Set (ZoneName × Block)} {b : Boot} {n : ZoneName}

/-! ## The end of `zone_normal` -/

theorem normalLast_le_of {m : Nat} :
    ∀ (map : List Mmap) {last : Nat}, last ≤ m → (∀ r ∈ map, r.type = 1 → r.stop ≤ m) → normalLast last map ≤ m
  | [], _, h, _ => h
  | r :: map, last, h, hall => by
    obtain ⟨hr, hall⟩ := List.forall_mem_cons.mp hall
    rw [normalLast]
    split
    · rename_i ht
      split
      · exact normalLast_le_of map h hall
      · split
        · apply normalLast_le_of map _ hall
          split
          · exact hr ht
          · exact h
        · rename_i hreach
          exact Nat.le_trans (Nat.le_of_not_lt hreach) (hr ht)
    · exact normalLast_le_of map h hall

theorem le_normalLast : ∀ (map : List Mmap) {last : Nat}, last ≤ normalAddr → last ≤ normalLast last map ∧
    ∀ r ∈ map, r.type = 1 → r.addr < normalAddr → min r.stop normalAddr ≤ normalLast last map
  | [], _, _ => ⟨Nat.le_refl _, by simp⟩
  | r :: map, last, h => by
    rw [normalLast]
    by_cases ht : r.type = 1
    · rw [if_pos ht]
      by_cases hlow : normalAddr ≤ r.addr
      · rw [if_pos hlow]
        obtain ⟨hle, hall⟩ := le_normalLast map h
        exact ⟨hle, List.forall_mem_cons.mpr ⟨fun _ hlt => absurd hlow (Nat.not_le.mpr hlt), hall⟩⟩
      · rw [if_neg hlow]
        by_cases hstop : r.stop < normalAddr
        · rw [if_pos hstop]
          have hnew : (if last < r.stop then r.stop else last) ≤ normalAddr := by
            split
            · exact hstop.le
            · exact h
          have hmax : last ≤ (if last < r.stop then r.stop else last) ∧
              r.stop ≤ if last < r.stop then r.stop else last := by
            split
            · rename_i hlt
              exact ⟨hlt.le, Nat.le_refl _⟩
            · rename_i hge
              exact ⟨Nat.le_refl _, Nat.le_of_not_lt hge⟩
          obtain ⟨hle, hall⟩ := le_normalLast map hnew
          refine ⟨hmax.1.trans hle, List.forall_mem_cons.mpr ⟨?_, hall⟩⟩
          intro _ _
          exact Nat.le_trans (Nat.min_le_left _ _) (hmax.2.trans hle)
        · rw [if_neg hstop]
          exact ⟨h, fun r _ _ _ => Nat.min_le_right _ _⟩
    · rw [if_neg ht]
      obtain ⟨hle, hall⟩ := le_normalLast map h
      exact ⟨hle, List.forall_mem_cons.mpr ⟨fun ht' => absurd ht' ht, hall⟩⟩

theorem getNormalMaxpfn_eq (map : List Mmap) : getNormalMaxpfn map = normalLast 0 map / pageSize := by
  apply physToPfn_eq
  exact Nat.le_trans (normalLast_le map (Nat.zero_le _)) (by decide)

theorem getNormalMaxpfn_le_max (hmap : PaeLimit map) : getNormalMaxpfn map ≤ getMaxPfn map := by
  rw [getNormalMaxpfn_eq, getMaxPfn_eq hmap]
  apply Nat.div_le_div_right
  exact normalLast_le_of map (Nat.zero_le _) fun r hr ht => stop_le_maxLast hr ht

/-- A frame of a usable region is below the end of `zone_normal` if and only if its address
is below `NORMAL_ADDR`. -/
theorem lt_getNormalMaxpfn_iff {r : Mmap} {p : Nat} (hmap : PaeLimit map) (hr : r ∈ map) (ht : r.type = 1)
    (hle : r.addr / pageSize ≤ p) (hlt : p < (r.addr + r.len) / pageSize) :
    p < getNormalMaxpfn map ↔ p * pageSize < normalAddr := by
  have hpage : 0 < pageSize := by decide
  have hN : p * pageSize < normalAddr ↔ p < normalAddr / pageSize := by
    rw [Nat.lt_div_iff_mul_lt_of_dvd (Nat.ne_of_gt hpage) (by decide)]
  rw [hN]
  constructor
  · intro hp
    exact hp.trans_le (getNormalMaxpfn_le map)
  · intro hp
    have hlow : r.addr < normalAddr := by
      by_contra hge
      have hge := Nat.div_le_div_right (c := pageSize) (Nat.le_of_not_lt hge)
      omega
    have hmin := (le_normalLast map (Nat.zero_le normalAddr)).2 r hr ht hlow
    rw [hmap.stop hr] at hmin
    have hdiv := Nat.div_le_div_right (c := pageSize) hmin
    rw [getNormalMaxpfn_eq]
    apply Nat.lt_of_lt_of_le _ hdiv
    by_cases hcase : r.addr + r.len ≤ normalAddr
    · rw [Nat.min_eq_left hcase]
      exact hlt
    · rw [Nat.min_eq_right (Nat.le_of_not_le hcase)]
      exact hp

/-! ## The zones before `free_area_init` -/

structure Marked (map : List Mmap) (mempage : Nat → Page) : Prop where
  limit : PaeLimit map
  page : ∀ p < getMaxPfn map, (mempage p).order = -1 ∧ (mempage p).nref = 0 ∧
    ((mempage p).flags &&& pgFree ≠ 0 → (mempage p).flags &&& pgReserved = 0)
  side : ∀ p < getMaxPfn map, (mempage p).flags &&& pgFree ≠ 0 →
    (p < getNormalMaxpfn map ↔ p * pageSize < normalAddr)

theorem mempageInit_marked (hmap : PaeLimit map) (hinit : mempageInit map b mempage = some mempage') :
    Marked map mempage' := by
  refine ⟨hmap, ?_, ?_⟩
  · intro p hp
    obtain ⟨-, aval, -, hpage⟩ := mempageInit_spec hinit hp
    rw [hpage]
    refine ⟨rfl, rfl, ?_⟩
    cases aval <;> decide
  · intro p hp hfree
    obtain ⟨-, r, hr, ht, hle, hlt⟩ := (marked_iff hmap hinit hp).mp hfree
    exact lt_getNormalMaxpfn_iff hmap hr ht hle hlt

theorem bootmmInit_marked {bssEnd tables : Nat} (hmap : PaeLimit map)
    (h : bootmmInit map bssEnd tables mempage = some (b, mempage')) : Marked map mempage' :=
  mempageInit_marked hmap (bootmmInit_inv h).2

def ZoneName.Side : ZoneName → Nat → Prop
  | .normal, p => p * pageSize < normalAddr
  | .high, p => normalAddr ≤ p * pageSize

namespace Marked

theorem high_size (h : Marked map mempage) (links : ZoneName → Links ZNode) :
    (freshZones map mempage links).high.size + getNormalMaxpfn map = getMaxPfn map := by
  have hle := getNormalMaxpfn_le_max h.limit
  have hmax := getMaxPfn_le h.limit
  have hsub : wsub (getMaxPfn map) (getNormalMaxpfn map) = getMaxPfn map - getNormalMaxpfn map :=
    wsub_of_le hle (hmax.trans_lt (by decide))
  change wsub (getMaxPfn map) (getNormalMaxpfn map) + getNormalMaxpfn map = getMaxPfn map
  omega

/-- An index of a zone and its frame. -/
theorem frame (h : Marked map mempage) (n : ZoneName) {i : Nat}
    (hi : i < ((freshZones map mempage links).zone n).size) :
    ((freshZones map mempage links).zone n).pfn + i < getMaxPfn map ∧
      ((freshZones map mempage links).zone n).mempage i =
        mempage (((freshZones map mempage links).zone n).pfn + i) := by
  cases n with
  | normal =>
    have hlt : i < getNormalMaxpfn map := hi
    have hle := getNormalMaxpfn_le_max h.limit
    change 0 + i < getMaxPfn map ∧ mempage i = mempage (0 + i)
    rw [Nat.zero_add]
    exact ⟨hlt.trans_le hle, rfl⟩
  | high =>
    have hsize := h.high_size links
    have hlt : i < (freshZones map mempage links).high.size := hi
    refine ⟨?_, rfl⟩
    change getNormalMaxpfn map + i < getMaxPfn map
    omega

theorem fresh (h : Marked map mempage) (n : ZoneName) : ZoneFresh ((freshZones map mempage links).zone n) := by
  refine ⟨?_, ?_, ?_, ?_, ?_⟩
  · have hle := getNormalMaxpfn_le_max h.limit
    have hmax := getMaxPfn_le h.limit
    cases n with
    | normal => exact Nat.lt_of_le_of_lt (hle.trans hmax) (by decide)
    | high => exact wrap_lt _
  · cases n <;> rfl
  · intro k _
    cases n <;> rfl
  · intro i hi
    rw [(h.frame n hi).2]
    exact (h.page _ (h.frame n hi).1).1
  · intro i hi
    rw [(h.frame n hi).2]
    exact (h.page _ (h.frame n hi).1).2.1

theorem oneFlag (h : Marked map mempage) (n : ZoneName) : ((freshZones map mempage links).zone n).OneFlag := by
  intro i hi hfree
  rw [(h.frame n hi).2] at hfree ⊢
  exact (h.page _ (h.frame n hi).1).2.2 hfree

/-- The free pages of each zone are on its side. -/
theorem zone_side (h : Marked map mempage) (n : ZoneName) {i : Nat}
    (hi : i ∈ zoneFree ((freshZones map mempage links).zone n)) :
    n.Side (((freshZones map mempage links).zone n).pfn + i) := by
  obtain ⟨hsize, hfree⟩ := hi
  rw [(h.frame n hsize).2] at hfree
  have hside := h.side _ (h.frame n hsize).1 hfree
  cases n with
  | normal =>
    apply hside.mp
    change 0 + i < getNormalMaxpfn map
    rw [Nat.zero_add]
    exact hsize
  | high =>
    apply Nat.le_of_not_lt
    intro hlow
    have hlt : getNormalMaxpfn map + i < getNormalMaxpfn map := hside.mpr hlow
    omega

end Marked

theorem zoneInit_inv (h : zoneInit map mempage links = some s) :
    (∀ n, ((freshZones map mempage links).zone n).freeAreaInit = some (s.zone n)) ∧ s.maxPfn = getMaxPfn map := by
  unfold zoneInit at h
  obtain ⟨normal, hn, h⟩ := bind_eq_some_iff.mp h
  obtain ⟨high, hh, rfl⟩ := map_eq_some_iff.mp h
  refine ⟨?_, rfl⟩
  intro n
  cases n with
  | normal => exact hn
  | high => exact hh

/-! ## Runs -/

def heldOf (H : Set (ZoneName × Block)) (n : ZoneName) : Set Block := {c | (n, c) ∈ H}

theorem heldOf_insert_self (H : Set (ZoneName × Block)) (n : ZoneName) (c : Block) :
    heldOf (insert (n, c) H) n = insert c (heldOf H n) := by
  ext d
  simp [heldOf]

theorem heldOf_insert_of_ne (H : Set (ZoneName × Block)) {n m : ZoneName} (c : Block) (hne : m ≠ n) :
    heldOf (insert (n, c) H) m = heldOf H m := by
  ext d
  simp [heldOf, hne]

theorem heldOf_remove_self (H : Set (ZoneName × Block)) (n : ZoneName) (c : Block) :
    heldOf (H \ {(n, c)}) n = heldOf H n \ {c} := by
  ext d
  simp [heldOf]

theorem heldOf_remove_of_ne (H : Set (ZoneName × Block)) {n m : ZoneName} (c : Block) (hne : m ≠ n) :
    heldOf (H \ {(n, c)}) m = heldOf H m := by
  ext d
  simp [heldOf, hne]

namespace Zones

@[simp] theorem setZone_zone_self (s : Zones) (n : ZoneName) (z : Zone) : (s.setZone n z).zone n = z := by
  cases n <;> rfl

theorem setZone_zone_of_ne (s : Zones) {n m : ZoneName} (z : Zone) (hne : m ≠ n) :
    (s.setZone n z).zone m = s.zone m := by
  cases n <;> cases m <;> first | rfl | exact absurd rfl hne

@[simp] theorem setZone_maxPfn (s : Zones) (n : ZoneName) (z : Zone) : (s.setZone n z).maxPfn = s.maxPfn := by
  cases n <;> rfl

theorem pagesAlloc_inv {flage : Gfp} {order : Nat} {r : Option Nat} (h : s.pagesAlloc flage order = some (r, s')) :
    (r = none ∧ s' = s) ∨ ∃ page z, (s.zone flage.zone).allocBuddy order = some (page, z) ∧
      s' = s.setZone flage.zone z ∧ r = page.map ((s.zone flage.zone).pfn + ·) := by
  unfold pagesAlloc at h
  split at h
  · obtain ⟨rfl, rfl⟩ := Prod.mk.inj (some.inj h)
    exact .inl ⟨rfl, rfl⟩
  obtain ⟨⟨page, z⟩, halloc, h⟩ := bind_eq_some_iff.mp h
  refine .inr ⟨page, z, halloc, ?_⟩
  cases page with
  | none =>
    obtain ⟨rfl, rfl⟩ := Prod.mk.inj (some.inj h)
    exact ⟨rfl, rfl⟩
  | some i =>
    dsimp only at h
    split at h
    · obtain ⟨_, -, h⟩ := map_eq_some_iff.mp h
      obtain ⟨rfl, rfl⟩ := Prod.mk.inj h
      exact ⟨rfl, rfl⟩
    · obtain ⟨rfl, rfl⟩ := Prod.mk.inj (some.inj h)
      exact ⟨rfl, rfl⟩

end Zones

structure ZonesInv (map : List Mmap) (mempage : Nat → Page) (links : ZoneName → Links ZNode) (s : Zones)
    (H : Set (ZoneName × Block)) : Prop where
  rep : ∀ n, ∃ fl, BuddyRep (zoneFree ((freshZones map mempage links).zone n)) (s.zone n) fl (heldOf H n) ∧
    (s.zone n).freePages = freeCount fl
  pfn : ∀ n, (s.zone n).pfn = ((freshZones map mempage links).zone n).pfn
  maxPfn : s.maxPfn = getMaxPfn map

theorem ZonesInv.held_free {c : Block} (h : ZonesInv map mempage links s H) (hc : (n, c) ∈ H) :
    c.1 ∈ zoneFree ((freshZones map mempage links).zone n) := by
  obtain ⟨fl, hr, -⟩ := h.rep n
  exact hr.tiling.subset (.inr hc) (Nat.le_refl _) (Nat.lt_add_of_pos_right (Nat.two_pow_pos _))

/-- A held block is freed into the zone it came from. -/
theorem ZonesInv.pagesFree {i order : Nat} (h : ZonesInv map mempage links s H) (hm : Marked map mempage)
    (hc : (n, (i, order)) ∈ H) :
    s.pagesFree ((s.zone n).pfn + i) order = ((s.zone n).freeBuddy i order).map (s.setZone n) := by
  have hfree := h.held_free hc
  have hframe := (hm.frame n hfree.1).1
  have hside := hm.zone_side n hfree
  have hmax := getMaxPfn_le hm.limit
  rw [← h.pfn n] at hframe hside
  have hindex : wsub ((s.zone n).pfn + i) (s.zone n).pfn = i := by
    rw [wsub_of_le (Nat.le_add_right _ _) (by omega), Nat.add_sub_cancel_left]
  have hphys : s.page2phys ((s.zone n).pfn + i) = some (((s.zone n).pfn + i) * pageSize) := by
    unfold Zones.page2phys
    rw [h.maxPfn, if_neg (Nat.not_le.mpr hframe)]
  unfold Zones.pagesFree
  rw [hphys, bind_some]
  cases n with
  | normal =>
    have hlow : ((s.zone .normal).pfn + i) * pageSize < normalAddr := hside
    rw [if_pos hlow, Zones.freeIn, hindex]
  | high =>
    have hhigh : normalAddr ≤ ((s.zone .high).pfn + i) * pageSize := hside
    rw [if_neg hhigh.not_gt, Zones.freeIn, hindex]

/-- One zone takes a step, the other stays. -/
theorem ZonesInv.step_zone {z : Zone} (h : ZonesInv map mempage links s H)
    (hstep : ZoneStep (s.zone n, heldOf H n) (z, heldOf H' n)) (hother : ∀ m, m ≠ n → heldOf H' m = heldOf H m) :
    ZonesInv map mempage links (s.setZone n z) H' := by
  obtain ⟨hrep, -, hpfn⟩ := zoneStep_rep hstep (h.rep n)
  refine ⟨?_, ?_, (s.setZone_maxPfn n z).trans h.maxPfn⟩
  · intro m
    by_cases e : m = n
    · rw [e, s.setZone_zone_self]
      exact hrep
    · rw [s.setZone_zone_of_ne z e, hother m e]
      exact h.rep m
  · intro m
    by_cases e : m = n
    · rw [e, s.setZone_zone_self]
      exact hpfn.trans (h.pfn n)
    · rw [s.setZone_zone_of_ne z e]
      exact h.pfn m

theorem ZonesInv.step (h : ZonesInv map mempage links s H) (hm : Marked map mempage)
    (hstep : ZonesStep (s, H) (s', H')) : ZonesInv map mempage links s' H' := by
  cases hstep with
  | @alloc _ _ _ flage order i ho ha =>
    rcases Zones.pagesAlloc_inv ha with ⟨e, -⟩ | ⟨page, z, halloc, rfl, hpage⟩
    · cases e
    · obtain ⟨j, rfl, hj⟩ := map_eq_some_iff.mp hpage.symm
      obtain rfl : j = i := Nat.add_left_cancel hj
      apply h.step_zone _ fun m hne => heldOf_insert_of_ne H _ hne
      rw [heldOf_insert_self]
      exact .alloc ho halloc
  | @allocNone _ _ _ flage order ho ha =>
    rcases Zones.pagesAlloc_inv ha with ⟨-, rfl⟩ | ⟨page, z, halloc, rfl, hpage⟩
    · exact h
    · obtain rfl : page = none := map_eq_none_iff.mp hpage.symm
      exact h.step_zone (.allocNone ho halloc) fun _ _ => rfl
  | @free _ _ _ n i order hc hnref hf =>
    rw [h.pagesFree hm hc] at hf
    obtain ⟨z, hz, rfl⟩ := map_eq_some_iff.mp hf
    apply h.step_zone _ fun m hne => heldOf_remove_of_ne H _ hne
    rw [heldOf_remove_self]
    exact .free hc hnref hz
  | @ref _ _ n i order p c hc h₁ h₂ =>
    exact h.step_zone (.ref c hc h₁ h₂) fun _ _ => rfl

theorem zoneInit_zonesInv (hm : Marked map mempage) (h : zoneInit map mempage links = some s) :
    ZonesInv map mempage links s ∅ := by
  obtain ⟨hinit, hmax⟩ := zoneInit_inv h
  refine ⟨?_, ?_, hmax⟩
  · intro n
    obtain ⟨fl, hr, hfp, -⟩ := freeAreaInit_rep (hm.fresh n) (hinit n)
    exact ⟨fl, hr, hfp⟩
  · intro n
    obtain ⟨fl, -, -, hframe⟩ := freeAreaInit_rep (hm.fresh n) (hinit n)
    exact hframe.pfn

theorem ZonesInv.run {x y : Zones × Set (ZoneName × Block)} (h : ZonesInv map mempage links x.1 x.2)
    (hm : Marked map mempage) (hrun : ReflTransGen ZonesStep x y) : ZonesInv map mempage links y.1 y.2 := by
  induction hrun with
  | refl => exact h
  | tail _ hstep ih => exact ih.step hm hstep

theorem initFrames_side (hm : Marked map mempage) :
    ∀ p ∈ (freshZones map mempage links).initFrames n, n.Side p := by
  intro p hp
  obtain ⟨m, hle, z, hloop, i, ⟨c, hc, h₁, h₂⟩, rfl⟩ := hp
  obtain ⟨fl, hi⟩ := foldlM_freePage (hm.fresh n) m hle hloop
  rw [hi.rep.freeBlocks_eq] at hc
  exact hm.zone_side n (hi.rep.tiling.subset (.inl hc) h₁ h₂)

/-! ## Physical alignment -/

theorem Marked.mem_high_iff (hm : Marked map mempage) (p : Nat) :
    p ∈ zoneFree ((freshZones map mempage links).zone .high) ↔
      getNormalMaxpfn map + p < getMaxPfn map ∧ (mempage (getNormalMaxpfn map + p)).flags &&& pgFree ≠ 0 := by
  have hsize := hm.high_size links
  have hlt : p < ((freshZones map mempage links).zone .high).size ↔ getNormalMaxpfn map + p < getMaxPfn map := by
    change p < (freshZones map mempage links).high.size ↔ _
    omega
  exact and_congr_left' hlt

theorem Marked.runsAligned (hm : Marked map mempage) (h : HighRunsAligned map mempage) :
    ∀ n, RunsAligned (zoneFree ((freshZones map mempage links).zone n))
    ((freshZones map mempage links).zone n).pfn := by
  intro n k hk j hj hrun
  cases n with
  | normal => exact Nat.dvd_zero _
  | high =>
    apply h k hk j hj
    intro p h₁ h₂
    exact (hm.mem_high_iff p).mp (hrun p h₁ h₂)

theorem zoneInit_isSome (hm : Marked map mempage) (h : HighRunsAligned map mempage)
    (links : ZoneName → Links ZNode) : ∃ s, zoneInit map mempage links = some s := by
  have hz : ∀ n, ∃ z, ((freshZones map mempage links).zone n).freeAreaInit = some z := by
    intro n
    exact isSome_iff_exists.mp (freeAreaInit_isSome (hm.fresh n) (hm.runsAligned h n))
  obtain ⟨normal, hn⟩ := hz .normal
  obtain ⟨high, hh⟩ := hz .high
  have en : (freshZones map mempage links).normal.freeAreaInit = some normal := hn
  have eh : (freshZones map mempage links).high.freeAreaInit = some high := hh
  simp only [zoneInit, en, eh, bind_some, map_some]
  exact ⟨_, rfl⟩

theorem ZonesInv.allocAligned (h : ZonesInv map mempage links s H) (hm : Marked map mempage)
    (hruns : HighRunsAligned map mempage) : s.AllocAligned := by
  intro n k i z hk halloc
  obtain ⟨fl, hr, hfp⟩ := h.rep n
  obtain ⟨hal, hrun⟩ := hr.alloc_run hfp hk halloc
  rw [h.pfn n]
  exact (Nat.dvd_add_right (hm.runsAligned hruns n k hk i hal hrun)).mpr hal

/-- Just after `zone_init` every aligned run of free pages is in one block of free pages. -/
theorem zoneInit_block {k j : Nat} (hm : Marked map mempage) (h : zoneInit map mempage links = some s)
    (hk : k < maxOrder)
    (hj : 2 ^ k ∣ j) (hrun : ∀ p, j ≤ p → p < j + 2 ^ k → p ∈ zoneFree ((freshZones map mempage links).zone n)) :
    ∃ i m, (i, m) ∈ (s.zone n).freeBlocks ∧ k ≤ m ∧ i ≤ j ∧ j + 2 ^ k ≤ i + 2 ^ m ∧ 2 ^ m ∣ i ∧
      ∀ p, i ≤ p → p < i + 2 ^ m → p ∈ zoneFree ((freshZones map mempage links).zone n) := by
  obtain ⟨⟨fl, hr, -⟩, hmerged, -⟩ := freeAreaInit_merged (hm.fresh n) (hm.oneFlag n) ((zoneInit_inv h).1 n)
  have hpages := hr.pages
  rw [hr.freeBlocks_eq] at hmerged ⊢
  obtain ⟨⟨i, m⟩, hb, hle, hi, hstop⟩ := hr.tiling.part.run hmerged k hk hj fun p h₁ h₂ => by
    rw [hpages]
    exact ⟨hrun p h₁ h₂, fun ⟨_, hc, _⟩ => hc⟩
  exact ⟨i, m, hb, hle, hi, hstop, hr.tiling.aligned _ (.inl hb), fun p h₁ h₂ => hr.tiling.subset (.inl hb) h₁ h₂⟩

/-- `alloc_buddy` takes such a run from there. -/
theorem zoneInit_alloc {k j : Nat} (hm : Marked map mempage) (h : zoneInit map mempage links = some s)
    (hk : k < maxOrder)
    (hj : 2 ^ k ∣ j) (hrun : ∀ p, j ≤ p → p < j + 2 ^ k → p ∈ zoneFree ((freshZones map mempage links).zone n)) :
    ∃ i z, (s.zone n).allocBuddy k = some (some i, z) ∧ 2 ^ k ∣ i := by
  have hinv := freeAreaInit_merged (hm.fresh n) (hm.oneFlag n) ((zoneInit_inv h).1 n)
  have hpages := hinv.pages
  obtain ⟨⟨fl, hr, hfp⟩, hmerged, -⟩ := hinv
  obtain ⟨r, z, halloc, hnone⟩ := allocBuddy_none_iff hr hfp hmerged hk
  cases r with
  | none =>
    refine absurd ⟨j, hj, ?_⟩ (hnone.mp rfl)
    intro p h₁ h₂
    rw [hpages]
    refine ⟨hrun p h₁ h₂, ?_⟩
    rintro ⟨c, hc, -⟩
    exact hc
  | some i => exact ⟨i, z, halloc, (hr.alloc_run hfp hk halloc).1⟩

/-- `_free_buddy` has tested the alignment of every free block that has a buddy in the zone. -/
def Zone.Asserted (z : Zone) : Prop :=
  ∀ i k, (i, k) ∈ z.freeBlocks → k + 1 < maxOrder → i ^^^ 2 ^ k < z.size → (z.pfn + (i ^^^ 2 ^ k)) % 2 ^ k = 0

theorem freeBuddy_asserted {F : Set Nat} {z z' : Zone} {fl : Nat → List Nat} {held : Set Block} {i k : Nat}
    (hr : BuddyRep F z fl held) (ha : z.Asserted) (hi : (i, k) ∈ held) (h : z.freeBuddy i k = some z') :
    z'.Asserted := by
  obtain ⟨hk, z₁, i₁, k₁, hmerge, rfl⟩ := freeBuddy_cases h
  obtain ⟨hfr, -, hk₁, hk₁'⟩ := mergeBuddy_frame _ _ _ _ hmerge
  obtain ⟨fl₁, hr₁, hH₁, -, hsub⟩ := mergeBuddy_rep _ (hr.take hi _) (by simp) hmerge
  have hlt : k₁ < maxOrder := by omega
  have hsize : z₁.size = z.size := hfr.size
  have hpfn : z₁.pfn = z.pfn := hfr.pfn
  intro j m hb hm hbuddy
  rw [(hr₁.link hlt hH₁).freeBlocks_eq, freeSet_cons fl₁ hlt] at hb
  change j ^^^ 2 ^ m < z₁.size at hbuddy
  change (z₁.pfn + (j ^^^ 2 ^ m)) % 2 ^ m = 0
  rcases hb with e | hb
  · obtain ⟨rfl, rfl⟩ := Prod.mk.inj e
    rcases mergeBuddy_stop _ _ _ _ hmerge (by omega) with hout | ⟨hal, -⟩
    · exact absurd hbuddy hout.not_gt
    · exact hal
  · rw [hpfn]
    apply ha j m _ hm (hsize ▸ hbuddy)
    rw [hr.freeBlocks_eq]
    exact hsub hb

theorem freeAreaInit_asserted {z₀ z : Zone} (hz : ZoneFresh z₀) (h : z₀.freeAreaInit = some z) : z.Asserted := by
  refine foldlM_freePage_induct (P := Zone.Asserted) hz ?_ ?_ _ (Nat.le_refl _) h
  · intro i k hb
    rw [(initFreeLists_rep hz).freeBlocks_eq] at hb
    cases hb.2
  · intro m z₁ z₂ fl hi hfree hstep ha
    exact freeBuddy_asserted hi.rep ha ⟨rfl, Nat.le_refl m, hfree⟩ hstep

theorem highRuns_of_dvd (mempage : Nat → Page) (h : ∀ k < maxOrder, 2 ^ k ∣ getNormalMaxpfn map) :
    HighRunsAligned map mempage := fun k hk _ _ _ => h k hk

theorem highRuns_of_allocAligned (hm : Marked map mempage) (h : zoneInit map mempage links = some s)
    (ha : s.AllocAligned) : HighRunsAligned map mempage := by
  intro k hk j hj hrun
  have hfree : ∀ p, j ≤ p → p < j + 2 ^ k → p ∈ zoneFree ((freshZones map mempage links).zone .high) := by
    intro p h₁ h₂
    exact (hm.mem_high_iff p).mpr (hrun p h₁ h₂)
  obtain ⟨i, z, halloc, hi⟩ := zoneInit_alloc hm h hk hj hfree
  have hdvd := ha .high k i z hk halloc
  rw [(zoneInit_zonesInv hm h).pfn .high] at hdvd
  exact (Nat.dvd_add_left hi).mp hdvd

end

/-- The frames `free_area_init` puts in each zone are on its side of `NORMAL_ADDR`, and in
every later state `pages_free` gives a block back to the zone it was taken from. -/
theorem pages_free_zone {map : List Mmap} {bssEnd tables : Nat} {mempage mempage' : Nat → Page} {b : Boot}
    (links : ZoneName → Links ZNode) (hmap : PaeLimit map)
    (hboot : bootmmInit map bssEnd tables mempage = some (b, mempage')) :
    (∀ p ∈ (freshZones map mempage' links).initFrames .normal, p * pageSize < normalAddr) ∧
    (∀ p ∈ (freshZones map mempage' links).initFrames .high, normalAddr ≤ p * pageSize) ∧
    ∀ s, zoneInit map mempage' links = some s → ∀ s' H, ReflTransGen ZonesStep (s, ∅) (s', H) →
      ∀ n i order, (n, (i, order)) ∈ H →
        s'.pagesFree ((s'.zone n).pfn + i) order = ((s'.zone n).freeBuddy i order).map (s'.setZone n) := by
  have hm := bootmmInit_marked hmap hboot
  refine ⟨initFrames_side hm, initFrames_side hm, ?_⟩
  intro s hinit s' H hrun n i order hc
  exact ((zoneInit_zonesInv hm hinit).run hm hrun).pagesFree hm hc

/-- `zone_init` passes its assertions and blocks are aligned in physical memory ever after
exactly where the long runs of `zone_high` ask for no more than its first frame gives. -/
theorem zone_init_aligned_iff {map : List Mmap} {bssEnd tables : Nat} {mempage mempage' : Nat → Page} {b : Boot}
    (links : ZoneName → Links ZNode) (hmap : PaeLimit map)
    (hboot : bootmmInit map bssEnd tables mempage = some (b, mempage')) :
    (∃ s, zoneInit map mempage' links = some s ∧
      ∀ s' H, ReflTransGen ZonesStep (s, ∅) (s', H) → s'.AllocAligned) ↔ HighRunsAligned map mempage' := by
  have hm := bootmmInit_marked hmap hboot
  constructor
  · rintro ⟨s, hinit, halways⟩
    exact highRuns_of_allocAligned hm hinit (halways s ∅ .refl)
  · intro hruns
    obtain ⟨s, hinit⟩ := zoneInit_isSome hm hruns links
    refine ⟨s, hinit, ?_⟩
    intro s' H hrun
    exact ((zoneInit_zonesInv hm hinit).run hm hrun).allocAligned hm hruns

def gigMap : List Mmap := [⟨0, 0x9FC00, 1⟩, ⟨0x100000, 0x3FF00000, 1⟩]

theorem gigMap_base : (bootAllocs gigMap 0xC0200000 389).map Boot.base = some 0xC0C87000 := by decide +kernel

theorem gigMap_boot :
    ∃ b mempage, b.frame = 0xC87 ∧ bootmmInit gigMap 0xC0200000 389 (fun _ => ⟨0, 0, 0⟩) = some (b, mempage) := by
  obtain ⟨b, mempage, hb, h⟩ := bootmmInit_of_base gigMap_base (by decide)
  refine ⟨b, mempage, ?_, h⟩
  unfold Boot.frame
  rw [hb]
  decide

theorem gigMap_runs (mempage : Nat → Page) : HighRunsAligned gigMap mempage := highRuns_of_dvd mempage (by decide)

/-- A page of `zone_high` is taken and given back. -/
theorem pages_free_zone_gig :
    ∃ b mempage s i s', bootmmInit gigMap 0xC0200000 389 (fun _ => ⟨0, 0, 0⟩) = some (b, mempage) ∧
    zoneInit gigMap mempage (fun _ => ⟨id, id⟩) = some s ∧
    s.pagesAlloc ⟨true, false⟩ 0 = some (some ((s.zone .high).pfn + i), s') ∧
    s'.pagesFree ((s'.zone .high).pfn + i) 0 = ((s'.zone .high).freeBuddy i 0).map (s'.setZone .high) := by
  obtain ⟨b, mempage, hframe, hboot⟩ := gigMap_boot
  have hmap : PaeLimit gigMap := by decide
  have hm := bootmmInit_marked hmap hboot
  obtain ⟨s, hinit⟩ := zoneInit_isSome hm (gigMap_runs mempage) fun _ => ⟨id, id⟩
  have hfirst : 0 ∈ zoneFree ((freshZones gigMap mempage fun _ => ⟨id, id⟩).zone .high) := by
    apply (hm.mem_high_iff 0).mpr
    refine ⟨by decide, (marked_iff hmap (bootmmInit_inv hboot).2 (by decide)).mpr ?_⟩
    rw [hframe]
    decide
  obtain ⟨i, z, halloc, -⟩ := zoneInit_alloc (k := 0) (j := 0) hm hinit (by decide) (Nat.dvd_zero _)
      fun p _ hp => by
    obtain rfl : p = 0 := Nat.lt_one_iff.mp hp
    exact hfirst
  have hpages : s.pagesAlloc ⟨true, false⟩ 0 = some (some ((s.zone .high).pfn + i), s.setZone .high z) := by
    simp [Zones.pagesAlloc, Gfp.zone, halloc]
  refine ⟨b, mempage, s, i, s.setZone .high z, hboot, hinit, hpages, ?_⟩
  exact (pages_free_zone _ hmap hboot).2.2 s hinit _ _ (.single (.alloc (by decide) hpages)) .high i 0
    (Set.mem_insert _ _)

theorem zone_init_aligned_iff_gig :
    ∃ b mempage s, bootmmInit gigMap 0xC0200000 389 (fun _ => ⟨0, 0, 0⟩) = some (b, mempage) ∧
    zoneInit gigMap mempage (fun _ => ⟨id, id⟩) = some s ∧
    ∀ s' H, ReflTransGen ZonesStep (s, ∅) (s', H) → s'.AllocAligned := by
  obtain ⟨b, mempage, -, hboot⟩ := gigMap_boot
  obtain ⟨s, h⟩ := (zone_init_aligned_iff (fun _ => ⟨id, id⟩) (by decide) hboot).mpr (gigMap_runs mempage)
  exact ⟨b, mempage, s, hboot, h⟩

/-- The last frame below `NORMAL_ADDR` is missing, so `zone_high` starts at an odd frame. -/
def oddMap : List Mmap := [⟨0, 0x2FFFF000, 1⟩, ⟨0x40000000, 0x4000, 1⟩]

/-- The four frames above have the indices from `0x10001` on. Those with the indices
`0x10002` and `0x10003` are merged, and the test at order 1 fails. -/
theorem zone_init_trips : ∃ b mempage, PaeLimit oddMap ∧
    bootmmInit oddMap 0xC0200000 389 (fun _ => ⟨0, 0, 0⟩) = some (b, mempage) ∧
    ∀ links, zoneInit oddMap mempage links = none := by
  have hbase : (bootAllocs oddMap 0xC0200000 389).map Boot.base = some 0xC0C87000 := by decide +kernel
  obtain ⟨b, mempage, hb, hboot⟩ := bootmmInit_of_base hbase (by decide)
  have hmap : PaeLimit oddMap := by decide
  have hm := bootmmInit_marked hmap hboot
  have hframe : b.frame = 0xC87 := by
    unfold Boot.frame
    rw [hb]
    decide
  refine ⟨b, mempage, hmap, hboot, ?_⟩
  intro links
  have hfree : ∀ p, p < 0x10005 →
      (p ∈ zoneFree ((freshZones oddMap mempage links).zone .high) ↔ 0x10001 ≤ p) := by
    intro p hp
    have hnormal : getNormalMaxpfn oddMap = 0x2FFFF := by decide
    have hmax : getMaxPfn oddMap = 0x40004 := by decide
    rw [hm.mem_high_iff, hnormal, hmax]
    rw [marked_iff hmap (bootmmInit_inv hboot).2 (by omega), hframe]
    simp only [oddMap, pageSize, List.mem_cons, List.not_mem_nil, or_false, exists_eq_or_imp, exists_eq_left,
      true_and]
    omega
  apply eq_none_iff_forall_ne_some.mpr
  intro s hinit
  obtain ⟨i, k, hmem, hk, hi, hstop, hal, hsub⟩ :=
    zoneInit_block (k := 1) (j := 0x10002) hm hinit (by decide) (by decide)
    fun p h₁ h₂ => (hfree p (by omega)).mpr (by omega)
  have hzone := (zoneInit_inv hinit).1 .high
  obtain ⟨-, -, -, hfr⟩ := freeAreaInit_rep (hm.fresh .high) hzone
  have hpfn : (s.zone .high).pfn = 0x2FFFF := hfr.pfn
  have hsize : (s.zone .high).size = 0x10005 := hfr.size
  rcases Nat.lt_or_ge k 2 with hlt | hge
  · obtain rfl : k = 1 := by omega
    obtain rfl : i = 0x10002 := by omega
    have hodd := freeAreaInit_asserted (hm.fresh .high) hzone 0x10002 1 hmem (by decide) (by rw [hsize]; decide)
    rw [hpfn] at hodd
    exact absurd hodd (by decide)
  · -- a larger block would reach down to a page that is not free
    have hfour : 2 ^ 2 ∣ i := (Nat.pow_dvd_pow 2 hge).trans hal
    have hlow := (hfree 0x10000 (by decide)).mp (hsub 0x10000 (by omega) (by omega))
    exact absurd hlow (by decide)

end MiniOS
