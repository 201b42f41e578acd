import MiniOS.Tiles
import MiniOS.ZoneInitSound

/-!
# The memory of the boot allocator

`alloc_bootmm_pages` compares the start of a block with the end of normal memory, not its end.
`mempage_init` leaves to the zones all usable frames above the one `base` points to, also those
that a later request takes.
-/

namespace MiniOS

open List Option

namespace Boot

def requests (bssEnd normalMaxpfn : Nat) (s : Boot) (sizes : List Nat) : Option Boot :=
  sizes.foldlM (fun s size => (s.allocBootmmPages bssEnd normalMaxpfn size).map Prod.snd) s

def Returned (s : Boot) (p : Nat) : Prop :=
  ∃ g ∈ s.given, g.1 < kernelBaseAddr + (p + 1) * pageSize ∧ kernelBaseAddr + p * pageSize < g.1 + g.2

end Boot

def bootRun (map : List Mmap) (bssEnd : Nat) (before after : List Nat) (mempage : Nat → Page)
    (links : ZoneName → Links ZNode) : Option (Zones × Boot) :=
  (Boot.start.requests bssEnd (getNormalMaxpfn map) before).bind fun s =>
    (mempageInit map s mempage).bind fun mempage =>
      (zoneInit map mempage links).bind fun z =>
        (s.requests bssEnd (getNormalMaxpfn map) after).map fun s => (z, s)

def Zones.managed (s : Zones) (H : Set (ZoneName × Block)) : Set Nat :=
  {p | ∃ n, ∃ i ∈ pagesOf ((s.zone n).freeBlocks ∪ heldOf H n), p = (s.zone n).pfn + i}

def normalTop (map : List Mmap) : Nat := getNormalMaxpfn map * pageSize + kernelBaseAddr

structure BootSafe (map : List Mmap) (z : Zones) (s : Boot) : Prop where
  below : ∀ g ∈ s.given, g.1 + g.2 ≤ normalTop map
  disjoint : s.given.Pairwise fun g g' => g.1 + g.2 ≤ g'.1 ∨ g'.1 + g'.2 ≤ g.1
  unmanaged : ∀ z' H, Relation.ReflTransGen ZonesStep (z, ∅) (z', H) → ∀ p ∈ z'.managed H, ¬ s.Returned p

def bootStart (bssEnd : Nat) : Nat := roundDown (wrap (bssEnd + 0xFFF)) pageSize

def bootFrame (bssEnd : Nat) (before : List Nat) : Nat :=
  (bootStart bssEnd + before.sum * pageSize - kernelBaseAddr) / pageSize

def Usable (map : List Mmap) (p : Nat) : Prop :=
  ∃ r ∈ map, r.type = 1 ∧ r.addr / pageSize ≤ p ∧ p < (r.addr + r.len) / pageSize

instance (map : List Mmap) (p : Nat) : Decidable (Usable map p) :=
  inferInstanceAs (Decidable (∃ r ∈ map, r.type = 1 ∧ r.addr / pageSize ≤ p ∧ p < (r.addr + r.len) / pageSize))

/-- There is room for all of the requests, and those after `zone_init` come to no usable frame
but the one that was kept back. -/
structure BootFits (map : List Mmap) (bssEnd : Nat) (before after : List Nat) : Prop where
  room : (before.sum + after.sum) * pageSize ≤ normalTop map - bootStart bssEnd
  frames : ∀ p, bootFrame bssEnd before < p → p < bootFrame bssEnd before + after.sum → ¬ Usable map p

section
variable {map : List Mmap} {bssEnd size lo : Nat} {sizes before after : List Nat} {s s' : Boot}
    {links : ZoneName → Links ZNode} {mempage : Nat → Page} {p : Nat} {z : Zones}

def bootSizes (map : List Mmap) (tables : Nat) : List Nat := List.replicate (1 + tables) 1 ++ [mempagePages map]

theorem bootAllocs_eq (map : List Mmap) (bssEnd tables : Nat) : bootAllocs map bssEnd tables =
    Boot.start.requests bssEnd (getNormalMaxpfn map) (bootSizes map tables) := rfl

/-- A page that starts below the end does not reach the end of the address space. -/
theorem normalTop_page (map : List Mmap) : normalTop map + pageSize ≤ 2 ^ 32 := by
  have hle : getNormalMaxpfn map * pageSize ≤ normalAddr := Nat.mul_le_of_le_div _ _ _ (getNormalMaxpfn_le map)
  unfold normalAddr at hle
  unfold normalTop kernelBaseAddr
  have : pageSize = 4096 := rfl
  omega

theorem normalTop_lt (map : List Mmap) : normalTop map < 2 ^ 32 :=
  Nat.lt_of_lt_of_le (Nat.lt_add_of_pos_right (by decide)) (normalTop_page map)

/-! ## The requests -/

namespace Boot

def next (bssEnd : Nat) (s : Boot) : Nat := if s.base = 0 then bootStart bssEnd else s.base

theorem next_of_ne (h : s.base ≠ 0) : s.next bssEnd = s.base := if_neg h

theorem allocBootmmPages_eq : s.allocBootmmPages bssEnd (getNormalMaxpfn map) size =
    if size = 0 ∨ normalTop map ≤ s.next bssEnd then none
    else some (s.next bssEnd,
      ⟨wrap (s.next bssEnd + size * pageSize), (s.next bssEnd, size * pageSize) :: s.given⟩) := by
  have htop : wrap (getNormalMaxpfn map * pageSize + kernelBaseAddr) = normalTop map :=
    wrap_of_lt (normalTop_lt map)
  rw [allocBootmmPages, htop]
  rfl

theorem allocBootmmPages_some {tmp : Nat}
    (h : s.allocBootmmPages bssEnd (getNormalMaxpfn map) size = some (tmp, s')) :
    size ≠ 0 ∧ s.next bssEnd < normalTop map ∧ tmp = s.next bssEnd ∧
    s'.base = wrap (s.next bssEnd + size * pageSize) ∧
      s'.given = (s.next bssEnd, size * pageSize) :: s.given := by
  rw [allocBootmmPages_eq] at h
  by_cases hpanic : size = 0 ∨ normalTop map ≤ s.next bssEnd
  · rw [if_pos hpanic] at h
    cases h
  · rw [if_neg hpanic] at h
    obtain ⟨hsize, hlt⟩ := not_or.mp hpanic
    obtain ⟨rfl, rfl⟩ := Prod.mk.inj (some.inj h)
    exact ⟨hsize, Nat.lt_of_not_le hlt, rfl, rfl, rfl⟩

structure Granted (map : List Mmap) (bssEnd : Nat) (s : Boot) (size : Nat) (s' : Boot) : Prop where
  pos : 0 < size * pageSize
  start : s.next bssEnd < normalTop map
  given : s'.given = (s.next bssEnd, size * pageSize) :: s.given
  next : s.next bssEnd + size * pageSize ≤ normalTop map → s'.next bssEnd = s.next bssEnd + size * pageSize

theorem requests_cons (h : s.requests bssEnd (getNormalMaxpfn map) (size :: sizes) = some s') :
    ∃ s₁, Granted map bssEnd s size s₁ ∧ s₁.requests bssEnd (getNormalMaxpfn map) sizes = some s' := by
  rw [requests, foldlM_cons, bind_eq_bind] at h
  obtain ⟨s₁, h₁, h⟩ := bind_eq_some_iff.mp h
  obtain ⟨⟨tmp, s₂⟩, h₂, rfl⟩ := map_eq_some_iff.mp h₁
  obtain ⟨hsize, hlt, -, hbase, hgiven⟩ := allocBootmmPages_some h₂
  have hpos : 0 < size * pageSize := Nat.mul_pos (Nat.pos_of_ne_zero hsize) (by decide)
  refine ⟨s₂, ⟨hpos, hlt, hgiven, fun hle => ?_⟩, h⟩
  rw [wrap_of_lt (hle.trans_lt (normalTop_lt map))] at hbase
  exact (next_of_ne (by omega)).trans hbase

theorem given_subset : ∀ {sizes : List Nat} {s : Boot}, s.requests bssEnd (getNormalMaxpfn map) sizes = some s' →
    s.given ⊆ s'.given
  | [], s, h => by
    obtain rfl := some.inj h
    exact List.Subset.refl _
  | size :: sizes, s, h => by
    obtain ⟨s₁, hgrant, h⟩ := requests_cons h
    have hsub := given_subset h
    rw [hgrant.given] at hsub
    exact (cons_subset.mp hsub).2

/-- All blocks end in normal memory if and only if there is room for their sum. -/
theorem below_iff : ∀ {sizes : List Nat} {s : Boot}, s.requests bssEnd (getNormalMaxpfn map) sizes = some s' →
    (∀ g ∈ s.given, g.1 + g.2 ≤ normalTop map) →
    ((∀ g ∈ s'.given, g.1 + g.2 ≤ normalTop map) ↔ sizes.sum * pageSize ≤ normalTop map - s.next bssEnd)
  | [], s, h, hs => by
    obtain rfl := some.inj h
    rw [sum_nil, Nat.zero_mul]
    exact iff_of_true hs (Nat.zero_le _)
  | size :: sizes, s, h, hs => by
    obtain ⟨s₁, hgrant, h⟩ := requests_cons h
    have hstart := hgrant.start
    rw [sum_cons, Nat.add_mul]
    by_cases hfit : s.next bssEnd + size * pageSize ≤ normalTop map
    · have hs₁ : ∀ g ∈ s₁.given, g.1 + g.2 ≤ normalTop map := by
        rw [hgrant.given]
        exact forall_mem_cons.mpr ⟨hfit, hs⟩
      rw [below_iff h hs₁, hgrant.next hfit]
      omega
    · have hmem : (s.next bssEnd, size * pageSize) ∈ s'.given := given_subset h (hgrant.given ▸ mem_cons_self)
      refine iff_of_false (fun hall => hfit (hall _ hmem)) ?_
      omega

/-- With room for them the blocks lie in a row. -/
theorem tiles_of_room (h : s.requests bssEnd (getNormalMaxpfn map) sizes = some s')
    (hroom : sizes.sum * pageSize ≤ normalTop map - s.next bssEnd)
    (hs : Tiles Prod.fst Prod.snd lo (s.next bssEnd) s.given.reverse) :
    Tiles Prod.fst Prod.snd lo (s'.next bssEnd) s'.given.reverse ∧
      s'.next bssEnd = s.next bssEnd + sizes.sum * pageSize := by
  induction sizes generalizing s with
  | nil =>
    obtain rfl := some.inj h
    rw [sum_nil, Nat.zero_mul]
    exact ⟨hs, rfl⟩
  | cons size sizes ih =>
    obtain ⟨s₁, hgrant, h⟩ := requests_cons h
    have hstart := hgrant.start
    rw [sum_cons, Nat.add_mul] at hroom ⊢
    have hnext := hgrant.next (by omega)
    have hs₁ : Tiles Prod.fst Prod.snd lo (s₁.next bssEnd) s₁.given.reverse := by
      rw [hgrant.given, hnext, reverse_cons]
      exact hs.concat (a := (s.next bssEnd, size * pageSize)) rfl
    obtain ⟨htiles, hend⟩ := ih h (by omega) hs₁
    exact ⟨htiles, by omega⟩

/-- No request panics while there is room. -/
theorem requests_isSome (hsizes : ∀ size ∈ sizes, size ≠ 0)
    (hroom : sizes.sum * pageSize ≤ normalTop map - s.next bssEnd) :
    ∃ s', s.requests bssEnd (getNormalMaxpfn map) sizes = some s' := by
  induction sizes generalizing s with
  | nil => exact ⟨s, rfl⟩
  | cons size sizes ih =>
    obtain ⟨hsize, hsizes⟩ := forall_mem_cons.mp hsizes
    have hpos : 0 < size * pageSize := Nat.mul_pos (Nat.pos_of_ne_zero hsize) (by decide)
    rw [sum_cons, Nat.add_mul] at hroom
    obtain ⟨s₁, hs₁⟩ : ∃ s₁, s.allocBootmmPages bssEnd (getNormalMaxpfn map) size = some (s.next bssEnd, s₁) := by
      rw [allocBootmmPages_eq, if_neg (not_or.mpr ⟨hsize, by omega⟩)]
      exact ⟨_, rfl⟩
    have hone : s.requests bssEnd (getNormalMaxpfn map) [size] = some s₁ := by
      rw [requests, foldlM_cons, hs₁]
      rfl
    obtain ⟨s₂, hgrant, e⟩ := requests_cons hone
    obtain rfl : s₂ = s₁ := some.inj e
    have hnext := hgrant.next (by omega)
    obtain ⟨s', hs'⟩ := ih (s := s₂) hsizes (by omega)
    exact ⟨s', by rw [requests, foldlM_cons, hs₁]; exact hs'⟩

theorem requests_append (h : s.requests bssEnd (getNormalMaxpfn map) before = some s') (after : List Nat) :
    s.requests bssEnd (getNormalMaxpfn map) (before ++ after) = s'.requests bssEnd (getNormalMaxpfn map) after := by
  rw [requests, foldlM_append]
  exact congrArg (· >>= _) h

end Boot

/-! ## The zones -/

theorem managed_iff {H : Set (ZoneName × Block)}
    (hm : Marked map mempage) (h : ZonesInv map mempage links z H) :
    p ∈ z.managed H ↔ p < getMaxPfn map ∧ (mempage p).flags &&& pgFree ≠ 0 := by
  have hpages : ∀ n i, i ∈ pagesOf ((z.zone n).freeBlocks ∪ heldOf H n) ↔
      i ∈ zoneFree ((freshZones map mempage links).zone n) := by
    intro n i
    obtain ⟨fl, hr, -⟩ := h.rep n
    rw [hr.freeBlocks_eq]
    exact (hr.tiling.cover i).symm
  constructor
  · rintro ⟨n, i, hi, rfl⟩
    obtain ⟨hsize, hfree⟩ := (hpages n i).mp hi
    rw [h.pfn]
    rw [(hm.frame n hsize).2] at hfree
    exact ⟨(hm.frame n hsize).1, hfree⟩
  · rintro ⟨hp, hfree⟩
    by_cases hlow : p < getNormalMaxpfn map
    · refine ⟨.normal, p, (hpages _ _).mpr ⟨hlow, hfree⟩, ?_⟩
      rw [h.pfn]
      exact (Nat.zero_add p).symm
    · have hsplit : getNormalMaxpfn map + (p - getNormalMaxpfn map) = p :=
        Nat.add_sub_cancel' (Nat.le_of_not_lt hlow)
      refine ⟨.high, p - getNormalMaxpfn map, (hpages _ _).mpr ((hm.mem_high_iff _).mpr ?_), ?_⟩
      · rw [hsplit]
        exact ⟨hp, hfree⟩
      · rw [h.pfn]
        exact hsplit.symm

theorem bootRun_inv
    (h : bootRun map bssEnd before after mempage links = some (z, s')) : ∃ s mempage',
      Boot.start.requests bssEnd (getNormalMaxpfn map) before = some s ∧ mempageInit map s mempage = some mempage' ∧
      zoneInit map mempage' links = some z ∧ s.requests bssEnd (getNormalMaxpfn map) after = some s' := by
  obtain ⟨s, hbefore, h⟩ := bind_eq_some_iff.mp h
  obtain ⟨mempage', hmarks, h⟩ := bind_eq_some_iff.mp h
  obtain ⟨z', hzones, h⟩ := bind_eq_some_iff.mp h
  obtain ⟨s'', hafter, e⟩ := map_eq_some_iff.mp h
  obtain ⟨rfl, rfl⟩ := Prod.mk.inj e
  exact ⟨s, mempage', hbefore, hmarks, hzones, hafter⟩

/-- The row of blocks that all the requests come to. -/
theorem tiles_start (h : Boot.start.requests bssEnd (getNormalMaxpfn map) sizes = some s)
    (hroom : sizes.sum * pageSize ≤ normalTop map - bootStart bssEnd) :
    Tiles Prod.fst Prod.snd (bootStart bssEnd) (s.next bssEnd) s.given.reverse ∧
      s.next bssEnd = bootStart bssEnd + sizes.sum * pageSize := by
  have hstart : Boot.start.next bssEnd = bootStart bssEnd := if_pos rfl
  have hnil : ∀ lo, Tiles Prod.fst Prod.snd lo lo Boot.start.given.reverse := fun lo => rfl
  rw [← hstart] at hroom ⊢
  exact Boot.tiles_of_room h hroom (hnil _)

theorem frame_start (h : Boot.start.requests bssEnd (getNormalMaxpfn map) before = some s)
    (hroom : before.sum * pageSize ≤ normalTop map - bootStart bssEnd) (hbase : kernelBaseAddr ≤ s.base) :
    s.frame = bootFrame bssEnd before ∧ kernelBaseAddr + bootFrame bssEnd before * pageSize = s.next bssEnd := by
  have hnext : s.next bssEnd = s.base := Boot.next_of_ne (Nat.ne_of_gt (Nat.lt_of_lt_of_le (by decide) hbase))
  have hend := (tiles_start h hroom).2
  have htop := normalTop_lt map
  have hdvd : pageSize ∣ s.base - kernelBaseAddr := by
    rw [← hnext, hend]
    exact Nat.dvd_sub (Nat.dvd_add (dvd_roundDown ..) (Nat.dvd_mul_left ..)) (by decide)
  have hstart : bootStart bssEnd < 2 ^ 32 := Nat.lt_of_le_of_lt (roundDown_le ..) (wrap_lt _)
  have hle : s.base - kernelBaseAddr ≤ 2 ^ 36 := by omega
  have hframe : bootFrame bssEnd before = (s.base - kernelBaseAddr) / pageSize := by
    rw [bootFrame, ← hend, hnext]
  rw [hframe, Nat.div_mul_cancel hdvd, hnext]
  exact ⟨physToPfn_eq hle, Nat.add_sub_cancel' hbase⟩

theorem frame_requests (hbefore : Boot.start.requests bssEnd (getNormalMaxpfn map) before = some s)
    (hall : Boot.start.requests bssEnd (getNormalMaxpfn map) (before ++ after) = some s')
    (hroom : (before.sum + after.sum) * pageSize ≤ normalTop map - bootStart bssEnd)
    (hbase : kernelBaseAddr ≤ s.base) : s.frame = bootFrame bssEnd before ∧
      s'.next bssEnd = kernelBaseAddr + (bootFrame bssEnd before + after.sum) * pageSize := by
  have hle : before.sum * pageSize ≤ normalTop map - bootStart bssEnd :=
    Nat.le_trans (Nat.mul_le_mul_right _ (Nat.le_add_right ..)) hroom
  obtain ⟨hframe, hnext⟩ := frame_start hbefore hle hbase
  rw [← List.sum_append] at hroom
  have hend := (tiles_start hall hroom).2
  rw [(tiles_start hbefore hle).2] at hnext
  rw [List.sum_append, Nat.add_mul] at hend
  rw [Nat.add_mul]
  exact ⟨hframe, by omega⟩

theorem bootStart_le (bssEnd : Nat) (before : List Nat) :
    bootStart bssEnd ≤ kernelBaseAddr + bootFrame bssEnd before * pageSize := by
  have hdvd : pageSize ∣ bootStart bssEnd + before.sum * pageSize - kernelBaseAddr :=
    Nat.dvd_sub (Nat.dvd_add (dvd_roundDown ..) (Nat.dvd_mul_left ..)) (by decide)
  rw [bootFrame, Nat.div_mul_cancel hdvd]
  omega

theorem returned_of_tiles (h : Tiles Prod.fst Prod.snd lo (s.next bssEnd) s.given.reverse)
    (hlow : lo ≤ kernelBaseAddr + p * pageSize) (hhigh : kernelBaseAddr + p * pageSize < s.next bssEnd) :
    s.Returned p := by
  obtain ⟨g, hg, hle, hlt⟩ := h.covered hlow hhigh
  refine ⟨g, mem_reverse.mp hg, ?_, hlt⟩
  have : 0 < pageSize := by decide
  rw [Nat.add_mul]
  omega

theorem lt_of_returned (h : Tiles Prod.fst Prod.snd lo (s.next bssEnd) s.given.reverse) (hp : s.Returned p) :
    kernelBaseAddr + p * pageSize < s.next bssEnd := by
  obtain ⟨g, hg, -, hlt⟩ := hp
  exact hlt.trans_le (h.packed.within (mem_reverse.mpr hg)).2

/-- A usable frame that is taken after `zone_init` is also one of the zones'. -/
theorem managed_returned (hmap : PaeLimit map)
    (h : bootRun map bssEnd before after mempage links = some (z, s))
    (hroom : (before.sum + after.sum) * pageSize ≤ normalTop map - bootStart bssEnd)
    (hlow : bootFrame bssEnd before < p)
    (hhigh : p < bootFrame bssEnd before + after.sum) (husable : Usable map p) :
    p ∈ z.managed ∅ ∧ s.Returned p := by
  obtain ⟨b, mempage', hbefore, hmarks, hzones, hafter⟩ := bootRun_inv h
  have hm := mempageInit_marked hmap hmarks
  have hall := (Boot.requests_append hbefore after).trans hafter
  obtain ⟨r, hr, ht, hle, hlt⟩ := husable
  have hp : p < getMaxPfn map := hlt.trans_le (stop_pfn_le hmap hr ht)
  obtain ⟨hframe, hend⟩ := frame_requests hbefore hall hroom (mempageInit_spec hmarks hp).1
  have hfree := (marked_iff hmap hmarks hp).mpr ⟨hframe.symm ▸ hlow, r, hr, ht, hle, hlt⟩
  rw [← List.sum_append] at hroom
  refine ⟨(managed_iff hm (zoneInit_zonesInv hm hzones)).mpr ⟨hp, hfree⟩,
    returned_of_tiles (tiles_start hall hroom).1 ?_ ?_⟩
  · exact Nat.le_trans (bootStart_le ..) (Nat.add_le_add_left (Nat.mul_le_mul_right _ hlow.le) _)
  · rw [hend]
    exact Nat.add_lt_add_left (Nat.mul_lt_mul_of_pos_right hhigh (by decide)) _

end

/-- Exactly the requests of `BootFits` keep the boot allocator in its memory. -/
theorem boot_memory_iff {map : List Mmap} {bssEnd : Nat} {before after : List Nat} {mempage : Nat → Page}
    {links : ZoneName → Links ZNode} {z : Zones} {s : Boot} (hmap : PaeLimit map)
    (h : bootRun map bssEnd before after mempage links = some (z, s)) :
    BootSafe map z s ↔ BootFits map bssEnd before after := by
  obtain ⟨b, mempage', hbefore, hmarks, hzones, hafter⟩ := bootRun_inv h
  have hm := mempageInit_marked hmap hmarks
  have hinv := zoneInit_zonesInv hm hzones
  have hall : Boot.start.requests bssEnd (getNormalMaxpfn map) (before ++ after) = some s :=
    (Boot.requests_append hbefore after).trans hafter
  have hbelow := Boot.below_iff hall (by simp [Boot.start])
  rw [List.sum_append] at hbelow
  have hstart : Boot.start.next bssEnd = bootStart bssEnd := if_pos rfl
  rw [hstart] at hbelow
  have htiles : (before.sum + after.sum) * pageSize ≤ normalTop map - bootStart bssEnd →
      Tiles Prod.fst Prod.snd (bootStart bssEnd) (s.next bssEnd) s.given.reverse := by
    intro hroom
    rw [← List.sum_append] at hroom
    exact (tiles_start hall hroom).1
  constructor
  · intro hsafe
    have hroom := hbelow.mp hsafe.below
    refine ⟨hroom, fun p hlow hhigh husable => ?_⟩
    obtain ⟨hman, hret⟩ := managed_returned hmap h hroom hlow hhigh husable
    exact hsafe.unmanaged z ∅ .refl p hman hret
  · intro hfits
    refine ⟨hbelow.mpr hfits.room, ?_, ?_⟩
    · have hrow := (htiles hfits.room).packed.pairwise
      exact (pairwise_reverse.mp hrow).imp .inr
    intro z' H hrun p hp hret
    obtain ⟨hmax, hfree⟩ := (managed_iff hm (hinv.run hm hrun)).mp hp
    obtain ⟨hlow, husable⟩ := (marked_iff hmap hmarks hmax).mp hfree
    obtain ⟨hframe, hend⟩ := frame_requests hbefore hall hfits.room (mempageInit_spec hmarks hmax).1
    rw [hframe] at hlow
    refine hfits.frames p hlow ?_ husable
    have hlt := lt_of_returned (htiles hfits.room) hret
    rw [hend] at hlt
    exact Nat.lt_of_mul_lt_mul_right (Nat.lt_of_add_lt_add_left hlt)

/-- The boot of `bootmm_init`, and requests after it for which there is room. -/
theorem bootRun_of_base {map : List Mmap} {bssEnd tables b : Nat} (after : List Nat) (hmap : PaeLimit map)
    (hruns : ∀ mempage, HighRunsAligned map mempage) (h : (bootAllocs map bssEnd tables).map Boot.base = some b)
    (hb : kernelBaseAddr ≤ b) (hafter : ∀ size ∈ after, size ≠ 0)
    (hroom : after.sum * pageSize ≤ normalTop map - b) :
    ∃ z s s', bootAllocs map bssEnd tables = some s ∧ s.given ⊆ s'.given ∧
      bootRun map bssEnd (bootSizes map tables) after (fun _ => ⟨0, 0, 0⟩) (fun _ => ⟨id, id⟩) = some (z, s') := by
  obtain ⟨s, mempage, rfl, hboot⟩ := bootmmInit_of_base h hb
  obtain ⟨hallocs, hmarks⟩ := bootmmInit_inv hboot
  obtain ⟨z, hz⟩ := zoneInit_isSome (mempageInit_marked hmap hmarks) (hruns mempage) fun _ => ⟨id, id⟩
  have hnext : s.next bssEnd = s.base := Boot.next_of_ne (Nat.ne_of_gt (Nat.lt_of_lt_of_le (by decide) hb))
  rw [← hnext] at hroom
  obtain ⟨s', hs'⟩ := Boot.requests_isSome hafter hroom
  refine ⟨z, s, s', hallocs, Boot.given_subset hs', ?_⟩
  rw [bootRun, ← bootAllocs_eq, hallocs, bind_some, hmarks, bind_some, hz, bind_some, hs']
  rfl

/-- One page of page tables after `zone_init`: the frame of `base`. -/
theorem boot_memory_iff_gig : ∃ z s, PaeLimit gigMap ∧
    bootRun gigMap 0xC0200000 (bootSizes gigMap 389) [1] (fun _ => ⟨0, 0, 0⟩) (fun _ => ⟨id, id⟩) = some (z, s) ∧
    BootSafe gigMap z s := by
  have hmap : PaeLimit gigMap := by decide
  obtain ⟨z, -, s, -, -, h⟩ := bootRun_of_base [1] hmap gigMap_runs gigMap_base (by decide) (by decide) (by decide)
  refine ⟨z, s, hmap, h, (boot_memory_iff hmap h).mpr ⟨by decide +kernel, fun p hlow hhigh => ?_⟩⟩
  have : [1].sum = 1 := rfl
  omega

/-- Little normal memory, and four gigabytes above: the `mempage` array takes 72 megabytes. -/
def lowMap : List Mmap := [⟨0x100000, 0xF00000, 1⟩, ⟨0x100000000, 0x100000000, 1⟩]

theorem lowMap_runs (mempage : Nat → Page) : HighRunsAligned lowMap mempage := highRuns_of_dvd mempage (by decide)

/-- In `bootmm_init` the array goes past the end of normal memory. With two pages after
`zone_init`, the second one is the first frame of the zones. -/
theorem boot_memory_overrun :
    (∃ z s, PaeLimit lowMap ∧
      bootRun lowMap 0xC0200000 (bootSizes lowMap 389) [] (fun _ => ⟨0, 0, 0⟩) (fun _ => ⟨id, id⟩) = some (z, s) ∧
      (0xC0386000, 0x4801000) ∈ s.given ∧ normalTop lowMap = 0xC1000000 ∧ ¬ BootSafe lowMap z s) ∧
    ∃ z s, PaeLimit gigMap ∧
      bootRun gigMap 0xC0200000 (bootSizes gigMap 389) [1, 1] (fun _ => ⟨0, 0, 0⟩)
      (fun _ => ⟨id, id⟩) = some (z, s) ∧ 0xC88 ∈ z.managed ∅ ∧ s.Returned 0xC88 ∧ ¬ BootSafe gigMap z s := by
  constructor
  · have hmap : PaeLimit lowMap := by decide
    have hbase : (bootAllocs lowMap 0xC0200000 389).map Boot.base = some 0xC4B87000 := by decide +kernel
    have hhead : (bootAllocs lowMap 0xC0200000 389).map (·.given.head?) = some (some (0xC0386000, 0x4801000)) := by
      decide +kernel
    obtain ⟨z, s, s', hs, hsub, h⟩ := bootRun_of_base [] hmap lowMap_runs hbase (by decide) nofun (Nat.zero_le _)
    rw [hs] at hhead
    have hmem : (0xC0386000, 0x4801000) ∈ s'.given := hsub (mem_of_mem_head? (some.inj hhead))
    have htop : normalTop lowMap = 0xC1000000 := by decide
    exact ⟨z, s', hmap, h, hmem, htop, fun hsafe => absurd (htop ▸ hsafe.below _ hmem) (by decide)⟩
  · have hmap : PaeLimit gigMap := by decide
    obtain ⟨z, -, s, -, -, h⟩ := bootRun_of_base [1, 1] hmap gigMap_runs gigMap_base (by decide)
      (by decide) (by decide)
    obtain ⟨hman, hret⟩ := managed_returned (p := 0xC88) hmap h (by decide +kernel) (by decide +kernel)
      (by decide +kernel) (by decide)
    exact ⟨z, s, hmap, h, hman, hret, fun hsafe => hsafe.unmanaged z ∅ .refl _ hman hret⟩

end MiniOS
