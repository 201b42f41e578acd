import MiniOS.Bootmm
import MiniOS.Runs

/-!
# Which frames become free memory

`mempage_init` rounds both ends of a region down. The frame in which a region starts is so
marked free although the bytes before the start are not part of the region; all other marks
are right.
-/

namespace MiniOS

open List Option

section
variable {map : List Mmap} {s s' : Boot} {mempage mempage' : Nat → Page} {bssEnd tables n : Nat}
    {p : Nat} {r : Mmap}

/-! ## Frame numbers -/

theorem physToPfn_eq {a : Nat} (h : a ≤ 2 ^ 36) : physToPfn a = a / pageSize := by
  apply wrap_of_lt
  unfold pageSize
  omega

theorem physToPfn_le (a : Nat) : physToPfn a ≤ a / pageSize := Nat.mod_le _ _

theorem PaeLimit.stop (h : PaeLimit map) (hr : r ∈ map) : r.stop = r.addr + r.len := by
  apply Nat.mod_eq_of_lt
  exact Nat.lt_of_le_of_lt (h r hr) (by decide)

theorem le_foldl_last : ∀ (map : List Mmap) (last : Nat),
    last ≤ map.foldl (fun last r => if r.type = 1 ∧ last < r.stop then r.stop else last) last ∧
    ∀ r ∈ map, r.type = 1 →
    r.stop ≤ map.foldl (fun last r => if r.type = 1 ∧ last < r.stop then r.stop else last) last
  | [], last => ⟨Nat.le_refl _, by simp⟩
  | r :: map, last => by
    rw [foldl_cons]
    obtain ⟨hle, hall⟩ := le_foldl_last map (if r.type = 1 ∧ last < r.stop then r.stop else last)
    have hlast : last ≤ if r.type = 1 ∧ last < r.stop then r.stop else last := by
      split
      · rename_i hr
        exact hr.2.le
      · exact Nat.le_refl _
    refine ⟨hlast.trans hle, forall_mem_cons.mpr ⟨?_, hall⟩⟩
    intro htype
    refine Nat.le_trans ?_ hle
    split
    · exact Nat.le_refl _
    · rename_i hr
      exact Nat.le_of_not_lt fun hlt => hr ⟨htype, hlt⟩

theorem stop_le_maxLast (hr : r ∈ map) (ht : r.type = 1) : r.stop ≤ maxLast map :=
  (le_foldl_last map 0).2 r hr ht

theorem maxLast_le (h : PaeLimit map) : maxLast map ≤ 2 ^ 36 := by
  unfold maxLast
  apply List.foldlRecOn (motive := fun last => last ≤ 2 ^ 36) map _ (Nat.zero_le _)
  intro last hlast r hr
  split
  · rw [h.stop hr]
    exact h r hr
  · exact hlast

theorem getMaxPfn_eq (h : PaeLimit map) : getMaxPfn map = maxLast map / pageSize := physToPfn_eq (maxLast_le h)

theorem getMaxPfn_le (h : PaeLimit map) : getMaxPfn map ≤ 2 ^ 24 := by
  rw [getMaxPfn_eq h]
  have hle := maxLast_le h
  unfold pageSize
  omega

/-- The frame numbers of a region, with both ends rounded down. -/
theorem region_pfn (h : PaeLimit map) (hr : r ∈ map) :
    physToPfn r.addr = r.addr / pageSize ∧ physToPfn r.stop = (r.addr + r.len) / pageSize := by
  have hle := h r hr
  rw [h.stop hr, physToPfn_eq hle, physToPfn_eq (by omega)]
  exact ⟨rfl, rfl⟩

theorem stop_pfn_le (h : PaeLimit map) (hr : r ∈ map) (ht : r.type = 1) :
    (r.addr + r.len) / pageSize ≤ getMaxPfn map := by
  rw [getMaxPfn_eq h, ← h.stop hr]
  exact Nat.div_le_div_right (stop_le_maxLast hr ht)

theorem normalLast_le : ∀ (map : List Mmap) {last : Nat}, last ≤ normalAddr → normalLast last map ≤ normalAddr
  | [], _, h => h
  | r :: map, last, h => by
    rw [normalLast]
    split
    · split
      · exact normalLast_le map h
      · split
        · apply normalLast_le map
          split
          · omega
          · exact h
        · exact Nat.le_refl _
    · exact normalLast_le map h

theorem getNormalMaxpfn_le (map : List Mmap) : getNormalMaxpfn map ≤ normalAddr / pageSize := by
  have hle := normalLast_le map (Nat.zero_le _)
  exact Nat.le_trans (physToPfn_le _) (Nat.div_le_div_right hle)

/-! ## The boot allocator -/

def Boot.Below (s : Boot) : Prop := ∀ g ∈ s.given, g.1 + g.2 ≤ s.base

theorem allocBootmmPages_inv {size tmp : Nat}
    (h : s.allocBootmmPages bssEnd (getNormalMaxpfn map) size = some (tmp, s'))
    (hs : s.Below) : tmp < kernelBaseAddr + normalAddr ∧ s'.base = wrap (tmp + size * pageSize) ∧
      ∀ g ∈ s'.given, g.1 + g.2 ≤ tmp + size * pageSize := by
  unfold Boot.allocBootmmPages at h
  dsimp only at h
  generalize htmp : (if s.base = 0 then roundDown (wrap (bssEnd + 0xFFF)) pageSize else s.base) = start at h
  have hbase : s.base ≤ start := by
    rw [← htmp]
    split
    · omega
    · exact Nat.le_refl _
  split at h
  · cases h
  · rename_i hok
    obtain ⟨rfl, rfl⟩ := Prod.mk.inj (some.inj h)
    refine ⟨?_, rfl, ?_⟩
    · have hlimit : wrap (getNormalMaxpfn map * pageSize + kernelBaseAddr) ≤
          getNormalMaxpfn map * pageSize + kernelBaseAddr :=
        Nat.mod_le _ _
      have hle : getNormalMaxpfn map * pageSize ≤ normalAddr := Nat.mul_le_of_le_div _ _ _ (getNormalMaxpfn_le map)
      omega
    · intro g hg
      rcases mem_cons.mp hg with rfl | hg
      · exact Nat.le_refl _
      · exact Nat.le_trans (hs g hg) (hbase.trans (Nat.le_add_right _ _))

/-- One page does not reach the end of the address space. -/
theorem allocBootmmPages_one {tmp : Nat} (h : s.allocBootmmPages bssEnd (getNormalMaxpfn map) 1 = some (tmp, s'))
    (hs : s.Below) : s'.Below := by
  obtain ⟨htmp, hbase, hgiven⟩ := allocBootmmPages_inv h hs
  have htop : tmp + 1 * pageSize < 2 ^ 32 := by
    unfold kernelBaseAddr normalAddr at htmp
    unfold pageSize
    omega
  intro g hg
  rw [hbase, wrap_of_lt htop]
  exact hgiven g hg

theorem tables_below (n : Nat) (h : (List.replicate n 1).foldlM
    (fun s size => (s.allocBootmmPages bssEnd (getNormalMaxpfn map) size).map Prod.snd) s = some s')
    (hs : s.Below) : s'.Below := by
  induction n generalizing s with
  | zero =>
    obtain rfl := some.inj h
    exact hs
  | succ n ih =>
    rw [replicate_succ, foldlM_cons, bind_eq_bind] at h
    obtain ⟨s₁, h₁, h⟩ := bind_eq_some_iff.mp h
    obtain ⟨⟨tmp, s₂⟩, h₂, rfl⟩ := map_eq_some_iff.mp h₁
    have hs₂ : s₂.Below := allocBootmmPages_one h₂ hs
    exact ih h hs₂

theorem mempagePages_le (h : PaeLimit map) : mempagePages map * pageSize ≤ 0x24001000 := by
  have hle := getMaxPfn_le h
  have hwrap : wrap (getMaxPfn map * sizeofPage) ≤ getMaxPfn map * sizeofPage := Nat.mod_le _ _
  unfold mempagePages
  unfold sizeofPage at *
  unfold pageSize
  omega

/-- The array may wrap around, and then `base` is no kernel address. -/
theorem bootAllocs_below (hmap : PaeLimit map) (h : bootAllocs map bssEnd tables = some s)
    (hb : kernelBaseAddr ≤ s.base) : s.Below ∧ s.base < 2 ^ 32 := by
  unfold bootAllocs at h
  obtain ⟨s₁, h₁, h⟩ := foldlM_snoc.mp h
  obtain ⟨⟨tmp, _⟩, h₂, rfl⟩ := map_eq_some_iff.mp h
  have hs : Boot.start.Below := by simp [Boot.Below, Boot.start]
  obtain ⟨htmp, hbase, hgiven⟩ := allocBootmmPages_inv h₂ (tables_below _ h₁ hs)
  have hpages := mempagePages_le hmap
  have htop : tmp + mempagePages map * pageSize < 2 ^ 32 := by
    rw [hbase] at hb
    unfold kernelBaseAddr normalAddr wrap at *
    omega
  rw [wrap_of_lt htop] at hbase
  rw [hbase]
  refine ⟨?_, htop⟩
  intro g hg
  rw [hbase]
  exact hgiven g hg

/-! ## The marks -/

theorem isPageAval_some {b : Bool} (h : isPageAval map s p = some b) : kernelBaseAddr ≤ s.base ∧
    (b = true ↔ s.frame < p ∧ p < getMaxPfn map ∧
      ∃ r ∈ map, r.type = 1 ∧ physToPfn r.addr ≤ p ∧ p < physToPfn r.stop) := by
  unfold isPageAval virtToPhys at h
  by_cases hb : s.base < kernelBaseAddr
  · rw [if_pos hb] at h
    cases h
  refine ⟨Nat.le_of_not_lt hb, ?_⟩
  rw [if_neg hb, map_some, some.injEq] at h
  rw [← h]
  unfold Boot.frame
  split
  · rename_i hp
    simp [Nat.not_lt.mpr hp]
  · rename_i hp
    split
    · rename_i hmax
      simp [Nat.not_lt.mpr hmax]
    · rename_i hmax
      simp [Nat.lt_of_not_le hp, Nat.lt_of_not_le hmax]

theorem foldlM_marks {f : Nat → Option Bool} : ∀ (n : Nat) {mempage mempage' : Nat → Page}, (List.range n).foldlM
    (fun mempage i => (f i).map fun aval => Function.update mempage i ⟨0, if aval then pgFree else pgReserved, -1⟩)
      mempage = some mempage' →
    ∀ p < n, ∃ b, f p = some b ∧ mempage' p = ⟨0, if b then pgFree else pgReserved, -1⟩
  | 0, _, _, _, _, hp => by omega
  | n + 1, mempage, mempage', h, p, hp => by
    rw [List.range_succ] at h
    obtain ⟨mp, h₁, h⟩ := foldlM_snoc.mp h
    obtain ⟨b, hf, rfl⟩ := map_eq_some_iff.mp h
    by_cases e : p = n
    · rw [e]
      exact ⟨b, hf, Function.update_self ..⟩
    · obtain ⟨b', hf', hmp⟩ := foldlM_marks n h₁ p (by omega)
      exact ⟨b', hf', (Function.update_of_ne e ..).trans hmp⟩

theorem mempageInit_spec (h : mempageInit map s mempage = some mempage') (hp : p < getMaxPfn map) :
    kernelBaseAddr ≤ s.base ∧ ∃ b, isPageAval map s p = some b ∧
      mempage' p = ⟨0, if b then pgFree else pgReserved, -1⟩ := by
  obtain ⟨b, hf, hm⟩ := foldlM_marks _ h p hp
  exact ⟨(isPageAval_some hf).1, b, hf, hm⟩

theorem marked_iff (hmap : PaeLimit map) (h : mempageInit map s mempage = some mempage')
    (hp : p < getMaxPfn map) : (mempage' p).flags &&& pgFree ≠ 0 ↔
      s.frame < p ∧ ∃ r ∈ map, r.type = 1 ∧ r.addr / pageSize ≤ p ∧ p < (r.addr + r.len) / pageSize := by
  obtain ⟨-, b, hf, hm⟩ := mempageInit_spec h hp
  have hflags : (mempage' p).flags &&& pgFree ≠ 0 ↔ b = true := by
    rw [hm]
    cases b <;> decide
  rw [hflags, (isPageAval_some hf).2, and_iff_right hp]
  apply and_congr_right
  intro _
  apply exists_congr
  intro r
  apply and_congr_right
  intro hr
  rw [(region_pfn hmap hr).1, (region_pfn hmap hr).2]

theorem wholeIn_iff : WholeIn map p ↔
    ∃ r ∈ map, r.type = 1 ∧ r.addr ≤ p * pageSize ∧ p < (r.addr + r.len) / pageSize := by
  unfold WholeIn
  simp only [← Nat.succ_le_iff, Nat.le_div_iff_mul_le (show 0 < pageSize by decide)]

theorem WholeIn.marked (h : WholeIn map p) :
    ∃ r ∈ map, r.type = 1 ∧ r.addr / pageSize ≤ p ∧ p < (r.addr + r.len) / pageSize := by
  obtain ⟨r, hr, ht, hle, hlt⟩ := wholeIn_iff.mp h
  exact ⟨r, hr, ht, Nat.div_le_of_le_mul (Nat.mul_comm p _ ▸ hle), hlt⟩

/-- Above the boot allocator's frame is above all it handed out. -/
theorem aboveGiven (hs : s.Below) (hb : kernelBaseAddr ≤ s.base) (hw : s.base < 2 ^ 32) (hp : s.frame < p) :
    AboveGiven s p := by
  intro g hg
  have hbelow := hs g hg
  unfold Boot.frame at hp
  rw [physToPfn_eq (by omega)] at hp
  unfold pageSize at *
  omega

/-- A region that starts in an earlier frame, or at the start of this one, has it whole. -/
theorem wholeIn_of_start (hr : r ∈ map) (ht : r.type = 1) (hle : r.addr / pageSize ≤ p)
    (hlt : p < (r.addr + r.len) / pageSize) (hstart : p = r.addr / pageSize → pageSize ∣ r.addr) :
    WholeIn map p := by
  refine wholeIn_iff.mpr ⟨r, hr, ht, ?_, hlt⟩
  by_cases e : p = r.addr / pageSize
  · rw [e, Nat.div_mul_cancel (hstart e)]
  · have hnext : r.addr / pageSize < p := Nat.lt_of_le_of_ne hle fun e' => e e'.symm
    exact Nat.le_of_lt ((Nat.div_lt_iff_lt_mul (by decide)).mp hnext)

theorem isPageAval_isSome (map : List Mmap) (hb : kernelBaseAddr ≤ s.base) (p : Nat) :
    ∃ b, isPageAval map s p = some b := by
  unfold isPageAval virtToPhys
  rw [if_neg hb.not_gt]
  exact ⟨_, rfl⟩

theorem mempageInit_isSome (map : List Mmap) (mempage : Nat → Page) (hb : kernelBaseAddr ≤ s.base) :
    ∃ mempage', mempageInit map s mempage = some mempage' := by
  unfold mempageInit
  generalize getMaxPfn map = n
  induction n with
  | zero => exact ⟨mempage, rfl⟩
  | succ n ih =>
    obtain ⟨mp, hmp⟩ := ih
    obtain ⟨b, hb⟩ := isPageAval_isSome map hb n
    rw [List.range_succ, foldlM_append, hmp]
    simp only [bind_eq_bind, bind_some, foldlM_cons, foldlM_nil, hb, map_some]
    exact ⟨_, rfl⟩

theorem bootmmInit_inv (h : bootmmInit map bssEnd tables mempage = some (s, mempage')) :
    bootAllocs map bssEnd tables = some s ∧ mempageInit map s mempage = some mempage' := by
  obtain ⟨s₁, hallocs, h⟩ := bind_eq_some_iff.mp h
  obtain ⟨mp, hinit, e⟩ := map_eq_some_iff.mp h
  obtain ⟨rfl, rfl⟩ := Prod.mk.inj e
  exact ⟨hallocs, hinit⟩

end

/-- `mempage_init` marks exactly the whole usable frames above the boot allocator if and only
if no region starts inside a frame that it should not. -/
theorem mempage_init_right {map : List Mmap} {bssEnd tables : Nat} {mempage mempage' : Nat → Page} {s : Boot}
    (hmap : PaeLimit map) (h : bootmmInit map bssEnd tables mempage = some (s, mempage')) :
    FramesRight map s mempage' ↔ StartsCovered map s := by
  obtain ⟨hallocs, hinit⟩ := bootmmInit_inv h
  constructor
  · intro hright r hr ht hunaligned hframe hlt
    have hp := hlt.trans_le (stop_pfn_le hmap hr ht)
    exact (hright.free _ hp ((marked_iff hmap hinit hp).mpr ⟨hframe, r, hr, ht, Nat.le_refl _, hlt⟩)).1
  · intro hcovered
    refine ⟨?_, ?_⟩
    · intro p hp hfree
      obtain ⟨hframe, r, hr, ht, hle, hlt⟩ := (marked_iff hmap hinit hp).mp hfree
      have hbase := (mempageInit_spec hinit hp).1
      obtain ⟨hbelow, hword⟩ := bootAllocs_below hmap hallocs hbase
      refine ⟨?_, aboveGiven hbelow hbase hword hframe⟩
      by_cases hstart : p = r.addr / pageSize → pageSize ∣ r.addr
      · exact wholeIn_of_start hr ht hle hlt hstart
      · obtain ⟨rfl, hunaligned⟩ := Classical.not_imp.mp hstart
        exact hcovered r hr ht hunaligned hframe hlt
    · intro p hp hwhole hframe
      exact (marked_iff hmap hinit hp).mpr ⟨hframe, hwhole.marked⟩

/-- A boot with an empty `mempage` array gets through if `base` stays a kernel address. -/
theorem bootmmInit_of_base {map : List Mmap} {bssEnd tables b : Nat}
    (h : (bootAllocs map bssEnd tables).map Boot.base = some b) (hb : kernelBaseAddr ≤ b) :
    ∃ s mempage', s.base = b ∧ bootmmInit map bssEnd tables (fun _ => ⟨0, 0, 0⟩) = some (s, mempage') := by
  obtain ⟨s, hs, rfl⟩ := map_eq_some_iff.mp h
  obtain ⟨mempage', hm⟩ := mempageInit_isSome map (fun _ => ⟨0, 0, 0⟩) hb
  refine ⟨s, mempage', rfl, ?_⟩
  unfold bootmmInit
  rw [hs, bind_some, hm, map_some]

def pcMap : List Mmap := [⟨0, 0x9FC00, 1⟩, ⟨0xF0000, 0x10000, 2⟩, ⟨0x100000, 0xFE00000, 1⟩]

theorem mempage_init_right_pc :
    ∃ s mempage, bootmmInit pcMap 0xC0200000 389 (fun _ => ⟨0, 0, 0⟩) = some (s, mempage) ∧
    FramesRight pcMap s mempage := by
  have hbase : (bootAllocs pcMap 0xC0200000 389).map Boot.base = some 0xC05C4000 := by decide +kernel
  obtain ⟨s, mempage, -, h⟩ := bootmmInit_of_base hbase (by decide)
  refine ⟨s, mempage, h, (mempage_init_right (by decide) h).mpr ?_⟩
  have haligned : ∀ r ∈ pcMap, r.type = 1 → pageSize ∣ r.addr := by decide
  intro r hr ht hunaligned
  exact absurd (haligned r hr ht) hunaligned

/-- One more region, which starts in the middle of a frame: that frame is marked free, though
its first half belongs to no region. -/
theorem mempage_init_marks_half : ∃ map s mempage, PaeLimit map ∧
    bootmmInit map 0xC0200000 389 (fun _ => ⟨0, 0, 0⟩) = some (s, mempage) ∧ 0x10000 < getMaxPfn map ∧
    (mempage 0x10000).flags &&& pgFree ≠ 0 ∧ ¬ WholeIn map 0x10000 := by
  have hbase : (bootAllocs (pcMap ++ [⟨0x10000800, 0x10000, 1⟩]) 0xC0200000 389).map Boot.base =
      some 0xC05C7000 := by
    decide +kernel
  obtain ⟨s, mempage, hs, h⟩ := bootmmInit_of_base hbase (by decide)
  have hmap : PaeLimit (pcMap ++ [⟨0x10000800, 0x10000, 1⟩]) := by decide
  have hframe : s.frame = 0x5C7 := by
    unfold Boot.frame
    rw [hs]
    decide
  refine ⟨_, s, mempage, hmap, h, by decide, ?_, by decide⟩
  apply (marked_iff hmap (bootmmInit_inv h).2 (by decide)).mpr
  rw [hframe]
  decide

end MiniOS
