import MiniOS.Bootmm
import MiniOS.ByteMem

/-!
# The boot information

`detect_memory` walks over the tags that the boot loader leaves behind the first eight bytes of its
information, and copies the entries of the memory maps among them to `mmapinfo`. The information
lies apart from the data of the kernel, and what a store behind the end of `mmapinfo` hits is not
part of the state.
-/

namespace MiniOS

open List

def multibootTagTypeEnd : Nat := 0

def multibootTagTypeMmap : Nat := 6

def nrMmap : Nat := 128

def ld64 (mem : Mem) (a : Nat) : Nat := ld32 mem a + 2 ^ 32 * ld32 mem (a + 4)

/-! ## `struct multiboot_tag`, `struct multiboot_tag_mmap` and its entries -/

section
variable (mem : Mem) (tag : Nat)

def tagType : Nat := ld32 mem tag

def tagSize : Nat := ld32 mem (tag + 4)

def entrySize : Nat := ld32 mem (tag + 8)

def mmapEntry (mmap : Nat) : Mmap := ⟨ld64 mem mmap, ld64 mem (mmap + 8), ld32 mem (mmap + 16)⟩

/-- `(char *) tag + ((tag->size + 7) & ~7)`. -/
def nextTag : Nat := wrap (tag + (wrap (tagSize mem tag + 7) &&& 0xFFFFFFF8))

end

/-- `written` is not in the source: the indices that were stored to. -/
structure MmapInfo where
  mmapinfo : Nat → Mmap
  nrMmapinfo : Nat
  written : List Nat

namespace MmapInfo

def start : MmapInfo := ⟨fun _ => ⟨0, 0, 0⟩, 0, []⟩

def record (s : MmapInfo) (r : Mmap) : MmapInfo where
  mmapinfo := Function.update s.mmapinfo s.nrMmapinfo r
  nrMmapinfo := s.nrMmapinfo + 1
  written := s.written ++ [s.nrMmapinfo]

def map (s : MmapInfo) : List Mmap := (List.range s.nrMmapinfo).map s.mmapinfo

end MmapInfo

def recordEntries (mem : Mem) (tag : Nat) : (fuel mmap : Nat) → MmapInfo → Option MmapInfo
  | 0, _, _ => none
  | fuel + 1, mmap, s =>
    if mmap < wrap (tag + tagSize mem tag) then
      recordEntries mem tag fuel (wrap (mmap + entrySize mem tag)) (s.record (mmapEntry mem mmap))
    else some s

def detectTags (mem : Mem) (bound : Nat) : (fuel tag : Nat) → MmapInfo → Option MmapInfo
  | 0, _, _ => none
  | fuel + 1, tag, s =>
    if tagType mem tag = multibootTagTypeEnd then some s
    else if tagType mem tag = multibootTagTypeMmap then
      (recordEntries mem tag bound (wrap (tag + 16)) s).bind (detectTags mem bound fuel (nextTag mem tag))
    else detectTags mem bound fuel (nextTag mem tag) s

def detectMemory (mem : Mem) (fuel info : Nat) : Option MmapInfo :=
  detectTags mem fuel fuel (wrap (info + 8)) .start

/-! ## Well-formed information -/

def tagEntries (mem : Mem) (tag : Nat) : List Mmap :=
  (List.range ((tagSize mem tag - 16) / entrySize mem tag)).map fun i =>
    mmapEntry mem (tag + 16 + i * entrySize mem tag)

def tagEnd (mem : Mem) (tag : Nat) : Nat := tag + (tagSize mem tag + 7) / 8 * 8

/-- From `tag` on there are tags one behind the other up to an end tag, with these entries in the
memory maps among them. -/
inductive TagsFrom (mem : Mem) : (tag : Nat) → List Mmap → Prop
  | last {tag : Nat} : tagType mem tag = multibootTagTypeEnd → tag + 8 ≤ 2 ^ 32 → TagsFrom mem tag []
  | mmap {tag : Nat} {rest : List Mmap} : tagType mem tag = multibootTagTypeMmap → 16 ≤ tagSize mem tag →
      24 ≤ entrySize mem tag → entrySize mem tag ∣ tagSize mem tag - 16 → TagsFrom mem (tagEnd mem tag) rest →
      TagsFrom mem tag (tagEntries mem tag ++ rest)
  | other {tag : Nat} {rest : List Mmap} : tagType mem tag ≠ multibootTagTypeEnd →
      tagType mem tag ≠ multibootTagTypeMmap → 8 ≤ tagSize mem tag → TagsFrom mem (tagEnd mem tag) rest →
      TagsFrom mem tag rest

structure Detected (entries : List Mmap) (s : MmapInfo) : Prop where
  inside : ∀ i ∈ s.written, i < nrMmap
  count : s.nrMmapinfo = entries.length
  recorded : s.map = entries

/-! ## Addresses -/

theorem and_not_seven {n : Nat} (h : n < 2 ^ 32) : n &&& 0xFFFFFFF8 = n / 8 * 8 := by
  have hmask : 0xFFFFFFF8 = 2 ^ 3 * (2 ^ 29 - 1) := by decide
  apply Nat.eq_of_testBit_eq
  intro i
  rw [hmask, Nat.mul_comm (n / 8), Nat.testBit_and, show 8 = 2 ^ 3 from rfl, Nat.testBit_two_pow_mul,
    Nat.testBit_two_pow_mul, Nat.testBit_two_pow_sub_one, Nat.testBit_div_two_pow]
  by_cases hi : 3 ≤ i
  · have hsum : i - 3 + 3 = i := by omega
    rw [decide_eq_true hi, hsum, Bool.true_and, Bool.true_and]
    by_cases hlt : i - 3 < 29
    · rw [decide_eq_true hlt, Bool.and_true]
    · have hhigh : n.testBit i = false :=
        Nat.testBit_lt_two_pow (h.trans_le (Nat.pow_le_pow_right (by decide) (by omega)))
      rw [hhigh, Bool.false_and]
  · rw [decide_eq_false hi, Bool.false_and, Bool.false_and, Bool.and_false]

section
variable {mem : Mem} {tag : Nat} {entries : List Mmap}

theorem tagEnd_ge (mem : Mem) (tag : Nat) : tag + tagSize mem tag ≤ tagEnd mem tag := by
  unfold tagEnd
  omega

theorem nextTag_eq (h : tagEnd mem tag < 2 ^ 32) : nextTag mem tag = tagEnd mem tag := by
  have hsize : tagSize mem tag + 7 < 2 ^ 32 := by
    unfold tagEnd at h
    omega
  rw [nextTag, wrap_of_lt hsize, and_not_seven hsize]
  exact wrap_of_lt h

theorem TagsFrom.fits (h : TagsFrom mem tag entries) : tag + 8 ≤ 2 ^ 32 := by
  induction h with
  | last _ hfits => exact hfits
  | mmap _ hsize _ _ _ ih =>
    have := tagEnd_ge mem ‹_›
    omega
  | other _ _ hsize _ ih =>
    have := tagEnd_ge mem ‹_›
    omega

end

/-! ## What is recorded -/

namespace MmapInfo

variable (s : MmapInfo)

theorem record_map (r : Mmap) : (s.record r).map = s.map ++ [r] := by
  have hold : (List.range s.nrMmapinfo).map (s.record r).mmapinfo = s.map :=
    map_congr_left fun i hi => Function.update_of_ne (mem_range.mp hi).ne ..
  have hnew : (s.record r).mmapinfo s.nrMmapinfo = r := Function.update_self ..
  have hsucc : (s.record r).map = (List.range (s.nrMmapinfo + 1)).map (s.record r).mmapinfo := rfl
  rw [hsucc, List.range_succ, map_append, hold, map_singleton, hnew]

theorem recorded : ∀ (es : List Mmap) (s : MmapInfo), (es.foldl record s).map = s.map ++ es ∧
    (es.foldl record s).nrMmapinfo = s.nrMmapinfo + es.length ∧
    (es.foldl record s).written = s.written ++ List.range' s.nrMmapinfo es.length
  | [], s => ⟨(append_nil _).symm, rfl, (append_nil _).symm⟩
  | r :: es, s => by
    obtain ⟨hmap, hnr, hwritten⟩ := recorded es (s.record r)
    rw [foldl_cons, hmap, hnr, hwritten, record_map, length_cons, range'_succ]
    refine ⟨append_assoc .., ?_, append_assoc ..⟩
    show s.nrMmapinfo + 1 + es.length = _
    omega

/-- Of any number of entries, those from the 129th on are stored behind the array. -/
theorem detected_iff (entries : List Mmap) : Detected entries (entries.foldl record start) ↔
    entries.length ≤ nrMmap := by
  obtain ⟨hmap, hnr, hwritten⟩ := recorded entries start
  have hzero : start.nrMmapinfo + entries.length = entries.length := Nat.zero_add _
  have hmem : ∀ {i}, i ∈ (entries.foldl record start).written ↔ i < entries.length := by
    intro i
    rw [hwritten]
    exact mem_range'_1.trans (by rw [hzero]; exact and_iff_right (Nat.zero_le i))
  constructor
  · intro h
    exact Nat.not_lt.mp fun hlong => Nat.lt_irrefl _ (h.inside _ (hmem.mpr hlong))
  · intro h
    exact ⟨fun i hi => (hmem.mp hi).trans_le h, hnr.trans hzero, hmap⟩

end MmapInfo

/-! ## The two loops -/

section
variable {mem : Mem} {tag : Nat}

theorem recordEntries_eq (hfits : tag + tagSize mem tag < 2 ^ 32) (hsize : 0 < entrySize mem tag) :
    ∀ (n : Nat) {i fuel : Nat} (s : MmapInfo), n < fuel → (i + n) * entrySize mem tag = tagSize mem tag - 16 →
    recordEntries mem tag fuel (tag + 16 + i * entrySize mem tag) s =
      some (((List.range' i n).map fun j => mmapEntry mem (tag + 16 + j * entrySize mem tag)).foldl .record s)
  | 0, i, fuel + 1, s, _, hn => by
    rw [Nat.add_zero] at hn
    rw [recordEntries, wrap_of_lt hfits, hn, if_neg (by omega)]
    rfl
  | n + 1, i, fuel + 1, s, hf, hn => by
    have hnext : (i + 1 + n) * entrySize mem tag = tagSize mem tag - 16 := by
      rw [← hn, Nat.add_right_comm, Nat.add_assoc]
    have hle : (i + 1) * entrySize mem tag ≤ tagSize mem tag - 16 := hnext ▸ Nat.mul_le_mul_right _ (by omega)
    rw [Nat.add_one_mul] at hle
    rw [recordEntries, wrap_of_lt hfits, if_pos (by omega), wrap_of_lt (by omega), Nat.add_assoc, ← Nat.add_one_mul,
      recordEntries_eq hfits hsize n _ (Nat.lt_of_succ_lt_succ hf) hnext]
    rfl

theorem tagEntries_recorded (hfits : tagEnd mem tag < 2 ^ 32) (h₁₆ : 16 ≤ tagSize mem tag)
    (hsize : 24 ≤ entrySize mem tag)
    (hdvd : entrySize mem tag ∣ tagSize mem tag - 16) {bound : Nat} (hb : 2 ^ 29 ≤ bound) (s : MmapInfo) :
    recordEntries mem tag bound (wrap (tag + 16)) s = some ((tagEntries mem tag).foldl .record s) := by
  have hend := tagEnd_ge mem tag
  have hcount : (0 + (tagSize mem tag - 16) / entrySize mem tag) * entrySize mem tag = tagSize mem tag - 16 := by
    rw [Nat.zero_add, Nat.div_mul_cancel hdvd]
  have hfew : (tagSize mem tag - 16) / entrySize mem tag < bound := by
    have hmul := Nat.mul_le_mul_left ((tagSize mem tag - 16) / entrySize mem tag) hsize
    rw [Nat.div_mul_cancel hdvd] at hmul
    omega
  have h := recordEntries_eq (by omega) (by omega) _ s hfew hcount
  rw [Nat.zero_mul, Nat.add_zero, ← range_eq_range'] at h
  rw [wrap_of_lt (by omega)]
  exact h

theorem detectTags_eq {bound : Nat} (hb : 2 ^ 29 ≤ bound) {entries : List Mmap} (h : TagsFrom mem tag entries) :
    ∀ {fuel : Nat} (s : MmapInfo), 2 ^ 32 ≤ tag + 8 * fuel →
      detectTags mem bound fuel tag s = some (entries.foldl .record s) := by
  induction h with
  | last htype hfits =>
    intro fuel s hf
    obtain ⟨fuel, rfl⟩ : ∃ n, fuel = n + 1 := ⟨fuel - 1, by omega⟩
    rw [detectTags, if_pos htype]
    rfl
  | @mmap tag rest htype h₁₆ hsize hdvd hrest ih =>
    intro fuel s hf
    have hfits := hrest.fits
    have hge := tagEnd_ge mem tag
    obtain ⟨fuel, rfl⟩ : ∃ n, fuel = n + 1 := ⟨fuel - 1, by omega⟩
    have hrec := tagEntries_recorded (by omega) h₁₆ hsize hdvd hb s
    rw [detectTags, htype, if_neg (by decide), if_pos rfl, hrec, Option.bind_some, nextTag_eq (by omega),
      ih _ (by omega), foldl_append]
  | @other tag rest hend hmmap h₈ hrest ih =>
    intro fuel s hf
    have hfits := hrest.fits
    have hge := tagEnd_ge mem tag
    obtain ⟨fuel, rfl⟩ : ∃ n, fuel = n + 1 := ⟨fuel - 1, by omega⟩
    rw [detectTags, if_neg hend, if_neg hmmap, nextTag_eq (by omega), ih _ (by omega)]

end

/-- The walk ends for all well-formed information, and the entries are in `mmapinfo`, in order and
with nothing stored behind it, exactly if there are no more than 128. -/
theorem detect_memory_iff {mem : Mem} {info fuel : Nat} {entries : List Mmap}
    (h : TagsFrom mem (wrap (info + 8)) entries) (hf : 2 ^ 29 ≤ fuel) :
    ∃ s, detectMemory mem fuel info = some s ∧ (Detected entries s ↔ entries.length ≤ nrMmap) :=
  ⟨_, detectTags_eq hf h .start (by omega), MmapInfo.detected_iff entries⟩

def oneMap (n : Nat) : Mem := st32 (st32 (st32 (fun _ => 0) 8 multibootTagTypeMmap) 12 (16 + 24 * n)) 16 24

theorem oneMap_tags {n : Nat} (h : n < 2 ^ 27) :
    TagsFrom (oneMap n) 8 (tagEntries (oneMap n) 8) ∧ (tagEntries (oneMap n) 8).length = n := by
  have htype : tagType (oneMap n) 8 = multibootTagTypeMmap := by
    simp (disch := decide) only [tagType, oneMap, ld32_st32_apart, ld32_st32]
  have hsize : tagSize (oneMap n) 8 = 16 + 24 * n := by
    rw [tagSize, oneMap, ld32_st32_apart _ _ (by decide), ld32_st32 _ _ (by omega)]
  have hentry : entrySize (oneMap n) 8 = 24 := ld32_st32 _ _ (by decide)
  have hend : tagEnd (oneMap n) 8 = 24 + 24 * n := by
    rw [tagEnd, hsize]
    omega
  have hlast : tagType (oneMap n) (24 + 24 * n) = multibootTagTypeEnd := by
    simp (disch := omega) only [tagType, oneMap, ld32_st32_apart]
    rfl
  constructor
  · have h := TagsFrom.mmap htype (by omega) (by omega) ?_ (hend ▸ TagsFrom.last hlast (by omega))
    · rwa [append_nil] at h
    · rw [hentry, hsize, Nat.add_sub_cancel_left]
      exact Nat.dvd_mul_right 24 n
  · rw [tagEntries, length_map, length_range, hsize, hentry, Nat.add_sub_cancel_left]
    exact Nat.mul_div_cancel_left n (by decide)

theorem detect_memory_iff_two : ∃ s, detectMemory (oneMap 2) (2 ^ 29) 0 = some s ∧
    Detected (tagEntries (oneMap 2) 8) s := by
  obtain ⟨htags, hlen⟩ := oneMap_tags (n := 2) (by decide)
  have hstart : TagsFrom (oneMap 2) (wrap (0 + 8)) (tagEntries (oneMap 2) 8) := htags
  obtain ⟨s, hs, hiff⟩ := detect_memory_iff hstart (Nat.le_refl (2 ^ 29))
  exact ⟨s, hs, hiff.mpr (by rw [hlen]; decide)⟩

/-- One memory map of 129 entries: the last one is stored behind `mmapinfo`. -/
theorem detect_memory_overruns : TagsFrom (oneMap 129) (wrap (0 + 8)) (tagEntries (oneMap 129) 8) ∧
    ∃ s, detectMemory (oneMap 129) (2 ^ 29) 0 = some s ∧ 128 ∈ s.written ∧
    ¬ Detected (tagEntries (oneMap 129) 8) s := by
  obtain ⟨htags, hlen⟩ := oneMap_tags (n := 129) (by decide)
  have hlong : 2 ^ 32 ≤ 8 + 8 * 2 ^ 29 := by decide
  have hdetect := detectTags_eq (Nat.le_refl (2 ^ 29)) htags .start hlong
  refine ⟨htags, _, hdetect, ?_, ?_⟩
  · rw [(MmapInfo.recorded _ _).2.2, hlen]
    exact mem_range'_1.mpr (by decide)
  · rw [MmapInfo.detected_iff, hlen]
    decide

end MiniOS
