import MiniOS.BufferCacheSound
import MiniOS.Errno
import MiniOS.Word
import Mathlib.Algebra.Order.BigOperators.Group.List
import Mathlib.Algebra.Order.Group.Nat
import Mathlib.Algebra.GroupWithZero.Nat
import Mathlib.Algebra.Ring.Int.Defs

/-!
# Reading a file of Minix

`minix_file_read` goes through the blocks of a file with `_bmap` and `buffer_read`. It does not look
at `i_size`: it delivers as many bytes as it is asked for, and behind the seven zones of the inode
`_bmap` panics.
-/

namespace MiniOS

open List

def blockSize : Nat := 1024

def directZones : Nat := 7

/-- What `buffer_read` finds outside the cache: the answers of `kmalloc`, which is no buffer that is
in use, and of `ide_read`, and the blocks of the devices. -/
structure BlockEnv where
  kmalloc : Buffers → Nat
  ideRead : Buffers → UInt32 → UInt32 → Int
  disk : UInt32 → UInt32 → Nat → UInt8
  fresh : ∀ s, kmalloc s = 0 ∨ kmalloc s ∉ s.live

namespace BlockEnv

variable (e : BlockEnv)

def bufferRead (s : Buffers) (dev block : UInt32) : Option (Nat × Buffers) :=
  s.bufferRead (s.live.length + 1) (e.kmalloc s) (e.ideRead s dev block) dev block

def bData (s : Buffers) (bh : Nat) : Nat → UInt8 :=
  match s.readFrom bh with
  | none => fun _ => 0
  | some (dev, block) => e.disk dev block

end BlockEnv

structure MinixInode where
  iSize : UInt32
  iZone : Nat → UInt16

structure MinixFile where
  fPos : Nat
  iDev : UInt32
  iInode : Option MinixInode
  cache : Buffers

inductive MinixEnd where
  | panics
  | returns (ret : Int) (delivered : List UInt8) (f : MinixFile)

def bmap (inode : Option MinixInode) (block : Int) : Option UInt16 :=
  inode.bind fun m => if block < 0 then none else if directZones ≤ block then none else some (m.iZone block.toNat)

/-- A round of the loop panics, breaks out of it, or copies some bytes. -/
inductive MinixRound where
  | panics
  | breaks (f : MinixFile)
  | copies (bytes : List UInt8) (f : MinixFile)

namespace MinixFile

variable (e : BlockEnv) (f : MinixFile)

def copy (left : Nat) (data : Nat → UInt8) : MinixRound :=
  let nr := f.fPos % blockSize
  let chars := min (blockSize - nr) left
  .copies ((List.range chars).map fun j => data (nr + j)) { f with fPos := wrap (f.fPos + chars) }

def round (left : Nat) : MinixRound :=
  match bmap f.iInode (toSigned (f.fPos / blockSize)) with
  | none => .panics
  | some nr =>
    if nr ≠ 0 then
      match e.bufferRead f.cache f.iDev nr.toUInt32 with
      | none => .panics
      | some (bh, cache) =>
        if bh = 0 then .breaks { f with cache := cache }
        else { f with cache := cache }.copy left (e.bData cache bh)
    else f.copy left fun _ => 0

/-- What is left to read, what has been delivered, and the file; `some none` is a panic. -/
def readLoop : (fuel left : Nat) → List UInt8 → MinixFile → Option (Option (Nat × List UInt8 × MinixFile))
  | 0, _, _, _ => none
  | fuel + 1, left, out, f =>
    if left = 0 then some (some (left, out, f))
    else
      match f.round e left with
      | .panics => some none
      | .breaks f => some (some (left, out, f))
      | .copies bytes f => readLoop fuel (left - bytes.length) (out ++ bytes) f

def minixFileRead (count : Int) : Option MinixEnd :=
  if count ≤ 0 then some (.returns 0 [] f)
  else (readLoop e (count.toNat + 1) count.toNat [] f).map fun r =>
    match r with
    | none => .panics
    | some (left, out, f) => .returns (if count - left ≠ 0 then count - left else -error) out f

end MinixFile

/-! ## What is asked of the calls -/

namespace MinixInode

/-- The byte at position `i` of a file, as long as its block is in one of the seven zones. -/
def byte (m : MinixInode) (e : BlockEnv) (dev : UInt32) (i : Nat) : UInt8 :=
  if m.iZone (i / blockSize) = 0 then 0 else e.disk dev (m.iZone (i / blockSize)).toUInt32 (i % blockSize)

def bytes (m : MinixInode) (e : BlockEnv) (dev : UInt32) (pos n : Nat) : List UInt8 :=
  (List.range n).map fun j => m.byte e dev (pos + j)

/-- From a cache that is in order, `buffer_read` answers a buffer for every block of the file. -/
def Readable (m : MinixInode) (e : BlockEnv) (dev : UInt32) : Prop :=
  ∀ b < directZones, m.iZone b ≠ 0 → ∀ s, s.BufferRep →
    ∃ bh s', e.bufferRead s dev (m.iZone b).toUInt32 = some (bh, s') ∧ bh ≠ 0

end MinixInode

structure DeliversNext (e : BlockEnv) (m : MinixInode) (dev : UInt32) (pos : Nat) (done : List UInt8) (count : Int)
    (out : List UInt8) (pos' : Nat) : Prop where
  amount : out.length = min count.toNat (m.iSize.toNat - pos)
  moves : pos' = pos + out.length
  inTurn : done ++ out = m.bytes e dev 0 pos'

/-- Every call delivers the next bytes of the file, up to its end; one that needs more than the seven
zones have may panic, and is the last. -/
def ReadsFile (e : BlockEnv) (m : MinixInode) : MinixFile → List UInt8 → List Int → Prop
  | _, _, [] => True
  | f, done, count :: counts =>
    (f.minixFileRead e count = some .panics ∧
      directZones * blockSize < min (f.fPos + count.toNat) m.iSize.toNat) ∨
    ∃ ret out f', f.minixFileRead e count = some (.returns ret out f') ∧
      DeliversNext e m f.iDev f.fPos done count out f'.fPos ∧ ReadsFile e m f' (done ++ out) counts

/-! ## One round -/

section
variable {e : BlockEnv} {m : MinixInode} {f f' : MinixFile} {left : Nat} {count : Int}

theorem MinixInode.bytes_add (m : MinixInode) (e : BlockEnv) (dev : UInt32) (pos a b : Nat) :
    m.bytes e dev pos (a + b) = m.bytes e dev pos a ++ m.bytes e dev (pos + a) b := by
  simp only [bytes, range_add, map_append, List.map_map, Function.comp_def, Nat.add_assoc]

theorem MinixInode.bytes_length (m : MinixInode) (e : BlockEnv) (dev : UInt32) (pos n : Nat) :
    (m.bytes e dev pos n).length = n := by
  rw [bytes, length_map, length_range]

structure MinixFile.Opens (f : MinixFile) (e : BlockEnv) (m : MinixInode) : Prop where
  inode : f.iInode = some m
  readable : m.Readable e f.iDev
  cache : f.cache.BufferRep
  pos : f.fPos ≤ directZones * blockSize

theorem bmap_inside (h : f.Opens e m) (hpos : f.fPos < directZones * blockSize) :
    bmap f.iInode (toSigned (f.fPos / blockSize)) = some (m.iZone (f.fPos / blockSize)) := by
  have hblock : f.fPos / blockSize < directZones := Nat.div_lt_of_lt_mul (by rwa [Nat.mul_comm])
  have hseven : directZones = 7 := rfl
  generalize f.fPos / blockSize = b at hblock ⊢
  rw [toSigned_of_lt (by omega), h.inode, bmap, Option.bind_some, if_neg (by omega), if_neg (by omega),
    Int.toNat_natCast]

/-- The block a position is in, and the place in it. -/
theorem MinixInode.byte_at (m : MinixInode) (e : BlockEnv) (dev : UInt32) (b : Nat) {i : Nat} (hi : i < blockSize) :
    m.byte e dev (blockSize * b + i) = if m.iZone b = 0 then 0 else e.disk dev (m.iZone b).toUInt32 i := by
  rw [byte, Nat.mul_add_div (by decide), Nat.mul_add_mod, Nat.div_eq_of_lt hi, Nat.mod_eq_of_lt hi, Nat.add_zero]

def MinixFile.chars (f : MinixFile) (left : Nat) : Nat := min (blockSize - f.fPos % blockSize) left

theorem copy_eq (hpos : f.fPos < directZones * blockSize) (left : Nat) {data : Nat → UInt8}
    (hdata : ∀ i < blockSize, data i = m.byte e f.iDev (blockSize * (f.fPos / blockSize) + i)) :
    f.copy left data = .copies (m.bytes e f.iDev f.fPos (f.chars left))
    { f with fPos := f.fPos + f.chars left } := by
  have hnr : f.fPos % blockSize < blockSize := Nat.mod_lt _ (by decide)
  have hchars : f.fPos % blockSize + f.chars left ≤ blockSize := by
    unfold MinixFile.chars
    omega
  have hbytes : (List.range (f.chars left)).map (fun j => data (f.fPos % blockSize + j)) = m.bytes e f.iDev f.fPos
      (f.chars left) := by
    refine map_congr_left fun j hj => ?_
    have hj := mem_range.mp hj
    rw [hdata _ (by omega), ← Nat.add_assoc, Nat.div_add_mod]
  have hend : f.fPos + f.chars left < 2 ^ 32 := by
    have hall : directZones * blockSize + blockSize < 2 ^ 32 := by decide
    omega
  show MinixRound.copies ((List.range (f.chars left)).map _) { f with fPos := wrap (f.fPos + f.chars left) } = _
  rw [hbytes, wrap_of_lt hend]

theorem bufferRead_data (h : f.Opens e m) {b bh : Nat} {cache : Buffers}
    (hr : e.bufferRead f.cache f.iDev (m.iZone b).toUInt32 = some (bh, cache)) :
    cache.BufferRep ∧ (bh ≠ 0 → e.bData cache bh = e.disk f.iDev (m.iZone b).toUInt32) := by
  have hfresh : e.kmalloc f.cache ∉ f.cache.live := by
    rcases e.fresh f.cache with h₀ | h₀
    · rw [h₀]
      exact fun hmem => h.cache.nonnull 0 hmem rfl
    · exact h₀
  obtain ⟨hrep, hans⟩ := Buffers.bufferRead_spec h.cache (Nat.lt_succ_self _) hfresh hr
  refine ⟨hrep, fun hne => ?_⟩
  rw [BlockEnv.bData, (hans hne).2]

/-- A round in the zones copies the next bytes, to the end of the block at most. -/
theorem round_copies (h : f.Opens e m) (hpos : f.fPos < directZones * blockSize) (left : Nat) :
    ∃ cache, cache.BufferRep ∧ f.round e left = .copies (m.bytes e f.iDev f.fPos (f.chars left))
      { f with cache := cache, fPos := f.fPos + f.chars left } := by
  have hblock : f.fPos / blockSize < directZones := Nat.div_lt_of_lt_mul (by rwa [Nat.mul_comm])
  rw [MinixFile.round, bmap_inside h hpos]
  dsimp only
  by_cases hz : m.iZone (f.fPos / blockSize) = 0
  · rw [if_neg (not_not.mpr hz)]
    refine ⟨f.cache, h.cache, copy_eq hpos left fun i hi => ?_⟩
    rw [m.byte_at e f.iDev _ hi, if_pos hz]
  · rw [if_pos hz]
    obtain ⟨bh, cache, hr, hne⟩ := h.readable _ hblock hz f.cache h.cache
    obtain ⟨hrep, hdata⟩ := bufferRead_data h hr
    rw [hr]
    dsimp only
    rw [if_neg hne, hdata hne]
    refine ⟨cache, hrep, copy_eq (f := { f with cache := cache }) hpos left fun i hi => ?_⟩
    rw [m.byte_at e f.iDev _ hi, if_neg hz]

/-- Behind the zones it panics. -/
theorem round_panics (h : f.Opens e m) (hpos : directZones * blockSize ≤ f.fPos) (left : Nat) :
    f.round e left = .panics := by
  have hend : f.fPos = directZones * blockSize := Nat.le_antisymm h.pos hpos
  have hmap : bmap f.iInode (toSigned (f.fPos / blockSize)) = none := by
    rw [hend, h.inode]
    rfl
  rw [MinixFile.round, hmap]

/-! ## The loop, and a call -/

theorem chars_le (hpos : f.fPos < directZones * blockSize) (hleft : 0 < left) :
    0 < f.chars left ∧ f.chars left ≤ left ∧ f.fPos + f.chars left ≤ directZones * blockSize := by
  unfold MinixFile.chars directZones blockSize at *
  omega

theorem MinixFile.Opens.moved (h : f.Opens e m) {cache : Buffers} (hcache : cache.BufferRep) {pos : Nat}
    (hpos : pos ≤ directZones * blockSize) : MinixFile.Opens { f with cache := cache, fPos := pos } e m :=
  ⟨h.inode, h.readable, hcache, hpos⟩

/-- Within the zones the loop delivers all it is asked for. -/
theorem readLoop_reads : ∀ (fuel left : Nat) {f : MinixFile} (out : List UInt8), f.Opens e m → left < fuel →
    f.fPos + left ≤ directZones * blockSize → ∃ cache, cache.BufferRep ∧
      f.readLoop e fuel left out = some (some (0, out ++ m.bytes e f.iDev f.fPos left,
        { f with cache := cache, fPos := f.fPos + left }))
  | fuel + 1, left, f, out, h, hf, hend => by
    rw [MinixFile.readLoop]
    by_cases hleft : left = 0
    · subst hleft
      exact ⟨f.cache, h.cache, by simp [MinixInode.bytes]⟩
    · rw [if_neg hleft]
      have hpos : f.fPos < directZones * blockSize := by omega
      obtain ⟨hchars, hle, hin⟩ := chars_le hpos (Nat.pos_of_ne_zero hleft)
      obtain ⟨cache, hcache, hround⟩ := round_copies h hpos left
      have hlen := m.bytes_length e f.iDev f.fPos (f.chars left)
      obtain ⟨cache', hcache', hrest⟩ := readLoop_reads fuel (left - f.chars left)
        (out ++ m.bytes e f.iDev f.fPos (f.chars left)) (h.moved hcache hin) (by omega) (by dsimp only; omega)
      refine ⟨cache', hcache', ?_⟩
      have hsum : f.chars left + (left - f.chars left) = left := by omega
      rw [hround]
      dsimp only
      rw [hlen, hrest]
      rw [append_assoc, ← m.bytes_add, Nat.add_assoc, hsum]

theorem readLoop_panics : ∀ (fuel : Nat) {left : Nat} {f : MinixFile}
    (out : List UInt8), f.Opens e m → left < fuel →
    directZones * blockSize < f.fPos + left → f.readLoop e fuel left out = some none
  | fuel + 1, left, f, out, h, hf, hend => by
    have hpos := h.pos
    have hleft : 0 < left := by omega
    rw [MinixFile.readLoop, if_neg hleft.ne']
    by_cases hin : f.fPos < directZones * blockSize
    · obtain ⟨hchars, hle, hin'⟩ := chars_le hin hleft
      obtain ⟨cache, hcache, hround⟩ := round_copies h hin left
      rw [hround]
      dsimp only
      rw [m.bytes_length]
      exact readLoop_panics fuel _ (h.moved hcache hin') (by omega) (by dsimp only; omega)
    · rw [round_panics h (Nat.not_lt.mp hin)]

theorem minixFileRead_reads (h : f.Opens e m) (hc : 0 < count)
    (hend : f.fPos + count.toNat ≤ directZones * blockSize) : ∃ cache, cache.BufferRep ∧
      f.minixFileRead e count = some (.returns count (m.bytes e f.iDev f.fPos count.toNat)
        { f with cache := cache, fPos := f.fPos + count.toNat }) := by
  obtain ⟨cache, hcache, hloop⟩ := readLoop_reads (count.toNat + 1) _ [] h (Nat.lt_succ_self _) hend
  have hall : count - ((0 : Nat) : Int) = count := Int.sub_zero count
  refine ⟨cache, hcache, ?_⟩
  rw [MinixFile.minixFileRead, if_neg (not_le.mpr hc), hloop, Option.map_some]
  dsimp only
  rw [hall, if_pos hc.ne', nil_append]

theorem minixFileRead_panics (h : f.Opens e m) (hc : 0 < count)
    (hend : directZones * blockSize < f.fPos + count.toNat) : f.minixFileRead e count = some .panics := by
  rw [MinixFile.minixFileRead, if_neg (by omega), readLoop_panics _ [] h (Nat.lt_succ_self _) hend]
  rfl

/-! ## All calls -/

theorem readsFile_panics {done : List UInt8} (counts : List Int) (hcall : f.minixFileRead e count = some .panics) :
    ReadsFile e m f done (count :: counts) ↔
    directZones * blockSize < min (f.fPos + count.toNat) m.iSize.toNat := by
  rw [ReadsFile, hcall]
  constructor
  · rintro (⟨-, hsize⟩ | ⟨ret, out, f', hn, -⟩)
    · exact hsize
    · cases hn
  · exact fun hsize => .inl ⟨rfl, hsize⟩

theorem readsFile_returns {done out : List UInt8} {count ret : Int} (counts : List Int)
    (hcall : f.minixFileRead e count = some (.returns ret out f')) :
    ReadsFile e m f done (count :: counts) ↔
      DeliversNext e m f.iDev f.fPos done count out f'.fPos ∧ ReadsFile e m f' (done ++ out) counts := by
  rw [ReadsFile, hcall]
  constructor
  · rintro (⟨hn, -⟩ | ⟨ret', out', f₁, hr, hdelivers, hmore⟩)
    · cases hn
    · cases hr
      exact ⟨hdelivers, hmore⟩
  · rintro ⟨hdelivers, hmore⟩
    exact .inr ⟨ret, out, f', rfl, hdelivers, hmore⟩

/-- All that was asked for is the right amount where the file has it. -/
theorem deliversNext_iff {pos : Nat} (hin : pos ≤ m.iSize.toNat) (dev : UInt32) (count : Int) :
    DeliversNext e m dev pos (m.bytes e dev 0 pos) count (m.bytes e dev pos count.toNat) (pos + count.toNat) ↔
      pos + count.toNat ≤ m.iSize.toNat := by
  have hlen := m.bytes_length e dev pos count.toNat
  constructor
  · intro h
    have := h.amount
    omega
  · intro h
    refine ⟨by omega, by omega, ?_⟩
    rw [m.bytes_add, Nat.zero_add]

theorem readsFile_iff : ∀ {counts : List Int} {f : MinixFile}, f.Opens e m → f.fPos ≤ m.iSize.toNat →
    (∀ c ∈ counts, 0 < c) → (ReadsFile e m f (m.bytes e f.iDev 0 f.fPos) counts ↔
      directZones * blockSize < m.iSize.toNat ∨ f.fPos + counts.sum ≤ m.iSize.toNat)
  | [], f, _, hin, _ => iff_of_true trivial (.inr (by rw [sum_nil]; omega))
  | count :: counts, f, h, hin, hcounts => by
    have hc : 0 < count := hcounts count (mem_cons_self ..)
    have hnat : (count.toNat : Int) = count := Int.toNat_of_nonneg hc.le
    have hrest : ∀ c ∈ counts, 0 < c := fun c hmem => hcounts c (mem_cons_of_mem _ hmem)
    have hsum : 0 ≤ counts.sum := sum_nonneg fun c hmem => (hrest c hmem).le
    rw [sum_cons]
    by_cases hend : f.fPos + count.toNat ≤ directZones * blockSize
    · obtain ⟨cache, hcache, hcall⟩ := minixFileRead_reads h hc hend
      rw [readsFile_returns counts hcall, deliversNext_iff hin]
      by_cases hfit : f.fPos + count.toNat ≤ m.iSize.toNat
      · have hnext := readsFile_iff (h.moved hcache hend) hfit hrest
        dsimp only at hnext
        rw [m.bytes_add, Nat.zero_add] at hnext
        rw [and_iff_right hfit, hnext]
        omega
      · -- more than the file has
        exact iff_of_false (fun hr => hfit hr.1) (by omega)
    · rw [readsFile_panics counts (minixFileRead_panics h hc (Nat.not_le.mp hend))]
      omega

end

/-- The calls on a file just opened deliver it in turn exactly if it goes on behind its seven zones,
or the counts add up to no more than its size. -/
theorem minix_reads_iff {e : BlockEnv} {m : MinixInode} {f : MinixFile} {counts : List Int}
    (hinode : f.iInode = some m)
    (hread : m.Readable e f.iDev) (hcache : f.cache.BufferRep) (hpos : f.fPos = 0) (hcounts : ∀ c ∈ counts, 0 < c) :
    ReadsFile e m f [] counts ↔ directZones * blockSize < m.iSize.toNat ∨ counts.sum ≤ m.iSize.toNat := by
  have hopens : f.Opens e m := ⟨hinode, hread, hcache, by rw [hpos]; exact Nat.zero_le _⟩
  have h := readsFile_iff hopens (by rw [hpos]; exact Nat.zero_le _) hcounts
  have hsum : ((0 : Nat) : Int) + counts.sum = counts.sum := Int.zero_add _
  rw [hpos, hsum] at h
  exact h

def goodBlocks : BlockEnv where
  kmalloc s := s.live.sum + 1
  ideRead _ _ _ := 0
  disk _ block i := UInt8.ofNat (block.toNat + i)
  fresh _ := .inr fun hmem => Nat.not_succ_le_self _ (single_le_sum (fun x _ => Nat.zero_le x) _ hmem)

theorem goodBlocks_readable (m : MinixInode) {dev : UInt32} (hdev : Buffers.major dev = 3) :
    m.Readable goodBlocks dev :=
  fun b _ _ s hs => Buffers.bufferRead_answers hs (Nat.lt_succ_self _)
    ((goodBlocks.fresh s).resolve_left (Nat.succ_ne_zero _)) (Nat.succ_ne_zero _) hdev (m.iZone b).toUInt32

def fiveBytes : MinixInode := ⟨5, fun b => if b = 0 then 33 else 0⟩

def openFive : MinixFile := ⟨0, 0x301, some fiveBytes, .empty⟩

theorem openFive_opens : openFive.Opens goodBlocks fiveBytes :=
  ⟨rfl, goodBlocks_readable _ (by decide), Buffers.bufferRep_empty, by decide⟩

theorem minix_reads_iff_five : ReadsFile goodBlocks fiveBytes openFive [] [2, 3] :=
  (minix_reads_iff rfl openFive_opens.readable openFive_opens.cache rfl (by simp)).mpr (.inr (by decide))

/-- A read of six bytes delivers six, and one of 8000 bytes panics. -/
theorem minix_reads_past_end :
    (∃ out f', openFive.minixFileRead goodBlocks 6 = some (.returns 6 out f') ∧ out.length = 6) ∧
    ¬ ReadsFile goodBlocks fiveBytes openFive [] [6] ∧
    openFive.minixFileRead goodBlocks 8000 = some .panics ∧
    ¬ ReadsFile goodBlocks fiveBytes openFive [] [8000] := by
  have hnot : ∀ count : Int, 5 < count → ¬ ReadsFile goodBlocks fiveBytes openFive [] [count] := by
    intro count hc hreads
    have hpos : ∀ c ∈ [count], 0 < c := by
      intro c hmem
      rw [mem_singleton.mp hmem]
      omega
    have hor := (readsFile_iff openFive_opens (Nat.zero_le _) hpos).mp hreads
    rw [sum_singleton] at hor
    rcases hor with hlong | hsum
    · exact absurd hlong (by decide)
    · have hzero : ((openFive.fPos : Int) + count) = count := Int.zero_add _
      have hfive : ((fiveBytes.iSize.toNat : Nat) : Int) = 5 := rfl
      omega
  have hsix : (0 : Int) < 6 := by decide
  obtain ⟨cache, -, hcall⟩ := minixFileRead_reads openFive_opens hsix (by decide)
  exact ⟨⟨_, _, hcall, fiveBytes.bytes_length ..⟩, hnot 6 (by decide),
    minixFileRead_panics openFive_opens (by decide) (by decide), hnot 8000 (by decide)⟩

end MiniOS
