import MiniOS.UserIoSound

/-!
# Reading a file of ramfs to its end

`f_pos` and the sum it is compared by are unsigned, `count` and `size` are signed. As long as
no count is negative the calls deliver the file from its start on, piece by piece; a negative
count is taken for a large one before the end of the file, and does nothing behind it.
-/

namespace MiniOS

open List

structure ReadCall where
  buf : Nat
  count : Int

def ReadCall.Args (c : ReadCall) : Prop := -2 ^ 31 ≤ c.count ∧ c.count < 2 ^ 31

def IoResult.delivered (r : IoResult) : List UInt8 := r.stores.map Prod.snd

namespace IoState

structure OpensRam (s : IoState) (i : Fin maxFile) (p : Nat) (content : List UInt8) : Prop where
  fd : s.fd i = some p
  mode : canRead (s.file p) = true
  op : (s.file p).fOp = .ramfs (BitVec.ofNat 32 content.length) (content.getD · 0)

structure ReadsOn (content : List UInt8) (pos pos' : Nat) (count : Int) (r : IoResult) : Prop where
  forward : pos ≤ pos'
  inside : pos' ≤ content.length
  nothing : count ≤ 0 → r.delivered = []
  amount : r.delivered.length = min count.toNat (content.length - pos)
  ret : r.ret = r.delivered.length

def ReadsInTurn (i : Fin maxFile) (p : Nat) (content : List UInt8) : IoState → List UInt8 → List ReadCall → Prop
  | _, _, [] => True
  | s, done, c :: calls =>
    let r := s.read i c.buf c.count
    ReadsOn content (s.file p).fPos (r.state.file p).fPos c.count r ∧
      done ++ r.delivered = content.take (r.state.file p).fPos ∧
      ReadsInTurn i p content r.state (done ++ r.delivered) calls

end IoState

/-- With `left` bytes to come: a negative count comes only when there are none. -/
def CountsFit : (left : Nat) → List ReadCall → Prop
  | _, [] => True
  | left, c :: calls => (c.count < 0 → left = 0) ∧ CountsFit (left - c.count.toNat) calls

/-! ## How much is copied -/

section
variable {size : BitVec 32} {pos : Nat} {count : Int}

theorem ramfsCount_eq_min (hs : size.toNat < 2 ^ 31) (h₀ : 0 ≤ count) (hlt : count < 2 ^ 31)
    (hp : pos < size.toNat) : ramfsCount size pos count = min count.toNat (size.toNat - pos) := by
  have hsum : pos + count.toNat < 2 ^ 32 := by omega
  rw [ramfsCount, toUnsigned_of_nonneg h₀ hlt, wrap_of_lt hsum, wsub_of_le hp.le size.isLt]
  split
  · omega
  · omega

/-- Either the sum wraps and the count goes to `memcpy` as it is, or it does not, and all the
rest of the file is copied. -/
theorem ramfsCount_pos_of_neg (hneg : count < 0) (hlo : -2 ^ 31 ≤ count) (hp : pos < size.toNat) :
    0 < ramfsCount size pos count := by
  unfold ramfsCount
  split
  · rw [wsub_of_le hp.le size.isLt]
    omega
  · unfold toUnsigned
    omega

end

namespace IoState

variable {s : IoState} {i : Fin maxFile} {p : Nat} {content : List UInt8} {buf : Nat} {count : Int}

theorem storing_delivered (ret : Int) (buf : Nat) (l : List UInt8) : (s.storing ret buf l).delivered = l := by
  show (bytesAt buf l).map Prod.snd = l
  rw [bytesAt, List.map_map]
  exact zipIdx_map_fst 0 l

theorem setPos_file (pos : Nat) : (s.setPos p pos).file p = { s.file p with fPos := pos } := Function.update_self ..

theorem slice_getD {pos n : Nat} (h : pos + n ≤ content.length) :
    (List.range n).map (fun j => content.getD (pos + j) 0) = (content.drop pos).take n := by
  apply ext_getElem
  · rw [length_map, length_range, length_take, length_drop]
    omega
  · intro j h₁ h₂
    rw [length_map, length_range] at h₁
    rw [getElem_map, getElem_range, getElem_take, getElem_drop]
    exact (getElem_eq_getD 0).symm

theorem OpensRam.read_end (h : s.OpensRam i p content) (hs : content.length < 2 ^ 31)
    (hend : content.length ≤ (s.file p).fPos) : s.read i buf count = ⟨0, [], [], s⟩ := by
  have hsize : (BitVec.ofNat 32 content.length).toNat = content.length := Nat.mod_eq_of_lt (by omega)
  simp only [read, h.fd, h.mode, fOpRead, h.op, ramfsFileRead, hsize, if_pos hend, if_true]

theorem OpensRam.read_eq (h : s.OpensRam i p content) (hs : content.length < 2 ^ 31)
    (hpos : (s.file p).fPos < content.length) :
    let n := ramfsCount (BitVec.ofNat 32 content.length) (s.file p).fPos count
    s.read i buf count = (s.setPos p (wrap ((s.file p).fPos + n))).storing (toSigned n) buf
      ((List.range n).map fun j => content.getD ((s.file p).fPos + j) 0) := by
  have hsize : (BitVec.ofNat 32 content.length).toNat = content.length := Nat.mod_eq_of_lt (by omega)
  simp only [read, h.fd, h.mode, fOpRead, h.op, ramfsFileRead, hsize, if_neg (Nat.not_le.mpr hpos), if_true]

theorem OpensRam.storing (h : s.OpensRam i p content) (pos : Nat) (ret : Int) (l : List UInt8) :
    ((s.setPos p pos).storing ret buf l).state.OpensRam i p content := by
  have hfile : ((s.setPos p pos).storing ret buf l).state.file p = { s.file p with fPos := pos } := setPos_file pos
  refine ⟨h.fd, ?_, ?_⟩
  · rw [hfile]
    exact h.mode
  · rw [hfile]
    exact h.op

/-! ## One call -/

/-- A call with a count that fits delivers the next bytes of the file. -/
theorem OpensRam.reads (h : s.OpensRam i p content) (buf : Nat) (hs : content.length < 2 ^ 31)
    (hin : (s.file p).fPos ≤ content.length) (hlt : count < 2 ^ 31)
    (hc : count < 0 → content.length ≤ (s.file p).fPos) : let r := s.read i buf count
    let n := min count.toNat (content.length - (s.file p).fPos)
    r.state.OpensRam i p content ∧ (r.state.file p).fPos = (s.file p).fPos + n ∧
      r.delivered = (content.drop (s.file p).fPos).take n ∧ r.ret = n := by
  by_cases hend : content.length ≤ (s.file p).fPos
  · have hn : min count.toNat (content.length - (s.file p).fPos) = 0 := by omega
    rw [h.read_end hs hend, hn]
    exact ⟨h, rfl, rfl, rfl⟩
  · have hpos : (s.file p).fPos < content.length := Nat.not_le.mp hend
    have hsize : (BitVec.ofNat 32 content.length).toNat = content.length := Nat.mod_eq_of_lt (by omega)
    have hcount : ramfsCount (BitVec.ofNat 32 content.length) (s.file p).fPos count =
        min count.toNat (content.length - (s.file p).fPos) := by
      rw [ramfsCount_eq_min (by omega) (Int.not_lt.mp fun hneg => hend (hc hneg)) hlt (by omega), hsize]
    generalize hn : min count.toNat (content.length - (s.file p).fPos) = n at hcount
    have hle : (s.file p).fPos + n ≤ content.length := by omega
    rw [h.read_eq hs hpos, hcount, wrap_of_lt (by omega), toSigned_of_lt (by omega), slice_getD hle]
    exact ⟨h.storing .., congrArg OpenFile.fPos (setPos_file _), storing_delivered .., rfl⟩

theorem OpensRam.readsOn (h : s.OpensRam i p content) (buf : Nat) (hs : content.length < 2 ^ 31)
    (hin : (s.file p).fPos ≤ content.length) (hlt : count < 2 ^ 31)
    (hc : count < 0 → content.length ≤ (s.file p).fPos) : let r := s.read i buf count
    ReadsOn content (s.file p).fPos (r.state.file p).fPos count r := by
  obtain ⟨-, hpos, hbytes, hret⟩ := h.reads buf hs hin hlt hc
  have hlen : (s.read i buf count).delivered.length = min count.toNat (content.length - (s.file p).fPos) := by
    rw [hbytes, length_take, length_drop]
    omega
  refine ⟨by omega, by omega, fun h₀ => eq_nil_of_length_eq_zero ?_, hlen, ?_⟩
  · omega
  · rw [hret, hlen]

/-- Before the end of the file a negative count delivers something. -/
theorem OpensRam.count_nonneg (h : s.OpensRam i p content) (hs : content.length < 2 ^ 31)
    (hpos : (s.file p).fPos < content.length) (hlo : -2 ^ 31 ≤ count) {pos' : Nat}
    (hr : ReadsOn content (s.file p).fPos pos' count (s.read i buf count)) : 0 ≤ count := by
  refine Int.not_lt.mp fun hneg => ?_
  have hsize : (BitVec.ofNat 32 content.length).toNat = content.length := Nat.mod_eq_of_lt (by omega)
  have hlt : (s.file p).fPos < (BitVec.ofNat 32 content.length).toNat := by omega
  have hcount := ramfsCount_pos_of_neg hneg hlo hlt
  have hnone := hr.nothing (Int.le_of_lt hneg)
  rw [h.read_eq hs hpos, storing_delivered, map_eq_nil_iff, range_eq_nil] at hnone
  omega

/-! ## All of them -/

theorem OpensRam.readsInTurn (hs : content.length < 2 ^ 31) : ∀ {calls : List ReadCall} {s : IoState},
    s.OpensRam i p content → (s.file p).fPos ≤ content.length → (∀ c ∈ calls, c.Args) →
    (ReadsInTurn i p content s (content.take (s.file p).fPos) calls ↔
      CountsFit (content.length - (s.file p).fPos) calls)
  | [], _, _, _, _ => Iff.rfl
  | c :: calls, s, h, hin, hargs => by
    obtain ⟨hlo, hlt⟩ := hargs c (mem_cons_self ..)
    -- a count that does not fit is no step of either side
    by_cases hc : c.count < 0 → content.length ≤ (s.file p).fPos
    · obtain ⟨h', hpos, hbytes, -⟩ := h.reads c.buf hs hin hlt hc
      have hon := h.readsOn c.buf hs hin hlt hc
      have hleft : content.length - (s.file p).fPos - c.count.toNat =
          content.length - ((s.read i c.buf c.count).state.file p).fPos := by omega
      have hdone : content.take (s.file p).fPos ++ (s.read i c.buf c.count).delivered =
          content.take ((s.read i c.buf c.count).state.file p).fPos := by
        rw [hbytes, hpos, take_add]
      have ih := readsInTurn hs h' hon.inside fun c hc => hargs c (mem_cons_of_mem _ hc)
      unfold ReadsInTurn CountsFit
      dsimp only
      rw [hdone, hleft, ih, and_iff_right hon, and_iff_right rfl, and_iff_right]
      intro hneg
      have := hc hneg
      omega
    · obtain ⟨hneg, hpos⟩ := Classical.not_imp.mp hc
      refine iff_of_false (fun hturn => ?_) fun hfit => ?_
      · have := h.count_nonneg hs (Nat.not_le.mp hpos) hlo hturn.1
        omega
      · have := hfit.1 hneg
        omega

end IoState

/-- The calls on a file just opened deliver it in turn exactly if no negative count comes before
all of it has been read. -/
theorem ramfs_reads_in_turn_iff (s : IoState) (i : Fin maxFile) (p : Nat) (content : List UInt8)
    (calls : List ReadCall)
    (hsize : content.length < 2 ^ 31) (hopen : s.OpensRam i p content) (hpos : (s.file p).fPos = 0)
    (hargs : ∀ c ∈ calls, c.Args) :
    IoState.ReadsInTurn i p content s [] calls ↔ CountsFit content.length calls := by
  have h := hopen.readsInTurn hsize (by omega) hargs
  rwa [hpos, take_zero, Nat.sub_zero] at h

def ramContent (content : List UInt8) : IoState :=
  oneOpen (.ramfs (BitVec.ofNat 32 content.length) (content.getD · 0)) noKeys

theorem ramContent_opens (content : List UInt8) : (ramContent content).OpensRam firstFd 0 content := ⟨rfl, rfl, rfl⟩

theorem ramfs_reads_in_turn_three : IoState.ReadsInTurn firstFd 0 [65, 66, 67] (ramContent [65, 66, 67]) []
    [⟨0x800000, 2⟩, ⟨0x800000, 0⟩, ⟨0x800000, 5⟩, ⟨0x800000, -1⟩] :=
  (ramfs_reads_in_turn_iff _ _ _ _ _ (by decide) (ramContent_opens _) rfl (by simp [ReadCall.Args])).mpr
    (by simp [CountsFit])

/-- A count of -1 reads the whole file. -/
theorem ramfs_negative_count : (ramContent [65]).OpensRam firstFd 0 [65] ∧ ((ramContent [65]).file 0).fPos = 0 ∧
    ((ramContent [65]).read firstFd 0x800000 (-1)).delivered = [65] ∧
    ¬ IoState.ReadsInTurn firstFd 0 [65] (ramContent [65]) [] [⟨0x800000, -1⟩] := by
  have hread : ((ramContent [65]).read firstFd 0x800000 (-1)).delivered = [65] := by decide
  refine ⟨ramContent_opens _, rfl, hread, fun h => ?_⟩
  have hnone : ((ramContent [65]).read firstFd 0x800000 (-1)).delivered = [] := h.1.nothing (by decide)
  rw [hread] at hnone
  cases hnone

end MiniOS
