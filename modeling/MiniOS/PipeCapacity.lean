import MiniOS.PipeSound
import MiniOS.KernelFault
import Mathlib.Logic.Function.Iterate

/-!
# How much a pipe takes and gives near the end of the 32-bit positions

The full test compares `p_wpos` with `p_rpos + PAGE_SIZE`, both of 32 bits, in their
order as numbers. When only the second of them has wrapped, the page counts as full.
-/

namespace MiniOS

open List

inductive PipeLog.Reached : PipeLog → Prop
  | fresh : Reached PipeLog.fresh
  | step {s : PipeLog} (op : PipeOp) : Reached s → Reached (s.step op)
  | ends {s : PipeLog} (reader writer : Int) : Reached s →
      Reached { s with info := { s.info with pReader := reader, pWriter := writer } }

/-- With `u` bytes unread, the end of the room has wrapped and the write position has not. -/
def PipeInodeInfo.Stuck (info : PipeInodeInfo) (u : Nat) : Prop :=
  info.pRpos + u < 2 ^ 32 ∧ 2 ^ 32 ≤ info.pRpos + pageSize

instance (info : PipeInodeInfo) (u : Nat) : Decidable (info.Stuck u) :=
  inferInstanceAs (Decidable (_ ∧ _))

/-! ## The loops on positions that wrap -/

section
variable {info : PipeInodeInfo} {u : Nat}

theorem full_iff (hr : info.pRpos < 2 ^ 32) (hw : info.pWpos = wrap (info.pRpos + u)) (hu : u ≤ pageSize) :
    wrap (info.pRpos + pageSize) ≤ info.pWpos ↔ info.Stuck u ∨ u = pageSize := by
  rw [hw]
  unfold PipeInodeInfo.Stuck wrap
  simp only [pageSize] at hu ⊢
  omega

theorem put_wpos (b : UInt8) (hw : info.pWpos = wrap (info.pRpos + u)) :
    (info.put b).pWpos = wrap ((info.put b).pRpos + (u + 1)) := by
  show wrap (info.pWpos + 1) = wrap (info.pRpos + (u + 1))
  rw [hw]
  unfold wrap
  omega

theorem stuck_put (b : UInt8) (h : ¬ info.Stuck u) : ¬ (info.put b).Stuck (u + 1) := by
  intro hs
  apply h
  exact ⟨Nat.lt_of_le_of_lt (Nat.add_le_add_left (Nat.le_succ u) _) hs.1, hs.2⟩

theorem writeLoop_count (buf : Nat → UInt8) : ∀ (left i : Nat) {info : PipeInodeInfo} {u : Nat},
    info.pRpos < 2 ^ 32 → info.pWpos = wrap (info.pRpos + u) → u ≤ pageSize → ¬ info.Stuck u →
      (writeLoop buf left i info).1 = i + min left (pageSize - u) := by
  intro left
  induction left with
  | zero => intro i info u _ _ _ _; simp [writeLoop]
  | succ left ih =>
    intro i info u hr hw hu hs
    rw [writeLoop]
    by_cases he : u = pageSize
    · rw [if_pos ((full_iff hr hw hu).mpr (.inr he)), he]
      simp
    · have hroom : ¬ wrap (info.pRpos + pageSize) ≤ info.pWpos := by
        rw [full_iff hr hw hu]
        simp [hs, he]
      have hnext : (writeLoop buf left (i + 1) (info.put (buf i))).1 = i + 1 + min left (pageSize - (u + 1)) :=
        ih (i + 1) hr (put_wpos _ hw) (by omega) (stuck_put _ hs)
      rw [if_neg hroom, hnext]
      omega

theorem writeLoop_stuck (buf : Nat → UInt8) (left i : Nat) (hr : info.pRpos < 2 ^ 32)
    (hw : info.pWpos = wrap (info.pRpos + u)) (hu : u ≤ pageSize) (hs : info.Stuck u) :
    (writeLoop buf left i info).1 = i := by
  cases left with
  | zero => rfl
  | succ left => rw [writeLoop, if_pos ((full_iff hr hw hu).mpr (.inl hs))]

theorem readLoop_count {left i : Nat} (hr : info.pRpos < 2 ^ 32) (hw : info.pWpos = wrap (info.pRpos + u))
    (hu : u ≤ pageSize) (h₀ : 0 < u) : (readLoop left i info).1.length = min left u := by
  have hlt : info.pWpos < 2 ^ 32 := hw ▸ wrap_lt _
  have hne : info.pRpos ≠ info.pWpos := by
    rw [hw]
    unfold wrap
    simp only [pageSize] at hu
    omega
  have hdist : (info.pWpos + 2 ^ 32 - info.pRpos) % 2 ^ 32 = u := by
    rw [hw]
    unfold wrap
    simp only [pageSize] at hu
    omega
  rw [readLoop_length left i info hr hlt, if_neg hne, hdist]

end

/-! ## The positions are the numbers of bytes, modulo the word -/

theorem writeLoop_wpos (buf : Nat → UInt8) : ∀ (left i : Nat) (info : PipeInodeInfo) (n : Nat),
    info.pWpos = wrap (n + i) →
      (writeLoop buf left i info).2.pWpos = wrap (n + (writeLoop buf left i info).1) ∧
        (writeLoop buf left i info).2.pRpos = info.pRpos := by
  intro left
  induction left with
  | zero => intro i info n h; exact ⟨h, rfl⟩
  | succ left ih =>
    intro i info n h
    rw [writeLoop]
    split
    · exact ⟨h, rfl⟩
    · apply ih (i + 1)
      show wrap (info.pWpos + 1) = wrap (n + (i + 1))
      rw [h]
      unfold wrap
      omega

theorem readLoop_rpos : ∀ (left i : Nat) (info : PipeInodeInfo) (n : Nat), info.pRpos = wrap n →
    (readLoop left i info).2.pRpos = wrap (n + (readLoop left i info).1.length) ∧
      (readLoop left i info).2.pWpos = info.pWpos := by
  intro left
  induction left with
  | zero => intro i info n h; exact ⟨h, rfl⟩
  | succ left ih =>
    intro i info n h
    rw [readLoop]
    split
    · exact ⟨h, rfl⟩
    · have hnext : info.advance.pRpos = wrap (n + 1) := by
        show wrap (info.pRpos + 1) = wrap (n + 1)
        rw [h]
        unfold wrap
        omega
      obtain ⟨hr, hw⟩ := ih (i + 1) info.advance (n + 1) hnext
      refine ⟨hr.trans (congrArg wrap ?_), hw⟩
      rw [length_cons]
      omega

structure PipeLog.Counted (s : PipeLog) : Prop where
  rpos : s.info.pRpos = wrap s.returned.length
  wpos : s.info.pWpos = wrap s.accepted.length

namespace PipeLog

variable {s : PipeLog}

theorem Counted.step (h : s.Counted) (op : PipeOp) : (s.step op).Counted := by
  cases op with
  | write buf count =>
    obtain ⟨hw, hr⟩ := writeLoop_wpos buf count.toNat 0 s.info s.accepted.length h.wpos
    refine ⟨hr.trans h.rpos, ?_⟩
    show (writeLoop buf count.toNat 0 s.info).2.pWpos = wrap (s.accepted ++ _).length
    rw [hw, length_append, length_map, length_range]
    rfl
  | read count =>
    obtain ⟨hr, hw⟩ := readLoop_rpos count.toNat 0 s.info s.returned.length h.rpos
    refine ⟨?_, hw.trans h.wpos⟩
    show (readLoop count.toNat 0 s.info).2.pRpos = wrap (s.returned ++ _).length
    rw [hr, length_append]
    rfl

theorem Reached.counted (h : s.Reached) : s.Counted := by
  induction h with
  | fresh => exact ⟨rfl, rfl⟩
  | step op _ ih => exact ih.step op
  | ends reader writer _ ih => exact ⟨ih.rpos, ih.wpos⟩

theorem Counted.unread (h : s.Counted) {u : Nat} (hu : s.accepted.length = s.returned.length + u) :
    s.info.pRpos < 2 ^ 32 ∧ s.info.pWpos = wrap (s.info.pRpos + u) := by
  refine ⟨h.rpos ▸ wrap_lt _, ?_⟩
  rw [h.wpos, h.rpos, hu]
  unfold wrap
  omega

def Exact (s : PipeLog) (u : Nat) : Prop :=
  (∀ (buf : Nat → UInt8) (count : Int), 0 ≤ count →
    (pipefsFileWrite s.info buf count).1 = min count.toNat (pageSize - u)) ∧
  (0 < u → ∀ count : Int, (pipefsFileRead s.info count).1.length = min count.toNat u)

end PipeLog

/-- In every history, a pipe that holds `u` unread bytes takes and gives as many bytes as
there is room and data for, if and only if it is not stuck at the end of the 32-bit range. -/
theorem pipe_capacity (s : PipeLog) (u : Nat) (hs : s.Reached)
    (hu : s.accepted.length = s.returned.length + u) (hfit : u ≤ pageSize) :
    s.Exact u ↔ ¬ s.info.Stuck u := by
  obtain ⟨hr, hw⟩ := hs.counted.unread hu
  constructor
  · intro hexact hstuck
    have hone := hexact.1 (fun _ => 0) 1 (by decide)
    have hroom : u < pageSize := by
      have h₁ := hstuck.1
      have h₂ := hstuck.2
      omega
    rw [pipefsFileWrite, writeLoop_stuck _ _ _ hr hw hfit hstuck] at hone
    have h1 : (1 : Int).toNat = 1 := rfl
    omega
  · intro hstuck
    refine ⟨fun buf count _ => ?_, fun h₀ count => ?_⟩
    · rw [pipefsFileWrite, writeLoop_count buf _ _ hr hw hfit hstuck, Nat.zero_add]
    · rw [pipefsFileRead, readLoop_count hr hw hfit h₀]

/-! ## A page in, a page out -/

def PipeLog.round (s : PipeLog) : PipeLog :=
  (s.step (.write (fun _ => 0) pageSize)).step (.read pageSize)

@[simp] theorem PipeLog.step_write_returned (s : PipeLog) (buf : Nat → UInt8) (count : Int) :
    (s.step (.write buf count)).returned = s.returned := rfl

@[simp] theorem PipeLog.step_read_accepted (s : PipeLog) (count : Int) :
    (s.step (.read count)).accepted = s.accepted := rfl

theorem PipeLog.Reached.round {s : PipeLog} (h : s.Reached) : s.round.Reached := (h.step _).step _

section
variable {s : PipeLog} {m : Nat}

theorem write_empty {n : Nat} (hn : n ≤ pageSize) (hs : s.Reached) (ha : s.accepted.length = m)
    (hr : s.returned.length = m) (hm : m + pageSize < 2 ^ 32) :
    (s.step (.write (fun _ => 0) n)).accepted.length = m + n := by
  have hempty : s.accepted.length = s.returned.length + 0 := ha.trans hr.symm
  obtain ⟨hlt, hw⟩ := hs.counted.unread hempty
  have hrpos : s.info.pRpos = m := by rw [hs.counted.rpos, hr, wrap_of_lt (by omega)]
  have hfree : ¬ s.info.Stuck 0 := fun h => absurd h.2 (by omega)
  have hfill : (pipefsFileWrite s.info (fun _ => 0) n).1 = n := by
    rw [pipefsFileWrite, writeLoop_count _ _ _ hlt hw (Nat.zero_le _) hfree, Int.toNat_natCast]
    omega
  show (s.accepted ++ (List.range (pipefsFileWrite s.info (fun _ => 0) n).1).map _).length = _
  rw [length_append, length_map, length_range, hfill, ha]

theorem read_page (hs : s.Reached) (hu : s.accepted.length = s.returned.length + pageSize) :
    (s.step (.read pageSize)).returned.length = s.accepted.length := by
  obtain ⟨hlt, hw⟩ := hs.counted.unread hu
  have hdrain : (pipefsFileRead s.info pageSize).1.length = pageSize := by
    rw [pipefsFileRead, Int.toNat_natCast, readLoop_count hlt hw (Nat.le_refl pageSize) (by decide), Nat.min_self]
  show (s.returned ++ (pipefsFileRead s.info pageSize).1).length = _
  rw [length_append, hdrain, hu]

theorem lengths_round (hs : s.Reached) (ha : s.accepted.length = m) (hr : s.returned.length = m)
    (hm : m + pageSize < 2 ^ 32) :
    s.round.accepted.length = m + pageSize ∧ s.round.returned.length = m + pageSize := by
  have hacc := write_empty (Nat.le_refl pageSize) hs ha hr hm
  have hfull : (s.step (.write (fun _ => 0) pageSize)).accepted.length =
      (s.step (.write (fun _ => 0) pageSize)).returned.length + pageSize := by
    rw [PipeLog.step_write_returned, hacc, hr]
  rw [PipeLog.round, PipeLog.step_read_accepted, read_page (hs.step _) hfull]
  exact ⟨hacc, hacc⟩

end

theorem lengths_rounds : ∀ (n : Nat), n * pageSize < 2 ^ 32 →
    (PipeLog.round^[n] .fresh).Reached ∧ (PipeLog.round^[n] .fresh).accepted.length = n * pageSize ∧
      (PipeLog.round^[n] .fresh).returned.length = n * pageSize := by
  intro n
  induction n with
  | zero => intro _; exact ⟨.fresh, by simp [PipeLog.fresh], by simp [PipeLog.fresh]⟩
  | succ n ih =>
    intro hn
    rw [Nat.succ_mul] at hn ⊢
    obtain ⟨hs, ha, hr⟩ := ih (by omega)
    rw [Function.iterate_succ_apply']
    exact ⟨hs.round, lengths_round hs ha hr hn⟩

/-- A pipe that holds three bytes two pages before the end of the range. -/
theorem pipe_capacity_late : ∃ s : PipeLog, s.Reached ∧ s.returned.length = 2 ^ 32 - 2 * pageSize ∧
    s.accepted.length = s.returned.length + 3 ∧ s.Exact 3 := by
  obtain ⟨n, hn⟩ : ∃ n, n * pageSize = 2 ^ 32 - 2 * pageSize := ⟨2 ^ 20 - 2, by decide⟩
  obtain ⟨hs, ha, hr⟩ := lengths_rounds n (by rw [hn]; decide)
  generalize PipeLog.round^[n] .fresh = s at *
  have hlen := write_empty (show 3 ≤ pageSize by decide) hs ha hr (by rw [hn]; decide)
  rw [← hr, ← s.step_write_returned (fun _ => 0) 3] at hlen
  have hs' := hs.step (.write (fun _ => 0) 3)
  have hread : (s.step (.write (fun _ => 0) 3)).returned.length = 2 ^ 32 - 2 * pageSize := by
    rw [PipeLog.step_write_returned, hr, hn]
  refine ⟨_, hs', hread, hlen, (pipe_capacity _ 3 hs' hlen (by decide)).mpr fun hstuck => ?_⟩
  have hend := hstuck.2
  rw [hs'.counted.rpos, hread] at hend
  exact absurd hend (by decide)

/-- After `2 ^ 20 - 1` pages have gone through, the empty pipe takes nothing any more. -/
theorem pipe_stuck_empty : ∃ s : PipeLog, s.Reached ∧ s.accepted.length = s.returned.length + 0 ∧
    (pipefsFileWrite s.info (fun _ => 0) 1).1 = 0 ∧ ¬ s.Exact 0 := by
  obtain ⟨n, hn⟩ : ∃ n, n * pageSize = 2 ^ 32 - pageSize := ⟨2 ^ 20 - 1, by decide⟩
  obtain ⟨hs, ha, hr⟩ := lengths_rounds n (by rw [hn]; decide)
  generalize PipeLog.round^[n] .fresh = s at *
  have hempty : s.accepted.length = s.returned.length + 0 := ha.trans hr.symm
  obtain ⟨hlt, hw⟩ := hs.counted.unread hempty
  have hend : s.info.pRpos = 2 ^ 32 - pageSize := by
    rw [hs.counted.rpos, hr, hn]
    decide
  have hstuck : s.info.Stuck 0 := ⟨by rw [hend]; decide, by rw [hend]; decide⟩
  have hnone : (pipefsFileWrite s.info (fun _ => 0) 1).1 = 0 :=
    writeLoop_stuck _ _ _ hlt hw (Nat.zero_le _) hstuck
  refine ⟨s, hs, hempty, hnone, fun h => ?_⟩
  have hone := h.1 (fun _ => 0) 1 (by decide)
  rw [hnone] at hone
  exact absurd hone (by decide)

end MiniOS
