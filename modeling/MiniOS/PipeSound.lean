import MiniOS.Pipe
import MiniOS.RingBuf

/-!
# A pipe is a queue as long as no read meets an empty page

The two positions never wrap: a write near the end of the 32-bit range finds
`p_rpos + PAGE_SIZE` wrapped and stops.
-/

namespace MiniOS

open List

structure PipeInodeInfo.Queue (info : PipeInodeInfo) (l : List UInt8) : Prop where
  holds : Holds pageSize info.pPage info.pRpos l
  wpos : info.pWpos = info.pRpos + l.length
  fits : l.length ≤ pageSize
  range : info.pWpos < 2 ^ 32

theorem queue_getPipeInfo : getPipeInfo.Queue [] :=
  ⟨trivial, rfl, by decide, by decide⟩

namespace PipeInodeInfo.Queue

variable {info : PipeInodeInfo} {l : List UInt8}

theorem put (h : info.Queue l) (b : UInt8) (hfull : ¬ wrap (info.pRpos + pageSize) ≤ info.pWpos) :
    (info.put b).Queue (l ++ [b]) := by
  have hr : info.pRpos + pageSize < 2 ^ 32 := by
    -- wrapped, the bound would be below a page while the write position is not
    by_contra hbig
    have hw := h.wpos
    have hlt := h.range
    simp only [wrap, pageSize] at hfull hbig
    omega
  rw [wrap_of_lt hr] at hfull
  have hw := h.wpos
  have hnext : wrap (info.pWpos + 1) = info.pWpos + 1 := wrap_of_lt (by omega)
  refine ⟨?_, ?_, ?_, ?_⟩
  · show Holds pageSize (Function.update info.pPage (info.pWpos % pageSize) b) info.pRpos _
    rw [hw]
    exact h.holds.push (by omega)
  · show wrap (info.pWpos + 1) = info.pRpos + (l ++ [b]).length
    rw [hnext, length_append, length_singleton]
    omega
  · rw [length_append, length_singleton]
    omega
  · exact wrap_lt _

theorem pos_ne {b : UInt8} (h : info.Queue (b :: l)) : info.pRpos ≠ info.pWpos := by
  have hw := h.wpos
  rw [length_cons] at hw
  omega

theorem pos_eq (h : info.Queue []) : info.pRpos = info.pWpos := h.wpos.symm

theorem advance {b : UInt8} (h : info.Queue (b :: l)) : info.advance.Queue l := by
  have hw := h.wpos
  have hfits := h.fits
  have hlt := h.range
  rw [length_cons] at hw hfits
  have hnext : wrap (info.pRpos + 1) = info.pRpos + 1 := wrap_of_lt (by omega)
  refine ⟨?_, ?_, by omega, hlt⟩
  · show Holds pageSize info.pPage (wrap (info.pRpos + 1)) l
    rw [hnext]
    exact h.holds.2
  · show info.pWpos = wrap (info.pRpos + 1) + l.length
    rw [hnext]
    omega

/-! ## The two loops -/

theorem writeLoop (buf : Nat → UInt8) : ∀ (left i : Nat) {info : PipeInodeInfo} {l : List UInt8},
    info.Queue l → ∃ k, (MiniOS.writeLoop buf left i info).1 = i + k ∧
      (MiniOS.writeLoop buf left i info).2.Queue (l ++ (List.range' i k).map buf) := by
  intro left
  induction left with
  | zero => intro i info l h; exact ⟨0, rfl, by simpa [MiniOS.writeLoop] using h⟩
  | succ left ih =>
    intro i info l h
    rw [MiniOS.writeLoop]
    split
    · exact ⟨0, rfl, by simpa using h⟩
    · rename_i hfull
      obtain ⟨k, hk, hq⟩ := ih (i + 1) (h.put (buf i) hfull)
      refine ⟨k + 1, by omega, ?_⟩
      rw [range'_succ, map_cons]
      simpa using hq

theorem readLoop : ∀ (left i : Nat) {info : PipeInodeInfo} {l : List UInt8},
    info.Queue l → (0 < left → l = [] → 0 < i) →
      ∃ rest, l = (MiniOS.readLoop left i info).1 ++ rest ∧
        (MiniOS.readLoop left i info).2.Queue rest := by
  intro left
  induction left with
  | zero => intro i info l h _; exact ⟨l, rfl, h⟩
  | succ left ih =>
    intro i info l h hi
    rw [MiniOS.readLoop]
    cases l with
    | nil =>
      rw [if_pos ⟨h.pos_eq, .inl (hi (by omega) rfl)⟩]
      exact ⟨[], rfl, h⟩
    | cons b l =>
      rw [if_neg fun hstop => h.pos_ne hstop.1]
      obtain ⟨rest, hl, hq⟩ := ih (i + 1) h.advance fun _ _ => by omega
      have hfront : info.front = b := h.holds.1
      exact ⟨rest, by rw [hfront, cons_append, ← hl], hq⟩

end PipeInodeInfo.Queue

/-! ## Whole runs -/

def PipeLog.Inv (s : PipeLog) : Prop :=
  ∃ l, s.info.Queue l ∧ s.info.pWriter ≠ 0 ∧ s.accepted = s.returned ++ l

theorem PipeLog.fresh_inv : PipeLog.fresh.Inv :=
  ⟨[], queue_getPipeInfo, by decide, rfl⟩

theorem writeLoop_counters (buf : Nat → UInt8) : ∀ (left i : Nat) (info : PipeInodeInfo),
    (writeLoop buf left i info).2.pReader = info.pReader ∧
    (writeLoop buf left i info).2.pWriter = info.pWriter := by
  intro left
  induction left with
  | zero => intro i info; exact ⟨rfl, rfl⟩
  | succ left ih =>
    intro i info
    rw [writeLoop]
    split
    · exact ⟨rfl, rfl⟩
    · exact ih ..

theorem readLoop_counters : ∀ (left i : Nat) (info : PipeInodeInfo),
    (readLoop left i info).2.pReader = info.pReader ∧ (readLoop left i info).2.pWriter = info.pWriter := by
  intro left
  induction left with
  | zero => intro i info; exact ⟨rfl, rfl⟩
  | succ left ih =>
    intro i info
    rw [readLoop]
    split
    · exact ⟨rfl, rfl⟩
    · exact ih ..

section
variable {s : PipeLog}

theorem PipeLog.Inv.fifo (h : s.Inv) : s.Fifo := by
  obtain ⟨l, hq, -, hacc⟩ := h
  refine ⟨⟨l, hacc.symm⟩, ?_⟩
  rw [hacc, length_append]
  exact Nat.add_le_add_left hq.fits _

theorem PipeLog.Inv.step (h : s.Inv) {op : PipeOp} (hop : s.Supplied op) : (s.step op).Inv := by
  obtain ⟨l, hq, hw, hacc⟩ := h
  cases op with
  | write buf count =>
    obtain ⟨k, hk, hq'⟩ := hq.writeLoop buf count.toNat 0
    refine ⟨_, hq', ?_, ?_⟩
    · exact (writeLoop_counters buf count.toNat 0 s.info).2.trans_ne hw
    · show s.accepted ++ (List.range (writeLoop buf count.toNat 0 s.info).1).map buf = _
      rw [hk, Nat.zero_add, range_eq_range', hacc, append_assoc]
      rfl
  | read count =>
    have hdata : 0 < count.toNat → l = [] → 0 < 0 := by
      intro hpos hl
      subst hl
      exact absurd hq.pos_eq (hop (by omega))
    obtain ⟨rest, hl, hq'⟩ := hq.readLoop count.toNat 0 hdata
    refine ⟨rest, hq', ?_, ?_⟩
    · exact (readLoop_counters count.toNat 0 s.info).2.trans_ne hw
    · show s.accepted = s.returned ++ (readLoop count.toNat 0 s.info).1 ++ rest
      rw [append_assoc, ← hl, hacc]

/-- On an empty page with the writer there, a read hands out a cell nobody has filled. -/
theorem PipeLog.Inv.not_fifo (h : s.Inv) {op : PipeOp} (hop : ¬ s.Supplied op) :
    ¬ (s.step op).Fifo := by
  obtain ⟨l, hq, hw, hacc⟩ := h
  cases op with
  | write buf count => exact absurd trivial hop
  | read count =>
    obtain ⟨hpos, heq⟩ : 0 < count ∧ s.info.pRpos = s.info.pWpos := by
      simpa [PipeLog.Supplied] using hop
    have hl : l = [] := by
      have := hq.wpos
      exact length_eq_zero_iff.mp (by omega)
    obtain ⟨left, hleft⟩ : ∃ left, count.toNat = left + 1 := ⟨count.toNat - 1, by omega⟩
    have hread : (pipefsFileRead s.info count).1.length =
        (readLoop left 1 s.info.advance).1.length + 1 := by
      rw [pipefsFileRead, hleft, readLoop, if_neg (by simp [hw])]
      rfl
    rintro ⟨hpre, -⟩
    have hle : (s.returned ++ (pipefsFileRead s.info count).1).length ≤ s.accepted.length :=
      hpre.length_le
    rw [hacc, hl, append_nil, length_append, hread] at hle
    omega

end

theorem PipeLog.Inv.run : ∀ (ops : List PipeOp) {s : PipeLog}, s.Inv →
    ((∀ pre, pre <+: ops → (s.run pre).Fifo) ↔
      ∀ pre op, pre ++ [op] <+: ops → (s.run pre).Supplied op) := by
  intro ops
  induction ops with
  | nil =>
    intro s h
    simp only [prefix_nil]
    exact ⟨fun _ pre op hpre => absurd hpre (by simp), fun _ pre hpre => hpre ▸ h.fifo⟩
  | cons op ops ih =>
    intro s h
    constructor
    · intro hfifo
      have hop : s.Supplied op := by
        by_contra hop
        exact h.not_fifo hop (hfifo [op] (by simp))
      intro pre op' hpre
      cases pre with
      | nil =>
        have : op' = op := by simpa using hpre
        exact this ▸ hop
      | cons a pre =>
        obtain ⟨rfl, hpre'⟩ := cons_prefix_cons.mp hpre
        refine (ih (h.step hop)).mp (fun pre' h' => hfifo (a :: pre') ?_) pre op' hpre'
        exact cons_prefix_cons.mpr ⟨rfl, h'⟩
    · intro hsup
      have hop : s.Supplied op := hsup [] op (by simp)
      intro pre hpre
      cases pre with
      | nil => exact h.fifo
      | cons a pre =>
        obtain ⟨rfl, hpre'⟩ := cons_prefix_cons.mp hpre
        refine (ih (h.step hop)).mpr (fun pre' op' h' => hsup (a :: pre') op' ?_) pre hpre'
        exact cons_prefix_cons.mpr ⟨rfl, h'⟩

/-- On a new pipe with both ends open, the bytes come out as they went in, at all times,
if and only if every read of a byte or more is issued on a page that holds one. -/
theorem pipe_fifo (ops : List PipeOp) :
    (∀ pre, pre <+: ops → (PipeLog.fresh.run pre).Fifo) ↔
      ∀ pre op, pre ++ [op] <+: ops → (PipeLog.fresh.run pre).Supplied op :=
  PipeLog.fresh_inv.run ops

theorem pipe_invents_byte : ¬ (PipeLog.fresh.run [.read 1]).Fifo := by
  intro h
  exact absurd h.1.length_le (by decide)

end MiniOS
