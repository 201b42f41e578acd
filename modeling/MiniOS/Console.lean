import MiniOS.MemMove

/-!
# The text console

`char/console.c`: a cursor and 25 lines of 80 cells in video memory, two bytes to a cell. The console
moves the lines up when the cursor leaves the last one. Seen from outside it is a window that moves
down an endless sheet on which nothing is ever moved.
-/

namespace MiniOS

open Function

def crtRows : Nat := 25

def crtCols : Nat := 80

def crtSize : Nat := crtRows * crtCols

def st16 (m : Mem) (a v : Nat) : Mem := fun x =>
  if x = a then UInt8.ofNat v else if x = a + 1 then UInt8.ofNat (v / 256) else m x

structure Console where
  displayAddr : Nat
  cursor : Nat
  mem : Mem

def coloured (c : Nat) : Nat := if c / 256 = 0 then c + 0x0700 else c

namespace Console

variable (s : Console)

def crtBuf (i : Nat) : Nat := wrap (s.displayAddr + 2 * i)

def setCell (i v : Nat) : Console := { s with mem := st16 s.mem (s.crtBuf i) v }

def fillCells (v : Nat) : (count i : Nat) → Console → Console
  | 0, _, s => s
  | count + 1, i, s => fillCells v count (i + 1) (s.setCell i v)

def clear : Console := fillCells 0 crtSize 0 s

def init (dispmem : Nat) (mem : Mem) : Console := Console.clear ⟨dispmem, 0, mem⟩

def scroll : Console :=
  if crtSize ≤ s.cursor then
    let s : Console := { s with mem := memmove (s.crtBuf 0) (s.crtBuf crtCols) ((crtSize - crtCols) * 2) s.mem }
    let s := fillCells (0x0700 + 32) crtCols (crtSize - crtCols) s
    { s with cursor := wsub s.cursor crtCols }
  else s

def carriageReturn : Console := { s with cursor := wsub s.cursor (s.cursor % crtCols) }

def vgaTextPutc (c : Nat) (s : Console) : Console :=
  if coloured c % 256 = 8 then
    scroll (if 0 < s.cursor then
      { s with cursor := s.cursor - 1 }.setCell (s.cursor - 1) (coloured c / 256 * 256 + 32) else s)
  else if coloured c % 256 = 10 then scroll { s with cursor := wrap (s.cursor + crtCols) }.carriageReturn
  else if coloured c % 256 = 13 then scroll s.carriageReturn
  else if coloured c % 256 = 9 then
    scroll (vgaTextPutc 32 (vgaTextPutc 32 (vgaTextPutc 32 (vgaTextPutc 32 (vgaTextPutc 32 s)))))
  else scroll { s.setCell s.cursor (coloured c) with cursor := wrap (s.cursor + 1) }
termination_by if coloured c % 256 = 9 then 1 else 0
decreasing_by all_goals rw [if_pos ‹coloured c % 256 = 9›]; decide

def cell (i : Nat) : Nat := (s.mem (s.displayAddr + 2 * i)).toNat + 256 * (s.mem (s.displayAddr + 2 * i + 1)).toNat

end Console

/-! ## The sheet -/

/-- Lines of 80 cells, one behind the other; `top` is the first line that can be seen. -/
structure Sheet where
  cells : Nat → Nat
  pos : Nat
  top : Nat

namespace Sheet

def blank : Nat := 0x0720

def start : Sheet := ⟨fun i => if i < 2000 then 0 else blank, 0, 0⟩

variable (s : Sheet)

def follow : Sheet := if 80 * (s.top + 25) ≤ s.pos then { s with top := s.top + 1 } else s

def write (v : Nat) : Sheet := follow ⟨update s.cells s.pos (v % 65536), s.pos + 1, s.top⟩

def put (c : Nat) : Sheet :=
  let v := coloured c
  if v % 256 = 8 then
    if 80 * s.top < s.pos then ⟨update s.cells (s.pos - 1) ((v / 256 * 256 + 32) % 65536), s.pos - 1, s.top⟩
    else s
  else if v % 256 = 10 then follow ⟨s.cells, (s.pos / 80 + 1) * 80, s.top⟩
  else if v % 256 = 13 then ⟨s.cells, s.pos / 80 * 80, s.top⟩
  else if v % 256 = 9 then ((((s.write blank).write blank).write blank).write blank).write blank
  else s.write v

end Sheet

theorem Sheet.follow_cells (s : Sheet) : s.follow.cells = s.cells := by
  unfold follow
  split <;> rfl

theorem Sheet.follow_pos (s : Sheet) : s.follow.pos = s.pos := by
  unfold follow
  split <;> rfl

/-! ## Cells -/

namespace Console

structure Within (base : Mem) (a : Nat) (s : Console) : Prop where
  addr : s.displayAddr = a
  room : a + 4000 ≤ 2 ^ 32
  frame : ∀ x, x < a ∨ a + 4000 ≤ x → s.mem x = base x

section
variable {base : Mem} {a : Nat} {s : Console} {i : Nat}

theorem Within.crtBuf (h : s.Within base a) (hi : i < 2000) : s.crtBuf i = a + 2 * i := by
  have := h.room
  unfold Console.crtBuf
  rw [h.addr, wrap_of_lt (by omega)]

theorem Within.setCell (h : s.Within base a) (hi : i < 2000) (v : Nat) : (s.setCell i v).Within base a := by
  refine ⟨h.addr, h.room, fun x hx => ?_⟩
  show st16 s.mem (s.crtBuf i) v x = base x
  rw [h.crtBuf hi, ← h.frame x hx]
  unfold st16
  rw [if_neg (by omega), if_neg (by omega)]

theorem cell_setCell (h : s.Within base a) (hi : i < 2000) (v j : Nat) :
    (s.setCell i v).cell j = if j = i then v % 65536 else s.cell j := by
  unfold cell
  show (st16 s.mem (s.crtBuf i) v (s.displayAddr + 2 * j)).toNat +
    256 * (st16 s.mem (s.crtBuf i) v (s.displayAddr + 2 * j + 1)).toNat = _
  rw [h.crtBuf hi, h.addr]
  unfold st16
  by_cases hj : j = i
  · subst hj
    rw [if_pos rfl, if_neg (by omega), if_pos rfl, if_pos rfl, UInt8.toNat_ofNat', UInt8.toNat_ofNat']
    omega
  · simp (disch := omega) only [if_neg]

theorem fillCells_spec (v : Nat) : ∀ (count i : Nat) {s : Console}, s.Within base a → i + count ≤ 2000 →
    (fillCells v count i s).Within base a ∧ (fillCells v count i s).cursor = s.cursor ∧
      ∀ j, (fillCells v count i s).cell j = if i ≤ j ∧ j < i + count then v % 65536 else s.cell j
  | 0, i, s, h, _ => ⟨h, rfl, fun j => (if_neg (by omega)).symm⟩
  | count + 1, i, s, h, hle => by
    obtain ⟨hw, hc, hcell⟩ := fillCells_spec v count (i + 1) (h.setCell (i := i) (by omega) v) (by omega)
    refine ⟨hw, hc, fun j => (hcell j).trans ?_⟩
    rw [cell_setCell h (by omega)]
    grind

theorem memmove_spec (h : s.Within base a) : ∃ m, memmove (s.crtBuf 0) (s.crtBuf 80) 3840 s.mem = m ∧
    Within base a { s with mem := m } ∧ ∀ i < 1920, cell { s with mem := m } i = s.cell (i + 80) := by
  have hroom := h.room
  rw [h.crtBuf (by decide), h.crtBuf (by decide), memmove_up (by omega) (by omega) (by omega)]
  refine ⟨_, rfl, ⟨h.addr, hroom, fun x hx => ?_⟩, fun i hi => ?_⟩
  · exact (copied_outside _ (by omega)).trans (h.frame x hx)
  · unfold cell
    dsimp only
    rw [h.addr, show a + 2 * i = a + 2 * 0 + 2 * i by omega, copied_inside _ _ (by omega),
      Nat.add_assoc _ (2 * i) 1, copied_inside _ _ (by omega), show a + 2 * 80 + 2 * i = a + 2 * (i + 80) by omega,
      show a + 2 * 80 + (2 * i + 1) = a + 2 * (i + 80) + 1 by omega]

end

/-! ## The window -/

/-- The cursor is before `limit`: a line too far until the lines have been moved. -/
structure Shows (limit : Nat) (base : Mem) (a : Nat) (s : Console) (t : Sheet) : Prop extends s.Within base a where
  cursor : 80 * t.top + s.cursor = t.pos
  inside : s.cursor < limit
  cells : ∀ i < 2000, s.cell i = t.cells (80 * t.top + i)
  fresh : ∀ i, 80 * (t.top + 25) ≤ i → t.cells i = Sheet.blank

section
variable {base : Mem} {a : Nat} {s : Console} {t : Sheet}

theorem Shows.scroll (h : s.Shows 2080 base a t) : s.scroll.Shows 2000 base a t.follow := by
  have hcur := h.cursor
  have hin := h.inside
  unfold Console.scroll Sheet.follow
  by_cases hs : crtSize ≤ s.cursor
  · have hs' : 2000 ≤ s.cursor := hs
    rw [if_pos hs, if_pos (by omega)]
    obtain ⟨m, hm, hw, hcell⟩ := memmove_spec h.toWithin
    obtain ⟨hw', hc, hfill⟩ := fillCells_spec (0x0700 + 32) 80 1920 hw (by decide)
    have hsub : wsub s.cursor 80 = s.cursor - 80 := wsub_of_le (by omega) (by omega)
    show Shows 2000 base a
      { fillCells (0x0700 + 32) 80 1920 { s with mem := memmove (s.crtBuf 0) (s.crtBuf 80) 3840 s.mem } with
        cursor := wsub (fillCells (0x0700 + 32) 80 1920
          { s with mem := memmove (s.crtBuf 0) (s.crtBuf 80) 3840 s.mem }).cursor 80 } ⟨t.cells, t.pos, t.top + 1⟩
    rw [hm]
    generalize fillCells (0x0700 + 32) 80 1920 { s with mem := m } = s' at hw' hc hfill ⊢
    rw [hc, hsub]
    refine ⟨⟨hw'.addr, hw'.room, hw'.frame⟩, ?_, ?_, fun i hi => (hfill i).trans ?_, fun i hi => ?_⟩
    · show 80 * (t.top + 1) + (s.cursor - 80) = t.pos
      omega
    · show s.cursor - 80 < 2000
      omega
    · dsimp only
      split
      · -- nothing has been written on the line that comes into view
        exact (h.fresh _ (by omega)).symm
      · rw [hcell i (by omega), h.cells _ (by omega)]
        rw [show 80 * t.top + (i + 80) = 80 * (t.top + 1) + i by omega]
    · exact h.fresh i (by dsimp only at hi; omega)
  · have hs' : ¬ 2000 ≤ s.cursor := hs
    rw [if_neg hs, if_neg (by omega)]
    exact { h with inside := Nat.lt_of_not_le hs' }

theorem Shows.mono {limit limit' : Nat} (h : s.Shows limit base a t) (hle : limit ≤ limit') :
    s.Shows limit' base a t :=
  { h with inside := h.inside.trans_le hle }

theorem Shows.setCell (h : s.Shows 2000 base a t) {i : Nat} (hi : i < 2000) (v : Nat) :
    (s.setCell i v).Shows 2000 base a { t with cells := update t.cells (80 * t.top + i) (v % 65536) } := by
  refine ⟨h.toWithin.setCell hi v, h.cursor, h.inside, fun j hj => ?_, fun j hj => ?_⟩
  · rw [cell_setCell h.toWithin hi]
    dsimp only
    split
    next hji => rw [hji, update_self]
    next hji => rw [update_of_ne (by omega), h.cells j hj]
  · dsimp only at hj ⊢
    rw [update_of_ne (by omega), h.fresh j hj]

theorem Shows.move {limit limit' : Nat} (h : s.Shows limit base a t) (cursor pos : Nat)
    (hpos : 80 * t.top + cursor = pos)
    (hlt : cursor < limit') : Shows limit' base a { s with cursor := cursor } { t with pos := pos } :=
  ⟨⟨h.addr, h.room, h.frame⟩, hpos, hlt, h.cells, h.fresh⟩

theorem Shows.follow (h : s.Shows 2000 base a t) : t.follow = t := by
  have hcur := h.cursor
  have hin := h.inside
  exact if_neg (by omega)

theorem Shows.scroll_same (h : s.Shows 2000 base a t) : s.scroll.Shows 2000 base a t := by
  have := (h.mono (by decide)).scroll
  rwa [h.follow] at this

theorem Shows.write (h : s.Shows 2000 base a t) (v : Nat) :
    (Console.scroll { s.setCell s.cursor v with cursor := wrap (s.cursor + 1) }).Shows 2000 base a (t.write v) := by
  have hcur := h.cursor
  have hin := h.inside
  have hcell := h.setCell hin v
  rw [hcur] at hcell
  rw [wrap_of_lt (by omega)]
  exact (hcell.move _ _ (by dsimp only; omega) (by omega)).scroll

theorem carriageReturn_eq (h : s.Shows 2080 base a t) :
    s.carriageReturn = { s with cursor := s.cursor - s.cursor % 80 } := by
  have hin := h.inside
  unfold carriageReturn crtCols
  rw [wsub_of_le (Nat.mod_le ..) (by omega)]

theorem Shows.blank (h : s.Shows 2000 base a t) : (s.vgaTextPutc 32).Shows 2000 base a (t.write Sheet.blank) := by
  rw [vgaTextPutc]
  exact h.write 0x0720

theorem Shows.put (h : s.Shows 2000 base a t) (c : Nat) : (s.vgaTextPutc c).Shows 2000 base a (t.put c) := by
  have hcur := h.cursor
  have hin := h.inside
  rw [vgaTextPutc]
  unfold Sheet.put
  dsimp only
  split
  · by_cases h0 : 0 < s.cursor
    · rw [if_pos h0, if_pos (by omega)]
      have hlt : s.cursor - 1 < 2000 := by omega
      have hback := (h.move (s.cursor - 1) (t.pos - 1) (by omega) hlt).setCell hlt (coloured c / 256 * 256 + 32)
      rw [show 80 * t.top + (s.cursor - 1) = t.pos - 1 by omega] at hback
      exact hback.scroll_same
    · rw [if_neg h0, if_neg (by omega)]
      exact h.scroll_same
  split
  · have hdown : Shows 2080 base a { s with cursor := wrap (s.cursor + crtCols) } { t with pos := t.pos + 80 } := by
      rw [wrap_of_lt (by unfold crtCols; omega)]
      exact h.move _ _ (by unfold crtCols; omega) (by unfold crtCols; omega)
    rw [carriageReturn_eq hdown]
    refine (hdown.move _ _ ?_ ?_).scroll
    · show 80 * t.top + (wrap (s.cursor + crtCols) - wrap (s.cursor + crtCols) % 80) = (t.pos / 80 + 1) * 80
      unfold crtCols wrap
      omega
    · show wrap (s.cursor + crtCols) - wrap (s.cursor + crtCols) % 80 < 2080
      unfold crtCols wrap
      omega
  split
  · rw [carriageReturn_eq (h.mono (by decide))]
    refine (h.move _ _ ?_ ?_).scroll_same
    · omega
    · omega
  split
  · exact h.blank.blank.blank.blank.blank.scroll_same
  · exact h.write (coloured c)

end

theorem Shows.run {base : Mem} {a : Nat} {s : Console} {t : Sheet} (h : s.Shows 2000 base a t) (cs : List Nat) :
    (cs.foldl (fun s c => s.vgaTextPutc c) s).Shows 2000 base a (cs.foldl Sheet.put t) := by
  induction cs generalizing s t with
  | nil => exact h
  | cons c cs ih => exact ih (h.put c)

theorem init_shows {dispmem : Nat} (h : dispmem + 4000 ≤ 2 ^ 32) (mem : Mem) :
    (init dispmem mem).Shows 2000 mem dispmem Sheet.start := by
  obtain ⟨hw, hc, hcell⟩ := fillCells_spec 0 2000 0 (s := ⟨dispmem, 0, mem⟩) ⟨rfl, h, fun _ _ => rfl⟩
    (Nat.le_refl _)
  refine ⟨hw, congrArg (80 * 0 + ·) hc, Nat.lt_of_le_of_lt (Nat.le_of_eq hc) (Nat.zero_lt_succ _),
    fun i hi => (hcell i).trans ?_, fun i hi => ?_⟩
  · rw [if_pos (by omega)]
    exact (if_pos (by show 80 * 0 + i < 2000; omega)).symm
  · exact if_neg (by change 80 * (0 + 25) ≤ i at hi; omega)

end Console

theorem coloured_mod (c : Nat) : coloured c % 256 = c % 256 := by
  unfold coloured
  split <;> omega

theorem Sheet.put_plain (t : Sheet) {c : Nat} (h : 32 ≤ c % 256) : t.put c = t.write (coloured c) := by
  unfold Sheet.put
  dsimp only
  simp (disch := omega) only [coloured_mod, if_neg]

/-- Whatever is written, the cursor stays on the screen, the screen shows the last 25 lines of the sheet
and no other memory changes. -/
theorem console_window {dispmem : Nat} (h : dispmem + 4000 ≤ 2 ^ 32) (mem : Mem) (cs : List Nat) :
    (cs.foldl (fun s c => s.vgaTextPutc c) (Console.init dispmem mem)).Shows 2000 mem dispmem
      (cs.foldl Sheet.put Sheet.start) :=
  (Console.init_shows h mem).run cs

theorem console_window_vga : 0xB8000 + 4000 ≤ 2 ^ 32 ∧
    ([72, 9, 105, 10].foldl (fun s c => s.vgaTextPutc c) (Console.init 0xB8000 fun _ => 0)).Shows 2000
      (fun _ => 0) 0xB8000 ([72, 9, 105, 10].foldl Sheet.put Sheet.start) :=
  ⟨by decide, console_window (by decide) (fun _ => 0) [72, 9, 105, 10]⟩

end MiniOS
