import MiniOS.Console

/-!
# `readline`

The line editor of `lib/readline.c` on the terminal. `getchar` waits for a key, so that its results are
the list of the keys; an echoed character goes through `tty_write` to the console.
-/

namespace MiniOS

open Function List

def charArg (b : UInt8) : Nat := toUnsigned b.toInt8.toInt

/-- `printk("%.*s", nr, buf)` stops in front of a zero. -/
def Console.ttyWrite (s : Console) (w : List UInt8) : Console :=
  (w.takeWhile (· ≠ 0)).foldl (fun s b => s.vgaTextPutc (charArg b)) s

def toByte (c : Int) : UInt8 := UInt8.ofNat (c % 256).toNat

def buflen : Nat := 1024

structure LineState where
  i : Nat
  buf : Nat → UInt8
  con : Console

inductive LineStep where
  | more (s : LineState)
  | null (s : LineState)
  | line (s : LineState)

namespace LineState

-- `echoing` is `iscons(0)`, so that without it the descriptor 0 leads elsewhere.
def echo (s : LineState) (echoing : Bool) (w : List UInt8) : LineState :=
  if echoing then { s with con := s.con.ttyWrite w } else s

/-- One turn of the loop; `report` is what is printed for a read error other than `-EEOF`. -/
def step (report : Int → List UInt8) (echoing : Bool) (s : LineState) (c : Int) : LineStep :=
  if c < 0 then .null (if c ≠ -38 then s.echo echoing (report c) else s)
  else if (c = 8 ∨ c = 127) ∧ 0 < s.i then .more { s.echo echoing [8] with i := s.i - 1 }
  else if 32 ≤ c ∧ s.i < buflen - 1 then
    .more { s.echo echoing [toByte c] with buf := update s.buf s.i (toByte c), i := s.i + 1 }
  else if c = 10 ∨ c = 13 then .line { s.echo echoing [10] with buf := update s.buf s.i 0 }
  else .more s

def typed (report : Int → List UInt8) (echoing : Bool) : LineState → List Int → Option LineState
  | s, [] => some s
  | s, c :: keys =>
    match s.step report echoing c with
    | .more s => typed report echoing s keys
    | _ => none

end LineState

/-! ## The line and the screen -/

def editKey (text : List UInt8) (c : Int) : List UInt8 :=
  if (c = 8 ∨ c = 127) ∧ 0 < text.length then text.dropLast
  else if 32 ≤ c ∧ text.length < 1023 then text ++ [toByte c] else text

def glyph (b : UInt8) : Nat := coloured (charArg b) % 65536

theorem charArg_mod (b : UInt8) : charArg b % 256 = b.toNat := by
  have h : ∀ v : BitVec 8, charArg (UInt8.ofBitVec v) % 256 = (UInt8.ofBitVec v).toNat := by decide +kernel
  exact h b.toBitVec

structure Typed (base : Mem) (a : Nat) (t : Sheet) (text : List UInt8) (s : LineState) (t' : Sheet) : Prop where
  shows : s.con.Shows 2000 base a t'
  count : s.i = text.length
  fits : text.length ≤ 1023
  held : ∀ j (hj : j < text.length), s.buf j = text[j]
  top : 80 * t'.top ≤ t.pos
  pos : t'.pos = t.pos + text.length
  shown : ∀ j (hj : j < text.length), t'.cells (t.pos + j) = glyph text[j]
  before : ∀ x < t.pos, t'.cells x = t.cells x

theorem forall_snoc {α β : Type} {f : Nat → β} {g : α → β} {l : List α} {x : α}
    (h : ∀ j (hj : j < l.length), f j = g l[j])
    (hx : f l.length = g x) : ∀ j (hj : j < (l ++ [x]).length), f j = g (l ++ [x])[j] := by
  intro j hj
  rw [length_append, length_singleton] at hj
  by_cases hlt : j < l.length
  · rw [getElem_append_left hlt, h j hlt]
  · obtain rfl : j = l.length := by omega
    rw [getElem_concat_length rfl, hx]

section
variable {base : Mem} {a : Nat} {t t' : Sheet} {text : List UInt8} {s : LineState}

theorem echo_one {b : UInt8} (hb : b ≠ 0) : (s.echo true [b]).con = s.con.vgaTextPutc (charArg b) := by
  show ([b].takeWhile (· ≠ 0)).foldl _ s.con = _
  rw [takeWhile_cons_of_pos (p := fun x => decide (x ≠ 0)) (decide_eq_true hb)]
  rfl

theorem Typed.push (h : Typed base a t text s t') {b : UInt8} (hb : 32 ≤ b.toNat) (hlt : text.length < 1023) :
    Typed base a t (text ++ [b]) { s.echo true [b] with buf := update s.buf s.i b, i := s.i + 1 }
    (t'.put (charArg b)) := by
  have hne : b ≠ 0 := fun e => absurd hb (by rw [e]; decide)
  have hlen : (text ++ [b]).length = text.length + 1 := length_append
  have hpos := h.pos
  have htop := h.top
  have hshows := h.shows.put (charArg b)
  rw [Sheet.put_plain _ (by rwa [charArg_mod]), Sheet.write] at hshows ⊢
  refine ⟨?_, ?_, by omega, ?_, ?_, ?_, ?_, fun x hx => ?_⟩
  · rw [echo_one hne]
    exact hshows
  · rw [hlen, h.count]
  · refine forall_snoc (g := id) (fun j hj => ?_) ?_
    · exact (update_of_ne (by rw [h.count]; omega) ..).trans (h.held j hj)
    · rw [h.count]
      exact update_self ..
  · -- a line of 1023 characters does not push its beginning off the screen
    unfold Sheet.follow
    split
    · dsimp only at *
      omega
    · exact htop
  · rw [Sheet.follow_pos, hlen]
    dsimp only
    omega
  · rw [Sheet.follow_cells, hpos]
    refine forall_snoc (f := fun j => update t'.cells (t.pos + text.length) _ (t.pos + j)) (fun j hj => ?_) ?_
    · exact (update_of_ne (by omega) ..).trans (h.shown j hj)
    · exact update_self ..
  · rw [Sheet.follow_cells]
    exact (update_of_ne (by omega) ..).trans (h.before x hx)

theorem Typed.pop (h : Typed base a t text s t') (h0 : 0 < text.length) :
    Typed base a t text.dropLast { s.echo true [8] with i := s.i - 1 } (t'.put 8) := by
  have hlen : text.dropLast.length = text.length - 1 := length_dropLast
  have hpos := h.pos
  have htop := h.top
  have hfits := h.fits
  have hshows := h.shows.put 8
  have hput : t'.put 8 = ⟨update t'.cells (t'.pos - 1) Sheet.blank, t'.pos - 1, t'.top⟩ := if_pos (by omega)
  rw [hput] at hshows ⊢
  refine ⟨?_, ?_, by omega, fun j hj => ?_, htop, ?_, fun j hj => ?_, fun x hx => ?_⟩
  · rw [echo_one (by decide)]
    exact hshows
  · rw [hlen, h.count]
  · rw [getElem_dropLast]
    exact h.held j (by omega)
  · dsimp only
    omega
  · rw [getElem_dropLast, ← h.shown j (by omega)]
    exact update_of_ne (by omega) ..
  · exact (update_of_ne (by omega) ..).trans (h.before x hx)

theorem Typed.step (h : Typed base a t text s t') {report : Int → List UInt8} {c : Int} (hc : c < 256)
    {s' : LineState} (hs : s.step report true c = .more s') : ∃ t'', Typed base a t (editKey text c) s' t'' := by
  have hcount := h.count
  have hfits := h.fits
  unfold LineState.step buflen at hs
  unfold editKey
  rw [← hcount]
  split at hs
  · cases hs
  split at hs
  next hback =>
    cases hs
    rw [if_pos hback]
    exact ⟨_, h.pop (hcount ▸ hback.2)⟩
  next hback =>
  rw [if_neg hback]
  split at hs
  next hchar =>
    cases hs
    rw [if_pos hchar]
    refine ⟨_, h.push ?_ (by omega)⟩
    unfold toByte
    rw [UInt8.toNat_ofNat']
    omega
  next hchar =>
  rw [if_neg hchar]
  split at hs
  · cases hs
  · cases hs
    exact ⟨t', h⟩

theorem Typed.keys (h : Typed base a t text s t') {report : Int → List UInt8} {keys : List Int}
    (hc : ∀ c ∈ keys, c < 256)
    {s' : LineState} (hs : s.typed report true keys = some s') :
    ∃ t'', Typed base a t (keys.foldl editKey text) s' t'' := by
  induction keys generalizing text s t' with
  | nil =>
    cases hs
    exact ⟨t', h⟩
  | cons c keys ih =>
    rw [LineState.typed] at hs
    split at hs
    next s₁ hstep =>
      obtain ⟨t₁, h₁⟩ := h.step (hc c mem_cons_self) hstep
      exact ih h₁ (fun c' hc' => hc c' (mem_cons_of_mem _ hc')) hs
    next => cases hs

end

/-- At every moment the screen shows, from where the prompt ended, the line that is in the buffer, and the cursor is
behind it; the end of the line finds it there as a string. -/
theorem readline_shows {con : Console} {base : Mem} {a : Nat} {t : Sheet} (h : con.Shows 2000 base a t)
    (buf : Nat → UInt8) (report : Int → List UInt8) {keys : List Int} (hkeys : ∀ c ∈ keys, c < 256) {s : LineState}
    (hs : LineState.typed report true ⟨0, buf, con⟩ keys = some s) : ∃ t',
      Typed base a t (keys.foldl editKey []) s t' ∧ ∀ c, c = 10 ∨ c = 13 → ∃ s', s.step report true c = .line s' ∧
        (∀ j (hj : j < (keys.foldl editKey [] ++ [0]).length), s'.buf j = (keys.foldl editKey [] ++ [0])[j]) ∧
        s'.con.Shows 2000 base a (t'.put 10) := by
  have hstart : Typed base a t [] ⟨0, buf, con⟩ t :=
    ⟨h, rfl, Nat.zero_le _, fun j hj => absurd hj (Nat.not_lt_zero j), by have := h.cursor; omega, rfl,
      fun j hj => absurd hj (Nat.not_lt_zero j), fun _ _ => rfl⟩
  obtain ⟨t', h'⟩ := hstart.keys hkeys hs
  refine ⟨t', h', fun c hc => ?_⟩
  unfold LineState.step
  rw [if_neg (by omega), if_neg (by omega), if_neg (by omega), if_pos hc]
  refine ⟨_, rfl, ?_, ?_⟩
  · refine forall_snoc (g := id) (fun j hj => ?_) ?_
    · exact (update_of_ne (by rw [h'.count]; omega) ..).trans (h'.held j hj)
    · rw [← h'.count]
      exact update_self ..
  · rw [echo_one (by decide)]
    exact h'.shows.put 10

/-- `h`, a backspace and `i`. -/
theorem readline_shows_edit :
    ∃ s t', LineState.typed (fun _ => []) true ⟨0, fun _ => 0, Console.init 0xB8000 fun _ => 0⟩
    [104, 8, 105] = some s ∧ Typed (fun _ => 0) 0xB8000 Sheet.start [105] s t' := by
  have hshows := Console.init_shows (show 0xB8000 + 4000 ≤ 2 ^ 32 by decide) fun _ => 0
  have hkeys : ∀ c ∈ [(104 : Int), 8, 105], c < 256 := by decide
  obtain ⟨t', h, -⟩ := readline_shows hshows (fun _ => 0) (fun _ => []) hkeys rfl
  exact ⟨_, t', rfl, h⟩

end MiniOS
