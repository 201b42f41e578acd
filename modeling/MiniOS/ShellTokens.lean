import MiniOS.ByteMem
import Mathlib.Data.List.Forall2

/-!
# The words of a command line

`gettoken` of `sh.c` cuts the line up where it stands: blanks and symbols are overwritten with zeros, and a
word is ended by the search for the token behind it, one call ahead of its use.
-/

namespace MiniOS

open Function List

def isBlank (c : UInt8) : Bool := c = 32 ∨ c = 9 ∨ c = 13 ∨ c = 10

def isSymbol (c : UInt8) : Bool := c = 60 ∨ c = 124 ∨ c = 62 ∨ c = 38 ∨ c = 59 ∨ c = 40 ∨ c = 41

def isWordChar (c : UInt8) : Bool := c ≠ 0 ∧ !isBlank c ∧ !isSymbol c

def skipBlanks : (fuel : Nat) → Mem → (s : Nat) → Mem × Nat
  | 0, m, s => (m, s)
  | fuel + 1, m, s => if isBlank (m s) then skipBlanks fuel (update m s 0) (s + 1) else (m, s)

def skipWord : (fuel : Nat) → Mem → (s : Nat) → Nat
  | 0, _, s => s
  | fuel + 1, m, s => if isWordChar (m s) then skipWord fuel m (s + 1) else s

structure Lexer where
  m : Mem
  nc : UInt8
  np1 : Nat
  np2 : Nat

namespace Lexer

def advance (fuel : Nat) (l : Lexer) (s : Nat) : Lexer :=
  if s = 0 then { l with nc := 0 }
  else
    let (m, s) := skipBlanks fuel l.m s
    if m s = 0 then ⟨m, 0, 0, 0⟩
    else if isSymbol (m s) then ⟨update m s 0, m s, s, s + 1⟩
    else ⟨m, 119, s, skipWord fuel m s⟩

def gettokens (fuel : Nat) : (calls : Nat) → Lexer → List (UInt8 × Nat) × Lexer
  | 0, l => ([], l)
  | calls + 1, l =>
    let r := gettokens fuel calls (l.advance fuel l.np2)
    ((l.nc, l.np1) :: r.1, r.2)

end Lexer

/-! ## The tokens of a text -/

inductive Token where
  | symbol (c : UInt8)
  | word (w : List UInt8)

def tokens : (fuel : Nat) → List UInt8 → List Token
  | 0, _ => []
  | fuel + 1, text =>
    match text.dropWhile isBlank with
    | [] => []
    | c :: rest =>
      if isSymbol c then .symbol c :: tokens fuel rest
      else .word ((c :: rest).takeWhile isWordChar) :: tokens fuel ((c :: rest).dropWhile isWordChar)

def StrAt (m : Mem) : Nat → List UInt8 → Prop
  | s, [] => m s = 0
  | s, c :: w => c ≠ 0 ∧ m s = c ∧ StrAt m (s + 1) w

def Token.ReadAs (m : Mem) (x : UInt8 × Nat) : Token → Prop
  | .symbol c => x.1 = c
  | .word w => x.1 = 119 ∧ StrAt m x.2 w

def cleared (m : Mem) (s n : Nat) : Mem := fun x => if s ≤ x ∧ x < s + n then 0 else m x

/-! ## One call -/

theorem strAt_cut {m m' : Mem} : ∀ {w v : List UInt8} {s : Nat}, StrAt m s (w ++ v) →
    (∀ x, s ≤ x → x < s + w.length → m' x = m x) → m' (s + w.length) = 0 → StrAt m' s w
  | [], _, _, _, _, h0 => h0
  | c :: w, v, s, h, hm, h0 => by
    rw [length_cons] at hm h0
    refine ⟨h.1, (hm s (Nat.le_refl _) (by omega)).trans h.2.1,
      strAt_cut h.2.2 (fun x hx hlt => hm x (by omega) (by omega)) ?_⟩
    rwa [Nat.add_assoc, Nat.add_comm 1]

theorem strAt_drop {m m' : Mem} : ∀ {u v : List UInt8} {s : Nat}, StrAt m s (u ++ v) →
    (∀ x, s + u.length ≤ x → m' x = m x) → StrAt m' (s + u.length) v
  | [], [], s, h, hm => (hm s (Nat.le_refl _)).trans h
  | [], c :: v, s, h, hm => ⟨h.1, (hm s (Nat.le_refl _)).trans h.2.1, strAt_drop (u := []) h.2.2 fun x hx =>
    hm x (Nat.le_of_succ_le hx)⟩
  | c :: u, v, s, h, hm => by
    rw [length_cons, Nat.add_comm u.length, ← Nat.add_assoc] at hm ⊢
    exact strAt_drop h.2.2 hm

theorem cleared_cons (m : Mem) (s n : Nat) : cleared (update m s 0) (s + 1) n = cleared m s (n + 1) := by
  funext x
  simp only [cleared, update_apply]
  grind

theorem cleared_snoc (m : Mem) (s n : Nat) : update (cleared m s n) (s + n) 0 = cleared m s (n + 1) := by
  funext x
  simp only [cleared, update_apply]
  grind

theorem cleared_outside {m : Mem} {s n x : Nat} (h : x < s ∨ s + n ≤ x) : cleared m s n x = m x := if_neg (by omega)

theorem cleared_zero (m : Mem) (s : Nat) : cleared m s 0 = m := funext fun _ => cleared_outside (by omega)

theorem skipBlanks_eq {text : List UInt8} {fuel s : Nat} {m : Mem} (h : StrAt m s text) (hf : text.length ≤ fuel) :
    skipBlanks fuel m s = (cleared m s (text.takeWhile isBlank).length, s + (text.takeWhile isBlank).length) := by
  induction text generalizing fuel s m with
  | nil =>
    have h0 : m s = 0 := h
    cases fuel <;> simp [skipBlanks, h0, isBlank, cleared_zero]
  | cons c text ih =>
    obtain ⟨fuel, rfl⟩ : ∃ n, fuel = n + 1 := ⟨fuel - 1, by rw [length_cons] at hf; omega⟩
    rw [skipBlanks, h.2.1, takeWhile_cons]
    cases isBlank c with
    | false => simp [cleared_zero]
    | true =>
      have ht : StrAt (update m s 0) (s + 1) text :=
        strAt_drop (u := [c]) h fun x (hx : s + 1 ≤ x) => update_of_ne (by omega) ..
      rw [if_pos rfl, if_pos rfl, ih ht (Nat.le_of_succ_le_succ hf), cleared_cons, length_cons,
        Nat.add_assoc, Nat.add_comm 1]

theorem skipWord_eq {text : List UInt8} {fuel s : Nat} {m : Mem} (h : StrAt m s text) (hf : text.length ≤ fuel) :
    skipWord fuel m s = s + (text.takeWhile isWordChar).length := by
  induction text generalizing fuel s with
  | nil =>
    have h0 : m s = 0 := h
    cases fuel <;> simp [skipWord, h0, isWordChar]
  | cons c text ih =>
    obtain ⟨fuel, rfl⟩ : ∃ n, fuel = n + 1 := ⟨fuel - 1, by rw [length_cons] at hf; omega⟩
    rw [skipWord, h.2.1, takeWhile_cons]
    cases isWordChar c with
    | false => rfl
    | true => rw [if_pos rfl, if_pos rfl, ih h.2.2 (Nat.le_of_succ_le_succ hf), length_cons,
      Nat.add_assoc, Nat.add_comm 1]

/-! ## The whole line -/

structure Cut (l : Lexer) (s : Nat) (text : List UInt8) (ts : List Token) (r : List (UInt8 × Nat) × Lexer) :
    Prop where
  read : List.Forall₂ (Token.ReadAs r.2.m) r.1 ts
  done : r.2.nc = 0
  frame : ∀ x, x < s ∨ s + text.length < x → r.2.m x = l.m x
  -- so that the word in front of it comes to an end
  ended : (∀ c t, text = c :: t → isWordChar c = false) → r.2.m s = 0

theorem head_dropWhile {p : UInt8 → Bool} {l r : List UInt8} {c : UInt8} (h : l.dropWhile p = c :: r) :
    p c = false := by
  have := head_dropWhile_not p (show l.dropWhile p ≠ [] by rw [h]; exact cons_ne_nil c r)
  simpa only [h, head_cons] using this

theorem advance_eq {text : List UInt8} {fuel s : Nat} (l : Lexer) (hs : s ≠ 0) (h : StrAt l.m s text)
    (hf : text.length ≤ fuel) :
    ∃ b rest, text = b ++ rest ∧ text.dropWhile isBlank = rest ∧ StrAt (cleared l.m s b.length)
      (s + b.length) rest ∧ l.advance fuel s =
        if cleared l.m s b.length (s + b.length) = 0 then ⟨cleared l.m s b.length, 0, 0, 0⟩
        else if isSymbol (cleared l.m s b.length (s + b.length)) then
          ⟨cleared l.m s (b.length + 1), cleared l.m s b.length (s + b.length), s + b.length, s + b.length + 1⟩
        else ⟨cleared l.m s b.length, 119, s + b.length, s + b.length + (rest.takeWhile isWordChar).length⟩ := by
  have hsplit : text = text.takeWhile isBlank ++ text.dropWhile isBlank := takeWhile_append_dropWhile.symm
  have hrest : StrAt (cleared l.m s (text.takeWhile isBlank).length) (s + (text.takeWhile isBlank).length)
      (text.dropWhile isBlank) := by
    rw [hsplit] at h
    exact strAt_drop h fun x hx => cleared_outside (.inr hx)
  refine ⟨_, _, hsplit, rfl, hrest, ?_⟩
  have hlen := congrArg List.length hsplit
  rw [length_append] at hlen
  rw [Lexer.advance, if_neg hs, skipBlanks_eq h hf]
  dsimp only
  rw [skipWord_eq hrest (by omega), cleared_snoc]

theorem gettokens_cut (fuel : Nat) : ∀ (n : Nat) {text : List UInt8} {l : Lexer} {s : Nat}, text.length < n →
    text.length ≤ fuel →
    s ≠ 0 → StrAt l.m s text → Cut l s text (tokens n text)
    (Lexer.gettokens fuel (tokens n text).length (l.advance fuel s))
  | n + 1, text, l, s, hn, hf, hs, h => by
    obtain ⟨b, rest, htext, hdrop, hrest, hadv⟩ := advance_eq l hs h hf
    have hlen : text.length = b.length + rest.length := by rw [htext, length_append]
    rw [tokens, hdrop, hadv]
    cases rest with
    | nil =>
      have h0 : cleared l.m s b.length (s + b.length) = 0 := hrest
      rw [if_pos h0]
      refine ⟨.nil, rfl, fun x hx => cleared_outside (by omega), fun _ => ?_⟩
      by_cases hk : b.length = 0
      · rwa [hk] at h0 ⊢
      · exact if_pos (by omega)
    | cons c r =>
      rw [length_cons] at hlen
      rw [hrest.2.1, if_neg hrest.1]
      dsimp only
      cases hc : isSymbol c with
      | true =>
        -- the symbol is overwritten, and the search goes on behind it
        have hr : StrAt (cleared l.m s (b.length + 1)) (s + b.length + 1) r := by
          refine strAt_drop (u := [c]) hrest fun x (hx : s + b.length + 1 ≤ x) => ?_
          rw [cleared_outside (by omega), cleared_outside (by omega)]
        rw [if_pos rfl, if_pos rfl]
        have ih := gettokens_cut fuel n (l := ⟨_, c, s + b.length, s + b.length + 1⟩) (by omega)
          (by omega) (by omega) hr
        refine ⟨.cons rfl ih.read, ih.done, fun x hx => ?_, fun _ => ?_⟩
        · exact (ih.frame x (by omega)).trans (cleared_outside (by omega))
        · exact (ih.frame s (by omega)).trans (if_pos (by omega))
      | false =>
        have hword : isWordChar c = true := by
          simp [isWordChar, hc, hrest.1, head_dropWhile hdrop]
        have hsplit : c :: r = (c :: r).takeWhile isWordChar ++ (c :: r).dropWhile isWordChar :=
          takeWhile_append_dropWhile.symm
        have hw : 0 < ((c :: r).takeWhile isWordChar).length := by
          rw [takeWhile_cons, if_pos hword]
          exact Nat.zero_lt_succ _
        have hparts := congrArg List.length hsplit
        rw [length_append, length_cons] at hparts
        rw [if_neg Bool.false_ne_true, if_neg Bool.false_ne_true]
        generalize (c :: r).takeWhile isWordChar = w at *
        generalize hd : (c :: r).dropWhile isWordChar = d at *
        rw [hsplit] at hrest
        have ih := gettokens_cut fuel n (l := ⟨_, 119, s + b.length, s + b.length + w.length⟩) (by omega)
          (by omega) (by omega) (strAt_drop hrest fun _ _ => rfl)
        -- the word comes to an end with the call for the token behind it
        have hend := ih.ended fun _ _ e => head_dropWhile (hd.trans e)
        refine ⟨.cons ⟨rfl, strAt_cut hrest (fun x hx hlt => ih.frame x (.inl hlt)) hend⟩ ih.read, ih.done,
          fun x hx => ?_, fun hhead => ?_⟩
        · exact (ih.frame x (by omega)).trans (cleared_outside (by omega))
        · by_cases hk : b.length = 0
          · rw [length_eq_zero_iff.mp hk, nil_append] at htext
            exact absurd ((hhead c r htext).symm.trans hword) Bool.false_ne_true
          · exact (ih.frame s (by omega)).trans (if_pos (by omega))

/-- `gettoken` returns the tokens of the line in order and then zero. When it does, each word is a string where it
said, and nothing outside of the line has changed. -/
theorem gettoken_cuts {l : Lexer} {s fuel : Nat} {text : List UInt8} (h : StrAt l.m s text) (hs : s ≠ 0)
    (hf : text.length ≤ fuel) :
    ∃ xs l', Lexer.gettokens fuel (tokens (text.length + 1) text).length (l.advance fuel s) = (xs, l') ∧
      List.Forall₂ (Token.ReadAs l'.m) xs (tokens (text.length + 1) text) ∧ l'.nc = 0 ∧
      ∀ x, x < s ∨ s + text.length < x → l'.m x = l.m x := by
  have hcut := gettokens_cut fuel (text.length + 1) (Nat.lt_succ_self _) hf hs h
  exact ⟨_, _, rfl, hcut.read, hcut.done, hcut.frame⟩

/-- `"a|b"` at the address 1. -/
theorem gettoken_cuts_pipe : ∃ l : Lexer, ∃ xs l', Lexer.gettokens 3 3 (l.advance 3 1) = (xs, l') ∧
    List.Forall₂ (Token.ReadAs l'.m) xs [.word [97], .symbol 124, .word [98]] ∧ l'.nc = 0 ∧
      ∀ x, x < 1 ∨ 1 + 3 < x → l'.m x = l.m x := by
  have h : StrAt (fun x => [0, 97, 124, 98].getD x 0) 1 [97, 124, 98] :=
    ⟨by decide, rfl, by decide, rfl, by decide, rfl, rfl⟩
  exact ⟨⟨_, 0, 0, 0⟩, gettoken_cuts (l := ⟨_, 0, 0, 0⟩) h (by decide) (Nat.le_refl _)⟩

end MiniOS
