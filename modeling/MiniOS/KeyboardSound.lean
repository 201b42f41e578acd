import MiniOS.Keyboard

/-!
# Scan codes byte by byte

A sequence of one byte is decoded in the interrupt that brings it. The first byte of a longer
sequence makes the parser take a byte that is not there yet.
-/

namespace MiniOS

open List

/-! ## The table -/

theorem modKey_keymap : ∀ row < 0x80, modKey (keymap row 0) = Decoder.modifier row false ∧
    modKey (keymap row 1) = Decoder.modifier row false ∧ Decoder.modifier row false ≠ some .altR := by
  decide

theorem Mods.column_plain (m : Mods) (row : Nat) : m.column row false = 0 ∨ m.column row false = 1 := by
  unfold Mods.column
  simp only [Bool.false_eq_true, if_false]
  generalize (if (m.capsLock && _) = true then _ else _ : Bool) = caps
  cases caps with
  | false => exact .inl rfl
  | true => exact .inr rfl

theorem rowOf_lt (b : UInt8) : rowOf b < 0x80 := by
  unfold rowOf
  rw [UInt8.toNat_and]
  exact Nat.lt_of_le_of_lt Nat.and_le_right (by decide)

theorem switch_eq_hold (m : Mods) (b : UInt8) (make : Bool) :
    (modKey (keymap (rowOf b) (m.column (rowOf b) false))).elim m (m.switch make) =
      (Decoder.modifier (rowOf b) false).elim m (Decoder.hold m make) := by
  obtain ⟨h₀, h₁, hne⟩ := modKey_keymap (rowOf b) (rowOf_lt b)
  have hkey : modKey (keymap (rowOf b) (m.column (rowOf b) false)) = Decoder.modifier (rowOf b) false := by
    rcases m.column_plain (rowOf b) with e | e
    · rw [e, h₀]
    · rw [e, h₁]
  rw [hkey]
  cases hmod : Decoder.modifier (rowOf b) false with
  | none => rfl
  | some key =>
    cases key with
    | altR => exact absurd hmod hne
    | _ => rfl

namespace Keyboard

variable {k : Keyboard} {d : Decoder}

/-! ## Taking bytes -/

structure Later (k k' : Keyboard) : Prop where
  early : k.early = true → k'.early = true
  count : k'.count ≤ k.count

theorem Later.refl (k : Keyboard) : k.Later k := ⟨id, Int.le_refl _⟩

theorem Later.trans {k' k'' : Keyboard} (h : k.Later k') (h' : k'.Later k'') : k.Later k'' :=
  ⟨fun he => h'.early (h.early he), Int.le_trans h'.count h.count⟩

theorem later_getByteFromKbBuf (k : Keyboard) : k.Later k.getByteFromKbBuf.2 :=
  ⟨fun h => by simp [getByteFromKbBuf, h], Int.sub_le_self _ (by decide)⟩

theorem later_expect : ∀ (l : List UInt8) (k : Keyboard), k.Later (expect l k).2
  | [], k => Later.refl k
  | b :: l, k => by
    rw [expect]
    split
    · exact (later_getByteFromKbBuf k).trans (later_expect l _)
    · exact later_getByteFromKbBuf k

theorem later_printScreen (last : UInt8) (press : Bool) (s : Scan) (k : Keyboard) :
    k.Later (k.printScreen last press s).2 := by
  have h₁ := later_getByteFromKbBuf k
  have h₂ := h₁.trans (later_getByteFromKbBuf _)
  unfold printScreen
  dsimp only
  split
  · split
    · exact h₂
    · exact h₂
  · exact h₁

theorem later_press (s : Scan) (k : Keyboard) : k.Later (k.press s).2.2 := by
  unfold press
  split
  · exact ⟨id, Int.le_refl _⟩
  · exact Later.refl k

theorem later_round (key : BitVec 32) (make : Bool) (k : Keyboard) :
    (k.parse key make).2.Later (k.round key make).2.2 := by
  have h := later_press (k.parse key make).1 (k.parse key make).2
  unfold round
  dsimp only
  split
  · exact ⟨h.early, h.count⟩
  · exact h

theorem later_parse_long (key : BitVec 32) (make : Bool)
    (hb : k.getByteFromKbBuf.1 = 0xE0 ∨ k.getByteFromKbBuf.1 = 0xE1) :
    k.getByteFromKbBuf.2.getByteFromKbBuf.2.Later (k.parse key make).2 := by
  unfold parse
  dsimp only
  rcases hb with hb | hb
  · rw [hb, if_neg (by decide), if_pos rfl]
    split
    · exact later_printScreen ..
    · split
      · exact later_printScreen ..
      · exact Later.refl _
  · rw [hb, if_pos rfl, expect]
    split
    · exact later_expect ..
    · exact Later.refl _

/-! ## One interrupt -/

structure Idle (k : Keyboard) (d : Decoder) : Prop where
  pos : k.head = k.tail
  count : k.count = 0
  stored : k.stored = k.taken
  early : k.early = false
  mods : k.mods = d.mods
  keys : k.keys = d.keys

theorem init_idle : init.Idle ⟨.none, []⟩ := ⟨rfl, rfl, rfl, rfl, rfl, rfl⟩

theorem Idle.readToBuff (h : k.Idle d) (b : UInt8) :
    (k.readToBuff b).buf (k.readToBuff b).tail = b ∧ (k.readToBuff b).count = 1 ∧
      (k.readToBuff b).stored = (k.readToBuff b).taken + 1 ∧ (k.readToBuff b).early = false ∧
      (k.readToBuff b).head = (if (k.readToBuff b).tail + 1 = kbInBytes then 0 else (k.readToBuff b).tail + 1) ∧
      (k.readToBuff b).mods = d.mods ∧ (k.readToBuff b).keys = d.keys := by
  have hlt : k.count < kbInBytes := by
    rw [h.count]
    decide
  rw [Keyboard.readToBuff, if_pos hlt]
  simp [h.pos, h.count, h.stored, h.early, h.mods, h.keys]

theorem kbdHandler_of_idle (h : k.Idle d) (b : UInt8) : k.kbdHandler b = ((k.readToBuff b).round 0 false).2.2 := by
  obtain ⟨-, hcount, -⟩ := h.readToBuff b
  rw [kbdHandler, keyboardRead, hcount]
  show readLoop 1 0 false _ = _
  rw [readLoop, if_pos (by rw [hcount]; decide)]
  rfl

theorem Idle.plain (h : k.Idle d) {b : UInt8} (hb : b ≠ 0xE0 ∧ b ≠ 0xE1) :
    (k.kbdHandler b).Idle (d.step (.plain b hb)) := by
  rw [kbdHandler_of_idle h]
  obtain ⟨hbuf, hcount, hstored, hearly, hhead, hmods, hkeys⟩ := h.readToBuff b
  generalize k.readToBuff b = k₁ at *
  have hparse : k₁.parse 0 false = (⟨b, false, 0, false⟩, k₁.getByteFromKbBuf.2) := by
    simp [parse, getByteFromKbBuf, hbuf, hb.1, hb.2]
  have hmods₁ : k₁.getByteFromKbBuf.2.mods = d.mods := hmods
  have hswitch := switch_eq_hold d.mods b (isMake b)
  have hpress : k₁.getByteFromKbBuf.2.press ⟨b, false, 0, false⟩ =
      (keymap (rowOf b) (d.mods.column (rowOf b) false), isMake b,
        k₁.getByteFromKbBuf.2.setMods ((Decoder.modifier (rowOf b) false).elim d.mods
          (Decoder.hold d.mods (isMake b)))) := by
    rw [← hswitch, ← hmods₁]
    exact if_pos (by decide : 0 ≠ Key.pauseBreak ∧ 0 ≠ Key.printScreen)
  have hring : k₁.getByteFromKbBuf.2.head = k₁.getByteFromKbBuf.2.tail ∧ k₁.getByteFromKbBuf.2.count = 0 ∧
      k₁.getByteFromKbBuf.2.stored = k₁.getByteFromKbBuf.2.taken ∧ k₁.getByteFromKbBuf.2.early = false ∧
      k₁.getByteFromKbBuf.2.keys = d.keys := by
    simp [getByteFromKbBuf, hcount, hstored, hearly, hhead, hkeys]
  obtain ⟨h₁, h₂, h₃, h₄, h₅⟩ := hring
  simp only [round, hparse, hpress, Decoder.step, Decoder.event]
  cases isMake b with
  | false => exact ⟨h₁, h₂, h₃, h₄, rfl, h₅⟩
  | true => exact ⟨h₁, h₂, h₃, h₄, rfl, congrArg (· ++ _) h₅⟩

theorem Idle.prefix_early (h : k.Idle d) {b : UInt8} (hb : b = 0xE0 ∨ b = 0xE1) :
    (k.kbdHandler b).early = true := by
  rw [kbdHandler_of_idle h]
  obtain ⟨hbuf, -, hstored, -⟩ := h.readToBuff b
  have hfirst : (k.readToBuff b).getByteFromKbBuf.1 = b := hbuf
  refine (later_round 0 false _).early ((later_parse_long 0 false (hfirst.symm ▸ hb)).early ?_)
  simp [getByteFromKbBuf, hstored]

/-! ## The whole stream -/

def RingOk (k : Keyboard) : Prop :=
  0 ≤ k.count ∧ k.count ≤ kbInBytes ∧ k.count = k.stored - k.taken ∧ k.early = false

theorem Idle.ringOk (h : k.Idle d) : k.RingOk := by
  rw [RingOk, h.count, h.stored]
  exact ⟨Int.le_refl 0, by decide, (Int.sub_self _).symm, h.early⟩

theorem Idle.run : ∀ (seqs : List ScanSeq) {k : Keyboard} {d : Decoder}, k.Idle d → (∀ q ∈ seqs, q.IsPlain) →
    ((seqs.flatMap ScanSeq.bytes).foldl kbdHandler k).Idle (seqs.foldl Decoder.step d) ∧
      ∀ pre, pre <+: seqs.flatMap ScanSeq.bytes → (pre.foldl kbdHandler k).RingOk
  | [], k, d, h, _ => by
    refine ⟨h, fun pre hpre => ?_⟩
    rw [prefix_nil.mp hpre]
    exact h.ringOk
  | q :: seqs, k, d, h, hplain => by
    cases q with
    | plain b hb =>
      obtain ⟨hend, hring⟩ := (h.plain hb).run seqs fun q hq => hplain q (mem_cons_of_mem _ hq)
      refine ⟨hend, fun pre hpre => ?_⟩
      rcases prefix_cons_iff.mp hpre with rfl | ⟨pre', rfl, hpre'⟩
      · exact h.ringOk
      · exact hring pre' hpre'
    | _ => exact absurd (hplain _ (mem_cons_self ..)) id

theorem Idle.plain_of_ring : ∀ (seqs : List ScanSeq) {k : Keyboard} {d : Decoder}, k.Idle d →
    (∀ pre, pre <+: seqs.flatMap ScanSeq.bytes → (pre.foldl kbdHandler k).early = false) → ∀ q ∈ seqs, q.IsPlain
  | [], _, _, _, _ => fun q hq => absurd hq not_mem_nil
  | q :: seqs, k, d, h, hring => by
    -- a first byte that announces more bytes is enough
    have hbad : ∀ {b : UInt8} {l : List UInt8}, q.bytes = b :: l → ¬ (b = 0xE0 ∨ b = 0xE1) := by
      intro b l hq hb
      have := hring [b] (by rw [flatMap_cons, hq]; exact ⟨l ++ seqs.flatMap ScanSeq.bytes, rfl⟩)
      rw [foldl_cons, foldl_nil, h.prefix_early hb] at this
      cases this
    cases q with
    | plain b hb =>
      intro q hq
      rcases mem_cons.mp hq with rfl | hq
      · trivial
      · refine (h.plain hb).plain_of_ring seqs (fun pre hpre => ?_) q hq
        exact hring (b :: pre) (cons_prefix_cons.mpr ⟨rfl, hpre⟩)
    | ext b hb => exact absurd (.inl rfl) (hbad rfl)
    | pause => exact absurd (.inr rfl) (hbad rfl)
    | printMake => exact absurd (.inl rfl) (hbad rfl)
    | printBreak => exact absurd (.inl rfl) (hbad rfl)

end Keyboard

/-- **Scan codes are decoded as they come** exactly when each is a sequence of its own. -/
theorem keyboard_timing (seqs : List ScanSeq) : TimingIndependent seqs ↔ ∀ q ∈ seqs, q.IsPlain := by
  constructor
  · intro h
    exact Keyboard.init_idle.plain_of_ring seqs fun pre hpre => (h.ring pre hpre).2.2.2
  · intro h
    obtain ⟨hend, hring⟩ := Keyboard.init_idle.run seqs h
    exact ⟨hend.keys, hend.mods, hring⟩

/-- The key Up: after its first byte the ring has lost count. -/
theorem keyboard_loses_up : ¬ TimingIndependent [.ext 0x48 (by decide)] := by
  intro h
  have := (h.ring [0xE0] ⟨[0x48], rfl⟩).1
  exact absurd this (by decide)

end MiniOS
