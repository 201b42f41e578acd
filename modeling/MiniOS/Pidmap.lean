import MiniOS.Word

/-!
# The bitmap of process ids

`pidmap.c`: one page of bits, taken as an array of 32-bit words, and a search that
goes on behind the last pid given out.
-/

namespace MiniOS

def bitsPerPage : Nat := 4096 * 8

structure Pidmap where
  nrFree : Nat
  page : Nat → BitVec 32
  lastPid : Int

def bitWord (offset : Nat) : Nat := offset >>> 5

def bitMask (offset : Nat) : BitVec 32 := 1#32 <<< (offset &&& 31)

def setWord (page : Nat → BitVec 32) (i : Nat) (w : BitVec 32) :
    Nat → BitVec 32 := fun j => if j = i then w else page j

def pageBit (page : Nat → BitVec 32) (i : Nat) : Bool := (page (bitWord i)).getLsbD (i &&& 31)

def testAndSetBit (offset : Nat) (page : Nat → BitVec 32) : Bool × (Nat → BitVec 32) :=
  let old := page (bitWord offset)
  (old &&& bitMask offset ≠ 0#32, setWord page (bitWord offset) (old ||| bitMask offset))

def clearBit (offset : Nat) (page : Nat → BitVec 32) : Nat → BitVec 32 :=
  setWord page (bitWord offset) (page (bitWord offset) &&& ~~~ bitMask offset)

def scanZeroBit (page : Nat → BitVec 32) : (fuel offset : Nat) → Nat
  | 0, offset => offset
  | fuel + 1, offset =>
    if ~~~ page (bitWord offset) &&& bitMask offset ≠ 0#32 then offset else scanZeroBit page fuel (offset + 1)

def findNextZeroBit (page : Nat → BitVec 32) (size offset : Nat) : Nat := scanZeroBit page (size - offset) offset

namespace Pidmap

def offsetOf (pid : Int) : Nat := (pid % bitsPerPage).toNat

def first (m : Pidmap) : Nat := offsetOf (m.lastPid + 1)

def allocPidmap (m : Pidmap) : Int × Pidmap :=
  if m.nrFree = 0 then (-1, m)
  else
    let offset := findNextZeroBit m.page bitsPerPage m.first
    if bitsPerPage ≠ offset then
      let (old, page) := testAndSetBit offset m.page
      if old then (-1, { m with page := page })
      else (offset, ⟨wsub m.nrFree 1, page, offset⟩)
    else (-1, m)

def freePidmap (m : Pidmap) (pid : Int) : Pidmap :=
  { m with nrFree := wrap (m.nrFree + 1), page := clearBit (offsetOf pid) m.page }

def used (m : Pidmap) (pid : Nat) : Bool := pageBit m.page pid

def start : Pidmap := ⟨bitsPerPage, fun _ => 0, -1⟩

def Available (m : Pidmap) : Prop := m.nrFree ≠ 0 ∧ ∃ pid, m.first ≤ pid ∧ pid < bitsPerPage ∧ m.used pid = false

end Pidmap

/-! ## Bits -/

section
variable {page : Nat → BitVec 32} {i offset : Nat}

theorem and_31 (i : Nat) : i &&& 31 = i % 32 := Nat.and_two_pow_sub_one_eq_mod i 5

theorem bitWord_eq (i : Nat) : bitWord i = i / 32 := Nat.shiftRight_eq_div_pow i 5

theorem getLsbD_bitMask (i k : Nat) : (bitMask i).getLsbD k = decide (k = i % 32) := by
  have hi : i % 32 < 32 := Nat.mod_lt _ (by decide)
  rw [bitMask, and_31, BitVec.getLsbD_shiftLeft, BitVec.getLsbD_one]
  by_cases h : k = i % 32
  · simp [h, hi]
  · have : k < i % 32 ∨ k - i % 32 ≠ 0 := by omega
    rcases this with h' | h' <;> simp [h, h']

theorem and_bitMask_eq_zero (w : BitVec 32) (i : Nat) : w &&& bitMask i = 0#32 ↔ w.getLsbD (i % 32) = false := by
  have hi : i % 32 < 32 := Nat.mod_lt _ (by decide)
  constructor
  · intro h
    have := congrArg (BitVec.getLsbD · (i % 32)) h
    simpa [getLsbD_bitMask] using this
  · intro h
    refine BitVec.eq_of_getLsbD_eq fun k _ => ?_
    rw [BitVec.getLsbD_and, getLsbD_bitMask]
    by_cases e : k = i % 32
    · rw [e, h]
      simp
    · simp [e]

theorem pageBit_eq (page : Nat → BitVec 32) (i : Nat) : pageBit page i = (page (i / 32)).getLsbD (i % 32) := by
  rw [pageBit, bitWord_eq, and_31]

theorem pageBit_update {w : BitVec 32} {b : Bool} (hb : w.getLsbD (offset % 32) = b)
    (hw : ∀ k, k < 32 → k ≠ offset % 32 → w.getLsbD k = (page (offset / 32)).getLsbD k) (i : Nat) :
    pageBit (setWord page (bitWord offset) w) i = if i = offset then b else pageBit page i := by
  rw [pageBit_eq, pageBit_eq, bitWord_eq, setWord]
  by_cases e : i / 32 = offset / 32
  · rw [if_pos e, e]
    split
    · next h => rw [h, hb]
    · exact hw _ (Nat.mod_lt _ (by decide)) (by omega)
  · rw [if_neg e, if_neg fun h => e (by rw [h])]

theorem testAndSetBit_fst : (testAndSetBit offset page).1 = pageBit page offset := by
  have h := and_bitMask_eq_zero (page (offset / 32)) offset
  rw [pageBit_eq, testAndSetBit, bitWord_eq]
  cases hb : (page (offset / 32)).getLsbD (offset % 32) <;> simp [h, hb]

theorem pageBit_testAndSetBit (i : Nat) :
    pageBit (testAndSetBit offset page).2 i = if i = offset then true else pageBit page i := by
  refine pageBit_update ?_ (fun k _ hk => ?_) i
  · rw [BitVec.getLsbD_or, getLsbD_bitMask]
    simp
  · rw [BitVec.getLsbD_or, getLsbD_bitMask, bitWord_eq]
    simp [hk]

theorem pageBit_clearBit (i : Nat) :
    pageBit (clearBit offset page) i = if i = offset then false else pageBit page i := by
  refine pageBit_update ?_ (fun k hlt hk => ?_) i
  · rw [BitVec.getLsbD_and, BitVec.getLsbD_not, getLsbD_bitMask]
    simp
  · rw [BitVec.getLsbD_and, BitVec.getLsbD_not, getLsbD_bitMask, bitWord_eq]
    simp [hk, hlt]

theorem scan_test : ~~~ page (bitWord offset) &&& bitMask offset ≠ 0#32 ↔ pageBit page offset = false := by
  have hi : offset % 32 < 32 := Nat.mod_lt _ (by decide)
  rw [ne_eq, and_bitMask_eq_zero, BitVec.getLsbD_not, pageBit_eq, bitWord_eq]
  simp [hi]

theorem scanZeroBit_spec {fuel r : Nat} (h : scanZeroBit page fuel offset = r) :
    offset ≤ r ∧ r ≤ offset + fuel ∧ (r < offset + fuel → pageBit page r = false) ∧
      ∀ i, offset ≤ i → i < r → pageBit page i = true := by
  induction fuel generalizing offset with
  | zero =>
    cases h
    exact ⟨Nat.le_refl _, Nat.le_refl _, fun h => absurd h (Nat.lt_irrefl _),
      fun i h₁ h₂ => absurd h₂ (Nat.not_lt.mpr h₁)⟩
  | succ fuel ih =>
    rw [scanZeroBit] at h
    split at h
    · next hz =>
      cases h
      exact ⟨Nat.le_refl _, Nat.le_add_right .., fun _ => scan_test.mp hz,
        fun i h₁ h₂ => absurd h₂ (Nat.not_lt.mpr h₁)⟩
    · next hz =>
      have hone : pageBit page offset = true := Bool.not_eq_false _ ▸ fun h => hz (scan_test.mpr h)
      obtain ⟨h₁, h₂, h₃, h₄⟩ := ih h
      refine ⟨by omega, by omega, fun hr => h₃ (by omega), fun i hi hr => ?_⟩
      by_cases e : i = offset
      · rw [e, hone]
      · exact h₄ i (by omega) hr

end

/-! ## Pids -/

namespace Pidmap

variable {m m' : Pidmap} {r : Int}

theorem offsetOf_lt (pid : Int) : offsetOf pid < bitsPerPage := by
  unfold offsetOf bitsPerPage
  omega

theorem offsetOf_of_lt {pid : Nat} (h : pid < bitsPerPage) : offsetOf pid = pid := by
  unfold offsetOf bitsPerPage at *
  omega

theorem allocPidmap_cases (h : m.allocPidmap = (r, m')) :
    (r = -1 ∧ m' = m ∧ ¬ m.Available) ∨
      ∃ pid : Nat, r = pid ∧ pid < bitsPerPage ∧ m.first ≤ pid ∧ (∀ i, m.first ≤ i → i < pid → m.used i = true) ∧
        m.used pid = false ∧ m.Available ∧ m'.nrFree = wsub m.nrFree 1 ∧ m'.lastPid = pid ∧
        ∀ i, m'.used i = if i = pid then true else m.used i := by
  unfold allocPidmap at h
  split at h
  · next hz => cases h; exact .inl ⟨rfl, rfl, fun h => h.1 hz⟩
  next hz =>
  have hlt := offsetOf_lt (m.lastPid + 1)
  obtain ⟨h₁, h₂, h₃, h₄⟩ := scanZeroBit_spec (show scanZeroBit m.page (bitsPerPage - m.first) m.first = _ from
    Eq.refl (findNextZeroBit m.page bitsPerPage m.first))
  rw [show m.first + (bitsPerPage - m.first) = bitsPerPage from Nat.add_sub_of_le (Nat.le_of_lt hlt)] at h₂ h₃
  generalize findNextZeroBit m.page bitsPerPage m.first = pid at h h₁ h₂ h₃ h₄
  dsimp only at h
  split at h
  · next hne =>
    have hpid : pid < bitsPerPage := by omega
    have hfree := h₃ hpid
    rw [testAndSetBit_fst, hfree, if_neg Bool.false_ne_true] at h
    cases h
    exact .inr ⟨pid, rfl, hpid, h₁, h₄, hfree, ⟨hz, pid, h₁, hpid, hfree⟩, rfl, rfl, pageBit_testAndSetBit⟩
  · next he =>
    cases h
    refine .inl ⟨rfl, rfl, fun ⟨_, i, hi₁, hi₂, hi₃⟩ => ?_⟩
    have := h₄ i hi₁ (by omega)
    rw [used, this] at hi₃
    cases hi₃

theorem allocPidmap_first (hn : m.nrFree ≠ 0) (hu : m.used m.first = false) :
    ∃ m', m.allocPidmap = (↑m.first, m') ∧ m'.nrFree = wsub m.nrFree 1 ∧ m'.lastPid = m.first ∧
      ∀ i, m'.used i = if i = m.first then true else m.used i := by
  cases hm : m.allocPidmap with | mk r m'
  rcases allocPidmap_cases hm with ⟨-, -, hno⟩ | ⟨pid, rfl, hlt, hf, hall, -, -, hn', hl, hused⟩
  · exact absurd ⟨hn, m.first, Nat.le_refl _, offsetOf_lt _, hu⟩ hno
  · have e : pid = m.first := by
      refine Nat.le_antisymm (Nat.not_lt.mp fun hgt => ?_) hf
      rw [hall _ (Nat.le_refl _) hgt] at hu
      cases hu
    rw [e] at hl hused ⊢
    exact ⟨m', rfl, hn', hl, hused⟩

theorem freePidmap_used {pid : Nat} (hp : pid < bitsPerPage) (i : Nat) :
    (m.freePidmap pid).used i = if i = pid then false else m.used i := by
  rw [used, freePidmap, offsetOf_of_lt hp]
  exact pageBit_clearBit i

end Pidmap

end MiniOS
