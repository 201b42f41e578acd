import MiniOS.Keymap
import Mathlib.Logic.Function.Basic

/-!
# The keyboard

`char/keyboard.c`: every interrupt stores one byte in a ring of 32 and then runs the parser
until the ring is empty. The parser takes the further bytes of a sequence from the ring
without a look at the count.
-/

namespace MiniOS

open Key

def kbInBytes : Nat := 32

structure Mods where
  shiftL : Bool
  shiftR : Bool
  ctrlL : Bool
  ctrlR : Bool
  altL : Bool
  altR : Bool
  capsLock : Bool
  numLock : Bool
  scrollLock : Bool
deriving DecidableEq

/-- `keys` are the arguments `handle_key` got. The last three fields are not in the source: the bytes
stored and taken so far, and whether one was taken before it was stored. -/
structure Keyboard where
  buf : Nat → UInt8
  head : Nat
  tail : Nat
  count : Int
  mods : Mods
  keys : List (BitVec 32)
  stored : Nat
  taken : Nat
  early : Bool

inductive ModKey where
  | shiftL | shiftR | ctrlL | ctrlR | altL | altR | capsLock | numLock | scrollLock
deriving DecidableEq

def modKey (key : BitVec 32) : Option ModKey :=
  if key = shiftL then some .shiftL
  else if key = shiftR then some .shiftR
  else if key = ctrlL then some .ctrlL
  else if key = ctrlR then some .ctrlR
  else if key = altL then some .altL
  else if key = altR then some .altR
  else if key = capsLock then some .capsLock
  else if key = numLock then some .numLock
  else if key = scrollLock then some .scrollLock
  else none

namespace Mods

variable (m : Mods)

def none : Mods := ⟨false, false, false, false, false, false, false, false, false⟩

-- The right Alt key sets the flag of the left one.
def switch (make : Bool) : ModKey → Mods
  | .shiftL => { m with shiftL := make }
  | .shiftR => { m with shiftR := make }
  | .ctrlL => { m with ctrlL := make }
  | .ctrlR => { m with ctrlR := make }
  | .altL => { m with altL := make }
  | .altR => { m with altL := make }
  | .capsLock => if make then { m with capsLock := !m.capsLock } else m
  | .numLock => if make then { m with numLock := !m.numLock } else m
  | .scrollLock => if make then { m with scrollLock := !m.scrollLock } else m

def column (row : Nat) (codeWithE0 : Bool) : Nat :=
  let caps := m.shiftL || m.shiftR
  let letter := ch 'a' ≤ keymap row 0 && keymap row 0 ≤ ch 'z'
  let caps := if m.capsLock && letter then !caps else caps
  if codeWithE0 then 2 else if caps then 1 else 0

def padKey (key : BitVec 32) : BitVec 32 :=
  if key = padSlash then 0x2F
  else if key = padStar then 0x2A
  else if key = padMinus then 0x2D
  else if key = padPlus then 0x2B
  else if key = padEnter then enter
  else if m.numLock then
    if pad0 ≤ key ∧ key ≤ pad9 then key - pad0 + ch '0'
    else if key = padDot then 0x2E
    else key
  else if key = padHome then home
  else if key = padEnd then endKey
  else if key = padPageUp then pageUp
  else if key = padPageDown then pageDown
  else if key = padIns then insert
  else if key = padUp then up
  else if key = padDown then down
  else if key = padLeft then left
  else if key = padRight then right
  else if key = padDot then delete
  else key

def keyValue (key : BitVec 32) : BitVec 32 :=
  let pad : Bool := padSlash ≤ key && key ≤ pad9
  let key := if pad then m.padKey key else key
  key ||| (if m.shiftL then flagShiftL else 0) ||| (if m.shiftR then flagShiftR else 0) |||
    (if m.ctrlL then flagCtrlL else 0) ||| (if m.ctrlR then flagCtrlR else 0) |||
    (if m.altL then flagAltL else 0) ||| (if m.altR then flagAltR else 0) ||| (if pad then flagPad else 0)

end Mods

def isMake (scan : UInt8) : Bool := scan &&& 0x80 = 0

def rowOf (scan : UInt8) : Nat := (scan &&& 0x7F).toNat

structure Scan where
  scan : UInt8
  codeWithE0 : Bool
  key : BitVec 32
  make : Bool

namespace Keyboard

variable (k : Keyboard)

def readToBuff (scan : UInt8) : Keyboard :=
  if k.count < kbInBytes then
    { k with
      buf := Function.update k.buf k.head scan
      head := if k.head + 1 = kbInBytes then 0 else k.head + 1
      count := k.count + 1
      stored := k.stored + 1 }
  else k

def getByteFromKbBuf : UInt8 × Keyboard :=
  (k.buf k.tail,
    { k with
      tail := if k.tail + 1 = kbInBytes then 0 else k.tail + 1
      count := k.count - 1
      taken := k.taken + 1
      early := k.early || k.stored ≤ k.taken })

def expect : List UInt8 → Keyboard → Bool × Keyboard
  | [], k => (true, k)
  | b :: l, k => if k.getByteFromKbBuf.1 = b then expect l k.getByteFromKbBuf.2 else (false, k.getByteFromKbBuf.2)

def printScreen (last : UInt8) (press : Bool) (s : Scan) : Scan × Keyboard :=
  let (scan, k) := k.getByteFromKbBuf
  if scan = 0xE0 then
    let (scan, k) := k.getByteFromKbBuf
    if scan = last then (⟨scan, true, Key.printScreen, press⟩, k) else (⟨scan, true, s.key, s.make⟩, k)
  else (⟨scan, false, s.key, s.make⟩, k)

def parse (key : BitVec 32) (make : Bool) : Scan × Keyboard :=
  let (scan, k) := k.getByteFromKbBuf
  if scan = 0xE1 then
    let (isPausebreak, k) := expect [0x1D, 0x45, 0xE1, 0x9D, 0xC5] k
    (⟨scan, false, if isPausebreak then Key.pauseBreak else key, make⟩, k)
  else if scan = 0xE0 then
    let (scan, k) := k.getByteFromKbBuf
    if scan = 0x2A then k.printScreen 0x37 true ⟨scan, false, key, make⟩
    else if scan = 0xB7 then k.printScreen 0xAA false ⟨scan, false, key, make⟩
    else (⟨scan, true, key, make⟩, k)
  else (⟨scan, false, key, make⟩, k)

def setMods (mods : Mods) : Keyboard := { k with mods := mods }

def handleKey (key : BitVec 32) : Keyboard := { k with keys := k.keys ++ [key] }

/-- What follows the parser in one round; the new values of `key` and `make`. -/
def press (s : Scan) : BitVec 32 × Bool × Keyboard :=
  if s.key ≠ Key.pauseBreak ∧ s.key ≠ Key.printScreen then
    let make := isMake s.scan
    let key := keymap (rowOf s.scan) (k.mods.column (rowOf s.scan) s.codeWithE0)
    let k := k.setMods ((modKey key).elim k.mods (k.mods.switch make))
    (key, make, k)
  else (s.key, s.make, k)

def round (key : BitVec 32) (make : Bool) : BitVec 32 × Bool × Keyboard :=
  let (s, k) := k.parse key make
  let (key, make, k) := k.press s
  if make then (k.mods.keyValue key, make, k.handleKey (k.mods.keyValue key)) else (key, make, k)

-- Each round takes a byte at least, so that as many rounds as there are bytes are enough.
def readLoop : (fuel : Nat) → BitVec 32 → Bool → Keyboard → Keyboard
  | 0, _, _, k => k
  | fuel + 1, key, make, k =>
    if 0 < k.count then
      let (key, make, k) := k.round key make
      readLoop fuel key make k
    else k

def keyboardRead : Keyboard := readLoop k.count.toNat 0 false k

def kbdHandler (scan : UInt8) : Keyboard := (k.readToBuff scan).keyboardRead

def init : Keyboard := ⟨fun _ => 0, 0, 0, 0, .none, [], 0, 0, false⟩

def run (bytes : List UInt8) : Keyboard := bytes.foldl kbdHandler init

end Keyboard

/-! ## The reference decoder -/

inductive ScanSeq where
  | plain (b : UInt8) (h : b ≠ 0xE0 ∧ b ≠ 0xE1)
  | ext (b : UInt8) (h : b ≠ 0x2A ∧ b ≠ 0xB7)
  | pause
  | printMake
  | printBreak

namespace ScanSeq

def bytes : ScanSeq → List UInt8
  | .plain b _ => [b]
  | .ext b _ => [0xE0, b]
  | .pause => [0xE1, 0x1D, 0x45, 0xE1, 0x9D, 0xC5]
  | .printMake => [0xE0, 0x2A, 0xE0, 0x37]
  | .printBreak => [0xE0, 0xB7, 0xE0, 0xAA]

def IsPlain : ScanSeq → Prop
  | .plain _ _ => True
  | _ => False

end ScanSeq

structure Decoder where
  mods : Mods
  keys : List (BitVec 32)

namespace Decoder

def modifier (row : Nat) (ext : Bool) : Option ModKey :=
  match ext, row with
  | false, 0x2A => some .shiftL
  | false, 0x36 => some .shiftR
  | false, 0x1D => some .ctrlL
  | true, 0x1D => some .ctrlR
  | false, 0x38 => some .altL
  | true, 0x38 => some .altR
  | false, 0x3A => some .capsLock
  | false, 0x45 => some .numLock
  | false, 0x46 => some .scrollLock
  | _, _ => none

def hold (m : Mods) (make : Bool) : ModKey → Mods
  | .altR => { m with altR := make }
  | key => m.switch make key

def emit (d : Decoder) (key : BitVec 32) : Decoder := { d with keys := d.keys ++ [d.mods.keyValue key] }

def event (d : Decoder) (row : Nat) (ext make : Bool) : Decoder :=
  let key := keymap row (d.mods.column row ext)
  let d := { d with mods := (modifier row ext).elim d.mods (hold d.mods make) }
  if make then d.emit key else d

def step (d : Decoder) : ScanSeq → Decoder
  | .plain b _ => d.event (rowOf b) false (isMake b)
  | .ext b _ => d.event (rowOf b) true (isMake b)
  | .pause => d.emit pauseBreak
  | .printMake => d.emit printScreen
  | .printBreak => d

def decode (seqs : List ScanSeq) : Decoder := seqs.foldl step ⟨.none, []⟩

end Decoder

/-- Interrupt by interrupt, the keyboard does what the decoder does with the whole stream, and keeps
its ring in order. -/
structure TimingIndependent (seqs : List ScanSeq) : Prop where
  keys : (Keyboard.run (seqs.flatMap ScanSeq.bytes)).keys = (Decoder.decode seqs).keys
  mods : (Keyboard.run (seqs.flatMap ScanSeq.bytes)).mods = (Decoder.decode seqs).mods
  ring : ∀ pre, pre <+: seqs.flatMap ScanSeq.bytes → 0 ≤ (Keyboard.run pre).count ∧
    (Keyboard.run pre).count ≤ kbInBytes ∧
    (Keyboard.run pre).count = (Keyboard.run pre).stored - (Keyboard.run pre).taken ∧
    (Keyboard.run pre).early = false

end MiniOS
