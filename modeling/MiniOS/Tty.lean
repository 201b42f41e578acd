import MiniOS.Keymap
import MiniOS.Runs
import Mathlib.Algebra.Group.Nat.Defs
import Mathlib.Logic.Function.Basic

/-!
# The terminal queue

`char/tty_io.c`: `handle_key` appends the keys it accepts to `read_q`, and `tty_read` takes
them out through a pointer of its own. The pointer is an index of `read_q.buf`, counted in
`int`s and on beyond the slots.
-/

namespace MiniOS

def ttyBufSize : Nat := 256

def eeof : BitVec 32 := 38

/-- `buf` goes on behind its slots with the memory that follows. -/
structure TtyQueue where
  head : Nat
  tail : Nat
  buf : Nat → BitVec 32

/-- What `handle_key` does to a key before the label `inkey`; `none` is a `return`. -/
def acceptKey (key : BitVec 32) : Option (BitVec 32) :=
  if key &&& flagExt = 0 then
    if key &&& flagCtrlL ≠ 0 then
      if key &&& 0xFF = 0x64 then some (-eeof) else none
    else some (key &&& 0xFF)
  else if key &&& maskRaw = Key.enter then some 0x0A
  else if key &&& maskRaw = Key.backspace then some 0x08
  else none

namespace TtyQueue

variable (q : TtyQueue)

def next (i : Nat) : Nat := if ttyBufSize ≤ i + 1 then 0 else i + 1

def inkey (key : BitVec 32) : TtyQueue :=
  { q with buf := Function.update q.buf q.tail key, tail := next q.tail }

def handleKey (key : BitVec 32) : TtyQueue :=
  match acceptKey key with
  | none => q
  | some key => q.inkey key

-- `start` goes straight on where `head` goes back to the first slot.
def readLoop : (left start : Nat) → TtyQueue → List Nat × TtyQueue
  | 0, _, q => ([], q)
  | left + 1, start, q =>
    if start = q.tail then ([], q)
    else
      let r := readLoop left ((start + 1) % 2 ^ 30) { q with head := next q.head }
      (start :: r.1, r.2)

def ttyRead (nr : Int) : List Nat × TtyQueue := readLoop nr.toNat q.head q

end TtyQueue

/-! ## A terminal in use -/

inductive TtyOp where
  | key (key : BitVec 32)
  | read (nr : Int)

structure TtyLog where
  q : TtyQueue
  appended : List (BitVec 32)
  delivered : List (BitVec 32)

namespace TtyLog

variable (s : TtyLog)

def fresh (behind : Nat → BitVec 32) : TtyLog :=
  ⟨⟨0, 0, fun i => if i < ttyBufSize then 0 else behind i⟩, [], []⟩

def step (s : TtyLog) : TtyOp → TtyLog
  | .key key => { s with q := s.q.handleKey key, appended := s.appended ++ (acceptKey key).toList }
  | .read nr =>
    let r := s.q.ttyRead nr
    { s with q := r.2, delivered := s.delivered ++ r.1.map s.q.buf }

def unread : Nat := s.appended.length - s.delivered.length

def Fifo : TtyOp → Prop
  | .key key => (s.step (.key key)).delivered <+: (s.step (.key key)).appended
  | .read nr =>
    (s.step (.read nr)).delivered <+: s.appended ∧ (s.q.ttyRead nr).1.length = min nr.toNat s.unread ∧
      ∀ i ∈ (s.q.ttyRead nr).1, i < ttyBufSize

/-- The keys that are unread do not go round the end of the buffer, or the read stops there. -/
def Fits : TtyOp → Prop
  | .key _ => True
  | .read nr => s.q.head ≤ s.q.tail ∨ nr ≤ ttyBufSize - s.q.head

end TtyLog

end MiniOS
