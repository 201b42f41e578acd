import MiniOS.Chain
import MiniOS.Runs
import Mathlib.Logic.Function.Basic

/-!
# The buffer cache

`buffer.c` and `block_read` of `rw_block.c`. A buffer is the address of its `buffer_head`.
The answers of `kmalloc` and of `ide_read` are arguments; `none` is a panic, or a search
that has run out of fuel.
-/

namespace MiniOS

open Function

def hashSize : Nat := 1024

def bufferHash (dev block : UInt32) : Nat := (dev ^^^ block).toNat % hashSize

structure BufferHead where
  bBlocknr : UInt32
  bDev : UInt32
  bUptodate : Bool
  bCount : UInt8

/-- `buffer_hash`, the links `list_free.next`, the buffers and `buffer_count`. The last two
fields are not in the source: the buffers that have been allocated and not freed, and the
block that was read into a buffer. -/
structure Buffers where
  first : Nat → Nat
  next : Nat → Nat
  buf : Nat → BufferHead
  bufferCount : Int
  live : List Nat
  readFrom : Nat → Option (UInt32 × UInt32)

namespace Buffers

def empty : Buffers := ⟨fun _ => 0, fun _ => 0, fun _ => ⟨0, 0, false, 0⟩, 0, [], fun _ => none⟩

def setBuf (s : Buffers) (x : Nat) (b : BufferHead) : Buffers := { s with buf := update s.buf x b }

def getBufferHash (s : Buffers) (fuel : Nat) (dev block : UInt32) : Option Nat :=
  chainFind s.next 0 (fun tmp => (s.buf tmp).bDev = dev ∧ (s.buf tmp).bBlocknr = block) fuel
    (s.first (bufferHash dev block))

def insertIntoHash (s : Buffers) (x : Nat) : Buffers :=
  let h := bufferHash (s.buf x).bDev (s.buf x).bBlocknr
  { s with
    next := update s.next x (s.first h)
    first := update s.first h x
    bufferCount := s.bufferCount + 1 }

def bufferAlloc (s : Buffers) (mem : Nat) (dev block : UInt32) : Nat × Buffers :=
  if mem = 0 then (0, s)
  else (mem, { s.setBuf mem ⟨block, dev, false, 0⟩ with
    next := update s.next mem 0
    live := s.live ++ [mem]
    readFrom := update s.readFrom mem none })

def bufferGet (s : Buffers) (fuel mem : Nat) (dev block : UInt32) : Option (Nat × Buffers) :=
  (s.getBufferHash fuel dev block).bind fun tmp =>
    if tmp ≠ 0 then some (tmp, s)
    else
      let (tmp, s) := s.bufferAlloc mem dev block
      if tmp = 0 then some (0, s)
      else some (tmp, (s.setBuf tmp { s.buf tmp with bCount := 1 }).insertIntoHash tmp)

def major (dev : UInt32) : UInt32 := (dev >>> 8) &&& 0xFF

def blockRead (s : Buffers) (x : Nat) (retval : Int) : Option Buffers :=
  if major (s.buf x).bDev ≠ 3 then none
  else if retval = 0 then
    some { s.setBuf x { s.buf x with bUptodate := true } with
      readFrom := update s.readFrom x (some ((s.buf x).bDev, (s.buf x).bBlocknr)) }
  else some s

def bufferRead (s : Buffers) (fuel mem : Nat) (retval : Int) (dev block : UInt32) : Option (Nat × Buffers) :=
  (s.bufferGet fuel mem dev block).bind fun (x, s) =>
    if x = 0 then some (0, s)
    else if (s.buf x).bUptodate then some (x, s)
    else (s.blockRead x retval).bind fun s => some (if (s.buf x).bUptodate then (x, s) else (0, s))

def bufferFree (s : Buffers) (x : Nat) : Buffers :=
  let s := s.setBuf x { s.buf x with bCount := (s.buf x).bCount - 1 }
  if (s.buf x).bCount = 0 then { s with live := s.live.erase x, bufferCount := s.bufferCount - 1 } else s

end Buffers

inductive BufferOp
  | get (dev block : UInt32) (mem : Nat)
  | read (dev block : UInt32) (mem : Nat) (retval : Int)
  | free (x : Nat)

namespace Buffers

def call (fuel : Nat) (s : Buffers) : BufferOp → Option (Nat × Buffers)
  | .get dev block mem => s.bufferGet fuel mem dev block
  | .read dev block mem retval => s.bufferRead fuel mem retval dev block
  | .free x => some (0, s.bufferFree x)

def after (fuel : Nat) (s : Buffers) (op : BufferOp) : Buffers := ((s.call fuel op).getD (0, s)).2

/-- `kmalloc` fails or answers memory that is no buffer, what is freed is a buffer, and
`block_read` knows the device; the fuel is more than the longest chain needs. -/
def Allowed (fuel : Nat) (s : Buffers) (op : BufferOp) : Prop :=
  s.live.length < fuel ∧
    match op with
    | .get _ _ mem => mem ∉ s.live
    | .read _ _ mem _ => mem ∉ s.live ∧ (s.call fuel op).isSome
    | .free x => x ∈ s.live

def InTable (s : Buffers) (x : Nat) : Prop := ∃ b xs, Chain s.next 0 (s.first b) xs ∧ x ∈ xs

structure Coherent (s : Buffers) : Prop where
  chains : ∀ b, ∃ xs, Chain s.next 0 (s.first b) xs
  one : ∀ x y, s.InTable x → s.InTable y → (s.buf x).bDev = (s.buf y).bDev →
    (s.buf x).bBlocknr = (s.buf y).bBlocknr → x = y
  live : ∀ x, s.InTable x → x ∈ s.live
  count : ∃ xs : List Nat, xs.Nodup ∧ (∀ x, x ∈ xs ↔ s.InTable x) ∧ s.bufferCount = xs.length

def Answers (s : Buffers) (x : Nat) : BufferOp → Prop
  | .read dev block _ _ => x ≠ 0 → (s.buf x).bUptodate = true ∧ s.readFrom x = some (dev, block)
  | _ => True

def CallOk (fuel : Nat) (s : Buffers) (op : BufferOp) : Prop :=
  ∃ x s', s.call fuel op = some (x, s') ∧ s'.Coherent ∧ s'.Answers x op

end Buffers

def BufferOp.KeepsBuffers : BufferOp → Prop
  | .free _ => False
  | _ => True

end MiniOS
