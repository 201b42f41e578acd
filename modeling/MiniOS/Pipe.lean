import MiniOS.Layout
import MiniOS.Word
import Mathlib.Logic.Function.Basic

/-!
# Pipes

The ring of one page behind a pipe and the two system calls on it. The positions
count bytes since the pipe was made; the cell is the position modulo the page.
-/

namespace MiniOS

structure PipeInodeInfo where
  pPage : Nat → UInt8
  pRpos : Nat
  pWpos : Nat
  pReader : Int
  pWriter : Int

def getPipeInfo : PipeInodeInfo :=
  { pPage := fun _ => 0, pRpos := 0, pWpos := 0, pReader := 1, pWriter := 1 }

def PipeInodeInfo.put (info : PipeInodeInfo) (b : UInt8) : PipeInodeInfo :=
  { info with
    pPage := Function.update info.pPage (info.pWpos % pageSize) b
    pWpos := wrap (info.pWpos + 1) }

-- A full page ends the loop at once: the source's `i >= 0` holds always, so that
-- the look at `p_reader` after it is never reached.
def writeLoop (buf : Nat → UInt8) : Nat → Nat → PipeInodeInfo → Nat × PipeInodeInfo
  | 0, i, info => (i, info)
  | left + 1, i, info =>
    if wrap (info.pRpos + pageSize) ≤ info.pWpos then (i, info)
    else writeLoop buf left (i + 1) (info.put (buf i))

def pipefsFileWrite (info : PipeInodeInfo) (buf : Nat → UInt8) (count : Int) :
    Nat × PipeInodeInfo :=
  writeLoop buf count.toNat 0 info

def PipeInodeInfo.front (info : PipeInodeInfo) : UInt8 := info.pPage (info.pRpos % pageSize)

def PipeInodeInfo.advance (info : PipeInodeInfo) : PipeInodeInfo :=
  { info with pRpos := wrap (info.pRpos + 1) }

/-- The bytes are those left in the caller's buffer; the result is their number. -/
def readLoop : Nat → Nat → PipeInodeInfo → List UInt8 × PipeInodeInfo
  | 0, _, info => ([], info)
  | left + 1, i, info =>
    if info.pRpos = info.pWpos ∧ (0 < i ∨ info.pWriter = 0) then ([], info)
    else
      let r := readLoop left (i + 1) info.advance
      (info.front :: r.1, r.2)

def pipefsFileRead (info : PipeInodeInfo) (count : Int) : List UInt8 × PipeInodeInfo :=
  readLoop count.toNat 0 info

/-! ## A pipe in use -/

inductive PipeOp where
  | write (buf : Nat → UInt8) (count : Int)
  | read (count : Int)

structure PipeLog where
  info : PipeInodeInfo
  accepted : List UInt8
  returned : List UInt8

def PipeLog.fresh : PipeLog := ⟨getPipeInfo, [], []⟩

def PipeLog.step (s : PipeLog) : PipeOp → PipeLog
  | .write buf count =>
    let r := pipefsFileWrite s.info buf count
    { s with info := r.2, accepted := s.accepted ++ (List.range r.1).map buf }
  | .read count =>
    let r := pipefsFileRead s.info count
    { s with info := r.2, returned := s.returned ++ r.1 }

def PipeLog.run (s : PipeLog) (ops : List PipeOp) : PipeLog := ops.foldl PipeLog.step s

def PipeLog.Fifo (s : PipeLog) : Prop :=
  s.returned <+: s.accepted ∧ s.accepted.length ≤ s.returned.length + pageSize

def PipeLog.Supplied (s : PipeLog) : PipeOp → Prop
  | .write _ _ => True
  | .read count => 0 < count → s.info.pRpos ≠ s.info.pWpos

end MiniOS
