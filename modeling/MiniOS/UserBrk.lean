import MiniOS.Vma
import MiniOS.Errno

/-!
# The break of a user program

`brk` and `sbrk` of `lib/brk.c` over the kernel's `brk`, from the heap that `load_icode`
sets up and through `fork`. The variables of the library are memory of the program, so
a child starts with its parent's. A history follows one task; at a fork it goes on in
the child, and in the parent a fork changes nothing of this state.
-/

namespace MiniOS

namespace Mm

def setBrk (m : Mm) (startBrk endBrk : Nat) : Mm := { m with startBrk := startBrk, endBrk := endBrk }

def loadHeap (m : Mm) (endCode endData flags mem fuel : Nat) : Option Mm := do
  let startBrk := roundUp (if endData ≠ 0 then endData else endCode) pageSize
  let m := m.setBrk startBrk (wrap (startBrk + pageSize))
  let (vma, m) ← m.createVma startBrk pageSize flags mem fuel
  if vma = 0 then none else return m

def taskSetVm (m : Mm) : Mm := (allocMm m.heap).setBrk m.startBrk m.endBrk

def copyTask (src : Mm) (fuel : Nat) : (left vma : Nat) → List Nat → Mm → Option (Int × Mm)
  | 0, _, _, _ => none
  | left + 1, vma, mems, dest =>
    if vma = 0 then some (0, dest)
    else do
      let start := (src.heap vma).vmStart
      let (foo, dest) ← dest.createVma start (wsub (src.heap vma).vmEnd start) (src.heap vma).vmFlags
        (mems.headD 0) fuel
      if foo = 0 then return (-enomem, dest)
      else src.copyTask fuel left (src.heap vma).vmNext mems.tail dest

end Mm

structure UserBrk where
  mm : Mm
  startbrk : Nat
  curbrk : Nat

namespace UserBrk

def start (mm : Mm) : UserBrk := ⟨mm, 0, 0⟩

def sysBrk (s : UserBrk) (endData fuel : Nat) : Option (Nat × UserBrk) :=
  (s.mm.brk endData fuel).map fun (va, mm) => (va, { s with mm := mm })

def brk (s : UserBrk) (endData fuel : Nat) : Option (Nat × UserBrk) :=
  (if s.startbrk = 0 then (s.sysBrk 0 fuel).map fun (va, s) => { s with startbrk := va, curbrk := va }
    else some s).bind fun s =>
  (s.sysBrk endData fuel).map fun (va, s) => (va, if va = endData then { s with curbrk := va } else s)

def sbrk (s : UserBrk) (inc fuel : Nat) : Option (Nat × UserBrk) :=
  (if s.curbrk = 0 then (s.brk 0 fuel).map Prod.snd else some s).bind fun s =>
  let tmp := s.curbrk
  (s.brk (wrap (s.curbrk + inc)) fuel).map fun (va, s) => (if va ≠ 0 then tmp else 0, s)

def fork (s : UserBrk) (mems : List Nat) (fuel : Nat) : Option UserBrk := do
  let (retval, mm) ← s.mm.copyTask fuel fuel s.mm.mmap mems s.mm.taskSetVm
  if retval < 0 then none else return { s with mm := mm }

end UserBrk

inductive BrkOp where
  | brk (endData fuel : Nat)
  | sbrk (inc fuel : Nat)
  | fork (mems : List Nat) (fuel : Nat)
  deriving DecidableEq

namespace BrkOp

def IsCall : BrkOp → Prop
  | .brk .. | .sbrk .. => True
  | .fork .. => False

end BrkOp

namespace UserBrk

def call (s : UserBrk) : BrkOp → Option (Nat × UserBrk)
  | .brk endData fuel => s.brk endData fuel
  | .sbrk inc fuel => s.sbrk inc fuel
  | .fork mems fuel => (s.fork mems fuel).map fun s => (0, s)

def next (s : UserBrk) (op : BrkOp) : UserBrk := ((s.call op).map Prod.snd).getD s

def Allowed (s : UserBrk) (op : BrkOp) : Prop :=
  s.call op ≠ none ∧
  match op with
  | .brk endData _ => endData < 2 ^ 32
  | .sbrk inc _ => inc < 2 ^ 32
  | .fork .. => True

end UserBrk

def HeapCovers (m : Mm) (p inc : Nat) : Prop :=
  ∀ x, p ≤ x → x < p + inc → ∃ vma, HeapArea m vma ∧ (m.heap vma).vmStart ≤ x ∧ x < (m.heap vma).vmEnd

namespace UserBrk

def Agrees (s : UserBrk) : Prop := s.curbrk = s.mm.endBrk

/-- `sbrk` answers the old break and no other address, and only if the heap area has the
increment now. -/
def SbrkRight (s : UserBrk) : BrkOp → Prop
  | .sbrk inc fuel => ∀ r s', s.sbrk inc fuel = some (r, s') →
      ∀ p, p ≠ 0 → (r = p ↔ p = s.mm.endBrk ∧ HeapCovers s'.mm p inc)
  | _ => True

/-- The new break is a 32-bit word, and if the heap area has it already, the area after it
in the list is not in the way. -/
def SbrkFits (s : UserBrk) : BrkOp → Prop
  | .sbrk inc _ => s.mm.endBrk + inc < 2 ^ 32 ∧
      (0 < inc → ∀ vma, HeapArea s.mm vma → s.mm.endBrk + inc ≤ (s.mm.heap vma).vmEnd →
        RoomTo s.mm vma (s.mm.endBrk + inc))
  | _ => True

end UserBrk

end MiniOS
