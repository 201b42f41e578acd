import MiniOS.PtrTree
import MiniOS.Layout

/-!
# Virtual memory areas

The area list and the area tree of `kernel/mm/mm.c`, with the tree deletion of
`kernel/rbtree.c` and `brk`. An area and its `vm_rb` node are named by one
address, `0` is `NULL`. Loops take a bound on their rounds and have no result
when it runs out; a panic or a read through `NULL` has no result either. The
answer of `kmalloc` is a parameter, and the new area keeps what that memory held
in the fields `create_vma` does not set. The page tables behind the areas are
not part of this state.
-/

namespace MiniOS

structure Vma where
  vmNext : Nat
  rbParent : Nat
  rbLeft : Nat
  rbRight : Nat
  vmStart : Nat
  vmEnd : Nat
  vmFlags : Nat
  deriving DecidableEq

structure Mm where
  heap : Nat → Vma
  mmap : Nat
  rbNode : Nat
  freeAreaCache : Nat
  startBrk : Nat
  endBrk : Nat
  mmapCount : Int

namespace Mm

def allocMm (heap : Nat → Vma) : Mm where
  heap := heap
  mmap := 0
  rbNode := 0
  freeAreaCache := userUnnameZone
  startBrk := 0
  endBrk := 0
  mmapCount := 0

def set (m : Mm) (a : Nat) (v : Vma) : Mm := { m with heap := Function.update m.heap a v }

def findVma (m : Mm) (addr : Nat) : (fuel rb vma : Nat) → Option Nat
  | 0, _, _ => none
  | fuel + 1, rb, vma =>
    if rb = 0 then some vma
    else if addr < (m.heap rb).vmEnd then
      if (m.heap rb).vmStart ≤ addr then some rb else m.findVma addr fuel (m.heap rb).rbLeft rb
    else m.findVma addr fuel (m.heap rb).rbRight vma

def findVmaPrev (m : Mm) (addr : Nat) : (fuel rb vma : Nat) → Option Nat
  | 0, _, _ => none
  | fuel + 1, rb, vma =>
    if rb = 0 then some vma
    else if (m.heap rb).vmEnd < addr then
      if (m.heap rb).vmStart ≤ addr then some rb else m.findVmaPrev addr fuel (m.heap rb).rbLeft rb
    else m.findVmaPrev addr fuel (m.heap rb).rbRight vma

def unmappedLoop (m : Mm) (len bound : Nat) : (fuel startAddr addr vma : Nat) → Option (Nat × Mm)
  | 0, _, _, _ => none
  | fuel + 1, startAddr, addr, vma =>
    let fit (startAddr addr vma : Nat) : Option (Nat × Mm) :=
      if vma = 0 ∨ wrap (addr + len) ≤ (m.heap vma).vmStart then
        some (addr, { m with freeAreaCache := wrap (addr + len) })
      else m.unmappedLoop len bound fuel startAddr (m.heap vma).vmEnd (m.heap vma).vmNext
    if kernelBaseAddr < wrap (addr + len) then
      if startAddr = userUnnameZone then some (0, m)
      else (m.findVma userUnnameZone bound m.rbNode 0).bind (fit userUnnameZone userUnnameZone)
    else fit startAddr addr vma

def getUnmappedVma (m : Mm) (addr len fuel : Nat) : Option (Nat × Mm) :=
  if kernelBaseAddr < len then some (0, m)
  else if addr ≠ 0 then
    (m.findVma addr fuel m.rbNode 0).map fun vma =>
      if wrap (addr + len) ≤ kernelBaseAddr ∧ (vma = 0 ∨ wrap (addr + len) ≤ (m.heap vma).vmStart) then (addr, m)
      else (0, m)
  else
    (m.findVma m.freeAreaCache fuel m.rbNode 0).bind fun vma =>
      m.unmappedLoop len fuel fuel m.freeAreaCache m.freeAreaCache vma

def linkSlot (m : Mm) (addr : Nat) : (fuel rb parent : Nat) → Slot Nat → Option (Nat × Slot Nat)
  | 0, _, _, _ => none
  | fuel + 1, rb, parent, slot =>
    if rb = 0 then some (parent, slot)
    else if addr < (m.heap rb).vmEnd then m.linkSlot addr fuel (m.heap rb).rbLeft rb (.left rb)
    else m.linkSlot addr fuel (m.heap rb).rbRight rb (.right rb)

def setSlot (m : Mm) (v : Nat) : Slot Nat → Mm
  | .root => { m with rbNode := v }
  | .left a => m.set a { m.heap a with rbLeft := v }
  | .right a => m.set a { m.heap a with rbRight := v }

def rbLinkNode (m : Mm) (node parent : Nat) (slot : Slot Nat) : Mm :=
  let m := m.setSlot node slot
  m.set node { m.heap node with rbParent := parent }

def listLink (m : Mm) (vmp vma : Nat) : Mm :=
  if vma = 0 then { m.set vmp { m.heap vmp with vmNext := m.mmap } with mmap := vmp }
  else
    let m := m.set vmp { m.heap vmp with vmNext := (m.heap vma).vmNext }
    m.set vma { m.heap vma with vmNext := vmp }

def vmLink (m : Mm) (vmp fuel : Nat) : Option Mm := do
  let vma ← m.findVmaPrev (m.heap vmp).vmStart fuel m.rbNode 0
  let m := m.listLink vmp vma
  let (parent, slot) ← m.linkSlot (m.heap vmp).vmEnd fuel m.rbNode 0 .root
  let m := m.rbLinkNode vmp parent slot
  return { m with mmapCount := m.mmapCount + 1 }

def newVma (v : Vma) (addr len flags : Nat) : Vma :=
  { v with
    vmStart := roundDown addr pageSize
    vmEnd := wrap (roundDown addr pageSize + roundUp len pageSize)
    vmFlags := flags
    vmNext := 0 }

def createVma (m : Mm) (addr len flags mem fuel : Nat) : Option (Nat × Mm) :=
  if roundDown addr pageSize = 0 then some (0, m)
  else do
    let (addr, m) ← m.getUnmappedVma addr len fuel
    if addr = 0 then return (0, m)
    else if mem = 0 then return (0, m)
    else
      let m ← (m.set mem (newVma (m.heap mem) addr len flags)).vmLink mem fuel
      return (mem, m)

def rbMostleft (m : Mm) : (fuel rb : Nat) → Option Nat
  | 0, _ => none
  | fuel + 1, rb =>
    if rb = 0 then some 0
    else if (m.heap rb).rbLeft ≠ 0 then m.rbMostleft fuel (m.heap rb).rbLeft
    else some rb

def slotTo (m : Mm) (rb : Nat) : Option (Slot Nat) :=
  let parent := (m.heap rb).rbParent
  if parent = 0 then some .root
  else if (m.heap parent).rbLeft = rb then some (.left parent)
  else if (m.heap parent).rbRight = rb then some (.right parent)
  else none

def rbtreeDelete : (fuel : Nat) → Mm → (rb : Nat) → Option Mm
  | 0, _, _ => none
  | fuel + 1, m, rb => do
    let left := (m.heap rb).rbLeft
    let right := (m.heap rb).rbRight
    let parent := (m.heap rb).rbParent
    let pp ← m.slotTo rb
    let m ←
      if left = 0 ∧ right = 0 then some (m.setSlot 0 pp)
      else if left = 0 then
        let m := m.setSlot right pp
        some (m.set right { m.heap right with rbParent := parent })
      else if right = 0 then
        let m := m.setSlot left pp
        some (m.set left { m.heap left with rbParent := parent })
      else do
        let tmp ← m.rbMostleft fuel right
        let m ← rbtreeDelete fuel m tmp
        let m := m.set tmp { m.heap tmp with rbLeft := left }
        let m := m.set tmp { m.heap tmp with rbRight := right }
        some (m.setSlot tmp pp)
    return m.set rb { m.heap rb with rbLeft := 0, rbRight := 0 }

def vmLinkDel (m : Mm) (vmp fuel : Nat) : Option Mm := do
  let vma ← m.findVma (m.heap vmp).vmStart fuel m.rbNode 0
  if vma ≠ vmp then return m
  else
    let tmp ← m.findVmaPrev (m.heap vmp).vmStart fuel m.rbNode 0
    let m ← rbtreeDelete fuel m vmp
    let m := { m with mmapCount := m.mmapCount - 1 }
    let m :=
      if tmp = 0 then { m with mmap := (m.heap vmp).vmNext }
      else m.set tmp { m.heap tmp with vmNext := (m.heap vma).vmNext }
    return m.set vmp { m.heap vmp with vmNext := 0 }

def deleteVma (m : Mm) (vma fuel : Nat) : Option Mm := m.vmLinkDel vma fuel

def brk (m : Mm) (endData fuel : Nat) : Option (Nat × Mm) :=
  if endData ≤ m.endBrk then some (m.endBrk, m)
  else do
    let vma ← m.findVma m.startBrk fuel m.rbNode 0
    if vma = 0 ∨ (m.heap vma).vmStart ≠ m.startBrk then none
    else if endData ≤ (m.heap vma).vmStart then return ((m.heap vma).vmStart, m)
    else
      let next := (m.heap vma).vmNext
      if next = 0 ∨ endData ≤ (m.heap next).vmStart then
        return (endData, { m.set vma { m.heap vma with vmEnd := endData } with endBrk := endData })
      else return (0, m)

def growTo (m : Mm) (vma e : Nat) : Mm := { m.set vma { m.heap vma with vmEnd := e } with endBrk := e }

end Mm

def HeapArea (m : Mm) (vma : Nat) : Prop :=
  (∃ fuel, m.findVma m.startBrk fuel m.rbNode 0 = some vma) ∧ vma ≠ 0 ∧ (m.heap vma).vmStart = m.startBrk

abbrev RoomTo (m : Mm) (vma endData : Nat) : Prop :=
  (m.heap vma).vmNext = 0 ∨ endData ≤ (m.heap (m.heap vma).vmNext).vmStart

/-! ## Runs -/

/-- `create` and `createFail` are calls of `create_vma` that return an area and
`NULL`; `setBrk` is the assignment of `start_brk` and `end_brk` by the program
loader and by `fork`; `other` is the rest of the kernel, which owns all memory
but the areas. -/
inductive MmOp where
  | create (addr len flags mem : Nat)
  | createFail (addr len flags mem : Nat)
  | delete (vma : Nat)
  | brk (endData : Nat)
  | setBrk (startBrk endBrk : Nat)
  | other (heap : Nat → Vma)

inductive MmStep : MmOp → Mm × List Nat → Mm × List Nat → Prop
  | create {m m' : Mm} {vmas : List Nat} {addr len flags mem fuel : Nat} : addr < 2 ^ 32 → len < 2 ^ 32 →
      mem ∉ vmas → m.createVma addr len flags mem fuel = some (mem, m') → mem ≠ 0 →
      MmStep (.create addr len flags mem) (m, vmas) (m', mem :: vmas)
  | createFail {m m' : Mm} {vmas : List Nat} {addr len flags mem fuel : Nat} : addr < 2 ^ 32 → len < 2 ^ 32 →
      m.createVma addr len flags mem fuel = some (0, m') →
      MmStep (.createFail addr len flags mem) (m, vmas) (m', vmas)
  | delete {m m' : Mm} {vmas : List Nat} {vma fuel : Nat} : vma ∈ vmas → m.deleteVma vma fuel = some m' →
      MmStep (.delete vma) (m, vmas) (m', vmas.erase vma)
  | brk {m m' : Mm} {vmas : List Nat} {endData fuel r : Nat} : endData < 2 ^ 32 →
      m.brk endData fuel = some (r, m') → MmStep (.brk endData) (m, vmas) (m', vmas)
  | setBrk {m : Mm} {vmas : List Nat} (startBrk endBrk : Nat) :
      MmStep (.setBrk startBrk endBrk) (m, vmas) ({ m with startBrk := startBrk, endBrk := endBrk }, vmas)
  | other {m : Mm} {vmas : List Nat} (heap : Nat → Vma) : (∀ a ∈ vmas, heap a = m.heap a) →
      MmStep (.other heap) (m, vmas) ({ m with heap := heap }, vmas)

end MiniOS
