import MiniOS.Process
import MiniOS.UserBrk

/-!
# The heap next to the other areas

`brk` of `brk.c` with the lock of the page tables, on the address spaces that `load_icode`,
`copy_task` and earlier calls of `brk` make. The room above the heap is judged by the next
area in the list.
-/

namespace MiniOS

namespace Mm

/-- The last component is the state of `page_table_lock`, which a second `spin_lock` waits
for without end. -/
def brkLocked (m : Mm) (locked : Bool) (endData fuel : Nat) : Option (Nat × Mm × Bool) :=
  if endData ≤ m.endBrk then some (m.endBrk, m, locked)
  else if locked then none
  else
    (m.findVma m.startBrk fuel m.rbNode 0).bind fun vma =>
      if vma = 0 ∨ (m.heap vma).vmStart ≠ m.startBrk then none
      else if endData ≤ (m.heap vma).vmStart then some ((m.heap vma).vmStart, m, true)
      else
        let next := (m.heap vma).vmNext
        if next = 0 ∨ endData ≤ (m.heap next).vmStart then some (endData, m.growTo vma endData, false)
        else some (0, m, false)

def vmReadWrite : Nat := 3

/-- The areas of the segments; `mems` are the answers of `kmalloc`, and those not used come
back. An empty segment fails an assertion of `region_alloc`, and one that wraps around is
copied over the kernel. -/
def loadSegments (fuel : Nat) : List Segment → List Nat → Mm → Option (Int × Mm × List Nat)
  | [], mems, m => some (0, m, mems)
  | g :: prog, mems, m =>
    (m.createVma g.va g.memsz vmReadWrite (mems.headD 0) fuel).bind fun (vma, m) =>
      if vma = 0 then some (-enomem, m, mems)
      else if g.memsz = 0 ∨ 2 ^ 32 ≤ g.va + g.memsz then none
      else if g.memsz < g.filesz then some (-enoexec, m, mems.tail)
      else loadSegments fuel prog mems.tail m

def loadIcode (m : Mm) (prog : List Segment) (mems : List Nat) (fuel : Nat) : Option (Int × Mm) :=
  (loadSegments fuel prog mems m).bind fun (r, m, mems) =>
    if r < 0 then some (r, m)
    else
      (m.createVma userStackBott (userStackTop - userStackBott) vmReadWrite (mems.headD 0) fuel).bind
          fun (vma, m) =>
        if vma = 0 then none
        else
          (m.loadHeap (Paging.endOf true prog) (Paging.endOf false prog) vmReadWrite (mems.tail.headD 0) fuel).map
            fun m => (0, m)

end Mm

/-- Memory for new areas that is not in use and holds no children. -/
structure FreshMems (heap : Nat → Vma) (vmas mems : List Nat) : Prop where
  nodup : mems.Nodup
  unused : ∀ a ∈ mems, a ∉ vmas
  clean : ∀ a ∈ mems, (heap a).rbLeft = 0 ∧ (heap a).rbRight = 0

theorem FreshMems.rest {heap heap' : Nat → Vma} {vmas mems : List Nat} {mem : Nat}
    (h : FreshMems heap vmas (mem :: mems))
    (hout : ∀ a ∉ vmas, a ≠ mem → (heap' a).rbLeft = (heap a).rbLeft ∧ (heap' a).rbRight = (heap a).rbRight) :
    FreshMems heap' (vmas ++ [mem]) mems := by
  obtain ⟨hmem, hnd⟩ := List.nodup_cons.mp h.nodup
  have hne : ∀ a ∈ mems, a ≠ mem := fun a ha e => hmem (e ▸ ha)
  have hold : ∀ a ∈ mems, a ∉ vmas := fun a ha => h.unused a (List.mem_cons_of_mem _ ha)
  refine ⟨hnd, fun a ha => ?_, fun a ha => ?_⟩
  · simp [hold a ha, hne a ha]
  · rw [(hout a (hold a ha) (hne a ha)).1, (hout a (hold a ha) (hne a ha)).2]
    exact h.clean a (List.mem_cons_of_mem _ ha)

inductive Reached : Mm → Bool → List Nat → Prop
  | loadIcode {heap : Nat → Vma} {m : Mm} {prog : List Segment} {mems : List Nat} {fuel : Nat} :
      FreshMems heap [] mems → mems.length = prog.length + 2 →
      (Mm.allocMm heap).loadIcode prog mems fuel = some (0, m) → Reached m false mems
  | copyTask {m m' : Mm} {vmas mems : List Nat} {fuel : Nat} : Reached m false vmas → FreshMems m.heap vmas mems →
      mems.length = vmas.length → m.copyTask fuel fuel m.mmap mems m.taskSetVm = some (0, m') →
      Reached m' false mems
  | brk {m m' : Mm} {locked locked' : Bool} {vmas : List Nat} {endData r fuel : Nat} : Reached m locked vmas →
      endData < 2 ^ 32 → m.brkLocked locked endData fuel = some (r, m', locked') → Reached m' locked' vmas
  | other {m : Mm} {locked : Bool} {vmas : List Nat} (heap : Nat → Vma) : Reached m locked vmas →
      (∀ a ∈ vmas, heap a = m.heap a) → Reached { m with heap := heap } locked vmas

/-- `[end_brk, end_data)` is user memory of no area but the heap. -/
def GapFree (m : Mm) (vmas : List Nat) (heap endData : Nat) : Prop :=
  endData ≤ kernelBaseAddr ∧ ∀ a ∈ vmas, a ≠ heap → ∀ x, m.endBrk ≤ x → x < endData →
    ¬ ((m.heap a).vmStart ≤ x ∧ x < (m.heap a).vmEnd)

def BrkExact (m : Mm) (vmas : List Nat) (heap endData fuel : Nat) : Prop :=
  (GapFree m vmas heap endData → m.brkLocked false endData fuel = some (endData, m.growTo heap endData, false)) ∧
    (¬ GapFree m vmas heap endData → m.brkLocked false endData fuel = some (0, m, false))

/-- The next area in the list is where the room ends: the room goes up to its start, or
there is none at all. Without one the break must be the last address already. -/
def NextBounds (m : Mm) (vmas : List Nat) (heap : Nat) : Prop :=
  let next := (m.heap heap).vmNext
  if next = 0 then m.endBrk + 1 = 2 ^ 32
  else if m.endBrk < (m.heap next).vmStart then GapFree m vmas heap (m.heap next).vmStart
  else ¬ GapFree m vmas heap (m.endBrk + 1)

end MiniOS
