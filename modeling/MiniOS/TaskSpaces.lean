import MiniOS.HeapBrk
import MiniOS.Teardown
import MiniOS.UserRun

/-!
# The address spaces and their areas

The runs of user programs with the `mm_struct` of each task. `find_vma` goes down the tree, `copy_task`
and `delete_all_vma` go along `vm_next`, and a new area is memory from `kmalloc` as it was left there.
The areas that `Paging` lists are a record of what was created: nothing here reads them. `start_brk`
stands in both.
-/

namespace MiniOS

def Freed.area (f : Freed) : Area := ⟨f.vmStart, f.vmEnd⟩

namespace Mm

/-- No loop over the areas takes more rounds. -/
def rounds (m : Mm) : Nat := m.mmapCount.toNat + 1

def area (m : Mm) (vma : Nat) : Area := ⟨(m.heap vma).vmStart, (m.heap vma).vmEnd⟩

def areaAt (m : Mm) (vma : Nat) : Option Area := if vma = 0 then none else some (m.area vma)

def lookup (m : Mm) (va : Nat) : Option (Option Area) := (m.findVma va m.rounds m.rbNode 0).map m.areaAt

end Mm

/-- An `mm_struct` that gets its areas; `mems` is the memory `kmalloc` has for them. -/
structure NewMm where
  paging : Paging
  mm : Mm
  mems : List Nat

namespace NewMm

def createVma (x : NewMm) (t addr len flags : Nat) : Option (Bool × NewMm) :=
  if roundDown addr pageSize = 0 then some (false, x)
  else
    (x.mm.getUnmappedVma addr len x.mm.rounds).bind fun (addr, m) =>
      if addr = 0 then some (false, { x with mm := m })
      else
        match x.paging.kmalloc, x.mems with
        | (false, g), _ => some (false, { x with paging := g, mm := m })
        | (true, _), [] => none
        | (true, g), mem :: mems =>
          ((m.set mem (Mm.newVma (m.heap mem) addr len flags)).vmLink mem m.rounds).map fun m =>
            (true, ⟨g.setMm t { g.mm t with mmap := insertArea (Paging.newArea addr len) (g.mm t).mmap }, m, mems⟩)

/-- An empty segment fails an assertion of `region_alloc`, one that wraps around is copied over the kernel. -/
def loadSegments (t : Nat) : List Segment → NewMm → Option NewMm
  | [], x => some x
  | g :: prog, x =>
    (x.createVma t g.va g.memsz Mm.vmReadWrite).bind fun (ok, x) =>
      if ok = false ∨ g.memsz = 0 ∨ 2 ^ 32 ≤ g.va + g.memsz then none
      else
        (x.paging.regionAlloc t
            (Area.addrs ⟨roundDown g.va pageSize, roundUp (wrap (g.va + g.memsz)) pageSize⟩)).bind fun (ok, p) =>
          if ok ∧ g.filesz ≤ g.memsz then loadSegments t prog { x with paging := p } else none

def setBrk (x : NewMm) (t brk : Nat) : NewMm :=
  { x with
    paging := x.paging.setMm t { x.paging.mm t with startBrk := brk }
    mm := x.mm.setBrk brk (wrap (brk + pageSize)) }

def loadIcode (t : Nat) (prog : List Segment) (x : NewMm) : Option NewMm :=
  (loadSegments t prog x).bind fun x =>
    (x.createVma t userStackBott (userStackTop - userStackBott) Mm.vmReadWrite).bind fun (ok, x) =>
      if ok then
        ((x.setBrk t (Paging.heapStart prog)).createVma t (Paging.heapStart prog) pageSize Mm.vmReadWrite).bind
          fun (ok, x) => if ok then some x else none
      else none

def copyTask (src : Mm) (t child : Nat) : (left vma : Nat) → NewMm → Option (Bool × NewMm)
  | 0, _, _ => none
  | left + 1, vma, x =>
    if vma = 0 then some (true, x)
    else
      (x.createVma child (src.area vma).vmStart (src.area vma).length (src.heap vma).vmFlags).bind fun (ok, x) =>
        if ok then
          match x.paging.copyPages t child (src.area vma).addrs with
          | (false, g) => some (false, { x with paging := g })
          | (true, g) => copyTask src t child left (src.heap vma).vmNext { x with paging := g }
        else some (false, x)

end NewMm

structure TaskSpaces where
  paging : Paging
  vm : Nat → Mm

namespace TaskSpaces

variable (s : TaskSpaces)

/-- `memory` is what the memory for new areas holds. -/
def taskCreate (t : Nat) (prog : List Segment) (memory : Nat → Vma) (mems : List Nat) : Option TaskSpaces :=
  match s.paging.pageAlloc with
  | (none, _) => none
  | (some p, g) =>
    (NewMm.loadIcode t prog ⟨g.newMm t 0 p, .allocMm memory, mems⟩).map fun x =>
      ⟨x.paging, Function.update s.vm t x.mm⟩

/-- `delete_all_vma` starts over at `mmap` after each area, and may come to one that is freed already:
then it goes on without end, or the area is freed again. Neither has a result. -/
def exitMm (t : Nat) (junk : Nat → Vma) : Option TaskSpaces :=
  ((s.vm t).deleteAllVma junk (s.vm t).rounds (s.vm t).rounds).bind fun (_, log) =>
    if (log.map Freed.vma).Nodup then
      (s.paging.exitAreas t (log.reverse.map Freed.area)).map fun g => { s with paging := g }
    else none

def doFork (t child : Nat) (memory : Nat → Vma) (mems : List Nat) (junk : Nat → Vma) : Option TaskSpaces :=
  match s.paging.forkStart with
  | (none, g) => some { s with paging := g }
  | (some p, g) =>
    let m := s.vm t
    (NewMm.copyTask m t child m.rounds m.mmap ⟨g.newMm child (g.mm t).startBrk p,
        (Mm.allocMm memory).setBrk m.startBrk m.endBrk, mems⟩).bind fun (ok, x) =>
      let s : TaskSpaces := ⟨x.paging, Function.update s.vm child x.mm⟩
      if ok then some s else s.exitMm child junk

/-- `false` stands for the end of the task, by `exit(curtask)`. -/
def fault (t va : Nat) (write : Bool) : Option (Bool × TaskSpaces) :=
  ((s.vm t).lookup va).bind fun vma =>
    (s.paging.faultIn t va write vma).map fun (ok, g) => (ok, { s with paging := g })

def brk (t endData : Nat) : Option (Nat × TaskSpaces) :=
  ((s.vm t).brk endData (s.vm t).rounds).map fun (r, m) =>
    (r, ⟨if m.endBrk = (s.vm t).endBrk then s.paging else s.paging.growHeap t m.endBrk, Function.update s.vm t m⟩)

end TaskSpaces

/-- New areas are made of memory that holds no children. An exit is one that deletes every area once. -/
inductive TaskStep : TaskSpaces → TaskSpaces → Prop
  | create {s s' : TaskSpaces} {t : Nat} {prog : List Segment} {memory : Nat → Vma} {mems : List Nat} :
      t ∉ s.paging.tasks → (∀ g ∈ prog, g.va < 2 ^ 32) → FreshMems memory [0] mems →
      s.taskCreate t prog memory mems = some s' → TaskStep s s'
  | pushArgs {s : TaskSpaces} {g : Paging} {t cur : Nat} : t ∈ s.paging.tasks → cur ∈ s.paging.tasks →
      s.paging.pushArgs t cur = some g → TaskStep s { s with paging := g }
  | fault {s s' : TaskSpaces} {t va : Nat} {write : Bool} : t ∈ s.paging.tasks → s.paging.Faults t va write →
      s.fault t va write = some (true, s') → TaskStep s s'
  | kill {s s₁ s' : TaskSpaces} {t va : Nat} {write : Bool} {junk : Nat → Vma} : t ∈ s.paging.tasks →
      s.paging.Faults t va write → s.fault t va write = some (false, s₁) →
      s₁.exitMm t junk = some s' → TaskStep s s'
  | brk {s s' : TaskSpaces} {t endData r : Nat} : t ∈ s.paging.tasks → s.brk t endData = some (r, s') →
    TaskStep s s'
  | fork {s s' : TaskSpaces} {t child : Nat} {memory junk : Nat → Vma} {mems : List Nat} : t ∈ s.paging.tasks →
      child ∉ s.paging.tasks → FreshMems memory [0] mems → s.doFork t child memory mems junk = some s' →
      TaskStep s s'
  | exit {s s' : TaskSpaces} {t : Nat} {junk : Nat → Vma} : t ∈ s.paging.tasks → s.exitMm t junk = some s' →
      TaskStep s s'
  | memory {s : TaskSpaces} (mem : Nat → Nat → Nat) : TaskStep s { s with paging := { s.paging with mem := mem } }
  | oracle {s : TaskSpaces} (answers : List Nat) (kmallocs : List Bool) :
      TaskStep s { s with paging := { s.paging with answers := answers, kmallocs := kmallocs } }

/-- The areas satisfy `P` all along. -/
inductive TaskRun (P : Paging → Prop) : TaskSpaces → Prop
  | start {s : TaskSpaces} : s.paging.Start → P s.paging → TaskRun P s
  | step {s s' : TaskSpaces} : TaskRun P s → TaskStep s s' → P s'.paging → TaskRun P s'

end MiniOS
