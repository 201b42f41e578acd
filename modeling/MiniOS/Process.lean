import MiniOS.Errno
import MiniOS.Files
import MiniOS.Paging
import MiniOS.Pidmap
import MiniOS.Sched
import Mathlib.Logic.Relation

/-!
# The memory of a process

`do_fork`, `task_create`, `execve` and `exit` with everything a task owns: its four
structures on the kernel heap, its pid, its address space and its table of
descriptors. Address spaces go by the address of their `mm_struct`, tables of
descriptors by that of their `files_struct`. What `kmalloc` answers is an argument,
0 is `NULL`. `none` is a panic.
-/

namespace MiniOS

open Function

/-- `heap` holds the `task_struct`s, `mm_struct`s, `fs_struct`s and `files_struct`s that are
allocated; an area is allocated as long as its `mm_struct` lists it, a `struct file` as long as
it has a count. `mm`, `fs` and `files` are fields of the `task_struct`. -/
structure Kernel where
  sched : Sched
  map : Pidmap
  heap : Finset Nat
  mm : Nat → Nat
  fs : Nat → Nat
  files : Nat → Nat
  paging : Paging
  fd : Nat → Fin maxFile → Option Nat
  fCount : Nat → Option Nat

structure TaskMem where
  task : Nat
  mm : Nat
  fs : Nat
  files : Nat

/-- A segment `load_icode` loads; `code` if it is executable and not writable. -/
structure Segment where
  va : Nat
  memsz : Nat
  filesz : Nat
  code : Bool

namespace Paging

def loadSegments (s : Paging) (t : Nat) : List Segment → Option (Bool × Paging)
  | [] => some (true, s)
  | g :: l =>
    (s.loadSegment t g.va g.memsz).bind fun (ok, s) =>
      if ok ∧ g.filesz ≤ g.memsz then s.loadSegments t l else some (false, s)

def endOf (code : Bool) (prog : List Segment) : Nat :=
  prog.foldl (fun e g => if g.code = code then wrap (g.va + g.memsz) else e) 0

theorem endOf_le {code : Bool} {prog : List Segment} (h : ∀ g ∈ prog, wrap (g.va + g.memsz) ≤ kernelBaseAddr) :
    endOf code prog ≤ kernelBaseAddr := by
  unfold endOf
  apply List.foldlRecOn (motive := fun e => e ≤ kernelBaseAddr) prog _ (Nat.zero_le _)
  intro e he g hg
  split
  · exact h g hg
  · exact he

def heapStart (prog : List Segment) : Nat :=
  roundUp (if endOf false prog ≠ 0 then endOf false prog else endOf true prog) pageSize

def loadIcode (s : Paging) (t : Nat) (prog : List Segment) : Option (Bool × Paging) :=
  (s.loadSegments t prog).bind fun (ok, s) =>
    if ok then
      match s.createVma t userStackBott (userStackTop - userStackBott) with
      | (false, _) => none
      | (true, s) =>
        match (s.setMm t { s.mm t with startBrk := heapStart prog }).createVma t (heapStart prog) pageSize with
        | (false, _) => none
        | (true, s) => some (true, s)
    else some (false, s)

/-- The new stack page of `execve`, which `cur` fills through a mapping of its own. -/
def pushArgs (s : Paging) (t cur : Nat) : Option Paging :=
  match s.pageAlloc with
  | (none, _) => none
  | (some p, s) =>
    (s.pageInsert t p (userStackTop - pageSize)).bind fun (_, s) =>
      (s.pageInsert cur p userTempBott).bind fun (_, s) => s.pageRemove cur userTempBott

end Paging

namespace Kernel

variable (s : Kernel)

def curtask : Nat := s.sched.curtask

def kmalloc (a : Nat) : Option Kernel := if a = 0 then none else some { s with heap := insert a s.heap }

def kfree (a : Nat) : Kernel := { s with heap := s.heap.erase a }

def table : Files := ⟨s.files s.curtask, ∅, fun _ => 0, s.fd, s.fCount⟩

/-! ## `exit.c` -/

def exitMm (mm : Nat) : Option Kernel := (s.paging.exitMm mm).map fun g => { s with paging := g }.kfree mm

/-- It works on the table of `curtask`. -/
def exitFiles (t : Nat) :
    Option Kernel := (s.table.exitFiles t).map fun f => { s with fd := f.fd, fCount := f.fCount }

def exitTask (t : Nat) : Kernel :=
  if t = 0 then s
  else
    let pid := (s.sched.task t).pid
    { s with
      sched := s.sched.exitTask t
      map := if 0 ≤ pid then s.map.freePidmap pid else s.map }.kfree t

/-- `exit`, where `teardown` is what `exit_mm` does to the page tables. -/
def exitBy (teardown : Paging → Option Paging) (t : Nat) : Option Kernel :=
  ((s.sched.scheduleDeleteTask t).exitNotify t).bind fun c =>
    ((teardown s.paging).map fun g => { s with sched := c, paging := g }.kfree (s.mm t)).bind fun s =>
      (s.exitFiles t).bind fun s =>
        let s := s.exitTask t
        if t = s.curtask then (Sched.schedule { s.sched with curtask := 0 }).map fun c =>
          { s with sched := c } else some s

def exit (t : Nat) : Option Kernel := s.exitBy (Paging.exitMm · (s.mm t)) t

/-! ## `fork.c` -/

/-- What `alloc_task` leaves in its argument is `NULL` when it fails, also when only the
pid is missing. -/
def allocTask (a : Nat) : Int × Nat × Kernel :=
  match s.kmalloc a with
  | none => (-enomem, 0, s)
  | some s =>
    let (pid, map) := s.map.allocPidmap
    let task : Task := ⟨pid, 0, .running, 0, false, 0⟩
    let s := { s with
      map := map
      sched := s.sched.setTask a task
      mm := update s.mm a 0
      fs := update s.fs a 0
      files := update s.files a 0 }
    if pid < 0 then (-emproc, 0, s)
    else
      let task := { task with ppid := (s.sched.task s.curtask).pid, timeslice := 3 }
      (0, a, { s with sched := { s.sched.setTask a task with used := update s.sched.used pid true } })

def taskSetVm (t a brk : Nat) : Int × Kernel :=
  match s.kmalloc a with
  | none => (-enomem, { s with mm := update s.mm t 0 })
  | some s =>
    let s := { s with mm := update s.mm t a }
    match s.paging.pageAlloc with
    | (none, g) => (-enomem, { s with paging := g }.kfree a)
    | (some p, g) => (0, { s with paging := g.newMm a brk p })

def incCounts : Option Kernel :=
  (s.table.incCounts (List.finRange maxFile)).map fun f => { s with fCount := f.fCount }

def copyFiles (t fs files : Nat) : Option (Int × Kernel) :=
  match s.kmalloc fs with
  | none => some (-enomem, s)
  | some s =>
    match s.kmalloc files with
    | none => some (-enomem, s.kfree fs)
    | some s =>
      s.incCounts.map fun s =>
        (0, { s with
          fd := update s.fd files (s.fd (s.files s.curtask))
          fs := update s.fs t fs
          files := update s.files t files })

def copyTask (src dest : Nat) : Int × Kernel :=
  let (ok, g) := s.paging.copyTask (s.mm src) (s.mm dest) (s.paging.mm (s.mm src)).mmap
  (if ok then 0 else -enomem, { s with paging := g })

def enter (child : Nat) : Kernel :=
  let c := s.sched.scheduleAddTask child
  let c := { c with pidmap := update c.pidmap (c.task child).pid child }
  { s with sched := c.enlist child (c.uid c.curtask) }

-- `exit_mm` undoes `copy_task` and `task_set_vm`; `copy_files` is not undone.
def forkSpace (child : Nat) : Option (Int × Kernel) :=
  let (r, s) := s.copyTask s.curtask child
  if r < 0 then (s.exitMm (s.mm child)).map fun s => (r, s.exitTask child)
  else some ((s.sched.task child).pid, s.enter child)

-- The labels `exit_files` and `exit_task` are one place: nothing undoes `task_set_vm` when
-- `copy_files` fails.
def doFork (cloneVm : Bool) (mem : TaskMem) : Option (Int × Kernel) :=
  let (r, child, s) := s.allocTask mem.task
  if r < 0 then some (r, s.exitTask child)
  else
    let (r, s) := s.taskSetVm child mem.mm (s.paging.mm (s.mm s.curtask)).startBrk
    if r < 0 then some (r, s.exitTask child)
    else
      (s.copyFiles child mem.fs mem.files).bind fun (r, s) =>
        if r < 0 then some (r, s.exitTask child)
        else if cloneVm then none
        else s.forkSpace child

/-! ## `task.c` and `execve.c` -/

def allocFilesStruct (t files fs : Nat) : Option Kernel :=
  (s.kmalloc files).bind fun s =>
  (s.kmalloc fs).map fun s => { s with
    fd := update s.fd files fun _ => none
    fs := update s.fs t fs
    files := update s.files t files }

def taskAlloc (mem : TaskMem) (old : Task) (ppid : Int) : Option Kernel :=
  (s.kmalloc mem.task).bind fun s =>
  (s.allocFilesStruct mem.task mem.files mem.fs).bind fun s =>
    let (r, s) := s.taskSetVm mem.task mem.mm 0
    if r < 0 then none
    else
      let (pid, map) := s.map.allocPidmap
      if pid < 0 then none
      else
        let task := { old with pid := pid, ppid := ppid, taskStatus := .running, timeslice := 3 }
        some { s with
          map := map
          sched := { s.sched.setTask mem.task task with used := update s.sched.used pid true } }

def taskCreate (mem : TaskMem) (old : Task) (ppid : Int) (creator : Nat) (prog : List Segment) : Option Kernel :=
  (s.taskAlloc mem old ppid).bind fun s =>
  (s.paging.loadIcode (s.mm mem.task) prog).bind fun (ok, g) =>
    if ok then
      let c := { s.sched with pidmap := update s.sched.pidmap (s.sched.task mem.task).pid mem.task }
      some { s with paging := g, sched := (c.scheduleAddTask mem.task).enlist mem.task creator }
    else none

def execve (mem : TaskMem) (old : Task) (prog : List Segment) : Option Kernel :=
  (s.taskCreate mem old (s.sched.task s.curtask).pid (s.sched.uid s.curtask) prog).bind fun s =>
    let s := { s with fd := update s.fd (s.files mem.task) (s.fd (s.files s.curtask)) }
    s.incCounts.bind fun s =>
      (s.paging.pushArgs (s.mm mem.task) (s.mm s.curtask)).map fun g => { s with paging := g }

def boot (mem : TaskMem) (old : Task) (prog : List Segment) : Option Kernel :=
  (s.taskCreate mem old (-1) 0 prog).bind fun s => s.sched.schedule.map fun c => { s with sched := c }

/-! ## Runs -/

structure Fresh (mem : TaskMem) : Prop where
  notLive : ∀ a ∈ [mem.task, mem.mm, mem.fs, mem.files], a ≠ 0 → a ∉ s.heap
  apart : [mem.task, mem.mm, mem.fs, mem.files].Pairwise fun a b => a ≠ 0 → a ≠ b

def objects (t : Nat) : List Nat := [t, s.mm t, s.fs t, s.files t]

/-- What the rest of the kernel does to processes: it schedules them, maps pages, opens files,
and has memory of its own. -/
structure Outside (s s' : Kernel) : Prop where
  live : s'.sched.live = s.sched.live
  pidmap : s'.sched.pidmap = s.sched.pidmap
  map : s'.map = s.map
  pid : ∀ t ∈ s.sched.live, (s'.sched.task t).pid = (s.sched.task t).pid
  objects : ∀ t ∈ s.sched.live, s'.objects t = s.objects t
  heap : ∀ t ∈ s.sched.live, ∀ a ∈ s.objects t, a ∈ s.heap → a ∈ s'.heap

end Kernel

inductive KernelStep : Kernel → Kernel → Prop
  | create {s s' : Kernel} {mem old ppid creator prog} : s.Fresh mem →
      s.taskCreate mem old ppid creator prog = some s' → KernelStep s s'
  | fork {s s' : Kernel} {cloneVm mem r} : s.Fresh mem → s.doFork cloneVm mem = some (r, s') → KernelStep s s'
  | execve {s s' : Kernel} {mem old prog} : s.Fresh mem → s.execve mem old prog = some s' → KernelStep s s'
  | exit {s s' : Kernel} {t} : t ∈ s.sched.live → s.exit t = some s' → KernelStep s s'
  | other {s s' : Kernel} : s.Outside s' → KernelStep s s'

namespace Kernel

structure Start (s : Kernel) : Prop where
  live : s.sched.live = []
  pidmap : ∀ i, 0 ≤ i → i < pidMaxDefault → s.sched.pidmap i = 0
  map : s.map = Pidmap.start

def Reachable (s : Kernel) : Prop := ∃ s₀ : Kernel, s₀.Start ∧ Relation.ReflTransGen KernelStep s₀ s

/-! ## What is to hold -/

variable (s : Kernel)

def mappings (m p : Nat) : Nat := refs (Finset.range userPages) (s.paging.mm m).frame p

def IsTable (m p : Nat) : Prop :=
  (∃ i < userPgds, ((s.paging.mm m).pgd i).map PmdTable.page = some p) ∨
    ∃ j < userPgds * ptrsPerTable, ((s.paging.mm m).pteTable j).map PteTable.page = some p

/-- Frames that only the task `t` has are free, each once, and the others have lost its mappings. -/
structure PagesBack (s : Kernel) (t : Nat) (s' : Kernel) : Prop where
  own : ∀ p, 0 < s.mappings (s.mm t) p → (∀ m ∈ s.paging.tasks, m ≠ s.mm t → s.mappings m p = 0) →
    s'.paging.free.count p = 1
  tables : ∀ p, s.IsTable (s.mm t) p → s'.paging.free.count p = 1
  directory : s'.paging.free.count (s.paging.mm (s.mm t)).page = 1
  shared : ∀ p, 0 < s.mappings (s.mm t) p → s'.paging.nref p = s.paging.nref p - s.mappings (s.mm t) p

structure Reclaimed (s : Kernel) (t : Nat) (s' : Kernel) : Prop where
  pages : s.PagesBack t s'
  heap : ∀ a ∈ s.objects t, a ∉ s'.heap

def HasArea (m : Nat) (a : Area) : Prop := m ∈ s.paging.tasks ∧ a ∈ (s.paging.mm m).mmap

structure Unchanged (s s' : Kernel) : Prop where
  pids : ∀ i, s'.map.used i = s.map.used i
  nrFree : s'.map.nrFree = s.map.nrFree
  fCount : s'.fCount = s.fCount
  nref : s'.paging.nref = s.paging.nref
  heap : s'.heap = s.heap
  areas : ∀ m a, s'.HasArea m a ↔ s.HasArea m a
  pages : ∀ p, p ∈ s'.paging.free ↔ p ∈ s.paging.free
  queue : s'.sched.links = s.sched.links
  pidmap : ∀ i, 0 ≤ i → i < pidMaxDefault → s'.sched.pidmap i = s.sched.pidmap i

def HasPage : Prop := ∃ p rest, s.paging.answers = p :: rest ∧ p ∈ s.paging.free

def FailsEarly (mem : TaskMem) : Prop := mem.task = 0 ∨ (s.map.Available ∧ (mem.mm = 0 ∨ ¬ s.HasPage))

end Kernel

end MiniOS
