import MiniOS.Layout
import MiniOS.RefCount
import Mathlib.Logic.Function.Basic

/-!
# Address spaces and copy-on-write

`mm/page.c`, `trap/page_fault.c`, and what `fork.c`, `exit.c` and `task.c` do to
page tables. The three levels of a page table are a tree of tables, each with the
frame it lives in. The areas of an `mm_struct` are the list `vm_next` runs through,
in order; its links are the subject of `Vma`. `none` is a panic.
-/

namespace MiniOS

open Function

def ptrsPerTable : Nat := 512

def userPages : Nat := kernelBaseAddr / pageSize

def userPgds : Nat := 3

structure Pte where
  frame : Nat
  write : Bool
deriving DecidableEq

structure PteTable where
  page : Nat
  pte : Nat → Option Pte

structure PmdTable where
  page : Nat
  pmd : Nat → Option PteTable

structure Area where
  vmStart : Nat
  vmEnd : Nat
deriving DecidableEq

/-- The part of an `mm_struct` that paging uses, with its areas in the order of their starts; `page` is the
frame of `mm_pgd`. -/
structure Space where
  mmap : List Area
  startBrk : Nat
  page : Nat
  pgd : Nat → Option PmdTable

namespace Space

def pteTable (sp : Space) (j : Nat) : Option PteTable :=
  (sp.pgd (j / ptrsPerTable)).bind fun m => m.pmd (j % ptrsPerTable)

def pte (sp : Space) (v : Nat) : Option Pte :=
  (sp.pteTable (v / ptrsPerTable)).bind fun t => t.pte (v % ptrsPerTable)

def frame (sp : Space) (v : Nat) : Option Nat := (sp.pte v).map Pte.frame

def pgdSet (sp : Space) (i : Nat) (m : Option PmdTable) : Space :=
  { sp with pgd := update sp.pgd i m }

def pmdSet (sp : Space) (j : Nat) (t : Option PteTable) : Space :=
  sp.pgdSet (j / ptrsPerTable) ((sp.pgd (j / ptrsPerTable)).map fun m =>
    { m with pmd := update m.pmd (j % ptrsPerTable) t })

def pteSet (sp : Space) (v : Nat) (e : Option Pte) : Space :=
  sp.pmdSet (v / ptrsPerTable) ((sp.pteTable (v / ptrsPerTable)).map fun t =>
    { t with pte := update t.pte (v % ptrsPerTable) e })

/-- `find_vma`, as exact as it should be. -/
def findVma (sp : Space) (addr : Nat) : Option Area := sp.mmap.find? fun a => addr < a.vmEnd

end Space

def Area.length (a : Area) : Nat := wrap (a.vmEnd + 2 ^ 32 - a.vmStart)

def Area.addrs (a : Area) : List Nat :=
  (List.range ((a.vmEnd - a.vmStart + pageSize - 1) / pageSize)).map fun i => a.vmStart + i * pageSize

def insertArea (a : Area) : List Area → List Area
  | [] => [a]
  | b :: l => if a.vmStart < b.vmStart then a :: b :: l else b :: insertArea a l

/-- The frames, the address spaces of the live tasks, and what the allocators are
going to answer: `page_alloc` fails on a frame that is not free. -/
structure Paging where
  nref : Nat → Int
  free : List Nat
  mem : Nat → Nat → Nat
  tasks : Finset Nat
  mm : Nat → Space
  answers : List Nat
  kmallocs : List Bool

namespace Paging

def kmalloc (s : Paging) : Bool × Paging :=
  match s.kmallocs with
  | [] => (false, s)
  | b :: rest => (b, { s with kmallocs := rest })

def pageAlloc (s : Paging) : Option Nat × Paging :=
  match s.answers with
  | [] => (none, s)
  | p :: rest =>
    if p ∈ s.free then
      (some p, { s with
        free := s.free.erase p
        mem := update s.mem p fun _ => 0
        answers := rest })
    else (none, { s with answers := rest })

def pageFree (s : Paging) (p : Nat) : Paging := { s with free := p :: s.free }

def atomicInc (s : Paging) (p : Nat) : Paging := { s with nref := update s.nref p (s.nref p + 1) }

def pageDecref (s : Paging) (p : Nat) : Paging :=
  let s := { s with nref := update s.nref p (s.nref p - 1) }
  if s.nref p = 0 then s.pageFree p else s

def setMm (s : Paging) (t : Nat) (sp : Space) : Paging := { s with mm := update s.mm t sp }

def pteSet (s : Paging) (t v : Nat) (e : Option Pte) : Paging := s.setMm t ((s.mm t).pteSet v e)

def getPmd (s : Paging) (t i : Nat) : Bool × Paging :=
  match s.pageAlloc with
  | (none, s) => (false, s)
  | (some p, s) =>
    let s := s.atomicInc p
    (true, s.setMm t ((s.mm t).pgdSet i (some ⟨p, fun _ => none⟩)))

def getPte (s : Paging) (t j : Nat) : Bool × Paging :=
  match s.pageAlloc with
  | (none, s) => (false, s)
  | (some p, s) =>
    let s := s.atomicInc p
    (true, s.setMm t ((s.mm t).pmdSet j (some ⟨p, fun _ => none⟩)))

def pageWalk (s : Paging) (t v : Nat) : Bool × Paging :=
  let j := v / ptrsPerTable
  let i := j / ptrsPerTable
  let (ok, s) := if ((s.mm t).pgd i).isSome then (true, s) else s.getPmd t i
  if ok then
    if ((s.mm t).pteTable j).isSome then (true, s) else s.getPte t j
  else (false, s)

/-- `page_lookup` walks without `create`; no table and no present entry are alike. -/
def pageRemove (s : Paging) (t va : Nat) : Option Paging :=
  if va = 0 then none
  else
    match (s.mm t).pte (va / pageSize) with
    | none => some s
    | some e => some ((s.pageDecref e.frame).pteSet t (va / pageSize) none)

def pageInsert (s : Paging) (t p va : Nat) : Option (Bool × Paging) :=
  if va = 0 then none
  else
    match s.pageWalk t (va / pageSize) with
    | (false, s) => some (false, s)
    | (true, s) =>
      let s := s.atomicInc p
      (if ((s.mm t).pte (va / pageSize)).isSome then s.pageRemove t va else some s).map fun s =>
        (true, s.pteSet t (va / pageSize) (some ⟨p, true⟩))

/-! ## Teardown -/

def unmapPages (s : Paging) (t : Nat) : List Nat → Option Paging
  | [] => some s
  | va :: l => do
    let s ← s.pageRemove t va
    s.unmapPages t l

/-- `delete_all_vma`: each round deletes the head of `mmap`. -/
def deleteAllVma (s : Paging) (t : Nat) : List Area → Option Paging
  | [] => some s
  | a :: l => do
    let s ← s.unmapPages t a.addrs
    (s.setMm t { s.mm t with mmap := l }).deleteAllVma t l

def freePte (s : Paging) (t j : Nat) : Paging :=
  match (s.mm t).pteTable j with
  | none => s
  | some tab =>
    let s := s.pageDecref tab.page
    s.setMm t ((s.mm t).pmdSet j none)

def freePmd (s : Paging) (t i : Nat) : Paging :=
  match (s.mm t).pgd i with
  | none => s
  | some m =>
    let s := (List.range ptrsPerTable).foldl (fun s k => s.freePte t (i * ptrsPerTable + k)) s
    let s := s.pageDecref m.page
    s.setMm t ((s.mm t).pgdSet i none)

/-- `exit_mm` where `delete_all_vma` comes to the areas in the order of `l`. -/
def exitAreas (s : Paging) (t : Nat) (l : List Area) : Option Paging := do
  let s ← s.deleteAllVma t l
  let s := (List.range userPgds).foldl (fun s i => s.freePmd t i) s
  let s := s.pageFree (s.mm t).page
  return { s with tasks := s.tasks.erase t }

def exitMm (s : Paging) (t : Nat) : Option Paging := s.exitAreas t (s.mm t).mmap

/-! ## Fork -/

def newArea (addr len : Nat) : Area :=
  ⟨roundDown addr pageSize, wrap (roundDown addr pageSize + roundUp len pageSize)⟩

/-- `create_vma`: `get_unmapped_vma` takes the address it is given or none. -/
def createVma (s : Paging) (t addr len : Nat) : Bool × Paging :=
  let sp := s.mm t
  if roundDown addr pageSize = 0 ∨ kernelBaseAddr < len ∨ kernelBaseAddr < wrap (addr + len) ∨
      ((sp.findVma addr).any fun a => a.vmStart < wrap (addr + len)) then (false, s)
  else
    let (ok, s) := s.kmalloc
    if ok then
      (true, s.setMm t { sp with mmap := insertArea (newArea addr len) sp.mmap })
    else (false, s)

def copyPages (s : Paging) (src dest : Nat) : List Nat → Bool × Paging
  | [] => (true, s)
  | va :: l =>
    let v := va / pageSize
    match (s.mm src).pte v with
    | none => s.copyPages src dest l
    | some e =>
      match s.pageWalk dest v with
      | (false, s) => (false, s)
      | (true, s) =>
        let e := { e with write := false }
        let s := s.pteSet src v (some e)
        let s := s.atomicInc e.frame
        (s.pteSet dest v (some e)).copyPages src dest l

/-- `copy_task`, along the areas of `src`. The length of an area that wraps around wraps as well. -/
def copyTask (s : Paging) (src dest : Nat) : List Area → Bool × Paging
  | [] => (true, s)
  | a :: l =>
    match s.createVma dest a.vmStart a.length with
    | (false, s) => (false, s)
    | (true, s) =>
      match s.copyPages src dest a.addrs with
      | (false, s) => (false, s)
      | (true, s) => s.copyTask src dest l

def newMm (s : Paging) (t brk p : Nat) : Paging :=
  { s.setMm t ⟨[], brk, p, fun _ => none⟩ with tasks := insert t s.tasks }

def copyFiles (s : Paging) : Bool × Paging :=
  match s.kmalloc with
  | (false, s) => (false, s)
  | (true, s) => s.kmalloc

/-- `do_fork` up to `copy_task`, with the page of the new `mm_struct`; the first two `kmalloc`s are those
of `alloc_task` and `alloc_mm`. When `copy_files` fails, the `mm_struct` and its page are dropped as they are. -/
def forkStart (s : Paging) : Option Nat × Paging :=
  match s.kmalloc with
  | (false, s) => (none, s)
  | (true, s) =>
    match s.kmalloc with
    | (false, s) => (none, s)
    | (true, s) =>
      match s.pageAlloc with
      | (none, s) => (none, s)
      | (some p, s) =>
        match s.copyFiles with
        | (false, s) => (none, s)
        | (true, s) => (some p, s)

/-- The areas of `t` are copied in the order of `l`, and those of a child that fails are deleted in the
order of `back`. -/
def forkAlong (s : Paging) (t child : Nat) (l : List Area) (back : List Area → List Area) : Option Paging :=
  match s.forkStart with
  | (none, s) => some s
  | (some p, s) =>
    match (s.newMm child (s.mm t).startBrk p).copyTask t child l with
    | (true, s) => some s
    | (false, s) => s.exitAreas child (back (s.mm child).mmap)

def doFork (s : Paging) (t child : Nat) : Option Paging := s.forkAlong t child (s.mm t).mmap id

/-! ## Program segments -/

def regionAlloc (s : Paging) (t : Nat) : List Nat → Option (Bool × Paging)
  | [] => some (true, s)
  | va :: l =>
    match s.pageAlloc with
    | (none, s) => some (false, s)
    | (some p, s) => do
      let (ok, s) ← s.pageInsert t p va
      if ok then s.regionAlloc t l else some (false, s)

/-- What `load_icode` does to the page tables for one segment. The area starts at
the page of `va` and is as long as `memsz`; the pages go on to `va + memsz`. -/
def loadSegment (s : Paging) (t va memsz : Nat) : Option (Bool × Paging) :=
  match s.createVma t va memsz with
  | (false, s) => some (false, s)
  | (true, s) => s.regionAlloc t (Area.addrs ⟨roundDown va pageSize, roundUp (wrap (va + memsz)) pageSize⟩)

/-! ## Page faults -/

def moveFrame (s : Paging) (t dst src : Nat) : Option Paging := do
  let d ← (s.mm t).frame dst
  let p ← (s.mm t).frame src
  return { s with mem := update s.mem d (s.mem p) }

-- `false` stands for the end of the task, by `exit(curtask)`.

def doWpFault (s : Paging) (t va : Nat) (e : Pte) : Option (Bool × Paging) :=
  if s.nref e.frame = 1 then some (true, s.pteSet t (va / pageSize) (some { e with write := true }))
  else
    match s.pageAlloc with
    | (none, s) => some (false, s)
    | (some p, s) => do
      let (ok, s) ← s.pageInsert t p userTempBott
      if ok then
        let s ← s.moveFrame t (userTempBott / pageSize) (va / pageSize)
        let (ok, s) ← s.pageInsert t p va
        let s ← s.pageRemove t userTempBott
        if ok then some (true, s) else none
      else some (false, s.pageFree p)

/-- The stack and the heap are filled on demand, any other hole is a panic. -/
def handlePteFault (s : Paging) (t : Nat) (a : Area) (va : Nat) (write : Bool) : Option (Bool × Paging) :=
  match (s.mm t).pte (va / pageSize) with
  | some e => if write && !e.write then s.doWpFault t va e else none
  | none =>
    if a.vmStart = userStackBott ∨ a.vmStart = (s.mm t).startBrk then
      match s.pageAlloc with
      | (none, s) => some (false, s)
      | (some p, s) => do
        let (ok, s) ← s.pageInsert t p va
        if ok then some (true, s) else none
    else none

/-- `page_fault_handler` once `find_vma` has answered `vma`. -/
def faultIn (s : Paging) (t va : Nat) (write : Bool) (vma : Option Area) : Option (Bool × Paging) :=
  match vma with
  | none => some (false, s)
  | some a =>
    if va < a.vmStart then some (false, s)
    else
      match s.pageWalk t (va / pageSize) with
      | (false, s) => some (false, s)
      | (true, s) => s.handlePteFault t a va write

def pageFaultHandler (s : Paging) (t va : Nat) (write : Bool) : Option Paging :=
  (s.faultIn t va write ((s.mm t).findVma va)).bind fun (ok, s) => if ok then some s else s.exitMm t

/-! ## Memory accesses -/

def read (s : Paging) (t va : Nat) : Option Nat :=
  if va < kernelBaseAddr then ((s.mm t).frame (va / pageSize)).map fun p => s.mem p (va % pageSize) else none

def store (s : Paging) (t va b : Nat) : Option Paging :=
  match (s.mm t).pte (va / pageSize) with
  | some ⟨p, true⟩ =>
    if va < kernelBaseAddr then
      some { s with mem := update s.mem p (update (s.mem p) (va % pageSize) b) }
    else none
  | _ => none

end Paging

inductive PagingStep : Paging → Paging → Prop
  | fork {s s' t child} : t ∈ s.tasks → child ∉ s.tasks → s.doFork t child = some s' → PagingStep s s'
  | fault {s s' t va write} : t ∈ s.tasks → s.pageFaultHandler t va write = some s' → PagingStep s s'
  | remove {s s' t va} : t ∈ s.tasks → va < kernelBaseAddr → s.pageRemove t va = some s' → PagingStep s s'
  | exit {s s' t} : t ∈ s.tasks → s.exitMm t = some s' → PagingStep s s'
  | store {s s' t va b} : t ∈ s.tasks → s.store t va b = some s' → PagingStep s s'
  | oracle {s} (answers kmallocs) : PagingStep s { s with answers := answers, kmallocs := kmallocs }

end MiniOS
