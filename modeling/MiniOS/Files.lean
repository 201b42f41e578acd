import MiniOS.RefCount
import MiniOS.Word
import Mathlib.Data.Fintype.Basic
import Mathlib.Data.Fintype.Card
import Mathlib.Logic.Relation

/-!
# Open files

Descriptor tables of the tasks and the reference counts of the `struct file`s, under the
system calls that change them. The allocator, the path lookup and the file operations
answer what they like: their answers are arguments of the calls. `none` is a panic, an
access outside of the table of descriptors, or a use of a freed file.
-/

namespace MiniOS

open Function

def maxFile : Nat := 128

def firstFd : Fin maxFile := ⟨0, by decide⟩

def pidMax : Nat := 0x8000

structure Files where
  curtask : Nat
  live : Finset Nat
  ppid : Nat → Nat
  fd : Nat → Fin maxFile → Option Nat
  /-- `f_count` of the files that are allocated. -/
  fCount : Nat → Option Nat

namespace Files

variable (s : Files)

def setFd (t : Nat) (i : Fin maxFile) (o : Option Nat) : Files :=
  { s with fd := update s.fd t (update (s.fd t) i o) }

def setCount (p : Nat) (o : Option Nat) : Files := { s with fCount := update s.fCount p o }

def incCount (p : Nat) : Option Files := (s.fCount p).map fun n => s.setCount p (some (wrap (n + 1)))

def fdIndex (fd : Int) : Option (Fin maxFile) :=
  if h : 0 ≤ fd ∧ fd < maxFile then some ⟨fd.toNat, by omega⟩ else none

/-! ## file.c -/

def getUnusedFd : Option (Fin maxFile) := (List.finRange maxFile).find? fun i => s.fd s.curtask i = none

def getEmptyFile (mem : Option Nat) : Option (Fin maxFile × Nat × Files) :=
  match s.getUnusedFd, mem with
  | some i, some p => some (i, p, (s.setCount p (some 0)).setFd s.curtask i (some p))
  | _, _ => none

def derefFile (i : Fin maxFile) : Option Files :=
  match s.fd s.curtask i with
  | none => some s
  | some p =>
    (s.fCount p).map fun n =>
      let n' := wsub n 1
      (s.setCount p (if n' = 0 then none else some n')).setFd s.curtask i none

/-! ## The system calls -/

def sysOpen (found : Bool) (mem : Option Nat) (opened : Bool) : Files :=
  match s.getUnusedFd, found, mem with
  | some i, true, some p =>
    if opened then (s.setCount p (some 1)).setFd s.curtask i (some p)
    else (s.setCount p (some 1)).setCount p none
  | _, _, _ => s

def dup (oldfd : Int) : Option Files :=
  (fdIndex oldfd).bind fun i =>
    match s.fd s.curtask i, s.getUnusedFd with
    | some old, some j => (s.setFd s.curtask j (some old)).incCount old
    | _, _ => some s

def dup2 (oldfd newfd : Int) : Option Files :=
  if oldfd = newfd then some s
  else
    (fdIndex oldfd).bind fun i =>
      match s.fd s.curtask i with
      | none => some s
      | some old =>
        (fdIndex newfd).bind fun j =>
          (s.derefFile j).bind fun s => (s.setFd s.curtask j (some old)).incCount old

-- Every failure takes the same way out, which undoes nothing.
def pipe (mem₁ mem₂ : Option Nat) (inode dentry : Bool) : Files :=
  match s.getEmptyFile mem₁ with
  | none => s
  | some (i, p, s) =>
    match s.getEmptyFile mem₂ with
    | none => s
    | some (j, q, s) =>
      if inode ∧ dentry then
        (((s.setCount p (some 1)).setCount q (some 1)).setFd s.curtask i (some p)).setFd s.curtask j (some q)
      else s

def incCounts (l : List (Fin maxFile)) : Option Files :=
  l.foldlM (fun s i =>
    match s.fd s.curtask i with
    | none => some s
    | some p => s.incCount p) s

def enter (t : Nat) : Files :=
  { s with
    live := insert t s.live
    ppid := update s.ppid t s.curtask
    fd := update s.fd t (s.fd s.curtask) }

structure ForkSteps where
  allocTask : Bool
  taskSetVm : Bool
  fs : Bool
  files : Bool
  copyTask : Bool

-- A failing `copy_task` leaves the counts `copy_files` has raised.
def doFork (child : Nat) (ok : ForkSteps) : Option Files :=
  if ok.allocTask ∧ ok.taskSetVm ∧ ok.fs ∧ ok.files then
    (s.incCounts (List.finRange maxFile)).map fun s => if ok.copyTask then s.enter child else s
  else some s

-- `task_create` panics when it fails.
def execve (found : Bool) (child : Nat) : Option Files :=
  if found then (s.enter child).incCounts (List.finRange maxFile) else some s

-- The argument is not looked at: the table is that of `curtask`.
def exitFiles (_task : Nat) : Option Files := (List.finRange maxFile).foldlM derefFile s

def exit (task : Nat) : Option Files :=
  (s.exitFiles task).map fun s => { s with live := s.live.erase task }

def pid2task (pid : Nat) : Option Nat :=
  if pid = 0 then some s.curtask
  else if pid ∈ s.live ∧ (pid = s.curtask ∨ s.ppid pid = s.curtask) then some pid
  else none

def schedule (next : Nat) : Option Files := if next ∈ s.live then some { s with curtask := next } else none

-- An error of `pid2task` comes back to the panic behind the call.
def sysExit (pid next : Nat) : Option Files :=
  (s.pid2task pid).bind fun task => (s.exit task).bind fun s => s.schedule next

end Files

/-! ## Runs -/

inductive FileOp where
  | sysOpen (found : Bool) (mem : Option Nat) (opened : Bool)
  | dup (oldfd : Int)
  | dup2 (oldfd newfd : Int)
  | pipe (mem₁ mem₂ : Option Nat) (inode dentry : Bool)
  | fork (child : Nat) (ok : Files.ForkSteps)
  | execve (found : Bool) (child : Nat)
  | exit (pid next : Nat)
  | switch (next : Nat)

namespace Files

def step (s : Files) : FileOp → Option Files
  | .sysOpen found mem opened => some (s.sysOpen found mem opened)
  | .dup oldfd => s.dup oldfd
  | .dup2 oldfd newfd => s.dup2 oldfd newfd
  | .pipe mem₁ mem₂ inode dentry => some (s.pipe mem₁ mem₂ inode dentry)
  | .fork child ok => s.doFork child ok
  | .execve found child => s.execve found child
  | .exit pid next => s.sysExit pid next
  | .switch next => s.schedule next

/-- What `kmalloc` and `alloc_pidmap` can answer: memory and pids that are not in use. -/
def Allowed (s : Files) : FileOp → Prop
  | .sysOpen _ mem _ => ∀ p ∈ mem, s.fCount p = none
  | .pipe mem₁ mem₂ _ _ => (∀ p ∈ mem₁, s.fCount p = none) ∧ ∀ q ∈ mem₂, s.fCount q = none ∧ mem₁ ≠ some q
  | .fork child _ => child ∉ s.live ∧ child < pidMax
  | .execve _ child => child ∉ s.live ∧ child < pidMax
  | _ => True

def uses (s : Files) (p : Nat) : Nat :=
  refs (s.live ×ˢ Finset.univ) (fun x : Nat × Fin maxFile => s.fd x.1 x.2) p

structure Counted (s : Files) : Prop where
  count : ∀ p n, s.fCount p = some n → n = s.uses p
  alive : ∀ t ∈ s.live, ∀ i p, s.fd t i = some p → s.fCount p ≠ none

def NoFiles (s : Files) (t : Nat) : Prop := ∀ i, s.fd t i = none

def freeFds (s : Files) : Nat := (Finset.univ.filter fun i => s.fd s.curtask i = none).card

/-- `pipe` fails at its first file or not at all, `fork` fails before the counts are raised or
not at all or there is nothing to count, descriptors are in range, and a child is killed only
when neither it nor its parent has an open file. -/
def Orderly (s : Files) : FileOp → Prop
  | .dup oldfd => 0 ≤ oldfd ∧ oldfd < maxFile
  | .dup2 oldfd newfd =>
    oldfd = newfd ∨ (0 ≤ oldfd ∧ oldfd < maxFile) ∧ 0 ≤ newfd ∧ newfd < maxFile
  | .pipe mem₁ mem₂ inode dentry =>
    s.freeFds = 0 ∨ mem₁ = none ∨ (2 ≤ s.freeFds ∧ mem₂ ≠ none ∧ inode = true ∧ dentry = true)
  | .fork _ ok =>
    (ok.allocTask = true ∧ ok.taskSetVm = true ∧ ok.fs = true ∧ ok.files = true) → ok.copyTask = true ∨
      s.NoFiles s.curtask
  | .exit pid _ => pid = 0 ∨ pid = s.curtask ∨ (s.NoFiles s.curtask ∧ s.NoFiles pid)
  | _ => True

def exitTarget (s : Files) (pid : Nat) : Nat := if pid = 0 then s.curtask else pid

structure Start (s : Files) : Prop where
  curtask : s.curtask ∈ s.live
  pids : ∀ t ∈ s.live, t < pidMax
  tables : ∀ t ∈ s.live, s.NoFiles t
  files : ∀ p, s.fCount p = none

end Files

end MiniOS
