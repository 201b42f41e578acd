import MiniOS.Files
import MiniOS.Pipe
import MiniOS.Runs

/-!
# The ends of pipes

Descriptors and pipes together: which slots refer to an end of which pipe, and the two counters
in `struct pipe_inode_info`. Only `pipefs_file_flush` and `get_pipe_info` touch the counters; the
calls that copy a descriptor do not. The memory of a `pipe_inode_info` is never freed, so that its
address names the pipe.
-/

namespace MiniOS

inductive PipeEnd where
  | reader
  | writer
  deriving DecidableEq

-- The counter of the writers goes up when a write end is released.
def PipeInodeInfo.flush (info : PipeInodeInfo) : PipeEnd → PipeInodeInfo
  | .reader => { info with pReader := info.pReader - 1 }
  | .writer => { info with pWriter := info.pWriter + 1 }

def PipeInodeInfo.counter (info : PipeInodeInfo) : PipeEnd → Int
  | .reader => info.pReader
  | .writer => info.pWriter

structure PipeFiles where
  files : Files
  /-- The files whose `f_op` is `pipefs_file_op`: their pipe and end. -/
  pend : Nat → Option (Nat × PipeEnd)
  infos : Nat → Option PipeInodeInfo

namespace PipeFiles

variable (s : PipeFiles)

def setFiles (f : Files) : PipeFiles := { s with files := f }

def slot (t : Nat) (i : Fin maxFile) : Option (Nat × PipeEnd) := (s.files.fd t i).bind s.pend

def pipefsFileFlush (p : Nat) : PipeFiles :=
  match s.pend p with
  | none => s
  | some (x, e) => { s with infos := Function.update s.infos x ((s.infos x).map (·.flush e)) }

def derefFile (i : Fin maxFile) : Option PipeFiles :=
  match s.files.fd s.files.curtask i with
  | none => some s
  | some p => (s.files.derefFile i).map (s.pipefsFileFlush p).setFiles

/-- Of a new file `p`: its end of a pipe, none while `f_op` is not set. -/
def setFile (p : Nat) (o : Option (Nat × PipeEnd)) (f : Files) : PipeFiles :=
  { s with files := f, pend := Function.update s.pend p o }

def setInfo (x : Nat) (info : PipeInodeInfo) :
    PipeFiles := { s with infos := Function.update s.infos x (some info) }

-- No path leads to the inode of a pipe.
def sysOpen (found : Bool) (mem : Option Nat) (opened : Bool) : PipeFiles :=
  match s.files.getUnusedFd, found, mem with
  | some _, true, some p => s.setFile p none (s.files.sysOpen found mem opened)
  | _, _, _ => s

def dup (oldfd : Int) : Option PipeFiles := (s.files.dup oldfd).map s.setFiles

def dup2 (oldfd newfd : Int) : Option PipeFiles :=
  if oldfd = newfd then some s
  else
    (Files.fdIndex oldfd).bind fun i =>
      match s.files.fd s.files.curtask i with
      | none => some s
      | some old =>
        (Files.fdIndex newfd).bind fun j =>
          (s.derefFile j).bind fun s =>
            ((s.files.setFd s.files.curtask j (some old)).incCount old).map s.setFiles

-- `info` is the memory of the new `pipe_inode_info`. There is no inode without it, and it is lost
-- when the dentry cannot be had.
def pipe (mem₁ mem₂ info : Option Nat) (dentry : Bool) : PipeFiles :=
  match s.files.getEmptyFile mem₁ with
  | none => s
  | some (_, p, f) =>
    match f.getEmptyFile mem₂ with
    | none => s.setFile p none f
    | some (_, q, f') =>
      match info, dentry with
      | some x, true =>
        ((s.setInfo x getPipeInfo).setFile p (some (x, .reader)) f).setFile q (some (x, .writer))
          (s.files.pipe mem₁ mem₂ true true)
      | _, _ => (s.setFile p none f).setFile q none f'

def doFork (child : Nat) (ok : Files.ForkSteps) : Option PipeFiles :=
  (s.files.doFork child ok).map s.setFiles

def execve (found : Bool) (child : Nat) : Option PipeFiles :=
  (s.files.execve found child).map s.setFiles

def exitFiles (_task : Nat) : Option PipeFiles := (List.finRange maxFile).foldlM derefFile s

def exit (task : Nat) : Option PipeFiles :=
  (s.exitFiles task).map fun s => s.setFiles { s.files with live := s.files.live.erase task }

def schedule (next : Nat) : Option PipeFiles := (s.files.schedule next).map s.setFiles

def sysExit (pid next : Nat) : Option PipeFiles :=
  (s.files.pid2task pid).bind fun task => (s.exit task).bind fun s => s.schedule next

def io (e : PipeEnd) (i : Fin maxFile) (call : PipeInodeInfo → PipeInodeInfo) : PipeFiles :=
  match s.slot s.files.curtask i with
  | none => s
  | some (x, e') => if e' = e then { s with infos := Function.update s.infos x ((s.infos x).map call) } else s

def read (i : Fin maxFile) (count : Int) : PipeFiles := s.io .reader i fun info => (pipefsFileRead info count).2

def write (i : Fin maxFile) (buf : Nat → UInt8) (count : Int) : PipeFiles :=
  s.io .writer i fun info => (pipefsFileWrite info buf count).2

end PipeFiles

/-! ## Runs -/

inductive PipeFileOp where
  | sysOpen (found : Bool) (mem : Option Nat) (opened : Bool)
  | dup (oldfd : Int)
  | dup2 (oldfd newfd : Int)
  | pipe (mem₁ mem₂ info : Option Nat) (dentry : Bool)
  | fork (child : Nat) (ok : Files.ForkSteps)
  | execve (found : Bool) (child : Nat)
  | deref (i : Fin maxFile)
  | exit (pid next : Nat)
  | switch (next : Nat)
  | read (i : Fin maxFile) (count : Int)
  | write (i : Fin maxFile) (buf : Nat → UInt8) (count : Int)

namespace PipeFiles

variable (s : PipeFiles)

def step : PipeFileOp → Option PipeFiles
  | .sysOpen found mem opened => some (s.sysOpen found mem opened)
  | .dup oldfd => s.dup oldfd
  | .dup2 oldfd newfd => s.dup2 oldfd newfd
  | .pipe mem₁ mem₂ info dentry => some (s.pipe mem₁ mem₂ info dentry)
  | .fork child ok => s.doFork child ok
  | .execve found child => s.execve found child
  | .deref i => s.derefFile i
  | .exit pid next => s.sysExit pid next
  | .switch next => s.schedule next
  | .read i count => some (s.read i count)
  | .write i buf count => some (s.write i buf count)

def next (op : PipeFileOp) : PipeFiles := (s.step op).getD s

def Unused (p : Nat) : Prop := ∀ t ∈ s.files.live, ∀ i, s.files.fd t i ≠ some p

def Allowed (op : PipeFileOp) : Prop :=
  s.step op ≠ none ∧
    match op with
    | .sysOpen _ mem _ => ∀ p ∈ mem, s.Unused p
    | .pipe mem₁ mem₂ info _ =>
      (∀ p ∈ mem₁, s.Unused p) ∧ (∀ q ∈ mem₂, s.Unused q ∧ mem₁ ≠ some q) ∧ ∀ x ∈ info, s.infos x = none
    | .fork child _ => child ∉ s.files.live
    | .execve _ child => child ∉ s.files.live
    | _ => True

def ends (k : Nat × PipeEnd) : Nat :=
  refs (s.files.live ×ˢ Finset.univ) (fun x : Nat × Fin maxFile => s.slot x.1 x.2) k

/-- The counters are the numbers of open ends, and they tell a read of an empty pipe what to do. -/
structure EndsRight : Prop where
  reader : ∀ x info, s.infos x = some info → info.pReader = s.ends (x, .reader)
  writer : ∀ x info, s.infos x = some info → info.pWriter = s.ends (x, .writer)
  eof : ∀ x info, s.infos x = some info → info.pRpos = info.pWpos → ∀ count > 0,
    ((pipefsFileRead info count).1.length = 0 ↔ s.ends (x, .writer) = 0)

def NoEnds (t : Nat) : Prop := ∀ i, s.slot t i = none

def NoWriter (i : Fin maxFile) : Prop := ∀ x, s.slot s.files.curtask i ≠ some (x, .writer)

/-- No descriptor of a pipe is copied, no write end is released, and no task with a descriptor of
a pipe is killed by another one. -/
def KeepsEnds : PipeFileOp → Prop
  | .dup oldfd => ∀ i ∈ Files.fdIndex oldfd, s.files.getUnusedFd ≠ none → s.slot s.files.curtask i = none
  | .dup2 oldfd newfd =>
    oldfd ≠ newfd → ∀ i ∈ Files.fdIndex oldfd, s.files.fd s.files.curtask i ≠ none →
      s.slot s.files.curtask i = none ∧ ∀ j ∈ Files.fdIndex newfd, s.NoWriter j
  | .fork _ ok =>
    (ok.allocTask = true ∧ ok.taskSetVm = true ∧ ok.fs = true ∧ ok.files = true) ∧ ok.copyTask = true →
      s.NoEnds s.files.curtask
  | .execve found _ => found = true → s.NoEnds s.files.curtask
  | .deref i => s.NoWriter i
  | .exit pid _ =>
    (∀ i, s.NoWriter i) ∧ (s.files.exitTarget pid ≠ s.files.curtask → s.NoEnds (s.files.exitTarget pid))
  | _ => True

structure Start : Prop where
  curtask : s.files.curtask ∈ s.files.live
  tables : ∀ t ∈ s.files.live, s.files.NoFiles t
  pipes : ∀ x, s.infos x = none
  files : ∀ p, s.pend p = none

end PipeFiles

end MiniOS
