import MiniOS.Errno
import MiniOS.Files
import MiniOS.Pipe
import MiniOS.Tty

/-!
# System calls with a user's buffer

`read`, `write` and `pipe` from the trap to the file operations of ramfs, pipefs and ttyfs. A call
says what it returns and which bytes it loads and stores through the pointer it was given. Nothing
on the way looks at the pointer: `user_mem_check` is only called by `sys_cputs`.
-/

namespace MiniOS

open Function

inductive FileOps where
  | none
  | ramfs (size : BitVec 32) (start : Nat → UInt8)
  | pipe (info : Nat)
  | tty

structure OpenFile where
  fFlags : Nat
  fPos : Nat
  fOp : FileOps

structure IoState where
  fd : Fin maxFile → Option Nat
  file : Nat → OpenFile
  pipes : Nat → PipeInodeInfo
  tty : TtyQueue
  mem : Nat → UInt8

structure IoResult where
  ret : Int
  loads : List Nat
  stores : List (Nat × UInt8)
  state : IoState

def bytesAt (buf : Nat) (l : List UInt8) : List (Nat × UInt8) := l.zipIdx.map fun x => (wrap (buf + x.2), x.1)

def addrsAt (buf n : Nat) : List Nat := (List.range n).map fun j => wrap (buf + j)

def intBytes (v : BitVec 32) : List UInt8 :=
  [UInt8.ofNat v.toNat, UInt8.ofNat (v.toNat / 2 ^ 8), UInt8.ofNat (v.toNat / 2 ^ 16),
    UInt8.ofNat (v.toNat / 2 ^ 24)]

/-- How many bytes `ramfs_file_read` copies, as the `size_t` of `memcpy`. The `int size` is compared
and subtracted as an `unsigned`. -/
def ramfsCount (size : BitVec 32) (pos : Nat) (count : Int) : Nat :=
  if size.toNat ≤ wrap (pos + toUnsigned count) then wsub size.toNat pos else toUnsigned count

-- `printk("%.*s", left, p)` looks at a byte before it looks at the precision.
def strLoads (mem : Nat → UInt8) : (left p : Nat) → List Nat
  | 0, _ => []
  | left + 1, p => p :: if mem p = 0 then [] else strLoads mem left (wrap (p + 1))

namespace IoState

variable (s : IoState)

def error (e : Int) : IoResult := ⟨-e, [], [], s⟩

def setMem (l : List (Nat × UInt8)) : IoState :=
  { s with mem := l.foldl (fun m x => update m x.1 x.2) s.mem }

def storing (ret : Int) (buf : Nat) (l : List UInt8) : IoResult :=
  ⟨ret, [], bytesAt buf l, s.setMem (bytesAt buf l)⟩

def setPos (p pos : Nat) : IoState := { s with file := update s.file p { s.file p with fPos := pos } }

def setPipe (x : Nat) (info : PipeInodeInfo) : IoState := { s with pipes := update s.pipes x info }

/-! ## File operations -/

def ramfsFileRead (p : Nat) (size : BitVec 32) (start : Nat → UInt8) (buf : Nat) (count : Int) : IoResult :=
  let pos := (s.file p).fPos
  if size.toNat ≤ pos then ⟨0, [], [], s⟩
  else
    let n := ramfsCount size pos count
    (s.setPos p (wrap (pos + n))).storing (toSigned n) buf ((List.range n).map fun j => start (pos + j))

def pipeRead (x buf : Nat) (count : Int) : IoResult :=
  let r := pipefsFileRead (s.pipes x) count
  (s.setPipe x r.2).storing r.1.length buf r.1

-- The caller's bytes are taken for `int`s.
def ttyfsFileRead (buf : Nat) (count : Int) : IoResult :=
  let r := s.tty.ttyRead count
  { s with tty := r.2 }.storing r.1.length buf ((r.1.map s.tty.buf).flatMap intBytes)

def ramfsFileWrite : IoResult := ⟨0, [], [], s⟩

def pipeWrite (x buf : Nat) (count : Int) : IoResult :=
  let r := pipefsFileWrite (s.pipes x) (fun j => s.mem (wrap (buf + j))) count
  ⟨r.1, addrsAt buf r.1, [], s.setPipe x r.2⟩

/-- How many bytes the conversion `%.*s` may look at; it goes on for ever if there is no end. -/
def strLeft (count : Int) : Nat := if count < 0 then 2 ^ 32 else count.toNat + 1

def ttyfsFileWrite (buf : Nat) (count : Int) : IoResult :=
  ⟨count, if buf = 0 then [] else strLoads s.mem (strLeft count) buf, [], s⟩

/-! ## The calls -/

def canRead (f : OpenFile) : Bool := f.fFlags % 4 = 0 || f.fFlags % 4 = 2

def canWrite (f : OpenFile) : Bool := f.fFlags % 4 = 1 || f.fFlags % 4 = 2

def fOpRead (p buf : Nat) (count : Int) : IoResult :=
  match (s.file p).fOp with
  | .none => s.error enothing
  | .ramfs size start => s.ramfsFileRead p size start buf count
  | .pipe x => s.pipeRead x buf count
  | .tty => s.ttyfsFileRead buf count

def fOpWrite (p buf : Nat) (count : Int) : IoResult :=
  match (s.file p).fOp with
  | .none => s.error 1
  | .ramfs _ _ => s.ramfsFileWrite
  | .pipe x => s.pipeWrite x buf count
  | .tty => s.ttyfsFileWrite buf count

def read (i : Fin maxFile) (buf : Nat) (count : Int) : IoResult :=
  match s.fd i with
  | none => s.error ebadf
  | some p => if canRead (s.file p) then s.fOpRead p buf count else s.error eacces

def write (i : Fin maxFile) (buf : Nat) (count : Int) : IoResult :=
  match s.fd i with
  | none => s.error ebadf
  | some p => if canWrite (s.file p) then s.fOpWrite p buf count else s.error eacces

def setFile (i : Fin maxFile) (p : Nat) (f : OpenFile) : IoState :=
  { s with fd := update s.fd i (some p), file := update s.file p f }

def getEmptyFile (mem : Option Nat) : Option (Fin maxFile × Nat × IoState) :=
  match (List.finRange maxFile).find? fun i => s.fd i = none, mem with
  | some i, some p => some (i, p, s.setFile i p ⟨0, 0, .none⟩)
  | _, _ => none

def pipe (fd : Nat) (mem₁ mem₂ info : Option Nat) (dentry : Bool) : IoResult :=
  match s.getEmptyFile mem₁ with
  | none => s.error enfile
  | some (i, p, s) =>
    match s.getEmptyFile mem₂ with
    | none => s.error enfile
    | some (j, q, s) =>
      match info with
      | none => s.error enfile
      | some x =>
        if dentry then
          (((s.setPipe x getPipeInfo).setFile i p ⟨0, 0, .pipe x⟩).setFile j q ⟨1, 0, .pipe x⟩).storing 0 fd
            (intBytes i ++ intBytes j)
        else s.error enomem

end IoState

inductive UserCall where
  | read (i : Fin maxFile) (buf : Nat) (count : Int)
  | write (i : Fin maxFile) (buf : Nat) (count : Int)
  | pipe (fd : Nat) (mem₁ mem₂ info : Option Nat) (dentry : Bool)

namespace UserCall

def buf : UserCall → Nat
  | .read _ buf _ => buf
  | .write _ buf _ => buf
  | .pipe fd _ _ _ _ => fd

def len : UserCall → Nat
  | .read _ _ count => count.toNat
  | .write _ _ count => count.toNat
  | .pipe _ _ _ _ _ => 8

def Args : UserCall → Prop
  | .read _ buf count => buf < 2 ^ 32 ∧ -2 ^ 31 ≤ count ∧ count < 2 ^ 31
  | .write _ buf count => buf < 2 ^ 32 ∧ -2 ^ 31 ≤ count ∧ count < 2 ^ 31
  | .pipe fd _ _ _ _ => fd < 2 ^ 32

end UserCall

namespace IoState

variable (s : IoState)

def call : UserCall → IoResult
  | .read i buf count => s.read i buf count
  | .write i buf count => s.write i buf count
  | .pipe fd mem₁ mem₂ info dentry => s.pipe fd mem₁ mem₂ info dentry

def Refused : UserCall → Prop
  | .read i _ _ => ∀ p, s.fd i = some p → canRead (s.file p) = false ∨ (s.file p).fOp = .none
  | .write i _ _ => ∀ p, s.fd i = some p → canWrite (s.file p) = false ∨ (s.file p).fOp = .none
  | .pipe _ mem₁ mem₂ info dentry =>
    (Finset.univ.filter fun i => s.fd i = none).card < 2 ∨ mem₁ = none ∨ mem₂ = none ∨ info = none ∨ dentry = false

end IoState

def TtyQueue.waiting (q : TtyQueue) (nr : Int) : Nat := min nr.toNat ((q.tail + 2 ^ 30 - q.head) % 2 ^ 30)

def Below (buf n : Nat) : Prop := ∀ j < n, wrap (buf + j) < kernelBaseAddr

/-- The range the caller gives is below the kernel's half, and so is what the operation takes beyond
it: `ramfs` with a negative count, four bytes for each key, and the end of a string that is written
to the terminal. -/
def IoState.Confined (s : IoState) : UserCall → Prop
  | .read i buf count =>
    Below buf count.toNat ∧ ∀ p, s.fd i = some p →
      match (s.file p).fOp with
      | .ramfs size _ => count < 0 → (s.file p).fPos < size.toNat →
        Below buf (ramfsCount size (s.file p).fPos count)
      | .tty => Below buf (4 * s.tty.waiting count)
      | _ => True
  | .write i buf count =>
    Below buf count.toNat ∧ ∀ p, s.fd i = some p → (s.file p).fOp = .tty → buf ≠ 0 →
      ∀ j < strLeft count, (∀ k < j, s.mem (wrap (buf + k)) ≠ 0) → wrap (buf + j) < kernelBaseAddr
  | .pipe fd _ _ _ _ => Below fd 8

def IoState.KeyWaits (s : IoState) (i : Fin maxFile) : Prop :=
  ∃ p, s.fd i = some p ∧ canRead (s.file p) = true ∧ (s.file p).fOp = .tty ∧ s.tty.head ≠ s.tty.tail

/-- The kernel's half is left alone, and a range that reaches into it is an error. -/
def IoResult.Guarded (r : IoResult) (c : UserCall) : Prop :=
  (∀ a ∈ r.loads ++ r.stores.map Prod.fst, a < kernelBaseAddr) ∧
    ((∃ j < c.len, kernelBaseAddr ≤ wrap (c.buf + j)) → r.ret < 0)

/-- The bytes that are stored are those the caller is told of, no more than there is room for. -/
def IoResult.Contained (r : IoResult) (buf : Nat) (count : Int) : Prop :=
  r.ret ≤ count ∧ ∀ x ∈ r.stores, ∃ j : Nat, (j : Int) < r.ret ∧ x.1 = wrap (buf + j)

end MiniOS
