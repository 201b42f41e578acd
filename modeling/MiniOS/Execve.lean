import MiniOS.Elf

/-!
# `execve`

`execve.c` and the `task_create` it calls, on the bytes of the file and of the arguments. The
arguments are laid out in a page that the caller has at `USER_TEMPBOTT` for a while and that the new
task has at the top of its stack. A pointer is taken modulo `2 ^ 32` where it is used.
-/

namespace MiniOS

/-! ## Strings and arrays of strings -/

/-- A memory of which some addresses are out of reach. -/
abbrev Bytes := Nat → Option UInt8

namespace Bytes

variable (v : Bytes)

def word (a : Nat) : Option Nat := do
  let b₀ ← v (wrap a)
  let b₁ ← v (wrap (a + 1))
  let b₂ ← v (wrap (a + 2))
  let b₃ ← v (wrap (a + 3))
  return b₀.toNat + 256 * b₁.toNat + 65536 * b₂.toNat + 16777216 * b₃.toNat

def IsStr : Nat → List UInt8 → Prop
  | p, [] => v (wrap p) = some 0
  | p, c :: s => c ≠ 0 ∧ v (wrap p) = some c ∧ IsStr (p + 1) s

def IsArgv : Nat → List (List UInt8) → Prop
  | a, [] => v.word a = some 0
  | a, s :: l => (∃ p, v.word a = some p ∧ p ≠ 0 ∧ v.IsStr p s) ∧ IsArgv (a + 4) l

end Bytes

namespace Mem

def word (m : Mem) (a : Nat) : Nat := ld32 (fun x => m (wrap x)) a

def without (m : Mem) (R : Nat → Prop) [DecidablePred R] : Bytes := fun x => if R x then none else some (m x)

def strlen (m : Mem) : Nat → Nat → Option Nat
  | 0, _ => none
  | fuel + 1, s => if m (wrap s) = 0 then some 0 else (m.strlen fuel (s + 1)).map (· + 1)

def countArgs (m : Mem) (len : Nat) : Nat → Nat → Option (Nat × Nat)
  | 0, _ => none
  | fuel + 1, argv =>
    if m.word argv = 0 then some (0, 0)
    else
      (m.strlen len (m.word argv)).bind fun n =>
        (m.countArgs len fuel (argv + 4)).map fun (argc, size) => (argc + 1, n + 1 + size)

end Mem

/-! ## The stack of the new task -/

/-- The memory of the caller, and the stores that it got. -/
structure ArgStore where
  mem : Mem
  log : List (Nat × UInt8)

namespace ArgStore

variable (s : ArgStore)

def put (a : Nat) (b : UInt8) : ArgStore := ⟨Function.update s.mem (wrap a) b, s.log ++ [(wrap a, b)]⟩

def putWord (a n : Nat) : ArgStore :=
  (((s.put a (UInt8.ofNat n)).put (a + 1) (UInt8.ofNat (n / 256))).put (a + 2) (UInt8.ofNat (n / 65536))).put
    (a + 3) (UInt8.ofNat (n / 16777216))

def strcpy : ArgStore → Nat → Nat → Nat → Option ArgStore
  | _, 0, _, _ => none
  | s, fuel + 1, dst, src =>
    let c := s.mem (wrap src)
    let s := s.put dst c
    if c = 0 then some s else s.strcpy fuel (dst + 1) (src + 1)

end ArgStore

def utemp2ustack (addr : Nat) : Nat := wsub (addr + (userStackTop - pageSize)) userTempBott

def storeStrings (fuel argv argvStore : Nat) : Nat → Nat → Nat → ArgStore → Option ArgStore
  | 0, _, _, s => some s
  | n + 1, i, stringStore, s =>
    let s := s.putWord (argvStore + 4 * i) (utemp2ustack stringStore)
    (s.strcpy fuel stringStore (s.mem.word (argv + 4 * i))).bind fun s =>
      (s.mem.strlen fuel (s.mem.word (argv + 4 * i))).bind fun len =>
        storeStrings fuel argv argvStore n (i + 1) (stringStore + len + 1) s

def storeArgs (m : Mem) (fuel argv : Nat) : Option (ArgStore × Nat) :=
  let m := m.clear userTempBott pageSize
  (m.countArgs fuel fuel argv).bind fun (argc, stringSize) =>
    let stringStore := wsub (userTempBott + pageSize) stringSize
    let argvStore := wsub (roundDown stringStore 4) (4 * (argc + 1))
    (storeStrings fuel argv argvStore argc 0 stringStore ⟨m, []⟩).map fun s =>
      let s := s.putWord (argvStore + 4 * argc) 0
      let s := s.putWord (wsub argvStore 4) (utemp2ustack argvStore)
      let s := s.putWord (wsub argvStore 8) argc
      (s, utemp2ustack (wsub argvStore 8))

/-! ## The call -/

/-- `iInode` and `ramStart` are the fields of an `inode` and of a `ram_file`. -/
structure Machine where
  kernel : Kernel
  mem : Mem
  iInode : Nat → Nat
  ramStart : Nat → Nat

/-- It returns, with the stack it has made if it got there; it fails an assertion; it reads through
a `NULL` pointer; or the fuel runs out. -/
inductive ExecEnd where
  | ret (r : Int) (s : Machine) (stack : Option (ArgStore × Nat))
  | panic
  | fault
  | running

namespace Machine

variable (s : Machine)

/-- `none` for an assertion, which every failure ends in. The stores through `p_va` go to the new
address space. -/
def taskCreate (mem : TaskMem) (old : Task) (ppid : Int) (creator binary : Nat) : Option Machine :=
  (s.kernel.taskAlloc mem old ppid).bind fun k =>
    if binary = 0 then none
    else
      match (⟨k.paging, s.mem, 0, 0, []⟩ : Loader).loadIcode (k.mm mem.task) binary with
      | (.done, l) =>
        let c := { k.sched with pidmap := Function.update k.sched.pidmap (k.sched.task mem.task).pid mem.task }
        some { s with
          kernel := { k with paging := l.paging, sched := (c.scheduleAddTask mem.task).enlist mem.task creator }
          mem := fun x => if x < kernelBaseAddr then s.mem x else l.mem x }
      | _ => none

def share (mem : TaskMem) : Option Machine :=
  let k := s.kernel
  let k := { k with fd := Function.update k.fd (k.files mem.task) (k.fd (k.files k.curtask)) }
  k.incCounts.bind fun k =>
    (k.paging.pushArgs (k.mm mem.task) (k.mm k.curtask)).map fun g => { s with kernel := { k with paging := g } }

/-- `execve` up to the arguments. `path_lookup` has returned `retval` and found `inode`, which is
`NULL` if the name has no file. -/
def prepare (mem : TaskMem) (old : Task) (retval : Int) (inode : Nat) : Except ExecEnd Machine :=
  if retval < 0 then .error (.ret retval s none)
  else if inode = 0 then .error .fault
  else if s.iInode inode = 0 then .error .fault
  else
    let cur := s.kernel.curtask
    match (s.taskCreate mem old (s.kernel.sched.task cur).pid (s.kernel.sched.uid cur)
      (s.ramStart (s.iInode inode))).bind fun s => s.share mem with
    | none => .error .panic
    | some s => .ok s

def execve (mem : TaskMem) (old : Task) (retval : Int) (inode argv fuel : Nat) : ExecEnd :=
  match s.prepare mem old retval inode with
  | .error e => e
  | .ok s =>
    match storeArgs s.mem fuel argv with
    | none => .running
    | some r => .ret (s.kernel.sched.task mem.task).pid { s with mem := r.1.mem } (some r)

end Machine

/-! ## What is to hold -/

def InTemp (a : Nat) : Prop := userTempBott ≤ a ∧ a < userTempBott + pageSize

instance : DecidablePred InTemp := fun _ => inferInstanceAs (Decidable (_ ∧ _))

def stackBytes (m : Mem) : Bytes := fun x =>
  if userStackTop - pageSize ≤ x ∧ x < userStackTop then some (m (x - (userStackTop - pageSize) + userTempBott))
    else none

/-- The stores are in the page; a call that goes on has the arguments behind its stack pointer. -/
def ExecEnd.Passes (args : List (List UInt8)) : ExecEnd → Prop
  | .ret r _ none => r < 0
  | .ret _ _ (some (s, esp)) => (∀ e ∈ s.log, InTemp e.1) ∧ (stackBytes s.mem).word esp = some args.length ∧
      (stackBytes s.mem).word (esp + 4) = some (wrap (esp + 8)) ∧ (stackBytes s.mem).IsArgv (esp + 8) args
  | _ => False

def argSize (args : List (List UInt8)) : Nat := (args.map fun s => s.length + 1).sum

/-- The strings, the array and the two words below it fit into the page. -/
def ArgsFit (args : List (List UInt8)) : Prop := 4 * (args.length + 3) ≤ roundDown (pageSize - argSize args) 4

instance : DecidablePred ArgsFit := fun _ => inferInstanceAs (Decidable (_ ≤ _))

/-- `execve` returns an error, and the kernel has what it had. -/
def ExecEnd.Clean (s : Machine) : ExecEnd → Prop
  | .ret r s' _ => r < 0 ∧ s.kernel.Unchanged s'.kernel
  | _ => False

def Machine.Loadable (s : Machine) (inode : Nat) : Prop :=
  inode ≠ 0 ∧ s.iInode inode ≠ 0 ∧ s.ramStart (s.iInode inode) ≠ 0 ∧
    ∃ g t, (g.mm t).mmap = [] ∧ ((⟨g, s.mem, 0, 0, []⟩ : Loader).loadIcode t (s.ramStart (s.iInode inode))).1 =
    .done

end MiniOS
