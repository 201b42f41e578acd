import MiniOS.Pidmap
import MiniOS.Sched
import Mathlib.Logic.Relation

/-!
# The process table and its pids

The kernel entries of `Sched` with the pids `alloc_pidmap` finds for them, and the
two ways a task can get hold of another by its pid: `pid2task` and `wait`.
-/

namespace MiniOS

namespace Sched

def Flags (s : Sched) (pid : Int) (t : Nat) : Prop :=
  0 ≤ pid ∧ pid ≤ pidMaxDefault ∧ s.pidmap pid = t ∧ t ≠ 0 ∧ (s.task t).ppid = (s.task s.curtask).pid

def target (s : Sched) (pid : Int) : Nat := if pid = 0 then s.curtask else s.pidmap pid

def WaitsOn (s : Sched) (a b : Nat) : Prop :=
  a ∈ s.live ∧ b ∈ s.live ∧ (s.task a).taskStatus = .interruptible ∧ (s.task b).pwait ≠ 0 ∧
    s.pidmap (s.task b).ppid = a

end Sched

structure Procs where
  sched : Sched
  map : Pidmap

inductive ProcOp
  | tick
  | fork (t : Nat) (ok : Bool)
  | execve (t : Nat) (old : Task)
  | wait (pid : Int)
  | exit (pid : Int)
  | fault
  | other

def ProcOp.creates : ProcOp → Bool
  | .fork _ _ => true
  | .execve _ _ => true
  | _ => false

namespace Procs

/-- The kernel entry with its pid, and what becomes of the bitmap. A fork without a pid
is an error, a program without one a failed assertion. -/
def resolve (s : Procs) : ProcOp → Option (SchedOp × Pidmap)
  | .tick => some (.tick, s.map)
  | .fork t ok =>
    let (pid, map) := s.map.allocPidmap
    if pid < 0 then some (.other, map) else some (.fork t pid ok, if ok then map else map.freePidmap pid)
  | .execve t old =>
    let (pid, map) := s.map.allocPidmap
    if pid < 0 then none else some (.execve t old pid, map)
  | .wait pid => some (.wait pid, s.map)
  | .exit pid => some (.exit pid, s.map.freePidmap (s.sched.task (s.sched.target pid)).pid)
  | .fault => some (.fault, s.map.freePidmap (s.sched.task s.sched.curtask).pid)
  | .other => some (.other, s.map)

def trap (s : Procs) (op : ProcOp) : Option Procs :=
  (s.resolve op).bind fun (op, map) => (s.sched.trap op).map fun c => ⟨c, map⟩

def boot (s : Sched) (t : Nat) (old : Task) : Option Procs :=
  (s.boot t old).map fun c => ⟨c, Pidmap.start.allocPidmap.2⟩

def Allowed (s : Procs) : ProcOp → Prop
  | .fork t _ => t ≠ 0 ∧ t ≠ rqHead ∧ t ∉ s.sched.live
  | .execve t _ => t ≠ 0 ∧ t ≠ rqHead ∧ t ∉ s.sched.live
  | _ => True

def Step (s s' : Procs) : Prop := ∃ op, s.Allowed op ∧ s.trap op = some s'

end Procs

def Pidmap.Next (m : Pidmap) (pid : Nat) : Prop :=
  m.first ≤ pid ∧ pid < bitsPerPage ∧ m.used pid = false ∧ ∀ i, m.first ≤ i → i < pid → m.used i = true

namespace Procs

/-- Calls are made by a live task, and no live task has the pid of a new one for its `ppid`. -/
def NoReuse (s : Procs) (op : ProcOp) : Prop :=
  s.sched.curtask ∈ s.sched.live ∧
    (op.creates = true → ∀ pid : Nat, s.map.Next pid → ∀ t ∈ s.sched.live, (s.sched.task t).ppid ≠ pid)

end Procs

namespace Sched

/-- Whom a task can end or flag: itself and its own children. -/
structure Authority (s : Sched) : Prop where
  exit : ∀ pid t, pid ≠ 0 → 0 ≤ pid → pid < pidMaxDefault → s.pid2task pid = some t →
    t = s.curtask ∨ s.creator t = s.uid s.curtask
  wait : ∀ pid t, pid ≠ pidMaxDefault → s.Flags pid t → s.creator t = s.uid s.curtask

structure NoDeadlock (s : Sched) : Prop where
  runnable : s.live ≠ [] → ∃ q, Ring s.links.next s.links.prev rqHead q ∧
    ∃ t ∈ q, t ∈ s.live ∧ (s.task t).taskStatus = .running
  next : s.live ≠ [] → s.getNext ≠ none
  blocked : ∀ a ∈ s.live, (s.task a).taskStatus ≠ .running → ∃ b, s.WaitsOn a b
  acyclic : ∀ a, ¬ Relation.TransGen s.WaitsOn a a

end Sched

end MiniOS
