import MiniOS.ListHead

/-!
# Tasks and the run queue

`sched.c`, `wait.c`, `exit.c` and what `fork.c`, `execve.c` and `task.c` do to the
process table. A task is the address of its `task_struct`, and its `list` node goes
by the same address. `kmalloc` picks the address of a new task and
`alloc_pidmap` its pid. `none` is a panic.
-/

namespace MiniOS

open Function

inductive TaskStatus
  | running
  | interruptible
  | uninterruptible
  | dying
deriving DecidableEq

structure Task where
  pid : Int
  ppid : Int
  taskStatus : TaskStatus
  timeslice : Int
  needResched : Bool
  pwait : Int

def pidMaxDefault : Int := 0x8000

def rqHead : Nat := 1

/-- `pidmap` is the array `task_pidmap`, read at any index. The last four fields are
not in the source: the tasks that have been created and not freed, and for each a
number of its own and the number of its creator. -/
structure Sched where
  links : Links Nat
  task : Nat → Task
  pidmap : Int → Nat
  used : Int → Bool
  curtask : Nat
  live : List Nat
  uid : Nat → Nat
  creator : Nat → Nat
  born : Nat

namespace Sched

def setTask (s : Sched) (t : Nat) (a : Task) : Sched := { s with task := update s.task t a }

/-! ## `sched.c` -/

def scheduleAddTask (s : Sched) (t : Nat) : Sched := { s with links := s.links.listAddTail t rqHead }

def scheduleDeleteTask (s : Sched) (t : Nat) : Sched := { s with links := s.links.listDel t }

def scheduleTick (s : Sched) : Sched :=
  let a := s.task s.curtask
  let a := { a with timeslice := a.timeslice - 1 }
  if a.timeslice ≤ 0 then
    let s := s.setTask s.curtask { a with needResched := true, timeslice := 3 }
    (s.scheduleDeleteTask s.curtask).scheduleAddTask s.curtask
  else s.setTask s.curtask a

def getNext (s : Sched) : Option (Nat × Sched) :=
  let s := if s.curtask ≠ 0 ∧ (s.task s.curtask).needResched then
      s.setTask s.curtask { s.task s.curtask with needResched := false }
    else s
  if s.links.listEmpty rqHead then none else some (s.links.next rqHead, s)

def schedule (s : Sched) : Option Sched :=
  if s.curtask ≠ 0 ∧ (s.task s.curtask).taskStatus = .running ∧ ¬ (s.task s.curtask).needResched then some s
  else s.getNext.map fun (next, s) => { s with curtask := next }

/-! ## `exit.c` -/

def exitNotify (s : Sched) (t : Nat) : Option Sched :=
  if (s.task t).pwait ≠ 0 then
    let p := s.pidmap (s.task t).ppid
    if p = 0 then none
    else some ((s.setTask p { s.task p with taskStatus := .running }).scheduleAddTask p)
  else some s

def exitTask (s : Sched) (t : Nat) : Sched :=
  let pid := (s.task t).pid
  { s with
    pidmap := if 0 ≤ pid then update s.pidmap pid 0 else s.pidmap
    used := if 0 ≤ pid then update s.used pid false else s.used
    live := s.live.erase t }

def exit (s : Sched) (t : Nat) : Option Sched := do
  let s ← (s.scheduleDeleteTask t).exitNotify t
  let s := s.exitTask t
  if t = s.curtask then schedule { s with curtask := 0 } else some s

def pid2task (s : Sched) (pid : Int) : Option Nat :=
  if pid = 0 then some s.curtask
  else
    let t := s.pidmap pid
    if t = 0 ∨ (s.task t).pid ≠ pid then none
    else if t ≠ s.curtask ∧ (s.task t).ppid ≠ (s.task s.curtask).pid then none
    else some t

/-- `sys_exit`; an error goes on to the `panic` of the system call table. -/
def sysExit (s : Sched) (pid : Int) : Option Sched :=
  if pid < 0 ∨ pidMaxDefault ≤ pid then none
  else
    let t := if pid = 0 then s.curtask else s.pidmap pid
    if pid ≠ 0 ∧ (t = 0 ∨ (s.task t).pid ≠ pid ∨
        (t ≠ s.curtask ∧ (s.task t).ppid ≠ (s.task s.curtask).pid)) then none
    else if t = s.curtask then s.exit t
    else (s.exit t).bind schedule

/-! ## `wait.c` -/

def wait (s : Sched) (pid : Int) : Option Sched :=
  if pidMaxDefault < pid ∨ pid < 0 then s.schedule
  else
    let t := s.pidmap pid
    if t = 0 ∨ (s.task t).ppid ≠ (s.task s.curtask).pid then s.schedule
    else
      let s := s.setTask t { s.task t with pwait := 1 }
      let s := s.setTask s.curtask { s.task s.curtask with taskStatus := .interruptible }
      (s.scheduleDeleteTask s.curtask).schedule

/-! ## New tasks -/

def enlist (s : Sched) (t creator : Nat) : Sched :=
  { s with
    live := t :: s.live
    uid := update s.uid t s.born
    creator := update s.creator t creator
    born := s.born + 1 }

/-- `do_fork` up to `schedule_add_task`; when it fails after `alloc_task`,
`exit_task` gives the pid back. -/
def doFork (s : Sched) (t : Nat) (pid : Int) (ok : Bool) : Sched :=
  let child : Task := ⟨pid, (s.task s.curtask).pid, .running, 3, false, 0⟩
  let s := { s.setTask t child with used := update s.used pid true }
  if ok then
    let s := s.scheduleAddTask t
    let s := { s with pidmap := update s.pidmap pid t }
    s.enlist t (s.uid s.curtask)
  else s.exitTask t

/-- `task_create`: what `task_alloc` does not set is what the memory held. -/
def taskCreate (s : Sched) (t : Nat) (old : Task) (pid ppid : Int) (creator : Nat) : Sched :=
  let task := { old with pid := pid, ppid := ppid, taskStatus := .running, timeslice := 3 }
  let s := { s.setTask t task with used := update s.used pid true }
  let s := { s with pidmap := update s.pidmap pid t }
  (s.scheduleAddTask t).enlist t creator

def execve (s : Sched) (t : Nat) (old : Task) (pid : Int) : Sched :=
  s.taskCreate t old pid (s.task s.curtask).pid (s.uid s.curtask)

def boot (s : Sched) (t : Nat) (old : Task) : Option Sched :=
  let s := { s with links := s.links.initListHead rqHead }
  (s.taskCreate t old 0 (-1) 0).schedule

end Sched

inductive SchedOp
  | tick
  | fork (t : Nat) (pid : Int) (ok : Bool)
  | execve (t : Nat) (old : Task) (pid : Int)
  | wait (pid : Int)
  | exit (pid : Int)
  | fault
  | other

namespace Sched

def Fresh (s : Sched) (t : Nat) (pid : Int) : Prop :=
  t ≠ 0 ∧ t ≠ rqHead ∧ t ∉ s.live ∧ 0 ≤ pid ∧ pid < pidMaxDefault ∧ s.used pid = false

def trap (s : Sched) : SchedOp → Option Sched
  | .tick => s.scheduleTick.schedule
  | .fork t pid ok => (s.doFork t pid ok).schedule
  | .execve t old pid => (s.execve t old pid).schedule
  | .wait pid => s.wait pid
  | .exit pid => s.sysExit pid
  | .fault => s.exit s.curtask
  | .other => s.schedule

/-! What a trap has done when it comes to `schedule`. -/

def leave (s : Sched) (t : Nat) : Option Sched := do
  let s ← (s.scheduleDeleteTask t).exitNotify t
  let s := s.exitTask t
  some (if t = s.curtask then { s with curtask := 0 } else s)

def sleepOn (s : Sched) (t : Nat) : Sched :=
  let s := s.setTask t { s.task t with pwait := 1 }
  let s := s.setTask s.curtask { s.task s.curtask with taskStatus := .interruptible }
  s.scheduleDeleteTask s.curtask

def handle (s : Sched) : SchedOp → Option Sched
  | .tick => some s.scheduleTick
  | .fork t pid ok => some (s.doFork t pid ok)
  | .execve t old pid => some (s.execve t old pid)
  | .wait pid =>
    if pidMaxDefault < pid ∨ pid < 0 ∨ s.pidmap pid = 0 ∨
      (s.task (s.pidmap pid)).ppid ≠ (s.task s.curtask).pid then some s
    else some (s.sleepOn (s.pidmap pid))
  | .exit pid => if pid < 0 ∨ pidMaxDefault ≤ pid then none else (s.pid2task pid).bind s.leave
  | .fault => s.leave s.curtask
  | .other => some s

def Allowed (s : Sched) : SchedOp → Prop
  | .fork t pid _ => s.Fresh t pid
  | .execve t _ pid => s.Fresh t pid
  | _ => True

structure Blank (s : Sched) : Prop where
  live : s.live = []
  born : s.born = 1
  pidmap : ∀ i, 0 ≤ i → i < pidMaxDefault → s.pidmap i = 0
  used : ∀ i, s.used i = false
  curtask : s.curtask = 0

end Sched

end MiniOS
