import MiniOS.ByteMem
import MiniOS.Runs
import MiniOS.TrapFrame

/-!
# One CPU for many tasks

The machine has one set of registers and a `struct frame` in each `task_struct`; a trap saves the
registers in the frame of the task that runs and loads them from the frame of the one that
`schedule` picks. Above it stands a machine in which each task has registers of its own. `none` is
a panic.
-/

namespace MiniOS

open Function List Option

/-! ## `trap_init` -/

structure Gate where
  gdOff : BitVec 8
  gdType : Nat
  gdDpl : Nat

def stsIg32 : Nat := 0xE

def stsTg32 : Nat := 0xF

def setgate (istrap : Bool) (off : BitVec 8) (dpl : Nat) : Gate := ⟨off, if istrap then stsTg32 else stsIg32, dpl⟩

-- The loop ends before the last gate, which stays zero.
def idt : Nat → Gate :=
  let gates := applyStores (fun _ => ⟨0, 0, 0⟩)
    ((List.range 255).map fun i => (i, setgate false (BitVec.ofNat 8 i) 0))
  update gates 128 (setgate false 128#8 3)

/-- The entry the CPU goes to for a vector, by an `int` of user mode if `soft`: the general
protection fault if there is no gate or the gate is not for user mode. -/
def deliver (soft : Bool) (vec : BitVec 8) : BitVec 8 :=
  let gate := idt vec.toNat
  if (gate.gdType = stsIg32 ∨ gate.gdType = stsTg32) ∧ (soft → 3 ≤ gate.gdDpl) then gate.gdOff else 13#8

/-! ## `syscall.c` -/

/-- What the parts of the kernel that are not modelled here answer, and what the CPU adds. -/
structure KernelAnswers where
  err : BitVec 32
  high : BitVec 16
  /-- The memory of a new `task_struct`. -/
  mem : Option Nat
  old : Task
  /-- What can fail does not. -/
  ok : Bool
  result : BitVec 32
  /-- Where a new program begins, and its stack. -/
  eip : BitVec 32
  esp : BitVec 32

inductive TaskStart where
  | copy (fn : Option (BitVec 32))
  | program (eip esp : BitVec 32)

/-- What a handler has done when it comes to `schedule`: the result is left out if it comes there
before it returns. -/
structure Outcome where
  op : ProcOp
  result : Option (BitVec 32)
  born : Option (Nat × TaskStart)

structure CallArgs where
  syscallno : BitVec 32
  a1 : BitVec 32
  a2 : BitVec 32
  a3 : BitVec 32
  a4 : BitVec 32
  a5 : BitVec 32

def cloneVm : BitVec 32 := 4#32

def cloneThread : BitVec 32 := 32#32

namespace Procs

variable (s : Procs) (a : KernelAnswers)

def result (r : Int) : Option Outcome := some ⟨.other, some (BitVec.ofInt 32 r), none⟩

def sysClone (flag fn : BitVec 32) : Option Outcome :=
  match a.mem with
  | none => result (-enomem)
  | some t =>
    let pid := s.map.allocPidmap.1
    if pid < 0 then some ⟨.fork t a.ok, some (BitVec.ofInt 32 (-emproc)), none⟩
    else if a.ok ∧ flag &&& cloneVm ≠ 0 then none
    else
      some ⟨.fork t a.ok, some (if a.ok then BitVec.ofInt 32 pid else a.result),
        some (t, .copy (if flag &&& cloneThread ≠ 0 then some fn else none))⟩

def sysExecve : Option Outcome :=
  if a.ok then
    a.mem.map fun t => ⟨.execve t a.old, some (BitVec.ofInt 32 s.map.allocPidmap.1), some (t, .program a.eip a.esp)⟩
  else some ⟨.other, some a.result, none⟩

def waitResult (pid : Int) : Option Int :=
  if pidMaxDefault < pid ∨ pid < 0 then some (-einval)
  else if s.sched.pidmap pid = 0 ∨ (s.sched.task (s.sched.pidmap pid)).ppid ≠
      (s.sched.task s.sched.curtask).pid then
    some (-ebadp)
  else none

def sysWait (pid : BitVec 32) : Option Outcome :=
  some ⟨.wait pid.toInt, (s.waitResult pid.toInt).map (BitVec.ofInt 32), none⟩

def syscall (c : CallArgs) : Option Outcome :=
  match c.syscallno.toNat with
  -- `user_mem_assert` ends the task
  | 0 => if a.ok then result 0 else some ⟨.fault, none, none⟩
  | 1 => some ⟨.exit c.a1.toInt, none, none⟩
  | 2 => s.sysClone a c.a1 c.a2
  | 3 => result (s.sched.task s.sched.curtask).pid
  -- `SYS_CLOSE` goes on with `SYS_WAIT`, if there is memory where it looks for the descriptor
  | 8 => if a.ok then s.sysWait c.a1 else none
  | 14 => s.sysWait c.a1
  | 15 => s.sysExecve a
  | n => if n ≤ 16 then some ⟨.other, some a.result, none⟩ else result (-einval)

/-! ## `trap_dispatch` -/

def trapDispatch (trapno : Nat) (c : CallArgs) : Option Outcome :=
  match trapno with
  | 14 => some ⟨if a.ok then .other else .fault, none, none⟩
  | 128 => s.syscall a c
  | 13 => some ⟨.fault, none, none⟩
  | 0 => some ⟨.fault, none, none⟩
  | 32 => some ⟨.tick, none, none⟩
  -- the spurious interrupt, the keyboard, the serial line, the disk and the error of the APIC
  | 39 => some ⟨.other, none, none⟩
  | 33 => some ⟨.other, none, none⟩
  | 36 => some ⟨.other, none, none⟩
  | 46 => some ⟨.other, none, none⟩
  | 51 => some ⟨.other, none, none⟩
  | _ => none

end Procs

/-! ## The machine -/

structure TrapMachine where
  procs : Procs
  frame : Nat → TrapFrame
  cpu : UserRegs
  esp0 : BitVec 32

def userDs : BitVec 16 := 0x20#16 ||| 3#16

def userCs : BitVec 16 := 0x18#16 ||| 3#16

def flIf : BitVec 32 := 0x200#32

def zeroRegs : Pushregs := ⟨0, 0, 0, 0, 0, 0, 0, 0⟩

def TaskStart.frame (f : TrapFrame) : TaskStart → TrapFrame
  | .copy fn => { f with tfEip := fn.getD f.tfEip }.setEax 0
  | .program eip esp =>
    ⟨zeroRegs, 0#16 ++ userDs, 0#16 ++ userDs, 0, 0, eip, 0#16 ++ userCs, flIf, esp, 0#16 ++ userDs⟩

def Outcome.store (o : Outcome) (curtask : Nat) (f : TrapFrame) (frame : Nat → TrapFrame) : Nat → TrapFrame :=
  let frame := match o.born with
    | none => frame
    | some (t, b) => update frame t (b.frame f)
  match o.result with
  | none => frame
  | some r => update frame curtask ((frame curtask).setEax r)

def TrapFrame.args (f : TrapFrame) : CallArgs :=
  ⟨f.tfRegs.regEax, f.tfRegs.regEdx, f.tfRegs.regEcx, f.tfRegs.regEbx, f.tfRegs.regEdi, f.tfRegs.regEsi⟩

/-- User code, which stays in user mode. -/
structure UserCode where
  run : Regs → Regs
  ring3 : ∀ r, ring3 r.cs → ring3 (run r).cs

inductive TrapEvent where
  | user (code : UserCode)
  | int (vec : BitVec 8) (a : KernelAnswers)
  | interrupt (vec : BitVec 8) (a : KernelAnswers)

namespace TrapMachine

variable (m : TrapMachine)

def curtask : Nat := m.procs.sched.curtask

-- `*tf` is copied before the handler runs, and the result of a call goes into the copy.
def trap (vec : BitVec 8) (a : KernelAnswers) : Option TrapMachine :=
  (m.cpu.regs.entry vec a.err a.high m.esp0).bind fun f =>
    if ring3 f.content.cs ∧ m.curtask ≠ 0 then
      (m.procs.trapDispatch a f.tfTrapno.toNat f.args).bind fun o =>
        let frame := o.store m.curtask f (update m.frame m.curtask f)
        (m.procs.trap o.op).bind fun p =>
          (frame p.sched.curtask).regs.map fun r => { m with procs := p, frame := frame, cpu := r }
    else none

def step : TrapEvent → Option TrapMachine
  | .user code => some { m with cpu := ⟨code.run m.cpu.regs, code.ring3 _ m.cpu.user⟩ }
  | .int vec a => m.trap (deliver true vec) a
  | .interrupt vec a => m.trap (deliver false vec) a

def run (evs : List TrapEvent) : Option TrapMachine := evs.foldlM step m

end TrapMachine

/-! ## A machine for each task -/

structure Tasks where
  procs : Procs
  regs : Nat → Option UserRegs

def UserRegs.setEax (r : UserRegs) (v : BitVec 32) : UserRegs := ⟨{ r.regs with eax := v }, r.user⟩

def Regs.args (r : Regs) : CallArgs := ⟨r.eax, r.edx, r.ecx, r.ebx, r.edi, r.esi⟩

def TaskStart.regs (r : UserRegs) : TaskStart → UserRegs
  | .copy fn => UserRegs.setEax ⟨{ r.regs with eip := fn.getD r.regs.eip }, r.user⟩ 0
  | .program eip esp => ⟨⟨0, 0, 0, 0, 0, 0, 0, userDs, userDs, eip, userCs, flIf, esp, userDs⟩,
    show ring3 userCs by decide⟩

def Outcome.assign (o : Outcome) (curtask : Nat) (r : UserRegs) (regs : Nat → Option UserRegs) :
    Nat → Option UserRegs :=
  let regs := match o.born with
    | none => regs
    | some (t, b) => update regs t (some (b.regs r))
  match o.result with
  | none => regs
  | some e => update regs curtask ((regs curtask).map (·.setEax e))

namespace Tasks

variable (v : Tasks)

def curtask : Nat := v.procs.sched.curtask

def trap (vec : BitVec 8) (a : KernelAnswers) : Option Tasks :=
  (v.regs v.curtask).bind fun r =>
    if v.curtask ≠ 0 then
      (v.procs.trapDispatch a vec.toNat r.regs.args).bind fun o =>
        let regs := o.assign v.curtask r v.regs
        (v.procs.trap o.op).bind fun p => (regs p.sched.curtask).map fun _ => ⟨p, regs⟩
    else none

def step : TrapEvent → Option Tasks
  | .user code =>
    let r := (v.regs v.curtask).map fun r => ⟨code.run r.regs, code.ring3 _ r.user⟩
    some { v with regs := update v.regs v.curtask r }
  | .int vec a => v.trap (deliver true vec) a
  | .interrupt vec a => v.trap (deliver false vec) a

def run (evs : List TrapEvent) : Option Tasks := evs.foldlM step v

end Tasks

/-- The registers of a task are in the CPU while it runs and in its frame while it does not. -/
def TrapMachine.tasks (m : TrapMachine) : Tasks where
  procs := m.procs
  regs t := if t = m.curtask then some m.cpu else (m.frame t).regs

/-! ## Each task finds its own registers -/

theorem TrapFrame.setEax_regs (f : TrapFrame) (e : BitVec 32) : (f.setEax e).regs = f.regs.map (·.setEax e) := by
  rw [regs_eq, regs_eq]
  show (if h : ring3 f.content.cs then _ else _) = _
  split <;> rfl

theorem TaskStart.frame_regs {f : TrapFrame} {r : UserRegs} (h : f.content = r.regs) (b : TaskStart) :
    (b.frame f).regs = some (b.regs r) := by
  rw [TrapFrame.regs_eq_some]
  cases b with
  | copy fn =>
    simp only [regs, UserRegs.setEax, ← h]
    rfl
  | program eip esp => simp only [frame, regs, TrapFrame.content, setWidth_high, zeroRegs]

theorem Outcome.store_regs {f : TrapFrame} {r : UserRegs} (h : f.content = r.regs) (o : Outcome) (c : Nat)
    (F : Nat → TrapFrame) : TrapFrame.regs ∘ o.store c f F = o.assign c r (TrapFrame.regs ∘ F) := by
  obtain ⟨op, result, born⟩ := o
  cases born with
  | none =>
    cases result with
    | none => rfl
    | some e => simp only [store, assign, comp_update, TrapFrame.setEax_regs, comp_apply]
  | some x =>
    cases result with
    | none => simp only [store, assign, comp_update, TaskStart.frame_regs h]
    | some e =>
      simp only [store, assign, ← TaskStart.frame_regs h, ← comp_update, comp_apply]
      rw [comp_update, TrapFrame.setEax_regs]

theorem Outcome.assign_apply {o : Outcome} {t : Nat} (hb : ∀ b, o.born ≠ some (t, b)) (c : Nat) (r : UserRegs)
    (regs : Nat → Option UserRegs) : o.assign c r regs t =
      if t = c then (regs t).map fun r => r.setEax (o.result.getD r.regs.eax) else regs t := by
  obtain ⟨op, result, born⟩ := o
  have hregs : Outcome.assign ⟨op, none, born⟩ c r regs t = regs t := by
    cases born with
    | none => rfl
    | some x => exact update_of_ne (fun e => hb x.2 (by rw [e])) ..
  cases result with
  | none =>
    rw [hregs]
    split
    · exact Option.map_id'.symm
    · rfl
  | some e =>
    show update _ c _ t = _
    by_cases ht : t = c
    · subst ht
      rw [update_self, if_pos rfl, ← hregs]
      rfl
    · rw [update_of_ne ht, if_neg ht]
      exact hregs

namespace TrapMachine

variable (m : TrapMachine)

/-- With the frame of the running task saved, the frames hold the registers of all. -/
theorem saved_regs {f : TrapFrame} (h : f.content = m.cpu.regs) :
    TrapFrame.regs ∘ update m.frame m.curtask f = m.tasks.regs := by
  funext t
  rw [comp_update, TrapFrame.regs_eq_some.mpr h]
  by_cases ht : t = m.curtask
  · subst ht
    rw [update_self]
    exact (if_pos rfl).symm
  · rw [update_of_ne ht]
    exact (if_neg ht).symm

theorem resumed_tasks {F : Nat → TrapFrame} {p : Procs} {r : UserRegs} (h : (F p.sched.curtask).regs = some r) :
    tasks { m with procs := p, frame := F, cpu := r } = ⟨p, TrapFrame.regs ∘ F⟩ := by
  refine congrArg (Tasks.mk p) (funext fun t => ?_)
  show (if t = p.sched.curtask then some r else (F t).regs) = (F t).regs
  split
  · next ht => rw [ht, h]
  · rfl

theorem trap_tasks (vec : BitVec 8) (a : KernelAnswers) : (m.trap vec a).map tasks = m.tasks.trap vec a := by
  have hcur : m.tasks.regs m.tasks.curtask = some m.cpu := if_pos rfl
  unfold trap Tasks.trap
  rw [hcur, bind_some]
  by_cases hv : vec = 8
  · -- the frame is out of place, but nothing handles a double fault
    subst hv
    obtain ⟨f, hf, hno, -⟩ := Regs.entry_doubleFault m.cpu.regs a.err a.high m.esp0
    rw [hf, bind_some, hno]
    show Option.map tasks (if _ then none else none) = if _ then none else none
    rw [ite_self, ite_self]
    rfl
  obtain ⟨sp, err, hf⟩ := Regs.entry_eq m.cpu.regs hv a.err a.high m.esp0
  have hc := Regs.frame_content m.cpu.regs vec err a.high sp
  have hno : (m.cpu.regs.frame vec err a.high sp).tfTrapno.toNat = vec.toNat :=
    BitVec.toNat_setWidth_of_le (by decide)
  rw [hf, bind_some]
  generalize m.cpu.regs.frame vec err a.high sp = f at hc hno
  rw [hno, show f.args = f.content.args from rfl, hc]
  by_cases h0 : m.curtask = 0
  · rw [if_neg fun h => h.2 h0, if_neg fun h => h h0]
    rfl
  rw [if_pos ⟨m.cpu.user, h0⟩, if_pos (show m.tasks.curtask ≠ 0 from h0), Option.map_bind]
  refine Option.bind_congr fun o _ => ?_
  dsimp only [comp_apply]
  rw [Option.map_bind]
  refine Option.bind_congr fun p _ => ?_
  have hregs := Outcome.store_regs hc o m.curtask (update m.frame m.curtask f)
  rw [saved_regs m hc] at hregs
  show _ = (o.assign m.curtask m.cpu m.tasks.regs p.sched.curtask).map fun _ =>
    Tasks.mk p (o.assign m.curtask m.cpu m.tasks.regs)
  rw [← hregs, comp_apply, comp_apply, Option.map_map]
  generalize o.store m.curtask f (update m.frame m.curtask f) = F
  cases h : (F p.sched.curtask).regs with
  | none => rfl
  | some r => exact congrArg some (resumed_tasks m h)

theorem step_tasks (e : TrapEvent) : (m.step e).map tasks = m.tasks.step e := by
  cases e with
  | user code =>
    refine congrArg some (congrArg (Tasks.mk m.procs) (funext fun t => ?_))
    show (if t = m.curtask then _ else _) = update m.tasks.regs m.curtask _ t
    rw [show m.tasks.regs m.tasks.curtask = some m.cpu from if_pos rfl]
    by_cases ht : t = m.curtask
    · rw [if_pos ht, ht, update_self]
      rfl
    · rw [if_neg ht, update_of_ne ht]
      exact (if_neg ht).symm
  | int vec a => exact trap_tasks m _ a
  | interrupt vec a => exact trap_tasks m _ a

end TrapMachine

/-- Whatever the tasks do and whenever they are interrupted, the machine behaves as if each
task had registers of its own. -/
theorem run_transparent (m : TrapMachine) (evs : List TrapEvent) :
    (m.run evs).map TrapMachine.tasks = m.tasks.run evs := by
  induction evs generalizing m with
  | nil => rfl
  | cons e evs ih =>
    unfold TrapMachine.run Tasks.run at *
    rw [foldlM_cons, foldlM_cons, ← TrapMachine.step_tasks]
    cases m.step e with
    | none => rfl
    | some m' => exact ih m'

/-! ## A system call and its return -/

def loadArgs (c : CallArgs) : UserCode where
  run r := { r with eax := c.syscallno, edx := c.a1, ecx := c.a2, ebx := c.a3, edi := c.a4, esi := c.a5 }
  ring3 _ h := h

def TrapEvent.mem : TrapEvent → Option Nat
  | .user _ => none
  | .int _ a => a.mem
  | .interrupt _ a => a.mem

def TrapMachine.next (m : TrapMachine) (e : TrapEvent) : TrapMachine := (m.step e).getD m

section
variable {s : Procs} {a : KernelAnswers} {c : CallArgs} {o : Outcome} {t : Nat} {b : TaskStart}

theorem Procs.sysClone_born {flag fn : BitVec 32} (h : s.sysClone a flag fn = some o) (hb : o.born = some (t, b)) :
    a.mem = some t := by
  unfold sysClone at h
  cases hm : a.mem with
  | none =>
    rw [hm] at h
    cases h
    cases hb
  | some t' =>
    rw [hm] at h
    dsimp only at h
    split at h
    · cases h
      cases hb
    split at h
    · cases h
    · cases h
      cases hb
      rfl

theorem Procs.sysExecve_born (h : s.sysExecve a = some o) (hb : o.born = some (t, b)) : a.mem = some t := by
  unfold sysExecve at h
  split at h
  · obtain ⟨t', hm, rfl⟩ := map_eq_some_iff.mp h
    cases hb
    exact hm
  · cases h
    cases hb

theorem Procs.syscall_born (h : s.syscall a c = some o) (hb : o.born = some (t, b)) : a.mem = some t := by
  have hnone {r : Option (BitVec 32)} {op : ProcOp} (h : some (Outcome.mk op r none) = some o) :
      a.mem = some t := by
    cases h
    cases hb
  unfold syscall at h
  split at h
  · split at h <;> exact hnone h
  · exact hnone h
  · exact sysClone_born h hb
  · exact hnone h
  · split at h
    · exact hnone h
    · cases h
  · exact hnone h
  · exact sysExecve_born h hb
  · split at h <;> exact hnone h

theorem Procs.trapDispatch_born {n : Nat} (h : s.trapDispatch a n c = some o) (hb : o.born = some (t, b)) :
    a.mem = some t := by
  unfold trapDispatch at h
  split at h
  case h_2 => exact syscall_born h hb
  all_goals
    cases h
    try cases hb

end

theorem idt_eq (vec : BitVec 8) : idt vec.toNat =
    if vec = 128#8 then setgate false 128#8 3 else if vec = 255#8 then ⟨0, 0, 0⟩ else setgate false vec 0 := by
  unfold idt
  split
  · next h =>
    subst h
    exact update_self ..
  next h =>
  rw [update_of_ne (show vec.toNat ≠ 128 from fun e => h (BitVec.eq_of_toNat_eq e))]
  split
  · next h' =>
    subst h'
    refine applyStores_of_notMem ?_
    simp
  · next h' =>
    have hlt : vec.toNat < 255 := by
      have := vec.isLt
      have : vec.toNat ≠ 255 := fun e => h' (BitVec.eq_of_toNat_eq e)
      omega
    refine applyStores_of_mem ?_ ?_
    · rw [List.map_map]
      exact nodup_range.map fun _ _ h => h
    · exact List.mem_map.mpr ⟨vec.toNat, mem_range.mpr hlt, by rw [BitVec.ofNat_toNat, BitVec.setWidth_eq]⟩

/-- User mode gets past the gates with the system call only. -/
theorem deliver_eq (soft : Bool) (vec : BitVec 8) :
    deliver soft vec = if vec = 128#8 ∨ soft = false ∧ vec ≠ 255#8 then vec else 13#8 := by
  unfold deliver
  rw [idt_eq]
  by_cases h : vec = 128#8
  · subst h
    cases soft <;> rfl
  rw [if_neg h]
  by_cases h' : vec = 255#8
  · subst h'
    cases soft <;> rfl
  rw [if_neg h']
  cases soft with
  | true => simp [setgate, h]
  | false => simp [setgate, h']

namespace Tasks

variable {v v' : Tasks} {t : Nat}

theorem trap_regs {vec : BitVec 8} {a : KernelAnswers} (h : v.trap vec a = some v') (hm : a.mem ≠ some t)
    (ht : t ≠ v.curtask) : v'.regs t = v.regs t := by
  obtain ⟨r, hr, h⟩ := bind_eq_some_iff.mp h
  split at h
  · obtain ⟨o, ho, h⟩ := bind_eq_some_iff.mp h
    obtain ⟨p, -, h⟩ := bind_eq_some_iff.mp h
    obtain ⟨_, -, rfl⟩ := map_eq_some_iff.mp h
    exact (Outcome.assign_apply (fun b hb => hm (Procs.trapDispatch_born ho hb)) ..).trans (if_neg ht)
  · cases h

theorem step_regs {e : TrapEvent} (h : v.step e = some v') (hm : e.mem ≠ some t) (ht : t ≠ v.curtask) :
    v'.regs t = v.regs t := by
  cases e with
  | user code =>
    cases h
    exact update_of_ne ht ..
  | int vec a => exact trap_regs h hm ht
  | interrupt vec a => exact trap_regs h hm ht

end Tasks

namespace TrapMachine

variable {m m' : TrapMachine} {t : Nat}

theorem run_regs {evs : List TrapEvent} (h : m.run evs = some m')
    (haway : Along next (fun s _ => s.curtask ≠ t) m evs)
    (hm : ∀ e ∈ evs, e.mem ≠ some t) (hback : m'.curtask = t) : m.tasks.regs t = some m'.cpu := by
  induction evs generalizing m with
  | nil =>
    cases h
    exact if_pos hback.symm
  | cons e evs ih =>
    obtain ⟨m₁, h₁, h⟩ := bind_eq_some_iff.mp h
    have hstep : m.tasks.step e = some m₁.tasks := by rw [← step_tasks, h₁, map_some]
    rw [Along, next, h₁] at haway
    rw [← ih h haway.2 fun e' he => hm e' (mem_cons_of_mem _ he)]
    exact (Tasks.step_regs hstep (hm e mem_cons_self) haway.1.symm).symm

/-- The kernel's answer to the system call whose arguments are in the registers, if it comes to
giving one. -/
def callResult (m : TrapMachine) (a : KernelAnswers) (c : CallArgs) : Option (BitVec 32) :=
  (m.procs.syscall a c).bind Outcome.result

end TrapMachine

theorem Procs.trapDispatch_result {s : Procs} {a : KernelAnswers} {n : Nat} {c : CallArgs}
    {o : Outcome} (hn : n ≠ 128) (h : s.trapDispatch a n c = some o) : o.result = none := by
  unfold trapDispatch at h
  split at h
  case h_2 => exact absurd rfl hn
  all_goals
    cases h
    try rfl

/-- The registers of the task that is interrupted, when the handler is done. -/
theorem TrapMachine.trap_regs {m m₁ : TrapMachine} {vec : BitVec 8} {a : KernelAnswers} (h : m.trap vec a = some m₁)
    (hm : a.mem ≠ some m.curtask) : ∃ o, m.procs.trapDispatch a vec.toNat m.cpu.regs.args = some o ∧
      m₁.tasks.regs m.curtask = some (m.cpu.setEax (o.result.getD m.cpu.regs.eax)) := by
  have hr : m.tasks.regs m.tasks.curtask = some m.cpu := if_pos rfl
  have h : m.tasks.trap vec a = some m₁.tasks := by rw [← trap_tasks, h, map_some]
  unfold Tasks.trap at h
  rw [hr, bind_some] at h
  split at h
  · obtain ⟨o, ho, h⟩ := bind_eq_some_iff.mp h
    obtain ⟨p, -, h⟩ := bind_eq_some_iff.mp h
    obtain ⟨_, -, h⟩ := map_eq_some_iff.mp h
    refine ⟨o, ho, (congrArg (Tasks.regs · m.curtask) h.symm).trans ?_⟩
    rw [← map_some (f := fun r : UserRegs => r.setEax (o.result.getD r.regs.eax)), ← hr]
    exact (Outcome.assign_apply (fun b hb => hm (Procs.trapDispatch_born ho hb)) ..).trans (if_pos rfl)
  · cases h

/-- A task that makes a system call goes on, when it runs again, with all its registers as they
were and the result in `eax`; with the number of the call there, if the kernel has switched to
another task before it had a result. -/
theorem call_resumes {m m₁ m₂ : TrapMachine} {a : KernelAnswers} {c : CallArgs} {evs : List TrapEvent}
    (hcall : m.run [.user (loadArgs c), .int 0x80 a] = some m₁) (hrun : m₁.run evs = some m₂)
    (haway : Along TrapMachine.next (fun s _ => s.curtask ≠ m.curtask) m₁ evs)
    (hmem : ∀ e ∈ TrapEvent.int 0x80 a :: evs, e.mem ≠ some m.curtask) (hback : m₂.curtask = m.curtask) :
    m₂.cpu.regs = { (loadArgs c).run m.cpu.regs with eax := (m.callResult a c).getD c.syscallno } := by
  obtain ⟨m', htrap, hcall⟩ := bind_eq_some_iff.mp hcall
  obtain rfl : m' = m₁ := some.inj hcall
  rw [TrapMachine.step, deliver_eq, if_pos (.inl rfl)] at htrap
  obtain ⟨o, ho, hcall⟩ := TrapMachine.trap_regs htrap (hmem _ mem_cons_self)
  have hregs := TrapMachine.run_regs hrun haway (fun e he => hmem e (mem_cons_of_mem _ he)) hback
  rw [TrapMachine.callResult, show m.procs.syscall a c = some o from ho, bind_some]
  exact congrArg UserRegs.regs (some.inj (hregs.symm.trans hcall))

/-- A task that is interrupted goes on, when it runs again, with all its registers as they were. -/
theorem interrupt_resumes {m m₁ m₂ : TrapMachine} {vec : BitVec 8} {a : KernelAnswers} {evs : List TrapEvent}
    (hvec : vec ≠ 128#8) (hint : m.step (.interrupt vec a) = some m₁) (hrun : m₁.run evs = some m₂)
    (haway : Along TrapMachine.next (fun s _ => s.curtask ≠ m.curtask) m₁ evs)
    (hmem : ∀ e ∈ TrapEvent.interrupt vec a :: evs, e.mem ≠ some m.curtask) (hback : m₂.curtask = m.curtask) :
    m₂.cpu = m.cpu := by
  have hno : (deliver false vec).toNat ≠ 128 := by
    rw [deliver_eq]
    split
    · exact fun e => hvec (BitVec.eq_of_toNat_eq e)
    · decide
  obtain ⟨o, ho, hint⟩ := TrapMachine.trap_regs hint (hmem _ mem_cons_self)
  have hregs := TrapMachine.run_regs hrun haway (fun e he => hmem e (mem_cons_of_mem _ he)) hback
  rw [Procs.trapDispatch_result hno ho] at hint
  exact some.inj (hregs.symm.trans hint)

def pairSched : Sched where
  links := ⟨fun x => if x = rqHead then 16 else if x = 16 then 32 else rqHead,
    fun x => if x = rqHead then 32 else if x = 32 then 16 else rqHead⟩
  task t := if t = 16 then ⟨5, 0, .running, 1, false, 0⟩ else ⟨6, 5, .running, 1, false, 0⟩
  pidmap i := if i = 5 then 16 else if i = 6 then 32 else 0
  used _ := false
  curtask := 16
  live := [16, 32]
  uid t := t
  creator _ := 16
  born := 33

def pairMachine : TrapMachine where
  procs := ⟨pairSched, .start⟩
  frame _ := TaskStart.frame ⟨zeroRegs, 0, 0, 0, 0, 0, 0, 0, 0, 0⟩ (.program 0x800020#32 0xBF7FF000#32)
  cpu := ⟨⟨1, 2, 3, 4, 5, 6, 7, userDs, userDs, 0x800020#32, userCs, flIf, 0xBF7FF000#32, userDs⟩,
    show ring3 userCs by decide⟩
  esp0 := 0

def noAnswers : KernelAnswers := ⟨0, 0, none, ⟨0, 0, .running, 0, false, 0⟩, true, 0, 0, 0⟩

def pairCall (no a1 : BitVec 32) : List TrapEvent := [.user (loadArgs ⟨no, a1, 0, 0, 0, 0⟩), .int 0x80 noAnswers]

theorem pairMachine_wait : (pairMachine.run (pairCall 14 6)).isSome := by decide +kernel

def pairMachine.waiting : TrapMachine := (pairMachine.run (pairCall 14 6)).get pairMachine_wait

theorem pairMachine_exit : (pairMachine.waiting.run (pairCall 1 0)).isSome := by decide +kernel

/-- The parent waits for the child, the child exits, and the parent goes on with the number of the
call for a result. -/
theorem call_resumes_wait : ∃ m₂, pairMachine.run (pairCall 14 6) = some pairMachine.waiting ∧
    pairMachine.waiting.curtask = 32 ∧ pairMachine.waiting.run (pairCall 1 0) = some m₂ ∧
    m₂.cpu.regs = { pairMachine.cpu.regs with eax := 14, edx := 6, ecx := 0, ebx := 0, edi := 0, esi := 0 } := by
  refine ⟨(pairMachine.waiting.run (pairCall 1 0)).get pairMachine_exit, (some_get _).symm, by decide +kernel,
    (some_get _).symm, ?_⟩
  exact call_resumes (some_get pairMachine_wait).symm (some_get _).symm
    ⟨by decide +kernel, by decide +kernel, trivial⟩ (by decide +kernel) (by decide +kernel)

theorem pairMachine_tick : (pairMachine.step (.interrupt 32 noAnswers)).isSome := by decide +kernel

def pairMachine.preempted : TrapMachine := (pairMachine.step (.interrupt 32 noAnswers)).get pairMachine_tick

theorem pairMachine_back :
    (pairMachine.preempted.run [.user (loadArgs ⟨9, 9, 9, 9, 9, 9⟩), .interrupt 32 noAnswers]).isSome := by
  decide +kernel

/-- The clock takes the machine from the parent; the child uses its registers until the next tick. -/
theorem interrupt_resumes_tick : ∃ m₂, pairMachine.step (.interrupt 32 noAnswers) = some pairMachine.preempted ∧
    pairMachine.preempted.curtask = 32 ∧
    pairMachine.preempted.run [.user (loadArgs ⟨9, 9, 9, 9, 9, 9⟩), .interrupt 32 noAnswers] = some m₂ ∧
    m₂.cpu = pairMachine.cpu :=
  ⟨_, (some_get pairMachine_tick).symm, by decide +kernel, (some_get pairMachine_back).symm,
    interrupt_resumes (by decide) (some_get pairMachine_tick).symm (some_get pairMachine_back).symm
      ⟨by decide +kernel, by decide +kernel, trivial⟩ (by decide +kernel) (by decide +kernel)⟩

end MiniOS
