import MiniOS.ProcTable
import MiniOS.ProcessSound

/-!
# The system call `SYS_CLOSE`

`close` looks the descriptor up and does no more: its call of `deref_file` is commented
out. The case of `SYS_CLOSE` in `syscall` has no `return`, so that it runs on into the case
of `SYS_WAIT`, with the descriptor for a pid.
-/

namespace MiniOS

inductive CallEnd where
  | returns (r : Int) (s : Kernel)
  | switches (s : Kernel)

inductive SysCall where
  | close (fd : Int)
  | wait (pid : Int)

namespace Kernel

variable (s : Kernel)

/-- The index is not checked; `beside` is what the words before and after the table hold,
`none` where there is no memory. -/
def findFile (beside : Int → Option (Option Nat)) (fd : Int) : Option (Int × Option Nat) :=
  let word := match Files.fdIndex fd with
    | some i => some (s.fd (s.files s.curtask) i)
    | none => beside fd
  word.map fun f => match f with
    | some file => (0, some file)
    | none => (-ebadf, none)

def close (beside : Int → Option (Option Nat)) (fd : Int) : Option Kernel :=
  (s.findFile beside fd).map fun _ => s

-- The caller is not running any more when it comes to `schedule`, which does not return to it.
def wait (pid : Int) : Option CallEnd :=
  if pidMaxDefault < pid ∨ pid < 0 then some (.returns (-einval) s)
  else
    let t := s.sched.pidmap pid
    if t = 0 ∨ (s.sched.task t).ppid ≠ (s.sched.task s.sched.curtask).pid then some (.returns (-ebadp) s)
    else (s.sched.sleepOn t).schedule.map fun c => .switches { s with sched := c }

def syscall (beside : Int → Option (Option Nat)) : SysCall → Option CallEnd
  | .close fd => (s.close beside fd).bind fun s => s.wait fd
  | .wait pid => s.wait pid

end Kernel

/-! ## What `SYS_CLOSE` is to do -/

def Sched.Queued (s : Sched) (t : Nat) : Prop := t ≠ rqHead ∧ ∃ n, s.links.next^[n] rqHead = t

namespace Kernel

variable (s : Kernel)

def OpenFd (fd : Int) (p : Nat) : Prop := ∃ i, Files.fdIndex fd = some i ∧ s.fd (s.files s.curtask) i = some p

structure Closed (fd : Int) (s' : Kernel) : Prop where
  slot : ∀ p, s.OpenFd fd p → ∀ i, Files.fdIndex fd = some i → s'.fd (s.files s.curtask) i = none
  count : ∀ p, s.OpenFd fd p → ∀ n, s.fCount p = some (n + 1) → s'.fCount p = if n = 0 then none else some n
  others : ∀ f i, (f ≠ s.files s.curtask ∨ Files.fdIndex fd ≠ some i) → s'.fd f i = s.fd f i
  counts : ∀ p, ¬ s.OpenFd fd p → s'.fCount p = s.fCount p
  status : ∀ t, (s'.sched.task t).taskStatus = (s.sched.task t).taskStatus
  pwait : ∀ t, (s'.sched.task t).pwait = (s.sched.task t).pwait
  queue : ∀ t, s'.sched.Queued t ↔ s.sched.Queued t

def CloseRight (beside : Int → Option (Option Nat)) (fd : Int) : Prop :=
  ∃ r s', s.syscall beside (.close fd) = some (.returns r s') ∧ s.Closed fd s'

/-! ## What it does -/

variable {s}

theorem closed_self {fd : Int} (h : ∀ p, ¬ s.OpenFd fd p) : s.Closed fd s where
  slot p hp := absurd hp (h p)
  count p hp := absurd hp (h p)
  others _ _ _ := rfl
  counts _ _ := rfl
  status _ := rfl
  pwait _ := rfl
  queue _ := Iff.rfl

theorem wait_returns (pid : Int) : (∃ r, s.wait pid = some (.returns r s)) ∨
    s.sched.Flags pid (s.sched.pidmap pid) ∧
      s.wait pid = (s.sched.sleepOn (s.sched.pidmap pid)).schedule.map fun c =>
      .switches { s with sched := c } := by
  unfold wait
  split
  · exact .inl ⟨_, rfl⟩
  · next hr =>
    dsimp only
    split
    · exact .inl ⟨_, rfl⟩
    · next hc =>
      simp only [not_or, Classical.not_not, Int.not_lt] at hr hc
      exact .inr ⟨⟨hr.2, hr.1, rfl, hc⟩, rfl⟩

theorem wait_flags {pid : Int} {t : Nat} (h : s.sched.Flags pid t) :
    s.wait pid = (s.sched.sleepOn t).schedule.map fun c => .switches { s with sched := c } := by
  obtain ⟨h₀, h₁, rfl, hz, hp⟩ := h
  unfold wait
  rw [if_neg (by omega)]
  rw [if_neg]
  exact fun h => h.elim hz fun h => h hp

theorem syscall_close (beside : Int → Option (Option Nat)) (fd : Int) :
    s.syscall beside (.close fd) = if Files.fdIndex fd = none ∧ beside fd = none then none else s.wait fd := by
  show ((s.findFile beside fd).map fun _ => s).bind (fun s => s.wait fd) = _
  unfold findFile
  cases Files.fdIndex fd with
  | some i => simp
  | none =>
    cases beside fd with
    | none => rfl
    | some o => simp

end Kernel

/-- `SYS_CLOSE` does what it is for on exactly those descriptors that are not open and
are not the pid of a child either. -/
theorem close_right_iff (s : Kernel) (beside : Int → Option (Option Nat)) (fd : Int) :
    s.CloseRight beside fd ↔
      (Files.fdIndex fd = none → beside fd ≠ none) ∧ (∀ p, ¬ s.OpenFd fd p) ∧ ∀ t, ¬ s.sched.Flags fd t := by
  unfold Kernel.CloseRight
  simp only [Kernel.syscall_close]
  constructor
  · intro h
    obtain ⟨r, s', hcall, hclosed⟩ := h
    split at hcall
    · cases hcall
    · next hword =>
      have hchild : ∀ t, ¬ s.sched.Flags fd t := by
        intro t ht
        rw [Kernel.wait_flags ht] at hcall
        obtain ⟨c, -, hc⟩ := Option.map_eq_some_iff.mp hcall
        cases hc
      refine ⟨fun hi hb => hword ⟨hi, hb⟩, fun p hp => ?_, hchild⟩
      obtain ⟨r', hr⟩ | ⟨hflags, -⟩ := s.wait_returns fd
      · rw [hr] at hcall
        cases hcall
        obtain ⟨i, hi, hslot⟩ := hp
        rw [hclosed.slot p ⟨i, hi, hslot⟩ i hi] at hslot
        cases hslot
      · exact hchild _ hflags
  · intro h
    obtain ⟨hword, hopen, hchild⟩ := h
    rw [if_neg fun e => hword e.1 e.2]
    obtain ⟨r, hr⟩ | ⟨hflags, -⟩ := s.wait_returns fd
    · exact ⟨r, s, hr, Kernel.closed_self hopen⟩
    · exact absurd hflags (hchild _)

def stdout : Fin maxFile := ⟨1, by decide⟩

def withOutput (s : Kernel) : Kernel :=
  { s with
    fd := fun _ i => if i = stdout then some 208 else none
    fCount := fun p => if p = 208 then some 1 else none }

/-- The first task has a child, whose pid is 1, and closes its descriptor 1: the descriptor
stays open, and the task sleeps until the child ends. -/
theorem close_waits : ∃ s₁ s s', blankKernel.boot firstMem blankTask onePage = some s₁ ∧
    (withOutput s₁).doFork false ⟨80, 96, 112, 128⟩ = some (1, s) ∧ s.curtask = 16 ∧ s.OpenFd 1 208 ∧
    s.syscall (fun _ => none) (.close 1) = some (.switches s') ∧ s'.curtask = 80 ∧
    s'.fd (s.files 16) stdout = some 208 ∧
    (s'.sched.task 16).taskStatus = .interruptible ∧ (s'.sched.task 80).pwait = 1 ∧
    ¬ s.CloseRight (fun _ => none) 1 := by
  have h : ((blankKernel.boot firstMem blankTask onePage).bind fun s₁ =>
      ((withOutput s₁).doFork false ⟨80, 96, 112, 128⟩).bind fun r => (r.2.sched.sleepOn 80).schedule.map fun c =>
        ((r.1, r.2.curtask, r.2.fd (r.2.files 16) stdout, r.2.sched.pidmap 1),
          ((r.2.sched.task 80).ppid, (r.2.sched.task 16).pid), c.curtask, (c.task 16).taskStatus,
          (c.task 80).pwait)) =
      some ((1, 16, some 208, 80), (0, 0), 80, .interruptible, 1) := by decide +kernel
  simp only [Option.bind_eq_some_iff, Option.map_eq_some_iff, Prod.mk.injEq] at h
  obtain ⟨s₁, hb, ⟨r, s⟩, hf, c, hc, ⟨rfl, hcur, hslot, hmap⟩, ⟨hppid, hpid⟩, hnext, hstatus, hpwait⟩ := h
  have hflags : s.sched.Flags 1 80 := by
    refine ⟨by decide, by decide, hmap, by decide, ?_⟩
    rw [hppid, show s.sched.curtask = 16 from hcur, hpid]
  have hopen : s.OpenFd 1 208 := ⟨stdout, rfl, hcur ▸ hslot⟩
  have hcall : s.syscall (fun _ => none) (.close 1) = some (.switches { s with sched := c }) := by
    rw [Kernel.syscall_close, if_neg (by decide), Kernel.wait_flags hflags, hc]
    rfl
  refine ⟨s₁, s, _, hb, hf, hcur, hopen, hcall, hnext, hslot, hstatus, hpwait, ?_⟩
  intro h
  obtain ⟨r, s', hret, -⟩ := h
  rw [hcall] at hret
  cases hret

end MiniOS
