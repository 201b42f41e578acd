import MiniOS.ExitEnds
import MiniOS.ForkEntries
import MiniOS.SysClose

/-!
# Pids from user code

`SYS_EXIT` and `SYS_WAIT` with any number for a pid. `pid2task` asserts that the number is an
index of `task_pidmap`, and its error comes back to the `panic` behind `sys_exit`; `wait` has a
range of its own, which is one too long.
-/

namespace MiniOS

open List Option

inductive PidCall where
  | exit (pid : BitVec 32)
  | wait (pid : BitVec 32)

/-- The indices of `task_pidmap` a call uses if nothing panics before; `none` is a panic. -/
structure PidResult where
  indices : List Int
  ends : Option CallEnd

namespace Kernel

variable (s : Kernel)

def exitIndices (t : Nat) : List Int :=
  (if (s.sched.task t).pwait ≠ 0 then [(s.sched.task t).ppid] else []) ++
    if 0 ≤ (s.sched.task t).pid then [(s.sched.task t).pid] else []

-- `exit` and `schedule` end in `task_run`, which does not come back to `sys_exit`.
def exitTarget (t : Nat) : Option CallEnd :=
  (s.exit t).bind fun s' =>
    if t = s.curtask then some (.switches s')
    else s'.sched.schedule.map fun c => .switches { s' with sched := c }

def sysExit (pid : Int) : PidResult :=
  if pid < 0 ∨ pidMaxDefault ≤ pid then ⟨[], none⟩
  else
    let l := if pid = 0 then [] else [pid]
    match s.sched.pid2task pid with
    | none => ⟨l, none⟩
    | some t => ⟨l ++ s.exitIndices t, s.exitTarget t⟩

def sysWait (pid : Int) : PidResult :=
  ⟨if pidMaxDefault < pid ∨ pid < 0 then [] else [pid], s.wait pid⟩

def pidCall : PidCall → PidResult
  | .exit pid => s.sysExit pid.toInt
  | .wait pid => s.sysWait pid.toInt

/-! ## What is asked of the calls -/

def LiveChild (pid : Int) : Prop :=
  ∃ t ∈ s.sched.live, (s.sched.task t).pid = pid ∧ (s.sched.task t).ppid = (s.sched.task s.curtask).pid

def Names : PidCall → Prop
  | .exit pid => (s.sched.task s.curtask).pid = pid.toInt ∨ s.LiveChild pid.toInt
  | .wait pid => s.LiveChild pid.toInt

def InPidmap (i : Int) : Prop := 0 ≤ i ∧ i < pidMaxDefault

structure PidSafe (c : PidCall) : Prop where
  inside : ∀ i ∈ (s.pidCall c).indices, InPidmap i
  noPanic : (s.pidCall c).ends ≠ none
  rejects : ¬ s.Names c → ∃ e < 0, (s.pidCall c).ends = some (.returns e s)

/-- The pid of an `exit` has to name a task it may end, and that task has to end well: `page_remove`
asserts that the address is not 0. `wait` is right about all numbers but one, if there is another
task to run. -/
def PidProper : PidCall → Prop
  | .exit pid =>
    let t := s.sched.target pid.toInt
    s.Names (.exit pid) ∧ ((s.sched.task t).pwait ≠ 0 → InPidmap (s.sched.task t).ppid) ∧ s.ExitOk t ∧
      ∀ a ∈ (s.paging.mm (s.mm t)).mmap, 0 ∉ a.addrs
  | .wait pid =>
    pid.toInt ≠ pidMaxDefault ∧ (s.LiveChild pid.toInt → (s.sched.links.listDel s.curtask).listEmpty rqHead = false)

/-! ## `SYS_EXIT` -/

variable {s} {pid : Int} {t : Nat}

theorem exitTarget_switches {e : CallEnd} (h : s.exitTarget t = some e) : ∃ s', e = .switches s' := by
  obtain ⟨s', -, h⟩ := bind_eq_some_iff.mp h
  split at h
  · exact ⟨s', (some.inj h).symm⟩
  · obtain ⟨c, -, h⟩ := map_eq_some_iff.mp h
    exact ⟨_, h.symm⟩

theorem exitTarget_ne_none (ht : t ≠ 0) (hc : s.curtask ≠ 0) : s.exitTarget t ≠ none ↔
    s.ExitOk t ∧ ∀ a ∈ (s.paging.mm (s.mm t)).mmap, 0 ∉ a.addrs := by
  have hareas : s.paging.exitMm (s.mm t) ≠ none ↔ ∀ a ∈ (s.paging.mm (s.mm t)).mmap, 0 ∉ a.addrs :=
    Paging.exitAreas_ne_none
  have hnext (hp : (s.sched.task t).pwait ≠ 0 → s.sched.pidmap (s.sched.task t).ppid ≠ 0)
      (hg : s.paging.exitMm (s.mm t) ≠ none) (hF : s.table.Covered (List.finRange maxFile)) :
      s.exitTarget t ≠ none ↔ s.RunsOn t ∨ (s.queueAfter t).listEmpty rqHead = false := by
    obtain ⟨g, F, he⟩ := exitBy_next (f := (Paging.exitMm · (s.mm t))) ht hp hg hF
    rw [exitTarget, exit, he]
    by_cases hcur : t = s.curtask
    · rw [if_pos hcur, or_iff_right fun hrun : s.RunsOn t => hrun.other hcur, ← schedule_ended ht]
      cases Sched.schedule { (s.ended g F t).sched with curtask := 0 } with
      | none => exact iff_of_false (fun h => h rfl) fun h => h rfl
      | some c =>
        rw [map_some, bind_some, if_pos hcur]
        exact iff_of_true nofun nofun
    · rw [if_neg hcur, bind_some, if_neg hcur, Ne, map_eq_none_iff]
      exact schedule_other ht hc hcur
  constructor
  · intro h
    obtain ⟨hp, hg, hF⟩ := exitBy_begins fun he => h (by rw [exitTarget, exit, he]; rfl)
    exact ⟨⟨hp, hF, (hnext hp hg hF).mp h⟩, hareas.mp hg⟩
  · intro ⟨hok, hareas'⟩
    exact (hnext hok.parent (hareas.mpr hareas') hok.files).mpr hok.next

theorem inPidmap_of_live (h : PidsOk s.sched s.map) (ht : t ∈ s.sched.live) : InPidmap (s.sched.task t).pid := by
  obtain ⟨i, hpid, hi, -⟩ := h.pid t ht
  rw [hpid]
  unfold bitsPerPage at hi
  unfold InPidmap pidMaxDefault
  omega

theorem pidmap_of_live (h : PidsOk s.sched s.map) (ht : t ∈ s.sched.live) :
    s.sched.pidmap (s.sched.task t).pid = t := by
  obtain ⟨i, hpid, -, hmap, -⟩ := h.pid t ht
  rw [hpid, hmap]

/-- In a table that is what it should be, a pid that names a task is found. -/
theorem pid2task_of_live (h : PidsOk s.sched s.map) (ht : t ∈ s.sched.live)
    (hper : t = s.curtask ∨ (s.sched.task t).ppid = (s.sched.task s.curtask).pid)
    (hpid : (s.sched.task t).pid = pid) : s.sched.pid2task pid = some (s.sched.target pid) := by
  unfold Sched.pid2task Sched.target
  by_cases hz : pid = 0
  · rw [if_pos hz, if_pos hz]
  · have hmap : s.sched.pidmap pid = t := hpid ▸ pidmap_of_live h ht
    rw [if_neg hz, if_neg hz, hmap]
    rw [if_neg (fun hn => hn.elim (h.proper t ht) fun hp => hp hpid), if_neg]
    exact fun hn => hper.elim hn.1 hn.2

theorem names_live (hcur : s.curtask ∈ s.sched.live)
    (hn : (s.sched.task s.curtask).pid = pid ∨ s.LiveChild pid) :
    ∃ t ∈ s.sched.live, (t = s.curtask ∨ (s.sched.task t).ppid = (s.sched.task s.curtask).pid) ∧
      (s.sched.task t).pid = pid := by
  obtain hpid | ⟨t, ht, hpid, hppid⟩ := hn
  · exact ⟨_, hcur, .inl rfl, hpid⟩
  · exact ⟨t, ht, .inr hppid, hpid⟩

theorem target_mem (h : PidsOk s.sched s.map) (hcur : s.curtask ∈ s.sched.live) (ht : t ∈ s.sched.live)
    (hpid : (s.sched.task t).pid = pid) : s.sched.target pid ∈ s.sched.live := by
  unfold Sched.target
  split
  · exact hcur
  · rw [← hpid, pidmap_of_live h ht]
    exact ht

theorem sysExit_eq (h₀ : 0 ≤ pid) (h₁ : pid < pidMaxDefault) (hp : s.sched.pid2task pid = some t) :
    s.sysExit pid = ⟨(if pid = 0 then [] else [pid]) ++ s.exitIndices t, s.exitTarget t⟩ := by
  unfold sysExit
  rw [if_neg (by omega), hp]

theorem exit_safe_iff (h : PidsOk s.sched s.map) (hcur : s.curtask ∈ s.sched.live) (p : BitVec 32) :
    s.PidSafe (.exit p) ↔ s.PidProper (.exit p) := by
  constructor
  · intro hsafe
    have hnames : s.Names (.exit p) := by
      by_contra hno
      obtain ⟨e, -, hret⟩ := hsafe.rejects hno
      have hret : (s.sysExit p.toInt).ends = some (.returns e s) := hret
      unfold sysExit at hret
      split at hret
      · cases hret
      · dsimp only at hret
        split at hret
        · cases hret
        · obtain ⟨s', he⟩ := exitTarget_switches hret
          cases he
    obtain ⟨t, ht, hper, hpid⟩ := names_live hcur hnames
    obtain ⟨h₀, h₁⟩ := hpid ▸ inPidmap_of_live h ht
    have heq := sysExit_eq h₀ h₁ (pid2task_of_live h ht hper hpid)
    have hinside : ∀ i ∈ (s.sysExit p.toInt).indices, InPidmap i := hsafe.inside
    have hends : (s.sysExit p.toInt).ends ≠ none := hsafe.noPanic
    have htarget := h.proper _ (target_mem h hcur ht hpid)
    rw [heq] at hinside hends
    have hends := (exitTarget_ne_none htarget (h.proper _ hcur)).mp hends
    refine ⟨hnames, fun hw => hinside _ (mem_append_right _ (mem_append_left _ ?_)), hends⟩
    rw [if_pos hw]
    exact mem_singleton_self _
  · rintro ⟨hnames, hnotify, hends⟩
    obtain ⟨t, ht, hper, hpid⟩ := names_live hcur hnames
    have hin : InPidmap p.toInt := hpid ▸ inPidmap_of_live h ht
    have heq : s.pidCall (.exit p) = _ := sysExit_eq hin.1 hin.2 (pid2task_of_live h ht hper hpid)
    refine ⟨?_, ?_, fun hno => absurd hnames hno⟩
    · rw [heq]
      refine forall_mem_append.mpr ⟨?_, forall_mem_append.mpr ⟨?_, ?_⟩⟩
      · split
        · exact nofun
        · exact forall_mem_singleton.mpr hin
      · split
        · rename_i hw
          exact forall_mem_singleton.mpr (hnotify hw)
        · exact nofun
      · split
        · exact forall_mem_singleton.mpr (inPidmap_of_live h (target_mem h hcur ht hpid))
        · exact nofun
    · rw [heq]
      exact (exitTarget_ne_none (h.proper _ (target_mem h hcur ht hpid)) (h.proper _ hcur)).mpr hends

/-! ## `SYS_WAIT` -/

theorem schedule_asleep {c : Sched} (hs : (c.task c.curtask).taskStatus = .interruptible) :
    c.schedule = none ↔ c.links.listEmpty rqHead = true := by
  have hnot : ¬ (c.curtask ≠ 0 ∧ (c.task c.curtask).taskStatus = .running ∧ ¬ (c.task c.curtask).needResched) := by
    rw [hs]
    exact fun hn => absurd hn.2.1 (by decide)
  rw [← not_iff_not, ← Ne, Sched.schedule_ne_none, or_iff_right hnot, Bool.not_eq_true]

theorem wait_child (h : PidsOk s.sched s.map) (hc : s.LiveChild pid) :
    s.wait pid = none ↔ (s.sched.links.listDel s.curtask).listEmpty rqHead = true := by
  obtain ⟨t, ht, hpid, hppid⟩ := hc
  obtain ⟨h₀, h₁⟩ := hpid ▸ inPidmap_of_live h ht
  have hflags : s.sched.Flags pid t :=
    ⟨h₀, Int.le_of_lt h₁, hpid ▸ pidmap_of_live h ht, h.proper t ht, hppid⟩
  have hsleep : ((s.sched.sleepOn t).task (s.sched.sleepOn t).curtask).taskStatus = .interruptible := by
    have hself : (s.sched.sleepOn t).task s.sched.curtask = _ := Function.update_self ..
    exact congrArg Task.taskStatus hself
  rw [wait_flags hflags, map_eq_none_iff, schedule_asleep hsleep]
  rfl

theorem wait_other (h : PidsOk s.sched s.map) (hne : pid ≠ pidMaxDefault) (hc : ¬ s.LiveChild pid) :
    ∃ e < 0, s.wait pid = some (.returns e s) := by
  unfold wait
  split
  · exact ⟨_, by decide, rfl⟩
  · rename_i hr
    dsimp only
    split
    · exact ⟨_, by decide, rfl⟩
    · rename_i ht
      simp only [not_or, Classical.not_not, Int.not_lt] at hr ht
      lift pid to Nat using hr.2
      have hpid : pid < bitsPerPage := by
        unfold pidMaxDefault at hr hne
        unfold bitsPerPage
        omega
      obtain ⟨hlive, hp⟩ := h.table pid hpid ht.1
      exact absurd ⟨_, hlive, hp, ht.2⟩ hc

theorem wait_safe_iff (h : PidsOk s.sched s.map) (p : BitVec 32) : s.PidSafe (.wait p) ↔ s.PidProper (.wait p) := by
  constructor
  · intro hsafe
    refine ⟨fun hmax => ?_, fun hc => Bool.eq_false_iff.mpr fun he => hsafe.noPanic ((wait_child h hc).mpr he)⟩
    have hin : InPidmap p.toInt := by
      refine hsafe.inside _ ?_
      show p.toInt ∈ if pidMaxDefault < p.toInt ∨ p.toInt < 0 then [] else [p.toInt]
      rw [if_neg (by rw [hmax]; decide)]
      exact mem_singleton_self _
    exact absurd hin.2 (by omega)
  · rintro ⟨hne, hqueue⟩
    refine ⟨fun i hi => ?_, ?_, fun hno => wait_other h hne hno⟩
    · have hi : i ∈ if pidMaxDefault < p.toInt ∨ p.toInt < 0 then [] else [p.toInt] := hi
      split at hi
      · cases hi
      · rw [mem_singleton.mp hi]
        unfold InPidmap
        omega
    · show s.wait p.toInt ≠ none
      by_cases hc : s.LiveChild p.toInt
      · intro hnone
        rw [wait_child h hc, hqueue hc] at hnone
        cases hnone
      · obtain ⟨e, -, hret⟩ := wait_other h hne hc
        rw [hret]
        exact nofun

end Kernel

/-- In every process table, the calls are safe for exactly the numbers that `PidProper` admits. -/
theorem pid_safe_iff (s : Kernel) (h : PidsOk s.sched s.map) (hcur : s.curtask ∈ s.sched.live) (c : PidCall) :
    s.PidSafe c ↔ s.PidProper c := by
  cases c with
  | exit pid => exact Kernel.exit_safe_iff h hcur pid
  | wait pid => exact Kernel.wait_safe_iff h pid

theorem booted_table : ∃ s, blankKernel.boot firstMem blankTask onePage = some s ∧ PidsOk s.sched s.map ∧
    s.sched.live = [16] ∧ s.curtask = 16 ∧ (s.sched.task 16).pid = 0 := by
  have h : (blankKernel.boot firstMem blankTask onePage).map
      (fun s => (s.sched.live, s.curtask, (s.sched.task 16).pid)) = some ([16], 16, 0) := by decide +kernel
  obtain ⟨s, hboot, hs⟩ := map_eq_some_iff.mp h
  simp only [Prod.mk.injEq] at hs
  exact ⟨s, hboot, (Kernel.boot_reachable blankKernel_start blankKernel_fresh hboot).inv.pids, hs⟩

/-- The first task waits for a pid that nobody has. -/
theorem pid_safe_iff_first : ∃ s, blankKernel.boot firstMem blankTask onePage = some s ∧ s.PidSafe (.wait 7) := by
  obtain ⟨s, hboot, hok, hlive, hcur, hpid⟩ := booted_table
  refine ⟨s, hboot, (pid_safe_iff s hok (by rw [hlive, hcur]; simp) _).mpr ⟨by decide, ?_⟩⟩
  rintro ⟨t, ht, htpid, -⟩
  rw [hlive, mem_singleton] at ht
  rw [ht, hpid] at htpid
  exact absurd htpid (by decide)

/-- The first task asks for the end of the task -1, or waits for the task 0x8000. -/
theorem pid_asserted : ∃ s, blankKernel.boot firstMem blankTask onePage = some s ∧ PidsOk s.sched s.map ∧
    s.curtask ∈ s.sched.live ∧ (s.pidCall (.exit 0xFFFFFFFF)).ends = none ∧
    (s.pidCall (.wait 0x8000)).indices = [0x8000] ∧ ¬ s.PidSafe (.exit 0xFFFFFFFF) ∧
    ¬ s.PidSafe (.wait 0x8000) := by
  obtain ⟨s, hboot, hok, hlive, hcur, -⟩ := booted_table
  have hpanic : (s.pidCall (.exit 0xFFFFFFFF)).ends = none := rfl
  have hindex : (s.pidCall (.wait 0x8000)).indices = [0x8000] := rfl
  refine ⟨s, hboot, hok, by rw [hlive, hcur]; simp, hpanic, hindex, fun h => h.noPanic hpanic, fun h => ?_⟩
  have hin := h.inside 0x8000 (by rw [hindex]; simp)
  exact absurd hin.2 (by decide)

end MiniOS
