import MiniOS.WaitSound

/-!
# Pids that come round

`wait` and `sys_exit` know a parent by its pid. Where no pid is given out again while a task
still has it for its `ppid`, the pid of the caller says who the parent is. `alloc_pidmap` comes
back to a pid after 32768 others, though, and then a child can take its own creator for its child.
-/

namespace MiniOS

open Function List Option Relation

/-! ## A task and its child -/

def Sched.Known (s : Sched) (t pid : Nat) (ppid : Int) : Prop :=
  (s.task t).pid = pid ∧ (s.task t).ppid = ppid ∧ (s.task t).pwait = 0

theorem Sched.Known.same {s s' : Sched} {t pid : Nat} {ppid : Int} (h : s.Known t pid ppid)
    (hs : (s'.task t).Same (s.task t)) :
    s'.Known t pid ppid := ⟨hs.1.trans h.1, hs.2.1.trans h.2.1, hs.2.2.2.trans h.2.2⟩

namespace Procs

variable {s s' : Procs} {p t i k n : Nat} {j : Int}

structure Sole (s : Procs) (p i : Nat) (j : Int) (n : Nat) : Prop where
  ok : s.Ok
  rep : QueueRep s.sched [p]
  live : s.sched.live = [p]
  cur : s.sched.curtask = p
  task : s.sched.Known p i j
  nrFree : s.map.nrFree = bitsPerPage - 1
  lastPid : s.map.lastPid = n
  used : ∀ x, s.map.used x = decide (x = i)

structure Pair (s : Procs) (p i : Nat) (j : Int) (t k : Nat) : Prop where
  ok : s.Ok
  rep : QueueRep s.sched [p, t]
  live : s.sched.live = [t, p]
  cur : s.sched.curtask = p
  task : s.sched.Known p i j
  child : s.sched.Known t k i
  creator : s.sched.creator t = s.sched.uid p
  young : s.sched.creator p < s.sched.uid t
  nrFree : s.map.nrFree = bitsPerPage - 2
  lastPid : s.map.lastPid = k
  used : ∀ x, s.map.used x = (decide (x = i) || decide (x = k))

theorem Sole.fork (h : s.Sole p i j n) (ht : t ≠ 0) (hh : t ≠ rqHead) (htp : t ≠ p) (hi : s.map.first ≠ i) :
    s.Allowed (.fork t true) ∧ ∃ s', s.trap (.fork t true) = some s' ∧ s'.Pair p i j t s.map.first := by
  have hall : s.Allowed (.fork t true) := ⟨ht, hh, by rw [h.live]; exact fun hm => htp (mem_singleton.mp hm)⟩
  have hcl : s.sched.curtask ∈ s.sched.live := by
    rw [h.live, h.cur]
    exact mem_singleton_self p
  obtain ⟨m, hm, hn, hl, hused⟩ := Pidmap.allocPidmap_first (m := s.map) (by rw [h.nrFree]; decide)
    (by rw [h.used]; exact decide_eq_false hi)
  obtain ⟨k, hk⟩ : ∃ k, s.map.first = k := ⟨_, rfl⟩
  rw [hk] at hm hl hused ⊢
  obtain ⟨x, hx, hnext, -⟩ := next_of_alloc hm (by omega)
  obtain rfl : k = x := Int.ofNat.inj hx
  have hfresh := fresh_of_next h.ok hall hnext
  have hunclaimed : s.sched.Unclaimed k := fun a ha hw => by
    rw [h.live, mem_singleton] at ha
    rw [ha] at hw
    exact absurd h.task.2.2 hw
  have hrep : QueueRep (s.sched.doFork t k true) [p, t] :=
    Sched.enrol_rep (a := ⟨k, _, .running, 3, false, 0⟩) h.rep hfresh hunclaimed rfl rfl (h.rep.born _ hcl).2
  obtain ⟨c, hs, hcur⟩ := Sched.schedule_first hrep fun _ _ => h.cur
  have htrap : s.trap (.fork t true) = some ⟨c, m⟩ := by
    have hneg : ¬ (k : Int) < 0 := by omega
    simp only [trap, resolve, hm, if_neg hneg, if_true, bind_some, Sched.trap, hs, map_some]
  obtain ⟨htab, hsame⟩ := Sched.schedule_same hs
  have hself : (s.sched.doFork t k true).task t = ⟨k, (s.sched.task s.sched.curtask).pid, .running, 3, false, 0⟩ :=
    Sched.setTask_self ..
  have hother : (s.sched.doFork t k true).task p = s.sched.task p := Sched.setTask_of_ne _ _ htp.symm
  refine ⟨hall, _, htrap, ?_⟩
  refine ⟨(trap_change h.ok hall hcl htrap).ok h.ok, ?_, ?_, hcur, ?_, ?_, ?_, ?_, ?_, hl, fun x => ?_⟩
  · exact (Sched.schedule_rep hrep (.inr (mem_cons_of_mem _ hcl)) hs).1
  · exact htab.live.trans (congrArg (List.cons t) h.live)
  · exact Sched.Known.same (s := s.sched) h.task (hother ▸ hsame p)
  · refine Sched.Known.same (s := s.sched.doFork t k true) ?_ (hsame t)
    rw [Sched.Known, hself]
    exact ⟨rfl, by rw [h.cur]; exact h.task.1, rfl⟩
  · show c.creator t = c.uid p
    rw [htab.creator, htab.uid]
    show update s.sched.creator t (s.sched.uid s.sched.curtask) t = update s.sched.uid t s.sched.born p
    rw [update_self, update_of_ne htp.symm, h.cur]
  · show c.creator p < c.uid t
    rw [htab.creator, htab.uid]
    show update s.sched.creator t (s.sched.uid s.sched.curtask) p < update s.sched.uid t s.sched.born t
    rw [update_self, update_of_ne htp.symm, ← h.cur]
    exact Nat.lt_trans (h.rep.born _ hcl).1 (h.rep.born _ hcl).2
  · show m.nrFree = _
    rw [hn, h.nrFree]
    decide
  · show m.used x = _
    rw [hused, h.used]
    by_cases e : x = k
    · simp [e]
    · simp [e]

theorem Pair.exit {a b x x' : Nat} {y y' pid : Int} (h : s.Pair p i j t k) (hp : s.sched.pid2task pid = some a)
    (h₀ : 0 ≤ pid)
    (h₁ : pid < pidMaxDefault) (hlive : [t, p].erase a = [b]) (hq : [p, t].erase a = [b]) (ha : s.sched.Known a x y)
    (hb : s.sched.Known b x' y')
    (hused : ∀ z, (if z = x then false else decide (z = i) || decide (z = k)) = decide (z = x')) :
    ∃ s', s.trap (.exit pid) = some s' ∧ s'.Sole b x' y' k := by
  have hcl : s.sched.curtask ∈ s.sched.live := by
    rw [h.live, h.cur]
    simp
  obtain ⟨hal, htarget⟩ := target_live h.ok hcl h₀ h₁ hp
  obtain ⟨x₁, hx, hlt, -⟩ := h.ok.pids.pid a hal
  obtain rfl : x = x₁ := Int.ofNat.inj (ha.1.symm.trans hx)
  have hl := Sched.leave_unflagged ha.2.2
  have hrep := (Sched.bury_rep h.rep hal).retask (fun _ _ => .rfl)
    (if a = s.sched.curtask then 0 else s.sched.curtask)
  rw [hq] at hrep
  obtain ⟨c, hs, hcur⟩ := Sched.schedule_first hrep fun hz _ => by
    have e : a ≠ s.sched.curtask := fun e => hz (if_pos e)
    have hin := (mem_erase_of_ne e.symm).mpr hcl
    rw [h.live, hlive] at hin
    rw [if_neg e]
    exact mem_singleton.mp hin
  have htrap : s.trap (.exit pid) = some ⟨c, s.map.freePidmap x⟩ := by
    have hr : ¬ (pid < 0 ∨ pidMaxDefault ≤ pid) := by omega
    have hhandle : s.sched.handle (.exit pid) = _ :=
      (if_neg hr).trans ((congrArg (Option.bind · s.sched.leave) hp).trans hl)
    simp only [trap, resolve, bind_some, Sched.trap_eq, hhandle, hs, map_some, ← htarget, ha.1]
  obtain ⟨htab, hsame⟩ := Sched.schedule_same hs
  have hall : s.Allowed (.exit pid) := trivial
  refine ⟨_, htrap, (trap_change h.ok hall hcl htrap).ok h.ok, ?_, ?_, hcur, ?_, ?_, h.lastPid, fun z => ?_⟩
  · refine (Sched.schedule_rep hrep ?_ hs).1
    by_cases e : a = s.sched.curtask
    · exact .inl (if_pos e)
    · exact .inr (by
        rw [if_neg e]
        exact (mem_erase_of_ne fun e' => e e'.symm).mpr hcl)
  · refine htab.live.trans ?_
    show s.sched.live.erase a = [b]
    rw [h.live, hlive]
  · exact hb.same (hsame b)
  · show wrap (s.map.nrFree + 1) = _
    rw [h.nrFree]
    decide
  · show (s.map.freePidmap x).used z = _
    rw [Pidmap.freePidmap_used hlt, h.used, hused]

theorem Sole.pass (h : s.Sole p i j n) (hi : i ≤ n) (hn : n + 1 < bitsPerPage) (ht : t ≠ 0)
    (hh : t ≠ rqHead) (htp : t ≠ p) : ∃ s', ReflTransGen Step s s' ∧ s'.Sole p i j (n + 1) := by
  have hfirst : s.map.first = n + 1 := by
    unfold Pidmap.first
    rw [h.lastPid]
    exact Pidmap.offsetOf_of_lt hn
  obtain ⟨hall, s₁, h₁, hpair⟩ := h.fork ht hh htp (by omega)
  rw [hfirst] at hpair
  have hchild : s₁.sched.pid2task (n + 1 : Nat) = some t := by
    have htl : t ∈ s₁.sched.live := by
      rw [hpair.live]
      simp
    have hm := (hpair.rep.pid t htl).2.2.1
    rw [hpair.child.1] at hm
    exact Sched.pid2task_of (by omega) hm ht hpair.child.1 (by rw [hpair.child.2.1, hpair.cur, hpair.task.1])
  obtain ⟨s₂, h₂, hsole⟩ := hpair.exit hchild (by omega) (by unfold pidMaxDefault; unfold bitsPerPage at hn; omega)
    (by simp) (by simp [htp.symm]) hpair.child hpair.task fun z => by
      by_cases e : z = n + 1
      · simp [e]
        omega
      · simp [e]
  exact ⟨s₂, .tail (.single ⟨_, hall, h₁⟩) ⟨.exit (n + 1 : Nat), trivial, h₂⟩, hsole⟩

theorem Sole.passes (h : s.Sole p i j n) (hi : i ≤ n) (ht : t ≠ 0) (hh : t ≠ rqHead) (htp : t ≠ p) (d : Nat) :
    n + d < bitsPerPage → ∃ s', ReflTransGen Step s s' ∧ s'.Sole p i j (n + d) := by
  induction d with
  | zero => exact fun _ => ⟨s, .refl, h⟩
  | succ d ih =>
    intro hd
    obtain ⟨s₁, hrun, h₁⟩ := ih (by omega)
    obtain ⟨s₂, hrun', h₂⟩ := h₁.pass (by omega) (by omega) ht hh htp
    exact ⟨s₂, hrun.trans hrun', h₂⟩

theorem Pair.wait (h : s.Pair p i j t k) : ∃ s', s.trap (.wait k) = some s' ∧ SameTable s.sched s'.sched ∧
    QueueRep s'.sched [t] ∧ s'.sched.curtask = t := by
  have htl : t ∈ s.sched.live := by
    rw [h.live]
    simp
  have hcq : s.sched.curtask ∈ [p, t] := by
    rw [h.cur]
    simp
  have htp : t ≠ s.sched.curtask := Sched.ne_of_creator h.rep htl (h.cur ▸ h.creator)
  obtain ⟨h₀, h₁, hm, -⟩ := h.rep.pid t htl
  rw [h.child.1] at h₀ h₁ hm
  have hpar : (s.sched.task t).ppid = (s.sched.task s.sched.curtask).pid := by rw [h.child.2.1, h.cur, h.task.1]
  have hrep := Sched.sleepOn_rep h.rep hcq htl hpar (h.cur ▸ h.creator)
  rw [h.cur, erase_cons_head] at hrep
  obtain ⟨c, hs, hcur⟩ := Sched.schedule_first hrep fun _ hr => by
    have hr : ((s.sched.sleepOn t).task s.sched.curtask).taskStatus = .running := hr
    rw [(Sched.sleepOn_sleeps htp).cur] at hr
    cases hr
  refine ⟨⟨c, s.map⟩, ?_, (s.sched.sleepOn_sameTable t).trans (Sched.schedule_same hs).1, ?_, hcur⟩
  · simp only [trap, resolve, bind_some, Sched.trap_eq,
      Sched.handle_wait_of h₀ h₁ hm (h.rep.proper t htl).1 hpar, hs, map_some]
  · exact (Sched.schedule_rep hrep (.inr (h.rep.cur_mem hcq).2.1) hs).1

/-- A child with the pid its parent knows its own parent by: once the parent waits, the parent looks
like a child of the task that runs. -/
theorem Pair.turned (h : s.Pair p i k t k) : ∃ s', s.trap (.wait k) = some s' ∧ s'.sched.live = [t, p] ∧
    QueueRep s'.sched [t] ∧ s'.sched.curtask = t ∧ s'.sched.pidmap i = p ∧ (s'.sched.task p).pid = i ∧
    (s'.sched.task p).ppid = (s'.sched.task s'.sched.curtask).pid ∧ s'.sched.creator p < s'.sched.uid t := by
  obtain ⟨s', hs, htab, hrep, hcur⟩ := h.wait
  have htl : t ∈ s.sched.live := by
    rw [h.live]
    simp
  have hpl : p ∈ s.sched.live := by
    rw [h.live]
    simp
  have hm := (h.rep.pid p hpl).2.2.1
  rw [h.task.1] at hm
  refine ⟨s', hs, htab.live.trans h.live, hrep,
    hcur, by rw [htab.pidmap, hm], by rw [htab.pid p hpl, h.task.1], ?_, ?_⟩
  · rw [hcur, htab.ppid p hpl, htab.pid t htl, h.task.2.1, h.child.1]
  · rw [htab.creator, htab.uid]
    exact h.young

theorem boot_sole {c : Sched} {old : Task} (hb : c.Blank) (ht : t ≠ 0) (hh : t ≠ rqHead) (hold : old.pwait = 0)
    (h : boot c t old = some s) : s.Sole t 0 (-1) 0 := by
  have hok := (boot_ok hb ht h).1
  obtain ⟨c', hs, rfl⟩ := map_eq_some_iff.mp h
  obtain ⟨m, hm, hn, hl, hused⟩ := start_alloc
  rw [hm] at hok ⊢
  obtain ⟨hrep, hcur⟩ := Sched.boot_rep hb ht hh hold hs
  obtain ⟨hlive, hpid, hppid, -, hw⟩ := Sched.boot_task hb hs
  exact ⟨hok, hrep, hlive, hcur, ⟨hpid, hppid, hw.trans hold⟩, hn, hl, hused⟩

end Procs

theorem first_child : ∃ s₁ s₂, Procs.boot blankSched 16 blankTask = some s₁ ∧ s₁.Sole 16 0 (-1) 0 ∧
    s₁.Allowed (.fork 32 true) ∧ s₁.trap (.fork 32 true) = some s₂ ∧ s₂.Pair 16 0 (-1) 32 1 := by
  have hsome : (Procs.boot blankSched 16 blankTask).isSome = true := by decide
  obtain ⟨s₁, h₁⟩ := isSome_iff_exists.mp hsome
  have hsole := Procs.boot_sole blankSched_blank (by decide) (by decide) rfl h₁
  have hfirst : s₁.map.first = 1 := by
    unfold Pidmap.first
    rw [hsole.lastPid]
    rfl
  obtain ⟨hall, s₂, h₂, hpair⟩ := hsole.fork (t := 32) (by decide) (by decide) (by decide) (by rw [hfirst]; decide)
  exact ⟨s₁, s₂, h₁, hsole, hall, h₂, hfirst ▸ hpair⟩

/-- The first task forks and exits. Its child passes all pids with children of its own, and then
has a child with the pid of the first task. -/
theorem pid_comes_round : ∃ s₁ s, Procs.boot blankSched 16 blankTask = some s₁ ∧ ReflTransGen Procs.Step s₁ s ∧
    s.Pair 32 1 0 48 0 := by
  obtain ⟨s₁, s₂, h₁, -, hall, h₂, hpair⟩ := first_child
  have hself : s₂.sched.pid2task 0 = some 16 := congrArg some hpair.cur
  obtain ⟨s₃, h₃, hsole⟩ := hpair.exit hself (by decide) (by decide) (by decide)
      (by decide) hpair.task hpair.child fun z => by
    by_cases e : z = 0
    · simp [e]
    · simp [e]
  obtain ⟨s₄, hrun, hsole⟩ := hsole.passes (t := 48) (by decide) (by decide) (by decide)
    (by decide) 32766 (by decide)
  have hfirst : s₄.map.first = 0 := by
    unfold Pidmap.first
    rw [hsole.lastPid]
    decide
  obtain ⟨hall', s, h₄, hpair⟩ := hsole.fork (t := 48) (by decide) (by decide) (by decide) (by rw [hfirst]; decide)
  refine ⟨s₁, s, h₁, .tail (.trans (.tail (.single ⟨_, hall, h₂⟩) ⟨.exit 0, trivial, h₃⟩) hrun) ⟨_, hall', h₄⟩,
    hfirst ▸ hpair⟩

/-! ## Who may end or flag a task -/

/-- **Parent authority** in runs that do not give the pid of a dead parent to a new task while
a child of the dead one is alive. -/
theorem parent_authority {c : Sched} {s₁ s : Procs} {t : Nat} {old : Task} (hb : c.Blank) (ht : t ≠ 0)
    (hboot : Procs.boot c t old = some s₁)
    (hrun : ReflTransGen (fun s s' => ∃ op, s.Allowed op ∧ s.NoReuse op ∧ s.trap op = some s') s₁ s)
    (hc : s.sched.curtask ∈ s.sched.live) : s.sched.Authority := by
  have key : s.Ok ∧ Procs.Parents s.sched := by
    clear hc
    induction hrun with
    | refl => exact Procs.boot_ok hb ht hboot
    | tail _ hstep ih =>
      obtain ⟨op, ha, hn, hs⟩ := hstep
      have hchange := Procs.trap_change ih.1 ha hn.1 hs
      exact ⟨hchange.ok ih.1, hchange.parents ih.1 ih.2 hn⟩
  exact key.2.authority key.1 hc

theorem parent_authority_child : ∃ s₁ s₂, Procs.boot blankSched 16 blankTask = some s₁ ∧
    s₁.trap (.fork 32 true) = some s₂ ∧ s₂.sched.Authority := by
  obtain ⟨s₁, s₂, h₁, hsole, hall, h₂, hpair⟩ := first_child
  refine ⟨s₁, s₂, h₁, h₂, parent_authority blankSched_blank (by decide) h₁
    (.single ⟨_, hall, ⟨?_, fun _ pid _ t ht => ?_⟩, h₂⟩) ?_⟩
  · rw [hsole.live, hsole.cur]
    decide
  · rw [hsole.live, mem_singleton] at ht
    rw [ht, hsole.task.2.1]
    omega
  · rw [hpair.live, hpair.cur]
    decide

/-- A child with the pid of a dead task can end its own creator. -/
theorem authority_lost : ∃ s₁ s, Procs.boot blankSched 16 blankTask = some s₁ ∧ ReflTransGen Procs.Step s₁ s ∧
    s.sched.curtask ∈ s.sched.live ∧ ¬ s.sched.Authority := by
  obtain ⟨s₁, s₂, h₁, hrun, hpair⟩ := pid_comes_round
  obtain ⟨s, h₂, hlive, -, hcur, hmap, hpid, hpar, hyoung⟩ := hpair.turned
  refine ⟨s₁, s, h₁, hrun.tail ⟨.wait (0 : Nat), trivial, h₂⟩, ?_, fun hauth => ?_⟩
  · rw [hcur, hlive]
    decide
  · rcases hauth.exit 1 32 (by decide) (by decide) (by decide)
      (Sched.pid2task_of (by decide) hmap (by decide) hpid hpar) with e | e
    · rw [hcur] at e
      cases e
    · rw [e, hcur] at hyoung
      exact Nat.lt_irrefl _ hyoung

/-! ## Who can run -/

/-- **No wait deadlock** in runs in which no call takes one task for another: neither between the
kernel entries nor where one of them calls the scheduler. -/
theorem no_wait_deadlock {c : Sched} {s₁ s : Procs} {t : Nat} {old : Task} (hb : c.Blank) (ht : t ≠ 0)
    (hh : t ≠ rqHead) (hold : old.pwait = 0) (hboot : Procs.boot c t old = some s₁)
    (hrun : ReflTransGen (fun s s' => ∃ op, s.Allowed op ∧ s.Clear op ∧ s.trap op = some s') s₁ s) :
    s.sched.NoDeadlock ∧ ∀ op o m c', s.Allowed op → s.Clear op → s.resolve op = some (o, m) →
      s.sched.handle o = some c' → c'.NoDeadlock := by
  have key : s.Good := by
    induction hrun with
    | refl => exact Procs.boot_good hb ht hh hold hboot
    | tail _ hstep ih =>
      obtain ⟨op, ha, hc, hs⟩ := hstep
      exact ih.trap ha hc hs
  obtain ⟨q, hq, -⟩ := key.queue
  refine ⟨key.sleepers.noDeadlock hq, fun op o m c' ha hc hr hs => ?_⟩
  obtain ⟨⟨q', hq'⟩, hsl, -⟩ := key.handle ha hc hr hs
  exact hsl.noDeadlock hq'

theorem no_wait_deadlock_child : ∃ s₁ s₂ s₃, Procs.boot blankSched 16 blankTask = some s₁ ∧
    s₁.trap (.fork 32 true) = some s₂ ∧ s₂.trap (.wait 1) = some s₃ ∧ s₃.sched.NoDeadlock := by
  obtain ⟨s₁, s₂, h₁, hsole, hall, h₂, hpair⟩ := first_child
  obtain ⟨s₃, h₃, -⟩ := hpair.wait
  have hmap : s₂.sched.pidmap 1 = 32 := by
    have := (hpair.rep.pid 32 (by rw [hpair.live]; decide)).2.2.1
    rwa [hpair.child.1] at this
  have hclear : s₁.Clear (.fork 32 true) := fun _ pid _ t ht hw => by
    rw [hsole.live, mem_singleton] at ht
    rw [ht] at hw
    exact absurd hsole.task.2.2 hw
  have hclear' : s₂.Clear (.wait 1) := ⟨by decide, fun _ _ _ _ => by rw [hmap, hpair.cur, hpair.creator]⟩
  exact ⟨s₁, s₂, s₃, h₁, h₂, h₃, (no_wait_deadlock blankSched_blank (by decide) (by decide) rfl h₁
    (.tail (.single ⟨_, hall, hclear, h₂⟩) ⟨.wait 1, trivial, hclear', h₃⟩)).1⟩

/-- A task waits for its child, and the child for the task: the run queue is empty. -/
theorem wait_deadlock : ∃ s₁ s c, Procs.boot blankSched 16 blankTask = some s₁ ∧ ReflTransGen Procs.Step s₁ s ∧
    s.sched.handle (.wait 1) = some c ∧ c.live = [48, 32] ∧ c.getNext = none ∧ ¬ c.NoDeadlock := by
  obtain ⟨s₁, s₂, h₁, hrun, hpair⟩ := pid_comes_round
  obtain ⟨s, h₂, hlive, hrep, hcur, hmap, -, hpar, -⟩ := hpair.turned
  have hempty : (s.sched.sleepOn 32).getNext = none := by
    have he : [48].erase s.sched.curtask = [] := by
      rw [hcur]
      decide
    have hin : s.sched.curtask ∈ [48] := mem_singleton.mpr hcur
    have hq : IsQueue (s.sched.sleepOn 32).links [] := he ▸ hrep.ring.del hin
    obtain ⟨f, -, e⟩ := (s.sched.sleepOn 32).getNext_eq
    rw [e, (Rings.empty_iff hq (k := ()) trivial).mpr rfl]
    rfl
  refine ⟨s₁, s, _, h₁, hrun.tail ⟨.wait (0 : Nat), trivial, h₂⟩,
    Sched.handle_wait_of (by decide) (by decide) hmap (by decide) hpar, hlive, hempty, fun hno => ?_⟩
  exact hno.next (fun e => nomatch hlive.symm.trans e) hempty

end MiniOS
