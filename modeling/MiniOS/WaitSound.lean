import MiniOS.ProcTableSound
import Mathlib.Data.Finset.Max
import Mathlib.Order.WellFounded

/-! # Tasks that sleep in `wait` -/

namespace MiniOS

namespace Sched

variable {s s' : Sched} {q : List Nat} {t : Nat}

/-! ## Sleepers -/

def Sleepers (s : Sched) : Prop :=
  ∀ a ∈ s.live, (s.task a).taskStatus ≠ .running → (s.task a).taskStatus = .interruptible ∧
    ∃ b ∈ s.live, (s.task b).pwait ≠ 0 ∧ (s.task b).ppid = (s.task a).pid

namespace Sleepers

theorem congr (h : s.Sleepers) (hk : SameTable s s') (hsame : ∀ a ∈ s.live, (s'.task a).Same (s.task a)) :
    s'.Sleepers := by
  intro a ha hr
  rw [hk.live] at ha
  rw [(hsame a ha).2.2.1] at hr ⊢
  obtain ⟨hi, b, hb, hw, hpp⟩ := h a ha hr
  refine ⟨hi, b, hk.live ▸ hb, ?_, ?_⟩
  · rw [(hsame b hb).2.2.2]
    exact hw
  · rw [hk.ppid b hb, hk.pid a ha, hpp]

theorem enrol {a : Task} {creator : Nat} (h : s.Sleepers) (htl : t ∉ s.live) (hr : a.taskStatus = .running) :
    (s.enrol t a creator).Sleepers := by
  intro b hb hne
  rcases List.mem_cons.mp hb with rfl | hb
  · rw [enrol_task_self] at hne
    exact absurd hr hne
  · rw [enrol_task_of_mem htl hb] at hne ⊢
    obtain ⟨hi, d, hd, hw, hpp⟩ := h b hb hne
    refine ⟨hi, d, List.mem_cons_of_mem _ hd, ?_⟩
    rw [enrol_task_of_mem htl hd]
    exact ⟨hw, hpp⟩

theorem sleepOn (hs : s.Sleepers) (ht : t ∈ s.live) (htc : t ≠ s.curtask)
    (hppid : (s.task t).ppid = (s.task s.curtask).pid) : (s.sleepOn t).Sleepers := by
  have hsleep := sleepOn_sleeps htc
  have hk := s.sleepOn_sameTable t
  -- a flag that is set stays set
  have hflag : ∀ {b}, (s.task b).pwait ≠ 0 → ((s.sleepOn t).task b).pwait ≠ 0 := fun {b} hw => by
    by_cases e : b = t
    · rw [e, hsleep.child]
      exact Int.one_ne_zero
    · rw [hsleep.pwait e]
      exact hw
  intro a ha hr
  have ha : a ∈ s.live := ha
  by_cases e : a = s.curtask
  · refine ⟨by rw [e, hsleep.cur], t, ht, ?_, ?_⟩
    · rw [hsleep.child]
      exact Int.one_ne_zero
    · rw [hk.ppid t ht, hk.pid a ha, e, hppid]
  · rw [hsleep.status e] at hr ⊢
    obtain ⟨hi, b, hb, hw, hpp⟩ := hs a ha hr
    exact ⟨hi, b, hb, hflag hw, by rw [hk.ppid b hb, hk.pid a ha, hpp]⟩

theorem leave (h : QueueRep s q) (hs : s.Sleepers) (hl : s.leave t = some s') : s'.Sleepers := by
  have hk := leave_sameTable hl
  have hw' := leave_keeps Task.pwait (fun _ => rfl) hl
  obtain ⟨s₁, hn, rfl⟩ := leave_cases hl
  intro a ha hr
  rw [hk.live] at ha
  have hal := List.mem_of_mem_erase ha
  have hr : (s₁.task a).taskStatus ≠ .running := hr
  have hstay : (s₁.task a).taskStatus = (s.task a).taskStatus ∧
      ((s.task t).pwait ≠ 0 → (s.task t).ppid ≠ (s.task a).pid) := by
    rcases exitNotify_cases hn with ⟨hw, rfl⟩ | ⟨-, -, rfl⟩
    · exact ⟨rfl, fun hw' => absurd hw hw'⟩
    · have hap : a ≠ s.pidmap (s.task t).ppid := fun e => by
        have hself : ((s.scheduleDeleteTask t).wake a).task a = { s.task a with taskStatus := .running } :=
          setTask_self ..
        rw [show (s.scheduleDeleteTask t).pidmap ((s.scheduleDeleteTask t).task t).ppid = a from e.symm,
          hself] at hr
        exact hr rfl
      have hother : ((s.scheduleDeleteTask t).wake (s.pidmap (s.task t).ppid)).task a = s.task a :=
        setTask_of_ne _ _ hap
      refine ⟨congrArg Task.taskStatus hother, fun _ e => hap ?_⟩
      rw [e, (h.pid a hal).2.2.1]
  rw [hstay.1] at hr
  obtain ⟨hi, b, hb, hw, hpp⟩ := hs a hal hr
  have hbt : b ≠ t := fun e => hstay.2 (e ▸ hw) (e ▸ hpp)
  have hb : b ∈ s.live.erase t := h.nodup.mem_erase_iff.mpr ⟨hbt, hb⟩
  refine ⟨hstay.1.trans hi, b, by rw [hk.live]; exact hb, ?_, ?_⟩
  · rw [hw']
    exact hw
  · rw [hk.ppid b hb, hk.pid a ha]
    exact hpp

theorem handle {op : SchedOp} (h : QueueRep s q) (hc : s.curtask ∈ q) (hs : s.Sleepers) (hop : s.Allowed op)
    (hclear : s.Clear op) (he : s.handle op = some s') : s'.Sleepers := by
  cases op with
  | tick =>
    cases he
    obtain ⟨f, hf, e | e⟩ := s.scheduleTick_eq
    · rw [e]
      exact hs.congr (.of_same fun a _ => hf a) fun a _ => hf a
    · rw [e]
      exact hs.congr (.of_same fun a _ => hf a) fun a _ => hf a
  | fork t pid ok =>
    cases he
    cases ok with
    | true => exact hs.enrol (a := ⟨pid, _, .running, 3, false, 0⟩) hop.2.2.1 rfl
    | false =>
      obtain ⟨f, hf, e⟩ := doFork_false hop.2.2.2.1 hop.2.2.1 (pidmap_fresh h hop) hop.2.2.2.2.2
      have hsame : ∀ a ∈ s.live, (f a).Same (s.task a) := fun a ha => hf a ha ▸ .rfl
      rw [e]
      exact hs.congr (.of_same hsame) hsame
  | execve t old pid =>
    cases he
    exact hs.enrol (a := { old with pid := pid, ppid := _, taskStatus := .running, timeslice := 3 }) hop.2.2.1 rfl
  | wait pid =>
    rcases handle_wait he with rfl | ⟨h₀, h₁, hz, hppid, rfl⟩
    · exact hs
    · obtain ⟨ht, hown⟩ := WaitsOwn.child hclear h h₀ h₁ hz hppid
      exact hs.sleepOn ht (ne_of_creator h ht hown) hppid
  | exit pid =>
    obtain ⟨t, -, -, -, he⟩ := handle_exit he
    exact hs.leave h he
  | fault => exact hs.leave h he
  | other =>
    cases he
    exact hs

/-! ## Who waits is older -/

theorem waitsOn (h : QueueRep s q) (hs : s.Sleepers) {a : Nat} (ha : a ∈ s.live)
    (hr : (s.task a).taskStatus ≠ .running) : ∃ b, s.WaitsOn a b := by
  obtain ⟨hi, b, hb, hw, hpp⟩ := hs a ha hr
  exact ⟨b, ha, hb, hi, hw, by rw [hpp, (h.pid a ha).2.2.1]⟩

end Sleepers

theorem WaitsOn.older (h : QueueRep s q) {a b : Nat} (hw : s.WaitsOn a b) : s.uid a < s.uid b := by
  obtain ⟨ha, hb, -, hp, e⟩ := hw
  rw [(h.parent hb hp e (h.proper a ha).1).2.2.1]
  exact (h.born b hb).1

theorem Sleepers.runnable (h : QueueRep s q) (hs : s.Sleepers) (hl : s.live ≠ []) :
    ∃ t ∈ q, t ∈ s.live ∧ (s.task t).taskStatus = .running := by
  obtain ⟨t, ht, hmax⟩ := Finset.exists_max_image s.live.toFinset s.uid ((List.toFinset_nonempty_iff _).mpr hl)
  have ht := List.mem_toFinset.mp ht
  have hr : (s.task t).taskStatus = .running := Classical.byContradiction fun hr => by
    obtain ⟨b, hw⟩ := hs.waitsOn h ht hr
    exact absurd (hmax b (List.mem_toFinset.mpr hw.2.1)) (Nat.not_le.mpr (hw.older h))
  exact ⟨t, (h.queue t).mpr ⟨ht, hr⟩, ht, hr⟩

theorem Sleepers.noDeadlock (h : QueueRep s q) (hs : s.Sleepers) : s.NoDeadlock where
  runnable hl := ⟨q, h.ring.ring, hs.runnable h hl⟩
  next hl := by
    obtain ⟨t, ht, -⟩ := hs.runnable h hl
    obtain ⟨f, -, e⟩ := s.getNext_eq
    cases q with
    | nil => cases ht
    | cons a q =>
      rw [e, h.ring.not_empty]
      exact fun e => by cases e
  blocked _ ha hr := hs.waitsOn h ha hr
  acyclic a := by
    have hwf : WellFounded s.WaitsOn := Subrelation.wf (fun hw => hw.older h) (measure s.uid).wf
    exact hwf.transGen.irrefl.irrefl a

end Sched

namespace Procs

variable {s s' : Procs} {op : ProcOp}

/-- No call takes one task for another that had its pid: memory for a new program has a null
`pwait`, and the pid of a new task is not the one a flagged task knows its parent by. -/
def Clear (s : Procs) : ProcOp → Prop
  | .fork _ ok => ok = true → ∀ pid : Nat, s.map.Next pid → s.sched.Unclaimed pid
  | .execve _ old => old.pwait = 0 ∧ ∀ pid : Nat, s.map.Next pid → s.sched.Unclaimed pid
  | .wait pid => s.sched.WaitsOwn pid
  | _ => True

theorem fresh_of_next {t i : Nat} (h : s.Ok) (ht : t ≠ 0 ∧ t ≠ rqHead ∧ t ∉ s.sched.live) (hi : s.map.Next i) :
    s.sched.Fresh t i := by
  obtain ⟨-, hi, hu, -⟩ := hi
  refine ⟨ht.1, ht.2.1, ht.2.2, Int.natCast_nonneg i, ?_, (h.bits i hi).symm.trans hu⟩
  unfold bitsPerPage at hi
  unfold pidMaxDefault
  omega

theorem resolve_clear {o : SchedOp} {m : Pidmap} (h : s.Ok) (ha : s.Allowed op) (hc : s.Clear op)
    (hr : s.resolve op = some (o, m)) : s.sched.Allowed o ∧ s.sched.Clear o := by
  cases op with
  | fork t ok =>
    rcases resolve_fork hr with ⟨rfl, -⟩ | ⟨i, hi, rfl, -⟩
    · exact ⟨trivial, trivial⟩
    · exact ⟨fresh_of_next h ha hi, fun hok => hc hok i hi⟩
  | execve t old =>
    obtain ⟨i, hi, rfl, -⟩ := resolve_execve hr
    exact ⟨fresh_of_next h ha hi, hc.1, hc.2 i hi⟩
  | wait pid =>
    cases hr
    exact ⟨trivial, hc⟩
  | tick =>
    cases hr
    exact ⟨trivial, trivial⟩
  | exit pid =>
    cases hr
    exact ⟨trivial, trivial⟩
  | fault =>
    cases hr
    exact ⟨trivial, trivial⟩
  | other =>
    cases hr
    exact ⟨trivial, trivial⟩

structure Good (s : Procs) : Prop where
  ok : s.Ok
  queue : ∃ q, QueueRep s.sched q ∧ s.sched.curtask ∈ q
  sleepers : s.sched.Sleepers

theorem Good.handle {o : SchedOp} {m : Pidmap} {c : Sched} (h : s.Good) (ha : s.Allowed op) (hc : s.Clear op)
    (hr : s.resolve op = some (o, m)) (hs : s.sched.handle o = some c) :
    (∃ q, QueueRep c q) ∧ c.Sleepers ∧ (c.curtask = 0 ∨ c.curtask ∈ c.live) := by
  obtain ⟨q, hq, hcur⟩ := h.queue
  obtain ⟨ho, hclear⟩ := resolve_clear h.ok ha hc hr
  obtain ⟨hrep, hcur'⟩ := Sched.handle_rep hq hcur ho hclear hs
  exact ⟨hrep, h.sleepers.handle hq hcur ho hclear hs, hcur'⟩

theorem Good.trap (h : s.Good) (ha : s.Allowed op) (hc : s.Clear op) (ht : s.trap op = some s') : s'.Good := by
  obtain ⟨q, hq, hcur⟩ := h.queue
  have hok := (trap_change h.ok ha (hq.cur_mem hcur).2.1 ht).ok h.ok
  obtain ⟨⟨o, m⟩, hr, ht⟩ := Option.bind_eq_some_iff.mp ht
  obtain ⟨c, hs, rfl⟩ := Option.map_eq_some_iff.mp ht
  rw [Sched.trap_eq] at hs
  obtain ⟨c₁, hs, hsched⟩ := Option.bind_eq_some_iff.mp hs
  obtain ⟨⟨q₁, hq₁⟩, hsl, hcur₁⟩ := h.handle ha hc hr hs
  obtain ⟨hk, hsame⟩ := Sched.schedule_same hsched
  exact ⟨hok, ⟨q₁, Sched.schedule_rep hq₁ hcur₁ hsched⟩, hsl.congr hk fun a _ => hsame a⟩

theorem boot_good {c : Sched} {t : Nat} {old : Task} (hb : c.Blank) (ht : t ≠ 0) (hh : t ≠ rqHead)
    (hold : old.pwait = 0) (h : boot c t old = some s) : s.Good := by
  have hok := (boot_ok hb ht h).1
  obtain ⟨c', hs, rfl⟩ := Option.map_eq_some_iff.mp h
  obtain ⟨hl, hsame⟩ := Sched.boot_task hb hs
  obtain ⟨hrep, hcur⟩ := Sched.boot_rep hb ht hh hold hs
  refine ⟨hok, ⟨[t], hrep, List.mem_singleton.mpr hcur⟩, fun a ha hr => ?_⟩
  have ha : a ∈ c'.live := ha
  rw [hl, List.mem_singleton] at ha
  exact absurd (ha ▸ hsame.2.2.1) hr

end Procs

end MiniOS
