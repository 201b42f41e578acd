import MiniOS.FilesSound
import MiniOS.ProcessSound

/-!
# When `exit` comes to its end

`exit` stops in a panic when the parent it wakes is not in `task_pidmap`, when a slot names a
file that is freed, or when it ends the running task and nothing is left to run. All of it can
be read off the state before.
-/

namespace MiniOS

open Option

namespace Files

variable (s : Files)

/-- The slots among `l` of the running task that hold the file `p`. -/
def slotsOf (l : List (Fin maxFile)) (p : Nat) : Nat := l.countP fun i => s.fd s.curtask i = some p

/-- A count of 0 wraps before it is compared with 0, and is good for 2^32 slots. -/
def Covered (l : List (Fin maxFile)) : Prop :=
  ∀ p, s.slotsOf l p ≠ 0 → ∃ n, s.fCount p = some n ∧ s.slotsOf l p ≤ wsub n 1 + 1

variable {s} {i : Fin maxFile} {l : List (Fin maxFile)} {p q n : Nat}

theorem slotsOf_cons : s.slotsOf (i :: l) p = s.slotsOf l p + if s.fd s.curtask i = some p then 1 else 0 := by
  unfold slotsOf
  rw [List.countP_cons]
  congr 1
  exact if_congr decide_eq_true_iff rfl rfl

theorem covered_skip (h : s.fd s.curtask i = none) : s.Covered (i :: l) ↔ s.Covered l := by
  unfold Covered
  simp only [slotsOf_cons, h, reduceCtorEq, if_false, Nat.add_zero]

/-- What is left to do for the file of the first slot, once its count has gone down by one. -/
theorem covered_drop {m k : Nat} (hm : m < 2 ^ 32) :
    (k ≠ 0 → ∃ n, (if m = 0 then none else some m) = some n ∧ k ≤ wsub n 1 + 1) ↔ k ≤ m := by
  by_cases h₀ : m = 0
  · subst h₀
    simp
  · simp only [if_neg h₀, some.injEq, exists_eq_left', wsub_of_le (Nat.one_le_iff_ne_zero.mpr h₀) hm]
    omega

theorem setFd_fCount {t : Nat} {o : Option Nat} : (s.setFd t i o).fCount = s.fCount := rfl

theorem slotsOf_setFd (hi : i ∉ l) (o : Option Nat) :
    ((s.setCount p o).setFd s.curtask i none).slotsOf l q = s.slotsOf l q := by
  refine List.countP_congr fun j hj => ?_
  have hji : j ≠ i := fun e => hi (e ▸ hj)
  rw [setFd_curtask, setCount_curtask, setFd_fd_of_ne (by simp [hji]), setCount_fd]

theorem covered_cons (hi : i ∉ l) (hf : s.fd s.curtask i = some p) (hc : s.fCount p = some n) :
    ((s.setCount p (if wsub n 1 = 0 then none else some (wsub n 1))).setFd s.curtask i none).Covered l ↔
      s.Covered (i :: l) := by
  unfold Covered
  refine forall_congr' fun q => ?_
  rw [slotsOf_setFd hi, slotsOf_cons, hf]
  by_cases hq : q = p
  · subst hq
    have hlt : wsub n 1 < 2 ^ 32 := wrap_lt _
    rw [setFd_fCount, setCount_fCount_self, covered_drop hlt, hc, if_pos rfl]
    simp
  · rw [setFd_fCount, setCount_fCount_of_ne hq, if_neg fun e => hq (some.inj e).symm, Nat.add_zero]

theorem derefFiles_ne_none : ∀ {l : List (Fin maxFile)} {s : Files}, l.Nodup →
    (l.foldlM derefFile s ≠ none ↔ s.Covered l)
  | [], s, _ => iff_of_true nofun fun p hp => absurd List.countP_nil hp
  | i :: l, s, hl => by
    obtain ⟨hi, hl⟩ := List.nodup_cons.mp hl
    rw [List.foldlM_cons, derefFile]
    cases hf : s.fd s.curtask i with
    | none => exact (derefFiles_ne_none hl).trans (covered_skip hf).symm
    | some p =>
      dsimp only
      cases hc : s.fCount p with
      | none =>
        refine iff_of_false (fun h => h rfl) fun h => ?_
        obtain ⟨n, hn, -⟩ := h p (by rw [slotsOf_cons, if_pos hf]; omega)
        cases hc.symm.trans hn
      | some n => exact (derefFiles_ne_none hl).trans (covered_cons hi hf hc)

end Files

namespace Sched

variable {s : Sched} {t : Nat}

theorem schedule_ne_none : s.schedule ≠ none ↔
    (s.curtask ≠ 0 ∧ (s.task s.curtask).taskStatus = .running ∧ ¬ (s.task s.curtask).needResched) ∨
      s.links.listEmpty rqHead = false := by
  unfold schedule
  split
  · next hrun => exact iff_of_true (some_ne_none _) (.inl hrun)
  · next hrun =>
    obtain ⟨f, -, hnext⟩ := s.getNext_eq
    rw [hnext, or_iff_right hrun]
    cases s.links.listEmpty rqHead with
    | false => exact iff_of_true (some_ne_none _) rfl
    | true => exact iff_of_false (fun h => h rfl) Bool.noConfusion

end Sched

namespace Kernel

variable (s : Kernel)

/-- The run queue `exit` leaves: without the task, and with the parent it wakes. -/
def queueAfter (t : Nat) : Links Nat :=
  if (s.sched.task t).pwait ≠ 0 then
    (s.sched.links.listDel t).listAddTail (s.sched.pidmap (s.sched.task t).ppid) rqHead
  else s.sched.links.listDel t

/-- The running task ends another one and goes on. -/
structure RunsOn (t : Nat) : Prop where
  other : t ≠ s.curtask
  running : (s.sched.task s.curtask).taskStatus = .running ∨
    (s.sched.task t).pwait ≠ 0 ∧ s.sched.pidmap (s.sched.task t).ppid = s.curtask
  noResched : ¬ (s.sched.task s.curtask).needResched

structure ExitOk (t : Nat) : Prop where
  parent : (s.sched.task t).pwait ≠ 0 → s.sched.pidmap (s.sched.task t).ppid ≠ 0
  files : s.table.Covered (List.finRange maxFile)
  next : s.RunsOn t ∨ (s.queueAfter t).listEmpty rqHead = false

def notified (t : Nat) : Sched :=
  if (s.sched.task t).pwait ≠ 0 then (s.sched.scheduleDeleteTask t).wake (s.sched.pidmap (s.sched.task t).ppid)
  else s.sched.scheduleDeleteTask t

def ended (g : Paging) (F : Files) (t : Nat) : Kernel :=
  { { s with sched := s.notified t, paging := g }.kfree (s.mm t) with fd := F.fd, fCount := F.fCount }.exitTask t

variable {s} {t : Nat} {f : Paging → Option Paging} {g : Paging} {F : Files}

theorem exitNotify_notified (h : (s.sched.task t).pwait ≠ 0 → s.sched.pidmap (s.sched.task t).ppid ≠ 0) :
    (s.sched.scheduleDeleteTask t).exitNotify t = some (s.notified t) := by
  unfold Sched.exitNotify notified
  by_cases hw : (s.sched.task t).pwait ≠ 0
  · rw [if_pos hw]
    exact (if_pos hw).trans (if_neg (h hw))
  · rw [if_neg hw]
    exact if_neg hw

theorem exitNotify_none (hw : (s.sched.task t).pwait ≠ 0) (h : s.sched.pidmap (s.sched.task t).ppid = 0) :
    (s.sched.scheduleDeleteTask t).exitNotify t = none :=
  (if_pos hw).trans (if_pos h)

theorem notified_curtask : (s.notified t).curtask = s.curtask := by
  unfold notified
  split
  · rfl
  · rfl

theorem notified_links : (s.notified t).links = s.queueAfter t := by
  unfold notified queueAfter
  split
  · rfl
  · rfl

theorem notified_running : ((s.notified t).task s.curtask).taskStatus = .running ↔
    (s.sched.task s.curtask).taskStatus = .running ∨
      (s.sched.task t).pwait ≠ 0 ∧ s.sched.pidmap (s.sched.task t).ppid = s.curtask := by
  unfold notified
  split
  · next hw =>
    rw [and_iff_right hw]
    by_cases he : s.sched.pidmap (s.sched.task t).ppid = s.curtask
    · refine iff_of_true ?_ (.inr he)
      rw [he]
      show (Function.update s.sched.task s.curtask _ s.curtask).taskStatus = .running
      rw [Function.update_self]
    · rw [or_iff_left he]
      exact Eq.congr_left (congrArg Task.taskStatus (Function.update_of_ne (Ne.symm he) ..))
  · next hw => exact (or_iff_left fun h => hw h.1).symm

theorem notified_needResched :
    ((s.notified t).task s.curtask).needResched = (s.sched.task s.curtask).needResched := by
  unfold notified
  split
  · exact Sched.wake_keeps Task.needResched (fun _ => rfl) ..
  · rfl

/-- `exit` up to the choice of the next task. -/
theorem exitBy_bind (hp : (s.sched.task t).pwait ≠ 0 → s.sched.pidmap (s.sched.task t).ppid ≠ 0)
    (hg : f s.paging = some g) : s.exitBy f t = (s.table.exitFiles t).bind fun F =>
      if t = (s.ended g F t).curtask then
        (Sched.schedule { (s.ended g F t).sched with curtask := 0 }).map fun c => { s.ended g F t with sched := c }
      else some (s.ended g F t) := by
  have htable : ({ s with sched := s.notified t, paging := g }.kfree (s.mm t)).table = s.table := by
    show (⟨s.files (s.notified t).curtask, _, _, _, _⟩ : Files) = _
    rw [notified_curtask]
    rfl
  unfold exitBy
  rw [exitNotify_notified hp, bind_some, hg, map_some, bind_some, exitFiles, htable]
  cases s.table.exitFiles t with
  | none => rfl
  | some F => rfl

theorem ended_sched (ht : t ≠ 0) : (s.ended g F t).sched = (s.notified t).exitTask t := by
  rw [ended, exitTask, if_neg ht]
  rfl

theorem ended_curtask (ht : t ≠ 0) : (s.ended g F t).curtask = s.curtask := by
  rw [curtask, ended_sched ht]
  exact notified_curtask

/-- What `exit` needs before it looks for the next task. -/
theorem exitBy_begins (h : s.exitBy f t ≠ none) :
    ((s.sched.task t).pwait ≠ 0 → s.sched.pidmap (s.sched.task t).ppid ≠ 0) ∧ f s.paging ≠ none ∧
      s.table.Covered (List.finRange maxFile) := by
  have hp : (s.sched.task t).pwait ≠ 0 → s.sched.pidmap (s.sched.task t).ppid ≠ 0 := by
    intro hw hp
    rw [exitBy, exitNotify_none hw hp] at h
    exact h rfl
  have hg : f s.paging ≠ none := by
    intro hg
    rw [exitBy, exitNotify_notified hp, bind_some, hg] at h
    exact h rfl
  refine ⟨hp, hg, (Files.derefFiles_ne_none (List.nodup_finRange _)).mp fun hF => ?_⟩
  obtain ⟨g, hg⟩ := ne_none_iff_exists'.mp hg
  rw [exitBy_bind hp hg, show s.table.exitFiles t = none from hF] at h
  exact h rfl

/-- A task that ends itself has to leave another one to run. -/
theorem schedule_ended (ht : t ≠ 0) :
    Sched.schedule { (s.ended g F t).sched with curtask := 0 } ≠ none ↔
    (s.queueAfter t).listEmpty rqHead = false := by
  rw [Sched.schedule_ne_none, or_iff_right fun hrun => hrun.1 rfl, ended_sched ht, ← notified_links]
  exact Iff.rfl

theorem schedule_other (ht : t ≠ 0) (hc : s.curtask ≠ 0) (hne : t ≠ s.curtask) :
    (s.ended g F t).sched.schedule ≠ none ↔ s.RunsOn t ∨ (s.queueAfter t).listEmpty rqHead = false := by
  rw [Sched.schedule_ne_none, ended_sched ht, ← notified_links]
  refine or_congr ?_ Iff.rfl
  show (s.notified t).curtask ≠ 0 ∧ ((s.notified t).task (s.notified t).curtask).taskStatus = .running ∧
    ¬ ((s.notified t).task (s.notified t).curtask).needResched ↔ _
  rw [notified_curtask, and_iff_right hc, notified_running, notified_needResched]
  exact ⟨fun ⟨hr, hn⟩ => ⟨hne, hr, hn⟩, fun h => ⟨h.running, h.noResched⟩⟩

theorem exitBy_next (ht : t ≠ 0) (hp : (s.sched.task t).pwait ≠ 0 → s.sched.pidmap (s.sched.task t).ppid ≠ 0)
    (hg : f s.paging ≠ none) (hF : s.table.Covered (List.finRange maxFile)) :
    ∃ g F, s.exitBy f t =
      if t = s.curtask then
        (Sched.schedule { (s.ended g F t).sched with curtask := 0 }).map fun c => { s.ended g F t with sched := c }
      else some (s.ended g F t) := by
  obtain ⟨g, hg⟩ := ne_none_iff_exists'.mp hg
  obtain ⟨F, hF⟩ := ne_none_iff_exists'.mp ((Files.derefFiles_ne_none (List.nodup_finRange _)).mpr hF)
  refine ⟨g, F, ?_⟩
  rw [exitBy_bind hp hg, show s.table.exitFiles t = some F from hF, bind_some, ended_curtask ht]

theorem exitBy_self (hc : s.curtask ≠ 0) :
    s.exitBy f s.curtask ≠ none ↔ s.ExitOk s.curtask ∧ f s.paging ≠ none := by
  have hnext (hp : (s.sched.task s.curtask).pwait ≠ 0 → s.sched.pidmap (s.sched.task s.curtask).ppid ≠ 0)
      (hg : f s.paging ≠ none) (hF : s.table.Covered (List.finRange maxFile)) :
      s.exitBy f s.curtask ≠ none ↔ (s.queueAfter s.curtask).listEmpty rqHead = false := by
    obtain ⟨g, F, he⟩ := exitBy_next hc hp hg hF
    rw [he, if_pos rfl, Ne, map_eq_none_iff]
    exact schedule_ended hc
  constructor
  · intro h
    obtain ⟨hp, hg, hF⟩ := exitBy_begins h
    exact ⟨⟨hp, hF, .inr ((hnext hp hg hF).mp h)⟩, hg⟩
  · intro ⟨h, hg⟩
    exact (hnext h.parent hg h.files).mpr (h.next.resolve_left fun hrun => hrun.other rfl)

theorem exitOk_paging : ({ s with paging := g } : Kernel).ExitOk t ↔ s.ExitOk t :=
  ⟨fun h => ⟨h.parent, h.files, h.next.imp_left fun r => ⟨r.other, r.running, r.noResched⟩⟩,
    fun h => ⟨h.parent, h.files, h.next.imp_left fun r => ⟨r.other, r.running, r.noResched⟩⟩⟩

end Kernel

end MiniOS
