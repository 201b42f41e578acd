import MiniOS.Sched

/-! # What the kernel entries do to the process table -/

namespace MiniOS

open Option

/-! ## The table -/

def Task.Same (a b : Task) : Prop :=
  a.pid = b.pid ∧ a.ppid = b.ppid ∧ a.taskStatus = b.taskStatus ∧ a.pwait = b.pwait

theorem Task.Same.rfl {a : Task} : a.Same a := ⟨Eq.refl _, Eq.refl _, Eq.refl _, Eq.refl _⟩

structure Sched.Kept (s s' : Sched) : Prop where
  live : s'.live = s.live
  pidmap : s'.pidmap = s.pidmap
  used : s'.used = s.used
  uid : s'.uid = s.uid
  creator : s'.creator = s.creator
  born : s'.born = s.born
  pid : ∀ a ∈ s.live, (s'.task a).pid = (s.task a).pid

structure SameTable (s s' : Sched) : Prop extends s.Kept s' where
  ppid : ∀ a ∈ s.live, (s'.task a).ppid = (s.task a).ppid

namespace SameTable

variable {s s' s'' : Sched} {L : Links Nat} {t k : Nat}

theorem refl (s : Sched) : SameTable s s := ⟨⟨rfl, rfl, rfl, rfl, rfl, rfl, fun _ _ => rfl⟩, fun _ _ => rfl⟩

theorem trans (h : SameTable s s') (h' : SameTable s' s'') : SameTable s s'' where
  live := h'.live.trans h.live
  pidmap := h'.pidmap.trans h.pidmap
  used := h'.used.trans h.used
  uid := h'.uid.trans h.uid
  creator := h'.creator.trans h.creator
  born := h'.born.trans h.born
  pid a ha := (h'.pid a (h.live ▸ ha)).trans (h.pid a ha)
  ppid a ha := (h'.ppid a (h.live ▸ ha)).trans (h.ppid a ha)

theorem of_same {f : Nat → Task} (hf : ∀ a ∈ s.live, (f a).Same (s.task a)) :
    SameTable s { s with task := f, links := L, curtask := k } :=
  ⟨⟨rfl, rfl, rfl, rfl, rfl, rfl, fun a ha => (hf a ha).1⟩, fun a ha => (hf a ha).2.1⟩

theorem reorder (h : SameTable s s') (L : Links Nat) (k : Nat) : SameTable s { s' with links := L, curtask := k } :=
  h.trans (of_same fun _ _ => .rfl)

end SameTable

namespace Sched

variable {s s' : Sched} {t p : Nat}

theorem setTask_self (s : Sched) (t : Nat) (a : Task) : (s.setTask t a).task t = a := Function.update_self ..

theorem setTask_of_ne (s : Sched) (a : Task) {t b : Nat} (h : b ≠ t) : (s.setTask t a).task b = s.task b :=
  Function.update_of_ne h ..

theorem setTask_keeps {β : Type} (g : Task → β) {a : Task} (ha : g a = g (s.task t)) (b : Nat) :
    g ((s.setTask t a).task b) = g (s.task b) := by
  by_cases e : b = t
  · rw [e, setTask_self, ha]
  · rw [setTask_of_ne _ _ e]

theorem setTask_same {a : Task} (ha : a.Same (s.task t)) (b : Nat) : ((s.setTask t a).task b).Same (s.task b) :=
  ⟨setTask_keeps Task.pid ha.1 b, setTask_keeps Task.ppid ha.2.1 b, setTask_keeps Task.taskStatus ha.2.2.1 b,
    setTask_keeps Task.pwait ha.2.2.2 b⟩

end Sched

namespace SameTable

variable {s s' : Sched} {t : Nat}

theorem edit (h : SameTable s s') (t : Nat) (f : Task → Task) (hf : ∀ a, (f a).pid = a.pid ∧ (f a).ppid = a.ppid) :
    SameTable s (s'.setTask t (f (s'.task t))) where
  toKept := ⟨h.live, h.pidmap, h.used, h.uid, h.creator, h.born,
    fun a ha => (Sched.setTask_keeps Task.pid (hf _).1 a).trans (h.pid a ha)⟩
  ppid a ha := (Sched.setTask_keeps Task.ppid (hf _).2 a).trans (h.ppid a ha)

theorem exitTask (h : SameTable s s') (ht : (s'.task t).pid = (s.task t).pid) :
    SameTable (s.exitTask t) (s'.exitTask t) where
  live := congrArg (List.erase · t) h.live
  pidmap := by simp only [Sched.exitTask, ht, h.pidmap]
  used := by simp only [Sched.exitTask, ht, h.used]
  uid := h.uid
  creator := h.creator
  born := h.born
  pid a ha := h.pid a (List.mem_of_mem_erase ha)
  ppid a ha := h.ppid a (List.mem_of_mem_erase ha)

end SameTable

/-! ## What the functions do -/

namespace Sched

variable {s s' : Sched} {t : Nat} {pid : Int} {β : Type}

theorem getNext_eq (s : Sched) : ∃ f : Nat → Task, (∀ a, (f a).Same (s.task a)) ∧
    s.getNext = if s.links.listEmpty rqHead then none else some (s.links.next rqHead, { s with task := f }) := by
  unfold getNext
  by_cases hc : s.curtask ≠ 0 ∧ (s.task s.curtask).needResched
  · rw [if_pos hc]
    exact ⟨_, setTask_same (a := { s.task s.curtask with needResched := false }) ⟨rfl, rfl, rfl, rfl⟩, rfl⟩
  · rw [if_neg hc]
    exact ⟨s.task, fun _ => .rfl, rfl⟩

theorem schedule_cases (h : s.schedule = some s') :
    (s' = s ∧ s.curtask ≠ 0 ∧ (s.task s.curtask).taskStatus = .running) ∨
    s.links.listEmpty rqHead = false ∧ ∃ f : Nat → Task, (∀ a, (f a).Same (s.task a)) ∧
      s' = { s with task := f, curtask := s.links.next rqHead } := by
  unfold schedule at h
  split at h
  · next hrun =>
    cases h
    exact .inl ⟨rfl, hrun.1, hrun.2.1⟩
  · obtain ⟨f, hf, e⟩ := s.getNext_eq
    rw [e] at h
    split at h
    · cases h
    · next he =>
      cases h
      exact .inr ⟨Bool.eq_false_iff.mpr he, f, hf, rfl⟩

theorem schedule_same (h : s.schedule = some s') : SameTable s s' ∧ ∀ a, (s'.task a).Same (s.task a) := by
  rcases schedule_cases h with ⟨rfl, -⟩ | ⟨-, f, hf, rfl⟩
  · exact ⟨.refl s', fun _ => .rfl⟩
  · exact ⟨.of_same fun a _ => hf a, hf⟩

theorem scheduleTick_eq (s : Sched) : ∃ f : Nat → Task, (∀ a, (f a).Same (s.task a)) ∧
    (s.scheduleTick = { s with task := f } ∨
      s.scheduleTick =
        { s with task := f, links := (s.links.listDel s.curtask).listAddTail s.curtask rqHead }) := by
  have h (b : Bool) (n : Int) : ∀ a, ((s.setTask s.curtask
      { s.task s.curtask with needResched := b, timeslice := n }).task a).Same (s.task a) :=
    setTask_same ⟨rfl, rfl, rfl, rfl⟩
  unfold scheduleTick
  dsimp only
  split
  · exact ⟨_, h true 3, .inr rfl⟩
  · exact ⟨_, h _ _, .inl rfl⟩

theorem scheduleTick_sameTable (s : Sched) : SameTable s s.scheduleTick := by
  obtain ⟨f, hf, e | e⟩ := s.scheduleTick_eq
  · exact e ▸ .of_same fun a _ => hf a
  · exact e ▸ .of_same fun a _ => hf a

def wake (s : Sched) (p : Nat) : Sched := (s.setTask p { s.task p with taskStatus := .running }).scheduleAddTask p

theorem wake_keeps (g : Task → β) (hg : ∀ a, g { a with taskStatus := .running } = g a) (s : Sched) (p b : Nat) :
    g ((s.wake p).task b) = g (s.task b) := setTask_keeps g (hg _) b

theorem wake_sameTable (s : Sched) (p : Nat) : SameTable s (s.wake p) :=
  ((SameTable.refl s).edit p (fun a => { a with taskStatus := .running }) fun _ => ⟨rfl, rfl⟩).reorder ..

theorem exitNotify_cases (h : s.exitNotify t = some s') : ((s.task t).pwait = 0 ∧ s' = s) ∨
    (s.task t).pwait ≠ 0 ∧ s.pidmap (s.task t).ppid ≠ 0 ∧ s' = s.wake (s.pidmap (s.task t).ppid) := by
  unfold exitNotify at h
  dsimp only at h
  split at h
  · next hw =>
    split at h
    · cases h
    · next hp =>
      cases h
      exact .inr ⟨hw, hp, rfl⟩
  · next hw =>
    cases h
    exact .inl ⟨Classical.not_not.mp hw, rfl⟩

theorem exitNotify_curtask (h : s.exitNotify t = some s') : s'.curtask = s.curtask := by
  rcases exitNotify_cases h with ⟨-, rfl⟩ | ⟨-, -, rfl⟩
  · rfl
  · rfl

theorem exitNotify_keeps (g : Task → β) (hg : ∀ a, g { a with taskStatus := .running } = g a)
    (h : s.exitNotify t = some s') (b : Nat) : g (s'.task b) = g (s.task b) := by
  rcases exitNotify_cases h with ⟨-, rfl⟩ | ⟨-, -, rfl⟩
  · rfl
  · exact wake_keeps g hg s _ b

theorem exitNotify_sameTable (h : s.exitNotify t = some s') : SameTable s s' := by
  rcases exitNotify_cases h with ⟨-, rfl⟩ | ⟨-, -, rfl⟩
  · exact .refl _
  · exact wake_sameTable ..

theorem leave_cases (h : s.leave t = some s') : ∃ s₁, (s.scheduleDeleteTask t).exitNotify t = some s₁ ∧
    s' = { s₁.exitTask t with curtask := if t = s.curtask then 0 else s.curtask } := by
  simp only [leave, bind_eq_bind, bind_eq_some_iff] at h
  obtain ⟨s₁, hn, h⟩ := h
  have hc' : (s₁.exitTask t).curtask = s.curtask := (exitNotify_curtask hn :)
  refine ⟨s₁, hn, ?_⟩
  rw [hc'] at h
  split at h
  · next e =>
    cases h
    rw [if_pos e]
  · next e =>
    cases h
    rw [if_neg e, ← hc']

theorem leave_unflagged (hw : (s.task t).pwait = 0) :
    s.leave t = some { (s.scheduleDeleteTask t).exitTask t with
      curtask := if t = s.curtask then 0 else s.curtask } := by
  have hn : (s.scheduleDeleteTask t).exitNotify t = some (s.scheduleDeleteTask t) := if_neg fun h => h hw
  simp only [leave, hn, bind_eq_bind, bind_some]
  by_cases e : t = s.curtask
  · rw [if_pos e]
    exact congrArg some (if_pos e)
  · rw [if_neg e]
    exact congrArg some (if_neg e)

theorem leave_keeps (g : Task → β) (hg : ∀ a, g { a with taskStatus := .running } = g a) (h : s.leave t = some s')
    (b : Nat) : g (s'.task b) = g (s.task b) := by
  obtain ⟨s₁, hn, rfl⟩ := leave_cases h
  exact exitNotify_keeps g hg hn b

theorem leave_sameTable (h : s.leave t = some s') : SameTable (s.exitTask t) s' := by
  have hpid := leave_keeps Task.pid (fun _ => rfl) h t
  obtain ⟨s₁, hn, rfl⟩ := leave_cases h
  have hd : SameTable s (s.scheduleDeleteTask t) := (SameTable.refl s).reorder ..
  exact ((hd.trans (exitNotify_sameTable hn)).exitTask hpid).reorder ..

theorem exit_eq (s : Sched) (t : Nat) :
    s.exit t = (s.leave t).bind fun s₁ => if t = s.curtask then s₁.schedule else some s₁ := by
  unfold exit leave
  simp only [bind_eq_bind, bind_assoc]
  cases hn : (s.scheduleDeleteTask t).exitNotify t with
  | none => rfl
  | some s₁ =>
    have hc : (s₁.exitTask t).curtask = s.curtask := (exitNotify_curtask hn :)
    simp only [bind_some, hc]
    split
    · rfl
    · rfl

theorem sysExit_eq (s : Sched) (pid : Int) : s.sysExit pid = if pid < 0 ∨ pidMaxDefault ≤ pid then none else
    (s.pid2task pid).bind fun t => if t = s.curtask then s.exit t else (s.exit t).bind schedule := by
  unfold sysExit pid2task
  by_cases hr : pid < 0 ∨ pidMaxDefault ≤ pid
  · rw [if_pos hr, if_pos hr]
  rw [if_neg hr, if_neg hr]
  by_cases hz : pid = 0
  · simp only [hz, if_true, ne_eq, not_true, false_and, if_false, bind_some]
  rw [if_neg hz, if_neg hz]
  generalize s.pidmap pid = t
  by_cases h₁ : t = 0 ∨ (s.task t).pid ≠ pid
  · rw [if_pos h₁, if_pos ⟨hz, h₁.imp id .inl⟩]
    rfl
  · rw [if_neg h₁]
    by_cases h₂ : t ≠ s.curtask ∧ (s.task t).ppid ≠ (s.task s.curtask).pid
    · rw [if_pos h₂, if_pos ⟨hz, .inr (.inr h₂)⟩]
      rfl
    · rw [if_neg h₂, if_neg fun h => h.2.elim (fun e => h₁ (.inl e)) fun h => h.elim (fun e => h₁ (.inr e)) h₂]
      rfl

theorem wait_eq (s : Sched) (pid : Int) : s.wait pid = (s.handle (.wait pid)).bind schedule := by
  unfold wait handle
  dsimp only
  by_cases h₁ : pidMaxDefault < pid ∨ pid < 0
  · rw [if_pos h₁, if_pos (h₁.imp id .inl)]
    rfl
  · rw [if_neg h₁]
    by_cases h₂ : s.pidmap pid = 0 ∨ (s.task (s.pidmap pid)).ppid ≠ (s.task s.curtask).pid
    · rw [if_pos h₂, if_pos (.inr (.inr h₂))]
      rfl
    · rw [if_neg h₂, if_neg fun h => h.elim (fun e => h₁ (.inl e)) fun h => h.elim (fun e => h₁ (.inr e)) h₂]
      rfl

theorem trap_eq (s : Sched) (op : SchedOp) : s.trap op = (s.handle op).bind schedule := by
  cases op with
  | wait pid => exact s.wait_eq pid
  | fault =>
    show s.exit s.curtask = (s.leave s.curtask).bind schedule
    rw [exit_eq]
    simp only [if_true]
  | exit pid =>
    show s.sysExit pid = (if pid < 0 ∨ pidMaxDefault ≤ pid then none else (s.pid2task pid).bind s.leave).bind
      schedule
    rw [sysExit_eq]
    split
    · rfl
    · rw [bind_assoc]
      congr 1
      funext t
      rw [exit_eq]
      split
      · rfl
      · rw [bind_assoc]
        rfl
  | tick => rfl
  | fork => rfl
  | execve => rfl
  | other => rfl

theorem sleepOn_sameTable (s : Sched) (t : Nat) : SameTable s (s.sleepOn t) :=
  (((SameTable.refl s).edit t (fun a => { a with pwait := 1 }) fun _ => ⟨rfl, rfl⟩).edit s.curtask
    (fun a => { a with taskStatus := .interruptible }) fun _ => ⟨rfl, rfl⟩).reorder ..

theorem handle_wait (h : s.handle (.wait pid) = some s') : s' = s ∨ 0 ≤ pid ∧ pid ≤ pidMaxDefault ∧
    s.pidmap pid ≠ 0 ∧ (s.task (s.pidmap pid)).ppid = (s.task s.curtask).pid ∧ s' = s.sleepOn (s.pidmap pid) := by
  unfold handle at h
  dsimp only at h
  split at h
  · cases h
    exact .inl rfl
  · next hr =>
    cases h
    simp only [not_or, Classical.not_not, Int.not_lt] at hr
    obtain ⟨h₁, h₀, hz, hppid⟩ := hr
    exact .inr ⟨h₀, h₁, hz, hppid, rfl⟩

theorem handle_wait_of (h₀ : 0 ≤ pid) (h₁ : pid < pidMaxDefault) (hm : s.pidmap pid = t) (ht : t ≠ 0)
    (hpar : (s.task t).ppid = (s.task s.curtask).pid) : s.handle (.wait pid) = some (s.sleepOn t) := by
  unfold handle
  dsimp only
  rw [hm, if_neg]
  exact fun h => h.elim (fun h => by omega) fun h => h.elim (fun h => by omega) fun h => h.elim ht fun h => h hpar

theorem pid2task_cases (h : s.pid2task pid = some t) : (pid = 0 ∧ t = s.curtask) ∨
    pid ≠ 0 ∧ t = s.pidmap pid ∧ t ≠ 0 ∧ (t = s.curtask ∨ (s.task t).ppid = (s.task s.curtask).pid) := by
  unfold pid2task at h
  split at h
  · next hz =>
    cases h
    exact .inl ⟨hz, rfl⟩
  · next hz =>
    dsimp only at h
    split at h
    · cases h
    · next h₁ =>
      split at h
      · cases h
      · next h₂ =>
        cases h
        refine .inr ⟨hz, rfl, fun e => h₁ (.inl e), ?_⟩
        exact Classical.or_iff_not_imp_left.mpr fun hne => Classical.not_not.mp fun hp => h₂ ⟨hne, hp⟩

theorem pid2task_of (hz : pid ≠ 0) (hm : s.pidmap pid = t) (ht : t ≠ 0) (hp : (s.task t).pid = pid)
    (hpar : (s.task t).ppid = (s.task s.curtask).pid) : s.pid2task pid = some t := by
  unfold pid2task
  rw [if_neg hz, hm, if_neg fun h => h.elim ht fun h => h hp, if_neg fun h => h.2 hpar]

theorem handle_exit (h : s.handle (.exit pid) = some s') :
    ∃ t, s.pid2task pid = some t ∧ 0 ≤ pid ∧ pid < pidMaxDefault ∧ s.leave t = some s' := by
  unfold handle at h
  dsimp only at h
  split at h
  · cases h
  · next hr =>
    obtain ⟨t, hp, hs⟩ := bind_eq_some_iff.mp h
    exact ⟨t, hp, by omega, by omega, hs⟩

end Sched

end MiniOS
