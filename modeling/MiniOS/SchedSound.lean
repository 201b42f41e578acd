import MiniOS.SchedTable
import Mathlib.Logic.Relation

/-! # The run queue holds the tasks that can run -/

namespace MiniOS

open Function List Relation

/-! ## The queue as a ring -/

def IsQueue (L : Links Nat) (q : List Nat) : Prop := Rings L (fun _ : Unit => True) (fun _ => rqHead) fun _ => q

def Alone (L : Links Nat) (a : Nat) : Prop := L.next a = a ∧ L.prev a = a

namespace IsQueue

variable {L : Links Nat} {q : List Nat} {a t : Nat}

theorem of_rings {f : Unit → List Nat} (h : Rings L (fun _ : Unit => True) (fun _ => rqHead) f) (hf : f () = q) :
    IsQueue L q := by
  obtain rfl : f = fun _ => q := funext fun _ => hf
  exact h

theorem ring (h : IsQueue L q) : Ring L.next L.prev rqHead q := Rings.ring h () trivial

theorem nodup (h : IsQueue L q) : q.Nodup := (nodup_cons.mp (Rings.nodup h () trivial)).2

theorem add (h : IsQueue L q) (ht : t ∉ q) (hh : t ≠ rqHead) : IsQueue (L.listAddTail t rqHead) (q ++ [t]) := by
  refine of_rings (Rings.listAddTail h trivial fun _ _ hm => ?_) (update_self ..)
  rcases mem_cons.mp hm with e | e
  · exact hh e
  · exact ht e

theorem del (h : IsQueue L q) (ht : t ∈ q) : IsQueue (L.listDel t) (q.erase t) := by
  obtain ⟨xs, ys, hx, rfl, he⟩ := exists_erase_eq ht
  rw [he]
  exact of_rings (Rings.listDel h trivial rfl) (update_self ..)

theorem add_alone (h : IsQueue L q) (ha : Alone L a) (hq : a ∉ rqHead :: q) (ht : a ≠ t) :
    Alone (L.listAddTail t rqHead) a := by
  have hlast : a ≠ L.prev rqHead := fun e => hq (e ▸ mem_of_getLast? h.ring.last)
  refine ⟨(L.rawListAdd_next_of_ne ht hlast).trans ha.1, (L.rawListAdd_prev_of_ne ht fun e => hq ?_).trans ha.2⟩
  rw [e]
  exact mem_cons_self ..

theorem del_alone (h : IsQueue L q) (ht : t ∈ q) (ha : Alone L a) (hq : a ∉ rqHead :: q) :
    Alone (L.listDel t) a := by
  have hat : a ≠ t := fun e => hq (e ▸ mem_cons_of_mem _ ht)
  obtain ⟨xs, ys, rfl⟩ := append_of_mem ht
  obtain ⟨hp, hn⟩ := h.ring.neighbours
  obtain ⟨hprev, hnext⟩ := mem_of_seam hp hn
  have hsub : ∀ {b}, b ∈ rqHead :: (xs ++ ys) → a ≠ b := fun hb e =>
    hq (e ▸ (List.Sublist.cons_cons _ (List.Sublist.append_left (sublist_cons_self ..) _)).subset hb)
  exact ⟨(L.listDel_next_of_ne hat (hsub hprev)).trans ha.1, (L.listDel_prev_of_ne hat (hsub hnext)).trans ha.2⟩

theorem not_empty (h : IsQueue L (t :: q)) : L.listEmpty rqHead = false :=
  Bool.eq_false_iff.mpr fun he => nomatch (Rings.empty_iff h (k := ()) trivial).mp he

theorem first (h : IsQueue L q) (he : L.listEmpty rqHead = false) : L.next rqHead ∈ q := by
  cases q with
  | nil =>
    have := (Rings.empty_iff h (k := ()) trivial).mpr rfl
    rw [he] at this
    cases this
  | cons a q =>
    rw [h.ring.next_head]
    exact mem_cons_self ..

theorem init (L : Links Nat) : IsQueue (L.initListHead rqHead) [] where
  ring _ _ := ring_nil.mpr (L.initListHead_self (.inr rfl))
  nodup _ _ := nodup_singleton _
  disj _ _ _ _ h := absurd rfl h

end IsQueue

/-! ## The invariant -/

/-- The queue and the tasks in it. The parent a flagged task would wake is asleep, if there is one. -/
structure QueueRep (s : Sched) (q : List Nat) : Prop where
  ring : IsQueue s.links q
  queue : ∀ a, a ∈ q ↔ a ∈ s.live ∧ (s.task a).taskStatus = .running
  off : ∀ a ∈ s.live, (s.task a).taskStatus ≠ .running → Alone s.links a
  nodup : s.live.Nodup
  proper : ∀ a ∈ s.live, a ≠ 0 ∧ a ≠ rqHead
  pid : ∀ a ∈ s.live, 0 ≤ (s.task a).pid ∧ (s.task a).pid < pidMaxDefault ∧ s.pidmap (s.task a).pid = a ∧
    s.used (s.task a).pid = true
  table : ∀ i, 0 ≤ i → i < pidMaxDefault → s.pidmap i ≠ 0 → s.pidmap i ∈ s.live ∧ (s.task (s.pidmap i)).pid = i
  flagged : ∀ a ∈ s.live, (s.task a).pwait ≠ 0 → 0 ≤ (s.task a).ppid ∧ (s.task a).ppid < pidMaxDefault
  waited : ∀ a ∈ s.live, (s.task a).pwait ≠ 0 → s.pidmap (s.task a).ppid ≠ 0 →
    s.uid (s.pidmap (s.task a).ppid) = s.creator a ∧ (s.task (s.pidmap (s.task a).ppid)).taskStatus = .interruptible
  single : ∀ a ∈ s.live, ∀ b ∈ s.live, (s.task a).pwait ≠ 0 → (s.task b).pwait ≠ 0 →
    (s.task a).ppid = (s.task b).ppid → a = b
  born : ∀ a ∈ s.live, s.creator a < s.uid a ∧ s.uid a < s.born

def Sched.Attended (s : Sched) : Prop := ∀ a ∈ s.live, (s.task a).pwait ≠ 0 → s.pidmap (s.task a).ppid ≠ 0

namespace QueueRep

variable {s s' : Sched} {q q' : List Nat} {t p : Nat}

theorem of_sameTable (h : QueueRep s q) (hk : SameTable s s') (hring : IsQueue s'.links q')
    (hqueue : ∀ a, a ∈ q' ↔ a ∈ s.live ∧ (s'.task a).taskStatus = .running)
    (hoff : ∀ a ∈ s.live, (s'.task a).taskStatus ≠ .running → Alone s'.links a)
    (hflag : ∀ a ∈ s.live, (s'.task a).pwait ≠ 0 → 0 ≤ (s.task a).ppid ∧ (s.task a).ppid < pidMaxDefault)
    (hwaited : ∀ a ∈ s.live, (s'.task a).pwait ≠ 0 → s.pidmap (s.task a).ppid ≠ 0 →
      s.uid (s.pidmap (s.task a).ppid) = s.creator a ∧
      (s'.task (s.pidmap (s.task a).ppid)).taskStatus = .interruptible)
    (hsingle : ∀ a ∈ s.live, ∀ b ∈ s.live, (s'.task a).pwait ≠ 0 → (s'.task b).pwait ≠ 0 →
      (s.task a).ppid = (s.task b).ppid → a = b) : QueueRep s' q' where
  ring := hring
  queue := hk.live ▸ hqueue
  off := hk.live ▸ hoff
  nodup := hk.live ▸ h.nodup
  proper := hk.live ▸ h.proper
  pid a ha := by
    rw [hk.live] at ha
    rw [hk.pid a ha, hk.pidmap, hk.used]
    exact h.pid a ha
  table i h₀ h₁ hi := by
    rw [hk.pidmap] at hi ⊢
    have hl := h.table i h₀ h₁ hi
    rw [hk.live, hk.pid _ hl.1]
    exact hl
  flagged a ha hw := by
    rw [hk.live] at ha
    rw [hk.ppid a ha]
    exact hflag a ha hw
  waited a ha hw hp := by
    rw [hk.live] at ha
    rw [hk.ppid a ha, hk.pidmap] at hp ⊢
    rw [hk.uid, hk.creator]
    exact hwaited a ha hw hp
  single a ha b hb hwa hwb e := by
    rw [hk.live] at ha hb
    rw [hk.ppid a ha, hk.ppid b hb] at e
    exact hsingle a ha b hb hwa hwb e
  born a ha := by
    rw [hk.creator, hk.uid, hk.born]
    exact h.born a (hk.live ▸ ha)

theorem congr {L : Links Nat} {f : Nat → Task} (h : QueueRep s q) (hf : ∀ a ∈ s.live, (f a).Same (s.task a))
    (hq : IsQueue L q') (hm : ∀ a, a ∈ q' ↔ a ∈ q) (hoff : ∀ a ∉ rqHead :: q, Alone s.links a → Alone L a)
    (k : Nat) : QueueRep { s with task := f, links := L, curtask := k } q' := by
  refine h.of_sameTable (.of_same hf) hq (fun a => ?_) (fun a ha hr => ?_) (fun a ha hw => ?_)
    (fun a ha hw hp => ?_) (fun a ha b hb hwa hwb e => ?_)
  · rw [hm, h.queue]
    exact and_congr_right fun ha => by rw [(hf a ha).2.2.1]
  · have hr : (f a).taskStatus ≠ .running := hr
    rw [(hf a ha).2.2.1] at hr
    refine hoff a (fun hin => ?_) (h.off a ha hr)
    rcases mem_cons.mp hin with e | hin
    · exact (h.proper a ha).2 e
    · exact hr ((h.queue a).mp hin).2
  · exact h.flagged a ha ((hf a ha).2.2.2 ▸ hw)
  · have hl := (h.flagged a ha ((hf a ha).2.2.2 ▸ hw))
    obtain ⟨h₁, h₂⟩ := h.waited a ha ((hf a ha).2.2.2 ▸ hw) hp
    exact ⟨h₁, ((hf _ (h.table _ hl.1 hl.2 hp).1).2.2.1).trans h₂⟩
  · exact h.single a ha b hb ((hf a ha).2.2.2 ▸ hwa) ((hf b hb).2.2.2 ▸ hwb) e

theorem retask {f : Nat → Task} (h : QueueRep s q) (hf : ∀ a ∈ s.live, (f a).Same (s.task a)) (k : Nat) :
    QueueRep { s with task := f, curtask := k } q :=
  h.congr hf h.ring (fun _ => Iff.rfl) (fun _ _ ha => ha) k

theorem cur_mem (h : QueueRep s q) (ht : t ∈ q) : t ≠ 0 ∧ t ∈ s.live ∧ (s.task t).taskStatus = .running := by
  obtain ⟨h₁, h₂⟩ := (h.queue t).mp ht
  exact ⟨(h.proper t h₁).1, h₁, h₂⟩

theorem not_mem (h : QueueRep s q) (ht : t ∈ s.live) (hr : (s.task t).taskStatus ≠ .running) :
    t ∉ rqHead :: q := fun hm => by
  rcases mem_cons.mp hm with e | hm
  · exact (h.proper t ht).2 e
  · exact hr ((h.queue t).mp hm).2

theorem pid_inj (h : QueueRep s q) {a b : Nat} (ha : a ∈ s.live) (hb : b ∈ s.live)
    (e : (s.task a).pid = (s.task b).pid) : a = b := by
  rw [← (h.pid a ha).2.2.1, e, (h.pid b hb).2.2.1]

theorem parent (h : QueueRep s q) (ht : t ∈ s.live) (hw : (s.task t).pwait ≠ 0) (hp : s.pidmap (s.task t).ppid = p)
    (hz : p ≠ 0) :
    p ∈ s.live ∧ (s.task p).pid = (s.task t).ppid ∧ s.uid p = s.creator t ∧
    (s.task p).taskStatus = .interruptible := by
  obtain ⟨h₀, h₁⟩ := h.flagged t ht hw
  obtain ⟨hl, hpid⟩ := h.table _ h₀ h₁ (hp ▸ hz)
  obtain ⟨hu, hs⟩ := h.waited t ht hw (hp ▸ hz)
  rw [hp] at hl hpid hu hs
  exact ⟨hl, hpid, hu, hs⟩

theorem target (h : QueueRep s q) (hc : s.curtask ∈ s.live) {pid : Int} (h₀ : 0 ≤ pid) (h₁ : pid < pidMaxDefault)
    (hp : s.pid2task pid = some t) : t ∈ s.live := by
  rcases Sched.pid2task_cases hp with ⟨-, rfl⟩ | ⟨-, rfl, hz, -⟩
  · exact hc
  · exact (h.table pid h₀ h₁ hz).1

end QueueRep

namespace Sched

variable {s s' : Sched} {q : List Nat} {t p : Nat} {pid : Int} {op : SchedOp}

theorem schedule_rep (h : QueueRep s q) (hc : s.curtask = 0 ∨ s.curtask ∈ s.live) (hs : s.schedule = some s') :
    QueueRep s' q ∧ s'.curtask ∈ q := by
  rcases schedule_cases hs with ⟨rfl, hz, hr⟩ | ⟨he, f, hf, rfl⟩
  · exact ⟨h, (h.queue _).mpr ⟨hc.resolve_left hz, hr⟩⟩
  · exact ⟨h.retask (fun a _ => hf a) _, h.ring.first he⟩

theorem schedule_first (h : QueueRep s (t :: q))
    (hc : s.curtask ≠ 0 → (s.task s.curtask).taskStatus = .running → s.curtask = t) :
    ∃ s', s.schedule = some s' ∧ s'.curtask = t := by
  unfold schedule
  split
  · next hr => exact ⟨s, rfl, hc hr.1 hr.2.1⟩
  · obtain ⟨f, -, e⟩ := s.getNext_eq
    rw [e, h.ring.not_empty]
    exact ⟨_, rfl, h.ring.ring.next_head⟩

theorem scheduleTick_rep (h : QueueRep s q) (hc : s.curtask ∈ q) : ∃ q', QueueRep s.scheduleTick q' := by
  obtain ⟨f, hf, e | e⟩ := s.scheduleTick_eq
  · rw [e]
    exact ⟨q, h.retask (fun a _ => hf a) _⟩
  · rw [e]
    have hnot := h.ring.nodup.not_mem_erase (a := s.curtask)
    refine ⟨q.erase s.curtask ++ [s.curtask],
      h.congr (fun a _ => hf a) ((h.ring.del hc).add hnot (h.proper _ (h.cur_mem hc).2.1).2)
      (fun a => ((perm_append_singleton _ _).trans (perm_cons_erase hc).symm).mem_iff) (fun a ha halone => ?_) _⟩
    refine (h.ring.del hc).add_alone (h.ring.del_alone hc halone ha) (fun hm => ha ?_) fun e => ha ?_
    · exact (cons_subset_cons _ erase_subset) hm
    · rw [e]
      exact mem_cons_of_mem _ hc

/-! ## Exit -/

theorem bury_rep (h : QueueRep s q) (hl : t ∈ s.live) : QueueRep ((s.scheduleDeleteTask t).exitTask t)
    (q.erase t) := by
  obtain ⟨h₀, h₁, hp, -⟩ := h.pid t hl
  have hpid : ((s.scheduleDeleteTask t).exitTask t).pidmap = update s.pidmap (s.task t).pid 0 := if_pos h₀
  have hused : ((s.scheduleDeleteTask t).exitTask t).used = update s.used (s.task t).pid false := if_pos h₀
  have hlive : ((s.scheduleDeleteTask t).exitTask t).live = s.live.erase t := rfl
  have hmem : ∀ {a}, a ∈ s.live.erase t → a ∈ s.live ∧ a ≠ t := fun ha =>
    ⟨mem_of_mem_erase ha, (h.nodup.mem_erase_iff.mp ha).1⟩
  -- a sleeping task has a node of its own, and `list_del` does nothing
  have hlinks : IsQueue (s.links.listDel t) (q.erase t) ∧ ∀ a ∉ rqHead :: q, Alone s.links a →
      Alone (s.links.listDel t) a := by
    by_cases hq : t ∈ q
    · exact ⟨h.ring.del hq, fun a ha halone => h.ring.del_alone hq halone ha⟩
    · have e : s.links.listDel t = s.links :=
        s.links.listDel_of_self (h.off t hl fun hr => hq ((h.queue t).mpr ⟨hl, hr⟩))
      rw [e, erase_of_not_mem hq]
      exact ⟨h.ring, fun _ _ ha => ha⟩
  refine ⟨hlinks.1, fun a => ?_, fun a ha hr => ?_, h.nodup.erase t, fun a ha => h.proper a (hmem ha).1,
    fun a ha => ?_, fun i hi₀ hi₁ hi => ?_, fun a ha => h.flagged a (hmem ha).1, fun a ha hw hz => ?_,
    fun a ha b hb => h.single a (hmem ha).1 b (hmem hb).1, fun a ha => h.born a (hmem ha).1⟩
  · rw [hlive, h.ring.nodup.mem_erase_iff, h.nodup.mem_erase_iff, h.queue]
    exact and_assoc.symm
  · exact hlinks.2 a (h.not_mem (hmem ha).1 hr) (h.off a (hmem ha).1 hr)
  · obtain ⟨ha, hat⟩ := hmem ha
    have e : (s.task a).pid ≠ (s.task t).pid := fun e => hat (h.pid_inj ha hl e)
    rw [hpid, hused]
    show 0 ≤ (s.task a).pid ∧ (s.task a).pid < pidMaxDefault ∧ update s.pidmap (s.task t).pid 0 (s.task a).pid = a ∧
      update s.used (s.task t).pid false (s.task a).pid = true
    rw [update_of_ne e, update_of_ne e]
    exact h.pid a ha
  · rw [hpid] at hi ⊢
    by_cases e : i = (s.task t).pid
    · rw [e, update_self] at hi
      exact absurd rfl hi
    · rw [update_of_ne e] at hi ⊢
      obtain ⟨h₂, h₃⟩ := h.table i hi₀ hi₁ hi
      refine ⟨h.nodup.mem_erase_iff.mpr ⟨fun e' => e ?_, h₂⟩, h₃⟩
      rw [← h₃, e']
  · rw [hpid] at hz ⊢
    have hz : update s.pidmap (s.task t).pid 0 (s.task a).ppid ≠ 0 := hz
    have e : (s.task a).ppid ≠ (s.task t).pid := fun e => by
      rw [e, update_self] at hz
      exact hz rfl
    show s.uid (update s.pidmap (s.task t).pid 0 (s.task a).ppid) = s.creator a ∧
      (s.task (update s.pidmap (s.task t).pid 0 (s.task a).ppid)).taskStatus = .interruptible
    rw [update_of_ne e] at hz ⊢
    exact h.waited a (hmem ha).1 hw hz

theorem wake_rep (h : QueueRep s q) (hp : p ∈ s.live) (hs : (s.task p).taskStatus ≠ .running)
    (hno : ∀ a ∈ s.live, (s.task a).pwait ≠ 0 → s.pidmap (s.task a).ppid ≠ p) : QueueRep (s.wake p) (q ++ [p]) := by
  have hpq : p ∉ q := fun hm => hs ((h.queue p).mp hm).2
  have hself : (s.wake p).task p = { s.task p with taskStatus := .running } := setTask_self ..
  have hother : ∀ {a}, a ≠ p → (s.wake p).task a = s.task a := setTask_of_ne _ _
  have hwait : ∀ a, ((s.wake p).task a).pwait = (s.task a).pwait := wake_keeps Task.pwait (fun _ => rfl) s p
  refine h.of_sameTable (s.wake_sameTable p) (h.ring.add hpq (h.proper p hp).2) (fun a => ?_) (fun a ha hr => ?_)
    (fun a ha hw => h.flagged a ha (hwait a ▸ hw)) (fun a ha hw hz => ?_) (fun a ha b hb hwa hwb e => ?_)
  · rw [mem_append, mem_singleton, h.queue]
    by_cases e : a = p
    · rw [e, hself]
      exact ⟨fun _ => ⟨hp, rfl⟩, fun _ => .inr rfl⟩
    · rw [hother e]
      exact ⟨fun h => h.resolve_right e, .inl⟩
  · have e : a ≠ p := fun e => hr (by rw [e, hself])
    rw [hother e] at hr
    exact h.ring.add_alone (h.off a ha hr) (h.not_mem ha hr) e
  · rw [hwait] at hw
    rw [hother (hno a ha hw)]
    exact h.waited a ha hw hz
  · rw [hwait] at hwa hwb
    exact h.single a ha b hb hwa hwb e

theorem leave_rep (h : QueueRep s q) (hl : t ∈ s.live) (hc : s.curtask ∈ s.live) (hs : s.leave t = some s') :
    (∃ q', QueueRep s' q') ∧ (s'.curtask = 0 ∨ s'.curtask ∈ s'.live) := by
  obtain ⟨s₁, hn, rfl⟩ := leave_cases hs
  have hb := bury_rep h hl
  have hlive : s₁.live = s.live := by
    rcases exitNotify_cases hn with ⟨-, rfl⟩ | ⟨-, -, rfl⟩
    · rfl
    · rfl
  have hcur : (if t = s.curtask then 0 else s.curtask) = 0 ∨
      (if t = s.curtask then 0 else s.curtask) ∈ s₁.live.erase t := by
    split
    · exact .inl rfl
    · next e => exact .inr (hlive ▸ h.nodup.mem_erase_iff.mpr ⟨fun e' => e e'.symm, hc⟩)
  refine ⟨?_, hcur⟩
  suffices hq : ∃ q', QueueRep (s₁.exitTask t) q' by
    obtain ⟨q', hq⟩ := hq
    exact ⟨q', hq.retask (fun _ _ => .rfl) _⟩
  rcases exitNotify_cases hn with ⟨-, rfl⟩ | ⟨hw, hz, rfl⟩
  · exact ⟨_, hb⟩
  · have hw : (s.task t).pwait ≠ 0 := hw
    obtain ⟨p, hp⟩ : ∃ p, s.pidmap (s.task t).ppid = p := ⟨_, rfl⟩
    have hp' : (s.scheduleDeleteTask t).pidmap ((s.scheduleDeleteTask t).task t).ppid = p := hp
    rw [hp'] at hz ⊢
    obtain ⟨hpl, hpid, hu, hstat⟩ := h.parent hl hw hp hz
    have hpt : p ≠ t := fun e => by
      have := (h.born t hl).1
      rw [← hu, e] at this
      omega
    have hcomm : ((s.scheduleDeleteTask t).wake p).exitTask t = ((s.scheduleDeleteTask t).exitTask t).wake p := by
      simp only [exitTask, wake, scheduleAddTask, setTask, update_of_ne hpt.symm]
    rw [hcomm]
    have hstat' : (s.task p).taskStatus ≠ .running := by
      rw [hstat]
      exact fun e => by cases e
    refine ⟨q.erase t ++ [p], wake_rep hb (h.nodup.mem_erase_iff.mpr ⟨hpt, hpl⟩) hstat' fun a ha hwa e => ?_⟩
    -- another child with the same parent would be the same task
    obtain ⟨hat, ha⟩ := h.nodup.mem_erase_iff.mp ha
    have e : (if 0 ≤ (s.task t).pid then update s.pidmap (s.task t).pid 0 else s.pidmap) (s.task a).ppid = p := e
    rw [if_pos (h.pid t hl).1] at e
    by_cases e' : (s.task a).ppid = (s.task t).pid
    · rw [e', update_self] at e
      exact hz e.symm
    · rw [update_of_ne e'] at e
      exact hat (h.single a ha t hl hwa hw ((h.parent ha hwa e hz).2.1.symm.trans hpid))

/-! ## Wait -/

structure Sleeps (s s' : Sched) (t : Nat) : Prop where
  cur : s'.task s.curtask = { s.task s.curtask with taskStatus := .interruptible }
  child : s'.task t = { s.task t with pwait := 1 }
  other : ∀ {a}, a ≠ s.curtask → a ≠ t → s'.task a = s.task a

theorem sleepOn_sleeps (htc : t ≠ s.curtask) : s.Sleeps (s.sleepOn t) t where
  cur := (setTask_self ..).trans (by rw [show (s.setTask t _).curtask = s.curtask from rfl,
    setTask_of_ne _ _ htc.symm])
  child := (setTask_of_ne _ _ htc).trans (setTask_self ..)
  other h₁ h₂ := (setTask_of_ne _ _ h₁).trans (setTask_of_ne _ _ h₂)

theorem Sleeps.status (h : s.Sleeps s' t) {a : Nat} (ha : a ≠ s.curtask) :
    (s'.task a).taskStatus = (s.task a).taskStatus := by
  by_cases e : a = t
  · rw [e, h.child]
  · rw [h.other ha e]

theorem Sleeps.pwait (h : s.Sleeps s' t) {a : Nat} (ha : a ≠ t) : (s'.task a).pwait = (s.task a).pwait := by
  by_cases e : a = s.curtask
  · rw [e, h.cur]
  · rw [h.other e ha]

theorem ne_of_creator (h : QueueRep s q) (ht : t ∈ s.live) (hcr : s.creator t = s.uid p) : t ≠ p := fun e => by
  have := (h.born t ht).1
  rw [hcr, e] at this
  omega

theorem sleepOn_rep (h : QueueRep s q) (hc : s.curtask ∈ q) (ht : t ∈ s.live)
    (hppid : (s.task t).ppid = (s.task s.curtask).pid) (hcr : s.creator t = s.uid s.curtask) :
    QueueRep (s.sleepOn t) (q.erase s.curtask) := by
  obtain ⟨hz, hcl, hrun⟩ := h.cur_mem hc
  obtain ⟨hp₀, hp₁, hpm, -⟩ := h.pid _ hcl
  have hs := sleepOn_sleeps (ne_of_creator h ht hcr)
  -- nobody is flagged for the running task yet
  have hawake : ∀ {a}, a ∈ s.live → (s.task a).pwait ≠ 0 → s.pidmap (s.task a).ppid ≠ s.curtask := fun ha hw e => by
    have := (h.parent ha hw e hz).2.2.2
    rw [hrun] at this
    cases this
  have hsame : ∀ {a}, a ∈ s.live → (s.task a).pwait ≠ 0 → (s.task a).ppid ≠ (s.task t).ppid := fun ha hw e =>
    hawake ha hw (by rw [e, hppid, hpm])
  refine h.of_sameTable (s.sleepOn_sameTable t) (h.ring.del hc) (fun a => ?_) (fun a ha hr => ?_)
    (fun a ha hw => ?_) (fun a ha hw hp => ?_) (fun a ha b hb hwa hwb e => ?_)
  · rw [h.ring.nodup.mem_erase_iff, h.queue]
    by_cases e : a = s.curtask
    · rw [e, hs.cur]
      exact ⟨fun hx => absurd rfl hx.1, fun hx => by cases hx.2⟩
    · rw [hs.status e]
      exact ⟨And.right, fun hx => ⟨e, hx⟩⟩
  · by_cases e : a = s.curtask
    · rw [e]
      exact s.links.listDel_self
    · rw [hs.status e] at hr
      exact h.ring.del_alone hc (h.off a ha hr) (h.not_mem ha hr)
  · by_cases e : a = t
    · rw [e, hppid]
      exact ⟨hp₀, hp₁⟩
    · rw [hs.pwait e] at hw
      exact h.flagged a ha hw
  · by_cases e : a = t
    · rw [e, hppid, hpm, hs.cur]
      exact ⟨hcr.symm, rfl⟩
    · rw [hs.pwait e] at hw
      rw [hs.status (hawake ha hw)]
      exact h.waited a ha hw hp
  · by_cases ea : a = t
    · by_cases eb : b = t
      · rw [ea, eb]
      · rw [hs.pwait eb] at hwb
        exact absurd (ea ▸ e.symm) (hsame hb hwb)
    · rw [hs.pwait ea] at hwa
      by_cases eb : b = t
      · exact absurd (eb ▸ e) (hsame ha hwa)
      · rw [hs.pwait eb] at hwb
        exact h.single a ha b hb hwa hwb e

/-! ## New tasks -/

def enrol (s : Sched) (t : Nat) (a : Task) (creator : Nat) : Sched :=
  Sched.enlist { s.setTask t a with
    links := s.links.listAddTail t rqHead
    pidmap := update s.pidmap a.pid t
    used := update s.used a.pid true } t creator

section
variable {a : Task} {b c : Nat}

theorem enrol_task_self (s : Sched) (t : Nat) (a : Task) (c : Nat) : (s.enrol t a c).task t = a := setTask_self ..

theorem enrol_task_of_mem (ht : t ∉ s.live) (hb : b ∈ s.live) : (s.enrol t a c).task b = s.task b :=
  setTask_of_ne _ _ fun e => ht (e ▸ hb)

theorem enrol_uid_of_mem (ht : t ∉ s.live) (hb : b ∈ s.live) : (s.enrol t a c).uid b = s.uid b := by
  have e : b ≠ t := fun e => ht (e ▸ hb)
  exact update_of_ne e ..

theorem enrol_creator_of_mem (ht : t ∉ s.live) (hb : b ∈ s.live) : (s.enrol t a c).creator b = s.creator b := by
  have e : b ≠ t := fun e => ht (e ▸ hb)
  exact update_of_ne e ..

theorem enrol_pidmap_self (s : Sched) (t : Nat) (a : Task) (c : Nat) :
    (s.enrol t a c).pidmap a.pid = t := update_self ..

theorem enrol_pidmap_of_ne {i : Int} (hi : i ≠ a.pid) : (s.enrol t a c).pidmap i = s.pidmap i := update_of_ne hi ..

end

theorem pidmap_fresh (h : QueueRep s q) (hf : s.Fresh t pid) : s.pidmap pid = 0 := by
  obtain ⟨-, -, -, h₀, h₁, hu⟩ := hf
  refine Classical.byContradiction fun hz => ?_
  obtain ⟨hl, hp⟩ := h.table pid h₀ h₁ hz
  have := (h.pid _ hl).2.2.2
  rw [hp, hu] at this
  cases this

def Unclaimed (s : Sched) (pid : Int) : Prop := ∀ a ∈ s.live, (s.task a).pwait ≠ 0 → (s.task a).ppid ≠ pid

section
variable {a : Task} {creator : Nat} (h : QueueRep s q)
include h

theorem enrol_queue (ht : t ∉ s.live) (hrun : a.taskStatus = .running) (b : Nat) :
    b ∈ q ++ [t] ↔ b ∈ (s.enrol t a creator).live ∧ ((s.enrol t a creator).task b).taskStatus = .running := by
  rw [mem_append, mem_singleton, h.queue]
  show (b ∈ s.live ∧ _) ∨ b = t ↔ b ∈ t :: s.live ∧ _
  rw [mem_cons]
  by_cases e : b = t
  · rw [e, enrol_task_self]
    exact ⟨fun _ => ⟨.inl rfl, hrun⟩, fun _ => .inr rfl⟩
  · constructor
    · intro hx
      obtain ⟨h₁, h₂⟩ := hx.resolve_right e
      exact ⟨.inr h₁, by rw [enrol_task_of_mem ht h₁]; exact h₂⟩
    · intro ⟨h₁, h₂⟩
      have h₁ := h₁.resolve_left e
      rw [enrol_task_of_mem ht h₁] at h₂
      exact .inl ⟨h₁, h₂⟩

theorem enrol_table (hf : s.Fresh t a.pid) {i : Int} (h₀ : 0 ≤ i) (h₁ : i < pidMaxDefault)
    (hi : (s.enrol t a creator).pidmap i ≠ 0) : (s.enrol t a creator).pidmap i ∈ (s.enrol t a creator).live ∧
      ((s.enrol t a creator).task ((s.enrol t a creator).pidmap i)).pid = i := by
  by_cases e : i = a.pid
  · rw [e, enrol_pidmap_self, enrol_task_self]
    exact ⟨mem_cons_self .., rfl⟩
  · rw [enrol_pidmap_of_ne e] at hi ⊢
    obtain ⟨hl, hp⟩ := h.table i h₀ h₁ hi
    rw [enrol_task_of_mem hf.2.2.1 hl]
    exact ⟨mem_cons_of_mem _ hl, hp⟩

theorem enrol_pid (hf : s.Fresh t a.pid) {b : Nat} (hb : b ∈ s.live) :
    (s.enrol t a creator).pidmap (s.task b).pid = b ∧ (s.enrol t a creator).used (s.task b).pid = true := by
  obtain ⟨-, -, hm, hu⟩ := h.pid b hb
  have e : (s.task b).pid ≠ a.pid := fun e => by
    rw [e, pidmap_fresh h hf] at hm
    exact (h.proper b hb).1 hm.symm
  exact ⟨(enrol_pidmap_of_ne e).trans hm, (update_of_ne e ..).trans hu⟩

theorem enrol_rep (hf : s.Fresh t a.pid) (hu : s.Unclaimed a.pid) (hrun : a.taskStatus = .running)
    (hw : a.pwait = 0) (hcr : creator < s.born) : QueueRep (s.enrol t a creator) (q ++ [t]) := by
  obtain ⟨ht₀, hth, htl, hp₀, hp₁, -⟩ := id hf
  have hlive : ∀ {b}, b ∈ (s.enrol t a creator).live → b = t ∨ b ∈ s.live := mem_cons.mp
  -- a flagged task is one of the old ones, and so is its parent
  have hold : ∀ {b}, b ∈ (s.enrol t a creator).live → ((s.enrol t a creator).task b).pwait ≠ 0 →
      b ∈ s.live ∧ (s.enrol t a creator).task b = s.task b ∧ (s.task b).pwait ≠ 0 := fun {b} hb hwb => by
    rcases hlive hb with rfl | hb
    · rw [enrol_task_self] at hwb
      exact absurd hw hwb
    · rw [enrol_task_of_mem htl hb] at hwb
      exact ⟨hb, enrol_task_of_mem htl hb, hwb⟩
  refine ⟨h.ring.add (fun hm => htl ((h.queue t).mp hm).1) hth, enrol_queue h htl hrun, fun b hb hr => ?_,
    nodup_cons.mpr ⟨htl, h.nodup⟩, fun b hb => ?_, fun b hb => ?_, fun i => enrol_table h hf, fun b hb hwb => ?_,
    fun b hb hwb hpz => ?_, fun b hb c hc hwb hwc e => ?_, fun b hb => ?_⟩
  · rcases hlive hb with rfl | hb
    · rw [enrol_task_self] at hr
      exact absurd hrun hr
    · rw [enrol_task_of_mem htl hb] at hr
      exact h.ring.add_alone (h.off b hb hr) (h.not_mem hb hr) fun e => htl (e ▸ hb)
  · rcases hlive hb with rfl | hb
    · exact ⟨ht₀, hth⟩
    · exact h.proper b hb
  · rcases hlive hb with rfl | hb
    · rw [enrol_task_self]
      exact ⟨hp₀, hp₁, enrol_pidmap_self .., update_self ..⟩
    · rw [enrol_task_of_mem htl hb]
      exact ⟨(h.pid b hb).1, (h.pid b hb).2.1, enrol_pid h hf hb⟩
  · obtain ⟨hb, e, hwb⟩ := hold hb hwb
    rw [e]
    exact h.flagged b hb hwb
  · obtain ⟨hb, e, hwb⟩ := hold hb hwb
    rw [e, enrol_pidmap_of_ne (hu b hb hwb)] at hpz ⊢
    obtain ⟨hpl, -, hpu, hps⟩ := h.parent hb hwb rfl hpz
    rw [enrol_uid_of_mem htl hpl, enrol_creator_of_mem htl hb, enrol_task_of_mem htl hpl]
    exact ⟨hpu, hps⟩
  · obtain ⟨hb, e₁, hwb⟩ := hold hb hwb
    obtain ⟨hc, e₂, hwc⟩ := hold hc hwc
    rw [e₁, e₂] at e
    exact h.single b hb c hc hwb hwc e
  · rcases hlive hb with rfl | hb
    · have h₁ : (s.enrol b a creator).creator b = creator := update_self ..
      have h₂ : (s.enrol b a creator).uid b = s.born := update_self ..
      rw [h₁, h₂]
      exact ⟨hcr, Nat.lt_succ_self _⟩
    · rw [enrol_uid_of_mem htl hb, enrol_creator_of_mem htl hb]
      exact ⟨(h.born b hb).1, Nat.lt_succ_of_lt (h.born b hb).2⟩

end

theorem doFork_false (hp : 0 ≤ pid) (htl : t ∉ s.live) (hz : s.pidmap pid = 0) (hu : s.used pid = false) :
    ∃ f : Nat → Task, (∀ a ∈ s.live, f a = s.task a) ∧ s.doFork t pid false = { s with task := f } := by
  have hself : update s.task t ⟨pid, (s.task s.curtask).pid, .running, 3, false, 0⟩ t =
    ⟨pid, (s.task s.curtask).pid, .running, 3, false, 0⟩ := update_self ..
  have e₁ : update s.pidmap pid 0 = s.pidmap := hz ▸ update_eq_self ..
  have e₂ : update (update s.used pid true) pid false = s.used := by
    rw [update_idem]
    exact hu ▸ update_eq_self ..
  refine ⟨update s.task t ⟨pid, (s.task s.curtask).pid, .running, 3, false, 0⟩, fun a ha => ?_, ?_⟩
  · have e : a ≠ t := fun e => htl (e ▸ ha)
    exact update_of_ne e ..
  · simp only [doFork, exitTask, setTask, hself, if_pos hp, e₁, e₂, erase_of_not_mem htl,
      Bool.false_eq_true, if_false]

theorem doFork_rep (ok : Bool) (h : QueueRep s q) (hc : s.curtask ∈ s.live) (hf : s.Fresh t pid)
    (hu : ok = true → s.Unclaimed pid) :
    (∃ q', QueueRep (s.doFork t pid ok) q') ∧ (s.doFork t pid ok).curtask ∈ (s.doFork t pid ok).live := by
  cases ok with
  | true =>
    refine ⟨⟨q ++ [t], enrol_rep (a := ⟨pid, _, .running, 3, false, 0⟩) h hf (hu rfl) rfl rfl (h.born _ hc).2⟩, ?_⟩
    exact mem_cons_of_mem _ hc
  | false =>
    obtain ⟨f, hf', e⟩ := doFork_false hf.2.2.2.1 hf.2.2.1 (pidmap_fresh h hf) hf.2.2.2.2.2
    rw [e]
    exact ⟨⟨q, h.retask (fun a ha => hf' a ha ▸ .rfl) _⟩, hc⟩

theorem taskCreate_rep {old : Task} {pid ppid : Int} {creator : Nat} (h : QueueRep s q) (hf : s.Fresh t pid)
    (hu : s.Unclaimed pid)
    (hold : old.pwait = 0) (hcr : creator < s.born) : QueueRep (s.taskCreate t old pid ppid creator) (q ++ [t]) :=
  enrol_rep (a := { old with pid := pid, ppid := ppid, taskStatus := .running, timeslice := 3 }) h
    hf hu rfl hold hcr

/-! ## Kernel entries -/

/-- `wait` stays inside the array, and the child that it finds is one of the caller's. -/
def WaitsOwn (s : Sched) (pid : Int) : Prop :=
  pid ≠ pidMaxDefault ∧ (0 ≤ pid → pid < pidMaxDefault → s.pidmap pid ≠ 0 →
    (s.task (s.pidmap pid)).ppid = (s.task s.curtask).pid → s.creator (s.pidmap pid) = s.uid s.curtask)

theorem WaitsOwn.child (hw : s.WaitsOwn pid) (h : QueueRep s q) (h₀ : 0 ≤ pid) (h₁ : pid ≤ pidMaxDefault)
    (hz : s.pidmap pid ≠ 0) (hppid : (s.task (s.pidmap pid)).ppid = (s.task s.curtask).pid) :
    s.pidmap pid ∈ s.live ∧ s.creator (s.pidmap pid) = s.uid s.curtask := by
  have hlt := Int.lt_iff_le_and_ne.mpr ⟨h₁, hw.1⟩
  exact ⟨(h.table pid h₀ hlt hz).1, hw.2 h₀ hlt hz hppid⟩

/-- When a kernel entry does not take one task for another: memory for a new program has a null
`pwait`, and a new pid is not the one a flagged task knows its parent by. -/
def Clear (s : Sched) : SchedOp → Prop
  | .fork _ pid ok => ok = true → s.Unclaimed pid
  | .execve _ old pid => old.pwait = 0 ∧ s.Unclaimed pid
  | .wait pid => s.WaitsOwn pid
  | _ => True

theorem handle_rep (h : QueueRep s q) (hc : s.curtask ∈ q) (hop : s.Allowed op) (hclear : s.Clear op)
    (hs : s.handle op = some s') : (∃ q', QueueRep s' q') ∧ (s'.curtask = 0 ∨ s'.curtask ∈ s'.live) := by
  have hcl := (h.cur_mem hc).2.1
  cases op with
  | tick =>
    cases hs
    refine ⟨scheduleTick_rep h hc, .inr ?_⟩
    obtain ⟨f, -, e | e⟩ := s.scheduleTick_eq
    · rw [e]
      exact hcl
    · rw [e]
      exact hcl
  | fork t pid ok =>
    cases hs
    obtain ⟨h', hcur⟩ := doFork_rep ok h hcl hop hclear
    exact ⟨h', .inr hcur⟩
  | execve t old pid =>
    cases hs
    exact ⟨⟨_, taskCreate_rep h hop hclear.2 hclear.1 (h.born _ hcl).2⟩, .inr (mem_cons_of_mem _ hcl)⟩
  | wait pid =>
    rcases handle_wait hs with rfl | ⟨h₀, h₁, hz, hppid, rfl⟩
    · exact ⟨⟨q, h⟩, .inr hcl⟩
    · obtain ⟨ht, hown⟩ := WaitsOwn.child hclear h h₀ h₁ hz hppid
      exact ⟨⟨_, sleepOn_rep h hc ht hppid hown⟩, .inr hcl⟩
  | exit pid =>
    obtain ⟨t, hp, h₀, h₁, hs⟩ := handle_exit hs
    exact leave_rep h (h.target hcl h₀ h₁ hp) hcl hs
  | fault => exact leave_rep h hcl hcl hs
  | other =>
    cases hs
    exact ⟨⟨q, h⟩, .inr hcl⟩

/-- When a kernel entry is safe: memory for a new program has a null `pwait`, and a task
that is killed by its parent is not asleep. -/
def Safe (s : Sched) : SchedOp → Prop
  | .execve _ old _ => old.pwait = 0
  | .wait pid => s.WaitsOwn pid
  | .exit pid => 0 < pid → pid < pidMaxDefault → s.pidmap pid ≠ 0 → (s.task (s.pidmap pid)).taskStatus = .running
  | _ => True

/-! ## Flagged tasks keep their parents -/

theorem Attended.unclaimed (h : QueueRep s q) (ha : s.Attended) (hf : s.Fresh t pid) :
    s.Unclaimed pid := fun a hl hw e =>
  ha a hl hw (e ▸ pidmap_fresh h hf)

theorem Attended.clear (h : QueueRep s q) (ha : s.Attended) (hop : s.Allowed op) (hsafe : s.Safe op) :
    s.Clear op := by
  cases op with
  | fork t pid ok => exact fun _ => ha.unclaimed h hop
  | execve t old pid => exact ⟨hsafe, ha.unclaimed h hop⟩
  | wait pid => exact hsafe
  | tick => trivial
  | exit => trivial
  | fault => trivial
  | other => trivial

theorem Attended.congr (ha : s.Attended) (hk : SameTable s s')
    (hw : ∀ a ∈ s.live, (s'.task a).pwait = (s.task a).pwait) : s'.Attended := fun a hl hwa => by
  rw [hk.live] at hl
  rw [hk.ppid a hl, hk.pidmap]
  exact ha a hl (hw a hl ▸ hwa)

theorem Attended.enrol {a : Task} {creator : Nat} (ha : s.Attended) (htl : t ∉ s.live) (ht : t ≠ 0)
    (hw : a.pwait = 0) : (s.enrol t a creator).Attended := fun b hb hwb => by
  rcases mem_cons.mp hb with rfl | hb
  · rw [enrol_task_self] at hwb
    exact absurd hw hwb
  · rw [enrol_task_of_mem htl hb] at hwb ⊢
    by_cases e : (s.task b).ppid = a.pid
    · rw [e, enrol_pidmap_self]
      exact ht
    · rw [enrol_pidmap_of_ne e]
      exact ha b hb hwb

theorem Attended.leave (h : QueueRep s q) (ha : s.Attended) (ht : t ∈ q) (hs : s.leave t = some s') :
    s'.Attended := by
  obtain ⟨hz, hl, hr⟩ := h.cur_mem ht
  obtain ⟨h₀, -, hp, -⟩ := h.pid t hl
  have hb : (s.exitTask t).Attended := fun a hal hw => by
    have hal := mem_of_mem_erase hal
    show (if 0 ≤ (s.task t).pid then update s.pidmap (s.task t).pid 0 else s.pidmap) (s.task a).ppid ≠ 0
    have e : (s.task a).ppid ≠ (s.task t).pid := fun e => by
      have := (h.parent hal hw (e ▸ hp) hz).2.2.2
      rw [hr] at this
      cases this
    rw [if_pos h₀, update_of_ne e]
    exact ha a hal hw
  exact hb.congr (leave_sameTable hs) fun a _ => leave_keeps Task.pwait (fun _ => rfl) hs a

theorem Attended.handle (h : QueueRep s q) (hc : s.curtask ∈ q) (ha : s.Attended) (hop : s.Allowed op)
    (hsafe : s.Safe op) (hs : s.handle op = some s') : s'.Attended := by
  have hcl := (h.cur_mem hc).2.1
  cases op with
  | tick =>
    cases hs
    obtain ⟨f, hf, e | e⟩ := s.scheduleTick_eq
    · rw [e]
      exact ha.congr (.of_same fun a _ => hf a) fun a _ => (hf a).2.2.2
    · rw [e]
      exact ha.congr (.of_same fun a _ => hf a) fun a _ => (hf a).2.2.2
  | fork t pid ok =>
    cases hs
    cases ok with
    | true => exact ha.enrol (a := ⟨pid, _, .running, 3, false, 0⟩) hop.2.2.1 hop.1 rfl
    | false =>
      obtain ⟨f, hf, e⟩ := doFork_false hop.2.2.2.1 hop.2.2.1 (pidmap_fresh h hop) hop.2.2.2.2.2
      rw [e]
      exact ha.congr (.of_same fun a hl => hf a hl ▸ .rfl) fun a hl => congrArg Task.pwait (hf a hl)
  | execve t old pid =>
    cases hs
    exact ha.enrol (a := { old with pid := pid, ppid := _, taskStatus := .running, timeslice := 3 })
      hop.2.2.1 hop.1 hsafe
  | wait pid =>
    rcases handle_wait hs with rfl | ⟨h₀, h₁, hz, hppid, rfl⟩
    · exact ha
    · obtain ⟨ht, hown⟩ := WaitsOwn.child hsafe h h₀ h₁ hz hppid
      have hsleep := sleepOn_sleeps (ne_of_creator h ht hown)
      have hk := s.sleepOn_sameTable (s.pidmap pid)
      intro a hl hw
      have hl : a ∈ s.live := hl
      rw [hk.ppid a hl, hk.pidmap]
      by_cases e : a = s.pidmap pid
      · rw [e, hppid, (h.pid _ hcl).2.2.1]
        exact (h.proper _ hcl).1
      · rw [hsleep.pwait e] at hw
        exact ha a hl hw
  | exit pid =>
    obtain ⟨t, hp, h₀, h₁, hs⟩ := handle_exit hs
    refine ha.leave h ?_ hs
    rcases pid2task_cases hp with ⟨-, rfl⟩ | ⟨hne, rfl, hz, -⟩
    · exact hc
    · exact (h.queue _).mpr ⟨(h.table pid h₀ h₁ hz).1, hsafe (by omega) h₁ hz⟩
  | fault => exact ha.leave h hc hs
  | other =>
    cases hs
    exact ha

end Sched

/-! ## Runs -/

structure SchedInv (s : Sched) (q : List Nat) : Prop where
  ring : Ring s.links.next s.links.prev rqHead q
  nodup : q.Nodup
  queue : ∀ a, a ∈ q ↔ a ∈ s.live ∧ (s.task a).taskStatus = .running
  parent : ∀ t ∈ s.live, (s.task t).pwait ≠ 0 →
    s.pidmap (s.task t).ppid ∈ s.live ∧ s.uid (s.pidmap (s.task t).ppid) = s.creator t

theorem QueueRep.inv {s : Sched} {q : List Nat} (h : QueueRep s q) (ha : s.Attended) : SchedInv s q where
  ring := h.ring.ring
  nodup := h.ring.nodup
  queue := h.queue
  parent t ht hw := by
    obtain ⟨h₀, h₁⟩ := h.flagged t ht hw
    exact ⟨(h.table _ h₀ h₁ (ha t ht hw)).1, (h.waited t ht hw (ha t ht hw)).1⟩

theorem Sched.boot_rep {s s' : Sched} {t : Nat} {old : Task} (hb : s.Blank) (ht : t ≠ 0) (hh : t ≠ rqHead)
    (hold : old.pwait = 0) (h : s.boot t old = some s') : QueueRep s' [t] ∧ s'.curtask = t := by
  have hno : ∀ {a}, a ∉ s.live := fun {a} ha => by
    rw [hb.live] at ha
    cases ha
  have h₀ : QueueRep { s with links := s.links.initListHead rqHead } [] :=
    ⟨IsQueue.init s.links, fun a => ⟨nofun, fun ha => absurd ha.1 hno⟩, fun a ha => absurd ha hno,
      hb.live ▸ nodup_nil, fun a ha => absurd ha hno, fun a ha => absurd ha hno,
      fun i h₀ h₁ hi => absurd (hb.pidmap i h₀ h₁) hi, fun a ha => absurd ha hno, fun a ha => absurd ha hno,
      fun a ha => absurd ha hno, fun a ha => absurd ha hno⟩
  have hfresh : Fresh { s with links := s.links.initListHead rqHead } t 0 :=
    ⟨ht, hh, hno, Int.le_refl 0, by decide, hb.used 0⟩
  have hborn : 0 < s.born := hb.born ▸ Nat.one_pos
  obtain ⟨h₁, hc⟩ := schedule_rep (taskCreate_rep h₀ hfresh (fun a ha => absurd ha hno) hold hborn)
    (.inl hb.curtask) h
  exact ⟨h₁, mem_singleton.mp hc⟩

theorem Sched.boot_task {s s' : Sched} {t : Nat} {old : Task} (hb : s.Blank) (h : s.boot t old = some s') :
    s'.live = [t] ∧ (s'.task t).Same { old with pid := 0, ppid := -1, taskStatus := .running, timeslice := 3 } := by
  obtain ⟨hk, hsame⟩ := schedule_same h
  refine ⟨hk.live.trans (congrArg (List.cons t) hb.live), ?_⟩
  have hself : (s.setTask t { old with pid := 0, ppid := -1, taskStatus := .running, timeslice := 3 }).task t = _ :=
    setTask_self ..
  exact hself ▸ hsame t

/-- **The run-queue invariant** in runs of safe kernel entries. -/
theorem runqueue_invariant {s₀ s₁ s : Sched} {t : Nat} {old : Task} (hb : s₀.Blank) (ht : t ≠ 0) (hh : t ≠ rqHead)
    (hold : old.pwait = 0) (hboot : s₀.boot t old = some s₁)
    (hrun : ReflTransGen (fun s s' => ∃ op, s.Allowed op ∧ s.Safe op ∧ s.trap op = some s') s₁ s) :
    ∃ q, SchedInv s q := by
  have key : ∃ q, QueueRep s q ∧ s.curtask ∈ q ∧ s.Attended := by
    induction hrun with
    | refl =>
      obtain ⟨h, hc⟩ := Sched.boot_rep hb ht hh hold hboot
      obtain ⟨hl, hsame⟩ := Sched.boot_task hb hboot
      refine ⟨[t], h, mem_singleton.mpr hc, fun a ha hw => ?_⟩
      rw [hl, mem_singleton] at ha
      rw [ha, hsame.2.2.2] at hw
      exact absurd hold hw
    | tail _ hstep ih =>
      obtain ⟨q, h, hc, ha⟩ := ih
      obtain ⟨op, hop, hsafe, hstep⟩ := hstep
      rw [Sched.trap_eq] at hstep
      obtain ⟨s', hs, hstep⟩ := Option.bind_eq_some_iff.mp hstep
      obtain ⟨⟨q', h'⟩, hcur⟩ := Sched.handle_rep h hc hop (ha.clear h hop hsafe) hs
      obtain ⟨h'', hc''⟩ := Sched.schedule_rep h' hcur hstep
      obtain ⟨hk, hsame⟩ := Sched.schedule_same hstep
      exact ⟨q', h'', hc'', (ha.handle h hc hop hsafe hs).congr hk fun a _ => (hsame a).2.2.2⟩
  obtain ⟨q, h, -, ha⟩ := key
  exact ⟨q, h.inv ha⟩

def blankTask : Task := ⟨0, 0, .running, 0, false, 0⟩

def blankSched : Sched :=
  ⟨⟨id, id⟩, fun _ => blankTask, fun _ => 0, fun _ => false, 0, [], fun _ => 0, fun _ => 0, 1⟩

theorem blankSched_blank : blankSched.Blank := ⟨rfl, rfl, fun _ _ _ => rfl, fun _ => rfl, rfl⟩

theorem runqueue_invariant_wait : ∃ s₁ s₂ s₃ s₄, blankSched.boot 16 blankTask = some s₁ ∧
    s₁.trap (.fork 32 1 true) = some s₂ ∧ s₂.trap (.wait 1) = some s₃ ∧ s₃.trap .fault = some s₄ ∧
    ∃ q, SchedInv s₄ q := by
  have h : ((blankSched.boot 16 blankTask).bind fun s₁ => (s₁.trap (.fork 32 1 true)).bind fun s₂ =>
      (s₂.trap (.wait 1)).bind fun s₃ => (s₃.trap .fault).map fun _ =>
        (s₁.live, s₁.used 1, s₂.creator (s₂.pidmap 1), s₂.uid s₂.curtask)) = some ([16], false, 1, 1) := by decide
  simp only [Option.bind_eq_some_iff, Option.map_eq_some_iff, Prod.mk.injEq] at h
  obtain ⟨s₁, h₁, s₂, h₂, s₃, h₃, s₄, h₄, hl, hu, hcr, huid⟩ := h
  refine ⟨s₁, s₂, s₃, s₄, h₁, h₂, h₃, h₄, runqueue_invariant blankSched_blank (by decide) (by decide) rfl h₁ ?_⟩
  refine .tail (.tail (.single ⟨.fork 32 1 true,
    ⟨by decide, by decide, by rw [hl]; decide, by decide, by decide, hu⟩,
    trivial, h₂⟩) ⟨.wait 1, trivial, ⟨by decide, fun _ _ _ _ => hcr.trans huid.symm⟩,
    h₃⟩) ⟨.fault, trivial, trivial, h₄⟩

/-- A program whose `task_struct` lies in memory with an old `pwait` is killed by its
parent: the parent, which is running, is put on the queue a second time. -/
theorem runqueue_broken : ∃ s₁ s, blankSched.boot 16 blankTask = some s₁ ∧
    ReflTransGen (fun s s' => ∃ op, s.Allowed op ∧ s.trap op = some s') s₁ s ∧ ¬ ∃ q, SchedInv s q := by
  have h : ((blankSched.boot 16 blankTask).bind fun s₁ =>
        (s₁.trap (.execve 32 { blankTask with pwait := 1 } 1)).bind fun s₂ =>
      (s₂.trap (.exit 1)).map fun s => ((s₁.live, s₁.used 1), s.live, (s.task 16).taskStatus, s.links.next 16)) =
      some (([16], false), [16], .running, 16) := by decide
  simp only [Option.bind_eq_some_iff, Option.map_eq_some_iff, Prod.mk.injEq] at h
  obtain ⟨s₁, h₁, s₂, h₂, s, h₃, ⟨hl, hu⟩, hlive, hst, hnext⟩ := h
  refine ⟨s₁, s, h₁, .tail (.single ⟨.execve 32 { blankTask with pwait := 1 } 1,
    ⟨by decide, by decide, by rw [hl]; decide, by decide, by decide, hu⟩, h₂⟩) ⟨.exit 1, trivial, h₃⟩,
    fun ⟨q, hq⟩ => ?_⟩
  have hmem : 16 ∈ q := (hq.queue 16).mpr ⟨by rw [hlive]; decide, hst⟩
  obtain ⟨xs, ys, rfl⟩ := append_of_mem hmem
  -- the parent is all there is to queue
  have hys : ys = [] := by
    refine eq_nil_iff_forall_not_mem.mpr fun a ha => ?_
    have hl := ((hq.queue a).mp (by simp [ha])).1
    rw [hlive] at hl
    have hnd := (nodup_append.mp hq.nodup).2.1
    exact (nodup_cons.mp hnd).1 (mem_singleton.mp hl ▸ ha)
  have hb := hq.ring.neighbours.2
  rw [hys, hnext] at hb
  exact absurd hb (by decide)

end MiniOS
