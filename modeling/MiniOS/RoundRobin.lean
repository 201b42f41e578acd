import MiniOS.SchedSound
import Mathlib.Data.List.Rotate
import Mathlib.Data.Nat.Periodic

/-!
# Round robin

A run of nothing but timer interrupts: two leave the run queue alone, the third moves its
head to the end.
-/

namespace MiniOS

open List

namespace Sched

variable {s s' : Sched} {q : List Nat} {t : Nat} {left : Int}

def ticks (s : Sched) : Nat → Option Sched
  | 0 => some s
  | i + 1 => (s.ticks i).bind fun s => s.trap .tick

/-! ## `schedule` goes to the head -/

theorem getNext_keeps {β : Type} (g : Task → β) (hg : ∀ a, g { a with needResched := false } = g a)
    (h : s.getNext = some (t, s')) (b : Nat) : g (s'.task b) = g (s.task b) := by
  unfold getNext at h
  by_cases hc : s.curtask ≠ 0 ∧ (s.task s.curtask).needResched
  · rw [if_pos hc, Option.ite_none_left_eq_some] at h
    cases h.2
    exact setTask_keeps g (hg _) b
  · rw [if_neg hc, Option.ite_none_left_eq_some] at h
    cases h.2
    rfl

theorem schedule_head (h : IsQueue s.links (t :: q)) (hc : s.curtask = t ∨ (s.task s.curtask).needResched = true) :
    ∃ s', s.schedule = some s' ∧ s'.curtask = t ∧ s'.links = s.links ∧
      ∀ a, (s'.task a).timeslice = (s.task a).timeslice := by
  unfold schedule
  split
  · next hrun =>
    refine ⟨s, rfl, ?_, rfl, fun _ => rfl⟩
    apply hc.resolve_right
    exact hrun.2.2
  · obtain ⟨f, -, he⟩ := s.getNext_eq
    rw [h.not_empty, if_neg Bool.false_ne_true] at he
    refine ⟨{ s with task := f, curtask := s.links.next rqHead }, by rw [he]; rfl, h.ring.next_head, rfl, ?_⟩
    intro a
    exact getNext_keeps Task.timeslice (fun _ => rfl) he a

/-! ## One interrupt -/

structure Turn (s : Sched) (q : List Nat) (left : Int) : Prop where
  ring : IsQueue s.links q
  head : q.head? = some s.curtask
  slice : ∀ t ∈ q, (s.task t).timeslice = if t = s.curtask then left else 3

theorem Turn.exists_cons (h : Turn s q left) : ∃ q', q = s.curtask :: q' := by
  cases q with
  | nil => cases h.head
  | cons t q => exact ⟨q, by rw [Option.some.inj h.head]⟩

theorem Turn.left_eq (h : Turn s q left) : (s.task s.curtask).timeslice = left := by
  obtain ⟨q', rfl⟩ := h.exists_cons
  simpa using h.slice s.curtask (mem_cons_self ..)

theorem tick_stay (h : Turn s q left) (hl : 1 < left) : ∃ s', s.trap .tick = some s' ∧ Turn s' q (left - 1) := by
  obtain ⟨q', rfl⟩ := h.exists_cons
  have hgo : ¬ (s.task s.curtask).timeslice - 1 ≤ 0 := by
    rw [h.left_eq]
    omega
  have htick : s.scheduleTick =
      s.setTask s.curtask { s.task s.curtask with timeslice := (s.task s.curtask).timeslice - 1 } := if_neg hgo
  obtain ⟨s', hs, hcur, hlinks, hslice⟩ := schedule_head (s := s.scheduleTick) (q := q') (t := s.curtask)
    (by rw [htick]; exact h.ring) (.inl (by rw [htick]; rfl))
  refine ⟨s', hs, ?_, by rw [hcur]; rfl, ?_⟩
  · rw [hlinks, htick]
    exact h.ring
  · intro t ht
    rw [hslice, htick, hcur]
    by_cases e : t = s.curtask
    · rw [e, setTask_self, if_pos rfl, h.left_eq]
    · rw [setTask_of_ne _ _ e, h.slice t ht, if_neg e, if_neg e]

theorem tick_turn (h : Turn s q 1) : ∃ s', s.trap .tick = some s' ∧ Turn s' (q.rotate 1) 3 := by
  obtain ⟨q', rfl⟩ := h.exists_cons
  have hdone : (s.task s.curtask).timeslice - 1 ≤ 0 := by rw [h.left_eq]; decide
  have htick : s.scheduleTick = ((s.setTask s.curtask { s.task s.curtask with
      timeslice := 3, needResched := true }).scheduleDeleteTask s.curtask).scheduleAddTask s.curtask := if_pos hdone
  have hhead : s.curtask ≠ rqHead := by
    have hnd := Rings.nodup h.ring () trivial
    exact fun e => (nodup_cons.mp hnd).1 (e ▸ mem_cons_self ..)
  have hring : IsQueue s.scheduleTick.links (q' ++ [s.curtask]) := by
    have hdel := h.ring.del (mem_cons_self ..)
    rw [erase_cons_head] at hdel
    rw [htick]
    exact hdel.add (nodup_cons.mp h.ring.nodup).1 hhead
  have hflag : (s.scheduleTick.task s.scheduleTick.curtask).needResched = true := by
    rw [htick]
    exact congrArg Task.needResched (setTask_self ..)
  have hthree : ∀ t ∈ s.curtask :: q', (s.scheduleTick.task t).timeslice = 3 := by
    intro t ht
    rw [htick]
    by_cases e : t = s.curtask
    · rw [e]
      exact congrArg Task.timeslice (setTask_self ..)
    · apply Eq.trans (congrArg Task.timeslice (setTask_of_ne _ _ e))
      rw [h.slice t ht, if_neg e]
  rw [rotate_cons_succ, rotate_zero]
  obtain ⟨t, q, e⟩ := exists_cons_of_ne_nil (append_ne_nil_of_right_ne_nil q' (cons_ne_nil s.curtask []))
  rw [e] at hring ⊢
  obtain ⟨s', hs, hcur, hlinks, hslice⟩ := schedule_head hring (.inr hflag)
  refine ⟨s', hs, hlinks ▸ hring, by rw [hcur]; rfl, ?_⟩
  intro a ha
  rw [hslice, ite_self]
  apply hthree
  rw [← e] at ha
  simpa [or_comm] using ha

/-! ## The run -/

theorem tick_step {i : Nat} (h : Turn s (q.rotate (i / 3)) (3 - (i % 3 : Nat))) :
    ∃ s', s.trap .tick = some s' ∧ Turn s' (q.rotate ((i + 1) / 3)) (3 - ((i + 1) % 3 : Nat)) := by
  by_cases hi : i % 3 = 2
  · have hq : (i + 1) / 3 = i / 3 + 1 := by omega
    have hr : (i + 1) % 3 = 0 := by omega
    rw [hi] at h
    rw [hq, hr, ← rotate_rotate]
    exact tick_turn h
  · have hq : (i + 1) / 3 = i / 3 := by omega
    have hr : (i + 1) % 3 = i % 3 + 1 := by omega
    rw [hq, hr, Int.natCast_add, ← Int.sub_sub]
    exact tick_stay h (by omega)

theorem ticks_turn (h : Turn s q 3) : ∀ i, ∃ s', s.ticks i = some s' ∧ Turn s' (q.rotate (i / 3))
    (3 - (i % 3 : Nat)) := by
  intro i
  induction i with
  | zero => exact ⟨s, rfl, by simpa using h⟩
  | succ i ih =>
    obtain ⟨s₁, h₁, ht⟩ := ih
    obtain ⟨s', h', ht'⟩ := tick_step ht
    exact ⟨s', by rw [ticks, h₁]; exact h', ht'⟩

theorem ticks_curtask (h : Turn s q 3) (i : Nat) : (s.ticks i).map Sched.curtask = q[i / 3 % q.length]? := by
  obtain ⟨s', hs, ht⟩ := ticks_turn h i
  obtain ⟨q', rfl⟩ := h.exists_cons
  rw [hs, Option.map_some, ← ht.head, ← rotate_mod, head?_rotate]
  exact Nat.mod_lt _ (Nat.succ_pos _)

end Sched

theorem card_thirds {n k : Nat} (hk : k < n) (i : Nat) :
    ((Finset.Ico i (i + 3 * n)).filter fun j => j / 3 % n = k).card = 3 := by
  have hper : Function.Periodic (fun j => j / 3 % n = k) (3 * n) := by
    intro j
    dsimp only
    rw [Nat.add_mul_div_left _ _ (by decide), Nat.add_mod_right]
  rw [Nat.filter_Ico_card_eq_of_periodic i (3 * n) _ hper, Nat.count_eq_card_filter_range]
  have hthree : (Finset.range (3 * n)).filter (fun j => j / 3 % n = k) = Finset.Ico (3 * k) (3 * k + 3) := by
    ext j
    rw [Finset.mem_filter, Finset.mem_range, Finset.mem_Ico]
    constructor
    · rintro ⟨hj, e⟩
      rw [Nat.mod_eq_of_lt (by omega)] at e
      omega
    · intro hj
      have hdiv : j / 3 = k := by omega
      rw [hdiv]
      exact ⟨by omega, Nat.mod_eq_of_lt hk⟩
  rw [hthree, Nat.card_Ico, Nat.add_sub_cancel_left]

/-- After any number of timer interrupts the head of the queue runs and the queue is a
rotation of the first one; a window of three interrupts for each task gives each task
three. -/
theorem round_robin {s : Sched} {q : List Nat} (hq : IsQueue s.links q) (hc : q.head? = some s.curtask)
    (h3 : ∀ t ∈ q, (s.task t).timeslice = 3) :
    (∀ i, ∃ s' q', s.ticks i = some s' ∧ q' ~r q ∧ IsQueue s'.links q' ∧ q'.head? = some s'.curtask) ∧
    ∀ i, ∀ t ∈ q, ((Finset.Ico i (i + 3 * q.length)).filter
      fun j => (s.ticks j).map Sched.curtask = some t).card = 3 := by
  have hturn : s.Turn q 3 := ⟨hq, hc, fun t ht => by rw [h3 t ht, ite_self]⟩
  constructor
  · intro i
    obtain ⟨s', hs, ht⟩ := s.ticks_turn hturn i
    have hrot : q ~r q.rotate (i / 3) := ⟨i / 3, rfl⟩
    exact ⟨s', _, hs, hrot.symm, ht.ring, ht.head⟩
  · intro i t ht
    obtain ⟨k, hk, rfl⟩ := getElem_of_mem ht
    have hcur : ∀ j, (s.ticks j).map Sched.curtask = some q[k] ↔ j / 3 % q.length = k := by
      intro j
      rw [s.ticks_curtask hturn, ← getElem?_eq_getElem hk]
      exact getElem?_inj (Nat.mod_lt _ (Nat.zero_lt_of_lt hk)) hq.nodup
    simp only [hcur]
    exact card_thirds hk i

def twoTasks : Sched :=
  { blankSched with
    links := ((blankSched.links.initListHead rqHead).listAddTail 16 rqHead).listAddTail 32 rqHead
    task := fun _ => { blankTask with timeslice := 3 }
    curtask := 16 }

theorem round_robin_two : twoTasks.curtask = 16 ∧ ((Finset.Ico 1 7).filter
    fun j => (twoTasks.ticks j).map Sched.curtask = some 32).card = 3 := by
  have hq : IsQueue twoTasks.links [16, 32] :=
    ((IsQueue.init _).add (by decide) (by decide)).add (by decide) (by decide)
  exact ⟨rfl, (round_robin hq rfl fun _ _ => rfl).2 1 32 (by decide)⟩

end MiniOS
