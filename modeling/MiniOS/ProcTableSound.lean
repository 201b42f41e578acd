import MiniOS.ProcTable
import MiniOS.SchedSound

/-! # Parents, children and pids -/

namespace MiniOS

open Function List

/-! ## Pids -/

structure PidsOk (c : Sched) (m : Pidmap) : Prop where
  nodup : c.live.Nodup
  proper : ∀ t ∈ c.live, t ≠ 0
  pid : ∀ t ∈ c.live, ∃ i : Nat, (c.task t).pid = i ∧ i < bitsPerPage ∧ c.pidmap i = t ∧ m.used i = true
  table : ∀ i : Nat, i < bitsPerPage → c.pidmap i ≠ 0 → c.pidmap i ∈ c.live ∧ (c.task (c.pidmap i)).pid = i
  nrFree : m.nrFree < 2 ^ 32

namespace PidsOk

variable {c c' : Sched} {m m' : Pidmap} {t i : Nat}

theorem of_free (h : PidsOk c m) (hi : i < bitsPerPage) (hu : m.used i = false) : c.pidmap i = 0 := by
  refine Classical.byContradiction fun hz => ?_
  obtain ⟨hl, hp⟩ := h.table i hi hz
  obtain ⟨j, hj, -, -, hju⟩ := h.pid _ hl
  rw [Int.ofNat.inj (hp.symm.trans hj), hju] at hu
  cases hu

theorem inj (h : PidsOk c m) {a b : Nat} (ha : a ∈ c.live) (hb : b ∈ c.live) (e : (c.task a).pid = (c.task b).pid) :
    a = b := by
  obtain ⟨i, hi, -, hmi, -⟩ := h.pid a ha
  obtain ⟨j, hj, -, hmj, -⟩ := h.pid b hb
  have : i = j := Int.ofNat.inj (hi.symm.trans (e.trans hj))
  rw [← hmi, this, hmj]

theorem kept (h : PidsOk c m) (hlive : c'.live = c.live) (hmap : c'.pidmap = c.pidmap)
    (hpid : ∀ a ∈ c.live, (c'.task a).pid = (c.task a).pid) (hused : ∀ i, m'.used i = m.used i)
    (hn : m'.nrFree < 2 ^ 32) : PidsOk c' m' where
  nodup := hlive ▸ h.nodup
  proper := hlive ▸ h.proper
  pid a ha := by
    rw [hlive] at ha
    rw [hpid a ha, hmap]
    obtain ⟨i, h₁, h₂, h₃, h₄⟩ := h.pid a ha
    exact ⟨i, h₁, h₂, h₃, (hused i).trans h₄⟩
  table i hi hz := by
    rw [hmap] at hz ⊢
    obtain ⟨h₁, h₂⟩ := h.table i hi hz
    rw [hlive, hpid _ h₁]
    exact ⟨h₁, h₂⟩
  nrFree := hn

theorem born (h : PidsOk c m) (ht : t ≠ 0) (htl : t ∉ c.live) (hi : i < bitsPerPage) (hu : m.used i = false)
    (hlive : c'.live = t :: c.live) (hmap : c'.pidmap = update c.pidmap i t) (hpid : (c'.task t).pid = i)
    (hother : ∀ a ∈ c.live, (c'.task a).pid = (c.task a).pid)
    (hused : ∀ j, m'.used j = if j = i then true else m.used j) (hn : m'.nrFree < 2 ^ 32) : PidsOk c' m' := by
  have hmem : ∀ {a}, a ∈ c'.live → a = t ∨ a ∈ c.live := fun ha => mem_cons.mp (hlive ▸ ha)
  have hne : ∀ {j : Nat}, j ≠ i → (j : Int) ≠ i := fun hj e => hj (Int.ofNat.inj e)
  refine ⟨hlive ▸ nodup_cons.mpr ⟨htl, h.nodup⟩, fun a ha => ?_, fun a ha => ?_, fun j hj hz => ?_, hn⟩
  · rcases hmem ha with rfl | ha
    · exact ht
    · exact h.proper a ha
  · rcases hmem ha with rfl | ha
    · exact ⟨i, hpid, hi, by rw [hmap, update_self], by rw [hused, if_pos rfl]⟩
    · obtain ⟨j, h₁, h₂, h₃, h₄⟩ := h.pid a ha
      have hj : j ≠ i := fun e => by
        rw [e, hu] at h₄
        cases h₄
      exact ⟨j, (hother a ha).trans h₁, h₂, by rw [hmap, update_of_ne (hne hj), h₃], by rw [hused, if_neg hj, h₄]⟩
  · rw [hmap] at hz ⊢
    by_cases e : j = i
    · rw [e, update_self, hlive]
      exact ⟨mem_cons_self .., hpid⟩
    · rw [update_of_ne (hne e)] at hz ⊢
      obtain ⟨h₁, h₂⟩ := h.table j hj hz
      rw [hlive, hother _ h₁]
      exact ⟨mem_cons_of_mem _ h₁, h₂⟩

theorem gone (h : PidsOk c m) (ht : t ∈ c.live) (hpid : (c.task t).pid = i) (hlive : c'.live = c.live.erase t)
    (hmap : c'.pidmap = update c.pidmap i 0) (hother : ∀ a ∈ c'.live, (c'.task a).pid = (c.task a).pid)
    (hused : ∀ j, m'.used j = if j = i then false else m.used j) (hn : m'.nrFree < 2 ^ 32) : PidsOk c' m' := by
  have hmem : ∀ {a}, a ∈ c'.live → a ≠ t ∧ a ∈ c.live := fun ha => h.nodup.mem_erase_iff.mp (hlive ▸ ha)
  have hne : ∀ {j : Nat}, j ≠ i → (j : Int) ≠ i := fun hj e => hj (Int.ofNat.inj e)
  refine ⟨hlive ▸ h.nodup.erase t, fun a ha => h.proper a (hmem ha).2, fun a ha => ?_, fun j hj hz => ?_, hn⟩
  · obtain ⟨hat, hal⟩ := hmem ha
    obtain ⟨j, h₁, h₂, h₃, h₄⟩ := h.pid a hal
    have hj : j ≠ i := fun e => hat (h.inj hal ht (by rw [h₁, e, hpid]))
    exact ⟨j, (hother a ha).trans h₁, h₂, by rw [hmap, update_of_ne (hne hj), h₃], by rw [hused, if_neg hj, h₄]⟩
  · rw [hmap] at hz ⊢
    by_cases e : j = i
    · rw [e, update_self] at hz
      exact absurd rfl hz
    · rw [update_of_ne (hne e)] at hz ⊢
      obtain ⟨h₁, h₂⟩ := h.table j hj hz
      have hin : c.pidmap j ∈ c'.live := by
        rw [hlive]
        refine h.nodup.mem_erase_iff.mpr ⟨fun e' => hne e ?_, h₁⟩
        rw [← h₂, e', hpid]
      exact ⟨hin, (hother _ hin).trans h₂⟩

end PidsOk

/-! ## What a kernel entry does to the table -/

namespace Procs

variable {s s' : Procs} {op : ProcOp} {t i : Nat}

inductive Change (s : Procs) (op : ProcOp) (s' : Procs) : Prop
  | same (h : SameTable s.sched s'.sched) (hu : ∀ i, s'.map.used i = s.map.used i) (hn : s'.map.nrFree < 2 ^ 32)
  | born (t i : Nat) (a : Task) (hop : op.creates = true) (ht : t ≠ 0) (htl : t ∉ s.sched.live) (hi : s.map.Next i)
      (hpid : a.pid = i) (hppid : a.ppid = (s.sched.task s.sched.curtask).pid)
      (h : SameTable (s.sched.enrol t a (s.sched.uid s.sched.curtask)) s'.sched)
      (hu : ∀ j, s'.map.used j = if j = i then true else s.map.used j) (hn : s'.map.nrFree < 2 ^ 32)
  | gone (t i : Nat) (ht : t ∈ s.sched.live) (hpid : (s.sched.task t).pid = i)
      (h : SameTable (s.sched.exitTask t) s'.sched)
      (hu : ∀ j, s'.map.used j = if j = i then false else s.map.used j) (hn : s'.map.nrFree < 2 ^ 32)

theorem Change.pids (h : PidsOk s.sched s.map) (hc : s.Change op s') : PidsOk s'.sched s'.map := by
  cases hc with
  | same hs hu hn => exact h.kept hs.live hs.pidmap hs.pid hu hn
  | born t i a _ ht htl hi hpid _ hs hu hn =>
    have hself := s.sched.enrol_task_self t a (s.sched.uid s.sched.curtask)
    refine h.born ht htl hi.2.1 hi.2.2.1 hs.live ?_ ?_ (fun b hb => ?_) hu hn
    · rw [hs.pidmap, ← hpid]
      rfl
    · rw [hs.pid t (mem_cons_self ..), hself, hpid]
    · rw [hs.pid b (mem_cons_of_mem _ hb)]
      exact congrArg Task.pid (Sched.enrol_task_of_mem htl hb)
  | gone t i ht hpid hs hu hn =>
    have hi : (0 : Int) ≤ (s.sched.task t).pid := hpid ▸ Int.natCast_nonneg i
    refine h.gone ht hpid hs.live ?_ (fun b hb => ?_) hu hn
    · rw [hs.pidmap, ← hpid]
      exact if_pos hi
    · rw [hs.live] at hb
      exact hs.pid b hb

structure Ok (s : Procs) : Prop where
  pids : PidsOk s.sched s.map
  bits : ∀ j : Nat, j < bitsPerPage → s.map.used j = s.sched.used j

theorem Change.ok (h : s.Ok) (hc : s.Change op s') : s'.Ok := by
  refine ⟨hc.pids h.pids, fun j hj => ?_⟩
  have hupd (b : Bool) (i : Nat) : (if j = i then b else s.map.used j) = update s.sched.used i b j := by
    by_cases e : j = i
    · rw [if_pos e, e, update_self]
    · have e' : (j : Int) ≠ i := fun h => e (Int.ofNat.inj h)
      rw [if_neg e, update_of_ne e', h.bits j hj]
  cases hc with
  | same hs hu _ => rw [hu, hs.used, h.bits j hj]
  | born t i a _ _ _ _ hpid _ hs hu _ =>
    rw [hu, hs.used, hupd, ← hpid]
    rfl
  | gone t i _ hpid hs hu _ =>
    have hi : (0 : Int) ≤ (s.sched.task t).pid := hpid ▸ Int.natCast_nonneg i
    rw [hu, hs.used, hupd, ← hpid]
    exact congrFun (if_pos hi).symm _

theorem next_of_alloc {m m' : Pidmap} {r : Int} (h : m.allocPidmap = (r, m')) (hr : ¬ r < 0) :
    ∃ i : Nat, r = i ∧ m.Next i ∧ (∀ j, m'.used j = if j = i then true else m.used j) ∧ m'.nrFree < 2 ^ 32 := by
  rcases Pidmap.allocPidmap_cases h with ⟨rfl, -⟩ | ⟨i, rfl, hi, hf, hall, hu, -, hn, -, hused⟩
  · exact absurd (by decide) hr
  · exact ⟨i, rfl, ⟨hf, hi, hu, hall⟩, hused, hn ▸ wrap_lt _⟩

theorem resolve_fork {ok : Bool} {o : SchedOp} {m : Pidmap} (h : s.resolve (.fork t ok) = some (o, m)) :
    (o = .other ∧ m = s.map) ∨ ∃ i : Nat, s.map.Next i ∧ o = .fork t i ok ∧ m.nrFree < 2 ^ 32 ∧
      ∀ j, m.used j = if j = i then ok else s.map.used j := by
  cases hp : s.map.allocPidmap with | mk pid map
  unfold resolve at h
  rw [hp] at h
  dsimp only at h
  split at h
  · next hneg =>
    cases h
    rcases Pidmap.allocPidmap_cases hp with ⟨-, rfl, -⟩ | ⟨i, rfl, -⟩
    · exact .inl ⟨rfl, rfl⟩
    · omega
  · next hpos =>
    obtain ⟨i, rfl, hi, hused, hn⟩ := next_of_alloc hp hpos
    cases h
    cases ok with
    | true => exact .inr ⟨i, hi, rfl, hn, hused⟩
    | false =>
      refine .inr ⟨i, hi, rfl, wrap_lt _, fun j => ?_⟩
      show (map.freePidmap i).used j = _
      rw [Pidmap.freePidmap_used hi.2.1, hused]
      split
      · rfl
      · rfl

theorem resolve_execve {old : Task} {o : SchedOp} {m : Pidmap} (h : s.resolve (.execve t old) = some (o, m)) :
    ∃ i : Nat, s.map.Next i ∧ o = .execve t old i ∧ m.nrFree < 2 ^ 32 ∧
    ∀ j, m.used j = if j = i then true else s.map.used j := by
  cases hp : s.map.allocPidmap with | mk pid map
  unfold resolve at h
  rw [hp] at h
  dsimp only at h
  split at h
  · cases h
  · next hpos =>
    obtain ⟨i, rfl, hi, hused, hn⟩ := next_of_alloc hp hpos
    cases h
    exact ⟨i, hi, rfl, hn, hused⟩

theorem exit_change {c : Sched} (h : s.Ok) (ht : t ∈ s.sched.live) (he : SameTable (s.sched.exitTask t) c) :
    s.Change op ⟨c, s.map.freePidmap (s.sched.task t).pid⟩ := by
  obtain ⟨i, hpid, hi, -⟩ := h.pids.pid t ht
  exact .gone t i ht hpid he (fun j => by rw [hpid, Pidmap.freePidmap_used hi]) (wrap_lt _)

theorem target_live {pid : Int} (h : s.Ok) (hc : s.sched.curtask ∈ s.sched.live) (h₀ : 0 ≤ pid)
    (h₁ : pid < pidMaxDefault)
    (hp : s.sched.pid2task pid = some t) : t ∈ s.sched.live ∧ t = s.sched.target pid := by
  unfold Sched.target
  rcases Sched.pid2task_cases hp with ⟨hz, rfl⟩ | ⟨hz, rfl, ht, -⟩
  · exact ⟨hc, (if_pos hz).symm⟩
  · refine ⟨?_, (if_neg hz).symm⟩
    lift pid to Nat using h₀
    unfold pidMaxDefault at h₁
    exact (h.pids.table pid (by unfold bitsPerPage; omega) ht).1

theorem trap_change (h : s.Ok) (ha : s.Allowed op) (hc : s.sched.curtask ∈ s.sched.live)
    (htrap : s.trap op = some s') : s.Change op s' := by
  obtain ⟨⟨o, m⟩, hr, htrap⟩ := Option.bind_eq_some_iff.mp htrap
  obtain ⟨c, hs, rfl⟩ := Option.map_eq_some_iff.mp htrap
  rw [Sched.trap_eq] at hs
  obtain ⟨c₁, hs, hsched⟩ := Option.bind_eq_some_iff.mp hs
  have hsched := (Sched.schedule_same hsched).1
  have hkeep (h₁ : SameTable s.sched c₁) : s.Change op ⟨c, s.map⟩ :=
    .same (h₁.trans hsched) (fun _ => rfl) h.pids.nrFree
  cases op with
  | tick =>
    cases hr
    cases hs
    exact hkeep (Sched.scheduleTick_sameTable _)
  | wait pid =>
    cases hr
    rcases Sched.handle_wait hs with rfl | ⟨-, -, -, -, rfl⟩
    · exact hkeep (.refl _)
    · exact hkeep (Sched.sleepOn_sameTable ..)
  | other =>
    cases hr
    cases hs
    exact hkeep (.refl _)
  | fault =>
    cases hr
    exact exit_change h hc ((Sched.leave_sameTable hs).trans hsched)
  | exit pid =>
    cases hr
    obtain ⟨t, hp, h₀, h₁, hs⟩ := Sched.handle_exit hs
    obtain ⟨htl, e⟩ := target_live h hc h₀ h₁ hp
    rw [← e]
    exact exit_change h htl ((Sched.leave_sameTable hs).trans hsched)
  | fork t ok =>
    obtain ⟨ht, -, htl⟩ := ha
    rcases resolve_fork hr with ⟨rfl, rfl⟩ | ⟨i, hi, rfl, hn, hused⟩
    · -- without a pid there is nothing to do
      cases hs
      exact hkeep (.refl _)
    · cases hs
      cases ok with
      | true => exact .born t i ⟨i, _, .running, 3, false, 0⟩ rfl ht htl hi rfl rfl hsched hused hn
      | false =>
        have hz := h.pids.of_free hi.2.1 hi.2.2.1
        have hu : s.sched.used i = false := (h.bits i hi.2.1).symm.trans hi.2.2.1
        obtain ⟨f, hf, e⟩ := Sched.doFork_false (Int.natCast_nonneg i) htl hz hu
        rw [e] at hsched
        refine .same (SameTable.trans (.of_same fun a ha => hf a ha ▸ .rfl) hsched) (fun j => ?_) hn
        rw [hused]
        split
        · next e => rw [e, hi.2.2.1]
        · rfl
  | execve t old =>
    obtain ⟨ht, -, htl⟩ := ha
    obtain ⟨i, hi, rfl, hn, hused⟩ := resolve_execve hr
    cases hs
    exact .born t i
      { old with pid := i, ppid := _, taskStatus := .running, timeslice := 3 } rfl ht htl hi rfl rfl hsched hused hn

/-! ## Parents -/

def Parents (c : Sched) : Prop := ∀ t ∈ c.live, ∀ a ∈ c.live, (c.task t).ppid = (c.task a).pid →
    c.creator t = c.uid a

theorem Parents.same {c c' : Sched} (h : Parents c) (hs : SameTable c c') : Parents c' := fun t ht a ha e => by
  rw [hs.live] at ht ha
  rw [hs.ppid t ht, hs.pid a ha] at e
  rw [hs.creator, hs.uid]
  exact h t ht a ha e

theorem Change.parents (h : s.Ok) (hp : Parents s.sched) (hn : s.NoReuse op) (hc : s.Change op s') :
    Parents s'.sched := by
  cases hc with
  | same hs _ _ => exact hp.same hs
  | gone t i ht hpid hs _ _ =>
    refine Parents.same (c := s.sched.exitTask t) (fun b hb a ha e => ?_) hs
    exact hp b (mem_of_mem_erase hb) a (mem_of_mem_erase ha) e
  | born t i a hop ht htl hi hpid hppid hs _ _ =>
    have hself := s.sched.enrol_task_self t a (s.sched.uid s.sched.curtask)
    have hne : ∀ {b}, b ∈ s.sched.live → b ≠ t := fun hb e => htl (e ▸ hb)
    have hother {b : Nat} (hb : b ∈ s.sched.live) :=
      Sched.enrol_task_of_mem (a := a) (c := s.sched.uid s.sched.curtask) htl hb
    refine Parents.same (c := s.sched.enrol t a (s.sched.uid s.sched.curtask)) (fun b hb d hd e => ?_) hs
    show update s.sched.creator t _ b = update s.sched.uid t _ d
    rcases mem_cons.mp hb with rfl | hb
    · rw [hself, hppid] at e
      rw [update_self]
      rcases mem_cons.mp hd with rfl | hd
      · -- the pid of the new task was free
        rw [hself, hpid] at e
        obtain ⟨j, hj, -, -, hju⟩ := h.pids.pid _ hn.1
        rw [Int.ofNat.inj (hj.symm.trans e), hi.2.2.1] at hju
        cases hju
      · rw [hother hd] at e
        rw [update_of_ne (hne hd), h.pids.inj hn.1 hd e]
    · rw [hother hb] at e
      rw [update_of_ne (hne hb)]
      rcases mem_cons.mp hd with rfl | hd
      · rw [hself, hpid] at e
        exact absurd e (hn.2 hop i hi b hb)
      · rw [hother hd] at e
        rw [update_of_ne (hne hd)]
        exact hp b hb d hd e

theorem Parents.authority (h : s.Ok) (hp : Parents s.sched) (hc : s.sched.curtask ∈ s.sched.live) :
    s.sched.Authority where
  exit pid t hne h₀ h₁ ht := by
    rcases Sched.pid2task_cases ht with ⟨hz, -⟩ | ⟨-, -, -, hcase⟩
    · exact absurd hz hne
    · exact hcase.imp id (hp t (target_live h hc h₀ h₁ ht).1 _ hc)
  wait pid t hne hf := by
    obtain ⟨h₀, h₁, hm, ht, e⟩ := hf
    lift pid to Nat using h₀
    have hpid : pid < bitsPerPage := by
      unfold pidMaxDefault at h₁ hne
      unfold bitsPerPage
      omega
    exact hp t (hm ▸ (h.pids.table pid hpid (hm ▸ ht)).1) _ hc e

theorem start_alloc : ∃ m, Pidmap.start.allocPidmap = (0, m) ∧ m.nrFree = bitsPerPage - 1 ∧ m.lastPid = 0 ∧
    ∀ j, m.used j = decide (j = 0) := by
  have hf : ∀ j, Pidmap.start.used j = false := fun j => by simp [Pidmap.used, Pidmap.start, pageBit]
  obtain ⟨m, hm, hn, hl, hused⟩ := Pidmap.allocPidmap_first (m := Pidmap.start) (by decide) (hf _)
  refine ⟨m, hm, hn.trans (by decide), hl, fun j => ?_⟩
  rw [hused, hf]
  by_cases e : j = 0
  · rw [e]
    rfl
  · rw [decide_eq_false e]
    exact if_neg e

theorem boot_ok {c : Sched} {old : Task} (hb : c.Blank) (ht : t ≠ 0) (h : boot c t old = some s') :
    s'.Ok ∧ Parents s'.sched := by
  obtain ⟨c', hs, rfl⟩ := Option.map_eq_some_iff.mp h
  obtain ⟨m, hm, hn, -, hused⟩ := start_alloc
  rw [hm]
  obtain ⟨hlive, hpid, hppid, -⟩ := Sched.boot_task hb hs
  have hs := (Sched.schedule_same hs).1
  have hmem : ∀ {a}, a ∈ c'.live → a = t := fun ha => mem_singleton.mp (hlive ▸ ha)
  have hpidmap : c'.pidmap = update c.pidmap (0 : Nat) t := hs.pidmap
  have hused' : c'.used = update c.used (0 : Nat) true := hs.used
  have hcast : ∀ {j : Nat}, j ≠ 0 → (j : Int) ≠ (0 : Nat) := fun hj e => hj (Int.ofNat.inj e)
  refine ⟨⟨⟨?_, fun a ha => hmem ha ▸ ht, fun a ha => ?_, fun i hi hz => ?_, by rw [hn]; decide⟩, fun j _ => ?_⟩,
    fun a ha b hb' e => ?_⟩
  · show c'.live.Nodup
    rw [hlive]
    exact nodup_singleton t
  · rw [hmem ha]
    exact ⟨0, hpid, by decide, by rw [hpidmap, update_self], by rw [hused]; rfl⟩
  · show c'.pidmap i ∈ c'.live ∧ (c'.task (c'.pidmap i)).pid = i
    have hz : c'.pidmap i ≠ 0 := hz
    rw [hpidmap] at hz ⊢
    by_cases e : i = 0
    · rw [e, update_self, hlive]
      exact ⟨mem_singleton_self t, hpid⟩
    · rw [update_of_ne (hcast e)] at hz
      refine absurd (hb.pidmap i (Int.natCast_nonneg i) ?_) hz
      unfold bitsPerPage at hi
      unfold pidMaxDefault
      omega
  · rw [hused]
    rw [hused']
    by_cases e : j = 0
    · rw [e, update_self]
      rfl
    · rw [update_of_ne (hcast e), hb.used, decide_eq_false e]
  · have e : (c'.task a).ppid = (c'.task b).pid := e
    rw [hmem ha, hmem hb', hpid, hppid] at e
    cases e

end Procs

end MiniOS
