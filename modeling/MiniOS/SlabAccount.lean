import MiniOS.SlabSound

/-!
# Counters, lists and reclamation of slabs

What `inuse`, `npartial`, `nslub`, the partial lists and `_pg_active` say in the
states between two calls, that no assertion of the slab allocator fails there,
and that a slab goes back to the page allocator with its last object.
-/

namespace MiniOS

open Function List Option Relation SlabState

structure SlabAccount (s : SlabState) (pl : Cache → List Nat) (free : Nat → List Nat) : Prop where
  freelist : ∀ p ∈ outstanding s.log, Chain (link (s.page p).slab s.mem) 0 (s.page p).freelist (free p)
  inuse : ∀ p ∈ outstanding s.log, (s.page p).inuse + (free p).length = (s.page p).slab.objects
  ring : ∀ c, Ring s.links.next s.links.prev (.node c) ((pl c).map .page)
  once : ∀ c, (pl c).Nodup
  listed : ∀ c p, p ∈ pl c ↔
    p ∈ outstanding s.log ∧ (s.page p).slab = c ∧ (s.page p).pgActive = false ∧ free p ≠ []
  frozen : ∀ p ∈ outstanding s.log, (s.page p).pgActive = true ↔ ∃ c k, (s.cpu c k).page = some p
  cpuPage : ∀ c k p, (s.cpu c k).page = some p → p ∈ outstanding s.log ∧ (s.page p).slab = c
  npartial : ∀ c, s.npartial c = (pl c).length
  nodup : (outstanding s.log).Nodup
  nslub : ∀ c, s.nslub c = ((outstanding s.log).filter fun p => (s.page p).slab = c).length

section
variable {s s' : SlabState} {view : Views} {pl : Cache → List Nat} {out : List (Nat × Nat)} {p o n : Nat}
  {v : SlabView} {c : Cache} {k : Cpu} {blk : Option Nat}

theorem SlabRep.frozen_iff (hr : SlabRep s view pl) (hv : view p = some v) :
    (s.page p).pgActive = true ↔ ∃ c k, (s.cpu c k).page = some p := by
  have hp := hr.pages p v hv
  constructor
  · intro h
    rw [hp.active, isSome_iff_exists] at h
    obtain ⟨k, hk⟩ := h
    exact ⟨v.cache, k, (hp.cpu k hk).1⟩
  · rintro ⟨c, k, h⟩
    obtain ⟨w, hw, -, hown, hq, -⟩ := hr.held h
    rw [hq.active, hown, isSome_some]

theorem SlabRep.account (hr : SlabRep s view pl) :
    SlabAccount s pl fun p => (view p).elim [] SlabView.free where
  freelist := by
    intro p hp
    obtain ⟨v, hv⟩ := (hr.live p).mp hp
    have h := hr.pages p v hv
    simp only [hv, elim_some, h.slab]
    exact h.chain
  inuse := by
    intro p hp
    obtain ⟨v, hv⟩ := (hr.live p).mp hp
    have h := hr.pages p v hv
    simp only [hv, elim_some, h.slab, h.inuse]
    omega
  ring c := hr.lists.rings.ring c trivial
  once := hr.lists.nodup
  listed := by
    intro c p
    rw [hr.lists.mem, hr.live]
    constructor
    · rintro ⟨v, hv, hc, hown, hf⟩
      have h := hr.pages p v hv
      exact ⟨⟨v, hv⟩, h.slab.trans hc, by rw [h.active, hown]; rfl, by simpa [hv] using hf⟩
    · rintro ⟨⟨v, hv⟩, hc, ha, hf⟩
      have h := hr.pages p v hv
      rw [h.active, isSome_eq_false_iff, isNone_iff_eq_none] at ha
      exact ⟨v, hv, h.slab.symm.trans hc, ha, by simpa [hv] using hf⟩
  frozen := by
    intro p hp
    obtain ⟨v, hv⟩ := (hr.live p).mp hp
    exact hr.frozen_iff hv
  cpuPage := by
    intro c k p h
    obtain ⟨v, hv, rfl, -, hp, -⟩ := hr.held h
    exact ⟨(hr.live p).mpr ⟨v, hv⟩, hp.slab⟩
  npartial := hr.lists.npartial
  nodup := hr.nodup
  nslub c := by rw [hr.nslub, countP_eq_length_filter]

theorem kmalloc_total (hi : SlabOk s out) (hb : BlockOk s blk) (hm : ∀ p ∈ blk, (s.page2virt p).isSome) :
    ∃ o s', s.kmalloc k n blk = some (o, s') := by
  obtain ⟨view, pl, hr, -⟩ := hi
  unfold kmalloc
  by_cases h₀ : n = 0
  · exact ⟨0, s, if_pos h₀⟩
  by_cases h₁ : pageSize < n
  · exact ⟨0, s, by rw [if_neg h₀, if_pos h₁]⟩
  rw [if_neg h₀, if_neg h₁]
  have hspec := slabAlloc_spec (c := sizeMap n) (k := k) hr hb
  cases hres : s.slabAlloc (sizeMap n) k blk with
  | some r => exact ⟨r.1, r.2, rfl⟩
  | none =>
    rw [hres] at hspec
    cases hspec with
    | panic hp hnone =>
      have := hm _ hp
      rw [hnone] at this
      cases this

/-- **Slab accounting.** The second and third part say that no assertion fails:
a call that trips one has no result. -/
theorem slab_account {s₀ s : SlabState} {out : List (Nat × Nat)}
    (hrun : ReflTransGen SlabStep (s₀.kmemCacheInit, []) (s, out)) :
    (∃ pl free, SlabAccount s pl free) ∧
    (∀ k n blk, BlockOk s blk → (∀ p ∈ blk, (s.page2virt p).isSome) → ∃ o s', s.kmalloc k n blk = some (o, s')) ∧
    ∀ k, ∀ o ∈ out, ∃ s', s.kfree k o.1 = some s' := by
  have hi : SlabOk s out := slabRun_ok hrun
  refine ⟨?_, fun k n blk => kmalloc_total hi, fun k o ho => ?_⟩
  · obtain ⟨view, pl, hr, -⟩ := hi
    exact ⟨pl, _, hr.account⟩
  · obtain ⟨l₁, l₂, rfl⟩ := append_of_mem ho
    obtain ⟨s', h, -⟩ := kfree_ok (k := k) hi
    exact ⟨s', h⟩

theorem slab_account_tiny : ∃ s, tinySlab.kmemCacheInit.kmalloc 0 100 (some 1024) = some (0xC0400000, s) ∧
    (∃ pl free, SlabAccount s pl free) ∧ ∃ s', s.kfree 1 0xC0400000 = some s' := by
  obtain ⟨s, h, hrun, -⟩ := tiny_run
  obtain ⟨hacc, -, hfree⟩ := slab_account hrun
  exact ⟨s, h, hacc, hfree 1 (0xC0400000, 100) (mem_singleton.mpr rfl)⟩

/-! ## Reclamation -/

inductive SlabEdit (s s' : SlabState) : Prop
  | same : s'.log = s.log → s'.page = s.page → SlabEdit s s'
  | page {p : Nat} : s'.log = s.log → (∀ q ≠ p, s'.page q = s.page q) → (s'.page p).slab = (s.page p).slab →
      ((s'.page p).pgActive = true ∨ (s'.page p).inuse ≠ 0) → SlabEdit s s'
  | alloc {p : Nat} : p ∉ outstanding s.log → s'.log = .alloc p slabOrder :: s.log →
      (∀ q ≠ p, s'.page q = s.page q) → (s'.page p).pgActive = true → SlabEdit s s'
  | free {p : Nat} : p ∈ outstanding s.log → s'.log = .free p slabOrder :: s.log →
      (∀ q ≠ p, s'.page q = s.page q) → (s'.page p).slab = (s.page p).slab → SlabEdit s s'

theorem deactivateSlab_edit (h : s.deactivateSlab c k p = some s') : s'.log = s.log ∧ SlabEdit s s' := by
  unfold deactivateSlab at h
  by_cases hcf : (s.cpu c k).freelist = 0
  · rw [if_neg (by rw [hcf]; simp)] at h
    unfold unfreezeSlab at h
    simp only [setPage_page_self] at h
    by_cases hin : (s.page p).inuse = 0
    · rw [if_neg (by simpa [setCpu] using hin)] at h; cases h
    · rw [if_pos (by simpa [setCpu] using hin), some.injEq] at h
      have hpage : s'.page = update s.page p { s.page p with pgActive := false } := by
        rw [← h]; split <;> rfl
      have hlog : s'.log = s.log := by
        rw [← h]; split <;> rfl
      refine ⟨hlog, .page hlog (fun q hq => by rw [hpage, update_of_ne hq]) ?_ (.inr ?_)⟩
      · rw [hpage, update_self]
      · rw [hpage, update_self]
        exact hin
  · rw [if_pos hcf] at h; cases h

theorem getPartialSlab_edit {r : Option Nat} (h : s.getPartialSlab c = some (r, s')) :
    s'.log = s.log ∧ SlabEdit s s' := by
  unfold getPartialSlab at h
  split at h
  · simp only [some.injEq, Prod.mk.injEq] at h
    obtain ⟨-, rfl⟩ := h
    exact ⟨rfl, .same rfl rfl⟩
  · split at h
    · simp only [some.injEq, Prod.mk.injEq] at h
      obtain ⟨-, rfl⟩ := h
      refine ⟨rfl, .page rfl (fun q hq => setPage_page_of_ne _ _ _ hq) ?_ (.inl ?_)⟩
      · rw [lockAndFreezeSlab, setPage_page_self]
      · rw [lockAndFreezeSlab, setPage_page_self]
    · split at h
      · simp only [some.injEq, Prod.mk.injEq] at h
        obtain ⟨-, rfl⟩ := h
        exact ⟨rfl, .same rfl rfl⟩
      · cases h

theorem loadSlab_edit (s : SlabState) (c : Cache) (k : Cpu) (p : Nat) : SlabEdit s (s.loadSlab c k p) := by
  refine .page rfl (fun q hq => setPage_page_of_ne _ _ _ hq) ?_ (.inr ?_)
  · rw [loadSlab, setPage_page_self]
  · rw [loadSlab, setPage_page_self]
    have := c.two_le_objects
    dsimp only
    omega

theorem page2virt_of_newSlab {r : Option Nat} (h : s.newSlab c (some p) = some (r, s')) :
    s.page2virt p = some (pageVirt p) := by
  cases hm : s.page2virt p with
  | none => simp [newSlab, pagesAlloc, hm] at h
  | some x => rw [(page2virt_eq_some.mp hm).2]

/-- A new slab is taken by the CPU, and its first object by the caller. -/
theorem newSlab_edits {s₁ : SlabState} (hout : p ∉ outstanding s.log) (hnew : NewSlab s s₁ c k p) {fuel : Nat}
    (h : slabAllocLoop c k blk fuel s₁ = some (o, s')) : ReflTransGen SlabEdit s s' := by
  cases fuel with
  | zero => cases h
  | succ fuel =>
    have hpg : (s₁.cpu c k).page = some p := by rw [hnew.cpu]
    rw [slabAllocLoop_load hpg hnew.freelist_ne, some.injEq, Prod.mk.injEq] at h
    rw [← h.2]
    have halloc : SlabEdit s s₁ := .alloc hout hnew.log hnew.pages (by rw [hnew.page])
    exact .head halloc (.single (loadSlab_edit ..))

theorem slabAllocLoop_edits : ∀ (fuel : Nat) {s : SlabState}, (∀ p ∈ blk, p ∉ outstanding s.log) →
    slabAllocLoop c k blk fuel s = some (o, s') → ReflTransGen SlabEdit s s'
  | 0, _, _, h => by cases h
  | fuel + 1, s, hb, h => by
    rw [slabAllocLoop] at h
    cases hpg : (s.cpu c k).page with
    | some p =>
      rw [hpg] at h
      by_cases hpf : (s.page p).freelist = 0
      · simp only [hpf, ne_eq, not_true_eq_false, if_false, bind_eq_bind, bind_eq_some_iff] at h
        obtain ⟨s₁, h₁, h₂⟩ := h
        obtain ⟨hlog, hedit⟩ := deactivateSlab_edit h₁
        exact .head hedit (slabAllocLoop_edits fuel (by rw [hlog]; exact hb) h₂)
      · simp only [hpf, ne_eq, not_false_eq_true, if_true, some.injEq, Prod.mk.injEq] at h
        rw [← h.2]
        exact .single (loadSlab_edit s c k p)
    | none =>
      rw [hpg] at h
      simp only [bind_eq_bind, bind_eq_some_iff] at h
      obtain ⟨⟨r, s₁⟩, h₁, h₂⟩ := h
      obtain ⟨hlog, hedit⟩ := getPartialSlab_edit h₁
      cases r with
      | some p =>
        have hrest := slabAllocLoop_edits fuel (fun q hq => by dsimp only [setCpu]; rw [hlog]; exact hb q hq) h₂
        -- the CPU's record is neither a page record nor a call
        have hcpu : SlabEdit s₁ (s₁.setCpu c k { s₁.cpu c k with page := some p }) := .same rfl rfl
        exact .head hedit (.head hcpu hrest)
      | none =>
        refine .head hedit ?_
        simp only [bind_eq_some_iff] at h₂
        obtain ⟨⟨r, s₂⟩, h₂, h₃⟩ := h₂
        cases blk with
        | none =>
          simp only [newSlab, pagesAlloc, bind_eq_bind, bind_some, Option.pure_def,
            some.injEq, Prod.mk.injEq] at h₂
          obtain ⟨rfl, rfl⟩ := h₂
          simp only [Option.pure_def, some.injEq, Prod.mk.injEq] at h₃
          rw [h₃.2]
        | some p =>
          rw [newSlab_eq (page2virt_of_newSlab h₂), some.injEq, Prod.mk.injEq] at h₂
          obtain ⟨rfl, rfl⟩ := h₂
          exact newSlab_edits (by rw [hlog]; exact hb p rfl) (newSlab_state rfl rfl) h₃

theorem kmalloc_edits (hb : BlockOk s blk) (h : s.kmalloc k n blk = some (o, s')) :
    ReflTransGen SlabEdit s s' := by
  unfold kmalloc at h
  split at h
  · rw [some.injEq, Prod.mk.injEq] at h
    rw [h.2]
  split at h
  · rw [some.injEq, Prod.mk.injEq] at h
    rw [h.2]
  unfold slabAlloc at h
  split at h
  · refine slabAllocLoop_edits 3 (fun p hp hout => ?_) h
    have := (hb p hp).2 p hout
    have := Nat.two_pow_pos slabOrder
    omega
  · rw [some.injEq, Prod.mk.injEq] at h
    rw [← h.2]
    exact .single (.same rfl rfl)

theorem slabFreeSlow_edit (hp : p ∈ outstanding s.log) (h : s.slabFreeSlow c p o = some s') : SlabEdit s s' := by
  have hother : ∀ q ≠ p, (s.pushFree c p o).page q = s.page q := fun q hq => setPage_page_of_ne _ _ _ hq
  have hself : (s.pushFree c p o).page p = { s.page p with freelist := o, inuse := (s.page p).inuse - 1 } :=
    setPage_page_self ..
  have hslab : ((s.pushFree c p o).page p).slab = (s.page p).slab := by rw [hself]
  rw [slabFreeSlow_eq] at h
  split at h
  next hact =>
    rw [← some.inj h]
    exact .page rfl hother hslab (.inl (by rw [hself]; exact hact))
  split at h
  · rw [← some.inj h]
    split
    · exact .free hp rfl hother hslab
    · exact .free hp rfl hother hslab
  next hin =>
    have hne : ((s.pushFree c p o).page p).inuse ≠ 0 := by rw [hself]; exact hin
    split at h
    · split at h
      · rw [← some.inj h]
        exact .page rfl hother hslab (.inr hne)
      · cases h
    · rw [← some.inj h]
      exact .page rfl hother hslab (.inr hne)

theorem kfree_edit (hp : slabPfn o ∈ outstanding s.log) (h : s.kfree k o = some s') : SlabEdit s s' := by
  unfold kfree at h
  split at h
  · rw [← some.inj h]
    exact .same rfl rfl
  rw [bind_eq_some_iff] at h
  obtain ⟨p, hg, h⟩ := h
  obtain rfl := slabPfn_of_getSlab hg
  unfold slabFree at h
  split at h
  · rw [← some.inj h]
    exact .same rfl rfl
  split at h
  · rw [← some.inj h]
    exact .same rfl rfl
  · exact slabFreeSlow_edit hp h

def Busy (s : SlabState) : Prop :=
  ∀ p ∈ outstanding s.log, (s.page p).pgActive = false → (s.page p).inuse ≠ 0

def PagesCall.block : PagesCall → Nat
  | .alloc p _ => p
  | .free p _ => p

def callsOn (p : Nat) (log : List PagesCall) : List PagesCall := log.filter fun call => call.block = p

inductive Returned (p : Nat) : List PagesCall → Prop
  | nil : Returned p []
  | cons {order : Nat} {log : List PagesCall} : Returned p log → Returned p (.free p order :: .alloc p order :: log)

/-- A block is outstanding after an allocation with `slabOrder` that follows
returned ones; the others are returned. -/
structure Settled (log : List PagesCall) : Prop where
  nodup : (outstanding log).Nodup
  held : ∀ p ∈ outstanding log, ∃ old, callsOn p log = .alloc p slabOrder :: old ∧ Returned p old
  returned : ∀ p, p ∉ outstanding log → Returned p (callsOn p log)

theorem SlabEdit.busy (h : SlabEdit s s') (hs : Settled s.log) (hi : Busy s) : Busy s' := by
  have key : ∀ {p}, (∀ q ≠ p, s'.page q = s.page q) →
      (∀ q ∈ outstanding s'.log, q ≠ p → q ∈ outstanding s.log) →
      (p ∈ outstanding s'.log → (s'.page p).pgActive = true ∨ (s'.page p).inuse ≠ 0) → Busy s' := by
    intro p hother hlog hp q hq hact
    by_cases e : q = p
    · subst e
      exact (hp hq).resolve_left (by rw [hact]; simp)
    · rw [hother q e] at hact ⊢
      exact hi q (hlog q hq e) hact
  cases h with
  | same hlog hpage =>
    intro q hq
    rw [hlog] at hq
    rw [hpage]
    exact hi q hq
  | page hlog hother _ hp => exact key hother (fun q hq _ => by rwa [hlog] at hq) fun _ => hp
  | alloc hnew hlog hother hp =>
    refine key hother (fun q hq e => ?_) fun _ => .inl hp
    rw [hlog] at hq
    exact (mem_cons.mp hq).resolve_left e
  | @free p hold hlog hother =>
    have hmem : ∀ q, q ∈ outstanding s'.log ↔ q ≠ p ∧ q ∈ outstanding s.log := by
      intro q
      rw [hlog]
      exact hs.nodup.mem_erase_iff
    exact key hother (fun q hq _ => ((hmem q).mp hq).2) fun h => absurd rfl ((hmem p).mp h).1

theorem callsOn_cons (call : PagesCall) (log : List PagesCall) (q : Nat) :
    callsOn q (call :: log) = if call.block = q then call :: callsOn q log else callsOn q log := by
  unfold callsOn
  rw [filter_cons]
  simp

theorem SlabEdit.settled (h : SlabEdit s s') (hs : Settled s.log) : Settled s'.log := by
  cases h with
  | same hlog => rwa [hlog]
  | page hlog => rwa [hlog]
  | @alloc p hnew hlog =>
    rw [hlog]
    refine ⟨nodup_cons.mpr ⟨hnew, hs.nodup⟩, fun q hq => ?_, fun q hq => ?_⟩
    · by_cases e : p = q
      · subst e
        exact ⟨_, by simp only [callsOn_cons, PagesCall.block, if_true], hs.returned p hnew⟩
      · simp only [callsOn_cons, PagesCall.block, e, if_false]
        exact hs.held q ((mem_cons.mp hq).resolve_left (Ne.symm e))
    · have hq' : q ≠ p ∧ q ∉ outstanding s.log := by simpa [outstanding] using hq
      simp only [callsOn_cons, PagesCall.block, hq'.1.symm, if_false]
      exact hs.returned q hq'.2
  | @free p hold hlog =>
    have hmem : ∀ q, q ∈ outstanding (.free p slabOrder :: s.log) ↔ q ≠ p ∧ q ∈ outstanding s.log :=
      fun q => hs.nodup.mem_erase_iff
    rw [hlog]
    refine ⟨hs.nodup.erase p, fun q hq => ?_, fun q hq => ?_⟩
    · obtain ⟨e, hq⟩ := (hmem q).mp hq
      simp only [callsOn_cons, PagesCall.block, e.symm, if_false]
      exact hs.held q hq
    · by_cases e : p = q
      · subst e
        obtain ⟨old, hcalls, hret⟩ := hs.held p hold
        simp only [callsOn_cons, PagesCall.block, if_true, hcalls]
        exact hret.cons
      · simp only [callsOn_cons, PagesCall.block, e, if_false]
        exact hs.returned q fun h => hq ((hmem q).mpr ⟨Ne.symm e, h⟩)

theorem SlabEdit.run (h : ReflTransGen SlabEdit s s') (hs : Settled s.log) (hi : Busy s) :
    Settled s'.log ∧ Busy s' := by
  induction h with
  | refl => exact ⟨hs, hi⟩
  | tail _ hstep ih => exact ⟨hstep.settled ih.1, hstep.busy ih.1 ih.2⟩

def Served (s : SlabState) (out : List (Nat × Nat)) : Prop :=
  ∀ o ∈ out, (s.page (slabPfn o.1)).slab = sizeMap o.2

theorem kmalloc_served (hi : SlabOk s out) (hs : Served s out) (hn : 1 ≤ n) (hn' : n ≤ pageSize)
    (hb : BlockOk s blk)
    (h : s.kmalloc k n blk = some (o, s')) : Served s' out ∧ (o ≠ 0 → Served s' ((o, n) :: out)) := by
  obtain ⟨view, pl, hr, ho⟩ := hi
  have hspec := kmalloc_spec hr hn hn' hb h
  have hold : ∀ {view' pl'}, SlabRep s' view' pl' → Keeps s view s' view' → Served s' out := by
    intro view' pl' hr' hk x hx
    obtain ⟨v, hv, -⟩ := ho.home x hx
    obtain ⟨v', hv', hc⟩ := hk.cache _ v hv
    rw [(hr'.pages _ v' hv').slab, hc, ← (hr.pages _ v hv).slab]
    exact hs x hx
  cases hspec with
  | null hr' hk => exact ⟨hold hr' hk, fun h => absurd rfl h⟩
  | @object _ _ view' pl' p v' hr' hk hv hc hu =>
    refine ⟨hold hr' hk, fun _ => forall_mem_cons.mpr ⟨?_, hold hr' hk⟩⟩
    have hp := hr'.pages p v' hv
    have hused : v'.used = o :: usedOf view p := by
      rw [← usedOf_some hv, hu, update_self]
    rw [slabPfn_slot hp.aligned (hp.mem_slots_of_used (by rw [hused]; simp)), hp.slab, hc]

theorem SlabEdit.slab (h : SlabEdit s s') (hp : p ∈ outstanding s.log) : (s'.page p).slab = (s.page p).slab := by
  have key : ∀ {q}, (∀ r ≠ q, s'.page r = s.page r) → (s'.page q).slab = (s.page q).slab →
      (s'.page p).slab = (s.page p).slab := by
    intro q hother hq
    by_cases e : p = q
    · rw [e]; exact hq
    · rw [hother p e]
  cases h with
  | same _ hpage => rw [hpage]
  | page _ hother hslab => exact key hother hslab
  | alloc hnew _ hother => rw [hother p fun e => hnew (e ▸ hp)]
  | free _ _ hother hslab => exact key hother hslab

theorem SlabOk.home (hi : SlabOk s out) {x : Nat × Nat} (hx : x ∈ out) : slabPfn x.1 ∈ outstanding s.log := by
  obtain ⟨view, pl, hr, ho⟩ := hi
  obtain ⟨v, hv, -⟩ := ho.home x hx
  exact (hr.live _).mpr ⟨v, hv⟩

structure Reclaim (s : SlabState) (out : List (Nat × Nat)) : Prop where
  ok : SlabOk s out
  served : Served s out
  busy : Busy s
  settled : Settled s.log

theorem kmemCacheInit_reclaim (s : SlabState) : Reclaim s.kmemCacheInit [] where
  ok := kmemCacheInit_ok s
  served := by intro o ho; cases ho
  busy := by intro p hp; cases hp
  settled := ⟨nodup_nil, fun _ hp => absurd hp not_mem_nil, fun _ _ => .nil⟩

theorem slabStep_reclaim {t t' : SlabState × List (Nat × Nat)} (h : SlabStep t t') (hi : Reclaim t.1 t.2) :
    Reclaim t'.1 t'.2 := by
  have hok := slabStep_ok h hi.ok
  cases h with
  | kmalloc hn hn' hb h ho =>
    obtain ⟨hset, hbusy⟩ := SlabEdit.run (kmalloc_edits hb h) hi.settled hi.busy
    exact ⟨hok, (kmalloc_served hi.ok hi.served hn hn' hb h).2 ho, hbusy, hset⟩
  | kmallocNull hn hn' hb h =>
    obtain ⟨hset, hbusy⟩ := SlabEdit.run (kmalloc_edits hb h) hi.settled hi.busy
    exact ⟨hok, (kmalloc_served hi.ok hi.served hn hn' hb h).1, hbusy, hset⟩
  | @kfree s s' l₁ l₂ k o n h =>
    have hedit := kfree_edit (hi.ok.home (x := (o, n)) (by simp)) h
    refine ⟨hok, fun x hx => ?_, hedit.busy hi.settled hi.busy, hedit.settled hi.settled⟩
    have hmem : x ∈ l₁ ++ (o, n) :: l₂ := by
      simp only [mem_append, mem_cons] at hx ⊢
      tauto
    rw [hedit.slab (hi.ok.home hmem)]
    exact hi.served x hmem
  | write b ha => exact ⟨hok, hi.served, hi.busy, hi.settled⟩
  | @page s out p r hp =>
    have hkeep : ∀ q ∈ outstanding s.log, (s.setPage p r).page q = s.page q :=
      fun q hq => setPage_page_of_ne _ _ _ fun e => hp (e ▸ hq)
    refine ⟨hok, fun x hx => ?_, fun q hq => ?_, hi.settled⟩
    · rw [hkeep _ (hi.ok.home hx)]
      exact hi.served x hx
    · rw [hkeep q hq]
      exact hi.busy q hq

theorem Reclaim.used (hi : Reclaim s out) (hp : p ∈ outstanding s.log) (hact : (s.page p).pgActive = false) :
    ∃ x ∈ out, slabPfn x.1 = p := by
  have hin := hi.busy p hp hact
  obtain ⟨view, pl, hr, ho⟩ := hi.ok
  obtain ⟨v, hv⟩ := (hr.live p).mp hp
  have hpr := hr.pages p v hv
  have hused : v.used ≠ [] := by
    intro hnil
    have hown : v.owner = none := by
      rwa [hpr.active, isSome_eq_false_iff, isNone_iff_eq_none] at hact
    have hlen := hpr.perm.length_eq
    rw [hnil, hpr.idle hown, append_nil, append_nil, length_slots] at hlen
    rw [hpr.inuse, hlen] at hin
    omega
  obtain ⟨x, hx⟩ := exists_mem_of_ne_nil _ hused
  obtain ⟨⟨m, hm⟩, hpfn⟩ := (ho.mem_used hv).mp hx
  exact ⟨(x, m), hm, hpfn⟩

/-- **Slab reclamation.** A cache none of whose objects is out holds only slabs
that are active on some CPU; the other blocks ever allocated are returned. -/
theorem slab_reclaimed {s₀ s : SlabState} {out : List (Nat × Nat)}
    (hrun : ReflTransGen SlabStep (s₀.kmemCacheInit, []) (s, out)) :
    (∀ c, (∀ o ∈ out, sizeMap o.2 ≠ c) → ∀ p ∈ outstanding s.log, (s.page p).slab = c →
      ∃ k, (s.cpu c k).page = some p) ∧ Settled s.log := by
  have key : ∀ t, ReflTransGen SlabStep (s₀.kmemCacheInit, []) t → Reclaim t.1 t.2 := by
    intro t ht
    induction ht with
    | refl => exact kmemCacheInit_reclaim s₀
    | tail _ hstep ih => exact slabStep_reclaim hstep ih
  have hi : Reclaim s out := key _ hrun
  refine ⟨fun c hc p hp hslab => ?_, hi.settled⟩
  cases hact : (s.page p).pgActive with
  | false =>
    obtain ⟨x, hx, hpfn⟩ := hi.used hp hact
    have := hi.served x hx
    rw [hpfn, hslab] at this
    exact absurd this.symm (hc x hx)
  | true =>
    obtain ⟨view, pl, hr, -⟩ := hi.ok
    obtain ⟨v, hv⟩ := (hr.live p).mp hp
    obtain ⟨c', k, hk⟩ := (hr.frozen_iff hv).mp hact
    obtain ⟨-, hc'⟩ := hr.account.cpuPage c' k p hk
    rw [hslab] at hc'
    exact ⟨k, hc' ▸ hk⟩

theorem slab_reclaimed_tiny : ∃ s s', tinySlab.kmemCacheInit.kmalloc 0 100 (some 1024) = some (0xC0400000, s) ∧
    s.kfree 1 0xC0400000 = some s' ∧ Settled s'.log ∧
    ∀ p ∈ outstanding s'.log, (s'.page p).slab = sizeMap 100 → ∃ k, (s'.cpu (sizeMap 100) k).page = some p := by
  obtain ⟨s, h, hrun, -⟩ := tiny_run
  have hok : SlabOk s ([] ++ (0xC0400000, 100) :: []) := slabRun_ok hrun
  obtain ⟨s', h', -⟩ := kfree_ok (k := 1) hok
  have hstep : SlabStep (s, [] ++ (0xC0400000, 100) :: []) (s', [] ++ []) := .kfree h'
  obtain ⟨hcpu, hset⟩ := slab_reclaimed (hrun.tail hstep)
  exact ⟨s, s', h, h', hset, hcpu (sizeMap 100) (nofun)⟩

end

end MiniOS
