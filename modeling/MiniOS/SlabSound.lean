import Mathlib.Data.List.Perm.Basic
import Mathlib.Data.List.Nodup
import Mathlib.Logic.Relation
import Mathlib.Tactic.FinCases
import MiniOS.Chain
import MiniOS.Slab

/-!
# Every object is in one place

The objects of a slab are its `slots`. `SlabView` says where they are: on the
page's free list, on the free list of the one CPU that has the page, or handed
out. `SlabRep` ties views to the state; each way through `slab_alloc` and
`slab_free` changes the view of one page.
-/

namespace MiniOS

open Function List Option Relation SlabState

/-! ## Slots -/

namespace Cache

theorem size_eq (c : Cache) : c.size = 4 * c.offset + 4 := by revert c; decide

theorem objsize_le (c : Cache) : c.objsize ≤ 4 * c.offset := by revert c; decide

theorem two_le_objects (c : Cache) : 2 ≤ c.objects := by revert c; decide

theorem objects_mul_size (c : Cache) : c.objects * c.size ≤ slabBytes := Nat.div_mul_le_self ..

end Cache

def slots (p : Nat) (c : Cache) : List Nat := (List.range c.objects).map fun i => pageVirt p + i * c.size

def link (c : Cache) (m : Mem) (x : Nat) : Nat := ld32 m (linkAddr c x)

theorem mem_slots {p : Nat} {c : Cache} {x : Nat} :
    x ∈ slots p c ↔ ∃ i < c.objects, pageVirt p + i * c.size = x := by
  simp [slots]

theorem slots_nodup (p : Nat) (c : Cache) : (slots p c).Nodup := by
  refine List.Nodup.map (fun i j h => ?_) nodup_range
  have hc := c.size_eq
  exact Nat.eq_of_mul_eq_mul_right (by omega) (Nat.add_left_cancel h)

theorem length_slots (p : Nat) (c : Cache) : (slots p c).length = c.objects := by simp [slots]

theorem slot_inside {p x : Nat} {c : Cache} (h : x ∈ slots p c) :
    pageVirt p ≤ x ∧ x + c.size ≤ pageVirt p + slabBytes := by
  obtain ⟨i, hi, rfl⟩ := mem_slots.mp h
  have h₁ : (i + 1) * c.size ≤ c.objects * c.size := Nat.mul_le_mul_right _ hi
  have h₂ := c.objects_mul_size
  rw [Nat.add_one_mul] at h₁
  omega

theorem slot_ne_zero {p x : Nat} {c : Cache} (h : x ∈ slots p c) : x ≠ 0 := by
  have := (slot_inside h).1
  unfold pageVirt kernelBaseAddr at this; omega

theorem block_apart {p q : Nat} (hp : 2 ^ slabOrder ∣ p) (hq : 2 ^ slabOrder ∣ q) (h : p ≠ q) :
    pageVirt p + slabBytes ≤ pageVirt q ∨ pageVirt q + slabBytes ≤ pageVirt p := by
  have hb : slabBytes = 2 ^ slabOrder * pageSize := by decide
  obtain ⟨a, rfl⟩ := hp
  obtain ⟨b, rfl⟩ := hq
  have e : slabOrder = 10 := rfl
  rw [hb]
  unfold pageVirt pageSize
  rw [e] at h ⊢
  omega

theorem slot_apart {p q x y : Nat} {c d : Cache} (hp : 2 ^ slabOrder ∣ p) (hq : 2 ^ slabOrder ∣ q)
    (hx : x ∈ slots p c) (hy : y ∈ slots q d) (h : p ≠ q ∨ (c = d ∧ x ≠ y)) :
    x + c.size ≤ y ∨ y + d.size ≤ x := by
  by_cases hpq : p = q
  · subst hpq
    obtain ⟨rfl, hne⟩ := h.resolve_left (fun e => e rfl)
    obtain ⟨i, _, rfl⟩ := mem_slots.mp hx
    obtain ⟨j, _, rfl⟩ := mem_slots.mp hy
    rcases Nat.lt_trichotomy i j with hij | rfl | hij
    · have := Nat.mul_le_mul_right c.size hij
      rw [Nat.succ_mul] at this; omega
    · exact absurd rfl hne
    · have := Nat.mul_le_mul_right c.size hij
      rw [Nat.succ_mul] at this; omega
  · have := slot_inside hx
    have := slot_inside hy
    rcases block_apart hp hq hpq with h' | h'
    · omega
    · omega

theorem slabPfn_of_mem {p x : Nat} (hp : 2 ^ slabOrder ∣ p) (h₁ : pageVirt p ≤ x)
    (h₂ : x < pageVirt p + slabBytes) : roundDown x slabBytes = pageVirt p ∧ slabPfn x = p := by
  have hd : slabBytes ∣ pageVirt p := by
    obtain ⟨a, rfl⟩ := hp
    refine ⟨768 + a, ?_⟩
    have e : slabBytes = 4194304 := by decide
    have e' : slabOrder = 10 := rfl
    rw [e, e']; unfold pageVirt kernelBaseAddr pageSize; omega
  have hr := roundDown_eq hd h₁ h₂
  refine ⟨hr, ?_⟩
  unfold slabPfn
  rw [hr]; unfold pageVirt
  rw [Nat.add_sub_cancel_left]; exact Nat.mul_div_cancel _ (by decide)

theorem slabPfn_slot {p x : Nat} {c : Cache} (hp : 2 ^ slabOrder ∣ p) (hx : x ∈ slots p c) :
    slabPfn x = p := by
  have := slot_inside hx
  have hc := c.size_eq
  exact (slabPfn_of_mem hp this.1 (by omega)).2

theorem slabPfn_of_getSlab {s : SlabState} {o p : Nat} (h : s.getSlab o = some p) : slabPfn o = p := by
  unfold getSlab at h
  split at h
  · cases h
  · split at h
    · cases h
    · exact some.inj h

theorem link_st32 {p q x y : Nat} {c d : Cache} (m : Mem) (v : Nat) (hp : 2 ^ slabOrder ∣ p)
    (hq : 2 ^ slabOrder ∣ q) (hx : x ∈ slots p c) (hy : y ∈ slots q d) (h : p ≠ q ∨ (c = d ∧ x ≠ y)) :
    link d (st32 m (linkAddr c x) v) y = link d m y := by
  have h₁ := slot_apart hp hq hx hy h
  have h₂ := c.size_eq
  have h₃ := d.size_eq
  exact ld32_st32_apart m v (by unfold linkAddr; omega)

/-! ## Views -/

structure SlabView where
  cache : Cache
  free : List Nat
  cpuFree : List Nat
  used : List Nat
  owner : Option Cpu

abbrev Views := Nat → Option SlabView

structure PageRep (s : SlabState) (p : Nat) (v : SlabView) : Prop where
  aligned : 2 ^ slabOrder ∣ p
  mapped : s.page2virt p = some (pageVirt p)
  pgSlab : (s.page p).pgSlab = true
  active : (s.page p).pgActive = v.owner.isSome
  slab : (s.page p).slab = v.cache
  chain : Chain (link v.cache s.mem) 0 (s.page p).freelist v.free
  inuse : (s.page p).inuse = v.cache.objects - v.free.length
  idle : v.owner = none → v.cpuFree = []
  cpu : ∀ k, v.owner = some k → (s.cpu v.cache k).page = some p ∧
    Chain (link v.cache s.mem) 0 (s.cpu v.cache k).freelist v.cpuFree
  perm : (v.free ++ v.cpuFree ++ v.used).Perm (slots p v.cache)

structure CpuRep (s : SlabState) (view : Views) (c : Cache) (k : Cpu) : Prop where
  without : (s.cpu c k).page = none → (s.cpu c k).freelist = 0
  holding : ∀ p, (s.cpu c k).page = some p → ∃ v, view p = some v ∧ v.cache = c ∧ v.owner = some k

def OnPartial (view : Views) (c : Cache) (p : Nat) : Prop :=
  ∃ v, view p = some v ∧ v.cache = c ∧ v.owner = none ∧ v.free ≠ []

structure PartialRep (s : SlabState) (view : Views) (pl : Cache → List Nat) : Prop where
  rings : Rings s.links (fun _ => True) SNode.node (fun c => (pl c).map SNode.page)
  mem : ∀ c p, p ∈ pl c ↔ OnPartial view c p
  npartial : ∀ c, s.npartial c = (pl c).length

structure SlabRep (s : SlabState) (view : Views) (pl : Cache → List Nat) : Prop where
  live : ∀ p, p ∈ outstanding s.log ↔ ∃ v, view p = some v
  nodup : (outstanding s.log).Nodup
  pages : ∀ p v, view p = some v → PageRep s p v
  cpus : ∀ c k, CpuRep s view c k
  lists : PartialRep s view pl
  nslub : ∀ c, s.nslub c = (outstanding s.log).countP fun p => (s.page p).slab = c

namespace PageRep

variable {s s' : SlabState} {p : Nat} {v : SlabView} {x : Nat}

theorem nodup (h : PageRep s p v) : (v.free ++ v.cpuFree ++ v.used).Nodup :=
  h.perm.nodup_iff.mpr (slots_nodup _ _)

theorem mem_slots_of_free (h : PageRep s p v) (hx : x ∈ v.free) : x ∈ slots p v.cache :=
  h.perm.subset (by simp [hx])

theorem mem_slots_of_cpuFree (h : PageRep s p v) (hx : x ∈ v.cpuFree) : x ∈ slots p v.cache :=
  h.perm.subset (by simp [hx])

theorem mem_slots_of_used (h : PageRep s p v) (hx : x ∈ v.used) : x ∈ slots p v.cache :=
  h.perm.subset (by simp [hx])

theorem getSlab (h : PageRep s p v) (hx : x ∈ slots p v.cache) : s.getSlab x = some p := by
  have h₁ := slot_inside hx
  have h₂ := v.cache.size_eq
  obtain ⟨hr, hp⟩ := slabPfn_of_mem h.aligned h₁.1 (by omega)
  have hm := h.mapped
  unfold page2virt at hm
  unfold SlabState.getSlab
  rw [hr, hp, if_neg (by unfold pageVirt; omega)]
  by_cases hle : s.maxPfn ≤ p
  · rw [if_pos hle] at hm; cases hm
  · rw [if_neg hle]

theorem lt_two_pow (h : PageRep s p v) (hx : x ∈ slots p v.cache) : x < 2 ^ 32 := by
  have h₁ := slot_inside hx
  have hm := h.mapped
  unfold page2virt at hm
  have hlt : p * pageSize < normalAddr := by
    by_contra hle
    by_cases hmax : s.maxPfn ≤ p
    · rw [if_pos hmax] at hm; cases hm
    · rw [if_neg hmax, if_pos (by omega)] at hm; cases hm
  have e : slabBytes = 4194304 := by decide
  have hal : slabBytes ∣ p * pageSize := by
    obtain ⟨a, rfl⟩ := h.aligned
    exact ⟨a, by rw [e]; unfold slabOrder pageSize; omega⟩
  obtain ⟨a, ha⟩ := hal
  unfold pageVirt kernelBaseAddr at h₁
  unfold normalAddr at hlt
  rw [e] at h₁ ha
  have h₂ := v.cache.size_eq
  omega

theorem other (h : PageRep s p v) (hmax : s'.maxPfn = s.maxPfn) (hpage : s'.page p = s.page p)
    (hcpu : ∀ c k, (s.cpu c k).page = some p → s'.cpu c k = s.cpu c k)
    (hmem : ∀ x ∈ slots p v.cache, link v.cache s'.mem x = link v.cache s.mem x) : PageRep s' p v where
  aligned := h.aligned
  mapped := by unfold page2virt; rw [hmax]; exact h.mapped
  pgSlab := by rw [hpage]; exact h.pgSlab
  active := by rw [hpage]; exact h.active
  slab := by rw [hpage]; exact h.slab
  chain := by rw [hpage]; exact h.chain.congr fun x hx => hmem x (h.mem_slots_of_free hx)
  inuse := by rw [hpage]; exact h.inuse
  idle := h.idle
  cpu k hk := by
    obtain ⟨h₁, h₂⟩ := h.cpu k hk
    rw [hcpu _ _ h₁]
    exact ⟨h₁, h₂.congr fun x hx => hmem x (h.mem_slots_of_cpuFree hx)⟩
  perm := h.perm

end PageRep

theorem PartialRep.same {s s' : SlabState} {view view' : Views} {pl : Cache → List Nat}
    (h : PartialRep s view pl) (hl : s'.links = s.links) (hn : s'.npartial = s.npartial)
    (hv : ∀ c p, OnPartial view' c p ↔ OnPartial view c p) : PartialRep s' view' pl where
  rings := hl ▸ h.rings
  mem c p := (h.mem c p).trans (hv c p).symm
  npartial c := by rw [hn]; exact h.npartial c

section
variable {view : Views} {p : Nat} {v v' : SlabView}

theorem onPartial_update_self {c : Cache} :
    OnPartial (update view p (some v')) c p ↔ v'.cache = c ∧ v'.owner = none ∧ v'.free ≠ [] := by
  simp [OnPartial]

theorem onPartial_update_of_ne {c : Cache} {q : Nat} {o : Option SlabView} (h : q ≠ p) :
    OnPartial (update view p o) c q ↔ OnPartial view c q := by
  simp [OnPartial, h]

theorem onPartial_update (hv : view p = some v) (hc : v'.cache = v.cache)
    (h : (v'.owner = none ∧ v'.free ≠ []) ↔ (v.owner = none ∧ v.free ≠ [])) (c : Cache) (q : Nat) :
    OnPartial (update view p (some v')) c q ↔ OnPartial view c q := by
  by_cases e : q = p
  · subst e
    rw [onPartial_update_self, hc, h]
    simp [OnPartial, hv]
  · exact onPartial_update_of_ne e

end

/-! ## The partial lists -/

theorem map_page_update (pl : Cache → List Nat) (c : Cache) (l : List Nat) :
    (fun d => (update pl c l d).map SNode.page) =
      update (fun d => (pl d).map SNode.page) c (l.map SNode.page) := by
  funext d
  by_cases e : d = c
  · subst e; simp
  · simp [e]

section
variable {s s' : SlabState} {view view' : Views} {pl : Cache → List Nat} {c : Cache} {p : Nat}

theorem PartialRep.nodup (h : PartialRep s view pl) (c : Cache) : (pl c).Nodup :=
  List.Nodup.of_map _ (nodup_cons.mp (h.rings.nodup c trivial)).2

theorem PartialRep.add (h : PartialRep s view pl) (hp : ∀ d, ¬ OnPartial view d p)
    (hp' : ∀ d, OnPartial view' d p ↔ d = c) (hq : ∀ d q, q ≠ p → (OnPartial view' d q ↔ OnPartial view d q))
    (hl : s'.links = s.links.listAdd (.page p) (.node c))
    (hn : s'.npartial = update s.npartial c (s.npartial c + 1)) :
    PartialRep s' view' (update pl c (p :: pl c)) := by
  refine ⟨?_, fun d q => ?_, fun d => ?_⟩
  · rw [hl, map_page_update]
    refine h.rings.listAdd trivial fun d _ hm => ?_
    simp only [mem_cons, reduceCtorEq, List.mem_map, SNode.page.injEq, exists_eq_right, false_or] at hm
    exact hp d ((h.mem d p).mp hm)
  · by_cases e : q = p
    · subst e
      rw [hp']
      by_cases e' : d = c
      · subst e'; simp
      · simp only [update_of_ne e', e', iff_false]
        exact fun hm => hp d ((h.mem d q).mp hm)
    · rw [hq d q e, ← h.mem]
      by_cases e' : d = c
      · subst e'; simp [e]
      · simp [e']
  · rw [hn]
    by_cases e' : d = c
    · subst e'; simp [h.npartial]
    · simp [e', h.npartial]

theorem PartialRep.remove (h : PartialRep s view pl) (hp : OnPartial view c p)
    (hp' : ∀ d, ¬ OnPartial view' d p) (hq : ∀ d q, q ≠ p → (OnPartial view' d q ↔ OnPartial view d q))
    (hl : s'.links = s.links.listDel (.page p))
    (hn : s'.npartial = update s.npartial c (s.npartial c - 1)) :
    ∃ pl', PartialRep s' view' pl' := by
  obtain ⟨xs, ys, hxy⟩ := append_of_mem ((h.mem c p).mpr hp)
  have hnd := h.nodup c
  rw [hxy, nodup_middle, nodup_cons] at hnd
  refine ⟨update pl c (xs ++ ys), ?_, fun d q => ?_, fun d => ?_⟩
  · rw [hl, map_page_update, map_append]
    exact h.rings.listDel trivial (by rw [hxy]; simp)
  · by_cases e : q = p
    · subst e
      simp only [hp', iff_false]
      by_cases e' : d = c
      · subst e'; simpa using hnd.1
      · rw [update_of_ne e', h.mem]
        rintro ⟨v, hv, hd, _⟩
        obtain ⟨w, hw, hc, _⟩ := hp
        rw [hv, some.injEq] at hw
        exact e' (by rw [← hd, ← hc, hw])
    · rw [hq d q e, ← h.mem]
      by_cases e' : d = c
      · subst e'; rw [hxy]; simp [e]
      · simp [e']
  · rw [hn]
    by_cases e' : d = c
    · subst e'; rw [update_self, update_self, h.npartial, hxy]; simp; omega
    · simp [e', h.npartial]

theorem PartialRep.first (h : PartialRep s view pl) {rest : List Nat} (hpl : pl c = p :: rest) :
    s.links.next (.node c) = .page p := by
  have hr := h.rings.ring c trivial
  rw [hpl] at hr
  exact hr.next_head

end

/-! ## Changing one page -/

section
variable (s : SlabState) (c : Cache) (k : Cpu) (r : CpuSlab) (p : Nat) (t : SlabPage)

@[simp] theorem setCpu_cpu_self : (s.setCpu c k r).cpu c k = r := by simp [setCpu]

theorem setCpu_cpu_of_ne {c' : Cache} {k' : Cpu} (h : ¬ (c' = c ∧ k' = k)) :
    (s.setCpu c k r).cpu c' k' = s.cpu c' k' := by
  unfold setCpu
  by_cases e : c' = c
  · subst e
    simp [show k' ≠ k from fun e => h ⟨rfl, e⟩]
  · simp [e]

@[simp] theorem setPage_page_self : (s.setPage p t).page p = t := by simp [setPage]

theorem setPage_page_of_ne {q : Nat} (h : q ≠ p) : (s.setPage p t).page q = s.page q := by
  simp [setPage, h]

end

structure SlabFrame (s s' : SlabState) (p : Nat) : Prop where
  maxPfn : s'.maxPfn = s.maxPfn
  log : s'.log = s.log
  nslub : s'.nslub = s.nslub
  page : ∀ q, q ≠ p → s'.page q = s.page q
  slab : (s'.page p).slab = (s.page p).slab
  mem : ∀ q d, q ≠ p → 2 ^ slabOrder ∣ q → ∀ x ∈ slots q d, link d s'.mem x = link d s.mem x

section
variable {s s' : SlabState} {view : Views} {pl pl' : Cache → List Nat} {p : Nat} {v v' : SlabView}

theorem PageRep.change (hp : PageRep s p v) (hf : SlabFrame s s' p) (hpg : (s'.page p).pgSlab = (s.page p).pgSlab)
    (hc : v'.cache = v.cache) (hactive : (s'.page p).pgActive = v'.owner.isSome)
    (hchain : Chain (link v.cache s'.mem) 0 (s'.page p).freelist v'.free)
    (hinuse : (s'.page p).inuse = v.cache.objects - v'.free.length) (hidle : v'.owner = none → v'.cpuFree = [])
    (hcpu : ∀ k, v'.owner = some k → (s'.cpu v.cache k).page = some p ∧
      Chain (link v.cache s'.mem) 0 (s'.cpu v.cache k).freelist v'.cpuFree)
    (hperm : (v'.free ++ v'.cpuFree ++ v'.used).Perm (slots p v.cache)) : PageRep s' p v' where
  aligned := hp.aligned
  mapped := by
    rw [page2virt, hf.maxPfn]
    exact hp.mapped
  pgSlab := hpg.trans hp.pgSlab
  active := hactive
  slab := hf.slab.trans (hp.slab.trans hc.symm)
  chain := hc ▸ hchain
  inuse := hc ▸ hinuse
  idle := hidle
  cpu := hc ▸ hcpu
  perm := hc ▸ hperm

theorem CpuRep.elsewhere {c : Cache} {k : Cpu} (h : CpuRep s view c k) (hcpu : s'.cpu c k = s.cpu c k)
    (hp : ∀ w, view p = some w → w.cache = c → w.owner ≠ some k) (o : Option SlabView) :
    CpuRep s' (update view p o) c k := by
  refine ⟨fun hnone => ?_, fun q hq => ?_⟩
  · rw [hcpu] at hnone ⊢; exact h.without hnone
  · rw [hcpu] at hq
    obtain ⟨w, hw, hwc, hwo⟩ := h.holding q hq
    have hne : q ≠ p := fun e => hp w (e ▸ hw) hwc hwo
    exact ⟨w, by rw [update_of_ne hne]; exact hw, hwc, hwo⟩

theorem SlabRep.set (hr : SlabRep s view pl) (hv : view p = some v) (hf : SlabFrame s s' p)
    (hcpu : ∀ c k q, q ≠ p → (s.cpu c k).page = some q → s'.cpu c k = s.cpu c k)
    (hp : PageRep s' p v') (hcpus : ∀ c k, CpuRep s' (update view p (some v')) c k)
    (hl : PartialRep s' (update view p (some v')) pl') :
    SlabRep s' (update view p (some v')) pl' := by
  have hslab : ∀ q, (s'.page q).slab = (s.page q).slab := by
    intro q
    by_cases e : q = p
    · subst e; exact hf.slab
    · rw [hf.page q e]
  refine ⟨fun q => ?_, hf.log ▸ hr.nodup, fun q w hw => ?_, hcpus, hl, fun c => ?_⟩
  · rw [hf.log, hr.live]
    by_cases e : q = p
    · subst e; simp [hv]
    · simp [e]
  · by_cases e : q = p
    · subst e
      rw [update_self, some.injEq] at hw
      exact hw ▸ hp
    · rw [update_of_ne e] at hw
      have hq := hr.pages q w hw
      exact hq.other hf.maxPfn (hf.page q e) (fun c k => hcpu c k q e) (hf.mem q _ e hq.aligned)
  · rw [hf.nslub, hf.log, hr.nslub c]
    simp only [hslab]

theorem SlabRep.owned (hr : SlabRep s view pl) (hv : view p = some v) {k : Cpu} (ho : v.owner = some k)
    (hc' : v'.cache = v.cache) (ho' : v'.owner = some k) (hf : SlabFrame s s' p)
    (hl : s'.links = s.links) (hn : s'.npartial = s.npartial)
    (hcpu : ∀ c' k', ¬ (c' = v.cache ∧ k' = k) → s'.cpu c' k' = s.cpu c' k') (hp : PageRep s' p v') :
    SlabRep s' (update view p (some v')) pl := by
  have hown := ((hr.pages p v hv).cpu k ho).1
  have hown' := (hp.cpu k ho').1
  rw [hc'] at hown'
  refine hr.set hv hf ?_ hp ?_ (hr.lists.same hl hn (onPartial_update hv hc' (by simp [ho, ho'])))
  · intro c k' q hq hpage
    refine hcpu c k' fun h => hq ?_
    rw [h.1, h.2, hown] at hpage
    exact (some.inj hpage).symm
  · intro c k'
    by_cases e : c = v.cache ∧ k' = k
    · obtain ⟨rfl, rfl⟩ := e
      refine ⟨fun h => ?_, fun q h => ?_⟩
      · rw [hown'] at h; cases h
      · rw [hown', some.injEq] at h
        subst h
        exact ⟨v', by simp, hc', ho'⟩
    · refine (hr.cpus c k').elsewhere (hcpu c k' e) (fun w hw hwc hwo => e ?_) _
      rw [hv, some.injEq] at hw
      subst hw
      exact ⟨hwc.symm, some.inj (hwo.symm.trans ho)⟩

theorem SlabRep.unowned (hr : SlabRep s view pl) (hv : view p = some v) (ho : v.owner = none)
    (hf : SlabFrame s s' p) (hcpu : s'.cpu = s.cpu)
    (hp : PageRep s' p v') (hl : PartialRep s' (update view p (some v')) pl') :
    SlabRep s' (update view p (some v')) pl' := by
  refine hr.set hv hf (fun c k q _ _ => by rw [hcpu]) hp (fun c k => ?_) hl
  refine (hr.cpus c k).elsewhere (by rw [hcpu]) (fun w hw _ hwo => ?_) _
  rw [hv, some.injEq] at hw
  rw [← hw, ho] at hwo; cases hwo

/-! ## Taking an object -/

variable {c : Cache} {k : Cpu}

theorem SlabRep.held (hr : SlabRep s view pl) (h : (s.cpu c k).page = some p) :
    ∃ v, view p = some v ∧ v.cache = c ∧ v.owner = some k ∧ PageRep s p v ∧
      Chain (link c s.mem) 0 (s.cpu c k).freelist v.cpuFree := by
  obtain ⟨v, hv, rfl, ho⟩ := (hr.cpus c k).holding p h
  have hp := hr.pages p v hv
  exact ⟨v, hv, rfl, ho, hp, (hp.cpu k ho).2⟩

theorem pop_rep (hr : SlabRep s view pl) (h : (s.cpu c k).freelist ≠ 0) :
    ∃ p v o rest, view p = some v ∧ v.cache = c ∧ (s.cpu c k).freelist = o ∧
      SlabRep (s.setCpu c k { s.cpu c k with freelist := ld32 s.mem (linkAddr c o) })
        (update view p (some { v with cpuFree := rest, used := o :: v.used })) pl := by
  cases hpg : (s.cpu c k).page with
  | none => exact absurd ((hr.cpus c k).without hpg) h
  | some p =>
    obtain ⟨v, hv, rfl, ho, hp, hch⟩ := hr.held hpg
    obtain ⟨rest, hrest, hch'⟩ := hch.exists_cons h
    refine ⟨p, v, _, rest, hv, rfl, rfl, hr.owned hv ho rfl ho ?_ rfl rfl ?_ ?_⟩
    · exact ⟨rfl, rfl, rfl, fun _ _ => rfl, rfl, fun _ _ _ _ _ _ => rfl⟩
    · intro c' k' hne
      exact setCpu_cpu_of_ne _ _ _ _ hne
    · refine { hp with idle := fun hnone => ?_, cpu := fun k' hk' => ?_, perm := ?_ }
      · rw [show v.owner = none from hnone] at ho; cases ho
      · obtain rfl : k' = k := some.inj (Eq.trans (Eq.symm hk') ho)
        rw [setCpu_cpu_self]
        exact ⟨hpg, hch'⟩
      · refine List.Perm.trans ?_ hp.perm
        rw [hrest, append_assoc, append_assoc]
        exact List.Perm.append_left _ perm_middle

theorem loadSlab_rep (hr : SlabRep s view pl) (hpg : (s.cpu c k).page = some p)
    (hcf : (s.cpu c k).freelist = 0) (hpf : (s.page p).freelist ≠ 0) :
    ∃ v o rest, view p = some v ∧ v.cache = c ∧ (s.page p).freelist = o ∧
      SlabRep (s.loadSlab c k p)
        (update view p (some { v with free := [], cpuFree := rest, used := o :: v.used })) pl := by
  obtain ⟨v, hv, rfl, ho, hp, hch⟩ := hr.held hpg
  obtain ⟨rest, hrest, hch'⟩ := hp.chain.exists_cons hpf
  have hnil : v.cpuFree = [] := hch.nil_iff.mpr hcf
  have hpage : (s.loadSlab v.cache k p).page p = { s.page p with freelist := 0, inuse := v.cache.objects } :=
    setPage_page_self ..
  have hf : SlabFrame s (s.loadSlab v.cache k p) p :=
    ⟨rfl, rfl, rfl, fun q hq => setPage_page_of_ne _ _ _ hq, by rw [hpage], fun _ _ _ _ _ _ => rfl⟩
  refine ⟨v, _, rest, hv, rfl, rfl, hr.owned hv ho rfl ho hf rfl rfl ?_ ?_⟩
  · intro c' k' hne
    exact setCpu_cpu_of_ne _ _ _ _ hne
  · refine hp.change hf ?_ rfl ?_ ?_ ?_ (fun hnone => ?_) (fun k' hk' => ?_) ?_
    · rw [hpage]
    · rw [hpage]
      exact hp.active
    · rw [hpage]
      rfl
    · rw [hpage]
      rfl
    · rw [show v.owner = none from hnone] at ho; cases ho
    · obtain rfl : k' = k := some.inj (Eq.trans (Eq.symm hk') ho)
      show ((s.setCpu _ _ _).cpu _ _).page = _ ∧ Chain _ 0 ((s.setCpu _ _ _).cpu _ _).freelist _
      rw [setCpu_cpu_self]
      exact ⟨hpg, hch'⟩
    · refine List.Perm.trans ?_ hp.perm
      rw [hrest, hnil, nil_append, append_nil, cons_append]
      exact perm_middle

def SlabState.dropPage (s : SlabState) (c : Cache) (k : Cpu) (p : Nat) : SlabState :=
  (s.setCpu c k { s.cpu c k with page := none }).setPage p { s.page p with pgActive := false }

theorem deactivateSlab_rep (hr : SlabRep s view pl) (hpg : (s.cpu c k).page = some p)
    (hcf : (s.cpu c k).freelist = 0) (hpf : (s.page p).freelist = 0) :
    s.deactivateSlab c k p = some (s.dropPage c k p) ∧ ∃ v, view p = some v ∧ v.cache = c ∧
      SlabRep (s.dropPage c k p) (update view p (some { v with owner := none })) pl := by
  obtain ⟨v, hv, rfl, ho, hp, hch⟩ := hr.held hpg
  have hnil : v.cpuFree = [] := hch.nil_iff.mpr hcf
  have hfree : v.free = [] := hp.chain.nil_iff.mpr hpf
  have hpage : (s.dropPage v.cache k p).page p = { s.page p with pgActive := false } :=
    setPage_page_self ..
  constructor
  · have hin : (s.page p).inuse ≠ 0 := by
      have := v.cache.two_le_objects
      rw [hp.inuse, hfree]
      simp; omega
    have hu : (s.setCpu v.cache k { s.cpu v.cache k with page := none }).unfreezeSlab v.cache p =
        if ((s.dropPage v.cache k p).page p).inuse ≠ 0 then
          some (if ((s.dropPage v.cache k p).page p).freelist ≠ 0 then
            (s.dropPage v.cache k p).addPartial v.cache p else s.dropPage v.cache k p)
        else none := rfl
    unfold deactivateSlab
    rw [if_neg (by rw [hcf]; simp), hu, hpage, if_pos hin, if_neg (by rw [hpf]; simp)]
  · have hf : SlabFrame s (s.dropPage v.cache k p) p :=
      ⟨rfl, rfl, rfl, fun q hq => setPage_page_of_ne _ _ _ hq, by rw [hpage], fun _ _ _ _ _ _ => rfl⟩
    refine ⟨v, hv, rfl, hr.set hv hf ?_ ?_ ?_ ?_⟩
    · intro c' k' q hq hq'
      refine setCpu_cpu_of_ne _ _ _ _ fun h => hq ?_
      rw [h.1, h.2, hpg] at hq'
      exact (some.inj hq').symm
    · refine hp.change hf ?_ rfl ?_ ?_ ?_ (fun _ => hnil) nofun hp.perm
      · rw [hpage]
      · rw [hpage]
        rfl
      · rw [hpage]
        exact hp.chain
      · rw [hpage]
        exact hp.inuse
    · intro c' k'
      by_cases e : c' = v.cache ∧ k' = k
      · obtain ⟨rfl, rfl⟩ := e
        have hcpu : (s.dropPage v.cache k' p).cpu v.cache k' = { s.cpu v.cache k' with page := none } :=
          setCpu_cpu_self ..
        refine ⟨fun _ => by rw [hcpu]; exact hcf, fun q hq => ?_⟩
        rw [hcpu] at hq; cases hq
      · have hcpu : (s.dropPage v.cache k p).cpu c' k' = s.cpu c' k' := setCpu_cpu_of_ne _ _ _ _ e
        refine (hr.cpus c' k').elsewhere hcpu (fun w hw hwc hwo => e ?_) _
        rw [hv, some.injEq] at hw
        subst hw
        exact ⟨hwc.symm, some.inj (hwo.symm.trans ho)⟩
    · exact hr.lists.same rfl rfl (onPartial_update hv rfl (by simp [hfree]))

theorem cpuRep_give {c' : Cache} {k' : Cpu} (hr : CpuRep s view c' k')
    (hp : ∀ w, view p = some w → w.owner = none) (hcpu : ∀ c' k', ¬ (c' = c ∧ k' = k) → s'.cpu c' k' = s.cpu c' k')
    (hpg : (s'.cpu c k).page = some p) (hvc : v'.cache = c) (hvo : v'.owner = some k) :
    CpuRep s' (update view p (some v')) c' k' := by
  by_cases e : c' = c ∧ k' = k
  · obtain ⟨rfl, rfl⟩ := e
    refine ⟨fun h => ?_, fun q hq => ?_⟩
    · rw [hpg] at h; cases h
    · rw [hpg, some.injEq] at hq
      subst hq
      exact ⟨v', by simp, hvc, hvo⟩
  · refine hr.elsewhere (hcpu c' k' e) (fun w hw _ hwo => ?_) _
    rw [hp w hw] at hwo; cases hwo

theorem freeze_rep (hr : SlabRep s view pl) (hnone : (s.cpu c k).page = none) {rest : List Nat}
    (hpl : pl c = p :: rest)
    (hs' : s' = (s.lockAndFreezeSlab c p).setCpu c k { (s.lockAndFreezeSlab c p).cpu c k with page := some p }) :
    (s'.page p).freelist ≠ 0 ∧ (s'.cpu c k).page = some p ∧ (s'.cpu c k).freelist = 0 ∧
      ∃ v pl', view p = some v ∧ v.cache = c ∧
        SlabRep s' (update view p (some { v with owner := some k })) pl' := by
  obtain ⟨v, hv, rfl, ho, hfree⟩ := (hr.lists.mem c p).mp (by rw [hpl]; simp)
  have hp := hr.pages p v hv
  have hpage : s'.page p = { s.page p with pgActive := true } := by rw [hs']; exact setPage_page_self ..
  have hcpu : s'.cpu v.cache k = { s.cpu v.cache k with page := some p } := by rw [hs']; exact setCpu_cpu_self ..
  have hcf := (hr.cpus v.cache k).without hnone
  have hcpu' : ∀ c' k', ¬ (c' = v.cache ∧ k' = k) → s'.cpu c' k' = s.cpu c' k' := by
    intro c' k' h; rw [hs']; exact setCpu_cpu_of_ne _ _ _ _ h
  refine ⟨?_, by rw [hcpu], by rw [hcpu]; exact hcf, v, ?_⟩
  · rw [hpage]
    exact fun h => hfree (hp.chain.nil_iff.mpr h)
  · have hon : OnPartial view v.cache p := ⟨v, hv, rfl, ho, hfree⟩
    have hrem : ∃ pl', PartialRep s' (update view p (some { v with owner := some k })) pl' :=
      hr.lists.remove hon (fun d => by rw [onPartial_update_self]; simp)
        (fun d q hq => onPartial_update_of_ne hq) (by rw [hs']; rfl) (by rw [hs']; rfl)
    obtain ⟨pl', hl⟩ := hrem
    have hmem : s'.mem = s.mem := by rw [hs']; rfl
    have hf : SlabFrame s s' p := by
      refine ⟨by rw [hs']; rfl, by rw [hs']; rfl, by rw [hs']; rfl, fun q hq => ?_, by rw [hpage], ?_⟩
      · rw [hs']; exact setPage_page_of_ne _ _ _ hq
      · intro _ _ _ _ _ _; rw [hmem]
    refine ⟨pl', hv, rfl, hr.set hv hf ?_ ?_ (fun c' k' => ?_) hl⟩
    · intro c' k' q hq hq'
      refine hcpu' c' k' fun h => ?_
      rw [h.1, h.2, hnone] at hq'; cases hq'
    · refine hp.change hf ?_ rfl ?_ ?_ ?_ nofun (fun k' hk' => ?_) hp.perm
      · rw [hpage]
      · rw [hpage]
        rfl
      · rw [hpage, hmem]
        exact hp.chain
      · rw [hpage]
        exact hp.inuse
      · obtain rfl : k = k' := some.inj hk'
        rw [hcpu, hcf]
        exact ⟨rfl, (hp.idle ho).symm ▸ rfl⟩
    · refine cpuRep_give (hr.cpus c' k') (fun w hw => ?_) hcpu' (by rw [hcpu]) rfl rfl
      rw [hv, some.injEq] at hw
      rw [← hw]; exact ho

end

/-! ## A new slab -/

theorem linkObjects_apart (c : Cache) {a : Nat} : ∀ (left : Nat) (m : Mem) (start object : Nat),
    (a < start ∨ start + left * c.size ≤ a) → (linkObjects c left m start object).1 a = m a
  | 0, _, _, _, _ => rfl
  | left + 1, m, start, _, h => by
    have hc := c.size_eq
    rw [Nat.add_one_mul] at h
    rw [linkObjects, linkObjects_apart c left _ _ _ (by omega)]
    exact st32_apart _ _ (by unfold linkAddr; omega)

theorem linkObjects_last (c : Cache) : ∀ (left : Nat) (m : Mem) (start object : Nat),
    (linkObjects c (left + 1) m start object).2 = start + left * c.size
  | 0, m, start, _ => by simp [linkObjects]
  | left + 1, m, start, _ => by
    rw [linkObjects, linkObjects_last c left, Nat.add_one_mul]; omega

theorem linkObjects_link (c : Cache) : ∀ (left : Nat) (m : Mem) (start object i : Nat),
    start + left * c.size < 2 ^ 32 → i < left →
    link c (linkObjects c left m start object).1 (start + i * c.size) = start + (i + 1) * c.size
  | left + 1, m, start, _, 0, hlt, _ => by
    have hc := c.size_eq
    rw [Nat.add_one_mul] at hlt
    rw [linkObjects, link, ld32_congr fun x _ hx => linkObjects_apart c left _ _ _
      (.inl (by unfold linkAddr at hx; omega))]
    rw [Nat.zero_mul, Nat.add_zero, Nat.zero_add, Nat.one_mul]
    exact ld32_st32 _ _ (by omega)
  | left + 1, m, start, _, i + 1, hlt, hi => by
    rw [Nat.add_one_mul] at hlt
    have ih := linkObjects_link c left (st32 m (linkAddr c start) (start + c.size)) (start + c.size) start i
      (by omega) (by omega)
    rw [linkObjects]
    rw [show start + (i + 1) * c.size = start + c.size + i * c.size by rw [Nat.add_one_mul]; omega, ih]
    rw [Nat.add_one_mul (i + 1)]; omega

theorem newSlab_chain (c : Cache) (m : Mem) {p : Nat} (hlt : pageVirt p + slabBytes < 2 ^ 32)
    {r : Mem × Nat} (h : linkObjects c c.objects m (pageVirt p) 0 = r) :
    Chain (link c (st32 r.1 (linkAddr c r.2) 0)) 0 (pageVirt p) (slots p c) := by
  have h₂ := c.two_le_objects
  have hs := c.objects_mul_size
  have hc := c.size_eq
  obtain ⟨n, hn⟩ : ∃ n, c.objects = n + 1 := ⟨c.objects - 1, by omega⟩
  have hlast : r.2 = pageVirt p + n * c.size := by rw [← h, hn]; exact linkObjects_last c n _ _ _
  have hsize : c.objects * c.size = n * c.size + c.size := by rw [hn, Nat.add_one_mul]
  have hch : Chain (link c (st32 r.1 (linkAddr c r.2) 0)) 0 (pageVirt p + 0 * c.size)
      ((List.range' 0 (n + 1)).map fun i => pageVirt p + i * c.size) := by
    refine chain_range (fun i => pageVirt p + i * c.size) (n := n + 1) ?_ ?_ ?_ n 0 (by omega)
    · intro i _
      simp only [pageVirt, kernelBaseAddr]; omega
    · intro i hi
      have hle : (i + 1) * c.size ≤ n * c.size := Nat.mul_le_mul_right _ (by omega)
      rw [Nat.add_one_mul] at hle
      simp only [hlast]
      rw [link, ld32_st32_apart _ _ (by unfold linkAddr; omega), ← h]
      exact linkObjects_link c _ m _ 0 i (by omega) (by omega)
    · intro i hi
      obtain rfl : i = n := by omega
      simp only [hlast]
      exact ld32_st32 _ _ (by decide)
  rw [slots, hn, range_eq_range']
  rwa [Nat.zero_mul, Nat.add_zero] at hch

def SlabState.withSlab (s : SlabState) (c : Cache) (p : Nat) : SlabState :=
  let m : Mem := fun x => if pageVirt p ≤ x ∧ x < pageVirt p + slabBytes then 0 else s.mem x
  let r := linkObjects c c.objects m (pageVirt p) 0
  { s.setPage p { s.page p with pgSlab := true, freelist := pageVirt p, inuse := 0, slab := c } with
    mem := st32 r.1 (linkAddr c r.2) 0
    nslub := update s.nslub c (s.nslub c + 1)
    log := .alloc p slabOrder :: s.log }

section
variable {s s' : SlabState} {view : Views} {pl : Cache → List Nat} {p : Nat} {c : Cache} {k : Cpu}

theorem page2virt_eq_some {x : Nat} :
    s.page2virt p = some x ↔ (p < s.maxPfn ∧ p * pageSize < normalAddr) ∧ pageVirt p = x := by
  unfold page2virt
  by_cases h₁ : s.maxPfn ≤ p
  · simp only [h₁, if_true, reduceCtorEq, false_iff]; omega
  · by_cases h₂ : normalAddr ≤ p * pageSize
    · simp only [h₁, h₂, if_true, if_false, reduceCtorEq, false_iff]; omega
    · simp only [h₁, h₂, if_false, some.injEq]; omega

theorem newSlab_eq (h : s.page2virt p = some (pageVirt p)) :
    s.newSlab c (some p) = some (some p, s.withSlab c p) := by
  obtain ⟨⟨h₁, h₂⟩, -⟩ := page2virt_eq_some.mp h
  simp only [newSlab, pagesAlloc, newSlabInit, page2virt,
    Nat.not_le.mpr h₁, Nat.not_le.mpr h₂, if_false, map_some, bind_eq_bind, bind_some]
  rfl

theorem withSlab_apart {a : Nat}
    (ha : a < pageVirt p ∨ pageVirt p + slabBytes ≤ a) : (s.withSlab c p).mem a = s.mem a := by
  have h₂ := c.two_le_objects
  have hs := c.objects_mul_size
  have hc := c.size_eq
  obtain ⟨n, hn⟩ : ∃ n, c.objects = n + 1 := ⟨c.objects - 1, by omega⟩
  rw [hn, Nat.add_one_mul] at hs
  unfold withSlab
  rw [hn]
  simp only [linkObjects_last]
  rw [st32_apart _ _ (by unfold linkAddr; omega), linkObjects_apart _ _ _ _ _ (by rw [Nat.add_one_mul]; omega)]
  exact if_neg (by omega)

theorem withSlab_link {q x : Nat} {d : Cache} (hp : 2 ^ slabOrder ∣ p) (hq : 2 ^ slabOrder ∣ q) (hne : q ≠ p)
    (hx : x ∈ slots q d) : link d (s.withSlab c p).mem x = link d s.mem x := by
  have h₁ := slot_inside hx
  have h₂ := d.size_eq
  refine ld32_congr fun a ha ha' => withSlab_apart ?_
  unfold linkAddr at ha ha'
  rcases block_apart hp hq (Ne.symm hne) with h | h
  · omega
  · omega

structure NewSlab (s s' : SlabState) (c : Cache) (k : Cpu) (p : Nat) : Prop where
  page : s'.page p = ⟨true, true, c, pageVirt p, 0⟩
  pages : ∀ q, q ≠ p → s'.page q = s.page q
  cpu : s'.cpu c k = { s.cpu c k with page := some p }
  cpus : ∀ c' k', ¬ (c' = c ∧ k' = k) → s'.cpu c' k' = s.cpu c' k'
  mem : s'.mem = (s.withSlab c p).mem
  log : s'.log = .alloc p slabOrder :: s.log
  nslub : s'.nslub = update s.nslub c (s.nslub c + 1)
  maxPfn : s'.maxPfn = s.maxPfn
  links : s'.links = s.links
  npartial : s'.npartial = s.npartial

theorem newSlab_state {s₁ : SlabState}
    (hs₁ : s₁ = (s.withSlab c p).setCpu c k { (s.withSlab c p).cpu c k with page := some p })
    (hs' : s' = s₁.setPage p { s₁.page p with pgActive := true }) : NewSlab s s' c k p := by
  have h₁ : s₁.page p = ⟨true, (s.page p).pgActive, c, pageVirt p, 0⟩ := by
    rw [hs₁]; exact setPage_page_self ..
  refine ⟨?_, fun q hq => ?_, ?_, fun c' k' h => ?_, ?_, ?_, ?_, ?_, ?_, ?_⟩
  · rw [hs', setPage_page_self, h₁]
  · rw [hs', setPage_page_of_ne _ _ _ hq, hs₁]
    exact setPage_page_of_ne _ _ _ hq
  · rw [hs', hs₁]; exact setCpu_cpu_self ..
  · rw [hs', hs₁]; exact setCpu_cpu_of_ne _ _ _ _ h
  all_goals rw [hs', hs₁]; rfl

theorem NewSlab.outstanding_eq (h : NewSlab s s' c k p) : outstanding s'.log = p :: outstanding s.log := by
  rw [h.log]
  rfl

theorem NewSlab.freelist_ne (h : NewSlab s s' c k p) : (s'.page p).freelist ≠ 0 := by
  rw [h.page]
  simp [pageVirt, kernelBaseAddr]

theorem NewSlab.pageRep (h : NewSlab s s' c k p) (hal : 2 ^ slabOrder ∣ p) (hm : s.page2virt p = some (pageVirt p))
    (hcf : (s.cpu c k).freelist = 0) : PageRep s' p ⟨c, slots p c, [], [], some k⟩ := by
  obtain ⟨⟨-, hlow⟩, -⟩ := page2virt_eq_some.mp hm
  have hlt : pageVirt p + slabBytes < 2 ^ 32 := by
    have e : slabBytes = 4194304 := by decide
    rw [e]; unfold normalAddr at hlow; unfold pageVirt kernelBaseAddr; omega
  refine ⟨hal, ?_, ?_, ?_, ?_, ?_, ?_, nofun, fun k' hk' => ?_, ?_⟩
  · unfold page2virt; rw [h.maxPfn]; exact hm
  · rw [h.page]
  · rw [h.page]; rfl
  · rw [h.page]
  · rw [h.page, h.mem]; exact newSlab_chain c _ hlt rfl
  · rw [h.page]; simp [length_slots]
  · obtain rfl : k = k' := some.inj hk'
    rw [h.cpu, hcf]
    exact ⟨rfl, rfl⟩
  · simp

theorem NewSlab.other {q : Nat} {w : SlabView} (h : NewSlab s s' c k p) (hal : 2 ^ slabOrder ∣ p)
    (hnone : (s.cpu c k).page = none) (hq : PageRep s q w) (hne : q ≠ p) : PageRep s' q w := by
  refine hq.other h.maxPfn (h.pages q hne) (fun c' k' hq' => h.cpus c' k' fun e => ?_) (fun x hx => ?_)
  · rw [e.1, e.2, hnone] at hq'; cases hq'
  · rw [h.mem]
    exact withSlab_link hal hq.aligned hne hx

theorem NewSlab.count (h : NewSlab s s' c k p) (hr : SlabRep s view pl) (hout : p ∉ outstanding s.log) (d : Cache) :
    s'.nslub d = (outstanding s'.log).countP fun q => (s'.page q).slab = d := by
  have hcount : (outstanding s.log).countP (fun q => (s'.page q).slab = d) =
      (outstanding s.log).countP fun q => (s.page q).slab = d := by
    refine countP_congr fun q hq => ?_
    rw [h.pages q fun e => hout (e ▸ hq)]
  rw [h.nslub, h.outstanding_eq, countP_cons, hcount, h.page]
  by_cases e : d = c
  · subst e; simp [hr.nslub]
  · simp [e, hr.nslub, Ne.symm e]

theorem newSlab_rep (hr : SlabRep s view pl) (hnone : (s.cpu c k).page = none)
    (hal : 2 ^ slabOrder ∣ p) (hfresh : view p = none) (hm : s.page2virt p = some (pageVirt p))
    (hnew : NewSlab s s' c k p) :
    (s'.page p).freelist ≠ 0 ∧ (s'.cpu c k).page = some p ∧ (s'.cpu c k).freelist = 0 ∧
      SlabRep s' (update view p (some ⟨c, slots p c, [], [], some k⟩)) pl := by
  have hcf := (hr.cpus c k).without hnone
  have hout : p ∉ outstanding s.log := by rw [hr.live, hfresh]; simp
  refine ⟨hnew.freelist_ne, by rw [hnew.cpu], by rw [hnew.cpu]; exact hcf, ?_⟩
  refine ⟨fun q => ?_, by rw [hnew.outstanding_eq]; exact nodup_cons.mpr ⟨hout, hr.nodup⟩, fun q w hw => ?_,
    fun c' k' => ?_, ?_, hnew.count hr hout⟩
  · rw [hnew.outstanding_eq, mem_cons, hr.live]
    by_cases e : q = p
    · subst e; simp
    · simp [e]
  · by_cases e : q = p
    · subst e
      rw [update_self, some.injEq] at hw
      subst hw
      exact hnew.pageRep hal hm hcf
    · rw [update_of_ne e] at hw
      exact hnew.other hal hnone (hr.pages q w hw) e
  · refine cpuRep_give (hr.cpus c' k') (fun w hw => ?_) hnew.cpus (by rw [hnew.cpu]) rfl rfl
    rw [hfresh] at hw; cases hw
  · refine hr.lists.same hnew.links hnew.npartial (fun d q => ?_)
    by_cases e : q = p
    · subst e
      rw [onPartial_update_self]
      simp [OnPartial, hfresh]
    · exact onPartial_update_of_ne e

end

/-! ## Allocation -/

def usedOf (view : Views) (p : Nat) : List Nat := (view p).elim [] SlabView.used

structure Keeps (s : SlabState) (view : Views) (s' : SlabState) (view' : Views) : Prop where
  cache : ∀ q v, view q = some v → ∃ v', view' q = some v' ∧ v'.cache = v.cache
  mem : ∀ q v, view q = some v → ∀ a, pageVirt q ≤ a → a < pageVirt q + slabBytes → s'.mem a = s.mem a

theorem Keeps.trans {s₁ s₂ s₃ : SlabState} {v₁ v₂ v₃ : Views} (h : Keeps s₁ v₁ s₂ v₂) (h' : Keeps s₂ v₂ s₃ v₃) :
    Keeps s₁ v₁ s₃ v₃ := by
  constructor
  · intro q v hv
    obtain ⟨v', hv', e⟩ := h.cache q v hv
    obtain ⟨v'', hv'', e'⟩ := h'.cache q v' hv'
    exact ⟨v'', hv'', e'.trans e⟩
  · intro q v hv a h₁ h₂
    obtain ⟨v', hv', _⟩ := h.cache q v hv
    exact (h'.mem q v' hv' a h₁ h₂).trans (h.mem q v hv a h₁ h₂)

section
variable {s s' : SlabState} {view : Views} {pl : Cache → List Nat} {p : Nat} {v v' : SlabView}
  {c : Cache} {k : Cpu} {blk : Option Nat}

theorem cache_update {q : Nat} {w : SlabView} (hv : view p = some v) (hc : v'.cache = v.cache)
    (hw : view q = some w) : ∃ w', update view p (some v') q = some w' ∧ w'.cache = w.cache := by
  by_cases e : q = p
  · subst e
    rw [hv, some.injEq] at hw
    exact ⟨v', by simp, hw ▸ hc⟩
  · exact ⟨w, by rw [update_of_ne e]; exact hw, rfl⟩

theorem Keeps.update (hv : view p = some v) (hc : v'.cache = v.cache) (hm : s'.mem = s.mem) :
    Keeps s view s' (update view p (some v')) := by
  exact ⟨fun q w hw => cache_update hv hc hw, fun _ _ _ _ _ _ => by rw [hm]⟩

theorem usedOf_update (view : Views) (p : Nat) (v' : SlabView) :
    usedOf (update view p (some v')) = update (usedOf view) p v'.used := by
  funext q
  by_cases e : q = p
  · subst e; simp [usedOf]
  · simp [usedOf, e]

theorem usedOf_some (hv : view p = some v) : usedOf view p = v.used := by simp [usedOf, hv]

inductive AllocSpec (s : SlabState) (view : Views) (c : Cache) (blk : Option Nat) :
    Option (Nat × SlabState) → Prop
  | panic {p : Nat} : blk = some p → s.page2virt p = none → AllocSpec s view c blk none
  | null {s' : SlabState} {view' : Views} {pl' : Cache → List Nat} : SlabRep s' view' pl' →
      Keeps s view s' view' → usedOf view' = usedOf view → AllocSpec s view c blk (some (0, s'))
  | object {o : Nat} {s' : SlabState} {view' : Views} {pl' : Cache → List Nat} {p : Nat} {v' : SlabView} :
      SlabRep s' view' pl' → Keeps s view s' view' → view' p = some v' → v'.cache = c →
      usedOf view' = update (usedOf view) p (o :: usedOf view p) → AllocSpec s view c blk (some (o, s'))

theorem AllocSpec.after {s₁ : SlabState} {view₁ : Views} {r : Option (Nat × SlabState)}
    (h : AllocSpec s₁ view₁ c blk r) (hk : Keeps s view s₁ view₁) (hu : usedOf view₁ = usedOf view)
    (hmax : s₁.maxPfn = s.maxPfn) : AllocSpec s view c blk r := by
  cases h with
  | panic hb hm =>
    refine .panic hb ?_
    unfold page2virt at hm ⊢
    rwa [hmax] at hm
  | null hr hk' hu' => exact .null hr (hk.trans hk') (hu'.trans hu)
  | object hr hk' hv hc hu' => exact .object hr (hk.trans hk') hv hc (by rw [← hu]; exact hu')

theorem pop_spec (hr : SlabRep s view pl) (h : (s.cpu c k).freelist ≠ 0) :
    AllocSpec s view c blk (some ((s.cpu c k).freelist,
      s.setCpu c k { s.cpu c k with freelist := ld32 s.mem (linkAddr c (s.cpu c k).freelist) })) := by
  obtain ⟨p, v, o, rest, hv, rfl, ho, hrep⟩ := pop_rep hr h
  rw [ho]
  refine .object hrep (.update hv rfl rfl) (update_self ..) rfl ?_
  rw [usedOf_update, usedOf_some hv]

theorem slabAllocLoop_load (hpg : (s.cpu c k).page = some p) (hpf : (s.page p).freelist ≠ 0) (fuel : Nat) :
    slabAllocLoop c k blk (fuel + 1) s = some ((s.page p).freelist, s.loadSlab c k p) := by
  rw [slabAllocLoop, hpg]
  simp only [ne_eq, hpf, not_false_eq_true, if_true]

theorem loadSlab_spec (hr : SlabRep s view pl) (hpg : (s.cpu c k).page = some p)
    (hcf : (s.cpu c k).freelist = 0) (hpf : (s.page p).freelist ≠ 0) (fuel : Nat) :
    AllocSpec s view c blk (slabAllocLoop c k blk (fuel + 1) s) := by
  obtain ⟨v, o, rest, hv, rfl, ho, hrep⟩ := loadSlab_rep hr hpg hcf hpf
  rw [slabAllocLoop_load hpg hpf, ho]
  refine .object hrep (.update hv rfl rfl) (update_self ..) rfl ?_
  rw [usedOf_update, usedOf_some hv]

theorem getPartialSlab_nil (hr : SlabRep s view pl) (h : pl c = []) : s.getPartialSlab c = some (none, s) := by
  unfold getPartialSlab
  rw [if_pos (by rw [hr.lists.npartial, h]; rfl)]

theorem getPartialSlab_cons (hr : SlabRep s view pl) {rest : List Nat} (h : pl c = p :: rest) :
    s.getPartialSlab c = some (some p, s.lockAndFreezeSlab c p) := by
  unfold getPartialSlab
  rw [if_neg (by rw [hr.lists.npartial, h]; simp; omega), hr.lists.first h]

/-- The rounds from label `new_slab`. -/
theorem newSlab_spec (hr : SlabRep s view pl) (hnone : (s.cpu c k).page = none) (hb : BlockOk s blk)
    (fuel : Nat) : AllocSpec s view c blk (slabAllocLoop c k blk (fuel + 2) s) := by
  rw [slabAllocLoop, hnone]
  cases hpl : pl c with
  | cons p rest =>
    rw [getPartialSlab_cons hr hpl]
    obtain ⟨hpf, hpg, hcf, v, pl', hv, rfl, hrep⟩ := freeze_rep hr hnone hpl rfl
    have hload : AllocSpec _ _ v.cache blk _ := loadSlab_spec hrep hpg hcf hpf fuel
    refine hload.after (.update hv rfl rfl) ?_ rfl
    rw [usedOf_update, ← usedOf_some hv, update_eq_self]
  | nil =>
    simp only [getPartialSlab_nil hr hpl, bind_eq_bind, bind_some]
    cases blk with
    | none => exact .null hr ⟨fun q v hv => ⟨v, hv, rfl⟩, fun _ _ _ _ _ _ => rfl⟩ rfl
    | some p =>
      cases hm : s.page2virt p with
      | none =>
        have : s.newSlab c (some p) = none := by
          simp [newSlab, pagesAlloc, hm]
        rw [this]
        exact .panic rfl hm
      | some x =>
        obtain rfl := (page2virt_eq_some.mp hm).2
        obtain ⟨hal, hap⟩ := hb p rfl
        have hfresh : view p = none := by
          cases hv : view p with
          | none => rfl
          | some v =>
            have := hap p ((hr.live p).mpr ⟨v, hv⟩)
            have := Nat.two_pow_pos slabOrder
            omega
        obtain ⟨hpf, hpg, hcf, hrep⟩ := newSlab_rep hr hnone hal hfresh hm (newSlab_state rfl rfl)
        rw [newSlab_eq hm]
        have hload : AllocSpec _ _ c (some p) _ := loadSlab_spec hrep hpg hcf hpf fuel
        refine hload.after ⟨fun q v hv => ⟨v, ?_, rfl⟩, fun q v hv a h₁ h₂ => ?_⟩ ?_ rfl
        · rw [update_of_ne fun e => by rw [e, hfresh] at hv; cases hv]; exact hv
        · refine withSlab_apart ?_
          have hne : p ≠ q := fun e => by rw [← e, hfresh] at hv; cases hv
          rcases block_apart hal (hr.pages q v hv).aligned hne with h | h
          · omega
          · omega
        · rw [usedOf_update]
          have : usedOf view p = [] := by simp [usedOf, hfresh]
          rw [← this, update_eq_self]

theorem slabAlloc_spec (hr : SlabRep s view pl) (hb : BlockOk s blk) :
    AllocSpec s view c blk (s.slabAlloc c k blk) := by
  unfold slabAlloc
  by_cases hcf : (s.cpu c k).freelist = 0
  · rw [if_pos hcf]
    cases hpg : (s.cpu c k).page with
    | none => exact newSlab_spec hr hpg hb 1
    | some p =>
      by_cases hpf : (s.page p).freelist = 0
      · obtain ⟨heq, v, hv, rfl, hrep⟩ := deactivateSlab_rep hr hpg hcf hpf
        rw [slabAllocLoop, hpg]
        simp only [hpf, ne_eq, not_true_eq_false, if_false, heq, bind_eq_bind, bind_some]
        have hnone : ((s.dropPage v.cache k p).cpu v.cache k).page = none := by
          have : (s.dropPage v.cache k p).cpu v.cache k = _ := setCpu_cpu_self ..
          rw [this]
        refine (newSlab_spec hrep hnone hb 0).after (.update hv rfl rfl) ?_ rfl
        rw [usedOf_update, ← usedOf_some hv, update_eq_self]
      · exact loadSlab_spec hr hpg hcf hpf 2
  · rw [if_neg hcf]
    exact pop_spec hr hcf

/-! ## Release -/

variable {o : Nat} {l₁ l₂ : List Nat}

theorem PageRep.used_perm (hp : PageRep s p v) (ho : v.used = l₁ ++ o :: l₂) :
    (o :: (v.free ++ v.cpuFree ++ (l₁ ++ l₂))).Perm (slots p v.cache) := by
  refine List.Perm.trans ?_ hp.perm
  rw [ho, ← append_assoc, ← append_assoc (v.free ++ v.cpuFree)]
  exact perm_middle.symm

theorem PageRep.not_free (hp : PageRep s p v) (ho : v.used = l₁ ++ o :: l₂) :
    o ∉ v.free ∧ o ∉ v.cpuFree := by
  have hnd := (hp.used_perm ho).nodup_iff.mpr (slots_nodup _ _)
  have := (nodup_cons.mp hnd).1
  simp only [mem_append, not_or] at this
  exact this.1

theorem PageRep.push_chain (hp : PageRep s p v) (ho : o ∈ slots p v.cache) {a : Nat} {xs : List Nat}
    (hxs : Chain (link v.cache s.mem) 0 a xs) (hx : ∀ x ∈ xs, x ∈ slots p v.cache) (hno : o ∉ xs) :
    Chain (link v.cache (st32 s.mem (linkAddr v.cache o) a)) 0 o (o :: xs) := by
  have ha : a < 2 ^ 32 := by
    cases xs with
    | nil => rw [show a = 0 from hxs]; decide
    | cons x xs => rw [hxs.1]; exact hp.lt_two_pow (hx x (mem_cons_self ..))
  refine ⟨rfl, slot_ne_zero ho, ?_⟩
  rw [link, ld32_st32 _ _ ha]
  refine hxs.congr fun x hx' => ?_
  exact link_st32 _ _ hp.aligned hp.aligned ho (hx x hx') (.inr ⟨rfl, fun e => hno (e ▸ hx')⟩)

theorem PageRep.keep_chain (hp : PageRep s p v) (ho : o ∈ slots p v.cache) {a b : Nat} {xs : List Nat}
    (hxs : Chain (link v.cache s.mem) 0 a xs) (hx : ∀ x ∈ xs, x ∈ slots p v.cache) (hno : o ∉ xs) :
    Chain (link v.cache (st32 s.mem (linkAddr v.cache o) b)) 0 a xs :=
  hxs.congr fun x hx' =>
    link_st32 _ _ hp.aligned hp.aligned ho (hx x hx') (.inr ⟨rfl, fun e => hno (e ▸ hx')⟩)

structure FreeSpec (s : SlabState) (view : Views) (p : Nat) (v : SlabView) (o : Nat) (u : List Nat)
    (s' : SlabState) (view' : Views) : Prop where
  used : usedOf view' = update (usedOf view) p u
  cache : ∀ q w, view q = some w → (q ≠ p ∨ u ≠ []) → ∃ w', view' q = some w' ∧ w'.cache = w.cache
  mem : ∀ a, (a < linkAddr v.cache o ∨ linkAddr v.cache o + 4 ≤ a) → s'.mem a = s.mem a

theorem freeSpec_update (v' : SlabView) (hv : view p = some v) (hc : v'.cache = v.cache) {x : Nat}
    (hm : s'.mem = st32 s.mem (linkAddr v.cache o) x) :
    FreeSpec s view p v o v'.used s' (update view p (some v')) := by
  exact ⟨usedOf_update _ _ _, fun q w hw _ => cache_update hv hc hw,
    fun a ha => by rw [hm]; exact st32_apart _ _ ha⟩

theorem frame_st32 (hp : PageRep s p v) (ho : o ∈ slots p v.cache) {x : Nat}
    (hm : s'.mem = st32 s.mem (linkAddr v.cache o) x) (q : Nat) (d : Cache) (hq : q ≠ p)
    (hal : 2 ^ slabOrder ∣ q) : ∀ y ∈ slots q d, link d s'.mem y = link d s.mem y := by
  intro y hy
  rw [hm]
  exact link_st32 _ _ hp.aligned hal ho hy (.inl (Ne.symm hq))

theorem push_spec (hr : SlabRep s view pl) (hv : view p = some v) (ho : v.used = l₁ ++ o :: l₂)
    (hpg : (s.cpu v.cache k).page = some p) (hs' : s' =
      { s with mem := st32 s.mem (linkAddr v.cache o) (s.cpu v.cache k).freelist }.setCpu v.cache k
        { s.cpu v.cache k with freelist := o }) :
    ∃ view', SlabRep s' view' pl ∧ FreeSpec s view p v o (l₁ ++ l₂) s' view' := by
  obtain ⟨w, hw, -, how, hp, hch⟩ := hr.held hpg
  obtain rfl : v = w := some.inj (hv.symm.trans hw)
  have hos : o ∈ slots p v.cache := hp.mem_slots_of_used (by rw [ho]; simp)
  obtain ⟨hn₁, hn₂⟩ := hp.not_free ho
  have hcpu : s'.cpu v.cache k = { s.cpu v.cache k with freelist := o } := by rw [hs']; exact setCpu_cpu_self ..
  have hmem : s'.mem = st32 s.mem (linkAddr v.cache o) (s.cpu v.cache k).freelist := by rw [hs']; rfl
  have hpage : s'.page = s.page := by rw [hs']; rfl
  have hspec := freeSpec_update { v with cpuFree := o :: v.cpuFree, used := l₁ ++ l₂ } hv rfl hmem
  refine ⟨_, ?_, hspec⟩
  have hf : SlabFrame s s' p := ⟨by rw [hs']; rfl, by rw [hs']; rfl, by rw [hs']; rfl, fun _ _ => by rw [hpage],
    by rw [hpage], fun q d hq hal => frame_st32 hp hos hmem q d hq hal⟩
  refine hr.owned hv how rfl how hf (by rw [hs']; rfl) (by rw [hs']; rfl) (fun c' k' h => ?_) ?_
  · rw [hs']; exact setCpu_cpu_of_ne _ _ _ _ h
  · refine hp.change hf (by rw [hpage]) rfl ?_ ?_ ?_ (fun h => ?_) (fun k' hk' => ?_) ?_
    · rw [hpage]; exact hp.active
    · rw [hpage, hmem]
      exact hp.keep_chain hos hp.chain (fun x hx => hp.mem_slots_of_free hx) hn₁
    · rw [hpage]; exact hp.inuse
    · rw [show v.owner = none from h] at how; cases how
    · obtain rfl : k' = k := some.inj (Eq.trans (Eq.symm hk') how)
      rw [hcpu, hmem]
      exact ⟨hpg, hp.push_chain hos hch (fun x hx => hp.mem_slots_of_cpuFree hx) hn₂⟩
    · refine List.Perm.trans ?_ (hp.used_perm ho)
      rw [append_assoc, cons_append, append_assoc]
      exact perm_middle

def SlabState.pushFree (s : SlabState) (c : Cache) (p o : Nat) : SlabState :=
  { s with mem := st32 s.mem (linkAddr c o) (s.page p).freelist }.setPage p
    { s.page p with freelist := o, inuse := (s.page p).inuse - 1 }

theorem slabFreeSlow_eq : s.slabFreeSlow c p o =
    if (s.page p).pgActive then some (s.pushFree c p o)
    else if (s.page p).inuse - 1 = 0 then
      some ((if (s.page p).freelist ≠ 0 then (s.pushFree c p o).removePartial c p
        else s.pushFree c p o).discardSlab c p)
    else if (s.page p).freelist = 0 then
      if (s.page p).inuse - 1 = c.objects - 1 then some ((s.pushFree c p o).addPartial c p) else none
    else some (s.pushFree c p o) := by
  have hpage : (s.pushFree c p o).page p = { s.page p with freelist := o, inuse := (s.page p).inuse - 1 } :=
    setPage_page_self ..
  have h : s.slabFreeSlow c p o =
      if ((s.pushFree c p o).page p).pgActive then some (s.pushFree c p o)
      else if ((s.pushFree c p o).page p).inuse = 0 then
        some ((if (s.page p).freelist ≠ 0 then (s.pushFree c p o).removePartial c p
          else s.pushFree c p o).discardSlab c p)
      else if (s.page p).freelist = 0 then
        if ((s.pushFree c p o).page p).inuse = c.objects - 1 then some ((s.pushFree c p o).addPartial c p) else none
      else some (s.pushFree c p o) := rfl
  rw [h, hpage]

theorem pushFree_frame (hp : PageRep s p v) (ho : v.used = l₁ ++ o :: l₂) :
    SlabFrame s (s.pushFree v.cache p o) p := by
  have hos : o ∈ slots p v.cache := hp.mem_slots_of_used (by rw [ho]; simp)
  refine ⟨rfl, rfl, rfl, fun q hq => setPage_page_of_ne _ _ _ hq, ?_,
    fun q d hq hal => frame_st32 hp hos rfl q d hq hal⟩
  rw [pushFree, setPage_page_self]

theorem pushFree_page (hp : PageRep s p v) (ho : v.used = l₁ ++ o :: l₂) :
    PageRep (s.pushFree v.cache p o) p { v with free := o :: v.free, used := l₁ ++ l₂ } := by
  have hos : o ∈ slots p v.cache := hp.mem_slots_of_used (by rw [ho]; simp)
  obtain ⟨hn₁, hn₂⟩ := hp.not_free ho
  have hpage : (s.pushFree v.cache p o).page p =
      { s.page p with freelist := o, inuse := (s.page p).inuse - 1 } := setPage_page_self ..
  refine hp.change (pushFree_frame hp ho) (by rw [hpage]) rfl ?_ ?_ ?_ hp.idle (fun k' hk' => ?_) ?_
  · rw [hpage]; exact hp.active
  · rw [hpage]
    exact hp.push_chain hos hp.chain (fun x hx => hp.mem_slots_of_free hx) hn₁
  · rw [hpage]
    simp only [hp.inuse, length_cons]; omega
  · obtain ⟨h₁, h₂⟩ := hp.cpu k' hk'
    exact ⟨h₁, hp.keep_chain hos h₂ (fun x hx => hp.mem_slots_of_cpuFree hx) hn₂⟩
  · refine List.Perm.trans ?_ (hp.used_perm ho)
    rw [cons_append, cons_append]

theorem SlabRep.nslub_erase (hr : SlabRep s view pl) (hv : view p = some v) (d : Cache) :
    update s.nslub v.cache (s.nslub v.cache - 1) d =
      ((outstanding s.log).erase p).countP fun q => (s.page q).slab = d := by
  have hperm := perm_cons_erase ((hr.live p).mpr ⟨v, hv⟩)
  have hcount := hperm.countP_eq fun q => decide ((s.page q).slab = d)
  rw [countP_cons, (hr.pages p v hv).slab] at hcount
  by_cases e : d = v.cache
  · subst e
    rw [update_self, hr.nslub, hcount]; simp
  · rw [update_of_ne e, hr.nslub, hcount]; simp [Ne.symm e]

theorem discardSlab_rep (hr : SlabRep s view pl) (hv : view p = some v) (ho : v.used = l₁ ++ o :: l₂)
    (hown : v.owner = none) (hlast : (s.page p).inuse - 1 = 0) {s₁ : SlabState}
    (hs₁ : s₁ = ((s.pushFree v.cache p o).removePartial v.cache p).discardSlab v.cache p) :
    l₁ ++ l₂ = [] ∧ (s.page p).freelist ≠ 0 ∧ ∃ pl', SlabRep s₁ (update view p none) pl' := by
  have hp := hr.pages p v hv
  have hlen := (hp.used_perm ho).length_eq
  have hobj := v.cache.two_le_objects
  rw [hp.inuse] at hlast
  rw [length_slots] at hlen
  simp only [length_cons, length_append] at hlen
  have hfree : v.free ≠ [] := by
    intro h
    rw [h, length_nil] at hlast; omega
  refine ⟨eq_nil_of_length_eq_zero (by rw [length_append]; omega),
    fun h => hfree (hp.chain.nil_iff.mpr h), ?_⟩
  have hrem : ∃ pl', PartialRep s₁ (update view p none) pl' := by
    refine hr.lists.remove ⟨v, hv, rfl, hown, hfree⟩ (fun d => ?_) (fun d q hq => onPartial_update_of_ne hq)
      (by rw [hs₁]; rfl) (by rw [hs₁]; rfl)
    simp [OnPartial]
  obtain ⟨pl', hl⟩ := hrem
  have hf := pushFree_frame hp ho
  have hlog : outstanding s₁.log = (outstanding s.log).erase p := by rw [hs₁]; rfl
  have hpage : s₁.page = (s.pushFree v.cache p o).page := by rw [hs₁]; rfl
  have hmem : s₁.mem = (s.pushFree v.cache p o).mem := by rw [hs₁]; rfl
  have hcpu : s₁.cpu = s.cpu := by rw [hs₁]; rfl
  refine ⟨pl', fun q => ?_, by rw [hlog]; exact hr.nodup.erase p, fun q w hw => ?_, fun c k => ?_, hl, fun d => ?_⟩
  · rw [hlog, hr.nodup.mem_erase_iff, hr.live]
    by_cases e : q = p
    · subst e; simp
    · simp [e]
  · have e : q ≠ p := by
      intro h'
      rw [h', update_self] at hw; cases hw
    rw [update_of_ne e] at hw
    have hq := hr.pages q w hw
    refine hq.other (by rw [hs₁]; rfl) (by rw [hpage]; exact hf.page q e) (fun c k _ => by rw [hcpu])
      (fun x hx => ?_)
    rw [hmem]; exact hf.mem q _ e hq.aligned x hx
  · refine (hr.cpus c k).elsewhere (by rw [hcpu]) (fun w hw _ hwo => ?_) _
    rw [hv, some.injEq] at hw
    rw [← hw, hown] at hwo; cases hwo
  · have hn : s₁.nslub = update s.nslub v.cache (s.nslub v.cache - 1) := by rw [hs₁]; rfl
    have hslab : ∀ q, (s₁.page q).slab = (s.page q).slab := by
      intro q
      rw [hpage]
      by_cases e : q = p
      · subst e; exact hf.slab
      · rw [hf.page q e]
    rw [hn, hlog]
    simp only [hslab]
    exact hr.nslub_erase hv d

theorem slabFreeSlow_spec (hr : SlabRep s view pl) (hv : view p = some v) (ho : v.used = l₁ ++ o :: l₂) :
    ∃ s', s.slabFreeSlow v.cache p o = some s' ∧
      ∃ view' pl', SlabRep s' view' pl' ∧ FreeSpec s view p v o (l₁ ++ l₂) s' view' := by
  have hp := hr.pages p v hv
  have hp' := pushFree_page hp ho
  have hf := pushFree_frame hp ho
  have hspec := fun (s₁ : SlabState) (h : s₁.mem = (s.pushFree v.cache p o).mem) =>
    freeSpec_update { v with free := o :: v.free, used := l₁ ++ l₂ } hv rfl h
  rw [slabFreeSlow_eq]
  cases hown : v.owner with
  | some k =>
    rw [if_pos (by rw [hp.active, hown]; rfl)]
    refine ⟨_, rfl, _, pl, ?_, hspec _ rfl⟩
    exact hr.owned hv hown rfl hown hf rfl rfl (fun _ _ _ => rfl) hp'
  | none =>
    rw [if_neg (by rw [hp.active, hown]; simp)]
    by_cases hlast : (s.page p).inuse - 1 = 0
    · obtain ⟨hnil, hpf, pl', hrep⟩ := discardSlab_rep hr hv ho hown hlast rfl
      rw [if_pos hlast, if_pos hpf, hnil]
      refine ⟨_, rfl, _, pl', hrep, ?_, fun q w hw hq => ⟨w, ?_, rfl⟩, fun a ha => st32_apart _ _ ha⟩
      · funext q
        by_cases e : q = p
        · subst e; simp [usedOf]
        · simp [usedOf, e]
      · rw [update_of_ne (hq.resolve_right (by simp))]; exact hw
    · rw [if_neg hlast]
      by_cases hpf : (s.page p).freelist = 0
      · have hfree : v.free = [] := hp.chain.nil_iff.mpr hpf
        rw [if_pos hpf, if_pos (by rw [hp.inuse, hfree]; simp)]
        refine ⟨_, rfl, _, update pl v.cache (p :: pl v.cache), ?_, hspec _ rfl⟩
        refine hr.unowned hv hown ⟨hf.maxPfn, hf.log, hf.nslub, hf.page, hf.slab, hf.mem⟩ rfl
          (hp'.other rfl rfl (fun _ _ _ => rfl) (fun _ _ => rfl)) ?_
        refine hr.lists.add (fun d => ?_) (fun d => ?_) (fun d q hq => onPartial_update_of_ne hq) rfl rfl
        · simp [OnPartial, hv, hfree]
        · rw [onPartial_update_self]
          simp [hown, eq_comm]
      · rw [if_neg hpf]
        refine ⟨_, rfl, _, pl, ?_, hspec _ rfl⟩
        refine hr.unowned hv hown hf rfl hp' (hr.lists.same rfl rfl (onPartial_update hv rfl ?_))
        have hfree : v.free ≠ [] := fun h => hpf (hp.chain.nil_iff.mp h)
        simp [hfree]

theorem kfree_spec (hr : SlabRep s view pl) (hv : view p = some v) (ho : v.used = l₁ ++ o :: l₂) :
    ∃ s', s.kfree k o = some s' ∧
      ∃ view' pl', SlabRep s' view' pl' ∧ FreeSpec s view p v o (l₁ ++ l₂) s' view' := by
  have hp := hr.pages p v hv
  have hos : o ∈ slots p v.cache := hp.mem_slots_of_used (by rw [ho]; simp)
  unfold kfree
  rw [if_neg (slot_ne_zero hos), hp.getSlab hos, bind_some, hp.slab]
  unfold slabFree
  rw [if_neg (by rw [hp.pgSlab]; simp)]
  by_cases hpg : (s.cpu v.cache k).page = some p
  · rw [if_pos hpg]
    obtain ⟨view', hrep, hspec⟩ := push_spec hr hv ho hpg rfl
    exact ⟨_, rfl, view', pl, hrep, hspec⟩
  · rw [if_neg hpg]
    exact slabFreeSlow_spec hr hv ho

end

/-! ## Runs -/

theorem sizeMapFill_apply (map : Nat → Cache) (j : Cache) (i : Nat) : ∀ n : Nat,
    sizeMapFill map j n i = if i ≤ n then j else map i
  | 0 => by
    by_cases h : i = 0
    · subst h; simp [sizeMapFill]
    · simp [sizeMapFill, h]
  | n + 1 => by
    rw [sizeMapFill, sizeMapFill_apply _ j i n]
    by_cases h : i = n + 1
    · subst h; simp
    · rw [update_of_ne h]
      simp only [show i ≤ n + 1 ↔ i ≤ n by omega]

theorem foldl_sizeMapFill {i : Nat} : ∀ (l : List Cache) (map : Nat → Cache), i ≤ cacheSize (map i) →
    i ≤ cacheSize (l.foldl (fun m j => sizeMapFill m j (cacheSize j)) map i)
  | [], _, h => h
  | j :: l, map, h => by
    refine foldl_sizeMapFill l _ ?_
    simp only [sizeMapFill_apply]
    by_cases hj : i ≤ cacheSize j
    · rwa [if_pos hj]
    · rwa [if_neg hj]

theorem sizeMap_fits {n : Nat} (h : n ≤ pageSize) : n ≤ (sizeMap n).objsize := by
  unfold sizeMap sizeMapInit
  by_cases h₀ : n = 0
  · subst h₀; exact Nat.zero_le _
  · rw [update_of_ne h₀]
    have hl : (List.finRange 12).reverse = 11 :: [10, 9, 8, 7, 6, 5, 4, 3, 2, 1, 0] := by decide
    have hn : n ≤ cacheSize 11 := h
    rw [hl, foldl_cons]
    refine foldl_sizeMapFill _ _ ?_
    rwa [sizeMapFill_apply, if_pos hn]

def handed (out : List (Nat × Nat)) (p : Nat) : List Nat := (out.map Prod.fst).filter fun o => slabPfn o = p

structure OutRep (view : Views) (out : List (Nat × Nat)) : Prop where
  used : ∀ p, usedOf view p = handed out p
  home : ∀ o ∈ out, ∃ v, view (slabPfn o.1) = some v ∧ o.2 ≤ v.cache.objsize

def SlabOk (s : SlabState) (out : List (Nat × Nat)) : Prop :=
  ∃ view pl, SlabRep s view pl ∧ OutRep view out

section
variable {s s' : SlabState} {view : Views} {pl : Cache → List Nat} {out l₁ l₂ : List (Nat × Nat)} {p o n : Nat}
  {v : SlabView} {k : Cpu} {blk : Option Nat} {x : Nat}

theorem OutRep.mem_used (h : OutRep view out) (hv : view p = some v) :
    x ∈ v.used ↔ (∃ m, (x, m) ∈ out) ∧ slabPfn x = p := by
  rw [← usedOf_some hv, h.used]
  simp [handed]

theorem handed_cons (q : Nat) :
    handed ((o, n) :: out) q = if slabPfn o = q then o :: handed out q else handed out q := by
  unfold handed
  rw [map_cons, filter_cons]
  simp

theorem handed_middle (l₁ l₂ : List (Nat × Nat)) (n q : Nat) (h : slabPfn o = q) :
    ∃ a b, handed (l₁ ++ (o, n) :: l₂) q = a ++ o :: b ∧ handed (l₁ ++ l₂) q = a ++ b := by
  refine ⟨handed l₁ q, handed l₂ q, ?_, ?_⟩
  · simp [handed, h]
  · simp [handed]

theorem handed_middle_of_ne (q : Nat) (h : slabPfn o ≠ q) :
    handed (l₁ ++ (o, n) :: l₂) q = handed (l₁ ++ l₂) q := by
  simp [handed, h]

theorem kmalloc_spec (hr : SlabRep s view pl) (hn : 1 ≤ n) (hn' : n ≤ pageSize)
    (hb : BlockOk s blk) (h : s.kmalloc k n blk = some (o, s')) :
    AllocSpec s view (sizeMap n) blk (some (o, s')) := by
  unfold kmalloc at h
  rw [if_neg (by omega), if_neg (by omega)] at h
  exact h ▸ slabAlloc_spec hr hb

theorem kmalloc_ok (hi : SlabOk s out) (hn : 1 ≤ n) (hn' : n ≤ pageSize) (hb : BlockOk s blk)
    (h : s.kmalloc k n blk = some (o, s')) :
    (o ≠ 0 → SlabOk s' ((o, n) :: out)) ∧ (o = 0 → SlabOk s' out) ∧
      ∀ p ∈ outstanding s.log, ∀ a, pageVirt p ≤ a → a < pageVirt p + slabBytes → s'.mem a = s.mem a := by
  obtain ⟨view, pl, hr, ho⟩ := hi
  have hspec := kmalloc_spec hr hn hn' hb h
  have hmem : ∀ {view'}, Keeps s view s' view' → ∀ p ∈ outstanding s.log, ∀ a, pageVirt p ≤ a →
      a < pageVirt p + slabBytes → s'.mem a = s.mem a := by
    intro view' hk p hp
    obtain ⟨v, hv⟩ := (hr.live p).mp hp
    exact hk.mem p v hv
  have hhome : ∀ {view'}, Keeps s view s' view' → ∀ o ∈ out, ∃ v, view' (slabPfn o.1) = some v ∧
      o.2 ≤ v.cache.objsize := by
    intro view' hk o hm
    obtain ⟨v, hv, hle⟩ := ho.home o hm
    obtain ⟨v', hv', hc⟩ := hk.cache _ v hv
    exact ⟨v', hv', hc ▸ hle⟩
  cases hspec with
  | null hr' hk hu =>
    exact ⟨fun h => absurd rfl h, fun _ => ⟨_, _, hr', fun p => by rw [hu]; exact ho.used p, hhome hk⟩, hmem hk⟩
  | @object _ _ view' pl' p v' hr' hk hv hc hu =>
    have hused : v'.used = o :: usedOf view p := by
      rw [← usedOf_some hv, hu, update_self]
    have hp := hr'.pages p v' hv
    have hos : o ∈ slots p v'.cache := hp.mem_slots_of_used (by rw [hused]; simp)
    have hpfn := slabPfn_slot hp.aligned hos
    refine ⟨fun _ => ⟨view', pl', hr', fun q => ?_, fun x hx => ?_⟩, fun h => absurd h (slot_ne_zero hos), hmem hk⟩
    · rw [hu, handed_cons, hpfn]
      by_cases e : p = q
      · subst e; simp [ho.used]
      · rw [update_of_ne (Ne.symm e), if_neg e]; exact ho.used q
    · cases hx with
      | head => exact ⟨v', by rw [hpfn]; exact hv, by rw [hc]; exact sizeMap_fits hn'⟩
      | tail _ hx => exact hhome hk x hx

theorem kfree_ok (hi : SlabOk s (l₁ ++ (o, n) :: l₂)) :
    ∃ s', s.kfree k o = some s' ∧ SlabOk s' (l₁ ++ l₂) ∧
      ∀ x ∈ l₁ ++ (o, n) :: l₂, ∀ i < (s.page (slabPfn x.1)).slab.objsize, s'.mem (x.1 + i) = s.mem (x.1 + i) := by
  obtain ⟨view, pl, hr, ho⟩ := hi
  obtain ⟨v, hv, -⟩ := ho.home (o, n) (by simp)
  have hp := hr.pages _ v hv
  obtain ⟨a, b, hab, hab'⟩ := handed_middle l₁ l₂ n (slabPfn o) rfl
  have hused : v.used = a ++ o :: b := by rw [← usedOf_some hv, ho.used]; exact hab
  have hos : o ∈ slots (slabPfn o) v.cache := hp.mem_slots_of_used (by rw [hused]; simp)
  obtain ⟨s', heq, view', pl', hr', hspec⟩ := kfree_spec (k := k) hr hv hused
  refine ⟨s', heq, ⟨view', pl', hr', fun q => ?_, fun x hx => ?_⟩, fun x hx i hlt => hspec.mem _ ?_⟩
  · rw [hspec.used]
    by_cases e : q = slabPfn o
    · rw [e, update_self, hab']
    · rw [update_of_ne e, ho.used, handed_middle_of_ne q (Ne.symm e)]
  · obtain ⟨w, hw, hle⟩ := ho.home x (by simp only [mem_append, mem_cons] at hx ⊢; tauto)
    have hkeep : slabPfn x.1 ≠ slabPfn o ∨ a ++ b ≠ [] := by
      by_cases e : slabPfn x.1 = slabPfn o
      · right
        rw [← hab']
        exact ne_nil_of_mem (mem_filter.mpr ⟨List.mem_map.mpr ⟨x, hx, rfl⟩, by simpa using e⟩)
      · exact .inl e
    obtain ⟨w', hw', hc⟩ := hspec.cache _ w hw hkeep
    exact ⟨w', hw', hc ▸ hle⟩
  · -- the link of `o` lies above its first `objsize` bytes and outside every other object
    obtain ⟨w, hw, -⟩ := ho.home x hx
    have hpw := hr.pages _ w hw
    rw [hpw.slab] at hlt
    have hxs : x.1 ∈ slots (slabPfn x.1) w.cache :=
      hpw.mem_slots_of_used ((ho.mem_used hw).mpr ⟨⟨x.2, hx⟩, rfl⟩)
    have h₁ := w.cache.objsize_le
    have h₂ := w.cache.size_eq
    have h₃ := v.cache.size_eq
    by_cases e : x.1 = o
    · rw [e] at hw ⊢
      obtain rfl : v = w := some.inj (hv.symm.trans hw)
      left; unfold linkAddr; omega
    · have hap : x.1 + w.cache.size ≤ o ∨ o + v.cache.size ≤ x.1 := by
        refine slot_apart hpw.aligned hp.aligned hxs hos ?_
        by_cases e' : slabPfn x.1 = slabPfn o
        · right
          rw [e', hv, some.injEq] at hw
          exact ⟨by rw [hw], e⟩
        · exact .inl e'
      unfold linkAddr; omega

theorem SlabRep.mem_other (hr : SlabRep s view pl) {m : Mem}
    (hm : ∀ p v, view p = some v → ∀ x ∈ slots p v.cache, link v.cache m x = link v.cache s.mem x) :
    SlabRep { s with mem := m } view pl :=
  { live := hr.live
    nodup := hr.nodup
    pages := fun p v hv => (hr.pages p v hv).other rfl rfl (fun _ _ _ => rfl) (hm p v hv)
    cpus := fun c k => ⟨(hr.cpus c k).without, (hr.cpus c k).holding⟩
    lists := hr.lists.same rfl rfl fun _ _ => Iff.rfl
    nslub := hr.nslub }

theorem write_ok (hi : SlabOk s out) {a : Nat} (b : UInt8)
    (ha : (∀ p ∈ outstanding s.log, a < pageVirt p ∨ pageVirt p + slabBytes ≤ a) ∨
      ∃ o ∈ out, o.1 ≤ a ∧ a < o.1 + (s.page (slabPfn o.1)).slab.objsize) :
    SlabOk { s with mem := update s.mem a b } out := by
  obtain ⟨view, pl, hr, ho⟩ := hi
  refine ⟨view, pl, hr.mem_other fun p v hv x hx => ld32_congr fun y h₁ h₂ => ?_, ho⟩
  refine update_of_ne ?_ _ _
  have hp := hr.pages p v hv
  have hin := slot_inside hx
  have hsz := v.cache.size_eq
  unfold linkAddr at h₁ h₂
  cases ha with
  | inl ha =>
    have := ha p ((hr.live p).mpr ⟨v, hv⟩)
    omega
  | inr ha =>
    obtain ⟨o, hm, h₃, h₄⟩ := ha
    obtain ⟨w, hw, -⟩ := ho.home o hm
    have hq := hr.pages _ w hw
    rw [hq.slab] at h₄
    have hos : o.1 ∈ slots (slabPfn o.1) w.cache :=
      hq.mem_slots_of_used ((ho.mem_used hw).mpr ⟨⟨o.2, hm⟩, rfl⟩)
    have h₅ := w.cache.objsize_le
    have h₆ := w.cache.size_eq
    by_cases e : p = slabPfn o.1
    · rw [e, hw, some.injEq] at hv
      subst hv
      by_cases e' : x = o.1
      · omega
      · rcases slot_apart hp.aligned hq.aligned hx hos (.inr ⟨rfl, e'⟩) with h | h
        · omega
        · omega
    · rcases slot_apart hp.aligned hq.aligned hx hos (.inl e) with h | h
      · omega
      · omega

theorem page_ok (hi : SlabOk s out) (r : SlabPage) (hp : p ∉ outstanding s.log) : SlabOk (s.setPage p r) out := by
  obtain ⟨view, pl, hr, ho⟩ := hi
  have hne : ∀ q ∈ outstanding s.log, (s.setPage p r).page q = s.page q := fun q hq =>
    setPage_page_of_ne _ _ _ fun e => hp (e ▸ hq)
  refine ⟨view, pl, ⟨hr.live, hr.nodup, fun q w hw => ?_, fun c k => ?_, ?_, fun c => ?_⟩, ho⟩
  · exact (hr.pages q w hw).other rfl (hne q ((hr.live q).mpr ⟨w, hw⟩)) (fun _ _ _ => rfl) (fun _ _ => rfl)
  · exact ⟨(hr.cpus c k).without, (hr.cpus c k).holding⟩
  · exact hr.lists.same rfl rfl fun _ _ => Iff.rfl
  · rw [show (s.setPage p r).nslub = s.nslub from rfl, hr.nslub]
    exact congrArg Nat.cast (countP_congr fun q hq => by rw [hne q hq])

theorem kmemCacheInit_ok (s : SlabState) : SlabOk s.kmemCacheInit [] := by
  refine ⟨fun _ => none, fun _ => [], ⟨fun p => ?_, nodup_nil, fun p v hv => ?_, fun c k => ?_, ?_, fun c => rfl⟩,
    fun p => rfl, nofun⟩
  · simp [kmemCacheInit, outstanding]
  · cases hv
  · exact ⟨fun _ => rfl, nofun⟩
  · refine ⟨⟨fun c _ => ?_, fun c _ => nodup_singleton _, fun c c' _ _ hne => ?_⟩, fun c p => ?_, fun c => rfl⟩
    · exact ring_nil.mpr (Links.foldl_initListHead SNode.node _ _ _ (.inr ⟨c, mem_finRange c, rfl⟩))
    · simpa using fun e => hne e.symm
    · simp [OnPartial]

theorem slabStep_ok {t t' : SlabState × List (Nat × Nat)} (h : SlabStep t t') (hi : SlabOk t.1 t.2) :
    SlabOk t'.1 t'.2 := by
  cases h with
  | kmalloc hn hn' hb h ho => exact (kmalloc_ok hi hn hn' hb h).1 ho
  | kmallocNull hn hn' hb h => exact (kmalloc_ok hi hn hn' hb h).2.1 rfl
  | @kfree s s' l₁ l₂ k o n h =>
    obtain ⟨s'', h', hok, -⟩ := kfree_ok (k := k) hi
    obtain rfl : s' = s'' := some.inj (h.symm.trans h')
    exact hok
  | write b ha => exact write_ok hi b ha
  | page r hp => exact page_ok hi r hp

theorem slabRun_ok {s₀ : SlabState} {t : SlabState × List (Nat × Nat)}
    (hrun : ReflTransGen SlabStep (s₀.kmemCacheInit, []) t) : SlabOk t.1 t.2 := by
  induction hrun with
  | refl => exact kmemCacheInit_ok s₀
  | tail _ hstep ih => exact slabStep_ok hstep ih

/-- `free p` is the list on page `p`, `cpuFree p` the list of the CPU that has
`p`, `out` the objects handed out with the sizes asked for. -/
structure SlabInv (s : SlabState) (out : List (Nat × Nat)) (free cpuFree : Nat → List Nat) : Prop where
  freelist : ∀ p ∈ outstanding s.log, Chain (link (s.page p).slab s.mem) 0 (s.page p).freelist (free p)
  cpuList : ∀ c k p, (s.cpu c k).page = some p → p ∈ outstanding s.log ∧ (s.page p).slab = c ∧
    Chain (link c s.mem) 0 (s.cpu c k).freelist (cpuFree p)
  cpuEmpty : ∀ c k, (s.cpu c k).page = none → (s.cpu c k).freelist = 0
  oneCpu : ∀ p c c' k k', (s.cpu c k).page = some p → (s.cpu c' k').page = some p → c = c' ∧ k = k'
  noCpu : ∀ p ∈ outstanding s.log, (∀ c k, (s.cpu c k).page ≠ some p) → cpuFree p = []
  onePlace : ∀ p ∈ outstanding s.log, ∀ x ∈ slots p (s.page p).slab,
    (free p).count x + (cpuFree p).count x + (out.map Prod.fst).count x = 1
  onlySlots : ∀ p ∈ outstanding s.log, ∀ x ∈ free p ++ cpuFree p, x ∈ slots p (s.page p).slab
  object : ∀ o ∈ out, ∃ p ∈ outstanding s.log, s.getSlab o.1 = some p ∧ o.1 ∈ slots p (s.page p).slab ∧
    o.2 ≤ (s.page p).slab.objsize ∧ pageVirt p ≤ o.1 ∧ o.1 + o.2 ≤ pageVirt p + slabBytes
  apart : out.Pairwise fun a b => a.1 + a.2 ≤ b.1 ∨ b.1 + b.2 ≤ a.1
  links : ∀ o ∈ out, ∀ p ∈ outstanding s.log, ∀ x ∈ slots p (s.page p).slab,
    linkAddr (s.page p).slab x + 4 ≤ o.1 ∨
      o.1 + (s.page (slabPfn o.1)).slab.objsize ≤ linkAddr (s.page p).slab x

theorem OutRep.slot (ho : OutRep view out) (hr : SlabRep s view pl) {x : Nat × Nat} (hx : x ∈ out) :
    ∃ v, view (slabPfn x.1) = some v ∧ PageRep s (slabPfn x.1) v ∧ x.1 ∈ slots (slabPfn x.1) v.cache ∧
      x.2 ≤ v.cache.objsize := by
  obtain ⟨v, hv, hle⟩ := ho.home x hx
  have hp := hr.pages _ v hv
  exact ⟨v, hv, hp, hp.mem_slots_of_used ((ho.mem_used hv).mpr ⟨⟨x.2, hx⟩, rfl⟩), hle⟩

theorem count_out (x : Nat) : (out.map Prod.fst).count x = (handed out (slabPfn x)).count x := by
  unfold handed
  rw [count_filter]
  simp

theorem SlabOk.out_apart (hr : SlabRep s view pl) (ho : OutRep view out) :
    out.Pairwise fun a b => a.1 + a.2 ≤ b.1 ∨ b.1 + b.2 ≤ a.1 := by
  have hnd : (out.map Prod.fst).Nodup := by
    rw [nodup_iff_count_le_one]
    intro x
    rw [count_out, ← ho.used]
    unfold usedOf
    cases hv : view (slabPfn x) with
    | none => simp
    | some v =>
      have hsub := (nodup_append'.mp (hr.pages _ v hv).nodup).2.1
      exact nodup_iff_count_le_one.mp hsub x
  refine (pairwise_map.mp hnd).imp_of_mem fun {a b} ha hb hne => ?_
  obtain ⟨v, hv, hp, hs, hle⟩ := ho.slot hr ha
  obtain ⟨w, hw, hq, ht, hle'⟩ := ho.slot hr hb
  have h₁ := v.cache.size_eq
  have h₂ := v.cache.objsize_le
  have h₃ := w.cache.size_eq
  have h₄ := w.cache.objsize_le
  have hap : a.1 + v.cache.size ≤ b.1 ∨ b.1 + w.cache.size ≤ a.1 := by
    refine slot_apart hp.aligned hq.aligned hs ht ?_
    by_cases e : slabPfn a.1 = slabPfn b.1
    · right
      rw [e, hw, some.injEq] at hv
      exact ⟨by rw [hv], hne⟩
    · exact .inl e
  omega

theorem SlabRep.live_page (hr : SlabRep s view pl) (hp : p ∈ outstanding s.log) :
    ∃ v, view p = some v ∧ PageRep s p v := by
  obtain ⟨v, hv⟩ := (hr.live p).mp hp
  exact ⟨v, hv, hr.pages p v hv⟩

theorem OutRep.count_slot (ho : OutRep view out) (hv : view p = some v) (hpr : PageRep s p v)
    (hx : x ∈ slots p v.cache) : v.free.count x + v.cpuFree.count x + (out.map Prod.fst).count x = 1 := by
  have hone := count_eq_one_of_mem (slots_nodup p v.cache) hx
  rw [← hpr.perm.count_eq, count_append, count_append] at hone
  rw [count_out, ← ho.used, slabPfn_slot hpr.aligned hx, usedOf_some hv]
  exact hone

/-- The link word of a slot is not in an object that is out, not even in its own. -/
theorem OutRep.link_apart (ho : OutRep view out) (hr : SlabRep s view pl) {o : Nat × Nat} (hm : o ∈ out)
    (hv : view p = some v) (hx : x ∈ slots p v.cache) :
    linkAddr v.cache x + 4 ≤ o.1 ∨ o.1 + (s.page (slabPfn o.1)).slab.objsize ≤ linkAddr v.cache x := by
  have hpr := hr.pages p v hv
  obtain ⟨w, hw, hq, hs, -⟩ := ho.slot hr hm
  have h₁ := v.cache.size_eq
  have h₂ := w.cache.size_eq
  have h₃ := w.cache.objsize_le
  rw [hq.slab]
  unfold linkAddr
  by_cases e : p = slabPfn o.1
  · rw [← e, hv, some.injEq] at hw
    subst hw
    by_cases e' : x = o.1
    · right; rw [e']; omega
    · have := slot_apart hpr.aligned hq.aligned hx hs (.inr ⟨rfl, e'⟩)
      omega
  · have := slot_apart hpr.aligned hq.aligned hx hs (.inl e)
    omega

theorem SlabOk.inv (hi : SlabOk s out) : ∃ free cpuFree, SlabInv s out free cpuFree := by
  obtain ⟨view, pl, hr, ho⟩ := hi
  refine ⟨fun p => (view p).elim [] SlabView.free, fun p => (view p).elim [] SlabView.cpuFree, ?_⟩
  refine ⟨fun p hp => ?_, fun c k p h => ?_, fun c k => (hr.cpus c k).without, fun p c c' k k' h h' => ?_,
    fun p hp h => ?_, fun p hp x hx => ?_, fun p hp x hx => ?_, fun o hm => ?_, SlabOk.out_apart hr ho,
    fun o hm p hp x hx => ?_⟩
  · obtain ⟨v, hv, hpr⟩ := hr.live_page hp
    simp only [hv, elim_some, hpr.slab]
    exact hpr.chain
  · obtain ⟨v, hv, hc, -, hpr, hch⟩ := hr.held h
    simp only [hv, elim_some, hpr.slab]
    exact ⟨(hr.live p).mpr ⟨v, hv⟩, hc, hch⟩
  · obtain ⟨v, hv, hc, hown, -⟩ := hr.held h
    obtain ⟨w, hw, hc', hown', -⟩ := hr.held h'
    obtain rfl : v = w := some.inj (hv.symm.trans hw)
    exact ⟨hc.symm.trans hc', some.inj (hown.symm.trans hown')⟩
  · obtain ⟨v, hv, hpr⟩ := hr.live_page hp
    simp only [hv, elim_some]
    cases hown : v.owner with
    | none => exact hpr.idle hown
    | some k => exact absurd (hpr.cpu k hown).1 (h _ k)
  · obtain ⟨v, hv, hpr⟩ := hr.live_page hp
    rw [hpr.slab] at hx
    simp only [hv, elim_some]
    exact ho.count_slot hv hpr hx
  · obtain ⟨v, hv, hpr⟩ := hr.live_page hp
    rw [hpr.slab]
    simp only [hv, elim_some] at hx
    exact hpr.perm.subset (mem_append_left _ hx)
  · obtain ⟨v, hv, hpr, hs, hle⟩ := ho.slot hr hm
    have h₁ := v.cache.size_eq
    have h₂ := v.cache.objsize_le
    have h₃ := slot_inside hs
    refine ⟨_, (hr.live _).mpr ⟨v, hv⟩, hpr.getSlab hs, ?_⟩
    rw [hpr.slab]
    exact ⟨hs, hle, h₃.1, by omega⟩
  · obtain ⟨v, hv, hpr⟩ := hr.live_page hp
    rw [hpr.slab] at hx ⊢
    exact ho.link_apart hr hm hv hx

/-- **Slab exclusivity.** In every state of a run each slot is in one place, and
the next call, on any CPU, writes into no object that is handed out. -/
theorem slab_exclusive {s₀ s : SlabState} {out : List (Nat × Nat)}
    (hrun : ReflTransGen SlabStep (s₀.kmemCacheInit, []) (s, out)) :
    (∃ free cpuFree, SlabInv s out free cpuFree) ∧
    (∀ k n blk o s', 1 ≤ n → n ≤ pageSize → BlockOk s blk → s.kmalloc k n blk = some (o, s') →
      ∀ x ∈ out, ∀ i < (s.page (slabPfn x.1)).slab.objsize, s'.mem (x.1 + i) = s.mem (x.1 + i)) ∧
    (∀ k, ∀ o ∈ out, ∃ s', s.kfree k o.1 = some s' ∧
      ∀ x ∈ out, ∀ i < (s.page (slabPfn x.1)).slab.objsize, s'.mem (x.1 + i) = s.mem (x.1 + i)) := by
  have hi : SlabOk s out := slabRun_ok hrun
  refine ⟨hi.inv, fun k n blk o s' hn hn' hb h x hx i hlt => ?_, fun k o hm => ?_⟩
  · obtain ⟨free, cpuFree, hinv⟩ := hi.inv
    obtain ⟨p, hp, hg, hs, -, -⟩ := hinv.object x hx
    rw [slabPfn_of_getSlab hg] at hlt
    have h₁ := slot_inside hs
    have h₂ := (s.page p).slab.size_eq
    have h₃ := (s.page p).slab.objsize_le
    exact (kmalloc_ok hi hn hn' hb h).2.2 p hp _ (by omega) (by omega)
  · obtain ⟨l₁, l₂, rfl⟩ := append_of_mem hm
    obtain ⟨s', h, -, hmem⟩ := kfree_ok (k := k) hi
    exact ⟨s', h, hmem⟩

end

def tinySlab : SlabState where
  mem _ := 0
  maxPfn := 4096
  page _ := default
  cpu _ _ := ⟨0, none⟩
  links := ⟨id, id⟩
  npartial _ := 0
  nslub _ := 0
  log := []

/-- The first object that a CPU takes of a cache with no partial slabs. -/
theorem kmalloc_first {s : SlabState} {k : Cpu} {n p : Nat} (hn : 1 ≤ n) (hn' : n ≤ pageSize)
    (hcpu : s.cpu (sizeMap n) k = ⟨0, none⟩) (hpart : s.npartial (sizeMap n) = 0)
    (hm : s.page2virt p = some (pageVirt p)) :
    ∃ s', s.kmalloc k n (some p) = some (pageVirt p, s') ∧ s'.log = .alloc p slabOrder :: s.log ∧
      s'.npartial = s.npartial ∧ s'.maxPfn = s.maxPfn ∧ ∀ k' ≠ k, s'.cpu (sizeMap n) k' = s.cpu (sizeMap n) k' := by
  have hnew : s.newSlab (sizeMap n) (some p) = _ := newSlab_eq hm
  have hnone : s.getPartialSlab (sizeMap n) = some (none, s) := if_pos hpart
  unfold kmalloc slabAlloc
  rw [if_neg (by omega), if_neg (by omega), slabAllocLoop]
  simp only [hcpu, hnone, hnew, if_true, bind_eq_bind, bind_some]
  have hpage : ((s.withSlab (sizeMap n) p).page p).freelist = pageVirt p := by
    rw [show (s.withSlab (sizeMap n) p).page p = _ from setPage_page_self ..]
  rw [slabAllocLoop_load (congrArg CpuSlab.page (setCpu_cpu_self ..))]
  · refine ⟨_, congrArg some (Prod.ext ?_ rfl), rfl, rfl, rfl, fun k' hne => ?_⟩
    · exact (congrArg SlabPage.freelist (setPage_page_self ..)).trans hpage
    · have hoff : ¬ (sizeMap n = sizeMap n ∧ k' = k) := fun h => hne h.2
      exact (setCpu_cpu_of_ne _ _ _ _ hoff).trans (setCpu_cpu_of_ne _ _ _ _ hoff)
  · intro h
    rw [setPage_page_self] at h
    have hz : pageVirt p = 0 := hpage.symm.trans h
    simp [pageVirt, kernelBaseAddr] at hz

theorem tiny_run : ∃ s, tinySlab.kmemCacheInit.kmalloc 0 100 (some 1024) = some (0xC0400000, s) ∧
    ReflTransGen SlabStep (tinySlab.kmemCacheInit, []) (s, [(0xC0400000, 100)]) ∧
    ∃ s', s.kmalloc 1 100 (some 2048) = some (0xC0800000, s') ∧ BlockOk s (some 2048) := by
  obtain ⟨s, h, hlog, hpart, hmax, hcpu⟩ := kmalloc_first (s := tinySlab.kmemCacheInit) (k := 0)
    (n := 100) (p := 1024) (by decide) (by decide) rfl rfl (by decide)
  have hb : BlockOk tinySlab.kmemCacheInit (some 1024) := by
    intro p hp
    obtain rfl := some.inj hp
    exact ⟨by decide, nofun⟩
  obtain ⟨s', h', -⟩ := kmalloc_first (s := s) (k := 1) (n := 100) (p := 2048) (by decide) (by decide)
    (hcpu 1 (by decide)) (by rw [hpart]; rfl) (by unfold page2virt; rw [hmax]; decide)
  refine ⟨s, h, .single (.kmalloc (by decide) (by decide) hb h (by decide)), s', h', ?_⟩
  unfold BlockOk
  rw [hlog]
  decide

/-- Two CPUs have taken an object each of one cache. -/
theorem slab_exclusive_tiny : ∃ s s', tinySlab.kmemCacheInit.kmalloc 0 100 (some 1024) = some (0xC0400000, s) ∧
    s.kmalloc 1 100 (some 2048) = some (0xC0800000, s') ∧
    ∃ free cpuFree, SlabInv s' [(0xC0800000, 100), (0xC0400000, 100)] free cpuFree := by
  obtain ⟨s, h, hrun, s', h', hb⟩ := tiny_run
  exact ⟨s, s', h, h', (slab_exclusive (hrun.tail (.kmalloc (by decide) (by decide) hb h' (by decide)))).1⟩

end MiniOS
