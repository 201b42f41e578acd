import Mathlib.Data.List.Pairwise
import MiniOS.VmaSound

/-!
# Ranges of areas

The areas of an mm as a set of address ranges, when `find_vma` answers right on
that set: which calls of `create_vma` and `brk` keep the ranges non-empty, below
the kernel and apart. The tree and the `vm_next` list may be in any state.
-/

namespace MiniOS

open List Mm Option Relation

structure AreasOk (m : Mm) (vmas : List Nat) : Prop where
  range : ∀ a ∈ vmas, (m.heap a).vmStart < (m.heap a).vmEnd ∧ (m.heap a).vmEnd ≤ kernelBaseAddr
  start : ∀ a ∈ vmas, pageSize ∣ (m.heap a).vmStart ∧ (m.heap a).vmStart ≠ 0
  apart : vmas.Pairwise fun a b => (m.heap a).vmEnd ≤ (m.heap b).vmStart ∨ (m.heap b).vmEnd ≤ (m.heap a).vmStart

/-- `find_vma` answers the lowest area that ends above the address. -/
def FindExact (m : Mm) (vmas : List Nat) : Prop :=
  ∀ addr fuel r, m.findVma addr fuel m.rbNode 0 = some r →
    (r = 0 ∧ ∀ a ∈ vmas, (m.heap a).vmEnd ≤ addr) ∨
      (r ≠ 0 ∧ r ∈ vmas ∧ addr < (m.heap r).vmEnd ∧
        ∀ a ∈ vmas, addr < (m.heap a).vmEnd → (m.heap r).vmStart ≤ (m.heap a).vmStart)

/-- When a call keeps the ranges right. A new area must not be empty or wrap
around, and no area may end between the address and its page boundary; a `brk`
that is not refused must stay below the kernel and below the areas above. -/
def VmaFits (s : Mm × List Nat) : MmOp → Prop
  | .create addr len _ _ => 0 < len ∧ addr + len < 2 ^ 32 ∧
      ∀ a ∈ s.2, (s.1.heap a).vmEnd ≤ roundDown addr pageSize ∨ addr < (s.1.heap a).vmEnd
  | .brk endData => ∀ v ∈ s.2, (s.1.heap v).vmStart = s.1.startBrk → s.1.endBrk < endData → s.1.startBrk < endData →
      ((s.1.heap v).vmNext = 0 ∨ endData ≤ (s.1.heap (s.1.heap v).vmNext).vmStart) →
      endData ≤ kernelBaseAddr ∧
        ∀ a ∈ s.2, a ≠ v → (s.1.heap a).vmEnd ≤ s.1.startBrk ∨ endData ≤ (s.1.heap a).vmStart
  | _ => True

section
variable {m m' : Mm} {vmas : List Nat} {addr len flags mem fuel v : Nat}

/-! ## Ranges and links -/

theorem AreasOk.congr (h : AreasOk m vmas) (hs : ∀ a ∈ vmas, (m'.heap a).vmStart = (m.heap a).vmStart)
    (he : ∀ a ∈ vmas, (m'.heap a).vmEnd = (m.heap a).vmEnd) : AreasOk m' vmas := by
  refine ⟨fun a ha => ?_, fun a ha => ?_, h.apart.imp_of_mem fun {a b} ha hb hab => ?_⟩
  · rw [hs a ha, he a ha]; exact h.range a ha
  · rw [hs a ha]; exact h.start a ha
  · rw [he a ha, hs b hb, he b hb, hs a ha]; exact hab

theorem rbtreeDelete_field {β : Type*} (f : Vma → β) (hl : ∀ v x, f { v with rbLeft := x } = f v)
    (hr : ∀ v x, f { v with rbRight := x } = f v) (hp : ∀ v x, f { v with rbParent := x } = f v) :
    ∀ (fuel : Nat) {m m' : Mm} {rb : Nat}, rbtreeDelete fuel m rb = some m' → ∀ a, f (m'.heap a) = f (m.heap a)
  | 0, _, _, _, h, _ => by cases h
  | fuel + 1, m, m', rb, h, a => by
    have hset : ∀ (m : Mm) (b x y : Nat), f ((m.set b { m.heap b with rbLeft := x, rbRight := y }).heap a) =
        f (m.heap a) :=
      fun m b x y => set_heap_field f m ((hr { m.heap b with rbLeft := x } y).trans (hl _ x)) a
    have hslot : ∀ (m : Mm) (x : Nat) (sl : Slot Nat), f ((m.setSlot x sl).heap a) = f (m.heap a) :=
      fun m x sl => setSlot_field f hl hr m x sl a
    have hpar : ∀ (m : Mm) (b x : Nat), f ((m.set b { m.heap b with rbParent := x }).heap a) = f (m.heap a) :=
      fun m b x => set_heap_field f m (hp _ _) a
    rw [rbtreeDelete] at h
    simp only [bind_eq_bind, bind_eq_some_iff, Option.pure_def] at h
    obtain ⟨pp, -, h⟩ := h
    split at h
    · rw [bind_some, some.injEq] at h
      rw [← h]
      exact (hset ..).trans (hslot ..)
    split at h
    · rw [bind_some, some.injEq] at h
      rw [← h]
      exact (hset ..).trans ((hpar ..).trans (hslot ..))
    split at h
    · rw [bind_some, some.injEq] at h
      rw [← h]
      exact (hset ..).trans ((hpar ..).trans (hslot ..))
    · -- both children: the successor is taken out first
      simp only [bind_eq_some_iff, some.injEq] at h
      obtain ⟨tmp, -, m₂, h₂, _, rfl, rfl⟩ := h
      refine (hset ..).trans ((hslot ..).trans ((set_heap_field f _ (hr _ _) a).trans ?_))
      exact (set_heap_field f _ (hl _ _) a).trans (rbtreeDelete_field f hl hr hp fuel h₂ a)

theorem deleteVma_ranges (h : m.deleteVma v fuel = some m') : SameRanges m m' := by
  unfold deleteVma vmLinkDel at h
  simp only [bind_eq_bind, bind_eq_some_iff] at h
  obtain ⟨vma, -, h⟩ := h
  split at h
  · rw [← some.inj h]
    exact fun a => ⟨rfl, rfl⟩
  · simp only [bind_eq_some_iff, Option.pure_def, some.injEq] at h
    obtain ⟨tmp, -, m₁, h₁, rfl⟩ := h
    refine SameRanges.of_field fun f hn hl hr hp a => ?_
    refine (set_heap_field f _ (hn _ _) a).trans ?_
    have hdel := rbtreeDelete_field f hl hr hp fuel h₁ a
    split
    · exact hdel
    · exact (set_heap_field f _ (hn _ _) a).trans hdel

/-! ## One call -/

theorem areasOk_cons : AreasOk m (v :: vmas) ↔
    ((m.heap v).vmStart < (m.heap v).vmEnd ∧ (m.heap v).vmEnd ≤ kernelBaseAddr ∧
      pageSize ∣ (m.heap v).vmStart ∧ (m.heap v).vmStart ≠ 0) ∧
    (∀ a ∈ vmas, (m.heap v).vmEnd ≤ (m.heap a).vmStart ∨ (m.heap a).vmEnd ≤ (m.heap v).vmStart) ∧
    AreasOk m vmas := by
  constructor
  · intro h
    obtain ⟨h₁, h₂⟩ := pairwise_cons.mp h.apart
    have hv : v ∈ v :: vmas := mem_cons_self
    exact ⟨⟨(h.range v hv).1, (h.range v hv).2, h.start v hv⟩, h₁,
      fun a ha => h.range a (.tail _ ha), fun a ha => h.start a (.tail _ ha), h₂⟩
  · intro ⟨⟨h₁, h₂, h₃⟩, hv, h⟩
    exact ⟨forall_mem_cons.mpr ⟨⟨h₁, h₂⟩, h.range⟩, forall_mem_cons.mpr ⟨h₃, h.start⟩,
      pairwise_cons.mpr ⟨hv, h.apart⟩⟩

theorem AreasOk.erase (h : AreasOk m vmas) (v : Nat) : AreasOk m (vmas.erase v) :=
  ⟨fun a ha => h.range a (mem_of_mem_erase ha), fun a ha => h.start a (mem_of_mem_erase ha),
    h.apart.sublist erase_sublist⟩

theorem newVma_end_le (u : Vma) (flags : Nat) (ha : addr < 2 ^ 32) (hlen : len ≤ kernelBaseAddr)
    (h : len = 0 ∨ 2 ^ 32 ≤ addr + len) : (newVma u addr len flags).vmEnd ≤ roundDown addr pageSize := by
  have hk : kernelBaseAddr = 0xC0000000 := rfl
  have hw : wrap (len + 4096 - 1) = len + 4095 := wrap_of_lt (by omega)
  have he : (newVma u addr len flags).vmEnd =
      (addr - addr % 4096 + (len + 4095 - (len + 4095) % 4096)) % 2 ^ 32 := by
    unfold newVma roundUp roundDown pageSize
    rw [hw]
    rfl
  rw [he]
  unfold roundDown pageSize
  omega

theorem createVma_areas (hi : AreasOk m vmas) (hf : FindExact m vmas) (ha : addr < 2 ^ 32) (hm : mem ∉ vmas)
    (h₀ : mem ≠ 0) (h : m.createVma addr len flags mem fuel = some (mem, m')) :
    AreasOk m' (mem :: vmas) ↔ VmaFits (m, vmas) (.create addr len flags mem) := by
  rcases createVma_cases h with ⟨e, -⟩ | ⟨-, -, hnz, hlen, hle, r, hr, hfit, hlink⟩
  · exact absurd e h₀
  have hsame := vmLink_ranges hlink
  have hstart : (m'.heap mem).vmStart = roundDown addr pageSize := by
    rw [(hsame mem).1, set_heap_self]; rfl
  have hend : (m'.heap mem).vmEnd = (newVma (m.heap mem) addr len flags).vmEnd := by
    rw [(hsame mem).2, set_heap_self]
  have hold : ∀ a ∈ vmas, (m'.heap a).vmStart = (m.heap a).vmStart ∧ (m'.heap a).vmEnd = (m.heap a).vmEnd := by
    intro a hav
    have hne : a ≠ mem := fun e => hm (e ▸ hav)
    rw [(hsame a).1, (hsame a).2, set_heap_of_ne m _ hne]
    exact ⟨rfl, rfl⟩
  have hrest : AreasOk m' vmas := hi.congr (fun a hav => (hold a hav).1) (fun a hav => (hold a hav).2)
  rw [areasOk_cons, hstart, hend]
  dsimp only [VmaFits]
  constructor
  · intro ⟨⟨hlt, _⟩, hap, _⟩
    have hno : ¬ (len = 0 ∨ 2 ^ 32 ≤ addr + len) := fun hbad =>
      absurd (newVma_end_le (m.heap mem) flags ha hlen hbad) (Nat.not_le.mpr hlt)
    refine ⟨by omega, by omega, fun a hav => ?_⟩
    have hapa := hap a hav
    rw [(hold a hav).1, (hold a hav).2] at hapa
    by_contra hcon
    -- an area that ends on the page of `addr` starts at or below that page
    have h₁ := (hi.range a hav).1
    have hlow : (m.heap a).vmStart ≤ roundDown addr pageSize := le_roundDown (hi.start a hav).1 (by omega)
    omega
  · intro ⟨hpos, hlt, hgap⟩
    rw [wrap_of_lt hlt] at hle hfit
    obtain ⟨hlt', hup⟩ := newVma_range (m.heap mem) flags hpos hle
    refine ⟨⟨hlt', hup _ (by decide) hle, dvd_roundDown _ _, hnz⟩, fun a hav => ?_, hrest⟩
    rw [(hold a hav).1, (hold a hav).2]
    rcases hgap a hav with hbelow | habove
    · exact .inr hbelow
    · left
      rcases hf addr fuel r hr with ⟨-, hall⟩ | ⟨hr₀, hrv, -, hleast⟩
      · exact absurd (hall a hav) (Nat.not_le.mpr habove)
      · refine hup _ (hi.start a hav).1 ?_
        exact Nat.le_trans (hfit.resolve_left hr₀) (hleast a hav habove)

theorem AreasOk.apart_of_ne (h : AreasOk m vmas) {a b : Nat} (ha : a ∈ vmas) (hb : b ∈ vmas) (hne : a ≠ b) :
    (m.heap a).vmEnd ≤ (m.heap b).vmStart ∨ (m.heap b).vmEnd ≤ (m.heap a).vmStart := by
  have hsymm : Std.Symm fun a b => (m.heap a).vmEnd ≤ (m.heap b).vmStart ∨ (m.heap b).vmEnd ≤ (m.heap a).vmStart :=
    ⟨fun _ _ => Or.symm⟩
  exact List.Pairwise.forall h.apart ha hb hne

theorem AreasOk.eq_of_start (h : AreasOk m vmas) {a b : Nat} (ha : a ∈ vmas) (hb : b ∈ vmas)
    (hs : (m.heap a).vmStart = (m.heap b).vmStart) : a = b := by
  by_contra hne
  have h₁ := (h.range a ha).1
  have h₂ := (h.range b hb).1
  rcases h.apart_of_ne ha hb hne with h' | h'
  · omega
  · omega

theorem AreasOk.grow_iff (h : AreasOk m vmas) {e : Nat} (hv : v ∈ vmas) (hs : (m.heap v).vmStart < e) :
    AreasOk (m.set v { m.heap v with vmEnd := e }) vmas ↔ e ≤ kernelBaseAddr ∧
      ∀ a ∈ vmas, a ≠ v → (m.heap a).vmEnd ≤ (m.heap v).vmStart ∨ e ≤ (m.heap a).vmStart := by
  have hself : (m.set v { m.heap v with vmEnd := e }).heap v = { m.heap v with vmEnd := e } := set_heap_self ..
  have hother : ∀ a ≠ v, (m.set v { m.heap v with vmEnd := e }).heap a = m.heap a :=
    fun a ha => set_heap_of_ne m _ ha
  constructor
  · intro h'
    have hr := (h'.range v hv).2
    rw [hself] at hr
    refine ⟨hr, fun a ha hne => ?_⟩
    have hap := h'.apart_of_ne ha hv hne
    rwa [hself, hother a hne] at hap
  · intro ⟨hk, hap⟩
    refine ⟨fun a ha => ?_, fun a ha => ?_, h.apart.imp_of_mem fun {a b} ha hb hab => ?_⟩
    · by_cases e : a = v
      · rw [e, hself]; exact ⟨hs, hk⟩
      · rw [hother a e]; exact h.range a ha
    · by_cases e : a = v
      · rw [e, hself]; exact h.start v hv
      · rw [hother a e]; exact h.start a ha
    · by_cases ea : a = v
      · by_cases eb : b = v
        · have := (h.range v hv).1
          rw [ea, eb] at hab
          omega
        · rw [ea, hself, hother b eb]
          exact (hap b hb eb).symm
      · by_cases eb : b = v
        · rw [eb, hself, hother a ea]
          exact hap a ha ea
        · rw [hother a ea, hother b eb]
          exact hab

theorem brk_areas {endData r : Nat} (hi : AreasOk m vmas) (hf : FindExact m vmas)
    (h : m.brk endData fuel = some (r, m')) : AreasOk m' vmas ↔ VmaFits (m, vmas) (.brk endData) := by
  have hmem : ∀ {vma}, HeapArea m vma → vma ∈ vmas := by
    rintro vma ⟨⟨fuel, hfind⟩, h₀, -⟩
    rcases hf _ _ _ hfind with ⟨e, -⟩ | ⟨-, hv, -⟩
    · exact absurd e h₀
    · exact hv
  have hheap : ∀ {vma v}, HeapArea m vma → v ∈ vmas → (m.heap v).vmStart = m.startBrk → v = vma := fun ha hv hvs =>
    hi.eq_of_start hv (hmem ha) (hvs.trans ha.2.2.symm)
  cases brk_result h with
  | kept hle => exact iff_of_true hi fun _ _ _ he => absurd hle (Nat.not_le.mpr he)
  | atStart vma _ hle => exact iff_of_true hi fun _ _ _ _ hlt => absurd hle (Nat.not_le.mpr hlt)
  | refused vma ha _ _ hn =>
    refine iff_of_true hi fun v hv hvs _ _ hroom => absurd ?_ hn
    rw [← hheap ha hv hvs]
    exact hroom
  | grown vma ha hs hend hn =>
    have hst := ha.2.2
    have hsame : AreasOk (m.growTo vma endData) vmas ↔
        AreasOk (m.set vma { m.heap vma with vmEnd := endData }) vmas :=
      ⟨fun h => ⟨h.range, h.start, h.apart⟩, fun h => ⟨h.range, h.start, h.apart⟩⟩
    rw [hsame, hi.grow_iff (hmem ha) (hst ▸ hs), hst]
    constructor
    · intro hok v hv hvs _ _ _
      rw [hheap ha hv hvs]
      exact hok
    · intro hfits
      exact hfits vma (hmem ha) hst hend hs hn

/-! ## Runs -/

theorem mmStep_areas {s s' : Mm × List Nat} {op : MmOp} (h : MmStep op s s') (hi : AreasOk s.1 s.2)
    (hf : FindExact s.1 s.2) : AreasOk s'.1 s'.2 ↔ VmaFits s op := by
  cases h with
  | create ha _ hm h h₀ => exact createVma_areas hi hf ha hm h₀ h
  | createFail _ _ h =>
    rcases createVma_cases h with ⟨-, rfl⟩ | ⟨e, h₀, -⟩
    · exact iff_of_true hi trivial
    · exact absurd e.symm h₀
  | delete hv h =>
    have hsame := deleteVma_ranges h
    exact iff_of_true ((hi.erase _).congr (fun a _ => (hsame a).1) fun a _ => (hsame a).2) trivial
  | brk _ h => exact brk_areas hi hf h
  | setBrk a b => exact iff_of_true ⟨hi.range, hi.start, hi.apart⟩ trivial
  | other heap hh =>
    refine iff_of_true (hi.congr (fun a ha => ?_) fun a ha => ?_) trivial
    · exact congrArg Vma.vmStart (hh a ha)
    · exact congrArg Vma.vmEnd (hh a ha)

/-- **No overlap.** In runs of fitting calls in which `find_vma` answers right,
the ranges are right in the state reached, a call that does not fit breaks them,
and a rejected `create_vma` changes nothing. -/
theorem vma_no_overlap {heap : Nat → Vma} {m : Mm} {vmas : List Nat}
    (hrun : ReflTransGen (fun s s' => FindExact s.1 s.2 ∧ ∃ op, VmaFits s op ∧ MmStep op s s')
      (allocMm heap, []) (m, vmas)) :
    AreasOk m vmas ∧
    (FindExact m vmas → ∀ op s', MmStep op (m, vmas) s' → (AreasOk s'.1 s'.2 ↔ VmaFits (m, vmas) op)) ∧
    ∀ addr len flags mem fuel m', m.createVma addr len flags mem fuel = some (0, m') → m' = m := by
  have key : ∀ s, ReflTransGen (fun s s' => FindExact s.1 s.2 ∧ ∃ op, VmaFits s op ∧ MmStep op s s')
      (allocMm heap, []) s → AreasOk s.1 s.2 := by
    intro s hs
    induction hs with
    | refl => exact ⟨nofun, nofun, List.Pairwise.nil⟩
    | tail _ hstep ih =>
      obtain ⟨hf, op, hfit, hstep⟩ := hstep
      exact (mmStep_areas hstep ih hf).mpr hfit
  have hi : AreasOk m vmas := key _ hrun
  refine ⟨hi, fun hf op s' hstep => mmStep_areas hstep hi hf, fun addr len flags mem fuel m' h => ?_⟩
  rcases createVma_cases h with ⟨-, rfl⟩ | ⟨e, h₀, -⟩
  · rfl
  · exact absurd e.symm h₀

theorem findExact_of_tree {t : BTree Nat} (ht : TreeAt m.links 0 0 m.rbNode t) (ha : Ascending m t.inorder)
    (hp : t.inorder.Perm vmas) : FindExact m vmas := by
  intro addr fuel r h
  have hr := findVma_spec fuel ht.below ha.inOrder h
  cases hf : t.inorder.find? fun a => addr < (m.heap a).vmEnd with
  | none =>
    rw [hf] at hr
    refine .inl ⟨hr, fun a hav => ?_⟩
    simpa using find?_eq_none.mp hf a (hp.mem_iff.mpr hav)
  | some x =>
    rw [hf] at hr
    obtain rfl : r = x := hr
    obtain ⟨hlt, pre, post, hsplit, hpre⟩ := find?_eq_some_iff_append.mp hf
    have hmem : r ∈ t.inorder := by rw [hsplit]; simp
    refine .inr ⟨ht.ne_null r hmem, hp.mem_iff.mp hmem, by simpa using hlt, fun a hav habove => ?_⟩
    have hav' : a ∈ pre ++ r :: post := by rw [← hsplit]; exact hp.mem_iff.mpr hav
    rcases mem_append.mp hav' with hb | hb
    · exact absurd habove (by simpa using hpre a hb)
    · rcases mem_cons.mp hb with rfl | hb
      · exact Nat.le_refl _
      · have hasc : Ascending m (pre ++ ([r] ++ post)) := by rw [← singleton_append] at hsplit; exact hsplit ▸ ha
        have := hasc.right.cross (mem_singleton_self r) hb
        have := (ha.area r hmem).1
        omega

end

/-- The mm of a forked child with code, heap and stack, in the order `copy_task`
creates them. The stack is linked in behind the code, the heap is last in the
list, and `brk` takes the whole address space. -/
theorem childAreas_run : ∃ m r m', ReflTransGen
      (fun s s' => FindExact s.1 s.2 ∧ ∃ op, VmaFits s op ∧ MmStep op s s') (allocMm fun _ => zeroVma, [])
      (m, [48, 32, 16]) ∧ FindExact m [48, 32, 16] ∧ m.brk 0xFFFFF000 9 = some (r, m') ∧
    (m'.heap 32).vmEnd = 0xFFFFF000 := by
  have h : (({ allocMm fun _ => zeroVma with startBrk := 0x802000, endBrk := 0x803000 } : Mm).createVma
      0x800000 0x1000 0 16 9).bind (fun r => (r.2.createVma 0x802000 0x1000 0 32 9).bind fun r' =>
        (r'.2.createVma 0xBF400000 0x400000 0 48 9).bind fun r'' => (r''.2.brk 0xFFFFF000 9).map fun q =>
        ([r.1, r'.1, r''.1, r.2.rbNode, r'.2.rbNode, r''.2.rbNode, (q.2.heap 32).vmEnd],
          [r.2.heap 16, r'.2.heap 16, r'.2.heap 32, r''.2.heap 16, r''.2.heap 32, r''.2.heap 48])) =
      some ([16, 32, 48, 16, 16, 16, 0xFFFFF000], [⟨0, 0, 0, 0, 0x800000, 0x801000, 0⟩,
        ⟨32, 0, 0, 32, 0x800000, 0x801000, 0⟩, ⟨0, 16, 0, 0, 0x802000, 0x803000, 0⟩,
        ⟨48, 0, 0, 32, 0x800000, 0x801000, 0⟩, ⟨0, 16, 0, 48, 0x802000, 0x803000, 0⟩,
        ⟨32, 32, 0, 0, 0xBF400000, 0xBF800000, 0⟩]) := by decide
  simp only [bind_eq_some_iff, map_eq_some_iff, Prod.mk.injEq, List.cons.injEq, and_true] at h
  obtain ⟨⟨_, m₁⟩, h₁, ⟨_, m₂⟩, h₂, ⟨_, m₃⟩, h₃, ⟨r, m₄⟩, h₄, ⟨rfl, rfl, rfl, hr₁, hr₂, hr₃, hend⟩,
    h16, h16', h32, h16'', h32', h48⟩ := h
  dsimp only at h₂ h₃ h₄ hr₁ h16 hr₂ h16' h32 hr₃ h16'' h32' h48 hend
  have hnil : ∀ m : Mm, m.rbNode = 0 → FindExact m [] := fun m hm =>
    findExact_of_tree (t := .nil) hm ⟨List.Pairwise.nil, by simp [BTree.inorder]⟩ (.refl _)
  have hf₁ : FindExact m₁ [16] := by
    refine findExact_of_tree (t := .node .nil 16 .nil) ?_ ⟨?_, ?_⟩ (List.Perm.refl _)
    · simp [TreeAt, links, hr₁, h16]
    · simp [BTree.inorder]
    · simp [BTree.inorder, h16, pageSize]
  have hf₂ : FindExact m₂ [32, 16] := by
    refine findExact_of_tree (t := .node .nil 16 (.node .nil 32 .nil)) ?_ ⟨?_, ?_⟩ (by decide)
    · simp [TreeAt, links, hr₂, h16', h32]
    · simp [BTree.inorder, h16', h32]
    · simp [BTree.inorder, h16', h32, pageSize]
  have hf₃ : FindExact m₃ [48, 32, 16] := by
    refine findExact_of_tree (t := .node .nil 16 (.node .nil 32 (.node .nil 48 .nil))) ?_ ⟨?_, ?_⟩ (by decide)
    · simp [TreeAt, links, hr₃, h16'', h32', h48]
    · simp [BTree.inorder, h16'', h32', h48]
    · simp [BTree.inorder, h16'', h32', h48, pageSize]
  refine ⟨m₃, r, m₄, .tail (.tail (.tail (.single ⟨hnil _ rfl, .setBrk 0x802000 0x803000, trivial, .setBrk _ _⟩)
      ⟨hnil _ rfl, _, ?_, .create (by decide) (by decide) (by simp) h₁ (by decide)⟩)
      ⟨hf₁, _, ?_, .create (by decide) (by decide) (by simp) h₂ (by decide)⟩)
      ⟨hf₂, _, ?_, .create (by decide) (by decide) (by simp) h₃ (by decide)⟩, hf₃, h₄, hend⟩
  · exact ⟨by decide, by decide, by simp⟩
  · exact ⟨by decide, by decide, by simp [h16, roundDown, pageSize]⟩
  · exact ⟨by decide, by decide, by simp [h16', h32, roundDown, pageSize]⟩

theorem vma_no_overlap_child : ∃ m, ReflTransGen
      (fun s s' => FindExact s.1 s.2 ∧ ∃ op, VmaFits s op ∧ MmStep op s s') (allocMm fun _ => zeroVma, [])
      (m, [48, 32, 16]) ∧ AreasOk m [48, 32, 16] := by
  obtain ⟨m, -, -, hrun, -⟩ := childAreas_run
  exact ⟨m, hrun, (vma_no_overlap hrun).1⟩

theorem brk_over_kernel : ∃ m vmas,
    ReflTransGen (fun s s' => FindExact s.1 s.2 ∧ ∃ op, MmStep op s s') (allocMm fun _ => zeroVma, [])
      (m, vmas) ∧ ¬ AreasOk m vmas := by
  obtain ⟨m, r, m', hrun, hf, hbrk, hend⟩ := childAreas_run
  refine ⟨m', [48, 32, 16], .tail (hrun.lift id ?_) ⟨hf, _, .brk (by decide) hbrk⟩, ?_⟩
  · exact fun _ _ ⟨hf, op, _, hs⟩ => ⟨hf, op, hs⟩
  intro hok
  have hle := (hok.range 32 (by simp)).2
  rw [hend] at hle
  exact absurd hle (by decide)

end MiniOS
