import MiniOS.HeapBrk
import MiniOS.UserBrkSound
import MiniOS.VmaTree

/-!
# `brk` is as good as the list

In every address space that can be reached the areas but the heap are as `create_vma` made
them, and of the heap only the end has moved. So `brk` finds the heap, and its answer is
right for every new break if and only if the area after the heap in the list is the one
that bounds it.
-/

namespace MiniOS

open List Mm Option

/-! ## The areas of an mm -/

structure AreaSet (m : Mm) (vmas : List Nat) (t : BTree Nat) : Prop where
  tree : TreeAt m.links 0 0 m.rbNode t
  asc : Ascending m t.inorder
  aligned : EndAligned m t.inorder
  perm : t.inorder.Perm vmas
  list : ∃ l, Chain m.next 0 m.mmap l ∧ l.Perm vmas
  user : ∀ a ∈ vmas, (m.heap a).vmEnd ≤ kernelBaseAddr

section
variable {m m' : Mm} {vmas mems : List Nat} {t : BTree Nat} {addr len flags mem fuel : Nat}

theorem areaSet_alloc (heap : Nat → Vma) : AreaSet (.allocMm heap) [] .nil :=
  ⟨rfl, ⟨List.Pairwise.nil, by simp [BTree.inorder]⟩, by simp [EndAligned, BTree.inorder], List.Perm.nil,
    ⟨[], rfl, List.Perm.nil⟩, by simp⟩

namespace AreaSet

theorem mem_iff (h : AreaSet m vmas t) (a : Nat) : a ∈ t.inorder ↔ a ∈ vmas := h.perm.mem_iff

theorem nodup (h : AreaSet m vmas t) : vmas.Nodup := h.perm.nodup_iff.mp h.asc.nodup

theorem congr (h : AreaSet m vmas t) (hh : ∀ a ∈ vmas, m'.heap a = m.heap a) (hmmap : m'.mmap = m.mmap)
    (hroot : m'.rbNode = m.rbNode) : AreaSet m' vmas t := by
  have ht : ∀ a ∈ t.inorder, m'.heap a = m.heap a := fun a ha => hh a ((h.mem_iff a).mp ha)
  obtain ⟨l, hl, hp⟩ := h.list
  refine ⟨?_, ?_, ?_, h.perm, ⟨l, ?_, hp⟩, ?_⟩
  · rw [hroot]
    apply h.tree.congr
    intro a ha
    simp only [links, ht a ha, and_self]
  · exact h.asc.congr (fun a ha => by rw [ht a ha]) fun a ha => by rw [ht a ha]
  · intro a ha
    rw [ht a ha]
    exact h.aligned a ha
  · rw [hmmap]
    apply hl.congr
    intro a ha
    exact congrArg Vma.vmNext (hh a (hp.mem_iff.mp ha))
  · intro a ha
    rw [hh a ha]
    exact h.user a ha

theorem setBrk (h : AreaSet m vmas t) (startBrk endBrk : Nat) : AreaSet (m.setBrk startBrk endBrk) vmas t :=
  h.congr (fun _ _ => rfl) rfl rfl

/-- The list has a place for a new area behind the root, and one in front. -/
theorem list_place (h : AreaSet m vmas t) (c : Prop) [Decidable c] :
    ∃ pre post, Chain m.next 0 m.mmap (pre ++ post) ∧
    (pre ++ post).Perm vmas ∧ IsLast (if m.rbNode ≠ 0 ∧ c then m.rbNode else 0) pre := by
  obtain ⟨l, hl, hp⟩ := h.list
  by_cases hc : m.rbNode ≠ 0 ∧ c
  · rw [if_pos hc]
    have hroot : m.rbNode ∈ l := hp.mem_iff.mpr ((h.mem_iff _).mp (h.tree.root_mem hc.1))
    obtain ⟨xs, ys, rfl⟩ := append_of_mem hroot
    refine ⟨xs ++ [m.rbNode], ys, ?_, ?_, .inr ⟨hc.1, xs, rfl⟩⟩
    · simpa using hl
    · simpa using hp
  · rw [if_neg hc]
    exact ⟨[], l, hl, hp, .inl ⟨rfl, rfl⟩⟩

end AreaSet

structure SetAdded (m m' : Mm) (vmas : List Nat) (addr mem : Nat) : Prop where
  areas : ∃ t, AreaSet m' (vmas ++ [mem]) t
  start : (m'.heap mem).vmStart = roundDown addr pageSize
  starts : ∀ a ∈ vmas, (m'.heap a).vmStart = (m.heap a).vmStart
  outside : ∀ a ∉ vmas, a ≠ mem → (m'.heap a).rbLeft = (m.heap a).rbLeft ∧ (m'.heap a).rbRight = (m.heap a).rbRight

theorem AreaSet.create (h : AreaSet m vmas t) (hlen : 0 < len) (hsum : addr + len < 2 ^ 32) (h₀ : mem ≠ 0)
    (hfresh : FreshMems m.heap vmas (mem :: mems)) (hc : m.createVma addr len flags mem fuel = some (mem, m')) :
    SetAdded m m' vmas addr mem := by
  have hnew := hfresh.unused mem (mem_cons_self ..)
  have hclean := hfresh.clean mem (mem_cons_self ..)
  obtain ⟨t', hadd⟩ := createVma_added h.tree h.asc h.aligned hlen hsum h₀ (fun ht => hnew ((h.mem_iff mem).mp ht))
    hclean.1 hclean.2 hc
  obtain ⟨pre, post, hl, hp, hlast⟩ := h.list_place ((m.heap m.rbNode).vmEnd < roundDown addr pageSize)
  have hnd : (pre ++ post).Nodup := hp.nodup_iff.mpr h.nodup
  have hsnoc : ∀ l : List Nat, (mem :: l).Perm (l ++ [mem]) := fun l => (perm_append_singleton mem l).symm
  refine ⟨⟨t', hadd.tree, hadd.asc, hadd.aligned, ?_, ⟨pre ++ mem :: post, ?_, ?_⟩, ?_⟩, hadd.start, ?_, ?_⟩
  · exact hadd.perm.trans ((h.perm.cons mem).trans (hsnoc vmas))
  · exact hadd.list hl hnd (fun hm => hnew (hp.mem_iff.mp hm)) hlast
  · exact perm_middle.trans ((hp.cons mem).trans (hsnoc vmas))
  · intro a ha
    rcases mem_append.mp ha with ha | ha
    · rw [(hadd.ranges a ((h.mem_iff a).mpr ha)).2]
      exact h.user a ha
    · rw [mem_singleton.mp ha]
      exact hadd.user
  · intro a ha
    exact (hadd.ranges a ((h.mem_iff a).mpr ha)).1
  · intro a ha
    exact hadd.outside a fun ht => ha ((h.mem_iff a).mp ht)

theorem SetAdded.fresh (h : SetAdded m m' vmas addr mem) (hf : FreshMems m.heap vmas (mem :: mems)) :
    FreshMems m'.heap (vmas ++ [mem]) mems := hf.rest h.outside

/-- The answer of `create_vma` is the memory it got, and the range is user memory. -/
theorem createVma_some_inv {vma : Nat} (hc : m.createVma addr len flags mem fuel = some (vma, m')) (h₀ : vma ≠ 0) :
    vma = mem ∧ mem ≠ 0 ∧ wrap (addr + len) ≤ kernelBaseAddr ∧ roundDown addr pageSize ≠ 0 := by
  rcases createVma_cases hc with ⟨e, -⟩ | ⟨rfl, hmem, hpos, -, htop, -⟩
  · exact absurd e h₀
  · exact ⟨rfl, hmem, htop, hpos⟩

/-! ## Loading -/

theorem loadSegments_cons {g : Segment} {prog : List Segment} {rest : List Nat} {r : Int} (hr : ¬ r < 0)
    (h : loadSegments fuel (g :: prog) (mem :: mems) m = some (r, m', rest)) :
    ∃ m₁, m.createVma g.va g.memsz vmReadWrite mem fuel = some (mem, m₁) ∧ mem ≠ 0 ∧ 0 < g.memsz ∧
      g.va + g.memsz ≤ kernelBaseAddr ∧ loadSegments fuel prog mems m₁ = some (r, m', rest) := by
  rw [loadSegments] at h
  obtain ⟨⟨vma, m₁⟩, hc, hload⟩ := bind_eq_some_iff.mp h
  dsimp only [headD_cons, tail_cons] at hc hload
  by_cases hv : vma = 0
  · rw [if_pos hv, some.injEq, Prod.mk.injEq] at hload
    exact absurd (show r < 0 by rw [← hload.1]; decide) hr
  rw [if_neg hv] at hload
  by_cases hbad : g.memsz = 0 ∨ 2 ^ 32 ≤ g.va + g.memsz
  · rw [if_pos hbad] at hload
    cases hload
  rw [if_neg hbad] at hload
  by_cases hsz : g.memsz < g.filesz
  · rw [if_pos hsz, some.injEq, Prod.mk.injEq] at hload
    exact absurd (show r < 0 by rw [← hload.1]; decide) hr
  rw [if_neg hsz] at hload
  obtain ⟨e, h₀, htop, -⟩ := createVma_some_inv hc hv
  rw [e] at hc
  rw [wrap_of_lt (Nat.lt_of_not_le fun hle => hbad (.inr hle))] at htop
  exact ⟨m₁, hc, h₀, Nat.pos_of_ne_zero fun e => hbad (.inl e), htop, hload⟩

theorem lt_word {n : Nat} (h : n ≤ kernelBaseAddr) : n < 2 ^ 32 := h.trans_lt (by decide)

theorem loadSegments_areas : ∀ (prog : List Segment) {m m' : Mm} {vmas mems rest : List Nat}
    {t : BTree Nat} {r : Int}, AreaSet m vmas t → FreshMems m.heap vmas mems → prog.length ≤ mems.length → ¬ r < 0 →
    loadSegments fuel prog mems m = some (r, m', rest) →
    ∃ used t', mems = used ++ rest ∧ used.length = prog.length ∧ AreaSet m' (vmas ++ used) t' ∧
      FreshMems m'.heap (vmas ++ used) rest ∧ ∀ g ∈ prog, g.va + g.memsz ≤ kernelBaseAddr
  | [], m, m', vmas, mems, rest, t, r, h, hf, _, _, hload => by
    obtain ⟨-, rfl, rfl⟩ : (0 : Int) = r ∧ m = m' ∧ mems = rest := by simpa [loadSegments] using hload
    exact ⟨[], t, rfl, rfl, by simpa using h, by simpa using hf, by simp⟩
  | g :: prog, m, m', vmas, [], rest, t, r, _, _, hlen, _, _ => by simp at hlen
  | g :: prog, m, m', vmas, mem :: mems, rest, t, r, h, hf, hlen, hr, hload => by
    obtain ⟨m₁, hc, h₀, hsz, htop, hload⟩ := loadSegments_cons hr hload
    have hadd := h.create hsz (lt_word htop) h₀ hf hc
    obtain ⟨t₁, h₁⟩ := hadd.areas
    obtain ⟨used, t', rfl, hused, h', hf', hall⟩ := loadSegments_areas prog h₁ (hadd.fresh hf)
      (Nat.le_of_succ_le_succ hlen) hr hload
    rw [append_assoc, singleton_append] at h' hf'
    refine ⟨mem :: used, t', rfl, by rw [length_cons, length_cons, hused], h', hf', ?_⟩
    exact forall_mem_cons.mpr ⟨htop, hall⟩

/-- Of the heap only the end is not as `create_vma` made it. -/
structure HeapInv (m : Mm) (vmas : List Nat) (heap : Nat) : Prop where
  areas : ∃ e t, AreaSet (m.growTo heap e) vmas t
  mem : heap ∈ vmas
  start : (m.heap heap).vmStart = m.startBrk
  lt : m.startBrk < m.endBrk
  word : m.endBrk < 2 ^ 32
  long : m.startBrk < (m.heap heap).vmEnd
  long_word : (m.heap heap).vmEnd < 2 ^ 32

theorem AreaSet.heapInv {heap : Nat} (h : AreaSet m vmas t) (hmem : heap ∈ vmas)
    (hstart : (m.heap heap).vmStart = m.startBrk) (hlt : m.startBrk < m.endBrk) (hword : m.endBrk < 2 ^ 32) :
    HeapInv m vmas heap := by
  refine ⟨⟨(m.heap heap).vmEnd, t, h.congr ?_ rfl rfl⟩, hmem, hstart, hlt, hword, ?_, lt_word (h.user heap hmem)⟩
  · intro a _
    by_cases ha : a = heap
    · rw [ha, growTo_heap_self]
    · exact growTo_heap_of_ne m _ ha
  · rw [← hstart]
    exact (h.asc.area heap ((h.mem_iff heap).mpr hmem)).1

theorem loadHeap_inv {heap endCode endData : Nat} (h : AreaSet m vmas t) (hf : FreshMems m.heap vmas [heap])
    (hcode : endCode ≤ kernelBaseAddr) (hdata : endData ≤ kernelBaseAddr)
    (hload : m.loadHeap endCode endData flags heap fuel = some m') : HeapInv m' (vmas ++ [heap]) heap := by
  obtain ⟨brk, hdvd, -, hlt, h₀, hc⟩ := loadHeap_cases hcode hdata hload
  have hpage : 0 < pageSize := by decide
  have hadd := (h.setBrk brk (brk + pageSize)).create hpage hlt h₀ hf hc
  obtain ⟨t', h'⟩ := hadd.areas
  obtain ⟨hbrk, hend⟩ : m'.startBrk = brk ∧ m'.endBrk = brk + pageSize := createVma_brk hc
  apply h'.heapInv (by simp)
  · rw [hadd.start, hbrk]
    exact roundDown_of_dvd hdvd
  · rw [hbrk, hend]
    exact Nat.lt_add_of_pos_right hpage
  · rw [hend]
    exact hlt

theorem loadIcode_inv {heap : Nat → Vma} {prog : List Segment} (hf : FreshMems heap [] mems)
    (hlen : mems.length = prog.length + 2) (h : (allocMm heap).loadIcode prog mems fuel = some (0, m)) :
    ∃ vma, HeapInv m mems vma := by
  unfold loadIcode at h
  obtain ⟨⟨r, m₁, rest⟩, hsegs, hrest⟩ := bind_eq_some_iff.mp h
  dsimp only at hrest
  by_cases hr : r < 0
  · rw [if_pos hr, some.injEq, Prod.mk.injEq] at hrest
    exact absurd hr (by rw [hrest.1]; decide)
  rw [if_neg hr] at hrest
  obtain ⟨used, t₁, rfl, hused, h₁, hf₁, hall⟩ :=
    loadSegments_areas prog (areaSet_alloc heap) hf (by omega) hr hsegs
  rw [length_append, hused] at hlen
  obtain ⟨stack, vma, rfl⟩ : ∃ a b, rest = [a, b] := length_eq_two.mp (by omega)
  obtain ⟨⟨v, m₂⟩, hc, hlast⟩ := bind_eq_some_iff.mp hrest
  dsimp only [headD_cons, tail_cons] at hc hlast
  by_cases hv : v = 0
  · rw [if_pos hv] at hlast
    cases hlast
  rw [if_neg hv] at hlast
  obtain ⟨e, h₀, -, -⟩ := createVma_some_inv hc hv
  rw [e] at hc
  have hadd := h₁.create (by decide) (by decide) h₀ hf₁ hc
  obtain ⟨t₂, h₂⟩ := hadd.areas
  obtain ⟨m₃, hheap, hm₃⟩ := map_eq_some_iff.mp hlast
  obtain ⟨-, rfl⟩ := Prod.mk.inj hm₃
  have hends : ∀ g ∈ prog, wrap (g.va + g.memsz) ≤ kernelBaseAddr := fun g hg => (Nat.mod_le _ _).trans (hall g hg)
  have hinv := loadHeap_inv h₂ (hadd.fresh hf₁) (Paging.endOf_le hends) (Paging.endOf_le hends) hheap
  rw [nil_append, append_assoc, singleton_append] at hinv
  exact ⟨vma, hinv⟩

/-! ## Copying -/

theorem copyTask_areas {src : Mm} : ∀ (left : Nat) {vma : Nat} {l mems vmas : List Nat} {dest m' : Mm}
    {t : BTree Nat},
    Chain src.next 0 vma l → (∀ a ∈ l, pageSize ∣ (src.heap a).vmStart ∧ (src.heap a).vmStart < (src.heap a).vmEnd ∧
      (src.heap a).vmEnd < 2 ^ 32) → AreaSet dest vmas t → FreshMems dest.heap vmas mems → mems.length = l.length →
    src.copyTask fuel left vma mems dest = some (0, m') →
    (∃ t', AreaSet m' (vmas ++ mems) t') ∧ (∀ a ∈ vmas, (m'.heap a).vmStart = (dest.heap a).vmStart) ∧
      (∀ a ∈ l, ∃ b ∈ mems, (m'.heap b).vmStart = (src.heap a).vmStart) ∧
      m'.startBrk = dest.startBrk ∧ m'.endBrk = dest.endBrk
  | 0, _, _, _, _, _, _, _, _, _, _, _, _, h => by cases h
  | left + 1, vma, [], mems, vmas, dest, m', t, hl, _, hd, _, hlen, h => by
    rw [copyTask, if_pos (show vma = 0 from hl), some.injEq, Prod.mk.injEq] at h
    obtain ⟨-, rfl⟩ := h
    obtain rfl := length_eq_zero_iff.mp hlen
    exact ⟨⟨t, by simpa using hd⟩, fun _ _ => rfl, by simp, rfl, rfl⟩
  | left + 1, vma, a :: l, [], vmas, dest, m', t, _, _, _, _, hlen, _ => by simp at hlen
  | left + 1, vma, a :: l, mem :: mems, vmas, dest, m', t, ⟨e, h₀, hl⟩, hr, hd, hf, hlen, h => by
    subst e
    rw [copyTask, if_neg h₀] at h
    simp only [bind_eq_bind, bind_eq_some_iff] at h
    obtain ⟨⟨foo, dest'⟩, hc, h⟩ := h
    dsimp only [headD_cons, tail_cons] at hc h
    obtain ⟨⟨hpage, hlong, hword⟩, hr⟩ := forall_mem_cons.mp hr
    by_cases hfoo : foo = 0
    · rw [if_pos hfoo, Option.pure_def, some.injEq, Prod.mk.injEq] at h
      exact absurd h.1 (by decide)
    rw [if_neg hfoo] at h
    obtain ⟨rfl, hmem, -, -⟩ := createVma_some_inv hc hfoo
    rw [wsub_of_le hlong.le hword] at hc
    have hadd := hd.create (Nat.sub_pos_of_lt hlong) (by omega) hmem hf hc
    obtain ⟨t₁, h₁⟩ := hadd.areas
    obtain ⟨⟨t', hareas⟩, hold, hcopy, hstart, hend⟩ := copyTask_areas left hl hr h₁ (hadd.fresh hf)
      (Nat.succ.inj hlen) h
    rw [append_assoc, singleton_append] at hareas
    obtain ⟨hs, he⟩ := createVma_brk hc
    refine ⟨⟨t', hareas⟩, ?_, ?_, hstart.trans hs, hend.trans he⟩
    · intro b hb
      rw [hold b (mem_append_left _ hb), hadd.starts b hb]
    · intro b hb
      rcases mem_cons.mp hb with rfl | hb
      · refine ⟨foo, mem_cons_self .., ?_⟩
        rw [hold foo (by simp), hadd.start]
        exact roundDown_of_dvd hpage
      · obtain ⟨c, hc, hbc⟩ := hcopy b hb
        exact ⟨c, mem_cons_of_mem _ hc, hbc⟩

/-! ## The answer of `brk` -/

theorem findVma_congr (h : m'.heap = m.heap) : ∀ (fuel rb acc : Nat),
    m'.findVma addr fuel rb acc = m.findVma addr fuel rb acc
  | 0, _, _ => rfl
  | fuel + 1, rb, acc => by
    rw [findVma, findVma, h, findVma_congr h fuel, findVma_congr h fuel]

theorem growTo_back (m : Mm) (heap e : Nat) :
    ((m.growTo heap e).growTo heap (m.heap heap).vmEnd).heap = m.heap := by
  funext a
  by_cases ha : a = heap
  · rw [ha, growTo_heap_self, growTo_heap_self]
  · rw [growTo_heap_of_ne _ _ ha, growTo_heap_of_ne _ _ ha]

namespace HeapInv

variable {heap endData r : Nat} {locked : Bool}

theorem findVma (h : HeapInv m vmas heap) (hf : vmas.length < fuel) :
    m.findVma m.startBrk fuel m.rbNode 0 = some heap := by
  obtain ⟨e, t, ha⟩ := h.areas
  have hstart : ((m.growTo heap e).heap heap).vmStart = m.startBrk := by
    rw [growTo_heap_self]
    exact h.start
  have hmem := (ha.mem_iff heap).mpr h.mem
  rw [← ha.perm.length_eq] at hf
  obtain ⟨r, hr⟩ := findVma_isSome ((m.growTo heap e).heap heap).vmStart fuel 0 ha.tree.below hf
  obtain ⟨pre, post, hsplit⟩ := append_of_mem hmem
  obtain rfl := findVma_self ha.tree ha.asc hsplit hr
  have hback := findVma_growTo (hstart ▸ h.long) fuel (ha.tree.ne_null r hmem).symm hr
  rw [findVma_congr (growTo_back m r e), hstart] at hback
  exact hback

theorem heapArea (h : HeapInv m vmas heap) : HeapArea m heap := by
  refine ⟨⟨_, h.findVma (Nat.lt_succ_self _)⟩, ?_, h.start⟩
  obtain ⟨e, t, ha⟩ := h.areas
  exact ha.tree.ne_null heap ((ha.mem_iff heap).mpr h.mem)

/-- The other areas are where `create_vma` put them. -/
theorem other (h : HeapInv m vmas heap) {a : Nat} (ha : a ∈ vmas) (hne : a ≠ heap) :
    (m.heap a).vmStart < (m.heap a).vmEnd ∧ (m.heap a).vmEnd ≤ kernelBaseAddr := by
  obtain ⟨e, t, hset⟩ := h.areas
  have hlong := (hset.asc.area a ((hset.mem_iff a).mpr ha)).1
  have huser := hset.user a ha
  rw [growTo_heap_of_ne m e hne] at hlong huser
  exact ⟨hlong, huser⟩

theorem next (h : HeapInv m vmas heap) (hne : (m.heap heap).vmNext ≠ 0) :
    (m.heap heap).vmNext ∈ vmas ∧ (m.heap heap).vmNext ≠ heap := by
  obtain ⟨e, t, hset⟩ := h.areas
  obtain ⟨l, hl, hp⟩ := hset.list
  obtain ⟨xs, ys, rfl⟩ := append_of_mem (hp.mem_iff.mpr h.mem)
  have hnext : (m.growTo heap e).next heap = (m.heap heap).vmNext :=
    growTo_heap_field Vma.vmNext (fun _ _ => rfl) m heap e heap
  have hys := Chain.after hl
  rw [hnext] at hys
  obtain ⟨zs, rfl, -⟩ := hys.exists_cons hne
  have hnd := hp.nodup_iff.mpr hset.nodup
  refine ⟨hp.mem_iff.mp (by simp), ?_⟩
  intro e
  rw [nodup_middle, nodup_cons] at hnd
  apply hnd.1
  rw [e]
  simp

theorem brkLocked (h : HeapInv m vmas heap) (hlt : m.endBrk < endData)
    (hf : m.findVma m.startBrk fuel m.rbNode 0 = some heap) :
    m.brkLocked false endData fuel =
      if RoomTo m heap endData then some (endData, m.growTo heap endData, false) else some (0, m, false) := by
  have hfound : ¬ (heap = 0 ∨ (m.heap heap).vmStart ≠ m.startBrk) :=
    fun hc => hc.elim h.heapArea.2.1 fun hne => hne h.start
  have habove : ¬ endData ≤ (m.heap heap).vmStart := by
    rw [h.start]
    exact Nat.not_le.mpr (h.lt.trans hlt)
  unfold Mm.brkLocked
  rw [if_neg (Nat.not_le.mpr hlt), if_neg Bool.false_ne_true, hf, bind_some, if_neg hfound, if_neg habove]

theorem growTo (h : HeapInv m vmas heap) (hlt : m.endBrk < endData) (hword : endData < 2 ^ 32) :
    HeapInv (m.growTo heap endData) vmas heap := by
  obtain ⟨e, t, hset⟩ := h.areas
  have hself := growTo_heap_self m heap endData
  refine ⟨⟨e, t, hset.congr ?_ rfl rfl⟩, h.mem, ?_, h.lt.trans hlt, hword, ?_, ?_⟩
  · intro a _
    by_cases ha : a = heap
    · rw [ha, growTo_heap_self, growTo_heap_self, growTo_heap_self]
    · rw [growTo_heap_of_ne _ _ ha, growTo_heap_of_ne _ _ ha, growTo_heap_of_ne _ _ ha]
  · rw [hself]
    exact h.start
  · rw [hself]
    exact h.lt.trans hlt
  · rw [hself]
    exact hword

theorem brk_step {locked' : Bool} (h : HeapInv m vmas heap) (hword : endData < 2 ^ 32)
    (hb : m.brkLocked false endData fuel = some (r, m', locked')) : locked' = false ∧ HeapInv m' vmas heap := by
  by_cases hlt : m.endBrk < endData
  · have hfind : m.findVma m.startBrk fuel m.rbNode 0 = some heap := by
      cases hf : m.findVma m.startBrk fuel m.rbNode 0 with
      | none =>
        unfold Mm.brkLocked at hb
        rw [if_neg (Nat.not_le.mpr hlt), if_neg Bool.false_ne_true, hf] at hb
        cases hb
      | some v =>
        have hmore := findVma_mono fuel hf (vmas.length + 1)
        rw [h.findVma (by omega)] at hmore
        exact hmore.symm
    rw [h.brkLocked hlt hfind] at hb
    split at hb
    · simp only [some.injEq, Prod.mk.injEq] at hb
      obtain ⟨-, rfl, rfl⟩ := hb
      exact ⟨rfl, h.growTo hlt hword⟩
    · simp only [some.injEq, Prod.mk.injEq] at hb
      obtain ⟨-, rfl, rfl⟩ := hb
      exact ⟨rfl, h⟩
  · unfold Mm.brkLocked at hb
    rw [if_pos (Nat.le_of_not_lt hlt)] at hb
    simp only [some.injEq, Prod.mk.injEq] at hb
    obtain ⟨-, rfl, rfl⟩ := hb
    exact ⟨rfl, h⟩

theorem copyTask (h : HeapInv m vmas heap) (hf : FreshMems m.heap vmas mems) (hlen : mems.length = vmas.length)
    (hc : m.copyTask fuel fuel m.mmap mems m.taskSetVm = some (0, m')) : ∃ heap', HeapInv m' mems heap' := by
  obtain ⟨e, t, hset⟩ := h.areas
  obtain ⟨l, hl, hp⟩ := hset.list
  have hchain : Chain m.next 0 m.mmap l := hl.congr fun a _ =>
    (growTo_heap_field Vma.vmNext (fun _ _ => rfl) m heap e a).symm
  have hranges : ∀ a ∈ l, pageSize ∣ (m.heap a).vmStart ∧ (m.heap a).vmStart < (m.heap a).vmEnd ∧
      (m.heap a).vmEnd < 2 ^ 32 := by
    intro a ha
    have hav := hp.mem_iff.mp ha
    have hpage := (hset.asc.area a ((hset.mem_iff a).mpr hav)).2
    rw [growTo_heap_field Vma.vmStart (fun _ _ => rfl)] at hpage
    refine ⟨hpage, ?_⟩
    by_cases hne : a = heap
    · rw [hne, h.start]
      exact ⟨h.long, h.long_word⟩
    · exact ⟨(h.other hav hne).1, lt_word (h.other hav hne).2⟩
  obtain ⟨⟨t', hareas⟩, -, hcopy, hstart, hend⟩ := copyTask_areas fuel hchain hranges
    ((areaSet_alloc m.heap).setBrk _ _)
    ⟨hf.nodup, by simp, hf.clean⟩ (hlen.trans hp.length_eq.symm) hc
  obtain ⟨b, hb, hbs⟩ := hcopy heap (hp.mem_iff.mpr h.mem)
  have hs : m'.startBrk = m.startBrk := hstart
  have he : m'.endBrk = m.endBrk := hend
  refine ⟨b, AreaSet.heapInv hareas hb ?_ ?_ ?_⟩
  · rw [hbs, h.start, hs]
  · rw [hs, he]
    exact h.lt
  · rw [he]
    exact h.word

theorem withHeap (h : HeapInv m vmas heap) {heap' : Nat → Vma} (hh : ∀ a ∈ vmas, heap' a = m.heap a) :
    HeapInv { m with heap := heap' } vmas heap := by
  obtain ⟨e, t, hset⟩ := h.areas
  have hself : heap' heap = m.heap heap := hh heap h.mem
  refine ⟨⟨e, t, hset.congr ?_ rfl rfl⟩, h.mem, ?_, h.lt, h.word, ?_, ?_⟩
  · intro a ha
    by_cases hne : a = heap
    · rw [hne, growTo_heap_self, growTo_heap_self]
      exact congrArg (fun v : Vma => { v with vmEnd := e }) hself
    · rw [growTo_heap_of_ne _ _ hne, growTo_heap_of_ne _ _ hne]
      exact hh a ha
  · exact (congrArg Vma.vmStart hself).trans h.start
  · exact Nat.lt_of_lt_of_eq h.long (congrArg Vma.vmEnd hself).symm
  · exact Nat.lt_of_le_of_lt (Nat.le_of_eq (congrArg Vma.vmEnd hself)) h.long_word

end HeapInv

theorem reached_inv {locked : Bool} (h : Reached m locked vmas) : locked = false ∧ ∃ heap, HeapInv m vmas heap := by
  induction h with
  | loadIcode hf hlen hload => exact ⟨rfl, loadIcode_inv hf hlen hload⟩
  | copyTask _ hf hlen hc ih =>
    obtain ⟨-, heap, ih⟩ := ih
    exact ⟨rfl, ih.copyTask hf hlen hc⟩
  | brk _ hword hb ih =>
    obtain ⟨rfl, heap, ih⟩ := ih
    obtain ⟨hl, hm⟩ := ih.brk_step hword hb
    exact ⟨hl, heap, hm⟩
  | other heap' _ hh ih =>
    obtain ⟨hl, heap, ih⟩ := ih
    exact ⟨hl, heap, ih.withHeap hh⟩

/-! ## The room above the heap -/

theorem GapFree.mono {heap e e' : Nat} (h : GapFree m vmas heap e) (hle : e' ≤ e) : GapFree m vmas heap e' := by
  refine ⟨hle.trans h.1, ?_⟩
  intro a ha hne x hx hlt
  exact h.2 a ha hne x hx (hlt.trans_le hle)

theorem gapFree_of_apart {heap e : Nat} (he : e ≤ kernelBaseAddr)
    (h : ∀ a ∈ vmas, a ≠ heap → (m.heap a).vmEnd ≤ m.endBrk ∨ e ≤ (m.heap a).vmStart) : GapFree m vmas heap e := by
  refine ⟨he, ?_⟩
  intro a ha hne x hx hlt hin
  rcases h a ha hne with hside | hside
  · omega
  · omega

/-- An area above the break bounds the room. -/
theorem GapFree.le_start {heap e a : Nat} (h : GapFree m vmas heap e) (ha : a ∈ vmas) (hne : a ≠ heap)
    (hlong : (m.heap a).vmStart < (m.heap a).vmEnd) (hle : m.endBrk ≤ (m.heap a).vmStart) :
    e ≤ (m.heap a).vmStart := by
  apply Nat.le_of_not_lt
  intro hlt
  exact h.2 a ha hne _ hle hlt ⟨Nat.le_refl _, hlong⟩

theorem HeapInv.brkExact_iff {heap endData : Nat} (h : HeapInv m vmas heap) (hlt : m.endBrk < endData)
    (hf : vmas.length < fuel) :
    BrkExact m vmas heap endData fuel ↔ (RoomTo m heap endData ↔ GapFree m vmas heap endData) := by
  have hne : endData ≠ 0 := Nat.ne_of_gt (Nat.zero_lt_of_lt hlt)
  unfold BrkExact
  rw [h.brkLocked hlt (h.findVma hf)]
  by_cases hroom : RoomTo m heap endData
  · simp [hroom, hne]
  · simp [hroom, hne.symm]

theorem HeapInv.exact_iff {heap : Nat} (h : HeapInv m vmas heap) :
    (∀ endData, m.endBrk < endData → endData < 2 ^ 32 → (RoomTo m heap endData ↔ GapFree m vmas heap endData)) ↔
      NextBounds m vmas heap := by
  have hword := h.word
  have hk : kernelBaseAddr = 0xC0000000 := rfl
  unfold NextBounds
  by_cases h₀ : (m.heap heap).vmNext = 0
  · simp only [h₀, if_true]
    constructor
    · intro hall
      by_contra hlast
      have hfree := ((hall (2 ^ 32 - 1) (by omega) (by decide)).mp (.inl h₀)).1
      exact absurd hfree (by decide)
    · intro hlast endData hlt hw
      omega
  obtain ⟨hmem, hne⟩ := h.next h₀
  obtain ⟨hlong, huser⟩ := h.other hmem hne
  have hroom : ∀ e, RoomTo m heap e ↔ e ≤ (m.heap (m.heap heap).vmNext).vmStart := fun e => or_iff_right h₀
  simp only [h₀, if_false, hroom]
  by_cases habove : m.endBrk < (m.heap (m.heap heap).vmNext).vmStart
  · simp only [habove, if_true]
    constructor
    · intro hall
      exact (hall _ habove (by omega)).mp (Nat.le_refl _)
    · intro hfree endData _ _
      exact ⟨hfree.mono, fun hf => hf.le_start hmem hne hlong habove.le⟩
  · simp only [habove, if_false]
    constructor
    · intro hall hfree
      have hlast := (hall (m.endBrk + 1) (Nat.lt_succ_self _) (lt_word hfree.1)).mpr hfree
      omega
    · intro hnone endData hlt _
      refine ⟨fun hle => by omega, fun hfree => absurd (hfree.mono hlt) hnone⟩

end

/-- For every reachable address space `brk` returns with the lock released, and it gives the
right answer to every new break if and only if the next area in the list bounds the heap. -/
theorem brk_exact_iff {m : Mm} {locked : Bool} {vmas : List Nat} (h : Reached m locked vmas) :
    locked = false ∧ ∃ heap, HeapArea m heap ∧ heap ∈ vmas ∧
      (∀ endData fuel, vmas.length < fuel → ∃ r m', m.brkLocked false endData fuel = some (r, m', false)) ∧
      ((∀ endData fuel, m.endBrk < endData → endData < 2 ^ 32 → vmas.length < fuel →
        BrkExact m vmas heap endData fuel) ↔ NextBounds m vmas heap) := by
  obtain ⟨hl, heap, hinv⟩ := reached_inv h
  refine ⟨hl, heap, hinv.heapArea, hinv.mem, ?_, ?_⟩
  · intro endData fuel hf
    by_cases hlt : m.endBrk < endData
    · rw [hinv.brkLocked hlt (hinv.findVma hf)]
      split
      · exact ⟨_, _, rfl⟩
      · exact ⟨_, _, rfl⟩
    · exact ⟨_, _, if_pos (Nat.le_of_not_lt hlt)⟩
  · rw [← hinv.exact_iff]
    constructor
    · intro hall endData hlt hw
      exact (hinv.brkExact_iff hlt (Nat.lt_succ_self _)).mp (hall endData _ hlt hw (Nat.lt_succ_self _))
    · intro hall endData fuel hlt hw hf
      exact (hinv.brkExact_iff hlt hf).mpr (hall endData hlt hw)

def loaded (prog : List Segment) (mems : List Nat) : Mm :=
  (((allocMm fun _ => zeroVma).loadIcode prog mems 8).getD (0, .allocMm fun _ => zeroVma)).2

theorem reached_loaded {prog : List Segment} {mems : List Nat} (hnd : mems.Nodup)
    (hlen : mems.length = prog.length + 2)
    (h : ((allocMm fun _ => zeroVma).loadIcode prog mems 8).map Prod.fst = some 0) :
    Reached (loaded prog mems) false mems := by
  obtain ⟨⟨r, m⟩, hload, hr⟩ := map_eq_some_iff.mp h
  obtain rfl : r = 0 := hr
  have hm : loaded prog mems = m := by
    unfold loaded
    rw [hload, getD_some]
  rw [hm]
  exact .loadIcode ⟨hnd, by simp, fun _ _ => ⟨rfl, rfl⟩⟩ hlen hload

def codeAndData : Mm := loaded [⟨0x800000, 0x1000, 0x1000, true⟩, ⟨0x802000, 0x1000, 0x800, false⟩] [16, 32, 48, 64]

theorem brk_exact_iff_codeAndData : codeAndData.endBrk = 0x804000 ∧
    codeAndData.brkLocked false 0x900000 8 = some (0x900000, codeAndData.growTo 64 0x900000, false) := by
  refine ⟨rfl, ?_⟩
  have hreached : Reached codeAndData false [16, 32, 48, 64] := reached_loaded (by decide) rfl rfl
  obtain ⟨-, heap, ha, -, -, hiff⟩ := brk_exact_iff hreached
  obtain rfl : heap = 64 := ha.unique ⟨⟨8, rfl⟩, by decide, rfl⟩
  have hfree : GapFree codeAndData [16, 32, 48, 64] 64 0xBF400000 := gapFree_of_apart (by decide) (by decide)
  have hnext : NextBounds codeAndData [16, 32, 48, 64] 64 := hfree
  exact (hiff.mpr hnext 0x900000 8 (by decide) (by decide) (by decide)).1 (hfree.mono (by decide))

/-- A program without data: the heap starts where the code ends, so it goes to the front of
the list, the next area is the code, and no break is ever granted. -/
theorem brk_refuses_free_gap : ∃ m vmas heap, Reached m false vmas ∧ HeapArea m heap ∧ heap ∈ vmas ∧
    m.endBrk < 0x803000 ∧ GapFree m vmas heap 0x803000 ∧ m.brkLocked false 0x803000 8 = some (0, m, false) := by
  have hreached : Reached (loaded [⟨0x800000, 0x1000, 0x1000, true⟩] [16, 32, 48]) false [16, 32, 48] :=
    reached_loaded (by decide) rfl rfl
  refine ⟨_, _, 48, hreached, ⟨⟨8, rfl⟩, by decide, rfl⟩, by decide, by decide, ?_, rfl⟩
  exact gapFree_of_apart (by decide) (by decide)

end MiniOS
