import MiniOS.MallocSound

/-!
# The layout of the user heap

The chunks of the list as `free_list` has them. What is in use decides the whole layout of a
heap without two free neighbours, so frees may be made in any order.
-/

namespace MiniOS

open List Relation

def UserHeap.chunkAt (h : UserHeap) (p : Nat) : Chunk :=
  ⟨listEntry p, h.mem.size (listEntry p), h.mem.flag (listEntry p)⟩

def UserHeap.layout (h : UserHeap) : Option (List Chunk) :=
  (chainNodes h.mem.next h.freeList (h.curbrk - h.startbrk + 1) (h.mem.next h.freeList)).map (List.map h.chunkAt)

section
variable {h h' : UserHeap} {cs cs' pre post : List Chunk} {c d : Chunk} {size : Nat}

theorem chunkAt_node (hl : h.Placed cs) (hc : c ∈ cs) : h.chunkAt (listOf c.addr) = c := by
  rw [UserHeap.chunkAt, entry_of, hl.listed.size c hc, hl.listed.flag c hc]

theorem layout_eq (hl : h.Placed cs) : h.layout = some cs := by
  have hring : Ring h.mem.next h.mem.prev h.freeList (nodes cs) := hl.listed.ring
  have hchunks : (nodes cs).map h.chunkAt = cs := by
    rw [nodes, List.map_map]
    exact map_congr_left (fun c hc => chunkAt_node hl hc) |>.trans (List.map_id cs)
  rw [UserHeap.layout, (hring.chain (head_not_mem hl)).nodes _ (nodes_length hl), Option.map_some, hchunks]

theorem Placed.unique (hl : h.Placed cs) (hl' : h.Placed cs') : cs = cs' :=
  Option.some.inj ((layout_eq hl).symm.trans (layout_eq hl'))

/-! ## Taking a chunk and giving it back -/

theorem mergeNext_used (hc : c.flag = chunkFree) (hd : d.flag ≠ chunkFree) : d ∈ mergeNext c post ↔ d ∈ post := by
  have hdc : ∀ e : Chunk, e.flag = chunkFree → d ≠ e := by
    rintro e he rfl
    exact hd he
  cases post with
  | nil => simp [mergeNext, hdc c hc]
  | cons e post =>
    rw [mergeNext]
    split
    · rename_i he
      simp [hdc e he, hdc (c.join e) hc]
    · simp [hdc c hc]

theorem mergeChunk_used (hc : c.flag = chunkFree) (hd : d.flag ≠ chunkFree) :
    d ∈ mergeChunk pre c post ↔ d ∈ pre ++ post := by
  rw [mergeChunk]
  cases hlast : pre.getLast? with
  | none =>
    rw [getLast?_eq_none_iff.mp hlast]
    exact mergeNext_used hc hd
  | some b =>
    dsimp only
    split
    · rename_i hb
      obtain ⟨pre, rfl⟩ := getLast?_eq_some_iff.mp hlast
      have hdb : d ≠ b := by
        rintro rfl
        exact hd hb
      rw [dropLast_concat, mem_append, mergeNext_used (c := b.join c) hb hd]
      simp [hdb]
    · rw [mem_append, mergeNext_used hc hd, mem_append]

theorem mergeChunk_alone (hlast : ∀ b ∈ pre.getLast?, b.flag ≠ chunkFree) :
    mergeChunk pre c post = pre ++ mergeNext c post := by
  rw [mergeChunk]
  cases hb : pre.getLast? with
  | none =>
    rw [getLast?_eq_none_iff.mp hb]
    rfl
  | some b => exact if_neg (hlast b hb)

theorem coalesced_before (hco : Coalesced (pre ++ c :: post)) (hc : c.flag = chunkFree) :
    ∀ b ∈ pre.getLast?, b.flag ≠ chunkFree := by
  intro b hb hf
  exact (isChain_append.mp hco).2.2 b hb c rfl ⟨hf, hc⟩

theorem mergeChunk_taken (hco : Coalesced (pre ++ c :: post)) (hc : c.flag = chunkFree) :
    mergeChunk pre c post = pre ++ c :: post := by
  rw [mergeChunk_alone (coalesced_before hco hc)]
  cases post with
  | nil => rfl
  | cons d post =>
    rw [mergeNext, if_neg]
    intro hd
    have hcpost := (isChain_append.mp hco).2.1
    exact (isChain_cons_cons.mp hcpost).1 ⟨hc, hd⟩

theorem mergeChunk_rest (hco : Coalesced (pre ++ c :: post)) (hc : c.flag = chunkFree)
    (hroom : size + sizeofChunk ≤ c.size) :
    mergeChunk pre { c with size := size, flag := chunkFree } (c.rest size :: post) = pre ++ c :: post := by
  have hjoin : Chunk.join { c with size := size, flag := chunkFree } (c.rest size) = c := by
    obtain ⟨a, n, f⟩ := c
    dsimp only at hc hroom
    simp only [Chunk.join, Chunk.rest, hc, Chunk.mk.injEq, and_true, true_and]
    omega
  have hrest : (c.rest size).flag = chunkFree := rfl
  rw [mergeChunk_alone (coalesced_before hco hc), mergeNext, if_pos hrest, hjoin]

end

/-! ## The loop of `malloc` -/

section
variable {h h' : UserHeap} {cs : List Chunk} {ok : Nat → Bool} {size left r : Nat}

/-- A heap that has not grown gave a chunk of the list as it was. -/
theorem mallocLoop_taken (hl : h.Placed cs) (hco : Coalesced cs) (hend : EndsAtBreak h cs)
    (hbig : 2 ^ 32 ≤ h.curbrk + (left + 1) * chunkSize)
    (hrun : UserHeap.mallocLoop ok size (left + 1) h = some (r, h')) (hr : r ≠ 0) (hbrk : h'.curbrk = h.curbrk) :
    ∃ pre c post, cs = pre ++ c :: post ∧ c.flag = chunkFree ∧ size ≤ c.size ∧ r = c.addr + sizeofChunk ∧
      h'.Placed (takeChunk pre c post size) := by
  obtain ⟨hnull, -⟩ | ⟨pre, c, post, rfl, hne, hfound, hfree, hle⟩ := findMalloc_spec hl size
  · rw [mallocLoop_null hnull] at hrun
    cases hext : h.extendMalloc (ok left) with
    | none =>
      rw [hext] at hrun
      cases hrun
      exact absurd rfl hr
    | some h₁ =>
      rw [hext] at hrun
      obtain ⟨he₁, hend₁, hbrk₁⟩ := extendMalloc_spec hl hco hend hext
      rw [Nat.succ_mul] at hbig
      obtain ⟨r', h'', cs'', hrun', hspec⟩ :=
        mallocLoop_spec ok size left he₁.placed he₁.coalesced (fun _ => hend₁) (by omega)
      cases hrun.symm.trans hrun'
      have := hspec.extended.grows
      simp only [chunkSize] at hbrk₁
      omega
  · rw [mallocLoop_found hfound hne] at hrun
    cases hrun
    exact ⟨pre, c, post, rfl, hfree, hle, rfl, (take_spec hl hco hfree hle).placed⟩

/-- After `NULL` the heap has no room and has been extended until `sbrk` refused. -/
theorem mallocLoop_refused : ∀ (left : Nat) {h : UserHeap} {cs : List Chunk}, h.Placed cs → Coalesced cs →
    EndsAtBreak h cs → UserHeap.mallocLoop ok size left h = some (0, h') →
    ∃ j k cs', j + k + 1 = left ∧ h'.curbrk = h.curbrk + k * chunkSize ∧ h'.extendMalloc (ok j) = none ∧
      h'.Placed cs' ∧ ∀ c ∈ cs', c.flag = chunkFree → c.size < size := by
  intro left
  induction left with
  | zero =>
    intro h cs _ _ _ hrun
    cases hrun
  | succ left ih =>
    intro h cs hl hco hend hrun
    obtain ⟨hnull, hnone⟩ | ⟨pre, c, post, rfl, hne, hfound, -, -⟩ := findMalloc_spec hl size
    · rw [mallocLoop_null hnull] at hrun
      cases hext : h.extendMalloc (ok left) with
      | none =>
        rw [hext] at hrun
        cases hrun
        exact ⟨left, 0, cs, rfl, by rw [Nat.zero_mul, Nat.add_zero], hext, hl, hnone⟩
      | some h₁ =>
        rw [hext] at hrun
        obtain ⟨he₁, hend₁, hbrk₁⟩ := extendMalloc_spec hl hco hend hext
        obtain ⟨j, k, cs', hjk, hbrk, hrest⟩ := ih he₁.placed he₁.coalesced hend₁ hrun
        refine ⟨j, k + 1, cs', by omega, ?_, hrest⟩
        rw [hbrk, hbrk₁, Nat.succ_mul]
        omega
    · rw [mallocLoop_found hfound hne] at hrun
      have hzero : c.addr + sizeofChunk = 0 := congrArg Prod.fst (Option.some.inj hrun)
      exact absurd hzero (by simp [sizeofChunk])

theorem extendMalloc_refused {left : Bool} (hne : h.curbrk ≠ 0) (hext : h.extendMalloc left = none) :
    left = true → 2 ^ 32 ≤ h.curbrk + chunkSize := by
  intro hok
  by_contra hlt
  rw [extendMalloc_some ⟨hok, Nat.not_le.mp hlt⟩ hne] at hext
  cases hext

end

/-! ## Runs -/

namespace HeapState.Good

variable {s : HeapState} {cs : List Chunk} {b : UserBlock}

theorem placed (h : s.Good cs) : s.heap.Placed cs := h.sound.placed

theorem malloc_free (h : s.Good cs) {size r : Nat} {ok : Nat → Bool} {h' : UserHeap}
    (hrun : s.heap.malloc size ok = some (r, h')) (hr : r ≠ 0) (hbrk : h'.curbrk = s.heap.curbrk) :
    (h'.free r).layout = some cs := by
  have hbig : 2 ^ 32 ≤ s.heap.curbrk + (1024 + 1) * chunkSize := by
    simp only [chunkSize]
    omega
  obtain ⟨pre, c, post, rfl, hfree, hle, rfl, htaken⟩ :=
    mallocLoop_taken h.placed h.coalesced h.endsAtBreak hbig hrun hr hbrk
  obtain ⟨r', h'', cs', hrun', -, hgood⟩ := h.malloc size ok
  cases hrun.symm.trans hrun'
  obtain rfl := Placed.unique htaken hgood.placed
  have hflag : { c with flag := chunkFree } = c := by rw [← hfree]
  rw [takeChunk] at hgood
  by_cases hgap : c.size - size < chunkGap
  · rw [if_pos hgap] at hgood
    have hspec := free_spec hgood.placed hgood.coalesced (hgood.touches rfl)
    rw [layout_eq hspec.placed, hflag, mergeChunk_taken h.coalesced hfree]
  · rw [if_neg hgap] at hgood
    have hroom : size + sizeofChunk ≤ c.size := by
      simp only [chunkGap, sizeofChunk] at hgap ⊢
      omega
    have hspec := free_spec hgood.placed hgood.coalesced (hgood.touches rfl)
    rw [layout_eq hspec.placed, mergeChunk_rest h.coalesced hfree hroom]

/-- `free` takes one chunk from those that are in use. -/
theorem free_used (h : s.Good cs) (hb : b ∈ s.live) :
    ∃ cs', Good ⟨s.heap.free b.ptr, s.live.filter fun b' => b'.ptr ≠ b.ptr⟩ cs' ∧
      ∀ d, d.flag ≠ chunkFree → (d ∈ cs' ↔ d ∈ cs ∧ d.addr + sizeofChunk ≠ b.ptr) := by
  obtain ⟨-, cs', hgood⟩ := h.free hb
  obtain ⟨c, hc, hu, hptr, -⟩ := h.inside b hb
  obtain ⟨pre, post, rfl⟩ := append_of_mem hc
  have hspec := free_spec h.placed h.coalesced (h.touches rfl)
  rw [← hptr] at hspec
  obtain rfl := Placed.unique hspec.placed hgood.placed
  refine ⟨_, hgood, fun d hd => ?_⟩
  rw [mergeChunk_used rfl hd, mem_middle, hptr]
  constructor
  · intro hin
    refine ⟨.inr hin, fun he => ?_⟩
    have := h.placed.spaced.apart hin
    omega
  · rintro ⟨rfl | hin, hne⟩
    · exact absurd rfl hne
    · exact hin

theorem frees_used : ∀ {l : List Nat} {s : HeapState} {cs : List Chunk}, s.Good cs → l.Nodup →
    (∀ p ∈ l, ∃ b ∈ s.live, b.ptr = p) →
    ∃ s' cs', Good s' cs' ∧ s'.heap = l.foldl UserHeap.free s.heap ∧ s'.heap.startbrk = s.heap.startbrk ∧
      s'.heap.curbrk = s.heap.curbrk ∧
      ∀ d, d.flag ≠ chunkFree → (d ∈ cs' ↔ d ∈ cs ∧ d.addr + sizeofChunk ∉ l) := by
  intro l
  induction l with
  | nil =>
    intro s cs h _ _
    exact ⟨s, cs, h, rfl, rfl, rfl, fun d _ => by simp⟩
  | cons p l ih =>
    intro s cs h hnodup hlive
    obtain ⟨b, hb, rfl⟩ := hlive _ (mem_cons_self ..)
    obtain ⟨hnot, hnodup⟩ := nodup_cons.mp hnodup
    obtain ⟨cs₁, h₁, hused₁⟩ := h.free_used hb
    obtain ⟨s', cs', h', hheap, hlo, hhi, hused⟩ := ih h₁ hnodup (by
      intro q hq
      obtain ⟨b', hb', rfl⟩ := hlive q (mem_cons_of_mem _ hq)
      refine ⟨b', mem_filter.mpr ⟨hb', decide_eq_true ?_⟩, rfl⟩
      intro he
      exact hnot (he ▸ hq))
    refine ⟨s', cs', h', hheap, hlo.trans ?_, hhi.trans ?_, fun d hd => ?_⟩
    · exact free_startbrk _ _
    · exact free_curbrk _ _
    · rw [hused d hd, hused₁ d hd, mem_cons, not_or, and_assoc]

theorem same_layout {s s' : HeapState} {cs cs' : List Chunk} (h : s.Good cs) (h' : s'.Good cs')
    (hlo : s.heap.startbrk = s'.heap.startbrk) (hhi : s.heap.curbrk = s'.heap.curbrk)
    (hused : ∀ d : Chunk, d.flag ≠ chunkFree → (d ∈ cs ↔ d ∈ cs')) : cs = cs' := by
  have hchain : ∀ {cs : List Chunk}, Coalesced cs → cs.IsChain fun c d => c.flag ≠ chunkFree ∨ d.flag ≠ chunkFree :=
    fun hco => List.IsChain.imp (fun _ _ hn => Decidable.not_and_iff_or_not.mp hn) hco
  have htiles : chunkTiles s'.heap.startbrk s'.heap.curbrk cs := by
    rw [← hlo, ← hhi]
    exact h.laid.tiles
  refine Tiles.unique chunk_pos ?_ htiles h'.laid.tiles (hchain h.coalesced) (hchain h'.coalesced) hused
  intro c d hc hd haddr hsize
  obtain ⟨a, n, f⟩ := c
  obtain ⟨a', n', f'⟩ := d
  dsimp only at haddr hsize
  have hc : f = chunkFree := Decidable.not_not.mp hc
  have hd : f' = chunkFree := Decidable.not_not.mp hd
  rw [haddr, hc, hd, Nat.add_left_cancel hsize]

theorem frees_layout (h : s.Good cs) {l : List Nat} (hnodup : l.Nodup) (hlive : ∀ p ∈ l, ∃ b ∈ s.live, b.ptr = p) :
    ∃ cs', ∀ l' : List Nat, l'.Perm l → (l'.foldl UserHeap.free s.heap).layout = some cs' := by
  obtain ⟨s₁, cs₁, h₁, -, hlo₁, hhi₁, hused₁⟩ := h.frees_used hnodup hlive
  refine ⟨cs₁, fun l' hperm => ?_⟩
  obtain ⟨s₂, cs₂, h₂, hheap₂, hlo₂, hhi₂, hused₂⟩ :=
    h.frees_used (hperm.nodup_iff.mpr hnodup) fun p hp => hlive p (hperm.mem_iff.mp hp)
  have hsame : cs₂ = cs₁ := by
    refine same_layout h₂ h₁ (hlo₂.trans hlo₁.symm) (hhi₂.trans hhi₁.symm) fun d hd => ?_
    rw [hused₁ d hd, hused₂ d hd, hperm.mem_iff]
  rw [← hheap₂, layout_eq h₂.placed, hsame]

end HeapState.Good

section
variable {s₀ s : HeapState}

/-- A block that is freed at once leaves the chunks as they were, and many blocks may be freed in any order. -/
theorem malloc_free_layout (h₀ : s₀.Start)
    (hrun : ReflTransGen (fun s s' => ∃ op, s.Allowed op ∧ s.step op = some s') s₀ s) :
    ∃ cs, s.heap.layout = some cs ∧
      (∀ size ok r h', s.heap.malloc size ok = some (r, h') → r ≠ 0 → h'.curbrk = s.heap.curbrk →
        (h'.free r).layout = some cs) ∧
      ∀ l : List Nat, l.Nodup → (∀ p ∈ l, ∃ b ∈ s.live, b.ptr = p) →
        ∃ cs', ∀ l' : List Nat, l'.Perm l → (l'.foldl UserHeap.free s.heap).layout = some cs' := by
  obtain ⟨cs, hgood⟩ := HeapState.good_of_run h₀ hrun
  exact ⟨cs, layout_eq hgood.placed, fun _ _ _ _ hm hr hbrk => hgood.malloc_free hm hr hbrk,
    fun _ hnodup hlive => hgood.frees_layout hnodup hlive⟩

theorem malloc_free_layout_two : ∃ s₁ s₂, freshHeap.step (.malloc 10 fun _ => true) = some s₁ ∧
    s₁.step (.malloc 20 fun _ => true) = some s₂ ∧ s₂.live = [⟨0x80002a, 20⟩, ⟨0x800010, 10⟩] ∧
    ((s₂.heap.free 0x80002a).free 0x800010).layout = ((s₂.heap.free 0x800010).free 0x80002a).layout := by
  have hlive₁ : (freshHeap.step (.malloc 10 fun _ => true)).isSome = true := by decide +kernel
  obtain ⟨s₁, hs₁⟩ := Option.isSome_iff_exists.mp hlive₁
  have hlive₂ : ((freshHeap.step (.malloc 10 fun _ => true)).bind (HeapState.step · (.malloc 20 fun _ => true))).map
      HeapState.live = some [⟨0x80002a, 20⟩, ⟨0x800010, 10⟩] := by decide +kernel
  rw [hs₁] at hlive₂
  obtain ⟨s₂, hs₂, hl⟩ := Option.map_eq_some_iff.mp hlive₂
  have ha : ∀ {s : HeapState} {n : Nat}, n < 2 ^ 32 → s.Allowed (.malloc n fun _ => true) := id
  obtain ⟨-, -, -, hfrees⟩ := malloc_free_layout freshHeap_start
    (.tail (.single ⟨_, ha (n := 10) (by decide), hs₁⟩) ⟨_, ha (n := 20) (by decide), hs₂⟩)
  obtain ⟨cs, hcs⟩ := hfrees [0x80002a, 0x800010] (by decide) (by
    rw [hl]
    simp)
  have h₁ := hcs [0x80002a, 0x800010] (.refl _)
  have h₂ := hcs [0x800010, 0x80002a] (.swap ..)
  exact ⟨s₁, s₂, hs₁, hs₂, hl, h₁.trans h₂.symm⟩

def UserHeap.sbrkUpTo (h : UserHeap) (limit left : Nat) : Bool := h.curbrk + (1025 - left) * chunkSize ≤ limit

/-- `malloc` returns, and `NULL` only from a heap that has no room and cannot grow. -/
theorem malloc_null_only_full (h₀ : s₀.Start)
    (hrun : ReflTransGen (fun s s' => ∃ op, s.Allowed op ∧ s.step op = some s') s₀ s)
    (size : Nat) {limit : Nat} (hlimit : limit < 2 ^ 32) :
    ∃ r h' cs, s.heap.malloc size (s.heap.sbrkUpTo limit) = some (r, h') ∧ h'.layout = some cs ∧
      ((r = 0 ∧ limit < h'.curbrk + chunkSize ∧ ∀ c ∈ cs, c.flag = chunkFree → c.size < size) ∨
        ∃ c ∈ cs, c.flag = chunkInuse ∧ r = c.addr + sizeofChunk ∧ size ≤ c.size) := by
  obtain ⟨cs₀, hgood⟩ := HeapState.good_of_run h₀ hrun
  have hbig : 2 ^ 32 ≤ s.heap.curbrk + 1025 * chunkSize := by
    simp only [chunkSize]
    omega
  obtain ⟨r, h', cs, hm, hspec⟩ :=
    mallocLoop_spec (s.heap.sbrkUpTo limit) size 1025 hgood.placed hgood.coalesced (fun _ => hgood.endsAtBreak) hbig
  refine ⟨r, h', cs, hm, layout_eq hspec.extended.placed, ?_⟩
  obtain rfl | ⟨c, hc, hu, hr, hle, -⟩ := hspec.result
  · obtain ⟨j, k, cs', hjk, hbrk, hext, hplaced, hnone⟩ :=
      mallocLoop_refused 1025 hgood.placed hgood.coalesced hgood.endsAtBreak hm
    obtain rfl := Placed.unique hplaced hspec.extended.placed
    refine .inl ⟨rfl, ?_, hnone⟩
    have hne : h'.curbrk ≠ 0 := by
      have := hplaced.packed.le
      have := hplaced.head
      omega
    cases hok : s.heap.sbrkUpTo limit j with
    | true =>
      have := extendMalloc_refused hne hext hok
      omega
    | false =>
      have hlt := of_decide_eq_false hok
      have hj : 1025 - j = k + 1 := by omega
      rw [hj, Nat.succ_mul] at hlt
      omega
  · exact .inr ⟨c, hc, hu, hr, hle⟩

/-- A heap with a free chunk of ten bytes in front: the break moves once more, and the chunk at the end is
still too small. -/
theorem malloc_null_only_full_grown : ∃ s₁ s₂ s₃ h' cs, freshHeap.step (.malloc 10 fun _ => true) = some s₁ ∧
    s₁.step (.malloc 20 fun _ => true) = some s₂ ∧ s₂.step (.free 0x800010) = some s₃ ∧
    s₃.heap.malloc 0x7ffff0 (s₃.heap.sbrkUpTo 0x1000000) = some (0, h') ∧ h'.layout = some cs ∧
    cs = [⟨0x800000, 10, chunkFree⟩, ⟨0x80001a, 20, chunkInuse⟩, ⟨0x80003e, 0x7fffb2, chunkFree⟩] ∧
    0x1000000 < h'.curbrk + chunkSize ∧ ∀ c ∈ cs, c.flag = chunkFree → c.size < 0x7ffff0 := by
  have h : ((freshHeap.step (.malloc 10 fun _ => true)).bind fun s₁ =>
        (s₁.step (.malloc 20 fun _ => true)).bind fun s₂ =>
      (s₂.step (.free 0x800010)).bind fun s₃ => (s₃.heap.malloc 0x7ffff0 (s₃.heap.sbrkUpTo 0x1000000)).bind fun r =>
        r.2.layout.map fun cs => (s₂.live.map UserBlock.ptr, r.1, cs)) = some ([0x80002a, 0x800010], 0,
          [⟨0x800000, 10, chunkFree⟩, ⟨0x80001a, 20, chunkInuse⟩,
            ⟨0x80003e, 0x7fffb2, chunkFree⟩]) := by decide +kernel
  simp only [Option.bind_eq_some_iff, Option.map_eq_some_iff, Prod.mk.injEq] at h
  obtain ⟨s₁, hs₁, s₂, hs₂, s₃, hs₃, ⟨r, h'⟩, hm, cs, hl, hlive, rfl, hcs⟩ := h
  have ha : ∀ {s : HeapState} {n : Nat}, n < 2 ^ 32 → s.Allowed (.malloc n fun _ => true) := id
  have hfree : s₂.Allowed (.free 0x800010) := .inr (mem_map.mp (hlive ▸ by decide))
  obtain ⟨_, _, _, hm', hl', hres⟩ := malloc_null_only_full freshHeap_start (.tail (.tail (.single
    ⟨_, ha (n := 10) (by decide), hs₁⟩) ⟨_, ha (n := 20) (by decide), hs₂⟩) ⟨_, hfree, hs₃⟩) 0x7ffff0
    (show 0x1000000 < 2 ^ 32 by decide)
  cases hm.symm.trans hm'
  cases hl.symm.trans hl'
  obtain ⟨-, hfull, hsmall⟩ | ⟨c, -, -, hr, -⟩ := hres
  · exact ⟨s₁, s₂, s₃, h', cs, hs₁, hs₂, hs₃, hm, hl, hcs, hfull, hsmall⟩
  · exact absurd hr (Nat.ne_of_lt (Nat.add_pos_right _ (by decide)))

end

end MiniOS
