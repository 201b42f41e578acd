import MiniOS.MallocSbrk
import MiniOS.MallocSound
import MiniOS.Runs

/-!
# Chunks stay clear of the blocks of `sbrk`
-/

namespace MiniOS

theorem listEntry_listOf (a : Nat) : listEntry (listOf a) = a := Nat.add_sub_cancel ..

section
variable {h : UserHeap} {cs pre post : List Chunk} {c : Chunk}

/-! ## Neighbours in the list and in memory -/

theorem UserHeap.MergeFits.touches (hf : h.MergeFits c.addr) (hl : h.Placed (pre ++ c :: post)) :
    Touches pre c post := by
  constructor
  · intro b hb hfree
    obtain ⟨pre, rfl⟩ := List.getLast?_eq_some_iff.mp hb
    have hmem : b ∈ pre ++ [b] ++ c :: post := by simp
    have hprev : listOf b.addr = h.mem.prev (listOf c.addr) :=
      Option.some.inj (getLast_nodes.symm.trans hl.prev_node)
    have hadj := hf.1
    rw [← hprev, listEntry_listOf, hl.listed.flag b hmem, hl.listed.size b hmem] at hadj
    exact hadj (hl.node_ne hmem) hfree
  · intro d hd hfree
    obtain ⟨post, rfl⟩ := List.head?_eq_some_iff.mp hd
    have hmem : d ∈ pre ++ c :: d :: post := by simp
    have hnext : listOf d.addr = h.mem.next (listOf c.addr) := Option.some.inj hl.next_node
    have hadj := hf.2
    rw [← hnext, listEntry_listOf, hl.listed.flag d hmem, hl.listed.size c (by simp)] at hadj
    exact hadj (hl.node_ne hmem) hfree

theorem UserHeap.LastFits.endsAtBreak (hf : h.LastFits) (hl : h.Placed cs) : EndsAtBreak h cs := by
  intro b hb hfree
  obtain ⟨pre, rfl⟩ := List.getLast?_eq_some_iff.mp hb
  have hmem : b ∈ pre ++ [b] := by simp
  have hlast : listOf b.addr = h.mem.prev h.freeList :=
    Option.some.inj (getLast_nodes.symm.trans hl.listed.last_node)
  have hadj := hf
  dsimp only [UserHeap.LastFits] at hadj
  rw [← hlast, listEntry_listOf, hl.listed.flag b hmem, hl.listed.size b hmem] at hadj
  exact hadj (hl.node_ne hmem) hfree

end

/-! ## Runs -/

namespace SharedHeap

variable {s : SharedHeap} {cs : List Chunk} {b r : UserBlock}

structure Good (s : SharedHeap) (cs : List Chunk) : Prop where
  sound : s.toHeapState.Sound cs
  inHeap : ∀ r ∈ s.direct, s.heap.startbrk ≤ r.ptr ∧ r.ptr + r.size ≤ s.heap.curbrk
  clear : ∀ r ∈ s.direct, ∀ x, r.ptr ≤ x → x < r.ptr + r.size → ¬ Held cs x

theorem Start.good (h : s.Start) : s.Good [] where
  sound := h.toStart.good.sound
  inHeap r hr := by
    rw [h.direct] at hr
    cases hr
  clear r hr := by
    rw [h.direct] at hr
    cases hr

namespace Good

theorem held_of_live (h : s.Good cs) (hb : b ∈ s.live) {x : Nat} (h₁ : b.ptr ≤ x) (h₂ : x < b.ptr + b.size) :
    Held cs x := by
  obtain ⟨c, hc, -, hptr, hsize⟩ := h.sound.inside b hb
  exact ⟨c, hc, by omega, show x < c.addr + (sizeofChunk + c.size) by omega⟩

theorem apart (h : s.Good cs) : s.Apart where
  live := h.sound.disjoint.imp fun hd ⟨x, hx, hx'⟩ => by omega
  direct b hb r hr := fun ⟨x, hx, hx'⟩ => h.clear r hr x hx'.1 hx'.2 (h.held_of_live hb hx.1 hx.2)

theorem outside (h : s.Good cs) (hb : b ∈ s.live ++ s.direct) {x : Nat} (h₁ : b.ptr ≤ x) (h₂ : x < b.ptr + b.size) :
    Outside s.heap.freeList cs x := by
  rcases List.mem_append.mp hb with hb | hb
  · exact (h.sound.inside b hb).outside h.sound.placed h₁ h₂
  · have hhead := h.sound.placed.head
    have hlow := (h.inHeap b hb).1
    refine ⟨.inr (by omega), fun c hc => ?_⟩
    by_contra hin
    refine h.clear b hb x h₁ h₂ ⟨c, hc, ?_, ?_⟩
    · omega
    · simp only [sizeofChunk]
      omega

theorem malloc (h : s.Good cs) {size : Nat} {ok : Nat → Bool} (hf : s.Fits (.heap (.malloc size ok))) :
    ∃ s' cs', s.step (.heap (.malloc size ok)) = some s' ∧ s'.Good cs' := by
  by_cases hno : s.heap.findMalloc size = some 0 ∧ s.heap.extendMalloc (ok 1024) = none
  · refine ⟨s, cs, ?_, h⟩
    rw [step, HeapState.step, UserHeap.malloc, UserHeap.mallocLoop, hno.1]
    simp only [hno.2]
    rfl
  obtain ⟨r, h', cs', hrun, -, hsound, hext⟩ := h.sound.malloc size ok fun hnull =>
    (hf hnull (Option.isSome_iff_ne_none.mpr fun e => hno ⟨hnull, e⟩)).endsAtBreak h.sound.placed
  refine ⟨⟨_, s.direct⟩, cs', ?_, hsound, ?_, ?_⟩
  · rw [step, HeapState.step, hrun]
    rfl
  · intro r hr
    obtain ⟨hlow, hhigh⟩ := h.inHeap r hr
    exact ⟨hext.start ▸ hlow, hhigh.trans hext.grows⟩
  · -- the new bytes are above the old break
    intro r hr x h₁ h₂ hheld
    have := (h.inHeap r hr).2
    rcases (hext.held x).mp hheld with hold | hnew
    · exact h.clear r hr x h₁ h₂ hold
    · omega

theorem free (h : s.Good cs) {obj : Nat} (ha : s.Allowed (.heap (.free obj))) (hf : s.Fits (.heap (.free obj))) :
    ∃ s' cs', s.step (.heap (.free obj)) = some s' ∧ s'.Good cs' := by
  have hbrk : (s.heap.free obj).startbrk = s.heap.startbrk ∧ (s.heap.free obj).curbrk = s.heap.curbrk := by
    unfold UserHeap.free
    split_ifs <;> exact ⟨rfl, rfl⟩
  have hin : ∀ r ∈ s.direct, (s.heap.free obj).startbrk ≤ r.ptr ∧ r.ptr + r.size ≤ (s.heap.free obj).curbrk := by
    rw [hbrk.1, hbrk.2]
    exact h.inHeap
  obtain rfl | ⟨b, hb, rfl⟩ := ha
  · exact ⟨_, cs, rfl, h.sound.free_null, hin, h.clear⟩
  · have htouch : ∀ pre c post, cs = pre ++ c :: post → b.ptr = c.addr + sizeofChunk → Touches pre c post := by
      rintro pre c post rfl hptr
      have hwithin := (h.sound.placed.packed.within (by simp : c ∈ pre ++ c :: post)).2
      have hmax := h.sound.placed.top
      have hmc : wsub b.ptr sizeofChunk = c.addr := by
        rw [hptr, wsub_of_le (by omega) (by omega), Nat.add_sub_cancel]
      have hfits := hf (by rw [hptr]; simp [sizeofChunk])
      rw [hmc] at hfits
      exact hfits.touches h.sound.placed
    obtain ⟨-, cs', hsound, hheld⟩ := h.sound.free hb htouch
    exact ⟨_, cs', rfl, hsound, hin, fun r hr x h₁ h₂ hx => h.clear r hr x h₁ h₂ ((hheld x).mp hx)⟩

theorem store (h : s.Good cs) {addr : Nat} {v : UInt8} (ha : s.Allowed (.heap (.store addr v))) :
    ∃ s', s.step (.heap (.store addr v)) = some s' ∧ s'.Good cs := by
  obtain ⟨b, hb, h₁, h₂⟩ := ha
  exact ⟨_, rfl, h.sound.store (h.outside hb h₁ h₂) v, h.inHeap, h.clear⟩

theorem sbrk (h : s.Good cs) (inc : Nat) (ok : Bool) : ∃ s', s.step (.sbrk inc ok) = some s' ∧ s'.Good cs := by
  by_cases hok : ok ∧ s.heap.curbrk + inc < 2 ^ 32
  · have hle := h.sound.placed.packed.le
    have hhead := h.sound.placed.head
    have hne : s.heap.curbrk ≠ 0 := by omega
    have hgrown : s.heap.curbrk ≤ s.heap.curbrk + inc := Nat.le_add_right ..
    refine ⟨⟨⟨{ s.heap with curbrk := s.heap.curbrk + inc }, s.live⟩, ⟨s.heap.curbrk, inc⟩ :: s.direct⟩, ?_,
      ⟨⟨h.sound.placed.listed, h.sound.placed.packed.mono_hi hgrown, hhead, hok.2⟩, h.sound.coalesced,
        h.sound.inside, h.sound.distinct⟩, ?_, ?_⟩
    · rw [SharedHeap.step, UserHeap.sbrkInc, if_pos hok]
      dsimp only
      rw [if_neg hne]
    · intro r hr
      rcases List.mem_cons.mp hr with rfl | hr
      · exact ⟨hle, Nat.le_refl _⟩
      · exact ⟨(h.inHeap r hr).1, Nat.le_trans (h.inHeap r hr).2 hgrown⟩
    · intro r hr x h₁ h₂ hx
      rcases List.mem_cons.mp hr with rfl | hr
      · obtain ⟨c, hc, -, hlt⟩ := hx
        have := (h.sound.placed.packed.within hc).2
        dsimp only at h₁ hlt this
        omega
      · exact h.clear r hr x h₁ h₂ hx
  · refine ⟨s, ?_, h⟩
    rw [SharedHeap.step, UserHeap.sbrkInc, if_neg hok]
    rfl

theorem step (h : s.Good cs) {op : SharedOp} (ha : s.Allowed op) (hf : s.Fits op) :
    ∃ s' cs', s.step op = some s' ∧ s'.Good cs' := by
  cases op with
  | sbrk inc ok =>
    obtain ⟨s', hs, hgood⟩ := h.sbrk inc ok
    exact ⟨s', cs, hs, hgood⟩
  | heap op =>
    cases op with
    | malloc size ok => exact h.malloc hf
    | free obj => exact h.free ha hf
    | store addr v =>
      obtain ⟨s', hs, hgood⟩ := h.store ha
      exact ⟨s', cs, hs, hgood⟩

end Good

end SharedHeap

/-- In a run without a merge of chunks that do not touch, every call returns and leaves all
blocks apart. -/
theorem malloc_clear_of_sbrk {s₀ : SharedHeap} (h₀ : s₀.Start) (ops : List SharedOp)
    (hrun : Along SharedHeap.next SharedHeap.Allowed s₀ ops)
    (hfits : Along SharedHeap.next SharedHeap.Fits s₀ ops) :
    Along SharedHeap.next (fun s op => ∃ s', s.step op = some s' ∧ s'.Apart) s₀ ops := by
  refine along_of (fun s => ∃ cs, s.Good cs) (fun {s op} hs ha hf => ?_) ops ⟨[], h₀.good⟩ hrun hfits
  obtain ⟨cs, hgood⟩ := hs
  obtain ⟨s', cs', hstep, hgood'⟩ := hgood.step ha hf
  refine ⟨⟨s', hstep, hgood'.apart⟩, cs', ?_⟩
  unfold SharedHeap.next
  rw [hstep]
  exact hgood'

def freshShared : SharedHeap := ⟨freshHeap, []⟩

theorem freshShared_start : freshShared.Start := ⟨freshHeap_start, rfl⟩

def mallocOp (size : Nat) : SharedOp := .heap (.malloc size fun _ => true)

theorem mallocOp_allowed (s : SharedHeap) {size : Nat} (h : size ≤ chunkSize) : s.Allowed (mallocOp size) :=
  show size < 2 ^ 32 from h.trans_lt (by decide)

theorem sbrk_allowed (s : SharedHeap) {inc : Nat} (h : inc ≤ chunkSize) : s.Allowed (.sbrk inc true) :=
  show inc < 2 ^ 32 from h.trans_lt (by decide)

theorem malloc_clear_of_sbrk_page :
    Along SharedHeap.next (fun s op => ∃ s', s.step op = some s' ∧ s'.Apart) freshShared
    [mallocOp 10, .sbrk 0x1000 true, mallocOp 20, .heap (.free 0x800010), .heap (.store 0xC00000 7)] := by
  refine malloc_clear_of_sbrk freshShared_start _
    ⟨mallocOp_allowed _ (by decide), sbrk_allowed _ (by decide), mallocOp_allowed _ (by decide), ?_, ?_, trivial⟩
    ⟨fun _ _ hne => absurd ?_ hne, trivial, fun hnull => absurd hnull ?_, fun _ => ?_, trivial, trivial⟩
  · refine .inr ⟨⟨0x800010, 10⟩, ?_, rfl⟩
    decide +kernel
  · refine ⟨⟨0xC00000, 0x1000⟩, ?_, by decide, by decide⟩
    decide +kernel
  · exact freshHeap_start.prev
  · decide +kernel
  · unfold UserHeap.MergeFits
    decide +kernel

/-- The chunk that the last call gets from `sbrk` is merged with the free end of the first
one, across the page that the program has taken in between. -/
theorem malloc_over_sbrk : Along SharedHeap.next SharedHeap.Allowed freshShared
      [mallocOp 10, .sbrk 0x1000 true, mallocOp 0x400000] ∧
    ¬ Along SharedHeap.next (fun s op => ∃ s', s.step op = some s' ∧ s'.Apart) freshShared
      [mallocOp 10, .sbrk 0x1000 true, mallocOp 0x400000] := by
  have hstep : (((freshShared.next (mallocOp 10)).next (.sbrk 0x1000 true)).step (mallocOp 0x400000)).map
      (fun s => (s.live, s.direct)) = some ([⟨0x80002A, 0x400000⟩, ⟨0x800010, 10⟩], [⟨0xC00000, 0x1000⟩]) := by
    decide +kernel
  obtain ⟨s, hs, hblocks⟩ := Option.map_eq_some_iff.mp hstep
  rw [Prod.mk.injEq] at hblocks
  refine ⟨⟨mallocOp_allowed _ (by decide), sbrk_allowed _ (by decide), mallocOp_allowed _ (by decide), trivial⟩,
    fun hall => ?_⟩
  obtain ⟨s', hs', hapart⟩ := hall.2.2.1
  obtain rfl := Option.some.inj (hs.symm.trans hs')
  have hclear := hapart.direct
  rw [hblocks.1, hblocks.2] at hclear
  exact hclear ⟨0x80002A, 0x400000⟩ (by decide) ⟨0xC00000, 0x1000⟩ (by decide) ⟨0xC00000, by decide, by decide⟩

end MiniOS
