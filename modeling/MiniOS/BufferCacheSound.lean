import MiniOS.BufferCache
import MiniOS.HashTable
import Mathlib.Data.List.Nodup

/-!
# Coherence of the buffer cache

Every allocated buffer stands in its chain with a count of one, so the first `buffer_free`
frees it and leaves it there.
-/

namespace MiniOS

open Function List Option

namespace Buffers

variable {s s' : Buffers} {fuel x y mem : Nat} {dev block : UInt32} {retval : Int}

theorem setBuf_self (s : Buffers) (x : Nat) (b : BufferHead) : (s.setBuf x b).buf x = b := update_self ..

def Holds (s : Buffers) (x : Nat) (dev block : UInt32) : Prop := (s.buf x).bDev = dev ∧ (s.buf x).bBlocknr = block

structure BufferRep (s : Buffers) : Prop where
  hashed : Hashed (fun x => bufferHash (s.buf x).bDev (s.buf x).bBlocknr) id 0 s.live s.first s.next
  nodup : s.live.Nodup
  nonnull : ∀ x ∈ s.live, x ≠ 0
  keys : ∀ x ∈ s.live, ∀ y ∈ s.live, s.Holds x (s.buf y).bDev (s.buf y).bBlocknr → x = y
  count : s.bufferCount = s.live.length
  held : ∀ x ∈ s.live, (s.buf x).bCount = 1
  uptodate : ∀ x ∈ s.live, (s.buf x).bUptodate = true → s.readFrom x = some ((s.buf x).bDev, (s.buf x).bBlocknr)

theorem bufferRep_empty : BufferRep empty where
  hashed := Hashed.nil
  nodup := nodup_nil
  nonnull := by simp [empty]
  keys := by simp [empty]
  count := rfl
  held := by simp [empty]
  uptodate := by simp [empty]

theorem BufferRep.inTable_iff (h : BufferRep s) : s.InTable x ↔ x ∈ s.live := by
  have hreach := h.hashed.reach_iff (x := x)
  rw [List.map_id] at hreach
  exact hreach

theorem BufferRep.coherent (h : BufferRep s) : s.Coherent where
  chains b := ⟨_, h.hashed b⟩
  one x y hx hy hd hb := h.keys x (h.inTable_iff.mp hx) y (h.inTable_iff.mp hy) ⟨hd, hb⟩
  live _ hx := h.inTable_iff.mp hx
  count := ⟨s.live, h.nodup, fun _ => h.inTable_iff.symm, h.count⟩

/-! ## `buffer_get` -/

theorem getBufferHash_spec (h : BufferRep s) (hf : s.live.length < fuel) (dev block : UInt32) :
    ∃ x, s.getBufferHash fuel dev block = some x ∧
      (x ∈ s.live ∧ s.Holds x dev block ∨ x = 0 ∧ ∀ y ∈ s.live, ¬ s.Holds y dev block) := by
  rw [getBufferHash, h.hashed.find _ hf]
  cases hfind : s.live.reverse.find? fun e =>
      decide (bufferHash (s.buf e).bDev (s.buf e).bBlocknr = bufferHash dev block ∧
      decide ((s.buf (id e)).bDev = dev ∧ (s.buf (id e)).bBlocknr = block) = true) with
  | some x =>
    refine ⟨x, rfl, .inl ⟨mem_reverse.mp (mem_of_find?_eq_some hfind), ?_⟩⟩
    have htest := find?_some hfind
    rw [decide_eq_true_iff, decide_eq_true_iff] at htest
    exact htest.2
  | none =>
    refine ⟨0, rfl, .inr ⟨rfl, ?_⟩⟩
    intro y hy hholds
    have hno := find?_eq_none.mp hfind y (mem_reverse.mpr hy)
    apply hno
    rw [decide_eq_true_iff, decide_eq_true_iff]
    refine ⟨?_, hholds⟩
    rw [hholds.1, hholds.2]

def entered (s : Buffers) (mem : Nat) (dev block : UInt32) : Buffers where
  first := update s.first (bufferHash dev block) mem
  next := update s.next mem (s.first (bufferHash dev block))
  buf := update s.buf mem ⟨block, dev, false, 1⟩
  bufferCount := s.bufferCount + 1
  live := s.live ++ [mem]
  readFrom := update s.readFrom mem none

theorem bufferGet_miss (hget : s.getBufferHash fuel dev block = some 0) :
    s.bufferGet fuel mem dev block = some (if mem = 0 then (0, s) else (mem, s.entered mem dev block)) := by
  rw [bufferGet, hget, bind_some, if_neg (by simp), bufferAlloc]
  by_cases hm : mem = 0
  · simp only [hm, if_true]
  · simp only [hm, if_false]
    simp only [insertIntoHash, setBuf, entered, update_self, update_idem]

theorem entered_self (s : Buffers) (mem : Nat) (dev block : UInt32) :
    (s.entered mem dev block).buf mem = ⟨block, dev, false, 1⟩ := update_self ..

theorem entered_old (hnew : mem ∉ s.live) (hy : y ∈ s.live) :
    (s.entered mem dev block).buf y = s.buf y ∧ (s.entered mem dev block).readFrom y = s.readFrom y := by
  have hne : y ≠ mem := fun e => hnew (e ▸ hy)
  exact ⟨update_of_ne hne .., update_of_ne hne ..⟩

theorem forall_entered {P : Nat → Prop} (hlive : ∀ y ∈ s.live, P y) (hmem : P mem) :
    ∀ y ∈ (s.entered mem dev block).live, P y := by
  intro y hy
  rcases mem_append.mp hy with hy | hy
  · exact hlive y hy
  · rw [mem_singleton.mp hy]
    exact hmem

theorem BufferRep.entered_keys (h : BufferRep s) (hnew : mem ∉ s.live)
    (hmiss : ∀ y ∈ s.live, ¬ s.Holds y dev block) :
    ∀ y ∈ (s.entered mem dev block).live, ∀ z ∈ (s.entered mem dev block).live,
      (s.entered mem dev block).Holds y ((s.entered mem dev block).buf z).bDev
        ((s.entered mem dev block).buf z).bBlocknr → y = z := by
  apply forall_entered
  · intro y hy
    apply forall_entered
    · intro z hz hholds
      rw [Holds, (entered_old hnew hy).1, (entered_old hnew hz).1] at hholds
      exact h.keys y hy z hz hholds
    · intro hholds
      rw [Holds, (entered_old hnew hy).1, entered_self] at hholds
      exact absurd hholds (hmiss y hy)
  · apply forall_entered
    · intro z hz hholds
      rw [Holds, entered_self, (entered_old hnew hz).1] at hholds
      exact absurd ⟨hholds.1.symm, hholds.2.symm⟩ (hmiss z hz)
    · intro _
      rfl

theorem BufferRep.entered (h : BufferRep s) (hm : mem ≠ 0) (hnew : mem ∉ s.live)
    (hmiss : ∀ y ∈ s.live, ¬ s.Holds y dev block) : BufferRep (s.entered mem dev block) := by
  refine ⟨?_, ?_, forall_entered h.nonnull hm, h.entered_keys hnew hmiss, ?_, ?_, ?_⟩
  · have hkept : Hashed (fun y => bufferHash ((s.entered mem dev block).buf y).bDev
        ((s.entered mem dev block).buf y).bBlocknr) id 0 s.live s.first s.next := by
      apply h.hashed.congr _ fun _ _ => rfl
      intro y hy
      rw [(entered_old hnew hy).1]
    have hins := hkept.insert (e := mem) hm (by rwa [List.map_id])
    rw [entered_self] at hins
    exact hins
  · rw [Buffers.entered, nodup_append]
    refine ⟨h.nodup, nodup_singleton _, ?_⟩
    intro a ha b hb e
    rw [mem_singleton.mp hb] at e
    exact hnew (e ▸ ha)
  · rw [Buffers.entered, length_append, h.count]
    rfl
  · apply forall_entered
    · intro y hy
      rw [(entered_old hnew hy).1]
      exact h.held y hy
    · rw [entered_self]
  · apply forall_entered
    · intro y hy hup
      rw [(entered_old hnew hy).1] at hup ⊢
      rw [(entered_old hnew hy).2]
      exact h.uptodate y hy hup
    · intro hup
      rw [entered_self] at hup
      cases hup

theorem bufferGet_spec (h : BufferRep s) (hf : s.live.length < fuel) (hnew : mem ∉ s.live) (dev block : UInt32) :
    ∃ x s', s.bufferGet fuel mem dev block = some (x, s') ∧ BufferRep s' ∧ (mem ≠ 0 → x ≠ 0) ∧
      (x ≠ 0 → x ∈ s'.live ∧ s'.Holds x dev block) := by
  obtain ⟨x, hget, hx | ⟨rfl, hmiss⟩⟩ := getBufferHash_spec h hf dev block
  · have hgot : s.bufferGet fuel mem dev block = some (x, s) := by
      rw [bufferGet, hget, bind_some, if_pos (h.nonnull x hx.1)]
    exact ⟨x, s, hgot, h, fun _ => h.nonnull x hx.1, fun _ => hx⟩
  · rw [bufferGet_miss hget]
    by_cases hm : mem = 0
    · exact ⟨0, s, by rw [if_pos hm], h, fun h0 => absurd hm h0, fun h0 => absurd rfl h0⟩
    · refine ⟨mem, s.entered mem dev block, by rw [if_neg hm], h.entered hm hnew hmiss, id, ?_⟩
      intro _
      refine ⟨mem_append_right _ (mem_singleton_self _), ?_⟩
      have hself : (s.entered mem dev block).buf mem = ⟨block, dev, false, 1⟩ := update_self ..
      rw [Holds, hself]
      exact ⟨rfl, rfl⟩

/-! ## `buffer_read` -/

def filled (s : Buffers) (x : Nat) : Buffers :=
  { s.setBuf x { s.buf x with bUptodate := true } with
    readFrom := update s.readFrom x (some ((s.buf x).bDev, (s.buf x).bBlocknr)) }

theorem filled_keeps {β : Type} (g : BufferHead → β) (hg : ∀ b, g { b with bUptodate := true } = g b) (s : Buffers)
    (x y : Nat) : g ((s.filled x).buf y) = g (s.buf y) := by
  by_cases e : y = x
  · rw [e]
    exact (congrArg g (update_self ..)).trans (hg _)
  · exact congrArg g (update_of_ne e ..)

theorem BufferRep.filled (h : BufferRep s) (x : Nat) : BufferRep (s.filled x) := by
  have hdev := filled_keeps BufferHead.bDev (fun _ => rfl) s x
  have hblock := filled_keeps BufferHead.bBlocknr (fun _ => rfl) s x
  refine ⟨?_, h.nodup, h.nonnull, ?_, h.count, ?_, ?_⟩
  · apply h.hashed.congr _ fun _ _ => rfl
    intro y _
    rw [hdev, hblock]
  · intro y hy z hz hholds
    rw [Holds, hdev, hblock, hdev, hblock] at hholds
    exact h.keys y hy z hz hholds
  · intro y hy
    rw [filled_keeps BufferHead.bCount (fun _ => rfl) s x]
    exact h.held y hy
  · intro y hy hup
    rw [hdev, hblock]
    by_cases e : y = x
    · rw [e]
      exact update_self ..
    · have hold : (s.filled x).buf y = s.buf y := update_of_ne e ..
      rw [hold] at hup
      rw [← h.uptodate y hy hup]
      exact update_of_ne e ..

theorem blockRead_cases (h : s.blockRead x retval = some s') : s' = s.filled x ∨ s' = s := by
  unfold blockRead at h
  split at h
  · cases h
  · split at h
    · exact .inl (some.inj h).symm
    · exact .inr (some.inj h).symm

theorem blockRead_rep (h : BufferRep s) (hr : s.blockRead x retval = some s') :
    BufferRep s' ∧ s'.live = s.live ∧ ∀ dev block, s.Holds x dev block → s'.Holds x dev block := by
  rcases blockRead_cases hr with rfl | rfl
  · refine ⟨h.filled x, rfl, ?_⟩
    intro dev block hholds
    rw [Holds, filled_keeps BufferHead.bDev (fun _ => rfl), filled_keeps BufferHead.bBlocknr (fun _ => rfl)]
    exact hholds
  · exact ⟨h, rfl, fun _ _ hholds => hholds⟩

theorem bufferRead_spec (h : BufferRep s) (hf : s.live.length < fuel) (hnew : mem ∉ s.live)
    (hr : s.bufferRead fuel mem retval dev block = some (x, s')) :
    BufferRep s' ∧ (x ≠ 0 → (s'.buf x).bUptodate = true ∧ s'.readFrom x = some (dev, block)) := by
  obtain ⟨b, s₁, hget, h₁, -, hb⟩ := bufferGet_spec h hf hnew dev block
  -- a buffer that is held and up to date was read from its block
  have hread : ∀ {s : Buffers}, BufferRep s → b ∈ s.live ∧ s.Holds b dev block → (s.buf b).bUptodate = true →
      s.readFrom b = some (dev, block) := by
    intro s h hb hup
    rw [h.uptodate b hb.1 hup, hb.2.1, hb.2.2]
  rw [bufferRead, hget, bind_some] at hr
  by_cases hz : b = 0
  · simp only [hz, if_true, some.injEq, Prod.mk.injEq] at hr
    obtain ⟨rfl, rfl⟩ := hr
    exact ⟨h₁, fun h0 => absurd rfl h0⟩
  · simp only [hz, if_false] at hr
    have hb := hb hz
    split at hr
    · next hup =>
      cases hr
      exact ⟨h₁, fun _ => ⟨hup, hread h₁ hb hup⟩⟩
    · obtain ⟨s₂, hblk, hr⟩ := bind_eq_some_iff.mp hr
      obtain ⟨h₂, hlive, hholds⟩ := blockRead_rep h₁ hblk
      split at hr
      · next hup =>
        cases hr
        exact ⟨h₂, fun _ => ⟨hup, hread h₂ ⟨hlive ▸ hb.1, hholds dev block hb.2⟩ hup⟩⟩
      · cases hr
        exact ⟨h₂, fun h0 => absurd rfl h0⟩

/-- With memory for a buffer and a disk that answers, there is always an answer. -/
theorem bufferRead_answers (h : BufferRep s) (hf : s.live.length < fuel) (hnew : mem ∉ s.live) (hm : mem ≠ 0)
    (hdev : major dev = 3) (block : UInt32) : ∃ x s', s.bufferRead fuel mem 0 dev block = some (x, s') ∧ x ≠ 0 := by
  obtain ⟨x, s₁, hget, -, hx, hholds⟩ := bufferGet_spec h hf hnew dev block
  have hx := hx hm
  have hfilled : s₁.blockRead x 0 = some (s₁.filled x) := by
    rw [blockRead, (hholds hx).2.1, if_neg (not_not.mpr hdev), if_pos rfl, filled, (hholds hx).2.1]
  rw [bufferRead, hget, bind_some]
  simp only [if_neg hx]
  split
  · exact ⟨x, s₁, rfl, hx⟩
  · have hbuf : (s₁.filled x).buf x = { s₁.buf x with bUptodate := true } := update_self ..
    have hup : ((s₁.filled x).buf x).bUptodate = true := by rw [hbuf]
    refine ⟨x, s₁.filled x, ?_, hx⟩
    rw [hfilled, bind_some, if_pos hup]

/-! ## `buffer_free` -/

theorem bufferFree_eq (h : BufferRep s) (hx : x ∈ s.live) :
    s.bufferFree x = { s.setBuf x { s.buf x with bCount := 0 } with
      live := s.live.erase x
      bufferCount := s.bufferCount - 1 } := by
  have hzero : (s.buf x).bCount - 1 = 0 := by
    rw [h.held x hx]
    rfl
  rw [bufferFree]
  simp only [hzero, setBuf_self]
  rfl

theorem bufferFree_dangles (h : BufferRep s) (hx : x ∈ s.live) : ¬ (s.bufferFree x).Coherent := by
  rw [bufferFree_eq h hx]
  intro hc
  have hin : s.InTable x := h.inTable_iff.mpr hx
  exact h.nodup.not_mem_erase (hc.live x hin)

/-! ## Runs -/

theorem callOk_iff {op : BufferOp} (h : BufferRep s) (ha : s.Allowed fuel op) :
    s.CallOk fuel op ↔ op.KeepsBuffers := by
  cases op with
  | get dev block mem =>
    obtain ⟨x, s', hget, h', -⟩ := bufferGet_spec h ha.1 ha.2 dev block
    exact iff_of_true ⟨x, s', hget, h'.coherent, trivial⟩ trivial
  | read dev block mem retval =>
    obtain ⟨⟨x, s'⟩, hr⟩ := isSome_iff_exists.mp ha.2.2
    obtain ⟨h', hans⟩ := bufferRead_spec h ha.1 ha.2.1 hr
    exact iff_of_true ⟨x, s', hr, h'.coherent, hans⟩ trivial
  | free x =>
    apply iff_of_false _ not_false
    rintro ⟨y, s', hcall, hc, -⟩
    cases hcall
    exact bufferFree_dangles h ha.2 hc

theorem after_rep {op : BufferOp} (h : BufferRep s) (ha : s.Allowed fuel op) (hk : op.KeepsBuffers) :
    BufferRep (s.after fuel op) := by
  cases op with
  | get dev block mem =>
    obtain ⟨x, s', hget, h', -⟩ := bufferGet_spec h ha.1 ha.2 dev block
    rw [after, call, hget]
    exact h'
  | read dev block mem retval =>
    obtain ⟨⟨x, s'⟩, hr⟩ := isSome_iff_exists.mp ha.2.2
    rw [after, hr]
    exact (bufferRead_spec h ha.1 ha.2.1 hr).1
  | free x => cases hk

end Buffers

/-- From an empty cache, every call leaves a coherent cache and answers rightly if and only
if no buffer is ever freed. -/
theorem buffer_cache_coherent (fuel : Nat) (ops : List BufferOp)
    (ha : Along (Buffers.after fuel) (Buffers.Allowed fuel) .empty ops) :
    Along (Buffers.after fuel) (Buffers.CallOk fuel) .empty ops ↔ ∀ op ∈ ops, op.KeepsBuffers := by
  rw [along_iff Buffers.BufferRep Buffers.after_rep Buffers.callOk_iff ops Buffers.bufferRep_empty ha, along_forall]

theorem buffer_cache_coherent_twice : Along (Buffers.after 3) (Buffers.Allowed 3) .empty
      [.read 0x301 1 0xC0400000 0, .get 0x301 1025 0xC0400800, .read 0x301 1 0 1] ∧
    Along (Buffers.after 3) (Buffers.CallOk 3) .empty
      [.read 0x301 1 0xC0400000 0, .get 0x301 1025 0xC0400800, .read 0x301 1 0 1] := by
  have ha : Along (Buffers.after 3) (Buffers.Allowed 3) .empty
      [.read 0x301 1 0xC0400000 0, .get 0x301 1025 0xC0400800, .read 0x301 1 0 1] :=
    ⟨⟨by decide, by decide, by decide⟩, ⟨by decide, by decide⟩, ⟨by decide, by decide, by decide⟩, trivial⟩
  refine ⟨ha, (buffer_cache_coherent 3 _ ha).mpr ?_⟩
  simp [BufferOp.KeepsBuffers]

/-- A block is read and its buffer freed; the next read of the block answers the freed buffer. -/
theorem buffer_cache_dangles : Along (Buffers.after 3) (Buffers.Allowed 3) .empty
      [.read 0x301 1 0xC0400000 0, .free 0xC0400000] ∧
    ∃ s, [BufferOp.read 0x301 1 0xC0400000 0, .free 0xC0400000].foldl (Buffers.after 3) .empty = s ∧
      ¬ s.Coherent ∧ s.live = [] ∧ (s.bufferRead 3 0 0 0x301 1).map Prod.fst = some 0xC0400000 := by
  refine ⟨⟨⟨by decide, by decide, by decide⟩, ⟨by decide, by decide⟩, trivial⟩, _, rfl, ?_, by decide, by decide⟩
  intro hc
  have hin := hc.live 0xC0400000 ⟨bufferHash 0x301 1, [0xC0400000], ⟨by decide, by decide, rfl⟩, by simp⟩
  exact absurd hin (by decide)

end MiniOS
