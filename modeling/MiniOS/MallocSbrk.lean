import MiniOS.Malloc

/-!
# The user heap beside `sbrk`

A program that calls `malloc` and `free` and takes memory from `sbrk` itself as well. The
chunks of `lib/malloc.c` then have gaps between them, and the list still says which chunk
`merger_malloc` takes for the neighbour of which.
-/

namespace MiniOS

namespace UserHeap

variable (h : UserHeap)

def sbrkInc (inc : Nat) (ok : Bool) : Nat × UserHeap :=
  if ok ∧ h.curbrk + inc < 2 ^ 32 then (h.curbrk, { h with curbrk := h.curbrk + inc }) else (0, h)

example (ok : Bool) : h.sbrk ok = h.sbrkInc chunkSize ok := rfl

/-- The neighbours of `mc` in the list that are free are its neighbours in memory. -/
def MergeFits (mc : Nat) : Prop :=
  let prev := h.mem.prev (listOf mc)
  let next := h.mem.next (listOf mc)
  (prev ≠ h.freeList → h.mem.flag (listEntry prev) = chunkFree →
    listEntry prev + (sizeofChunk + h.mem.size (listEntry prev)) = mc) ∧
  (next ≠ h.freeList → h.mem.flag (listEntry next) = chunkFree →
    mc + (sizeofChunk + h.mem.size mc) = listEntry next)

/-- The last chunk of the list is in use or ends at the break. -/
def LastFits : Prop :=
  let last := h.mem.prev h.freeList
  last ≠ h.freeList → h.mem.flag (listEntry last) = chunkFree →
    listEntry last + (sizeofChunk + h.mem.size (listEntry last)) = h.curbrk

end UserHeap

structure SharedHeap extends HeapState where
  direct : List UserBlock

inductive SharedOp where
  | heap (op : HeapOp)
  | sbrk (inc : Nat) (ok : Bool)

def UserBlock.Overlaps (b b' : UserBlock) : Prop :=
  ∃ x, (b.ptr ≤ x ∧ x < b.ptr + b.size) ∧ (b'.ptr ≤ x ∧ x < b'.ptr + b'.size)

namespace SharedHeap

def step (s : SharedHeap) : SharedOp → Option SharedHeap
  | .heap op => (s.toHeapState.step op).map fun t => ⟨t, s.direct⟩
  | .sbrk inc ok =>
    let (p, h) := s.heap.sbrkInc inc ok
    some ⟨⟨h, s.live⟩, if p = 0 then s.direct else ⟨p, inc⟩ :: s.direct⟩

def next (s : SharedHeap) (op : SharedOp) : SharedHeap := (s.step op).getD s

def Allowed (s : SharedHeap) : SharedOp → Prop
  | .heap (.store addr _) => ∃ b ∈ s.live ++ s.direct, b.ptr ≤ addr ∧ addr < b.ptr + b.size
  | .heap op => s.toHeapState.Allowed op
  | .sbrk inc _ => inc < 2 ^ 32

/-- No call merges chunks that do not touch: `free` has free neighbours in the list only
next to the chunk, and a `malloc` that finds no chunk and can extend the heap does so where the last
chunk is in use or ends at the break. -/
def Fits (s : SharedHeap) : SharedOp → Prop
  | .heap (.malloc size ok) => s.heap.findMalloc size = some 0 → (s.heap.extendMalloc (ok 1024)).isSome →
    s.heap.LastFits
  | .heap (.free obj) => obj ≠ 0 → s.heap.MergeFits (wsub obj sizeofChunk)
  | _ => True

structure Apart (s : SharedHeap) : Prop where
  live : s.live.Pairwise fun b b' => ¬ b.Overlaps b'
  direct : ∀ b ∈ s.live, ∀ r ∈ s.direct, ¬ b.Overlaps r

structure Start (s : SharedHeap) : Prop extends s.toHeapState.Start where
  direct : s.direct = []

end SharedHeap

end MiniOS
