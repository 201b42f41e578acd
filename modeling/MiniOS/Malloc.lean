import MiniOS.MemList
import MiniOS.Tiles
import MiniOS.Word
import Mathlib.Logic.Relation

/-!
# The user heap

`lib/malloc.c` over byte memory. A `struct malloc_chunk` is sixteen bytes: the size, the
flag, and the two words of its list node; the payload follows. The list head `free_list`
is a variable below the heap.
-/

namespace MiniOS

def chunkSize : Nat := 0x400000

def chunkGap : Nat := 0x1000

def chunkFree : Nat := 1

def chunkInuse : Nat := 2

def sizeofChunk : Nat := 16

def listOf (mc : Nat) : Nat := mc + 8

def listEntry (p : Nat) : Nat := p - 8

namespace Mem

variable (m : Mem)

def size (mc : Nat) : Nat := ld32 m mc

def flag (mc : Nat) : Nat := ld32 m (mc + 4)

def setSize (mc v : Nat) : Mem := st32 m mc v

def setFlag (mc v : Nat) : Mem := st32 m (mc + 4) v

def splitMalloc (mc size : Nat) : Mem :=
  if wsub (m.size mc) size < chunkGap then m
  else
    let newmc := wrap (mc + size + sizeofChunk)
    let m := m.setSize newmc (wsub (wsub (m.size mc) size) sizeofChunk)
    let m := m.setFlag newmc chunkFree
    let m := m.initListHead (listOf newmc)
    let m := m.listAdd (listOf newmc) (listOf mc)
    m.setSize mc size

def absorb (a b : Nat) : Mem :=
  (m.setSize a (wrap (m.size a + (m.size b + sizeofChunk)))).listDel (listOf b)

def mergerMalloc (freeList mc : Nat) : Mem :=
  let next := if m.next (listOf mc) = freeList then 0 else listEntry (m.next (listOf mc))
  let prev := if m.prev (listOf mc) = freeList then 0 else listEntry (m.prev (listOf mc))
  let (m, mc) := if prev ≠ 0 ∧ m.flag prev = chunkFree then (m.absorb prev mc, prev) else (m, mc)
  if next ≠ 0 ∧ m.flag next = chunkFree then m.absorb mc next else m

end Mem

structure UserHeap where
  mem : Mem
  freeList : Nat
  startbrk : Nat
  curbrk : Nat

namespace UserHeap

variable (h : UserHeap)

/-- `0`, or the old break and `CHUNK_SIZE` more bytes as far as there are addresses. -/
def sbrk (ok : Bool) : Nat × UserHeap :=
  if ok ∧ h.curbrk + chunkSize < 2 ^ 32 then (h.curbrk, { h with curbrk := h.curbrk + chunkSize }) else (0, h)

-- The search goes backwards from the head. A list has fewer nodes than the heap has bytes.
def findMalloc (size : Nat) : Option Nat :=
  (chainFind h.mem.prev h.freeList
    (fun p => h.mem.flag (listEntry p) = chunkFree ∧ size ≤ h.mem.size (listEntry p))
    (h.curbrk - h.startbrk + 1) (h.mem.prev h.freeList)).map fun p =>
      if p = h.freeList then 0 else listEntry p

/-- `none` is the `NULL` of a failed `sbrk`. -/
def extendMalloc (ok : Bool) : Option UserHeap :=
  let (va, h) := h.sbrk ok
  if va = 0 then none
  else
    let m := h.mem.setSize va (chunkSize - sizeofChunk)
    let m := m.setFlag va chunkFree
    let m := m.initListHead (listOf va)
    let m := m.listAddTail (listOf va) h.freeList
    some { h with mem := m.mergerMalloc h.freeList va }

/-- The loop through `find_mc`; `sbrk` answers `ok` for the number of rounds left. -/
def mallocLoop (ok : Nat → Bool) (size : Nat) : Nat → UserHeap → Option (Nat × UserHeap)
  | 0, _ => none
  | left + 1, h =>
    match h.findMalloc size with
    | none => none
    | some 0 =>
      match h.extendMalloc (ok left) with
      | none => some (0, h)
      | some h => mallocLoop ok size left h
    | some mc =>
      some (mc + sizeofChunk, { h with mem := (h.mem.splitMalloc mc size).setFlag mc chunkInuse })

-- The break cannot move more than `2 ^ 32 / CHUNK_SIZE` times.
def malloc (size : Nat) (ok : Nat → Bool) : Option (Nat × UserHeap) := mallocLoop ok size 1025 h

def free (obj : Nat) : UserHeap :=
  if obj = 0 then h
  else
    let mc := wsub obj sizeofChunk
    { h with mem := (h.mem.setFlag mc chunkFree).mergerMalloc h.freeList mc }

end UserHeap

/-! ## A program's use of the heap -/

inductive HeapOp where
  | malloc (size : Nat) (ok : Nat → Bool)
  | free (obj : Nat)
  | store (addr : Nat) (b : UInt8)

structure UserBlock where
  ptr : Nat
  size : Nat
  deriving DecidableEq

structure HeapState where
  heap : UserHeap
  live : List UserBlock

namespace HeapState

def step (s : HeapState) : HeapOp → Option HeapState
  | .malloc size ok =>
    (s.heap.malloc size ok).map fun r =>
      { heap := r.2, live := if r.1 = 0 then s.live else ⟨r.1, size⟩ :: s.live }
  | .free obj => some { heap := s.heap.free obj, live := s.live.filter fun b => b.ptr ≠ obj }
  | .store addr b => some { s with heap := { s.heap with mem := Function.update s.heap.mem addr b } }

/-- Only live blocks are freed, and a program writes to its live blocks only. -/
def Allowed (s : HeapState) : HeapOp → Prop
  | .malloc size _ => size < 2 ^ 32
  | .free obj => obj = 0 ∨ ∃ b ∈ s.live, b.ptr = obj
  | .store addr _ => ∃ b ∈ s.live, b.ptr ≤ addr ∧ addr < b.ptr + b.size

structure Start (s : HeapState) : Prop where
  live : s.live = []
  next : s.heap.mem.next s.heap.freeList = s.heap.freeList
  prev : s.heap.mem.prev s.heap.freeList = s.heap.freeList
  below : s.heap.freeList + 8 ≤ s.heap.startbrk
  empty : s.heap.curbrk = s.heap.startbrk
  range : s.heap.startbrk < 2 ^ 32

end HeapState

/-! ## The partition -/

structure Chunk where
  addr : Nat
  size : Nat
  flag : Nat
  deriving DecidableEq

structure Listed (m : Mem) (freeList : Nat) (cs : List Chunk) : Prop where
  ring : Ring m.next m.prev freeList (cs.map fun c => listOf c.addr)
  size : ∀ c ∈ cs, m.size c.addr = c.size
  flag : ∀ c ∈ cs, m.flag c.addr = c.flag

def chunkTiles (lo hi : Nat) (cs : List Chunk) : Prop := Tiles Chunk.addr (fun c => sizeofChunk + c.size) lo hi cs

def Coalesced (cs : List Chunk) : Prop := cs.IsChain fun c d => ¬ (c.flag = chunkFree ∧ d.flag = chunkFree)

structure HeapState.Partition (s : HeapState) (cs : List Chunk) : Prop where
  listed : Listed s.heap.mem s.heap.freeList cs
  tiles : chunkTiles s.heap.startbrk s.heap.curbrk cs
  coalesced : Coalesced cs
  inside : ∀ b ∈ s.live, ∃ c ∈ cs, c.flag = chunkInuse ∧ b.ptr = c.addr + sizeofChunk ∧ b.size ≤ c.size
  disjoint : s.live.Pairwise fun b b' => b.ptr + b.size ≤ b'.ptr ∨ b'.ptr + b'.size ≤ b.ptr

end MiniOS
