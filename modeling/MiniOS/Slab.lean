import Mathlib.Data.Fin.VecNotation
import MiniOS.ListHead
import MiniOS.ByteMem
import MiniOS.Layout

/-!
# The slab allocator

`kernel/mm/slab.c`. Pages are named by frame number, the objects of a slab by
their address; a free object holds the address of the next one at
`obj[offset]`. Every call runs under `slablock`, so a page's own lock is always
free when it is tried. A call that trips an assertion or a panic has no result.

`slabAllocLoop` is the body of `_slab_alloc` with its labels: a round starts at
`load_slab` when the CPU has an active page and at `new_slab` when it has none.
The answer of `pages_alloc` is a parameter; `log` keeps the calls made to the
page allocator, newest first.
-/

namespace MiniOS

open Function

def slabOrder : Nat := 10

def slabBytes : Nat := pageSize <<< slabOrder

abbrev Cache := Fin 12

abbrev Cpu := Fin 256

def cacheSize : Cache → Nat := ![8, 16, 32, 64, 96, 128, 192, 256, 512, 1024, 2048, 4096]

def sizeMapFill (map : Nat → Cache) (j : Cache) : (n : Nat) → Nat → Cache
  | 0 => update map 0 j
  | n + 1 => sizeMapFill (update map (n + 1) j) j n

def sizeMapInit (map : Nat → Cache) : Nat → Cache :=
  update ((List.finRange 12).reverse.foldl (fun m j => sizeMapFill m j (cacheSize j)) map) 0 0

def sizeMap : Nat → Cache := sizeMapInit fun _ => 0

namespace Cache

def offset (c : Cache) : Nat := roundUp (cacheSize c) 4 / 4

def size (c : Cache) : Nat := roundUp (cacheSize c) 4 + 4

def objsize (c : Cache) : Nat := cacheSize c

def objects (c : Cache) : Nat := slabBytes / size c

end Cache

structure SlabPage where
  pgSlab : Bool
  pgActive : Bool
  slab : Cache
  freelist : Nat
  inuse : Int
  deriving Inhabited

structure CpuSlab where
  freelist : Nat
  page : Option Nat

inductive SNode where
  | node (c : Cache)
  | page (p : Nat)
  deriving DecidableEq

inductive PagesCall where
  | alloc (p order : Nat)
  | free (p order : Nat)

def outstanding : List PagesCall → List Nat
  | [] => []
  | .alloc p _ :: log => p :: outstanding log
  | .free p _ :: log => (outstanding log).erase p

structure SlabState where
  mem : Mem
  maxPfn : Nat
  page : Nat → SlabPage
  cpu : Cache → Cpu → CpuSlab
  links : Links SNode
  npartial : Cache → Int
  nslub : Cache → Int
  log : List PagesCall

def pageVirt (p : Nat) : Nat := kernelBaseAddr + p * pageSize

def slabPfn (obj : Nat) : Nat := (roundDown obj slabBytes - kernelBaseAddr) / pageSize

def linkAddr (c : Cache) (obj : Nat) : Nat := obj + 4 * c.offset

def linkObjects (c : Cache) : (left : Nat) → Mem → (start object : Nat) → Mem × Nat
  | 0, m, _, object => (m, object)
  | left + 1, m, start, _ =>
    linkObjects c left (st32 m (linkAddr c start) (start + c.size)) (start + c.size) start

namespace SlabState

def setPage (s : SlabState) (p : Nat) (r : SlabPage) : SlabState :=
  { s with page := update s.page p r }

def setCpu (s : SlabState) (c : Cache) (k : Cpu) (r : CpuSlab) : SlabState :=
  { s with cpu := update s.cpu c (update (s.cpu c) k r) }

def page2virt (s : SlabState) (p : Nat) : Option Nat :=
  if s.maxPfn ≤ p then none else if normalAddr ≤ p * pageSize then none else some (pageVirt p)

def getSlab (s : SlabState) (obj : Nat) : Option Nat :=
  if roundDown obj slabBytes < kernelBaseAddr then none
  else if s.maxPfn ≤ slabPfn obj then none
  else some (slabPfn obj)

def newSlabInit (s : SlabState) (c : Cache) (p : Nat) : Option SlabState :=
  (s.page2virt p).map fun start =>
    let (m, object) := linkObjects c c.objects s.mem start 0
    { s.setPage p { s.page p with pgSlab := true, freelist := start, inuse := 0, slab := c } with
      mem := st32 m (linkAddr c object) 0 }

def pagesAlloc (s : SlabState) (blk : Option Nat) : Option SlabState :=
  match blk with
  | none => some s
  | some p => (s.page2virt p).map fun v =>
    { s with
      mem := fun x => if v ≤ x ∧ x < v + slabBytes then 0 else s.mem x
      log := .alloc p slabOrder :: s.log }

def newSlab (s : SlabState) (c : Cache) (blk : Option Nat) : Option (Option Nat × SlabState) := do
  let s ← s.pagesAlloc blk
  match blk with
  | none => return (none, s)
  | some p =>
    let s ← s.newSlabInit c p
    return (some p, { s with nslub := update s.nslub c (s.nslub c + 1) })

def addPartial (s : SlabState) (c : Cache) (p : Nat) : SlabState :=
  { s with
    npartial := update s.npartial c (s.npartial c + 1)
    links := s.links.listAdd (.page p) (.node c) }

def removePartial (s : SlabState) (c : Cache) (p : Nat) : SlabState :=
  { s with
    npartial := update s.npartial c (s.npartial c - 1)
    links := s.links.listDel (.page p) }

def lockAndFreezeSlab (s : SlabState) (c : Cache) (p : Nat) : SlabState :=
  (s.removePartial c p).setPage p { s.page p with pgActive := true }

def getPartialSlab (s : SlabState) (c : Cache) : Option (Option Nat × SlabState) :=
  if s.npartial c = 0 then some (none, s)
  else match s.links.next (.node c) with
    | .page p => some (some p, s.lockAndFreezeSlab c p)
    | .node c' => if c' = c then some (none, s) else none

def discardSlab (s : SlabState) (c : Cache) (p : Nat) : SlabState :=
  { s with nslub := update s.nslub c (s.nslub c - 1), log := .free p slabOrder :: s.log }

def unfreezeSlab (s : SlabState) (c : Cache) (p : Nat) : Option SlabState :=
  let s := s.setPage p { s.page p with pgActive := false }
  if (s.page p).inuse ≠ 0 then
    some (if (s.page p).freelist ≠ 0 then s.addPartial c p else s)
  else none

/-- The loop over the CPU's free objects ends its first round in `assert(0)`. -/
def deactivateSlab (s : SlabState) (c : Cache) (k : Cpu) (p : Nat) : Option SlabState :=
  if (s.cpu c k).freelist ≠ 0 then none
  else (s.setCpu c k { s.cpu c k with page := none }).unfreezeSlab c p

def loadSlab (s : SlabState) (c : Cache) (k : Cpu) (p : Nat) : SlabState :=
  (s.setCpu c k { s.cpu c k with freelist := ld32 s.mem (linkAddr c (s.page p).freelist) }).setPage p
    { s.page p with freelist := 0, inuse := c.objects }

def slabAllocLoop (c : Cache) (k : Cpu) (blk : Option Nat) : (fuel : Nat) → SlabState → Option (Nat × SlabState)
  | 0, _ => none
  | fuel + 1, s =>
    match (s.cpu c k).page with
    | some p =>
      if (s.page p).freelist ≠ 0 then some ((s.page p).freelist, s.loadSlab c k p)
      else do
        let s ← s.deactivateSlab c k p
        slabAllocLoop c k blk fuel s
    | none => do
      match ← s.getPartialSlab c with
      | (some p, s) => slabAllocLoop c k blk fuel (s.setCpu c k { s.cpu c k with page := some p })
      | (none, s) =>
        match ← s.newSlab c blk with
        | (some p, s) =>
          let s := s.setCpu c k { s.cpu c k with page := some p }
          slabAllocLoop c k blk fuel (s.setPage p { s.page p with pgActive := true })
        | (none, s) => return (0, s)

/-- Three rounds are enough: an exhausted page, a new one, and its first object. -/
def slabAlloc (s : SlabState) (c : Cache) (k : Cpu) (blk : Option Nat) : Option (Nat × SlabState) :=
  if (s.cpu c k).freelist = 0 then slabAllocLoop c k blk 3 s
  else
    let object := (s.cpu c k).freelist
    some (object, s.setCpu c k { s.cpu c k with freelist := ld32 s.mem (linkAddr c object) })

def slabFreeSlow (s : SlabState) (c : Cache) (p obj : Nat) : Option SlabState :=
  let prior := (s.page p).freelist
  let s := { s with mem := st32 s.mem (linkAddr c obj) prior }
  let s := s.setPage p { s.page p with freelist := obj, inuse := (s.page p).inuse - 1 }
  if (s.page p).pgActive then some s
  else if (s.page p).inuse = 0 then
    some ((if prior ≠ 0 then s.removePartial c p else s).discardSlab c p)
  else if prior = 0 then
    if (s.page p).inuse = c.objects - 1 then some (s.addPartial c p) else none
  else some s

def slabFree (s : SlabState) (c : Cache) (k : Cpu) (p obj : Nat) : Option SlabState :=
  if ¬ (s.page p).pgSlab then some s
  else if (s.cpu c k).page = some p then
    some ({ s with mem := st32 s.mem (linkAddr c obj) (s.cpu c k).freelist }.setCpu c k
      { s.cpu c k with freelist := obj })
  else s.slabFreeSlow c p obj

def kmalloc (s : SlabState) (k : Cpu) (n : Nat) (blk : Option Nat) : Option (Nat × SlabState) :=
  if n = 0 then some (0, s)
  else if pageSize < n then some (0, s)
  else s.slabAlloc (sizeMap n) k blk

def kfree (s : SlabState) (k : Cpu) (obj : Nat) : Option SlabState :=
  if obj = 0 then some s
  else (s.getSlab obj).bind fun p => s.slabFree (s.page p).slab k p obj

def kmemCacheInit (s : SlabState) : SlabState :=
  { s with
    cpu := fun _ _ => ⟨0, none⟩
    links := (List.finRange 12).foldl (fun L c => L.initListHead (.node c)) s.links
    npartial := fun _ => 0
    nslub := fun _ => 0
    log := [] }

end SlabState

/-! ## Runs -/

/-- What is assumed of `pages_alloc`: blocks are aligned to their size and apart
from every block it has outstanding. -/
def BlockOk (s : SlabState) (blk : Option Nat) : Prop :=
  ∀ p ∈ blk, 2 ^ slabOrder ∣ p ∧ ∀ q ∈ outstanding s.log, p + 2 ^ slabOrder ≤ q ∨ q + 2 ^ slabOrder ≤ p

/-- The state with the objects handed out and the sizes they were asked for.
The rest of the kernel writes to memory that is in no slab and to the objects it
was given, and uses the pages that head no slab. -/
inductive SlabStep : SlabState × List (Nat × Nat) → SlabState × List (Nat × Nat) → Prop
  | kmalloc {s s' : SlabState} {out : List (Nat × Nat)} {k : Cpu} {n o : Nat} {blk : Option Nat} :
      1 ≤ n → n ≤ pageSize → BlockOk s blk → s.kmalloc k n blk = some (o, s') → o ≠ 0 →
      SlabStep (s, out) (s', (o, n) :: out)
  | kmallocNull {s s' : SlabState} {out : List (Nat × Nat)} {k : Cpu} {n : Nat} {blk : Option Nat} :
      1 ≤ n → n ≤ pageSize → BlockOk s blk → s.kmalloc k n blk = some (0, s') → SlabStep (s, out) (s', out)
  | kfree {s s' : SlabState} {l₁ l₂ : List (Nat × Nat)} {k : Cpu} {o n : Nat} :
      s.kfree k o = some s' → SlabStep (s, l₁ ++ (o, n) :: l₂) (s', l₁ ++ l₂)
  | write {s : SlabState} {out : List (Nat × Nat)} {a : Nat} (b : UInt8) :
      ((∀ p ∈ outstanding s.log, a < pageVirt p ∨ pageVirt p + slabBytes ≤ a) ∨
        ∃ o ∈ out, o.1 ≤ a ∧ a < o.1 + (s.page (slabPfn o.1)).slab.objsize) →
      SlabStep (s, out) ({ s with mem := update s.mem a b }, out)
  | page {s : SlabState} {out : List (Nat × Nat)} {p : Nat} (r : SlabPage) :
      p ∉ outstanding s.log → SlabStep (s, out) (s.setPage p r, out)

end MiniOS
