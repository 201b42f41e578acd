import MiniOS.Layout
import MiniOS.Zone

/-!
# The memory map at boot

`kernel/mm/bootmm.c`: the frame numbers that the firmware's memory map gives, the boot
allocator, and the marks of `mempage_init`. Virtual addresses from `KERNEL_BASE_ADDR` on
are physical addresses moved up by it.
-/

namespace MiniOS

/-- An entry of `mmapinfo`; regions of type 1 are usable. -/
structure Mmap where
  addr : Nat
  len : Nat
  type : Nat
  deriving DecidableEq

namespace Mmap

def stop (r : Mmap) : Nat := (r.addr + r.len) % 2 ^ 64

end Mmap

def physToPfn (address : Nat) : Nat := wrap (address / pageSize)

def virtToPhys (address : Nat) : Option Nat :=
  if address < kernelBaseAddr then none else some (address - kernelBaseAddr)

def maxLast (map : List Mmap) : Nat :=
  map.foldl (fun last r => if r.type = 1 ∧ last < r.stop then r.stop else last) 0

def getMaxPfn (map : List Mmap) : Nat := physToPfn (maxLast map)

def normalLast : (last : Nat) → List Mmap → Nat
  | last, [] => last
  | last, r :: map =>
    if r.type = 1 then
      if normalAddr ≤ r.addr then normalLast last map
      else if r.stop < normalAddr then normalLast (if last < r.stop then r.stop else last) map
      else normalAddr
    else normalLast last map

def getNormalMaxpfn (map : List Mmap) : Nat := physToPfn (normalLast 0 map)

structure Boot where
  base : Nat
  given : List (Nat × Nat)

namespace Boot

def start : Boot := ⟨0, []⟩

def allocBootmmPages (bssEnd normalMaxpfn : Nat) (s : Boot) (size : Nat) : Option (Nat × Boot) :=
  let tmp := if s.base = 0 then roundDown (wrap (bssEnd + 0xFFF)) pageSize else s.base
  if size = 0 ∨ wrap (normalMaxpfn * pageSize + kernelBaseAddr) ≤ tmp then none
  else some (tmp, ⟨wrap (tmp + size * pageSize), (tmp, size * pageSize) :: s.given⟩)

def frame (s : Boot) : Nat := physToPfn (s.base - kernelBaseAddr)

end Boot

def sizeofPage : Nat := 36

def mempagePages (map : List Mmap) : Nat := wrap (getMaxPfn map * sizeofPage) / pageSize + 1

/-- The calls of the boot allocator in `bootmm_init`: the page directory, the page tables of
the kernel's mappings, and the `mempage` array. -/
def bootAllocs (map : List Mmap) (bssEnd tables : Nat) : Option Boot :=
  (List.replicate (1 + tables) 1 ++ [mempagePages map]).foldlM
    (fun s size => (s.allocBootmmPages bssEnd (getNormalMaxpfn map) size).map Prod.snd) Boot.start

def isPageAval (map : List Mmap) (s : Boot) (pfn : Nat) : Option Bool :=
  (virtToPhys s.base).map fun phys =>
    if pfn ≤ physToPfn phys then false
    else if getMaxPfn map ≤ pfn then false
    else map.any fun r => r.type = 1 ∧ physToPfn r.addr ≤ pfn ∧ pfn < physToPfn r.stop

def mempageInit (map : List Mmap) (s : Boot) (mempage : Nat → Page) : Option (Nat → Page) :=
  (List.range (getMaxPfn map)).foldlM
    (fun mempage i => (isPageAval map s i).map fun aval =>
      Function.update mempage i ⟨0, if aval then pgFree else pgReserved, -1⟩) mempage

def bootmmInit (map : List Mmap) (bssEnd tables : Nat) (mempage : Nat → Page) : Option (Boot × (Nat → Page)) :=
  (bootAllocs map bssEnd tables).bind fun s => (mempageInit map s mempage).map fun mempage => (s, mempage)

/-- The region ends within what page tables with 36-bit addresses reach. -/
def PaeLimit (map : List Mmap) : Prop := ∀ r ∈ map, r.addr + r.len ≤ 2 ^ 36

instance (map : List Mmap) : Decidable (PaeLimit map) :=
  inferInstanceAs (Decidable (∀ r ∈ map, r.addr + r.len ≤ 2 ^ 36))

def WholeIn (map : List Mmap) (p : Nat) : Prop :=
  ∃ r ∈ map, r.type = 1 ∧ r.addr ≤ p * pageSize ∧ (p + 1) * pageSize ≤ r.addr + r.len

instance (map : List Mmap) (p : Nat) : Decidable (WholeIn map p) :=
  inferInstanceAs (Decidable (∃ r ∈ map, r.type = 1 ∧ r.addr ≤ p * pageSize ∧ (p + 1) * pageSize ≤ r.addr + r.len))

def AboveGiven (s : Boot) (p : Nat) : Prop := ∀ g ∈ s.given, g.1 + g.2 ≤ kernelBaseAddr + p * pageSize

/-- Exactly the whole frames above the boot allocator are marked free. -/
structure FramesRight (map : List Mmap) (s : Boot) (mempage : Nat → Page) : Prop where
  free : ∀ p < getMaxPfn map, (mempage p).flags &&& pgFree ≠ 0 → WholeIn map p ∧ AboveGiven s p
  marked : ∀ p < getMaxPfn map, WholeIn map p → s.frame < p → (mempage p).flags &&& pgFree ≠ 0

/-- Where a usable region starts inside a frame above the boot allocator and goes on past
it, that frame lies wholly in another one. -/
def StartsCovered (map : List Mmap) (s : Boot) : Prop :=
  ∀ r ∈ map, r.type = 1 → ¬ pageSize ∣ r.addr → s.frame < r.addr / pageSize →
    r.addr / pageSize < (r.addr + r.len) / pageSize → WholeIn map (r.addr / pageSize)

end MiniOS
