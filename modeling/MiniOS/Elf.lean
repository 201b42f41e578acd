import MiniOS.ByteMem
import MiniOS.Process

/-!
# Loading a program file

`load_icode` of `task.c` on the bytes of a file, with the header layouts of `sys/elf.h`. The log
holds every access to memory it makes: reads through the pointer to the file, and stores through
`p_va`, which go to the new address space. Pointers wrap. A field that a round reads again is
noted once, and the zeroing of new pages is left out.
-/

namespace MiniOS

def elfMagic : Nat := 0x464C457F

def elfProgLoad : Nat := 1

deriving instance DecidableEq for Segment

/-- `segment` is a load segment that `create_vma` and `region_alloc` have taken, with its `p_offset`. -/
inductive LoadEvent where
  | read (addr len : Nat)
  | segment (offset : Nat) (g : Segment)
  | store (g : Segment) (addr len : Nat)
deriving DecidableEq

inductive LoadEnd where
  | done
  | error (e : Int)
  | panic
deriving DecidableEq

namespace Mem

def ld16 (m : Mem) (a : Nat) : Nat := (m a).toNat + 256 * (m (a + 1)).toNat

/-- The program header at `ph`, without its `p_offset`. -/
def segment (m : Mem) (ph : Nat) : Segment where
  va := ld32 m (ph + 8)
  memsz := ld32 m (ph + 20)
  filesz := ld32 m (ph + 16)
  code := (ld32 m (ph + 24)).testBit 0 && !(ld32 m (ph + 24)).testBit 1

/-- The headers `for (ph; ph < eph; ph++)` runs through. -/
def phdrs (m : Mem) (binary : Nat) : List Nat :=
  let ph := wrap (binary + ld32 m (binary + 28))
  let eph := wrap (ph + 32 * m.ld16 (binary + 44))
  (List.range ((eph - ph + 31) / 32)).map fun i => ph + 32 * i

/-- `memcpy`, which is `memmove`. -/
def copy (m : Mem) (dst src n : Nat) : Mem := fun x => if wsub x dst < n then m (wrap (src + wsub x dst)) else m x

def clear (m : Mem) (dst n : Nat) : Mem := fun x => if wsub x dst < n then 0 else m x

end Mem

structure Loader where
  paging : Paging
  mem : Mem
  endCode : Nat
  endData : Nat
  log : List LoadEvent

namespace Loader

variable (s : Loader) (t binary : Nat)

def note (l : List LoadEvent) : Loader := { s with log := s.log ++ l }

/-- The bytes of a segment. `memcpy` has run when the sizes are compared, and the header is read again. -/
def copySegment (ph offset : Nat) (g : Segment) : Option LoadEnd × Loader :=
  let src := wrap (binary + offset)
  let s := { s with mem := s.mem.copy g.va src g.filesz }.note
    [.segment offset g, .read src g.filesz, .store g g.va g.filesz]
  let filesz := ld32 s.mem (ph + 16)
  let memsz := ld32 s.mem (ph + 20)
  if memsz < filesz then (some (.error enoexec), s)
  else
    let dst := wrap (ld32 s.mem (ph + 8) + filesz)
    (none, { s with mem := s.mem.clear dst (memsz - filesz) }.note [.store g dst (memsz - filesz)])

def setEnd (g : Segment) : Loader :=
  if g.code then { s with endCode := wrap (g.va + g.memsz) } else { s with endData := wrap (g.va + g.memsz) }

/-- A load segment; `region_alloc` asserts that it is not empty. -/
def loadSegment (ph : Nat) : Option LoadEnd × Loader :=
  let x := s.mem.segment ph
  let s := (s.setEnd x).note [.read (ph + 24) 4, .read (ph + 8) 4, .read (ph + 20) 4]
  match s.paging.createVma t x.va x.memsz with
  | (false, g) => (some (.error enomem), { s with paging := g })
  | (true, g) =>
    if x.memsz = 0 then (some .panic, { s with paging := g })
    else
      match g.regionAlloc t (Area.addrs ⟨roundDown x.va pageSize, roundUp (wrap (x.va + x.memsz)) pageSize⟩) with
      | none => (some .panic, { s with paging := g })
      | some (false, g) => (some (.error enomem), { s with paging := g })
      | some (true, g) =>
        ({ s with paging := g }.note [.read (ph + 4) 4, .read (ph + 16) 4]).copySegment binary ph
          (ld32 s.mem (ph + 4)) x

def loadPhdrs : Loader → List Nat → Option LoadEnd × Loader
  | s, [] => (none, s)
  | s, ph :: l =>
    let s := s.note [.read ph 4]
    if ld32 s.mem ph = elfProgLoad then
      match s.loadSegment t binary ph with
      | (none, s) => s.loadPhdrs l
      | r => r
    else s.loadPhdrs l

def finish : LoadEnd × Loader :=
  match s.paging.createVma t userStackBott (userStackTop - userStackBott) with
  | (false, g) => (.panic, { s with paging := g })
  | (true, g) =>
    let brk := roundUp (if s.endData ≠ 0 then s.endData else s.endCode) pageSize
    match (g.setMm t { g.mm t with startBrk := brk }).createVma t brk pageSize with
    | (false, g) => (.panic, { s with paging := g })
    | (true, g) => (.done, { s with paging := g }.note [.read (binary + 24) 4])

def loadIcode : LoadEnd × Loader :=
  let magic := ld32 s.mem binary
  let s := s.note [.read binary 4]
  if magic ≠ elfMagic then (.error enoexec, s)
  else
    match (s.note [.read (binary + 28) 4, .read (binary + 44) 2]).loadPhdrs t binary (s.mem.phdrs binary) with
    | (some r, s) => (r, s)
    | (none, s) => s.finish t binary

end Loader

/-! ## Accesses inside the file and the segments -/

/-- A read of the file's bytes, or a store to a byte of its segment below the kernel. -/
def LoadEvent.Inside (binary size : Nat) : LoadEvent → Prop
  | .read addr len => ∀ k < len, binary ≤ wrap (addr + k) ∧ wrap (addr + k) < binary + size
  | .store g addr len =>
    ∀ k < len, g.va ≤ wrap (addr + k) ∧ wrap (addr + k) < g.va + g.memsz ∧ wrap (addr + k) < kernelBaseAddr
  | _ => True

structure Loader.Confined (binary size : Nat) (log : List LoadEvent) : Prop where
  inside : ∀ e ∈ log, e.Inside binary size
  accepted : ∀ g addr len, .store g addr len ∈ log → ∃ offset, .segment offset g ∈ log

def Segment.Sane (g : Segment) (offset size : Nat) : Prop :=
  (g.filesz = 0 ∨ offset + g.filesz ≤ size) ∧ g.filesz ≤ g.memsz ∧ g.va + g.memsz ≤ kernelBaseAddr

/-- What the headers of the file would have to be checked for, as long as `create_vma` and `region_alloc`
take the segments: the first header they refuse is the last one. -/
def HeadersSane (m : Mem) (binary size t : Nat) : Paging → List Nat → Prop
  | _, [] => True
  | g, ph :: l =>
    binary ≤ ph ∧
      if ld32 m ph = elfProgLoad then
        ph + 28 ≤ binary + size ∧
          match g.loadSegment t (m.segment ph).va (m.segment ph).memsz with
          | some (true, g) =>
            (m.segment ph).memsz ≠ 0 →
              (m.segment ph).Sane (ld32 m (ph + 4)) size ∧ HeadersSane m binary size t g l
          | _ => True
      else ph + 4 ≤ binary + size ∧ HeadersSane m binary size t g l

end MiniOS
