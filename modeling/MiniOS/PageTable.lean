import MiniOS.Layout
import MiniOS.Radix
import Mathlib.Logic.Function.Basic

/-!
# Page tables in frames

`page_walk`, `page_insert` and `page_remove` of `mm/page.c` on the entries that
lie in the frames, with the geometries of `pgtable-2level.h` and
`pgtable-3level.h`. A frame is named by its number, an entry by its frame and its
index there. With two levels the middle directory is the entry of the page
directory itself. `none` is a panic; the checks are those of `CONFIG_DEBUG`.
-/

namespace MiniOS

open Function

inductive PageConfig where
  | level2
  | level3
  deriving DecidableEq

namespace PageConfig

def pmdShift : PageConfig → Nat
  | level2 => 22
  | level3 => 21

def pgdirShift : PageConfig → Nat
  | level2 => 22
  | level3 => 30

def ptrsPerPte : PageConfig → Nat
  | level2 => 1024
  | level3 => 512

def ptrsPerPmd : PageConfig → Nat
  | level2 => 1
  | level3 => 512

def ptrsPerPgd : PageConfig → Nat
  | level2 => 1024
  | level3 => 4

def pgdIndex (c : PageConfig) (address : Nat) : Nat := (address >>> c.pgdirShift) &&& (c.ptrsPerPgd - 1)

def pmdIndex (c : PageConfig) (address : Nat) : Nat := (address >>> c.pmdShift) &&& (c.ptrsPerPmd - 1)

def pteIndex (c : PageConfig) (address : Nat) : Nat := (address >>> pageShift) &&& (c.ptrsPerPte - 1)

end PageConfig

def pagePresent : Nat := 0x001

def pageRw : Nat := 0x002

def pageUser : Nat := 0x004

/-- `page_alloc` fails when the next of `answers` is not a free frame. -/
structure PageMem where
  entry : Nat → Nat → Nat
  nref : Nat → Int
  free : List Nat
  maxPfn : Nat
  answers : List Nat

abbrev EntryPtr := Nat × Nat

namespace PageMem

def val (s : PageMem) (x : EntryPtr) : Nat := s.entry x.1 x.2

def write (s : PageMem) (x : EntryPtr) (e : Nat) : PageMem :=
  { s with entry := update s.entry x.1 (update (s.entry x.1) x.2 e) }

def pagesAlloc (s : PageMem) : Option Nat × PageMem :=
  match s.answers with
  | [] => (none, s)
  | p :: rest =>
    if p ∈ s.free then
      (some p, { s with
        free := s.free.erase p
        entry := update s.entry p fun _ => 0
        answers := rest })
    else (none, { s with answers := rest })

def pageFree (s : PageMem) (p : Nat) : PageMem := { s with free := p :: s.free }

def atomicInc (s : PageMem) (p : Nat) : PageMem := { s with nref := update s.nref p (s.nref p + 1) }

def pageDecref (s : PageMem) (p : Nat) : PageMem :=
  let s := { s with nref := update s.nref p (s.nref p - 1) }
  if s.nref p = 0 then s.pageFree p else s

def page2phys (s : PageMem) (p : Nat) : Option Nat := if s.maxPfn ≤ p then none else some (p <<< pageShift)

def pageVaddr (e : Nat) : Option Nat := if normalAddr ≤ roundDown e pageSize then none else some (e >>> pageShift)

def virt2page (s : PageMem) (p : Nat) : Option Nat := if s.maxPfn ≤ p then none else some p

def entrySet (s : PageMem) (x : EntryPtr) (pa perm : Nat) : Option PageMem :=
  if roundDown pa pageSize ≠ pa then none
  else if perm &&& 0xFFF ≠ perm then none
  else some (s.write x (pa ||| perm))

def pgdSet (s : PageMem) (pgd : EntryPtr) (pa perm : Nat) : Option PageMem := s.entrySet pgd pa perm

def pmdSet (s : PageMem) (pmd : EntryPtr) (pa perm : Nat) : Option PageMem := s.entrySet pmd pa perm

def pteSet (s : PageMem) (pte : EntryPtr) (pa perm : Nat) : Option PageMem := s.entrySet pte pa perm

def ptePresent (e : Nat) : Bool := e &&& pagePresent ≠ 0

def pgdOffset (c : PageConfig) (pgd address : Nat) : EntryPtr := (pgd, c.pgdIndex address)

def pmdOffset (c : PageConfig) (s : PageMem) (pgd : EntryPtr) (address : Nat) : Option EntryPtr :=
  match c with
  | .level3 => (pageVaddr (s.val pgd)).map fun p => (p, c.pmdIndex address)
  | .level2 => some pgd

def pteOffset (c : PageConfig) (s : PageMem) (pmd : EntryPtr) (address : Nat) : Option EntryPtr :=
  if address = 0 then none else (pageVaddr (s.val pmd)).map fun p => (p, c.pteIndex address)

def getPmd (c : PageConfig) (s : PageMem) (pgd : EntryPtr) (perm : Nat) : Option (Bool × PageMem) :=
  match s.pagesAlloc with
  | (none, s) => some (false, s)
  | (some p, s) => do
    let s := s.atomicInc p
    let pa ← s.page2phys p
    let pe := match c with
      | .level3 => perm &&& ((2 ^ 32 - 1) ^^^ (pageRw ||| pageUser))
      | .level2 => perm
    let s ← s.pgdSet pgd pa pe
    return (true, s)

def getPte (s : PageMem) (pmd : EntryPtr) (perm : Nat) : Option (Bool × PageMem) :=
  match s.pagesAlloc with
  | (none, s) => some (false, s)
  | (some p, s) => do
    let s := s.atomicInc p
    let pa ← s.page2phys p
    let s ← s.pmdSet pmd pa perm
    return (true, s)

def pageWalk (c : PageConfig) (s : PageMem) (pgdp address : Nat) (create : Bool) :
    Option (Option EntryPtr × PageMem) :=
  let pgd := pgdOffset c pgdp address
  if s.val pgd = 0 ∧ create = false then some (none, s)
  else
    (if s.val pgd = 0 then s.getPmd c pgd (pagePresent ||| pageRw ||| pageUser) else some (true, s)).bind
        fun (ok, s) =>
      if ok = false then some (none, s)
      else (s.pmdOffset c pgd address).bind fun pmd =>
        if s.val pmd = 0 ∧ create = false then some (none, s)
        else
          (if s.val pmd = 0 then s.getPte pmd (pagePresent ||| pageRw ||| pageUser) else some (true, s)).bind
            fun (ok, s) =>
              if ok = false then some (none, s)
              else (s.pteOffset c pmd address).map fun pte => (some pte, s)

def pageLookup (c : PageConfig) (s : PageMem) (pgd va : Nat) : Option (Option (Nat × EntryPtr) × PageMem) :=
  if va = 0 then none
  else
    (s.pageWalk c pgd va false).bind fun (pte, s) =>
      match pte with
      | none => some (none, s)
      | some pte =>
        if ptePresent (s.val pte) then
          ((pageVaddr (s.val pte)).bind s.virt2page).map fun p => (some (p, pte), s)
        else some (none, s)

def pageRemove (c : PageConfig) (s : PageMem) (pgd va : Nat) : Option PageMem :=
  if va = 0 then none
  else
    (s.pageLookup c pgd va).bind fun (r, s) =>
      match r with
      | none => some s
      | some (page, pte) => (s.pageDecref page).pteSet pte 0 0

def pageInsert (c : PageConfig) (s : PageMem) (pgd page va perm : Nat) : Option (Bool × PageMem) :=
  if va = 0 then none
  else
    (s.pageWalk c pgd va true).bind fun (pte, s) =>
      match pte with
      | none => some (false, s)
      | some pte =>
        let s := s.atomicInc page
        (if ptePresent (s.val pte) then s.pageRemove c pgd va else some s).bind fun s =>
          (s.page2phys page).bind fun pa => (s.pteSet pte pa perm).map fun s => (true, s)

end PageMem

/-! ## Translations -/

namespace PageConfig

def path (c : PageConfig) (va : Nat) : List Nat :=
  match c with
  | level2 => [c.pgdIndex va]
  | level3 => [c.pgdIndex va, c.pmdIndex va]

def userPaths (c : PageConfig) : Set (List Nat) := { p | ∃ va < kernelBaseAddr, p <+: c.path va }

end PageConfig

namespace PageMem

def child (s : PageMem) (f k : Nat) : Option Nat :=
  if s.entry f k = 0 then none else some (s.entry f k >>> pageShift)

def pteAt (c : PageConfig) (s : PageMem) (pgd va : Nat) : Nat :=
  match follow s.child pgd (c.path va) with
  | none => 0
  | some f => s.entry f (c.pteIndex va)

/-- Frame and permissions of `va`; `va` is mapped when they have `_PAGE_PRESENT`. -/
def translate (c : PageConfig) (s : PageMem) (pgd va : Nat) : Nat × Nat :=
  (s.pteAt c pgd va >>> pageShift, s.pteAt c pgd va &&& 0xFFF)

def Mapped (c : PageConfig) (s : PageMem) (pgd va : Nat) : Prop := ptePresent (s.translate c pgd va).2

end PageMem

end MiniOS
