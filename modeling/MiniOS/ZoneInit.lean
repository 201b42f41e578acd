import Mathlib.Logic.Relation
import MiniOS.Bootmm

/-!
# The two zones

`zone_init` of `zone.c`, and `pages_alloc` and `pages_free` of `page.c` over the zones it
makes. A page is named by its frame number, its index in `mempage`. A freed page goes to a
zone by its physical address.
-/

namespace MiniOS

inductive ZoneName where
  | normal
  | high
  deriving DecidableEq

structure Zones where
  normal : Zone
  high : Zone
  maxPfn : Nat

namespace Zones

def zone (s : Zones) : ZoneName → Zone
  | .normal => s.normal
  | .high => s.high

def setZone (s : Zones) : ZoneName → Zone → Zones
  | .normal, z => { s with normal := z }
  | .high, z => { s with high := z }

end Zones

/-- The zones before `free_area_init`. The source leaves an empty `zone_high` without a `mempage`. -/
def freshZones (map : List Mmap) (mempage : Nat → Page) (links : ZoneName → Links ZNode) : Zones where
  normal :=
    { freePages := 0, size := getNormalMaxpfn map, pfn := 0, mempage := mempage, links := links .normal,
      nfree := fun _ => 0 }
  high :=
    { freePages := 0, size := wsub (getMaxPfn map) (getNormalMaxpfn map), pfn := getNormalMaxpfn map,
      mempage := fun i => mempage (getNormalMaxpfn map + i), links := links .high, nfree := fun _ => 0 }
  maxPfn := getMaxPfn map

def zoneInit (map : List Mmap) (mempage : Nat → Page) (links : ZoneName → Links ZNode) : Option Zones :=
  let s := freshZones map mempage links
  s.normal.freeAreaInit.bind fun normal =>
    s.high.freeAreaInit.map fun high => { s with normal := normal, high := high }

structure Gfp where
  high : Bool
  zero : Bool

def Gfp.zone (flage : Gfp) : ZoneName := if flage.high then .high else .normal

namespace Zones

def page2phys (s : Zones) (page : Nat) : Option Nat := if s.maxPfn ≤ page then none else some (page * pageSize)

def page2virt (s : Zones) (page : Nat) : Option Nat :=
  (s.page2phys page).bind fun phys => if normalAddr ≤ phys then none else some (phys + kernelBaseAddr)

def pagesAlloc (s : Zones) (flage : Gfp) (order : Nat) : Option (Option Nat × Zones) :=
  if flage.zero ∧ flage.high then some (none, s)
  else
    ((s.zone flage.zone).allocBuddy order).bind fun (page, z) =>
      match page with
      | none => some (none, s.setZone flage.zone z)
      | some i =>
        let page := (s.zone flage.zone).pfn + i
        if flage.zero then (s.page2virt page).map fun _ => (some page, s.setZone flage.zone z)
        else some (some page, s.setZone flage.zone z)

def freeIn (s : Zones) (n : ZoneName) (page order : Nat) : Option Zones :=
  ((s.zone n).freeBuddy (wsub page (s.zone n).pfn) order).map (s.setZone n)

def pagesFree (s : Zones) (page order : Nat) : Option Zones :=
  (s.page2phys page).bind fun phys =>
    if phys < normalAddr then s.freeIn .normal page order else s.freeIn .high page order

end Zones

inductive ZonesStep : Zones × Set (ZoneName × Block) → Zones × Set (ZoneName × Block) → Prop
  | alloc {s s' : Zones} {H : Set (ZoneName × Block)} {flage : Gfp} {order i : Nat} : order < maxOrder →
      s.pagesAlloc flage order = some (some ((s.zone flage.zone).pfn + i), s') →
      ZonesStep (s, H) (s', insert (flage.zone, (i, order)) H)
  | allocNone {s s' : Zones} {H : Set (ZoneName × Block)} {flage : Gfp} {order : Nat} : order < maxOrder →
      s.pagesAlloc flage order = some (none, s') → ZonesStep (s, H) (s', H)
  | free {s s' : Zones} {H : Set (ZoneName × Block)} {n : ZoneName} {i order : Nat} : (n, (i, order)) ∈ H →
      (∀ p, i ≤ p → p < i + 2 ^ order → ((s.zone n).mempage p).nref = 0) →
      s.pagesFree ((s.zone n).pfn + i) order = some s' → ZonesStep (s, H) (s', H \ {(n, (i, order))})
  | ref {s : Zones} {H : Set (ZoneName × Block)} {n : ZoneName} {i order p : Nat} (c : Int) : (n, (i, order)) ∈ H →
      i ≤ p → p < i + 2 ^ order →
      ZonesStep (s, H) (s.setZone n { s.zone n with
        mempage := Function.update (s.zone n).mempage p { (s.zone n).mempage p with nref := c } }, H)

def Zones.initFrames (s : Zones) (n : ZoneName) : Set Nat :=
  {p | ∃ m ≤ (s.zone n).size, ∃ z, (List.range m).foldlM Zone.freePage (s.zone n).initFreeLists = some z ∧
    ∃ i ∈ pagesOf z.freeBlocks, p = (s.zone n).pfn + i}

def Zones.AllocAligned (s : Zones) : Prop :=
  ∀ n k i z, k < maxOrder → (s.zone n).allocBuddy k = some (some i, z) → 2 ^ k ∣ (s.zone n).pfn + i

/-- An aligned run of `2 ^ k` free pages in `zone_high`, with indices from its first page on,
is there only if the zone starts at a multiple of `2 ^ k`. -/
def HighRunsAligned (map : List Mmap) (mempage : Nat → Page) : Prop :=
  ∀ k < maxOrder, ∀ j, 2 ^ k ∣ j →
    (∀ p, j ≤ p → p < j + 2 ^ k → getNormalMaxpfn map + p < getMaxPfn map ∧
      (mempage (getNormalMaxpfn map + p)).flags &&& pgFree ≠ 0) → 2 ^ k ∣ getNormalMaxpfn map

end MiniOS
