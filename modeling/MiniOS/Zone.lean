import MiniOS.ListHead
import MiniOS.Blocks
import MiniOS.Word

/-!
# The buddy allocator

`kernel/mm/zone.c`. Pages are named by their index in `zone_mempage`; the list
nodes of a zone are the heads of `free_area[k].free_list` and the `list` fields
of its pages. A call that trips an assertion (the build sets `CONFIG_DEBUG`) or
reads a list node that is not where the code takes it to be has no result.

`allocBuddyAux` is `__alloc_buddy`; `allocBuddy` and `freeBuddy` are
`_alloc_buddy` and `_free_buddy`, which `alloc_buddy` and `free_buddy` call under
the zone's lock.
-/

namespace MiniOS

def maxOrder : Nat := 11

def pgFree : Nat := 1

def pgReserved : Nat := 2

structure Page where
  nref : Int
  flags : Nat
  order : Int

inductive ZNode where
  | head (k : Nat)
  | page (i : Nat)
  deriving DecidableEq

/-- `pfn` is the frame number of `zone_mempage[0]`, which `page2pfn` adds. -/
structure Zone where
  freePages : Nat
  size : Nat
  pfn : Nat
  mempage : Nat → Page
  links : Links ZNode
  nfree : Nat → Nat

def pageIsBuddy (page : Page) (order : Nat) : Bool :=
  page.order = order && page.nref = 0 && page.flags &&& pgReserved = 0

namespace Zone

def setOrder (z : Zone) (i : Nat) (order : Int) : Zone :=
  { z with mempage := Function.update z.mempage i { z.mempage i with order := order } }

def link (z : Zone) (i k : Nat) : Zone :=
  { z.setOrder i k with
    links := z.links.listAdd (.page i) (.head k)
    nfree := Function.update z.nfree k (wrap (z.nfree k + 1)) }

def unlink (z : Zone) (i k : Nat) : Zone :=
  { z.setOrder i (-1) with
    links := z.links.listDel (.page i)
    nfree := Function.update z.nfree k (wsub (z.nfree k) 1) }

def allocBuddyAux (low page : Nat) : (high : Nat) → Zone → Zone
  | 0, z => z
  | high + 1, z =>
    if low < high + 1 then allocBuddyAux low page high (z.link (page + 2 ^ high) high) else z

def allocBuddyFrom (z : Zone) (order : Nat) : (left : Nat) → Option (Option Nat × Zone)
  | 0 => some (none, z)
  | left + 1 =>
    let curorder := maxOrder - (left + 1)
    if z.links.listEmpty (.head curorder) then z.allocBuddyFrom order left
    else match z.links.next (.head curorder) with
      | .head _ => none
      | .page i =>
        let z' := z.unlink i curorder
        some (some i, allocBuddyAux order i curorder { z' with freePages := wsub z.freePages (2 ^ order) })

def allocBuddy (z : Zone) (order : Nat) : Option (Option Nat × Zone) :=
  if maxOrder ≤ order then none
  else if z.size = 0 then some (none, z)
  else z.allocBuddyFrom order (maxOrder - order)

def mergeBuddy : (left : Nat) → Zone → (index order : Nat) → Option (Zone × Nat × Nat)
  | 0, z, index, order => some (z, index, order)
  | left + 1, z, index, order =>
    let buddy := index ^^^ 2 ^ order
    if z.size ≤ buddy then some (z, index, order)
    else if (z.pfn + buddy) % 2 ^ order ≠ 0 then none
    else if pageIsBuddy (z.mempage buddy) order then
      mergeBuddy left (z.unlink buddy order) (index &&& buddy) (order + 1)
    else some (z, index, order)

def freeBuddy (z : Zone) (index order : Nat) : Option Zone :=
  if maxOrder ≤ order then none
  else
    (mergeBuddy (maxOrder - 1 - order) { z with freePages := wrap (z.freePages + 2 ^ order) } index order).map
      fun r => r.1.link r.2.1 r.2.2

def initFreeLists (z : Zone) : Zone :=
  { z with links := (List.range maxOrder).foldl (fun L k => L.initListHead (.head k)) z.links }

def freePage (z : Zone) (i : Nat) : Option Zone :=
  if (z.mempage i).order = -1 ∧ (z.mempage i).flags &&& pgFree ≠ 0 then z.freeBuddy i 0 else some z

def freeAreaInit (z : Zone) : Option Zone :=
  (List.range z.size).foldlM freePage z.initFreeLists

end Zone

/-! ## Runs -/

structure ZoneFresh (z : Zone) : Prop where
  size_lt : z.size < 2 ^ 32
  freePages : z.freePages = 0
  nfree : ∀ k < maxOrder, z.nfree k = 0
  order : ∀ i < z.size, (z.mempage i).order = -1
  nref : ∀ i < z.size, (z.mempage i).nref = 0

/-- A zone and the blocks its callers hold. Between calls a caller may count
references on the pages it holds. -/
inductive ZoneStep : Zone × Set Block → Zone × Set Block → Prop
  | alloc {z z' : Zone} {H : Set Block} {order i : Nat} : order < maxOrder →
      z.allocBuddy order = some (some i, z') → ZoneStep (z, H) (z', insert (i, order) H)
  | allocNone {z z' : Zone} {H : Set Block} {order : Nat} : order < maxOrder →
      z.allocBuddy order = some (none, z') → ZoneStep (z, H) (z', H)
  | free {z z' : Zone} {H : Set Block} {i order : Nat} : (i, order) ∈ H →
      (∀ p, i ≤ p → p < i + 2 ^ order → (z.mempage p).nref = 0) →
      z.freeBuddy i order = some z' → ZoneStep (z, H) (z', H \ {(i, order)})
  | ref {z : Zone} {H : Set Block} {i order p : Nat} (n : Int) : (i, order) ∈ H → i ≤ p → p < i + 2 ^ order →
      ZoneStep (z, H)
        ({ z with mempage := Function.update z.mempage p { z.mempage p with nref := n } }, H)

def Zone.freeBlocks (z : Zone) : Set Block :=
  {b | b.2 < maxOrder ∧ ∃ l : List Nat, Ring z.links.next z.links.prev (.head b.2) (l.map ZNode.page) ∧ b.1 ∈ l}

/-- No page is marked both free and reserved; `mempage_init` gives each page one of the flags. -/
def Zone.OneFlag (z : Zone) : Prop :=
  ∀ p < z.size, (z.mempage p).flags &&& pgFree ≠ 0 → (z.mempage p).flags &&& pgReserved = 0

def Zone.freeAll (z : Zone) (l : List Block) : Option Zone := l.foldlM (fun z b => z.freeBuddy b.1 b.2) z

end MiniOS
