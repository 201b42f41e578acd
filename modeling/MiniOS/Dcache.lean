import MiniOS.Chain
import Mathlib.Logic.Function.Basic

/-!
# The dentry cache

Names, the hash, and the table of chains through `d_hash.next`. The back links
`pprev` are written by `hlist_add_head` and read by nobody here.
-/

namespace MiniOS

def dnameLenMin : Nat := 36

/-- A name of the buffer `name[DNAME_LEN_MIN]`, without the zero that ends it. -/
structure Qstr where
  name : List UInt8
  fits : name.length < dnameLenMin
  noZero : 0 ∉ name
  deriving DecidableEq

def Qstr.len (q : Qstr) : Nat := q.name.length

/-- `*p` is `p.headD 0` and `p++` is `p.tail`. -/
def strncmp : Nat → List UInt8 → List UInt8 → Int
  | 0, _, _ => 0
  | n + 1, p, q =>
    if p.headD 0 ≠ 0 ∧ p.headD 0 = q.headD 0 then strncmp n p.tail q.tail
    else (p.headD 0).toNat - (q.headD 0).toNat

-- `char` is signed: `str[i]` is extended with its sign before it is added.
def _hash (str : List UInt8) : UInt32 :=
  str.foldl (fun hash c => hash + (hash <<< 5) + c.toInt8.toInt32.toUInt32) 0

def hash (parent : Nat) (name : List UInt8) : UInt32 :=
  (UInt32.ofNat parent ^^^ _hash name) <<< 5

def maxDentryHash : Nat := 1024

def bucket (parent : Nat) (name : List UInt8) : Nat := (hash parent name).toNat % maxDentryHash

structure Dcache where
  first : Nat → Nat
  next : Nat → Nat
  dName : Nat → Qstr

def dentryLookup (c : Dcache) (fuel parent : Nat) (qstr : Qstr) : Option Nat :=
  chainFind c.next 0 (fun d => strncmp qstr.len (c.dName d).name qstr.name = 0) fuel
    (c.first (bucket parent qstr.name))

def dentryInsert (c : Dcache) (parent dentry : Nat) : Dcache :=
  let h := bucket parent (c.dName dentry).name
  { c with
    next := Function.update c.next dentry (c.first h)
    first := Function.update c.first h dentry }

/-! ## The cache after a sequence of inserts -/

structure Insertion where
  parent : Nat
  dentry : Nat
  deriving DecidableEq

def Dcache.empty (dName : Nat → Qstr) : Dcache := ⟨fun _ => 0, fun _ => 0, dName⟩

def Dcache.after (dName : Nat → Qstr) (calls : List Insertion) : Dcache :=
  calls.foldl (fun c e => dentryInsert c e.parent e.dentry) (.empty dName)

section
variable (dName : Nat → Qstr)

/-- The callers insert dentries fresh from `d_alloc`, no name twice into one directory. -/
structure Distinct (calls : List Insertion) : Prop where
  nonnull : ∀ e ∈ calls, e.dentry ≠ 0
  dentries : (calls.map Insertion.dentry).Nodup
  keys : (calls.map fun e => (e.parent, dName e.dentry)).Nodup

def Insertion.Is (parent : Nat) (q : Qstr) (e : Insertion) : Prop :=
  e.parent = parent ∧ dName e.dentry = q

/-- Same chain, and a name that begins with the one looked for. -/
def Insertion.Mistakable (parent : Nat) (q : Qstr) (e : Insertion) : Prop :=
  bucket e.parent (dName e.dentry).name = bucket parent q.name ∧ q.name <+: (dName e.dentry).name

/-- The lookup of a finite map: the dentry under this key, or `NULL`. -/
def LooksUp (calls : List Insertion) (parent : Nat) (q : Qstr) (r : Nat) : Prop :=
  ∀ d, d ≠ 0 → (r = d ↔ ∃ e ∈ calls, e.Is dName parent q ∧ e.dentry = d)

end

end MiniOS
