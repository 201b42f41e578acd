import MiniOS.Chain
import Mathlib.Logic.Function.Basic
import Mathlib.Logic.Relation

/-!
# The mount table

`vfsmount.c` and `follow_mount` of `namei.c`. A mount is the address of its `vfsmount`.
`insert_vfsmnt` writes the links `mnt_hash.next` and no other field that is read here, and
`none` is its panic.
-/

namespace MiniOS

def maxVfsmntHash : Nat := 1024

def mountBucket (dentry parent : Nat) : Nat :=
  ((UInt32.ofNat dentry ^^^ UInt32.ofNat parent) <<< 5).toNat % maxVfsmntHash

structure MountTable where
  first : Nat → Nat
  next : Nat → Nat
  mntParent : Nat → Nat
  mntRoot : Nat → Nat

def insertVfsmnt (t : MountTable) (mnt dentry : Nat) : Option MountTable :=
  if dentry ≠ 0 ∧ mnt ≠ 0 ∧ t.mntParent mnt ≠ 0 then
    let hash := mountBucket dentry (t.mntParent mnt)
    some { t with
      next := Function.update t.next mnt (t.first hash)
      first := Function.update t.first hash mnt }
  else none

def lookupVfsmnt (t : MountTable) (fuel mnt dentry : Nat) : Option Nat :=
  chainFind t.next 0 (fun tmp => t.mntParent tmp = mnt) fuel (t.first (mountBucket dentry mnt))

structure MountPath where
  mnt : Nat
  dentry : Nat

/-- The second answer is `res`. -/
def MountTable.followMount (t : MountTable) : Nat → MountPath → Int → Option (MountPath × Int)
  | 0, _, _ => none
  | fuel + 1, path, res =>
    if path.dentry = 0 then some (path, res)
    else
      (lookupVfsmnt t fuel path.mnt path.dentry).bind fun mounted =>
        if mounted = 0 then some (path, res)
        else t.followMount fuel ⟨mounted, t.mntRoot mounted⟩ 1

/-! ## The table after a sequence of inserts -/

structure MountCall where
  mnt : Nat
  dentry : Nat
  deriving DecidableEq

section
variable (mntParent mntRoot : Nat → Nat)

def MountTable.empty : MountTable := ⟨fun _ => 0, fun _ => 0, mntParent, mntRoot⟩

def MountTable.after (calls : List MountCall) : Option MountTable :=
  calls.foldlM (fun t e => insertVfsmnt t e.mnt e.dentry) (.empty mntParent mntRoot)

/-- No pair of a parent and a dentry twice, and no mount twice: it has one `mnt_hash`. -/
structure DistinctMounts (calls : List MountCall) : Prop where
  mounts : (calls.map MountCall.mnt).Nodup
  keys : (calls.map fun e => (mntParent e.mnt, e.dentry)).Nodup

def MountCall.Is (m d : Nat) (e : MountCall) : Prop := mntParent e.mnt = m ∧ e.dentry = d

/-- Same parent, and a dentry of the same chain. -/
def MountCall.Mistakable (m d : Nat) (e : MountCall) : Prop :=
  mntParent e.mnt = m ∧ mountBucket e.dentry m = mountBucket d m

/-- The lookup of a finite map: the mount under this key, or `NULL`. -/
def LooksUpMount (calls : List MountCall) (m d r : Nat) : Prop :=
  ∀ x, x ≠ 0 → (r = x ↔ ∃ e ∈ calls, e.Is mntParent m d ∧ e.mnt = x)

/-- Every mount it could be mistaken for is the right one or was inserted before it. -/
def ExactAt (calls : List MountCall) (m d : Nat) : Prop :=
  ∀ pre e post, calls = pre ++ e :: post → e.Mistakable mntParent m d → ∃ e' ∈ e :: post, e'.Is mntParent m d

/-! ## The mount tree -/

def ChildOf (calls : List MountCall) (x m : Nat) : Prop := x ∈ calls.map MountCall.mnt ∧ mntParent x = m

def AcyclicMounts (calls : List MountCall) : Prop := ∀ x, ¬ Relation.TransGen (ChildOf mntParent calls) x x

def StackedOn (calls : List MountCall) (p p' : MountPath) : Prop :=
  p.dentry ≠ 0 ∧ ∃ e ∈ calls, e.Is mntParent p.mnt p.dentry ∧ p' = ⟨e.mnt, mntRoot e.mnt⟩

def Topmost (calls : List MountCall) (p r : MountPath) : Prop :=
  Relation.ReflTransGen (StackedOn mntParent mntRoot calls) p r ∧ ∀ r', ¬ StackedOn mntParent mntRoot calls r r'

end

end MiniOS
