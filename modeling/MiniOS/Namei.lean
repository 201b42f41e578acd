import MiniOS.Dcache
import MiniOS.Errno

/-!
# Path resolution

`link_path_lookup` walks a pathname component by component. The end of a list of
bytes is the zero that ends the string in the source.
-/

namespace MiniOS

def slash : UInt8 := 47

def dot : UInt8 := 46

def lookupParent : UInt32 := 8

inductive LastType where
  | norm
  | dot
  | dotdot
  deriving DecidableEq

structure Nameidata where
  dentry : Nat
  mnt : Nat
  last : Qstr
  flags : UInt32
  lastType : LastType
  deriving DecidableEq

structure FsStruct where
  root : Nat
  mntRoot : Nat
  pwd : Nat
  mntPwd : Nat

/-- The dentries, their exact lookup, and the mounts; `0` is `NULL`. -/
structure Vfs where
  child : Nat → Qstr → Option Nat
  dParent : Nat → Nat
  dInode : Nat → Nat
  lookupVfsmnt : Nat → Nat → Nat
  mntRoot : Nat → Nat

variable (v : Vfs)

def followMount : Nat → Nat × Nat → Option (Nat × Nat)
  | 0, _ => none
  | fuel + 1, (mnt, dentry) =>
    if dentry = 0 then some (mnt, dentry)
    else
      let mounted := v.lookupVfsmnt mnt dentry
      if mounted = 0 then some (mnt, dentry)
      else followMount fuel (mounted, v.mntRoot mounted)

/-- The path found, or `some none` for `-ENOENT`. The function `real_lookup` finds nothing. -/
def doLookup (fuel : Nat) (nd : Nameidata) (name : Qstr) : Option (Option (Nat × Nat)) :=
  match v.child nd.dentry name with
  | none => some none
  | some dentry => (followMount v fuel (nd.mnt, dentry)).map some

def Qstr.isDot (this : Qstr) : Bool := this.name.headD 0 = dot ∧ this.len = 1

def Qstr.isDotdot (this : Qstr) : Bool :=
  this.name.headD 0 = dot ∧ this.len = 2 ∧ this.name.getD 1 0 = dot

def lookupParentOf (nd : Nameidata) (this : Qstr) : Nameidata :=
  -- both tests of the source are on the length one
  let lastType := if this.name.headD 0 = dot ∧ this.len = 1 then .dotdot else .norm
  { nd with last := this, lastType := lastType }

def lastComponent (fuel : Nat) (nd : Nameidata) (this : Qstr) (res : Int) : Option (Int × Nameidata) :=
  if nd.flags &&& lookupParent ≠ 0 then some (0, lookupParentOf nd this)
  else if this.isDot then some (res, nd)
  else if this.isDotdot then some (res, { nd with dentry := v.dParent nd.dentry })
  else
    match doLookup v fuel nd this with
    | none => none
    | some none => some (-enoent, nd)
    | some (some (mnt, dentry)) => some (0, { nd with mnt := mnt, dentry := dentry })

def isNameByte (c : UInt8) : Bool := c ≠ 0 ∧ c ≠ slash

/-- The buffer `this.name` takes 35 bytes and the zero; a longer component overruns it. -/
def Qstr.ofName (name : List UInt8) : Option Qstr :=
  if h : name.length < dnameLenMin ∧ 0 ∉ name then some ⟨name, h.1, h.2⟩ else none

inductive WalkStep where
  | stops (r : Option (Int × Nameidata))
  | goesOn (nd : Nameidata) (res : Int)

/-- What the loop does with a component that is not the last one. -/
def afterComponent (fuel : Nat) (nd : Nameidata) (this : Qstr) (res : Int) : WalkStep :=
  if this.isDot then .goesOn nd res
  else if this.isDotdot then .goesOn { nd with dentry := v.dParent nd.dentry } res
  else
    match doLookup v fuel nd this with
    | none => .stops none
    | some none => .stops (some (-enoent, nd))
    | some (some (mnt, dentry)) =>
      if v.dInode dentry = 0 then .stops (some (0, nd)) else .goesOn { nd with mnt := mnt, dentry := dentry } 0

/-- The `for(;;)` of `link_path_lookup`; `none` for an overrun, or too little fuel. -/
def linkLoop (fuel : Nat) : Nat → List UInt8 → Nameidata → Int → Option (Int × Nameidata)
  | 0, _, _, _ => none
  | left + 1, name, nd, res =>
    match Qstr.ofName (name.takeWhile isNameByte) with
    | none => none
    | some this =>
      let name := name.dropWhile isNameByte
      if name.headD 0 = 0 then lastComponent v fuel nd this res
      else
        let name := name.dropWhile (· = slash)
        -- the label `last_with_slashes`
        if name.headD 0 = 0 then lastComponent v fuel nd this 0
        else
          match afterComponent v fuel nd this res with
          | .stops r => r
          | .goesOn nd res => linkLoop fuel left name nd res

def linkPathLookup (fuel : Nat) (name : List UInt8) (nd : Nameidata) : Option (Int × Nameidata) :=
  let name := name.dropWhile (· = slash)
  if name.headD 0 = 0 then some (-enoent, nd)
  else linkLoop v fuel fuel name nd (-enoent)

def pathLookup (fs : FsStruct) (fuel : Nat) (name : List UInt8) (flags : UInt32) (nd : Nameidata) :
    Option (Int × Nameidata) :=
  if name.headD 0 = slash then
    linkPathLookup v fuel name { nd with mnt := fs.mntRoot, dentry := fs.root, flags := flags }
  else if name.headD 0 ≠ 0 then
    linkPathLookup v fuel name { nd with mnt := fs.mntPwd, dentry := fs.pwd, flags := flags }
  else some (-enoent, nd)

def outcome (r : Int × Nameidata) : Option Nat := if r.1 < 0 then none else some r.2.dentry

/-! ## The reference -/

def components (name : List UInt8) : List (List UInt8) := (name.splitOn slash).filter (· ≠ [])

def walkStep (d : Nat) (c : List UInt8) : Option Nat :=
  if c = [dot] then some d
  else if c = [dot, dot] then some (v.dParent d)
  else (Qstr.ofName c).bind (v.child d)

def walk (start : Nat) (cs : List (List UInt8)) : Option Nat := cs.foldlM (walkStep v) start

def referenceLookup (fs : FsStruct) (name : List UInt8) : Option Nat :=
  if components name = [] then none
  else walk v (if name.headD 0 = slash then fs.root else fs.pwd) (components name)

def RealName (c : List UInt8) : Prop := c ≠ [dot] ∧ c ≠ [dot, dot]

instance : DecidablePred RealName := fun c => inferInstanceAs (Decidable (c ≠ [dot] ∧ c ≠ [dot, dot]))

/-- Nothing is mounted, and the dentries in the cache have their inodes: `dentry_insert`
is called after `d_inode` is set. -/
structure Vfs.Plain : Prop where
  noMounts : ∀ mnt dentry, v.lookupVfsmnt mnt dentry = 0
  inode : ∀ d q d', v.child d q = some d' → v.dInode d' ≠ 0

/-- A string of the source whose components fit into the buffer of a `struct qstr`. -/
structure ShortPath (name : List UInt8) : Prop where
  noZero : 0 ∉ name
  fits : ∀ c ∈ components name, c.length < dnameLenMin

def EndsInSlash (name : List UInt8) : Prop := name.getLast? = some slash

instance : DecidablePred EndsInSlash := fun name => inferInstanceAs (Decidable (name.getLast? = some slash))

end MiniOS
