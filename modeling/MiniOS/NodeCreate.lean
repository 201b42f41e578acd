import MiniOS.Namei
import MiniOS.Stat
import MiniOS.Word
import Mathlib.Data.Finset.Card

/-!
# Making files and directories

`create` and `mkdir` from the path to the inode operations of `libfs.c` and `ramfs`. What
`kmalloc` answers for the dentry and for the inode is part of a call, 0 is `NULL`.
-/

namespace MiniOS

open Function

/-- The tables `i_op` points to; those of ttyfs and of a new inode have neither of the two operations. -/
inductive InodeOps where
  | simpleDir
  | simpleFile
  | ramfsDir
  | ttyfs
  | empty
  deriving DecidableEq

/-- Dentries and inodes by their addresses, the mounts, and the objects that are allocated. -/
structure FsState where
  cache : Dcache
  dParent : Nat → Nat
  dInode : Nat → Nat
  dCount : Nat → Nat
  iMode : Nat → Nat
  iOp : Nat → InodeOps
  iNlink : Nat → Nat
  lookupVfsmnt : Nat → Nat → Nat
  mntRoot : Nat → Nat
  live : Finset Nat

/-- How a call ends: with a result and what it has put into the dentry cache, in one of the
panics of `libfs.c`, or by calling through a null pointer. -/
inductive NodeEnd where
  | returns (r : Int) (inserted : Option Insertion) (s : FsState)
  | panics
  | missing

structure NodeArgs where
  mem : Nat → UInt8
  pathname : Nat
  len : Int
  mode : Nat
  nd : Nameidata
  dentry : Nat
  inode : Nat

inductive NodeCall where
  | create
  | mkdir

/-! ## Strings in memory -/

def strAt (mem : Nat → UInt8) : (fuel p : Nat) → Option (List UInt8)
  | 0, _ => none
  | fuel + 1, p => if mem p = 0 then some [] else (strAt mem fuel (wrap (p + 1))).map (mem p :: ·)

def bytesFrom (mem : Nat → UInt8) (p n : Nat) : List UInt8 := (List.range n).map fun j => mem (wrap (p + j))

/-- `while (*p == '/') p--`. -/
def skipSlashes (mem : Nat → UInt8) : (fuel p : Nat) → Option Nat
  | 0, _ => none
  | fuel + 1, p => if mem p = slash then skipSlashes mem fuel (wsub p 1) else some p

/-- `while (*p != '/' && p >= pathname) p--`. -/
def skipName (mem : Nat → UInt8) (pathname : Nat) : (fuel p : Nat) → Option Nat
  | 0, _ => none
  | fuel + 1, p => if mem p ≠ slash ∧ pathname ≤ p then skipName mem pathname fuel (wsub p 1) else some p

def getLast (mem : Nat → UInt8) (fuel pathname : Nat) (len : Int) : Option Nat :=
  ((skipSlashes mem fuel (wsub (wrap (pathname + toUnsigned len)) 1)).bind (skipName mem pathname fuel)).map
    fun p => wrap (p + 1)

namespace FsState

variable (s : FsState)

def lookup (parent : Nat) (name : Qstr) : Option Nat := dentryLookup s.cache (s.live.card + 1) parent name

def vfs : Vfs where
  child parent name := (s.lookup parent name).bind fun d => if d = 0 then none else some d
  dParent := s.dParent
  dInode := s.dInode
  lookupVfsmnt := s.lookupVfsmnt
  mntRoot := s.mntRoot

/-! ## dcache.c -/

def dget (dentry : Nat) : FsState :=
  if dentry = 0 then s else { s with dCount := update s.dCount dentry (wrap (s.dCount dentry + 1)) }

def dAlloc (parent : Nat) (name : Qstr) (dentry : Nat) : Option FsState :=
  if dentry = 0 then none
  else
    some (FsState.dget { s with
      live := insert dentry s.live
      cache := { s.cache with dName := update s.cache.dName dentry name, next := update s.cache.next dentry 0 }
      dParent := update s.dParent dentry parent
      dInode := update s.dInode dentry 0
      dCount := update s.dCount dentry 1 } parent)

/-! ## libfs.c and ramfs_inode.c -/

def newOps (dirOps : InodeOps) (mode : Nat) : InodeOps :=
  if mode &&& sIfmt = sIfreg then .simpleFile else if mode &&& sIfmt = sIfdir then dirOps else .empty

def mknod (dirOps : InodeOps) (dentry mode inode : Nat) : Int × FsState :=
  if inode = 0 then (-enospc, s)
  else
    (0, { s with
      live := insert inode s.live
      iMode := update s.iMode inode mode
      iOp := update s.iOp inode (newOps dirOps mode)
      dInode := update s.dInode dentry inode
      dCount := update s.dCount dentry 1 })

def inodeCreate (dirOps : InodeOps) (dentry mode inode : Nat) : Int × FsState :=
  s.mknod dirOps dentry (mode ||| sIfreg) inode

def inodeMkdir (dirOps : InodeOps) (dir dentry mode inode : Nat) : Int × FsState :=
  let (retval, s) := s.mknod dirOps dentry (mode ||| sIfdir) inode
  if retval = 0 then (retval, { s with iNlink := update s.iNlink dir (wrap (s.iNlink dir + 1)) }) else (retval, s)

/-- What a call of one of the two operations of `dir` comes to, `op` being the one of a
directory of libfs or ramfs. -/
def callOp (dir : Nat) (op : InodeOps → Int × FsState) : NodeEnd :=
  if dir = 0 then .missing
  else
    match s.iOp dir with
    | .simpleDir => .returns (op .simpleDir).1 none (op .simpleDir).2
    | .ramfsDir => .returns (op .ramfsDir).1 none (op .ramfsDir).2
    | .simpleFile => .panics
    | .ttyfs => .missing
    | .empty => .missing

/-! ## The calls -/

def addNode (parent : Nat) (last : Qstr) (dentry : Nat) (op : FsState → NodeEnd) : Option NodeEnd :=
  (s.lookup parent last).map fun found =>
    if found ≠ 0 then .returns (-eexist) none s
    else
      match s.dAlloc parent last dentry with
      | none => .returns (-enomem) none s
      | some s =>
        match op s with
        | .returns r _ s =>
          if r < 0 then .returns r none s
          else .returns r (some ⟨parent, dentry⟩) { s with cache := dentryInsert s.cache parent dentry }
        | e => e

def pathParent (fs : FsStruct) (fuel : Nat) (a : NodeArgs) (flags : UInt32) : Option (Int × Nameidata) :=
  (strAt a.mem fuel a.pathname).bind fun name => pathLookup s.vfs fs fuel name flags a.nd

def create (fs : FsStruct) (fuel : Nat) (a : NodeArgs) : Option NodeEnd :=
  (s.pathParent fs fuel a lookupParent).bind fun (res, nd) =>
    if res < 0 then some (.returns res none s)
    else
      let dir := s.dInode nd.dentry
      s.addNode nd.dentry nd.last a.dentry fun s => s.callOp dir fun k => s.inodeCreate k a.dentry a.mode a.inode

def mkdirFlags : UInt32 := lookupParent ||| 1

-- If `get_last` points to another name, nothing is made and the result is that of the lookup.
def mkdir (fs : FsStruct) (fuel : Nat) (a : NodeArgs) : Option NodeEnd :=
  (s.pathParent fs fuel a mkdirFlags).bind fun (res, nd) =>
    if res < 0 then some (.returns res none s)
    else
      let dir := s.dInode nd.dentry
      (getLast a.mem fuel a.pathname a.len).bind fun p =>
        if strncmp nd.last.len nd.last.name (bytesFrom a.mem p nd.last.len) = 0 then
          s.addNode nd.dentry nd.last a.dentry fun s => s.callOp dir fun k =>
            s.inodeMkdir k dir a.dentry a.mode a.inode
        else some (.returns res none s)

def nodeCall (fs : FsStruct) (fuel : Nat) (a : NodeArgs) : NodeCall → Option NodeEnd
  | .create => s.create fs fuel a
  | .mkdir => s.mkdir fs fuel a

end FsState

end MiniOS
