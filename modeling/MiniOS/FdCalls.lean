import MiniOS.Stat
import MiniOS.SysClose
import MiniOS.UserIoSound

/-!
# Descriptor numbers

The system calls that take descriptors, from the registers on. `find_file`, `deref_file` and
`dup2` use a number as an index of `files->fd` as it comes, so every call says with which
indices it has gone to the table. The words around the table are part of the state: an index
is scaled to an address of 32 bits, so that it may come out inside of the table again.
-/

namespace MiniOS

open List

structure FdKernel extends Kernel where
  /-- The word at `&files->fd[k]` for the others `k < 2 ^ 30`, `none` where there is no memory. -/
  beside : Nat → Option (Option Nat)
  file : Nat → OpenFile
  /-- `f_inode->i_mode` of a file. -/
  iMode : Nat → Nat
  pipes : Nat → PipeInodeInfo
  tty : TtyQueue
  mem : Nat → UInt8

/-- `ret` is `none` if the call does not come back to its caller. -/
structure FdResult where
  indices : List Int
  ret : Option Int
  state : FdKernel

/-- An index and its multiples of `2 ^ 30` are one address. -/
def fdOffset (fd : Int) : Nat := (fd % 2 ^ 30).toNat

def fdSlot (fd : Int) : Option (Fin maxFile) := if h : fdOffset fd < maxFile then some ⟨fdOffset fd, h⟩ else none

namespace FdKernel

variable (s : FdKernel)

def slots : Fin maxFile → Option Nat := s.fd (s.files s.curtask)

def word (fd : Int) : Option (Option Nat) :=
  match fdSlot fd with
  | some i => some (s.slots i)
  | none => s.beside (fdOffset fd)

-- Only words that have been loaded are stored to.
def setWord (fd : Int) (o : Option Nat) : FdKernel :=
  match fdSlot fd with
  | some i => { s with fd := Function.update s.fd (s.files s.curtask) (Function.update s.slots i o) }
  | none => { s with beside := Function.update s.beside (fdOffset fd) (some o) }

def setCount (p : Nat) (o : Option Nat) : FdKernel := { s with fCount := Function.update s.fCount p o }

def io : IoState := ⟨s.slots, s.file, s.pipes, s.tty, s.mem⟩

def setIo (io : IoState) : FdKernel := { s with file := io.file, pipes := io.pipes, tty := io.tty, mem := io.mem }

def error (e : Int) : FdResult := ⟨[], some (-e), s⟩

/-! ## file.c -/

def findFile (fd : Int) : List Int × Option (Option Nat) :=
  match s.word fd with
  | none => ([fd], none)
  | some none => ([fd], some none)
  | some (some p) => ([fd, fd], some (some p))

def lookup (fd : Int) (f : Option Nat → FdResult) : FdResult :=
  match s.findFile fd with
  | (l, none) => ⟨l, none, s⟩
  | (l, some o) => { f o with indices := l ++ (f o).indices }

def getUnusedFd : List Int × Option (Fin maxFile) :=
  let found := s.toKernel.table.getUnusedFd
  ((List.range ((found.map fun j => j.val + 1).getD maxFile)).map Int.ofNat, found)

def derefFile (fd : Int) : List Int × Option FdKernel :=
  match s.word fd with
  | none => ([fd], none)
  | some none => ([fd], some s)
  | some (some p) =>
    match s.fCount p with
    | none => ([fd], none)
    | some n =>
      let n' := wsub n 1
      ([fd, fd], some ((s.setCount p (if n' = 0 then none else some n')).setWord fd none))

def install (fd : Int) (old : Nat) (ret : Int) : FdResult :=
  let s := s.setWord fd (some old)
  match s.fCount old with
  | none => ⟨[fd], none, s⟩
  | some n => ⟨[fd], some ret, s.setCount old (some (wrap (n + 1)))⟩

/-! ## The calls -/

def transfer (allowed : OpenFile → Bool) (op : Nat → IoResult) (fd : Int) : FdResult :=
  s.lookup fd fun o =>
    match o with
    | none => s.error ebadf
    | some p => if allowed (s.file p) then ⟨[], some (op p).ret, s.setIo (op p).state⟩ else s.error eacces

def read (fd : Int) (buf : Nat) (count : Int) : FdResult :=
  s.transfer IoState.canRead (s.io.fOpRead · buf count) fd

def write (fd : Int) (buf : Nat) (count : Int) : FdResult :=
  s.transfer IoState.canWrite (s.io.fOpWrite · buf count) fd

def dupFile (old : Nat) : FdResult :=
  match s.getUnusedFd with
  | (l, none) => ⟨l, some (-emfile), s⟩
  | (l, some j) =>
    let r := s.install j old j
    { r with indices := l ++ r.indices }

def dup (oldfd : Int) : FdResult :=
  s.lookup oldfd fun o =>
    match o with
    | none => s.error ebadf
    | some old => s.dupFile old

def replaceFd (newfd : Int) (old : Nat) : FdResult :=
  match s.word newfd with
  | none => ⟨[newfd], none, s⟩
  | some none =>
    let r := s.install newfd old 0
    { r with indices := newfd :: r.indices }
  | some (some _) =>
    match s.derefFile newfd with
    | (l, none) => ⟨newfd :: l, none, s⟩
    | (l, some s) =>
      let r := s.install newfd old 0
      { r with indices := newfd :: (l ++ r.indices) }

def dup2 (oldfd newfd : Int) : FdResult :=
  if oldfd = newfd then ⟨[], some 0, s⟩
  else
    s.lookup oldfd fun o =>
      match o with
      | none => s.error ebadf
      | some old => s.replaceFd newfd old

/-- `SYS_CLOSE` does not look at what `find_file` says and goes on with `wait`. -/
def close (fd : Int) : FdResult :=
  s.lookup fd fun _ =>
    match s.toKernel.wait fd with
    | none => ⟨[], none, s⟩
    | some (.returns r k) => ⟨[], some r, { s with toKernel := k }⟩
    | some (.switches k) => ⟨[], none, { s with toKernel := k }⟩

def fdtype (fd : Int) : FdResult :=
  s.lookup fd fun o =>
    match o with
    | none => s.error ebadf
    | some p => ⟨[], some (s.iMode p &&& sIfmt : Nat), s⟩

end FdKernel

inductive FdCall where
  | read (fd : BitVec 32) (buf : Nat) (count : Int)
  | write (fd : BitVec 32) (buf : Nat) (count : Int)
  | dup (fd : BitVec 32)
  | dup2 (oldfd newfd : BitVec 32)
  | close (fd : BitVec 32)
  | fdtype (fd : BitVec 32)

def FdKernel.syscall (s : FdKernel) : FdCall → FdResult
  | .read fd buf count => s.read fd.toInt buf count
  | .write fd buf count => s.write fd.toInt buf count
  | .dup fd => s.dup fd.toInt
  | .dup2 oldfd newfd => s.dup2 oldfd.toInt newfd.toInt
  | .close fd => s.close fd.toInt
  | .fdtype fd => s.fdtype fd.toInt

/-! ## What is asked of a call -/

def InTable (i : Int) : Prop := 0 ≤ i ∧ i < maxFile

def FdCall.numbers : FdCall → List Int
  | .read fd _ _ | .write fd _ _ | .dup fd | .close fd | .fdtype fd => [fd.toInt]
  | .dup2 oldfd newfd => [oldfd.toInt, newfd.toInt]

structure FdResult.Checked (r : FdResult) (s : FdKernel) (numbers : List Int) : Prop where
  inside : ∀ i ∈ r.indices, InTable i
  rejects : ∀ n ∈ numbers, ¬ InTable n → (∃ e, r.ret = some e ∧ e < 0) ∧ r.state.fd = s.fd

/-- The first number is a descriptor. The second one of `dup2` need not be if the first one is not open. -/
def FdCall.Proper (s : FdKernel) : FdCall → Prop
  | .read fd _ _ | .write fd _ _ | .dup fd | .close fd | .fdtype fd => InTable fd.toInt
  | .dup2 oldfd newfd => InTable oldfd.toInt ∧ (InTable newfd.toInt ∨ s.word oldfd.toInt = some none)

namespace FdKernel

variable {s : FdKernel} {fd : Int} {f : Option Nat → FdResult}

/-! ## The indices -/

theorem findFile_indices (s : FdKernel) (fd : Int) : fd ∈ (s.findFile fd).1 ∧ ∀ i ∈ (s.findFile fd).1, i = fd := by
  unfold findFile
  split <;> simp

theorem derefFile_indices (s : FdKernel) (fd : Int) : ∀ i ∈ (s.derefFile fd).1, i = fd := by
  unfold derefFile
  split
  · simp
  · simp
  · split <;> simp

theorem install_indices (s : FdKernel) (fd : Int) (old : Nat) (ret : Int) :
    (s.install fd old ret).indices = [fd] := by
  unfold install
  dsimp only
  split <;> rfl

theorem getUnusedFd_inside (s : FdKernel) : ∀ i ∈ s.getUnusedFd.1, InTable i := by
  intro i hi
  obtain ⟨k, hk, rfl⟩ := List.mem_map.mp hi
  rw [mem_range] at hk
  have hle : (s.toKernel.table.getUnusedFd.map fun j => j.val + 1).getD maxFile ≤ maxFile := by
    cases s.toKernel.table.getUnusedFd with
    | none => exact Nat.le_refl _
    | some j => exact j.isLt
  exact ⟨Int.natCast_nonneg k, Int.ofNat_lt.mpr (hk.trans_le hle)⟩

theorem replaceFd_indices (s : FdKernel) (newfd : Int) (old : Nat) :
    newfd ∈ (s.replaceFd newfd old).indices ∧ ∀ i ∈ (s.replaceFd newfd old).indices, i = newfd := by
  have hderef := s.derefFile_indices newfd
  unfold replaceFd
  split
  · simp
  · simp [install_indices]
  · split <;> rename_i l _ heq <;> rw [heq] at hderef
    · exact ⟨mem_cons_self .., forall_mem_cons.mpr ⟨rfl, hderef⟩⟩
    · refine ⟨mem_cons_self .., forall_mem_cons.mpr ⟨rfl, forall_mem_append.mpr ⟨hderef, ?_⟩⟩⟩
      rw [install_indices]
      simp

theorem lookup_mem (s : FdKernel) (fd : Int) (f : Option Nat → FdResult) : fd ∈ (s.lookup fd f).indices := by
  have h := (s.findFile_indices fd).1
  unfold lookup
  split <;> rename_i heq <;> rw [heq] at h
  · exact h
  · exact mem_append_left _ h

theorem lookup_some {o : Option Nat} (hw : s.word fd = some o) :
    s.lookup fd f = { f o with indices := (s.findFile fd).1 ++ (f o).indices } := by
  unfold lookup findFile
  rw [hw]
  cases o <;> rfl

theorem word_inTable (h : InTable fd) : ∃ o, s.word fd = some o := by
  have hlt : fdOffset fd < maxFile := by
    rw [fdOffset, Int.emod_eq_of_lt h.1 (Int.lt_trans h.2 (by decide))]
    have := h.1
    have := h.2
    omega
  rw [word, fdSlot, dif_pos hlt]
  exact ⟨_, rfl⟩

theorem lookup_inside (hfd : InTable fd) (hf : ∀ o, s.word fd = some o → ∀ i ∈ (f o).indices, InTable i) :
    ∀ i ∈ (s.lookup fd f).indices, InTable i := by
  obtain ⟨o, ho⟩ := word_inTable (s := s) hfd
  rw [lookup_some ho]
  refine forall_mem_append.mpr ⟨fun i hi => ?_, hf o ho⟩
  rw [(s.findFile_indices fd).2 i hi]
  exact hfd

/-! ## The calls -/

/-- A call of one number goes wrong with the first load. -/
theorem lookup_checked_iff (hf : ∀ o, ∀ i ∈ (f o).indices, InTable i) :
    (s.lookup fd f).Checked s [fd] ↔ InTable fd := by
  constructor
  · intro h
    exact h.inside fd (s.lookup_mem fd f)
  · intro hfd
    refine ⟨lookup_inside hfd fun o _ => hf o, fun n hn hout => ?_⟩
    rw [mem_singleton.mp hn] at hout
    exact absurd hfd hout

theorem transfer_checked_iff (allowed : OpenFile → Bool) (op : Nat → IoResult) :
    (s.transfer allowed op fd).Checked s [fd] ↔ InTable fd := by
  refine lookup_checked_iff fun o => ?_
  cases o with
  | none => exact nofun
  | some p =>
    dsimp only
    split <;> exact nofun

theorem dupFile_inside (s : FdKernel) (old : Nat) : ∀ i ∈ (s.dupFile old).indices, InTable i := by
  have hscan := s.getUnusedFd_inside
  unfold dupFile
  split <;> rename_i heq <;> rw [heq] at hscan
  · exact hscan
  · rename_i j
    refine forall_mem_append.mpr ⟨hscan, ?_⟩
    rw [install_indices, forall_mem_singleton]
    exact ⟨Int.natCast_nonneg _, Int.ofNat_lt.mpr j.isLt⟩

/-- Equal descriptors are accepted without a look at the table. -/
theorem dup2_same_checked_iff (fd : Int) : (s.dup2 fd fd).Checked s [fd, fd] ↔ InTable fd := by
  unfold dup2
  rw [if_pos rfl]
  constructor
  · intro h
    by_contra hout
    obtain ⟨⟨e, he, hneg⟩, -⟩ := h.rejects fd (by simp) hout
    cases he
    exact absurd hneg (by decide)
  · intro hin
    refine ⟨nofun, fun n hn hout => ?_⟩
    have hn : n = fd := by simpa using hn
    exact absurd (hn ▸ hin) hout

theorem dup2_checked_iff (oldfd newfd : Int) :
    (s.dup2 oldfd newfd).Checked s [oldfd, newfd] ↔
      InTable oldfd ∧ (InTable newfd ∨ s.word oldfd = some none) := by
  by_cases heq : oldfd = newfd
  · subst heq
    rw [dup2_same_checked_iff]
    exact ⟨fun hin => ⟨hin, .inl hin⟩, And.left⟩
  · unfold dup2
    rw [if_neg heq]
    constructor
    · intro h
      have hold : InTable oldfd := h.inside oldfd (s.lookup_mem oldfd _)
      refine ⟨hold, ?_⟩
      obtain ⟨o, ho⟩ := word_inTable (s := s) hold
      cases o with
      | none => exact .inr ho
      | some old =>
        have hnew : newfd ∈ (s.replaceFd newfd old).indices := (s.replaceFd_indices newfd old).1
        rw [lookup_some ho] at h
        exact .inl (h.inside newfd (mem_append_right _ hnew))
    · rintro ⟨hold, hnew⟩
      constructor
      · refine lookup_inside hold fun o ho i hi => ?_
        cases o with
        | none => cases hi
        | some old =>
          have hnew : InTable newfd := hnew.resolve_right fun hn => by
            rw [ho] at hn
            cases hn
          rw [(s.replaceFd_indices newfd old).2 i hi]
          exact hnew
      · intro n hn hout
        have hn : n = oldfd ∨ n = newfd := by simpa using hn
        have hempty : s.word oldfd = some none := by
          obtain rfl | rfl := hn
          · exact absurd hold hout
          · exact hnew.resolve_left hout
        rw [lookup_some hempty]
        exact ⟨⟨_, rfl, by decide⟩, rfl⟩

end FdKernel

/-- Every index is in the table and every other number is refused, exactly for the numbers that need no check. -/
theorem fd_checked_iff (s : FdKernel) (c : FdCall) : (s.syscall c).Checked s c.numbers ↔ c.Proper s := by
  cases c with
  | read fd buf count => exact FdKernel.transfer_checked_iff _ _
  | write fd buf count => exact FdKernel.transfer_checked_iff _ _
  | dup fd =>
    refine FdKernel.lookup_checked_iff fun o => ?_
    cases o with
    | none => exact nofun
    | some old => exact s.dupFile_inside old
  | dup2 oldfd newfd => exact FdKernel.dup2_checked_iff _ _
  | close fd =>
    refine FdKernel.lookup_checked_iff fun o => ?_
    split <;> exact nofun
  | fdtype fd =>
    refine FdKernel.lookup_checked_iff fun o => ?_
    cases o with
    | none => exact nofun
    | some p => exact nofun

def oneDescriptor : FdKernel where
  toKernel :=
    { blankKernel with
      fd := fun _ i => if i = firstFd then some 208 else none
      fCount := fun p => if p = 208 then some 1 else none }
  beside _ := some none
  file _ := ⟨2, 0, .none⟩
  iMode _ := 0
  pipes _ := getPipeInfo
  tty := noKeys
  mem _ := 0

/-- `dup2(0, 128)` stores the file behind the table and says that it went well. -/
theorem dup2_behind_table : (oneDescriptor.syscall (.dup2 0 128)).indices = [0, 0, 128, 128] ∧
    (oneDescriptor.syscall (.dup2 0 128)).ret = some 0 ∧
    (oneDescriptor.syscall (.dup2 0 128)).state.beside 128 = some (some 208) ∧
    ¬ (oneDescriptor.syscall (.dup2 0 128)).Checked oneDescriptor (FdCall.dup2 0 128).numbers := by
  have hindices : (oneDescriptor.syscall (.dup2 0 128)).indices = [0, 0, 128, 128] := by decide +kernel
  refine ⟨hindices, by decide +kernel, by decide +kernel, fun h => ?_⟩
  have hin : InTable 128 := h.inside 128 (by rw [hindices]; simp)
  exact absurd hin.2 (by decide)

end MiniOS
