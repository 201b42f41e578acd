import MiniOS.FilesSound
import MiniOS.ProcessSound

/-!
# `pipe` and what it leaves behind

Two files in two slots, an inode with its `pipe_inode_info` and its page, and a dentry.
Each helper gives back what it has taken itself; `pipe` gives back nothing.
-/

namespace MiniOS

/-- What `kmalloc` answers, 0 for `NULL`. The page is the next answer of `page_alloc`. -/
structure PipeMem where
  file₁ : Nat
  file₂ : Nat
  inode : Nat
  info : Nat
  dentry : Nat

namespace Kernel

variable (s : Kernel)

def withTable (f : Files) : Kernel := { s with fd := f.fd, fCount := f.fCount }

def getEmptyFile (a : Nat) : Option (Fin maxFile × Nat × Kernel) :=
  (s.table.getEmptyFile (if a = 0 then none else some a)).map fun (fd, file, f) => (fd, file, s.withTable f)

def getPipeInfo (a : Nat) : Bool × Kernel :=
  match s.kmalloc a with
  | none => (false, s)
  | some s =>
    match s.paging.pageAlloc with
    | (none, g) => (false, { s with paging := g }.kfree a)
    | (some _, g) => (true, { s with paging := g })

def pipeNew (info : Nat) : Int × Kernel :=
  let (ok, s) := s.getPipeInfo info
  if ok then (0, s) else (-enomem, s)

def getPipeInode (inode info : Nat) : Bool × Kernel :=
  match s.kmalloc inode with
  | none => (false, s)
  | some s =>
    let (r, s) := s.pipeNew info
    if r = 0 then (true, s) else (false, s.kfree inode)

def dAlloc (a : Nat) : Bool × Kernel :=
  match s.kmalloc a with
  | none => (false, s)
  | some s => (true, s)

-- The two words of the caller are in `IoState.pipe`.
def pipe (mem : PipeMem) : Int × Kernel :=
  match s.getEmptyFile mem.file₁ with
  | none => (-enfile, s)
  | some (fd₁, f₁, s) =>
    match s.getEmptyFile mem.file₂ with
    | none => (-enfile, s)
    | some (fd₂, f₂, s) =>
      let (ok, s) := s.getPipeInode mem.inode mem.info
      if ok then
        let (ok, s) := s.dAlloc mem.dentry
        if ok then
          let f := (s.table.setCount f₁ (some 1)).setCount f₂ (some 1)
          (0, s.withTable ((f.setFd f.curtask fd₁ (some f₁)).setFd f.curtask fd₂ (some f₂)))
        else (-enomem, s)
      else (-enfile, s)

/-- The descriptors, the files with their counts, the objects on the heap and the pages. -/
structure Intact (s s' : Kernel) : Prop where
  fd : s'.fd = s.fd
  fCount : s'.fCount = s.fCount
  heap : s'.heap = s.heap
  pages : ∀ p, p ∈ s'.paging.free ↔ p ∈ s.paging.free

theorem Intact.refl : s.Intact s := ⟨rfl, rfl, rfl, fun _ => Iff.rfl⟩

variable {s} {i : Fin maxFile}

/-! ## The helpers -/

theorem getEmptyFile_none {a : Nat} : s.getEmptyFile a = none ↔ s.table.getUnusedFd = none ∨ a = 0 := by
  unfold getEmptyFile Files.getEmptyFile
  cases s.table.getUnusedFd with
  | none => simp
  | some i =>
    by_cases ha : a = 0
    · simp [ha]
    · simp [ha]

theorem getEmptyFile_some {a f : Nat} {s' : Kernel} (h : s.getEmptyFile a = some (i, f, s')) :
    s.fd (s.files s.curtask) i = none ∧
    s' = s.withTable ((s.table.setCount f (some 0)).setFd s.table.curtask i (some f)) := by
  obtain ⟨⟨j, g, t⟩, ht, he⟩ := Option.map_eq_some_iff.mp h
  unfold Files.getEmptyFile at ht
  split at ht
  · next j' g' hi hm =>
    cases ht
    cases he
    exact ⟨Files.getUnusedFd_spec hi, rfl⟩
  · cases ht

/-- It empties no slot. -/
theorem getEmptyFile_fd {a f : Nat} {s' : Kernel} (h : s.getEmptyFile a = some (i, f, s')) :
    s'.fd (s.files s.curtask) i = some f ∧ ∀ t j, s.fd t j ≠ none → s'.fd t j ≠ none := by
  obtain ⟨-, rfl⟩ := getEmptyFile_some h
  refine ⟨by simp [withTable, table, Files.setFd], fun t j hj => ?_⟩
  by_cases ht : t = s.files s.curtask
  · by_cases hi : j = i
    · simp [withTable, table, Files.setFd, ht, hi]
    · subst ht
      simpa [withTable, table, Files.setFd, Files.setCount, hi] using hj
  · simpa [withTable, table, Files.setFd, Files.setCount, ht] using hj

theorem getPipeInfo_spec (s : Kernel) (a : Nat) : (s.getPipeInfo a).2.fd = s.fd ∧
    ((s.getPipeInfo a).1 = false → a ∉ s.heap → s.Intact (s.getPipeInfo a).2) := by
  unfold getPipeInfo
  cases hk : s.kmalloc a with
  | none => exact ⟨rfl, fun _ _ => Intact.refl s⟩
  | some s₁ =>
    obtain ⟨-, rfl⟩ := kmalloc_eq hk
    dsimp only
    cases hp : s.paging.pageAlloc with | mk r g
    cases r with
    | some p => exact ⟨rfl, fun h => absurd h (by simp)⟩
    | none =>
      obtain ⟨-, -, -, hfree, -⟩ | ⟨⟨p, hp⟩, -⟩ := pageAlloc_cases hp
      · refine ⟨rfl, fun _ ha => ⟨rfl, rfl, Finset.erase_insert ha, fun q => ?_⟩⟩
        exact hfree ▸ Iff.rfl
      · cases hp

theorem getPipeInode_eq (s : Kernel) (inode info : Nat) : s.getPipeInode inode info =
    match s.kmalloc inode with
    | none => (false, s)
    | some s₁ => if (s₁.getPipeInfo info).1 then (true, (s₁.getPipeInfo info).2) else (false,
      (s₁.getPipeInfo info).2.kfree inode) := by
  unfold getPipeInode pipeNew
  cases s.kmalloc inode with
  | none => rfl
  | some s₁ =>
    dsimp only
    cases (s₁.getPipeInfo info).1 with
    | true => rfl
    | false => rfl

/-- What `get_pipe_inode` has taken, it gives back when it fails. -/
theorem getPipeInode_spec (s : Kernel) (inode info : Nat) : (s.getPipeInode inode info).2.fd = s.fd ∧
    ((s.getPipeInode inode info).1 = false → inode ∉ s.heap → info ∉ s.heap → inode ≠ info →
      s.Intact (s.getPipeInode inode info).2) := by
  rw [getPipeInode_eq]
  cases hk : s.kmalloc inode with
  | none => exact ⟨rfl, fun _ _ _ _ => Intact.refl s⟩
  | some s₁ =>
    obtain ⟨-, rfl⟩ := kmalloc_eq hk
    obtain ⟨hfd, hclean⟩ := getPipeInfo_spec { s with heap := insert inode s.heap } info
    dsimp only
    split
    · exact ⟨hfd, fun h => absurd h (by simp)⟩
    · next hok =>
      refine ⟨hfd, fun _ hi hf hne => ?_⟩
      have hintact := hclean (by simpa using hok) (by simp [Ne.symm hne, hf])
      refine ⟨hfd, hintact.fCount, ?_, hintact.pages⟩
      exact (congrArg (Finset.erase · inode) hintact.heap).trans (Finset.erase_insert hi)

theorem dAlloc_fd (s : Kernel) (a : Nat) : (s.dAlloc a).2.fd = s.fd := by
  unfold dAlloc
  cases hk : s.kmalloc a with
  | none => rfl
  | some s₁ => rw [(kmalloc_eq hk).2]

/-! ## The call -/

/-- A failing `pipe` that has its first file keeps it in the table. -/
theorem pipe_keeps_file {mem : PipeMem} {f : Nat} {s₁ : Kernel}
    (h : s.getEmptyFile mem.file₁ = some (i, f, s₁)) (hr : (s.pipe mem).1 < 0) :
    (s.pipe mem).2.fd (s.files s.curtask) i ≠ none := by
  have hi : s₁.fd (s.files s.curtask) i ≠ none := by simp [(getEmptyFile_fd h).1]
  unfold pipe at hr ⊢
  simp only [h] at hr ⊢
  cases h₂ : s₁.getEmptyFile mem.file₂ with
  | none => exact hi
  | some r =>
    obtain ⟨j, g, s₂⟩ := r
    have hi₂ := (getEmptyFile_fd h₂).2 _ _ hi
    have hinode := (getPipeInode_spec s₂ mem.inode mem.info).1
    have hdentry := dAlloc_fd (s₂.getPipeInode mem.inode mem.info).2 mem.dentry
    simp only [h₂] at hr ⊢
    split
    · next hok =>
      rw [if_pos hok] at hr
      split
      · next hd => rw [if_pos hd] at hr; exact absurd hr (Int.lt_irrefl 0)
      · rw [hdentry, hinode]
        exact hi₂
    · rw [hinode]
      exact hi₂

end Kernel

/-- A failing `pipe` leaves everything as it was if and only if it has not come as far as to have
a file: there is no free descriptor, or no memory for the first file. -/
theorem pipe_failure_atomic (s : Kernel) (mem : PipeMem) (hr : (s.pipe mem).1 < 0) :
    s.Intact (s.pipe mem).2 ↔ s.table.getUnusedFd = none ∨ mem.file₁ = 0 := by
  rw [← Kernel.getEmptyFile_none]
  cases h : s.getEmptyFile mem.file₁ with
  | none =>
    have hsame : (s.pipe mem).2 = s := by simp only [Kernel.pipe, h]
    rw [hsame]
    exact ⟨fun _ => rfl, fun _ => Kernel.Intact.refl s⟩
  | some r =>
    obtain ⟨i, f, s₁⟩ := r
    refine ⟨fun hintact => ?_, nofun⟩
    have hkept := Kernel.pipe_keeps_file h hr
    rw [hintact.fd] at hkept
    exact absurd (Kernel.getEmptyFile_some h).1 hkept

/-- No memory for the first file. -/
theorem pipe_failure_atomic_first : (blankKernel.pipe ⟨0, 0, 0, 0, 0⟩).1 = -enfile ∧
    blankKernel.Intact (blankKernel.pipe ⟨0, 0, 0, 0, 0⟩).2 :=
  ⟨by decide, (pipe_failure_atomic blankKernel ⟨0, 0, 0, 0, 0⟩ (by decide)).mpr (.inr rfl)⟩

/-- The dentry is missing: the first task has lost a descriptor to a file without a count, and there are an
inode and a `pipe_inode_info` that nobody knows of, and a page less. -/
theorem pipe_leaks : ∃ s s', blankKernel.boot firstMem blankTask onePage = some s ∧
    s.pipe ⟨208, 224, 240, 256, 0⟩ = (-enomem, s') ∧ s.fd (s.files s.curtask) firstFd = none ∧
    s'.fd (s.files s.curtask) firstFd = some 208 ∧ s'.fCount 208 = some 0 ∧ 240 ∈ s'.heap ∧ 256 ∈ s'.heap ∧
    s'.paging.free.length + 1 = s.paging.free.length ∧ ¬ s.Intact s' := by
  have h : ((blankKernel.boot firstMem blankTask onePage).map fun s =>
      let r := s.pipe ⟨208, 224, 240, 256, 0⟩
      ((r.1, s.fd (s.files s.curtask) firstFd, r.2.fd (s.files s.curtask) firstFd, r.2.fCount 208),
        (decide (240 ∈ r.2.heap), decide (256 ∈ r.2.heap)), r.2.paging.free.length + 1 == s.paging.free.length)) =
      some ((-enomem, none, some 208, some 0), (true, true), true) := by decide +kernel
  simp only [Option.map_eq_some_iff, Prod.mk.injEq, decide_eq_true_eq, beq_iff_eq] at h
  obtain ⟨s, hb, ⟨hr, hfree, hslot, hcount⟩, ⟨hinode, hinfo⟩, hpage⟩ := h
  refine ⟨s, _, hb, Prod.ext hr rfl, hfree, hslot, hcount, hinode, hinfo, hpage, fun hintact => ?_⟩
  rw [hintact.fd, hfree] at hslot
  cases hslot

end MiniOS
