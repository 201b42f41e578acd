import MiniOS.ElfSound
import MiniOS.Execve
import MiniOS.ProcessSound

/-!
# How `execve` ends

Behind `path_lookup` no error of `execve` is left: what is no `ram_file` is read through a `NULL`
pointer, and what `load_icode` refuses ends in the assertion of `task_create`.
-/

namespace MiniOS

open Option

namespace Kernel

variable {s s' : Kernel}

theorem taskSetVm_fresh {t a brk : Nat} {r : Int} (h : s.taskSetVm t a brk = (r, s')) (hr : ¬ r < 0) :
    (s'.paging.mm (s'.mm t)).mmap = [] := by
  unfold taskSetVm at h
  split at h
  · cases h
    exact absurd (by decide) hr
  dsimp only at h
  split at h
  · cases h
    exact absurd (by decide) hr
  · cases h
    dsimp only
    rw [Function.update_self, Paging.newMm, Paging.setMm_mm_self]

/-- The new address space has no area yet. -/
theorem taskAlloc_fresh {mem : TaskMem} {old : Task} {ppid : Int} (h : s.taskAlloc mem old ppid = some s') :
    (s'.paging.mm (s'.mm mem.task)).mmap = [] := by
  simp only [taskAlloc, bind_eq_some_iff] at h
  obtain ⟨s₁, -, s₂, -, h⟩ := h
  cases hv : s₂.taskSetVm mem.task mem.mm 0 with | mk r s₃
  rw [hv] at h
  split at h
  · cases h
  next hr =>
  have hfresh := taskSetVm_fresh hv hr
  split at h
  · cases h
  · cases h
    exact hfresh

end Kernel

namespace Machine

variable {s s' : Machine} {mem : TaskMem} {old : Task}

theorem taskCreate_some {ppid : Int} {creator binary : Nat}
    (h : s.taskCreate mem old ppid creator binary = some s') :
    ∃ k l, s.kernel.taskAlloc mem old ppid = some k ∧ binary ≠ 0 ∧
      (⟨k.paging, s.mem, 0, 0, []⟩ : Loader).loadIcode (k.mm mem.task) binary = (.done, l) ∧
      s' = { s with
        kernel := { k with
          paging := l.paging
          sched := ({ k.sched with pidmap := Function.update k.sched.pidmap (k.sched.task mem.task).pid mem.task
            }.scheduleAddTask mem.task).enlist mem.task creator }
        mem := fun x => if x < kernelBaseAddr then s.mem x else l.mem x } := by
  simp only [taskCreate, bind_eq_some_iff] at h
  obtain ⟨k, hk, h⟩ := h
  split at h
  · cases h
  next hne =>
  split at h
  · next l hl =>
    cases h
    exact ⟨k, l, hk, hne, hl, rfl⟩
  · cases h

section
variable {retval : Int} {inode : Nat}

theorem prepare_ok (h : s.prepare mem old retval inode = .ok s') : inode ≠ 0 ∧ s.iInode inode ≠ 0 ∧
    ∃ s₁, s.taskCreate mem old (s.kernel.sched.task s.kernel.curtask).pid (s.kernel.sched.uid s.kernel.curtask)
      (s.ramStart (s.iInode inode)) = some s₁ ∧ s₁.share mem = some s' := by
  unfold prepare at h
  split at h
  · cases h
  split at h
  · cases h
  next hinode =>
  split at h
  · cases h
  next hram =>
  dsimp only at h
  split at h
  · cases h
  next hshare =>
  cases h
  exact ⟨hinode, hram, bind_eq_some_iff.mp hshare⟩

/-- What `path_lookup` has found and `prepare` does not take stops the kernel. -/
theorem prepare_error {e : ExecEnd} (hres : 0 ≤ retval) (h : s.prepare mem old retval inode = .error e) :
    e = if inode = 0 ∨ s.iInode inode = 0 then .fault else .panic := by
  unfold prepare at h
  rw [if_neg (by omega)] at h
  split at h
  · next hinode =>
    cases h
    rw [if_pos (.inl hinode)]
  next hinode =>
  split at h
  · next hram =>
    cases h
    rw [if_pos (.inr hram)]
  next hram =>
  rw [if_neg fun hno => hno.elim hinode hram]
  dsimp only at h
  split at h
  · cases h
    rfl
  · cases h

theorem loadable_of_prepare (h : s.prepare mem old retval inode = .ok s') : s.Loadable inode := by
  obtain ⟨hinode, hram, s₁, hcreate, -⟩ := prepare_ok h
  obtain ⟨k, l, hk, hstart, hload, -⟩ := taskCreate_some hcreate
  exact ⟨hinode, hram, hstart, k.paging, k.mm mem.task, Kernel.taskAlloc_fresh hk, congrArg Prod.fst hload⟩

/-- The memory of the caller is as it was. -/
theorem prepare_mem (h : s.prepare mem old retval inode = .ok s') {x : Nat} (hx : x < kernelBaseAddr) :
    s'.mem x = s.mem x := by
  obtain ⟨-, -, s₁, hcreate, hshare⟩ := prepare_ok h
  obtain ⟨k, l, -, -, -, rfl⟩ := taskCreate_some hcreate
  simp only [share, bind_eq_some_iff, map_eq_some_iff] at hshare
  obtain ⟨_, -, _, -, rfl⟩ := hshare
  exact if_pos hx

/-- On a file with no segment larger than its memory, it is the `execve` of the program in the file. -/
theorem prepare_refines (h : s.prepare mem old retval inode = .ok s')
    (hsane : ∀ k l, s.kernel.taskAlloc mem old (s.kernel.sched.task s.kernel.curtask).pid = some k →
      (⟨k.paging, s.mem, 0, 0, []⟩ : Loader).loadIcode (k.mm mem.task) (s.ramStart (s.iInode inode)) = (.done, l) →
      ∀ x ∈ Loader.segments l.log, x.filesz ≤ x.memsz) :
    ∃ prog, s.kernel.execve mem old prog = some s'.kernel := by
  obtain ⟨-, -, s₁, hcreate, hshare⟩ := prepare_ok h
  obtain ⟨k, l, hk, -, hload, rfl⟩ := taskCreate_some hcreate
  have hprog := Loader.loadIcode_refines rfl rfl rfl hload (hsane k l hk hload)
  refine ⟨Loader.segments l.log, ?_⟩
  simp only [share, bind_eq_some_iff, map_eq_some_iff] at hshare
  obtain ⟨k', hk', g, hg, rfl⟩ := hshare
  rw [Kernel.execve, Kernel.taskCreate, hk, bind_some, hprog, bind_some]
  dsimp only
  rw [if_pos rfl, bind_some]
  simp only [bind_eq_some_iff, map_eq_some_iff]
  exact ⟨k', hk', g, hg, rfl⟩

/-- A path that names no loadable program stops the kernel. -/
theorem execve_stops {argv fuel : Nat} (hres : 0 ≤ retval) (h : ¬ s.Loadable inode) :
    s.execve mem old retval inode argv fuel = if inode = 0 ∨ s.iInode inode = 0 then .fault else .panic := by
  unfold execve
  cases hp : s.prepare mem old retval inode with
  | error e => exact prepare_error hres hp
  | ok s' => exact absurd (loadable_of_prepare hp) h

end

end Machine

/-- **`execve` never fails cleanly**: a path that is found and names no loadable program is never
answered with an error. -/
theorem execve_clean_iff {s : Machine} {mem : TaskMem} {old : Task} {retval : Int} {inode argv fuel : Nat}
    (hres : 0 ≤ retval) :
    (¬ s.Loadable inode → (s.execve mem old retval inode argv fuel).Clean s) ↔ s.Loadable inode := by
  constructor
  · intro h
    refine Classical.byContradiction fun hno => ?_
    have hclean := h hno
    rw [Machine.execve_stops hres hno] at hclean
    split at hclean
    · exact hclean
    · exact hclean
  · intro h hno
    exact absurd h hno

/-! ## Small machines -/

def tinyMachine (file arg : List UInt8) : Machine where
  kernel := (blankKernel.boot firstMem blankTask onePage).getD blankKernel
  mem x := if 0xC0100000 ≤ x then file.getD (x - 0xC0100000) 0 else if 0xA000 ≤ x then arg.getD (x - 0xA000) 0 else
    (wordBytes 0xA000).getD (x - 0x9000) 0
  iInode inode := if inode = 1 then 8 else 0
  ramStart ram := if ram = 8 then 0xC0100000 else 0

def secondMem : TaskMem := ⟨80, 96, 112, 128⟩

theorem tinyMachine_loadable : (tinyMachine (tinyElf 0 0x800000 84 0x1000) []).Loadable 1 :=
  ⟨by decide, by decide, by decide, Paging.bare Paging.freeFrames, 1, rfl, by decide +kernel⟩

theorem execve_clean_iff_tiny : (tinyMachine (tinyElf 0 0x800000 84 0x1000) []).Loadable 1 ∧
    (¬ (tinyMachine (tinyElf 0 0x800000 84 0x1000) []).Loadable 1 →
      ((tinyMachine (tinyElf 0 0x800000 84 0x1000) []).execve secondMem blankTask 0 1 0x9000 9).Clean
        (tinyMachine (tinyElf 0 0x800000 84 0x1000) [])) := by
  have hload := tinyMachine_loadable
  generalize tinyMachine (tinyElf 0 0x800000 84 0x1000) [] = s at hload ⊢
  exact ⟨hload, (execve_clean_iff (by decide)).mpr hload⟩

/-- A file without the magic is loadable in no state. -/
theorem not_loadable {s : Machine} {inode : Nat} (h : ld32 s.mem (s.ramStart (s.iInode inode)) ≠ elfMagic) :
    ¬ s.Loadable inode := by
  intro hload
  obtain ⟨-, -, -, g, t, -, hdone⟩ := hload
  unfold Loader.loadIcode at hdone
  rw [if_pos h] at hdone
  cases hdone

/-- The text `ls` fails the assertion, and a directory is read through `NULL`. -/
theorem execve_text_panics :
    ((tinyMachine [108, 115] []).execve secondMem blankTask 0 1 0x9000 9 = .panic ∧
      (tinyMachine [108, 115] []).execve secondMem blankTask 0 2 0x9000 9 = .fault) ∧
      ¬ (¬ (tinyMachine [108, 115] []).Loadable 1 →
        ((tinyMachine [108, 115] []).execve secondMem blankTask 0 1 0x9000 9).Clean
        (tinyMachine [108, 115] [])) := by
  have htext : ¬ (tinyMachine [108, 115] []).Loadable 1 := not_loadable (by decide)
  have hdir : ¬ (tinyMachine [108, 115] []).Loadable 2 := fun h => h.2.1 rfl
  have hpanic : (tinyMachine [108, 115] []).execve secondMem blankTask 0 1 0x9000 9 = _ :=
    Machine.execve_stops (le_refl 0) htext
  have hfault : (tinyMachine [108, 115] []).execve secondMem blankTask 0 2 0x9000 9 = _ :=
    Machine.execve_stops (le_refl 0) hdir
  rw [if_neg (by decide)] at hpanic
  rw [if_pos (by decide)] at hfault
  refine ⟨⟨hpanic, hfault⟩, fun h => ?_⟩
  have hclean := h htext
  rw [hpanic] at hclean
  exact hclean

end MiniOS
