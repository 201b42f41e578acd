import MiniOS.Process

/-!
# Runs of user programs

What happens to the page tables while programs run: `task_create` loads one, `execve` puts the
arguments on its stack, and then come page faults, `brk`, `fork`, `exit` and stores. The areas of a
task are a list in the order of their starts, and `find_vma` is the first of them that ends behind
the address. They are copied and deleted in any order, and `brk` moves the end of the heap as it likes.
-/

namespace MiniOS

namespace Paging

variable (s : Paging)

/-- The memory of `task_create`; what fails in it ends in an assertion. -/
def taskCreate (t : Nat) (prog : List Segment) : Option Paging :=
  match s.pageAlloc with
  | (none, _) => none
  | (some p, g) => ((g.newMm t 0 p).loadIcode t prog).bind fun (ok, g) => if ok then some g else none

def growHeap (t endData : Nat) : Paging :=
  let sp := s.mm t
  s.setMm t { sp with mmap := sp.mmap.map fun b =>
    if b.vmStart = sp.startBrk then { b with vmEnd := endData } else b }

/-- Whether an access of user mode faults. The kernel's half is for the supervisor only. -/
def Faults (t va : Nat) (write : Bool) : Prop :=
  kernelBaseAddr ≤ va ∨ (s.mm t).pte (va / pageSize) = none ∨
    write = true ∧ ∃ p, (s.mm t).pte (va / pageSize) = some ⟨p, false⟩

theorem taskCreate_some {s s' : Paging} {t : Nat} {prog : List Segment} (h : s.taskCreate t prog = some s') :
    ∃ p g, s.pageAlloc = (some p, g) ∧ (g.newMm t 0 p).loadIcode t prog = some (true, s') := by
  unfold taskCreate at h
  split at h
  · cases h
  next p g ha =>
  simp only [Option.bind_eq_some_iff, Prod.exists] at h
  obtain ⟨ok, g', hl, h⟩ := h
  cases ok with
  | false => cases h
  | true =>
    cases h
    exact ⟨p, g, ha, hl⟩

end Paging

inductive UserStep : Paging → Paging → Prop
  | create {s s' : Paging} {t : Nat} {prog : List Segment} : t ∉ s.tasks → (∀ g ∈ prog, g.va < 2 ^ 32) →
      s.taskCreate t prog = some s' → UserStep s s'
  | pushArgs {s s' : Paging} {t cur : Nat} : t ∈ s.tasks → cur ∈ s.tasks →
    s.pushArgs t cur = some s' → UserStep s s'
  | fault {s s' : Paging} {t va : Nat} {write : Bool} : t ∈ s.tasks → s.Faults t va write →
      s.faultIn t va write ((s.mm t).findVma va) = some (true, s') → UserStep s s'
  | kill {s g s' : Paging} {t va : Nat} {write : Bool} {l : List Area} : t ∈ s.tasks → s.Faults t va write →
      s.faultIn t va write ((s.mm t).findVma va) = some (false, g) → l.Perm (s.mm t).mmap →
      g.exitAreas t l = some s' → UserStep s s'
  | brk {s : Paging} {t : Nat} (endData : Nat) : t ∈ s.tasks → UserStep s (s.growHeap t endData)
  | fork {s s' : Paging} {t child : Nat} {l : List Area} {back : List Area → List Area} : t ∈ s.tasks →
      child ∉ s.tasks → l.Perm (s.mm t).mmap → (∀ l, (back l).Perm l) → s.forkAlong t child l back = some s' →
      UserStep s s'
  | exit {s s' : Paging} {t : Nat} {l : List Area} : t ∈ s.tasks → l.Perm (s.mm t).mmap →
      s.exitAreas t l = some s' → UserStep s s'
  | memory {s : Paging} (mem : Nat → Nat → Nat) : UserStep s { s with mem := mem }
  | oracle {s : Paging} (answers : List Nat) (kmallocs : List Bool) :
      UserStep s { s with answers := answers, kmallocs := kmallocs }

structure Paging.Start (s : Paging) : Prop where
  tasks : s.tasks = ∅
  nref : ∀ p, s.nref p = 0
  nodup : s.free.Nodup

inductive UserRun (P : Paging → Prop) : Paging → Prop
  | start {s : Paging} : s.Start → P s → UserRun P s
  | step {s s' : Paging} : UserRun P s → UserStep s s' → P s' → UserRun P s'

theorem UserRun.last {P : Paging → Prop} {s : Paging} (h : UserRun P s) : P s := by
  cases h with
  | start _ hp => exact hp
  | step _ _ hp => exact hp

/-- An induction over a run: what one step preserves. -/
theorem UserRun.invariant {P I : Paging → Prop} {s : Paging} (hstart : ∀ s : Paging, s.Start → I s)
    (hstep : ∀ s s', P s → I s → UserStep s s' → P s' → I s') (h : UserRun P s) : I s := by
  induction h with
  | start h₀ _ => exact hstart _ h₀
  | step h hs hp ih => exact hstep _ _ h.last ih hs hp

end MiniOS
