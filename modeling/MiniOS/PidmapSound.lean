import MiniOS.Pidmap
import Mathlib.Data.Finset.Card
import Mathlib.Data.Finset.Range
import Mathlib.Logic.Relation

/-!
# Pids in use

Runs of `alloc_pidmap` and `free_pidmap`, with the set of pids that are given out. The
bitmap and the counter agree with that set; the search for a free pid does not go back
below the last one it found.
-/

namespace MiniOS

open Finset Relation

inductive PidStep : Pidmap × Finset Nat → Pidmap × Finset Nat → Prop
  | alloc {m m' : Pidmap} {A : Finset Nat} {r : Int} : m.allocPidmap = (r, m') →
      PidStep (m, A) (m', if 0 ≤ r then insert r.toNat A else A)
  | free {m : Pidmap} {A : Finset Nat} {pid : Nat} : pid ∈ A → PidStep (m, A) (m.freePidmap pid, A.erase pid)

structure PidsInUse (m : Pidmap) (A : Finset Nat) : Prop where
  bound : ∀ pid ∈ A, pid < bitsPerPage
  bits : ∀ pid < bitsPerPage, m.used pid = true ↔ pid ∈ A
  nrFree : m.nrFree = bitsPerPage - A.card

namespace PidsInUse

variable {m m' : Pidmap} {A : Finset Nat} {pid : Nat} {r : Int}

theorem subset (h : PidsInUse m A) : A ⊆ range bitsPerPage := fun pid hp => mem_range.mpr (h.bound pid hp)

theorem card_le (h : PidsInUse m A) : A.card ≤ bitsPerPage := by
  have := card_le_card h.subset
  rwa [card_range] at this

theorem free_iff (h : PidsInUse m A) (hp : pid < bitsPerPage) : m.used pid = false ↔ pid ∉ A := by
  rw [← h.bits pid hp, Bool.not_eq_true]

theorem nrFree_eq_zero (h : PidsInUse m A) : m.nrFree = 0 ↔ A = range bitsPerPage := by
  have hle := h.card_le
  rw [h.nrFree]
  constructor
  · intro hz
    refine eq_of_subset_of_card_le h.subset ?_
    rw [card_range]
    omega
  · intro e
    rw [e, card_range, Nat.sub_self]

theorem start : PidsInUse Pidmap.start ∅ where
  bound pid hp := absurd hp (notMem_empty pid)
  bits pid _ := by simp [Pidmap.used, Pidmap.start, pageBit]
  nrFree := rfl

theorem alloc (h : PidsInUse m A) (ha : m.allocPidmap = (r, m')) :
    (r = -1 ∧ m' = m ∧ ¬ m.Available) ∨ ∃ pid : Nat, r = pid ∧ pid < bitsPerPage ∧ pid ∉ A ∧ m'.lastPid = pid ∧
      PidsInUse m' (insert pid A) := by
  rcases Pidmap.allocPidmap_cases ha with hno | ⟨pid, rfl, hlt, -, -, hfree, hav, hn, hlast, hused⟩
  · exact .inl hno
  have hnot := (h.free_iff hlt).mp hfree
  refine .inr ⟨pid, rfl, hlt, hnot, hlast, fun i hi => ?_, fun i hi => ?_, ?_⟩
  · rcases mem_insert.mp hi with rfl | hi
    · exact hlt
    · exact h.bound i hi
  · rw [hused, mem_insert]
    by_cases e : i = pid
    · simp [e]
    · simp [e, h.bits i hi]
  · have hpos := hav.1
    have hb : bitsPerPage < 2 ^ 32 := by decide
    rw [h.nrFree] at hn hpos
    rw [hn, wsub_of_le (by omega) (by omega), card_insert_of_notMem hnot]
    omega

theorem free (h : PidsInUse m A) (hp : pid ∈ A) : PidsInUse (m.freePidmap pid) (A.erase pid) where
  bound i hi := h.bound i (mem_of_mem_erase hi)
  bits i hi := by
    rw [Pidmap.freePidmap_used (h.bound pid hp), mem_erase]
    by_cases e : i = pid
    · simp [e]
    · simp [e, h.bits i hi]
  nrFree := by
    have hcard := card_erase_of_mem hp
    have hpos := card_pos.mpr ⟨pid, hp⟩
    have hle := h.card_le
    have hb : bitsPerPage < 2 ^ 32 := by decide
    show wrap (m.nrFree + 1) = _
    rw [h.nrFree, hcard, wrap_of_lt (by omega)]
    omega

end PidsInUse

section
variable {m m' : Pidmap} {A A' : Finset Nat} {r : Int}

theorem pidStep_inUse (hs : PidStep (m, A) (m', A')) (h : PidsInUse m A) : PidsInUse m' A' := by
  cases hs with
  | free hp => exact h.free hp
  | alloc ha =>
    rcases h.alloc ha with ⟨rfl, rfl, -⟩ | ⟨pid, rfl, -, -, -, h'⟩
    · exact h
    · rwa [if_pos (Int.natCast_nonneg pid), Int.toNat_natCast]

theorem pidRun_inUse (hrun : ReflTransGen PidStep (Pidmap.start, ∅) (m, A)) : PidsInUse m A := by
  generalize hx : (m, A) = x at hrun
  induction hrun generalizing m A with
  | refl =>
    cases hx
    exact .start
  | tail _ hs ih =>
    cases hx
    exact pidStep_inUse hs (ih rfl)

theorem pidRun_range : ∀ n ≤ bitsPerPage, ∃ m, ReflTransGen PidStep (Pidmap.start, ∅) (m, range n) ∧
    m.lastPid = n - 1
  | 0, _ => ⟨Pidmap.start, .refl, rfl⟩
  | n + 1, hn => by
    obtain ⟨m, hrun, hlast⟩ := pidRun_range n (by omega)
    have h := pidRun_inUse hrun
    have hfirst : m.first = n := by
      rw [Pidmap.first, hlast, Int.sub_add_cancel]
      exact Pidmap.offsetOf_of_lt hn
    have hfree : m.nrFree ≠ 0 := by
      rw [h.nrFree, card_range]
      omega
    obtain ⟨m', ha, -, hlast', -⟩ := Pidmap.allocPidmap_first hfree (by
      rw [hfirst]
      exact (h.free_iff hn).mpr notMem_range_self)
    rw [hfirst] at ha hlast'
    refine ⟨m', ?_, by omega⟩
    have hs := PidStep.alloc (A := range n) ha
    rw [if_pos (Int.natCast_nonneg n), Int.toNat_natCast, ← range_add_one] at hs
    exact hrun.tail hs

/-- **Pid accounting.** -/
theorem pid_accounting (hrun : ReflTransGen PidStep (Pidmap.start, ∅) (m, A)) :
    (∀ pid ∈ A, pid < bitsPerPage) ∧ (∀ pid < bitsPerPage, m.used pid = true ↔ pid ∈ A) ∧
      m.nrFree = bitsPerPage - A.card ∧ ∀ r m', m.allocPidmap = (r, m') →
        (0 ≤ r ∧ r < bitsPerPage ∧ r.toNat ∉ A) ∨ (r = -1 ∧ m' = m) := by
  have h := pidRun_inUse hrun
  refine ⟨h.bound, h.bits, h.nrFree, fun r m' ha => ?_⟩
  rcases h.alloc ha with ⟨hr, hm, -⟩ | ⟨pid, rfl, hlt, hnot, -⟩
  · exact .inr ⟨hr, hm⟩
  · exact .inl ⟨Int.natCast_nonneg pid, Int.ofNat_lt.mpr hlt, hnot⟩

theorem pid_accounting_two : ∃ m, ReflTransGen PidStep (Pidmap.start, ∅) (m, range 2) ∧
    m.used 1 = true ∧ m.used 2 = false ∧ m.nrFree = 32766 := by
  obtain ⟨m, hrun, -⟩ := pidRun_range 2 (by decide)
  obtain ⟨-, hbits, hfree, -⟩ := pid_accounting hrun
  refine ⟨m, hrun, (hbits 1 (by decide)).mpr (by decide), ?_, hfree⟩
  exact Bool.eq_false_iff.mpr fun h => absurd ((hbits 2 (by decide)).mp h) (by decide)

/-! ## Running out of pids -/

def Pidmap.FailsFull (m : Pidmap) (A : Finset Nat) : Prop :=
  m.allocPidmap.1 = -1 → A = range bitsPerPage ∧ m.nrFree = 0

/-- The search starts behind the last pid it found and ends at the last of all pids. -/
theorem pid_available (hrun : ReflTransGen PidStep (Pidmap.start, ∅) (m, A)) :
    m.FailsFull A ↔
      ((∃ pid < bitsPerPage, pid ∉ A) → ∃ pid, m.first ≤ pid ∧ pid < bitsPerPage ∧ pid ∉ A) := by
  have h := pidRun_inUse hrun
  cases ha : m.allocPidmap with | mk r m'
  rw [Pidmap.FailsFull, ha]
  rcases Pidmap.allocPidmap_cases ha with ⟨hr, -, hno⟩ | ⟨pid, rfl, hlt, hle, -, hfree, -⟩
  · constructor
    · rintro hfull ⟨pid, hlt, hnot⟩
      rw [(hfull hr).1] at hnot
      exact absurd (mem_range.mpr hlt) hnot
    · intro hnext _
      have hz : m.nrFree = 0 := by
        refine Classical.byContradiction fun hz => ?_
        have hne : ∃ pid < bitsPerPage, pid ∉ A := by
          refine Classical.byContradiction fun hall => hz (h.nrFree_eq_zero.mpr ?_)
          refine Finset.Subset.antisymm h.subset fun pid hp => ?_
          exact Classical.byContradiction fun hn => hall ⟨pid, mem_range.mp hp, hn⟩
        obtain ⟨pid, hle, hlt, hnot⟩ := hnext hne
        exact hno ⟨hz, pid, hle, hlt, (h.free_iff hlt).mpr hnot⟩
      exact ⟨h.nrFree_eq_zero.mp hz, hz⟩
  · refine iff_of_true (fun e => absurd e (by omega)) fun _ => ⟨pid, hle, hlt, (h.free_iff hlt).mp hfree⟩

theorem pid_available_two : ∃ m, ReflTransGen PidStep (Pidmap.start, ∅) (m, range 2) ∧
    m.FailsFull (range 2) := by
  obtain ⟨m, hrun, hlast⟩ := pidRun_range 2 (by decide)
  refine ⟨m, hrun, (pid_available hrun).mpr fun _ => ⟨2, ?_, by decide, by decide⟩⟩
  rw [Pidmap.first, hlast]
  decide

/-- All pids are in use, the one before the last is freed and found again, and then pid `0` is freed:
the search looks at the last pid only. -/
theorem pid_search_stops : ∃ m A, ReflTransGen PidStep (Pidmap.start, ∅) (m, A) ∧ 0 ∉ A ∧
    m.allocPidmap.1 = -1 ∧ ¬ m.FailsFull A := by
  obtain ⟨m, hrun, hlast⟩ := pidRun_range bitsPerPage (Nat.le_refl _)
  have h := pidRun_inUse hrun
  have hmem : ∀ {pid}, pid < bitsPerPage → pid ∈ range bitsPerPage := mem_range.mpr
  have hfreed := h.free (hmem (show 32766 < bitsPerPage by decide))
  cases ha : (m.freePidmap (32766 : Nat)).allocPidmap with | mk r m'
  -- the cursor is back at `0`, and 32766 is all there is
  obtain ⟨e, hlast'⟩ : r = (32766 : Nat) ∧ m'.lastPid = (32766 : Nat) := by
    rcases hfreed.alloc ha with ⟨-, -, hno⟩ | ⟨pid, rfl, hlt, hnot, hl, -⟩
    · refine absurd ⟨?_, 32766, ?_, by decide, ?_⟩ hno
      · rw [hfreed.nrFree, card_erase_of_mem (hmem (by decide)), card_range]
        decide
      · rw [Pidmap.first, show (m.freePidmap (32766 : Nat)).lastPid = m.lastPid from rfl, hlast]
        decide
      · exact (hfreed.free_iff (by decide)).mpr (notMem_erase _ _)
    · obtain rfl : pid = 32766 := Classical.byContradiction fun hne => hnot (mem_erase.mpr ⟨hne, hmem hlt⟩)
      exact ⟨rfl, hl⟩
  have hs := PidStep.alloc (A := (range bitsPerPage).erase 32766) ha
  rw [e, if_pos (Int.natCast_nonneg _), Int.toNat_natCast, insert_erase (hmem (by decide))] at hs
  have hrun' := ((hrun.tail (.free (hmem (show 32766 < bitsPerPage by decide)))).tail hs).tail
    (.free (hmem (show 0 < bitsPerPage by decide)))
  have h' := pidRun_inUse hrun'
  have hfirst : (m'.freePidmap (0 : Nat)).first = 32767 := by
    rw [Pidmap.first, show (m'.freePidmap (0 : Nat)).lastPid = m'.lastPid from rfl, hlast']
    decide
  have hzero : 0 ∉ (range bitsPerPage).erase 0 := notMem_erase _ _
  have hfail : (m'.freePidmap (0 : Nat)).allocPidmap.1 = -1 := by
    cases hb : (m'.freePidmap (0 : Nat)).allocPidmap with | mk r' m''
    rcases Pidmap.allocPidmap_cases hb with ⟨hr, -⟩ | ⟨pid, -, hlt, hle, -, hfree, -⟩
    · exact hr
    · refine absurd (mem_erase.mpr ⟨?_, hmem hlt⟩) ((h'.free_iff hlt).mp hfree)
      omega
  refine ⟨_, _, hrun', hzero, hfail, fun hfull => ?_⟩
  rw [(hfull hfail).1] at hzero
  exact hzero (hmem (by decide))

end

end MiniOS
