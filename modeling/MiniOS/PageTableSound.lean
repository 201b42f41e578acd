import MiniOS.PageTable
import MiniOS.RefCount

/-!
# The page table is a map

Whatever the geometry, the tables of a page directory form a radix tree of
distinct frames, and `page_walk`, `page_insert` and `page_remove` act on the
entries as on a map from pages to frames and permissions.
-/

namespace MiniOS

open Function List Option PageConfig PageMem

/-! ## Entries -/

theorem perm_lt {perm : Nat} (h : perm &&& 0xFFF = perm) : perm < 2 ^ pageShift := by
  rw [← h]
  exact Nat.and_lt_two_pow _ (by decide)

section
variable {p perm : Nat}

theorem entry_shift (h : perm &&& 0xFFF = perm) : (p <<< pageShift ||| perm) >>> pageShift = p := by
  rw [← Nat.shiftLeft_add_eq_or_of_lt (perm_lt h), Nat.shiftLeft_eq, Nat.shiftRight_eq_div_pow, Nat.mul_comm,
    Nat.mul_add_div (Nat.two_pow_pos _), Nat.div_eq_of_lt (perm_lt h), Nat.add_zero]

theorem entry_and (h : perm &&& 0xFFF = perm) : (p <<< pageShift ||| perm) &&& 0xFFF = perm := by
  have hmod : ∀ x, x &&& 0xFFF = x % 2 ^ pageShift := fun x => Nat.and_two_pow_sub_one_eq_mod x 12
  rw [← Nat.shiftLeft_add_eq_or_of_lt (perm_lt h), Nat.shiftLeft_eq, hmod, Nat.mul_comm, Nat.mul_add_mod,
    Nat.mod_eq_of_lt (perm_lt h)]

theorem entry_ne_zero (h : perm ≠ 0) : p <<< pageShift ||| perm ≠ 0 := fun e => h (Nat.or_eq_zero_iff.mp e).2

theorem roundDown_shiftLeft (p : Nat) : roundDown (p <<< pageShift) pageSize = p <<< pageShift := by
  rw [roundDown, Nat.shiftLeft_eq, show (2 : Nat) ^ pageShift = pageSize from rfl, Nat.mul_mod_left, Nat.sub_zero]

theorem roundDown_entry (e : Nat) : roundDown e pageSize = (e >>> pageShift) * pageSize := by
  rw [roundDown, Nat.shiftRight_eq_div_pow, show (2 : Nat) ^ pageShift = pageSize from rfl]
  exact Nat.sub_eq_of_eq_add (Nat.div_add_mod' e pageSize).symm

end

/-! ## Paths -/

namespace PageConfig

variable {c : PageConfig} {va va' : Nat}

theorem path_length (c : PageConfig) (va va' : Nat) : (c.path va).length = (c.path va').length := by
  cases c with
  | level2 => rfl
  | level3 => rfl

theorem path_eq_iff (hva : va < 2 ^ 32) (hva' : va' < 2 ^ 32) :
    c.path va = c.path va' ∧ c.pteIndex va = c.pteIndex va' ↔ va / pageSize = va' / pageSize := by
  have h10 : ∀ x, x &&& (1024 - 1) = x % 1024 := fun x => Nat.and_two_pow_sub_one_eq_mod x 10
  have h9 : ∀ x, x &&& (512 - 1) = x % 512 := fun x => Nat.and_two_pow_sub_one_eq_mod x 9
  have h2 : ∀ x, x &&& (4 - 1) = x % 4 := fun x => Nat.and_two_pow_sub_one_eq_mod x 2
  cases c with
  | level2 =>
    simp only [path, pgdIndex, pteIndex, ptrsPerPgd, ptrsPerPte, pgdirShift, pageShift, h10,
      Nat.shiftRight_eq_div_pow, List.cons.injEq, and_true, pageSize]
    omega
  | level3 =>
    simp only [path, pgdIndex, pmdIndex, pteIndex, ptrsPerPgd, ptrsPerPmd, ptrsPerPte, pgdirShift,
      pmdShift, pageShift, h9, h2, Nat.shiftRight_eq_div_pow, List.cons.injEq, and_true, pageSize]
    omega

def pathsOf (c : PageConfig) (U : Set Nat) : Set (List Nat) := { p | ∃ va ∈ U, p <+: c.path va }

section
variable {U : Set Nat} {p : List Nat} {k : Nat}

theorem path_mem_pathsOf (h : va ∈ U) : c.path va ∈ c.pathsOf U := ⟨va, h, prefix_refl _⟩

theorem pathsOf_of_concat (h : p ++ [k] ∈ c.pathsOf U) : p ∈ c.pathsOf U := by
  obtain ⟨va, hva, hp⟩ := h
  exact ⟨va, hva, (prefix_append p [k]).trans hp⟩

theorem path_ne_of_pathsOf (h : p ++ [k] ∈ c.pathsOf U) : c.path va ≠ p := by
  obtain ⟨va', -, hp⟩ := h
  intro e
  have h₁ := hp.length_le
  have h₂ := c.path_length va va'
  rw [e] at h₂
  simp only [length_append, length_singleton] at h₁
  omega

end

theorem userPaths_eq (c : PageConfig) : c.userPaths = c.pathsOf {va | va < kernelBaseAddr} := rfl

theorem path_mem (h : va < kernelBaseAddr) : c.path va ∈ c.userPaths :=
  path_mem_pathsOf (U := {va | va < kernelBaseAddr}) h

theorem mem_of_concat (p : List Nat) (k : Nat) (h : p ++ [k] ∈ c.userPaths) : p ∈ c.userPaths := by
  rw [userPaths_eq] at h ⊢
  exact pathsOf_of_concat h

end PageConfig

/-! ## Tables -/

namespace PageMem

variable {s s' : PageMem} {c : PageConfig} {pgd f k e p va : Nat} {x : EntryPtr}

theorem write_entry_self (s : PageMem) (f k e : Nat) : (s.write (f, k) e).entry f k = e := by simp [write]

theorem write_entry_of_ne (s : PageMem) {f k g j : Nat} (e : Nat) (h : g = f → j ≠ k) :
    (s.write (f, k) e).entry g j = s.entry g j := by
  by_cases eg : g = f
  · subst eg
    simp [write, h rfl]
  · simp [write, eg]

theorem child_eq_none : s.child f k = none ↔ s.entry f k = 0 := by
  unfold child
  split
  · exact iff_of_true rfl ‹_›
  · exact iff_of_false (by simp) ‹_›

theorem child_of_ne (h : s.entry f k ≠ 0) : s.child f k = some (s.entry f k >>> pageShift) := if_neg h

theorem pteAt_of_follow (h : follow s.child pgd (c.path va) = some f) :
    s.pteAt c pgd va = s.entry f (c.pteIndex va) := by
  simp only [pteAt, h]

theorem pteAt_of_none (h : follow s.child pgd (c.path va) = none) : s.pteAt c pgd va = 0 := by
  simp only [pteAt, h]

theorem pteAt_page (s : PageMem) (c : PageConfig) (pgd : Nat) {va va' : Nat} (hva : va < 2 ^ 32)
    (hva' : va' < 2 ^ 32) (h : va / pageSize = va' / pageSize) : s.pteAt c pgd va = s.pteAt c pgd va' := by
  obtain ⟨h₁, h₂⟩ := (path_eq_iff (c := c) hva hva').mpr h
  unfold pteAt
  rw [h₁, h₂]

/-- A frame the direct mapping reaches. -/
def Normal (s : PageMem) (p : Nat) : Prop := p < s.maxPfn ∧ p * pageSize < normalAddr

structure Data (c : PageConfig) (pgd : Nat) (s : PageMem) (p : Nat) : Prop where
  taken : p ∉ s.free
  normal : s.Normal p
  noTable : ∀ q ∈ c.userPaths, follow s.child pgd q ≠ some p

theorem Normal.congr (h : s.Normal p) (hmax : s'.maxPfn = s.maxPfn) : s'.Normal p := ⟨by rw [hmax]; exact h.1, h.2⟩

theorem Data.congr (h : s.Data c pgd p) (hp : p ∉ s'.free) (hmax : s'.maxPfn = s.maxPfn)
    (hfollow : ∀ q ∈ c.userPaths, follow s'.child pgd q = follow s.child pgd q) : s'.Data c pgd p where
  taken := hp
  normal := h.normal.congr hmax
  noTable q hq := by rw [hfollow q hq]; exact h.noTable q hq

def frameAt (c : PageConfig) (pgd : Nat) (s : PageMem) (v : Nat) : Option Nat :=
  if ptePresent (s.pteAt c pgd (v * pageSize)) then some (s.pteAt c pgd (v * pageSize) >>> pageShift) else none

def maps (c : PageConfig) (pgd : Nat) (s : PageMem) (p : Nat) : Nat :=
  refs (Finset.range (kernelBaseAddr / pageSize)) (s.frameAt c pgd) p

end PageMem

open PageMem in
/-- The tables are taken frames, each behind one entry, and pages are mapped to
data frames. -/
structure Tabled (c : PageConfig) (pgd : Nat) (s : PageMem) : Prop where
  radix : Radix s.child pgd c.userPaths
  table : ∀ p ∈ c.userPaths, ∀ f, follow s.child pgd p = some f → f ∉ s.free ∧ s.Normal f
  target : ∀ va < kernelBaseAddr, ptePresent (s.pteAt c pgd va) = true →
    s.Data c pgd (s.pteAt c pgd va >>> pageShift)

/-- `held` is a frame with one reference more than pages are mapped to it. -/
structure TableInv (c : PageConfig) (pgd : Nat) (held : Option Nat) (s : PageMem) :
    Prop extends Tabled c pgd s where
  holds : ∀ p ∈ held, s.Data c pgd p
  count : ∀ p, (s.maps c pgd p : Int) + hits held p ≤ s.nref p
  nodup : s.free.Nodup
  free : ∀ p ∈ s.free, s.Normal p

structure Walked (c : PageConfig) (pgd : Nat) (held : Option Nat) (s s' : PageMem) : Prop where
  inv : TableInv c pgd held s'
  pte : ∀ va < kernelBaseAddr, s'.pteAt c pgd va = s.pteAt c pgd va
  nref : ∀ p ∉ s.free, s'.nref p = s.nref p
  free : ∀ p ∈ s'.free, p ∈ s.free
  data : ∀ p, s.Data c pgd p → s'.Data c pgd p
  tables : ∀ q ∈ c.userPaths, ∀ f, follow s.child pgd q = some f → follow s'.child pgd q = some f
  maxPfn : s'.maxPfn = s.maxPfn

section
variable {s s' s'' : PageMem} {c : PageConfig} {pgd f k e p va n perm : Nat} {held : Option Nat}
    {q : List Nat} {page : Nat}

theorem Walked.trans (h : Walked c pgd held s s') (h' : Walked c pgd held s' s'') : Walked c pgd held s s'' where
  inv := h'.inv
  pte va hva := (h'.pte va hva).trans (h.pte va hva)
  nref p hp := (h'.nref p fun hm => hp (h.free p hm)).trans (h.nref p hp)
  free p hp := h.free p (h'.free p hp)
  data p hp := h'.data p (h.data p hp)
  tables q hq f hf := h'.tables q hq f (h.tables q hq f hf)
  maxPfn := h'.maxPfn.trans h.maxPfn

theorem Walked.refl (h : TableInv c pgd held s) : Walked c pgd held s s :=
  ⟨h, fun _ _ => rfl, fun _ _ => rfl, fun _ => id, fun _ => id, fun _ _ _ => id, rfl⟩

theorem Walked.answers (h : TableInv c pgd held s) (l : List Nat) : Walked c pgd held s { s with answers := l } :=
  have hdata (p : Nat) (hd : s.Data c pgd p) : PageMem.Data c pgd { s with answers := l } p :=
    hd.congr hd.taken rfl fun _ _ => rfl
  ⟨⟨⟨h.radix, h.table, fun va hva hp => hdata _ (h.target va hva hp)⟩, fun p hp => hdata p (h.holds p hp),
    h.count, h.nodup, h.free⟩, fun _ _ => rfl, fun _ _ => rfl, fun _ => id, hdata, fun _ _ _ => id, rfl⟩

theorem pageNo_lt (hva : va < kernelBaseAddr) : va / pageSize < kernelBaseAddr / pageSize := by
  unfold kernelBaseAddr pageSize at *
  omega

theorem page_addr {v : Nat} (hv : v < kernelBaseAddr / pageSize) :
    v * pageSize < kernelBaseAddr ∧ v * pageSize / pageSize = v := by
  refine ⟨?_, Nat.mul_div_cancel v (by decide)⟩
  unfold kernelBaseAddr pageSize at *
  omega

theorem maps_congr (h : ∀ va < kernelBaseAddr, s'.pteAt c pgd va = s.pteAt c pgd va) (p : Nat) :
    s'.maps c pgd p = s.maps c pgd p := by
  refine refs_congr fun v hv => ?_
  unfold frameAt
  rw [h _ (page_addr (Finset.mem_range.mp hv)).1]

/-! ## Walking -/

structure NewTable (s s' : PageMem) (f k n perm : Nat) : Prop where
  entry : s'.entry f k = n <<< pageShift ||| perm
  new : ∀ j, s'.entry n j = 0
  old : ∀ g j, g ≠ n → (g = f → j ≠ k) → s'.entry g j = s.entry g j

/-- The frame is cleared before the entry is written. -/
theorem newTable_write (hfn : f ≠ n) {t : PageMem} (ht : t.entry = update s.entry n fun _ => 0) :
    NewTable s (t.write (f, k) (n <<< pageShift ||| perm)) f k n perm := by
  refine ⟨write_entry_self .., fun j => ?_, fun g j hg hgj => ?_⟩
  · rw [write_entry_of_ne _ _ fun e => absurd e.symm hfn, ht]
    exact congrFun (update_self n _ s.entry) j
  · rw [write_entry_of_ne _ _ hgj, ht]
    exact congrFun (update_of_ne hg _ s.entry) j

namespace NewTable

variable {U : Set Nat} {q : List Nat}

theorem follows (hp : NewTable s s' f k n perm) (h : Radix s.child pgd (c.pathsOf U)) (hq : q ++ [k] ∈ c.pathsOf U)
    (hf : follow s.child pgd q = some f) (hz : s.entry f k = 0)
    (hn : ∀ r ∈ c.pathsOf U, follow s.child pgd r ≠ some n)
    (hperm : perm &&& 0xFFF = perm) (hp₀ : perm ≠ 0) : ∀ r ∈ c.pathsOf U,
      (r = q ++ [k] → follow s'.child pgd r = some n) ∧
      (r ≠ q ++ [k] → follow s'.child pgd r = follow s.child pgd r) := by
  have hchild : s'.child f k = some n := by
    rw [child_of_ne (by rw [hp.entry]; exact entry_ne_zero hp₀), hp.entry, entry_shift hperm]
  exact h.follow_grow hq hf (child_eq_none.mpr hz) hn hchild (fun j => child_eq_none.mpr (hp.new j))
    (fun g j hgn hgj => by unfold child; rw [hp.old g j hgn hgj])

theorem pteAt (hp : NewTable s s' f k n perm) (h : Radix s.child pgd (c.pathsOf U)) (hq : q ++ [k] ∈ c.pathsOf U)
    (hf : follow s.child pgd q = some f) (hz : s.entry f k = 0)
    (hn : ∀ r ∈ c.pathsOf U, follow s.child pgd r ≠ some n)
    (hfollow : ∀ r ∈ c.pathsOf U, (r = q ++ [k] → follow s'.child pgd r = some n) ∧
      (r ≠ q ++ [k] → follow s'.child pgd r = follow s.child pgd r)) (hva : va ∈ U) :
    s'.pteAt c pgd va = s.pteAt c pgd va := by
  have hpath := path_mem_pathsOf (c := c) hva
  by_cases e : c.path va = q ++ [k]
  · have hnone : follow s.child pgd (c.path va) = none := by
      rw [e, follow_concat, hf]
      exact child_eq_none.mpr hz
    rw [pteAt_of_follow ((hfollow _ hpath).1 e), hp.new, pteAt_of_none hnone]
  · have hsame := (hfollow _ hpath).2 e
    cases hfg : follow s.child pgd (c.path va) with
    | none => rw [pteAt_of_none (hsame.trans hfg), pteAt_of_none hfg]
    | some g =>
      rw [pteAt_of_follow (hsame.trans hfg), pteAt_of_follow hfg]
      refine hp.old g _ (fun eg => hn _ hpath (eg ▸ hfg)) fun eg => ?_
      exact absurd (h.inj _ hpath q (pathsOf_of_concat hq) f (eg ▸ hfg) hf) (path_ne_of_pathsOf hq)

end NewTable

structure Grown (s s' : PageMem) (f k n perm : Nat) : Prop where
  entry : s'.entry f k = n <<< pageShift ||| perm
  new : ∀ j, s'.entry n j = 0
  old : ∀ g j, g ≠ n → (g = f → j ≠ k) → s'.entry g j = s.entry g j
  free : s'.free = s.free.erase n
  maxPfn : s'.maxPfn = s.maxPfn
  nref : s'.nref = update s.nref n (s.nref n + 1)

theorem grown_write (hfn : f ≠ n) {l : List Nat} (hs' : s' = ({ s with
      free := s.free.erase n, entry := update s.entry n fun _ => 0, answers := l }.atomicInc n).write (f, k)
        (n <<< pageShift ||| perm)) : Grown s s' f k n perm := by
  have hnew : NewTable s s' f k n perm := by
    rw [hs']
    exact newTable_write hfn rfl
  refine ⟨hnew.entry, hnew.new, hnew.old, ?_, ?_, ?_⟩
  all_goals rw [hs']; rfl

def FollowsNew (c : PageConfig) (pgd : Nat) (s s' : PageMem) (p : List Nat) (n : Nat) : Prop :=
  ∀ r ∈ c.userPaths, (r = p → follow s'.child pgd r = some n) ∧
    (r ≠ p → follow s'.child pgd r = follow s.child pgd r)

namespace Grown

variable {q : List Nat}

theorem newTable (hg : Grown s s' f k n perm) : NewTable s s' f k n perm := ⟨hg.entry, hg.new, hg.old⟩

theorem follows (hg : Grown s s' f k n perm) (h : TableInv c pgd held s) (hq : q ++ [k] ∈ c.userPaths)
    (hf : follow s.child pgd q = some f) (hz : s.entry f k = 0) (hn : n ∈ s.free) (hperm : perm &&& 0xFFF = perm)
    (hp₀ : perm ≠ 0) : FollowsNew c pgd s s' (q ++ [k]) n :=
  hg.newTable.follows h.radix hq hf hz (fun r hr e => (h.table r hr n e).1 hn) hperm hp₀

theorem pteAt (hg : Grown s s' f k n perm) (h : TableInv c pgd held s) (hq : q ++ [k] ∈ c.userPaths)
    (hf : follow s.child pgd q = some f) (hz : s.entry f k = 0) (hn : n ∈ s.free)
    (hfollow : FollowsNew c pgd s s' (q ++ [k]) n) (hva : va < kernelBaseAddr) :
    s'.pteAt c pgd va = s.pteAt c pgd va :=
  hg.newTable.pteAt (U := {va | va < kernelBaseAddr}) h.radix hq hf hz
    (fun r hr e => (h.table r hr n e).1 hn) hfollow hva

theorem mem_free (hg : Grown s s' f k n perm) (hp : p ∈ s'.free) : p ∈ s.free := mem_of_mem_erase (hg.free ▸ hp)

theorem data (hg : Grown s s' f k n perm) (hn : n ∈ s.free) {path : List Nat}
    (hfollow : FollowsNew c pgd s s' path n) (hp : s.Data c pgd p) : s'.Data c pgd p := by
  refine ⟨fun hm => hp.taken (hg.mem_free hm), hp.normal.congr hg.maxPfn, fun r hr e => ?_⟩
  by_cases er : r = path
  · rw [(hfollow r hr).1 er] at e
    exact hp.taken (some.inj e ▸ hn)
  · rw [(hfollow r hr).2 er] at e
    exact hp.noTable r hr e

theorem tabled (hg : Grown s s' f k n perm) (h : TableInv c pgd held s) (hn : n ∈ s.free)
    (hfollow : FollowsNew c pgd s s' (q ++ [k]) n)
    (hpte : ∀ va < kernelBaseAddr, s'.pteAt c pgd va = s.pteAt c pgd va) : Tabled c pgd s' := by
  refine ⟨h.radix.grow (fun r hr e => (h.table r hr n e).1 hn) hfollow, fun r hr g hfg => ?_, fun va hva hp => ?_⟩
  · by_cases er : r = q ++ [k]
    · rw [(hfollow r hr).1 er, some.injEq] at hfg
      subst hfg
      exact ⟨by rw [hg.free]; exact fun hm => (h.nodup.mem_erase_iff.mp hm).1 rfl, (h.free _ hn).congr hg.maxPfn⟩
    · rw [(hfollow r hr).2 er] at hfg
      exact ⟨fun hm => (h.table r hr g hfg).1 (hg.mem_free hm), (h.table r hr g hfg).2.congr hg.maxPfn⟩
  · rw [hpte va hva] at hp ⊢
    exact hg.data hn hfollow (h.target va hva hp)

theorem count (hg : Grown s s' f k n perm) (h : TableInv c pgd held s)
    (hpte : ∀ va < kernelBaseAddr, s'.pteAt c pgd va = s.pteAt c pgd va) (p : Nat) :
    (s'.maps c pgd p : Int) + hits held p ≤ s'.nref p := by
  have := h.count p
  rw [maps_congr hpte, hg.nref]
  by_cases e : p = n
  · subst e; rw [update_self]; omega
  · rw [update_of_ne e]; exact this

end Grown

theorem grow_spec (h : TableInv c pgd held s) (hq : q ++ [k] ∈ c.userPaths)
    (hf : follow s.child pgd q = some f) (hz : s.entry f k = 0) (hn : n ∈ s.free) (hperm : perm &&& 0xFFF = perm)
    (hp₀ : perm ≠ 0) {l : List Nat} (hs' : s' = ({ s with
      free := s.free.erase n, entry := update s.entry n fun _ => 0, answers := l }.atomicInc n).write (f, k)
        (n <<< pageShift ||| perm)) :
    Walked c pgd held s s' ∧ follow s'.child pgd (q ++ [k]) = some n := by
  have hg : Grown s s' f k n perm := grown_write (fun e => (h.table q (c.mem_of_concat q k hq) f hf).1 (e ▸ hn)) hs'
  have hfollow := hg.follows h hq hf hz hn hperm hp₀
  have hpte : ∀ va < kernelBaseAddr, s'.pteAt c pgd va = s.pteAt c pgd va := fun va hva =>
    hg.pteAt h hq hf hz hn hfollow hva
  have hdata : ∀ p, s.Data c pgd p → s'.Data c pgd p := fun p => hg.data hn hfollow
  refine ⟨⟨⟨hg.tabled h hn hfollow hpte, fun p hp => hdata p (h.holds p hp), hg.count h hpte, ?_,
    fun p hp => (h.free p (hg.mem_free hp)).congr hg.maxPfn⟩, hpte, fun p hp => ?_, fun p => hg.mem_free, hdata,
    fun r hr g hfg => ?_, hg.maxPfn⟩, (hfollow _ hq).1 rfl⟩
  · rw [hg.free]; exact h.nodup.erase n
  · have hne : p ≠ n := fun e => hp (e ▸ hn)
    rw [hg.nref, update_of_ne hne]
  · rw [(hfollow r hr).2 fun e => ?_]
    · exact hfg
    · rw [e, follow_concat, hf, bind_some, child_eq_none.mpr hz] at hfg
      cases hfg

theorem entrySet_eq (s : PageMem) (x : EntryPtr) (p : Nat) (h : perm &&& 0xFFF = perm) :
    s.entrySet x (p <<< pageShift) perm = some (s.write x (p <<< pageShift ||| perm)) := by
  unfold entrySet
  rw [if_neg (not_not.mpr (roundDown_shiftLeft p)), if_neg (not_not.mpr h)]

theorem page2phys_eq (h : s.Normal p) : s.page2phys p = some (p <<< pageShift) := if_neg (Nat.not_le.mpr h.1)

theorem getPte_spec (h : TableInv c pgd held s) (hq : q ++ [k] ∈ c.userPaths)
    (hf : follow s.child pgd q = some f) (hz : s.entry f k = 0) (hperm : perm &&& 0xFFF = perm) (hp₀ : perm ≠ 0) :
    ∃ ok s', s.getPte (f, k) perm = some (ok, s') ∧ Walked c pgd held s s' ∧
      (ok = true → ∃ n, follow s'.child pgd (q ++ [k]) = some n) := by
  unfold getPte pagesAlloc
  cases ha : s.answers with
  | nil => exact ⟨false, s, rfl, .refl h, nofun⟩
  | cons n rest =>
    by_cases hn : n ∈ s.free
    · have hset : ({ s with
          free := s.free.erase n, entry := update s.entry n fun _ => 0, answers := rest }.atomicInc n).pmdSet
            (f, k) (n <<< pageShift) perm = _ := entrySet_eq _ (f, k) n hperm
      have hphys : ({ s with
          free := s.free.erase n, entry := update s.entry n fun _ => 0, answers := rest }.atomicInc n).page2phys
            n = _ := page2phys_eq (h.free n hn)
      simp only [if_pos hn, hphys, hset, bind_eq_bind, bind_some]
      obtain ⟨hw, hfol⟩ := grow_spec h hq hf hz hn hperm hp₀ (l := rest) rfl
      exact ⟨true, _, rfl, hw, fun _ => ⟨n, hfol⟩⟩
    · simp only [if_neg hn]
      exact ⟨false, _, rfl, .answers h rest, nofun⟩

def pmdPerm (c : PageConfig) (perm : Nat) : Nat :=
  match c with
  | .level3 => perm &&& ((2 ^ 32 - 1) ^^^ (pageRw ||| pageUser))
  | .level2 => perm

theorem getPmd_eq (c : PageConfig) (s : PageMem) (x : EntryPtr) (perm : Nat) :
    s.getPmd c x perm = s.getPte x (pmdPerm c perm) := by
  cases c with
  | level2 => rfl
  | level3 => rfl

theorem pageVaddr_table (h : Tabled c pgd s) (hq : q ++ [k] ∈ c.userPaths)
    (hf : follow s.child pgd q = some f) (hn : follow s.child pgd (q ++ [k]) = some n) :
    s.val (f, k) ≠ 0 ∧ pageVaddr (s.val (f, k)) = some n := by
  have hnormal := (h.table _ hq n hn).2
  rw [follow_concat, hf, bind_some] at hn
  have hne : s.entry f k ≠ 0 := fun e => by rw [child_eq_none.mpr e] at hn; cases hn
  rw [child_of_ne hne, some.injEq] at hn
  refine ⟨hne, ?_⟩
  unfold pageVaddr
  rw [roundDown_entry, show s.val (f, k) >>> pageShift = n from hn, if_neg (Nat.not_le.mpr hnormal.2)]

theorem step_spec (h : TableInv c pgd held s) (hq : q ++ [k] ∈ c.userPaths)
    (hf : follow s.child pgd q = some f) (hperm : perm &&& 0xFFF = perm) (hp₀ : perm ≠ 0) :
    ∃ ok s', (if s.val (f, k) = 0 then s.getPte (f, k) perm else some (true, s)) = some (ok, s') ∧
      Walked c pgd held s s' ∧ (ok = true → ∃ n, follow s'.child pgd (q ++ [k]) = some n) := by
  by_cases hz : s.val (f, k) = 0
  · rw [if_pos hz]
    exact getPte_spec h hq hf hz hperm hp₀
  · rw [if_neg hz]
    refine ⟨true, s, rfl, .refl h, fun _ => ⟨s.entry f k >>> pageShift, ?_⟩⟩
    rw [follow_concat, hf]
    exact child_of_ne hz

theorem walkPerm (c : PageConfig) : pmdPerm c (pagePresent ||| pageRw ||| pageUser) &&& 0xFFF =
    pmdPerm c (pagePresent ||| pageRw ||| pageUser) ∧ pmdPerm c (pagePresent ||| pageRw ||| pageUser) ≠ 0 := by
  cases c with
  | level2 => decide
  | level3 => decide

theorem pteOffset_eq {x : EntryPtr} (hx : pageVaddr (s.val x) = some n) :
    s.pteOffset c x va = if va = 0 then none else some (n, c.pteIndex va) := by
  unfold pteOffset
  rw [hx, map_some]

/-- `page_walk` with `create` answers the entry of the address, or fails on the way;
at address `0` the assertion of `pte_offset` may come first. -/
theorem pageWalk_create (h : TableInv c pgd held s) (hva : va < kernelBaseAddr) :
    (va = 0 ∧ s.pageWalk c pgd va true = none) ∨ ∃ r s', s.pageWalk c pgd va true = some (r, s') ∧
      Walked c pgd held s s' ∧
      ∀ x, r = some x → ∃ f, follow s'.child pgd (c.path va) = some f ∧ x = (f, c.pteIndex va) := by
  obtain ⟨hperm, hp₀⟩ := walkPerm c
  have hroot : [] ++ [c.pgdIndex va] ∈ c.userPaths := by
    refine ⟨va, hva, ?_⟩
    cases c with
    | level2 => exact prefix_refl _
    | level3 => exact ⟨[level3.pmdIndex va], rfl⟩
  obtain ⟨ok, s₁, h₁, hw₁, hn₁⟩ := step_spec (f := pgd) h hroot rfl hperm hp₀
  unfold pageWalk
  simp only [Bool.true_eq_false, and_false, if_false, getPmd_eq, pgdOffset, h₁, bind_some]
  cases ok with
  | false => exact .inr ⟨none, s₁, rfl, hw₁, nofun⟩
  | true =>
    obtain ⟨n, hn⟩ := hn₁ rfl
    obtain ⟨hne, hvaddr⟩ := pageVaddr_table hw₁.inv.toTabled hroot rfl hn
    simp only [Bool.true_eq_false, if_false]
    cases c with
    | level2 =>
      simp only [pmdOffset, bind_some, hne, if_false, pteOffset_eq hvaddr, Bool.true_eq_false]
      by_cases hva₀ : va = 0
      · exact .inl ⟨hva₀, by rw [if_pos hva₀, map_none]⟩
      · rw [if_neg hva₀]
        exact .inr ⟨_, s₁, rfl, hw₁, fun x e => ⟨n, hn, (some.inj e).symm⟩⟩
    | level3 =>
      have hmid : [level3.pgdIndex va] ++ [level3.pmdIndex va] ∈ level3.userPaths :=
        path_mem hva
      obtain ⟨ok, s₂, h₂, hw₂, hm₂⟩ := step_spec hw₁.inv hmid hn
        (show (pagePresent ||| pageRw ||| pageUser) &&& 0xFFF = _ by decide) (by decide)
      simp only [pmdOffset, hvaddr, map_some, bind_some, h₂]
      cases ok with
      | false => exact .inr ⟨none, s₂, rfl, hw₁.trans hw₂, nofun⟩
      | true =>
        obtain ⟨m, hm⟩ := hm₂ rfl
        obtain ⟨-, hvaddr'⟩ := pageVaddr_table hw₂.inv.toTabled hmid (hw₂.tables _ hroot n hn) hm
        simp only [Bool.true_eq_false, if_false, pteOffset_eq hvaddr']
        by_cases hva₀ : va = 0
        · exact .inl ⟨hva₀, by rw [if_pos hva₀, map_none]⟩
        · rw [if_neg hva₀]
          exact .inr ⟨_, s₂, rfl, hw₁.trans hw₂, fun x e => ⟨m, hm, (some.inj e).symm⟩⟩

theorem look_cases (h : Tabled c pgd s) (hq : q ++ [k] ∈ c.userPaths)
    (hf : follow s.child pgd q = some f) : (s.val (f, k) = 0 ∧ follow s.child pgd (q ++ [k]) = none) ∨
      (s.val (f, k) ≠ 0 ∧ ∃ n, follow s.child pgd (q ++ [k]) = some n ∧ pageVaddr (s.val (f, k)) = some n) := by
  have hc : follow s.child pgd (q ++ [k]) = s.child f k := by rw [follow_concat, hf]; rfl
  by_cases hz : s.val (f, k) = 0
  · exact .inl ⟨hz, hc.trans (child_eq_none.mpr hz)⟩
  · have hn := hc.trans (child_of_ne hz)
    exact .inr ⟨hz, _, hn, (pageVaddr_table h hq hf hn).2⟩

theorem pageWalk_look (h : Tabled c pgd s) (hva : va < kernelBaseAddr) (hva₀ : va ≠ 0) :
    s.pageWalk c pgd va false = some ((follow s.child pgd (c.path va)).map fun f => (f, c.pteIndex va), s) := by
  have hpath := c.path_mem hva
  unfold pageWalk
  simp only [and_true, pgdOffset]
  cases c with
  | level2 =>
    have hroot : [] ++ [level2.pgdIndex va] ∈ level2.userPaths := hpath
    rcases look_cases (f := pgd) h hroot rfl with ⟨hz, hn⟩ | ⟨hne, n, hn, hvaddr⟩
    · rw [if_pos hz, show follow s.child pgd (level2.path va) = none from hn, map_none]
    · simp only [hne, if_false, bind_some, pmdOffset, Bool.true_eq_false, pteOffset_eq hvaddr,
        map_some, hva₀]
      rw [show follow s.child pgd (level2.path va) = some n from hn, map_some]
  | level3 =>
    have hroot : [] ++ [level3.pgdIndex va] ∈ level3.userPaths :=
      ⟨va, hva, ⟨[level3.pmdIndex va], rfl⟩⟩
    have hmid : [level3.pgdIndex va] ++ [level3.pmdIndex va] ∈ level3.userPaths := hpath
    have hsplit : follow s.child pgd (level3.path va) =
        (follow s.child pgd [level3.pgdIndex va]).bind fun g => s.child g (level3.pmdIndex va) :=
      follow_concat _ _ _ [level3.pgdIndex va]
    rcases look_cases (f := pgd) h hroot rfl with ⟨hz, hn⟩ | ⟨hne, n, hn, hvaddr⟩
    · rw [if_pos hz, hsplit, show follow s.child pgd [level3.pgdIndex va] = none from hn, bind_none,
        map_none]
    · simp only [hne, if_false, bind_some, pmdOffset, Bool.true_eq_false, hvaddr, map_some]
      rcases look_cases h hmid hn with ⟨hz, hm⟩ | ⟨hne', m, hm, hvaddr'⟩
      · rw [if_pos hz, show follow s.child pgd (level3.path va) = none from hm, map_none]
      · simp only [hne', if_false, bind_some, Bool.true_eq_false, pteOffset_eq hvaddr', map_some, hva₀]
        rw [show follow s.child pgd (level3.path va) = some m from hm, map_some]

/-! ## One entry -/

theorem write_pathsOf {U : Set Nat} (hU : ∀ va ∈ U, va < 2 ^ 32) (h : Radix s.child pgd (c.pathsOf U))
    (hva : va ∈ U) (hf : follow s.child pgd (c.path va) = some f) (e : Nat) :
    (∀ q ∈ c.pathsOf U, follow (s.write (f, c.pteIndex va) e).child pgd q = follow s.child pgd q) ∧
      (s.write (f, c.pteIndex va) e).pteAt c pgd va = e ∧ ∀ va' ∈ U, va' / pageSize ≠ va / pageSize →
        (s.write (f, c.pteIndex va) e).pteAt c pgd va' = s.pteAt c pgd va' := by
  have hpath := path_mem_pathsOf (c := c) hva
  have hsame : ∀ q ∈ c.pathsOf U, follow (s.write (f, c.pteIndex va) e).child pgd q = follow s.child pgd q := by
    refine h.same fun q k g hq hg => ?_
    have hne : g ≠ f := by
      rintro rfl
      exact path_ne_of_pathsOf hq (h.inj _ hpath q (pathsOf_of_concat hq) g hf hg)
    unfold child
    rw [write_entry_of_ne s e fun eg => absurd eg hne]
  refine ⟨hsame, ?_, fun va' hva' hne => ?_⟩
  · rw [pteAt_of_follow ((hsame _ hpath).trans hf), write_entry_self]
  · have hpath' := path_mem_pathsOf (c := c) hva'
    cases hg : follow s.child pgd (c.path va') with
    | none => rw [pteAt_of_none ((hsame _ hpath').trans hg), pteAt_of_none hg]
    | some g =>
      rw [pteAt_of_follow ((hsame _ hpath').trans hg), pteAt_of_follow hg]
      refine write_entry_of_ne s e fun eg ej => hne ?_
      refine (path_eq_iff (c := c) (hU va' hva') (hU va hva)).mp ⟨?_, ej⟩
      exact h.inj _ hpath' _ hpath f (eg ▸ hg) hf

theorem write_spec (h : Radix s.child pgd c.userPaths) (hva : va < kernelBaseAddr)
    (hf : follow s.child pgd (c.path va) = some f)
    (e : Nat) : (∀ q ∈ c.userPaths, follow (s.write (f, c.pteIndex va) e).child pgd q = follow s.child pgd q) ∧
      (s.write (f, c.pteIndex va) e).pteAt c pgd va = e ∧ ∀ va' < kernelBaseAddr, va' / pageSize ≠ va / pageSize →
        (s.write (f, c.pteIndex va) e).pteAt c pgd va' = s.pteAt c pgd va' :=
  write_pathsOf (U := {va | va < kernelBaseAddr}) (fun _ hlt => hlt.trans (by decide)) h hva hf e

theorem child_congr (h : s'.entry = s.entry) : s'.child = s.child := by
  unfold child
  rw [h]

theorem pteAt_congr (h : s'.entry = s.entry) (va : Nat) : s'.pteAt c pgd va = s.pteAt c pgd va := by
  unfold pteAt
  rw [child_congr h, h]

theorem pageDecref_entry (s : PageMem) (p : Nat) : (s.pageDecref p).entry = s.entry := by
  unfold pageDecref
  dsimp only
  split
  · rfl
  · rfl

def PageMem.unmapAt (s : PageMem) (x : EntryPtr) : PageMem :=
  if ptePresent (s.val x) then (s.pageDecref (s.val x >>> pageShift)).write x 0 else s

theorem pageRemove_eq (h : Tabled c pgd s) (hva : va < kernelBaseAddr) (hva₀ : va ≠ 0) :
    s.pageRemove c pgd va = some (match follow s.child pgd (c.path va) with
      | none => s
      | some f => s.unmapAt (f, c.pteIndex va)) := by
  unfold pageRemove pageLookup
  rw [if_neg hva₀, if_neg hva₀, pageWalk_look h hva hva₀]
  cases hf : follow s.child pgd (c.path va) with
  | none => rfl
  | some f =>
    simp only [map_some, bind_some]
    unfold unmapAt
    by_cases hp : ptePresent (s.val (f, c.pteIndex va)) = true
    · have hpte : s.pteAt c pgd va = s.val (f, c.pteIndex va) := pteAt_of_follow hf
      have hn := (h.target va hva (by rw [hpte]; exact hp)).normal
      rw [hpte] at hn
      have hvaddr : pageVaddr (s.val (f, c.pteIndex va)) = some (s.val (f, c.pteIndex va) >>> pageShift) := by
        unfold pageVaddr
        rw [roundDown_entry, if_neg (Nat.not_le.mpr hn.2)]
      have hpage : s.virt2page (s.val (f, c.pteIndex va) >>> pageShift) =
          some (s.val (f, c.pteIndex va) >>> pageShift) :=
        if_neg (Nat.not_le.mpr hn.1)
      simp only [hp, if_true, hvaddr, bind_some, hpage, map_some]
      exact entrySet_eq _ (f, c.pteIndex va) 0 (by decide)
    · simp only [hp, if_false, bind_some, Bool.false_eq_true]

theorem unmapAt_spec (h : Radix s.child pgd c.userPaths) (hva : va < kernelBaseAddr)
    (hf : follow s.child pgd (c.path va) = some f) (hs' : s' = s.unmapAt (f, c.pteIndex va)) :
    (∀ q ∈ c.userPaths, follow s'.child pgd q = follow s.child pgd q) ∧
      ptePresent (s'.pteAt c pgd va) = false ∧ ∀ va' < kernelBaseAddr, va' / pageSize ≠ va / pageSize →
        s'.pteAt c pgd va' = s.pteAt c pgd va' := by
  by_cases hp : ptePresent (s.val (f, c.pteIndex va)) = true
  · have hentry : s'.entry = (s.write (f, c.pteIndex va) 0).entry := by
      rw [hs', unmapAt, if_pos hp]
      unfold write
      rw [pageDecref_entry]
    obtain ⟨h₁, h₂, h₃⟩ := write_spec h hva hf 0
    refine ⟨fun q hq => by rw [child_congr hentry]; exact h₁ q hq, ?_, fun va' hva' hne => ?_⟩
    · rw [pteAt_congr hentry, h₂]; rfl
    · rw [pteAt_congr hentry, h₃ va' hva' hne]
  · have hsame : s' = s := by rw [hs', unmapAt, if_neg hp]
    rw [hsame]
    refine ⟨fun _ _ => rfl, ?_, fun _ _ _ => rfl⟩
    rw [pteAt_of_follow hf]
    exact Bool.eq_false_iff.mpr hp

theorem maps_set (hva : va < kernelBaseAddr)
    (h : ∀ va' < kernelBaseAddr, va' / pageSize ≠ va / pageSize → s'.pteAt c pgd va' = s.pteAt c pgd va')
    (p : Nat) : s'.maps c pgd p + hits (s.frameAt c pgd (va / pageSize)) p =
      s.maps c pgd p + hits (s'.frameAt c pgd (va / pageSize)) p := by
  refine refs_set (Finset.mem_range.mpr (pageNo_lt hva)) (fun v hv hne => ?_) p
  obtain ⟨h₁, h₂⟩ := page_addr (Finset.mem_range.mp hv)
  unfold frameAt
  rw [h _ h₁ (by rw [h₂]; exact hne)]

theorem frameAt_page (s : PageMem) (hva : va < kernelBaseAddr) : s.frameAt c pgd (va / pageSize) =
    if ptePresent (s.pteAt c pgd va) then some (s.pteAt c pgd va >>> pageShift) else none := by
  obtain ⟨h₁, h₂⟩ := page_addr (pageNo_lt hva)
  have hk : kernelBaseAddr = 0xC0000000 := rfl
  unfold frameAt
  rw [s.pteAt_page c pgd (by omega) (by omega) h₂]

theorem maps_pos (hva : va < kernelBaseAddr) (hp : ptePresent (s.pteAt c pgd va) = true) :
    0 < s.maps c pgd (s.pteAt c pgd va >>> pageShift) := by
  refine refs_pos.mpr ⟨va / pageSize, Finset.mem_range.mpr (pageNo_lt hva), ?_⟩
  rw [frameAt_page s hva, if_pos hp]

/-! ## References -/

theorem pageDecref_free (s : PageMem) (p : Nat) :
    (s.pageDecref p).free = if s.nref p - 1 = 0 then p :: s.free else s.free := by
  unfold pageDecref
  simp only [update_self]
  split
  · rfl
  · rfl

theorem pageDecref_nref (s : PageMem) (p : Nat) : (s.pageDecref p).nref = update s.nref p (s.nref p - 1) := by
  unfold pageDecref
  simp only [update_self]
  split
  · rfl
  · rfl

theorem pageDecref_maxPfn (s : PageMem) (p : Nat) : (s.pageDecref p).maxPfn = s.maxPfn := by
  unfold pageDecref
  dsimp only
  split
  · rfl
  · rfl

theorem mem_pageDecref (h : n ∈ (s.pageDecref p).free) : n ∈ s.free ∨ n = p ∧ s.nref p - 1 = 0 := by
  rw [pageDecref_free] at h
  split at h
  next hz =>
    rcases mem_cons.mp h with e | h
    · exact .inr ⟨e, hz⟩
    · exact .inl h
  · exact .inl h

theorem pageDecref_nodup (h : s.free.Nodup) (hp : p ∉ s.free) : (s.pageDecref p).free.Nodup := by
  rw [pageDecref_free]
  split
  · exact nodup_cons.mpr ⟨hp, h⟩
  · exact h

theorem unmapAt_maxPfn (s : PageMem) (x : EntryPtr) : (s.unmapAt x).maxPfn = s.maxPfn := by
  unfold unmapAt
  split
  · exact pageDecref_maxPfn ..
  · rfl

structure Unmapped (c : PageConfig) (pgd : Nat) (s s' : PageMem) (va p : Nat) : Prop where
  follows : ∀ q ∈ c.userPaths, follow s'.child pgd q = follow s.child pgd q
  gone : ptePresent (s'.pteAt c pgd va) = false
  other : ∀ va' < kernelBaseAddr, va' / pageSize ≠ va / pageSize → s'.pteAt c pgd va' = s.pteAt c pgd va'
  frame : s.frameAt c pgd (va / pageSize) = some p
  nref : s'.nref = update s.nref p (s.nref p - 1)
  free : s'.free = (s.pageDecref p).free
  maxPfn : s'.maxPfn = s.maxPfn

theorem unmapped_unmapAt (h : Radix s.child pgd c.userPaths) (hva : va < kernelBaseAddr)
    (hf : follow s.child pgd (c.path va) = some f) (hp : ptePresent (s.pteAt c pgd va) = true) :
    Unmapped c pgd s (s.unmapAt (f, c.pteIndex va)) va (s.pteAt c pgd va >>> pageShift) := by
  have hpte : s.pteAt c pgd va = s.val (f, c.pteIndex va) := pteAt_of_follow hf
  obtain ⟨hfollow, hgone, hother⟩ := unmapAt_spec h hva hf rfl
  have hdef : s.unmapAt (f, c.pteIndex va) = (s.pageDecref (s.pteAt c pgd va >>> pageShift)).write
      (f, c.pteIndex va) 0 := by
    rw [unmapAt, ← hpte, if_pos hp]
  refine ⟨hfollow, hgone, hother, by rw [frameAt_page s hva, if_pos hp], ?_, ?_, unmapAt_maxPfn ..⟩
  · rw [hdef]; exact pageDecref_nref ..
  · rw [hdef]; rfl

namespace Unmapped

theorem maps (hu : Unmapped c pgd s s' va p) (hva : va < kernelBaseAddr) (q : Nat) :
    s'.maps c pgd q + hits (some p) q = s.maps c pgd q := by
  have := maps_set hva hu.other q
  rwa [hu.frame, frameAt_page s' hva, if_neg (by rw [hu.gone]; simp), hits_none, Nat.add_zero] at this

theorem count (hu : Unmapped c pgd s s' va p) (h : TableInv c pgd held s) (hva : va < kernelBaseAddr) (q : Nat) :
    (s'.maps c pgd q : Int) + hits held q ≤ s'.nref q := by
  have h₁ := h.count q
  have h₂ := hu.maps hva q
  rw [hu.nref]
  by_cases e : q = p
  · subst e
    rw [hits_self] at h₂
    rw [update_self]; omega
  · rw [update_of_ne e]
    have : hits (some p) q = 0 := hits_of_ne fun e' => e (some.inj e').symm
    omega

-- a frame that still has references is not the one that is freed
theorem data (hu : Unmapped c pgd s s' va p) (h : TableInv c pgd held s) (hva : va < kernelBaseAddr) {q : Nat}
    (hq : s.Data c pgd q) (hpos : 0 < s'.maps c pgd q + hits held q) : s'.Data c pgd q := by
  refine hq.congr (fun hm => ?_) hu.maxPfn hu.follows
  rcases mem_pageDecref (hu.free ▸ hm) with hm | ⟨rfl, hz⟩
  · exact hq.taken hm
  · have := hu.count h hva q
    rw [hu.nref, update_self] at this
    omega

theorem tabled (hu : Unmapped c pgd s s' va p) (h : TableInv c pgd held s) (hva : va < kernelBaseAddr)
    (hp : s.Data c pgd p) : Tabled c pgd s' := by
  refine ⟨h.radix.congr hu.follows, fun q hq g hg => ?_, fun va' hva' hpres => ?_⟩
  · rw [hu.follows q hq] at hg
    obtain ⟨h₁, h₂⟩ := h.table q hq g hg
    refine ⟨fun hm => ?_, h₂.congr hu.maxPfn⟩
    rcases mem_pageDecref (hu.free ▸ hm) with hm | ⟨rfl, -⟩
    · exact h₁ hm
    · exact hp.noTable q hq hg
  · have hpos := maps_pos hva' hpres
    refine hu.data h hva ?_ (by omega)
    by_cases e : va' / pageSize = va / pageSize
    · have hk : kernelBaseAddr = 0xC0000000 := rfl
      rw [s'.pteAt_page c pgd (by omega) (by omega) e, hu.gone] at hpres
      cases hpres
    · rw [hu.other va' hva' e] at hpres ⊢
      exact h.target va' hva' hpres

end Unmapped

theorem TableInv.unmap (h : TableInv c pgd held s) (hva : va < kernelBaseAddr)
    (hf : follow s.child pgd (c.path va) = some f) : TableInv c pgd held (s.unmapAt (f, c.pteIndex va)) := by
  by_cases hp : ptePresent (s.pteAt c pgd va) = true
  · have hu := unmapped_unmapAt h.radix hva hf hp
    have htarget := h.target va hva hp
    refine ⟨hu.tabled h hva htarget, fun q hq => ?_, hu.count h hva, ?_, fun q hq => ?_⟩
    · refine hu.data h hva (h.holds q hq) ?_
      rw [hq, hits_self]; omega
    · rw [hu.free]
      exact pageDecref_nodup h.nodup htarget.taken
    · rcases mem_pageDecref (hu.free ▸ hq) with hq | ⟨rfl, -⟩
      · exact (h.free q hq).congr hu.maxPfn
      · exact htarget.normal.congr hu.maxPfn
  · rw [pteAt_of_follow hf] at hp
    have hsame : s.unmapAt (f, c.pteIndex va) = s := if_neg hp
    rw [hsame]
    exact h

theorem TableInv.inc (h : TableInv c pgd none s) (hp : s.Data c pgd p) :
    TableInv c pgd (some p) (s.atomicInc p) where
  radix := h.radix
  table := h.table
  target va hva hpres := (h.target va hva hpres).congr (h.target va hva hpres).taken rfl fun _ _ => rfl
  holds q hq := by
    obtain rfl := some.inj hq
    exact hp.congr hp.taken rfl fun _ _ => rfl
  count q := by
    have h₁ := h.count q
    rw [hits_none] at h₁
    have hmaps : (s.atomicInc p).maps c pgd q = s.maps c pgd q := rfl
    have hnref : (s.atomicInc p).nref = update s.nref p (s.nref p + 1) := rfl
    rw [hmaps, hnref]
    by_cases e : q = p
    · subst e
      rw [hits_self, update_self]; omega
    · rw [hits_of_ne fun e' => e (some.inj e').symm, update_of_ne e]
      exact h₁
  nodup := h.nodup
  free := h.free

theorem TableInv.place (h : TableInv c pgd (some p) s) (hva : va < kernelBaseAddr)
    (hf : follow s.child pgd (c.path va) = some f) (hnone : ptePresent (s.pteAt c pgd va) = false)
    (hperm : perm &&& 0xFFF = perm) :
    TableInv c pgd none (s.write (f, c.pteIndex va) (p <<< pageShift ||| perm)) := by
  obtain ⟨hfollow, hself, hother⟩ := write_spec h.radix hva hf (p <<< pageShift ||| perm)
  generalize hs' : s.write (f, c.pteIndex va) (p <<< pageShift ||| perm) = s' at *
  have hnref : s'.nref = s.nref := by rw [← hs']; rfl
  have hfree : s'.free = s.free := by rw [← hs']; rfl
  have hmax : s'.maxPfn = s.maxPfn := by rw [← hs']; rfl
  have hdata : ∀ q, s.Data c pgd q → s'.Data c pgd q := fun q hq => hq.congr (hfree ▸ hq.taken) hmax hfollow
  refine ⟨⟨h.radix.congr hfollow, fun q hq g hg => ?_, fun va' hva' hpres => ?_⟩,
    fun q hq => (nomatch hq), fun q => ?_, hfree ▸ h.nodup, fun q hq => ?_⟩
  · rw [hfollow q hq] at hg
    rw [hfree]
    exact ⟨(h.table q hq g hg).1, (h.table q hq g hg).2.congr hmax⟩
  · by_cases e : va' / pageSize = va / pageSize
    · have hk : kernelBaseAddr = 0xC0000000 := rfl
      rw [s'.pteAt_page c pgd (by omega) (by omega) e, hself, entry_shift hperm]
      exact hdata p (h.holds p rfl)
    · rw [hother va' hva' e] at hpres ⊢
      exact hdata _ (h.target va' hva' hpres)
  · have h₁ := h.count q
    have h₂ := maps_set hva hother q
    rw [frameAt_page s hva, if_neg (by rw [hnone]; simp), hits_none, Nat.add_zero, frameAt_page s' hva, hself,
      entry_shift hperm] at h₂
    rw [hnref, hits_none]
    split at h₂
    · omega
    · rw [hits_none] at h₂; omega
  · rw [hfree] at hq
    exact (h.free q hq).congr hmax

/-! ## The operations -/

theorem pageRemove_spec (h : TableInv c pgd held s) (hva : va < kernelBaseAddr) (hva₀ : va ≠ 0) :
    ∃ s', s.pageRemove c pgd va = some s' ∧ TableInv c pgd held s' ∧
      ptePresent (s'.pteAt c pgd va) = false ∧ ∀ va' < kernelBaseAddr, va' / pageSize ≠ va / pageSize →
        s'.pteAt c pgd va' = s.pteAt c pgd va' := by
  rw [pageRemove_eq h.toTabled hva hva₀]
  cases hf : follow s.child pgd (c.path va) with
  | none =>
    refine ⟨s, rfl, h, ?_, fun _ _ _ => rfl⟩
    rw [pteAt_of_none hf]
    rfl
  | some f => exact ⟨_, rfl, h.unmap hva hf, (unmapAt_spec h.radix hva hf rfl).2⟩

theorem pageInsert_eq {s₁ : PageMem} (h₁ : Tabled c pgd s₁) (hva : va < kernelBaseAddr) (hva₀ : va ≠ 0)
    (hw : s.pageWalk c pgd va true = some (some (f, c.pteIndex va), s₁))
    (hf : follow s₁.child pgd (c.path va) = some f) (page perm : Nat) :
    s.pageInsert c pgd page va perm = (((s₁.atomicInc page).unmapAt (f, c.pteIndex va)).page2phys page).bind
    fun pa =>
      (((s₁.atomicInc page).unmapAt (f, c.pteIndex va)).pteSet (f, c.pteIndex va) pa perm).map fun s =>
        (true, s) := by
  have h₂ : Tabled c pgd (s₁.atomicInc page) := ⟨h₁.radix, h₁.table, fun va hva hp =>
    (h₁.target va hva hp).congr (h₁.target va hva hp).taken rfl fun _ _ => rfl⟩
  have hrem : (s₁.atomicInc page).pageRemove c pgd va = some ((s₁.atomicInc page).unmapAt (f, c.pteIndex va)) := by
    rw [pageRemove_eq h₂ hva hva₀, show follow (s₁.atomicInc page).child pgd (c.path va) = some f from hf]
  have hif : (if ptePresent ((s₁.atomicInc page).val (f, c.pteIndex va)) then
      (s₁.atomicInc page).pageRemove c pgd va else some (s₁.atomicInc page)) =
      some ((s₁.atomicInc page).unmapAt (f, c.pteIndex va)) := by
    rw [hrem]
    unfold unmapAt
    split
    · rfl
    · rfl
  unfold pageInsert
  rw [if_neg hva₀, hw, bind_some]
  dsimp only
  rw [hif, bind_some]

theorem pageInsert_cases {ok : Bool} (h : TableInv c pgd none s) (hva : va < kernelBaseAddr) (hva₀ : va ≠ 0)
    (hi : s.pageInsert c pgd page va perm = some (ok, s')) :
    (ok = false ∧ Walked c pgd none s s') ∨ (ok = true ∧ perm &&& 0xFFF = perm ∧ ∃ s₁ f, Walked c pgd none s s₁ ∧
      follow s₁.child pgd (c.path va) = some f ∧ s' = ((s₁.atomicInc page).unmapAt (f, c.pteIndex va)).write
        (f, c.pteIndex va) (page <<< pageShift ||| perm)) := by
  obtain ⟨e, -⟩ | ⟨r, s₁, hw, hwalked, hr⟩ := pageWalk_create h hva
  · exact absurd e hva₀
  cases r with
  | none =>
    unfold pageInsert at hi
    rw [if_neg hva₀, hw, bind_some, some.injEq, Prod.mk.injEq] at hi
    obtain ⟨rfl, rfl⟩ := hi
    exact .inl ⟨rfl, hwalked⟩
  | some x =>
    obtain ⟨f, hf, rfl⟩ := hr x rfl
    rw [pageInsert_eq hwalked.inv.toTabled hva hva₀ hw hf] at hi
    simp only [bind_eq_some_iff, map_eq_some_iff, Prod.mk.injEq] at hi
    obtain ⟨pa, hpa, _, hset, rfl, rfl⟩ := hi
    have hpa' : pa = page <<< pageShift := by
      unfold page2phys at hpa
      split at hpa
      · cases hpa
      · exact (some.inj hpa).symm
    have hperm : perm &&& 0xFFF = perm := by
      by_contra hbad
      unfold pteSet entrySet at hset
      rw [hpa', if_neg (not_not.mpr (roundDown_shiftLeft page)), if_pos hbad] at hset
      cases hset
    rw [hpa', pteSet, entrySet_eq _ _ _ hperm, some.injEq] at hset
    exact .inr ⟨rfl, hperm, s₁, f, hwalked, hf, hset.symm⟩

theorem pageInsert_pte (h : TableInv c pgd none s) (hva : va < kernelBaseAddr) (hva₀ : va ≠ 0)
    (hi : s.pageInsert c pgd page va perm = some (true, s')) :
    perm &&& 0xFFF = perm ∧ s'.pteAt c pgd va = page <<< pageShift ||| perm ∧
      ∀ va' < kernelBaseAddr, va' / pageSize ≠ va / pageSize → s'.pteAt c pgd va' = s.pteAt c pgd va' := by
  rcases pageInsert_cases h hva hva₀ hi with ⟨e, -⟩ | ⟨-, hperm, s₁, f, hw, hf, rfl⟩
  · cases e
  have hrad : Radix (s₁.atomicInc page).child pgd c.userPaths := hw.inv.radix
  obtain ⟨hfol, -, hgone⟩ := unmapAt_spec hrad hva hf rfl
  obtain ⟨-, hself, hother⟩ := write_spec (hrad.congr hfol) hva ((hfol _ (c.path_mem hva)).trans hf)
    (page <<< pageShift ||| perm)
  refine ⟨hperm, hself, fun va' hva' hne => ?_⟩
  rw [hother va' hva' hne, hgone va' hva' hne]
  exact hw.pte va' hva'

theorem pageInsert_inv {ok : Bool} (h : TableInv c pgd none s) (hva : va < kernelBaseAddr) (hva₀ : va ≠ 0)
    (hd : s.Data c pgd page) (hi : s.pageInsert c pgd page va perm = some (ok, s')) : TableInv c pgd none s' := by
  rcases pageInsert_cases h hva hva₀ hi with ⟨-, hw⟩ | ⟨-, hperm, s₁, f, hw, hf, rfl⟩
  · exact hw.inv
  have hinc := hw.inv.inc (hw.data page hd)
  obtain ⟨hfol, hgone, -⟩ := unmapAt_spec hinc.radix hva hf rfl
  exact (hinc.unmap hva hf).place hva ((hfol _ (c.path_mem hva)).trans hf) hgone hperm

theorem pageInsert_total (h : TableInv c pgd none s) (hva : va < kernelBaseAddr) (hva₀ : va ≠ 0)
    (hn : page < s.maxPfn) (hperm : perm &&& 0xFFF = perm) :
    ∃ ok s', s.pageInsert c pgd page va perm = some (ok, s') := by
  obtain ⟨e, -⟩ | ⟨r, s₁, hw, hwalked, hr⟩ := pageWalk_create h hva
  · exact absurd e hva₀
  cases r with
  | none =>
    refine ⟨false, s₁, ?_⟩
    unfold pageInsert
    rw [if_neg hva₀, hw, bind_some]
  | some x =>
    obtain ⟨f, hf, rfl⟩ := hr x rfl
    have hphys : ((s₁.atomicInc page).unmapAt (f, c.pteIndex va)).page2phys page = some (page <<< pageShift) := by
      refine if_neg (Nat.not_le.mpr ?_)
      rw [unmapAt_maxPfn, show (s₁.atomicInc page).maxPfn = s.maxPfn from hwalked.maxPfn]
      exact hn
    rw [pageInsert_eq hwalked.inv.toTabled hva hva₀ hw hf, hphys, bind_some, pteSet,
      entrySet_eq _ _ _ hperm]
    exact ⟨true, _, rfl⟩

/-! ## Runs -/

structure FreshDir (c : PageConfig) (pgd : Nat) (s : PageMem) : Prop where
  empty : ∀ va < kernelBaseAddr, s.entry pgd (c.pgdIndex va) = 0
  taken : pgd ∉ s.free
  normal : s.Normal pgd
  nref : ∀ p, 0 ≤ s.nref p
  nodup : s.free.Nodup
  free : ∀ p ∈ s.free, s.Normal p

end

/-- Calls on the page directory `pgd`. Pages that are inserted are taken and are
none of its tables. `other` is the rest of the kernel, which takes and frees
frames that `pgd` does not use and keeps a reference for every mapping. -/
inductive TableStep (c : PageConfig) (pgd : Nat) : PageMem → PageMem → Prop
  | walk {s s' : PageMem} {va : Nat} {create : Bool} {r : Option EntryPtr} : va < kernelBaseAddr →
      s.pageWalk c pgd va create = some (r, s') → TableStep c pgd s s'
  | insert {s s' : PageMem} {page va perm : Nat} {ok : Bool} : va < kernelBaseAddr → s.Data c pgd page →
      s.pageInsert c pgd page va perm = some (ok, s') → TableStep c pgd s s'
  | remove {s s' : PageMem} {va : Nat} : va < kernelBaseAddr → s.pageRemove c pgd va = some s' →
    TableStep c pgd s s'
  | other {s s' : PageMem} : (∀ q ∈ c.userPaths, ∀ f, follow s.child pgd q = some f → s'.entry f = s.entry f) →
      (∀ q ∈ c.userPaths, ∀ f, follow s.child pgd q = some f → f ∉ s'.free) →
      (∀ va < kernelBaseAddr, s.Mapped c pgd va → (s.translate c pgd va).1 ∉ s'.free) →
      (∀ p, (s.maps c pgd p : Int) ≤ s'.nref p) → s'.free.Nodup → (∀ p ∈ s'.free, s.Normal p) →
      s'.maxPfn = s.maxPfn → TableStep c pgd s s'

section
variable {s s' : PageMem} {c : PageConfig} {pgd p va perm : Nat}

theorem mapped_iff (s : PageMem) : s.Mapped c pgd va ↔ ptePresent (s.pteAt c pgd va) = true := by
  unfold PageMem.Mapped PageMem.translate ptePresent
  rw [Nat.and_assoc]
  exact Iff.rfl

theorem FreshDir.follow (h : FreshDir c pgd s) {q : List Nat} (hq : q ∈ c.userPaths) (hne : q ≠ []) :
    follow s.child pgd q = none := by
  obtain ⟨va, hva, hp⟩ := hq
  obtain ⟨rest, hpath⟩ : ∃ rest, c.path va = c.pgdIndex va :: rest := by
    cases c with
    | level2 => exact ⟨_, rfl⟩
    | level3 => exact ⟨_, rfl⟩
  cases q with
  | nil => exact absurd rfl hne
  | cons k q =>
    rw [hpath, cons_prefix_cons] at hp
    rw [MiniOS.follow, hp.1, child_eq_none.mpr (h.empty va hva), bind_none]

theorem FreshDir.inv (h : FreshDir c pgd s) : TableInv c pgd none s := by
  have hroot : ∀ q ∈ c.userPaths, ∀ f, MiniOS.follow s.child pgd q = some f → q = [] ∧ f = pgd := by
    intro q hq f hf
    by_cases e : q = []
    · subst e
      exact ⟨rfl, (some.inj hf).symm⟩
    · rw [h.follow hq e] at hf
      cases hf
  have hpte : ∀ va < kernelBaseAddr, s.pteAt c pgd va = 0 := by
    intro va hva
    refine pteAt_of_none (h.follow (c.path_mem hva) fun e => ?_)
    cases c with
    | level2 => cases e
    | level3 => cases e
  refine ⟨⟨⟨c.mem_of_concat, fun q hq r hr f hf hf' => ?_⟩, fun q hq f hf => ?_, fun va hva hp => ?_⟩,
    fun p hp => (nomatch hp), fun p => ?_, h.nodup, h.free⟩
  · rw [(hroot q hq f hf).1, (hroot r hr f hf').1]
  · rw [(hroot q hq f hf).2]
    exact ⟨h.taken, h.normal⟩
  · rw [hpte va hva] at hp
    cases hp
  · have hz : s.maps c pgd p = 0 := by
      refine refs_eq_zero.mpr fun v hv e => ?_
      unfold frameAt at e
      rw [hpte _ (page_addr (Finset.mem_range.mp hv)).1] at e
      cases e
    rw [hz, hits_none]
    exact h.nref p

theorem pageWalk_state {r : Option EntryPtr} (h : s.pageWalk c pgd va false = some (r, s')) : s' = s := by
  unfold pageWalk at h
  simp only [and_true] at h
  by_cases hz : s.val (pgdOffset c pgd va) = 0
  · rw [if_pos hz, some.injEq, Prod.mk.injEq] at h
    exact h.2.symm
  · simp only [hz, if_false, bind_some, Bool.true_eq_false, bind_eq_some_iff] at h
    obtain ⟨pmd, -, h⟩ := h
    by_cases hz' : s.val pmd = 0
    · rw [if_pos hz', some.injEq, Prod.mk.injEq] at h
      exact h.2.symm
    · simp only [hz', if_false, bind_some, Bool.true_eq_false, map_eq_some_iff, Prod.mk.injEq] at h
      obtain ⟨_, -, -, e⟩ := h
      exact e.symm

theorem pageWalk_walked {create : Bool} {r : Option EntryPtr} (h : TableInv c pgd none s)
    (hva : va < kernelBaseAddr) (hw : s.pageWalk c pgd va create = some (r, s')) : Walked c pgd none s s' := by
  cases create with
  | false => rw [pageWalk_state hw]; exact .refl h
  | true =>
    rcases pageWalk_create h hva with ⟨-, e⟩ | ⟨r', s₁, hw', hwalked, -⟩
    · rw [e] at hw; cases hw
    · rw [hw', some.injEq, Prod.mk.injEq] at hw
      rw [← hw.2]
      exact hwalked

theorem ne_zero_of_insert {page : Nat} {r : Bool × PageMem} (h : s.pageInsert c pgd page va perm = some r) :
    va ≠ 0 := by
  rintro rfl
  cases h

theorem ne_zero_of_remove (h : s.pageRemove c pgd va = some s') : va ≠ 0 := by
  rintro rfl
  cases h

theorem tableStep_inv (hstep : TableStep c pgd s s') (h : TableInv c pgd none s) : TableInv c pgd none s' := by
  cases hstep with
  | walk hva hw => exact (pageWalk_walked h hva hw).inv
  | insert hva hd hi => exact pageInsert_inv h hva (ne_zero_of_insert hi) hd hi
  | remove hva hr =>
    obtain ⟨s₁, hr', hinv, -⟩ := pageRemove_spec h hva (ne_zero_of_remove hr)
    rw [hr, some.injEq] at hr'
    rw [hr']
    exact hinv
  | other htab hfree hmap hcount hnodup hnormal hmax =>
    have hfol : ∀ q ∈ c.userPaths, MiniOS.follow s'.child pgd q = MiniOS.follow s.child pgd q :=
      h.radix.same fun q k f hq hf => by
        unfold child
        rw [htab q (c.mem_of_concat q k hq) f hf]
    have hpte : ∀ va < kernelBaseAddr, s'.pteAt c pgd va = s.pteAt c pgd va := by
      intro va hva
      unfold pteAt
      rw [hfol _ (c.path_mem hva)]
      cases hf : MiniOS.follow s.child pgd (c.path va) with
      | none => rfl
      | some f => exact congrFun (htab _ (c.path_mem hva) f hf) _
    refine ⟨⟨h.radix.congr hfol, fun q hq f hf => ?_, fun va hva hp => ?_⟩, fun p hp => (nomatch hp),
      fun p => ?_, hnodup, fun p hp => ?_⟩
    · rw [hfol q hq] at hf
      exact ⟨hfree q hq f hf, (h.table q hq f hf).2.congr hmax⟩
    · rw [hpte va hva] at hp ⊢
      exact (h.target va hva hp).congr (hmap va hva ((mapped_iff s).mpr hp)) hmax hfol
    · have := hcount p
      rw [maps_congr hpte, hits_none]
      omega
    · exact (hnormal p hp).congr hmax

theorem translate_congr (h : s'.pteAt c pgd va = s.pteAt c pgd va) :
    s'.translate c pgd va = s.translate c pgd va := by
  unfold PageMem.translate
  rw [h]

theorem Walked.silent (h : TableInv c pgd none s) (hw : Walked c pgd none s s') : ∀ va < kernelBaseAddr,
    s'.translate c pgd va = s.translate c pgd va ∧
      (s.Mapped c pgd va → s'.nref (s.translate c pgd va).1 = s.nref (s.translate c pgd va).1) := by
  intro va hva
  refine ⟨translate_congr (hw.pte va hva), fun hm => hw.nref _ ?_⟩
  exact (h.target va hva ((mapped_iff s).mp hm)).taken

/-- **The page table refines a map** from pages to frames and permissions, with
two levels and with three. -/
theorem page_table_map {s₀ : PageMem} (hstart : FreshDir c pgd s₀)
    (hrun : Relation.ReflTransGen (TableStep c pgd) s₀ s) :
    (∀ page va perm s', va < kernelBaseAddr → s.pageInsert c pgd page va perm = some (true, s') →
      s'.translate c pgd va = (page, perm) ∧ ∀ va' < kernelBaseAddr, va' / pageSize ≠ va / pageSize →
        s'.translate c pgd va' = s.translate c pgd va') ∧
    (∀ va s', va < kernelBaseAddr → s.pageRemove c pgd va = some s' →
      ¬ s'.Mapped c pgd va ∧ ∀ va' < kernelBaseAddr, va' / pageSize ≠ va / pageSize →
        s'.translate c pgd va' = s.translate c pgd va') ∧
    (∀ va create r s', va < kernelBaseAddr → s.pageWalk c pgd va create = some (r, s') → ∀ va' < kernelBaseAddr,
      s'.translate c pgd va' = s.translate c pgd va' ∧
        (s.Mapped c pgd va' → s'.nref (s.translate c pgd va').1 = s.nref (s.translate c pgd va').1)) ∧
    (∀ page va perm s', va < kernelBaseAddr → s.pageInsert c pgd page va perm = some (false, s') →
      ∀ va' < kernelBaseAddr, s'.translate c pgd va' = s.translate c pgd va' ∧
        (s.Mapped c pgd va' → s'.nref (s.translate c pgd va').1 = s.nref (s.translate c pgd va').1)) ∧
    ∀ va < kernelBaseAddr, va ≠ 0 → (∃ r s', s.pageWalk c pgd va true = some (r, s')) ∧
      (∃ s', s.pageRemove c pgd va = some s') ∧ ∀ page < s.maxPfn, ∀ perm < 2 ^ pageShift,
        ∃ ok s', s.pageInsert c pgd page va perm = some (ok, s') := by
  have h : TableInv c pgd none s := by
    induction hrun with
    | refl => exact hstart.inv
    | tail _ hstep ih => exact tableStep_inv hstep ih
  refine ⟨fun page va perm s' hva hi => ?_, fun va s' hva hr => ?_,
    fun va create r s' hva hw => (pageWalk_walked h hva hw).silent h, fun page va perm s' hva hi => ?_,
    fun va hva hva₀ => ⟨?_, ?_, fun page hp perm hperm => ?_⟩⟩
  · obtain ⟨hperm, hself, hother⟩ := pageInsert_pte h hva (ne_zero_of_insert hi) hi
    refine ⟨?_, fun va' hva' hne => translate_congr (hother va' hva' hne)⟩
    unfold PageMem.translate
    rw [hself, entry_shift hperm, entry_and hperm]
  · obtain ⟨s₁, hr', -, hgone, hother⟩ := pageRemove_spec h hva (ne_zero_of_remove hr)
    rw [hr, some.injEq] at hr'
    subst hr'
    refine ⟨fun hm => ?_, fun va' hva' hne => translate_congr (hother va' hva' hne)⟩
    rw [mapped_iff, hgone] at hm
    cases hm
  · rcases pageInsert_cases h hva (ne_zero_of_insert hi) hi with ⟨-, hw⟩ | ⟨e, -⟩
    · exact hw.silent h
    · cases e
  · rcases pageWalk_create h hva with ⟨e, -⟩ | ⟨r, s', hw, -⟩
    · exact absurd e hva₀
    · exact ⟨r, s', hw⟩
  · obtain ⟨s', hr, -⟩ := pageRemove_spec h hva hva₀
    exact ⟨s', hr⟩
  · refine pageInsert_total h hva hva₀ hp ?_
    exact (Nat.and_two_pow_sub_one_eq_mod perm 12).trans (Nat.mod_eq_of_lt hperm)

end

def tinyFrames : PageMem where
  entry _ _ := 0
  nref _ := 0
  free := [6, 7, 8]
  maxPfn := 16
  answers := [6, 7, 8]

theorem tinyFrames_fresh (c : PageConfig) : FreshDir c 5 tinyFrames where
  empty _ _ := rfl
  taken := by decide
  normal := ⟨by decide, by decide⟩
  nref _ := Int.le_refl 0
  nodup := by decide
  free := by
    intro p hp
    have hlt : p < 9 := by
      revert p
      decide
    refine ⟨hlt.trans (by decide), ?_⟩
    unfold pageSize normalAddr
    omega

theorem page_table_map_tiny :
    (∃ s', tinyFrames.pageInsert .level2 5 9 0x800123 7 = some (true, s') ∧
      s'.translate .level2 5 0x800123 = (9, 7)) ∧
    ∃ s', tinyFrames.pageInsert .level3 5 9 0x800123 7 = some (true, s') ∧
    s'.translate .level3 5 0x800123 = (9, 7) := by
  have h₂ : (tinyFrames.pageInsert .level2 5 9 0x800123 7).map (fun r => r.1) = some true := by decide
  have h₃ : (tinyFrames.pageInsert .level3 5 9 0x800123 7).map (fun r => r.1) = some true := by decide
  rw [map_eq_some_iff] at h₂ h₃
  obtain ⟨⟨_, s₂⟩, h₂, rfl⟩ := h₂
  obtain ⟨⟨_, s₃⟩, h₃, rfl⟩ := h₃
  exact ⟨⟨s₂, h₂, ((page_table_map (tinyFrames_fresh _) .refl).1 _ _ _ s₂ (by decide) h₂).1⟩,
    s₃, h₃, ((page_table_map (tinyFrames_fresh _) .refl).1 _ _ _ s₃ (by decide) h₃).1⟩

end MiniOS
