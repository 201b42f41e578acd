import MiniOS.Files
import Mathlib.Data.Fintype.Prod
import Mathlib.Data.Fintype.Fin

/-!
# Reference counts of open files

Every call redirects slots and counts them. One lemma says when a redirected slot and
changed counts still agree; it serves `open`, `dup`, `dup2`, `pipe` and `exit`. The two
calls that make a task add a whole row of slots at once.
-/

namespace MiniOS

open Function List Option Relation

namespace Files

variable {s s' : Files} {t p : Nat} {i : Fin maxFile} {o : Option Nat} {j : Fin maxFile}

/-! ## Slots -/

@[simp] theorem setFd_fd_self : (s.setFd t i o).fd t i = o := by
  simp [setFd]

theorem setFd_fd_of_ne {u : Nat} (h : (u, j) ≠ (t, i)) :
    (s.setFd t i o).fd u j = s.fd u j := by
  by_cases hu : u = t
  · subst hu
    have hj : j ≠ i := fun e => h (by rw [e])
    simp [setFd, hj]
  · simp [setFd, hu]

@[simp] theorem setFd_curtask : (s.setFd t i o).curtask = s.curtask := rfl

@[simp] theorem setCount_curtask : (s.setCount p o).curtask = s.curtask := rfl

@[simp] theorem setCount_fd : (s.setCount p o).fd = s.fd := rfl

theorem setCount_fCount_self : (s.setCount p o).fCount p = o := update_self ..

theorem setCount_fCount_of_ne {q : Nat} (h : q ≠ p) : (s.setCount p o).fCount q = s.fCount q :=
  update_of_ne h ..

theorem mem_slots {u : Nat} :
    (u, j) ∈ s.live ×ˢ (Finset.univ : Finset (Fin maxFile)) ↔ u ∈ s.live := by simp

theorem uses_setFd (ht : t ∈ s.live) (p : Nat) :
    (s.setFd t i o).uses p + hits (s.fd t i) p = s.uses p + hits o p := by
  have hset := refs_set (g := fun x : Nat × Fin maxFile => (s.setFd t i o).fd x.1 x.2)
    (f := fun x => s.fd x.1 x.2) (i := (t, i)) (mem_slots.mpr ht)
    (fun x _ hx => setFd_fd_of_ne hx) p
  rw [setFd_fd_self] at hset
  exact hset

/-! ## The invariant -/

structure Good (s : Files) : Prop extends s.Counted where
  curtask : s.curtask ∈ s.live
  pids : ∀ t ∈ s.live, t < pidMax

theorem Start.good (h : s.Start) : s.Good where
  count p n hn := by rw [h.files p] at hn; cases hn
  alive t ht i p hp := by rw [h.tables t ht i] at hp; cases hp
  curtask := h.curtask
  pids := h.pids

namespace Good

theorem uses_lt (h : s.Good) (p : Nat) : s.uses p + maxFile < 2 ^ 32 := by
  have hcard : s.live.card ≤ pidMax := by
    rw [← Finset.card_range pidMax]
    exact Finset.card_le_card fun t ht => Finset.mem_range.mpr (h.pids t ht)
  have hslots : s.uses p ≤ s.live.card * maxFile := by
    calc s.uses p ≤ (s.live ×ˢ (Finset.univ : Finset (Fin maxFile))).card := refs_le_card
      _ = s.live.card * maxFile := by rw [Finset.card_product, Finset.card_univ, Fintype.card_fin]
  simp only [pidMax, maxFile] at *
  omega

theorem unused (h : s.Good) (hp : s.fCount p = none) : s.uses p = 0 := by
  rw [uses, refs_eq_zero]
  intro x hx hxp
  exact h.alive x.1 (mem_slots.mp hx) x.2 p hxp hp

theorem redirect (h : s.Good) {c : Nat → Option Nat}
    (hcount : ∀ p n, c p = some n → n + hits (s.fd s.curtask i) p = s.uses p + hits o p)
    (hself : ∀ p, o = some p → c p ≠ none)
    (hother : ∀ u ∈ s.live, ∀ j p, (u, j) ≠ (s.curtask, i) → s.fd u j = some p → c p ≠ none) :
    ({ s with fCount := c }.setFd s.curtask i o).Good where
  count p n hn := by
    have huses := uses_setFd (s := { s with fCount := c }) (i := i) (o := o) h.curtask p
    have hbefore := hcount p n hn
    have hsame : uses { s with fCount := c } p = s.uses p := rfl
    rw [hsame] at huses
    dsimp only at huses
    omega
  alive u hu j p hp := by
    by_cases hslot : (u, j) = (s.curtask, i)
    · obtain ⟨rfl, rfl⟩ := Prod.mk.inj hslot
      rw [setFd_fd_self] at hp
      exact hself p hp
    · rw [setFd_fd_of_ne hslot] at hp
      exact hother u hu j p hslot hp
  curtask := h.curtask
  pids := h.pids

theorem install (h : s.Good) (hi : s.fd s.curtask i = none) (hp : s.fCount p = none) :
    ((s.setCount p (some 1)).setFd s.curtask i (some p)).Good := by
  refine h.redirect ?_ ?_ ?_
  · intro p' n hn
    rw [hi, hits_none]
    by_cases he : p' = p
    · subst he
      rw [update_self] at hn
      rw [h.unused hp, hits_self, ← some.inj hn]
    · rw [update_of_ne he] at hn
      rw [hits_of_ne fun e => he (some.inj e).symm, h.count p' n hn]
  · rintro p' ⟨⟩
    rw [update_self]
    exact some_ne_none _
  · intro u hu j p' _ hslot
    have hne : p' ≠ p := fun e => h.alive u hu j p' hslot (e ▸ hp)
    rw [update_of_ne hne]
    exact h.alive u hu j p' hslot

theorem share (h : s.Good) (hi : s.fd s.curtask i = none)
    (hs : (s.setFd s.curtask i (some p)).incCount p = some s') : s'.Good := by
  obtain ⟨n, hn, rfl⟩ := map_eq_some_iff.mp hs
  change s.fCount p = some n at hn
  have hwrap : wrap (n + 1) = n + 1 := by
    apply wrap_of_lt
    have := h.uses_lt p
    have := h.count p n hn
    simp only [maxFile] at *
    omega
  rw [hwrap]
  refine h.redirect (c := update s.fCount p (some (n + 1))) ?_ ?_ ?_
  · intro p' m hm
    rw [hi, hits_none]
    by_cases he : p' = p
    · subst he
      rw [update_self] at hm
      rw [hits_self, ← h.count p' n hn, ← some.inj hm]
    · rw [update_of_ne he] at hm
      rw [hits_of_ne fun e => he (some.inj e).symm, h.count p' m hm]
  · rintro p' ⟨⟩
    rw [update_self]
    exact some_ne_none _
  · intro u hu j p' _ hslot
    by_cases he : p' = p
    · rw [he, update_self]
      exact some_ne_none _
    · rw [update_of_ne he]
      exact h.alive u hu j p' hslot

end Good

/-! ## Dropping descriptors -/

structure Dropped (s s' : Files) (l : List (Fin maxFile)) : Prop where
  live : s'.live = s.live
  curtask : s'.curtask = s.curtask
  ppid : s'.ppid = s.ppid
  empty : ∀ i ∈ l, s'.fd s.curtask i = none
  stay : ∀ i, s.fd s.curtask i = none → s'.fd s.curtask i = none
  other : ∀ u j, (u ≠ s.curtask ∨ j ∉ l) → s'.fd u j = s.fd u j

theorem Dropped.append {s₁ : Files} {l l' : List (Fin maxFile)} (h : Dropped s s₁ l) (h' : Dropped s₁ s' l') :
    Dropped s s' (l ++ l') := by
  have hstay := h'.stay
  have hempty := h'.empty
  have hother := h'.other
  rw [h.curtask] at hstay hempty hother
  refine ⟨h'.live.trans h.live, h'.curtask.trans h.curtask, h'.ppid.trans h.ppid, ?_, ?_, ?_⟩
  · intro j hj
    cases mem_append.mp hj with
    | inl hl => exact hstay j (h.empty j hl)
    | inr hl => exact hempty j hl
  · intro j hj
    exact hstay j (h.stay j hj)
  · intro u j hne
    rw [mem_append, not_or] at hne
    rw [hother u j (hne.imp_right And.right), h.other u j (hne.imp_right And.left)]

theorem derefFile_dropped (hs : s.derefFile i = some s') : Dropped s s' [i] := by
  rw [derefFile] at hs
  cases hfd : s.fd s.curtask i with
  | none =>
    rw [hfd] at hs
    obtain rfl := some.inj hs
    refine ⟨rfl, rfl, rfl, ?_, fun _ => id, fun _ _ _ => rfl⟩
    intro j hj
    rw [mem_singleton.mp hj]
    exact hfd
  | some p =>
    rw [hfd] at hs
    obtain ⟨n, -, rfl⟩ := map_eq_some_iff.mp hs
    refine ⟨rfl, rfl, rfl, ?_, ?_, ?_⟩
    · intro j hj
      rw [mem_singleton.mp hj]
      exact setFd_fd_self
    · intro j hj
      by_cases he : j = i
      · rw [he]
        exact setFd_fd_self
      · exact (setFd_fd_of_ne (by simp [he])).trans hj
    · intro u j hne
      apply setFd_fd_of_ne
      rintro ⟨⟩
      simp at hne

theorem derefFile_good (h : s.Good) (hs : s.derefFile i = some s') : s'.Good := by
  rw [derefFile] at hs
  cases hfd : s.fd s.curtask i with
  | none =>
    rw [hfd] at hs
    obtain rfl := some.inj hs
    exact h
  | some p =>
    rw [hfd] at hs
    obtain ⟨n, hn, rfl⟩ := map_eq_some_iff.mp hs
    have huses : n = s.uses p := h.count p n hn
    have hpos : 0 < n := by
      rw [huses, uses, refs_pos]
      exact ⟨(s.curtask, i), mem_slots.mpr h.curtask, hfd⟩
    have hlt := h.uses_lt p
    have hdec : wsub n 1 = n - 1 := wsub_of_le hpos (by omega)
    rw [hdec]
    refine h.redirect (c := update s.fCount p (if n - 1 = 0 then none else some (n - 1))) ?_ ?_ ?_
    · intro p' m hm
      rw [hits_none, hfd]
      by_cases he : p' = p
      · subst he
        rw [update_self] at hm
        split at hm
        · cases hm
        · rw [hits_self, ← some.inj hm]
          omega
      · rw [update_of_ne he] at hm
        rw [hits_of_ne fun e => he (some.inj e).symm, h.count p' m hm]
    · intro p' hp'
      cases hp'
    · intro u hu j p' hne hslot
      by_cases he : p' = p
      · subst he
        have htwo : 2 ≤ s.uses p' := two_le_refs (mem_slots.mpr hu) (mem_slots.mpr h.curtask) hne hslot hfd
        rw [update_self, if_neg (by omega)]
        exact some_ne_none _
      · rw [update_of_ne he]
        exact h.alive u hu j p' hslot

theorem derefFiles_spec : ∀ (l : List (Fin maxFile)) {s s' : Files}, s.Good →
    l.foldlM derefFile s = some s' → s'.Good ∧ Dropped s s' l := by
  intro l
  induction l with
  | nil =>
    intro s s' h hs
    obtain rfl := some.inj hs
    exact ⟨h, ⟨rfl, rfl, rfl, by simp, fun _ => id, fun _ _ _ => rfl⟩⟩
  | cons i l ih =>
    intro s s' h hs
    rw [foldlM_cons] at hs
    obtain ⟨s₁, hs₁, hs⟩ := bind_eq_some_iff.mp hs
    obtain ⟨h₂, hdrop⟩ := ih (derefFile_good h hs₁) hs
    exact ⟨h₂, (derefFile_dropped hs₁).append hdrop⟩

theorem derefFiles_nothing (h : s.NoFiles s.curtask) :
    ∀ (l : List (Fin maxFile)), l.foldlM derefFile s = some s := by
  intro l
  induction l with
  | nil => rfl
  | cons i l ih =>
    rw [foldlM_cons, derefFile, h i]
    exact ih

theorem Good.leave (h : s.Good) (ht : s.NoFiles t) {next : Nat} (hn : next ∈ s.live.erase t) :
    Good { s with live := s.live.erase t, curtask := next } where
  count p n hp := by
    rw [h.count p n hp]
    exact (refs_erase_row fun i _ => ht i).symm
  alive u hu i p hp := h.alive u (Finset.mem_of_mem_erase hu) i p hp
  curtask := hn
  pids u hu := h.pids u (Finset.mem_of_mem_erase hu)

/-! ## Copying a table -/

def row (f : Fin maxFile → Option Nat) (l : List (Fin maxFile)) (p : Nat) : Nat := l.countP fun i => f i = some p

theorem row_cons (f : Fin maxFile → Option Nat) (i : Fin maxFile) (l : List (Fin maxFile)) (p : Nat) :
    row f (i :: l) p = row f l p + hits (f i) p := by
  rw [row, countP_cons, row, hits]
  simp

theorem row_finRange (f : Fin maxFile → Option Nat) (p : Nat) :
    row f (List.finRange maxFile) p = refs Finset.univ f p := by
  rw [row, refs, countP_eq_length_filter]
  rfl

def raised (s : Files) (l : List (Fin maxFile)) (p : Nat) : Option Nat :=
  (s.fCount p).map (· + row (s.fd s.curtask) l p)

theorem incCount_eq (hs : s.incCount p = some s') : ∃ c, s' = { s with fCount := c } := by
  obtain ⟨n, -, rfl⟩ := map_eq_some_iff.mp hs
  exact ⟨_, rfl⟩

theorem incCounts_eq : ∀ (l : List (Fin maxFile)) {s s' : Files}, s.incCounts l = some s' →
    ∃ c, s' = { s with fCount := c } := by
  intro l
  induction l with
  | nil =>
    intro s s' hs
    obtain rfl := some.inj hs
    exact ⟨s.fCount, rfl⟩
  | cons i l ih =>
    intro s s' hs
    rw [incCounts, foldlM_cons] at hs
    obtain ⟨s₁, hs₁, hs⟩ := bind_eq_some_iff.mp hs
    obtain ⟨c, rfl⟩ := ih hs
    split at hs₁
    · obtain rfl := some.inj hs₁
      exact ⟨c, rfl⟩
    · obtain ⟨c', rfl⟩ := incCount_eq hs₁
      exact ⟨c, rfl⟩

theorem raised_cons_none (l : List (Fin maxFile)) (hfd : s.fd s.curtask i = none) :
    s.raised (i :: l) = s.raised l := by
  funext p
  rw [raised, raised, row_cons, hfd, hits_none, Nat.add_zero]

theorem raised_cons_some {q m : Nat} (l : List (Fin maxFile)) (hfd : s.fd s.curtask i = some q)
    (hm : s.fCount q = some m) : (s.setCount q (some (m + 1))).raised l = s.raised (i :: l) := by
  funext p
  rw [raised, raised, row_cons, hfd, setCount_fd, setCount_curtask]
  by_cases he : p = q
  · rw [he, setCount_fCount_self, hm, hits_self, map_some, map_some]
    congr 1
    omega
  · rw [setCount_fCount_of_ne he, hits_of_ne fun e => he (some.inj e).symm, Nat.add_zero]

theorem incCounts_spec : ∀ (l : List (Fin maxFile)) {s s' : Files},
    (∀ p n, s.fCount p = some n → n + l.length < 2 ^ 32) → s.incCounts l = some s' →
    s' = { s with fCount := s.raised l } := by
  intro l
  induction l with
  | nil =>
    intro s s' _ hs
    obtain rfl := some.inj hs
    have hsame : s.raised [] = s.fCount := by
      funext p
      simp [raised, row]
    rw [hsame]
  | cons i l ih =>
    intro s s' hlt hs
    rw [incCounts, foldlM_cons] at hs
    obtain ⟨s₁, hs₁, hs⟩ := bind_eq_some_iff.mp hs
    cases hfd : s.fd s.curtask i with
    | none =>
      rw [hfd] at hs₁
      obtain rfl := some.inj hs₁
      rw [raised_cons_none l hfd]
      exact ih (fun p n hp => Nat.lt_of_succ_lt (hlt p n hp)) hs
    | some q =>
      rw [hfd] at hs₁
      obtain ⟨m, hm, rfl⟩ := map_eq_some_iff.mp hs₁
      have hlen : (i :: l).length = l.length + 1 := rfl
      have hq := hlt q m hm
      have hwrap : wrap (m + 1) = m + 1 := wrap_of_lt (by omega)
      rw [hwrap] at hs
      have hlt₁ : ∀ p n, (s.setCount q (some (m + 1))).fCount p = some n → n + l.length < 2 ^ 32 := by
        intro p n hp
        by_cases he : p = q
        · rw [he, setCount_fCount_self] at hp
          have := some.inj hp
          omega
        · rw [setCount_fCount_of_ne he] at hp
          have := hlt p n hp
          omega
      rw [ih hlt₁ hs, raised_cons_some l hfd hm]
      rfl

theorem Good.counts_lt (h : s.Good) (p n : Nat) (hp : s.fCount p = some n) :
    n + (List.finRange maxFile).length < 2 ^ 32 := by
  rw [length_finRange, h.count p n hp]
  exact h.uses_lt p

theorem Good.enter (h : s.Good) (ht : t ∉ s.live) (hp : t < pidMax) :
    Good { s.enter t with fCount := s.raised (List.finRange maxFile) } := by
  have hne : ∀ u ∈ s.live, u ≠ t := fun u hu e => ht (e ▸ hu)
  have hfd : ∀ u ∈ s.live, (s.enter t).fd u = s.fd u := fun u hu => update_of_ne (hne u hu) ..
  have hnew : (s.enter t).fd t = s.fd s.curtask := update_self ..
  have halive : ∀ p, s.fCount p ≠ none → s.raised (List.finRange maxFile) p ≠ none := by
    intro p hp
    simpa [raised] using hp
  refine ⟨⟨?_, ?_⟩, ?_, ?_⟩
  · intro p n hn
    obtain ⟨m, hm, rfl⟩ := map_eq_some_iff.mp hn
    have hrow : uses { s.enter t with fCount := s.raised (List.finRange maxFile) } p =
        refs (s.live ×ˢ Finset.univ) (fun x : Nat × Fin maxFile => (s.enter t).fd x.1 x.2) p +
          refs Finset.univ (fun i => (s.enter t).fd t i) p := refs_insert_row ht
    have hold : refs (s.live ×ˢ Finset.univ) (fun x : Nat × Fin maxFile => (s.enter t).fd x.1 x.2) p =
        s.uses p := by
      apply refs_congr
      intro x hx
      rw [hfd x.1 (mem_slots.mp hx)]
    rw [hrow, hold, hnew, row_finRange, h.count p m hm]
  · intro u hu i p hslot
    apply halive
    obtain rfl | hu := Finset.mem_insert.mp hu
    · change (s.enter u).fd u i = some p at hslot
      rw [hnew] at hslot
      exact h.alive s.curtask h.curtask i p hslot
    · change (s.enter t).fd u i = some p at hslot
      rw [hfd u hu] at hslot
      exact h.alive u hu i p hslot
  · exact Finset.mem_insert_of_mem h.curtask
  · intro u hu
    obtain rfl | hu := Finset.mem_insert.mp hu
    · exact hp
    · exact h.pids u hu

theorem doFork_good (h : s.Good) {ok : ForkSteps} (ht : t ∉ s.live) (hp : t < pidMax)
    (hok : ok.allocTask = true ∧ ok.taskSetVm = true ∧ ok.fs = true ∧ ok.files = true → ok.copyTask = true ∨
      s.NoFiles s.curtask) (hs : s.doFork t ok = some s') : s'.Good := by
  rw [doFork] at hs
  split at hs
  · rename_i hsteps
    obtain ⟨s₁, hs₁, rfl⟩ := map_eq_some_iff.mp hs
    obtain rfl := incCounts_spec _ h.counts_lt hs₁
    split
    · exact h.enter ht hp
    · rename_i hcopy
      have hnone := (hok hsteps).resolve_left hcopy
      have hsame : s.raised (List.finRange maxFile) = s.fCount := by
        funext p
        have hrow : row (s.fd s.curtask) (List.finRange maxFile) p = 0 := by
          rw [row_finRange, refs_eq_zero]
          intro i _
          rw [hnone i]
          exact nofun
        simp [raised, hrow]
      rw [hsame]
      exact h
  · obtain rfl := some.inj hs
    exact h

theorem execve_good (h : s.Good) {found : Bool} (ht : t ∉ s.live) (hp : t < pidMax)
    (hs : s.execve found t = some s') : s'.Good := by
  rw [execve] at hs
  split at hs
  · obtain rfl := incCounts_spec _ (s := s.enter t) h.counts_lt hs
    have hne : s.curtask ≠ t := fun e => ht (e ▸ h.curtask)
    have hcur : (s.enter t).fd s.curtask = s.fd s.curtask := update_of_ne hne ..
    have hraised : (s.enter t).raised (List.finRange maxFile) = s.raised (List.finRange maxFile) := by
      funext p
      change (s.fCount p).map (· + row ((s.enter t).fd s.curtask) _ p) = _
      rw [hcur]
      rfl
    rw [hraised]
    exact h.enter ht hp
  · obtain rfl := some.inj hs
    exact h

/-! ## The other calls -/

theorem getUnusedFd_spec (h : s.getUnusedFd = some i) : s.fd s.curtask i = none := by
  simpa using find?_some h

theorem getUnusedFd_none : s.getUnusedFd = none ↔ s.freeFds = 0 := by
  rw [getUnusedFd, find?_eq_none, freeFds, Finset.card_eq_zero, Finset.filter_eq_empty_iff]
  simp

theorem sysOpen_good (h : s.Good) {found opened : Bool} {mem : Option Nat} (hm : ∀ p ∈ mem, s.fCount p = none) :
    (s.sysOpen found mem opened).Good := by
  unfold sysOpen
  split
  · rename_i i p hi
    have hp := hm p rfl
    split
    · exact h.install (getUnusedFd_spec hi) hp
    · -- the file is allocated and freed again
      have hback : (s.setCount p (some 1)).setCount p none = s := by
        rw [setCount, setCount, update_idem, ← hp, update_eq_self]
      rw [hback]
      exact h
  · exact h

theorem dup_good (h : s.Good) {oldfd : Int} (hs : s.dup oldfd = some s') : s'.Good := by
  obtain ⟨i, -, hs⟩ := bind_eq_some_iff.mp hs
  split at hs
  · rename_i hj
    exact h.share (getUnusedFd_spec hj) hs
  · obtain rfl := some.inj hs
    exact h

theorem dup2_good (h : s.Good) {oldfd newfd : Int} (hs : s.dup2 oldfd newfd = some s') : s'.Good := by
  rw [dup2] at hs
  split at hs
  · obtain rfl := some.inj hs
    exact h
  · obtain ⟨i, -, hs⟩ := bind_eq_some_iff.mp hs
    split at hs
    · obtain rfl := some.inj hs
      exact h
    · obtain ⟨j, -, hs⟩ := bind_eq_some_iff.mp hs
      obtain ⟨s₁, hs₁, hs⟩ := bind_eq_some_iff.mp hs
      have h₁ := derefFile_good h hs₁
      have hdrop := derefFile_dropped hs₁
      have hempty : s₁.fd s₁.curtask j = none := by
        rw [hdrop.curtask]
        exact hdrop.empty j (mem_singleton_self j)
      exact h₁.share hempty hs

theorem pipe_eq {q : Nat} (hpq : p ≠ q) (hi : s.getUnusedFd = some i)
    (hj : (s.setFd s.curtask i (some p)).getUnusedFd = some j) :
    s.pipe (some p) (some q) true true =
      (((s.setCount p (some 1)).setFd s.curtask i (some p)).setCount q (some 1)).setFd s.curtask j (some q) := by
  have hj' : ((s.setCount p (some 0)).setFd s.curtask i (some p)).getUnusedFd = some j := hj
  have hne : j ≠ i := by
    rintro rfl
    have hused := getUnusedFd_spec hj
    rw [setFd_curtask, setFd_fd_self] at hused
    cases hused
  simp only [pipe, getEmptyFile, hi, hj', setFd_curtask, setCount_curtask, and_self, if_true]
  simp only [setFd, setCount]
  congr 1
  · funext t
    by_cases ht : t = s.curtask
    · subst ht
      funext k
      by_cases hk : k = j
      · simp [hk]
      · by_cases hk' : k = i
        · simp [hk', Ne.symm hne]
        · simp [hk, hk']
    · simp [ht]
  · funext r
    by_cases hr : r = q
    · simp [hr]
    · by_cases hr' : r = p
      · simp [hr', hpq]
      · simp [hr, hr']

theorem freeFds_setFd (hi : s.fd s.curtask i = none) : (s.setFd s.curtask i (some p)).freeFds + 1 = s.freeFds := by
  have herase : (Finset.univ.filter fun k => (s.setFd s.curtask i (some p)).fd s.curtask k = none) =
      (Finset.univ.filter fun k => s.fd s.curtask k = none).erase i := by
    ext k
    by_cases hk : k = i
    · simp [hk]
    · have hfd : (s.setFd s.curtask i (some p)).fd s.curtask k = s.fd s.curtask k :=
        setFd_fd_of_ne (by simp [hk])
      simp [hk, hfd]
  rw [freeFds, freeFds, setFd_curtask, herase]
  exact Finset.card_erase_add_one (by simp [hi])

theorem pipe_good (h : s.Good) {mem₁ mem₂ : Option Nat} {inode dentry : Bool}
    (hm₁ : ∀ p ∈ mem₁, s.fCount p = none) (hm₂ : ∀ q ∈ mem₂, s.fCount q = none ∧ mem₁ ≠ some q)
    (ho : s.freeFds = 0 ∨ mem₁ = none ∨ (2 ≤ s.freeFds ∧ mem₂ ≠ none ∧ inode = true ∧ dentry = true)) :
    (s.pipe mem₁ mem₂ inode dentry).Good := by
  cases hi : s.getUnusedFd with
  | none =>
    have hpipe : s.pipe mem₁ mem₂ inode dentry = s := by simp [pipe, getEmptyFile, hi]
    rw [hpipe]
    exact h
  | some i =>
    cases mem₁ with
    | none =>
      have hpipe : s.pipe none mem₂ inode dentry = s := by simp [pipe, getEmptyFile, hi]
      rw [hpipe]
      exact h
    | some p =>
      have hfree : s.freeFds ≠ 0 := by
        rw [Ne, ← getUnusedFd_none, hi]
        exact some_ne_none i
      obtain ⟨htwo, hmem, rfl, rfl⟩ := (ho.resolve_left hfree).resolve_left (some_ne_none p)
      obtain ⟨q, rfl⟩ := ne_none_iff_exists'.mp hmem
      have hempty := getUnusedFd_spec hi
      have hmore : (s.setFd s.curtask i (some p)).getUnusedFd ≠ none := by
        rw [Ne, getUnusedFd_none]
        have := freeFds_setFd (p := p) hempty
        omega
      obtain ⟨j, hj⟩ := ne_none_iff_exists'.mp hmore
      have hpq : p ≠ q := fun e => (hm₂ q rfl).2 (by rw [e])
      rw [pipe_eq hpq hi hj]
      have h₁ := h.install hempty (hm₁ p rfl)
      apply h₁.install
      · exact getUnusedFd_spec hj
      · exact (setCount_fCount_of_ne (Ne.symm hpq)).trans (hm₂ q rfl).1

/-! ## Exit -/

theorem pid2task_target {pid task : Nat} (h : s.pid2task pid = some task) : task = s.exitTarget pid := by
  rw [pid2task] at h
  rw [exitTarget]
  split at h
  · rw [if_pos ‹_›]
    exact (some.inj h).symm
  · rw [if_neg ‹_›]
    split at h
    · exact (some.inj h).symm
    · cases h

theorem sysExit_spec (h : s.Good) {pid next : Nat}
    (ho : pid = 0 ∨ pid = s.curtask ∨ (s.NoFiles s.curtask ∧ s.NoFiles pid))
    (hs : s.sysExit pid next = some s') :
    s'.Good ∧ ∀ u ≠ s.exitTarget pid, ∀ i, s'.fd u i = s.fd u i := by
  obtain ⟨task, htask, hs⟩ := bind_eq_some_iff.mp hs
  obtain ⟨s₂, hs₂, hs⟩ := bind_eq_some_iff.mp hs
  obtain ⟨s₁, hs₁, rfl⟩ := map_eq_some_iff.mp hs₂
  rw [schedule] at hs
  split at hs
  · rename_i hnext
    obtain rfl := some.inj hs
    have htarget := pid2task_target htask
    rw [exitFiles] at hs₁
    by_cases hself : task = s.curtask
    · obtain ⟨h₁, hdrop⟩ := derefFiles_spec _ h hs₁
      constructor
      · apply h₁.leave _ hnext
        intro i
        rw [hself]
        exact hdrop.empty i (mem_finRange i)
      · intro u hu i
        apply hdrop.other u i
        rw [← htarget, hself] at hu
        exact .inl hu
    · have hkill : s.NoFiles s.curtask ∧ s.NoFiles pid := by
        rw [htarget, exitTarget] at hself
        split at hself
        · exact absurd rfl hself
        · rename_i hpid
          exact (ho.resolve_left hpid).resolve_left hself
      have hpid : task = pid := by
        rw [htarget, exitTarget]
        split
        · rename_i hpid
          rw [htarget, exitTarget, if_pos hpid] at hself
          exact absurd rfl hself
        · rfl
      rw [derefFiles_nothing hkill.1] at hs₁
      obtain rfl := some.inj hs₁
      exact ⟨h.leave (hpid ▸ hkill.2) hnext, fun _ _ _ => rfl⟩
  · cases hs

theorem step_good (h : s.Good) {op : FileOp} (ha : s.Allowed op) (ho : s.Orderly op) (hs : s.step op = some s') :
    s'.Good := by
  cases op with
  | sysOpen found mem opened =>
    obtain rfl := some.inj hs
    exact sysOpen_good h ha
  | dup oldfd => exact dup_good h hs
  | dup2 oldfd newfd => exact dup2_good h hs
  | pipe mem₁ mem₂ inode dentry =>
    obtain rfl := some.inj hs
    exact pipe_good h ha.1 ha.2 ho
  | fork child ok => exact doFork_good h ha.1 ha.2 ho hs
  | execve found child => exact execve_good h ha.1 ha.2 hs
  | exit pid next => exact (sysExit_spec h ho hs).1
  | switch next =>
    change s.schedule next = some s' at hs
    rw [schedule] at hs
    split at hs
    · obtain rfl := some.inj hs
      exact ⟨⟨h.count, h.alive⟩, ‹_›, h.pids⟩
    · cases hs

end Files

/-- In every run of orderly calls the counts are the numbers of live slots, no slot points to
a freed file, and an orderly `sys_exit` leaves the tables of the other tasks alone. -/
theorem file_counts {s₀ s : Files} (h₀ : s₀.Start)
    (hrun : ReflTransGen (fun s s' => ∃ op, s.Allowed op ∧ s.Orderly op ∧ s.step op = some s') s₀ s) :
    s.Counted ∧ ∀ pid next s', s.Orderly (.exit pid next) → s.step (.exit pid next) = some s' →
      ∀ u ≠ s.exitTarget pid, ∀ i, s'.fd u i = s.fd u i := by
  have hgood : s.Good := by
    induction hrun with
    | refl => exact h₀.good
    | tail _ hstep ih =>
      obtain ⟨op, ha, ho, hs⟩ := hstep
      exact Files.step_good ih ha ho hs
  exact ⟨hgood.toCounted, fun pid next s' ho hs => (Files.sysExit_spec hgood ho hs).2⟩

def bootFiles : Files := ⟨1, {1}, fun _ => 0, fun _ _ => none, fun _ => none⟩

theorem bootFiles_start : bootFiles.Start :=
  ⟨by decide, by decide, fun _ _ _ => rfl, fun _ => rfl⟩

def allSteps : Files.ForkSteps := ⟨true, true, true, true, true⟩

def openedFiles : Files := bootFiles.sysOpen true (some 0xC0300000) true

theorem file_counts_child : ∃ s, (((openedFiles.doFork 2 allSteps).bind fun s => s.schedule 2).bind fun s =>
    s.sysExit 0 1) = some s ∧ s.Counted := by
  have hdone : (((openedFiles.doFork 2 allSteps).bind fun s => s.schedule 2).bind fun s =>
      s.sysExit 0 1).isSome = true := by decide +kernel
  obtain ⟨s, hs⟩ := isSome_iff_exists.mp hdone
  refine ⟨s, hs, ?_⟩
  obtain ⟨s₂, hs₂, hexit⟩ := bind_eq_some_iff.mp hs
  obtain ⟨s₁, hfork, hswitch⟩ := bind_eq_some_iff.mp hs₂
  apply (file_counts bootFiles_start _).1
  refine .tail (.tail (.tail (.single ⟨.sysOpen true (some 0xC0300000) true, ?_, trivial, rfl⟩)
    ⟨.fork 2 allSteps, ?_, fun _ => .inl rfl, hfork⟩) ⟨.switch 2, trivial, trivial, hswitch⟩)
    ⟨.exit 0 1, trivial, .inl rfl, hexit⟩
  · exact fun _ _ => rfl
  · exact ⟨by decide, by decide⟩

/-- The parent kills the child after the `fork`: its own descriptors go, and the file keeps a
count of one that no slot accounts for. -/
theorem kill_child_miscounts : bootFiles.Start ∧ ∃ s s',
    ReflTransGen (fun s s' => ∃ op, s.Allowed op ∧ s.step op = some s') bootFiles s ∧
    s.step (.exit 2 1) = some s' ∧ s.fd 1 ⟨0, by decide⟩ = some 0xC0300000 ∧
    s'.fd 1 ⟨0, by decide⟩ = none ∧ ¬ s'.Counted := by
  have hdone : ((openedFiles.doFork 2 allSteps).bind fun s => (s.sysExit 2 1).map fun s' =>
      (s.fd 1 ⟨0, by decide⟩, s'.live, decide (∀ i, s'.fd 1 i = none), s'.fCount 0xC0300000)) =
      some (some 0xC0300000, {1}, true, some 1) := by decide +kernel
  obtain ⟨s, hfork, hmap⟩ := bind_eq_some_iff.mp hdone
  obtain ⟨s', hexit, hvals⟩ := map_eq_some_iff.mp hmap
  simp only [Prod.mk.injEq, decide_eq_true_eq] at hvals
  obtain ⟨hfd, hlive, hnone, hcount⟩ := hvals
  refine ⟨bootFiles_start, s, s', ?_, hexit, hfd, hnone _, ?_⟩
  · refine .tail (.single ⟨.sysOpen true (some 0xC0300000) true, fun _ _ => rfl, rfl⟩) ⟨.fork 2 allSteps, ?_, hfork⟩
    exact ⟨by decide, by decide⟩
  · intro hbad
    have hone := hbad.count _ _ hcount
    have hzero : s'.uses 0xC0300000 = 0 := by
      rw [Files.uses, refs_eq_zero, hlive]
      intro x hx
      have hx₁ : x.1 = 1 := Finset.mem_singleton.mp (Finset.mem_product.mp hx).1
      rw [hx₁, hnone]
      exact nofun
    omega

end MiniOS
