import MiniOS.PipeEnds
import MiniOS.PipeSound
import MiniOS.FilesSound

/-!
# Counting the ends of pipes

The gap between a counter and the number of slots it should count. Releasing a read end keeps the
gap, releasing a write end widens it by two, a copied descriptor narrows it by one, and a task that
goes with its descriptors widens it again.
-/

namespace MiniOS

open Files Function Option

theorem pipefsFileRead_empty {info : PipeInodeInfo} (he : info.pRpos = info.pWpos) {count : Int} (hc : 0 < count) :
    (pipefsFileRead info count).1.length = 0 ↔ info.pWriter = 0 := by
  obtain ⟨n, hn⟩ : ∃ n, count.toNat = n + 1 := ⟨count.toNat - 1, by omega⟩
  rw [pipefsFileRead, hn, readLoop]
  by_cases hw : info.pWriter = 0 <;> simp [he, hw]

namespace PipeFiles

variable {s s' : PipeFiles} {t p : Nat} {i : Fin maxFile} {k : Nat × PipeEnd} {l : List (Fin maxFile)}
    {o : Option (Nat × PipeEnd)} {f : Files} {Q : Prop}

/-! ## The gap -/

structure Inv (s : PipeFiles) : Prop where
  curtask : s.files.curtask ∈ s.files.live
  made : ∀ p k, s.pend p = some k → s.infos k.1 ≠ none

def counter (s : PipeFiles) (k : Nat × PipeEnd) : Int := (s.infos k.1).elim 0 (·.counter k.2)

def gap (s : PipeFiles) (k : Nat × PipeEnd) : Int := s.counter k - s.ends k

def Balanced (s : PipeFiles) : Prop := ∀ k, s.gap k = 0

theorem Inv.ends_eq_zero (h : s.Inv) (hk : s.infos k.1 = none) : s.ends k = 0 := by
  rw [ends, refs_eq_zero]
  intro x _ hx
  obtain ⟨p, -, hp⟩ := bind_eq_some_iff.mp hx
  exact h.made p k hp hk

theorem Inv.right_iff (h : s.Inv) : s.EndsRight ↔ s.Balanced := by
  constructor
  · intro hr k
    rw [gap, counter]
    cases hinfo : s.infos k.1 with
    | none => simp [h.ends_eq_zero hinfo]
    | some info =>
      obtain ⟨x, e⟩ := k
      cases e with
      | reader => simp [PipeInodeInfo.counter, hr.reader x info hinfo]
      | writer => simp [PipeInodeInfo.counter, hr.writer x info hinfo]
  · intro hb
    have hcount : ∀ x info e, s.infos x = some info → info.counter e = s.ends (x, e) := by
      intro x info e hinfo
      have hgap := hb (x, e)
      rw [gap, counter, hinfo] at hgap
      exact Int.eq_of_sub_eq_zero hgap
    refine ⟨fun x info => hcount x info .reader, fun x info => hcount x info .writer, ?_⟩
    intro x info hinfo he count hc
    have hw : info.pWriter = s.ends (x, .writer) := hcount x info .writer hinfo
    rw [pipefsFileRead_empty he hc, hw, Int.natCast_eq_zero]

theorem gap_congr (hc : ∀ k, s'.counter k = s.counter k) (hl : s'.files.live = s.files.live)
    (hs : ∀ t ∈ s.files.live, ∀ i, s'.slot t i = s.slot t i) (k : Nat × PipeEnd) : s'.gap k = s.gap k := by
  have hends : s'.ends k = s.ends k := by
    rw [ends, hl]
    apply refs_congr
    intro x hx
    exact hs x.1 (mem_slots.mp hx) x.2
  rw [gap, gap, hc, hends]

theorem ends_set (hl : s'.files.live = s.files.live) (ht : t ∈ s.files.live)
    (hs : ∀ u ∈ s.files.live, ∀ j, (u, j) ≠ (t, i) → s'.slot u j = s.slot u j) (k : Nat × PipeEnd) :
    s'.ends k + hits (s.slot t i) k = s.ends k + hits (s'.slot t i) k := by
  rw [ends, hl]
  exact refs_set (f := fun x : Nat × Fin maxFile => s.slot x.1 x.2) (g := fun x => s'.slot x.1 x.2) (i := (t, i))
    (mem_slots.mpr ht) (fun x hx hne => hs x.1 (mem_slots.mp hx) x.2 hne) k

def rowEnds (s : PipeFiles) (t : Nat) (k : Nat × PipeEnd) : Nat := refs Finset.univ (s.slot t) k

theorem noEnds_iff : s.NoEnds t ↔ ∀ k, s.rowEnds t k = 0 := by
  simp only [rowEnds, refs_eq_zero]
  constructor
  · intro h k i _ hk
    rw [h i] at hk
    cases hk
  · intro h i
    cases hk : s.slot t i with
    | none => rfl
    | some k => exact absurd hk (h k i (Finset.mem_univ i))

/-! ## Releasing descriptors -/

structure Released (s s' : PipeFiles) (l : List (Fin maxFile)) : Prop where
  files : Files.Dropped s.files s'.files l
  pend : s'.pend = s.pend
  made : ∀ x, s'.infos x = none ↔ s.infos x = none
  wider : ∀ k, s.gap k ≤ s'.gap k
  same : (∀ k, s'.gap k = s.gap k) ↔ ∀ i ∈ l, s.NoWriter i

theorem Released.inv (h : Released s s' l) (hs : s.Inv) : s'.Inv where
  curtask := by
    rw [h.files.curtask, h.files.live]
    exact hs.curtask
  made p k hp := by
    rw [h.pend] at hp
    rw [Ne, h.made]
    exact hs.made p k hp

theorem Released.slot_other (h : Released s s' l) {u : Nat} {j : Fin maxFile} (hu : u ≠ s.files.curtask ∨ j ∉ l) :
    s'.slot u j = s.slot u j := by
  rw [slot, slot, h.pend, h.files.other u j hu]

theorem counter_flush (h : s.Inv) {k' : Nat × PipeEnd} (hp : s.pend p = some k') (k : Nat × PipeEnd) :
    (s.pipefsFileFlush p).counter k = s.counter k +
      if k = k' then (match k'.2 with | .reader => -1 | .writer => 1) else 0 := by
  obtain ⟨x, e⟩ := k'
  obtain ⟨info, hinfo⟩ := ne_none_iff_exists'.mp (h.made p _ hp)
  obtain ⟨y, e'⟩ := k
  simp only [pipefsFileFlush, hp, counter]
  by_cases hx : y = x
  · subst hx
    cases e with
    | reader => cases e' <;> simp_all [PipeInodeInfo.flush, PipeInodeInfo.counter, Int.sub_eq_add_neg]
    | writer => cases e' <;> simp_all [PipeInodeInfo.flush, PipeInodeInfo.counter]
  · simp [hx]

theorem derefFile_files (hs : s.derefFile i = some s') : s.files.derefFile i = some s'.files := by
  rw [derefFile] at hs
  split at hs
  · obtain rfl := some.inj hs
    rw [Files.derefFile, ‹s.files.fd s.files.curtask i = none›]
  · obtain ⟨f, hf, rfl⟩ := map_eq_some_iff.mp hs
    exact hf

theorem pipefsFileFlush_pend (s : PipeFiles) (p : Nat) : (s.pipefsFileFlush p).pend = s.pend := by
  unfold pipefsFileFlush
  split
  · rfl
  · rfl

theorem pipefsFileFlush_made (s : PipeFiles) (p x : Nat) :
    (s.pipefsFileFlush p).infos x = none ↔ s.infos x = none := by
  unfold pipefsFileFlush
  split
  · rfl
  · rename_i y e _
    by_cases hx : x = y
    · simp [hx]
    · simp [hx]

theorem derefFile_ends (h : s.Inv) (hdrop : Files.Dropped s.files f [i]) (k : Nat × PipeEnd) :
    ends ((s.pipefsFileFlush p).setFiles f) k + hits (s.slot s.files.curtask i) k = s.ends k := by
  have hother : ∀ u ∈ s.files.live, ∀ j, (u, j) ≠ (s.files.curtask, i) →
      slot ((s.pipefsFileFlush p).setFiles f) u j = s.slot u j := by
    intro u _ j hne
    have hj : u ≠ s.files.curtask ∨ j ∉ [i] := by
      by_cases hu : u = s.files.curtask
      · exact .inr fun hmem => hne (by rw [hu, List.mem_singleton.mp hmem])
      · exact .inl hu
    change (f.fd u j).bind (s.pipefsFileFlush p).pend = _
    rw [pipefsFileFlush_pend, hdrop.other u j hj]
    rfl
  have hgone : slot ((s.pipefsFileFlush p).setFiles f) s.files.curtask i = none := by
    change (f.fd s.files.curtask i).bind _ = none
    rw [hdrop.empty i (List.mem_singleton_self i), bind_none]
  rw [ends_set hdrop.live h.curtask hother k, hgone, hits_none, Nat.add_zero]

/-- Two for a write end, whose counter goes the wrong way. -/
theorem derefFile_gap (h : s.Inv) (hs : s.derefFile i = some s') (k : Nat × PipeEnd) :
    s'.gap k = s.gap k + if k.2 = .writer then 2 * hits (s.slot s.files.curtask i) k else 0 := by
  have hdrop := derefFile_dropped (derefFile_files hs)
  rw [derefFile] at hs
  cases hfd : s.files.fd s.files.curtask i with
  | none =>
    rw [hfd] at hs
    obtain rfl := some.inj hs
    simp [slot, hfd]
  | some p =>
    rw [hfd] at hs
    obtain ⟨f, -, rfl⟩ := map_eq_some_iff.mp hs
    change Files.Dropped s.files f [i] at hdrop
    have hends := derefFile_ends (p := p) h hdrop k
    have hslot : s.slot s.files.curtask i = s.pend p := by rw [slot, hfd, bind_some]
    rw [hslot] at hends
    rw [gap, gap, hslot]
    change (s.pipefsFileFlush p).counter k - _ = _
    cases hp : s.pend p with
    | none =>
      have hsame : s.pipefsFileFlush p = s := by rw [pipefsFileFlush, hp]
      rw [hp, hits_none, hsame] at hends
      rw [hsame]
      simp only [hits_none, Nat.mul_zero, ite_self]
      omega
    | some k' =>
      rw [hp] at hends
      rw [counter_flush h hp]
      by_cases hk : k = k'
      · subst hk
        rw [hits_self] at hends ⊢
        obtain ⟨x, e⟩ := k
        cases e with
        | reader => simp only [if_true, reduceCtorEq, if_false]; omega
        | writer => simp only [if_true]; omega
      · rw [hits_of_ne fun e => hk (some.inj e).symm] at hends ⊢
        simp only [if_neg hk, Nat.mul_zero, ite_self]
        omega

theorem derefFile_released (h : s.Inv) (hs : s.derefFile i = some s') : Released s s' [i] where
  files := derefFile_dropped (derefFile_files hs)
  pend := by
    rw [derefFile] at hs
    split at hs
    · obtain rfl := some.inj hs
      rfl
    · obtain ⟨f, -, rfl⟩ := map_eq_some_iff.mp hs
      exact pipefsFileFlush_pend s _
  made x := by
    rw [derefFile] at hs
    split at hs
    · obtain rfl := some.inj hs
      rfl
    · obtain ⟨f, -, rfl⟩ := map_eq_some_iff.mp hs
      exact pipefsFileFlush_made s _ x
  wider k := by
    rw [derefFile_gap h hs]
    split
    · omega
    · omega
  same := by
    simp only [derefFile_gap h hs, List.mem_singleton, forall_eq, NoWriter]
    constructor
    · intro hsame x hx
      have hbad := hsame (x, .writer)
      rw [hx, hits_self] at hbad
      simp at hbad
    · rintro hno ⟨x, e⟩
      cases e with
      | reader => simp
      | writer => simp [hits_of_ne (hno x)]

theorem Released.append {s₁ : PipeFiles} {l l' : List (Fin maxFile)} (h : Released s s₁ l)
    (h' : Released s₁ s' l') : Released s s' (l ++ l') where
  files := h.files.append h'.files
  pend := h'.pend.trans h.pend
  made x := (h'.made x).trans (h.made x)
  wider k := Int.le_trans (h.wider k) (h'.wider k)
  same := by
    have hwriter : (∀ i ∈ l, s.NoWriter i) → ∀ i, s₁.NoWriter i ↔ s.NoWriter i := by
      intro hl i
      rw [NoWriter, NoWriter, h.files.curtask]
      by_cases hi : i ∈ l
      · -- released before, and not a write end then
        have hnone : s₁.slot s.files.curtask i = none := by rw [slot, h.files.empty i hi, bind_none]
        simp only [hnone]
        exact ⟨fun _ => hl i hi, fun _ x => nofun⟩
      · rw [h.slot_other (.inr hi)]
    simp only [List.forall_mem_append]
    constructor
    · intro hsame
      have h₁ : ∀ k, s₁.gap k = s.gap k := by
        intro k
        have := h.wider k
        have := h'.wider k
        have := hsame k
        omega
      have h₂ : ∀ k, s'.gap k = s₁.gap k := fun k => (hsame k).trans (h₁ k).symm
      have hl := h.same.mp h₁
      exact ⟨hl, fun i hi => (hwriter hl i).mp (h'.same.mp h₂ i hi)⟩
    · rintro ⟨hl, hl'⟩ k
      rw [h'.same.mpr fun i hi => (hwriter hl i).mpr (hl' i hi), h.same.mpr hl]

theorem derefFiles_released : ∀ (l : List (Fin maxFile)) {s s' : PipeFiles}, s.Inv →
    l.foldlM derefFile s = some s' → Released s s' l := by
  intro l
  induction l with
  | nil =>
    intro s s' h hs
    obtain rfl := some.inj hs
    exact ⟨⟨rfl, rfl, rfl, by simp, fun _ => id, fun _ _ _ => rfl⟩, rfl, fun _ => Iff.rfl,
      fun _ => Int.le_refl _, by simp⟩
  | cons i l ih =>
    intro s s' h hs
    rw [List.foldlM_cons] at hs
    obtain ⟨s₁, hs₁, hs⟩ := bind_eq_some_iff.mp hs
    have h₁ := derefFile_released h hs₁
    exact h₁.append (ih (h₁.inv h) hs)

/-! ## Rows of descriptors -/

theorem gap_enter (ht : t ∉ s.files.live) (c : Nat → Option Nat) (k : Nat × PipeEnd) :
    gap (s.setFiles { s.files.enter t with fCount := c }) k = s.gap k - s.rowEnds s.files.curtask k := by
  have hold : ∀ u ∈ s.files.live, (s.files.enter t).fd u = s.files.fd u :=
    fun u hu => update_of_ne (fun e : u = t => ht (e ▸ hu)) ..
  have hnew : (s.files.enter t).fd t = s.files.fd s.files.curtask := update_self ..
  have hends : ends (s.setFiles { s.files.enter t with fCount := c }) k = s.ends k +
      s.rowEnds s.files.curtask k := by
    have hrow := refs_insert_row (p := k) (K := Finset.univ)
      (f := fun x : Nat × Fin maxFile => ((s.files.enter t).fd x.1 x.2).bind s.pend) ht
    simp only [hnew] at hrow
    refine hrow.trans (congrArg (· + _) ?_)
    apply refs_congr
    intro x hx
    rw [hold x.1 (mem_slots.mp hx)]
    rfl
  rw [gap, gap, hends]
  change s.counter k - _ = _
  omega

theorem gap_leave (ht : t ∈ s.files.live) (nxt : Nat) (k : Nat × PipeEnd) :
    gap (s.setFiles { s.files with live := s.files.live.erase t, curtask := nxt }) k = s.gap k + s.rowEnds t k := by
  have hends : s.ends k =
      ends (s.setFiles { s.files with live := s.files.live.erase t, curtask := nxt }) k + s.rowEnds t k := by
    have hrow := refs_insert_row (p := k) (K := Finset.univ)
      (f := fun x : Nat × Fin maxFile => s.slot x.1 x.2) (Finset.notMem_erase t s.files.live)
    rw [Finset.insert_erase ht] at hrow
    exact hrow
  rw [gap, gap]
  change s.counter k - _ = _
  omega

theorem gap_setFile (h : s.Inv) (hi : s.files.fd s.files.curtask i = none) (hp : s.Unused p)
    (hl : f.live = s.files.live)
    (hfd : f.fd = (s.files.setFd s.files.curtask i (some p)).fd) (k : Nat × PipeEnd) :
    (s.setFile p o f).gap k = s.gap k - hits o k := by
  have hother : ∀ u ∈ s.files.live, ∀ j, (u, j) ≠ (s.files.curtask, i) →
      (s.setFile p o f).slot u j = s.slot u j := by
    intro u hu j hne
    change (f.fd u j).bind (update s.pend p o) = (s.files.fd u j).bind s.pend
    rw [hfd, setFd_fd_of_ne hne]
    cases hslot : s.files.fd u j with
    | none => rfl
    | some p' =>
      have hne' : p' ≠ p := fun e => hp u hu j (e ▸ hslot)
      rw [bind_some, bind_some, update_of_ne hne']
  have hends := ends_set hl h.curtask hother k
  have hbefore : s.slot s.files.curtask i = none := by rw [slot, hi, bind_none]
  have hafter : (s.setFile p o f).slot s.files.curtask i = o := by
    change (f.fd s.files.curtask i).bind (update s.pend p o) = o
    rw [hfd, setFd_fd_self, bind_some, update_self]
  rw [hbefore, hafter, hits_none] at hends
  rw [gap, gap]
  change s.counter k - _ = _
  omega

theorem Inv.setFile (h : s.Inv) (ho : ∀ k, o = some k → s.infos k.1 ≠ none)
    (hf : f.curtask ∈ f.live) : (s.setFile p o f).Inv := by
  refine ⟨hf, fun p' k hp' => ?_⟩
  change update s.pend p o p' = some k at hp'
  by_cases he : p' = p
  · rw [he, update_self] at hp'
    exact ho k hp'
  · rw [update_of_ne he] at hp'
    exact h.made p' k hp'

theorem Inv.setInfo (h : s.Inv) (x : Nat) (info : PipeInodeInfo) : (s.setInfo x info).Inv := by
  refine ⟨h.curtask, fun p k hp => ?_⟩
  change update s.infos x (some info) k.1 ≠ none
  by_cases hk : k.1 = x
  · simp [hk]
  · simpa [hk] using h.made p k hp

theorem gap_setInfo {x : Nat} (hx : s.infos x = none) (k : Nat × PipeEnd) :
    (s.setInfo x getPipeInfo).gap k = s.gap k + hits (some (x, .reader)) k + hits (some (x, .writer)) k := by
  obtain ⟨y, e⟩ := k
  simp only [gap, counter]
  change (update s.infos x (some getPipeInfo) y).elim 0 _ - (s.ends (y, e) : Int) = _
  by_cases hy : y = x
  · subst hy
    cases e with
    | reader => simp [hx, hits, getPipeInfo, PipeInodeInfo.counter]; omega
    | writer => simp [hx, hits, getPipeInfo, PipeInodeInfo.counter]; omega
  · have hne : ∀ e', some (x, e') ≠ some (y, e) := by
      rintro e' ⟨⟩
      exact hy rfl
    simp [hy, hits_of_ne (hne _)]

theorem gap_share (h : s.Inv) (hi : s.files.fd s.files.curtask i = none) (c : Nat → Option Nat)
    (k : Nat × PipeEnd) :
    gap (s.setFiles { s.files.setFd s.files.curtask i (some p) with fCount := c }) k = s.gap k - hits
    (s.pend p) k := by
  have hother : ∀ u ∈ s.files.live, ∀ j, (u, j) ≠ (s.files.curtask, i) →
      slot (s.setFiles { s.files.setFd s.files.curtask i (some p) with fCount := c }) u j = s.slot u j :=
    fun u _ j hne => congrArg (Option.bind · s.pend) (setFd_fd_of_ne hne)
  have hlive : (s.setFiles { s.files.setFd s.files.curtask i (some p) with fCount := c }).files.live =
    s.files.live := rfl
  have hends := ends_set hlive h.curtask hother k
  have hbefore : s.slot s.files.curtask i = none := by rw [slot, hi, bind_none]
  have hafter : slot (s.setFiles { s.files.setFd s.files.curtask i (some p) with fCount := c }) s.files.curtask i =
      s.pend p := congrArg (Option.bind · s.pend) setFd_fd_self
  rw [hbefore, hafter, hits_none] at hends
  rw [gap, gap]
  change s.counter k - _ = _
  omega

/-! ## The calls -/

structure Effect (s s' : PipeFiles) (Q : Prop) : Prop where
  inv : s'.Inv
  balanced : s.Balanced → (s'.Balanced ↔ Q)

theorem Effect.same (hinv : s'.Inv) (hgap : ∀ k, s'.gap k = s.gap k) (hQ : Q) : Effect s s' Q :=
  ⟨hinv, fun hb => iff_of_true (fun k => (hgap k).trans (hb k)) hQ⟩

theorem Effect.refl (h : s.Inv) (hQ : Q) : Effect s s Q := .same h (fun _ => rfl) hQ

theorem Effect.copied {n : Nat × PipeEnd → Nat} (hinv : s'.Inv) (hgap : ∀ k, s'.gap k = s.gap k - n k)
    (hQ : (∀ k, n k = 0) ↔ Q) : Effect s s' Q := by
  refine ⟨hinv, fun hb => ?_⟩
  rw [← hQ]
  refine forall_congr' fun k => ?_
  rw [hgap k, hb k]
  omega

theorem Inv.setFiles (h : s.Inv) (hf : f.curtask ∈ f.live) : (s.setFiles f).Inv := ⟨hf, h.made⟩

theorem hits_eq_zero : (∀ k, hits o k = 0) ↔ o = none := by
  constructor
  · intro h
    cases o with
    | none => rfl
    | some k =>
      have := h k
      rw [hits_self] at this
      cases this
  · rintro rfl k
    rfl

theorem not_made {R : Nat × PipeEnd → Prop} (k : Nat × PipeEnd) (h : none = some k) : R k := nomatch h

theorem setFile_effect (h : s.Inv) (hi : s.files.fd s.files.curtask i = none) (hp : s.Unused p) (n : Nat) :
    Effect s (s.setFile p none ((s.files.setCount p (some n)).setFd s.files.curtask i (some p))) True := by
  refine .same (h.setFile not_made h.curtask) (fun k => ?_) trivial
  rw [gap_setFile h hi hp (f := (s.files.setCount p (some n)).setFd s.files.curtask i (some p)) rfl rfl, hits_none]
  exact Int.sub_zero _

theorem sysOpen_effect (h : s.Inv) {found opened : Bool} {mem : Option Nat} (hm : ∀ p ∈ mem, s.Unused p) :
    Effect s (s.sysOpen found mem opened) True := by
  unfold sysOpen
  split
  · rename_i i p hi
    have hfree := getUnusedFd_spec hi
    simp only [Files.sysOpen, hi]
    cases opened with
    | true => exact setFile_effect h hfree (hm p rfl) 1
    | false =>
      refine .same (h.setFile not_made h.curtask) (gap_congr (fun _ => rfl) rfl ?_) trivial
      intro t ht j
      change (s.files.fd t j).bind (update s.pend p none) = _
      rw [slot]
      cases hslot : s.files.fd t j with
      | none => rfl
      | some p' =>
        have hne : p' ≠ p := fun e => hm p rfl t ht j (e ▸ hslot)
        rw [bind_some, bind_some, update_of_ne hne]
  · exact .refl h trivial

theorem dup_effect (h : s.Inv) {oldfd : Int} (hs : s.dup oldfd = some s') :
    Effect s s' (s.KeepsEnds (.dup oldfd)) := by
  obtain ⟨f, hf, rfl⟩ := map_eq_some_iff.mp hs
  obtain ⟨i, hi, hf⟩ := bind_eq_some_iff.mp hf
  have hkeep : s.KeepsEnds (.dup oldfd) ↔ (s.files.getUnusedFd ≠ none → s.slot s.files.curtask i = none) := by
    simp [KeepsEnds, hi]
  rw [hkeep, slot]
  split at hf
  · rename_i old j hold hj
    obtain ⟨c, rfl⟩ := incCount_eq hf
    refine .copied (h.setFiles h.curtask) (gap_share h (getUnusedFd_spec hj) c) ?_
    rw [hold, hj, bind_some, hits_eq_zero]
    simp
  · rename_i hnot
    obtain rfl := some.inj hf
    refine .refl h fun hj => ?_
    obtain ⟨j, hj⟩ := ne_none_iff_exists'.mp hj
    cases hold : s.files.fd s.files.curtask i with
    | none => rfl
    | some old => exact absurd hj (hnot old j hold)

theorem dup2_effect (h : s.Inv) {oldfd newfd : Int} (hs : s.dup2 oldfd newfd = some s') :
    Effect s s' (s.KeepsEnds (.dup2 oldfd newfd)) := by
  rw [dup2] at hs
  by_cases he : oldfd = newfd
  · rw [if_pos he] at hs
    obtain rfl := some.inj hs
    exact .refl h fun hne => absurd he hne
  · rw [if_neg he] at hs
    obtain ⟨i, hi, hs⟩ := bind_eq_some_iff.mp hs
    split at hs
    · rename_i hold
      obtain rfl := some.inj hs
      refine .refl h fun _ i' hi' hopen => ?_
      rw [hi] at hi'
      rw [← some.inj hi'] at hopen
      exact absurd hold hopen
    · rename_i old hold
      obtain ⟨j, hj, hs⟩ := bind_eq_some_iff.mp hs
      obtain ⟨s₁, hs₁, hs⟩ := bind_eq_some_iff.mp hs
      obtain ⟨f, hf, rfl⟩ := map_eq_some_iff.mp hs
      obtain ⟨c, rfl⟩ := incCount_eq hf
      have hrel := derefFile_released h hs₁
      have hfree : s₁.files.fd s₁.files.curtask j = none := by
        rw [hrel.files.curtask]
        exact hrel.files.empty j (List.mem_singleton_self j)
      have h₁ := hrel.inv h
      refine ⟨h₁.setFiles h₁.curtask, fun hb => ?_⟩
      have hkeep : s.KeepsEnds (.dup2 oldfd newfd) ↔ s.pend old = none ∧ s.NoWriter j := by
        simp [KeepsEnds, hi, hj, he, hold, slot]
      have hgap : ∀ k, gap (s₁.setFiles { s₁.files.setFd s₁.files.curtask j (some old) with fCount := c }) k =
          s₁.gap k - hits (s.pend old) k := by
        intro k
        rw [gap_share h₁ hfree, hrel.pend]
      rw [hkeep]
      constructor
      · intro hb'
        -- one copied descriptor cannot make up for a released write end
        have hno : s.NoWriter j := by
          intro x hx
          have h₂ := hb' (x, .writer)
          rw [hgap, derefFile_gap h hs₁, hb, hx, hits_self, if_pos rfl] at h₂
          have := hits_le_one (s.pend old) (x, .writer)
          omega
        refine ⟨hits_eq_zero.mp fun k => ?_, hno⟩
        have h₂ := hb' k
        rw [hgap, hrel.same.mpr (by simpa using hno), hb] at h₂
        omega
      · rintro ⟨hp, hno⟩ k
        rw [hgap, hrel.same.mpr (by simpa using hno), hb, hp]
        rfl

theorem getEmptyFile_spec {f f' : Files} {mem : Option Nat} (hf : f.getEmptyFile mem = some (i, p, f')) :
    f.getUnusedFd = some i ∧ mem = some p ∧ f' = (f.setCount p (some 0)).setFd f.curtask i (some p) := by
  unfold getEmptyFile at hf
  split at hf
  · rename_i hi
    obtain ⟨rfl, rfl, rfl⟩ := some.inj hf
    exact ⟨hi, rfl, rfl⟩
  · cases hf

theorem Unused.setFile {q : Nat} (hq : s.Unused q) (hne : p ≠ q)
    (hl : f.live = s.files.live) (hfd : f.fd = (s.files.setFd s.files.curtask i (some p)).fd) :
    (s.setFile p o f).Unused q := by
  intro t ht j
  change t ∈ f.live at ht
  change f.fd t j ≠ some q
  rw [hl] at ht
  rw [hfd]
  by_cases hslot : (t, j) = (s.files.curtask, i)
  · obtain ⟨rfl, rfl⟩ := Prod.mk.inj hslot
    rw [setFd_fd_self]
    exact fun e => hne (some.inj e)
  · rw [setFd_fd_of_ne hslot]
    exact hq t ht j

theorem setFile_two (h : s.Inv) {j : Fin maxFile} {q : Nat} (hp : s.Unused p) (hq : s.Unused q) (hpq : p ≠ q)
    (hi : s.files.fd s.files.curtask i = none) {f g : Files} {o r : Option (Nat × PipeEnd)}
    (ho : ∀ k, o = some k → s.infos k.1 ≠ none) (ho' : ∀ k, r = some k → s.infos k.1 ≠ none)
    (hl : f.live = s.files.live) (hcur : f.curtask = s.files.curtask)
    (hfd : f.fd = (s.files.setFd s.files.curtask i (some p)).fd) (hj : f.fd f.curtask j = none)
    (hl' : g.live = f.live) (hcur' : g.curtask = f.curtask) (hfd' : g.fd = (f.setFd f.curtask j (some q)).fd) :
    ((s.setFile p o f).setFile q r g).Inv ∧
      ∀ k, ((s.setFile p o f).setFile q r g).gap k = s.gap k - hits o k - hits r k := by
  have hf : f.curtask ∈ f.live := by
    rw [hl, hcur]
    exact h.curtask
  have h₁ : (s.setFile p o f).Inv := h.setFile ho hf
  refine ⟨h₁.setFile ho' (by rw [hl', hcur']; exact hf), fun k => ?_⟩
  rw [gap_setFile h₁ hj (hq.setFile hpq hl hfd) hl' hfd', gap_setFile h hi hp hl hfd]

theorem pipe_effect (h : s.Inv) {mem₁ mem₂ info : Option Nat} {dentry : Bool} (hm₁ : ∀ p ∈ mem₁, s.Unused p)
    (hm₂ : ∀ q ∈ mem₂, s.Unused q ∧ mem₁ ≠ some q) (hx : ∀ x ∈ info, s.infos x = none) :
    Effect s (s.pipe mem₁ mem₂ info dentry) True := by
  unfold pipe
  split
  · exact .refl h trivial
  · rename_i i p f hf
    obtain ⟨hi, rfl, rfl⟩ := getEmptyFile_spec hf
    have hfree := getUnusedFd_spec hi
    have hp := hm₁ p rfl
    split
    · exact setFile_effect h hfree hp 0
    · rename_i j q f' hf'
      obtain ⟨hj, rfl, rfl⟩ := getEmptyFile_spec hf'
      have hq := hm₂ q rfl
      have hpq : p ≠ q := fun e => hq.2 (by rw [e])
      have hfree' := getUnusedFd_spec hj
      split
      · rename_i x
        have hmade : ∀ (e : PipeEnd) k, some (x, e) = some k → (s.setInfo x getPipeInfo).infos k.1 ≠ none := by
          rintro e k ⟨⟩
          simp [setInfo]
        rw [pipe_eq hpq hi hj]
        obtain ⟨hinv, hgap⟩ := setFile_two (h.setInfo x getPipeInfo) (o := some (x, .reader))
          (r := some (x, .writer)) (f := (s.files.setCount p (some 0)).setFd s.files.curtask i (some p))
          (g := (((s.files.setCount p (some 1)).setFd s.files.curtask i (some p)).setCount q (some 1)).setFd
            s.files.curtask j (some q))
          hp hq.1 hpq hfree (hmade _) (hmade _) rfl rfl rfl hfree' rfl rfl rfl
        refine .same hinv (fun k => ?_) trivial
        rw [hgap, gap_setInfo (hx x rfl)]
        omega
      · obtain ⟨hinv, hgap⟩ := setFile_two h (o := none) (r := none) hp hq.1 hpq hfree not_made not_made
          (f := (s.files.setCount p (some 0)).setFd s.files.curtask i (some p)) rfl rfl rfl hfree'
          (g := (((s.files.setCount p (some 0)).setFd s.files.curtask i (some p)).setCount q (some 0)).setFd
            s.files.curtask j (some q)) rfl rfl rfl
        exact .same hinv (fun k => by simp [hgap]) trivial

theorem doFork_effect (h : s.Inv) {ok : Files.ForkSteps} (ht : t ∉ s.files.live) (hs : s.doFork t ok = some s') :
    Effect s s' (s.KeepsEnds (.fork t ok)) := by
  obtain ⟨f, hf, rfl⟩ := map_eq_some_iff.mp hs
  rw [Files.doFork] at hf
  split at hf
  · rename_i hok
    obtain ⟨f₁, hf₁, rfl⟩ := map_eq_some_iff.mp hf
    obtain ⟨c, rfl⟩ := incCounts_eq _ hf₁
    split
    · rename_i hcopy
      refine .copied (h.setFiles (Finset.mem_insert_of_mem h.curtask)) (gap_enter ht c) ?_
      rw [← noEnds_iff]
      exact ⟨fun hno _ => hno, fun hkeep => hkeep ⟨hok, hcopy⟩⟩
    · rename_i hcopy
      refine .same (h.setFiles h.curtask) (fun _ => rfl) fun hall => absurd hall.2 hcopy
  · rename_i hok
    obtain rfl := some.inj hf
    exact .refl h fun hall => absurd hall.1 hok

theorem execve_effect (h : s.Inv) {found : Bool} (ht : t ∉ s.files.live) (hs : s.execve found t = some s') :
    Effect s s' (s.KeepsEnds (.execve found t)) := by
  obtain ⟨f, hf, rfl⟩ := map_eq_some_iff.mp hs
  rw [Files.execve] at hf
  split at hf
  · rename_i hfound
    obtain ⟨c, rfl⟩ := incCounts_eq _ hf
    refine .copied (h.setFiles (Finset.mem_insert_of_mem h.curtask)) (gap_enter ht c) ?_
    rw [← noEnds_iff]
    exact ⟨fun hno _ => hno, fun hkeep => hkeep hfound⟩
  · rename_i hfound
    obtain rfl := some.inj hf
    exact .refl h fun hyes => absurd hyes hfound

theorem derefFile_effect (h : s.Inv) (hs : s.derefFile i = some s') : Effect s s' (s.NoWriter i) := by
  have hrel := derefFile_released h hs
  refine ⟨hrel.inv h, fun hb => ?_⟩
  have hsame : s'.Balanced ↔ ∀ k, s'.gap k = s.gap k := forall_congr' fun k => by rw [hb k]
  rw [hsame, hrel.same, List.forall_mem_singleton]

theorem pid2task_live (h : s.Inv) {pid task : Nat} (htask : s.files.pid2task pid = some task) :
    task ∈ s.files.live := by
  rw [pid2task] at htask
  split at htask
  · rw [← some.inj htask]
    exact h.curtask
  · split at htask
    · rename_i hpid
      rw [← some.inj htask]
      exact hpid.1
    · cases htask

theorem sysExit_effect (h : s.Inv) {pid nxt : Nat} (hs : s.sysExit pid nxt = some s') :
    Effect s s' (s.KeepsEnds (.exit pid nxt)) := by
  obtain ⟨task, htask, hs⟩ := bind_eq_some_iff.mp hs
  obtain ⟨s₂, hs₂, hs⟩ := bind_eq_some_iff.mp hs
  obtain ⟨s₁, hs₁, rfl⟩ := map_eq_some_iff.mp hs₂
  obtain ⟨f, hf, rfl⟩ := map_eq_some_iff.mp hs
  have hlive := pid2task_live h htask
  rw [exitFiles] at hs₁
  have hrel := derefFiles_released _ h hs₁
  rw [← hrel.files.live] at hlive
  rw [Files.schedule] at hf
  split at hf
  · rename_i hnext
    obtain rfl := some.inj hf
    change Effect s (s₁.setFiles { s₁.files with live := s₁.files.live.erase task, curtask := nxt }) _
    refine ⟨(hrel.inv h).setFiles hnext, fun hb => ?_⟩
    have hgap := gap_leave hlive nxt
    -- the current task has nothing left, another one has what it had
    have hrow : s₁.NoEnds task ↔ (task ≠ s.files.curtask → s.NoEnds task) := by
      by_cases hself : task = s.files.curtask
      · refine iff_of_true (fun i => ?_) (fun hne => absurd hself hne)
        rw [slot, hself, hrel.files.empty i (List.mem_finRange i), bind_none]
      · simp only [NoEnds, hrel.slot_other (.inl hself), hself, ne_eq, not_false_eq_true, true_imp_iff]
    have hkeep : s.KeepsEnds (.exit pid nxt) ↔ (∀ k, s₁.gap k = s.gap k) ∧ ∀ k, s₁.rowEnds task k = 0 := by
      rw [hrel.same, ← noEnds_iff, hrow, pid2task_target htask]
      simp [KeepsEnds]
    rw [hkeep]
    constructor
    · intro hb'
      have hzero : ∀ k, s₁.gap k = s.gap k ∧ s₁.rowEnds task k = 0 := by
        intro k
        have hk := hb' k
        have := hrel.wider k
        rw [hgap] at hk
        rw [hb k] at *
        omega
      exact ⟨fun k => (hzero k).1, fun k => (hzero k).2⟩
    · rintro ⟨hsame, hzero⟩ k
      rw [hgap, hsame, hzero, hb]
      rfl
  · cases hf

theorem io_effect (h : s.Inv) {e : PipeEnd} {call : PipeInodeInfo → PipeInodeInfo}
    (hcall : ∀ info e, (call info).counter e = info.counter e) : Effect s (s.io e i call) True := by
  unfold io
  split
  · exact .refl h trivial
  · rename_i x e' _
    split
    · refine .same ⟨h.curtask, fun p k hp => ?_⟩ (gap_congr (fun k => ?_) rfl fun _ _ _ => rfl) trivial
      · have hk := h.made p k hp
        by_cases hx : k.1 = x
        · subst hx
          simpa using hk
        · simpa [hx] using hk
      · simp only [counter]
        by_cases hx : k.1 = x
        · subst hx
          cases hinfo : s.infos k.1 <;> simp [hcall]
        · simp [hx]
    · exact .refl h trivial

theorem step_effect (h : s.Inv) {op : PipeFileOp} (ha : s.Allowed op) : Effect s (s.next op) (s.KeepsEnds op) := by
  obtain ⟨s', hs⟩ := ne_none_iff_exists'.mp ha.1
  rw [next, hs, getD_some]
  have hnew := ha.2
  cases op with
  | sysOpen found mem opened =>
    obtain rfl := some.inj hs
    exact sysOpen_effect h hnew
  | dup oldfd => exact dup_effect h hs
  | dup2 oldfd newfd => exact dup2_effect h hs
  | pipe mem₁ mem₂ info dentry =>
    obtain rfl := some.inj hs
    exact pipe_effect h hnew.1 hnew.2.1 hnew.2.2
  | fork child ok => exact doFork_effect h hnew hs
  | execve found child => exact execve_effect h hnew hs
  | deref i => exact derefFile_effect h hs
  | exit pid next => exact sysExit_effect h hs
  | switch next =>
    obtain ⟨f, hf, rfl⟩ := map_eq_some_iff.mp hs
    rw [Files.schedule] at hf
    split at hf
    · obtain rfl := some.inj hf
      exact .same (h.setFiles ‹_›) (fun _ => rfl) trivial
    · cases hf
  | read i count =>
    obtain rfl := some.inj hs
    refine io_effect h fun info e => ?_
    have hsame := readLoop_counters count.toNat 0 info
    cases e with
    | reader => exact hsame.1
    | writer => exact hsame.2
  | write i buf count =>
    obtain rfl := some.inj hs
    refine io_effect h fun info e => ?_
    have hsame := writeLoop_counters buf count.toNat 0 info
    cases e with
    | reader => exact hsame.1
    | writer => exact hsame.2

theorem Start.inv (h : s.Start) : s.Inv := by
  refine ⟨h.curtask, fun p k hp => ?_⟩
  rw [h.files p] at hp
  cases hp

theorem Start.balanced (h : s.Start) : s.Balanced := by
  intro k
  rw [gap, counter, h.pipes k.1, h.inv.ends_eq_zero (h.pipes k.1)]
  rfl

end PipeFiles

/-- The counters of all pipes are right after every call of a run exactly when no call copies a
descriptor of a pipe, releases a write end, or kills a task that has descriptors of pipes. -/
theorem pipe_ends_counted {s₀ : PipeFiles} (h₀ : s₀.Start) (ops : List PipeFileOp)
    (hrun : Along PipeFiles.next PipeFiles.Allowed s₀ ops) :
    Along PipeFiles.next (fun s op => (s.next op).EndsRight) s₀ ops ↔
      Along PipeFiles.next PipeFiles.KeepsEnds s₀ ops := by
  refine along_iff (fun s => s.Inv ∧ s.Balanced) ?_ ?_ ops ⟨h₀.inv, h₀.balanced⟩ hrun
  · rintro s op ⟨h, hb⟩ ha hkeep
    have heff := PipeFiles.step_effect h ha
    exact ⟨heff.inv, (heff.balanced hb).mpr hkeep⟩
  · rintro s op ⟨h, hb⟩ ha
    have heff := PipeFiles.step_effect h ha
    rw [heff.inv.right_iff, heff.balanced hb]

def bootPipes : PipeFiles := ⟨bootFiles, fun _ => none, fun _ => none⟩

theorem bootPipes_start : bootPipes.Start :=
  ⟨bootFiles_start.curtask, bootFiles_start.tables, fun _ => rfl, fun _ => rfl⟩

def onePipe : PipeFileOp := .pipe (some 0xC0300000) (some 0xC0300040) (some 0xC0300080) true

theorem onePipe_allowed : bootPipes.Allowed onePipe := by
  refine ⟨some_ne_none _, ?_, ?_, fun _ _ => rfl⟩
  · rintro p - t - i ⟨⟩
  · rintro q ⟨⟩
    exact ⟨fun t _ i => nofun, by decide⟩

theorem pipe_ends_counted_read :
    Along PipeFiles.next (fun s op => (s.next op).EndsRight) bootPipes [onePipe, .deref firstFd] := by
  have hrun : Along PipeFiles.next PipeFiles.Allowed bootPipes [onePipe, .deref firstFd] :=
    ⟨onePipe_allowed, ⟨by decide +kernel, trivial⟩, trivial⟩
  refine (pipe_ends_counted bootPipes_start _ hrun).mpr ⟨trivial, fun x hx => ?_, trivial⟩
  have hread : (bootPipes.next onePipe).slot (bootPipes.next onePipe).files.curtask firstFd =
      some (0xC0300080, .reader) := by decide +kernel
  rw [hread] at hx
  cases hx

def oneFile : PipeFileOp := .sysOpen true (some 0xC03000C0) true

def replaced : PipeFiles := ((bootPipes.next onePipe).next oneFile).next (.dup2 2 1)

/-- The write end of an empty pipe is replaced by another file with `dup2`: no write end is open,
two are counted, and a read of one byte returns one. -/
theorem pipe_writer_stays : Along PipeFiles.next PipeFiles.Allowed bootPipes [onePipe, oneFile, .dup2 2 1] ∧
    ¬ Along PipeFiles.next (fun s op => (s.next op).EndsRight) bootPipes [onePipe, oneFile, .dup2 2 1] ∧
    ∃ info, replaced.infos 0xC0300080 = some info ∧ info.pWriter = 2 ∧ info.pRpos = info.pWpos ∧
      (pipefsFileRead info 1).1.length = 1 ∧ replaced.ends (0xC0300080, .writer) = 0 := by
  have hdone : (replaced.infos 0xC0300080).map (fun info => (info.pWriter, info.pRpos, info.pWpos,
      (pipefsFileRead info 1).1.length)) = some (2, 0, 0, 1) ∧ replaced.ends (0xC0300080, .writer) = 0 := by
    decide +kernel
  obtain ⟨hmap, hends⟩ := hdone
  obtain ⟨info, hinfo, hvals⟩ := map_eq_some_iff.mp hmap
  simp only [Prod.mk.injEq] at hvals
  obtain ⟨hw, hr, hw', hlen⟩ := hvals
  refine ⟨⟨onePipe_allowed, ⟨some_ne_none _, ?_⟩, ⟨by decide +kernel, trivial⟩, trivial⟩, ?_,
    info, hinfo, hw, hr.trans hw'.symm, hlen, hends⟩
  · rintro p ⟨⟩
    have hnew : ∀ t ∈ (bootPipes.next onePipe).files.live, ∀ i,
        (bootPipes.next onePipe).files.fd t i ≠ some 0xC03000C0 := by decide +kernel
    exact hnew
  · rintro ⟨-, -, hright, -⟩
    have hcount := hright.writer 0xC0300080 info hinfo
    change info.pWriter = (replaced.ends (0xC0300080, .writer) : Int) at hcount
    rw [hw, hends] at hcount
    cases hcount

end MiniOS
