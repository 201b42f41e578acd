import MiniOS.ZoneSound

/-!
# The buddy allocator merges all it can

Where free pages are not reserved, no two buddies are free at once, so the free
blocks are the only merged tiling of the free pages: an aligned run of free pages
lies in one block, and the history of a zone does not show in its free lists.
-/

namespace MiniOS

open Function Option Relation

section
variable {F : Set Nat} {z z' : Zone} {fl : Nat → List Nat} {H : Set Block} {i k order : Nat}
    {s s' : Zone × Set Block}

theorem BuddyRep.freeBlocks_eq (h : BuddyRep F z fl H) : z.freeBlocks = freeSet fl := by
  have hhead : ∀ (m : Nat) (l : List Nat), ZNode.head m ∉ l.map ZNode.page := by
    intro m l hm
    obtain ⟨j, -, e⟩ := List.mem_map.mp hm
    cases e
  ext ⟨j, m⟩
  constructor
  · rintro ⟨hm, l, hring, hj⟩
    have e : l.map ZNode.page = (fl m).map ZNode.page :=
      (hring.chain (hhead m l)).unique ((h.rings.ring m hm).chain (hhead m (fl m)))
    have el : l = fl m := List.map_injective_iff.mpr (fun _ _ e => ZNode.page.inj e) e
    exact ⟨hm, el ▸ hj⟩
  · rintro ⟨hm, hj⟩
    exact ⟨hm, fl m, h.rings.ring m hm, hj⟩

theorem BuddyRep.mem_freeBlocks_iff (h : BuddyRep F z fl H) (hi : i < z.size) :
    (i, k) ∈ z.freeBlocks ↔ (z.mempage i).order = k := by
  rw [h.freeBlocks_eq, h.order_iff hi]
  exact Iff.rfl

theorem BuddyRep.pages (h : BuddyRep F z fl H) : pagesOf (freeSet fl) = F \ pagesOf H := by
  ext p
  constructor
  · rintro ⟨b, hb, h₁, h₂⟩
    refine ⟨h.tiling.subset (.inl hb) h₁ h₂, ?_⟩
    rintro ⟨c, hc, h₃, h₄⟩
    have e : b = c := h.tiling.eq_of_mem (.inl hb) (.inr hc) h₁ h₂ h₃ h₄
    exact h.notHeld b hb (e ▸ hc)
  · rintro ⟨hp, hno⟩
    obtain ⟨b, hb, h₁, h₂⟩ := (h.tiling.cover p).mp hp
    rcases hb with hb | hb
    · exact ⟨b, hb, h₁, h₂⟩
    · exact absurd ⟨b, hb, h₁, h₂⟩ hno

structure Clean (F : Set Nat) (z : Zone) (H : Set Block) : Prop where
  flags : ∀ p ∈ F, (z.mempage p).flags &&& pgReserved = 0
  nref : ∀ p ∈ F, p ∉ pagesOf H → (z.mempage p).nref = 0

theorem Clean.frame {H' : Set Block} (h : Clean F z H) (hf : z.Frame z')
    (hH : ∀ p ∈ F, p ∉ pagesOf H' → p ∈ pagesOf H → (z.mempage p).nref = 0) : Clean F z' H' where
  flags p hp := by
    rw [hf.flags]
    exact h.flags p hp
  nref p hp hno := by
    rw [hf.nref]
    by_cases hm : p ∈ pagesOf H
    · exact hH p hp hno hm
    · exact h.nref p hp hm

/-! ## `free_buddy` -/

theorem mergeBuddy_stop : ∀ (left : Nat) (z : Zone) (i k : Nat) {z' : Zone} {i' k' : Nat},
    Zone.mergeBuddy left z i k = some (z', i', k') → k' < k + left →
    z'.size ≤ i' ^^^ 2 ^ k' ∨
      (z'.pfn + (i' ^^^ 2 ^ k')) % 2 ^ k' = 0 ∧ pageIsBuddy (z'.mempage (i' ^^^ 2 ^ k')) k' = false := by
  intro left
  induction left with
  | zero =>
    intro z i k z' i' k' h hlt
    cases h
    omega
  | succ left ih =>
    intro z i k z' i' k' h hlt
    rcases mergeBuddy_succ h with ⟨e, hstop⟩ | ⟨-, -, h⟩
    · cases e
      exact hstop
    · exact ih _ _ _ h (by omega)

theorem freeBuddy_merged (hr : BuddyRep F z fl H) (hm : Merged maxOrder z.freeBlocks) (hc : Clean F z H)
    (hi : (i, k) ∈ H) (h : z.freeBuddy i k = some z') : Merged maxOrder z'.freeBlocks := by
  obtain ⟨hk, z₁, i₁, k₁, hmerge, rfl⟩ := freeBuddy_cases h
  obtain ⟨hfr, -, hk₁, hk₁'⟩ := mergeBuddy_frame _ _ _ _ hmerge
  obtain ⟨fl₁, hr₁, hH₁, -, hsub⟩ := mergeBuddy_rep _ (hr.take hi _) (by simp) hmerge
  have hlt : k₁ < maxOrder := by omega
  rw [hr.freeBlocks_eq] at hm
  rw [(hr₁.link hlt hH₁).freeBlocks_eq, freeSet_cons fl₁ hlt]
  refine (hm.mono hsub).insert fun hk₂ hb => ?_
  -- a free buddy would have passed the test
  have hmem : i₁ ^^^ 2 ^ k₁ ∈ pagesOf (freeSet fl) :=
    ⟨_, hsub hb, Nat.le_refl _, Nat.lt_add_of_pos_right (Nat.two_pow_pos k₁)⟩
  rw [hr.pages] at hmem
  have hlisted := hr₁.listed k₁ hlt _ hb.2
  rcases mergeBuddy_stop _ _ _ _ hmerge (by omega) with hsz | ⟨-, hno⟩
  · have := hr₁.inside _ hmem.1
    omega
  · have hnref := hc.nref _ hmem.1 hmem.2
    have hflags := hc.flags _ hmem.1
    rw [pageIsBuddy, hfr.nref, hfr.flags] at hno
    simp only [hlisted, hnref, hflags, decide_true, Bool.and_self, Bool.true_eq_false] at hno

/-! ## `alloc_buddy` -/

theorem allocBuddyFrom_inv : ∀ (left : Nat), z.allocBuddyFrom order left = some (some i, z') →
    ∃ cur, maxOrder - left ≤ cur ∧ cur < maxOrder ∧ z.links.listEmpty (.head cur) = false ∧
      z.links.next (.head cur) = .page i ∧
      z' = Zone.allocBuddyAux order i cur { z.unlink i cur with freePages := wsub z.freePages (2 ^ order) } := by
  intro left
  induction left with
  | zero => intro h; cases h
  | succ left ih =>
    intro h
    simp only [Zone.allocBuddyFrom] at h
    split at h
    · obtain ⟨cur, hle, hrest⟩ := ih h
      exact ⟨cur, by omega, hrest⟩
    · rename_i hne
      split at h
      · cases h
      · rename_i j hj
        simp only [some.injEq, Prod.mk.injEq] at h
        obtain ⟨rfl, rfl⟩ := h
        exact ⟨_, Nat.le_refl _, by unfold maxOrder; omega, Bool.eq_false_iff.mpr hne, hj, rfl⟩

theorem allocBuddy_merged (hr : BuddyRep F z fl H) (hm : Merged maxOrder z.freeBlocks) (ho : order < maxOrder)
    (h : z.allocBuddy order = some (some i, z')) : Merged maxOrder z'.freeBlocks := by
  rw [Zone.allocBuddy, if_neg (by omega)] at h
  split at h
  · cases h
  obtain ⟨cur, hle, hlt, hne, hnext, rfl⟩ := allocBuddyFrom_inv _ h
  have hring := hr.rings.ring cur hlt
  have hemp := hr.rings.empty_iff hlt
  simp only [comp_apply] at hring hemp
  cases hf : fl cur with
  | nil =>
    rw [hf, hne] at hemp
    simp at hemp
  | cons j js =>
    rw [hf, List.map_cons] at hring
    have hj : j = i := ZNode.page.inj (hring.next_head.symm.trans hnext)
    rw [hj] at hf
    have hu : BuddyRep F { z.unlink i cur with freePages := wsub z.freePages (2 ^ order) }
        (update fl cur ([] ++ js)) (insert (i, cur) H) := { hr.unlink hlt [] js hf with }
    have hH : (i, cur) ∉ H := hr.notHeld _ ⟨hlt, by simp [hf]⟩
    have hle' : order ≤ cur := by omega
    obtain ⟨fl', hr', -, -, hmerged⟩ := allocBuddyAux_rep cur hle' hlt hu hH
    rw [hr.freeBlocks_eq] at hm
    have hm' := hmerged (hm.mono (freeSet_remove [] js hf))
    rw [← hr'.freeBlocks_eq] at hm'
    exact hm'

theorem allocBuddy_none_iff (hr : BuddyRep F z fl H) (hfp : z.freePages = freeCount fl)
    (hm : Merged maxOrder z.freeBlocks) (ho : order < maxOrder) :
    ∃ r z', z.allocBuddy order = some (r, z') ∧
      (r = none ↔ ¬ ∃ j, 2 ^ order ∣ j ∧ ∀ p, j ≤ p → p < j + 2 ^ order → p ∈ pagesOf z.freeBlocks) := by
  rw [hr.freeBlocks_eq] at hm ⊢
  have hspec := allocBuddy_spec hr hfp ho
  cases h : z.allocBuddy order with
  | none =>
    rw [h] at hspec
    cases hspec
  | some r =>
    rw [h] at hspec
    cases hspec with
    | @block j z₁ fl' hr' hH _ _ =>
      refine ⟨some j, z₁, rfl, nofun, fun hno => absurd ?_ hno⟩
      have hb : ((j, order) : Block) ∈ freeSet fl' ∪ insert (j, order) H := .inr (Set.mem_insert _ _)
      refine ⟨j, hr'.tiling.aligned _ hb, fun p h₁ h₂ => ?_⟩
      rw [hr.pages]
      refine ⟨hr'.tiling.subset hb h₁ h₂, ?_⟩
      rintro ⟨c, hc, h₃, h₄⟩
      have e : (j, order) = c := hr'.tiling.eq_of_mem hb (.inr (Set.mem_insert_of_mem _ hc)) h₁ h₂ h₃ h₄
      exact hH (e ▸ hc)
    | none hempty =>
      refine ⟨none, z, rfl, fun _ => ?_, fun _ => rfl⟩
      rintro ⟨j, hj, hp⟩
      obtain ⟨b, ⟨hb, hmem⟩, hle, -, -⟩ := hr.tiling.part.run hm order ho hj hp
      rw [hempty b.2 hle hb] at hmem
      cases hmem

/-! ## Runs -/

structure MergeInv (F : Set Nat) (s : Zone × Set Block) : Prop where
  rep : ∃ fl, BuddyRep F s.1 fl s.2 ∧ s.1.freePages = freeCount fl
  merged : Merged maxOrder s.1.freeBlocks
  clean : Clean F s.1 s.2

theorem zoneStep_frame (h : ZoneStep s s') (hi : MergeInv F s) :
    Clean F s'.1 s'.2 := by
  obtain ⟨⟨fl, hr, hfp⟩, -, hc⟩ := hi
  cases h with
  | alloc ho h =>
    have := allocBuddy_spec hr hfp ho
    rw [h] at this
    cases this with
    | block fl' hr' _ hfp' hfr =>
      refine hc.frame hfr fun p _ hno hp => absurd ?_ hno
      obtain ⟨b, hb, hbp⟩ := hp
      exact ⟨b, Set.mem_insert_of_mem _ hb, hbp⟩
  | allocNone ho h =>
    have := allocBuddy_spec hr hfp ho
    rw [h] at this
    cases this with
    | none _ => exact hc
  | @free z z' H i order hm hnref h =>
    obtain ⟨fl', hr', hfp', hfr⟩ := freeBuddy_spec hr hfp hm h
    refine hc.frame hfr fun p _ hno hp => ?_
    -- the page is held by the block that is freed
    obtain ⟨b, hb, h₁, h₂⟩ := hp
    by_cases e : b = (i, order)
    · rw [e] at h₁ h₂
      exact hnref p h₁ h₂
    · exact absurd ⟨b, ⟨hb, e⟩, h₁, h₂⟩ hno
  | @ref z H i order p n hm h₁ h₂ =>
    have hp : p ∈ pagesOf H := ⟨_, hm, h₁, h₂⟩
    have hflags : ∀ q, (update z.mempage p { z.mempage p with nref := n } q).flags = (z.mempage q).flags := by
      intro q
      by_cases e : q = p
      · rw [e, update_self]
      · rw [update_of_ne e]
    refine ⟨fun q hq => (congrArg (· &&& pgReserved) (hflags q)).trans (hc.flags q hq), fun q hq hno => ?_⟩
    have e : q ≠ p := fun e => hno (e ▸ hp)
    exact (congrArg Page.nref (update_of_ne e ..)).trans (hc.nref q hq hno)

theorem zoneStep_merged (h : ZoneStep s s') (hi : MergeInv F s) : MergeInv F s' := by
  refine ⟨(zoneStep_rep h hi.rep).1, ?_, zoneStep_frame h hi⟩
  obtain ⟨⟨fl, hr, hfp⟩, hm, hc⟩ := hi
  cases h with
  | alloc ho h => exact allocBuddy_merged hr hm ho h
  | allocNone ho h =>
    have := allocBuddy_spec hr hfp ho
    rw [h] at this
    cases this with
    | none _ => exact hm
  | free hi _ h => exact freeBuddy_merged hr hm hc hi h
  | ref n _ _ _ => exact hm

theorem mergeInv_of_run (hi : MergeInv F s)
    (hrun : ReflTransGen ZoneStep s s') : MergeInv F s' := by
  induction hrun with
  | refl => exact hi
  | tail _ hstep ih => exact zoneStep_merged hstep ih

end

section
variable {z₀ z : Zone}

theorem InitInv.clean {n : Nat} {fl : Nat → List Nat} (hi : InitInv z₀ n z fl) (hz : ZoneFresh z₀)
    (hf : z₀.OneFlag) (H : Set Block) : Clean (zoneFree z₀) z H where
  flags p hp := by
    rw [hi.frame.flags]
    exact hf p hp.1 hp.2
  nref p hp _ := by
    rw [hi.frame.nref]
    exact hz.nref p hp.1

theorem freeAreaInit_merged (hz : ZoneFresh z₀) (hf : z₀.OneFlag) (h : z₀.freeAreaInit = some z) :
    MergeInv (zoneFree z₀) (z, ∅) := by
  obtain ⟨fl, hr, hfp, -⟩ := freeAreaInit_rep hz h
  obtain ⟨_, hi⟩ := foldlM_freePage hz _ (Nat.le_refl _) h
  refine ⟨⟨fl, hr, hfp⟩, ?_, hi.clean hz hf _⟩
  refine foldlM_freePage_induct (P := fun z => Merged maxOrder z.freeBlocks) hz ?_ ?_ _ (Nat.le_refl _) h
  · rw [(initFreeLists_rep hz).freeBlocks_eq]
    intro j m _ hb
    cases hb.2
  · intro n z₁ z₂ fl₁ hi₁ hfree hstep hm
    exact freeBuddy_merged hi₁.rep hm (hi₁.clean hz hf _) ⟨rfl, Nat.le_refl n, hfree⟩ hstep

/-- **Completeness of the buddy allocator.** Buddies are never both free, and
`alloc_buddy` fails only where the free pages hold no aligned run of the size. -/
theorem buddy_complete {z' : Zone} {H : Set Block} (hz : ZoneFresh z₀) (hf : z₀.OneFlag)
    (hi : z₀.freeAreaInit = some z) (hrun : ReflTransGen ZoneStep (z, ∅) (z', H)) :
    (∀ i k, k < maxOrder - 1 → (i, k) ∈ z'.freeBlocks → (i ^^^ 2 ^ k, k) ∉ z'.freeBlocks) ∧
    ∀ order < maxOrder, ∃ r z'', z'.allocBuddy order = some (r, z'') ∧
      (r = none ↔ ¬ ∃ j, 2 ^ order ∣ j ∧ ∀ p, j ≤ p → p < j + 2 ^ order → p ∈ pagesOf z'.freeBlocks) := by
  obtain ⟨⟨fl, hr, hfp⟩, hm, -⟩ := mergeInv_of_run (freeAreaInit_merged hz hf hi) hrun
  exact ⟨fun i k hk => hm i k (by omega), fun order ho => allocBuddy_none_iff hr hfp hm ho⟩

theorem tinyZone_oneFlag : tinyZone.OneFlag := by
  intro p _ _
  change pgFree &&& pgReserved = 0
  decide

theorem buddy_complete_tiny : ∃ z z' j, tinyZone.freeAreaInit = some z ∧ z.allocBuddy 0 = some (some j, z') ∧
    (∀ i k, k < maxOrder - 1 → (i, k) ∈ z'.freeBlocks → (i ^^^ 2 ^ k, k) ∉ z'.freeBlocks) := by
  have h : (tinyZone.freeAreaInit.bind fun z => (z.allocBuddy 0).map fun r => r.1) = some (some 0) := by decide
  simp only [bind_eq_some_iff, map_eq_some_iff] at h
  obtain ⟨z, hz, ⟨_, z'⟩, ha, rfl⟩ := h
  exact ⟨z, z', 0, hz, ha, (buddy_complete tinyZone_fresh tinyZone_oneFlag hz (.single (.alloc (by decide) ha))).1⟩

def markedZone : Zone where
  freePages := 0
  size := 2
  pfn := 0
  mempage i := ⟨0, if i = 0 then pgFree + pgReserved else pgFree, -1⟩
  links := ⟨id, id⟩
  nfree _ := 0

theorem markedZone_fresh : ZoneFresh markedZone := ⟨by decide, rfl, fun _ _ => rfl, fun _ _ => rfl, fun _ _ => rfl⟩

/-- A reserved page is no buddy, so the two free pages stay apart and `alloc_buddy`
finds no block of two. -/
theorem marked_not_merged : ZoneFresh markedZone ∧ ∃ z z', markedZone.freeAreaInit = some z ∧
    (0, 0) ∈ z.freeBlocks ∧ (0 ^^^ 2 ^ 0, 0) ∈ z.freeBlocks ∧ z.allocBuddy 1 = some (none, z') ∧
    2 ^ 1 ∣ 0 ∧ ∀ p, 0 ≤ p → p < 0 + 2 ^ 1 → p ∈ pagesOf z.freeBlocks := by
  have h : (markedZone.freeAreaInit.bind fun z => (z.allocBuddy 1).map fun r =>
      (r.1, z.size, (z.mempage 0).order, (z.mempage 1).order)) = some (none, 2, 0, 0) := by decide
  simp only [bind_eq_some_iff, map_eq_some_iff, Prod.mk.injEq] at h
  obtain ⟨z, hz, ⟨_, z'⟩, ha, rfl, hsize, h₀, h₁⟩ := h
  obtain ⟨fl, hr, -⟩ := freeAreaInit_rep markedZone_fresh hz
  have hb₀ : (0, 0) ∈ z.freeBlocks := (hr.mem_freeBlocks_iff (by omega)).mpr h₀
  have hb₁ : (1, 0) ∈ z.freeBlocks := (hr.mem_freeBlocks_iff (by omega)).mpr h₁
  refine ⟨markedZone_fresh, z, z', hz, hb₀, hb₁, ha, Nat.dvd_zero _, fun p _ hp => ?_⟩
  rcases Nat.lt_or_ge p 1 with hlt | hge
  · exact ⟨(0, 0), hb₀, Nat.zero_le _, hlt⟩
  · exact ⟨(1, 0), hb₁, hge, hp⟩

end

/-! ## Confluence -/

section
variable {F : Set Nat} {z z₁ z₂ : Zone} {H H₁ H₂ : Set Block}

theorem MergeInv.pages (h : MergeInv F (z, H)) : pagesOf z.freeBlocks = F \ pagesOf H := by
  obtain ⟨⟨fl, hr, -⟩, -, -⟩ := h
  rw [hr.freeBlocks_eq, hr.pages]

theorem MergeInv.blocks_eq (h₁ : MergeInv F (z₁, H₁)) (h₂ : MergeInv F (z₂, H₂))
    (hp : pagesOf z₁.freeBlocks = pagesOf z₂.freeBlocks) : z₁.freeBlocks = z₂.freeBlocks := by
  obtain ⟨⟨fl₁, hr₁, -⟩, hm₁, -⟩ := h₁
  obtain ⟨⟨fl₂, hr₂, -⟩, hm₂, -⟩ := h₂
  rw [hr₁.freeBlocks_eq] at hm₁ hp ⊢
  rw [hr₂.freeBlocks_eq] at hm₂ hp ⊢
  refine Tiling.unique hr₁.tiling.part ?_ hm₁ hm₂ (fun b hb => hb.1) (fun b hb => hb.1)
  rw [hp]
  exact hr₂.tiling.part

theorem MergeInv.blocks_eq_of_held (h₁ : MergeInv F (z₁, H)) (h₂ : MergeInv F (z₂, H)) :
    z₁.freeBlocks = z₂.freeBlocks := h₁.blocks_eq h₂ (h₁.pages.trans h₂.pages.symm)

theorem freeAll_run : ∀ {l : List Block} {z z' : Zone} {H : Set Block}, MergeInv F (z, H) → l.Nodup →
    (∀ b ∈ l, b ∈ H ∧ ∀ p, b.1 ≤ p → p < b.1 + 2 ^ b.2 → (z.mempage p).nref = 0) → z.freeAll l = some z' →
    ReflTransGen ZoneStep (z, H) (z', H \ {b | b ∈ l}) := by
  intro l
  induction l with
  | nil =>
    intro z z' H _ _ _ h
    obtain rfl := some.inj h
    have e : H \ {b | b ∈ ([] : List Block)} = H := by
      ext b
      simp
    rw [e]
  | cons b l ih =>
    intro z z' H hi hnd hall h
    rw [Zone.freeAll, List.foldlM_cons, bind_eq_bind, bind_eq_some_iff] at h
    obtain ⟨z₁, h₁, h⟩ := h
    obtain ⟨hb, hnref⟩ := hall b (List.mem_cons_self ..)
    have hstep : ZoneStep (z, H) (z₁, H \ {b}) := .free hb hnref h₁
    obtain ⟨fl, hr, hfp⟩ := hi.rep
    obtain ⟨-, -, -, hfr⟩ := freeBuddy_spec hr hfp hb h₁
    have hrest := ih (zoneStep_merged hstep hi) (List.nodup_cons.mp hnd).2 ?_ h
    · have e : (H \ {b}) \ {c | c ∈ l} = H \ {c | c ∈ b :: l} := by
        ext c
        simp only [Set.mem_sdiff, Set.mem_singleton_iff, Set.mem_ofPred_eq, List.mem_cons]
        tauto
      rw [e] at hrest
      exact .head hstep hrest
    · intro c hc
      obtain ⟨hcH, hcref⟩ := hall c (List.mem_cons_of_mem _ hc)
      refine ⟨⟨hcH, fun e => (List.nodup_cons.mp hnd).1 (e ▸ hc)⟩, fun p h₁ h₂ => ?_⟩
      rw [hfr.nref]
      exact hcref p h₁ h₂

theorem alloc_free_blocks (hi : MergeInv F (z, H)) {i k : Nat} (hk : k < maxOrder)
    (ha : z.allocBuddy k = some (some i, z₁)) (hf : z₁.freeBuddy i k = some z₂) : z₂.freeBlocks = z.freeBlocks := by
  obtain ⟨fl, hr, hfp⟩ := hi.rep
  have hspec := allocBuddy_spec hr hfp hk
  rw [ha] at hspec
  cases hspec with
  | block fl' hr' hH hfp' hfr =>
    have hb : ((i, k) : Block) ∈ freeSet fl' ∪ insert (i, k) H := .inr (Set.mem_insert _ _)
    have hnref : ∀ p, i ≤ p → p < i + 2 ^ k → (z₁.mempage p).nref = 0 := by
      intro p h₁ h₂
      rw [hfr.nref]
      refine hi.clean.nref p (hr'.tiling.subset hb h₁ h₂) ?_
      rintro ⟨c, hc, h₃, h₄⟩
      have e : (i, k) = c := hr'.tiling.eq_of_mem hb (.inr (Set.mem_insert_of_mem _ hc)) h₁ h₂ h₃ h₄
      exact hH (e ▸ hc)
    have hrun := zoneStep_merged (.free (Set.mem_insert _ _) hnref hf) (zoneStep_merged (.alloc hk ha) hi)
    have e : insert (i, k) H \ {(i, k)} = H := Set.insert_sdiff_self_of_notMem hH
    rw [e] at hrun
    exact hrun.blocks_eq_of_held hi

end

/-- **Confluence of the buddy allocator.** What is free decides the free blocks: after
any two runs, after freeing blocks in any order, and after an allocation that is
given back. -/
theorem buddy_confluence {z₀ z z₁ z₂ : Zone} {H₁ H₂ : Set Block} (hz : ZoneFresh z₀) (hf : z₀.OneFlag)
    (hi : z₀.freeAreaInit = some z) (hrun₁ : ReflTransGen ZoneStep (z, ∅) (z₁, H₁))
    (hrun₂ : ReflTransGen ZoneStep (z, ∅) (z₂, H₂)) :
    (pagesOf z₁.freeBlocks = pagesOf z₂.freeBlocks → z₁.freeBlocks = z₂.freeBlocks) ∧
    (∀ l l' z₃ z₄, l.Perm l' → l.Nodup →
      (∀ b ∈ l, b ∈ H₁ ∧ ∀ p, b.1 ≤ p → p < b.1 + 2 ^ b.2 → (z₁.mempage p).nref = 0) →
      z₁.freeAll l = some z₃ → z₁.freeAll l' = some z₄ → z₃.freeBlocks = z₄.freeBlocks) ∧
    ∀ i k z₃ z₄, k < maxOrder → z₁.allocBuddy k = some (some i, z₃) → z₃.freeBuddy i k = some z₄ →
      z₄.freeBlocks = z₁.freeBlocks := by
  have h₁ := mergeInv_of_run (freeAreaInit_merged hz hf hi) hrun₁
  have h₂ := mergeInv_of_run (freeAreaInit_merged hz hf hi) hrun₂
  refine ⟨h₁.blocks_eq h₂, ?_, fun i k z₃ z₄ hk => alloc_free_blocks h₁ hk⟩
  intro l l' z₃ z₄ hperm hnd hall h₃ h₄
  have hall' := fun b hb => hall b (hperm.mem_iff.mpr hb)
  have hrun₃ := mergeInv_of_run h₁ (freeAll_run h₁ hnd hall h₃)
  have hrun₄ := mergeInv_of_run h₁ (freeAll_run h₁ (hperm.nodup_iff.mp hnd) hall' h₄)
  have e : {b | b ∈ l} = {b | b ∈ l'} := Set.ext fun b => hperm.mem_iff
  rw [e] at hrun₃
  exact hrun₃.blocks_eq_of_held hrun₄

/-- Two pages taken one by one leave the free blocks that two pages taken at once leave. -/
theorem buddy_confluence_tiny : ∃ z z₁ z₂ z₃, tinyZone.freeAreaInit = some z ∧ z.allocBuddy 0 = some (some 0, z₁) ∧
    z₁.allocBuddy 0 = some (some 1, z₂) ∧ z.allocBuddy 1 = some (some 0, z₃) ∧ z₂.freeBlocks = z₃.freeBlocks := by
  have h : (tinyZone.freeAreaInit.bind fun z => (z.allocBuddy 0).bind fun r => (r.2.allocBuddy 0).bind fun r' =>
      (z.allocBuddy 1).map fun q => (r.1, r'.1, q.1)) = some (some 0, some 1, some 0) := by decide
  simp only [bind_eq_some_iff, map_eq_some_iff, Prod.mk.injEq] at h
  obtain ⟨z, hz, ⟨_, z₁⟩, h₁, ⟨_, z₂⟩, h₂, ⟨_, z₃⟩, h₃, rfl, rfl, rfl⟩ := h
  have hrun₁ : ReflTransGen ZoneStep (z, ∅) (z₂, insert (1, 0) (insert (0, 0) ∅)) :=
    .tail (.single (.alloc (by decide) h₁)) (.alloc (by decide) h₂)
  have hrun₂ : ReflTransGen ZoneStep (z, ∅) (z₃, insert (0, 1) ∅) := .single (.alloc (by decide) h₃)
  obtain ⟨fl, hr, hfp, -⟩ := freeAreaInit_rep tinyZone_fresh hz
  obtain ⟨⟨fl₁, hr₁, -⟩, -⟩ := zoneRun_rep hrun₁ ⟨fl, hr, hfp⟩
  obtain ⟨⟨fl₂, hr₂, -⟩, -⟩ := zoneRun_rep hrun₂ ⟨fl, hr, hfp⟩
  refine ⟨z, z₁, z₂, z₃, hz, h₁, h₂, h₃, (buddy_confluence tinyZone_fresh tinyZone_oneFlag hz hrun₁ hrun₂).1 ?_⟩
  rw [hr₁.freeBlocks_eq, hr₂.freeBlocks_eq, hr₁.pages, hr₂.pages]
  congr 1
  ext p
  simp [pagesOf]
  omega

/-- Both pages are taken and given back, the reserved one last: now they are merged. -/
theorem marked_history_shows : ZoneFresh markedZone ∧ ∃ z z' H, markedZone.freeAreaInit = some z ∧
    ReflTransGen ZoneStep (z, ∅) (z', H) ∧ pagesOf z.freeBlocks = pagesOf z'.freeBlocks ∧
    z.freeBlocks ≠ z'.freeBlocks := by
  have h : (markedZone.freeAreaInit.bind fun z => (z.allocBuddy 0).bind fun r => (r.2.allocBuddy 0).bind fun r' =>
      (r'.2.freeBuddy 1 0).bind fun z₃ => (z₃.freeBuddy 0 0).map fun z₄ =>
        ((r.1, r'.1), (z.size, (z.mempage 1).order), ((r'.2.mempage 1).nref, (z₃.mempage 0).nref),
          (z₄.size, (z₄.mempage 1).order))) = some ((some 1, some 0), (2, 0), (0, 0), (2, -1)) := by decide
  simp only [bind_eq_some_iff, map_eq_some_iff, Prod.mk.injEq] at h
  obtain ⟨z, hz, ⟨_, z₁⟩, h₁, ⟨_, z₂⟩, h₂, z₃, h₃, z₄, h₄, ⟨rfl, rfl⟩, ⟨hs, ho⟩, ⟨hn, hn'⟩, ⟨hs', ho'⟩⟩ := h
  have hone : ∀ {q p : Nat} {y : Zone}, (y.mempage q).nref = 0 → q ≤ p → p < q + 2 ^ 0 →
      (y.mempage p).nref = 0 := by
    intro q p y hy hle hlt
    obtain rfl : p = q := by omega
    exact hy
  have hrun : ReflTransGen ZoneStep (z, ∅)
      (z₄, (insert (0, 0) (insert (1, 0) ∅) \ {(1, 0)}) \ {(0, 0)}) := by
    have hfree : ZoneStep (z₂, insert (0, 0) (insert (1, 0) ∅)) (z₃, insert (0, 0) (insert (1, 0) ∅) \ {(1, 0)}) :=
      .free (by simp) (fun p => hone hn) h₃
    exact .tail (.tail (.tail (.single (.alloc (by decide) h₁)) (.alloc (by decide) h₂)) hfree)
      (.free (by simp) (fun p => hone hn') h₄)
  have hH : ((insert (0, 0) (insert (1, 0) ∅) \ {(1, 0)}) \ {(0, 0)} : Set Block) = ∅ := by
    ext b
    simp only [Set.mem_sdiff, Set.mem_insert_iff, Set.mem_empty_iff_false, Set.mem_singleton_iff]
    tauto
  rw [hH] at hrun
  obtain ⟨fl, hr, hfp, -⟩ := freeAreaInit_rep markedZone_fresh hz
  obtain ⟨⟨fl', hr', -⟩, -⟩ := zoneRun_rep hrun ⟨fl, hr, hfp⟩
  refine ⟨markedZone_fresh, z, z₄, ∅, hz, hrun, ?_, fun e => ?_⟩
  · rw [hr.freeBlocks_eq, hr'.freeBlocks_eq, hr.pages, hr'.pages]
  · have hmem : (1, 0) ∈ z.freeBlocks := (hr.mem_freeBlocks_iff (by omega)).mpr ho
    rw [e, hr'.mem_freeBlocks_iff (by dsimp only; omega), ho'] at hmem
    exact absurd hmem (by decide)

end MiniOS
