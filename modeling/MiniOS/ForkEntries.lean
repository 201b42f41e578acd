import MiniOS.PageEntries

/-!
# What exit and fork do to the entries

Both work on the space of one task. Exit clears it, fork fills it with the frames of the
parent; the frames that the other spaces map stay where they are.
-/

namespace MiniOS

open List Option

namespace Paging

variable {s s' s'' : Paging} {t : Nat}

/-! ## Exit -/

theorem unmapPages_only : ∀ {l : List Nat} {s : Paging}, s.unmapPages t l = some s' → Only t s s'
  | [], _, h => by
    cases h
    exact .refl ..
  | va :: l, s, h => by
    simp only [unmapPages, bind_eq_bind, bind_eq_some_iff] at h
    obtain ⟨s₁, hr, h⟩ := h
    exact (pageRemove_only hr).trans (unmapPages_only h)

theorem unmapPages_ne_none : ∀ {l : List Nat} {s : Paging}, s.unmapPages t l ≠ none ↔ 0 ∉ l
  | [], _ => iff_of_true nofun not_mem_nil
  | va :: l, s => by
    rw [unmapPages, mem_cons, not_or]
    by_cases h₀ : va = 0
    · rw [show s.pageRemove t va = none from if_pos h₀]
      exact iff_of_false (fun h => h rfl) fun h => h.1 h₀.symm
    · obtain ⟨s₁, hs₁⟩ := ne_none_iff_exists'.mp (pageRemove_ne_none (s := s) (t := t) h₀)
      rw [hs₁, and_iff_right (Ne.symm h₀)]
      exact unmapPages_ne_none

theorem deleteAllVma_only : ∀ {l : List Area} {s : Paging}, s.deleteAllVma t l = some s' → Only t s s'
  | [], _, h => by
    cases h
    exact .refl ..
  | a :: l, s, h => by
    simp only [deleteAllVma, bind_eq_bind, bind_eq_some_iff] at h
    obtain ⟨s₁, hu, h⟩ := h
    exact ((unmapPages_only hu).trans (only_setMm ..)).trans (deleteAllVma_only h)

theorem deleteAllVma_ne_none : ∀ {l : List Area} {s : Paging}, s.deleteAllVma t l ≠ none ↔ ∀ a ∈ l, 0 ∉ a.addrs
  | [], _ => iff_of_true nofun nofun
  | a :: l, s => by
    rw [deleteAllVma, forall_mem_cons, ← unmapPages_ne_none (s := s) (t := t)]
    cases s.unmapPages t a.addrs with
    | none => exact iff_of_false (fun h => h rfl) fun h => h.1 rfl
    | some s₁ =>
      rw [and_iff_right (some_ne_none s₁)]
      exact deleteAllVma_ne_none

theorem freePte_only (s : Paging) (t j : Nat) : Only t s (s.freePte t j) := by
  unfold freePte
  split
  · exact .refl t s
  · exact only_pageDecref ..

theorem foldl_only {f : Paging → Nat → Paging} (hf : ∀ s i, Only t s (f s i)) :
    ∀ (l : List Nat) (s : Paging), Only t s (l.foldl f s)
  | [], s => .refl t s
  | i :: l, s => (hf s i).trans (foldl_only hf l _)

theorem freePmd_only (s : Paging) (t i : Nat) : Only t s (s.freePmd t i) := by
  unfold freePmd
  split
  · exact .refl t s
  · exact (foldl_only (fun s k => freePte_only s t _) _ s).trans (only_pageDecref ..)

structure Kills (t : Nat) (s s' : Paging) : Prop where
  tasks : s'.tasks = s.tasks.erase t
  other : ∀ t', t' ≠ t → s'.mm t' = s.mm t'

theorem exitAreas_kills {l : List Area} (h : s.exitAreas t l = some s') : Kills t s s' := by
  simp only [exitAreas, bind_eq_bind, bind_eq_some_iff, Option.pure_def, some.injEq] at h
  obtain ⟨s₁, hd, rfl⟩ := h
  have ho := (deleteAllVma_only hd).trans (foldl_only (fun s i => freePmd_only s t i) (List.range userPgds) s₁)
  exact ⟨congrArg (Finset.erase · t) ho.tasks, ho.other⟩

theorem exitAreas_ne_none {l : List Area} : s.exitAreas t l ≠ none ↔ ∀ a ∈ l, 0 ∉ a.addrs := by
  rw [← deleteAllVma_ne_none (s := s) (t := t), exitAreas]
  cases s.deleteAllVma t l with
  | none => exact Iff.rfl
  | some s₁ => exact iff_of_true nofun nofun

theorem Only.kills (h : Only t s s') (h' : Kills t s' s'') : Kills t s s'' :=
  ⟨h.tasks ▸ h'.tasks, fun t' ht => (h'.other t' ht).trans (h.other t' ht)⟩

/-! ## Fork -/

structure Spares (dest : Nat) (s s' : Paging) : Prop where
  mmap : ∀ t, t ≠ dest → (s'.mm t).mmap = (s.mm t).mmap
  startBrk : ∀ t, t ≠ dest → (s'.mm t).startBrk = (s.mm t).startBrk
  frame : ∀ t, t ≠ dest → ∀ v, (s'.mm t).frame v = (s.mm t).frame v

variable {src dest : Nat} {ok : Bool} {addr len : Nat} {v : Nat}

theorem Spares.trans (h : Spares dest s s') (h' : Spares dest s' s'') : Spares dest s s'' where
  mmap t ht := (h'.mmap t ht).trans (h.mmap t ht)
  startBrk t ht := (h'.startBrk t ht).trans (h.startBrk t ht)
  frame t ht v := (h'.frame t ht v).trans (h.frame t ht v)

theorem Spares.of_other (h : ∀ t, t ≠ dest → s'.mm t = s.mm t) : Spares dest s s' :=
  ⟨fun t ht => by rw [h t ht], fun t ht => by rw [h t ht], fun t ht _ => by rw [h t ht]⟩

theorem SameEntries.frame (h : SameEntries s s') (t v : Nat) : (s'.mm t).frame v = (s.mm t).frame v := by
  rw [Space.frame, h.pte, Space.frame]

theorem SameEntries.spares (h : SameEntries s s') (dest : Nat) : Spares dest s s' :=
  ⟨fun t _ => h.mmap t, fun t _ => h.startBrk t, fun t _ v => h.frame t v⟩

structure Shares (src dest : Nat) (pages : List Nat) (s s' : Paging) : Prop where
  tasks : s'.tasks = s.tasks
  mmap : (s'.mm dest).mmap = (s.mm dest).mmap
  startBrk : (s'.mm dest).startBrk = (s.mm dest).startBrk
  frame : ∀ v, (s'.mm dest).frame v =
    if v ∈ pages then ((s.mm src).frame v).or ((s.mm dest).frame v) else (s.mm dest).frame v

theorem SameEntries.shares (h : SameEntries s s') : Shares src dest [] s s' where
  tasks := h.tasks
  mmap := h.mmap dest
  startBrk := h.startBrk dest
  frame v := by
    rw [if_neg (not_mem_nil), h.frame]

/-- One round of the loop over the pages of an area. -/
theorem share_entries {e : Pte} (hne : src ≠ dest) (he : (s.mm src).pte v = some e)
    (htab : ((s.mm dest).pteTable (v / ptrsPerTable)).isSome) :
    Spares dest s (s.sharePage src dest v e) ∧ Shares src dest [v] s (s.sharePage src dest v e) := by
  unfold sharePage
  have he₁ := edits_pteSet (e := some { e with write := false }) (Space.pteTable_of_pte he)
  have hm : (s.pteSet src v (some { e with write := false })).mm dest = s.mm dest := setMm_mm_of_ne _ _ hne.symm
  generalize s.pteSet src v (some { e with write := false }) = s₁ at he₁ hm ⊢
  have htab₂ : (((s₁.atomicInc e.frame).mm dest).pteTable (v / ptrsPerTable)).isSome :=
    (congrArg (fun sp => (Space.pteTable sp (v / ptrsPerTable)).isSome) hm).trans htab
  have he₂ := edits_pteSet (e := some { e with write := false }) htab₂
  have hold : ∀ t w, (((s₁.atomicInc e.frame).mm t).pte w).map Pte.frame = (s.mm t).frame w := by
    intro t w
    show ((s₁.mm t).pte w).map Pte.frame = _
    rw [he₁.pte]
    split
    · next h => rw [h.1, h.2, Space.frame, he]; rfl
    · rfl
  refine ⟨⟨fun t _ => (he₂.mmap t).trans (he₁.mmap t), fun t _ => (he₂.startBrk t).trans (he₁.startBrk t),
    fun t ht w => ?_⟩, he₂.tasks.trans he₁.tasks, (he₂.mmap dest).trans (he₁.mmap dest),
    (he₂.startBrk dest).trans (he₁.startBrk dest), fun w => ?_⟩
  · rw [Space.frame, he₂.pte, if_neg fun h => ht h.1, hold]
  · by_cases hw : w = v
    · rw [Space.frame, he₂.pte, if_pos ⟨rfl, hw⟩, if_pos (mem_singleton.mpr hw), hw, Space.frame, he]
      rfl
    · rw [Space.frame, he₂.pte, if_neg fun h => hw h.2, hold, if_neg fun h => hw (mem_singleton.mp h)]

theorem or_append {l l' : List Nat} (a b : Option Nat) :
    (if v ∈ l' then a.or (if v ∈ l then a.or b else b) else if v ∈ l then a.or b else b) =
      if v ∈ l ++ l' then a.or b else b := by
  simp only [mem_append]
  by_cases h₁ : v ∈ l
  · cases a with
    | none => simp [h₁]
    | some p => simp [h₁]
  · simp [h₁]

theorem Shares.trans {l l' : List Nat} (hne : src ≠ dest) (h : Shares src dest l s s') (hs : Spares dest s s')
    (h' : Shares src dest l' s' s'') : Shares src dest (l ++ l') s s'' where
  tasks := h'.tasks.trans h.tasks
  mmap := h'.mmap.trans h.mmap
  startBrk := h'.startBrk.trans h.startBrk
  frame v := by
    rw [h'.frame, h.frame, hs.frame src hne, or_append]

theorem shares_hole (h : (s.mm src).pte v = none) : Shares src dest [v] s s where
  tasks := rfl
  mmap := rfl
  startBrk := rfl
  frame w := by
    by_cases hw : w = v
    · have hnone : (s.mm src).frame v = none := by rw [Space.frame, h]; rfl
      rw [hw, if_pos (mem_singleton_self v), hnone, none_or]
    · rw [if_neg fun h => hw (mem_singleton.mp h)]

theorem copyPages_entries (hne : src ≠ dest) : ∀ {l : List Nat} {s : Paging},
    s.copyPages src dest l = (ok, s') → s'.tasks = s.tasks ∧ Spares dest s s' ∧
      (ok = true → Shares src dest (l.map (· / pageSize)) s s')
  | [], _, h => by
    cases h
    have hsame := SameEntries.refl s'
    exact ⟨rfl, hsame.spares dest, fun _ => hsame.shares⟩
  | va :: l, s, h => by
    obtain ⟨hnone, h⟩ | ⟨e, he, ⟨rfl, hw⟩ | ⟨s₁, hw, h⟩⟩ := copyPages_cons h
    · obtain ⟨ht, hs, hok⟩ := copyPages_entries hne h
      exact ⟨ht, hs, fun e => (shares_hole hnone).trans hne ((SameEntries.refl s).spares dest) (hok e)⟩
    · have hsame := (pageWalk_entries hw).1
      exact ⟨hsame.tasks, hsame.spares dest, nofun⟩
    · obtain ⟨hsame, htab⟩ := pageWalk_entries hw
      have he₁ : (s₁.mm src).pte (va / pageSize) = some e := by rw [hsame.pte, he]
      obtain ⟨hsp, hsh⟩ := share_entries hne he₁ (htab rfl)
      obtain ⟨ht, hs, hok⟩ := copyPages_entries hne h
      have hsp' := (hsame.spares dest).trans hsp
      have hsh' : Shares src dest [va / pageSize] s _ := hsame.shares.trans hne (hsame.spares dest) hsh
      exact ⟨ht.trans hsh'.tasks, hsp'.trans hs, fun e => hsh'.trans hne hsp' (hok e)⟩

theorem copyPages_areas (hne : src ≠ dest) : ∀ {l : List Nat} {s : Paging},
    s.copyPages src dest l = (ok, s') → SameAreas s s'
  | [], _, h => by
    cases h
    exact (SameEntries.refl _).areas
  | va :: l, s, h => by
    obtain ⟨-, h⟩ | ⟨e, he, ⟨-, hw⟩ | ⟨s₁, hw, h⟩⟩ := copyPages_cons h
    · exact copyPages_areas hne h
    · exact (pageWalk_entries hw).1.areas
    · obtain ⟨hsame, htab⟩ := pageWalk_entries hw
      obtain ⟨hsp, hsh⟩ := share_entries hne (show (s₁.mm src).pte _ = some e by rw [hsame.pte, he]) (htab rfl)
      refine hsame.areas.trans (SameAreas.trans ⟨hsh.tasks, fun t => ?_, fun t => ?_⟩ (copyPages_areas hne h))
      · by_cases ht : t = dest
        · exact ht ▸ hsh.mmap
        · exact hsp.mmap t ht
      · by_cases ht : t = dest
        · exact ht ▸ hsh.startBrk
        · exact hsp.startBrk t ht

def copiedAreas (l mmap : List Area) : List Area :=
  l.foldl (fun mmap a => insertArea a.copied mmap) mmap

def areaPages (l : List Area) : List Nat := l.flatMap fun a => a.addrs.map (· / pageSize)

structure Clones (src dest : Nat) (l : List Area) (s s' : Paging) : Prop where
  mmap : (s'.mm dest).mmap = copiedAreas l (s.mm dest).mmap
  startBrk : (s'.mm dest).startBrk = (s.mm dest).startBrk
  frame : ∀ v, (s'.mm dest).frame v =
    if v ∈ areaPages l then ((s.mm src).frame v).or ((s.mm dest).frame v) else (s.mm dest).frame v

theorem createVma_spares (h : s.createVma dest addr len = (ok, s')) : Spares dest s s' := by
  obtain ⟨-, -, -, ⟨-, hm⟩ | ⟨-, hm⟩⟩ := createVma_spec h
  · exact .of_other fun t _ => by rw [hm]
  · exact .of_other fun t ht => by rw [hm, setMm_mm_of_ne _ _ ht]

theorem createVma_self (h : s.createVma t addr len = (true, s')) :
    s'.mm t = { s.mm t with mmap := insertArea (newArea addr len) (s.mm t).mmap } := by
  obtain ⟨-, -, -, ⟨e, -⟩ | ⟨-, hm⟩⟩ := createVma_spec h
  · cases e
  · rw [hm, setMm_mm_self]

theorem copyTask_entries (hne : src ≠ dest) : ∀ {l : List Area} {s : Paging},
    s.copyTask src dest l = (ok, s') → s'.tasks = s.tasks ∧ Spares dest s s' ∧ (ok = true → Clones src dest l s s')
  | [], _, h => by
    cases h
    exact ⟨rfl, (SameEntries.refl s').spares dest, fun _ => ⟨rfl, rfl, fun v => rfl⟩⟩
  | a :: l, s, h => by
    obtain ⟨rfl, hv⟩ | ⟨s₁, hv, h⟩ := copyTask_cons h
    · exact ⟨(createVma_spec hv).2.2.1, createVma_spares hv, nofun⟩
    have ht₁ := (createVma_spec hv).2.2.1
    have hs₁ := createVma_spares hv
    have hm₁ := createVma_self hv
    obtain ⟨rfl, hp⟩ | ⟨s₂, hp, h⟩ := h
    · obtain ⟨ht₂, hs₂, -⟩ := copyPages_entries hne hp
      exact ⟨ht₂.trans ht₁, hs₁.trans hs₂, nofun⟩
    · obtain ⟨ht₂, hs₂, hok₂⟩ := copyPages_entries hne hp
      have hsh := hok₂ rfl
      obtain ⟨ht₃, hs₃, hok₃⟩ := copyTask_entries hne h
      refine ⟨ht₃.trans (ht₂.trans ht₁), (hs₁.trans hs₂).trans hs₃, fun e => ?_⟩
      have hcl := hok₃ e
      refine ⟨?_, ?_, fun v => ?_⟩
      · rw [hcl.mmap, hsh.mmap, hm₁]
        rfl
      · rw [hcl.startBrk, hsh.startBrk, hm₁]
      · have hf₁ : (s₁.mm dest).frame v = (s.mm dest).frame v := by
          rw [hm₁]
          rfl
        rw [hcl.frame, hsh.frame, hs₂.frame src hne, hs₁.frame src hne, hf₁, or_append]
        rfl

/-! ## Memory -/

structure Grows (s s' : Paging) : Prop where
  free : ∀ p, p ∉ s.free → p ∉ s'.free
  mem : ∀ p, p ∉ s.free → s'.mem p = s.mem p

theorem Grows.trans (h : Grows s s') (h' : Grows s' s'') : Grows s s'' where
  free p hp := h'.free p (h.free p hp)
  mem p hp := (h'.mem p (h.free p hp)).trans (h.mem p hp)

theorem Grows.of_eq (hfree : s'.free = s.free) (hmem : s'.mem = s.mem) : Grows s s' :=
  ⟨fun _ hp => hfree ▸ hp, fun _ _ => by rw [hmem]⟩

theorem pageAlloc_grows {r : Option Nat} (h : s.pageAlloc = (r, s')) : Grows s s' := by
  unfold pageAlloc at h
  split at h
  · cases h
    exact .of_eq rfl rfl
  · split at h
    · next hmem =>
      cases h
      refine ⟨fun p hp hp' => hp (mem_of_mem_erase hp'), fun p hp => Function.update_of_ne ?_ ..⟩
      exact fun e => hp (e ▸ hmem)
    · cases h
      exact .of_eq rfl rfl

theorem getPmd_grows {i : Nat} (h : s.getPmd t i = (ok, s')) : Grows s s' := by
  unfold getPmd at h
  split at h
  · next ha =>
    cases h
    exact pageAlloc_grows ha
  · next ha =>
    cases h
    exact (pageAlloc_grows ha).trans (.of_eq rfl rfl)

theorem getPte_grows {j : Nat} (h : s.getPte t j = (ok, s')) : Grows s s' := by
  unfold getPte at h
  split at h
  · next ha =>
    cases h
    exact pageAlloc_grows ha
  · next ha =>
    cases h
    exact (pageAlloc_grows ha).trans (.of_eq rfl rfl)

theorem pageWalk_grows (h : s.pageWalk t v = (ok, s')) : Grows s s' :=
  (pageWalk_rule h (.of_eq rfl rfl) (fun _ hg => getPmd_grows hg) fun hs _ _ hg => hs.trans (getPte_grows hg)).1

theorem copyPages_grows : ∀ {l : List Nat} {s : Paging}, s.copyPages src dest l = (ok, s') → Grows s s'
  | [], _, h => by
    cases h
    exact .of_eq rfl rfl
  | va :: l, s, h => by
    obtain ⟨-, h⟩ | ⟨e, -, ⟨-, hw⟩ | ⟨s₁, hw, h⟩⟩ := copyPages_cons h
    · exact copyPages_grows h
    · exact pageWalk_grows hw
    · have hshare : Grows s₁ (s₁.sharePage src dest (va / pageSize) e) := .of_eq rfl rfl
      exact ((pageWalk_grows hw).trans hshare).trans (copyPages_grows h)

theorem kmalloc_grows (h : s.kmalloc = (ok, s')) : Grows s s' := by
  obtain ⟨rest, rfl⟩ := kmalloc_eq h
  exact .of_eq rfl rfl

theorem createVma_grows (h : s.createVma t addr len = (ok, s')) : Grows s s' := by
  obtain ⟨rest, ⟨-, rfl⟩ | ⟨-, -, rfl⟩⟩ := createVma_cases h
  · exact .of_eq rfl rfl
  · exact .of_eq rfl rfl

theorem copyTask_grows : ∀ {l : List Area} {s : Paging}, s.copyTask src dest l = (ok, s') → Grows s s'
  | [], _, h => by
    cases h
    exact .of_eq rfl rfl
  | a :: l, s, h => by
    obtain ⟨-, hv⟩ | ⟨s₁, hv, ⟨-, hp⟩ | ⟨s₂, hp, h⟩⟩ := copyTask_cons h
    · exact createVma_grows hv
    · exact (createVma_grows hv).trans (copyPages_grows hp)
    · exact ((createVma_grows hv).trans (copyPages_grows hp)).trans (copyTask_grows h)

theorem copyFiles_grows (h : s.copyFiles = (ok, s')) : Grows s s' := by
  obtain ⟨rest, rfl⟩ := copyFiles_eq h
  exact .of_eq rfl rfl

theorem Takes.grows (h : Takes s s') : Grows s s' := by
  induction h with
  | kmalloc h => exact kmalloc_grows h
  | pageAlloc h => exact pageAlloc_grows h
  | copyFiles h => exact copyFiles_grows h
  | trans _ _ ih ih' => exact ih.trans ih'

/-! ## `do_fork` -/

/-- The child has the areas of `t`, as `create_vma` rounds them, and the frames inside them. -/
structure Forked (t child : Nat) (l : List Area) (s s' : Paging) : Prop where
  tasks : s'.tasks = insert child s.tasks
  mmap : (s'.mm child).mmap = copiedAreas l []
  startBrk : (s'.mm child).startBrk = (s.mm t).startBrk
  frame : ∀ v, (s'.mm child).frame v = if v ∈ areaPages l then (s.mm t).frame v else none
  grows : Grows s s'

theorem newMm_copyTask_entries {child p : Nat} {l : List Area} (hne : t ≠ child)
    (h : (s.newMm child (s.mm t).startBrk p).copyTask t child l = (ok, s')) :
    s'.tasks = insert child s.tasks ∧ Spares child s s' ∧ (ok = true → Forked t child l s s') := by
  have hnew : (s.newMm child (s.mm t).startBrk p).mm child = ⟨[], (s.mm t).startBrk, p, fun _ => none⟩ :=
    setMm_mm_self ..
  have hsp : Spares child s (s.newMm child (s.mm t).startBrk p) := .of_other fun _ ht => setMm_mm_of_ne _ _ ht
  have htasks : (s.newMm child (s.mm t).startBrk p).tasks = insert child s.tasks := rfl
  have hgrows : Grows s (s.newMm child (s.mm t).startBrk p) := .of_eq rfl rfl
  generalize s.newMm child (s.mm t).startBrk p = s₁ at h hnew hsp htasks hgrows
  obtain ⟨ht, hs, hok⟩ := copyTask_entries hne h
  refine ⟨ht.trans htasks, hsp.trans hs, fun e => ?_⟩
  have hcl := hok e
  refine ⟨ht.trans htasks, ?_, ?_, fun v => ?_, hgrows.trans (copyTask_grows h)⟩
  · rw [hcl.mmap, hnew]
  · rw [hcl.startBrk, hnew]
  · have hnone : (s₁.mm child).frame v = none := by
      rw [hnew]
      rfl
    rw [hcl.frame, hsp.frame t hne, hnone, or_none]

theorem forkAlong_entries {child : Nat} {l : List Area} {back : List Area → List Area} (hne : t ≠ child)
    (hchild : child ∉ s.tasks) (h : s.forkAlong t child l back = some s') :
    Spares child s s' ∧ (s'.tasks = s.tasks ∨ Forked t child l s s') := by
  obtain htakes | ⟨p, s₂, s₃, s₄, h₂, ha, hf, hareas⟩ := forkAlong_cases h
  · obtain ⟨htasks, hm⟩ := htakes.mm
    exact ⟨.of_other fun _ _ => by rw [hm], .inl htasks⟩
  have htakes : Takes s s₄ := (h₂.trans (.pageAlloc ha)).trans (.copyFiles hf)
  obtain ⟨htasks, hm⟩ := htakes.mm
  have hsp : Spares child s s₄ := .of_other fun _ _ => by rw [hm]
  cases hareas with
  | copied hcopy =>
    obtain ⟨-, hs, hok⟩ := newMm_copyTask_entries hne hcopy
    obtain ⟨htasks', hmmap, hbrk, hframe, hgrows⟩ := hok rfl
    refine ⟨hsp.trans hs, .inr ⟨htasks ▸ htasks', hmmap, ?_, fun v => ?_, htakes.grows.trans hgrows⟩⟩
    · rw [hbrk, hm]
    · rw [hframe, hm]
  | ended hcopy hexit =>
    obtain ⟨ht₆, hs, -⟩ := newMm_copyTask_entries hne hcopy
    have hkill := exitAreas_kills hexit
    refine ⟨(hsp.trans hs).trans (.of_other hkill.other), .inl ?_⟩
    rw [hkill.tasks, ht₆, htasks, Finset.erase_insert hchild]

end Paging

end MiniOS
