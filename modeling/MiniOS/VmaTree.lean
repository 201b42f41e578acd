import MiniOS.VmaRanges

/-!
# Inserting into and deleting from the area tree

What `create_vma` and `rbtree_delete` do to any tree, whatever the list looks like. A new
node becomes a leaf if its memory held no children. A deleted node with two children is
replaced by its successor, but the parents of its children are left pointing at it.
-/

namespace MiniOS

open List Mm Option

section
variable {m m' : Mm} {t : BTree Nat} {fuel addr : Nat}

/-! ## The searches end -/

theorem findVma_isSome (addr : Nat) : ∀ (fuel : Nat) {t : BTree Nat} {rb : Nat}
    (acc : Nat), TreeBelow m.links 0 rb t → t.inorder.length < fuel → ∃ r, m.findVma addr fuel rb acc = some r
  | fuel + 1, .nil, rb, acc, ht, _ => ⟨acc, by rw [findVma, if_pos (show rb = 0 from ht)]⟩
  | fuel + 1, .node tl x tr, rb, acc, ⟨e, hx, hl, hr⟩, hf => by
    subst e
    rw [BTree.inorder, length_append, length_cons] at hf
    rw [findVma, if_neg hx]
    split
    · split
      · exact ⟨rb, rfl⟩
      · exact findVma_isSome addr fuel rb hl (by omega)
    · exact findVma_isSome addr fuel acc hr (by omega)

theorem findVmaPrev_isSome (addr : Nat) : ∀ (fuel : Nat) {t : BTree Nat} {rb : Nat}
    (acc : Nat), TreeBelow m.links 0 rb t → t.inorder.length < fuel → ∃ r, m.findVmaPrev addr fuel rb acc = some r
  | fuel + 1, .nil, rb, acc, ht, _ => ⟨acc, by rw [findVmaPrev, if_pos (show rb = 0 from ht)]⟩
  | fuel + 1, .node tl x tr, rb, acc, ⟨e, hx, hl, hr⟩, hf => by
    subst e
    rw [BTree.inorder, length_append, length_cons] at hf
    rw [findVmaPrev, if_neg hx]
    split
    · split
      · exact ⟨rb, rfl⟩
      · exact findVmaPrev_isSome addr fuel rb hl (by omega)
    · exact findVmaPrev_isSome addr fuel acc hr (by omega)

theorem linkSlot_isSome (addr : Nat) : ∀ (fuel : Nat) {t : BTree Nat} {par rb : Nat} (par' : Nat) (slot : Slot Nat),
    TreeAt m.links 0 par rb t → t.inorder.length < fuel → ∃ r, m.linkSlot addr fuel rb par' slot = some r
  | fuel + 1, .nil, _, rb, par', slot, ht, _ => ⟨(par', slot), by rw [linkSlot, if_pos (show rb = 0 from ht)]⟩
  | fuel + 1, .node tl x tr, _, rb, _, _, ⟨e, hx, _, hl, hr⟩, hf => by
    subst e
    rw [BTree.inorder, length_append, length_cons] at hf
    rw [linkSlot, if_neg hx]
    split
    · exact linkSlot_isSome addr fuel rb (.left rb) hl (by omega)
    · exact linkSlot_isSome addr fuel rb (.right rb) hr (by omega)

theorem rbMostleft_spec : ∀ (fuel : Nat) {t : BTree Nat} {par rb : Nat}, TreeAt m.links 0 par rb t → rb ≠ 0 →
    t.inorder.length ≤ fuel → ∃ r, m.rbMostleft fuel rb = some r ∧ r ∈ t.inorder ∧ (m.heap r).rbLeft = 0
  | _, .nil, _, _, ht, h₀, _ => absurd ht h₀
  | 0, .node tl x tr, _, _, _, _, hf => by simp [BTree.inorder] at hf
  | fuel + 1, .node tl x tr, _, rb, ⟨e, hx, _, hl, _⟩, h₀, hf => by
    subst e
    rw [BTree.inorder, length_append, length_cons] at hf
    rw [rbMostleft, if_neg h₀]
    by_cases hleft : (m.heap rb).rbLeft = 0
    · exact ⟨rb, by rw [if_neg (not_not.mpr hleft)], by simp [BTree.inorder], hleft⟩
    · obtain ⟨r, hr, hm, hz⟩ := rbMostleft_spec fuel hl hleft (by omega)
      exact ⟨r, by rw [if_pos hleft]; exact hr, by simp [BTree.inorder, hm], hz⟩

/-! ## `rbtree_delete` -/

structure NodeAt (m : Mm) (x : Nat) (t : BTree Nat) (k : List (Frame Nat)) (tl tr : BTree Nat) : Prop where
  whole : t = plug k (.node tl x tr)
  ctx : CtxAt m.links 0 m.rbNode k (m.heap x).rbParent x
  ne_zero : x ≠ 0
  left : TreeAt m.links 0 x (m.heap x).rbLeft tl
  right : TreeAt m.links 0 x (m.heap x).rbRight tr

variable {x : Nat} {k : List (Frame Nat)} {tl tr : BTree Nat}

theorem exists_nodeAt (ht : TreeAt m.links 0 0 m.rbNode t) (hx : x ∈ t.inorder) :
    ∃ k tl tr, NodeAt m x t k tl tr := by
  obtain ⟨k, tl, tr, rfl⟩ := exists_plug hx
  obtain ⟨par, y, hk, rfl, h₀, rfl, hl, hr⟩ := treeAt_plug.mp ht
  exact ⟨k, tl, tr, rfl, hk, h₀, hl, hr⟩

theorem NodeAt.inorder (h : NodeAt m x t k tl tr) :
    t.inorder = ctxPre k ++ tl.inorder ++ x :: (tr.inorder ++ ctxPost k) := by
  rw [h.whole, inorder_plug]
  simp [BTree.inorder]

theorem NodeAt.slotTo (h : NodeAt m x t k tl tr) (hnd : t.inorder.Nodup) : m.slotTo x = some (slotOf k) := by
  apply slotTo_eq h.ctx rfl _ h.ne_zero
  rw [h.inorder, nodup_middle, nodup_cons] at hnd
  intro hm
  apply hnd.1
  simp only [mem_append] at hm ⊢
  tauto

def DeletedFrom (m' : Mm) (t : BTree Nat) (x : Nat) : Prop :=
  ∃ t', TreeAt m'.links 0 0 m'.rbNode t' ∧ t'.inorder = t.inorder.erase x

theorem rbtreeDelete_one (fuel : Nat) (ht : TreeAt m.links 0 0 m.rbNode t) (hnd : t.inorder.Nodup)
    (hx : x ∈ t.inorder) (hchild : (m.heap x).rbLeft = 0 ∨ (m.heap x).rbRight = 0) :
    ∃ m', rbtreeDelete (fuel + 1) m x = some m' ∧ DeletedFrom m' t x ∧
      (m'.heap x).rbLeft = 0 ∧ (m'.heap x).rbRight = 0 := by
  obtain ⟨k, tl, tr, hn⟩ := exists_nodeAt ht hx
  obtain ⟨c, tc, hc, htc, hcin⟩ := child_of_leaf hn.left hn.right hchild
  refine ⟨m.cut x c (slotOf k), rbtreeDelete_eq fuel (hn.slotTo hnd) hc, ⟨plug k tc, ?_, ?_⟩, ?_, ?_⟩
  · apply cut_tree hn.ctx rfl htc
    rw [hcin]
    apply (List.Perm.nodup_iff _).mp hnd
    rw [hn.inorder]
    simp only [append_assoc, cons_append]
    apply List.Perm.append_left
    exact perm_middle
  · rw [hn.inorder, nodup_middle, nodup_cons] at hnd
    rw [hn.inorder, erase_append_right _ fun hm => hnd.1 (mem_append_left _ hm), erase_cons_head,
      inorder_plug, hcin]
    simp
  · simp [cut]
  · simp [cut]

theorem cut_parent (m : Mm) (v c : Nat) (slot : Slot Nat) {a : Nat} (ha : c = 0 ∨ a ≠ c) :
    ((m.cut v c slot).heap a).rbParent = (m.heap a).rbParent := by
  have hs := setSlot_field Vma.rbParent (fun _ _ => rfl) (fun _ _ => rfl) m c slot a
  unfold cut
  refine (set_heap_field Vma.rbParent _ ?_ a).trans ?_
  · rfl
  by_cases h : c = 0
  · rw [if_pos h]
    exact hs
  · rw [if_neg h, set_heap_of_ne _ _ (ha.resolve_left h)]
    exact hs

def Mm.replaced (m₁ : Mm) (x tmp left right : Nat) (slot : Slot Nat) : Mm :=
  let m₂ := m₁.set tmp { m₁.heap tmp with rbLeft := left }
  let m₃ := m₂.set tmp { m₂.heap tmp with rbRight := right }
  let m₄ := m₃.setSlot tmp slot
  m₄.set x { m₄.heap x with rbLeft := 0, rbRight := 0 }

theorem replaced_field {β : Type*} (f : Vma → β) (hl : ∀ v x, f { v with rbLeft := x } = f v)
    (hr : ∀ v x, f { v with rbRight := x } = f v) (m₁ : Mm) (x tmp left right : Nat) (slot : Slot Nat) (a : Nat) :
    f ((m₁.replaced x tmp left right slot).heap a) = f (m₁.heap a) := by
  have hlr : ∀ w : Vma, f { w with rbLeft := 0, rbRight := 0 } = f w := fun w => (hr _ _).trans (hl w 0)
  unfold Mm.replaced
  refine (set_heap_field f _ (hlr _) a).trans ?_
  refine (setSlot_field f hl hr _ _ _ a).trans ?_
  exact (set_heap_field f _ (hr _ _) a).trans (set_heap_field f _ (hl _ _) a)

/-- With two children: the left one keeps the deleted node as its parent. -/
theorem rbtreeDelete_two (ht : TreeAt m.links 0 0 m.rbNode t) (hnd : t.inorder.Nodup) (hx : x ∈ t.inorder)
    (hl : (m.heap x).rbLeft ≠ 0) (hr : (m.heap x).rbRight ≠ 0) (hf : t.inorder.length ≤ fuel) :
    ∃ m', rbtreeDelete (fuel + 1) m x = some m' ∧ (m'.heap (m.heap x).rbLeft).rbParent = x := by
  obtain ⟨k, tl, tr, hn⟩ := exists_nodeAt ht hx
  have hlen := congrArg List.length hn.inorder
  simp only [length_append, length_cons] at hlen
  obtain ⟨tmp, htmp, hmem, hz⟩ := rbMostleft_spec fuel hn.right hr (by omega)
  have hin : tmp ∈ t.inorder := by
    rw [hn.inorder]
    simp [hmem]
  obtain ⟨k', tl', tr', hn'⟩ := exists_nodeAt ht hin
  obtain ⟨f, rfl⟩ : ∃ f, fuel = f + 1 := ⟨fuel - 1, by omega⟩
  have hdel := rbtreeDelete_eq f (hn'.slotTo hnd) (.inl ⟨hz, rfl⟩)
  refine ⟨(m.cut tmp (m.heap tmp).rbRight (slotOf k')).replaced x tmp (m.heap x).rbLeft
    (m.heap x).rbRight (slotOf k), ?_, ?_⟩
  · rw [rbtreeDelete]
    simp only [hn.slotTo hnd, bind_eq_bind, bind_some, hl, hr, htmp, hdel, false_and, if_false]
    rfl
  · have hparent : (m.heap (m.heap x).rbLeft).rbParent = x := (ht.child hl hx (.inl rfl)).2
    have hne : tmp ≠ x := by
      intro e
      rw [hn.inorder, nodup_middle, nodup_cons] at hnd
      apply hnd.1
      rw [← e]
      simp [hmem]
    have hc : (m.heap tmp).rbRight = 0 ∨ (m.heap x).rbLeft ≠ (m.heap tmp).rbRight := by
      by_cases h : (m.heap tmp).rbRight = 0
      · exact .inl h
      · refine .inr fun e => hne ?_
        have hp : (m.heap (m.heap tmp).rbRight).rbParent = tmp := (ht.child h hin (.inr rfl)).2
        rw [← hp, ← e, hparent]
    rw [replaced_field Vma.rbParent (fun _ _ => rfl) (fun _ _ => rfl), cut_parent m tmp _ _ hc]
    exact hparent

/-- In what is left after the deletion no node has `x` as its parent. -/
theorem DeletedFrom.parent_ne (h : DeletedFrom m' t x) (hnd : t.inorder.Nodup) (h₀ : x ≠ 0) {y : Nat}
    (hy : y ∈ t.inorder) (hne : y ≠ x) : (m'.heap y).rbParent ≠ x := by
  obtain ⟨t', ht', hin⟩ := h
  intro e
  have hmem : y ∈ t'.inorder := by
    rw [hin]
    exact (mem_erase_of_ne hne).mpr hy
  rcases ht'.parent_mem y hmem with hp | hp
  · exact h₀ (e.symm.trans hp)
  · rw [hin] at hp
    have hgone : (m'.heap y).rbParent ∈ t.inorder.erase x := hp
    rw [e] at hgone
    exact hnd.not_mem_erase hgone

end

/-- `rbtree_delete` returns, and it leaves a tree without `x` and `x` without children if
and only if `x` had at most one child. -/
theorem rbtree_delete_correct {m : Mm} {t : BTree Nat} {x fuel : Nat} (ht : TreeAt m.links 0 0 m.rbNode t)
    (hnd : t.inorder.Nodup) (hx : x ∈ t.inorder) (hf : t.inorder.length < fuel) :
    ∃ m', rbtreeDelete fuel m x = some m' ∧
      ((DeletedFrom m' t x ∧ (m'.heap x).rbLeft = 0 ∧ (m'.heap x).rbRight = 0) ↔
        (m.heap x).rbLeft = 0 ∨ (m.heap x).rbRight = 0) := by
  obtain ⟨fuel, rfl⟩ : ∃ n, fuel = n + 1 := ⟨fuel - 1, by omega⟩
  by_cases hchild : (m.heap x).rbLeft = 0 ∨ (m.heap x).rbRight = 0
  · obtain ⟨m', hdel, hright⟩ := rbtreeDelete_one fuel ht hnd hx hchild
    exact ⟨m', hdel, iff_of_true hright hchild⟩
  · have hl : (m.heap x).rbLeft ≠ 0 := fun e => hchild (.inl e)
    have hr : (m.heap x).rbRight ≠ 0 := fun e => hchild (.inr e)
    obtain ⟨m', hdel, hparent⟩ := rbtreeDelete_two ht hnd hx hl hr (Nat.le_of_lt_succ hf)
    refine ⟨m', hdel, iff_of_false ?_ hchild⟩
    rintro ⟨hgone, -⟩
    obtain ⟨hmem, hp⟩ := ht.child hl hx (.inl rfl)
    apply hgone.parent_ne hnd (ht.ne_null x hx) hmem _ hparent
    -- a node is not its own parent
    intro e
    obtain ⟨k, tl, tr, hn⟩ := exists_nodeAt ht hx
    rw [hn.inorder, nodup_middle, nodup_cons] at hnd
    apply hnd.1
    have hroot : (m.heap x).rbLeft ∈ tl.inorder := hn.left.root_mem hl
    rw [e] at hroot
    simp [hroot]

def threeAreas : Mm :=
  let area a := { zeroVma with vmStart := a * 0x200, vmEnd := a * 0x200 + 0x1000 }
  let heap a := if a = 32 then { area a with rbLeft := 16, rbRight := 48 } else { area a with rbParent := 32 }
  { allocMm heap with rbNode := 32 }

def threeNodes : BTree Nat := .node (.node .nil 16 .nil) 32 (.node .nil 48 .nil)

theorem threeAreas_tree : TreeAt threeAreas.links 0 0 threeAreas.rbNode threeNodes :=
  ⟨rfl, by decide, rfl, ⟨rfl, by decide, rfl, rfl, rfl⟩, ⟨rfl, by decide, rfl, rfl, rfl⟩⟩

theorem rbtree_delete_correct_leaf : ∃ m', rbtreeDelete 4 threeAreas 16 = some m' ∧
    DeletedFrom m' threeNodes 16 := by
  obtain ⟨m', hdel, hiff⟩ := rbtree_delete_correct (x := 16) threeAreas_tree (by decide) (by decide)
    (Nat.lt_succ_self 3)
  exact ⟨m', hdel, (hiff.mpr (.inl rfl)).1⟩

/-- The root of three nodes: its right child, the successor, becomes its own right child,
and the left child keeps the deleted node as its parent. -/
theorem rbtree_delete_broken : ∃ m', rbtreeDelete 4 threeAreas 32 = some m' ∧ m'.rbNode = 48 ∧
    (m'.heap 48).rbRight = 48 ∧ (m'.heap 16).rbParent = 32 ∧
    ¬ DeletedFrom m' threeNodes 32 := by
  refine ⟨_, rfl, rfl, rfl, rfl, ?_⟩
  intro h
  exact h.parent_ne (by decide) (by decide) (y := 16) (by decide) (by decide) rfl

/-! ## `create_vma` -/

section
variable {m m' : Mm} {t t' : BTree Nat} {fuel addr len flags mem vmp : Nat} {k : List (Frame Nat)}

theorem EndSorted.insert {pre post : List Nat} {v : Nat} (h : EndSorted m (pre ++ post))
    (hpre : ∀ a ∈ pre, (m.heap a).vmEnd ≤ (m.heap v).vmEnd)
    (hpost : ∀ a ∈ post, (m.heap v).vmEnd < (m.heap a).vmEnd) : EndSorted m (pre ++ v :: post) := by
  obtain ⟨h₁, h₂, h₃⟩ := pairwise_append.mp h
  apply pairwise_append.mpr
  refine ⟨h₁, pairwise_cons.mpr ⟨fun b hb => Nat.le_of_lt (hpost b hb), h₂⟩, ?_⟩
  intro a ha b hb
  rcases mem_cons.mp hb with rfl | hb
  · exact hpre a ha
  · exact h₃ a ha b hb

theorem vmLink_isSome (vmp : Nat) (ht : TreeAt m.links 0 0 m.rbNode t) (hf : t.inorder.length < fuel) :
    ∃ m', m.vmLink vmp fuel = some m' := by
  obtain ⟨vma, hprev⟩ := findVmaPrev_isSome (m.heap vmp).vmStart fuel 0 ht.below hf
  have ht' : TreeAt (m.listLink vmp vma).links 0 0 (m.listLink vmp vma).rbNode t := by
    rw [listLink_links, (listLink_rbNode m vmp vma).1]
    exact ht
  obtain ⟨r, hslot⟩ := linkSlot_isSome ((m.listLink vmp vma).heap vmp).vmEnd fuel 0 .root ht' hf
  unfold vmLink
  simp only [hprev, hslot, bind_eq_bind, bind_some]
  exact ⟨_, rfl⟩

/-- A range that meets no area passes the check of `get_unmapped_vma`. -/
theorem findVma_gap : ∀ (fuel : Nat) {t : BTree Nat} {par rb acc r : Nat}, TreeAt m.links 0 par rb t →
    (∀ a ∈ t.inorder, (m.heap a).vmEnd ≤ addr ∨ addr + len ≤ (m.heap a).vmStart) →
    acc = 0 ∨ addr + len ≤ (m.heap acc).vmStart → m.findVma addr fuel rb acc = some r →
    r = 0 ∨ addr + len ≤ (m.heap r).vmStart
  | fuel + 1, .nil, _, rb, acc, r, ht, _, hacc, h => by
    rw [findVma, if_pos (show rb = 0 from ht), some.injEq] at h
    rw [← h]
    exact hacc
  | fuel + 1, .node tl x tr, _, rb, acc, r, ⟨e, hx, _, hl, hr⟩, hgap, hacc, h => by
    subst e
    rw [findVma, if_neg hx] at h
    have hleft : ∀ a ∈ tl.inorder, (m.heap a).vmEnd ≤ addr ∨ addr + len ≤ (m.heap a).vmStart := fun a ha =>
      hgap a (by simp [BTree.inorder, ha])
    have hright : ∀ a ∈ tr.inorder, (m.heap a).vmEnd ≤ addr ∨ addr + len ≤ (m.heap a).vmStart := fun a ha =>
      hgap a (by simp [BTree.inorder, ha])
    by_cases hend : addr < (m.heap rb).vmEnd
    · have hfit := (hgap rb (by simp [BTree.inorder])).resolve_left (Nat.not_le.mpr hend)
      rw [if_pos hend] at h
      split at h
      · cases h
        exact .inr hfit
      · exact findVma_gap fuel hl hleft (.inr hfit) h
    · rw [if_neg hend] at h
      exact findVma_gap fuel hr hright hacc h

theorem createVma_some {vma : Nat} (hpage : roundDown addr pageSize ≠ 0) (htop : addr + len ≤ kernelBaseAddr)
    (hf : m.findVma addr fuel m.rbNode 0 = some vma) (hfit : vma = 0 ∨ addr + len ≤ (m.heap vma).vmStart)
    (h₀ : mem ≠ 0) (h : (m.set mem (newVma (m.heap mem) addr len flags)).vmLink mem fuel = some m') :
    m.createVma addr len flags mem fuel = some (mem, m') := by
  have hk : kernelBaseAddr = 0xC0000000 := rfl
  have ha : addr ≠ 0 := fun e => hpage (by rw [e]; rfl)
  have hw : wrap (addr + len) = addr + len := wrap_of_lt (by omega)
  have hlen : ¬ kernelBaseAddr < len := by omega
  unfold createVma getUnmappedVma
  rw [if_neg hpage, if_neg hlen, if_pos ha, hf, hw]
  simp only [map_some, htop, hfit, and_self, if_true, bind_eq_bind, bind_some, ha, h₀, if_false, h]
  rfl

/-! ### In a tree of disjoint areas -/

def EndAligned (m : Mm) (l : List Nat) : Prop := ∀ a ∈ l, pageSize ∣ (m.heap a).vmEnd

theorem newVma_aligned (v : Vma) (addr len flags : Nat) : pageSize ∣ (newVma v addr len flags).vmEnd := by
  have hpage : pageSize ∣ 2 ^ 32 := by decide
  apply (Nat.dvd_mod_iff hpage).mpr
  exact Nat.dvd_add (dvd_roundDown _ _) (dvd_roundDown _ _)

/-- What `get_unmapped_vma` lets through is apart from all areas, in pages. -/
theorem createVma_apart {vma : Nat} (v : Vma) (flags : Nat) (ht : TreeAt m.links 0 0 m.rbNode t)
    (ha : Ascending m t.inorder) (hp : EndAligned m t.inorder) (hlen : 0 < len) (htop : addr + len ≤ kernelBaseAddr)
    (hf : m.findVma addr fuel m.rbNode 0 = some vma) (hfit : vma = 0 ∨ addr + len ≤ (m.heap vma).vmStart) :
    ∀ a ∈ t.inorder, (m.heap a).vmEnd ≤ roundDown addr pageSize ∨
      (newVma v addr len flags).vmEnd ≤ (m.heap a).vmStart := by
  intro a hat
  by_cases hend : addr < (m.heap a).vmEnd
  · right
    have hsome : (t.inorder.find? fun a => decide (addr < (m.heap a).vmEnd)).isSome :=
      find?_isSome.mpr ⟨a, hat, decide_eq_true hend⟩
    obtain ⟨b, hb⟩ := isSome_iff_exists.mp hsome
    have hvma := findVma_spec fuel ht.below ha.inOrder hf
    rw [hb] at hvma
    obtain rfl : vma = b := hvma
    have hbt := mem_of_find?_eq_some hb
    have hle : addr + len ≤ (m.heap vma).vmStart := hfit.resolve_left (ht.ne_null vma hbt)
    have hnew := (newVma_range v flags hlen htop).2 _ (ha.area vma hbt).2 hle
    obtain ⟨-, pre, post, hsplit, hpre⟩ := find?_eq_some_iff_append.mp hb
    rw [hsplit] at hat ha
    -- `a` does not stand before the first area that ends above `addr`
    rcases mem_append.mp hat with hat | hat
    · exact absurd (decide_eq_true hend) (by simpa using hpre a hat)
    · rcases mem_cons.mp hat with rfl | hat
      · exact hnew
      · have hright : Ascending m ([vma] ++ post) := ha.right
        have hafter := hright.cross (mem_singleton_self vma) hat
        have hlong := (hright.area vma (by simp)).1
        omega
  · exact .inl (le_roundDown (hp a hat) (Nat.le_of_not_lt hend))

theorem LinkedAt.ascending (h : LinkedAt m m' t vmp k) (ha : Ascending m t.inorder)
    (hv : (m.heap vmp).vmStart < (m.heap vmp).vmEnd) (hpage : pageSize ∣ (m.heap vmp).vmStart)
    (hapart : ∀ a ∈ t.inorder, (m.heap a).vmEnd ≤ (m.heap vmp).vmStart ∨ (m.heap vmp).vmEnd ≤ (m.heap a).vmStart) :
    Ascending m (ctxPre k ++ vmp :: ctxPost k) := by
  rw [h.inorder] at ha hapart
  have hpre : ∀ a ∈ ctxPre k, (m.heap a).vmEnd ≤ (m.heap vmp).vmStart := by
    intro a hak
    have hend := h.pre a hak
    have hlong := (ha.area a (by simp [hak])).1
    have hside := hapart a (by simp [hak])
    omega
  have hpost : ∀ a ∈ ctxPost k, (m.heap vmp).vmEnd ≤ (m.heap a).vmStart := by
    intro a hak
    have hend := h.post a hak
    have hside := hapart a (by simp [hak])
    omega
  exact ha.insert hv hpage hpre hpost

/-- What a successful `create_vma` with clean memory does: a leaf of the tree, and a place in
the list after the root if that ends below it, else in front. -/
structure AreaAdded (m m' : Mm) (t t' : BTree Nat) (addr mem : Nat) : Prop where
  tree : TreeAt m'.links 0 0 m'.rbNode t'
  asc : Ascending m' t'.inorder
  aligned : EndAligned m' t'.inorder
  perm : t'.inorder.Perm (mem :: t.inorder)
  start : (m'.heap mem).vmStart = roundDown addr pageSize
  user : (m'.heap mem).vmEnd ≤ kernelBaseAddr
  ranges : ∀ a ∈ t.inorder, (m'.heap a).vmStart = (m.heap a).vmStart ∧ (m'.heap a).vmEnd = (m.heap a).vmEnd
  parent : ∀ a ∈ t.inorder, (m'.heap a).rbParent = (m.heap a).rbParent
  parent_new : (m'.heap mem).rbParent = 0 ∨ (m'.heap mem).rbParent ∈ t.inorder
  outside : ∀ a ∉ t.inorder, a ≠ mem → (m'.heap a).rbLeft = (m.heap a).rbLeft ∧
    (m'.heap a).rbRight = (m.heap a).rbRight
  root : m.rbNode ≠ 0 → m'.rbNode = m.rbNode
  count : m'.mmapCount = m.mmapCount + 1
  list : ∀ {pre post}, Chain m.next 0 m.mmap (pre ++ post) → (pre ++ post).Nodup → mem ∉ pre ++ post →
    IsLast (if m.rbNode ≠ 0 ∧ (m.heap m.rbNode).vmEnd < roundDown addr pageSize then m.rbNode else 0) pre →
    Chain m'.next 0 m'.mmap (pre ++ mem :: post)

/-- The place in the list, for memory that is written before the area is linked. -/
theorem Mm.Wrote.vmLink_list {m₁ : Mm} {v : Vma} (hw : m.Wrote m₁ mem v) (ht : TreeAt m.links 0 0 m.rbNode t)
    (ha : Ascending m t.inorder) (hnew : mem ∉ t.inorder) (h₀ : mem ≠ 0) (h : m₁.vmLink mem fuel = some m')
    {pre post : List Nat} (hl : Chain m.next 0 m.mmap (pre ++ post)) (hnd : (pre ++ post).Nodup)
    (hout : mem ∉ pre ++ post)
    (hlast : IsLast (if m.rbNode ≠ 0 ∧ (m.heap m.rbNode).vmEnd < v.vmStart then m.rbNode else 0) pre) :
    Chain m'.next 0 m'.mmap (pre ++ mem :: post) := by
  obtain ⟨vma, -, -, hprev, -, -⟩ := vmLink_inv h
  apply MiniOS.vmLink_list h hprev (hw.chain hout hl) hnd _ hout h₀
  rw [findVmaPrev_spec (hw.tree hnew ht).below (hw.ascending hnew ha).inOrder hprev, hw.node, hw.root]
  by_cases hne : m.rbNode = 0
  · simpa [hne] using hlast
  · rw [hw.old hnew _ (ht.root_mem hne)]
    exact hlast

theorem createVma_added (ht : TreeAt m.links 0 0 m.rbNode t) (ha : Ascending m t.inorder)
    (hp : EndAligned m t.inorder)
    (hlen : 0 < len) (hsum : addr + len < 2 ^ 32) (h₀ : mem ≠ 0) (hnew : mem ∉ t.inorder)
    (hleft : (m.heap mem).rbLeft = 0) (hright : (m.heap mem).rbRight = 0)
    (h : m.createVma addr len flags mem fuel = some (mem, m')) : ∃ t', AreaAdded m m' t t' addr mem := by
  rcases createVma_cases h with ⟨e, _⟩ | ⟨-, -, -, -, htop, vma, hf, hfit, hlink⟩
  · exact absurd e h₀
  rw [wrap_of_lt hsum] at htop hfit
  have hapart := createVma_apart (m.heap mem) flags ht ha hp hlen htop hf hfit
  have hrange := newVma_range (m.heap mem) flags hlen htop
  have hw := m.set_wrote mem (newVma (m.heap mem) addr len flags)
  generalize m.set mem (newVma (m.heap mem) addr len flags) = m₁ at hlink hw
  have hold := hw.old hnew
  have hstart : (m₁.heap mem).vmStart = roundDown addr pageSize := by rw [hw.node]; rfl
  have ha₁ := hw.ascending hnew ha
  obtain ⟨k, hk⟩ := vmLink_linked (hw.tree hnew ht) ha.nodup ha₁.ends h₀ hnew hlink
  have hranges := vmLink_ranges hlink
  have hin : (plug k (.node .nil mem .nil)).inorder.Perm (mem :: t.inorder) := by
    rw [inorder_plug_leaf, hk.inorder]
    exact perm_middle
  have hasc : Ascending m₁ (ctxPre k ++ mem :: ctxPost k) := by
    apply hk.ascending ha₁
    · rw [hstart, hw.node]
      exact hrange.1
    · rw [hstart]
      exact dvd_roundDown _ _
    · intro a hat
      rw [hold a hat, hstart, hw.node]
      exact hapart a hat
  refine ⟨_, hk.leaf (by rw [hw.node]; exact hleft) (by rw [hw.node]; exact hright), ?_, ?_, hin, ?_, ?_, ?_, ?_,
    hk.parent_new, ?_, ?_, ?_, hw.vmLink_list ht ha hnew h₀ hlink⟩
  · rw [inorder_plug_leaf]
    exact hasc.congr (fun a _ => (hranges a).1) fun a _ => (hranges a).2
  · intro a hat
    rw [(hranges a).2]
    rcases mem_cons.mp (hin.mem_iff.mp hat) with rfl | hat
    · rw [hw.node]
      exact newVma_aligned _ _ _ _
    · rw [hold a hat]
      exact hp a hat
  · rw [(hranges mem).1]
    exact hstart
  · rw [(hranges mem).2, hw.node]
    exact hrange.2 _ (by decide) htop
  · intro a hat
    rw [(hranges a).1, (hranges a).2, hold a hat]
    exact ⟨rfl, rfl⟩
  · intro a hat
    rw [hk.parent a hat, hold a hat]
  · intro a hat hne
    rw [(hk.outside a hat).1, (hk.outside a hat).2, hw.other a hne]
    exact ⟨rfl, rfl⟩
  · intro hne
    rw [hk.root (hw.root ▸ hne), hw.root]
  · rw [vmLink_count hlink, hw.count]

def InsertedInto (m' : Mm) (t : BTree Nat) (mem : Nat) : Prop :=
  ∃ t', TreeAt m'.links 0 0 m'.rbNode t' ∧ EndSorted m' t'.inorder ∧
    ∃ pre post, t.inorder = pre ++ post ∧ t'.inorder = pre ++ mem :: post

theorem LinkedAt.inserted (h : LinkedAt m m' t vmp k) (hs : EndSorted m t.inorder)
    (hr : SameRanges m m') (hleft : (m.heap vmp).rbLeft = 0) (hright : (m.heap vmp).rbRight = 0) :
    InsertedInto m' t vmp := by
  refine ⟨_, h.leaf hleft hright, ?_, ctxPre k, ctxPost k, h.inorder, inorder_plug_leaf k vmp⟩
  rw [inorder_plug_leaf]
  have hsorted : EndSorted m (ctxPre k ++ vmp :: ctxPost k) := by
    apply EndSorted.insert _ h.pre h.post
    rw [← h.inorder]
    exact hs
  exact hsorted.congr fun a _ => (hr a).2

/-- A child that the memory held would have the new node as its parent, and no node has. -/
theorem LinkedAt.children (h : LinkedAt m m' t vmp k) (ht : TreeAt m.links 0 0 m.rbNode t)
    (h₀ : vmp ≠ 0) (hnew : vmp ∉ t.inorder) (hins : InsertedInto m' t vmp) :
    (m.heap vmp).rbLeft = 0 ∧ (m.heap vmp).rbRight = 0 := by
  obtain ⟨t', ht', -, pre, post, hsplit, hin⟩ := hins
  have hmem : vmp ∈ t'.inorder := by
    rw [hin]
    simp
  have hparent : ∀ c ∈ t'.inorder, (m'.heap c).rbParent ≠ vmp := by
    intro c hc e
    have hcases : (m'.heap c).rbParent = 0 ∨ (m'.heap c).rbParent ∈ t.inorder := by
      by_cases hcm : c = vmp
      · rw [hcm]
        exact h.parent_new
      · have hct : c ∈ t.inorder := by
          rw [hin] at hc
          rw [hsplit]
          simpa [hcm] using hc
        rw [h.parent c hct]
        exact ht.parent_mem c hct
    rw [e] at hcases
    exact hcases.elim h₀ hnew
  have hnone : ∀ c, (m'.heap vmp).rbLeft = c ∨ (m'.heap vmp).rbRight = c → c = 0 := by
    intro c hc
    by_contra hne
    obtain ⟨hct, hcp⟩ := ht'.child hne hmem hc
    exact hparent c hct hcp
  rw [← (h.outside vmp hnew).1, ← (h.outside vmp hnew).2]
  exact ⟨hnone _ (.inl rfl), hnone _ (.inr rfl)⟩

end

/-- `create_vma` of a range that meets no area returns the new area, and the tree has it as
one more node at the place of its end if and only if its memory held no children. -/
theorem create_vma_leaf {m : Mm} {t : BTree Nat} {addr len flags mem fuel : Nat}
    (ht : TreeAt m.links 0 0 m.rbNode t)
    (hnd : t.inorder.Nodup) (hs : EndSorted m t.inorder) (hpage : roundDown addr pageSize ≠ 0)
    (htop : addr + len ≤ kernelBaseAddr)
    (hgap : ∀ a ∈ t.inorder, (m.heap a).vmEnd ≤ addr ∨ addr + len ≤ (m.heap a).vmStart) (h₀ : mem ≠ 0)
    (hnew : mem ∉ t.inorder) (hf : t.inorder.length < fuel) :
    ∃ m', m.createVma addr len flags mem fuel = some (mem, m') ∧
      (InsertedInto m' t mem ↔ (m.heap mem).rbLeft = 0 ∧ (m.heap mem).rbRight = 0) := by
  have hw := m.set_wrote mem (newVma (m.heap mem) addr len flags)
  generalize hm₁ : m.set mem (newVma (m.heap mem) addr len flags) = m₁ at hw
  have ht₁ := hw.tree hnew ht
  have hs₁ : EndSorted m₁ t.inorder := hs.congr fun a ha => by rw [hw.old hnew a ha]
  obtain ⟨m', hlink⟩ := vmLink_isSome mem ht₁ hf
  obtain ⟨k, hk⟩ := vmLink_linked ht₁ hnd hs₁ h₀ hnew hlink
  obtain ⟨vma, hvma⟩ := findVma_isSome addr fuel 0 ht.below hf
  have hfit := findVma_gap fuel ht hgap (.inl rfl) hvma
  refine ⟨m', createVma_some hpage htop hvma hfit h₀ (hm₁ ▸ hlink), ?_⟩
  have hl : (m₁.heap mem).rbLeft = (m.heap mem).rbLeft := by rw [hw.node]; rfl
  have hr : (m₁.heap mem).rbRight = (m.heap mem).rbRight := by rw [hw.node]; rfl
  rw [← hl, ← hr]
  constructor
  · exact hk.children ht₁ h₀ hnew
  · intro hz
    exact hk.inserted hs₁ (vmLink_ranges hlink) hz.1 hz.2

/-- The page between the root and its right child. -/
theorem create_vma_leaf_between : ∃ m', threeAreas.createVma 0x5000 0x1000 0 64 4 = some (64, m') ∧
    InsertedInto m' threeNodes 64 := by
  obtain ⟨m', hcreate, hiff⟩ := @create_vma_leaf threeAreas threeNodes 0x5000 0x1000 0 64 4 threeAreas_tree
    (by decide) (by unfold EndSorted; decide) (by decide) (by decide) (by decide) (by decide)
    (by decide) (by decide)
  exact ⟨m', hcreate, hiff.mpr ⟨rfl, rfl⟩⟩

/-- The same page with memory in which `rb_left` is not `NULL`: the new node has a left child that is no area. -/
theorem create_vma_keeps_junk : ∃ m',
    (threeAreas.set 64 { zeroVma with rbLeft := 0x1000 }).createVma 0x5000 0x1000 0 64 4 = some (64, m') ∧
    (m'.heap 48).rbLeft = 64 ∧ (m'.heap 64).rbLeft = 0x1000 ∧ ¬ InsertedInto m' threeNodes 64 := by
  refine ⟨_, rfl, rfl, rfl, ?_⟩
  rintro ⟨t', ht', -, pre, post, hsplit, hin⟩
  have hmem : ∀ a, a ∈ t'.inorder ↔ a = 64 ∨ a ∈ threeNodes.inorder := fun a => by
    rw [hin, hsplit]
    simp only [mem_append, mem_cons]
    tauto
  have hchild := (ht'.child (c := 0x1000) (by decide) ((hmem 64).mpr (.inl rfl)) (.inl rfl)).1
  exact absurd ((hmem _).mp hchild) (by decide)

end MiniOS
