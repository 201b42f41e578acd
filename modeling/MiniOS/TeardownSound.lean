import Mathlib.Data.Finset.Max
import MiniOS.Teardown
import MiniOS.VmaTree

/-!
# Every area is freed once

`delete_vma` takes the head off the list only if the root does not end below it, otherwise
the head stays where it is although its memory is gone. While areas are only created, the
root is the oldest area and the list is the ones not above the root, the root, and the ones
above it, each part with the newest first.
-/

namespace MiniOS

open List Mm Option

/-! ## Taking the head off -/

/-- A tree and a list over the same areas. Below each node stand younger ones, and in the
list a younger area is before an older one or starts below it. -/
structure Hung (m : Mm) (born : Nat → Nat) (l : List Nat) (t : BTree Nat) : Prop where
  tree : TreeAt m.links 0 0 m.rbNode t
  asc : Ascending m t.inorder
  perm : t.inorder.Perm l
  list : Chain m.next 0 m.mmap l
  count : m.mmapCount = l.length
  older : ∀ a ∈ l, (m.heap a).rbParent = 0 ∨ born (m.heap a).rbParent < born a
  order : l.Pairwise fun a b => born b < born a ∨ (m.heap a).vmStart < (m.heap b).vmStart

def Oldest (born : Nat → Nat) (l : List Nat) (r : Nat) : Prop := r ∈ l ∧ ∀ a ∈ l, born r ≤ born a

theorem exists_oldest (born : Nat → Nat) {l : List Nat} (h : l ≠ []) : ∃ r, Oldest born l r := by
  obtain ⟨r, hr, hmin⟩ := l.toFinset.exists_min_image born (toFinset_nonempty_iff l |>.mpr h)
  refine ⟨r, List.mem_toFinset.mp hr, ?_⟩
  intro a ha
  exact hmin a (List.mem_toFinset.mpr ha)

section
variable {m m' : Mm} {born : Nat → Nat} {l rest : List Nat} {t : BTree Nat} {v fuel : Nat} {vmas : List Nat}
    {t' : BTree Nat} {addr mem : Nat} {r : Nat}

namespace Hung

theorem nodup (h : Hung m born l t) : l.Nodup := h.perm.nodup_iff.mp h.asc.nodup

theorem length (h : Hung m born l t) : t.inorder.length = l.length := h.perm.length_eq

theorem ne_head (h : Hung m born (v :: rest) t) {a : Nat} (ha : a ∈ rest) : a ≠ v := by
  intro e
  exact (nodup_cons.mp h.nodup).1 (e ▸ ha)

theorem root_of_nil (h : Hung m born [] t) : m.rbNode = 0 := by
  have hin := perm_nil.mp h.perm
  cases t with
  | nil => exact h.tree
  | node tl x tr => simp [BTree.inorder] at hin

theorem root_of_parent {a : Nat} (h : Hung m born l t) (ha : a ∈ l) (hparent : (m.heap a).rbParent = 0) :
    a = m.rbNode := by
  obtain ⟨k, tl, tr, hn⟩ := exists_nodeAt h.tree (h.perm.mem_iff.mpr ha)
  have hk := hn.ctx
  rw [hparent] at hk
  cases k with
  | nil => exact hk.1.symm
  | cons f k =>
    cases f with
    | left y r => exact absurd hk.1.symm hk.2.1
    | right l y => exact absurd hk.1.symm hk.2.1

theorem oldest_root (h : Hung m born l t) (hr : Oldest born l r) : r = m.rbNode := by
  refine h.root_of_parent hr.1 ?_
  rcases h.tree.parent_mem r (h.perm.mem_iff.mpr hr.1) with hp | hp
  · exact hp
  · have hyoung := hr.2 _ (h.perm.mem_iff.mp hp)
    rcases h.older r hr.1 with hp' | hp'
    · exact hp'
    · exact absurd hp' hyoung.not_gt

/-- A left child of the head would be younger and start below it. -/
theorem head_left (h : Hung m born (v :: rest) t) : (m.heap v).rbLeft = 0 := by
  by_contra hne
  have hv : v ∈ t.inorder := h.perm.mem_iff.mpr (mem_cons_self ..)
  obtain ⟨hc, hparent⟩ := h.tree.child hne hv (.inl rfl)
  obtain ⟨k, tl, tr, hn⟩ := exists_nodeAt h.tree hv
  have hasc := h.asc
  rw [hn.inorder] at hasc
  have hmem : (m.heap v).rbLeft ∈ ctxPre k ++ tl.inorder := mem_append_right _ (hn.left.root_mem hne)
  have hbelow := hasc.cross hmem (mem_cons_self ..)
  have hlong := (hasc.area _ (mem_append_left _ hmem)).1
  have hcv : (m.heap v).rbLeft ∈ rest := by
    rcases mem_cons.mp (h.perm.mem_iff.mp hc) with e | hc
    · rw [e] at hbelow hlong
      omega
    · exact hc
  have hyoung := h.older _ (mem_cons_of_mem _ hcv)
  rw [show (m.heap (m.heap v).rbLeft).rbParent = v from hparent] at hyoung
  have horder := (pairwise_cons.mp h.order).1 _ hcv
  have h₀ := h.list.ne_null v (mem_cons_self ..)
  omega

end Hung

theorem unlinked_parent {c tmp : Nat} {slot : Slot Nat} (hv : c ≠ v) (a : Nat) :
    ((m.unlinked v c tmp slot).heap a).rbParent =
      if c ≠ 0 ∧ a = c then (m.heap v).rbParent else (m.heap a).rbParent := by
  refine (listUnlink_field Vma.rbParent (fun _ _ => rfl) _ v tmp a).trans ?_
  by_cases hc : c ≠ 0 ∧ a = c
  · obtain ⟨h₀, rfl⟩ := hc
    rw [if_pos ⟨h₀, rfl⟩]
    rw [show (m.cut v a slot).heap a = _ from cut_heap_child m slot h₀ hv]
  · rw [if_neg hc]
    apply cut_parent
    by_cases h₀ : c = 0
    · exact .inl h₀
    · exact .inr fun e => hc ⟨h₀, e⟩

theorem unlinked_count (m : Mm) (v c tmp : Nat) (slot : Slot Nat) :
    (m.unlinked v c tmp slot).mmapCount = m.mmapCount - 1 := by
  unfold unlinked
  rw [(listUnlink_rbNode _ v tmp).2]
  exact congrArg (· - 1) (cut_mmap m v c slot).2.1

/-- `delete_vma` finds the head, and unlinks it from behind the root if that ends below it. -/
theorem Hung.deleteVma (h : Hung m born (v :: rest) t) (hf : (v :: rest).length < fuel) :
    ∃ k tr, NodeAt m v t k .nil tr ∧ m.deleteVma v fuel = some (m.unlinked v (m.heap v).rbRight
      (if m.rbNode ≠ 0 ∧ (m.heap m.rbNode).vmEnd < (m.heap v).vmStart then m.rbNode else 0) (slotOf k)) := by
  have hv : v ∈ t.inorder := h.perm.mem_iff.mpr (mem_cons_self ..)
  rw [← h.length] at hf
  obtain ⟨k, tl, tr, hn⟩ := exists_nodeAt h.tree hv
  obtain rfl := hn.left.eq_nil h.head_left
  obtain ⟨r, hfind⟩ := findVma_isSome (m.heap v).vmStart fuel 0 h.tree.below hf
  obtain rfl := findVma_self h.tree h.asc hn.inorder hfind
  obtain ⟨tmp, hprev⟩ := findVmaPrev_isSome (m.heap r).vmStart fuel 0 h.tree.below hf
  obtain ⟨f, rfl⟩ : ∃ f, fuel = f + 1 := ⟨fuel - 1, by omega⟩
  have hdel := rbtreeDelete_eq f (hn.slotTo h.asc.nodup) (.inl ⟨h.head_left, rfl⟩)
  refine ⟨k, tr, hn, ?_⟩
  rw [← findVmaPrev_spec h.tree.below h.asc.inOrder hprev]
  exact vmLinkDel_eq hfind hprev hdel

theorem Hung.congr (h : Hung m born l t) (hh : ∀ a ∈ l, m'.heap a = m.heap a) (hmmap : m'.mmap = m.mmap)
    (hroot : m'.rbNode = m.rbNode) (hcount : m'.mmapCount = m.mmapCount) : Hung m' born l t := by
  have ht : ∀ a ∈ t.inorder, m'.heap a = m.heap a := fun a ha => hh a (h.perm.mem_iff.mp ha)
  refine ⟨?_, ?_, h.perm, ?_, hcount.trans h.count, ?_, ?_⟩
  · rw [hroot]
    apply h.tree.congr
    intro a ha
    simp only [links, ht a ha, and_self]
  · exact h.asc.congr (fun a ha => by rw [ht a ha]) fun a ha => by rw [ht a ha]
  · rw [hmmap]
    apply h.list.congr
    intro a ha
    exact congrArg Vma.vmNext (hh a ha)
  · intro a ha
    rw [hh a ha]
    exact h.older a ha
  · apply h.order.imp_of_mem
    intro a b ha hb hab
    rw [hh a ha, hh b hb]
    exact hab

/-- With the head unlinked the rest hangs as before. -/
theorem Hung.unlinked {k : List (Frame Nat)} {tr : BTree Nat} (h : Hung m born (v :: rest) t)
    (hn : NodeAt m v t k .nil tr) :
    Hung (m.unlinked v (m.heap v).rbRight 0 (slotOf k)) born rest (plug k tr) := by
  have hin := hn.inorder
  rw [BTree.inorder, append_nil] at hin
  have hin' : (plug k tr).inorder = ctxPre k ++ (tr.inorder ++ ctxPost k) := by
    rw [inorder_plug, append_assoc]
  have hperm : t.inorder.Perm (v :: (plug k tr).inorder) := by
    rw [hin, hin']
    exact perm_middle
  have hsub : (plug k tr).inorder.Perm rest := List.Perm.cons_inv (hperm.symm.trans h.perm)
  have hnd := h.nodup
  have hrange := unlinked_range m v (m.heap v).rbRight 0 (slotOf k)
  have hright : (m.heap v).rbRight ≠ 0 → (m.heap v).rbRight ∈ rest ∧ (m.heap (m.heap v).rbRight).rbParent = v := by
    intro hne
    refine ⟨hsub.mem_iff.mp ?_, (h.tree.child hne (h.perm.mem_iff.mpr (mem_cons_self ..)) (.inr rfl)).2⟩
    rw [hin']
    simp [hn.right.root_mem hne]
  have hne : (m.heap v).rbRight ≠ v := by
    intro e
    have hmem := (hright fun e₀ => hn.ne_zero (e.symm.trans e₀)).1
    rw [e] at hmem
    exact (nodup_cons.mp hnd).1 hmem
  refine ⟨unlinked_tree hn.ctx rfl hn.right ?_, ?_, hsub, unlinked_chain h.list hnd (.inl ⟨rfl, rfl⟩), ?_, ?_, ?_⟩
  · have hnodup := h.asc.nodup
    rw [hin] at hnodup
    simpa using hnodup
  · have hasc := h.asc
    rw [hin] at hasc
    rw [hin']
    exact hasc.without.congr (fun a _ => (hrange a).1) fun a _ => (hrange a).2
  · rw [unlinked_count, h.count]
    simp
  · intro a ha
    rw [unlinked_parent hne]
    have hold := h.older a (mem_cons_of_mem _ ha)
    by_cases hc : (m.heap v).rbRight ≠ 0 ∧ a = (m.heap v).rbRight
    · rw [if_pos hc]
      obtain ⟨hc₀, rfl⟩ := hc
      rw [(hright hc₀).2] at hold
      have hchild := hold.resolve_left hn.ne_zero
      rcases h.older v (mem_cons_self ..) with hp | hp
      · exact .inl hp
      · exact .inr (hp.trans hchild)
    · rw [if_neg hc]
      exact hold
  · apply (pairwise_cons.mp h.order).2.imp
    intro a b hab
    rw [(hrange a).1, (hrange b).1]
    exact hab

/-- One round of `delete_all_vma`, with `w` left in the freed memory. -/
theorem Hung.delete_head (h : Hung m born (v :: rest) t) (hf : (v :: rest).length < fuel) :
    ∃ m₁, m.deleteVma v fuel = some m₁ ∧
      ((m.heap m.rbNode).vmEnd < (m.heap v).vmStart → m₁.mmap = v) ∧
      ((m.heap v).vmStart ≤ (m.heap m.rbNode).vmEnd → (∀ w, ∃ t', Hung (m₁.set v w) born rest t') ∧
        SameRanges m m₁) := by
  obtain ⟨k, tr, hn, hdel⟩ := h.deleteVma hf
  have hroot : m.rbNode ≠ 0 := by
    intro e
    have hnil := h.tree.eq_nil e
    have hv : v ∈ t.inorder := h.perm.mem_iff.mpr (mem_cons_self ..)
    rw [hnil] at hv
    cases hv
  refine ⟨_, hdel, ?_, ?_⟩
  · intro hbelow
    rw [if_pos ⟨hroot, hbelow⟩]
    unfold Mm.unlinked Mm.listUnlink
    rw [if_neg hroot]
    exact (cut_mmap m v _ _).1.trans h.list.1
  · intro habove
    rw [if_neg fun hc => absurd hc.2 habove.not_gt]
    refine ⟨?_, unlinked_range m v _ 0 _⟩
    intro w
    refine ⟨_, (h.unlinked hn).congr ?_ rfl rfl rfl⟩
    intro a ha
    exact set_heap_of_ne _ _ (h.ne_head ha)

/-! ## The loop -/

/-- In front of each area that is deleted the oldest one left does not end below it. -/
def Clears (m : Mm) (born : Nat → Nat) : List Nat → Prop
  | [] => True
  | v :: rest => (∀ r, Oldest born (v :: rest) r → (m.heap v).vmStart ≤ (m.heap r).vmEnd) ∧ Clears m born rest

theorem clears_congr : ∀ {l : List Nat}, (∀ a ∈ l, (m'.heap a).vmStart = (m.heap a).vmStart ∧
    (m'.heap a).vmEnd = (m.heap a).vmEnd) → (Clears m' born l ↔ Clears m born l)
  | [], _ => Iff.rfl
  | v :: rest, h => by
    rw [Clears, Clears, clears_congr fun a ha => h a (mem_cons_of_mem _ ha), (h v (mem_cons_self ..)).1]
    apply and_congr_left
    intro _
    apply forall_congr'
    intro r
    apply imp_congr_right
    intro hr
    rw [(h r hr.1).2]

theorem clears_head (h : Hung m born (v :: rest) t) :
    Clears m born (v :: rest) ↔ (m.heap v).vmStart ≤ (m.heap m.rbNode).vmEnd ∧ Clears m born rest := by
  obtain ⟨r, hr⟩ := exists_oldest born (cons_ne_nil v rest)
  rw [Clears]
  apply and_congr_left
  intro _
  constructor
  · intro hall
    have hle := hall r hr
    rw [h.oldest_root hr] at hle
    exact hle
  · intro hle r hr
    rw [h.oldest_root hr]
    exact hle

theorem deleteAllLoop_suffix {junk : Nat → Vma} : ∀ (rounds : Nat) {m m' : Mm} {vma : Nat} {log log' : List Freed},
    m.deleteAllLoop junk fuel rounds vma log = some (m', log') → log <:+ log'
  | 0, _, _, _, _, _, h => by cases h
  | rounds + 1, m, m', vma, log, log', h => by
    rw [deleteAllLoop] at h
    split at h
    · obtain ⟨-, rfl⟩ := Prod.mk.inj (some.inj h)
      exact suffix_refl _
    · obtain ⟨m₁, -, h⟩ := bind_eq_some_iff.mp h
      exact (suffix_cons _ _).trans (deleteAllLoop_suffix rounds h)

theorem deleteAllLoop_clears (junk : Nat → Vma) : ∀ (l : List Nat) {m : Mm} {t : BTree Nat} {rounds : Nat}
    (log : List Freed), Hung m born l t → l.length < rounds → l.length < fuel → Clears m born l →
    ∃ m', m.deleteAllLoop junk fuel rounds m.mmap log = some (m', (l.map m.freed).reverse ++ log) ∧
      m'.mmap = 0 ∧ m'.rbNode = 0 ∧ m'.mmapCount = 0
  | [], m, t, rounds + 1, log, h, _, _, _ => by
    rw [deleteAllLoop, if_pos (show m.mmap = 0 from h.list)]
    exact ⟨_, rfl, rfl, h.root_of_nil, h.count⟩
  | v :: rest, m, t, rounds + 1, log, h, hr, hf, hc => by
    obtain ⟨habove, hc⟩ := (clears_head h).mp hc
    obtain ⟨m₁, hdel, -, hgood⟩ := h.delete_head hf
    obtain ⟨hhung, hranges⟩ := hgood habove
    obtain ⟨t', h'⟩ := hhung (junk log.length)
    have hsame : ∀ a ∈ rest, ((m₁.set v (junk log.length)).heap a).vmStart = (m.heap a).vmStart ∧
        ((m₁.set v (junk log.length)).heap a).vmEnd = (m.heap a).vmEnd := by
      intro a ha
      rw [set_heap_of_ne _ _ (h.ne_head ha)]
      exact hranges a
    have hmap : rest.map (m₁.set v (junk log.length)).freed = rest.map m.freed := by
      apply map_congr_left
      intro a ha
      rw [freed, freed, (hsame a ha).1, (hsame a ha).2]
    obtain ⟨m', hloop, hend⟩ := deleteAllLoop_clears junk rest (m.freed v :: log) h' (Nat.lt_of_succ_lt_succ hr)
      (Nat.lt_of_succ_lt hf) ((clears_congr hsame).mpr hc)
    refine ⟨m', ?_, hend⟩
    rw [deleteAllLoop, if_neg (show m.mmap ≠ 0 from h.list.1 ▸ h.list.2.1), show m.mmap = v from h.list.1, hdel,
      bind_some]
    rw [hmap] at hloop
    rw [map_cons, reverse_cons, append_assoc]
    exact hloop

/-- Otherwise some area is deleted twice, if the loop returns at all. -/
theorem deleteAllLoop_stuck (junk : Nat → Vma) : ∀ (l : List Nat) {m m' : Mm} {t : BTree Nat} {rounds : Nat}
    {log log' : List Freed}, Hung m born l t → l.length < rounds → l.length < fuel → ¬ Clears m born l →
    m.deleteAllLoop junk fuel rounds m.mmap log = some (m', log') → ¬ (log'.map Freed.vma).Nodup
  | [], _, _, _, _, _, _, _, _, _, hc, _ => absurd trivial hc
  | v :: rest, m, m', t, rounds + 1, log, log', h, hr, hf, hc, hloop => by
    obtain ⟨m₁, hdel, hbad, hgood⟩ := h.delete_head hf
    have h₀ : v ≠ 0 := h.list.2.1
    rw [deleteAllLoop, if_neg (show m.mmap ≠ 0 from h.list.1 ▸ h₀), show m.mmap = v from h.list.1, hdel,
      bind_some] at hloop
    by_cases habove : (m.heap v).vmStart ≤ (m.heap m.rbNode).vmEnd
    · obtain ⟨hhung, hranges⟩ := hgood habove
      obtain ⟨t', h'⟩ := hhung (junk log.length)
      apply deleteAllLoop_stuck junk rest h' (Nat.lt_of_succ_lt_succ hr) (Nat.lt_of_succ_lt hf) _ hloop
      intro hc'
      apply hc
      refine (clears_head h).mpr ⟨habove, (clears_congr ?_).mp hc'⟩
      intro a ha
      rw [set_heap_of_ne _ _ (h.ne_head ha)]
      exact hranges a
    · -- the head has not moved: the next round deletes it again
      rw [hbad (Nat.lt_of_not_le habove)] at hloop
      cases rounds with
      | zero => cases hloop
      | succ rounds =>
        rw [deleteAllLoop, if_neg h₀] at hloop
        obtain ⟨m₂, -, hloop⟩ := bind_eq_some_iff.mp hloop
        obtain ⟨later, rfl⟩ := deleteAllLoop_suffix rounds hloop
        intro hnd
        rw [map_append] at hnd
        have htwice := hnd.sublist (sublist_append_right ..)
        simp [freed] at htwice

theorem deleteAllVma_iff (junk : Nat → Vma) {rounds : Nat} (h : Hung m born l t) (hp : l.Perm vmas)
    (hr : l.length < rounds) (hf : l.length < fuel) :
    (∃ m' log, m.deleteAllVma junk rounds fuel = some (m', log) ∧ TornDown m vmas m' log) ↔ Clears m born l := by
  unfold deleteAllVma
  by_cases h₀ : m.mmap = 0
  · obtain rfl := (Chain.nil_iff h.list).mpr h₀
    obtain rfl := nil_perm.mp hp
    rw [if_pos h₀]
    exact iff_of_true ⟨m, [], rfl, List.Perm.nil, h₀, h.root_of_nil, h.count⟩ trivial
  · rw [if_neg h₀]
    constructor
    · rintro ⟨m', log, hloop, hdown⟩
      by_contra hc
      apply deleteAllLoop_stuck junk l h hr hf hc hloop
      have hvma : (vmas.map m.freed).map Freed.vma = vmas := by simp [Function.comp_def, freed]
      have hperm := hdown.once.map Freed.vma
      rw [hvma] at hperm
      exact (hperm.trans hp.symm).nodup_iff.mpr h.nodup
    · intro hc
      obtain ⟨m', hloop, hmmap, hroot, hcount⟩ := deleteAllLoop_clears junk l [] h hr hf hc
      refine ⟨m', _, hloop, ?_, hmmap, hroot, hcount⟩
      rw [append_nil]
      exact (reverse_perm _).trans (hp.map _)

/-! ## What creating areas builds -/

theorem Hung.created {born' : Nat → Nat} {pre post : List Nat}
    (h : Hung m born (pre ++ post) t) (hadd : AreaAdded m m' t t' addr mem) (hnew : mem ∉ pre ++ post)
    (hlast : IsLast (if m.rbNode ≠ 0 ∧ (m.heap m.rbNode).vmEnd < roundDown addr pageSize then m.rbNode else 0) pre)
    (hpre : ∀ a ∈ pre, (m.heap a).vmStart < roundDown addr pageSize)
    (hborn : ∀ a ∈ pre ++ post, born' a = born a ∧ born' a < born' mem) :
    Hung m' born' (pre ++ mem :: post) t' := by
  have hin : ∀ a ∈ pre ++ post, a ∈ t.inorder := fun a ha => h.perm.mem_iff.mpr ha
  have hstart : ∀ a ∈ pre ++ post, (m'.heap a).vmStart = (m.heap a).vmStart :=
    fun a ha => (hadd.ranges a (hin a ha)).1
  refine ⟨hadd.tree, hadd.asc, ?_, hadd.list h.list h.nodup hnew hlast, ?_, ?_, ?_⟩
  · exact hadd.perm.trans ((h.perm.cons mem).trans perm_middle.symm)
  · rw [hadd.count, h.count]
    simp only [length_append, length_cons]
    omega
  · intro a ha
    rcases mem_cons.mp (perm_middle.mem_iff.mp ha) with rfl | ha
    · rcases hadd.parent_new with hp | hp
      · exact .inl hp
      · exact .inr (hborn _ (h.perm.mem_iff.mp hp)).2
    · rw [hadd.parent a (hin a ha), (hborn a ha).1]
      rcases h.tree.parent_mem a (hin a ha) with hp | hp
      · exact .inl hp
      · rw [show born' (m.heap a).rbParent = _ from (hborn _ (h.perm.mem_iff.mp hp)).1]
        exact h.older a ha
  · have hold : (pre ++ post).Pairwise fun a b => born' b < born' a ∨
        (m'.heap a).vmStart < (m'.heap b).vmStart := by
      apply h.order.imp_of_mem
      intro a b ha hb hab
      rw [(hborn a ha).1, (hborn b hb).1, hstart a ha, hstart b hb]
      exact hab
    obtain ⟨h₁, h₂, h₃⟩ := pairwise_append.mp hold
    refine pairwise_append.mpr ⟨h₁, pairwise_cons.mpr ⟨?_, h₂⟩, ?_⟩
    · intro b hb
      exact .inl (hborn b (mem_append_right _ hb)).2
    · intro a ha b hb
      rcases mem_cons.mp hb with rfl | hb
      · right
        rw [hstart a (mem_append_left _ ha), hadd.start]
        exact hpre a ha
      · exact h₃ a ha b hb

def Mm.above (m : Mm) (r v : Nat) : Bool := (m.heap r).vmEnd < (m.heap v).vmStart

/-- The list while areas are only created; the oldest one is the root. -/
def Mm.listOrder (m : Mm) : List Nat → List Nat
  | [] => []
  | r :: rest => (rest.filter fun v => !m.above r v).reverse ++ r :: (rest.filter (m.above r)).reverse

theorem listOrder_perm (m : Mm) : ∀ vmas : List Nat, (m.listOrder vmas).Perm vmas
  | [] => List.Perm.refl _
  | r :: rest => by
    rw [listOrder]
    refine perm_middle.trans (List.Perm.cons r ?_)
    refine ((reverse_perm _).append (reverse_perm _)).trans ?_
    exact perm_append_comm.trans (filter_append_perm (m.above r) rest)

structure BuiltAs (m : Mm) (vmas : List Nat) (t : BTree Nat) : Prop where
  hung : Hung m (vmas.idxOf ·) (m.listOrder vmas) t
  aligned : EndAligned m t.inorder

theorem BuiltAs.mem_iff (h : BuiltAs m vmas t) (a : Nat) : a ∈ t.inorder ↔ a ∈ vmas :=
  (h.hung.perm.trans (listOrder_perm m vmas)).mem_iff

theorem BuiltAs.root (h : BuiltAs m (r :: rest) t) : m.rbNode = r := by
  refine (h.hung.oldest_root ⟨(listOrder_perm m _).mem_iff.mpr (mem_cons_self ..), ?_⟩).symm
  intro a _
  simp

theorem idxOf_snoc {mem : Nat} (hnew : mem ∉ vmas) : ∀ a ∈ vmas,
    (vmas ++ [mem]).idxOf a = vmas.idxOf a ∧ (vmas ++ [mem]).idxOf a < (vmas ++ [mem]).idxOf mem := by
  intro a ha
  rw [idxOf_append_of_mem ha, idxOf_append_of_notMem hnew]
  exact ⟨rfl, Nat.lt_add_right _ (idxOf_lt_length_iff.mpr ha)⟩

/-- The new area goes right behind the root if it starts above its end, else in front. -/
theorem BuiltAs.place (h : BuiltAs m vmas t)
    (hadd : AreaAdded m m' t t' addr mem) :
    ∃ pre post, m.listOrder vmas = pre ++ post ∧ m'.listOrder (vmas ++ [mem]) = pre ++ mem :: post ∧
      (∀ a ∈ pre, (m.heap a).vmStart < roundDown addr pageSize) ∧
      IsLast (if m.rbNode ≠ 0 ∧ (m.heap m.rbNode).vmEnd < roundDown addr pageSize then m.rbNode else 0) pre := by
  cases vmas with
  | nil =>
    refine ⟨[], [], rfl, rfl, by simp, .inl ⟨?_, rfl⟩⟩
    simp [show m.rbNode = 0 from h.hung.root_of_nil]
  | cons r rest =>
    have hranges := fun a ha => hadd.ranges a ((h.mem_iff a).mpr ha)
    have hr : r ∈ t.inorder := (h.mem_iff r).mpr (mem_cons_self ..)
    have hold : ∀ a ∈ rest, m'.above r a = m.above r a := by
      intro a ha
      rw [above, above, (hranges r (mem_cons_self ..)).2, (hranges a (mem_cons_of_mem _ ha)).1]
    have hmem : m'.above r mem = decide ((m.heap r).vmEnd < roundDown addr pageSize) := by
      rw [above, (hadd.ranges r hr).2, hadd.start]
    rw [h.root, cons_append, listOrder, listOrder, filter_append, filter_append,
      filter_congr hold, filter_congr fun a ha => congrArg (!·) (hold a ha)]
    by_cases habove : (m.heap r).vmEnd < roundDown addr pageSize
    · refine ⟨(rest.filter fun v => !m.above r v).reverse ++ [r], (rest.filter (m.above r)).reverse, ?_, ?_, ?_, ?_⟩
      · simp
      · simp [hmem, habove]
      · intro a ha
        rcases mem_append.mp ha with ha | ha
        · have hlow := (mem_filter.mp (mem_reverse.mp ha)).2
          simp only [above, Bool.not_eq_true', decide_eq_false_iff_not] at hlow
          omega
        · rw [mem_singleton.mp ha]
          exact (h.hung.asc.area r hr).1.trans habove
      · rw [if_pos ⟨h.hung.tree.ne_null r hr, habove⟩]
        exact .inr ⟨h.hung.tree.ne_null r hr, _, rfl⟩
    · refine ⟨[], _, rfl, ?_, by simp, .inl ⟨?_, rfl⟩⟩
      · simp [hmem, habove]
      · rw [if_neg fun hc => habove hc.2]

theorem BuiltAs.added (h : BuiltAs m vmas t) (hnew : mem ∉ vmas)
    (hadd : AreaAdded m m' t t' addr mem) : BuiltAs m' (vmas ++ [mem]) t' := by
  have hlist := fun a => (listOrder_perm m vmas).mem_iff (a := a)
  obtain ⟨pre, post, hsplit, hsplit', hpre, hlast⟩ := h.place hadd
  refine ⟨?_, hadd.aligned⟩
  have hhung := h.hung
  rw [hsplit] at hhung hlist
  rw [hsplit']
  apply hhung.created hadd _ hlast hpre
  · intro a ha
    exact idxOf_snoc hnew a ((hlist a).mp ha)
  · intro hm
    exact hnew ((hlist mem).mp hm)

theorem builtAs_alloc (heap : Nat → Vma) : BuiltAs (.allocMm heap) [] .nil := by
  refine ⟨⟨rfl, ⟨List.Pairwise.nil, by simp [BTree.inorder]⟩, List.Perm.nil, rfl, rfl, ?_, List.Pairwise.nil⟩, ?_⟩
  · simp [listOrder]
  · simp [EndAligned, BTree.inorder]

theorem built_as (h : Built m vmas) : ∃ t, BuiltAs m vmas t := by
  induction h with
  | alloc heap => exact ⟨.nil, builtAs_alloc heap⟩
  | created _ hlen hsum h₀ hnew hleft hright hc ih =>
    obtain ⟨t, ih⟩ := ih
    obtain ⟨t', hadd⟩ := createVma_added ih.hung.tree ih.hung.asc ih.aligned hlen hsum h₀
      (fun ht => hnew ((ih.mem_iff _).mp ht)) hleft hright hc
    exact ⟨t', ih.added hnew hadd⟩
  | failed _ hc ih =>
    rcases createVma_cases hc with ⟨-, rfl⟩ | ⟨e, h₀, -⟩
    · exact ih
    · exact absurd e.symm h₀

/-! ## When the list clears -/

theorem clears_cons (hr : r ∈ v :: rest) (hmin : ∀ a ∈ v :: rest, a = r ∨ born r < born a) :
    Clears m born (v :: rest) ↔ (m.heap v).vmStart ≤ (m.heap r).vmEnd ∧ Clears m born rest := by
  have hold : Oldest born (v :: rest) r := by
    refine ⟨hr, ?_⟩
    intro a ha
    rcases hmin a ha with rfl | hlt
    · exact Nat.le_refl _
    · exact hlt.le
  rw [Clears]
  apply and_congr_left
  intro _
  constructor
  · intro hall
    exact hall r hold
  · intro hle r' hr'
    rcases hmin r' hr'.1 with rfl | hlt
    · exact hle
    · exact absurd (hr'.2 r hr) (Nat.not_le.mpr hlt)

theorem clears_append {l₂ : List Nat} (hr : r ∈ l₂) : ∀ {l₁ : List Nat},
    (∀ a ∈ l₁ ++ l₂, a = r ∨ born r < born a) →
    (Clears m born (l₁ ++ l₂) ↔ (∀ v ∈ l₁, (m.heap v).vmStart ≤ (m.heap r).vmEnd) ∧ Clears m born l₂)
  | [], _ => by simp
  | v :: l₁, hmin => by
    rw [cons_append, clears_cons (mem_cons_of_mem _ (mem_append_right _ hr)) hmin,
      clears_append hr fun a ha => hmin a (mem_cons_of_mem _ ha), forall_mem_cons, and_assoc]

theorem pairwise_idxOf (h : l.Nodup) : l.Pairwise fun a b => l.idxOf a < l.idxOf b := by
  rw [pairwise_iff_getElem]
  intro i j hi hj hij
  rw [h.idxOf_getElem, h.idxOf_getElem]
  exact hij

/-- The areas above the root are left when the root goes; the oldest of them is the last. -/
theorem clears_highs {s : Nat} {ss : List Nat} (hold : (s :: ss).Pairwise fun a b => born a < born b)
    (hs : (m.heap s).vmStart < (m.heap s).vmEnd) :
    Clears m born (s :: ss).reverse ↔ ∀ v ∈ s :: ss, (m.heap v).vmStart ≤ (m.heap s).vmEnd := by
  have hmin : ∀ a ∈ ss.reverse ++ [s], a = s ∨ born s < born a := by
    intro a ha
    rcases mem_append.mp ha with ha | ha
    · exact .inr ((pairwise_cons.mp hold).1 a (mem_reverse.mp ha))
    · exact .inl (mem_singleton.mp ha)
  have hlast : Clears m born [s] := by
    apply (clears_cons (mem_singleton_self s) _).mpr
    · exact ⟨hs.le, trivial⟩
    · simp
  rw [reverse_cons, clears_append (mem_singleton_self s) hmin, and_iff_left hlast, forall_mem_cons,
    and_iff_right hs.le]
  simp only [mem_reverse]

theorem clears_listOrder (hborn : vmas.Pairwise fun a b => born a < born b)
    (harea : ∀ a ∈ vmas, (m.heap a).vmStart < (m.heap a).vmEnd) :
    Clears m born (m.listOrder vmas) ↔ TearsDown m vmas := by
  cases vmas with
  | nil => exact Iff.rfl
  | cons r rest =>
    obtain ⟨hr, hrest⟩ := pairwise_cons.mp hborn
    have hmin : ∀ a ∈ m.listOrder (r :: rest), a = r ∨ born r < born a := by
      intro a ha
      exact (mem_cons.mp ((listOrder_perm m _).mem_iff.mp ha)).imp_right (hr a)
    have hlow : ∀ v ∈ (rest.filter fun v => !m.above r v).reverse, (m.heap v).vmStart ≤ (m.heap r).vmEnd := by
      intro v hv
      have hnot := (mem_filter.mp (mem_reverse.mp hv)).2
      simpa [above] using hnot
    have hhigh : ∀ v, (v ∈ rest.filter (m.above r)) ↔ v ∈ rest ∧ (m.heap r).vmEnd < (m.heap v).vmStart := by
      intro v
      simp [above]
    rw [listOrder] at hmin ⊢
    rw [clears_append (mem_cons_self ..) hmin, and_iff_right hlow,
      clears_cons (mem_cons_self ..) fun a ha => hmin a (mem_append_right _ ha),
      and_iff_right (Nat.le_of_lt (harea r (mem_cons_self ..))), TearsDown]
    rw [show (fun v => decide ((m.heap r).vmEnd < (m.heap v).vmStart)) = m.above r from rfl, ← head?_filter]
    have hsub := List.Pairwise.sublist (filter_sublist (p := m.above r)) hrest
    cases hfilter : rest.filter (m.above r) with
    | nil => exact iff_of_true trivial (by simp)
    | cons s ss =>
      rw [hfilter] at hsub hhigh
      have hs := harea s (mem_cons_of_mem _ ((hhigh s).mp (mem_cons_self ..)).1)
      rw [clears_highs hsub hs]
      simp only [head?_cons, some.injEq, forall_eq', hhigh, and_imp]

theorem BuiltAs.clears_iff (h : BuiltAs m vmas t) :
    Clears m (vmas.idxOf ·) (m.listOrder vmas) ↔ TearsDown m vmas := by
  have hnd : vmas.Nodup := (listOrder_perm m vmas).nodup_iff.mp h.hung.nodup
  apply clears_listOrder (pairwise_idxOf hnd)
  intro a ha
  exact (h.hung.asc.area a ((h.mem_iff a).mpr ha)).1

end

/-- `delete_all_vma` frees every area once and leaves nothing if and only if, of the areas
above the first one, none starts above the end of the one created first. -/
theorem delete_all_vma_right {m : Mm} {vmas : List Nat} (h : Built m vmas) (junk : Nat → Vma) {rounds fuel : Nat}
    (hr : vmas.length < rounds) (hf : vmas.length < fuel) :
    (∃ m' log, m.deleteAllVma junk rounds fuel = some (m', log) ∧ TornDown m vmas m' log) ↔ TearsDown m vmas := by
  obtain ⟨t, hb⟩ := built_as h
  have hp := listOrder_perm m vmas
  rw [deleteAllVma_iff junk hb.hung hp (hp.length_eq ▸ hr) (hp.length_eq ▸ hf)]
  exact hb.clears_iff

def Mm.withPage (m : Mm) (addr mem : Nat) : Mm := ((m.createVma addr 4096 0 mem 8).getD (0, m)).2

def firstPage : Mm := (allocMm fun _ => zeroVma).withPage 0x1000 16

def twoPages : Mm := firstPage.withPage 0x3000 32

theorem built_twoPages : Built twoPages [16, 32] := by
  have h₁ : Built firstPage [16] :=
    .created (.alloc fun _ => zeroVma) (by decide) (by decide) (by decide) (by decide) rfl rfl
      (show (allocMm fun _ => zeroVma).createVma 0x1000 4096 0 16 8 = some (16, firstPage) from rfl)
  exact .created h₁ (by decide) (by decide) (by decide) (by decide) rfl rfl
    (show firstPage.createVma 0x3000 4096 0 32 8 = some (32, twoPages) from rfl)

theorem delete_all_vma_right_two : ∃ m' log, twoPages.deleteAllVma (fun _ => zeroVma) 3 3 = some (m', log) ∧
    TornDown twoPages [16, 32] m' log := by
  apply (delete_all_vma_right built_twoPages _ (Nat.lt_succ_self 2) (Nat.lt_succ_self 2)).mpr
  intro s hs v hv _
  have he : s = 32 := (some.inj hs).symm
  rw [he, mem_singleton.mp hv]
  decide

/-- A third page above the second one: it stands before it in the list, and when the first
page is gone it stays there after it has been freed. -/
theorem delete_all_vma_twice : ∃ m, Built m [16, 32, 48] ∧ ∀ junk rounds fuel m' log, 3 < rounds → 3 < fuel →
    m.deleteAllVma junk rounds fuel = some (m', log) → ¬ TornDown m [16, 32, 48] m' log := by
  have hb : Built (twoPages.withPage 0x5000 48) [16, 32, 48] :=
    .created built_twoPages (by decide) (by decide) (by decide) (by decide) rfl rfl
      (show twoPages.createVma 0x5000 4096 0 48 8 = some (48, twoPages.withPage 0x5000 48) from rfl)
  refine ⟨_, hb, ?_⟩
  intro junk rounds fuel m' log hr hf hdel hdown
  obtain ⟨t, ht⟩ := built_as hb
  have hp := listOrder_perm (twoPages.withPage 0x5000 48) [16, 32, 48]
  have hclears := (deleteAllVma_iff junk ht.hung hp (hp.length_eq ▸ hr) (hp.length_eq ▸ hf)).mp
    ⟨m', log, hdel, hdown⟩
  have hle := ht.clears_iff.mp hclears 32 rfl 48 (by decide) (by decide)
  exact absurd hle (by decide)

end MiniOS
