import Mathlib.Data.List.Nodup
import Mathlib.Logic.Basic

/-!
# Binary trees stored in pointers

`TreeAt` reads a tree off three pointer fields. A tree with a hole is a path of
frames, innermost first (`CtxAt`), so that writing the one pointer that leads to
the hole is one lemma, `CtxAt.refill`, for inserting a leaf and for cutting out a
node alike.
-/

namespace MiniOS

open List

variable {P : Type*}

inductive BTree (P : Type*) where
  | nil
  | node (l : BTree P) (x : P) (r : BTree P)

def BTree.inorder : BTree P → List P
  | .nil => []
  | .node l x r => l.inorder ++ x :: r.inorder

inductive Frame (P : Type*) where
  | left (x : P) (r : BTree P)
  | right (l : BTree P) (x : P)

def Frame.fill (t : BTree P) : Frame P → BTree P
  | .left x r => .node t x r
  | .right l x => .node l x t

def plug : List (Frame P) → BTree P → BTree P
  | [], t => t
  | f :: k, t => plug k (f.fill t)

def ctxPre : List (Frame P) → List P
  | [] => []
  | .left _ _ :: k => ctxPre k
  | .right l x :: k => ctxPre k ++ (l.inorder ++ [x])

def ctxPost : List (Frame P) → List P
  | [] => []
  | .left x r :: k => x :: r.inorder ++ ctxPost k
  | .right _ _ :: k => ctxPost k

theorem inorder_plug : ∀ (k : List (Frame P)) (t : BTree P),
    (plug k t).inorder = ctxPre k ++ t.inorder ++ ctxPost k
  | [], t => by simp [plug, ctxPre, ctxPost]
  | .left x r :: k, t => by
    rw [plug, inorder_plug k]; simp [Frame.fill, BTree.inorder, ctxPre, ctxPost]
  | .right l x :: k, t => by
    rw [plug, inorder_plug k]; simp [Frame.fill, BTree.inorder, ctxPre, ctxPost]

theorem plug_append : ∀ (k k' : List (Frame P)) (t : BTree P), plug (k ++ k') t = plug k' (plug k t)
  | [], _, _ => rfl
  | f :: k, k', t => plug_append k k' (f.fill t)

theorem exists_plug {x : P} : ∀ {t : BTree P}, x ∈ t.inorder → ∃ k l r, t = plug k (.node l x r)
  | .node l y r, h => by
    rcases mem_append.mp h with h | h
    · obtain ⟨k, l', r', e⟩ := exists_plug h
      exact ⟨k ++ [.left y r], l', r', by rw [plug_append, ← e]; rfl⟩
    · rcases mem_cons.mp h with rfl | h
      · exact ⟨[], l, r, rfl⟩
      · obtain ⟨k, l', r', e⟩ := exists_plug h
        exact ⟨k ++ [.right l y], l', r', by rw [plug_append, ← e]; rfl⟩

/-! ## Fields -/

structure TreeLinks (P : Type*) where
  left : P → P
  right : P → P
  parent : P → P

def TreeAt (L : TreeLinks P) (null : P) : (par p : P) → BTree P → Prop
  | _, p, .nil => p = null
  | par, p, .node l x r =>
    p = x ∧ x ≠ null ∧ L.parent x = par ∧ TreeAt L null x (L.left x) l ∧ TreeAt L null x (L.right x) r

/-- The tree that a descent from `p` sees, whatever the parents of its nodes are. -/
def TreeBelow (L : TreeLinks P) (null : P) : (p : P) → BTree P → Prop
  | p, .nil => p = null
  | p, .node l x r => p = x ∧ x ≠ null ∧ TreeBelow L null (L.left x) l ∧ TreeBelow L null (L.right x) r

def CtxAt (L : TreeLinks P) (null root : P) : List (Frame P) → (par h : P) → Prop
  | [], par, h => root = h ∧ par = null
  | .left x r :: k, par, h =>
    par = x ∧ x ≠ null ∧ L.left x = h ∧ TreeAt L null x (L.right x) r ∧ CtxAt L null root k (L.parent x) x
  | .right l x :: k, par, h =>
    par = x ∧ x ≠ null ∧ L.right x = h ∧ TreeAt L null x (L.left x) l ∧ CtxAt L null root k (L.parent x) x

inductive Slot (P : Type*) where
  | root
  | left (x : P)
  | right (x : P)
  deriving DecidableEq

def slotOf : List (Frame P) → Slot P
  | [] => .root
  | .left x _ :: _ => .left x
  | .right _ x :: _ => .right x

section
variable {L L' : TreeLinks P} {null root root' par h : P} {t : BTree P} {p : P}

theorem TreeAt.congr : ∀ {t : BTree P} {par p : P}, TreeAt L null par p t →
    (∀ x ∈ t.inorder, L'.left x = L.left x ∧ L'.right x = L.right x ∧ L'.parent x = L.parent x) →
    TreeAt L' null par p t
  | .nil, _, _, ht, _ => ht
  | .node l x r, _, _, ⟨h₁, h₂, h₃, h₄, h₅⟩, hx => by
    obtain ⟨e₁, e₂, e₃⟩ := hx x (by simp [BTree.inorder])
    refine ⟨h₁, h₂, by rw [e₃]; exact h₃, ?_, ?_⟩
    · rw [e₁]; exact h₄.congr fun y hy => hx y (by simp [BTree.inorder, hy])
    · rw [e₂]; exact h₅.congr fun y hy => hx y (by simp [BTree.inorder, hy])

theorem TreeAt.below : ∀ {t : BTree P} {par p : P}, TreeAt L null par p t → TreeBelow L null p t
  | .nil, _, _, ht => ht
  | .node _ _ _, _, _, ⟨h₁, h₂, _, h₄, h₅⟩ => ⟨h₁, h₂, h₄.below, h₅.below⟩

theorem TreeBelow.ne_null : ∀ {t : BTree P} {p : P}, TreeBelow L null p t → ∀ x ∈ t.inorder, x ≠ null
  | .nil, _, _, _, hx => absurd hx not_mem_nil
  | .node l y r, _, ⟨_, hy, hl, hr⟩, x, hx => by
    rcases mem_append.mp hx with hx | hx
    · exact hl.ne_null x hx
    · rcases mem_cons.mp hx with rfl | hx
      · exact hy
      · exact hr.ne_null x hx

theorem CtxAt.congr : ∀ {k : List (Frame P)} {par h : P}, CtxAt L null root k par h →
    (∀ x ∈ ctxPre k ++ ctxPost k, L'.left x = L.left x ∧ L'.right x = L.right x ∧ L'.parent x = L.parent x) →
    CtxAt L' null root k par h
  | [], _, _, hk, _ => hk
  | .left x r :: k, _, _, ⟨h₁, h₂, h₃, h₄, h₅⟩, hx => by
    obtain ⟨e₁, e₂, e₃⟩ := hx x (by simp [ctxPost])
    refine ⟨h₁, h₂, by rw [e₁]; exact h₃, ?_, ?_⟩
    · rw [e₂]; exact h₄.congr fun y hy => hx y (by simp [ctxPost, hy])
    · rw [e₃]
      refine h₅.congr fun y hy => hx y ?_
      simp only [ctxPre, ctxPost, mem_append, mem_cons] at hy ⊢
      tauto
  | .right l x :: k, _, _, ⟨h₁, h₂, h₃, h₄, h₅⟩, hx => by
    obtain ⟨e₁, e₂, e₃⟩ := hx x (by simp [ctxPre])
    refine ⟨h₁, h₂, by rw [e₂]; exact h₃, ?_, ?_⟩
    · rw [e₁]; exact h₄.congr fun y hy => hx y (by simp [ctxPre, hy])
    · rw [e₃]
      refine h₅.congr fun y hy => hx y ?_
      simp only [ctxPre, ctxPost, mem_append, mem_cons] at hy ⊢
      tauto

theorem CtxAt.par_mem {k : List (Frame P)} (hk : CtxAt L null root k par h) :
    par = null ∨ par ∈ ctxPre k ++ ctxPost k := by
  cases k with
  | nil => exact .inl hk.2
  | cons f k =>
    right
    cases f with
    | left x r => simp [hk.1, ctxPost]
    | right l x => simp [hk.1, ctxPre]

theorem treeAt_plug : ∀ {k : List (Frame P)} {t : BTree P},
    TreeAt L null null root (plug k t) ↔ ∃ par h, CtxAt L null root k par h ∧ TreeAt L null par h t
  | [], t => by
    constructor
    · intro ht; exact ⟨null, root, ⟨rfl, rfl⟩, ht⟩
    · rintro ⟨par, h, ⟨rfl, rfl⟩, ht⟩; exact ht
  | .left x r :: k, t => by
    rw [plug, treeAt_plug (k := k)]
    constructor
    · rintro ⟨par, h, hk, ⟨rfl, h₂, rfl, h₄, h₅⟩⟩
      exact ⟨_, _, ⟨rfl, h₂, rfl, h₅, hk⟩, h₄⟩
    · rintro ⟨par, h, ⟨rfl, h₂, rfl, h₄, hk⟩, ht⟩
      exact ⟨_, _, hk, rfl, h₂, rfl, ht, h₄⟩
  | .right l x :: k, t => by
    rw [plug, treeAt_plug (k := k)]
    constructor
    · rintro ⟨par, h, hk, ⟨rfl, h₂, rfl, h₄, h₅⟩⟩
      exact ⟨_, _, ⟨rfl, h₂, rfl, h₄, hk⟩, h₅⟩
    · rintro ⟨par, h, ⟨rfl, h₂, rfl, h₄, hk⟩, ht⟩
      exact ⟨_, _, hk, rfl, h₂, rfl, h₄, ht⟩

theorem TreeAt.reparent {par' c : P} (ht : TreeAt L null par c t) (hnd : t.inorder.Nodup)
    (hc : c ≠ null → L'.parent c = par')
    (hx : ∀ x ∈ t.inorder, L'.left x = L.left x ∧ L'.right x = L.right x ∧ (x ≠ c → L'.parent x = L.parent x)) :
    TreeAt L' null par' c t := by
  cases t with
  | nil => exact ht
  | node l x r =>
    obtain ⟨rfl, h₂, _, h₄, h₅⟩ := ht
    obtain ⟨e₁, e₂, _⟩ := hx c (by simp [BTree.inorder])
    rw [BTree.inorder, nodup_middle, nodup_cons] at hnd
    refine ⟨rfl, h₂, hc h₂, ?_, ?_⟩
    · rw [e₁]
      refine h₄.congr fun y hy => ?_
      obtain ⟨e₁, e₂, e₃⟩ := hx y (by simp [BTree.inorder, hy])
      exact ⟨e₁, e₂, e₃ fun e => hnd.1 (by simp [← e, hy])⟩
    · rw [e₂]
      refine h₅.congr fun y hy => ?_
      obtain ⟨e₁, e₂, e₃⟩ := hx y (by simp [BTree.inorder, hy])
      exact ⟨e₁, e₂, e₃ fun e => hnd.1 (by simp [← e, hy])⟩

theorem TreeAt.ne_null (ht : TreeAt L null par p t) : ∀ x ∈ t.inorder, x ≠ null :=
  ht.below.ne_null

theorem TreeBelow.root_mem (ht : TreeBelow L null p t) (h : p ≠ null) : p ∈ t.inorder := by
  cases t with
  | nil => exact absurd ht h
  | node l x r => rw [ht.1]; simp [BTree.inorder]

theorem TreeBelow.root_ne_null {p a : P} (ht : TreeBelow L null p t) (ha : a ∈ t.inorder) : p ≠ null := by
  cases t with
  | nil => exact absurd ha not_mem_nil
  | node l x r => rw [ht.1]; exact ht.2.1

theorem TreeAt.root_mem (ht : TreeAt L null par p t) (h : p ≠ null) : p ∈ t.inorder :=
  ht.below.root_mem h

theorem TreeAt.eq_nil (ht : TreeAt L null par p t) (h : p = null) : t = .nil := by
  cases t with
  | nil => rfl
  | node l x r => exact absurd (ht.1.symm.trans h) ht.2.1

theorem TreeAt.parent_mem : ∀ {t : BTree P} {par p : P}, TreeAt L null par p t →
    ∀ y ∈ t.inorder, L.parent y = par ∨ L.parent y ∈ t.inorder
  | .nil, _, _, _, _, hy => by cases hy
  | .node l x r, _, _, ⟨_, _, hpar, hl, hr⟩, y, hy => by
    -- below `x` the parent is `x` or in the subtree
    have hbelow : ∀ t : BTree P, (∀ z ∈ t.inorder, z ∈ (BTree.node l x r).inorder) →
        L.parent y = x ∨ L.parent y ∈ t.inorder → L.parent y ∈ (BTree.node l x r).inorder := by
      intro t hsub h
      rcases h with h | h
      · rw [h]
        simp [BTree.inorder]
      · exact hsub _ h
    rcases mem_append.mp hy with hy | hy
    · exact .inr (hbelow l (fun z hz => by simp [BTree.inorder, hz]) (hl.parent_mem y hy))
    · rcases mem_cons.mp hy with rfl | hy
      · exact .inl hpar
      · exact .inr (hbelow r (fun z hz => by simp [BTree.inorder, hz]) (hr.parent_mem y hy))

theorem TreeAt.child {c : P} (hc : c ≠ null) : ∀ {t : BTree P} {par p : P}, TreeAt L null par p t →
    ∀ {y}, y ∈ t.inorder → L.left y = c ∨ L.right y = c → c ∈ t.inorder ∧ L.parent c = y
  | .nil, _, _, _, _, hy, _ => by cases hy
  | .node l x r, _, _, ⟨_, _, _, hl, hr⟩, y, hy, h => by
    have hroot : ∀ {t : BTree P}, TreeAt L null x c t → c ∈ t.inorder ∧ L.parent c = x := by
      intro t ht
      cases t with
      | nil => exact absurd ht hc
      | node l z r => exact ⟨ht.root_mem hc, by rw [ht.1]; exact ht.2.2.1⟩
    rcases mem_append.mp hy with hy | hy
    · obtain ⟨hm, hp⟩ := hl.child hc hy h
      exact ⟨by simp [BTree.inorder, hm], hp⟩
    · rcases mem_cons.mp hy with rfl | hy
      · rcases h with h | h
        · obtain ⟨hm, hp⟩ := hroot (h ▸ hl)
          exact ⟨by simp [BTree.inorder, hm], hp⟩
        · obtain ⟨hm, hp⟩ := hroot (h ▸ hr)
          exact ⟨by simp [BTree.inorder, hm], hp⟩
      · obtain ⟨hm, hp⟩ := hr.child hc hy h
        exact ⟨by simp [BTree.inorder, hm], hp⟩

def Slot.get (root : P) (L : TreeLinks P) : Slot P → P
  | .root => root
  | .left x => L.left x
  | .right x => L.right x

theorem ctx_left_perm (x : P) (r : BTree P) (k : List (Frame P)) :
    (ctxPre (.left x r :: k) ++ ctxPost (.left x r :: k)).Perm (x :: (r.inorder ++ (ctxPre k ++ ctxPost k))) := by
  rw [ctxPre, ctxPost, cons_append]
  exact perm_middle.trans ((perm_append_comm_assoc ..).cons x)

theorem ctx_right_perm (l : BTree P) (x : P) (k : List (Frame P)) :
    (ctxPre (.right l x :: k) ++ ctxPost (.right l x :: k)).Perm (x :: (l.inorder ++ (ctxPre k ++ ctxPost k))) := by
  rw [ctxPre, ctxPost, append_assoc, append_assoc, singleton_append]
  have hmove : (ctxPre k ++ (l.inorder ++ x :: ctxPost k)).Perm (ctxPre k ++ x :: (l.inorder ++ ctxPost k)) :=
    perm_middle.append_left _
  exact hmove.trans (perm_middle.trans ((perm_append_comm_assoc ..).cons x))

/-- Only the node with the slot may have another link. -/
theorem same_away_from_slot {nodes rest : List P} {x : P} {slot : Slot P} (hperm : nodes.Perm (x :: rest))
    (hnd : nodes.Nodup) (hslot : ∀ y, y ≠ x → slot ≠ .left y ∧ slot ≠ .right y)
    (hleft : ∀ y ∈ nodes, slot ≠ .left y → L'.left y = L.left y)
    (hright : ∀ y ∈ nodes, slot ≠ .right y → L'.right y = L.right y)
    (hparent : ∀ y ∈ nodes, L'.parent y = L.parent y) :
    ∀ y ∈ rest, L'.left y = L.left y ∧ L'.right y = L.right y ∧ L'.parent y = L.parent y := by
  intro y hy
  have hnd' := nodup_cons.mp (hperm.nodup_iff.mp hnd)
  have hne : y ≠ x := fun e => hnd'.1 (e ▸ hy)
  have hin : y ∈ nodes := hperm.mem_iff.mpr (mem_cons_of_mem _ hy)
  exact ⟨hleft y hin (hslot y hne).1, hright y hin (hslot y hne).2, hparent y hin⟩

theorem CtxAt.refill {k : List (Frame P)} {h' : P} (hk : CtxAt L null root k par h)
    (hnd : (ctxPre k ++ ctxPost k).Nodup) (hslot : (slotOf k).get root' L' = h')
    (hroot : slotOf k ≠ .root → root' = root)
    (hleft : ∀ x ∈ ctxPre k ++ ctxPost k, slotOf k ≠ .left x → L'.left x = L.left x)
    (hright : ∀ x ∈ ctxPre k ++ ctxPost k, slotOf k ≠ .right x → L'.right x = L.right x)
    (hparent : ∀ x ∈ ctxPre k ++ ctxPost k, L'.parent x = L.parent x) :
    CtxAt L' null root' k par h' := by
  cases k with
  | nil => exact ⟨hslot, hk.2⟩
  | cons f k =>
    cases f with
    | left x r =>
      obtain ⟨h₁, h₂, _, h₄, h₅⟩ := hk
      have hperm := ctx_left_perm x r k
      have hx := hperm.mem_iff.mpr (mem_cons_self ..)
      have hsame := same_away_from_slot hperm hnd
        (fun y hy => ⟨fun e => hy (Slot.left.inj e).symm, by simp⟩) hleft hright hparent
      rw [hroot (by simp [slotOf])]
      refine ⟨h₁, h₂, hslot, ?_, ?_⟩
      · rw [hright x hx (by simp [slotOf])]
        exact h₄.congr fun y hy => hsame y (mem_append_left _ hy)
      · rw [hparent x hx]
        exact h₅.congr fun y hy => hsame y (mem_append_right _ hy)
    | right l x =>
      obtain ⟨h₁, h₂, _, h₄, h₅⟩ := hk
      have hperm := ctx_right_perm l x k
      have hx := hperm.mem_iff.mpr (mem_cons_self ..)
      have hsame := same_away_from_slot hperm hnd
        (fun y hy => ⟨by simp, fun e => hy (Slot.right.inj e).symm⟩) hleft hright hparent
      rw [hroot (by simp [slotOf])]
      refine ⟨h₁, h₂, hslot, ?_, ?_⟩
      · rw [hleft x hx (by simp [slotOf])]
        exact h₄.congr fun y hy => hsame y (mem_append_left _ hy)
      · rw [hparent x hx]
        exact h₅.congr fun y hy => hsame y (mem_append_right _ hy)

end

end MiniOS
