import Mathlib.Logic.Relation
import Mathlib.Data.List.Perm.Basic
import MiniOS.Chain
import MiniOS.Vma

/-!
# The area list and the area tree

`MmRep` is the representation invariant: the list from `mmap` is the in-order
sequence of the tree and its areas are disjoint and ascending. `find_vma` is
exact on such a tree; `find_vma_prev` only ever answers the root or `NULL`, so
linking and unlinking keep the invariant when that answer is the predecessor.
-/

namespace MiniOS

open List Mm Option Relation

namespace Mm

def links (m : Mm) : TreeLinks Nat where
  left a := (m.heap a).rbLeft
  right a := (m.heap a).rbRight
  parent a := (m.heap a).rbParent

def next (m : Mm) (a : Nat) : Nat := (m.heap a).vmNext

@[simp] theorem set_heap_self (m : Mm) (a : Nat) (v : Vma) : (m.set a v).heap a = v := by simp [set]

theorem set_heap_of_ne (m : Mm) {a b : Nat} (v : Vma) (h : b ≠ a) : (m.set a v).heap b = m.heap b := by
  simp [set, h]

theorem set_heap_field {β : Type*} (f : Vma → β) (m : Mm) {a : Nat} {v : Vma} (h : f v = f (m.heap a)) (b : Nat) :
    f ((m.set a v).heap b) = f (m.heap b) := by
  by_cases e : b = a
  · subst e; rw [set_heap_self]; exact h
  · rw [set_heap_of_ne m v e]

end Mm

structure Ascending (m : Mm) (l : List Nat) : Prop where
  apart : l.Pairwise fun a b => (m.heap a).vmEnd ≤ (m.heap b).vmStart
  area : ∀ a ∈ l, (m.heap a).vmStart < (m.heap a).vmEnd ∧ pageSize ∣ (m.heap a).vmStart

structure InOrder (m : Mm) (l : List Nat) : Prop where
  apart : l.Pairwise fun a b => (m.heap a).vmEnd ≤ (m.heap b).vmStart
  long : ∀ a ∈ l, (m.heap a).vmStart < (m.heap a).vmEnd

structure MmRep (m : Mm) (vmas : List Nat) (t : BTree Nat) : Prop where
  tree : TreeAt m.links 0 0 m.rbNode t
  list : Chain m.next 0 m.mmap t.inorder
  asc : Ascending m t.inorder
  count : m.mmapCount = t.inorder.length
  perm : t.inorder.Perm vmas

section
variable {m m' : Mm} {vmas l l₁ l₂ : List Nat} {t : BTree Nat} {addr : Nat} {pre post : List Nat}
    {k : List (Frame Nat)} {vmp fuel : Nat} {slot : Slot Nat} {β : Type*} {v : Nat}

theorem InOrder.left (h : InOrder m (l₁ ++ l₂)) : InOrder m l₁ :=
  ⟨(pairwise_append.mp h.apart).1, fun a ha => h.long a (mem_append_left _ ha)⟩

theorem InOrder.right (h : InOrder m (l₁ ++ l₂)) : InOrder m l₂ :=
  ⟨(pairwise_append.mp h.apart).2.1, fun a ha => h.long a (mem_append_right _ ha)⟩

theorem InOrder.cross (h : InOrder m (l₁ ++ l₂)) {a b : Nat} (ha : a ∈ l₁) (hb : b ∈ l₂) :
    (m.heap a).vmEnd ≤ (m.heap b).vmStart :=
  (pairwise_append.mp h.apart).2.2 a ha b hb

theorem InOrder.ends (h : InOrder m l) : l.Pairwise fun a b => (m.heap a).vmEnd < (m.heap b).vmEnd := by
  apply h.apart.imp_of_mem
  intro a b _ hb hab
  have hlen := h.long b hb
  omega

theorem Ascending.inOrder (h : Ascending m l) : InOrder m l := ⟨h.apart, fun a ha => (h.area a ha).1⟩

theorem Ascending.nodup (h : Ascending m l) : l.Nodup := by
  refine h.apart.imp_of_mem fun {a b} ha _ hab e => ?_
  have := (h.area a ha).1
  rw [e] at this hab; omega

theorem Ascending.left (h : Ascending m (l₁ ++ l₂)) : Ascending m l₁ :=
  ⟨(pairwise_append.mp h.apart).1, fun a ha => h.area a (mem_append_left _ ha)⟩

theorem Ascending.right (h : Ascending m (l₁ ++ l₂)) : Ascending m l₂ :=
  ⟨(pairwise_append.mp h.apart).2.1, fun a ha => h.area a (mem_append_right _ ha)⟩

theorem Ascending.cross (h : Ascending m (l₁ ++ l₂)) {a b : Nat} (ha : a ∈ l₁) (hb : b ∈ l₂) :
    (m.heap a).vmEnd ≤ (m.heap b).vmStart :=
  (pairwise_append.mp h.apart).2.2 a ha b hb

theorem Ascending.congr (h : Ascending m l) (hs : ∀ a ∈ l, (m'.heap a).vmStart = (m.heap a).vmStart)
    (he : ∀ a ∈ l, (m'.heap a).vmEnd = (m.heap a).vmEnd) : Ascending m' l := by
  refine ⟨h.apart.imp_of_mem fun {a b} ha hb hab => ?_, fun a ha => ?_⟩
  · rw [he a ha, hs b hb]; exact hab
  · rw [hs a ha, he a ha]; exact h.area a ha

theorem Ascending.insert {x : Nat} (h : Ascending m (l₁ ++ l₂)) (hlong : (m.heap x).vmStart < (m.heap x).vmEnd)
    (hpage : pageSize ∣ (m.heap x).vmStart) (hpre : ∀ a ∈ l₁, (m.heap a).vmEnd ≤ (m.heap x).vmStart)
    (hpost : ∀ a ∈ l₂, (m.heap x).vmEnd ≤ (m.heap a).vmStart) : Ascending m (l₁ ++ x :: l₂) := by
  refine ⟨pairwise_append.mpr ⟨h.left.apart, pairwise_cons.mpr ⟨hpost, h.right.apart⟩, ?_⟩, ?_⟩
  · intro a ha b hb
    rcases mem_cons.mp hb with rfl | hb
    · exact hpre a ha
    · exact h.cross ha hb
  · intro a ha
    rcases mem_append.mp ha with ha | ha
    · exact h.area a (mem_append_left _ ha)
    · rcases mem_cons.mp ha with rfl | ha
      · exact ⟨hlong, hpage⟩
      · exact h.area a (mem_append_right _ ha)

theorem Ascending.ends (h : Ascending m l) : l.Pairwise fun a b => (m.heap a).vmEnd ≤ (m.heap b).vmEnd :=
  h.inOrder.ends.imp Nat.le_of_lt

/-! ## Searching -/

theorem find_end_none (h : ∀ a ∈ l, (m.heap a).vmEnd ≤ addr) :
    l.find? (fun a => addr < (m.heap a).vmEnd) = none := by
  rw [find?_eq_none]
  intro a ha
  simpa using h a ha

theorem findVma_spec : ∀ (fuel : Nat) {t : BTree Nat} {rb acc r : Nat}, TreeBelow m.links 0 rb t →
    InOrder m t.inorder → m.findVma addr fuel rb acc = some r →
    r = (t.inorder.find? fun a => addr < (m.heap a).vmEnd).getD acc
  | fuel + 1, .nil, rb, acc, r, ht, _, h => by
    rw [findVma, if_pos (show rb = 0 from ht), some.injEq] at h
    simpa [BTree.inorder] using h.symm
  | fuel + 1, .node tl x tr, rb, acc, r, ⟨e, hx, hl, hr⟩, ha, h => by
    subst e
    rw [findVma, if_neg hx] at h
    have hright : InOrder m ([rb] ++ tr.inorder) := ha.right
    rw [BTree.inorder, find?_append]
    by_cases hend : addr < (m.heap rb).vmEnd
    · rw [if_pos hend] at h
      rw [find?_cons_of_pos (by simpa using hend)]
      by_cases hstart : (m.heap rb).vmStart ≤ addr
      · -- everything to the left ends at or below `vm_start`
        rw [if_pos hstart, some.injEq] at h
        rw [find_end_none fun a hal => Nat.le_trans (ha.cross hal (mem_cons_self ..)) hstart]
        exact h.symm
      · rw [if_neg hstart] at h
        rw [findVma_spec fuel hl ha.left h]
        cases tl.inorder.find? (fun a => addr < (m.heap a).vmEnd) with
        | none => rfl
        | some a => rfl
    · rw [if_neg hend] at h
      rw [findVma_spec fuel hr hright.right h]
      have hbefore : ∀ a ∈ tl.inorder, (m.heap a).vmEnd ≤ addr := by
        intro a hal
        have := ha.cross hal (mem_cons_self ..)
        have := ha.long rb (by simp [BTree.inorder])
        omega
      rw [find_end_none hbefore, find?_cons_of_neg (by simpa using hend)]
      rfl

theorem findVmaPrev_none : ∀ (fuel : Nat) {t : BTree Nat} {rb acc r : Nat}, TreeBelow m.links 0 rb t →
    (∀ a ∈ t.inorder, addr ≤ (m.heap a).vmEnd) → m.findVmaPrev addr fuel rb acc = some r → r = acc
  | fuel + 1, .nil, rb, acc, r, ht, _, h => by
    rw [findVmaPrev, if_pos (show rb = 0 from ht), some.injEq] at h
    exact h.symm
  | fuel + 1, .node tl x tr, rb, acc, r, ⟨e, hx, _, hr⟩, ha, h => by
    subst e
    rw [findVmaPrev, if_neg hx, if_neg (Nat.not_lt.mpr (ha rb (by simp [BTree.inorder])))] at h
    exact findVmaPrev_none fuel hr (fun a har => ha a (by simp [BTree.inorder, har])) h

/-- `find_vma_prev` answers the root, if that ends below the address, or `NULL`. -/
theorem findVmaPrev_spec {fuel r : Nat} (ht : TreeBelow m.links 0 m.rbNode t) (ha : InOrder m t.inorder)
    (h : m.findVmaPrev addr fuel m.rbNode 0 = some r) :
    r = if m.rbNode ≠ 0 ∧ (m.heap m.rbNode).vmEnd < addr then m.rbNode else 0 := by
  cases fuel with
  | zero => cases h
  | succ fuel =>
    cases t with
    | nil =>
      rw [findVmaPrev, if_pos (show m.rbNode = 0 from ht), some.injEq] at h
      rw [if_neg (fun hn => hn.1 ht)]
      exact h.symm
    | node tl x tr =>
      obtain ⟨e, hx, _, hr⟩ := ht
      rw [← e] at hx hr
      have hlen := ha.long m.rbNode (by simp [BTree.inorder, e])
      rw [findVmaPrev, if_neg hx] at h
      by_cases hend : (m.heap m.rbNode).vmEnd < addr
      · rw [if_pos hend, if_pos (by omega), some.injEq] at h
        rw [if_pos ⟨hx, hend⟩]; exact h.symm
      · rw [if_neg hend] at h
        rw [if_neg (fun hn => hend hn.2)]
        refine findVmaPrev_none fuel hr (fun a har => ?_) h
        have hra : InOrder m ([x] ++ tr.inorder) := ha.right
        have h₁ := hra.cross (mem_singleton_self x) har
        have h₂ := hra.long a (by simp [har])
        rw [← e] at h₁; omega

/-! ## Linking -/

/-- The descent of `vm_link` from a subtree ends at the hole of some context of
the whole tree, with the areas that end above `addr` after it. -/
theorem linkSlot_spec {root par' : Nat} {slot' : Slot Nat} : ∀ (fuel : Nat) {t : BTree Nat} {k : List (Frame Nat)}
    {rb par : Nat}, CtxAt m.links 0 root k par rb → TreeAt m.links 0 par rb t →
    (∀ a ∈ ctxPre k, (m.heap a).vmEnd ≤ addr) → (∀ a ∈ ctxPost k, addr < (m.heap a).vmEnd) →
    (plug k t).inorder.Pairwise (fun a b => (m.heap a).vmEnd ≤ (m.heap b).vmEnd) →
    m.linkSlot addr fuel rb par (slotOf k) = some (par', slot') →
    ∃ k', plug k' .nil = plug k t ∧ slot' = slotOf k' ∧ CtxAt m.links 0 root k' par' 0 ∧
      (∀ a ∈ ctxPre k', (m.heap a).vmEnd ≤ addr) ∧ ∀ a ∈ ctxPost k', addr < (m.heap a).vmEnd
  | fuel + 1, .nil, k, rb, par, hk, ht, hpre, hpost, _, h => by
    obtain rfl : rb = 0 := ht
    rw [linkSlot, if_pos rfl, some.injEq, Prod.mk.injEq] at h
    obtain ⟨rfl, rfl⟩ := h
    exact ⟨k, rfl, rfl, hk, hpre, hpost⟩
  | fuel + 1, .node tl x tr, k, rb, par, hk, ⟨e, hx, hpar, hl, hr⟩, hpre, hpost, ha, h => by
    subst e
    have hnode : (tl.inorder ++ rb :: tr.inorder).Pairwise fun a b => (m.heap a).vmEnd ≤ (m.heap b).vmEnd := by
      rw [inorder_plug, append_assoc] at ha
      exact (pairwise_append.mp (pairwise_append.mp ha).2.1).1
    rw [pairwise_append, pairwise_cons] at hnode
    obtain ⟨-, ⟨hafter, -⟩, hcross⟩ := hnode
    rw [linkSlot, if_neg hx] at h
    by_cases hend : addr < (m.heap rb).vmEnd
    · rw [if_pos hend] at h
      refine linkSlot_spec fuel (k := .left rb tr :: k) ⟨rfl, hx, rfl, hr, hpar ▸ hk⟩ hl hpre ?_ ha h
      intro a har
      simp only [ctxPost, cons_append, mem_cons, mem_append] at har
      rcases har with rfl | har | har
      · exact hend
      · exact Nat.lt_of_lt_of_le hend (hafter a har)
      · exact hpost a har
    · rw [if_neg hend] at h
      refine linkSlot_spec fuel (k := .right tl rb :: k) ⟨rfl, hx, rfl, hl, hpar ▸ hk⟩ hr ?_ hpost ha h
      intro a har
      simp only [ctxPre, mem_append, mem_singleton] at har
      rcases har with har | har | rfl
      · exact hpre a har
      · exact Nat.le_trans (hcross a har rb (mem_cons_self ..)) (Nat.le_of_not_lt hend)
      · exact Nat.le_of_not_lt hend

theorem append_split_unique {α : Type*} {q : α → Prop} : ∀ {a b c d : List α}, a ++ b = c ++ d →
    (∀ x ∈ a, ¬ q x) → (∀ x ∈ b, q x) → (∀ x ∈ c, ¬ q x) → (∀ x ∈ d, q x) → a = c ∧ b = d
  | [], _, [], _, h, _, _, _, _ => ⟨rfl, h⟩
  | [], b, y :: c, d, h, _, hb, hc, _ =>
    absurd (hb y (by rw [show b = y :: (c ++ d) from h]; simp)) (hc y (by simp))
  | x :: a, b, [], d, h, ha, _, _, hd =>
    absurd (hd x (by rw [← show x :: (a ++ b) = d from h]; simp)) (ha x (by simp))
  | x :: a, b, y :: c, d, h, ha, hb, hc, hd => by
    simp only [cons_append, List.cons.injEq] at h
    obtain ⟨rfl, h⟩ := h
    obtain ⟨rfl, rfl⟩ := append_split_unique h (fun z hz => ha z (by simp [hz])) hb
      (fun z hz => hc z (by simp [hz])) hd
    exact ⟨rfl, rfl⟩

theorem setSlot_field (f : Vma → β) (hl : ∀ v x, f { v with rbLeft := x } = f v)
    (hr : ∀ v x, f { v with rbRight := x } = f v) (m : Mm) (x : Nat) (sl : Slot Nat) (a : Nat) :
    f ((m.setSlot x sl).heap a) = f (m.heap a) := by
  cases sl with
  | root => rfl
  | left b => exact set_heap_field f m (hl _ _) a
  | right b => exact set_heap_field f m (hr _ _) a

theorem setSlot_left (m : Mm) (v : Nat) (sl : Slot Nat) {a : Nat} (h : sl ≠ .left a) :
    ((m.setSlot v sl).heap a).rbLeft = (m.heap a).rbLeft := by
  cases sl with
  | root => rfl
  | left x =>
    have e : a ≠ x := fun e => h (by rw [e])
    simp [setSlot, set_heap_of_ne m _ e]
  | right x => exact set_heap_field Vma.rbLeft m (v := { m.heap x with rbRight := v }) rfl a

theorem setSlot_right (m : Mm) (v : Nat) (sl : Slot Nat) {a : Nat} (h : sl ≠ .right a) :
    ((m.setSlot v sl).heap a).rbRight = (m.heap a).rbRight := by
  cases sl with
  | root => rfl
  | left x => exact set_heap_field Vma.rbRight m (v := { m.heap x with rbLeft := v }) rfl a
  | right x =>
    have e : a ≠ x := fun e => h (by rw [e])
    simp [setSlot, set_heap_of_ne m _ e]

theorem setSlot_get (m : Mm) (v : Nat) (sl : Slot Nat) :
    sl.get (m.setSlot v sl).rbNode (m.setSlot v sl).links = v := by
  cases sl with
  | root => rfl
  | left x => simp [Slot.get, links, setSlot]
  | right x => simp [Slot.get, links, setSlot]

theorem setSlot_rbNode (m : Mm) (v : Nat) {sl : Slot Nat} (h : sl ≠ .root) :
    (m.setSlot v sl).rbNode = m.rbNode := by
  cases sl with
  | root => exact absurd rfl h
  | left x => rfl
  | right x => rfl

theorem setSlot_mmap (m : Mm) (v : Nat) (sl : Slot Nat) :
    (m.setSlot v sl).mmap = m.mmap ∧ (m.setSlot v sl).mmapCount = m.mmapCount := by
  cases sl with
  | root => exact ⟨rfl, rfl⟩
  | left x => exact ⟨rfl, rfl⟩
  | right x => exact ⟨rfl, rfl⟩

theorem setSlot_ctx {par h : Nat} (hk : CtxAt m.links 0 m.rbNode k par h)
    (hnd : (ctxPre k ++ ctxPost k).Nodup) (v : Nat) :
    CtxAt (m.setSlot v (slotOf k)).links 0 (m.setSlot v (slotOf k)).rbNode k par v := by
  refine hk.refill hnd (setSlot_get m v _) (setSlot_rbNode m v) (fun x _ hx => ?_) (fun x _ hx => ?_)
    (fun x _ => ?_)
  · exact setSlot_left m v _ hx
  · exact setSlot_right m v _ hx
  · exact setSlot_field Vma.rbParent (fun _ _ => rfl) (fun _ _ => rfl) m v _ x

theorem mem_ctx_of_slot {x : Nat} (h : slotOf k = .left x ∨ slotOf k = .right x) :
    x ∈ ctxPre k ++ ctxPost k := by
  cases k with
  | nil => rcases h with h | h <;> cases h
  | cons f k =>
    cases f with
    | left y r =>
      rcases h with h | h
      · obtain rfl := Slot.left.inj h; simp [ctxPost]
      · cases h
    | right l y =>
      rcases h with h | h
      · cases h
      · obtain rfl := Slot.right.inj h; simp [ctxPre]

theorem rbLinkNode_tree {par node : Nat} (hk : CtxAt m.links 0 m.rbNode k par 0)
    (hnd : (ctxPre k ++ ctxPost k).Nodup) (hnew : node ∉ ctxPre k ++ ctxPost k) (h₀ : node ≠ 0)
    (hl : (m.heap node).rbLeft = 0) (hr : (m.heap node).rbRight = 0) :
    TreeAt (m.rbLinkNode node par (slotOf k)).links 0 0 (m.rbLinkNode node par (slotOf k)).rbNode
      (plug k (.node .nil node .nil)) := by
  have hc := setSlot_ctx hk hnd node
  have hheap : ∀ x ∈ ctxPre k ++ ctxPost k, (m.rbLinkNode node par (slotOf k)).heap x =
      (m.setSlot node (slotOf k)).heap x := fun x hx =>
    set_heap_of_ne _ _ fun e => hnew (e ▸ hx)
  refine treeAt_plug.mpr ⟨par, node, hc.congr fun x hx => ?_, rfl, h₀, ?_, ?_, ?_⟩
  · simp only [links, hheap x hx, and_self]
  · simp [links, rbLinkNode]
  · show (((m.setSlot node (slotOf k)).set node _).heap node).rbLeft = 0
    rw [set_heap_self]
    exact (setSlot_left m node _ fun e => hnew (mem_ctx_of_slot (.inl e))).trans hl
  · show (((m.setSlot node (slotOf k)).set node _).heap node).rbRight = 0
    rw [set_heap_self]
    exact (setSlot_right m node _ fun e => hnew (mem_ctx_of_slot (.inr e))).trans hr

/-! ## Creating an area -/

theorem newVma_range (v : Vma) {len : Nat} (flags : Nat) (hlen : 0 < len) (h : addr + len ≤ kernelBaseAddr) :
    roundDown addr pageSize < (newVma v addr len flags).vmEnd ∧
      ∀ n, pageSize ∣ n → addr + len ≤ n → (newVma v addr len flags).vmEnd ≤ n := by
  have hk : kernelBaseAddr = 0xC0000000 := rfl
  have hw : wrap (len + 4096 - 1) = len + 4095 := wrap_of_lt (by omega)
  have he : (newVma v addr len flags).vmEnd = addr - addr % 4096 + (len + 4095 - (len + 4095) % 4096) := by
    unfold newVma roundUp roundDown pageSize
    rw [hw]
    exact wrap_of_lt (by omega)
  rw [he]
  unfold roundDown pageSize
  refine ⟨by omega, fun n hn hle => ?_⟩
  obtain ⟨k, rfl⟩ := hn
  omega

structure Mm.Wrote (m m' : Mm) (mem : Nat) (v : Vma) : Prop where
  node : m'.heap mem = v
  other : ∀ a, a ≠ mem → m'.heap a = m.heap a
  root : m'.rbNode = m.rbNode
  mmap : m'.mmap = m.mmap
  count : m'.mmapCount = m.mmapCount

theorem Mm.set_wrote (m : Mm) (mem : Nat) (v : Vma) : m.Wrote (m.set mem v) mem v :=
  ⟨m.set_heap_self mem v, fun _ h => m.set_heap_of_ne v h, rfl, rfl, rfl⟩

namespace Mm.Wrote

variable {mem : Nat} {v : Vma}

theorem old (h : m.Wrote m' mem v) (hnew : mem ∉ l) : ∀ a ∈ l, m'.heap a = m.heap a :=
  fun a ha => h.other a fun e => hnew (e ▸ ha)

theorem tree (h : m.Wrote m' mem v) (hnew : mem ∉ t.inorder) (ht : TreeAt m.links 0 0 m.rbNode t) :
    TreeAt m'.links 0 0 m'.rbNode t := by
  rw [h.root]
  apply ht.congr
  intro a ha
  simp only [links, h.old hnew a ha, and_self]

theorem ascending (h : m.Wrote m' mem v) (hnew : mem ∉ l) (ha : Ascending m l) : Ascending m' l :=
  ha.congr (fun a hal => by rw [h.old hnew a hal]) fun a hal => by rw [h.old hnew a hal]

theorem chain (h : m.Wrote m' mem v) (hnew : mem ∉ l) (hl : Chain m.next 0 m.mmap l) :
    Chain m'.next 0 m'.mmap l := by
  rw [h.mmap]
  apply hl.congr
  intro a ha
  exact congrArg Vma.vmNext (h.old hnew a ha)

end Mm.Wrote

theorem createVma_cases {len flags mem fuel v : Nat} (h : m.createVma addr len flags mem fuel = some (v, m')) :
    (v = 0 ∧ m' = m) ∨ (v = mem ∧ mem ≠ 0 ∧ roundDown addr pageSize ≠ 0 ∧ len ≤ kernelBaseAddr ∧
      wrap (addr + len) ≤ kernelBaseAddr ∧ ∃ vma, m.findVma addr fuel m.rbNode 0 = some vma ∧
        (vma = 0 ∨ wrap (addr + len) ≤ (m.heap vma).vmStart) ∧
        (m.set mem (newVma (m.heap mem) addr len flags)).vmLink mem fuel = some m') := by
  have hnull : ∀ {x : Option (Nat × Mm)}, x = some (0, m) → x = some (v, m') → v = 0 ∧ m' = m := by
    intro x hx hx'
    rw [hx, some.injEq, Prod.mk.injEq] at hx'
    exact ⟨hx'.1.symm, hx'.2.symm⟩
  unfold createVma at h
  by_cases hr : roundDown addr pageSize = 0
  · exact .inl (hnull (if_pos hr) h)
  have ha : addr ≠ 0 := fun e => hr (by rw [e]; rfl)
  rw [if_neg hr] at h
  unfold getUnmappedVma at h
  by_cases hlen : kernelBaseAddr < len
  · rw [if_pos hlen] at h
    exact .inl (hnull rfl h)
  rw [if_neg hlen, if_pos ha] at h
  simp only [bind_eq_bind, bind_eq_some_iff, map_eq_some_iff] at h
  obtain ⟨_, ⟨vma, hf, rfl⟩, h⟩ := h
  by_cases hc : wrap (addr + len) ≤ kernelBaseAddr ∧ (vma = 0 ∨ wrap (addr + len) ≤ (m.heap vma).vmStart)
  · rw [if_pos hc] at h
    simp only [ha, if_false] at h
    by_cases h₀ : mem = 0
    · exact .inl (hnull (if_pos h₀) h)
    · rw [if_neg h₀] at h
      simp only [bind_eq_some_iff, Option.pure_def, some.injEq, Prod.mk.injEq] at h
      obtain ⟨m₁, h₁, e, rfl⟩ := h
      exact .inr ⟨e.symm, h₀, hr, Nat.le_of_not_lt hlen, hc.1, vma, hf, hc.2, h₁⟩
  · rw [if_neg hc] at h
    exact .inl (hnull rfl h)

theorem vmLink_inv (h : m.vmLink vmp fuel = some m') :
    ∃ vma par slot, m.findVmaPrev (m.heap vmp).vmStart fuel m.rbNode 0 = some vma ∧
      (m.listLink vmp vma).linkSlot ((m.listLink vmp vma).heap vmp).vmEnd fuel (m.listLink vmp vma).rbNode 0 .root =
        some (par, slot) ∧
      m' = { (m.listLink vmp vma).rbLinkNode vmp par slot with
        mmapCount := ((m.listLink vmp vma).rbLinkNode vmp par slot).mmapCount + 1 } := by
  unfold vmLink at h
  simp only [bind_eq_bind, bind_eq_some_iff, Option.pure_def, some.injEq] at h
  obtain ⟨vma, h₁, ⟨par, slot⟩, h₂, rfl⟩ := h
  exact ⟨vma, par, slot, h₁, h₂, rfl⟩

/-- Of the areas `others`, the last one that starts at or below `s` is the root
of the tree and ends below `s`, or there is none. -/
def PredOk (m : Mm) (others : List Nat) (s : Nat) : Prop :=
  (∀ a ∈ others, s < (m.heap a).vmStart) ∨
    (m.rbNode ∈ others ∧ (m.heap m.rbNode).vmEnd < s ∧
      ∀ a ∈ others, (m.heap a).vmStart ≤ (m.heap m.rbNode).vmStart ∨ s < (m.heap a).vmStart)

def IsLast (vma : Nat) (pre : List Nat) : Prop := (vma = 0 ∧ pre = []) ∨ (vma ≠ 0 ∧ ∃ pre', pre = pre' ++ [vma])

/-- The area that `find_vma_prev` answers is the last one below `s`. -/
theorem PredOk.split {s : Nat} (hp : PredOk m vmas s) (ha : Ascending m l) (hperm : l.Perm vmas)
    (hnull : ∀ a ∈ l, a ≠ 0) (hroot : m.rbNode ≠ 0 → (m.heap m.rbNode).vmEnd < s → m.rbNode ∈ l) :
    ∃ pre post, l = pre ++ post ∧
      IsLast (if m.rbNode ≠ 0 ∧ (m.heap m.rbNode).vmEnd < s then m.rbNode else 0) pre ∧
      (∀ a ∈ pre, (m.heap a).vmEnd ≤ s) ∧ ∀ a ∈ post, s < (m.heap a).vmStart := by
  have hmem : ∀ {a}, a ∈ l ↔ a ∈ vmas := hperm.mem_iff
  cases hp with
  | inl hp =>
    refine ⟨[], l, rfl, .inl ⟨if_neg ?_, rfl⟩, fun a hal => (not_mem_nil hal).elim, fun a hal => hp a (hmem.mp hal)⟩
    intro ⟨h₁, h₂⟩
    have hin := hroot h₁ h₂
    have hstart := hp _ (hmem.mp hin)
    have hlong := (ha.area _ hin).1
    omega
  | inr hp =>
    obtain ⟨h₁, h₂, h₃⟩ := hp
    have hin := hmem.mpr h₁
    obtain ⟨xs, ys, hxy⟩ := append_of_mem hin
    have hsplit : l = xs ++ [m.rbNode] ++ ys := by rw [hxy, append_assoc, singleton_append]
    rw [hsplit] at ha
    have hlong := (ha.area m.rbNode (hsplit ▸ hin)).1
    refine ⟨xs ++ [m.rbNode], ys, hsplit, .inr ?_, ?_, ?_⟩
    · rw [if_pos ⟨hnull _ hin, h₂⟩]
      exact ⟨hnull _ hin, xs, rfl⟩
    · intro a hal
      rcases mem_append.mp hal with hal | hal
      · have hcross := ha.left.cross hal (mem_singleton_self _)
        omega
      · rw [mem_singleton.mp hal]
        exact Nat.le_of_lt h₂
    · intro a hal
      have hcross := ha.cross (mem_append_right _ (mem_singleton_self _)) hal
      have hside := h₃ a (hmem.mp (by rw [hsplit]; exact mem_append_right _ hal))
      omega

theorem MmRep.split (hr : MmRep m vmas t) {s fuel vma : Nat} (hp : PredOk m vmas s)
    (hv : m.findVmaPrev s fuel m.rbNode 0 = some vma) :
    ∃ pre post, t.inorder = pre ++ post ∧ IsLast vma pre ∧ (∀ a ∈ pre, (m.heap a).vmEnd ≤ s) ∧
      ∀ a ∈ post, s < (m.heap a).vmStart := by
  rw [findVmaPrev_spec hr.tree.below hr.asc.inOrder hv]
  exact hp.split hr.asc hr.perm hr.list.ne_null fun h₀ _ => hr.tree.root_mem h₀

theorem listLink_field (f : Vma → β) (hf : ∀ v x, f { v with vmNext := x } = f v) (m : Mm)
    (vmp vma a : Nat) : f ((m.listLink vmp vma).heap a) = f (m.heap a) := by
  unfold listLink
  by_cases h : vma = 0
  · rw [if_pos h]
    exact set_heap_field f m (hf _ _) a
  · rw [if_neg h]
    exact (set_heap_field f _ (hf _ _) a).trans (set_heap_field f m (hf _ _) a)

theorem listLink_rbNode (m : Mm) (vmp vma : Nat) :
    (m.listLink vmp vma).rbNode = m.rbNode ∧ (m.listLink vmp vma).mmapCount = m.mmapCount := by
  unfold listLink
  by_cases h : vma = 0
  · rw [if_pos h]; exact ⟨rfl, rfl⟩
  · rw [if_neg h]; exact ⟨rfl, rfl⟩

theorem listLink_chain {vmp vma : Nat} (hl : Chain m.next 0 m.mmap (pre ++ post))
    (hnd : (pre ++ post).Nodup) (hv : IsLast vma pre) (hnew : vmp ∉ pre ++ post) (h₀ : vmp ≠ 0) :
    Chain (m.listLink vmp vma).next 0 (m.listLink vmp vma).mmap (pre ++ vmp :: post) := by
  cases hv with
  | inl hv =>
    obtain ⟨rfl, rfl⟩ := hv
    have hnext : (m.listLink vmp 0).next vmp = m.mmap := by simp [listLink, Mm.next]
    refine ⟨rfl, h₀, ?_⟩
    rw [hnext]
    refine hl.congr fun a ha => ?_
    have e : a ≠ vmp := fun e => hnew (e ▸ ha)
    simp [listLink, Mm.next, set_heap_of_ne m _ e]
  | inr hv =>
    obtain ⟨hne, pre', rfl⟩ := hv
    have hav : vmp ≠ vma := fun e => hnew (by rw [e]; simp)
    have hset : ∀ a, (m.listLink vmp vma).next a =
        if a = vma then vmp else if a = vmp then m.next vma else m.next a := by
      intro a
      unfold listLink
      rw [if_neg hne]
      unfold Mm.next
      by_cases e : a = vma
      · subst e; simp
      · rw [set_heap_of_ne _ _ e, if_neg e]
        by_cases e' : a = vmp
        · subst e'; simp
        · rw [set_heap_of_ne _ _ e', if_neg e']
    have hmmap : (m.listLink vmp vma).mmap = m.mmap := by unfold listLink; rw [if_neg hne]; rfl
    rw [hmmap, append_assoc] at *
    refine Chain.insert h₀ (by rw [hset, if_pos rfl]) (by rw [hset, if_neg hav, if_pos rfl]) hl fun a ha => ?_
    rw [singleton_append, nodup_middle, nodup_cons] at hnd
    have hmem : a ∈ pre' ++ ([vma] ++ post) := by
      simp only [mem_append, mem_singleton] at ha ⊢
      tauto
    have e₁ : a ≠ vma := fun e => hnd.1 (e ▸ ha)
    have e₂ : a ≠ vmp := fun e => hnew (e ▸ hmem)
    rw [hset, if_neg e₁, if_neg e₂]

theorem listLink_links (m : Mm) (vmp vma : Nat) : (m.listLink vmp vma).links = m.links := by
  unfold links
  simp only [listLink_field Vma.rbLeft (fun _ _ => rfl), listLink_field Vma.rbRight (fun _ _ => rfl),
    listLink_field Vma.rbParent (fun _ _ => rfl)]

theorem rbLinkNode_field (f : Vma → β) (hl : ∀ v x, f { v with rbLeft := x } = f v)
    (hr : ∀ v x, f { v with rbRight := x } = f v) (hp : ∀ v x, f { v with rbParent := x } = f v) (m : Mm)
    (node par : Nat) (slot : Slot Nat) (a : Nat) : f ((m.rbLinkNode node par slot).heap a) = f (m.heap a) :=
  (set_heap_field f _ (hp _ _) a).trans (setSlot_field f hl hr _ _ _ a)

theorem Ascending.without (h : Ascending m (l₁ ++ v :: l₂)) : Ascending m (l₁ ++ l₂) :=
  ⟨h.apart.sublist (List.Sublist.append_left (sublist_cons_self ..) _),
    fun a ha => h.area a (by simp only [mem_append, mem_cons] at ha ⊢; tauto)⟩

/-- The descent of `vm_link` splits the areas where the new one belongs: both splits put the
areas that end above it second. -/
theorem Ascending.split_eq {xs ys : List Nat} (h : Ascending m (l₁ ++ v :: l₂)) (hin : xs ++ ys = l₁ ++ l₂)
    (hxs : ∀ a ∈ xs, (m.heap a).vmEnd ≤ (m.heap v).vmEnd) (hys : ∀ a ∈ ys, (m.heap v).vmEnd < (m.heap a).vmEnd) :
    xs = l₁ ∧ ys = l₂ := by
  refine append_split_unique hin (fun a ha => Nat.not_lt.mpr (hxs a ha)) hys (fun a ha => ?_) (fun a ha => ?_)
  · have h₁ := h.cross ha (mem_cons_self ..)
    have h₂ := (h.area v (by simp)).1
    omega
  · have h₁ : Ascending _ ([v] ++ l₂) := h.right
    have h₂ := h₁.cross (mem_singleton_self v) ha
    have h₃ := (h₁.area a (by simp [ha])).1
    omega

theorem vmLink_list {vmp fuel vma : Nat} (h : m.vmLink vmp fuel = some m')
    (hprev : m.findVmaPrev (m.heap vmp).vmStart fuel m.rbNode 0 = some vma)
    (hl : Chain m.next 0 m.mmap (pre ++ post))
    (hnd : (pre ++ post).Nodup) (hlast : IsLast vma pre) (hnew : vmp ∉ pre ++ post) (h₀ : vmp ≠ 0) :
    Chain m'.next 0 m'.mmap (pre ++ vmp :: post) := by
  obtain ⟨vma', par, slot, hprev', -, rfl⟩ := vmLink_inv h
  obtain rfl : vma' = vma := some.inj (hprev'.symm.trans hprev)
  have hchain := listLink_chain hl hnd hlast hnew h₀
  have hmmap : ((m.listLink vmp vma').rbLinkNode vmp par slot).mmap = (m.listLink vmp vma').mmap :=
    (setSlot_mmap _ _ _).1
  rw [← hmmap] at hchain
  exact hchain.congr fun a _ =>
    rbLinkNode_field Vma.vmNext (fun _ _ => rfl) (fun _ _ => rfl) (fun _ _ => rfl) _ _ _ _ a

theorem vmLink_count (h : m.vmLink vmp fuel = some m') : m'.mmapCount = m.mmapCount + 1 := by
  obtain ⟨vma, par, slot, -, -, rfl⟩ := vmLink_inv h
  have hcount : ((m.listLink vmp vma).rbLinkNode vmp par slot).mmapCount = m.mmapCount :=
    (setSlot_mmap _ _ _).2.trans (listLink_rbNode m vmp vma).2
  exact congrArg (· + 1) hcount

def EndSorted (m : Mm) (l : List Nat) : Prop := l.Pairwise fun a b => (m.heap a).vmEnd ≤ (m.heap b).vmEnd

theorem EndSorted.congr (h : EndSorted m l) (he : ∀ a ∈ l, (m'.heap a).vmEnd = (m.heap a).vmEnd) :
    EndSorted m' l := by
  apply List.Pairwise.imp_of_mem _ h
  intro a b ha hb hab
  rw [he a ha, he b hb]
  exact hab

/-- What `vm_link` does to the tree: it hangs the node, with the children its memory held,
into the hole where its end belongs. -/
structure LinkedAt (m m' : Mm) (t : BTree Nat) (vmp : Nat) (k : List (Frame Nat)) : Prop where
  whole : plug k .nil = t
  pre : ∀ a ∈ ctxPre k, (m.heap a).vmEnd ≤ (m.heap vmp).vmEnd
  post : ∀ a ∈ ctxPost k, (m.heap vmp).vmEnd < (m.heap a).vmEnd
  leaf : (m.heap vmp).rbLeft = 0 → (m.heap vmp).rbRight = 0 →
    TreeAt m'.links 0 0 m'.rbNode (plug k (.node .nil vmp .nil))
  outside : ∀ a ∉ t.inorder, (m'.heap a).rbLeft = (m.heap a).rbLeft ∧ (m'.heap a).rbRight = (m.heap a).rbRight
  parent : ∀ a ∈ t.inorder, (m'.heap a).rbParent = (m.heap a).rbParent
  parent_new : (m'.heap vmp).rbParent = 0 ∨ (m'.heap vmp).rbParent ∈ t.inorder
  root : m.rbNode ≠ 0 → m'.rbNode = m.rbNode

theorem LinkedAt.inorder {vmp : Nat} (h : LinkedAt m m' t vmp k) : t.inorder = ctxPre k ++ ctxPost k := by
  rw [← h.whole, inorder_plug]
  simp [BTree.inorder]

theorem inorder_plug_leaf (k : List (Frame Nat)) (v : Nat) :
    (plug k (.node .nil v .nil)).inorder = ctxPre k ++ v :: ctxPost k := by
  rw [inorder_plug]
  simp [BTree.inorder]

theorem rbLinkNode_children {vmp vma par a : Nat} (ha : a ∉ ctxPre k ++ ctxPost k) :
    (((m.listLink vmp vma).rbLinkNode vmp par (slotOf k)).heap a).rbLeft = (m.heap a).rbLeft ∧
      (((m.listLink vmp vma).rbLinkNode vmp par (slotOf k)).heap a).rbRight = (m.heap a).rbRight := by
  constructor
  · refine (set_heap_field Vma.rbLeft _ ?_ a).trans ?_
    · rfl
    refine (setSlot_left _ _ _ fun e => ha (mem_ctx_of_slot (.inl e))).trans ?_
    exact listLink_field Vma.rbLeft (fun _ _ => rfl) m vmp vma a
  · refine (set_heap_field Vma.rbRight _ ?_ a).trans ?_
    · rfl
    refine (setSlot_right _ _ _ fun e => ha (mem_ctx_of_slot (.inr e))).trans ?_
    exact listLink_field Vma.rbRight (fun _ _ => rfl) m vmp vma a

theorem rbLinkNode_parent {vmp vma par a : Nat} (ha : a ≠ vmp) :
    (((m.listLink vmp vma).rbLinkNode vmp par slot).heap a).rbParent = (m.heap a).rbParent := by
  have hold : ((m.listLink vmp vma).rbLinkNode vmp par slot).heap a =
      ((m.listLink vmp vma).setSlot vmp slot).heap a :=
    set_heap_of_ne _ _ ha
  refine (congrArg Vma.rbParent hold).trans ?_
  refine (setSlot_field Vma.rbParent (fun _ _ => rfl) (fun _ _ => rfl) _ _ _ a).trans ?_
  exact listLink_field Vma.rbParent (fun _ _ => rfl) m vmp vma a

theorem slotOf_ne_root {L : TreeLinks Nat} {root par : Nat} (hk : CtxAt L 0 root k par 0) (hne : root ≠ 0) :
    slotOf k ≠ .root := by
  intro e
  cases k with
  | nil => exact hne hk.1
  | cons f k => cases f <;> cases e

theorem vmLink_linked (ht : TreeAt m.links 0 0 m.rbNode t) (hnd : t.inorder.Nodup) (hs : EndSorted m t.inorder)
    (h₀ : vmp ≠ 0) (hnew : vmp ∉ t.inorder) (h : m.vmLink vmp fuel = some m') : ∃ k, LinkedAt m m' t vmp k := by
  obtain ⟨vma, par, slot, -, hslot, rfl⟩ := vmLink_inv h
  have hroot := (listLink_rbNode m vmp vma).1
  have hend := listLink_field Vma.vmEnd (fun _ _ => rfl) m vmp vma
  have hk₀ : CtxAt (m.listLink vmp vma).links 0 (m.listLink vmp vma).rbNode [] 0 (m.listLink vmp vma).rbNode :=
    ⟨rfl, rfl⟩
  have ht' : TreeAt (m.listLink vmp vma).links 0 0 (m.listLink vmp vma).rbNode t := by
    rw [listLink_links, hroot]
    exact ht
  obtain ⟨k, hplug, rfl, hk, hpre, hpost⟩ := linkSlot_spec fuel hk₀ ht' (by simp [ctxPre]) (by simp [ctxPost])
    (EndSorted.congr hs fun a _ => hend a) hslot
  have hin : t.inorder = ctxPre k ++ ctxPost k := by
    have hp : plug k .nil = t := hplug
    rw [← hp, inorder_plug]
    simp [BTree.inorder]
  rw [hin] at hnd hnew
  refine ⟨k, hplug, ?_, ?_, ?_, ?_, ?_, ?_, ?_⟩
  · intro a ha
    have hle := hpre a ha
    rw [hend, hend] at hle
    exact hle
  · intro a ha
    have hlt := hpost a ha
    rw [hend, hend] at hlt
    exact hlt
  · intro hl hr
    exact rbLinkNode_tree hk hnd hnew h₀
      ((listLink_field Vma.rbLeft (fun _ _ => rfl) m vmp vma vmp).trans hl)
      ((listLink_field Vma.rbRight (fun _ _ => rfl) m vmp vma vmp).trans hr)
  · intro a ha
    rw [hin] at ha
    exact rbLinkNode_children ha
  · intro a ha
    rw [hin] at ha
    exact rbLinkNode_parent fun e => hnew (e ▸ ha)
  · have hpar : (((m.listLink vmp vma).rbLinkNode vmp par (slotOf k)).heap vmp).rbParent = par :=
      congrArg Vma.rbParent (set_heap_self ..)
    rw [hin]
    change (((m.listLink vmp vma).rbLinkNode vmp par (slotOf k)).heap vmp).rbParent = 0 ∨ _ ∈ _
    rw [hpar]
    exact hk.par_mem
  · intro hne
    exact (setSlot_rbNode _ _ (slotOf_ne_root hk (hroot ▸ hne))).trans hroot

def SameRanges (m m' : Mm) : Prop :=
  ∀ a, (m'.heap a).vmStart = (m.heap a).vmStart ∧ (m'.heap a).vmEnd = (m.heap a).vmEnd

theorem SameRanges.of_field
    (h : ∀ {β : Type} (f : Vma → β), (∀ v x, f { v with vmNext := x } = f v) →
      (∀ v x, f { v with rbLeft := x } = f v) →
      (∀ v x, f { v with rbRight := x } = f v) → (∀ v x, f { v with rbParent := x } = f v) →
      ∀ a, f (m'.heap a) = f (m.heap a)) : SameRanges m m' :=
  fun a => ⟨h Vma.vmStart (fun _ _ => rfl) (fun _ _ => rfl) (fun _ _ => rfl) (fun _ _ => rfl) a,
    h Vma.vmEnd (fun _ _ => rfl) (fun _ _ => rfl) (fun _ _ => rfl) (fun _ _ => rfl) a⟩

theorem vmLink_ranges (h : m.vmLink vmp fuel = some m') : SameRanges m m' := by
  obtain ⟨vma, par, slot, -, -, rfl⟩ := vmLink_inv h
  refine SameRanges.of_field fun f hn hl hr hp a => ?_
  calc f (((m.listLink vmp vma).rbLinkNode vmp par slot).heap a)
      = f ((m.listLink vmp vma).heap a) := rbLinkNode_field f hl hr hp _ _ _ _ a
    _ = f (m.heap a) := listLink_field f hn _ _ _ a

theorem vmLink_rep (ht : TreeAt m.links 0 0 m.rbNode t)
    (hl : Chain m.next 0 m.mmap t.inorder) (hc : m.mmapCount = t.inorder.length) (hsplit : t.inorder = pre ++ post)
    (hasc : Ascending m (pre ++ vmp :: post)) (h₀ : vmp ≠ 0)
    (hleft : (m.heap vmp).rbLeft = 0) (hright : (m.heap vmp).rbRight = 0)
    (hlast : ∀ vma, m.findVmaPrev (m.heap vmp).vmStart fuel m.rbNode 0 = some vma → IsLast vma pre)
    (h : m.vmLink vmp fuel = some m') :
    ∃ t', t'.inorder = pre ++ vmp :: post ∧ MmRep m' (pre ++ vmp :: post) t' := by
  have hnew : vmp ∉ pre ++ post := by
    have hnd := hasc.nodup
    rw [nodup_middle, nodup_cons] at hnd
    exact hnd.1
  obtain ⟨k, hk⟩ := vmLink_linked ht (hsplit ▸ hasc.without.nodup) (hsplit ▸ hasc.without.ends) h₀ (hsplit ▸ hnew) h
  obtain ⟨e₁, e₂⟩ := hasc.split_eq (hk.inorder.symm.trans hsplit) hk.pre hk.post
  obtain ⟨vma, -, -, hprev, -⟩ := vmLink_inv h
  have hinorder : (plug k (.node .nil vmp .nil)).inorder = pre ++ vmp :: post := by rw [inorder_plug_leaf, e₁, e₂]
  refine ⟨_, hinorder, hk.leaf hleft hright, ?_, ?_, ?_, by rw [hinorder]⟩
  · rw [hinorder]
    exact vmLink_list h hprev (hsplit ▸ hl) hasc.without.nodup (hlast vma hprev) hnew h₀
  · rw [hinorder]
    exact hasc.congr (fun a _ => (vmLink_ranges h a).1) fun a _ => (vmLink_ranges h a).2
  · rw [vmLink_count h, hc, hsplit, hinorder]
    simp only [length_append, length_cons]
    omega

theorem MmRep.congr (hr : MmRep m vmas t) (hheap : ∀ a ∈ vmas, m'.heap a = m.heap a)
    (hmmap : m'.mmap = m.mmap) (hroot : m'.rbNode = m.rbNode) (hcount : m'.mmapCount = m.mmapCount) :
    MmRep m' vmas t := by
  have hh : ∀ a ∈ t.inorder, m'.heap a = m.heap a := fun a ha => hheap a (hr.perm.mem_iff.mp ha)
  refine ⟨?_, ?_, ?_, by rw [hcount]; exact hr.count, hr.perm⟩
  · rw [hroot]
    exact hr.tree.congr fun a ha => by simp only [links, hh a ha, and_self]
  · rw [hmmap]
    exact hr.list.congr fun a ha => by simp only [Mm.next, hh a ha]
  · exact hr.asc.congr (fun a ha => by rw [hh a ha]) (fun a ha => by rw [hh a ha])

theorem PredOk.congr {s : Nat} {others : List Nat} (hp : PredOk m others s) (hroot : m'.rbNode = m.rbNode)
    (hheap : ∀ a ∈ others, m'.heap a = m.heap a) : PredOk m' others s := by
  cases hp with
  | inl hp => exact .inl fun a ha => by rw [hheap a ha]; exact hp a ha
  | inr hp =>
    obtain ⟨h₁, h₂, h₃⟩ := hp
    refine .inr ⟨hroot ▸ h₁, ?_, fun a ha => ?_⟩
    · rw [hroot, hheap _ h₁]; exact h₂
    · rw [hroot, hheap _ h₁, hheap a ha]; exact h₃ a ha

theorem unmapped_fits (hr : MmRep m vmas t) {len fuel vma e : Nat}
    (hsplit : t.inorder = pre ++ post) (hpre : ∀ a ∈ pre, (m.heap a).vmEnd ≤ roundDown addr pageSize)
    (hpost : ∀ a ∈ post, roundDown addr pageSize < (m.heap a).vmStart)
    (hf : m.findVma addr fuel m.rbNode 0 = some vma) (hfit : vma = 0 ∨ addr + len ≤ (m.heap vma).vmStart)
    (he : ∀ n, pageSize ∣ n → addr + len ≤ n → e ≤ n) : ∀ b ∈ post, e ≤ (m.heap b).vmStart := by
  have hfind := findVma_spec fuel hr.tree.below hr.asc.inOrder hf
  have hasc := hr.asc
  have hs := roundDown_le addr pageSize
  have hs' : addr < roundDown addr pageSize + pageSize := lt_roundDown_add (by decide)
  rw [hsplit] at hfind hasc
  rw [find?_append, find_end_none fun a ha => Nat.le_trans (hpre a ha) hs] at hfind
  cases post with
  | nil => intro b hb; cases hb
  | cons n rest =>
    have hn : n ∈ t.inorder := by rw [hsplit]; simp
    have harea := hr.asc.area n hn
    have hstart := hpost n (mem_cons_self ..)
    -- both starts are page aligned, so the gap is at least a page
    have hgap : addr < (m.heap n).vmStart := by
      obtain ⟨i, hi⟩ := harea.2
      obtain ⟨j, hj⟩ := dvd_roundDown addr pageSize
      rw [hi, hj] at hstart
      have : j + 1 ≤ i := Nat.lt_of_mul_lt_mul_left hstart
      have := Nat.mul_le_mul_left pageSize this
      rw [Nat.mul_add_one] at this
      omega
    rw [find?_cons_of_pos (by simp; omega)] at hfind
    have hvma : vma = n := hfind
    have hle : e ≤ (m.heap n).vmStart := by
      refine he _ harea.2 ?_
      rw [← hvma]
      exact hfit.resolve_left fun e => hr.list.ne_null n hn (hvma ▸ e)
    intro b hb
    rcases mem_cons.mp hb with rfl | hb
    · exact hle
    · have hr' : Ascending m ([n] ++ rest) := hasc.right
      have := hr'.cross (mem_singleton_self n) hb
      omega

theorem createVma_rep (hr : MmRep m vmas t) {len flags mem fuel : Nat} (hlen : 0 < len)
    (hsum : addr + len < 2 ^ 32) (hp : PredOk m vmas (roundDown addr pageSize)) (hmem : mem ∉ vmas) (h₀ : mem ≠ 0)
    (hleft : (m.heap mem).rbLeft = 0) (hright : (m.heap mem).rbRight = 0)
    (h : m.createVma addr len flags mem fuel = some (mem, m')) : ∃ t', MmRep m' (mem :: vmas) t' := by
  rcases createVma_cases h with ⟨e, _⟩ | ⟨-, -, -, -, hle, vma, hf, hfit, hlink⟩
  · exact absurd e h₀
  rw [wrap_of_lt hsum] at hle hfit
  obtain ⟨hne, hend⟩ := newVma_range (m.heap mem) flags hlen hle
  have hw := m.set_wrote mem (newVma (m.heap mem) addr len flags)
  generalize m.set mem (newVma (m.heap mem) addr len flags) = m₁ at hlink hw
  have hheap := hw.old hmem
  have hstart : (m₁.heap mem).vmStart = roundDown addr pageSize := by rw [hw.node]; rfl
  have hr₁ : MmRep m₁ vmas t := hr.congr hheap hw.mmap hw.root hw.count
  obtain ⟨prev, -, -, hprev, -⟩ := vmLink_inv hlink
  rw [hstart] at hprev
  obtain ⟨pre, post, hsplit, hlast, hpre, hpost⟩ := hr₁.split (hp.congr hw.root hheap) hprev
  have hasc := hr₁.asc
  rw [hsplit] at hasc
  have hin : ∀ a ∈ pre ++ post, m₁.heap a = m.heap a := fun a ha =>
    hheap a (hr.perm.mem_iff.mp (hsplit ▸ ha))
  have hfits := unmapped_fits hr hsplit (fun a ha => hin a (by simp [ha]) ▸ hpre a ha)
    (fun a ha => hin a (by simp [ha]) ▸ hpost a ha) hf hfit hend
  have hasc' : Ascending m₁ (pre ++ mem :: post) := by
    apply hasc.insert
    · rw [hw.node]
      exact hne
    · rw [hstart]
      exact dvd_roundDown _ _
    · rw [hstart]
      exact hpre
    · intro b hb
      rw [hw.node, hin b (mem_append_right _ hb)]
      exact hfits b hb
  obtain ⟨t', ht', hrep⟩ := vmLink_rep hr₁.tree hr₁.list hr₁.count hsplit hasc' h₀ (by rw [hw.node]; exact hleft)
    (by rw [hw.node]; exact hright) (fun x hx => by rw [hstart, hprev, some.injEq] at hx; exact hx ▸ hlast) hlink
  have hperm : (pre ++ mem :: post).Perm (mem :: vmas) :=
    perm_middle.trans (List.Perm.cons _ (hsplit ▸ hr.perm))
  exact ⟨t', hrep.tree, hrep.list, hrep.asc, hrep.count, hrep.perm.trans hperm⟩

/-! ## Deleting an area -/

theorem slotTo_eq {par v : Nat} (hk : CtxAt m.links 0 m.rbNode k par v)
    (hpar : (m.heap v).rbParent = par) (hv : v ∉ ctxPre k ++ ctxPost k) (h₀ : v ≠ 0) :
    m.slotTo v = some (slotOf k) := by
  unfold slotTo
  rw [hpar]
  cases k with
  | nil => rw [if_pos hk.2]; rfl
  | cons f k =>
    cases f with
    | left y r =>
      obtain ⟨rfl, h₂, h₃, -, -⟩ := hk
      rw [if_neg h₂, if_pos (show (m.heap par).rbLeft = v from h₃)]; rfl
    | right l y =>
      obtain ⟨rfl, h₂, h₃, h₄, -⟩ := hk
      have hne : (m.heap par).rbLeft ≠ v := by
        intro e
        have hm := h₄.root_mem (show (m.heap par).rbLeft ≠ 0 by rw [e]; exact h₀)
        exact hv (by rw [← e]; simp only [ctxPre, mem_append]; tauto)
      rw [if_neg h₂, if_neg hne, if_pos (show (m.heap par).rbRight = v from h₃)]; rfl

def Mm.cut (m : Mm) (v c : Nat) (slot : Slot Nat) : Mm :=
  let m₁ := m.setSlot c slot
  let m₂ := if c = 0 then m₁ else m₁.set c { m₁.heap c with rbParent := (m.heap v).rbParent }
  m₂.set v { m₂.heap v with rbLeft := 0, rbRight := 0 }

theorem rbtreeDelete_eq {v c : Nat} (fuel : Nat) (hs : m.slotTo v = some slot)
    (hc : ((m.heap v).rbLeft = 0 ∧ c = (m.heap v).rbRight) ∨ ((m.heap v).rbRight = 0 ∧ c = (m.heap v).rbLeft)) :
    rbtreeDelete (fuel + 1) m v = some (m.cut v c slot) := by
  unfold rbtreeDelete cut
  simp only [hs, bind_eq_bind, bind_some]
  by_cases hl : (m.heap v).rbLeft = 0
  · by_cases hr : (m.heap v).rbRight = 0
    · have e : c = 0 := by
        rcases hc with ⟨_, hc⟩ | ⟨_, hc⟩
        · exact hc.trans hr
        · exact hc.trans hl
      simp [hl, hr, e]
    · have e : c = (m.heap v).rbRight := (hc.resolve_right fun h => hr h.1).2
      have h₀ : c ≠ 0 := e ▸ hr
      simp only [hl, true_and, if_true, ← e, h₀, if_false]
      rfl
  · have e : c = (m.heap v).rbLeft := (hc.resolve_left fun h => hl h.1).2
    have hr : (m.heap v).rbRight = 0 := (hc.resolve_left fun h => hl h.1).1
    have h₀ : c ≠ 0 := e ▸ hl
    simp only [← e, h₀, hr, false_and, if_false, if_true]
    rfl

theorem cut_field (f : Vma → β) (hl : ∀ v x, f { v with rbLeft := x } = f v)
    (hr : ∀ v x, f { v with rbRight := x } = f v) (hp : ∀ v x, f { v with rbParent := x } = f v)
    (m : Mm) (v c : Nat) (slot : Slot Nat) (a : Nat) : f ((m.cut v c slot).heap a) = f (m.heap a) := by
  have hs := setSlot_field f hl hr m c slot a
  have hlr : ∀ w : Vma, f { w with rbLeft := 0, rbRight := 0 } = f w := fun w => (hr _ _).trans (hl w 0)
  unfold cut
  refine (set_heap_field f _ (hlr _) a).trans ?_
  by_cases h : c = 0
  · rw [if_pos h]; exact hs
  · rw [if_neg h]; exact (set_heap_field f _ (hp _ _) a).trans hs

theorem cut_mmap (m : Mm) (v c : Nat) (slot : Slot Nat) :
    (m.cut v c slot).mmap = m.mmap ∧ (m.cut v c slot).mmapCount = m.mmapCount ∧
      (m.cut v c slot).rbNode = (m.setSlot c slot).rbNode := by
  have h₁ := setSlot_mmap m c slot
  unfold cut
  by_cases h : c = 0
  · simp only [h, if_true]; exact ⟨(h ▸ h₁).1, (h ▸ h₁).2, rfl⟩
  · simp only [h, if_false]; exact ⟨h₁.1, h₁.2, rfl⟩

/-- Away from `v` and `c` only the pointer to `v` has changed. -/
theorem cut_heap_far (m : Mm) {v c x : Nat} (slot : Slot Nat) (hv : x ≠ v) (hc : c ≠ 0 → x ≠ c) :
    (m.cut v c slot).heap x = (m.setSlot c slot).heap x := by
  unfold cut
  rw [set_heap_of_ne _ _ hv]
  by_cases h : c = 0
  · rw [if_pos h]
  · rw [if_neg h, set_heap_of_ne _ _ (hc h)]

theorem cut_heap_child (m : Mm) {v c : Nat} (slot : Slot Nat) (h₀ : c ≠ 0) (hv : c ≠ v) :
    (m.cut v c slot).heap c = { (m.setSlot c slot).heap c with rbParent := (m.heap v).rbParent } := by
  unfold cut
  rw [set_heap_of_ne _ _ hv, if_neg h₀, set_heap_self]

section
variable {k : List (Frame Nat)} {par v c : Nat} {tc : BTree Nat} {x : Nat}

structure CutApart (k : List (Frame Nat)) (v : Nat) (tc : BTree Nat) : Prop where
  node : v ∉ ctxPre k ++ tc.inorder ++ ctxPost k
  nodup : (ctxPre k ++ tc.inorder ++ ctxPost k).Nodup

namespace CutApart

theorem of_nodup (hnd : (ctxPre k ++ (v :: tc.inorder) ++ ctxPost k).Nodup) : CutApart k v tc := by
  rw [append_assoc, cons_append, nodup_middle, ← append_assoc, nodup_cons] at hnd
  exact ⟨hnd.1, hnd.2⟩

theorem ctx (h : CutApart k v tc) : (ctxPre k ++ ctxPost k).Nodup :=
  h.nodup.sublist (List.Sublist.append_right (sublist_append_left ..) _)

theorem subtree (h : CutApart k v tc) : tc.inorder.Nodup :=
  h.nodup.sublist ((sublist_append_right ..).trans (sublist_append_left ..))

theorem notMem_ctx (h : CutApart k v tc) (hx : x ∈ tc.inorder) : x ∉ ctxPre k ++ ctxPost k := by
  have hnd := h.nodup
  rw [append_assoc, nodup_append'] at hnd
  intro hm
  rcases mem_append.mp hm with hm | hm
  · exact hnd.2.2 hm (mem_append_left _ hx)
  · exact (nodup_append'.mp hnd.2.1).2.2 hx hm

theorem ne_of_ctx (h : CutApart k v tc) (hx : x ∈ ctxPre k ++ ctxPost k) : x ≠ v := by
  rintro rfl
  apply h.node
  simp only [mem_append] at hx ⊢
  tauto

theorem ne_of_subtree (h : CutApart k v tc) (hx : x ∈ tc.inorder) : x ≠ v := by
  rintro rfl
  exact h.node (by simp [hx])

end CutApart

theorem cut_ctx (hk : CtxAt m.links 0 m.rbNode k par v) (hc : TreeAt m.links 0 v c tc) (ha : CutApart k v tc) :
    CtxAt (m.cut v c (slotOf k)).links 0 (m.cut v c (slotOf k)).rbNode k par c := by
  rw [(cut_mmap m v c (slotOf k)).2.2]
  refine (setSlot_ctx hk ha.ctx c).congr fun x hx => ?_
  have hfar := cut_heap_far m (slotOf k) (ha.ne_of_ctx hx) fun h₀ e => ha.notMem_ctx (hc.root_mem h₀) (e ▸ hx)
  simp only [links, hfar, and_self]

theorem cut_subtree (hpar : (m.heap v).rbParent = par) (hc : TreeAt m.links 0 v c tc) (ha : CutApart k v tc) :
    TreeAt (m.cut v c (slotOf k)).links 0 par c tc := by
  refine hc.reparent ha.subtree (fun h₀ => ?_) (fun x hx => ?_)
  · simp only [links, cut_heap_child m (slotOf k) h₀ (ha.ne_of_subtree (hc.root_mem h₀)), hpar]
  · have h₁ := setSlot_left m c (slotOf k) fun e => ha.notMem_ctx hx (mem_ctx_of_slot (.inl e))
    have h₂ := setSlot_right m c (slotOf k) fun e => ha.notMem_ctx hx (mem_ctx_of_slot (.inr e))
    have h₃ := setSlot_field Vma.rbParent (fun _ _ => rfl) (fun _ _ => rfl) m c (slotOf k) x
    by_cases e : x = c
    · subst e
      have hx₀ : x ≠ 0 := by
        cases tc with
        | nil => cases hx
        | node l y r => exact fun e => hc.2.1 (hc.1.symm.trans e)
      simp only [links, cut_heap_child m (slotOf k) hx₀ (ha.ne_of_subtree hx)]
      exact ⟨h₁, h₂, fun e => absurd rfl e⟩
    · simp only [links, cut_heap_far m (slotOf k) (ha.ne_of_subtree hx) fun _ => e]
      exact ⟨h₁, h₂, fun _ => h₃⟩

theorem cut_tree (hk : CtxAt m.links 0 m.rbNode k par v) (hpar : (m.heap v).rbParent = par)
    (hc : TreeAt m.links 0 v c tc) (hnd : (ctxPre k ++ (v :: tc.inorder) ++ ctxPost k).Nodup) :
    TreeAt (m.cut v c (slotOf k)).links 0 0 (m.cut v c (slotOf k)).rbNode (plug k tc) :=
  treeAt_plug.mpr ⟨par, c, cut_ctx hk hc (.of_nodup hnd), cut_subtree hpar hc (.of_nodup hnd)⟩

end

def Mm.listUnlink (m : Mm) (v tmp : Nat) : Mm :=
  let m := if tmp = 0 then { m with mmap := (m.heap v).vmNext }
    else m.set tmp { m.heap tmp with vmNext := (m.heap v).vmNext }
  m.set v { m.heap v with vmNext := 0 }

theorem vmLinkDel_eq {v tmp fuel : Nat} {m₁ : Mm} (h₁ : m.findVma (m.heap v).vmStart fuel m.rbNode 0 = some v)
    (h₂ : m.findVmaPrev (m.heap v).vmStart fuel m.rbNode 0 = some tmp) (h₃ : rbtreeDelete fuel m v = some m₁) :
    m.vmLinkDel v fuel = some ({ m₁ with mmapCount := m₁.mmapCount - 1 }.listUnlink v tmp) := by
  unfold vmLinkDel
  simp only [h₁, h₂, h₃, bind_eq_bind, bind_some, ne_eq, not_true_eq_false, if_false]
  rfl

theorem listUnlink_field (f : Vma → β) (hf : ∀ v x, f { v with vmNext := x } = f v) (m : Mm)
    (v tmp a : Nat) : f ((m.listUnlink v tmp).heap a) = f (m.heap a) := by
  unfold listUnlink
  refine (set_heap_field f _ (hf _ _) a).trans ?_
  by_cases h : tmp = 0
  · rw [if_pos h]
  · rw [if_neg h]; exact set_heap_field f m (hf _ _) a

theorem listUnlink_rbNode (m : Mm) (v tmp : Nat) :
    (m.listUnlink v tmp).rbNode = m.rbNode ∧ (m.listUnlink v tmp).mmapCount = m.mmapCount := by
  unfold Mm.listUnlink
  by_cases h : tmp = 0
  · rw [if_pos h]; exact ⟨rfl, rfl⟩
  · rw [if_neg h]; exact ⟨rfl, rfl⟩

theorem listUnlink_chain {v tmp : Nat} (hl : Chain m.next 0 m.mmap (pre ++ v :: post))
    (hnd : (pre ++ v :: post).Nodup) (ht : IsLast tmp pre) :
    Chain (m.listUnlink v tmp).next 0 (m.listUnlink v tmp).mmap (pre ++ post) := by
  have hv : v ∉ pre ++ post := by
    rw [nodup_middle, nodup_cons] at hnd; exact hnd.1
  cases ht with
  | inl ht =>
    obtain ⟨rfl, rfl⟩ := ht
    have hmmap : (m.listUnlink v 0).mmap = m.next v := by simp [Mm.listUnlink, Mm.next, Mm.set]
    rw [hmmap]
    refine Chain.congr (Chain.after hl) fun a ha => ?_
    have e : a ≠ v := fun e => hv (e ▸ ha)
    unfold Mm.next listUnlink
    rw [set_heap_of_ne _ _ e, if_pos rfl]
  | inr ht =>
    obtain ⟨hne, pre', rfl⟩ := ht
    have hvt : tmp ≠ v := fun e => hv (by rw [← e]; simp)
    have hset : ∀ a, a ≠ v → (m.listUnlink v tmp).next a = if a = tmp then m.next v else m.next a := by
      intro a ha
      unfold Mm.next listUnlink
      rw [set_heap_of_ne _ _ ha, if_neg hne]
      by_cases e : a = tmp
      · subst e; rw [set_heap_self, if_pos rfl]
      · rw [set_heap_of_ne _ _ e, if_neg e]
    have hmmap : (m.listUnlink v tmp).mmap = m.mmap := by unfold listUnlink; rw [if_neg hne]; rfl
    rw [append_assoc, singleton_append] at *
    rw [hmmap]
    refine Chain.remove (by rw [hset _ hvt, if_pos rfl]) hl fun a ha => ?_
    have hne' : a ≠ tmp := by
      intro e
      rw [nodup_middle, nodup_cons] at hnd
      refine hnd.1 ?_
      rw [← e]
      simp only [mem_append, mem_cons] at ha ⊢; tauto
    have hav : a ≠ v := by
      intro e
      refine hv ?_
      rw [← e]
      simp only [mem_append, mem_cons] at ha ⊢; tauto
    rw [hset a hav, if_neg hne']

theorem MmRep.perm_erase (hr : MmRep m vmas t)
    (hsplit : t.inorder = pre ++ v :: post) : (pre ++ post).Perm (vmas.erase v) := by
  have h := (perm_middle.symm.trans (hsplit ▸ hr.perm)).erase v
  rwa [erase_cons_head] at h

/-- In a good state the answer of `find_vma_prev` for the start of `v` is the
area before `v`. -/
theorem MmRep.isLast_before (hr : MmRep m vmas t) {v fuel tmp : Nat}
    (hsplit : t.inorder = pre ++ v :: post) (hp : PredOk m (vmas.erase v) (m.heap v).vmStart)
    (ht : m.findVmaPrev (m.heap v).vmStart fuel m.rbNode 0 = some tmp) : IsLast tmp pre := by
  have hasc := hr.asc
  rw [hsplit] at hasc
  have hin : ∀ {a}, a ∈ pre ++ post → a ∈ t.inorder := by
    intro a ha
    rw [hsplit]
    simp only [mem_append, mem_cons] at ha ⊢
    tauto
  have hlong := (hasc.area v (by simp)).1
  have hroot : m.rbNode ≠ 0 → (m.heap m.rbNode).vmEnd < (m.heap v).vmStart → m.rbNode ∈ pre ++ post := by
    intro h₀ hend
    have hmem := hr.tree.root_mem h₀
    have hne : m.rbNode ≠ v := by
      intro e
      rw [e] at hend
      omega
    rw [hsplit] at hmem
    simp only [mem_append, mem_cons] at hmem ⊢
    tauto
  obtain ⟨xs, ys, hxy, hlast, hxs, hys⟩ :=
    hp.split hasc.without (hr.perm_erase hsplit) (fun a ha => hr.list.ne_null a (hin ha)) hroot
  rw [← findVmaPrev_spec hr.tree.below hr.asc.inOrder ht] at hlast
  have hsame : xs = pre ∧ ys = post := by
    apply hasc.split_eq hxy.symm
    · intro a ha
      have hend := hxs a ha
      omega
    · intro a ha
      have hstart := hys a ha
      have hmem : a ∈ pre ++ post := hxy ▸ mem_append_right _ ha
      have hlonga := (hasc.without.area a hmem).1
      rcases mem_append.mp hmem with hpre | hpost
      · have hcross := hasc.cross hpre (mem_cons_self ..)
        omega
      · have hright : Ascending m ([v] ++ post) := hasc.right
        have hcross := hright.cross (mem_singleton_self v) hpost
        omega
  exact hsame.1 ▸ hlast

theorem findVma_self {v r fuel : Nat} (ht : TreeAt m.links 0 0 m.rbNode t)
    (hasc : Ascending m t.inorder) (hsplit : t.inorder = pre ++ v :: post)
    (h : m.findVma (m.heap v).vmStart fuel m.rbNode 0 = some r) : r = v := by
  have hspec := findVma_spec fuel ht.below hasc.inOrder h
  rw [hsplit] at hasc hspec
  rw [find?_append, find_end_none fun a ha => hasc.cross ha (mem_cons_self ..),
    find?_cons_of_pos (by simpa using (hasc.area v (by simp)).1)] at hspec
  exact hspec

def Mm.unlinked (m : Mm) (v c tmp : Nat) (slot : Slot Nat) : Mm :=
  { m.cut v c slot with mmapCount := (m.cut v c slot).mmapCount - 1 }.listUnlink v tmp

theorem deleteVma_eq (hr : MmRep m vmas t) {v c fuel : Nat}
    (hsplit : t.inorder = pre ++ v :: post) (hs : m.slotTo v = some slot)
    (hc : ((m.heap v).rbLeft = 0 ∧ c = (m.heap v).rbRight) ∨ ((m.heap v).rbRight = 0 ∧ c = (m.heap v).rbLeft))
    (h : m.deleteVma v fuel = some m') :
    ∃ tmp, m.findVmaPrev (m.heap v).vmStart fuel m.rbNode 0 = some tmp ∧ m' = m.unlinked v c tmp slot := by
  unfold deleteVma at h
  cases fuel with
  | zero => simp [vmLinkDel, findVma] at h
  | succ fuel =>
    cases hf : m.findVma (m.heap v).vmStart (fuel + 1) m.rbNode 0 with
    | none => simp [vmLinkDel, hf] at h
    | some r =>
      obtain rfl := findVma_self hr.tree hr.asc hsplit hf
      cases htmp : m.findVmaPrev (m.heap r).vmStart (fuel + 1) m.rbNode 0 with
      | none => simp [vmLinkDel, hf, htmp] at h
      | some tmp =>
        rw [vmLinkDel_eq hf htmp (rbtreeDelete_eq fuel hs hc), some.injEq] at h
        exact ⟨tmp, rfl, h.symm⟩

theorem unlinked_range (m : Mm) (v c tmp : Nat) (slot : Slot Nat) (a : Nat) :
    ((m.unlinked v c tmp slot).heap a).vmStart = (m.heap a).vmStart ∧
      ((m.unlinked v c tmp slot).heap a).vmEnd = (m.heap a).vmEnd :=
  ⟨(listUnlink_field Vma.vmStart (fun _ _ => rfl) _ v tmp a).trans
      (cut_field Vma.vmStart (fun _ _ => rfl) (fun _ _ => rfl) (fun _ _ => rfl) m v c slot a),
    (listUnlink_field Vma.vmEnd (fun _ _ => rfl) _ v tmp a).trans
      (cut_field Vma.vmEnd (fun _ _ => rfl) (fun _ _ => rfl) (fun _ _ => rfl) m v c slot a)⟩

theorem unlinked_chain {v c tmp : Nat}
    (hl : Chain m.next 0 m.mmap (pre ++ v :: post)) (hnd : (pre ++ v :: post).Nodup) (ht : IsLast tmp pre) :
    Chain (m.unlinked v c tmp slot).next 0 (m.unlinked v c tmp slot).mmap (pre ++ post) := by
  refine listUnlink_chain ?_ hnd ht
  have hmmap := (cut_mmap m v c slot).1
  refine (show Chain m.next 0 (m.cut v c slot).mmap _ from hmmap ▸ hl).congr fun a _ => ?_
  exact cut_field Vma.vmNext (fun _ _ => rfl) (fun _ _ => rfl) (fun _ _ => rfl) m v c _ a

theorem unlinked_tree {par v c tmp : Nat} {tc : BTree Nat}
    (hk : CtxAt m.links 0 m.rbNode k par v) (hpar : (m.heap v).rbParent = par) (hc : TreeAt m.links 0 v c tc)
    (hnd : (ctxPre k ++ (v :: tc.inorder) ++ ctxPost k).Nodup) :
    TreeAt (m.unlinked v c tmp (slotOf k)).links 0 0 (m.unlinked v c tmp (slotOf k)).rbNode (plug k tc) := by
  rw [unlinked, (listUnlink_rbNode _ v tmp).1]
  refine (cut_tree hk hpar hc hnd).congr fun a _ => ?_
  exact ⟨listUnlink_field Vma.rbLeft (fun _ _ => rfl) _ v tmp a,
    listUnlink_field Vma.rbRight (fun _ _ => rfl) _ v tmp a,
    listUnlink_field Vma.rbParent (fun _ _ => rfl) _ v tmp a⟩

theorem child_of_leaf {tl tr : BTree Nat} (hl : TreeAt m.links 0 v (m.heap v).rbLeft tl)
    (hr : TreeAt m.links 0 v (m.heap v).rbRight tr) (hchild : (m.heap v).rbLeft = 0 ∨ (m.heap v).rbRight = 0) :
    ∃ c tc, (((m.heap v).rbLeft = 0 ∧ c = (m.heap v).rbRight) ∨ ((m.heap v).rbRight = 0 ∧ c = (m.heap v).rbLeft)) ∧
      TreeAt m.links 0 v c tc ∧ tc.inorder = tl.inorder ++ tr.inorder := by
  cases hchild with
  | inl h =>
    obtain rfl := hl.eq_nil h
    exact ⟨_, tr, .inl ⟨h, rfl⟩, hr, rfl⟩
  | inr h =>
    obtain rfl := hr.eq_nil h
    exact ⟨_, tl, .inr ⟨h, rfl⟩, hl, (append_nil _).symm⟩

theorem deleteVma_rep (hr : MmRep m vmas t) {v fuel : Nat} (hv : v ∈ vmas)
    (hp : PredOk m (vmas.erase v) (m.heap v).vmStart) (hchild : (m.heap v).rbLeft = 0 ∨ (m.heap v).rbRight = 0)
    (h : m.deleteVma v fuel = some m') : ∃ t', MmRep m' (vmas.erase v) t' := by
  obtain ⟨k, tl, tr, rfl⟩ := exists_plug (hr.perm.mem_iff.mpr hv)
  obtain ⟨par, x, hk, rfl, h₀, hpar, hl, hrt⟩ := treeAt_plug.mp hr.tree
  have hin : (plug k (.node tl x tr)).inorder = ctxPre k ++ tl.inorder ++ x :: (tr.inorder ++ ctxPost k) := by
    rw [inorder_plug]
    simp [BTree.inorder]
  have hasc := hr.asc
  rw [hin] at hasc
  have hnd := hasc.nodup
  have hnot : x ∉ ctxPre k ++ ctxPost k := by
    rw [nodup_middle, nodup_cons] at hnd
    intro hm
    exact hnd.1 (by simp only [mem_append] at hm ⊢; tauto)
  obtain ⟨c, tc, hc, htc, hcin⟩ := child_of_leaf hl hrt hchild
  obtain ⟨tmp, htmp, rfl⟩ := deleteVma_eq hr hin (slotTo_eq hk hpar hnot h₀) hc h
  have hnew : (plug k tc).inorder = ctxPre k ++ tl.inorder ++ (tr.inorder ++ ctxPost k) := by
    rw [inorder_plug, hcin]
    simp
  have hsub : List.Sublist (ctxPre k ++ tl.inorder ++ (tr.inorder ++ ctxPost k))
      (ctxPre k ++ tl.inorder ++ x :: (tr.inorder ++ ctxPost k)) :=
    List.Sublist.append_left (sublist_cons_self ..) _
  refine ⟨plug k tc, unlinked_tree hk hpar htc ?_, ?_, ?_, ?_, ?_⟩
  · rw [hcin]
    refine (List.Perm.nodup_iff ?_).mpr hnd
    rw [append_assoc, append_assoc (ctxPre k)]
    refine List.Perm.append_left _ ?_
    rw [cons_append, append_assoc]
    exact perm_middle.symm
  · rw [hnew]
    exact unlinked_chain (hin ▸ hr.list) hnd (hr.isLast_before hin hp htmp)
  · rw [hnew]
    have hasc' : Ascending m (ctxPre k ++ tl.inorder ++ (tr.inorder ++ ctxPost k)) :=
      ⟨hasc.apart.sublist hsub, fun a ha => hasc.area a (hsub.subset ha)⟩
    exact hasc'.congr (fun a _ => (unlinked_range m x c tmp _ a).1) (fun a _ => (unlinked_range m x c tmp _ a).2)
  · have hlen := hr.count
    rw [hin] at hlen
    rw [unlinked, (listUnlink_rbNode _ x tmp).2, hnew]
    simp only [(cut_mmap m x c (slotOf k)).2.1, hlen, length_append, length_cons]
    omega
  · rw [hnew]
    exact hr.perm_erase hin

/-! ## Growing an area -/

theorem Ascending.grow (h : Ascending m (l₁ ++ v :: l₂))
    (hs : ∀ a ∈ l₁ ++ v :: l₂, (m'.heap a).vmStart = (m.heap a).vmStart)
    (he : ∀ a ∈ l₁ ++ l₂, (m'.heap a).vmEnd = (m.heap a).vmEnd) (hv : (m.heap v).vmStart < (m'.heap v).vmEnd)
    (hn : ∀ b ∈ l₂, (m'.heap v).vmEnd ≤ (m.heap b).vmStart) : Ascending m' (l₁ ++ v :: l₂) := by
  have hr : Ascending m ([v] ++ l₂) := h.right
  have h₁ : Ascending m' l₁ := h.left.congr (fun a ha => hs a (by simp [ha])) (fun a ha => he a (by simp [ha]))
  have h₂ : Ascending m' l₂ := hr.right.congr (fun a ha => hs a (by simp [ha])) (fun a ha => he a (by simp [ha]))
  refine ⟨pairwise_append.mpr ⟨h₁.apart, pairwise_cons.mpr ⟨fun b hb => ?_, h₂.apart⟩, fun a ha b hb => ?_⟩,
    fun a ha => ?_⟩
  · rw [hs b (by simp [hb])]; exact hn b hb
  · rw [he a (by simp [ha]), hs b (by simp only [mem_append, mem_cons] at hb ⊢; tauto)]
    exact h.cross ha hb
  · have harea := h.area a ha
    rcases mem_append.mp ha with hm | hm
    · exact h₁.area a hm
    · rcases mem_cons.mp hm with rfl | hm
      · rw [hs a ha]; exact ⟨hv, harea.2⟩
      · exact h₂.area a hm

inductive BrkResult (m : Mm) (endData : Nat) : Nat → Mm → Prop
  | kept : endData ≤ m.endBrk → BrkResult m endData m.endBrk m
  | atStart (vma : Nat) : HeapArea m vma → endData ≤ m.startBrk → m.endBrk < endData →
      BrkResult m endData (m.heap vma).vmStart m
  | grown (vma : Nat) : HeapArea m vma → m.startBrk < endData → m.endBrk < endData → RoomTo m vma endData →
      BrkResult m endData endData (m.growTo vma endData)
  | refused (vma : Nat) : HeapArea m vma → m.startBrk < endData → m.endBrk < endData → ¬ RoomTo m vma endData →
      BrkResult m endData 0 m

theorem brk_result {endData fuel r : Nat} (h : m.brk endData fuel = some (r, m')) : BrkResult m endData r m' := by
  unfold brk at h
  by_cases hle : endData ≤ m.endBrk
  · rw [if_pos hle, some.injEq, Prod.mk.injEq] at h
    obtain ⟨rfl, rfl⟩ := h
    exact .kept hle
  rw [if_neg hle] at h
  simp only [bind_eq_bind, bind_eq_some_iff] at h
  obtain ⟨vma, hf, h⟩ := h
  by_cases hv : vma = 0 ∨ (m.heap vma).vmStart ≠ m.startBrk
  · rw [if_pos hv] at h
    cases h
  rw [if_neg hv] at h
  rw [not_or, not_not] at hv
  have ha : HeapArea m vma := ⟨⟨fuel, hf⟩, hv.1, hv.2⟩
  by_cases hs : endData ≤ (m.heap vma).vmStart
  · rw [if_pos hs, Option.pure_def, some.injEq, Prod.mk.injEq] at h
    obtain ⟨rfl, rfl⟩ := h
    exact .atStart vma ha (hv.2 ▸ hs) (Nat.lt_of_not_le hle)
  rw [if_neg hs] at h
  rw [hv.2] at hs
  by_cases hn : RoomTo m vma endData
  · rw [if_pos hn, Option.pure_def, some.injEq, Prod.mk.injEq] at h
    obtain ⟨rfl, rfl⟩ := h
    exact .grown vma ha (Nat.lt_of_not_le hs) (Nat.lt_of_not_le hle) hn
  · rw [if_neg hn, Option.pure_def, some.injEq, Prod.mk.injEq] at h
    obtain ⟨rfl, rfl⟩ := h
    exact .refused vma ha (Nat.lt_of_not_le hs) (Nat.lt_of_not_le hle) hn

theorem MmRep.findVma_mem (hr : MmRep m vmas t) {vma fuel : Nat} (h : m.findVma addr fuel m.rbNode 0 = some vma)
    (h₀ : vma ≠ 0) : vma ∈ t.inorder := by
  have hspec := findVma_spec fuel hr.tree.below hr.asc.inOrder h
  cases hfind : t.inorder.find? (fun a => addr < (m.heap a).vmEnd) with
  | none =>
    rw [hfind] at hspec
    exact absurd hspec h₀
  | some a =>
    rw [hfind] at hspec
    rw [show vma = a from hspec]
    exact mem_of_find?_eq_some hfind

theorem MmRep.later (hr : MmRep m vmas t) {v e : Nat} (hsplit : t.inorder = pre ++ v :: post)
    (hn : (m.heap v).vmNext = 0 ∨ e ≤ (m.heap (m.heap v).vmNext).vmStart) : ∀ b ∈ post, e ≤ (m.heap b).vmStart := by
  have hasc := hr.asc
  rw [hsplit] at hasc
  have hch := Chain.after (hsplit ▸ hr.list)
  cases post with
  | nil => intro b hb; cases hb
  | cons y post =>
    have hy : (m.heap v).vmNext = y := hch.1
    have hle : e ≤ (m.heap y).vmStart := hy ▸ hn.resolve_left (hy ▸ hch.2.1)
    intro b hb
    rcases mem_cons.mp hb with rfl | hb
    · exact hle
    · have h₁ : Ascending m ([v] ++ ([y] ++ post)) := hasc.right
      have h₂ := h₁.right.cross (mem_singleton_self y) hb
      have h₃ := (h₁.area y (by simp)).1
      omega

theorem MmRep.grow (hr : MmRep m vmas t) {v e : Nat} (hv : v ∈ t.inorder) (hs : (m.heap v).vmStart < e)
    (hn : (m.heap v).vmNext = 0 ∨ e ≤ (m.heap (m.heap v).vmNext).vmStart) :
    MmRep (m.set v { m.heap v with vmEnd := e }) vmas t := by
  obtain ⟨xs, ys, hxy⟩ := append_of_mem hv
  have hasc := hr.asc
  rw [hxy] at hasc
  have hnot : v ∉ xs ++ ys := by
    have := hasc.nodup
    rw [nodup_middle, nodup_cons] at this
    exact this.1
  have hfield : ∀ {β : Type} (f : Vma → β), (∀ v x, f { v with vmEnd := x } = f v) → ∀ a,
      f ((m.set v { m.heap v with vmEnd := e }).heap a) = f (m.heap a) :=
      fun f hf a => set_heap_field f m (hf _ _) a
  have hother : ∀ a ∈ xs ++ ys, (m.set v { m.heap v with vmEnd := e }).heap a = m.heap a := by
    intro a ha
    exact set_heap_of_ne _ _ fun e => hnot (e ▸ ha)
  refine ⟨?_, ?_, ?_, hr.count, hr.perm⟩
  · exact hr.tree.congr fun a _ => ⟨hfield Vma.rbLeft (fun _ _ => rfl) a, hfield Vma.rbRight (fun _ _ => rfl) a,
      hfield Vma.rbParent (fun _ _ => rfl) a⟩
  · exact hr.list.congr fun a _ => hfield Vma.vmNext (fun _ _ => rfl) a
  · rw [hxy]
    refine hasc.grow (fun a _ => hfield Vma.vmStart (fun _ _ => rfl) a) (fun a ha => by rw [hother a ha]) ?_ ?_
    · rw [set_heap_self]
      exact hs
    · rw [set_heap_self]
      exact hr.later hxy hn

theorem brk_rep (hr : MmRep m vmas t) {endData fuel r : Nat} (h : m.brk endData fuel = some (r, m')) :
    MmRep m' vmas t := by
  cases brk_result h with
  | kept => exact hr
  | atStart => exact hr
  | refused => exact hr
  | grown vma ha hs _ hn =>
    obtain ⟨⟨_, hf⟩, h₀, hst⟩ := ha
    exact (hr.grow (hr.findVma_mem hf h₀) (hst ▸ hs) hn).congr (fun _ _ => rfl) rfl rfl rfl

end

/-! ## Runs -/

structure VmaInv (m : Mm) (t : BTree Nat) : Prop where
  tree : TreeAt m.links 0 0 m.rbNode t
  list : Chain m.next 0 m.mmap t.inorder
  ascending : t.inorder.Pairwise fun a b => (m.heap a).vmStart < (m.heap b).vmStart
  count : m.mmapCount = t.inorder.length

/-- When a call is safe. A new area needs null child pointers in the memory it
gets, a non-empty range that does not wrap around, and a predecessor that
`find_vma_prev` finds; an area to delete needs such a predecessor and at most one
child. -/
def MmGood (s : Mm × List Nat) : MmOp → Prop
  | .create addr len _ mem => (s.1.heap mem).rbLeft = 0 ∧ (s.1.heap mem).rbRight = 0 ∧ 0 < len ∧
      addr + len < 2 ^ 32 ∧ PredOk s.1 s.2 (roundDown addr pageSize)
  | .delete v => ((s.1.heap v).rbLeft = 0 ∨ (s.1.heap v).rbRight = 0) ∧
      PredOk s.1 (s.2.erase v) (s.1.heap v).vmStart
  | _ => True

theorem mmStep_rep {s s' : Mm × List Nat} {op : MmOp} (h : MmStep op s s') (hg : MmGood s op)
    (hr : ∃ t, MmRep s.1 s.2 t) : ∃ t, MmRep s'.1 s'.2 t := by
  obtain ⟨t, hr⟩ := hr
  cases h with
  | create _ _ hm h h₀ => exact createVma_rep hr hg.2.2.1 hg.2.2.2.1 hg.2.2.2.2 hm h₀ hg.1 hg.2.1 h
  | createFail _ _ h =>
    rcases createVma_cases h with ⟨-, rfl⟩ | ⟨e, h₀, -⟩
    · exact ⟨t, hr⟩
    · exact absurd e.symm h₀
  | delete hv h => exact deleteVma_rep hr hv hg.2 hg.1 h
  | brk _ h => exact ⟨t, brk_rep hr h⟩
  | setBrk a b => exact ⟨t, hr.congr (fun _ _ => rfl) rfl rfl rfl⟩
  | other heap hh => exact ⟨t, hr.congr hh rfl rfl rfl⟩

theorem allocMm_rep (heap : Nat → Vma) : MmRep (allocMm heap) [] .nil :=
  ⟨rfl, rfl, ⟨List.Pairwise.nil, nofun⟩, rfl, List.Perm.nil⟩

theorem MmRep.inv {m : Mm} {vmas : List Nat} {t : BTree Nat} (hr : MmRep m vmas t) : VmaInv m t := by
  refine ⟨hr.tree, hr.list, hr.asc.apart.imp_of_mem fun {a b} ha _ hab => ?_, hr.count⟩
  have := (hr.asc.area a ha).1
  omega

/-- **The VMA set invariant** on runs of safe calls. -/
theorem vma_set_invariant {heap : Nat → Vma} {m : Mm} {vmas : List Nat}
    (hrun : ReflTransGen (fun s s' => ∃ op, MmGood s op ∧ MmStep op s s') (allocMm heap, []) (m, vmas)) :
    ∃ t, VmaInv m t ∧ t.inorder.Perm vmas := by
  have key : ∀ s, ReflTransGen (fun s s' => ∃ op, MmGood s op ∧ MmStep op s s') (allocMm heap, []) s →
      ∃ t, MmRep s.1 s.2 t := by
    intro s hs
    induction hs with
    | refl => exact ⟨_, allocMm_rep heap⟩
    | tail _ hstep ih =>
      obtain ⟨op, hg, hstep⟩ := hstep
      exact mmStep_rep hstep hg ih
  obtain ⟨t, hr⟩ := key _ hrun
  exact ⟨t, hr.inv, hr.perm⟩

def zeroVma : Vma := ⟨0, 0, 0, 0, 0, 0, 0⟩

theorem vma_set_invariant_two : ∃ m m', (allocMm fun _ => zeroVma).createVma 0x1000 0x1000 0 16 9 = some (16, m) ∧
    m.createVma 0x3000 0x1000 0 32 9 = some (32, m') ∧ ∃ t, VmaInv m' t ∧ t.inorder.Perm [32, 16] := by
  have h : (((allocMm fun _ => zeroVma).createVma 0x1000 0x1000 0 16 9).bind fun r =>
      (r.2.createVma 0x3000 0x1000 0 32 9).map fun r' => (r.1, r'.1, r.2.rbNode, r.2.heap 16, r.2.heap 32)) =
      some (16, 32, 16, ⟨0, 0, 0, 0, 0x1000, 0x2000, 0⟩, zeroVma) := by decide
  simp only [bind_eq_some_iff, map_eq_some_iff, Prod.mk.injEq] at h
  obtain ⟨⟨_, m⟩, h₁, ⟨_, m'⟩, h₂, rfl, rfl, hroot, h16, h32⟩ := h
  dsimp only at h₂ hroot h16 h32
  refine ⟨m, m', h₁, h₂, vma_set_invariant (?_ : ReflTransGen _ (allocMm fun _ => zeroVma, []) _)⟩
  refine .tail (.single ⟨.create 0x1000 0x1000 0 16, ?_, .create (by decide) (by decide) (by simp) h₁ (by decide)⟩)
    ⟨.create 0x3000 0x1000 0 32, ?_, .create (by decide) (by decide) (by simp) h₂ (by decide)⟩
  · exact ⟨rfl, rfl, by decide, by decide, .inl nofun⟩
  · simp only [MmGood, PredOk, hroot, h16, h32]
    refine ⟨rfl, rfl, by decide, by decide, .inr ⟨by simp, by decide, fun a ha => ?_⟩⟩
    rw [mem_singleton.mp ha, h16]
    exact .inl (Nat.le_refl _)

/-- The areas `load_icode` creates for a program with two segments, code, data and
stack: the predecessor of the stack is not the root, and the stack is linked in
before the data. -/
theorem vma_set_broken : ∃ m vmas,
    ReflTransGen (fun s s' => ∃ op, MmStep op s s') (allocMm fun _ => zeroVma, []) (m, vmas) ∧
      ¬ ∃ t, VmaInv m t := by
  have h : (((allocMm fun _ => zeroVma).createVma 0x800000 0x1000 0 16 9).bind fun r =>
      (r.2.createVma 0x802000 0x1000 0 32 9).bind fun r' =>
          (r'.2.createVma 0xBF400000 0x400000 0 48 9).map fun r'' =>
        ((r.1, r'.1, r''.1), (r''.2.mmap, r''.2.next 16, r''.2.next 48, r''.2.next 32),
          (r''.2.heap 48).vmStart, (r''.2.heap 32).vmStart)) =
      some ((16, 32, 48), (16, 48, 32, 0), 0xBF400000, 0x802000) := by decide
  simp only [bind_eq_some_iff, map_eq_some_iff, Prod.mk.injEq] at h
  obtain ⟨⟨_, m₁⟩, h₁, ⟨_, m₂⟩, h₂, ⟨_, m₃⟩, h₃, ⟨rfl, rfl, rfl⟩, ⟨hm, n₁, n₂, n₃⟩, s₁, s₂⟩ := h
  refine ⟨m₃, [48, 32, 16], .tail (.tail (.single ⟨_, .create (by decide) (by decide) (by simp) h₁ (by decide)⟩)
    ⟨_, .create (by decide) (by decide) (by simp) h₂ (by decide)⟩)
    ⟨_, .create (by decide) (by decide) (by simp) h₃ (by decide)⟩, ?_⟩
  intro ⟨t, ht⟩
  dsimp only at hm n₁ n₂ n₃ s₁ s₂
  have hchain : Chain m₃.next 0 m₃.mmap [16, 48, 32] := ⟨hm, by decide, n₁, by decide, n₂, by decide, n₃⟩
  have hasc := ht.ascending
  rw [ht.list.unique hchain] at hasc
  simp only [pairwise_cons, mem_cons, not_mem_nil, or_false] at hasc
  have := hasc.2.1 32 rfl
  omega

end MiniOS
