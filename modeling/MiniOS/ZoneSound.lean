import MiniOS.Zone
import MiniOS.Runs
import Mathlib.Logic.Relation
import Mathlib.Algebra.GroupWithZero.Action.Defs

/-!
# The buddy allocator keeps its lists

The free blocks of a zone and the blocks its callers hold tile the pages that
were free at the start. Filing, taking, halving and joining a block each keep
`BuddyRep`; `alloc_buddy` and `free_buddy` are sequences of these.
-/

namespace MiniOS

open Function List Option Relation Zone

def freeSet (fl : Nat → List Nat) : Set Block := {b | b.2 < maxOrder ∧ b.1 ∈ fl b.2}

def freeCount (fl : Nat → List Nat) : Nat := ∑ k ∈ Finset.range maxOrder, (fl k).length * 2 ^ k

/-- The zone `z` has the free lists `fl` while its callers hold the blocks `H`,
and together they tile the pages `F`. -/
structure BuddyRep (F : Set Nat) (z : Zone) (fl : Nat → List Nat) (H : Set Block) : Prop where
  rings : Rings z.links (· < maxOrder) ZNode.head (List.map ZNode.page ∘ fl)
  nfree : ∀ k < maxOrder, z.nfree k = (fl k).length
  listed : ∀ k < maxOrder, ∀ i ∈ fl k, (z.mempage i).order = k
  unlisted : ∀ i < z.size, (∀ k < maxOrder, i ∉ fl k) → (z.mempage i).order = -1
  tiling : Tiling F (freeSet fl ∪ H)
  notHeld : ∀ b ∈ freeSet fl, b ∉ H
  inside : ∀ p ∈ F, p < z.size
  size_lt : z.size < 2 ^ 32

/-! ## Counting -/

theorem freeCount_eq_sum {fl : Nat → List Nat} (hn : ∀ k < maxOrder, (fl k).Nodup) :
    freeCount fl = ∑ b ∈ (Finset.range maxOrder).biUnion fun k => (fl k).toFinset.image (·, k), 2 ^ b.2 := by
  rw [Finset.sum_biUnion]
  · refine Finset.sum_congr rfl fun k hk => ?_
    rw [Finset.sum_image (fun a _ b _ h => (Prod.mk.inj h).1)]
    simp only [Finset.sum_const]
    rw [toFinset_card_of_nodup (hn k (Finset.mem_range.mp hk)), smul_eq_mul]
  · intro k _ k' _ hne
    refine Finset.disjoint_left.mpr fun b hb hb' => hne ?_
    obtain ⟨_, _, rfl⟩ := Finset.mem_image.mp hb
    obtain ⟨_, _, e⟩ := Finset.mem_image.mp hb'
    exact (Prod.mk.inj e).2.symm

theorem freeCount_update (fl : Nat → List Nat) {k : Nat} (hk : k < maxOrder) (l : List Nat) :
    freeCount (update fl k l) + (fl k).length * 2 ^ k = freeCount fl + l.length * 2 ^ k := by
  unfold freeCount
  have hm := Finset.mem_range.mpr hk
  rw [← Finset.add_sum_erase _ _ hm, ← Finset.add_sum_erase _ (fun k => (fl k).length * 2 ^ k) hm,
    update_self]
  have : ∑ x ∈ (Finset.range maxOrder).erase k, (update fl k l x).length * 2 ^ x =
      ∑ x ∈ (Finset.range maxOrder).erase k, (fl x).length * 2 ^ x :=
    Finset.sum_congr rfl fun x hx => by rw [update_of_ne (Finset.ne_of_mem_erase hx)]
  rw [this]; omega

theorem length_le_freeCount (fl : Nat → List Nat) {k : Nat} (hk : k < maxOrder) :
    (fl k).length ≤ freeCount fl := by
  have h : (fl k).length * 2 ^ k ≤ freeCount fl :=
    Finset.single_le_sum (f := fun k => (fl k).length * 2 ^ k) (fun _ _ => Nat.zero_le _)
      (Finset.mem_range.mpr hk)
  exact Nat.le_trans (Nat.le_mul_of_pos_right _ (Nat.two_pow_pos k)) h

theorem freeCount_le_of {F : Set Nat} {fl : Nat → List Nat} {H : Set Block}
    (ht : Tiling F (freeSet fl ∪ H)) (hn : ∀ k < maxOrder, (fl k).Nodup) {n : Nat} (hF : ∀ p ∈ F, p < n) :
    freeCount fl ≤ n := by
  rw [freeCount_eq_sum hn]
  refine ht.sum_le hF fun b hb => .inl ?_
  obtain ⟨k, hk, hb⟩ := Finset.mem_biUnion.mp hb
  obtain ⟨i, hi, rfl⟩ := Finset.mem_image.mp hb
  exact ⟨Finset.mem_range.mp hk, List.mem_toFinset.mp hi⟩

theorem freeSet_cons (fl : Nat → List Nat) {k : Nat} (hk : k < maxOrder) (i : Nat) :
    freeSet (update fl k (i :: fl k)) = insert (i, k) (freeSet fl) := by
  ext ⟨j, m⟩
  by_cases hm : m = k
  · subst hm
    simp [freeSet, hk]
  · simp [freeSet, hm]

theorem freeSet_remove {fl : Nat → List Nat} {k i : Nat} (xs ys : List Nat) (hf : fl k = xs ++ i :: ys) :
    freeSet (update fl k (xs ++ ys)) ⊆ freeSet fl := by
  rintro ⟨j, m⟩ ⟨hm, hj⟩
  refine ⟨hm, ?_⟩
  by_cases e : m = k
  · subst e
    simp only [update_self, mem_append] at hj
    simp only [hf, mem_append, mem_cons]
    tauto
  · simpa only [update_of_ne e] using hj

namespace BuddyRep

variable {F : Set Nat} {z : Zone} {fl : Nat → List Nat} {H : Set Block} {i k : Nat}

theorem nodup (h : BuddyRep F z fl H) (hk : k < maxOrder) : (fl k).Nodup :=
  ((nodup_cons.mp (h.rings.nodup k hk)).2).of_map _

theorem freeCount_le (h : BuddyRep F z fl H) : freeCount fl ≤ z.size :=
  freeCount_le_of h.tiling (fun _ hk => h.nodup hk) h.inside

theorem fresh (h : BuddyRep F z fl H) {b c : Block} (hb : b ∈ freeSet fl ∪ H) {p : Nat}
    (hb₁ : b.1 ≤ p) (hb₂ : p < b.1 + 2 ^ b.2) (hc₁ : c.1 ≤ p) (hc₂ : p < c.1 + 2 ^ c.2)
    (hne : b ≠ c) : c ∉ freeSet fl ∪ H :=
  fun hc => hne (h.tiling.eq_of_mem hb hc hb₁ hb₂ hc₁ hc₂)

theorem held_not_listed (h : BuddyRep F z fl H) (hi : (i, k) ∈ H) {k' : Nat}
    (hk' : k' < maxOrder) : i ∉ fl k' := by
  intro hm
  have hf : ((i, k') : Block) ∈ freeSet fl := ⟨hk', hm⟩
  have e : ((i, k') : Block) = (i, k) := h.tiling.eq_of_mem (.inl hf) (.inr hi) (Nat.le_refl i)
    (Nat.lt_add_of_pos_right (Nat.two_pow_pos k')) (Nat.le_refl i)
    (Nat.lt_add_of_pos_right (Nat.two_pow_pos k))
  exact h.notHeld _ hf (e ▸ hi)

theorem lt_size (h : BuddyRep F z fl H) {b : Block} (hb : b ∈ freeSet fl ∪ H) : b.1 + 2 ^ b.2 ≤ z.size := by
  have hpow := Nat.two_pow_pos b.2
  have hp : b.1 + 2 ^ b.2 - 1 ∈ F := h.tiling.subset hb (by omega) (by omega)
  have := h.inside _ hp
  omega

/-! ## The four edits -/

theorem mem_link {j m : Nat} : j ∈ update fl k (i :: fl k) m ↔ j ∈ fl m ∨ (j, m) = (i, k) := by
  by_cases e : m = k
  · subst e
    simp [or_comm]
  · simp [e]

theorem link (h : BuddyRep F z fl (insert (i, k) H)) (hk : k < maxOrder) (hH : (i, k) ∉ H) :
    BuddyRep F (z.link i k) (update fl k (i :: fl k)) H := by
  have hout : ∀ k' < maxOrder, i ∉ fl k' := fun k' hk' => h.held_not_listed (Set.mem_insert _ _) hk'
  have hset : ∀ b, b ∈ freeSet fl ∪ insert (i, k) H ↔
      b ∈ freeSet (update fl k (i :: fl k)) ∪ H := by
    intro ⟨j, m⟩
    simp only [freeSet, Set.mem_union, Set.mem_ofPred_eq, Set.mem_insert_iff, mem_link]
    by_cases e : ((j, m) : Block) = (i, k)
    · simp [e, (Prod.mk.inj e).2 ▸ hk]
    · simp [e]
  have ht := h.tiling.congr _ hset
  have hrings : Rings (z.link i k).links (· < maxOrder) ZNode.head
      (List.map ZNode.page ∘ update fl k (i :: fl k)) := by
    rw [comp_update]
    refine h.rings.listAdd hk fun k' hk' hm => ?_
    simp only [comp_apply, mem_cons, reduceCtorEq, List.mem_map, ZNode.page.injEq,
      exists_eq_right, false_or] at hm
    exact hout k' hk' hm
  have hn : ∀ k' < maxOrder, (update fl k (i :: fl k) k').Nodup := fun k' hk' =>
    ((nodup_cons.mp (hrings.nodup k' hk')).2).of_map _
  refine ⟨hrings, fun k' hk' => ?_, fun k' hk' j hj => ?_, fun j hj hno => ?_, ht, ?_, h.inside, h.size_lt⟩
  · by_cases e : k' = k
    · subst e
      have hle : freeCount (update fl k' (i :: fl k')) ≤ z.size := freeCount_le_of ht hn h.inside
      have hlen := length_le_freeCount (update fl k' (i :: fl k')) hk
      have hsz := h.size_lt
      simp only [update_self, length_cons] at hlen ⊢
      simp only [Zone.link, update_self, h.nfree k' hk]
      exact wrap_of_lt (by omega)
    · simp only [Zone.link, update_of_ne e]
      exact h.nfree k' hk'
  · rcases mem_link.mp hj with hj | e
    · have e : j ≠ i := fun e => hout k' hk' (e ▸ hj)
      simp only [Zone.link, Zone.setOrder, update_of_ne e]
      exact h.listed k' hk' j hj
    · obtain ⟨rfl, rfl⟩ := Prod.mk.inj e
      simp [Zone.link, setOrder]
  · have e : j ≠ i := fun e => hno k hk (mem_link.mpr (.inr (by rw [e])))
    simp only [Zone.link, Zone.setOrder, update_of_ne e]
    exact h.unlisted j hj fun k' hk' hm => hno k' hk' (mem_link.mpr (.inl hm))
  · intro ⟨j, m⟩ ⟨hm, hj⟩ hH'
    rcases mem_link.mp hj with hj | e
    · exact h.notHeld (j, m) ⟨hm, hj⟩ (.inr hH')
    · exact hH (e ▸ hH')

theorem mem_unlink {xs ys : List Nat} (hnd : (fl k).Nodup) (hf : fl k = xs ++ i :: ys) {j m : Nat} :
    j ∈ update fl k (xs ++ ys) m ↔ j ∈ fl m ∧ (j, m) ≠ (i, k) := by
  rw [hf, nodup_middle, nodup_cons] at hnd
  by_cases e : m = k
  · subst e
    rw [update_self, hf]
    by_cases ej : j = i
    · subst ej; simpa using hnd.1
    · simp [ej]
  · simp [e]

theorem free_one_order (h : BuddyRep F z fl H) {k' : Nat} (hi : (i, k) ∈ freeSet fl) (hi' : (i, k') ∈ freeSet fl) :
    k' = k := by
  by_contra hne
  exact h.fresh (.inl hi) (Nat.le_refl i) (Nat.lt_add_of_pos_right (Nat.two_pow_pos k)) (Nat.le_refl i)
    (Nat.lt_add_of_pos_right (Nat.two_pow_pos k')) (fun e => hne (Prod.mk.inj e).2.symm) (.inl hi')

theorem unlink (h : BuddyRep F z fl H) (hk : k < maxOrder) (xs ys : List Nat) (hf : fl k = xs ++ i :: ys) :
    BuddyRep F (z.unlink i k) (update fl k (xs ++ ys)) (insert (i, k) H) := by
  have hi : ((i, k) : Block) ∈ freeSet fl := ⟨hk, by simp [hf]⟩
  have hmem {j m : Nat} := mem_unlink (h.nodup hk) hf (j := j) (m := m)
  have hset : ∀ b, b ∈ freeSet fl ∪ H ↔
      b ∈ freeSet (update fl k (xs ++ ys)) ∪ insert (i, k) H := by
    intro ⟨j, m⟩
    simp only [freeSet, Set.mem_union, Set.mem_ofPred_eq, Set.mem_insert_iff, hmem]
    by_cases e : ((j, m) : Block) = (i, k)
    · obtain ⟨rfl, rfl⟩ := Prod.mk.inj e; simp [hi.1, hi.2]
    · simp [e]
  refine ⟨?_, fun k' hk' => ?_, fun k' hk' j hj => ?_, fun j hj hno => ?_, h.tiling.congr _ hset, ?_,
    h.inside, h.size_lt⟩
  · rw [comp_update, map_append]
    exact h.rings.listDel hk (by simp [hf])
  · by_cases e : k' = k
    · subst e
      have hlen := length_le_freeCount fl hk
      have hle := h.freeCount_le
      have hsz := h.size_lt
      simp only [unlink, update_self, h.nfree k' hk]
      rw [wsub_of_le (by rw [hf]; simp; omega) (by omega), hf]
      simp
    · simp only [Zone.unlink, update_of_ne e]
      exact h.nfree k' hk'
  · obtain ⟨hj, hne⟩ := hmem.mp hj
    have e : j ≠ i := by
      rintro rfl
      exact hne (by rw [h.free_one_order hi ⟨hk', hj⟩])
    simp only [Zone.unlink, Zone.setOrder, update_of_ne e]
    exact h.listed k' hk' j hj
  · by_cases e : j = i
    · subst e; simp [unlink, setOrder]
    · simp only [Zone.unlink, Zone.setOrder, update_of_ne e]
      exact h.unlisted j hj fun k' hk' hm => hno k' hk' (hmem.mpr ⟨hm, fun e' => e (Prod.mk.inj e').1⟩)
  · intro ⟨j, m⟩ ⟨hm, hj⟩ hH'
    obtain ⟨hj, hne⟩ := hmem.mp hj
    rcases hH' with e | hH'
    · exact hne e
    · exact h.notHeld (j, m) ⟨hm, hj⟩ hH'

theorem split (h : BuddyRep F z fl (insert (i, k + 1) H)) (hH : (i, k + 1) ∉ H) :
    BuddyRep F z fl (insert (i + 2 ^ k, k) (insert (i, k) H)) ∧ (i, k) ∉ H ∧
      (i + 2 ^ k, k) ∉ insert (i, k) H := by
  have hb : ((i, k + 1) : Block) ∈ freeSet fl ∪ insert (i, k + 1) H := .inr (Set.mem_insert _ _)
  have hpow := Nat.two_pow_pos k
  have hne : ∀ j, ((i, k + 1) : Block) ≠ (j, k) := fun j e => absurd (Prod.mk.inj e).2 (by omega)
  have h₁ : ((i, k) : Block) ∉ freeSet fl ∪ insert (i, k + 1) H :=
    h.fresh hb (Nat.le_refl i) (by simp only [Nat.pow_succ]; omega) (Nat.le_refl i)
      (Nat.lt_add_of_pos_right hpow) (hne i)
  have h₂ : ((i + 2 ^ k, k) : Block) ∉ freeSet fl ∪ insert (i, k + 1) H :=
    h.fresh hb (Nat.le_add_right i _) (by simp only [Nat.pow_succ]; omega) (Nat.le_refl _)
      (Nat.lt_add_of_pos_right hpow) (hne _)
  have hfree : ((i, k + 1) : Block) ∉ freeSet fl := fun hf => h.notHeld _ hf (Set.mem_insert _ _)
  simp only [Set.mem_union, Set.mem_insert_iff, not_or] at h₁ h₂
  have ht := (h.tiling.congr ({(i, k + 1)} ∪ (freeSet fl ∪ H)) fun b => by
    simp only [Set.mem_union, Set.mem_insert_iff, Set.mem_singleton_iff]; tauto).split
      (by simp only [Set.mem_union]; tauto)
  refine ⟨{ h with tiling := ?_, notHeld := ?_ }, h₁.2.2, ?_⟩
  · exact ht.congr _ fun b => by
      simp only [Set.mem_union, Set.mem_insert_iff, Set.mem_singleton_iff]; tauto
  · rintro b hf (rfl | rfl | hb')
    · exact h₂.1 hf
    · exact h₁.1 hf
    · exact h.notHeld b hf (.inr hb')
  · rintro (e | hm)
    · have := (Prod.mk.inj e).1; omega
    · exact h₂.2.2 hm

theorem join_halves (h : BuddyRep F z fl (insert (i, k) (insert (i + 2 ^ k, k) H))) (hal : 2 ^ (k + 1) ∣ i)
    (h₁ : (i, k) ∉ H) (h₂ : (i + 2 ^ k, k) ∉ H) :
    BuddyRep F z fl (insert (i, k + 1) H) ∧ (i, k + 1) ∉ H := by
  have hpow := Nat.two_pow_pos k
  have hb : ((i, k) : Block) ∈ freeSet fl ∪ insert (i, k) (insert (i + 2 ^ k, k) H) :=
    .inr (Set.mem_insert _ _)
  have h₃ : ((i, k + 1) : Block) ∉ freeSet fl ∪ insert (i, k) (insert (i + 2 ^ k, k) H) :=
    h.fresh hb (Nat.le_refl i) (Nat.lt_add_of_pos_right hpow) (Nat.le_refl i) (by simp only [Nat.pow_succ]; omega)
      (fun e => absurd (Prod.mk.inj e).2 (by omega))
  have hf₁ : ((i, k) : Block) ∉ freeSet fl := fun hf => h.notHeld _ hf (Set.mem_insert _ _)
  have hf₂ : ((i + 2 ^ k, k) : Block) ∉ freeSet fl := fun hf =>
    h.notHeld _ hf (Set.mem_insert_of_mem _ (Set.mem_insert _ _))
  simp only [Set.mem_union, Set.mem_insert_iff, not_or] at h₃
  have ht := (h.tiling.congr ({(i, k), (i + 2 ^ k, k)} ∪ (freeSet fl ∪ H)) fun b => by
    simp only [Set.mem_union, Set.mem_insert_iff, Set.mem_singleton_iff]; tauto).join hal
      (by simp only [Set.mem_union]; tauto) (by simp only [Set.mem_union]; tauto)
  refine ⟨{ h with tiling := ?_, notHeld := ?_ }, h₃.2.2.2⟩
  · exact ht.congr _ fun b => by
      simp only [Set.mem_union, Set.mem_insert_iff, Set.mem_singleton_iff]; tauto
  · rintro b hf (rfl | hb')
    · exact h₃.1 hf
    · exact h.notHeld b hf (.inr (.inr hb'))

theorem join (h : BuddyRep F z fl (insert (i ^^^ 2 ^ k, k) (insert (i, k) H))) (h₁ : (i, k) ∉ H)
    (h₂ : (i ^^^ 2 ^ k, k) ∉ H) :
    BuddyRep F z fl (insert (i &&& (i ^^^ 2 ^ k), k + 1) H) ∧ (i &&& (i ^^^ 2 ^ k), k + 1) ∉ H := by
  have hal : 2 ^ k ∣ i := h.tiling.aligned (i, k) (.inr (Set.mem_insert_of_mem _ (Set.mem_insert _ _)))
  rcases buddy_cases hal with ⟨hx, ha, hd⟩ | ⟨hx, ha, hd⟩
  · rw [ha]
    rw [hx] at h h₂
    exact join_halves (by rwa [Set.insert_comm]) hd h₁ h₂
  · rw [ha]
    refine join_halves ?_ hd h₂ (by rwa [hx])
    rwa [hx]

theorem order_iff (h : BuddyRep F z fl H) (hi : i < z.size) :
    (z.mempage i).order = k ↔ k < maxOrder ∧ i ∈ fl k := by
  refine ⟨fun ho => ?_, fun hk => h.listed k hk.1 i hk.2⟩
  by_contra hn
  by_cases hl : ∀ m < maxOrder, i ∉ fl m
  · have := h.unlisted i hi hl
    omega
  · simp only [not_forall, not_not] at hl
    obtain ⟨m, hm, him⟩ := hl
    have := h.listed m hm i him
    have e : k = m := by omega
    exact hn (e ▸ ⟨hm, him⟩)

theorem mem_of_isBuddy (h : BuddyRep F z fl H) (hi : i < z.size)
    (hb : pageIsBuddy (z.mempage i) k = true) : k < maxOrder ∧ i ∈ fl k := by
  simp only [pageIsBuddy, Bool.and_eq_true, decide_eq_true_eq] at hb
  exact (h.order_iff hi).mp hb.1.1

end BuddyRep

theorem freeCount_cons (fl : Nat → List Nat) {k : Nat} (hk : k < maxOrder) (i : Nat) :
    freeCount (update fl k (i :: fl k)) = freeCount fl + 2 ^ k := by
  have := freeCount_update fl hk (i :: fl k)
  rw [length_cons, Nat.succ_mul] at this; omega

theorem freeCount_remove {fl : Nat → List Nat} {k i : Nat} (hk : k < maxOrder) (xs ys : List Nat)
    (hf : fl k = xs ++ i :: ys) :
    freeCount (update fl k (xs ++ ys)) + 2 ^ k = freeCount fl := by
  have := freeCount_update fl hk (xs ++ ys)
  rw [hf, length_append, length_append, length_cons, ← Nat.add_assoc, Nat.succ_mul] at this
  omega

/-! ## What the operations leave alone -/

structure Zone.Frame (z z' : Zone) : Prop where
  size : z'.size = z.size
  pfn : z'.pfn = z.pfn
  nref : ∀ i, (z'.mempage i).nref = (z.mempage i).nref
  flags : ∀ i, (z'.mempage i).flags = (z.mempage i).flags

theorem Zone.Frame.trans {z₁ z₂ z₃ : Zone} (h : z₁.Frame z₂) (h' : z₂.Frame z₃) : z₁.Frame z₃ :=
  ⟨h'.size.trans h.size, h'.pfn.trans h.pfn, fun i => (h'.nref i).trans (h.nref i),
    fun i => (h'.flags i).trans (h.flags i)⟩

theorem Zone.setOrder_frame (z : Zone) (i : Nat) (o : Int) : z.Frame (z.setOrder i o) := by
  refine ⟨rfl, rfl, fun j => ?_, fun j => ?_⟩ <;> by_cases e : j = i
  · subst e; simp [setOrder]
  · simp [setOrder, e]
  · subst e; simp [setOrder]
  · simp [setOrder, e]

theorem Zone.link_frame (z : Zone) (i k : Nat) : z.Frame (z.link i k) :=
  ⟨rfl, rfl, (z.setOrder_frame i k).nref, (z.setOrder_frame i k).flags⟩

theorem Zone.unlink_frame (z : Zone) (i k : Nat) : z.Frame (z.unlink i k) :=
  ⟨rfl, rfl, (z.setOrder_frame i (-1)).nref, (z.setOrder_frame i (-1)).flags⟩

/-! ## `alloc_buddy` -/

theorem allocBuddyAux_frame (low page : Nat) : ∀ (high : Nat) (z : Zone),
    z.Frame (allocBuddyAux low page high z) ∧
      (allocBuddyAux low page high z).freePages = z.freePages
  | 0, z => ⟨⟨rfl, rfl, fun _ => rfl, fun _ => rfl⟩, rfl⟩
  | high + 1, z => by
    unfold allocBuddyAux
    split
    · have := allocBuddyAux_frame low page high (z.link (page + 2 ^ high) high)
      exact ⟨(z.link_frame _ _).trans this.1, this.2⟩
    · exact ⟨⟨rfl, rfl, fun _ => rfl, fun _ => rfl⟩, rfl⟩

section
variable {F : Set Nat} {H : Set Block} {fl : Nat → List Nat} {z : Zone} {i k : Nat}

theorem allocBuddyAux_rep {low page : Nat} : ∀ (high : Nat) {z : Zone} {fl : Nat → List Nat}, low ≤ high →
    high < maxOrder → BuddyRep F z fl (insert (page, high) H) → (page, high) ∉ H →
    ∃ fl', BuddyRep F (allocBuddyAux low page high z) fl' (insert (page, low) H) ∧ (page, low) ∉ H ∧
      freeCount fl' + 2 ^ low = freeCount fl + 2 ^ high ∧
      (Merged maxOrder (freeSet fl) → Merged maxOrder (freeSet fl'))
  | 0, z, fl, hle, _, hr, hH => by
    obtain rfl : low = 0 := by omega
    exact ⟨fl, hr, hH, rfl, id⟩
  | high + 1, z, fl, hle, hlt, hr, hH => by
    unfold allocBuddyAux
    split
    · rename_i hlow
      obtain ⟨hs, hH₁, hH₂⟩ := hr.split hH
      have hl := hs.link (by omega) hH₂
      obtain ⟨fl', hr', hH', hc, hm⟩ := allocBuddyAux_rep high (Nat.le_of_lt_succ hlow) (by omega) hl hH₁
      refine ⟨fl', hr', hH', ?_, fun hfl => hm ?_⟩
      · rw [hc, freeCount_cons fl (Nat.lt_of_succ_lt hlt), Nat.pow_succ]; omega
      · -- the buddy of the upper half is the lower one, which is in hand
        have hal : 2 ^ (high + 1) ∣ page := hr.tiling.aligned (page, high + 1) (.inr (Set.mem_insert _ _))
        rw [freeSet_cons fl (Nat.lt_of_succ_lt hlt)]
        refine hfl.insert fun _ hb => ?_
        rw [← xor_two_pow_of_dvd hal, Nat.xor_assoc, Nat.xor_self, Nat.xor_zero] at hb
        exact hs.notHeld _ hb (Set.mem_insert_of_mem _ (Set.mem_insert _ _))
    · obtain rfl : low = high + 1 := by omega
      exact ⟨fl, hr, hH, rfl, id⟩

/-- The outcome of `alloc_buddy` on a zone with free lists `fl`: a block of the
order asked for, or no list of that order or above has a block. -/
inductive AllocBuddySpec (F : Set Nat) (H : Set Block) (z : Zone) (fl : Nat → List Nat) (order : Nat) :
    Option (Option Nat × Zone) → Prop
  | block {i : Nat} {z' : Zone} (fl' : Nat → List Nat) : BuddyRep F z' fl' (insert (i, order) H) →
      (i, order) ∉ H → z'.freePages = freeCount fl' → z.Frame z' →
      AllocBuddySpec F H z fl order (some (some i, z'))
  | none : (∀ k, order ≤ k → k < maxOrder → fl k = []) → AllocBuddySpec F H z fl order (some (none, z))

theorem allocBuddyFrom_spec (hr : BuddyRep F z fl H)
    (hfp : z.freePages = freeCount fl) {order : Nat} : ∀ (left : Nat), left ≤ maxOrder - order →
    (∀ k, order ≤ k → k < maxOrder - left → fl k = []) →
    AllocBuddySpec F H z fl order (z.allocBuddyFrom order left)
  | 0, _, hno => .none hno
  | left + 1, hle, hno => by
    have hcur : maxOrder - (left + 1) < maxOrder := by unfold maxOrder at *; omega
    have hord : order ≤ maxOrder - (left + 1) := by omega
    simp only [allocBuddyFrom]
    have hemp := hr.rings.empty_iff hcur
    have hring := hr.rings.ring _ hcur
    simp only [comp_apply, map_eq_nil_iff] at hemp hring
    cases hf : fl (maxOrder - (left + 1)) with
    | nil =>
      rw [if_pos (hemp.mpr hf)]
      refine allocBuddyFrom_spec hr hfp left (by omega) fun k h₁ h₂ => ?_
      by_cases e : k = maxOrder - (left + 1)
      · rw [e, hf]
      · exact hno k h₁ (by omega)
    | cons i is =>
      rw [if_neg (by rw [hemp, hf]; simp)]
      rw [hf, map_cons] at hring
      rw [hring.next_head]
      have hu := hr.unlink hcur [] is hf
      have hH : (i, maxOrder - (left + 1)) ∉ H := hr.notHeld _ ⟨hcur, by simp [hf]⟩
      have hu' : BuddyRep F { z.unlink i (maxOrder - (left + 1)) with freePages := wsub z.freePages (2 ^ order) }
          (update fl (maxOrder - (left + 1)) ([] ++ is)) (insert (i, maxOrder - (left + 1)) H) :=
        { hu with }
      obtain ⟨fl', hr', hH', hc, -⟩ := allocBuddyAux_rep _ hord hcur hu' hH
      obtain ⟨hfr, hfp'⟩ := allocBuddyAux_frame order i (maxOrder - (left + 1))
        { z.unlink i (maxOrder - (left + 1)) with freePages := wsub z.freePages (2 ^ order) }
      refine .block fl' hr' hH' ?_ ?_
      · have h₁ := freeCount_remove hcur [] is hf
        have h₂ := hr.freeCount_le
        have h₃ := hr.size_lt
        have h₄ : 2 ^ order ≤ 2 ^ (maxOrder - (left + 1)) := Nat.pow_le_pow_right (by decide) hord
        rw [hfp']
        show wsub z.freePages (2 ^ order) = _
        rw [hfp, wsub_of_le (by omega) (by omega)]
        omega
      · have := z.unlink_frame i (maxOrder - (left + 1))
        exact ⟨hfr.size.trans this.size, hfr.pfn.trans this.pfn, fun j => (hfr.nref j).trans (this.nref j),
          fun j => (hfr.flags j).trans (this.flags j)⟩

theorem allocBuddy_spec (hr : BuddyRep F z fl H)
    (hfp : z.freePages = freeCount fl) {order : Nat} (ho : order < maxOrder) :
    AllocBuddySpec F H z fl order (z.allocBuddy order) := by
  unfold allocBuddy
  rw [if_neg (by omega)]
  split
  · refine .none fun k _ hk => ?_
    have := hr.freeCount_le
    have := length_le_freeCount fl hk
    exact eq_nil_of_length_eq_zero (by omega)
  · exact allocBuddyFrom_spec hr hfp _ (Nat.le_refl _) fun k _ _ => by omega

theorem BuddyRep.alloc_run {z z' : Zone} (hr : BuddyRep F z fl H)
    (hfp : z.freePages = freeCount fl) {order i : Nat} (ho : order < maxOrder)
    (h : z.allocBuddy order = some (some i, z')) :
    2 ^ order ∣ i ∧ ∀ p, i ≤ p → p < i + 2 ^ order → p ∈ F := by
  have hspec := allocBuddy_spec hr hfp ho
  rw [h] at hspec
  cases hspec with
  | block fl' hr' hH hfp' hfr =>
    have hb : ((i, order) : Block) ∈ freeSet fl' ∪ insert (i, order) H := .inr (Set.mem_insert _ _)
    exact ⟨hr'.tiling.aligned _ hb, fun _ h₁ h₂ => hr'.tiling.subset hb h₁ h₂⟩

/-! ## `free_buddy` -/

theorem mergeBuddy_succ {left : Nat} {r : Zone × Nat × Nat} (h : mergeBuddy (left + 1) z i k = some r) :
    (r = (z, i, k) ∧ (z.size ≤ i ^^^ 2 ^ k ∨
      (z.pfn + (i ^^^ 2 ^ k)) % 2 ^ k = 0 ∧ pageIsBuddy (z.mempage (i ^^^ 2 ^ k)) k = false)) ∨
      i ^^^ 2 ^ k < z.size ∧ pageIsBuddy (z.mempage (i ^^^ 2 ^ k)) k = true ∧
        mergeBuddy left (z.unlink (i ^^^ 2 ^ k) k) (i &&& (i ^^^ 2 ^ k)) (k + 1) = some r := by
  simp only [mergeBuddy] at h
  split at h
  · next hsz =>
    cases h
    exact .inl ⟨rfl, .inl hsz⟩
  split at h
  · cases h
  split at h
  · next hsz _ hb => exact .inr ⟨Nat.not_le.mp hsz, hb, h⟩
  · next hal hb =>
    cases h
    exact .inl ⟨rfl, .inr ⟨not_not.mp hal, Bool.eq_false_iff.mpr hb⟩⟩

theorem mergeBuddy_frame : ∀ (left : Nat) (z : Zone) (i k : Nat) {z' : Zone} {i' k' : Nat},
    mergeBuddy left z i k = some (z', i', k') →
    z.Frame z' ∧ z'.freePages = z.freePages ∧ k ≤ k' ∧ k' ≤ k + left
  | 0, z, i, k, z', i', k', h => by
    cases h
    exact ⟨⟨rfl, rfl, fun _ => rfl, fun _ => rfl⟩, rfl, Nat.le_refl _, Nat.le_refl _⟩
  | left + 1, z, i, k, z', i', k', h => by
    rcases mergeBuddy_succ h with ⟨e, -⟩ | ⟨-, -, h⟩
    · cases e
      exact ⟨⟨rfl, rfl, fun _ => rfl, fun _ => rfl⟩, rfl, Nat.le_refl _, by omega⟩
    · obtain ⟨hf, hp, h₁, h₂⟩ := mergeBuddy_frame left _ _ _ h
      exact ⟨(z.unlink_frame _ _).trans hf, hp, by omega, by omega⟩

theorem BuddyRep.merge (hr : BuddyRep F z fl (insert (i, k) H)) (hH : (i, k) ∉ H)
    (hsz : i ^^^ 2 ^ k < z.size) (hb : pageIsBuddy (z.mempage (i ^^^ 2 ^ k)) k = true) :
    ∃ xs ys, k < maxOrder ∧ fl k = xs ++ (i ^^^ 2 ^ k) :: ys ∧
      BuddyRep F (z.unlink (i ^^^ 2 ^ k) k) (update fl k (xs ++ ys)) (insert (i &&& (i ^^^ 2 ^ k), k + 1) H) ∧
      (i &&& (i ^^^ 2 ^ k), k + 1) ∉ H := by
  obtain ⟨hk, hm⟩ := hr.mem_of_isBuddy hsz hb
  obtain ⟨xs, ys, hf⟩ := append_of_mem hm
  have hb' : (i ^^^ 2 ^ k, k) ∉ H := fun e => hr.notHeld _ ⟨hk, hm⟩ (.inr e)
  exact ⟨xs, ys, hk, hf, (hr.unlink hk xs ys hf).join hH hb'⟩

theorem mergeBuddy_rep : ∀ (left : Nat) {z : Zone} {fl : Nat → List Nat} {i k : Nat} {z' : Zone} {i' k' : Nat},
    BuddyRep F z fl (insert (i, k) H) → (i, k) ∉ H →
    mergeBuddy left z i k = some (z', i', k') →
    ∃ fl', BuddyRep F z' fl' (insert (i', k') H) ∧ (i', k') ∉ H ∧
      freeCount fl' + 2 ^ k' = freeCount fl + 2 ^ k ∧ freeSet fl' ⊆ freeSet fl
  | 0, z, fl, i, k, z', i', k', hr, hH, h => by
    cases h
    exact ⟨fl, hr, hH, rfl, subset_rfl⟩
  | left + 1, z, fl, i, k, z', i', k', hr, hH, h => by
    rcases mergeBuddy_succ h with ⟨e, -⟩ | ⟨hsz, hb, h⟩
    · cases e
      exact ⟨fl, hr, hH, rfl, subset_rfl⟩
    · obtain ⟨xs, ys, hk, hf, hj, hjH⟩ := hr.merge hH hsz hb
      obtain ⟨fl', hr', hH', hc, hsub⟩ := mergeBuddy_rep left hj hjH h
      refine ⟨fl', hr', hH', ?_, hsub.trans (freeSet_remove xs ys hf)⟩
      have := freeCount_remove hk xs ys hf
      rw [Nat.pow_succ] at hc; omega

theorem freeBuddy_cases {z z' : Zone} (h : z.freeBuddy i k = some z') : k < maxOrder ∧ ∃ z₁ i₁ k₁,
    mergeBuddy (maxOrder - 1 - k) { z with freePages := wrap (z.freePages + 2 ^ k) } i k = some (z₁, i₁, k₁) ∧
      z' = z₁.link i₁ k₁ := by
  unfold freeBuddy at h
  split at h
  · cases h
  · next hk =>
    obtain ⟨⟨z₁, i₁, k₁⟩, hm, rfl⟩ := map_eq_some_iff.mp h
    exact ⟨Nat.not_le.mp hk, z₁, i₁, k₁, hm, rfl⟩

theorem BuddyRep.take {b : Block} (hr : BuddyRep F z fl H) (hb : b ∈ H) (n : Nat) :
    BuddyRep F { z with freePages := n } fl (insert b (H \ {b})) := by
  rw [Set.insert_sdiff_singleton, Set.insert_eq_of_mem hb]
  exact { hr with }

theorem freeBuddy_spec {z z' : Zone} (hr : BuddyRep F z fl H)
    (hfp : z.freePages = freeCount fl) (hi : (i, k) ∈ H) (h : z.freeBuddy i k = some z') :
    ∃ fl', BuddyRep F z' fl' (H \ {(i, k)}) ∧ z'.freePages = freeCount fl' ∧ z.Frame z' := by
  obtain ⟨hk, z₁, i₁, k₁, hm, rfl⟩ := freeBuddy_cases h
  obtain ⟨hfr, hfp₁, _, hk₁⟩ := mergeBuddy_frame _ _ _ _ hm
  obtain ⟨fl₁, hr₁, hH₁, hc, -⟩ := mergeBuddy_rep _ (hr.take hi _) (by simp) hm
  have hk₁' : k₁ < maxOrder := by omega
  have hl := hr₁.link hk₁' hH₁
  refine ⟨_, hl, ?_, ?_⟩
  · show z₁.freePages = _
    rw [hfp₁, freeCount_cons fl₁ hk₁']
    show wrap (z.freePages + 2 ^ k) = _
    have h₁ := hl.freeCount_le
    have h₂ := hl.size_lt
    rw [freeCount_cons fl₁ hk₁'] at h₁
    rw [hfp, wrap_of_lt (by omega)]; omega
  · have := hfr.trans (z₁.link_frame i₁ k₁)
    exact ⟨this.size, this.pfn, this.nref, this.flags⟩

def RunsAligned (F : Set Nat) (pfn : Nat) : Prop :=
  ∀ k < maxOrder, ∀ j, 2 ^ k ∣ j → (∀ p, j ≤ p → p < j + 2 ^ k → p ∈ F) → 2 ^ k ∣ pfn

theorem BuddyRep.pfn_dvd {b : Block} (hr : BuddyRep F z fl H) (hb : b ∈ freeSet fl ∪ H)
    (hk : b.2 < maxOrder) {pfn : Nat} (hp : RunsAligned F pfn) : 2 ^ b.2 ∣ pfn :=
  hp b.2 hk b.1 (hr.tiling.aligned b hb) fun _ h₁ h₂ => hr.tiling.subset hb h₁ h₂

/-- Then no assertion of `_free_buddy` fails. -/
theorem mergeBuddy_isSome : ∀ (left : Nat) {z : Zone} {fl : Nat → List Nat} {i k : Nat},
    BuddyRep F z fl (insert (i, k) H) → (i, k) ∉ H → k + left < maxOrder → RunsAligned F z.pfn →
    (mergeBuddy left z i k).isSome
  | 0, _, _, _, _, _, _, _, _ => rfl
  | left + 1, z, fl, i, k, hr, hH, hk, hp => by
    simp only [mergeBuddy]
    have hin : ((i, k) : Block) ∈ freeSet fl ∪ insert (i, k) H := .inr (Set.mem_insert _ _)
    have hal : 2 ^ k ∣ i := hr.tiling.aligned (i, k) hin
    have hbuddy : 2 ^ k ∣ i ^^^ 2 ^ k := by
      rcases buddy_cases hal with ⟨hx, _, _⟩ | ⟨hx, _, _⟩
      · rw [hx]; exact (Nat.dvd_add_right hal).mpr (Nat.dvd_refl _)
      · exact (Nat.dvd_add_left (Nat.dvd_refl _)).mp (by rw [hx]; exact hal)
    have hlt : k < maxOrder := Nat.lt_of_le_of_lt (Nat.le_add_right _ _) hk
    have hpfn : 2 ^ k ∣ z.pfn := hr.pfn_dvd hin hlt hp
    split
    · rfl
    rename_i hsz
    rw [if_neg (by simpa using Nat.mod_eq_zero_of_dvd ((Nat.dvd_add_right hpfn).mpr hbuddy))]
    split
    · rename_i hb
      obtain ⟨xs, ys, -, -, hj, hjH⟩ := hr.merge hH (by omega) hb
      exact mergeBuddy_isSome left hj hjH (by omega) hp
    · rfl

theorem freeBuddy_isSome (hr : BuddyRep F z fl H)
    (hi : (i, k) ∈ H) (hk : k < maxOrder) (hp : RunsAligned F z.pfn) : (z.freeBuddy i k).isSome := by
  unfold freeBuddy
  rw [if_neg (by omega), isSome_map]
  exact mergeBuddy_isSome _ (hr.take hi _) (by simp) (by omega) hp

end

/-! ## `free_area_init` -/

def zoneFree (z : Zone) : Set Nat := {p | p < z.size ∧ (z.mempage p).flags &&& pgFree ≠ 0}

def pendingFrom (F : Set Nat) (n : Nat) : Set Block := {b | b.2 = 0 ∧ n ≤ b.1 ∧ b.1 ∈ F}

theorem initFreeLists_rings (z : Zone) :
    Rings z.initFreeLists.links (· < maxOrder) ZNode.head (List.map ZNode.page ∘ fun _ => []) := by
  refine ⟨fun k hk => ?_, fun k _ => nodup_singleton _, fun k k' _ _ hne => ?_⟩
  · exact ring_nil.mpr (Links.foldl_initListHead ZNode.head _ _ _ (.inr ⟨k, mem_range.mpr hk, rfl⟩))
  · simpa using fun e => hne e.symm

theorem freeCount_nil : freeCount (fun _ => []) = 0 := by
  unfold freeCount; simp

theorem initFreeLists_rep {z : Zone} (hz : ZoneFresh z) :
    BuddyRep (zoneFree z) z.initFreeLists (fun _ => []) (pendingFrom (zoneFree z) 0) := by
  have hfree : freeSet (fun _ => []) = ∅ := by ext b; simp [freeSet]
  refine ⟨initFreeLists_rings z, fun k hk => hz.nfree k hk, fun k _ i hi => ?_, fun i hi _ => hz.order i hi,
    ⟨?_, fun p => ?_, ?_⟩, fun b hb => ?_, fun p hp => hp.1, hz.size_lt⟩
  · cases hi
  · rintro b (hb | ⟨hb, _⟩)
    · rw [hfree] at hb; cases hb
    · rw [hb]; exact Nat.one_dvd _
  · constructor
    · intro hp
      exact ⟨(p, 0), .inr ⟨rfl, Nat.zero_le _, hp⟩, Nat.le_refl _, Nat.lt_succ_self _⟩
    · rintro ⟨⟨j, m⟩, hb | ⟨hb, _, hm⟩, h₁, h₂⟩
      · rw [hfree] at hb; cases hb
      · simp only at hb hm h₁ h₂
        subst hb
        obtain rfl : p = j := by omega
        exact hm
  · rintro ⟨j, m⟩ (hb | ⟨hb, _⟩) ⟨j', m'⟩ (hc | ⟨hc, _⟩) hne
    · rw [hfree] at hb; cases hb
    · rw [hfree] at hb; cases hb
    · rw [hfree] at hc; cases hc
    · simp only at hb hc
      subst hb hc
      simp only [Block.Apart, ne_eq, Prod.mk.injEq, and_true, Nat.pow_zero] at hne ⊢
      omega
  · rw [hfree] at hb; cases hb

structure InitInv (z₀ : Zone) (n : Nat) (z : Zone) (fl : Nat → List Nat) : Prop where
  rep : BuddyRep (zoneFree z₀) z fl (pendingFrom (zoneFree z₀) n)
  freePages : z.freePages = freeCount fl
  frame : z₀.initFreeLists.Frame z

theorem pendingFrom_succ (F : Set Nat) (n : Nat) :
    pendingFrom F n \ {(n, 0)} = pendingFrom F (n + 1) := by
  ext ⟨i, k⟩
  simp only [pendingFrom, Set.mem_sdiff, Set.mem_ofPred_eq, Set.mem_singleton_iff, Prod.mk.injEq]
  refine ⟨fun ⟨⟨a, b, c⟩, d⟩ => ⟨a, ?_, c⟩, fun ⟨a, b, c⟩ => ⟨⟨a, by omega, c⟩, by omega⟩⟩
  omega

theorem pendingFrom_skip {F : Set Nat} {n : Nat} (h : n ∉ F) : pendingFrom F n = pendingFrom F (n + 1) := by
  ext ⟨i, k⟩
  simp only [pendingFrom, Set.mem_ofPred_eq]
  refine ⟨fun ⟨a, b, c⟩ => ⟨a, ?_, c⟩, fun ⟨a, b, c⟩ => ⟨a, by omega, c⟩⟩
  rcases Nat.lt_or_eq_of_le b with h' | rfl
  · exact h'
  · exact absurd c h

/-- A page still to be freed has order `-1`, so the test of `free_area_init` is
that of its flag. -/
theorem freePage_eq {z₀ z : Zone} {n : Nat} {fl : Nat → List Nat} (hi : InitInv z₀ n z fl) (hn : n < z₀.size) :
    (n ∈ zoneFree z₀ ∧ z.freePage n = z.freeBuddy n 0) ∨ (n ∉ zoneFree z₀ ∧ z.freePage n = some z) := by
  have hfl : (z.mempage n).flags = (z₀.mempage n).flags := hi.frame.flags n
  by_cases hm : n ∈ zoneFree z₀
  · left
    have hord : (z.mempage n).order = -1 :=
      hi.rep.unlisted n (hi.rep.inside n hm) fun k hk =>
        hi.rep.held_not_listed ⟨rfl, Nat.le_refl n, hm⟩ hk
    exact ⟨hm, if_pos ⟨hord, by rw [hfl]; exact hm.2⟩⟩
  · right
    exact ⟨hm, if_neg fun h => hm ⟨hn, by rw [← hfl]; exact h.2⟩⟩

theorem freePage_inv {z₀ z z' : Zone} {n : Nat} {fl : Nat → List Nat} (hi : InitInv z₀ n z fl)
    (hn : n < z₀.size) (h : z.freePage n = some z') : ∃ fl', InitInv z₀ (n + 1) z' fl' := by
  rcases freePage_eq hi hn with ⟨hm, he⟩ | ⟨hm, he⟩
  · rw [he] at h
    obtain ⟨fl', hr, hfp, hfr⟩ := freeBuddy_spec hi.rep hi.freePages ⟨rfl, Nat.le_refl n, hm⟩ h
    rw [pendingFrom_succ] at hr
    exact ⟨fl', hr, hfp, hi.frame.trans hfr⟩
  · rw [he, some.injEq] at h
    subst h
    exact ⟨fl, pendingFrom_skip hm ▸ hi.rep, hi.freePages, hi.frame⟩

theorem foldlM_freePage {z₀ : Zone} (hz : ZoneFresh z₀) : ∀ (n : Nat), n ≤ z₀.size → ∀ {z : Zone},
    (List.range n).foldlM freePage z₀.initFreeLists = some z → ∃ fl, InitInv z₀ n z fl
  | 0, _, z, h => by
    simp only [range_zero, foldlM_nil, Option.pure_def, some.injEq] at h
    subst h
    exact ⟨_, initFreeLists_rep hz, hz.freePages.trans freeCount_nil.symm, ⟨rfl, rfl, fun _ => rfl, fun _ => rfl⟩⟩
  | n + 1, hn, z, h => by
    rw [List.range_succ] at h
    obtain ⟨z₁, h₁, h₂⟩ := foldlM_snoc.mp h
    obtain ⟨fl, hi⟩ := foldlM_freePage hz n (by omega) h₁
    exact freePage_inv hi (by omega) h₂

/-- What each `free_buddy` of the loop keeps holds at its end. -/
theorem foldlM_freePage_induct {z₀ : Zone} {P : Zone → Prop} (hz : ZoneFresh z₀) (h₀ : P z₀.initFreeLists)
    (hstep : ∀ {n : Nat} {z z' : Zone} {fl : Nat → List Nat}, InitInv z₀ n z fl → n ∈ zoneFree z₀ →
      z.freeBuddy n 0 = some z' → P z → P z') :
    ∀ (n : Nat), n ≤ z₀.size → ∀ {z : Zone}, (List.range n).foldlM freePage z₀.initFreeLists = some z → P z := by
  intro n
  induction n with
  | zero =>
    intro _ z h
    simp only [range_zero, foldlM_nil, Option.pure_def, some.injEq] at h
    exact h ▸ h₀
  | succ n ih =>
    intro hn z h
    rw [List.range_succ] at h
    obtain ⟨z₁, h₁, h₂⟩ := foldlM_snoc.mp h
    obtain ⟨fl, hi⟩ := foldlM_freePage hz n (by omega) h₁
    rcases freePage_eq hi (by omega) with ⟨hfree, he⟩ | ⟨-, he⟩
    · rw [he] at h₂
      exact hstep hi hfree h₂ (ih (by omega) h₁)
    · rw [he, some.injEq] at h₂
      exact h₂ ▸ ih (by omega) h₁

theorem freeAreaInit_rep {z₀ z : Zone} (hz : ZoneFresh z₀) (h : z₀.freeAreaInit = some z) :
    ∃ fl, BuddyRep (zoneFree z₀) z fl ∅ ∧ z.freePages = freeCount fl ∧ z₀.initFreeLists.Frame z := by
  obtain ⟨fl, hi⟩ := foldlM_freePage hz _ (Nat.le_refl _) h
  refine ⟨fl, ?_, hi.freePages, hi.frame⟩
  have : pendingFrom (zoneFree z₀) z₀.size = ∅ := by
    ext b
    simp only [pendingFrom, zoneFree, Set.mem_ofPred_eq, Set.mem_empty_iff_false, iff_false]
    omega
  exact this ▸ hi.rep

theorem freeAreaInit_isSome {z₀ : Zone} (hz : ZoneFresh z₀) (hp : RunsAligned (zoneFree z₀) z₀.pfn) :
    z₀.freeAreaInit.isSome := by
  have key : ∀ n ≤ z₀.size, ((List.range n).foldlM freePage z₀.initFreeLists).isSome := by
    intro n
    induction n with
    | zero => intro _; rfl
    | succ n ih =>
      intro hn
      obtain ⟨z, h⟩ := isSome_iff_exists.mp (ih (by omega))
      obtain ⟨fl, hi⟩ := foldlM_freePage hz n (by omega) h
      simp only [List.range_succ, foldlM_append, foldlM_cons, foldlM_nil, bind_pure, h]
      show (z.freePage n).isSome
      rcases freePage_eq hi (by omega) with ⟨hm, he⟩ | ⟨_, he⟩
      · rw [he]
        have hpfn : z.pfn = z₀.pfn := hi.frame.pfn
        exact freeBuddy_isSome hi.rep ⟨rfl, Nat.le_refl n, hm⟩ (by decide) (hpfn.symm ▸ hp)
      · rw [he]; rfl
  exact key _ (Nat.le_refl _)

/-! ## Runs -/

theorem zoneStep_rep {F : Set Nat} {s s' : Zone × Set Block} (h : ZoneStep s s')
    (hi : ∃ fl, BuddyRep F s.1 fl s.2 ∧ s.1.freePages = freeCount fl) :
    (∃ fl, BuddyRep F s'.1 fl s'.2 ∧ s'.1.freePages = freeCount fl) ∧ s'.1.size = s.1.size ∧
    s'.1.pfn = s.1.pfn := by
  obtain ⟨fl, hr, hfp⟩ := hi
  cases h with
  | alloc ho h =>
    have := allocBuddy_spec hr hfp ho
    rw [h] at this
    cases this with
    | block fl' hr' _ hfp' hfr => exact ⟨⟨fl', hr', hfp'⟩, hfr.size, hfr.pfn⟩
  | allocNone ho h =>
    have := allocBuddy_spec hr hfp ho
    rw [h] at this
    cases this with
    | none _ => exact ⟨⟨fl, hr, hfp⟩, rfl, rfl⟩
  | free hm _ h =>
    obtain ⟨fl', hr', hfp', hfr⟩ := freeBuddy_spec hr hfp hm h
    exact ⟨⟨fl', hr', hfp'⟩, hfr.size, hfr.pfn⟩
  | @ref z H i order p n _ _ _ =>
    have hord : ∀ j, (update z.mempage p { z.mempage p with nref := n } j).order =
        (z.mempage j).order := by
      intro j
      by_cases e : j = p
      · subst e; simp
      · simp [e]
    refine ⟨⟨fl, { hr with listed := fun k hk i hi => ?_, unlisted := fun i hi hno => ?_ }, hfp⟩, rfl, rfl⟩
    · exact (hord i).trans (hr.listed k hk i hi)
    · exact (hord i).trans (hr.unlisted i hi hno)

theorem zoneRun_rep {F : Set Nat} {s s' : Zone × Set Block} (hrun : ReflTransGen ZoneStep s s')
    (hi : ∃ fl, BuddyRep F s.1 fl s.2 ∧ s.1.freePages = freeCount fl) :
    (∃ fl, BuddyRep F s'.1 fl s'.2 ∧ s'.1.freePages = freeCount fl) ∧ s'.1.size = s.1.size ∧
    s'.1.pfn = s.1.pfn := by
  induction hrun with
  | refl => exact ⟨hi, rfl, rfl⟩
  | tail _ hstep ih =>
    obtain ⟨hrep, hsize, hpfn⟩ := zoneStep_rep hstep ih.1
    exact ⟨hrep, hsize.trans ih.2.1, hpfn.trans ih.2.2⟩

/-- The representation invariant of a zone that started as `z₀`: `fl k` is free
list `k`, `H` the blocks handed out. -/
structure BuddyInv (z₀ z : Zone) (H : Set Block) (fl : Nat → List Nat) : Prop where
  list : ∀ k < maxOrder, Ring z.links.next z.links.prev (.head k) ((fl k).map .page) ∧ (fl k).Nodup
  cover : ∀ p, (p < z₀.size ∧ (z₀.mempage p).flags &&& pgFree ≠ 0) ↔
    ∃ b, (b ∈ freeSet fl ∨ b ∈ H) ∧ b.1 ≤ p ∧ p < b.1 + 2 ^ b.2
  apart : ∀ b c, (b ∈ freeSet fl ∨ b ∈ H) → (c ∈ freeSet fl ∨ c ∈ H) → b ≠ c → b.Apart c
  notBoth : ∀ b, ¬ (b ∈ freeSet fl ∧ b ∈ H)
  aligned : ∀ k < maxOrder, ∀ i ∈ fl k, 2 ^ k ∣ i ∧ i + 2 ^ k ≤ z.size
  order : ∀ i < z.size, ∀ k : Nat, (z.mempage i).order = k ↔ k < maxOrder ∧ i ∈ fl k
  nfree : ∀ k < maxOrder, z.nfree k = (fl k).length
  freePages : z.freePages = ∑ k ∈ Finset.range maxOrder, (fl k).length * 2 ^ k
  size : z.size = z₀.size

theorem BuddyRep.inv {z₀ z : Zone} {H : Set Block} {fl : Nat → List Nat}
    (hr : BuddyRep (zoneFree z₀) z fl H) (hfp : z.freePages = freeCount fl) (hsz : z.size = z₀.size) :
    BuddyInv z₀ z H fl where
  list k hk := ⟨hr.rings.ring k hk, hr.nodup hk⟩
  cover := hr.tiling.cover
  apart b c hb hc := hr.tiling.apart b hb c hc
  notBoth b hb := hr.notHeld b hb.1 hb.2
  aligned k hk i hi :=
    have hb : ((i, k) : Block) ∈ freeSet fl ∪ H := .inl ⟨hk, hi⟩
    ⟨hr.tiling.aligned _ hb, hr.lt_size hb⟩
  order _ hi _ := hr.order_iff hi
  nfree := hr.nfree
  freePages := hfp
  size := hsz

/-- **The buddy invariant.** It holds after `free_area_init` and after every
sequence of calls that follows. -/
theorem buddy_invariant {z₀ z z' : Zone} {H : Set Block} (hz : ZoneFresh z₀) (hi : z₀.freeAreaInit = some z)
    (hrun : ReflTransGen ZoneStep (z, ∅) (z', H)) : ∃ fl, BuddyInv z₀ z' H fl := by
  obtain ⟨fl, hr, hfp, hfr⟩ := freeAreaInit_rep hz hi
  obtain ⟨⟨fl', hr', hfp'⟩, hsz, -⟩ := zoneRun_rep hrun ⟨fl, hr, hfp⟩
  exact ⟨fl', hr'.inv hfp' (hsz.trans hfr.size)⟩

def tinyZone : Zone where
  freePages := 0
  size := 4
  pfn := 0
  mempage _ := ⟨0, pgFree, -1⟩
  links := ⟨id, id⟩
  nfree _ := 0

theorem tinyZone_fresh : ZoneFresh tinyZone := by
  refine ⟨by decide, rfl, fun _ _ => rfl, fun _ _ => rfl, fun _ _ => rfl⟩

theorem buddy_invariant_tiny : ∃ z z' z'', tinyZone.freeAreaInit = some z ∧
    z.allocBuddy 0 = some (some 0, z') ∧ z'.freeBuddy 0 0 = some z'' ∧
    ∃ fl, BuddyInv tinyZone z'' (insert (0, 0) ∅ \ {(0, 0)}) fl := by
  have h : (tinyZone.freeAreaInit.bind fun z => (z.allocBuddy 0).bind fun r => (r.2.freeBuddy 0 0).bind
      fun _ => some (r.1, (r.2.mempage 0).nref)) = some (some 0, 0) := by decide
  simp only [bind_eq_some_iff, some.injEq, Prod.mk.injEq] at h
  obtain ⟨z, hz, ⟨_, z'⟩, ha, z'', hf, rfl, hn⟩ := h
  refine ⟨z, z', z'', hz, ha, hf, buddy_invariant tinyZone_fresh hz ?_⟩
  refine .tail (.single (.alloc (by decide) ha)) (.free (Set.mem_insert _ _) (fun p _ hp => ?_) hf)
  obtain rfl : p = 0 := by omega
  exact hn

end MiniOS
