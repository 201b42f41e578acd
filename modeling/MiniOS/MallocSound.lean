import MiniOS.Malloc
import Mathlib.Data.List.Chain

/-!
# The user heap stays partitioned

Headers of listed chunks never overlap, so every write to a header or to the list head is
seen at its own word only. The operations are followed on the list of chunks: a chunk is
split, two neighbours become one, a chunk is appended.
-/

namespace MiniOS

open List Relation

/-! ## Headers -/

structure Spaced (fl : Nat) (cs : List Chunk) : Prop where
  head : fl < 2 ^ 32
  above : ∀ c ∈ cs, fl + 8 ≤ c.addr
  gaps : cs.Pairwise fun c d => c.addr + 16 ≤ d.addr
  below : ∀ c ∈ cs, c.addr + 16 ≤ 2 ^ 32

def Outside (fl : Nat) (cs : List Chunk) (x : Nat) : Prop :=
  (x < fl ∨ fl + 8 ≤ x) ∧ ∀ c ∈ cs, x < c.addr ∨ c.addr + 16 ≤ x

def nodes (cs : List Chunk) : List Nat := cs.map fun c => listOf c.addr

section
variable {m m' : Mem} {fl lo hi x v : Nat} {cs pre post : List Chunk} {c d n : Chunk} {mc size : Nat}
    {cs' : List Chunk} {b : Chunk}

theorem mem_nodes {p : Nat} : p ∈ nodes cs ↔ ∃ c ∈ cs, listOf c.addr = p := List.mem_map

namespace Spaced

theorem spread (h : Spaced fl cs) : Mem.Spread (fl :: nodes cs) := by
  refine .cons ?_ ?_
  · intro p hp
    obtain ⟨c, hc, rfl⟩ := mem_nodes.mp hp
    have := h.above c hc
    exact .inl (by rw [listOf]; omega)
  · refine pairwise_map.mpr (h.gaps.imp ?_)
    intro c d hcd
    exact .inl (by rw [listOf, listOf]; omega)

theorem node_lt (h : Spaced fl cs) {p : Nat} (hp : p ∈ fl :: nodes cs) : p < 2 ^ 32 := by
  obtain rfl | hp := mem_cons.mp hp
  · exact h.head
  · obtain ⟨c, hc, rfl⟩ := mem_nodes.mp hp
    have := h.below c hc
    rw [listOf]
    omega

theorem apart (h : Spaced fl (pre ++ c :: post)) (hd : d ∈ pre ++ post) :
    d.addr + 16 ≤ c.addr ∨ c.addr + 16 ≤ d.addr := by
  obtain ⟨-, hrest, hleft⟩ := pairwise_append.mp h.gaps
  obtain hd | hd := mem_append.mp hd
  · exact .inl (hleft d hd c (mem_cons_self ..))
  · exact .inr (rel_of_pairwise_cons hrest hd)

theorem eq_of_addr (h : Spaced fl cs) (hc : c ∈ cs) (hd : d ∈ cs) (he : c.addr = d.addr) : c = d := by
  obtain ⟨pre, post, rfl⟩ := append_of_mem hc
  simp only [mem_append, mem_cons] at hd
  obtain hd | rfl | hd := hd
  · have := h.apart (mem_append_left post hd)
    omega
  · rfl
  · have := h.apart (mem_append_right pre hd)
    omega

end Spaced

theorem mem_middle : d ∈ pre ++ c :: post ↔ d = c ∨ d ∈ pre ++ post := by
  simp only [mem_append, mem_cons]
  tauto

namespace Listed

theorem frame (h : Listed m fl cs) (hx : ∀ x, ¬ Outside fl cs x → m' x = m x) : Listed m' fl cs := by
  have hword : ∀ p, (∀ x, p ≤ x → x < p + 4 → ¬ Outside fl cs x) → ld32 m' p = ld32 m p :=
    fun p hp => ld32_congr fun x h₁ h₂ => hx x (hp x h₁ h₂)
  have hhead : ∀ k, k ≤ 4 → ld32 m' (fl + k) = ld32 m (fl + k) := by
    intro k hk
    apply hword
    rintro x h₁ h₂ ⟨hout, -⟩
    omega
  have hhdr : ∀ c ∈ cs, ∀ k, k ≤ 12 → ld32 m' (c.addr + k) = ld32 m (c.addr + k) := by
    intro c hc k hk
    apply hword
    rintro x h₁ h₂ ⟨-, hout⟩
    have := hout c hc
    omega
  refine ⟨h.ring.congr ?_ ?_, ?_, ?_⟩
  · intro p hp
    obtain rfl | hp := mem_cons.mp hp
    · exact hhead 0 (by decide)
    · obtain ⟨c, hc, rfl⟩ := mem_nodes.mp hp
      exact hhdr c hc 8 (by decide)
  · intro p hp
    obtain rfl | hp := mem_cons.mp hp
    · exact hhead 4 (by decide)
    · obtain ⟨c, hc, rfl⟩ := mem_nodes.mp hp
      exact hhdr c hc 12 (by decide)
  · intro c hc
    exact (hhdr c hc 0 (by decide)).trans (h.size c hc)
  · intro c hc
    exact (hhdr c hc 4 (by decide)).trans (h.flag c hc)

theorem rewrite (h : Listed m fl (pre ++ c :: post)) (hs : Spaced fl (pre ++ c :: post))
    (hx : ∀ x, x < c.addr ∨ c.addr + 8 ≤ x → m' x = m x) {c' : Chunk} (ha : c'.addr = c.addr)
    (hsize : m'.size c.addr = c'.size) (hflag : m'.flag c.addr = c'.flag) : Listed m' fl (pre ++ c' :: post) := by
  have hother : ∀ d ∈ pre ++ post, ∀ k, k ≤ 12 → ld32 m' (d.addr + k) = ld32 m (d.addr + k) := by
    intro d hd k hk
    have := hs.apart hd
    exact ld32_congr fun x _ _ => hx x (by omega)
  have hself : ∀ k, 8 ≤ k → ld32 m' (c.addr + k) = ld32 m (c.addr + k) :=
    fun k hk => ld32_congr fun x _ _ => hx x (by omega)
  have hhead : ∀ k, k ≤ 4 → ld32 m' (fl + k) = ld32 m (fl + k) := by
    intro k hk
    have := hs.above c (mem_middle.mpr (.inl rfl))
    exact ld32_congr fun x _ _ => hx x (by omega)
  have hnode : ∀ p ∈ nodes (pre ++ c :: post), ld32 m' p = ld32 m p ∧ ld32 m' (p + 4) = ld32 m (p + 4) := by
    intro p hp
    obtain ⟨d, hd, rfl⟩ := mem_nodes.mp hp
    obtain rfl | hd := mem_middle.mp hd
    · exact ⟨hself 8 (by decide), hself 12 (by decide)⟩
    · exact ⟨hother d hd 8 (by decide), hother d hd 12 (by decide)⟩
  have hring : Ring m'.next m'.prev fl (nodes (pre ++ c :: post)) := by
    apply h.ring.congr
    · intro p hp
      obtain rfl | hp := mem_cons.mp hp
      · exact hhead 0 (by decide)
      · exact (hnode p hp).1
    · intro p hp
      obtain rfl | hp := mem_cons.mp hp
      · exact hhead 4 (by decide)
      · exact (hnode p hp).2
  refine ⟨?_, ?_, ?_⟩
  · have hsame : nodes (pre ++ c' :: post) = nodes (pre ++ c :: post) := by simp [nodes, ha]
    rw [← hsame] at hring
    exact hring
  · intro d hd
    obtain rfl | hd := mem_middle.mp hd
    · rw [ha]
      exact hsize
    · exact (hother d hd 0 (by decide)).trans (h.size d (mem_middle.mpr (.inr hd)))
  · intro d hd
    obtain rfl | hd := mem_middle.mp hd
    · rw [ha]
      exact hflag
    · exact (hother d hd 4 (by decide)).trans (h.flag d (mem_middle.mpr (.inr hd)))

theorem setSize (h : Listed m fl (pre ++ c :: post)) (hs : Spaced fl (pre ++ c :: post)) (hv : v < 2 ^ 32) :
    Listed (m.setSize c.addr v) fl (pre ++ { c with size := v } :: post) := by
  apply h.rewrite hs
  · intro x hx
    exact st32_apart _ _ (by omega)
  · rfl
  · exact ld32_st32 _ _ hv
  · exact (ld32_st32_apart _ _ (by omega)).trans (h.flag c (mem_middle.mpr (.inl rfl)))

theorem setFlag (h : Listed m fl (pre ++ c :: post)) (hs : Spaced fl (pre ++ c :: post)) (hv : v < 2 ^ 32) :
    Listed (m.setFlag c.addr v) fl (pre ++ { c with flag := v } :: post) := by
  apply h.rewrite hs
  · intro x hx
    exact st32_apart _ _ (by omega)
  · rfl
  · exact (ld32_st32_apart _ _ (by omega)).trans (h.size c (mem_middle.mpr (.inl rfl)))
  · exact ld32_st32 _ _ hv

theorem of_ring {L cs : List Chunk} (hs : Spaced fl L) (hsub : cs ⊆ L) (hsize : ∀ c ∈ cs, m.size c.addr = c.size)
    (hflag : ∀ c ∈ cs, m.flag c.addr = c.flag)
    (hx : ∀ x, (∀ p ∈ fl :: nodes L, x < p ∨ p + 8 ≤ x) → m' x = m x)
    (hr : Ring m'.next m'.prev fl (nodes cs)) : Listed m' fl cs := by
  have hword : ∀ c ∈ L, ∀ k, k ≤ 4 → ld32 m' (c.addr + k) = ld32 m (c.addr + k) := by
    intro c hc k hk
    apply ld32_congr
    intro x _ _
    apply hx
    intro p hp
    obtain rfl | hp := mem_cons.mp hp
    · have := hs.above c hc
      omega
    · obtain ⟨d, hd, rfl⟩ := mem_nodes.mp hp
      rw [listOf]
      obtain ⟨pre, post, rfl⟩ := append_of_mem hc
      obtain rfl | hd := mem_middle.mp hd
      · omega
      · have := hs.apart hd
        omega
  refine ⟨hr, ?_, ?_⟩
  · intro c hc
    exact (hword c (hsub hc) 0 (by decide)).trans (hsize c hc)
  · intro c hc
    exact (hword c (hsub hc) 4 (by decide)).trans (hflag c hc)

end Listed

theorem Outside.nodes {L : List Chunk} (h : Outside fl L x) : ∀ p ∈ fl :: nodes L, x < p ∨ p + 8 ≤ x := by
  intro p hp
  obtain rfl | hp := mem_cons.mp hp
  · exact h.1
  · obtain ⟨c, hc, rfl⟩ := mem_nodes.mp hp
    have := h.2 c hc
    rw [listOf]
    omega

theorem nodes_append : nodes (pre ++ post) = nodes pre ++ nodes post := map_append

theorem nodes_middle : nodes (pre ++ c :: post) = nodes pre ++ listOf c.addr :: nodes post := map_append

namespace Listed

theorem add (h : Listed m fl (pre ++ post)) (hs : Spaced fl (pre ++ n :: post)) (hsize : m.size n.addr = n.size)
    (hflag : m.flag n.addr = n.flag) {a b : Nat} (ha : (fl :: nodes pre).getLast? = some a)
    (hb : (nodes post ++ [fl]).head? = some b) :
    Listed (m.rawListAdd (listOf n.addr) a b) fl (pre ++ n :: post) ∧
      ∀ x, Outside fl (pre ++ n :: post) x → m.rawListAdd (listOf n.addr) a b x = m x := by
  have hperm : (fl :: nodes (pre ++ n :: post)).Perm (listOf n.addr :: fl :: (nodes pre ++ nodes post)) := by
    rw [nodes_middle]
    exact (perm_middle.cons fl).trans (.swap ..)
  have hbytes : ∀ x, (∀ p ∈ fl :: nodes (pre ++ n :: post), x < p ∨ p + 8 ≤ x) →
      m.rawListAdd (listOf n.addr) a b x = m x := by
    intro x hx
    apply Mem.rawListAdd_apart
    · exact hx _ (hperm.symm.subset (mem_cons_self ..))
    · apply hx
      have := mem_of_getLast? ha
      rw [nodes_middle]
      simp only [mem_cons, mem_append] at this ⊢
      tauto
    · apply hx
      have := mem_of_head? hb
      rw [nodes_middle]
      simp only [mem_cons, mem_append, not_mem_nil] at this ⊢
      tauto
  refine ⟨of_ring hs (List.Subset.refl _) ?_ ?_ hbytes ?_, fun x hx => hbytes x hx.nodes⟩
  · intro c hc
    obtain rfl | hc := mem_middle.mp hc
    · exact hsize
    · exact h.size c hc
  · intro c hc
    obtain rfl | hc := mem_middle.mp hc
    · exact hflag
    · exact h.flag c hc
  · have hring := h.ring
    change Ring m.next m.prev fl (nodes (pre ++ post)) at hring
    rw [nodes_append] at hring
    rw [nodes_middle]
    apply Mem.ring_rawListAdd hring _ _ ha hb
    · exact (hperm.pairwise_iff fun h => h.symm).mp hs.spread
    · intro p hp
      exact hs.node_lt (hperm.symm.subset hp)

theorem del (h : Listed m fl (pre ++ c :: post)) (hs : Spaced fl (pre ++ c :: post)) :
    Listed (m.listDel (listOf c.addr)) fl (pre ++ post) ∧
      ∀ x, Outside fl (pre ++ c :: post) x → m.listDel (listOf c.addr) x = m x := by
  have hring := h.ring
  change Ring m.next m.prev fl (nodes (pre ++ c :: post)) at hring
  have hspread := hs.spread
  have hlt := fun p hp => hs.node_lt (p := p) hp
  rw [nodes_middle] at hring hspread hlt
  obtain ⟨ha, hb⟩ := hring.neighbours
  have hbytes : ∀ x, (∀ p ∈ fl :: nodes (pre ++ c :: post), x < p ∨ p + 8 ≤ x) →
      m.listDel (listOf c.addr) x = m x := by
    intro x hx
    rw [nodes_middle] at hx
    apply Mem.listDel_apart
    · exact hx _ (by simp)
    · apply hx
      have := mem_of_getLast? ha
      simp only [mem_cons, mem_append] at this ⊢
      tauto
    · apply hx
      have := mem_of_head? hb
      simp only [mem_cons, mem_append, not_mem_nil] at this ⊢
      tauto
  have hsub : pre ++ post ⊆ pre ++ c :: post := fun d hd => mem_middle.mpr (.inr hd)
  refine ⟨of_ring hs hsub (fun d hd => h.size d (hsub hd)) (fun d hd => h.flag d (hsub hd)) hbytes ?_,
    fun x hx => hbytes x hx.nodes⟩
  rw [nodes_append]
  exact Mem.ring_listDel hring hspread hlt

end Listed

/-! ## The heap as a list of chunks -/

def chunkPacked (lo hi : Nat) (cs : List Chunk) : Prop := Packed Chunk.addr (fun c => sizeofChunk + c.size) lo hi cs

def Held (cs : List Chunk) (x : Nat) : Prop := Covered Chunk.addr (fun c => sizeofChunk + c.size) cs x

theorem chunk_pos (c : Chunk) : 0 < sizeofChunk + c.size := Nat.lt_of_lt_of_le (by decide) (Nat.le_add_right ..)

theorem held_middle {l : List Chunk}
    (h : Held l x ↔ c.addr ≤ x ∧ x < c.addr + (sizeofChunk + c.size)) :
    Held (pre ++ (l ++ post)) x ↔ Held (pre ++ c :: post) x := by
  unfold Held at *
  rw [covered_append, covered_append, covered_append, covered_cons, h]

structure Laid (m : Mem) (fl lo hi : Nat) (cs : List Chunk) : Prop where
  listed : Listed m fl cs
  tiles : chunkTiles lo hi cs
  head : fl + 8 ≤ lo
  top : hi < 2 ^ 32

structure Placed (m : Mem) (fl lo hi : Nat) (cs : List Chunk) : Prop where
  listed : Listed m fl cs
  packed : chunkPacked lo hi cs
  head : fl + 8 ≤ lo
  top : hi < 2 ^ 32

theorem laid_iff : Laid m fl lo hi cs ↔ Placed m fl lo hi cs ∧ ∀ x, lo ≤ x → x < hi → Held cs x := by
  constructor
  · intro h
    obtain ⟨hpacked, hall⟩ := (tiles_iff chunk_pos).mp h.tiles
    exact ⟨⟨h.listed, hpacked, h.head, h.top⟩, hall⟩
  · rintro ⟨h, hall⟩
    exact ⟨h.listed, (tiles_iff chunk_pos).mpr ⟨h.packed, hall⟩, h.head, h.top⟩

theorem chunkPacked.spaced (h : chunkPacked lo hi cs) (hfl : fl + 8 ≤ lo) (hhi : hi < 2 ^ 32) : Spaced fl cs where
  head := by
    have := Packed.le h
    omega
  above c hc := by
    have := (Packed.within h hc).1
    omega
  gaps := (Packed.pairwise h).imp (by simp only [sizeofChunk]; omega)
  below c hc := by
    have := (Packed.within h hc).2
    simp only [sizeofChunk] at this
    omega

theorem chunkPacked.payload_outside (h : chunkPacked lo hi cs) (hfl : fl + 8 ≤ lo) (hd : d ∈ cs)
    (h₁ : d.addr + sizeofChunk ≤ x) (h₂ : x < d.addr + sizeofChunk + d.size) : Outside fl cs x := by
  simp only [sizeofChunk] at h₁ h₂
  constructor
  · have := (Packed.within h hd).1
    omega
  · intro c hc
    obtain ⟨pre, post, rfl⟩ := append_of_mem hd
    obtain ⟨-, hrest, hleft⟩ := pairwise_append.mp (Packed.pairwise h)
    simp only [sizeofChunk] at hrest hleft
    simp only [mem_append, mem_cons] at hc
    obtain hc | rfl | hc := hc
    · have := hleft c hc d (mem_cons_self ..)
      omega
    · omega
    · have := rel_of_pairwise_cons hrest hc
      omega

theorem Placed.spaced (h : Placed m fl lo hi cs) : Spaced fl cs := h.packed.spaced h.head h.top

theorem Spaced.of_addrs (h : Spaced fl cs) (ha : cs'.map Chunk.addr = cs.map Chunk.addr) :
    Spaced fl cs' := by
  have hmem : ∀ {P : Nat → Prop}, (∀ c ∈ cs, P c.addr) → ∀ c ∈ cs', P c.addr := by
    intro P hP c hc
    have : c.addr ∈ cs.map Chunk.addr := ha ▸ List.mem_map_of_mem hc
    obtain ⟨d, hd, he⟩ := List.mem_map.mp this
    exact he ▸ hP d hd
  refine ⟨h.head, hmem h.above, ?_, hmem (P := fun a => a + 16 ≤ 2 ^ 32) h.below⟩
  have hgaps := (pairwise_map (f := Chunk.addr) (R := fun p q => p + 16 ≤ q)).mpr h.gaps
  rw [← ha] at hgaps
  exact pairwise_map.mp hgaps

theorem Outside.of_addrs (h : Outside fl cs x) (ha : cs'.map Chunk.addr ⊆ cs.map Chunk.addr) :
    Outside fl cs' x := by
  refine ⟨h.1, fun c hc => ?_⟩
  obtain ⟨d, hd, he⟩ := List.mem_map.mp (ha (List.mem_map_of_mem hc))
  exact he ▸ h.2 d hd

/-! ## Merging -/

def Chunk.join (b c : Chunk) : Chunk := { b with size := b.size + (c.size + sizeofChunk) }

theorem absorb_spec (h : Placed m fl lo hi (pre ++ b :: c :: post)) :
    Placed (m.absorb b.addr c.addr) fl lo hi (pre ++ b.join c :: post) ∧
      ∀ x, Outside fl (pre ++ b :: c :: post) x → m.absorb b.addr c.addr x = m x := by
  have hs := h.spaced
  obtain ⟨hpre, hgap, hpost⟩ := packed_middle.mp h.packed
  have hb := h.listed.size b (by simp)
  have hc := h.listed.size c (by simp)
  have htop : c.addr + (sizeofChunk + c.size) ≤ hi := hpost.le
  have hmax := h.top
  have hlt : b.size + (c.size + sizeofChunk) < 2 ^ 32 := by
    simp only [sizeofChunk] at *
    omega
  have hsum : wrap (m.size b.addr + (m.size c.addr + sizeofChunk)) = b.size + (c.size + sizeofChunk) := by
    rw [hb, hc]
    exact wrap_of_lt hlt
  have hlist := h.listed.setSize hs hlt
  have hassoc : ∀ b' : Chunk, pre ++ b' :: c :: post = (pre ++ [b']) ++ c :: post := by simp
  have haddr : ∀ v, (pre ++ { b with size := v } :: c :: post).map Chunk.addr =
      (pre ++ b :: c :: post).map Chunk.addr := by simp
  have hs' := hs.of_addrs (haddr (b.size + (c.size + sizeofChunk)))
  rw [hassoc] at hlist hs'
  obtain ⟨hdel, hbytes⟩ := hlist.del hs'
  rw [Mem.absorb, hsum]
  refine ⟨⟨?_, ?_, h.head, h.top⟩, ?_⟩
  · rw [append_assoc] at hdel
    exact hdel
  · refine packed_middle.mpr ⟨hpre, hpost.mono_lo ?_⟩
    simp only [Chunk.join]
    omega
  · intro x hx
    rw [hbytes x ?_]
    · apply st32_apart
      have := hx.2 b (by simp)
      omega
    · rw [← hassoc]
      exact hx.of_addrs (haddr _ ▸ List.Subset.refl _)

theorem held_join (hadj : b.addr + (sizeofChunk + b.size) = c.addr) :
    Held (pre ++ b.join c :: post) x ↔ Held (pre ++ b :: c :: post) x := by
  refine (held_middle (l := [b, c]) ?_).symm
  unfold Held
  rw [covered_cons, covered_cons]
  simp only [Covered, Chunk.join, not_mem_nil, false_and, exists_false, or_false]
  omega

def KeepsInuse (m m' : Mem) (cs cs' : List Chunk) : Prop :=
  ∀ d ∈ cs, d.flag = chunkInuse → d ∈ cs' ∧
    ∀ x, d.addr + sizeofChunk ≤ x → x < d.addr + sizeofChunk + d.size → m' x = m x

theorem KeepsInuse.refl (m : Mem) (cs : List Chunk) : KeepsInuse m m cs cs := fun _ hd _ => ⟨hd, fun _ _ _ => rfl⟩

theorem KeepsInuse.trans {m'' : Mem} {cs' cs'' : List Chunk} (h : KeepsInuse m m' cs cs')
    (h' : KeepsInuse m' m'' cs' cs'') : KeepsInuse m m'' cs cs'' := by
  intro d hd hu
  obtain ⟨hd', hx⟩ := h d hd hu
  obtain ⟨hd'', hx'⟩ := h' d hd' hu
  exact ⟨hd'', fun x h₁ h₂ => (hx' x h₁ h₂).trans (hx x h₁ h₂)⟩

theorem inuse_ne_free : chunkInuse ≠ chunkFree := by decide

structure Rewrites (fl : Nat) (m m' : Mem) (cs cs' : List Chunk) : Prop where
  stay : ∀ d ∈ cs, d.flag = chunkInuse → d ∈ cs'
  bytes : ∀ x, Outside fl cs x → m' x = m x

theorem Rewrites.refl : Rewrites fl m m cs cs := ⟨fun _ hd _ => hd, fun _ _ => rfl⟩

theorem Rewrites.keeps (h : Rewrites fl m m' cs cs') (hl : Placed m fl lo hi cs) :
    KeepsInuse m m' cs cs' := by
  intro d hd hu
  exact ⟨h.stay d hd hu, fun x h₁ h₂ => h.bytes x (hl.packed.payload_outside hl.head hd h₁ h₂)⟩

theorem absorb_rewrites (h : Placed m fl lo hi (pre ++ b :: c :: post)) (hb : b.flag = chunkFree)
    (hc : c.flag = chunkFree) :
    Rewrites fl m (m.absorb b.addr c.addr) (pre ++ b :: c :: post) (pre ++ b.join c :: post) := by
  refine ⟨fun d hd hu => ?_, (absorb_spec h).2⟩
  obtain rfl | hd := mem_middle.mp hd
  · exact absurd (hu.symm.trans hb) inuse_ne_free
  · obtain rfl | hd := mem_middle.mp hd
    · exact absurd (hu.symm.trans hc) inuse_ne_free
    · exact mem_middle.mpr (.inr hd)

theorem Placed.next_node (h : Placed m fl lo hi (pre ++ c :: post)) :
    (nodes post ++ [fl]).head? = some (m.next (listOf c.addr)) := by
  have hring := h.listed.ring
  change Ring m.next m.prev fl (nodes (pre ++ c :: post)) at hring
  rw [nodes_middle] at hring
  exact hring.neighbours.2

theorem Placed.prev_node (h : Placed m fl lo hi (pre ++ c :: post)) :
    (fl :: nodes pre).getLast? = some (m.prev (listOf c.addr)) := by
  have hring := h.listed.ring
  change Ring m.next m.prev fl (nodes (pre ++ c :: post)) at hring
  rw [nodes_middle] at hring
  exact hring.neighbours.1

theorem getLast_nodes : (fl :: nodes (pre ++ [b])).getLast? = some (listOf b.addr) := by
  simp [nodes, getLast?_cons]

theorem Listed.last_node (h : Listed m fl cs) : (fl :: nodes cs).getLast? = some (m.prev fl) := by
  have hring := h.ring
  change Ring m.next m.prev fl (nodes cs) at hring
  obtain hnil | ⟨l, p, hl⟩ := eq_nil_or_concat (nodes cs)
  · rw [hnil] at hring ⊢
    rw [(ring_nil.mp hring).2]
    rfl
  · rw [hl, concat_eq_append] at hring ⊢
    rw [hring.prev_head]
    simp [getLast?_cons]

theorem Placed.node_ne (h : Placed m fl lo hi cs) (hd : d ∈ cs) : listOf d.addr ≠ fl := by
  have := h.spaced.above d hd
  rw [listOf]
  omega

theorem next_entry (h : Placed m fl lo hi (pre ++ c :: post)) :
    (if m.next (listOf c.addr) = fl then 0 else listEntry (m.next (listOf c.addr))) =
      (post.head?.map Chunk.addr).getD 0 := by
  have hnext := h.next_node
  cases post with
  | nil =>
    have : fl = m.next (listOf c.addr) := Option.some.inj hnext
    rw [← this, if_pos rfl]
    rfl
  | cons d post =>
    have : listOf d.addr = m.next (listOf c.addr) := Option.some.inj hnext
    rw [← this, if_neg (h.node_ne (by simp))]
    rfl

theorem prev_entry (h : Placed m fl lo hi (pre ++ c :: post)) :
    (if m.prev (listOf c.addr) = fl then 0 else listEntry (m.prev (listOf c.addr))) =
      (pre.getLast?.map Chunk.addr).getD 0 := by
  have hprev := h.prev_node
  obtain rfl | ⟨pre, b, rfl⟩ := eq_nil_or_concat pre
  · have : fl = m.prev (listOf c.addr) := Option.some.inj hprev
    rw [← this, if_pos rfl]
    rfl
  · rw [concat_eq_append, getLast_nodes, Option.some.injEq] at hprev
    rw [← hprev, if_neg (h.node_ne (by simp))]
    simp [listEntry, listOf]

theorem coalesced_middle (hpre : Coalesced pre) (hpost : Coalesced post)
    (hleft : ∀ b ∈ pre.getLast?, ¬ (b.flag = chunkFree ∧ c.flag = chunkFree))
    (hright : ∀ d ∈ post.head?, ¬ (c.flag = chunkFree ∧ d.flag = chunkFree)) : Coalesced (pre ++ c :: post) := by
  rw [Coalesced, isChain_append, isChain_cons]
  refine ⟨hpre, ⟨hright, hpost⟩, ?_⟩
  intro b hb d hd
  obtain rfl := Option.some.inj hd
  exact hleft b hb

theorem Coalesced.append (h : Coalesced (pre ++ post)) : Coalesced pre ∧ Coalesced post := by
  rw [Coalesced, isChain_append] at h
  exact ⟨h.1, h.2.1⟩

structure ChunkMerged (m m' : Mem) (fl lo hi : Nat) (cs cs' : List Chunk) : Prop where
  placed : Placed m' fl lo hi cs'
  coalesced : Coalesced cs'
  rewrites : Rewrites fl m m' cs cs'
  held : ∀ x, Held cs' x ↔ Held cs x

/-! The list behind `merger_malloc`. -/

def mergeNext (c : Chunk) : List Chunk → List Chunk
  | [] => [c]
  | d :: post => if d.flag = chunkFree then c.join d :: post else c :: d :: post

def mergeChunk (pre : List Chunk) (c : Chunk) (post : List Chunk) : List Chunk :=
  match pre.getLast? with
  | none => mergeNext c post
  | some b => if b.flag = chunkFree then pre.dropLast ++ mergeNext (b.join c) post else pre ++ mergeNext c post

/-- The second half of `merger_malloc`: nothing free is in front of `c`. -/
theorem mergeNext_spec (h : Placed m fl lo hi (pre ++ c :: post)) (hc : c.flag = chunkFree) (hpre : Coalesced pre)
    (hpost : Coalesced post) (hlast : ∀ b ∈ pre.getLast?, b.flag ≠ chunkFree)
    (hadj : ∀ d ∈ post.head?, d.flag = chunkFree → c.addr + (sizeofChunk + c.size) = d.addr) {next : Nat}
    (hnext : next = (post.head?.map Chunk.addr).getD 0) :
    ChunkMerged m (if next ≠ 0 ∧ m.flag next = chunkFree then m.absorb c.addr next else m) fl lo hi
      (pre ++ c :: post) (pre ++ mergeNext c post) := by
  cases post with
  | nil =>
    rw [if_neg fun hn => hn.1 hnext]
    exact ⟨h, coalesced_middle hpre hpost (fun b hb hf => hlast b hb hf.1) nofun, .refl, fun _ => Iff.rfl⟩
  | cons d post =>
    obtain rfl : next = d.addr := hnext
    have hd : m.flag d.addr = d.flag := h.listed.flag d (by simp)
    have hne : d.addr ≠ 0 := by
      have := h.spaced.above d (by simp)
      omega
    rw [hd, mergeNext]
    by_cases hfree : d.flag = chunkFree
    · have hmerge : d.addr ≠ 0 ∧ d.flag = chunkFree := ⟨hne, hfree⟩
      rw [if_pos hmerge, if_pos hfree]
      refine ⟨(absorb_spec h).1, ?_, absorb_rewrites h hc hfree, fun x => held_join (hadj d rfl hfree)⟩
      rw [Coalesced, isChain_cons] at hpost
      refine coalesced_middle hpre hpost.2 (fun b hb hf => hlast b hb hf.1) ?_
      intro e he hf
      exact hpost.1 e he ⟨hfree, hf.2⟩
    · have hmerge : ¬ (d.addr ≠ 0 ∧ d.flag = chunkFree) := fun hn => hfree hn.2
      rw [if_neg hmerge, if_neg hfree]
      refine ⟨h, coalesced_middle hpre hpost (fun b hb hf => hlast b hb hf.1) ?_, .refl, fun _ => Iff.rfl⟩
      rintro e he hf
      obtain rfl := Option.some.inj he
      exact hfree hf.2

structure Touches (pre : List Chunk) (c : Chunk) (post : List Chunk) : Prop where
  prev : ∀ b ∈ pre.getLast?, b.flag = chunkFree → b.addr + (sizeofChunk + b.size) = c.addr
  next : ∀ d ∈ post.head?, d.flag = chunkFree → c.addr + (sizeofChunk + c.size) = d.addr

theorem mergerMalloc_spec (h : Placed m fl lo hi (pre ++ c :: post)) (hc : c.flag = chunkFree)
    (hpre : Coalesced pre) (hpost : Coalesced post) (ht : Touches pre c post) :
    ChunkMerged m (m.mergerMalloc fl c.addr) fl lo hi (pre ++ c :: post) (mergeChunk pre c post) := by
  simp only [Mem.mergerMalloc, next_entry h, prev_entry h]
  obtain rfl | ⟨pre, b, rfl⟩ := eq_nil_or_concat pre
  · have hnone : ¬ ((([] : List Chunk).getLast?.map Chunk.addr).getD 0 ≠ 0 ∧
        m.flag ((([] : List Chunk).getLast?.map Chunk.addr).getD 0) = chunkFree) := fun hn => hn.1 rfl
    rw [if_neg hnone]
    exact mergeNext_spec h hc hpre hpost nofun ht.next rfl
  · rw [concat_eq_append] at h hpre ht ⊢
    have hlast : (pre ++ [b]).getLast? = some b := by simp
    have hprev : ((pre ++ [b]).getLast?.map Chunk.addr).getD 0 = b.addr := by rw [hlast]; rfl
    have hb : m.flag b.addr = b.flag := h.listed.flag b (by simp)
    have hne : b.addr ≠ 0 := by
      have := h.spaced.above b (by simp)
      omega
    rw [hprev, hb, mergeChunk, hlast]
    dsimp only
    by_cases hfree : b.flag = chunkFree
    · have hassoc : (pre ++ [b]) ++ c :: post = pre ++ b :: c :: post := by simp
      rw [hassoc] at h ⊢
      have hmerge : b.addr ≠ 0 ∧ b.flag = chunkFree := ⟨hne, hfree⟩
      rw [if_pos hmerge, if_pos hfree, dropLast_concat]
      have hlast : ∀ e ∈ pre.getLast?, e.flag ≠ chunkFree := by
        intro e he hf
        rw [Coalesced, isChain_append] at hpre
        exact hpre.2.2 e he b rfl ⟨hf, hfree⟩
      have hadj := ht.prev b (by simp) hfree
      have hnext : ∀ d ∈ post.head?, d.flag = chunkFree →
          (b.join c).addr + (sizeofChunk + (b.join c).size) = d.addr := by
        intro d hd hdf
        have := ht.next d hd hdf
        simp only [Chunk.join]
        omega
      have habsorb := absorb_rewrites h hfree hc
      have hmerged := mergeNext_spec (absorb_spec h).1 hfree hpre.append.1 hpost hlast hnext rfl
      refine ⟨hmerged.placed, hmerged.coalesced, ⟨?_, ?_⟩, fun x => (hmerged.held x).trans (held_join hadj)⟩
      · exact fun d hd hu => hmerged.rewrites.stay d (habsorb.stay d hd hu) hu
      · intro x hx
        refine (hmerged.rewrites.bytes x (hx.of_addrs ?_)).trans (habsorb.bytes x hx)
        rw [map_append, map_append]
        exact (List.Sublist.append_left (.cons_cons _ (sublist_cons_self ..)) _).subset
    · have hmerge : ¬ (b.addr ≠ 0 ∧ b.flag = chunkFree) := fun hn => hfree hn.2
      rw [if_neg hmerge, if_neg hfree]
      exact mergeNext_spec h hc hpre hpost (by simpa using hfree) ht.next rfl

/-! ## Splitting -/

def Chunk.rest (c : Chunk) (size : Nat) : Chunk :=
  ⟨c.addr + size + sizeofChunk, c.size - size - sizeofChunk, chunkFree⟩

theorem chunkPacked.split (h : chunkPacked lo hi (pre ++ c :: post)) {size : Nat}
    (hsize : size + sizeofChunk ≤ c.size)
    (f : Nat) : chunkPacked lo hi (pre ++ { c with size := size, flag := f } :: c.rest size :: post) := by
  obtain ⟨hpre, hpost⟩ := packed_middle.mp h
  refine packed_middle.mpr ⟨hpre, ?_, hpost.mono_lo ?_⟩
  · simp only [Chunk.rest]
    omega
  · simp only [Chunk.rest]
    omega

theorem held_split {size : Nat} (hsize : size + sizeofChunk ≤ c.size) (f : Nat) :
    Held (pre ++ { c with size := size, flag := f } :: c.rest size :: post) x ↔ Held (pre ++ c :: post) x := by
  refine held_middle (l := [{ c with size := size, flag := f }, c.rest size]) ?_
  unfold Held
  rw [covered_cons, covered_cons]
  simp only [Covered, Chunk.rest, not_mem_nil, false_and, exists_false, or_false]
  omega

theorem held_flag (f : Nat) : Held (pre ++ { c with flag := f } :: post) x ↔ Held (pre ++ c :: post) x := by
  unfold Held
  rw [covered_append, covered_append, covered_cons, covered_cons]

def Mem.newHeader (m : Mem) (mc size : Nat) : Mem :=
  ((m.setSize mc size).setFlag mc chunkFree).initListHead (listOf mc)

theorem Mem.newHeader_apart (hx : x < mc ∨ mc + 16 ≤ x) : m.newHeader mc size x = m x := by
  rw [newHeader, initListHead_apart (by rw [listOf]; omega), setFlag, st32_apart _ _ (by omega), setSize,
    st32_apart _ _ (by omega)]

theorem Mem.newHeader_size (hs : size < 2 ^ 32) : (m.newHeader mc size).size mc = size := by
  rw [Mem.size, ld32_congr (m := (m.setSize mc size).setFlag mc chunkFree), setFlag,
    ld32_st32_apart _ _ (by omega), setSize, ld32_st32 _ _ hs]
  intro x _ _
  exact initListHead_apart (by rw [listOf]; omega)

theorem Mem.newHeader_flag : (m.newHeader mc size).flag mc = chunkFree := by
  rw [Mem.flag, ld32_congr (m := (m.setSize mc size).setFlag mc chunkFree), setFlag, ld32_st32 _ _ (by decide)]
  intro x _ _
  exact initListHead_apart (by rw [listOf]; omega)

theorem Listed.newHeader (h : Listed m fl (pre ++ post)) (hs : Spaced fl (pre ++ n :: post)) :
    Listed (m.newHeader n.addr n.size) fl (pre ++ post) := by
  apply h.frame
  intro x hx
  apply Mem.newHeader_apart
  by_contra hin
  apply hx
  have habove := hs.above n (by simp)
  refine ⟨by omega, fun d hd => ?_⟩
  have := hs.apart hd
  omega

theorem Listed.linkNew (h : Listed m fl (pre ++ c :: post)) (hs : Spaced fl (pre ++ c :: n :: post))
    (hsize : n.size < 2 ^ 32) (hflag : n.flag = chunkFree) :
    Listed ((m.newHeader n.addr n.size).listAdd (listOf n.addr) (listOf c.addr)) fl (pre ++ c :: n :: post) ∧
      ∀ x, Outside fl (pre ++ c :: n :: post) x →
        (m.newHeader n.addr n.size).listAdd (listOf n.addr) (listOf c.addr) x = m x := by
  have hassoc : ∀ l, pre ++ c :: l = (pre ++ [c]) ++ l := by simp
  rw [hassoc] at h hs ⊢
  have hnew := h.newHeader hs
  have hring := hnew.ring
  change Ring _ _ fl (nodes ((pre ++ [c]) ++ post)) at hring
  rw [← hassoc, nodes_middle] at hring
  obtain ⟨hadd, hbytes⟩ := hnew.add hs (Mem.newHeader_size hsize)
    (Mem.newHeader_flag.trans hflag.symm) getLast_nodes hring.neighbours.2
  refine ⟨hadd, fun x hx => (hbytes x hx).trans ?_⟩
  exact Mem.newHeader_apart (hx.2 n (by simp))

theorem splitMalloc_small (h : wsub (m.size mc) size < chunkGap) : m.splitMalloc mc size = m :=
  if_pos h

theorem splitMalloc_spec (h : Placed m fl lo hi (pre ++ c :: post)) {size : Nat} (hle : size ≤ c.size)
    (hgap : ¬ wsub (m.size c.addr) size < chunkGap) :
    size + sizeofChunk ≤ c.size ∧
      Placed (m.splitMalloc c.addr size) fl lo hi (pre ++ { c with size := size } :: c.rest size :: post) ∧
      ∀ x, Outside fl (pre ++ { c with size := size } :: c.rest size :: post) x →
        m.splitMalloc c.addr size x = m x := by
  have htop : c.addr + (sizeofChunk + c.size) ≤ hi := (Packed.within h.packed (by simp)).2
  have hmax := h.top
  have hcsize := h.listed.size c (by simp)
  have hdiff : wsub c.size size = c.size - size := wsub_of_le hle (by omega)
  rw [hcsize, hdiff] at hgap
  simp only [chunkGap] at hgap
  have hroom : size + sizeofChunk ≤ c.size := by
    simp only [sizeofChunk]
    omega
  have hrest : wsub (wsub (m.size c.addr) size) sizeofChunk = (c.rest size).size := by
    rw [hcsize, hdiff]
    exact wsub_of_le (by omega) (by omega)
  have haddr : wrap (c.addr + size + sizeofChunk) = (c.rest size).addr := wrap_of_lt (by omega)
  have hsplit : m.splitMalloc c.addr size = ((m.newHeader (c.rest size).addr (c.rest size).size).listAdd
      (listOf (c.rest size).addr) (listOf c.addr)).setSize c.addr size := by
    rw [Mem.splitMalloc, if_neg (by rw [hcsize, hdiff]; exact hgap), hrest, haddr]
    rfl
  have hpacked := h.packed.split hroom c.flag
  have hs : Spaced fl (pre ++ c :: c.rest size :: post) := (hpacked.spaced h.head h.top).of_addrs (by simp)
  have hrlt : (c.rest size).size < 2 ^ 32 := by
    simp only [Chunk.rest]
    omega
  obtain ⟨hlist, hbytes⟩ := h.listed.linkNew hs hrlt rfl
  rw [hsplit]
  refine ⟨hroom, ⟨hlist.setSize hs (by omega), hpacked, h.head, h.top⟩, ?_⟩
  intro x hx
  have hxc := hx.2 _ (mem_append_right pre (mem_cons_self ..))
  rw [Mem.setSize, st32_apart _ _ (by dsimp only at hxc; omega)]
  exact hbytes x (hx.of_addrs (by simp))

theorem Placed.setFlag (h : Placed m fl lo hi (pre ++ c :: post)) (hv : v < 2 ^ 32) :
    Placed (m.setFlag c.addr v) fl lo hi (pre ++ { c with flag := v } :: post) ∧
      ∀ x, Outside fl (pre ++ c :: post) x → m.setFlag c.addr v x = m x := by
  refine ⟨⟨h.listed.setFlag h.spaced hv, ?_, h.head, h.top⟩, ?_⟩
  · obtain ⟨h₁, h₂⟩ := packed_middle.mp h.packed
    exact packed_middle.mpr ⟨h₁, h₂⟩
  · intro x hx
    have := hx.2 c (by simp)
    exact st32_apart _ _ (by omega)

theorem keeps_of_outside {c' : Chunk} (more : List Chunk) (hc : c.flag = chunkFree)
    (hpacked : chunkPacked lo hi (pre ++ c' :: (more ++ post))) (hfl : fl + 8 ≤ lo)
    (hx : ∀ x, Outside fl (pre ++ c' :: (more ++ post)) x → m' x = m x) :
    KeepsInuse m m' (pre ++ c :: post) (pre ++ c' :: (more ++ post)) := by
  intro d hd hu
  have hd' : d ∈ pre ++ c' :: (more ++ post) := by
    obtain rfl | hd := mem_middle.mp hd
    · exact absurd (hu.symm.trans hc) inuse_ne_free
    · simp only [mem_append, mem_cons] at hd ⊢
      tauto
  exact ⟨hd', fun x h₁ h₂ => hx x (hpacked.payload_outside hfl hd' h₁ h₂)⟩

structure ChunkTaken (m m' : Mem) (fl lo hi size : Nat) (c : Chunk) (cs cs' : List Chunk) : Prop where
  placed : Placed m' fl lo hi cs'
  coalesced : Coalesced cs'
  keeps : KeepsInuse m m' cs cs'
  chunk : ∃ c' ∈ cs', c'.flag = chunkInuse ∧ c'.addr = c.addr ∧ size ≤ c'.size
  held : ∀ x, Held cs' x ↔ Held cs x

def takeChunk (pre : List Chunk) (c : Chunk) (post : List Chunk) (size : Nat) : List Chunk :=
  if c.size - size < chunkGap then pre ++ { c with flag := chunkInuse } :: post
  else pre ++ { c with size := size, flag := chunkInuse } :: c.rest size :: post

theorem take_spec (h : Placed m fl lo hi (pre ++ c :: post)) (hco : Coalesced (pre ++ c :: post))
    (hc : c.flag = chunkFree) {size : Nat} (hle : size ≤ c.size) :
    ChunkTaken m ((m.splitMalloc c.addr size).setFlag c.addr chunkInuse) fl lo hi size c (pre ++ c :: post)
      (takeChunk pre c post size) := by
  rw [Coalesced, isChain_append, isChain_cons] at hco
  obtain ⟨hpre, ⟨hhead, hpost⟩, -⟩ := hco
  have htop : c.addr + (sizeofChunk + c.size) ≤ hi := (Packed.within h.packed (by simp)).2
  have hmax := h.top
  have hdiff : wsub (m.size c.addr) size = c.size - size := by
    rw [h.listed.size c (by simp)]
    exact wsub_of_le hle (by omega)
  unfold takeChunk
  rw [← hdiff]
  by_cases hgap : wsub (m.size c.addr) size < chunkGap
  · rw [splitMalloc_small hgap, if_pos hgap]
    obtain ⟨hplaced, hbytes⟩ := h.setFlag (v := chunkInuse) (by decide)
    refine ⟨hplaced, ?_, ?_, ⟨_, mem_middle.mpr (.inl rfl), rfl, rfl, hle⟩, fun x => held_flag _⟩
    · exact coalesced_middle hpre hpost (fun _ _ hf => inuse_ne_free hf.2) fun _ _ hf => inuse_ne_free hf.1
    · exact keeps_of_outside [] hc hplaced.packed h.head fun x hx => hbytes x (hx.of_addrs (by simp))
  · rw [if_neg hgap]
    obtain ⟨hroom, hplaced, hbytes⟩ := splitMalloc_spec h hle hgap
    obtain ⟨hplaced', hbytes'⟩ := hplaced.setFlag (v := chunkInuse) (by decide)
    refine ⟨hplaced', ?_, ?_, ⟨_, mem_middle.mpr (.inl rfl), rfl, rfl, Nat.le_refl _⟩,
      fun x => held_split hroom chunkInuse⟩
    · have hright : Coalesced (c.rest size :: post) := by
        rw [Coalesced, isChain_cons]
        exact ⟨fun d hd hf => hhead d hd ⟨hc, hf.2⟩, hpost⟩
      exact coalesced_middle hpre hright (fun _ _ hf => inuse_ne_free hf.2) fun _ _ hf => inuse_ne_free hf.1
    · apply keeps_of_outside [c.rest size] hc hplaced'.packed h.head
      intro x hx
      have hx' : Outside fl (pre ++ { c with size := size } :: c.rest size :: post) x := hx.of_addrs (by simp)
      exact (hbytes' x hx').trans (hbytes x hx')

/-! ## Growing -/

theorem extend_listed (h : Placed m fl lo hi cs) (hroom : hi + chunkSize < 2 ^ 32) :
    let n : Chunk := ⟨hi, chunkSize - sizeofChunk, chunkFree⟩
    let m' := (m.newHeader hi (chunkSize - sizeofChunk)).listAddTail (listOf hi) fl
    Placed m' fl lo (hi + chunkSize) (cs ++ [n]) ∧ KeepsInuse m m' cs (cs ++ [n]) := by
  intro n m'
  have hpacked : chunkPacked lo (hi + chunkSize) (cs ++ [n]) := by
    refine packed_middle.mpr ⟨h.packed, ?_⟩
    change hi + (sizeofChunk + (chunkSize - sizeofChunk)) ≤ hi + chunkSize
    exact Nat.le_refl _
  have hs := hpacked.spaced h.head hroom
  have hlist : Listed m fl (cs ++ []) := by
    rw [append_nil]
    exact h.listed
  have hnew : Listed (m.newHeader hi (chunkSize - sizeofChunk)) fl (cs ++ []) := hlist.newHeader hs
  have hlast := hnew.last_node
  rw [append_nil] at hlast
  obtain ⟨hadd, hbytes⟩ := hnew.add hs (Mem.newHeader_size (by decide)) Mem.newHeader_flag hlast rfl
  refine ⟨⟨hadd, hpacked, h.head, hroom⟩, fun d hd _ => ⟨mem_append_left _ hd, fun x h₁ h₂ => ?_⟩⟩
  have hout := hpacked.payload_outside h.head (mem_append_left _ hd) h₁ h₂
  exact (hbytes x hout).trans (Mem.newHeader_apart (hout.2 n (by simp)))

theorem held_extend : Held (cs ++ [⟨hi, chunkSize - sizeofChunk, chunkFree⟩]) x ↔
    Held cs x ∨ (hi ≤ x ∧ x < hi + chunkSize) := by
  unfold Held
  rw [covered_append, covered_cons]
  simp only [Covered, not_mem_nil, false_and, exists_false, or_false]
  rfl

end

/-! ## The calls -/

def UserHeap.Laid (h : UserHeap) (cs : List Chunk) : Prop := MiniOS.Laid h.mem h.freeList h.startbrk h.curbrk cs

def UserHeap.Placed (h : UserHeap) (cs : List Chunk) : Prop := MiniOS.Placed h.mem h.freeList h.startbrk h.curbrk cs

section
variable {h : UserHeap} {cs : List Chunk} {ok : Bool}

theorem head_not_mem (hl : h.Placed cs) : h.freeList ∉ nodes cs :=
  (nodup_cons.mp hl.spaced.spread.nodup).1

theorem nodes_length (hl : h.Placed cs) : (nodes cs).length < h.curbrk - h.startbrk + 1 := by
  have := hl.packed.length_le chunk_pos
  rw [nodes, length_map]
  omega

theorem entry_of (a : Nat) : listEntry (listOf a) = a := Nat.add_sub_cancel ..

theorem findMalloc_spec (hl : h.Placed cs) (size : Nat) :
    (h.findMalloc size = some 0 ∧ ∀ c ∈ cs, c.flag = chunkFree → c.size < size) ∨
    ∃ pre c post, cs = pre ++ c :: post ∧ c.addr ≠ 0 ∧ h.findMalloc size = some c.addr ∧ c.flag = chunkFree ∧
      size ≤ c.size := by
  have hs := hl.spaced
  have hnot : h.freeList ∉ (nodes cs).reverse := by
    rw [mem_reverse]
    exact head_not_mem hl
  have hlen : (nodes cs).reverse.length < h.curbrk - h.startbrk + 1 := by
    rw [length_reverse]
    exact nodes_length hl
  have hring : Ring h.mem.next h.mem.prev h.freeList (nodes cs) := hl.listed.ring
  have hfind := (hring.reverse.chain hnot).find
    (fun p => h.mem.flag (listEntry p) = chunkFree ∧ size ≤ h.mem.size (listEntry p)) _ hlen
  rw [UserHeap.findMalloc, hfind]
  cases hres : (nodes cs).reverse.find?
      (fun p => h.mem.flag (listEntry p) = chunkFree ∧ size ≤ h.mem.size (listEntry p)) with
  | none =>
    refine .inl ⟨by simp, fun c hc hfree => Nat.not_le.mp fun hle => ?_⟩
    have hno := find?_eq_none.mp hres (listOf c.addr) (mem_reverse.mpr (mem_nodes.mpr ⟨c, hc, rfl⟩))
    rw [entry_of, hl.listed.flag c hc, hl.listed.size c hc, decide_eq_true_eq] at hno
    exact hno ⟨hfree, hle⟩
  | some p =>
    right
    obtain ⟨c, hc, rfl⟩ := mem_nodes.mp (mem_reverse.mp (mem_of_find?_eq_some hres))
    have htest := find?_some hres
    rw [entry_of, hl.listed.flag c hc, hl.listed.size c hc, decide_eq_true_eq] at htest
    have habove := hs.above c hc
    have hne : listOf c.addr ≠ h.freeList := by
      rw [listOf]
      omega
    obtain ⟨pre, post, rfl⟩ := append_of_mem hc
    refine ⟨pre, c, post, rfl, by omega, ?_, htest⟩
    simp [hne, entry_of]

theorem extendMalloc_none (hno : ¬ (ok = true ∧ h.curbrk + chunkSize < 2 ^ 32)) : h.extendMalloc ok = none := by
  simp only [UserHeap.extendMalloc, UserHeap.sbrk, if_neg hno, if_true]

theorem extendMalloc_some (hok : ok = true ∧ h.curbrk + chunkSize < 2 ^ 32) (hne : h.curbrk ≠ 0) :
    h.extendMalloc ok = some
      { h with
        curbrk := h.curbrk + chunkSize
        mem := ((h.mem.newHeader h.curbrk (chunkSize - sizeofChunk)).listAddTail (listOf h.curbrk)
          h.freeList).mergerMalloc h.freeList h.curbrk } := by
  simp only [UserHeap.extendMalloc, UserHeap.sbrk, if_pos hok, if_neg hne, Mem.newHeader]

def EndsAtBreak (h : UserHeap) (cs : List Chunk) : Prop :=
  ∀ b ∈ cs.getLast?, b.flag = chunkFree → b.addr + (sizeofChunk + b.size) = h.curbrk

structure HeapExtended (h h' : UserHeap) (cs cs' : List Chunk) : Prop where
  placed : h'.Placed cs'
  coalesced : Coalesced cs'
  keeps : KeepsInuse h.mem h'.mem cs cs'
  start : h'.startbrk = h.startbrk
  grows : h.curbrk ≤ h'.curbrk
  held : ∀ x, Held cs' x ↔ Held cs x ∨ (h.curbrk ≤ x ∧ x < h'.curbrk)

theorem HeapExtended.refl (hl : h.Placed cs) (hco : Coalesced cs) : HeapExtended h h cs cs :=
  ⟨hl, hco, .refl _ _, rfl, Nat.le_refl _, fun x => ⟨.inl, fun hx => hx.resolve_right fun hlt => by omega⟩⟩

theorem HeapExtended.trans {h₁ h₂ : UserHeap} {cs₁ cs₂ : List Chunk} (e₁ : HeapExtended h h₁ cs cs₁)
    (e₂ : HeapExtended h₁ h₂ cs₁ cs₂) : HeapExtended h h₂ cs cs₂ where
  placed := e₂.placed
  coalesced := e₂.coalesced
  keeps := e₁.keeps.trans e₂.keeps
  start := e₂.start.trans e₁.start
  grows := e₁.grows.trans e₂.grows
  held x := by
    have := e₁.grows
    have := e₂.grows
    rw [e₂.held, e₁.held, or_assoc]
    exact or_congr_right (by omega)

theorem extendMalloc_spec (hl : h.Placed cs) (hco : Coalesced cs) (hend : EndsAtBreak h cs) {h' : UserHeap}
    (he : h.extendMalloc ok = some h') :
    let cs' := mergeChunk cs ⟨h.curbrk, chunkSize - sizeofChunk, chunkFree⟩ []
    HeapExtended h h' cs cs' ∧ EndsAtBreak h' cs' ∧ h'.curbrk = h.curbrk + chunkSize := by
  by_cases hok : ok = true ∧ h.curbrk + chunkSize < 2 ^ 32
  · have hne : h.curbrk ≠ 0 := by
      have := hl.packed.le
      have := hl.head
      omega
    rw [extendMalloc_some hok hne] at he
    obtain ⟨hplaced, hnew⟩ := extend_listed hl hok.2
    have hnil : Coalesced [] := .nil
    have hmerged := mergerMalloc_spec hplaced rfl hco hnil ⟨hend, nofun⟩
    generalize mergeChunk cs _ [] = cs' at hmerged ⊢
    generalize Mem.mergerMalloc _ h.freeList h.curbrk = m' at he hmerged
    obtain rfl := Option.some.inj he
    have hkeeps := hnew.trans (hmerged.rewrites.keeps hplaced)
    have hheld : ∀ x, Held cs' x ↔ Held cs x ∨ (h.curbrk ≤ x ∧ x < h.curbrk + chunkSize) := fun x =>
      (hmerged.held x).trans held_extend
    refine ⟨⟨hmerged.placed, hmerged.coalesced, hkeeps, rfl, Nat.le_add_right .., hheld⟩, ?_, rfl⟩
    -- the last byte below the new break is in a chunk
    intro b hb _
    have hx : h.curbrk + (chunkSize - 1) + 1 = h.curbrk + chunkSize := rfl
    refine hmerged.placed.packed.last_end chunk_pos hx ((hheld _).mpr (.inr ⟨Nat.le_add_right .., ?_⟩)) hb
    exact Nat.add_lt_add_left (by decide) _
  · rw [extendMalloc_none hok] at he
    cases he

theorem mallocLoop_found {ok : Nat → Bool} {size left mc : Nat} (hfound : h.findMalloc size = some mc)
    (hne : mc ≠ 0) : UserHeap.mallocLoop ok size (left + 1) h =
      some (mc + sizeofChunk, { h with mem := (h.mem.splitMalloc mc size).setFlag mc chunkInuse }) := by
  rw [UserHeap.mallocLoop, hfound]
  split
  · rename_i heq
    cases heq
  · rename_i heq
    exact absurd (Option.some.inj heq) hne
  · rename_i heq
    obtain rfl := Option.some.inj heq
    rfl

theorem mallocLoop_null {ok : Nat → Bool} {size left : Nat} (hnull : h.findMalloc size = some 0) :
    UserHeap.mallocLoop ok size (left + 1) h =
      match h.extendMalloc (ok left) with
      | none => some (0, h)
      | some h₁ => UserHeap.mallocLoop ok size left h₁ := by
  rw [UserHeap.mallocLoop, hnull]
  rfl

structure MallocSpec (h h' : UserHeap) (cs cs' : List Chunk) (size r : Nat) : Prop where
  extended : HeapExtended h h' cs cs'
  result : r = 0 ∨ ∃ c ∈ cs', c.flag = chunkInuse ∧ r = c.addr + sizeofChunk ∧ size ≤ c.size ∧
    ∀ d ∈ cs, d.flag = chunkInuse → d.addr ≠ c.addr

theorem mallocLoop_spec (ok : Nat → Bool) (size : Nat) : ∀ (left : Nat) {h : UserHeap} {cs : List Chunk},
    h.Placed cs → Coalesced cs → (h.findMalloc size = some 0 → EndsAtBreak h cs) →
    2 ^ 32 ≤ h.curbrk + left * chunkSize →
    ∃ r h' cs', UserHeap.mallocLoop ok size left h = some (r, h') ∧ MallocSpec h h' cs cs' size r := by
  intro left
  induction left with
  | zero =>
    intro h cs hl _ _ hbig
    have := hl.top
    omega
  | succ left ih =>
    intro h cs hl hco hend hbig
    obtain ⟨hnull, -⟩ | ⟨pre, c, post, rfl, hne, hfound, hfree, hle⟩ := findMalloc_spec hl size
    · rw [mallocLoop_null hnull]
      cases hext : h.extendMalloc (ok left) with
      | none => exact ⟨0, h, cs, rfl, .refl hl hco, .inl rfl⟩
      | some h₁ =>
        obtain ⟨he₁, hend₁, hbrk⟩ := extendMalloc_spec hl hco (hend hnull) hext
        obtain ⟨r, h', cs', hrun, hspec⟩ := ih he₁.placed he₁.coalesced (fun _ => hend₁) (by
          rw [hbrk]
          rw [Nat.succ_mul] at hbig
          omega)
        refine ⟨r, h', cs', hrun, he₁.trans hspec.extended, ?_⟩
        refine hspec.result.imp_right ?_
        rintro ⟨c, hc, hu, hr, hsz, hnew⟩
        exact ⟨c, hc, hu, hr, hsz, fun d hd hdu => hnew d (he₁.keeps d hd hdu).1 hdu⟩
    · have htaken := take_spec hl hco hfree hle
      obtain ⟨c', hc', hu, haddr, hsz⟩ := htaken.chunk
      refine ⟨_, _, _, mallocLoop_found hfound hne,
        ⟨htaken.placed, htaken.coalesced, htaken.keeps, rfl, Nat.le_refl _, fun x => ?_⟩,
        .inr ⟨c', hc', hu, by rw [haddr], hsz, ?_⟩⟩
      · rw [htaken.held]
        exact ⟨.inl, fun hx => hx.resolve_right fun hlt => absurd hlt.2 hlt.1.not_gt⟩
      · intro d hd hdu he
        have hdc : d = c := hl.spaced.eq_of_addr hd (by simp) (he.trans haddr)
        rw [hdc, hfree] at hdu
        exact inuse_ne_free hdu.symm

theorem free_startbrk (h : UserHeap) (obj : Nat) : (h.free obj).startbrk = h.startbrk := by
  unfold UserHeap.free
  split <;> rfl

theorem free_curbrk (h : UserHeap) (obj : Nat) : (h.free obj).curbrk = h.curbrk := by
  unfold UserHeap.free
  split <;> rfl

structure ChunkFreed (h h' : UserHeap) (pre : List Chunk) (c : Chunk) (post cs' : List Chunk) : Prop where
  placed : h'.Placed cs'
  coalesced : Coalesced cs'
  stay : ∀ d ∈ pre ++ post, d.flag = chunkInuse → d ∈ cs'
  bytes : ∀ x, Outside h.freeList (pre ++ c :: post) x → h'.mem x = h.mem x
  held : ∀ x, Held cs' x ↔ Held (pre ++ c :: post) x

/-- `free` gives up one chunk and changes no payload, that of the chunk included. -/
theorem free_spec {pre post : List Chunk} {c : Chunk} (hl : h.Placed (pre ++ c :: post))
    (hco : Coalesced (pre ++ c :: post)) (ht : Touches pre c post) :
    ChunkFreed h (h.free (c.addr + sizeofChunk)) pre c post (mergeChunk pre { c with flag := chunkFree } post) := by
  have hin : c.addr + (sizeofChunk + c.size) ≤ h.curbrk := (hl.packed.within (by simp)).2
  have hmax := hl.top
  have hmc : wsub (c.addr + sizeofChunk) sizeofChunk = c.addr := by
    rw [wsub_of_le (by omega) (by omega), Nat.add_sub_cancel]
  have hne : c.addr + sizeofChunk ≠ 0 := by simp [sizeofChunk]
  have hfree : h.free (c.addr + sizeofChunk) =
      { h with mem := (h.mem.setFlag c.addr chunkFree).mergerMalloc h.freeList c.addr } := by
    rw [UserHeap.free, if_neg hne, hmc]
  obtain ⟨hplaced, hbytes⟩ := Placed.setFlag hl (v := chunkFree) (by decide)
  rw [Coalesced, isChain_append, isChain_cons] at hco
  have hmerged := mergerMalloc_spec hplaced rfl hco.1 hco.2.1.2 ⟨ht.prev, ht.next⟩
  -- the address of the chunk, before it is compared inside `mergerMalloc`
  rw [hfree]
  refine ⟨hmerged.placed, hmerged.coalesced, fun d hd hu => hmerged.rewrites.stay d (mem_middle.mpr (.inr hd)) hu,
    fun x hx => ?_, fun x => (hmerged.held x).trans (held_flag _)⟩
  have hx' : Outside h.freeList (pre ++ { c with flag := chunkFree } :: post) x := by
    apply hx.of_addrs
    simp
  exact (hmerged.rewrites.bytes x hx').trans (hbytes x hx)

end

/-! ## Runs -/

def UserBlock.In (b : UserBlock) (cs : List Chunk) : Prop :=
  ∃ c ∈ cs, c.flag = chunkInuse ∧ b.ptr = c.addr + sizeofChunk ∧ b.size ≤ c.size

def UserBlock.Same (b : UserBlock) (m m' : Mem) : Prop := ∀ x, b.ptr ≤ x → x < b.ptr + b.size → m' x = m x

structure HeapState.Good (s : HeapState) (cs : List Chunk) : Prop where
  laid : s.heap.Laid cs
  coalesced : Coalesced cs
  inside : ∀ b ∈ s.live, b.In cs
  distinct : (s.live.map UserBlock.ptr).Nodup

structure HeapState.Sound (s : HeapState) (cs : List Chunk) : Prop where
  placed : s.heap.Placed cs
  coalesced : Coalesced cs
  inside : ∀ b ∈ s.live, b.In cs
  distinct : (s.live.map UserBlock.ptr).Nodup

section
variable {s : HeapState} {cs : List Chunk} {b : UserBlock}

theorem UserBlock.In.same {m m' : Mem} {cs' : List Chunk} (hb : b.In cs) (hk : KeepsInuse m m' cs cs') :
    b.In cs' ∧ b.Same m m' := by
  obtain ⟨c, hc, hu, hptr, hsize⟩ := hb
  obtain ⟨hc', hbytes⟩ := hk c hc hu
  exact ⟨⟨c, hc', hu, hptr, hsize⟩, fun x h₁ h₂ => hbytes x (by omega) (by omega)⟩

theorem UserBlock.In.outside {m : Mem} {fl lo hi x : Nat} (hb : b.In cs) (hl : Placed m fl lo hi cs)
    (h₁ : b.ptr ≤ x) (h₂ : x < b.ptr + b.size) : Outside fl cs x := by
  obtain ⟨c, hc, -, hptr, hsize⟩ := hb
  exact hl.packed.payload_outside hl.head hc (by omega) (by omega)

namespace HeapState

theorem Start.good (h : s.Start) : s.Good [] where
  laid :=
    { listed := ⟨ring_nil.mpr ⟨h.next, h.prev⟩, nofun, nofun⟩
      tiles := h.empty.symm
      head := h.below
      top := h.empty ▸ h.range }
  coalesced := .nil
  inside b hb := by
    rw [h.live] at hb
    cases hb
  distinct := by
    rw [h.live]
    exact .nil

namespace Sound

theorem disjoint (h : s.Sound cs) : s.live.Pairwise fun b b' => b.ptr + b.size ≤ b'.ptr ∨
    b'.ptr + b'.size ≤ b.ptr := by
  refine (pairwise_map.mp h.distinct).imp_of_mem ?_
  intro b b' hb hb' hne
  obtain ⟨c, hc, -, hptr, hsize⟩ := h.inside b hb
  obtain ⟨c', hc', -, hptr', hsize'⟩ := h.inside b' hb'
  have := h.placed.packed.apart hc hc' (by omega)
  omega

theorem malloc (h : s.Sound cs) (size : Nat) (ok : Nat → Bool)
    (hend : s.heap.findMalloc size = some 0 → EndsAtBreak s.heap cs) :
    ∃ r h' cs', s.heap.malloc size ok = some (r, h') ∧ (∀ b ∈ s.live, b.Same s.heap.mem h'.mem) ∧
      Sound ⟨h', if r = 0 then s.live else ⟨r, size⟩ :: s.live⟩ cs' ∧ HeapExtended s.heap h' cs cs' := by
  obtain ⟨r, h', cs', hrun, hext, hres⟩ := mallocLoop_spec ok size 1025 h.placed h.coalesced hend (by
    simp only [chunkSize]
    omega)
  have hlive := fun b hb => (h.inside b hb).same hext.keeps
  refine ⟨r, h', cs', hrun, fun b hb => (hlive b hb).2, ⟨hext.placed, hext.coalesced, ?_, ?_⟩, hext⟩
  · intro b hb
    split at hb
    · exact (hlive b hb).1
    · rename_i hr
      obtain rfl | hb := mem_cons.mp hb
      · obtain ⟨c, hc, hu, hptr, hsize, -⟩ := hres.resolve_left hr
        exact ⟨c, hc, hu, hptr, hsize⟩
      · exact (hlive b hb).1
  · dsimp only
    split
    · exact h.distinct
    · rename_i hr
      -- the chunk was not in use, and every live block is in one that was
      refine nodup_cons.mpr ⟨fun hmem => ?_, h.distinct⟩
      obtain ⟨b, hb, hptr⟩ := List.mem_map.mp hmem
      obtain ⟨c, -, -, hr', -, hnew⟩ := hres.resolve_left hr
      obtain ⟨d, hd, hdu, hdptr, -⟩ := h.inside b hb
      dsimp only at hptr
      exact hnew d hd hdu (by omega)

theorem free (h : s.Sound cs) (hb : b ∈ s.live)
    (ht : ∀ pre c post, cs = pre ++ c :: post → b.ptr = c.addr + sizeofChunk → Touches pre c post) :
    (∀ b' ∈ s.live, b'.Same s.heap.mem (s.heap.free b.ptr).mem) ∧
      ∃ cs', Sound ⟨s.heap.free b.ptr, s.live.filter fun b' => b'.ptr ≠ b.ptr⟩ cs' ∧
      ∀ x, Held cs' x ↔ Held cs x := by
  obtain ⟨c, hc, -, hptr, -⟩ := h.inside b hb
  obtain ⟨pre, post, rfl⟩ := append_of_mem hc
  have hspec := free_spec h.placed h.coalesced (ht pre c post rfl hptr)
  rw [← hptr] at hspec
  refine ⟨fun b' hb' x h₁ h₂ => hspec.bytes x ((h.inside b' hb').outside h.placed h₁ h₂), _,
    ⟨hspec.placed, hspec.coalesced, ?_, ?_⟩, hspec.held⟩
  · intro b' hb'
    obtain ⟨hb', hne⟩ := mem_filter.mp hb'
    obtain ⟨d, hd, hu, hdptr, hsize⟩ := h.inside b' hb'
    refine ⟨d, hspec.stay d ?_ hu, hu, hdptr, hsize⟩
    obtain rfl | hd := mem_middle.mp hd
    · simp [hdptr, hptr] at hne
    · exact hd
  · exact h.distinct.sublist (filter_sublist.map _)

theorem free_null (h : s.Sound cs) : Sound ⟨s.heap.free 0, s.live.filter fun b' => b'.ptr ≠ 0⟩ cs :=
  ⟨h.placed, h.coalesced, fun b hb => h.inside b (mem_of_mem_filter hb),
    h.distinct.sublist (filter_sublist.map _)⟩

theorem store (h : s.Sound cs) {addr : Nat} (hout : Outside s.heap.freeList cs addr) (v : UInt8) :
    Sound { s with heap := { s.heap with mem := Function.update s.heap.mem addr v } } cs := by
  refine { h with placed := { h.placed with listed := h.placed.listed.frame ?_ } }
  intro x hx
  refine Function.update_of_ne ?_ ..
  rintro rfl
  exact hx hout

end Sound

namespace Good

theorem sound (h : s.Good cs) : s.Sound cs := ⟨(laid_iff.mp h.laid).1, h.coalesced, h.inside, h.distinct⟩

theorem of_sound (h : s.Sound cs) (hall : ∀ x, s.heap.startbrk ≤ x → x < s.heap.curbrk → Held cs x) : s.Good cs :=
  ⟨laid_iff.mpr ⟨h.placed, hall⟩, h.coalesced, h.inside, h.distinct⟩

theorem held (h : s.Good cs) {x : Nat} (h₁ : s.heap.startbrk ≤ x) (h₂ : x < s.heap.curbrk) : Held cs x :=
  (laid_iff.mp h.laid).2 x h₁ h₂

theorem partition (h : s.Good cs) : s.Partition cs where
  listed := h.laid.listed
  tiles := h.laid.tiles
  coalesced := h.coalesced
  inside := h.inside
  disjoint := h.sound.disjoint

theorem endsAtBreak (h : s.Good cs) : EndsAtBreak s.heap cs := by
  intro b hb _
  obtain ⟨pre, rfl⟩ := getLast?_eq_some_iff.mp hb
  exact h.laid.tiles.last

theorem touches (h : s.Good cs) {pre post : List Chunk} {c : Chunk} (hcs : cs = pre ++ c :: post) :
    Touches pre c post := by
  have htiles := h.laid.tiles
  subst hcs
  refine ⟨fun b hb _ => ?_, fun d hd _ => ?_⟩
  · obtain ⟨pre, rfl⟩ := getLast?_eq_some_iff.mp hb
    rw [append_assoc] at htiles
    exact htiles.adjacent
  · obtain ⟨post, rfl⟩ := head?_eq_some_iff.mp hd
    exact htiles.adjacent

theorem malloc (h : s.Good cs) (size : Nat) (ok : Nat → Bool) :
    ∃ r h' cs', s.heap.malloc size ok = some (r, h') ∧ (∀ b ∈ s.live, b.Same s.heap.mem h'.mem) ∧
      Good ⟨h', if r = 0 then s.live else ⟨r, size⟩ :: s.live⟩ cs' := by
  obtain ⟨r, h', cs', hrun, hsame, hsound, hext⟩ := h.sound.malloc size ok fun _ => h.endsAtBreak
  refine ⟨r, h', cs', hrun, hsame, of_sound hsound fun x h₁ h₂ => (hext.held x).mpr ?_⟩
  by_cases hx : x < s.heap.curbrk
  · exact .inl (h.held (hext.start ▸ h₁) hx)
  · exact .inr ⟨Nat.le_of_not_lt hx, h₂⟩

theorem free (h : s.Good cs) (hb : b ∈ s.live) :
    (∀ b' ∈ s.live, b'.Same s.heap.mem (s.heap.free b.ptr).mem) ∧
      ∃ cs', Good ⟨s.heap.free b.ptr, s.live.filter fun b' => b'.ptr ≠ b.ptr⟩ cs' := by
  obtain ⟨hsame, cs', hsound, hheld⟩ := h.sound.free hb fun pre c post hcs _ => h.touches hcs
  refine ⟨hsame, cs', of_sound hsound fun x h₁ h₂ => (hheld x).mpr ?_⟩
  exact h.held (free_startbrk s.heap b.ptr ▸ h₁) (free_curbrk s.heap b.ptr ▸ h₂)

theorem store (h : s.Good cs) (hb : b ∈ s.live) {addr : Nat} (h₁ : b.ptr ≤ addr) (h₂ : addr < b.ptr + b.size)
    (v : UInt8) : Good { s with heap := { s.heap with mem := Function.update s.heap.mem addr v } } cs :=
  of_sound (h.sound.store ((h.inside b hb).outside h.sound.placed h₁ h₂) v) fun _ => h.held

theorem step (h : s.Good cs) {op : HeapOp} (ha : s.Allowed op) : ∃ s' cs', s.step op = some s' ∧ s'.Good cs' := by
  cases op with
  | malloc size ok =>
    obtain ⟨r, h', cs', hrun, -, hgood⟩ := h.malloc size ok
    refine ⟨_, cs', ?_, hgood⟩
    rw [HeapState.step, hrun]
    rfl
  | free obj =>
    obtain rfl | ⟨b, hb, rfl⟩ := ha
    · exact ⟨_, cs, rfl, of_sound h.sound.free_null fun _ => h.held⟩
    · obtain ⟨-, cs', hgood⟩ := h.free hb
      exact ⟨_, cs', rfl, hgood⟩
  | store addr v =>
    obtain ⟨b, hb, h₁, h₂⟩ := ha
    exact ⟨_, cs, rfl, h.store hb h₁ h₂ v⟩

end Good

theorem good_of_run {s₀ : HeapState} (h₀ : s₀.Start)
    (hrun : ReflTransGen (fun s s' => ∃ op, s.Allowed op ∧ s.step op = some s') s₀ s) : ∃ cs, s.Good cs := by
  induction hrun with
  | refl => exact ⟨[], h₀.good⟩
  | tail _ hstep ih =>
    obtain ⟨cs, hgood⟩ := ih
    obtain ⟨op, ha, hs⟩ := hstep
    obtain ⟨s', cs', hs', hgood'⟩ := hgood.step ha
    obtain rfl := Option.some.inj (hs.symm.trans hs')
    exact ⟨cs', hgood'⟩

end HeapState

/-- The heap stays partitioned, and neither call changes a byte of a live block. -/
theorem heap_partition {s₀ : HeapState} (h₀ : s₀.Start)
    (hrun : ReflTransGen (fun s s' => ∃ op, s.Allowed op ∧ s.step op = some s') s₀ s) :
    (∃ cs, s.Partition cs) ∧
    (∀ size ok, ∃ r h, s.heap.malloc size ok = some (r, h) ∧ ∀ b ∈ s.live, b.Same s.heap.mem h.mem) ∧
    ∀ b ∈ s.live, ∀ b' ∈ s.live, b'.Same s.heap.mem (s.heap.free b.ptr).mem := by
  obtain ⟨cs, hgood⟩ := HeapState.good_of_run h₀ hrun
  refine ⟨⟨cs, hgood.partition⟩, ?_, fun b hb => (hgood.free hb).1⟩
  intro size ok
  obtain ⟨r, h, -, hmalloc, hsame, -⟩ := hgood.malloc size ok
  exact ⟨r, h, hmalloc, hsame⟩

end

def freshHeap : HeapState where
  heap :=
    { mem := Mem.initListHead (fun _ => 0) 0x700000
      freeList := 0x700000
      startbrk := 0x800000
      curbrk := 0x800000 }
  live := []

theorem freshHeap_start : freshHeap.Start where
  live := rfl
  next := by decide +kernel
  prev := by decide +kernel
  below := by decide
  empty := rfl
  range := by decide

theorem heap_partition_first : ∃ s, freshHeap.step (.malloc 10 fun _ => true) = some s ∧
    s.live = [⟨0x800010, 10⟩] ∧ (∃ cs, s.Partition cs) ∧ ∀ b ∈ s.live,
    b.Same s.heap.mem (s.heap.free b.ptr).mem := by
  have hlive : (freshHeap.step (.malloc 10 fun _ => true)).map HeapState.live = some [⟨0x800010, 10⟩] := by
    decide +kernel
  obtain ⟨s, hs, hl⟩ := Option.map_eq_some_iff.mp hlive
  have ha : freshHeap.Allowed (.malloc 10 fun _ => true) := by
    change 10 < 2 ^ 32
    decide
  obtain ⟨hp, -, hfree⟩ := heap_partition freshHeap_start (.single ⟨_, ha, hs⟩)
  exact ⟨s, hs, hl, hp, fun b hb => hfree b hb b hb⟩

end MiniOS
