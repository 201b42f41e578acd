import MiniOS.UserBrk
import MiniOS.VmaRanges
import MiniOS.Runs

/-!
# The break of the library and of the kernel
-/

namespace MiniOS

open Mm Option UserBrk

section
variable {m m' : Mm} {a b vma endData fuel r : Nat} {addr len flags mem v : Nat}

/-! ## The heap area -/

theorem findVma_mono {addr : Nat} : ∀ (fuel : Nat) {rb acc : Nat}, m.findVma addr fuel rb acc = some r →
    ∀ more, m.findVma addr (fuel + more) rb acc = some r
  | 0, _, _, h, _ => by cases h
  | fuel + 1, rb, acc, h, more => by
    rw [Nat.add_right_comm]
    unfold findVma at h ⊢
    split_ifs at h ⊢ with h₀ h₁ h₂
    · exact h
    · exact h
    · exact findVma_mono fuel h more
    · exact findVma_mono fuel h more

theorem HeapArea.unique (ha : HeapArea m a) (hb : HeapArea m b) : a = b := by
  obtain ⟨⟨f, hf⟩, -⟩ := ha
  obtain ⟨⟨g, hg⟩, -⟩ := hb
  have h₁ := findVma_mono f hf g
  have h₂ := findVma_mono g hg f
  rw [Nat.add_comm, h₂] at h₁
  exact (some.inj h₁).symm

theorem growTo_heap_self (m : Mm) (vma e : Nat) : (m.growTo vma e).heap vma = { m.heap vma with vmEnd := e } :=
  set_heap_self m vma _

theorem growTo_heap_of_ne (m : Mm) (e : Nat) (h : a ≠ vma) : (m.growTo vma e).heap a = m.heap a :=
  set_heap_of_ne m _ h

theorem growTo_heap_field {β : Type*} (f : Vma → β) (hf : ∀ v x, f { v with vmEnd := x } = f v) (m : Mm)
    (vma e a : Nat) : f ((m.growTo vma e).heap a) = f (m.heap a) :=
  set_heap_field f m (hf _ _) a

/-- The search for the start of an area takes the same way when the area's end moves. -/
theorem findVma_growTo {e : Nat} (he : (m.heap vma).vmStart < e) : ∀ (fuel : Nat) {rb acc : Nat}, acc ≠ vma →
    m.findVma (m.heap vma).vmStart fuel rb acc = some vma →
    (m.growTo vma e).findVma (m.heap vma).vmStart fuel rb acc = some vma
  | 0, _, _, _, h => by cases h
  | fuel + 1, rb, acc, hacc, h => by
    have hstart := growTo_heap_field Vma.vmStart (fun _ _ => rfl) m vma e rb
    have hleft := growTo_heap_field Vma.rbLeft (fun _ _ => rfl) m vma e rb
    have hright := growTo_heap_field Vma.rbRight (fun _ _ => rfl) m vma e rb
    unfold findVma at h ⊢
    rw [hstart, hleft, hright]
    by_cases hself : rb = vma
    · subst hself
      have hend : (m.heap rb).vmStart < ((m.growTo rb e).heap rb).vmEnd := by
        rw [growTo_heap_self]
        exact he
      by_cases h₀ : rb = 0
      · rw [if_pos h₀] at h
        exact absurd (some.inj h) hacc
      · rw [if_neg h₀, if_pos hend, if_pos (Nat.le_refl _)]
    · rw [growTo_heap_of_ne m e hself]
      split_ifs at h ⊢ with h₀ h₁ h₂
      · exact absurd (some.inj h) hacc
      · exact absurd (some.inj h) hself
      · exact findVma_growTo he fuel hself h
      · exact findVma_growTo he fuel hacc h

theorem HeapArea.growTo {e : Nat} (h : HeapArea m vma) (he : m.startBrk < e) : HeapArea (m.growTo vma e) vma := by
  obtain ⟨⟨fuel, hf⟩, hne, hst⟩ := h
  rw [← hst] at hf he
  refine ⟨⟨fuel, ?_⟩, hne, ?_⟩
  · have hfind := findVma_growTo he fuel hne.symm hf
    rw [hst] at hfind
    exact hfind
  · rw [growTo_heap_self]
    exact hst

theorem HeapArea.covers_iff (h : HeapArea m vma) {p inc : Nat} (hp : m.startBrk ≤ p) (hinc : 0 < inc) :
    HeapCovers m p inc ↔ p + inc ≤ (m.heap vma).vmEnd := by
  constructor
  · intro hc
    obtain ⟨b, hb, -, hlast⟩ := hc (p + inc - 1) (by omega) (by omega)
    rw [← h.unique hb] at hlast
    omega
  · intro hle x hx hlt
    refine ⟨vma, h, ?_, by omega⟩
    rw [h.2.2]
    omega

/-! ## The kernel's `brk` -/

theorem brk_zero (m : Mm) (fuel : Nat) : m.brk 0 fuel = some (m.endBrk, m) := if_pos (Nat.zero_le _)

structure BreakOk (m : Mm) : Prop where
  pos : 0 < m.startBrk
  le : m.startBrk ≤ m.endBrk
  lt : m.endBrk < 2 ^ 32
  ends : ∀ a, (m.heap a).vmEnd < 2 ^ 32

theorem BrkResult.endBrk (h : BrkResult m endData r m') (hle : m.startBrk ≤ m.endBrk) :
    m'.endBrk = if r = endData then endData else m.endBrk := by
  cases h with
  | kept =>
    split_ifs with he
    · exact he
    · rfl
  | atStart vma _ hs hlt => omega
  | grown => rw [if_pos rfl]; rfl
  | refused vma _ hs => rw [if_neg (Nat.ne_of_lt (Nat.zero_lt_of_lt hs))]

theorem BreakOk.endBrk_ne (h : BreakOk m) : m.endBrk ≠ 0 := Nat.ne_of_gt (Nat.lt_of_lt_of_le h.pos h.le)

theorem BrkResult.breakOk (h : BrkResult m endData r m') (hm : BreakOk m) (he : endData < 2 ^ 32) : BreakOk m' := by
  cases h with
  | kept => exact hm
  | atStart => exact hm
  | refused => exact hm
  | grown vma _ hs =>
    refine ⟨hm.pos, Nat.le_of_lt hs, he, fun a => ?_⟩
    by_cases ha : a = vma
    · subst ha
      rw [growTo_heap_self]
      exact he
    · rw [growTo_heap_of_ne m endData ha]
      exact hm.ends a

/-! ## Loading and forking -/

theorem vmLink_brk {vmp : Nat} (h : m.vmLink vmp fuel = some m') :
    m'.startBrk = m.startBrk ∧ m'.endBrk = m.endBrk := by
  obtain ⟨vma, par, slot, -, -, rfl⟩ := vmLink_inv h
  have hslot : ∀ (m : Mm), (m.setSlot vmp slot).startBrk = m.startBrk ∧ (m.setSlot vmp slot).endBrk = m.endBrk := by
    intro m
    cases slot <;> exact ⟨rfl, rfl⟩
  have hlist : (m.listLink vmp vma).startBrk = m.startBrk ∧ (m.listLink vmp vma).endBrk = m.endBrk := by
    unfold listLink
    split_ifs <;> exact ⟨rfl, rfl⟩
  exact ⟨(hslot _).1.trans hlist.1, (hslot _).2.trans hlist.2⟩

theorem createVma_brk (h : m.createVma addr len flags mem fuel = some (v, m')) :
    m'.startBrk = m.startBrk ∧ m'.endBrk = m.endBrk := by
  rcases createVma_cases h with ⟨-, rfl⟩ | ⟨-, -, -, -, -, _, -, -, hlink⟩
  · exact ⟨rfl, rfl⟩
  · exact ⟨(vmLink_brk hlink).1, (vmLink_brk hlink).2⟩

theorem createVma_ends (h : m.createVma addr len flags mem fuel = some (v, m'))
    (hm : ∀ a, (m.heap a).vmEnd < 2 ^ 32) (a : Nat) : (m'.heap a).vmEnd < 2 ^ 32 := by
  rcases createVma_cases h with ⟨-, rfl⟩ | ⟨-, -, -, -, -, _, -, -, hlink⟩
  · exact hm a
  rw [(vmLink_ranges hlink a).2]
  by_cases ha : a = mem
  · rw [ha, set_heap_self]
    exact wrap_lt _
  · rw [set_heap_of_ne m _ ha]
    exact hm a

theorem BreakOk.createVma (hm : BreakOk m)
    (h : m.createVma addr len flags mem fuel = some (v, m')) : BreakOk m' := by
  obtain ⟨hs, he⟩ := createVma_brk h
  exact ⟨hs ▸ hm.pos, hs ▸ he ▸ hm.le, he ▸ hm.lt, createVma_ends h hm.ends⟩

/-- An area is refused at address zero, so the heap does not start there; the segments end
in user space, so the break is a word. -/
theorem loadHeap_cases {endCode endData flags mem : Nat} (hcode : endCode ≤ kernelBaseAddr)
    (hdata : endData ≤ kernelBaseAddr) (h : m.loadHeap endCode endData flags mem fuel = some m') :
    ∃ brk, pageSize ∣ brk ∧ 0 < brk ∧ brk + pageSize < 2 ^ 32 ∧ mem ≠ 0 ∧
      (m.setBrk brk (brk + pageSize)).createVma brk pageSize flags mem fuel = some (mem, m') := by
  unfold loadHeap at h
  simp only [bind_eq_bind, bind_eq_some_iff] at h
  obtain ⟨⟨vma, m₁⟩, hcreate, h⟩ := h
  by_cases hv : vma = 0
  · rw [if_pos hv] at h
    cases h
  rw [if_neg hv, Option.pure_def, some.injEq] at h
  subst h
  generalize hx : (if endData ≠ 0 then endData else endCode) = x at hcreate
  have hxle : x ≤ kernelBaseAddr := by
    rw [← hx]
    split_ifs
    · exact hdata
    · exact hcode
  have hlt : roundUp x pageSize + pageSize < 2 ^ 32 := by
    have hstart : roundUp x pageSize ≤ x + pageSize - 1 := Nat.le_trans (roundDown_le _ _) (Nat.mod_le _ _)
    unfold kernelBaseAddr at hxle
    unfold pageSize at hstart ⊢
    omega
  have hdvd : pageSize ∣ roundUp x pageSize := dvd_roundDown _ _
  rcases createVma_cases hcreate with ⟨rfl, -⟩ | ⟨rfl, hmem, hpos, -⟩
  · exact absurd rfl hv
  rw [wrap_of_lt hlt] at hcreate
  refine ⟨_, hdvd, Nat.pos_of_ne_zero ?_, hlt, hmem, hcreate⟩
  intro h₀
  rw [h₀] at hpos
  exact hpos rfl

theorem loadHeap_breakOk {endCode endData flags mem : Nat} (hends : ∀ a, (m.heap a).vmEnd < 2 ^ 32)
    (hcode : endCode ≤ kernelBaseAddr) (hdata : endData ≤ kernelBaseAddr)
    (h : m.loadHeap endCode endData flags mem fuel = some m') : BreakOk m' := by
  obtain ⟨brk, -, hpos, hlt, -, hcreate⟩ := loadHeap_cases hcode hdata h
  have hm : BreakOk (m.setBrk brk (brk + pageSize)) := ⟨hpos, Nat.le_add_right _ _, hlt, hends⟩
  exact hm.createVma hcreate

theorem BreakOk.copyTask {src : Mm} : ∀ (left : Nat) {vma : Nat} {mems : List Nat} {dest m' : Mm} {retval : Int},
    BreakOk dest → src.copyTask fuel left vma mems dest = some (retval, m') →
    BreakOk m' ∧ m'.endBrk = dest.endBrk
  | 0, _, _, _, _, _, _, h => by cases h
  | left + 1, vma, mems, dest, m', retval, hd, h => by
    unfold Mm.copyTask at h
    by_cases hv : vma = 0
    · rw [if_pos hv, some.injEq, Prod.mk.injEq] at h
      obtain ⟨-, rfl⟩ := h
      exact ⟨hd, rfl⟩
    rw [if_neg hv] at h
    simp only [bind_eq_bind, bind_eq_some_iff] at h
    obtain ⟨⟨foo, dest'⟩, hcreate, h⟩ := h
    have hd' := hd.createVma hcreate
    have he := (createVma_brk hcreate).2
    by_cases hfoo : foo = 0
    · rw [if_pos hfoo, Option.pure_def, some.injEq, Prod.mk.injEq] at h
      obtain ⟨-, rfl⟩ := h
      exact ⟨hd', he⟩
    · rw [if_neg hfoo] at h
      obtain ⟨hm, hend⟩ := BreakOk.copyTask left hd' h
      exact ⟨hm, hend.trans he⟩

end

/-! ## The library -/

namespace UserBrk

variable {s s' : UserBrk} {fuel inc endData r : Nat} {op : BrkOp}

structure BrkInv (s : UserBrk) : Prop where
  ok : BreakOk s.mm
  vars : (s.startbrk = 0 ∧ s.curbrk = 0) ∨ (s.startbrk ≠ 0 ∧ s.Agrees)

def Called (s : UserBrk) : Prop := s.startbrk ≠ 0 ∧ s.Agrees

theorem BrkInv.called (h : s.BrkInv) (h₀ : s.startbrk ≠ 0) : s.Called := h.vars.resolve_left fun e => h₀ e.1

theorem sysBrk_result (h : s.sysBrk endData fuel = some (r, s')) :
    BrkResult s.mm endData r s'.mm ∧ s'.startbrk = s.startbrk ∧ s'.curbrk = s.curbrk := by
  unfold sysBrk at h
  rw [map_eq_some_iff] at h
  obtain ⟨⟨va, mm⟩, hb, h⟩ := h
  rw [Prod.mk.injEq] at h
  obtain ⟨rfl, rfl⟩ := h
  exact ⟨brk_result hb, rfl, rfl⟩

theorem brk_of_called (hs : s.Called) (hm : BreakOk s.mm) (h : s.brk endData fuel = some (r, s')) :
    BrkResult s.mm endData r s'.mm ∧ s'.Called := by
  unfold brk at h
  rw [if_neg hs.1, bind_some, map_eq_some_iff] at h
  obtain ⟨⟨va, s₁⟩, hsys, h⟩ := h
  rw [Prod.mk.injEq] at h
  obtain ⟨rfl, rfl⟩ := h
  obtain ⟨hres, hst, hcur⟩ := sysBrk_result hsys
  rw [hs.2] at hcur
  have hend := hres.endBrk hm.le
  by_cases he : va = endData
  · rw [if_pos he] at hend ⊢
    exact ⟨hres, hst ▸ hs.1, he.trans hend.symm⟩
  · rw [if_neg he] at hend ⊢
    exact ⟨hres, hst ▸ hs.1, hcur.trans hend.symm⟩

def init (s : UserBrk) : UserBrk := if s.startbrk = 0 then ⟨s.mm, s.mm.endBrk, s.mm.endBrk⟩ else s

theorem init_mm (s : UserBrk) : s.init.mm = s.mm := by
  unfold init
  split_ifs <;> rfl

theorem BrkInv.init_called (h : s.BrkInv) : s.init.Called := by
  unfold init
  by_cases h₀ : s.startbrk = 0
  · rw [if_pos h₀]
    exact ⟨h.ok.endBrk_ne, rfl⟩
  · rw [if_neg h₀]
    exact h.called h₀

theorem brk_init (s : UserBrk) (endData fuel : Nat) (h : s.mm.endBrk ≠ 0) :
    s.brk endData fuel = s.init.brk endData fuel := by
  unfold init
  by_cases h₀ : s.startbrk = 0
  · rw [if_pos h₀]
    unfold brk
    simp only [if_pos h₀, if_neg h, sysBrk, brk_zero]
    rfl
  · rw [if_neg h₀]

theorem brk_spec (hs : s.BrkInv) (h : s.brk endData fuel = some (r, s')) :
    BrkResult s.mm endData r s'.mm ∧ s'.Called := by
  have hm := hs.ok
  rw [brk_init s endData fuel hm.endBrk_ne] at h
  rw [← init_mm s] at hm ⊢
  exact brk_of_called hs.init_called hm h

theorem sbrk_spec (hs : s.BrkInv) (h : s.sbrk inc fuel = some (r, s')) :
    ∃ va, BrkResult s.mm (wrap (s.mm.endBrk + inc)) va s'.mm ∧ s'.Called ∧
    r = if va ≠ 0 then s.mm.endBrk else 0 := by
  unfold sbrk at h
  simp only [bind_eq_some_iff, map_eq_some_iff, Prod.mk.injEq] at h
  obtain ⟨s₁, hfirst, ⟨va, s₂⟩, hbrk, rfl, rfl⟩ := h
  -- the call of `brk` with zero only sets the variables
  have h₁ : s₁.Called ∧ s₁.mm = s.mm := by
    by_cases h₀ : s.curbrk = 0
    · rw [if_pos h₀, map_eq_some_iff] at hfirst
      obtain ⟨⟨r₁, s₁⟩, hbrk₁, rfl⟩ := hfirst
      obtain ⟨hres, hcalled⟩ := brk_spec hs hbrk₁
      refine ⟨hcalled, ?_⟩
      generalize s₁.mm = mm at hres
      cases hres with
      | kept => rfl
      | atStart => rfl
      | grown _ _ hlt => cases hlt
      | refused => rfl
    · rw [if_neg h₀, some.injEq] at hfirst
      subst hfirst
      exact ⟨hs.vars.resolve_left fun e => h₀ e.2, rfl⟩
  obtain ⟨hcalled, hmm⟩ := h₁
  have hcur : s₁.curbrk = s.mm.endBrk := hcalled.2.trans (congrArg endBrk hmm)
  obtain ⟨hres, hcalled'⟩ := brk_of_called hcalled (hmm ▸ hs.ok) hbrk
  rw [hcur, hmm] at hres
  exact ⟨va, hres, hcalled', by rw [hcur]⟩

theorem fork_spec {mems : List Nat} (hm : BreakOk s.mm) (h : s.fork mems fuel = some s') :
    BreakOk s'.mm ∧ s'.mm.endBrk = s.mm.endBrk ∧ s'.startbrk = s.startbrk ∧ s'.curbrk = s.curbrk := by
  unfold fork at h
  simp only [bind_eq_bind, bind_eq_some_iff] at h
  obtain ⟨⟨retval, mm⟩, hcopy, h⟩ := h
  by_cases hret : retval < 0
  · rw [if_pos hret] at h
    cases h
  rw [if_neg hret, Option.pure_def, some.injEq] at h
  subst h
  have hchild : BreakOk s.mm.taskSetVm := ⟨hm.pos, hm.le, hm.lt, hm.ends⟩
  obtain ⟨hok, hend⟩ := hchild.copyTask fuel hcopy
  exact ⟨hok, hend, rfl, rfl⟩

/-! ## Runs -/

theorem BrkInv.of_result {m : Mm} {va : Nat} (hm : BreakOk m) (hres : BrkResult m endData va s.mm)
    (he : endData < 2 ^ 32) (hc : s.Called) : s.BrkInv :=
  ⟨hres.breakOk hm he, .inr hc⟩

theorem call_spec (hs : s.BrkInv) (ha : s.Allowed op) (h : s.call op = some (r, s')) :
    s'.BrkInv ∧ (op.IsCall ∨ s.Called → s'.Called) := by
  cases op with
  | brk endData fuel =>
    obtain ⟨hres, hc⟩ := brk_spec hs h
    exact ⟨.of_result hs.ok hres ha.2 hc, fun _ => hc⟩
  | sbrk inc fuel =>
    obtain ⟨va, hres, hc, -⟩ := sbrk_spec hs h
    exact ⟨.of_result hs.ok hres (wrap_lt _) hc, fun _ => hc⟩
  | fork mems fuel =>
    unfold call at h
    rw [map_eq_some_iff] at h
    obtain ⟨child, hfork, h⟩ := h
    rw [Prod.mk.injEq] at h
    obtain ⟨-, rfl⟩ := h
    obtain ⟨hok, hend, hst, hcur⟩ := fork_spec hs.ok hfork
    have hagrees : child.Agrees ↔ s.Agrees := by
      unfold Agrees
      rw [hcur, hend]
    refine ⟨⟨hok, ?_⟩, ?_⟩
    · rw [hst, hcur, hagrees]
      exact hs.vars
    · rintro (hcall | ⟨h₀, hag⟩)
      · exact hcall.elim
      · exact ⟨hst ▸ h₀, hagrees.mpr hag⟩

theorem next_of_call (h : s.call op = some (r, s')) : s.next op = s' := by
  unfold next
  rw [h]
  rfl

theorem call_ne_none (h : s.call op = some (r, s')) : s.call op ≠ none := by
  rw [h]
  exact some_ne_none _

theorem next_spec (hs : s.BrkInv) (ha : s.Allowed op) :
    (s.next op).BrkInv ∧ (op.IsCall ∨ s.Called → (s.next op).Called) := by
  obtain ⟨⟨r, s'⟩, hcall⟩ := ne_none_iff_exists'.mp ha.1
  rw [next_of_call hcall]
  exact call_spec hs ha hcall

theorem run_called : ∀ (ops : List BrkOp) {s : UserBrk}, s.BrkInv → Along next Allowed s ops →
    ((∃ op ∈ ops, op.IsCall) ∨ s.Called) → (ops.foldl next s).Called
  | [], _, _, _, h => h.resolve_left fun ⟨_, hop, _⟩ => List.not_mem_nil hop
  | op :: ops, s, hs, ha, h => by
    obtain ⟨hinv, hcalled⟩ := next_spec hs ha.1
    refine run_called ops hinv ha.2 ?_
    rcases h with ⟨op', hmem, hop'⟩ | h
    · rcases List.mem_cons.mp hmem with rfl | hmem
      · exact .inr (hcalled (.inl hop'))
      · exact .inl ⟨op', hmem, hop'⟩
    · exact .inr (hcalled (.inr h))

theorem sbrk_answer_iff {m : Mm} {va e inc : Nat} (he : e ≠ 0) :
    (∀ p, p ≠ 0 → ((if va ≠ 0 then e else 0) = p ↔ p = e ∧ HeapCovers m p inc)) ↔
    (va ≠ 0 ↔ HeapCovers m e inc) := by
  by_cases hva : va ≠ 0
  · simp only [if_pos hva, iff_true_left hva]
    constructor
    · intro h
      exact ((h e he).mp rfl).2
    · intro hc p _
      exact ⟨fun hp => ⟨hp.symm, hp ▸ hc⟩, fun hp => hp.1.symm⟩
  · simp only [if_neg hva, iff_false_left hva]
    constructor
    · intro h hc
      exact he ((h e he).mpr ⟨rfl, hc⟩).symm
    · intro hc p hp
      exact ⟨fun h₀ => absurd h₀.symm hp, fun h => absurd (h.1 ▸ h.2) hc⟩

theorem sbrk_right_iff (hs : s.BrkInv) (hinc : inc < 2 ^ 32) (h : s.sbrk inc fuel = some (r, s')) :
    (∀ p, p ≠ 0 → (r = p ↔ p = s.mm.endBrk ∧ HeapCovers s'.mm p inc)) ↔ s.SbrkFits (.sbrk inc fuel) := by
  obtain ⟨va, hres, -, rfl⟩ := sbrk_spec hs h
  have hm := hs.ok
  rw [sbrk_answer_iff hm.endBrk_ne]
  generalize s'.mm = mm at hres
  dsimp only [SbrkFits]
  by_cases hwrap : s.mm.endBrk + inc < 2 ^ 32
  · rw [wrap_of_lt hwrap] at hres
    rw [and_iff_right hwrap]
    cases hres with
    | kept hle =>
      have h₀ : ¬ 0 < inc := by omega
      exact iff_of_true (iff_of_true hm.endBrk_ne fun x hx hlt => by omega) fun hpos => absurd hpos h₀
    | atStart vma _ hs hlt => exact absurd (Nat.le_trans hs hm.le) (Nat.not_le.mpr hlt)
    | grown vma ha hs hlt hroom =>
      have hcov : HeapCovers (s.mm.growTo vma (s.mm.endBrk + inc)) s.mm.endBrk inc := by
        refine ((ha.growTo hs).covers_iff hm.le (by omega)).mpr (Nat.le_of_eq ?_)
        rw [growTo_heap_self]
      refine iff_of_true (iff_of_true (by omega) hcov) fun _ b hb _ => ?_
      rw [← ha.unique hb]
      exact hroom
    | refused vma ha _ hlt hroom =>
      have hpos : 0 < inc := by omega
      rw [iff_false_left (not_not.mpr rfl), ha.covers_iff hm.le hpos]
      constructor
      · intro hend _ b hb hcov
        rw [← ha.unique hb] at hcov
        exact absurd hcov hend
      · intro hfits hcov
        exact hroom (hfits hpos vma ha hcov)
  · -- the new break wraps to a smaller one, which the kernel takes for done
    refine iff_of_false ?_ fun hf => hwrap hf.1
    have hsmall : wrap (s.mm.endBrk + inc) < s.mm.endBrk := by
      have := hm.lt
      unfold wrap
      omega
    cases hres with
    | atStart vma _ _ hlt => omega
    | grown vma _ _ hlt => omega
    | refused vma _ _ hlt => omega
    | kept =>
      intro hcov
      obtain ⟨b, -, -, hb⟩ := hcov.mp hm.endBrk_ne (s.mm.endBrk + inc - 1) (by have := hm.lt; omega)
        (by have := hm.lt; omega)
      have := hm.ends b
      omega

end UserBrk

theorem user_brk_agrees {m mm : Mm} {endCode endData flags mem fuel : Nat} (hends : ∀ a, (m.heap a).vmEnd < 2 ^ 32)
    (hcode : endCode ≤ kernelBaseAddr) (hdata : endData ≤ kernelBaseAddr)
    (hload : m.loadHeap endCode endData flags mem fuel = some mm) (ops : List BrkOp)
    (hrun : Along next UserBrk.Allowed (.start mm) ops) :
    ((∃ op ∈ ops, op.IsCall) → (ops.foldl next (.start mm)).Agrees) ∧
    (Along next UserBrk.SbrkRight (.start mm) ops ↔ Along next UserBrk.SbrkFits (.start mm) ops) := by
  have hstart : (start mm).BrkInv := ⟨loadHeap_breakOk hends hcode hdata hload, .inl ⟨rfl, rfl⟩⟩
  refine ⟨fun hcall => (run_called ops hstart hrun (.inl hcall)).2, ?_⟩
  refine along_iff UserBrk.BrkInv (fun hs ha _ => (next_spec hs ha).1) (fun {s op} hs ha => ?_) ops hstart hrun
  cases op with
  | brk => exact Iff.rfl
  | fork => exact Iff.rfl
  | sbrk inc fuel =>
    obtain ⟨⟨r, s'⟩, hcall⟩ := ne_none_iff_exists'.mp ha.1
    rw [← sbrk_right_iff hs ha.2 hcall]
    constructor
    · intro h
      exact h r s' hcall
    · intro h r₁ s₁ hcall₁
      obtain ⟨rfl, rfl⟩ := Prod.mk.inj (some.inj (hcall₁.symm.trans hcall))
      exact h

def codeAndStack : Option Mm :=
  ((allocMm fun _ => zeroVma).createVma 0x800000 0x1000 0 16 9).bind fun r =>
    (r.2.createVma userStackBott (userStackTop - userStackBott) 0 48 9).map Prod.snd

theorem codeAndStack_ends {m : Mm} (h : codeAndStack = some m) (a : Nat) : (m.heap a).vmEnd < 2 ^ 32 := by
  unfold codeAndStack at h
  simp only [bind_eq_some_iff, map_eq_some_iff] at h
  obtain ⟨⟨_, m₁⟩, h₁, ⟨_, m₂⟩, h₂, rfl⟩ := h
  exact createVma_ends h₂ (createVma_ends h₁ fun _ => Nat.two_pow_pos 32) a

theorem user_brk_agrees_child : ∃ m mm, codeAndStack = some m ∧ m.loadHeap 0x801000 0 0 32 9 = some mm ∧
    ([.sbrk 0x1000 9, .fork [64, 80, 96] 9].foldl next (.start mm)).Agrees ∧
    Along next UserBrk.SbrkRight (.start mm) [.sbrk 0x1000 9, .fork [64, 80, 96] 9] := by
  have h : codeAndStack.bind (fun m => (m.loadHeap 0x801000 0 0 32 9).bind fun mm =>
      ((start mm).sbrk 0x1000 9).bind fun r => (r.2.fork [64, 80, 96] 9).map fun _ =>
        (mm.findVma mm.startBrk 9 mm.rbNode 0, mm.startBrk, mm.endBrk, (mm.heap 32).vmStart, (mm.heap 32).vmEnd)) =
      some (some 32, 0x801000, 0x802000, 0x801000, 0x802000) := by decide
  simp only [bind_eq_some_iff, map_eq_some_iff, Prod.mk.injEq] at h
  obtain ⟨m, hm, mm, hload, ⟨r, s⟩, hsbrk, c, hfork, hfind, hst, hend, hvs, hve⟩ := h
  have hcall : (start mm).call (.sbrk 0x1000 9) = some (r, s) := hsbrk
  have hchild : s.call (.fork [64, 80, 96] 9) = some (0, c) := map_eq_some_iff.mpr ⟨c, hfork, rfl⟩
  have hallowed : Along next UserBrk.Allowed (.start mm) [.sbrk 0x1000 9, .fork [64, 80, 96] 9] := by
    refine ⟨⟨call_ne_none hcall, by decide⟩, ⟨?_, trivial⟩, trivial⟩
    rw [next_of_call hcall]
    exact call_ne_none hchild
  have hagree := user_brk_agrees (codeAndStack_ends hm) (by decide) (by decide) hload _ hallowed
  refine ⟨m, mm, hm, hload, hagree.1 ⟨.sbrk 0x1000 9, List.mem_cons_self .., trivial⟩,
    hagree.2.mpr ⟨⟨?_, ?_⟩, trivial, trivial⟩⟩
  · rw [show (start mm).mm.endBrk = _ from hend]
    decide
  · intro _ vma hvma hle
    have harea : HeapArea mm 32 := ⟨⟨9, hfind⟩, by decide, hvs.trans hst.symm⟩
    rw [← harea.unique hvma] at hle
    have hbad : mm.endBrk + 0x1000 ≤ (mm.heap 32).vmEnd := hle
    omega

/-- The new break wraps around to an address below the old one, the kernel answers that the
break is there already, and `sbrk` answers the old break for memory that the heap does not
have. -/
theorem sbrk_wraps : ∃ m mm, codeAndStack = some m ∧ m.loadHeap 0x801000 0 0 32 9 = some mm ∧
    Along next UserBrk.Allowed (.start mm) [.sbrk 0xFFFFFFFF 9] ∧
    ¬ Along next UserBrk.SbrkRight (.start mm) [.sbrk 0xFFFFFFFF 9] := by
  have h : codeAndStack.bind (fun m => (m.loadHeap 0x801000 0 0 32 9).bind fun mm =>
      ((start mm).sbrk 0xFFFFFFFF 9).map fun r => (mm.endBrk, r.1, r.2.mm.endBrk)) =
        some (0x802000, 0x802000, 0x802000) := by decide
  simp only [bind_eq_some_iff, map_eq_some_iff, Prod.mk.injEq] at h
  obtain ⟨m, hm, mm, hload, ⟨r, s⟩, hsbrk, hend, -, -⟩ := h
  have hinv : (start mm).BrkInv :=
    ⟨loadHeap_breakOk (codeAndStack_ends hm) (by decide) (by decide) hload, .inl ⟨rfl, rfl⟩⟩
  have hcall : (start mm).call (.sbrk 0xFFFFFFFF 9) = some (r, s) := hsbrk
  refine ⟨m, mm, hm, hload, ⟨⟨call_ne_none hcall, by decide⟩, trivial⟩, fun hright => ?_⟩
  have hfits := ((sbrk_right_iff hinv (by decide) hsbrk).mp (hright.1 r s hsbrk)).1
  rw [show (start mm).mm.endBrk = _ from hend] at hfits
  exact absurd hfits (by decide)

end MiniOS
