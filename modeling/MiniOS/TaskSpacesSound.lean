import MiniOS.ProgramFits
import MiniOS.TaskSpaces
import MiniOS.TeardownSound
import MiniOS.UserBrkSound

/-!
# The list of areas and the tree

Along the runs of `TaskSpaces` the areas that `Paging` lists are those of the tree, in their order, as
long as they stay apart: every run is one of `UserRun`, and `find_vma` answers what the list says.
-/

namespace MiniOS

open Function List Mm Option Paging

/-- The areas are apart and below the kernel's half. -/
def Space.Apart (sp : Space) : Prop :=
  sp.mmap.Pairwise (fun a b => a.vmEnd ≤ b.vmStart ∨ b.vmEnd ≤ a.vmStart) ∧ ∀ a ∈ sp.mmap, a.vmEnd ≤ kernelBaseAddr

def Paging.Apart (s : Paging) : Prop := ∀ t ∈ s.tasks, (s.mm t).Apart

structure BackedBy (m : Mm) (sp : Space) (born : Nat → Nat) (l : List Nat) (t : BTree Nat) : Prop where
  hung : Hung m born l t
  areas : sp.mmap = t.inorder.map m.area
  startBrk : m.startBrk = sp.startBrk
  /-- Behind the root the newest area comes first. -/
  newest : ∀ pre post, l = pre ++ m.rbNode :: post → post.Pairwise fun a b => born b < born a

def Backed (m : Mm) (sp : Space) : Prop := ∃ born l t, BackedBy m sp born l t

section
variable {m m' : Mm} {sp sp' : Space} {born : Nat → Nat} {l : List Nat} {t : BTree Nat} {fuel : Nat}

/-! ## Areas in order -/

theorem Ascending.starts (h : Ascending m l) : l.Pairwise fun a b => (m.heap a).vmStart < (m.heap b).vmStart :=
  h.apart.imp_of_mem fun ha _ hab => Nat.lt_of_lt_of_le (h.area _ ha).1 hab

theorem Ascending.areas_sorted (h : Ascending m l) : (l.map m.area).Pairwise fun a b => a.vmStart ≤ b.vmStart :=
  pairwise_map.mpr (h.starts.imp Nat.le_of_lt)

theorem Ascending.eq_of_start (h : Ascending m l) {a b : Nat} (ha : a ∈ l) (hb : b ∈ l)
    (e : (m.heap a).vmStart = (m.heap b).vmStart) : a = b := by
  have hsymm : Std.Symm fun a b => (m.heap a).vmStart ≠ (m.heap b).vmStart := ⟨fun _ _ => Ne.symm⟩
  by_contra hne
  exact (h.starts.imp Nat.ne_of_lt).forall ha hb hne e

theorem Ascending.areas_unique (h : Ascending m l) : ∀ x ∈ l.map m.area, ∀ y ∈ l.map m.area,
    x.vmStart = y.vmStart → x = y := by
  intro x hx y hy e
  obtain ⟨a, ha, rfl⟩ := List.mem_map.mp hx
  obtain ⟨b, hb, rfl⟩ := List.mem_map.mp hy
  rw [h.eq_of_start ha hb e]

/-! ## `find_vma` -/

theorem Hung.lt_rounds (h : Hung m born l t) : l.length < m.rounds := by
  unfold rounds
  rw [h.count]
  omega

theorem Hung.findVma_exact (h : Hung m born l t) (hareas : sp.mmap = t.inorder.map m.area) (va : Nat) :
    ∃ r, m.findVma va m.rounds m.rbNode 0 = some r ∧ m.areaAt r = sp.findVma va := by
  obtain ⟨r, hr⟩ := findVma_isSome va m.rounds 0 h.tree.below (h.length ▸ h.lt_rounds)
  refine ⟨r, hr, ?_⟩
  have hspec := findVma_spec _ h.tree.below h.asc.inOrder hr
  have hmap : sp.findVma va = (t.inorder.find? fun a => va < (m.heap a).vmEnd).map m.area := by
    unfold Space.findVma
    rw [hareas, find?_map]
    rfl
  rw [hmap]
  cases hfind : t.inorder.find? fun a => va < (m.heap a).vmEnd with
  | none =>
    rw [hfind] at hspec
    exact if_pos hspec
  | some a =>
    rw [hfind] at hspec
    obtain rfl : r = a := hspec
    exact if_neg (h.tree.ne_null r (mem_of_find?_eq_some hfind))

theorem BackedBy.lookup (h : BackedBy m sp born l t) (va : Nat) : m.lookup va = some (sp.findVma va) := by
  obtain ⟨r, hr, he⟩ := h.hung.findVma_exact h.areas va
  unfold Mm.lookup
  rw [hr, map_some, he]

theorem Backed.lookup (h : Backed m sp) (va : Nat) : m.lookup va = some (sp.findVma va) := by
  obtain ⟨_, _, _, h⟩ := h
  exact h.lookup va

theorem Backed.congr (h : Backed m sp) (hmmap : sp'.mmap = sp.mmap) (hbrk : sp'.startBrk = sp.startBrk) :
    Backed m sp' := by
  obtain ⟨born, l, t, h⟩ := h
  exact ⟨born, l, t, h.hung, hmmap.trans h.areas, h.startBrk.trans hbrk.symm, h.newest⟩

theorem Backed.sorted (h : Backed m sp) : sp.Sorted := by
  obtain ⟨_, _, t, h⟩ := h
  unfold Space.Sorted
  rw [h.areas]
  exact h.hung.asc.areas_sorted

theorem Backed.apart (h : Backed m sp) : sp.mmap.Pairwise fun a b => a.vmEnd ≤ b.vmStart ∨ b.vmEnd ≤ a.vmStart := by
  obtain ⟨_, _, t, h⟩ := h
  rw [h.areas]
  exact pairwise_map.mpr (h.hung.asc.apart.imp .inl)

theorem Backed.area (h : Backed m sp) : ∀ a ∈ sp.mmap, a.vmStart < a.vmEnd ∧ pageSize ∣ a.vmStart := by
  obtain ⟨_, _, t, h⟩ := h
  rw [h.areas]
  exact forall_mem_map.mpr h.hung.asc.area

/-! ## `delete_all_vma` -/

theorem Hung.deleteAll_once (h : Hung m born l t) {junk : Nat → Vma} {log : List Freed}
    (hd : m.deleteAllVma junk m.rounds m.rounds = some (m', log)) (hnd : (log.map Freed.vma).Nodup) :
    Clears m born l ∧ log = (l.map m.freed).reverse := by
  unfold Mm.deleteAllVma at hd
  by_cases h₀ : m.mmap = 0
  · rw [if_pos h₀] at hd
    cases hd
    rw [(Chain.nil_iff h.list).mpr h₀]
    exact ⟨trivial, rfl⟩
  · rw [if_neg h₀] at hd
    by_cases hc : Clears m born l
    · obtain ⟨m₁, hloop, -⟩ := deleteAllLoop_clears junk l [] h h.lt_rounds h.lt_rounds hc
      cases hd.symm.trans hloop
      exact ⟨hc, append_nil _⟩
    · exact absurd hnd (deleteAllLoop_stuck junk l h h.lt_rounds h.lt_rounds hc hd)

theorem Hung.deleteAll_clears (h : Hung m born l t) (hc : Clears m born l) (junk : Nat → Vma) :
    ∃ m', m.deleteAllVma junk m.rounds m.rounds = some (m', (l.map m.freed).reverse) := by
  unfold Mm.deleteAllVma
  by_cases h₀ : m.mmap = 0
  · rw [if_pos h₀, (Chain.nil_iff h.list).mpr h₀]
    exact ⟨m, rfl⟩
  · obtain ⟨m', hloop, -⟩ := deleteAllLoop_clears junk l [] h h.lt_rounds h.lt_rounds hc
    rw [append_nil] at hloop
    rw [if_neg h₀]
    exact ⟨m', hloop⟩

theorem BuiltAs.newest {vmas : List Nat} (h : BuiltAs m vmas t) :
    ∀ pre post, m.listOrder vmas = pre ++ m.rbNode :: post →
    post.Pairwise fun a b => vmas.idxOf b < vmas.idxOf a := by
  intro pre post e
  have hnd := h.hung.nodup
  cases vmas with
  | nil => cases pre with
    | nil => cases e
    | cons => cases e
  | cons r rest =>
    rw [h.root] at e
    unfold listOrder at e hnd
    have hsplit := nodup_middle.mp hnd
    obtain ⟨hr, -⟩ := nodup_cons.mp hsplit
    rw [mem_append, not_or] at hr
    obtain ⟨-, -, rfl⟩ := (append_cons_inj_of_notMem hr.1 hr.2).mp e
    have hall := pairwise_idxOf ((listOrder_perm m (r :: rest)).nodup_iff.mp h.hung.nodup)
    exact pairwise_reverse.mpr (List.Pairwise.sublist filter_sublist (pairwise_cons.mp hall).2)

theorem BackedBy.freed_perm (h : BackedBy m sp born l t) :
    ((l.map m.freed).reverse.reverse.map Freed.area).Perm sp.mmap := by
  rw [reverse_reverse, List.map_map, h.areas]
  exact h.hung.perm.symm.map m.area

/-! ## `create_vma` -/

theorem getUnmappedVma_eq {addr len r : Nat} (h₀ : addr ≠ 0) (hf : m.findVma addr fuel m.rbNode 0 = some r) :
    m.getUnmappedVma addr len fuel = some (if kernelBaseAddr < len ∨ kernelBaseAddr < wrap (addr + len) ∨
      (m.areaAt r).any (fun a => a.vmStart < wrap (addr + len)) then 0 else addr, m) := by
  have hany : ((m.areaAt r).any fun a => a.vmStart < wrap (addr + len)) = true ↔
      ¬ (r = 0 ∨ wrap (addr + len) ≤ (m.heap r).vmStart) := by
    unfold areaAt
    by_cases hr : r = 0
    · simp [hr]
    · simp [hr, area]
  unfold getUnmappedVma
  by_cases hlen : kernelBaseAddr < len
  · rw [if_pos hlen, if_pos (.inl hlen)]
  rw [if_neg hlen, if_pos h₀, hf, map_some]
  by_cases hfit : wrap (addr + len) ≤ kernelBaseAddr ∧ (r = 0 ∨ wrap (addr + len) ≤ (m.heap r).vmStart)
  · rw [if_pos hfit, if_neg]
    rintro (hc | hc | hc)
    · exact hlen hc
    · exact absurd hfit.1 (Nat.not_le.mpr hc)
    · exact hany.mp hc hfit.2
  · rw [if_neg hfit, if_pos]
    rw [not_and_or, Nat.not_le] at hfit
    exact .inr (hfit.imp_right hany.mpr)

theorem createVma_starts {addr len flags mem : Nat} (h₀ : mem ≠ 0)
    (hc : m.createVma addr len flags mem fuel = some (mem, m')) : roundDown addr pageSize ≠ 0 := by
  rcases createVma_cases hc with ⟨e, -⟩ | ⟨-, -, hr, -⟩
  · exact absurd e h₀
  · exact hr

theorem createVma_area {addr len flags mem : Nat} (h₀ : mem ≠ 0)
    (hc : m.createVma addr len flags mem fuel = some (mem, m')) : m'.area mem = newArea addr len := by
  rcases createVma_cases hc with ⟨e, -⟩ | ⟨-, -, -, -, -, _, -, -, hlink⟩
  · exact absurd e h₀
  · unfold area
    rw [(vmLink_ranges hlink mem).1, (vmLink_ranges hlink mem).2, set_heap_self]
    rfl

end

namespace NewMm

variable {x x' : NewMm} {t addr len flags : Nat} {ok : Bool} {vmas : List Nat} {tr : BTree Nat} {g : Paging}

structure Rep (x : NewMm) (t : Nat) (vmas : List Nat) (tr : BTree Nat) : Prop where
  built : BuiltAs x.mm vmas tr
  areas : (x.paging.mm t).mmap = tr.inorder.map x.mm.area
  startBrk : x.mm.startBrk = (x.paging.mm t).startBrk
  fresh : FreshMems x.mm.heap (0 :: vmas) x.mems
  user : ∀ a ∈ (x.paging.mm t).mmap, 0 < a.vmStart ∧ a.vmEnd ≤ kernelBaseAddr

def Building (x : NewMm) (t : Nat) : Prop := ∃ vmas tr, x.Rep t vmas tr

theorem Building.backed (h : x.Building t) : Backed x.mm (x.paging.mm t) := by
  obtain ⟨vmas, tr, h⟩ := h
  exact ⟨_, _, tr, h.built.hung, h.areas, h.startBrk, h.built.newest⟩

theorem Building.fits (h : x.Building t) : ∀ a ∈ (x.paging.mm t).mmap, a.Fits := fun a ha => by
  obtain ⟨hlong, hdvd⟩ := h.backed.area a ha
  obtain ⟨_, _, h⟩ := h
  exact ⟨(h.user a ha).1, hlong.le, hdvd, (h.user a ha).2⟩

theorem Building.withPaging (h : x.Building t) (hmmap : (g.mm t).mmap = (x.paging.mm t).mmap)
    (hbrk : (g.mm t).startBrk = (x.paging.mm t).startBrk) : { x with paging := g }.Building t := by
  obtain ⟨vmas, tr, h⟩ := h
  exact ⟨vmas, tr, h.built, hmmap.trans h.areas, h.startBrk.trans hbrk.symm, h.fresh, hmmap ▸ h.user⟩

theorem building_alloc {memory : Nat → Vma} {mems : List Nat} {startBrk : Nat} (endBrk : Nat)
    (hnew : (g.mm t).mmap = []) (hbrk : startBrk = (g.mm t).startBrk) (hf : FreshMems memory [0] mems) :
    NewMm.Building ⟨g, (allocMm memory).setBrk startBrk endBrk, mems⟩ t := by
  have hb := builtAs_alloc memory
  exact ⟨[], .nil, ⟨hb.hung.congr (fun _ _ => rfl) rfl rfl rfl, hb.aligned⟩, hnew, hbrk, hf, hnew ▸ nofun⟩

theorem Rep.setBrk (h : x.Rep t vmas tr) (brk : Nat) : (x.setBrk t brk).Rep t vmas tr := by
  have horder : ∀ vmas : List Nat, (x.setBrk t brk).mm.listOrder vmas = x.mm.listOrder vmas := fun vmas => by
    cases vmas with
    | nil => rfl
    | cons r rest => rfl
  have hself : (x.setBrk t brk).paging.mm t = { x.paging.mm t with startBrk := brk } := setMm_mm_self ..
  refine ⟨⟨?_, h.built.aligned⟩, ?_, ?_, h.fresh, ?_⟩
  · rw [horder]
    exact h.built.hung.congr (fun _ _ => rfl) rfl rfl rfl
  · rw [hself]
    exact h.areas
  · rw [hself]
    rfl
  · rw [hself]
    exact h.user

/-- What is listed after a successful call is what the tree has. -/
theorem Rep.added {m' : Mm} {mem : Nat} {mems : List Nat} (h : x.Rep t vmas tr) (hmems : x.mems = mem :: mems)
    (hg : g.mm = x.paging.mm) (hlen : 0 < len) (hsum : addr + len < 2 ^ 32)
    (hc : x.mm.createVma addr len flags mem x.mm.rounds = some (mem, m')) : NewMm.Building
      ⟨g.setMm t { g.mm t with mmap := insertArea (newArea addr len) (g.mm t).mmap }, m', mems⟩ t := by
  have hfresh := h.fresh
  rw [hmems] at hfresh
  obtain ⟨h₀, hnew⟩ : mem ≠ 0 ∧ mem ∉ vmas := by simpa using hfresh.unused mem (mem_cons_self ..)
  obtain ⟨hleft, hright⟩ := hfresh.clean mem (mem_cons_self ..)
  have hin : ∀ a, a ∈ tr.inorder ↔ a ∈ vmas := h.built.mem_iff
  obtain ⟨tr', hadd⟩ := createVma_added h.built.hung.tree h.built.hung.asc h.built.aligned hlen hsum h₀
    (fun ht => hnew ((hin mem).mp ht)) hleft hright hc
  have hself : ((g.setMm t { g.mm t with mmap := insertArea (newArea addr len) (g.mm t).mmap }).mm t).mmap =
      insertArea (newArea addr len) (x.paging.mm t).mmap := by
    rw [setMm_mm_self, hg]
  refine ⟨_, tr', h.built.added hnew hadd, ?_, ?_, hfresh.rest fun a ha hne => ?_, fun a ha => ?_⟩
  · refine hself.trans ?_
    rw [h.areas]
    have hsame : tr.inorder.map m'.area = tr.inorder.map x.mm.area := map_congr_left fun a ha => by
      rw [area, area, (hadd.ranges a ha).1, (hadd.ranges a ha).2]
    refine sorted_unique (insertArea_sorted h.built.hung.asc.areas_sorted) hadd.asc.areas_sorted ?_
      hadd.asc.areas_unique
    have hperm := hadd.perm.map m'.area
    rw [map_cons, createVma_area h₀ hc, hsame] at hperm
    exact (insertArea_perm ..).trans hperm.symm
  · show m'.startBrk = ((g.setMm t _).mm t).startBrk
    rw [(createVma_brk hc).1, setMm_mm_self]
    rw [hg, h.startBrk]
  · exact hadd.outside a (fun ht => ha (mem_cons_of_mem _ ((hin a).mp ht))) hne
  · rcases mem_cons.mp ((insertArea_perm ..).mem_iff.mp (hself ▸ ha)) with rfl | ha
    · rw [← createVma_area h₀ hc]
      exact ⟨Nat.pos_of_ne_zero fun e => createVma_starts h₀ hc (hadd.start.symm.trans e), hadd.user⟩
    · exact h.user a ha

theorem createVma_rep (h : x.Building t) (hc : x.createVma t addr len flags = some (ok, x')) :
    x.paging.createVma t addr len = (ok, x'.paging) ∧ (0 < len → addr + len < 2 ^ 32 → x'.Building t) := by
  obtain ⟨vmas, tr, hx⟩ := h
  unfold createVma at hc
  unfold Paging.createVma
  by_cases hr : roundDown addr pageSize = 0
  · rw [if_pos hr] at hc
    cases hc
    rw [if_pos (.inl hr)]
    exact ⟨rfl, fun _ _ => ⟨vmas, tr, hx⟩⟩
  have h₀ : addr ≠ 0 := fun e => hr (by rw [e]; rfl)
  obtain ⟨r, hf, he⟩ := hx.built.hung.findVma_exact hx.areas addr
  rw [if_neg hr, getUnmappedVma_eq h₀ hf, he, bind_some] at hc
  dsimp only at hc ⊢
  by_cases hno : kernelBaseAddr < len ∨ kernelBaseAddr < wrap (addr + len) ∨
      ((x.paging.mm t).findVma addr).any (fun a => a.vmStart < wrap (addr + len)) = true
  · rw [if_pos hno, if_pos rfl] at hc
    cases hc
    rw [if_pos (.inr hno)]
    exact ⟨rfl, fun _ _ => ⟨vmas, tr, hx⟩⟩
  rw [if_neg hno, if_neg h₀] at hc
  rw [if_neg (not_or.mpr ⟨hr, hno⟩)]
  cases hk : x.paging.kmalloc with
  | mk b g =>
    have hmm : g.mm = x.paging.mm := by
      obtain ⟨rest, rfl⟩ := kmalloc_eq hk
      rfl
    cases b with
    | false =>
      rw [hk] at hc
      cases hc
      exact ⟨rfl, fun _ _ => Building.withPaging ⟨vmas, tr, hx⟩ (by rw [hmm]) (by rw [hmm])⟩
    | true =>
      cases hm : x.mems with
      | nil =>
        rw [hk, hm] at hc
        cases hc
      | cons mem mems =>
        rw [hk, hm] at hc
        obtain ⟨m', hlink, e⟩ := map_eq_some_iff.mp hc
        cases e
        refine ⟨?_, fun hlen hsum => ?_⟩
        · rw [if_pos rfl, hmm]
        have hmem : mem ≠ 0 := fun e => hx.fresh.unused mem (by rw [hm]; exact mem_cons_self ..) (by simp [e])
        rw [not_or, not_or, Nat.not_lt, Nat.not_lt, wrap_of_lt hsum, ← he] at hno
        refine hx.added hm hmm hlen hsum (createVma_some hr hno.2.1 hf ?_ hmem hlink)
        have hany := hno.2.2
        unfold areaAt at hany
        by_cases hr₀ : r = 0
        · exact .inl hr₀
        · rw [if_neg hr₀] at hany
          exact .inr (by simpa [area] using hany)

/-! ## The loader -/

theorem loadSegments_rep : ∀ {prog : List Segment} {x : NewMm}, x.Building t → loadSegments t prog x = some x' →
    x.paging.loadSegments t prog = some (true, x'.paging) ∧ x'.Building t
  | [], x, h, hl => by
    cases hl
    exact ⟨rfl, h⟩
  | g :: prog, x, h, hl => by
    simp only [loadSegments, bind_eq_some_iff, Prod.exists] at hl
    obtain ⟨ok, x₁, hc, hl⟩ := hl
    split at hl
    · cases hl
    next hgood =>
    rw [not_or, not_or, Bool.not_eq_false, Nat.not_le] at hgood
    obtain ⟨rfl, hsz, hsum⟩ := hgood
    obtain ⟨⟨ok, p⟩, hr, hl⟩ := bind_eq_some_iff.mp hl
    split at hl
    · next hok =>
      obtain ⟨hpaging, hbuild⟩ := createVma_rep h hc
      have hmaps := (regionAlloc_entries hr).1
      obtain ⟨hload, hx'⟩ := loadSegments_rep
        ((hbuild (Nat.pos_of_ne_zero hsz) hsum).withPaging (hmaps.mmap t) (hmaps.startBrk t)) hl
      refine ⟨?_, hx'⟩
      rw [Paging.loadSegments, Paging.loadSegment, hpaging]
      dsimp only
      rw [hr, bind_some, if_pos hok]
      exact hload
    · cases hl

theorem loadIcode_rep {prog : List Segment} (h : x.Building t) (hl : loadIcode t prog x = some x') :
    x.paging.loadIcode t prog = some (true, x'.paging) ∧ x'.Building t := by
  simp only [loadIcode, bind_eq_some_iff, Prod.exists] at hl
  obtain ⟨x₁, hsegs, ok, x₂, hstack, hl⟩ := hl
  obtain ⟨hp₁, h₁⟩ := loadSegments_rep h hsegs
  obtain ⟨hp₂, h₂⟩ := createVma_rep h₁ hstack
  cases ok with
  | false => cases hl
  | true =>
    rw [if_pos rfl, bind_eq_some_iff] at hl
    obtain ⟨⟨ok, x₃⟩, hheap, hl⟩ := hl
    cases ok with
    | false => cases hl
    | true =>
      cases hl
      obtain ⟨vmas, tr, hx₂⟩ := h₂ (by decide) (by decide)
      obtain ⟨hp₃, h₃⟩ := createVma_rep ⟨vmas, tr, hx₂.setBrk (heapStart prog)⟩ hheap
      have hle := heapStart_le (loadSegments_ends hp₁)
      refine ⟨?_, h₃ (by decide) (by unfold kernelBaseAddr pageSize at *; omega)⟩
      rw [Paging.loadIcode, hp₁, bind_some]
      dsimp only
      rw [if_pos rfl, hp₂]
      dsimp only
      rw [show x₂.paging.setMm t _ = (x₂.setBrk t (heapStart prog)).paging from rfl, hp₃]

/-! ## Fork -/

theorem copyTask_rep {src : Mm} {child : Nat} (hne : t ≠ child) : ∀ {left vma : Nat} {l : List Nat} {x : NewMm},
    Chain src.next 0 vma l →
    (∀ a ∈ l, (src.heap a).vmStart < (src.heap a).vmEnd ∧ (src.heap a).vmEnd ≤ kernelBaseAddr) →
    x.Building child → copyTask src t child left vma x = some (ok, x') →
    x.paging.copyTask t child (l.map src.area) = (ok, x'.paging) ∧ x'.Building child
  | 0, _, _, _, _, _, _, hcopy => by cases hcopy
  | left + 1, vma, [], x, hl, _, h, hcopy => by
    rw [copyTask, if_pos (show vma = 0 from hl)] at hcopy
    cases hcopy
    exact ⟨rfl, h⟩
  | left + 1, vma, a :: l, x, ⟨e, h₀, hl⟩, ha, h, hcopy => by
    subst e
    obtain ⟨⟨hlong, hend⟩, ha⟩ := forall_mem_cons.mp ha
    rw [copyTask, if_neg h₀] at hcopy
    obtain ⟨⟨ok₁, x₁⟩, hc, hcopy⟩ := bind_eq_some_iff.mp hcopy
    have hlen : (src.area vma).length = (src.heap vma).vmEnd - (src.heap vma).vmStart :=
      Area.length_of_le (a := src.area vma) hlong.le hend
    obtain ⟨hp₁, h₁⟩ := createVma_rep h hc
    have hx₁ := h₁ (hlen ▸ Nat.sub_pos_of_lt hlong) (by
      rw [hlen]
      show (src.heap vma).vmStart + _ < _
      unfold kernelBaseAddr at hend
      omega)
    rw [map_cons, Paging.copyTask, hp₁]
    cases ok₁ with
    | false =>
      cases hcopy
      exact ⟨rfl, hx₁⟩
    | true =>
      dsimp only at hcopy ⊢
      rw [if_pos rfl] at hcopy
      cases hpages : x₁.paging.copyPages t child (src.area vma).addrs with
      | mk b g =>
        rw [hpages] at hcopy
        have hareas := copyPages_areas hne hpages
        have hx₂ := hx₁.withPaging (hareas.mmap child) (hareas.startBrk child)
        cases b with
        | false =>
          cases hcopy
          exact ⟨rfl, hx₂⟩
        | true => exact copyTask_rep hne hl ha hx₂ hcopy

end NewMm

/-! ## Runs -/

namespace TaskSpaces

variable {s s' : TaskSpaces} {t : Nat} {mems : List Nat}

def Backed (s : TaskSpaces) : Prop := ∀ t ∈ s.paging.tasks, MiniOS.Backed (s.vm t) (s.paging.mm t)

theorem Backed.sameAreas {g : Paging} (h : s.Backed) (hg : Paging.SameAreas s.paging g) :
    ({ s with paging := g } : TaskSpaces).Backed :=
  fun t ht => (h t (hg.tasks ▸ ht)).congr (hg.mmap t) (hg.startBrk t)

theorem Backed.kills {g : Paging} (h : s.Backed) (hk : Paging.Kills t s.paging g) :
    ({ s with paging := g } : TaskSpaces).Backed := fun t' ht' => by
  have ht' : t' ∈ s.paging.tasks.erase t := hk.tasks ▸ ht'
  rw [hk.other t' (Finset.ne_of_mem_erase ht')]
  exact h t' (Finset.mem_of_mem_erase ht')

theorem exitMm_some {junk : Nat → Vma} (h : MiniOS.Backed (s.vm t) (s.paging.mm t))
    (he : s.exitMm t junk = some s') :
    ∃ l g, l.Perm (s.paging.mm t).mmap ∧ s.paging.exitAreas t l = some g ∧ s' = { s with paging := g } := by
  obtain ⟨born, l, tr, h⟩ := h
  unfold exitMm at he
  obtain ⟨⟨m', log⟩, hd, he⟩ := bind_eq_some_iff.mp he
  dsimp only at he
  split at he
  · next hnd =>
    obtain ⟨g, hg, rfl⟩ := map_eq_some_iff.mp he
    refine ⟨_, g, ?_, hg, rfl⟩
    rw [(h.hung.deleteAll_once hd hnd).2]
    exact h.freed_perm
  · cases he

theorem taskCreate_rep {prog : List Segment} {memory : Nat → Vma} (hf : FreshMems memory [0] mems)
    (hs : s.taskCreate t prog memory mems = some s') :
    s.paging.taskCreate t prog = some s'.paging ∧ MiniOS.Backed (s'.vm t) (s'.paging.mm t) ∧
      (∀ t', t' ≠ t → s'.vm t' = s.vm t') ∧ ∀ a ∈ (s'.paging.mm t).mmap, a.Fits := by
  unfold taskCreate at hs
  split at hs
  · cases hs
  next p g ha =>
  obtain ⟨x, hl, rfl⟩ := map_eq_some_iff.mp hs
  have hnew : (g.newMm t 0 p).mm t = ⟨[], 0, p, fun _ => none⟩ := setMm_mm_self ..
  have hbuild : NewMm.Building ⟨g.newMm t 0 p, .allocMm memory, mems⟩ t :=
    NewMm.building_alloc 0 (by rw [hnew]) (by rw [hnew]) hf
  obtain ⟨hload, hx⟩ := NewMm.loadIcode_rep hbuild hl
  refine ⟨?_, ?_, fun t' hne => update_of_ne hne .., hx.fits⟩
  · rw [Paging.taskCreate, ha]
    dsimp only at hload ⊢
    rw [hload, bind_some, if_pos rfl]
  · show MiniOS.Backed (update s.vm t x.mm t) _
    rw [update_self]
    exact hx.backed

/-- A program all of whose segments agree with their areas starts with its pages inside of them. -/
theorem taskCreate_fits {prog : List Segment} {memory : Nat → Vma} (h : s.paging.Fits)
    (hva : ∀ g ∈ prog, g.va < 2 ^ 32) (hg : ∀ g ∈ prog, g.Agrees) (hf : FreshMems memory [0] mems)
    (hs : s.taskCreate t prog memory mems = some s') : s'.paging.Fits := by
  obtain ⟨hcreate, hback, -, hfits⟩ := taskCreate_rep hf hs
  obtain ⟨htasks, hsp, -⟩ := taskCreate_spaces hva hcreate
  intro t' ht'
  by_cases e : t' = t
  · rw [e]
    obtain ⟨p, g, -, hl⟩ := taskCreate_some hcreate
    refine ⟨hfits, hback.apart, loadIcode_covered hg hl fun v hv => absurd ?_ hv⟩
    rw [newMm, setMm_mm_self]
    rfl
  · exact hsp.fits e (h t' (htasks t' ht' e))

theorem doFork_rep {child : Nat} {memory junk : Nat → Vma}
    (h : MiniOS.Backed (s.vm t) (s.paging.mm t)) (hap : (s.paging.mm t).Apart) (hne : t ≠ child)
    (hchild : child ∉ s.paging.tasks) (hf : FreshMems memory [0] mems)
    (hs : s.doFork t child memory mems junk = some s') :
    (∃ l back, l.Perm (s.paging.mm t).mmap ∧ (∀ l, (back l).Perm l) ∧
      s.paging.forkAlong t child l back = some s'.paging) ∧ (∀ t', t' ≠ child → s'.vm t' = s.vm t') ∧
      (child ∈ s'.paging.tasks → MiniOS.Backed (s'.vm child) (s'.paging.mm child)) := by
  obtain ⟨born, l, tr, h⟩ := h
  have hperm : (l.map (s.vm t).area).Perm (s.paging.mm t).mmap := by
    rw [h.areas]
    exact h.hung.perm.symm.map _
  unfold doFork at hs
  split at hs
  · next g hstart =>
    cases hs
    obtain ⟨-, htakes⟩ | ⟨_, _, _, hno, -⟩ := forkStart_cases hstart
    · refine ⟨⟨_, id, hperm, .refl, by rw [forkAlong, hstart]⟩, fun _ _ => rfl, fun hmem => absurd ?_ hchild⟩
      exact htakes.mm.1 ▸ hmem
    · cases hno
  next p g hstart =>
  obtain ⟨hno, -⟩ | ⟨_, s₂, s₃, -, h₂, ha, hfiles⟩ := forkStart_cases hstart
  · cases hno
  have hmm : g.mm = s.paging.mm := ((h₂.trans (.pageAlloc ha)).trans (.copyFiles hfiles)).mm.2
  obtain ⟨⟨ok, x⟩, hcopy, hs⟩ := bind_eq_some_iff.mp hs
  have hnew : (g.newMm child (g.mm t).startBrk p).mm child = ⟨[], (g.mm t).startBrk, p, fun _ => none⟩ :=
    setMm_mm_self ..
  have hranges : ∀ a ∈ l, ((s.vm t).heap a).vmStart < ((s.vm t).heap a).vmEnd ∧
      ((s.vm t).heap a).vmEnd ≤ kernelBaseAddr := fun a ha =>
    ⟨(h.hung.asc.area a (h.hung.perm.mem_iff.mpr ha)).1, hap.2 _ (hperm.mem_iff.mp (List.mem_map_of_mem ha))⟩
  obtain ⟨hpaging, hx⟩ := NewMm.copyTask_rep hne h.hung.list hranges
    (NewMm.building_alloc _ (by rw [hnew]) (by rw [hnew, hmm]; exact h.startBrk) hf) hcopy
  have hback : MiniOS.Backed (update s.vm child x.mm child) (x.paging.mm child) := by
    rw [update_self]
    exact hx.backed
  unfold forkAlong
  rw [hstart]
  dsimp only at hpaging hs ⊢
  cases ok with
  | true =>
    cases hs
    exact ⟨⟨_, id, hperm, .refl, by rw [hpaging]⟩, fun _ h => update_of_ne h .., fun _ => hback⟩
  | false =>
    obtain ⟨k, g', hk, hexit, rfl⟩ := exitMm_some (s := ⟨x.paging, _⟩) hback hs
    classical
    refine ⟨⟨_, fun a => if a = (x.paging.mm child).mmap then k else a, hperm, fun a => ?_, ?_⟩,
      fun _ h => update_of_ne h .., fun hmem => ?_⟩
    · dsimp only
      split
      · next e =>
        rw [e]
        exact hk
      · exact .refl a
    · rw [hpaging]
      dsimp only
      rw [if_pos rfl]
      exact hexit
    · rw [(exitAreas_kills hexit).tasks] at hmem
      exact absurd rfl (Finset.ne_of_mem_erase hmem)

end TaskSpaces

section
variable {m : Mm} {sp : Space} {born : Nat → Nat} {l : List Nat} {t : BTree Nat} {vma e : Nat}

/-! ## `brk` -/

theorem Hung.grow (h : Hung m born l t) (hasc : Ascending (m.growTo vma e) t.inorder) :
    Hung (m.growTo vma e) born l t := by
  have hfield := fun {β : Type} (f : Vma → β) hf a => growTo_heap_field f hf m vma e a
  refine ⟨h.tree.congr fun a _ => ?_, hasc, h.perm, h.list.congr fun a _ => ?_, h.count, fun a ha => ?_, ?_⟩
  · exact ⟨hfield Vma.rbLeft (fun _ _ => rfl) a, hfield Vma.rbRight (fun _ _ => rfl) a,
      hfield Vma.rbParent (fun _ _ => rfl) a⟩
  · exact hfield Vma.vmNext (fun _ _ => rfl) a
  · rw [hfield Vma.rbParent (fun _ _ => rfl)]
    exact h.older a ha
  · refine h.order.imp fun {a b} hab => ?_
    rw [hfield Vma.vmStart (fun _ _ => rfl), hfield Vma.vmStart (fun _ _ => rfl)]
    exact hab

/-- The starts keep their order, so areas that are apart are in order. -/
theorem Ascending.regrow (h : Ascending m l) (hv : (m.heap vma).vmStart < e)
    (hap : (l.map (m.growTo vma e).area).Pairwise fun a b => a.vmEnd ≤ b.vmStart ∨ b.vmEnd ≤ a.vmStart) :
    Ascending (m.growTo vma e) l := by
  have hstart := growTo_heap_field Vma.vmStart (fun _ _ => rfl) m vma e
  have hlong : ∀ a ∈ l, ((m.growTo vma e).heap a).vmStart < ((m.growTo vma e).heap a).vmEnd := fun a ha => by
    rw [hstart]
    by_cases hne : a = vma
    · rw [hne, growTo_heap_self]
      exact hv
    · rw [growTo_heap_of_ne m e hne]
      exact (h.area a ha).1
  refine ⟨?_, fun a ha => ⟨hlong a ha, ?_⟩⟩
  · refine (h.starts.and (pairwise_map.mp hap)).imp_of_mem fun {a b} ha hb hab => ?_
    obtain ⟨hlt, hside⟩ := hab
    have hb := hlong b hb
    rw [← hstart a, ← hstart b] at hlt
    unfold Mm.area at hside
    dsimp only at hside
    omega
  · rw [hstart]
    exact (h.area a ha).2

theorem growHeap_areas (h : Ascending m l) (hmem : vma ∈ l) (hareas : sp.mmap = l.map m.area)
    (hstart : (m.heap vma).vmStart = sp.startBrk) :
    (sp.mmap.map fun b => if b.vmStart = sp.startBrk then { b with vmEnd := e } else b) =
      l.map (m.growTo vma e).area := by
  rw [hareas, List.map_map]
  refine map_congr_left fun a ha => ?_
  unfold area
  by_cases hne : a = vma
  · rw [hne, growTo_heap_self]
    exact if_pos hstart
  · rw [growTo_heap_of_ne m e hne]
    exact if_neg fun hs => hne (h.eq_of_start ha hmem (hs.trans hstart.symm))

theorem HeapArea.mem (ha : HeapArea m vma) (h : Hung m born l t) : vma ∈ t.inorder := by
  obtain ⟨⟨fuel, hf⟩, h₀, -⟩ := ha
  have hspec := findVma_spec fuel h.tree.below h.asc.inOrder hf
  cases hfind : t.inorder.find? fun a => m.startBrk < (m.heap a).vmEnd with
  | none =>
    rw [hfind] at hspec
    exact absurd hspec h₀
  | some a =>
    rw [hfind] at hspec
    exact hspec ▸ mem_of_find?_eq_some hfind

end

namespace TaskSpaces

variable {s s' : TaskSpaces} {t : Nat}

theorem brk_rep {endData r : Nat} (h : MiniOS.Backed (s.vm t) (s.paging.mm t)) (hs : s.brk t endData = some (r, s'))
    (hap : (s'.paging.mm t).Apart) :
    (s'.paging = s.paging ∨ s'.paging = s.paging.growHeap t endData) ∧
      (∀ t', t' ≠ t → s'.vm t' = s.vm t') ∧ MiniOS.Backed (s'.vm t) (s'.paging.mm t) := by
  unfold brk at hs
  obtain ⟨⟨r, m⟩, hb, e⟩ := map_eq_some_iff.mp hs
  cases e
  have hself : update s.vm t m t = m := update_self ..
  have hother : ∀ t', t' ≠ t → update s.vm t m t' = s.vm t' := fun _ h => update_of_ne h ..
  cases brk_result hb with
  | kept | atStart | refused =>
    rw [if_pos rfl] at hap ⊢
    refine ⟨.inl rfl, hother, ?_⟩
    show MiniOS.Backed (update s.vm t (s.vm t) t) _
    rw [hself]
    exact h
  | grown vma ha hlt hgt =>
    have hmoved : ¬ ((s.vm t).growTo vma endData).endBrk = (s.vm t).endBrk := Nat.ne_of_gt hgt
    rw [if_neg hmoved] at hap ⊢
    refine ⟨.inr rfl, hother, ?_⟩
    show MiniOS.Backed (update s.vm t _ t) ((s.paging.growHeap t endData).mm t)
    rw [hself]
    obtain ⟨born, l, tr, h⟩ := h
    have hsp : (s.paging.growHeap t endData).mm t = { s.paging.mm t with mmap := (s.paging.mm t).mmap.map fun b =>
        if b.vmStart = (s.paging.mm t).startBrk then { b with vmEnd := endData } else b } := setMm_mm_self ..
    have hareas := growHeap_areas (e := endData) h.hung.asc (ha.mem h.hung) h.areas (ha.2.2.trans h.startBrk)
    have hgrown : ((s.paging.growHeap t endData).mm t).mmap = tr.inorder.map
        ((s.vm t).growTo vma endData).area := by
      rw [hsp]
      exact hareas
    have hasc := h.hung.asc.regrow (ha.2.2 ▸ hlt) (hgrown ▸ hap.1)
    refine ⟨born, l, tr, h.hung.grow hasc, hgrown, ?_, h.newest⟩
    rw [hsp]
    exact h.startBrk

/-- A step is one of the lists of areas, or changes nothing of what they describe. -/
theorem step_refines (h : s.Backed) (hap : s.paging.Apart) (hap' : s'.paging.Apart) (hs : TaskStep s s') :
    (UserStep s.paging s'.paging ∨ s'.paging = s.paging) ∧ s'.Backed := by
  cases hs with
  | @create _ t _ _ _ ht hva hf hs =>
    obtain ⟨hpaging, hnew, hvm, -⟩ := taskCreate_rep hf hs
    obtain ⟨htasks, hsp, -⟩ := taskCreate_spaces hva hpaging
    refine ⟨.inl (.create ht hva hpaging), fun t' ht' => ?_⟩
    by_cases e : t' = t
    · rw [e]
      exact hnew
    · rw [hvm t' e]
      exact (h t' (htasks t' ht' e)).congr (hsp.mmap t' e) (hsp.startBrk t' e)
  | pushArgs ht hcur hs => exact ⟨.inl (.pushArgs ht hcur hs), h.sameAreas (pushArgs_areas hs)⟩
  | fault ht hf hs =>
    unfold fault at hs
    rw [(h _ ht).lookup, bind_some] at hs
    obtain ⟨⟨ok, g⟩, hin, e⟩ := map_eq_some_iff.mp hs
    cases e
    exact ⟨.inl (.fault ht hf hin), h.sameAreas (faultIn_areas hin)⟩
  | kill ht hf hs hexit =>
    unfold fault at hs
    rw [(h _ ht).lookup, bind_some] at hs
    obtain ⟨⟨ok, g⟩, hin, e⟩ := map_eq_some_iff.mp hs
    cases e
    have hareas := faultIn_areas hin
    have h₁ := h.sameAreas hareas
    obtain ⟨l, g', hl, hg, rfl⟩ := exitMm_some (h₁ _ (hareas.tasks ▸ ht)) hexit
    rw [hareas.mmap] at hl
    exact ⟨.inl (.kill ht hf hin hl hg), h₁.kills (exitAreas_kills hg)⟩
  | @brk _ t endData _ ht hs =>
    have htasks : s'.paging.tasks = s.paging.tasks := by
      unfold brk at hs
      obtain ⟨⟨_, m⟩, -, e⟩ := map_eq_some_iff.mp hs
      cases e
      split
      · rfl
      · rfl
    obtain ⟨hpaging, hvm, hnew⟩ := brk_rep (h t ht) hs (hap' t (htasks ▸ ht))
    refine ⟨?_, fun t' ht' => ?_⟩
    · rcases hpaging with e | e
      · exact .inr e
      · rw [e]
        exact .inl (.brk endData ht)
    by_cases e : t' = t
    · rw [e]
      exact hnew
    · have hother : s'.paging.mm t' = s.paging.mm t' := by
        rcases hpaging with e' | e'
        · rw [e']
        · rw [e']
          exact setMm_mm_of_ne _ _ e
      rw [hvm t' e, hother]
      exact h t' (htasks ▸ ht')
  | @fork _ t child _ _ _ ht hchild hf hs =>
    have hne : t ≠ child := fun e => hchild (e ▸ ht)
    obtain ⟨⟨l, back, hl, hback, hpaging⟩, hvm, hnew⟩ := doFork_rep (h t ht) (hap t ht) hne hchild hf hs
    obtain ⟨htasks, hsp, -⟩ := forkAlong_spaces ht hchild hpaging
    refine ⟨.inl (.fork ht hchild hl hback hpaging), fun t' ht' => ?_⟩
    by_cases e : t' = child
    · rw [e] at ht' ⊢
      exact hnew ht'
    · rw [hvm t' e]
      exact (h t' (htasks t' ht' e)).congr (hsp.mmap t' e) (hsp.startBrk t' e)
  | exit ht hs =>
    obtain ⟨l, g, hl, hg, rfl⟩ := exitMm_some (h _ ht) hs
    exact ⟨.inl (.exit ht hl hg), h.kills (exitAreas_kills hg)⟩
  | memory mem => exact ⟨.inl (.memory mem), h⟩
  | oracle answers kmallocs => exact ⟨.inl (.oracle answers kmallocs), h⟩

end TaskSpaces

/-- Every run with the areas of the kernel is a run with the lists of areas. -/
theorem TaskRun.refines {P : Paging → Prop} (hP : ∀ g, P g → g.Apart) {s : TaskSpaces} (h : TaskRun P s) :
    UserRun P s.paging ∧ s.Backed ∧ P s.paging := by
  induction h with
  | start h₀ hp =>
    refine ⟨.start h₀ hp, fun t ht => ?_, hp⟩
    rw [h₀.tasks] at ht
    cases ht
  | step _ hs hp' ih =>
    obtain ⟨hrun, hback, hp⟩ := ih
    obtain ⟨hstep | e, hback'⟩ := TaskSpaces.step_refines hback (hP _ hp) (hP _ hp') hs
    · exact ⟨.step hrun hstep hp', hback', hp'⟩
    · exact ⟨e ▸ hrun, hback', hp'⟩

def TaskSpaces.blank : TaskSpaces where
  paging := ⟨fun _ => 0, List.range' 1 24, fun _ _ => 0, ∅, fun _ => ⟨[], 0, 0, fun _ => none⟩, List.range' 1 24,
    List.replicate 16 true⟩
  vm _ := .allocMm fun _ => zeroVma

theorem TaskSpaces.blank_start : TaskSpaces.blank.paging.Start := ⟨rfl, fun _ => rfl, nodup_range'⟩

def onePageSegment (va : Nat) (code : Bool) : Segment := ⟨va, 0x1000, 0x1000, code⟩

theorem freshMems_zero {mems : List Nat} (h : mems.Nodup) (h₀ : 0 ∉ mems) : FreshMems (fun _ => zeroVma) [0] mems :=
  ⟨h, fun _ ha e => h₀ (mem_singleton.mp e ▸ ha), fun _ _ => ⟨rfl, rfl⟩⟩

end MiniOS
