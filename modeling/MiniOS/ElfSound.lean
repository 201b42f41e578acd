import MiniOS.Elf
import MiniOS.PagingSound

/-!
# What the loader touches

The accesses of a round of the loop are inside the file and the segment exactly if its header is
in the file and its fields pass the checks that nobody makes.
-/

namespace MiniOS

open List

theorem ld32_lt (m : Mem) (a : Nat) : ld32 m a < 2 ^ 32 := by
  have h₀ := (m a).toNat_lt
  have h₁ := (m (a + 1)).toNat_lt
  have h₂ := (m (a + 2)).toNat_lt
  have h₃ := (m (a + 3)).toNat_lt
  unfold ld32
  omega

section
variable {binary size : Nat}

/-! ## Single accesses -/

theorem inside_read {addr len : Nat} (hlen : 0 < len) (hno : addr + len ≤ 2 ^ 32) :
    (LoadEvent.read addr len).Inside binary size ↔ binary ≤ addr ∧ addr + len ≤ binary + size := by
  unfold LoadEvent.Inside
  constructor
  · intro h
    have hfirst := h 0 hlen
    have hlast := h (len - 1) (by omega)
    unfold wrap at hfirst hlast
    omega
  · intro h k hk
    unfold wrap
    omega

section
variable (hpos : 0 < binary) (hend : binary + size ≤ 2 ^ 32)
include hpos hend

theorem inside_header {o len : Nat} (hlen : 0 < len) (ho : o + len ≤ 2 ^ 32) :
    (LoadEvent.read (binary + o) len).Inside binary size ↔ o + len ≤ size := by
  unfold LoadEvent.Inside
  constructor
  · intro h
    have hlast := h (len - 1) (by omega)
    unfold wrap at hlast
    omega
  · intro h k hk
    unfold wrap
    omega

theorem inside_file {offset filesz : Nat} (hoff : offset < 2 ^ 32) :
    (LoadEvent.read (wrap (binary + offset)) filesz).Inside binary size ↔ filesz = 0 ∨ offset + filesz ≤ size := by
  unfold LoadEvent.Inside
  constructor
  · intro h
    refine Classical.byContradiction fun hno => ?_
    -- the first byte that is read behind the end of the file
    have hbad := h (size - offset) (by omega)
    unfold wrap at hbad
    omega
  · intro h k hk
    unfold wrap
    omega

end

theorem not_inside_store {g : Segment} (hmem : g.memsz < 2 ^ 32) (h : g.memsz < g.filesz) :
    ¬ (LoadEvent.store g g.va g.filesz).Inside binary size := by
  intro hin
  have hbad := hin g.memsz h
  unfold wrap at hbad
  omega

theorem inside_stores {g : Segment} (hva : g.va < 2 ^ 32) (hmem : 0 < g.memsz) (hmem' : g.memsz < 2 ^ 32)
    (hle : g.filesz ≤ g.memsz) :
    ((LoadEvent.store g g.va g.filesz).Inside binary size ∧
      (LoadEvent.store g (wrap (g.va + g.filesz)) (g.memsz - g.filesz)).Inside binary size) ↔
      g.va + g.memsz ≤ kernelBaseAddr := by
  unfold LoadEvent.Inside
  constructor
  · intro h
    obtain ⟨hcopy, hclear⟩ := h
    -- the last byte of the segment is in one of the two
    by_cases hall : g.filesz = g.memsz
    · have hlast := hcopy (g.memsz - 1) (by omega)
      unfold wrap at hlast
      omega
    · have hlast := hclear (g.memsz - g.filesz - 1) (by omega)
      unfold wrap at hlast
      omega
  · intro h
    unfold kernelBaseAddr at *
    refine ⟨fun k hk => ?_, fun k hk => ?_⟩
    · unfold wrap
      omega
    · unfold wrap
      omega

end

/-! ## Pieces of the log -/

def Loader.Owned (l : List LoadEvent) : Prop := ∀ g addr len, .store g addr len ∈ l → ∃ offset,
    .segment offset g ∈ l

theorem Loader.Owned.append {l l' : List LoadEvent} (h : Owned l) (h' : Owned l') : Owned (l ++ l') := by
  intro g addr len hmem
  rcases mem_append.mp hmem with hmem | hmem
  · obtain ⟨offset, ho⟩ := h g addr len hmem
    exact ⟨offset, mem_append_left _ ho⟩
  · obtain ⟨offset, ho⟩ := h' g addr len hmem
    exact ⟨offset, mem_append_right _ ho⟩

namespace Loader

variable {binary size : Nat} {s s' : Loader} {t : Nat} {r : Option LoadEnd}

/-! ## A round of the loop -/

section
variable (x : Segment)

theorem setEnd_log : (s.setEnd x).log = s.log := by
  unfold setEnd
  split <;> rfl

theorem setEnd_mem : (s.setEnd x).mem = s.mem := by
  unfold setEnd
  split <;> rfl

theorem setEnd_paging : (s.setEnd x).paging = s.paging := by
  unfold setEnd
  split <;> rfl

theorem setEnd_endCode : (s.setEnd x).endCode = if x.code = true then wrap (x.va + x.memsz) else s.endCode := by
  unfold setEnd
  split <;> rfl

theorem setEnd_endData : (s.setEnd x).endData = if x.code = false then wrap (x.va + x.memsz) else s.endData := by
  unfold setEnd
  cases x.code with
  | false => rfl
  | true => rfl

end

structure Taken (s : Loader) (t ph : Nat) (s' : Loader) : Prop where
  pos : (s.mem.segment ph).memsz ≠ 0
  mem : s'.mem = s.mem
  log : s'.log = s.log ++ [24, 8, 20, 4, 16].map fun o => .read (ph + o) 4
  paging : s.paging.loadSegment t (s.mem.segment ph).va (s.mem.segment ph).memsz = some (true, s'.paging)
  endCode : s'.endCode = ((s.setEnd (s.mem.segment ph))).endCode
  endData : s'.endData = ((s.setEnd (s.mem.segment ph))).endData

/-- The segment is refused, which ends the loop. -/
structure Refused (s : Loader) (t ph : Nat) (r : Option LoadEnd) (s' : Loader) : Prop where
  log : s'.log = s.log ++ [24, 8, 20].map fun o => .read (ph + o) 4
  stops : r ≠ none
  notDone : r ≠ some .done
  paging : ∀ g, s.paging.loadSegment t (s.mem.segment ph).va (s.mem.segment ph).memsz = some (true, g) →
    (s.mem.segment ph).memsz = 0

theorem loadSegment_cases {ph : Nat} (h : s.loadSegment t binary ph = (r, s')) :
    s.Refused t ph r s' ∨
      ∃ s₁, s.Taken t ph s₁ ∧ s₁.copySegment binary ph (ld32 s.mem (ph + 4)) (s.mem.segment ph) = (r, s') := by
  unfold loadSegment at h
  dsimp only at h
  rw [note, setEnd_log, setEnd_mem, setEnd_paging] at h
  split at h
  · next g₁ hc =>
    cases h
    exact .inl ⟨rfl, by simp, by simp, by simp [Paging.loadSegment, hc]⟩
  next g₁ hc =>
  split at h
  · next hz =>
    cases h
    exact .inl ⟨rfl, by simp, by simp, fun _ _ => hz⟩
  next hne =>
  split at h
  · next hr =>
    cases h
    exact .inl ⟨rfl, by simp, by simp, by simp [Paging.loadSegment, hc, hr]⟩
  · next g₂ hr =>
    cases h
    exact .inl ⟨rfl, by simp, by simp, by simp [Paging.loadSegment, hc, hr]⟩
  next g₂ hr =>
  refine .inr ⟨_, ?_, h⟩
  refine ⟨hne, rfl, append_assoc .., ?_, rfl, rfl⟩
  unfold Paging.loadSegment
  rw [hc]
  exact hr

structure Copied (binary offset : Nat) (x : Segment) (r : Option LoadEnd) (s s' : Loader) : Prop where
  notDone : r ≠ some .done
  log : ∃ l, s'.log = s.log ++
      ([.segment offset x, .read (wrap (binary + offset)) x.filesz, .store x x.va x.filesz] ++ l) ∧
    ∀ e ∈ l, ∃ addr len, e = .store x addr len
  paging : s'.paging = s.paging
  endCode : s'.endCode = s.endCode
  endData : s'.endData = s.endData

theorem copySegment_spec {ph offset : Nat} {x : Segment}
    (h : s.copySegment binary ph offset x = (r, s')) : Copied binary offset x r s s' := by
  unfold copySegment at h
  dsimp only at h
  split at h
  · cases h
    exact ⟨by decide, ⟨[], rfl, by simp⟩, rfl, rfl, rfl⟩
  · cases h
    exact ⟨by decide, ⟨_, append_assoc .., by simp⟩, rfl, rfl, rfl⟩

theorem copySegment_owned {ph offset : Nat} {g : Segment}
    (h : s.copySegment binary ph offset g = (r, s')) : ∃ l, s'.log = s.log ++ l ∧ Owned l := by
  obtain ⟨l, hlog, hl⟩ := (copySegment_spec h).log
  refine ⟨_, hlog, fun g' addr len hin => ⟨offset, ?_⟩⟩
  obtain rfl : g' = g := by
    rcases mem_append.mp hin with hin | hin
    · simp only [mem_cons, reduceCtorEq, LoadEvent.store.injEq, not_mem_nil, or_false, false_or] at hin
      exact hin.1
    · obtain ⟨_, _, he⟩ := hl _ hin
      cases he
      rfl
  exact mem_append_left _ (mem_cons_self ..)

/-! ## The file in memory -/

def KernelSame (m m' : Mem) : Prop := ∀ x, kernelBaseAddr ≤ x → x < 2 ^ 32 → m' x = m x

variable {m m' m'' : Mem}

theorem KernelSame.trans (h : KernelSame m m') (h' : KernelSame m' m'') : KernelSame m m'' :=
  fun x hx hx' => (h' x hx hx').trans (h x hx hx')

theorem KernelSame.word (h : KernelSame m m') {a : Nat} (ha : kernelBaseAddr ≤ a) (ha' : a + 4 ≤ 2 ^ 32) :
    ld32 m' a = ld32 m a :=
  ld32_congr fun x hx hx' => h x (ha.trans hx) (by omega)

theorem KernelSame.segment (h : KernelSame m m') {ph : Nat} (hph : kernelBaseAddr ≤ ph) (hph' : ph + 32 ≤ 2 ^ 32) :
    m'.segment ph = m.segment ph := by
  have hsame : ∀ o ≤ 24, ld32 m' (ph + o) = ld32 m (ph + o) :=
    fun o ho => h.word (hph.trans (Nat.le_add_right ..)) (by omega)
  unfold Mem.segment
  rw [hsame 8 (by decide), hsame 20 (by decide), hsame 16 (by decide), hsame 24 (by decide)]

section
variable {va src n : Nat} (hlow : ∀ k < n, wrap (va + k) < kernelBaseAddr)
include hlow

theorem not_wsub_lt {x : Nat} (hx : kernelBaseAddr ≤ x) (hx' : x < 2 ^ 32) : ¬ wsub x va < n := by
  intro hlt
  have hbad := hlow _ hlt
  unfold wsub wrap at hbad
  omega

/-- Copies and zeroes that stay below the kernel leave the file alone. -/
theorem kernelSame_copy : KernelSame m (m.copy va src n) :=
  fun _ hx hx' => if_neg (not_wsub_lt hlow hx hx')

theorem kernelSame_clear : KernelSame m (m.clear va n) :=
  fun _ hx hx' => if_neg (not_wsub_lt hlow hx hx')

end

section
variable {g : Segment} {offset : Nat} (h : g.Sane offset size)
include h

theorem sane_copy_low : ∀ k < g.filesz, wrap (g.va + k) < kernelBaseAddr := fun k hk => by
  obtain ⟨-, hle, htop⟩ := h
  unfold kernelBaseAddr at *
  unfold wrap
  omega

theorem sane_clear_low : ∀ k < g.memsz - g.filesz, wrap (wrap (g.va + g.filesz) + k) < kernelBaseAddr := by
  intro k hk
  obtain ⟨-, hle, htop⟩ := h
  unfold kernelBaseAddr at *
  unfold wrap
  omega

end

section
variable (hkern : kernelBaseAddr ≤ binary) (hend : binary + size ≤ 2 ^ 32) {ph : Nat}

/-- The copy of a segment of which the header is still the same behind it. -/
theorem copySegment_eq (binary offset : Nat) (hph : kernelBaseAddr ≤ ph) (hph' : ph + 32 ≤ 2 ^ 32)
    {g : Segment} (hg : g = s.mem.segment ph) (hlow : ∀ k < g.filesz, wrap (g.va + k) < kernelBaseAddr)
    {s₁ : Loader} (hs₁ : s₁ = { s with mem := s.mem.copy g.va (wrap (binary + offset)) g.filesz }.note
      [.segment offset g, .read (wrap (binary + offset)) g.filesz, .store g g.va g.filesz]) :
    s.copySegment binary ph offset g =
      if g.memsz < g.filesz then (some (.error enoexec), s₁)
      else (none, { s₁ with mem := s₁.mem.clear (wrap (g.va + g.filesz)) (g.memsz - g.filesz) }.note
        [.store g (wrap (g.va + g.filesz)) (g.memsz - g.filesz)]) := by
  have hsame : s₁.mem.segment ph = g := by
    rw [hg, hs₁]
    exact (kernelSame_copy hlow).segment hph hph'
  have hva : ld32 s₁.mem (ph + 8) = g.va := congrArg Segment.va hsame
  have hfilesz : ld32 s₁.mem (ph + 16) = g.filesz := congrArg Segment.filesz hsame
  have hmemsz : ld32 s₁.mem (ph + 20) = g.memsz := congrArg Segment.memsz hsame
  unfold copySegment
  dsimp only
  rw [← hs₁, hva, hfilesz, hmemsz]

section
variable {ph offset : Nat} (hph : kernelBaseAddr ≤ ph) (hph' : ph + 32 ≤ 2 ^ 32) {g : Segment}
  (hg : g = s.mem.segment ph) {r : Option LoadEnd} (h : s.copySegment binary ph offset g = (r, s'))
include hph hph' hg h

include hkern hend in
theorem copySegment_inside (hoff : offset < 2 ^ 32) (hmem : g.memsz ≠ 0) :
    ∃ l, s'.log = s.log ++ l ∧ Owned l ∧ ((∀ e ∈ l, e.Inside binary size) ↔ g.Sane offset size) := by
  have hva : g.va < 2 ^ 32 := hg ▸ ld32_lt ..
  have hmem' : g.memsz < 2 ^ 32 := hg ▸ ld32_lt ..
  obtain ⟨l, hlog, howned⟩ := copySegment_owned h
  refine ⟨l, hlog, howned, ?_⟩
  by_cases hlow : ∀ k < g.filesz, wrap (g.va + k) < kernelBaseAddr
  · rw [copySegment_eq binary offset hph hph' hg hlow rfl] at h
    split at h
    · next hlt =>
      cases h
      obtain rfl := append_cancel_left hlog
      have hno : ¬ (LoadEvent.store g g.va g.filesz).Inside binary size := not_inside_store hmem' hlt
      simp [hno, Segment.Sane, hlt]
    · next hge =>
      have hle := Nat.not_lt.mp hge
      cases h
      obtain rfl := append_cancel_left ((append_assoc ..).symm.trans hlog)
      simp only [cons_append, nil_append, forall_mem_cons, not_mem_nil, false_implies,
        implies_true, and_true]
      rw [inside_file (Nat.lt_of_lt_of_le (by decide) hkern) hend hoff,
        inside_stores hva (Nat.pos_of_ne_zero hmem) hmem' hle]
      simp only [LoadEvent.Inside, Segment.Sane, hle, true_and]
  · -- the copy has left the segment, whatever comes after it
    obtain ⟨l', hl', -⟩ := (copySegment_spec h).log
    obtain rfl := append_cancel_left (hlog.symm.trans hl')
    simp only [cons_append, nil_append, forall_mem_cons]
    have hno : ¬ (LoadEvent.store g g.va g.filesz).Inside binary size := fun hin => hlow fun k hk => (hin k hk).2.2
    have hinsane : ¬ g.Sane offset size := fun hsane => hlow (sane_copy_low hsane)
    simp [hno, hinsane]

theorem copySegment_sane (hsane : g.Sane offset size) : r = none ∧ KernelSame s.mem s'.mem := by
  rw [copySegment_eq binary offset hph hph' hg (sane_copy_low hsane) rfl, if_neg hsane.2.1.not_gt] at h
  cases h
  exact ⟨rfl, (kernelSame_copy (sane_copy_low hsane)).trans (kernelSame_clear (sane_clear_low hsane))⟩

end

/-- The fields of a header that are read. -/
structure Fields (ph : Nat) (l : List LoadEvent) : Prop where
  read : ∀ e ∈ l, ∃ o ≤ 24, e = .read (ph + o) 4
  flags : .read (ph + 24) 4 ∈ l

theorem fields_map {l : List Nat} (h : ∀ o ∈ l, o ≤ 24) (hflags : 24 ∈ l) :
    Fields ph (l.map fun o => .read (ph + o) 4) := by
  refine ⟨fun e he => ?_, List.mem_map.mpr ⟨24, hflags, rfl⟩⟩
  obtain ⟨o, ho, rfl⟩ := List.mem_map.mp he
  exact ⟨o, h o ho, rfl⟩

section
variable {ph : Nat} {l : List LoadEvent} (h : Fields ph l)
include h

theorem Fields.owned : Owned (.read ph 4 :: l) := fun g addr len hmem => by
  rcases mem_cons.mp hmem with he | hmem
  · cases he
  · obtain ⟨o, -, he⟩ := h.read _ hmem
    cases he

theorem Fields.inside (hph : ph + 32 ≤ 2 ^ 32) :
    (∀ e ∈ .read ph 4 :: l, e.Inside binary size) ↔ binary ≤ ph ∧ ph + 28 ≤ binary + size := by
  rw [forall_mem_cons, inside_read (by decide) (by omega)]
  constructor
  · intro hin
    have hflags := (inside_read (by decide) (by omega)).mp (hin.2 _ h.flags)
    omega
  · intro hin
    refine ⟨by omega, fun e he => ?_⟩
    obtain ⟨o, ho, rfl⟩ := h.read e he
    exact (inside_read (by decide) (by omega)).mpr ⟨by omega, by omega⟩

end

theorem headersSane_load (hload : ld32 m ph = elfProgLoad) {g : Paging} {l : List Nat} :
    HeadersSane m binary size t g (ph :: l) ↔ (binary ≤ ph ∧ ph + 28 ≤ binary + size) ∧
      ∀ g', g.loadSegment t (m.segment ph).va (m.segment ph).memsz = some (true, g') → (m.segment ph).memsz ≠ 0 →
        (m.segment ph).Sane (ld32 m (ph + 4)) size ∧ HeadersSane m binary size t g' l := by
  rw [HeadersSane, if_pos hload, and_assoc]
  refine and_congr_right fun _ => and_congr_right fun _ => ?_
  cases hg : g.loadSegment t (m.segment ph).va (m.segment ph).memsz with
  | none => simp
  | some p =>
    obtain ⟨ok, g'⟩ := p
    cases ok with
    | false => simp
    | true => simp

/-- What the rest of the loop adds to the log. -/
def Logs (m : Mem) (binary size t : Nat) (l : List Nat) (s s' : Loader) : Prop :=
  ∃ es, s'.log = s.log ++ es ∧ Owned es ∧
    (KernelSame m s.mem → ((∀ e ∈ es, e.Inside binary size) ↔ HeadersSane m binary size t s.paging l))

section
variable {ph : Nat} {l : List Nat} (hph : ph + 32 ≤ 2 ^ 32) (hload : ld32 s.mem ph = elfProgLoad)
include hkern hph hload

/-- A header in the file is as it was before the loop. -/
theorem KernelSame.header (hm : KernelSame m s.mem) (hge : binary ≤ ph) :
    s.mem.segment ph = m.segment ph ∧ ld32 s.mem (ph + 4) = ld32 m (ph + 4) ∧ ld32 m ph = elfProgLoad := by
  have hhigh := hkern.trans hge
  exact ⟨hm.segment hhigh hph, hm.word (Nat.le_add_right_of_le hhigh) (by omega),
    (hm.word hhigh (by omega)).symm.trans hload⟩

theorem Refused.logs {r : Option LoadEnd} (h : (s.note [.read ph 4]).Refused t ph r s') :
    Logs m binary size t (ph :: l) s s' := by
  have hfields : Fields ph ([24, 8, 20].map fun o => .read (ph + o) 4) := fields_map (by decide) (by decide)
  refine ⟨_, h.log.trans (append_assoc ..), hfields.owned, fun hm => (hfields.inside hph).trans ?_⟩
  by_cases hge : binary ≤ ph
  · obtain ⟨hsame, -, hload'⟩ := hm.header hkern hph hload hge
    rw [headersSane_load hload', ← hsame]
    exact (and_iff_left fun g' hg hne => absurd (h.paging g' hg) hne).symm
  · exact iff_of_false (fun h => hge h.1) (fun h => hge h.1)

include hend

/-- A header that is not in the file settles the matter, and so does a segment that strays from it. Only
behind one that does not are the headers still those of the file. -/
theorem Taken.logs {s₁ s₂ : Loader} (h : (s.note [.read ph 4]).Taken t ph s₁) {r : Option LoadEnd}
    (hcopy : s₁.copySegment binary ph (ld32 s.mem (ph + 4)) (s.mem.segment ph) = (r, s₂)) {es' : List LoadEvent}
    (hlog' : s'.log = s₂.log ++ es') (howned' : Owned es') (hrest : r = none → KernelSame m s₂.mem →
      ((∀ e ∈ es', e.Inside binary size) ↔ HeadersSane m binary size t s₂.paging l)) :
    Logs m binary size t (ph :: l) s s' := by
  have hfields : Fields ph ([24, 8, 20, 4, 16].map fun o => .read (ph + o) 4) := fields_map (by decide) (by decide)
  obtain ⟨es, hes, howned⟩ := copySegment_owned hcopy
  refine ⟨_, ?_, (hfields.owned.append howned).append howned', fun hm => ?_⟩
  · rw [hlog', hes, h.log]
    simp [note]
  rw [forall_mem_append, forall_mem_append, hfields.inside hph]
  by_cases hin : binary ≤ ph ∧ ph + 28 ≤ binary + size
  · obtain ⟨hsame, hoff, hload'⟩ := hm.header hkern hph hload hin.1
    have hhigh := hkern.trans hin.1
    have hg : s.mem.segment ph = s₁.mem.segment ph := by rw [h.mem]; rfl
    obtain ⟨l', hl', -, hiff⟩ := copySegment_inside hkern hend hhigh hph hg hcopy (ld32_lt ..) h.pos
    obtain rfl := append_cancel_left (hes.symm.trans hl')
    have htaken := h.paging
    rw [show (s.note [.read ph 4]).mem = s.mem from rfl, hsame] at htaken
    rw [hiff, headersSane_load hload', hsame, hoff]
    by_cases hsane : (m.segment ph).Sane (ld32 m (ph + 4)) size
    · obtain ⟨hr, hkeep⟩ := copySegment_sane hhigh hph hg hcopy (hsame ▸ hoff ▸ hsane)
      have hm₁ : KernelSame m s₁.mem := h.mem ▸ hm
      rw [hrest hr (hm₁.trans hkeep), (copySegment_spec hcopy).paging]
      constructor
      · intro h'
        refine ⟨hin, fun g' hg' _ => ⟨hsane, ?_⟩⟩
        cases htaken.symm.trans hg'
        exact h'.2
      · intro h'
        exact ⟨⟨hin, hsane⟩, (h'.2 _ htaken (hsame ▸ h.pos)).2⟩
    · exact iff_of_false (fun h' => hsane h'.1.2) (fun h' => hsane (h'.2 _ htaken (hsame ▸ h.pos)).1)
  · refine iff_of_false (fun h' => hin h'.1.1) fun h' => hin ?_
    have hload' := (hm.header hkern hph hload h'.1).2.2
    exact ((headersSane_load hload').mp h').1

end

include hkern hend in
theorem loadPhdrs_logs : ∀ {l : List Nat} {s : Loader} {r : Option LoadEnd}, (∀ ph ∈ l, ph + 32 ≤ 2 ^ 32) →
    loadPhdrs t binary s l = (r, s') → Logs m binary size t l s s'
  | [], s, _, _, h => by
    cases h
    exact ⟨[], (append_nil _).symm, by simp [Owned], fun _ => by simp [HeadersSane]⟩
  | ph :: l, s, r, hl, h => by
    have hph := hl ph (mem_cons_self ..)
    have hl' : ∀ ph ∈ l, ph + 32 ≤ 2 ^ 32 := fun ph h => hl ph (mem_cons_of_mem _ h)
    unfold loadPhdrs at h
    dsimp only at h
    split at h
    · next hload =>
      cases hseg : (s.note [.read ph 4]).loadSegment t binary ph with | mk r₁ s₁
      rw [hseg] at h
      obtain hrefused | ⟨s₂, htaken, hcopy⟩ := loadSegment_cases hseg
      · have hstops := hrefused.stops
        cases r₁ with
        | none => exact absurd rfl hstops
        | some e =>
          cases h
          exact hrefused.logs hkern hph hload
      · cases r₁ with
        | some e =>
          cases h
          exact htaken.logs hkern hend hph hload hcopy (append_nil _).symm (by simp [Owned]) nofun
        | none =>
          obtain ⟨es', hlog', howned', hiff⟩ := loadPhdrs_logs hl' h
          exact htaken.logs hkern hend hph hload hcopy hlog' howned' fun _ => hiff
    · next hload =>
      obtain ⟨es', hlog', howned', hiff⟩ := loadPhdrs_logs hl' h
      refine ⟨.read ph 4 :: es', hlog'.trans (append_assoc ..), fun g addr len hmem => ?_, fun hm => ?_⟩
      · rcases mem_cons.mp hmem with he | hmem
        · cases he
        · obtain ⟨offset, ho⟩ := howned' g addr len hmem
          exact ⟨offset, mem_cons_of_mem _ ho⟩
      · rw [forall_mem_cons, inside_read (by decide) (by omega), hiff hm, and_assoc, HeadersSane]
        refine and_congr_right fun hge => ?_
        rw [if_neg]
        · rfl
        · rw [← hm.word (hkern.trans hge) (by omega)]
          exact hload

end

theorem finish_log {r : LoadEnd} (h : s.finish t binary = (r, s')) :
    s'.log = s.log ∨ s'.log = s.log ++ [.read (binary + 24) 4] := by
  unfold finish at h
  split at h
  · cases h
    exact .inl rfl
  dsimp only at h
  split at h
  · cases h
    exact .inl rfl
  · cases h
    exact .inr rfl

theorem ld16_lt (m : Mem) (a : Nat) : m.ld16 a < 65536 := by
  have h₀ := (m a).toNat_lt
  have h₁ := (m (a + 1)).toNat_lt
  unfold Mem.ld16
  omega

theorem phdr_le {p : Nat} (hp : p ∈ m.phdrs binary) : p + 32 ≤ 2 ^ 32 := by
  obtain ⟨i, hi, rfl⟩ := List.mem_map.mp hp
  have hi := mem_range.mp hi
  have hn := ld16_lt m (binary + 44)
  unfold wrap at *
  omega

theorem loadIcode_log (hkern : kernelBaseAddr ≤ binary) (hend : binary + size ≤ 2 ^ 32)
    (hmagic : ld32 s.mem binary = elfMagic) :
    ∃ es tail, (s.loadIcode t binary).2.log =
      s.log ++ ([.read binary 4, .read (binary + 28) 4, .read (binary + 44) 2] ++ (es ++ tail)) ∧ Owned es ∧
      ((∀ e ∈ es, e.Inside binary size) ↔ HeadersSane s.mem binary size t s.paging (s.mem.phdrs binary)) ∧
      (tail = [] ∨ tail = [.read (binary + 24) 4]) := by
  unfold loadIcode
  rw [if_neg fun h => h hmagic]
  cases hload : loadPhdrs t binary _ (Mem.phdrs _ binary) with | mk r s₁
  obtain ⟨es, hlog, howned, hiff⟩ := loadPhdrs_logs (m := s.mem) hkern hend (fun _ => phdr_le) hload
  have hiff := hiff fun _ _ _ => rfl
  have hlog₁ : s₁.log = s.log ++ ([.read binary 4, .read (binary + 28) 4, .read (binary + 44) 2] ++ es) := by
    rw [hlog]
    simp [note]
  cases r with
  | some e => exact ⟨es, [], by rw [append_nil]; exact hlog₁, howned, hiff, .inl rfl⟩
  | none =>
    dsimp only
    cases hfin : s₁.finish t binary with | mk r' s₂
    rcases finish_log hfin with hl₂ | hl₂
    · exact ⟨es, [], by rw [append_nil]; exact hl₂.trans hlog₁, howned, hiff, .inl rfl⟩
    · refine ⟨es, [.read (binary + 24) 4], ?_, howned, hiff, .inr rfl⟩
      rw [hl₂, hlog₁, append_assoc, append_assoc]

end Loader

section
variable {binary size : Nat} (hpos : 0 < binary) (hend : binary + size ≤ 2 ^ 32)
include hpos hend

theorem inside_magic : (LoadEvent.read binary 4).Inside binary size ↔ 4 ≤ size := by
  have h := inside_header (o := 0) hpos hend (by decide : 0 < 4) (by decide)
  rw [Nat.add_zero, Nat.zero_add] at h
  exact h

theorem inside_heads :
    (∀ e ∈ [LoadEvent.read binary 4, .read (binary + 28) 4, .read (binary + 44) 2], e.Inside binary size) ↔
      46 ≤ size := by
  have h₂₈ := inside_header (o := 28) hpos hend (by decide : 0 < 4) (by decide)
  have h₄₄ := inside_header (o := 44) hpos hend (by decide : 0 < 2) (by decide)
  simp only [forall_mem_cons, not_mem_nil, false_implies, implies_true, and_true]
  rw [inside_magic hpos hend, h₂₈, h₄₄]
  omega

/-- With the header of the file inside, the rounds decide. -/
theorem confined_append_iff {es tail : List LoadEvent} (howned : Loader.Owned es)
    (htail : tail = [] ∨ tail = [.read (binary + 24) 4]) {log : List LoadEvent}
    (hlog : log = [.read binary 4, .read (binary + 28) 4, .read (binary + 44) 2] ++ (es ++ tail)) :
    Loader.Confined binary size log ↔ 46 ≤ size ∧ ∀ e ∈ es, e.Inside binary size := by
  have hheads := inside_heads hpos hend
  have h₂₄ := inside_header (o := 24) hpos hend (by decide : 0 < 4) (by decide)
  have htail_inside : 46 ≤ size → ∀ e ∈ tail, e.Inside binary size := fun hsize => by
    rcases htail with rfl | rfl
    · simp
    · simp only [forall_mem_cons, not_mem_nil, false_implies, implies_true, and_true]
      exact h₂₄.mpr (by omega)
  subst hlog
  constructor
  · intro h
    have hin := h.inside
    rw [forall_mem_append, forall_mem_append] at hin
    exact ⟨hheads.mp hin.1, hin.2.1⟩
  · intro h
    obtain ⟨hsize, hes⟩ := h
    refine ⟨?_, fun g addr len hstore => ?_⟩
    · rw [forall_mem_append, forall_mem_append]
      exact ⟨hheads.mpr hsize, hes, htail_inside hsize⟩
    · have hstore : .store g addr len ∈ es := by
        rcases htail with rfl | rfl
        · simpa using hstore
        · simpa using hstore
      obtain ⟨offset, ho⟩ := howned g addr len hstore
      exact ⟨offset, mem_append_right _ (mem_append_left _ ho)⟩

end

namespace Loader

def segments (log : List LoadEvent) : List Segment :=
  log.filterMap fun e =>
    match e with
    | .segment _ g => some g
    | _ => none

/-- The segments in the log are loaded, unless one is larger than its memory. -/
structure Loaded (g : Paging) (t : Nat) (s : Loader) : Prop where
  paging : (∀ x ∈ segments s.log, x.filesz ≤ x.memsz) → g.loadSegments t (segments s.log) = some (true, s.paging)
  endCode : s.endCode = Paging.endOf true (segments s.log)
  endData : s.endData = Paging.endOf false (segments s.log)

variable {g : Paging} {s s' : Loader} {t binary : Nat}

theorem segments_append (l l' : List LoadEvent) : segments (l ++ l') = segments l ++ segments l' := filterMap_append

theorem Loaded.note (h : Loaded g t s) {l : List LoadEvent} (hl : segments l = []) : Loaded g t (s.note l) := by
  have hsame : segments (s.note l).log = segments s.log := by
    unfold Loader.note
    rw [segments_append, hl, append_nil]
  exact ⟨hsame ▸ h.paging, hsame ▸ h.endCode, hsame ▸ h.endData⟩

theorem loadSegments_snoc {g' : Paging} {x : Segment} :
    ∀ {l : List Segment} {g₀ : Paging}, g₀.loadSegments t l = some (true, g) →
    g.loadSegment t x.va x.memsz = some (true, g') → x.filesz ≤ x.memsz →
    g₀.loadSegments t (l ++ [x]) = some (true, g')
  | [], g₀, h, hx, hle => by
    cases h
    simp [Paging.loadSegments, hx, hle]
  | y :: l, g₀, h, hx, hle => by
    simp only [Paging.loadSegments, Option.bind_eq_some_iff, Prod.exists, cons_append] at h ⊢
    obtain ⟨ok, g₁, hy, h⟩ := h
    refine ⟨ok, g₁, hy, ?_⟩
    split at h
    · next hok =>
      rw [if_pos hok]
      exact loadSegments_snoc h hx hle
    · cases h

theorem endOf_snoc (code : Bool) (l : List Segment) (x : Segment) :
    Paging.endOf code (l ++ [x]) = if x.code = code then wrap (x.va + x.memsz) else Paging.endOf code l := by
  unfold Paging.endOf
  rw [foldl_append]
  rfl

theorem segments_stores {x : Segment} {l : List LoadEvent} (h : ∀ e ∈ l, ∃ addr len, e = .store x addr len) :
    segments l = [] := by
  refine filterMap_eq_nil_iff.mpr fun e he => ?_
  obtain ⟨addr, len, rfl⟩ := h e he
  rfl

/-- A round of the loop that goes on has loaded one segment. -/
theorem Loaded.loadSegment {ph : Nat} (hs : Loaded g t s) (h : s.loadSegment t binary ph = (none, s')) :
    Loaded g t s' := by
  obtain hrefused | ⟨s₁, hx, hcopy⟩ := loadSegment_cases h
  · exact absurd rfl hrefused.stops
  obtain ⟨-, ⟨l, hlog, hl⟩, hpaging, hendCode, hendData⟩ := copySegment_spec hcopy
  have hsegs : segments s'.log = segments s.log ++ [s.mem.segment ph] := by
    rw [hlog, hx.log, segments_append, segments_append, segments_append, segments_stores hl]
    simp [segments]
  refine ⟨fun hsane => ?_, ?_, ?_⟩
  · rw [hsegs, forall_mem_append] at hsane
    rw [hsegs, hpaging]
    exact loadSegments_snoc (hs.paging hsane.1) hx.paging (hsane.2 _ (mem_singleton_self _))
  · rw [hsegs, endOf_snoc, hendCode, hx.endCode, setEnd_endCode, hs.endCode]
  · rw [hsegs, endOf_snoc, hendData, hx.endData, setEnd_endData, hs.endData]

theorem Loaded.loadPhdrs : ∀ {l : List Nat} {s : Loader}, Loaded g t s → loadPhdrs t binary s l = (none, s') →
    Loaded g t s'
  | [], s, hs, h => by
    cases h
    exact hs
  | ph :: l, s, hs, h => by
    unfold Loader.loadPhdrs at h
    dsimp only at h
    have hnote := hs.note (l := [.read ph 4]) rfl
    split at h
    · split at h
      · next hseg => exact (hnote.loadSegment hseg).loadPhdrs h
      · next hne => exact absurd h (hne _)
    · exact hnote.loadPhdrs h

theorem loadSegment_not_done (ph : Nat) : s.loadSegment t binary ph ≠ (some .done, s') := by
  intro h
  obtain hrefused | ⟨s₁, -, hcopy⟩ := loadSegment_cases h
  · exact hrefused.notDone rfl
  · exact (copySegment_spec hcopy).notDone rfl

/-- The loop ends early only with a failure. -/
theorem loadPhdrs_not_done : ∀ {l : List Nat} {s : Loader}, loadPhdrs t binary s l ≠ (some .done, s')
  | [], s => by simp [Loader.loadPhdrs]
  | ph :: l, s => by
    unfold Loader.loadPhdrs
    dsimp only
    split
    · split
      · exact loadPhdrs_not_done
      · exact loadSegment_not_done ph
    · exact loadPhdrs_not_done

/-- A file whose segments are no larger than their memory loads as the program that they make up. -/
theorem loadIcode_refines (hlog : s.log = []) (hcode : s.endCode = 0) (hdata : s.endData = 0)
    (h : s.loadIcode t binary = (.done, s')) (hsane : ∀ x ∈ segments s'.log, x.filesz ≤ x.memsz) :
    s.paging.loadIcode t (segments s'.log) = some (true, s'.paging) := by
  have hs : Loaded s.paging t s :=
    ⟨by rw [hlog]; exact fun _ => rfl, by rw [hlog]; exact hcode, by rw [hlog]; exact hdata⟩
  unfold Loader.loadIcode at h
  dsimp only at h
  split at h
  · cases h
  split at h
  · next hph =>
    cases h
    exact absurd hph loadPhdrs_not_done
  next s₁ hph =>
  have hmagic := hs.note (l := [.read binary 4]) rfl
  have hs₁ := (hmagic.note (l := [.read (binary + 28) 4, .read (binary + 44) 2]) rfl).loadPhdrs hph
  unfold finish at h
  split at h
  · cases h
  next g₁ hstack =>
  dsimp only at h
  split at h
  · cases h
  next g₂ hheap =>
  cases h
  have hsegs : segments ({ s₁ with paging := g₂ }.note [.read (binary + 24) 4]).log = segments s₁.log := by
    unfold Loader.note
    rw [segments_append]
    exact append_nil _
  rw [hsegs] at hsane ⊢
  have hstart : Paging.heapStart (segments s₁.log) = roundUp (if s₁.endData ≠ 0 then s₁.endData else s₁.endCode)
      pageSize := by
    unfold Paging.heapStart
    rw [hs₁.endCode, hs₁.endData]
  unfold Paging.loadIcode
  rw [hs₁.paging hsane, Option.bind_some]
  dsimp only
  rw [if_pos rfl, hstack]
  dsimp only
  rw [hstart, hheap]
  rfl

end Loader

/-! ## A small file -/

def tinyElf (offset va filesz memsz : Nat) : List UInt8 :=
  wordBytes elfMagic ++ List.replicate 20 0 ++ wordBytes va ++ wordBytes 52 ++ List.replicate 12 0 ++ [1, 0] ++
    List.replicate 6 0 ++ [elfProgLoad, offset, va, 0, filesz, memsz, 5, 0].flatMap wordBytes

def tinyLoader (file : List UInt8) : Loader where
  paging := Paging.bare Paging.freeFrames
  mem x := file.getD (x - 0xC0100000) 0
  endCode := 0
  endData := 0
  log := []

end MiniOS
