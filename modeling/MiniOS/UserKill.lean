import MiniOS.ExitEnds
import MiniOS.TaskSpacesSound

/-!
# Faults of user programs

`page_fault_handler` on the kernel with the areas of its tasks. A fault that cannot be served ends in
`exit(curtask)`, which tears the address space down, tells the parent and runs another task.
-/

namespace MiniOS

open List Option TaskSpaces

/-- `delete_all_vma` gets through the list: in front of the root no area starts above its end, and
behind it none starts above the end of the last one. -/
def Mm.ComesApart (m : Mm) : Prop :=
  ∀ l ∈ chainNodes m.next 0 m.rounds m.mmap,
    (∀ v ∈ l.takeWhile (· ≠ m.rbNode), (m.heap v).vmStart ≤ (m.heap m.rbNode).vmEnd) ∧
    ∀ e ∈ l.getLast?, ∀ v ∈ (l.dropWhile (· ≠ m.rbNode)).tail, (m.heap v).vmStart ≤ (m.heap e).vmEnd

instance (m : Mm) : Decidable m.ComesApart := by
  unfold Mm.ComesApart
  infer_instance

namespace Kernel

/-- `exit` does not come back: what follows it is not reached. -/
def pageFaultHandler (k : Kernel) (vm : Nat → Mm) (va : Nat) (write : Bool) (junk : Nat → Vma) : Option Kernel :=
  let m := k.mm k.curtask
  (TaskSpaces.fault ⟨k.paging, vm⟩ m va write).bind fun (ok, s) =>
    let k := { k with paging := s.paging }
    if ok then some k
    else k.exitBy (fun g => (TaskSpaces.exitMm ⟨g, vm⟩ m junk).map TaskSpaces.paging) k.curtask

/-- The running task is gone, with its address space and nothing of the others. -/
structure Killed (k k' : Kernel) : Prop where
  live : k'.sched.live = k.sched.live.erase k.curtask
  space : Paging.Kills (k.mm k.curtask) k.paging k'.paging

/-- The access goes through now, and only the page tables of the running task have changed. -/
structure Served (va : Nat) (write : Bool) (k k' : Kernel) : Prop where
  kept : k' = { k with paging := k'.paging }
  only : Paging.Only (k.mm k.curtask) k.paging k'.paging
  done : ¬ k'.paging.Faults (k.mm k.curtask) va write

end Kernel

section
variable {m : Mm} {sp : Space} {born : Nat → Nat} {l : List Nat} {t : BTree Nat}

/-! ## The teardown -/

/-- An area that is not the root has a parent, and that one is older. -/
theorem Hung.root_oldest (h : Hung m born l t) (hl : l ≠ []) :
    m.rbNode ∈ l ∧ ∀ a ∈ l, a = m.rbNode ∨ born m.rbNode < born a := by
  obtain ⟨r, hr⟩ := exists_oldest born hl
  obtain rfl := h.oldest_root hr
  refine ⟨hr.1, fun a ha => ?_⟩
  rcases h.tree.parent_mem a (h.perm.mem_iff.mpr ha) with h₀ | hp
  · exact .inl (h.root_of_parent ha h₀)
  · refine (h.older a ha).imp (h.root_of_parent ha) fun hlt => ?_
    exact Nat.lt_of_le_of_lt (hr.2 _ (h.perm.mem_iff.mp hp)) hlt

theorem clears_last (hnew : l.Pairwise fun a b => born b < born a)
    (hlong : ∀ a ∈ l, (m.heap a).vmStart < (m.heap a).vmEnd) :
    Clears m born l ↔ ∀ e ∈ l.getLast?, ∀ v ∈ l, (m.heap v).vmStart ≤ (m.heap e).vmEnd := by
  rcases eq_nil_or_concat l with rfl | ⟨q, e, rfl⟩
  · exact iff_of_true trivial nofun
  · rw [concat_eq_append] at hnew hlong ⊢
    have hrev : q ++ [e] = (e :: q.reverse).reverse := by simp
    have hold : (e :: q.reverse).Pairwise fun a b => born a < born b := by
      rw [hrev] at hnew
      exact pairwise_reverse.mp hnew
    rw [hrev, clears_highs hold (hlong e (by simp)), getLast?_reverse]
    simp only [head?_cons, mem_def, some.injEq, forall_eq', mem_reverse]

theorem BackedBy.clears_iff (h : BackedBy m sp born l t) : Clears m born l ↔ m.ComesApart := by
  have hnodes : chainNodes m.next 0 m.rounds m.mmap = some l := h.hung.list.nodes _ h.hung.lt_rounds
  unfold Mm.ComesApart
  simp only [hnodes, mem_def, some.injEq, forall_eq']
  by_cases hl : l = []
  · subst hl
    exact iff_of_true trivial ⟨nofun, nofun⟩
  obtain ⟨hroot, hmin⟩ := h.hung.root_oldest hl
  have hnd := h.hung.nodup
  have hlong : ∀ a ∈ l, (m.heap a).vmStart < (m.heap a).vmEnd := fun a ha =>
    (h.hung.asc.area a (h.hung.perm.mem_iff.mpr ha)).1
  obtain ⟨pre, post, rfl⟩ := append_of_mem hroot
  have hpre : ∀ a ∈ pre, decide (a ≠ m.rbNode) = true := fun a ha =>
    decide_eq_true ((nodup_append.mp hnd).2.2 a ha _ (mem_cons_self ..))
  rw [takeWhile_append_of_pos hpre, dropWhile_append_of_pos hpre, takeWhile_cons_of_neg (by simp),
    dropWhile_cons_of_neg (by simp), append_nil, tail_cons, clears_append (mem_cons_self ..) hmin,
    clears_cons (mem_cons_self ..) fun a ha => hmin a (mem_append_right _ ha),
    and_iff_right (Nat.le_of_lt (hlong _ hroot)),
    clears_last (h.newest pre post rfl) fun a ha => hlong a (mem_append_right _ (mem_cons_of_mem _ ha))]
  refine and_congr_right fun _ => ?_
  cases post with
  | nil => exact iff_of_true nofun fun _ _ _ hv => nomatch hv
  | cons p post =>
    rw [getLast?_append_cons, getLast?_cons_cons]
    exact Iff.rfl

end

theorem Area.zero_notMem_addrs {a : Area} (h : 0 < a.vmStart) : 0 ∉ a.addrs := fun hmem => by
  obtain ⟨i, -, hi⟩ := List.mem_map.mp hmem
  omega

theorem TaskSpaces.exitMm_ne_none {s : TaskSpaces} {t : Nat} {junk : Nat → Vma}
    (h : MiniOS.Backed (s.vm t) (s.paging.mm t))
    (hpos : ∀ a ∈ (s.paging.mm t).mmap, 0 < a.vmStart) : s.exitMm t junk ≠ none ↔ (s.vm t).ComesApart := by
  obtain ⟨born, l, tr, h⟩ := h
  rw [← h.clears_iff]
  constructor
  · intro hne
    obtain ⟨s', he⟩ := ne_none_iff_exists'.mp hne
    unfold exitMm at he
    obtain ⟨⟨m', log⟩, hd, he⟩ := bind_eq_some_iff.mp he
    dsimp only at he
    split at he
    · next hnd => exact (h.hung.deleteAll_once hd hnd).1
    · cases he
  · intro hc
    obtain ⟨m', hd⟩ := h.hung.deleteAll_clears hc junk
    have hvmas : ((l.map (s.vm t).freed).reverse.map Freed.vma).Nodup := by
      rw [map_reverse, nodup_reverse, List.map_map]
      exact (List.map_id l).symm ▸ h.hung.nodup
    rw [exitMm, hd, bind_some]
    dsimp only
    rw [if_pos hvmas, Ne, map_eq_none_iff]
    exact Paging.exitAreas_ne_none.mpr fun a ha => Area.zero_notMem_addrs (hpos a (h.freed_perm.mem_iff.mp ha))

/-! ## Frames for a fault -/

namespace Paging

def Supplied : Nat → List Nat → List Nat → Prop
  | 0, _, _ => True
  | _ + 1, [], _ => False
  | n + 1, p :: answers, free => p ∈ free ∧ Supplied n answers (free.erase p)

/-- The next `n` calls of `page_alloc` find a frame. -/
def Supplies (s : Paging) (n : Nat) : Prop := Supplied n s.answers s.free

/-- The tables that `page_walk` makes on its way to the page `v`. -/
def missingTables (sp : Space) (v : Nat) : Nat :=
  (sp.pgd (v / ptrsPerTable / ptrsPerTable)).isNone.toNat + (sp.pteTable (v / ptrsPerTable)).isNone.toNat

/-- A shared page is copied by way of `USER_TEMPBOTT`, a missing one takes a frame and its tables. -/
def framesNeeded (s : Paging) (t va : Nat) : Nat :=
  match (s.mm t).pte (va / pageSize) with
  | none => missingTables (s.mm t) (va / pageSize) + 1
  | some e => if s.nref e.frame = 1 then 0 else missingTables (s.mm t) tempPage + 1

/-- The address is in an area of the task, and there are frames enough. -/
def CanServe (s : Paging) (t va : Nat) : Prop :=
  (∃ a ∈ (s.mm t).mmap, a.vmStart ≤ va ∧ va < a.vmEnd) ∧ s.Supplies (s.framesNeeded t va)

variable {s s' : Paging} {t v va : Nat} {ok write : Bool}

theorem pageAlloc_supplies {p : Option Nat} (h : s.pageAlloc = (p, s')) (n : Nat) :
    s.Supplies (n + 1) ↔ p.isSome = true ∧ s'.Supplies n := by
  unfold pageAlloc at h
  unfold Supplies
  split at h
  · next ha =>
    cases h
    rw [ha]
    exact iff_of_false id (Bool.false_ne_true ·.1)
  · next ha =>
    rw [ha]
    split at h
    · next hp =>
      cases h
      exact and_congr_left' (iff_of_true hp rfl)
    · next hp =>
      cases h
      exact iff_of_false (hp ·.1) (Bool.false_ne_true ·.1)

theorem getPmd_supplies {i : Nat} (h : s.getPmd t i = (ok, s')) (n : Nat) :
    s.Supplies (n + 1) ↔ ok = true ∧ s'.Supplies n := by
  unfold getPmd at h
  split at h
  all_goals
    next ha =>
      cases h
      exact pageAlloc_supplies ha n

theorem getPte_supplies {j : Nat} (h : s.getPte t j = (ok, s')) (n : Nat) :
    s.Supplies (n + 1) ↔ ok = true ∧ s'.Supplies n := by
  unfold getPte at h
  split at h
  all_goals
    next ha =>
      cases h
      exact pageAlloc_supplies ha n

theorem getPmd_empty {j : Nat} (h : s.getPmd t (j / ptrsPerTable) = (true, s')) : (s'.mm t).pteTable j = none := by
  unfold getPmd at h
  split at h
  · cases h
  · cases h
    rw [setMm_mm_self, Space.pteTable, Space.pgdSet_pgd_self, bind_some]

theorem missingTables_of_table {sp : Space} (h : (sp.pteTable (v / ptrsPerTable)).isSome) :
    missingTables sp v = 0 := by
  rw [missingTables, isNone_eq_false_iff.mpr (Space.pgd_of_pteTable h), isNone_eq_false_iff.mpr h]
  rfl

theorem pageWalk_supplies (h : s.pageWalk t v = (ok, s')) (n : Nat) :
    s.Supplies (missingTables (s.mm t) v + n) ↔ ok = true ∧ s'.Supplies n := by
  by_cases htab : ((s.mm t).pteTable (v / ptrsPerTable)).isSome
  · cases h.symm.trans (pageWalk_of_table htab)
    rw [missingTables_of_table htab, Nat.zero_add, and_iff_right rfl]
  unfold pageWalk at h
  rw [missingTables, not_isSome_iff_eq_none.mp htab]
  cases hpgd : (s.mm t).pgd (v / ptrsPerTable / ptrsPerTable) with
  | none =>
    rcases hg : s.getPmd t (v / ptrsPerTable / ptrsPerTable) with ⟨ok₁, s₁⟩
    simp only [hpgd, hg, isSome_none, Bool.false_eq_true, if_false] at h
    rw [Nat.add_right_comm]
    refine (getPmd_supplies hg (1 + n)).trans ?_
    cases ok₁ with
    | false =>
      cases h
      exact iff_of_false (Bool.false_ne_true ·.1) (Bool.false_ne_true ·.1)
    | true =>
      simp only [if_true, getPmd_empty hg, isSome_none, Bool.false_eq_true, if_false] at h
      rw [and_iff_right rfl, Nat.add_comm, getPte_supplies h]
  | some m =>
    simp only [hpgd, isSome_some, if_true, if_neg htab] at h
    rw [Nat.add_comm]
    exact getPte_supplies h n

theorem pageInsert_supplies {p : Nat} (h : s.pageInsert t p va = some (ok, s')) :
    ok = true ↔ s.Supplies (missingTables (s.mm t) (va / pageSize)) := by
  unfold pageInsert at h
  split at h
  · cases h
  split at h
  · next hw =>
    cases h
    exact iff_of_false Bool.false_ne_true fun hs => Bool.false_ne_true ((pageWalk_supplies hw 0).mp hs).1
  · next hw =>
    simp only [map_eq_some_iff, Prod.mk.injEq] at h
    obtain ⟨s₁, -, rfl, -⟩ := h
    exact iff_of_true rfl ((pageWalk_supplies hw 0).mpr ⟨rfl, trivial⟩)

theorem doWpFault_supplies {e : Pte} (h : s.doWpFault t va e = some (ok, s')) :
    ok = true ↔ s.Supplies (if s.nref e.frame = 1 then 0 else missingTables (s.mm t) tempPage + 1) := by
  have hcopy {p s₁ ok s₂} (ha : s.pageAlloc = (some p, s₁)) (hi : s₁.pageInsert t p userTempBott = some (ok, s₂)) :
      ok = true ↔ s.Supplies (missingTables (s.mm t) tempPage + 1) := by
    rw [pageAlloc_supplies ha, and_iff_right isSome_some, ← (pageAlloc_fields ha).2.1]
    exact pageInsert_supplies hi
  cases doWpFault_cases h with
  | own hone =>
    rw [if_pos hone]
    exact iff_of_true rfl trivial
  | noPage hone ha =>
    rw [if_neg hone]
    exact iff_of_false Bool.false_ne_true fun hs => Bool.false_ne_true ((pageAlloc_supplies ha _).mp hs).1
  | noTable hone ha hi => rw [if_neg hone, ← hcopy ha hi]
  | copy hone ha hi => rw [if_neg hone, ← hcopy ha hi]

theorem handlePteFault_supplies {a : Area} (h : s.handlePteFault t a va write = some (ok, s'))
    (htab : ((s.mm t).pteTable (va / pageSize / ptrsPerTable)).isSome) :
    ok = true ↔ s.Supplies (s.framesNeeded t va) := by
  unfold framesNeeded
  cases handlePteFault_cases h with
  | wp he hw =>
    rw [he]
    exact doWpFault_supplies hw
  | noPage hnone ha =>
    rw [hnone]
    exact iff_of_false Bool.false_ne_true fun hs => Bool.false_ne_true ((pageAlloc_supplies ha _).mp hs).1
  | map hnone ha =>
    rw [hnone, missingTables_of_table htab]
    exact iff_of_true rfl ((pageAlloc_supplies ha 0).mpr ⟨rfl, trivial⟩)

/-- The tables that are missing come first. -/
theorem framesNeeded_walk (hw : s.pageWalk t (va / pageSize) = (ok, s')) :
    s.Supplies (s.framesNeeded t va) ↔ ok = true ∧ s'.Supplies (s'.framesNeeded t va) := by
  cases hpte : (s.mm t).pte (va / pageSize) with
  | some e =>
    cases hw.symm.trans (pageWalk_of_table (Space.pteTable_of_pte hpte))
    rw [and_iff_right rfl]
  | none =>
    obtain ⟨hsame, htab⟩ := pageWalk_entries hw
    unfold framesNeeded
    rw [hsame.pte, hpte]
    refine (pageWalk_supplies hw 1).trans (and_congr_right fun hok => ?_)
    rw [missingTables_of_table (htab hok)]

theorem faultIn_canServe (hs : (s.mm t).Sorted) (h : s.faultIn t va write ((s.mm t).findVma va) = some (ok, s')) :
    ok = true ↔ s.CanServe t va := by
  unfold CanServe
  rw [← Space.findVma_in hs]
  cases faultIn_cases h with
  | outside hout =>
    exact iff_of_false Bool.false_ne_true fun ⟨⟨a, ha, hle⟩, _⟩ => Nat.not_lt.mpr hle (hout a ha)
  | noTable _ _ hw =>
    exact iff_of_false Bool.false_ne_true fun hs => Bool.false_ne_true ((framesNeeded_walk hw).mp hs.2).1
  | inside ha hle hw hf =>
    rw [and_iff_right ⟨_, ha, Nat.not_lt.mp hle⟩, framesNeeded_walk hw, and_iff_right rfl]
    exact handlePteFault_supplies hf ((pageWalk_entries hw).2 rfl)

end Paging

/-! ## The handler -/

namespace Kernel

variable {k k' : Kernel} {vm : Nat → Mm} {va : Nat} {write : Bool} {junk : Nat → Vma}

theorem exit_killed {g : Paging} (hpids : PidsOk k.sched k.map) (hcur : k.curtask ∈ k.sched.live)
    (hback : MiniOS.Backed (vm (k.mm k.curtask)) (g.mm (k.mm k.curtask)))
    (ho : Paging.Only (k.mm k.curtask) k.paging g)
    (he : ({ k with paging := g } : Kernel).exitBy (fun g => (TaskSpaces.exitMm ⟨g, vm⟩ (k.mm k.curtask) junk).map
      TaskSpaces.paging) k.curtask = some k') : k.Killed k' := by
  obtain ⟨i, hpid, hi, -⟩ := hpids.pid _ hcur
  have hgone := exitBy_gone (s := { k with paging := g }) (hpids.proper _ hcur) hpid hi he
  obtain ⟨s, hs, hspace⟩ := map_eq_some_iff.mp hgone.space
  obtain ⟨l, g', -, hg', rfl⟩ := TaskSpaces.exitMm_some (s := ⟨g, vm⟩) hback hs
  refine ⟨hgone.live, ?_⟩
  rw [← hspace]
  exact ho.kills (Paging.exitAreas_kills hg')

end Kernel

end MiniOS
