import MiniOS.UserFault

/-!
# The order of the areas

The list of areas is kept in the order of their starts.
-/

namespace MiniOS

open List

def Space.Sorted (sp : Space) : Prop := sp.mmap.Pairwise fun a b => a.vmStart ≤ b.vmStart

theorem insertArea_sorted {a : Area} : ∀ {l : List Area}, l.Pairwise (fun a b => a.vmStart ≤ b.vmStart) →
    (insertArea a l).Pairwise fun a b => a.vmStart ≤ b.vmStart
  | [], _ => pairwise_singleton ..
  | b :: l, h => by
    obtain ⟨hb, hl⟩ := pairwise_cons.mp h
    unfold insertArea
    split
    · next hlt =>
      refine pairwise_cons.mpr ⟨fun c hc => ?_, h⟩
      rcases mem_cons.mp hc with rfl | hc
      · exact hlt.le
      · exact hlt.le.trans (hb c hc)
    · next hge =>
      refine pairwise_cons.mpr ⟨fun c hc => ?_, insertArea_sorted hl⟩
      rcases mem_cons.mp ((Paging.insertArea_perm a l).mem_iff.mp hc) with rfl | hc
      · exact Nat.not_lt.mp hge
      · exact hb c hc

/-- Areas with different starts have one order only. -/
theorem sorted_unique {l l' : List Area} (hs : l.Pairwise fun a b => a.vmStart ≤ b.vmStart)
    (hs' : l'.Pairwise fun a b => a.vmStart ≤ b.vmStart) (hp : l.Perm l')
    (hne : ∀ a ∈ l', ∀ b ∈ l', a.vmStart = b.vmStart → a = b) : l = l' :=
  List.Perm.eq_of_pairwise (fun a b ha hb hab hba => hne a (hp.mem_iff.mp ha) b hb (Nat.le_antisymm hab hba))
    hs hs' hp

/-- In a list in order, what is found starts no later than anything else that could be. -/
theorem find?_start_le {p : Area → Bool} {a c : Area} :
    ∀ {l : List Area}, l.Pairwise (fun a b => a.vmStart ≤ b.vmStart) →
    l.find? p = some c → a ∈ l → p a = true → c.vmStart ≤ a.vmStart
  | b :: l, hs, hf, ha, hp => by
    obtain ⟨hb, hl⟩ := pairwise_cons.mp hs
    rw [find?_cons] at hf
    split at hf
    · cases hf
      rcases mem_cons.mp ha with rfl | ha
      · exact Nat.le_refl _
      · exact hb a ha
    · next hnot =>
      rcases mem_cons.mp ha with rfl | ha
      · rw [hp] at hnot
        cases hnot
      · exact find?_start_le hl hf ha hp

/-- The answer of `find_vma` has the address, if one of the areas has it. -/
theorem Space.findVma_in {sp : Space} (hs : sp.Sorted) {va : Nat} : (∃ a ∈ sp.findVma va, a.vmStart ≤ va) ↔
    ∃ a ∈ sp.mmap, a.vmStart ≤ va ∧ va < a.vmEnd := by
  constructor
  · rintro ⟨a, ha, hle⟩
    have hend : va < a.vmEnd := by simpa using find?_some ha
    exact ⟨a, mem_of_find?_eq_some ha, hle, hend⟩
  · intro ⟨a, ha, hle, hlt⟩
    cases hfind : sp.findVma va with
    | none =>
      have hno := find?_eq_none.mp hfind a ha
      exact absurd (decide_eq_true hlt) hno
    | some c => exact ⟨c, rfl, Nat.le_trans (find?_start_le hs hfind ha (decide_eq_true hlt)) hle⟩

namespace Paging

theorem copiedAreas_sorted : ∀ {l m : List Area}, m.Pairwise (fun a b => a.vmStart ≤ b.vmStart) →
    (copiedAreas l m).Pairwise fun a b => a.vmStart ≤ b.vmStart
  | [], _, h => h
  | a :: l, m, h => copiedAreas_sorted (l := l) (m := insertArea a.copied m) (insertArea_sorted h)

variable {s s' : Paging} {t : Nat}

theorem pushArgs_areas {cur : Nat} (h : s.pushArgs t cur = some s') : SameAreas s s' :=
  ⟨(pushArgs_holds h).1, fun t' => ((pushArgs_holds h).2 t').mmap, fun t' => ((pushArgs_holds h).2 t').startBrk⟩

end Paging

end MiniOS
