import MiniOS.MountTable
import MiniOS.HashTable
import MiniOS.Namei
import MiniOS.Runs
import Mathlib.Data.List.Induction
import Mathlib.Data.List.Nodup
import Mathlib.Order.WellFoundedSet

/-!
# What a lookup in the mount table finds

A lookup answers the mount inserted last among those of its chain with the parent looked
for: the dentry is not compared. `follow_mount` goes from a mount to one of its children.
-/

namespace MiniOS

open List Option Relation

section
variable {mntParent mntRoot : Nat → Nat} {calls : List MountCall} {t : MountTable} {m d x : Nat}
    {e : MountCall} {p : MountPath}

instance : DecidablePred (MountCall.Mistakable mntParent m d) := fun e =>
  inferInstanceAs (Decidable (mntParent e.mnt = m ∧ mountBucket e.dentry m = mountBucket d m))

instance : DecidablePred (MountCall.Is mntParent m d) := fun e =>
  inferInstanceAs (Decidable (mntParent e.mnt = m ∧ e.dentry = d))

theorem MountCall.Is.mistakable (h : e.Is mntParent m d) : e.Mistakable mntParent m d := by
  obtain ⟨hm, hd⟩ := h
  exact ⟨hm, by rw [hd]⟩

theorem DistinctMounts.eq_of_mnt (h : DistinctMounts mntParent calls) {e e' : MountCall} (he : e ∈ calls)
    (he' : e' ∈ calls) (hm : e.mnt = e'.mnt) : e = e' :=
  inj_on_of_nodup_map h.mounts he he' hm

theorem DistinctMounts.eq_of_is (h : DistinctMounts mntParent calls) {e e' : MountCall} (he : e ∈ calls)
    (he' : e' ∈ calls) (hi : e.Is mntParent m d) (hi' : e'.Is mntParent m d) : e = e' := by
  apply inj_on_of_nodup_map h.keys he he'
  rw [hi.1, hi.2, hi'.1, hi'.2]

/-! ## The chains -/

theorem insertVfsmnt_eq {t t' : MountTable} {mnt dentry : Nat} (h : insertVfsmnt t mnt dentry = some t') :
    mnt ≠ 0 ∧ t' = { t with
      next := Function.update t.next mnt (t.first (mountBucket dentry (t.mntParent mnt)))
      first := Function.update t.first (mountBucket dentry (t.mntParent mnt)) mnt } := by
  unfold insertVfsmnt at h
  split at h
  · next hne => exact ⟨hne.2.1, (some.inj h).symm⟩
  · cases h

structure TableOf (mntParent mntRoot : Nat → Nat) (calls : List MountCall) (t : MountTable) : Prop where
  parent : t.mntParent = mntParent
  root : t.mntRoot = mntRoot
  nonnull : ∀ e ∈ calls, e.mnt ≠ 0
  hashed : Hashed (fun e => mountBucket e.dentry (mntParent e.mnt)) MountCall.mnt 0 calls t.first t.next

theorem after_table (hn : (calls.map MountCall.mnt).Nodup) (h : MountTable.after mntParent mntRoot calls = some t) :
    TableOf mntParent mntRoot calls t := by
  induction calls using List.reverseRecOn generalizing t with
  | nil =>
    cases h
    exact ⟨rfl, rfl, by simp, Hashed.nil⟩
  | append_singleton calls e ih =>
    obtain ⟨t₁, h₁, h₂⟩ := foldlM_snoc.mp h
    rw [map_append, nodup_append] at hn
    have hold := ih hn.1 h₁
    obtain ⟨hne, rfl⟩ := insertVfsmnt_eq h₂
    have hnew : e.mnt ∉ calls.map MountCall.mnt := fun he => hn.2.2 _ he _ (by simp) rfl
    refine ⟨hold.parent, hold.root, ?_, ?_⟩
    · intro e' he'
      rcases mem_append.mp he' with he' | he'
      · exact hold.nonnull e' he'
      · rw [mem_singleton.mp he']
        exact hne
    · rw [hold.parent]
      exact hold.hashed.insert hne hnew

/-! ## The answer of a lookup -/

def lastMount (mntParent : Nat → Nat) (calls : List MountCall) (m d : Nat) : Option MountCall :=
  calls.reverse.find? fun e => e.Mistakable mntParent m d

theorem lookupVfsmnt_table (h : TableOf mntParent mntRoot calls t) {fuel : Nat} (hf : calls.length < fuel) :
    lookupVfsmnt t fuel m d = some (((lastMount mntParent calls m d).map MountCall.mnt).getD 0) := by
  rw [lookupVfsmnt, h.hashed.find _ hf, h.parent, lastMount]
  congr 4
  funext e
  rw [decide_eq_decide, decide_eq_true_iff, and_comm]
  apply and_congr_right
  intro hm
  rw [hm]

theorem lastMount_some (h : lastMount mntParent calls m d = some e) :
    e ∈ calls ∧ mntParent e.mnt = m ∧ (e.Is mntParent m d ↔ ExactAt mntParent calls m d) := by
  obtain ⟨hmem, hiff⟩ := find?_reverse_iff (fun _ => MountCall.Is.mistakable) h
  have hmist : e.Mistakable mntParent m d := by simpa using find?_some h
  exact ⟨hmem, hmist.1, hiff⟩

theorem lastMount_none (h : lastMount mntParent calls m d = none) :
    (∀ e ∈ calls, ¬ e.Is mntParent m d) ∧ ExactAt mntParent calls m d := by
  have hnone : ∀ e ∈ calls, ¬ e.Mistakable mntParent m d := by
    intro e he
    simpa using find?_eq_none.mp h e (mem_reverse.mpr he)
  constructor
  · intro e he hi
    exact hnone e he hi.mistakable
  · intro pre e post hsplit hm
    exact absurd hm (hnone e (by rw [hsplit]; simp))

theorem DistinctMounts.looksUp_iff (hd : DistinctMounts mntParent calls) (h₀ : ∀ e ∈ calls, e.mnt ≠ 0)
    (he : e ∈ calls) : LooksUpMount mntParent calls m d e.mnt ↔ e.Is mntParent m d := by
  constructor
  · intro hl
    obtain ⟨e', he', hi, hm⟩ := (hl e.mnt (h₀ e he)).mp rfl
    rw [← hd.eq_of_mnt he' he hm]
    exact hi
  · intro hi x _
    constructor
    · intro hx
      exact ⟨e, he, hi, hx⟩
    · rintro ⟨e', he', hi', rfl⟩
      rw [hd.eq_of_is he he' hi hi']

theorem lookup_exact_iff (h : TableOf mntParent mntRoot calls t) (hd : DistinctMounts mntParent calls) :
    LooksUpMount mntParent calls m d (((lastMount mntParent calls m d).map MountCall.mnt).getD 0) ↔
      ExactAt mntParent calls m d := by
  cases hlast : lastMount mntParent calls m d with
  | some e =>
    obtain ⟨hmem, -, hiff⟩ := lastMount_some hlast
    exact (hd.looksUp_iff h.nonnull hmem).trans hiff
  | none =>
    obtain ⟨hno, hex⟩ := lastMount_none hlast
    apply iff_of_true _ hex
    intro x hx
    apply iff_of_false (Ne.symm hx)
    rintro ⟨e, he, hi, -⟩
    exact hno e he hi

/-! ## The mount tree -/

theorem wellFounded_childOf (hac : AcyclicMounts mntParent calls) : WellFounded (ChildOf mntParent calls) := by
  have hirr : IsStrictOrder Nat (Relation.TransGen (ChildOf mntParent calls)) :=
    { irrefl := hac, trans := fun _ _ _ => Relation.TransGen.trans }
  have hfin : Set.Finite {x | x ∈ calls.map MountCall.mnt} := finite_toSet _
  have hwf := hfin.wellFoundedOn (r := Relation.TransGen (ChildOf mntParent calls))
  have hacc : ∀ x ∈ calls.map MountCall.mnt, Acc (ChildOf mntParent calls) x := by
    intro x hx
    apply hwf.induction hx
    intro x _ ih
    constructor
    intro y hy
    exact ih y hy.1 (.single hy)
  constructor
  intro m
  constructor
  intro x hx
  exact hacc x hx.1

theorem ChildOf.rightUnique : Relator.RightUnique (ChildOf mntParent calls) := by
  intro x m m' h h'
  exact h.2.symm.trans h'.2

theorem StackedOn.childOf {p p' : MountPath} (h : StackedOn mntParent mntRoot calls p p') :
    ChildOf mntParent calls p'.mnt p.mnt := by
  obtain ⟨-, e, he, hi, rfl⟩ := h
  exact ⟨List.mem_map_of_mem he, hi.1⟩

theorem stacked_below {p p' : MountPath} (h : ReflTransGen (StackedOn mntParent mntRoot calls) p p') :
    ReflTransGen (ChildOf mntParent calls) p'.mnt p.mnt := by
  induction h with
  | refl => exact .refl
  | tail _ hs ih => exact .head hs.childOf ih

theorem StackedOn.unique (hd : DistinctMounts mntParent calls) {p p₁ p₂ : MountPath}
    (h₁ : StackedOn mntParent mntRoot calls p p₁) (h₂ : StackedOn mntParent mntRoot calls p p₂) : p₁ = p₂ := by
  obtain ⟨-, e₁, he₁, hi₁, rfl⟩ := h₁
  obtain ⟨-, e₂, he₂, hi₂, rfl⟩ := h₂
  rw [hd.eq_of_is he₁ he₂ hi₁ hi₂]

/-- Two children of one mount have nothing below them in common. -/
theorem AcyclicMounts.apart (hac : AcyclicMounts mntParent calls) {x y z : Nat} (hx : ChildOf mntParent calls x m)
    (hy : ChildOf mntParent calls y m) (hxy : x ≠ y)
    (hzx : ReflTransGen (ChildOf mntParent calls) z x) :
    ¬ ReflTransGen (ChildOf mntParent calls) z y := by
  -- above a child of `m` there are `m` and what is above `m`
  have key : ∀ {x y : Nat}, ChildOf mntParent calls x m → ChildOf mntParent calls y m → x ≠ y →
      ¬ ReflTransGen (ChildOf mntParent calls) x y := by
    intro x y hx hy hxy h
    rcases ReflTransGen.cases_head h with e | ⟨m', hm', h⟩
    · exact hxy e
    · obtain rfl := ChildOf.rightUnique hx hm'
      exact hac m (Relation.TransGen.tail' h hy)
  intro hzy
  rcases ReflTransGen.total_of_right_unique ChildOf.rightUnique hzx hzy with h | h
  · exact key hx hy hxy h
  · exact key hy hx hxy.symm h

/-! ## Following mounts -/

def AllExact (mntParent mntRoot : Nat → Nat) (calls : List MountCall) (p : MountPath) : Prop :=
  ∀ p', ReflTransGen (StackedOn mntParent mntRoot calls) p p' → p'.dentry ≠ 0 →
    ExactAt mntParent calls p'.mnt p'.dentry

theorem topmost_self (h : ∀ p', ¬ StackedOn mntParent mntRoot calls p p') :
    Topmost mntParent mntRoot calls p p := ⟨.refl, h⟩

theorem allExact_self (h : ∀ p', ¬ StackedOn mntParent mntRoot calls p p') :
    AllExact mntParent mntRoot calls p ↔ (p.dentry ≠ 0 → ExactAt mntParent calls p.mnt p.dentry) := by
  constructor
  · intro hall
    exact hall p .refl
  · intro hp p' hrun
    rcases ReflTransGen.cases_head hrun with rfl | ⟨p₁, hs, -⟩
    · exact hp
    · exact absurd hs (h p₁)

theorem topmost_step (hd : DistinctMounts mntParent calls) {p p₁ r : MountPath}
    (h : StackedOn mntParent mntRoot calls p p₁) :
    Topmost mntParent mntRoot calls p r ↔ Topmost mntParent mntRoot calls p₁ r := by
  constructor
  · rintro ⟨hrun, hend⟩
    rcases ReflTransGen.cases_head hrun with rfl | ⟨p₂, hs, hrun⟩
    · exact absurd h (hend p₁)
    · rw [h.unique hd hs]
      exact ⟨hrun, hend⟩
  · rintro ⟨hrun, hend⟩
    exact ⟨.head h hrun, hend⟩

theorem allExact_step (hd : DistinctMounts mntParent calls) {p p₁ : MountPath}
    (h : StackedOn mntParent mntRoot calls p p₁) (hex : ExactAt mntParent calls p.mnt p.dentry) :
    AllExact mntParent mntRoot calls p ↔ AllExact mntParent mntRoot calls p₁ := by
  constructor
  · intro hall p' hrun
    exact hall p' (.head h hrun)
  · intro hall p' hrun hne
    rcases ReflTransGen.cases_head hrun with rfl | ⟨p₂, hs, hrun⟩
    · exact hex
    · apply hall p' _ hne
      rw [h.unique hd hs]
      exact hrun

structure Follows (mntParent mntRoot : Nat → Nat) (calls : List MountCall) (t : MountTable) (p r : MountPath) :
    Prop where
  ends : ∃ N, ∀ fuel ≥ N, ∀ res, ∃ res', t.followMount fuel p res = some (r, res')
  below : ReflTransGen (ChildOf mntParent calls) r.mnt p.mnt
  exact_iff : Topmost mntParent mntRoot calls p r ↔ AllExact mntParent mntRoot calls p

theorem followMount_stays (h : TableOf mntParent mntRoot calls t)
    (hp : p.dentry = 0 ∨ lastMount mntParent calls p.mnt p.dentry = none) :
    Follows mntParent mntRoot calls t p p := by
  have hno : ∀ p', ¬ StackedOn mntParent mntRoot calls p p' := by
    rintro p' ⟨hne, e, he, hi, -⟩
    rcases hp with hz | hnone
    · exact hne hz
    · exact (lastMount_none hnone).1 e he hi
  refine ⟨⟨calls.length + 2, ?_⟩, .refl, ?_⟩
  · intro fuel hfuel res
    refine ⟨res, ?_⟩
    obtain ⟨fuel, rfl⟩ : ∃ n, fuel = n + 1 := ⟨fuel - 1, by omega⟩
    rw [MountTable.followMount]
    by_cases hz : p.dentry = 0
    · rw [if_pos hz]
    · rw [if_neg hz, lookupVfsmnt_table h (by omega), hp.resolve_left hz]
      rfl
  · apply iff_of_true (topmost_self hno)
    rw [allExact_self hno]
    intro hz
    exact (lastMount_none (hp.resolve_left hz)).2

theorem followMount_goes (h : TableOf mntParent mntRoot calls t) (hd : DistinctMounts mntParent calls)
    (hac : AcyclicMounts mntParent calls) {p r : MountPath} (hz : p.dentry ≠ 0)
    (hlast : lastMount mntParent calls p.mnt p.dentry = some e)
    (hf : Follows mntParent mntRoot calls t ⟨e.mnt, mntRoot e.mnt⟩ r) : Follows mntParent mntRoot calls t p r := by
  obtain ⟨hmem, hpar, hexact⟩ := lastMount_some hlast
  have hchild : ChildOf mntParent calls e.mnt p.mnt := ⟨List.mem_map_of_mem hmem, hpar⟩
  refine ⟨?_, hf.below.tail hchild, ?_⟩
  · obtain ⟨N, hN⟩ := hf.ends
    refine ⟨N + calls.length + 2, ?_⟩
    intro fuel hfuel res
    obtain ⟨fuel, rfl⟩ : ∃ n, fuel = n + 1 := ⟨fuel - 1, by omega⟩
    rw [MountTable.followMount, if_neg hz, lookupVfsmnt_table h (by omega), hlast]
    change ∃ res', (if e.mnt = 0 then some (p, res) else _) = some (r, res')
    rw [if_neg (h.nonnull e hmem), h.root]
    exact hN fuel (by omega) 1
  · by_cases hi : e.Is mntParent p.mnt p.dentry
    · have hs : StackedOn mntParent mntRoot calls p ⟨e.mnt, mntRoot e.mnt⟩ := ⟨hz, e, hmem, hi, rfl⟩
      rw [topmost_step hd hs, allExact_step hd hs (hexact.mp hi)]
      exact hf.exact_iff
    · -- the wrong child: nothing above the right one is below it
      apply iff_of_false
      · rintro ⟨hrun, -⟩
        rcases ReflTransGen.cases_head hrun with rfl | ⟨p', hs, hrun⟩
        · exact hac p.mnt (Relation.TransGen.tail' hf.below hchild)
        · obtain ⟨-, e', he', hi', rfl⟩ := hs
          have hne : e.mnt ≠ e'.mnt := fun heq => hi (hd.eq_of_mnt hmem he' heq ▸ hi')
          exact hac.apart hchild ⟨List.mem_map_of_mem he', hi'.1⟩ hne hf.below (stacked_below hrun)
      · intro hall
        exact hi (hexact.mpr (hall p .refl hz))

theorem followMount_ends (h : TableOf mntParent mntRoot calls t) (hd : DistinctMounts mntParent calls)
    (hac : AcyclicMounts mntParent calls) (p : MountPath) : ∃ r, Follows mntParent mntRoot calls t p r := by
  obtain ⟨m, d⟩ := p
  induction m using (wellFounded_childOf hac).induction generalizing d with
  | h m ih =>
    by_cases hz : d = 0
    · exact ⟨_, followMount_stays h (.inl hz)⟩
    · cases hlast : lastMount mntParent calls m d with
      | none => exact ⟨_, followMount_stays h (.inr hlast)⟩
      | some e =>
        obtain ⟨hmem, hpar, -⟩ := lastMount_some hlast
        obtain ⟨r, hr⟩ := ih e.mnt ⟨List.mem_map_of_mem hmem, hpar⟩ (mntRoot e.mnt)
        exact ⟨r, followMount_goes h hd hac hz hlast hr⟩

/-- A path walk whose lookups are those of the table follows mounts as the table does. -/
theorem followMount_refines {v : Vfs} {n : Nat} (hroot : v.mntRoot = t.mntRoot)
    (hl : ∀ fuel m d, n < fuel → lookupVfsmnt t fuel m d = some (v.lookupVfsmnt m d)) :
    ∀ (k : Nat) {mnt dentry : Nat} {r : Nat × Nat} (res : Int), followMount v k (mnt, dentry) = some r →
      ∃ res', t.followMount (k + n + 1) ⟨mnt, dentry⟩ res = some (⟨r.1, r.2⟩, res') := by
  intro k
  induction k with
  | zero =>
    intro mnt dentry r res hr
    cases hr
  | succ k ih =>
    intro mnt dentry r res hr
    rw [followMount] at hr
    rw [MountTable.followMount]
    by_cases hz : dentry = 0
    · rw [if_pos hz] at hr ⊢
      cases hr
      exact ⟨res, rfl⟩
    · rw [if_neg hz] at hr ⊢
      rw [hl _ _ _ (by omega), bind_some]
      by_cases hm : v.lookupVfsmnt mnt dentry = 0
      · simp only [hm, if_true] at hr ⊢
        cases hr
        exact ⟨res, rfl⟩
      · simp only [hm, if_false] at hr ⊢
        rw [← hroot, Nat.succ_add]
        exact ih 1 hr

end

/-- A lookup is the lookup of a finite map if and only if every mount it could be mistaken
for is the right one or was inserted before it. On an acyclic mount tree `follow_mount`
ends, and it ends at the topmost mount if and only if that is so of every lookup on the
way there. -/
theorem mount_table_refines_map {mntParent mntRoot : Nat → Nat} {calls : List MountCall} {t : MountTable}
    (ht : MountTable.after mntParent mntRoot calls = some t) (hd : DistinctMounts mntParent calls) :
    (∀ m d, (∃ r, (∀ fuel, calls.length < fuel → lookupVfsmnt t fuel m d = some r) ∧
      LooksUpMount mntParent calls m d r) ↔ ExactAt mntParent calls m d) ∧
    (AcyclicMounts mntParent calls → ∀ p, ∃ r,
      (∃ N, ∀ fuel ≥ N, ∃ res, t.followMount fuel p 0 = some (r, res)) ∧
      (Topmost mntParent mntRoot calls p r ↔
        ∀ p', ReflTransGen (StackedOn mntParent mntRoot calls) p p' → p'.dentry ≠ 0 →
          ExactAt mntParent calls p'.mnt p'.dentry)) := by
  have h := after_table hd.mounts ht
  constructor
  · intro m d
    rw [← lookup_exact_iff h hd]
    constructor
    · rintro ⟨r, hr, hl⟩
      have hr := hr _ (Nat.lt_succ_self _)
      rw [lookupVfsmnt_table h (Nat.lt_succ_self _)] at hr
      rw [some.inj hr]
      exact hl
    · intro hl
      exact ⟨_, fun fuel hf => lookupVfsmnt_table h hf, hl⟩
  · intro hac p
    obtain ⟨r, hr⟩ := followMount_ends h hd hac p
    obtain ⟨N, hN⟩ := hr.ends
    exact ⟨r, ⟨N, fun fuel hf => hN fuel hf 0⟩, hr.exact_iff⟩

def stackedCalls : List MountCall := [⟨0xC0200040, 0xC0300020⟩, ⟨0xC0200080, 0xC0300040⟩]

def stackedParent (mnt : Nat) : Nat := if mnt = 0xC0200040 then 0xC0200000 else 0xC0200040

theorem mount_table_refines_map_stacked : ∃ t,
    MountTable.after stackedParent (fun _ => 0xC0300040) stackedCalls = some t ∧
    DistinctMounts stackedParent stackedCalls ∧
    ∃ r, (∀ fuel, stackedCalls.length < fuel → lookupVfsmnt t fuel 0xC0200040 0xC0300040 = some r) ∧
      LooksUpMount stackedParent stackedCalls 0xC0200040 0xC0300040 r := by
  have hd : DistinctMounts stackedParent stackedCalls := ⟨by decide, by decide⟩
  obtain ⟨t, ht⟩ : ∃ t, MountTable.after stackedParent (fun _ => 0xC0300040) stackedCalls = some t := ⟨_, rfl⟩
  refine ⟨t, ht, hd, ((mount_table_refines_map ht hd).1 0xC0200040 0xC0300040).mpr ?_⟩
  intro pre e post hsplit hm
  have hexact : ∀ e ∈ stackedCalls, e.Mistakable stackedParent 0xC0200040 0xC0300040 →
      e.Is stackedParent 0xC0200040 0xC0300040 := by decide
  exact ⟨e, mem_cons_self .., hexact e (by rw [hsplit]; simp) hm⟩

def siblingCalls : List MountCall := [⟨0xC0200040, 0xC0300020⟩, ⟨0xC0200080, 0xC0300060⟩]

/-- Two file systems on two directories of the root: the first directory leads to the
second file system. -/
theorem mount_table_answers_sibling : ∃ t,
    MountTable.after (fun _ => 0xC0200000) id siblingCalls = some t ∧
    DistinctMounts (fun _ => 0xC0200000) siblingCalls ∧ lookupVfsmnt t 3 0xC0200000 0xC0300020 = some 0xC0200080 ∧
    ¬ LooksUpMount (fun _ => 0xC0200000) siblingCalls 0xC0200000 0xC0300020 0xC0200080 ∧
    t.followMount 5 ⟨0xC0200000, 0xC0300020⟩ 0 = some (⟨0xC0200080, 0xC0200080⟩, 1) ∧
    ¬ Topmost (fun _ => 0xC0200000) id siblingCalls ⟨0xC0200000, 0xC0300020⟩ ⟨0xC0200080, 0xC0200080⟩ := by
  have hno : ∀ e ∈ siblingCalls, e.dentry = 0xC0300020 → e.mnt ≠ 0xC0200080 := by decide
  have hroot : ∀ e ∈ siblingCalls, 0xC0200000 ≠ e.mnt := by decide
  refine ⟨_, rfl, ⟨by decide, by decide⟩, rfl, ?_, rfl, ?_⟩
  · intro hl
    obtain ⟨e, he, hi, hm⟩ := (hl 0xC0200080 (by decide)).mp rfl
    exact hno e he hi.2 hm
  · rintro ⟨hrun, -⟩
    rcases ReflTransGen.cases_head hrun with heq | ⟨p, hs, hrun⟩
    · cases heq
    · obtain ⟨-, e, he, hi, rfl⟩ := hs
      rcases ReflTransGen.cases_head hrun with heq | ⟨p', ⟨-, e', -, hi', -⟩, -⟩
      · exact hno e he hi.2 (congrArg MountPath.mnt heq)
      · exact hroot e he hi'.1

end MiniOS
