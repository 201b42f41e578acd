import MiniOS.BootMap
import MiniOS.BootRequests
import MiniOS.PageTableSound

/-!
# The tables of the kernel

The tables behind `kpgd` are a tree of frames below `base` of the boot allocator, so that the next
page is no table yet. `boot_map_region` changes the entries of its region and no others.
-/

namespace MiniOS

open Option PageMem

def kernelAddrs : Set Nat := {va | kernelBaseAddr ≤ va ∧ va < 2 ^ 32}

def KernelEnv.paths (e : KernelEnv) : Set (List Nat) := e.config.pathsOf kernelAddrs

namespace KernelMap

variable (e : KernelEnv)

def table (k : KernelMap) (p : List Nat) : Option Nat := follow k.mem.child e.kpgd p

def pte (k : KernelMap) (va : Nat) : Nat := k.mem.pteAt e.config e.kpgd va

structure Right (k : KernelMap) : Prop where
  radix : Radix k.mem.child e.kpgd e.paths
  below : ∀ p ∈ e.paths, ∀ f, k.table e p = some f → kernelBaseAddr + (f + 1) * pageSize ≤ k.boot.base
  aligned : pageSize ∣ k.boot.base

structure Kept (k k' : KernelMap) : Prop where
  right : k'.Right e
  pte : ∀ va ∈ kernelAddrs, k'.pte e va = k.pte e va
  tables : ∀ p ∈ e.paths, ∀ f, k.table e p = some f → k'.table e p = some f

variable {e} {k k' k'' : KernelMap} {q : List Nat} {f j n va pa perm : Nat} {x : EntryPtr}

theorem Kept.refl (h : k.Right e) : Kept e k k := ⟨h, fun _ _ => rfl, fun _ _ _ => id⟩

theorem Kept.trans (h : Kept e k k') (h' : Kept e k' k'') : Kept e k k'' where
  right := h'.right
  pte va hva := (h'.pte va hva).trans (h.pte va hva)
  tables p hp f hf := h'.tables p hp f (h.tables p hp f hf)

/-- An empty page directory. -/
theorem right_of_empty (hz : ∀ j, k.mem.entry e.kpgd j = 0)
    (hbase : kernelBaseAddr + (e.kpgd + 1) * pageSize ≤ k.boot.base)
    (haligned : pageSize ∣ k.boot.base) : k.Right e := by
  have hroot : ∀ p f, k.table e p = some f → p = [] ∧ f = e.kpgd := by
    intro p f hf
    cases p with
    | nil => exact ⟨rfl, (some.inj hf).symm⟩
    | cons j p =>
      rw [table, follow, child_eq_none.mpr (hz j)] at hf
      cases hf
  refine ⟨⟨fun p j hp => PageConfig.pathsOf_of_concat hp, fun p _ q _ f hp hq => ?_⟩, fun p _ f hf => ?_, haligned⟩
  · rw [(hroot p f hp).1, (hroot q f hq).1]
  · rw [(hroot p f hf).2]
    exact hbase

theorem Right.congr (h : k.Right e) (hmem : k'.mem = k.mem) (hboot : k'.boot = k.boot) : k'.Right e := by
  obtain ⟨mem, boot, base⟩ := k'
  obtain rfl : mem = k.mem := hmem
  obtain rfl : boot = k.boot := hboot
  exact ⟨h.radix, h.below, h.aligned⟩

theorem pte_of_mem (h : k'.mem = k.mem) (va : Nat) : k'.pte e va = k.pte e va := by
  rw [pte, pte, h]

/-! ## A new table -/

theorem nil_mem_paths (e : KernelEnv) : [] ∈ e.paths :=
  ⟨kernelBaseAddr, ⟨Nat.le_refl _, by decide⟩, List.nil_prefix⟩

/-- A page taken from an aligned place is a frame. -/
theorem bootPage_inv (hd : pageSize ∣ k.boot.next e.bssEnd) (hk : k.bootPage e = some (pa, k')) :
    ∃ n, pa = n <<< pageShift ∧
    k.boot.next e.bssEnd = kernelBaseAddr + n * pageSize ∧ k'.boot.base = kernelBaseAddr + (n + 1) * pageSize ∧
    k'.mem = { k.mem with entry := Function.update k.mem.entry n fun _ => 0 } ∧ k'.mmioBase = k.mmioBase := by
  obtain ⟨⟨tmp, boot⟩, halloc, hk⟩ := bind_eq_some_iff.mp hk
  obtain ⟨phys, hphys, hk⟩ := map_eq_some_iff.mp hk
  obtain ⟨rfl, rfl⟩ := Prod.mk.inj hk
  obtain ⟨-, hlt, rfl, hboot, -⟩ := Boot.allocBootmmPages_some halloc
  generalize k.boot.next e.bssEnd = base at hd hphys hlt hboot ⊢
  unfold virtToPhys at hphys
  split at hphys
  · cases hphys
  · rename_i hle
    obtain rfl := some.inj hphys
    obtain ⟨n, hn⟩ : pageSize ∣ base - kernelBaseAddr := Nat.dvd_sub hd (by decide)
    rw [Nat.mul_comm] at hn
    have hshift : base - kernelBaseAddr = n <<< pageShift := by
      rw [hn, Nat.shiftLeft_eq]
      rfl
    refine ⟨n, hshift, by omega, ?_, ?_, rfl⟩
    · have hspace := normalTop_page e.map
      change boot.base = _
      rw [hboot, wrap_of_lt (by omega), Nat.add_mul]
      omega
    · dsimp only
      rw [hshift, Nat.shiftLeft_shiftRight]

theorem Right.next (h : k.Right e) : k.boot.next e.bssEnd = k.boot.base := by
  have hroot := h.below [] (nil_mem_paths e) e.kpgd rfl
  apply Boot.next_of_ne
  unfold kernelBaseAddr at hroot
  omega

theorem bootPage_spec (h : k.Right e) (hk : k.bootPage e = some (pa, k')) : ∃ n, pa = n <<< pageShift ∧
    k.boot.base = kernelBaseAddr + n * pageSize ∧ k'.boot.base = kernelBaseAddr + (n + 1) * pageSize ∧
    k'.mem = { k.mem with entry := Function.update k.mem.entry n fun _ => 0 } := by
  have hnext := h.next
  obtain ⟨n, hpa, hbase, hbase', hmem, -⟩ := bootPage_inv (hnext.symm ▸ h.aligned) hk
  exact ⟨n, hpa, hnext.symm.trans hbase, hbase', hmem⟩

theorem bootGetPmd_eq (k : KernelMap) (x : EntryPtr) (perm : Nat) :
    k.bootGetPmd e x perm = k.bootGetPte e x (pmdPerm e.config perm) := by
  obtain ⟨c, map, bssEnd, kpgd⟩ := e
  cases c with
  | level2 => rfl
  | level3 => rfl

theorem bootGetPte_spec (h : k.Right e) (hq : q ++ [j] ∈ e.paths) (hf : k.table e q = some f)
    (hz : k.mem.entry f j = 0)
    (hperm : perm &&& 0xFFF = perm) (hp₀ : perm ≠ 0) (hk : k.bootGetPte e (f, j) perm = some k') :
    Kept e k k' ∧ ∃ n, k'.table e (q ++ [j]) = some n := by
  obtain ⟨⟨pa, k₁⟩, hpage, hk⟩ := bind_eq_some_iff.mp hk
  obtain ⟨mem, hset, rfl⟩ := map_eq_some_iff.mp hk
  obtain ⟨n, rfl, hbase, hbase', hmem⟩ := bootPage_spec h hpage
  have hmem' : k₁.mem.write (f, j) (n <<< pageShift ||| perm) = mem :=
    some.inj ((entrySet_eq k₁.mem (f, j) n hperm).symm.trans hset)
  -- all tables are in frames before `n`
  have hlt : ∀ r ∈ e.paths, ∀ g, k.table e r = some g → g < n := by
    intro r hr g hg
    have hbelow := h.below r hr g hg
    rw [hbase] at hbelow
    exact Nat.lt_of_succ_le (Nat.le_of_mul_le_mul_right (Nat.le_of_add_le_add_left hbelow) (by decide))
  have hn : ∀ r ∈ e.paths, k.table e r ≠ some n := fun r hr hg => Nat.lt_irrefl n (hlt r hr n hg)
  have hfn : f ≠ n := Nat.ne_of_lt (hlt q (PageConfig.pathsOf_of_concat hq) f hf)
  have hnew : NewTable k.mem mem f j n perm := by
    rw [← hmem', hmem]
    exact newTable_write hfn rfl
  have hfollow := hnew.follows h.radix hq hf hz hn hperm hp₀
  refine ⟨⟨⟨h.radix.grow hn hfollow, ?_, ?_⟩, ?_, ?_⟩, n, (hfollow _ hq).1 rfl⟩
  · intro r hr g hg
    change kernelBaseAddr + (g + 1) * pageSize ≤ k₁.boot.base
    have hgn : g ≤ n := by
      by_cases hrq : r = q ++ [j]
      · exact Nat.le_of_eq (some.inj (hg.symm.trans ((hfollow r hr).1 hrq)))
      · exact Nat.le_of_lt (hlt r hr g (((hfollow r hr).2 hrq).symm.trans hg))
    rw [hbase']
    exact Nat.add_le_add_left (Nat.mul_le_mul_right _ (Nat.succ_le_succ hgn)) _
  · change pageSize ∣ k₁.boot.base
    rw [hbase']
    exact Nat.dvd_add (by decide) (Nat.dvd_mul_left ..)
  · exact fun va hva => hnew.pteAt h.radix hq hf hz hn hfollow hva
  · intro r hr g hg
    have hrq : r ≠ q ++ [j] := by
      rintro rfl
      rw [table, follow_concat] at hg
      obtain ⟨f', hf', hchild⟩ := bind_eq_some_iff.mp hg
      obtain rfl := some.inj (hf'.symm.trans hf)
      rw [child_eq_none.mpr hz] at hchild
      cases hchild
    exact ((hfollow r hr).2 hrq).trans hg

/-! ## Walking -/

theorem step_table (h : k.Right e) (hq : q ++ [j] ∈ e.paths) (hf : k.table e q = some f)
    (hperm : perm &&& 0xFFF = perm)
    (hp₀ : perm ≠ 0) (hk : (if k.mem.val (f, j) = 0 then k.bootGetPte e (f, j) perm else some k) = some k') :
    Kept e k k' ∧ ∃ n, k'.table e (q ++ [j]) = some n := by
  by_cases hz : k.mem.val (f, j) = 0
  · rw [if_pos hz] at hk
    exact bootGetPte_spec h hq hf hz hperm hp₀ hk
  · rw [if_neg hz] at hk
    obtain rfl := some.inj hk
    refine ⟨.refl h, k.mem.entry f j >>> pageShift, ?_⟩
    rw [table, follow_concat]
    exact bind_eq_some_iff.mpr ⟨f, hf, child_of_ne hz⟩

/-- The entry of a table that is there. -/
theorem val_of_table (hf : k.table e q = some f) (hn : k.table e (q ++ [j]) = some n) :
    k.mem.val (f, j) ≠ 0 ∧ k.mem.val (f, j) >>> pageShift = n := by
  rw [table, follow_concat] at hn
  obtain ⟨f', hf', hchild⟩ := bind_eq_some_iff.mp hn
  obtain rfl := some.inj (hf'.symm.trans hf)
  have hne : k.mem.entry f' j ≠ 0 := by
    intro hz
    rw [child_eq_none.mpr hz] at hchild
    cases hchild
  rw [child_of_ne hne] at hchild
  exact ⟨hne, some.inj hchild⟩

theorem pageVaddr_eq {m : Nat} (hf : k.table e q = some f) (hn : k.table e (q ++ [j]) = some n)
    (hm : pageVaddr (k.mem.val (f, j)) = some m) : m = n := by
  unfold pageVaddr at hm
  split at hm
  · cases hm
  · exact (some.inj hm).symm.trans (val_of_table hf hn).2

theorem pteOffset_table (hf : k.table e q = some f) (hn : k.table e (q ++ [j]) = some n)
    (hx : k.mem.pteOffset e.config (f, j) va = some x) : x = (n, e.config.pteIndex va) := by
  unfold pteOffset at hx
  split at hx
  · cases hx
  · obtain ⟨m, hm, rfl⟩ := map_eq_some_iff.mp hx
    rw [pageVaddr_eq hf hn hm]

theorem bootPageWalk_spec {r : Option EntryPtr} (h : k.Right e) (hva : va ∈ kernelAddrs)
    (hk : k.bootPageWalk e va true = some (r, k')) :
    Kept e k k' ∧ ∃ f, k'.table e (e.config.path va) = some f ∧ r = some (f, e.config.pteIndex va) := by
  obtain ⟨hperm, hp₀⟩ := walkPerm e.config
  obtain ⟨c, map, bssEnd, kpgd⟩ := e
  unfold bootPageWalk at hk
  simp only [Bool.true_eq_false, and_false, if_false, bootGetPmd_eq, pgdOffset] at hk
  obtain ⟨k₁, hk₁, hk⟩ := bind_eq_some_iff.mp hk
  obtain ⟨pmd, hpmd, hk⟩ := bind_eq_some_iff.mp hk
  obtain ⟨k₂, hk₂, hk⟩ := bind_eq_some_iff.mp hk
  obtain ⟨x, hx, hk⟩ := map_eq_some_iff.mp hk
  obtain ⟨rfl, rfl⟩ := Prod.mk.inj hk
  cases c with
  | level2 =>
    have hpath : [] ++ [PageConfig.level2.pgdIndex va] ∈ KernelEnv.paths ⟨.level2, map, bssEnd, kpgd⟩ :=
      PageConfig.path_mem_pathsOf hva
    obtain ⟨hkept, n, hn⟩ := step_table (f := kpgd) h hpath rfl hperm hp₀ hk₁
    -- the entry of the page directory is that of the middle directory too
    obtain rfl : (kpgd, PageConfig.level2.pgdIndex va) = pmd := some.inj hpmd
    rw [if_neg (val_of_table rfl hn).1] at hk₂
    obtain rfl := some.inj hk₂
    exact ⟨hkept, n, hn, congrArg some (pteOffset_table rfl hn hx)⟩
  | level3 =>
    have hroot : [] ++ [PageConfig.level3.pgdIndex va] ∈ KernelEnv.paths ⟨.level3, map, bssEnd, kpgd⟩ :=
      ⟨va, hva, [PageConfig.level3.pmdIndex va], rfl⟩
    have hpath : [PageConfig.level3.pgdIndex va] ++ [PageConfig.level3.pmdIndex va] ∈
        KernelEnv.paths ⟨.level3, map, bssEnd, kpgd⟩ := PageConfig.path_mem_pathsOf hva
    obtain ⟨hkept, n, hn⟩ := step_table (f := kpgd) h hroot rfl hperm hp₀ hk₁
    obtain ⟨m, hm, rfl⟩ := map_eq_some_iff.mp hpmd
    obtain rfl := pageVaddr_eq rfl hn hm
    obtain ⟨hkept', n', hn'⟩ := step_table hkept.right hpath hn
      (show (pagePresent ||| pageRw ||| pageUser) &&& 0xFFF = _ by decide) (by decide) hk₂
    exact ⟨hkept.trans hkept', n', hn', congrArg some (pteOffset_table (hkept'.tables _ hroot _ hn) hn' hx)⟩

/-! ## Mapping -/

theorem bootMapPage_spec (h : k.Right e) (hva : va ∈ kernelAddrs) (hk : k.bootMapPage e va pa perm = some k') :
    k'.Right e ∧ k'.pte e va = pa ||| perm ∧
      ∀ va' ∈ kernelAddrs, va' / pageSize ≠ va / pageSize → k'.pte e va' = k.pte e va' := by
  obtain ⟨⟨r, k₁⟩, hwalk, hk⟩ := bind_eq_some_iff.mp hk
  obtain ⟨hkept, f, hf, rfl⟩ := bootPageWalk_spec h hva hwalk
  obtain ⟨mem, hset, rfl⟩ := map_eq_some_iff.mp hk
  have hmem : k₁.mem.write (f, e.config.pteIndex va) (pa ||| perm) = mem := by
    unfold pteSet entrySet at hset
    split at hset
    · cases hset
    · split at hset
      · cases hset
      · exact some.inj hset
  obtain ⟨hfollow, hself, hother⟩ :=
    write_pathsOf (fun _ hlt => hlt.2) hkept.right.radix hva hf (pa ||| perm)
  rw [hmem] at hfollow hself hother
  refine ⟨⟨hkept.right.radix.congr hfollow, ?_, hkept.right.aligned⟩, hself, ?_⟩
  · exact fun p hp g hg => hkept.right.below p hp g ((hfollow p hp).symm.trans hg)
  · exact fun va' hva' hne => (hother va' hva' hne).trans (hkept.pte va' hva')

theorem page_ne_of_lt {i : Nat} (hva : pageSize ∣ va) (hi : i < n * pageSize) :
    (va + i) / pageSize ≠ (va + n * pageSize) / pageSize := by
  unfold pageSize at *
  omega

theorem page_eq_of_le {i : Nat} (hva : pageSize ∣ va) (hle : n * pageSize ≤ i) (hlt : i < (n + 1) * pageSize) :
    (va + i) / pageSize = (va + n * pageSize) / pageSize ∧ i / pageSize = n := by
  unfold pageSize at *
  omega

theorem page_ne_of_outside {va' : Nat} (hva : pageSize ∣ va) (hout : va' < va ∨ va + (n + 1) * pageSize ≤ va') :
    va' / pageSize ≠ (va + n * pageSize) / pageSize := by
  unfold pageSize at *
  omega

structure MapsTo (e : KernelEnv) (k k' : KernelMap) (va size pa perm : Nat) : Prop where
  right : k'.Right e
  inside : ∀ i < size, k'.pte e (va + i) = e.config.physaddr (pa + i / pageSize * pageSize) ||| perm
  outside : ∀ va' ∈ kernelAddrs, va' < va ∨ va + size ≤ va' → k'.pte e va' = k.pte e va'

theorem bootMapRegion_spec (h : k.Right e) (hva : pageSize ∣ va) (hlow : kernelBaseAddr ≤ va)
    (hhigh : va + n * pageSize ≤ 2 ^ 32) (hk : k.bootMapRegion e va (n * pageSize) pa perm = some k') :
    MapsTo e k k' va (n * pageSize) pa perm := by
  unfold bootMapRegion at hk
  rw [Nat.mul_div_cancel _ (by decide)] at hk
  induction n generalizing k' with
  | zero =>
    obtain rfl := some.inj hk
    exact ⟨h, fun i hi => absurd hi (by rw [Nat.zero_mul]; exact Nat.not_lt_zero i), fun _ _ _ => rfl⟩
  | succ n ih =>
    rw [List.range_succ] at hk
    obtain ⟨k₁, hk₁, hk⟩ := foldlM_snoc.mp hk
    have hlast : va + n * pageSize + pageSize ≤ 2 ^ 32 := by
      rw [Nat.succ_mul] at hhigh
      omega
    have hpos : 0 < pageSize := by decide
    rw [wrap_of_lt (by omega)] at hk
    obtain ⟨hr, inside, outside⟩ := ih (by omega) hk₁
    obtain ⟨hr', hself, hother⟩ := bootMapPage_spec hr ⟨by omega, by omega⟩ hk
    refine ⟨hr', fun i hi => ?_, fun va' hva' hout => ?_⟩
    · have hin : va + i < 2 ^ 32 := by
        rw [Nat.succ_mul] at hi
        omega
      by_cases hprev : i < n * pageSize
      · rw [hother _ ⟨by omega, hin⟩ (page_ne_of_lt hva hprev)]
        exact inside i hprev
      · obtain ⟨hpage, hi⟩ := page_eq_of_le hva (Nat.le_of_not_lt hprev) hi
        rw [hi, ← hself]
        exact pteAt_page _ _ _ hin (by omega) hpage
    · have hne : va' / pageSize ≠ (va + n * pageSize) / pageSize := page_ne_of_outside hva hout
      rw [hother va' hva' hne]
      refine outside va' hva' (hout.imp_right fun hle => ?_)
      rw [Nat.succ_mul] at hle
      omega

/-! `base` of `mmio_map_region` belongs to it alone. -/

theorem bootGetPte_mmioBase (hk : k.bootGetPte e x perm = some k') : k'.mmioBase = k.mmioBase := by
  obtain ⟨⟨pa, k₁⟩, hpage, hk⟩ := bind_eq_some_iff.mp hk
  obtain ⟨⟨tmp, boot⟩, -, hpage⟩ := bind_eq_some_iff.mp hpage
  obtain ⟨phys, -, hpage⟩ := map_eq_some_iff.mp hpage
  obtain ⟨-, rfl⟩ := Prod.mk.inj hpage
  obtain ⟨mem, -, rfl⟩ := map_eq_some_iff.mp hk
  rfl

theorem step_mmioBase (hk : (if k.mem.val x = 0 then k.bootGetPte e x perm else some k) = some k') :
    k'.mmioBase = k.mmioBase := by
  split at hk
  · exact bootGetPte_mmioBase hk
  · rw [some.inj hk]

theorem bootMapPage_mmioBase (hk : k.bootMapPage e va pa perm = some k') : k'.mmioBase = k.mmioBase := by
  obtain ⟨⟨r, k₁⟩, hwalk, hk⟩ := bind_eq_some_iff.mp hk
  obtain ⟨x, -, hk⟩ := bind_eq_some_iff.mp hk
  obtain ⟨mem, -, rfl⟩ := map_eq_some_iff.mp hk
  unfold bootPageWalk at hwalk
  simp only [Bool.true_eq_false, and_false, if_false, bootGetPmd_eq] at hwalk
  obtain ⟨k₂, hk₂, hwalk⟩ := bind_eq_some_iff.mp hwalk
  obtain ⟨pmd, -, hwalk⟩ := bind_eq_some_iff.mp hwalk
  obtain ⟨k₃, hk₃, hwalk⟩ := bind_eq_some_iff.mp hwalk
  obtain ⟨y, -, hwalk⟩ := map_eq_some_iff.mp hwalk
  obtain ⟨-, rfl⟩ := Prod.mk.inj hwalk
  exact (step_mmioBase hk₃).trans (step_mmioBase hk₂)

theorem bootMapRegion_mmioBase {size : Nat} (hk : k.bootMapRegion e va size pa perm = some k') :
    k'.mmioBase = k.mmioBase := by
  unfold bootMapRegion at hk
  generalize size / pageSize = n at hk
  induction n generalizing k' with
  | zero => rw [some.inj hk]
  | succ n ih =>
    rw [List.range_succ] at hk
    obtain ⟨k₁, hk₁, hk⟩ := foldlM_snoc.mp hk
    exact (bootMapPage_mmioBase hk).trans (ih hk₁)

end KernelMap

end MiniOS
