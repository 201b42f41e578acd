import MiniOS.BootMapSound

/-!
# Windows for devices

`mmio_map_region` rounds the size up and the address down apart from each other, and compares with
the limit in 32 bits. The address goes through 32 bits, too.
-/

namespace MiniOS

open List Option

namespace KernelMap

variable (e : KernelEnv)

def phys (k : KernelMap) (va : Nat) : Option Nat :=
  if PageMem.ptePresent (k.mem.translate e.config e.kpgd va).2 then
    some ((k.mem.translate e.config e.kpgd va).1 * pageSize + va % pageSize)
  else none

/-- What a call that has returned `a` should have done, `ws` being the windows before it. -/
structure WindowRight (ws : List (Nat × Nat)) (k k' : KernelMap) (pa size a : Nat) : Prop where
  low : kernelMmio ≤ a
  high : a + size ≤ kernelMmioLimit
  maps : ∀ i < size, k'.phys e (a + i) = some (pa + i)
  disjoint : ∀ w ∈ ws, a + size ≤ w.1 ∨ w.1 + w.2 ≤ a
  kept : ∀ w ∈ ws, ∀ i < w.2, k'.phys e (w.1 + i) = k.phys e (w.1 + i)
  others : ∀ va ∈ kernelAddrs, va < kernelMmio ∨ kernelMmioLimit ≤ va →
    k'.mem.translate e.config e.kpgd va = k.mem.translate e.config e.kpgd va

def WindowsRight : (ws : List (Nat × Nat)) → KernelMap → List (Nat × Nat) → Prop
  | _, _, [] => True
  | ws, k, (pa, size) :: calls => ∀ a k', k.mmioMapRegion e pa size = some (a, k') →
    WindowRight e ws k k' pa size a ∧ WindowsRight ((a, size) :: ws) k' calls

end KernelMap

structure CallFits (c : PageConfig) (call : Nat × Nat) : Prop where
  size : call.2 ≤ 0xFFFFF000
  aligned : pageSize ∣ call.1
  word : call.1 < 2 ^ 32
  top : c = .level2 → call.1 + roundUp call.2 pageSize ≤ 2 ^ 32

/-- All windows together fit, and each call for itself. -/
structure WindowsFit (c : PageConfig) (base : Nat) (calls : List (Nat × Nat)) : Prop where
  room : base + (calls.map fun call => roundUp call.2 pageSize).sum < kernelMmioLimit
  call : ∀ call ∈ calls, CallFits c call

namespace KernelMap

variable {e : KernelEnv} {k k' : KernelMap} {ws : List (Nat × Nat)} {pa size a : Nat} {calls : List (Nat × Nat)}

structure Windows (e : KernelEnv) (ws : List (Nat × Nat)) (k : KernelMap) : Prop where
  right : k.Right e
  aligned : pageSize ∣ k.mmioBase
  low : kernelMmio ≤ k.mmioBase
  limit : k.mmioBase < kernelMmioLimit
  behind : ∀ w ∈ ws, kernelMmio ≤ w.1 ∧ w.1 + w.2 ≤ k.mmioBase

theorem Windows.word (h : Windows e ws k) : k.mmioBase < 2 ^ 32 := h.limit.trans (by decide)

theorem roundUp_spec (h : size ≤ 0xFFFFF000) :
    size ≤ roundUp size pageSize ∧ roundUp size pageSize < size + pageSize := by
  unfold roundUp roundDown wrap pageSize
  omega

theorem mmioMapRegion_inv (hb : k.mmioBase < 2 ^ 32) (hk : k.mmioMapRegion e pa size = some (a, k')) :
    a = k.mmioBase ∧ wrap (k.mmioBase + roundUp size pageSize) < kernelMmioLimit ∧
      ∃ k₁, k.bootMapRegion e k.mmioBase (roundUp size pageSize) (roundDown (wrap pa) pageSize)
          (pagePresent ||| pagePcd ||| pagePwt ||| pageRw) = some k₁ ∧
        k'.mem = k₁.mem ∧ k'.boot = k₁.boot ∧ k'.mmioBase = wrap (k.mmioBase + roundUp size pageSize) := by
  unfold mmioMapRegion at hk
  by_cases hpanic : kernelMmioLimit ≤ wrap (k.mmioBase + roundUp size pageSize)
  · rw [if_pos hpanic] at hk
    cases hk
  rw [if_neg hpanic] at hk
  obtain ⟨k₁, hk₁, hk⟩ := map_eq_some_iff.mp hk
  obtain ⟨rfl, rfl⟩ := Prod.mk.inj hk
  rw [bootMapRegion_mmioBase hk₁]
  exact ⟨wsub_wrap_add hb _, Nat.lt_of_not_le hpanic, k₁, hk₁, rfl, rfl, rfl⟩

theorem physaddr_of_lt (c : PageConfig) (h : pa < 2 ^ 32) : c.physaddr pa = pa := by
  cases c with
  | level2 => exact wrap_of_lt h
  | level3 => exact Nat.mod_eq_of_lt (h.trans (by decide))

theorem physaddr_dvd (c : PageConfig) (h : pageSize ∣ pa) : pageSize ∣ c.physaddr pa := by
  cases c with
  | level2 => exact (Nat.dvd_mod_iff (by decide)).mpr h
  | level3 => exact (Nat.dvd_mod_iff (by decide)).mpr h

theorem phys_of_pte {va x perm : Nat} (hpte : k.pte e va = x ||| perm) (hx : pageSize ∣ x)
    (hperm : perm &&& 0xFFF = perm)
    (hpresent : PageMem.ptePresent perm = true) : k.phys e va = some (x + va % pageSize) := by
  obtain ⟨m, rfl⟩ := hx
  have hm : pageSize * m = m <<< pageShift := by
    rw [Nat.shiftLeft_eq, Nat.mul_comm]
    rfl
  have htranslate : k.mem.translate e.config e.kpgd va = (m, perm) := by
    unfold PageMem.translate
    change (k.pte e va >>> pageShift, k.pte e va &&& 0xFFF) = _
    rw [hpte, hm, entry_shift hperm, entry_and hperm]
  rw [phys, htranslate, if_pos hpresent, Nat.mul_comm]

theorem phys_congr {va : Nat} (h : k'.pte e va = k.pte e va) : k'.phys e va = k.phys e va := by
  have htranslate := translate_congr h
  rw [phys, phys, htranslate]

structure Called (e : KernelEnv) (k k' : KernelMap) (pa size : Nat) : Prop where
  right : k'.Right e
  base : k'.mmioBase = k.mmioBase + roundUp size pageSize
  inside : ∀ i < roundUp size pageSize, k'.phys e (k.mmioBase + i) =
    some (e.config.physaddr (roundDown (wrap pa) pageSize + i / pageSize * pageSize) + i % pageSize)
  outside : ∀ va ∈ kernelAddrs, va < k.mmioBase ∨ k.mmioBase + roundUp size pageSize ≤ va → k'.pte e va = k.pte e va

theorem mmioMapRegion_called (hw : Windows e ws k) (hroom : k.mmioBase + roundUp size pageSize < kernelMmioLimit)
    (hk : k.mmioMapRegion e pa size = some (a, k')) : Called e k k' pa size := by
  obtain ⟨-, -, k₁, hk₁, hmem, hboot, hbase⟩ := mmioMapRegion_inv hw.word hk
  obtain ⟨n, hn⟩ : pageSize ∣ roundUp size pageSize := dvd_roundDown ..
  rw [Nat.mul_comm] at hn
  have hlimit : kernelMmioLimit < 2 ^ 32 := by decide
  have hlow : kernelBaseAddr ≤ k.mmioBase := Nat.le_trans (by decide) hw.low
  rw [hn] at hk₁ hroom
  have hmaps := bootMapRegion_spec hw.right hw.aligned hlow (by omega) hk₁
  refine ⟨hmaps.right.congr hmem hboot, ?_, fun i hi => ?_, fun va hva hout => ?_⟩
  · rw [hbase, hn]
    exact wrap_of_lt (by omega)
  · rw [hn] at hi
    have hmod : (k.mmioBase + i) % pageSize = i % pageSize := by
      rw [Nat.add_mod, Nat.mod_eq_zero_of_dvd hw.aligned, Nat.zero_add, Nat.mod_mod]
    rw [← hmod]
    refine phys_of_pte ((pte_of_mem hmem _).trans (hmaps.inside i hi)) (physaddr_dvd _ ?_) (by decide) (by decide)
    exact Nat.dvd_add (dvd_roundDown ..) (Nat.dvd_mul_left ..)
  · rw [hn] at hout
    exact (pte_of_mem hmem va).trans (hmaps.outside va hva hout)

/-- The room that a window in its bounds needs. -/
theorem WindowRight.room (hr : WindowRight e ws k k' pa size a) (hw : Windows e ws k)
    (hk : k.mmioMapRegion e pa size = some (a, k')) :
    size ≤ 0xFFFFF000 ∧ k.mmioBase + roundUp size pageSize < kernelMmioLimit := by
  obtain ⟨rfl, hlimit, -⟩ := mmioMapRegion_inv hw.word hk
  have hlow := hr.low
  have hhigh := hr.high
  have hsize : size ≤ 0xFFFFF000 := by
    unfold kernelMmioLimit at hhigh
    omega
  obtain ⟨-, hlt⟩ := roundUp_spec hsize
  -- both ends are multiples of the page size
  have hle : k.mmioBase + roundUp size pageSize ≤ kernelMmioLimit := by
    have hbase := hw.aligned
    have hup : pageSize ∣ roundUp size pageSize := dvd_roundDown ..
    unfold kernelMmioLimit pageSize at *
    omega
  refine ⟨hsize, ?_⟩
  rw [wrap_of_lt (hle.trans_lt (by decide))] at hlimit
  exact hlimit

theorem WindowRight.fits (hr : WindowRight e ws k k' pa size a) (hw : Windows e ws k) (hpos : 0 < size)
    (hk : k.mmioMapRegion e pa size = some (a, k')) : CallFits e.config (pa, size) := by
  obtain ⟨hsize, hroom⟩ := hr.room hw hk
  obtain ⟨hle, hlt⟩ := roundUp_spec hsize
  have hcalled := mmioMapRegion_called hw hroom hk
  obtain ⟨rfl, -⟩ := mmioMapRegion_inv hw.word hk
  have hmaps : ∀ i < size, e.config.physaddr (roundDown (wrap pa) pageSize + i / pageSize * pageSize) +
      i % pageSize = pa + i :=
    fun i hi => some.inj ((hcalled.inside i (by omega)).symm.trans (hr.maps i hi))
  have hdown : pageSize ∣ roundDown (wrap pa) pageSize := dvd_roundDown ..
  have hword : roundDown (wrap pa) pageSize < 2 ^ 32 := Nat.lt_of_le_of_lt (roundDown_le ..) (wrap_lt _)
  generalize roundDown (wrap pa) pageSize = r at hmaps hdown hword
  have hfirst := hmaps 0 hpos
  rw [Nat.zero_div, Nat.zero_mul, Nat.add_zero, Nat.zero_mod, Nat.add_zero, Nat.add_zero,
    physaddr_of_lt _ hword] at hfirst
  rw [← hfirst] at hmaps ⊢
  refine ⟨hsize, hdown, hword, fun hc => ?_⟩
  -- the last page of the window
  obtain ⟨n, hn⟩ : pageSize ∣ roundUp size pageSize := dvd_roundDown ..
  have hlast := hmaps (roundUp size pageSize - pageSize) (by omega)
  have hdiv : (roundUp size pageSize - pageSize) / pageSize * pageSize = roundUp size pageSize - pageSize :=
    Nat.div_mul_cancel (Nat.dvd_sub ⟨n, hn⟩ (Nat.dvd_refl _))
  rw [hc, hdiv] at hlast
  rw [Nat.mod_eq_zero_of_dvd (Nat.dvd_sub ⟨n, hn⟩ (Nat.dvd_refl _)), Nat.add_zero] at hlast
  have hlt' : r + (roundUp size pageSize - pageSize) < 2 ^ 32 := by
    rw [← hlast]
    exact wrap_lt _
  have hup : pageSize ∣ roundUp size pageSize := ⟨n, hn⟩
  change r + roundUp size pageSize ≤ 2 ^ 32
  unfold pageSize at *
  omega

theorem physaddr_window {c : PageConfig} {i : Nat} (hfits : CallFits c (pa, size))
    (hsize : roundUp size pageSize < 2 ^ 32)
    (hi : i < roundUp size pageSize) :
    c.physaddr (pa + i / pageSize * pageSize) = pa + i / pageSize * pageSize := by
  have hle : i / pageSize * pageSize ≤ i := Nat.div_mul_le_self ..
  have hword : pa < 2 ^ 32 := hfits.word
  cases c with
  | level2 =>
    have htop : pa + roundUp size pageSize ≤ 2 ^ 32 := hfits.top rfl
    exact wrap_of_lt (by omega)
  | level3 => exact Nat.mod_eq_of_lt (by omega)

theorem window_right (hw : Windows e ws k) (hfits : CallFits e.config (pa, size))
    (hroom : k.mmioBase + roundUp size pageSize < kernelMmioLimit) (hk : k.mmioMapRegion e pa size = some (a, k')) :
    WindowRight e ws k k' pa size a := by
  have hcalled := mmioMapRegion_called hw hroom hk
  obtain ⟨rfl, -⟩ := mmioMapRegion_inv hw.word hk
  obtain ⟨hle, -⟩ := roundUp_spec hfits.size
  have hle : size ≤ roundUp size pageSize := hle
  have hbase : kernelBaseAddr ≤ kernelMmio := by decide
  have hlimit : kernelMmioLimit < 2 ^ 32 := by decide
  have hlow := hw.low
  have hpa : roundDown (wrap pa) pageSize = pa := by
    rw [wrap_of_lt hfits.word]
    exact roundDown_of_dvd hfits.aligned
  refine ⟨hlow, by omega, fun i hi => ?_, fun w hws => .inr (hw.behind w hws).2, fun w hws i hi => ?_,
    fun va hva hout => ?_⟩
  · rw [hcalled.inside i (by omega), hpa, physaddr_window hfits (by omega) (by omega), Nat.add_assoc,
      Nat.div_add_mod']
  · obtain ⟨h₁, h₂⟩ := hw.behind w hws
    exact phys_congr (hcalled.outside _ ⟨by omega, by omega⟩ (.inl (by omega)))
  · exact translate_congr (hcalled.outside va hva (hout.imp (fun hlt => by omega) fun hle => by omega))

theorem Windows.next (hw : Windows e ws k) (hfits : CallFits e.config (pa, size))
    (hroom : k.mmioBase + roundUp size pageSize < kernelMmioLimit) (hk : k.mmioMapRegion e pa size = some (a, k')) :
    Windows e ((a, size) :: ws) k' := by
  have hcalled := mmioMapRegion_called hw hroom hk
  obtain ⟨rfl, -⟩ := mmioMapRegion_inv hw.word hk
  have hle : size ≤ roundUp size pageSize := (roundUp_spec hfits.size).1
  have hlow := hw.low
  refine ⟨hcalled.right, ?_, ?_, ?_, forall_mem_cons.mpr ⟨⟨hlow, ?_⟩, fun w hws => ?_⟩⟩
  · rw [hcalled.base]
    exact Nat.dvd_add hw.aligned (dvd_roundDown ..)
  · rw [hcalled.base]
    omega
  · rw [hcalled.base]
    exact hroom
  · rw [hcalled.base]
    exact Nat.add_le_add_left hle _
  · obtain ⟨h₁, h₂⟩ := hw.behind w hws
    rw [hcalled.base]
    exact ⟨h₁, by omega⟩

theorem windowsRight_cons (hk : k.mmioMapRegion e pa size = some (a, k')) :
    WindowsRight e ws k ((pa, size) :: calls) ↔
      WindowRight e ws k k' pa size a ∧ WindowsRight e ((a, size) :: ws) k' calls := by
  constructor
  · exact fun h => h a k' hk
  · intro h a₁ k₁ hk₁
    obtain ⟨rfl, rfl⟩ := Prod.mk.inj (some.inj (hk.symm.trans hk₁))
    exact h

theorem windowsFit_cons {c : PageConfig} {base : Nat} {call : Nat × Nat} :
    WindowsFit c base (call :: calls) ↔
      CallFits c call ∧ WindowsFit c (base + roundUp call.2 pageSize) calls := by
  have hsum : base + ((call :: calls).map fun call => roundUp call.2 pageSize).sum =
      base + roundUp call.2 pageSize + (calls.map fun call => roundUp call.2 pageSize).sum := by
    rw [map_cons, sum_cons, Nat.add_assoc]
  constructor
  · rintro ⟨hroom, hcalls⟩
    obtain ⟨hcall, hcalls⟩ := forall_mem_cons.mp hcalls
    exact ⟨hcall, hsum.symm.trans_lt hroom, hcalls⟩
  · rintro ⟨hcall, hroom, hcalls⟩
    exact ⟨hsum.trans_lt hroom, forall_mem_cons.mpr ⟨hcall, hcalls⟩⟩

theorem windows_iff (hw : Windows e ws k) (hpos : ∀ call ∈ calls, 0 < call.2)
    (hrun : k.mmioCalls e calls = some k') : WindowsRight e ws k calls ↔ WindowsFit e.config k.mmioBase calls := by
  induction calls generalizing ws k with
  | nil => exact iff_of_true trivial ⟨hw.limit, nofun⟩
  | cons call calls ih =>
    obtain ⟨pa, size⟩ := call
    obtain ⟨hsize, hpos⟩ := forall_mem_cons.mp hpos
    rw [mmioCalls, foldlM_cons, bind_eq_bind] at hrun
    obtain ⟨k₁, hk₁, hrun⟩ := bind_eq_some_iff.mp hrun
    obtain ⟨⟨a, k₂⟩, hk, rfl⟩ := map_eq_some_iff.mp hk₁
    rw [windowsRight_cons hk, windowsFit_cons]
    by_cases hcall : CallFits e.config (pa, size) ∧ k.mmioBase + roundUp size pageSize < kernelMmioLimit
    · obtain ⟨hfits, hroom⟩ := hcall
      rw [and_iff_right (window_right hw hfits hroom hk), and_iff_right hfits,
        ih (hw.next hfits hroom hk) hpos hrun, (mmioMapRegion_called hw hroom hk).base]
    · refine iff_of_false (fun hn => hcall ⟨hn.1.fits hw hsize hk, (hn.1.room hw hk).2⟩) fun hn => hcall ⟨hn.1, ?_⟩
      exact Nat.lt_of_le_of_lt (Nat.le_add_right ..) hn.2.room

end KernelMap

/-- Calls that all return are right exactly if the windows fit one behind the other, and each
address is that of a page and below four gigabytes. -/
theorem mmio_windows_iff {e : KernelEnv} {k k' : KernelMap} {calls : List (Nat × Nat)} (h : k.Right e)
    (hbase : k.mmioBase = kernelMmio) (hpos : ∀ call ∈ calls, 0 < call.2) (hrun : k.mmioCalls e calls = some k') :
    KernelMap.WindowsRight e [] k calls ↔ WindowsFit e.config kernelMmio calls := by
  have hw : KernelMap.Windows e [] k := by
    refine ⟨h, ?_, ?_, ?_, nofun⟩
    · rw [hbase]
      decide
    · exact Nat.le_of_eq hbase.symm
    · rw [hbase]
      decide
  rw [KernelMap.windows_iff hw hpos hrun, hbase]

def pcEnv : KernelEnv := ⟨.level3, pcMap, 0xC0200000, 0x200⟩

def pcKernel : KernelMap :=
  ⟨⟨fun _ _ => 0, fun _ => 0, [], 0x10000, []⟩, ⟨0xC0201000, [(0xC0200000, 0x1000)]⟩, kernelMmio⟩

theorem pcKernel_right : pcKernel.Right pcEnv := KernelMap.right_of_empty (fun _ => rfl) (by decide) (by decide)

/-- The local APIC, and two pages of a device. -/
theorem mmio_windows_iff_pc :
    ∃ k', pcKernel.mmioCalls pcEnv [(0xFEE00000, 0x1000), (0xFEB00000, 0x1800)] = some k' ∧
    KernelMap.WindowsRight pcEnv [] pcKernel [(0xFEE00000, 0x1000), (0xFEB00000, 0x1800)] := by
  have hsome : (pcKernel.mmioCalls pcEnv [(0xFEE00000, 0x1000), (0xFEB00000, 0x1800)]).isSome = true := by
    decide +kernel
  obtain ⟨k', hk'⟩ := isSome_iff_exists.mp hsome
  refine ⟨k', hk', (mmio_windows_iff pcKernel_right rfl (by decide) hk').mpr ⟨by decide, ?_⟩⟩
  refine forall_mem_cons.mpr ⟨⟨by decide, by decide, by decide, nofun⟩, forall_mem_singleton.mpr ?_⟩
  exact ⟨by decide, by decide, by decide, nofun⟩

/-- The window of registers at `0xFEB00010` is that of the start of their page. A size that is
rounded up to 0 is accepted, and nothing is mapped. -/
theorem mmio_windows_lose :
    (∃ k', pcKernel.mmioMapRegion pcEnv 0xFEB00010 0x10 = some (kernelMmio, k') ∧
      k'.phys pcEnv kernelMmio = some 0xFEB00000 ∧
      ¬ KernelMap.WindowsRight pcEnv [] pcKernel [(0xFEB00010, 0x10)]) ∧
    ∃ k', pcKernel.mmioMapRegion pcEnv 0xFEB00000 0xFFFFFFFF = some (kernelMmio, k') ∧
      k'.phys pcEnv kernelMmio = none ∧ ¬ KernelMap.WindowsRight pcEnv [] pcKernel [(0xFEB00000, 0xFFFFFFFF)] := by
  constructor
  · have hcall : (pcKernel.mmioMapRegion pcEnv 0xFEB00010 0x10).map (fun r => (r.1, r.2.phys pcEnv kernelMmio)) =
        some (kernelMmio, some 0xFEB00000) := by decide +kernel
    obtain ⟨⟨a, k'⟩, hk', hr⟩ := map_eq_some_iff.mp hcall
    obtain ⟨rfl, hphys⟩ := Prod.mk.inj hr
    refine ⟨k', hk', hphys, fun hright => ?_⟩
    have hfirst : k'.phys pcEnv kernelMmio = some 0xFEB00010 := (hright _ k' hk').1.maps 0 (by decide)
    exact absurd (hphys.symm.trans hfirst) (by decide)
  · have hcall : (pcKernel.mmioMapRegion pcEnv 0xFEB00000 0xFFFFFFFF).map
        (fun r => (r.1, r.2.phys pcEnv kernelMmio)) = some (kernelMmio, none) := by decide +kernel
    obtain ⟨⟨a, k'⟩, hk', hr⟩ := map_eq_some_iff.mp hcall
    obtain ⟨rfl, hphys⟩ := Prod.mk.inj hr
    exact ⟨k', hk', hphys, fun hright => absurd (hright _ k' hk').1.high (by decide)⟩

end MiniOS
