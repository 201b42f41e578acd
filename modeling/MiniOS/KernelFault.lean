import MiniOS.PagingSound
import MiniOS.UserIoSound

/-!
# Faults of the kernel

`read` stores into the caller's buffer from kernel mode, with `CR0.WP` set. A store to a page that
is absent or read-only traps, and `trap` sends only the traps of user mode on to their handlers.
-/

namespace MiniOS

open List Option

namespace Paging

/-- `trap` for a page fault; `none` is a panic. -/
def trap (s : Paging) (user : Bool) (t va : Nat) (write : Bool) : Option Paging :=
  if user then s.pageFaultHandler t va write else none

/-- A store of the kernel; `mapped` tells which addresses of its own half are. -/
def kernelStore (mapped : Nat → Bool) (t : Nat) (s : Paging) (x : Nat × UInt8) : Option Paging :=
  if x.1 < kernelBaseAddr then
    match s.store t x.1 x.2.toNat with
    | some s => some s
    | none => s.trap false t x.1 true
  else if mapped x.1 then some s
  else s.trap false t x.1 true

def kernelStores (mapped : Nat → Bool) (t : Nat) (s : Paging) (l : List (Nat × UInt8)) : Option Paging :=
  l.foldlM (kernelStore mapped t) s

def KernelWritable (mapped : Nat → Bool) (t : Nat) (s : Paging) (va : Nat) : Prop :=
  if va < kernelBaseAddr then ∃ p, (s.mm t).pte (va / pageSize) = some ⟨p, true⟩ else mapped va = true

def InAreas (s : Paging) (t buf n : Nat) : Prop :=
  ∀ j < n, ∃ a ∈ (s.mm t).mmap, a.vmStart ≤ buf + j ∧ buf + j < a.vmEnd

end Paging

/-- How many bytes a read of a pipe stores. Without a byte to read and with a writer, it goes on
with what the page holds. -/
def PipeInodeInfo.readable (info : PipeInodeInfo) (count : Int) : Nat :=
  min count.toNat
    (if info.pRpos = info.pWpos then if info.pWriter = 0 then 0 else 2 ^ 32
     else (info.pWpos + 2 ^ 32 - info.pRpos) % 2 ^ 32)

def IoState.storeCount (s : IoState) (i : Fin maxFile) (count : Int) : Nat :=
  match s.fd i with
  | none => 0
  | some p =>
    if canRead (s.file p) then
      match (s.file p).fOp with
      | .none => 0
      | .ramfs size _ => if size.toNat ≤ (s.file p).fPos then 0 else ramfsCount size (s.file p).fPos count
      | .pipe x => (s.pipes x).readable count
      | .tty => 4 * s.tty.waiting count
    else 0

structure IoState.Wf (s : IoState) : Prop where
  head : s.tty.head < ttyBufSize
  tail : s.tty.tail < ttyBufSize
  rpos : ∀ x, (s.pipes x).pRpos < 2 ^ 32
  wpos : ∀ x, (s.pipes x).pWpos < 2 ^ 32

/-! ## What is stored -/

theorem readLoop_length : ∀ (left i : Nat) (info : PipeInodeInfo), info.pRpos < 2 ^ 32 → info.pWpos < 2 ^ 32 →
    (readLoop left i info).1.length = min left
      (if info.pRpos = info.pWpos then if 0 < i ∨ info.pWriter = 0 then 0 else 2 ^ 32
       else (info.pWpos + 2 ^ 32 - info.pRpos) % 2 ^ 32) := by
  intro left
  induction left with
  | zero => intro i info _ _; simp [readLoop]
  | succ left ih =>
    intro i info hr hw
    rw [readLoop]
    by_cases hstop : info.pRpos = info.pWpos ∧ (0 < i ∨ info.pWriter = 0)
    · rw [if_pos hstop, if_pos hstop.1, if_pos hstop.2]
      rfl
    · have hnext := ih (i + 1) info.advance (wrap_lt _) hw
      have hlater : 0 < i + 1 ∨ info.advance.pWriter = 0 := .inl (Nat.succ_pos i)
      rw [if_neg hstop, length_cons, hnext, if_pos hlater]
      change min left (if wrap (info.pRpos + 1) = info.pWpos then 0
        else (info.pWpos + 2 ^ 32 - wrap (info.pRpos + 1)) % 2 ^ 32) + 1 = _
      unfold wrap
      by_cases he : info.pRpos = info.pWpos
      · rw [if_pos he, if_neg fun h => hstop ⟨he, h⟩]
        split
        · omega
        · omega
      · rw [if_neg he]
        split
        · omega
        · omega

namespace IoState

variable {s : IoState} {i : Fin maxFile}

theorem read_addrs (h : s.Wf) (buf : Nat) (count : Int) :
    (s.read i buf count).stores.map Prod.fst = addrsAt buf (s.storeCount i count) := by
  unfold read storeCount
  cases hfd : s.fd i with
  | none => rfl
  | some p =>
    dsimp only
    split
    · unfold fOpRead
      cases hkind : (s.file p).fOp with
      | none => rfl
      | ramfs size start =>
        unfold ramfsFileRead
        dsimp only
        split
        · rfl
        · refine (addrs_bytesAt ..).trans ?_
          rw [length_map, length_range]
      | pipe x =>
        refine (addrs_bytesAt ..).trans ?_
        rw [pipefsFileRead, readLoop_length _ _ _ (h.rpos x) (h.wpos x)]
        simp only [Nat.lt_irrefl, false_or]
        rfl
      | tty =>
        refine (addrs_bytesAt ..).trans ?_
        rw [length_intBytes, length_map, TtyQueue.ttyRead_length h.head h.tail]
    · rfl

end IoState

/-! ## Where it is stored -/

namespace Paging

variable {s s' : Paging} {mapped : Nat → Bool} {t : Nat}

theorem store_some {va b : Nat} (hva : va < kernelBaseAddr) :
    s.store t va b ≠ none ↔ ∃ p, (s.mm t).pte (va / pageSize) = some ⟨p, true⟩ := by
  unfold store
  cases hpte : (s.mm t).pte (va / pageSize) with
  | none => simp
  | some e =>
    obtain ⟨p, w⟩ := e
    cases w with
    | false => simp
    | true => simp [hva]

theorem store_mm {va b : Nat} (h : s.store t va b = some s') : s'.mm = s.mm := by
  unfold store at h
  split at h
  · split at h
    · obtain rfl := some.inj h
      rfl
    · cases h
  · cases h

theorem kernelStore_some (x : Nat × UInt8) : s.kernelStore mapped t x ≠ none ↔ s.KernelWritable mapped t x.1 := by
  unfold kernelStore KernelWritable
  by_cases hx : x.1 < kernelBaseAddr
  · rw [if_pos hx, if_pos hx, ← store_some hx]
    cases hstore : s.store t x.1 x.2.toNat with
    | none => exact iff_of_false (fun h => h rfl) fun h => h rfl
    | some s' => exact iff_of_true (some_ne_none _) (some_ne_none _)
  · rw [if_neg hx, if_neg hx]
    cases mapped x.1 with
    | false => exact iff_of_false (fun h => h rfl) (by decide)
    | true => exact iff_of_true (some_ne_none _) rfl

theorem kernelStore_mm {x : Nat × UInt8} (h : s.kernelStore mapped t x = some s') : s'.mm = s.mm := by
  unfold kernelStore at h
  split at h
  · split at h
    · obtain rfl := some.inj h
      exact store_mm ‹_›
    · cases h
  · split at h
    · obtain rfl := some.inj h
      rfl
    · cases h

theorem kernelStores_some : ∀ (l : List (Nat × UInt8)) (s : Paging), s.kernelStores mapped t l ≠ none ↔
    ∀ a ∈ l.map Prod.fst, s.KernelWritable mapped t a := by
  intro l
  induction l with
  | nil => intro s; exact iff_of_true (some_ne_none _) (fun a ha => absurd ha not_mem_nil)
  | cons x l ih =>
    intro s
    rw [kernelStores, foldlM_cons, map_cons, forall_mem_cons, ← kernelStore_some]
    cases hx : s.kernelStore mapped t x with
    | none => exact iff_of_false (fun h => h rfl) fun h => h.1 rfl
    | some s' =>
      -- the tables are as before
      have hsame : ∀ a, s'.KernelWritable mapped t a ↔ s.KernelWritable mapped t a := by
        intro a
        rw [KernelWritable, KernelWritable, kernelStore_mm hx]
      have hrest := ih s'
      simp only [hsame] at hrest
      exact hrest.trans (and_iff_right (some_ne_none s')).symm

end Paging

/-- **A read panics the kernel** unless every page it stores into is present and writable. -/
theorem read_stores_writable (s : Paging) (mapped : Nat → Bool) (t : Nat) {io : IoState} (h : io.Wf)
    (i : Fin maxFile) (buf : Nat) (count : Int) : s.kernelStores mapped t (io.read i buf count).stores ≠ none ↔
      ∀ j < io.storeCount i count, s.KernelWritable mapped t (wrap (buf + j)) := by
  rw [Paging.kernelStores_some, IoState.read_addrs h]
  simp [addrsAt]

theorem oneOpen_wf (f : FileOps) : (oneOpen f noKeys).Wf where
  head := show 0 < ttyBufSize by decide
  tail := show 0 < ttyBufSize by decide
  rpos _ := show 0 < 2 ^ 32 by decide
  wpos _ := show 0 < 2 ^ 32 by decide

open Paging in
theorem read_stores_writable_loaded : ∃ s, (bare freeFrames).loadSegment 1 0x800000 0x1000 = some (true, s) ∧
    s.kernelStores (fun _ => true) 1 ((oneOpen fourBytes noKeys).read firstFd 0x800000 2).stores ≠ none := by
  have h : ((bare freeFrames).loadSegment 1 0x800000 0x1000).map
      (fun r => (r.1, ((r.2.mm 1).pte 0x800).map Pte.write)) = some (true, some true) := by decide +kernel
  obtain ⟨⟨ok, s⟩, hl, hr⟩ := map_eq_some_iff.mp h
  obtain ⟨rfl, hw⟩ := Prod.mk.inj hr
  refine ⟨s, hl, (read_stores_writable s _ 1 (oneOpen_wf fourBytes) firstFd 0x800000 2).mpr ?_⟩
  obtain ⟨⟨p, w⟩, hpte, rfl⟩ := map_eq_some_iff.mp hw
  have hpage : ∀ j < (oneOpen fourBytes noKeys).storeCount firstFd 2,
      wrap (0x800000 + j) < kernelBaseAddr ∧ wrap (0x800000 + j) / pageSize = 0x800 := by decide
  intro j hj
  rw [KernelWritable, if_pos (hpage j hj).1, (hpage j hj).2]
  exact ⟨p, hpte⟩

open Paging in
/-- After a fork the page is read-only, and a read into it is the end. -/
theorem read_panics_after_fork : ∃ s₀ s, (bare freeFrames).loadSegment 1 0x800000 0x1000 = some (true, s₀) ∧
    CowStart s₀ ∧ PagingStep s₀ s ∧ s.InAreas 1 0x800000 4 ∧
    s.kernelStores (fun _ => true) 1 ((oneOpen fourBytes noKeys).read firstFd 0x800000 4).stores = none := by
  have h : (((bare freeFrames).loadSegment 1 0x800000 0x1000).bind fun r => (r.2.doFork 1 2).map fun s =>
      (r.1, (s.mm 1).mmap, ((s.mm 1).pte 0x800).map Pte.write)) =
      some (true, [⟨0x800000, 0x801000⟩], some false) := by decide +kernel
  simp only [bind_eq_some_iff, map_eq_some_iff, Prod.mk.injEq] at h
  obtain ⟨⟨_, s₀⟩, hl, s, hf, rfl, hm, ⟨e, hpte, hw⟩⟩ := h
  obtain ⟨hi, ht, hrw, -⟩ := loadSegment_spec (l := [0x800000]) (by decide) (by decide) (bare_inv _).1 (by decide)
    (bare_inv _).2 hl
  refine ⟨s₀, s, hl, PagingInv.start hi hrw, .fork (by rw [ht]; decide) (by rw [ht]; decide) hf, fun j hj => ?_, ?_⟩
  · rw [hm]
    exact ⟨_, mem_singleton_self _, by dsimp only; omega, by dsimp only; omega⟩
  · by_contra hne
    have hfirst := (kernelStores_some _ s).mp hne 0x800000 (by decide)
    rw [KernelWritable, if_pos (by decide)] at hfirst
    obtain ⟨p, hp⟩ := hfirst
    obtain rfl := some.inj (hpte.symm.trans hp)
    cases hw

end MiniOS
