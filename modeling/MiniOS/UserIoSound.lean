import MiniOS.UserIo
import MiniOS.PipeSound
import Mathlib.Data.Fintype.Basic
import Mathlib.Data.Fintype.Card

/-!
# What the file operations reach

Each operation takes the bytes from the pointer on, so many in a row. Whether they stay below the
kernel's half, and inside the bytes the caller is told of, is a matter of that number alone.
-/

namespace MiniOS

open List

/-! ## Bytes in a row -/

theorem addrs_bytesAt (buf : Nat) (l : List UInt8) : (bytesAt buf l).map Prod.fst = addrsAt buf l.length := by
  rw [bytesAt, addrsAt, range_eq_range', ← zipIdx_map_snd, List.map_map, List.map_map]
  rfl

theorem mem_addrsAt {buf n a : Nat} : a ∈ addrsAt buf n ↔ ∃ j < n, a = wrap (buf + j) := by
  simp [addrsAt, eq_comm]

theorem below_iff {buf n : Nat} : Below buf n ↔ ∀ a ∈ addrsAt buf n, a < kernelBaseAddr := by
  simp [Below, addrsAt]

theorem Below.mono {buf n m : Nat} (h : Below buf m) (hle : n ≤ m) : Below buf n :=
  fun j hj => h j (hj.trans_le hle)

theorem UserCall.read_buf (i : Fin maxFile) (buf : Nat) (count : Int) : (UserCall.read i buf count).buf = buf := rfl

theorem UserCall.pipe_buf (fd : Nat) (mem₁ mem₂ info : Option Nat) (dentry : Bool) :
    (UserCall.pipe fd mem₁ mem₂ info dentry).buf = fd := rfl

section
variable {r : IoResult} {c : UserCall} {n : Nat}

theorem guarded_iff (hacc : r.loads ++ r.stores.map Prod.fst = addrsAt c.buf n) (hret : 0 ≤ r.ret ∨ c.len = 0) :
    r.Guarded c ↔ Below c.buf c.len ∧ Below c.buf n := by
  rw [IoResult.Guarded, hacc, ← below_iff, and_comm]
  refine and_congr_left fun _ => ?_
  constructor
  · intro h j hj
    rcases hret with hret | hlen
    · by_contra hk
      exact absurd (h ⟨j, hj, Nat.not_lt.mp hk⟩) (Int.not_lt.mpr hret)
    · rw [hlen] at hj
      exact absurd hj (Nat.not_lt_zero _)
  · rintro h ⟨j, hj, hk⟩
    exact absurd (h j hj) hk.not_gt

theorem guarded_iff_of_le (hacc : r.loads ++ r.stores.map Prod.fst = addrsAt c.buf n) (hret : 0 ≤ r.ret)
    (hle : n ≤ c.len) : r.Guarded c ↔ Below c.buf c.len := by
  rw [guarded_iff hacc (.inl hret), and_iff_left_of_imp fun h => h.mono hle]

theorem guarded_error (s : IoState) {e : Int} (he : 0 < e) (c : UserCall) : (s.error e).Guarded c :=
  ⟨fun _ ha => absurd ha not_mem_nil, fun _ => Int.neg_neg_of_pos he⟩

end

/-! ## How many bytes -/

theorem ramfsCount_le {size : BitVec 32} {pos : Nat} {count : Int} (hc : 0 ≤ count) (hlt : count < 2 ^ 31)
    (hp : pos < size.toNat) : ramfsCount size pos count ≤ count.toNat := by
  rw [ramfsCount, toUnsigned_of_nonneg hc hlt]
  split
  · rename_i hle
    rw [wsub_of_le hp.le size.isLt]
    unfold wrap at hle
    omega
  · exact Nat.le_refl _

theorem readLoop_length_le : ∀ (left i : Nat) (info : PipeInodeInfo), (readLoop left i info).1.length ≤ left := by
  intro left
  induction left with
  | zero => intro i info; exact Nat.le_refl _
  | succ left ih =>
    intro i info
    rw [readLoop]
    split
    · exact Nat.zero_le _
    · exact Nat.succ_le_succ (ih ..)

theorem writeLoop_le (buf : Nat → UInt8) : ∀ (left i : Nat) (info : PipeInodeInfo),
    (writeLoop buf left i info).1 ≤ i + left := by
  intro left
  induction left with
  | zero => intro i info; exact Nat.le_refl _
  | succ left ih =>
    intro i info
    rw [writeLoop]
    split
    · exact Nat.le_add_right i _
    · have := ih (i + 1) (info.put (buf i))
      omega

theorem TtyQueue.readLoop_length : ∀ (left start : Nat) (q : TtyQueue), start < 2 ^ 30 → q.tail < 2 ^ 30 →
    (readLoop left start q).1.length = min left ((q.tail + 2 ^ 30 - start) % 2 ^ 30) := by
  intro left
  induction left with
  | zero => intro start q _ _; simp [readLoop]
  | succ left ih =>
    intro start q hs ht
    rw [readLoop]
    by_cases he : start = q.tail
    · rw [if_pos he, he]
      simp
    · rw [if_neg he]
      have hnext := ih ((start + 1) % 2 ^ 30) { q with head := next q.head } (Nat.mod_lt _ (by decide)) ht
      change (readLoop left _ _).1.length + 1 = _
      rw [hnext]
      dsimp only
      omega

theorem TtyQueue.readLoop_length_le :
    ∀ (left start : Nat) (q : TtyQueue), (readLoop left start q).1.length ≤ left := by
  intro left
  induction left with
  | zero => intro start q; exact Nat.le_refl _
  | succ left ih =>
    intro start q
    rw [readLoop]
    split
    · exact Nat.zero_le _
    · exact Nat.succ_le_succ (ih ..)

theorem TtyQueue.ttyRead_eq_nil {q : TtyQueue} {nr : Int} (hnr : 0 ≤ nr) :
    (q.ttyRead nr).1 = [] ↔ nr = 0 ∨ q.head = q.tail := by
  unfold ttyRead
  cases hn : nr.toNat with
  | zero => exact iff_of_true rfl (.inl (by omega))
  | succ n =>
    rw [readLoop]
    by_cases he : q.head = q.tail
    · simp [he]
    · rw [if_neg he, or_iff_left he]
      exact iff_of_false (cons_ne_nil _ _) (by omega)

theorem TtyQueue.ttyRead_length {q : TtyQueue} (hh : q.head < ttyBufSize) (ht : q.tail < ttyBufSize) (nr : Int) :
    (q.ttyRead nr).1.length = q.waiting nr :=
  readLoop_length _ _ _ (hh.trans (by decide)) (ht.trans (by decide))

theorem length_intBytes (l : List (BitVec 32)) : (l.flatMap intBytes).length = 4 * l.length := by
  induction l with
  | nil => rfl
  | cons v l ih =>
    rw [flatMap_cons, length_append, ih, length_cons]
    change 4 + _ = _
    omega

theorem mem_strLoads {mem : Nat → UInt8} : ∀ {left p a : Nat}, p < 2 ^ 32 →
    (a ∈ strLoads mem left p ↔ ∃ j < left, (∀ k < j, mem (wrap (p + k)) ≠ 0) ∧ a = wrap (p + j)) := by
  intro left
  induction left with
  | zero => intro p a _; simp [strLoads]
  | succ left ih =>
    intro p a hp
    have hself : wrap (p + 0) = p := wrap_of_lt hp
    have hshift : ∀ k, wrap (wrap (p + 1) + k) = wrap (p + (k + 1)) := by
      intro k
      unfold wrap
      omega
    rw [strLoads, mem_cons]
    constructor
    · rintro (rfl | ha)
      · exact ⟨0, Nat.succ_pos _, fun k hk => absurd hk (Nat.not_lt_zero k), hself.symm⟩
      · split at ha
        · exact absurd ha not_mem_nil
        · rename_i hne
          obtain ⟨j, hj, hnz, rfl⟩ := (ih (wrap_lt _)).mp ha
          refine ⟨j + 1, Nat.succ_lt_succ hj, fun k hk => ?_, hshift j⟩
          cases k with
          | zero => rwa [hself]
          | succ k =>
            rw [← hshift]
            exact hnz k (Nat.lt_of_succ_lt_succ hk)
    · rintro ⟨j, hj, hnz, rfl⟩
      cases j with
      | zero => exact .inl hself
      | succ j =>
        have hne : mem p ≠ 0 := by
          have := hnz 0 (Nat.succ_pos j)
          rwa [hself] at this
        rw [if_neg hne]
        refine .inr ((ih (wrap_lt _)).mpr ⟨j, Nat.lt_of_succ_lt_succ hj, fun k hk => ?_, (hshift j).symm⟩)
        rw [hshift]
        exact hnz (k + 1) (Nat.succ_lt_succ hk)

namespace IoState

variable {s : IoState} {i : Fin maxFile} {buf p : Nat} {count : Int}

theorem storing_guarded {ret : Int} {l : List UInt8} {c : UserCall} (hbuf : c.buf = buf)
    (hret : 0 ≤ ret ∨ c.len = 0) : (s.storing ret buf l).Guarded c ↔ Below buf c.len ∧ Below buf l.length := by
  subst hbuf
  exact guarded_iff (addrs_bytesAt c.buf l) hret

/-! ## Reading -/

theorem read_refused (h : s.Refused (.read i buf count)) : ∃ e > 0, s.read i buf count = s.error e := by
  unfold read
  cases hfd : s.fd i with
  | none => exact ⟨ebadf, by decide, rfl⟩
  | some p =>
    dsimp only
    split
    · rename_i hcan
      rcases h p hfd with hno | hop
      · rw [hno] at hcan
        cases hcan
      · rw [fOpRead, hop]
        exact ⟨enothing, by decide, rfl⟩
    · exact ⟨eacces, by decide, rfl⟩

theorem read_accepted (h : ¬ s.Refused (.read i buf count)) : ∃ p, s.fd i = some p ∧ canRead (s.file p) = true ∧
    (s.file p).fOp ≠ .none ∧ s.read i buf count = s.fOpRead p buf count := by
  simp only [Refused, not_forall, not_or, Bool.not_eq_false] at h
  obtain ⟨p, hfd, hcan, hop⟩ := h
  refine ⟨p, hfd, hcan, hop, ?_⟩
  simp only [read, hfd, hcan, if_true]

theorem ramfs_guarded (size : BitVec 32) (start : Nat → UInt8) (hhi : count < 2 ^ 31) :
    (s.ramfsFileRead p size start buf count).Guarded (.read i buf count) ↔ Below buf count.toNat ∧
      (count < 0 → (s.file p).fPos < size.toNat → Below buf (ramfsCount size (s.file p).fPos count)) := by
  unfold ramfsFileRead
  by_cases hend : size.toNat ≤ (s.file p).fPos
  · rw [if_pos hend, guarded_iff_of_le (n := 0) rfl (Int.le_refl 0) (Nat.zero_le _)]
    exact (and_iff_left fun _ hlt => absurd hlt hend.not_gt).symm
  · have hlt := Nat.not_le.mp hend
    rw [if_neg hend]
    by_cases hneg : count < 0
    · have hempty : (UserCall.read i buf count).len = 0 := Int.toNat_of_nonpos (Int.le_of_lt hneg)
      rw [storing_guarded (UserCall.read_buf i buf count) (.inr hempty), length_map, length_range]
      simp only [hneg, hlt, true_imp_iff]
      rfl
    · have hpos := Int.not_lt.mp hneg
      have hle := ramfsCount_le hpos hhi hlt
      have hret : 0 ≤ toSigned (ramfsCount size (s.file p).fPos count) := by
        rw [toSigned_of_lt (by omega)]
        exact Int.natCast_nonneg _
      rw [storing_guarded (UserCall.read_buf i buf count) (.inl hret), length_map, length_range]
      refine and_congr_right fun hall => iff_of_true (hall.mono hle) fun h => absurd h hneg

theorem read_guarded (hhi : count < 2 ^ 31) (hh : s.tty.head < ttyBufSize) (ht : s.tty.tail < ttyBufSize)
    (h : ¬ s.Refused (.read i buf count)) :
    (s.read i buf count).Guarded (.read i buf count) ↔ s.Confined (.read i buf count) := by
  obtain ⟨p, hfd, -, hop, hread⟩ := read_accepted h
  rw [hread, fOpRead]
  cases hkind : (s.file p).fOp with
  | none => exact absurd hkind hop
  | ramfs size start =>
    refine (ramfs_guarded size start hhi).trans ?_
    simp [Confined, hfd, hkind]
  | pipe x =>
    have hconf : s.Confined (.read i buf count) ↔ Below buf count.toNat := by
      simp [Confined, hfd, hkind]
    rw [hconf]
    refine (storing_guarded (UserCall.read_buf i buf count) (.inl (Int.natCast_nonneg _))).trans ?_
    exact and_iff_left_of_imp fun h => h.mono (readLoop_length_le ..)
  | tty =>
    have hconf : s.Confined (.read i buf count) ↔ Below buf count.toNat ∧ Below buf (4 * s.tty.waiting count) := by
      simp [Confined, hfd, hkind]
    rw [hconf, ← TtyQueue.ttyRead_length hh ht, ← length_map s.tty.buf, ← length_intBytes]
    exact storing_guarded (UserCall.read_buf i buf count) (.inl (Int.natCast_nonneg _))

/-! ## Writing -/

theorem write_refused (h : s.Refused (.write i buf count)) : ∃ e > 0, s.write i buf count = s.error e := by
  unfold write
  cases hfd : s.fd i with
  | none => exact ⟨ebadf, by decide, rfl⟩
  | some p =>
    dsimp only
    split
    · rename_i hcan
      rcases h p hfd with hno | hop
      · rw [hno] at hcan
        cases hcan
      · rw [fOpWrite, hop]
        exact ⟨1, by decide, rfl⟩
    · exact ⟨eacces, by decide, rfl⟩

theorem write_accepted (h : ¬ s.Refused (.write i buf count)) : ∃ p, s.fd i = some p ∧
    (s.file p).fOp ≠ .none ∧ s.write i buf count = s.fOpWrite p buf count := by
  simp only [Refused, not_forall, not_or, Bool.not_eq_false] at h
  obtain ⟨p, hfd, hcan, hop⟩ := h
  refine ⟨p, hfd, hop, ?_⟩
  simp only [write, hfd, hcan, if_true]

/-- The terminal takes the bytes up to the end of the string or one more than it was told. -/
theorem ttyWrite_guarded (hbuf : buf < 2 ^ 32) :
    (s.ttyfsFileWrite buf count).Guarded (.write i buf count) ↔ Below buf count.toNat ∧
      (buf ≠ 0 → ∀ j < strLeft count, (∀ k < j, s.mem (wrap (buf + k)) ≠ 0) → wrap (buf + j) < kernelBaseAddr) := by
  rw [IoResult.Guarded, and_comm]
  refine and_congr ?_ ?_
  · change ((∃ j < count.toNat, kernelBaseAddr ≤ wrap (buf + j)) → count < 0) ↔ _
    constructor
    · intro h j hj
      by_contra hk
      have := h ⟨j, hj, Nat.not_lt.mp hk⟩
      omega
    · rintro h ⟨j, hj, hk⟩
      exact absurd (h j hj) hk.not_gt
  · change (∀ a ∈ (if buf = 0 then [] else strLoads s.mem (strLeft count) buf) ++ [], a < kernelBaseAddr) ↔ _
    rw [append_nil]
    by_cases hz : buf = 0
    · simp [hz]
    · simp only [hz, if_false, mem_strLoads hbuf, ne_eq, not_false_eq_true, true_imp_iff]
      constructor
      · intro h j hj hnz
        exact h _ ⟨j, hj, hnz, rfl⟩
      · rintro h a ⟨j, hj, hnz, rfl⟩
        exact h j hj hnz

theorem write_guarded (hbuf : buf < 2 ^ 32) (h : ¬ s.Refused (.write i buf count)) :
    (s.write i buf count).Guarded (.write i buf count) ↔ s.Confined (.write i buf count) := by
  obtain ⟨p, hfd, hop, hwrite⟩ := write_accepted h
  rw [hwrite, fOpWrite]
  cases hkind : (s.file p).fOp with
  | none => exact absurd hkind hop
  | ramfs size start =>
    have hconf : s.Confined (.write i buf count) ↔ Below buf count.toNat := by
      simp [Confined, hfd, hkind]
    rw [hconf]
    exact guarded_iff_of_le (n := 0) rfl (Int.le_refl 0) (Nat.zero_le _)
  | pipe x =>
    have hconf : s.Confined (.write i buf count) ↔ Below buf count.toNat := by
      simp [Confined, hfd, hkind]
    have hle := writeLoop_le (fun j => s.mem (wrap (buf + j))) count.toNat 0 (s.pipes x)
    rw [Nat.zero_add] at hle
    rw [hconf]
    exact guarded_iff_of_le (append_nil _) (Int.natCast_nonneg _) hle
  | tty =>
    refine (ttyWrite_guarded hbuf).trans ?_
    simp [Confined, hfd, hkind]

/-! ## A pipe -/

def freeSlots (s : IoState) : Finset (Fin maxFile) := Finset.univ.filter fun i => s.fd i = none

theorem find_free_none : ((List.finRange maxFile).find? fun i => decide (s.fd i = none)) = none ↔
    s.freeSlots = ∅ := by
  rw [find?_eq_none, freeSlots, Finset.filter_eq_empty_iff]
  simp

theorem getEmptyFile_none {o : Option Nat} : s.getEmptyFile o = none ↔ s.freeSlots = ∅ ∨ o = none := by
  rw [← find_free_none]
  unfold getEmptyFile
  cases hfind : (List.finRange maxFile).find? fun i => decide (s.fd i = none) with
  | none => exact iff_of_true rfl (.inl rfl)
  | some i =>
    cases o with
    | none => exact iff_of_true rfl (.inr rfl)
    | some p => simp

theorem freeSlots_getEmptyFile {mem : Option Nat} {s' : IoState} (h : s.getEmptyFile mem = some (i, p, s')) :
    s'.freeSlots.card + 1 = s.freeSlots.card := by
  unfold getEmptyFile at h
  split at h
  · rename_i hi
    obtain ⟨rfl, rfl, rfl⟩ := Option.some.inj h
    have hfree : i ∈ s.freeSlots := by
      rw [freeSlots, Finset.mem_filter]
      exact ⟨Finset.mem_univ i, by simpa using find?_some hi⟩
    have herase : (s.setFile i p ⟨0, 0, .none⟩).freeSlots = s.freeSlots.erase i := by
      ext k
      rw [freeSlots, freeSlots, Finset.mem_erase, Finset.mem_filter, Finset.mem_filter]
      by_cases hk : k = i
      · simp [setFile, hk]
      · simp [setFile, hk]
    rw [herase, Finset.card_erase_add_one hfree]
  · cases h

theorem pipe_cases (s : IoState) (fd : Nat) (mem₁ mem₂ info : Option Nat) (dentry : Bool) :
    (s.Refused (.pipe fd mem₁ mem₂ info dentry) ∧ ∃ e > 0, ∃ s' : IoState,
      s.pipe fd mem₁ mem₂ info dentry = s'.error e) ∨
    (¬ s.Refused (.pipe fd mem₁ mem₂ info dentry) ∧ ∃ (s' : IoState) (l : List UInt8), l.length = 8 ∧
      s.pipe fd mem₁ mem₂ info dentry = s'.storing 0 fd l) := by
  have href : s.Refused (.pipe fd mem₁ mem₂ info dentry) ↔
      s.freeSlots.card < 2 ∨ mem₁ = none ∨ mem₂ = none ∨ info = none ∨ dentry = false := Iff.rfl
  rw [href]
  unfold pipe
  cases h₁ : s.getEmptyFile mem₁ with
  | none =>
    refine .inl ⟨?_, enfile, by decide, s, rfl⟩
    rcases getEmptyFile_none.mp h₁ with hfull | hmem
    · rw [hfull]
      exact .inl (by decide)
    · exact .inr (.inl hmem)
  | some r =>
    obtain ⟨i, p, s₁⟩ := r
    have hcard := freeSlots_getEmptyFile h₁
    have hmem₁ : mem₁ ≠ none := fun e => by
      rw [getEmptyFile_none.mpr (.inr e)] at h₁
      cases h₁
    dsimp only
    cases h₂ : s₁.getEmptyFile mem₂ with
    | none =>
      refine .inl ⟨?_, enfile, by decide, s₁, rfl⟩
      rcases getEmptyFile_none.mp h₂ with hfull | hmem
      · rw [hfull, Finset.card_empty] at hcard
        exact .inl (by omega)
      · exact .inr (.inr (.inl hmem))
    | some r =>
      obtain ⟨j, q, s₂⟩ := r
      have hcard₂ := freeSlots_getEmptyFile h₂
      have hmem₂ : mem₂ ≠ none := fun e => by
        rw [getEmptyFile_none.mpr (.inr e)] at h₂
        cases h₂
      cases info with
      | none => exact .inl ⟨.inr (.inr (.inr (.inl rfl))), enfile, by decide, s₂, rfl⟩
      | some x =>
        cases dentry with
        | false => exact .inl ⟨.inr (.inr (.inr (.inr rfl))), enomem, by decide, s₂, rfl⟩
        | true =>
          refine .inr ⟨?_, _, _, rfl, rfl⟩
          rintro (h | h | h | h | h)
          · omega
          · exact hmem₁ h
          · exact hmem₂ h
          · cases h
          · cases h

end IoState

/-- **No call reaches the kernel's half** exactly when it is refused for another reason, or the
bytes from the pointer on are below it, as many as the operation takes. -/
theorem user_call_guarded (s : IoState) (c : UserCall) (hargs : c.Args) (hh : s.tty.head < ttyBufSize)
    (ht : s.tty.tail < ttyBufSize) : (s.call c).Guarded c ↔ s.Refused c ∨ s.Confined c := by
  cases c with
  | read i buf count =>
    by_cases href : s.Refused (.read i buf count)
    · obtain ⟨e, he, hread⟩ := IoState.read_refused href
      refine iff_of_true ?_ (.inl href)
      rw [IoState.call, hread]
      exact guarded_error s he _
    · rw [or_iff_right href]
      exact IoState.read_guarded hargs.2.2 hh ht href
  | write i buf count =>
    by_cases href : s.Refused (.write i buf count)
    · obtain ⟨e, he, hwrite⟩ := IoState.write_refused href
      refine iff_of_true ?_ (.inl href)
      rw [IoState.call, hwrite]
      exact guarded_error s he _
    · rw [or_iff_right href]
      exact IoState.write_guarded hargs.1 href
  | pipe fd mem₁ mem₂ info dentry =>
    rcases s.pipe_cases fd mem₁ mem₂ info dentry with ⟨href, e, he, s', hpipe⟩ | ⟨href, s', l, hlen, hpipe⟩
    · refine iff_of_true ?_ (.inl href)
      rw [IoState.call, hpipe]
      exact guarded_error s' he _
    · rw [or_iff_right href, IoState.call, hpipe]
      refine (IoState.storing_guarded (UserCall.pipe_buf fd mem₁ mem₂ info dentry) (.inl (Int.le_refl 0))).trans ?_
      rw [hlen]
      exact and_self_iff

def oneOpen (f : FileOps) (tty : TtyQueue) : IoState :=
  ⟨fun _ => some 0, fun _ => ⟨0, 0, f⟩, fun _ => getPipeInfo, tty, fun _ => 0⟩

def fourBytes : FileOps := .ramfs 4 fun _ => 0x41

def noKeys : TtyQueue := ⟨0, 0, fun _ => 0⟩

theorem user_call_guarded_ramfs :
    ((oneOpen fourBytes noKeys).call (.read firstFd 0x800000 4)).Guarded (.read firstFd 0x800000 4) := by
  have hargs : (UserCall.read firstFd 0x800000 4).Args := ⟨by decide, by decide, by decide⟩
  refine (user_call_guarded (oneOpen fourBytes noKeys) _ hargs (by decide) (by decide)).mpr (.inr ⟨?_, ?_⟩)
  · show ∀ j < 4, wrap (0x800000 + j) < kernelBaseAddr
    decide
  · rintro p - hneg
    exact absurd hneg (by decide)

/-- A file is read over the kernel, and the call succeeds. -/
theorem kernel_overwritten : ((oneOpen fourBytes noKeys).call (.read firstFd 0xC0100000 4)).ret = 4 ∧
    ((oneOpen fourBytes noKeys).call (.read firstFd 0xC0100000 4)).stores =
      [(0xC0100000, 0x41), (0xC0100001, 0x41), (0xC0100002, 0x41), (0xC0100003, 0x41)] ∧
    ¬ ((oneOpen fourBytes noKeys).call (.read firstFd 0xC0100000 4)).Guarded (.read firstFd 0xC0100000 4) := by
  have hstores : ((oneOpen fourBytes noKeys).call (.read firstFd 0xC0100000 4)).stores =
      [(0xC0100000, 0x41), (0xC0100001, 0x41), (0xC0100002, 0x41), (0xC0100003, 0x41)] := by decide
  refine ⟨by decide, hstores, fun h => ?_⟩
  have hlow := h.1 0xC0100000 (by rw [hstores]; simp)
  exact absurd hlow (by decide)

/-! ## The caller's buffer -/

namespace IoState

variable {s : IoState} {i : Fin maxFile} {buf : Nat} {count : Int}

theorem storing_contained {ret : Int} {l : List UInt8} (hret : ret = l.length) (hle : ret ≤ count) :
    (s.storing ret buf l).Contained buf count := by
  subst hret
  refine ⟨hle, fun x hx => ?_⟩
  have hx' : x.1 ∈ addrsAt buf l.length := by
    rw [← addrs_bytesAt]
    exact List.mem_map_of_mem hx
  obtain ⟨j, hj, he⟩ := mem_addrsAt.mp hx'
  exact ⟨j, Int.ofNat_lt.mpr hj, he⟩

theorem error_contained {e : Int} (he : 0 < e) (hc : 0 ≤ count) : (s.error e).Contained buf count := by
  refine ⟨?_, fun x hx => absurd hx not_mem_nil⟩
  change -e ≤ count
  omega

theorem ttyRead_overflows {keys : List (BitVec 32)} (hne : keys ≠ []) (hlt : keys.length < 2 ^ 31) :
    ¬ (s.storing keys.length buf (keys.flatMap intBytes)).Contained buf count := by
  rintro ⟨-, h⟩
  have hpos : 0 < keys.length := length_pos_iff.mpr hne
  have hmem : wrap (buf + keys.length) ∈ (bytesAt buf (keys.flatMap intBytes)).map Prod.fst := by
    rw [addrs_bytesAt, mem_addrsAt, length_intBytes]
    exact ⟨keys.length, by omega, rfl⟩
  obtain ⟨x, hx, hwrap⟩ := List.mem_map.mp hmem
  obtain ⟨j, hj, he⟩ := h x hx
  change (j : Int) < keys.length at hj
  rw [hwrap] at he
  unfold wrap at he
  omega

theorem ramfs_contained {p : Nat} (size : BitVec 32) (start : Nat → UInt8)
    (hc : 0 ≤ count) (hlt : count < 2 ^ 31) : (s.ramfsFileRead p size start buf count).Contained buf count := by
  unfold ramfsFileRead
  dsimp only
  split
  · exact ⟨hc, fun x hx => absurd hx not_mem_nil⟩
  · rename_i hend
    have hle := ramfsCount_le hc hlt (Nat.not_le.mp hend)
    rw [toSigned_of_lt (by omega)]
    exact storing_contained (by simp) (by omega)

theorem tty_contained (hc : 0 ≤ count) (hlt : count < 2 ^ 31) :
    (s.ttyfsFileRead buf count).Contained buf count ↔ count = 0 ∨ s.tty.head = s.tty.tail := by
  have hle := TtyQueue.readLoop_length_le count.toNat s.tty.head s.tty
  have hkeys : (s.tty.ttyRead count).1.map s.tty.buf = [] ↔ count = 0 ∨ s.tty.head = s.tty.tail := by
    rw [map_eq_nil_iff, TtyQueue.ttyRead_eq_nil hc]
  rw [← hkeys]
  unfold ttyfsFileRead
  dsimp only
  rw [← length_map s.tty.buf]
  constructor
  · intro hcont
    by_contra hne
    exact ttyRead_overflows hne (by rw [length_map]; exact lt_of_le_of_lt hle (by omega)) hcont
  · intro hnone
    rw [hnone]
    exact storing_contained rfl hc

end IoState

/-- **A read stays in the caller's buffer** unless a key waits at the terminal it reads from. -/
theorem read_contained (s : IoState) (i : Fin maxFile) (buf : Nat) {count : Int} (hc : 0 ≤ count)
    (hlt : count < 2 ^ 31) : (s.read i buf count).Contained buf count ↔ count = 0 ∨ ¬ s.KeyWaits i := by
  by_cases href : s.Refused (.read i buf count)
  · obtain ⟨e, he, hread⟩ := IoState.read_refused href
    rw [hread]
    refine iff_of_true (IoState.error_contained he hc) (.inr ?_)
    rintro ⟨p, hfd, hcan, htty, -⟩
    rcases href p hfd with hno | hop
    · rw [hcan] at hno
      cases hno
    · rw [htty] at hop
      cases hop
  · obtain ⟨p, hfd, hcan, hop, hread⟩ := IoState.read_accepted href
    have hkey : s.KeyWaits i ↔ (s.file p).fOp = .tty ∧ s.tty.head ≠ s.tty.tail := by
      simp [IoState.KeyWaits, hfd, hcan]
    rw [hread, IoState.fOpRead, hkey]
    cases hkind : (s.file p).fOp with
    | none => exact absurd hkind hop
    | ramfs size start =>
      exact iff_of_true (IoState.ramfs_contained size start hc hlt) (.inr fun h => nomatch h.1)
    | pipe x =>
      refine iff_of_true ?_ (.inr fun h => nomatch h.1)
      have hle := readLoop_length_le count.toNat 0 (s.pipes x)
      exact IoState.storing_contained rfl (Int.le_trans (Int.ofNat_le.mpr hle) (by omega))
    | tty =>
      refine (IoState.tty_contained hc hlt).trans ?_
      simp only [true_and, not_not]

def oneKey : TtyQueue := ⟨0, 1, fun _ => 0x61⟩

theorem read_contained_pipe : ((oneOpen (.pipe 0) oneKey).read firstFd 0x800000 1).Contained 0x800000 1 := by
  refine (read_contained _ firstFd 0x800000 (by decide) (by decide)).mpr (.inr ?_)
  rintro ⟨p, -, -, htty, -⟩
  cases htty

/-- One key is read from the terminal, and four bytes are stored. -/
theorem key_overflows : ((oneOpen .tty oneKey).read firstFd 0x800000 1).ret = 1 ∧
    ((oneOpen .tty oneKey).read firstFd 0x800000 1).stores =
      [(0x800000, 0x61), (0x800001, 0), (0x800002, 0), (0x800003, 0)] ∧
    ¬ ((oneOpen .tty oneKey).read firstFd 0x800000 1).Contained 0x800000 1 := by
  have hret : ((oneOpen .tty oneKey).read firstFd 0x800000 1).ret = 1 := by decide
  have hstores : ((oneOpen .tty oneKey).read firstFd 0x800000 1).stores =
      [(0x800000, 0x61), (0x800001, 0), (0x800002, 0), (0x800003, 0)] := by decide
  refine ⟨hret, hstores, fun h => ?_⟩
  obtain ⟨j, hj, he⟩ := h.2 (0x800001, 0) (by rw [hstores]; simp)
  rw [hret] at hj
  obtain rfl : j = 0 := by omega
  exact absurd he (by decide)

end MiniOS
