import MiniOS.NodeCreateSound
import MiniOS.PathBuffer
import Mathlib.Data.List.Induction

/-!
# The last component, from both ends

`mkdir` compares the last component that `path_lookup` has come to from the front with the one
that `get_last` finds from the back. They agree where `path_lookup` gets to the end of the path. But
`get_last` reads the byte before the component first and then asks whether it is still in the path.
-/

namespace MiniOS

open List Option

/-! ## Backwards through memory -/

/-- `while (test(p)) p--`. -/
def downWhile (test : Nat → Bool) : (fuel p : Nat) → Option Nat
  | 0, _ => none
  | fuel + 1, p => if test p then downWhile test fuel (wsub p 1) else some p

def downReads (test : Nat → Bool) : (fuel p : Nat) → List Nat
  | 0, _ => []
  | fuel + 1, p => p :: if test p then downReads test fuel (wsub p 1) else []

theorem downWhile_eq {test : Nat → Bool} {q : Nat} (hq : test q = false) : ∀ (n : Nat) {fuel : Nat},
    (∀ i < n, test (q + 1 + i) = true) → q + n < 2 ^ 32 → n < fuel →
    downWhile test fuel (q + n) = some q ∧ ∀ r, r ∈ downReads test fuel (q + n) ↔ q ≤ r ∧ r ≤ q + n
  | 0, fuel + 1, _, _, _ => by
    have hstop : ¬ test (q + 0) = true := by
      rw [Nat.add_zero, hq]
      exact Bool.false_ne_true
    rw [downWhile, downReads, if_neg hstop, if_neg hstop]
    refine ⟨rfl, fun r => ?_⟩
    rw [mem_singleton]
    omega
  | n + 1, fuel + 1, htest, hlt, hf => by
    have htop : test (q + (n + 1)) = true := by
      rw [Nat.add_comm n 1, ← Nat.add_assoc]
      exact htest n (Nat.lt_succ_self n)
    have hprev : wsub (q + (n + 1)) 1 = q + n := by
      rw [wsub_of_le (by omega) hlt]
      omega
    obtain ⟨hstop, hreads⟩ := downWhile_eq hq n (fun i hi => htest i (Nat.lt_succ_of_lt hi)) (by omega)
      (Nat.lt_of_succ_lt_succ hf)
    rw [downWhile, downReads, if_pos htop, if_pos htop, hprev]
    refine ⟨hstop, fun r => ?_⟩
    rw [mem_cons, hreads]
    omega

section
variable (mem : Nat → UInt8) (pathname : Nat)

def atSlash (p : Nat) : Bool := mem p = slash

/-- The byte is read before the pointers are compared. -/
def inName (p : Nat) : Bool := mem p ≠ slash ∧ pathname ≤ p

theorem skipSlashes_eq_down : ∀ (fuel p : Nat), skipSlashes mem fuel p = downWhile (atSlash mem) fuel p
  | 0, _ => rfl
  | fuel + 1, p => by
    rw [skipSlashes, downWhile, skipSlashes_eq_down fuel]
    simp only [atSlash, decide_eq_true_eq]

theorem skipName_eq_down : ∀ (fuel p : Nat), skipName mem pathname fuel p = downWhile (inName mem pathname) fuel p
  | 0, _ => rfl
  | fuel + 1, p => by
    rw [skipName, downWhile, skipName_eq_down fuel]
    simp only [inName, decide_eq_true_eq]

def getLastReads (fuel : Nat) (len : Int) : List Nat :=
  let p := wsub (wrap (pathname + toUnsigned len)) 1
  downReads (atSlash mem) fuel p ++ (skipSlashes mem fuel p).elim [] (downReads (inName mem pathname) fuel)

end

/-! ## The last component of a string -/

/-- `c` is the last component, `pre` is what stands before it, and `n` slashes behind it. -/
structure LastSplit (name pre c : List UInt8) (n : Nat) : Prop where
  split : name = pre ++ (c ++ List.replicate n slash)
  nonempty : c ≠ []
  noSlash : slash ∉ c
  before : pre = [] ∨ ∃ dir, pre = dir ++ [slash]

theorem split_at_end {α : Type*} (p : α → Bool) (l : List α) :
    ∃ xs ys, l = xs ++ ys ∧ (∀ b ∈ ys, p b = true) ∧ (xs = [] ∨ ∃ zs b, xs = zs ++ [b] ∧ p b = false) := by
  induction l using List.reverseRecOn with
  | nil => exact ⟨[], [], rfl, nofun, .inl rfl⟩
  | append_singleton l b ih =>
    cases hb : p b with
    | false => exact ⟨l ++ [b], [], (append_nil _).symm, nofun, .inr ⟨l, b, rfl, hb⟩⟩
    | true =>
      obtain ⟨xs, ys, rfl, hys, hxs⟩ := ih
      refine ⟨xs, ys ++ [b], append_assoc .., ?_, hxs⟩
      rw [forall_mem_append]
      exact ⟨hys, forall_mem_singleton.mpr hb⟩

theorem components_trailing {c : List UInt8} (hne : c ≠ []) (hs : slash ∉ c) (n : Nat) :
    components (c ++ List.replicate n slash) = [c] := by
  cases n with
  | zero => rw [replicate_zero, append_nil, components_single hne hs]
  | succ n =>
    have hall : (List.replicate n slash).dropWhile (· = slash) = [] := by
      rw [dropWhile_eq_nil_iff]
      intro b hb
      exact decide_eq_true (eq_of_mem_replicate hb)
    rw [replicate_succ, components_behind hne hs, hall, components_nil]

section
variable {name pre c : List UInt8} {n : Nat}

theorem LastSplit.components (h : LastSplit name pre c n) :
    (pre = [] ∧ components name = [c]) ∨ ∃ dir, pre = dir ++ [slash] ∧ components name = components dir ++ [c] := by
  have hlast := components_trailing h.nonempty h.noSlash n
  rcases h.before with hpre | ⟨dir, hpre⟩
  · refine .inl ⟨hpre, ?_⟩
    rw [h.split, hpre, nil_append, hlast]
  · refine .inr ⟨dir, hpre, ?_⟩
    rw [h.split, hpre, append_assoc, singleton_append, components_append, hlast]

theorem LastSplit.getLast (h : LastSplit name pre c n) : (MiniOS.components name).getLast? = some c := by
  rcases h.components with ⟨-, hcs⟩ | ⟨dir, -, hcs⟩
  · rw [hcs]
    rfl
  · rw [hcs, getLast?_concat]

theorem exists_lastSplit (h : components name ≠ []) : ∃ pre c n, LastSplit name pre c n := by
  obtain ⟨body, tail, hname, htail, hbody⟩ := split_at_end (fun b => decide (b = slash)) name
  have hslashes : ∀ b ∈ tail, b = slash := fun b hb => of_decide_eq_true (htail b hb)
  rcases hbody with rfl | ⟨front, last, rfl, hlast⟩
  · -- nothing but slashes
    refine absurd ?_ h
    have hskip : name.dropWhile (· = slash) = [] := dropWhile_eq_nil_iff.mpr (hname ▸ htail)
    rw [← components_skip, hskip, components_nil]
  · obtain ⟨pre, c, hparts, hc, hpre⟩ := split_at_end (fun b => decide (b ≠ slash)) (front ++ [last])
    refine ⟨pre, c, tail.length, ?_, ?_, ?_, ?_⟩
    · rw [hname, hparts, append_assoc, ← eq_replicate_of_mem hslashes]
    · rintro rfl
      rcases hpre with rfl | ⟨dir, b, rfl, hb⟩
      · simp at hparts
      · rw [append_nil] at hparts
        obtain ⟨-, rfl⟩ := append_singleton_inj.mp hparts
        simp only [ne_eq, decide_not, Bool.not_eq_false'] at hb
        exact nomatch hb.symm.trans hlast
    · intro hmem
      exact of_decide_eq_true (hc slash hmem) rfl
    · rcases hpre with hpre | ⟨dir, b, hpre, hb⟩
      · exact .inl hpre
      · simp only [ne_eq, decide_not, Bool.not_eq_false', decide_eq_true_eq] at hb
        exact .inr ⟨dir, hb ▸ hpre⟩

def SlashBefore (name : List UInt8) : Prop := name.headD 0 = slash ∨ 1 < (components name).length

theorem LastSplit.slashBefore_iff (h : LastSplit name pre c n) (h₀ : 0 ∉ name) : SlashBefore name ↔ pre ≠ [] := by
  rcases h.components with ⟨hpre, hcs⟩ | ⟨dir, hpre, hcs⟩
  · refine iff_of_false ?_ fun hn => hn hpre
    rintro (hhead | hlong)
    · obtain ⟨b, c', rfl⟩ := exists_cons_of_ne_nil h.nonempty
      rw [h.split, hpre] at hhead
      exact h.noSlash (mem_cons.mpr (.inl (Eq.symm hhead)))
    · rw [hcs] at hlong
      exact Nat.lt_irrefl _ hlong
  · refine iff_of_true ?_ (by rw [hpre]; exact append_ne_nil_of_right_ne_nil _ (cons_ne_nil _ _))
    by_cases hdir : dir.dropWhile (· = slash) = []
    · -- only slashes before the component, one of them at the start
      refine .inl ?_
      rw [h.split, hpre]
      cases dir with
      | nil => rfl
      | cons b dir => exact of_decide_eq_true (dropWhile_eq_nil_iff.mp hdir b (mem_cons_self ..))
    · have hzero : 0 ∉ dir := by
        intro hz
        apply h₀
        rw [h.split, hpre]
        simp [hz]
      obtain ⟨c', cs, hcs'⟩ := components_ne_nil (fun hz => hzero (dropWhile_subset _ hz)) (first_behind hzero hdir)
      rw [components_skip] at hcs'
      refine .inr ?_
      rw [hcs, hcs']
      simp

end

/-! ## What `get_last` answers -/

section
variable {mem : Nat → UInt8} {fuel p : Nat} {name pre c : List UInt8} {n : Nat}

theorem strAt_spec : ∀ {fuel p : Nat} {name : List UInt8}, strAt mem fuel p = some name → p + name.length < 2 ^ 32 →
    name.length < fuel ∧ 0 ∉ name ∧ ∀ i < name.length, name[i]? = some (mem (p + i))
  | fuel + 1, p, name, h, hlt => by
    rw [strAt] at h
    by_cases hz : mem p = 0
    · rw [if_pos hz] at h
      cases h
      exact ⟨Nat.zero_lt_succ _, not_mem_nil, fun i hi => absurd hi (Nat.not_lt_zero i)⟩
    · rw [if_neg hz] at h
      obtain ⟨rest, hrest, rfl⟩ := map_eq_some_iff.mp h
      rw [length_cons] at hlt
      rw [wrap_of_lt (by omega)] at hrest
      obtain ⟨hf, h₀, hget⟩ := strAt_spec hrest (by omega)
      refine ⟨Nat.succ_lt_succ hf, ?_, ?_⟩
      · rw [mem_cons, not_or]
        exact ⟨Ne.symm hz, h₀⟩
      · intro i hi
        cases i with
        | zero => rfl
        | succ i =>
          rw [getElem?_cons_succ, hget i (Nat.lt_of_succ_lt_succ hi), Nat.add_assoc, Nat.add_comm 1 i]

/-- A part of the string, where it lies. -/
theorem byte_of_part {xs ys zs : List UInt8} (hget : ∀ i < name.length, name[i]? = some (mem (p + i)))
    (h : name = xs ++ (ys ++ zs)) {i : Nat} (hi : i < ys.length) : mem (p + xs.length + i) = ys[i] := by
  have hin : xs.length + i < name.length := by
    rw [h, length_append, length_append]
    omega
  have hbyte := hget _ hin
  rw [h, getElem?_append_right (Nat.le_add_right ..), Nat.add_sub_cancel_left, getElem?_append_left hi,
    getElem?_eq_getElem hi, ← Nat.add_assoc] at hbyte
  exact (some.inj hbyte).symm

theorem LastSplit.length (h : LastSplit name pre c n) : name.length = pre.length + (c.length + n) := by
  rw [h.split, length_append, length_append, length_replicate]

/-- The first loop stops at the last byte of the component. -/
theorem LastSplit.slashes_behind (h : LastSplit name pre c n) (hstr : strAt mem fuel p = some name)
    (hlt : p + name.length < 2 ^ 32) :
    downWhile (atSlash mem) fuel (p + pre.length + c.length - 1 + n) = some (p + pre.length + c.length - 1) ∧
      ∀ r, r ∈ downReads (atSlash mem) fuel (p + pre.length + c.length - 1 + n) ↔
        p + pre.length + c.length - 1 ≤ r ∧ r ≤ p + pre.length + c.length - 1 + n := by
  obtain ⟨hf, -, hget⟩ := strAt_spec hstr hlt
  have hlen := h.length
  have hpos : 0 < c.length := length_pos_of_ne_nil h.nonempty
  refine downWhile_eq ?_ n ?_ (by omega) (by omega)
  · have hlast := byte_of_part hget h.split (Nat.sub_lt hpos Nat.one_pos)
    rw [← Nat.add_sub_assoc hpos] at hlast
    rw [atSlash, hlast]
    exact decide_eq_false fun e => h.noSlash (e ▸ getElem_mem _)
  · intro i hi
    have hsplit : name = (pre ++ c) ++ (List.replicate n slash ++ []) := by
      rw [append_nil, append_assoc, ← h.split]
    have hbyte := byte_of_part hget hsplit (i := i) (by rwa [length_replicate])
    rw [getElem_replicate, length_append, ← Nat.add_assoc] at hbyte
    rw [atSlash, Nat.sub_add_cancel (by omega), hbyte]
    exact decide_eq_true rfl

/-- The second loop stops at the byte before the component. -/
theorem LastSplit.name_before (h : LastSplit name pre c n) (hstr : strAt mem fuel p = some name) (hp : 0 < p)
    (hlt : p + name.length < 2 ^ 32) :
    downWhile (inName mem p) fuel (p + pre.length - 1 + c.length) = some (p + pre.length - 1) ∧
      ∀ r, r ∈ downReads (inName mem p) fuel (p + pre.length - 1 + c.length) ↔
        p + pre.length - 1 ≤ r ∧ r ≤ p + pre.length - 1 + c.length := by
  obtain ⟨hf, -, hget⟩ := strAt_spec hstr hlt
  have hlen := h.length
  refine downWhile_eq ?_ c.length ?_ (by omega) (by omega)
  · rcases h.before with hpre | ⟨dir, hpre⟩
    · refine decide_eq_false fun hin => ?_
      have hge := hin.2
      rw [hpre, length_nil] at hge
      omega
    · have hsplit : name = dir ++ ([slash] ++ (c ++ List.replicate n slash)) := by
        rw [← append_assoc, ← hpre, ← h.split]
      have hbyte : mem (p + dir.length + 0) = slash := byte_of_part hget hsplit (i := 0) Nat.one_pos
      refine decide_eq_false fun hin => hin.1 ?_
      rw [hpre, length_append, length_singleton, ← Nat.add_assoc, Nat.add_sub_cancel]
      exact hbyte
  · intro i hi
    have hbyte := byte_of_part hget h.split hi
    rw [inName, Nat.sub_add_cancel (by omega)]
    refine decide_eq_true ⟨?_, by omega⟩
    rw [hbyte]
    exact fun e => h.noSlash (e ▸ getElem_mem hi)

/-- `get_last` answers the start of the last component, and reads all from the byte before it on. -/
theorem getLast_spec (h : LastSplit name pre c n) (hstr : strAt mem fuel p = some name) (hp : 0 < p)
    (hlt : p + name.length < 2 ^ 32) :
    getLast mem fuel p name.length = some (p + pre.length) ∧
      ∀ r, r ∈ getLastReads mem p fuel name.length ↔ p + pre.length ≤ r + 1 ∧ r < p + name.length := by
  obtain ⟨hslashes, hreads⟩ := h.slashes_behind hstr hlt
  obtain ⟨hname, hreads'⟩ := h.name_before hstr hp hlt
  have hlen := h.length
  have hpos : 0 < c.length := length_pos_of_ne_nil h.nonempty
  have hstart : wsub (wrap (p + toUnsigned name.length)) 1 = p + pre.length + c.length - 1 + n := by
    have hnat : toUnsigned name.length = name.length := by
      unfold toUnsigned
      omega
    rw [hnat, wrap_of_lt hlt, wsub_of_le (by omega) hlt]
    omega
  have hstop : p + pre.length + c.length - 1 = p + pre.length - 1 + c.length := by omega
  rw [getLast, getLastReads, hstart, skipSlashes_eq_down, hslashes]
  constructor
  · rw [bind_some, skipName_eq_down, hstop, hname, map_some, Nat.sub_add_cancel (by omega), wrap_of_lt (by omega)]
  · intro r
    show r ∈ _ ++ downReads (inName mem p) fuel (p + pre.length + c.length - 1) ↔ _
    rw [mem_append, hreads, hstop, hreads']
    omega

end

/-! ## What `path_lookup` leaves in `nd->last` -/

/-- How a walk for the parent that does not fail ends: with the last of the components, or at a
dentry without an inode, and then `nd->last` is what it was. -/
inductive ParentEnd (came all : List (List UInt8)) (nd nd' : Nameidata) : Prop where
  | reached (whole : came = all) (last : all.getLast? = some nd'.last.name)
  | stopped (early : came ≠ all) (last : nd'.last = nd.last)

section
variable {v : Vfs} {fuel : Nat}

theorem lastComponent_parent {nd nd' : Nameidata} {this : Qstr} {res res' : Int}
    (hp : nd.flags &&& lookupParent ≠ 0)
    (h : lastComponent v fuel nd this res = some (res', nd')) : nd'.last = this := by
  rw [lastComponent, if_pos hp] at h
  cases h
  rfl

theorem ParentEnd.behind {c c' : List UInt8} {came cs : List (List UInt8)} {nd nd₁ nd' : Nameidata}
    (h : ParentEnd came (c' :: cs) nd₁ nd') (hlast : nd₁.last = nd.last) :
    ParentEnd (c :: came) (c :: c' :: cs) nd nd' := by
  cases h with
  | reached whole last => exact .reached (congrArg _ whole) (getLast?_cons_cons.trans last)
  | stopped early last => exact .stopped (fun e => early (List.cons.inj e).2) (last.trans hlast)

theorem linkLoop_parent : ∀ (left : Nat) {name : List UInt8} {nd nd' : Nameidata} {res res' : Int},
    isNameByte (name.headD 0) = true → 0 ∉ name → nd.flags &&& lookupParent ≠ 0 →
    linkLoop v fuel left name nd res = some (res', nd') → 0 ≤ res' →
    ParentEnd (cameTo v fuel nd (components name)) (components name) nd nd' := by
  intro left
  induction left with
  | zero => intro name nd nd' res res' _ _ _ h; cases h
  | succ left ih =>
    intro name nd nd' res res' hb h₀ hp h hres
    have hrest := nameRest h₀ hb
    cases hq : Qstr.ofName (name.takeWhile isNameByte) with
    | none => rw [linkLoop, hq] at h; cases h
    | some this =>
      rw [linkLoop, hq] at h
      dsimp only at h
      have hone : nd'.last = this → ParentEnd [name.takeWhile isNameByte] [name.takeWhile isNameByte] nd nd' := by
        intro hlast
        refine .reached rfl ?_
        rw [hlast, Qstr.name_of_ofName hq]
        rfl
      cases hrest with
      | nothing rest comps =>
        rw [rest] at h
        rw [comps]
        exact hone (lastComponent_parent hp h)
      | slashes rest skip comps =>
        rw [rest, dropWhile_slash_cons, skip] at h
        rw [comps]
        exact hone (lastComponent_parent hp h)
      | further rest skip first noZero shorter comps =>
        obtain ⟨c', cs, hcs⟩ := components_ne_nil noZero first
        rw [rest, dropWhile_slash_cons, skip, headD_cons, if_neg (of_eq_false slash_ne_zero),
          if_neg (head_ne_zero first)] at h
        rw [comps, hcs]
        obtain ⟨r, hstep, hsame⟩ | ⟨nd₁, res₁, hstep, hflags, hlast⟩ := afterComponent_cases v fuel nd this res
        · rw [hstep] at h
          rw [cameTo_stops hq cs hstep]
          exact .stopped (by simp) (congrArg Nameidata.last (hsame _ _ h hres))
        · rw [hstep] at h
          rw [cameTo_goesOn hq cs hstep]
          have hend := ih first noZero (hflags.symm ▸ hp) h hres
          rw [hcs] at hend
          exact hend.behind hlast

def startAt (fs : FsStruct) (name : List UInt8) (flags : UInt32) (nd : Nameidata) : Nameidata :=
  if name.headD 0 = slash then { nd with mnt := fs.mntRoot, dentry := fs.root, flags := flags }
  else { nd with mnt := fs.mntPwd, dentry := fs.pwd, flags := flags }

theorem startAt_last (fs : FsStruct) (name : List UInt8) (flags : UInt32) (nd : Nameidata) :
    (startAt fs name flags nd).last = nd.last ∧ (startAt fs name flags nd).flags = flags := by
  unfold startAt
  split
  · exact ⟨rfl, rfl⟩
  · exact ⟨rfl, rfl⟩

theorem pathLookup_parent {fs : FsStruct} {name : List UInt8} {flags : UInt32} {nd nd' : Nameidata} {res : Int}
    (hp : flags &&& lookupParent ≠ 0) (h₀ : 0 ∉ name) (h : pathLookup v fs fuel name flags nd = some (res, nd'))
    (hres : 0 ≤ res) :
    components name ≠ [] ∧ ParentEnd (cameTo v fuel (startAt fs name flags nd) (components name))
    (components name) nd nd' := by
  obtain ⟨hlast, hflags⟩ := startAt_last fs name flags nd
  have hlink : linkPathLookup v fuel name (startAt fs name flags nd) = some (res, nd') := by
    rw [pathLookup] at h
    rw [startAt]
    split at h
    · rename_i hhead
      rw [if_pos hhead]
      exact h
    · rename_i hhead
      rw [if_neg hhead]
      split at h
      · exact h
      · cases h
        exact absurd hres (by decide)
  rw [linkPathLookup] at hlink
  by_cases hskip : name.dropWhile (· = slash) = []
  · rw [hskip] at hlink
    cases hlink
    exact absurd hres (by decide)
  · have hfirst := first_behind h₀ hskip
    have hzero : 0 ∉ name.dropWhile (· = slash) := fun hz => h₀ (dropWhile_subset _ hz)
    rw [if_neg (head_ne_zero hfirst)] at hlink
    have hend := linkLoop_parent fuel hfirst hzero (by rwa [hflags]) hlink hres
    obtain ⟨c, cs, hcs⟩ := components_ne_nil hzero hfirst
    rw [components_skip] at hend hcs
    refine ⟨by rw [hcs]; exact cons_ne_nil _ _, ?_⟩
    cases hend with
    | reached whole last => exact .reached whole last
    | stopped early last => exact .stopped early (last.trans hlast)

end

/-! ## Both of them -/

/-- `get_last` points to a component of the pathname that is `nd->last`, without reading before the
pathname, and `mkdir` goes on to make it. -/
structure FsState.ParsersAgree (s : FsState) (fs : FsStruct) (fuel : Nat) (a : NodeArgs) (name : List UInt8)
    (nd : Nameidata) : Prop where
  component : nd.last.name ≠ [] ∧ slash ∉ nd.last.name
  points : ∃ pre post, name = pre ++ (nd.last.name ++ post) ∧
    getLast a.mem fuel a.pathname a.len = some (a.pathname + pre.length) ∧
    (pre = [] ∨ ∃ dir, pre = dir ++ [slash]) ∧ (post = [] ∨ ∃ rest, post = slash :: rest)
  inside : ∀ q ∈ getLastReads a.mem a.pathname fuel a.len, a.pathname ≤ q
  makes : s.mkdir fs fuel a = s.addNode nd.dentry nd.last a.dentry (FsState.opOf .mkdir a (s.dInode nd.dentry))

section
variable {mem : Nat → UInt8} {fuel p : Nat} {name pre c : List UInt8} {n : Nat}

theorem takeWhile_component {ys : List UInt8} (hs : slash ∉ c) (hys : ys = [] ∨ ∃ rest, ys = slash :: rest) :
    (c ++ ys).takeWhile (· ≠ slash) = c := by
  have hc : ∀ b ∈ c, decide (b ≠ slash) = true := fun b hb => decide_eq_true fun e => hs (e ▸ hb)
  rw [takeWhile_append_of_pos hc]
  rcases hys with rfl | ⟨rest, rfl⟩
  · exact append_nil c
  · exact append_nil c

theorem replicate_slash (n : Nat) :
    List.replicate n slash = [] ∨ ∃ rest, List.replicate n slash = slash :: rest := by
  cases n with
  | zero => exact .inl rfl
  | succ n => exact .inr ⟨_, rfl⟩

/-- A component that starts where the last one does is the last one. -/
theorem LastSplit.unique (h : LastSplit name pre c n) {pre' c' post : List UInt8}
    (hname : name = pre' ++ (c' ++ post))
    (hlen : pre'.length = pre.length) (hs : slash ∉ c') (hpost : post = [] ∨ ∃ rest, post = slash :: rest) :
    c' = c := by
  obtain ⟨-, hrest⟩ := append_inj (hname.symm.trans h.split) hlen
  calc c' = (c' ++ post).takeWhile (· ≠ slash) := (takeWhile_component hs hpost).symm
    _ = (c ++ List.replicate n slash).takeWhile (· ≠ slash) := by rw [hrest]
    _ = c := takeWhile_component h.noSlash (replicate_slash n)

/-- The bytes that `strncmp` compares with the last component. -/
theorem LastSplit.bytes (h : LastSplit name pre c n) (hstr : strAt mem fuel p = some name)
    (hlt : p + name.length < 2 ^ 32) : bytesFrom mem (p + pre.length) c.length = c := by
  obtain ⟨-, -, hget⟩ := strAt_spec hstr hlt
  have hlen := h.length
  apply ext_getElem
  · rw [bytesFrom, length_map, length_range]
  · intro i _ hi
    simp only [bytesFrom, getElem_map, getElem_range]
    rw [wrap_of_lt (by omega)]
    exact byte_of_part hget h.split hi

end

theorem ParentEnd.last_iff {came all : List (List UInt8)} {nd nd' : Nameidata} {c : List UInt8}
    (h : ParentEnd came all nd nd') (hc : all.getLast? = some c) :
    nd'.last.name = c ↔ came = all ∨ all.getLast? = some nd.last.name := by
  rw [hc]
  cases h with
  | reached whole last => exact iff_of_true (some.inj (last.symm.trans hc)) (.inl whole)
  | stopped early last =>
    rw [last, or_iff_right early, some.injEq]
    exact eq_comm

/-- For a pathname in memory with its length, when the lookup of the parent does not fail: the two
agree and stay in the pathname exactly if a slash stands before the last component and the
walk has come to that, or left a `nd.last` that happened to be it. -/
theorem mkdir_parsers_iff {s : FsState} {fs : FsStruct} {fuel : Nat} {a : NodeArgs} {name : List UInt8} {res : Int}
    {nd : Nameidata} (hname : strAt a.mem fuel a.pathname = some name) (hpos : 0 < a.pathname)
    (hfits : a.pathname + name.length < 2 ^ 32) (hlen : a.len = name.length)
    (hp : s.pathParent fs fuel a FsState.mkdirFlags = some (res, nd)) (hres : 0 ≤ res) :
    s.ParsersAgree fs fuel a name nd ↔ SlashBefore name ∧
      (cameTo s.vfs fuel (startAt fs name FsState.mkdirFlags a.nd) (components name) = components name ∨
        (components name).getLast? = some a.nd.last.name) := by
  have h₀ := (strAt_spec hname hfits).2.1
  have hlookup := hp
  rw [FsState.pathParent, hname, bind_some] at hlookup
  obtain ⟨hne, hend⟩ := pathLookup_parent (by decide) h₀ hlookup hres
  obtain ⟨pre, c, n, hsplit⟩ := exists_lastSplit hne
  obtain ⟨hget, hreads⟩ := getLast_spec hsplit hname hpos hfits
  rw [← hlen] at hget hreads
  rw [← hend.last_iff hsplit.getLast, hsplit.slashBefore_iff h₀]
  constructor
  · rintro ⟨⟨-, hs⟩, ⟨pre', post, heq, hget', -, hpost⟩, hinside, -⟩
    have hpre : pre'.length = pre.length := Nat.add_left_cancel (some.inj (hget'.symm.trans hget))
    refine ⟨?_, hsplit.unique heq hpre hs hpost⟩
    -- without a slash before it, the byte before the pathname has been read
    rintro rfl
    have hlong : 0 < name.length := by
      rw [hsplit.length]
      have := length_pos_of_ne_nil hsplit.nonempty
      omega
    have hbefore := hinside (a.pathname - 1) ((hreads _).mpr ⟨by rw [length_nil]; omega, by omega⟩)
    omega
  · rintro ⟨hpre, hlast⟩
    have hlong : 0 < pre.length := length_pos_of_ne_nil hpre
    refine ⟨hlast ▸ ⟨hsplit.nonempty, hsplit.noSlash⟩,
      ⟨pre, List.replicate n slash, ?_, hget, hsplit.before, replicate_slash n⟩, ?_, ?_⟩
    · rw [hlast]
      exact hsplit.split
    · intro q hq
      have := ((hreads q).mp hq).1
      omega
    · have hagrees : NodeCall.mkdir.agrees fuel a nd.last = some true := by
        have hbytes := hsplit.bytes hname hfits
        rw [← hlast] at hbytes
        have hsame : strncmp nd.last.len nd.last.name nd.last.name = 0 :=
          (strncmp_eq_zero nd.last.noZero).mpr prefix_rfl
        rw [NodeCall.agrees, hget, map_some, show nd.last.len = nd.last.name.length from rfl, hbytes]
        exact congrArg some (decide_eq_true hsame)
      exact (FsState.nodeCall_adds (c := .mkdir) hp (not_lt.mpr hres)).trans (by rw [hagrees]; rfl)

def pathArgs (pathname : List UInt8) : NodeArgs :=
  { nodeArgs pathname 6 with mem := fun p => pathname.getD (p - 16) 0, pathname := 16 }

theorem mkdir_parsers_iff_root :
    ∃ res nd, ttyFs.pathParent atRoot 9 (pathArgs [slash, 102]) FsState.mkdirFlags = some (res, nd) ∧
    ttyFs.ParsersAgree atRoot 9 (pathArgs [slash, 102]) [slash, 102] nd := by
  refine ⟨0, _, rfl, (mkdir_parsers_iff rfl (by decide) (by decide) rfl rfl (by decide)).mpr ⟨.inl rfl, .inl ?_⟩⟩
  decide

/-- `mkdir("f", 1, 0)` reads the byte before the pathname. -/
theorem mkdir_reads_before :
    ∃ res nd, ttyFs.pathParent atRoot 9 (pathArgs [102]) FsState.mkdirFlags = some (res, nd) ∧
    0 ≤ res ∧ strAt (pathArgs [102]).mem 9 16 = some [102] ∧
    15 ∈ getLastReads (pathArgs [102]).mem 16 9 1 ∧ ¬ ttyFs.ParsersAgree atRoot 9 (pathArgs [102]) [102] nd := by
  have hread : 15 ∈ getLastReads (pathArgs [102]).mem 16 9 1 := by decide
  exact ⟨0, _, rfl, by decide, by decide, hread, fun h => absurd (h.inside 15 hread) (by decide)⟩

end MiniOS
