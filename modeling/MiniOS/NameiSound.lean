import MiniOS.Namei
import Mathlib.Data.List.TakeWhile

/-!
# What path resolution answers

The result carried through the loop starts as `-ENOENT` and becomes `0` at the first
component that is looked up, or at a slash behind the last one. A path made of `.` and
`..` only, without such a slash, ends with the `-ENOENT` it began with.
-/

namespace MiniOS

open List Option

/-! ## Components -/

theorem components_nil : components [] = [] := by decide

theorem components_append (xs ys : List UInt8) :
    components (xs ++ slash :: ys) = components xs ++ components ys := by
  simp only [components, splitOn_eq_splitOnP]
  rw [splitOnP_append_cons _ _ (by simp), filter_append]

theorem components_cons (ys : List UInt8) : components (slash :: ys) = components ys := by
  have h := components_append [] ys
  rwa [components_nil, nil_append, nil_append] at h

theorem components_single {c : List UInt8} (hc : c ≠ []) (hs : slash ∉ c) : components c = [c] := by
  have hone : c.splitOn slash = [c] := by
    rw [splitOn_eq_splitOnP]
    apply splitOnP_eq_singleton
    intro b hb
    exact beq_false_of_ne fun e => hs (e ▸ hb)
  simp [components, hone, hc]

theorem components_skip (name : List UInt8) :
    components (name.dropWhile (· = slash)) = components name := by
  induction name with
  | nil => rfl
  | cons b name ih =>
    rw [dropWhile_cons]
    split
    · rename_i hb
      rw [ih, of_decide_eq_true hb, components_cons]
    · rfl

theorem component_cases {name : List UInt8} (h₀ : 0 ∉ name) :
    slash ∉ name.takeWhile isNameByte ∧
    (name.dropWhile isNameByte = [] ∨ ∃ r, name.dropWhile isNameByte = slash :: r) := by
  constructor
  · intro hs
    exact absurd (mem_takeWhile_imp hs) (by decide)
  · cases hd : name.dropWhile isNameByte with
    | nil => exact .inl rfl
    | cons b r =>
      have hb : ¬ isNameByte b := by
        have := head?_dropWhile_not isNameByte name
        simpa [hd] using this
      have hmem : b ∈ name := dropWhile_subset _ (hd ▸ mem_cons_self ..)
      have hb₀ : b ≠ 0 := fun e => h₀ (e ▸ hmem)
      have hbs : b = slash := by simpa [isNameByte, hb₀] using hb
      exact .inr ⟨r, by rw [hbs]⟩

theorem slash_ne_zero : (slash = 0) = False := by decide

theorem dropWhile_slash_cons (r : List UInt8) :
    (slash :: r).dropWhile (· = slash) = r.dropWhile (· = slash) := dropWhile_cons_of_pos (by decide)

theorem skip_cases (r : List UInt8) :
    r.dropWhile (· = slash) = [] ∨ (r.dropWhile (· = slash)).headD 0 ≠ slash := by
  cases hd : r.dropWhile (· = slash) with
  | nil => exact .inl rfl
  | cons b r' =>
    have := head?_dropWhile_not (fun b => decide (b = slash)) r
    rw [hd] at this
    exact .inr (by simpa using this)

theorem components_behind {c : List UInt8} (hne : c ≠ []) (hs : slash ∉ c) (r : List UInt8) :
    components (c ++ slash :: r) = c :: components (r.dropWhile (· = slash)) := by
  rw [components_append, components_single hne hs, components_skip]
  rfl

theorem first_behind {r : List UInt8} (h₀ : 0 ∉ r) (hr : r.dropWhile (· = slash) ≠ []) :
    isNameByte ((r.dropWhile (· = slash)).headD 0) = true := by
  have hbs := (skip_cases r).resolve_left hr
  cases hd : r.dropWhile (· = slash) with
  | nil => exact absurd hd hr
  | cons b r' =>
    rw [hd] at hbs
    have hmem : b ∈ r := dropWhile_subset (· = slash) (hd ▸ mem_cons_self ..)
    have hb₀ : b ≠ 0 := fun e => h₀ (e ▸ hmem)
    have hbs : b ≠ slash := hbs
    simp [isNameByte, hb₀, hbs]

theorem endsInSlash_append {c r : List UInt8} (h : r.dropWhile (· = slash) = []) :
    EndsInSlash (c ++ slash :: r) := by
  have hall : ∀ b ∈ slash :: r, b = slash := by
    intro b hb
    cases hb with
    | head => rfl
    | tail _ hb => simpa using dropWhile_eq_nil_iff.mp h b hb
  rw [EndsInSlash, getLast?_append_of_ne_nil _ (cons_ne_nil _ _),
    getLast?_eq_getLast_of_ne_nil (cons_ne_nil _ _)]
  exact congrArg some (hall _ (getLast_mem _))

theorem endsInSlash_skip (c : List UInt8) {r : List UInt8} (h : r.dropWhile (· = slash) ≠ []) :
    EndsInSlash (c ++ r) ↔ EndsInSlash (r.dropWhile (· = slash)) := by
  have hsplit : c ++ r = (c ++ r.takeWhile (· = slash)) ++ r.dropWhile (· = slash) := by
    rw [append_assoc, takeWhile_append_dropWhile]
  rw [EndsInSlash, EndsInSlash, hsplit, getLast?_append_of_ne_nil _ h]

/-! ## One component -/

theorem Qstr.ofName_of_short {c : List UInt8} (h₁ : c.length < dnameLenMin) (h₀ : 0 ∉ c) :
    Qstr.ofName c = some ⟨c, h₁, h₀⟩ := dif_pos ⟨h₁, h₀⟩

theorem Qstr.name_of_ofName {c : List UInt8} {q : Qstr} (h : Qstr.ofName c = some q) : q.name = c := by
  rw [Qstr.ofName] at h
  split at h
  · rw [← some.inj h]
  · cases h

theorem Qstr.isDot_iff (q : Qstr) : q.isDot = true ↔ q.name = [dot] := by
  obtain ⟨c, -, -⟩ := q
  simp only [Qstr.isDot, Qstr.len]
  rcases c with _ | ⟨a, _ | ⟨b, c⟩⟩ <;> simp

theorem Qstr.isDotdot_iff (q : Qstr) : q.isDotdot = true ↔ q.name = [dot, dot] := by
  obtain ⟨c, -, -⟩ := q
  simp only [Qstr.isDotdot, Qstr.len]
  rcases c with _ | ⟨a, _ | ⟨b, _ | ⟨d, c⟩⟩⟩ <;> simp

section
variable {v : Vfs} {name : List UInt8}

theorem doLookup_plain (hv : v.Plain) (fuel : Nat) (nd : Nameidata) (q : Qstr) :
    doLookup v (fuel + 1) nd q = some ((v.child nd.dentry q).map fun d => (nd.mnt, d)) := by
  rw [doLookup]
  cases v.child nd.dentry q with
  | none => rfl
  | some d => simp [followMount, hv.noMounts]

theorem component_kind {c : List UInt8} {q : Qstr} (hq : Qstr.ofName c = some q) (d : Nat) :
    (q.isDot = true ∧ ¬ RealName c ∧ walkStep v d c = some d) ∨
    (q.isDot = false ∧ q.isDotdot = true ∧ ¬ RealName c ∧ walkStep v d c = some (v.dParent d)) ∨
    (q.isDot = false ∧ q.isDotdot = false ∧ RealName c ∧ walkStep v d c = v.child d q) := by
  have hname := Qstr.name_of_ofName hq
  by_cases h₁ : c = [dot]
  · exact .inl ⟨q.isDot_iff.mpr (hname.trans h₁), fun h => h.1 h₁, if_pos h₁⟩
  have hdot : q.isDot = false := by
    rw [Bool.eq_false_iff, Ne, q.isDot_iff, hname]
    exact h₁
  by_cases h₂ : c = [dot, dot]
  · refine .inr (.inl ⟨hdot, q.isDotdot_iff.mpr (hname.trans h₂), fun h => h.2 h₂, ?_⟩)
    rw [walkStep, if_neg h₁, if_pos h₂]
  · have hdotdot : q.isDotdot = false := by
      rw [Bool.eq_false_iff, Ne, q.isDotdot_iff, hname]
      exact h₂
    refine .inr (.inr ⟨hdot, hdotdot, ⟨h₁, h₂⟩, ?_⟩)
    rw [walkStep, if_neg h₁, if_neg h₂, hq]
    rfl

theorem lastComponent_outcome (hv : v.Plain) {nd : Nameidata} (hf : nd.flags &&& lookupParent = 0) {c : List UInt8}
    {q : Qstr} (hq : Qstr.ofName c = some q) (fuel : Nat) (res : Int) :
    (lastComponent v (fuel + 1) nd q res).map outcome =
      some (if 0 ≤ res ∨ RealName c then walkStep v nd.dentry c else none) := by
  rw [lastComponent, if_neg (by simpa using hf)]
  obtain ⟨h₁, hr, hw⟩ | ⟨h₁, h₂, hr, hw⟩ | ⟨h₁, h₂, hr, hw⟩ := component_kind (v := v) hq nd.dentry
  · rw [if_pos h₁, hw]
    by_cases hres : 0 ≤ res <;> simp [outcome, hr, hres]
  · rw [if_neg (by simp [h₁]), if_pos h₂, hw]
    by_cases hres : 0 ≤ res <;> simp [outcome, hr, hres]
  · rw [if_neg (by simp [h₁]), if_neg (by simp [h₂]), doLookup_plain hv, hw]
    cases v.child nd.dentry q <;> simp [outcome, hr, enoent]

/-! ## The loop -/

theorem walk_single (d : Nat) (c : List UInt8) : walk v d [c] = walkStep v d c := by
  simp [walk]

theorem walk_cons (d : Nat) (c : List UInt8) (cs : List (List UInt8)) :
    walk v d (c :: cs) = (walkStep v d c).bind fun d' => walk v d' cs := rfl

inductive Behind (name c : List UInt8) : Prop where
  | nothing (rest : name.dropWhile isNameByte = []) (comps : components name = [c])
      (ends : ¬ EndsInSlash name)
  | slashes {r : List UInt8} (rest : name.dropWhile isNameByte = slash :: r)
      (skip : r.dropWhile (· = slash) = []) (comps : components name = [c]) (ends : EndsInSlash name)
  | further {r name' : List UInt8} (rest : name.dropWhile isNameByte = slash :: r)
      (skip : r.dropWhile (· = slash) = name') (first : isNameByte (name'.headD 0) = true)
      (short : ShortPath name') (shorter : name'.length < name.length)
      (comps : components name = c :: components name') (ends : EndsInSlash name ↔ EndsInSlash name')

theorem behind_of_slash {name c r : List UInt8} (hn : ShortPath name) (hne : c ≠ []) (hs : slash ∉ c)
    (hd : name.dropWhile isNameByte = slash :: r) (hsplit : c ++ slash :: r = name) : Behind name c := by
  have hcomp : components name = c :: components (r.dropWhile (· = slash)) := by
    rw [← hsplit]
    exact components_behind hne hs r
  by_cases hr : r.dropWhile (· = slash) = []
  · apply Behind.slashes hd hr
    · rw [hcomp, hr, components_nil]
    · exact hsplit ▸ endsInSlash_append hr
  · have hzero : 0 ∉ r := by
      intro h₀
      apply hn.noZero
      rw [← hsplit]
      exact mem_append_right _ (mem_cons_of_mem _ h₀)
    apply Behind.further hd rfl
    · exact first_behind hzero hr
    · refine ⟨fun h₀ => hzero (dropWhile_subset _ h₀), fun d hd => hn.fits d ?_⟩
      rw [hcomp]
      exact mem_cons_of_mem _ hd
    · have := (dropWhile_sublist (l := r) (· = slash)).length_le
      rw [← hsplit, length_append, length_cons]
      omega
    · exact hcomp
    · rw [← hsplit, ← dropWhile_slash_cons r]
      exact endsInSlash_skip c (by rwa [dropWhile_slash_cons])

theorem head_ne_zero (hb : isNameByte (name.headD 0) = true) : ¬ name.headD 0 = 0 := by
  intro hz
  rw [hz] at hb
  exact absurd hb (by decide)

theorem takeWhile_ne_nil (hb : isNameByte (name.headD 0) = true) : name.takeWhile isNameByte ≠ [] := by
  cases name with
  | nil => exact absurd hb (by decide)
  | cons b name => simp [show isNameByte b = true from hb]

theorem firstName (hn : ShortPath name) (hb : isNameByte (name.headD 0) = true) :
    ∃ q, Qstr.ofName (name.takeWhile isNameByte) = some q ∧ Behind name (name.takeWhile isNameByte) := by
  obtain ⟨hs, hrest⟩ := component_cases hn.noZero
  have hsplit := takeWhile_append_dropWhile (p := isNameByte) (l := name)
  have hne := takeWhile_ne_nil hb
  have hzero : 0 ∉ name.takeWhile isNameByte := fun h => hn.noZero (takeWhile_subset _ h)
  have hbehind : Behind name (name.takeWhile isNameByte) := by
    obtain hd | ⟨r, hd⟩ := hrest
    · rw [hd, append_nil] at hsplit
      apply Behind.nothing hd
      · conv_lhs => rw [← hsplit]
        exact components_single hne hs
      · intro hends
        rw [← hsplit] at hends
        exact hs (mem_of_getLast? hends)
    · rw [hd] at hsplit
      exact behind_of_slash hn hne hs hd hsplit
  have hmem : name.takeWhile isNameByte ∈ components name := by
    cases hbehind with
    | nothing _ comps _ => simp [comps]
    | slashes _ _ comps _ => simp [comps]
    | further _ _ _ _ _ comps _ => simp [comps]
  exact ⟨_, Qstr.ofName_of_short (hn.fits _ hmem) hzero, hbehind⟩

theorem linkLoop_outcome (hv : v.Plain) (fuel : Nat) : ∀ (left : Nat) {name : List UInt8} (nd : Nameidata)
    (res : Int), name.length < left → isNameByte (name.headD 0) = true → ShortPath name →
    nd.flags &&& lookupParent = 0 →
    (linkLoop v (fuel + 1) left name nd res).map outcome =
      some (if 0 ≤ res ∨ EndsInSlash name ∨ ∃ c ∈ components name, RealName c
        then walk v nd.dentry (components name) else none) := by
  intro left
  induction left with
  | zero => intro name nd res hlt; exact absurd hlt (Nat.not_lt_zero _)
  | succ left ih =>
    intro name nd res hlt hb hn hf
    obtain ⟨q, hq, hbehind⟩ := firstName hn hb
    rw [linkLoop, hq]
    cases hbehind with
    | nothing rest comps ends =>
      simp only [rest, comps, ends, headD_nil, if_true, walk_single, mem_singleton,
        exists_eq_left, false_or]
      exact lastComponent_outcome hv hf hq fuel res
    | slashes rest skip comps ends =>
      simp only [rest, skip, comps, ends, headD_cons, slash_ne_zero, if_false, dropWhile_slash_cons,
        headD_nil, if_true, true_or, or_true]
      rw [lastComponent_outcome hv hf hq fuel 0, walk_single, if_pos (.inl (by decide))]
    | further rest skip first short shorter comps ends =>
      rename_i r name'
      have hne := head_ne_zero first
      have hlt' : name'.length < left := by omega
      simp only [rest, skip, comps, ends, headD_cons, slash_ne_zero, if_false, dropWhile_slash_cons, hne,
        walk_cons, mem_cons, exists_eq_or_imp]
      obtain ⟨h₁, hr, hw⟩ | ⟨h₁, h₂, hr, hw⟩ | ⟨h₁, h₂, hr, hw⟩ := component_kind (v := v) hq nd.dentry
      · simp only [afterComponent, h₁, if_true, hr, hw, false_or, bind_some]
        exact ih _ res hlt' first short hf
      · simp only [afterComponent, h₁, h₂, if_true, hr, hw, false_or, bind_some]
        exact ih _ res hlt' first short hf
      · -- from here on the result is `0` or the lookup has failed
        simp only [afterComponent, h₁, h₂, hr, hw, Bool.false_eq_true, if_false, true_or, or_true, if_true,
          doLookup_plain hv]
        cases hc : v.child nd.dentry q with
        | none => rfl
        | some d =>
          simp only [map_some, hv.inode _ _ _ hc, if_false, bind_some]
          have hrest := ih { nd with dentry := d } 0 hlt' first short hf
          rwa [if_pos (.inl (by decide))] at hrest

/-! ## The whole lookup -/

theorem linkPathLookup_outcome (hv : v.Plain) {fuel : Nat} (hlt : name.length < fuel)
    (hn : ShortPath name) {nd : Nameidata} (hf : nd.flags &&& lookupParent = 0) :
    (linkPathLookup v fuel name nd).map outcome =
      some (if components name ≠ [] ∧ (EndsInSlash name ∨ ∃ c ∈ components name, RealName c)
        then walk v nd.dentry (components name) else none) := by
  obtain ⟨fuel, rfl⟩ : ∃ n, fuel = n + 1 := ⟨fuel - 1, by omega⟩
  rw [linkPathLookup, ← components_skip name]
  generalize hname : name.dropWhile (· = slash) = name'
  have hsub : name'.Sublist name := hname ▸ dropWhile_sublist _
  cases name' with
  | nil => rfl
  | cons b r =>
    have hb₀ : b ≠ 0 := fun e => hn.noZero (hsub.subset (by simp [e]))
    have hbs : b ≠ slash := by
      have := skip_cases name
      rw [hname] at this
      simpa using this
    have hfirst : isNameByte ((b :: r).headD 0) = true := by simp [isNameByte, hb₀, hbs]
    have hshort : ShortPath (b :: r) := by
      refine ⟨fun h => hn.noZero (hsub.subset h), ?_⟩
      rw [← hname, components_skip]
      exact hn.fits
    have hcomp : components (b :: r) ≠ [] := by
      obtain ⟨q, -, hbehind⟩ := firstName hshort hfirst
      cases hbehind with
      | nothing _ comps _ => simp [comps]
      | slashes _ _ comps _ => simp [comps]
      | further _ _ _ _ _ comps _ => simp [comps]
    have hends : EndsInSlash name ↔ EndsInSlash (b :: r) := by
      have := endsInSlash_skip [] (r := name) (by simp [hname])
      rwa [hname] at this
    have hloop := linkLoop_outcome hv fuel (fuel + 1) nd (-enoent)
      (hsub.length_le.trans_lt hlt) hfirst hshort hf
    simp only [headD_cons, hb₀, if_false, hcomp, ne_eq, not_false_eq_true, true_and, hends]
    rw [hloop]
    simp [enoent]

theorem pathLookup_outcome (hv : v.Plain) (fs : FsStruct) {fuel : Nat}
    (hlt : name.length < fuel) (hn : ShortPath name) {flags : UInt32} (hf : flags &&& lookupParent = 0)
    (nd : Nameidata) :
    (pathLookup v fs fuel name flags nd).map outcome =
      some (if EndsInSlash name ∨ ∃ c ∈ components name, RealName c
        then referenceLookup v fs name else none) := by
  by_cases hcomp : components name = []
  · have hnone : (pathLookup v fs fuel name flags nd).map outcome = some none := by
      rw [pathLookup]
      split
      · rw [linkPathLookup_outcome hv hlt hn (by exact hf), if_neg fun h => h.1 hcomp]
      · split
        · rw [linkPathLookup_outcome hv hlt hn (by exact hf), if_neg fun h => h.1 hcomp]
        · rfl
    rw [hnone, referenceLookup, if_pos hcomp, ite_self]
  · have hstart : ∀ nd' : Nameidata, nd'.flags &&& lookupParent = 0 →
        (linkPathLookup v fuel name nd').map outcome =
          some (if EndsInSlash name ∨ ∃ c ∈ components name, RealName c
            then walk v nd'.dentry (components name) else none) := by
      intro nd' hf'
      rw [linkPathLookup_outcome hv hlt hn hf']
      simp only [hcomp, ne_eq, not_false_eq_true, true_and]
    have hhead : name.headD 0 ≠ 0 := by
      cases name with
      | nil => exact absurd components_nil hcomp
      | cons b name => exact fun e => hn.noZero (e ▸ mem_cons_self ..)
    rw [pathLookup, referenceLookup, if_neg hcomp]
    by_cases hs : name.headD 0 = slash
    · rw [if_pos hs, if_pos hs]
      exact hstart _ hf
    · rw [if_neg hs, if_pos hhead, if_neg hs]
      exact hstart _ hf

theorem walk_dots : ∀ {cs : List (List UInt8)} (d : Nat), (∀ c ∈ cs, ¬ RealName c) →
    ∃ d', walk v d cs = some d' := by
  intro cs
  induction cs with
  | nil => intro d _; exact ⟨d, rfl⟩
  | cons c cs ih =>
    intro d h
    have hcs := fun c' hc' => h c' (mem_cons_of_mem _ hc')
    rw [walk_cons]
    by_cases h₁ : c = [dot]
    · rw [walkStep, if_pos h₁]
      exact ih d hcs
    · have h₂ : c = [dot, dot] := by
        by_contra h₂
        exact h c (mem_cons_self ..) ⟨h₁, h₂⟩
      rw [walkStep, if_neg h₁, if_pos h₂]
      exact ih _ hcs

theorem referenceLookup_dots (fs : FsStruct) (hcomp : components name ≠ [])
    (h : ∀ c ∈ components name, ¬ RealName c) : referenceLookup v fs name ≠ none := by
  obtain ⟨d, hd⟩ := walk_dots (v := v) (if name.headD 0 = slash then fs.root else fs.pwd) h
  rw [referenceLookup, if_neg hcomp, hd]
  exact some_ne_none d

/-! ## A slash or `/.` behind the name -/

theorem components_slash (name : List UInt8) : components (name ++ [slash]) = components name := by
  rw [components_append, components_nil, append_nil]

theorem components_slash_dot (name : List UInt8) :
    components (name ++ [slash, dot]) = components name ++ [[dot]] := by
  rw [components_append]
  congr 1

theorem headD_append (hcomp : components name ≠ []) (r : List UInt8) :
    (name ++ r).headD 0 = name.headD 0 := by
  cases name with
  | nil => exact absurd components_nil hcomp
  | cons b name => rfl

theorem referenceLookup_slash (fs : FsStruct) (hcomp : components name ≠ []) :
    referenceLookup v fs (name ++ [slash]) = referenceLookup v fs name := by
  rw [referenceLookup, referenceLookup, components_slash, headD_append hcomp]

theorem referenceLookup_slash_dot (fs : FsStruct) (hcomp : components name ≠ []) :
    referenceLookup v fs (name ++ [slash, dot]) = referenceLookup v fs name := by
  rw [referenceLookup, referenceLookup, components_slash_dot, headD_append hcomp, if_neg (by simp),
    if_neg hcomp]
  simp only [walk, foldlM_append]
  cases List.foldlM (walkStep v) (if name.headD 0 = slash then fs.root else fs.pwd) (components name) with
  | none => rfl
  | some d => rfl

theorem ShortPath.slash (hn : ShortPath name) : ShortPath (name ++ [slash]) := by
  refine ⟨?_, by rw [components_slash]; exact hn.fits⟩
  rw [mem_append, not_or]
  exact ⟨hn.noZero, by decide⟩

theorem ShortPath.slash_dot (hn : ShortPath name) : ShortPath (name ++ [MiniOS.slash, dot]) := by
  refine ⟨?_, ?_⟩
  · rw [mem_append, not_or]
    exact ⟨hn.noZero, by decide⟩
  · rw [components_slash_dot]
    intro c hc
    rw [mem_append, mem_singleton] at hc
    obtain hc | rfl := hc
    · exact hn.fits c hc
    · decide

end

/-- A lookup without `LOOKUP_PARENT` is the reference walk if and only if the path has no
component, ends in a slash, or names something. With components, a slash or `/.` behind
the path changes nothing if and only if the path names something. -/
theorem path_lookup_reference (v : Vfs) (fs : FsStruct) (fuel : Nat) (name : List UInt8) (flags : UInt32)
    (nd : Nameidata) (hv : v.Plain) (hn : ShortPath name) (hlt : name.length + 2 < fuel)
    (hf : flags &&& lookupParent = 0) :
    ((pathLookup v fs fuel name flags nd).map outcome = some (referenceLookup v fs name) ↔
      components name = [] ∨ EndsInSlash name ∨ ∃ c ∈ components name, RealName c) ∧
    (components name ≠ [] →
      ((pathLookup v fs fuel (name ++ [slash]) flags nd).map outcome =
          (pathLookup v fs fuel name flags nd).map outcome ∧
        (pathLookup v fs fuel (name ++ [slash, dot]) flags nd).map outcome =
          (pathLookup v fs fuel name flags nd).map outcome ↔
      ∃ c ∈ components name, RealName c)) := by
  have hplain : (pathLookup v fs fuel name flags nd).map outcome = some
      (if EndsInSlash name ∨ ∃ c ∈ components name, RealName c then referenceLookup v fs name else none) :=
    pathLookup_outcome hv fs (by omega) hn hf nd
  have hdots : components name ≠ [] → (¬ ∃ c ∈ components name, RealName c) →
      referenceLookup v fs name ≠ none := by
    intro hcomp hnone
    exact referenceLookup_dots fs hcomp fun c hc hr => hnone ⟨c, hc, hr⟩
  constructor
  · rw [hplain, some_inj]
    constructor
    · intro heq
      by_contra hcond
      rw [not_or] at hcond
      rw [if_neg hcond.2] at heq
      exact hdots hcond.1 (fun h => hcond.2 (.inr h)) heq.symm
    · rintro (hcomp | hcond)
      · rw [referenceLookup, if_pos hcomp, ite_self]
      · rw [if_pos hcond]
  · intro hcomp
    have hslash : (pathLookup v fs fuel (name ++ [slash]) flags nd).map outcome =
        some (referenceLookup v fs name) := by
      rw [pathLookup_outcome hv fs (by simp; omega) hn.slash hf nd, if_pos (.inl (by simp [EndsInSlash])),
        referenceLookup_slash fs hcomp]
    have hslashDot : (pathLookup v fs fuel (name ++ [slash, dot]) flags nd).map outcome =
        some (if ∃ c ∈ components name, RealName c then referenceLookup v fs name else none) := by
      have hend : ¬ EndsInSlash (name ++ [slash, dot]) := by simp [EndsInSlash, slash, dot]
      have hreal : (∃ c ∈ components (name ++ [slash, dot]), RealName c) ↔
          ∃ c ∈ components name, RealName c := by simp [components_slash_dot, RealName]
      rw [pathLookup_outcome hv fs (by simp; omega) hn.slash_dot hf nd, referenceLookup_slash_dot fs hcomp]
      simp only [hend, hreal, false_or]
    rw [hplain, hslash, hslashDot]
    by_cases hreal : ∃ c ∈ components name, RealName c
    · simp [hreal]
    · rw [if_neg hreal]
      refine iff_of_false (fun h => hdots hcomp hreal ?_) hreal
      exact (some.inj h.1).trans (some.inj h.2).symm

def devVfs : Vfs where
  child d q := if d = 1 ∧ q.name = [100, 101, 118] then some 2 else none
  dParent _ := 1
  dInode d := d + 1
  lookupVfsmnt _ _ := 0
  mntRoot _ := 1

def devFs : FsStruct := ⟨1, 0, 2, 0⟩

def blankNameidata : Nameidata := ⟨0, 0, ⟨[], by decide, by decide⟩, 0, .norm⟩

theorem devVfs_plain : devVfs.Plain := ⟨fun _ _ => rfl, fun _ _ d' _ => Nat.succ_ne_zero d'⟩

theorem path_lookup_reference_dev :
    devVfs.Plain ∧ ShortPath [dot, dot, slash, 100, 101, 118] ∧
    (pathLookup devVfs devFs 9 [dot, dot, slash, 100, 101, 118] 0 blankNameidata).map outcome = some (some 2) := by
  have hshort : ShortPath [dot, dot, slash, 100, 101, 118] := ⟨by decide, by decide⟩
  refine ⟨devVfs_plain, hshort, ?_⟩
  rw [(path_lookup_reference devVfs devFs 9 [dot, dot, slash, 100, 101, 118] 0 blankNameidata devVfs_plain
    hshort (by decide) (by decide)).1.mpr (.inr (.inr (by decide)))]
  decide

/-- `.` from `/dev` is an error, and `./` is not. -/
theorem path_lookup_dot_fails :
    devVfs.Plain ∧ ShortPath [dot] ∧ referenceLookup devVfs devFs [dot] = some 2 ∧
    pathLookup devVfs devFs 4 [dot] 0 blankNameidata =
      some (-enoent, { blankNameidata with dentry := 2 }) ∧
    pathLookup devVfs devFs 4 [dot, slash] 0 blankNameidata =
      some (0, { blankNameidata with dentry := 2 }) :=
  ⟨devVfs_plain, ⟨by decide, by decide⟩, by decide, by decide, by decide⟩

end MiniOS
