import MiniOS.NameiSound

/-!
# The buffer of a component

`link_path_lookup` copies every component into `this.name`, a byte at a time and a zero behind
the last one. Here the loop keeps its stores; nothing in it compares `namelen` with the size
of the buffer.
-/

namespace MiniOS

open List

def copyName : (namelen : Nat) → List UInt8 → List (Nat × UInt8) × Nat × List UInt8
  | namelen, [] => ([], namelen, [])
  | namelen, c :: name =>
    if isNameByte c then
      let r := copyName (namelen + 1) name
      ((namelen, c) :: r.1, r.2)
    else ([], namelen, c :: name)

structure NameStores where
  stores : List (Nat × UInt8)
  ends : Option (Int × Nameidata)

def NameStores.after (l : List (Nat × UInt8)) (r : NameStores) : NameStores := { r with stores := l ++ r.stores }

section
variable (v : Vfs)

/-- `linkLoop` with its stores. Behind an overrun it may do anything. -/
def linkLoopStores (fuel : Nat) : Nat → List UInt8 → Nameidata → Int → NameStores
  | 0, _, _, _ => ⟨[], none⟩
  | left + 1, name, nd, res =>
    let (copied, namelen, name) := copyName 0 name
    let stores := copied ++ [(namelen, 0)]
    match Qstr.ofName (copied.map Prod.snd) with
    | none => ⟨stores, none⟩
    | some this =>
      if name.headD 0 = 0 then ⟨stores, lastComponent v fuel nd this res⟩
      else
        let name := name.dropWhile (· = slash)
        if name.headD 0 = 0 then ⟨stores, lastComponent v fuel nd this 0⟩
        else
          match afterComponent v fuel nd this res with
          | .stops r => ⟨stores, r⟩
          | .goesOn nd res => (linkLoopStores fuel left name nd res).after stores

def linkPathStores (fuel : Nat) (name : List UInt8) (nd : Nameidata) : NameStores :=
  let name := name.dropWhile (· = slash)
  if name.headD 0 = 0 then ⟨[], some (-enoent, nd)⟩
  else linkLoopStores v fuel fuel name nd (-enoent)

def cameTo (fuel : Nat) : Nameidata → List (List UInt8) → List (List UInt8)
  | _, [] => []
  | _, [c] => [c]
  | nd, c :: c' :: cs =>
    c :: match (Qstr.ofName c).map fun this => afterComponent v fuel nd this 0 with
      | some (.goesOn nd _) => cameTo fuel nd (c' :: cs)
      | _ => []

structure BufferSafe (fuel : Nat) (name : List UInt8) (nd : Nameidata) : Prop where
  inside : ∀ w ∈ (linkPathStores v fuel name nd).stores, w.1 < dnameLenMin
  rejects : ∀ c ∈ cameTo v fuel nd (components name), dnameLenMin ≤ c.length →
    ∃ e nd', (linkPathStores v fuel name nd).ends = some (e, nd') ∧ e < 0

end

/-! ## What a component before the last one does -/

section
variable (v : Vfs) (fuel : Nat) (nd : Nameidata) (this : Qstr) (res : Int)

/-- The result so far decides neither whether the walk goes on nor where. -/
theorem afterComponent_res (res' : Int) :
    (∃ r, afterComponent v fuel nd this res = .stops r ∧ afterComponent v fuel nd this res' = .stops r) ∨
      ∃ nd₁ r r', afterComponent v fuel nd this res = .goesOn nd₁ r ∧
      afterComponent v fuel nd this res' = .goesOn nd₁ r' := by
  unfold afterComponent
  split
  · exact .inr ⟨_, _, _, rfl, rfl⟩
  split
  · exact .inr ⟨_, _, _, rfl, rfl⟩
  split
  · exact .inl ⟨_, rfl, rfl⟩
  · exact .inl ⟨_, rfl, rfl⟩
  split
  · exact .inl ⟨_, rfl, rfl⟩
  · exact .inr ⟨_, _, _, rfl, rfl⟩

/-- A walk that goes on has only moved, and one that stops without an error has not even moved. -/
theorem afterComponent_cases :
    (∃ r, afterComponent v fuel nd this res = .stops r ∧ ∀ res' nd', r = some (res', nd') → 0 ≤ res' → nd' = nd) ∨
      ∃ nd' res', afterComponent v fuel nd this res = .goesOn nd' res' ∧ nd'.flags = nd.flags ∧
      nd'.last = nd.last := by
  unfold afterComponent
  split
  · exact .inr ⟨_, _, rfl, rfl, rfl⟩
  split
  · exact .inr ⟨_, _, rfl, rfl, rfl⟩
  split
  · exact .inl ⟨_, rfl, nofun⟩
  · refine .inl ⟨_, rfl, fun res' nd' h hres => ?_⟩
    cases h
    exact absurd hres (by decide)
  split
  · refine .inl ⟨_, rfl, fun res' nd' h _ => ?_⟩
    cases h
    rfl
  · exact .inr ⟨_, _, rfl, rfl, rfl⟩

variable {v fuel nd this}

theorem cameTo_stops {c c' : List UInt8} (hq : Qstr.ofName c = some this) (cs : List (List UInt8)) {res : Int}
    {r : Option (Int × Nameidata)} (h : afterComponent v fuel nd this res = .stops r) :
    cameTo v fuel nd (c :: c' :: cs) = [c] := by
  obtain ⟨r', -, h'⟩ | ⟨nd₁, r', r'', h', -⟩ := afterComponent_res v fuel nd this res 0
  · rw [cameTo, hq, Option.map_some, h']
  · cases h.symm.trans h'

theorem cameTo_goesOn {c c' : List UInt8} (hq : Qstr.ofName c = some this) (cs : List (List UInt8)) {res res' : Int}
    {nd' : Nameidata} (h : afterComponent v fuel nd this res = .goesOn nd' res') :
    cameTo v fuel nd (c :: c' :: cs) = c :: cameTo v fuel nd' (c' :: cs) := by
  obtain ⟨r, h', -⟩ | ⟨nd₁, r, r', h', h₀⟩ := afterComponent_res v fuel nd this res 0
  · cases h.symm.trans h'
  · cases h.symm.trans h'
    rw [cameTo, hq, Option.map_some, h₀]

end

/-! ## The stores of one component -/

theorem copyName_eq : ∀ (name : List UInt8) (namelen : Nat), copyName namelen name =
    (((name.takeWhile isNameByte).zipIdx namelen).map Prod.swap, namelen + (name.takeWhile isNameByte).length,
      name.dropWhile isNameByte)
  | [], _ => rfl
  | c :: name, namelen => by
    rw [copyName, takeWhile_cons, dropWhile_cons]
    cases hc : isNameByte c with
    | false => rfl
    | true =>
      rw [copyName_eq name (namelen + 1)]
      simp only [if_true, zipIdx_cons, map_cons, length_cons, Prod.swap_prod_mk]
      rw [Nat.add_assoc, Nat.add_comm 1]

theorem copied_bytes (c : List UInt8) : ((c.zipIdx 0).map Prod.swap).map Prod.snd = c := by
  rw [List.map_map]
  exact zipIdx_map_fst 0 c

def nameStores (c : List UInt8) : List (Nat × UInt8) := (c.zipIdx 0).map Prod.swap ++ [(0 + c.length, 0)]

theorem nameStores_indices (c : List UInt8) : (nameStores c).map Prod.fst = List.range (c.length + 1) := by
  rw [nameStores, map_append, List.map_map, List.range_succ, Nat.zero_add]
  have hidx : (c.zipIdx 0).map (Prod.fst ∘ Prod.swap) = List.range c.length := by
    rw [range_eq_range']
    exact zipIdx_map_snd 0 c
  rw [hidx]
  rfl

section
variable {v : Vfs} {fuel : Nat} {name : List UInt8}

/-! ## The loop -/

section
variable {left : Nat} {name : List UInt8} {nd : Nameidata} {this : Qstr} {res : Int}

theorem linkLoopStores_none (hq : Qstr.ofName (name.takeWhile isNameByte) = none) :
    linkLoopStores v fuel (left + 1) name nd res = ⟨nameStores (name.takeWhile isNameByte), none⟩ := by
  rw [linkLoopStores, copyName_eq]
  dsimp only
  rw [copied_bytes, hq]
  rfl

theorem linkLoopStores_some (hq : Qstr.ofName (name.takeWhile isNameByte) = some this) :
    linkLoopStores v fuel (left + 1) name nd res =
      if (name.dropWhile isNameByte).headD 0 = 0 then
        ⟨nameStores (name.takeWhile isNameByte), lastComponent v fuel nd this res⟩
      else if ((name.dropWhile isNameByte).dropWhile (· = slash)).headD 0 = 0 then
        ⟨nameStores (name.takeWhile isNameByte), lastComponent v fuel nd this 0⟩
      else
        match afterComponent v fuel nd this res with
        | .stops r => ⟨nameStores (name.takeWhile isNameByte), r⟩
        | .goesOn nd res =>
          (linkLoopStores v fuel left ((name.dropWhile isNameByte).dropWhile (· = slash)) nd res).after
            (nameStores (name.takeWhile isNameByte)) := by
  rw [linkLoopStores, copyName_eq]
  dsimp only
  rw [copied_bytes, hq]
  rfl

end

theorem linkLoopStores_ends : ∀ (left : Nat) (name : List UInt8) (nd : Nameidata) (res : Int),
    (linkLoopStores v fuel left name nd res).ends = linkLoop v fuel left name nd res := by
  intro left
  induction left with
  | zero => intro name nd res; rfl
  | succ left ih =>
    intro name nd res
    cases hq : Qstr.ofName (name.takeWhile isNameByte) with
    | none => rw [linkLoopStores_none hq, linkLoop, hq]
    | some this =>
      rw [linkLoopStores_some hq, linkLoop, hq]
      dsimp only
      split
      · rfl
      split
      · rfl
      cases afterComponent v fuel nd this res with
      | stops r => rfl
      | goesOn nd' res' => exact ih _ nd' res'

theorem linkPathStores_ends (name : List UInt8) (nd : Nameidata) :
    (linkPathStores v fuel name nd).ends = linkPathLookup v fuel name nd := by
  rw [linkPathStores, linkPathLookup]
  split
  · rfl
  · exact linkLoopStores_ends _ _ _ _

def indicesOf (cs : List (List UInt8)) : List Nat := cs.flatMap fun c => List.range (c.length + 1)

theorem indicesOf_cons (c : List UInt8) (cs : List (List UInt8)) :
    indicesOf (c :: cs) = List.range (c.length + 1) ++ indicesOf cs := flatMap_cons

inductive NameRest (name c : List UInt8) : Prop where
  | nothing (rest : name.dropWhile isNameByte = []) (comps : components name = [c])
  | slashes {r : List UInt8} (rest : name.dropWhile isNameByte = slash :: r) (skip : r.dropWhile (· = slash) = [])
      (comps : components name = [c])
  | further {r name' : List UInt8} (rest : name.dropWhile isNameByte = slash :: r)
      (skip : r.dropWhile (· = slash) = name') (first : isNameByte (name'.headD 0) = true) (noZero : 0 ∉ name')
      (shorter : name'.length < name.length) (comps : components name = c :: components name')

theorem nameRest (h₀ : 0 ∉ name) (hb : isNameByte (name.headD 0) = true) :
    NameRest name (name.takeWhile isNameByte) := by
  have hne := takeWhile_ne_nil hb
  have hsplit := takeWhile_append_dropWhile (p := isNameByte) (l := name)
  obtain ⟨hs, hd | ⟨r, hd⟩⟩ := component_cases h₀
  · rw [hd, append_nil] at hsplit
    refine .nothing hd ?_
    conv_lhs => rw [← hsplit]
    exact components_single hne hs
  · rw [hd] at hsplit
    have hcomps : components name = name.takeWhile isNameByte :: components (r.dropWhile (· = slash)) := by
      conv_lhs => rw [← hsplit]
      exact components_behind hne hs r
    by_cases hr : r.dropWhile (· = slash) = []
    · refine .slashes hd hr ?_
      rw [hcomps, hr, components_nil]
    · have hr₀ : 0 ∉ r := by
        intro hz
        apply h₀
        rw [← hsplit]
        exact mem_append_right _ (mem_cons_of_mem _ hz)
      refine .further hd rfl (first_behind hr₀ hr) (fun hz => hr₀ (dropWhile_subset _ hz)) ?_ hcomps
      have := (dropWhile_sublist (l := r) (· = slash)).length_le
      rw [← hsplit, length_append, length_cons]
      omega

theorem components_ne_nil (h₀ : 0 ∉ name) (hb : isNameByte (name.headD 0) = true) :
    ∃ c cs, components name = c :: cs := by
  cases nameRest h₀ hb with
  | nothing _ comps => exact ⟨_, _, comps⟩
  | slashes _ _ comps => exact ⟨_, _, comps⟩
  | further _ _ _ _ _ comps => exact ⟨_, _, comps⟩

theorem linkLoopStores_indices : ∀ (left : Nat) {name : List UInt8} (nd : Nameidata) (res : Int),
    name.length < left → isNameByte (name.headD 0) = true → 0 ∉ name →
    (linkLoopStores v fuel left name nd res).stores.map Prod.fst = indicesOf
    (cameTo v fuel nd (components name)) := by
  intro left
  induction left with
  | zero => intro name nd res hlt; exact absurd hlt (Nat.not_lt_zero _)
  | succ left ih =>
    intro name nd res hlt hb h₀
    have hrest := nameRest h₀ hb
    have hidx := nameStores_indices (name.takeWhile isNameByte)
    have hone : (nameStores (name.takeWhile isNameByte)).map Prod.fst = indicesOf [name.takeWhile isNameByte] := by
      rw [hidx, indicesOf_cons]
      exact (append_nil _).symm
    cases hq : Qstr.ofName (name.takeWhile isNameByte) with
    | none =>
      rw [linkLoopStores_none hq]
      cases hrest with
      | nothing rest comps => rw [comps]; exact hone
      | slashes rest skip comps => rw [comps]; exact hone
      | further rest skip first noZero shorter comps =>
        obtain ⟨c', cs, hcs⟩ := components_ne_nil noZero first
        rw [comps, hcs, cameTo, hq]
        exact hone
    | some this =>
      rw [linkLoopStores_some hq]
      cases hrest with
      | nothing rest comps =>
        rw [comps, rest]
        exact hone
      | slashes rest skip comps =>
        rw [comps, rest, dropWhile_slash_cons, skip]
        exact hone
      | further rest skip first noZero shorter comps =>
        obtain ⟨c', cs, hcs⟩ := components_ne_nil noZero first
        rw [comps, hcs, rest, dropWhile_slash_cons, skip, headD_cons, if_neg (of_eq_false slash_ne_zero),
          if_neg (head_ne_zero first)]
        cases hstep : afterComponent v fuel nd this res with
        | stops r =>
          rw [cameTo_stops hq cs hstep]
          exact hone
        | goesOn nd' res' =>
          have hgo := ih nd' res' (by omega) first noZero
          rw [cameTo_goesOn hq cs hstep, indicesOf_cons, ← hcs, ← hgo, ← hidx]
          exact map_append

theorem linkPathStores_indices (h₀ : 0 ∉ name) (hlt : name.length < fuel) (nd : Nameidata) :
    (linkPathStores v fuel name nd).stores.map Prod.fst = indicesOf (cameTo v fuel nd (components name)) := by
  rw [linkPathStores, ← components_skip name]
  by_cases hskip : name.dropWhile (· = slash) = []
  · rw [hskip, components_nil]
    rfl
  · have hfirst := first_behind h₀ hskip
    have hlen := (dropWhile_sublist (l := name) (· = slash)).length_le
    rw [if_neg (head_ne_zero hfirst)]
    exact linkLoopStores_indices fuel nd _ (by omega) hfirst fun hz => h₀ (dropWhile_subset _ hz)

theorem indicesOf_inside {cs : List (List UInt8)} :
    (∀ i ∈ indicesOf cs, i < dnameLenMin) ↔ ∀ c ∈ cs, c.length < dnameLenMin := by
  constructor
  · intro h c hc
    refine h _ (mem_flatMap.mpr ⟨c, hc, mem_range.mpr (Nat.lt_succ_self _)⟩)
  · intro h i hi
    obtain ⟨c, hc, hi⟩ := mem_flatMap.mp hi
    have := h c hc
    have := mem_range.mp hi
    omega

end

/-- The stores stay in the buffer exactly if no component the walk comes to is too long for it. -/
theorem path_buffer_iff (v : Vfs) (fuel : Nat) (name : List UInt8) (nd : Nameidata) (h₀ : 0 ∉ name)
    (hlt : name.length < fuel) :
    BufferSafe v fuel name nd ↔ ∀ c ∈ cameTo v fuel nd (components name), c.length < dnameLenMin := by
  have hinside : (∀ w ∈ (linkPathStores v fuel name nd).stores, w.1 < dnameLenMin) ↔
      ∀ c ∈ cameTo v fuel nd (components name), c.length < dnameLenMin := by
    rw [← indicesOf_inside, ← linkPathStores_indices h₀ hlt, List.forall_mem_map]
  constructor
  · intro h
    exact hinside.mp h.inside
  · intro h
    exact ⟨hinside.mpr h, fun c hc hle => absurd (h c hc) hle.not_gt⟩

theorem path_buffer_iff_dev : BufferSafe devVfs 9 [dot, dot, slash, 100, 101, 118]
    { blankNameidata with dentry := 2 } :=
  (path_buffer_iff _ _ _ _ (by decide) (by decide)).mpr (by decide)

def longName : List UInt8 := List.replicate 36 97

/-- A name of 36 bytes: the zero behind it goes to `this.name[36]`. -/
theorem path_buffer_overrun : 0 ∉ longName ∧
    (36, 0) ∈ (linkPathStores devVfs 40 longName { blankNameidata with dentry := 2 }).stores ∧
    ¬ BufferSafe devVfs 40 longName { blankNameidata with dentry := 2 } := by
  have hstore : (36, 0) ∈ (linkPathStores devVfs 40 longName { blankNameidata with dentry := 2 }).stores := by
    decide +kernel
  exact ⟨by decide, hstore, fun h => absurd (h.inside _ hstore) (by decide)⟩

end MiniOS
