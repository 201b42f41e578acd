import MiniOS.ExecveSound

/-!
# The arguments of a new task

As long as the stores stay off the caller's strings, both loops see the same arguments, and what is
stored is the layout of the strings below the end of the page. All of it is in the page exactly if the
arguments fit.
-/

namespace MiniOS

open List

/-! ## What the loops read -/

section
variable {R : Nat → Prop} {m m' : Mem}

def Mem.Keeps (R : Nat → Prop) (m m' : Mem) : Prop := ∀ x, ¬ R (wrap x) → m' (wrap x) = m (wrap x)

variable [DecidablePred R] (hk : m.Keeps R m')
include hk

theorem Mem.Keeps.byte {x : Nat} {b : UInt8} (h : m.without R (wrap x) = some b) : m' (wrap x) = b := by
  unfold Mem.without at h
  split at h
  · cases h
  · next hx => exact (hk x hx).trans (Option.some.inj h)

theorem Mem.Keeps.word {a n : Nat} (h : (m.without R).word a = some n) : m'.word a = n := by
  unfold Bytes.word at h
  simp only [Option.bind_eq_bind, Option.bind_eq_some_iff, Option.pure_def, Option.some.injEq] at h
  obtain ⟨b₀, h₀, b₁, h₁, b₂, h₂, b₃, h₃, rfl⟩ := h
  unfold Mem.word ld32
  dsimp only
  rw [hk.byte h₀, hk.byte h₁, hk.byte h₂, hk.byte h₃]

theorem Mem.Keeps.strlen : ∀ {s : List UInt8} {p fuel : Nat}, (m.without R).IsStr p s → s.length < fuel →
    m'.strlen fuel p = some s.length
  | [], p, fuel + 1, h, _ => by
    rw [Mem.strlen, if_pos (hk.byte h)]
    rfl
  | c :: s, p, fuel + 1, h, hlt => by
    obtain ⟨hc, hb, h⟩ := h
    rw [Mem.strlen, hk.byte hb, if_neg hc, strlen h (Nat.lt_of_succ_lt_succ hlt)]
    rfl

theorem Mem.Keeps.countArgs {len : Nat} : ∀ {args : List (List UInt8)} {a fuel : Nat}, (m.without R).IsArgv a args →
    (∀ s ∈ args, s.length < len) → args.length < fuel → m'.countArgs len fuel a = some (args.length, argSize args)
  | [], a, fuel + 1, h, _, _ => by
    rw [Mem.countArgs, if_pos (hk.word h)]
    rfl
  | s :: args, a, fuel + 1, h, hlen, hlt => by
    obtain ⟨⟨p, hp, hne, hs⟩, h⟩ := h
    rw [Mem.countArgs, hk.word hp, if_neg hne, hk.strlen hs (hlen s (mem_cons_self ..)), Option.bind_some,
      countArgs h (fun s h => hlen s (mem_cons_of_mem _ h)) (Nat.lt_of_succ_lt_succ hlt)]
    rfl

end

theorem Bytes.IsStr.ne_zero {v : Bytes} : ∀ {s : List UInt8} {p : Nat}, v.IsStr p s → ∀ c ∈ s, c ≠ 0
  | [], _, _ => by simp
  | c :: s, p, h => by
    obtain ⟨hc, -, h⟩ := h
    exact forall_mem_cons.mpr ⟨hc, ne_zero h⟩

theorem Bytes.IsArgv.ne_zero {v : Bytes} : ∀ {args : List (List UInt8)} {a : Nat}, v.IsArgv a args →
    ∀ s ∈ args, ∀ c ∈ s, c ≠ 0
  | [], _, _ => by simp
  | s :: args, a, h => by
    obtain ⟨⟨p, -, -, hs⟩, h⟩ := h
    exact forall_mem_cons.mpr ⟨hs.ne_zero, ne_zero h⟩

/-! ## What they store -/

def byteStores : Nat → List UInt8 → List (Nat × UInt8)
  | _, [] => []
  | a, b :: l => (wrap a, b) :: byteStores (a + 1) l

def layout : Nat → Nat → List (List UInt8) → List (Nat × UInt8)
  | _, _, [] => []
  | q, p, s :: l => byteStores q (wordBytes (utemp2ustack p)) ++
    (byteStores p (s ++ [0]) ++ layout (q + 4) (p + s.length + 1) l)

namespace ArgStore

def add (s : ArgStore) (l : List (Nat × UInt8)) : ArgStore := ⟨applyStores s.mem l, s.log ++ l⟩

theorem add_nil (s : ArgStore) : s.add [] = s := by
  unfold add
  rw [append_nil]
  rfl

theorem add_add (s : ArgStore) (l l' : List (Nat × UInt8)) : (s.add l).add l' = s.add (l ++ l') := by
  unfold add
  rw [applyStores_append, append_assoc]

theorem put_eq (s : ArgStore) (a : Nat) (b : UInt8) : s.put a b = s.add [(wrap a, b)] := rfl

theorem putWord_eq (s : ArgStore) (a n : Nat) : s.putWord a n = s.add (byteStores a (wordBytes n)) := by
  unfold putWord
  rw [put_eq, put_eq, put_eq, put_eq, add_add, add_add, add_add]
  rfl

theorem add_stored {s : ArgStore} {l : List (Nat × UInt8)} (hn : (l.map Prod.fst).Nodup) :
    ∀ e ∈ l, (s.add l).mem e.1 = e.2 :=
  fun _ he => applyStores_of_mem hn he

variable {R : Nat → Prop} {m : Mem} {s s' : ArgStore}

theorem keeps_add {l : List (Nat × UInt8)} (hk : m.Keeps R s.mem) (hl : ∀ e ∈ l, R e.1) :
    m.Keeps R (s.add l).mem := by
  intro x hx
  refine (applyStores_of_notMem fun hmem => ?_).trans (hk x hx)
  obtain ⟨e, he, heq⟩ := List.mem_map.mp hmem
  exact hx (heq ▸ hl e he)

theorem keeps_put {a : Nat} {b : UInt8} (hk : m.Keeps R s.mem) (ha : R (wrap a)) : m.Keeps R (s.put a b).mem :=
  keeps_add hk (l := [(wrap a, b)]) (forall_mem_singleton.mpr ha)

theorem strcpy_log : ∀ {fuel dst src : Nat} {s : ArgStore}, s.strcpy fuel dst src = some s' →
    ∀ e ∈ s.log, e ∈ s'.log
  | fuel + 1, dst, src, s, h => by
    intro e he
    unfold strcpy at h
    dsimp only at h
    have he : e ∈ (s.put dst (s.mem (wrap src))).log := mem_append_left _ he
    split at h
    · cases h
      exact he
    · exact strcpy_log h e he

variable [DecidablePred R]

/-- The copy, if it does not store to its source. -/
theorem strcpy_eq : ∀ {str : List UInt8} {fuel dst src : Nat} {s : ArgStore}, (m.without R).IsStr src str →
    m.Keeps R s.mem → (∀ e ∈ byteStores dst (str ++ [0]), R e.1) → str.length < fuel →
    s.strcpy fuel dst src = some (s.add (byteStores dst (str ++ [0])))
  | [], fuel + 1, dst, src, s, h, hk, _, _ => by
    rw [strcpy, hk.byte h]
    rfl
  | c :: str, fuel + 1, dst, src, s, h, hk, hl, hlt => by
    obtain ⟨hc, hb, h⟩ := h
    have hl := forall_mem_cons.mp hl
    rw [strcpy, hk.byte hb, if_neg hc, strcpy_eq h (keeps_put hk hl.1) hl.2 (Nat.lt_of_succ_lt_succ hlt),
      put_eq, add_add]
    rfl

theorem strcpy_inv : ∀ {str : List UInt8} {fuel dst src : Nat} {s : ArgStore}, (m.without R).IsStr src str →
    m.Keeps R s.mem →
    s.strcpy fuel dst src = some s' → (∀ e ∈ s'.log, R e.1) → s' = s.add (byteStores dst (str ++ [0]))
  | [], fuel + 1, dst, src, s, h, hk, hr, _ => by
    rw [strcpy, hk.byte h] at hr
    exact (Option.some.inj hr).symm
  | c :: str, fuel + 1, dst, src, s, h, hk, hr, hl => by
    obtain ⟨hc, hb, h⟩ := h
    rw [strcpy, hk.byte hb, if_neg hc] at hr
    have hd : R (wrap dst) := hl _ (strcpy_log hr _ (mem_append_right _ (mem_singleton_self (wrap dst, c))))
    rw [strcpy_inv h (keeps_put hk hd) hr hl, put_eq, add_add]
    rfl

end ArgStore

section
variable {R : Nat → Prop} [DecidablePred R] {m : Mem} {fuel argv q : Nat} {s' : ArgStore}

open ArgStore

theorem storeStrings_log : ∀ {n i p : Nat} {s : ArgStore}, storeStrings fuel argv q n i p s = some s' →
    ∀ e ∈ s.log, e ∈ s'.log
  | 0, _, _, s, h => by
    cases h
    exact fun e he => he
  | n + 1, i, p, s, h => by
    intro e he
    simp only [storeStrings, Option.bind_eq_some_iff] at h
    obtain ⟨s₁, hcopy, len, -, h⟩ := h
    refine storeStrings_log h e (strcpy_log hcopy e ?_)
    rw [putWord_eq]
    exact mem_append_left _ he

theorem storeStrings_eq : ∀ {args : List (List UInt8)} {i p : Nat}
    {s : ArgStore}, (m.without R).IsArgv (argv + 4 * i) args →
    m.Keeps R s.mem → (∀ e ∈ layout (q + 4 * i) p args, R e.1) → (∀ s ∈ args, s.length < fuel) →
    storeStrings fuel argv q args.length i p s = some (s.add (layout (q + 4 * i) p args))
  | [], i, p, s, _, _, _, _ => by
    rw [layout, add_nil]
    rfl
  | str :: args, i, p, s, h, hk, hl, hlen => by
    obtain ⟨⟨src, hsrc, -, hstr⟩, h⟩ := h
    rw [layout, forall_mem_append, forall_mem_append] at hl
    obtain ⟨hword, hcopy, hrest⟩ := hl
    rw [length_cons, storeStrings, putWord_eq]
    have hk₁ := keeps_add hk hword
    have hk₂ := keeps_add hk₁ hcopy
    have hlt := hlen str (mem_cons_self ..)
    rw [hk₁.word hsrc, strcpy_eq hstr hk₁ hcopy hlt, Option.bind_some, hk₂.word hsrc, hk₂.strlen hstr hlt,
      Option.bind_some, storeStrings_eq h hk₂ hrest fun s h => hlen s (mem_cons_of_mem _ h), add_add, add_add]
    rfl

theorem storeStrings_inv : ∀ {args : List (List UInt8)} {i p : Nat}
    {s : ArgStore}, (m.without R).IsArgv (argv + 4 * i) args →
    m.Keeps R s.mem → (∀ s ∈ args, s.length < fuel) → storeStrings fuel argv q args.length i p s = some s' →
    (∀ e ∈ s'.log, R e.1) → s' = s.add (layout (q + 4 * i) p args)
  | [], i, p, s, _, _, _, hr, _ => by
    rw [layout, add_nil]
    exact (Option.some.inj hr).symm
  | str :: args, i, p, s, h, hk, hlen, hr, hl => by
    obtain ⟨⟨src, hsrc, -, hstr⟩, h⟩ := h
    have hlt := hlen str (mem_cons_self ..)
    simp only [length_cons, storeStrings, putWord_eq, Option.bind_eq_some_iff] at hr
    obtain ⟨s₁, hcopy, len, hstrlen, hr⟩ := hr
    -- what is in the log by now is in `R`, so the source is as it was
    have hl₁ : ∀ e ∈ s₁.log, R e.1 := fun e he => hl e (storeStrings_log hr e he)
    have hword : ∀ e ∈ byteStores (q + 4 * i) (wordBytes (utemp2ustack p)), R e.1 := fun e he =>
      hl₁ e (strcpy_log hcopy e (mem_append_right _ he))
    have hk₁ := keeps_add hk hword
    rw [hk₁.word hsrc] at hcopy
    obtain rfl := strcpy_inv hstr hk₁ hcopy hl₁
    have hk₂ := keeps_add hk₁ fun e he => hl₁ e (mem_append_right _ he)
    rw [hk₂.word hsrc, hk₂.strlen hstr hlt, Option.some.injEq] at hstrlen
    subst hstrlen
    rw [storeStrings_inv h hk₂ (fun s h => hlen s (mem_cons_of_mem _ h)) hr hl, add_add, add_add]
    rfl

end

def stringStore (args : List (List UInt8)) : Nat := wsub (userTempBott + pageSize) (argSize args)

def argvStore (args : List (List UInt8)) : Nat := wsub (roundDown (stringStore args) 4) (4 * (args.length + 1))

def frameStores (args : List (List UInt8)) : List (Nat × UInt8) :=
  layout (argvStore args) (stringStore args) args ++ (byteStores (argvStore args + 4 * args.length) (wordBytes 0) ++
    (byteStores (wsub (argvStore args) 4) (wordBytes (utemp2ustack (argvStore args))) ++
      byteStores (wsub (argvStore args) 8) (wordBytes args.length)))

theorem mem_frameStores {args : List (List UInt8)} {e : Nat × UInt8}
    (h : e ∈ layout (argvStore args) (stringStore args) args) : e ∈ frameStores args := by
  unfold frameStores
  exact mem_append_left _ h

section
variable {R : Nat → Prop} [DecidablePred R] {m : Mem} {fuel argv : Nat} {args : List (List UInt8)}
  (hR : ∀ a, InTemp a → R a) (hargs : (m.without R).IsArgv argv args)

open ArgStore

omit [DecidablePred R] in
theorem keeps_clear (hR : ∀ a, InTemp a → R a) : m.Keeps R (m.clear userTempBott pageSize) := by
  intro x hx
  unfold Mem.clear
  rw [if_neg]
  intro hlt
  refine hx (hR _ ?_)
  unfold wsub wrap userTempBott pageSize at hlt
  unfold InTemp userTempBott pageSize wrap
  omega

theorem argSize_cons (s : List UInt8) (args : List (List UInt8)) :
    argSize (s :: args) = s.length + 1 + argSize args := by
  unfold argSize
  rw [map_cons, sum_cons]

theorem length_lt_argSize : ∀ {args : List (List UInt8)}, ∀ s ∈ args, s.length < argSize args
  | t :: args, s, h => by
    rw [argSize_cons]
    rcases mem_cons.mp h with rfl | h
    · omega
    · exact Nat.lt_of_lt_of_le (length_lt_argSize s h) (by omega)

include hR hargs

theorem storeArgs_eq (hfuel : args.length + argSize args < fuel)
    (hl : ∀ e ∈ layout (argvStore args) (stringStore args) args, R e.1) :
    storeArgs m fuel argv = some ((⟨m.clear userTempBott pageSize, []⟩ : ArgStore).add (frameStores args),
      utemp2ustack (wsub (argvStore args) 8)) := by
  have hk := keeps_clear (m := m) hR
  have hlen : ∀ s ∈ args, s.length < fuel := fun s h => Nat.lt_of_lt_of_le (length_lt_argSize s h) (by omega)
  unfold storeArgs
  dsimp only
  generalize m.clear userTempBott pageSize = m₀ at hk ⊢
  have hrun : storeStrings fuel argv (argvStore args) args.length 0 (stringStore args) ⟨m₀, []⟩ = some _ :=
    storeStrings_eq (i := 0) hargs hk hl hlen
  rw [hk.countArgs hargs hlen (by omega), Option.bind_some]
  rw [← stringStore, ← argvStore, hrun, Option.map_some]
  simp only [putWord_eq, add_add]
  unfold frameStores
  simp only [append_assoc, Nat.mul_zero, Nat.add_zero]

theorem storeArgs_inv {s : ArgStore} {esp : Nat} (hfuel : args.length + argSize args < fuel)
    (h : storeArgs m fuel argv = some (s, esp)) (hl : ∀ e ∈ s.log, R e.1) : s.log = frameStores args := by
  have hk := keeps_clear (m := m) hR
  have hlen : ∀ s ∈ args, s.length < fuel := fun s h => Nat.lt_of_lt_of_le (length_lt_argSize s h) (by omega)
  unfold storeArgs at h
  dsimp only at h
  generalize m.clear userTempBott pageSize = m₀ at hk h
  rw [hk.countArgs hargs hlen (by omega), Option.bind_some] at h
  rw [← stringStore, ← argvStore] at h
  simp only [putWord_eq, add_add, Option.map_eq_some_iff, Prod.mk.injEq] at h
  obtain ⟨s₁, hs₁, rfl, -⟩ := h
  have hs₁ := storeStrings_inv (i := 0) hargs hk hlen hs₁ fun e he => hl e (mem_append_left _ he)
  subst hs₁
  unfold frameStores
  simp only [add, append_assoc, nil_append, Nat.mul_zero, Nat.add_zero]

end

/-! ## Where they store -/

def Span (p n x : Nat) : Prop := ∃ k < n, x = wrap (p + k)

theorem span_zero (p x : Nat) : ¬ Span p 0 x := fun ⟨_, hk, _⟩ => Nat.not_lt_zero _ hk

theorem span_add (p n n' x : Nat) : Span p (n + n') x ↔ Span p n x ∨ Span (p + n) n' x := by
  constructor
  · intro h
    obtain ⟨k, hk, rfl⟩ := h
    by_cases hlt : k < n
    · exact .inl ⟨k, hlt, rfl⟩
    · exact .inr ⟨k - n, by omega, by congr 1; omega⟩
  · intro h
    rcases h with ⟨k, hk, rfl⟩ | ⟨k, hk, rfl⟩
    · exact ⟨k, by omega, rfl⟩
    · exact ⟨n + k, by omega, by rw [Nat.add_assoc]⟩

theorem span_congr {p p' : Nat} (h : wrap p = wrap p') (n x : Nat) : Span p n x ↔ Span p' n x := by
  have hk : ∀ k, wrap (p + k) = wrap (p' + k) := fun k => by
    unfold wrap at *
    omega
  unfold Span
  simp only [hk]

theorem span_iff {p n x : Nat} (h : p + n ≤ 2 ^ 32) : Span p n x ↔ p ≤ x ∧ x < p + n := by
  constructor
  · intro hx
    obtain ⟨k, hk, rfl⟩ := hx
    rw [wrap_of_lt (by omega)]
    omega
  · intro hx
    exact ⟨x - p, by omega, by rw [wrap_of_lt (by omega)]; omega⟩

theorem span_inTemp {p n : Nat} (hp : p < 2 ^ 32) :
    (∀ x, Span p n x → InTemp x) ↔ n = 0 ∨ (userTempBott ≤ p ∧ p + n ≤ userTempBott + pageSize) := by
  unfold InTemp
  constructor
  · intro h
    refine Classical.byContradiction fun hno => ?_
    have hfirst := h _ ⟨0, by omega, rfl⟩
    rw [Nat.add_zero, wrap_of_lt hp] at hfirst
    -- the first address that is behind the page
    have hbad := h _ ⟨userTempBott + pageSize - p, by omega, rfl⟩
    unfold wrap userTempBott pageSize at *
    omega
  · intro h x hx
    obtain ⟨k, hk, rfl⟩ := hx
    unfold wrap userTempBott pageSize at *
    omega

theorem byteStores_span : ∀ {l : List UInt8} {p x : Nat}, x ∈ (byteStores p l).map Prod.fst ↔ Span p l.length x
  | [], p, x => by simp [byteStores, span_zero]
  | b :: l, p, x => by
    rw [byteStores, map_cons, mem_cons, byteStores_span, length_cons, Nat.add_comm l.length, span_add]
    refine or_congr_left ⟨fun h => ⟨0, Nat.one_pos, h⟩, fun h => ?_⟩
    obtain ⟨k, hk, rfl⟩ := h
    obtain rfl : k = 0 := by omega
    rfl

theorem layout_span : ∀ {args : List (List UInt8)} {q p x : Nat}, x ∈ (layout q p args).map Prod.fst ↔
    Span q (4 * args.length) x ∨ Span p (argSize args) x
  | [], q, p, x => by simp [layout, argSize, span_zero]
  | s :: args, q, p, x => by
    rw [layout, map_append, map_append, mem_append, mem_append, byteStores_span, byteStores_span,
      layout_span, length_cons, Nat.mul_succ, Nat.add_comm (4 * args.length), span_add, argSize_cons, span_add p]
    simp only [wordBytes, length_append, length_cons, length_nil, Nat.zero_add, Nat.add_assoc]
    tauto

theorem frameStores_span {args : List (List UInt8)} {x : Nat} : x ∈ (frameStores args).map Prod.fst ↔
    Span (wsub (argvStore args) 8) (4 * (args.length + 3)) x ∨ Span (stringStore args) (argSize args) x := by
  unfold frameStores
  generalize argvStore args = q
  generalize stringStore args = p
  have hsum : 4 * (args.length + 3) = 4 + (4 + (4 * args.length + 4)) := by omega
  have hargc : wrap (wsub q 8 + 4) = wrap (wsub q 4) := by
    unfold wsub wrap
    omega
  have hargv : wrap (wsub q 8 + 4 + 4) = wrap q := by
    unfold wsub wrap
    omega
  have hnull : wrap (wsub q 8 + 4 + 4 + 4 * args.length) = wrap (q + 4 * args.length) := by
    unfold wsub wrap
    omega
  rw [hsum, span_add, span_add, span_add, span_congr hargc, span_congr hargv, span_congr hnull]
  simp only [map_append, mem_append, byteStores_span, layout_span]
  simp only [wordBytes, length_cons, length_nil, Nat.zero_add]
  simp only [or_assoc, or_comm]

/-- Inside the page nothing wraps. -/
theorem frame_fits {size argc p q : Nat} (hp : p = wsub (userTempBott + pageSize) size)
    (hq : q = wsub (wsub (roundDown p 4) (4 * (argc + 1))) 8) :
    ((4 * (argc + 3) = 0 ∨ (userTempBott ≤ q ∧ q + 4 * (argc + 3) ≤ userTempBott + pageSize)) ∧
      (size = 0 ∨ (userTempBott ≤ p ∧ p + size ≤ userTempBott + pageSize))) ↔
      4 * (argc + 3) ≤ roundDown (pageSize - size) 4 := by
  unfold wsub roundDown wrap userTempBott pageSize at *
  omega

/-- The stores are in the page if and only if the arguments fit. -/
theorem frameStores_inTemp (args : List (List UInt8)) : (∀ e ∈ frameStores args, InTemp e.1) ↔ ArgsFit args := by
  have hkeys : (∀ e ∈ frameStores args, InTemp e.1) ↔ ∀ x, x ∈ (frameStores args).map Prod.fst → InTemp x :=
    List.forall_mem_map.symm
  rw [hkeys]
  simp only [frameStores_span, or_imp, forall_and]
  have hq : wsub (argvStore args) 8 < 2 ^ 32 := wrap_lt _
  have hp : stringStore args < 2 ^ 32 := wrap_lt _
  rw [span_inTemp hq, span_inTemp hp]
  exact frame_fits rfl rfl

/-! ## Reading the stack -/

theorem byteStores_nodup : ∀ {l : List UInt8} {p : Nat}, p + l.length ≤ 2 ^ 32 →
    ((byteStores p l).map Prod.fst).Nodup
  | [], _, _ => nodup_nil
  | b :: l, p, h => by
    rw [length_cons] at h
    rw [byteStores, map_cons, nodup_cons, byteStores_span, span_iff (by omega)]
    refine ⟨fun hp => ?_, byteStores_nodup (by omega)⟩
    rw [wrap_of_lt (by omega)] at hp
    omega

theorem layout_nodup : ∀ {args : List (List UInt8)} {q p : Nat}, q + 4 * args.length ≤ p →
    p + argSize args ≤ 2 ^ 32 → ((layout q p args).map Prod.fst).Nodup
  | [], _, _, _, _ => nodup_nil
  | s :: args, q, p, hqp, hp => by
    rw [length_cons] at hqp
    rw [argSize_cons] at hp
    have hword : (wordBytes (utemp2ustack p)).length = 4 := rfl
    have hstr : (s ++ [0]).length = s.length + 1 := length_append
    rw [layout, map_append, map_append]
    -- the pointer is below the strings, and the string is before the others
    refine (byteStores_nodup (by omega)).append
      ((byteStores_nodup (by omega)).append (layout_nodup (by omega) (by omega)) ?_) ?_
    · intro x hx hx'
      rw [byteStores_span, hstr, span_iff (by omega)] at hx
      rw [layout_span, span_iff (by omega), span_iff (by omega)] at hx'
      omega
    · intro x hx hx'
      rw [byteStores_span, hword, span_iff (by omega)] at hx
      rw [mem_append, byteStores_span, hstr, layout_span, span_iff (by omega), span_iff (by omega),
        span_iff (by omega)] at hx'
      omega

/-- The places of arguments that fit. -/
theorem ArgsFit.places {args : List (List UInt8)} (h : ArgsFit args) : userTempBott + 8 ≤ argvStore args ∧
    argvStore args + 4 * args.length + 4 ≤ stringStore args ∧
    stringStore args + argSize args = userTempBott + pageSize := by
  unfold ArgsFit at h
  unfold argvStore stringStore
  generalize argSize args = size at *
  generalize args.length = argc at *
  unfold wsub roundDown wrap userTempBott pageSize at *
  omega

theorem frameStores_nodup {args : List (List UInt8)} (h : ArgsFit args) :
    ((frameStores args).map Prod.fst).Nodup := by
  obtain ⟨hbott, hnull, htop⟩ := h.places
  have hlt : stringStore args + argSize args ≤ 2 ^ 32 := by
    rw [htop]
    decide
  unfold frameStores
  generalize argvStore args = q at *
  generalize stringStore args = p at *
  have hq : 8 ≤ q := Nat.le_trans (Nat.le_add_left ..) hbott
  rw [wsub_of_le (by omega) (by omega), wsub_of_le (by omega) (by omega)]
  have hword : ∀ n, (wordBytes n).length = 4 := fun _ => rfl
  simp only [map_append]
  refine (layout_nodup (by omega) hlt).append
    ((byteStores_nodup ?_).append ((byteStores_nodup ?_).append (byteStores_nodup ?_) ?_) ?_) ?_
  · rw [hword]
    omega
  · rw [hword]
    omega
  · rw [hword]
    omega
  · intro x hx hx'
    rw [byteStores_span, hword, span_iff (by omega)] at hx hx'
    omega
  · intro x hx hx'
    simp only [mem_append] at hx'
    rw [byteStores_span, hword, span_iff (by omega)] at hx
    rw [byteStores_span, byteStores_span, hword, hword, span_iff (by omega), span_iff (by omega)] at hx'
    omega
  · intro x hx hx'
    simp only [mem_append] at hx'
    rw [layout_span, span_iff (by omega), span_iff (by omega)] at hx
    rw [byteStores_span, byteStores_span, byteStores_span, hword, hword, hword, span_iff (by omega),
      span_iff (by omega), span_iff (by omega)] at hx'
    omega

/-! A page in which the stores are found again -/

section
variable {m : Mem}

theorem utemp2ustack_lt (a : Nat) : utemp2ustack a < 2 ^ 32 := wrap_lt _

theorem wrap_utemp2ustack {a p : Nat} (h : wrap a = utemp2ustack p) (k : Nat) :
    wrap (a + k) = utemp2ustack (p + k) := by
  unfold utemp2ustack wsub wrap userStackTop pageSize userTempBott at *
  omega

theorem stackBytes_eq {a : Nat} (h : InTemp a) : stackBytes m (utemp2ustack a) = some (m a) := by
  have heq : utemp2ustack a = a - pageSize := by
    unfold InTemp userTempBott pageSize at h
    unfold utemp2ustack wsub wrap userStackTop pageSize userTempBott
    omega
  have hin : userStackTop - pageSize ≤ a - pageSize ∧ a - pageSize < userStackTop := by
    unfold InTemp userTempBott pageSize at h
    unfold userStackTop pageSize
    omega
  have hback : a - pageSize - (userStackTop - pageSize) + userTempBott = a := by
    unfold InTemp userTempBott pageSize at h
    unfold userStackTop pageSize userTempBott
    omega
  unfold stackBytes
  rw [heq, if_pos hin, hback]

theorem stackBytes_stored {a p k : Nat} {b : UInt8} (ha : wrap a = utemp2ustack p) (hin : InTemp (p + k))
    (hm : m (wrap (p + k)) = b) : stackBytes m (wrap (a + k)) = some b := by
  have hlt : p + k < 2 ^ 32 := by
    unfold InTemp userTempBott pageSize at hin
    omega
  rw [wrap_of_lt hlt] at hm
  rw [wrap_utemp2ustack ha k, stackBytes_eq hin, hm]

theorem word_stored {a q n : Nat} (ha : wrap a = utemp2ustack q) (hn : n < 2 ^ 32) (hin : ∀ k < 4, InTemp (q + k))
    (hm : ∀ e ∈ byteStores q (wordBytes n), m e.1 = e.2) : (stackBytes m).word a = some n := by
  simp only [wordBytes, byteStores, forall_mem_cons, not_mem_nil, false_implies, implies_true, and_true] at hm
  obtain ⟨h₀, h₁, h₂, h₃⟩ := hm
  have h₀ := stackBytes_stored (k := 0) ha (hin 0 (by decide)) h₀
  have h₁ := stackBytes_stored (k := 1) ha (hin 1 (by decide)) h₁
  have h₂ := stackBytes_stored (k := 2) ha (hin 2 (by decide)) h₂
  have h₃ := stackBytes_stored (k := 3) ha (hin 3 (by decide)) h₃
  unfold Bytes.word
  rw [Nat.add_zero] at h₀
  simp only [h₀, h₁, h₂, h₃, Option.bind_eq_bind, Option.bind_some, Option.pure_def, UInt8.toNat_ofNat',
    Option.some.injEq]
  omega

theorem isStr_stored : ∀ {s : List UInt8} {a p : Nat}, wrap a = utemp2ustack p → (∀ c ∈ s, c ≠ 0) →
    (∀ k < s.length + 1, InTemp (p + k)) → (∀ e ∈ byteStores p (s ++ [0]), m e.1 = e.2) → (stackBytes m).IsStr a s
  | [], a, p, ha, _, hin, hm => stackBytes_stored (k := 0) ha (hin 0 (Nat.succ_pos _)) (hm _ (mem_cons_self ..))
  | c :: s, a, p, ha, hc, hin, hm => by
    have hc := forall_mem_cons.mp hc
    have hm := forall_mem_cons.mp hm
    have hfirst := stackBytes_stored (k := 0) ha (hin 0 (Nat.succ_pos _)) hm.1
    rw [Nat.add_zero] at hfirst
    have hrest : ∀ k < s.length + 1, InTemp (p + 1 + k) := fun k hk => by
      rw [Nat.add_assoc]
      exact hin _ (by rw [length_cons]; omega)
    exact ⟨hc.1, hfirst, isStr_stored (wrap_utemp2ustack ha 1) hc.2 hrest hm.2⟩

theorem isArgv_stored : ∀ {args : List (List UInt8)} {a q p : Nat}, wrap a = utemp2ustack q →
    (∀ s ∈ args, ∀ c ∈ s, c ≠ 0) → (∀ k < 4 * args.length + 4, InTemp (q + k)) →
    (∀ k < argSize args, InTemp (p + k)) →
    (∀ e ∈ layout q p args, m e.1 = e.2) → (∀ e ∈ byteStores (q + 4 * args.length) (wordBytes 0), m e.1 = e.2) →
    (stackBytes m).IsArgv a args
  | [], a, q, p, ha, _, hq, _, _, hnull => word_stored ha (by decide) hq hnull
  | s :: args, a, q, p, ha, hc, hq, hp, hm, hnull => by
    have hc := forall_mem_cons.mp hc
    rw [layout, forall_mem_append, forall_mem_append] at hm
    obtain ⟨hword, hstr, hrest⟩ := hm
    rw [argSize_cons] at hp
    rw [length_cons] at hq hnull
    have hp₀ : InTemp (p + 0) := hp 0 (by omega)
    refine ⟨⟨_, word_stored ha (utemp2ustack_lt p) (fun k hk => hq k (by omega)) hword, ?_,
      isStr_stored (wrap_of_lt (utemp2ustack_lt p)) hc.1 (fun k hk => hp k (by omega)) hstr⟩,
      isArgv_stored (p := p + s.length + 1) (wrap_utemp2ustack ha 4) hc.2 (fun k hk => ?_)
      (fun k hk => ?_) hrest ?_⟩
    · unfold InTemp userTempBott pageSize at hp₀
      unfold utemp2ustack wsub wrap userStackTop pageSize userTempBott
      omega
    · rw [Nat.add_assoc]
      exact hq _ (by omega)
    · rw [Nat.add_assoc, Nat.add_assoc]
      exact hp _ (by omega)
    · have heq : q + 4 + 4 * args.length = q + 4 * (args.length + 1) := by omega
      rw [heq]
      exact hnull

end

/-- The new task finds the arguments behind its stack pointer. -/
theorem frame_read {args : List (List UInt8)} {m : Mem} (h : ArgsFit args) (hc : ∀ s ∈ args, ∀ c ∈ s, c ≠ 0)
    (hm : ∀ e ∈ frameStores args, m e.1 = e.2) {esp : Nat} (hesp : esp = utemp2ustack (wsub (argvStore args) 8)) :
    (stackBytes m).word esp = some args.length ∧ (stackBytes m).word (esp + 4) = some (wrap (esp + 8)) ∧
      (stackBytes m).IsArgv (esp + 8) args := by
  obtain ⟨hbott, hnull, htop⟩ := h.places
  have hin : ∀ x, userTempBott ≤ x → x < stringStore args + argSize args → InTemp x :=
    fun x h₁ h₂ => ⟨h₁, htop ▸ h₂⟩
  have hargc : args.length < 2 ^ 32 := by
    unfold ArgsFit roundDown pageSize at h
    omega
  unfold frameStores at hm
  generalize argvStore args = q at *
  generalize stringStore args = p at *
  simp only [forall_mem_append] at hm
  obtain ⟨hlayout, hzero, hargv, hcount⟩ := hm
  have hlt : q < 2 ^ 32 := by
    unfold userTempBott pageSize at htop
    omega
  rw [wsub_of_le (by omega) hlt] at hargv hcount hesp
  have hw : wrap esp = utemp2ustack (q - 8) := by
    rw [hesp]
    exact wrap_of_lt (utemp2ustack_lt _)
  have hw₄ := wrap_utemp2ustack hw 4
  have hw₈ := wrap_utemp2ustack hw 8
  have hq₄ : q - 8 + 4 = q - 4 := by omega
  have hq₈ : q - 8 + 8 = q := by omega
  rw [hq₄] at hw₄
  rw [hq₈] at hw₈
  refine ⟨word_stored hw hargc (fun k hk => hin _ ?_ ?_) hcount, ?_, ?_⟩
  · omega
  · omega
  · rw [hw₈]
    refine word_stored hw₄ (utemp2ustack_lt q) (fun k hk => hin _ ?_ ?_) hargv
    · omega
    · omega
  · refine isArgv_stored hw₈ hc (fun k hk => hin _ ?_ ?_) (fun k hk => hin _ ?_ ?_) hlayout hzero
    · omega
    · omega
    · omega
    · omega

/-! ## The call -/

section
variable {s s' : Machine} {mem : TaskMem} {old : Task} {retval : Int} {inode : Nat}
  (hprep : s.prepare mem old retval inode = .ok s')
include hprep

theorem execve_running {argv fuel : Nat} (h : storeArgs s'.mem fuel argv = none) :
    s.execve mem old retval inode argv fuel = .running := by
  unfold Machine.execve
  rw [hprep]
  dsimp only
  rw [h]

theorem execve_ret {argv fuel : Nat} {r : ArgStore × Nat} (h : storeArgs s'.mem fuel argv = some r) :
    s.execve mem old retval inode argv fuel =
      .ret (s'.kernel.sched.task mem.task).pid { s' with mem := r.1.mem } (some r) := by
  unfold Machine.execve
  rw [hprep]
  dsimp only
  rw [h]

end

/-- **The arguments arrive**, and every store is in the new page, if and only if they fit into it. -/
theorem execve_args_iff {s s' : Machine} {mem : TaskMem} {old : Task} {retval : Int} {inode argv : Nat}
    {args : List (List UInt8)} (hprep : s.prepare mem old retval inode = .ok s')
    (hargs : (s'.mem.without InTemp).IsArgv argv args) :
    (∃ N, ∀ fuel ≥ N, (s.execve mem old retval inode argv fuel).Passes args) ↔ ArgsFit args := by
  constructor
  · intro h
    obtain ⟨N, hN⟩ := h
    have hpass := hN (N + args.length + argSize args + 1) (by omega)
    cases hst : storeArgs s'.mem (N + args.length + argSize args + 1) argv with
    | none =>
      rw [execve_running hprep hst] at hpass
      exact hpass.elim
    | some r =>
      rw [execve_ret hprep hst] at hpass
      have hlog := storeArgs_inv (fun _ h => h) hargs (by omega) hst hpass.1
      exact (frameStores_inTemp args).mp (hlog ▸ hpass.1)
  · intro h
    have hin := (frameStores_inTemp args).mpr h
    refine ⟨args.length + argSize args + 1, fun fuel hfuel => ?_⟩
    have hst := storeArgs_eq (fun _ h => h) hargs hfuel fun e he => hin e (mem_frameStores he)
    generalize hst' : ArgStore.add _ (frameStores args) = st at hst
    generalize hesp : utemp2ustack _ = esp at hst
    have hlog : st.log = frameStores args := by
      rw [← hst', ArgStore.add, nil_append]
    have hmem : ∀ e ∈ frameStores args, st.mem e.1 = e.2 := by
      rw [← hst']
      exact ArgStore.add_stored (frameStores_nodup h)
    rw [execve_ret hprep hst]
    exact ⟨hlog ▸ hin, frame_read h hargs.ne_zero hmem hesp.symm⟩

/-! ## Small machines -/

/-- The string of `tinyMachine`, in a view of its memory. -/
theorem isStr_getD {v : Bytes} : ∀ {s : List UInt8} {p : Nat}, (∀ c ∈ s, c ≠ 0) →
    (∀ k ≤ s.length, v (wrap (p + k)) = some (s.getD k 0)) → v.IsStr p s
  | [], p, _, h => h 0 (Nat.le_refl 0)
  | c :: s, p, hc, h => by
    have hc := forall_mem_cons.mp hc
    refine ⟨hc.1, h 0 (Nat.zero_le _), isStr_getD hc.2 fun k hk => ?_⟩
    rw [Nat.add_assoc, Nat.add_comm 1]
    exact h (k + 1) (Nat.succ_le_succ hk)

theorem tinyMachine_args {file arg : List UInt8} {s' : Machine}
    (h : (tinyMachine file arg).prepare secondMem blankTask 0 1 = .ok s') (hc : ∀ c ∈ arg, c ≠ 0)
    (hlen : arg.length < 0x10000)
    {R : Nat → Prop} [DecidablePred R] (hR : ∀ x < 0x20000, ¬ R x) : (s'.mem.without R).IsArgv 0x9000 [arg] := by
  have hlow : ∀ x < 0x20000, s'.mem.without R x = some ((tinyMachine file arg).mem x) := fun x hx => by
    unfold Mem.without
    rw [if_neg (hR x hx), Machine.prepare_mem h (hx.trans_le (by decide))]
  have hword : ∀ a < 0x10000, (s'.mem.without R).word a = some ((tinyMachine file arg).mem.word a) := fun a ha => by
    have hb : ∀ k < 4, s'.mem.without R (wrap (a + k)) = some ((tinyMachine file arg).mem (wrap (a + k))) :=
        fun k hk =>
      hlow _ (by rw [wrap_of_lt (by omega)]; omega)
    have hb₀ := hb 0 (by decide)
    rw [Nat.add_zero] at hb₀
    unfold Bytes.word Mem.word ld32
    rw [hb₀, hb 1 (by decide), hb 2 (by decide), hb 3 (by decide)]
    simp only [Option.bind_eq_bind, Option.bind_some, Option.pure_def]
  have hfirst : (tinyMachine file arg).mem.word 0x9000 = 0xA000 := by simp [Mem.word, ld32, tinyMachine,
    wrap, wordBytes]
  have hnull : (tinyMachine file arg).mem.word (0x9000 + 4) = 0 := by simp [Mem.word, ld32, tinyMachine,
    wrap, wordBytes]
  refine ⟨⟨0xA000, (hword _ (by decide)).trans (congrArg some hfirst), by decide, isStr_getD hc fun k hk => ?_⟩,
    (hword _ (by decide)).trans (congrArg some hnull)⟩
  rw [wrap_of_lt (by omega), hlow _ (by omega)]
  unfold tinyMachine
  dsimp only
  rw [if_neg (by omega), if_pos (by omega), Nat.add_sub_cancel_left]

theorem execve_args_iff_tiny :
    ∃ N, ∀ fuel ≥ N, ((tinyMachine (tinyElf 0 0x800000 84 0x1000) [108, 115]).execve secondMem
    blankTask 0 1 0x9000 fuel).Passes [[108, 115]] := by
  have hok :
      ((tinyMachine (tinyElf 0 0x800000 84 0x1000) [108, 115]).prepare secondMem blankTask 0 1).isOk = true := by
    decide +kernel
  cases h : (tinyMachine (tinyElf 0 0x800000 84 0x1000) [108, 115]).prepare secondMem blankTask 0 1 with
  | error e =>
    rw [h] at hok
    cases hok
  | ok s' =>
    have hin : ∀ x < 0x20000, ¬ InTemp x := fun x hx hin => Nat.not_lt.mpr hin.1 (hx.trans_le (by decide))
    exact (execve_args_iff h (tinyMachine_args h (by simp) (by simp) hin)).mpr (by decide)

def NearTemp (a : Nat) : Prop := userTempBott - pageSize ≤ a ∧ a < userTempBott + pageSize

instance : DecidablePred NearTemp := fun _ => inferInstanceAs (Decidable (_ ∧ _))

/-- One string of 4090 bytes: the array and the words before it are stored below the page. -/
theorem storeArgs_below {m : Mem} {arg : List UInt8} {argv fuel : Nat} (hlen : arg.length = 4090)
    (hargs : (m.without NearTemp).IsArgv argv [arg]) (hfuel : 4092 < fuel) :
    ∃ st esp, storeArgs m fuel argv = some (st, esp) ∧ userTempBott - 12 ∈ st.log.map Prod.fst := by
  have hsize : argSize [arg] = 4091 := by
    rw [argSize_cons, hlen]
    rfl
  have hp : stringStore [arg] = userTempBott + 5 := by
    rw [stringStore, hsize]
    decide
  have hq : argvStore [arg] = userTempBott - 4 := by
    rw [argvStore, hp, length_singleton]
    decide
  have hnear : ∀ e ∈ layout (argvStore [arg]) (stringStore [arg]) [arg], NearTemp e.1 := fun e he => by
    have hspan := layout_span.mp (List.mem_map_of_mem he)
    rw [hp, hq, hsize, length_singleton, span_iff (by decide), span_iff (by decide)] at hspan
    unfold NearTemp
    unfold userTempBott pageSize at *
    omega
  have hst := storeArgs_eq (fun a ha => ⟨Nat.le_trans (Nat.sub_le ..) ha.1, ha.2⟩) hargs
    (by rw [hsize, length_singleton]; exact hfuel) hnear
  refine ⟨_, _, hst, ?_⟩
  rw [ArgStore.add, nil_append, frameStores_span, hq, length_singleton]
  exact .inl ⟨0, by decide, by decide⟩

/-- A string of 4090 bytes: `execve` returns the pid 1, and has stored below the page. -/
theorem execve_args_overflow : ∃ s',
    (tinyMachine (tinyElf 0 0x800000 84 0x1000) (List.replicate 4090 97)).prepare secondMem blankTask 0 1 = .ok s' ∧
    (s'.mem.without InTemp).IsArgv 0x9000 [List.replicate 4090 97] ∧
    ∃ N, ∀ fuel ≥ N, ∃ s'' st esp,
    (tinyMachine (tinyElf 0 0x800000 84 0x1000) (List.replicate 4090 97)).execve secondMem
        blankTask 0 1 0x9000 fuel = .ret 1 s'' (some (st, esp)) ∧ userTempBott - 12 ∈ st.log.map Prod.fst ∧
      ¬ (ExecEnd.ret 1 s'' (some (st, esp))).Passes [List.replicate 4090 97] := by
  have hok : ((tinyMachine (tinyElf 0 0x800000 84 0x1000) (List.replicate 4090 97)).prepare
      secondMem blankTask 0 1).toOption.map (fun s => (s.kernel.sched.task secondMem.task).pid) = some 1 := by
    decide +kernel
  have hlen : (List.replicate 4090 (97 : UInt8)).length = 4090 := length_replicate
  have hc : ∀ c ∈ List.replicate 4090 (97 : UInt8), c ≠ 0 := fun c hc => eq_of_mem_replicate hc ▸ by decide
  generalize List.replicate 4090 (97 : UInt8) = arg at *
  cases h : (tinyMachine (tinyElf 0 0x800000 84 0x1000) arg).prepare secondMem blankTask 0 1 with
  | error e =>
    rw [h] at hok
    cases hok
  | ok s' =>
    rw [h] at hok
    have hpid : (s'.kernel.sched.task secondMem.task).pid = 1 := Option.some.inj hok
    have hlow : ∀ x < 0x20000, ¬ NearTemp x :=
      fun x hx hin => Nat.not_lt.mpr hin.1 (hx.trans_le (by decide))
    have hin : ∀ x < 0x20000, ¬ InTemp x := fun x hx hin => hlow x hx ⟨Nat.le_trans (Nat.sub_le ..) hin.1, hin.2⟩
    have hargs {R : Nat → Prop} [DecidablePred R] (hR : ∀ x < 0x20000, ¬ R x) :
        (s'.mem.without R).IsArgv 0x9000 [arg] :=
      tinyMachine_args h hc (by omega) hR
    refine ⟨s', rfl, hargs hin, 4093, fun fuel hfuel => ?_⟩
    obtain ⟨st, esp, hst, hbelow⟩ := storeArgs_below hlen (hargs hlow) hfuel
    refine ⟨_, st, esp, hpid ▸ execve_ret h hst, hbelow, fun hpass => ?_⟩
    obtain ⟨e, he, heq⟩ := List.mem_map.mp hbelow
    have hbad := (hpass.1 e he).1
    rw [heq] at hbad
    exact absurd hbad (by decide)

end MiniOS
