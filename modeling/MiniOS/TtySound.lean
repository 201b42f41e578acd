import MiniOS.Tty
import MiniOS.RingBuf

/-!
# The terminal queue as a queue

A read goes wrong exactly when the unread keys go round the end of the buffer and it asks
for more than the first part of them.
-/

namespace MiniOS

open List

namespace TtyQueue

variable {q : TtyQueue}

theorem next_eq {i : Nat} (h : i < ttyBufSize) : next i = (i + 1) % ttyBufSize := by
  unfold next ttyBufSize at *
  split
  · omega
  · omega

/-! ## The loop -/

theorem readLoop_eq : ∀ (k left start : Nat) (q : TtyQueue), (∀ j < k, start + j ≠ q.tail) →
    (k = left ∨ k < left ∧ start + k = q.tail) → start + k < 2 ^ 30 → q.head < ttyBufSize →
    readLoop left start q = (List.range' start k, { q with head := (q.head + k) % ttyBufSize })
  | 0, left, start, q, _, hend, _, hh => by
    have hhead : (q.head + 0) % ttyBufSize = q.head := Nat.mod_eq_of_lt hh
    rw [hhead]
    rcases hend with rfl | ⟨hlt, htail⟩
    · rfl
    · obtain ⟨n, rfl⟩ : ∃ n, left = n + 1 := ⟨left - 1, by omega⟩
      have htail : start = q.tail := htail
      rw [readLoop, if_pos htail]
      rfl
  | k + 1, left, start, q, hne, hend, hlt, hh => by
    obtain ⟨n, rfl⟩ : ∃ n, left = n + 1 := ⟨left - 1, by omega⟩
    have hstart : (start + 1) % 2 ^ 30 = start + 1 := Nat.mod_eq_of_lt (by omega)
    have hnext := next_eq hh
    have hgo : start ≠ q.tail := hne 0 (by omega)
    have ih := readLoop_eq k n (start + 1) { q with head := next q.head }
      (fun j hj => by have := hne (j + 1) (by omega); show start + 1 + j ≠ q.tail; omega)
      (by show k = n ∨ k < n ∧ start + 1 + k = q.tail; omega) (by omega)
      (by rw [hnext]; exact Nat.mod_lt _ (by decide))
    rw [readLoop, if_neg hgo, hstart, ih, range'_succ]
    simp only [hnext, Nat.mod_add_mod, Nat.add_assoc, Nat.add_comm 1 k]

theorem mem_readLoop : ∀ (k left start : Nat) (q : TtyQueue), (∀ j ≤ k, start + j ≠ q.tail) → k < left →
    start + k < 2 ^ 30 → start + k ∈ (readLoop left start q).1
  | k, 0, _, _, _, hk, _ => absurd hk (Nat.not_lt_zero k)
  | 0, left + 1, start, q, hne, _, _ => by
    have hgo : start ≠ q.tail := hne 0 (Nat.le_refl 0)
    rw [readLoop, if_neg hgo]
    simp
  | k + 1, left + 1, start, q, hne, hk, hlt => by
    have hstart : (start + 1) % 2 ^ 30 = start + 1 := Nat.mod_eq_of_lt (by omega)
    have hgo : start ≠ q.tail := hne 0 (by omega)
    rw [readLoop, if_neg hgo, hstart]
    have ih := mem_readLoop k left (start + 1) { q with head := next q.head }
      (fun j hj => by have := hne (j + 1) (by omega); show start + 1 + j ≠ q.tail; omega) (by omega) (by omega)
    rw [show start + (k + 1) = start + 1 + k by omega]
    exact mem_cons_of_mem _ ih

end TtyQueue

/-! ## Runs -/

namespace TtyLog

variable {s : TtyLog}

structure Inv (s : TtyLog) (l : List (BitVec 32)) : Prop where
  keys : s.appended = s.delivered ++ l
  few : l.length < ttyBufSize
  head : s.q.head < ttyBufSize
  tail : s.q.tail = (s.q.head + l.length) % ttyBufSize
  holds : Holds ttyBufSize s.q.buf s.q.head l

theorem fresh_inv (behind : Nat → BitVec 32) : (fresh behind).Inv [] :=
  ⟨rfl, by decide, show 0 < ttyBufSize by decide, rfl, trivial⟩

namespace Inv

variable {l : List (BitVec 32)} {nr : Int}

theorem unread (h : s.Inv l) : s.unread = l.length := by
  rw [TtyLog.unread, h.keys, length_append]
  omega

theorem key (h : s.Inv l) (key : BitVec 32) (hfew : (s.step (.key key)).unread < ttyBufSize) :
    (s.step (.key key)).Inv (l ++ (acceptKey key).toList) := by
  have hkeys : s.appended ++ (acceptKey key).toList = s.delivered ++ (l ++ (acceptKey key).toList) := by
    rw [h.keys, append_assoc]
  have hlen : (l ++ (acceptKey key).toList).length < ttyBufSize := by
    have : (s.step (.key key)).unread = (l ++ (acceptKey key).toList).length := by
      show (s.appended ++ _).length - s.delivered.length = _
      rw [hkeys, length_append]
      omega
    omega
  cases ha : acceptKey key with
  | none =>
    rw [ha] at hkeys hlen
    have hstep : s.step (.key key) = { s with appended := s.appended ++ [] } := by
      simp only [step, TtyQueue.handleKey, ha, Option.toList_none]
    rw [hstep]
    exact ⟨hkeys, hlen, h.head, by simpa using h.tail, by simpa using h.holds⟩
  | some k =>
    rw [ha] at hkeys hlen
    have hstep : s.step (.key key) = { s with q := s.q.inkey k, appended := s.appended ++ [k] } := by
      simp only [step, TtyQueue.handleKey, ha, Option.toList_some]
    have htail : s.q.tail < ttyBufSize := by
      rw [h.tail]
      exact Nat.mod_lt _ (by decide)
    rw [hstep]
    refine ⟨hkeys, hlen, h.head, ?_, ?_⟩
    · show TtyQueue.next s.q.tail = _
      rw [TtyQueue.next_eq htail, h.tail, Nat.mod_add_mod, Nat.add_assoc, length_append]
      rfl
    · show Holds ttyBufSize (Function.update s.q.buf s.q.tail k) s.q.head (l ++ [k])
      rw [h.tail]
      exact h.holds.push h.few

theorem tail_cases (h : s.Inv l) : (s.q.head ≤ s.q.tail ∧ s.q.tail = s.q.head + l.length) ∨
    (s.q.tail < s.q.head ∧ s.q.tail + ttyBufSize = s.q.head + l.length) := by
  have ht := h.tail
  have hf := h.few
  have hh := h.head
  unfold ttyBufSize at *
  omega

theorem read_eq (h : s.Inv l) (hfit : s.Fits (.read nr)) :
    s.q.head + min nr.toNat l.length ≤ ttyBufSize ∧
      s.q.ttyRead nr = (List.range' s.q.head (min nr.toNat l.length),
        { s.q with head := (s.q.head + min nr.toNat l.length) % ttyBufSize }) := by
  have hh := h.head
  have hf := h.few
  have hfit : s.q.head ≤ s.q.tail ∨ nr ≤ ttyBufSize - s.q.head := hfit
  have hcases := h.tail_cases
  have htail : s.q.tail < ttyBufSize := by
    rw [h.tail]
    exact Nat.mod_lt _ (by decide)
  have hb : ttyBufSize = 256 := rfl
  refine ⟨by omega, TtyQueue.readLoop_eq _ _ _ s.q (fun j hj => ?_) ?_ ?_ hh⟩
  · omega
  · omega
  · omega

theorem read (h : s.Inv l) (hfit : s.Fits (.read nr)) :
    (s.step (.read nr)).Inv (l.drop nr.toNat) ∧ s.Fifo (.read nr) := by
  obtain ⟨hle, heq⟩ := h.read_eq hfit
  have hmap : (List.range' s.q.head (min nr.toNat l.length)).map s.q.buf = l.take nr.toNat := by
    refine ext_getElem (by simp) fun i h₁ h₂ => ?_
    simp only [length_map, length_range'] at h₁
    rw [getElem_map, getElem_range', Nat.one_mul, getElem_take]
    rw [← h.holds.getElem i (by omega), Nat.mod_eq_of_lt (by omega)]
  have hstep : s.step (.read nr) = { s with
      q := { s.q with head := (s.q.head + min nr.toNat l.length) % ttyBufSize }
      delivered := s.delivered ++ l.take nr.toNat } := by
    simp only [step, heq, hmap]
  have hkeys : s.appended = s.delivered ++ l.take nr.toNat ++ l.drop nr.toNat := by
    rw [append_assoc, take_append_drop]
    exact h.keys
  constructor
  · rw [hstep]
    refine ⟨hkeys, ?_, Nat.mod_lt _ (by decide), ?_, ?_⟩
    · rw [length_drop]
      have := h.few
      omega
    · show s.q.tail = _
      rw [h.tail, Nat.mod_add_mod, length_drop]
      congr 1
      omega
    · have hdrop := h.holds.drop (min nr.toNat l.length)
      have hsame : l.drop (min nr.toNat l.length) = l.drop nr.toNat := by
        rcases Nat.le_total nr.toNat l.length with hl | hl
        · rw [Nat.min_eq_left hl]
        · rw [Nat.min_eq_right hl, drop_length, drop_eq_nil_of_le hl]
      rw [hsame] at hdrop
      exact hdrop.congr_start (Nat.mod_mod _ _).symm
  · refine ⟨?_, ?_, fun i hi => ?_⟩
    · rw [hstep]
      exact ⟨_, hkeys.symm⟩
    · rw [heq, h.unread]
      exact length_range'
    · rw [heq] at hi
      have := mem_range'_1.mp hi
      omega

theorem overrun (h : s.Inv l) (hfit : ¬ s.Fits (.read nr)) : ttyBufSize ∈ (s.q.ttyRead nr).1 := by
  have hfit : ¬ (s.q.head ≤ s.q.tail ∨ nr ≤ ttyBufSize - s.q.head) := hfit
  have hh := h.head
  have hb : ttyBufSize = 256 := rfl
  have hmem := TtyQueue.mem_readLoop (ttyBufSize - s.q.head) nr.toNat s.q.head s.q
    (fun j hj => by omega) (by omega) (by omega)
  rwa [Nat.add_sub_of_le hh.le] at hmem

end Inv

/-- **The terminal queue is a queue** as long as no read has to go round the end of the buffer. -/
theorem tty_fifo (behind : Nat → BitVec 32) (ops : List TtyOp)
    (hfew : Along step (fun s op => (s.step op).unread < ttyBufSize) (fresh behind) ops) :
    Along step Fifo (fresh behind) ops ↔ Along step Fits (fresh behind) ops := by
  refine along_iff (fun s => ∃ l, s.Inv l) ?_ ?_ ops ⟨[], fresh_inv behind⟩ hfew
  · rintro s op ⟨l, h⟩ hfew hfit
    cases op with
    | key key => exact ⟨_, h.key key hfew⟩
    | read nr => exact ⟨_, (h.read hfit).1⟩
  · rintro s op ⟨l, h⟩ hfew
    cases op with
    | key key => exact iff_of_true ⟨_, (h.key key hfew).keys.symm⟩ trivial
    | read nr =>
      refine ⟨fun hf => Classical.byContradiction fun hfit => ?_, fun hfit => (h.read hfit).2⟩
      exact Nat.lt_irrefl _ (hf.2.2 _ (h.overrun hfit))

theorem tty_fifo_between :
    Along step Fifo (fresh fun _ => 0) [.key 0x61, .key 0x62, .read 1, .key 0x63, .read 8, .key 0x64, .read 1] := by
  refine (tty_fifo _ _ ?_).mpr ⟨trivial, trivial, .inl ?_, trivial, .inl ?_, trivial, .inl ?_, trivial⟩
  · refine ⟨?_, ?_, ?_, ?_, ?_, ?_, ?_, trivial⟩ <;> decide
  all_goals decide

theorem Inv.typed {key k : BitVec 32} (hk : acceptKey key = some k) :
    ∀ (n : Nat) {s : TtyLog} {l : List (BitVec 32)}, s.Inv l → l.length + n < ttyBufSize →
    Along step (fun s op => (s.step op).unread < ttyBufSize) s (List.replicate n (.key key)) ∧
      (∃ l', l'.length = l.length + n ∧ ((List.replicate n (.key key)).foldl step s).Inv l') ∧
      ((List.replicate n (.key key)).foldl step s).q.head = s.q.head
  | 0, s, l, h, _ => ⟨trivial, ⟨l, rfl, h⟩, rfl⟩
  | n + 1, s, l, h, hn => by
    have hfew : (s.step (.key key)).unread < ttyBufSize := by
      show (s.appended ++ (acceptKey key).toList).length - s.delivered.length < _
      rw [h.keys, hk]
      simp only [Option.toList_some, length_append, length_singleton]
      omega
    have h' := h.key key hfew
    have hlen : (l ++ (acceptKey key).toList).length = l.length + 1 := by
      rw [hk]
      simp
    obtain ⟨hrun, ⟨l', hl', hinv⟩, hhead⟩ := h'.typed hk n (by omega)
    refine ⟨⟨hfew, hrun⟩, ⟨l', by omega, hinv⟩, hhead.trans ?_⟩
    simp only [step, TtyQueue.handleKey, hk, TtyQueue.inkey]

/-- 250 keys are read and ten more typed, which go round the end of the buffer: a read of ten
leaves the buffer at its end. -/
theorem tty_overrun :
    Along step (fun s op => (s.step op).unread < ttyBufSize) (fresh fun _ => 0)
      (List.replicate 250 (.key 0x61) ++ (.read 250 :: (List.replicate 10 (.key 0x61) ++ [.read 10]))) ∧
    ¬ Along step Fifo (fresh fun _ => 0)
      (List.replicate 250 (.key 0x61) ++ (.read 250 :: (List.replicate 10 (.key 0x61) ++ [.read 10]))) := by
  have hk : acceptKey 0x61 = some 0x61 := by decide
  have hb : ttyBufSize = 256 := rfl
  obtain ⟨hrun₁, ⟨l₁, hl₁, h₁⟩, hhead₁⟩ := (fresh_inv fun _ => 0).typed hk 250 (by decide)
  rw [along_append, along_append]
  generalize (List.replicate 250 (TtyOp.key 0x61)).foldl step (fresh fun _ => 0) = s₁ at h₁ hhead₁ ⊢
  have hhead₁ : s₁.q.head = 0 := hhead₁
  have hlen₁ : l₁.length = 250 := hl₁
  have hfit : s₁.Fits (.read 250) := .inl (by rw [hhead₁]; exact Nat.zero_le _)
  have h₂ := (h₁.read hfit).1
  have hlen₂ : (l₁.drop (250 : Int).toNat).length = 0 := by
    rw [length_drop, hlen₁]
    rfl
  have hhead₂ : (s₁.step (.read 250)).q.head = 250 := by
    show (s₁.q.ttyRead 250).2.head = 250
    rw [(h₁.read_eq hfit).2, hhead₁, hlen₁]
    rfl
  obtain ⟨hrun₃, ⟨l₃, hlen₃, h₃⟩, hhead₃⟩ := h₂.typed hk 10 (by omega)
  simp only [Along, along_append]
  generalize (List.replicate 10 (TtyOp.key 0x61)).foldl step (s₁.step (.read 250)) = s₃ at h₃ hhead₃ ⊢
  rw [hlen₂] at hlen₃
  rw [hhead₂] at hhead₃
  have htail : s₃.q.tail = 4 := by
    rw [h₃.tail, hhead₃, hlen₃]
    rfl
  have hlast : (s₃.step (.read 10)).unread < ttyBufSize := by
    have h : s₃.appended.length - s₃.delivered.length = l₃.length := h₃.unread
    show s₃.appended.length - (s₃.delivered ++ (s₃.q.ttyRead 10).1.map s₃.q.buf).length < _
    rw [length_append]
    omega
  refine ⟨⟨hrun₁, by rw [h₂.unread]; omega, hrun₃, hlast, trivial⟩, fun hfifo => ?_⟩
  refine Nat.lt_irrefl _ (hfifo.2.2.2.1.2.2 _ (h₃.overrun fun hfits => ?_))
  have hfits : s₃.q.head ≤ s₃.q.tail ∨ (10 : Int) ≤ ttyBufSize - s₃.q.head := hfits
  rw [hhead₃, htail] at hfits
  exact absurd hfits (by decide)

end TtyLog

end MiniOS
