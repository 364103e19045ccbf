import Mathlib.Logic.Function.Basic
import Mathlib.Tactic.Common

/-!
# Ring Buffers

A buffer of `n` cells used as a queue: elements are written at `head` and read at `tail`. One cell
stays unused, so that an empty buffer and a full one can be told apart.

* `Ring.contents_push`, `Ring.contents_pop`: writing appends, and reading takes the first element.
-/

namespace OsMaterial

open List

structure Ring (α : Type*) (n : ℕ) where
  buf : ℕ → α
  head : ℕ
  tail : ℕ
  head_lt : head < n
  tail_lt : tail < n

namespace Ring

variable {α : Type*} {n : ℕ} (q : Ring α n)

def next (n pos : ℕ) : ℕ := (pos + 1) % n

def count : ℕ := (q.head + n - q.tail) % n

/-- **The queue** that the buffer stands for, oldest element first. -/
def contents : List α := (range q.count).map fun i => q.buf ((q.tail + i) % n)

def isEmpty : Bool := q.head = q.tail

def isFull : Bool := next n q.head = q.tail

def push (x : α) : Ring α n where
  buf := Function.update q.buf q.head x
  head := next n q.head
  tail := q.tail
  head_lt := Nat.mod_lt _ (Nat.zero_lt_of_lt q.head_lt)
  tail_lt := q.tail_lt

def front : α := q.buf q.tail

def pop : Ring α n where
  buf := q.buf
  head := q.head
  tail := next n q.tail
  head_lt := q.head_lt
  tail_lt := Nat.mod_lt _ (Nat.zero_lt_of_lt q.tail_lt)

/-! ### Positions -/

theorem mod_eq_ite {a : ℕ} (ha : a < 2 * n) : a % n = if a < n then a else a - n := by
  split
  · next h => exact Nat.mod_eq_of_lt h
  · next h => rw [Nat.mod_eq_sub_mod (by omega), Nat.mod_eq_of_lt (by omega)]

theorem count_eq : q.count = if q.tail ≤ q.head then q.head - q.tail else q.head + n - q.tail := by
  have hh := q.head_lt
  rw [count, mod_eq_ite (by omega)]
  split_ifs <;> omega

theorem next_eq {pos : ℕ} (h : pos < n) : next n pos = if pos + 1 < n then pos + 1 else 0 := by
  rw [next, mod_eq_ite (by omega)]
  split_ifs <;> omega

theorem count_lt : q.count < n := Nat.mod_lt _ (Nat.zero_lt_of_lt q.head_lt)

@[simp] theorem length_contents : q.contents.length = q.count := by
  simp [contents]

theorem isEmpty_iff_count : q.isEmpty = true ↔ q.count = 0 := by
  have ht := q.tail_lt
  rw [isEmpty, decide_eq_true_iff, count_eq]
  split_ifs <;> omega

theorem isFull_iff_count : q.isFull = true ↔ q.count + 1 = n := by
  have hh := q.head_lt
  have ht := q.tail_lt
  rw [isFull, decide_eq_true_iff, count_eq, next_eq hh]
  split_ifs <;> omega

theorem isEmpty_iff : q.isEmpty = true ↔ q.contents = [] := by
  rw [isEmpty_iff_count, ← length_contents, length_eq_zero_iff]

theorem count_push (x : α) (h : q.isFull = false) : (q.push x).count = q.count + 1 := by
  have hh := q.head_lt
  have ht := q.tail_lt
  have hfull : q.count + 1 ≠ n := fun heq => by
    rw [q.isFull_iff_count.mpr heq] at h
    cases h
  rw [count_eq] at hfull ⊢
  rw [count_eq, show (q.push x).head = next n q.head from rfl,
    show (q.push x).tail = q.tail from rfl, next_eq hh]
  split_ifs at hfull ⊢ <;> omega

theorem count_pop (h : q.isEmpty = false) : q.pop.count + 1 = q.count := by
  have hh := q.head_lt
  have ht := q.tail_lt
  have hempty : q.count ≠ 0 := fun heq => by
    rw [q.isEmpty_iff_count.mpr heq] at h
    cases h
  rw [count_eq] at hempty ⊢
  rw [count_eq, show q.pop.head = q.head from rfl, show q.pop.tail = next n q.tail from rfl,
    next_eq ht]
  split_ifs at hempty ⊢ <;> omega

/-! ### The queue -/

theorem contents_push (x : α) (h : q.isFull = false) : (q.push x).contents = q.contents ++ [x] := by
  have hh := q.head_lt
  have ht := q.tail_lt
  have hcount := q.count_lt
  have heq := q.count_eq
  rw [contents, q.count_push x h, range_succ, map_append, map_singleton, contents]
  have hlast : (q.tail + q.count) % n = q.head := by
    rw [mod_eq_ite (by omega)]
    split_ifs at heq ⊢ <;> omega
  refine congrArg₂ _ (map_congr_left fun i hi => ?_) ?_
  · have hi := mem_range.mp hi
    refine Function.update_of_ne ?_ _ _
    change (q.tail + i) % n ≠ q.head
    rw [mod_eq_ite (by omega)]
    split_ifs at heq ⊢ <;> omega
  · rw [show (q.push x).tail = q.tail from rfl, hlast]
    exact congrArg (fun y => [y]) (Function.update_self ..)

theorem contents_pop (h : q.isEmpty = false) : q.contents = q.front :: q.pop.contents := by
  have ht := q.tail_lt
  have hcount := q.count_lt
  have hpop := q.count_pop h
  rw [contents, ← hpop, range_succ_eq_map, map_cons, map_map, Nat.add_zero,
    Nat.mod_eq_of_lt ht, contents]
  refine congrArg _ (map_congr_left fun i hi => ?_)
  have hi := mem_range.mp hi
  change q.buf ((q.tail + (i + 1)) % n) = q.buf ((next n q.tail + i) % n)
  congr 1
  rw [next_eq ht, mod_eq_ite (by omega), mod_eq_ite (by split_ifs <;> omega)]
  split_ifs <;> omega

theorem isEmpty_of_isFull (hn : 1 < n) (h : q.isFull = true) : q.isEmpty = false := by
  rw [Bool.eq_false_iff]
  intro he
  have hfull := q.isFull_iff_count.mp h
  have hempty := q.isEmpty_iff_count.mp he
  omega

theorem isFull_pop (h : q.isEmpty = false) : q.pop.isFull = false := by
  have hlt := q.count_lt
  have hpop := q.count_pop h
  rw [Bool.eq_false_iff, ne_eq, isFull_iff_count]
  omega

theorem isEmpty_push (x : α) (h : q.isFull = false) : (q.push x).isEmpty = false := by
  rw [Bool.eq_false_iff, ne_eq, isEmpty_iff_count, q.count_push x h]
  omega

end Ring

end OsMaterial
