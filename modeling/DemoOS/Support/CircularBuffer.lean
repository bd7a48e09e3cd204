import Mathlib.Logic.Function.Basic
import Mathlib.Data.List.Basic

/-!
# `DemoOS.Support.CircularBuffer`: what a circular buffer holds

A circular buffer of `n` slots is written at `head` and read at `tail`, and an index
that reaches `n` starts again at 0. One slot stays free, so that equal indices mean an
empty buffer. `contents` lists the stored values from the oldest to the newest:
`contents_push` says that a write at the head appends to it, and `contents_pop` that a
read at the tail takes its first element.
-/

set_option autoImplicit false

namespace DemoOS.Support.CircularBuffer

variable {α : Type} {n head tail : Nat}

/-- The index behind `i`. -/
def next (n i : Nat) : Nat := if i + 1 < n then i + 1 else 0

/-- The number of stored values. -/
def count (n head tail : Nat) : Nat := if tail ≤ head then head - tail else n + head - tail

/-- The `j`-th slot from the tail on. -/
def slot (n tail j : Nat) : Nat := if tail + j < n then tail + j else tail + j - n

/-- The stored values, the oldest first. -/
def contents (n : Nat) (buffer : Nat → α) (head tail : Nat) : List α :=
  (List.range (count n head tail)).map fun j => buffer (slot n tail j)

theorem next_lt (h : 0 < n) (i : Nat) : next n i < n := by
  unfold next
  split <;> omega

theorem slot_zero (h : tail < n) : slot n tail 0 = tail := by
  unfold slot
  split <;> omega

theorem slot_succ (h : tail < n) (j : Nat) (hj : j + 1 < n) :
    slot n tail (j + 1) = slot n (next n tail) j := by
  unfold slot next
  split <;> split <;> split <;> omega

/-- The slots of the stored values are not the one at the head. -/
theorem slot_ne_head (htail : tail < n) {j : Nat}
    (hj : j < count n head tail) : slot n tail j ≠ head := by
  unfold count at hj
  unfold slot
  split at hj <;> split <;> omega

theorem slot_count (hhead : head < n) (htail : tail < n) :
    slot n tail (count n head tail) = head := by
  unfold count
  split <;> unfold slot <;> split <;> omega

theorem count_lt (hhead : head < n) (htail : tail < n) : count n head tail < n := by
  unfold count
  split <;> omega

/-- There is room if a write does not reach the tail. -/
theorem next_ne_iff (hhead : head < n) (htail : tail < n) :
    next n head ≠ tail ↔ count n head tail + 1 < n := by
  unfold next count
  split <;> split <;> omega

/-- The index behind `i`, as code computes it. -/
theorem next_eq_mod {i : Nat} (hi : i < n) : next n i = (i + 1) % n := by
  unfold next
  split
  · next hlt => exact (Nat.mod_eq_of_lt hlt).symm
  · next hge =>
      have hlast : i + 1 = n := by omega
      rw [hlast, Nat.mod_self]

theorem count_push (hhead : head < n) (htail : tail < n) (hroom : next n head ≠ tail) :
    count n (next n head) tail = count n head tail + 1 := by
  by_cases hwrap : head + 1 < n
  · simp only [next, if_pos hwrap] at hroom ⊢
    unfold count
    split <;> split <;> omega
  · simp only [next, if_neg hwrap] at hroom ⊢
    unfold count
    split <;> split <;> omega

theorem count_pop (hhead : head < n) (htail : tail < n) (hne : head ≠ tail) :
    count n head tail = count n head (next n tail) + 1 := by
  by_cases hwrap : tail + 1 < n
  · simp only [next, if_pos hwrap]
    unfold count
    split <;> split <;> omega
  · simp only [next, if_neg hwrap]
    unfold count
    split <;> split <;> omega

/-- A buffer is empty when its indices meet. -/
theorem contents_eq_nil_iff (htail : tail < n) {buffer : Nat → α} :
    contents n buffer head tail = [] ↔ head = tail := by
  unfold contents count
  rw [List.map_eq_nil_iff, List.range_eq_nil]
  split <;> omega

theorem length_contents {buffer : Nat → α} :
    (contents n buffer head tail).length = count n head tail := by
  simp [contents]

/-- A write at the head appends. -/
theorem contents_push (hhead : head < n) (htail : tail < n) (hroom : next n head ≠ tail)
    (buffer : Nat → α) (x : α) :
    contents n (Function.update buffer head x) (next n head) tail
      = contents n buffer head tail ++ [x] := by
  have hold : ∀ j ∈ List.range (count n head tail),
      Function.update buffer head x (slot n tail j) = buffer (slot n tail j) := by
    intro j hj
    exact Function.update_of_ne (slot_ne_head htail (List.mem_range.mp hj)) x buffer
  unfold contents
  rw [count_push hhead htail hroom, List.range_succ, List.map_append, List.map_congr_left hold,
    List.map_singleton, slot_count hhead htail, Function.update_self]

/-- A read at the tail takes the first element. -/
theorem contents_pop (hhead : head < n) (htail : tail < n) (hne : head ≠ tail)
    (buffer : Nat → α) :
    contents n buffer head tail = buffer tail :: contents n buffer head (next n tail) := by
  have hnext : next n tail < n := next_lt (by omega) tail
  have hshift : ∀ j ∈ List.range (count n head (next n tail)),
      buffer (slot n tail (j + 1)) = buffer (slot n (next n tail) j) := by
    intro j hj
    have := List.mem_range.mp hj
    have := count_lt hhead htail
    have := count_pop hhead htail hne
    rw [slot_succ htail j (by omega)]
  unfold contents
  rw [count_pop hhead htail hne, List.range_succ_eq_map, List.map_cons, List.map_map,
    slot_zero htail]
  exact congrArg (buffer tail :: ·) (List.map_congr_left hshift)

end DemoOS.Support.CircularBuffer
