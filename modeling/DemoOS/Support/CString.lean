import Mathlib.Data.List.Basic
import Mathlib.Algebra.Notation.Defs
import Mathlib.Tactic.Set

/-!
# `DemoOS.Support.CString`: arrays that hold zero-terminated strings

An array is the list of all its elements, so that its length never changes. `put` stores one
element and fails outside the array; `writeAll` stores a list from an index on, one element
after the other, and `writeAll_eq` says when that fails and what it leaves. `Holds b s` says
that the array `b` contains the string `s` and the terminating zero behind it.
-/

set_option autoImplicit false

namespace DemoOS.Support.CString

variable {α : Type*} {b : List α} {i : Nat} {c : α} {l l' : List α}

/-- Stores `c` at index `i`; nothing is stored outside the array. -/
def put (b : List α) (i : Nat) (c : α) : Option (List α) :=
  if i < b.length then some (b.set i c) else none

/-- Stores the elements of a list from the index `i` on. -/
def writeAll (b : List α) (i : Nat) : List α → Option (List α)
  | [] => some b
  | c :: l => do
      let b ← put b i c
      writeAll b (i + 1) l

/-- The array with the elements from index `i` on replaced by those of `l`. -/
def overwrite (b : List α) (i : Nat) (l : List α) : List α :=
  b.take i ++ l ++ b.drop (i + l.length)

@[simp] theorem overwrite_nil : overwrite b i [] = b := by
  simp [overwrite]

theorem length_overwrite (h : i + l.length ≤ b.length) : (overwrite b i l).length = b.length := by
  simp only [overwrite, List.length_append, List.length_take, List.length_drop]
  omega

theorem put_of_lt (h : i < b.length) (c : α) : put b i c = some (overwrite b i [c]) := by
  rw [put, if_pos h, List.set_eq_take_append_cons_drop, if_pos h]
  simp [overwrite]

theorem put_of_le (h : b.length ≤ i) (c : α) : put b i c = none := if_neg (Nat.not_lt.mpr h)

/-- What is behind the stored elements stays. -/
theorem drop_overwrite {k : Nat} (h : i + l.length ≤ b.length) (hk : i + l.length ≤ k) :
    (overwrite b i l).drop k = b.drop k := by
  have hlen : (b.take i ++ l).length = i + l.length := by
    rw [List.length_append, List.length_take]
    omega
  rw [overwrite, List.drop_append, List.drop_of_length_le (by omega), List.nil_append,
    List.drop_drop]
  congr 1
  omega

/-- What is before the stored elements stays, and they follow it. -/
theorem take_overwrite (h : i + l.length ≤ b.length) :
    (overwrite b i l).take (i + l.length) = b.take i ++ l := by
  have hlen : (b.take i ++ l).length = i + l.length := by
    rw [List.length_append, List.length_take]
    omega
  rw [overwrite, ← hlen, List.take_left]

/-- What is before the stored elements stays. -/
theorem take_overwrite_of_le {k : Nat} (h : i ≤ b.length) (hk : k ≤ i) :
    (overwrite b i l).take k = b.take k := by
  have hlen : k ≤ (b.take i).length := by
    rw [List.length_take]
    omega
  rw [overwrite, List.append_assoc, List.take_append_of_le_length hlen, List.take_take,
    Nat.min_eq_left hk]

/-- The stored elements follow the index. -/
theorem drop_overwrite_self (h : i ≤ b.length) :
    (overwrite b i l).drop i = l ++ b.drop (i + l.length) := by
  have hlen : (b.take i).length = i := List.length_take_of_le h
  rw [overwrite, List.append_assoc, List.drop_left' hlen]

/-- Storing two lists, one behind the other, is storing their concatenation. -/
theorem overwrite_overwrite (h : i + l.length ≤ b.length) (l' : List α) :
    overwrite (overwrite b i l) (i + l.length) l' = overwrite b i (l ++ l') := by
  rw [overwrite, take_overwrite h, drop_overwrite h (Nat.le_add_right ..), overwrite,
    List.length_append, Nat.add_assoc, List.append_assoc (b.take i)]

/-- Storing a list succeeds when it fits behind the index. -/
theorem writeAll_of_le (h : i + l.length ≤ b.length) : writeAll b i l = some (overwrite b i l) := by
  induction l generalizing b i with
  | nil => simp [writeAll]
  | cons c l ih =>
      rw [List.length_cons] at h
      have hone : i + [c].length ≤ b.length := by
        rw [List.length_singleton]
        omega
      have hrest : i + 1 + l.length ≤ (overwrite b i [c]).length := by
        rw [length_overwrite hone]
        omega
      show (put b i c).bind (fun b => writeAll b (i + 1) l) = _
      rw [put_of_lt (by omega), Option.bind_some, ih hrest]
      exact congrArg some (overwrite_overwrite hone l)

/-- A list that does not fit is not stored. -/
theorem writeAll_of_lt (hi : i ≤ b.length) (h : b.length < i + l.length) :
    writeAll b i l = none := by
  induction l generalizing b i with
  | nil =>
      rw [List.length_nil] at h
      omega
  | cons c l ih =>
      rw [List.length_cons] at h
      show (put b i c).bind (fun b => writeAll b (i + 1) l) = none
      by_cases hlt : i < b.length
      · have hone : i + [c].length ≤ b.length := by
          rw [List.length_singleton]
          omega
        rw [put_of_lt hlt, Option.bind_some]
        apply ih
        · rw [length_overwrite hone]
          omega
        · rw [length_overwrite hone]
          omega
      · rw [put_of_le (by omega)]
        rfl

/-- Storing a list succeeds exactly when it fits behind the index. -/
theorem writeAll_eq (hi : i ≤ b.length) :
    writeAll b i l
      = if i + l.length ≤ b.length then some (overwrite b i l) else none := by
  split
  · exact writeAll_of_le ‹_›
  · exact writeAll_of_lt hi (by omega)

/-! ## Strings -/

section Strings

variable [Zero α] {s t : List α}

/-- The array `b` contains the string `s`, terminated. -/
structure Holds (b s : List α) : Prop where
  /-- The terminating zero stands behind the string. -/
  terminated : ∃ rest, b = s ++ 0 :: rest
  /-- There is none inside it. -/
  noZero : (0 : α) ∉ s

theorem Holds.length_lt (h : Holds b s) : s.length < b.length := by
  obtain ⟨rest, rfl⟩ := h.terminated
  rw [List.length_append, List.length_cons]
  omega

/-- An array contains at most one string. -/
theorem Holds.unique (h : Holds b s) (h' : Holds b t) : s = t := by
  obtain ⟨rest, hb⟩ := h.terminated
  obtain ⟨rest', hb'⟩ := h'.terminated
  rw [hb] at hb'
  rcases List.append_eq_append_iff.mp hb' with ⟨a, ht, hrest⟩ | ⟨a, hs, hrest⟩
  · cases a with
    | nil => rw [ht, List.append_nil]
    | cons c a =>
        have hc : 0 = c := (List.cons.inj hrest).1
        exact absurd (by rw [ht, ← hc]; simp) h'.noZero
  · cases a with
    | nil => rw [hs, List.append_nil]
    | cons c a =>
        have hc : 0 = c := (List.cons.inj hrest).1
        exact absurd (by rw [hs, ← hc]; simp) h.noZero

/-- Storing a string with its zero makes the array contain what was before, and the string. -/
theorem Holds.overwrite (hb : b.take i = t) (ht : (0 : α) ∉ t) (hs : (0 : α) ∉ s) :
    Holds (overwrite b i (s ++ [0])) (t ++ s) := by
  refine ⟨⟨b.drop (i + (s ++ [0]).length), ?_⟩, ?_⟩
  · rw [CString.overwrite, hb]
    simp only [List.append_assoc, List.singleton_append]
  · rw [List.mem_append]
    exact fun h => h.elim ht hs

/-- From its index on, the array contains a string that was stored with its zero. -/
theorem Holds.drop_overwrite (hi : i ≤ b.length) (hs : (0 : α) ∉ s) :
    Holds ((CString.overwrite b i (s ++ [0])).drop i) s := by
  refine ⟨⟨b.drop (i + (s ++ [0]).length), ?_⟩, hs⟩
  rw [drop_overwrite_self hi, List.append_assoc, List.singleton_append]

/-- An array of zeros contains whatever is stored at its beginning, if a zero is left. -/
theorem Holds.zeros {n : Nat} (hs : (0 : α) ∉ s) (h : s.length < n) :
    Holds (CString.overwrite (List.replicate n 0) 0 s) s := by
  refine ⟨⟨List.replicate (n - s.length - 1) 0, ?_⟩, hs⟩
  have hsplit : n - s.length = (n - s.length - 1) + 1 := by omega
  rw [CString.overwrite, List.take_zero, List.nil_append, Nat.zero_add, List.drop_replicate, hsplit,
    List.replicate_succ, Nat.add_sub_cancel]

end Strings

end DemoOS.Support.CString
