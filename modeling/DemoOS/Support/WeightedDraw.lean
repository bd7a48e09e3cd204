import Mathlib.Data.Nat.Count
import Mathlib.Algebra.BigOperators.Group.List.Basic
import Mathlib.Algebra.GroupWithZero.Nat

/-!
# `DemoOS.Support.WeightedDraw`: drawing from a list in proportion to weights

The members of a list hold consecutive tickets: the first `weight a` tickets belong to the
head `a`, the next ones to its successor, and so on. `holder weight l n` is the owner of
ticket `n`. `holder_eq_some` says that every ticket below the total has one and where in the
list it stands, and `count_holder` that a member holds as many tickets as its weight, so that
a uniform draw among the tickets is a draw in proportion to the weights.
-/

set_option autoImplicit false

namespace DemoOS.Support.WeightedDraw

variable {α : Type*} (weight : α → Nat)

/-- All tickets of a list. -/
def total (l : List α) : Nat := (l.map weight).sum

/-- The owner of a ticket. -/
def holder : List α → Nat → Option α
  | [], _ => none
  | a :: l, n => if n < weight a then some a else holder l (n - weight a)

@[simp] theorem total_nil : total weight [] = 0 := rfl

@[simp] theorem total_cons (a : α) (l : List α) :
    total weight (a :: l) = weight a + total weight l := by
  simp [total]

/-- The tickets behind those of the head are the tickets of the other members. -/
theorem holder_cons_add (a : α) (l : List α) (n : Nat) :
    holder weight (a :: l) (weight a + n) = holder weight l n := by
  rw [holder, if_neg (by omega), Nat.add_sub_cancel_left]

/-- Every ticket below the total has an owner, in front of whom fewer tickets lie. -/
theorem holder_eq_some {l : List α} {n : Nat} (hn : n < total weight l) :
    ∃ u a v, l = u ++ a :: v ∧ total weight u ≤ n ∧ n < total weight u + weight a
      ∧ holder weight l n = some a := by
  induction l generalizing n with
  | nil => exact absurd hn (Nat.not_lt_zero n)
  | cons a l ih =>
      rw [total_cons] at hn
      by_cases hna : n < weight a
      · exact ⟨[], a, l, rfl, Nat.zero_le n, by simpa using hna, if_pos hna⟩
      · obtain ⟨u, b, v, hl, hle, hlt, hholder⟩ := ih (n := n - weight a) (by omega)
        refine ⟨a :: u, b, v, by rw [hl]; rfl, ?_, ?_, ?_⟩
        · rw [total_cons]
          omega
        · rw [total_cons]
          omega
        · rw [holder, if_neg hna, hholder]

variable [DecidableEq α]

/-- The head holds the first tickets, and none of them belongs to anybody else. -/
theorem count_holder_head (a b : α) (l : List α) :
    Nat.count (fun n => holder weight (a :: l) n = some b) (weight a)
      = if a = b then weight a else 0 := by
  have hfirst : ∀ n < weight a, holder weight (a :: l) n = some a := fun n hn => if_pos hn
  split
  · next hab =>
      refine Nat.count_iff_forall.mpr fun n hn => ?_
      rw [hfirst n hn, hab]
  · next hab =>
      refine Nat.count_of_forall_not fun n hn hholder => hab ?_
      exact Option.some.inj ((hfirst n hn).symm.trans hholder)

/-- Each occurrence of a member holds as many tickets as the member's weight. -/
theorem count_holder (b : α) (l : List α) :
    Nat.count (fun n => holder weight l n = some b) (total weight l)
      = l.count b * weight b := by
  induction l with
  | nil => simp
  | cons a l ih =>
      have hrest : Nat.count (fun n => holder weight (a :: l) (weight a + n) = some b)
          (total weight l) = l.count b * weight b := by
        simp only [holder_cons_add]
        exact ih
      rw [total_cons, Nat.count_add, count_holder_head, hrest, List.count_cons]
      by_cases hab : a = b
      · subst hab
        simp [Nat.add_mul, Nat.add_comm]
      · simp [hab]

end DemoOS.Support.WeightedDraw
