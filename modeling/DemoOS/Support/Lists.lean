import Mathlib.Data.List.Nodup

/-!
# `DemoOS.Support.Lists`: lists cut by a predicate

Facts about `takeWhile`, `dropWhile` and `filter` on lists whose elements lose or
keep a property while the list is being consumed, and the first element with the
largest score (`FirstMax`).
-/

set_option autoImplicit false

namespace DemoOS.Support

variable {α : Type*} {f g : α → Bool} {l : List α}

/-- `takeWhile` reads the predicate on the list only. -/
theorem takeWhile_congr (h : ∀ a ∈ l, f a = g a) : l.takeWhile f = l.takeWhile g := by
  induction l with
  | nil => rfl
  | cons a l ih =>
      rw [List.takeWhile_cons, List.takeWhile_cons, h a (by simp),
        ih fun b hb => h b (by simp [hb])]

/-- `dropWhile` reads the predicate on the list only. -/
theorem dropWhile_congr (h : ∀ a ∈ l, f a = g a) : l.dropWhile f = l.dropWhile g := by
  induction l with
  | nil => rfl
  | cons a l ih =>
      rw [List.dropWhile_cons, List.dropWhile_cons, h a (by simp),
        ih fun b hb => h b (by simp [hb])]

/-- Filtering out an element that does not occur changes nothing. -/
theorem filter_ne_eq_self [DecidableEq α] {a : α} (h : a ∉ l) : l.filter (· ≠ a) = l :=
  List.filter_eq_self.mpr fun b hb => by simpa using ne_of_mem_of_not_mem hb h

/-- Filtering the single occurrence of an element out of a list. -/
theorem filter_ne_append_cons [DecidableEq α] {a : α} {u v : List α}
    (h : (u ++ a :: v).Nodup) : (u ++ a :: v).filter (· ≠ a) = u ++ v := by
  have hau : a ∉ u := fun hu => (List.nodup_append.mp h).2.2 a hu a (by simp) rfl
  have hav : a ∉ v := (List.nodup_cons.mp (List.nodup_append.mp h).2.1).1
  rw [List.filter_append, List.filter_cons_of_neg (by simp), filter_ne_eq_self hau,
    filter_ne_eq_self hav]

/-- Without the elements of its leading run, a list without repetitions is the rest. -/
theorem filter_notMem_takeWhile [DecidableEq α] (h : l.Nodup) :
    l.filter (· ∉ l.takeWhile f) = l.dropWhile f := by
  have hsplit := List.takeWhile_append_dropWhile (p := f) (l := l)
  obtain ⟨u, hu⟩ : ∃ u, u = l.takeWhile f := ⟨_, rfl⟩
  obtain ⟨v, hv⟩ : ∃ v, v = l.dropWhile f := ⟨_, rfl⟩
  rw [← hu, ← hv] at hsplit ⊢
  rw [← hsplit] at h ⊢
  have hdisjoint := (List.nodup_append.mp h).2.2
  rw [List.filter_append, List.filter_eq_nil_iff.mpr (by simp), List.nil_append]
  refine List.filter_eq_self.mpr fun a ha => ?_
  simpa using fun hau => hdisjoint a hau a ha rfl

/-- In an ordered list the first element that passes a test comes before all others that pass
it. -/
theorem rel_of_find {R : α → α → Prop} {a b : α} (hl : l.Pairwise R) (ha : l.find? f = some a)
    (hb : b ∈ l) (hfb : f b = true) (hba : b ≠ a) : R a b := by
  have hfilter := hl.sublist (List.filter_sublist (p := f))
  have hb' : b ∈ l.filter f := List.mem_filter.mpr ⟨hb, hfb⟩
  rw [← List.head?_filter] at ha
  cases hq : l.filter f with
  | nil =>
      rw [hq] at hb'
      exact nomatch hb'
  | cons c q =>
      rw [hq] at ha hb' hfilter
      obtain rfl : c = a := Option.some.inj ha
      exact (List.pairwise_cons.mp hfilter).1 b ((List.mem_cons.mp hb').resolve_left hba)

/-- `a` is the first of the elements of `l` with the largest score. -/
def FirstMax {β : Type*} [LT β] [LE β] (score : α → β) (l : List α) (a : α) : Prop :=
  ∃ u v, l = u ++ a :: v ∧ (∀ b ∈ u, score b < score a) ∧ ∀ b ∈ v, score b ≤ score a

/-- Only the scores of the elements count. -/
theorem FirstMax.congr {β : Type*} [LT β] [LE β] {score score' : α → β} {a : α}
    (h : FirstMax score l a) (heq : ∀ b ∈ l, score' b = score b) : FirstMax score' l a := by
  obtain ⟨u, v, rfl, hu, hv⟩ := h
  have ha := heq a (by simp)
  refine ⟨u, v, rfl, fun b hb => ?_, fun b hb => ?_⟩
  · rw [ha, heq b (by simp [hb])]
    exact hu b hb
  · rw [ha, heq b (by simp [hb])]
    exact hv b hb

/-- A list has prefixes with every number of hits up to its own. -/
theorem exists_prefix_countP {p : α → Bool} {l : List α} {n : Nat} (h : n ≤ l.countP p) :
    ∃ pre, pre <+: l ∧ pre.countP p = n := by
  induction l generalizing n with
  | nil =>
      rw [List.countP_nil] at h
      exact ⟨[], List.nil_prefix, (Nat.le_zero.mp h).symm⟩
  | cons a l ih =>
      cases n with
      | zero => exact ⟨[], List.nil_prefix, rfl⟩
      | succ n =>
          by_cases ha : p a = true
          · rw [List.countP_cons_of_pos ha] at h
            obtain ⟨pre, hpre, hcount⟩ := ih (Nat.le_of_succ_le_succ h)
            exact ⟨a :: pre, List.prefix_cons_inj a |>.mpr hpre, by
              rw [List.countP_cons_of_pos ha, hcount]⟩
          · rw [List.countP_cons_of_neg ha] at h
            obtain ⟨pre, hpre, hcount⟩ := ih h
            exact ⟨a :: pre, List.prefix_cons_inj a |>.mpr hpre, by
              rw [List.countP_cons_of_neg ha, hcount]⟩

end DemoOS.Support
