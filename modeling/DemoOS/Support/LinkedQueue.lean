import Mathlib.Data.List.Nodup
import Mathlib.Logic.Function.Basic

/-!
# `DemoOS.Support.LinkedQueue`: intrusive singly linked queues

A queue is a `head` and a `tail` pointer over nodes that carry their own link.
The link field is a function `next : α → Option α`, so one set of nodes serves
any number of queues. `IsQueue next head tail l` says that the pointers
represent the list `l`: following `next` from `head` visits exactly the nodes
of `l` in order and then stops, `tail` is the last of them, and no node occurs
twice.

`Segment next h l t` is the piece of such a walk that starts at the pointer `h`,
visits `l`, and is about to follow the pointer `t`. `segment_append` cuts a walk
at any node, which is what every operation on the middle of a queue needs.

The operation lemmas say which list each pointer update represents:

* `IsQueue.enqueue`: linking a fresh node behind the tail appends it;
* `IsQueue.dequeue`: unlinking the head removes the first node;
* `IsQueue.unlink`: bypassing a node from its predecessor removes it, wherever
  it is;
* `IsQueue.insertFirst` / `IsQueue.insertAfter`: the two ways of linking a fresh
  node in front of existing ones;
* `IsQueue.congr`: a link update outside the queue leaves it alone.
-/

set_option autoImplicit false

namespace DemoOS.Support

variable {α : Type*}

/-- Following `next` from the pointer `h` visits the nodes of `l` in order, and
the pointer to follow after the last of them is `t`. -/
def Segment (next : α → Option α) : Option α → List α → Option α → Prop
  | h, [], t => h = t
  | h, a :: l, t => h = some a ∧ Segment next (next a) l t

section Segments
variable {next next' : α → Option α}

/-- Two consecutive pieces of a walk are one piece of it. -/
theorem segment_append {h t : Option α} {u v : List α} :
    Segment next h (u ++ v) t ↔ ∃ m, Segment next h u m ∧ Segment next m v t := by
  induction u generalizing h with
  | nil => simp [Segment]
  | cons a u ih => simp only [List.cons_append, Segment, ih, and_assoc, exists_and_left]

/-- A walk reads only the links of the nodes it visits. -/
theorem Segment.congr {h t : Option α} {l : List α} (hs : Segment next h l t)
    (heq : ∀ a ∈ l, next' a = next a) : Segment next' h l t := by
  induction l generalizing h with
  | nil => exact hs
  | cons a l ih =>
      refine ⟨hs.1, ?_⟩
      rw [heq a (by simp)]
      exact ih hs.2 fun b hb => heq b (by simp [hb])

/-- A complete walk determines the nodes it visits. -/
theorem Segment.unique {h : Option α} {l l' : List α} (hs : Segment next h l none)
    (hs' : Segment next h l' none) : l = l' := by
  induction l generalizing h l' with
  | nil =>
      cases l' with
      | nil => rfl
      | cons b l' => exact absurd (hs.symm.trans hs'.1) (by simp)
  | cons a l ih =>
      cases l' with
      | nil => exact absurd (hs'.symm.trans hs.1) (by simp)
      | cons b l' =>
          have hab : a = b := Option.some.inj (hs.1.symm.trans hs'.1)
          subst hab
          rw [ih hs.2 hs'.2]

/-- The first pointer of a nonempty complete walk is its first node. -/
theorem Segment.head?_eq {h : Option α} {l : List α} (hs : Segment next h l none) :
    h = l.head? := by
  cases l with
  | nil => exact hs
  | cons a l => exact hs.1

end Segments

/-- The pointers `head` and `tail` represent the list `l` over the links
`next`. -/
structure IsQueue (next : α → Option α) (head tail : Option α) (l : List α) : Prop where
  walk : Segment next head l none
  tail_eq : tail = l.getLast?
  nodup : l.Nodup

namespace IsQueue

variable {next next' : α → Option α} {head tail : Option α} {l u v : List α} {a p : α}

/-- No nodes, no pointers. -/
theorem empty (next : α → Option α) : IsQueue next none none [] :=
  ⟨rfl, rfl, List.nodup_nil⟩

theorem head_eq (hq : IsQueue next head tail l) : head = l.head? := hq.walk.head?_eq

theorem head_eq_none_iff (hq : IsQueue next head tail l) : head = none ↔ l = [] := by
  rw [hq.head_eq, List.head?_eq_none_iff]

theorem tail_eq_none_iff (hq : IsQueue next head tail l) : tail = none ↔ l = [] := by
  rw [hq.tail_eq, List.getLast?_eq_none_iff]

/-- The represented list is determined by the head pointer and the links. -/
theorem unique {tail' : Option α} {l' : List α} (hq : IsQueue next head tail l)
    (hq' : IsQueue next head tail' l') : l = l' :=
  hq.walk.unique hq'.walk

/-- Link updates outside the queue leave it alone. -/
theorem congr (hq : IsQueue next head tail l) (heq : ∀ a ∈ l, next' a = next a) :
    IsQueue next' head tail l :=
  ⟨hq.walk.congr heq, hq.tail_eq, hq.nodup⟩

/-- The link of a node is the node that follows it. -/
theorem next_eq (hq : IsQueue next head tail (u ++ a :: v)) : next a = v.head? := by
  obtain ⟨m, -, hm⟩ := segment_append.mp hq.walk
  exact hm.2.head?_eq

/-- The last node is the one without a link. -/
theorem next_eq_none_iff (hq : IsQueue next head tail l) (ha : a ∈ l) :
    next a = none ↔ l.getLast? = some a := by
  obtain ⟨u, v, rfl⟩ := List.append_of_mem ha
  rw [hq.next_eq, List.head?_eq_none_iff]
  constructor
  · rintro rfl
    simp
  · intro hlast
    cases v with
    | nil => rfl
    | cons b v =>
        have hav := (List.nodup_cons.mp (List.nodup_append.mp hq.nodup).2.1).1
        refine absurd (List.mem_of_getLast? (a := a) (l := b :: v) ?_) hav
        simpa [List.getLast?_append] using hlast

section Operations
variable [DecidableEq α]

/-- Appending to an empty queue: both pointers move to the node. -/
theorem enqueue_nil (next : α → Option α) (a : α) :
    IsQueue (Function.update next a none) (some a) (some a) [a] :=
  ⟨⟨rfl, by simp [Segment]⟩, rfl, List.nodup_singleton a⟩

/-- Appending behind the tail `t`. -/
theorem enqueue {t : α} (hq : IsQueue next head (some t) l) (ha : a ∉ l) :
    IsQueue (Function.update (Function.update next a none) t (some a)) head (some a)
      (l ++ [a]) := by
  obtain ⟨w, rfl⟩ : ∃ w, l = w ++ [t] := List.getLast?_eq_some_iff.mp hq.tail_eq.symm
  have hat : a ≠ t := fun h => ha (by simp [h])
  have htw : t ∉ w := fun h => by
    have := List.nodup_append.mp hq.nodup
    exact this.2.2 t h t (by simp) rfl
  refine ⟨?_, by simp, ?_⟩
  · obtain ⟨m, hw, hm⟩ := segment_append.mp hq.walk
    rw [List.append_assoc]
    refine segment_append.mpr ⟨m, hw.congr fun b hb => ?_, hm.1, ?_⟩
    · have hbt : b ≠ t := ne_of_mem_of_not_mem hb htw
      have hba : b ≠ a := fun h => ha (by simp [← h, hb])
      simp [Function.update_of_ne hbt, Function.update_of_ne hba]
    · simp [Segment, Function.update_of_ne hat]
  · exact List.nodup_append.mpr ⟨hq.nodup, List.nodup_singleton a, by
      intro b hb c hc h
      simp only [List.mem_singleton] at hc
      exact ha (hc ▸ h ▸ hb)⟩

/-- Cutting off the last node. -/
theorem cut {t : α} (hq : IsQueue next head (some a) (l ++ [t] ++ [a])) :
    IsQueue (Function.update next t none) head (some t) (l ++ [t]) := by
  have hnd := (List.nodup_append.mp hq.nodup).1
  have htl : t ∉ l := fun h => (List.nodup_append.mp hnd).2.2 t h t (by simp) rfl
  obtain ⟨m, hl, -⟩ := segment_append.mp hq.walk
  obtain ⟨m', hu, ht, -⟩ := segment_append.mp hl
  refine ⟨segment_append.mpr ⟨m', hu.congr fun b hb => ?_, ht, ?_⟩, by simp, hnd⟩
  · exact Function.update_of_ne (ne_of_mem_of_not_mem hb htl) _ _
  · simp [Segment]

/-- Removing the head. The tail becomes empty with the queue. -/
theorem dequeue (hq : IsQueue next head tail (a :: l)) :
    IsQueue (Function.update next a none) (next a)
      (if next a = none then none else tail) l := by
  have hal : a ∉ l := (List.nodup_cons.mp hq.nodup).1
  have hnext : next a = l.head? := hq.walk.2.head?_eq
  refine ⟨hq.walk.2.congr fun b hb => ?_, ?_, (List.nodup_cons.mp hq.nodup).2⟩
  · exact Function.update_of_ne (ne_of_mem_of_not_mem hb hal) _ _
  · rw [hq.tail_eq]
    cases l with
    | nil => simp [hnext]
    | cons b l => simp [hnext, List.getLast?_cons_cons]

/-- Removing a node from anywhere, given its predecessor: `none` when the node is
the head. The links and the pointers change as a bypass of the node. -/
theorem unlink (hq : IsQueue next head tail (u ++ a :: v)) :
    IsQueue
      (Function.update
        (match u.getLast? with
          | none => next
          | some p => Function.update next p (next a)) a none)
      (match u.getLast? with
        | none => next a
        | some _ => head)
      (if tail = some a then u.getLast? else tail) (u ++ v) := by
  have hnd := List.nodup_append.mp hq.nodup
  have hav : a ∉ v := (List.nodup_cons.mp hnd.2.1).1
  have hau : a ∉ u := fun h => hnd.2.2 a h a (by simp) rfl
  have huv : ∀ b ∈ u, b ∉ v := fun b hb hv => hnd.2.2 b hb b (by simp [hv]) rfl
  have hnd' : (u ++ v).Nodup := List.nodup_append.mpr
    ⟨hnd.1, (List.nodup_cons.mp hnd.2.1).2, fun b hb c hc h => huv b hb (h ▸ hc)⟩
  have htail : (if tail = some a then u.getLast? else tail) = (u ++ v).getLast? := by
    rw [hq.tail_eq]
    cases v with
    | nil => simp
    | cons b v =>
        have hne : (u ++ a :: b :: v).getLast? ≠ some a := fun h => by
          have hmem : a ∈ b :: v := by
            have : (b :: v).getLast? = some a := by simpa [List.getLast?_append] using h
            exact List.mem_of_getLast? this
          exact hav hmem
        rw [if_neg hne]
        simp [List.getLast?_append]
  obtain ⟨m, hu, hm, hv⟩ := segment_append.mp hq.walk
  rcases List.eq_nil_or_concat u with rfl | ⟨w, p, rfl⟩
  · refine ⟨?_, htail, hnd'⟩
    simp only [List.getLast?_nil, List.nil_append]
    exact hv.congr fun b hb => Function.update_of_ne (ne_of_mem_of_not_mem hb hav) _ _
  · rw [List.concat_eq_append] at *
    have hpw : p ∉ w := fun h => (List.nodup_append.mp hnd.1).2.2 p h p (by simp) rfl
    have hap : p ≠ a := fun h => hau (by simp [h])
    refine ⟨?_, htail, hnd'⟩
    simp only [List.getLast?_append, List.getLast?_singleton, Option.some_or]
    obtain ⟨m', hw, hp⟩ := segment_append.mp hu
    refine segment_append.mpr ⟨next a, segment_append.mpr ⟨m', hw.congr fun b hb => ?_,
      hp.1, ?_⟩, hv.congr fun b hb => ?_⟩
    · have hba : b ≠ a := fun h => hau (by simp [← h, hb])
      have hbp : b ≠ p := ne_of_mem_of_not_mem hb hpw
      simp [Function.update_of_ne hba, Function.update_of_ne hbp]
    · simp [Segment, Function.update_of_ne hap]
    · have hba : b ≠ a := ne_of_mem_of_not_mem hb hav
      have hbp : b ≠ p := ne_of_mem_of_not_mem hb (huv p (by simp))
      simp [Function.update_of_ne hba, Function.update_of_ne hbp]

/-- Linking a fresh node in front of the head of a nonempty queue. -/
theorem insertFirst (hq : IsQueue next head tail l) (hl : l ≠ []) (ha : a ∉ l) :
    IsQueue (Function.update next a head) (some a) tail (a :: l) := by
  refine ⟨⟨rfl, ?_⟩, ?_, List.nodup_cons.mpr ⟨ha, hq.nodup⟩⟩
  · rw [Function.update_self]
    exact hq.walk.congr fun b hb => Function.update_of_ne (ne_of_mem_of_not_mem hb ha) _ _
  · rw [hq.tail_eq]
    cases l with
    | nil => exact absurd rfl hl
    | cons b l => rfl

/-- Linking a fresh node behind the node `p`. The tail moves only when `p` was
the last node. -/
theorem insertAfter (hq : IsQueue next head tail (u ++ p :: v)) (ha : a ∉ u ++ p :: v) :
    IsQueue (Function.update (Function.update next a (next p)) p (some a)) head
      (if next p = none then some a else tail) (u ++ p :: a :: v) := by
  have hnd := List.nodup_append.mp hq.nodup
  have hpv : p ∉ v := (List.nodup_cons.mp hnd.2.1).1
  have hpu : p ∉ u := fun h => hnd.2.2 p h p (by simp) rfl
  have hap : a ≠ p := fun h => ha (by simp [h])
  obtain ⟨m, hu, hm, hv⟩ := segment_append.mp hq.walk
  refine ⟨segment_append.mpr ⟨m, hu.congr fun b hb => ?_, hm, ?_, ?_⟩, ?_, ?_⟩
  · have hbp : b ≠ p := ne_of_mem_of_not_mem hb hpu
    have hba : b ≠ a := fun h => ha (by simp [← h, hb])
    simp [Function.update_of_ne hbp, Function.update_of_ne hba]
  · simp
  · simp only [ne_eq, hap, not_false_eq_true, Function.update_of_ne, Function.update_self]
    refine hv.congr fun b hb => ?_
    have hbp : b ≠ p := ne_of_mem_of_not_mem hb hpv
    have hba : b ≠ a := fun h => ha (by simp [← h, hb])
    simp [Function.update_of_ne hbp, Function.update_of_ne hba]
  · rw [hq.tail_eq]
    cases v with
    | nil => simp [hv.head?_eq, List.getLast?_append]
    | cons b v => simp [hv.head?_eq, List.getLast?_append]
  · have hperm : (u ++ p :: a :: v).Perm (a :: (u ++ p :: v)) := by
      have h1 : (u ++ p :: a :: v) = (u ++ [p]) ++ a :: v := by simp
      have h2 : (u ++ p :: v) = (u ++ [p]) ++ v := by simp
      rw [h1, h2]
      exact List.perm_middle
    exact hperm.nodup_iff.mpr (List.nodup_cons.mpr ⟨ha, hq.nodup⟩)

end Operations

end IsQueue

end DemoOS.Support
