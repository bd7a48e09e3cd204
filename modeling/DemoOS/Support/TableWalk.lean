import Mathlib.Data.List.Induction
import Mathlib.Data.List.Infix

/-!
# `DemoOS.Support.TableWalk`: radix trees of tables

Tables `τ` have entries at indices `ι`, and an entry points to a table of the next level, or at
the last level to a leaf. `tableWalk E root path` follows a path of indices. `IsTree` says that
no two paths to a table meet, so that the tables above the leaves form a tree, whose tables are
all in a list.

Only the entries of the listed tables count (`IsTree.congr`). There are two updates.
`IsTree.addTable` hangs an empty table into an unused entry and changes
no walk to a leaf. `IsTree.setLeaf` writes an entry of the last level and changes the walk along
its own path only. Nothing is asked of entries outside the listed tables, so that the tables may
lie in a memory that holds other data.
-/

set_option autoImplicit false

namespace DemoOS.Support

variable {τ ι : Type*}

/-- Where a path of indices leads. -/
def tableWalk (E : τ → ι → Option τ) (root : τ) (path : List ι) : Option τ := path.foldlM E root

section Walk
variable {E : τ → ι → Option τ} {root t : τ} {u v : List ι} {i : ι}

@[simp] theorem tableWalk_nil : tableWalk E root [] = some root := rfl

theorem tableWalk_cons : tableWalk E root (i :: u) = (E root i).bind fun t => tableWalk E t u :=
  List.foldlM_cons

theorem tableWalk_append :
    tableWalk E root (u ++ v) = (tableWalk E root u).bind fun t => tableWalk E t v :=
  List.foldlM_append

theorem tableWalk_concat :
    tableWalk E root (u ++ [i]) = (tableWalk E root u).bind fun t => E t i := by
  rw [tableWalk_append]
  congr 1
  funext t
  rw [tableWalk_cons]
  cases E t i <;> rfl

end Walk

/-- The tables at depths below `depth` are in `T`, and each is reached by one path only. -/
structure IsTree (E : τ → ι → Option τ) (root : τ) (depth : Nat) (T : List τ) : Prop where
  mem : ∀ {π t}, π.length < depth → tableWalk E root π = some t → t ∈ T
  unique : ∀ {π ρ t}, π.length < depth → ρ.length < depth → tableWalk E root π = some t →
    tableWalk E root ρ = some t → π = ρ

namespace IsTree

variable {E E' : τ → ι → Option τ} {root t v : τ} {depth : Nat} {T : List τ} {π ρ : List ι} {i : ι}

/-- An empty table is a tree. -/
theorem root_only (hempty : ∀ i, E root i = none) : IsTree E root depth [root] := by
  have hnil : ∀ {π : List ι} {t : τ}, tableWalk E root π = some t → π = [] ∧ t = root := by
    intro π t h
    cases π with
    | nil => exact ⟨rfl, (Option.some.inj h).symm⟩
    | cons i π =>
        rw [tableWalk_cons, hempty] at h
        exact nomatch h
  refine ⟨fun _ h => ?_, fun _ _ h h' => ?_⟩
  · rw [(hnil h).2]
    exact List.mem_cons_self
  · rw [(hnil h).1, (hnil h').1]

/-- Entries outside the tables play no part. -/
theorem congr (h : IsTree E root depth T) (heq : ∀ s ∈ T, ∀ i, E' s i = E s i) :
    IsTree E' root depth T
      ∧ ∀ ρ, ρ.length ≤ depth → tableWalk E' root ρ = tableWalk E root ρ := by
  have hwalk : ∀ ρ, ρ.length ≤ depth → tableWalk E' root ρ = tableWalk E root ρ := by
    intro ρ hρ
    induction ρ using List.reverseRecOn with
    | nil => rfl
    | append_singleton ρ j ih =>
        have hlt : ρ.length < depth := by
          rw [List.length_append, List.length_singleton] at hρ
          exact hρ
        rw [tableWalk_concat, tableWalk_concat, ih (Nat.le_of_lt hlt)]
        cases hs : tableWalk E root ρ with
        | none => rfl
        | some s => exact heq s (h.mem hlt hs) j
  refine ⟨⟨fun hlt hs => ?_, fun hlt hlt' hs hs' => ?_⟩, hwalk⟩
  · rw [hwalk _ (Nat.le_of_lt hlt)] at hs
    exact h.mem hlt hs
  · rw [hwalk _ (Nat.le_of_lt hlt)] at hs
    rw [hwalk _ (Nat.le_of_lt hlt')] at hs'
    exact h.unique hlt hlt' hs hs'

/-- The update writes entry `i` of the table `t` that the path `π` leads to. -/
structure Writes (E E' : τ → ι → Option τ) (T : List τ) (t : τ) (i : ι) (v : τ) : Prop where
  entry : E' t i = some v
  other : ∀ s ∈ T, ∀ j, s ≠ t ∨ j ≠ i → E' s j = E s j

section Update
variable (h : IsTree E root depth T) (hw : Writes E E' T t i v) (hπ : tableWalk E root π = some t)
include h hw hπ

/-- Walks that do not go through the entry are not changed. -/
theorem walk_of_not_prefix (hlen : π.length < depth) (hρ : ρ.length ≤ depth)
    (hnot : ¬ π ++ [i] <+: ρ) : tableWalk E' root ρ = tableWalk E root ρ := by
  induction ρ using List.reverseRecOn with
  | nil => rfl
  | append_singleton ρ j ih =>
      have hlt : ρ.length < depth := by
        rw [List.length_append, List.length_singleton] at hρ
        exact hρ
      have hprefix : ¬ π ++ [i] <+: ρ := fun hp => hnot (hp.trans (List.prefix_append ρ [j]))
      rw [tableWalk_concat, tableWalk_concat, ih (Nat.le_of_lt hlt) hprefix]
      cases hs : tableWalk E root ρ with
      | none => rfl
      | some s =>
          refine hw.other s (h.mem hlt hs) j ?_
          -- A walk that ends in `t` is the walk along `π`.
          by_contra hboth
          obtain ⟨hst, hji⟩ := not_or.mp hboth
          rw [not_not.mp hst] at hs
          rw [h.unique hlt hlen hs hπ, not_not.mp hji] at hnot
          exact hnot (List.prefix_refl _)

/-- Walks that go through the entry go on in the new table. -/
theorem walk_of_prefix (hlen : π.length < depth) (ρ : List ι) :
    tableWalk E' root (π ++ [i] ++ ρ) = tableWalk E' v ρ := by
  have hself : ¬ π ++ [i] <+: π := fun hp => by
    have hle := hp.length_le
    rw [List.length_append, List.length_singleton] at hle
    exact Nat.not_succ_le_self _ hle
  have hwalk := h.walk_of_not_prefix hw hπ hlen (Nat.le_of_lt hlen) hself
  rw [tableWalk_append, tableWalk_concat, hwalk, hπ, Option.bind_some, hw.entry, Option.bind_some]

/-- An empty table outside the tree becomes a part of it. -/
theorem addTable (hlen : π.length + 1 < depth) (hunused : E t i = none) (hfresh : v ∉ T)
    (hempty : ∀ j, E' v j = none) :
    IsTree E' root depth (T ++ [v]) ∧ tableWalk E' root (π ++ [i]) = some v
      ∧ ∀ ρ, ρ.length = depth → tableWalk E' root ρ = tableWalk E root ρ := by
  have hπlen : π.length < depth := Nat.lt_of_succ_lt hlen
  have hnew := h.walk_of_prefix hw hπ hπlen
  -- A walk along a path of at most full length is an old one, or ends in the new table.
  have hwalk : ∀ {ρ s}, ρ.length ≤ depth → tableWalk E' root ρ = some s →
      tableWalk E root ρ = some s ∨ ρ = π ++ [i] ∧ s = v := by
    intro ρ s hρ hs
    by_cases hp : π ++ [i] <+: ρ
    · obtain ⟨σ, rfl⟩ := hp
      rw [hnew] at hs
      cases σ with
      | nil =>
          rw [List.append_nil]
          exact Or.inr ⟨rfl, (Option.some.inj hs).symm⟩
      | cons j σ =>
          rw [tableWalk_cons, hempty] at hs
          exact nomatch hs
    · rw [h.walk_of_not_prefix hw hπ hπlen hρ hp] at hs
      exact Or.inl hs
  refine ⟨⟨fun hlt hs => ?_, fun hlt hlt' hs hs' => ?_⟩, ?_, fun ρ hρ => ?_⟩
  · rcases hwalk (Nat.le_of_lt hlt) hs with hold | ⟨-, rfl⟩
    · exact List.mem_append_left _ (h.mem hlt hold)
    · exact List.mem_append_right _ List.mem_cons_self
  · rcases hwalk (Nat.le_of_lt hlt) hs with hold | ⟨hπρ, rfl⟩ <;>
      rcases hwalk (Nat.le_of_lt hlt') hs' with hold' | ⟨hπρ', hv⟩
    · exact h.unique hlt hlt' hold hold'
    · exact absurd (h.mem hlt hold) (hv ▸ hfresh)
    · exact absurd (h.mem hlt' hold') hfresh
    · rw [hπρ, hπρ']
  · have hend := hnew []
    rwa [List.append_nil] at hend
  · by_cases hp : π ++ [i] <+: ρ
    · obtain ⟨σ, rfl⟩ := hp
      have hold : tableWalk E root (π ++ [i] ++ σ) = none := by
        rw [tableWalk_append, tableWalk_concat, hπ, Option.bind_some, hunused]
        rfl
      cases σ with
      | nil =>
          simp only [List.append_nil, List.length_append, List.length_singleton] at hρ
          omega
      | cons j σ => rw [hold, hnew, tableWalk_cons, hempty, Option.bind_none]
    · exact h.walk_of_not_prefix hw hπ hπlen (Nat.le_of_eq hρ) hp

/-- A leaf is set. -/
theorem setLeaf (hlen : π.length + 1 = depth) :
    IsTree E' root depth T ∧ tableWalk E' root (π ++ [i]) = some v
      ∧ ∀ ρ, ρ.length < depth ∨ ρ.length = depth ∧ ρ ≠ π ++ [i] →
        tableWalk E' root ρ = tableWalk E root ρ := by
  have hπlen : π.length < depth := hlen ▸ Nat.lt_succ_self _
  have hkeep : ∀ ρ, ρ.length < depth ∨ ρ.length = depth ∧ ρ ≠ π ++ [i] →
      tableWalk E' root ρ = tableWalk E root ρ := by
    intro ρ hρ
    refine h.walk_of_not_prefix hw hπ hπlen ?_ fun hp => ?_
    · exact hρ.elim Nat.le_of_lt fun hρ => Nat.le_of_eq hρ.1
    · -- Only the path itself is long enough.
      have hle := hp.length_le
      rw [List.length_append, List.length_singleton, hlen] at hle
      rcases hρ with hlt | ⟨heq, hne⟩
      · exact Nat.lt_irrefl _ (Nat.lt_of_lt_of_le hlt hle)
      · refine hne (hp.eq_of_length ?_).symm
        rw [List.length_append, List.length_singleton, hlen, heq]
  refine ⟨⟨fun hlt hs => ?_, fun hlt hlt' hs hs' => ?_⟩, ?_, hkeep⟩
  · rw [hkeep _ (Or.inl hlt)] at hs
    exact h.mem hlt hs
  · rw [hkeep _ (Or.inl hlt)] at hs
    rw [hkeep _ (Or.inl hlt')] at hs'
    exact h.unique hlt hlt' hs hs'
  · have hend := h.walk_of_prefix hw hπ hπlen []
    rwa [List.append_nil] at hend

end Update

end IsTree

end DemoOS.Support
