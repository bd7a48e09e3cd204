import Mathlib.Data.Finset.Card
import Mathlib.Data.List.Nodup
import Mathlib.Logic.Function.Basic

/-!
# `DemoOS.Support.ChainTable`: chains in an allocation table

A table says of every block whether it is free, or which block follows it in its chain.
`IsChain t l` says that the blocks of `l` follow each other, up to a last one. `Chains` is the
invariant of a table with several chains: they have no block in common, and a block in none of them
is free, or not to be used.

The operations are `Chains.create` (a chain of one block), `Chains.stretch` (a free block behind
the last one of a chain) and `Chains.remove` (all blocks of a chain become free). `freeCount`
follows the number of free blocks.
-/

set_option autoImplicit false

namespace DemoOS.Support

/-- An entry of the table. -/
inductive Cell (κ : Type) where
  | free
  | next (k : κ)
  | last
  /-- The block is not to be used. -/
  | bad
  /-- The entry has no meaning. -/
  | broken
deriving DecidableEq, Repr

variable {κ : Type} {t t' : κ → Cell κ} {a k : κ} {l : List κ}

/-- The blocks follow each other, and the last one is marked. -/
def IsChain (t : κ → Cell κ) : List κ → Prop
  | [] => False
  | [k] => t k = .last
  | k :: k' :: l => t k = .next k' ∧ IsChain t (k' :: l)

namespace IsChain

theorem ne_nil (h : IsChain t l) : l ≠ [] := by
  rintro rfl
  exact h

/-- A chain depends on its own blocks only. -/
theorem congr (h : IsChain t l) (heq : ∀ k ∈ l, t' k = t k) : IsChain t' l := by
  induction l with
  | nil => exact h
  | cons k l ih =>
      cases l with
      | nil => exact (heq k List.mem_cons_self).trans h
      | cons k' l =>
          exact ⟨(heq k List.mem_cons_self).trans h.1,
            ih h.2 fun i hi => heq i (List.mem_cons_of_mem k hi)⟩

/-- What the entry of the first block says. -/
theorem head (h : IsChain t (k :: l)) :
    (l = [] ∧ t k = .last) ∨ ∃ k' l', l = k' :: l' ∧ t k = .next k' ∧ IsChain t l := by
  cases l with
  | nil => exact .inl ⟨rfl, h⟩
  | cons k' l' => exact .inr ⟨k', l', rfl, h.1, h.2⟩

/-- The blocks of a chain are not free, and not bad. -/
theorem used (h : IsChain t l) (hk : k ∈ l) : t k = .last ∨ ∃ k', t k = .next k' := by
  induction l with
  | nil => exact absurd hk List.not_mem_nil
  | cons b l ih =>
      rcases h.head with ⟨rfl, hlast⟩ | ⟨k', l', -, hnext, hrest⟩
      · rw [List.mem_singleton.mp hk]
        exact .inl hlast
      · rcases List.mem_cons.mp hk with rfl | hk
        · exact .inr ⟨k', hnext⟩
        · exact ih hrest hk

/-- The last block of a chain is marked. -/
theorem concat (h : IsChain t (l ++ [a])) : t a = .last := by
  induction l with
  | nil => exact h
  | cons b l ih =>
      rcases h.head with ⟨hnil, -⟩ | ⟨-, -, -, -, hrest⟩
      · exact absurd hnil (List.append_ne_nil_of_right_ne_nil l (List.cons_ne_nil a []))
      · exact ih hrest

/-- The end of a chain is a chain. -/
theorem suffix {front : List κ} (h : IsChain t (front ++ l)) (hne : l ≠ []) : IsChain t l := by
  induction front with
  | nil => exact h
  | cons b front ih =>
      rcases h.head with ⟨hnil, -⟩ | ⟨-, -, -, -, hrest⟩
      · exact absurd (List.append_eq_nil_iff.mp hnil).2 hne
      · exact ih hrest

/-- Numbered blocks in front of a chain. -/
theorem numbered {f : Nat → κ} {n : Nat} (hstep : ∀ i < n, t (f i) = .next (f (i + 1)))
    (h : IsChain t (f n :: l)) : IsChain t ((List.range (n + 1)).map f ++ l) := by
  induction n generalizing l with
  | zero => exact h
  | succ n ih =>
      have hlink : IsChain t (f n :: f (n + 1) :: l) := ⟨hstep n (Nat.lt_succ_self n), h⟩
      have hfront := ih (fun i hi => hstep i (Nat.lt_succ_of_lt hi)) hlink
      rw [List.range_succ, List.map_append, List.append_assoc]
      exact hfront

/-- A block behind the last one. -/
theorem stretch (h : IsChain t (l ++ [a])) (hsame : ∀ i ∈ l, t' i = t i) (hlink : t' a = .next k)
    (hlast : t' k = .last) : IsChain t' (l ++ [a, k]) := by
  induction l with
  | nil => exact ⟨hlink, hlast⟩
  | cons b l ih =>
      rcases h.head with ⟨hnil, -⟩ | ⟨k', l', heq, hnext, hrest⟩
      · exact absurd hnil (List.append_ne_nil_of_right_ne_nil l (List.cons_ne_nil a []))
      · have htail := ih hrest fun i hi => hsame i (List.mem_cons_of_mem b hi)
        -- The second block is the same one.
        obtain ⟨m, hm⟩ : ∃ m, l ++ [a, k] = k' :: m := by
          cases l with
          | nil => exact ⟨[k], by rw [(List.cons.inj heq).1]; rfl⟩
          | cons c l => exact ⟨l ++ [a, k], by rw [← (List.cons.inj heq).1]; rfl⟩
        rw [List.cons_append, hm]
        rw [hm] at htail
        exact ⟨(hsame b List.mem_cons_self).trans hnext, htail⟩

end IsChain

/-- The blocks `dom` are those of the chains, and free or bad ones. -/
structure Chains (t : κ → Cell κ) (dom : Finset κ) (chains : List (List κ)) : Prop where
  chain : ∀ l ∈ chains, IsChain t l
  inside : ∀ k ∈ chains.flatten, k ∈ dom
  nodup : chains.flatten.Nodup
  rest : ∀ k ∈ dom, k ∉ chains.flatten → t k = .free ∨ t k = .bad

namespace Chains

variable {dom : Finset κ} {before after chains : List (List κ)}

/-- The invariant is about the entries of the blocks only. -/
theorem congr (h : Chains t dom chains) (heq : ∀ k ∈ dom, t' k = t k) : Chains t' dom chains := by
  refine ⟨fun l hl => ?_, h.inside, h.nodup, fun k hk hni => ?_⟩
  · exact (h.chain l hl).congr fun i hi => heq i (h.inside i (List.mem_flatten_of_mem hl hi))
  · rw [heq k hk]
    exact h.rest k hk hni

/-- A free block is in no chain. -/
theorem not_mem_of_free (h : Chains t dom chains) (hfree : t k = .free) : k ∉ chains.flatten := by
  intro hk
  obtain ⟨l, hl, hk⟩ := List.mem_flatten.mp hk
  rcases (h.chain l hl).used hk with hlast | ⟨k', hnext⟩
  · rw [hfree] at hlast
    cases hlast
  · rw [hfree] at hnext
    cases hnext

/-- A free block becomes a chain. -/
theorem create (h : Chains t dom chains) (hk : k ∈ dom) (hfree : t k = .free)
    (hlast : t' k = .last) (hsame : ∀ i ∈ dom, i ≠ k → t' i = t i) :
    Chains t' dom (chains ++ [[k]]) := by
  have hnot := h.not_mem_of_free hfree
  have hflat : (chains ++ [[k]]).flatten = chains.flatten ++ [k] := by simp
  refine ⟨fun l hl => ?_, fun i hi => ?_, ?_, fun i hi hni => ?_⟩
  · rcases List.mem_append.mp hl with hold | hnew
    · refine (h.chain l hold).congr fun i hi => hsame i ?_ ?_
      · exact h.inside i (List.mem_flatten_of_mem hold hi)
      · rintro rfl
        exact hnot (List.mem_flatten_of_mem hold hi)
    · rw [List.mem_singleton.mp hnew]
      exact hlast
  · rw [hflat] at hi
    rcases List.mem_append.mp hi with hi | hi
    · exact h.inside i hi
    · rw [List.mem_singleton.mp hi]
      exact hk
  · rw [hflat]
    refine List.nodup_append.mpr ⟨h.nodup, List.nodup_singleton k, fun i hi j hj => ?_⟩
    rw [List.mem_singleton.mp hj]
    rintro rfl
    exact hnot hi
  · rw [hflat, List.mem_append, not_or] at hni
    rw [hsame i hi fun he => hni.2 (List.mem_singleton.mpr he)]
    exact h.rest i hi hni.1

/-- A free block is put behind the last one of a chain. -/
theorem stretch (h : Chains t dom (before ++ (l ++ [a]) :: after)) (hk : k ∈ dom)
    (hfree : t k = .free) (hlink : t' a = .next k) (hlast : t' k = .last)
    (hsame : ∀ i ∈ dom, i ≠ k → i ≠ a → t' i = t i) :
    Chains t' dom (before ++ (l ++ [a, k]) :: after) := by
  have hnot := h.not_mem_of_free hfree
  have hflat : (before ++ (l ++ [a, k]) :: after).flatten.Perm
      (k :: (before ++ (l ++ [a]) :: after).flatten) := by
    simp only [List.flatten_append, List.flatten_cons]
    have hmove : (l ++ [a, k] ++ after.flatten).Perm (k :: (l ++ [a] ++ after.flatten)) := by
      simpa using (@List.perm_middle κ k (l ++ [a]) after.flatten)
    exact (hmove.append_left before.flatten).trans List.perm_middle
  have hmem : ∀ i, i ∈ (before ++ (l ++ [a, k]) :: after).flatten
      ↔ i = k ∨ i ∈ (before ++ (l ++ [a]) :: after).flatten := fun i => by
    rw [hflat.mem_iff, List.mem_cons]
  have hself : l ++ [a] ∈ before ++ (l ++ [a]) :: after :=
    List.mem_append_right _ List.mem_cons_self
  -- The other chains have neither block.
  have hother : ∀ m ∈ before ++ (l ++ [a]) :: after, ∀ i ∈ m, i ≠ k := by
    rintro m hm i hi rfl
    exact hnot (List.mem_flatten_of_mem hm hi)
  have hnodup := h.nodup
  have hcongr : ∀ m ∈ before ++ after, IsChain t' m := by
    intro m hm
    have hm' : m ∈ before ++ (l ++ [a]) :: after := by
      rcases List.mem_append.mp hm with hm | hm
      · exact List.mem_append_left _ hm
      · exact List.mem_append_right _ (List.mem_cons_of_mem _ hm)
    refine (h.chain m hm').congr fun i hi =>
      hsame i (h.inside i (List.mem_flatten_of_mem hm' hi)) (hother m hm' i hi) ?_
    rintro rfl
    simp only [List.flatten_append, List.flatten_cons, List.nodup_append, List.mem_append,
      List.mem_flatten] at hnodup
    rcases List.mem_append.mp hm with hm | hm
    · exact hnodup.2.2 i ⟨m, hm, hi⟩ i (.inl (.inr (List.mem_singleton_self i))) rfl
    · exact hnodup.2.1.2.2 i (.inr (List.mem_singleton_self i)) i ⟨m, hm, hi⟩ rfl
  refine ⟨fun m hm => ?_, fun i hi => ?_, ?_, fun i hi hni => ?_⟩
  · rcases List.mem_append.mp hm with hm | hm
    · exact hcongr m (List.mem_append_left _ hm)
    · rcases List.mem_cons.mp hm with rfl | hm
      · refine (h.chain _ hself).stretch (fun i hi => ?_) hlink hlast
        have hil : i ∈ l ++ [a] := List.mem_append_left _ hi
        refine hsame i (h.inside i (List.mem_flatten_of_mem hself hil))
          (hother _ hself i hil) ?_
        rintro rfl
        have hla : (l ++ [i]).Nodup := (List.nodup_flatten.mp hnodup).1 _ hself
        exact (List.nodup_append.mp hla).2.2 i hi i (List.mem_singleton_self i) rfl
      · exact hcongr m (List.mem_append_right _ hm)
  · rcases (hmem i).mp hi with rfl | hi
    · exact hk
    · exact h.inside i hi
  · rw [hflat.nodup_iff]
    exact List.nodup_cons.mpr ⟨hnot, hnodup⟩
  · rw [hmem, not_or] at hni
    rw [hsame i hi hni.1 ?_]
    · exact h.rest i hi hni.2
    · rintro rfl
      exact hni.2 (List.mem_flatten_of_mem hself (by simp))

/-- The blocks of a chain become free. -/
theorem remove (h : Chains t dom (before ++ l :: after)) (hfree : ∀ i ∈ l, t' i = .free)
    (hsame : ∀ i ∈ dom, i ∉ l → t' i = t i) : Chains t' dom (before ++ after) := by
  have hmem : ∀ i, i ∈ (before ++ l :: after).flatten
      ↔ i ∈ l ∨ i ∈ (before ++ after).flatten := by
    intro i
    simp only [List.flatten_append, List.flatten_cons, List.mem_append]
    tauto
  have hnodup := h.nodup
  simp only [List.flatten_append, List.flatten_cons, List.nodup_append, List.mem_append]
    at hnodup
  have hsub : ∀ m ∈ before ++ after, m ∈ before ++ l :: after := by
    intro m hm
    rcases List.mem_append.mp hm with hm | hm
    · exact List.mem_append_left _ hm
    · exact List.mem_append_right _ (List.mem_cons_of_mem _ hm)
  have hdisjoint : ∀ i ∈ (before ++ after).flatten, i ∉ l := by
    intro i hi hil
    rw [List.flatten_append, List.mem_append] at hi
    rcases hi with hi | hi
    · exact hnodup.2.2 i hi i (.inl hil) rfl
    · exact hnodup.2.1.2.2 i hil i hi rfl
  refine ⟨fun m hm => ?_, fun i hi => h.inside i ((hmem i).mpr (.inr hi)), ?_,
    fun i hi hni => ?_⟩
  · refine (h.chain m (hsub m hm)).congr fun i hi => ?_
    have hif := List.mem_flatten_of_mem hm hi
    exact hsame i (h.inside i ((hmem i).mpr (.inr hif))) (hdisjoint i hif)
  · rw [List.flatten_append, List.nodup_append]
    exact ⟨hnodup.1, hnodup.2.1.2.1, fun i hi j hj => hnodup.2.2 i hi j (.inr hj)⟩
  · by_cases hil : i ∈ l
    · exact .inl (hfree i hil)
    · rw [hsame i hi hil]
      exact h.rest i hi fun hif => ((hmem i).mp hif).elim hil hni

/-- The first blocks of a chain become free. -/
theorem behead {front : List κ} (h : Chains t dom (before ++ (front ++ l) :: after))
    (hne : l ≠ []) (hfree : ∀ i ∈ front, t' i = .free)
    (hsame : ∀ i ∈ dom, i ∉ front → t' i = t i) : Chains t' dom (before ++ l :: after) := by
  have hmem : ∀ i, i ∈ (before ++ (front ++ l) :: after).flatten
      ↔ i ∈ front ∨ i ∈ (before ++ l :: after).flatten := by
    intro i
    simp only [List.flatten_append, List.flatten_cons, List.mem_append]
    tauto
  have hperm : (before ++ (front ++ l) :: after).flatten.Perm
      (front ++ (before ++ l :: after).flatten) := by
    simp only [List.flatten_append, List.flatten_cons, List.append_assoc]
    exact List.perm_append_comm_assoc _ _ _
  have hnodup := List.nodup_append.mp (hperm.nodup_iff.mp h.nodup)
  have hself : front ++ l ∈ before ++ (front ++ l) :: after :=
    List.mem_append_right _ List.mem_cons_self
  have hinside : ∀ i ∈ (before ++ l :: after).flatten, i ∈ dom ∧ i ∉ front := fun i hi =>
    ⟨h.inside i ((hmem i).mpr (.inr hi)), fun hif => hnodup.2.2 i hif i hi rfl⟩
  refine ⟨fun m hm => ?_, fun i hi => (hinside i hi).1, hnodup.2.1, fun i hi hni => ?_⟩
  · have hold : IsChain t m := by
      rcases List.mem_append.mp hm with hm | hm
      · exact h.chain m (List.mem_append_left _ hm)
      · rcases List.mem_cons.mp hm with rfl | hm
        · exact (h.chain _ hself).suffix hne
        · exact h.chain m (List.mem_append_right _ (List.mem_cons_of_mem _ hm))
    refine hold.congr fun i hi => ?_
    have hi' := hinside i (List.mem_flatten_of_mem hm hi)
    exact hsame i hi'.1 hi'.2
  · by_cases hif : i ∈ front
    · exact .inl (hfree i hif)
    · rw [hsame i hi hif]
      exact h.rest i hi fun hmem' => ((hmem i).mp hmem').elim hif hni

end Chains

/-! ### Free blocks -/

section FreeCount
variable [DecidableEq κ] {dom : Finset κ}

/-- The number of free blocks. -/
def freeCount (t : κ → Cell κ) (dom : Finset κ) : Nat := (dom.filter fun k => t k = .free).card

/-- A free block is taken. -/
theorem freeCount_take (hk : k ∈ dom) (hfree : t k = .free) (hused : t' k ≠ .free)
    (hsame : ∀ i ∈ dom, i ≠ k → (t' i = .free ↔ t i = .free)) :
    freeCount t' dom + 1 = freeCount t dom := by
  have hfilter : dom.filter (fun i => t i = .free)
      = insert k (dom.filter fun i => t' i = .free) := by
    ext i
    simp only [Finset.mem_filter, Finset.mem_insert]
    by_cases hi : i = k
    · subst hi
      simp [hk, hfree]
    · simp only [hi, false_or]
      exact and_congr_right fun hdom => (hsame i hdom hi).symm
  rw [freeCount, freeCount, hfilter, Finset.card_insert_of_notMem (by simp [hused])]

/-- A block becomes free. -/
theorem freeCount_give (hk : k ∈ dom) (hused : t k ≠ .free) (hfree : t' k = .free)
    (hsame : ∀ i ∈ dom, i ≠ k → (t' i = .free ↔ t i = .free)) :
    freeCount t' dom = freeCount t dom + 1 :=
  (freeCount_take hk hfree hused fun i hi hne => (hsame i hi hne).symm).symm

/-- Several blocks become free. -/
theorem freeCount_release (hnodup : l.Nodup) (hl : ∀ i ∈ l, i ∈ dom)
    (hused : ∀ i ∈ l, t i ≠ .free) (hfree : ∀ i ∈ l, t' i = .free)
    (hsame : ∀ i ∈ dom, i ∉ l → t' i = t i) : freeCount t' dom = freeCount t dom + l.length := by
  have hfilter : dom.filter (fun i => t' i = .free)
      = dom.filter (fun i => t i = .free) ∪ l.toFinset := by
    ext i
    simp only [Finset.mem_filter, Finset.mem_union, List.mem_toFinset]
    by_cases hi : i ∈ l
    · simp [hi, hl i hi, hfree i hi]
    · simp only [hi, or_false]
      exact and_congr_right fun hdom => by rw [hsame i hdom hi]
  have hdisjoint : Disjoint (dom.filter fun i => t i = .free) l.toFinset := by
    refine Finset.disjoint_left.mpr fun i hi hil => ?_
    exact hused i (List.mem_toFinset.mp hil) (Finset.mem_filter.mp hi).2
  rw [freeCount, freeCount, hfilter, Finset.card_union_of_disjoint hdisjoint,
    List.toFinset_card_of_nodup hnodup]

end FreeCount

end DemoOS.Support
