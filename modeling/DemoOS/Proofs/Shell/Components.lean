import DemoOS.Proofs.Shell.NormalizePath

/-!
# The reading of `normalize_path`, component by component

`readPath` looks at characters. On a component it does one of three things, and the number of
dots at the end of the component says which (`readPath_component`): none of them, one that is
dropped with the slash behind it, or two or more, of which the last two go back. `Kept.read` is
the same step on what is kept, and `normalized_eq` follows for a whole path: the text that is left
is the text of `kept`.
-/

set_option autoImplicit false

namespace DemoOS.Path

/-! ## Stems -/

section Stems

variable {c : Name}

/-- A name is its stem and the dots behind it. -/
theorem stem_append_dots (c : Name) : stem c ++ List.replicate (trailingDots c) DOT = c := by
  have hdots : c.rtakeWhile (· = DOT) = List.replicate (trailingDots c) DOT := by
    refine List.eq_replicate_iff.mpr ⟨rfl, fun a ha => ?_⟩
    have hdot := List.mem_rtakeWhile_imp ha
    simpa using hdot
  rw [← hdots]
  exact List.rdropWhile_append_rtakeWhile

/-- A stem does not end with a dot. -/
theorem stem_last (h : stem c ≠ []) : (stem c).getLast h ≠ DOT := by
  have hlast := List.rdropWhile_last_not (p := (· = DOT)) c h
  rw [decide_eq_true_eq] at hlast
  exact hlast

/-- A component that can stay: no slash in it, and no dot at its end. -/
structure Plain (n : Name) : Prop where
  noSlash : SLASH ∉ n
  last : ∃ a, n.getLast? = some a ∧ a ≠ DOT

theorem Plain.ne_nil (h : Plain c) : c ≠ [] := by
  rintro rfl
  obtain ⟨a, ha, -⟩ := h.last
  exact nomatch ha

/-- A stem is plain, if there is one. -/
theorem plain_stem (hslash : SLASH ∉ c) (h : stem c ≠ []) : Plain (stem c) where
  noSlash hmem := hslash ((List.rdropWhile_prefix _ c).subset hmem)
  last := ⟨(stem c).getLast h, List.getLast?_eq_some_getLast h, stem_last h⟩

/-- A name without a dot at its end is its own stem. -/
theorem stem_eq_self (h : trailingDots c = 0) : stem c = c := by
  have hc := stem_append_dots c
  rwa [h, List.replicate_zero, List.append_nil] at hc

theorem plain_of_trailingDots (hslash : SLASH ∉ c) (hne : c ≠ []) (h : trailingDots c = 0) :
    Plain c := by
  have hself := stem_eq_self h
  rw [← hself]
  exact plain_stem hslash (by rwa [hself])

/-- A part of a name in front of a plain one. -/
theorem Plain.append {n : Name} (hn : SLASH ∉ n) (h : Plain c) : Plain (n ++ c) where
  noSlash hmem := (List.mem_append.mp hmem).elim hn h.noSlash
  last := by
    obtain ⟨a, ha, hdot⟩ := h.last
    exact ⟨a, by rw [List.getLast?_append, ha]; rfl, hdot⟩

/-- Plain components are neither `.` nor `..`. -/
theorem Plain.ne_dots (h : Plain c) : c ≠ dot ∧ c ≠ dotDot := by
  obtain ⟨a, ha, hdot⟩ := h.last
  constructor
  · rintro rfl
    exact hdot (Option.some.inj ha).symm
  · rintro rfl
    exact hdot (Option.some.inj ha).symm

end Stems

/-! ## The tokens of a component -/

section Tokens

variable {c p e : List UInt8}

/-- A text that does not end with a dot is kept, whatever follows. -/
theorem readPath_text (hslash : SLASH ∉ p) (hlast : ∀ h : p ≠ [], p.getLast h ≠ DOT)
    (e : List UInt8) : readPath (p ++ e) = p.map .char ++ readPath e := by
  induction p with
  | nil => rfl
  | cons a p ih =>
      have hslash' : SLASH ∉ p := fun h => hslash (List.mem_cons_of_mem a h)
      have hlast' : ∀ h : p ≠ [], p.getLast h ≠ DOT := by
        intro h
        have hlast := hlast (List.cons_ne_nil a p)
        rwa [List.getLast_cons h] at hlast
      -- Behind a dot there is more text, and it does not begin with a slash.
      have hmore : a = DOT → ∃ b q, p = b :: q ∧ b ≠ SLASH := by
        rintro rfl
        cases p with
        | nil => exact absurd rfl (hlast (List.cons_ne_nil DOT []))
        | cons b q => exact ⟨b, q, rfl, fun hb => hslash' (hb ▸ List.mem_cons_self)⟩
      have hdot : ¬ (a = DOT ∧ AtEnd (p ++ e)) := by
        rintro ⟨ha, hend⟩
        obtain ⟨b, q, rfl, hb⟩ := hmore ha
        rcases hend with hnone | hsome
        · exact nomatch hnone
        · exact hb (Option.some.inj hsome)
      have hparent : ¬ (a = DOT ∧ (p ++ e).head? = some DOT ∧ AtEnd (p ++ e).tail) := by
        rintro ⟨ha, hhead, hend⟩
        obtain ⟨b, q, rfl, hb⟩ := hmore ha
        obtain rfl : b = DOT := Option.some.inj hhead
        cases q with
        | nil => exact hlast' (List.cons_ne_nil DOT []) rfl
        | cons b' q =>
            rcases hend with hnone | hsome
            · exact nomatch hnone
            · have hb' : b' = SLASH := Option.some.inj hsome
              exact hslash' (hb' ▸ List.mem_cons_of_mem DOT List.mem_cons_self)
      rw [List.cons_append, readPath, if_neg hdot, if_neg hparent, ih hslash' hlast']
      rfl

/-- A slash is kept. -/
theorem readPath_slash (e : List UInt8) : readPath (SLASH :: e) = .char SLASH :: readPath e := by
  have hne : SLASH ≠ DOT := by decide
  rw [readPath, if_neg fun h => hne h.1, if_neg fun h => hne h.1]

/-- One dot at an end. -/
theorem readPath_dot (he : AtEnd e) : readPath (DOT :: e) = readPath e.tail := by
  rw [readPath, if_pos ⟨rfl, he⟩]

/-- Two dots or more at an end. -/
theorem readPath_dots (he : AtEnd e) (j : Nat) :
    readPath (List.replicate (j + 2) DOT ++ e)
      = (List.replicate j DOT).map .char ++ .parent :: readPath e.tail := by
  have hnot : ∀ l : List UInt8, ¬ AtEnd (DOT :: l) := by
    rintro l (hnone | hsome)
    · exact nomatch hnone
    · exact absurd (Option.some.inj hsome) (by decide)
  induction j with
  | zero =>
      show readPath (DOT :: DOT :: e) = .parent :: readPath e.tail
      rw [readPath, if_neg fun h => hnot e h.2, if_pos ⟨rfl, rfl, he⟩]
      rfl
  | succ j ih =>
      show readPath (DOT :: DOT :: DOT :: (List.replicate j DOT ++ e)) = _
      rw [readPath, if_neg fun h => hnot _ h.2, if_neg fun h => hnot _ h.2.2]
      show _ :: readPath (List.replicate (j + 2) DOT ++ e) = _
      rw [ih]
      rfl

/-- The tokens of a component, in front of its end. -/
theorem readPath_component (hslash : SLASH ∉ c) (he : AtEnd e) :
    readPath (c ++ e) = match trailingDots c with
      | 0 => c.map .char ++ readPath e
      | 1 => (stem c).map .char ++ readPath e.tail
      | j + 2 => (stem c ++ List.replicate j DOT).map .char ++ .parent :: readPath e.tail := by
  have hstem : SLASH ∉ stem c := fun h => hslash ((List.rdropWhile_prefix _ c).subset h)
  have hsplit : readPath (c ++ e)
      = (stem c).map .char ++ readPath (List.replicate (trailingDots c) DOT ++ e) := by
    rw [← readPath_text hstem stem_last, ← List.append_assoc, stem_append_dots]
  rw [hsplit]
  split
  · next h => rw [h, stem_eq_self h]; rfl
  · next h => rw [h]; exact congrArg _ (readPath_dot he)
  · next j h => rw [h, readPath_dots he, List.map_append, List.append_assoc]

end Tokens

/-! ## The text of what is kept -/

namespace Kept

variable {k : Kept} {c : Name}

/-- The text in front of an unfinished name: the root, unless `..` removed it, and the names. -/
def front (k : Kept) : List UInt8 :=
  (if k.climbed = 0 then [SLASH] else []) ++ k.names.flatMap (· ++ [SLASH])

/-- The text. Nothing is left to remove after a second `..` at the root. -/
def out (k : Kept) : Option (List UInt8) :=
  if k.climbed ≤ 1 then some (k.front ++ k.unfinished) else none

/-- The location. -/
def location (k : Kept) : List Name :=
  k.names ++ if k.unfinished = [] then [] else [k.unfinished]

/-- The names end with a slash, or there are none. -/
structure Clean (k : Kept) : Prop where
  names : ∀ n ∈ k.names, Plain n
  unfinished : k.unfinished ≠ [] → Plain k.unfinished

theorem clean_root : root.Clean := ⟨nofun, fun h => absurd rfl h⟩

theorem Clean.noSlash (h : k.Clean) : SLASH ∉ k.unfinished := by
  by_cases hnil : k.unfinished = []
  · rw [hnil]
    exact List.not_mem_nil
  · exact (h.unfinished hnil).noSlash

/-- One more component. -/
theorem Clean.read (h : k.Clean) (hslash : SLASH ∉ c) : (k.read c).Clean := by
  unfold Kept.read
  split
  · exact h
  · split
    · split
      · exact ⟨h.names, fun hne => absurd rfl hne⟩
      · split
        · exact ⟨fun n hn => h.names n (List.dropLast_subset _ hn), h.unfinished⟩
        · exact ⟨h.names, h.unfinished⟩
    · next hspecial _ =>
        rw [not_or] at hspecial
        split
        · next hdots =>
            have hplain := plain_of_trailingDots hslash hspecial.1 hdots
            refine ⟨fun n hn => ?_, fun hne => absurd rfl hne⟩
            rcases List.mem_append.mp hn with hold | hnew
            · exact h.names n hold
            · rw [List.mem_singleton.mp hnew]
              exact hplain.append h.noSlash
        · refine ⟨h.names, fun hne => ?_⟩
          by_cases hstem : stem c = []
          · rw [hstem, List.append_nil] at hne ⊢
            exact h.unfinished hne
          · exact (plain_stem hslash hstem).append h.noSlash
        · exact ⟨h.names, fun hne => absurd rfl hne⟩

/-! ### Going back -/

/-- The text ends with a slash, if there is any. -/
def Closed (base : List UInt8) : Prop := base = [] ∨ base.getLast? = some SLASH

theorem Closed.rdropWhile {base w : List UInt8} (h : Closed base) (hw : SLASH ∉ w) :
    (base ++ w).rdropWhile (· ≠ SLASH) = base := by
  have hall : ∀ a ∈ w.reverse, decide (a ≠ SLASH) = true := by
    intro a ha
    rw [decide_eq_true_eq]
    rintro rfl
    exact hw (List.mem_reverse.mp ha)
  have hbase : base.rdropWhile (· ≠ SLASH) = base := by
    apply List.rdropWhile_eq_self_iff.mpr
    intro hne
    rcases h with rfl | hlast
    · exact absurd rfl hne
    · rw [List.getLast?_eq_some_getLast hne] at hlast
      simp [Option.some.inj hlast]
  rw [List.rdropWhile, List.reverse_append, List.dropWhile_append_of_pos hall]
  exact hbase

/-- Going back over a part of a name. -/
theorem parent_name {base w : List UInt8} (h : Closed base) (hne : w ≠ []) (hw : SLASH ∉ w) :
    parent (base ++ w) = base := by
  rw [parent, List.dropLast_append_of_ne_nil hne]
  exact h.rdropWhile fun hmem => hw (List.dropLast_subset w hmem)

/-- Going back over a name and its slash. -/
theorem parent_slash {base w : List UInt8} (h : Closed base) (hw : SLASH ∉ w) :
    parent (base ++ (w ++ [SLASH])) = base := by
  rw [parent, ← List.append_assoc, List.dropLast_concat]
  exact h.rdropWhile hw

theorem closed_front (k : Kept) : Closed k.front := by
  unfold Closed front
  rcases List.eq_nil_or_concat k.names with hnil | ⟨ns, n, hns⟩
  · rw [hnil]
    split
    · exact Or.inr rfl
    · exact Or.inl rfl
  · right
    rw [hns, List.concat_eq_append, List.flatMap_append, List.flatMap_singleton]
    simp

/-! ### One component -/

/-- Where there is a text, the root was removed at most once. -/
theorem out_of_le (h : k.climbed ≤ 1) : k.out = some (k.front ++ k.unfinished) := if_pos h

theorem read_climbed_le (k : Kept) (c : Name) : k.climbed ≤ (k.read c).climbed := by
  unfold Kept.read
  split
  · exact Nat.le_refl _
  · split
    · split
      · exact Nat.le_refl _
      · split
        · exact Nat.le_refl _
        · exact Nat.le_succ _
    · split <;> exact Nat.le_refl _

/-- A second `..` at the root leaves nothing for good. -/
theorem out_read_none (h : ¬ k.climbed ≤ 1) : k.out = none ∧ (k.read c).out = none := by
  have hle := read_climbed_le k c
  exact ⟨if_neg h, if_neg (by omega)⟩

/-- A component without a dot at its end. -/
theorem out_read_name (hne : c ≠ []) (hdots : trailingDots c = 0) :
    (k.read c).out = k.out.map (· ++ (c ++ [SLASH]))
      ∧ ({ k with unfinished := k.unfinished ++ c } : Kept).out = k.out.map (· ++ c) := by
  have hdot : c ≠ dot := by
    rintro rfl
    exact nomatch hdots
  have hdotDot : c ≠ dotDot := by
    rintro rfl
    exact nomatch hdots
  have hread : k.read c
      = { k with names := k.names ++ [k.unfinished ++ c], unfinished := [] } := by
    rw [Kept.read, if_neg (not_or.mpr ⟨hne, hdot⟩), if_neg hdotDot, hdots]
  by_cases hclimbed : k.climbed ≤ 1
  · rw [hread, out_of_le hclimbed, out_of_le (by exact hclimbed), out_of_le (by exact hclimbed)]
    constructor
    · simp [front]
    · simp [front]
  · rw [hread, (out_read_none (c := c) hclimbed).1]
    exact ⟨if_neg hclimbed, if_neg hclimbed⟩

/-- A component with one dot at its end. -/
theorem out_read_dot (hdots : trailingDots c = 1) :
    (k.read c).out = k.out.map (· ++ stem c) := by
  have hne : c ≠ [] := by
    rintro rfl
    exact nomatch hdots
  have hdotDot : c ≠ dotDot := by
    rintro rfl
    exact nomatch hdots
  by_cases hdot : c = dot
  · have hread : k.read c = k := by rw [Kept.read, if_pos (Or.inr hdot)]
    have hstem : stem c = [] := by
      rw [hdot]
      decide
    rw [hread, hstem]
    simp
  · have hread : k.read c = { k with unfinished := k.unfinished ++ stem c } := by
      rw [Kept.read, if_neg (not_or.mpr ⟨hne, hdot⟩), if_neg hdotDot, hdots]
    rw [hread]
    by_cases hclimbed : k.climbed ≤ 1
    · rw [out_of_le hclimbed, out_of_le (by exact hclimbed)]
      simp [front]
    · rw [(out_read_none (c := c) hclimbed).1]
      exact if_neg hclimbed

/-- The component `..` goes back over what is in front of it. -/
theorem out_read_dotDot (hk : k.Clean) (hclimbed : k.climbed ≤ 1) :
    (k.read dotDot).out = keep (k.front ++ k.unfinished) .parent := by
  have hspecial : ¬ (dotDot = [] ∨ dotDot = dot) := by decide
  rw [Kept.read, if_neg hspecial, if_pos rfl]
  by_cases hunfinished : k.unfinished = []
  · rw [if_neg (not_not.mpr hunfinished), hunfinished, List.append_nil]
    rcases List.eq_nil_or_concat k.names with hnil | ⟨ns, n, hns⟩
    · -- Only the root is left, or nothing.
      have hfront : k.front = if k.climbed = 0 then [SLASH] else [] := by
        rw [front, hnil, List.flatMap_nil, List.append_nil]
      rw [if_neg (not_not.mpr hnil), hfront]
      by_cases hzero : k.climbed = 0
      · have hroot : (⟨k.climbed + 1, k.names, []⟩ : Kept).out = some [] := by
          simp [out, front, hzero, hnil]
        rw [hroot, if_pos hzero]
        decide
      · rw [if_neg hzero]
        exact if_neg (by show ¬ k.climbed + 1 ≤ 1; omega)
    · have hne : k.names ≠ [] := by simp [hns]
      have hn : SLASH ∉ n := (hk.names n (by simp [hns])).noSlash
      have hfront : k.front = ({ k with names := ns } : Kept).front ++ (n ++ [SLASH]) := by
        simp [front, hns]
      have hnonempty : k.front ≠ [] := by simp [hfront]
      have hlast : k.names.dropLast = ns := by rw [hns, List.concat_eq_append, List.dropLast_concat]
      rw [if_pos hne, hlast, keep, if_neg hnonempty, hfront, parent_slash (closed_front _) hn,
        out_of_le (by exact hclimbed)]
      exact congrArg some (List.append_nil _)
  · have hnonempty : k.front ++ k.unfinished ≠ [] := fun h =>
      hunfinished (List.append_eq_nil_iff.mp h).2
    rw [if_pos hunfinished, keep, if_neg hnonempty,
      parent_name (closed_front k) hunfinished hk.noSlash, out_of_le (by exact hclimbed)]
    exact congrArg some (List.append_nil _)

/-- A component with two dots or more at its end goes back, over itself unless it is `..`. -/
theorem out_read_dots (hk : k.Clean) (hslash : SLASH ∉ c) {j : Nat}
    (hdots : trailingDots c = j + 2) :
    (k.read c).out
      = k.out.bind fun out => keep (out ++ (stem c ++ List.replicate j DOT)) .parent := by
  by_cases hclimbed : k.climbed ≤ 1
  · rw [out_of_le hclimbed, Option.bind_some]
    by_cases hdotDot : c = dotDot
    · subst hdotDot
      have htwo : trailingDots dotDot = 0 + 2 := by decide
      obtain rfl : j = 0 := Nat.add_right_cancel (hdots.symm.trans htwo)
      rw [out_read_dotDot hk hclimbed]
      have hstem : stem dotDot = [] := by decide
      rw [hstem, List.replicate_zero, List.append_nil, List.append_nil]
    · have hne : c ≠ [] := by
        rintro rfl
        exact nomatch hdots
      have hdot : c ≠ dot := by
        rintro rfl
        exact nomatch hdots
      have hread : k.read c = { k with unfinished := [] } := by
        rw [Kept.read, if_neg (not_or.mpr ⟨hne, hdot⟩), if_neg hdotDot, hdots]
      have hself : stem c ++ List.replicate j DOT ≠ [] := by
        intro h
        obtain ⟨hstem, hnone⟩ := List.append_eq_nil_iff.mp h
        obtain rfl : j = 0 := by simpa using hnone
        have hc := stem_append_dots c
        rw [hstem, hdots] at hc
        exact hdotDot hc.symm
      have hnoSlash : SLASH ∉ k.unfinished ++ (stem c ++ List.replicate j DOT) := by
        have hstem : SLASH ∉ stem c := fun h => hslash ((List.rdropWhile_prefix _ c).subset h)
        have hdotsOnly : SLASH ∉ List.replicate j DOT := by
          intro h
          exact absurd (List.eq_of_mem_replicate h) (by decide)
        simp only [List.mem_append, not_or]
        exact ⟨hk.noSlash, hstem, hdotsOnly⟩
      have hwhole : k.unfinished ++ (stem c ++ List.replicate j DOT) ≠ [] := fun h =>
        hself (List.append_eq_nil_iff.mp h).2
      have hnonempty : k.front ++ (k.unfinished ++ (stem c ++ List.replicate j DOT)) ≠ [] :=
        fun h => hwhole (List.append_eq_nil_iff.mp h).2
      rw [hread, List.append_assoc, keep, if_neg hnonempty,
        parent_name (closed_front k) hwhole hnoSlash, out_of_le (by exact hclimbed)]
      exact congrArg some (List.append_nil _)
  · obtain ⟨hnone, hnone'⟩ := out_read_none (c := c) hclimbed
    rw [hnone, hnone']
    rfl

end Kept

end DemoOS.Path
