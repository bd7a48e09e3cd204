import DemoOS.Spec.CommandLine
import Mathlib.Data.List.TakeWhile

/-!
# What the functions of `common/string.c` do to terminated strings

Every copying function is a `writeAll`: of the string and its zero for `strcpy` and `strcat`,
of the text alone for the parts of `strsplit`. From that follow both what the buffers contain
afterwards and when a function writes outside its destination. The main results are
`strcpy_eq`, `strcat_eq` and `strsplit_eq`, and the forms `strcpy_holds`, `strcat_holds` and
`strsplit_zeros` for callers that have made room.
-/

set_option autoImplicit false

namespace DemoOS

open Support.CString

section Copies

variable {dest src : Buffer} {d s : List UInt8}

theorem strlen_of_holds (h : Holds src s) : strlen src = some s.length := by
  obtain ⟨rest, rfl⟩ := h.terminated
  have hs := h.noZero
  clear h
  induction s with
  | nil => rfl
  | cons c s ih =>
      rw [List.mem_cons, not_or] at hs
      show (if c = NUL then some 0 else (strlen (s ++ NUL :: rest)).map (· + 1)) = _
      rw [if_neg (Ne.symm hs.1), ih hs.2]
      rfl

/-- The loop of `strcat` and `strcpy` writes the string and a zero. -/
theorem copyString_eq (h : Holds src s) (pointer : Nat) :
    copyString dest pointer src = writeAll dest pointer (s ++ [NUL]) := by
  obtain ⟨rest, rfl⟩ := h.terminated
  have hs := h.noZero
  clear h
  induction s generalizing dest pointer with
  | nil =>
      show put dest pointer NUL = (put dest pointer NUL).bind some
      rw [Option.bind_fun_some]
  | cons c s ih =>
      rw [List.mem_cons, not_or] at hs
      show (if c = NUL then put dest pointer NUL else
          (put dest pointer c).bind fun dest => copyString dest (pointer + 1) (s ++ NUL :: rest))
        = (put dest pointer c).bind fun dest => writeAll dest (pointer + 1) (s ++ [NUL])
      rw [if_neg (Ne.symm hs.1)]
      exact congrArg _ (funext fun dest => ih _ hs.2)

/-- `strcpy` stays inside its destination exactly when the string and its zero fit. -/
theorem strcpy_eq (hs : Holds src s) :
    strcpy dest src
      = if s.length < dest.length then some (overwrite dest 0 (s ++ [NUL])) else none := by
  rw [strcpy, copyString_eq hs, writeAll_eq (Nat.zero_le _), List.length_append,
    List.length_singleton, Nat.zero_add]
  rfl

/-- `strcat` stays inside its destination exactly when both strings and a zero fit. -/
theorem strcat_eq (hd : Holds dest d) (hs : Holds src s) :
    strcat dest src
      = if d.length + s.length < dest.length
        then some (overwrite dest d.length (s ++ [NUL])) else none := by
  rw [strcat, strlen_of_holds hd]
  show copyString dest d.length src = _
  rw [copyString_eq hs, writeAll_eq (Nat.le_of_lt hd.length_lt), List.length_append,
    List.length_singleton, ← Nat.add_assoc]
  rfl

theorem strcpy_holds (hs : Holds src s) (h : s.length < dest.length) :
    ∃ b, strcpy dest src = some b ∧ Holds b s ∧ b.length = dest.length := by
  refine ⟨_, (strcpy_eq hs).trans (if_pos h), ?_, length_overwrite ?_⟩
  · exact Holds.overwrite List.take_zero List.not_mem_nil hs.noZero
  · rw [List.length_append, List.length_singleton]
    omega

theorem strcat_holds (hd : Holds dest d) (hs : Holds src s)
    (h : d.length + s.length < dest.length) :
    ∃ b, strcat dest src = some b ∧ Holds b (d ++ s) ∧ b.length = dest.length := by
  refine ⟨_, (strcat_eq hd hs).trans (if_pos h), ?_, length_overwrite ?_⟩
  · obtain ⟨rest, hrest⟩ := hd.terminated
    have htake : dest.take d.length = d := by rw [hrest, List.take_left]
    exact Holds.overwrite htake hd.noZero hs.noZero
  · rw [List.length_append, List.length_singleton]
    omega

/-- A string that is too long for what its destination holds already is written past the end. -/
theorem strcat_outside (hd : Holds dest d) (hs : Holds src s)
    (h : dest.length ≤ d.length + s.length) : strcat dest src = none :=
  (strcat_eq hd hs).trans (if_neg (Nat.not_lt.mpr h))

end Copies

section Splits

variable {dest1 dest2 src : Buffer} {s : List UInt8} {delimiter : UInt8}

theorem IsLine.noZero (h : IsLine s) : NUL ∉ s := by
  intro hmem
  have hend := h NUL hmem
  revert hend
  decide

theorem IsLine.textBefore (h : IsLine s) : IsLine (textBefore delimiter s) :=
  fun c hc => h c ((List.takeWhile_sublist _).subset hc)

theorem IsLine.textBehind (h : IsLine s) : IsLine (textBehind delimiter s) :=
  fun c hc => h c ((List.dropWhile_sublist _).subset (List.mem_of_mem_tail hc))

theorem length_textBefore_le (delimiter : UInt8) (s : List UInt8) :
    (textBefore delimiter s).length ≤ s.length :=
  (List.takeWhile_sublist _).length_le

theorem length_textBehind_le (delimiter : UInt8) (s : List UInt8) :
    (textBehind delimiter s).length ≤ s.length :=
  ((List.tail_sublist _).trans (List.dropWhile_sublist _)).length_le

/-- A line is the text before the first delimiter, the delimiter, and the text behind it. -/
theorem eq_before_behind (h : delimiter ∈ s) :
    s = textBefore delimiter s ++ delimiter :: textBehind delimiter s := by
  induction s with
  | nil => exact nomatch h
  | cons c s ih =>
      by_cases hc : c = delimiter
      · simp [textBefore, textBehind, hc]
      · have hs : delimiter ∈ s := (List.mem_cons.mp h).resolve_left (Ne.symm hc)
        have hbefore : textBefore delimiter (c :: s) = c :: textBefore delimiter s := by
          simp [textBefore, hc]
        have hbehind : textBehind delimiter (c :: s) = textBehind delimiter s := by
          simp [textBehind, hc]
        rw [hbefore, hbehind, List.cons_append, ← ih hs]

theorem not_mem_textBefore : delimiter ∉ textBefore delimiter s := by
  intro h
  have hne := List.mem_takeWhile_imp h
  simp at hne

/-- Without a delimiter the whole line is before it. -/
theorem textBefore_eq_self (h : delimiter ∉ s) :
    textBefore delimiter s = s ∧ textBehind delimiter s = [] := by
  have hall : ∀ c ∈ s, decide (c ≠ delimiter) = true := by
    intro c hc
    rw [decide_eq_true_eq]
    rintro rfl
    exact h hc
  refine ⟨List.takeWhile_eq_self_iff.mpr hall, ?_⟩
  rw [textBehind, List.dropWhile_eq_nil_iff.mpr hall, List.tail_nil]

/-- The inner loop of `strsplit` writes the rest of the line. -/
theorem copyLine_eq (rest : Buffer) (h : IsLine s) (j : Nat) :
    copyLine dest2 j (s ++ NUL :: rest) = writeAll dest2 j s := by
  induction s generalizing dest2 j with
  | nil => rfl
  | cons c s ih =>
      have hc : endsLine c = false := h c List.mem_cons_self
      show (if endsLine c = true then some dest2 else
          (put dest2 j c).bind fun dest2 => copyLine dest2 (j + 1) (s ++ NUL :: rest))
        = (put dest2 j c).bind fun dest2 => writeAll dest2 (j + 1) s
      rw [hc, if_neg Bool.false_ne_true]
      exact congrArg _ (funext fun dest2 => ih (fun a ha => h a (List.mem_cons_of_mem c ha)) _)

/-- Without a delimiter in the line the outer loop of `strsplit` writes the line to its first
destination, and no zero; with one it writes a zero there and the rest to the second. -/
theorem splitLine_eq (rest : Buffer) (h : IsLine s) (i : Nat) :
    splitLine delimiter dest1 dest2 i (s ++ NUL :: rest)
      = if delimiter ∈ s then do
          let dest1 ← writeAll dest1 i (textBefore delimiter s ++ [NUL])
          let dest2 ← writeAll dest2 0 (textBehind delimiter s)
          some (dest1, dest2)
        else (writeAll dest1 i s).map fun dest1 => (dest1, dest2) := by
  induction s generalizing dest1 i with
  | nil => rfl
  | cons c s ih =>
      have hc : endsLine c = false := h c List.mem_cons_self
      have hs : IsLine s := fun a ha => h a (List.mem_cons_of_mem c ha)
      show (if endsLine c = true then some (dest1, dest2) else if c = delimiter then
          (put dest1 i NUL).bind fun dest1 =>
            (copyLine dest2 0 (s ++ NUL :: rest)).bind fun dest2 => some (dest1, dest2)
        else (put dest1 i c).bind fun dest1 =>
          splitLine delimiter dest1 dest2 (i + 1) (s ++ NUL :: rest)) = _
      rw [hc, if_neg Bool.false_ne_true]
      by_cases hdel : c = delimiter
      · have hbefore : textBefore delimiter (c :: s) = [] := by simp [textBefore, hdel]
        have hbehind : textBehind delimiter (c :: s) = s := by simp [textBehind, hdel]
        rw [if_pos hdel, if_pos (hdel ▸ List.mem_cons_self), hbefore, hbehind, copyLine_eq rest hs]
        show _ = ((put dest1 i NUL).bind some).bind _
        rw [Option.bind_fun_some]
        rfl
      · have hbefore : textBefore delimiter (c :: s) = c :: textBefore delimiter s := by
          simp [textBefore, hdel]
        have hbehind : textBehind delimiter (c :: s) = textBehind delimiter s := by
          simp [textBehind, hdel]
        have hmem : delimiter ∈ c :: s ↔ delimiter ∈ s := by
          rw [List.mem_cons, or_iff_right (Ne.symm hdel)]
        rw [if_neg hdel, hbefore, hbehind]
        simp only [hmem, ih hs]
        show _ = if delimiter ∈ s then
            ((put dest1 i c).bind fun dest1 =>
              writeAll dest1 (i + 1) (textBefore delimiter s ++ [NUL])).bind _
          else ((put dest1 i c).bind fun dest1 => writeAll dest1 (i + 1) s).map _
        cases put dest1 i c with
        | none => split <;> rfl
        | some dest1 => rfl

/-- `strsplit` into two buffers of zeros that are longer than the line. -/
theorem strsplit_zeros {n m : Nat} (delimiter : UInt8) (hs : Holds src s) (h : IsLine s)
    (hn : s.length < n) (hm : s.length < m) :
    ∃ b₁ b₂, strsplit src delimiter (memzero n) (memzero m) = some (b₁, b₂)
      ∧ Holds b₁ (textBefore delimiter s) ∧ Holds b₂ (textBehind delimiter s)
      ∧ b₁.length = n ∧ b₂.length = m := by
  obtain ⟨rest, rfl⟩ := hs.terminated
  have hbefore := length_textBefore_le delimiter s
  have hbehind := length_textBehind_le delimiter s
  have hzero : ∀ {k : Nat} {l : List UInt8}, l.length ≤ k →
      writeAll (memzero k) 0 l = some (overwrite (memzero k) 0 l)
        ∧ (overwrite (memzero k) 0 l).length = k := by
    intro k l hl
    have hfits : 0 + l.length ≤ (memzero k).length := by
      rw [memzero, List.length_replicate]
      omega
    exact ⟨writeAll_of_le hfits, (length_overwrite hfits).trans (List.length_replicate ..)⟩
  rw [strsplit, splitLine_eq rest h]
  by_cases hmem : delimiter ∈ s
  · have hlen : (textBefore delimiter s ++ [NUL]).length ≤ n := by
      rw [List.length_append, List.length_singleton]
      omega
    obtain ⟨h₁, hlen₁⟩ := hzero hlen
    obtain ⟨h₂, hlen₂⟩ := hzero (Nat.le_of_lt (Nat.lt_of_le_of_lt hbehind hm))
    rw [if_pos hmem, h₁, h₂]
    exact ⟨_, _, rfl,
      Holds.overwrite List.take_zero List.not_mem_nil (h.textBefore).noZero,
      Holds.zeros (h.textBehind).noZero (Nat.lt_of_le_of_lt hbehind hm), hlen₁, hlen₂⟩
  · -- Nothing is written behind the line; the zeros of the buffer end it.
    obtain ⟨htext, hrest⟩ := textBefore_eq_self hmem
    obtain ⟨h₁, hlen₁⟩ := hzero (Nat.le_of_lt hn)
    rw [if_neg hmem, h₁, htext, hrest]
    refine ⟨_, _, rfl, Holds.zeros h.noZero hn, ?_, hlen₁, List.length_replicate ..⟩
    rw [← overwrite_nil (b := memzero m) (i := 0)]
    exact Holds.zeros List.not_mem_nil (Nat.zero_lt_of_lt hm)

end Splits

end DemoOS
