import DemoOS.App.Shell
import DemoOS.Proofs.Shell.Strings

/-!
# The arguments that `handle_exec_from_bin` cuts out of a command line

Every round of the loop moves the text before the first space to the next argument, and what is
behind it back over its own input. `fields_eq_cons` is the same step on the fields of a line, and
`argumentLoop_fields` puts the rounds together: the arguments are the first fields of the line,
up to four.
-/

set_option autoImplicit false

namespace DemoOS

open Support.CString

section Fields

variable {delimiter : UInt8} {s : List UInt8}

@[simp] theorem fields_nil : fields delimiter [] = [] := rfl

/-- The first field is the text before the first delimiter, and the others are those of the text
behind it. -/
theorem fields_eq_cons (h : s ≠ []) :
    fields delimiter s = textBefore delimiter s :: fields delimiter (textBehind delimiter s) := by
  by_cases hmem : delimiter ∈ s
  · have hcut : s.splitOn delimiter
        = textBefore delimiter s :: (textBehind delimiter s).splitOn delimiter := by
      nth_rewrite 1 [eq_before_behind hmem]
      exact List.splitOn_append_cons_self_of_not_mem not_mem_textBefore _
    have hne := List.splitOn_ne_nil delimiter (textBehind delimiter s)
    simp only [fields, hcut, List.getLast?_cons_of_ne_nil hne, List.dropLast_cons_of_ne_nil hne]
    split <;> rfl
  · obtain ⟨hbefore, hbehind⟩ := textBefore_eq_self hmem
    have hcut : s.splitOn delimiter = [s] := List.splitOn_eq_singleton hmem
    have hlast : [s].getLast? ≠ some [] := by simpa using h
    rw [hbefore, hbehind, fields_nil]
    simp only [fields, hcut]
    rw [if_neg hlast]

end Fields

namespace Shell

section Loop

variable {raw : Buffer} {line : List UInt8} {arguments : List Buffer} {n fuel : Nat}

/-- The loop puts the fields of the line, as many as there is room for, behind the arguments that
it has already. -/
theorem argumentLoop_fields (hraw : Holds raw line) (hline : IsLine line)
    (hlen : raw.length = SYSCALL_EXEC_ARGUMENT_DIMENSION)
    (harguments : arguments.length = MAX_EXEC_ARGUMENTS)
    (hzero : ∀ i, n ≤ i → i < MAX_EXEC_ARGUMENTS →
      arguments[i]? = some (memzero SYSCALL_EXEC_ARGUMENT_DIMENSION))
    (hfuel : MAX_EXEC_ARGUMENTS < n + fuel) (hn : n ≤ MAX_EXEC_ARGUMENTS) :
    ∃ arguments', argumentLoop fuel raw arguments n
        = some (arguments', n + min (MAX_EXEC_ARGUMENTS - n) (fields SPACE line).length)
      ∧ arguments'.length = MAX_EXEC_ARGUMENTS
      ∧ (∀ i < n, arguments'[i]? = arguments[i]?)
      ∧ ∀ i < min (MAX_EXEC_ARGUMENTS - n) (fields SPACE line).length, ∃ argument field,
        arguments'[n + i]? = some argument ∧ (fields SPACE line)[i]? = some field
          ∧ argument.length = SYSCALL_EXEC_ARGUMENT_DIMENSION ∧ Holds argument field := by
  induction fuel generalizing raw line arguments n with
  | zero => omega
  | succ fuel ih =>
      rw [argumentLoop, strlen_of_holds hraw]
      show ∃ arguments', (if line.length > 0 ∧ n < MAX_EXEC_ARGUMENTS then _ else _) = _ ∧ _
      by_cases hgoes : line.length > 0 ∧ n < MAX_EXEC_ARGUMENTS
      · have hne : line ≠ [] := List.ne_nil_of_length_pos hgoes.1
        have hlt : line.length < SYSCALL_EXEC_ARGUMENT_DIMENSION := hlen ▸ hraw.length_lt
        obtain ⟨argument, temp, hsplit, hargument, htemp, hargumentLen, htempLen⟩ :=
          strsplit_zeros SPACE hraw hline hlt hlt
        have hbehind := length_textBehind_le SPACE line
        have hfits : (textBehind SPACE line).length < raw.length := by omega
        obtain ⟨raw', hcopy, hraw', hrawLen⟩ := strcpy_holds htemp hfits
        have hset : ∀ i, n + 1 ≤ i → i < MAX_EXEC_ARGUMENTS →
            (arguments.set n argument)[i]? = some (memzero SYSCALL_EXEC_ARGUMENT_DIMENSION) := by
          intro i hi hlast
          rw [List.getElem?_set_ne (by omega)]
          exact hzero i (by omega) hlast
        obtain ⟨arguments', hrun, hlen', hbefore, hrest⟩ := ih hraw' hline.textBehind
          (hrawLen.trans hlen) ((List.length_set ..).trans harguments) hset (by omega) (by omega)
        have hcount : n + 1 + min (MAX_EXEC_ARGUMENTS - (n + 1))
            (fields SPACE (textBehind SPACE line)).length
            = n + min (MAX_EXEC_ARGUMENTS - n) (fields SPACE line).length := by
          rw [fields_eq_cons hne, List.length_cons]
          omega
        have hfirst : arguments'[n]? = some argument := by
          rw [hbefore n (Nat.lt_succ_self n), List.getElem?_set_self (by omega)]
        refine ⟨arguments', ?_, hlen', fun i hi => ?_, fun i hi => ?_⟩
        · rw [if_pos hgoes, hzero n (Nat.le_refl n) hgoes.2, Option.bind_eq_bind, Option.bind_some,
            hsplit]
          show (strcpy raw temp).bind _ = _
          rw [hcopy, Option.bind_some, hrun, hcount]
        · rw [hbefore i (by omega), List.getElem?_set_ne (by omega)]
        · rw [fields_eq_cons hne] at hi ⊢
          cases i with
          | zero => exact ⟨argument, _, hfirst, rfl, hargumentLen, hargument⟩
          | succ i =>
              rw [List.length_cons] at hi
              obtain ⟨argument, field, hget, hfield, hwide, hholds⟩ := hrest i (by omega)
              refine ⟨argument, field, ?_, hfield, hwide, hholds⟩
              rw [← hget]
              congr 1
              omega
      · -- Nothing is left, or no room.
        have hnone : min (MAX_EXEC_ARGUMENTS - n) (fields SPACE line).length = 0 := by
          by_cases hfull : n < MAX_EXEC_ARGUMENTS
          · have hnil : line = [] := by
              apply List.length_eq_zero_iff.mp
              omega
            rw [hnil, fields_nil, List.length_nil, Nat.min_zero]
          · omega
        rw [if_neg hgoes, hnone]
        exact ⟨arguments, rfl, harguments, fun _ _ => rfl,
          fun i hi => absurd hi (Nat.not_lt_zero i)⟩

/-- The whole loop, from an array of zeros. -/
theorem argumentLoop_all (hraw : Holds raw line) (hline : IsLine line)
    (hlen : raw.length = SYSCALL_EXEC_ARGUMENT_DIMENSION) :
    ∃ arguments', argumentLoop (MAX_EXEC_ARGUMENTS + 1) raw noArguments 0
        = some (arguments', min MAX_EXEC_ARGUMENTS (fields SPACE line).length)
      ∧ ∀ i < min MAX_EXEC_ARGUMENTS (fields SPACE line).length, ∃ argument field,
        arguments'[i]? = some argument ∧ (fields SPACE line)[i]? = some field
          ∧ argument.length = SYSCALL_EXEC_ARGUMENT_DIMENSION ∧ Holds argument field := by
  have hzero : ∀ i, 0 ≤ i → i < MAX_EXEC_ARGUMENTS →
      noArguments[i]? = some (memzero SYSCALL_EXEC_ARGUMENT_DIMENSION) := by
    intro i _ hi
    rw [noArguments, List.getElem?_replicate, if_pos hi]
  have hrounds : MAX_EXEC_ARGUMENTS < 0 + (MAX_EXEC_ARGUMENTS + 1) := by decide
  have hroom : noArguments.length = MAX_EXEC_ARGUMENTS := List.length_replicate ..
  obtain ⟨arguments', hrun, -, -, hfields⟩ :=
    argumentLoop_fields hraw hline hlen hroom hzero hrounds (Nat.zero_le _)
  simp only [Nat.sub_zero, Nat.zero_add] at hrun hfields
  exact ⟨arguments', hrun, hfields⟩

end Loop

end Shell

end DemoOS
