import Mathlib.Data.Fintype.EquivFin

/-!
# `DemoOS.Support.ShiftXor`: shift-xor rounds

A round of a shift-xor generator replaces a word `x` by `x ^^^ (x <<< n)` or by
`x ^^^ (x >>> n)`. For a shift by at least one bit either round is a bijection, whatever the width
of the words (`xorShiftLeft_bijective`, `xorShiftRight_bijective`): the bits that the shift brings
in are zeros, so that the result shows the bits of `x` one after the other, from that end on.
-/

set_option autoImplicit false

namespace DemoOS.Support.ShiftXor

variable {w n : Nat}

/-- The words of one width are finitely many. -/
theorem bijective_of_injective {f : BitVec w → BitVec w} (h : Function.Injective f) :
    Function.Bijective f := by
  have hfinite : Finite (BitVec w) :=
    Finite.of_injective BitVec.toFin fun _ _ => BitVec.eq_of_toFin_eq
  exact Finite.injective_iff_bijective.mp h

theorem xorShiftLeft_injective (hn : 0 < n) :
    Function.Injective fun x : BitVec w => x ^^^ (x <<< n) := by
  intro x y hxy
  -- The result of the round shows the bits from the lowest one on.
  have hbits : ∀ i, x.getLsbD i = y.getLsbD i := by
    intro i
    induction i using Nat.strongRecOn with
    | ind i ih =>
        have hi := congrArg (fun z : BitVec w => z.getLsbD i) hxy
        simp only [BitVec.getLsbD_xor, BitVec.getLsbD_shiftLeft] at hi
        by_cases hlt : i < n
        · simpa [hlt] using hi
        · rw [ih (i - n) (by omega)] at hi
          exact Bool.xor_right_inj.mp ((Bool.xor_comm _ _).trans (hi.trans (Bool.xor_comm _ _)))
  exact BitVec.eq_of_getLsbD_eq fun i _ => hbits i

theorem xorShiftRight_injective (hn : 0 < n) :
    Function.Injective fun x : BitVec w => x ^^^ (x >>> n) := by
  intro x y hxy
  -- The result of the round shows the bits from the highest one on.
  have hbits : ∀ d i, w ≤ i + d → x.getLsbD i = y.getLsbD i := by
    intro d
    induction d with
    | zero =>
        intro i (hi : w ≤ i)
        rw [BitVec.getLsbD_of_ge _ _ hi, BitVec.getLsbD_of_ge _ _ hi]
    | succ d ih =>
        intro i hi
        have hbit := congrArg (fun z : BitVec w => z.getLsbD i) hxy
        simp only [BitVec.getLsbD_xor, BitVec.getLsbD_ushiftRight] at hbit
        rw [ih (n + i) (by omega)] at hbit
        exact Bool.xor_right_inj.mp ((Bool.xor_comm _ _).trans (hbit.trans (Bool.xor_comm _ _)))
  exact BitVec.eq_of_getLsbD_eq fun i _ => hbits w i (Nat.le_add_left w i)

theorem xorShiftLeft_bijective (hn : 0 < n) :
    Function.Bijective fun x : BitVec w => x ^^^ (x <<< n) :=
  bijective_of_injective (xorShiftLeft_injective hn)

theorem xorShiftRight_bijective (hn : 0 < n) :
    Function.Bijective fun x : BitVec w => x ^^^ (x >>> n) :=
  bijective_of_injective (xorShiftRight_injective hn)

end DemoOS.Support.ShiftXor
