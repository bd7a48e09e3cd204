import DemoOS.Libs.Scheduler
import DemoOS.Support.ShiftXor

/-!
# `DemoOS.Proofs.Scheduler.LotteryRandom`: the generator of the lottery

`lottery_random` tests its state for zero before the three shift-xor rounds, not after them. That is
enough because each round is a bijection that keeps zero: `xorshift64_bijective`. The main result
is `lotteryRandom_neverSticks`, for every state of the kernel and every stream of timer values.
-/

set_option autoImplicit false

namespace DemoOS

open Kernel Support.ShiftXor

/-- The three rounds of `lottery_random` lose nothing. -/
theorem xorshift64_bijective : Function.Bijective xorshift64 := by
  have hfirst := xorShiftLeft_bijective (w := 64) (show 0 < 13 by omega)
  have hsecond := xorShiftRight_bijective (w := 64) (show 0 < 7 by omega)
  have hthird := xorShiftLeft_bijective (w := 64) (show 0 < 17 by omega)
  exact hthird.comp (hsecond.comp hfirst)

/-- Only zero is mapped to zero. -/
theorem xorshift64_ne_zero {s : BitVec 64} (h : s ≠ 0) : xorshift64 s ≠ 0 := by
  intro hzero
  have hkeeps : xorshift64 0 = 0 := by decide
  exact h (xorshift64_bijective.injective (hzero.trans hkeeps.symm))

/-- The state after a draw is the result of the rounds for a word that is not zero. -/
theorem lotteryRandom_ne_zero (k : Kernel) : k.lotteryRandom.1.lotteryRngState ≠ 0 := by
  show xorshift64 (if k.lotteryRngState ^^^ (k.timerClo 0).setWidth 64 = 0
    then 88172645463325252#64 else k.lotteryRngState ^^^ (k.timerClo 0).setWidth 64) ≠ 0
  apply xorshift64_ne_zero
  split
  · decide
  · assumption

/-- From every state and for every stream of timer values, the generator's state is not zero after
any number of draws, each draw returns it, and the rounds are a bijection of the 64-bit words. -/
theorem lotteryRandom_neverSticks :
    (∀ (k : Kernel) (n : Nat),
      let drawn := (fun k : Kernel => k.lotteryRandom.1)^[n + 1] k
      drawn.lotteryRngState ≠ 0
        ∧ ((fun k : Kernel => k.lotteryRandom.1)^[n] k).lotteryRandom.2 = drawn.lotteryRngState)
    ∧ Function.Bijective xorshift64 := by
  refine ⟨fun k n => ?_, xorshift64_bijective⟩
  rw [Function.iterate_succ_apply']
  exact ⟨lotteryRandom_ne_zero _, rfl⟩

end DemoOS
