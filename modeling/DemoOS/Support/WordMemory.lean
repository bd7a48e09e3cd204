import Mathlib.Data.Nat.Basic
import Mathlib.Algebra.Group.Nat.Defs

/-!
# `DemoOS.Support.WordMemory`: memories with addresses of a fixed width

A memory is a function from addresses of `w` bits, and addresses wrap around. `patch` replaces the
`n` cells from a base address on; an address belongs to them when its distance from the base is
less than `n`. `patch_patch` joins two ranges that follow one another, and `patch_inside` and
`patch_outside` read a patched memory.
-/

set_option autoImplicit false

namespace DemoOS.Support.WordMemory

variable {w : Nat} {β : Type*} {mem : BitVec w → β} {base a : BitVec w} {m n i : Nat}
  {g g' : Nat → β}

/-- The memory with the `n` cells from `base` on replaced by `g 0`, `g 1` and so on. -/
def patch (mem : BitVec w → β) (base : BitVec w) (n : Nat) (g : Nat → β) (a : BitVec w) : β :=
  if (a - base).toNat < n then g (a - base).toNat else mem a

theorem patch_outside (h : n ≤ (a - base).toNat) : patch mem base n g a = mem a :=
  if_neg (Nat.not_lt.mpr h)

/-- The `i`-th cell is at distance `i`. -/
theorem distance_add (hi : i < 2 ^ w) : (base + BitVec.ofNat w i - base).toNat = i := by
  rw [BitVec.add_comm, BitVec.add_sub_cancel, BitVec.toNat_ofNat, Nat.mod_eq_of_lt hi]

theorem patch_inside (hi : i < n) (hw : i < 2 ^ w) :
    patch mem base n g (base + BitVec.ofNat w i) = g i := by
  rw [patch, distance_add hw, if_pos hi]

@[simp] theorem patch_zero : patch mem base 0 g = mem :=
  funext fun _ => patch_outside (Nat.zero_le _)

/-- Only the values for the range count. -/
theorem patch_congr (h : ∀ i < n, g i = g' i) : patch mem base n g = patch mem base n g' := by
  funext a
  rw [patch, patch]
  split
  · exact h _ ‹_›
  · rfl

/-- The distance from a base that is moved. -/
theorem distance_move (hm : m ≤ 2 ^ w) :
    (a - (base + BitVec.ofNat w m)).toNat
      = if m ≤ (a - base).toNat then (a - base).toNat - m else 2 ^ w + (a - base).toNat - m := by
  have hlt : (a - base).toNat < 2 ^ w := (a - base).isLt
  rw [← BitVec.sub_sub, BitVec.toNat_sub, BitVec.toNat_ofNat]
  rcases Nat.lt_or_eq_of_le hm with hm | rfl
  · rw [Nat.mod_eq_of_lt hm]
    split
    · have hsum : 2 ^ w - m + (a - base).toNat = 2 ^ w + ((a - base).toNat - m) := by omega
      rw [hsum, Nat.add_mod_left, Nat.mod_eq_of_lt (by omega)]
    · rw [Nat.mod_eq_of_lt (by omega)]
      omega
  · rw [Nat.mod_self, Nat.sub_zero, Nat.add_mod_left, Nat.mod_eq_of_lt hlt,
      if_neg (Nat.not_le.mpr hlt), Nat.add_sub_cancel_left]

/-- A range and the one behind it are one range. -/
theorem patch_patch (h : m + n ≤ 2 ^ w) :
    patch (patch mem base m g) (base + BitVec.ofNat w m) n g'
      = patch mem base (m + n) fun i => if i < m then g i else g' (i - m) := by
  funext a
  have hlt : (a - base).toNat < 2 ^ w := (a - base).isLt
  simp only [patch, distance_move (Nat.le_trans (Nat.le_add_right m n) h)]
  by_cases hm : m ≤ (a - base).toNat
  · rw [if_pos hm, if_neg (Nat.not_lt.mpr hm)]
    by_cases hn : (a - base).toNat - m < n
    · rw [if_pos hn, if_pos (by omega), if_neg (Nat.not_lt.mpr hm)]
    · rw [if_neg hn, if_neg (by omega)]
  · rw [if_neg hm, if_neg (by omega), if_pos (by omega), if_pos (by omega), if_pos (by omega)]

/-- The same value behind itself. -/
theorem patch_patch_const {c : β} (h : m + n ≤ 2 ^ w) :
    patch (patch mem base m fun _ => c) (base + BitVec.ofNat w m) n (fun _ => c)
      = patch mem base (m + n) fun _ => c := by
  rw [patch_patch h]
  exact patch_congr fun _ _ => ite_self c

end DemoOS.Support.WordMemory
