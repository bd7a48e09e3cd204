import Mathlib.Data.Nat.Basic
import Mathlib.Algebra.Group.Nat.Defs

/-!
# `DemoOS.Support.ByteMemory`: memories of bytes

A memory is a function from addresses to bytes. `patch` replaces a range of it, and every
bulk operation (clearing, copying, storing a word) is a patch. Words are read in
little-endian order by `load`; `load_storeWord` is the round trip, and `load_congr` says that
a word depends on its own bytes only.
-/

set_option autoImplicit false

namespace DemoOS.Support.ByteMemory

/-- The memory with the `n` bytes from `a` on replaced by `g 0`, `g 1` and so on. -/
def patch (mem : Nat → UInt8) (a n : Nat) (g : Nat → UInt8) (b : Nat) : UInt8 :=
  if a ≤ b ∧ b < a + n then g (b - a) else mem b

/-- The `n` bytes from `a` on, read as a little-endian number. -/
def load (mem : Nat → UInt8) (a : Nat) : Nat → Nat
  | 0 => 0
  | n + 1 => (mem a).toNat + 256 * load mem (a + 1) n

/-- The bytes of a number. -/
def digit (v i : Nat) : UInt8 := UInt8.ofNat (v / 256 ^ i)

/-- A number stored in `n` bytes. -/
def storeWord (mem : Nat → UInt8) (a n v : Nat) : Nat → UInt8 := patch mem a n (digit v)

variable {mem mem' : Nat → UInt8} {a b n v : Nat} {g : Nat → UInt8}

theorem patch_inside (h : a ≤ b ∧ b < a + n) : patch mem a n g b = g (b - a) := if_pos h

theorem patch_outside (h : b < a ∨ a + n ≤ b) : patch mem a n g b = mem b :=
  if_neg fun h' => by omega

/-- The `i`-th patched byte. -/
theorem patch_add {i : Nat} (hi : i < n) : patch mem a n g (a + i) = g i := by
  rw [patch_inside ⟨Nat.le_add_right a i, by omega⟩, Nat.add_sub_cancel_left]

theorem load_congr (h : ∀ b, a ≤ b → b < a + n → mem b = mem' b) : load mem a n = load mem' a n := by
  induction n generalizing a with
  | zero => rfl
  | succ n ih =>
      have hrest : load mem (a + 1) n = load mem' (a + 1) n :=
        ih fun b hb hb' => h b (by omega) (by omega)
      rw [load, load, h a (Nat.le_refl a) (by omega), hrest]

theorem load_lt (mem : Nat → UInt8) (a n : Nat) : load mem a n < 256 ^ n := by
  induction n generalizing a with
  | zero => exact Nat.one_pos
  | succ n ih =>
      have hbyte := (mem a).toNat_lt
      have hrest := ih (a + 1)
      rw [load, Nat.pow_succ]
      omega

theorem load_zero (h : ∀ b, a ≤ b → b < a + n → mem b = 0) : load mem a n = 0 := by
  induction n generalizing a with
  | zero => rfl
  | succ n ih =>
      rw [load, ih fun b hb hb' => h b (by omega) (by omega), h a (Nat.le_refl a) (by omega)]
      rfl

/-- The bytes of a number make up the number. -/
theorem load_digits (h : ∀ i < n, mem (a + i) = digit v i) : load mem a n = v % 256 ^ n := by
  induction n generalizing a v with
  | zero => rw [load, Nat.pow_zero, Nat.mod_one]
  | succ n ih =>
      have hrest : ∀ i < n, mem (a + 1 + i) = digit (v / 256) i := by
        intro i hi
        rw [Nat.add_assoc, Nat.add_comm 1 i, h (i + 1) (by omega), digit, digit,
          Nat.div_div_eq_div_mul, Nat.pow_succ, Nat.mul_comm]
      have hfirst : (mem a).toNat = v % 256 := by
        have := h 0 (Nat.succ_pos n)
        rw [Nat.add_zero] at this
        rw [this, digit, Nat.pow_zero, Nat.div_one, UInt8.toNat_ofNat']
      rw [load, ih hrest, hfirst, Nat.pow_succ, Nat.mul_comm (256 ^ n) 256, Nat.mod_mul]

/-- A stored number is read back. -/
theorem load_storeWord (h : v < 256 ^ n) : load (storeWord mem a n v) a n = v := by
  have hbytes : ∀ i < n, storeWord mem a n v (a + i) = digit v i := fun i hi => patch_add hi
  rw [load_digits hbytes, Nat.mod_eq_of_lt h]

/-- A word outside the patched range is not touched. -/
theorem load_patch_outside {c k : Nat} (h : c + k ≤ a ∨ a + n ≤ c) :
    load (patch mem a n g) c k = load mem c k :=
  load_congr fun b hb hb' => patch_outside (by omega)

end DemoOS.Support.ByteMemory
