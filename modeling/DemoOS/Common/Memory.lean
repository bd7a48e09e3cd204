import DemoOS.Support.WordMemory

/-!
# `DemoOS.Common.Memory`: `common/memory.S`

The routines of the file, instruction by instruction, on the registers that they use and a memory
with 64-bit addresses. A `w` register is the lower half of its `x` register, and writing it clears
the upper half. A routine that runs out of fuel returns `none`; the fuel of a call is the value of
its counter and one more, since every round of a loop lowers the counter.

`memcmp` has no return of its own where the bytes are equal: it runs on into `memset`.
-/

set_option autoImplicit false

namespace DemoOS.Machine

open Support.WordMemory

/-- The registers of the routines, and the memory. -/
structure State where
  x0 : BitVec 64
  x1 : BitVec 64
  x2 : BitVec 64
  x3 : BitVec 64
  x4 : BitVec 64
  x5 : BitVec 64
  mem : BitVec 64 → UInt8

/-- The result and the condition flags of a `subs` on registers of `w` bits. -/
structure Subs (w : Nat) where
  result : BitVec w
  negative : Bool
  zero : Bool
  overflow : Bool

/-- `subs`. -/
def subs {w : Nat} (a b : BitVec w) : Subs w where
  result := a - b
  negative := (a - b).msb
  zero := a - b = 0
  overflow := a.msb ≠ b.msb ∧ (a - b).msb ≠ a.msb

/-- The condition of `b.gt`. -/
def Subs.gt {w : Nat} (f : Subs w) : Bool := !f.zero && f.negative == f.overflow

/-- The lower half of a register. -/
def lower (x : BitVec 64) : BitVec 32 := x.setWidth 32

/-- `ldrb` into a `w` register. -/
def loadByte (mem : BitVec 64 → UInt8) (a : BitVec 64) : BitVec 64 := (mem a).toBitVec.setWidth 64

/-- `strb` from a `w` register. -/
def storeByte (mem : BitVec 64 → UInt8) (a x : BitVec 64) : BitVec 64 → UInt8 :=
  patch mem a 1 fun _ => ⟨x.setWidth 8⟩

/-- `str xzr`. -/
def storeZeros (mem : BitVec 64 → UInt8) (a : BitVec 64) : BitVec 64 → UInt8 :=
  patch mem a 8 fun _ => 0

def memzeroLoop : Nat → State → Option State
  | 0, _ => none
  | fuel + 1, s =>
      -- str xzr, [x0], #8
      let s := { s with mem := storeZeros s.mem s.x0, x0 := s.x0 + 8 }
      -- subs x1, x1, #8
      let f := subs s.x1 8
      let s := { s with x1 := f.result }
      if f.gt then memzeroLoop fuel s else some s

/-- `memzero`. -/
def memzero (s : State) : Option State := memzeroLoop (s.x1.toNat + 1) s

def memcpyLoop : Nat → State → Option State
  | 0, _ => none
  | fuel + 1, s =>
      -- ldrb w3, [x1], #1
      let s := { s with x3 := loadByte s.mem s.x1, x1 := s.x1 + 1 }
      -- strb w3, [x0], #1
      let s := { s with mem := storeByte s.mem s.x0 s.x3, x0 := s.x0 + 1 }
      -- subs w2, w2, #1
      let f := subs (lower s.x2) 1
      let s := { s with x2 := f.result.setWidth 64 }
      if f.gt then memcpyLoop fuel s else some s

/-- `memcpy`. -/
def memcpy (s : State) : Option State := memcpyLoop ((lower s.x2).toNat + 1) s

/-- `.lExit`. -/
def exit (s : State) : State := { s with x0 := (lower s.x5).setWidth 64 }

def memsetLoop : Nat → State → Option State
  | 0, _ => none
  | fuel + 1, s =>
      if s.x2 = 0 then some (exit s)
      else
        let s := { s with mem := storeByte s.mem s.x0 s.x1 }
        let s := { s with x0 := s.x0 + 1, x2 := s.x2 - 1 }
        memsetLoop fuel s

/-- `memset`. -/
def memset (s : State) : Option State := memsetLoop (s.x2.toNat + 1) s

/-- `.lEqual`, which runs on into `memset`. -/
def equal (s : State) : Option State := memset { s with x5 := 0 }

/-- `.lLoop`. -/
def memcmpLoop : Nat → State → Option State
  | 0, _ => none
  | fuel + 1, s =>
      let s := { s with x3 := loadByte s.mem s.x0, x0 := s.x0 + 1 }
      let s := { s with x4 := loadByte s.mem s.x1, x1 := s.x1 + 1 }
      let s := { s with x5 := (lower s.x3 - lower s.x4).setWidth 64 }
      if lower s.x5 ≠ 0 then some (exit s)
      else
        let s := { s with x2 := s.x2 - 1 }
        if s.x2 ≠ 0 then memcmpLoop fuel s else equal s

/-- `memcmp`. -/
def memcmp (s : State) : Option State :=
  if s.x2 = 0 then equal s else memcmpLoop (s.x2.toNat + 1) s

end DemoOS.Machine
