import DemoOS.Support.CString
import Mathlib.Data.UInt

/-!
# `DemoOS.Common.String`: `common/string.c`

A buffer is the list of all the bytes of a C array. Every function returns `none` where the
source would read or write outside one of its arrays. A pointer that only moves forward over a
string is the rest of the array from there on, and a pointer that is written through is an index.
-/

set_option autoImplicit false

namespace DemoOS

open Support.CString

abbrev Buffer := List UInt8

abbrev NUL : UInt8 := 0
abbrev LF : UInt8 := 10
abbrev CR : UInt8 := 13
abbrev SPACE : UInt8 := 32
abbrev DOT : UInt8 := 46
abbrev SLASH : UInt8 := 47

/-- The length of an argument of `syscall_exec`, from `common/syscalls_types.h`. -/
abbrev SYSCALL_EXEC_ARGUMENT_DIMENSION : Nat := 64

/-- `memzero` of a whole buffer. -/
def memzero (size : Nat) : Buffer := List.replicate size NUL

/-- `memcpy` of a prefix of `src`. -/
def memcpy (dest src : Buffer) (size : Nat) : Option Buffer :=
  if size ≤ src.length then writeAll dest 0 (src.take size) else none

/-- `strlen`. -/
def strlen : Buffer → Option Nat
  | [] => none
  | c :: str => if c = NUL then some 0 else (strlen str).map (· + 1)

/-- The loop that `strcat` and `strcpy` share: copies a string to the index `pointer`. -/
def copyString (dest : Buffer) (pointer : Nat) : Buffer → Option Buffer
  | [] => none
  | c :: src =>
      if c = NUL then put dest pointer NUL
      else do
        let dest ← put dest pointer c
        copyString dest (pointer + 1) src

/-- `strcat`. -/
def strcat (dest src : Buffer) : Option Buffer := do
  let pointer ← strlen dest
  copyString dest pointer src

/-- `strcpy`. -/
def strcpy (dest src : Buffer) : Option Buffer := copyString dest 0 src

/-- The characters at which both loops of `strsplit` stop. -/
def endsLine (c : UInt8) : Bool := c = NUL ∨ c = CR ∨ c = LF

/-- The inner loop of `strsplit`: everything behind the first delimiter goes to `dest2`, and no
zero behind it. -/
def copyLine (dest2 : Buffer) (j : Nat) : Buffer → Option Buffer
  | [] => none
  | c :: src =>
      if endsLine c then some dest2
      else do
        let dest2 ← put dest2 j c
        copyLine dest2 (j + 1) src

/-- The outer loop of `strsplit`. It ends with the inner one, which reads to the end of the
line. -/
def splitLine (delimiter : UInt8) (dest1 dest2 : Buffer) (i : Nat) :
    Buffer → Option (Buffer × Buffer)
  | [] => none
  | c :: src =>
      if endsLine c then some (dest1, dest2)
      else if c = delimiter then do
        let dest1 ← put dest1 i NUL
        let dest2 ← copyLine dest2 0 src
        some (dest1, dest2)
      else do
        let dest1 ← put dest1 i c
        splitLine delimiter dest1 dest2 (i + 1) src

/-- `strsplit`. -/
def strsplit (src : Buffer) (delimiter : UInt8) (dest1 dest2 : Buffer) :
    Option (Buffer × Buffer) :=
  splitLine delimiter dest1 dest2 0 src

end DemoOS
