import DemoOS.Common.String

/-!
# `DemoOS.Spec.CommandLine`: the fields of a command line

What the shell means by the words of a command, in terms of the line alone: the text before
the first space, the text behind it, and the fields that single spaces separate.
-/

set_option autoImplicit false

namespace DemoOS

/-- A string without a character that ends a line. -/
def IsLine (s : List UInt8) : Prop := ∀ c ∈ s, endsLine c = false

instance (s : List UInt8) : Decidable (IsLine s) :=
  List.decidableBAll (fun c => endsLine c = false) s

/-- The text before the first delimiter. -/
def textBefore (delimiter : UInt8) (s : List UInt8) : List UInt8 := s.takeWhile (· ≠ delimiter)

/-- The text behind the first delimiter; empty if there is none. -/
def textBehind (delimiter : UInt8) (s : List UInt8) : List UInt8 :=
  (s.dropWhile (· ≠ delimiter)).tail

/-- The fields between single delimiters. One empty field at the end is dropped. -/
def fields (delimiter : UInt8) (s : List UInt8) : List (List UInt8) :=
  let cut := s.splitOn delimiter
  if cut.getLast? = some [] then cut.dropLast else cut

end DemoOS
