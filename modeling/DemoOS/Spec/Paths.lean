import DemoOS.Common.String
import Mathlib.Data.List.DropRight

/-!
# `DemoOS.Spec.Paths`: paths, and what reading one leaves

First what a path means: its components and the location that they lead to. Then how
`normalize_path` reads a path, as a list of tokens that is computed from the text alone, and the
text that it keeps. Last the conditions on a path under which that text is right: `Contained` for
the index of the in-place rewriting, `DotsHarmless` and `climbs` for the location.
-/

set_option autoImplicit false

namespace DemoOS.Path

/-! ## Locations -/

abbrev Name := List UInt8

/-- The components `.` and `..`. -/
def dot : Name := [DOT]
def dotDot : Name := [DOT, DOT]

/-- What stands between the slashes of a path. -/
def components (s : List UInt8) : List Name := s.splitOn SLASH

/-- One component, from a directory. At the root, `..` stays there. -/
def resolve (directory : List Name) (c : Name) : List Name :=
  if c = [] ∨ c = dot then directory
  else if c = dotDot then directory.dropLast
  else directory ++ [c]

/-- The location that a path names. -/
def location (s : List UInt8) : List Name := (components s).foldl resolve []

/-- A path from the root without an empty component inside it. -/
structure IsAbsolute (s : List UInt8) : Prop where
  rooted : s.head? = some SLASH
  noZero : NUL ∉ s
  inner : [] ∉ (components s).tail.dropLast

/-! ## Reading -/

/-- What `normalize_path` does at a character: go back one component, or keep it. -/
inductive Token where
  | parent
  | char (c : UInt8)
  deriving DecidableEq

/-- A component ends in front of the rest of a path. -/
def AtEnd (rest : List UInt8) : Prop := rest.head? = none ∨ rest.head? = some SLASH

instance (rest : List UInt8) : Decidable (AtEnd rest) := inferInstanceAs (Decidable (_ ∨ _))

/-- The tokens of a path. A dot that a component ends with is left out, together with the slash
behind it; so are two of them, which go back instead. -/
def readPath : List UInt8 → List Token
  | [] => []
  | c :: rest =>
      if c = DOT ∧ AtEnd rest then readPath rest.tail
      else if c = DOT ∧ rest.head? = some DOT ∧ AtEnd rest.tail then
        .parent :: readPath rest.tail.tail
      else .char c :: readPath rest
  termination_by s => s.length
  decreasing_by all_goals simp only [List.length_cons, List.length_tail]; omega

/-- The text in front of the last component of `out`. -/
def parent (out : List UInt8) : List UInt8 := out.dropLast.rdropWhile (· ≠ SLASH)

/-- One token, on the text kept so far. Nothing is in front of an empty text. -/
def keep (out : List UInt8) : Token → Option (List UInt8)
  | .parent => if out = [] then none else some (parent out)
  | .char c => some (out ++ [c])

/-- The text that is left of a path. -/
def normalized (s : List UInt8) : Option (List UInt8) := (readPath s).foldlM keep []

/-! ## Conditions -/

/-- Every `..` finds something to remove, when `slashes` slashes are kept in front of the tokens
and, behind the last of them, a part of a name or not. -/
def StaysInside : Nat → Bool → List Token → Prop
  | _, _, [] => True
  | slashes, _, .char c :: ts =>
      if c = SLASH then StaysInside (slashes + 1) false ts else StaysInside slashes true ts
  | slashes, true, .parent :: ts => StaysInside slashes false ts
  | slashes + 1, false, .parent :: ts => StaysInside slashes false ts
  | 0, false, .parent :: _ => False

/-- No `..` of a path goes back beyond its beginning. -/
def Contained (s : List UInt8) : Prop := StaysInside 0 false (readPath s)

/-- The number of dots that a name ends with. -/
def trailingDots (c : Name) : Nat := (c.rtakeWhile (· = DOT)).length

/-- A name without the dots that it ends with. -/
def stem (c : Name) : Name := c.rdropWhile (· = DOT)

/-- A name that ends with dots has one there and is followed by `..`, the components `.` aside.
`joined` says that the component before was such a name. -/
def DotsHarmless : Bool → List Name → Prop
  | joined, [] => joined = false
  | joined, c :: cs =>
      if c = [] ∨ c = dot then DotsHarmless joined cs
      else if c = dotDot then DotsHarmless false cs
      else if trailingDots c = 0 then joined = false ∧ DotsHarmless false cs
      else joined = false ∧ trailingDots c = 1 ∧ DotsHarmless true cs

/-- What reading components from the root leaves of them: how often `..` found nothing to remove,
the names, and the stem of a name that lost its dot and its slash. -/
structure Kept where
  climbed : Nat
  names : List Name
  unfinished : Name

/-- One component. A name that ends with two dots goes back over itself. -/
def Kept.read (k : Kept) (c : Name) : Kept :=
  if c = [] ∨ c = dot then k
  else if c = dotDot then
    if k.unfinished ≠ [] then { k with unfinished := [] }
    else if k.names ≠ [] then { k with names := k.names.dropLast }
    else { k with climbed := k.climbed + 1 }
  else match trailingDots c with
    | 0 => { k with names := k.names ++ [k.unfinished ++ c], unfinished := [] }
    | 1 => { k with unfinished := k.unfinished ++ stem c }
    | _ + 2 => { k with unfinished := [] }

/-- Nothing but the root. -/
def Kept.root : Kept := ⟨0, [], []⟩

/-- What is left of a path. -/
def kept (s : List UInt8) : Kept := (components s).foldl Kept.read Kept.root

/-- How many `..` of a path find nothing in front of them that is kept. -/
def climbs (s : List UInt8) : Nat := (kept s).climbed

end DemoOS.Path
