import DemoOS.Libs.AddressSpaces

/-!
# `DemoOS.Spec.AddressSpaces`: what the memory of the processes is for

Every process has a memory of its own: bytes at virtual addresses. A fork gives the child the
bytes of its parent, a program starts with its image and zeroes behind it, and a store changes one
byte of one process. There are no frames and no tables here.
-/

set_option autoImplicit false

namespace DemoOS.Spec

/-- The byte at each virtual address of a process, where there is one. -/
abbrev Space := Nat → Option UInt8

namespace Space

/-- A process without user memory. -/
def empty : Space := fun _ => none

def store (space : Space) (virtualAddress : Nat) (byte : UInt8) : Space :=
  Function.update space virtualAddress (some byte)

/-- Sixteen pages with a program of `size` bytes, and zeroes. -/
def program (image : Nat → UInt8) (size : Nat) : Space := fun va =>
  if va < 16 * PAGE_SIZE then some (if va < size then image va else 0) else none

/-- A text and a zero behind it. -/
def storeText : Space → Nat → List UInt8 → Space
  | space, virtualAddress, [] => space.store virtualAddress 0
  | space, virtualAddress, byte :: text =>
      (space.store virtualAddress byte).storeText (virtualAddress + 1) text

/-- The arguments of a program, each a fixed distance below the one before. -/
def putArguments : Space → Nat → List (List UInt8) → Space
  | space, _, [] => space
  | space, stackPointer, argument :: arguments =>
      let stackPointer := Memory.nextArgument stackPointer
      (space.storeText stackPointer argument).putArguments stackPointer arguments

end Space

/-- The step of the memories, where `kernelImage` is what the kernel's memory holds at boot. -/
def spaceStep (kernelImage : Nat → UInt8) (spaces : List Space) : SpaceEvent → List Space
  | .kernelThread => spaces ++ [.empty]
  | .moveToUserMode i start size => spaces.set i (.program (fun o => kernelImage (start + o)) size)
  | .fork i => spaces ++ spaces[i]?.toList
  | .malloc => spaces
  | .exec i image arguments =>
      if image.length > PAGE_SIZE * 15 then spaces
      else spaces.set i
        ((Space.program (fun o => image.getD o 0) image.length).putArguments (16 * PAGE_SIZE)
          arguments)
  | .store i virtualAddress byte => spaces.modify i fun space => space.store virtualAddress byte

/-- The memories after the steps of a run. -/
def spacesAfter (kernelImage : Nat → UInt8) (events : List SpaceEvent) : List Space :=
  events.foldl (spaceStep kernelImage) []

end DemoOS.Spec
