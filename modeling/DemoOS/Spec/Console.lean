import DemoOS.Drivers.Uart
import DemoOS.Support.CircularBuffer

/-!
# `DemoOS.Spec.Console`: what the console promises

The console keeps the characters that nobody has read yet, in the order in which they came, and
drops a character that comes while it is full (`accept`). The UART delivers words, and a word
without an error flag carries a character (`dataOf`).
-/

set_option autoImplicit false

namespace DemoOS

/-- A character comes to a console with room for `room` unread ones. -/
def accept (room : Nat) (unread : List (BitVec 8)) (c : BitVec 8) : List (BitVec 8) :=
  if unread.length < room then unread ++ [c] else unread

/-- The characters that come while there is room are kept. -/
theorem foldl_accept (room : Nat) (unread cs : List (BitVec 8)) :
    cs.foldl (accept room) unread = unread ++ cs.take (room - unread.length) := by
  induction cs generalizing unread with
  | nil => simp
  | cons c cs ih =>
      rw [List.foldl_cons, ih]
      unfold accept
      split
      · next hroom =>
          have hsucc : room - unread.length = room - (unread ++ [c]).length + 1 := by
            rw [List.length_append, List.length_singleton]
            omega
          rw [hsucc, List.take_succ_cons, List.append_assoc, List.singleton_append]
      · next hfull =>
          have hzero : room - unread.length = 0 := by omega
          rw [hzero, List.take_zero, List.take_zero]

/-- The characters that are kept of those that come. -/
def keptOf (room : Nat) : List (BitVec 8) → List (BitVec 8) → List (BitVec 8)
  | _, [] => []
  | unread, c :: cs =>
      if unread.length < room then c :: keptOf room (unread ++ [c]) cs else keptOf room unread cs

theorem foldl_accept_keptOf (room : Nat) (unread cs : List (BitVec 8)) :
    cs.foldl (accept room) unread = unread ++ keptOf room unread cs := by
  induction cs generalizing unread with
  | nil => exact (List.append_nil unread).symm
  | cons c cs ih =>
      rw [List.foldl_cons, ih, accept, keptOf]
      split
      · rw [List.append_assoc, List.singleton_append]
      · rfl

/-- The word of the data register has no error flag. -/
def IsData (dr : BitVec 32) : Prop := (dr >>> 8) &&& 0xF#32 = 0

instance (dr : BitVec 32) : Decidable (IsData dr) := inferInstanceAs (Decidable (_ = _))

/-- The characters of the words without error flags. -/
def dataOf (words : List (BitVec 32)) : List (BitVec 8) :=
  (words.filter fun dr => IsData dr).map fun dr => dr.setWidth 8

theorem dataOf_append (words words' : List (BitVec 32)) :
    dataOf (words ++ words') = dataOf words ++ dataOf words' := by
  rw [dataOf, List.filter_append, List.map_append]
  rfl

theorem dataOf_ne_nil {words : List (BitVec 32)} : dataOf words ≠ [] ↔ ∃ dr ∈ words, IsData dr := by
  rw [dataOf, Ne, List.map_eq_nil_iff, List.filter_eq_nil_iff]
  simp

/-- The words that the receive loop reads, -/
def receiveWords (mis : BitVec 32) (fifo : List (BitVec 32)) : List (BitVec 32) :=
  if mis &&& (1#32 <<< 4) ≠ 0 then fifo else []

/-- and those that the receive-timeout loop reads behind it. -/
def timeoutWords (mis : BitVec 32) (timeoutFifo : List (BitVec 32)) : List (BitVec 32) :=
  if mis &&& (1#32 <<< 6) ≠ 0 then timeoutFifo else []

/-- The room for unread characters: one slot of the ring stays free. -/
abbrev UART_ROOM : Nat := UART_BUFFER_SIZE - 1

/-- The characters in the ring, the oldest first. -/
def Kernel.unreadBytes (k : Kernel) : List (BitVec 8) :=
  Support.CircularBuffer.contents UART_BUFFER_SIZE k.uartBuffer k.uartHead k.uartTail

/-! ### Lines -/

/-- The characters that end a line. -/
def endsInput (c : BitVec 8) : Bool := c = 13 ∨ c = 10

/-- A character comes to a line with room for `room` of them: 0x7F takes the last one back. -/
def editChar (room : Nat) (line : List (BitVec 8)) (c : BitVec 8) : List (BitVec 8) :=
  if c = 0x7F then line.dropLast else if line.length < room then line ++ [c] else line

/-- The line that characters make up. -/
def edited (room : Nat) (cs : List (BitVec 8)) : List (BitVec 8) := cs.foldl (editChar room) []

theorem length_editChar_le {room : Nat} {line : List (BitVec 8)} (h : line.length ≤ room)
    (c : BitVec 8) : (editChar room line c).length ≤ room := by
  unfold editChar
  split
  · rw [List.length_dropLast]
    omega
  · split
    · rw [List.length_append, List.length_singleton]
      omega
    · exact h

end DemoOS
