import DemoOS.Kernel.Preemption
import DemoOS.Spec.Console
import DemoOS.Support.CString

/-!
# `DemoOS.Preemption.InputLine`: `syscall_input` with the user's buffer

The system call as a program as in `Preemption/Input.lean`, now with the array that it fills. A
call is given by the `len` bytes of the array, whatever they are before it. A store outside of
them ends at `outside`. The state of the program carries what the console has been through besides
the kernel: the characters that came while the ring had room, and the calls that have returned.
-/

set_option autoImplicit false

namespace DemoOS

open Support.CString

/-- A call that has returned: the characters it took from the ring, the user's array, and
`current_len`. -/
structure InputLine where
  len : Nat
  taken : List (BitVec 8)
  buffer : List (BitVec 8)
  returned : Nat
deriving DecidableEq

/-- The kernel, and what its console has been through. -/
structure ConsoleHistory where
  kernel : Kernel
  /-- The characters that came while the ring had room. -/
  kept : List (BitVec 8)
  /-- The calls of `syscall_input` that have returned, the first one first. -/
  lines : List InputLine

/-- The local variables of a call behind its first loop, and the characters that it has taken. -/
structure InputLocals where
  len : Nat
  maxLen : Nat
  buffer : List (BitVec 8)
  currentLen : Nat
  taken : List (BitVec 8)

/-- A place in `syscall_input(buffer, len)`. -/
inductive InputLinePoint where
  /-- The test `uart_owner != NULL && uart_owner != current_process`. -/
  | testOwner (buffer : List (BitVec 8))
  /-- The `schedule()` of the first loop. -/
  | waitOwner (buffer : List (BitVec 8))
  /-- `uart_owner = current_process`, and the computation of `max_len`. -/
  | assign (buffer : List (BitVec 8))
  /-- The test `uart_head == uart_tail`. -/
  | testRing (l : InputLocals)
  /-- `current_process->state = PROCESS_WAITING_UART_INPUT`. -/
  | markWaiting (l : InputLocals)
  /-- The `schedule()` behind it, and the `continue`. -/
  | block (l : InputLocals)
  /-- The test `uart_tail != uart_head` of the inner loop. -/
  | testTail (l : InputLocals)
  /-- `char c = uart_buffer[uart_tail]`. -/
  | load (l : InputLocals)
  /-- `uart_tail = (uart_tail + 1) % UART_BUFFER_SIZE`. -/
  | advance (l : InputLocals) (c : BitVec 8)
  /-- The tests of `c`, and what they do to the user's buffer. -/
  | store (l : InputLocals) (c : BitVec 8)
  /-- `uart_owner = NULL`. -/
  | release (l : InputLocals)
  /-- `buffer[current_len] = '\0'`. -/
  | terminate (l : InputLocals)
  /-- `return current_len`. -/
  | finish (l : InputLocals)
  /-- A byte outside the user's buffer was written. -/
  | outside

/-- The characters that the call has taken from the ring. -/
def InputLinePoint.taken : InputLinePoint → List (BitVec 8)
  | .testRing l | .markWaiting l | .block l | .testTail l | .load l | .advance l _ | .store l _
  | .release l | .terminate l | .finish l => l.taken
  | .testOwner _ | .waitOwner _ | .assign _ | .outside => []

/-- `max_len`, and nothing taken yet. -/
def InputLocals.first (buffer : List (BitVec 8)) : InputLocals where
  len := buffer.length
  maxLen := if buffer.length > 0 then buffer.length - 1 else 0
  buffer := buffer
  currentLen := 0
  taken := []

/-- The branches for a character that does not end the line; `none` is a store outside. -/
def InputLocals.storeChar (l : InputLocals) (c : BitVec 8) : Option InputLocals :=
  if c = 0x7F then
    if l.currentLen > 0 then do
      let buffer ← put l.buffer (l.currentLen - 1) 0
      some { l with buffer := buffer, currentLen := l.currentLen - 1 }
    else some l
  else if l.currentLen < l.maxLen then do
    let buffer ← put l.buffer l.currentLen c
    let buffer ← put buffer (l.currentLen + 1) 0
    some { l with buffer := buffer, currentLen := l.currentLen + 1 }
  else some l

def inputLineStatement (h : ConsoleHistory) :
    InputLinePoint → ConsoleHistory × Flow InputLinePoint
  | .testOwner buffer =>
      if h.kernel.uartOwner ≠ none ∧ h.kernel.uartOwner ≠ some h.kernel.currentProcess then
        (h, .goto (.waitOwner buffer))
      else (h, .goto (.assign buffer))
  | .waitOwner buffer =>
      ({ h with kernel := h.kernel.schedule.1 }, .schedules (some (.testOwner buffer)))
  | .assign buffer =>
      ({ h with kernel := { h.kernel with uartOwner := some h.kernel.currentProcess } },
        .goto (.testRing (.first buffer)))
  | .testRing l =>
      if h.kernel.uartHead = h.kernel.uartTail then (h, .goto (.markWaiting l))
      else (h, .goto (.testTail l))
  | .markWaiting l =>
      ({ h with kernel := h.kernel.setState h.kernel.currentProcess .waitingUartInput },
        .goto (.block l))
  | .block l => ({ h with kernel := h.kernel.schedule.1 }, .schedules (some (.testRing l)))
  | .testTail l =>
      if h.kernel.uartTail = h.kernel.uartHead then (h, .goto (.testRing l))
      else (h, .goto (.load l))
  | .load l => (h, .goto (.advance l (h.kernel.uartBuffer h.kernel.uartTail)))
  | .advance l c =>
      ({ h with kernel :=
          { h.kernel with uartTail := (h.kernel.uartTail + 1) % UART_BUFFER_SIZE } },
        .goto (.store { l with taken := l.taken ++ [c] } c))
  | .store l c =>
      if endsInput c then (h, .goto (.release l))
      else
        match l.storeChar c with
        | some l => (h, .goto (.testTail l))
        | none => (h, .goto .outside)
  | .release l => ({ h with kernel := { h.kernel with uartOwner := none } }, .goto (.terminate l))
  | .terminate l =>
      match put l.buffer l.currentLen 0 with
      | some buffer => (h, .goto (.finish { l with buffer := buffer }))
      | none => (h, .goto .outside)
  | .finish l =>
      ({ h with
          kernel := (h.kernel.returnToUser l.currentLen).1
          lines := h.lines ++ [⟨l.len, l.taken, l.buffer, l.currentLen⟩] }, .returns)
  | .outside => (h, .goto .outside)

/-- `syscall_input` as a program. The characters of an interrupt come one after the other. -/
def inputLineProgram : Program ConsoleHistory InputLinePoint (List (BitVec 8)) where
  kernel := ConsoleHistory.kernel
  setKernel h k := { h with kernel := k }
  call buffer := .testOwner buffer
  statement _ := inputLineStatement
  trap alg h t :=
    match t with
    | .input _ => none
    | .uartIrq mis fifo timeoutFifo => some
        { h with
          kernel := h.kernel.handleUartIrq alg mis fifo timeoutFifo
          kept := h.kept
            ++ keptOf UART_ROOM h.kernel.unreadBytes (dataOf (receiveWords mis fifo)) }
    | t => (h.kernel.step alg t).map fun k => { h with kernel := k }

/-- Only `reader` calls `syscall_input`, with an array of at least one byte. -/
def OneReader (reader : PcbPtr) (s : Preemptible ConsoleHistory InputLinePoint) :
    PreemptionEvent (List (BitVec 8)) → Prop
  | .call buffer => s.state.kernel.currentProcess = reader ∧ buffer ≠ []
  | _ => True

/-- The test of the ring still comes out as it did when the state is set to waiting. -/
def RingTestHolds (s : Preemptible ConsoleHistory InputLinePoint)
    (e : PreemptionEvent (List (BitVec 8))) : Prop :=
  match e, s.point s.state.kernel.currentProcess with
  | .statement, some (.markWaiting _) => s.state.kernel.uartHead = s.state.kernel.uartTail
  | _, _ => True

instance (reader : PcbPtr) (s : Preemptible ConsoleHistory InputLinePoint)
    (e : PreemptionEvent (List (BitVec 8))) : Decidable (OneReader reader s e) := by
  unfold OneReader
  split <;> infer_instance

instance (s : Preemptible ConsoleHistory InputLinePoint)
    (e : PreemptionEvent (List (BitVec 8))) : Decidable (RingTestHolds s e) := by
  unfold RingTestHolds
  split <;> infer_instance

/-- The kernel after booting. -/
def ConsoleHistory.boot (timerClo : Nat → BitVec 32) : ConsoleHistory := ⟨.boot timerClo, [], []⟩

/-! ### What a reader gets -/

/-- The characters that the calls of `reader` have taken, those of the present one included. -/
def takenBy (s : Preemptible ConsoleHistory InputLinePoint) (reader : PcbPtr) :
    List (BitVec 8) :=
  (s.state.lines.map InputLine.taken).flatten
    ++ ((s.point reader).map InputLinePoint.taken).getD []

/-- A call that has returned took its characters up to the first one that ends a line, and has
left the line that they make up in the array, which has room for `len - 1` of them, and a zero
behind it. -/
def InputLine.IsRight (line : InputLine) : Prop :=
  ∃ cs c, line.taken = cs ++ [c] ∧ (∀ c ∈ cs, endsInput c = false) ∧ endsInput c = true
    ∧ line.buffer.length = line.len ∧ line.returned = (edited (line.len - 1) cs).length
    ∧ line.buffer.take line.returned = edited (line.len - 1) cs
    ∧ line.buffer[line.returned]? = some 0

/-- What the reader gets, at any moment of a run. -/
structure ReadsLines (alg : SchedAlgorithm) (reader : PcbPtr)
    (s : Preemptible ConsoleHistory InputLinePoint) : Prop where
  /-- Of the characters that came while the ring had room, each is taken once and in order. -/
  kept : takenBy s reader ++ s.state.kernel.unreadBytes = s.state.kept
  lines : ∀ line ∈ s.state.lines, line.IsRight
  /-- No byte outside of an array was written. -/
  inside : ∀ p, s.point p ≠ some .outside
  /-- A call to which the end of its line has come returns, at the latest after so many statements
  of its own. -/
  returns : ∀ x, s.point reader = some x →
    (∃ c ∈ x.taken ++ s.state.kernel.unreadBytes, endsInput c = true) →
    ∀ n s', inputLineProgram.Continues alg (OneReader reader) reader s n s' →
      4 * s.state.kernel.unreadBytes.length + 6 ≤ n → s.state.lines.length < s'.state.lines.length
  /-- The reader is not put to sleep, or left asleep, with something to read. -/
  awake : s.state.kernel.IsProcess reader →
    (s.state.kernel.pcb reader).state = .waitingUartInput → s.state.kernel.unreadBytes = []

end DemoOS
