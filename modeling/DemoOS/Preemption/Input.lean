import DemoOS.Preemption.Wait

/-!
# `DemoOS.Preemption.Input`: `syscall_input` under preemption

The system call as a program: a tick or a UART interrupt may come between any two of its
statements. The rest of the kernel runs in atomic steps. As in `Libs/Syscalls.lean`, the echo to
the terminal is left out and the user's buffer is the list of the characters stored so far.
-/

set_option autoImplicit false

namespace DemoOS

/-- A place in `syscall_input(buffer, len)`. -/
inductive InputPoint where
  /-- The test `uart_owner != NULL && uart_owner != current_process`. -/
  | testOwner (len : Int)
  /-- The `schedule()` of the first loop. -/
  | waitOwner (len : Int)
  /-- `uart_owner = current_process`, and the computation of `max_len`. -/
  | assign (len : Int)
  /-- The test `uart_head == uart_tail`. -/
  | testRing (maxLen : Nat) (line : List (BitVec 8))
  /-- `current_process->state = PROCESS_WAITING_UART_INPUT`. -/
  | markWaiting (maxLen : Nat) (line : List (BitVec 8))
  /-- The `schedule()` behind it, and the `continue`. -/
  | block (maxLen : Nat) (line : List (BitVec 8))
  /-- The test `uart_tail != uart_head` of the inner loop. -/
  | testTail (maxLen : Nat) (line : List (BitVec 8))
  /-- `char c = uart_buffer[uart_tail]`. -/
  | load (maxLen : Nat) (line : List (BitVec 8))
  /-- `uart_tail = (uart_tail + 1) % UART_BUFFER_SIZE`. -/
  | advance (maxLen : Nat) (line : List (BitVec 8)) (c : BitVec 8)
  /-- The tests of `c`, and what they do to the user's buffer. -/
  | store (maxLen : Nat) (line : List (BitVec 8)) (c : BitVec 8)
  /-- `uart_owner = NULL`. -/
  | release (line : List (BitVec 8))
  /-- `return current_len`. -/
  | finish (line : List (BitVec 8))
deriving DecidableEq

/-- The call is past the assignment of `uart_owner` and not past its release. -/
def InputPoint.holdsConsole : InputPoint → Bool
  | .testOwner _ | .waitOwner _ | .assign _ | .finish _ => false
  | _ => true

def inputStatement (k : Kernel) : InputPoint → Kernel × Flow InputPoint
  | .testOwner len =>
      if k.uartOwner ≠ none ∧ k.uartOwner ≠ some k.currentProcess then (k, .goto (.waitOwner len))
      else (k, .goto (.assign len))
  | .waitOwner len => (k.schedule.1, .schedules (some (.testOwner len)))
  | .assign len =>
      ({ k with uartOwner := some k.currentProcess },
        .goto (.testRing (if len > 0 then (len - 1).toNat else 0) []))
  | .testRing maxLen line =>
      if k.uartHead = k.uartTail then (k, .goto (.markWaiting maxLen line))
      else (k, .goto (.testTail maxLen line))
  | .markWaiting maxLen line =>
      (k.setState k.currentProcess .waitingUartInput, .goto (.block maxLen line))
  | .block maxLen line => (k.schedule.1, .schedules (some (.testRing maxLen line)))
  | .testTail maxLen line =>
      if k.uartTail = k.uartHead then (k, .goto (.testRing maxLen line))
      else (k, .goto (.load maxLen line))
  | .load maxLen line => (k, .goto (.advance maxLen line (k.uartBuffer k.uartTail)))
  | .advance maxLen line c =>
      ({ k with uartTail := (k.uartTail + 1) % UART_BUFFER_SIZE }, .goto (.store maxLen line c))
  | .store maxLen line c =>
      if c = 13 ∨ c = 10 then (k, .goto (.release line))
      else if c = 0x7F then (k, .goto (.testTail maxLen line.dropLast))
      else if line.length < maxLen then (k, .goto (.testTail maxLen (line ++ [c])))
      else (k, .goto (.testTail maxLen line))
  | .release line => ({ k with uartOwner := none }, .goto (.finish line))
  | .finish line =>
      (((k.log (.lineRead k.currentProcess line)).returnToUser line.length).1, .returns)

/-- `syscall_input` as a program. A call is given by its `len`. -/
def inputProgram : Program Kernel InputPoint Int where
  kernel := id
  setKernel _ k := k
  call len := .testOwner len
  statement _ := inputStatement
  trap alg k t :=
    match t with
    | .input _ => none
    | t => k.step alg t

/-- The process holds the console. -/
def HoldsConsole (s : Preemptible Kernel InputPoint) (p : PcbPtr) : Prop :=
  ∃ x, s.point p = some x ∧ x.holdsConsole = true

/-- A process that was switched out waiting for a character, is in no ready queue, and has
characters to read. -/
def SleepsOnInput (s : Preemptible Kernel InputPoint) (p : PcbPtr) : Prop :=
  s.state.IsProcess p ∧ p ≠ s.state.currentProcess
    ∧ (s.state.pcb p).state = .waitingUartInput ∧ (∀ q ∈ readyQueues, p ∉ s.state.linkedIn q)
    ∧ s.state.uartHead ≠ s.state.uartTail

instance (s : Preemptible Kernel InputPoint) (p : PcbPtr) : Decidable (SleepsOnInput s p) :=
  inferInstanceAs (Decidable (_ ∧ _))

/-- The last test before the assignment of `uart_owner`, and the one before the state is set to
waiting, still come out as they did. -/
def TestsHold (s : Preemptible Kernel InputPoint) (e : PreemptionEvent Int) : Prop :=
  match e, s.point s.state.currentProcess with
  | .statement, some (.assign _) =>
      s.state.uartOwner = none ∨ s.state.uartOwner = some s.state.currentProcess
  | .statement, some (.markWaiting _ _) => s.state.uartHead = s.state.uartTail
  | _, _ => True

instance (s : Preemptible Kernel InputPoint) (e : PreemptionEvent Int) :
    Decidable (TestsHold s e) := by
  unfold TestsHold
  split <;> infer_instance

end DemoOS
