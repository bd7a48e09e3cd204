import DemoOS.Common.String
import DemoOS.Libs.Mm
import DemoOS.Proofs.MessageRing

/-!
# `DemoOS.Libs.UserCopies`: user data in the arrays of the kernel

`send_message` and `receive_message` of `libs/ipc.c` with the bytes of a body, and `syscall_exec`
of `libs/syscalls.c` with the bytes of its arguments and the saved registers. A call returns
`none` where a copy runs out of the array that it fills, or out of the one that it reads.

The message ring is the one of `Proofs/MessageRing.lean`, with the memory behind its array. Of
`syscall_exec` the file is left out, but for the number of its bytes, and so are the user pages
that are freed; `image` is the user's memory behind `copy_code`, which `Libs/Fork.lean` models.
-/

set_option autoImplicit false

namespace DemoOS

open Support.CString

/-! ### Messages -/

/-- An array with room for a body, whatever is in it. -/
abbrev BodyArray := { b : Buffer // b.length = MAX_MESSAGES_BODY_SIZE }

/-- `send_message` up to its loop: the local variable `message`, with `stack` in its body. -/
def fillMessage (stack : BodyArray) (source destination : BitVec 64) (body : Buffer) :
    Option RawMessage := do
  let body ← strcpy stack.1 body
  return ⟨source, destination, body⟩

namespace PcbMemory

/-- `send_message` with one round of its loop. -/
def sendMessage (s : PcbMemory) (stack : BodyArray) (source destination : BitVec 64)
    (body : Buffer) : Option PcbMemory :=
  (fillMessage stack source destination body).map s.pushMessage

/-- `pop_message`, which copies the body into `message`. The inner `none` is the error return. -/
def popInto (s : PcbMemory) (message : RawMessage) : Option (Option (PcbMemory × RawMessage)) :=
  match pcbMemory.pop s with
  | none => some none
  | some (s, m) => do
      let body ← strcpy message.body m.body
      return some (s, ⟨m.sourceProcess, m.destinationProcess, body⟩)

/-- `receive_message`, one round of its loop and the copy behind it. The local variable
`received_message` has `stack` in its body, and `body` is the array of the user. -/
def receiveMessage (s : PcbMemory) (stack : BodyArray) (body : Buffer) :
    Option (Option (PcbMemory × Buffer)) := do
  match ← s.popInto ⟨0, 0, stack.1⟩ with
  | none => return none
  | some (s, received) =>
      let body ← strcpy body received.body
      return some (s, body)

end PcbMemory

/-! ### `syscall_exec` -/

/-- The user's stack begins below the 16 pages of a process. -/
abbrev STACK_TOP : Nat := 16 * PAGE_SIZE

/-- `trap_frame[i] = value`: the words of a `struct pt_regs`, which ends its page. -/
def PtRegs.store (r : PtRegs) (i : Nat) (value : BitVec 64) : Option PtRegs :=
  if i < 31 then some { r with registers := Function.update r.registers i value }
  else if i = 31 then some { r with sp := value }
  else if i = 32 then some { r with pc := value }
  else if i = 33 then some { r with pstate := value }
  else none

/-- `safe_arguments`, cleared. `memzero` clears eight bytes before it looks at the length, so that
there has to be an argument, and an array has no negative length. -/
def safeArguments (nArguments : Int) : Option (List Buffer) :=
  if 0 < nArguments then
    some (List.replicate nArguments.toNat (memzero SYSCALL_EXEC_ARGUMENT_DIMENSION))
  else none

/-- The loop that fills `safe_arguments`. `arguments` is the user's memory from the next argument
on. -/
def saveArguments : List Buffer → Buffer → Option (List Buffer)
  | [], _ => some []
  | row :: rows, arguments => do
      let row ← strcpy row arguments
      let rows ← saveArguments rows (arguments.drop SYSCALL_EXEC_ARGUMENT_DIMENSION)
      return row :: rows

/-- The loop that copies the arguments from `safe_arguments[i]` on to the user's stack, and their
addresses to the saved registers. -/
def pushArguments (trapFrame : PtRegs) (memory : Buffer) (stackPointer : BitVec 64) (i : Nat) :
    List Buffer → Option (PtRegs × Buffer × BitVec 64)
  | [] => some (trapFrame, memory, stackPointer)
  | row :: rows => do
      let stackPointer := stackPointer - BitVec.ofNat 64 SYSCALL_EXEC_ARGUMENT_DIMENSION
      let memory ← copyString memory stackPointer.toNat row
      let trapFrame ← trapFrame.store (i + 1) stackPointer
      pushArguments trapFrame memory stackPointer (i + 1) rows

/-- The return values -1 and 0, with the saved registers and the user's memory behind a call. -/
inductive ExecResult where
  | failed (trapFrame : PtRegs)
  | loaded (trapFrame : PtRegs) (memory : Buffer)

/-- The 16 pages of the user. -/
abbrev Image := { b : Buffer // b.length = STACK_TOP }

/-- `syscall_exec` of a file with `readBytes` bytes; there are none if it cannot be opened. -/
def syscallExec (readBytes : Option Int) (image : Image) (trapFrame : PtRegs) (nArguments : Int)
    (arguments : Buffer) : Option ExecResult :=
  match readBytes with
  | none => some (.failed trapFrame)
  | some readBytes =>
      if readBytes > PAGE_SIZE * 15 then some (.failed trapFrame)
      else do
        let safe ← safeArguments nArguments
        let safe ← saveArguments safe arguments
        let trapFrame ← trapFrame.store 0 (BitVec.ofInt 64 nArguments)
        let (trapFrame, memory, stackPointer) ←
          pushArguments trapFrame image.1 (BitVec.ofNat 64 STACK_TOP) 0 safe
        let trapFrame ← trapFrame.store 31 stackPointer
        let trapFrame ← trapFrame.store 32 0
        return .loaded trapFrame memory

/-! ### What the copies may do -/

/-- The memory holds a string of fewer than `n` bytes. -/
def Fits (n : Nat) (memory : Buffer) : Prop := ∃ s, Holds memory s ∧ s.length < n

/-- The argument with the index `i`. -/
def argument (arguments : Buffer) (i : Nat) : Buffer :=
  arguments.drop (SYSCALL_EXEC_ARGUMENT_DIMENSION * i)

/-- Behind a call that succeeds, only the registers 0 to `nArguments`, the stack pointer and the
program counter have changed. The arguments are below the top of the stack, each in
`SYSCALL_EXEC_ARGUMENT_DIMENSION` bytes of its own, and below them nothing was written. -/
structure ExecResult.Loads (image : Image) (trapFrame : PtRegs) (nArguments : Int)
    (arguments : Buffer) (trapFrame' : PtRegs) (memory : Buffer) : Prop where
  below : nArguments < 31
  registers : ∀ i : Nat, nArguments < i → trapFrame'.registers i = trapFrame.registers i
  pstate : trapFrame'.pstate = trapFrame.pstate
  argument : ∀ i : Nat, i < nArguments → ∃ s, Holds (DemoOS.argument arguments i) s
    ∧ s.length < SYSCALL_EXEC_ARGUMENT_DIMENSION
    ∧ Holds (memory.drop (STACK_TOP - SYSCALL_EXEC_ARGUMENT_DIMENSION * (i + 1))) s
  rest : memory.take (STACK_TOP - SYSCALL_EXEC_ARGUMENT_DIMENSION * nArguments.toNat)
    = image.1.take (STACK_TOP - SYSCALL_EXEC_ARGUMENT_DIMENSION * nArguments.toNat)

/-- A call that fails leaves the saved registers alone. -/
def ExecResult.Keeps (image : Image) (trapFrame : PtRegs) (nArguments : Int)
    (arguments : Buffer) : ExecResult → Prop
  | .failed trapFrame' => trapFrame' = trapFrame
  | .loaded trapFrame' memory => Loads image trapFrame nArguments arguments trapFrame' memory

/-- The file cannot be opened, or is too long. -/
def ExecFails (readBytes : Option Int) : Prop :=
  ∀ n, readBytes = some n → n > PAGE_SIZE * 15

end DemoOS
