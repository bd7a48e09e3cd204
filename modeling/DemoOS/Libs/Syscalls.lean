import DemoOS.Libs.Ipc
import DemoOS.Libs.Fork
import DemoOS.Drivers.Uart

/-!
# `DemoOS.Libs.Syscalls`: the system calls of `libs/syscalls.c` that concern processes

Each system call is followed to its return to user code or to the call of the
scheduler, whichever comes first. In the second case the caller's `ResumePoint`
says which of the functions below goes on when the process is dispatched.
-/

set_option autoImplicit false

namespace DemoOS

namespace Kernel

variable (alg : SchedAlgorithm)

/-- `search_process`. -/
def searchProcess (k : Kernel) (pid : Int) : Option PcbPtr :=
  (List.range N_PROCESSES).findSome? fun i =>
    match k.processes i with
    | some p => if ((k.pcb p).pid : Int) = pid then some p else none
    | none => none

/-- `syscall_yield`. -/
def syscallYield (k : Kernel) : Kernel × Control :=
  (k.setCounter k.currentProcess 0).schedule

/-- The inner loop of `syscall_input`, over the unread characters. The result is
the line so far and whether a line terminator was found. -/
def readUart (maxLen : Nat) : Nat → Kernel → List (BitVec 8) →
    Kernel × List (BitVec 8) × Bool
  | 0, k, line => (k, line, false)
  | fuel + 1, k, line =>
      if k.uartTail = k.uartHead then (k, line, false)
      else
        let c := k.uartBuffer k.uartTail
        let k := { k with uartTail := (k.uartTail + 1) % UART_BUFFER_SIZE }
        if c = 13 ∨ c = 10 then (k, line, true)
        else if c = 0x7F then readUart maxLen fuel k line.dropLast
        else if line.length < maxLen then readUart maxLen fuel k (line ++ [c])
        else readUart maxLen fuel k line

/-- The `while (1)` of `syscall_input`, with `line` in the user's buffer. -/
def inputRead (k : Kernel) (maxLen : Nat) (line : List (BitVec 8)) : Kernel × Control :=
  let (k, line, done) := readUart maxLen UART_BUFFER_SIZE k line
  if done then
    let k := { k with uartOwner := none }
    let k := k.log (.lineRead k.currentProcess line)
    k.returnToUser line.length
  else
    let k := k.setState k.currentProcess .waitingUartInput
    (k.suspendAt (.inputRead maxLen line)).schedule

/-- `syscall_input`, from its first loop on. -/
def syscallInput (k : Kernel) (len : Int) : Kernel × Control :=
  if k.uartOwner ≠ none ∧ k.uartOwner ≠ some k.currentProcess then
    (k.suspendAt (.inputOwner len)).schedule
  else
    let k := { k with uartOwner := some k.currentProcess }
    k.inputRead (if len > 0 then (len - 1).toNat else 0) []

/-- `syscall_send_message`. -/
def syscallSendMessage (k : Kernel) (destinationPid : Int) (body : Body) : Kernel × Control :=
  match k.searchProcess destinationPid with
  | none => k.returnToUser (-1)
  | some destination => k.sendMessage alg k.currentProcess destination body

/-- `syscall_receive_message`. -/
def syscallReceiveMessage (k : Kernel) : Kernel × Control :=
  k.receiveMessage alg k.currentProcess

/-- `syscall_send_signal`. -/
def syscallSendSignal (k : Kernel) (destinationPid signalFlag : Int) : Kernel × Control :=
  match k.searchProcess destinationPid with
  | none => k.returnToUser (-1)
  | some destination => (k.sendSignal destination signalFlag).returnToUser 0

/-- `syscall_wait`, up to its `schedule()`. -/
def syscallWait (k : Kernel) (pid : Int) : Kernel × Control :=
  match k.searchProcess pid with
  | none => k.returnToUser (-1)
  | some destination =>
      if (k.pcb destination).state = .zombie then
        (k.log (.waitReturned k.currentProcess pid)).returnToUser 0
      else
        let k := k.setState k.currentProcess .waitingAnotherProcess
        let k := k.modifyCurrent fun b => { b with pidToWait := pid }
        (k.suspendAt (.wait pid)).schedule

/-- The `return 0` behind the `schedule()` of `syscall_wait`. -/
def waitReturn (k : Kernel) (pid : Int) : Kernel × Control :=
  (k.log (.waitReturned k.currentProcess pid)).returnToUser 0

/-- `syscall_set_sched_param`. -/
def syscallSetSchedParam (k : Kernel) (pid param value : Int) : Kernel × Control :=
  match k.searchProcess pid with
  | none => k.returnToUser (-1)
  | some destination =>
      let (k, result) := k.schedSetParam alg destination param value
      k.returnToUser result

/-- `syscall_fork`. -/
def syscallFork (k : Kernel) (page : Option Nat) (mm : MmStruct) : Kernel × Control :=
  let (k, pid) := k.copyProcess alg 0 page mm
  k.returnToUser pid

end Kernel

end DemoOS
