import DemoOS.Kernel.Run

/-!
# `DemoOS.Kernel.TableScans`: the scans of `processes[]` with their null tests

Five loops of the kernel visit the slots of the process table: in `exit_process`,
`receive_message`, `handle_uart_irq`, `search_process` and the recharge of
`_schedule_priority_aging`. They differ in the slots they visit and in whether they test a slot
before they dereference it, and the functions of `Libs/` pass over an empty slot in each of
them. Here the same functions are written with the test of the source: `none` is the
dereference of a null pointer, whose outcome the source does not define.
-/

set_option autoImplicit false

namespace DemoOS

namespace Kernel

variable (alg : SchedAlgorithm)

/-- A loop over slots of `processes[]` with the given body. `skipsEmpty` says whether it tests a
slot before it dereferences it. -/
def scanTable (skipsEmpty : Bool) (body : Kernel → PcbPtr → Kernel) (slots : List Nat)
    (k : Kernel) : Option Kernel :=
  slots.foldlM
    (fun k i =>
      match k.processes i with
      | none => if skipsEmpty then some k else none
      | some p => some (body k p))
    k

/-- The body of the three wake-up loops. -/
def wakeBody (waits : PCB → Bool) (wake : PCB → PCB) (k : Kernel) (p : PcbPtr) : Kernel :=
  if waits (k.pcb p) then ((k.modifyPcb p wake).setState p .ready).enqueueProcess alg p else k

/-- `exit_process`. Its loop has `if (!processes[i]) continue;`. -/
def exitProcessChecked (k : Kernel) : Option (Kernel × Control) := do
  let k := k.preemptDisable
  let k := k.setState k.currentProcess .zombie
  let pid : Int := k.current.pid
  let k ← k.scanTable true
    (wakeBody alg (fun b => b.state = .waitingAnotherProcess ∧ b.pidToWait = pid)
      (fun b => { b with pidToWait := -1 })) (List.range N_PROCESSES)
  let k := k.preemptEnable
  return (k.suspendAt .exited).schedule

/-- `receive_message`. Its loop reads `processes[i]->state` of each of the `N_PROCESSES`
slots. -/
def receiveMessageChecked (k : Kernel) (destinationProcess : PcbPtr) :
    Option (Kernel × Control) :=
  match k.popMessage destinationProcess with
  | some (k, message) => do
      let k := k.log (.received destinationProcess message.body)
      let k ← k.scanTable false (wakeBody alg (fun b => b.state = .waitingToSendMessage) id)
        (List.range N_PROCESSES)
      return (k.suspendAt .user, .returns)
  | none =>
      let k := k.setState k.currentProcess .waitingToReceiveMessage
      return (k.suspendAt .receiveMessage).schedule

/-- One word of the receive loop of `handle_uart_irq`, which reads `processes[i]->state` of the
first `n_processes` slots. -/
def receiveWordChecked (k : Kernel) (dr : BitVec 32) : Option Kernel :=
  let err := (dr >>> 8) &&& 0xF#32
  if err ≠ 0 then some k
  else
    let c := dr.setWidth 8
    let nextHead := (k.uartHead + 1) % UART_BUFFER_SIZE
    let k :=
      if nextHead ≠ k.uartTail then
        { k with
          uartBuffer := Function.update k.uartBuffer k.uartHead c
          uartHead := nextHead }
      else k
    k.scanTable false (wakeBody alg (fun b => b.state = .waitingUartInput) id)
      (List.range k.nProcesses)

/-- `handle_uart_irq`. -/
def handleUartIrqChecked (k : Kernel) (mis : BitVec 32) (fifo timeoutFifo : List (BitVec 32)) :
    Option Kernel := do
  let k ← if mis &&& (1#32 <<< 4) ≠ 0 then fifo.foldlM (receiveWordChecked alg) k else some k
  return if mis &&& (1#32 <<< 6) ≠ 0 then timeoutFifo.foldl timeoutWord k else k

/-- The loop of `search_process` over the given slots, with
`processes[i] != NULL && processes[i]->pid == pid`. -/
def searchSlots (k : Kernel) (pid : Int) : List Nat → Option (Option PcbPtr)
  | [] => some none
  | i :: slots =>
      match k.processes i with
      | none => k.searchSlots pid slots
      | some p => if ((k.pcb p).pid : Int) = pid then some (some p) else k.searchSlots pid slots

/-- `search_process`. -/
def searchProcessChecked (k : Kernel) (pid : Int) : Option (Option PcbPtr) :=
  k.searchSlots pid (List.range N_PROCESSES)

/-- The recharge of `_schedule_priority_aging`, with its `if (processes[i])`. -/
def rechargeAllChecked (k : Kernel) : Option Kernel :=
  (k.log (.recharged (k.linkedIn .readyQueue))).scanTable true
    (fun k p => k.setCounter p (((k.pcb p).counter >>> (1 : Nat)) + (k.pcb p).priority))
    (List.range N_PROCESSES)

/-- The process table is a dense array indexed by pids, and every scan of it follows no null
pointer. -/
structure TableSafe (k : Kernel) : Prop where
  occupied : ∀ i, k.processes i ≠ none ↔ i < k.nProcesses
  pid : ∀ i p, k.processes i = some p → (k.pcb p).pid = i
  search : ∀ pid p, k.searchProcess pid = some p ↔ k.IsProcess p ∧ ((k.pcb p).pid : Int) = pid
  searchScan : ∀ pid, k.searchProcessChecked pid = some (k.searchProcess pid)
  exitScan : k.exitProcessChecked alg = some (k.exitProcess alg)
  uartScan : ∀ mis fifo timeoutFifo,
    k.handleUartIrqChecked alg mis fifo timeoutFifo
      = some (k.handleUartIrq alg mis fifo timeoutFifo)
  rechargeScan : k.rechargeAllChecked = some k.rechargeAll
  receiveScan : k.receiveMessageChecked alg k.currentProcess
    = some (k.receiveMessage alg k.currentProcess)

end Kernel

end DemoOS
