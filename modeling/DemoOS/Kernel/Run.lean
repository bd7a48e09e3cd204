import DemoOS.Libs.Syscalls

/-!
# `DemoOS.Kernel.Run`: runs of atomic kernel steps

A `Trap` is what makes the kernel run: a system call of the current process, the
continuation of one that was switched out, a timer tick or a UART interrupt.
`Kernel.enter` runs the kernel code of a trap up to its return or up to its call
of the scheduler, and `Kernel.step` adds the selection function, which ends with
the context switch. `Reachable alg` is the set of states that such steps reach
from `Kernel.boot` under the algorithm `alg`.

Only a process in user code makes system calls. The init process never does: after
`kernel_main` has created the first process, it spins. The kernel thread's entry
into user mode is the continuation of `kernel_process`.

The page of a new PCB and the memory map of a child come with the trap. The page is
one that no process in the table occupies, as `get_free_page` guarantees
(`Proofs/Memory/`).
-/

set_option autoImplicit false

namespace DemoOS

/-- What makes the kernel run. -/
inductive Trap where
  /-- `kernel_main` creates the first process. -/
  | kernelMain (page : Option Nat)
  | fork (page : Option Nat) (mm : MmStruct)
  | exit
  | wait (pid : Int)
  | yield
  | sendMessage (destinationPid : Int) (body : Body)
  | receiveMessage
  | input (len : Int)
  | sendSignal (destinationPid signalFlag : Int)
  | setSchedParam (pid param value : Int)
  /-- The current process goes on behind the call of the scheduler that switched
  it out. -/
  | resume
  /-- `kernel_process` enters user mode with the memory map that
  `move_to_user_mode` built. -/
  | moveToUserMode (mm : MmStruct) (regs : PtRegs)
  | timerTick
  | uartIrq (mis : BitVec 32) (fifo timeoutFifo : List (BitVec 32))

namespace Kernel

/-- The static initialisers. `timerClo` is the future of the hardware timer. -/
def boot (timerClo : Nat → BitVec 32) : Kernel where
  pcb p := if p = .initProcess then INIT_PROCESS else .zeroed
  currentProcess := .initProcess
  processes i := if i = 0 then some .initProcess else none
  nProcesses := 1
  queues _ := QUEUE_INIT
  queueLevel _ := 0
  mlTicksSinceBoost := 0
  lotteryRngState := 88172645463325252
  timerClo := timerClo
  uartOwner := none
  uartBuffer _ := 0
  uartHead := 0
  uartTail := 0
  ttbr0 := 0
  trace := []

variable (alg : SchedAlgorithm)

/-- No process in the table occupies the page. -/
def PageFresh (k : Kernel) (page : Option Nat) : Prop :=
  ∀ n ∈ page, ∀ i < N_PROCESSES, k.processes i ≠ some (.page n)

instance (k : Kernel) (page : Option Nat) : Decidable (k.PageFresh page) :=
  decidable_of_iff (∀ n ∈ page.toList, ∀ i < N_PROCESSES, k.processes i ≠ some (.page n))
    (by simp [PageFresh])

/-- The current process runs user code. -/
def InUserMode (k : Kernel) : Prop :=
  k.currentProcess ≠ .initProcess ∧ k.current.resume = .user

instance (k : Kernel) : Decidable k.InUserMode :=
  inferInstanceAs (Decidable (_ ∧ _))

/-- The kernel code behind the call of the scheduler that switched the current
process out. -/
def resumeCurrent (k : Kernel) : Option (Kernel × Control) :=
  match k.current.resume with
  | .sendMessage destination body => some (k.sendMessage alg k.currentProcess destination body)
  | .receiveMessage => some (k.receiveMessage alg k.currentProcess)
  | .inputOwner len => some (k.syscallInput len)
  | .inputRead maxLen line => some (k.inputRead maxLen line)
  | .wait pid => some (k.waitReturn pid)
  | _ => none

/-- The kernel code of a trap, up to its end or its call of the scheduler; `none`
when the trap cannot happen in this state. -/
def enter (k : Kernel) : Trap → Option (Kernel × Control)
  | .kernelMain page =>
      if k.currentProcess = .initProcess ∧ k.current.resume = .kernelMain ∧ k.PageFresh page then
        let (k, _) := k.copyProcess alg PF_KTHREAD page .empty
        some (k.suspendAt .idle, .returns)
      else none
  | .fork page mm =>
      if k.InUserMode ∧ k.PageFresh page then some (k.syscallFork alg page mm) else none
  | .exit => if k.InUserMode then some (k.exitProcess alg) else none
  | .wait pid => if k.InUserMode then some (k.syscallWait pid) else none
  | .yield => if k.InUserMode then some k.syscallYield else none
  | .sendMessage pid body =>
      if k.InUserMode then some (k.syscallSendMessage alg pid body) else none
  | .receiveMessage => if k.InUserMode then some (k.syscallReceiveMessage alg) else none
  | .input len => if k.InUserMode then some (k.syscallInput len) else none
  | .sendSignal pid flag => if k.InUserMode then some (k.syscallSendSignal pid flag) else none
  | .setSchedParam pid param value =>
      if k.InUserMode then some (k.syscallSetSchedParam alg pid param value) else none
  | .resume => k.resumeCurrent alg
  | .moveToUserMode mm regs =>
      if k.current.resume = .kernelProcess then
        let k := k.modifyCurrent fun b => { b with mm := mm, regs := regs }
        some ({ k.suspendAt .user with ttbr0 := mm.pgd }, .returns)
      else none
  | .timerTick => k.handleTimerTick alg
  | .uartIrq mis fifo timeoutFifo => some (k.handleUartIrq alg mis fifo timeoutFifo, .returns)

/-- One atomic kernel step: the code of a trap, to its end or to the context
switch. -/
def step (k : Kernel) (t : Trap) : Option Kernel :=
  match k.enter alg t with
  | none => none
  | some (k, .returns) => some k
  | some (k, .schedules) => alg.pickNext k

/-- The state after a list of steps. -/
def run (k : Kernel) : List Trap → Option Kernel
  | [] => some k
  | t :: ts => (k.step alg t).bind fun k => run k ts

/-- The states of runs of atomic kernel steps from boot. -/
inductive Reachable : Kernel → Prop where
  | boot (timerClo : Nat → BitVec 32) : Reachable (Kernel.boot timerClo)
  | step {k k' : Kernel} (t : Trap) : Reachable k → k.step alg t = some k' → Reachable k'

/-- The states in which a selection function starts: between two steps, and where
the code of a trap calls the scheduler. -/
inductive AtPick : Kernel → Prop where
  | reachable {k : Kernel} : Reachable alg k → AtPick k
  | scheduling {k k₁ : Kernel} (t : Trap) : Reachable alg k →
      k.enter alg t = some (k₁, .schedules) → AtPick k₁

end Kernel

end DemoOS
