import Mathlib.Logic.Function.Basic

/-!
# `DemoOS.Libs.SchedulerTypes`: the data of `libs/scheduler.h`

The process control block, the ready queues and the scheduler's global
variables, under the names of the C code in camel case. C constants keep their
spelling.

A `struct PCB*` is a `PcbPtr`: the static `init_process` or the kernel page
that `copy_process` placed the block in. A nullable pointer is an `Option`.
`long` and `int` fields are `Int`, since nothing the scheduler computes depends
on their width; the signal mask and the generator state, where the code works on
bits, are `BitVec`s. `queue_level` and the ring indices never hold a negative
value and are `Nat`.

Two fields have no counterpart in the C structures:

* `PCB.resume` stands for the saved `cpu_context` and kernel stack. A process
  that is not running was switched out inside some call of the scheduler, and
  `ResumePoint` names that call.
* `Kernel.trace` is a history variable. The functions append to it and none of
  them reads it.

Hardware the code reads is part of the state: `Kernel.timerClo n` is the value
that the `n`-th next read of the free-running timer returns.
-/

set_option autoImplicit false

namespace DemoOS

abbrev N_PROCESSES : Nat := 64
abbrev MAX_FILES_PER_PROCESS : Nat := 16
abbrev MAX_PROCESS_PAGES : Nat := 16
abbrev MAX_MESSAGES_PER_PROCESS : Nat := 4
abbrev MAX_MESSAGES_BODY_SIZE : Nat := 256
abbrev UART_BUFFER_SIZE : Nat := 64

abbrev SIGNAL_KILL : Nat := 1
abbrev SIGNAL_STOP : Nat := 2
abbrev SIGNAL_RESUME : Nat := 3

abbrev SCHED_PARAM_PRIORITY : Int := 0
abbrev SCHED_PARAM_TICKETS : Int := 1
abbrev SCHED_PARAM_QUEUE_PRIORITY : Int := 2

abbrev ML_MAX_LEVELS : Nat := 5
abbrev MLFQ_BOOST_PERIOD : Nat := 300

/-- A non-null `struct PCB*`. -/
inductive PcbPtr where
  | initProcess
  | page (n : Nat)
deriving DecidableEq, Repr

/-- `PROCESS_RUNNING` (1) to `PROCESS_READY` (8). `unset` is the 0 that
`INIT_PROCESS` and a zeroed page hold. -/
inductive ProcessState where
  | unset
  | running
  | zombie
  | waitingUartInput
  | waitingToReceiveMessage
  | waitingToSendMessage
  | waitingAnotherProcess
  | stopped
  | ready
deriving DecidableEq, Repr

/-- The four `PROCESS_WAITING_*` states. -/
def ProcessState.isWaiting : ProcessState → Bool
  | .waitingUartInput | .waitingToReceiveMessage
  | .waitingToSendMessage | .waitingAnotherProcess => true
  | _ => false

/-- The text of a message, up to its terminating NUL. -/
abbrev Body := List UInt8

structure Message where
  sourceProcess : PcbPtr
  destinationProcess : PcbPtr
  body : Body
deriving DecidableEq, Repr

/-- A message ring. `buffer i` is the slot the code reaches as `buffer[i]`, each
index with storage of its own. `Proofs/MessageRing.lean` lays the array out with
its declared length in front of the fields that follow it. -/
structure MessagesCircularBuffer where
  head : Nat
  tail : Nat
  buffer : Nat → Message

/-- `RESOURCE_TYPE_FILE` and `RESOURCE_TYPE_FOLDER`. -/
inductive ResourceType where
  | file
  | folder
deriving DecidableEq, Repr

/-- A `FatResource`: the kernel page it lives in, its tag, and the kernel page of
the `File` or `Dir` that its union points to (`none` is the null pointer). -/
structure FatResource where
  page : Nat
  resourceType : ResourceType
  object : Option Nat
deriving DecidableEq, Repr

structure UserPage where
  physicalAddress : Nat
  virtualAddress : Nat
deriving DecidableEq, Repr

/-- `struct mm_struct`. The lists are the used prefixes of the two arrays, so
`n_user_pages` and `n_kernel_pages` are their lengths. -/
structure MmStruct where
  pgd : Nat
  userPages : List UserPage
  kernelPages : List Nat
deriving DecidableEq, Repr

/-- `struct pt_regs`, the trap frame at the end of the PCB page. -/
structure PtRegs where
  registers : Nat → BitVec 64
  sp : BitVec 64
  pc : BitVec 64
  pstate : BitVec 64

/-- Where a process continues when it gets the CPU: the point in the kernel at
which it called the scheduler, with the live variables of that call. -/
inductive ResumePoint where
  /-- `kernel_main`, before its `copy_process`. -/
  | kernelMain
  /-- The `while (1) {}` at the end of `kernel_main`. -/
  | idle
  /-- A new kernel thread, before it enters `kernel_process`. -/
  | kernelProcess
  /-- User code. -/
  | user
  /-- The `do ... while` of `send_message`. -/
  | sendMessage (destinationProcess : PcbPtr) (body : Body)
  /-- The `do ... while` of `receive_message`. -/
  | receiveMessage
  /-- The first loop of `syscall_input`, which waits for the console. -/
  | inputOwner (len : Int)
  /-- The second loop of `syscall_input`: room left for `maxLen` characters, and
  the characters stored so far. -/
  | inputRead (maxLen : Nat) (line : List (BitVec 8))
  /-- The `schedule()` of `syscall_wait`. -/
  | wait (pid : Int)
  /-- The `schedule()` of `exit_process`. -/
  | exited
deriving DecidableEq

structure PCB where
  state : ProcessState
  counter : Int
  priority : Int
  estBurst : Int
  burstTicks : Int
  queuePriority : Int
  tickets : Int
  preemptDisabled : Int
  pid : Nat
  flags : BitVec 64
  files : Nat → Option FatResource
  mm : MmStruct
  messagesBuffer : MessagesCircularBuffer
  pendingSignals : BitVec 32
  pidToWait : Int
  nextReady : Option PcbPtr
  /-- `task_pt_regs(process)`. -/
  regs : PtRegs
  resume : ResumePoint

def MmStruct.empty : MmStruct := ⟨0, [], []⟩

def Message.zeroed : Message := ⟨.initProcess, .initProcess, []⟩

def MessagesCircularBuffer.zeroed : MessagesCircularBuffer := ⟨0, 0, fun _ => .zeroed⟩

def PtRegs.zeroed : PtRegs := ⟨fun _ => 0, 0, 0, 0⟩

/-- `registers[0] = value`. -/
def PtRegs.setRegister0 (r : PtRegs) (value : BitVec 64) : PtRegs :=
  { r with registers := Function.update r.registers 0 value }

/-- A PCB in a page that `get_free_page` has just cleared. -/
def PCB.zeroed : PCB where
  state := .unset
  counter := 0
  priority := 0
  estBurst := 0
  burstTicks := 0
  queuePriority := 0
  tickets := 0
  preemptDisabled := 0
  pid := 0
  flags := 0
  files := fun _ => none
  mm := .empty
  messagesBuffer := .zeroed
  pendingSignals := 0
  pidToWait := 0
  nextReady := none
  regs := .zeroed
  resume := .user

/-- `INIT_PROCESS`. -/
def INIT_PROCESS : PCB :=
  { PCB.zeroed with
    counter := 1
    priority := 1
    tickets := 10
    pidToWait := -1
    resume := .kernelMain }

/-- `pending_signals & (1 << signal)`. -/
def PCB.isPending (b : PCB) (signal : Nat) : Bool :=
  b.pendingSignals &&& (1#32 <<< signal) != 0#32

/-- `pending_signals & ~(1 << signal)`. -/
def PCB.clearSignal (b : PCB) (signal : Nat) : BitVec 32 :=
  b.pendingSignals &&& ~~~(1#32 <<< signal)

/-- The block with another state. -/
def PCB.withState (b : PCB) (s : ProcessState) : PCB := { b with state := s }

/-- The block with another counter. -/
def PCB.withCounter (b : PCB) (c : Int) : PCB := { b with counter := c }

structure ProcessQueue where
  head : Option PcbPtr
  tail : Option PcbPtr
deriving DecidableEq, Repr

def QUEUE_INIT : ProcessQueue := ⟨none, none⟩

/-- The static queues: `ready_queue` and `ml_queues[level]`. -/
inductive QueueId where
  | readyQueue
  | mlQueue (level : Nat)
deriving DecidableEq, Repr

/-- `MultilevelPolicy`. -/
structure MultilevelPolicy where
  nLevels : Nat
  quantum : Nat → Int
  demoteOnExpiry : Bool
  boostPeriod : Nat

/-- What the history variable records. -/
inductive KernelEvent where
  /-- The process was linked into the queue. -/
  | enqueued (queue : QueueId) (process : PcbPtr)
  /-- `switch_to_process` was called on the process. -/
  | dispatched (process : PcbPtr)
  /-- `handle_process_signals` acted on `SIGNAL_KILL`, `SIGNAL_STOP` or
  `SIGNAL_RESUME`. -/
  | killed (process : PcbPtr)
  | stopped (process : PcbPtr)
  | resumed (process : PcbPtr)
  /-- An epoch of priority aging ended while these processes were queued. -/
  | recharged (queued : List PcbPtr)
  /-- A message was stored in its destination's ring. -/
  | pushed (message : Message)
  /-- `receive_message` returned the text to the process. -/
  | received (process : PcbPtr) (body : Body)
  /-- `syscall_wait(pid)` returned 0 to the process. -/
  | waitReturned (process : PcbPtr) (pid : Int)
  /-- `syscall_input` returned the line to the process. -/
  | lineRead (process : PcbPtr) (line : List (BitVec 8))
deriving DecidableEq

/-- The scheduler's variables, the PCBs and the devices the kernel talks to. -/
structure Kernel where
  pcb : PcbPtr → PCB
  currentProcess : PcbPtr
  processes : Nat → Option PcbPtr
  nProcesses : Nat
  queues : QueueId → ProcessQueue
  queueLevel : Nat → Nat
  mlTicksSinceBoost : Nat
  lotteryRngState : BitVec 64
  timerClo : Nat → BitVec 32
  uartOwner : Option PcbPtr
  uartBuffer : Nat → BitVec 8
  uartHead : Nat
  uartTail : Nat
  /-- `ttbr0_el1`, written by `set_pgd`. -/
  ttbr0 : Nat
  trace : List KernelEvent

namespace Kernel

/-- Assignments to fields of the PCB at `p`. -/
def modifyPcb (k : Kernel) (p : PcbPtr) (f : PCB → PCB) : Kernel :=
  { k with pcb := Function.update k.pcb p (f (k.pcb p)) }

/-- Assignments to fields of `current_process`. -/
def modifyCurrent (k : Kernel) (f : PCB → PCB) : Kernel :=
  k.modifyPcb k.currentProcess f

/-- `p->next_ready = x`. -/
def setLink (k : Kernel) (p : PcbPtr) (x : Option PcbPtr) : Kernel :=
  k.modifyPcb p fun b => { b with nextReady := x }

/-- `p->state = s`. -/
def setState (k : Kernel) (p : PcbPtr) (s : ProcessState) : Kernel :=
  k.modifyPcb p fun b => b.withState s

/-- `p->counter = c`. -/
def setCounter (k : Kernel) (p : PcbPtr) (c : Int) : Kernel :=
  k.modifyPcb p fun b => b.withCounter c

/-- The point at which the current process goes on when it gets the CPU. -/
def suspendAt (k : Kernel) (point : ResumePoint) : Kernel :=
  k.modifyCurrent fun b => { b with resume := point }

def setQueue (k : Kernel) (queue : QueueId) (q : ProcessQueue) : Kernel :=
  { k with queues := Function.update k.queues queue q }

def log (k : Kernel) (e : KernelEvent) : Kernel :=
  { k with trace := k.trace ++ [e] }

/-- The block of the process that owns the CPU. -/
def current (k : Kernel) : PCB := k.pcb k.currentProcess

/-- `processes[i] == p` for some slot `i` of the table. -/
def IsProcess (k : Kernel) (p : PcbPtr) : Prop :=
  ∃ i < N_PROCESSES, k.processes i = some p

instance (k : Kernel) (p : PcbPtr) : Decidable (k.IsProcess p) :=
  inferInstanceAs (Decidable (∃ i < N_PROCESSES, k.processes i = some p))

section Lemmas
variable (k : Kernel) (p r : PcbPtr) (f : PCB → PCB) (queue : QueueId) (q : ProcessQueue)
  (e : KernelEvent)

@[simp] theorem modifyPcb_pcb_self : (k.modifyPcb p f).pcb p = f (k.pcb p) := by
  simp [modifyPcb]

theorem modifyPcb_pcb_of_ne {p r : PcbPtr} (h : r ≠ p) :
    (k.modifyPcb p f).pcb r = k.pcb r := by
  simp [modifyPcb, h]

/-- One equation for both cases. -/
theorem modifyPcb_pcb : (k.modifyPcb p f).pcb r = if r = p then f (k.pcb p) else k.pcb r := by
  by_cases h : r = p
  · subst h; simp
  · simp [modifyPcb_pcb_of_ne, h]

@[simp] theorem setQueue_queues_self : (k.setQueue queue q).queues queue = q := by
  simp [setQueue]

theorem setQueue_queues_of_ne {queue queue' : QueueId} (h : queue' ≠ queue) :
    (k.setQueue queue q).queues queue' = k.queues queue' := by
  simp [setQueue, h]

@[simp] theorem log_pcb : (k.log e).pcb = k.pcb := rfl
@[simp] theorem log_queues : (k.log e).queues = k.queues := rfl
@[simp] theorem log_trace : (k.log e).trace = k.trace ++ [e] := rfl
@[simp] theorem modifyPcb_queues : (k.modifyPcb p f).queues = k.queues := rfl
@[simp] theorem modifyPcb_trace : (k.modifyPcb p f).trace = k.trace := rfl
@[simp] theorem setLink_queues (x : Option PcbPtr) : (k.setLink p x).queues = k.queues := rfl
@[simp] theorem setLink_trace (x : Option PcbPtr) : (k.setLink p x).trace = k.trace := rfl
@[simp] theorem setState_queues (s : ProcessState) : (k.setState p s).queues = k.queues := rfl
@[simp] theorem setState_trace (s : ProcessState) : (k.setState p s).trace = k.trace := rfl
@[simp] theorem setQueue_pcb : (k.setQueue queue q).pcb = k.pcb := rfl
@[simp] theorem setQueue_trace : (k.setQueue queue q).trace = k.trace := rfl

end Lemmas

end Kernel

end DemoOS
