import DemoOS.Libs.SchedulerTypes
import Mathlib.Algebra.GroupWithZero.Nat

/-!
# `DemoOS.Libs.Scheduler`: `libs/scheduler.c`

The queue operations, the insertion policies, the signal handler, the five
selection functions, the tick handler and the process-exit path, one definition
per C function and in the order of the file.

`_schedule()` is the last thing that any code path does before the CPU changes
hands, and what follows it in the C text runs when the process is dispatched
again. A function that ends by calling the scheduler therefore returns
`Control.schedules` instead of calling it, and `Kernel.step` (`Kernel/Run.lean`)
then runs the selection function of the active algorithm. The code behind the
call is the process's `ResumePoint`.

Loops over pointers take fuel, and a selection function answers `none` when a
loop outlives it or when the code would follow a null pointer.
`Proofs/Scheduler/` proves that neither happens in a reachable state.
-/

set_option autoImplicit false

namespace DemoOS

/-- The seven descriptors that `active_algorithm` can point to. -/
inductive SchedAlgorithm where
  | roundRobin
  | fcfs
  | sjf
  | lottery
  | priorityAging
  | mlq
  | mlfq
deriving DecidableEq, Repr

/-- How a piece of kernel code ends: back in the code that was running, or in
`_schedule()`. -/
inductive Control where
  | returns
  | schedules
deriving DecidableEq, Repr

def mlPolicyMlq : MultilevelPolicy where
  nLevels := 5
  quantum
    | 0 => 10
    | 1 => 12
    | 2 => 14
    | 3 => 16
    | _ => 20
  demoteOnExpiry := false
  boostPeriod := 0

def mlPolicyMlfq : MultilevelPolicy where
  nLevels := 5
  quantum
    | 0 => 5
    | 1 => 8
    | 2 => 10
    | 3 => 15
    | _ => 20
  demoteOnExpiry := true
  boostPeriod := MLFQ_BOOST_PERIOD

namespace SchedAlgorithm

/-- `active_algorithm->ml_policy`. -/
def mlPolicy : SchedAlgorithm → Option MultilevelPolicy
  | .mlq => some mlPolicyMlq
  | .mlfq => some mlPolicyMlfq
  | _ => none

/-- `active_algorithm->is_preemptive`. -/
def isPreemptive : SchedAlgorithm → Bool
  | .fcfs | .sjf => false
  | _ => true

end SchedAlgorithm

namespace Kernel

/-! ### Queue operations -/

/-- `enqueue_process_to`. -/
def enqueueProcessTo (k : Kernel) (queue : QueueId) (process : PcbPtr) : Kernel :=
  if process = .initProcess then k
  else
    let k := (k.setLink process none).setState process .ready
    let k := k.log (.enqueued queue process)
    let q := k.queues queue
    match q.tail with
    | none => k.setQueue queue ⟨some process, some process⟩
    | some t => (k.setLink t (some process)).setQueue queue ⟨q.head, some process⟩

/-- `dequeue_process_from`. -/
def dequeueProcessFrom (k : Kernel) (queue : QueueId) : Kernel × Option PcbPtr :=
  let q := k.queues queue
  match q.head with
  | none => (k, none)
  | some process =>
      let next := (k.pcb process).nextReady
      let k := k.setQueue queue ⟨next, if next = none then none else q.tail⟩
      (k.setLink process none, some process)

/-- `remove_process_from`. -/
def removeProcessFrom (k : Kernel) (queue : QueueId) (previous : Option PcbPtr)
    (process : PcbPtr) : Kernel :=
  let next := (k.pcb process).nextReady
  let k := match previous with
    | none => k.setQueue queue ⟨next, (k.queues queue).tail⟩
    | some p => k.setLink p next
  let q := k.queues queue
  let k := k.setQueue queue ⟨q.head, if q.tail = some process then previous else q.tail⟩
  k.setLink process none

/-- The `while` loop of `enqueue_sorted_to`: the node behind which a process with
the estimate `estBurst` is linked, starting from `current`. -/
def sortedPosition (k : Kernel) (estBurst : Int) : Nat → PcbPtr → PcbPtr
  | 0, current => current
  | fuel + 1, current =>
      match (k.pcb current).nextReady with
      | none => current
      | some next =>
          if estBurst < (k.pcb next).estBurst then current
          else k.sortedPosition estBurst fuel next

/-- `enqueue_sorted_to`. -/
def enqueueSortedTo (k : Kernel) (queue : QueueId) (process : PcbPtr) : Kernel :=
  if process = .initProcess then k
  else
    let k := (k.setLink process none).setState process .ready
    let k := k.log (.enqueued queue process)
    let q := k.queues queue
    match q.head with
    | none => k.setQueue queue ⟨some process, some process⟩
    | some head =>
        let estBurst := (k.pcb process).estBurst
        if estBurst < (k.pcb head).estBurst then
          (k.setLink process (some head)).setQueue queue ⟨some process, q.tail⟩
        else
          let current := k.sortedPosition estBurst N_PROCESSES head
          let next := (k.pcb current).nextReady
          let k := (k.setLink process next).setLink current (some process)
          k.setQueue queue ⟨q.head, if next = none then some process else q.tail⟩

/-- The nodes that `for (p = head; p != NULL; p = p->next_ready)` visits. -/
def walk (k : Kernel) : Nat → Option PcbPtr → Option (List PcbPtr)
  | _, none => some []
  | 0, some _ => none
  | fuel + 1, some p => (k.walk fuel (k.pcb p).nextReady).map (p :: ·)

/-- The processes linked in a queue, from `head` along `next_ready`. -/
def linkedIn (k : Kernel) (queue : QueueId) : List PcbPtr :=
  (k.walk N_PROCESSES (k.queues queue).head).getD []

/-! ### Insertion policies -/

/-- `_enqueue_fifo`. -/
def enqueueFifo (k : Kernel) (process : PcbPtr) : Kernel :=
  k.enqueueProcessTo .readyQueue process

/-- `_enqueue_sjf`. -/
def enqueueSjf (k : Kernel) (process : PcbPtr) : Kernel :=
  k.enqueueSortedTo .readyQueue process

/-- `_enqueue_multilevel`. -/
def enqueueMultilevel (k : Kernel) (process : PcbPtr) : Kernel :=
  k.enqueueProcessTo (.mlQueue (k.queueLevel (k.pcb process).pid)) process

end Kernel

/-- `active_algorithm->enqueue(process)`. -/
def SchedAlgorithm.enqueue : SchedAlgorithm → Kernel → PcbPtr → Kernel
  | .roundRobin | .fcfs | .lottery | .priorityAging => Kernel.enqueueFifo
  | .sjf => Kernel.enqueueSjf
  | .mlq | .mlfq => Kernel.enqueueMultilevel

namespace Kernel

variable (alg : SchedAlgorithm)

/-- `enqueue_process`. -/
def enqueueProcess (k : Kernel) (process : PcbPtr) : Kernel :=
  if process = .initProcess then k else alg.enqueue k process

/-! ### Registration and parameters -/

/-- The starting level of `add_process_to_scheduler`: `queue_priority` clamped to
the existing queues and to the levels of the active policy. -/
def startLevel (queuePriority : Int) : Nat :=
  let start := if queuePriority < 0 then 0 else queuePriority.toNat
  let start := if start ≥ ML_MAX_LEVELS then ML_MAX_LEVELS - 1 else start
  match alg.mlPolicy with
  | some policy => if start ≥ policy.nLevels then policy.nLevels - 1 else start
  | none => start

/-- `add_process_to_scheduler`; `none` is the error return. -/
def addProcessToScheduler (k : Kernel) (process : PcbPtr) : Option Kernel :=
  let pid := (k.pcb process).pid
  if k.nProcesses ≥ N_PROCESSES ∨ pid ≥ N_PROCESSES then none
  else
    let k := { k with processes := Function.update k.processes pid (some process) }
    let level := startLevel alg (k.pcb process).queuePriority
    let k := { k with queueLevel := Function.update k.queueLevel pid level }
    let k := if (k.pcb process).state = .ready then k.enqueueProcess alg process else k
    some { k with nProcesses := k.nProcesses + 1 }

/-- `preempt_enable`. -/
def preemptEnable (k : Kernel) : Kernel :=
  k.modifyCurrent fun b => { b with preemptDisabled := b.preemptDisabled - 1 }

/-- `preempt_disable`. -/
def preemptDisable (k : Kernel) : Kernel :=
  k.modifyCurrent fun b => { b with preemptDisabled := b.preemptDisabled + 1 }

/-- `sched_set_param`. -/
def schedSetParam (k : Kernel) (process : PcbPtr) (param value : Int) : Kernel × Int :=
  if process = .initProcess then (k, -1)
  else if param = SCHED_PARAM_PRIORITY then
    if value < 1 then (k, -1)
    else (k.modifyPcb process fun b => { b with priority := value }, 0)
  else if param = SCHED_PARAM_TICKETS then
    if value < 1 then (k, -1)
    else (k.modifyPcb process fun b => { b with tickets := value }, 0)
  else if param = SCHED_PARAM_QUEUE_PRIORITY then
    if value < 0 ∨ value ≥ (ML_MAX_LEVELS : Int) then (k, -1)
    else
      let value := match alg.mlPolicy with
        | some policy => if value ≥ (policy.nLevels : Int) then (policy.nLevels : Int) - 1 else value
        | none => value
      let k := k.preemptDisable
      let k := k.modifyPcb process fun b => { b with queuePriority := value }
      let pid := (k.pcb process).pid
      let k := { k with queueLevel := Function.update k.queueLevel pid value.toNat }
      (k.preemptEnable, 0)
  else (k, -1)

/-! ### Signals and context switch -/

/-- `handle_process_signals`. One signal per call, in the order kill, stop,
resume. -/
def handleProcessSignals (k : Kernel) (process : PcbPtr) : Kernel :=
  let b := k.pcb process
  if b.pendingSignals = 0 then k
  else if b.isPending SIGNAL_KILL then
    let k := k.modifyPcb process fun b =>
      { b with state := .zombie, pendingSignals := b.clearSignal SIGNAL_KILL }
    k.log (.killed process)
  else if b.isPending SIGNAL_STOP then
    let k := k.modifyPcb process fun b =>
      { b with state := .stopped, pendingSignals := b.clearSignal SIGNAL_STOP }
    k.log (.stopped process)
  else if b.isPending SIGNAL_RESUME then
    let k := k.modifyPcb process fun b => { b with pendingSignals := b.clearSignal SIGNAL_RESUME }
    if (k.pcb process).state = .stopped then
      ((k.setState process .ready).log (.resumed process)).enqueueProcess alg process
    else k
  else k

/-- `switch_to_process`. The registers and the stack that
`cpu_switch_to_process` exchanges are the two processes' resume points. -/
def switchToProcess (k : Kernel) (nextProcess : PcbPtr) : Kernel :=
  let k := (k.setState nextProcess .running).log (.dispatched nextProcess)
  if k.currentProcess = nextProcess then k
  else
    let previous := k.currentProcess
    let k := if (k.pcb previous).state = .running then k.setState previous .ready else k
    { k with currentProcess := nextProcess, ttbr0 := (k.pcb nextProcess).mm.pgd }

/-! ### The selection functions -/

/-- The opening of every selection function: preemption off, and the outgoing
process back in the ready structure if it is still runnable. -/
def requeueOutgoing (insert : Kernel → PcbPtr → Kernel) (k : Kernel) : Kernel :=
  let k := k.preemptDisable
  if k.currentProcess ≠ .initProcess ∧ k.current.state = .running then
    insert k k.currentProcess
  else k

/-- The closing of every selection function: the switch, falling back to init,
and preemption back on. `preempt_enable` runs on behalf of the process that has
the CPU after the switch. For a process that was never dispatched before it is
the one in `schedule_tail`. -/
def dispatch (k : Kernel) (nextProcess : Option PcbPtr) : Kernel :=
  (k.switchToProcess (nextProcess.getD .initProcess)).preemptEnable

/-- The recharge loop that ends an epoch. -/
def rechargeAll (k : Kernel) : Kernel :=
  (List.range N_PROCESSES).foldl
    (fun k i =>
      match k.processes i with
      | none => k
      | some p => k.setCounter p (((k.pcb p).counter >>> (1 : Nat)) + (k.pcb p).priority))
    (k.log (.recharged (k.linkedIn .readyQueue)))

/-- One walk of the ready queue by `_schedule_priority_aging`, from `node` on. The
result is the best candidate and its predecessor. -/
def agingWalk : Nat → Kernel → (node previous best bestPrevious : Option PcbPtr) → Int →
    Option (Kernel × Option PcbPtr × Option PcbPtr)
  | _, k, none, _, best, bestPrevious, _ => some (k, best, bestPrevious)
  | 0, _, some _, _, _, _, _ => none
  | fuel + 1, k, some node, previous, best, bestPrevious, maxCounter =>
      let nextNode := (k.pcb node).nextReady
      let k := k.handleProcessSignals alg node
      if (k.pcb node).state ≠ .ready then
        agingWalk fuel (k.removeProcessFrom .readyQueue previous node) nextNode previous
          best bestPrevious maxCounter
      else if (k.pcb node).counter > maxCounter then
        agingWalk fuel k nextNode (some node) (some node) previous (k.pcb node).counter
      else
        agingWalk fuel k nextNode (some node) best bestPrevious maxCounter

/-- The `while (1)` of `_schedule_priority_aging`. -/
def agingLoop : Nat → Kernel → Option (Kernel × Option PcbPtr)
  | 0, _ => none
  | fuel + 1, k => do
      let (k, best, bestPrevious) ←
        agingWalk alg N_PROCESSES k (k.queues .readyQueue).head none none none 0
      match best with
      | some process => some (k.removeProcessFrom .readyQueue bestPrevious process, some process)
      | none =>
          if (k.queues .readyQueue).head = none then some (k, none)
          else agingLoop fuel k.rechargeAll

/-- Enough rounds for the epoch loop: no queued counter can stay below 1 for
longer. -/
def agingFuel (k : Kernel) : Nat :=
  ((k.linkedIn .readyQueue).map fun p => (k.pcb p).counter.natAbs).sum + 3

/-- `_schedule_priority_aging`. -/
def schedulePriorityAging (k : Kernel) : Option Kernel := do
  let k := k.requeueOutgoing fun k p => k.enqueueProcessTo .readyQueue p
  let (k, nextProcess) ← agingLoop alg k.agingFuel k
  return k.dispatch nextProcess

/-- `while ((next = dequeue_process_from(queue)) != NULL)`: dequeue until a process
is still ready once its signals are handled. -/
def dequeueUntilReady (queue : QueueId) : Nat → Kernel → Option (Kernel × Option PcbPtr)
  | 0, _ => none
  | fuel + 1, k =>
      match k.dequeueProcessFrom queue with
      | (k, none) => some (k, none)
      | (k, some process) =>
          let k := k.handleProcessSignals alg process
          if (k.pcb process).state = .ready then some (k, some process)
          else dequeueUntilReady queue fuel k

/-- `next_process->counter = quantum`, unless no process was found. -/
def setQuantum (k : Kernel) (nextProcess : Option PcbPtr) (quantum : Int) : Kernel :=
  match nextProcess with
  | none => k
  | some p => k.setCounter p quantum

/-- `_schedule_round_robin`. -/
def scheduleRoundRobin (k : Kernel) : Option Kernel := do
  let k := k.requeueOutgoing fun k p => k.enqueueProcessTo .readyQueue p
  let (k, nextProcess) ← dequeueUntilReady alg .readyQueue (N_PROCESSES + 1) k
  return (k.setQuantum nextProcess 10).dispatch nextProcess

/-- The three shift-xor rounds of `lottery_random`. -/
def xorshift64 (s : BitVec 64) : BitVec 64 :=
  let s := s ^^^ (s <<< 13)
  let s := s ^^^ (s >>> 7)
  s ^^^ (s <<< 17)

/-- `lottery_random`, which reads the timer once. -/
def lotteryRandom (k : Kernel) : Kernel × BitVec 64 :=
  let s := k.lotteryRngState ^^^ (k.timerClo 0).setWidth 64
  let s := if s = 0 then 88172645463325252#64 else s
  let s := xorshift64 s
  ({ k with lotteryRngState := s, timerClo := fun n => k.timerClo (n + 1) }, s)

/-- `p->tickets > 0 ? p->tickets : 1`. -/
def effectiveTickets (k : Kernel) (p : PcbPtr) : Int :=
  if (k.pcb p).tickets > 0 then (k.pcb p).tickets else 1

/-- The winner search of `_schedule_lottery` over the nodes still to visit: the
predecessor and the first node at which the running count passes `winner`. -/
def drawWinner (k : Kernel) (winner : Int) :
    List PcbPtr → Option PcbPtr → Int → Option (Option PcbPtr × PcbPtr)
  | [], _, _ => none
  | candidate :: rest, previous, ticketCounter =>
      let ticketCounter := ticketCounter + k.effectiveTickets candidate
      if ticketCounter > winner then some (previous, candidate)
      else k.drawWinner winner rest (some candidate) ticketCounter

/-- The `while (next_process == NULL)` of `_schedule_lottery`. -/
def lotteryLoop : Nat → Kernel → Option (Kernel × Option PcbPtr)
  | 0, _ => none
  | fuel + 1, k => do
      let nodes ← k.walk N_PROCESSES (k.queues .readyQueue).head
      let totalTickets := nodes.foldl (fun total p => total + k.effectiveTickets p) 0
      if totalTickets = 0 then some (k, none)
      else
        let (k, random) := k.lotteryRandom
        let winner : Int := random.toNat % totalTickets.toNat
        let (previous, candidate) ← k.drawWinner winner nodes none 0
        let k := k.removeProcessFrom .readyQueue previous candidate
        let k := k.handleProcessSignals alg candidate
        if (k.pcb candidate).state = .ready then some (k, some candidate)
        else lotteryLoop fuel k

/-- `_schedule_lottery`. -/
def scheduleLottery (k : Kernel) : Option Kernel := do
  let k := k.requeueOutgoing fun k p => k.enqueueProcessTo .readyQueue p
  let (k, nextProcess) ← lotteryLoop alg (N_PROCESSES + 1) k
  return (k.setQuantum nextProcess 10).dispatch nextProcess

/-- `_schedule_queue_head`. -/
def scheduleQueueHead (k : Kernel) : Option Kernel := do
  let k := k.requeueOutgoing alg.enqueue
  let (k, nextProcess) ← dequeueUntilReady alg .readyQueue (N_PROCESSES + 1) k
  return k.dispatch nextProcess

/-- The cascade of `_schedule_multilevel` over the levels still to scan. The
result is the process and the level it came from. -/
def cascade : List Nat → Kernel → Option (Kernel × Option (PcbPtr × Nat))
  | [], k => some (k, none)
  | q :: levels, k => do
      let (k, nextProcess) ← dequeueUntilReady alg (.mlQueue q) (N_PROCESSES + 1) k
      match nextProcess with
      | some process => some (k, some (process, q))
      | none => cascade levels k

/-- `_schedule_multilevel`. -/
def scheduleMultilevel (k : Kernel) : Option Kernel := do
  let policy ← alg.mlPolicy
  let k := k.requeueOutgoing fun k p => k.enqueueMultilevel p
  let (k, found) ← cascade alg (List.range policy.nLevels) k
  match found with
  | none => return k.dispatch none
  | some (process, targetLevel) =>
      return (k.setQuantum (some process) (policy.quantum targetLevel)).dispatch (some process)

/-! ### The multilevel tick -/

/-- One lower queue of the boost: dequeue until empty, into `ml_queues[0]`. -/
def boostQueue (q : Nat) : Nat → Kernel → Option Kernel
  | 0, _ => none
  | fuel + 1, k =>
      match k.dequeueProcessFrom (.mlQueue q) with
      | (k, none) => some k
      | (k, some p) =>
          let pid := (k.pcb p).pid
          let k := { k with queueLevel := Function.update k.queueLevel pid 0 }
          boostQueue q fuel (k.enqueueProcessTo (.mlQueue 0) p)

/-- The boost of `_multilevel_on_tick`. -/
def boost (policy : MultilevelPolicy) (k : Kernel) : Option Kernel := do
  let k := { k with mlTicksSinceBoost := k.mlTicksSinceBoost + 1 }
  if k.mlTicksSinceBoost ≥ policy.boostPeriod then
    let k ← (List.range' 1 (policy.nLevels - 1)).foldlM
      (fun k q => boostQueue q (N_PROCESSES + 1) k) k
    return { k with
      queueLevel := fun i => if i < N_PROCESSES then 0 else k.queueLevel i
      mlTicksSinceBoost := 0 }
  else return k

/-- The demotion of `_multilevel_on_tick`. -/
def demote (policy : MultilevelPolicy) (k : Kernel) : Kernel :=
  let pid := k.current.pid
  if policy.demoteOnExpiry ∧ k.currentProcess ≠ .initProcess ∧ k.current.counter ≤ 0
      ∧ k.current.preemptDisabled = 0 ∧ k.queueLevel pid < policy.nLevels - 1 then
    { k with queueLevel := Function.update k.queueLevel pid (k.queueLevel pid + 1) }
  else k

/-- `_multilevel_on_tick`. -/
def multilevelOnTick (k : Kernel) : Option Kernel := do
  let policy ← alg.mlPolicy
  let k ← if policy.boostPeriod > 0 then boost policy k else some k
  return demote policy k

end Kernel

namespace SchedAlgorithm

/-- `active_algorithm->pick_next()`, which is `_schedule()`. -/
def pickNext : SchedAlgorithm → Kernel → Option Kernel
  | .roundRobin => Kernel.scheduleRoundRobin .roundRobin
  | .fcfs => Kernel.scheduleQueueHead .fcfs
  | .sjf => Kernel.scheduleQueueHead .sjf
  | .lottery => Kernel.scheduleLottery .lottery
  | .priorityAging => Kernel.schedulePriorityAging .priorityAging
  | .mlq => Kernel.scheduleMultilevel .mlq
  | .mlfq => Kernel.scheduleMultilevel .mlfq

/-- `if (active_algorithm->on_tick) active_algorithm->on_tick()`. -/
def onTick : SchedAlgorithm → Kernel → Option Kernel
  | .mlq => Kernel.multilevelOnTick .mlq
  | .mlfq => Kernel.multilevelOnTick .mlfq
  | _ => some

end SchedAlgorithm

namespace Kernel

variable (alg : SchedAlgorithm)

/-! ### The dispatcher's callers -/

/-- `schedule`, up to its call of `_schedule()`. -/
def schedule (k : Kernel) : Kernel × Control :=
  let k :=
    if k.currentProcess ≠ .initProcess ∧ k.current.state ≠ .running
        ∧ k.current.state ≠ .ready then
      k.modifyCurrent fun b =>
        { b with estBurst := (b.burstTicks + b.estBurst).tdiv 2, burstTicks := 0 }
    else k
  (k.setCounter k.currentProcess 0, .schedules)

/-- `handle_timer_tick`. -/
def handleTimerTick (k : Kernel) : Option (Kernel × Control) := do
  let k := k.setCounter k.currentProcess (k.current.counter - 1)
  let k := k.modifyCurrent fun b => { b with burstTicks := b.burstTicks + 1 }
  let k ← alg.onTick k
  if k.current.counter > 0 ∨ k.current.preemptDisabled > 0 then return (k, .returns)
  else
    let k := k.setCounter k.currentProcess 0
    return (k, if alg.isPreemptive then .schedules else .returns)

/-- The wake-up loops of `exit_process`, `receive_message` and
`handle_uart_irq`: over the given slots of `processes[]`, every process that
`waits` becomes ready and is enqueued. `wake` is what the loop writes to it
besides its state. Empty slots are skipped. -/
def wakeProcesses (waits : PCB → Bool) (wake : PCB → PCB) (slots : List Nat) (k : Kernel) :
    Kernel :=
  slots.foldl
    (fun k i =>
      match k.processes i with
      | none => k
      | some p =>
          if waits (k.pcb p) then
            ((k.modifyPcb p wake).setState p .ready).enqueueProcess alg p
          else k)
    k

/-- `exit_process`. -/
def exitProcess (k : Kernel) : Kernel × Control :=
  let k := k.preemptDisable
  let k := k.setState k.currentProcess .zombie
  let pid : Int := k.current.pid
  let k := k.wakeProcesses alg
    (fun b => b.state = .waitingAnotherProcess ∧ b.pidToWait = pid)
    (fun b => { b with pidToWait := -1 }) (List.range N_PROCESSES)
  let k := k.preemptEnable
  (k.suspendAt .exited).schedule

end Kernel

end DemoOS
