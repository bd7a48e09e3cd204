import DemoOS.Proofs.Scheduler.Queues

/-!
# `DemoOS.Preemption.Queues`: the queue operations and the interrupt handlers

`enqueue_process_to`, `enqueue_sorted_to`, `dequeue_process_from` and `remove_process_from`
statement by statement. They run with interrupts enabled, and `preempt_disabled` masks none, so
a handler may run between any two of the statements: the UART handler, which calls
`enqueue_process` for a process that waits for input, or the tick handler, which under MLFQ
moves the processes of the lower queues to the first one.

`QueueInterrupt.Harmless` names the places at which the handler does no damage.
-/

set_option autoImplicit false

namespace DemoOS

/-- A place in one of the four functions, with the local variables that are still needed. -/
inductive QueuePoint where
  /-- `enqueue_process_to`: `process->next_ready = NULL`, -/
  | enqueueClear (queue : QueueId) (process : PcbPtr)
  /-- `process->state = PROCESS_READY`, -/
  | enqueueReady (queue : QueueId) (process : PcbPtr)
  /-- the test `queue->tail == NULL`, -/
  | enqueueTest (queue : QueueId) (process : PcbPtr)
  /-- `queue->head = process` -/
  | enqueueHead (queue : QueueId) (process : PcbPtr)
  /-- and `queue->tail = process` behind it, -/
  | enqueueOnlyTail (queue : QueueId) (process : PcbPtr)
  /-- or `queue->tail->next_ready = process` -/
  | enqueueLink (queue : QueueId) (process : PcbPtr)
  /-- and `queue->tail = process` behind it. -/
  | enqueueTail (queue : QueueId) (process : PcbPtr)
  /-- `dequeue_process_from`: the test `queue->head == NULL`, -/
  | dequeueTest (queue : QueueId)
  /-- `process = queue->head`, -/
  | dequeueRead (queue : QueueId)
  /-- `queue->head = process->next_ready`, -/
  | dequeueHead (queue : QueueId) (process : PcbPtr)
  /-- the test `queue->head == NULL` behind it, -/
  | dequeueEmpty (queue : QueueId) (process : PcbPtr)
  /-- `queue->tail = NULL`, -/
  | dequeueTail (queue : QueueId) (process : PcbPtr)
  /-- `process->next_ready = NULL`, and the return. -/
  | dequeueClear (process : PcbPtr)
  /-- `remove_process_from`: the test `previous == NULL`, -/
  | removeTest (queue : QueueId) (previous : Option PcbPtr) (process : PcbPtr)
  /-- `queue->head = process->next_ready`, -/
  | removeHead (queue : QueueId) (process : PcbPtr)
  /-- or `previous->next_ready = process->next_ready`, -/
  | removeLink (queue : QueueId) (previous process : PcbPtr)
  /-- the test `queue->tail == process`, -/
  | removeTailTest (queue : QueueId) (previous : Option PcbPtr) (process : PcbPtr)
  /-- `queue->tail = previous`, -/
  | removeTail (queue : QueueId) (previous : Option PcbPtr) (process : PcbPtr)
  /-- `process->next_ready = NULL`. -/
  | removeClear (process : PcbPtr)
  /-- `enqueue_sorted_to`: `process->next_ready = NULL`, -/
  | sortedClear (queue : QueueId) (process : PcbPtr)
  /-- `process->state = PROCESS_READY`, -/
  | sortedReady (queue : QueueId) (process : PcbPtr)
  /-- the test `queue->head == NULL`, -/
  | sortedTest (queue : QueueId) (process : PcbPtr)
  /-- `queue->head = process` -/
  | sortedHead (queue : QueueId) (process : PcbPtr)
  /-- and `queue->tail = process` behind it, -/
  | sortedOnlyTail (queue : QueueId) (process : PcbPtr)
  /-- the test `process->est_burst < queue->head->est_burst`, -/
  | sortedFirst (queue : QueueId) (process : PcbPtr)
  /-- `process->next_ready = queue->head` -/
  | sortedFrontLink (queue : QueueId) (process : PcbPtr)
  /-- and `queue->head = process` behind it, -/
  | sortedFront (queue : QueueId) (process : PcbPtr)
  /-- `current = queue->head`, -/
  | sortedStart (queue : QueueId) (process : PcbPtr)
  /-- the test of the loop, `current->next_ready != NULL`, -/
  | sortedLoop (queue : QueueId) (process current : PcbPtr)
  /-- the test `process->est_burst < current->next_ready->est_burst`, -/
  | sortedCompare (queue : QueueId) (process current : PcbPtr)
  /-- `current = current->next_ready`, -/
  | sortedAdvance (queue : QueueId) (process current : PcbPtr)
  /-- `process->next_ready = current->next_ready`, -/
  | sortedLink (queue : QueueId) (process current : PcbPtr)
  /-- `current->next_ready = process`, -/
  | sortedBehind (queue : QueueId) (process current : PcbPtr)
  /-- the test `process->next_ready == NULL`, -/
  | sortedLast (queue : QueueId) (process : PcbPtr)
  /-- and `queue->tail = process`. -/
  | sortedTail (queue : QueueId) (process : PcbPtr)
deriving DecidableEq

/-- What follows a statement. -/
inductive QueueFlow where
  | goto (point : QueuePoint)
  /-- The return, with the process that has been taken out of the queue. -/
  | returns (out : Option PcbPtr)
deriving DecidableEq

namespace Kernel

/-- `queue->head = x`. -/
def setHead (k : Kernel) (queue : QueueId) (x : Option PcbPtr) : Kernel :=
  k.setQueue queue ⟨x, (k.queues queue).tail⟩

/-- `queue->tail = x`. -/
def setTail (k : Kernel) (queue : QueueId) (x : Option PcbPtr) : Kernel :=
  k.setQueue queue ⟨(k.queues queue).head, x⟩

/-- One statement; `none` when it follows a null pointer. -/
def queueStatement (k : Kernel) : QueuePoint → Option (Kernel × QueueFlow)
  | .enqueueClear q p => some (k.setLink p none, .goto (.enqueueReady q p))
  | .enqueueReady q p =>
      some ((k.setState p .ready).log (.enqueued q p), .goto (.enqueueTest q p))
  | .enqueueTest q p =>
      some (k, .goto (if (k.queues q).tail = none then .enqueueHead q p else .enqueueLink q p))
  | .enqueueHead q p => some (k.setHead q (some p), .goto (.enqueueOnlyTail q p))
  | .enqueueOnlyTail q p | .enqueueTail q p => some (k.setTail q (some p), .returns none)
  | .enqueueLink q p =>
      (k.queues q).tail.map fun t => (k.setLink t (some p), .goto (.enqueueTail q p))
  | .dequeueTest q =>
      some (k, if (k.queues q).head = none then .returns none else .goto (.dequeueRead q))
  -- With a null pointer in `process`, the next statement would follow it.
  | .dequeueRead q => (k.queues q).head.map fun p => (k, .goto (.dequeueHead q p))
  | .dequeueHead q p => some (k.setHead q (k.pcb p).nextReady, .goto (.dequeueEmpty q p))
  | .dequeueEmpty q p =>
      some (k, .goto (if (k.queues q).head = none then .dequeueTail q p else .dequeueClear p))
  | .dequeueTail q p => some (k.setTail q none, .goto (.dequeueClear p))
  | .dequeueClear p | .removeClear p => some (k.setLink p none, .returns (some p))
  | .removeTest q previous p =>
      some (k, .goto (match previous with
        | none => .removeHead q p
        | some r => .removeLink q r p))
  | .removeHead q p => some (k.setHead q (k.pcb p).nextReady, .goto (.removeTailTest q none p))
  | .removeLink q previous p =>
      some (k.setLink previous (k.pcb p).nextReady, .goto (.removeTailTest q (some previous) p))
  | .removeTailTest q previous p =>
      some (k, .goto (if (k.queues q).tail = some p then .removeTail q previous p
        else .removeClear p))
  | .removeTail q previous p => some (k.setTail q previous, .goto (.removeClear p))
  | .sortedClear q p => some (k.setLink p none, .goto (.sortedReady q p))
  | .sortedReady q p => some ((k.setState p .ready).log (.enqueued q p), .goto (.sortedTest q p))
  | .sortedTest q p =>
      some (k, .goto (if (k.queues q).head = none then .sortedHead q p else .sortedFirst q p))
  | .sortedHead q p => some (k.setHead q (some p), .goto (.sortedOnlyTail q p))
  | .sortedOnlyTail q p | .sortedTail q p => some (k.setTail q (some p), .returns none)
  | .sortedFirst q p =>
      (k.queues q).head.map fun h =>
        (k, .goto (if (k.pcb p).estBurst < (k.pcb h).estBurst then .sortedFrontLink q p
          else .sortedStart q p))
  | .sortedFrontLink q p => some (k.setLink p (k.queues q).head, .goto (.sortedFront q p))
  | .sortedFront q p => some (k.setHead q (some p), .returns none)
  | .sortedStart q p => (k.queues q).head.map fun h => (k, .goto (.sortedLoop q p h))
  | .sortedLoop q p c =>
      some (k, .goto (if (k.pcb c).nextReady = none then .sortedLink q p c
        else .sortedCompare q p c))
  | .sortedCompare q p c =>
      (k.pcb c).nextReady.map fun n =>
        (k, .goto (if (k.pcb p).estBurst < (k.pcb n).estBurst then .sortedLink q p c
          else .sortedAdvance q p c))
  | .sortedAdvance q p c => (k.pcb c).nextReady.map fun n => (k, .goto (.sortedLoop q p n))
  | .sortedLink q p c => some (k.setLink p (k.pcb c).nextReady, .goto (.sortedBehind q p c))
  | .sortedBehind q p c => some (k.setLink c (some p), .goto (.sortedLast q p))
  | .sortedLast q p =>
      some (k, if (k.pcb p).nextReady = none then .goto (.sortedTail q p) else .returns none)

/-- So many statements, fewer if the function returns before. -/
def queueRun : Nat → Kernel → QueuePoint → Option (Kernel × QueueFlow)
  | 0, k, x => some (k, .goto x)
  | n + 1, k, x =>
      match k.queueStatement x with
      | none => none
      | some (k, .goto x) => queueRun n k x
      | some (k, .returns out) => some (k, .returns out)

end Kernel

/-- A call of one of the four functions. The process is neither `NULL` nor init. -/
inductive QueueOperation where
  | enqueueProcessTo (queue : QueueId) (process : PcbPtr)
  | enqueueSortedTo (queue : QueueId) (process : PcbPtr)
  | dequeueProcessFrom (queue : QueueId)
  | removeProcessFrom (queue : QueueId) (previous : Option PcbPtr) (process : PcbPtr)

/-- Its first statement. -/
def QueueOperation.start : QueueOperation → QueuePoint
  | .enqueueProcessTo q p => .enqueueClear q p
  | .enqueueSortedTo q p => .sortedClear q p
  | .dequeueProcessFrom q => .dequeueTest q
  | .removeProcessFrom q previous p => .removeTest q previous p

/-- The two handlers that work on the queues. -/
inductive QueueInterrupt where
  /-- `handle_uart_irq` wakes a process that waits for input. -/
  | wakeUp (process : PcbPtr)
  /-- `_multilevel_on_tick` moves the lower queues. -/
  | boost

/-- The handler; `none` when it has nothing to do. -/
def Kernel.interrupt (alg : SchedAlgorithm) (k : Kernel) : QueueInterrupt → Option Kernel
  | .wakeUp w =>
      if k.IsProcess w ∧ (k.pcb w).state = .waitingUartInput then
        some ((k.setState w .ready).enqueueProcess alg w)
      else none
  | .boost =>
      if alg = .mlfq ∧ mlPolicyMlfq.boostPeriod ≤ k.mlTicksSinceBoost + 1 then
        Kernel.boost mlPolicyMlfq k
      else none

/-- Every ready process is in one queue, once, the tails are the last processes of their queues,
and a process that has just been taken out is in none. -/
def Kernel.EachReadyOnce (k : Kernel) (out : Option PcbPtr) : Prop :=
  ∃ Q, k.Linked Q
    ∧ (∀ p, k.IsProcess p → p ≠ .initProcess → some p ≠ out → (k.pcb p).state = .ready →
        ∃ q, p ∈ Q q)
    ∧ ∀ p, some p = out → ∀ q, p ∉ Q q

/-- The process that the operation inserts or takes out, if it is given. -/
def QueueOperation.process : QueueOperation → Option PcbPtr
  | .enqueueProcessTo _ p | .enqueueSortedTo _ p | .removeProcessFrom _ _ p => some p
  | .dequeueProcessFrom _ => none

/-- What the callers promise about the arguments: an operation that inserts is given a process
outside of the queues, and `remove_process_from` a process of its queue and the one in front of
it. -/
def QueueOperation.Args (alg : SchedAlgorithm) (k : Kernel) (Q : QueueId → List PcbPtr) :
    QueueOperation → Prop
  | .enqueueProcessTo q p =>
      alg ≠ .sjf ∧ alg.Uses q ∧ k.IsProcess p ∧ p ≠ .initProcess
        ∧ (k.pcb p).state ≠ .waitingUartInput ∧ ∀ q, p ∉ Q q
  | .enqueueSortedTo q p =>
      alg = .sjf ∧ alg.Uses q ∧ k.IsProcess p ∧ p ≠ .initProcess
        ∧ (k.pcb p).state ≠ .waitingUartInput ∧ ∀ q, p ∉ Q q
  | .dequeueProcessFrom q => alg.Uses q
  | .removeProcessFrom q previous p =>
      (alg = .priorityAging ∨ alg = .lottery) ∧ alg.Uses q
        ∧ ∃ u v, Q q = u ++ p :: v ∧ previous = u.getLast?

/-- The algorithm makes this call, on queues that hold the ready processes. The process of the
call is the one exception: `remove_process_from` takes out a process that has been killed or
stopped just now. -/
structure QueueOperation.Called (alg : SchedAlgorithm) (k : Kernel) (op : QueueOperation)
    (Q : QueueId → List PcbPtr) : Prop where
  linked : k.Linked Q
  process : ∀ q p, p ∈ Q q → k.IsProcess p ∧ p ≠ .initProcess
    ∧ (k.pcb p).state ≠ .waitingUartInput
  ready : ∀ p, k.IsProcess p → p ≠ .initProcess → some p ≠ op.process →
    (k.pcb p).state = .ready → ∃ q, p ∈ Q q
  init : (k.pcb .initProcess).state ≠ .waitingUartInput
  args : op.Args alg k Q

/-- The call without an interrupt, as the rest of the model has it. -/
def QueueOperation.result (k : Kernel) : QueueOperation → Kernel × Option PcbPtr
  | .enqueueProcessTo q p => (k.enqueueProcessTo q p, none)
  | .enqueueSortedTo q p => (k.enqueueSortedTo q p, none)
  | .dequeueProcessFrom q => k.dequeueProcessFrom q
  | .removeProcessFrom q previous p => (k.removeProcessFrom q previous p, some p)

namespace QueueInterrupt

variable (alg : SchedAlgorithm) (k : Kernel)

/-- The handler links a process behind the last one of the queue. -/
def Appends (q : QueueId) : QueueInterrupt → Prop
  | .wakeUp w => alg ≠ .sjf ∧ alg.queueAt (k.queueLevel (k.pcb w).pid) = q
  | .boost => q = .mlQueue 0 ∧ ∃ level, 0 < level ∧ level < ML_MAX_LEVELS
      ∧ (k.queues (.mlQueue level)).head ≠ none

/-- The handler empties the queue. -/
def Empties (q : QueueId) : QueueInterrupt → Prop
  | .wakeUp _ => False
  | .boost => ∃ level, 0 < level ∧ level < ML_MAX_LEVELS ∧ q = .mlQueue level

/-- The handler inserts the process by its estimate. -/
def Sorts (w : PcbPtr) (i : QueueInterrupt) : Prop := alg = .sjf ∧ i = .wakeUp w

/-- By its estimate `w` belongs behind `c`: the leading processes of the queue whose estimate is
not longer end with `c`. -/
def LandsBehind (q : QueueId) (w c : PcbPtr) : Prop :=
  ((k.linkedIn q).takeWhile
    (fun r => decide ((k.pcb r).estBurst ≤ (k.pcb w).estBurst))).getLast? = some c

/-- What the handler does not do at a place where it would do damage, in the state that it
finds. -/
def Harmless (i : QueueInterrupt) : QueuePoint → Prop
  | .enqueueHead q _ => ¬ i.Appends alg k q
  | .enqueueOnlyTail q _ | .enqueueTail q _ => ¬ i.Appends alg k q ∧ ¬ i.Empties q
  | .enqueueLink q _ | .dequeueRead q => ¬ i.Empties q
  | .dequeueHead q p =>
      ¬ i.Empties q ∧ ∀ w, i.Sorts alg w → (k.pcb p).estBurst ≤ (k.pcb w).estBurst
  | .dequeueEmpty q _ => i.Appends alg k q → (k.queues q).head ≠ none
  | .removeTailTest q _ p => i.Appends alg k q → (k.queues q).tail ≠ some p
  | .dequeueTail q _ => ¬ i.Appends alg k q ∧ ∀ w, ¬ i.Sorts alg w
  | .removeTail q _ _ => ¬ i.Appends alg k q
  | .sortedHead _ _ => ∀ w, ¬ i.Sorts alg w
  | .sortedFront q _ =>
      ∀ w, i.Sorts alg w → ∀ h ∈ (k.queues q).head, (k.pcb h).estBurst ≤ (k.pcb w).estBurst
  | .sortedBehind q _ c => ∀ w, i.Sorts alg w → ¬ LandsBehind k q w c
  | .sortedOnlyTail q _ | .sortedTail q _ =>
      ∀ w, i.Sorts alg w → ∃ r ∈ k.linkedIn q, (k.pcb w).estBurst < (k.pcb r).estBurst
  | _ => True

end QueueInterrupt

end DemoOS
