import DemoOS.Proofs.Scheduler.Queues

/-!
# `DemoOS.Proofs.Scheduler.Unread`: what scheduling does not read

Scheduling reads neither the points at which processes go on nor the characters in the ring of
the console. `Kernel.withUnread` exchanges these, and each function of `libs/scheduler.c` from the
queue operations to the tick does the same before and after the exchange. There is one equation
for each function, under its name.

`pickNext_withUnread` and `handleTimerTick_withUnread` are what other files use. In a kernel that
keeps its own values they say that scheduling leaves these alone (`pickNext_unread`).
-/

set_option autoImplicit false

namespace DemoOS

/-- What scheduling does not read. -/
structure Unread where
  place : PcbPtr → ResumePoint
  uartBuffer : Nat → BitVec 8
  uartHead : Nat
  uartTail : Nat

namespace Kernel

/-- What scheduling does not read in the kernel. -/
def unread (k : Kernel) : Unread :=
  ⟨fun p => (k.pcb p).resume, k.uartBuffer, k.uartHead, k.uartTail⟩

/-- The kernel with other values of what scheduling does not read. -/
def withUnread (k : Kernel) (u : Unread) : Kernel :=
  { k with
    pcb := fun p => { k.pcb p with resume := u.place p }
    uartBuffer := u.uartBuffer
    uartHead := u.uartHead
    uartTail := u.uartTail }

section
variable (k : Kernel) (u : Unread) (p : PcbPtr)

@[simp] theorem withUnread_unread : k.withUnread k.unread = k := rfl

@[simp] theorem unread_withUnread : (k.withUnread u).unread = u := rfl

@[simp] theorem withUnread_queues : (k.withUnread u).queues = k.queues := rfl

@[simp] theorem withUnread_currentProcess :
    (k.withUnread u).currentProcess = k.currentProcess := rfl

@[simp] theorem withUnread_processes : (k.withUnread u).processes = k.processes := rfl

@[simp] theorem withUnread_queueLevel : (k.withUnread u).queueLevel = k.queueLevel := rfl

@[simp] theorem withUnread_pcb : (k.withUnread u).pcb p = { k.pcb p with resume := u.place p } := rfl

@[simp] theorem withUnread_current :
    (k.withUnread u).current = { k.current with resume := u.place k.currentProcess } := rfl

theorem ite_withUnread (c : Prop) [Decidable c] (k l : Kernel) :
    (if c then k.withUnread u else l.withUnread u) = (if c then k else l).withUnread u :=
  (apply_ite (fun k : Kernel => k.withUnread u) c k l).symm

/-! ### Assignments -/

/-- An assignment that does not look at where the process goes on. -/
theorem modifyPcb_withUnread (f : PCB → PCB)
    (hf : ∀ b point, f { b with resume := point } = { f b with resume := point } := by
      intros; rfl) :
    (k.withUnread u).modifyPcb p f = (k.modifyPcb p f).withUnread u := by
  have hpcb : Function.update (k.withUnread u).pcb p (f ((k.withUnread u).pcb p))
      = fun r => { Function.update k.pcb p (f (k.pcb p)) r with resume := u.place r } := by
    funext r
    by_cases hr : r = p
    · subst hr
      rw [Function.update_self, Function.update_self]
      exact hf _ _
    · rw [Function.update_of_ne hr, Function.update_of_ne hr]
      rfl
  unfold modifyPcb
  rw [hpcb]
  rfl

@[simp] theorem setLink_withUnread (x : Option PcbPtr) :
    (k.withUnread u).setLink p x = (k.setLink p x).withUnread u :=
  modifyPcb_withUnread k u p fun b => { b with nextReady := x }

@[simp] theorem setState_withUnread (st : ProcessState) :
    (k.withUnread u).setState p st = (k.setState p st).withUnread u :=
  modifyPcb_withUnread k u p fun b => b.withState st

@[simp] theorem setCounter_withUnread (counter : Int) :
    (k.withUnread u).setCounter p counter = (k.setCounter p counter).withUnread u :=
  modifyPcb_withUnread k u p fun b => b.withCounter counter

@[simp] theorem setQueue_withUnread (q : QueueId) (x : ProcessQueue) :
    (k.withUnread u).setQueue q x = (k.setQueue q x).withUnread u := rfl

@[simp] theorem log_withUnread (e : KernelEvent) :
    (k.withUnread u).log e = (k.log e).withUnread u := rfl

@[simp] theorem preemptDisable_withUnread :
    (k.withUnread u).preemptDisable = k.preemptDisable.withUnread u :=
  modifyPcb_withUnread k u k.currentProcess
    fun b => { b with preemptDisabled := b.preemptDisabled + 1 }

@[simp] theorem preemptEnable_withUnread :
    (k.withUnread u).preemptEnable = k.preemptEnable.withUnread u :=
  modifyPcb_withUnread k u k.currentProcess
    fun b => { b with preemptDisabled := b.preemptDisabled - 1 }

/-! ### Queue operations -/

@[simp] theorem enqueueProcessTo_withUnread (q : QueueId) :
    (k.withUnread u).enqueueProcessTo q p = (k.enqueueProcessTo q p).withUnread u := by
  unfold enqueueProcessTo
  simp only [setLink_withUnread, setState_withUnread, log_withUnread, withUnread_queues]
  split
  · rfl
  · split
    · rfl
    · rfl

@[simp] theorem dequeueProcessFrom_withUnread (q : QueueId) :
    (k.withUnread u).dequeueProcessFrom q
      = ((k.dequeueProcessFrom q).1.withUnread u, (k.dequeueProcessFrom q).2) := by
  unfold dequeueProcessFrom
  simp only [withUnread_queues, withUnread_pcb, setQueue_withUnread, setLink_withUnread]
  split <;> rfl

@[simp] theorem removeProcessFrom_withUnread (q : QueueId) (previous : Option PcbPtr) :
    (k.withUnread u).removeProcessFrom q previous p
      = (k.removeProcessFrom q previous p).withUnread u := by
  unfold removeProcessFrom
  cases previous with
  | none =>
      simp only [withUnread_queues, withUnread_pcb, setQueue_withUnread]
      exact setLink_withUnread _ u p none
  | some r =>
      simp only [withUnread_queues, withUnread_pcb, setQueue_withUnread, setLink_withUnread]

@[simp] theorem sortedPosition_withUnread (estBurst : Int) (fuel : Nat) (p : PcbPtr) :
    (k.withUnread u).sortedPosition estBurst fuel p = k.sortedPosition estBurst fuel p := by
  induction fuel generalizing p with
  | zero => rfl
  | succ fuel ih => simp only [sortedPosition, withUnread_pcb, ih]

@[simp] theorem enqueueSortedTo_withUnread (q : QueueId) :
    (k.withUnread u).enqueueSortedTo q p = (k.enqueueSortedTo q p).withUnread u := by
  unfold enqueueSortedTo
  simp only [setLink_withUnread, setState_withUnread, log_withUnread, withUnread_queues,
    withUnread_pcb, sortedPosition_withUnread]
  split
  · rfl
  · split
    · rfl
    · split <;> rfl

@[simp] theorem walk_withUnread (fuel : Nat) (p : Option PcbPtr) :
    (k.withUnread u).walk fuel p = k.walk fuel p := by
  induction fuel generalizing p with
  | zero => cases p <;> rfl
  | succ fuel ih =>
      cases p with
      | none => rfl
      | some p => simp only [walk, withUnread_pcb, ih]

@[simp] theorem linkedIn_withUnread (q : QueueId) : (k.withUnread u).linkedIn q = k.linkedIn q := by
  simp only [linkedIn, walk_withUnread, withUnread_queues]

variable (alg : SchedAlgorithm)

/-- The insertion policies. -/
@[simp] theorem enqueue_withUnread :
    alg.enqueue (k.withUnread u) p = (alg.enqueue k p).withUnread u := by
  cases alg <;> simp only [SchedAlgorithm.enqueue, enqueueFifo, enqueueSjf, enqueueMultilevel,
    enqueueProcessTo_withUnread, enqueueSortedTo_withUnread, withUnread_queueLevel, withUnread_pcb]

@[simp] theorem enqueueProcess_withUnread :
    (k.withUnread u).enqueueProcess alg p = (k.enqueueProcess alg p).withUnread u := by
  unfold enqueueProcess
  split
  · rfl
  · exact enqueue_withUnread k u p alg

/-! ### Signals and the switch -/

@[simp] theorem handleProcessSignals_withUnread :
    (k.withUnread u).handleProcessSignals alg p = (k.handleProcessSignals alg p).withUnread u := by
  have hwrite : ∀ st signal,
      ((k.withUnread u).modifyPcb p fun b =>
          { b with state := st, pendingSignals := b.clearSignal signal })
        = (k.modifyPcb p fun b =>
            { b with state := st, pendingSignals := b.clearSignal signal }).withUnread u :=
    fun st signal => modifyPcb_withUnread k u p
      fun b => { b with state := st, pendingSignals := b.clearSignal signal }
  have hclear : ((k.withUnread u).modifyPcb p fun b =>
        { b with pendingSignals := b.clearSignal SIGNAL_RESUME })
      = (k.modifyPcb p fun b =>
          { b with pendingSignals := b.clearSignal SIGNAL_RESUME }).withUnread u :=
    modifyPcb_withUnread k u p fun b => { b with pendingSignals := b.clearSignal SIGNAL_RESUME }
  have hpending : ∀ point signal, PCB.isPending { k.pcb p with resume := point } signal
      = (k.pcb p).isPending signal := fun _ _ => rfl
  unfold handleProcessSignals
  simp only [hwrite, hclear, hpending, log_withUnread, setState_withUnread,
    enqueueProcess_withUnread, withUnread_pcb, ite_withUnread]

@[simp] theorem switchToProcess_withUnread :
    (k.withUnread u).switchToProcess p = (k.switchToProcess p).withUnread u := by
  unfold switchToProcess
  simp only [setState_withUnread, log_withUnread, withUnread_currentProcess, withUnread_pcb,
    ite_withUnread]
  split <;> rfl

@[simp] theorem dispatch_withUnread (next : Option PcbPtr) :
    (k.withUnread u).dispatch next = (k.dispatch next).withUnread u := by
  simp only [dispatch, switchToProcess_withUnread, preemptEnable_withUnread]

@[simp] theorem setQuantum_withUnread (next : Option PcbPtr) (quantum : Int) :
    (k.withUnread u).setQuantum next quantum = (k.setQuantum next quantum).withUnread u := by
  cases next with
  | none => rfl
  | some p => exact setCounter_withUnread k u p quantum

/-! ### The selection functions -/

@[simp] theorem requeueOutgoing_withUnread (insert : Kernel → PcbPtr → Kernel)
    (hinsert : ∀ k p, insert (withUnread k u) p = (insert k p).withUnread u) :
    (k.withUnread u).requeueOutgoing insert = (k.requeueOutgoing insert).withUnread u := by
  unfold requeueOutgoing
  simp only [preemptDisable_withUnread, hinsert, withUnread_currentProcess, withUnread_current,
    ite_withUnread]

/-- A loop over the slots of the table. -/
theorem slots_withUnread {round : Kernel → Nat → Kernel}
    (hround : ∀ k i, round (withUnread k u) i = (round k i).withUnread u) (slots : List Nat)
    (k : Kernel) : slots.foldl round (k.withUnread u) = (slots.foldl round k).withUnread u := by
  induction slots generalizing k with
  | nil => rfl
  | cons i slots ih => rw [List.foldl_cons, List.foldl_cons, hround, ih]

@[simp] theorem rechargeAll_withUnread :
    (k.withUnread u).rechargeAll = k.rechargeAll.withUnread u := by
  unfold rechargeAll
  rw [linkedIn_withUnread, log_withUnread]
  apply slots_withUnread
  intro k i
  simp only [withUnread_processes, withUnread_pcb, setCounter_withUnread]
  split <;> rfl

/-- The result of a walk, a round or a scan, in the kernel with other values. -/
def exchange (u : Unread) {α : Type} (r : Kernel × α) : Kernel × α := (r.1.withUnread u, r.2)

@[simp] theorem agingWalk_withUnread (fuel : Nat) (node previous best bestPrevious : Option PcbPtr)
    (maxCounter : Int) :
    (k.withUnread u).agingWalk alg fuel node previous best bestPrevious maxCounter
      = (k.agingWalk alg fuel node previous best bestPrevious maxCounter).map (exchange u) := by
  induction fuel generalizing k node previous best bestPrevious maxCounter with
  | zero => cases node <;> rfl
  | succ fuel ih =>
      cases node with
      | none => rfl
      | some node =>
          unfold agingWalk
          simp only [withUnread_pcb, handleProcessSignals_withUnread, removeProcessFrom_withUnread,
            ih, ← apply_ite]

@[simp] theorem agingLoop_withUnread (fuel : Nat) :
    (k.withUnread u).agingLoop alg fuel = (k.agingLoop alg fuel).map (exchange u) := by
  induction fuel generalizing k with
  | zero => rfl
  | succ fuel ih =>
      unfold agingLoop
      rw [withUnread_queues, agingWalk_withUnread]
      cases k.agingWalk alg N_PROCESSES (k.queues .readyQueue).head none none none 0 with
      | none => rfl
      | some r =>
          obtain ⟨k₁, best, bestPrevious⟩ := r
          simp only [Option.map_some, exchange, Option.bind_eq_bind, Option.bind_some]
          cases best with
          | some p =>
              simp only [removeProcessFrom_withUnread, Option.map_some, exchange]
          | none =>
              simp only [withUnread_queues, rechargeAll_withUnread, ih]
              split <;> rfl

@[simp] theorem agingFuel_withUnread : (k.withUnread u).agingFuel = k.agingFuel := by
  simp only [agingFuel, linkedIn_withUnread, withUnread_pcb]

/-- The end of a selection function: what follows the search does the same. -/
theorem bind_exchange {α : Type} {r : Option (Kernel × α)} {f : Kernel × α → Kernel}
    (hf : ∀ k x, f (withUnread k u, x) = (f (k, x)).withUnread u) :
    ((r.map (exchange u)).bind fun x => some (f x))
      = (r.bind fun x => some (f x)).map fun k => k.withUnread u := by
  cases r with
  | none => rfl
  | some r => exact congrArg some (hf r.1 r.2)

theorem schedulePriorityAging_withUnread :
    (k.withUnread u).schedulePriorityAging alg
      = (k.schedulePriorityAging alg).map fun k => k.withUnread u := by
  have hrequeue := k.requeueOutgoing_withUnread u (fun k p => k.enqueueProcessTo .readyQueue p)
    fun k p => enqueueProcessTo_withUnread k u p .readyQueue
  unfold schedulePriorityAging
  simp only [hrequeue, agingFuel_withUnread, agingLoop_withUnread]
  exact bind_exchange u fun k next => dispatch_withUnread k u next

@[simp] theorem dequeueUntilReady_withUnread (q : QueueId) (fuel : Nat) :
    (k.withUnread u).dequeueUntilReady alg q fuel
      = (k.dequeueUntilReady alg q fuel).map (exchange u) := by
  induction fuel generalizing k with
  | zero => rfl
  | succ fuel ih =>
      unfold dequeueUntilReady
      rw [dequeueProcessFrom_withUnread]
      obtain ⟨k₁, next, hnext⟩ : ∃ k₁ next, k.dequeueProcessFrom q = (k₁, next) := ⟨_, _, rfl⟩
      rw [hnext]
      cases next with
      | none => rfl
      | some p =>
          simp only [handleProcessSignals_withUnread, withUnread_pcb, ih]
          split <;> rfl

theorem scheduleRoundRobin_withUnread :
    (k.withUnread u).scheduleRoundRobin alg
      = (k.scheduleRoundRobin alg).map fun k => k.withUnread u := by
  have hrequeue := k.requeueOutgoing_withUnread u (fun k p => k.enqueueProcessTo .readyQueue p)
    fun k p => enqueueProcessTo_withUnread k u p .readyQueue
  unfold scheduleRoundRobin
  simp only [hrequeue, dequeueUntilReady_withUnread]
  refine bind_exchange u fun k next => ?_
  simp only [setQuantum_withUnread, dispatch_withUnread]

@[simp] theorem lotteryRandom_withUnread :
    (k.withUnread u).lotteryRandom = exchange u k.lotteryRandom := rfl

@[simp] theorem effectiveTickets_withUnread :
    (k.withUnread u).effectiveTickets p = k.effectiveTickets p := rfl

@[simp] theorem drawWinner_withUnread (winner : Int) (nodes : List PcbPtr)
    (previous : Option PcbPtr) (ticketCounter : Int) :
    (k.withUnread u).drawWinner winner nodes previous ticketCounter
      = k.drawWinner winner nodes previous ticketCounter := by
  induction nodes generalizing previous ticketCounter with
  | nil => rfl
  | cons candidate rest ih => simp only [drawWinner, effectiveTickets_withUnread, ih]

@[simp] theorem lotteryLoop_withUnread (fuel : Nat) :
    (k.withUnread u).lotteryLoop alg fuel = (k.lotteryLoop alg fuel).map (exchange u) := by
  induction fuel generalizing k with
  | zero => rfl
  | succ fuel ih =>
      unfold lotteryLoop
      rw [walk_withUnread, withUnread_queues]
      cases k.walk N_PROCESSES (k.queues .readyQueue).head with
      | none => rfl
      | some nodes =>
          simp only [Option.bind_eq_bind, Option.bind_some, effectiveTickets_withUnread,
            lotteryRandom_withUnread, exchange, drawWinner_withUnread]
          split
          · rfl
          · cases k.lotteryRandom.1.drawWinner _ nodes none 0 with
            | none => rfl
            | some winner =>
                obtain ⟨previous, candidate⟩ := winner
                simp only [Option.bind_some, removeProcessFrom_withUnread,
                  handleProcessSignals_withUnread, withUnread_pcb, ih]
                split <;> rfl

theorem scheduleLottery_withUnread :
    (k.withUnread u).scheduleLottery alg
      = (k.scheduleLottery alg).map fun k => k.withUnread u := by
  have hrequeue := k.requeueOutgoing_withUnread u (fun k p => k.enqueueProcessTo .readyQueue p)
    fun k p => enqueueProcessTo_withUnread k u p .readyQueue
  unfold scheduleLottery
  simp only [hrequeue, lotteryLoop_withUnread]
  refine bind_exchange u fun k next => ?_
  simp only [setQuantum_withUnread, dispatch_withUnread]

theorem scheduleQueueHead_withUnread :
    (k.withUnread u).scheduleQueueHead alg
      = (k.scheduleQueueHead alg).map fun k => k.withUnread u := by
  have hrequeue := k.requeueOutgoing_withUnread u alg.enqueue fun k p =>
    enqueue_withUnread k u p alg
  unfold scheduleQueueHead
  simp only [hrequeue, dequeueUntilReady_withUnread]
  exact bind_exchange u fun k next => dispatch_withUnread k u next

@[simp] theorem cascade_withUnread (levels : List Nat) :
    (k.withUnread u).cascade alg levels = (k.cascade alg levels).map (exchange u) := by
  induction levels generalizing k with
  | nil => rfl
  | cons q levels ih =>
      unfold cascade
      rw [dequeueUntilReady_withUnread]
      cases k.dequeueUntilReady alg (.mlQueue q) (N_PROCESSES + 1) with
      | none => rfl
      | some r =>
          obtain ⟨k₁, next⟩ := r
          cases next with
          | none => exact ih k₁
          | some p => rfl

theorem scheduleMultilevel_withUnread :
    (k.withUnread u).scheduleMultilevel alg
      = (k.scheduleMultilevel alg).map fun k => k.withUnread u := by
  have hrequeue := k.requeueOutgoing_withUnread u (fun k p => k.enqueueMultilevel p)
    fun k p => enqueueProcessTo_withUnread k u p _
  unfold scheduleMultilevel
  cases alg.mlPolicy with
  | none => rfl
  | some policy =>
      simp only [Option.bind_eq_bind, Option.bind_some, hrequeue, cascade_withUnread]
      cases Kernel.cascade alg (List.range policy.nLevels)
          (k.requeueOutgoing fun k p => k.enqueueMultilevel p) with
      | none => rfl
      | some r =>
          obtain ⟨k₁, found⟩ := r
          cases found with
          | none => exact congrArg some (dispatch_withUnread k₁ u none)
          | some found =>
              simp only [Option.map_some, exchange, Option.bind_some, setQuantum_withUnread,
                dispatch_withUnread]
              rfl

/-- `_schedule()` does the same whatever it does not read. -/
theorem pickNext_withUnread :
    alg.pickNext (k.withUnread u) = (alg.pickNext k).map fun k => k.withUnread u := by
  cases alg with
  | roundRobin => exact scheduleRoundRobin_withUnread k u _
  | fcfs | sjf => exact scheduleQueueHead_withUnread k u _
  | lottery => exact scheduleLottery_withUnread k u _
  | priorityAging => exact schedulePriorityAging_withUnread k u _
  | mlq | mlfq => exact scheduleMultilevel_withUnread k u _

/-! ### The tick -/

theorem boostQueue_withUnread (q fuel : Nat) :
    (k.withUnread u).boostQueue q fuel = (k.boostQueue q fuel).map fun k => k.withUnread u := by
  induction fuel generalizing k with
  | zero => rfl
  | succ fuel ih =>
      unfold boostQueue
      rw [dequeueProcessFrom_withUnread]
      obtain ⟨k₁, next, hnext⟩ : ∃ k₁ next, k.dequeueProcessFrom (.mlQueue q) = (k₁, next) :=
        ⟨_, _, rfl⟩
      rw [hnext]
      cases next with
      | none => rfl
      | some p =>
          have henqueue := enqueueProcessTo_withUnread
            { k₁ with queueLevel := Function.update k₁.queueLevel (k₁.pcb p).pid 0 } u p (.mlQueue 0)
          exact (congrArg (Kernel.boostQueue q fuel) henqueue).trans (ih _)

theorem boost_withUnread (policy : MultilevelPolicy) :
    (k.withUnread u).boost policy = (k.boost policy).map fun k => k.withUnread u := by
  have hqueues : ∀ (levels : List Nat) (k : Kernel),
      levels.foldlM (fun k q => Kernel.boostQueue q (N_PROCESSES + 1) k) (k.withUnread u)
        = (levels.foldlM (fun k q => Kernel.boostQueue q (N_PROCESSES + 1) k) k).map
            fun k => k.withUnread u := by
    intro levels
    induction levels with
    | nil => exact fun _ => rfl
    | cons q levels ih =>
        intro k
        rw [List.foldlM_cons, List.foldlM_cons, boostQueue_withUnread]
        cases k.boostQueue q (N_PROCESSES + 1) with
        | none => rfl
        | some k₁ => exact ih k₁
  have hmoved := hqueues (List.range' 1 (policy.nLevels - 1))
    { k with mlTicksSinceBoost := k.mlTicksSinceBoost + 1 }
  unfold boost
  dsimp only
  show (if k.mlTicksSinceBoost + 1 ≥ policy.boostPeriod then _ else _) = _
  split
  · refine (congrArg (fun r => Option.bind r _) hmoved).trans ?_
    cases (List.range' 1 (policy.nLevels - 1)).foldlM
        (fun k q => Kernel.boostQueue q (N_PROCESSES + 1) k)
        { k with mlTicksSinceBoost := k.mlTicksSinceBoost + 1 } with
    | none => rfl
    | some k₁ => rfl
  · rfl

theorem demote_withUnread (policy : MultilevelPolicy) :
    (k.withUnread u).demote policy = (k.demote policy).withUnread u := by
  unfold demote
  dsimp only
  by_cases hdemotes : policy.demoteOnExpiry ∧ k.currentProcess ≠ .initProcess
      ∧ k.current.counter ≤ 0 ∧ k.current.preemptDisabled = 0
      ∧ k.queueLevel k.current.pid < policy.nLevels - 1
  · rw [if_pos hdemotes]
    exact if_pos hdemotes
  · rw [if_neg hdemotes]
    exact if_neg hdemotes

theorem onTick_withUnread :
    alg.onTick (k.withUnread u) = (alg.onTick k).map fun k => k.withUnread u := by
  have hmultilevel : ∀ alg : SchedAlgorithm, (k.withUnread u).multilevelOnTick alg
      = (k.multilevelOnTick alg).map fun k => k.withUnread u := by
    intro alg
    unfold multilevelOnTick
    cases alg.mlPolicy with
    | none => rfl
    | some policy =>
        simp only [Option.bind_eq_bind, Option.bind_some, boost_withUnread]
        split
        · cases k.boost policy with
          | none => rfl
          | some k₁ => exact congrArg some (demote_withUnread k₁ u policy)
        · exact congrArg some (demote_withUnread k u policy)
  cases alg with
  | mlq | mlfq => exact hmultilevel _
  | _ => rfl

theorem handleTimerTick_withUnread :
    (k.withUnread u).handleTimerTick alg = (k.handleTimerTick alg).map (exchange u) := by
  have hcharged : (((k.withUnread u).setCounter k.currentProcess (k.current.counter - 1)).modifyCurrent
        fun b => { b with burstTicks := b.burstTicks + 1 })
      = ((k.setCounter k.currentProcess (k.current.counter - 1)).modifyCurrent
          fun b => { b with burstTicks := b.burstTicks + 1 }).withUnread u := by
    rw [setCounter_withUnread]
    exact modifyPcb_withUnread _ u _ fun b => { b with burstTicks := b.burstTicks + 1 }
  have htick := onTick_withUnread ((k.setCounter k.currentProcess (k.current.counter - 1)).modifyCurrent
    fun b => { b with burstTicks := b.burstTicks + 1 }) u alg
  rw [← hcharged] at htick
  unfold handleTimerTick
  refine (congrArg (fun r => Option.bind r _) htick).trans ?_
  dsimp only [Option.bind_eq_bind]
  cases alg.onTick ((k.setCounter k.currentProcess (k.current.counter - 1)).modifyCurrent
      fun b => { b with burstTicks := b.burstTicks + 1 }) with
  | none => rfl
  | some k₁ =>
      simp only [Option.map_some, Option.bind_some, withUnread_current, withUnread_currentProcess,
        setCounter_withUnread]
      split <;> rfl

theorem schedule_withUnread :
    (k.withUnread u).schedule = (k.schedule.1.withUnread u, .schedules) := by
  have hslept : ((k.withUnread u).modifyCurrent fun b =>
        { b with estBurst := (b.burstTicks + b.estBurst).tdiv 2, burstTicks := 0 })
      = (k.modifyCurrent fun b =>
          { b with estBurst := (b.burstTicks + b.estBurst).tdiv 2, burstTicks := 0 }).withUnread u :=
    modifyPcb_withUnread k u k.currentProcess fun b =>
      { b with estBurst := (b.burstTicks + b.estBurst).tdiv 2, burstTicks := 0 }
  unfold schedule
  simp only [hslept, current, withUnread_currentProcess, withUnread_pcb, ite_withUnread,
    setCounter_withUnread]
  rfl

end

/-! ### What scheduling leaves alone -/

variable {alg : SchedAlgorithm} {k k' : Kernel} {r : Kernel × Control}

theorem pickNext_unread (h : alg.pickNext k = some k') : k'.unread = k.unread := by
  have hpick := pickNext_withUnread k k.unread alg
  rw [withUnread_unread, h] at hpick
  have hsame := Option.some.inj hpick
  rw [hsame]
  rfl

theorem handleTimerTick_unread (h : k.handleTimerTick alg = some r) : r.1.unread = k.unread := by
  have htick := handleTimerTick_withUnread k k.unread alg
  rw [withUnread_unread, h] at htick
  have hsame := congrArg Prod.fst (Option.some.inj htick)
  rw [hsame]
  rfl

end Kernel

end DemoOS
