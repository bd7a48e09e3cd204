import DemoOS.Libs.Fork
import Mathlib.Data.List.Basic

/-!
# `DemoOS.Spec.Sched`: the scheduler as an abstract machine

`Sched` is what the kernel's scheduling state says once pointers are gone: every
ready queue is a list of processes, and a process is its block. An `Action` is
one thing that kernel code can do to that state: `Action.Guard` says when it may
happen and `Action.apply` what it changes. `Exec` strings actions together.

This file is a statement of purpose and not a translation. `Proofs/Scheduler/`
shows that every kernel step is a list of these actions (`Refines`), so that a
property of all runs needs one case for each action here and no second look at
the C code.

## Main definitions

* `Sched`, `Sched.Registered`, `Sched.IsLinked`
* `PCB.signalled`, `PCB.handled`: what `handle_process_signals` does to a process
  that is not stopped
* `Edit`: changes to one block that no queue depends on
* `Action`, `Action.Guard`, `Action.apply`, `Exec`
-/

set_option autoImplicit false

namespace DemoOS

/-! ### Signals of one process -/

/-- `SIGNAL_KILL` or `SIGNAL_STOP` is pending. -/
def PCB.signalled (b : PCB) : Bool := b.isPending SIGNAL_KILL || b.isPending SIGNAL_STOP

/-- The block of a process that is not stopped, once its signals are handled. -/
def PCB.handled (b : PCB) : PCB :=
  if b.isPending SIGNAL_KILL then
    { b with state := .zombie, pendingSignals := b.clearSignal SIGNAL_KILL }
  else if b.isPending SIGNAL_STOP then
    { b with state := .stopped, pendingSignals := b.clearSignal SIGNAL_STOP }
  else if b.isPending SIGNAL_RESUME then
    { b with pendingSignals := b.clearSignal SIGNAL_RESUME }
  else b

/-- The events of that handling. -/
def PCB.signalEvents (p : PcbPtr) (b : PCB) : List KernelEvent :=
  if b.isPending SIGNAL_KILL then [.killed p]
  else if b.isPending SIGNAL_STOP then [.stopped p]
  else []

namespace PCB

variable (b : PCB)

/-- A signalled process ends as a zombie or stopped. -/
theorem handled_state_of_signalled (h : b.signalled = true) :
    b.handled.state = if b.isPending SIGNAL_KILL then .zombie else .stopped := by
  unfold handled
  unfold signalled at h
  split
  · rfl
  · simp_all

/-- Any other process keeps its state. -/
theorem handled_of_not_signalled (h : b.signalled = false) :
    b.handled = { b with
      pendingSignals :=
        if b.isPending SIGNAL_RESUME then b.clearSignal SIGNAL_RESUME else b.pendingSignals } := by
  unfold handled
  simp only [signalled, Bool.or_eq_false_iff] at h
  simp only [h.1, h.2, Bool.false_eq_true, if_false]
  split <;> rfl

theorem handled_state_eq_ready_iff (h : b.state = .ready) :
    b.handled.state = .ready ↔ b.signalled = false := by
  cases hs : b.signalled with
  | true => rw [handled_state_of_signalled b hs]; split <;> simp
  | false => simp [handled_of_not_signalled b hs, h]

theorem signalEvents_of_not_signalled (p : PcbPtr) (h : b.signalled = false) :
    b.signalEvents p = [] := by
  simp only [signalled, Bool.or_eq_false_iff] at h
  simp [signalEvents, h.1, h.2]

end PCB

/-! ### Points at which a process waits -/

/-- The second loop of `syscall_input`. -/
def ResumePoint.isInputRead : ResumePoint → Bool
  | .inputRead _ _ => true
  | _ => false

/-- A blocked process goes on in the call that blocked it. -/
def PCB.Blocked (b : PCB) : Prop :=
  match b.state with
  | .waitingUartInput => b.resume.isInputRead = true
  | .waitingToReceiveMessage => b.resume = .receiveMessage
  | .waitingToSendMessage => ∃ d body, b.resume = .sendMessage d body
  | .waitingAnotherProcess => b.resume = .wait b.pidToWait
  | _ => True

theorem PCB.blocked_of_not_waiting {b : PCB} (h : b.state.isWaiting = false) : b.Blocked := by
  unfold Blocked
  split
  case h_5 => trivial
  all_goals
    next hs =>
      rw [hs] at h
      exact absurd h (by decide)

theorem PCB.blocked_congr {b b' : PCB} (hstate : b'.state = b.state)
    (hresume : b'.resume = b.resume) (hwait : b'.pidToWait = b.pidToWait) (h : b.Blocked) :
    b'.Blocked := by
  unfold Blocked at h ⊢
  rw [hstate, hresume, hwait]
  exact h

/-! ### The abstract state -/

/-- The scheduler's state without pointers. -/
structure Sched where
  block : PcbPtr → PCB
  queue : QueueId → List PcbPtr
  currentProcess : PcbPtr
  processes : Nat → Option PcbPtr
  nProcesses : Nat
  queueLevel : Nat → Nat
  uartOwner : Option PcbPtr
  trace : List KernelEvent

/-- Insertion in front of the first process with a longer estimate. -/
def insertByBurst (block : PcbPtr → PCB) (p : PcbPtr) (l : List PcbPtr) : List PcbPtr :=
  l.takeWhile (fun r => (block r).estBurst ≤ (block p).estBurst)
    ++ p :: l.dropWhile (fun r => (block r).estBurst ≤ (block p).estBurst)

theorem insertByBurst_perm (block : PcbPtr → PCB) (p : PcbPtr) (l : List PcbPtr) :
    (insertByBurst block p l).Perm (p :: l) := by
  have h := List.takeWhile_append_dropWhile
    (p := fun r => decide ((block r).estBurst ≤ (block p).estBurst)) (l := l)
  calc insertByBurst block p l
      _ |>.Perm (p :: (l.takeWhile _ ++ l.dropWhile _)) := List.perm_middle
      _ = p :: l := by rw [h]

theorem mem_insertByBurst {block : PcbPtr → PCB} {p r : PcbPtr} {l : List PcbPtr} :
    r ∈ insertByBurst block p l ↔ r = p ∨ r ∈ l := by
  rw [(insertByBurst_perm block p l).mem_iff, List.mem_cons]

/-- The insertion reads nothing but the estimates. -/
theorem insertByBurst_congr {block block' : PcbPtr → PCB}
    (h : ∀ r, (block' r).estBurst = (block r).estBurst) (p : PcbPtr) (l : List PcbPtr) :
    insertByBurst block' p l = insertByBurst block p l := by
  simp only [insertByBurst, h]

namespace SchedAlgorithm

/-- The queues an algorithm uses. -/
def Uses : SchedAlgorithm → QueueId → Prop
  | .mlq, .mlQueue level | .mlfq, .mlQueue level => level < ML_MAX_LEVELS
  | .mlq, .readyQueue | .mlfq, .readyQueue => False
  | _, .readyQueue => True
  | _, .mlQueue _ => False

/-- The queue of a process at the given level. -/
def queueAt : SchedAlgorithm → Nat → QueueId
  | .mlq, level | .mlfq, level => .mlQueue level
  | _, _ => .readyQueue

/-- Where an algorithm puts a process in a queue. -/
def place : SchedAlgorithm → (PcbPtr → PCB) → PcbPtr → List PcbPtr → List PcbPtr
  | .sjf, block, p, l => insertByBurst block p l
  | _, _, p, l => l ++ [p]

theorem place_perm (alg : SchedAlgorithm) (block : PcbPtr → PCB) (p : PcbPtr)
    (l : List PcbPtr) : (alg.place block p l).Perm (p :: l) := by
  cases alg <;> first
    | exact insertByBurst_perm block p l
    | exact List.perm_append_singleton p l

theorem mem_place {alg : SchedAlgorithm} {block : PcbPtr → PCB} {p r : PcbPtr}
    {l : List PcbPtr} : r ∈ alg.place block p l ↔ r = p ∨ r ∈ l := by
  rw [(alg.place_perm block p l).mem_iff, List.mem_cons]

theorem place_congr (alg : SchedAlgorithm) {block block' : PcbPtr → PCB}
    (h : ∀ r, (block' r).estBurst = (block r).estBurst) (p : PcbPtr) (l : List PcbPtr) :
    alg.place block' p l = alg.place block p l := by
  cases alg <;> first | exact insertByBurst_congr h p l | rfl

theorem uses_queueAt {alg : SchedAlgorithm} {level : Nat} (h : level < ML_MAX_LEVELS) :
    alg.Uses (alg.queueAt level) := by
  cases alg <;> first | exact h | trivial

end SchedAlgorithm

namespace Sched

variable (alg : SchedAlgorithm) (s : Sched) (p : PcbPtr)

/-- The process is in the table. -/
def Registered : Prop := ∃ i < N_PROCESSES, s.processes i = some p

instance : Decidable (s.Registered p) := inferInstanceAs (Decidable (∃ i < N_PROCESSES, _))

/-- The process is in a ready queue. -/
def IsLinked : Prop := ∃ q, p ∈ s.queue q

def state : ProcessState := (s.block p).state

/-- The process that owns the CPU is marked as running, unless it is init. -/
def Running : Prop := s.currentProcess ≠ .initProcess → s.state s.currentProcess = .running

/-- A change of one block. -/
def modify (f : PCB → PCB) : Sched :=
  { s with block := Function.update s.block p (f (s.block p)) }

def setState (st : ProcessState) : Sched := s.modify p fun b => b.withState st

def log (e : KernelEvent) : Sched := { s with trace := s.trace ++ [e] }

/-- The process leaves its queue. -/
def unlink : Sched := { s with queue := fun q => (s.queue q).filter (· ≠ p) }

/-- The signal handler on a process that is not stopped. -/
def handleSignals : Sched :=
  { s.modify p PCB.handled with trace := s.trace ++ (s.block p).signalEvents p }

/-- The queue that the insertion policy chooses for the process. -/
def queueOf : QueueId := alg.queueAt (s.queueLevel (s.block p).pid)

/-- The process becomes ready and joins the queue that the policy chooses. -/
def enqueue : Sched :=
  let q := s.queueOf alg p
  { s with
    block := Function.update s.block p ((s.block p).withState .ready)
    queue := Function.update s.queue q (alg.place s.block p (s.queue q))
    trace := s.trace ++ [.enqueued q p] }

/-- The table grows by the process, with the block `b` and the given level. -/
def addToTable (b : PCB) (level : Nat) : Sched :=
  { s with
    block := Function.update s.block p b
    processes := Function.update s.processes s.nProcesses (some p)
    nProcesses := s.nProcesses + 1
    queueLevel := Function.update s.queueLevel s.nProcesses level }

/-- The context switch. The outgoing process goes back to ready if it is still
marked as running. -/
def switchTo : Sched :=
  let s₁ := (s.setState p .running).log (.dispatched p)
  if s.currentProcess = p then s₁
  else
    let s₂ :=
      if s.state s.currentProcess = .running then s₁.setState s.currentProcess .ready else s₁
    { s₂ with currentProcess := p }

section Fields
variable {s : Sched} {p r : PcbPtr} {f : PCB → PCB}

@[simp] theorem modify_queue : (s.modify p f).queue = s.queue := rfl
@[simp] theorem modify_currentProcess : (s.modify p f).currentProcess = s.currentProcess := rfl
@[simp] theorem modify_processes : (s.modify p f).processes = s.processes := rfl
@[simp] theorem modify_nProcesses : (s.modify p f).nProcesses = s.nProcesses := rfl
@[simp] theorem modify_queueLevel : (s.modify p f).queueLevel = s.queueLevel := rfl
@[simp] theorem modify_uartOwner : (s.modify p f).uartOwner = s.uartOwner := rfl
@[simp] theorem modify_trace : (s.modify p f).trace = s.trace := rfl

theorem modify_block : (s.modify p f).block r = if r = p then f (s.block p) else s.block r := by
  by_cases h : r = p
  · subst h; simp [modify]
  · simp [modify, h]

@[simp] theorem modify_block_self : (s.modify p f).block p = f (s.block p) := by
  simp [modify]

theorem modify_block_of_ne (h : r ≠ p) : (s.modify p f).block r = s.block r := by
  simp [modify, h]

theorem addToTable_block_of_ne {b : PCB} {level : Nat} (h : r ≠ p) :
    (s.addToTable p b level).block r = s.block r := by
  simp [addToTable, h]

theorem modify_congr {g : PCB → PCB} (h : f (s.block p) = g (s.block p)) :
    s.modify p f = s.modify p g := by
  simp [modify, h]

@[simp] theorem log_block (e : KernelEvent) : (s.log e).block = s.block := rfl
@[simp] theorem log_queue (e : KernelEvent) : (s.log e).queue = s.queue := rfl
@[simp] theorem log_currentProcess (e : KernelEvent) :
    (s.log e).currentProcess = s.currentProcess := rfl

theorem setState_block (st : ProcessState) :
    (s.setState p st).block r = if r = p then (s.block p).withState st else s.block r :=
  modify_block

@[simp] theorem unlink_block : (s.unlink p).block = s.block := rfl
@[simp] theorem unlink_currentProcess : (s.unlink p).currentProcess = s.currentProcess := rfl
@[simp] theorem unlink_processes : (s.unlink p).processes = s.processes := rfl
@[simp] theorem unlink_nProcesses : (s.unlink p).nProcesses = s.nProcesses := rfl
@[simp] theorem unlink_queueLevel : (s.unlink p).queueLevel = s.queueLevel := rfl
@[simp] theorem unlink_uartOwner : (s.unlink p).uartOwner = s.uartOwner := rfl
@[simp] theorem unlink_trace : (s.unlink p).trace = s.trace := rfl
@[simp] theorem unlink_queue (q : QueueId) :
    (s.unlink p).queue q = (s.queue q).filter (· ≠ p) := rfl

variable (alg : SchedAlgorithm)

@[simp] theorem enqueue_currentProcess :
    (s.enqueue alg p).currentProcess = s.currentProcess := rfl
@[simp] theorem enqueue_processes : (s.enqueue alg p).processes = s.processes := rfl
@[simp] theorem enqueue_nProcesses : (s.enqueue alg p).nProcesses = s.nProcesses := rfl
@[simp] theorem enqueue_queueLevel : (s.enqueue alg p).queueLevel = s.queueLevel := rfl
@[simp] theorem enqueue_uartOwner : (s.enqueue alg p).uartOwner = s.uartOwner := rfl
@[simp] theorem enqueue_trace :
    (s.enqueue alg p).trace = s.trace ++ [.enqueued (s.queueOf alg p) p] := rfl

theorem enqueue_block :
    (s.enqueue alg p).block r = if r = p then (s.block p).withState .ready else s.block r := by
  by_cases h : r = p
  · subst h; simp [enqueue]
  · simp [enqueue, h]

theorem mem_enqueue_queue {q : QueueId} :
    r ∈ (s.enqueue alg p).queue q ↔ (r = p ∧ q = s.queueOf alg p) ∨ r ∈ s.queue q := by
  by_cases h : q = s.queueOf alg p
  · subst h
    simp [enqueue, SchedAlgorithm.mem_place]
  · simp [enqueue, h]

@[simp] theorem switchTo_queue : (s.switchTo p).queue = s.queue := by
  unfold switchTo; split
  · rfl
  · dsimp only; split <;> rfl

@[simp] theorem switchTo_processes : (s.switchTo p).processes = s.processes := by
  unfold switchTo; split
  · rfl
  · dsimp only; split <;> rfl

@[simp] theorem switchTo_nProcesses : (s.switchTo p).nProcesses = s.nProcesses := by
  unfold switchTo; split
  · rfl
  · dsimp only; split <;> rfl

@[simp] theorem switchTo_queueLevel : (s.switchTo p).queueLevel = s.queueLevel := by
  unfold switchTo; split
  · rfl
  · dsimp only; split <;> rfl

@[simp] theorem switchTo_uartOwner : (s.switchTo p).uartOwner = s.uartOwner := by
  unfold switchTo; split
  · rfl
  · dsimp only; split <;> rfl

@[simp] theorem switchTo_trace : (s.switchTo p).trace = s.trace ++ [.dispatched p] := by
  unfold switchTo; split
  · rfl
  · dsimp only; split <;> rfl

@[simp] theorem switchTo_currentProcess : (s.switchTo p).currentProcess = p := by
  unfold switchTo; split
  · assumption
  · rfl

/-- The new process is running, and a displaced runner is ready. -/
theorem switchTo_block :
    (s.switchTo p).block r =
      if r = p then (s.block p).withState .running
      else if r = s.currentProcess ∧ s.state s.currentProcess = .running then
        (s.block r).withState .ready
      else s.block r := by
  unfold switchTo
  by_cases hp : s.currentProcess = p
  · rw [if_pos hp, log_block, setState_block]
    by_cases hr : r = p
    · simp [hr]
    · have hrc : ¬ (r = s.currentProcess ∧ s.state s.currentProcess = .running) := fun h =>
        hr (h.1.trans hp)
      rw [if_neg hr, if_neg hr, if_neg hrc]
  · rw [if_neg hp]
    by_cases hs : s.state s.currentProcess = .running
    · simp only [hs, if_true, and_true, setState_block, log_block, if_neg hp]
      by_cases hr : r = s.currentProcess
      · simp [hr, hp]
      · simp [hr]
    · simp only [hs, if_false, and_false, log_block, setState_block]

/-! A function of blocks that does not look at what an update changes has the same
value before and after it. -/

section Field
variable {β : Type} (φ : PCB → β)

theorem modify_field (hφ : φ (f (s.block p)) = φ (s.block p)) (r : PcbPtr) :
    φ ((s.modify p f).block r) = φ (s.block r) := by
  rw [modify_block]
  split
  · next h => rw [hφ, h]
  · rfl

variable (hφ : ∀ b st, φ (PCB.withState b st) = φ b)
include hφ

theorem setState_field (st : ProcessState) (r : PcbPtr) :
    φ ((s.setState p st).block r) = φ (s.block r) :=
  modify_field φ (hφ _ _) r

theorem enqueue_field (r : PcbPtr) : φ ((s.enqueue alg p).block r) = φ (s.block r) := by
  rw [enqueue_block]
  split
  · next h => rw [hφ, h]
  · rfl

theorem switchTo_field (r : PcbPtr) : φ ((s.switchTo p).block r) = φ (s.block r) := by
  rw [switchTo_block]
  split
  · next h => rw [hφ, h]
  · split
    · rw [hφ]
    · rfl

end Field

/-- Changes of one block that commute as functions commute. -/
theorem modify_comm {g : PCB → PCB} (h : f (g (s.block p)) = g (f (s.block p))) :
    (s.modify p g).modify p f = (s.modify p f).modify p g := by
  simp [modify, h]

theorem modify_modify {g : PCB → PCB} :
    (s.modify p g).modify p f = s.modify p fun b => f (g b) := by
  simp [modify]

/-- An insertion does not depend on the state the process had before. -/
theorem enqueue_setState (st : ProcessState) :
    (s.setState p st).enqueue alg p = s.enqueue alg p := by
  have hplace := alg.place_congr (setState_field (s := s) (p := p) PCB.estBurst (fun _ _ => rfl) st)
  have hqueue : (s.setState p st).queueOf alg p = s.queueOf alg p := by
    simp [queueOf, setState, PCB.withState]
  simp only [enqueue, hqueue, hplace]
  simp [setState, modify, PCB.withState]

/-- An insertion commutes with a change of the block that insertion does not look at. -/
theorem enqueue_modify (hf : ∀ b, (f b).estBurst = b.estBurst) (hpid : ∀ b, (f b).pid = b.pid)
    (hstate : ∀ b, f (b.withState .ready) = (f b).withState .ready) :
    (s.modify p f).enqueue alg p = (s.enqueue alg p).modify p f := by
  have hplace := alg.place_congr (modify_field (s := s) (p := p) PCB.estBurst (hf _))
  have hqueue : (s.modify p f).queueOf alg p = s.queueOf alg p := by
    simp [queueOf, hpid]
  simp only [enqueue, hqueue, hplace]
  simp [modify, hstate]

end Fields

end Sched

/-! ### Actions -/

/-- The fields of a block that scheduling depends on. -/
def PCB.core (b : PCB) : PCB :=
  { b with
    regs := .zeroed
    messagesBuffer := .zeroed
    mm := .empty
    tickets := 0
    queuePriority := 0 }

/-- A change of one block that moves no process between queues. -/
inductive Edit where
  /-- Registers, messages, memory map, tickets or starting level. -/
  | touch (f : PCB → PCB) (keeps : ∀ b, (f b).core = b.core)
  | preempt (d : Int)
  | raise (mask : BitVec 32)
  | clearResume
  | setPriority (value : Int)
  /-- A timer tick. -/
  | charge
  /-- The time slice is over. -/
  | expire
  | endBurst
  | suspendAt (point : ResumePoint)
  | waitFor (pid : Int)
  | clearWait

namespace Edit

def apply : Edit → PCB → PCB
  | .touch f _, b => f b
  | .preempt d, b => { b with preemptDisabled := b.preemptDisabled + d }
  | .raise mask, b => { b with pendingSignals := b.pendingSignals ||| mask }
  | .clearResume, b => { b with pendingSignals := b.clearSignal SIGNAL_RESUME }
  | .setPriority value, b => { b with priority := value }
  | .charge, b => { b with counter := b.counter - 1, burstTicks := b.burstTicks + 1 }
  | .expire, b => b.withCounter 0
  | .endBurst, b => { b with estBurst := (b.burstTicks + b.estBurst).tdiv 2, burstTicks := 0 }
  | .suspendAt point, b => { b with resume := point }
  | .waitFor pid, b => { b with pidToWait := pid }
  | .clearWait, b => { b with pidToWait := -1 }

/-- When kernel code makes the change to the block of `p`. -/
def Guard (s : Sched) (p : PcbPtr) : Edit → Prop
  | .touch _ _ => True
  | .preempt _ | .charge | .expire => p = s.currentProcess
  | .raise _ => s.Registered p
  | .clearResume => s.IsLinked p ∧ (s.block p).signalled = false
  | .setPriority value => p ≠ .initProcess ∧ 1 ≤ value
  | .endBurst => p = s.currentProcess ∧ p ≠ .initProcess
      ∧ s.state p ≠ .running ∧ s.state p ≠ .ready
  | .suspendAt point => p = s.currentProcess ∧ (s.state p).isWaiting = false
      ∧ (p = .initProcess → point = .idle)
      ∧ (∀ d body, point = .sendMessage d body → s.Registered d)
      ∧ (s.uartOwner = some p → point.isInputRead = true)
  | .waitFor _ => p = s.currentProcess ∧ (s.state p).isWaiting = false
  | .clearWait => s.state p = .ready

end Edit

/-- The messages and results that kernel code records, as opposed to what it does to
queues. -/
def KernelEvent.isNote : KernelEvent → Bool
  | .pushed _ | .received _ _ | .waitReturned _ _ | .lineRead _ _ => true
  | _ => false

/-- One thing that kernel code does to the scheduler's state. -/
inductive Action where
  | edit (p : PcbPtr) (e : Edit)
  /-- The current process blocks or exits. -/
  | leave (st : ProcessState)
  /-- A blocked process becomes ready. -/
  | wake (p : PcbPtr)
  | setLevel (pid level : Nat)
  /-- The boost moves the head of a lower queue to the top level. -/
  | promote (q : Nat) (p : PcbPtr)
  /-- The boost resets every level. -/
  | resetLevels
  | own (owner : Option PcbPtr)
  /-- A page that no process occupies is cleared. -/
  | clear (p : PcbPtr)
  /-- The current process creates a child in the block `p`. -/
  | register (p : PcbPtr) (cloneFlags : BitVec 64) (mm : MmStruct)
  | note (e : KernelEvent)
  /-- A selection function puts the outgoing process back. -/
  | requeue
  /-- A selection function drops a process that a signal killed or stopped. -/
  | drop (p : PcbPtr)
  /-- An epoch of priority aging ends. -/
  | recharge
  /-- A selection function gives the CPU to a process, or to init. -/
  | dispatch (next : Option PcbPtr) (quantum : Option Int)

namespace Action

variable (alg : SchedAlgorithm)

def apply (s : Sched) : Action → Sched
  | .edit p e => s.modify p e.apply
  | .leave st => s.setState s.currentProcess st
  | .wake p => s.enqueue alg p
  | .setLevel pid level => { s with queueLevel := Function.update s.queueLevel pid level }
  | .promote _ p =>
      let s := s.unlink p
      { s with
        queue := Function.update s.queue (.mlQueue 0) (s.queue (.mlQueue 0) ++ [p])
        queueLevel := Function.update s.queueLevel (s.block p).pid 0
        trace := s.trace ++ [.enqueued (.mlQueue 0) p] }
  | .resetLevels =>
      { s with queueLevel := fun i => if i < N_PROCESSES then 0 else s.queueLevel i }
  | .own owner => { s with uartOwner := owner }
  | .clear p => s.modify p fun _ => .zeroed
  | .register p cloneFlags mm =>
      let b := Kernel.childPcb (s.block s.currentProcess) cloneFlags mm s.nProcesses
      (s.addToTable p b (Kernel.startLevel alg b.queuePriority)).enqueue alg p
  | .note e => s.log e
  | .requeue => s.enqueue alg s.currentProcess
  | .drop p => (s.unlink p).handleSignals p
  | .recharge =>
      { s with
        block := fun p =>
          if s.Registered p then
            (s.block p).withCounter (((s.block p).counter >>> (1 : Nat)) + (s.block p).priority)
          else s.block p
        trace := s.trace ++ [.recharged (s.queue .readyQueue)] }
  | .dispatch none _ => s.switchTo .initProcess
  | .dispatch (some p) quantum =>
      ((s.unlink p).modify p fun b => b.withCounter (quantum.getD b.counter)).switchTo p

/-- When kernel code does it. -/
def Guard (s : Sched) : Action → Prop
  | .edit p e => e.Guard s p
  | .leave st => s.currentProcess ≠ .initProcess ∧ s.state s.currentProcess = .running
      ∧ (st.isWaiting = true ∨ st = .zombie)
      ∧ ((s.block s.currentProcess).withState st).Blocked
      ∧ (st = .waitingAnotherProcess → ∀ d, s.Registered d →
          ((s.block d).pid : Int) = (s.block s.currentProcess).pidToWait → s.state d ≠ .zombie)
  | .wake p => s.Registered p ∧ (s.state p).isWaiting = true
  | .setLevel _ level => level < ML_MAX_LEVELS
  | .promote q p => alg = .mlfq ∧ q ≠ 0 ∧ p ∈ s.queue (.mlQueue q)
  | .resetLevels => alg = .mlfq
  | .own owner => owner = none ∨ owner = some s.currentProcess
      ∧ (s.block s.currentProcess).resume.isInputRead = true
  | .clear p => ¬ s.Registered p
  | .register p _ _ => ¬ s.Registered p ∧ s.nProcesses < N_PROCESSES
  | .note e => e.isNote = true
  | .requeue => s.currentProcess ≠ .initProcess ∧ s.state s.currentProcess = .running
  | .drop p => s.IsLinked p ∧ (s.block p).signalled = true
  | .recharge => alg = .priorityAging ∧ s.queue .readyQueue ≠ []
      ∧ ∀ p ∈ s.queue .readyQueue, (s.block p).counter ≤ 0
  | .dispatch none _ => (∀ q, s.queue q = [])
      ∧ (s.currentProcess ≠ .initProcess → s.state s.currentProcess ≠ .running)
  | .dispatch (some p) _ => s.IsLinked p ∧ (s.block p).signalled = false
      ∧ (s.currentProcess ≠ .initProcess → s.state s.currentProcess ≠ .running)
      ∧ (alg = .priorityAging → 0 < (s.block p).counter)

/-- The actions of code that keeps the CPU. -/
def Stays : Action → Prop
  | .edit _ _ | .wake _ | .setLevel _ _ | .promote _ _ | .resetLevels | .own _ | .clear _
  | .register _ _ _ | .note _ => True
  | .leave _ | .requeue | .drop _ | .recharge | .dispatch _ _ => False

/-- The actions of kernel code outside the selection functions. -/
def IsCode : Action → Prop
  | .requeue | .drop _ | .recharge | .dispatch _ _ => False
  | _ => True

/-- The actions by which a selection function changes the queues and blocks before it
makes its choice. -/
def Selects : Action → Prop
  | .drop _ | .edit _ .clearResume | .recharge => True
  | _ => False

end Action

/-- The actions `as` lead from `s` to `s'`. -/
def Exec (alg : SchedAlgorithm) : Sched → List Action → Sched → Prop
  | s, [], s' => s' = s
  | s, a :: as, s' => a.Guard alg s ∧ Exec alg (a.apply alg s) as s'

section Exec
variable {alg : SchedAlgorithm} {s s₁ s₂ : Sched} {as bs : List Action} {a : Action}

theorem exec_append : Exec alg s (as ++ bs) s₂ ↔ ∃ m, Exec alg s as m ∧ Exec alg m bs s₂ := by
  induction as generalizing s with
  | nil => simp [Exec]
  | cons a as ih => simp only [List.cons_append, Exec, ih, and_assoc, exists_and_left]

theorem exec_singleton : Exec alg s [a] s₁ ↔ a.Guard alg s ∧ s₁ = a.apply alg s := Iff.rfl

/-- Where no signal is pending that removes the process, nothing but the resume bit can
change. -/
theorem handleSignals_of_not_signalled {p : PcbPtr} (h : (s.block p).signalled = false) :
    s.handleSignals p =
      if (s.block p).isPending SIGNAL_RESUME then s.modify p Edit.clearResume.apply else s := by
  unfold Sched.handleSignals
  rw [PCB.signalEvents_of_not_signalled _ _ h, List.append_nil]
  unfold Sched.modify
  rw [PCB.handled_of_not_signalled _ h]
  split
  · rfl
  · simp

/-- An invariant of every action is an invariant of every list of them. -/
theorem Exec.invariant {P : Sched → Prop} {A : Action → Prop}
    (hstep : ∀ s a, A a → a.Guard alg s → P s → P (a.apply alg s))
    (h : Exec alg s as s₁) (hA : ∀ a ∈ as, A a) (hs : P s) : P s₁ := by
  induction as generalizing s with
  | nil =>
      rw [show s₁ = s from h]
      exact hs
  | cons a as ih =>
      exact ih h.2 (fun b hb => hA b (by simp [hb])) (hstep s a (hA a (by simp)) h.1 hs)

end Exec

end DemoOS
