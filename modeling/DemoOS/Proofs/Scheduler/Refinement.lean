import DemoOS.Support.Lists
import DemoOS.Spec.Invariant
import DemoOS.Proofs.Scheduler.Queues

/-!
# `DemoOS.Proofs.Scheduler.Refinement`: the kernel refines the abstract scheduler

`Refines k s` says that the kernel state `k` is a representation of the abstract
state `s`: its pointers hold the lists of `s`, and everything else that `s` has
agrees. For each function of `scheduler.c` that the selection functions and the
system calls are made of, a lemma gives the abstract counterpart.
-/

set_option autoImplicit false

namespace DemoOS

/-! ### The signal handler as an update of one block -/

namespace PCB

/-- The handler writes the state and the pending signals. -/
theorem handled_field {β : Type} (φ : PCB → β)
    (hφ : ∀ b st signals, φ { b with state := st, pendingSignals := signals } = φ b) (b : PCB) :
    φ b.handled = φ b := by
  unfold handled
  split
  · exact hφ b _ _
  · split
    · exact hφ b _ _
    · split
      · exact hφ b b.state _
      · rfl

theorem handled_nextReady (b : PCB) : b.handled.nextReady = b.nextReady :=
  handled_field PCB.nextReady (fun _ _ _ => rfl) b

/-- It does not look at the link. -/
theorem handled_unlinked (b : PCB) : b.handled.unlinked = b.unlinked.handled := by
  have hpending : ∀ signal, b.unlinked.isPending signal = b.isPending signal := fun _ => rfl
  simp only [handled, hpending]
  split
  · rfl
  · split
    · rfl
    · split <;> rfl

end PCB

/-- On a process that is not stopped the handler links nobody. -/
theorem Kernel.handleProcessSignals_eq (alg : SchedAlgorithm) {k : Kernel} {p : PcbPtr}
    (hst : (k.pcb p).state ≠ .stopped) :
    k.handleProcessSignals alg p
      = { k.modifyPcb p PCB.handled with trace := k.trace ++ (k.pcb p).signalEvents p } := by
  have hmodify : ∀ f : PCB → PCB, (k.pcb p).handled = f (k.pcb p) →
      k.modifyPcb p PCB.handled = k.modifyPcb p f := fun f hf => by
    rw [modifyPcb, hf, modifyPcb]
  have hself : k.modifyPcb p id = k := by
    rw [modifyPcb, id, Function.update_eq_self]
  unfold handleProcessSignals
  by_cases hzero : (k.pcb p).pendingSignals = 0
  · have hnone : ∀ signal, (k.pcb p).isPending signal = false := fun signal => by
      simp [PCB.isPending, hzero]
    rw [if_pos hzero, hmodify id (by simp [PCB.handled, hnone]), hself]
    simp [PCB.signalEvents, hnone]
  · rw [if_neg hzero]
    by_cases hkill : (k.pcb p).isPending SIGNAL_KILL = true
    · have hf := hmodify
        (fun b => { b with state := .zombie, pendingSignals := b.clearSignal SIGNAL_KILL })
        (by rw [PCB.handled, if_pos hkill])
      rw [if_pos hkill, hf, PCB.signalEvents, if_pos hkill]
      rfl
    · rw [if_neg hkill]
      by_cases hstop : (k.pcb p).isPending SIGNAL_STOP = true
      · have hf := hmodify
          (fun b => { b with state := .stopped, pendingSignals := b.clearSignal SIGNAL_STOP })
          (by rw [PCB.handled, if_neg hkill, if_pos hstop])
        rw [if_pos hstop, hf, PCB.signalEvents, if_neg hkill, if_pos hstop]
        rfl
      · have hevents : (k.pcb p).signalEvents p = [] := by
          rw [PCB.signalEvents, if_neg hkill, if_neg hstop]
        rw [if_neg hstop, hevents, List.append_nil]
        by_cases hresume : (k.pcb p).isPending SIGNAL_RESUME = true
        · have hf := hmodify (fun b => { b with pendingSignals := b.clearSignal SIGNAL_RESUME })
            (by rw [PCB.handled, if_neg hkill, if_neg hstop, if_pos hresume])
          rw [if_pos hresume, if_neg (by simpa using hst), hf]
          rfl
        · rw [if_neg hresume, hmodify id
            (by rw [PCB.handled, if_neg hkill, if_neg hstop, if_neg hresume]; rfl), hself]

/-- The kernel state represents the abstract state. -/
structure Refines (k : Kernel) (s : Sched) : Prop where
  linked : k.Linked s.queue
  block : k.view = s.block
  currentProcess : k.currentProcess = s.currentProcess
  processes : k.processes = s.processes
  nProcesses : k.nProcesses = s.nProcesses
  queueLevel : k.queueLevel = s.queueLevel
  uartOwner : k.uartOwner = s.uartOwner
  trace : k.trace = s.trace

namespace Refines

open Kernel Support

variable {k k' : Kernel} {s : Sched} {p : PcbPtr} {q : QueueId}

/-- A kernel function that changes nothing but queues, blocks and the trace. -/
theorem of_rest (h : Refines k s) (k' : Kernel) (hrest : k'.rest = k.rest) {b : PcbPtr → PCB}
    {Q : QueueId → List PcbPtr} {t : List KernelEvent} (hlinked : k'.Linked Q)
    (hview : k'.view = b) (htrace : k'.trace = t) :
    Refines k' { s with block := b, queue := Q, trace := t } where
  linked := hlinked
  block := hview
  currentProcess := (rest_currentProcess hrest).trans h.currentProcess
  processes := (rest_processes hrest).trans h.processes
  nProcesses := (rest_nProcesses hrest).trans h.nProcesses
  queueLevel := (rest_queueLevel hrest).trans h.queueLevel
  uartOwner := (rest_uartOwner hrest).trans h.uartOwner
  trace := htrace

/-- The abstract block is the concrete one without its link. -/
theorem block_eq (h : Refines k s) (p : PcbPtr) : s.block p = (k.pcb p).unlinked := by
  rw [← h.block]
  rfl

theorem state_eq (h : Refines k s) (p : PcbPtr) : (k.pcb p).state = s.state p := by
  rw [Sched.state, h.block_eq]
  rfl

theorem modifyPcb (h : Refines k s) (p : PcbPtr) {f : PCB → PCB}
    (hlink : ∀ b, (f b).nextReady = b.nextReady)
    (hview : ∀ b, (f b).unlinked = f b.unlinked) : Refines (k.modifyPcb p f) (s.modify p f) := by
  refine h.of_rest (k.modifyPcb p f) rfl (h.linked.modifyPcb f hlink) ?_ h.trace
  rw [view_modifyPcb hview, h.block]

/-- A new block for a process outside the queues. -/
theorem replacePcb (h : Refines k s) (hfree : ¬ s.IsLinked p) {b : PCB}
    (hb : b.nextReady = none) :
    Refines (k.modifyPcb p fun _ => b) (s.modify p fun _ => b) := by
  have hunlinked : b.unlinked = b := by rw [PCB.unlinked, ← hb]
  have hview : (k.modifyPcb p fun _ => b).view = (s.modify p fun _ => b).block := by
    funext r
    rw [Sched.modify_block, ← h.block]
    by_cases hr : r = p
    · subst hr
      rw [if_pos rfl, view, modifyPcb_pcb_self, hunlinked]
    · rw [if_neg hr, view, modifyPcb_pcb_of_ne _ _ hr]
      rfl
  have hnext : ∀ {q r}, r ∈ s.queue q → (k.modifyPcb p fun _ => b).next r = k.next r := by
    intro q r hr
    have hrp : r ≠ p := fun he => hfree ⟨q, he ▸ hr⟩
    rw [next, next, modifyPcb_pcb_of_ne _ _ hrp]
  refine h.of_rest (k.modifyPcb p fun _ => b) rfl ⟨fun q => ?_, h.linked.disjoint⟩ hview
    h.trace
  exact (h.linked.queue q).congr fun r hr => hnext hr

theorem setState (h : Refines k s) (p : PcbPtr) (st : ProcessState) :
    Refines (k.setState p st) (s.setState p st) :=
  h.modifyPcb p (fun _ => rfl) fun _ => rfl

theorem setCounter (h : Refines k s) (p : PcbPtr) (c : Int) :
    Refines (k.setCounter p c) (s.modify p fun b => b.withCounter c) :=
  h.modifyPcb p (fun _ => rfl) fun _ => rfl

theorem log (h : Refines k s) (e : KernelEvent) : Refines (k.log e) (s.log e) :=
  h.of_rest (k.log e) rfl (h.linked.log e) h.block (by rw [log_trace, h.trace])

theorem setCurrent (h : Refines k s) (p : PcbPtr) (pgd : Nat) :
    Refines { k with currentProcess := p, ttbr0 := pgd } { s with currentProcess := p } :=
  ⟨⟨h.linked.queue, h.linked.disjoint⟩, h.block, rfl, h.processes, h.nProcesses, h.queueLevel,
    h.uartOwner, h.trace⟩

theorem setLevel (h : Refines k s) (f : Nat → Nat) :
    Refines { k with queueLevel := f } { s with queueLevel := f } :=
  ⟨⟨h.linked.queue, h.linked.disjoint⟩, h.block, h.currentProcess, h.processes, h.nProcesses, rfl,
    h.uartOwner, h.trace⟩

theorem updateLevel (h : Refines k s) (pid level : Nat) :
    Refines { k with queueLevel := Function.update k.queueLevel pid level }
      { s with queueLevel := Function.update s.queueLevel pid level } := by
  rw [← h.queueLevel]
  exact h.setLevel _

theorem resetLevels (h : Refines k s) :
    Refines { k with queueLevel := fun i => if i < N_PROCESSES then 0 else k.queueLevel i }
      { s with queueLevel := fun i => if i < N_PROCESSES then 0 else s.queueLevel i } := by
  rw [← h.queueLevel]
  exact h.setLevel _

theorem setProcesses (h : Refines k s) (f : Nat → Option PcbPtr) :
    Refines { k with processes := f } { s with processes := f } :=
  ⟨⟨h.linked.queue, h.linked.disjoint⟩, h.block, h.currentProcess, rfl, h.nProcesses, h.queueLevel,
    h.uartOwner, h.trace⟩

theorem incrementProcesses (h : Refines k s) :
    Refines { k with nProcesses := k.nProcesses + 1 } { s with nProcesses := s.nProcesses + 1 } :=
  ⟨⟨h.linked.queue, h.linked.disjoint⟩, h.block, h.currentProcess, h.processes,
    congrArg (· + 1) h.nProcesses, h.queueLevel, h.uartOwner, h.trace⟩

theorem own (h : Refines k s) (owner : Option PcbPtr) :
    Refines { k with uartOwner := owner } { s with uartOwner := owner } :=
  ⟨⟨h.linked.queue, h.linked.disjoint⟩, h.block, h.currentProcess, h.processes, h.nProcesses,
    h.queueLevel, rfl, h.trace⟩

/-- The devices are not part of the abstract state. -/
theorem devices (h : Refines k s) (ticks : Nat) (rng : BitVec 64) (timer : Nat → BitVec 32)
    (buffer : Nat → BitVec 8) (head tail pgd : Nat) :
    Refines { k with
      mlTicksSinceBoost := ticks, lotteryRngState := rng, timerClo := timer
      uartBuffer := buffer, uartHead := head, uartTail := tail, ttbr0 := pgd } s :=
  ⟨⟨h.linked.queue, h.linked.disjoint⟩, h.block, h.currentProcess, h.processes, h.nProcesses,
    h.queueLevel, h.uartOwner, h.trace⟩

theorem preemptEnable (h : Refines k s) :
    Refines k.preemptEnable (s.modify s.currentProcess (Edit.preempt (-1)).apply) := by
  rw [← h.currentProcess]
  exact h.modifyPcb (f := (Edit.preempt (-1)).apply) _ (fun _ => rfl) fun _ => rfl

theorem preemptDisable (h : Refines k s) :
    Refines k.preemptDisable (s.modify s.currentProcess (Edit.preempt 1).apply) := by
  rw [← h.currentProcess]
  exact h.modifyPcb (f := (Edit.preempt 1).apply) _ (fun _ => rfl) fun _ => rfl

/-! ### Insertion -/

section Enqueue
variable (alg : SchedAlgorithm)

/-- The insertion policy, for a process outside the queues. -/
theorem enqueue (h : Refines k s) (hp : p ≠ .initProcess) (hfree : ¬ s.IsLinked p)
    (hlen : ∀ q, (s.queue q).length ≤ N_PROCESSES) :
    Refines (alg.enqueue k p) (s.enqueue alg p) := by
  have hfree' : ∀ q, p ∉ s.queue q := fun q hq => hfree ⟨q, hq⟩
  have hpid : (k.pcb p).pid = (s.block p).pid := by rw [h.block_eq]; rfl
  -- Appending covers six of the seven policies.
  have hfifo : ∀ q, Refines (k.enqueueProcessTo q p)
      { s with
        block := Function.update s.block p ((s.block p).withState .ready)
        queue := Function.update s.queue q (s.queue q ++ [p])
        trace := s.trace ++ [.enqueued q p] } := fun q =>
    h.of_rest _ enqueueProcessTo_rest (enqueueProcessTo_linked h.linked hp hfree')
      (by rw [enqueueProcessTo_view hp, h.block]) (by rw [enqueueProcessTo_trace hp, h.trace])
  have hlevel : k.queueLevel (k.pcb p).pid = s.queueLevel (s.block p).pid := by
    rw [h.queueLevel, hpid]
  cases alg with
  | roundRobin | fcfs | lottery | priorityAging => exact hfifo .readyQueue
  | sjf =>
      refine h.of_rest _ enqueueSortedTo_rest ?_ (by rw [enqueueSortedTo_view hp, h.block])
        (by rw [enqueueSortedTo_trace hp, h.trace]; rfl)
      have := enqueueSortedTo_linked h.linked hp hfree' (hlen .readyQueue)
      rwa [h.block] at this
  | mlq | mlfq =>
      show Refines (k.enqueueProcessTo (.mlQueue (k.queueLevel (k.pcb p).pid)) p) _
      rw [hlevel]
      exact hfifo (.mlQueue (s.queueLevel (s.block p).pid))

theorem enqueueProcess (h : Refines k s) (hp : p ≠ .initProcess) (hfree : ¬ s.IsLinked p)
    (hlen : ∀ q, (s.queue q).length ≤ N_PROCESSES) :
    Refines (k.enqueueProcess alg p) (s.enqueue alg p) := by
  rw [Kernel.enqueueProcess, if_neg hp]
  exact h.enqueue alg hp hfree hlen

end Enqueue

/-! ### Removal -/

/-- Cutting a process out of its queue filters it from all of them. -/
theorem queue_unlink (h : Refines k s) {u v : List PcbPtr} (hq : s.queue q = u ++ p :: v) :
    Function.update s.queue q (u ++ v) = (s.unlink p).queue := by
  have hnodup := h.linked.nodup q
  rw [hq] at hnodup
  funext q'
  by_cases hqq : q' = q
  · subst hqq
    rw [Function.update_self, Sched.unlink_queue, hq, filter_ne_append_cons hnodup]
  · rw [Function.update_of_ne hqq, Sched.unlink_queue, filter_ne_eq_self]
    intro hp
    exact hqq (h.linked.disjoint hp (by rw [hq]; simp))

theorem removeProcessFrom (h : Refines k s) {u v : List PcbPtr} (hq : s.queue q = u ++ p :: v) :
    Refines (k.removeProcessFrom q u.getLast? p) (s.unlink p) := by
  have hlinked := removeProcessFrom_linked h.linked hq
  rw [h.queue_unlink hq] at hlinked
  exact h.of_rest _ (removeProcessFrom_rest _) hlinked
    ((removeProcessFrom_view _).trans h.block) ((removeProcessFrom_trace _).trans h.trace)

theorem dequeueProcessFrom (h : Refines k s) {l : List PcbPtr} (hq : s.queue q = p :: l) :
    ∃ k', k.dequeueProcessFrom q = (k', some p) ∧ Refines k' (s.unlink p) := by
  obtain ⟨k', hk', hlinked, hview, hrest, htrace⟩ := dequeueProcessFrom_cons h.linked hq
  have hunlink := h.queue_unlink (u := []) hq
  rw [List.nil_append] at hunlink
  rw [hunlink] at hlinked
  exact ⟨k', hk', h.of_rest _ hrest hlinked (hview.trans h.block) (htrace.trans h.trace)⟩

/-! ### Signals and the switch -/

variable (alg : SchedAlgorithm)

theorem handleProcessSignals (h : Refines k s) (hst : s.state p ≠ .stopped) :
    Refines (k.handleProcessSignals alg p) (s.handleSignals p) := by
  have hevents : (k.pcb p).signalEvents p = (s.block p).signalEvents p := by
    rw [h.block_eq]
    rfl
  rw [handleProcessSignals_eq alg (by rw [h.state_eq]; exact hst), hevents]
  have hmodify := h.modifyPcb p PCB.handled_nextReady PCB.handled_unlinked
  have htrace : k.trace ++ (s.block p).signalEvents p = s.trace ++ (s.block p).signalEvents p := by
    rw [h.trace]
  exact h.of_rest { k.modifyPcb p PCB.handled with trace := _ } rfl
    ⟨hmodify.linked.queue, hmodify.linked.disjoint⟩ hmodify.block htrace

/-- `switch_to_process`. -/
theorem switchToProcess (h : Refines k s) (p : PcbPtr) :
    Refines (k.switchToProcess p) (s.switchTo p) := by
  have h₁ := (h.setState p .running).log (.dispatched p)
  have hcur := h.currentProcess
  unfold Kernel.switchToProcess Sched.switchTo
  by_cases hp : s.currentProcess = p
  · rw [if_pos hp, if_pos (by show k.currentProcess = p; rw [hcur, hp])]
    exact h₁
  · rw [if_neg hp, if_neg (by show k.currentProcess ≠ p; rw [hcur]; exact hp)]
    have hst : (((k.setState p .running).log (.dispatched p)).pcb
        ((k.setState p .running).log (.dispatched p)).currentProcess).state
        = s.state s.currentProcess := by
      rw [h₁.state_eq, h₁.currentProcess]
      exact congrArg PCB.state (Sched.modify_block_of_ne (f := fun b => b.withState .running) hp)
    dsimp only
    rw [hst]
    have h₂ : Refines
        (if s.state s.currentProcess = .running then
          ((k.setState p .running).log (.dispatched p)).setState
            ((k.setState p .running).log (.dispatched p)).currentProcess .ready
        else (k.setState p .running).log (.dispatched p))
        (if s.state s.currentProcess = .running then
          ((s.setState p .running).log (.dispatched p)).setState s.currentProcess .ready
        else (s.setState p .running).log (.dispatched p)) := by
      split
      · rw [h₁.currentProcess]
        exact h₁.setState _ _
      · exact h₁
    exact h₂.setCurrent p _

end Refines

end DemoOS
