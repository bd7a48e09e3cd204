import DemoOS.Proofs.Scheduler.Levels
import DemoOS.Proofs.Scheduler.Lockstep
import Mathlib.Data.List.Infix

/-!
# `DemoOS.Proofs.Scheduler.TopLevel`: MLQ on its top level is round robin

Two kernels run the same events, one under round robin and one under MLQ. As long as no process
is given a queue level other than 0, `ml_queues[0]` of the second is the ready queue of the
first, and everything else that the code reads is equal (`Kernel.MirrorsTop`).

The two algorithms insert, select and tick by code of their own, and for each of these there is
one lemma: `enqueueProcess`, `scheduleMultilevel` and `handleTimerTick`. The system calls are the
same code over them and go through `Lockstep`. Only `copy_process` and `set_sched_param` write
levels, and the levels after the step say that they wrote 0.

`run_mlq_mirrors_roundRobin` is the result, for every list of events and after each of its
prefixes.
-/

set_option autoImplicit false

namespace DemoOS

open Kernel

/-- Every entry of `queue_level` is 0. -/
def Kernel.AllTopLevel (k : Kernel) : Prop := ∀ pid < N_PROCESSES, k.queueLevel pid = 0

instance (k : Kernel) : Decidable k.AllTopLevel :=
  inferInstanceAs (Decidable (∀ pid < N_PROCESSES, k.queueLevel pid = 0))

/-- `l` runs under MLQ as `k` does under round robin: its top queue is the ready queue, and its
lower queues are empty. -/
structure Kernel.MirrorsTop (k l : Kernel) : Prop where
  pcb : l.pcb = k.pcb
  currentProcess : l.currentProcess = k.currentProcess
  processes : l.processes = k.processes
  nProcesses : l.nProcesses = k.nProcesses
  uartOwner : l.uartOwner = k.uartOwner
  uartBuffer : l.uartBuffer = k.uartBuffer
  uartHead : l.uartHead = k.uartHead
  uartTail : l.uartTail = k.uartTail
  ttbr0 : l.ttbr0 = k.ttbr0
  top : l.queues (.mlQueue 0) = k.queues .readyQueue
  lower : ∀ q, q ≠ 0 → l.queues (.mlQueue q) = QUEUE_INIT
  pids : ∀ p, (k.pcb p).pid < N_PROCESSES
  levels : l.AllTopLevel

namespace Kernel

namespace MirrorsTop

variable {k l : Kernel}

theorem current (h : MirrorsTop k l) : l.current = k.current := by
  unfold Kernel.current
  rw [h.pcb, h.currentProcess]

/-- Assignments to a block. -/
theorem modifyPcb (p : PcbPtr) (f : PCB → PCB) (h : MirrorsTop k l)
    (hf : ∀ b, (f b).pid = b.pid) :
    MirrorsTop (k.modifyPcb p f) (l.modifyPcb p f) where
  __ := h
  pcb := by simp only [Kernel.modifyPcb, h.pcb]
  pids := fun r => by
    rw [modifyPcb_pcb]
    split
    · rw [hf]
      exact h.pids p
    · exact h.pids r

/-- A block that is filled in anew. -/
theorem setPcb (p : PcbPtr) {b : PCB} (hb : b.pid < N_PROCESSES) (h : MirrorsTop k l) :
    MirrorsTop (k.modifyPcb p fun _ => b) (l.modifyPcb p fun _ => b) where
  __ := h
  pcb := by simp only [Kernel.modifyPcb, h.pcb]
  pids := fun r => by
    rw [modifyPcb_pcb]
    split
    · exact hb
    · exact h.pids r

theorem modifyCurrent (f : PCB → PCB) (h : MirrorsTop k l)
    (hf : ∀ b, (f b).pid = b.pid) :
    MirrorsTop (k.modifyCurrent f) (l.modifyCurrent f) := by
  unfold Kernel.modifyCurrent
  rw [h.currentProcess]
  exact h.modifyPcb k.currentProcess f hf

theorem setLink (p : PcbPtr) (x : Option PcbPtr) (h : MirrorsTop k l) :
    MirrorsTop (k.setLink p x) (l.setLink p x) :=
  h.modifyPcb p _ fun _ => rfl

theorem setState (p : PcbPtr) (st : ProcessState) (h : MirrorsTop k l) :
    MirrorsTop (k.setState p st) (l.setState p st) :=
  h.modifyPcb p _ fun _ => rfl

theorem setCounter (p : PcbPtr) (counter : Int) (h : MirrorsTop k l) :
    MirrorsTop (k.setCounter p counter) (l.setCounter p counter) :=
  h.modifyPcb p _ fun _ => rfl

/-- What the two traces record is not compared. -/
theorem log (e e' : KernelEvent) (h : MirrorsTop k l) : MirrorsTop (k.log e) (l.log e') :=
  { h with }

/-! ### Queue operations -/

/-- The heads and tails of the two queues. -/
theorem setQueue (q : ProcessQueue) (h : MirrorsTop k l) :
    MirrorsTop (k.setQueue .readyQueue q) (l.setQueue (.mlQueue 0) q) where
  __ := h
  top := by rw [setQueue_queues_self, setQueue_queues_self]
  lower := fun level hlevel => by
    rw [setQueue_queues_of_ne _ _ fun heq => hlevel (QueueId.mlQueue.inj heq)]
    exact h.lower level hlevel

theorem enqueueProcessTo (p : PcbPtr) (h : MirrorsTop k l) :
    MirrorsTop (k.enqueueProcessTo .readyQueue p) (l.enqueueProcessTo (.mlQueue 0) p) := by
  have hmarked := ((h.setLink p none).setState p .ready).log (.enqueued .readyQueue p)
    (.enqueued (.mlQueue 0) p)
  unfold Kernel.enqueueProcessTo
  split
  · exact h
  · dsimp only
    rw [hmarked.top]
    split
    · exact hmarked.setQueue _
    · next t _ => exact (hmarked.setLink t (some p)).setQueue _

/-- `_enqueue_fifo` against `_enqueue_multilevel`. -/
theorem enqueueMultilevel (p : PcbPtr) (h : MirrorsTop k l) :
    MirrorsTop (k.enqueueProcessTo .readyQueue p) (l.enqueueMultilevel p) := by
  unfold Kernel.enqueueMultilevel
  rw [h.levels _ (h.pcb ▸ h.pids p)]
  exact h.enqueueProcessTo p

/-- `enqueue_process`, through either callback. -/
theorem enqueueProcess (p : PcbPtr) (h : MirrorsTop k l) :
    MirrorsTop (k.enqueueProcess .roundRobin p) (l.enqueueProcess .mlq p) := by
  unfold Kernel.enqueueProcess
  split
  · exact h
  · exact h.enqueueMultilevel p

theorem dequeueProcessFrom (h : MirrorsTop k l) :
    (l.dequeueProcessFrom (.mlQueue 0)).2 = (k.dequeueProcessFrom .readyQueue).2
      ∧ MirrorsTop (k.dequeueProcessFrom .readyQueue).1 (l.dequeueProcessFrom (.mlQueue 0)).1 := by
  unfold Kernel.dequeueProcessFrom
  dsimp only
  rw [h.top]
  split
  · exact ⟨rfl, h⟩
  · next p _ =>
      rw [h.pcb]
      exact ⟨rfl, (h.setQueue _).setLink p none⟩

/-! ### Signals and the switch -/

theorem handleProcessSignals (p : PcbPtr) (h : MirrorsTop k l) :
    MirrorsTop (k.handleProcessSignals .roundRobin p) (l.handleProcessSignals .mlq p) := by
  unfold Kernel.handleProcessSignals
  rw [h.pcb]
  dsimp only
  split
  · exact h
  · split
    · exact log _ _ (h.modifyPcb p _ fun _ => rfl)
    · split
      · exact log _ _ (h.modifyPcb p _ fun _ => rfl)
      · split
        · have hcleared := h.modifyPcb p
            (fun b => { b with pendingSignals := b.clearSignal SIGNAL_RESUME }) fun _ => rfl
          rw [hcleared.pcb]
          split
          · exact ((hcleared.setState p .ready).log _ _).enqueueProcess p
          · exact hcleared
        · exact h

theorem switchToProcess (p : PcbPtr) (h : MirrorsTop k l) :
    MirrorsTop (k.switchToProcess p) (l.switchToProcess p) := by
  have hrunning := (h.setState p .running).log (.dispatched p) (.dispatched p)
  have hswitched : ∀ {k l : Kernel}, MirrorsTop k l →
      MirrorsTop { k with currentProcess := p, ttbr0 := (k.pcb p).mm.pgd }
        { l with currentProcess := p, ttbr0 := (l.pcb p).mm.pgd } := fun {k l} h =>
    { h with currentProcess := rfl, ttbr0 := by rw [h.pcb] }
  unfold Kernel.switchToProcess
  dsimp only
  rw [hrunning.currentProcess]
  split
  · exact hrunning
  · rw [hrunning.pcb]
    split
    · exact hswitched (hrunning.setState _ .ready)
    · exact hswitched hrunning

theorem dispatch (next : Option PcbPtr) (h : MirrorsTop k l) :
    MirrorsTop (k.dispatch next) (l.dispatch next) :=
  (h.switchToProcess (next.getD .initProcess)).modifyCurrent
    (fun b => { b with preemptDisabled := b.preemptDisabled - 1 }) fun _ => rfl

theorem setQuantum (next : Option PcbPtr) (quantum : Int) (h : MirrorsTop k l) :
    MirrorsTop (k.setQuantum next quantum) (l.setQuantum next quantum) := by
  cases next with
  | none => exact h
  | some p => exact h.setCounter p quantum

/-! ### Selection -/

theorem requeueOutgoing (h : MirrorsTop k l) :
    MirrorsTop (k.requeueOutgoing fun k p => k.enqueueProcessTo .readyQueue p)
      (l.requeueOutgoing fun k p => k.enqueueMultilevel p) := by
  have hdisabled : MirrorsTop k.preemptDisable l.preemptDisable := h.modifyCurrent _ fun _ => rfl
  unfold Kernel.requeueOutgoing
  dsimp only
  rw [hdisabled.current, hdisabled.currentProcess]
  split
  · exact hdisabled.enqueueMultilevel _
  · exact hdisabled

/-- The scan of the ready queue against the scan of the top level. -/
theorem dequeueUntilReady (fuel : Nat) (h : MirrorsTop k l) :
    Option.Rel (fun r r' => r'.2 = r.2 ∧ MirrorsTop r.1 r'.1)
      (k.dequeueUntilReady .roundRobin .readyQueue fuel)
      (l.dequeueUntilReady .mlq (.mlQueue 0) fuel) := by
  induction fuel generalizing k l with
  | zero => exact .none
  | succ fuel ih =>
      obtain ⟨hnext, hdequeued⟩ := h.dequeueProcessFrom
      unfold Kernel.dequeueUntilReady
      rw [← Prod.eta (k.dequeueProcessFrom .readyQueue),
        ← Prod.eta (l.dequeueProcessFrom (.mlQueue 0)), hnext]
      cases (k.dequeueProcessFrom .readyQueue).2 with
      | none => exact .some ⟨rfl, hdequeued⟩
      | some p =>
          have hhandled := hdequeued.handleProcessSignals p
          dsimp only
          rw [hhandled.pcb]
          split
          · exact .some ⟨rfl, hhandled⟩
          · exact ih hhandled

/-- The cascade finds nothing on the lower levels. -/
theorem cascade_lower (h : MirrorsTop k l) (levels : List Nat) (hlevels : 0 ∉ levels) :
    l.cascade .mlq levels = some (l, none) := by
  induction levels with
  | nil => rfl
  | cons q levels ih =>
      have hempty : l.queues (.mlQueue q) = QUEUE_INIT :=
        h.lower q fun hq => hlevels (hq ▸ List.mem_cons_self)
      have hscan : l.dequeueUntilReady .mlq (.mlQueue q) (N_PROCESSES + 1) = some (l, none) := by
        unfold Kernel.dequeueUntilReady Kernel.dequeueProcessFrom
        simp only [hempty, QUEUE_INIT]
      unfold Kernel.cascade
      rw [hscan]
      exact ih fun hmem => hlevels (List.mem_cons_of_mem q hmem)

/-- `_schedule_round_robin` against `_schedule_multilevel`. -/
theorem scheduleMultilevel (h : MirrorsTop k l) :
    Option.Rel MirrorsTop (k.scheduleRoundRobin .roundRobin) (l.scheduleMultilevel .mlq) := by
  have hscan := h.requeueOutgoing.dequeueUntilReady (N_PROCESSES + 1)
  have hlevels : List.range mlPolicyMlq.nLevels = 0 :: [1, 2, 3, 4] := rfl
  unfold Kernel.scheduleRoundRobin Kernel.scheduleMultilevel
  dsimp only [SchedAlgorithm.mlPolicy, Option.bind_eq_bind, Option.bind_some]
  rw [hlevels]
  unfold Kernel.cascade
  cases hk : Kernel.dequeueUntilReady .roundRobin .readyQueue (N_PROCESSES + 1)
      (k.requeueOutgoing fun k p => k.enqueueProcessTo .readyQueue p) with
  | none =>
      rw [hk] at hscan
      cases hl : Kernel.dequeueUntilReady .mlq (.mlQueue 0) (N_PROCESSES + 1)
          (l.requeueOutgoing fun k p => k.enqueueMultilevel p) with
      | none => exact .none
      | some r =>
          rw [hl] at hscan
          cases hscan
  | some r =>
      rw [hk] at hscan
      cases hl : Kernel.dequeueUntilReady .mlq (.mlQueue 0) (N_PROCESSES + 1)
          (l.requeueOutgoing fun k p => k.enqueueMultilevel p) with
      | none =>
          rw [hl] at hscan
          cases hscan
      | some r' =>
          rw [hl] at hscan
          obtain ⟨k₁, next⟩ := r
          obtain ⟨l₁, next'⟩ := r'
          cases hscan with
          | some hscan =>
              obtain ⟨rfl, hscanned⟩ : next' = next ∧ MirrorsTop k₁ l₁ := hscan
              cases next' with
              | none =>
                  simp only [Option.bind_eq_bind, Option.bind_some,
                    hscanned.cascade_lower [1, 2, 3, 4] (by decide)]
                  exact .some (hscanned.dispatch none)
              | some p => exact .some ((hscanned.setCounter p 10).dispatch (some p))

/-! ### Code -/

/-- System calls and the UART interrupt are the same code over the two ready structures. -/
theorem lockstep : ConsoleLockstep .roundRobin .mlq MirrorsTop where
  same h :=
    { block := fun p => by rw [h.pcb], currentProcess := h.currentProcess, processes := h.processes,
      nProcesses := h.nProcesses, uartOwner := h.uartOwner, uartBuffer := h.uartBuffer,
      uartHead := h.uartHead, uartTail := h.uartTail, ttbr0 := h.ttbr0 }
  assign p f hf h := h.modifyPcb p f hf.pid
  mark st _ _ h := h.modifyCurrent (fun b => b.withState st) fun _ => rfl
  waitFor pid h := h.modifyCurrent (fun b => { b with pidToWait := pid }) fun _ => rfl
  suspendAt point _ h := h.modifyCurrent (fun b => { b with resume := point }) fun _ => rfl
  setPgd _ h := { h with ttbr0 := rfl }
  log _ h := h.log _ _
  wake p _ h := (h.setState p .ready).enqueueProcess p
  markInput h := h.modifyCurrent (fun b => b.withState .waitingUartInput) fun _ => rfl
  suspendInput point _ h := h.modifyCurrent (fun b => { b with resume := point }) fun _ => rfl
  console owner buffer head tail h := { h with
    uartOwner := rfl, uartBuffer := rfl, uartHead := rfl, uartTail := rfl }

theorem suspendAt (point : ResumePoint) (h : MirrorsTop k l) :
    MirrorsTop (k.suspendAt point) (l.suspendAt point) :=
  h.modifyCurrent (fun b => { b with resume := point }) fun _ => rfl

theorem returnToUser (value : Int) (h : MirrorsTop k l) :
    EndTogether MirrorsTop (k.returnToUser value) (l.returnToUser value) :=
  lockstep.toLockstep.returnToUser value h

/-- The wake-up loop of `exit_process`. -/
theorem wakeProcesses (waits : PCB → Bool) (wake : PCB → PCB) (slots : List Nat)
    (h : MirrorsTop k l) (hwake : ∀ b, (wake b).pid = b.pid) :
    MirrorsTop (k.wakeProcesses .roundRobin waits wake slots)
      (l.wakeProcesses .mlq waits wake slots) := by
  induction slots generalizing k l with
  | nil => exact h
  | cons i slots ih =>
      have hone : MirrorsTop (Kernel.wakeProcesses .roundRobin waits wake [i] k)
          (Kernel.wakeProcesses .mlq waits wake [i] l) := by
        unfold Kernel.wakeProcesses
        simp only [List.foldl_cons, List.foldl_nil]
        rw [h.processes, h.pcb]
        split
        · exact h
        · next p _ =>
            split
            · exact ((h.modifyPcb p wake hwake).setState p .ready).enqueueProcess p
            · exact h
      exact ih hone

theorem exitProcess (h : MirrorsTop k l) :
    EndTogether MirrorsTop (k.exitProcess .roundRobin) (l.exitProcess .mlq) := by
  have hdisabled : MirrorsTop k.preemptDisable l.preemptDisable :=
    h.modifyCurrent (fun b => { b with preemptDisabled := b.preemptDisabled + 1 }) fun _ => rfl
  have hended := hdisabled.setState k.preemptDisable.currentProcess .zombie
  unfold Kernel.exitProcess
  dsimp only
  rw [hdisabled.currentProcess, hended.current]
  have hwoken := hended.wakeProcesses (fun b => b.state = .waitingAnotherProcess ∧ b.pidToWait =
    ((k.preemptDisable.setState k.preemptDisable.currentProcess .zombie).current.pid : Int))
    (fun b => { b with pidToWait := -1 }) (List.range N_PROCESSES) fun _ => rfl
  have henabled := hwoken.modifyCurrent
    (fun b => { b with preemptDisabled := b.preemptDisabled - 1 }) fun _ => rfl
  exact .schedules (henabled.suspendAt .exited)

/-- `add_process_to_scheduler`, of a process that starts on the top level. -/
theorem addProcessToScheduler (p : PcbPtr) (h : MirrorsTop k l)
    (hlevels : ∀ l', l.addProcessToScheduler .mlq p = some l' → l'.AllTopLevel) :
    Option.Rel MirrorsTop (k.addProcessToScheduler .roundRobin p)
      (l.addProcessToScheduler .mlq p) := by
  have hpcb : l.pcb p = k.pcb p := congrFun h.pcb p
  have hfull : (l.nProcesses ≥ N_PROCESSES ∨ (l.pcb p).pid ≥ N_PROCESSES)
      = (k.nProcesses ≥ N_PROCESSES ∨ (k.pcb p).pid ≥ N_PROCESSES) := by
    rw [h.nProcesses, hpcb]
  have hready : ((l.pcb p).state = .ready) = ((k.pcb p).state = .ready) := by rw [hpcb]
  have hcounted : ∀ {k' l' : Kernel}, MirrorsTop k' l' →
      MirrorsTop { k' with nProcesses := k'.nProcesses + 1 }
        { l' with nProcesses := l'.nProcesses + 1 } := fun h' =>
    { h' with nProcesses := by rw [h'.nProcesses] }
  have hstart : ∀ l', l.addProcessToScheduler .mlq p = some l' →
      startLevel .mlq (l.pcb p).queuePriority = 0 := by
    intro l' hl'
    have hlevel := hlevels l' hl' (l.pcb p).pid (hpcb ▸ h.pids p)
    rwa [addProcessToScheduler_levels hl', Function.update_self] at hlevel
  unfold Kernel.addProcessToScheduler at hstart ⊢
  dsimp only at hstart ⊢
  simp only [hfull] at hstart ⊢
  split
  · exact .none
  · next hroom =>
      rw [if_neg hroom] at hstart
      have hregistered : MirrorsTop
          { k with
            processes := Function.update k.processes (k.pcb p).pid (some p)
            queueLevel := Function.update k.queueLevel (k.pcb p).pid
              (startLevel .roundRobin (k.pcb p).queuePriority) }
          { l with
            processes := Function.update l.processes (l.pcb p).pid (some p)
            queueLevel := Function.update l.queueLevel (l.pcb p).pid
              (startLevel .mlq (l.pcb p).queuePriority) } :=
        { h with
          processes := by simp only [h.processes, hpcb]
          levels := fun pid hpid => by
            dsimp only
            rw [hstart _ rfl, Function.update_apply]
            split
            · rfl
            · exact h.levels pid hpid }
      simp only [hready]
      split
      · exact .some (hcounted (hregistered.enqueueProcess p))
      · exact .some (hcounted hregistered)

/-- `copy_process` answers the same, and does the same if the child starts on the top level. -/
theorem copyProcess (cloneFlags : BitVec 64) (page : Option Nat) (mm : MmStruct)
    (h : MirrorsTop k l) (hlevels : (l.copyProcess .mlq cloneFlags page mm).1.AllTopLevel) :
    (l.copyProcess .mlq cloneFlags page mm).2 = (k.copyProcess .roundRobin cloneFlags page mm).2
      ∧ MirrorsTop (k.copyProcess .roundRobin cloneFlags page mm).1
          (l.copyProcess .mlq cloneFlags page mm).1 := by
  have hdisabled : MirrorsTop k.preemptDisable l.preemptDisable :=
    h.modifyCurrent (fun b => { b with preemptDisabled := b.preemptDisabled + 1 }) fun _ => rfl
  unfold Kernel.copyProcess at hlevels ⊢
  dsimp only at hlevels ⊢
  cases page with
  | none => exact ⟨rfl, hdisabled⟩
  | some n =>
      have hcleared := hdisabled.setPcb (.page n) (b := .zeroed) (by decide)
      dsimp only at hlevels ⊢
      simp only [hcleared.nProcesses, hcleared.current] at hlevels ⊢
      split
      · exact ⟨rfl, hcleared⟩
      · next hroom =>
          rw [if_neg hroom] at hlevels
          have hfilled := hcleared.setPcb (.page n) (b := childPcb
            (k.preemptDisable.modifyPcb (.page n) fun _ => .zeroed).current cloneFlags mm
            (k.preemptDisable.modifyPcb (.page n) fun _ => .zeroed).nProcesses)
            (Nat.lt_of_not_le hroom)
          have hadded := hfilled.addProcessToScheduler (.page n) fun l' hl' => by
            rw [hl'] at hlevels
            exact hlevels
          revert hadded
          generalize Kernel.addProcessToScheduler .roundRobin _ _ = r
          generalize Kernel.addProcessToScheduler .mlq _ _ = r'
          intro hadded
          cases hadded with
          | none => exact ⟨rfl, hfilled⟩
          | some hadded => exact ⟨rfl, hadded.modifyCurrent
              (fun b => { b with preemptDisabled := b.preemptDisabled - 1 }) fun _ => rfl⟩

/-- `sched_set_param` answers the same, and does the same if it leaves all processes on the top
level. -/
theorem schedSetParam (p : PcbPtr) (param value : Int) (h : MirrorsTop k l)
    (hlevels : (l.schedSetParam .mlq p param value).1.AllTopLevel) :
    (l.schedSetParam .mlq p param value).2 = (k.schedSetParam .roundRobin p param value).2
      ∧ MirrorsTop (k.schedSetParam .roundRobin p param value).1
          (l.schedSetParam .mlq p param value).1 := by
  unfold Kernel.schedSetParam at hlevels ⊢
  by_cases hinit : p = .initProcess
  · simp only [if_pos hinit]
    exact ⟨trivial, h⟩
  simp only [if_neg hinit] at hlevels ⊢
  by_cases hpriority : param = SCHED_PARAM_PRIORITY
  · simp only [if_pos hpriority]
    split
    · exact ⟨rfl, h⟩
    · exact ⟨rfl, h.modifyPcb p (fun b => { b with priority := value }) fun _ => rfl⟩
  simp only [if_neg hpriority] at hlevels ⊢
  by_cases htickets : param = SCHED_PARAM_TICKETS
  · simp only [if_pos htickets]
    split
    · exact ⟨rfl, h⟩
    · exact ⟨rfl, h.modifyPcb p (fun b => { b with tickets := value }) fun _ => rfl⟩
  simp only [if_neg htickets] at hlevels ⊢
  by_cases hlevel : param = SCHED_PARAM_QUEUE_PRIORITY
  · simp only [if_pos hlevel] at hlevels ⊢
    by_cases hrange : value < 0 ∨ value ≥ (ML_MAX_LEVELS : Int)
    · simp only [if_pos hrange]
      exact ⟨trivial, h⟩
    -- MLQ has all of the levels, so that its clamp does nothing.
    have hclamp : ¬ value ≥ (mlPolicyMlq.nLevels : Int) := fun hhigh => hrange (.inr hhigh)
    simp only [if_neg hrange, SchedAlgorithm.mlPolicy, if_neg hclamp] at hlevels ⊢
    have hdisabled := h.modifyCurrent
      (fun b => { b with preemptDisabled := b.preemptDisabled + 1 }) fun _ => rfl
    have hwritten := hdisabled.modifyPcb p (fun b => { b with queuePriority := value }) fun _ => rfl
    have hassigned : ∀ {k' l' : Kernel} levels levels', MirrorsTop k' l' →
        Kernel.AllTopLevel { l' with queueLevel := levels' } →
        MirrorsTop { k' with queueLevel := levels } { l' with queueLevel := levels' } :=
      fun _ _ h' hlevels' => { h' with levels := hlevels' }
    exact ⟨trivial, (hassigned _ _ hwritten hlevels).modifyCurrent
      (fun b => { b with preemptDisabled := b.preemptDisabled - 1 }) fun _ => rfl⟩
  · simp only [if_neg hlevel]
    exact ⟨trivial, h⟩

/-- `handle_timer_tick`: the callback of MLQ does nothing. -/
theorem handleTimerTick (h : MirrorsTop k l) :
    Option.Rel (fun r r' => r'.2 = r.2 ∧ MirrorsTop r.1 r'.1) (k.handleTimerTick .roundRobin)
      (l.handleTimerTick .mlq) := by
  have hspent : MirrorsTop (k.setCounter k.currentProcess (k.current.counter - 1))
      (l.setCounter l.currentProcess (l.current.counter - 1)) := by
    rw [h.currentProcess, h.current]
    exact h.setCounter _ _
  have hcharged := hspent.modifyCurrent
    (fun b => { b with burstTicks := b.burstTicks + 1 }) fun _ => rfl
  have hcleared : MirrorsTop _ _ := hcharged.modifyCurrent (fun b => b.withCounter 0) fun _ => rfl
  unfold Kernel.handleTimerTick
  simp only [onTick_mlq, Option.bind_eq_bind, Option.bind_some, hcharged.current]
  show Option.Rel _ (if _ then _ else _) _
  split
  · exact .some ⟨rfl, hcharged⟩
  · exact .some ⟨rfl, hcleared⟩

theorem schedule (h : MirrorsTop k l) : MirrorsTop k.schedule.1 l.schedule.1 := by
  unfold Kernel.schedule
  dsimp only
  simp only [h.currentProcess, h.current]
  split
  · have hslept := h.modifyCurrent
      (fun b => { b with estBurst := (b.burstTicks + b.estBurst).tdiv 2, burstTicks := 0 })
      fun _ => rfl
    exact hslept.modifyCurrent (fun b => b.withCounter 0) fun _ => rfl
  · exact h.modifyCurrent (fun b => b.withCounter 0) fun _ => rfl

/-! ### Traps -/

/-- Both end in the same way, in kernels that agree. -/
theorem of_endTogether {r r' : Kernel × Control} (h : EndTogether MirrorsTop r r') :
    r'.2 = r.2 ∧ MirrorsTop r.1 r'.1 := by
  cases h with
  | returns h => exact ⟨rfl, h⟩
  | schedules h => exact ⟨rfl, h.schedule⟩

/-- The code of a trap, if it leaves all processes on the top level. -/
theorem enter (t : Trap) (h : MirrorsTop k l)
    (hlevels : ∀ l', l.enter .mlq t = some (l', .returns) → l'.AllTopLevel) :
    Option.Rel (fun r r' => r'.2 = r.2 ∧ MirrorsTop r.1 r'.1) (k.enter .roundRobin t)
      (l.enter .mlq t) := by
  have hmode : l.InUserMode = k.InUserMode := by
    unfold Kernel.InUserMode
    rw [h.currentProcess, h.current]
  have hfresh : ∀ page, l.PageFresh page = k.PageFresh page := fun page => by
    unfold Kernel.PageFresh
    rw [h.processes]
  have hplain : t.isPlain = true → t ≠ .exit →
      Option.Rel (fun r r' => r'.2 = r.2 ∧ MirrorsTop r.1 r'.1) (k.enter .roundRobin t)
        (l.enter .mlq t) := fun ht hexit => by
    have hrel := lockstep.enter ht hexit (congrArg PCB.resume h.current) h
    revert hrel
    generalize k.enter .roundRobin t = r
    generalize l.enter .mlq t = r'
    intro hrel
    cases hrel with
    | none => exact .none
    | some hends => exact .some (of_endTogether hends)
  cases t with
  | kernelMain page =>
      have hguard : (l.currentProcess = .initProcess ∧ l.current.resume = .kernelMain
          ∧ l.PageFresh page) = (k.currentProcess = .initProcess ∧ k.current.resume = .kernelMain
          ∧ k.PageFresh page) := by
        rw [h.currentProcess, h.current, hfresh]
      refine rel_guarded hguard fun hc => ?_
      have hentered : l.enter .mlq (.kernelMain page) =
          some ((l.copyProcess .mlq PF_KTHREAD page .empty).1.suspendAt .idle, .returns) :=
        if_pos (hguard ▸ hc)
      have hcopied := h.copyProcess PF_KTHREAD page .empty fun pid => hlevels _ hentered pid
      exact ⟨rfl, hcopied.2.suspendAt .idle⟩
  | fork page mm =>
      have hguard : (l.InUserMode ∧ l.PageFresh page) = (k.InUserMode ∧ k.PageFresh page) := by
        rw [hmode, hfresh]
      refine rel_guarded hguard fun hc => ?_
      have hentered : l.enter .mlq (.fork page mm) = some (l.syscallFork .mlq page mm) :=
        if_pos (hguard ▸ hc)
      obtain ⟨hpid, hcopied⟩ := h.copyProcess 0 page mm fun pid => hlevels _ hentered pid
      unfold Kernel.syscallFork
      dsimp only
      rw [hpid]
      exact of_endTogether (hcopied.returnToUser _)
  | setSchedParam pid param value =>
      refine rel_guarded hmode fun hc => ?_
      have hreturned : ∀ r, l.syscallSetSchedParam .mlq pid param value = (r, .returns) →
          r.AllTopLevel := fun r hr => hlevels r (by rw [← hr]; exact if_pos (hmode ▸ hc))
      unfold Kernel.syscallSetSchedParam at hreturned ⊢
      rw [(lockstep.same h).searchProcess] at hreturned ⊢
      cases hfound : k.searchProcess pid with
      | none => exact of_endTogether (h.returnToUser (-1))
      | some p =>
          rw [hfound] at hreturned
          obtain ⟨hresult, hwritten⟩ := h.schedSetParam p param value
            fun pid => hreturned _ rfl pid
          dsimp only
          rw [hresult]
          exact of_endTogether (hwritten.returnToUser _)
  | exit => exact rel_guarded hmode fun _ => of_endTogether h.exitProcess
  | timerTick => exact h.handleTimerTick
  | _ => exact hplain rfl (fun heq => nomatch heq)

/-! ### Runs -/

/-- One step. -/
theorem step (t : Trap) (h : MirrorsTop k l)
    (hlevels : ∀ l', l.step .mlq t = some l' → l'.AllTopLevel) :
    Option.Rel MirrorsTop (k.step .roundRobin t) (l.step .mlq t) := by
  have henter := h.enter t fun l' hl' => hlevels l' (by rw [Kernel.step, hl'])
  unfold Kernel.step
  revert henter
  generalize k.enter .roundRobin t = r
  generalize l.enter .mlq t = r'
  intro henter
  cases henter with
  | none => exact .none
  | @some r r' hends =>
      obtain ⟨k₁, c⟩ := r
      obtain ⟨l₁, c'⟩ := r'
      obtain ⟨rfl, hends⟩ : c' = c ∧ MirrorsTop k₁ l₁ := hends
      cases c' with
      | returns => exact .some hends
      | schedules => exact hends.scheduleMultilevel

/-- Any number of steps. -/
theorem run (ts : List Trap) (h : MirrorsTop k l)
    (hlevels : ∀ ts' l', ts' <+: ts → l.run .mlq ts' = some l' → l'.AllTopLevel) :
    Option.Rel MirrorsTop (k.run .roundRobin ts) (l.run .mlq ts) := by
  induction ts generalizing k l with
  | nil => exact .some h
  | cons t ts ih =>
      have hone := h.step t fun l' hl' => hlevels [t] l' (List.prefix_iff_eq_take.mpr rfl) (by
        rw [Kernel.run, hl']
        rfl)
      unfold Kernel.run
      cases hk : k.step .roundRobin t with
      | none =>
          cases hl : l.step .mlq t with
          | none => exact .none
          | some l₁ => exact nomatch hk ▸ hl ▸ hone
      | some k₁ =>
          cases hl : l.step .mlq t with
          | none => exact nomatch hk ▸ hl ▸ hone
          | some l₁ =>
              rw [hk, hl] at hone
              cases hone with
              | some hone =>
                  refine ih hone fun ts' l' hprefix hrun => hlevels (t :: ts') l'
                    (List.cons_prefix_cons.mpr ⟨rfl, hprefix⟩) ?_
                  rw [Kernel.run, hl]
                  exact hrun

end MirrorsTop

/-- The two kernels that boot. -/
theorem mirrorsTop_boot (timerClo : Nat → BitVec 32) :
    MirrorsTop (boot timerClo) (boot timerClo) where
  pcb := rfl
  currentProcess := rfl
  processes := rfl
  nProcesses := rfl
  uartOwner := rfl
  uartBuffer := rfl
  uartHead := rfl
  uartTail := rfl
  ttbr0 := rfl
  top := rfl
  lower _ _ := rfl
  pids p := by
    unfold boot
    dsimp only
    split <;> decide
  levels _ _ := rfl

end Kernel

/-- The scheduling state under MLQ is the one under round robin. -/
structure Kernel.SameSchedule (k l : Kernel) : Prop where
  currentProcess : l.currentProcess = k.currentProcess
  state : ∀ p, (l.pcb p).state = (k.pcb p).state
  counter : ∀ p, (l.pcb p).counter = (k.pcb p).counter
  estBurst : ∀ p, (l.pcb p).estBurst = (k.pcb p).estBurst
  burstTicks : ∀ p, (l.pcb p).burstTicks = (k.pcb p).burstTicks
  pendingSignals : ∀ p, (l.pcb p).pendingSignals = (k.pcb p).pendingSignals
  preemptDisabled : ∀ p, (l.pcb p).preemptDisabled = (k.pcb p).preemptDisabled
  processes : l.processes = k.processes
  /-- From head to tail. -/
  order : l.linkedIn (.mlQueue 0) = k.linkedIn .readyQueue
  tail : (l.queues (.mlQueue 0)).tail = (k.queues .readyQueue).tail
  lower : ∀ q, q ≠ 0 → l.queues (.mlQueue q) = QUEUE_INIT

theorem Kernel.MirrorsTop.sameSchedule {k l : Kernel} (h : MirrorsTop k l) : SameSchedule k l := by
  have hwalk : ∀ (fuel : Nat) (p : Option PcbPtr), l.walk fuel p = k.walk fuel p := by
    intro fuel
    induction fuel with
    | zero => exact fun p => by cases p <;> rfl
    | succ fuel ih =>
        intro p
        cases p with
        | none => rfl
        | some p => simp only [Kernel.walk, h.pcb, ih]
  constructor
  case currentProcess => exact h.currentProcess
  case processes => exact h.processes
  case order => rw [linkedIn, linkedIn, h.top, hwalk]
  case tail => rw [h.top]
  case lower => exact h.lower
  all_goals
    intro p
    rw [h.pcb]

/-- As long as no process has another queue level than 0, a run under MLQ goes through the same
scheduling states as the run of the same events under round robin. -/
theorem run_mlq_sameSchedule_roundRobin (timerClo : Nat → BitVec 32) (ts : List Trap)
    (hlevels : ∀ ts' l, ts' <+: ts → (boot timerClo).run .mlq ts' = some l → l.AllTopLevel) :
    ∀ ts', ts' <+: ts →
      Option.Rel SameSchedule ((boot timerClo).run .roundRobin ts')
        ((boot timerClo).run .mlq ts') := by
  intro ts' hprefix
  have hrun := (mirrorsTop_boot timerClo).run ts' fun ts'' l hprefix' =>
    hlevels ts'' l (hprefix'.trans hprefix)
  revert hrun
  generalize (boot timerClo).run .roundRobin ts' = r
  generalize (boot timerClo).run .mlq ts' = r'
  intro hrun
  cases hrun with
  | none => exact .none
  | some h => exact .some h.sameSchedule

/-- The first process enters user mode, forks, writes its level and yields to its child. -/
def forkAndYield : List Trap :=
  [.kernelMain (some 1), .timerTick, .moveToUserMode .empty .zeroed, .fork (some 2) .empty,
    .setSchedParam 1 SCHED_PARAM_QUEUE_PRIORITY 0, .yield]

theorem run_mlq_sameSchedule_roundRobin_forks :
    ∃ k l,
      (boot fun _ => 0).run .roundRobin forkAndYield = some k
        ∧ (boot fun _ => 0).run .mlq forkAndYield = some l
        ∧ l.currentProcess = .page 2 ∧ SameSchedule k l := by
  have hlevels : ∀ ts' ∈ forkAndYield.inits,
      ((boot fun _ => 0).run .mlq ts').all (fun l => l.AllTopLevel) = true := by
    decide +kernel
  have hrun : ((boot fun _ => 0).run .mlq forkAndYield).map (·.currentProcess)
      = some (.page 2) := by
    decide +kernel
  obtain ⟨l, hl, hcurrent⟩ := Option.map_eq_some_iff.mp hrun
  have hsame := run_mlq_sameSchedule_roundRobin (fun _ => 0) forkAndYield
    (fun ts' l' hprefix hl' => by
      have hall := hlevels ts' ((List.mem_inits ts' _).mpr hprefix)
      rw [hl'] at hall
      exact of_decide_eq_true hall) forkAndYield List.prefix_rfl
  rw [hl] at hsame
  cases hk : (boot fun _ => 0).run .roundRobin forkAndYield with
  | none =>
      rw [hk] at hsame
      exact nomatch hsame
  | some k =>
      rw [hk] at hsame
      cases hsame with
      | some hsame => exact ⟨k, l, rfl, hl, hcurrent, hsame⟩

end DemoOS
