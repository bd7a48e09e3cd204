import DemoOS.Proofs.Scheduler.Picks

/-!
# `DemoOS.Proofs.Scheduler.AgingSelection`: the epoch loop ends

Nothing in the kernel keeps a counter above zero: a tick inside a critical section lowers
it further, and the process stays queued with it. The `while (1)` of
`_schedule_priority_aging` ends all the same, because a recharge moves every queued counter
towards its process's priority, which is at least 1.

* `priority_pos`: no process has a priority below 1.
* `schedulePriorityAging_chooses`: with any counters the loop ends, after at most one
  recharge if none of them is negative, and dispatches the first of the processes with the
  largest counter.
* `agingSelection_terminates`: both together, for every state in which a selection starts.
-/

set_option autoImplicit false

namespace DemoOS

open Kernel Support

/-- The same state with other counters. -/
def Kernel.withCounters (k : Kernel) (c : PcbPtr → Int) : Kernel :=
  { k with pcb := fun p => (k.pcb p).withCounter (c p) }

/-- The recharges that a trace records. -/
def rechargesIn (t : List KernelEvent) : Nat :=
  t.countP fun e => match e with
    | .recharged _ => true
    | _ => false

/-- The queue that `_schedule_priority_aging` searches, without the processes that a signal
removes. -/
def Kernel.contenders (k : Kernel) : List PcbPtr :=
  (k.linkedIn .readyQueue).filter fun p => !(k.pcb p).signalled

section Counters
variable {alg : SchedAlgorithm} {k : Kernel} {s : Sched} {c : PcbPtr → Int}

/-- The abstract state with other counters. -/
def Sched.withCounters (s : Sched) (c : PcbPtr → Int) : Sched :=
  { s with block := fun p => (s.block p).withCounter (c p) }

/-- The counters are no part of the lists. -/
theorem Refines.withCounters (h : Refines k s) (c : PcbPtr → Int) :
    Refines (k.withCounters c) (s.withCounters c) := by
  have hview : (k.withCounters c).view = (s.withCounters c).block := by
    funext p
    show (k.view p).withCounter (c p) = (s.block p).withCounter (c p)
    rw [h.block]
  exact ⟨⟨h.linked.queue, h.linked.disjoint⟩, hview, h.currentProcess, h.processes,
    h.nProcesses, h.queueLevel, h.uartOwner, h.trace⟩

theorem Sched.Inv.withCounters (h : s.Inv alg) (c : PcbPtr → Int) :
    (s.withCounters c).Inv alg :=
  h.recount s.trace fun r => ⟨c r, rfl⟩

end Counters

theorem rechargesIn_append (t u : List KernelEvent) :
    rechargesIn (t ++ u) = rechargesIn t + rechargesIn u :=
  List.countP_append

section Traces
variable {alg : SchedAlgorithm} {s s₁ : Sched} {as : List Action}

/-- A search records its recharges. -/
theorem Exec.rechargesIn_trace (h : Exec alg s as s₁) (has : ∀ a ∈ as, a.Selects) :
    rechargesIn s₁.trace = rechargesIn s.trace + recharges as := by
  induction as generalizing s with
  | nil =>
      rw [show s₁ = s from h]
      rfl
  | cons a as ih =>
      have hrest := ih h.2 fun b hb => has b (by simp [hb])
      have ha := has a (by simp)
      rw [hrest]
      cases a with
      | drop p =>
          -- A signal logs a kill or a stop.
          have hnone : rechargesIn ((s.block p).signalEvents p) = 0 := by
            unfold PCB.signalEvents
            split
            · rfl
            · split <;> rfl
          have htrace : ((Action.drop p).apply alg s).trace
              = s.trace ++ (s.block p).signalEvents p := rfl
          rw [htrace, rechargesIn_append, hnone]
          rfl
      | edit p e =>
          cases e with
          | clearResume => rfl
          | _ => exact absurd ha id
      | recharge =>
          have htrace : ((Action.recharge).apply alg s).trace
              = s.trace ++ [.recharged (s.queue .readyQueue)] := rfl
          have hcount : recharges (Action.recharge :: as) = recharges as + 1 :=
            List.countP_cons_of_pos rfl
          rw [htrace, hcount, rechargesIn_append]
          show rechargesIn s.trace + 1 + recharges as = rechargesIn s.trace + (recharges as + 1)
          omega
      | _ => exact absurd ha id

end Traces

section Dispatch
variable {k : Kernel} {next : Option PcbPtr}

/-- The dispatch gives the CPU to the process that was found, or to init. -/
theorem dispatch_currentProcess :
    (k.dispatch next).currentProcess = next.getD .initProcess := by
  unfold dispatch switchToProcess
  dsimp only
  split
  · next hcur => exact hcur
  · rfl

theorem dispatch_rechargesIn : rechargesIn (k.dispatch next).trace = rechargesIn k.trace := by
  have htrace : (k.dispatch next).trace = k.trace ++ [.dispatched (next.getD .initProcess)] := by
    unfold dispatch switchToProcess
    dsimp only
    split
    · rfl
    · split <;> rfl
  rw [htrace, rechargesIn_append]
  rfl

theorem requeueOutgoing_rechargesIn :
    rechargesIn (k.requeueOutgoing fun k p => k.enqueueProcessTo .readyQueue p).trace
      = rechargesIn k.trace := by
  unfold requeueOutgoing
  dsimp only
  split
  · next hcur =>
      have htrace : (k.preemptDisable.enqueueProcessTo .readyQueue
          k.preemptDisable.currentProcess).trace
          = k.trace ++ [.enqueued .readyQueue k.preemptDisable.currentProcess] := by
        unfold enqueueProcessTo
        rw [if_neg hcur.1]
        dsimp only
        split <;> rfl
      rw [htrace, rechargesIn_append]
      rfl
  · rfl

end Dispatch

section Runs
variable {k : Kernel}

/-- Every process in the table has a priority of at least 1. -/
theorem priority_pos {alg : SchedAlgorithm} (hk : Reachable alg k) {i : Nat} {p : PcbPtr}
    (hi : i < N_PROCESSES) (hp : k.processes i = some p) : 1 ≤ (k.pcb p).priority := by
  obtain ⟨s, hs⟩ := reachable_settled hk
  have hreg : s.Registered p := ⟨i, hi, hs.refines.processes ▸ hp⟩
  have hpriority := hs.inv.points.priority hreg
  rw [hs.refines.block_eq] at hpriority
  exact hpriority

/-- Whatever the counters of the processes are when the selection starts, the epoch loop
ends. -/
theorem schedulePriorityAging_chooses (hk : AtPick .priorityAging k) (c : PcbPtr → Int) :
    let k₀ := k.withCounters c
    let kᵣ := k₀.requeueOutgoing fun k p => k.enqueueProcessTo .readyQueue p
    ∃ k' n, k₀.schedulePriorityAging .priorityAging = some k'
      ∧ rechargesIn k'.trace = rechargesIn k.trace + n
      ∧ (kᵣ.contenders = [] → k'.currentProcess = .initProcess)
      ∧ (kᵣ.contenders ≠ [] →
        FirstMax (fun p => (kᵣ.pcb p).aged n) kᵣ.contenders k'.currentProcess)
      ∧ ((∀ p ∈ kᵣ.contenders, 0 ≤ c p) → n ≤ 1) := by
  intro k₀ kᵣ
  obtain ⟨s, hs, hinv⟩ := atPick_refines hk
  have h₀ := hs.withCounters c
  have hinv₀ := hinv.withCounters c
  have h₁ : Refines kᵣ ((s.withCounters c).requeued .priorityAging) :=
    requeueOutgoing_refines h₀ hinv₀ rfl
  have hinv₁ := inv_requeued hinv₀
  obtain ⟨hlinkedIn, hremoved⟩ := requeueOutgoing_reads h₀ hinv₀
  have hcontenders : ((s.withCounters c).requeued .priorityAging).contenders
      = kᵣ.contenders := by
    show List.filter _ _ = List.filter _ (kᵣ.linkedIn .readyQueue)
    rw [show kᵣ.linkedIn .readyQueue = _ from congrFun hlinkedIn .readyQueue, ← hremoved]
    rfl
  have hblock : ∀ p, (((s.withCounters c).requeued .priorityAging).block p).aged
      = (kᵣ.pcb p).aged := fun p => by
    rw [h₁.block_eq]
    rfl
  obtain ⟨k₁, as, s₁, next, hrun, hsearch, -, -, -, hchoice⟩ := agingLoop_search h₁ hinv₁
    (agingFuel_rounds h₁ (congrFun hlinkedIn .readyQueue)) (by unfold agingFuel; omega)
  have hchoice := hchoice
  -- The trace of the search, whether or not it took a process out of the queue.
  have htrace : k₁.trace = s₁.trace := by
    cases next with
    | none => exact (hsearch.nobody rfl).trace
    | some p => exact (hsearch.found p rfl).2.2.trace
  have hcount : rechargesIn (k₁.dispatch next).trace = rechargesIn k.trace + recharges as := by
    rw [dispatch_rechargesIn, htrace, hsearch.exec.rechargesIn_trace hsearch.selects, ← h₁.trace,
      requeueOutgoing_rechargesIn]
    rfl
  refine ⟨k₁.dispatch next, recharges as, (congrArg (· >>= _) hrun).trans rfl, hcount,
    fun hnil => ?_, fun hne => ?_, fun hnonneg => ?_⟩
  · cases next with
    | none => exact dispatch_currentProcess
    | some p =>
        obtain ⟨u, v, hsplit, -⟩ := hchoice.best p rfl
        rw [hcontenders, hnil] at hsplit
        simp at hsplit
  · cases next with
    | none => exact absurd (hcontenders ▸ hchoice.nobody rfl) hne
    | some p =>
        rw [dispatch_currentProcess, ← hcontenders]
        refine (hchoice.best p rfl).congr fun r _ => ?_
        exact (congrFun (hblock r) _).symm
  · refine hchoice.once fun p hp => ?_
    have hcounter : ((s.withCounters c).requeued .priorityAging).counter p = c p :=
      Sched.requeued_field PCB.counter (fun _ _ => rfl) (fun _ => rfl) p
    rw [hcounter]
    exact hnonneg p (hcontenders ▸ hp)

/-- In every reachable state all priorities are at least 1, and whatever the counters are,
the selection loop of `_schedule_priority_aging` ends after finitely many recharges: with
the first of the processes with the largest counter, or with init if the queue is empty,
and after at most one recharge if no counter in the queue is negative. -/
theorem agingSelection_terminates :
    (∀ alg k, Reachable alg k → ∀ i < N_PROCESSES, ∀ p, k.processes i = some p →
      1 ≤ (k.pcb p).priority)
    ∧ ∀ k, AtPick .priorityAging k → ∀ c : PcbPtr → Int,
      let k₀ := k.withCounters c
      let kᵣ := k₀.requeueOutgoing fun k p => k.enqueueProcessTo .readyQueue p
      ∃ k' n, k₀.schedulePriorityAging .priorityAging = some k'
        ∧ rechargesIn k'.trace = rechargesIn k.trace + n
        ∧ (kᵣ.contenders = [] → k'.currentProcess = .initProcess)
        ∧ (kᵣ.contenders ≠ [] →
          FirstMax (fun p => (kᵣ.pcb p).aged n) kᵣ.contenders k'.currentProcess)
        ∧ ((∀ p ∈ kᵣ.contenders, 0 ≤ c p) → n ≤ 1) :=
  ⟨fun _ _ hk _ hi _ hp => priority_pos hk hi hp,
    fun _ hk c => schedulePriorityAging_chooses hk c⟩

/-- Two processes that ticks inside critical sections left with a counter of -5. -/
theorem agingSelection_terminates_negative :
    ∃ k, (Kernel.boot fun _ => 0).run .priorityAging [.kernelMain (some 0), .timerTick,
        .moveToUserMode .empty .zeroed, .fork (some 1) .empty] = some k
      ∧ (∀ i < N_PROCESSES, ∀ p, k.processes i = some p → 1 ≤ (k.pcb p).priority)
      ∧ ∃ k' n, (k.withCounters fun _ => -5).schedulePriorityAging .priorityAging = some k'
        ∧ rechargesIn k'.trace = rechargesIn k.trace + n := by
  have hrun : ((Kernel.boot fun _ => 0).run .priorityAging [.kernelMain (some 0), .timerTick,
      .moveToUserMode .empty .zeroed, .fork (some 1) .empty]).map (fun _ => ()) = some () := by
    decide +kernel
  obtain ⟨k, hk, -⟩ := Option.map_eq_some_iff.mp hrun
  have hreach := reachable_run (.boot _) hk
  refine ⟨k, hk, agingSelection_terminates.1 _ _ hreach, ?_⟩
  obtain ⟨k', n, hpick, hcount, -⟩ :=
    agingSelection_terminates.2 k (.reachable hreach) fun _ => -5
  exact ⟨k', n, hpick, hcount⟩

end Runs

end DemoOS
