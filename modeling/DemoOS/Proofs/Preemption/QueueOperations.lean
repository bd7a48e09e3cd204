import DemoOS.Proofs.Preemption.Boost
import DemoOS.Proofs.Preemption.SortedInsertion
import DemoOS.Proofs.Scheduler.ReadyQueues

/-!
# `DemoOS.Proofs.Preemption.QueueOperations`: a queue operation and one interrupt

A call of one of the four queue functions is cut between two statements, a handler runs to its
end, and the call goes on.

* `called_returns`: without an interrupt, the statements do what the operations of
  `Libs/Scheduler.lean` do at once;
* `atPick_called`: the states of the runs meet the hypotheses on the queues;
* `interrupted_iff`: behind the interrupt, the call leaves every ready process in one queue if
  and only if the handler is harmless at the place where it has cut the call;
* `interrupted_enqueueHead`: a run in which the UART handler is not.
-/

set_option autoImplicit false

namespace DemoOS

open Support Kernel

variable {alg : SchedAlgorithm} {k k₁ k₂ k' : Kernel} {Q : QueueId → List PcbPtr} {q : QueueId}
  {p c : PcbPtr} {x y : QueuePoint} {out out' : Option PcbPtr} {op : QueueOperation}

/-! ### Without an interrupt -/

/-- From `x` the function runs to its return in `k'`. -/
def Kernel.Returns (k : Kernel) (x : QueuePoint) (k' : Kernel) (out : Option PcbPtr) : Prop :=
  ∃ n, k.queueRun n x = some (k', .returns out)

theorem Kernel.Returns.goto (h : k.queueStatement x = some (k₁, .goto y))
    (hrun : k₁.Returns y k' out) : k.Returns x k' out := by
  obtain ⟨n, hrun⟩ := hrun
  refine ⟨n + 1, ?_⟩
  rw [queueRun, h]
  exact hrun

theorem Kernel.Returns.last (h : k.queueStatement x = some (k', .returns out)) :
    k.Returns x k' out := by
  refine ⟨1, ?_⟩
  rw [queueRun, h]

theorem returns_enqueue (hp : p ≠ .initProcess) :
    k.Returns (.enqueueClear q p) (k.enqueueProcessTo q p) none := by
  refine .goto rfl (.goto rfl ?_)
  unfold enqueueProcessTo
  rw [if_neg hp]
  dsimp only
  generalize ((k.setLink p none).setState p .ready).log (.enqueued q p) = k₁
  split
  · next htail =>
      refine .goto (y := .enqueueHead q p) (by rw [queueStatement, if_pos htail])
        (.goto rfl (.last ?_))
      rw [queueStatement, setTail, setHead_queues_self]
      unfold setHead setQueue
      simp only [Function.update_idem]
  · next t htail =>
      refine .goto (y := .enqueueLink q p) (by rw [queueStatement, htail, if_neg (fun h => by cases h)])
        (.goto (by rw [queueStatement, htail]; rfl) (.last rfl))

theorem returns_dequeue :
    k.Returns (.dequeueTest q) (k.dequeueProcessFrom q).1 (k.dequeueProcessFrom q).2 := by
  cases hhead : (k.queues q).head with
  | none =>
      simp only [dequeueProcessFrom, hhead]
      exact .last (by rw [queueStatement, if_pos hhead])
  | some p =>
      rw [dequeueProcessFrom_some hhead]
      refine .goto (y := .dequeueRead q) (by rw [queueStatement, hhead, if_neg (fun h => by cases h)])
        (.goto (by rw [queueStatement, hhead]; rfl) (.goto rfl ?_))
      have hnext : ((k.setHead q (k.pcb p).nextReady).queues q).head = k.next p := by
        rw [setHead_queues_self]
        rfl
      by_cases hnone : k.next p = none
      · refine .goto (y := .dequeueTail q p) (by rw [queueStatement, hnext, if_pos hnone])
          (.goto rfl (.last ?_))
        rw [queueStatement, if_pos hnone, setTail, hnext]
        unfold setHead setQueue
        simp only [Function.update_idem]
      · refine .goto (y := .dequeueClear p) (by rw [queueStatement, hnext, if_neg hnone])
          (.last ?_)
        rw [queueStatement, if_neg hnone]
        rfl

theorem returns_remove {previous : Option PcbPtr} :
    k.Returns (.removeTest q previous p) (k.removeProcessFrom q previous p) (some p) := by
  have hend : ∀ k₁ : Kernel, k₁.Returns (.removeTailTest q previous p)
      ((k₁.setQueue q ⟨(k₁.queues q).head,
        if (k₁.queues q).tail = some p then previous else (k₁.queues q).tail⟩).setLink p none)
      (some p) := by
    intro k₁
    by_cases htail : (k₁.queues q).tail = some p
    · rw [if_pos htail]
      exact .goto (y := .removeTail q previous p) (by rw [queueStatement, if_pos htail])
        (.goto rfl (.last rfl))
    · rw [if_neg htail]
      refine .goto (y := .removeClear p) (by rw [queueStatement, if_neg htail]) (.last ?_)
      have hself : k₁.setQueue q ⟨(k₁.queues q).head, (k₁.queues q).tail⟩ = k₁ := setTail_self rfl
      rw [hself]
      rfl
  unfold removeProcessFrom
  cases previous with
  | none => exact .goto rfl (.goto rfl (hend _))
  | some r => exact .goto rfl (.goto rfl (hend _))

/-- The loop of `enqueue_sorted_to`. -/
theorem returns_loop {v : List PcbPtr} (fuel : Nat) (hs : Segment k.next (some c) (c :: v) none)
    (hfuel : v.length ≤ fuel)
    (hrun : k.Returns (.sortedLink q p (k.sortedPosition (k.pcb p).estBurst fuel c)) k' out) :
    k.Returns (.sortedLoop q p c) k' out := by
  induction v generalizing c fuel with
  | nil =>
      have hnext : (k.pcb c).nextReady = none := hs.2
      have hpos : k.sortedPosition (k.pcb p).estBurst fuel c = c := by
        cases fuel <;> simp [sortedPosition, hnext]
      rw [hpos] at hrun
      exact .goto (by rw [queueStatement, if_pos hnext]) hrun
  | cons d v ih =>
      have hnext : (k.pcb c).nextReady = some d := hs.2.1
      cases fuel with
      | zero => exact absurd hfuel (Nat.not_succ_le_zero _)
      | succ fuel =>
          simp only [sortedPosition, hnext] at hrun
          refine .goto (y := .sortedCompare q p c) (by
            rw [queueStatement, if_neg (by rw [hnext]; exact fun h => by cases h)]) ?_
          split at hrun
          · next hlt =>
              exact .goto (by rw [queueStatement, hnext, Option.map_some, if_pos hlt]) hrun
          · next hlt =>
              refine .goto (y := .sortedAdvance q p c) (by
                rw [queueStatement, hnext, Option.map_some, if_neg hlt]) (.goto (by
                  rw [queueStatement, hnext]; rfl) ?_)
              exact ih fuel ⟨rfl, hs.2.2⟩ (Nat.le_of_succ_le_succ hfuel) hrun

theorem returns_enqueueSorted (hk : k.Linked Q) (hlen : (Q q).length ≤ N_PROCESSES)
    (hp : p ≠ .initProcess) (hfree : ∀ q, p ∉ Q q) :
    k.Returns (.sortedClear q p) (k.enqueueSortedTo q p) none := by
  refine .goto rfl (.goto rfl ?_)
  have hk₁ : (((k.setLink p none).setState p .ready).log (.enqueued q p)).Linked Q :=
    ((hk.setLink_free hfree none).modifyPcb (fun b => b.withState .ready) fun _ => rfl).log _
  unfold enqueueSortedTo
  rw [if_neg hp]
  dsimp only
  generalize ((k.setLink p none).setState p .ready).log (.enqueued q p) = k₁ at hk₁
  split
  · next hhead =>
      refine .goto (y := .sortedHead q p) (by rw [queueStatement, if_pos hhead])
        (.goto rfl (.last ?_))
      rw [queueStatement, setTail, setHead_queues_self]
      unfold setHead setQueue
      simp only [Function.update_idem]
  · next h hhead =>
      refine .goto (y := .sortedFirst q p) (by rw [queueStatement, hhead, if_neg (fun h => by cases h)]) ?_
      split
      · next hlt =>
          refine .goto (y := .sortedFrontLink q p) (by
            rw [queueStatement, hhead, Option.map_some, if_pos hlt]) (.goto rfl (.last ?_))
          rw [queueStatement, hhead]
          rfl
      · next hlt =>
          obtain ⟨v, hv⟩ : ∃ v, Q q = h :: v := by
            rw [(hk₁.queue q).head_eq] at hhead
            exact List.head?_eq_some_iff.mp hhead
          have hwalk := (hk₁.queue q).walk
          rw [hhead, hv] at hwalk
          have hpos := sortedPosition_mem hk₁ hlen hhead (k₁.pcb p).estBurst
          refine .goto (y := .sortedStart q p) (by
            rw [queueStatement, hhead, Option.map_some, if_neg hlt]) (.goto (by
              rw [queueStatement, hhead]; rfl) (returns_loop N_PROCESSES hwalk (by
                rw [hv] at hlen
                exact Nat.le_of_succ_le hlen) (.goto rfl (.goto rfl ?_))))
          generalize k₁.sortedPosition (k₁.pcb p).estBurst N_PROCESSES h = c at hpos ⊢
          have hpc : p ≠ c := fun he => hfree q (he ▸ hpos)
          have hnext : ((((k₁.setLink p (k₁.pcb c).nextReady)).setLink c (some p)).pcb p).nextReady
              = (k₁.pcb c).nextReady := by
            show (((k₁.setLink p (k₁.pcb c).nextReady)).setLink c (some p)).next p = _
            rw [next_setLink, Function.update_of_ne hpc, next_setLink, Function.update_self]
          by_cases hnone : (k₁.pcb c).nextReady = none
          · refine .goto (y := .sortedTail q p) (by
              rw [queueStatement, hnext, if_pos hnone]) (.last ?_)
            rw [queueStatement, if_pos hnone]
            rfl
          · refine .last ?_
            rw [queueStatement, hnext, if_neg hnone, if_neg hnone]
            exact congrArg (fun k => some (k, QueueFlow.returns none)) (setTail_self rfl).symm

/-! ### The calls -/

/-- The arguments are such that the statements do what the operation does at once. -/
theorem called_returns (h : op.Called alg k Q) :
    k.Returns op.start (op.result k).1 (op.result k).2 := by
  have hlen : ∀ q, (Q q).length ≤ N_PROCESSES :=
    (Population.mk h.process h.ready h.init).length_le h.linked
  have hargs := h.args
  cases op with
  | enqueueProcessTo q p => exact returns_enqueue hargs.2.2.2.1
  | enqueueSortedTo q p =>
      exact returns_enqueueSorted h.linked (hlen q) hargs.2.2.2.1 hargs.2.2.2.2.2
  | dequeueProcessFrom q => exact returns_dequeue
  | removeProcessFrom q previous p => exact returns_remove

/-- A call begins at a place where the lists hold the ready processes. -/
theorem QueueOperation.Called.start_at (h : op.Called alg k Q) : op.start.At alg k Q := by
  have hpop : Population k Q op.process := ⟨h.process, h.ready, h.init⟩
  have hargs := h.args
  cases op with
  | enqueueProcessTo q p | enqueueSortedTo q p =>
      obtain ⟨ha, hu, hp, hne, hst, hfree⟩ := hargs
      exact ⟨hpop, ⟨ha, hu⟩, h.linked, hp, hne, hst, hfree⟩
  | dequeueProcessFrom q => exact ⟨hpop, hargs, h.linked⟩
  | removeProcessFrom q previous p => exact ⟨hpop, hargs.1, hargs.2.1, h.linked, hargs.2.2⟩

/-- Wherever the kernel selects a process, the queues are as the calls expect them. -/
theorem atPick_called (hk : AtPick alg k) : ∃ Q, (∀ op : QueueOperation, op.Args alg k Q →
      op.Called alg k Q)
    ∧ ∀ p, k.IsProcess p → p ≠ .initProcess → (k.pcb p).state ≠ .ready → ∀ q, p ∉ Q q := by
  obtain ⟨s, h, hinv⟩ := atPick_refines hk
  have hready : ∀ p, k.IsProcess p → p ≠ .initProcess →
      ((k.pcb p).state = .ready ↔ ∃ q, p ∈ s.queue q) := fun p hp hne => by
    rw [h.state_eq]
    exact hinv.queues.linked (h.isProcess_iff.mp hp) hne
  refine ⟨s.queue, fun op hargs => ⟨h.linked, fun q p hp => ?_, fun p hp hne _ hst => ?_, ?_, hargs⟩,
    fun p hp hne hst q hq => hst ((hready p hp hne).mpr ⟨q, hq⟩)⟩
  · obtain ⟨hreg, hne, -⟩ := hinv.queues.member hp
    have hprocess := h.isProcess_iff.mpr hreg
    refine ⟨hprocess, hne, ?_⟩
    rw [(hready p hprocess hne).mpr ⟨q, hp⟩]
    exact nofun
  · exact (hready p hp hne).mp hst
  · rw [h.state_eq]
    rcases hinv.cpu.initState with hst | hst | hst <;> rw [hst] <;> exact nofun

/-! ### With an interrupt -/

/-- What a handler does to an unfinished operation. -/
theorem handled_iff (h : x.At alg k Q) {i : QueueInterrupt} (hi : k.interrupt alg i = some k₂) :
    k₂.Completed x ↔ i.Harmless alg k x := by
  cases i with
  | wakeUp w =>
      rw [interrupt] at hi
      split at hi
      · next hw =>
          obtain rfl := Option.some.inj hi
          by_cases halg : alg = .sjf
          · subst halg
            exact wakeUp_sorted_iff h hw.1 hw.2
          · exact wakeUp_fifo_iff halg h hw.1 hw.2
      · cases hi
  | boost => exact boost_iff h hi

/-- A call is cut behind `n` statements, and a handler runs to its end. The call then leaves
every ready process in one queue, once, and the tails at the last processes, if and only if the
handler is harmless at this place. -/
theorem interrupted_iff (h : op.Called alg k Q) {n : Nat}
    (hrun : k.queueRun n op.start = some (k₁, .goto x)) {i : QueueInterrupt}
    (hi : k₁.interrupt alg i = some k₂) : k₂.Completed x ↔ i.Harmless alg k₁ x := by
  obtain ⟨Q', hx⟩ := h.start_at.run hrun
  exact handled_iff hx hi

/-- Process 1 waits for input, and its child runs. -/
def waiterAndChild : Option Kernel :=
  (Kernel.boot fun _ => 0).run .roundRobin [.kernelMain (some 0), .timerTick,
    .moveToUserMode .empty .zeroed, .fork (some 1) .empty, .input 5]

/-- The selection puts the child back into the queue, and the input arrives meanwhile. -/
theorem waiterAndChild_cut {n : Nat}
    (hcut : (waiterAndChild.bind fun k => (k.queueRun n (.enqueueClear .readyQueue (.page 1))).map
      fun r => (r.2, decide (r.1.IsProcess (.page 0)
        ∧ (r.1.pcb (.page 0)).state = .waitingUartInput))) = some (.goto x, true)) :
    ∃ k₀ k₁ k₂ Q, waiterAndChild = some k₀
      ∧ (QueueOperation.enqueueProcessTo .readyQueue (.page 1)).Called .roundRobin k₀ Q
      ∧ k₀.queueRun n (.enqueueClear .readyQueue (.page 1)) = some (k₁, .goto x)
      ∧ k₁.interrupt .roundRobin (.wakeUp (.page 0)) = some k₂ := by
  obtain ⟨k₀, hk₀, hcut⟩ := Option.bind_eq_some_iff.mp hcut
  obtain ⟨⟨k₁, flow⟩, hk₁, hend⟩ := Option.map_eq_some_iff.mp hcut
  obtain ⟨rfl, hwait⟩ := Prod.mk.inj hend
  have hchild : (waiterAndChild.map fun k => decide (k.IsProcess (.page 1)
      ∧ (k.pcb (.page 1)).state = .running)) = some true := by decide +kernel
  rw [hk₀] at hchild
  obtain ⟨hp, hst⟩ := of_decide_eq_true (Option.some.inj hchild)
  obtain ⟨Q, hcalled, hfree⟩ := atPick_called (.reachable (reachable_run (.boot _) hk₀))
  refine ⟨k₀, k₁, _, Q, hk₀, hcalled _ ⟨nofun, trivial, hp, nofun, ?_, hfree _ hp nofun ?_⟩, hk₁,
    if_pos (of_decide_eq_true hwait)⟩
  · rw [hst]
    exact nofun
  · rw [hst]
    exact nofun

/-- The input arrives before the test of the tail. -/
theorem interrupted_enqueueTest :
    ∃ k₀ k₁ k₂, waiterAndChild = some k₀
      ∧ k₀.queueRun 2 (.enqueueClear .readyQueue (.page 1))
        = some (k₁, .goto (.enqueueTest .readyQueue (.page 1)))
      ∧ k₁.interrupt .roundRobin (.wakeUp (.page 0)) = some k₂
      ∧ k₂.Completed (.enqueueTest .readyQueue (.page 1)) := by
  obtain ⟨k₀, k₁, k₂, Q, hk₀, hcalled, hk₁, hk₂⟩ := waiterAndChild_cut (n := 2)
    (x := .enqueueTest .readyQueue (.page 1)) (by decide +kernel)
  exact ⟨k₀, k₁, k₂, hk₀, hk₁, hk₂, (interrupted_iff hcalled hk₁ hk₂).mpr trivial⟩

/-- The input arrives behind the test, on an empty queue: the woken process becomes its head and
its tail, and both are overwritten with the child. -/
theorem interrupted_enqueueHead :
    ∃ k₀ k₁ k₂, waiterAndChild = some k₀
      ∧ k₀.queueRun 3 (.enqueueClear .readyQueue (.page 1))
        = some (k₁, .goto (.enqueueHead .readyQueue (.page 1)))
      ∧ k₁.interrupt .roundRobin (.wakeUp (.page 0)) = some k₂
      ∧ ¬ k₂.Completed (.enqueueHead .readyQueue (.page 1)) := by
  obtain ⟨k₀, k₁, k₂, Q, hk₀, hcalled, hk₁, hk₂⟩ := waiterAndChild_cut (n := 3)
    (x := .enqueueHead .readyQueue (.page 1)) (by decide +kernel)
  obtain ⟨Q', hx⟩ := hcalled.start_at.run hk₁
  exact ⟨k₀, k₁, k₂, hk₀, hk₁, hk₂, fun hdone =>
    (handled_iff hx hk₂).mp hdone ⟨nofun, rfl⟩⟩

end DemoOS
