import DemoOS.Preemption.Queues
import DemoOS.Proofs.Scheduler.Refinement

/-!
# `DemoOS.Proofs.Preemption.Queues`: the places of the queue operations

`QueuePoint.At` says how the pointers and the lists are related at each place of the four
functions: the lists are sound, or a process is linked that the tail does not know yet
(`TailBefore`), or one is unlinked that is still the tail (`TailStale`). Every statement leads
from such a place to the next one (`At.proceeds`), so from each of them the function returns
with every ready process in one queue (`At.completed`), and an operation that has begun well is
at one of them after any number of statements (`At.run`).
-/

set_option autoImplicit false

namespace DemoOS

open Support

namespace Kernel

section Ends
variable (k : Kernel) (q : QueueId) (x : Option PcbPtr)

@[simp] theorem setHead_next : (k.setHead q x).next = k.next := rfl
@[simp] theorem setTail_next : (k.setTail q x).next = k.next := rfl
@[simp] theorem setHead_pcb : (k.setHead q x).pcb = k.pcb := rfl
@[simp] theorem setTail_pcb : (k.setTail q x).pcb = k.pcb := rfl

@[simp] theorem setHead_queues_self :
    (k.setHead q x).queues q = ⟨x, (k.queues q).tail⟩ := setQueue_queues_self ..

@[simp] theorem setTail_queues_self :
    (k.setTail q x).queues q = ⟨(k.queues q).head, x⟩ := setQueue_queues_self ..

variable {k q x}

theorem setHead_queues_of_ne {q' : QueueId} (h : q' ≠ q) :
    (k.setHead q x).queues q' = k.queues q' := setQueue_queues_of_ne _ _ h

theorem setTail_queues_of_ne {q' : QueueId} (h : q' ≠ q) :
    (k.setTail q x).queues q' = k.queues q' := setQueue_queues_of_ne _ _ h

/-- Writing the tail that is there. -/
theorem setTail_self (h : (k.queues q).tail = x) : k.setTail q x = k := by
  have hq : Function.update k.queues q ⟨(k.queues q).head, x⟩ = k.queues := by
    rw [← h]
    exact Function.update_eq_self q k.queues
  unfold setTail setQueue
  rw [hq]

theorem setTail_setTail (y : Option PcbPtr) : (k.setTail q x).setTail q y = k.setTail q y := by
  unfold setTail setQueue
  simp

end Ends

/-! ### Running to the return -/

/-- The function returns from here, and every ready process is in one queue then. -/
def Completed (k : Kernel) (x : QueuePoint) : Prop :=
  ∃ n k' out, k.queueRun n x = some (k', .returns out) ∧ k'.EachReadyOnce out

section Completed
variable {k k' : Kernel} {x y : QueuePoint} {out : Option PcbPtr}

theorem completed_goto (h : k.queueStatement x = some (k', .goto y)) :
    k.Completed x ↔ k'.Completed y := by
  constructor
  · rintro ⟨n, k₁, out, hrun, hend⟩
    cases n with
    | zero => exact nomatch hrun
    | succ n =>
        rw [queueRun, h] at hrun
        exact ⟨n, k₁, out, hrun, hend⟩
  · rintro ⟨n, k₁, out, hrun, hend⟩
    refine ⟨n + 1, k₁, out, ?_, hend⟩
    rw [queueRun, h]
    exact hrun

theorem completed_returns (h : k.queueStatement x = some (k', .returns out)) :
    k.Completed x ↔ k'.EachReadyOnce out := by
  constructor
  · rintro ⟨n, k₁, out', hrun, hend⟩
    cases n with
    | zero => exact nomatch hrun
    | succ n =>
        rw [queueRun, h] at hrun
        obtain ⟨rfl, hout⟩ := Prod.mk.inj (Option.some.inj hrun)
        exact QueueFlow.returns.inj hout ▸ hend
  · intro hend
    refine ⟨1, k', out, ?_, hend⟩
    rw [queueRun, h]

/-- Nothing returns that follows a null pointer. -/
theorem not_completed (h : k.queueStatement x = none) : ¬ k.Completed x := by
  rintro ⟨n, k₁, out, hrun, -⟩
  cases n with
  | zero => exact nomatch hrun
  | succ n =>
      rw [queueRun, h] at hrun
      exact nomatch hrun

end Completed

end Kernel

/-! ### The places -/

/-- The process that the operation holds. -/
def QueuePoint.moving : QueuePoint → Option PcbPtr
  | .dequeueTest _ | .dequeueRead _ => none
  | .enqueueClear _ p | .enqueueReady _ p | .enqueueTest _ p | .enqueueHead _ p
  | .enqueueOnlyTail _ p | .enqueueLink _ p | .enqueueTail _ p | .dequeueHead _ p
  | .dequeueEmpty _ p | .dequeueTail _ p | .dequeueClear p | .removeTest _ _ p
  | .removeHead _ p | .removeLink _ _ p | .removeTailTest _ _ p | .removeTail _ _ p
  | .removeClear p | .sortedClear _ p | .sortedReady _ p | .sortedTest _ p | .sortedHead _ p
  | .sortedOnlyTail _ p | .sortedFirst _ p | .sortedFrontLink _ p | .sortedFront _ p
  | .sortedStart _ p | .sortedLoop _ p _ | .sortedCompare _ p _ | .sortedAdvance _ p _
  | .sortedLink _ p _ | .sortedBehind _ p _ | .sortedLast _ p | .sortedTail _ p => some p

/-- The lists hold the ready processes, apart from the one that the operation holds. -/
structure Population (k : Kernel) (Q : QueueId → List PcbPtr) (moving : Option PcbPtr) : Prop where
  member : ∀ q p, p ∈ Q q → k.IsProcess p ∧ p ≠ .initProcess
    ∧ (k.pcb p).state ≠ .waitingUartInput
  ready : ∀ p, k.IsProcess p → p ≠ .initProcess → some p ≠ moving →
    (k.pcb p).state = .ready → ∃ q, p ∈ Q q
  init : (k.pcb .initProcess).state ≠ .waitingUartInput

/-- A process outside of the lists. -/
structure Outside (k : Kernel) (Q : QueueId → List PcbPtr) (p : PcbPtr) : Prop where
  process : k.IsProcess p
  notInit : p ≠ .initProcess
  notWaiting : (k.pcb p).state ≠ .waitingUartInput
  free : ∀ q, p ∉ Q q

/-- The process is linked behind the last one, and the tail does not know it yet. -/
structure TailBefore (k : Kernel) (Q : QueueId → List PcbPtr) (q : QueueId) (p : PcbPtr) : Prop where
  linked : (k.setTail q (some p)).Linked (Function.update Q q (Q q ++ [p]))
  tail : (k.queues q).tail = (Q q).getLast?

/-- The process has been unlinked, and is still the tail. -/
structure TailStale (k : Kernel) (Q : QueueId → List PcbPtr) (q : QueueId) (p : PcbPtr) : Prop where
  linked : (k.setTail q (Q q).getLast?).Linked Q
  tail : (k.queues q).tail = some p
  next : k.next p = none

/-- How the pointers and the lists are related at each place. -/
def QueuePoint.Shape (alg : SchedAlgorithm) (k : Kernel) (Q : QueueId → List PcbPtr) :
    QueuePoint → Prop
  | .enqueueClear q p => (alg ≠ .sjf ∧ alg.Uses q) ∧ k.Linked Q ∧ Outside k Q p
  | .enqueueReady q p | .enqueueTest q p =>
      (alg ≠ .sjf ∧ alg.Uses q) ∧ k.Linked Q ∧ Outside k Q p ∧ k.next p = none
  | .enqueueHead q p =>
      (alg ≠ .sjf ∧ alg.Uses q) ∧ k.Linked Q ∧ Outside k Q p ∧ k.next p = none ∧ Q q = []
  | .enqueueLink q p =>
      (alg ≠ .sjf ∧ alg.Uses q) ∧ k.Linked Q ∧ Outside k Q p ∧ k.next p = none ∧ Q q ≠ []
  | .enqueueOnlyTail q p | .enqueueTail q p =>
      (alg ≠ .sjf ∧ alg.Uses q) ∧ Outside k Q p ∧ TailBefore k Q q p
  | .dequeueTest q => alg.Uses q ∧ k.Linked Q
  | .dequeueRead q => alg.Uses q ∧ k.Linked Q ∧ Q q ≠ []
  | .dequeueHead q p => alg.Uses q ∧ k.Linked Q ∧ ∃ l, Q q = p :: l
  | .dequeueEmpty q p =>
      alg.Uses q ∧ Outside k Q p ∧ (k.Linked Q ∧ Q q ≠ [] ∨ Q q = [] ∧ TailStale k Q q p)
  | .dequeueTail q p => alg.Uses q ∧ Outside k Q p ∧ Q q = [] ∧ TailStale k Q q p
  | .dequeueClear p | .removeClear p => k.Linked Q ∧ Outside k Q p
  | .removeTest q previous p =>
      (alg = .priorityAging ∨ alg = .lottery) ∧ alg.Uses q ∧ k.Linked Q
        ∧ ∃ u v, Q q = u ++ p :: v ∧ previous = u.getLast?
  | .removeHead q p =>
      (alg = .priorityAging ∨ alg = .lottery) ∧ alg.Uses q ∧ k.Linked Q ∧ ∃ l, Q q = p :: l
  | .removeLink q previous p =>
      (alg = .priorityAging ∨ alg = .lottery) ∧ alg.Uses q ∧ k.Linked Q
        ∧ ∃ u v, Q q = u ++ p :: v ∧ u.getLast? = some previous
  | .removeTailTest q previous p =>
      (alg = .priorityAging ∨ alg = .lottery) ∧ alg.Uses q ∧ Outside k Q p
        ∧ (k.Linked Q ∨ TailStale k Q q p ∧ previous = (Q q).getLast?)
  | .removeTail q previous p =>
      (alg = .priorityAging ∨ alg = .lottery) ∧ alg.Uses q ∧ Outside k Q p
        ∧ TailStale k Q q p ∧ previous = (Q q).getLast?
  | .sortedClear q p => (alg = .sjf ∧ alg.Uses q) ∧ k.Linked Q ∧ Outside k Q p
  | .sortedReady q p | .sortedTest q p =>
      (alg = .sjf ∧ alg.Uses q) ∧ k.Linked Q ∧ Outside k Q p ∧ k.next p = none
  | .sortedHead q p =>
      (alg = .sjf ∧ alg.Uses q) ∧ k.Linked Q ∧ Outside k Q p ∧ k.next p = none ∧ Q q = []
  | .sortedFirst q p | .sortedFrontLink q p | .sortedStart q p =>
      (alg = .sjf ∧ alg.Uses q) ∧ k.Linked Q ∧ Outside k Q p ∧ Q q ≠ []
  | .sortedFront q p =>
      (alg = .sjf ∧ alg.Uses q) ∧ k.Linked Q ∧ Outside k Q p ∧ Q q ≠ []
        ∧ k.next p = (k.queues q).head
  | .sortedLoop q p c | .sortedLink q p c =>
      (alg = .sjf ∧ alg.Uses q) ∧ k.Linked Q ∧ Outside k Q p ∧ c ∈ Q q
  | .sortedCompare q p c | .sortedAdvance q p c =>
      (alg = .sjf ∧ alg.Uses q) ∧ k.Linked Q ∧ Outside k Q p ∧ c ∈ Q q ∧ k.next c ≠ none
  | .sortedBehind q p c =>
      (alg = .sjf ∧ alg.Uses q) ∧ k.Linked Q ∧ Outside k Q p ∧ c ∈ Q q ∧ k.next p = k.next c
  | .sortedLast q p =>
      (alg = .sjf ∧ alg.Uses q) ∧ Outside k Q p
        ∧ (TailBefore k Q q p
          ∨ ∃ u v, Q q = u ++ v ∧ v ≠ [] ∧ k.Linked (Function.update Q q (u ++ p :: v)))
  | .sortedOnlyTail q p | .sortedTail q p =>
      (alg = .sjf ∧ alg.Uses q) ∧ Outside k Q p ∧ TailBefore k Q q p

/-- The operation is at `x`, and the lists are `Q`: without the process that it inserts, and
without the one that it has unlinked. -/
structure QueuePoint.At (alg : SchedAlgorithm) (k : Kernel) (Q : QueueId → List PcbPtr)
    (x : QueuePoint) : Prop where
  population : Population k Q x.moving
  shape : x.Shape alg k Q

/-! ### One statement -/

section Bookkeeping
variable {k k' : Kernel} {Q Q' : QueueId → List PcbPtr} {q : QueueId} {p : PcbPtr}
  {m m' : Option PcbPtr} {l : List PcbPtr}

/-- The statements write no table, and no state but that of the process they hold. -/
def SameStates (k k' : Kernel) : Prop :=
  k'.processes = k.processes ∧ ∀ r, (k'.pcb r).state = (k.pcb r).state

theorem SameStates.setLink (k : Kernel) (p : PcbPtr) (x : Option PcbPtr) :
    SameStates k (k.setLink p x) := by
  refine ⟨rfl, fun r => ?_⟩
  rw [Kernel.setLink, Kernel.modifyPcb_pcb]
  split
  · next hr => rw [hr]
  · rfl

theorem SameStates.isProcess (h : SameStates k k') (p : PcbPtr) :
    k'.IsProcess p ↔ k.IsProcess p := by
  unfold Kernel.IsProcess
  rw [h.1]

theorem Outside.same (h : Outside k Q p) (hs : SameStates k k') : Outside k' Q p :=
  ⟨(hs.isProcess p).mpr h.process, h.notInit, hs.2 p ▸ h.notWaiting, h.free⟩

theorem Population.same (h : Population k Q m) (hs : SameStates k k') : Population k' Q m where
  member q r hr := by
    obtain ⟨hp, hne, hst⟩ := h.member q r hr
    exact ⟨(hs.isProcess r).mpr hp, hne, hs.2 r ▸ hst⟩
  ready r hr hne hm hst := h.ready r ((hs.isProcess r).mp hr) hne hm (hs.2 r ▸ hst)
  init := hs.2 .initProcess ▸ h.init

/-- The operation holds one process more. -/
theorem Population.hold (h : Population k Q none) (m : Option PcbPtr) : Population k Q m :=
  ⟨h.member, fun r hr hne _ hst => h.ready r hr hne (nomatch ·) hst, h.init⟩

/-- The process that the operation holds is in the lists after all. -/
theorem Population.release (h : Population k Q (some p)) (hp : ∃ q, p ∈ Q q) :
    Population k Q none := by
  refine ⟨h.member, fun r hr hne _ hst => ?_, h.init⟩
  by_cases hrp : r = p
  · exact hrp ▸ hp
  · exact h.ready r hr hne (fun he => hrp (Option.some.inj he)) hst

/-- The held process leaves the list `q`. -/
theorem Population.unlink (h : Population k Q (some p)) (hl : ∀ r, r ∈ l → r ∈ Q q)
    (hkeep : ∀ r ∈ Q q, r ≠ p → r ∈ l) : Population k (Function.update Q q l) (some p) where
  member q' r hr := by
    by_cases hq : q' = q
    · subst hq
      rw [Function.update_self] at hr
      exact h.member q' r (hl r hr)
    · rw [Function.update_of_ne hq] at hr
      exact h.member q' r hr
  ready r hr hne hm hst := by
    obtain ⟨q', hq'⟩ := h.ready r hr hne hm hst
    refine ⟨q', ?_⟩
    by_cases hq : q' = q
    · subst hq
      rw [Function.update_self]
      exact hkeep r hq' fun he => hm (congrArg some he)
    · rw [Function.update_of_ne hq]
      exact hq'
  init := h.init

theorem Outside.unlinked (hk : k.Linked Q) (h : Population k Q m) (hp : p ∈ Q q) (hl : p ∉ l) :
    Outside k (Function.update Q q l) p where
  process := (h.member q p hp).1
  notInit := (h.member q p hp).2.1
  notWaiting := (h.member q p hp).2.2
  free q' := by
    by_cases hq : q' = q
    · subst hq
      rw [Function.update_self]
      exact hl
    · rw [Function.update_of_ne hq]
      exact fun hp' => hq (hk.disjoint hp' hp)

/-- The held process joins the list `q`. -/
theorem Population.insert (h : Population k Q (some p)) (ho : Outside k Q p)
    (hl : ∀ r, r ∈ l ↔ r = p ∨ r ∈ Q q) : Population k (Function.update Q q l) none := by
  have hmem : ∀ q' r, r ∈ Function.update Q q l q' ↔ r ∈ Q q' ∨ q' = q ∧ r = p := by
    intro q' r
    by_cases hq : q' = q
    · rw [hq, Function.update_self, hl]
      tauto
    · rw [Function.update_of_ne hq]
      tauto
  refine Population.release (p := p) ⟨fun q' r hr => ?_, fun r hr hne hrp hst => ?_, h.init⟩
    ⟨q, (hmem q p).mpr (Or.inr ⟨rfl, rfl⟩)⟩
  · rcases (hmem q' r).mp hr with hr | ⟨-, rfl⟩
    · exact h.member q' r hr
    · exact ⟨ho.process, ho.notInit, ho.notWaiting⟩
  · obtain ⟨q', hq'⟩ := h.ready r hr hne hrp hst
    exact ⟨q', (hmem q' r).mpr (Or.inl hq')⟩

/-- The end of an insertion. -/
theorem Population.inserted (h : Population k Q (some p)) (hk : k.Linked (Function.update Q q l))
    (hl : ∀ r ∈ Q q, r ∈ l) (hp : p ∈ l) : k.EachReadyOnce none := by
  refine ⟨_, hk, fun r hr hne _ hst => ?_, fun r hr => (nomatch hr)⟩
  by_cases hrp : r = p
  · exact ⟨q, by rw [Function.update_self]; exact hrp ▸ hp⟩
  · obtain ⟨q', hq'⟩ := h.ready r hr hne (fun he => hrp (Option.some.inj he)) hst
    refine ⟨q', ?_⟩
    by_cases hq : q' = q
    · subst hq
      rw [Function.update_self]
      exact hl r hq'
    · rw [Function.update_of_ne hq]
      exact hq'

/-- The end of a removal. -/
theorem Population.removed (h : Population k Q m) (hk : k.Linked Q)
    (hm : ∀ r, some r = m → ∀ q, r ∉ Q q) : k.EachReadyOnce m :=
  ⟨Q, hk, h.ready, hm⟩

/-- The link of a process outside of the lists. -/
theorem Kernel.Linked.setLink_free (hk : k.Linked Q) (hp : ∀ q, p ∉ Q q) (x : Option PcbPtr) :
    (k.setLink p x).Linked Q := by
  refine ⟨fun q => (hk.queue q).congr fun r hr => ?_, hk.disjoint⟩
  rw [Kernel.next_setLink]
  exact Function.update_of_ne (ne_of_mem_of_not_mem hr (hp q)) _ _

end Bookkeeping

/-- How far it is at most to the return. -/
def QueuePoint.rank (Q : QueueId → List PcbPtr) : QueuePoint → Nat
  | .enqueueOnlyTail _ _ | .enqueueTail _ _ | .dequeueClear _ | .removeClear _
  | .sortedOnlyTail _ _ | .sortedTail _ _ | .sortedFront _ _ => 1
  | .enqueueHead _ _ | .enqueueLink _ _ | .dequeueTail _ _ | .removeTail _ _ _
  | .sortedLast _ _ | .sortedFrontLink _ _ | .sortedHead _ _ => 2
  | .enqueueTest _ _ | .dequeueEmpty _ _ | .removeTailTest _ _ _ | .sortedBehind _ _ _ => 3
  | .enqueueReady _ _ | .dequeueHead _ _ | .removeHead _ _ | .removeLink _ _ _
  | .sortedLink _ _ _ => 4
  | .enqueueClear _ _ | .dequeueRead _ | .removeTest _ _ _ => 5
  | .dequeueTest _ => 6
  | .sortedAdvance q _ c => 3 * ((Q q).length - (Q q).idxOf c) + 5
  | .sortedCompare q _ c => 3 * ((Q q).length - (Q q).idxOf c) + 6
  | .sortedLoop q _ c => 3 * ((Q q).length - (Q q).idxOf c) + 7
  | .sortedStart q _ => 3 * (Q q).length + 8
  | .sortedFirst q _ => 3 * (Q q).length + 9
  | .sortedTest q _ => 3 * (Q q).length + 10
  | .sortedReady q _ => 3 * (Q q).length + 11
  | .sortedClear q _ => 3 * (Q q).length + 12

/-- The next statement leads to a place nearer to the return, or returns. -/
def QueuePoint.Proceeds (alg : SchedAlgorithm) (k : Kernel) (Q : QueueId → List PcbPtr)
    (x : QueuePoint) : Prop :=
  (∃ k' y Q', k.queueStatement x = some (k', .goto y) ∧ y.At alg k' Q' ∧ y.rank Q' < x.rank Q)
    ∨ ∃ k' out, k.queueStatement x = some (k', .returns out) ∧ k'.EachReadyOnce out

namespace QueuePoint

open Kernel

variable {alg : SchedAlgorithm} {k : Kernel} {Q : QueueId → List PcbPtr} {q : QueueId} {p : PcbPtr}

section Enqueue

/-- The process is marked as ready. -/
theorem ready_population (h : Population k Q (some p)) (e : KernelEvent) (ho : Outside k Q p) :
    Population ((k.setState p .ready).log e) Q (some p)
      ∧ Outside ((k.setState p .ready).log e) Q p := by
  have hother : ∀ r, r ≠ p → ((k.setState p .ready).pcb r) = k.pcb r := fun r hr =>
    modifyPcb_pcb_of_ne _ _ hr
  have hself : ((k.setState p .ready).pcb p).state = .ready := by simp [setState, PCB.withState]
  refine ⟨⟨fun q r hr => ?_, fun r hr hne hm hst => ?_, ?_⟩, ho.process, ho.notInit, ?_, ho.free⟩
  · have hrp : r ≠ p := fun he => ho.free q (he ▸ hr)
    obtain ⟨h₁, h₂, h₃⟩ := h.member q r hr
    exact ⟨h₁, h₂, by rw [log_pcb, hother r hrp]; exact h₃⟩
  · have hrp : r ≠ p := fun he => hm (congrArg some he)
    rw [log_pcb, hother r hrp] at hst
    exact h.ready r hr hne hm hst
  · rw [log_pcb, hother _ ho.notInit.symm]
    exact h.init
  · rw [log_pcb, hself]
    decide

/-- The places of `enqueue_process_to`. -/
theorem proceeds_enqueueClear (h : (enqueueClear q p).At alg k Q) :
    (enqueueClear q p).Proceeds alg k Q := by
  obtain ⟨hpop, halg, hk, ho⟩ := h
  have hsame := SameStates.setLink k p none
  refine Or.inl ⟨_, _, Q, rfl, ⟨hpop.same hsame, halg, hk.setLink_free ho.free none,
    ho.same hsame, ?_⟩, Nat.lt_succ_self _⟩
  rw [next_setLink, Function.update_self]

theorem proceeds_enqueueReady (h : (enqueueReady q p).At alg k Q) :
    (enqueueReady q p).Proceeds alg k Q := by
  obtain ⟨hpop, halg, hk, ho, hnext⟩ := h
  obtain ⟨hpop', ho'⟩ := ready_population hpop (.enqueued q p) ho
  refine Or.inl ⟨_, _, Q, rfl, ⟨hpop', halg, (hk.modifyPcb (fun b => b.withState .ready) fun _ => rfl).log _, ho', ?_⟩,
    Nat.lt_succ_self _⟩
  rw [next_log, next_setState]
  exact hnext

theorem proceeds_enqueueTest (h : (enqueueTest q p).At alg k Q) :
    (enqueueTest q p).Proceeds alg k Q := by
  obtain ⟨hpop, halg, hk, ho, hnext⟩ := h
  have hempty := (hk.queue q).tail_eq_none_iff
  by_cases htail : (k.queues q).tail = none
  · refine Or.inl ⟨k, .enqueueHead q p, Q, ?_, ⟨hpop, halg, hk, ho, hnext, hempty.mp htail⟩,
      Nat.lt_succ_self _⟩
    rw [queueStatement, if_pos htail]
  · refine Or.inl ⟨k, .enqueueLink q p, Q, ?_, ⟨hpop, halg, hk, ho, hnext, fun hnil => ?_⟩,
      Nat.lt_succ_self _⟩
    · rw [queueStatement, if_neg htail]
    · exact htail (hempty.mpr hnil)

/-- The only process of a queue. -/
theorem tailBefore_head (hk : k.Linked Q) (ho : Outside k Q p) (hnext : k.next p = none)
    (hnil : Q q = []) : TailBefore (k.setHead q (some p)) Q q p where
  linked := by
    rw [hnil]
    refine hk.update ?_ (fun q' hq' => ⟨?_, fun _ _ => rfl⟩) fun r hr q' _ => ?_
    · rw [setTail_queues_self, setHead_queues_self, setTail_next, setHead_next]
      exact ⟨⟨rfl, hnext⟩, rfl, List.nodup_singleton p⟩
    · rw [setTail_queues_of_ne hq', setHead_queues_of_ne hq']
    · obtain rfl := List.mem_singleton.mp hr
      exact ho.free q'
  tail := by
    rw [setHead_queues_self, hnil]
    exact (hk.queue q).tail_eq_none_iff.mpr hnil

/-- The process is linked behind the last one. -/
theorem tailBefore_link (hk : k.Linked Q) (ho : Outside k Q p) (hnext : k.next p = none)
    {t : PcbPtr} (ht : (Q q).getLast? = some t) : TailBefore (k.setLink t (some p)) Q q p where
  linked := by
    have hq := hk.queue q
    rw [hq.tail_eq, ht] at hq
    have htq : t ∈ Q q := List.mem_of_getLast? ht
    have hupdate : Function.update k.next p none = k.next := by
      rw [← hnext]
      exact Function.update_eq_self p k.next
    have happend := hq.enqueue (ho.free q)
    rw [hupdate] at happend
    refine hk.update ?_ (fun q' hq' => ⟨?_, fun r hr => ?_⟩) (hk.notMem_of_append ho.free)
    · rw [setTail_queues_self, setTail_next, next_setLink, setLink_queues]
      exact happend
    · rw [setTail_queues_of_ne hq', setLink_queues]
    · rw [setTail_next, next_setLink]
      exact Function.update_of_ne (fun he => hq' (hk.disjoint (he ▸ hr) htq)) _ _
  tail := by
    rw [setLink_queues]
    exact (hk.queue q).tail_eq

theorem proceeds_enqueueHead (h : (enqueueHead q p).At alg k Q) :
    (enqueueHead q p).Proceeds alg k Q := by
  obtain ⟨hpop, halg, hk, ho, hnext, hnil⟩ := h
  exact Or.inl ⟨_, _, Q, rfl, ⟨hpop.same ⟨rfl, fun _ => rfl⟩, halg, ho.same ⟨rfl, fun _ => rfl⟩,
    tailBefore_head hk ho hnext hnil⟩, Nat.lt_succ_self _⟩

theorem proceeds_enqueueLink (h : (enqueueLink q p).At alg k Q) :
    (enqueueLink q p).Proceeds alg k Q := by
  obtain ⟨hpop, halg, hk, ho, hnext, hne⟩ := h
  obtain ⟨t, ht⟩ : ∃ t, (Q q).getLast? = some t :=
    ⟨_, List.getLast?_eq_some_getLast hne⟩
  have hsame := SameStates.setLink k t (some p)
  refine Or.inl ⟨k.setLink t (some p), .enqueueTail q p, Q, ?_, ⟨hpop.same hsame, halg,
    ho.same hsame, tailBefore_link hk ho hnext ht⟩, Nat.lt_succ_self _⟩
  rw [queueStatement, (hk.queue q).tail_eq, ht]
  rfl

/-- The last statement of an insertion behind the last process. -/
theorem returns_tail {x : QueuePoint} (hx : k.queueStatement x
      = some (k.setTail q (some p), .returns none))
    (hpop : Population k Q (some p)) (ht : TailBefore k Q q p) : x.Proceeds alg k Q := by
  have hsame : SameStates k (k.setTail q (some p)) := ⟨rfl, fun _ => rfl⟩
  refine Or.inr ⟨_, _, hx, (hpop.same hsame).inserted ht.linked (fun r hr => ?_) ?_⟩
  · exact List.mem_append_left _ hr
  · exact List.mem_append_right _ (List.mem_singleton_self p)

end Enqueue

section Dequeue

/-- The list without its first process, and what is left of its pointers. -/
theorem linked_setHead (hk : k.Linked Q) (hpop : Population k Q (some p)) {l : List PcbPtr}
    (hl : Q q = p :: l) :
    Population (k.setHead q (k.pcb p).nextReady) (Function.update Q q l) (some p)
      ∧ Outside (k.setHead q (k.pcb p).nextReady) (Function.update Q q l) p
      ∧ (l ≠ [] ∧ (k.setHead q (k.pcb p).nextReady).Linked (Function.update Q q l)
        ∨ l = [] ∧ TailStale (k.setHead q (k.pcb p).nextReady) (Function.update Q q l) q p) := by
  have hsame : SameStates k (k.setHead q (k.pcb p).nextReady) := ⟨rfl, fun _ => rfl⟩
  have hq := hk.queue q
  rw [hl] at hq
  have hpl : p ∉ l := (List.nodup_cons.mp hq.nodup).1
  have hpq : p ∈ Q q := by rw [hl]; exact List.mem_cons_self
  have hout := (Outside.unlinked hk hpop hpq hpl).same hsame
  have hunlink := hpop.unlink (q := q) (l := l) (fun r hr => by rw [hl]; exact .tail _ hr)
    fun r hr hne => by
      rw [hl] at hr
      exact (List.mem_cons.mp hr).resolve_left hne
  refine ⟨hunlink.same hsame, hout, ?_⟩
  -- The link of the process itself is still there, and no list leads to it.
  have hqueue : IsQueue k.next (k.next p) (if k.next p = none then none else (k.queues q).tail) l :=
    hq.dequeue.congr fun r hr => (Function.update_of_ne (ne_of_mem_of_not_mem hr hpl) _ _).symm
  have hother : ∀ r ∈ l, ∀ q' ≠ q, r ∉ Q q' := fun r hr q' hq' hrq' =>
    hq' (hk.disjoint hrq' (by rw [hl]; exact .tail _ hr))
  have hend : k.next p = none ↔ l = [] := hqueue.head_eq_none_iff
  by_cases hnil : l = []
  · refine Or.inr ⟨hnil, ?_, ?_, hend.mpr hnil⟩
    · rw [if_pos (hend.mpr hnil)] at hqueue
      refine hk.update ?_ (fun q' hq' => ⟨?_, fun _ _ => rfl⟩) hother
      · rw [setTail_queues_self, setHead_queues_self, setTail_next, setHead_next,
          Function.update_self, hnil]
        rw [hnil] at hqueue
        exact hqueue
      · rw [setTail_queues_of_ne hq', setHead_queues_of_ne hq']
    · rw [setHead_queues_self]
      show (k.queues q).tail = some p
      rw [hq.tail_eq, hnil]
      rfl
  · refine Or.inl ⟨hnil, ?_⟩
    rw [if_neg (fun h => hnil (hend.mp h))] at hqueue
    refine hk.update ?_ (fun q' hq' => ⟨?_, fun _ _ => rfl⟩) hother
    · rw [setHead_queues_self]
      exact hqueue
    · rw [setHead_queues_of_ne hq']

theorem proceeds_dequeueTest (h : (dequeueTest q).At alg k Q) :
    (dequeueTest q).Proceeds alg k Q := by
  obtain ⟨hpop, halg, hk⟩ := h
  have hempty := (hk.queue q).head_eq_none_iff
  by_cases hhead : (k.queues q).head = none
  · refine Or.inr ⟨k, none, ?_, hpop.removed hk fun r hr => nomatch hr⟩
    rw [queueStatement, if_pos hhead]
  · refine Or.inl ⟨k, .dequeueRead q, Q, ?_, ⟨hpop, halg, hk, fun hnil => ?_⟩, Nat.lt_succ_self _⟩
    · rw [queueStatement, if_neg hhead]
    · exact hhead (hempty.mpr hnil)

theorem proceeds_dequeueRead (h : (dequeueRead q).At alg k Q) :
    (dequeueRead q).Proceeds alg k Q := by
  obtain ⟨hpop, halg, hk, hne⟩ := h
  obtain ⟨p, l, hl⟩ := List.exists_cons_of_ne_nil hne
  refine Or.inl ⟨k, .dequeueHead q p, Q, ?_, ⟨hpop.hold _, halg, hk, l, hl⟩, Nat.lt_succ_self _⟩
  rw [queueStatement, (hk.queue q).head_eq, hl]
  rfl

theorem proceeds_dequeueHead (h : (dequeueHead q p).At alg k Q) :
    (dequeueHead q p).Proceeds alg k Q := by
  obtain ⟨hpop, halg, hk, l, hl⟩ := h
  obtain ⟨hpop', ho, hcases⟩ := linked_setHead hk hpop hl
  refine Or.inl ⟨_, _, Function.update Q q l, rfl, ⟨hpop', halg, ho, ?_⟩, Nat.lt_succ_self _⟩
  rw [Function.update_self]
  rcases hcases with ⟨hne, hk'⟩ | ⟨hnil, hstale⟩
  · exact Or.inl ⟨hk', hne⟩
  · exact Or.inr ⟨hnil, hstale⟩

theorem proceeds_dequeueEmpty (h : (dequeueEmpty q p).At alg k Q) :
    (dequeueEmpty q p).Proceeds alg k Q := by
  obtain ⟨hpop, halg, ho, ⟨hk, hne⟩ | ⟨hnil, hstale⟩⟩ := h
  · have hhead : (k.queues q).head ≠ none := fun hh => hne ((hk.queue q).head_eq_none_iff.mp hh)
    refine Or.inl ⟨k, .dequeueClear p, Q, ?_, ⟨hpop, hk, ho⟩, show 1 < 3 by decide⟩
    rw [queueStatement, if_neg hhead]
  · have hhead : (k.queues q).head = none := by
      have hq := hstale.linked.queue q
      rw [setTail_queues_self] at hq
      exact hq.head_eq_none_iff.mpr hnil
    refine Or.inl ⟨k, .dequeueTail q p, Q, ?_, ⟨hpop, halg, ho, hnil, hstale⟩, Nat.lt_succ_self _⟩
    rw [queueStatement, if_pos hhead]

theorem proceeds_dequeueTail (h : (dequeueTail q p).At alg k Q) :
    (dequeueTail q p).Proceeds alg k Q := by
  obtain ⟨hpop, halg, ho, hnil, hstale⟩ := h
  have hsame : SameStates k (k.setTail q none) := ⟨rfl, fun _ => rfl⟩
  have hk := hstale.linked
  rw [hnil] at hk
  exact Or.inl ⟨_, _, Q, rfl, ⟨hpop.same hsame, hk, ho.same hsame⟩, Nat.lt_succ_self _⟩

/-- The held process is in no queue, and its link is about to be cleared. -/
theorem completed_clear {x : QueuePoint}
    (hx : k.queueStatement x = some (k.setLink p none, .returns (some p)))
    (hpop : Population k Q (some p)) (hk : k.Linked Q) (ho : Outside k Q p) : k.Completed x := by
  refine (completed_returns hx).mpr ((hpop.same (.setLink k p none)).removed
    (hk.setLink_free ho.free none) fun r hr => ?_)
  exact Option.some.inj hr ▸ ho.free

/-- The last statement of a removal. -/
theorem returns_clear {x : QueuePoint}
    (hx : k.queueStatement x = some (k.setLink p none, .returns (some p)))
    (hpop : Population k Q (some p)) (hk : k.Linked Q) (ho : Outside k Q p) :
    x.Proceeds alg k Q := by
  refine Or.inr ⟨_, _, hx, (hpop.same (.setLink k p none)).removed (hk.setLink_free ho.free none) ?_⟩
  intro r hr
  exact Option.some.inj hr ▸ ho.free

end Dequeue

section Remove

theorem proceeds_removeTest {previous : Option PcbPtr} (h : (removeTest q previous p).At alg k Q) :
    (removeTest q previous p).Proceeds alg k Q := by
  obtain ⟨hpop, halg, huses, hk, u, v, hl, rfl⟩ := h
  rcases List.eq_nil_or_concat u with rfl | ⟨w, t, rfl⟩
  · exact Or.inl ⟨k, .removeHead q p, Q, rfl, ⟨hpop, halg, huses, hk, v, hl⟩, Nat.lt_succ_self _⟩
  · have ht : (w.concat t).getLast? = some t := by simp
    refine Or.inl ⟨k, .removeLink q t p, Q, ?_, ⟨hpop, halg, huses, hk, w.concat t, v, hl, ht⟩,
      Nat.lt_succ_self _⟩
    rw [ht]
    rfl

theorem proceeds_removeHead (h : (removeHead q p).At alg k Q) :
    (removeHead q p).Proceeds alg k Q := by
  obtain ⟨hpop, halg, huses, hk, l, hl⟩ := h
  obtain ⟨hpop', ho, hcases⟩ := linked_setHead hk hpop hl
  refine Or.inl ⟨_, _, Function.update Q q l, rfl, ⟨hpop', halg, huses, ho, ?_⟩, Nat.lt_succ_self _⟩
  rcases hcases with ⟨-, hk'⟩ | ⟨rfl, hstale⟩
  · exact Or.inl hk'
  · exact Or.inr ⟨hstale, by rw [Function.update_self]; rfl⟩

theorem proceeds_removeLink {t : PcbPtr} (h : (removeLink q t p).At alg k Q) :
    (removeLink q t p).Proceeds alg k Q := by
  obtain ⟨hpop, halg, huses, hk, u, v, hl, ht⟩ := h
  have hq := hk.queue q
  rw [hl] at hq
  have hnd := List.nodup_append.mp hq.nodup
  have hpu : p ∉ u := fun h => hnd.2.2 p h p List.mem_cons_self rfl
  have hpv : p ∉ v := (List.nodup_cons.mp hnd.2.1).1
  have hpl : p ∉ u ++ v := fun h => (List.mem_append.mp h).elim hpu hpv
  have hpq : p ∈ Q q := by simp [hl]
  have htq : t ∈ Q q := by rw [hl]; exact List.mem_append_left _ (List.mem_of_getLast? ht)
  have hsame := SameStates.setLink k t (k.pcb p).nextReady
  have hpop' : Population k (Function.update Q q (u ++ v)) (some p) :=
    hpop.unlink (fun r hr => by rw [hl]; simp at hr ⊢; tauto) fun r hr hne => by
      rw [hl] at hr
      simp at hr ⊢
      tauto
  have hout := Outside.unlinked hk hpop hpq hpl
  have hother : ∀ r ∈ u ++ v, ∀ q' ≠ q, r ∉ Q q' := fun r hr q' hq' hrq' =>
    hq' (hk.disjoint hrq' (by rw [hl]; simp at hr ⊢; tauto))
  -- The list without the process, apart from the tail.
  have hunlink := hq.unlink
  rw [ht] at hunlink
  have hqueue : IsQueue (Function.update k.next t (k.next p)) (k.queues q).head
      (if (k.queues q).tail = some p then some t else (k.queues q).tail) (u ++ v) :=
    hunlink.congr fun r hr => (Function.update_of_ne (ne_of_mem_of_not_mem hr hpl) _ _).symm
  have hkeep : ∀ q' ≠ q, ∀ r ∈ Q q', Function.update k.next t (k.next p) r = k.next r :=
    fun q' hq' r hr => Function.update_of_ne (fun he => hq' (hk.disjoint (he ▸ hr) htq)) _ _
  refine Or.inl ⟨_, _, Function.update Q q (u ++ v), rfl,
    ⟨hpop'.same hsame, halg, huses, hout.same hsame, ?_⟩, Nat.lt_succ_self _⟩
  by_cases htail : (k.queues q).tail = some p
  · rw [if_pos htail] at hqueue
    have hlast : k.next p = none := by
      rw [hq.next_eq]
      cases v with
      | nil => rfl
      | cons n v =>
          have hend : (u ++ p :: n :: v).getLast? = some p := hq.tail_eq.symm.trans htail
          have hmem : p ∈ n :: v := by
            refine List.mem_of_getLast? (a := p) (l := n :: v) ?_
            simpa [List.getLast?_append] using hend
          exact absurd hmem hpv
    have htp : p ≠ t := fun he => hpu (he ▸ List.mem_of_getLast? ht)
    refine Or.inr ⟨⟨?_, by rw [setLink_queues]; exact htail, ?_⟩, ?_⟩
    · rw [Function.update_self, ← hqueue.tail_eq]
      refine hk.update ?_ (fun q' hq' => ⟨?_, ?_⟩) hother
      · rw [setTail_queues_self, setTail_next, next_setLink, setLink_queues]
        exact hqueue
      · rw [setTail_queues_of_ne hq', setLink_queues]
      · rw [setTail_next, next_setLink]
        exact hkeep q' hq'
    · rw [next_setLink, Function.update_of_ne htp]
      exact hlast
    · rw [Function.update_self]
      exact hqueue.tail_eq
  · rw [if_neg htail] at hqueue
    refine Or.inl (hk.update ?_ (fun q' hq' => ⟨rfl, ?_⟩) hother)
    · rw [next_setLink, setLink_queues]
      exact hqueue
    · rw [next_setLink]
      exact hkeep q' hq'

theorem proceeds_removeTailTest {previous : Option PcbPtr}
    (h : (removeTailTest q previous p).At alg k Q) :
    (removeTailTest q previous p).Proceeds alg k Q := by
  obtain ⟨hpop, halg, huses, ho, hk | ⟨hstale, hprevious⟩⟩ := h
  · have htail : (k.queues q).tail ≠ some p := fun ht => by
      rw [(hk.queue q).tail_eq] at ht
      exact ho.free q (List.mem_of_getLast? ht)
    refine Or.inl ⟨k, .removeClear p, Q, ?_, ⟨hpop, hk, ho⟩, show 1 < 3 by decide⟩
    rw [queueStatement, if_neg htail]
  · refine Or.inl ⟨k, .removeTail q previous p, Q, ?_,
      ⟨hpop, halg, huses, ho, hstale, hprevious⟩, Nat.lt_succ_self _⟩
    rw [queueStatement, if_pos hstale.tail]

theorem proceeds_removeTail {previous : Option PcbPtr} (h : (removeTail q previous p).At alg k Q) :
    (removeTail q previous p).Proceeds alg k Q := by
  obtain ⟨hpop, halg, huses, ho, hstale, rfl⟩ := h
  have hsame : SameStates k (k.setTail q (Q q).getLast?) := ⟨rfl, fun _ => rfl⟩
  exact Or.inl ⟨_, _, Q, rfl, ⟨hpop.same hsame, hstale.linked, ho.same hsame⟩, Nat.lt_succ_self _⟩

end Remove

section Sorted

theorem proceeds_sortedClear (h : (sortedClear q p).At alg k Q) :
    (sortedClear q p).Proceeds alg k Q := by
  obtain ⟨hpop, halg, hk, ho⟩ := h
  have hsame := SameStates.setLink k p none
  refine Or.inl ⟨_, _, Q, rfl, ⟨hpop.same hsame, halg, hk.setLink_free ho.free none,
    ho.same hsame, ?_⟩, Nat.lt_succ_self _⟩
  rw [next_setLink, Function.update_self]

theorem proceeds_sortedReady (h : (sortedReady q p).At alg k Q) :
    (sortedReady q p).Proceeds alg k Q := by
  obtain ⟨hpop, halg, hk, ho, hnext⟩ := h
  obtain ⟨hpop', ho'⟩ := ready_population hpop (.enqueued q p) ho
  refine Or.inl ⟨_, _, Q, rfl, ⟨hpop', halg,
    (hk.modifyPcb (fun b => b.withState .ready) fun _ => rfl).log _, ho', ?_⟩, Nat.lt_succ_self _⟩
  rw [next_log, next_setState]
  exact hnext

theorem proceeds_sortedTest (h : (sortedTest q p).At alg k Q) :
    (sortedTest q p).Proceeds alg k Q := by
  obtain ⟨hpop, halg, hk, ho, hnext⟩ := h
  have hempty := (hk.queue q).head_eq_none_iff
  by_cases hhead : (k.queues q).head = none
  · refine Or.inl ⟨k, .sortedHead q p, Q, ?_, ⟨hpop, halg, hk, ho, hnext, hempty.mp hhead⟩, ?_⟩
    · rw [queueStatement, if_pos hhead]
    · show 2 < 3 * (Q q).length + 10
      omega
  · refine Or.inl ⟨k, .sortedFirst q p, Q, ?_, ⟨hpop, halg, hk, ho, fun hnil => ?_⟩,
      Nat.lt_succ_self _⟩
    · rw [queueStatement, if_neg hhead]
    · exact hhead (hempty.mpr hnil)

theorem proceeds_sortedHead (h : (sortedHead q p).At alg k Q) :
    (sortedHead q p).Proceeds alg k Q := by
  obtain ⟨hpop, halg, hk, ho, hnext, hnil⟩ := h
  exact Or.inl ⟨_, _, Q, rfl, ⟨hpop.same ⟨rfl, fun _ => rfl⟩, halg, ho.same ⟨rfl, fun _ => rfl⟩,
    tailBefore_head hk ho hnext hnil⟩, Nat.lt_succ_self _⟩

theorem proceeds_sortedFirst (h : (sortedFirst q p).At alg k Q) :
    (sortedFirst q p).Proceeds alg k Q := by
  obtain ⟨hpop, halg, hk, ho, hne⟩ := h
  obtain ⟨c, l, hl⟩ := List.exists_cons_of_ne_nil hne
  have hhead : (k.queues q).head = some c := by rw [(hk.queue q).head_eq, hl]; rfl
  by_cases hlt : (k.pcb p).estBurst < (k.pcb c).estBurst
  · refine Or.inl ⟨k, .sortedFrontLink q p, Q, ?_, ⟨hpop, halg, hk, ho, hne⟩, ?_⟩
    · rw [queueStatement, hhead, Option.map_some, if_pos hlt]
    · show 2 < 3 * (Q q).length + 9
      omega
  · refine Or.inl ⟨k, .sortedStart q p, Q, ?_, ⟨hpop, halg, hk, ho, hne⟩, Nat.lt_succ_self _⟩
    rw [queueStatement, hhead, Option.map_some, if_neg hlt]

theorem proceeds_sortedFrontLink (h : (sortedFrontLink q p).At alg k Q) :
    (sortedFrontLink q p).Proceeds alg k Q := by
  obtain ⟨hpop, halg, hk, ho, hne⟩ := h
  have hsame := SameStates.setLink k p (k.queues q).head
  refine Or.inl ⟨_, _, Q, rfl, ⟨hpop.same hsame, halg, hk.setLink_free ho.free _, ho.same hsame,
    hne, ?_⟩, Nat.lt_succ_self _⟩
  rw [next_setLink, Function.update_self, setLink_queues]

theorem proceeds_sortedFront (h : (sortedFront q p).At alg k Q) :
    (sortedFront q p).Proceeds alg k Q := by
  obtain ⟨hpop, halg, hk, ho, hne, hnext⟩ := h
  have hfirst := (hk.queue q).insertFirst hne (ho.free q)
  rw [← hnext, Function.update_eq_self] at hfirst
  have hlinked : (k.setHead q (some p)).Linked (Function.update Q q (p :: Q q)) := by
    refine hk.update ?_ (fun q' hq' => ⟨setHead_queues_of_ne hq', fun _ _ => rfl⟩) ?_
    · rw [setHead_queues_self]
      exact hfirst
    · intro r hr q' hq' hrq'
      rcases List.mem_cons.mp hr with rfl | hr
      · exact ho.free q' hrq'
      · exact hq' (hk.disjoint hrq' hr)
  have hsame : SameStates k (k.setHead q (some p)) := ⟨rfl, fun _ => rfl⟩
  exact Or.inr ⟨_, _, rfl, (hpop.same hsame).inserted hlinked (fun r hr => .tail _ hr)
    List.mem_cons_self⟩

theorem proceeds_sortedStart (h : (sortedStart q p).At alg k Q) :
    (sortedStart q p).Proceeds alg k Q := by
  obtain ⟨hpop, halg, hk, ho, hne⟩ := h
  obtain ⟨c, l, hl⟩ := List.exists_cons_of_ne_nil hne
  refine Or.inl ⟨k, .sortedLoop q p c, Q, ?_, ⟨hpop, halg, hk, ho, by rw [hl]; exact .head _⟩, ?_⟩
  · rw [queueStatement, (hk.queue q).head_eq, hl]
    rfl
  · show 3 * ((Q q).length - (Q q).idxOf c) + 7 < 3 * (Q q).length + 8
    omega

theorem proceeds_sortedLoop {c : PcbPtr} (h : (sortedLoop q p c).At alg k Q) :
    (sortedLoop q p c).Proceeds alg k Q := by
  obtain ⟨hpop, halg, hk, ho, hc⟩ := h
  by_cases hnext : (k.pcb c).nextReady = none
  · refine Or.inl ⟨k, .sortedLink q p c, Q, ?_, ⟨hpop, halg, hk, ho, hc⟩, ?_⟩
    · rw [queueStatement, if_pos hnext]
    · show 4 < 3 * ((Q q).length - (Q q).idxOf c) + 7
      omega
  · refine Or.inl ⟨k, .sortedCompare q p c, Q, ?_, ⟨hpop, halg, hk, ho, hc, hnext⟩,
      Nat.lt_succ_self _⟩
    rw [queueStatement, if_neg hnext]

theorem proceeds_sortedCompare {c : PcbPtr} (h : (sortedCompare q p c).At alg k Q) :
    (sortedCompare q p c).Proceeds alg k Q := by
  obtain ⟨hpop, halg, hk, ho, hc, hnext⟩ := h
  obtain ⟨n, hn⟩ := Option.ne_none_iff_exists'.mp hnext
  have hn' : (k.pcb c).nextReady = some n := hn
  by_cases hlt : (k.pcb p).estBurst < (k.pcb n).estBurst
  · refine Or.inl ⟨k, .sortedLink q p c, Q, ?_, ⟨hpop, halg, hk, ho, hc⟩, ?_⟩
    · rw [queueStatement, hn', Option.map_some, if_pos hlt]
    · show 4 < 3 * ((Q q).length - (Q q).idxOf c) + 6
      omega
  · refine Or.inl ⟨k, .sortedAdvance q p c, Q, ?_, ⟨hpop, halg, hk, ho, hc, hnext⟩,
      Nat.lt_succ_self _⟩
    rw [queueStatement, hn', Option.map_some, if_neg hlt]

theorem proceeds_sortedAdvance {c : PcbPtr} (h : (sortedAdvance q p c).At alg k Q) :
    (sortedAdvance q p c).Proceeds alg k Q := by
  obtain ⟨hpop, halg, hk, ho, hc, hnext⟩ := h
  obtain ⟨u, v, hl⟩ := List.append_of_mem hc
  have hq := hk.queue q
  rw [hl] at hq
  have hv : k.next c = v.head? := hq.next_eq
  cases v with
  | nil => exact absurd hv hnext
  | cons n v =>
      have hn : n ∈ Q q := by simp [hl]
      refine Or.inl ⟨k, .sortedLoop q p n, Q, ?_, ⟨hpop, halg, hk, ho, hn⟩, ?_⟩
      · rw [queueStatement, show (k.pcb c).nextReady = some n from hv]
        rfl
      · -- The next node stands one place further back.
        have hnd := List.nodup_append.mp hq.nodup
        have hcu : c ∉ u := fun h => hnd.2.2 c h c List.mem_cons_self rfl
        have hnu : n ∉ u := fun h => hnd.2.2 n h n (by simp) rfl
        have hcn : c ≠ n := fun h => (List.nodup_cons.mp hnd.2.1).1 (by simp [h])
        have hidx : (Q q).idxOf c = u.length ∧ (Q q).idxOf n = u.length + 1
            ∧ u.length + 1 < (Q q).length := by
          rw [hl, List.idxOf_append_of_notMem hcu, List.idxOf_append_of_notMem hnu,
            List.idxOf_cons_self, List.idxOf_cons_ne _ hcn, List.idxOf_cons_self]
          simp
        show 3 * ((Q q).length - (Q q).idxOf n) + 7 < 3 * ((Q q).length - (Q q).idxOf c) + 5
        omega

theorem proceeds_sortedLink {c : PcbPtr} (h : (sortedLink q p c).At alg k Q) :
    (sortedLink q p c).Proceeds alg k Q := by
  obtain ⟨hpop, halg, hk, ho, hc⟩ := h
  have hsame := SameStates.setLink k p (k.pcb c).nextReady
  have hcp : c ≠ p := ne_of_mem_of_not_mem hc (ho.free q)
  refine Or.inl ⟨_, _, Q, rfl, ⟨hpop.same hsame, halg, hk.setLink_free ho.free _, ho.same hsame,
    hc, ?_⟩, Nat.lt_succ_self _⟩
  rw [next_setLink, Function.update_self, Function.update_of_ne hcp]
  rfl

theorem proceeds_sortedBehind {c : PcbPtr} (h : (sortedBehind q p c).At alg k Q) :
    (sortedBehind q p c).Proceeds alg k Q := by
  obtain ⟨hpop, halg, hk, ho, hc, hnext⟩ := h
  have hsame := SameStates.setLink k c (some p)
  obtain ⟨u, v, hl⟩ := List.append_of_mem hc
  refine Or.inl ⟨_, _, Q, rfl, ⟨hpop.same hsame, halg, ho.same hsame, ?_⟩, Nat.lt_succ_self _⟩
  have hq := hk.queue q
  rw [hl] at hq
  have hv : k.next c = v.head? := hq.next_eq
  cases v with
  | nil =>
      have hlast : (Q q).getLast? = some c := by simp [hl]
      exact Or.inl (tailBefore_link hk ho (hnext.trans hv) hlast)
  | cons n v =>
      have hinsert := hq.insertAfter (a := p) (hl ▸ ho.free q)
      rw [← hnext, Function.update_eq_self, hnext, hv, if_neg (by simp)] at hinsert
      refine Or.inr ⟨u ++ [c], n :: v, by rw [hl]; simp, by simp, ?_⟩
      have hlist : u ++ [c] ++ p :: n :: v = u ++ c :: p :: n :: v := by simp
      rw [hlist]
      refine hk.update ?_ (fun q' hq' => ⟨rfl, fun r hr => ?_⟩) ?_
      · rw [next_setLink, setLink_queues]
        exact hinsert
      · rw [next_setLink]
        exact Function.update_of_ne (fun he => hq' (hk.disjoint (he ▸ hr) hc)) _ _
      · intro r hr q' hq' hrq'
        have hr' : r = p ∨ r ∈ Q q := by rw [hl]; simp at hr ⊢; tauto
        rcases hr' with rfl | hr'
        · exact ho.free q' hrq'
        · exact hq' (hk.disjoint hrq' hr')

theorem proceeds_sortedLast (h : (sortedLast q p).At alg k Q) :
    (sortedLast q p).Proceeds alg k Q := by
  obtain ⟨hpop, halg, ho, hbefore | ⟨u, v, hl, hne, hk⟩⟩ := h
  · have hnext : (k.pcb p).nextReady = none := by
      have hq := hbefore.linked.queue q
      rw [Function.update_self] at hq
      exact hq.next_eq
    refine Or.inl ⟨k, .sortedTail q p, Q, ?_, ⟨hpop, halg, ho, hbefore⟩, Nat.lt_succ_self _⟩
    rw [queueStatement, if_pos hnext]
  · have hnext : (k.pcb p).nextReady ≠ none := by
      have hq := hk.queue q
      rw [Function.update_self] at hq
      rw [show (k.pcb p).nextReady = v.head? from hq.next_eq]
      exact fun h => hne (List.head?_eq_none_iff.mp h)
    refine Or.inr ⟨k, none, ?_, hpop.inserted hk (fun r hr => ?_) (by simp)⟩
    · rw [queueStatement, if_neg hnext]
    · rw [hl] at hr
      simp at hr ⊢
      tauto

end Sorted

/-- From each place the next statement leads on. -/
theorem At.proceeds {x : QueuePoint} (h : x.At alg k Q) : x.Proceeds alg k Q := by
  cases x with
  | enqueueClear q p => exact proceeds_enqueueClear h
  | enqueueReady q p => exact proceeds_enqueueReady h
  | enqueueTest q p => exact proceeds_enqueueTest h
  | enqueueHead q p => exact proceeds_enqueueHead h
  | enqueueLink q p => exact proceeds_enqueueLink h
  | enqueueOnlyTail q p | enqueueTail q p | sortedOnlyTail q p | sortedTail q p =>
      exact returns_tail rfl h.population h.shape.2.2
  | dequeueTest q => exact proceeds_dequeueTest h
  | dequeueRead q => exact proceeds_dequeueRead h
  | dequeueHead q p => exact proceeds_dequeueHead h
  | dequeueEmpty q p => exact proceeds_dequeueEmpty h
  | dequeueTail q p => exact proceeds_dequeueTail h
  | dequeueClear p | removeClear p => exact returns_clear rfl h.population h.shape.1 h.shape.2
  | removeTest q previous p => exact proceeds_removeTest h
  | removeHead q p => exact proceeds_removeHead h
  | removeLink q previous p => exact proceeds_removeLink h
  | removeTailTest q previous p => exact proceeds_removeTailTest h
  | removeTail q previous p => exact proceeds_removeTail h
  | sortedClear q p => exact proceeds_sortedClear h
  | sortedReady q p => exact proceeds_sortedReady h
  | sortedTest q p => exact proceeds_sortedTest h
  | sortedHead q p => exact proceeds_sortedHead h
  | sortedFirst q p => exact proceeds_sortedFirst h
  | sortedFrontLink q p => exact proceeds_sortedFrontLink h
  | sortedFront q p => exact proceeds_sortedFront h
  | sortedStart q p => exact proceeds_sortedStart h
  | sortedLoop q p c => exact proceeds_sortedLoop h
  | sortedCompare q p c => exact proceeds_sortedCompare h
  | sortedAdvance q p c => exact proceeds_sortedAdvance h
  | sortedLink q p c => exact proceeds_sortedLink h
  | sortedBehind q p c => exact proceeds_sortedBehind h
  | sortedLast q p => exact proceeds_sortedLast h

/-- From each place the operation returns, and the ready processes are in the queues then. -/
theorem At.completed {x : QueuePoint} (h : x.At alg k Q) : k.Completed x := by
  induction hr : x.rank Q using Nat.strongRecOn generalizing k Q x with
  | ind n ih =>
      rcases h.proceeds with ⟨k', y, Q', hs, hy, hlt⟩ | ⟨k', out, hs, hend⟩
      · exact (completed_goto hs).mpr (ih _ (hr ▸ hlt) hy rfl)
      · exact (completed_returns hs).mpr hend

/-- An operation that has run for a while is at one of the places. -/
theorem At.run {x y : QueuePoint} {k' : Kernel} (h : x.At alg k Q) {n : Nat}
    (hrun : k.queueRun n x = some (k', .goto y)) : ∃ Q', y.At alg k' Q' := by
  induction n generalizing k Q x with
  | zero =>
      obtain ⟨rfl, hy⟩ := Prod.mk.inj (Option.some.inj hrun)
      exact ⟨Q, QueueFlow.goto.inj hy ▸ h⟩
  | succ n ih =>
      rcases h.proceeds with ⟨k₁, z, Q', hs, hz, -⟩ | ⟨k₁, out, hs, -⟩
      · rw [queueRun, hs] at hrun
        exact ih hz hrun
      · rw [queueRun, hs] at hrun
        exact nomatch (Prod.mk.inj (Option.some.inj hrun)).2

end QueuePoint

end DemoOS
