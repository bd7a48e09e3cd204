import DemoOS.Support.LinkedQueue
import DemoOS.Spec.Sched

/-!
# `DemoOS.Proofs.Scheduler.Queues`: the ready queues as lists

The six ready queues share one link field, so what a queue operation does is
split in two. `Linked k Q` reads the pointers: the queue `q` holds the list
`Q q`, and no process is in two queues. `Kernel.view` reads the rest of the
PCBs. The specification of each operation of `scheduler.c` is an equation for the
view and the list update it performs:

| operation             | list                              | view                    |
|-----------------------|-----------------------------------|-------------------------|
| `enqueueProcessTo`    | `Q q ++ [p]`                      | `p` becomes ready       |
| `enqueueSortedTo`     | `insertByBurst`                   | `p` becomes ready       |
| `dequeueProcessFrom`  | the tail of `Q q`                 | unchanged               |
| `removeProcessFrom`   | `Q q` without the node            | unchanged               |

The remaining fields are `Kernel.rest`. The pointers, and with them fuel and
null tests, do not occur outside this module.
-/

set_option autoImplicit false

namespace DemoOS

open Support

/-- The block without its link. -/
def PCB.unlinked (b : PCB) : PCB := { b with nextReady := none }

namespace Kernel

/-- The PCBs without their links. -/
def view (k : Kernel) (p : PcbPtr) : PCB := (k.pcb p).unlinked

/-- The links. -/
def next (k : Kernel) (p : PcbPtr) : Option PcbPtr := (k.pcb p).nextReady

/-- What neither the queues nor the PCBs nor the draws of the lottery hold. -/
def rest (k : Kernel) : Kernel :=
  { k with
    pcb := fun _ => .zeroed
    queues := fun _ => QUEUE_INIT
    lotteryRngState := 0
    timerClo := fun _ => 0
    trace := [] }

/-- The queues hold the lists `Q`, and no process is in two of them. -/
structure Linked (k : Kernel) (Q : QueueId → List PcbPtr) : Prop where
  queue : ∀ q, IsQueue k.next (k.queues q).head (k.queues q).tail (Q q)
  disjoint : ∀ {q q' : QueueId} {p : PcbPtr}, p ∈ Q q → p ∈ Q q' → q = q'

section Fields
variable {k : Kernel} {p : PcbPtr} {f : PCB → PCB}

@[simp] theorem view_log (e : KernelEvent) : (k.log e).view = k.view := rfl
@[simp] theorem next_log (e : KernelEvent) : (k.log e).next = k.next := rfl
@[simp] theorem rest_log (e : KernelEvent) : (k.log e).rest = k.rest := rfl
@[simp] theorem view_setQueue (queue : QueueId) (q : ProcessQueue) :
    (k.setQueue queue q).view = k.view := rfl
@[simp] theorem next_setQueue (queue : QueueId) (q : ProcessQueue) :
    (k.setQueue queue q).next = k.next := rfl
@[simp] theorem rest_setQueue (queue : QueueId) (q : ProcessQueue) :
    (k.setQueue queue q).rest = k.rest := rfl
@[simp] theorem rest_modifyPcb : (k.modifyPcb p f).rest = k.rest := rfl
@[simp] theorem rest_setLink (x : Option PcbPtr) : (k.setLink p x).rest = k.rest := rfl
@[simp] theorem rest_setState (s : ProcessState) : (k.setState p s).rest = k.rest := rfl
@[simp] theorem rest_setCounter (c : Int) : (k.setCounter p c).rest = k.rest := rfl

/-- An update of other fields than the link is an update of the view. -/
theorem view_modifyPcb (hf : ∀ b, (f b).unlinked = f b.unlinked) :
    (k.modifyPcb p f).view = Function.update k.view p (f (k.view p)) := by
  funext r
  by_cases h : r = p
  · subst h; simp [view, hf]
  · simp [view, modifyPcb_pcb_of_ne, h]

@[simp] theorem view_setState (s : ProcessState) :
    (k.setState p s).view = Function.update k.view p ((k.view p).withState s) :=
  view_modifyPcb (f := fun b => b.withState s) fun _ => rfl

@[simp] theorem view_setCounter (c : Int) :
    (k.setCounter p c).view = Function.update k.view p ((k.view p).withCounter c) :=
  view_modifyPcb (f := fun b => b.withCounter c) fun _ => rfl

@[simp] theorem view_setLink (x : Option PcbPtr) : (k.setLink p x).view = k.view := by
  funext r
  by_cases h : r = p
  · subst h; simp [view, setLink, PCB.unlinked]
  · simp [view, setLink, modifyPcb_pcb_of_ne, h]

/-- An update of other fields than the link leaves the links. -/
theorem next_modifyPcb (hf : ∀ b, (f b).nextReady = b.nextReady) :
    (k.modifyPcb p f).next = k.next := by
  funext r
  by_cases h : r = p
  · subst h; simp [next, hf]
  · simp [next, modifyPcb_pcb_of_ne, h]

@[simp] theorem next_setState (s : ProcessState) : (k.setState p s).next = k.next :=
  next_modifyPcb fun _ => rfl

@[simp] theorem next_setCounter (c : Int) : (k.setCounter p c).next = k.next :=
  next_modifyPcb fun _ => rfl

@[simp] theorem next_setLink (x : Option PcbPtr) :
    (k.setLink p x).next = Function.update k.next p x := by
  funext r
  by_cases h : r = p
  · subst h; simp [next, setLink]
  · simp [next, setLink, modifyPcb_pcb_of_ne, h]

section Rest
variable {k' : Kernel} (h : k'.rest = k.rest)
include h

theorem rest_currentProcess : k'.currentProcess = k.currentProcess := by
  have := congrArg currentProcess h
  exact this

theorem rest_processes : k'.processes = k.processes := by
  have := congrArg processes h
  exact this

theorem rest_nProcesses : k'.nProcesses = k.nProcesses := by
  have := congrArg nProcesses h
  exact this

theorem rest_queueLevel : k'.queueLevel = k.queueLevel := by
  have := congrArg queueLevel h
  exact this

theorem rest_uartOwner : k'.uartOwner = k.uartOwner := by
  have := congrArg uartOwner h
  exact this

end Rest

end Fields

namespace Linked

variable {k k' : Kernel} {Q : QueueId → List PcbPtr} {q : QueueId} {p : PcbPtr}

/-- States with the same links and queue pointers hold the same lists. -/
theorem congr (hk : Linked k Q) (hnext : k'.next = k.next) (hqueues : k'.queues = k.queues) :
    Linked k' Q :=
  ⟨fun q => by rw [hnext, hqueues]; exact hk.queue q, hk.disjoint⟩

theorem modifyPcb (hk : Linked k Q) (f : PCB → PCB)
    (hf : ∀ b, (f b).nextReady = b.nextReady) : Linked (k.modifyPcb p f) Q :=
  hk.congr (next_modifyPcb hf) rfl

theorem log (hk : Linked k Q) (e : KernelEvent) : Linked (k.log e) Q :=
  hk.congr rfl rfl

theorem nodup (hk : Linked k Q) (q : QueueId) : (Q q).Nodup := (hk.queue q).nodup

/-- Replacing one queue: the new pointers and links represent `l`, the other queues
keep their links, and the nodes of `l` are in no other queue. -/
theorem update (hk : Linked k Q) {l : List PcbPtr}
    (hq : IsQueue k'.next (k'.queues q).head (k'.queues q).tail l)
    (hother : ∀ q' ≠ q, k'.queues q' = k.queues q' ∧ ∀ p ∈ Q q', k'.next p = k.next p)
    (hl : ∀ p ∈ l, ∀ q' ≠ q, p ∉ Q q') : Linked k' (Function.update Q q l) := by
  refine ⟨fun q' => ?_, fun {q₁ q₂ p} h₁ h₂ => ?_⟩
  · by_cases h : q' = q
    · subst h; simpa using hq
    · obtain ⟨hqueues, hnext⟩ := hother q' h
      rw [Function.update_of_ne h, hqueues]
      exact (hk.queue q').congr hnext
  · by_cases e₁ : q₁ = q <;> by_cases e₂ : q₂ = q
    · rw [e₁, e₂]
    · subst e₁
      rw [Function.update_self] at h₁
      rw [Function.update_of_ne e₂] at h₂
      exact absurd h₂ (hl p h₁ q₂ e₂)
    · subst e₂
      rw [Function.update_self] at h₂
      rw [Function.update_of_ne e₁] at h₁
      exact absurd h₁ (hl p h₂ q₁ e₁)
    · rw [Function.update_of_ne e₁] at h₁
      rw [Function.update_of_ne e₂] at h₂
      exact hk.disjoint h₁ h₂

end Linked

/-! ### `enqueue_process_to` -/

section Enqueue
variable {k : Kernel} {Q : QueueId → List PcbPtr} {q : QueueId} {p : PcbPtr}

theorem enqueueProcessTo_view (hp : p ≠ .initProcess) :
    (k.enqueueProcessTo q p).view
      = Function.update k.view p ((k.view p).withState .ready) := by
  simp only [enqueueProcessTo, hp, if_false]
  split <;> simp

theorem enqueueProcessTo_rest : (k.enqueueProcessTo q p).rest = k.rest := by
  unfold enqueueProcessTo
  split
  · rfl
  · dsimp only
    split <;> rfl

theorem enqueueProcessTo_trace (hp : p ≠ .initProcess) :
    (k.enqueueProcessTo q p).trace = k.trace ++ [.enqueued q p] := by
  simp only [enqueueProcessTo, hp, if_false]
  split <;> rfl

/-- A process outside the queues joins only the queue it is linked into. -/
theorem Linked.notMem_of_append (hk : Linked k Q) (hfree : ∀ q', p ∉ Q q') :
    ∀ r ∈ Q q ++ [p], ∀ q' ≠ q, r ∉ Q q' := by
  intro r hr q' hq' hrq'
  rcases List.mem_append.mp hr with hr | hr
  · exact hq' (hk.disjoint hrq' hr)
  · rw [List.mem_singleton.mp hr] at hrq'
    exact hfree q' hrq'

/-- `enqueue_process_to` appends. -/
theorem enqueueProcessTo_linked (hk : Linked k Q) (hp : p ≠ .initProcess)
    (hfree : ∀ q', p ∉ Q q') :
    Linked (k.enqueueProcessTo q p) (Function.update Q q (Q q ++ [p])) := by
  have hq := hk.queue q
  have hl := hk.notMem_of_append (q := q) hfree
  simp only [enqueueProcessTo, hp, if_false, log_queues, setState_queues, setLink_queues]
  cases htail : (k.queues q).tail with
  | none =>
      have hnil : Q q = [] := hq.tail_eq_none_iff.mp htail
      refine hk.update ?_ (fun q' hq' => ⟨?_, fun r hr => ?_⟩) hl
      · simpa [hnil] using IsQueue.enqueue_nil k.next p
      · exact setQueue_queues_of_ne _ _ hq'
      · simpa using Function.update_of_ne (ne_of_mem_of_not_mem hr (hfree q')) _ _
  | some t =>
      rw [htail] at hq
      have ht : t ∈ Q q := List.mem_of_getLast? hq.tail_eq.symm
      refine hk.update ?_ (fun q' hq' => ⟨?_, fun r hr => ?_⟩) hl
      · simpa using hq.enqueue (hfree q)
      · exact setQueue_queues_of_ne _ _ hq'
      · have hrt : r ≠ t := fun h => hq' (hk.disjoint (h ▸ hr) ht)
        have hrp : r ≠ p := ne_of_mem_of_not_mem hr (hfree q')
        simp [Function.update_of_ne hrt, Function.update_of_ne hrp]

end Enqueue

/-! ### `dequeue_process_from` -/

section Dequeue
variable {k : Kernel} {Q : QueueId → List PcbPtr} {q : QueueId} {p : PcbPtr} {l : List PcbPtr}

/-- An empty queue is left alone. -/
theorem dequeueProcessFrom_nil (hk : Linked k Q) (hq : Q q = []) :
    k.dequeueProcessFrom q = (k, none) := by
  have hhead : (k.queues q).head = none := (hk.queue q).head_eq_none_iff.mpr hq
  simp [dequeueProcessFrom, hhead]

/-- A nonempty queue loses its first process, and nothing else changes. -/
theorem dequeueProcessFrom_cons (hk : Linked k Q) (hq : Q q = p :: l) :
    ∃ k', k.dequeueProcessFrom q = (k', some p) ∧ Linked k' (Function.update Q q l)
      ∧ k'.view = k.view ∧ k'.rest = k.rest ∧ k'.trace = k.trace := by
  have hqueue := hk.queue q
  rw [hq] at hqueue
  have hhead : (k.queues q).head = some p := hqueue.head_eq
  have hpq : p ∈ Q q := by simp [hq]
  let k' := (k.setQueue q
    ⟨k.next p, if k.next p = none then none else (k.queues q).tail⟩).setLink p none
  have hk' : k.dequeueProcessFrom q = (k', some p) := by
    simp only [dequeueProcessFrom, hhead]
    rfl
  refine ⟨k', hk', ?_, by simp [k'], rfl, rfl⟩
  refine hk.update ?_ (fun q' hq' => ⟨?_, fun r hr => ?_⟩) fun r hr q' hq' hrq' => ?_
  · simpa [k'] using hqueue.dequeue
  · simp [k', setQueue_queues_of_ne _ _ hq']
  · have hrp : r ≠ p := fun h => hq' (hk.disjoint (h ▸ hr) hpq)
    simp [k', Function.update_of_ne hrp]
  · exact hq' (hk.disjoint hrq' (by simp [hq, hr]))

end Dequeue

/-! ### `remove_process_from` -/

section Remove
variable {k : Kernel} {Q : QueueId → List PcbPtr} {q : QueueId} {p : PcbPtr}
  {u v : List PcbPtr}

theorem removeProcessFrom_view (previous : Option PcbPtr) :
    (k.removeProcessFrom q previous p).view = k.view := by
  cases previous <;> simp [removeProcessFrom]

theorem removeProcessFrom_rest (previous : Option PcbPtr) :
    (k.removeProcessFrom q previous p).rest = k.rest := by
  cases previous <;> rfl

theorem removeProcessFrom_trace (previous : Option PcbPtr) :
    (k.removeProcessFrom q previous p).trace = k.trace := by
  cases previous <;> rfl

/-- `remove_process_from`, given the predecessor of the node, cuts the node out of the
queue and moves the tail if it was the last. -/
theorem removeProcessFrom_isQueue
    (hq : IsQueue k.next (k.queues q).head (k.queues q).tail (u ++ p :: v)) :
    IsQueue (k.removeProcessFrom q u.getLast? p).next
      ((k.removeProcessFrom q u.getLast? p).queues q).head
      ((k.removeProcessFrom q u.getLast? p).queues q).tail (u ++ v) := by
  have hunlink := hq.unlink
  cases hu : u.getLast? with
  | none =>
      rw [hu] at hunlink
      simpa [removeProcessFrom, next] using hunlink
  | some t =>
      rw [hu] at hunlink
      have hqueues : (k.removeProcessFrom q (some t) p).queues q
          = ⟨(k.queues q).head,
              if (k.queues q).tail = some p then some t else (k.queues q).tail⟩ :=
        setQueue_queues_self _ _ _
      rw [hqueues]
      simpa [removeProcessFrom, next] using hunlink

/-- It writes the links of the node and of its predecessor only. -/
theorem removeProcessFrom_next_of_ne {previous : Option PcbPtr} {r : PcbPtr} (hrp : r ≠ p)
    (hprevious : previous ≠ some r) : (k.removeProcessFrom q previous p).next r = k.next r := by
  cases previous with
  | none => simp [removeProcessFrom, Function.update_of_ne hrp]
  | some t =>
      have hrt : r ≠ t := fun h => hprevious (congrArg some h.symm)
      simp [removeProcessFrom, Function.update_of_ne hrp, Function.update_of_ne hrt]

/-- It leaves the pointers of the other queues alone. -/
theorem removeProcessFrom_queues_of_ne {previous : Option PcbPtr} {q' : QueueId} (h : q' ≠ q) :
    (k.removeProcessFrom q previous p).queues q' = k.queues q' := by
  cases previous <;> simp [removeProcessFrom, setQueue_queues_of_ne _ _ h]

/-- The process leaves its list, and the other lists stay. -/
theorem removeProcessFrom_linked (hk : Linked k Q) (hq : Q q = u ++ p :: v) :
    Linked (k.removeProcessFrom q u.getLast? p) (Function.update Q q (u ++ v)) := by
  have hqueue := hk.queue q
  rw [hq] at hqueue
  have hpq : p ∈ Q q := by simp [hq]
  refine hk.update (removeProcessFrom_isQueue hqueue)
    (fun q' hq' => ⟨removeProcessFrom_queues_of_ne hq', fun r hr => ?_⟩) fun r hr q' hq' hrq' => ?_
  · refine removeProcessFrom_next_of_ne (fun h => hq' (hk.disjoint (h ▸ hr) hpq)) fun h => ?_
    have hru : r ∈ Q q := by
      rw [hq]
      exact List.mem_append_left _ (List.mem_of_getLast? h)
    exact hq' (hk.disjoint hr hru)
  · refine hq' (hk.disjoint hrq' ?_)
    rw [hq]
    rcases List.mem_append.mp hr with hr | hr <;> simp [hr]

end Remove

/-! ### Walking a queue -/

section Walk
variable {k : Kernel} {Q : QueueId → List PcbPtr}

/-- A walk along the links with enough fuel collects the nodes. -/
theorem walk_eq {h : Option PcbPtr} {l : List PcbPtr} {fuel : Nat}
    (hs : Segment k.next h l none) (hfuel : l.length ≤ fuel) : k.walk fuel h = some l := by
  induction l generalizing h fuel with
  | nil =>
      rw [show h = none from hs]
      cases fuel <;> rfl
  | cons p l ih =>
      rw [hs.1]
      cases fuel with
      | zero => simp at hfuel
      | succ fuel =>
          have := ih hs.2 (by simpa using hfuel)
          simp only [walk]
          rw [show (k.pcb p).nextReady = k.next p from rfl, this]
          rfl

theorem walk_head (hk : Linked k Q) (q : QueueId) (hlen : (Q q).length ≤ N_PROCESSES) :
    k.walk N_PROCESSES (k.queues q).head = some (Q q) :=
  walk_eq (hk.queue q).walk hlen

theorem linkedIn_eq (hk : Linked k Q) (q : QueueId) (hlen : (Q q).length ≤ N_PROCESSES) :
    k.linkedIn q = Q q := by
  simp [linkedIn, walk_head hk q hlen]

end Walk

/-! ### `enqueue_sorted_to` -/

section Sorted
variable {k : Kernel} {Q : QueueId → List PcbPtr} {q : QueueId} {p : PcbPtr}

/-- The loop of `enqueue_sorted_to` stops at the last node of the run of estimates
that are not longer. -/
theorem sortedPosition_eq {c : PcbPtr} {v : List PcbPtr} (fuel : Nat) (e : Int)
    (hs : Segment k.next (some c) (c :: v) none) (hfuel : v.length ≤ fuel) :
    ∃ u, c :: v.takeWhile (fun r => (k.pcb r).estBurst ≤ e)
      = u ++ [k.sortedPosition e fuel c] := by
  induction v generalizing c fuel with
  | nil =>
      have hnext : (k.pcb c).nextReady = none := hs.2
      refine ⟨[], ?_⟩
      cases fuel <;> simp [sortedPosition, hnext]
  | cons d v ih =>
      have hnext : (k.pcb c).nextReady = some d := hs.2.1
      cases fuel with
      | zero => simp at hfuel
      | succ fuel =>
          simp only [sortedPosition, hnext]
          by_cases hd : e < (k.pcb d).estBurst
          · exact ⟨[], by simp [hd]⟩
          · obtain ⟨u, hu⟩ := ih _ ⟨rfl, hs.2.2⟩ (by simpa using hfuel)
            refine ⟨c :: u, ?_⟩
            rw [List.takeWhile_cons_of_pos (by simpa using hd), if_neg hd, hu]
            rfl

theorem enqueueSortedTo_view (hp : p ≠ .initProcess) :
    (k.enqueueSortedTo q p).view = Function.update k.view p ((k.view p).withState .ready) := by
  simp only [enqueueSortedTo, hp, if_false]
  split
  · simp
  · split <;> simp

theorem enqueueSortedTo_rest : (k.enqueueSortedTo q p).rest = k.rest := by
  unfold enqueueSortedTo
  split
  · rfl
  · dsimp only
    split
    · rfl
    · split <;> rfl

theorem enqueueSortedTo_trace (hp : p ≠ .initProcess) :
    (k.enqueueSortedTo q p).trace = k.trace ++ [.enqueued q p] := by
  simp only [enqueueSortedTo, hp, if_false]
  split
  · rfl
  · split <;> rfl

/-- `enqueue_sorted_to` inserts behind the processes with the same or a shorter
estimate. -/
theorem enqueueSortedTo_linked (hk : Linked k Q) (hp : p ≠ .initProcess)
    (hfree : ∀ q', p ∉ Q q') (hlen : (Q q).length ≤ N_PROCESSES) :
    Linked (k.enqueueSortedTo q p) (Function.update Q q (insertByBurst k.view p (Q q))) := by
  have hl : ∀ r ∈ insertByBurst k.view p (Q q), ∀ q' ≠ q, r ∉ Q q' := fun r hr =>
    hk.notMem_of_append hfree r (by
      rcases mem_insertByBurst.mp hr with h | h <;> simp [h])
  have hother : ∀ r q', r ∈ Q q' → r ≠ p := fun r q' hr => ne_of_mem_of_not_mem hr (hfree q')
  -- Clearing the link and marking the process ready touch no queue and no estimate.
  obtain ⟨k₁, hk₁⟩ : ∃ k₁, k₁ = ((k.setLink p none).setState p .ready).log (.enqueued q p) :=
    ⟨_, rfl⟩
  have hnext : k₁.next = Function.update k.next p none := by simp [hk₁]
  have hqueues : k₁.queues = k.queues := by simp [hk₁]
  have hburst : ∀ r, (k₁.pcb r).estBurst = (k.view r).estBurst := by
    intro r
    show (k₁.view r).estBurst = _
    by_cases h : r = p
    · subst h; simp [hk₁, PCB.withState]
    · simp [hk₁, h]
  have hq : IsQueue k₁.next (k.queues q).head (k.queues q).tail (Q q) := by
    refine (hk.queue q).congr fun r hr => ?_
    rw [hnext, Function.update_of_ne (hother r q hr)]
  simp only [enqueueSortedTo, hp, if_false, ← hk₁, hqueues]
  cases hhead : (k.queues q).head with
  | none =>
      have hnil : Q q = [] := hq.head_eq_none_iff.mp hhead
      refine hk.update ?_ (fun q' hq' => ⟨?_, fun r hr => ?_⟩) hl
      · simpa [hnil, insertByBurst, hnext] using IsQueue.enqueue_nil k.next p
      · rw [setQueue_queues_of_ne _ _ hq', hqueues]
      · simp [hnext, Function.update_of_ne (hother r q' hr)]
  | some c =>
      obtain ⟨l, hcl⟩ : ∃ l, Q q = c :: l := by
        cases hQ : Q q with
        | nil => simp [hq.head_eq, hQ] at hhead
        | cons d l => rw [hq.head_eq, hQ] at hhead; exact ⟨l, by simpa using hhead⟩
      dsimp only
      by_cases hlt : (k.view p).estBurst < (k.view c).estBurst
      · -- The shortest estimate of the queue goes to the head.
        have hins : insertByBurst k.view p (Q q) = p :: Q q := by
          simp [insertByBurst, hcl, hlt]
        rw [if_pos (by simpa [hburst] using hlt), hins]
        rw [hins] at hl
        refine hk.update ?_ (fun q' hq' => ⟨?_, fun r hr => ?_⟩) hl
        · simpa [hhead] using hq.insertFirst (by simp [hcl]) (hfree q)
        · rw [setQueue_queues_of_ne _ _ hq', setLink_queues, hqueues]
        · simp [hnext, Function.update_of_ne (hother r q' hr)]
      · -- Otherwise it goes behind the node `d` at which the loop stops.
        rw [if_neg (by simpa [hburst] using hlt)]
        have hseg : Segment k₁.next (some c) (c :: l) none := by
          rw [← hcl, ← hhead]
          exact hq.walk
        obtain ⟨u, hu⟩ := sortedPosition_eq N_PROCESSES (k.view p).estBurst hseg
          (by rw [hcl] at hlen; simp at hlen ⊢; omega)
        rw [hburst p]
        simp only [hburst] at hu
        generalize k₁.sortedPosition (k.view p).estBurst N_PROCESSES c = d at hu ⊢
        obtain ⟨f, hf⟩ : ∃ f : PcbPtr → Bool,
            f = fun r => decide ((k.view r).estBurst ≤ (k.view p).estBurst) := ⟨_, rfl⟩
        have hfc : f c = true := by simpa [hf] using hlt
        rw [← hf] at hu
        have hsplit : Q q = u ++ d :: l.dropWhile f := by
          calc Q q
              _ = (c :: l.takeWhile f) ++ l.dropWhile f := by
                rw [List.cons_append, List.takeWhile_append_dropWhile, hcl]
              _ = u ++ d :: l.dropWhile f := by rw [hu, List.append_assoc]; rfl
        have hins : insertByBurst k.view p (Q q) = u ++ d :: p :: l.dropWhile f := by
          rw [insertByBurst, ← hf, hcl, List.takeWhile_cons_of_pos hfc,
            List.dropWhile_cons_of_pos hfc, hu, List.append_assoc]
          rfl
        have hd : d ∈ Q q := by simp [hsplit]
        have hp' := hfree q
        rw [hsplit] at hq hp'
        rw [hins] at hl ⊢
        refine hk.update ?_ (fun q' hq' => ⟨?_, fun r hr => ?_⟩) hl
        · have hins' := hq.insertAfter hp'
          rw [hhead] at hins'
          simp only [setQueue_queues_self, next_setQueue, next_setLink]
          exact hins'
        · rw [setQueue_queues_of_ne _ _ hq', setLink_queues, setLink_queues, hqueues]
        · have hrd : r ≠ d := fun h => hq' (hk.disjoint (h ▸ hr) hd)
          simp [hnext, Function.update_of_ne hrd, Function.update_of_ne (hother r q' hr)]

end Sorted

theorem enqueueProcess_rest (alg : SchedAlgorithm) (k : Kernel) (p : PcbPtr) :
    (k.enqueueProcess alg p).rest = k.rest := by
  unfold enqueueProcess
  split
  · rfl
  · cases alg with
    | sjf => exact enqueueSortedTo_rest
    | _ => exact enqueueProcessTo_rest

theorem wakeProcesses_rest (alg : SchedAlgorithm) (waits : PCB → Bool) (wake : PCB → PCB)
    (slots : List Nat) (k : Kernel) : (k.wakeProcesses alg waits wake slots).rest = k.rest := by
  induction slots generalizing k with
  | nil => rfl
  | cons i slots ih =>
      refine (ih _).trans ?_
      dsimp only
      split
      · rfl
      · split
        · exact enqueueProcess_rest alg _ _
        · rfl

end Kernel

end DemoOS
