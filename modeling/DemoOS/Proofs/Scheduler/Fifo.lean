import DemoOS.Proofs.Scheduler.WorkConservation

/-!
# `DemoOS.Proofs.Scheduler.Fifo`: round robin and FCFS serve in the order of arrival

The trace of a run records who was linked and who left the ready queue. Under the two
FIFO algorithms these are the same sequence, up to those who are still linked
(`Sched.Fifo.order`). `fifo_fair` reads off what this means for two processes: nobody
gets the CPU twice while another process waits for it.
-/

set_option autoImplicit false

namespace DemoOS

open Support

/-- The processes in the order in which they were linked. -/
def enqueuedIn (trace : List KernelEvent) : List PcbPtr :=
  trace.filterMap fun e => match e with
    | .enqueued _ p => some p
    | _ => none

/-- The processes in the order in which they left a ready queue, for the CPU or because
of a signal. Init is in no queue. -/
def leftIn (trace : List KernelEvent) : List PcbPtr :=
  trace.filterMap fun e => match e with
    | .dispatched p => if p = .initProcess then none else some p
    | .killed p | .stopped p => some p
    | _ => none

section Traces
variable {t u : List KernelEvent} {p : PcbPtr}

theorem enqueuedIn_append : enqueuedIn (t ++ u) = enqueuedIn t ++ enqueuedIn u :=
  List.filterMap_append

theorem leftIn_append : leftIn (t ++ u) = leftIn t ++ leftIn u :=
  List.filterMap_append

/-- Notes are about messages and results, not about queues. -/
theorem leftIn_note {e : KernelEvent} (he : e.isNote = true) :
    enqueuedIn [e] = [] ∧ leftIn [e] = [] ∧ ∀ p, e ≠ .dispatched p := by
  cases e <;> first | exact ⟨rfl, rfl, by simp⟩ | exact nomatch he

/-- The event by which a process left. -/
theorem mem_leftIn (h : p ∈ leftIn t) :
    ∃ e ∈ t, e = .dispatched p ∨ e = .killed p ∨ e = .stopped p := by
  obtain ⟨e, he, hp⟩ := List.mem_filterMap.mp h
  refine ⟨e, he, ?_⟩
  cases e with
  | dispatched r =>
      simp only [Option.ite_none_left_eq_some, Option.some.injEq] at hp
      exact Or.inl (by rw [hp.2])
  | killed r => exact Or.inr (Or.inl (by rw [Option.some.inj hp]))
  | stopped r => exact Or.inr (Or.inr (by rw [Option.some.inj hp]))
  | _ => exact nomatch hp

/-- The event of a dropped process. -/
theorem signalEvents_left {b : PCB} (h : b.signalled = true) :
    enqueuedIn (b.signalEvents p) = [] ∧ leftIn (b.signalEvents p) = [p] := by
  unfold PCB.signalEvents
  by_cases hkill : b.isPending SIGNAL_KILL = true
  · rw [if_pos hkill]
    exact ⟨rfl, rfl⟩
  · -- A process that is not killed is stopped.
    have hstop : b.isPending SIGNAL_STOP = true := by
      unfold PCB.signalled at h
      simpa [hkill] using h
    rw [if_neg hkill, if_pos hstop]
    exact ⟨rfl, rfl⟩

end Traces

/-! ### The invariant -/

/-- Whoever was linked has left again, in the same order, or is still linked. A process
that has just got the CPU is in no queue, and nobody is when that process is init. -/
structure Sched.Fifo (s : Sched) : Prop where
  order : enqueuedIn s.trace = leftIn s.trace ++ s.queue .readyQueue
  last : ∀ p, s.trace.getLast? = some (.dispatched p) →
    p ∉ s.queue .readyQueue ∧ (p = .initProcess → s.queue .readyQueue = [])

namespace Sched.Fifo

variable {alg : SchedAlgorithm} {s s' : Sched} {p : PcbPtr}

theorem congr (h : s.Fifo) (hqueue : s'.queue = s.queue) (htrace : s'.trace = s.trace) :
    s'.Fifo where
  order := by rw [hqueue, htrace]; exact h.order
  last := by rw [hqueue, htrace]; exact h.last

/-- A process joins the queue at its tail. -/
theorem enqueue (h : s.Fifo) (halg : alg = .roundRobin ∨ alg = .fcfs) (p : PcbPtr) :
    (s.enqueue alg p).Fifo where
  order := by
    have hqueue : (s.enqueue alg p).queue .readyQueue = s.queue .readyQueue ++ [p] := by
      rcases halg with rfl | rfl <;>
        exact Function.update_self QueueId.readyQueue (s.queue .readyQueue ++ [p]) s.queue
    rw [hqueue, enqueue_trace, enqueuedIn_append, leftIn_append, h.order]
    show _ ++ [p] = _ ++ [] ++ _
    rw [List.append_nil, List.append_assoc]
  last := by
    intro r hr
    rw [enqueue_trace, List.getLast?_concat] at hr
    exact nomatch Option.some.inj hr

/-- Every action of code keeps the invariant. -/
theorem apply (h : s.Fifo) (halg : alg = .roundRobin ∨ alg = .fcfs) {a : Action}
    (hg : a.Guard alg s) (ha : a.IsCode) : (a.apply alg s).Fifo := by
  cases a with
  | edit | leave | setLevel | resetLevels | own | clear => exact h.congr rfl rfl
  | wake r => exact h.enqueue halg r
  | promote level r =>
      obtain rfl := hg.1
      rcases halg with halg | halg <;> exact nomatch halg
  | register r cloneFlags mm =>
      refine Fifo.enqueue ?_ halg r
      exact h.congr rfl rfl
  | note e =>
      obtain ⟨henqueued, hleft, hne⟩ := leftIn_note hg
      refine ⟨?_, fun r hr => ?_⟩
      · show enqueuedIn (s.trace ++ [e]) = leftIn (s.trace ++ [e]) ++ _
        rw [enqueuedIn_append, leftIn_append, henqueued, hleft, h.order]
        simp only [List.append_nil]
        rfl
      · rw [show ((Action.note e).apply alg s).trace = s.trace ++ [e] from rfl,
          List.getLast?_concat] at hr
        exact absurd (Option.some.inj hr) (hne r)
  | requeue | drop | recharge | dispatch => exact absurd ha id

end Sched.Fifo

/-! ### Selections -/

section Picks
variable {alg : SchedAlgorithm} {s s' : Sched} {as : List Action}

/-- A search records the processes that it drops. -/
theorem Exec.leftIn (h : Exec alg s as s') (has : ∀ a ∈ as, a.Selects) :
    enqueuedIn s'.trace = enqueuedIn s.trace
      ∧ DemoOS.leftIn s'.trace = DemoOS.leftIn s.trace ++ drops as := by
  induction as generalizing s with
  | nil =>
      rw [show s' = s from h]
      exact ⟨rfl, (List.append_nil _).symm⟩
  | cons a as ih =>
      obtain ⟨henqueued, hleft⟩ := ih h.2 fun b hb => has b (by simp [hb])
      have ha := has a (by simp)
      rw [henqueued, hleft]
      cases a with
      | drop p =>
          obtain ⟨hnone, hone⟩ := signalEvents_left (p := p) h.1.2
          have htrace : ((Action.drop p).apply alg s).trace
              = s.trace ++ (s.block p).signalEvents p := rfl
          rw [htrace, enqueuedIn_append, leftIn_append, hnone, hone, List.append_nil,
            List.append_assoc]
          exact ⟨rfl, rfl⟩
      | edit p e =>
          cases e with
          | clearResume => exact ⟨rfl, rfl⟩
          | _ => exact absurd ha id
      | recharge =>
          have htrace : (Action.recharge.apply alg s).trace
              = s.trace ++ [.recharged (s.queue .readyQueue)] := rfl
          rw [htrace, enqueuedIn_append, leftIn_append]
          exact ⟨List.append_nil _, congrArg (· ++ drops as) (List.append_nil _)⟩
      | _ => exact absurd ha id

/-- A selection keeps the invariant: it takes the processes from the front of the queue. -/
theorem PickExec.fifo {s₁ s₂ s₃ : Sched} {next : Option PcbPtr} {quantum : Option Int}
    (h : PickExec alg s₁ as s₂ next quantum s₃) (hinv : s₁.Inv alg)
    (halg : alg = .roundRobin ∨ alg = .fcfs) (hfifo : s₁.Fifo) : s₃.Fifo := by
  have hopened : (s₁.requeued alg).Fifo := by
    unfold Sched.requeued
    dsimp only
    split
    · refine Sched.Fifo.enqueue ?_ halg _
      exact hfifo.congr rfl rfl
    · exact hfifo.congr rfl rfl
  have hinv₁ := inv_requeued hinv
  have hnodup := hinv₁.queues.nodup .readyQueue
  have hscan : alg.scanOrder (s₁.requeued alg)
      = some ((s₁.requeued alg).queue .readyQueue) := by
    rcases halg with rfl | rfl <;> rfl
  obtain ⟨hdrops, hnext⟩ := h.scans _ hscan
  obtain ⟨henqueued, hleft⟩ := h.exec.leftIn h.selects
  -- The search leaves the queue from the first process on that no signal removes.
  have hqueue : s₂.queue .readyQueue
      = ((s₁.requeued alg).queue .readyQueue).dropWhile (s₁.requeued alg).removed := by
    rw [h.selected.queue, hdrops]
    exact filter_notMem_takeWhile hnodup
  have hsearch : enqueuedIn s₂.trace = leftIn s₂.trace ++ s₂.queue .readyQueue := by
    rw [henqueued, hleft, hqueue, hdrops, hopened.order, List.append_assoc,
      List.takeWhile_append_dropWhile]
  rw [← hqueue] at hnext
  rw [h.final]
  refine Sched.Fifo.congr (s := (Action.dispatch next quantum).apply alg s₂) ?_ rfl rfl
  cases hl : s₂.queue .readyQueue with
  | nil =>
      rw [hl] at hnext hsearch
      obtain rfl : next = none := hnext
      have htrace : ((Action.dispatch none quantum).apply alg s₂).trace
          = s₂.trace ++ [.dispatched .initProcess] := Sched.switchTo_trace
      have hqueue' : ((Action.dispatch none quantum).apply alg s₂).queue .readyQueue = [] :=
        (congrFun Sched.switchTo_queue _).trans hl
      refine ⟨?_, fun r hr => by rw [hqueue']; simp⟩
      rw [htrace, hqueue', enqueuedIn_append, leftIn_append, hsearch]
      rfl
  | cons r l =>
      rw [hl] at hnext hsearch
      obtain rfl : next = some r := hnext
      have hr : r ≠ .initProcess :=
        ((h.inv hinv).linked_registered ⟨.readyQueue, by rw [hl]; simp⟩).2
      have hfree : r ∉ l := by
        have := (h.inv hinv).queues.nodup .readyQueue
        rw [hl] at this
        exact (List.nodup_cons.mp this).1
      have htrace : ((Action.dispatch (some r) quantum).apply alg s₂).trace
          = s₂.trace ++ [.dispatched r] := Sched.switchTo_trace
      have hqueue' : ((Action.dispatch (some r) quantum).apply alg s₂).queue .readyQueue = l := by
        refine (congrFun Sched.switchTo_queue _).trans ?_
        show (s₂.queue .readyQueue).filter (· ≠ r) = l
        rw [hl, List.filter_cons_of_neg (by simp), filter_ne_eq_self hfree]
      refine ⟨?_, fun p hp => ?_⟩
      · have hone : leftIn [.dispatched r] = [r] := by simp [leftIn, hr]
        rw [htrace, hqueue', enqueuedIn_append, leftIn_append, hone, hsearch]
        show _ ++ [] = _
        simp
      · rw [htrace, List.getLast?_concat] at hp
        obtain rfl : r = p := by simpa using hp
        rw [hqueue']
        exact ⟨hfree, fun he => absurd he hr⟩

/-- Every kernel step keeps the invariant. -/
theorem StepExec.fifo {dep : Departure} (h : StepExec alg dep s as s') (hinv : s.Inv alg)
    (halg : alg = .roundRobin ∨ alg = .fcfs) (hfifo : s.Fifo) : s'.Fifo := by
  have hcode : ∀ {t : Sched} {bs : List Action}, Exec alg s bs t → (∀ a ∈ bs, a.IsCode) →
      t.Fifo := by
    intro t bs hexec hall
    exact hexec.invariant (fun _ _ ha hg ht => ht.apply halg hg ha) hall hfifo
  cases h with
  | returns hexec hstays => exact hcode hexec fun a ha => (hstays a ha).isCode
  | schedules hexec hall _ hpick =>
      exact hpick.fifo (hinv.exec hexec) halg (hcode hexec fun a ha => (hall a ha).1)

end Picks

/-! ### Runs -/

section Runs
variable {alg : SchedAlgorithm} {k : Kernel}

theorem reachable_fifo (halg : alg = .roundRobin ∨ alg = .fcfs) (hk : Kernel.Reachable alg k) :
    ∃ s, Settled alg k s ∧ s.Fifo :=
  reachable_invariant ⟨rfl, fun _ hp => nomatch hp⟩
    (fun _ hinv _ hexec hfifo => hexec.fifo hinv halg hfifo) hk

/-- Under round robin and FCFS, in every reachable state, the processes that were linked
are those that left followed by those that are linked, each in this order. So when a
process `p` is dispatched while `q` is linked, and is dispatched again later, `q` was
dispatched, killed or stopped in between. -/
theorem fifo_fair (halg : alg = .roundRobin ∨ alg = .fcfs) (hk : Kernel.Reachable alg k) :
    enqueuedIn k.trace = leftIn k.trace ++ k.linkedIn .readyQueue
    ∧ ∀ p q ts k' u v, k.trace.getLast? = some (.dispatched p) → q ∈ k.linkedIn .readyQueue →
      k.run alg ts = some k' → k'.trace = k.trace ++ u ++ .dispatched p :: v →
      ∃ e ∈ u, e = .dispatched q ∨ e = .killed q ∨ e = .stopped q := by
  obtain ⟨s, hs, hfifo⟩ := reachable_fifo halg hk
  have hlinked := hs.refines.linkedIn_eq hs.inv .readyQueue
  have horder := hfifo.order
  rw [← hs.refines.trace, ← hlinked] at horder
  refine ⟨horder, ?_⟩
  intro p q ts k' u v hlast hq hrun htrace
  obtain ⟨hp, hinit⟩ := hfifo.last p (by rw [← hs.refines.trace]; exact hlast)
  rw [← hlinked] at hp hinit
  have hne : p ≠ .initProcess := by
    intro he
    rw [hinit he] at hq
    exact nomatch hq
  obtain ⟨s', hs', hfifo'⟩ := reachable_fifo halg (reachable_run hk hrun)
  have horder' := hfifo'.order
  have hone : leftIn [.dispatched p] = [p] := by simp [leftIn, hne]
  rw [← hs'.refines.trace, htrace, List.append_assoc, enqueuedIn_append, leftIn_append, horder,
    List.append_assoc, List.append_assoc, List.append_cancel_left_eq, leftIn_append,
    ← List.singleton_append, leftIn_append, hone, List.append_assoc, List.append_assoc] at horder'
  -- Those who were linked come first, and `p` is none of them.
  have hqu : q ∈ leftIn u := by
    rcases List.append_eq_append_iff.mp horder' with ⟨l, hl, -⟩ | ⟨l, hl, hrest⟩
    · rw [hl]
      exact List.mem_append_left _ hq
    · cases l with
      | nil =>
          rw [hl, List.append_nil] at hq
          exact hq
      | cons r l =>
          obtain rfl : p = r := (List.cons_eq_cons.mp hrest).1
          exact absurd (by rw [hl]; simp) hp
  exact mem_leftIn hqu

/-- Process 2 gets the CPU while process 1 is linked, and gets it again after process 1. -/
theorem fifo_fair_yields :
    ∃ k k', (Kernel.boot fun _ => 0).run .roundRobin [.kernelMain (some 0), .timerTick,
        .moveToUserMode .empty .zeroed, .fork (some 1) .empty, .yield] = some k
      ∧ k.run .roundRobin [.yield, .yield] = some k'
      ∧ enqueuedIn k.trace = leftIn k.trace ++ k.linkedIn .readyQueue
      ∧ ∃ e ∈ [KernelEvent.enqueued .readyQueue (.page 1), .dispatched (.page 0),
          .enqueued .readyQueue (.page 0)],
        e = .dispatched (.page 0) ∨ e = .killed (.page 0) ∨ e = .stopped (.page 0) := by
  have hrun : ((Kernel.boot fun _ => 0).run .roundRobin [.kernelMain (some 0), .timerTick,
      .moveToUserMode .empty .zeroed, .fork (some 1) .empty, .yield]).bind (fun k =>
        (k.run .roundRobin [.yield, .yield]).map fun k' =>
          (k.trace.getLast?, k.linkedIn .readyQueue, decide (k'.trace = k.trace
            ++ [KernelEvent.enqueued .readyQueue (.page 1), .dispatched (.page 0),
              .enqueued .readyQueue (.page 0)] ++ [KernelEvent.dispatched (.page 1)])))
      = some (some (.dispatched (.page 1)), [.page 0], true) := by decide +kernel
  obtain ⟨k, hk, hrun⟩ := Option.bind_eq_some_iff.mp hrun
  obtain ⟨k', hk', hvalues⟩ := Option.map_eq_some_iff.mp hrun
  simp only [Prod.mk.injEq] at hvalues
  obtain ⟨hlast, hlinked, htrace⟩ := hvalues
  obtain ⟨horder, hfair⟩ := fifo_fair (Or.inl rfl) (reachable_run (.boot _) hk)
  exact ⟨k, k', hk, hk', horder, hfair (.page 1) (.page 0) _ k' _ [] hlast
    (by rw [hlinked]; simp) hk' (of_decide_eq_true htrace)⟩

end Runs

end DemoOS
