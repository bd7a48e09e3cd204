import DemoOS.Support.StableOrder
import DemoOS.Proofs.Scheduler.WorkConservation

/-!
# `DemoOS.Proofs.Scheduler.ShortestJob`: the ready queue of SJF

Under SJF the ready queue is ordered by `est_burst`, and within an estimate by the time of
insertion. The time of insertion is read off the history (`enqueueTime`), so that the order is a
property of the state alone (`ShortestFirst`), which every action keeps. The keys cannot change
under the queue: the only writer of `est_burst` is `schedule`, for a process that blocks or
exits (`Exec.estBurst`).

SJF never takes the CPU away from init, so that in the runs of `Reachable` no process is ever
dispatched. The results are about more: in the runs of `Dispatching` the selection function may
also be called between any two steps.
-/

set_option autoImplicit false

namespace DemoOS

open Kernel Support

/-! ### The time of insertion -/

/-- The event links the process into a queue. -/
def KernelEvent.links (p : PcbPtr) : KernelEvent → Bool
  | .enqueued _ r => r = p
  | _ => false

/-- The length of the history when the process was last linked into a queue. -/
def enqueueTime (trace : List KernelEvent) (p : PcbPtr) : Nat :=
  trace.length - trace.reverse.findIdx (KernelEvent.links p)

section EnqueueTime
variable {t : List KernelEvent} {p r : PcbPtr}

theorem enqueueTime_le : enqueueTime t p ≤ t.length := Nat.sub_le _ _

/-- An insertion happens now. -/
theorem enqueueTime_enqueued (q : QueueId) : enqueueTime (t ++ [.enqueued q p]) p = t.length + 1 := by
  simp [enqueueTime, KernelEvent.links, List.findIdx_cons]

theorem enqueueTime_concat {e : KernelEvent} (he : e.links p = false) :
    enqueueTime (t ++ [e]) p = enqueueTime t p := by
  simp only [enqueueTime, List.length_append, List.length_singleton, List.reverse_append,
    List.reverse_singleton, List.singleton_append, List.findIdx_cons, he, cond_false]
  omega

/-- Events that link nobody leave the times. -/
theorem enqueueTime_append {es : List KernelEvent} (hes : ∀ e ∈ es, e.links p = false) :
    enqueueTime (t ++ es) p = enqueueTime t p := by
  induction es generalizing t with
  | nil => rw [List.append_nil]
  | cons e es ih =>
      rw [List.append_cons, ih fun e' he' => hes e' (List.mem_cons_of_mem e he'),
        enqueueTime_concat (hes e List.mem_cons_self)]

theorem links_of_ne {q : QueueId} (h : r ≠ p) : (KernelEvent.enqueued q r).links p = false :=
  decide_eq_false h

/-- The events of a handled signal link nobody. -/
theorem links_signalEvents {b : PCB} : ∀ e ∈ b.signalEvents r, e.links p = false := by
  intro e he
  unfold PCB.signalEvents at he
  split at he
  · rw [List.mem_singleton.mp he]
    rfl
  · split at he
    · rw [List.mem_singleton.mp he]
      rfl
    · exact nomatch he

end EnqueueTime

/-! ### The order of the queue -/

namespace Sched

/-- `a` goes before `b`: it has the shorter estimate, or the same one and has waited longer. -/
def Before (s : Sched) : PcbPtr → PcbPtr → Prop :=
  Support.Before (fun p => (s.block p).estBurst) (enqueueTime s.trace)

/-- The ready queue is in this order. -/
def ShortestFirst (s : Sched) : Prop := (s.queue .readyQueue).Pairwise s.Before

namespace ShortestFirst

variable {s s' : Sched} {p : PcbPtr}

/-- Changes that take processes out of the queue, and leave the estimates and insertion times of
the others. -/
theorem of_sublist (h : s.ShortestFirst) (hqueue : (s'.queue .readyQueue).Sublist (s.queue .readyQueue))
    (hburst : ∀ r ∈ s.queue .readyQueue, (s'.block r).estBurst = (s.block r).estBurst)
    (htime : ∀ r, enqueueTime s'.trace r = enqueueTime s.trace r) : s'.ShortestFirst := by
  refine (h.sublist hqueue).imp_of_mem fun {a b} ha hb hab => ?_
  exact (before_congr (hburst a (hqueue.subset ha)) (hburst b (hqueue.subset hb)) (htime a)
    (htime b)).mpr hab

/-- A process that is in no queue joins at its place. -/
theorem enqueue (h : s.ShortestFirst) (hfree : p ∉ s.queue .readyQueue) :
    (s.enqueue .sjf p).ShortestFirst := by
  have hqueue : (s.enqueue .sjf p).queue .readyQueue
      = insertByBurst s.block p (s.queue .readyQueue) :=
    Function.update_self QueueId.readyQueue _ s.queue
  have hburst : ∀ r, ((s.enqueue .sjf p).block r).estBurst = (s.block r).estBurst :=
    enqueue_field .sjf PCB.estBurst (fun _ _ => rfl)
  have htrace : (s.enqueue .sjf p).trace = s.trace ++ [.enqueued .readyQueue p] := rfl
  have htime : ∀ r ∈ s.queue .readyQueue,
      enqueueTime (s.enqueue .sjf p).trace r = enqueueTime s.trace r := by
    intro r hr
    have hne : p ≠ r := fun he => hfree (he ▸ hr)
    rw [htrace, enqueueTime_concat (links_of_ne hne)]
  -- The queue in the order that it has once the process has its new time.
  have hold : (s.queue .readyQueue).Pairwise
      (Support.Before (fun r => (s.block r).estBurst) (enqueueTime (s.enqueue .sjf p).trace)) :=
    h.imp_of_mem fun {a b} ha hb hab =>
      (before_congr rfl rfl (htime a ha) (htime b hb)).mpr hab
  have hnow : enqueueTime (s.enqueue .sjf p).trace p = s.trace.length + 1 := by
    rw [htrace, enqueueTime_enqueued]
  have hinsert := pairwise_insert (p := p) hold fun r hr => by
    rw [hnow, htime r hr]
    exact Nat.lt_succ_of_le enqueueTime_le
  unfold ShortestFirst Before
  rw [hqueue, funext hburst]
  exact hinsert

/-- Every action keeps the order. -/
theorem apply (hinv : s.Inv .sjf) {a : Action} (hg : a.Guard .sjf s) (h : s.ShortestFirst) :
    (a.apply .sjf s).ShortestFirst := by
  have hregistered : ∀ r ∈ s.queue .readyQueue, s.Registered r := fun r hr =>
    (hinv.linked_registered ⟨_, hr⟩).1
  have hfree : ∀ {r}, s.state r ≠ .ready → r ∉ s.queue .readyQueue := fun hst hr =>
    hst (hinv.linked_ready ⟨_, hr⟩)
  cases a with
  | edit r e =>
      refine h.of_sublist (List.Sublist.refl _) (fun x hx => ?_) fun _ => rfl
      show ((s.modify r e.apply).block x).estBurst = _
      rw [modify_block]
      split
      · next hxr =>
          subst hxr
          cases e with
          | touch f keeps => exact Sched.core_estBurst (keeps (s.block x))
          | endBurst => exact absurd (hinv.linked_ready ⟨_, hx⟩) hg.2.2.2
          | _ => rfl
      · rfl
  | leave st =>
      exact h.of_sublist (List.Sublist.refl _)
        (fun r _ => setState_field PCB.estBurst (fun _ _ => rfl) st r) fun _ => rfl
  | wake r =>
      refine h.enqueue (hfree fun hst => ?_)
      rw [Action.Guard, hst] at hg
      exact nomatch hg.2
  | setLevel | own => exact h.of_sublist (List.Sublist.refl _) (fun _ _ => rfl) fun _ => rfl
  | promote | resetLevels => exact nomatch hg
  | clear r =>
      refine h.of_sublist (List.Sublist.refl _) (fun x hx => ?_) fun _ => rfl
      have hxr : x ≠ r := fun he => hg (he ▸ hregistered x hx)
      have hblock : ((Action.clear r).apply .sjf s).block x = s.block x :=
        modify_block_of_ne (s := s) (f := fun _ => .zeroed) hxr
      rw [hblock]
  | register r cloneFlags mm =>
      have hr : r ∉ s.queue .readyQueue := fun hr => hg.1 (hregistered r hr)
      refine ShortestFirst.enqueue (s := s.addToTable r _ _) ?_ hr
      refine h.of_sublist (List.Sublist.refl _) (fun x hx => ?_) fun _ => rfl
      have hxr : x ≠ r := fun he => hr (he ▸ hx)
      rw [addToTable_block_of_ne hxr]
  | note e =>
      refine h.of_sublist (List.Sublist.refl _) (fun _ _ => rfl) fun r => ?_
      refine enqueueTime_concat ?_
      cases e <;> first | rfl | exact nomatch hg
  | requeue =>
      refine h.enqueue (hfree ?_)
      rw [hg.2]
      decide
  | drop r =>
      refine h.of_sublist List.filter_sublist (fun x _ => ?_) fun x =>
        enqueueTime_append links_signalEvents
      exact modify_field (s := s.unlink r) PCB.estBurst
        (PCB.handled_field PCB.estBurst (fun _ _ _ => rfl) _) x
  | recharge => exact nomatch hg.1
  | dispatch next quantum =>
      cases next with
      | none =>
          refine h.of_sublist ?_ (fun x _ => switchTo_field PCB.estBurst (fun _ _ => rfl) x)
            fun x => ?_
          · rw [Action.apply, switchTo_queue]
          · rw [Action.apply, switchTo_trace, enqueueTime_concat rfl]
      | some r =>
          refine h.of_sublist ?_ (fun x _ => ?_) fun x => ?_
          · rw [Action.apply, switchTo_queue]
            exact List.filter_sublist
          · rw [Action.apply, switchTo_field PCB.estBurst (fun _ _ => rfl)]
            exact modify_field PCB.estBurst rfl x
          · rw [Action.apply, switchTo_trace, enqueueTime_concat rfl]
            rfl

end ShortestFirst

end Sched

/-! ### The estimates of linked processes -/

section Estimates
variable {alg : SchedAlgorithm} {s s' : Sched} {as : List Action} {p : PcbPtr}

/-- Code writes the estimate of nobody but the current process and a new one. -/
theorem Exec.estBurst (h : Exec alg s as s') (has : ∀ a ∈ as, a.IsCode) (hp : s.Registered p)
    (hne : p ≠ s.currentProcess) (hinv : s.Inv alg) :
    (s'.block p).estBurst = (s.block p).estBurst := by
  refine (h.invariant (A := Action.IsCode) (P := fun t => t.Inv alg ∧ t.Registered p
    ∧ p ≠ t.currentProcess ∧ (t.block p).estBurst = (s.block p).estBurst) ?_ has
    ⟨hinv, hp, hne, rfl⟩).2.2.2
  rintro t a ha hg ⟨htinv, htp, htne, hburst⟩
  refine ⟨htinv.apply hg, htinv.registered_apply hg htp, ?_⟩
  cases a with
  | edit r e =>
      refine ⟨htne, (Eq.trans ?_ hburst)⟩
      show ((t.modify r e.apply).block p).estBurst = _
      rw [Sched.modify_block]
      split
      · next hpr =>
          subst hpr
          cases e with
          | touch f keeps => exact Sched.core_estBurst (keeps (t.block p))
          | endBurst => exact absurd hg.1 htne
          | _ => rfl
      · rfl
  | leave st =>
      exact ⟨htne, (Sched.setState_field PCB.estBurst (fun _ _ => rfl) st p).trans hburst⟩
  | wake r =>
      exact ⟨htne, (Sched.enqueue_field alg PCB.estBurst (fun _ _ => rfl) p).trans hburst⟩
  | clear r =>
      have hpr : p ≠ r := fun he => hg (he ▸ htp)
      have hblock : ((Action.clear r).apply alg t).block p = t.block p :=
        Sched.modify_block_of_ne (s := t) (f := fun _ => .zeroed) hpr
      exact ⟨htne, (congrArg PCB.estBurst hblock).trans hburst⟩
  | register r cloneFlags mm =>
      have hpr : p ≠ r := fun he => hg.1 (he ▸ htp)
      refine ⟨htne, (Sched.enqueue_field alg PCB.estBurst (fun _ _ => rfl) p).trans ?_⟩
      rw [Sched.addToTable_block_of_ne hpr, hburst]
  | setLevel | promote | resetLevels | own | note => exact ⟨htne, hburst⟩
  | requeue | drop | recharge | dispatch => exact absurd ha id

/-- A selection function writes nobody's estimate. -/
theorem PickExec.estBurst {s₂ s₃ : Sched} {next : Option PcbPtr} {quantum : Option Int}
    (h : PickExec alg s as s₂ next quantum s₃) : (s₃.block p).estBurst = (s.block p).estBurst := by
  have hopened : ((s.requeued alg).block p).estBurst = (s.block p).estBurst :=
    Sched.requeued_field PCB.estBurst (fun _ _ => rfl) (fun _ => rfl) p
  have hsearched := h.searched_field PCB.estBurst (fun _ _ _ _ => rfl) p
  rw [h.dispatched_field PCB.estBurst (fun _ _ _ _ => rfl) p, ite_self, hsearched, hopened]

/-- No kernel step writes the estimate of a process that is linked when it starts. -/
theorem StepExec.estBurst {dep : Departure} (h : StepExec alg dep s as s') (hinv : s.Inv alg)
    (hrun : s.Running) (hp : s.IsLinked p) : (s'.block p).estBurst = (s.block p).estBurst := by
  obtain ⟨hreg, hne⟩ := hinv.linked_registered hp
  -- A linked process is ready, and the current one is running.
  have hcur : p ≠ s.currentProcess := by
    intro he
    have hready := hinv.linked_ready hp
    rw [he] at hne hready
    exact nomatch hready.symm.trans (hrun hne)
  cases h with
  | returns hexec hstays => exact hexec.estBurst (fun a ha => (hstays a ha).isCode) hreg hcur hinv
  | schedules hexec hall _ hpick =>
      exact hpick.estBurst.trans (hexec.estBurst (fun a ha => (hall a ha).1) hreg hcur hinv)

end Estimates

/-! ### Runs -/

namespace Kernel

/-- The states of runs in which the selection function may also be called between two steps. -/
inductive Dispatching (alg : SchedAlgorithm) : Kernel → Prop
  | boot (timerClo : Nat → BitVec 32) : Dispatching alg (boot timerClo)
  | step {k k' : Kernel} (t : Trap) :
      Dispatching alg k → k.step alg t = some k' → Dispatching alg k'
  | pick {k k' : Kernel} : Dispatching alg k → alg.pickNext k = some k' → Dispatching alg k'

/-- The runs of kernel steps are among them. -/
theorem Reachable.dispatching {alg : SchedAlgorithm} {k : Kernel} (hk : Reachable alg k) :
    Dispatching alg k := by
  induction hk with
  | boot timerClo => exact .boot timerClo
  | step t _ hstep ih => exact .step t ih hstep

/-- `a` goes before `b` in the ready queue. -/
def Before (k : Kernel) : PcbPtr → PcbPtr → Prop :=
  Support.Before (fun p => (k.pcb p).estBurst) (enqueueTime k.trace)

/-- The ready queue is sorted by estimates, and equal ones by the time of insertion. -/
def SortedByBurst (k : Kernel) : Prop := (k.linkedIn .readyQueue).Pairwise k.Before

/-- The process with the CPU in `k'` is the first, in this order, of the processes in the ready
queue of `k` that are still ready once their signals are handled. It is init if there is no such
process. -/
def DispatchesShortest (alg : SchedAlgorithm) (k k' : Kernel) : Prop :=
  (k'.currentProcess = .initProcess ∧ ∀ p ∈ k.linkedIn .readyQueue, ¬ k.Survives alg p)
  ∨ (k'.currentProcess ∈ k.linkedIn .readyQueue ∧ k.Survives alg k'.currentProcess
    ∧ ∀ p ∈ k.linkedIn .readyQueue, k.Survives alg p → p ≠ k'.currentProcess →
      k.Before k'.currentProcess p)

end Kernel

section Runs
variable {k k' : Kernel} {s : Sched}

/-- What every action preserves holds in these runs. -/
theorem dispatching_of_actions {alg : SchedAlgorithm} {P : Sched → Prop} (hboot : P .boot)
    (haction : ∀ (s : Sched) (a : Action), s.Inv alg → a.Guard alg s → P s → P (a.apply alg s))
    (hk : Dispatching alg k) : ∃ s, Settled alg k s ∧ P s := by
  induction hk with
  | boot timerClo => exact ⟨_, settled_boot alg timerClo, hboot⟩
  | step t _ hstep ih =>
      obtain ⟨s, hs, hp⟩ := ih
      obtain ⟨as, s', hexec, hs'⟩ := step_exec hs hstep
      exact ⟨s', hs', (hexec.exec.preserves haction hs.inv hp).2⟩
  | pick _ hpick ih =>
      obtain ⟨s, hs, hp⟩ := ih
      obtain ⟨k', as, s₂, next, quantum, s₃, hpick', hexec, hs', -⟩ :=
        pickNext_exec alg hs.refines hs.inv
      obtain rfl := Option.some.inj (hpick'.symm.trans hpick)
      exact ⟨s₃, hs', (hexec.all.preserves haction hs.inv hp).2⟩

/-- The order of the kernel is that of the abstract state. -/
theorem Refines.before_eq (h : Refines k s) : k.Before = s.Before := by
  have hburst : (fun p => (k.pcb p).estBurst) = fun p => (s.block p).estBurst := by
    funext p
    rw [h.block_eq]
    rfl
  unfold Kernel.Before Sched.Before
  rw [hburst, h.trace]

theorem sortedByBurst_of (h : Refines k s) (hinv : s.Inv .sjf) (hsorted : s.ShortestFirst) :
    k.SortedByBurst := by
  unfold SortedByBurst
  rw [h.linkedIn_eq hinv, h.before_eq]
  exact hsorted

/-- A selection that starts with a sorted queue. -/
theorem dispatchesShortest_of (h : Refines k s) (hinv : s.Inv .sjf) (hsorted : s.ShortestFirst)
    (hpick : SchedAlgorithm.sjf.pickNext k = some k') :
    (k.requeueOutgoing SchedAlgorithm.sjf.enqueue).DispatchesShortest .sjf k' := by
  obtain ⟨k₁, as, s₂, next, quantum, s₃, hpick', hexec, hs', -⟩ := pickNext_exec .sjf h hinv
  obtain rfl := Option.some.inj (hpick'.symm.trans hpick)
  have hk₁ : Refines (k.requeueOutgoing SchedAlgorithm.sjf.enqueue) (s.requeued .sjf) :=
    requeueOutgoing_refines h hinv rfl
  have hinv₁ := inv_requeued hinv
  have hexec₁ : Exec .sjf s s.requeueActions (s.requeued .sjf) := Sched.exec_requeued
  obtain ⟨hinv₁', hsorted₁⟩ := hexec₁.preserves (fun _ _ hi hg hp => hp.apply hi hg) hinv hsorted
  have hlinked := hk₁.linkedIn_eq hinv₁ .readyQueue
  have hcur : k₁.currentProcess = next.getD .initProcess :=
    hs'.refines.currentProcess.trans hexec.currentProcess
  have hsurvives : ∀ {p}, p ∈ (s.requeued .sjf).queue .readyQueue →
      ((k.requeueOutgoing SchedAlgorithm.sjf.enqueue).Survives .sjf p
        ↔ (s.requeued .sjf).removed p = false) := fun hp => survives_iff hk₁ hinv₁ ⟨_, hp⟩
  -- The scan of the queue ends with the first process that no signal removes.
  have hnext := (hexec.scans _ rfl).2
  unfold DispatchesShortest
  rw [hlinked, hcur, hk₁.before_eq]
  cases hn : next with
  | none =>
      rw [hn] at hnext
      refine Or.inl ⟨rfl, fun p hp => ?_⟩
      rw [hsurvives hp]
      have hall := List.head?_eq_none_iff.mp hnext.symm
      simpa using List.dropWhile_eq_nil_iff.mp hall p hp
  | some r =>
      rw [hn] at hnext
      have hfind : ((s.requeued .sjf).queue .readyQueue).find?
          (fun p => !(s.requeued .sjf).removed p) = some r :=
        (List.find?_not_eq_head?_dropWhile _ _).trans hnext.symm
      have hr : (s.requeued .sjf).removed r = false := by simpa using List.find?_some hfind
      have hmem := List.mem_of_find?_eq_some hfind
      refine Or.inr ⟨hmem, (hsurvives hmem).mpr hr, fun p hp hsurvive hne => ?_⟩
      exact rel_of_find hsorted₁ hfind hp (by simpa using (hsurvives hp).mp hsurvive) hne

/-- Under SJF the ready queue is sorted by estimates, with equal estimates in the order of
insertion, in every state between two steps. No step changes the estimate of a linked process,
and a selection gives the CPU to the first process that survives its signals. -/
theorem sjf_shortest_first (hk : Dispatching .sjf k) :
    k.SortedByBurst
    ∧ (∀ t k', k.step .sjf t = some k' → ∀ p ∈ k.linkedIn .readyQueue,
        (k'.pcb p).estBurst = (k.pcb p).estBurst)
    ∧ (∀ k₁ k', k₁ = k ∨ (∃ t, k.enter .sjf t = some (k₁, .schedules)) →
        SchedAlgorithm.sjf.pickNext k₁ = some k' →
        (k₁.requeueOutgoing SchedAlgorithm.sjf.enqueue).DispatchesShortest .sjf k') := by
  obtain ⟨s, hs, hsorted⟩ := dispatching_of_actions (P := Sched.ShortestFirst) List.Pairwise.nil
    (fun _ _ hinv hg hp => hp.apply hinv hg) hk
  refine ⟨sortedByBurst_of hs.refines hs.inv hsorted, fun t k' hstep p hp => ?_, ?_⟩
  · obtain ⟨as, s', hexec, hs'⟩ := step_exec hs hstep
    rw [hs.refines.linkedIn_eq hs.inv] at hp
    have hburst := hexec.estBurst hs.inv hs.running ⟨_, hp⟩
    rw [hs'.refines.block_eq, hs.refines.block_eq] at hburst
    exact hburst
  · rintro k₁ k' (rfl | ⟨t, hr⟩) hpick
    · exact dispatchesShortest_of hs.refines hs.inv hsorted hpick
    · obtain ⟨as, s₁, hcode⟩ := enter_code hs.refines hs.inv hs.running hr
      obtain ⟨hinv₁, hsorted₁⟩ := hcode.exec.preserves (P := Sched.ShortestFirst)
        (fun _ _ hinv hg hp => hp.apply hinv hg) hs.inv hsorted
      exact dispatchesShortest_of hcode.refines hinv₁ hsorted₁ hpick

/-- A run of these steps leads to a state of such runs. -/
theorem dispatching_run {alg : SchedAlgorithm} {ts : List Trap} (hk : Dispatching alg k)
    (hrun : k.run alg ts = some k') : Dispatching alg k' := by
  induction ts generalizing k with
  | nil => exact Option.some.inj hrun ▸ hk
  | cons t ts ih =>
      obtain ⟨k₁, hstep, hrest⟩ := Option.bind_eq_some_iff.mp hrun
      exact ih (.step t hk hstep) hrest

/-- A process with a measured burst has forked two others, has blocked and was woken. It waits
behind its children, whose estimates are shorter. -/
theorem sjf_shortest_first_woken :
    ∃ k, Dispatching .sjf k ∧ k.linkedIn .readyQueue = [.page 2, .page 0] ∧ k.SortedByBurst := by
  have hrun : (((Kernel.boot fun _ => 0).run .sjf [.kernelMain (some 0)]).bind fun k =>
      (SchedAlgorithm.sjf.pickNext k).bind fun k =>
        k.run .sjf [.moveToUserMode .empty .zeroed, .fork (some 1) .empty, .fork (some 2) .empty,
          .timerTick, .timerTick, .timerTick, .timerTick, .receiveMessage,
          .sendMessage 1 [104, 105]]).map (fun k => k.linkedIn .readyQueue)
      = some [.page 2, .page 0] := by decide +kernel
  obtain ⟨k, hk, hlinked⟩ := Option.map_eq_some_iff.mp hrun
  obtain ⟨k₁, hk₁, hk⟩ := Option.bind_eq_some_iff.mp hk
  obtain ⟨k₂, hk₂, hk⟩ := Option.bind_eq_some_iff.mp hk
  have hdispatching := dispatching_run (.pick (dispatching_run (.boot _) hk₁) hk₂) hk
  exact ⟨k, hdispatching, hlinked, (sjf_shortest_first hdispatching).1⟩

end Runs

end DemoOS
