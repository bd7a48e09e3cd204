import DemoOS.Proofs.Scheduler.Picks

/-!
# `DemoOS.Proofs.Scheduler.WorkConservation`: a selection gives the CPU to work

`pickNext_conserves` is the law that the seven selection functions share. A call ends. It
falls back to init only when no queued process survives its signals, and otherwise the
queues lose the process that gets the CPU and those that a signal removed, and no other.

`tick_leaves_idle_iff` is about the idle loop of init, which never calls the scheduler:
only the timer can take the CPU away from it, and it does so under the preemptive
algorithms.
-/

set_option autoImplicit false

namespace DemoOS

open Support

namespace Kernel

/-- The process is still ready once its signals are handled. -/
def Survives (alg : SchedAlgorithm) (k : Kernel) (p : PcbPtr) : Prop :=
  ((k.handleProcessSignals alg p).pcb p).state = .ready

instance (alg : SchedAlgorithm) (k : Kernel) (p : PcbPtr) : Decidable (k.Survives alg p) :=
  inferInstanceAs (Decidable (_ = _))

/-- The process has been turned into a zombie or stopped. -/
def IsRemoved (k : Kernel) (p : PcbPtr) : Prop :=
  (k.pcb p).state = .zombie ∨ (k.pcb p).state = .stopped

instance (k : Kernel) (p : PcbPtr) : Decidable (k.IsRemoved p) :=
  inferInstanceAs (Decidable (_ ∨ _))

/-- What a selection that led to `k'` did to the queues of `k`, in which the outgoing
process is back already. -/
structure Conserves (alg : SchedAlgorithm) (k k' : Kernel) : Prop where
  idle : k'.currentProcess = .initProcess ↔ ∀ q, ∀ p ∈ k.linkedIn q, ¬ k.Survives alg p
  empty : k'.currentProcess = .initProcess → ∀ q, k'.linkedIn q = []
  found : k'.currentProcess ≠ .initProcess → ∃ q, k'.currentProcess ∈ k.linkedIn q
  queue : ∀ q, k'.linkedIn q
    = (k.linkedIn q).filter fun p => p ≠ k'.currentProcess ∧ ¬ k'.IsRemoved p

end Kernel

section Conservation
variable {alg : SchedAlgorithm} {k k' : Kernel} {s s₁ s₂ s₃ : Sched} {as : List Action}
  {next : Option PcbPtr} {quantum : Option Int} {p : PcbPtr}

/-- A linked process survives its signals if none of them removes it. -/
theorem survives_iff (h : Refines k s) (hinv : s.Inv alg) (hp : s.IsLinked p) :
    k.Survives alg p ↔ s.removed p = false := by
  have hready := hinv.linked_ready hp
  have hhandled := h.handleProcessSignals alg (p := p) (by rw [hready]; decide)
  unfold Kernel.Survives
  rw [hhandled.state_eq, Sched.state]
  have hblock : (s.handleSignals p).block p = (s.block p).handled := Sched.modify_block_self
  rw [hblock]
  exact PCB.handled_state_eq_ready_iff _ hready

namespace PickExec

variable (h : PickExec alg s₁ as s₂ next quantum s₃)
include h

/-- The queues after a selection. -/
theorem queue_eq (q : QueueId) :
    s₃.queue q = ((s₁.requeued alg).queue q).filter fun p => p ∉ drops as ∧ next ≠ some p := by
  have hdispatch : s₃.queue q = (s₂.queue q).filter fun p => next ≠ some p := by
    rw [h.final, Sched.modify_queue]
    cases next with
    | none =>
        rw [List.filter_eq_self.mpr (by simp)]
        exact congrFun Sched.switchTo_queue q
    | some r =>
        refine (congrFun Sched.switchTo_queue q).trans (List.filter_congr fun p _ => ?_)
        simp [eq_comm]
  rw [hdispatch, h.selected.queue, List.filter_filter]
  refine List.filter_congr fun p _ => ?_
  simp [Bool.and_comm]

/-- The process that was found was linked after the opening. -/
theorem next_linked {r : PcbPtr} (hr : next = some r) :
    (s₁.requeued alg).IsLinked r ∧ r ∉ drops as ∧ (s₁.requeued alg).removed r = false := by
  subst hr
  obtain ⟨⟨q, hq⟩, hsig, -⟩ := h.guard
  rw [h.selected.queue] at hq
  obtain ⟨hq, hkept⟩ := List.mem_filter.mp hq
  have hkept : r ∉ drops as := by simpa using hkept
  exact ⟨⟨q, hq⟩, hkept, (h.selected.kept r hkept).2.symm.trans hsig⟩

/-- Nobody is left when init gets the CPU. -/
theorem drops_all (hnext : next = none) {q : QueueId} (hp : p ∈ (s₁.requeued alg).queue q) :
    p ∈ drops as := by
  subst hnext
  by_contra hkept
  have hempty := h.guard.1 q
  rw [h.selected.queue] at hempty
  have := List.filter_eq_nil_iff.mp hempty p hp
  simp [hkept] at this

end PickExec

/-- The law of all selection functions, over a state of the abstract scheduler. -/
theorem conserves_of_pick (hk : Refines k s₁) (hinv : s₁.Inv alg)
    (h : PickExec alg s₁ as s₂ next quantum s₃) (hk' : Refines k' s₃) (hinv' : s₃.Inv alg) :
    (k.requeueOutgoing alg.enqueue).Conserves alg k' := by
  have hk₁ := requeueOutgoing_refines hk hinv rfl
  have hinv₁ := inv_requeued hinv
  have hlinked := hk₁.linkedIn_eq hinv₁
  have hlinked' := hk'.linkedIn_eq hinv'
  have hcur : k'.currentProcess = next.getD .initProcess :=
    hk'.currentProcess.trans h.currentProcess
  have hidle : k'.currentProcess = .initProcess ↔ next = none := by
    rw [hcur]
    cases hnext : next with
    | none => exact iff_of_true rfl rfl
    | some r =>
        have hne := (hinv₁.linked_registered (h.next_linked hnext).1).2
        exact iff_of_false hne (by simp)
  have hdrops : ∀ {q p}, p ∈ (s₁.requeued alg).queue q → (p ∈ drops as ↔ k'.IsRemoved p) := by
    intro q p hp
    unfold Kernel.IsRemoved
    rw [hk'.state_eq]
    constructor
    · intro hd
      rw [(h.state_of_removed hinv hd).2]
      split <;> simp
    · intro hoff
      by_contra hd
      -- A process that is not dropped is still ready where the search ends.
      have hready : s₂.state p = .ready :=
        (h.selected.kept p hd).1.trans (hinv₁.linked_ready ⟨q, hp⟩)
      rw [h.dispatch_state_iff hinv rfl, h.dispatch_state_iff hinv rfl, hready] at hoff
      rcases hoff with hoff | hoff <;> exact nomatch hoff
  exact {
    idle := by
      rw [hidle]
      constructor
      · intro hnext q p hp
        rw [hlinked] at hp
        have hsig := (h.selected.dropped p (h.drops_all hnext hp)).2.1
        rw [survives_iff hk₁ hinv₁ ⟨q, hp⟩, Sched.removed, hsig]
        decide
      · intro hnone
        by_contra hsome
        obtain ⟨r, hr⟩ := Option.ne_none_iff_exists'.mp hsome
        obtain ⟨⟨q, hq⟩, -, hsig⟩ := h.next_linked hr
        refine hnone q r (by rw [hlinked]; exact hq) ?_
        rwa [survives_iff hk₁ hinv₁ ⟨q, hq⟩]
    empty := fun hinit q => by
      rw [hlinked', h.queue_eq, List.filter_eq_nil_iff]
      intro p hp
      simp [h.drops_all (hidle.mp hinit) hp]
    found := fun hne => by
      obtain ⟨r, hr⟩ := Option.ne_none_iff_exists'.mp fun hnone => hne (hidle.mpr hnone)
      obtain ⟨⟨q, hq⟩, -, -⟩ := h.next_linked hr
      refine ⟨q, ?_⟩
      rw [hlinked, hcur, hr]
      exact hq
    queue := fun q => by
      rw [hlinked', h.queue_eq, hlinked]
      refine List.filter_congr fun p hp => ?_
      have hcurrent : next ≠ some p ↔ p ≠ k'.currentProcess := by
        rw [hcur]
        cases next with
        | none => exact iff_of_true (by simp) (hinv₁.linked_registered ⟨q, hp⟩).2
        | some r => simp [eq_comm]
      rw [decide_eq_decide, hdrops hp, hcurrent, and_comm] }

/-- Under each of the seven algorithms, the selection function ends in every state in which
it can start, and conserves work. -/
theorem pickNext_conserves (hk : Kernel.AtPick alg k) :
    ∃ k', alg.pickNext k = some k' ∧ (k.requeueOutgoing alg.enqueue).Conserves alg k' := by
  obtain ⟨s₁, hrefines, hinv⟩ := atPick_refines hk
  obtain ⟨k', as, s₂, next, quantum, s₃, hpick, hexec, hsettled, -⟩ :=
    pickNext_exec alg hrefines hinv
  exact ⟨k', hpick, conserves_of_pick hrefines hinv hexec hsettled.refines hsettled.inv⟩

/-- Three processes at the top level, of which the second is killed. -/
theorem pickNext_conserves_mlfq :
    ∃ k k', (Kernel.boot fun _ => 0).run .mlfq [.kernelMain (some 0), .timerTick,
        .moveToUserMode .empty .zeroed, .fork (some 1) .empty, .fork (some 2) .empty,
        .sendSignal 2 1] = some k
      ∧ k.linkedIn (.mlQueue 0) = [.page 1, .page 2] ∧ SchedAlgorithm.mlfq.pickNext k = some k'
      ∧ (k.requeueOutgoing SchedAlgorithm.mlfq.enqueue).Conserves .mlfq k' := by
  have hrun : ((Kernel.boot fun _ => 0).run .mlfq [.kernelMain (some 0), .timerTick,
      .moveToUserMode .empty .zeroed, .fork (some 1) .empty, .fork (some 2) .empty,
      .sendSignal 2 1]).map (fun k => k.linkedIn (.mlQueue 0)) = some [.page 1, .page 2] := by
    decide +kernel
  obtain ⟨k, hk, hlinked⟩ := Option.map_eq_some_iff.mp hrun
  obtain ⟨k', hpick, hconserves⟩ := @pickNext_conserves .mlfq _
    (.reachable (reachable_run (.boot _) hk))
  exact ⟨k, k', hk, hlinked, hpick, hconserves⟩

/-- A linked process without a signal that removes it keeps init off the CPU. -/
theorem PickExec.leaves_init (h : PickExec alg s₁ as s₂ next quantum s₃) (hinv : s₁.Inv alg)
    (hp : s₁.IsLinked p) (hsig : (s₁.block p).signalled = false) :
    s₃.currentProcess ≠ .initProcess := by
  have hinv₁ := inv_requeued hinv
  rw [h.currentProcess]
  cases hnext : next with
  | none =>
      obtain ⟨q, hq⟩ := hp
      have hdropped := h.drops_all hnext (Sched.mem_requeued_queue hq)
      rw [(h.state_of_removed hinv hdropped).1] at hsig
      exact nomatch hsig
  | some r => exact (hinv₁.linked_registered (h.next_linked hnext).1).2

end Conservation

/-! ### The idle loop -/

section Idle
variable {alg : SchedAlgorithm} {k : Kernel} {q : QueueId} {p : PcbPtr}

/-- In every reachable state in which init spins while there is work, the timer tick that
uses up its slice gives the CPU to another process if and only if the algorithm is
preemptive. -/
theorem tick_leaves_idle_iff (hk : Kernel.Reachable alg k)
    (hidle : k.currentProcess = .initProcess) (henabled : k.current.preemptDisabled = 0)
    (hcounter : k.current.counter ≤ 1) (hp : p ∈ k.linkedIn q)
    (hsig : (k.pcb p).signalled = false) :
    ∃ k', k.step alg .timerTick = some k'
      ∧ (k'.currentProcess ≠ .initProcess ↔ alg.isPreemptive = true) := by
  obtain ⟨s, hs⟩ := reachable_settled hk
  obtain ⟨k₁, s₁, htick, h₁, hinv₁, hagrees, hsignals⟩ :=
    handleTimerTick_expired hs.refines hs.inv hcounter henabled
  have hstep : k.step alg .timerTick
      = if alg.isPreemptive then alg.pickNext k₁ else some k₁ := by
    rw [Kernel.step, show k.enter alg .timerTick = _ from htick]
    cases alg.isPreemptive <;> rfl
  rw [hs.refines.linkedIn_eq hs.inv] at hp
  cases hpre : alg.isPreemptive with
  | false =>
      rw [hpre] at hstep
      refine ⟨k₁, hstep, iff_of_false (fun hne => hne ?_) (by decide)⟩
      rw [h₁.currentProcess, hagrees.currentProcess, ← hs.refines.currentProcess, hidle]
  | true =>
      rw [hpre] at hstep
      obtain ⟨k', as, s₂, next, quantum, s₃, hpick, hexec, hsettled, -⟩ :=
        pickNext_exec alg h₁ hinv₁
      refine ⟨k', hstep.trans hpick, iff_of_true ?_ rfl⟩
      -- The tick has left the process in a queue, and its signals as they were.
      obtain ⟨hreg, hne⟩ := hs.inv.linked_registered ⟨q, hp⟩
      have hlinked : s₁.IsLinked p := by
        rw [← hinv₁.queues.linked (hagrees.registered.mpr hreg) hne, hagrees.state]
        exact hs.inv.linked_ready ⟨q, hp⟩
      have hsig₁ : (s₁.block p).signalled = false := by
        have hblock : (s.block p).signalled = false := by rw [hs.refines.block_eq]; exact hsig
        simp only [PCB.signalled, PCB.isPending, hsignals] at hblock ⊢
        exact hblock
      rw [hsettled.refines.currentProcess]
      exact hexec.leaves_init hinv₁ hlinked hsig₁

/-- The first tick after boot, under round robin. -/
theorem tick_leaves_idle_iff_roundRobin :
    ∃ k k', (Kernel.boot fun _ => 0).run .roundRobin [.kernelMain (some 0)] = some k
      ∧ k.step .roundRobin .timerTick = some k'
      ∧ (k'.currentProcess ≠ .initProcess ↔ SchedAlgorithm.roundRobin.isPreemptive = true) := by
  have hrun : ((Kernel.boot fun _ => 0).run .roundRobin [.kernelMain (some 0)]).map (fun k =>
      (k.currentProcess, k.current.preemptDisabled, decide (k.current.counter ≤ 1),
        k.linkedIn .readyQueue, (k.pcb (.page 0)).signalled))
      = some (.initProcess, 0, true, [.page 0], false) := by decide +kernel
  obtain ⟨k, hk, hvalues⟩ := Option.map_eq_some_iff.mp hrun
  simp only [Prod.mk.injEq] at hvalues
  obtain ⟨hidle, henabled, hcounter, hlinked, hsig⟩ := hvalues
  obtain ⟨k', hstep, hiff⟩ := tick_leaves_idle_iff (reachable_run (.boot _) hk) hidle henabled
    (of_decide_eq_true hcounter) (q := .readyQueue) (by rw [hlinked]; simp) hsig
  exact ⟨k, k', hk, hstep, hiff⟩

/-- The same tick under first-come first-served: the first process of the system waits for
a CPU that init never gives up. -/
theorem tick_keeps_idle :
    ∃ k k', Kernel.Reachable .fcfs k ∧ k.currentProcess = .initProcess
      ∧ k.current.preemptDisabled = 0 ∧ k.current.counter ≤ 1
      ∧ .page 0 ∈ k.linkedIn .readyQueue ∧ (k.pcb (.page 0)).signalled = false
      ∧ k.step .fcfs .timerTick = some k' ∧ k'.currentProcess = .initProcess := by
  have hrun : ((Kernel.boot fun _ => 0).run .fcfs [.kernelMain (some 0)]).bind (fun k =>
      (k.step .fcfs .timerTick).map fun k' =>
        (k.currentProcess, k.current.preemptDisabled, decide (k.current.counter ≤ 1),
          k.linkedIn .readyQueue, (k.pcb (.page 0)).signalled, k'.currentProcess))
      = some (.initProcess, 0, true, [.page 0], false, .initProcess) := by decide +kernel
  obtain ⟨k, hk, hrun⟩ := Option.bind_eq_some_iff.mp hrun
  obtain ⟨k', hstep, hvalues⟩ := Option.map_eq_some_iff.mp hrun
  simp only [Prod.mk.injEq] at hvalues
  obtain ⟨hidle, henabled, hcounter, hlinked, hsig, hidle'⟩ := hvalues
  exact ⟨k, k', reachable_run (.boot _) hk, hidle, henabled, of_decide_eq_true hcounter,
    by rw [hlinked]; simp, hsig, hstep, hidle'⟩

/-- Under the algorithms that are not preemptive init never gives up the CPU at all. -/
theorem currentProcess_of_not_preemptive (hpre : alg.isPreemptive = false)
    (hk : Kernel.Reachable alg k) : k.currentProcess = .initProcess := by
  induction hk with
  | boot => rfl
  | @step k k' t hk hstep hidle =>
      obtain ⟨s, hs⟩ := reachable_settled hk
      have hresume : k.current.resume = .kernelMain ∨ k.current.resume = .idle := by
        have hinit := hs.inv.points.init
        rw [hs.refines.block_eq] at hinit
        rw [Kernel.current, hidle]
        exact hinit
      have huser : ¬ k.InUserMode := fun h => h.1 hidle
      -- What init can do returns: it makes no system call, and the tick does not switch.
      have hreturns : ∀ r, k.enter alg t = some r → r.2 = .returns := by
        intro r hr
        cases t with
        | kernelMain page => obtain ⟨-, rfl⟩ := Kernel.guarded hr; rfl
        | fork page mm => exact absurd (Kernel.guarded hr).1.1 huser
        | exit | wait | yield | sendMessage | receiveMessage | input | sendSignal
        | setSchedParam => exact absurd (Kernel.guarded hr).1 huser
        | resume =>
            simp only [Kernel.enter, Kernel.resumeCurrent] at hr
            rcases hresume with h | h <;> rw [h] at hr <;> cases hr
        | moveToUserMode mm regs =>
            have hpoint := (Kernel.guarded hr).1
            rcases hresume with h | h <;> rw [h] at hpoint <;> cases hpoint
        | timerTick =>
            obtain ⟨k₁, -, hr⟩ := Option.bind_eq_some_iff.mp hr
            split at hr <;> obtain rfl := Option.some.inj hr
            · rfl
            · rw [hpre]
              rfl
        | uartIrq => exact Option.some.inj hr ▸ rfl
      unfold Kernel.step at hstep
      cases hr : k.enter alg t with
      | none => rw [hr] at hstep; cases hstep
      | some r =>
          obtain ⟨k₁, control⟩ := r
          obtain rfl : control = .returns := hreturns _ hr
          rw [hr] at hstep
          obtain rfl := Option.some.inj hstep
          obtain ⟨as, s₁, hcode⟩ := enter_code hs.refines hs.inv hs.running hr
          rw [hcode.refines.currentProcess, hcode.exec.currentProcess (hcode.returns rfl),
            ← hs.refines.currentProcess, hidle]

end Idle

end DemoOS
