import DemoOS.Proofs.Scheduler.Cpu
import DemoOS.Proofs.Scheduler.Traps

/-!
# `DemoOS.Proofs.Scheduler.Budgets`: time slices and preemption counts outside of switches

`SameBudgets k k'` says that no process's `counter` and `preempt_disabled` differ between two
kernels and that the CPU has the same owner. System calls and the UART interrupt keep them, up
to their return or their call of `schedule()` (`enter_budgets`). A tick takes one from a counter
(`handleTimerTick_budgets`), and `copy_process` adds to a preemption count when it fails
(`copyProcess_parent`).
-/

set_option autoImplicit false

namespace DemoOS

open Kernel

/-- Time slices, preemption counts and the owner of the CPU are the same. -/
structure Kernel.SameBudgets (k k' : Kernel) : Prop where
  currentProcess : k'.currentProcess = k.currentProcess
  counter : ∀ p, (k'.pcb p).counter = (k.pcb p).counter
  preemptDisabled : ∀ p, (k'.pcb p).preemptDisabled = (k.pcb p).preemptDisabled

namespace Kernel.SameBudgets

variable {k k' k'' : Kernel} {p : PcbPtr} {f : PCB → PCB} {alg : SchedAlgorithm}

theorem refl (k : Kernel) : SameBudgets k k := ⟨rfl, fun _ => rfl, fun _ => rfl⟩

theorem trans (h : SameBudgets k k') (h' : SameBudgets k' k'') : SameBudgets k k'' where
  currentProcess := h'.currentProcess.trans h.currentProcess
  counter p := (h'.counter p).trans (h.counter p)
  preemptDisabled p := (h'.preemptDisabled p).trans (h.preemptDisabled p)

/-! ### Assignments -/

theorem modifyPcb (hcounter : (f (k.pcb p)).counter = (k.pcb p).counter)
    (hpreempt : (f (k.pcb p)).preemptDisabled = (k.pcb p).preemptDisabled) :
    SameBudgets k (k.modifyPcb p f) where
  currentProcess := rfl
  counter r := by
    rw [Kernel.modifyPcb_pcb]
    split
    · next hr => rw [hr, hcounter]
    · rfl
  preemptDisabled r := by
    rw [Kernel.modifyPcb_pcb]
    split
    · next hr => rw [hr, hpreempt]
    · rfl

/-- Queues, levels, devices or the trace change. -/
theorem of_rest (hpcb : k'.pcb = k.pcb) (hcurrent : k'.currentProcess = k.currentProcess) :
    SameBudgets k k' where
  currentProcess := hcurrent
  counter p := by rw [hpcb]
  preemptDisabled p := by rw [hpcb]

theorem modifyCurrent (hcounter : (f k.current).counter = k.current.counter)
    (hpreempt : (f k.current).preemptDisabled = k.current.preemptDisabled) :
    SameBudgets k (k.modifyCurrent f) :=
  modifyPcb hcounter hpreempt

theorem setLink (k : Kernel) (p : PcbPtr) (x : Option PcbPtr) : SameBudgets k (k.setLink p x) :=
  modifyPcb rfl rfl

theorem setState (k : Kernel) (p : PcbPtr) (st : ProcessState) :
    SameBudgets k (k.setState p st) :=
  modifyPcb rfl rfl

theorem setQueue (k : Kernel) (q : QueueId) (x : ProcessQueue) : SameBudgets k (k.setQueue q x) :=
  of_rest rfl rfl

theorem log (k : Kernel) (e : KernelEvent) : SameBudgets k (k.log e) := of_rest rfl rfl

/-- A section with preemption disabled. -/
theorem disabled (h : SameBudgets k.preemptDisable k') : SameBudgets k k'.preemptEnable where
  currentProcess := h.currentProcess
  counter r := by
    have hr : (k'.pcb r).counter = (k.pcb r).counter := by
      rw [h.counter, preemptDisable, Kernel.modifyCurrent, Kernel.modifyPcb_pcb]
      split
      · next he => rw [he]
      · rfl
    rw [← hr, preemptEnable, Kernel.modifyCurrent, Kernel.modifyPcb_pcb]
    split
    · next he => rw [he]
    · rfl
  preemptDisabled r := by
    have hr := h.preemptDisabled r
    have hcurrent : k'.currentProcess = k.currentProcess := h.currentProcess
    rw [preemptDisable, Kernel.modifyCurrent, Kernel.modifyPcb_pcb] at hr
    rw [preemptEnable, Kernel.modifyCurrent, Kernel.modifyPcb_pcb, hcurrent]
    split
    · next he =>
        subst he
        rw [if_pos rfl] at hr
        show (k'.pcb k.currentProcess).preemptDisabled - 1 = _
        rw [hr]
        exact Int.add_sub_cancel _ 1
    · next he =>
        rw [if_neg he] at hr
        exact hr

/-! ### Queue operations -/

theorem enqueueProcessTo (k : Kernel) (q : QueueId) (p : PcbPtr) :
    SameBudgets k (k.enqueueProcessTo q p) := by
  unfold Kernel.enqueueProcessTo
  have hready : SameBudgets k (((k.setLink p none).setState p .ready).log (.enqueued q p)) :=
    ((setLink k p none).trans (setState _ p .ready)).trans (log _ _)
  dsimp only
  split
  · exact .refl k
  · split
    · exact hready.trans (setQueue _ _ _)
    · exact (hready.trans (setLink _ _ _)).trans (setQueue _ _ _)

theorem enqueueSortedTo (k : Kernel) (q : QueueId) (p : PcbPtr) :
    SameBudgets k (k.enqueueSortedTo q p) := by
  unfold Kernel.enqueueSortedTo
  have hready : SameBudgets k (((k.setLink p none).setState p .ready).log (.enqueued q p)) :=
    ((setLink k p none).trans (setState _ p .ready)).trans (log _ _)
  dsimp only
  split
  · exact .refl k
  · split
    · exact hready.trans (setQueue _ _ _)
    · split
      · exact (hready.trans (setLink _ _ _)).trans (setQueue _ _ _)
      · exact ((hready.trans (setLink _ _ _)).trans (setLink _ _ _)).trans (setQueue _ _ _)

theorem enqueueProcess (alg : SchedAlgorithm) (k : Kernel) (p : PcbPtr) :
    SameBudgets k (k.enqueueProcess alg p) := by
  unfold Kernel.enqueueProcess
  split
  · exact .refl k
  · cases alg <;> first
      | exact enqueueProcessTo k _ p
      | exact enqueueSortedTo k _ p

theorem dequeueProcessFrom (k : Kernel) (q : QueueId) :
    SameBudgets k (k.dequeueProcessFrom q).1 := by
  unfold Kernel.dequeueProcessFrom
  dsimp only
  split
  · exact .refl k
  · exact (setQueue k q _).trans (setLink _ _ none)

theorem keptByTick : KeptByTick SameBudgets where
  refl := refl
  trans := trans
  dequeue := dequeueProcessFrom
  enqueue := enqueueProcessTo
  levels _ _ _ := of_rest rfl rfl

theorem keptByCode (alg : SchedAlgorithm) : KeptByCode alg SameBudgets where
  refl := refl
  trans := trans
  block _ _ _ hf := modifyPcb (hf.counter _) (hf.preemptDisabled _)
  devices _ _ _ _ _ _ := of_rest rfl rfl
  log k e _ := log k e
  enqueue := enqueueProcess alg
  disabled := disabled

end Kernel.SameBudgets

/-! ### System calls -/

/-- The trap creates a process. -/
def Trap.copies : Trap → Bool
  | .kernelMain _ | .fork _ _ => true
  | _ => false

namespace Kernel

variable {alg : SchedAlgorithm} {k k' : Kernel} {r : Kernel × Control}

/-- `schedule()` writes no preemption count. -/
theorem schedule_preemptDisabled (k : Kernel) (p : PcbPtr) :
    (k.schedule.1.pcb p).preemptDisabled = (k.pcb p).preemptDisabled := by
  have hcounter : ∀ k : Kernel, ((k.setCounter k.currentProcess 0).pcb p).preemptDisabled
      = (k.pcb p).preemptDisabled := fun k => by
    rw [setCounter, modifyPcb_pcb]
    split
    · next hp => rw [hp]; rfl
    · rfl
  unfold schedule
  dsimp only
  split
  · rw [hcounter, modifyCurrent, modifyPcb_pcb]
    split
    · next hp => rw [hp]
    · rfl
  · exact hcounter k

private theorem setQueuePriority_budgets (k : Kernel) (p : PcbPtr) (value : Int) (level : Nat → Nat) :
    SameBudgets k ({ k.preemptDisable.modifyPcb p (fun b => { b with queuePriority := value }) with
      queueLevel := level } : Kernel).preemptEnable := by
  have hset : SameBudgets k.preemptDisable (k.preemptDisable.modifyPcb p fun b =>
      { b with queuePriority := value }) := .modifyPcb rfl rfl
  exact .disabled (hset.trans (.of_rest rfl rfl))

theorem schedSetParam_budgets (alg : SchedAlgorithm) (k : Kernel) (p : PcbPtr) (param value : Int) :
    SameBudgets k (k.schedSetParam alg p param value).1 := by
  unfold schedSetParam
  split
  · exact .refl k
  · split
    · split
      · exact .refl k
      · exact .modifyPcb (f := fun b => { b with priority := value }) rfl rfl
    · split
      · split
        · exact .refl k
        · exact .modifyPcb (f := fun b => { b with tickets := value }) rfl rfl
      · split
        · split
          · exact .refl k
          · exact setQueuePriority_budgets k p _ _
        · exact .refl k

/-- The code of a trap, except for the tick and the creation of a process. -/
theorem enter_budgets {t : Trap} (htick : t ≠ .timerTick) (hcopies : t.copies = false)
    (h : k.enter alg t = some r) : Ends SameBudgets k r := by
  cases t with
  | setSchedParam pid param value =>
      obtain ⟨-, rfl⟩ := guarded h
      have hR := SameBudgets.keptByCode alg
      unfold syscallSetSchedParam
      split
      · exact hR.returns k _
      · next d _ => exact hR.before (schedSetParam_budgets alg k d param value) (hR.returns _ _)
  | kernelMain _ | fork _ _ => exact nomatch hcopies
  | timerTick => exact absurd rfl htick
  | _ => exact (SameBudgets.keptByCode alg).enter rfl h

theorem Ends.preemptDisabled (h : Ends SameBudgets k r) (p : PcbPtr) :
    (r.1.pcb p).preemptDisabled = (k.pcb p).preemptDisabled := by
  cases h with
  | returns h => exact h.preemptDisabled p
  | schedules h => rw [schedule_preemptDisabled, h.preemptDisabled]

end Kernel

namespace Kernel

variable {alg : SchedAlgorithm} {k k' : Kernel} {c : Control}

/-! ### The tick -/

/-- A tick takes one from the counter of the current process and calls the scheduler, under a
preemptive algorithm, when that uses up the counter while preemption is enabled. -/
theorem handleTimerTick_budgets (h : k.handleTimerTick alg = some (k', c)) :
    k'.currentProcess = k.currentProcess
      ∧ (∀ p, (k'.pcb p).preemptDisabled = (k.pcb p).preemptDisabled)
      ∧ (∀ p, p ≠ k.currentProcess → (k'.pcb p).counter = (k.pcb p).counter)
      ∧ (alg.isPreemptive = true → c = .returns → k'.current.counter = k.current.counter - 1)
      ∧ (c = .schedules ↔ alg.isPreemptive = true ∧ k.current.counter ≤ 1
        ∧ k.current.preemptDisabled ≤ 0) := by
  obtain ⟨k₁, hcharged, h⟩ := Option.bind_eq_some_iff.mp h
  rw [charge_eq] at hcharged
  have hsame := SameBudgets.keptByTick.onTick hcharged
  have hcurrent : k₁.currentProcess = k.currentProcess := hsame.currentProcess
  have hpreempt : ∀ p, (k₁.pcb p).preemptDisabled = (k.pcb p).preemptDisabled := fun p => by
    rw [hsame.preemptDisabled, modifyCurrent, modifyPcb_pcb]
    split
    · next hp => rw [hp]; rfl
    · rfl
  have hcounter : k₁.current.counter = k.current.counter - 1 := by
    rw [current, hcurrent, hsame.counter, modifyCurrent, modifyPcb_pcb_self]
    rfl
  have hothers : ∀ p, p ≠ k.currentProcess → (k₁.pcb p).counter = (k.pcb p).counter :=
    fun p hp => by rw [hsame.counter, modifyCurrent, modifyPcb_pcb_of_ne _ _ hp]
  have hpre : k₁.current.preemptDisabled = k.current.preemptDisabled := by
    rw [current, hcurrent, hpreempt, current]
  rw [hcounter, hpre] at h
  split at h
  · next hleft =>
      obtain ⟨rfl, rfl⟩ := Prod.mk.inj (Option.some.inj h)
      refine ⟨hcurrent, hpreempt, hothers, fun _ _ => hcounter,
        iff_of_false (fun h => by cases h) ?_⟩
      rintro ⟨-, hused, henabled⟩
      omega
  · next hused =>
      obtain ⟨rfl, rfl⟩ := Prod.mk.inj (Option.some.inj h)
      refine ⟨hcurrent, fun p => ?_, fun p hp => ?_, fun hp hc => ?_, ?_⟩
      · rw [setCounter, modifyPcb_pcb]
        split
        · next hp => rw [hp]; exact hpreempt _
        · exact hpreempt p
      · rw [setCounter, hcurrent, modifyPcb_pcb_of_ne _ _ hp]
        exact hothers p hp
      · rw [if_pos hp] at hc
        cases hc
      · cases hp : alg.isPreemptive with
        | true =>
            refine iff_of_true (if_pos rfl) ⟨rfl, ?_, ?_⟩ <;> omega
        | false =>
            refine iff_of_false (fun hc => ?_) fun hpre => by cases hpre.1
            rw [if_neg Bool.false_ne_true] at hc
            cases hc

/-! ### Creating a process -/

/-- The counter of the current process is the same, and its preemption count has grown by `d`. -/
structure Parent (k k' : Kernel) (d : Int) : Prop where
  currentProcess : k'.currentProcess = k.currentProcess
  counter : k'.current.counter = k.current.counter
  preemptDisabled : k'.current.preemptDisabled = k.current.preemptDisabled + d

namespace Parent

variable {k'' : Kernel} {d e : Int} {p : PcbPtr}

theorem trans (h : Parent k k' d) (h' : Parent k' k'' e) : Parent k k'' (d + e) where
  currentProcess := h'.currentProcess.trans h.currentProcess
  counter := h'.counter.trans h.counter
  preemptDisabled := by rw [h'.preemptDisabled, h.preemptDisabled, Int.add_assoc]

theorem of_same (h : SameBudgets k k') : Parent k k' 0 where
  currentProcess := h.currentProcess
  counter := by rw [current, h.currentProcess, h.counter, current]
  preemptDisabled := by rw [current, h.currentProcess, h.preemptDisabled, current, Int.add_zero]

/-- Writes to other processes do not reach the current one. -/
theorem modifyPcb (f : PCB → PCB) (hp : k.currentProcess ≠ p) : Parent k (k.modifyPcb p f) 0 := by
  have hcurrent : (k.modifyPcb p f).current = k.current := modifyPcb_pcb_of_ne k f hp
  exact ⟨rfl, by rw [hcurrent], by rw [hcurrent, Int.add_zero]⟩

theorem modifyCurrent {f : PCB → PCB} (hcounter : (f k.current).counter = k.current.counter)
    (hpreempt : (f k.current).preemptDisabled = k.current.preemptDisabled + d) :
    Parent k (k.modifyCurrent f) d := by
  have hcurrent : (k.modifyCurrent f).current = f k.current := modifyPcb_pcb_self k _ f
  exact ⟨rfl, by rw [hcurrent, hcounter], by rw [hcurrent, hpreempt]⟩

theorem preemptDisable (k : Kernel) : Parent k k.preemptDisable 1 := modifyCurrent rfl rfl

theorem preemptEnable (k : Kernel) : Parent k k.preemptEnable (-1) := modifyCurrent rfl rfl

theorem addProcessToScheduler {alg : SchedAlgorithm} (h : k.addProcessToScheduler alg p = some k') :
    Parent k k' 0 := by
  unfold Kernel.addProcessToScheduler at h
  dsimp only at h
  split at h
  · exact nomatch h
  · obtain rfl := Option.some.inj h
    have hrow : SameBudgets k { k with
        processes := Function.update k.processes (k.pcb p).pid (some p)
        queueLevel := Function.update k.queueLevel (k.pcb p).pid
          (startLevel alg (k.pcb p).queuePriority) } := .of_rest rfl rfl
    have hcounted : ∀ (k : Kernel) (n : Nat), SameBudgets k { k with nProcesses := n } :=
      fun _ _ => .of_rest rfl rfl
    refine of_same (.trans ?_ (hcounted _ _))
    split
    · exact hrow.trans (.enqueueProcess alg _ p)
    · exact hrow

end Parent

/-- `copy_process` leaves the parent its budgets, and one more disabled preemption if it fails. -/
theorem copyProcess_parent (alg : SchedAlgorithm) {page : Option Nat}
    (hpage : ∀ n ∈ page, k.currentProcess ≠ .page n) (cloneFlags : BitVec 64) (mm : MmStruct) :
    Parent k (k.copyProcess alg cloneFlags page mm).1
      (if 0 ≤ (k.copyProcess alg cloneFlags page mm).2 then 0 else 1) := by
  have hdisabled := Parent.preemptDisable k
  unfold copyProcess
  dsimp only
  split
  · exact hdisabled
  · next n =>
      have hne : k.currentProcess ≠ .page n := hpage n rfl
      have hcleared := hdisabled.trans (.modifyPcb (fun _ => .zeroed) hne)
      split
      · exact hcleared
      · have hfilled := hcleared.trans (.modifyPcb (fun _ => childPcb
          (k.preemptDisable.modifyPcb (.page n) fun _ => .zeroed).current cloneFlags mm
          (k.preemptDisable.modifyPcb (.page n) fun _ => .zeroed).nProcesses) hne)
        split
        · exact hfilled
        · next k₁ hadded =>
            rw [if_pos (Int.natCast_nonneg _)]
            exact (hfilled.trans (.addProcessToScheduler hadded)).trans (.preemptEnable k₁)

end Kernel

end DemoOS
