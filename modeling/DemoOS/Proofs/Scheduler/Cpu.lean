import DemoOS.Proofs.Scheduler.Served

/-!
# `DemoOS.Proofs.Scheduler.Cpu`: who owns the CPU

Only `switch_to_process` assigns `current_process`. The code of a trap, up to its return or
its call of the scheduler, therefore runs on behalf of one process throughout
(`enter_currentProcess`).
-/

set_option autoImplicit false

namespace DemoOS

namespace Kernel

variable {alg : SchedAlgorithm} {k k' : Kernel} {p : PcbPtr}

@[simp] theorem modifyPcb_currentProcess (k : Kernel) (p : PcbPtr) (f : PCB → PCB) :
    (k.modifyPcb p f).currentProcess = k.currentProcess := rfl

@[simp] theorem suspendAt_currentProcess (k : Kernel) (point : ResumePoint) :
    (k.suspendAt point).currentProcess = k.currentProcess := rfl

@[simp] theorem schedule_currentProcess (k : Kernel) :
    k.schedule.1.currentProcess = k.currentProcess := by
  unfold schedule
  split <;> rfl

/-- The CPU has the same owner. -/
theorem currentProcess_keptByCode (alg : SchedAlgorithm) :
    KeptByCode alg fun k k' => k'.currentProcess = k.currentProcess where
  refl _ := rfl
  trans h h' := h'.trans h
  block _ _ _ _ := rfl
  devices _ _ _ _ _ _ := rfl
  log _ _ _ := rfl
  enqueue k p := rest_currentProcess (enqueueProcess_rest alg k p)
  disabled h := h

theorem dequeueProcessFrom_currentProcess (k : Kernel) (q : QueueId) :
    (k.dequeueProcessFrom q).1.currentProcess = k.currentProcess := by
  unfold dequeueProcessFrom
  dsimp only
  split <;> rfl

theorem currentProcess_keptByTick : KeptByTick fun k k' => k'.currentProcess = k.currentProcess where
  refl _ := rfl
  trans h h' := h'.trans h
  dequeue := dequeueProcessFrom_currentProcess
  enqueue _ _ _ := rest_currentProcess enqueueProcessTo_rest
  levels _ _ _ := rfl

theorem schedSetParam_currentProcess (alg : SchedAlgorithm) (k : Kernel) (p : PcbPtr)
    (param value : Int) :
    (k.schedSetParam alg p param value).1.currentProcess = k.currentProcess := by
  unfold schedSetParam
  repeat' (first | rfl | split)

theorem handleTimerTick_currentProcess {r : Kernel × Control}
    (h : k.handleTimerTick alg = some r) : r.1.currentProcess = k.currentProcess := by
  obtain ⟨k₁, htick, h⟩ := Option.bind_eq_some_iff.mp h
  have hcharged := currentProcess_keptByTick.onTick htick
  have hticked : k₁.currentProcess = k.currentProcess := hcharged
  split at h
  · obtain rfl := Option.some.inj h
    exact hticked
  · obtain rfl := Option.some.inj h
    exact hticked

/-- The code of a trap runs on behalf of one process. -/
theorem enter_currentProcess {t : Trap} {r : Kernel × Control} (h : k.enter alg t = some r) :
    r.1.currentProcess = k.currentProcess := by
  cases t with
  | kernelMain page =>
      obtain ⟨⟨-, -, hfresh⟩, rfl⟩ := guarded h
      exact (copyProcess_extends alg hfresh PF_KTHREAD .empty).2
  | fork page mm =>
      obtain ⟨⟨-, hfresh⟩, rfl⟩ := guarded h
      exact (copyProcess_extends alg hfresh 0 mm).2
  | setSchedParam pid param value =>
      obtain ⟨-, rfl⟩ := guarded h
      unfold syscallSetSchedParam
      split
      · rfl
      · exact schedSetParam_currentProcess alg k _ param value
  | timerTick => exact handleTimerTick_currentProcess h
  | _ =>
      cases (currentProcess_keptByCode alg).enter rfl h with
      | returns hsame => exact hsame
      | schedules hsame => exact (schedule_currentProcess _).trans hsame

end Kernel

end DemoOS
