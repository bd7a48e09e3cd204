import DemoOS.Proofs.Scheduler.Budgets
import DemoOS.Proofs.Scheduler.Picks

/-!
# `DemoOS.Proofs.Scheduler.Levels`: who writes `queue_level`

The level of a process is an entry of an array that four functions write:
`add_process_to_scheduler` for a new process, `sched_set_param`, and the boost and the demotion
of the multilevel tick. All other code keeps the array and puts whom it enqueues in the queue of
his level (`SameLevels`). This file says what each of the four does to the levels of the processes
that exist.
-/

set_option autoImplicit false

namespace DemoOS

open Kernel Support

/-- The levels and pids are the same, and every insertion in between was into the queue of the
process's level. -/
structure Kernel.SameLevels (k k' : Kernel) : Prop where
  queueLevel : k'.queueLevel = k.queueLevel
  pid : ∀ p, (k'.pcb p).pid = (k.pcb p).pid
  enqueued : ∃ es, k'.trace = k.trace ++ es ∧ ∀ q p, KernelEvent.enqueued q p ∈ es →
    q = .mlQueue (k.queueLevel (k.pcb p).pid)

namespace Kernel.SameLevels

variable {k k' k'' : Kernel} {p : PcbPtr} {f : PCB → PCB} {alg : SchedAlgorithm}

theorem of_trace (hlevel : k'.queueLevel = k.queueLevel) (hpid : ∀ p, (k'.pcb p).pid = (k.pcb p).pid)
    (htrace : k'.trace = k.trace) : SameLevels k k' :=
  ⟨hlevel, hpid, [], by rw [htrace, List.append_nil], nofun⟩

theorem refl (k : Kernel) : SameLevels k k := of_trace rfl (fun _ => rfl) rfl

theorem trans (h : SameLevels k k') (h' : SameLevels k' k'') : SameLevels k k'' where
  queueLevel := h'.queueLevel.trans h.queueLevel
  pid p := (h'.pid p).trans (h.pid p)
  enqueued := by
    obtain ⟨es, htrace, hes⟩ := h.enqueued
    obtain ⟨es', htrace', hes'⟩ := h'.enqueued
    refine ⟨es ++ es', by rw [htrace', htrace, List.append_assoc], fun q p hmem => ?_⟩
    rcases List.mem_append.mp hmem with hmem | hmem
    · exact hes q p hmem
    · rw [hes' q p hmem, h.queueLevel, h.pid]

theorem modifyPcb (hpid : (f (k.pcb p)).pid = (k.pcb p).pid) : SameLevels k (k.modifyPcb p f) :=
  of_trace rfl (fun r => by
    rw [Kernel.modifyPcb_pcb]
    split
    · next hr => rw [hr, hpid]
    · rfl) rfl

theorem log (k : Kernel) {e : KernelEvent} (he : ∀ q p, e ≠ .enqueued q p) :
    SameLevels k (k.log e) :=
  ⟨rfl, fun _ => rfl, [e], rfl, fun q p hmem => absurd (List.mem_singleton.mp hmem).symm (he q p)⟩

theorem enqueueProcessTo (k : Kernel) (p : PcbPtr) :
    SameLevels k (k.enqueueProcessTo (.mlQueue (k.queueLevel (k.pcb p).pid)) p) := by
  unfold Kernel.enqueueProcessTo
  have hready : SameLevels k ((k.setLink p none).setState p .ready) :=
    (modifyPcb (f := fun b => { b with nextReady := none }) rfl).trans
      (modifyPcb (f := fun b => b.withState .ready) rfl)
  have hlogged : SameLevels k (((k.setLink p none).setState p .ready).log
      (.enqueued (.mlQueue (k.queueLevel (k.pcb p).pid)) p)) := {
    queueLevel := rfl
    pid := hready.pid
    enqueued := ⟨[.enqueued (.mlQueue (k.queueLevel (k.pcb p).pid)) p], rfl, fun q r hmem => by
      obtain ⟨rfl, rfl⟩ := KernelEvent.enqueued.inj (List.mem_singleton.mp hmem)
      rfl⟩ }
  dsimp only
  split
  · exact .refl k
  · split
    · exact hlogged.trans (of_trace rfl (fun _ => rfl) rfl)
    · next t _ =>
        have hlinked := fun k : Kernel => modifyPcb (k := k) (p := t)
          (f := fun b => { b with nextReady := some p }) rfl
        exact (hlogged.trans (hlinked _)).trans (of_trace rfl (fun _ => rfl) rfl)

theorem enqueueProcess (halg : alg.mlPolicy ≠ none) (k : Kernel) (p : PcbPtr) :
    SameLevels k (k.enqueueProcess alg p) := by
  unfold Kernel.enqueueProcess
  split
  · exact .refl k
  · cases alg with
    | mlq | mlfq => exact enqueueProcessTo k p
    | _ => exact absurd rfl halg

/-- System calls and the UART interrupt, under a multilevel algorithm. -/
theorem keptByCode (halg : alg.mlPolicy ≠ none) : KeptByCode alg SameLevels where
  refl := refl
  trans := trans
  block _ _ _ hf := modifyPcb (hf.pid _)
  devices _ _ _ _ _ _ := of_trace rfl (fun _ => rfl) rfl
  log k e he := log k fun q p h => by rw [h] at he; exact nomatch he
  enqueue := enqueueProcess halg
  disabled {k k'} h :=
    (modifyPcb (k := k) (f := fun b => { b with preemptDisabled := b.preemptDisabled + 1 })
      rfl).trans (h.trans (modifyPcb (f := fun b =>
        { b with preemptDisabled := b.preemptDisabled - 1 }) rfl))

theorem schedule (k : Kernel) : SameLevels k k.schedule.1 := by
  unfold Kernel.schedule
  have hzero := fun k : Kernel => modifyPcb (k := k) (p := k.currentProcess)
    (f := fun b => b.withCounter 0) rfl
  dsimp only
  split
  · have hburst := modifyPcb (k := k) (p := k.currentProcess) (f := fun b =>
      { b with estBurst := (b.burstTicks + b.estBurst).tdiv 2, burstTicks := 0 }) rfl
    exact hburst.trans (hzero _)
  · exact hzero k

theorem of_ends {r : Kernel × Control} (h : Ends SameLevels k r) : SameLevels k r.1 := by
  cases h with
  | returns h => exact h
  | schedules h => exact h.trans (schedule _)

end Kernel.SameLevels

namespace Kernel

variable {alg : SchedAlgorithm} {k k' : Kernel} {c : Control}

/-! ### Parameters -/

/-- `sched_set_param` writes the level of the process it is called for, when the parameter is
the queue. -/
theorem schedSetParam_levels (k : Kernel) (p : PcbPtr) (param value : Int) {i : Nat}
    (hi : i ≠ (k.pcb p).pid ∨ param ≠ SCHED_PARAM_QUEUE_PRIORITY) :
    (k.schedSetParam alg p param value).1.queueLevel i = k.queueLevel i := by
  have hpid : ∀ x : Int, ((k.preemptDisable.modifyPcb p fun b =>
      { b with queuePriority := x }).pcb p).pid = (k.pcb p).pid := fun x => by
    rw [modifyPcb_pcb_self, preemptDisable, modifyCurrent, modifyPcb_pcb]
    split
    · next hp => rw [← hp]
    · rfl
  unfold schedSetParam
  split
  · rfl
  · split
    · split <;> rfl
    · split
      · split <;> rfl
      · split
        · next hparam =>
            split
            · rfl
            · have hne : i ≠ (k.pcb p).pid := hi.resolve_right fun hne => hne hparam
              exact Function.update_of_ne (by rw [hpid]; exact hne) _ _
        · rfl

/-! ### Creating a process -/

/-- `add_process_to_scheduler` writes the level of the process. -/
theorem addProcessToScheduler_levels {p : PcbPtr} (h : k.addProcessToScheduler alg p = some k') :
    k'.queueLevel = Function.update k.queueLevel (k.pcb p).pid
      (startLevel alg (k.pcb p).queuePriority) := by
  unfold addProcessToScheduler at h
  dsimp only at h
  split at h
  · exact nomatch h
  · obtain rfl := Option.some.inj h
    dsimp only
    split
    · exact rest_queueLevel (enqueueProcess_rest alg _ p)
    · rfl

/-- `copy_process` writes the level of the new process. -/
theorem copyProcess_levels (alg : SchedAlgorithm) (k : Kernel) (cloneFlags : BitVec 64)
    (page : Option Nat) (mm : MmStruct) {i : Nat} (hi : i < k.nProcesses) :
    (k.copyProcess alg cloneFlags page mm).1.queueLevel i = k.queueLevel i := by
  unfold copyProcess
  dsimp only
  split
  · rfl
  · split
    · rfl
    · split
      · rfl
      · next k₁ hk₁ =>
          show k₁.queueLevel i = _
          rw [addProcessToScheduler_levels hk₁, modifyPcb_pcb_self]
          exact Function.update_of_ne (Nat.ne_of_lt hi) _ _

/-! ### The tick -/

/-- Under MLQ the callback of the tick does nothing. -/
theorem onTick_mlq (k : Kernel) : SchedAlgorithm.mlq.onTick k = some k := by
  show some (k.demote mlPolicyMlq) = some k
  unfold demote
  exact congrArg some (if_neg fun h => nomatch h.1)

/-- The boost is due. -/
def BoostDue (k : Kernel) (policy : MultilevelPolicy) : Prop :=
  k.mlTicksSinceBoost + 1 ≥ policy.boostPeriod

instance (k : Kernel) (policy : MultilevelPolicy) : Decidable (k.BoostDue policy) :=
  inferInstanceAs (Decidable (_ ≥ _))

/-- The boost takes every process to the top level. -/
theorem boost_levels {policy : MultilevelPolicy} (h : k.boost policy = some k') {i : Nat}
    (hi : i < N_PROCESSES) :
    k'.queueLevel i = if k.BoostDue policy then 0 else k.queueLevel i := by
  unfold boost at h
  dsimp only at h
  split at h
  · next hdue =>
      obtain ⟨k₁, -, hk'⟩ := Option.bind_eq_some_iff.mp h
      obtain rfl := Option.some.inj hk'
      have hdue' : k.BoostDue policy := hdue
      rw [if_pos hdue']
      exact if_pos hi
  · next hdue =>
      have hdue' : ¬ k.BoostDue policy := hdue
      obtain rfl := Option.some.inj h
      rw [if_neg hdue']

/-- The demotion takes the current process down by one level, but not below the last. -/
theorem demote_levels {policy : MultilevelPolicy} (hdemotes : policy.demoteOnExpiry = true) {i : Nat}
    (hbound : k.queueLevel i < policy.nLevels) :
    (demote policy k).queueLevel i =
      if (k.currentProcess ≠ .initProcess ∧ k.current.counter ≤ 0 ∧ k.current.preemptDisabled = 0)
        ∧ i = k.current.pid then min (k.queueLevel i + 1) (policy.nLevels - 1)
      else k.queueLevel i := by
  unfold demote
  dsimp only
  split
  · next hcond =>
      obtain ⟨-, hne, hused, henabled, hroom⟩ := hcond
      by_cases hi : i = k.current.pid
      · subst hi
        rw [if_pos ⟨⟨hne, hused, henabled⟩, rfl⟩]
        refine (Function.update_self k.current.pid _ k.queueLevel).trans ?_
        omega
      · rw [if_neg fun h => hi h.2]
        exact Function.update_of_ne hi _ _
  · next hcond =>
      split
      · next hall =>
          obtain ⟨⟨hne, hused, henabled⟩, rfl⟩ := hall
          have hlast : ¬ k.queueLevel k.current.pid < policy.nLevels - 1 := fun hroom =>
            hcond ⟨hdemotes, hne, hused, henabled, hroom⟩
          omega
      · rfl

/-- The tick uses up the time slice of the current process, which is not init, while its
preemption is enabled. -/
def Expires (k : Kernel) : Prop :=
  k.currentProcess ≠ .initProcess ∧ k.current.counter ≤ 1 ∧ k.current.preemptDisabled = 0

instance (k : Kernel) : Decidable k.Expires := inferInstanceAs (Decidable (_ ∧ _))

/-- Under MLFQ the callback of the tick takes all levels to the top when the boost is due, and
then takes the current process down by one level when its time slice is over. -/
theorem onTick_levels {k₁ : Kernel}
    (h : SchedAlgorithm.mlfq.onTick (k.modifyCurrent Edit.charge.apply) = some k₁) {i : Nat}
    (hi : i < N_PROCESSES) (hbound : k.queueLevel i < ML_MAX_LEVELS) :
    k₁.queueLevel i =
      if k.Expires ∧ i = k.current.pid then
        min ((if k.BoostDue mlPolicyMlfq then 0 else k.queueLevel i) + 1) (mlPolicyMlfq.nLevels - 1)
      else if k.BoostDue mlPolicyMlfq then 0 else k.queueLevel i := by
  obtain ⟨k₂, hboost, hk₁⟩ : ∃ k₂, (k.modifyCurrent Edit.charge.apply).boost mlPolicyMlfq = some k₂
      ∧ demote mlPolicyMlfq k₂ = k₁ := by
    obtain ⟨k₂, hboost, hk₁⟩ := Option.bind_eq_some_iff.mp h
    exact ⟨k₂, hboost, Option.some.inj hk₁⟩
  have hlevel := boost_levels hboost hi
  have hdue : (k.modifyCurrent Edit.charge.apply).BoostDue mlPolicyMlfq
      ↔ k.BoostDue mlPolicyMlfq := Iff.rfl
  have hlevel₀ : (k.modifyCurrent Edit.charge.apply).queueLevel = k.queueLevel := rfl
  simp only [hdue, hlevel₀] at hlevel
  -- The boost leaves the account of the current process.
  have hsame := SameBudgets.keptByTick.boost hboost
  have hpids : ∀ p, (k₂.pcb p).pid = ((k.modifyCurrent Edit.charge.apply).pcb p).pid := fun p =>
    congrArg (fun b => b.pid) ((Scheduled.keptByTick.boost hboost).block p).fixed
  have hcurrent : k₂.currentProcess = k.currentProcess := hsame.currentProcess
  have hcharge : (k.modifyCurrent Edit.charge.apply).pcb k.currentProcess
      = Edit.charge.apply k.current := modifyPcb_pcb_self k _ _
  have hcounter : k₂.current.counter = k.current.counter - 1 := by
    rw [current, hcurrent, hsame.counter, hcharge]
    rfl
  have hpreempt : k₂.current.preemptDisabled = k.current.preemptDisabled := by
    rw [current, hcurrent, hsame.preemptDisabled, hcharge]
    rfl
  have hpid : k₂.current.pid = k.current.pid := by
    rw [current, hcurrent, hpids, hcharge]
    rfl
  have hbound₂ : k₂.queueLevel i < mlPolicyMlfq.nLevels := by
    rw [hlevel]
    split
    · decide
    · exact hbound
  have hexpires : (k₂.currentProcess ≠ .initProcess ∧ k₂.current.counter ≤ 0
      ∧ k₂.current.preemptDisabled = 0) ↔ k.Expires := by
    rw [hcurrent, hcounter, hpreempt]
    exact and_congr_right fun _ => and_congr_left fun _ => by omega
  rw [← hk₁, demote_levels rfl hbound₂, hlevel, hpid]
  simp only [hexpires]

/-- The rest of a tick writes no level. -/
theorem handleTimerTick_levels (h : k.handleTimerTick .mlfq = some (k', c)) {i : Nat}
    (hi : i < N_PROCESSES) (hbound : k.queueLevel i < ML_MAX_LEVELS) :
    k'.queueLevel i =
      if k.Expires ∧ i = k.current.pid then
        min ((if k.BoostDue mlPolicyMlfq then 0 else k.queueLevel i) + 1) (mlPolicyMlfq.nLevels - 1)
      else if k.BoostDue mlPolicyMlfq then 0 else k.queueLevel i := by
  obtain ⟨k₁, hcharged, h⟩ := Option.bind_eq_some_iff.mp h
  have hk' : k'.queueLevel = k₁.queueLevel := by
    split at h
    · rw [(Prod.mk.inj (Option.some.inj h)).1]
    · rw [← (Prod.mk.inj (Option.some.inj h)).1]
      rfl
  rw [charge_eq] at hcharged
  rw [hk']
  exact onTick_levels hcharged hi hbound

/-! ### Steps -/

/-- The code of any other trap keeps the levels of the processes that exist. -/
theorem enter_levels (halg : alg.mlPolicy ≠ none) {t : Trap} (htick : t ≠ .timerTick)
    (hparam : ∀ pid param value, t ≠ .setSchedParam pid param value)
    (h : k.enter alg t = some (k', c)) {i : Nat} (hi : i < k.nProcesses) :
    k'.queueLevel i = k.queueLevel i := by
  cases t with
  | timerTick => exact absurd rfl htick
  | setSchedParam pid param value => exact absurd rfl (hparam pid param value)
  | kernelMain page =>
      obtain ⟨rfl, -⟩ := Prod.mk.inj (guarded h).2
      exact copyProcess_levels alg k PF_KTHREAD page .empty hi
  | fork page mm =>
      obtain ⟨rfl, -⟩ := Prod.mk.inj (guarded h).2
      exact copyProcess_levels alg k 0 page mm hi
  | _ =>
      have hsame := SameLevels.of_ends ((SameLevels.keptByCode halg).enter rfl h)
      exact congrFun hsame.queueLevel i

/-- A selection function writes no level. -/
theorem pickNext_levels {s : Sched} (hk : Refines k s) (hinv : s.Inv alg)
    (h : alg.pickNext k = some k') : k'.queueLevel = k.queueLevel := by
  obtain ⟨k₂, as, s₂, next, quantum, s₃, hpick, hexec, hs₃, -⟩ := pickNext_exec alg hk hinv
  obtain rfl : k₂ = k' := Option.some.inj (hpick.symm.trans h)
  rw [hs₃.refines.queueLevel, hexec.queueLevel, hk.queueLevel]

end Kernel

end DemoOS
