import DemoOS.Proofs.Scheduler.Levels
import DemoOS.Proofs.Scheduler.PreemptionCount

/-!
# `DemoOS.Proofs.Scheduler.TimeSlices`: time slices, tick by tick

Round robin, the lottery and the two multilevel algorithms give a process a time slice when they
dispatch it. `Slice alg k q n` says that in the state `k` the running process has been charged
`n` ticks since it was dispatched with the slice `q`. The counter is then `q - n`
(`Slice.counter`), which says on which tick the scheduler is called. Under MLFQ the same ticks
are the ones that demote (`timeSlices`).
-/

set_option autoImplicit false

namespace DemoOS

open Kernel Support

/-- The algorithms that give time slices. -/
def SchedAlgorithm.slices : SchedAlgorithm → Bool
  | .roundRobin | .lottery | .mlq | .mlfq => true
  | _ => false

/-- The slice that a selection function gives to the process `p`, where `k` is the state in which
the outgoing process is back in the queues: 10, or the quantum of the level that `p` is taken
from. -/
def Kernel.GivesSlice (alg : SchedAlgorithm) (k : Kernel) (p : PcbPtr) (q : Int) : Prop :=
  match alg.mlPolicy with
  | none => q = 10
  | some policy => ∃ level < policy.nLevels, p ∈ k.linkedIn (.mlQueue level)
      ∧ q = policy.quantum level

/-- In the state `k`, a process other than init is running with the slice `q`, of which `n` ticks
are used up. -/
inductive Kernel.Slice (alg : SchedAlgorithm) : Kernel → Int → Nat → Prop
  | dispatched {k k₁ k' : Kernel} {t : Trap} {q : Int} :
      Reachable alg k → k.enter alg t = some (k₁, .schedules) → alg.pickNext k₁ = some k' →
      k'.currentProcess ≠ .initProcess →
      (k₁.requeueOutgoing alg.enqueue).GivesSlice alg k'.currentProcess q → Slice alg k' q 0
  | charged {k k' : Kernel} {q : Int} {n : Nat} :
      Slice alg k q n → k.enter alg .timerTick = some (k', .returns) → Slice alg k' q (n + 1)
  | kept {k k' : Kernel} {t : Trap} {q : Int} {n : Nat} :
      Slice alg k q n → t ≠ .timerTick → k.enter alg t = some (k', .returns) → Slice alg k' q n

/-- The tick calls the scheduler on a process other than init. -/
def Kernel.ExpiryTick (alg : SchedAlgorithm) (k : Kernel) (t : Trap) : Prop :=
  t = .timerTick ∧ k.currentProcess ≠ .initProcess
    ∧ ∃ k₁, k.enter alg .timerTick = some (k₁, .schedules)

/-- The level once the trap has done a boost that is due. -/
def Kernel.boostedLevel (k : Kernel) (t : Trap) (i : Nat) : Nat :=
  match t with
  | .timerTick => if k.BoostDue mlPolicyMlfq then 0 else k.queueLevel i
  | _ => k.queueLevel i

/-! ### The slice at the dispatch -/

section Dispatch
variable {alg : SchedAlgorithm} {k k' : Kernel} {s : Sched}

/-- A dispatched process has the slice that it was given. -/
theorem dispatch_slice (p : PcbPtr) (q : Int) :
    ((k.setQuantum (some p) q).dispatch (some p)).currentProcess = p
      ∧ ((k.setQuantum (some p) q).dispatch (some p)).current.counter = q := by
  have hstate : ∀ (k : Kernel) (r : PcbPtr) (st : ProcessState),
      ((k.setState r st).pcb p).counter = (k.pcb p).counter := fun k r st => by
    rw [Kernel.setState, modifyPcb_pcb]
    split
    · next hp => rw [hp]; rfl
    · rfl
  have hswitch : ∀ k : Kernel, (k.switchToProcess p).currentProcess = p
      ∧ ((k.switchToProcess p).pcb p).counter = (k.pcb p).counter := fun k => by
    have hrun : (((k.setState p .running).log (.dispatched p)).pcb p).counter = (k.pcb p).counter :=
      hstate k p .running
    unfold switchToProcess
    dsimp only
    split
    · next hp => exact ⟨hp, hrun⟩
    · split
      · exact ⟨rfl, (hstate _ _ .ready).trans hrun⟩
      · exact ⟨rfl, hrun⟩
  have hquantum : ((k.setQuantum (some p) q).pcb p).counter = q :=
    congrArg PCB.counter (modifyPcb_pcb_self k p fun b => b.withCounter q)
  have hcurrent := (hswitch (k.setQuantum (some p) q)).1
  refine ⟨hcurrent, ?_⟩
  unfold dispatch
  have hparent := (Parent.preemptEnable ((k.setQuantum (some p) q).switchToProcess p)).counter
  rw [Option.getD_some, hparent, current, hcurrent]
  exact (hswitch _).2.trans hquantum

theorem dispatch_none : (k.dispatch none).currentProcess = .initProcess := by
  unfold dispatch switchToProcess
  dsimp only
  split
  · next hp => exact hp
  · rfl

/-- The multilevel selection gives the quantum of the level that it takes the process from. -/
theorem scheduleMultilevel_slice (hk : Refines k s) (hinv : s.Inv alg) {policy : MultilevelPolicy}
    (hml : alg.mlPolicy = some policy) (h : k.scheduleMultilevel alg = some k')
    (hne : k'.currentProcess ≠ .initProcess) :
    ∃ q, (k.requeueOutgoing alg.enqueue).GivesSlice alg k'.currentProcess q
      ∧ k'.current.counter = q := by
  have hinsert : (fun k p => Kernel.enqueueMultilevel k p) = alg.enqueue := by
    cases alg <;> first | rfl | exact nomatch hml
  have hk₁ := requeueOutgoing_refines hk hinv hinsert
  obtain ⟨k₁, as, s₁, found, hrun, -, -, -, -, hlevel⟩ := cascade_search hk₁ (inv_requeued hinv)
    (List.nodup_range (n := policy.nLevels))
  simp only [scheduleMultilevel, hml, Option.bind_eq_bind, Option.bind_some, hrun] at h
  cases found with
  | none =>
      obtain rfl := Option.some.inj h
      exact absurd dispatch_none hne
  | some found =>
      obtain ⟨p, level⟩ := found
      obtain rfl := Option.some.inj h
      obtain ⟨hlt, hmem⟩ := hlevel p level rfl
      obtain ⟨hcurrent, hcounter⟩ := dispatch_slice (k := k₁) p (policy.quantum level)
      refine ⟨policy.quantum level, ?_, hcounter⟩
      unfold GivesSlice
      rw [hml, hcurrent, ← hinsert]
      refine ⟨level, List.mem_range.mp hlt, ?_, rfl⟩
      rw [hk₁.linkedIn_eq (inv_requeued hinv)]
      exact hmem

/-- Every selection of such an algorithm gives a slice to a process other than init. -/
theorem pickNext_slice (halg : alg.slices = true) (hk : Refines k s) (hinv : s.Inv alg)
    (h : alg.pickNext k = some k') (hne : k'.currentProcess ≠ .initProcess) :
    ∃ q, (k.requeueOutgoing alg.enqueue).GivesSlice alg k'.currentProcess q
      ∧ k'.current.counter = q := by
  have hten : ∀ {k₁ : Kernel} {next : Option PcbPtr},
      k' = (k₁.setQuantum next 10).dispatch next → k'.current.counter = 10 := by
    rintro k₁ next rfl
    cases next with
    | none => exact absurd dispatch_none hne
    | some p => exact (dispatch_slice p 10).2
  cases alg with
  | roundRobin =>
      obtain ⟨⟨k₁, next⟩, -, hk'⟩ := Option.bind_eq_some_iff.mp h
      exact ⟨10, rfl, hten (Option.some.inj hk').symm⟩
  | lottery =>
      obtain ⟨⟨k₁, next⟩, -, hk'⟩ := Option.bind_eq_some_iff.mp h
      exact ⟨10, rfl, hten (Option.some.inj hk').symm⟩
  | mlq => exact scheduleMultilevel_slice hk hinv rfl h hne
  | mlfq => exact scheduleMultilevel_slice hk hinv rfl h hne
  | _ => exact nomatch halg

/-- There is one slice to give, since no process is in two queues. -/
theorem givesSlice_unique (hk : Refines k s) (hinv : s.Inv alg) {p : PcbPtr} {q q' : Int}
    (h : k.GivesSlice alg p q) (h' : k.GivesSlice alg p q') : q = q' := by
  unfold GivesSlice at h h'
  cases hml : alg.mlPolicy with
  | none =>
      rw [hml] at h h'
      exact h.trans h'.symm
  | some policy =>
      rw [hml] at h h'
      obtain ⟨level, -, hmem, rfl⟩ := h
      obtain ⟨level', -, hmem', rfl⟩ := h'
      rw [hk.linkedIn_eq hinv] at hmem hmem'
      obtain rfl := QueueId.mlQueue.inj (hinv.queues.disjoint hmem hmem')
      rfl

end Dispatch

/-! ### The counter -/

namespace Kernel.Slice

variable {alg : SchedAlgorithm} {k : Kernel} {q : Int} {n : Nat}

theorem reachable (h : Slice alg k q n) : Reachable alg k := by
  have hreturns : ∀ {k k' : Kernel} {t : Trap}, k.enter alg t = some (k', .returns) →
      k.step alg t = some k' := fun henter => by
    unfold Kernel.step
    rw [henter]
  induction h with
  | @dispatched k k₁ k' t q hk henter hpick _ _ =>
      refine .step t hk ?_
      unfold Kernel.step
      rw [henter]
      exact hpick
  | charged _ henter ih => exact .step _ ih (hreturns henter)
  | @kept _ _ t _ _ _ _ henter ih => exact .step t ih (hreturns henter)

/-- The ticks since the dispatch are missing from the counter. -/
theorem counter (halg : alg.slices = true) (h : Slice alg k q n) : k.current.counter = q - n := by
  induction h with
  | @dispatched k k₁ k' t q hk henter hpick hne hslice =>
      obtain ⟨s, hs, hinv⟩ := atPick_refines (.scheduling t hk henter)
      obtain ⟨q', hslice', hcounter⟩ := pickNext_slice halg hs hinv hpick hne
      have hopened := requeueOutgoing_refines hs hinv rfl
      rw [hcounter, givesSlice_unique hopened (inv_requeued hinv) hslice' hslice]
      exact (Int.sub_zero q).symm
  | @charged k k' q n _ henter ih =>
      have hpreemptive : alg.isPreemptive = true := by
        cases alg <;> first | rfl | cases halg
      obtain ⟨-, -, -, hcharged, -⟩ := handleTimerTick_budgets henter
      rw [hcharged hpreemptive rfl, ih]
      omega
  | @kept k k' t q n hk htick henter ih =>
      obtain ⟨s, hs⟩ := reachable_settled hk.reachable
      rw [← ih]
      cases hcopies : t.copies with
      | false =>
          have hsame := (enter_budgets htick hcopies henter).related
          rw [current, hsame.currentProcess, hsame.counter, current]
      | true =>
          -- The parent keeps its counter.
          cases t with
          | kernelMain page =>
              obtain ⟨⟨-, -, hfresh⟩, hr⟩ := guarded henter
              obtain ⟨rfl, -⟩ := Prod.mk.inj hr
              have hparent := copyProcess_parent alg (hs.page_ne_current hfresh) PF_KTHREAD .empty
              exact (hparent.trans
                (.of_same ((SameBudgets.keptByCode alg).suspendAt _ .idle))).counter
          | fork page mm =>
              obtain ⟨⟨-, hfresh⟩, hr⟩ := guarded henter
              obtain ⟨rfl, -⟩ := Prod.mk.inj hr
              have hparent := copyProcess_parent alg (hs.page_ne_current hfresh) 0 mm
              exact (hparent.trans
                (.of_same ((SameBudgets.keptByCode alg).returnToUser _ _))).counter
          | _ => cases hcopies

end Kernel.Slice

/-! ### Ticks and levels -/

section Ticks
variable {alg : SchedAlgorithm} {k k' k₁ : Kernel} {t : Trap}

/-- The preemption count of the running process is not negative. -/
theorem current_preemptDisabled_nonneg (hk : Reachable alg k) : 0 ≤ k.current.preemptDisabled := by
  obtain ⟨s, hs, hcounts⟩ := reachable_counts_nonneg hk
  rw [current, hs.refines.currentProcess, ← hs.refines.preemptDisabled]
  exact hcounts.1

/-- The ticks that call the scheduler on a process other than init are those that use up its
counter while its preemption is enabled. -/
theorem expiryTick_iff (hpreemptive : alg.isPreemptive = true) (hk : Reachable alg k) :
    k.ExpiryTick alg t ↔ t = .timerTick ∧ k.Expires := by
  have hnonneg := current_preemptDisabled_nonneg hk
  obtain ⟨s, hs⟩ := reachable_settled hk
  obtain ⟨⟨k₁, c⟩, -, -, htick, -⟩ :=
    handleTimerTick_code (k.departure .timerTick) hs.refines hs.inv
  obtain ⟨-, -, -, -, hschedules⟩ := handleTimerTick_budgets htick
  have hcalls : (∃ k₁, k.enter alg .timerTick = some (k₁, .schedules))
      ↔ k.current.counter ≤ 1 ∧ k.current.preemptDisabled = 0 := by
    have henter : k.enter alg .timerTick = some (k₁, c) := htick
    have hc : (∃ k₁, k.enter alg .timerTick = some (k₁, .schedules)) ↔ c = .schedules := by
      rw [henter]
      constructor
      · rintro ⟨k₂, h⟩
        exact (Prod.mk.inj (Option.some.inj h)).2
      · rintro rfl
        exact ⟨k₁, rfl⟩
    rw [hc, hschedules]
    constructor
    · rintro ⟨-, hused, henabled⟩
      exact ⟨hused, by omega⟩
    · rintro ⟨hused, henabled⟩
      exact ⟨hpreemptive, hused, by omega⟩
  unfold ExpiryTick Expires
  rw [hcalls]

/-- The code of the trap of a step, and what it does to the levels. -/
theorem step_enter_levels (hk : Reachable alg k) (hstep : k.step alg t = some k') :
    ∃ k₁ c, k.enter alg t = some (k₁, c) ∧ k'.queueLevel = k₁.queueLevel := by
  unfold Kernel.step at hstep
  split at hstep
  · exact nomatch hstep
  · next k₁ henter =>
      obtain rfl := Option.some.inj hstep
      exact ⟨_, _, henter, rfl⟩
  · next k₁ henter =>
      obtain ⟨s₁, hs₁, hinv₁⟩ := atPick_refines (.scheduling t hk henter)
      exact ⟨_, _, henter, pickNext_levels hs₁ hinv₁ hstep⟩

/-- Under MLFQ a step without `set_sched_param` takes the level of the process that an expiry tick
interrupts down by one, and leaves every other one, once a boost that is due has reset them. -/
theorem step_levels (hk : Reachable .mlfq k)
    (hparam : ∀ pid param value, t ≠ .setSchedParam pid param value)
    (hstep : k.step .mlfq t = some k') {i : Nat} (hi : i < k.nProcesses) :
    (k.ExpiryTick .mlfq t ∧ i = k.current.pid →
        k'.queueLevel i = min (k.boostedLevel t i + 1) (mlPolicyMlfq.nLevels - 1))
      ∧ (¬ (k.ExpiryTick .mlfq t ∧ i = k.current.pid) → k'.queueLevel i = k.boostedLevel t i) := by
  obtain ⟨s, hs⟩ := reachable_settled hk
  obtain ⟨k₁, c, henter, hlevels⟩ := step_enter_levels hk hstep
  rw [hlevels, expiryTick_iff rfl hk]
  have hbound : i < N_PROCESSES := by
    have := hs.inv.table.bound
    rw [hs.refines.nProcesses] at hi
    exact Nat.lt_of_lt_of_le hi this
  cases t with
  | timerTick =>
      have hlevel : k.queueLevel i < ML_MAX_LEVELS := by
        rw [hs.refines.queueLevel]
        exact hs.inv.queues.level i
      have htick := handleTimerTick_levels henter hbound hlevel
      constructor
      · rintro ⟨⟨-, hexpires⟩, hip⟩
        rw [htick, if_pos ⟨hexpires, hip⟩]
        rfl
      · intro hnot
        rw [htick, if_neg fun h => hnot ⟨⟨rfl, h.1⟩, h.2⟩]
        rfl
  | _ =>
      have hsame : k₁.queueLevel i = k.queueLevel i :=
        enter_levels (by decide) (by nofun) hparam henter hi
      exact ⟨fun h => (nomatch h.1.1), fun _ => hsame⟩

end Ticks

/-- Under round robin, the lottery, MLQ and MLFQ every dispatch of a process other than init
starts a time slice, and a tick calls the scheduler on the process exactly if it is at least the
`q`-th since then and preemption is enabled. Under MLFQ, in steps without `set_sched_param`, these
ticks take the level of the process down by one, up to the last level, and no other step changes
the level of any process: where the boost falls on the tick, the levels are first reset. -/
theorem timeSlices {alg : SchedAlgorithm} (halg : alg.slices = true) :
    (∀ {k k₁ k' : Kernel} {t : Trap}, Reachable alg k → k.enter alg t = some (k₁, .schedules) →
      alg.pickNext k₁ = some k' → k'.currentProcess ≠ .initProcess → ∃ q, Slice alg k' q 0)
    ∧ (∀ {k k' : Kernel} {q : Int} {n : Nat} {c : Control}, Slice alg k q n →
      k.enter alg .timerTick = some (k', c) →
        (c = .schedules ↔ q ≤ n + 1 ∧ k.current.preemptDisabled = 0))
    ∧ (alg = .mlfq → ∀ {k k' : Kernel} {t : Trap}, Reachable alg k →
      (∀ pid param value, t ≠ .setSchedParam pid param value) → k.step alg t = some k' →
        ∀ i < k.nProcesses,
          (k.ExpiryTick alg t ∧ i = k.current.pid →
            k'.queueLevel i = min (k.boostedLevel t i + 1) (mlPolicyMlfq.nLevels - 1))
          ∧ (¬ (k.ExpiryTick alg t ∧ i = k.current.pid) →
            k'.queueLevel i = k.boostedLevel t i)) := by
  refine ⟨fun {k k₁ k' t} hk henter hpick hne => ?_, fun {k k' q n c} hslice htick => ?_, ?_⟩
  · obtain ⟨s₁, hs₁, hinv₁⟩ := atPick_refines (.scheduling t hk henter)
    obtain ⟨q, hq, -⟩ := pickNext_slice halg hs₁ hinv₁ hpick hne
    exact ⟨q, .dispatched hk henter hpick hne hq⟩
  · have hpreemptive : alg.isPreemptive = true := by
      cases alg <;> first | rfl | exact nomatch halg
    have hnonneg := current_preemptDisabled_nonneg hslice.reachable
    obtain ⟨-, -, -, -, hschedules⟩ := handleTimerTick_budgets htick
    rw [hschedules, hslice.counter halg]
    constructor
    · rintro ⟨-, hused, henabled⟩
      constructor <;> omega
    · rintro ⟨hused, henabled⟩
      refine ⟨hpreemptive, ?_, ?_⟩ <;> omega
  · rintro rfl k k' t hk hparam hstep i hi
    exact step_levels hk hparam hstep hi

/-- The first process is dispatched. Its first tick does not call the scheduler. -/
theorem timeSlices_first :
    ∃ k k₁ q, Slice .mlfq k q 0 ∧ k.enter .mlfq .timerTick = some (k₁, .returns)
      ∧ ¬ (q ≤ 1 ∧ k.current.preemptDisabled = 0)
      ∧ k₁.queueLevel 1 = k.boostedLevel .timerTick 1 := by
  have hrun : ((Kernel.boot fun _ => 0).run .mlfq [.kernelMain (some 0)]).bind (fun k =>
      (k.enter .mlfq .timerTick).bind fun r => (SchedAlgorithm.mlfq.pickNext r.1).bind fun k' =>
        (k'.enter .mlfq .timerTick).map fun r' =>
          (r.2, k'.currentProcess, r'.2, k'.nProcesses)) =
      some (.schedules, .page 0, .returns, 2) := by
    decide +kernel
  obtain ⟨k, hk, hrun⟩ := Option.bind_eq_some_iff.mp hrun
  obtain ⟨⟨k₁, c⟩, henter, hrun⟩ := Option.bind_eq_some_iff.mp hrun
  obtain ⟨k₂, hpick, hrun⟩ := Option.bind_eq_some_iff.mp hrun
  obtain ⟨⟨k₃, c'⟩, htick, hfinal⟩ := Option.map_eq_some_iff.mp hrun
  simp only [Prod.mk.injEq] at hfinal
  obtain ⟨rfl, hcurrent, rfl, hn⟩ := hfinal
  have hreach : Reachable .mlfq k := reachable_run (.boot _) hk
  have hmlfq : SchedAlgorithm.mlfq.slices = true := rfl
  obtain ⟨q, hslice⟩ := (timeSlices hmlfq).1 hreach henter hpick
    (by rw [hcurrent]; decide)
  have hnot := ((timeSlices hmlfq).2.1 hslice htick).not.mp (by decide)
  have hstep : k₂.step .mlfq .timerTick = some k₃ := by
    unfold Kernel.step
    rw [htick]
  have hlevel := ((timeSlices hmlfq).2.2 rfl hslice.reachable (fun _ _ _ => by nofun)
    hstep 1 (by rw [hn]; decide)).2
  refine ⟨k₂, k₃, q, hslice, htick, fun h => hnot ⟨by simpa using h.1, h.2⟩, hlevel ?_⟩
  rintro ⟨⟨-, -, k₄, htick'⟩, -⟩
  exact nomatch (Prod.mk.inj (Option.some.inj (htick.symm.trans htick'))).2

/-- The boost falls on a tick on which a time slice ends: the level of the process goes from 4 to
1, and not up. -/
theorem boost_on_expiry :
    ∃ k k', (Kernel.boot fun _ => 0).run .mlfq
        ([Trap.kernelMain (some 0), .timerTick, .moveToUserMode .empty .zeroed, .timerTick, .yield]
          ++ List.replicate 297 Trap.timerTick) = some k
      ∧ k.ExpiryTick .mlfq .timerTick ∧ k.current.pid = 1 ∧ k.queueLevel 1 = 4
      ∧ k.step .mlfq .timerTick = some k' ∧ k'.queueLevel 1 = 1 := by
  have hrun : ((Kernel.boot fun _ => 0).run .mlfq
      ([Trap.kernelMain (some 0), .timerTick, .moveToUserMode .empty .zeroed, .timerTick, .yield]
        ++ List.replicate 297 Trap.timerTick)).bind (fun k =>
      (k.enter .mlfq .timerTick).bind fun r => (k.step .mlfq .timerTick).map fun k' =>
        (r.2, k.currentProcess, k.current.pid, k.queueLevel 1, k'.queueLevel 1)) =
      some (.schedules, .page 0, 1, 4, 1) := by
    decide +kernel
  obtain ⟨k, hk, hrun⟩ := Option.bind_eq_some_iff.mp hrun
  obtain ⟨⟨k₁, c⟩, henter, hrun⟩ := Option.bind_eq_some_iff.mp hrun
  obtain ⟨k', hstep, hfinal⟩ := Option.map_eq_some_iff.mp hrun
  simp only [Prod.mk.injEq] at hfinal
  obtain ⟨rfl, hcurrent, hpid, hlevel, hlevel'⟩ := hfinal
  exact ⟨k, k', hk, ⟨rfl, by rw [hcurrent]; decide, k₁, henter⟩, hpid, hlevel, hstep, hlevel'⟩

end DemoOS
