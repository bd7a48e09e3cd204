import DemoOS.Proofs.Scheduler.Selection
import DemoOS.Proofs.Scheduler.Traps

/-!
# `DemoOS.Proofs.Scheduler.Runs`: runs of kernel steps

A kernel step is one of two lists of actions (`StepExec`): code that keeps the CPU, or
code that calls the scheduler, followed by a selection function. `step_exec` proves it
of `Kernel.step`, and `reachable_invariant` turns what these steps preserve into a
property of all runs.
-/

set_option autoImplicit false

namespace DemoOS

open Kernel Support

/-! ### Steps -/

/-- The kernel state between two steps. -/
structure Settled (alg : SchedAlgorithm) (k : Kernel) (s : Sched) : Prop where
  refines : Refines k s
  inv : s.Inv alg
  running : s.Running

/-- The actions of a selection function that runs from `s`. -/
def pickActions (s : Sched) (as : List Action) (next : Option PcbPtr) (quantum : Option Int) :
    List Action :=
  s.requeueActions ++ as
    ++ [.dispatch next quantum, .edit (next.getD .initProcess) (.preempt (-1))]

/-- The selection function runs from `s₁` to `s₃`, by way of the state `s₂` in which its
search ends. -/
structure PickExec (alg : SchedAlgorithm) (s₁ : Sched) (as : List Action) (s₂ : Sched)
    (next : Option PcbPtr) (quantum : Option Int) (s₃ : Sched) : Prop where
  exec : Exec alg (s₁.requeued alg) as s₂
  selects : ∀ a ∈ as, a.Selects
  guard : (Action.dispatch next quantum).Guard alg s₂
  scans : (s₁.requeued alg).Scans alg as next
  final : s₃ = ((Action.dispatch next quantum).apply alg s₂).modify
    (next.getD .initProcess) (Edit.preempt (-1)).apply

/-- The actions of one kernel step from `s` to `s'`. -/
inductive StepExec (alg : SchedAlgorithm) (dep : Departure) (s : Sched) : List Action → Sched → Prop
  | returns {as : List Action} {s' : Sched} : Exec alg s as s' → (∀ a ∈ as, a.Stays) →
      StepExec alg dep s as s'
  | schedules {as bs : List Action} {s₁ s₂ s₃ : Sched} {next : Option PcbPtr}
      {quantum : Option Int} : Exec alg s as s₁ → (∀ a ∈ as, a.IsCode ∧ dep.Allows s₁ a) →
      (s₁.block s₁.currentProcess).counter = 0 → PickExec alg s₁ bs s₂ next quantum s₃ →
      StepExec alg dep s (as ++ pickActions s₁ bs next quantum) s₃

section Steps
variable {alg : SchedAlgorithm} {dep : Departure} {k k' : Kernel} {s s₁ s₂ s₃ : Sched}
  {as : List Action} {next : Option PcbPtr} {quantum : Option Int}

namespace PickExec

/-- After the dispatch, the preemption counter of the new process is its own. -/
theorem guard_preempt :
    (Action.edit (next.getD .initProcess) (.preempt (-1))).Guard alg
      ((Action.dispatch next quantum).apply alg s₂) := by
  cases next <;> exact Sched.switchTo_currentProcess.symm

theorem all (h : PickExec alg s₁ as s₂ next quantum s₃) :
    Exec alg s₁ (pickActions s₁ as next quantum) s₃ :=
  exec_append.mpr ⟨s₂, exec_append.mpr ⟨_, Sched.exec_requeued, h.exec⟩, h.guard, guard_preempt,
    h.final⟩

theorem currentProcess (h : PickExec alg s₁ as s₂ next quantum s₃) :
    s₃.currentProcess = next.getD .initProcess := by
  rw [h.final]
  cases next <;> exact Sched.switchTo_currentProcess

/-- The process that gets the CPU is marked as running. -/
theorem running (h : PickExec alg s₁ as s₂ next quantum s₃) : s₃.Running := by
  intro _
  rw [h.currentProcess, h.final, Sched.state_modify rfl]
  cases next <;> (simp only [Action.apply, Option.getD]; rw [Sched.state_switchTo, if_pos rfl])

end PickExec

theorem StepExec.exec (h : StepExec alg dep s as s₁) : Exec alg s as s₁ := by
  cases h with
  | returns hexec _ => exact hexec
  | schedules hexec _ _ hpick => exact exec_append.mpr ⟨_, hexec, hpick.all⟩

/-- A call of the selection function. -/
theorem pickNext_exec (alg : SchedAlgorithm) (h : Refines k s) (hinv : s.Inv alg) :
    ∃ k' as s₂ next quantum s₃, alg.pickNext k = some k' ∧ PickExec alg s as s₂ next quantum s₃
      ∧ Settled alg k' s₃ ∧ drops as = k.removals alg := by
  obtain ⟨k', as, s₂, next, quantum, hrun, hpicked, hdrops, hscans⟩ := pickNext_outcome h hinv
  have hpick : PickExec alg s as s₂ next quantum _ :=
    ⟨hpicked.exec, hpicked.selects, hpicked.guard, hscans, rfl⟩
  exact ⟨k', as, s₂, next, quantum, _, hrun, hpick,
    ⟨hpicked.refines, hinv.exec hpick.all, hpick.running⟩, hdrops⟩

/-- Every kernel step is a list of actions. -/
theorem step_exec (h : Settled alg k s) {t : Trap} (hstep : k.step alg t = some k') :
    ∃ as s', StepExec alg (k.departure t) s as s' ∧ Settled alg k' s' := by
  unfold Kernel.step at hstep
  cases hr : k.enter alg t with
  | none => rw [hr] at hstep; exact nomatch hstep
  | some r =>
      obtain ⟨k₁, control⟩ := r
      obtain ⟨as, s₁, hcode⟩ := enter_code h.refines h.inv h.running hr
      rw [hr] at hstep
      cases control with
      | returns =>
          obtain rfl := Option.some.inj hstep
          have hstays := hcode.returns rfl
          obtain ⟨hinv, hrun, -⟩ := hcode.exec.stays hstays h.inv h.running
          exact ⟨as, s₁, .returns hcode.exec hstays, hcode.refines, hinv, hrun⟩
      | schedules =>
          obtain ⟨hall, hcounter⟩ := hcode.schedules rfl
          obtain ⟨k'', bs, s₂, next, quantum, s₃, hpick, hexec, hsettled, -⟩ :=
            pickNext_exec alg hcode.refines (h.inv.exec hcode.exec)
          obtain rfl : k'' = k' := Option.some.inj (hpick.symm.trans hstep)
          exact ⟨_, s₃, .schedules hcode.exec hall hcounter hexec, hsettled⟩

/-- A trap that can happen leads to a next state. -/
theorem step_isSome (h : Settled alg k s) {t : Trap} (ht : (k.enter alg t).isSome) :
    (k.step alg t).isSome := by
  obtain ⟨⟨k₁, control⟩, hr⟩ := Option.isSome_iff_exists.mp ht
  obtain ⟨as, s₁, hcode⟩ := enter_code h.refines h.inv h.running hr
  unfold Kernel.step
  rw [hr]
  cases control with
  | returns => rfl
  | schedules =>
      obtain ⟨k', -, -, -, -, -, hpick, -⟩ :=
        pickNext_exec alg hcode.refines (h.inv.exec hcode.exec)
      exact Option.isSome_iff_exists.mpr ⟨k', hpick⟩

end Steps

/-! ### Boot -/

/-- The abstract state after the static initialisers. -/
def Sched.boot : Sched where
  block p := if p = .initProcess then INIT_PROCESS else .zeroed
  queue _ := []
  currentProcess := .initProcess
  processes i := if i = 0 then some .initProcess else none
  nProcesses := 1
  queueLevel _ := 0
  uartOwner := none
  trace := []

namespace Sched

theorem registered_boot {p : PcbPtr} : boot.Registered p ↔ p = .initProcess := by
  constructor
  · rintro ⟨i, -, hi⟩
    simp only [boot] at hi
    split at hi
    · exact (Option.some.inj hi).symm
    · exact nomatch hi
  · rintro rfl
    exact ⟨0, by decide, rfl⟩

theorem boot_block_init : boot.block .initProcess = INIT_PROCESS := rfl

theorem inv_boot (alg : SchedAlgorithm) : boot.Inv alg where
  table := {
    slot := fun {i p} hi => by
      obtain ⟨hi0, rfl⟩ : i = 0 ∧ p = .initProcess := by
        simp only [boot] at hi
        split at hi
        · exact ⟨by assumption, (Option.some.inj hi).symm⟩
        · exact nomatch hi
      rw [hi0, boot_block_init]
      exact ⟨Nat.one_pos, rfl⟩
    dense := fun i hi => ⟨.initProcess, by
      rw [Nat.lt_one_iff.mp hi]
      rfl⟩
    bound := by decide
    first := rfl }
  queues := {
    member := fun hp => nomatch hp
    nodup := fun _ => List.nodup_nil
    disjoint := fun hp => nomatch hp
    linked := fun hp hne => absurd (registered_boot.mp hp) hne
    level := fun _ => (by decide : 0 < ML_MAX_LEVELS) }
  cpu := {
    current := registered_boot.mpr rfl
    running := fun hp _ => registered_boot.mp hp
    initState := Or.inl rfl }
  points := {
    priority := fun hp => by rw [registered_boot.mp hp]; decide
    init := Or.inl rfl
    destination := fun hp hres => by
      rw [registered_boot.mp hp] at hres
      exact nomatch hres
    blocked := fun hp => by rw [registered_boot.mp hp]; trivial
    owner := fun ho => nomatch ho }

end Sched

theorem settled_boot (alg : SchedAlgorithm) (timerClo : Nat → BitVec 32) :
    Settled alg (Kernel.boot timerClo) Sched.boot where
  refines := {
    linked := ⟨fun _ => IsQueue.empty _, fun hp => nomatch hp⟩
    block := by
      funext p
      simp only [view, Kernel.boot, Sched.boot]
      split <;> rfl
    currentProcess := rfl
    processes := rfl
    nProcesses := rfl
    queueLevel := rfl
    uartOwner := rfl
    trace := rfl }
  inv := Sched.inv_boot alg
  running hne := absurd rfl hne

/-! ### Runs -/

/-- What every action preserves in the presence of the invariant. -/
theorem Exec.preserves {alg : SchedAlgorithm} {s s' : Sched} {as : List Action} {P : Sched → Prop}
    (h : Exec alg s as s')
    (haction : ∀ (s : Sched) (a : Action), s.Inv alg → a.Guard alg s → P s → P (a.apply alg s))
    (hinv : s.Inv alg) (hp : P s) : s'.Inv alg ∧ P s' :=
  h.invariant (A := fun _ => True) (P := fun s => s.Inv alg ∧ P s)
    (fun s a _ hg ⟨hi, hp⟩ => ⟨hi.apply hg, haction s a hi hg hp⟩) (fun _ _ => trivial) ⟨hinv, hp⟩

section Runs
variable {alg : SchedAlgorithm} {k : Kernel}

/-- What every kernel step preserves holds in every reachable state. -/
theorem reachable_invariant {P : Sched → Prop} (hboot : P .boot)
    (hstep : ∀ {s as s'} (dep : Departure), s.Inv alg → s.Running → StepExec alg dep s as s' →
      P s → P s') (hk : Reachable alg k) : ∃ s, Settled alg k s ∧ P s := by
  induction hk with
  | boot timerClo => exact ⟨_, settled_boot alg timerClo, hboot⟩
  | step t _ hk' ih =>
      obtain ⟨s, hs, hp⟩ := ih
      obtain ⟨as, s', hexec, hs'⟩ := step_exec hs hk'
      exact ⟨s', hs', hstep _ hs.inv hs.running hexec hp⟩

/-- What every action preserves holds in every reachable state. -/
theorem reachable_of_actions {P : Sched → Prop} (hboot : P .boot)
    (haction : ∀ (s : Sched) (a : Action), s.Inv alg → a.Guard alg s → P s → P (a.apply alg s))
    (hk : Reachable alg k) : ∃ s, Settled alg k s ∧ P s :=
  reachable_invariant hboot (fun _ hinv _ hexec hp =>
    (hexec.exec.preserves haction hinv hp).2) hk

/-- What every action preserves is preserved by a run. -/
theorem run_of_actions {P : Sched → Prop}
    (haction : ∀ (s : Sched) (a : Action), s.Inv alg → a.Guard alg s → P s → P (a.apply alg s))
    {k' : Kernel} {s : Sched} (h : Settled alg k s) (hp : P s) {ts : List Trap}
    (hrun : k.run alg ts = some k') : ∃ s', Settled alg k' s' ∧ P s' := by
  induction ts generalizing k s with
  | nil => exact ⟨s, Option.some.inj hrun ▸ h, hp⟩
  | cons t ts ih =>
      obtain ⟨k₁, hstep, hrest⟩ := Option.bind_eq_some_iff.mp hrun
      obtain ⟨as, s₁, hexec, h₁⟩ := step_exec h hstep
      exact ih h₁ (hexec.exec.preserves haction h.inv hp).2 hrest

/-- A run leads to a reachable state. -/
theorem reachable_run {k' : Kernel} {ts : List Trap} (hk : Reachable alg k)
    (hrun : k.run alg ts = some k') : Reachable alg k' := by
  induction ts generalizing k with
  | nil => exact Option.some.inj hrun ▸ hk
  | cons t ts ih =>
      obtain ⟨k₁, hstep, hrest⟩ := Option.bind_eq_some_iff.mp hrun
      exact ih (.step t hk hstep) hrest

theorem reachable_settled (hk : Reachable alg k) : ∃ s, Settled alg k s := by
  obtain ⟨s, hs, -⟩ := reachable_of_actions (P := fun _ => True) trivial
    (fun _ _ _ _ _ => trivial) hk
  exact ⟨s, hs⟩

/-- The states in which a selection function starts. -/
theorem atPick_refines (hk : AtPick alg k) : ∃ s, Refines k s ∧ s.Inv alg := by
  cases hk with
  | reachable hk =>
      obtain ⟨s, hs⟩ := reachable_settled hk
      exact ⟨s, hs.refines, hs.inv⟩
  | scheduling t hk hr =>
      obtain ⟨s, hs⟩ := reachable_settled hk
      obtain ⟨as, s₁, hcode⟩ := enter_code hs.refines hs.inv hs.running hr
      exact ⟨s₁, hcode.refines, hs.inv.exec hcode.exec⟩

end Runs

end DemoOS
