import DemoOS.Proofs.Scheduler.AgingSelection
import DemoOS.Proofs.Scheduler.Epochs
import DemoOS.Proofs.Scheduler.PreemptionCount

/-!
# `DemoOS.Proofs.Scheduler.AgingBonus`: the bonus of a blocked process is capped

At the end of an epoch every counter becomes `counter / 2 + priority`. The map has the fixed
point `2 * priority`, so a counter that is below twice the largest priority stays below it,
however often the epochs end and whatever priority comes in between (`recharge_lt`). The 10 that
a new process starts with need not be below it, and `recharge_le` covers them.

`AgingRun` is a run with its history: the largest priority that each process has had, and the
processes that have been blocked since they gave up the CPU.

* `agingRun_capped`: the cap, in every state of such a run and in every state in which a
  selection function walks the queue.
* `agingRun_fits`: where no `copy_process` fails, no counter leaves the range of a `long`. A
  failing `copy_process` never enables preemption again, and ticks then lower the counter without
  an end (`forkFails_overflows`).
* `agingBonus_capped`: both.
-/

set_option autoImplicit false

namespace DemoOS

open Kernel Support

/-! ### Runs with their history -/

/-- The value argument of `set_sched_param` is a C `int`. -/
def Trap.HasInt : Trap → Prop
  | .setSchedParam _ _ value => -2 ^ 31 ≤ value ∧ value < 2 ^ 31
  | _ => True

/-- The value is in the range of a C `long`. -/
def IsLong (v : Int) : Prop := -2 ^ 63 ≤ v ∧ v < 2 ^ 63

namespace Kernel

/-- The process waits, is stopped or has ended. -/
def IsBlocked (k : Kernel) (p : PcbPtr) : Prop := (k.pcb p).state.isOff = true

/-- The largest priorities, once those of the state `k` count as well. -/
def raised (k : Kernel) (largest : PcbPtr → Int) (p : PcbPtr) : Int :=
  if k.IsProcess p then max (largest p) (k.pcb p).priority else largest p

/-- Runs under priority aging whose steps are all `ok`, with the largest priority that every
process has had, and the processes that have been blocked since their last call of the
scheduler. -/
inductive AgingRun (ok : Kernel → Trap → Prop) :
    Kernel → (PcbPtr → Int) → (PcbPtr → Prop) → Prop
  | boot (timerClo : Nat → BitVec 32) :
      AgingRun ok (boot timerClo) ((boot timerClo).raised fun _ => 0) fun _ => False
  | step {k k₁ k' : Kernel} {largest : PcbPtr → Int} {resting : PcbPtr → Prop} {c : Control}
      (t : Trap) : AgingRun ok k largest resting → ok k t →
      k.enter .priorityAging t = some (k₁, c) → k.step .priorityAging t = some k' →
      AgingRun ok k' (k₁.raised largest) fun p =>
        k'.IsBlocked p ∧ (resting p ∨ p = k.currentProcess ∧ c = .schedules)

/-- The walk of the queue that starts in `k₁` ends in `k₂` with nobody found, although the queue
is not empty: the epoch is over. -/
def EpochEnds (k₁ k₂ : Kernel) : Prop :=
  (∃ previous, agingWalk .priorityAging N_PROCESSES k₁ (k₁.queues .readyQueue).head none none
    none 0 = some (k₂, none, previous)) ∧ (k₂.queues .readyQueue).head ≠ none

/-- The states in which the selection function that is called in `k` starts to walk the queue:
after its opening, and after every recharge. -/
inductive WalkStart (k : Kernel) : Kernel → Prop
  | first : WalkStart k (k.requeueOutgoing fun k p => k.enqueueProcessTo .readyQueue p)
  | again {k₁ k₂ : Kernel} : WalkStart k k₁ → EpochEnds k₁ k₂ → WalkStart k k₂.rechargeAll

/-- Every counter is at most 10 or twice the largest priority, and those of the processes in
`resting` are below the latter. -/
def Capped (k : Kernel) (largest : PcbPtr → Int) (resting : PcbPtr → Prop) : Prop :=
  ∀ p, k.IsProcess p → (k.pcb p).priority ≤ largest p
    ∧ (k.pcb p).counter ≤ max 10 (2 * largest p)
    ∧ (resting p → (k.pcb p).counter < 2 * largest p)

/-- No `copy_process` fails in the trap, and the argument of `set_sched_param` is an `int`. -/
def Orderly (k : Kernel) (t : Trap) : Prop := k.Copies .priorityAging t ∧ t.HasInt

/-- No computation of a counter in the next step overflows: neither that of a tick nor that of a
recharge, with its shift and its sum. -/
structure CountersFit (k : Kernel) : Prop where
  tick : IsLong (k.current.counter - 1)
  recharge : ∀ t k₁, k.Orderly t → k.enter .priorityAging t = some (k₁, .schedules) →
    ∀ k₂ k₃, k₁.WalkStart k₂ → EpochEnds k₂ k₃ → ∀ p, k₃.IsProcess p →
      IsLong ((k₃.pcb p).counter >>> (1 : Nat))
      ∧ IsLong (((k₃.pcb p).counter >>> (1 : Nat)) + (k₃.pcb p).priority)

end Kernel

/-! ### The recurrence -/

section Recurrence
variable {c priority largest : Int}

/-- Halving a counter drops a bit. -/
theorem shiftRight_one (c : Int) : c >>> (1 : Nat) = c / 2 := by
  rw [Int.shiftRight_eq_div_pow]
  rfl

/-- A counter below twice the largest priority stays below it. -/
theorem recharge_lt (hpriority : priority ≤ largest) (hc : c < 2 * largest) :
    (c >>> (1 : Nat)) + priority < 2 * largest := by
  rw [shiftRight_one]
  omega

/-- A counter that is at most 10 or twice the largest priority stays so. -/
theorem recharge_le (hpriority : priority ≤ largest) (hc : c ≤ max 10 (2 * largest)) :
    (c >>> (1 : Nat)) + priority ≤ max 10 (2 * largest) := by
  rw [shiftRight_one]
  omega

end Recurrence

/-! ### The cap on the abstract state -/

/-- `Kernel.Capped` on the abstract state. -/
def Sched.Capped (s : Sched) (largest : PcbPtr → Int) (resting : PcbPtr → Prop) : Prop :=
  ∀ p, s.Registered p → (s.block p).priority ≤ largest p
    ∧ (s.block p).counter ≤ max 10 (2 * largest p)
    ∧ (resting p → (s.block p).counter < 2 * largest p)

section Abstract
variable {alg : SchedAlgorithm} {k : Kernel} {s s' : Sched} {largest : PcbPtr → Int}
  {resting : PcbPtr → Prop}

theorem Refines.counter_eq (h : Refines k s) (p : PcbPtr) :
    (s.block p).counter = (k.pcb p).counter := by
  rw [h.block_eq]
  rfl

theorem Refines.priority_eq (h : Refines k s) (p : PcbPtr) :
    (s.block p).priority = (k.pcb p).priority := by
  rw [h.block_eq]
  rfl

/-- The cap is a fact about the blocks that the abstract state keeps. -/
theorem Refines.capped_iff (h : Refines k s) :
    k.Capped largest resting ↔ s.Capped largest resting := by
  unfold Kernel.Capped Sched.Capped
  simp only [h.isProcess_iff, h.counter_eq, h.priority_eq]

/-- Changes that keep the table, the counters and the priorities. -/
theorem Sched.Capped.congr (h : s.Capped largest resting)
    (hregistered : ∀ p, s'.Registered p ↔ s.Registered p)
    (hcounter : ∀ p, (s'.block p).counter = (s.block p).counter)
    (hpriority : ∀ p, (s'.block p).priority = (s.block p).priority) :
    s'.Capped largest resting := by
  intro p hp
  rw [hcounter, hpriority]
  exact h p ((hregistered p).mp hp)

/-- A recharge keeps the cap. -/
theorem Sched.Capped.recharge (h : s.Capped largest resting) :
    (Action.recharge.apply alg s).Capped largest resting := by
  intro p hp
  have hregistered : s.Registered p := hp
  obtain ⟨hpriority, hle, hlt⟩ := h p hregistered
  have hcounter : ((Action.recharge.apply alg s).block p).counter
      = ((s.block p).counter >>> (1 : Nat)) + (s.block p).priority := recharge_counter hregistered
  have hsame : ((Action.recharge.apply alg s).block p).priority = (s.block p).priority := by
    simp only [Action.apply, if_pos hregistered]
    rfl
  rw [hcounter, hsame]
  exact ⟨hpriority, recharge_le hpriority hle, fun hp => recharge_lt hpriority (hlt hp)⟩

/-- The actions of a search keep the cap. -/
theorem Sched.Capped.select (h : s.Capped largest resting) {a : Action} (ha : a.Selects) :
    (a.apply alg s).Capped largest resting := by
  cases a with
  | drop p =>
      refine h.congr (fun _ => Iff.rfl) (fun r => ?_) fun r => ?_
      · exact Sched.modify_field PCB.counter (handled_counter _) r
      · exact Sched.modify_field PCB.priority (PCB.handled_field PCB.priority
          (fun _ _ _ => rfl) _) r
  | edit p e =>
      cases e with
      | clearResume =>
          exact h.congr (fun _ => Iff.rfl) (Sched.modify_field PCB.counter rfl)
            (Sched.modify_field PCB.priority rfl)
      | _ => exact absurd ha id
  | recharge => exact h.recharge
  | _ => exact absurd ha id

end Abstract

/-! ### Counters in the code of a trap -/

/-- What the code of a trap does to the counter of a process between `s` and `t`. -/
inductive Sched.Counted (s t : Sched) (p : PcbPtr) : Prop
  | kept : s.Registered p → (t.block p).counter = (s.block p).counter → Counted s t p
  /-- A tick, or the end of a slice. -/
  | charged : s.Registered p → p = s.currentProcess →
      (t.block p).counter ≤ max 0 (s.block p).counter → Counted s t p
  /-- A new process starts with 10. -/
  | created : ¬ s.Registered p → (t.block p).counter = 10 → Counted s t p

section Code
variable {alg : SchedAlgorithm} {s t : Sched} {as : List Action} {p : PcbPtr}

/-- One action more, by the same process. -/
theorem Sched.Counted.trans {u : Sched} (h : s.Counted t p) (h' : t.Counted u p)
    (hcurrent : t.currentProcess = s.currentProcess) (hinv : s.Inv alg) (ht : t.Registered p) :
    s.Counted u p := by
  cases h' with
  | kept _ hsame =>
      cases h with
      | kept hs he => exact .kept hs (hsame.trans he)
      | charged hs hp hle => exact .charged hs hp (hsame ▸ hle)
      | created hs he => exact .created hs (hsame.trans he)
  | charged _ hp hle =>
      rw [hcurrent] at hp
      cases h with
      | kept hs he => exact .charged hs hp (he ▸ hle)
      | charged hs _ hle' =>
          refine .charged hs hp ?_
          omega
      | created hs _ => exact absurd (hp ▸ hinv.cpu.current) hs
  | created hnew _ => exact absurd ht hnew

/-- The table after an action of code holds the old processes and at most one new one. -/
theorem Sched.counted_apply {a : Action} (hg : a.Guard alg t) (ha : a.IsCode)
    (hp : (a.apply alg t).Registered p) : t.Counted (a.apply alg t) p := by
  cases a with
  | edit r e =>
      have hregistered : t.Registered p := hp
      by_cases hpr : p = r
      · subst hpr
        have hblock : ((t.modify p e.apply).block p) = e.apply (t.block p) :=
          Sched.modify_block_self
        cases e with
        | touch f keeps =>
            refine .kept hregistered ?_
            show ((t.modify p _).block p).counter = _
            rw [hblock]
            exact Sched.core_counter (keeps _)
        | charge =>
            refine .charged hregistered hg ?_
            show ((t.modify p _).block p).counter ≤ _
            rw [hblock]
            show (t.block p).counter - 1 ≤ max 0 (t.block p).counter
            omega
        | expire =>
            refine .charged hregistered hg ?_
            show ((t.modify p _).block p).counter ≤ _
            rw [hblock]
            exact Int.le_max_left 0 _
        | _ => exact .kept hregistered ((congrArg PCB.counter hblock).trans rfl)
      · exact .kept hregistered (congrArg PCB.counter (Sched.modify_block_of_ne hpr))
  | leave st =>
      exact .kept hp (Sched.setState_field (s := t) PCB.counter (fun _ _ => rfl) st p)
  | wake r => exact .kept hp (Sched.enqueue_field alg PCB.counter (fun _ _ => rfl) p)
  | setLevel | promote | resetLevels | own | note => exact .kept hp rfl
  | clear r =>
      have hpr : p ≠ r := fun he => hg (he ▸ hp)
      have hblock : ((Action.clear r).apply alg t).block p = t.block p :=
        Sched.modify_block_of_ne (s := t) (f := fun _ => .zeroed) hpr
      exact .kept hp (congrArg PCB.counter hblock)
  | register r cloneFlags mm =>
      have hfield : (((Action.register r cloneFlags mm).apply alg t).block p).counter
          = if p = r then 10 else (t.block p).counter := by
        refine (Sched.enqueue_field alg PCB.counter (fun _ _ => rfl) p).trans ?_
        split
        · next hpr =>
            rw [hpr]
            exact congrArg PCB.counter (Function.update_self r _ t.block)
        · next hpr => rw [Sched.addToTable_block_of_ne hpr]
      by_cases hpr : p = r
      · rw [if_pos hpr] at hfield
        exact .created (hpr ▸ hg.1) hfield
      · rw [if_neg hpr] at hfield
        refine .kept ?_ hfield
        -- Any other process was in the table before.
        obtain ⟨i, hi, hslot⟩ := hp
        refine ⟨i, hi, ?_⟩
        have hadded : Function.update t.processes t.nProcesses (some r) i = some p := hslot
        by_cases hin : i = t.nProcesses
        · rw [hin, Function.update_self] at hadded
          exact absurd (Option.some.inj hadded).symm hpr
        · rwa [Function.update_of_ne hin] at hadded
  | requeue | drop | recharge | dispatch => exact absurd ha id

/-- The counters after the code of a trap. -/
theorem Exec.counted (h : Exec alg s as t) (hcode : ∀ a ∈ as, a.IsCode) (hinv : s.Inv alg) :
    t.currentProcess = s.currentProcess ∧ (∀ p, s.Registered p → t.Registered p)
      ∧ ∀ p, t.Registered p → s.Counted t p := by
  have hall := h.invariant (A := Action.IsCode)
    (P := fun t => t.Inv alg ∧ t.currentProcess = s.currentProcess
      ∧ (∀ p, s.Registered p → t.Registered p) ∧ ∀ p, t.Registered p → s.Counted t p)
    ?_ hcode ⟨hinv, rfl, fun _ hp => hp, fun p hp => .kept hp rfl⟩
  · exact hall.2
  · intro t a ha hg ⟨htinv, hcurrent, hregistered, hcounted⟩
    have hcurrent' : (a.apply alg t).currentProcess = t.currentProcess := by
      cases a with
      | requeue | drop | recharge | dispatch => exact absurd ha id
      | _ => rfl
    refine ⟨htinv.apply hg, hcurrent'.trans hcurrent,
      fun p hp => htinv.registered_apply hg (hregistered p hp), fun p hp => ?_⟩
    have hone := Sched.counted_apply hg ha hp
    by_cases ht : t.Registered p
    · exact (hcounted p ht).trans hone hcurrent hinv ht
    · cases hone with
      | kept hold _ | charged hold _ _ => exact absurd hold ht
      | created _ he => exact .created (fun hs => ht (hregistered p hs)) he

end Code

/-! ### The walks of a selection function -/

/-- What a selection function keeps while it walks the queue. -/
structure Sched.Aging (s : Sched) (largest : PcbPtr → Int) (resting : PcbPtr → Prop) : Prop where
  inv : s.Inv .priorityAging
  capped : s.Capped largest resting
  epochs : s.Epochs none

section Walks
variable {k k₁ k₂ : Kernel} {s s₁ : Sched} {as : List Action} {largest : PcbPtr → Int}
  {resting : PcbPtr → Prop}

/-- A search keeps it. -/
theorem Sched.Aging.exec (h : s.Aging largest resting) (hexec : Exec .priorityAging s as s₁)
    (has : ∀ a ∈ as, a.Selects) : s₁.Aging largest resting :=
  hexec.invariant (A := Action.Selects) (P := fun s => s.Aging largest resting)
    (fun _ _ ha hg h => ⟨h.inv.apply hg, h.capped.select ha, h.epochs.select h.inv hg ha⟩) has h

/-- The opening of a selection function writes no counter and no priority. -/
theorem Sched.Aging.requeued (h : s.Aging largest resting) :
    (s.requeued .priorityAging).Aging largest resting where
  inv := inv_requeued h.inv
  capped := by
    have hprocesses : (s.requeued .priorityAging).processes = s.processes := by
      simp only [Sched.requeued]
      split <;> rfl
    exact h.capped.congr (fun _ => Sched.registered_congr hprocesses)
      (Sched.requeued_field PCB.counter (fun _ _ => rfl) fun _ => rfl)
      (Sched.requeued_field PCB.priority (fun _ _ => rfl) fun _ => rfl)
  epochs := h.epochs.requeued h.inv

/-- The end of an epoch comes after a walk. -/
theorem epochEnds_refines (hends : EpochEnds k₁ k₂) (hk : Refines k₁ s)
    (h : s.Aging largest resting) :
    ∃ s₂, Refines k₂ s₂ ∧ s₂.Aging largest resting
      ∧ ∀ p ∈ s₂.queue .readyQueue, (s₂.block p).counter ≤ 0 := by
  obtain ⟨⟨previous, hwalk⟩, -⟩ := hends
  obtain ⟨k', as, s₂, best, previous', m, hrun, hexec, hselects, hk', -, -, -, -, hbest⟩ :=
    agingWalk_search hk h.inv (w := []) rfl (Nat.le_of_lt (h.inv.length_lt .readyQueue)) (.start _)
  rw [(hk.linked.queue .readyQueue).head_eq] at hwalk
  have hsame := Option.some.inj (hrun.symm.trans hwalk)
  obtain ⟨rfl, hrest⟩ := Prod.mk.inj hsame
  obtain ⟨rfl, -⟩ := Prod.mk.inj hrest
  exact ⟨s₂, hk', h.exec hexec hselects, hbest.2.2⟩

/-- Every walk of the queue starts within the cap. -/
theorem walkStart_refines (hstart : k.WalkStart k₁) (hk : Refines k s)
    (h : s.Aging largest resting) : ∃ s₁, Refines k₁ s₁ ∧ s₁.Aging largest resting := by
  induction hstart with
  | first => exact ⟨_, requeueOutgoing_refines hk h.inv rfl, h.requeued⟩
  | again _ hends ih =>
      obtain ⟨s₁, hk₁, h₁⟩ := ih
      obtain ⟨s₂, hk₂, h₂, hle⟩ := epochEnds_refines hends hk₁ h₁
      exact ⟨_, rechargeAll_refines hk₂ h₂.inv,
        ⟨h₂.inv.recharge, h₂.capped.recharge, h₂.epochs.recharge h₂.inv hle⟩⟩

/-- A selection ends within the cap. -/
theorem pickAging_capped (hk : Refines k s) (h : s.Aging largest resting)
    (hpick : SchedAlgorithm.priorityAging.pickNext k = some k₁) :
    k₁.Capped largest resting ∧ 0 ≤ k₁.current.counter := by
  have hk₀ : Refines (k.requeueOutgoing fun k p => k.enqueueProcessTo .readyQueue p)
      (s.requeued .priorityAging) := requeueOutgoing_refines hk h.inv rfl
  obtain ⟨hlinkedIn, -⟩ := requeueOutgoing_reads hk h.inv
  obtain ⟨k', as, s₁, next, hrun, hsearch, -⟩ := agingLoop_search hk₀ h.requeued.inv
    (agingFuel_rounds hk₀ (congrFun hlinkedIn .readyQueue)) (by unfold agingFuel; omega)
  have h₁ := h.requeued.exec hsearch.exec hsearch.selects
  have hfinal : k₁ = k'.dispatch next := by
    have hdispatch : SchedAlgorithm.priorityAging.pickNext k = some (k'.dispatch next) :=
      (congrArg (· >>= _) hrun).trans rfl
    exact Option.some.inj (hpick.symm.trans hdispatch)
  -- Whether or not the search cut a process out of the queue, the blocks are those of `s₁`.
  obtain ⟨s', hk', hblock, hprocesses⟩ :
      ∃ s', Refines k' s' ∧ s'.block = s₁.block ∧ s'.processes = s₁.processes := by
    cases next with
    | none => exact ⟨s₁, hsearch.nobody rfl, rfl, rfl⟩
    | some p => exact ⟨s₁.unlink p, (hsearch.found p rfl).2.2, rfl, rfl⟩
  have hregistered : s₁.Registered (next.getD .initProcess) := by
    cases next with
    | none => exact h₁.inv.table.registered_init
    | some p => exact (h₁.inv.linked_registered (hsearch.found p rfl).1).1
  have hk₁ : Refines (k'.dispatch next) ((s'.switchTo (next.getD .initProcess)).modify
      (next.getD .initProcess) (Edit.preempt (-1)).apply) := dispatch_refines hk'
  have hfield : ∀ {β : Type} (φ : PCB → β), (∀ b st, φ (PCB.withState b st) = φ b) →
      (∀ b, φ ((Edit.preempt (-1)).apply b) = φ b) → ∀ r,
        φ (((s'.switchTo (next.getD .initProcess)).modify (next.getD .initProcess)
          (Edit.preempt (-1)).apply).block r) = φ (s₁.block r) := by
    intro β φ hstate hpreempt r
    rw [Sched.modify_field φ (hpreempt _), Sched.switchTo_field φ hstate, hblock]
  have hcounter := hfield PCB.counter (fun _ _ => rfl) fun _ => rfl
  rw [hfinal]
  refine ⟨hk₁.capped_iff.mpr (h₁.capped.congr (fun r => ?_) hcounter
    (hfield PCB.priority (fun _ _ => rfl) fun _ => rfl)), ?_⟩
  · exact Sched.registered_congr (Sched.switchTo_processes.trans hprocesses)
  · rw [current, dispatch_currentProcess, ← hk₁.counter_eq, hcounter]
    exact h₁.epochs.counters _ hregistered (fun h => by cases h)

end Walks

/-! ### Steps -/

section Steps
variable {k k₁ k' : Kernel} {s : Sched} {t : Trap} {c : Control} {largest : PcbPtr → Int}
  {resting : PcbPtr → Prop}

/-- The largest priorities are those of the state at least. -/
theorem priority_le_raised (largest : PcbPtr → Int) {p : PcbPtr} (hp : k.IsProcess p) :
    (k.pcb p).priority ≤ k.raised largest p ∧ largest p ≤ k.raised largest p := by
  rw [raised, if_pos hp]
  omega

/-- A blocked process does not own the CPU. -/
theorem Settled.not_blocked_current {alg : SchedAlgorithm} (h : Settled alg k s) :
    ¬ k.IsBlocked k.currentProcess := by
  unfold Kernel.IsBlocked
  rw [h.refines.state_eq, h.refines.currentProcess]
  by_cases hinit : s.currentProcess = .initProcess
  · rw [hinit]
    rcases h.inv.cpu.initState with hst | hst | hst <;> rw [hst] <;> decide
  · rw [h.running hinit]
    decide

/-- What holds between the steps of a run with its history. -/
structure Kernel.Bonus (k : Kernel) (s : Sched) (largest : PcbPtr → Int)
    (resting : PcbPtr → Prop) : Prop where
  settled : Settled .priorityAging k s
  epochs : s.Epochs (some s.currentProcess)
  capped : k.Capped largest resting
  blocked : ∀ p, resting p → k.IsProcess p ∧ k.IsBlocked p

/-- The code of a trap keeps the cap. Where it calls the scheduler, it has reset the counter of
the process that gives up the CPU. -/
theorem enter_bonus (h : k.Bonus s largest resting)
    (henter : k.enter .priorityAging t = some (k₁, c)) :
    ∃ s₁, Refines k₁ s₁ ∧ s₁.Inv .priorityAging
      ∧ s₁.Capped (k₁.raised largest) (fun p => resting p ∨ p = k.currentProcess ∧ c = .schedules)
      ∧ (c = .schedules → s₁.Epochs none) ∧ ∀ p, k.IsProcess p → k₁.IsProcess p := by
  have hinv := h.settled.inv
  obtain ⟨as, s₁, hcode⟩ := enter_code h.settled.refines hinv h.settled.running henter
  have hk₁ : Refines k₁ s₁ := hcode.refines
  have hall : ∀ a ∈ as, a.IsCode := by
    cases c with
    | returns => exact fun a ha => (hcode.returns rfl a ha).isCode
    | schedules => exact fun a ha => ((hcode.schedules rfl).1 a ha).1
  obtain ⟨hcurrent, hgrown, hcounted⟩ := hcode.exec.counted hall hinv
  have hinv₁ := hinv.exec hcode.exec
  have hcurrent' : k.currentProcess = s.currentProcess := h.settled.refines.currentProcess
  have hcapped := h.settled.refines.capped_iff.mp h.capped
  refine ⟨s₁, hk₁, hinv₁, fun p hp => ?_, fun hc => ?_, fun p hp => ?_⟩
  · have hprocess := hk₁.isProcess_iff.mpr hp
    obtain ⟨hpriority, hlargest⟩ := priority_le_raised largest hprocess
    rw [← hk₁.priority_eq] at hpriority
    have hpos := hinv₁.points.priority hp
    refine ⟨hpriority, ?_, fun hresting => ?_⟩
    · cases hcounted p hp with
      | kept hs he | charged hs _ he =>
          have hle := (hcapped p hs).2.1
          omega
      | created _ he => omega
    · rcases hresting with hresting | ⟨rfl, rfl⟩
      · -- A process that was blocked before the step is not touched by its code.
        obtain ⟨hprocess, hblocked⟩ := h.blocked p hresting
        have hs := h.settled.refines.isProcess_iff.mp hprocess
        have hlt := (hcapped p hs).2.2 hresting
        cases hcounted p hp with
        | kept _ he => omega
        | charged _ hcur _ =>
            rw [hcur, ← hcurrent'] at hblocked
            exact absurd hblocked h.settled.not_blocked_current
        | created hnew _ => exact absurd hs hnew
      · have hzero := (hcode.schedules rfl).2
        rw [hcurrent, ← hcurrent'] at hzero
        omega
  · subst hc
    have hepochs : s₁.Inv .priorityAging ∧ s₁.Epochs (some s₁.currentProcess) :=
      hcode.exec.invariant (A := Action.IsCode)
        (P := fun s => s.Inv .priorityAging ∧ s.Epochs (some s.currentProcess))
        (fun s a ha hg ⟨hi, he⟩ => ⟨hi.apply hg, he.apply hi hg ha⟩) hall ⟨hinv, h.epochs⟩
    refine hepochs.2.settle fun p hp => ?_
    rw [← Option.some.inj hp]
    exact (hcode.schedules rfl).2
  · exact hk₁.isProcess_iff.mpr (hgrown p (h.settled.refines.isProcess_iff.mp hp))

/-- The walks of the next step stay within the cap. -/
theorem Kernel.Bonus.walks (h : k.Bonus s largest resting)
    (henter : k.enter .priorityAging t = some (k₁, .schedules)) :
    ∃ s₁, Refines k₁ s₁ ∧ s₁.Aging (k₁.raised largest)
      fun p => resting p ∨ p = k.currentProcess := by
  obtain ⟨s₁, hk₁, hinv₁, hcapped₁, hepochs₁, -⟩ := enter_bonus h henter
  simp only [and_true] at hcapped₁
  exact ⟨s₁, hk₁, hinv₁, hcapped₁, hepochs₁ rfl⟩

/-- A step keeps the invariant. -/
theorem step_bonus (h : k.Bonus s largest resting)
    (henter : k.enter .priorityAging t = some (k₁, c))
    (hstep : k.step .priorityAging t = some k') :
    ∃ s', k'.Bonus s' (k₁.raised largest) fun p =>
      k'.IsBlocked p ∧ (resting p ∨ p = k.currentProcess ∧ c = .schedules) := by
  obtain ⟨s₁, hk₁, hinv₁, hcapped₁, hepochs₁, hgrown⟩ := enter_bonus h henter
  obtain ⟨as, s', hexec, hs'⟩ := step_exec h.settled hstep
  have hepochs' := hexec.epochs h.settled.inv h.epochs
  have hprocess : ∀ p, (resting p ∨ p = k.currentProcess ∧ c = .schedules) → k₁.IsProcess p := by
    rintro p (hp | ⟨rfl, -⟩)
    · exact hgrown p (h.blocked p hp).1
    · refine hgrown _ (h.settled.refines.isProcess_iff.mpr ?_)
      rw [h.settled.refines.currentProcess]
      exact h.settled.inv.cpu.current
  unfold Kernel.step at hstep
  rw [henter] at hstep
  cases c with
  | returns =>
      obtain rfl := Option.some.inj hstep
      refine ⟨s', hs', hepochs', fun p hp => ?_, fun p hp => ⟨hprocess p hp.2, hp.1⟩⟩
      obtain ⟨hpriority, hle, hlt⟩ := hk₁.capped_iff.mpr hcapped₁ p hp
      exact ⟨hpriority, hle, fun hresting => hlt hresting.2⟩
  | schedules =>
      have hpicked := (pickAging_capped hk₁ ⟨hinv₁, hcapped₁, hepochs₁ rfl⟩ hstep).1
      have hsame := (Scheduled.pickNext hstep).isProcess
      refine ⟨s', hs', hepochs', fun p hp => ?_, fun p hp => ⟨?_, hp.1⟩⟩
      · obtain ⟨hpriority, hle, hlt⟩ := hpicked p hp
        exact ⟨hpriority, hle, fun hresting => hlt hresting.2⟩
      · exact (hsame p).mpr (hprocess p hp.2)

/-- Every run with its history. -/
theorem agingRun_bonus {ok : Kernel → Trap → Prop} (h : AgingRun ok k largest resting) :
    ∃ s, k.Bonus s largest resting := by
  induction h with
  | boot timerClo =>
      refine ⟨_, settled_boot .priorityAging timerClo, epochs_boot, fun p hp => ?_, fun _ hp =>
        absurd hp id⟩
      obtain ⟨hpriority, -⟩ := priority_le_raised (fun _ => 0) hp
      have hs := (settled_boot .priorityAging timerClo).refines
      have hinit : p = .initProcess := Sched.registered_boot.mp (hs.isProcess_iff.mp hp)
      subst hinit
      have hcounter : ((Kernel.boot timerClo).pcb .initProcess).counter = 1 := rfl
      exact ⟨hpriority, by omega, fun hresting => absurd hresting id⟩
  | step t _ _ henter hstep ih =>
      obtain ⟨s, hs⟩ := ih
      exact step_bonus hs henter hstep

end Steps

/-! ### Priorities are C ints -/

/-- Every block has a priority in the range of an `int`. -/
def Kernel.IntPriorities (k : Kernel) : Prop := ∀ p, (k.pcb p).priority < 2 ^ 31

section Priorities
variable {alg : SchedAlgorithm} {k k' k₁ : Kernel} {t : Trap} {c : Control}

namespace Kernel

theorem IntPriorities.modifyPcb (h : k.IntPriorities) {p : PcbPtr} {f : PCB → PCB}
    (hf : (f (k.pcb p)).priority < 2 ^ 31) : (k.modifyPcb p f).IntPriorities := by
  intro r
  rw [modifyPcb_pcb]
  split
  · exact hf
  · exact h r

/-- Scheduling writes no priority. -/
theorem Scheduled.priorities (h : Scheduled k k') (hk : k.IntPriorities) : k'.IntPriorities := by
  intro p
  have hsame : (k'.pcb p).fixed.priority = (k.pcb p).fixed.priority :=
    congrArg PCB.priority (h.block p).fixed
  show (k'.pcb p).fixed.priority < 2 ^ 31
  rw [hsame]
  exact hk p

theorem priorities_keptByCode (alg : SchedAlgorithm) :
    KeptByCode alg fun k k' => k.IntPriorities → k'.IntPriorities where
  refl _ := id
  trans h h' hk := h' (h hk)
  block k p f hf hk := hk.modifyPcb (by rw [hf.priority]; exact hk p)
  devices _ _ _ _ _ _ hk := hk
  log _ _ _ hk := hk
  enqueue k p hk := (Scheduled.enqueueProcess alg k p).priorities hk
  disabled {k k'} h hk := (Scheduled.preemptEnable k').priorities
    (h ((Scheduled.preemptDisable k).priorities hk))

/-- A child has the priority of its parent. -/
theorem copyProcess_priorities (hk : k.IntPriorities) (cloneFlags : BitVec 64)
    (page : Option Nat) (mm : MmStruct) :
    (k.copyProcess alg cloneFlags page mm).1.IntPriorities := by
  have hdisabled := (Scheduled.preemptDisable k).priorities hk
  unfold copyProcess
  dsimp only
  split
  · exact hdisabled
  · next n =>
      have hcleared : (k.preemptDisable.modifyPcb (.page n) fun _ => .zeroed).IntPriorities :=
        hdisabled.modifyPcb (by decide)
      split
      · exact hcleared
      · have hfilled := hcleared.modifyPcb (p := .page n) (f := fun _ => childPcb
          (k.preemptDisable.modifyPcb (.page n) fun _ => .zeroed).current cloneFlags mm
          (k.preemptDisable.modifyPcb (.page n) fun _ => .zeroed).nProcesses) (hcleared _)
        split
        · exact hfilled
        · next k₁ hadded =>
            refine (Scheduled.preemptEnable k₁).priorities ?_
            unfold addProcessToScheduler at hadded
            dsimp only at hadded
            split at hadded
            · exact nomatch hadded
            · obtain rfl := Option.some.inj hadded
              split
              · exact (Scheduled.enqueueProcess alg _ _).priorities hfilled
              · exact hfilled

private theorem setQueuePriority_priorities (hk : k.IntPriorities) (p : PcbPtr) (value : Int)
    (level : Nat → Nat) :
    ({ k.preemptDisable.modifyPcb p (fun b => { b with queuePriority := value }) with
      queueLevel := level } : Kernel).preemptEnable.IntPriorities := by
  have hdisabled := (Scheduled.preemptDisable k).priorities hk
  have hset : (k.preemptDisable.modifyPcb p fun b =>
      { b with queuePriority := value }).IntPriorities := hdisabled.modifyPcb (hdisabled p)
  refine (Scheduled.preemptEnable _).priorities ?_
  exact hset

/-- `set_sched_param` with an `int`. -/
theorem schedSetParam_priorities (hk : k.IntPriorities) (p : PcbPtr) (param value : Int)
    (hvalue : value < 2 ^ 31) : (k.schedSetParam alg p param value).1.IntPriorities := by
  unfold schedSetParam
  split
  · exact hk
  · split
    · split
      · exact hk
      · exact hk.modifyPcb (f := fun b => { b with priority := value }) hvalue
    · split
      · split
        · exact hk
        · exact hk.modifyPcb (f := fun b => { b with tickets := value }) (hk p)
      · split
        · split
          · exact hk
          · exact setQueuePriority_priorities hk p _ _
        · exact hk

/-- The code of a trap whose arguments are in range. -/
theorem enter_priorities (ht : t.HasInt) (henter : k.enter alg t = some (k₁, c))
    (hk : k.IntPriorities) : k₁.IntPriorities := by
  have hR := priorities_keptByCode alg
  have hends : ∀ {r : Kernel × Control},
      Ends (fun k k' => k.IntPriorities → k'.IntPriorities) k r → r.1.IntPriorities := by
    intro r hr
    cases hr with
    | returns h => exact h hk
    | schedules h => exact (Scheduled.schedule _).priorities (h hk)
  cases t with
  | kernelMain page =>
      obtain ⟨-, hr⟩ := guarded henter
      obtain ⟨rfl, -⟩ := Prod.mk.inj hr
      exact hR.suspendAt _ .idle (copyProcess_priorities hk PF_KTHREAD page .empty)
  | fork page mm =>
      obtain ⟨-, hr⟩ := guarded henter
      obtain ⟨rfl, -⟩ := Prod.mk.inj hr
      exact hR.returnToUser _ _ (copyProcess_priorities hk 0 page mm)
  | setSchedParam pid param value =>
      obtain ⟨-, hr⟩ := guarded henter
      have hset : (k.syscallSetSchedParam alg pid param value).1.IntPriorities := by
        unfold syscallSetSchedParam
        split
        · exact hR.returnToUser k _ hk
        · next d _ => exact hR.returnToUser _ _ (schedSetParam_priorities hk d param value ht.2)
      rw [hr] at hset
      exact hset
  | timerTick => exact (Scheduled.handleTimerTick henter).priorities hk
  | _ => exact hends (hR.enter rfl henter)

end Kernel

end Priorities

/-! ### The range of the counters -/

section Range
variable {k k₁ k' : Kernel} {s : Sched} {t : Trap} {c : Control} {largest : PcbPtr → Int}
  {resting : PcbPtr → Prop}

/-- The runs in which no `copy_process` fails are runs. -/
theorem agingRun_forks (h : AgingRun Kernel.Orderly k largest resting) :
    Forks .priorityAging k := by
  induction h with
  | boot timerClo => exact .boot timerClo
  | step t _ hok _ hstep ih => exact .step t ih hok.1 hstep

/-- Code that returns leaves the current process its counter, except for a tick. -/
theorem enter_counter (h : Settled .priorityAging k s) (htick : t ≠ .timerTick)
    (henter : k.enter .priorityAging t = some (k₁, .returns)) :
    k₁.current.counter = k.current.counter := by
  have hsame := SameBudgets.keptByCode .priorityAging
  cases hcopies : t.copies with
  | false =>
      have hcurrent : k₁.currentProcess = k.currentProcess := enter_currentProcess henter
      have hbudgets := (enter_budgets htick hcopies henter).related
      rw [current, hcurrent, hbudgets.counter, current]
  | true =>
      cases t with
      | kernelMain page =>
          obtain ⟨⟨-, -, hfresh⟩, hr⟩ := guarded henter
          obtain ⟨rfl, -⟩ := Prod.mk.inj hr
          have hparent := copyProcess_parent .priorityAging (h.page_ne_current hfresh)
            PF_KTHREAD .empty
          exact (hparent.trans (.of_same (hsame.suspendAt _ .idle))).counter
      | fork page mm =>
          obtain ⟨⟨-, hfresh⟩, hr⟩ := guarded henter
          obtain ⟨rfl, -⟩ := Prod.mk.inj hr
          have hparent := copyProcess_parent .priorityAging (h.page_ne_current hfresh) 0 mm
          exact (hparent.trans (.of_same (hsame.returnToUser _ _))).counter
      | _ => cases hcopies

/-- The counter of the process that owns the CPU does not become negative, because no tick finds
preemption disabled. -/
theorem step_counter (hk : Forks .priorityAging k) (h : k.Bonus s largest resting)
    (hcopies : k.Copies .priorityAging t) (hcounter : 0 ≤ k.current.counter)
    (henter : k.enter .priorityAging t = some (k₁, c))
    (hstep : k.step .priorityAging t = some k') : 0 ≤ k'.current.counter := by
  unfold Kernel.step at hstep
  rw [henter] at hstep
  cases c with
  | schedules =>
      obtain ⟨s₁, hk₁, h₁⟩ := h.walks henter
      exact (pickAging_capped hk₁ h₁ hstep).2
  | returns =>
      obtain rfl := Option.some.inj hstep
      by_cases htick : t = .timerTick
      · subst htick
        obtain ⟨-, -, -, hcharged, hschedules⟩ := handleTimerTick_budgets henter
        have henabled := (preemptionCount hk).1
        have hleft : ¬ k.current.counter ≤ 1 := fun hused =>
          nomatch hschedules.mpr ⟨rfl, hused, Int.le_of_eq henabled⟩
        rw [hcharged rfl rfl]
        omega
      · rw [enter_counter h.settled htick henter]
        exact hcounter

/-- What else holds where no `copy_process` fails. -/
theorem agingRun_orderly (h : AgingRun Kernel.Orderly k largest resting) :
    0 ≤ k.current.counter ∧ k.IntPriorities ∧ ∀ p, largest p < 2 ^ 31 := by
  have hraised : ∀ {k : Kernel} {largest : PcbPtr → Int}, k.IntPriorities →
      (∀ p, largest p < 2 ^ 31) → ∀ p, k.raised largest p < 2 ^ 31 := by
    intro k largest hk hlargest p
    have hpriority := hk p
    have hbefore := hlargest p
    unfold Kernel.raised
    split <;> omega
  induction h with
  | boot timerClo =>
      have hboot : (Kernel.boot timerClo).IntPriorities := by
        intro p
        show (if p = .initProcess then INIT_PROCESS else PCB.zeroed).priority < 2 ^ 31
        split <;> decide
      refine ⟨?_, hboot, hraised hboot fun _ => by decide⟩
      show (0 : Int) ≤ 1
      decide
  | step t hrun hok henter hstep ih =>
      obtain ⟨hcounter, hpriorities, hlargest⟩ := ih
      obtain ⟨s, hs⟩ := agingRun_bonus hrun
      have hentered := enter_priorities hok.2 henter hpriorities
      refine ⟨step_counter (agingRun_forks hrun) hs hok.1 hcounter henter hstep, ?_,
        hraised hentered hlargest⟩
      unfold Kernel.step at hstep
      rw [henter] at hstep
      split at hstep
      · exact nomatch hstep
      · next hsame =>
          obtain ⟨rfl, -⟩ := Prod.mk.inj (Option.some.inj hsame)
          obtain rfl := Option.some.inj hstep
          exact hentered
      · next hsame =>
          obtain ⟨rfl, -⟩ := Prod.mk.inj (Option.some.inj hsame)
          exact (Scheduled.pickNext hstep).priorities hentered

end Range

/-! ### The results -/

section Results
variable {k : Kernel} {largest : PcbPtr → Int} {resting : PcbPtr → Prop}

/-- The cap, between the steps of a run and wherever a selection function starts to walk the
queue. -/
theorem agingRun_capped {ok : Kernel → Trap → Prop} (h : AgingRun ok k largest resting) :
    k.Capped largest resting
      ∧ ∀ t k₁, k.enter .priorityAging t = some (k₁, .schedules) → ∀ k₂, k₁.WalkStart k₂ →
        k₂.Capped (k₁.raised largest) fun p => resting p ∨ p = k.currentProcess := by
  obtain ⟨s, hs⟩ := agingRun_bonus h
  refine ⟨hs.capped, fun t k₁ henter k₂ hstart => ?_⟩
  obtain ⟨s₁, hk₁, h₁⟩ := hs.walks henter
  obtain ⟨s₂, hk₂, h₂⟩ := walkStart_refines hstart hk₁ h₁
  exact hk₂.capped_iff.mpr h₂.capped

/-- Where no `copy_process` fails, no counter overflows. -/
theorem agingRun_fits (h : AgingRun Kernel.Orderly k largest resting) : k.CountersFit := by
  obtain ⟨s, hs⟩ := agingRun_bonus h
  obtain ⟨hcounter, hpriorities, hlargest⟩ := agingRun_orderly h
  have hcurrent : k.IsProcess k.currentProcess := by
    refine hs.settled.refines.isProcess_iff.mpr ?_
    rw [hs.settled.refines.currentProcess]
    exact hs.settled.inv.cpu.current
  refine ⟨?_, fun t k₁ ht henter k₂ k₃ hstart hends p hp => ?_⟩
  · have hle : k.current.counter ≤ max 10 (2 * largest k.currentProcess) :=
      (hs.capped _ hcurrent).2.1
    have hlt := hlargest k.currentProcess
    unfold IsLong
    omega
  · obtain ⟨s₁, hk₁, h₁⟩ := hs.walks henter
    obtain ⟨s₂, hk₂, h₂⟩ := walkStart_refines hstart hk₁ h₁
    obtain ⟨s₃, hk₃, h₃, -⟩ := epochEnds_refines hends hk₂ h₂
    have hreg := hk₃.isProcess_iff.mp hp
    obtain ⟨hpriority, hle, -⟩ := h₃.capped p hreg
    have hpos := h₃.inv.points.priority hreg
    have hnonneg := h₃.epochs.counters p hreg nofun
    have hlt : k₁.raised largest p < 2 ^ 31 := by
      have hentered := enter_priorities ht.2 henter hpriorities p
      have hbefore := hlargest p
      unfold Kernel.raised
      split <;> omega
    rw [← hk₃.counter_eq, ← hk₃.priority_eq, shiftRight_one]
    unfold IsLong
    omega

/-- The bonus is capped. In every run under priority aging, no counter exceeds 10 or twice the
largest priority of its process, and a process that has been blocked since it called the
scheduler has a counter below the latter, also in the middle of a selection and after any number
of epochs. In the runs in which no `copy_process` fails, no computation of a counter leaves the
range of a `long`. -/
theorem agingBonus_capped {ok : Kernel → Trap → Prop} (h : AgingRun ok k largest resting) :
    (k.Capped largest resting
      ∧ ∀ t k₁, k.enter .priorityAging t = some (k₁, .schedules) → ∀ k₂, k₁.WalkStart k₂ →
        k₂.Capped (k₁.raised largest) fun p => resting p ∨ p = k.currentProcess)
    ∧ (AgingRun Kernel.Orderly k largest resting → k.CountersFit) :=
  ⟨agingRun_capped h, agingRun_fits⟩

end Results

/-! ### Runs as lists of traps -/

section Lists
variable {k k' : Kernel} {largest : PcbPtr → Int} {resting : PcbPtr → Prop}
  {ok : Kernel → Trap → Prop} {ts : List Trap}

/-- A run in two parts. -/
theorem Kernel.run_append (alg : SchedAlgorithm) (k : Kernel) (ts us : List Trap) :
    k.run alg (ts ++ us) = (k.run alg ts).bind fun k => k.run alg us := by
  induction ts generalizing k with
  | nil => rfl
  | cons t ts ih =>
      show (k.step alg t).bind (fun k => k.run alg (ts ++ us)) = _
      simp only [ih]
      exact (Option.bind_assoc _ _ _).symm

/-- A list of traps continues a run with its history. -/
theorem agingRun_run (h : AgingRun ok k largest resting) (hts : ∀ t ∈ ts, ∀ k, ok k t)
    (hrun : k.run .priorityAging ts = some k') :
    ∃ largest' resting', AgingRun ok k' largest' resting' := by
  induction ts generalizing k largest resting with
  | nil => exact ⟨largest, resting, Option.some.inj hrun ▸ h⟩
  | cons t ts ih =>
      obtain ⟨k₂, hstep, hrest⟩ := Option.bind_eq_some_iff.mp hrun
      obtain ⟨⟨k₁, c⟩, henter⟩ : ∃ r, k.enter .priorityAging t = some r := by
        unfold Kernel.step at hstep
        split at hstep
        · exact nomatch hstep
        · next henter => exact ⟨_, henter⟩
        · next henter => exact ⟨_, henter⟩
      have hok := hts t List.mem_cons_self k
      have hrest' : ∀ t' ∈ ts, ∀ k, ok k t' := fun t' ht' => hts t' (List.mem_cons_of_mem t ht')
      exact ih (.step t h hok henter hstep) hrest' hrest

/-- The first process waits for a message, and init has the CPU again. -/
theorem agingBonus_capped_blocked :
    ∃ k largest resting, (Kernel.boot fun _ => 0).run .priorityAging
        [.kernelMain (some 0), .timerTick, .moveToUserMode .empty .zeroed, .receiveMessage] = some k
      ∧ k.Capped largest resting ∧ k.CountersFit := by
  have hrun : ((Kernel.boot fun _ => 0).run .priorityAging [.kernelMain (some 0), .timerTick,
      .moveToUserMode .empty .zeroed, .receiveMessage]).map (fun _ => ()) = some () := by
    decide +kernel
  obtain ⟨k, hk, -⟩ := Option.map_eq_some_iff.mp hrun
  obtain ⟨k₁, hstep, hrest⟩ := Option.bind_eq_some_iff.mp hk
  obtain ⟨⟨k₀, c⟩, henter⟩ : ∃ r, (Kernel.boot fun _ => 0).enter .priorityAging
      (.kernelMain (some 0)) = some r := ⟨_, rfl⟩
  have horderly : (Kernel.boot fun _ => 0).Orderly (.kernelMain (some 0)) :=
    ⟨by decide +kernel, trivial⟩
  have hts : ∀ t ∈ [Trap.timerTick, .moveToUserMode .empty .zeroed, .receiveMessage],
      ∀ k : Kernel, k.Orderly t := by
    intro t ht k
    simp only [List.mem_cons, List.not_mem_nil, or_false] at ht
    rcases ht with rfl | rfl | rfl <;> exact ⟨trivial, trivial⟩
  obtain ⟨largest, resting, h⟩ := agingRun_run (.step _ (.boot _) horderly henter hstep) hts hrest
  exact ⟨k, largest, resting, hk, (agingBonus_capped h).1.1, (agingBonus_capped h).2 h⟩

end Lists

/-! ### A failing `copy_process` -/

section Failing
variable {k k' : Kernel}

/-- A tick while preemption is disabled takes one from the counter, whatever it is. -/
theorem step_tick_disabled (hdisabled : 0 < k.current.preemptDisabled) :
    k.step .priorityAging .timerTick = some (k.modifyCurrent Edit.charge.apply) := by
  have hcurrent : (k.modifyCurrent Edit.charge.apply).current = Edit.charge.apply k.current :=
    modifyPcb_pcb_self k _ _
  have hstays : (k.modifyCurrent Edit.charge.apply).current.counter > 0
      ∨ (k.modifyCurrent Edit.charge.apply).current.preemptDisabled > 0 := by
    rw [hcurrent]
    exact Or.inr hdisabled
  have hticked : SchedAlgorithm.priorityAging.onTick (k.modifyCurrent Edit.charge.apply)
      = some (k.modifyCurrent Edit.charge.apply) := rfl
  have htick : k.enter .priorityAging .timerTick
      = some (k.modifyCurrent Edit.charge.apply, .returns) := by
    show k.handleTimerTick .priorityAging = _
    unfold handleTimerTick
    simp only [charge_eq, hticked, Option.bind_eq_bind, Option.bind_some, if_pos hstays]
    rfl
  unfold Kernel.step
  rw [htick]

/-- Any number of such ticks. -/
theorem run_ticks_disabled (hdisabled : 0 < k.current.preemptDisabled) (n : Nat) :
    ∃ k', k.run .priorityAging (List.replicate n .timerTick) = some k'
      ∧ k'.current.counter = k.current.counter - n := by
  induction n generalizing k with
  | zero => exact ⟨k, rfl, (Int.sub_zero _).symm⟩
  | succ n ih =>
      have hcurrent : (k.modifyCurrent Edit.charge.apply).current = Edit.charge.apply k.current :=
        modifyPcb_pcb_self k _ _
      have hnext : 0 < (k.modifyCurrent Edit.charge.apply).current.preemptDisabled := by
        rw [hcurrent]
        exact hdisabled
      obtain ⟨k', hrun, hcounter⟩ := ih hnext
      refine ⟨k', ?_, ?_⟩
      · rw [List.replicate_succ]
        show (k.step .priorityAging .timerTick).bind _ = some k'
        rw [step_tick_disabled hdisabled]
        exact hrun
      · rw [hcurrent] at hcounter
        have hcharged : (Edit.charge.apply k.current).counter = k.current.counter - 1 := rfl
        rw [hcounter, hcharged]
        omega

/-- A `fork` finds no free page and returns with preemption disabled. No tick takes the CPU away
from the process any more. -/
theorem forkFails_run (n : Nat) :
    ∃ k largest resting, (Kernel.boot fun _ => 0).run .priorityAging
        ([.kernelMain (some 0), .timerTick, .moveToUserMode .empty .zeroed, .fork none .empty]
          ++ List.replicate n .timerTick) = some k
      ∧ AgingRun (fun _ t => t.HasInt) k largest resting ∧ k.current.counter = 10 - n := by
  have hfork : ((Kernel.boot fun _ => 0).run .priorityAging [.kernelMain (some 0), .timerTick,
      .moveToUserMode .empty .zeroed, .fork none .empty]).map
        (fun k => (k.current.counter, k.current.preemptDisabled)) = some (10, 1) := by
    decide +kernel
  obtain ⟨k₀, hk₀, hfields⟩ := Option.map_eq_some_iff.mp hfork
  obtain ⟨hcounter₀, hdisabled⟩ := Prod.mk.inj hfields
  have hpositive : 0 < k₀.current.preemptDisabled := by omega
  obtain ⟨k, hticks, hcounter⟩ := run_ticks_disabled hpositive n
  have hrun : (Kernel.boot fun _ => 0).run .priorityAging ([.kernelMain (some 0), .timerTick,
      .moveToUserMode .empty .zeroed, .fork none .empty] ++ List.replicate n .timerTick)
        = some k := by
    rw [Kernel.run_append, hk₀]
    exact hticks
  have hts : ∀ t ∈ [Trap.kernelMain (some 0), .timerTick, .moveToUserMode .empty .zeroed,
      .fork none .empty] ++ List.replicate n .timerTick, ∀ _ : Kernel, t.HasInt := by
    intro t ht _
    rcases List.mem_append.mp ht with ht | ht
    · simp only [List.mem_cons, List.not_mem_nil, or_false] at ht
      rcases ht with rfl | rfl | rfl | rfl <;> trivial
    · rw [List.eq_of_mem_replicate ht]
      trivial
  obtain ⟨largest, resting, h⟩ := agingRun_run (.boot fun _ => 0) hts hrun
  exact ⟨k, largest, resting, hrun, h, by rw [hcounter, hcounter₀]⟩

/-- After enough of those ticks the counter leaves the range of a `long`. -/
theorem forkFails_overflows :
    ∃ k largest resting, (Kernel.boot fun _ => 0).run .priorityAging
        ([.kernelMain (some 0), .timerTick, .moveToUserMode .empty .zeroed, .fork none .empty]
          ++ List.replicate (2 ^ 63 + 10) .timerTick) = some k
      ∧ AgingRun (fun _ t => t.HasInt) k largest resting ∧ ¬ k.CountersFit := by
  obtain ⟨k, largest, resting, hrun, h, hcounter⟩ := forkFails_run (2 ^ 63 + 10)
  refine ⟨k, largest, resting, hrun, h, fun hfits => ?_⟩
  have hleast := hfits.tick.1
  omega

end Failing

end DemoOS
