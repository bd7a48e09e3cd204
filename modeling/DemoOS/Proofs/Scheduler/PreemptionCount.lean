import DemoOS.Proofs.Scheduler.Budgets
import DemoOS.Proofs.Scheduler.Picks

/-!
# `DemoOS.Proofs.Scheduler.PreemptionCount`: `preempt_disabled` across context switches

A selection function calls `preempt_disable` for the process that it takes the CPU from and
`preempt_enable` for the one that it gives it to. Between two steps the count is therefore 0
for the process that owns the CPU and 1 for every other process that was created, the 1 being
the half of a pair that the process started when it lost the CPU (`preemptionCount`). A failing
`copy_process` never calls `preempt_enable`, so this is about runs in which none fails (`Forks`).

The invariant is a predicate on counts (`Counts`): equality with 0 there, and `0 ≤ ·` for the
runs in which `copy_process` may fail (`reachable_counts_nonneg`).
-/

set_option autoImplicit false

namespace DemoOS

open Kernel Support

/-! ### The invariant -/

/-- The processes other than the current one have one more than a count that `P` holds of. -/
def Sched.OtherCounts (P : Int → Prop) (s : Sched) : Prop :=
  ∀ p, s.Registered p → p ≠ s.currentProcess → P ((s.block p).preemptDisabled - 1)

/-- `P` holds of the count of the process that owns the CPU, and the others have one more than
such a count. -/
def Sched.Counts (P : Int → Prop) (s : Sched) : Prop :=
  P (s.block s.currentProcess).preemptDisabled ∧ s.OtherCounts P

section Code
variable {alg : SchedAlgorithm} {P : Int → Prop} {s s₁ : Sched} {as : List Action}

/-- Kernel code writes the counts of the current process and of new processes only. -/
theorem Exec.otherCounts (hzero : P 0) (hexec : Exec alg s as s₁) (hcode : ∀ a ∈ as, a.IsCode)
    (hinv : s.Inv alg) (h : s.OtherCounts P) :
    s₁.currentProcess = s.currentProcess ∧ s₁.OtherCounts P := by
  refine (hexec.invariant (A := Action.IsCode)
    (P := fun t => t.Inv alg ∧ t.currentProcess = s.currentProcess ∧ t.OtherCounts P) ?_ hcode
    ⟨hinv, rfl, h⟩).2
  rintro t a ha hg ⟨htinv, hcurrent, hcounts⟩
  have hstate : ∀ b st, (PCB.withState b st).preemptDisabled = b.preemptDisabled :=
    fun _ _ => rfl
  refine ⟨htinv.apply hg, ?_⟩
  cases a with
  | edit r e =>
      refine ⟨hcurrent, fun p hp hne => ?_⟩
      have hblock : ((t.modify r e.apply).block p).preemptDisabled
          = (t.block p).preemptDisabled := by
        rw [Sched.modify_block]
        split
        · next hpr =>
            subst hpr
            cases e with
            | touch f keeps => exact Sched.core_preemptDisabled (keeps (t.block p))
            | preempt d => exact absurd hg hne
            | _ => rfl
        · rfl
      exact hblock.symm ▸ hcounts p hp hne
  | leave st =>
      refine ⟨hcurrent, fun p hp hne => ?_⟩
      exact (Sched.setState_field PCB.preemptDisabled hstate st p).symm ▸ hcounts p hp hne
  | wake r =>
      refine ⟨hcurrent, fun p hp hne => ?_⟩
      exact (Sched.enqueue_field alg PCB.preemptDisabled hstate p).symm ▸ hcounts p hp hne
  | clear r =>
      refine ⟨hcurrent, fun p hp hne => ?_⟩
      have hpr : p ≠ r := fun he => hg (he ▸ hp)
      have hblock : ((Action.clear r).apply alg t).block p = t.block p :=
        Sched.modify_block_of_ne (s := t) (f := fun _ => .zeroed) hpr
      exact hblock.symm ▸ hcounts p hp hne
  | register r cloneFlags mm =>
      refine ⟨hcurrent, fun p hp hne => ?_⟩
      have hfield : (((Action.register r cloneFlags mm).apply alg t).block p).preemptDisabled
          = if p = r then 1 else (t.block p).preemptDisabled := by
        refine (Sched.enqueue_field alg PCB.preemptDisabled hstate p).trans ?_
        split
        · next hpr =>
            rw [hpr]
            exact congrArg PCB.preemptDisabled (Function.update_self r _ t.block)
        · next hpr => rw [Sched.addToTable_block_of_ne hpr]
      rw [hfield]
      split
      · exact hzero
      · next hpr =>
          -- Any other process was in the table before.
          obtain ⟨i, hi, hslot⟩ := hp
          have hold : t.processes i = some p := by
            have hadded : Function.update t.processes t.nProcesses (some r) i = some p := hslot
            by_cases hin : i = t.nProcesses
            · rw [hin, Function.update_self] at hadded
              exact absurd (Option.some.inj hadded).symm hpr
            · rwa [Function.update_of_ne hin] at hadded
          exact hcounts p ⟨i, hi, hold⟩ hne
  | setLevel | promote | resetLevels | own | note => exact ⟨hcurrent, hcounts⟩
  | requeue | drop | recharge | dispatch => exact absurd ha id

end Code

/-! ### Selections -/

section Picks
variable {alg : SchedAlgorithm} {P : Int → Prop} {s₁ s₂ s₃ : Sched} {as : List Action}
  {next : Option PcbPtr} {quantum : Option Int} {p : PcbPtr}

/-- The opening of a selection function adds one to the count of the outgoing process. -/
theorem Sched.requeued_preemptDisabled :
    ((s₁.requeued alg).block p).preemptDisabled
      = (s₁.block p).preemptDisabled + if p = s₁.currentProcess then 1 else 0 := by
  have hmodified : ((s₁.modify s₁.currentProcess (Edit.preempt 1).apply).block p).preemptDisabled
      = (s₁.block p).preemptDisabled + if p = s₁.currentProcess then 1 else 0 := by
    rw [Sched.modify_block]
    split
    · next hp => rw [hp]; rfl
    · exact (Int.add_zero _).symm
  simp only [Sched.requeued]
  split
  · exact (Sched.enqueue_field alg PCB.preemptDisabled (fun _ _ => rfl) p).trans hmodified
  · exact hmodified

/-- While a selection function runs, nobody is exempt: all have one more. -/
theorem Sched.Counts.requeued (h : s₁.Counts P) (hp : s₁.Registered p) :
    P (((s₁.requeued alg).block p).preemptDisabled - 1) := by
  rw [Sched.requeued_preemptDisabled]
  split
  · next he => rw [he, Int.add_sub_cancel]; exact h.1
  · next hne => rw [Int.add_zero]; exact h.2 p hp hne

/-- After the switch, the process that got the CPU is back at its count. -/
theorem PickExec.counts (h : PickExec alg s₁ as s₂ next quantum s₃) (hinv : s₁.Inv alg)
    (hcounts : s₁.Counts P) : s₃.Counts P := by
  have hinv₃ := hinv.exec h.all
  have hregistered : ∀ {p}, s₃.Registered p → s₁.Registered p := fun {p} hp =>
    (Sched.registered_congr h.processes).mp hp
  have hsearched : ∀ p, (s₂.block p).preemptDisabled
      = ((s₁.requeued alg).block p).preemptDisabled :=
    h.searched_field PCB.preemptDisabled fun _ _ _ _ => rfl
  have hfinal := h.dispatched_field PCB.preemptDisabled fun _ _ _ _ => rfl
  refine ⟨?_, fun p hp hne => ?_⟩
  · rw [hfinal, if_pos rfl, hsearched]
    exact hcounts.requeued (hregistered hinv₃.cpu.current)
  · rw [hfinal, if_neg hne, hsearched]
    exact hcounts.requeued (hregistered hp)

end Picks

/-! ### Steps -/

namespace Kernel

/-- `copy_process` does not fail in the trap. -/
def Copies (alg : SchedAlgorithm) (k : Kernel) : Trap → Prop
  | .kernelMain page => 0 ≤ (k.copyProcess alg PF_KTHREAD page .empty).2
  | .fork page mm => 0 ≤ (k.copyProcess alg 0 page mm).2
  | _ => True

instance (alg : SchedAlgorithm) (k : Kernel) (t : Trap) : Decidable (k.Copies alg t) :=
  match t with
  | .kernelMain _ | .fork _ _ => inferInstanceAs (Decidable (_ ≤ _))
  | .exit | .wait _ | .yield | .sendMessage _ _ | .receiveMessage | .input _ | .sendSignal _ _
  | .setSchedParam _ _ _ | .resume | .moveToUserMode _ _ | .timerTick | .uartIrq _ _ _ =>
      isTrue trivial

/-- Runs of kernel steps in which no `copy_process` fails. -/
inductive Forks (alg : SchedAlgorithm) : Kernel → Prop
  | boot (timerClo : Nat → BitVec 32) : Forks alg (boot timerClo)
  | step {k k' : Kernel} (t : Trap) :
      Forks alg k → k.Copies alg t → k.step alg t = some k' → Forks alg k'

theorem Forks.reachable {alg : SchedAlgorithm} {k : Kernel} (h : Forks alg k) :
    Reachable alg k := by
  induction h with
  | boot timerClo => exact .boot timerClo
  | step t _ _ hstep ih => exact .step t ih hstep

end Kernel

section Steps
variable {alg : SchedAlgorithm} {P : Int → Prop} {k k' k₁ : Kernel} {s s₁ : Sched} {t : Trap}
  {c : Control}

theorem Refines.preemptDisabled (h : Refines k s) (p : PcbPtr) :
    (s.block p).preemptDisabled = (k.pcb p).preemptDisabled := by
  rw [h.block_eq]
  rfl

/-- The page of a new process is not that of the parent. -/
theorem Settled.page_ne_current (h : Settled alg k s) {page : Option Nat}
    (hfresh : k.PageFresh page) : ∀ n ∈ page, k.currentProcess ≠ .page n := by
  intro n hn he
  obtain ⟨i, hi, hslot⟩ := h.refines.isProcess_iff.mpr h.inv.cpu.current
  exact hfresh n hn i hi (hslot.trans (congrArg some (h.refines.currentProcess.symm.trans he)))

/-- The code of a trap leaves the current process its count. A `copy_process` that fails adds
one, and the code returns. -/
theorem enter_preemptDisabled (h : Settled alg k s) (henter : k.enter alg t = some (k₁, c)) :
    k₁.current.preemptDisabled = k.current.preemptDisabled
      ∨ ¬ k.Copies alg t ∧ c = .returns
        ∧ k₁.current.preemptDisabled = k.current.preemptDisabled + 1 := by
  have hcurrent : k₁.currentProcess = k.currentProcess := enter_currentProcess henter
  have hcopied : ∀ {k₂ : Kernel} {copies : Prop} [Decidable copies],
      Parent k k₂ (if copies then 0 else 1) → SameBudgets k₂ k₁ →
        k₁.current.preemptDisabled = k.current.preemptDisabled
          ∨ ¬ copies ∧ k₁.current.preemptDisabled = k.current.preemptDisabled + 1 := by
    intro k₂ copies _ hparent hsame
    have hcount := (hparent.trans (.of_same hsame)).preemptDisabled
    by_cases hcopies : copies
    · rw [if_pos hcopies, Int.add_zero, Int.add_zero] at hcount
      exact Or.inl hcount
    · rw [if_neg hcopies, Int.add_zero] at hcount
      exact Or.inr ⟨hcopies, hcount⟩
  cases hcopies : t.copies with
  | false =>
      left
      rw [current, hcurrent]
      by_cases htick : t = .timerTick
      · subst htick
        exact (handleTimerTick_budgets henter).2.1 _
      · exact (enter_budgets htick hcopies henter).preemptDisabled _
  | true =>
      cases t with
      | kernelMain page =>
          obtain ⟨⟨-, -, hfresh⟩, hr⟩ := guarded henter
          obtain ⟨rfl, rfl⟩ := Prod.mk.inj hr
          have hparent := copyProcess_parent alg (h.page_ne_current hfresh) PF_KTHREAD .empty
          exact (hcopied hparent ((SameBudgets.keptByCode alg).suspendAt _ .idle)).imp_right fun h => ⟨h.1, rfl, h.2⟩
      | fork page mm =>
          obtain ⟨⟨-, hfresh⟩, hr⟩ := guarded henter
          obtain ⟨rfl, rfl⟩ := Prod.mk.inj hr
          have hparent := copyProcess_parent alg (h.page_ne_current hfresh) 0 mm
          exact (hcopied hparent ((SameBudgets.keptByCode alg).returnToUser _ _)).imp_right fun h => ⟨h.1, rfl, h.2⟩
      | _ => cases hcopies

/-- The code of a trap keeps the invariant, up to its call of the scheduler. -/
theorem enter_counts (hzero : P 0) (hfails : ¬ k.Copies alg t → ∀ d, P d → P (d + 1))
    (h : Settled alg k s) (hcounts : s.Counts P) (henter : k.enter alg t = some (k₁, c)) :
    ∃ s₁, Refines k₁ s₁ ∧ s₁.Inv alg ∧ s₁.Counts P ∧ (c = .returns → s₁.Running) := by
  obtain ⟨as, s₁, hcode⟩ := enter_code h.refines h.inv h.running henter
  have hall : ∀ a ∈ as, a.IsCode := by
    cases c with
    | returns => exact fun a ha => (hcode.returns rfl a ha).isCode
    | schedules => exact fun a ha => ((hcode.schedules rfl).1 a ha).1
  obtain ⟨hcurrent, hothers⟩ := hcode.exec.otherCounts hzero hall h.inv hcounts.2
  have hown : ∀ {k : Kernel} {s : Sched}, Refines k s →
      (s.block s.currentProcess).preemptDisabled = k.current.preemptDisabled :=
    fun {k s} hk => by rw [hk.preemptDisabled, current, hk.currentProcess]
  refine ⟨s₁, hcode.refines, h.inv.exec hcode.exec, ⟨?_, hothers⟩, fun hc =>
    (hcode.exec.stays (hcode.returns hc) h.inv h.running).2.1⟩
  have hcount := hcounts.1
  rw [hown h.refines] at hcount
  rw [hown hcode.refines]
  rcases enter_preemptDisabled h henter with hsame | ⟨hnot, -, hone⟩
  · rw [hsame]
    exact hcount
  · rw [hone]
    exact hfails hnot _ hcount

/-- A kernel step keeps the invariant. -/
theorem step_counts (hzero : P 0) (hfails : ¬ k.Copies alg t → ∀ d, P d → P (d + 1))
    (h : Settled alg k s) (hcounts : s.Counts P) (hstep : k.step alg t = some k') :
    ∃ s', Settled alg k' s' ∧ s'.Counts P := by
  unfold Kernel.step at hstep
  split at hstep
  · exact nomatch hstep
  · next k₁ henter =>
      obtain rfl := Option.some.inj hstep
      obtain ⟨s₁, hk₁, hinv₁, hcounts₁, hrun₁⟩ := enter_counts hzero hfails h hcounts henter
      exact ⟨s₁, ⟨hk₁, hinv₁, hrun₁ rfl⟩, hcounts₁⟩
  · next k₁ henter =>
      obtain ⟨s₁, hk₁, hinv₁, hcounts₁, -⟩ := enter_counts hzero hfails h hcounts henter
      obtain ⟨k₂, as, s₂, next, quantum, s₃, hpick, hexec, hs₃, -⟩ := pickNext_exec alg hk₁ hinv₁
      obtain rfl : k₂ = k' := Option.some.inj (hpick.symm.trans hstep)
      exact ⟨s₃, hs₃, hexec.counts hinv₁ hcounts₁⟩

end Steps

/-! ### Runs -/

section Runs
variable {alg : SchedAlgorithm} {k : Kernel}

theorem Sched.counts_boot {P : Int → Prop} (hzero : P 0) : Sched.boot.Counts P :=
  ⟨hzero, fun _ hp hne => absurd (Sched.registered_boot.mp hp) hne⟩

/-- No preemption count is negative, in any run. -/
theorem reachable_counts_nonneg (hk : Reachable alg k) :
    ∃ s, Settled alg k s ∧ s.Counts (0 ≤ ·) := by
  induction hk with
  | boot timerClo => exact ⟨_, settled_boot alg timerClo, Sched.counts_boot (Int.le_refl 0)⟩
  | step t _ hstep ih =>
      obtain ⟨s, hs, hcounts⟩ := ih
      exact step_counts (Int.le_refl 0) (fun _ d hd => Int.le_add_one hd) hs hcounts hstep

/-- Where no `copy_process` fails, the counts are 0 and 1. -/
theorem forks_counts (hk : Forks alg k) : ∃ s, Settled alg k s ∧ s.Counts (· = 0) := by
  induction hk with
  | boot timerClo => exact ⟨_, settled_boot alg timerClo, Sched.counts_boot rfl⟩
  | step t _ hcopies hstep ih =>
      obtain ⟨s, hs, hcounts⟩ := ih
      exact step_counts rfl (fun hnot => absurd hcopies hnot) hs hcounts hstep

/-- In every run in which no `copy_process` fails, the running process has `preempt_disabled`
0 between steps and every other process 1. The code of the next trap brings none below 0, and
while a selection function runs, every process has 1, so that its `preempt_enable` finds 1
whichever process it acts on. -/
theorem preemptionCount (hk : Forks alg k) :
    k.current.preemptDisabled = 0
      ∧ (∀ p, k.IsProcess p → p ≠ k.currentProcess → (k.pcb p).preemptDisabled = 1)
      ∧ ∀ t k₁ c, k.enter alg t = some (k₁, c) →
        (∀ p, k₁.IsProcess p → 0 ≤ (k₁.pcb p).preemptDisabled)
        ∧ (c = .schedules → ∀ p, k₁.IsProcess p →
          ((k₁.requeueOutgoing alg.enqueue).pcb p).preemptDisabled = 1) := by
  obtain ⟨s, hs, hcounts⟩ := forks_counts hk
  have hone : ∀ {d : Int}, d - 1 = 0 → d = 1 := fun h => by omega
  refine ⟨?_, fun p hp hne => ?_, fun t k₁ c henter => ⟨fun p hp => ?_, fun hc p hp => ?_⟩⟩
  · rw [current, hs.refines.currentProcess, ← hs.refines.preemptDisabled]
    exact hcounts.1
  · rw [hs.refines.currentProcess] at hne
    rw [← hs.refines.preemptDisabled]
    exact hone (hcounts.2 p (hs.refines.isProcess_iff.mp hp) hne)
  · obtain ⟨s', hs', hcounts'⟩ := reachable_counts_nonneg hk.reachable
    obtain ⟨s₁, hk₁, -, hcounts₁, -⟩ := enter_counts (P := (0 ≤ ·)) (Int.le_refl 0)
      (fun _ d hd => Int.le_add_one hd) hs' hcounts' henter
    rw [← hk₁.preemptDisabled]
    by_cases hp₁ : p = s₁.currentProcess
    · rw [hp₁]
      exact hcounts₁.1
    · have hother := hcounts₁.2 p (hk₁.isProcess_iff.mp hp) hp₁
      dsimp only at hother
      omega
  · subst hc
    have hcopies : k.Copies alg t := by
      by_contra hnot
      rcases t with _ | _ | _ <;> first
        | exact hnot trivial
        | cases (Prod.mk.inj (guarded henter).2).2
    obtain ⟨s₁, hk₁, hinv₁, hcounts₁, -⟩ := enter_counts (P := (· = 0)) rfl
      (fun hnot => absurd hcopies hnot) hs hcounts henter
    rw [← (requeueOutgoing_refines hk₁ hinv₁ rfl).preemptDisabled]
    exact hone (hcounts₁.requeued (hk₁.isProcess_iff.mp hp))

/-- Traps that create no process add to such a run. -/
theorem forks_run {k' : Kernel} {ts : List Trap} (hk : Forks alg k)
    (hts : ∀ t ∈ ts, t.copies = false) (hrun : k.run alg ts = some k') : Forks alg k' := by
  induction ts generalizing k with
  | nil => exact Option.some.inj hrun ▸ hk
  | cons t ts ih =>
      obtain ⟨k₁, hstep, hrest⟩ := Option.bind_eq_some_iff.mp hrun
      have hcopies : k.Copies alg t := by
        cases t <;> first | trivial | exact nomatch hts _ List.mem_cons_self
      exact ih (.step t hk hcopies hstep) (fun t' ht' => hts t' (List.mem_cons_of_mem t ht')) hrest

/-- Init lost the CPU to the first process, which yields and gets it back. -/
theorem preemptionCount_yield :
    ∃ k, (Kernel.boot fun _ => 0).run .mlfq
        [.kernelMain (some 0), .timerTick, .moveToUserMode .empty .zeroed, .yield] = some k
      ∧ k.currentProcess = .page 0 ∧ (k.pcb (.page 0)).preemptDisabled = 0
      ∧ (k.pcb .initProcess).preemptDisabled = 1 := by
  have hrun : ((Kernel.boot fun _ => 0).run .mlfq
      [.kernelMain (some 0), .timerTick, .moveToUserMode .empty .zeroed, .yield]).map
        (fun k => (k.currentProcess, decide (k.IsProcess .initProcess)))
          = some (.page 0, true) := by
    decide +kernel
  obtain ⟨k, hk, hfinal⟩ := Option.map_eq_some_iff.mp hrun
  obtain ⟨hcurrent, hinit⟩ := Prod.mk.inj hfinal
  obtain ⟨k₁, hstep, hrest⟩ := Option.bind_eq_some_iff.mp hk
  have hforks := forks_run (.step _ (.boot _) (by decide +kernel) hstep) (by decide) hrest
  have h := preemptionCount hforks
  refine ⟨k, hk, hcurrent, ?_, h.2.1 _ (of_decide_eq_true hinit) (by rw [hcurrent]; decide)⟩
  rw [← hcurrent]
  exact h.1

end Runs

end DemoOS
