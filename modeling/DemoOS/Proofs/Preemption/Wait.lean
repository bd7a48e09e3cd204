import DemoOS.Preemption.Wait
import DemoOS.Proofs.Scheduler.Cpu

/-!
# `DemoOS.Proofs.Preemption.Wait`: who waits for a dead process

`syscall_wait` tests the state of the process it is to wait for, marks the caller as waiting
and writes down the pid, in three statements. `exit_process` looks for exactly this mark and
this pid. A process that exits between the test and the last write finds nobody, and the
caller goes to sleep with nobody left to wake it.

The two results are

* `zombie_waited_for`: a run that ends with such a sleeper;
* `waits_answered`: in a run in which nobody exits while a process is between its test of the
  state and its write of the pid, no state has one.
-/

set_option autoImplicit false

namespace DemoOS

/-! ### What the rest of the kernel does to a wait -/

/-- The block has begun no wait and has not died. -/
structure PCB.Calm (b b' : PCB) : Prop where
  pid : b'.pid = b.pid
  zombie : b'.state = .zombie → b.state = .zombie ∨ b.isPending SIGNAL_KILL
  waits : b'.state = .waitingAnotherProcess →
    b.state = .waitingAnotherProcess ∧ b'.pidToWait = b.pidToWait
  signals : ∀ n, b'.isPending n → b.isPending n

namespace PCB.Calm

variable {b b' b'' : PCB}

theorem refl (b : PCB) : b.Calm b := ⟨rfl, Or.inl, fun h => ⟨h, rfl⟩, fun _ => id⟩

theorem served (h : b.Served b') : b.Calm b' :=
  ⟨h.pid, h.zombie, fun hst => ⟨h.waits hst, h.pidToWait⟩, h.signals⟩

theorem trans (h : b.Calm b') (h' : b'.Calm b'') : b.Calm b'' where
  pid := h'.pid.trans h.pid
  zombie hst := by
    rcases h'.zombie hst with hst | hpending
    · exact h.zombie hst
    · exact Or.inr (h.signals _ hpending)
  waits hst := by
    have h₁ := h'.waits hst
    have h₀ := h.waits h₁.1
    exact ⟨h₀.1, h₁.2.trans h₀.2⟩
  signals n hn := h.signals n (h'.signals n hn)

end PCB.Calm

namespace Kernel

variable {alg : SchedAlgorithm} {k k' k'' : Kernel}

/-- What the steps other than the two system calls do: they begin no wait and end no process,
and the process that they may create is neither waiting nor dead. -/
structure Calm (k k' : Kernel) : Prop where
  block : ∀ p, k.IsProcess p → (k.pcb p).Calm (k'.pcb p)
  grows : ∀ p, k.IsProcess p → k'.IsProcess p
  child : ∀ p, k'.IsProcess p → ¬ k.IsProcess p →
    (k'.pcb p).state ≠ .zombie ∧ (k'.pcb p).state ≠ .waitingAnotherProcess
      ∧ ∀ n, (k'.pcb p).isPending n = false
  table : k'.Table

/-- No signal is pending in a zeroed mask. -/
theorem isPending_zero {b : PCB} (h : b.pendingSignals = 0) (n : Nat) : b.isPending n = false := by
  simp [PCB.isPending, h]

theorem Calm.served (ht : k.Table) (h : k.Served k') : Calm k k' where
  block p _ := .served (h.block p)
  grows p := (h.isProcess p).mpr
  child p hp hnot := absurd ((h.isProcess p).mp hp) hnot
  table := ht.served h

theorem Calm.extends (ht : k.Table) (h : k.Extends k') : Calm k k' where
  block p hp := .served (h.block p hp)
  grows p := by
    rintro ⟨i, hi, hslot⟩
    rcases h.table with ⟨hprocesses, -⟩ | ⟨q, _, _, _, -, -, hprocesses, -⟩
    · exact ⟨i, hi, hprocesses ▸ hslot⟩
    · have hin : i ≠ k.nProcesses := by
        intro hin
        rw [ht.ends i (by omega)] at hslot
        exact nomatch hslot
      exact ⟨i, hi, by rw [hprocesses, Function.update_of_ne hin]; exact hslot⟩
  child p hp hnot := by
    rcases h.table with ⟨hprocesses, -⟩ | ⟨q, parent, flags, mm, -, -, hprocesses, -, hchild⟩
    · refine absurd ?_ hnot
      unfold IsProcess at hp ⊢
      rw [← hprocesses]
      exact hp
    · obtain ⟨i, hi, hslot⟩ := hp
      rw [hprocesses] at hslot
      by_cases hin : i = k.nProcesses
      · -- The new process is ready, and the mask of its block is zero.
        rw [hin, Function.update_self] at hslot
        obtain rfl := Option.some.inj hslot
        have hsignals : ∀ n, (k'.pcb q).isPending n = false := by
          intro n
          refine Bool.eq_false_iff.mpr fun hn => ?_
          have hzero := isPending_zero (b := childPcb parent flags mm k.nProcesses) rfl n
          exact absurd (hchild.signals n hn) (by rw [hzero]; decide)
        have hserved := PCB.Served.scheduled hchild
        refine ⟨fun hst => ?_, fun hst => ?_, hsignals⟩
        · rcases hserved.zombie hst with hready | hpending
          · exact nomatch (show ProcessState.ready = .zombie from hready)
          · have hzero := isPending_zero (b := childPcb parent flags mm k.nProcesses) rfl SIGNAL_KILL
            exact absurd hpending (by rw [hzero]; decide)
        · exact nomatch (show ProcessState.ready = .waitingAnotherProcess from hserved.waits hst)
      · rw [Function.update_of_ne hin] at hslot
        exact absurd ⟨i, hi, hslot⟩ hnot
  table := ht.extends h

theorem Calm.of_modify (ht : k.Table) {p : PcbPtr} {f : PCB → PCB}
    (hf : (k.pcb p).Calm (f (k.pcb p))) : Calm k (k.modifyPcb p f) where
  block r _ := by
    rw [modifyPcb_pcb]
    split
    · next hr => exact hr ▸ hf
    · exact .refl _
  grows _ := id
  child _ hp hnot := absurd hp hnot
  table := {
    ends := ht.ends
    dense := ht.dense
    pids := fun i r hr => by
      rw [modifyPcb_pcb]
      split
      · next hrp => exact hf.pid.trans (ht.pids i p (hrp ▸ hr))
      · exact ht.pids i r hr
    size := ht.size }

theorem Calm.trans (h : Calm k k') (h' : Calm k' k'') : Calm k k'' where
  block p hp := (h.block p hp).trans (h'.block p (h.grows p hp))
  grows p hp := h'.grows p (h.grows p hp)
  child p hp hnot := by
    by_cases hp' : k'.IsProcess p
    · obtain ⟨hzombie, hwaits, hsignals⟩ := h.child p hp' hnot
      have hcalm := h'.block p hp'
      refine ⟨fun hst => ?_, fun hst => hwaits (hcalm.waits hst).1, fun n => ?_⟩
      · rcases hcalm.zombie hst with hst | hpending
        · exact hzombie hst
        · exact absurd hpending (by rw [hsignals]; decide)
      · exact Bool.eq_false_iff.mpr fun hn => absurd (hcalm.signals n hn) (by rw [hsignals]; decide)
    · exact h'.child p hp hp'
  table := h'.table

theorem Calm.then (h : Calm k k') (hs : k'.Served k'') : Calm k k'' :=
  h.trans (.served h.table hs)

/-- The kernel code that is not part of the two system calls, without its call of the
scheduler. -/
theorem enter_calm (ht : k.Table) {t : Trap} (hwait : ∀ pid, t ≠ .wait pid) (hexit : t ≠ .exit)
    (hsignal : ∀ pid flag, t ≠ .sendSignal pid flag) {r : Kernel × Control}
    (h : k.enter alg t = some r) : Calm k r.1 := by
  cases t with
  | wait pid => exact absurd rfl (hwait pid)
  | exit => exact absurd rfl hexit
  | sendSignal pid flag => exact absurd rfl (hsignal pid flag)
  | kernelMain page =>
      obtain ⟨⟨-, -, hfresh⟩, rfl⟩ := guarded h
      have hcopy := (copyProcess_extends alg hfresh PF_KTHREAD .empty).1
      exact (Calm.extends ht hcopy).then (.suspendAt _ .idle)
  | fork page mm =>
      obtain ⟨⟨-, hfresh⟩, rfl⟩ := guarded h
      have hcopy := (copyProcess_extends alg hfresh 0 mm).1
      exact (Calm.extends ht hcopy).then (.returnToUser _ _)
  | moveToUserMode mm regs =>
      obtain ⟨-, rfl⟩ := guarded h
      have hmoved : Calm k (k.modifyCurrent fun b => { b with mm := mm, regs := regs }) :=
        .of_modify ht ⟨rfl, Or.inl, fun hst => ⟨hst, rfl⟩, fun _ => id⟩
      have hspace : ∀ {k : Kernel}, k.Table → Calm k { k with ttbr0 := mm.pgd } := fun ht =>
        ⟨fun _ _ => .refl _, fun _ => id, fun _ hp hnot => absurd hp hnot,
          ⟨ht.ends, ht.dense, ht.pids, ht.size⟩⟩
      exact (hmoved.then (.suspendAt _ .user)).trans (hspace (hmoved.then (.suspendAt _ .user)).table)
  | _ => exact .served ht (enter_served rfl h)

/-! ### The section of `exit_process` -/

/-- One round of the wake-up loop of `exit_process`. -/
private theorem wakeOne_calm (alg : SchedAlgorithm) (k : Kernel) (p r : PcbPtr) :
    (k.pcb r).Calm ((((k.modifyPcb p fun b => { b with pidToWait := -1 }).setState p .ready
      |>.enqueueProcess alg p).pcb r)) := by
  have hqueued := PCB.Calm.served (.scheduled ((Scheduled.enqueueProcess alg
    ((k.modifyPcb p fun b => { b with pidToWait := -1 }).setState p .ready) p).block r))
  refine .trans ?_ hqueued
  simp only [setState, modifyPcb_pcb]
  split
  · next hr =>
      rw [hr, if_true]
      exact ⟨rfl, fun h => (by cases h), fun h => (by cases h), fun _ => id⟩
  · exact .refl _

private theorem wakeOne_awake (alg : SchedAlgorithm) (k : Kernel) (p : PcbPtr) :
    ((((k.modifyPcb p fun b => { b with pidToWait := -1 }).setState p .ready
      |>.enqueueProcess alg p).pcb p)).state ≠ .waitingAnotherProcess := by
  intro hst
  have hqueued := PCB.Calm.served (.scheduled ((Scheduled.enqueueProcess alg
    ((k.modifyPcb p fun b => { b with pidToWait := -1 }).setState p .ready) p).block p))
  have hready := (hqueued.waits hst).1
  rw [setState, modifyPcb_pcb_self] at hready
  cases hready

/-- The loop of `exit_process` over the given slots. -/
private def wakeWaiters (alg : SchedAlgorithm) (pid : Int) (slots : List Nat) (k : Kernel) : Kernel :=
  k.wakeProcesses alg (fun b => b.state = .waitingAnotherProcess ∧ b.pidToWait = pid)
    (fun b => { b with pidToWait := -1 }) slots

/-- One round: the process in the slot waits for the pid no more. -/
private theorem wakeSlot_calm (alg : SchedAlgorithm) (pid : Int) (i : Nat) (k : Kernel)
    (r : PcbPtr) : (k.pcb r).Calm ((wakeWaiters alg pid [i] k).pcb r)
      ∧ (k.processes i = some r →
          ((wakeWaiters alg pid [i] k).pcb r).state = .waitingAnotherProcess →
          (k.pcb r).pidToWait ≠ pid) := by
  simp only [wakeWaiters, wakeProcesses, List.foldl_cons, List.foldl_nil, decide_eq_true_eq]
  split
  · next hslot => exact ⟨.refl _, fun h => (nomatch hslot.symm.trans h)⟩
  · next p hslot =>
      split
      · refine ⟨wakeOne_calm alg k p r, fun h hst => ?_⟩
        obtain rfl := Option.some.inj (hslot.symm.trans h)
        exact absurd hst (wakeOne_awake alg k p)
      · next hnot =>
          refine ⟨.refl _, fun h hst hpid => ?_⟩
          obtain rfl := Option.some.inj (hslot.symm.trans h)
          exact hnot ⟨hst, hpid⟩

/-- The loop: whoever waits for the pid and stands in one of the slots waits no more. -/
private theorem wakeWaiters_calm (alg : SchedAlgorithm) (pid : Int) (slots : List Nat) (k : Kernel)
    (r : PcbPtr) : (k.pcb r).Calm ((wakeWaiters alg pid slots k).pcb r)
      ∧ ∀ i ∈ slots, k.processes i = some r →
          ((wakeWaiters alg pid slots k).pcb r).state = .waitingAnotherProcess →
          (k.pcb r).pidToWait ≠ pid := by
  induction slots generalizing k with
  | nil => exact ⟨.refl _, fun _ hi => (nomatch hi)⟩
  | cons j slots ih =>
      have hprocesses : (wakeWaiters alg pid [j] k).processes = k.processes :=
        rest_processes (wakeProcesses_rest alg _ _ _ k)
      obtain ⟨hone, hslot⟩ := wakeSlot_calm alg pid j k r
      obtain ⟨hrest, hslots⟩ := ih (wakeWaiters alg pid [j] k)
      -- The loop over the other slots starts behind the first round.
      show (k.pcb r).Calm ((wakeWaiters alg pid slots (wakeWaiters alg pid [j] k)).pcb r) ∧ _
      refine ⟨hone.trans hrest, fun i hi hir hst => ?_⟩
      rcases List.mem_cons.mp hi with rfl | hi
      · exact hslot hir (hrest.waits hst).1
      · have hpid := hslots i hi (by rw [hprocesses]; exact hir) hst
        rwa [(hone.waits (hrest.waits hst).1).2] at hpid

/-- What the section of `exit_process` does: the caller alone dies, and nobody goes on waiting
for it by its pid. -/
structure Exited (k k' : Kernel) : Prop where
  currentProcess : k'.currentProcess = k.currentProcess
  processes : k'.processes = k.processes
  nProcesses : k'.nProcesses = k.nProcesses
  pid : ∀ p, (k'.pcb p).pid = (k.pcb p).pid
  zombie : ∀ p, (k'.pcb p).state = .zombie →
    p = k.currentProcess ∨ (k.pcb p).state = .zombie ∨ (k.pcb p).isPending SIGNAL_KILL
  waits : ∀ p, (k'.pcb p).state = .waitingAnotherProcess →
    p ≠ k.currentProcess ∧ (k.pcb p).state = .waitingAnotherProcess
      ∧ (k'.pcb p).pidToWait = (k.pcb p).pidToWait
      ∧ (k.IsProcess p → (k.pcb p).pidToWait ≠ k.current.pid)
  signals : ∀ p n, (k'.pcb p).isPending n → (k.pcb p).isPending n

theorem exitSection_exited (alg : SchedAlgorithm) (k : Kernel) : k.Exited (k.exitSection alg) := by
  obtain ⟨dead, hdead⟩ : ∃ b : PCB, b = { k.current with
    preemptDisabled := k.current.preemptDisabled + 1, state := .zombie } := ⟨_, rfl⟩
  obtain ⟨k₁, hk₁⟩ : ∃ k₁, k₁ = k.preemptDisable.setState k.currentProcess .zombie := ⟨_, rfl⟩
  have hblock : ∀ r, k₁.pcb r = if r = k.currentProcess then dead else k.pcb r := by
    intro r
    rw [hk₁, hdead, setState, modifyPcb_pcb, preemptDisable, modifyCurrent, modifyPcb_pcb_self]
    split
    · rfl
    · next hr => exact modifyPcb_pcb_of_ne _ _ hr
  have hpid : k₁.current.pid = k.current.pid := by
    rw [current, show k₁.currentProcess = k.currentProcess by rw [hk₁]; rfl, hblock, if_pos rfl,
      hdead]
  have hsection : k.exitSection alg
      = (wakeWaiters alg k.current.pid (List.range N_PROCESSES) k₁).preemptEnable := by
    rw [← hpid, hk₁]
    rfl
  obtain ⟨k₂, hk₂⟩ : ∃ k₂, k₂ = wakeWaiters alg k.current.pid (List.range N_PROCESSES) k₁ :=
    ⟨_, rfl⟩
  have hrest : k₂.rest = k₁.rest := hk₂ ▸ wakeProcesses_rest alg _ _ _ k₁
  have henable : Scheduled k₂ k₂.preemptEnable := .preemptEnable k₂
  have hcalm : ∀ r, (k₁.pcb r).Calm (k₂.preemptEnable.pcb r) := fun r =>
    (hk₂ ▸ (wakeWaiters_calm alg k.current.pid (List.range N_PROCESSES) k₁ r).1).trans
      (.served (.scheduled (henable.block r)))
  rw [hsection, ← hk₂]
  refine ⟨?_, ?_, ?_, fun p => ?_, fun p hst => ?_, fun p hst => ?_, fun p n hn => ?_⟩
  · exact (rest_currentProcess hrest).trans (by rw [hk₁]; rfl)
  · exact (rest_processes hrest).trans (by rw [hk₁]; rfl)
  · exact (rest_nProcesses hrest).trans (by rw [hk₁]; rfl)
  · rw [(hcalm p).pid, hblock]
    split
    · next hp => rw [hdead, hp]; rfl
    · rfl
  · by_cases hp : p = k.currentProcess
    · exact Or.inl hp
    · have h := (hcalm p).zombie hst
      rw [hblock, if_neg hp] at h
      exact Or.inr h
  · have hwaits := (hcalm p).waits hst
    by_cases hp : p = k.currentProcess
    · rw [hblock, if_pos hp, hdead] at hwaits
      cases hwaits.1
    · have hp₁ : k₁.pcb p = k.pcb p := by rw [hblock, if_neg hp]
      rw [hp₁] at hwaits
      refine ⟨hp, hwaits.1, hwaits.2, ?_⟩
      rintro ⟨i, hi, hslot⟩
      have hst₂ := (PCB.Calm.served (.scheduled (henable.block p))).waits hst
      have hslot₁ : k₁.processes i = some p := by rw [hk₁]; exact hslot
      rw [← hp₁]
      exact (wakeWaiters_calm alg k.current.pid (List.range N_PROCESSES) k₁ p).2 i
        (List.mem_range.mpr hi) hslot₁ (hk₂ ▸ hst₂.1)
  · have h := (hcalm p).signals n hn
    rw [hblock] at h
    split at h
    · next hp =>
        rw [hp]
        rw [hdead] at h
        exact h
    · exact h

/-- Where a process goes on does not matter to `schedule`. -/
theorem suspendAt_schedule (k : Kernel) (point : ResumePoint) :
    (k.suspendAt point).schedule = (k.schedule.1.suspendAt point, .schedules) := by
  have hcomm : ∀ (k : Kernel) (f : PCB → PCB),
      (∀ b, { f b with resume := point } = f { b with resume := point }) →
        (k.suspendAt point).modifyCurrent f = (k.modifyCurrent f).suspendAt point := by
    intro k f hf
    have hblock : ∀ b c : PCB, Function.update (Function.update k.pcb k.currentProcess b)
        k.currentProcess c = Function.update k.pcb k.currentProcess c := fun b c =>
      Function.update_idem ..
    simp only [suspendAt, modifyCurrent, modifyPcb, Function.update_self, hblock, hf]
  have hstate : (k.suspendAt point).current.state = k.current.state := by
    simp [current, suspendAt, modifyCurrent]
  unfold schedule
  rw [suspendAt_currentProcess, hstate]
  split
  · rw [hcomm k _ fun _ => rfl]
    exact congrArg (·, Control.schedules) (hcomm _ (fun b => b.withCounter 0) fun _ => rfl)
  · exact congrArg (·, Control.schedules) (hcomm _ (fun b => b.withCounter 0) fun _ => rfl)

end Kernel

/-! ### Without an interruption -/

/-- The statements of `syscall_wait`, one behind the other, are the system call. -/
theorem wait_complete (alg : SchedAlgorithm) (k : Kernel) (pid : Int) :
    ∃ r, waitProgram.complete alg 5 k (.search pid) = some r
      ∧ (r.2 = .returns ∧ k.syscallWait pid = r
        ∨ r.2 = .schedules ∧ k.syscallWait pid = (r.1.suspendAt (.wait pid), .schedules)) := by
  unfold Kernel.syscallWait
  cases hfound : k.searchProcess pid with
  | none =>
      refine ⟨(k.returnToUser (-1)), ?_, Or.inl ⟨rfl, rfl⟩⟩
      simp [Program.complete, waitProgram, waitStatement, hfound, Kernel.returnToUser]
  | some d =>
      dsimp only
      split
      · next hzombie =>
          refine ⟨_, ?_, Or.inl ⟨rfl, rfl⟩⟩
          simp [Program.complete, waitProgram, waitStatement, hfound, hzombie, Kernel.returnToUser]
      · next hlive =>
          refine ⟨(((k.setState k.currentProcess .waitingAnotherProcess).modifyCurrent fun b =>
            { b with pidToWait := pid }).schedule.1, .schedules), ?_, Or.inr ⟨rfl, ?_⟩⟩
          · simp [Program.complete, waitProgram, waitStatement, hfound, hlive]
          · exact Kernel.suspendAt_schedule _ _

/-- And so are those of `exit_process`. -/
theorem exit_complete (alg : SchedAlgorithm) (k : Kernel) :
    waitProgram.complete alg 2 k .exit = some (k.exitProcess alg) := by
  have hexit : k.exitProcess alg = ((k.exitSection alg).suspendAt .exited).schedule := rfl
  rw [hexit, Kernel.suspendAt_schedule]
  simp only [Program.complete, waitProgram, waitStatement, Kernel.suspendAt_schedule]

/-! ### The invariant -/

/-- What holds in every state of a run in which nobody exits while a process is between its
test and its write of the pid. -/
structure WaitInv (s : Preemptible Kernel WaitPoint) : Prop where
  table : s.state.Table
  signals : ∀ p n, s.state.IsProcess p → (s.state.pcb p).isPending n = false
  /-- Only processes of the table are inside a call. -/
  places : ∀ {p x}, s.point p = some x → s.state.IsProcess p
  /-- A process that waits has written the pid or is about to. -/
  marked : ∀ {p}, s.state.IsProcess p → (s.state.pcb p).state = .waitingAnotherProcess →
    ∃ pid, s.point p = some (.record pid) ∨
      (s.point p).bind WaitPoint.target = some pid ∧ (s.state.pcb p).pidToWait = pid
  /-- `destination_process` is the process of the pid. -/
  found : ∀ {p pid d}, s.point p = some (.test pid d) →
    s.state.IsProcess d ∧ ((s.state.pcb d).pid : Int) = pid
  /-- Whoever waits or is about to, the process with the pid is not dead. -/
  alive : ∀ {p t pid}, s.state.IsProcess p → s.state.IsProcess t →
    ((s.state.pcb t).pid : Int) = pid →
    (BetweenTestAndRecord pid (s.point p)
      ∨ (s.state.pcb p).state = .waitingAnotherProcess
        ∧ (s.point p).bind WaitPoint.target = some pid) →
    (s.state.pcb t).state ≠ .zombie
  /-- The current process has marked itself in this call. -/
  awake : s.state.IsProcess s.state.currentProcess →
    s.state.current.state = .waitingAnotherProcess →
    ∃ pid, s.point s.state.currentProcess = some (.record pid)
      ∨ s.point s.state.currentProcess = some (.block pid)

namespace WaitInv

open Kernel

variable {alg : SchedAlgorithm} {s : Preemptible Kernel WaitPoint} {k' : Kernel}

/-- The rest of the kernel runs, and the current process keeps the CPU or the new one is
running. -/
theorem calm (h : WaitInv s) (hc : s.state.Calm k')
    (hcur : k'.currentProcess = s.state.currentProcess ∨ k'.current.state = .running) :
    WaitInv ⟨k', s.point⟩ := by
  have hnone : ∀ {p}, ¬ s.state.IsProcess p → s.point p = none := fun hp =>
    Option.eq_none_iff_forall_ne_some.mpr fun x hx => hp (h.places hx)
  have hwaits : ∀ {p}, k'.IsProcess p → (k'.pcb p).state = .waitingAnotherProcess →
      s.state.IsProcess p ∧ (s.state.pcb p).state = .waitingAnotherProcess
        ∧ (k'.pcb p).pidToWait = (s.state.pcb p).pidToWait := by
    intro p hp hst
    by_cases hold : s.state.IsProcess p
    · exact ⟨hold, (hc.block p hold).waits hst⟩
    · exact absurd hst (hc.child p hp hold).2.1
  exact {
    table := hc.table
    signals := fun p n hp => by
      by_cases hold : s.state.IsProcess p
      · refine Bool.eq_false_iff.mpr fun hn => ?_
        exact absurd ((hc.block p hold).signals n hn) (by rw [h.signals p n hold]; decide)
      · exact (hc.child p hp hold).2.2 n
    places := fun hx => hc.grows _ (h.places hx)
    marked := fun hp hst => by
      obtain ⟨hold, hst, hpid⟩ := hwaits hp hst
      rw [hpid]
      exact h.marked hold hst
    found := fun hx => by
      obtain ⟨hd, hpid⟩ := h.found hx
      refine ⟨hc.grows _ hd, ?_⟩
      rw [(hc.block _ hd).pid]
      exact hpid
    alive := fun {p t pid} hp ht hpid hwait => by
      by_cases hold : s.state.IsProcess t
      · have hp' : s.state.IsProcess p := by
          rcases hwait with hbetween | ⟨hst, -⟩
          · refine Classical.byContradiction fun hnot => ?_
            rw [show s.point p = none from hnone hnot] at hbetween
            exact hbetween
          · exact (hwaits hp hst).1
        intro hzombie
        rcases (hc.block t hold).zombie hzombie with hdead | hpending
        · refine h.alive hp' hold (by rw [← hpid, (hc.block t hold).pid]) (hwait.imp id ?_) hdead
          rintro ⟨hst, htarget⟩
          exact ⟨(hwaits hp hst).2.1, htarget⟩
        · exact absurd hpending (by rw [h.signals t _ hold]; decide)
      · exact (hc.child t ht hold).1
    awake := fun hp hst => by
      rcases hcur with hcur | hrun
      · unfold current at hst
        rw [hcur] at hst hp ⊢
        obtain ⟨hold, hst, -⟩ := hwaits hp hst
        exact h.awake hold hst
      · exact nomatch hrun.symm.trans hst }

/-- The current process moves on, without a wait, while the rest of the kernel stays as it is. -/
theorem move (h : WaitInv s) {y : Option WaitPoint}
    (hself : s.state.IsProcess s.state.currentProcess)
    (hawake : ∀ pid, s.point s.state.currentProcess ≠ some (.record pid)
      ∧ s.point s.state.currentProcess ≠ some (.block pid))
    (hs : s.state.Served k')
    (hcur : k'.currentProcess = s.state.currentProcess)
    (hfound : ∀ pid d, y = some (.test pid d) →
      s.state.IsProcess d ∧ ((s.state.pcb d).pid : Int) = pid)
    (halive : ∀ t pid, BetweenTestAndRecord pid y → s.state.IsProcess t →
      ((s.state.pcb t).pid : Int) = pid → (s.state.pcb t).state ≠ .zombie) :
    WaitInv ⟨k', Function.update s.point s.state.currentProcess y⟩ := by
  have hc := h.calm (.served h.table hs) (Or.inl hcur)
  -- The current process is not waiting, before and after.
  have hst : (k'.pcb s.state.currentProcess).state ≠ .waitingAnotherProcess := by
    intro hst
    obtain ⟨pid, hpoint | hpoint⟩ := h.awake hself ((hs.block _).waits hst)
    · exact (hawake pid).1 hpoint
    · exact (hawake pid).2 hpoint
  exact {
    table := hc.table
    signals := hc.signals
    places := fun hp => by
      rcases Program.point_update hp with ⟨rfl, -⟩ | ⟨-, hp⟩
      · exact (hs.isProcess _).mpr hself
      · exact hc.places hp
    marked := fun {p} hp hwait => by
      by_cases hpc : p = s.state.currentProcess
      · exact absurd (hpc ▸ hwait) hst
      · show ∃ pid, Function.update s.point _ y p = _ ∨ (Function.update s.point _ y p).bind _ = _ ∧ _
        rw [Function.update_of_ne hpc]
        exact hc.marked hp hwait
    found := fun {p pid d} hp => by
      rcases Program.point_update hp with ⟨-, hy⟩ | ⟨-, hp⟩
      · obtain ⟨hd, hpid⟩ := hfound pid d hy
        refine ⟨(hs.isProcess d).mpr hd, ?_⟩
        rw [(hs.block d).pid]
        exact hpid
      · exact hc.found hp
    alive := fun {p t pid} hp ht hpid hwait => by
      by_cases hpc : p = s.state.currentProcess
      · subst hpc
        dsimp only at hwait
        rw [Function.update_self] at hwait
        rcases hwait with hbetween | ⟨hwait, -⟩
        · have ht' := (hs.isProcess t).mp ht
          have hpid' : ((s.state.pcb t).pid : Int) = pid := by rw [← hpid, (hs.block t).pid]
          intro hzombie
          rcases (hs.block t).zombie hzombie with hdead | hpending
          · exact halive t pid hbetween ht' hpid' hdead
          · exact absurd hpending (by rw [h.signals t _ ht']; decide)
        · exact absurd hwait hst
      · dsimp only at hwait
        rw [Function.update_of_ne hpc] at hwait
        exact hc.alive hp ht hpid hwait
    awake := fun _ hwait => by
      rw [current, hcur] at hwait
      exact absurd hwait hst }

/-- The current process leaves the CPU behind its wait, or for good. -/
theorem leaves (h : WaitInv s) {x : WaitPoint} {y : Option WaitPoint}
    (hx : s.point s.state.currentProcess = some x)
    (hxy : (∃ pid, x = .block pid ∧ y = some (.returnZero pid)) ∨ x = .leave ∧ y = none)
    (hs : s.state.Served k') (hrun : k'.current.state = .running) :
    WaitInv ⟨k', Function.update s.point s.state.currentProcess y⟩ := by
  have hc := h.calm (.served h.table hs) (Or.inr hrun)
  have hx' : (⟨k', s.point⟩ : Preemptible Kernel WaitPoint).point s.state.currentProcess = some x := hx
  -- What the process waits for is what it waited for.
  have htarget : y.bind WaitPoint.target = x.target := by
    rcases hxy with ⟨pid, rfl, rfl⟩ | ⟨rfl, rfl⟩ <;> rfl
  have hbetween : ∀ pid, ¬ BetweenTestAndRecord pid y := by
    rcases hxy with ⟨pid, rfl, rfl⟩ | ⟨rfl, rfl⟩ <;> exact fun _ => id
  exact {
    table := hc.table
    signals := hc.signals
    places := fun hp => by
      rcases Program.point_update hp with ⟨rfl, -⟩ | ⟨-, hp⟩
      · exact hc.places hx'
      · exact hc.places hp
    marked := fun {p} hp hwait => by
      show ∃ pid, Function.update s.point _ y p = _ ∨ (Function.update s.point _ y p).bind _ = _ ∧ _
      obtain ⟨pid, hpoint⟩ := hc.marked hp hwait
      by_cases hpc : p = s.state.currentProcess
      · subst hpc
        rw [Function.update_self, htarget]
        rw [hx'] at hpoint
        rcases hpoint with hrecord | htarget
        · rcases hxy with ⟨pid', rfl, -⟩ | ⟨rfl, -⟩ <;> exact nomatch hrecord
        · exact ⟨pid, Or.inr htarget⟩
      · rw [Function.update_of_ne hpc]
        exact ⟨pid, hpoint⟩
    found := fun {p pid d} hp => by
      rcases Program.point_update hp with ⟨-, hy⟩ | ⟨-, hp⟩
      · rcases hxy with ⟨pid', -, rfl⟩ | ⟨-, rfl⟩ <;> exact nomatch hy
      · exact hc.found hp
    alive := fun {p t pid} hp ht hpid hwait => by
      by_cases hpc : p = s.state.currentProcess
      · subst hpc
        dsimp only at hwait
        rw [Function.update_self] at hwait
        rcases hwait with hy | ⟨hwait, hy⟩
        · exact absurd hy (hbetween pid)
        · refine hc.alive hp ht hpid (Or.inr ⟨hwait, ?_⟩)
          rw [hx']
          exact htarget.symm.trans hy
      · dsimp only at hwait
        rw [Function.update_of_ne hpc] at hwait
        exact hc.alive hp ht hpid hwait
    awake := fun _ hwait => nomatch hrun.symm.trans hwait }

/-- The current process writes to its own block, on the way from the test to the `schedule()`. -/
theorem assign (h : WaitInv s) {x y : WaitPoint} {f : PCB → PCB}
    (hx : s.point s.state.currentProcess = some x)
    (hpid : (f s.state.current).pid = s.state.current.pid)
    (hsignals : (f s.state.current).pendingSignals = s.state.current.pendingSignals)
    (hzombie : (f s.state.current).state = .zombie → s.state.current.state = .zombie)
    (hmarked : (f s.state.current).state = .waitingAnotherProcess →
      ∃ pid, y = .record pid ∨ y = .block pid ∧ (f s.state.current).pidToWait = pid)
    (htest : ∀ pid d, y ≠ .test pid d)
    (hwait : ∀ pid, BetweenTestAndRecord pid (some y) ∨ y.target = some pid →
      BetweenTestAndRecord pid (some x)) :
    WaitInv ⟨s.state.modifyCurrent f,
      Function.update s.point s.state.currentProcess (some y)⟩ := by
  have hblock : ∀ p, (s.state.modifyCurrent f).pcb p
      = if p = s.state.currentProcess then f s.state.current else s.state.pcb p := fun p => by
    rw [modifyCurrent, modifyPcb_pcb, current]
  have hpids : ∀ p, ((s.state.modifyCurrent f).pcb p).pid = (s.state.pcb p).pid := fun p => by
    rw [hblock]
    split
    · next hp => rw [hpid, hp]; rfl
    · rfl
  have hdead : ∀ p, ((s.state.modifyCurrent f).pcb p).state = .zombie →
      (s.state.pcb p).state = .zombie := fun p hst => by
    rw [hblock] at hst
    split at hst
    · next hp => rw [hp]; exact hzombie hst
    · exact hst
  have hself := h.places hx
  exact {
    table := ⟨h.table.ends, h.table.dense, fun i p hp => (hpids p).trans (h.table.pids i p hp),
      h.table.size⟩
    signals := fun p n hp => by
      show PCB.isPending ((s.state.modifyCurrent f).pcb p) n = false
      rw [hblock]
      split
      · next hpc =>
          have hn := h.signals p n hp
          rw [hpc] at hn
          unfold PCB.isPending at hn ⊢
          rw [hsignals]
          exact hn
      · exact h.signals p n hp
    places := fun hp => by
      rcases Program.point_update hp with ⟨rfl, -⟩ | ⟨-, hp⟩
      · exact hself
      · exact h.places hp
    marked := fun {p} hp hst => by
      show ∃ pid, Function.update s.point _ (some y) p = _
        ∨ (Function.update s.point _ (some y) p).bind _ = _ ∧ ((s.state.modifyCurrent f).pcb p).pidToWait = _
      have hst' : ((s.state.modifyCurrent f).pcb p).state = .waitingAnotherProcess := hst
      rw [hblock] at hst' ⊢
      by_cases hpc : p = s.state.currentProcess
      · rw [if_pos hpc] at hst' ⊢
        rw [hpc, Function.update_self]
        obtain ⟨pid, rfl | ⟨rfl, hpid⟩⟩ := hmarked hst'
        · exact ⟨pid, Or.inl rfl⟩
        · exact ⟨pid, Or.inr ⟨rfl, hpid⟩⟩
      · rw [if_neg hpc] at hst' ⊢
        rw [Function.update_of_ne hpc]
        exact h.marked hp hst'
    found := fun {p pid d} hp => by
      rcases Program.point_update hp with ⟨-, hy⟩ | ⟨-, hp⟩
      · exact absurd (Option.some.inj hy) (htest pid d)
      · obtain ⟨hd, hpid⟩ := h.found hp
        exact ⟨hd, by rw [← hpid]; exact congrArg Nat.cast (hpids d)⟩
    alive := fun {p t pid} hp ht hpid hpoint => by
      intro hst
      have hpid' : ((s.state.pcb t).pid : Int) = pid := by rw [← hpid]; exact congrArg Nat.cast (hpids t).symm
      refine h.alive hp ht hpid' ?_ (hdead t hst)
      dsimp only at hpoint
      by_cases hpc : p = s.state.currentProcess
      · subst hpc
        rw [Function.update_self] at hpoint
        rw [hx]
        exact Or.inl (hwait pid (hpoint.imp id fun h => h.2))
      · rw [Function.update_of_ne hpc, hblock, if_neg hpc] at hpoint
        exact hpoint
    awake := fun _ hst => by
      have hst' : ((s.state.modifyCurrent f).pcb s.state.currentProcess).state
        = .waitingAnotherProcess := hst
      rw [hblock, if_pos rfl] at hst'
      show ∃ pid, Function.update s.point _ (some y) s.state.currentProcess = _
        ∨ Function.update s.point _ (some y) s.state.currentProcess = _
      rw [Function.update_self]
      obtain ⟨pid, rfl | ⟨rfl, -⟩⟩ := hmarked hst'
      · exact ⟨pid, Or.inl rfl⟩
      · exact ⟨pid, Or.inr rfl⟩ }

/-- `exit_process`, when nobody is about to wait for the process. -/
theorem exits (h : WaitInv s) (hx : s.point s.state.currentProcess = some .exit)
    (hnobody : ∀ q, s.state.IsProcess q →
      ¬ BetweenTestAndRecord s.state.current.pid (s.point q)) :
    WaitInv ⟨s.state.exitSection alg,
      Function.update s.point s.state.currentProcess (some .leave)⟩ := by
  have he := exitSection_exited alg s.state
  have hprocess : ∀ p, (s.state.exitSection alg).IsProcess p ↔ s.state.IsProcess p := fun p => by
    unfold IsProcess
    rw [he.processes]
  have hself := h.places hx
  exact {
    table := {
      ends := by rw [he.processes, he.nProcesses]; exact h.table.ends
      dense := by rw [he.processes, he.nProcesses]; exact h.table.dense
      pids := fun i p hp => (he.pid p).trans (h.table.pids i p (he.processes ▸ hp))
      size := he.nProcesses ▸ h.table.size }
    signals := fun p n hp => Bool.eq_false_iff.mpr fun hn =>
      absurd (he.signals p n hn) (by rw [h.signals p n ((hprocess p).mp hp)]; decide)
    places := fun hp => by
      rcases Program.point_update hp with ⟨rfl, -⟩ | ⟨-, hp⟩
      · exact (hprocess _).mpr hself
      · exact (hprocess _).mpr (h.places hp)
    marked := fun {p} hp hst => by
      obtain ⟨hpc, hst, hwait, -⟩ := he.waits p hst
      show ∃ pid, Function.update s.point _ _ p = _ ∨ (Function.update s.point _ _ p).bind _ = _
        ∧ ((s.state.exitSection alg).pcb p).pidToWait = _
      rw [Function.update_of_ne hpc, hwait]
      exact h.marked ((hprocess p).mp hp) hst
    found := fun {p pid d} hp => by
      rcases Program.point_update hp with ⟨-, hy⟩ | ⟨-, hp⟩
      · exact nomatch hy
      · obtain ⟨hd, hpid⟩ := h.found hp
        exact ⟨(hprocess d).mpr hd, by rw [← hpid]; exact congrArg Nat.cast (he.pid d)⟩
    alive := fun {p t pid} hp ht hpid hpoint => by
      intro hst
      have hp' := (hprocess p).mp hp
      have ht' := (hprocess t).mp ht
      have hpid' : ((s.state.pcb t).pid : Int) = pid := by
        rw [← hpid]
        exact congrArg Nat.cast (he.pid t).symm
      dsimp only at hpoint
      by_cases hpc : p = s.state.currentProcess
      · subst hpc
        rw [Function.update_self] at hpoint
        rcases hpoint with hbetween | ⟨-, htarget⟩
        · exact hbetween
        · exact nomatch htarget
      · rw [Function.update_of_ne hpc] at hpoint
        rcases he.zombie t hst with rfl | hdead | hpending
        · -- The one that exits is the one that `p` waits for.
          rcases hpoint with hbetween | ⟨hwait, htarget⟩
          · exact hnobody p hp' (hpid' ▸ hbetween)
          · obtain ⟨-, hwait, -, hother⟩ := he.waits p hwait
            obtain ⟨pid', hrecord | ⟨htarget', hrecorded⟩⟩ := h.marked hp' hwait
            · rw [hrecord] at htarget
              have hpp : pid' = pid := Option.some.inj htarget
              refine hnobody p hp' ?_
              rw [hrecord]
              exact hpp.trans hpid'.symm
            · refine hother hp' (hrecorded.trans ?_)
              exact (Option.some.inj (htarget'.symm.trans htarget)).trans hpid'.symm
        · refine h.alive hp' ht' hpid' (hpoint.imp id ?_) hdead
          rintro ⟨hwait, htarget⟩
          exact ⟨(he.waits p hwait).2.1, htarget⟩
        · exact absurd hpending (by rw [h.signals t _ ht']; decide)
    awake := fun _ hst => absurd he.currentProcess (he.waits _ hst).1 }

/-- A statement of the two system calls. -/
theorem statement (h : WaitInv s) (hallowed : NobodyBegins s .statement) {x : WaitPoint}
    (hx : s.point s.state.currentProcess = some x) {s' : Preemptible Kernel WaitPoint}
    (hs : waitProgram.proceed alg s (waitStatement alg s.state x) = some s') : WaitInv s' := by
  have hself := h.places hx
  -- Most places come before the mark or behind the wait.
  have hawake : (∀ pid, x ≠ .record pid ∧ x ≠ .block pid) → ∀ pid,
      s.point s.state.currentProcess ≠ some (.record pid)
        ∧ s.point s.state.currentProcess ≠ some (.block pid) := by
    intro hne pid
    rw [hx]
    exact ⟨fun h => (hne pid).1 (Option.some.inj h), fun h => (hne pid).2 (Option.some.inj h)⟩
  cases x with
  | search pid =>
      simp only [waitStatement] at hs
      split at hs
      · obtain rfl := Option.some.inj hs
        exact h.move hself (hawake fun _ => by simp) (.returnToUser _ _) rfl
          (fun _ _ hy => (nomatch hy)) fun _ _ hb => (nomatch hb)
      · next d hd =>
          obtain rfl := Option.some.inj hs
          refine h.move hself (hawake fun _ => by simp) (.refl _) rfl ?_ fun _ _ hb => (nomatch hb)
          intro pid' d' hy
          obtain ⟨rfl, rfl⟩ := WaitPoint.test.inj (Option.some.inj hy)
          exact searchProcess_isProcess hd
  | test pid d =>
      obtain ⟨hd, hpid⟩ := h.found hx
      simp only [waitStatement] at hs
      split at hs
      · obtain rfl := Option.some.inj hs
        exact h.move hself (hawake fun _ => by simp) (.waitReturn _ _) rfl
          (fun _ _ hy => (nomatch hy)) fun _ _ hb => (nomatch hb)
      · next hlive =>
          obtain rfl := Option.some.inj hs
          refine h.move hself (hawake fun _ => by simp) (.refl _) rfl
            (fun _ _ hy => (nomatch hy)) ?_
          -- There is one process with the pid, the one that was tested.
          intro t pid' hb ht htpid
          have htd : t = d := h.table.pid_inj ht hd
            (Int.ofNat.inj (htpid.trans ((show pid = pid' from hb).symm.trans hpid.symm)))
          exact htd ▸ hlive
  | markWaiting pid =>
      obtain rfl := Option.some.inj hs
      exact h.assign (f := fun b => b.withState .waitingAnotherProcess) hx rfl rfl
        (fun h => (nomatch h)) (fun _ => ⟨pid, Or.inl rfl⟩) (fun _ _ h => (nomatch h)) fun pid' hy =>
          hy.elim id fun h => Option.some.inj h
  | record pid =>
      obtain rfl := Option.some.inj hs
      exact h.assign (f := fun b => { b with pidToWait := pid }) hx rfl rfl id
        (fun _ => ⟨pid, Or.inr ⟨rfl, rfl⟩⟩) (fun _ _ h => (nomatch h)) fun pid' hy =>
          hy.elim (fun h => (nomatch h)) fun h => Option.some.inj h
  | block pid =>
      obtain ⟨k', hpick, rfl⟩ := Option.map_eq_some_iff.mp hs
      exact h.leaves hx (Or.inl ⟨pid, rfl, rfl⟩)
        (.scheduled ((Scheduled.schedule _).trans (.pickNext hpick))) (pickNext_running hpick)
  | returnZero pid =>
      obtain rfl := Option.some.inj hs
      exact h.move hself (hawake fun _ => by simp) (.waitReturn _ _) rfl
        (fun _ _ hy => (nomatch hy)) fun _ _ hb => (nomatch hb)
  | exit =>
      obtain rfl := Option.some.inj hs
      refine h.exits hx ?_
      rintro q ⟨i, hi, hslot⟩
      exact hallowed hx i hi q hslot
  | leave =>
      obtain ⟨k', hpick, rfl⟩ := Option.map_eq_some_iff.mp hs
      exact h.leaves hx (Or.inr ⟨rfl, rfl⟩)
        ((Served.leaves _ _).trans (.scheduled (.pickNext hpick))) (pickNext_running hpick)

end WaitInv

/-! ### Runs -/

theorem waitInv_start (timerClo : Nat → BitVec 32) : WaitInv (Program.start (.boot timerClo)) where
  table := {
    ends := fun i hi => if_neg (by have : 1 ≤ i := hi; omega)
    dense := fun i hi => ⟨.initProcess, if_pos (by have : i < 1 := hi; omega)⟩
    pids := fun i p hp => by
      change (if i = 0 then some PcbPtr.initProcess else none) = some p at hp
      split at hp
      · next hi =>
          obtain rfl := Option.some.inj hp
          rw [hi]
          rfl
      · exact nomatch hp
    size := show 1 ≤ N_PROCESSES by decide }
  signals p n _ := by
    refine Kernel.isPending_zero ?_ n
    show (if p = .initProcess then INIT_PROCESS else PCB.zeroed).pendingSignals = 0
    split <;> rfl
  places hx := nomatch hx
  marked {p} _ hst := by
    change (if p = .initProcess then INIT_PROCESS else PCB.zeroed).state = _ at hst
    split at hst <;> exact nomatch hst
  found hx := nomatch hx
  alive {p t pid} _ _ _ hwait := by
    rcases hwait with hbetween | ⟨-, htarget⟩
    · exact absurd hbetween id
    · exact nomatch htarget
  awake _ hst := nomatch hst

theorem waitInv_step {alg : SchedAlgorithm} {s s' : Preemptible Kernel WaitPoint}
    {e : PreemptionEvent WaitCall} (h : WaitInv s) (hallowed : NobodyBegins s e)
    (hstep : waitProgram.step alg s e = some s') : WaitInv s' := by
  rcases Program.step_cases hstep with ⟨c, rfl, -, hnone, hself, rfl⟩ | ⟨x, rfl, hx, hs⟩
    | ⟨t, k', rfl, -, ht, rfl⟩
  · -- The call begins at its first statement.
    refine h.move hself (fun _ => ⟨?_, ?_⟩) (.refl _) rfl ?_ ?_
    · exact fun hpoint => nomatch hnone.symm.trans hpoint
    · exact fun hpoint => nomatch hnone.symm.trans hpoint
    · intro pid d hy
      cases c <;> exact nomatch hy
    · intro t pid hb
      cases c <;> exact absurd hb id
  · exact h.statement hallowed hx hs
  · have ht' : s.state.step alg t = some k' ∧ (∀ pid, t ≠ .wait pid) ∧ t ≠ .exit := by
      cases t with
      | wait _ | exit => exact nomatch ht
      | _ => exact ⟨ht, fun _ h => (nomatch h), fun h => (nomatch h)⟩
    obtain ⟨hkernel, hwait, hexit⟩ := ht'
    have hsignal : ∀ pid flag, t ≠ .sendSignal pid flag := by
      rintro pid flag rfl
      exact hallowed
    rcases Kernel.step_cases hkernel with hr | ⟨k₁, hr, hpick⟩
    · exact h.calm (Kernel.enter_calm h.table hwait hexit hsignal hr)
        (Or.inl (Kernel.enter_currentProcess hr))
    · exact h.calm ((Kernel.enter_calm h.table hwait hexit hsignal hr).then
        (.scheduled (.pickNext hpick))) (Or.inr (Kernel.pickNext_running hpick))

/-- Nobody waits for a dead process, in a run in which no process exits between another one's
test of its state and that one's write of its pid, and no signal is sent. -/
theorem waits_answered (alg : SchedAlgorithm) (timerClo : Nat → BitVec 32)
    (s : Preemptible Kernel WaitPoint)
    (hrun : waitProgram.Reachable alg NobodyBegins (Program.start (.boot timerClo)) s) :
    ∀ p, ¬ WaitsForZombie s p := by
  have h := hrun.invariant (waitInv_start timerClo) waitInv_step
  rintro p ⟨hp, -, hst, -, pid, t, htarget, hfound, hzombie⟩
  obtain ⟨ht, hpid⟩ := Kernel.searchProcess_isProcess hfound
  exact h.alive hp ht hpid (Or.inr ⟨hst, htarget⟩) hzombie

section Runs

open PreemptionEvent (call statement trap)

/-- Process 1 in user mode, with a child. -/
def parentAndChild : List (PreemptionEvent WaitCall) :=
  [.trap (.kernelMain (some 0)), .trap .timerTick, .trap (.moveToUserMode .empty .zeroed),
    .trap (.fork (some 1) .empty)]

/-- Process 1 waits for its child, the child exits, and process 1 goes on. -/
theorem waits_answered_child :
    ∃ s, waitProgram.run .roundRobin (fun s e => decide (NobodyBegins s e))
        (Program.start (.boot fun _ => 0))
        (parentAndChild ++ call (.wait 2) :: List.replicate 5 statement
          ++ call .exit :: List.replicate 3 statement) = some s
      ∧ s.state.trace.getLast? = some (.waitReturned (.page 0) 2)
      ∧ ∀ p, ¬ WaitsForZombie s p := by
  have hrun : (waitProgram.run .roundRobin (fun s e => decide (NobodyBegins s e))
      (Program.start (.boot fun _ => 0))
      (parentAndChild ++ call (.wait 2) :: List.replicate 5 statement
        ++ call .exit :: List.replicate 3 statement)).map (·.state.trace.getLast?)
      = some (some (.waitReturned (.page 0) 2)) := by decide +kernel
  obtain ⟨s, hs, htrace⟩ := Option.map_eq_some_iff.mp hrun
  exact ⟨s, hs, htrace, waits_answered _ _ _
    (Program.reachable_run (fun _ _ => of_decide_eq_true) hs .start)⟩

/-- Process 1 tests the state of its child, a tick gives the CPU to the child, which exits, and
process 1 goes to sleep. -/
theorem zombie_waited_for :
    ∃ s, waitProgram.run .roundRobin (fun _ _ => true) (Program.start (.boot fun _ => 0))
        (parentAndChild ++ call (.wait 2) :: List.replicate 2 statement
          ++ List.replicate 10 (trap .timerTick) ++ call .exit :: List.replicate 2 statement
          ++ List.replicate 3 statement) = some s
      ∧ WaitsForZombie s (.page 0) := by
  have hrun : (waitProgram.run .roundRobin (fun _ _ => true) (Program.start (.boot fun _ => 0))
      (parentAndChild ++ call (.wait 2) :: List.replicate 2 statement
        ++ List.replicate 10 (trap .timerTick) ++ call .exit :: List.replicate 2 statement
        ++ List.replicate 3 statement)).map (fun s => (decide (s.state.IsProcess (.page 0)
          ∧ .page 0 ≠ s.state.currentProcess
          ∧ (s.state.pcb (.page 0)).state = .waitingAnotherProcess
          ∧ (∀ q ∈ readyQueues, .page 0 ∉ s.state.linkedIn q)
          ∧ (s.point (.page 0)).bind WaitPoint.target = some 2
          ∧ s.state.searchProcess 2 = some (.page 1)
          ∧ (s.state.pcb (.page 1)).state = .zombie))) = some true := by decide +kernel
  obtain ⟨s, hs, hend⟩ := Option.map_eq_some_iff.mp hrun
  obtain ⟨hp, hcur, hst, hlinked, htarget, hfound, hzombie⟩ := of_decide_eq_true hend
  exact ⟨s, hs, hp, hcur, hst, hlinked, 2, .page 1, htarget, hfound, hzombie⟩

end Runs

end DemoOS
