import DemoOS.Spec.Messages
import DemoOS.Proofs.Scheduler.Code
import DemoOS.Proofs.Scheduler.CodeRelations

/-!
# `DemoOS.Proofs.Scheduler.Traps`: every trap is a list of actions

The remaining kernel code: process creation and exit, the console, the timer tick with
its multilevel boost, and the UART interrupt. `enter_code` collects all traps.
-/

set_option autoImplicit false

namespace DemoOS

open Kernel Support

/-! ### Process creation -/

section Fork
variable {alg : SchedAlgorithm} {dep : Departure} {k : Kernel} {s : Sched} {p : PcbPtr}

/-- The block of a child does not depend on its parent's link. -/
theorem childPcb_unlinked (parent : PCB) (cloneFlags : BitVec 64) (mm : MmStruct) (pid : Nat) :
    childPcb parent.unlinked cloneFlags mm pid = childPcb parent cloneFlags mm pid := rfl

/-- `add_process_to_scheduler` for the block that `copy_process` has filled in. -/
theorem addProcess_refines (h : Refines k s) (hinv : s.Inv alg)
    {cloneFlags : BitVec 64} {mm : MmStruct}
    (hg : (Action.register p cloneFlags mm).Guard alg s) :
    ∃ k', (k.modifyPcb p fun _ => childPcb k.current cloneFlags mm k.nProcesses).addProcessToScheduler
        alg p = some k' ∧ Refines k' ((Action.register p cloneFlags mm).apply alg s) := by
  obtain ⟨hp, hn⟩ := hg
  have hfree : ¬ s.IsLinked p := fun hl => hp (hinv.linked_registered hl).1
  have hne : p ≠ .initProcess := fun he => hp (he ▸ hinv.table.registered_init)
  have hparent : childPcb k.current cloneFlags mm k.nProcesses
      = childPcb (s.block s.currentProcess) cloneFlags mm s.nProcesses := by
    rw [h.block_eq, childPcb_unlinked, h.nProcesses, Kernel.current, h.currentProcess]
  rw [hparent]
  obtain ⟨b, hb⟩ : ∃ b, b = childPcb (s.block s.currentProcess) cloneFlags mm s.nProcesses :=
    ⟨_, rfl⟩
  have hpid : b.pid = s.nProcesses := by rw [hb]; rfl
  have hstate : b.state = .ready := by rw [hb]; rfl
  rw [← hb]
  have hk := h.replacePcb hfree (b := b) (by rw [hb]; rfl)
  have hself : (k.modifyPcb p fun _ => b).pcb p = b := modifyPcb_pcb_self ..
  have hroom : ¬ ((k.modifyPcb p fun _ => b).nProcesses ≥ N_PROCESSES
      ∨ s.nProcesses ≥ N_PROCESSES) := by
    have : (k.modifyPcb p fun _ => b).nProcesses = s.nProcesses := h.nProcesses
    omega
  have hproc : (k.modifyPcb p fun _ => b).processes = s.processes := h.processes
  unfold addProcessToScheduler
  simp only [hself, hpid, hstate, if_neg hroom, if_true, hproc]
  refine ⟨_, rfl, ?_⟩
  simp only [Action.apply, ← hb]
  -- The table grows before the insertion, and its size after it.
  have hlevel := (hk.setProcesses (Function.update s.processes s.nProcesses (some p))).updateLevel
    s.nProcesses (startLevel alg b.queuePriority)
  have henqueue := hlevel.enqueueProcess alg hne hfree fun q => Nat.le_of_lt (hinv.length_lt q)
  exact henqueue.incrementProcesses

/-- `copy_process`. Where it fails it leaves preemption disabled. -/
theorem copyProcess_does (h : Refines k s) (hinv : s.Inv alg) {page : Option Nat}
    (hfresh : k.PageFresh page) (cloneFlags : BitVec 64) (mm : MmStruct) :
    ∃ as s', Exec alg s as s' ∧ (∀ a ∈ as, a.Stays)
      ∧ Refines (k.copyProcess alg cloneFlags page mm).1 s' ∧ s'.uartOwner = s.uartOwner := by
  obtain ⟨s₁, hs₁⟩ : ∃ s₁, s₁ = (Action.edit s.currentProcess (.preempt 1)).apply alg s := ⟨_, rfl⟩
  obtain ⟨hexec₁, hstays₁⟩ := exec_one alg s (.edit s.currentProcess (.preempt 1)) rfl trivial
  rw [← hs₁] at hexec₁
  have h₁ : Refines k.preemptDisable s₁ := hs₁ ▸ h.preemptDisable
  have howner₁ : s₁.uartOwner = s.uartOwner := by rw [hs₁]; rfl
  unfold Kernel.copyProcess
  cases page with
  | none => exact ⟨_, s₁, hexec₁, hstays₁, h₁, howner₁⟩
  | some n =>
      have hp : ¬ s₁.Registered (.page n) := by
        rintro ⟨i, hi, hslot⟩
        rw [← h₁.processes] at hslot
        exact hfresh n rfl i hi hslot
      obtain ⟨hexec₂, hstays₂⟩ := exec_one alg s₁ (.clear (.page n)) hp trivial
      have hinv₁ := hinv.exec hexec₁
      have h₂ : Refines (k.preemptDisable.modifyPcb (.page n) fun _ => .zeroed)
          ((Action.clear (.page n)).apply alg s₁) :=
        h₁.replacePcb (fun hl => hp (hinv₁.linked_registered hl).1) rfl
      have hexec₁₂ := exec_append.mpr ⟨_, hexec₁, hexec₂⟩
      have hstays₁₂ : ∀ a ∈ [Action.edit s.currentProcess (.preempt 1)] ++ [.clear (.page n)],
          a.Stays := fun a ha => (List.mem_append.mp ha).elim (hstays₁ a) (hstays₂ a)
      dsimp only
      split
      · exact ⟨_, _, hexec₁₂, hstays₁₂, h₂, howner₁⟩
      · next hn =>
          rw [h₂.nProcesses] at hn
          have hg : (Action.register (.page n) cloneFlags mm).Guard alg
              ((Action.clear (.page n)).apply alg s₁) := ⟨hp, Nat.lt_of_not_le hn⟩
          obtain ⟨k₃, hk₃, h₃⟩ := addProcess_refines h₂ (hinv.exec hexec₁₂) hg
          obtain ⟨hexec₃, hstays₃⟩ := exec_one _ _ _ hg trivial
          obtain ⟨hexec₄, hstays₄⟩ := exec_one alg ((Action.register (.page n) cloneFlags mm).apply alg
              ((Action.clear (.page n)).apply alg s₁)) (.edit s₁.currentProcess (.preempt (-1))) rfl trivial
          rw [hk₃]
          refine ⟨_, _, exec_append.mpr ⟨_, hexec₁₂, exec_append.mpr ⟨_, hexec₃, hexec₄⟩⟩,
            fun a ha => ?_, h₃.preemptEnable, howner₁⟩
          rcases List.mem_append.mp ha with ha | ha
          · exact hstays₁₂ a ha
          · exact (List.mem_append.mp ha).elim (hstays₃ a) (hstays₄ a)

/-- `syscall_fork`. -/
theorem syscallFork_code (h : Serving alg k s) {page : Option Nat} (hfresh : k.PageFresh page)
    (mm : MmStruct) : ∃ as s₁, Code alg dep s as s₁ (k.syscallFork alg page mm) := by
  obtain ⟨as, s', hexec, hstays, hk, howner⟩ := copyProcess_does h.refines h.inv hfresh 0 mm
  obtain ⟨bs, s₁, hcode⟩ := (h.step hexec hstays hk howner).returnToUser dep
    (k.copyProcess alg 0 page mm).2
  exact ⟨_, s₁, hcode.prepend hexec hstays⟩

/-- Init never owns the console. -/
theorem owner_ne_init (hinv : s.Inv alg) : s.uartOwner ≠ some .initProcess := by
  intro howner
  have hread := (hinv.points.owner howner).2
  rcases hinv.points.init with hinit | hinit <;> rw [hinit] at hread <;> exact nomatch hread

/-- `kernel_main` creates the first process and spins. -/
theorem kernelMain_code (h : Refines k s) (hinv : s.Inv alg)
    (hcur : s.currentProcess = .initProcess) {page : Option Nat} (hfresh : k.PageFresh page) :
    ∃ as s₁, Code alg dep s as s₁
      ((k.copyProcess alg PF_KTHREAD page .empty).1.suspendAt .idle, .returns) := by
  obtain ⟨as, s', hexec, hstays, hk, howner⟩ :=
    copyProcess_does h hinv hfresh PF_KTHREAD .empty
  obtain ⟨hinv', -, hcur'⟩ := hexec.stays hstays hinv fun hne => absurd hcur hne
  rw [hcur] at hcur'
  have hg : (Action.edit s'.currentProcess (.suspendAt .idle)).Guard alg s' :=
    ⟨rfl, by rw [hcur']; exact hinv'.init_not_waiting, fun _ => rfl, (fun _ _ he => nomatch he),
      fun ho => absurd (hcur' ▸ ho) (owner_ne_init hinv')⟩
  obtain ⟨hexec₁, hstays₁⟩ := exec_one _ _ _ hg trivial
  exact ⟨_, _, {
    exec := exec_append.mpr ⟨s', hexec, hexec₁⟩
    refines := hk.suspendAt .idle
    returns := fun _ a ha => (List.mem_append.mp ha).elim (hstays a) (hstays₁ a)
    schedules := fun hr => nomatch hr }⟩

/-- `kernel_process` enters user mode. -/
theorem moveToUserMode_code (h : Serving alg k s) (mm : MmStruct) (regs : PtRegs) :
    ∃ as s₁, Code alg dep s as s₁
      ({ (k.modifyCurrent fun b => { b with mm := mm, regs := regs }).suspendAt .user with
        ttbr0 := mm.pgd }, .returns) := by
  have hg : (Edit.touch (fun b => { b with mm := mm, regs := regs }) fun _ => rfl).Guard s
      s.currentProcess := trivial
  have h₁ := h.edit hg (h.refines.modifyCurrent (f := fun b => { b with mm := mm, regs := regs })
    (fun _ => rfl) fun _ => rfl)
  obtain ⟨as, s₁, hcode⟩ := h₁.toUser dep
  refine Serving.edit_code hg ⟨as, s₁, { hcode with refines := ?_ }⟩
  exact hcode.refines.devices _ _ _ _ _ _ mm.pgd

end Fork

/-! ### Exit -/

section Exit
variable {alg : SchedAlgorithm} {dep : Departure} {k : Kernel} {s : Sched}

/-- Nobody waits for the current process, and it does not own the console. -/
structure Sched.ExitReleased (s : Sched) : Prop where
  owner : s.uartOwner ≠ some s.currentProcess
  waiting : ∀ r, s.Registered r → s.state r = .waitingAnotherProcess →
    (s.block r).pidToWait ≠ (s.block s.currentProcess).pid

theorem Sched.Agrees.exitReleased {s₁ : Sched} (ha : s₁.Agrees s) (h : s.ExitReleased) :
    s₁.ExitReleased where
  owner := by rw [ha.uartOwner, ha.currentProcess]; exact h.owner
  waiting r hr hst := by
    rw [ha.pidToWait, ha.pid, ha.currentProcess]
    exact h.waiting r (ha.registered.mp hr) (ha.state r ▸ hst)

/-- `exit_process`. -/
theorem exitProcess_code (h : Serving alg k s)
    (hexits : ∀ s₁ : Sched, s₁.ExitReleased → dep.exits s₁) :
    ∃ as s₁, Code alg dep s as s₁ (k.exitProcess alg) := by
  have h₁ := h.edit (e := .preempt 1) rfl h.refines.preemptDisable
  obtain ⟨s₁, hs₁⟩ : ∃ s₁, s₁ = s.modify s.currentProcess (Edit.preempt 1).apply := ⟨_, rfl⟩
  rw [← hs₁] at h₁
  have hleave : (Action.leave .zombie).Guard alg s₁ :=
    ⟨h₁.ne_init, h₁.running, Or.inr rfl, PCB.blocked_of_not_waiting rfl, fun hw => by cases hw⟩
  have hinv₂ : ((Action.leave .zombie).apply alg s₁).Inv alg := h₁.inv.apply hleave
  obtain ⟨s₂, hs₂⟩ : ∃ s₂, s₂ = (Action.leave .zombie).apply alg s₁ := ⟨_, rfl⟩
  rw [← hs₂] at hinv₂
  have hcur₂ : s₂.currentProcess = s₁.currentProcess := by rw [hs₂]; rfl
  have hk₂ : Refines (k.preemptDisable.setState k.preemptDisable.currentProcess .zombie) s₂ := by
    rw [hs₂, h₁.refines.currentProcess]
    exact h₁.refines.setState _ _
  have hzombie : s₂.state s₂.currentProcess = .zombie := by
    rw [hcur₂, hs₂]
    exact congrArg PCB.state (Sched.modify_block_self (f := fun b => b.withState .zombie))
  obtain ⟨pid, hpid⟩ : ∃ pid : Int, pid = (s₂.block s₂.currentProcess).pid := ⟨_, rfl⟩
  have hpid' : ((k.preemptDisable.setState k.preemptDisable.currentProcess .zombie).current.pid
      : Int) = pid := by
    rw [hpid, hk₂.block_eq, Kernel.current, hk₂.currentProcess]
    rfl
  obtain ⟨as, s₃, hexec₃, hk₃, has, hproc, hkept, hdone⟩ := wakeProcesses_does hk₂ hinv₂
    (fun b => b.state = .waitingAnotherProcess ∧ b.pidToWait = pid)
    (fun b hb => by rw [decide_eq_true_eq] at hb; rw [hb.1]; rfl) (fun _ => rfl)
    WakeEdit.clearWait (List.range N_PROCESSES) fun i hi => List.mem_range.mp hi
  have hstays₃ : ∀ a ∈ as, a.Stays := fun a ha => by
    rcases has a ha with ⟨p, rfl⟩ | ⟨p, e, rfl, he⟩ <;> trivial
  have howner₃ : s₃.uartOwner = s.uartOwner := by
    rw [hexec₃.uartOwner fun a ha owner he => by
      rcases has a ha with ⟨p, rfl⟩ | ⟨p, e, rfl, -⟩ <;> cases he]
    rw [hs₂, hs₁]
    rfl
  have hcur₃ : s₃.currentProcess = s.currentProcess := by
    rw [hexec₃.currentProcess hstays₃, hcur₂, hs₁]
    rfl
  have hzombie₃ : s₃.state s₃.currentProcess = .zombie := by
    rw [hexec₃.currentProcess hstays₃, Sched.state, hkept s₂.currentProcess]
    · exact hzombie
    · rw [show (s₂.block s₂.currentProcess).state = .zombie from hzombie]
      rfl
  have hreleased : s₃.ExitReleased := by
    refine ⟨by rw [howner₃, hcur₃]; exact h.owner, fun r hr hst hw => ?_⟩
    obtain ⟨i, hi, hslot⟩ := (Sched.registered_congr hproc).mp hr
    have hnot := hdone i (List.mem_range.mpr hi) r hslot
    have hpid₃ : ((s₃.block s₃.currentProcess).pid : Int) = pid := by
      rw [hexec₃.currentProcess hstays₃, hkept s₂.currentProcess, hpid]
      rw [show (s₂.block s₂.currentProcess).state = .zombie from hzombie]
      rfl
    rw [decide_eq_false_iff_not] at hnot
    exact hnot ⟨hst, hw.trans hpid₃⟩
  -- Preemption goes back on, and the process calls the scheduler for the last time.
  have h₄ := hk₃.preemptEnable
  have hg₅ : (Edit.suspendAt .exited).Guard
      (s₃.modify s₃.currentProcess (Edit.preempt (-1)).apply) s₃.currentProcess :=
    ⟨rfl, by rw [Sched.state_modify rfl, hzombie₃]; rfl,
      fun he => absurd (hcur₃ ▸ he) h.ne_init, (fun _ _ he => by cases he),
      fun ho => absurd ho hreleased.owner⟩
  obtain ⟨bs, s₆, hcode, hagrees⟩ := schedule_code alg dep (h₄.suspendAt .exited)
  have hreleased₆ : s₆.ExitReleased := by
    refine hagrees.exitReleased ⟨hreleased.owner, fun r hr hst => ?_⟩
    simp only [Sched.modify_currentProcess]
    rw [Sched.state_modify rfl, Sched.state_modify rfl] at hst
    rw [Sched.modify_field PCB.pidToWait rfl, Sched.modify_field PCB.pidToWait rfl,
      Sched.modify_field PCB.pid rfl, Sched.modify_field PCB.pid rfl]
    exact hreleased.waiting r hr hst
  have hcode₄ := Code.cons (a := .edit _ (.suspendAt .exited)) hg₅ trivial hcode
  have hcode₃ := Code.cons (s := s₃) (a := .edit s₃.currentProcess (.preempt (-1))) rfl trivial hcode₄
  have hcode₂ := hcode₃.prepend hexec₃ hstays₃
  rw [hs₂] at hcode₂
  have hcode₁ := hcode₂.leave hleave (hexits _ hreleased₆) (schedule_schedules _)
  rw [hs₁] at hcode₁
  unfold Kernel.exitProcess
  dsimp only
  rw [hpid']
  exact ⟨_, s₆, Code.cons (a := .edit s.currentProcess (.preempt 1)) rfl trivial hcode₁⟩

end Exit

/-! ### The console -/

section Console
variable {alg : SchedAlgorithm} {dep : Departure} {k : Kernel} {s : Sched}

/-- The line is complete: the console is free again. -/
theorem lineRead_code (h : Refines k s) (hinv : s.Inv alg) (hne : s.currentProcess ≠ .initProcess)
    (hrun : s.state s.currentProcess = .running) (line : List (BitVec 8)) (value : Int) :
    ∃ as s₁, Code alg dep s as s₁
      ((({ k with uartOwner := none } : Kernel).log (.lineRead k.currentProcess line)).returnToUser
        value) := by
  obtain ⟨hexec, hstays⟩ := exec_one alg s (.own none) (Or.inl rfl) trivial
  have hserving : Serving alg { k with uartOwner := none } ((Action.own none).apply alg s) :=
    ⟨h.own none, hinv.exec hexec, hne, hrun, fun he => nomatch he⟩
  obtain ⟨as, s₁, hcode⟩ := Serving.note_code (e := .lineRead k.currentProcess line) rfl
    ((hserving.log (e := .lineRead k.currentProcess line) rfl).returnToUser dep value)
  exact ⟨_, s₁, hcode.prepend hexec hstays⟩

/-- The characters run out before the line ends. -/
theorem waitInput_code (alg : SchedAlgorithm) (dep : Departure) (h : Refines k s)
    (hne : s.currentProcess ≠ .initProcess)
    (hrun : s.state s.currentProcess = .running) (maxLen : Nat) (line : List (BitVec 8)) :
    ∃ as s₁, Code alg dep s as s₁ ((k.setState k.currentProcess .waitingUartInput).suspendAt
      (.inputRead maxLen line)).schedule :=
  block_code .waitingUartInput h hne hrun rfl (fun _ _ hd => nomatch hd) (fun _ => rfl) rfl
    (fun hw => nomatch hw) fun hw => nomatch hw

/-- The `while (1)` of `syscall_input`, when the process goes on in it. -/
theorem inputRead_code (h : Refines k s) (hinv : s.Inv alg)
    (hne : s.currentProcess ≠ .initProcess) (hrun : s.state s.currentProcess = .running)
    (maxLen : Nat) (line : List (BitVec 8)) :
    ∃ as s₁, Code alg dep s as s₁ (k.inputRead maxLen line) := by
  obtain ⟨tail, htail⟩ := readUart_eq maxLen UART_BUFFER_SIZE k line
  have hk := h.devices k.mlTicksSinceBoost k.lotteryRngState k.timerClo k.uartBuffer k.uartHead
    tail k.ttbr0
  unfold Kernel.inputRead
  simp only [htail]
  split
  · exact lineRead_code hk hinv hne hrun _ _
  · exact waitInput_code alg dep hk hne hrun _ _

/-- A resume point that is recorded twice. -/
theorem setState_suspendAt (k : Kernel) (st : ProcessState) (point : ResumePoint) :
    (((k.suspendAt point).setState k.currentProcess st).suspendAt point)
      = ((k.setState k.currentProcess st).suspendAt point) := by
  simp [Kernel.suspendAt, Kernel.setState, Kernel.modifyCurrent, Kernel.modifyPcb, PCB.withState]

/-- The process takes the console and waits for input. -/
theorem takeConsole_code (h : Refines k s) (hne : s.currentProcess ≠ .initProcess)
    (hrun : s.state s.currentProcess = .running) (maxLen : Nat) (line : List (BitVec 8)) :
    ∃ as s₁, Code alg dep s as s₁
      ((Kernel.setState { k with uartOwner := some k.currentProcess } k.currentProcess
        .waitingUartInput).suspendAt (.inputRead maxLen line)).schedule := by
  have hg : (Edit.suspendAt (.inputRead maxLen line)).Guard s s.currentProcess :=
    ⟨rfl, by rw [hrun]; rfl, fun he => absurd he hne, (fun _ _ he => nomatch he), fun _ => rfl⟩
  obtain ⟨s', hs'⟩ : ∃ s', s' = s.modify s.currentProcess
    (Edit.suspendAt (.inputRead maxLen line)).apply := ⟨_, rfl⟩
  have hcur : s'.currentProcess = s.currentProcess := by rw [hs']; rfl
  have hread : (s'.block s'.currentProcess).resume.isInputRead = true := by
    rw [hcur, hs', Sched.modify_block_self]
    rfl
  obtain ⟨hexec, hstays⟩ := exec_one alg s' (.own (some k.currentProcess))
    (Or.inr ⟨by rw [h.currentProcess, hcur], hread⟩) trivial
  have hk : Refines (k.suspendAt (.inputRead maxLen line)) s' := hs' ▸ h.suspendAt _
  obtain ⟨as, s₁, hcode⟩ := waitInput_code alg dep
    (hk.own (some k.currentProcess)) (hcur ▸ hne)
    (by rw [← hrun, hs']; exact Sched.state_modify rfl) maxLen line
  refine Serving.edit_code hg (hs' ▸ ⟨_ ++ as, s₁, Code.prepend ?_ hexec hstays⟩)
  obtain ⟨k₁, hk₁⟩ : ∃ k₁ : Kernel, k₁ = { k with uartOwner := some k.currentProcess } := ⟨_, rfl⟩
  have hcode' : Code alg dep ((Action.own (some k.currentProcess)).apply alg s') as s₁ (((k₁.suspendAt (.inputRead maxLen line)).setState
      k₁.currentProcess .waitingUartInput).suspendAt (.inputRead maxLen line)).schedule := by
    rw [hk₁]
    exact hcode
  rw [setState_suspendAt, hk₁] at hcode'
  exact hcode'

/-- `syscall_input`. The process records that it reads the console before it takes it. -/
theorem syscallInput_code (h : Serving alg k s) (len : Int) :
    ∃ as s₁, Code alg dep s as s₁ (k.syscallInput len) := by
  unfold Kernel.syscallInput
  split
  · have hg : (Edit.suspendAt (.inputOwner len)).Guard s s.currentProcess :=
      ⟨rfl, by rw [h.running]; rfl, fun he => absurd he h.ne_init, (fun _ _ he => nomatch he),
        fun ho => absurd ho h.owner⟩
    obtain ⟨as, s₁, hcode, -⟩ := schedule_code alg dep
      (h.refines.suspendAt (.inputOwner len))
    exact Serving.edit_code hg ⟨as, s₁, hcode⟩
  · obtain ⟨maxLen, hmaxLen⟩ : ∃ n, n = (if len > 0 then (len - 1).toNat else 0) := ⟨_, rfl⟩
    rw [← hmaxLen]
    obtain ⟨tail, htail⟩ := readUart_eq maxLen UART_BUFFER_SIZE
      { k with uartOwner := some k.currentProcess } []
    obtain ⟨line, hline⟩ : ∃ line, line = (readUart maxLen UART_BUFFER_SIZE
      { k with uartOwner := some k.currentProcess } []).2.1 := ⟨_, rfl⟩
    have hk := h.refines.devices k.mlTicksSinceBoost k.lotteryRngState k.timerClo k.uartBuffer
      k.uartHead tail k.ttbr0
    unfold Kernel.inputRead
    simp only [htail, ← hline]
    split
    · exact lineRead_code hk h.inv h.ne_init h.running _ _
    · exact takeConsole_code hk h.ne_init h.running maxLen line

end Console

/-! ### Interrupts -/

section Interrupts
variable {alg : SchedAlgorithm} {dep : Departure} {k : Kernel} {s : Sched}

/-- Kernel code whose actions are all of the kind `A`. -/
def Leads (alg : SchedAlgorithm) (A : Action → Prop) (s : Sched) (k' : Kernel) : Prop :=
  ∃ as s', Exec alg s as s' ∧ (∀ a ∈ as, A a) ∧ Refines k' s'

section Leads
variable {A : Action → Prop}

theorem Leads.refl (h : Refines k s) : Leads alg A s k := ⟨[], s, rfl, by simp, h⟩

theorem Leads.one {a : Action} (hg : a.Guard alg s) (ha : A a) (h : Refines k (a.apply alg s)) :
    Leads alg A s k :=
  ⟨[a], _, ⟨hg, rfl⟩, fun b hb => by rwa [List.mem_singleton.mp hb], h⟩

/-- One action in front of such code. -/
theorem Leads.cons {a : Action} (hg : a.Guard alg s) (ha : A a)
    (h : Leads alg A (a.apply alg s) k) : Leads alg A s k := by
  obtain ⟨as, s₁, hexec, hall, hk⟩ := h
  refine ⟨a :: as, s₁, ⟨hg, hexec⟩, fun b hb => ?_, hk⟩
  rcases List.mem_cons.mp hb with rfl | hb
  · exact ha
  · exact hall b hb

/-- More actions in front of such code. -/
theorem Leads.prepend {as : List Action} {s' : Sched} (hexec : Exec alg s as s')
    (hall : ∀ a ∈ as, A a) (h : Leads alg A s' k) : Leads alg A s k := by
  obtain ⟨bs, s₁, hexec', hall', hk⟩ := h
  exact ⟨as ++ bs, s₁, exec_append.mpr ⟨s', hexec, hexec'⟩,
    fun a ha => (List.mem_append.mp ha).elim (hall a) (hall' a), hk⟩

end Leads

theorem Leads.code (h : Leads alg Action.Stays s k) (dep : Departure) :
    ∃ as s₁, Code alg dep s as s₁ (k, .returns) := by
  obtain ⟨as, s₁, hexec, hstays, hk⟩ := h
  exact ⟨as, s₁, hexec, hk, fun _ => hstays, fun hr => nomatch hr⟩

/-- One word from the receive FIFO. -/
theorem receiveWord_does (h : Refines k s) (hinv : s.Inv alg) (dr : BitVec 32) :
    Leads alg Action.Stays s (k.receiveWord alg dr) := by
  unfold Kernel.receiveWord
  dsimp only
  split
  · exact .refl h
  · have hslots : ∀ i ∈ List.range k.nProcesses, i < N_PROCESSES := fun i hi => by
      have := hinv.table.bound
      rw [h.nProcesses] at hi
      exact Nat.lt_of_lt_of_le (List.mem_range.mp hi) this
    have hwake : ∀ {k₁ : Kernel}, Refines k₁ s → k₁.nProcesses = k.nProcesses →
        Leads alg Action.Stays s (k₁.wakeProcesses alg (fun b => b.state = .waitingUartInput) id
          (List.range k₁.nProcesses)) := fun {k₁} hk₁ hn => by
      rw [hn]
      obtain ⟨as, s₁, hexec, hk, has, -, -, -⟩ := wakeProcesses_does hk₁ hinv
        (fun b => b.state = .waitingUartInput)
        (fun b hb => by rw [decide_eq_true_eq] at hb; rw [hb]; rfl) (fun _ => rfl)
        WakeEdit.keep _ hslots
      exact ⟨as, s₁, hexec, fun a ha => by
        rcases has a ha with ⟨p, rfl⟩ | ⟨p, e, rfl, he⟩ <;> trivial, hk⟩
    split
    · exact hwake (h.devices k.mlTicksSinceBoost k.lotteryRngState k.timerClo _ _ k.uartTail
        k.ttbr0) rfl
    · exact hwake h rfl

/-- `handle_uart_irq`. -/
theorem handleUartIrq_does (h : Refines k s) (hinv : s.Inv alg) (mis : BitVec 32)
    (fifo timeoutFifo : List (BitVec 32)) :
    Leads alg Action.Stays s (k.handleUartIrq alg mis fifo timeoutFifo) := by
  have hreceive : ∀ (fifo : List (BitVec 32)) {k : Kernel} {s : Sched}, Refines k s → s.Inv alg →
      Leads alg Action.Stays s (fifo.foldl (receiveWord alg) k) := by
    intro fifo
    induction fifo with
    | nil => exact fun h _ => .refl h
    | cons dr fifo ih =>
        intro k s h hinv
        obtain ⟨as, s₁, hexec, hstays, hk⟩ := receiveWord_does h hinv dr
        exact .prepend hexec hstays (ih hk (hinv.exec hexec))
  simp only [Kernel.handleUartIrq, foldl_timeoutWord, ite_self]
  split
  · exact hreceive fifo h hinv
  · exact .refl h

/-- The actions of the multilevel tick. -/
def Action.Ticks : Action → Prop
  | .promote _ _ | .setLevel _ _ | .resetLevels => True
  | _ => False

theorem Action.Ticks.stays {a : Action} (h : a.Ticks) : a.Stays := by
  cases a <;> trivial

/-- The multilevel tick changes queues and levels only. -/
theorem Exec.ticks {as : List Action} {s' : Sched} (hexec : Exec alg s as s')
    (hticks : ∀ a ∈ as, a.Ticks) :
    s'.block = s.block ∧ s'.processes = s.processes ∧ s'.uartOwner = s.uartOwner :=
  hexec.invariant
    (P := fun t => t.block = s.block ∧ t.processes = s.processes ∧ t.uartOwner = s.uartOwner)
    (fun t a ha _ ht => by cases a <;> first | exact ht | exact absurd ha id) hticks
    ⟨rfl, rfl, rfl⟩

/-- A ready process that has left its queue is inserted again at the top level. -/
theorem enqueue_promote {q : Nat} {p : PcbPtr} (hready : s.state p = .ready) :
    (({ s.unlink p with
        queueLevel := Function.update s.queueLevel (s.block p).pid 0 } : Sched).enqueue .mlfq p)
      = (Action.promote q p).apply .mlfq s := by
  have hblock : Function.update s.block p ((s.block p).withState .ready) = s.block := by
    rw [← show s.state p = .ready from hready]
    exact Function.update_eq_self p s.block
  simp [Sched.enqueue, Sched.queueOf, Action.apply, SchedAlgorithm.queueAt, SchedAlgorithm.place,
    hblock]

/-- The boost moves one process. -/
theorem promote_refines {k₁ : Kernel} {q : Nat} {p : PcbPtr} (h : Refines k₁ (s.unlink p))
    (hinv : s.Inv .mlfq) (hp : s.IsLinked p) :
    Refines (enqueueProcessTo
      { k₁ with queueLevel := Function.update k₁.queueLevel (s.block p).pid 0 } (.mlQueue 0) p)
      ((Action.promote q p).apply .mlfq s) := by
  have hpid : (k₁.pcb p).pid = (s.block p).pid := by
    rw [← Sched.unlink_block (s := s) (p := p), h.block_eq]
    rfl
  have henqueue := (h.updateLevel (s.block p).pid 0).enqueue .mlfq
    (hinv.linked_registered hp).2 (fun hl => (Sched.isLinked_unlink.mp hl).2 rfl) fun q' => by
      have := hinv.length_lt q'
      exact Nat.le_of_lt (Nat.lt_of_le_of_lt (List.length_filter_le _ _) this)
  have hlevel : Function.update k₁.queueLevel (s.block p).pid 0 (k₁.pcb p).pid = 0 := by
    rw [hpid, Function.update_self]
  change Refines (enqueueProcessTo _
    (.mlQueue (Function.update k₁.queueLevel (s.block p).pid 0 (k₁.pcb p).pid)) p) _ at henqueue
  rw [hlevel] at henqueue
  rw [← enqueue_promote (hinv.linked_ready hp)]
  exact henqueue

/-- The boost empties one lower queue into the top one. -/
theorem boostQueue_does {q : Nat} (hq : q ≠ 0) {fuel : Nat} (h : Refines k s)
    (hinv : s.Inv .mlfq) (hfuel : (s.queue (.mlQueue q)).length < fuel) :
    ∃ k', boostQueue q fuel k = some k' ∧ Leads .mlfq Action.Ticks s k' := by
  induction fuel generalizing k s with
  | zero => exact absurd hfuel (Nat.not_lt_zero _)
  | succ fuel ih =>
      unfold boostQueue
      cases hl : s.queue (.mlQueue q) with
      | nil => exact ⟨k, by rw [dequeueProcessFrom_nil h.linked hl], .refl h⟩
      | cons p l =>
          obtain ⟨k₁, hk₁, h₁⟩ := h.dequeueProcessFrom hl
          have hp : p ∈ s.queue (.mlQueue q) := by rw [hl]; simp
          have hlinked : s.IsLinked p := ⟨_, hp⟩
          have hg : (Action.promote q p).Guard .mlfq s := ⟨rfl, hq, hp⟩
          have hpid : (k₁.pcb p).pid = (s.block p).pid := by
            rw [← Sched.unlink_block (s := s) (p := p), h₁.block_eq]
            rfl
          have hpromote := promote_refines (q := q) h₁ hinv hlinked
          have hlen : (((Action.promote q p).apply .mlfq s).queue (.mlQueue q)).length < fuel := by
            have hfree : p ∉ l := by
              have := hinv.queues.nodup (.mlQueue q)
              rw [hl] at this
              exact (List.nodup_cons.mp this).1
            have hrest : ((Action.promote q p).apply .mlfq s).queue (.mlQueue q) = l := by
              show Function.update _ _ _ _ = _
              rw [Function.update_of_ne (by simp [hq]), Sched.unlink_queue, hl,
                List.filter_cons_of_neg (by simp), filter_ne_eq_self hfree]
            rw [hrest]
            rw [hl] at hfuel
            simpa using hfuel
          obtain ⟨k', hk', hleads⟩ := ih hpromote (hinv.promote hg) hlen
          refine ⟨k', ?_, .cons hg trivial hleads⟩
          rw [hk₁]
          dsimp only
          rw [hpid]
          exact hk'

/-- The boost over several lower queues. -/
theorem boostQueues_does (levels : List Nat) (hlevels : ∀ q ∈ levels, q ≠ 0) (h : Refines k s)
    (hinv : s.Inv .mlfq) :
    ∃ k', levels.foldlM (fun k q => boostQueue q (N_PROCESSES + 1) k) k = some k'
      ∧ Leads .mlfq Action.Ticks s k' := by
  induction levels generalizing k s with
  | nil => exact ⟨k, rfl, .refl h⟩
  | cons q levels ih =>
      obtain ⟨k₁, hk₁, as, s₁, hexec, hstays, h₁⟩ := boostQueue_does (hlevels q (by simp)) h hinv
        (Nat.lt_succ_of_lt (hinv.length_lt _))
      obtain ⟨k', hk', hleads⟩ := ih (fun q' hq' => hlevels q' (by simp [hq'])) h₁
        (hinv.exec hexec)
      refine ⟨k', ?_, .prepend hexec hstays hleads⟩
      rw [List.foldlM_cons, hk₁]
      exact hk'

/-- The demotion of the multilevel tick. -/
theorem demote_does (h : Refines k s) (policy : MultilevelPolicy)
    (hlevels : policy.nLevels = ML_MAX_LEVELS) : Leads alg Action.Ticks s (demote policy k) := by
  unfold Kernel.demote
  dsimp only
  split
  · next hcond =>
      have hg : (Action.setLevel k.current.pid (k.queueLevel k.current.pid + 1)).Guard alg s := by
        have : k.queueLevel k.current.pid < policy.nLevels - 1 := hcond.2.2.2.2
        have h5 : ML_MAX_LEVELS = 5 := rfl
        show k.queueLevel k.current.pid + 1 < ML_MAX_LEVELS
        omega
      exact .one hg trivial (h.updateLevel _ _)
  · exact .refl h

/-- `active_algorithm->on_tick`. -/
theorem onTick_does (h : Refines k s) (hinv : s.Inv alg) :
    ∃ k', alg.onTick k = some k' ∧ Leads alg Action.Ticks s k' := by
  have hnone : ∃ k', some k = some k' ∧ Leads alg Action.Ticks s k' := ⟨k, rfl, .refl h⟩
  cases alg with
  | mlq => exact ⟨_, rfl, demote_does h mlPolicyMlq rfl⟩
  | mlfq =>
      have hcounted := h.devices (k.mlTicksSinceBoost + 1) k.lotteryRngState k.timerClo
        k.uartBuffer k.uartHead k.uartTail k.ttbr0
      have hboost : ∃ k₁, boost mlPolicyMlfq k = some k₁ ∧ Leads .mlfq Action.Ticks s k₁ := by
        unfold Kernel.boost
        dsimp only
        split
        · obtain ⟨k₁, hk₁, as, s₁, hexec, hstays, h₁⟩ := boostQueues_does
            (List.range' 1 (mlPolicyMlfq.nLevels - 1)) (by decide) hcounted hinv
          rw [hk₁]
          refine ⟨_, rfl, .prepend hexec hstays (.one (a := .resetLevels) rfl trivial ?_)⟩
          exact h₁.resetLevels.devices 0 k₁.lotteryRngState k₁.timerClo k₁.uartBuffer k₁.uartHead
            k₁.uartTail k₁.ttbr0
        · exact ⟨_, rfl, .refl hcounted⟩
      obtain ⟨k₁, hk₁, as, s₁, hexec, hstays, h₁⟩ := hboost
      refine ⟨demote mlPolicyMlfq k₁, ?_, .prepend hexec hstays (demote_does h₁ mlPolicyMlfq rfl)⟩
      show (do let k ← boost mlPolicyMlfq k; return demote mlPolicyMlfq k) = _
      rw [hk₁]
      rfl
  | _ => exact hnone

/-- The two assignments that charge a tick to the current process. -/
theorem charge_eq (k : Kernel) :
    (k.setCounter k.currentProcess (k.current.counter - 1)).modifyCurrent
      (fun b => { b with burstTicks := b.burstTicks + 1 }) = k.modifyCurrent Edit.charge.apply := by
  simp [Kernel.modifyCurrent, Kernel.setCounter, Kernel.modifyPcb, Kernel.current, Edit.apply,
    PCB.withCounter]

/-- A tick, up to the decision about preemption. -/
theorem charge_does (h : Refines k s) (hinv : s.Inv alg) :
    ∃ k', alg.onTick ((k.setCounter k.currentProcess (k.current.counter - 1)).modifyCurrent
        fun b => { b with burstTicks := b.burstTicks + 1 }) = some k'
      ∧ ∃ as s', Exec alg s as s' ∧ (∀ a ∈ as, a.Stays) ∧ Refines k' s'
        ∧ s'.block = (s.modify s.currentProcess Edit.charge.apply).block
        ∧ s'.processes = s.processes ∧ s'.uartOwner = s.uartOwner := by
  have h₁ : Refines (k.modifyCurrent Edit.charge.apply)
      (s.modify s.currentProcess Edit.charge.apply) :=
    h.modifyCurrent (fun _ => rfl) fun _ => rfl
  obtain ⟨hexec₁, hstays₁⟩ := exec_one alg s (.edit s.currentProcess .charge) rfl trivial
  obtain ⟨k₂, hk₂, as, s₂, hexec₂, hticks, h₂⟩ := onTick_does h₁ (hinv.exec hexec₁)
  obtain ⟨hblock, hproc, howner⟩ := hexec₂.ticks hticks
  rw [charge_eq]
  exact ⟨k₂, hk₂, _, s₂, exec_append.mpr ⟨_, hexec₁, hexec₂⟩, fun a ha =>
    (List.mem_append.mp ha).elim (hstays₁ a) fun ha => (hticks a ha).stays, h₂, hblock, hproc,
    howner⟩

/-- `handle_timer_tick`. -/
theorem handleTimerTick_code (dep : Departure) (h : Refines k s) (hinv : s.Inv alg) :
    ∃ r as s₁, k.handleTimerTick alg = some r ∧ Code alg dep s as s₁ r := by
  obtain ⟨k₂, hk₂, as, s₂, hexec, hstays, h₂, -⟩ := charge_does h hinv
  unfold Kernel.handleTimerTick
  simp only [hk₂, Option.bind_eq_bind, Option.bind_some]
  split
  · exact ⟨_, _, s₂, rfl, hexec, h₂, fun _ => hstays, fun hr => nomatch hr⟩
  · cases alg.isPreemptive with
    | true =>
        obtain ⟨bs, s₃, hcode, -⟩ := expire_code alg dep h₂
        exact ⟨_, _, s₃, rfl, hcode.prepend hexec hstays⟩
    | false =>
        have hexpired : Leads alg Action.Stays s₂ (k₂.setCounter k₂.currentProcess 0) :=
          .one (a := .edit s₂.currentProcess .expire) rfl trivial (by
            rw [h₂.currentProcess]
            exact h₂.setCounter _ 0)
        obtain ⟨bs, s₃, hcode⟩ := (Leads.prepend hexec hstays hexpired).code dep
        exact ⟨_, bs, s₃, rfl, hcode⟩

/-- The tick that uses up the time slice of a process with preemption enabled. -/
theorem handleTimerTick_expired (h : Refines k s) (hinv : s.Inv alg)
    (hcounter : k.current.counter ≤ 1) (henabled : k.current.preemptDisabled = 0) :
    ∃ k₁ s₁, k.handleTimerTick alg
        = some (k₁, if alg.isPreemptive then .schedules else .returns)
      ∧ Refines k₁ s₁ ∧ s₁.Inv alg ∧ s₁.Agrees s
      ∧ ∀ r, (s₁.block r).pendingSignals = (s.block r).pendingSignals := by
  obtain ⟨k₂, hk₂, as, s₂, hexec, hstays, h₂, hblock, hproc, howner⟩ := charge_does h hinv
  have hcur : s₂.currentProcess = s.currentProcess := hexec.currentProcess hstays
  have hcharged : k₂.current.unlinked = Edit.charge.apply k.current.unlinked := by
    rw [Kernel.current, ← h₂.block_eq, h₂.currentProcess, hcur, hblock, Sched.modify_block_self,
      h.block_eq, Kernel.current, h.currentProcess]
  have hnot : ¬ (k₂.current.counter > 0 ∨ k₂.current.preemptDisabled > 0) := by
    have h₃ := congrArg PCB.counter hcharged
    have h₄ := congrArg PCB.preemptDisabled hcharged
    change k₂.current.counter = k.current.counter - 1 at h₃
    change k₂.current.preemptDisabled = k.current.preemptDisabled at h₄
    omega
  have hk₃ : Refines (k₂.setCounter k₂.currentProcess 0)
      (s₂.modify s₂.currentProcess Edit.expire.apply) := by
    rw [h₂.currentProcess]
    exact h₂.setCounter _ 0
  have hagrees : s₂.Agrees s := by
    have hcharge : (s.modify s.currentProcess Edit.charge.apply).Agrees s := .modify rfl rfl
    exact {
      currentProcess := hcur
      processes := hproc
      uartOwner := howner
      state := fun r => (congrArg (fun f => (f r).state) hblock).trans (hcharge.state r)
      identity := fun r => (congrArg (fun f => Sched.identity (f r)) hblock).trans
        (hcharge.identity r) }
  refine ⟨_, _, ?_, hk₃, (hinv.exec hexec).edit (e := .expire) rfl,
    .trans (.modify rfl rfl) hagrees, fun r => ?_⟩
  · unfold Kernel.handleTimerTick
    simp only [hk₂, Option.bind_eq_bind, Option.bind_some, if_neg hnot]
    rfl
  · rw [Sched.modify_field PCB.pendingSignals rfl, hblock, Sched.modify_field PCB.pendingSignals rfl]

end Interrupts

/-! ### All traps -/

namespace Kernel

/-- The trap makes the current process wait for room in the ring of `p`. -/
def SendsToFull (k : Kernel) : Trap → PcbPtr → Prop
  | .sendMessage pid _, p => k.searchProcess pid = some p ∧ k.RingFull p
  | .resume, p => (∃ body, k.current.resume = .sendMessage p body) ∧ k.RingFull p
  | _, _ => False

/-- What the trap says of a process that leaves the CPU in it. -/
def departure (k : Kernel) (t : Trap) : Departure where
  exits s₁ := t = .exit ∧ s₁.ExitReleased
  sends := k.SendsToFull t

theorem ringFull_of_push {alg : SchedAlgorithm} {k : Kernel} {p : PcbPtr} {message : Message}
    (h : k.pushMessage alg p message = none) : k.RingFull p := by
  by_contra hfull
  have hpush : ∃ buffer, pcbRing.push (k.pcb p).messagesBuffer message = some buffer :=
    ⟨_, if_neg hfull⟩
  obtain ⟨buffer, hbuffer⟩ := hpush
  unfold pushMessage at h
  rw [hbuffer] at h
  simp only [Option.bind_eq_bind, Option.bind_some] at h
  split at h <;> exact nomatch h

end Kernel

section Enter
variable {alg : SchedAlgorithm} {k : Kernel} {s : Sched}

/-- A process whose resume point is not `kernel_main`'s and does not read the console
serves its own system call. -/
theorem serving_of_resume (h : Refines k s) (hinv : s.Inv alg) (hrun : s.Running)
    (hmain : k.current.resume ≠ .kernelMain) (hidle : k.current.resume ≠ .idle)
    (hread : k.current.resume.isInputRead = false) : Serving alg k s := by
  have hresume : k.current.resume = (s.block s.currentProcess).resume := by
    rw [h.block_eq, Kernel.current, h.currentProcess]
    rfl
  rw [hresume] at hmain hidle hread
  have hne : s.currentProcess ≠ .initProcess := fun he => by
    rw [he] at hmain hidle
    rcases hinv.points.init with hinit | hinit
    · exact hmain hinit
    · exact hidle hinit
  refine ⟨h, hinv, hne, hrun hne, fun howner => ?_⟩
  rw [(hinv.points.owner howner).2] at hread
  cases hread

theorem serving_of_user (h : Refines k s) (hinv : s.Inv alg) (hrun : s.Running)
    (huser : k.InUserMode) : Serving alg k s :=
  serving_of_resume h hinv hrun (by rw [huser.2]; decide) (by rw [huser.2]; decide)
    (by rw [huser.2]; rfl)

/-- The code behind the call of the scheduler that switched a process out. -/
theorem resumeCurrent_code (h : Refines k s) (hinv : s.Inv alg) (hrun : s.Running)
    {r : Kernel × Control} (hr : k.resumeCurrent alg = some r) :
    ∃ as s₁, Code alg (k.departure .resume) s as s₁ r := by
  have hresume : (s.block s.currentProcess).resume = k.current.resume := by
    rw [h.block_eq, Kernel.current, h.currentProcess]
    rfl
  have hserving := serving_of_resume h hinv hrun
  unfold Kernel.resumeCurrent at hr
  cases hpoint : k.current.resume with
  | sendMessage d body =>
      rw [hpoint] at hr hserving hresume
      obtain rfl := Option.some.inj hr
      exact sendMessage_code (hserving (by simp) (by simp) rfl)
        (hinv.points.destination hinv.cpu.current hresume)
        fun hpush => ⟨⟨body, hpoint⟩, ringFull_of_push hpush⟩
  | receiveMessage =>
      rw [hpoint] at hr hserving
      obtain rfl := Option.some.inj hr
      exact receiveMessage_code (hserving (by simp) (by simp) rfl)
  | inputOwner len =>
      rw [hpoint] at hr hserving
      obtain rfl := Option.some.inj hr
      exact syscallInput_code (hserving (by simp) (by simp) rfl) len
  | inputRead maxLen line =>
      rw [hpoint] at hr hresume
      obtain rfl := Option.some.inj hr
      have hne : s.currentProcess ≠ .initProcess := fun he => by
        rw [he] at hresume
        rcases hinv.points.init with hinit | hinit <;> rw [hinit] at hresume <;>
          cases hresume
      exact inputRead_code h hinv hne (hrun hne) maxLen line
  | wait pid =>
      rw [hpoint] at hr hserving
      obtain rfl := Option.some.inj hr
      exact waitReturn_code (hserving (by simp) (by simp) rfl) pid
  | _ => rw [hpoint] at hr; cases hr

/-- Every trap that can happen between two kernel steps is a list of actions. -/
theorem enter_code (h : Refines k s) (hinv : s.Inv alg) (hrun : s.Running) {t : Trap}
    {r : Kernel × Control} (hr : k.enter alg t = some r) :
    ∃ as s₁, Code alg (k.departure t) s as s₁ r := by
  have hserving := serving_of_user h hinv hrun
  cases t with
  | kernelMain page =>
      obtain ⟨⟨hcur, -, hfresh⟩, rfl⟩ := guarded hr
      exact kernelMain_code h hinv (h.currentProcess ▸ hcur) hfresh
  | fork page mm =>
      obtain ⟨⟨huser, hfresh⟩, rfl⟩ := guarded hr
      exact syscallFork_code (hserving huser) hfresh mm
  | exit =>
      obtain ⟨huser, rfl⟩ := guarded hr
      exact exitProcess_code (hserving huser) fun s₁ hs₁ => ⟨rfl, hs₁⟩
  | wait pid =>
      obtain ⟨huser, rfl⟩ := guarded hr
      exact syscallWait_code (hserving huser) pid
  | yield =>
      obtain ⟨huser, rfl⟩ := guarded hr
      exact syscallYield_code (hserving huser)
  | sendMessage pid body =>
      obtain ⟨huser, rfl⟩ := guarded hr
      exact syscallSendMessage_code (hserving huser) fun p hp hpush => ⟨hp, ringFull_of_push hpush⟩
  | receiveMessage =>
      obtain ⟨huser, rfl⟩ := guarded hr
      exact receiveMessage_code (hserving huser)
  | input len =>
      obtain ⟨huser, rfl⟩ := guarded hr
      exact syscallInput_code (hserving huser) len
  | sendSignal pid flag =>
      obtain ⟨huser, rfl⟩ := guarded hr
      exact syscallSendSignal_code (hserving huser) pid flag
  | setSchedParam pid param value =>
      obtain ⟨huser, rfl⟩ := guarded hr
      exact syscallSetSchedParam_code (hserving huser) pid param value
  | resume => exact resumeCurrent_code h hinv hrun hr
  | moveToUserMode mm regs =>
      obtain ⟨hpoint, rfl⟩ := guarded hr
      exact moveToUserMode_code (serving_of_resume h hinv hrun (by rw [hpoint]; decide)
        (by rw [hpoint]; decide) (by rw [hpoint]; rfl)) mm regs
  | timerTick =>
      obtain ⟨r', as, s₁, hr', hcode⟩ := handleTimerTick_code (k.departure .timerTick) h hinv
      obtain rfl : r' = r := Option.some.inj (hr'.symm.trans hr)
      exact ⟨as, s₁, hcode⟩
  | uartIrq mis fifo timeoutFifo =>
      obtain rfl := Option.some.inj hr
      exact (handleUartIrq_does h hinv mis fifo timeoutFifo).code _

end Enter

end DemoOS
