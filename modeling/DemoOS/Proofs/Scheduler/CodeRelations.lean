import DemoOS.Kernel.Run
import DemoOS.Spec.Sched

/-!
# `DemoOS.Proofs.Scheduler.CodeRelations`: relations that kernel code keeps

Many facts bound what kernel code does to the kernel: what it leaves alone, which events it
records. Such a fact is a preorder on kernels. It holds of a system call, a UART interrupt or
a tick if it holds of the assignments and queue operations that these are made of, and this
file walks through their code once. `KeptByCode.enter` covers the system calls and the UART
interrupt, up to their return or their call of `schedule()` (`Ends`), and `KeptByTick.onTick`
the multilevel tick. Creating a process, `set_sched_param` and the rest of the tick are left
to each relation.

Nothing is asked of the ready queues.
-/

set_option autoImplicit false

namespace DemoOS

open Kernel

/-! ### The multilevel tick -/

/-- A preorder on kernels that the operations of the multilevel tick keep. -/
structure Kernel.KeptByTick (R : Kernel → Kernel → Prop) : Prop where
  refl : ∀ k, R k k
  trans : ∀ {k k' k''}, R k k' → R k' k'' → R k k''
  dequeue : ∀ k q, R k (k.dequeueProcessFrom q).1
  enqueue : ∀ k q p, R k (k.enqueueProcessTo q p)
  levels : ∀ k levels ticks, R k { k with queueLevel := levels, mlTicksSinceBoost := ticks }

namespace Kernel.KeptByTick

variable {R : Kernel → Kernel → Prop} {alg : SchedAlgorithm} {k k' : Kernel}

theorem boostQueue (hR : KeptByTick R) {q fuel : Nat} (h : k.boostQueue q fuel = some k') :
    R k k' := by
  induction fuel generalizing k with
  | zero => exact nomatch h
  | succ fuel ih =>
      have hdequeue := hR.dequeue k (.mlQueue q)
      unfold Kernel.boostQueue at h
      obtain ⟨k₁, next, hnext⟩ : ∃ k₁ next, k.dequeueProcessFrom (.mlQueue q) = (k₁, next) :=
        ⟨_, _, rfl⟩
      rw [hnext] at h hdequeue
      cases next with
      | none =>
          obtain rfl := Option.some.inj h
          exact hdequeue
      | some p =>
          have hlevel := hR.trans hdequeue (hR.levels k₁
            (Function.update k₁.queueLevel (k₁.pcb p).pid 0) k₁.mlTicksSinceBoost)
          exact hR.trans (hR.trans hlevel (hR.enqueue _ (.mlQueue 0) p)) (ih h)

theorem boost (hR : KeptByTick R) {policy : MultilevelPolicy} (h : k.boost policy = some k') :
    R k k' := by
  have hqueues : ∀ (levels : List Nat) {k k' : Kernel},
      levels.foldlM (fun k q => Kernel.boostQueue q (N_PROCESSES + 1) k) k = some k' →
        R k k' := by
    intro levels
    induction levels with
    | nil =>
        intro k k' h
        obtain rfl := Option.some.inj h
        exact hR.refl k
    | cons q levels ih =>
        intro k k' h
        obtain ⟨k₁, hone, hrest⟩ := Option.bind_eq_some_iff.mp h
        exact hR.trans (hR.boostQueue hone) (ih hrest)
  have hcount := hR.levels k k.queueLevel (k.mlTicksSinceBoost + 1)
  unfold Kernel.boost at h
  dsimp only at h
  split at h
  · obtain ⟨k₁, hmoved, hk'⟩ := Option.bind_eq_some_iff.mp h
    obtain rfl := Option.some.inj hk'
    exact hR.trans (hR.trans hcount (hqueues _ hmoved)) (hR.levels k₁ _ 0)
  · obtain rfl := Option.some.inj h
    exact hcount

theorem demote (hR : KeptByTick R) (policy : MultilevelPolicy) (k : Kernel) :
    R k (k.demote policy) := by
  unfold Kernel.demote
  dsimp only
  split
  · exact hR.levels k _ k.mlTicksSinceBoost
  · exact hR.refl k

theorem multilevelOnTick (hR : KeptByTick R) (h : k.multilevelOnTick alg = some k') : R k k' := by
  obtain ⟨policy, -, h⟩ := Option.bind_eq_some_iff.mp h
  dsimp only at h
  split at h
  · obtain ⟨k₁, hboost, hk'⟩ := Option.bind_eq_some_iff.mp h
    obtain rfl := Option.some.inj hk'
    exact hR.trans (hR.boost hboost) (hR.demote policy k₁)
  · obtain rfl := Option.some.inj h
    exact hR.demote policy k

/-- `active_algorithm->on_tick`, where there is one. -/
theorem onTick (hR : KeptByTick R) (h : alg.onTick k = some k') : R k k' := by
  cases alg with
  | mlq | mlfq => exact hR.multilevelOnTick h
  | _ =>
      obtain rfl := Option.some.inj h
      exact hR.refl k

end Kernel.KeptByTick

/-! ### Assignments -/

/-- The assignment keeps the pid, the time slice, the preemption count and the priority. -/
structure PCB.KeepsAccount (f : PCB → PCB) : Prop where
  pid : ∀ b, (f b).pid = b.pid
  counter : ∀ b, (f b).counter = b.counter
  preemptDisabled : ∀ b, (f b).preemptDisabled = b.preemptDisabled
  priority : ∀ b, (f b).priority = b.priority

/-- A preorder on kernels that the assignments and queue operations of system calls keep. -/
structure Kernel.KeptByCode (alg : SchedAlgorithm) (R : Kernel → Kernel → Prop) : Prop where
  refl : ∀ k, R k k
  trans : ∀ {k k' k''}, R k k' → R k' k'' → R k k''
  block : ∀ (k : Kernel) p f, PCB.KeepsAccount f → R k (k.modifyPcb p f)
  devices : ∀ (k : Kernel) owner buffer head tail pgd, R k { k with
    uartOwner := owner, uartBuffer := buffer, uartHead := head, uartTail := tail, ttbr0 := pgd }
  log : ∀ (k : Kernel) {e : KernelEvent}, e.isNote = true → R k (k.log e)
  enqueue : ∀ (k : Kernel) p, R k (k.enqueueProcess alg p)
  disabled : ∀ {k k' : Kernel}, R k.preemptDisable k' → R k k'.preemptEnable

/-- The code ends in a return or in a call of `schedule()`, and is related up to there. -/
inductive Kernel.Ends (R : Kernel → Kernel → Prop) (k : Kernel) : Kernel × Control → Prop
  | returns {k' : Kernel} : R k k' → Ends R k (k', .returns)
  | schedules {k' : Kernel} : R k k' → Ends R k k'.schedule

/-- The traps that neither create a process nor write levels or parameters, except for the
tick. -/
def Trap.isPlain : Trap → Bool
  | .kernelMain _ | .fork _ _ | .setSchedParam _ _ _ | .timerTick => false
  | _ => true

namespace Kernel

theorem guarded {c : Prop} [Decidable c] {x r : Kernel × Control}
    (h : (if c then some x else none) = some r) : c ∧ x = r := by
  split at h
  · next hc => exact ⟨hc, Option.some.inj h⟩
  · exact nomatch h

/-- Reading moves the tail of the console's ring and nothing else. -/
theorem readUart_eq (maxLen fuel : Nat) (k : Kernel) (line : List (BitVec 8)) :
    ∃ tail, (readUart maxLen fuel k line).1 = { k with uartTail := tail } := by
  induction fuel generalizing k line with
  | zero => exact ⟨k.uartTail, rfl⟩
  | succ fuel ih =>
      have hmoved : ∀ line', ∃ tail,
          (readUart maxLen fuel { k with uartTail := (k.uartTail + 1) % UART_BUFFER_SIZE } line').1
            = { k with uartTail := tail } := fun line' =>
        ih { k with uartTail := (k.uartTail + 1) % UART_BUFFER_SIZE } line'
      unfold readUart
      split
      · exact ⟨k.uartTail, rfl⟩
      · dsimp only
        split
        · exact ⟨_, rfl⟩
        · split
          · exact hmoved _
          · split <;> exact hmoved _

/-- The receive-timeout loop does nothing. -/
theorem foldl_timeoutWord (timeoutFifo : List (BitVec 32)) (k : Kernel) :
    timeoutFifo.foldl timeoutWord k = k := by
  induction timeoutFifo with
  | nil => rfl
  | cons dr timeoutFifo ih => exact ih

/-- `syscall_yield` sets a counter that `schedule()` sets again. -/
theorem syscallYield_eq (k : Kernel) : k.syscallYield = k.schedule := by
  have hcurrent : (k.setCounter k.currentProcess 0).current = k.current.withCounter 0 :=
    Kernel.modifyPcb_pcb_self k _ _
  unfold syscallYield schedule
  simp only [hcurrent]
  split
  · next hends =>
      have hends' : k.currentProcess ≠ .initProcess ∧ k.current.state ≠ .running
          ∧ k.current.state ≠ .ready := hends
      rw [if_pos hends']
      simp [setCounter, modifyCurrent, modifyPcb, PCB.withCounter]
  · next hends =>
      have hends' : ¬ (k.currentProcess ≠ .initProcess ∧ k.current.state ≠ .running
          ∧ k.current.state ≠ .ready) := hends
      rw [if_neg hends']
      simp [setCounter, modifyPcb, PCB.withCounter]

namespace Ends

variable {R : Kernel → Kernel → Prop} {k k' : Kernel} {r : Kernel × Control}

/-- Code that returns is related throughout. -/
theorem related (h : Ends R k (k', .returns)) : R k k' := by
  generalize hr : (k', Control.returns) = r at h
  cases h with
  | returns h =>
      obtain rfl := (Prod.mk.inj hr).1
      exact h
  | schedules h => exact nomatch (Prod.mk.inj hr).2

end Ends

namespace KeptByCode

variable {R : Kernel → Kernel → Prop} {alg : SchedAlgorithm} {k k' : Kernel} {p : PcbPtr}
  {r : Kernel × Control} (hR : KeptByCode alg R)
include hR

theorem setState (k : Kernel) (p : PcbPtr) (st : ProcessState) : R k (k.setState p st) :=
  hR.block k p (fun b => b.withState st) ⟨fun _ => rfl, fun _ => rfl, fun _ => rfl, fun _ => rfl⟩

theorem suspendAt (k : Kernel) (point : ResumePoint) : R k (k.suspendAt point) :=
  hR.block k _ (fun b => { b with resume := point })
    ⟨fun _ => rfl, fun _ => rfl, fun _ => rfl, fun _ => rfl⟩

theorem before (h : R k k') (h' : Ends R k' r) : Ends R k r := by
  cases h' with
  | returns h' => exact .returns (hR.trans h h')
  | schedules h' => exact .schedules (hR.trans h h')

theorem returnToUser (k : Kernel) (value : Int) : R k (k.returnToUser value).1 :=
  hR.trans (hR.block k _
    (fun b => { b with regs := b.regs.setRegister0 (BitVec.ofInt 64 value) })
    ⟨fun _ => rfl, fun _ => rfl, fun _ => rfl, fun _ => rfl⟩) (hR.suspendAt _ .user)

theorem returns (k : Kernel) (value : Int) : Ends R k (k.returnToUser value) :=
  .returns (hR.returnToUser k value)

/-- A process leaves the CPU at a resume point. -/
theorem leaves (k : Kernel) (point : ResumePoint) : Ends R k (k.suspendAt point).schedule :=
  .schedules (hR.suspendAt k point)

/-- The wake-up loops. -/
theorem wakeProcesses (waits : PCB → Bool) (wake : PCB → PCB) (hwake : PCB.KeepsAccount wake)
    (slots : List Nat) (k : Kernel) : R k (k.wakeProcesses alg waits wake slots) := by
  induction slots generalizing k with
  | nil => exact hR.refl k
  | cons i slots ih =>
      have hstep : R k (Kernel.wakeProcesses alg waits wake [i] k) := by
        unfold Kernel.wakeProcesses
        rw [List.foldl_cons, List.foldl_nil]
        split
        · exact hR.refl k
        · next p _ =>
            split
            · have hwoken := hR.trans (hR.block k p wake hwake) (hR.setState _ p .ready)
              exact hR.trans hwoken (hR.enqueue _ _)
            · exact hR.refl k
      exact hR.trans hstep (ih _)

/-! ### Messages -/

theorem pushMessage {message : Message} (h : k.pushMessage alg p message = some k') : R k k' := by
  obtain ⟨buffer, -, h⟩ := Option.bind_eq_some_iff.mp h
  have hring : R k (k.modifyPcb p fun b => { b with messagesBuffer := buffer }) :=
    hR.block k p _ ⟨fun _ => rfl, fun _ => rfl, fun _ => rfl, fun _ => rfl⟩
  have hstored := hR.trans hring (hR.log _ (e := .pushed message) rfl)
  dsimp only at h
  split at h
  · obtain rfl := Option.some.inj h
    exact hR.trans (hR.trans hstored (hR.setState _ _ _)) (hR.enqueue _ _)
  · obtain rfl := Option.some.inj h
    exact hstored

theorem sendMessage (k : Kernel) (source destination : PcbPtr) (body : Body) :
    Ends R k (k.sendMessage alg source destination body) := by
  unfold Kernel.sendMessage
  dsimp only
  split
  · next k₁ hpush => exact hR.before (hR.pushMessage hpush) (hR.returns k₁ 0)
  · exact hR.before (hR.setState k source _) (hR.leaves _ _)

theorem receiveMessage (k : Kernel) (destination : PcbPtr) :
    Ends R k (k.receiveMessage alg destination) := by
  unfold Kernel.receiveMessage
  split
  · next k₁ message hpop =>
      obtain ⟨⟨buffer, m⟩, -, h⟩ := Option.bind_eq_some_iff.mp hpop
      obtain ⟨rfl, -⟩ := Prod.mk.inj (Option.some.inj h)
      have hring : R k (k.modifyPcb destination fun b => { b with messagesBuffer := buffer }) :=
        hR.block k _ _ ⟨fun _ => rfl, fun _ => rfl, fun _ => rfl, fun _ => rfl⟩
      have hreceived := hR.trans hring (hR.log _ (e := .received destination message.body) rfl)
      have hwoken := hR.wakeProcesses (fun b => b.state = .waitingToSendMessage) id
        ⟨fun _ => rfl, fun _ => rfl, fun _ => rfl, fun _ => rfl⟩ (List.range N_PROCESSES)
      exact .returns (hR.trans (hR.trans hreceived (hwoken _)) (hR.suspendAt _ .user))
  · exact hR.before (hR.setState k _ _) (hR.leaves _ _)

/-! ### The console -/

theorem inputRead (k : Kernel) (maxLen : Nat) (line : List (BitVec 8)) :
    Ends R k (k.inputRead maxLen line) := by
  have hread : R k (Kernel.readUart maxLen UART_BUFFER_SIZE k line).1 := by
    obtain ⟨tail, htail⟩ := readUart_eq maxLen UART_BUFFER_SIZE k line
    rw [htail]
    exact hR.devices k k.uartOwner k.uartBuffer k.uartHead tail k.ttbr0
  unfold Kernel.inputRead
  dsimp only
  split
  · have hfree := fun k : Kernel =>
      hR.devices k none k.uartBuffer k.uartHead k.uartTail k.ttbr0
    exact hR.before (hR.trans (hR.trans hread (hfree _)) (hR.log _ rfl)) (hR.returns _ _)
  · exact hR.before (hR.trans hread (hR.setState _ _ _)) (hR.leaves _ _)

theorem syscallInput (k : Kernel) (len : Int) : Ends R k (k.syscallInput len) := by
  unfold Kernel.syscallInput
  split
  · exact hR.leaves k _
  · exact hR.before (hR.devices k (some k.currentProcess) k.uartBuffer k.uartHead k.uartTail
      k.ttbr0) (hR.inputRead _ _ _)

theorem receiveWord (k : Kernel) (dr : BitVec 32) : R k (k.receiveWord alg dr) := by
  have hwake := fun slots => hR.wakeProcesses (fun b => b.state = .waitingUartInput) id
    ⟨fun _ => rfl, fun _ => rfl, fun _ => rfl, fun _ => rfl⟩ slots
  unfold Kernel.receiveWord
  dsimp only
  split
  · exact hR.refl k
  · split
    · exact hR.trans (hR.devices k k.uartOwner _ _ k.uartTail k.ttbr0) (hwake _ _)
    · exact hwake _ k

theorem handleUartIrq (k : Kernel) (mis : BitVec 32) (fifo timeoutFifo : List (BitVec 32)) :
    R k (k.handleUartIrq alg mis fifo timeoutFifo) := by
  have hfifo : ∀ (fifo : List (BitVec 32)) (k : Kernel),
      R k (fifo.foldl (Kernel.receiveWord alg) k) := by
    intro fifo
    induction fifo with
    | nil => exact hR.refl
    | cons dr fifo ih => exact fun k => hR.trans (hR.receiveWord k dr) (ih _)
  simp only [Kernel.handleUartIrq, foldl_timeoutWord, ite_self]
  split
  · exact hfifo fifo k
  · exact hR.refl k

/-! ### Waiting, signals and exit -/

theorem waitReturn (k : Kernel) (pid : Int) : Ends R k (k.waitReturn pid) :=
  hR.before (hR.log k rfl) (hR.returns _ 0)

theorem syscallWait (k : Kernel) (pid : Int) : Ends R k (k.syscallWait pid) := by
  unfold Kernel.syscallWait
  split
  · exact hR.returns k _
  · dsimp only
    split
    · exact hR.before (hR.log k rfl) (hR.returns _ 0)
    · have hwait : R (k.setState k.currentProcess .waitingAnotherProcess)
          ((k.setState k.currentProcess .waitingAnotherProcess).modifyCurrent fun b =>
            { b with pidToWait := pid }) :=
        hR.block _ _ _ ⟨fun _ => rfl, fun _ => rfl, fun _ => rfl, fun _ => rfl⟩
      exact hR.before (hR.trans (hR.setState k _ _) hwait) (hR.leaves _ _)

theorem syscallSendSignal (k : Kernel) (pid signalFlag : Int) :
    Ends R k (k.syscallSendSignal pid signalFlag) := by
  unfold Kernel.syscallSendSignal
  split
  · exact hR.returns k _
  · next p _ =>
      have hraised : R k (k.sendSignal p signalFlag) :=
        hR.block k p _ ⟨fun _ => rfl, fun _ => rfl, fun _ => rfl, fun _ => rfl⟩
      exact hR.before hraised (hR.returns _ 0)

theorem exitProcess (k : Kernel) : Ends R k (k.exitProcess alg) := by
  have hwoken : ∀ waits, R k.preemptDisable
      ((k.preemptDisable.setState k.preemptDisable.currentProcess .zombie).wakeProcesses alg waits
        (fun b => { b with pidToWait := -1 }) (List.range N_PROCESSES)) := fun waits =>
    hR.trans (hR.setState _ _ _)
      (hR.wakeProcesses waits (fun b => { b with pidToWait := -1 })
        ⟨fun _ => rfl, fun _ => rfl, fun _ => rfl, fun _ => rfl⟩ _ _)
  exact hR.before (hR.disabled (hwoken _)) (hR.leaves _ _)

/-! ### Traps -/

theorem resumeCurrent (h : k.resumeCurrent alg = some r) : Ends R k r := by
  unfold Kernel.resumeCurrent at h
  split at h
  · obtain rfl := Option.some.inj h
    exact hR.sendMessage k _ _ _
  · obtain rfl := Option.some.inj h
    exact hR.receiveMessage k _
  · obtain rfl := Option.some.inj h
    exact hR.syscallInput k _
  · obtain rfl := Option.some.inj h
    exact hR.inputRead k _ _
  · obtain rfl := Option.some.inj h
    exact hR.waitReturn k _
  · exact nomatch h

/-- The code of a plain trap. -/
theorem enter {t : Trap} (ht : t.isPlain = true) (h : k.enter alg t = some r) : Ends R k r := by
  cases t with
  | kernelMain _ | fork _ _ | setSchedParam _ _ _ | timerTick => exact nomatch ht
  | exit => exact (guarded h).2 ▸ hR.exitProcess k
  | wait pid => exact (guarded h).2 ▸ hR.syscallWait k pid
  | yield =>
      obtain ⟨-, rfl⟩ := guarded h
      rw [syscallYield_eq]
      exact .schedules (hR.refl k)
  | sendMessage pid body =>
      obtain ⟨-, rfl⟩ := guarded h
      unfold Kernel.syscallSendMessage
      split
      · exact hR.returns k _
      · exact hR.sendMessage k _ _ _
  | receiveMessage => exact (guarded h).2 ▸ hR.receiveMessage k _
  | input len => exact (guarded h).2 ▸ hR.syscallInput k len
  | sendSignal pid flag => exact (guarded h).2 ▸ hR.syscallSendSignal k pid flag
  | resume => exact hR.resumeCurrent h
  | moveToUserMode mm regs =>
      obtain ⟨-, rfl⟩ := guarded h
      have hmm : R k (k.modifyCurrent fun b => { b with mm := mm, regs := regs }) :=
        hR.block k _ _ ⟨fun _ => rfl, fun _ => rfl, fun _ => rfl, fun _ => rfl⟩
      have hspace := fun k : Kernel =>
        hR.devices k k.uartOwner k.uartBuffer k.uartHead k.uartTail mm.pgd
      exact .returns (hR.trans (hR.trans hmm (hR.suspendAt _ .user)) (hspace _))
  | uartIrq mis fifo timeoutFifo =>
      obtain rfl := Option.some.inj h
      exact .returns (hR.handleUartIrq k mis fifo timeoutFifo)

end KeptByCode

end Kernel

end DemoOS
