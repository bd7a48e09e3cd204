import DemoOS.Proofs.Scheduler.CodeRelations

/-!
# `DemoOS.Proofs.Scheduler.Lockstep`: two kernels that run the same code

Two kernels that agree on what the code of system calls and of the UART interrupt reads go
through it the same way, each under an algorithm of its own. A relation between the two is kept
if each assignment and queue operation keeps it (`Lockstep`), and `Lockstep.enter` walks through
the code once, up to the return or the call of `schedule()` (`EndTogether`).

The relation need not be about where a process goes on: the code never reads it, except for the
check that the current process is in user mode and the dispatch in `resumeCurrent`.
-/

set_option autoImplicit false

namespace DemoOS

open Kernel

/-- The block without the point at which the process goes on. -/
def PCB.placeless (b : PCB) : PCB := { b with resume := .user }

/-- The two kernels look the same to the code of system calls. -/
structure Kernel.SameView (k l : Kernel) : Prop where
  block : ∀ p, (l.pcb p).placeless = (k.pcb p).placeless
  currentProcess : l.currentProcess = k.currentProcess
  processes : l.processes = k.processes
  nProcesses : l.nProcesses = k.nProcesses
  uartOwner : l.uartOwner = k.uartOwner
  uartBuffer : l.uartBuffer = k.uartBuffer
  uartHead : l.uartHead = k.uartHead
  uartTail : l.uartTail = k.uartTail
  ttbr0 : l.ttbr0 = k.ttbr0

/-- An assignment that leaves the state, the account and the wait condition of the process, and
does not look at where the process goes on. -/
structure PCB.Assigns (f : PCB → PCB) : Prop where
  pid : ∀ b, (f b).pid = b.pid := by intros; rfl
  state : ∀ b, (f b).state = b.state := by intros; rfl
  counter : ∀ b, (f b).counter = b.counter := by intros; rfl
  preemptDisabled : ∀ b, (f b).preemptDisabled = b.preemptDisabled := by intros; rfl
  pidToWait : ∀ b, (f b).pidToWait = b.pidToWait := by intros; rfl
  resume : ∀ b point, f { b with resume := point } = { f b with resume := point } := by
    intros; rfl

theorem PCB.Assigns.resume_eq {f : PCB → PCB} (hf : PCB.Assigns f) (b : PCB) :
    (f b).resume = b.resume :=
  congrArg (fun b => b.resume) (hf.resume b b.resume)

/-- The states in which a process waits for a message, for room in a ring or for a character. -/
def ProcessState.waitsForData : ProcessState → Bool
  | .waitingUartInput | .waitingToReceiveMessage | .waitingToSendMessage => true
  | _ => false

/-- The points at which a process goes on in `syscall_input`. -/
def ResumePoint.isInput : ResumePoint → Bool
  | .inputOwner _ | .inputRead _ _ => true
  | _ => false

/-- The traps that work on the console. -/
def Trap.isConsole : Trap → Bool
  | .input _ | .uartIrq _ _ _ => true
  | _ => false

/-- A relation between two kernels that the assignments and queue operations of system calls other
than `syscall_input` keep. -/
structure Kernel.Lockstep (alg alg' : SchedAlgorithm) (R : Kernel → Kernel → Prop) : Prop where
  same : ∀ {k l}, R k l → SameView k l
  assign : ∀ {k l} p {f}, PCB.Assigns f → R k l → R (k.modifyPcb p f) (l.modifyPcb p f)
  mark : ∀ {k l} st, st.isWaiting = true → st ≠ .waitingUartInput → R k l →
    R (k.setState k.currentProcess st) (l.setState l.currentProcess st)
  waitFor : ∀ {k l} (pid : Int), R k l →
    R (k.modifyCurrent fun b => { b with pidToWait := pid })
      (l.modifyCurrent fun b => { b with pidToWait := pid })
  suspendAt : ∀ {k l} point, point.isInput = false → R k l →
    R (k.suspendAt point) (l.suspendAt point)
  setPgd : ∀ {k l} pgd, R k l → R { k with ttbr0 := pgd } { l with ttbr0 := pgd }
  log : ∀ {k l e}, KernelEvent.isNote e = true → R k l → R (k.log e) (l.log e)
  wake : ∀ {k l} p, (k.pcb p).state.waitsForData = true → R k l →
    R ((k.setState p .ready).enqueueProcess alg p) ((l.setState p .ready).enqueueProcess alg' p)

/-- The relation is kept by `syscall_input` and the UART interrupt as well. -/
structure Kernel.ConsoleLockstep (alg alg' : SchedAlgorithm) (R : Kernel → Kernel → Prop) : Prop
    extends Kernel.Lockstep alg alg' R where
  markInput : ∀ {k l}, R k l → R (k.setState k.currentProcess .waitingUartInput)
    (l.setState l.currentProcess .waitingUartInput)
  suspendInput : ∀ {k l} point, point.isInput = true → R k l →
    R (k.suspendAt point) (l.suspendAt point)
  console : ∀ {k l} owner buffer head tail, R k l →
    R { k with uartOwner := owner, uartBuffer := buffer, uartHead := head, uartTail := tail }
      { l with uartOwner := owner, uartBuffer := buffer, uartHead := head, uartTail := tail }

/-- The two codes end in a return, or in a call of `schedule()`, of related kernels. -/
inductive Kernel.EndTogether (R : Kernel → Kernel → Prop) :
    Kernel × Control → Kernel × Control → Prop
  | returns {k l : Kernel} : R k l → EndTogether R (k, .returns) (l, .returns)
  | schedules {k l : Kernel} : R k l → EndTogether R k.schedule l.schedule

namespace Kernel

/-- Two traps' code behind the same guard. -/
theorem rel_guarded {α β : Type} {S : α → β → Prop} {x : α} {y : β} {c c' : Prop} [Decidable c]
    [Decidable c'] (hguard : c' = c) (h : c → S x y) :
    Option.Rel S (if c then some x else none) (if c' then some y else none) := by
  subst hguard
  by_cases hc : c'
  · rw [if_pos hc, if_pos hc]
    exact .some (h hc)
  · rw [if_neg hc, if_neg hc]
    exact .none

namespace SameView

variable {k l : Kernel} (h : SameView k l)
include h

/-- What does not look at the resume point is the same. -/
theorem field {β : Type} (φ : PCB → β) (hφ : ∀ b, φ b.placeless = φ b) (p : PcbPtr) :
    φ (l.pcb p) = φ (k.pcb p) := by
  rw [← hφ (l.pcb p), h.block p, hφ]

theorem state (p : PcbPtr) : (l.pcb p).state = (k.pcb p).state := h.field PCB.state (fun _ => rfl) p

theorem messagesBuffer (p : PcbPtr) : (l.pcb p).messagesBuffer = (k.pcb p).messagesBuffer :=
  h.field PCB.messagesBuffer (fun _ => rfl) p

theorem searchProcess (pid : Int) : l.searchProcess pid = k.searchProcess pid := by
  have hpid : ∀ p, (l.pcb p).pid = (k.pcb p).pid := h.field PCB.pid fun _ => rfl
  simp only [Kernel.searchProcess, h.processes, hpid]

/-- Reading the console moves the tails in step. -/
theorem readUart (maxLen fuel : Nat) (line : List (BitVec 8)) :
    (Kernel.readUart maxLen fuel l line).2 = (Kernel.readUart maxLen fuel k line).2
      ∧ ∃ tail, (Kernel.readUart maxLen fuel k line).1 = { k with uartTail := tail }
        ∧ (Kernel.readUart maxLen fuel l line).1 = { l with uartTail := tail } := by
  induction fuel generalizing k l line with
  | zero => exact ⟨rfl, k.uartTail, rfl, by rw [← h.uartTail]; rfl⟩
  | succ fuel ih =>
      obtain ⟨pcb, cur, processes, n, queues, levels, ticks, rng, clo, owner, buffer, head, tail,
        pgd, trace⟩ := l
      obtain rfl : head = k.uartHead := h.uartHead
      obtain rfl : tail = k.uartTail := h.uartTail
      obtain rfl : buffer = k.uartBuffer := h.uartBuffer
      have hmoved : SameView { k with uartTail := (k.uartTail + 1) % UART_BUFFER_SIZE }
          ⟨pcb, cur, processes, n, queues, levels, ticks, rng, clo, owner, k.uartBuffer, k.uartHead,
            (k.uartTail + 1) % UART_BUFFER_SIZE, pgd, trace⟩ := { h with uartTail := rfl }
      have hnext := fun line' => ih hmoved line'
      unfold Kernel.readUart
      dsimp only
      split
      · exact ⟨rfl, k.uartTail, rfl, rfl⟩
      · split
        · exact ⟨rfl, _, rfl, rfl⟩
        · split
          · exact hnext _
          · split <;> exact hnext _

end SameView

namespace EndTogether

variable {R R' : Kernel → Kernel → Prop} {r r' : Kernel × Control}

/-- Both go on in the same way. -/
theorem control (h : EndTogether R r r') : r'.2 = r.2 := by
  cases h <;> rfl

/-- The left code, whatever the right one is. -/
theorem left (h : EndTogether R r r') :
    (∃ k l, r = (k, .returns) ∧ R k l) ∨ ∃ k l : Kernel, r = k.schedule ∧ R k l := by
  cases h with
  | returns h => exact Or.inl ⟨_, _, rfl, h⟩
  | schedules h => exact Or.inr ⟨_, _, rfl, h⟩

theorem imp (hR : ∀ {k l}, R k l → R' k l) (h : EndTogether R r r') : EndTogether R' r r' := by
  cases h with
  | returns h => exact .returns (hR h)
  | schedules h => exact .schedules (hR h)

end EndTogether

namespace Lockstep

variable {alg alg' : SchedAlgorithm} {R : Kernel → Kernel → Prop} {k l : Kernel}
  {r r' : Kernel × Control} (hR : Lockstep alg alg' R)
include hR

theorem assignCurrent {f : PCB → PCB} (hf : PCB.Assigns f) (h : R k l) :
    R (k.modifyCurrent f) (l.modifyCurrent f) := by
  unfold modifyCurrent
  rw [(hR.same h).currentProcess]
  exact hR.assign k.currentProcess hf h

theorem returnToUser (value : Int) (h : R k l) :
    EndTogether R (k.returnToUser value) (l.returnToUser value) :=
  .returns (hR.suspendAt .user rfl (hR.assignCurrent {} h))

/-- Both processes leave the CPU at a resume point. -/
theorem leaves (point : ResumePoint) (hpoint : point.isInput = false) (h : R k l) :
    EndTogether R (k.suspendAt point).schedule (l.suspendAt point).schedule :=
  .schedules (hR.suspendAt point hpoint h)

/-- The wake-up loops for data. -/
theorem wakeProcesses (waits : PCB → Bool) (hwaits : ∀ b, waits b = true → b.state.waitsForData = true)
    (hplace : ∀ b, waits b.placeless = waits b) (slots : List Nat) (h : R k l) :
    R (k.wakeProcesses alg waits id slots) (l.wakeProcesses alg' waits id slots) := by
  induction slots generalizing k l with
  | nil => exact h
  | cons i slots ih =>
      have hid : ∀ (k : Kernel) p, k.modifyPcb p id = k := fun k p => by simp [modifyPcb]
      have hone : R (Kernel.wakeProcesses alg waits id [i] k)
          (Kernel.wakeProcesses alg' waits id [i] l) := by
        unfold Kernel.wakeProcesses
        simp only [List.foldl_cons, List.foldl_nil, (hR.same h).processes, hid,
          (hR.same h).field waits hplace]
        split
        · exact h
        · next p _ =>
            split
            · next hw => exact hR.wake p (hwaits _ hw) h
            · exact h
      exact ih hone

/-! ### Messages -/

theorem pushMessage (p : PcbPtr) (message : Message) (h : R k l) :
    Option.Rel R (k.pushMessage alg p message) (l.pushMessage alg' p message) := by
  unfold Kernel.pushMessage
  rw [(hR.same h).messagesBuffer]
  cases pcbRing.push (k.pcb p).messagesBuffer message with
  | none => exact .none
  | some buffer =>
      have hring := hR.assign p (f := fun b => { b with messagesBuffer := buffer }) {} h
      have hstored := hR.log (e := .pushed message) rfl hring
      simp only [Option.bind_eq_bind, Option.bind_some, (hR.same hstored).state]
      split
      · next hwaits =>
          refine .some (hR.wake message.destinationProcess ?_ hstored)
          rw [hwaits]
          rfl
      · exact .some hstored

/-- `source` is the current process wherever the code is called. -/
theorem sendMessage (destination : PcbPtr) (body : Body) (h : R k l) :
    EndTogether R (k.sendMessage alg k.currentProcess destination body)
      (l.sendMessage alg' l.currentProcess destination body) := by
  have hcurrent := (hR.same h).currentProcess
  have hpush := hR.pushMessage destination ⟨k.currentProcess, destination, body⟩ h
  unfold Kernel.sendMessage
  dsimp only
  rw [hcurrent]
  cases hk : k.pushMessage alg destination ⟨k.currentProcess, destination, body⟩ with
  | none =>
      rw [hk] at hpush
      cases hl : l.pushMessage alg' destination ⟨k.currentProcess, destination, body⟩ with
      | none => exact hR.leaves _ rfl (hcurrent ▸ hR.mark .waitingToSendMessage rfl (by decide) h)
      | some l₁ =>
          rw [hl] at hpush
          exact nomatch hpush
  | some k₁ =>
      rw [hk] at hpush
      cases hl : l.pushMessage alg' destination ⟨k.currentProcess, destination, body⟩ with
      | none =>
          rw [hl] at hpush
          exact nomatch hpush
      | some l₁ =>
          rw [hl] at hpush
          cases hpush with
          | some hpush => exact hR.returnToUser 0 hpush

theorem receiveMessage (h : R k l) :
    EndTogether R (k.receiveMessage alg k.currentProcess)
      (l.receiveMessage alg' l.currentProcess) := by
  have hcurrent := (hR.same h).currentProcess
  unfold Kernel.receiveMessage Kernel.popMessage
  rw [hcurrent, (hR.same h).messagesBuffer]
  cases pcbRing.pop (k.pcb k.currentProcess).messagesBuffer with
  | none => exact hR.leaves _ rfl (hcurrent ▸ hR.mark .waitingToReceiveMessage rfl (by decide) h)
  | some popped =>
      obtain ⟨buffer, message⟩ := popped
      have hring := hR.assign k.currentProcess (f := fun b => { b with messagesBuffer := buffer }) {} h
      have hreceived := hR.log (e := .received k.currentProcess message.body) rfl hring
      have hwoken := hR.wakeProcesses (fun b => b.state = .waitingToSendMessage)
        (fun b hb => by rw [of_decide_eq_true hb]; rfl) (fun _ => rfl) (List.range N_PROCESSES)
        hreceived
      exact .returns (hR.suspendAt .user rfl hwoken)

/-! ### Waiting and signals -/

/-- `return 0` of `syscall_wait`. -/
theorem waitReturn (pid : Int) (h : R k l) : EndTogether R (k.waitReturn pid) (l.waitReturn pid) := by
  unfold Kernel.waitReturn
  rw [(hR.same h).currentProcess]
  exact hR.returnToUser 0 (hR.log rfl h)

theorem syscallWait (pid : Int) (h : R k l) :
    EndTogether R (k.syscallWait pid) (l.syscallWait pid) := by
  have hmarked := hR.waitFor pid (hR.mark .waitingAnotherProcess rfl (by decide) h)
  unfold Kernel.syscallWait
  rw [(hR.same h).searchProcess]
  cases k.searchProcess pid with
  | none => exact hR.returnToUser (-1) h
  | some destination =>
      dsimp only
      rw [(hR.same h).state]
      split
      · exact hR.waitReturn pid h
      · exact hR.leaves _ rfl hmarked

theorem syscallSendSignal (pid signalFlag : Int) (h : R k l) :
    EndTogether R (k.syscallSendSignal pid signalFlag) (l.syscallSendSignal pid signalFlag) := by
  unfold Kernel.syscallSendSignal
  rw [(hR.same h).searchProcess]
  cases k.searchProcess pid with
  | none => exact hR.returnToUser (-1) h
  | some destination => exact hR.returnToUser 0 (hR.assign destination {} h)

/-! ### Traps -/

theorem syscallSendMessage (pid : Int) (body : Body) (h : R k l) :
    EndTogether R (k.syscallSendMessage alg pid body) (l.syscallSendMessage alg' pid body) := by
  unfold Kernel.syscallSendMessage
  rw [(hR.same h).searchProcess]
  cases k.searchProcess pid with
  | none => exact hR.returnToUser (-1) h
  | some destination => exact hR.sendMessage destination body h

theorem resumeCurrent (hresume : l.current.resume = k.current.resume)
    (hinput : k.current.resume.isInput = false) (h : R k l) :
    Option.Rel (EndTogether R) (k.resumeCurrent alg) (l.resumeCurrent alg') := by
  unfold Kernel.resumeCurrent
  rw [hresume]
  split
  · next destination body _ => exact .some (hR.sendMessage destination body h)
  · exact .some (hR.receiveMessage h)
  · next hat => exact nomatch hat ▸ hinput
  · next hat => exact nomatch hat ▸ hinput
  · next pid _ => exact .some (hR.waitReturn pid h)
  · exact .none

/-- The code of a plain trap other than `exit`, in kernels whose current process goes on at the
same point outside of `syscall_input`. -/
theorem enter {t : Trap} (ht : t.isPlain = true) (hexit : t ≠ .exit)
    (hconsole : t.isConsole = false) (hresume : l.current.resume = k.current.resume)
    (hinput : t = .resume → k.current.resume.isInput = false) (h : R k l) :
    Option.Rel (EndTogether R) (k.enter alg t) (l.enter alg' t) := by
  have hmode : l.InUserMode = k.InUserMode := by
    unfold Kernel.InUserMode
    rw [(hR.same h).currentProcess, hresume]
  cases t with
  | kernelMain _ | fork _ _ | setSchedParam _ _ _ | timerTick => exact nomatch ht
  | input _ | uartIrq _ _ _ => exact nomatch hconsole
  | exit => exact absurd rfl hexit
  | wait pid => exact rel_guarded hmode fun _ => hR.syscallWait pid h
  | yield =>
      rw [Kernel.enter, Kernel.enter, syscallYield_eq, syscallYield_eq]
      exact rel_guarded hmode fun _ => .schedules h
  | sendMessage pid body => exact rel_guarded hmode fun _ => hR.syscallSendMessage pid body h
  | receiveMessage => exact rel_guarded hmode fun _ => hR.receiveMessage h
  | sendSignal pid flag => exact rel_guarded hmode fun _ => hR.syscallSendSignal pid flag h
  | resume => exact hR.resumeCurrent hresume (hinput rfl) h
  | moveToUserMode mm regs =>
      have hmapped := hR.suspendAt .user rfl
        (hR.assignCurrent (f := fun b => { b with mm := mm, regs := regs }) {} h)
      exact rel_guarded (by rw [hresume]) fun _ => .returns (hR.setPgd mm.pgd hmapped)

end Lockstep

/-! ### The console -/

namespace ConsoleLockstep

variable {alg alg' : SchedAlgorithm} {R : Kernel → Kernel → Prop} {k l : Kernel}
  (hR : ConsoleLockstep alg alg' R)
include hR

theorem setOwner {owner owner' : Option PcbPtr} (howner : owner' = owner) (h : R k l) :
    R { k with uartOwner := owner } { l with uartOwner := owner' } := by
  subst howner
  have hsame := hR.same h
  have hassigned := hR.console owner' k.uartBuffer k.uartHead k.uartTail h
  have hl : { l with
      uartOwner := owner', uartBuffer := k.uartBuffer, uartHead := k.uartHead,
      uartTail := k.uartTail } = { l with uartOwner := owner' } := by
    rw [← hsame.uartBuffer, ← hsame.uartHead, ← hsame.uartTail]
  exact hl ▸ hassigned

theorem setTail (tail : Nat) (h : R k l) :
    R { k with uartTail := tail } { l with uartTail := tail } := by
  have hsame := hR.same h
  have hassigned := hR.console k.uartOwner k.uartBuffer k.uartHead tail h
  have hl : { l with
      uartOwner := k.uartOwner, uartBuffer := k.uartBuffer, uartHead := k.uartHead,
      uartTail := tail } = { l with uartTail := tail } := by
    rw [← hsame.uartOwner, ← hsame.uartBuffer, ← hsame.uartHead]
  exact hl ▸ hassigned

/-- A character stored at the head. -/
theorem setHead {buffer buffer' : Nat → BitVec 8} {head head' : Nat} (hbuffer : buffer' = buffer)
    (hhead : head' = head) (h : R k l) :
    R { k with uartBuffer := buffer, uartHead := head }
      { l with uartBuffer := buffer', uartHead := head' } := by
  subst hbuffer hhead
  have hsame := hR.same h
  have hassigned := hR.console k.uartOwner buffer' head' k.uartTail h
  have hl : { l with
      uartOwner := k.uartOwner, uartBuffer := buffer', uartHead := head',
      uartTail := k.uartTail } = { l with uartBuffer := buffer', uartHead := head' } := by
    rw [← hsame.uartOwner, ← hsame.uartTail]
  exact hl ▸ hassigned

theorem inputRead (maxLen : Nat) (line : List (BitVec 8)) (h : R k l) :
    EndTogether R (k.inputRead maxLen line) (l.inputRead maxLen line) := by
  obtain ⟨hline, tail, hk, hl⟩ := (hR.same h).readUart maxLen UART_BUFFER_SIZE line
  have hread := hR.setTail tail h
  have hcurrent := (hR.same hread).currentProcess
  unfold Kernel.inputRead
  rw [← Prod.eta (Kernel.readUart maxLen UART_BUFFER_SIZE k line),
    ← Prod.eta (Kernel.readUart maxLen UART_BUFFER_SIZE l line), hk, hl, hline]
  dsimp only
  split
  · have hevent : ∀ line, KernelEvent.lineRead l.currentProcess line
        = .lineRead k.currentProcess line := fun line => by rw [show l.currentProcess = _ from hcurrent]
    rw [hevent]
    exact hR.toLockstep.returnToUser _ (hR.log rfl (hR.setOwner rfl hread))
  · exact .schedules (hR.suspendInput (.inputRead maxLen _) rfl (hR.markInput hread))

theorem syscallInput (len : Int) (h : R k l) :
    EndTogether R (k.syscallInput len) (l.syscallInput len) := by
  have hsame := hR.same h
  have howned := hR.setOwner (congrArg some hsame.currentProcess) h
  have hother : (l.uartOwner ≠ none ∧ l.uartOwner ≠ some l.currentProcess)
      = (k.uartOwner ≠ none ∧ k.uartOwner ≠ some k.currentProcess) := by
    rw [hsame.uartOwner, hsame.currentProcess]
  unfold Kernel.syscallInput
  simp only [hother]
  split
  · exact .schedules (hR.suspendInput (.inputOwner len) rfl h)
  · exact hR.inputRead _ _ howned

theorem receiveWord (dr : BitVec 32) (h : R k l) :
    R (k.receiveWord alg dr) (l.receiveWord alg' dr) := by
  have hsame := hR.same h
  have hwake : ∀ {k l : Kernel}, R k l →
      R (k.wakeProcesses alg (fun b => b.state = .waitingUartInput) id (List.range k.nProcesses))
        (l.wakeProcesses alg' (fun b => b.state = .waitingUartInput) id
          (List.range l.nProcesses)) := by
    intro k l h
    rw [(hR.same h).nProcesses]
    exact hR.toLockstep.wakeProcesses _ (fun b hb => by rw [of_decide_eq_true hb]; rfl) (fun _ => rfl) _ h
  have hfull : ((l.uartHead + 1) % UART_BUFFER_SIZE ≠ l.uartTail)
      = ((k.uartHead + 1) % UART_BUFFER_SIZE ≠ k.uartTail) := by
    rw [hsame.uartHead, hsame.uartTail]
  have hhead : (l.uartHead + 1) % UART_BUFFER_SIZE = (k.uartHead + 1) % UART_BUFFER_SIZE := by
    rw [hsame.uartHead]
  have hbuffer : Function.update l.uartBuffer l.uartHead (dr.setWidth 8)
      = Function.update k.uartBuffer k.uartHead (dr.setWidth 8) := by
    rw [hsame.uartHead, hsame.uartBuffer]
  unfold Kernel.receiveWord
  dsimp only
  simp only [hfull]
  split
  · exact h
  · split
    · exact hwake (hR.setHead hbuffer hhead h)
    · exact hwake h

theorem handleUartIrq (mis : BitVec 32) (fifo timeoutFifo : List (BitVec 32)) (h : R k l) :
    R (k.handleUartIrq alg mis fifo timeoutFifo) (l.handleUartIrq alg' mis fifo timeoutFifo) := by
  have hfifo : ∀ (fifo : List (BitVec 32)) {k l : Kernel}, R k l →
      R (fifo.foldl (Kernel.receiveWord alg) k) (fifo.foldl (Kernel.receiveWord alg') l) := by
    intro fifo
    induction fifo with
    | nil => exact id
    | cons dr fifo ih => exact fun h => ih (hR.receiveWord dr h)
  simp only [Kernel.handleUartIrq, foldl_timeoutWord, ite_self]
  split
  · exact hfifo fifo h
  · exact h

/-- The code of a plain trap other than `exit`, in kernels whose current process goes on at the
same point. -/
theorem enter {t : Trap} (ht : t.isPlain = true) (hexit : t ≠ .exit)
    (hresume : l.current.resume = k.current.resume) (h : R k l) :
    Option.Rel (EndTogether R) (k.enter alg t) (l.enter alg' t) := by
  have hmode : l.InUserMode = k.InUserMode := by
    unfold Kernel.InUserMode
    rw [(hR.same h).currentProcess, hresume]
  have hcalls := fun hconsole => hR.toLockstep.enter (t := t) ht hexit hconsole hresume
  cases t with
  | input len => exact rel_guarded hmode fun _ => hR.syscallInput len h
  | uartIrq mis fifo timeoutFifo => exact .some (.returns (hR.handleUartIrq mis fifo timeoutFifo h))
  | resume =>
      by_cases hinput : k.current.resume.isInput = true
      · show Option.Rel _ (k.resumeCurrent alg) (l.resumeCurrent alg')
        unfold Kernel.resumeCurrent
        rw [hresume]
        cases hat : k.current.resume with
        | inputOwner len => exact .some (hR.syscallInput len h)
        | inputRead maxLen line => exact .some (hR.inputRead maxLen line h)
        | _ => exact nomatch hat ▸ hinput
      · exact hcalls rfl (fun _ => Bool.eq_false_iff.mpr hinput) h
  | _ => exact hcalls rfl (fun heq => nomatch heq) h

end ConsoleLockstep

end Kernel

end DemoOS
