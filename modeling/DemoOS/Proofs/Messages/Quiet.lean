import DemoOS.Proofs.Scheduler.Frame
import DemoOS.Proofs.Scheduler.Traps

/-!
# `DemoOS.Proofs.Messages.Quiet`: kernel code that moves no message

`Quiet k k'` says that between the two states no message was stored or received, no
process began to wait at a ring, and no send began or ended. All kernel code is of this
kind except `send_message` and `receive_message`. Scheduling is (`Quiet.scheduled`), and for
the other functions there is one lemma each, under its name. None of them asks for the
scheduler's invariants.
-/

set_option autoImplicit false

namespace DemoOS

open Support

/-! ### Blocks -/

/-- Message passing sees the same in both blocks, except that the process may have been
woken in between. -/
structure PCB.SameMail (b b' : PCB) : Prop where
  ring : b'.messagesBuffer = b.messagesBuffer
  receives : b'.state = .waitingToReceiveMessage → b.state = .waitingToReceiveMessage
  sends : b'.state = .waitingToSendMessage →
    b.state = .waitingToSendMessage ∧ b'.resume = b.resume
  send : b'.resume.send? = b.resume.send?

/-- The block of a process that has taken no part in message passing. -/
structure PCB.NoMail (b : PCB) : Prop where
  ring : b.messagesBuffer = .zeroed
  receives : b.state ≠ .waitingToReceiveMessage
  sends : b.state ≠ .waitingToSendMessage
  send : b.resume.send? = none

namespace PCB

variable {b b' b'' : PCB}

theorem SameMail.refl (b : PCB) : b.SameMail b := ⟨rfl, id, fun h => ⟨h, rfl⟩, rfl⟩

theorem SameMail.trans (h : b.SameMail b') (h' : b'.SameMail b'') : b.SameMail b'' where
  ring := h'.ring.trans h.ring
  receives hst := h.receives (h'.receives hst)
  sends hst := by
    obtain ⟨hst', hresume'⟩ := h'.sends hst
    obtain ⟨hst'', hresume⟩ := h.sends hst'
    exact ⟨hst'', hresume'.trans hresume⟩
  send := h'.send.trans h.send

theorem NoMail.same (h : b.NoMail) (h' : b.SameMail b') : b'.NoMail where
  ring := h'.ring.trans h.ring
  receives hst := h.receives (h'.receives hst)
  sends hst := h.sends (h'.sends hst).1
  send := h'.send.trans h.send

/-- Another state, in which the process waits at no ring. -/
theorem SameMail.withState (b : PCB) {st : ProcessState} (hr : st ≠ .waitingToReceiveMessage)
    (hs : st ≠ .waitingToSendMessage) : b.SameMail (b.withState st) :=
  ⟨rfl, fun h => absurd h hr, fun h => absurd h hs, rfl⟩

end PCB

/-! ### Events -/

theorem pushedIn_filter (trace : List KernelEvent) :
    pushedIn (trace.filter (·.isMessage)) = pushedIn trace := by
  unfold pushedIn
  rw [List.filterMap_filter]
  refine List.filterMap_congr fun e _ => ?_
  cases e <;> rfl

theorem receivedIn_filter (trace : List KernelEvent) (p : PcbPtr) :
    receivedIn (trace.filter (·.isMessage)) p = receivedIn trace p := by
  unfold receivedIn
  rw [List.filterMap_filter]
  refine List.filterMap_congr fun e _ => ?_
  cases e <;> rfl

/-- One more event that is not of a message. -/
theorem filter_isMessage_append {trace : List KernelEvent} {e : KernelEvent}
    (he : e.isMessage = false) :
    (trace ++ [e]).filter (·.isMessage) = trace.filter (·.isMessage) := by
  rw [List.filter_append, List.filter_singleton, he]
  exact List.append_nil _

/-! ### Kernel states -/

/-- The slots behind the last process are free. -/
def Kernel.TableEnds (k : Kernel) : Prop := ∀ i, k.nProcesses ≤ i → k.processes i = none

/-- Between the two states no message was moved, as far as blocks, table and trace say. -/
structure Kernel.Unmoved (k k' : Kernel) : Prop where
  block : ∀ p, (k.pcb p).SameMail (k'.pcb p) ∨ ¬ k.IsProcess p ∧ (k'.pcb p).NoMail
  grows : ∀ p, k.IsProcess p → k'.IsProcess p
  joins : ∀ p, k'.IsProcess p → k.IsProcess p ∨ (k'.pcb p).NoMail
  trace : k'.trace.filter (·.isMessage) = k.trace.filter (·.isMessage)

/-- Kernel code that moves no message. -/
structure Kernel.Quiet (k k' : Kernel) : Prop extends k.Unmoved k' where
  ends : k.TableEnds → k'.TableEnds

theorem Kernel.Unmoved.trans {k k' k'' : Kernel} (h : k.Unmoved k') (h' : k'.Unmoved k'') :
    k.Unmoved k'' where
  block p := by
    rcases h'.block p with hsame' | ⟨hp', hnone'⟩
    · rcases h.block p with hsame | ⟨hp, hnone⟩
      · exact Or.inl (hsame.trans hsame')
      · exact Or.inr ⟨hp, hnone.same hsame'⟩
    · exact Or.inr ⟨fun hp => hp' (h.grows p hp), hnone'⟩
  grows p hp := h'.grows p (h.grows p hp)
  joins p hp := by
    rcases h'.joins p hp with hp' | hnone'
    · rcases h.joins p hp' with hp'' | hnone
      · exact Or.inl hp''
      · rcases h'.block p with hsame' | ⟨hnot, -⟩
        · exact Or.inr (hnone.same hsame')
        · exact absurd hp' hnot
    · exact Or.inr hnone'
  trace := h'.trace.trans h.trace

namespace Kernel.Quiet

variable {k k' k'' : Kernel} {p : PcbPtr} {f : PCB → PCB}

theorem refl (k : Kernel) : Quiet k k where
  block _ := Or.inl (.refl _)
  grows _ h := h
  joins _ h := Or.inl h
  trace := rfl
  ends h := h

theorem trans (h : Quiet k k') (h' : Quiet k' k'') : Quiet k k'' :=
  { h.toUnmoved.trans h'.toUnmoved with ends := fun hk => h'.ends (h.ends hk) }

/-- The table does not change, and no block changes in what message passing sees. -/
theorem of_blocks (hblock : ∀ p, (k.pcb p).SameMail (k'.pcb p))
    (hprocesses : k'.processes = k.processes) (hcount : k'.nProcesses = k.nProcesses)
    (htrace : k'.trace.filter (·.isMessage) = k.trace.filter (·.isMessage)) : Quiet k k' where
  block p := Or.inl (hblock p)
  grows p hp := by
    obtain ⟨i, hi, hslot⟩ := hp
    exact ⟨i, hi, by rw [hprocesses]; exact hslot⟩
  joins p hp := by
    obtain ⟨i, hi, hslot⟩ := hp
    exact Or.inl ⟨i, hi, by rw [← hprocesses]; exact hslot⟩
  trace := htrace
  ends h i hi := by
    rw [hprocesses]
    exact h i (hcount ▸ hi)

/-- Only fields outside the table, the blocks and the trace change. -/
theorem of_rest (hpcb : k'.pcb = k.pcb) (hprocesses : k'.processes = k.processes)
    (hcount : k'.nProcesses = k.nProcesses) (htrace : k'.trace = k.trace) : Quiet k k' :=
  of_blocks (fun p => by rw [hpcb]; exact .refl _) hprocesses hcount (by rw [htrace])

theorem modifyPcb (hf : (k.pcb p).SameMail (f (k.pcb p))) : Quiet k (k.modifyPcb p f) := by
  refine of_blocks (fun r => ?_) rfl rfl rfl
  rw [Kernel.modifyPcb_pcb]
  split
  · next hr => rw [hr]; exact hf
  · exact .refl _

theorem log (k : Kernel) {e : KernelEvent} (he : e.isMessage = false) : Quiet k (k.log e) := by
  refine of_blocks (fun _ => .refl _) rfl rfl ?_
  exact filter_isMessage_append he

/-- A block outside the table. -/
theorem newBlock (hp : ¬ k.IsProcess p) {b : PCB} (hb : b.NoMail) :
    Quiet k (k.modifyPcb p fun _ => b) where
  block r := by
    rw [Kernel.modifyPcb_pcb]
    split
    · next hr => rw [hr]; exact Or.inr ⟨hp, hb⟩
    · exact Or.inl (.refl _)
  grows _ hr := hr
  joins _ hr := Or.inl hr
  trace := rfl
  ends h := h

/-- A process enters the table in a free slot. -/
theorem join {i : Nat} (hfree : k.processes i = none) (hp : (k.pcb p).NoMail) :
    Unmoved k { k with processes := Function.update k.processes i (some p) } where
  block _ := Or.inl (.refl _)
  grows r hr := by
    obtain ⟨j, hj, hslot⟩ := hr
    refine ⟨j, hj, ?_⟩
    have hji : j ≠ i := fun he => by rw [he, hfree] at hslot; exact nomatch hslot
    exact (Function.update_of_ne hji _ _).trans hslot
  joins r hr := by
    obtain ⟨j, hj, hslot⟩ := hr
    by_cases hji : j = i
    · subst hji
      have hslot' : some p = some r := (Function.update_self j (some p) k.processes).symm.trans hslot
      obtain rfl := Option.some.inj hslot'
      exact Or.inr hp
    · exact Or.inl ⟨j, hj, (Function.update_of_ne hji _ _).symm.trans hslot⟩
  trace := rfl

theorem setState (k : Kernel) (p : PcbPtr) (st : ProcessState)
    (hr : st ≠ .waitingToReceiveMessage) (hs : st ≠ .waitingToSendMessage) :
    Quiet k (k.setState p st) :=
  modifyPcb (.withState _ hr hs)

theorem setCounter (k : Kernel) (p : PcbPtr) (c : Int) : Quiet k (k.setCounter p c) :=
  modifyPcb ⟨rfl, id, fun h => ⟨h, rfl⟩, rfl⟩

theorem modifyCurrent (hf : k.current.SameMail (f k.current)) : Quiet k (k.modifyCurrent f) :=
  modifyPcb hf

/-- A process that is not in the middle of a send goes on elsewhere. -/
theorem suspendAt {point : ResumePoint} (hstate : k.current.state ≠ .waitingToSendMessage)
    (hsend : k.current.resume.send? = none) (hpoint : point.send? = none) :
    Quiet k (k.suspendAt point) :=
  modifyCurrent (f := fun b => { b with resume := point })
    ⟨rfl, id, fun h => absurd h hstate, hpoint.trans hsend.symm⟩

theorem preemptEnable (k : Kernel) : Quiet k k.preemptEnable :=
  modifyCurrent (f := fun b => { b with preemptDisabled := b.preemptDisabled - 1 })
    ⟨rfl, id, fun h => ⟨h, rfl⟩, rfl⟩

theorem preemptDisable (k : Kernel) : Quiet k k.preemptDisable :=
  modifyCurrent (f := fun b => { b with preemptDisabled := b.preemptDisabled + 1 })
    ⟨rfl, id, fun h => ⟨h, rfl⟩, rfl⟩

/-! ### Functions of the scheduler -/

/-- Scheduling moves no message. -/
theorem scheduled (h : k.Scheduled k') : Quiet k k' := by
  refine of_blocks (fun p => ?_) h.processes h.nProcesses ?_
  · have hblock := h.block p
    have hring : (k'.pcb p).messagesBuffer = (k.pcb p).messagesBuffer :=
      congrArg (fun b => b.messagesBuffer) hblock.fixed
    have hresume : (k'.pcb p).resume = (k.pcb p).resume :=
      congrArg (fun b => b.resume) hblock.fixed
    -- A process does not begin to wait: another state is none of the waiting ones.
    have hstate : (k'.pcb p).state.isWaiting → (k'.pcb p).state = (k.pcb p).state := by
      intro hwaits
      rcases hblock.state with heq | hst | hst | ⟨hst, -⟩ | ⟨hst, -⟩
      · exact heq
      all_goals
        rw [hst] at hwaits
        exact nomatch hwaits
    refine ⟨hring, fun hst => ?_, fun hst => ?_, by rw [hresume]⟩
    · exact (hstate (by rw [hst]; rfl)).symm.trans hst
    · exact ⟨(hstate (by rw [hst]; rfl)).symm.trans hst, hresume⟩
  · obtain ⟨events, htrace, hevents⟩ := h.trace
    have hnone : events.filter (·.isMessage) = [] := by
      refine List.filter_eq_nil_iff.mpr fun e he hmessage => ?_
      have hscheduling := hevents e he
      cases e <;> simp [KernelEvent.isMessage, KernelEvent.isScheduling] at hmessage hscheduling
    rw [htrace, List.filter_append, hnone, List.append_nil]

variable (alg : SchedAlgorithm)

theorem enqueueProcess (k : Kernel) (p : PcbPtr) : Quiet k (k.enqueueProcess alg p) :=
  scheduled (.enqueueProcess alg k p)

/-- The wake-up loops, whatever they write to the processes besides the state. -/
theorem wakeProcesses {waits : PCB → Bool} {wake : PCB → PCB}
    (hwake : ∀ b : PCB, b.SameMail (wake b)) (slots : List Nat) (k : Kernel) :
    Quiet k (k.wakeProcesses alg waits wake slots) := by
  induction slots generalizing k with
  | nil => exact .refl k
  | cons i slots ih =>
      refine trans ?_ (ih _)
      dsimp only
      split
      · exact .refl k
      · split
        · next p _ _ =>
            have hone := modifyPcb (p := p) (hwake (k.pcb p))
            exact (hone.trans (setState _ p _ (by decide) (by decide))).trans (enqueueProcess alg _ p)
        · exact .refl k

theorem schedule (k : Kernel) : Quiet k k.schedule.1 := scheduled (.schedule k)

/-- The result of a system call. -/
theorem setRegister0 (k : Kernel) (value : BitVec 64) :
    Quiet k (k.modifyCurrent fun b => { b with regs := b.regs.setRegister0 value }) :=
  modifyCurrent (f := fun b => { b with regs := b.regs.setRegister0 value })
    ⟨rfl, id, fun h => ⟨h, rfl⟩, rfl⟩

end Kernel.Quiet

/-! ### Traps -/

namespace Kernel.Quiet

variable {alg : SchedAlgorithm} {k k' : Kernel} {s : Sched}

/-- Such code goes on to a resume point, for a process that is in no send. -/
theorem thenSuspend (h : Quiet k k') (hcur : k'.currentProcess = k.currentProcess)
    (hstate : k.current.state ≠ .waitingToSendMessage) (hsend : k.current.resume.send? = none)
    {point : ResumePoint} (hpoint : point.send? = none) : Quiet k (k'.suspendAt point) := by
  have hblock := h.block k.currentProcess
  have hstate' : k'.current.state ≠ .waitingToSendMessage := by
    rw [current, hcur]
    intro hst
    rcases hblock with hsame | ⟨-, hnone⟩
    · exact hstate (hsame.sends hst).1
    · exact hnone.sends hst
  have hsend' : k'.current.resume.send? = none := by
    rw [current, hcur]
    rcases hblock with hsame | ⟨-, hnone⟩
    · exact hsame.send.trans hsend
    · exact hnone.send
  exact h.trans (suspendAt hstate' hsend' hpoint)

theorem syscallYield (k : Kernel) : Quiet k k.syscallYield.1 :=
  (setCounter k _ 0).trans (schedule _)

private theorem running_ne (hrun : k.current.state = .running) :
    k.current.state ≠ .waitingToSendMessage := by
  rw [hrun]
  decide

section Running
variable (hrun : k.current.state = .running) (hsend : k.current.resume.send? = none)
include hrun hsend

theorem returnToUser (h : Quiet k k') (hcur : k'.currentProcess = k.currentProcess)
    (value : Int) : Quiet k (k'.returnToUser value).1 :=
  thenSuspend (h.trans (setRegister0 k' (BitVec.ofInt 64 value))) hcur (running_ne hrun) hsend rfl

/-- A process blocks at a resume point, but not at a ring. -/
theorem blocks (h : Quiet k k') (hcur : k'.currentProcess = k.currentProcess)
    {point : ResumePoint} (hpoint : point.send? = none) : Quiet k (k'.suspendAt point).schedule.1 :=
  (h.thenSuspend hcur (running_ne hrun) hsend hpoint).trans (schedule _)

theorem syscallSendSignal (pid flag : Int) : Quiet k (k.syscallSendSignal pid flag).1 := by
  unfold Kernel.syscallSendSignal
  split
  · exact returnToUser hrun hsend (.refl k) rfl _
  · next d _ =>
      have hraise : Quiet k (k.sendSignal d flag) := modifyPcb ⟨rfl, id, fun h => ⟨h, rfl⟩, rfl⟩
      exact returnToUser hrun hsend hraise rfl 0

theorem syscallWait (pid : Int) : Quiet k (k.syscallWait pid).1 := by
  unfold Kernel.syscallWait
  split
  · exact returnToUser hrun hsend (.refl k) rfl _
  · split
    · exact returnToUser hrun hsend (log k rfl) rfl 0
    · have hstate := setState k k.currentProcess .waitingAnotherProcess (by decide)
        (by decide)
      have hwait : Quiet (k.setState k.currentProcess .waitingAnotherProcess)
          ((k.setState k.currentProcess .waitingAnotherProcess).modifyCurrent
            fun b => { b with pidToWait := pid }) :=
        modifyCurrent (f := fun b => { b with pidToWait := pid })
          ⟨rfl, id, fun h => ⟨h, rfl⟩, rfl⟩
      exact blocks hrun hsend (hstate.trans hwait) rfl rfl

theorem waitReturn (pid : Int) : Quiet k (k.waitReturn pid).1 :=
  returnToUser hrun hsend (log k rfl) rfl 0

theorem inputRead (h : Quiet k k') (hcur : k'.currentProcess = k.currentProcess) (maxLen : Nat)
    (line : List (BitVec 8)) : Quiet k (k'.inputRead maxLen line).1 := by
  obtain ⟨tail, htail⟩ := readUart_eq maxLen UART_BUFFER_SIZE k' line
  have hread : Quiet k { k' with uartTail := tail } := h.trans (of_rest rfl rfl rfl rfl)
  unfold Kernel.inputRead
  simp only [htail]
  split
  · have hfree : Quiet k { k' with uartTail := tail, uartOwner := none } :=
      h.trans (of_rest rfl rfl rfl rfl)
    exact returnToUser hrun hsend (hfree.trans (log _ rfl)) hcur _
  · exact blocks hrun hsend (hread.trans (setState _ _ _ (by decide) (by decide))) hcur rfl

theorem syscallInput (len : Int) : Quiet k (k.syscallInput len).1 := by
  unfold Kernel.syscallInput
  split
  · exact blocks hrun hsend (.refl k) rfl rfl
  · have hown : Quiet k { k with uartOwner := some k.currentProcess } := of_rest rfl rfl rfl rfl
    exact inputRead hrun hsend hown rfl _ _

theorem exitProcess : Quiet k (k.exitProcess alg).1 := by
  have hzombie := (preemptDisable k).trans
    (setState k.preemptDisable k.currentProcess .zombie (by decide) (by decide))
  have hclear : ∀ b : PCB, b.SameMail { b with pidToWait := -1 } := fun b =>
    ⟨rfl, id, fun h => ⟨h, rfl⟩, rfl⟩
  have hwoken : ∀ waits, Quiet k ((k.preemptDisable.setState k.currentProcess
      .zombie).wakeProcesses alg waits (fun b => { b with pidToWait := -1 })
        (List.range N_PROCESSES)).preemptEnable := fun waits =>
    (hzombie.trans (wakeProcesses alg hclear _ _)).trans (preemptEnable _)
  have hcur : ∀ waits wake slots, ((k.preemptDisable.setState k.currentProcess
      .zombie).wakeProcesses alg waits wake slots).currentProcess = k.currentProcess :=
    fun waits wake slots => Kernel.rest_currentProcess (wakeProcesses_rest alg waits wake slots _)
  exact blocks hrun hsend (hwoken _) (hcur _ _ _) rfl

end Running

private theorem setQueuePriority (k : Kernel) (p : PcbPtr) (value : Int) (level : Nat → Nat) :
    Quiet k ({ k.preemptDisable.modifyPcb p (fun b => { b with queuePriority := value }) with
      queueLevel := level } : Kernel).preemptEnable := by
  have hset : Quiet k.preemptDisable (k.preemptDisable.modifyPcb p fun b =>
      { b with queuePriority := value }) :=
    modifyPcb (f := fun b => { b with queuePriority := value }) ⟨rfl, id, fun h => ⟨h, rfl⟩, rfl⟩
  have hlevel : Quiet k { k.preemptDisable.modifyPcb p (fun b =>
      { b with queuePriority := value }) with queueLevel := level } :=
    ((preemptDisable k).trans hset).trans (of_rest rfl rfl rfl rfl)
  exact hlevel.trans (preemptEnable _)

theorem schedSetParam (alg : SchedAlgorithm) (k : Kernel) (p : PcbPtr) (param value : Int) :
    Quiet k (k.schedSetParam alg p param value).1
      ∧ (k.schedSetParam alg p param value).1.currentProcess = k.currentProcess := by
  have hskip : Quiet k k ∧ k.currentProcess = k.currentProcess := ⟨.refl k, rfl⟩
  unfold Kernel.schedSetParam
  split
  · exact hskip
  · split
    · split
      · exact hskip
      · exact ⟨modifyPcb (f := fun b => { b with priority := value })
          ⟨rfl, id, fun h => ⟨h, rfl⟩, rfl⟩, rfl⟩
    · split
      · split
        · exact hskip
        · exact ⟨modifyPcb (f := fun b => { b with tickets := value })
            ⟨rfl, id, fun h => ⟨h, rfl⟩, rfl⟩, rfl⟩
      · split
        · split
          · exact hskip
          · exact ⟨setQueuePriority k p _ _, rfl⟩
        · exact hskip

/-- `add_process_to_scheduler`, for a block outside the table. -/
theorem addProcessToScheduler {p : PcbPtr} (hnone : (k.pcb p).NoMail)
    (hpid : (k.pcb p).pid = k.nProcesses) (hends : k.TableEnds)
    (hk : k.addProcessToScheduler alg p = some k') :
    Quiet k k' ∧ k'.currentProcess = k.currentProcess := by
  unfold Kernel.addProcessToScheduler at hk
  dsimp only at hk
  split at hk
  · exact nomatch hk
  · obtain ⟨k₁, hk₁⟩ : ∃ k₁ : Kernel, k₁ = { k with
      processes := Function.update k.processes (k.pcb p).pid (some p)
      queueLevel := Function.update k.queueLevel (k.pcb p).pid
        (startLevel alg (k.pcb p).queuePriority) } := ⟨_, rfl⟩
    have hjoin : Unmoved k k₁ := by
      have hlevel : Quiet { k with
          processes := Function.update k.processes (k.pcb p).pid (some p) } k₁ := by
        rw [hk₁]
        exact of_rest rfl rfl rfl rfl
      exact (join (hends _ (Nat.le_of_eq hpid.symm)) hnone).trans hlevel.toUnmoved
    -- Whether the process is enqueued or not, the table and its size are these.
    have hfinish : ∀ k₂ : Kernel, Quiet k₁ k₂ → k₂.rest = k₁.rest →
        Quiet k { k₂ with nProcesses := k₂.nProcesses + 1 }
          ∧ k₂.currentProcess = k.currentProcess := by
      intro k₂ hq hrest
      have hproc := Kernel.rest_processes hrest
      have hcount := Kernel.rest_nProcesses hrest
      have hcur := Kernel.rest_currentProcess hrest
      rw [hk₁] at hproc hcount hcur
      have hmoved := hjoin.trans hq.toUnmoved
      refine ⟨{
        block := hmoved.block
        grows := hmoved.grows
        joins := hmoved.joins
        trace := hmoved.trace
        ends := fun _ i hi => ?_ }, hcur⟩
      change k₂.nProcesses + 1 ≤ i at hi
      show k₂.processes i = none
      have hcount' : k₂.nProcesses = k.nProcesses := hcount
      have hne : i ≠ (k.pcb p).pid := by omega
      exact (congrFun hproc i).trans ((Function.update_of_ne hne _ _).trans (hends i (by omega)))
    subst hk₁
    obtain rfl := Option.some.inj hk
    split
    · exact hfinish _ (enqueueProcess alg _ p) (enqueueProcess_rest alg _ p)
    · exact hfinish _ (.refl _) rfl

theorem childPcb_noMail (parent : PCB) (flags : BitVec 64) (mm : MmStruct) (pid : Nat) :
    (childPcb parent flags mm pid).NoMail where
  ring := rfl
  receives := by simp [childPcb]
  sends := by simp [childPcb]
  send := by
    simp only [childPcb]
    split <;> rfl

variable (alg) in
/-- `copy_process`, whether it succeeds or not. -/
theorem copyProcess {page : Option Nat} (hfresh : k.PageFresh page)
    (hends : k.TableEnds) (flags : BitVec 64) (mm : MmStruct) :
    Quiet k (k.copyProcess alg flags page mm).1
      ∧ (k.copyProcess alg flags page mm).1.currentProcess = k.currentProcess := by
  unfold Kernel.copyProcess
  cases page with
  | none => exact ⟨preemptDisable k, rfl⟩
  | some n =>
      have hp : ¬ k.IsProcess (.page n) := by
        rintro ⟨i, hi, hslot⟩
        exact hfresh n rfl i hi hslot
      have hzero : PCB.zeroed.NoMail := ⟨rfl, by decide, by decide, rfl⟩
      have hclear := (preemptDisable k).trans (newBlock (k := k.preemptDisable) hp hzero)
      dsimp only
      split
      · exact ⟨hclear, rfl⟩
      · obtain ⟨b, hb⟩ : ∃ b, b = childPcb (k.preemptDisable.modifyPcb (.page n)
          fun _ => .zeroed).current flags mm
            (k.preemptDisable.modifyPcb (.page n) fun _ => .zeroed).nProcesses := ⟨_, rfl⟩
        have hnone : b.NoMail := hb ▸ childPcb_noMail ..
        have hchild := hclear.trans (newBlock (k := k.preemptDisable.modifyPcb (.page n)
          fun _ => .zeroed) hp hnone)
        have hself : ∀ k₁ : Kernel, (k₁.modifyPcb (.page n) fun _ => b).pcb (.page n) = b :=
          fun k₁ => Kernel.modifyPcb_pcb_self ..
        rw [show (childPcb _ flags mm _) = b from hb.symm]
        split
        · exact ⟨hchild, rfl⟩
        · next k₁ hk₁ =>
            obtain ⟨hadd, hcur⟩ := addProcessToScheduler
              (k := (k.preemptDisable.modifyPcb (.page n) fun _ => .zeroed).modifyPcb (.page n)
                fun _ => b)
              (by rw [hself]; exact hnone) (by rw [hself, hb]; rfl) hends hk₁
            exact ⟨(hchild.trans hadd).trans (preemptEnable k₁), hcur⟩

/-- `kernel_process` enters user mode. -/
theorem moveToUserMode (hpoint : k.current.resume = .kernelProcess)
    (hstate : k.current.state ≠ .waitingToSendMessage) (mm : MmStruct) (regs : PtRegs) :
    Quiet k { (k.modifyCurrent fun b => { b with mm := mm, regs := regs }).suspendAt .user with
      ttbr0 := mm.pgd } := by
  have hset : Quiet k (k.modifyCurrent fun b => { b with mm := mm, regs := regs }) :=
    modifyCurrent (f := fun b => { b with mm := mm, regs := regs })
      ⟨rfl, id, fun h => ⟨h, rfl⟩, rfl⟩
  exact (hset.thenSuspend rfl hstate (by rw [hpoint]; rfl) rfl).trans (of_rest rfl rfl rfl rfl)

end Kernel.Quiet

end DemoOS
