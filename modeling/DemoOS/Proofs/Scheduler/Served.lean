import DemoOS.Kernel.Run
import DemoOS.Proofs.Scheduler.Frame
import DemoOS.Proofs.Scheduler.Queues

/-!
# `DemoOS.Proofs.Scheduler.Served`: what the other kernel code leaves alone

`Served k k'` is `Scheduled` for the code of the system calls: they write messages, registers,
parameters and the states of blocked processes, but they keep a process's pid, files and
memory, they begin no wait for another process and end no process, and they raise no signal.
The exceptions are the traps named in `Trap.isServed`, and creating a process, for which
`copyProcess_extends` says what happens to the process table.

As in `Frame`, nothing is asked of the ready queues.
-/

set_option autoImplicit false

namespace DemoOS

/-- What a process owns for good. -/
def PCB.kept (b : PCB) : PCB :=
  { PCB.zeroed with pid := b.pid, flags := b.flags, files := b.files, mm := b.mm }

/-- What a system call may do to a block. -/
structure PCB.Served (b b' : PCB) : Prop where
  kept : b'.kept = b.kept
  pidToWait : b'.pidToWait = b.pidToWait
  zombie : b'.state = .zombie → b.state = .zombie ∨ b.isPending SIGNAL_KILL
  waits : b'.state = .waitingAnotherProcess → b.state = .waitingAnotherProcess
  signals : ∀ n, b'.isPending n → b.isPending n

namespace PCB.Served

variable {b b' b'' : PCB}

theorem refl (b : PCB) : b.Served b := ⟨rfl, rfl, Or.inl, id, fun _ => id⟩

theorem trans (h : b.Served b') (h' : b'.Served b'') : b.Served b'' where
  kept := h'.kept.trans h.kept
  pidToWait := h'.pidToWait.trans h.pidToWait
  zombie hst := by
    rcases h'.zombie hst with hst | hpending
    · exact h.zombie hst
    · exact Or.inr (h.signals _ hpending)
  waits hst := h.waits (h'.waits hst)
  signals n hn := h.signals n (h'.signals n hn)

theorem pid (h : b.Served b') : b'.pid = b.pid := congrArg (fun b => b.pid) h.kept

theorem scheduled (h : b.Scheduled b') : b.Served b' where
  kept := congrArg (fun b => b.kept) h.fixed
  pidToWait := congrArg (fun b => b.pidToWait) h.fixed
  zombie hst := by
    rcases h.state with heq | hst' | hst' | ⟨-, hpending⟩ | ⟨hst', -⟩
    · exact Or.inl (heq.symm.trans hst)
    · exact nomatch hst'.symm.trans hst
    · exact nomatch hst'.symm.trans hst
    · exact Or.inr hpending
    · exact nomatch hst'.symm.trans hst
  waits := h.waiting rfl
  signals := h.signals

/-- An assignment to other fields. -/
theorem of_fields (hkept : b'.kept = b.kept) (hwait : b'.pidToWait = b.pidToWait)
    (hstate : b'.state = b.state) (hsignals : b'.pendingSignals = b.pendingSignals) :
    b.Served b' where
  kept := hkept
  pidToWait := hwait
  zombie hst := Or.inl (hstate.symm.trans hst)
  waits hst := hstate.symm.trans hst
  signals n hn := by
    rw [isPending, hsignals] at hn
    exact hn

/-- A state other than the two that mark an end or a wait for another process. -/
theorem withState (b : PCB) {st : ProcessState} (hzombie : st ≠ .zombie)
    (hwaits : st ≠ .waitingAnotherProcess) : b.Served (b.withState st) :=
  ⟨rfl, rfl, fun h => absurd h hzombie, fun h => absurd h hwaits, fun _ => id⟩

end PCB.Served

/-- What a system call may do to the kernel. -/
structure Kernel.Served (k k' : Kernel) : Prop where
  block : ∀ p, (k.pcb p).Served (k'.pcb p)
  processes : k'.processes = k.processes
  nProcesses : k'.nProcesses = k.nProcesses
  /-- The active page tables stay those of the process that owns the CPU. -/
  space : k.ttbr0 = k.current.mm.pgd → k'.ttbr0 = k'.current.mm.pgd

namespace Kernel.Served

variable {k k' k'' : Kernel} {p : PcbPtr} {f : PCB → PCB} {alg : SchedAlgorithm}

theorem refl (k : Kernel) : Served k k := ⟨fun _ => .refl _, rfl, rfl, id⟩

theorem trans (h : Served k k') (h' : Served k' k'') : Served k k'' where
  block p := (h.block p).trans (h'.block p)
  processes := h'.processes.trans h.processes
  nProcesses := h'.nProcesses.trans h.nProcesses
  space hk := h'.space (h.space hk)

theorem isProcess (h : Served k k') (p : PcbPtr) : k'.IsProcess p ↔ k.IsProcess p := by
  unfold Kernel.IsProcess
  rw [h.processes]

theorem scheduled (h : k.Scheduled k') : Served k k' :=
  ⟨fun p => .scheduled (h.block p), h.processes, h.nProcesses, h.space⟩

theorem modifyPcb (hf : (k.pcb p).Served (f (k.pcb p))) : Served k (k.modifyPcb p f) where
  block r := by
    rw [Kernel.modifyPcb_pcb]
    split
    · next hr => rw [hr]; exact hf
    · exact .refl _
  processes := rfl
  nProcesses := rfl
  space hk := by
    show k.ttbr0 = ((k.modifyPcb p f).pcb k.currentProcess).mm.pgd
    rw [hk, Kernel.modifyPcb_pcb]
    split
    · next hr =>
        rw [current, hr]
        exact (congrArg (fun b => b.mm.pgd) hf.kept).symm
    · rfl

/-- The console, the levels or the trace change. -/
theorem of_rest (hpcb : k'.pcb = k.pcb) (hcurrent : k'.currentProcess = k.currentProcess)
    (hprocesses : k'.processes = k.processes) (hcount : k'.nProcesses = k.nProcesses)
    (hspace : k'.ttbr0 = k.ttbr0) : Served k k' where
  block p := by rw [hpcb]; exact .refl _
  processes := hprocesses
  nProcesses := hcount
  space hk := by rw [hspace, current, hpcb, hcurrent]; exact hk

theorem modifyCurrent (hf : k.current.Served (f k.current)) : Served k (k.modifyCurrent f) :=
  modifyPcb hf

theorem log (k : Kernel) (e : KernelEvent) : Served k (k.log e) := of_rest rfl rfl rfl rfl rfl

theorem suspendAt (k : Kernel) (point : ResumePoint) : Served k (k.suspendAt point) :=
  modifyCurrent (f := fun b => { b with resume := point }) (.of_fields rfl rfl rfl rfl)

theorem setState (k : Kernel) (p : PcbPtr) {st : ProcessState} (hzombie : st ≠ .zombie)
    (hwaits : st ≠ .waitingAnotherProcess) : Served k (k.setState p st) :=
  modifyPcb (.withState _ hzombie hwaits)

theorem returnToUser (k : Kernel) (value : Int) : Served k (k.returnToUser value).1 :=
  (modifyCurrent (f := fun b => { b with regs := b.regs.setRegister0 (BitVec.ofInt 64 value) })
    (.of_fields rfl rfl rfl rfl)).trans (suspendAt _ .user)

/-- A process leaves the CPU at a resume point. -/
theorem leaves (k : Kernel) (point : ResumePoint) : Served k (k.suspendAt point).schedule.1 :=
  (suspendAt k point).trans (scheduled (.schedule _))

/-! ### System calls -/

theorem pushMessage {message : Message} (h : k.pushMessage alg p message = some k') :
    Served k k' := by
  obtain ⟨buffer, -, h⟩ := Option.bind_eq_some_iff.mp h
  have hstored : Served k ((k.modifyPcb p fun b => { b with messagesBuffer := buffer }).log
      (.pushed message)) :=
    (modifyPcb (f := fun b => { b with messagesBuffer := buffer })
      (.of_fields rfl rfl rfl rfl)).trans (log _ _)
  dsimp only at h
  split at h
  · obtain rfl := Option.some.inj h
    exact hstored.trans (scheduled ((Scheduled.setReady _ _).trans (.enqueueProcess alg _ _)))
  · obtain rfl := Option.some.inj h
    exact hstored

theorem sendMessage (alg : SchedAlgorithm) (k : Kernel) (source destination : PcbPtr)
    (body : Body) : Served k (k.sendMessage alg source destination body).1 := by
  unfold Kernel.sendMessage
  dsimp only
  split
  · next k₁ hpush => exact (pushMessage hpush).trans (returnToUser k₁ 0)
  · exact (setState k source (by decide) (by decide)).trans (leaves _ _)

theorem receiveMessage (alg : SchedAlgorithm) (k : Kernel) (destination : PcbPtr) :
    Served k (k.receiveMessage alg destination).1 := by
  unfold Kernel.receiveMessage
  split
  · next k₁ message hpop =>
      obtain ⟨⟨buffer, m⟩, -, h⟩ := Option.bind_eq_some_iff.mp hpop
      obtain ⟨rfl, -⟩ := Prod.mk.inj (Option.some.inj h)
      have htaken : Served k (k.modifyPcb destination fun b => { b with messagesBuffer := buffer }) :=
        modifyPcb (f := fun b => { b with messagesBuffer := buffer }) (.of_fields rfl rfl rfl rfl)
      exact ((htaken.trans (log _ _)).trans (scheduled (.wakeProcesses alg _ _ _))).trans
        (suspendAt _ .user)
  · exact (setState k _ (by decide) (by decide)).trans (leaves _ _)

theorem readUart (maxLen fuel : Nat) (k : Kernel) (line : List (BitVec 8)) :
    Served k (Kernel.readUart maxLen fuel k line).1 := by
  induction fuel generalizing k line with
  | zero => exact .refl k
  | succ fuel ih =>
      have hread : Served k { k with uartTail := (k.uartTail + 1) % UART_BUFFER_SIZE } :=
        of_rest rfl rfl rfl rfl rfl
      unfold Kernel.readUart
      split
      · exact .refl k
      · dsimp only
        split
        · exact hread
        · split
          · exact hread.trans (ih _ _)
          · split
            · exact hread.trans (ih _ _)
            · exact hread.trans (ih _ _)

theorem inputRead (k : Kernel) (maxLen : Nat) (line : List (BitVec 8)) :
    Served k (k.inputRead maxLen line).1 := by
  have hread := readUart maxLen UART_BUFFER_SIZE k line
  unfold Kernel.inputRead
  dsimp only
  split
  · have hfree : Served (Kernel.readUart maxLen UART_BUFFER_SIZE k line).1
        { (Kernel.readUart maxLen UART_BUFFER_SIZE k line).1 with uartOwner := none } :=
      of_rest rfl rfl rfl rfl rfl
    exact ((hread.trans hfree).trans (log _ _)).trans (returnToUser _ _)
  · exact (hread.trans (setState _ _ (by decide) (by decide))).trans (leaves _ _)

theorem syscallInput (k : Kernel) (len : Int) : Served k (k.syscallInput len).1 := by
  unfold Kernel.syscallInput
  split
  · exact leaves k _
  · have hown : Served k { k with uartOwner := some k.currentProcess } :=
      of_rest rfl rfl rfl rfl rfl
    exact hown.trans (inputRead _ _ _)

private theorem setQueuePriority (k : Kernel) (p : PcbPtr) (value : Int) (level : Nat → Nat) :
    Served k ({ k.preemptDisable.modifyPcb p (fun b => { b with queuePriority := value }) with
      queueLevel := level } : Kernel).preemptEnable := by
  have hset : Served k.preemptDisable (k.preemptDisable.modifyPcb p fun b =>
      { b with queuePriority := value }) :=
    modifyPcb (f := fun b => { b with queuePriority := value }) (.of_fields rfl rfl rfl rfl)
  have hlevel : Served k { k.preemptDisable.modifyPcb p (fun b =>
      { b with queuePriority := value }) with queueLevel := level } :=
    ((scheduled (.preemptDisable k)).trans hset).trans (of_rest rfl rfl rfl rfl rfl)
  exact hlevel.trans (scheduled (.preemptEnable _))

theorem schedSetParam (alg : SchedAlgorithm) (k : Kernel) (p : PcbPtr) (param value : Int) :
    Served k (k.schedSetParam alg p param value).1 := by
  unfold Kernel.schedSetParam
  split
  · exact .refl k
  · split
    · split
      · exact .refl k
      · exact modifyPcb (f := fun b => { b with priority := value }) (.of_fields rfl rfl rfl rfl)
    · split
      · split
        · exact .refl k
        · exact modifyPcb (f := fun b => { b with tickets := value }) (.of_fields rfl rfl rfl rfl)
      · split
        · split
          · exact .refl k
          · exact setQueuePriority k p _ _
        · exact .refl k

theorem waitReturn (k : Kernel) (pid : Int) : Served k (k.waitReturn pid).1 :=
  (log k _).trans (returnToUser _ 0)

theorem resumeCurrent {r : Kernel × Control} (h : k.resumeCurrent alg = some r) :
    Served k r.1 := by
  unfold Kernel.resumeCurrent at h
  split at h
  · obtain rfl := Option.some.inj h
    exact sendMessage alg k _ _ _
  · obtain rfl := Option.some.inj h
    exact receiveMessage alg k _
  · obtain rfl := Option.some.inj h
    exact syscallInput k _
  · obtain rfl := Option.some.inj h
    exact inputRead k _ _
  · obtain rfl := Option.some.inj h
    exact waitReturn k _
  · exact nomatch h

end Kernel.Served

/-- The traps that create no process, end none, begin no wait for another one, raise no signal
and give nobody a memory map. -/
def Trap.isServed : Trap → Bool
  | .kernelMain _ | .fork _ _ | .exit | .wait _ | .sendSignal _ _ | .moveToUserMode _ _ => false
  | _ => true

namespace Kernel

variable {alg : SchedAlgorithm} {k k' : Kernel}

theorem served_of_guard {c : Prop} [Decidable c] {x r : Kernel × Control}
    (h : (if c then some x else none) = some r) (hx : Served k x.1) : Served k r.1 := by
  split at h
  · obtain rfl := Option.some.inj h
    exact hx
  · exact nomatch h

theorem enter_served {t : Trap} (ht : t.isServed) {r : Kernel × Control}
    (h : k.enter alg t = some r) : Served k r.1 := by
  cases t with
  | kernelMain _ | fork _ _ | exit | wait _ | sendSignal _ _ | moveToUserMode _ _ => exact nomatch ht
  | yield =>
      exact served_of_guard h (.scheduled ((Scheduled.setCounter k _ 0).trans (.schedule _)))
  | sendMessage pid body =>
      refine served_of_guard h ?_
      unfold syscallSendMessage
      split
      · exact .returnToUser k _
      · exact .sendMessage alg k _ _ _
  | receiveMessage => exact served_of_guard h (.receiveMessage alg k _)
  | input len => exact served_of_guard h (.syscallInput k len)
  | setSchedParam pid param value =>
      refine served_of_guard h ?_
      unfold syscallSetSchedParam
      split
      · exact .returnToUser k _
      · next d _ => exact (Served.schedSetParam alg k d param value).trans (.returnToUser _ _)
  | resume => exact .resumeCurrent h
  | timerTick => exact .scheduled (.handleTimerTick h)
  | uartIrq mis fifo timeoutFifo =>
      obtain rfl := Option.some.inj h
      exact .scheduled (.handleUartIrq k mis fifo timeoutFifo)

/-- A step is the code of its trap and, if that calls the scheduler, a selection. -/
theorem step_cases {t : Trap} (h : k.step alg t = some k') :
    k.enter alg t = some (k', .returns)
      ∨ ∃ k₁, k.enter alg t = some (k₁, .schedules) ∧ alg.pickNext k₁ = some k' := by
  unfold step at h
  split at h
  · exact nomatch h
  · next k₁ hr =>
      obtain rfl := Option.some.inj h
      exact Or.inl hr
  · next k₁ hr => exact Or.inr ⟨k₁, hr, h⟩

theorem step_served {t : Trap} (ht : t.isServed) (h : k.step alg t = some k') : Served k k' := by
  rcases step_cases h with hr | ⟨k₁, hr, hpick⟩
  · exact enter_served ht hr
  · exact (enter_served ht hr).trans (.scheduled (.pickNext hpick))

/-! ### The process table -/

/-- The first `n_processes` slots are the processes, by pid. -/
structure Table (k : Kernel) : Prop where
  ends : ∀ i, k.nProcesses ≤ i → k.processes i = none
  dense : ∀ i < k.nProcesses, ∃ p, k.processes i = some p
  pids : ∀ i p, k.processes i = some p → (k.pcb p).pid = i
  size : k.nProcesses ≤ N_PROCESSES

theorem Table.served (h : k.Table) (hs : Served k k') : k'.Table where
  ends i hi := by rw [hs.processes]; exact h.ends i (hs.nProcesses ▸ hi)
  dense i hi := by rw [hs.processes]; exact h.dense i (hs.nProcesses ▸ hi)
  pids i p hp := (hs.block p).pid.trans (h.pids i p (hs.processes ▸ hp))
  size := hs.nProcesses ▸ h.size

/-- `search_process` finds the process by its slot. -/
theorem searchProcess_isProcess {pid : Int} {p : PcbPtr}
    (hp : k.searchProcess pid = some p) : k.IsProcess p ∧ ((k.pcb p).pid : Int) = pid := by
  obtain ⟨i, hi, hfound⟩ := List.exists_of_findSome?_eq_some hp
  split at hfound
  · next q hslot =>
      split at hfound
      · next hpid =>
          obtain rfl := Option.some.inj hfound
          exact ⟨⟨i, List.mem_range.mp hi, hslot⟩, hpid⟩
      · exact nomatch hfound
  · exact nomatch hfound

/-- No two processes have the same pid. -/
theorem Table.pid_inj (h : k.Table) {p q : PcbPtr} (hp : k.IsProcess p) (hq : k.IsProcess q)
    (hpid : (k.pcb p).pid = (k.pcb q).pid) : p = q := by
  obtain ⟨i, -, hi⟩ := hp
  obtain ⟨j, -, hj⟩ := hq
  have hij : i = j := by rw [← h.pids i p hi, ← h.pids j q hj, hpid]
  rw [hij, hj] at hi
  exact (Option.some.inj hi).symm

/-- What creating a process does: the other blocks are served, and the new one, if there is one,
has become ready as it was filled in. -/
structure Extends (k k' : Kernel) : Prop where
  block : ∀ p, k.IsProcess p → (k.pcb p).Served (k'.pcb p)
  table : k'.processes = k.processes ∧ k'.nProcesses = k.nProcesses
    ∨ ∃ q parent flags mm, ¬ k.IsProcess q ∧ k.nProcesses < N_PROCESSES
      ∧ k'.processes = Function.update k.processes k.nProcesses (some q)
      ∧ k'.nProcesses = k.nProcesses + 1
      ∧ (childPcb parent flags mm k.nProcesses).Scheduled (k'.pcb q)

theorem Extends.of_served (h : Served k k') : Extends k k' :=
  ⟨fun p _ => h.block p, Or.inl ⟨h.processes, h.nProcesses⟩⟩

/-- Code around the creation of a process. -/
theorem Extends.then {k₁ : Kernel} (h : Extends k k₁) (h' : Scheduled k₁ k') : Extends k k' where
  block p hp := (h.block p hp).trans (.scheduled (h'.block p))
  table := by
    rw [h'.processes, h'.nProcesses]
    rcases h.table with hsame | ⟨q, parent, flags, mm, hnew, hroom, hprocesses, hcount, hchild⟩
    · exact Or.inl hsame
    · exact Or.inr ⟨q, parent, flags, mm, hnew, hroom, hprocesses, hcount,
        hchild.trans (h'.block q)⟩

theorem Table.extends (h : k.Table) (he : Extends k k') : k'.Table := by
  have hpid : ∀ i p, k.processes i = some p → (k'.pcb p).pid = i := by
    intro i p hp
    have hi : i < k.nProcesses := by
      refine Nat.lt_of_not_le fun hi => ?_
      rw [h.ends i hi] at hp
      exact nomatch hp
    exact (he.block p ⟨i, Nat.lt_of_lt_of_le hi h.size, hp⟩).pid.trans (h.pids i p hp)
  rcases he.table with ⟨hprocesses, hcount⟩ | ⟨q, _, _, _, -, hroom, hprocesses, hcount, hchild⟩
  · refine ⟨?_, ?_, ?_, hcount ▸ h.size⟩ <;> rw [hprocesses]
    · exact hcount ▸ h.ends
    · exact hcount ▸ h.dense
    · exact hpid
  · have hold : ∀ i, i ≠ k.nProcesses → k'.processes i = k.processes i := fun i hi => by
      rw [hprocesses, Function.update_of_ne hi]
    have hnew : k'.processes k.nProcesses = some q := by rw [hprocesses, Function.update_self]
    refine ⟨fun i hi => ?_, fun i hi => ?_, fun i p hp => ?_, by omega⟩
    · rw [hold i (by omega)]
      exact h.ends i (by omega)
    · by_cases hin : i = k.nProcesses
      · exact ⟨q, hin ▸ hnew⟩
      · rw [hold i hin]
        exact h.dense i (by omega)
    · by_cases hin : i = k.nProcesses
      · rw [hin, hnew] at hp
        obtain rfl := Option.some.inj hp
        exact (PCB.Served.scheduled hchild).pid.trans hin.symm
      · exact hpid i p (hold i hin ▸ hp)

/-- `add_process_to_scheduler` of a child's block that is in no slot. -/
theorem addProcessToScheduler_extends {p : PcbPtr} (hnew : ¬ k.IsProcess p) {parent : PCB}
    {flags : BitVec 64} {mm : MmStruct} (hchild : k.pcb p = childPcb parent flags mm k.nProcesses)
    (h : k.addProcessToScheduler alg p = some k') :
    Extends k k' ∧ k'.currentProcess = k.currentProcess := by
  have hpid : (k.pcb p).pid = k.nProcesses := by rw [hchild]; rfl
  have hready : (k.pcb p).state = .ready := by rw [hchild]; rfl
  unfold addProcessToScheduler at h
  dsimp only at h
  split at h
  · exact nomatch h
  · next hroom =>
      obtain ⟨k₁, hk₁⟩ : ∃ k₁ : Kernel, k₁ = { k with
        processes := Function.update k.processes (k.pcb p).pid (some p)
        queueLevel := Function.update k.queueLevel (k.pcb p).pid
          (startLevel alg (k.pcb p).queuePriority) } := ⟨_, rfl⟩
      rw [← hk₁] at h
      obtain rfl := Option.some.inj h
      have hq := Scheduled.enqueueProcess alg k₁ p
      have hcur : (k₁.enqueueProcess alg p).currentProcess = k₁.currentProcess :=
        rest_currentProcess (enqueueProcess_rest alg k₁ p)
      have hpcb : k₁.pcb = k.pcb := by rw [hk₁]
      have hblock : ∀ r, (k.pcb r).Scheduled ((k₁.enqueueProcess alg p).pcb r) := fun r =>
        hpcb ▸ hq.block r
      have hsize : (k₁.enqueueProcess alg p).nProcesses = k.nProcesses := by
        rw [hq.nProcesses, hk₁]
      refine ⟨⟨fun r _ => .scheduled (hblock r), Or.inr ⟨p, parent, flags, mm, hnew, by omega, ?_,
        congrArg (· + 1) hsize, hchild ▸ hblock p⟩⟩, hcur.trans (by rw [hk₁])⟩
      show (k₁.enqueueProcess alg p).processes = _
      rw [hq.processes, hk₁, hpid]

variable (alg) in
/-- `copy_process` into a page that no process occupies. -/
theorem copyProcess_extends {page : Option Nat} (hfresh : k.PageFresh page) (flags : BitVec 64)
    (mm : MmStruct) :
    Extends k (k.copyProcess alg flags page mm).1
      ∧ (k.copyProcess alg flags page mm).1.currentProcess = k.currentProcess := by
  have hdisabled : Served k k.preemptDisable := .scheduled (.preemptDisable k)
  unfold copyProcess
  cases page with
  | none => exact ⟨.of_served hdisabled, rfl⟩
  | some n =>
      have hp : ¬ k.IsProcess (.page n) := by
        rintro ⟨i, hi, hslot⟩
        exact hfresh n rfl i hi hslot
      -- The blocks of the processes are not the one that is filled in.
      have hother : ∀ (k₁ : Kernel) (b : PCB) (r : PcbPtr), k.IsProcess r →
          (k₁.modifyPcb (.page n) fun _ => b).pcb r = k₁.pcb r := fun k₁ b r hr =>
        modifyPcb_pcb_of_ne _ _ fun h => hp (h ▸ hr)
      have hclear : ∀ r, k.IsProcess r →
          (k.pcb r).Served ((k.preemptDisable.modifyPcb (.page n) fun _ => .zeroed).pcb r) :=
        fun r hr => by rw [hother _ _ r hr]; exact hdisabled.block r
      dsimp only
      split
      · exact ⟨⟨hclear, Or.inl ⟨rfl, rfl⟩⟩, rfl⟩
      · obtain ⟨parent, hparent⟩ : ∃ b, b = (k.preemptDisable.modifyPcb (.page n)
          fun _ => .zeroed).current := ⟨_, rfl⟩
        obtain ⟨k₁, hk₁⟩ : ∃ k₁, k₁ = (k.preemptDisable.modifyPcb (.page n)
          fun _ => .zeroed).modifyPcb (.page n) fun _ => childPcb parent flags mm
            (k.preemptDisable.modifyPcb (.page n) fun _ => .zeroed).nProcesses := ⟨_, rfl⟩
        have hblock : ∀ r, k.IsProcess r → (k.pcb r).Served (k₁.pcb r) := fun r hr => by
          rw [hk₁, hother _ _ r hr]
          exact hclear r hr
        have hk : k₁.processes = k.processes ∧ k₁.nProcesses = k.nProcesses
            ∧ k₁.currentProcess = k.currentProcess := by
          rw [hk₁]
          exact ⟨rfl, rfl, rfl⟩
        rw [← hparent, ← hk₁]
        split
        · exact ⟨⟨hblock, Or.inl ⟨hk.1, hk.2.1⟩⟩, hk.2.2⟩
        · next k₂ hk₂ =>
            have hchild : k₁.pcb (.page n) = childPcb parent flags mm k₁.nProcesses := by
              rw [hk.2.1, hk₁]
              exact modifyPcb_pcb_self _ _ _
            have hnew : ¬ k₁.IsProcess (.page n) := by
              unfold IsProcess
              rw [hk.1]
              exact hp
            obtain ⟨hadd, hcur⟩ := addProcessToScheduler_extends hnew hchild hk₂
            have hall : Extends k k₂ := by
              refine ⟨fun r hr => (hblock r hr).trans (hadd.block r ?_), ?_⟩
              · unfold IsProcess
                rw [hk.1]
                exact hr
              · have htable := hadd.table
                rw [hk.1, hk.2.1] at htable
                refine htable.imp id ?_
                rintro ⟨q, b, fs, m, hq, hrest⟩
                refine ⟨q, b, fs, m, ?_, hrest⟩
                unfold IsProcess at hq ⊢
                rw [hk.1] at hq
                exact hq
            exact ⟨hall.then (.preemptEnable k₂), hcur.trans hk.2.2⟩

end Kernel

end DemoOS
