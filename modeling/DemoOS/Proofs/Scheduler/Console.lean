import DemoOS.Proofs.Scheduler.Cpu
import DemoOS.Proofs.Scheduler.Lockstep
import DemoOS.Proofs.Scheduler.Unread

/-!
# `DemoOS.Proofs.Scheduler.Console`: who works on the console

Nothing but `syscall_input` and the UART interrupt writes the console's variables or makes a
process wait for a character. `Kernel.LeavesConsole` says so of a piece of kernel code, and
`enter_leavesConsole` of every other trap. `handleUartIrq_wakes` is about the interrupt: whoever
still waits after it has found the ring as it was.
-/

set_option autoImplicit false

namespace DemoOS

namespace Kernel

/-- No process is inside a `syscall_input` that was switched out as a whole. -/
def NoInputPlaces (k : Kernel) : Prop := ∀ p, (k.pcb p).resume.isInput = false

theorem NoInputPlaces.scheduled {k k' : Kernel} (hk : k.NoInputPlaces) (h : Scheduled k k') :
    k'.NoInputPlaces := by
  intro p
  rw [show (k'.pcb p).resume = (k.pcb p).resume from congrArg (fun b => b.resume) (h.block p).fixed]
  exact hk p

/-- The table is empty from `n_processes` on. -/
def SlotsCounted (k : Kernel) : Prop := ∀ i, k.nProcesses ≤ i → k.processes i = none

theorem SlotsCounted.scheduled {k k' : Kernel} (hk : k.SlotsCounted) (h : Scheduled k k') : k'.SlotsCounted := by
  intro i hi
  rw [h.processes]
  exact hk i (h.nProcesses ▸ hi)

/-- The console is left alone. -/
structure LeavesConsole (k k' : Kernel) : Prop where
  uartOwner : k'.uartOwner = k.uartOwner
  uartHead : k'.uartHead = k.uartHead
  uartTail : k'.uartTail = k.uartTail
  uartBuffer : k'.uartBuffer = k.uartBuffer
  waits : ∀ p, k'.IsProcess p → (k'.pcb p).state = .waitingUartInput →
    k.IsProcess p ∧ (k.pcb p).state = .waitingUartInput
  places : k.NoInputPlaces → k'.NoInputPlaces
  slots : k.SlotsCounted → k'.SlotsCounted

namespace LeavesConsole

variable {k k' k'' : Kernel} {p : PcbPtr} {f : PCB → PCB} {alg : SchedAlgorithm}

theorem refl (k : Kernel) : LeavesConsole k k := ⟨rfl, rfl, rfl, rfl, fun _ hp hst => ⟨hp, hst⟩, id, id⟩

theorem trans (h : LeavesConsole k k') (h' : LeavesConsole k' k'') : LeavesConsole k k'' where
  uartOwner := h'.uartOwner.trans h.uartOwner
  uartHead := h'.uartHead.trans h.uartHead
  uartTail := h'.uartTail.trans h.uartTail
  uartBuffer := h'.uartBuffer.trans h.uartBuffer
  waits p hp hst := by
    obtain ⟨hp', hst'⟩ := h'.waits p hp hst
    exact h.waits p hp' hst'
  places hk := h'.places (h.places hk)
  slots hk := h'.slots (h.slots hk)

/-- An assignment to the block of a process. -/
theorem modifyPcb (k : Kernel) (p : PcbPtr) (f : PCB → PCB)
    (hstate : (f (k.pcb p)).state = .waitingUartInput → k.IsProcess p →
      (k.pcb p).state = .waitingUartInput)
    (hresume : (k.pcb p).resume.isInput = false → (f (k.pcb p)).resume.isInput = false) :
    LeavesConsole k (k.modifyPcb p f) where
  uartOwner := rfl
  uartHead := rfl
  uartTail := rfl
  uartBuffer := rfl
  waits r hr hst := by
    refine ⟨hr, ?_⟩
    rw [modifyPcb_pcb] at hst
    split at hst
    · next hrp =>
        subst hrp
        exact hstate hst hr
    · exact hst
  places hk r := by
    rw [modifyPcb_pcb]
    split
    · exact hresume (hk p)
    · exact hk r
  slots := id

/-- An assignment that leaves the state and the place alone. -/
theorem assign (k : Kernel) (p : PcbPtr) (f : PCB → PCB)
    (hstate : ∀ b, (f b).state = b.state)
    (hresume : ∀ b, (f b).resume = b.resume) :
    LeavesConsole k (k.modifyPcb p f) :=
  modifyPcb k p f (fun hst _ => (hstate _).symm.trans hst) fun h => (hresume _).symm ▸ h

theorem setState (k : Kernel) (p : PcbPtr) {st : ProcessState} (hst : st ≠ .waitingUartInput) :
    LeavesConsole k (k.setState p st) :=
  modifyPcb k p (fun b => b.withState st) (fun h _ => absurd h hst) id

theorem suspendAt (k : Kernel) {point : ResumePoint} (hpoint : point.isInput = false) :
    LeavesConsole k (k.suspendAt point) :=
  modifyPcb k k.currentProcess (fun b => { b with resume := point }) (fun h _ => h) fun _ => hpoint

/-- Scheduling. -/
theorem of_scheduled (h : Scheduled k k') (hunread : k'.unread = k.unread) :
    LeavesConsole k k' where
  uartOwner := congrArg (fun k => k.uartOwner) h.fixed
  uartHead := congrArg Unread.uartHead hunread
  uartTail := congrArg Unread.uartTail hunread
  uartBuffer := congrArg Unread.uartBuffer hunread
  waits p hp hst := ⟨(h.isProcess p).mp hp, (h.block p).waiting rfl hst⟩
  places hk := hk.scheduled h
  slots hk := hk.scheduled h

theorem enqueueProcess (alg : SchedAlgorithm) (k : Kernel) (p : PcbPtr) :
    LeavesConsole k (k.enqueueProcess alg p) := by
  have hunread := enqueueProcess_withUnread k k.unread p alg
  rw [withUnread_unread] at hunread
  exact of_scheduled (.enqueueProcess alg k p) (by rw [hunread]; rfl)

theorem pickNext (h : alg.pickNext k = some k') : LeavesConsole k k' :=
  of_scheduled (.pickNext h) (pickNext_unread h)

theorem schedule (k : Kernel) : LeavesConsole k k.schedule.1 := by
  have hunread := schedule_withUnread k k.unread
  rw [withUnread_unread] at hunread
  exact of_scheduled (.schedule k) (by rw [hunread]; rfl)

theorem handleTimerTick {r : Kernel × Control} (h : k.handleTimerTick alg = some r) :
    LeavesConsole k r.1 :=
  of_scheduled (.handleTimerTick h) (handleTimerTick_unread h)

/-- A process becomes ready and is enqueued. -/
theorem wake (alg : SchedAlgorithm) (k : Kernel) (p : PcbPtr) :
    LeavesConsole k ((k.setState p .ready).enqueueProcess alg p) :=
  (setState k p (by decide)).trans (enqueueProcess alg _ p)

/-- The system calls. -/
theorem lockstep (alg : SchedAlgorithm) (k₀ : Kernel) :
    Lockstep alg alg fun k l => l = k ∧ LeavesConsole k₀ k where
  same h := by
    obtain ⟨rfl, -⟩ := h
    exact ⟨fun _ => rfl, rfl, rfl, rfl, rfl, rfl, rfl, rfl, rfl⟩
  assign {k _} p f hf h := by
    obtain ⟨rfl, h⟩ := h
    exact ⟨rfl, h.trans (assign _ p f hf.state hf.resume_eq)⟩
  mark st _ hst h := by
    obtain ⟨rfl, h⟩ := h
    exact ⟨rfl, h.trans (setState _ _ hst)⟩
  waitFor pid h := by
    obtain ⟨rfl, h⟩ := h
    exact ⟨rfl, h.trans
      (assign _ _ (fun b => { b with pidToWait := pid }) (fun _ => rfl) fun _ => rfl)⟩
  suspendAt point hpoint h := by
    obtain ⟨rfl, h⟩ := h
    exact ⟨rfl, h.trans (suspendAt _ hpoint)⟩
  setPgd pgd h := by
    obtain ⟨rfl, h⟩ := h
    exact ⟨rfl, h.trans ⟨rfl, rfl, rfl, rfl, fun _ hp hst => ⟨hp, hst⟩, id, id⟩⟩
  log _ h := by
    obtain ⟨rfl, h⟩ := h
    exact ⟨rfl, h.trans ⟨rfl, rfl, rfl, rfl, fun _ hp hst => ⟨hp, hst⟩, id, id⟩⟩
  wake p _ h := by
    obtain ⟨rfl, h⟩ := h
    exact ⟨rfl, h.trans (wake alg _ p)⟩

/-- A wake-up loop that leaves the places alone. -/
theorem wakeProcesses (alg : SchedAlgorithm) (waits : PCB → Bool) (wake : PCB → PCB)
    (hstate : ∀ b, (wake b).state = b.state) (hresume : ∀ b, (wake b).resume = b.resume)
    (slots : List Nat) (k : Kernel) : LeavesConsole k (k.wakeProcesses alg waits wake slots) := by
  induction slots generalizing k with
  | nil => exact refl k
  | cons i slots ih =>
      refine trans ?_ (ih _)
      dsimp only
      split
      · exact refl k
      · next p _ =>
          split
          · exact (assign k p wake hstate hresume).trans (.wake alg _ p)
          · exact refl k

theorem preemptDisable (k : Kernel) : LeavesConsole k k.preemptDisable :=
  assign k k.currentProcess (fun b => { b with preemptDisabled := b.preemptDisabled + 1 })
    (fun _ => rfl) fun _ => rfl

theorem preemptEnable (k : Kernel) : LeavesConsole k k.preemptEnable :=
  assign k k.currentProcess (fun b => { b with preemptDisabled := b.preemptDisabled - 1 })
    (fun _ => rfl) fun _ => rfl

theorem exitProcess (alg : SchedAlgorithm) (k : Kernel) :
    LeavesConsole k (k.exitProcess alg).1 := by
  have hended := (preemptDisable k).trans (setState _ k.preemptDisable.currentProcess
    (show ProcessState.zombie ≠ .waitingUartInput by decide))
  have hwoken := fun waits => hended.trans (wakeProcesses alg waits
    (fun b => { b with pidToWait := -1 }) (fun _ => rfl) (fun _ => rfl) (List.range N_PROCESSES) _)
  exact (((hwoken _).trans (preemptEnable _)).trans (suspendAt _ rfl)).trans (schedule _)

/-- A block that is filled in for a process that is not in the table. -/
theorem setPcb (k : Kernel) {p : PcbPtr} (hnew : ¬ k.IsProcess p) {b : PCB}
    (hb : b.resume.isInput = false) : LeavesConsole k (k.modifyPcb p fun _ => b) :=
  modifyPcb k p (fun _ => b) (fun _ hp => absurd hp hnew) fun _ => hb

/-- Behind the step, `n_processes` is counted up. -/
theorem counted (h : LeavesConsole k k') (hprocesses : k'.processes = k.processes)
    (hcount : k'.nProcesses = k.nProcesses) :
    LeavesConsole { k with nProcesses := k.nProcesses + 1 }
      { k' with nProcesses := k'.nProcesses + 1 } where
  uartOwner := h.uartOwner
  uartHead := h.uartHead
  uartTail := h.uartTail
  uartBuffer := h.uartBuffer
  waits := h.waits
  places := h.places
  slots hk i hi := by
    show k'.processes i = none
    rw [hprocesses]
    exact hk i (hcount ▸ hi)

/-- `add_process_to_scheduler` of a ready process with the next pid. -/
theorem addProcessToScheduler (hpid : (k.pcb p).pid = k.nProcesses)
    (hready : (k.pcb p).state = .ready)
    (h : k.addProcessToScheduler alg p = some k') : LeavesConsole k k' := by
  unfold Kernel.addProcessToScheduler at h
  dsimp only at h
  split at h
  · exact nomatch h
  · obtain ⟨k₁, hk₁⟩ : ∃ k₁ : Kernel, k₁ = { k with
      processes := Function.update k.processes (k.pcb p).pid (some p)
      queueLevel := Function.update k.queueLevel (k.pcb p).pid
        (startLevel alg (k.pcb p).queuePriority) } := ⟨_, rfl⟩
    rw [← hk₁] at h
    obtain rfl := Option.some.inj h
    have hregistered : LeavesConsole k { k₁ with nProcesses := k₁.nProcesses + 1 } := by
      subst hk₁
      refine ⟨rfl, rfl, rfl, rfl, fun r ⟨i, hi, hslot⟩ hst => ?_, id, fun hk i hi => ?_⟩
      · dsimp only at hslot
        rw [Function.update_apply] at hslot
        split at hslot
        · obtain rfl := Option.some.inj hslot
          exact nomatch hready.symm.trans hst
        · exact ⟨⟨i, hi, hslot⟩, hst⟩
      · have hi' : k.nProcesses + 1 ≤ i := hi
        dsimp only
        rw [Function.update_of_ne (by omega)]
        exact hk i (by omega)
    have hqueued := Scheduled.enqueueProcess alg k₁ p
    exact hregistered.trans
      (counted (enqueueProcess alg k₁ p) hqueued.processes hqueued.nProcesses)

/-- `copy_process` into a page that no process occupies. -/
theorem copyProcess (alg : SchedAlgorithm) {page : Option Nat} (hfresh : k.PageFresh page)
    (cloneFlags : BitVec 64) (mm : MmStruct) :
    LeavesConsole k (k.copyProcess alg cloneFlags page mm).1 := by
  unfold Kernel.copyProcess
  cases page with
  | none => exact preemptDisable k
  | some n =>
      have hnew : ¬ k.IsProcess (.page n) := by
        rintro ⟨i, hi, hslot⟩
        exact hfresh n rfl i hi hslot
      have hcleared := (preemptDisable k).trans
        (setPcb k.preemptDisable (p := .page n) hnew (b := .zeroed) rfl)
      dsimp only
      split
      · exact hcleared
      · have hfilled := fun parent pid => hcleared.trans
          (setPcb (k.preemptDisable.modifyPcb (.page n) fun _ => .zeroed) (p := .page n) hnew
            (b := childPcb parent cloneFlags mm pid)
            (by unfold childPcb; dsimp only; split <;> rfl))
        split
        · exact hfilled _ _
        · next k₁ hk₁ =>
            have hadded := addProcessToScheduler (by rw [modifyPcb_pcb_self]; rfl)
              (by rw [modifyPcb_pcb_self]; rfl) hk₁
            exact ((hfilled _ _).trans hadded).trans (preemptEnable k₁)

theorem schedSetParam (alg : SchedAlgorithm) (k : Kernel) (p : PcbPtr) (param value : Int) :
    LeavesConsole k (k.schedSetParam alg p param value).1 := by
  unfold Kernel.schedSetParam
  split
  · exact refl k
  · split
    · split
      · exact refl k
      · exact assign k p (fun b => { b with priority := value }) (fun _ => rfl) fun _ => rfl
    · split
      · split
        · exact refl k
        · exact assign k p (fun b => { b with tickets := value }) (fun _ => rfl) fun _ => rfl
      · split
        · split
          · exact refl k
          · have hwritten := fun value => (preemptDisable k).trans
              (assign _ p (fun b => { b with queuePriority := value }) (fun _ => rfl) fun _ => rfl)
            have hlevel : ∀ {k : Kernel} levels, LeavesConsole k { k with queueLevel := levels } :=
              fun _ => ⟨rfl, rfl, rfl, rfl, fun _ hp hst => ⟨hp, hst⟩, id, id⟩
            exact ((hwritten _).trans (hlevel _)).trans (preemptEnable _)
        · exact refl k

theorem returnToUser (k : Kernel) (value : Int) : LeavesConsole k (k.returnToUser value).1 :=
  (assign k k.currentProcess
    (fun b => { b with regs := b.regs.setRegister0 (BitVec.ofInt 64 value) })
    (fun _ => rfl) fun _ => rfl).trans
      (suspendAt _ rfl)

end LeavesConsole

variable {alg : SchedAlgorithm} {k k' : Kernel}

/-- The code of every trap that does not work on the console and does not go on inside a
`syscall_input`. -/
theorem enter_leavesConsole {t : Trap} (ht : t.isConsole = false)
    (hk : t = .resume → k.current.resume.isInput = false)
    {r : Kernel × Control} (h : k.enter alg t = some r) : LeavesConsole k r.1 := by
  have hcalls : t.isPlain = true → t ≠ .exit → LeavesConsole k r.1 := by
    intro hplain hexit
    have hends := (LeavesConsole.lockstep alg k).enter hplain hexit ht rfl
      hk ⟨rfl, .refl k⟩
    rw [h] at hends
    cases hends with
    | some hends =>
        rcases hends.left with ⟨k₁, l, rfl, -, hleft⟩ | ⟨k₁, l, rfl, -, hleft⟩
        · exact hleft
        · exact hleft.trans (.schedule k₁)
  cases t with
  | kernelMain page =>
      obtain ⟨⟨-, -, hfresh⟩, rfl⟩ := guarded h
      exact (LeavesConsole.copyProcess alg hfresh PF_KTHREAD .empty).trans (.suspendAt _ rfl)
  | fork page mm =>
      obtain ⟨⟨-, hfresh⟩, rfl⟩ := guarded h
      exact (LeavesConsole.copyProcess alg hfresh 0 mm).trans (.returnToUser _ _)
  | setSchedParam pid param value =>
      obtain ⟨-, rfl⟩ := guarded h
      unfold syscallSetSchedParam
      split
      · exact .returnToUser k (-1)
      · exact (LeavesConsole.schedSetParam alg k _ param value).trans (.returnToUser _ _)
  | exit =>
      obtain ⟨-, rfl⟩ := guarded h
      exact .exitProcess alg k
  | timerTick => exact .handleTimerTick h
  | input _ | uartIrq _ _ _ => exact nomatch ht
  | _ => exact hcalls rfl fun heq => nomatch heq

/-! ### The UART interrupt -/

/-- After the wake-up loop of the interrupt, the processes in the given slots do not wait for a
character. -/
theorem wakeProcesses_wakes (alg : SchedAlgorithm) {slots : List Nat} {k : Kernel} {i : Nat}
    (hi : i ∈ slots) {p : PcbPtr} (hp : k.processes i = some p) :
    ((k.wakeProcesses alg (fun b => b.state = .waitingUartInput) id slots).pcb p).state
      ≠ .waitingUartInput := by
  induction slots generalizing k with
  | nil => exact absurd hi List.not_mem_nil
  | cons j slots ih =>
      have hround := Scheduled.wakeProcesses alg (fun b => b.state = .waitingUartInput) [j] k
      have hrest := Scheduled.wakeProcesses alg (fun b => b.state = .waitingUartInput) slots
        (k.wakeProcesses alg (fun b => b.state = .waitingUartInput) id [j])
      rcases List.mem_cons.mp hi with rfl | hi
      · -- The round of the slot makes the process ready, and the others make nobody wait.
        intro hst
        have hst' := (hrest.block p).waiting rfl hst
        simp only [wakeProcesses, List.foldl_cons, List.foldl_nil, hp, decide_eq_true_eq] at hst'
        split at hst'
        · have hready := ((Scheduled.enqueueProcess alg _ p).block p).waiting rfl hst'
          rw [setState, modifyPcb_pcb_self] at hready
          cases hready
        · next hawake => exact hawake hst'
      · exact ih hi (hround.processes ▸ hp)

/-- What the interrupt does for the readers: whoever still waits has found the ring as it was. -/
structure WakesReaders (k k' : Kernel) : Prop where
  scheduled : Scheduled k k'
  ring : ∀ p, k.IsProcess p → (k'.pcb p).state = .waitingUartInput →
    k'.uartHead = k.uartHead ∧ k'.uartTail = k.uartTail

theorem WakesReaders.refl (k : Kernel) : WakesReaders k k := ⟨.refl k, fun _ _ _ => ⟨rfl, rfl⟩⟩

theorem WakesReaders.trans {k'' : Kernel} (h : WakesReaders k k') (h' : WakesReaders k' k'') :
    WakesReaders k k'' where
  scheduled := h.scheduled.trans h'.scheduled
  ring p hp hst := by
    obtain ⟨hhead, htail⟩ := h.ring p hp ((h'.scheduled.block p).waiting rfl hst)
    obtain ⟨hhead', htail'⟩ := h'.ring p ((h.scheduled.isProcess p).mpr hp) hst
    exact ⟨hhead'.trans hhead, htail'.trans htail⟩

/-- A word with an error flag is dropped, and for any other word all readers are woken. -/
theorem receiveWord_wakes (alg : SchedAlgorithm) {k : Kernel} (hk : k.SlotsCounted)
    (dr : BitVec 32) : WakesReaders k (k.receiveWord alg dr) := by
  have hawake : ∀ {k : Kernel}, k.SlotsCounted → ∀ p, k.IsProcess p →
      ((k.wakeProcesses alg (fun b => b.state = .waitingUartInput) id
        (List.range k.nProcesses)).pcb p).state ≠ .waitingUartInput := by
    rintro k hk p ⟨i, -, hslot⟩
    refine wakeProcesses_wakes alg (List.mem_range.mpr (Nat.lt_of_not_le fun hi => ?_)) hslot
    exact nomatch (hk i hi).symm.trans hslot
  have hscheduled : Scheduled k (k.receiveWord alg dr) := .receiveWord k dr
  unfold receiveWord at hscheduled ⊢
  dsimp only at hscheduled ⊢
  split at hscheduled
  · next herror =>
      rw [if_pos herror]
      exact .refl k
  · next herror =>
      rw [if_neg herror]
      refine ⟨hscheduled, fun p hp hst => absurd hst ?_⟩
      split
      · exact hawake (k := { k with
          uartBuffer := Function.update k.uartBuffer k.uartHead (dr.setWidth 8)
          uartHead := (k.uartHead + 1) % UART_BUFFER_SIZE }) hk p hp
      · exact hawake hk p hp

theorem handleUartIrq_wakes (alg : SchedAlgorithm) {k : Kernel} (hk : k.SlotsCounted)
    (mis : BitVec 32) (fifo timeoutFifo : List (BitVec 32)) :
    WakesReaders k (k.handleUartIrq alg mis fifo timeoutFifo) := by
  have hwords : ∀ (fifo : List (BitVec 32)) {k : Kernel}, k.SlotsCounted →
      WakesReaders k (fifo.foldl (receiveWord alg) k) := by
    intro fifo
    induction fifo with
    | nil => exact fun _ => .refl _
    | cons dr fifo ih =>
        intro k hk
        have hword := receiveWord_wakes alg hk dr
        exact hword.trans (ih (hk.scheduled hword.scheduled))
  simp only [handleUartIrq, foldl_timeoutWord, ite_self]
  split
  · exact hwords fifo hk
  · exact .refl k

end Kernel

end DemoOS
