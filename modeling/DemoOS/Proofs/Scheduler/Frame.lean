import DemoOS.Proofs.Scheduler.CodeRelations

/-!
# `DemoOS.Proofs.Scheduler.Frame`: what scheduling leaves alone

`Scheduled k k'` bounds what the queue operations, the wake-up loops, the signal handler,
the selection functions and the two interrupt handlers do to the kernel: in a process control block
they write the fields of scheduling and the link, they make a process ready or running, and
a process becomes a zombie or stopped only through a signal that was pending. The process
table, the owner of the console and the rest of the blocks stay as they were.

There is one lemma for each function, under its name. None of them asks for the scheduler's
invariants, so they hold as well of a state that an interrupt has cut out of the middle of a
system call, whatever the ready queues look like there.
-/

set_option autoImplicit false

namespace DemoOS

/-- The block without the fields of scheduling. -/
def PCB.fixed (b : PCB) : PCB :=
  { b with
    state := .unset
    counter := 0
    estBurst := 0
    burstTicks := 0
    preemptDisabled := 0
    pendingSignals := 0
    nextReady := none }

/-- The event is one of scheduling. -/
def KernelEvent.isScheduling : KernelEvent → Bool
  | .enqueued _ _ | .dispatched _ | .killed _ | .stopped _ | .resumed _ | .recharged _ => true
  | _ => false

/-- What scheduling may do to a block. -/
structure PCB.Scheduled (b b' : PCB) : Prop where
  fixed : b'.fixed = b.fixed
  state : b'.state = b.state ∨ b'.state = .running ∨ b'.state = .ready
    ∨ (b'.state = .zombie ∧ b.isPending SIGNAL_KILL)
    ∨ (b'.state = .stopped ∧ b.isPending SIGNAL_STOP)
  /-- Scheduling raises no signal. -/
  signals : ∀ n, b'.isPending n → b.isPending n

namespace PCB.Scheduled

variable {b b' b'' : PCB}

theorem refl (b : PCB) : b.Scheduled b := ⟨rfl, Or.inl rfl, fun _ => id⟩

theorem trans (h : b.Scheduled b') (h' : b'.Scheduled b'') : b.Scheduled b'' where
  fixed := h'.fixed.trans h.fixed
  state := by
    rcases h'.state with heq | hrun | hready | ⟨hst, hpending⟩ | ⟨hst, hpending⟩
    · rw [heq]
      exact h.state
    · exact Or.inr (Or.inl hrun)
    · exact Or.inr (Or.inr (Or.inl hready))
    · exact Or.inr (Or.inr (Or.inr (Or.inl ⟨hst, h.signals _ hpending⟩)))
    · exact Or.inr (Or.inr (Or.inr (Or.inr ⟨hst, h.signals _ hpending⟩)))
  signals n hn := h.signals n (h'.signals n hn)

/-- An assignment to fields of scheduling other than the state and the signals. -/
theorem of_fields (hfixed : b'.fixed = b.fixed) (hstate : b'.state = b.state)
    (hsignals : b'.pendingSignals = b.pendingSignals) : b.Scheduled b' where
  fixed := hfixed
  state := Or.inl hstate
  signals n hn := by
    rw [isPending, hsignals] at hn
    exact hn

/-- Scheduling makes nobody wait. -/
theorem waiting (h : b.Scheduled b') {st : ProcessState} (hwaiting : st.isWaiting = true)
    (hst : b'.state = st) : b.state = st := by
  subst hst
  rcases h.state with heq | hst' | hst' | ⟨hst', -⟩ | ⟨hst', -⟩
  · exact heq.symm
  all_goals exact nomatch hst' ▸ hwaiting

theorem ready (b : PCB) : b.Scheduled (b.withState .ready) :=
  ⟨rfl, Or.inr (Or.inr (Or.inl rfl)), fun _ => id⟩

theorem running (b : PCB) : b.Scheduled (b.withState .running) :=
  ⟨rfl, Or.inr (Or.inl rfl), fun _ => id⟩

/-- A signal that is not pending is not pending after another one was cleared. -/
theorem isPending_clear {n m : Nat} (st : ProcessState)
    (h : PCB.isPending { b with state := st, pendingSignals := b.clearSignal m } n) :
    b.isPending n := by
  simp only [isPending, clearSignal, bne_iff_ne, ne_eq] at h ⊢
  intro hzero
  refine h ?_
  rw [BitVec.and_assoc, BitVec.and_comm (~~~_), ← BitVec.and_assoc, hzero]
  exact BitVec.zero_and

end PCB.Scheduled

/-- The kernel without what scheduling and the input interrupt write. -/
def Kernel.fixed (k : Kernel) : Kernel :=
  { k with
    uartBuffer := fun _ => 0
    uartHead := 0
    uartTail := 0
    pcb := fun _ => .zeroed
    currentProcess := .initProcess
    queues := fun _ => QUEUE_INIT
    queueLevel := fun _ => 0
    mlTicksSinceBoost := 0
    lotteryRngState := 0
    timerClo := fun _ => 0
    ttbr0 := 0
    trace := [] }

/-- What scheduling may do to the kernel. -/
structure Kernel.Scheduled (k k' : Kernel) : Prop where
  block : ∀ p, (k.pcb p).Scheduled (k'.pcb p)
  fixed : k'.fixed = k.fixed
  trace : ∃ events, k'.trace = k.trace ++ events ∧ ∀ e ∈ events, e.isScheduling
  /-- The active page tables stay those of the process that owns the CPU. -/
  space : k.ttbr0 = k.current.mm.pgd → k'.ttbr0 = k'.current.mm.pgd

namespace Kernel.Scheduled

variable {k k' k'' : Kernel} {p : PcbPtr} {f : PCB → PCB}

theorem refl (k : Kernel) : Scheduled k k :=
  ⟨fun _ => .refl _, rfl, ⟨[], (List.append_nil _).symm, fun _ he => (nomatch he)⟩, id⟩

theorem trans (h : Scheduled k k') (h' : Scheduled k' k'') : Scheduled k k'' where
  block p := (h.block p).trans (h'.block p)
  fixed := h'.fixed.trans h.fixed
  trace := by
    obtain ⟨events, htrace, hevents⟩ := h.trace
    obtain ⟨events', htrace', hevents'⟩ := h'.trace
    refine ⟨events ++ events', by rw [htrace', htrace, List.append_assoc], ?_⟩
    intro e he
    rcases List.mem_append.mp he with he | he
    · exact hevents e he
    · exact hevents' e he
  space hk := h'.space (h.space hk)

theorem processes (h : Scheduled k k') : k'.processes = k.processes :=
  congrArg (fun k => k.processes) h.fixed

theorem nProcesses (h : Scheduled k k') : k'.nProcesses = k.nProcesses :=
  congrArg (fun k => k.nProcesses) h.fixed

theorem isProcess (h : Scheduled k k') (p : PcbPtr) : k'.IsProcess p ↔ k.IsProcess p := by
  unfold Kernel.IsProcess
  rw [h.processes]

/-! ### Assignments -/

theorem modifyPcb (hf : (k.pcb p).Scheduled (f (k.pcb p))) : Scheduled k (k.modifyPcb p f) where
  block r := by
    rw [Kernel.modifyPcb_pcb]
    split
    · next hr => rw [hr]; exact hf
    · exact .refl _
  fixed := rfl
  trace := ⟨[], (List.append_nil _).symm, fun _ he => (nomatch he)⟩
  space hk := by
    show k.ttbr0 = ((k.modifyPcb p f).pcb k.currentProcess).mm.pgd
    rw [hk, Kernel.modifyPcb_pcb]
    split
    · next hr =>
        rw [current, hr]
        exact (congrArg (fun b => b.mm.pgd) hf.fixed).symm
    · rfl

/-- Queues, levels, counters, random numbers or the input buffer change. -/
theorem of_rest (hpcb : k'.pcb = k.pcb) (hcurrent : k'.currentProcess = k.currentProcess)
    (hfixed : k'.fixed = k.fixed) (htrace : k'.trace = k.trace) (hspace : k'.ttbr0 = k.ttbr0) :
    Scheduled k k' where
  block p := by rw [hpcb]; exact .refl _
  fixed := hfixed
  trace := ⟨[], by rw [htrace, List.append_nil], fun _ he => (nomatch he)⟩
  space hk := by rw [hspace, current, hpcb, hcurrent]; exact hk

theorem setLink (k : Kernel) (p : PcbPtr) (x : Option PcbPtr) : Scheduled k (k.setLink p x) :=
  modifyPcb (.of_fields rfl rfl rfl)

theorem setCounter (k : Kernel) (p : PcbPtr) (c : Int) : Scheduled k (k.setCounter p c) :=
  modifyPcb (.of_fields rfl rfl rfl)

theorem setReady (k : Kernel) (p : PcbPtr) : Scheduled k (k.setState p .ready) :=
  modifyPcb (.ready _)

theorem setRunning (k : Kernel) (p : PcbPtr) : Scheduled k (k.setState p .running) :=
  modifyPcb (.running _)

theorem setQueue (k : Kernel) (q : QueueId) (x : ProcessQueue) : Scheduled k (k.setQueue q x) :=
  of_rest rfl rfl rfl rfl rfl

theorem preemptEnable (k : Kernel) : Scheduled k k.preemptEnable :=
  modifyPcb (p := k.currentProcess) (f := fun b =>
    { b with preemptDisabled := b.preemptDisabled - 1 }) (.of_fields rfl rfl rfl)

theorem preemptDisable (k : Kernel) : Scheduled k k.preemptDisable :=
  modifyPcb (p := k.currentProcess) (f := fun b =>
    { b with preemptDisabled := b.preemptDisabled + 1 }) (.of_fields rfl rfl rfl)

theorem log (k : Kernel) {e : KernelEvent} (he : e.isScheduling) : Scheduled k (k.log e) where
  block _ := .refl _
  fixed := rfl
  trace := ⟨[e], rfl, fun e' he' => by rw [List.mem_singleton.mp he']; exact he⟩
  space := id

/-! ### Queue operations -/

theorem enqueueProcessTo (k : Kernel) (q : QueueId) (p : PcbPtr) :
    Scheduled k (k.enqueueProcessTo q p) := by
  have hopen := ((setLink k p none).trans (setReady _ p)).trans (log _ (e := .enqueued q p) rfl)
  unfold Kernel.enqueueProcessTo
  split
  · exact .refl k
  · dsimp only
    split
    · exact hopen.trans (setQueue _ q _)
    · exact (hopen.trans (setLink _ _ _)).trans (setQueue _ q _)

theorem enqueueSortedTo (k : Kernel) (q : QueueId) (p : PcbPtr) :
    Scheduled k (k.enqueueSortedTo q p) := by
  have hopen := ((setLink k p none).trans (setReady _ p)).trans (log _ (e := .enqueued q p) rfl)
  unfold Kernel.enqueueSortedTo
  split
  · exact .refl k
  · dsimp only
    split
    · exact hopen.trans (setQueue _ q _)
    · split
      · exact (hopen.trans (setLink _ _ _)).trans (setQueue _ q _)
      · exact (hopen.trans ((setLink _ _ _).trans (setLink _ _ _))).trans (setQueue _ q _)

theorem dequeueProcessFrom (k : Kernel) (q : QueueId) :
    Scheduled k (k.dequeueProcessFrom q).1 := by
  unfold Kernel.dequeueProcessFrom
  dsimp only
  split
  · exact .refl k
  · exact (setQueue k q _).trans (setLink _ _ none)

theorem removeProcessFrom (k : Kernel) (q : QueueId) (previous : Option PcbPtr) (p : PcbPtr) :
    Scheduled k (k.removeProcessFrom q previous p) := by
  unfold Kernel.removeProcessFrom
  dsimp only
  refine trans ?_ (setLink _ p none)
  cases previous with
  | none => exact (setQueue k q _).trans (setQueue _ q _)
  | some r => exact (setLink k r _).trans (setQueue _ q _)

theorem insertion (alg : SchedAlgorithm) (k : Kernel) (p : PcbPtr) :
    Scheduled k (alg.enqueue k p) := by
  cases alg with
  | sjf => exact enqueueSortedTo k _ p
  | _ => exact enqueueProcessTo k _ p

theorem enqueueProcess (alg : SchedAlgorithm) (k : Kernel) (p : PcbPtr) :
    Scheduled k (k.enqueueProcess alg p) := by
  unfold Kernel.enqueueProcess
  split
  · exact .refl k
  · exact insertion alg k p

/-- The wake-up loops of `receive_message` and `handle_uart_irq`, which write nothing but
the state. -/
theorem wakeProcesses (alg : SchedAlgorithm) (waits : PCB → Bool) (slots : List Nat)
    (k : Kernel) : Scheduled k (k.wakeProcesses alg waits id slots) := by
  induction slots generalizing k with
  | nil => exact .refl k
  | cons i slots ih =>
      refine trans ?_ (ih _)
      dsimp only
      split
      · exact .refl k
      · split
        · next p _ _ =>
            have hwake : Scheduled k (k.modifyPcb p id) := modifyPcb (.refl _)
            exact (hwake.trans (setReady _ p)).trans (enqueueProcess alg _ p)
        · exact .refl k

/-! ### Signals and context switch -/

theorem handleProcessSignals (alg : SchedAlgorithm) (k : Kernel) (p : PcbPtr) :
    Scheduled k (k.handleProcessSignals alg p) := by
  unfold Kernel.handleProcessSignals
  dsimp only
  split
  · exact .refl k
  · split
    · next hkill =>
        have hb : (k.pcb p).Scheduled { k.pcb p with
            state := .zombie, pendingSignals := (k.pcb p).clearSignal SIGNAL_KILL } :=
          ⟨rfl, Or.inr (Or.inr (Or.inr (Or.inl ⟨rfl, hkill⟩))),
            fun _ hn => PCB.Scheduled.isPending_clear _ hn⟩
        exact (modifyPcb (f := fun b => { b with
          state := .zombie, pendingSignals := b.clearSignal SIGNAL_KILL }) hb).trans (log _ rfl)
    · split
      · next hstop =>
          have hb : (k.pcb p).Scheduled { k.pcb p with
              state := .stopped, pendingSignals := (k.pcb p).clearSignal SIGNAL_STOP } :=
            ⟨rfl, Or.inr (Or.inr (Or.inr (Or.inr ⟨rfl, hstop⟩))),
              fun _ hn => PCB.Scheduled.isPending_clear _ hn⟩
          exact (modifyPcb (f := fun b => { b with
            state := .stopped, pendingSignals := b.clearSignal SIGNAL_STOP }) hb).trans (log _ rfl)
      · split
        · have hb : (k.pcb p).Scheduled { k.pcb p with
              pendingSignals := (k.pcb p).clearSignal SIGNAL_RESUME } :=
            ⟨rfl, Or.inl rfl, fun _ hn => PCB.Scheduled.isPending_clear (k.pcb p).state hn⟩
          have hclear := modifyPcb (f := fun b => { b with
            pendingSignals := b.clearSignal SIGNAL_RESUME }) hb
          split
          · exact ((hclear.trans (setReady _ p)).trans (log _ (e := .resumed p) rfl)).trans
              (enqueueProcess alg _ p)
          · exact hclear
        · exact .refl k

theorem switchToProcess (k : Kernel) (p : PcbPtr) : Scheduled k (k.switchToProcess p) := by
  have hrun := (setRunning k p).trans (log _ (e := .dispatched p) rfl)
  -- Whoever has the CPU afterwards, its page tables are the active ones.
  have hswitch : ∀ k₁ : Kernel, Scheduled k₁
      { k₁ with currentProcess := p, ttbr0 := (k₁.pcb p).mm.pgd } := fun k₁ =>
    ⟨fun _ => .refl _, rfl, ⟨[], (List.append_nil _).symm, fun _ he => (nomatch he)⟩, fun _ => rfl⟩
  unfold Kernel.switchToProcess
  dsimp only
  split
  · exact hrun
  · split
    · exact (hrun.trans (setReady _ _)).trans (hswitch _)
    · exact hrun.trans (hswitch _)

/-! ### Selection functions -/

/-- The opening of a selection function. -/
theorem requeueOutgoing {g : Kernel → PcbPtr → Kernel} (hg : ∀ k p, Scheduled k (g k p))
    (k : Kernel) : Scheduled k (k.requeueOutgoing g) := by
  unfold Kernel.requeueOutgoing
  dsimp only
  split
  · exact (preemptDisable k).trans (hg _ _)
  · exact preemptDisable k

/-- Its closing. -/
theorem dispatch (k : Kernel) (next : Option PcbPtr) : Scheduled k (k.dispatch next) :=
  (switchToProcess k _).trans (preemptEnable _)

theorem setQuantum (k : Kernel) (next : Option PcbPtr) (quantum : Int) :
    Scheduled k (k.setQuantum next quantum) := by
  cases next with
  | none => exact .refl k
  | some p => exact setCounter k p quantum

variable {alg : SchedAlgorithm}

theorem dequeueUntilReady {q : QueueId} {fuel : Nat} {r : Kernel × Option PcbPtr}
    (h : k.dequeueUntilReady alg q fuel = some r) : Scheduled k r.1 := by
  induction fuel generalizing k with
  | zero => exact nomatch h
  | succ fuel ih =>
      have hdequeue := dequeueProcessFrom k q
      unfold Kernel.dequeueUntilReady at h
      obtain ⟨k₁, next, hnext⟩ : ∃ k₁ next, k.dequeueProcessFrom q = (k₁, next) := ⟨_, _, rfl⟩
      rw [hnext] at h hdequeue
      cases next with
      | none =>
          obtain rfl := Option.some.inj h
          exact hdequeue
      | some p =>
          have hsignals := hdequeue.trans (handleProcessSignals alg k₁ p)
          dsimp only at h
          split at h
          · obtain rfl := Option.some.inj h
            exact hsignals
          · exact hsignals.trans (ih h)

theorem cascade {levels : List Nat} {r : Kernel × Option (PcbPtr × Nat)}
    (h : k.cascade alg levels = some r) : Scheduled k r.1 := by
  induction levels generalizing k with
  | nil =>
      obtain rfl := Option.some.inj h
      exact .refl k
  | cons q levels ih =>
      obtain ⟨⟨k₁, next⟩, hfound, hrest⟩ := Option.bind_eq_some_iff.mp h
      have hone := dequeueUntilReady hfound
      cases next with
      | none => exact hone.trans (ih hrest)
      | some p =>
          obtain rfl := Option.some.inj hrest
          exact hone

theorem lotteryRandom (k : Kernel) : Scheduled k k.lotteryRandom.1 :=
  of_rest rfl rfl rfl rfl rfl

theorem lotteryLoop {fuel : Nat} {r : Kernel × Option PcbPtr}
    (h : k.lotteryLoop alg fuel = some r) : Scheduled k r.1 := by
  induction fuel generalizing k with
  | zero => exact nomatch h
  | succ fuel ih =>
      obtain ⟨nodes, -, h⟩ := Option.bind_eq_some_iff.mp h
      dsimp only at h
      split at h
      · obtain rfl := Option.some.inj h
        exact .refl k
      · obtain ⟨⟨previous, candidate⟩, -, h⟩ := Option.bind_eq_some_iff.mp h
        have hdraw := ((lotteryRandom k).trans (removeProcessFrom _ .readyQueue previous
          candidate)).trans (handleProcessSignals alg _ candidate)
        dsimp only at h
        split at h
        · obtain rfl := Option.some.inj h
          exact hdraw
        · exact hdraw.trans (ih h)

theorem agingWalk {fuel : Nat} {node previous best bestPrevious : Option PcbPtr}
    {maxCounter : Int} {r : Kernel × Option PcbPtr × Option PcbPtr}
    (h : agingWalk alg fuel k node previous best bestPrevious maxCounter = some r) :
    Scheduled k r.1 := by
  induction fuel generalizing k node previous best bestPrevious maxCounter with
  | zero =>
      cases node with
      | none =>
          obtain rfl := Option.some.inj h
          exact .refl k
      | some p => exact nomatch h
  | succ fuel ih =>
      cases node with
      | none =>
          obtain rfl := Option.some.inj h
          exact .refl k
      | some p =>
          have hsignals := handleProcessSignals alg k p
          unfold Kernel.agingWalk at h
          dsimp only at h
          split at h
          · exact (hsignals.trans (removeProcessFrom _ .readyQueue previous p)).trans (ih h)
          · split at h
            · exact hsignals.trans (ih h)
            · exact hsignals.trans (ih h)

/-- A loop over the slots of the table. -/
theorem slots {round : Kernel → Nat → Kernel} (hround : ∀ k i, Scheduled k (round k i))
    (slots : List Nat) (k : Kernel) : Scheduled k (slots.foldl round k) := by
  induction slots generalizing k with
  | nil => exact .refl k
  | cons i slots ih => exact (hround k i).trans (ih _)

theorem rechargeAll (k : Kernel) : Scheduled k k.rechargeAll := by
  refine (log k rfl).trans (slots (fun k i => ?_) _ _)
  split
  · exact .refl k
  · exact setCounter k _ _

theorem agingLoop {fuel : Nat} {r : Kernel × Option PcbPtr}
    (h : k.agingLoop alg fuel = some r) : Scheduled k r.1 := by
  induction fuel generalizing k with
  | zero => exact nomatch h
  | succ fuel ih =>
      obtain ⟨⟨k₁, best, bestPrevious⟩, hwalk, h⟩ := Option.bind_eq_some_iff.mp h
      have hone := agingWalk hwalk
      cases best with
      | some p =>
          obtain rfl := Option.some.inj h
          exact hone.trans (removeProcessFrom k₁ .readyQueue bestPrevious p)
      | none =>
          dsimp only at h
          split at h
          · obtain rfl := Option.some.inj h
            exact hone
          · exact (hone.trans (rechargeAll k₁)).trans (ih h)

theorem scheduleMultilevel_dispatch (h : k.scheduleMultilevel alg = some k') :
    ∃ k₁ next, Scheduled k k₁ ∧ k' = k₁.dispatch next := by
  have hopen := requeueOutgoing (g := fun k p => k.enqueueMultilevel p)
    (fun k p => enqueueProcessTo k _ p) k
  obtain ⟨policy, -, h⟩ := Option.bind_eq_some_iff.mp h
  obtain ⟨⟨k₁, found⟩, hfound, hk'⟩ := Option.bind_eq_some_iff.mp h
  have hsearch := hopen.trans (cascade hfound)
  cases found with
  | none =>
      obtain rfl := Option.some.inj hk'
      exact ⟨k₁, none, hsearch, rfl⟩
  | some choice =>
      obtain rfl := Option.some.inj hk'
      exact ⟨_, some choice.1, hsearch.trans (setCounter k₁ choice.1 _), rfl⟩

/-- A selection function ends by giving the CPU away. -/
theorem pickNext_dispatch (h : alg.pickNext k = some k') :
    ∃ k₁ next, Scheduled k k₁ ∧ k' = k₁.dispatch next := by
  have hfifo := requeueOutgoing (fun k p => enqueueProcessTo k .readyQueue p) k
  cases alg with
  | roundRobin =>
      obtain ⟨⟨k₁, next⟩, hfound, hk'⟩ := Option.bind_eq_some_iff.mp h
      obtain rfl := Option.some.inj hk'
      exact ⟨_, next, (hfifo.trans (dequeueUntilReady hfound)).trans (setQuantum k₁ next 10), rfl⟩
  | fcfs =>
      obtain ⟨⟨k₁, next⟩, hfound, hk'⟩ := Option.bind_eq_some_iff.mp h
      obtain rfl := Option.some.inj hk'
      exact ⟨k₁, next, (requeueOutgoing (insertion .fcfs) k).trans (dequeueUntilReady hfound), rfl⟩
  | sjf =>
      obtain ⟨⟨k₁, next⟩, hfound, hk'⟩ := Option.bind_eq_some_iff.mp h
      obtain rfl := Option.some.inj hk'
      exact ⟨k₁, next, (requeueOutgoing (insertion .sjf) k).trans (dequeueUntilReady hfound), rfl⟩
  | lottery =>
      obtain ⟨⟨k₁, next⟩, hfound, hk'⟩ := Option.bind_eq_some_iff.mp h
      obtain rfl := Option.some.inj hk'
      exact ⟨_, next, (hfifo.trans (lotteryLoop hfound)).trans (setQuantum k₁ next 10), rfl⟩
  | priorityAging =>
      obtain ⟨⟨k₁, next⟩, hfound, hk'⟩ := Option.bind_eq_some_iff.mp h
      obtain rfl := Option.some.inj hk'
      exact ⟨k₁, next, hfifo.trans (agingLoop hfound), rfl⟩
  | mlq | mlfq => exact scheduleMultilevel_dispatch h

/-- The selection functions. -/
theorem pickNext (h : alg.pickNext k = some k') : Scheduled k k' := by
  obtain ⟨k₁, next, hk₁, rfl⟩ := pickNext_dispatch h
  exact hk₁.trans (dispatch k₁ next)

/-! ### The tick -/

theorem keptByTick : KeptByTick Scheduled where
  refl := refl
  trans := trans
  dequeue := dequeueProcessFrom
  enqueue := enqueueProcessTo
  levels _ _ _ := of_rest rfl rfl rfl rfl rfl

theorem onTick (h : alg.onTick k = some k') : Scheduled k k' := keptByTick.onTick h

/-! ### The dispatcher's callers -/

theorem schedule (k : Kernel) : Scheduled k k.schedule.1 := by
  unfold Kernel.schedule
  split
  · exact (modifyPcb (f := fun b =>
      { b with estBurst := (b.burstTicks + b.estBurst).tdiv 2, burstTicks := 0 })
      (.of_fields rfl rfl rfl)).trans (setCounter _ _ 0)
  · exact setCounter _ _ 0

theorem handleTimerTick {r : Kernel × Control} (h : k.handleTimerTick alg = some r) :
    Scheduled k r.1 := by
  have hcharge : Scheduled k ((k.setCounter k.currentProcess (k.current.counter - 1)).modifyCurrent
      fun b => { b with burstTicks := b.burstTicks + 1 }) :=
    (setCounter k _ _).trans (modifyPcb (f := fun b =>
      { b with burstTicks := b.burstTicks + 1 }) (.of_fields rfl rfl rfl))
  obtain ⟨k₁, htick, h⟩ := Option.bind_eq_some_iff.mp h
  have hticked := hcharge.trans (onTick htick)
  split at h
  · obtain rfl := Option.some.inj h
    exact hticked
  · obtain rfl := Option.some.inj h
    exact hticked.trans (setCounter k₁ _ 0)

theorem receiveWord (k : Kernel) (dr : BitVec 32) : Scheduled k (k.receiveWord alg dr) := by
  unfold Kernel.receiveWord
  dsimp only
  split
  · exact .refl k
  · split
    · refine trans ?_ (wakeProcesses alg _ _ _)
      exact of_rest rfl rfl rfl rfl rfl
    · exact wakeProcesses alg _ _ k

theorem handleUartIrq (k : Kernel) (mis : BitVec 32) (fifo timeoutFifo : List (BitVec 32)) :
    Scheduled k (k.handleUartIrq alg mis fifo timeoutFifo) := by
  have hwords : ∀ (fifo : List (BitVec 32)) (k : Kernel),
      Scheduled k (fifo.foldl (Kernel.receiveWord alg) k) := by
    intro fifo
    induction fifo with
    | nil => exact fun k => .refl k
    | cons dr fifo ih => exact fun k => (receiveWord k dr).trans (ih _)
  simp only [Kernel.handleUartIrq, foldl_timeoutWord, ite_self]
  split
  · exact hwords fifo k
  · exact .refl k

end Kernel.Scheduled

/-- The process that a selection function gives the CPU to is the running one. -/
theorem Kernel.pickNext_running {alg : SchedAlgorithm} {k k' : Kernel}
    (h : alg.pickNext k = some k') : k'.current.state = .running := by
  obtain ⟨k₁, next, -, rfl⟩ := Scheduled.pickNext_dispatch h
  have hswitch : ∀ (k : Kernel) (p : PcbPtr), (k.switchToProcess p).current.state = .running := by
    intro k p
    have hrun : (((k.setState p .running).log (.dispatched p)).pcb p).state = .running := by
      simp [setState, PCB.withState]
    unfold switchToProcess
    dsimp only
    split
    · next hcur => rw [current, hcur]; exact hrun
    · next hcur =>
        have hcur' : p ≠ k.currentProcess := fun h => hcur h.symm
        show (Kernel.pcb _ p).state = _
        split
        · exact (congrArg PCB.state (modifyPcb_pcb_of_ne _ (PCB.withState · .ready) hcur')).trans hrun
        · exact hrun
  show ((k₁.switchToProcess _).modifyPcb _ _).current.state = _
  unfold current
  rw [show ((k₁.switchToProcess (next.getD .initProcess)).modifyPcb _ _).currentProcess
    = (k₁.switchToProcess (next.getD .initProcess)).currentProcess from rfl, modifyPcb_pcb_self]
  exact hswitch k₁ _

end DemoOS
