import DemoOS.Preemption.Input
import DemoOS.Proofs.Scheduler.Console

/-!
# `DemoOS.Proofs.Preemption.Input`: who reads the console

`syscall_input` tests `uart_owner` and then assigns it, and it tests the ring and then marks the
caller as waiting. A tick between the first two statements lets a second reader in. A character
that arrives between the other two wakes nobody, and the caller goes to sleep with something to
read.

The results are

* `input_protocol_broken`: runs that end with two readers, and with such a sleeper;
* `input_protocol_kept`: in a run in which the two tests still hold when the statements behind
  them are executed, no state has either.
-/

set_option autoImplicit false

namespace DemoOS

open Kernel

/-- The state of `syscall_input` between two statements: the one inside owns the console, and
whoever waits is at its `schedule()` and has nothing to read. -/
structure InputInv (s : Preemptible Kernel InputPoint) : Prop where
  slots : s.state.SlotsCounted
  places : s.state.NoInputPlaces
  owner : ∀ {p x}, s.point p = some x → x.holdsConsole = true → s.state.uartOwner = some p
  asleep : ∀ {p}, s.state.IsProcess p → (s.state.pcb p).state = .waitingUartInput →
    s.state.uartHead = s.state.uartTail
      ∧ ∃ maxLen line, s.point p = some (.block maxLen line)
        ∨ s.point p = some (.testRing maxLen line) ∧ p ≠ s.state.currentProcess

namespace InputInv

variable {s : Preemptible Kernel InputPoint} {alg : SchedAlgorithm} {k' : Kernel}

/-- Whoever waits is past the assignment of `uart_owner`. -/
theorem asleep_owner (h : InputInv s) {p : PcbPtr} (hp : s.state.IsProcess p)
    (hst : (s.state.pcb p).state = .waitingUartInput) : s.state.uartOwner = some p := by
  obtain ⟨-, maxLen, line, hat | ⟨hat, -⟩⟩ := h.asleep hp hst
  · exact h.owner hat rfl
  · exact h.owner hat rfl

/-- The current process does not wait, unless it is at the `schedule()`. -/
theorem current_awake (h : InputInv s) {x : Option InputPoint}
    (hx : s.point s.state.currentProcess = x) (hblock : ∀ maxLen line, x ≠ some (.block maxLen line))
    {p : PcbPtr} (hp : s.state.IsProcess p) (hst : (s.state.pcb p).state = .waitingUartInput) :
    p ≠ s.state.currentProcess := by
  rintro rfl
  obtain ⟨-, maxLen, line, hat | ⟨-, hne⟩⟩ := h.asleep hp hst
  · exact hblock maxLen line (hx.symm.trans hat)
  · exact hne rfl

/-- While the current process holds the console and is not at the `schedule()`, nobody waits. -/
theorem nobody_asleep (h : InputInv s) {x : InputPoint}
    (hx : s.point s.state.currentProcess = some x) (hholds : x.holdsConsole = true)
    (hblock : ∀ maxLen line, x ≠ .block maxLen line) {p : PcbPtr} (hp : s.state.IsProcess p) :
    (s.state.pcb p).state ≠ .waitingUartInput := by
  intro hst
  have hself := (h.asleep_owner hp hst).symm.trans (h.owner hx hholds)
  exact h.current_awake hx (fun maxLen line heq => hblock maxLen line (Option.some.inj heq)) hp hst
    (Option.some.inj hself)

/-! ### Other code -/

/-- Code that begins no wait and stays away from the owner; whoever still waits has found the ring
as it was. -/
theorem calm (h : InputInv s) (howner : k'.uartOwner = s.state.uartOwner)
    (hslots : k'.SlotsCounted) (hplaces : k'.NoInputPlaces)
    (hwaits : ∀ p, k'.IsProcess p → (k'.pcb p).state = .waitingUartInput →
      s.state.IsProcess p ∧ (s.state.pcb p).state = .waitingUartInput
        ∧ k'.uartHead = s.state.uartHead ∧ k'.uartTail = s.state.uartTail)
    (hcurrent : k'.currentProcess = s.state.currentProcess ∨ k'.current.state = .running) :
    InputInv ⟨k', s.point⟩ where
  slots := hslots
  places := hplaces
  owner hx hholds := howner.trans (h.owner hx hholds)
  asleep {p} hp hst := by
    obtain ⟨hp', hst', hhead, htail⟩ := hwaits p hp hst
    obtain ⟨hempty, maxLen, line, hat⟩ := h.asleep hp' hst'
    refine ⟨hhead.trans (hempty.trans htail.symm), maxLen, line, hat.imp id ?_⟩
    rintro ⟨hat, hne⟩
    refine ⟨hat, ?_⟩
    rintro rfl
    rcases hcurrent with hsame | hrunning
    · exact hne hsame
    · exact nomatch hrunning.symm.trans hst

theorem leavesConsole (h : InputInv s) (hk : LeavesConsole s.state k')
    (hcurrent : k'.currentProcess = s.state.currentProcess ∨ k'.current.state = .running) :
    InputInv ⟨k', s.point⟩ :=
  h.calm hk.uartOwner (hk.slots h.slots) (hk.places h.places) (fun p hp hst => by
    obtain ⟨hp', hst'⟩ := hk.waits p hp hst
    exact ⟨hp', hst', hk.uartHead, hk.uartTail⟩) hcurrent

/-! ### Statements -/

/-- The current process goes on to another place, which is past the assignment only if it owns the
console. -/
theorem move (h : InputInv s) {x y : Option InputPoint}
    (hx : s.point s.state.currentProcess = x) (hblock : ∀ maxLen line, x ≠ some (.block maxLen line))
    (hy : ∀ z, y = some z → z.holdsConsole = true →
      s.state.uartOwner = some s.state.currentProcess) (hk : LeavesConsole s.state k')
    (hcurrent : k'.currentProcess = s.state.currentProcess) :
    InputInv ⟨k', Function.update s.point s.state.currentProcess y⟩ where
  slots := hk.slots h.slots
  places := hk.places h.places
  owner {p z} hz hholds := by
    refine hk.uartOwner.trans ?_
    rcases Program.point_update hz with ⟨rfl, rfl⟩ | ⟨-, hz⟩
    · exact hy z rfl hholds
    · exact h.owner hz hholds
  asleep {p} hp hst := by
    obtain ⟨hp', hst'⟩ := hk.waits p hp hst
    obtain ⟨hempty, maxLen, line, hat⟩ := h.asleep hp' hst'
    have hne := h.current_awake hx hblock hp' hst'
    refine ⟨hk.uartHead.trans (hempty.trans hk.uartTail.symm), maxLen, line, ?_⟩
    show Function.update s.point _ y p = _ ∨ Function.update s.point _ y p = _ ∧ p ≠ k'.currentProcess
    rw [Function.update_of_ne hne, hcurrent]
    exact hat

/-- The current process calls the scheduler, in one of the two loops. -/
theorem leaves (h : InputInv s) {x y : InputPoint}
    (hx : s.point s.state.currentProcess = some x)
    (hxy : (∃ len, x = .waitOwner len ∧ y = .testOwner len)
      ∨ ∃ maxLen line, x = .block maxLen line ∧ y = .testRing maxLen line)
    (hk : LeavesConsole s.state k') (hrunning : k'.current.state = .running) :
    InputInv ⟨k', Function.update s.point s.state.currentProcess (some y)⟩ where
  slots := hk.slots h.slots
  places := hk.places h.places
  owner {p z} hz hholds := by
    refine hk.uartOwner.trans ?_
    rcases Program.point_update hz with ⟨rfl, hyz⟩ | ⟨-, hz⟩
    · obtain rfl := Option.some.inj hyz
      rcases hxy with ⟨len, rfl, rfl⟩ | ⟨maxLen, line, rfl, rfl⟩
      · exact nomatch hholds
      · exact h.owner hx rfl
    · exact h.owner hz hholds
  asleep {p} hp hst := by
    obtain ⟨hp', hst'⟩ := hk.waits p hp hst
    obtain ⟨hempty, maxLen, line, hat⟩ := h.asleep hp' hst'
    have hnew : p ≠ k'.currentProcess := by
      rintro rfl
      exact nomatch hrunning.symm.trans hst
    refine ⟨hk.uartHead.trans (hempty.trans hk.uartTail.symm), ?_⟩
    show ∃ maxLen line, Function.update s.point _ _ p = _
      ∨ Function.update s.point _ _ p = _ ∧ p ≠ k'.currentProcess
    by_cases hpc : p = s.state.currentProcess
    · subst hpc
      rw [Function.update_self]
      rcases hxy with ⟨len, rfl, rfl⟩ | ⟨maxLen', line', rfl, rfl⟩
      · rcases hat with hat | ⟨hat, -⟩
        · exact nomatch hx.symm.trans hat
        · exact nomatch hx.symm.trans hat
      · exact ⟨maxLen', line', Or.inr ⟨rfl, hnew⟩⟩
    · rw [Function.update_of_ne hpc]
      exact ⟨maxLen, line, hat.imp id fun hat => ⟨hat.1, hnew⟩⟩

/-- Statements that write the console's variables, while nobody waits. -/
theorem writes (h : InputInv s) {y : InputPoint} (owner : Option PcbPtr) (tail : Nat)
    (howner : ∀ p x, Function.update s.point s.state.currentProcess (some y) p = some x →
      x.holdsConsole = true → owner = some p)
    (hawake : ∀ p, s.state.IsProcess p → (s.state.pcb p).state ≠ .waitingUartInput) :
    InputInv ⟨{ s.state with uartOwner := owner, uartTail := tail },
      Function.update s.point s.state.currentProcess (some y)⟩ where
  slots := h.slots
  places := h.places
  owner {p x} := howner p x
  asleep {p} hp hst := absurd hst (hawake p hp)

/-- A statement of the system call. -/
theorem statement (h : InputInv s) (hallowed : TestsHold s .statement) {x : InputPoint}
    (hx : s.point s.state.currentProcess = some x) {s' : Preemptible Kernel InputPoint}
    (hs : inputProgram.proceed alg s (inputStatement s.state x) = some s') : InputInv s' := by
  -- Most statements change nothing but the place.
  have hgoto : ∀ {y : InputPoint}, (∀ maxLen line, x ≠ .block maxLen line) →
      (y.holdsConsole = true → x.holdsConsole = true) →
      InputInv ⟨s.state, Function.update s.point s.state.currentProcess (some y)⟩ := by
    intro y hblock hholds
    refine h.move hx (fun maxLen line heq => hblock maxLen line (Option.some.inj heq)) ?_ (.refl _) rfl
    intro z hz hzholds
    obtain rfl := Option.some.inj hz
    exact h.owner hx (hholds hzholds)
  cases x with
  | testOwner len =>
      simp only [inputStatement] at hs
      split at hs
      · obtain rfl := Option.some.inj hs
        exact hgoto (fun _ _ heq => by cases heq) id
      · obtain rfl := Option.some.inj hs
        exact hgoto (fun _ _ heq => by cases heq) id
  | waitOwner len =>
      obtain ⟨k', hpick, rfl⟩ := Option.map_eq_some_iff.mp hs
      exact h.leaves hx (Or.inl ⟨len, rfl, rfl⟩) ((LeavesConsole.schedule _).trans (.pickNext hpick))
        (pickNext_running hpick)
  | assign len =>
      obtain rfl := Option.some.inj hs
      -- The test of the owner still holds, so that nobody else is past the assignment.
      have hfree : s.state.uartOwner = none
          ∨ s.state.uartOwner = some s.state.currentProcess := by
        simpa only [TestsHold, hx] using hallowed
      have hself : ∀ {p}, s.state.uartOwner = some p → p = s.state.currentProcess := by
        intro p howner
        rcases hfree with hnone | hsome
        · cases hnone.symm.trans howner
        · exact Option.some.inj (howner.symm.trans hsome)
      refine h.writes (some s.state.currentProcess) s.state.uartTail ?_ fun p hp hst =>
        h.current_awake hx (fun _ _ heq => by cases heq) hp hst (hself (h.asleep_owner hp hst))
      intro p z hz hholds
      rcases Program.point_update hz with ⟨rfl, -⟩ | ⟨hne, hz⟩
      · rfl
      · exact absurd (hself (h.owner hz hholds)) hne
  | testRing maxLen line =>
      simp only [inputStatement] at hs
      split at hs
      · obtain rfl := Option.some.inj hs
        exact hgoto (fun _ _ heq => by cases heq) id
      · obtain rfl := Option.some.inj hs
        exact hgoto (fun _ _ heq => by cases heq) id
  | markWaiting maxLen line =>
      obtain rfl := Option.some.inj hs
      -- The test of the ring still holds, so that there is nothing to read.
      have hempty : s.state.uartHead = s.state.uartTail := by
        simpa only [TestsHold, hx] using hallowed
      exact {
        slots := h.slots
        places := fun p => by
          show ((s.state.setState s.state.currentProcess .waitingUartInput).pcb p).resume.isInput = _
          rw [setState, modifyPcb_pcb]
          split
          · exact h.places s.state.currentProcess
          · exact h.places p
        owner := fun {p z} hz hholds => by
          rcases Program.point_update hz with ⟨rfl, -⟩ | ⟨-, hz⟩
          · exact h.owner hx rfl
          · exact h.owner hz hholds
        asleep := fun {p} hp hst => by
          show s.state.uartHead = s.state.uartTail ∧ ∃ maxLen' line',
            Function.update s.point s.state.currentProcess _ p = _
              ∨ Function.update s.point s.state.currentProcess _ p = _ ∧ p ≠ s.state.currentProcess
          by_cases hpc : p = s.state.currentProcess
          · subst hpc
            rw [Function.update_self]
            exact ⟨hempty, maxLen, line, Or.inl rfl⟩
          · rw [Function.update_of_ne hpc]
            have hblock : (s.state.setState s.state.currentProcess .waitingUartInput).pcb p
                = s.state.pcb p := modifyPcb_pcb_of_ne _ _ hpc
            exact h.asleep hp ((congrArg PCB.state hblock).symm.trans hst) }
  | block maxLen line =>
      obtain ⟨k', hpick, rfl⟩ := Option.map_eq_some_iff.mp hs
      exact h.leaves hx (Or.inr ⟨maxLen, line, rfl, rfl⟩)
        ((LeavesConsole.schedule _).trans (.pickNext hpick)) (pickNext_running hpick)
  | testTail maxLen line =>
      simp only [inputStatement] at hs
      split at hs
      · obtain rfl := Option.some.inj hs
        exact hgoto (fun _ _ heq => by cases heq) id
      · obtain rfl := Option.some.inj hs
        exact hgoto (fun _ _ heq => by cases heq) id
  | load maxLen line =>
      obtain rfl := Option.some.inj hs
      exact hgoto (fun _ _ heq => by cases heq) id
  | advance maxLen line c =>
      obtain rfl := Option.some.inj hs
      have hself := h.owner hx rfl
      refine h.writes s.state.uartOwner _ ?_ fun p =>
        h.nobody_asleep hx rfl (fun _ _ heq => by cases heq)
      intro p z hz hholds
      rcases Program.point_update hz with ⟨rfl, -⟩ | ⟨-, hz⟩
      · exact hself
      · exact h.owner hz hholds
  | store maxLen line c =>
      simp only [inputStatement] at hs
      split at hs
      · obtain rfl := Option.some.inj hs
        exact hgoto (fun _ _ heq => by cases heq) id
      · split at hs
        · obtain rfl := Option.some.inj hs
          exact hgoto (fun _ _ heq => by cases heq) id
        · split at hs
          · obtain rfl := Option.some.inj hs
            exact hgoto (fun _ _ heq => by cases heq) id
          · obtain rfl := Option.some.inj hs
            exact hgoto (fun _ _ heq => by cases heq) id
  | release line =>
      obtain rfl := Option.some.inj hs
      have hself := h.owner hx rfl
      refine h.writes none s.state.uartTail ?_ fun p =>
        h.nobody_asleep hx rfl (fun _ _ heq => by cases heq)
      intro p z hz hholds
      rcases Program.point_update hz with ⟨-, hyz⟩ | ⟨hne, hz⟩
      · obtain rfl := Option.some.inj hyz
        cases hholds
      · exact absurd (Option.some.inj ((h.owner hz hholds).symm.trans hself)) hne
  | finish line =>
      obtain rfl := Option.some.inj hs
      have hlogged : LeavesConsole s.state
          (s.state.log (.lineRead s.state.currentProcess line)) :=
        ⟨rfl, rfl, rfl, rfl, fun _ hp hst => ⟨hp, hst⟩, id, id⟩
      exact h.move hx (fun _ _ heq => by cases heq) (fun _ heq => by cases heq)
        (hlogged.trans (.returnToUser _ _)) rfl

end InputInv

/-! ### Runs -/

theorem inputInv_start (timerClo : Nat → BitVec 32) :
    InputInv (Program.start (.boot timerClo)) where
  slots i hi := if_neg (by have : 1 ≤ i := hi; omega)
  places p := by
    show ((if p = .initProcess then INIT_PROCESS else PCB.zeroed).resume).isInput = false
    split <;> rfl
  owner hx := nomatch hx
  asleep {p} _ hst := by
    change (if p = .initProcess then INIT_PROCESS else PCB.zeroed).state = _ at hst
    split at hst <;> exact nomatch hst

/-- The other kernel code, and the two interrupts. -/
theorem InputInv.trap {alg : SchedAlgorithm} {s : Preemptible Kernel InputPoint} (h : InputInv s)
    {t : Trap} {k' : Kernel} (ht : inputProgram.trap alg s.state t = some k') :
    InputInv ⟨k', s.point⟩ := by
  have hother : t.isConsole = false → s.state.step alg t = some k' →
      InputInv ⟨k', s.point⟩ := by
    intro hconsole hstep
    rcases Kernel.step_cases hstep with hr | ⟨k₁, hr, hpick⟩
    · exact h.leavesConsole (enter_leavesConsole hconsole (fun _ => h.places _) hr)
        (Or.inl (enter_currentProcess hr))
    · exact h.leavesConsole ((enter_leavesConsole hconsole (fun _ => h.places _) hr).trans (.pickNext hpick))
        (Or.inr (pickNext_running hpick))
  cases t with
  | input _ => exact nomatch ht
  | uartIrq mis fifo timeoutFifo =>
      obtain rfl := Option.some.inj ht
      have hsame : (s.state.handleUartIrq alg mis fifo timeoutFifo).currentProcess
          = s.state.currentProcess :=
        enter_currentProcess (show s.state.enter alg (.uartIrq mis fifo timeoutFifo) = some _ from rfl)
      obtain ⟨hscheduled, hring⟩ := handleUartIrq_wakes alg h.slots mis fifo timeoutFifo
      refine h.calm (congrArg (fun k => k.uartOwner) hscheduled.fixed)
        (h.slots.scheduled hscheduled) (h.places.scheduled hscheduled) (fun p hp hst => ?_)
        (Or.inl hsame)
      have hp' := (hscheduled.isProcess p).mp hp
      exact ⟨hp', (hscheduled.block p).waiting rfl hst, hring p hp' hst⟩
  | _ => exact hother rfl ht

theorem inputInv_step {alg : SchedAlgorithm} {s s' : Preemptible Kernel InputPoint}
    {e : PreemptionEvent Int} (h : InputInv s) (hallowed : TestsHold s e)
    (hstep : inputProgram.step alg s e = some s') : InputInv s' := by
  rcases Program.step_cases hstep with ⟨len, rfl, -, hnone, -, rfl⟩ | ⟨x, rfl, hx, hs⟩
    | ⟨t, k', rfl, -, ht, rfl⟩
  · refine h.move hnone (fun _ _ heq => nomatch heq) (fun z hz hholds => ?_) (.refl _) rfl
    obtain rfl := Option.some.inj hz
    exact nomatch hholds
  · exact h.statement hallowed hx hs
  · exact h.trap ht

/-- In a run in which the tests of `uart_owner` and of the ring still hold when the statements
behind them are executed, at most one process holds the console, and nobody sleeps with characters
to read. -/
theorem input_protocol_kept (alg : SchedAlgorithm) (timerClo : Nat → BitVec 32)
    (s : Preemptible Kernel InputPoint)
    (hrun : inputProgram.Reachable alg TestsHold (Program.start (.boot timerClo)) s) :
    (∀ p q, HoldsConsole s p → HoldsConsole s q → p = q) ∧ ∀ p, ¬ SleepsOnInput s p := by
  have h := hrun.invariant (inputInv_start timerClo) inputInv_step
  constructor
  · rintro p q ⟨x, hx, hxholds⟩ ⟨y, hy, hyholds⟩
    exact Option.some.inj ((h.owner hx hxholds).symm.trans (h.owner hy hyholds))
  · rintro p ⟨hp, -, hst, -, hring⟩
    exact hring (h.asleep hp hst).1

section Runs

open PreemptionEvent (call statement trap)

/-- Two processes in user mode, of which the first one is on the CPU. -/
def twoReaders : List (PreemptionEvent Int) :=
  [.trap (.kernelMain (some 0)), .trap .timerTick, .trap (.moveToUserMode .empty .zeroed),
    .trap (.fork (some 1) .empty)]

/-- Process 1 goes to sleep, is woken by two characters, and returns the line. -/
theorem input_protocol_kept_line :
    ∃ s, inputProgram.run .roundRobin (fun s e => decide (TestsHold s e))
        (Program.start (.boot fun _ => 0))
        (twoReaders ++ call 10 :: List.replicate 5 statement
          ++ trap (.uartIrq 16 [65, 13] []) :: List.replicate 10 (trap .timerTick)
          ++ List.replicate 11 statement) = some s
      ∧ s.state.trace.getLast? = some (.lineRead (.page 0) [65])
      ∧ (∀ p q, HoldsConsole s p → HoldsConsole s q → p = q) ∧ ∀ p, ¬ SleepsOnInput s p := by
  have hrun : (inputProgram.run .roundRobin (fun s e => decide (TestsHold s e))
      (Program.start (.boot fun _ => 0))
      (twoReaders ++ call 10 :: List.replicate 5 statement
        ++ trap (.uartIrq 16 [65, 13] []) :: List.replicate 10 (trap .timerTick)
        ++ List.replicate 11 statement)).map (·.state.trace.getLast?)
      = some (some (.lineRead (.page 0) [65])) := by decide +kernel
  obtain ⟨s, hs, htrace⟩ := Option.map_eq_some_iff.mp hrun
  exact ⟨s, hs, htrace, input_protocol_kept _ _ _
    (Program.reachable_run (fun _ _ => of_decide_eq_true) hs .start)⟩

/-- A tick between the test and the assignment of `uart_owner` lets the second process in, and
both hold the console. A character that comes between the test of the ring and the assignment of
the state leaves the reader asleep. -/
theorem input_protocol_broken :
    (∃ s, inputProgram.run .roundRobin (fun _ _ => true) (Program.start (.boot fun _ => 0))
        (twoReaders ++ call 10 :: statement :: List.replicate 10 (trap .timerTick)
          ++ call 10 :: List.replicate 2 statement ++ List.replicate 10 (trap .timerTick)
          ++ [statement]) = some s
      ∧ HoldsConsole s (.page 0) ∧ HoldsConsole s (.page 1))
    ∧ ∃ s, inputProgram.run .roundRobin (fun _ _ => true) (Program.start (.boot fun _ => 0))
        (twoReaders ++ call 10 :: List.replicate 3 statement
          ++ trap (.uartIrq 16 [65] []) :: List.replicate 2 statement) = some s
      ∧ SleepsOnInput s (.page 0) := by
  constructor
  · have hrun : (inputProgram.run .roundRobin (fun _ _ => true) (Program.start (.boot fun _ => 0))
        (twoReaders ++ call 10 :: statement :: List.replicate 10 (trap .timerTick)
          ++ call 10 :: List.replicate 2 statement ++ List.replicate 10 (trap .timerTick)
          ++ [statement])).map (fun s => (s.point (.page 0), s.point (.page 1)))
        = some (some (.testRing 9 []), some (.testRing 9 [])) := by decide +kernel
    obtain ⟨s, hs, hpoints⟩ := Option.map_eq_some_iff.mp hrun
    obtain ⟨hfirst, hsecond⟩ := Prod.mk.inj hpoints
    exact ⟨s, hs, ⟨_, hfirst, rfl⟩, ⟨_, hsecond, rfl⟩⟩
  · have hrun : (inputProgram.run .roundRobin (fun _ _ => true) (Program.start (.boot fun _ => 0))
        (twoReaders ++ call 10 :: List.replicate 3 statement
          ++ trap (.uartIrq 16 [65] []) :: List.replicate 2 statement)).map
          (fun s => decide (SleepsOnInput s (.page 0))) = some true := by decide +kernel
    obtain ⟨s, hs, hsleeps⟩ := Option.map_eq_some_iff.mp hrun
    exact ⟨s, hs, of_decide_eq_true hsleeps⟩

end Runs

end DemoOS
