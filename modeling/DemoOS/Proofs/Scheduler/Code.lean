import DemoOS.Kernel.Run
import DemoOS.Proofs.Scheduler.Refinement

/-!
# `DemoOS.Proofs.Scheduler.Code`: the kernel code of the traps

`Code` says that a piece of kernel code, from its entry to its return or to its call
of the scheduler, is a list of abstract actions. There is one lemma for each function
of `Libs/` that a trap runs, and `enter_code` puts them together: every trap that can
happen in a state with the invariant is such a list.

Actions of one process that commute are listed with its resume point first, so that
the state in which a process blocks already says where it goes on.
-/

set_option autoImplicit false

namespace DemoOS

open Kernel Support

/-- What is known where the current process leaves the CPU: `exits` holds of the state in
which a process that has exited calls the scheduler, and `sends` of the process for whose
ring a sender waits. -/
structure Departure where
  exits : Sched → Prop
  sends : PcbPtr → Prop

/-- What that says of an action, in code that calls the scheduler in the state `s₁`. -/
def Departure.Allows (dep : Departure) (s₁ : Sched) : Action → Prop
  | .leave .zombie => dep.exits s₁
  | .leave .waitingToSendMessage => ∃ p body,
      (s₁.block s₁.currentProcess).resume = .sendMessage p body ∧ dep.sends p
  | _ => True

/-- The kernel code with result `r` performs the actions `as`, which lead to `s₁`. Code
that returns keeps the CPU. Code that calls the scheduler has used up the time slice of
the current process. -/
structure Code (alg : SchedAlgorithm) (dep : Departure) (s : Sched) (as : List Action)
    (s₁ : Sched) (r : Kernel × Control) : Prop where
  exec : Exec alg s as s₁
  refines : Refines r.1 s₁
  returns : r.2 = .returns → ∀ a ∈ as, a.Stays
  schedules : r.2 = .schedules →
    (∀ a ∈ as, a.IsCode ∧ dep.Allows s₁ a) ∧ (s₁.block s₁.currentProcess).counter = 0

theorem Action.Stays.isCode {a : Action} (h : a.Stays) : a.IsCode := by
  cases a <;> trivial

theorem Action.Stays.allows {a : Action} (h : a.Stays) (dep : Departure) (s₁ : Sched) :
    dep.Allows s₁ a := by
  cases a <;> trivial

section Rules
variable {alg : SchedAlgorithm} {dep : Departure} {s s₁ s₂ : Sched} {as bs : List Action}
  {r : Kernel × Control}

/-- Code behind actions that keep the CPU. -/
theorem Code.prepend (h : Code alg dep s₁ bs s₂ r) (hexec : Exec alg s as s₁)
    (hstays : ∀ a ∈ as, a.Stays) : Code alg dep s (as ++ bs) s₂ r where
  exec := exec_append.mpr ⟨s₁, hexec, h.exec⟩
  refines := h.refines
  returns hr a ha := (List.mem_append.mp ha).elim (hstays a) (h.returns hr a)
  schedules hr := by
    obtain ⟨hcode, hcounter⟩ := h.schedules hr
    refine ⟨fun a ha => ?_, hcounter⟩
    rcases List.mem_append.mp ha with ha | ha
    · exact ⟨(hstays a ha).isCode, (hstays a ha).allows dep s₂⟩
    · exact hcode a ha

/-- Code behind one action that keeps the CPU. -/
theorem Code.cons {a : Action} (hg : a.Guard alg s) (ha : a.Stays)
    (h : Code alg dep (a.apply alg s) bs s₂ r) : Code alg dep s (a :: bs) s₂ r :=
  have hone : Exec alg s [a] (a.apply alg s) := ⟨hg, rfl⟩
  h.prepend hone fun b hb => by rwa [List.mem_singleton.mp hb]

/-- Code that calls the scheduler, behind the action by which the process leaves the CPU. -/
theorem Code.leave {st : ProcessState} (hg : (Action.leave st).Guard alg s)
    (hallows : dep.Allows s₂ (.leave st)) (hr : r.2 = .schedules)
    (h : Code alg dep ((Action.leave st).apply alg s) bs s₂ r) :
    Code alg dep s (.leave st :: bs) s₂ r where
  exec := ⟨hg, h.exec⟩
  refines := h.refines
  returns hr' := by rw [hr] at hr'; exact nomatch hr'
  schedules _ := by
    obtain ⟨hcode, hcounter⟩ := h.schedules hr
    refine ⟨fun a ha => ?_, hcounter⟩
    rcases List.mem_cons.mp ha with rfl | ha
    · exact ⟨trivial, hallows⟩
    · exact hcode a ha

theorem schedule_schedules (k : Kernel) : k.schedule.2 = .schedules := rfl

/-- Only a dispatch changes the current process. -/
theorem Exec.currentProcess (hexec : Exec alg s as s₁) (hstays : ∀ a ∈ as, a.Stays) :
    s₁.currentProcess = s.currentProcess :=
  hexec.invariant (A := Action.Stays) (P := fun t => t.currentProcess = s.currentProcess)
    (fun t a ha _ ht => by
      rw [← ht]
      cases a <;> first | rfl | exact absurd ha id) hstays rfl

/-- The invariants that kernel code starts from, and that actions which keep the CPU
keep. -/
theorem Exec.stays (hexec : Exec alg s as s₁) (hstays : ∀ a ∈ as, a.Stays) (hinv : s.Inv alg)
    (hrun : s.Running) : s₁.Inv alg ∧ s₁.Running ∧ s₁.currentProcess = s.currentProcess :=
  have h := hexec.invariant (A := Action.Stays) (P := fun t => t.Inv alg ∧ t.Running)
    (fun _ _ ha hg ⟨hi, hr⟩ => ⟨hi.apply hg, hr.apply hi ha hg⟩) hstays ⟨hinv, hrun⟩
  ⟨h.1, h.2, hexec.currentProcess hstays⟩

/-- Only `own` changes the owner of the console. -/
theorem Exec.uartOwner (hexec : Exec alg s as s₁) (has : ∀ a ∈ as, ∀ owner, a ≠ .own owner) :
    s₁.uartOwner = s.uartOwner :=
  hexec.invariant (A := fun a => ∀ owner, a ≠ .own owner)
    (P := fun t => t.uartOwner = s.uartOwner)
    (fun t a ha _ ht => by
      rw [← ht]
      cases a with
      | own owner => exact absurd rfl (ha owner)
      | dispatch next quantum => cases next <;> simp [Action.apply]
      | _ => rfl) has rfl

end Rules

section Current
variable {alg : SchedAlgorithm} {dep : Departure} {k : Kernel} {s : Sched}

/-- Assignments to fields of the current process. -/
theorem Refines.modifyCurrent (h : Refines k s) {f : PCB → PCB}
    (hlink : ∀ b, (f b).nextReady = b.nextReady) (hview : ∀ b, (f b).unlinked = f b.unlinked) :
    Refines (k.modifyCurrent f) (s.modify s.currentProcess f) := by
  rw [← h.currentProcess]
  exact h.modifyPcb _ hlink hview

theorem Refines.suspendAt (h : Refines k s) (point : ResumePoint) :
    Refines (k.suspendAt point) (s.modify s.currentProcess (Edit.suspendAt point).apply) :=
  h.modifyCurrent (fun _ => rfl) fun _ => rfl

/-- A single action that keeps the CPU. -/
theorem exec_one (alg : SchedAlgorithm) (s : Sched) (a : Action) (hg : a.Guard alg s) (ha : a.Stays) :
    Exec alg s [a] (a.apply alg s) ∧ ∀ b ∈ [a], b.Stays :=
  ⟨⟨hg, rfl⟩, fun b hb => by rw [List.mem_singleton.mp hb]; exact ha⟩

/-- Two states that differ in time slices and estimates only. -/
structure Sched.Agrees (s₁ s : Sched) : Prop where
  currentProcess : s₁.currentProcess = s.currentProcess
  processes : s₁.processes = s.processes
  uartOwner : s₁.uartOwner = s.uartOwner
  state : ∀ r, s₁.state r = s.state r
  identity : ∀ r, Sched.identity (s₁.block r) = Sched.identity (s.block r)

namespace Sched.Agrees

variable {s₁ s₂ : Sched}

theorem trans (h₂ : s₂.Agrees s₁) (h₁ : s₁.Agrees s) : s₂.Agrees s where
  currentProcess := h₂.currentProcess.trans h₁.currentProcess
  processes := h₂.processes.trans h₁.processes
  uartOwner := h₂.uartOwner.trans h₁.uartOwner
  state r := (h₂.state r).trans (h₁.state r)
  identity r := (h₂.identity r).trans (h₁.identity r)

theorem modify {p : PcbPtr} {f : PCB → PCB} (hstate : (f (s.block p)).state = (s.block p).state)
    (hid : Sched.identity (f (s.block p)) = Sched.identity (s.block p)) :
    (s.modify p f).Agrees s where
  currentProcess := rfl
  processes := rfl
  uartOwner := rfl
  state _ := Sched.state_modify hstate
  identity := Sched.modify_field Sched.identity hid

theorem pid (h : s₁.Agrees s) (r : PcbPtr) : (s₁.block r).pid = (s.block r).pid :=
  congrArg (fun x => x.1) (h.identity r)

theorem resume (h : s₁.Agrees s) (r : PcbPtr) : (s₁.block r).resume = (s.block r).resume :=
  congrArg (fun x => x.2.2.1) (h.identity r)

theorem pidToWait (h : s₁.Agrees s) (r : PcbPtr) :
    (s₁.block r).pidToWait = (s.block r).pidToWait :=
  congrArg (fun x => x.2.2.2) (h.identity r)

theorem registered (h : s₁.Agrees s) {r : PcbPtr} : s₁.Registered r ↔ s.Registered r :=
  Sched.registered_congr h.processes

end Sched.Agrees

/-- A time slice that is over, in front of a call of the scheduler. -/
theorem expire_code (alg : SchedAlgorithm) (dep : Departure) (h : Refines k s) :
    ∃ as s₁, Code alg dep s as s₁ (k.setCounter k.currentProcess 0, .schedules)
      ∧ s₁.Agrees s := by
  obtain ⟨hexec, hstays⟩ := exec_one alg s (.edit s.currentProcess .expire) rfl trivial
  refine ⟨_, _, {
    exec := hexec
    refines := by rw [h.currentProcess]; exact h.setCounter _ 0
    returns := fun hr => nomatch hr
    schedules := fun _ =>
      ⟨fun a ha => ⟨(hstays a ha).isCode, (hstays a ha).allows dep _⟩, ?_⟩ }, .modify rfl rfl⟩
  exact congrArg PCB.counter (Sched.modify_block_self (f := Edit.expire.apply))

/-- `schedule`, up to its call of `_schedule`. -/
theorem schedule_code (alg : SchedAlgorithm) (dep : Departure) (h : Refines k s) :
    ∃ as s₁, Code alg dep s as s₁ k.schedule ∧ s₁.Agrees s := by
  have hcurrent : k.current.state = s.state s.currentProcess := by
    rw [Kernel.current, h.currentProcess, h.state_eq]
  unfold Kernel.schedule
  rw [hcurrent, h.currentProcess]
  split
  · next hcond =>
      have hburst := h.modifyCurrent (f := Edit.endBurst.apply) (fun _ => rfl) fun _ => rfl
      obtain ⟨as, s₁, hcode, hagrees⟩ := expire_code alg dep hburst
      obtain ⟨hexec, hstays⟩ := exec_one alg _ (.edit s.currentProcess .endBurst) ⟨rfl, hcond⟩ trivial
      exact ⟨_, s₁, hcode.prepend hexec hstays, hagrees.trans (.modify rfl rfl)⟩
  · exact expire_code alg dep h

/-- The current process blocks and calls the scheduler. Its resume point is recorded
before its state. -/
theorem block_code (st : ProcessState) (h : Refines k s) (hne : s.currentProcess ≠ .initProcess)
    (hrun : s.state s.currentProcess = .running) {point : ResumePoint}
    (hst : st.isWaiting = true)
    (hdest : ∀ d body, point = .sendMessage d body → s.Registered d)
    (howner : s.uartOwner = some s.currentProcess → point.isInputRead = true)
    (hblocked : ((Edit.suspendAt point).apply ((s.block s.currentProcess).withState st)).Blocked)
    (htarget : st = .waitingAnotherProcess → ∀ d, s.Registered d →
      ((s.block d).pid : Int) = (s.block s.currentProcess).pidToWait → s.state d ≠ .zombie)
    (hsends : st = .waitingToSendMessage → ∃ p body,
      point = .sendMessage p body ∧ dep.sends p) :
    ∃ as s₁, Code alg dep s as s₁ ((k.setState k.currentProcess st).suspendAt point).schedule := by
  obtain ⟨s', hs'⟩ : ∃ s', s' = s.modify s.currentProcess (Edit.suspendAt point).apply := ⟨_, rfl⟩
  have hstate : ∀ r, s'.state r = s.state r := fun r => by rw [hs']; exact Sched.state_modify rfl
  have hcur : s'.currentProcess = s.currentProcess := by rw [hs']; rfl
  have hself : s'.block s.currentProcess
      = (Edit.suspendAt point).apply (s.block s.currentProcess) := by
    rw [hs', Sched.modify_block_self]
  obtain ⟨hexec, hstays⟩ := exec_one alg s (.edit s.currentProcess (.suspendAt point))
    ⟨rfl, by rw [hrun]; rfl, fun he => absurd he hne, hdest, howner⟩ trivial
  have hleave : (Action.leave st).Guard alg s' := by
    refine ⟨by rw [hcur]; exact hne, by rw [hcur, hstate, hrun], Or.inl hst, ?_, ?_⟩
    · rw [hcur, hself]
      exact hblocked
    · intro hw d hd hpid
      rw [hstate]
      refine htarget hw d ((Sched.registered_congr (by rw [hs']; rfl)).mp hd) ?_
      have hpid' : (s'.block d).pid = (s.block d).pid := by
        rw [hs']
        exact Sched.modify_field PCB.pid rfl d
      rw [hcur, hself, hpid'] at hpid
      exact hpid
  have hk : Refines ((k.setState k.currentProcess st).suspendAt point)
      (s'.setState s'.currentProcess st) := by
    have := (h.setState s.currentProcess st).suspendAt point
    rw [h.currentProcess, hcur, hs']
    have hcomm := Sched.modify_comm (s := s) (p := s.currentProcess)
      (f := (Edit.suspendAt point).apply) (g := fun b => b.withState st) rfl
    unfold Sched.setState
    rw [← hcomm]
    exact this
  obtain ⟨as, s₁, hcode, hagrees⟩ := schedule_code alg dep hk
  have hresume : (s₁.block s₁.currentProcess).resume = point := by
    rw [hagrees.resume, hagrees.currentProcess]
    show ((s'.setState s'.currentProcess st).block s'.currentProcess).resume = point
    rw [Sched.setState_field PCB.resume (fun _ _ => rfl), hcur, hself]
    rfl
  have hallows : dep.Allows s₁ (.leave st) := by
    cases st with
    | waitingToSendMessage =>
        obtain ⟨p, body, hpoint, hp⟩ := hsends rfl
        exact ⟨p, body, hresume.trans hpoint, hp⟩
    | zombie => exact nomatch hst
    | _ => trivial
  have hcode' := hcode.leave hleave hallows (schedule_schedules _)
  exact ⟨_, s₁, hcode'.prepend (hs' ▸ hexec) hstays⟩

/-- The process returns to user code. -/
theorem toUser_code (alg : SchedAlgorithm) (dep : Departure) (h : Refines k s)
    (hne : s.currentProcess ≠ .initProcess)
    (hrun : s.state s.currentProcess = .running)
    (howner : s.uartOwner ≠ some s.currentProcess) :
    ∃ as s₁, Code alg dep s as s₁ (k.suspendAt .user, .returns) := by
  obtain ⟨hexec, hstays⟩ := exec_one alg s (.edit s.currentProcess (.suspendAt .user))
    ⟨rfl, by rw [hrun]; rfl, fun he => absurd he hne, (fun _ _ he => nomatch he),
      fun he => absurd he howner⟩ trivial
  exact ⟨_, _, {
    exec := hexec
    refines := h.suspendAt .user
    returns := fun _ => hstays
    schedules := fun hr => nomatch hr }⟩

/-- The result goes to register 0, and the process returns to user code. -/
theorem returnToUser_code (h : Refines k s) (hne : s.currentProcess ≠ .initProcess)
    (hrun : s.state s.currentProcess = .running)
    (howner : s.uartOwner ≠ some s.currentProcess) (value : Int) :
    ∃ as s₁, Code alg dep s as s₁ (k.returnToUser value) := by
  obtain ⟨f, hf⟩ : ∃ f : PCB → PCB,
      f = fun b => { b with regs := b.regs.setRegister0 (BitVec.ofInt 64 value) } := ⟨_, rfl⟩
  have hkeeps : ∀ b, (f b).core = b.core := fun b => by rw [hf]; rfl
  have h₁ := h.modifyCurrent (f := f) (fun b => by rw [hf]) fun b => by rw [hf]; rfl
  obtain ⟨hexec, hstays⟩ := exec_one alg s (.edit s.currentProcess (.touch f hkeeps)) trivial trivial
  have hrun₁ : (s.modify s.currentProcess f).state s.currentProcess = .running :=
    (Sched.state_modify (Sched.core_state (hkeeps _))).trans hrun
  obtain ⟨as, s₁, hcode⟩ := toUser_code alg dep h₁ hne hrun₁ howner
  rw [Kernel.returnToUser, ← hf]
  exact ⟨_, s₁, hcode.prepend hexec hstays⟩

end Current

/-! ### Waking -/

section Wake
variable {alg : SchedAlgorithm} {k : Kernel} {s : Sched} {p : PcbPtr}

/-- `p->state = PROCESS_READY; enqueue_process(p)` for a blocked process. -/
theorem wake_refines (h : Refines k s) (hinv : s.Inv alg) (hp : s.Registered p)
    (hwait : (s.state p).isWaiting = true) :
    (Action.wake p).Guard alg s
      ∧ Refines ((k.setState p .ready).enqueueProcess alg p) ((Action.wake p).apply alg s) := by
  refine ⟨⟨hp, hwait⟩, ?_⟩
  have hne : p ≠ .initProcess := fun he => by
    rw [he, hinv.init_not_waiting] at hwait
    exact absurd hwait (by decide)
  have hfree : ¬ s.IsLinked p := hinv.not_linked fun hst => by
    rw [hst] at hwait
    exact absurd hwait (by decide)
  have henqueue := (h.setState p .ready).enqueueProcess alg hne (by exact hfree) fun q =>
    Nat.le_of_lt (hinv.length_lt q)
  rw [Sched.enqueue_setState] at henqueue
  exact henqueue

/-- What a wake-up loop writes to a process besides its state. -/
inductive WakeEdit : (PCB → PCB) → List Edit → Prop
  | keep : WakeEdit id []
  | clearWait : WakeEdit Edit.clearWait.apply [.clearWait]

/-- One process that a wake-up loop wakes. -/
theorem wakeOne_does (h : Refines k s) (hinv : s.Inv alg) (hp : s.Registered p)
    (hwait : (s.state p).isWaiting = true) {wake : PCB → PCB} {es : List Edit}
    (hwake : WakeEdit wake es) :
    ∃ s₁, Exec alg s (.wake p :: es.map (.edit p)) s₁
      ∧ Refines (((k.modifyPcb p wake).setState p .ready).enqueueProcess alg p) s₁
      ∧ s₁.state p = .ready ∧ (∀ r ≠ p, s₁.block r = s.block r)
      ∧ s₁.processes = s.processes := by
  obtain ⟨hg, hk⟩ := wake_refines h hinv hp hwait
  have hready : ((Action.wake p).apply alg s).state p = .ready := by
    show (Sched.enqueue alg s p).state p = .ready
    rw [Sched.state_enqueue, if_pos rfl]
  have hother : ∀ r ≠ p, ((Action.wake p).apply alg s).block r = s.block r := fun r hr => by
    show (Sched.enqueue alg s p).block r = s.block r
    rw [Sched.enqueue_block, if_neg hr]
  cases hwake with
  | keep =>
      refine ⟨_, ⟨hg, rfl⟩, ?_, hready, hother, rfl⟩
      have hid : k.modifyPcb p id = k := by simp [Kernel.modifyPcb]
      rw [hid]
      exact hk
  | clearWait =>
      refine ⟨_, ⟨hg, hready, rfl⟩, ?_, (Sched.state_modify rfl).trans hready, fun r hr => ?_,
        rfl⟩
      · -- The wait condition is cleared in the block before the insertion.
        have hcleared := h.modifyPcb p (f := Edit.clearWait.apply) (fun _ => rfl) fun _ => rfl
        have hinv' : ∀ q, (s.queue q).length ≤ N_PROCESSES := fun q => Nat.le_of_lt (hinv.length_lt q)
        have hne : p ≠ .initProcess := fun he => by
          rw [he, hinv.init_not_waiting] at hwait
          exact absurd hwait (by decide)
        have hfree : ¬ s.IsLinked p := hinv.not_linked fun hst => by
          rw [hst] at hwait
          exact absurd hwait (by decide)
        have henqueue := (hcleared.setState p .ready).enqueueProcess alg hne hfree hinv'
        rw [Sched.enqueue_setState, Sched.enqueue_modify alg (f := Edit.clearWait.apply)
          (fun _ => rfl) (fun _ => rfl) fun _ => rfl] at henqueue
        exact henqueue
      · exact (Sched.modify_block_of_ne hr).trans (hother r hr)

/-- A wake-up loop wakes the processes of the given slots that wait, and no others. -/
theorem wakeProcesses_does (h : Refines k s) (hinv : s.Inv alg) (waits : PCB → Bool)
    (hwaits : ∀ b, waits b = true → b.state.isWaiting = true)
    (hlink : ∀ b, waits b.unlinked = waits b) {wake : PCB → PCB} {es : List Edit}
    (hwake : WakeEdit wake es) (slots : List Nat) (hslots : ∀ i ∈ slots, i < N_PROCESSES) :
    ∃ as s₁, Exec alg s as s₁ ∧ Refines (k.wakeProcesses alg waits wake slots) s₁
      ∧ (∀ a ∈ as, (∃ p, a = .wake p) ∨ ∃ p e, a = .edit p e ∧ e ∈ es)
      ∧ s₁.processes = s.processes
      ∧ (∀ r, waits (s.block r) = false → s₁.block r = s.block r)
      ∧ (∀ i ∈ slots, ∀ p, s.processes i = some p → waits (s₁.block p) = false) := by
  induction slots generalizing k s with
  | nil => exact ⟨[], s, rfl, h, by simp, rfl, fun _ _ => rfl, by simp⟩
  | cons i slots ih =>
      have hrest : ∀ j ∈ slots, j < N_PROCESSES := fun j hj => hslots j (by simp [hj])
      unfold wakeProcesses at ih ⊢
      rw [List.foldl_cons, h.processes]
      cases hi : s.processes i with
      | none =>
          obtain ⟨as, s₁, hexec, hk, has, hproc, hkept, hdone⟩ := ih h hinv hrest
          refine ⟨as, s₁, hexec, hk, has, hproc, hkept, fun j hj r hr => ?_⟩
          rcases List.mem_cons.mp hj with rfl | hj
          · rw [hi] at hr
            exact nomatch hr
          · exact hdone j hj r hr
      | some p =>
          have hp : s.Registered p := ⟨i, hslots i (by simp), hi⟩
          have hwaits' : waits (k.pcb p) = waits (s.block p) := by
            rw [h.block_eq, hlink]
          simp only [hwaits']
          by_cases hw : waits (s.block p) = true
          · rw [if_pos hw]
            obtain ⟨s', hexec', hk', hready, hother, hproc'⟩ :=
              wakeOne_does h hinv hp (hwaits _ hw) hwake
            obtain ⟨as, s₁, hexec, hk, has, hproc, hkept, hdone⟩ :=
              ih hk' (hinv.exec hexec') hrest
            have hnot : waits (s'.block p) = false := by
              cases hw' : waits (s'.block p) with
              | false => rfl
              | true =>
                  have := hwaits _ hw'
                  rw [show (s'.block p).state = .ready from hready] at this
                  exact absurd this (by decide)
            refine ⟨_, s₁, exec_append.mpr ⟨s', hexec', hexec⟩, hk, fun a ha => ?_,
              hproc.trans hproc', fun r hr => ?_, fun j hj r hr => ?_⟩
            · rcases List.mem_append.mp ha with ha | ha
              · rcases List.mem_cons.mp ha with rfl | ha
                · exact Or.inl ⟨p, rfl⟩
                · obtain ⟨e, he, rfl⟩ := List.mem_map.mp ha
                  exact Or.inr ⟨p, e, rfl, he⟩
              · exact has a ha
            · have hrp : r ≠ p := fun he => by rw [he, hw] at hr; exact nomatch hr
              rw [hkept r (by rw [hother r hrp]; exact hr), hother r hrp]
            · rcases List.mem_cons.mp hj with rfl | hj
              · rw [hi] at hr
                rw [← Option.some.inj hr, hkept p hnot]
                exact hnot
              · exact hdone j hj r (by rw [hproc']; exact hr)
          · have hw : waits (s.block p) = false := by simpa using hw
            rw [if_neg (by simp [hw])]
            obtain ⟨as, s₁, hexec, hk, has, hproc, hkept, hdone⟩ := ih h hinv hrest
            refine ⟨as, s₁, hexec, hk, has, hproc, hkept, fun j hj r hr => ?_⟩
            rcases List.mem_cons.mp hj with rfl | hj
            · rw [hi] at hr
              rw [← Option.some.inj hr, hkept p hw]
              exact hw
            · exact hdone j hj r hr

end Wake

/-! ### System calls -/

/-- The kernel works for the current process, which is in a system call and does not own
the console. -/
structure Serving (alg : SchedAlgorithm) (k : Kernel) (s : Sched) : Prop where
  refines : Refines k s
  inv : s.Inv alg
  ne_init : s.currentProcess ≠ .initProcess
  running : s.state s.currentProcess = .running
  owner : s.uartOwner ≠ some s.currentProcess

namespace Serving

variable {alg : SchedAlgorithm} {dep : Departure} {k k' : Kernel} {s s' : Sched} {as : List Action}

theorem returnToUser (h : Serving alg k s) (dep : Departure) (value : Int) :
    ∃ as s₁, Code alg dep s as s₁ (k.returnToUser value) :=
  returnToUser_code h.refines h.ne_init h.running h.owner value

theorem toUser (h : Serving alg k s) (dep : Departure) :
    ∃ as s₁, Code alg dep s as s₁ (k.suspendAt .user, .returns) :=
  toUser_code alg dep h.refines h.ne_init h.running h.owner

/-- The context after actions that keep the CPU. -/
theorem step (h : Serving alg k s) (hexec : Exec alg s as s') (hstays : ∀ a ∈ as, a.Stays)
    (hk : Refines k' s') (howner : s'.uartOwner = s.uartOwner) : Serving alg k' s' := by
  obtain ⟨hinv, hrun, hcur⟩ := hexec.stays hstays h.inv fun _ => h.running
  have hne : s'.currentProcess ≠ .initProcess := by rw [hcur]; exact h.ne_init
  exact ⟨hk, hinv, hne, hrun hne, by rw [howner, hcur]; exact h.owner⟩

/-- One edit. -/
theorem edit (h : Serving alg k s) {p : PcbPtr} {e : Edit} (hg : e.Guard s p)
    (hk : Refines k' (s.modify p e.apply)) : Serving alg k' (s.modify p e.apply) := by
  obtain ⟨hexec, hstays⟩ := exec_one alg s (.edit p e) hg trivial
  exact h.step hexec hstays hk rfl

/-- An edit in front of code. -/
theorem edit_code {r : Kernel × Control} {p : PcbPtr} {e : Edit} (hg : e.Guard s p)
    (h : ∃ as s₁, Code alg dep (s.modify p e.apply) as s₁ r) :
    ∃ as s₁, Code alg dep s as s₁ r := by
  obtain ⟨as, s₁, hcode⟩ := h
  obtain ⟨hexec, hstays⟩ := exec_one alg s (.edit p e) hg trivial
  exact ⟨_, s₁, hcode.prepend hexec hstays⟩

/-- A note in front of code. -/
theorem note_code {r : Kernel × Control} {e : KernelEvent} (he : e.isNote = true)
    (h : ∃ as s₁, Code alg dep (s.log e) as s₁ r) : ∃ as s₁, Code alg dep s as s₁ r := by
  obtain ⟨as, s₁, hcode⟩ := h
  obtain ⟨hexec, hstays⟩ := exec_one alg s (.note e) he trivial
  exact ⟨_, s₁, hcode.prepend hexec hstays⟩

theorem log (h : Serving alg k s) {e : KernelEvent} (he : e.isNote = true) :
    Serving alg (k.log e) (s.log e) := by
  obtain ⟨hexec, hstays⟩ := exec_one alg s (.note e) he trivial
  exact h.step hexec hstays (h.refines.log e) rfl

end Serving

section Syscalls
variable {alg : SchedAlgorithm} {dep : Departure} {k : Kernel} {s : Sched} {p : PcbPtr}

/-- `search_process` finds registered processes. -/
theorem searchProcess_some (h : Refines k s) {pid : Int}
    (hp : k.searchProcess pid = some p) : s.Registered p ∧ ((s.block p).pid : Int) = pid := by
  obtain ⟨i, hi, hfound⟩ := List.exists_of_findSome?_eq_some hp
  rw [h.processes] at hfound
  cases hs : s.processes i with
  | none => rw [hs] at hfound; exact nomatch hfound
  | some r =>
      rw [hs] at hfound
      simp only at hfound
      split at hfound
      · next hpid =>
          obtain rfl := Option.some.inj hfound
          refine ⟨⟨i, List.mem_range.mp hi, hs⟩, ?_⟩
          rw [h.block_eq]
          exact hpid
      · exact nomatch hfound

/-- A block with another message ring. -/
def setMessages (buffer : MessagesCircularBuffer) (b : PCB) : PCB :=
  { b with messagesBuffer := buffer }

theorem setMessages_core (buffer : MessagesCircularBuffer) (b : PCB) :
    (setMessages buffer b).core = b.core := rfl

/-- The edit that changes a ring. -/
def ringEdit (buffer : MessagesCircularBuffer) : Edit :=
  .touch (setMessages buffer) (setMessages_core buffer)

theorem ring_refines (h : Refines k s) (p : PcbPtr) (buffer : MessagesCircularBuffer) :
    Refines (k.modifyPcb p (setMessages buffer)) (s.modify p (ringEdit buffer).apply) :=
  h.modifyPcb p (fun _ => rfl) fun _ => rfl

/-- The ring update of `push_message` and the wake-up of the receiver. -/
theorem pushMessage_does (h : Refines k s) (hinv : s.Inv alg) {message : Message}
    (hp : s.Registered message.destinationProcess) {k' : Kernel}
    (hpush : k.pushMessage alg p message = some k') :
    ∃ as s', Exec alg s as s' ∧ (∀ a ∈ as, a.Stays) ∧ Refines k' s'
      ∧ s'.uartOwner = s.uartOwner := by
  unfold Kernel.pushMessage at hpush
  cases hring : pcbRing.push (k.pcb p).messagesBuffer message with
  | none => rw [hring] at hpush; exact nomatch hpush
  | some buffer =>
      rw [hring] at hpush
      have hexec₁ : Exec alg s [.edit p (ringEdit buffer), .note (.pushed message)]
          ((s.modify p (ringEdit buffer).apply).log (.pushed message)) := ⟨trivial, rfl, rfl⟩
      have hstays₁ : ∀ a ∈ [Action.edit p (ringEdit buffer), .note (.pushed message)],
          a.Stays := by
        intro a ha
        rcases List.mem_cons.mp ha with rfl | ha
        · trivial
        · rw [List.mem_singleton.mp ha]
          trivial
      have h₁ := (ring_refines h p buffer).log (.pushed message)
      have hinv₁ := hinv.exec hexec₁
      change (if (((k.modifyPcb p (setMessages buffer)).log (.pushed message)).pcb
          message.destinationProcess).state = .waitingToReceiveMessage then _ else _) = _ at hpush
      rw [h₁.state_eq] at hpush
      split at hpush
      · next hwait =>
          -- The receiver waits for a message.
          obtain ⟨hg, hk⟩ := wake_refines h₁ hinv₁ hp (by rw [hwait]; rfl)
          obtain rfl := Option.some.inj hpush
          obtain ⟨hexec₂, hstays₂⟩ := exec_one _ _ _ hg trivial
          exact ⟨_, _, exec_append.mpr ⟨_, hexec₁, hexec₂⟩,
            fun a ha => (List.mem_append.mp ha).elim (hstays₁ a) (hstays₂ a), hk, rfl⟩
      · obtain rfl := Option.some.inj hpush
        exact ⟨_, _, hexec₁, hstays₁, h₁, rfl⟩

/-- `send_message`, for a registered destination. -/
theorem sendMessage_code (h : Serving alg k s) (hp : s.Registered p) {body : Body}
    (hsends : k.pushMessage alg p ⟨k.currentProcess, p, body⟩ = none → dep.sends p) :
    ∃ as s₁, Code alg dep s as s₁ (k.sendMessage alg k.currentProcess p body) := by
  simp only [Kernel.sendMessage]
  cases hpush : k.pushMessage alg p ⟨k.currentProcess, p, body⟩ with
  | some k' =>
      obtain ⟨as, s', hexec, hstays, hk, howner⟩ := pushMessage_does h.refines h.inv hp hpush
      obtain ⟨bs, s₁, hcode⟩ := (h.step hexec hstays hk howner).returnToUser dep 0
      exact ⟨_, s₁, hcode.prepend hexec hstays⟩
  | none =>
      refine block_code .waitingToSendMessage h.refines h.ne_init h.running rfl
        (fun d body' hd => ?_) (fun hown => absurd hown h.owner) ⟨p, body, rfl⟩
        (fun hw => nomatch hw) (fun _ => ⟨p, body, rfl, hsends hpush⟩)
      rw [ResumePoint.sendMessage.injEq] at hd
      exact hd.1 ▸ hp

/-- `receive_message` of the current process. -/
theorem receiveMessage_code (h : Serving alg k s) :
    ∃ as s₁, Code alg dep s as s₁ (k.receiveMessage alg k.currentProcess) := by
  unfold Kernel.receiveMessage Kernel.popMessage
  cases hring : pcbRing.pop (k.pcb k.currentProcess).messagesBuffer with
  | none =>
      exact block_code .waitingToReceiveMessage h.refines h.ne_init h.running rfl
        (fun _ _ hd => nomatch hd) (fun hown => absurd hown h.owner) rfl (fun hw => nomatch hw)
        fun hw => nomatch hw
  | some r =>
      obtain ⟨buffer, m⟩ := r
      have h₁ := h.edit (e := ringEdit buffer) (p := k.currentProcess) trivial
        (ring_refines h.refines _ buffer)
      have h₂ := h₁.log (e := .received k.currentProcess m.body) rfl
      obtain ⟨as, s', hexec, hk, has, -, -, -⟩ := wakeProcesses_does h₂.refines h₂.inv
        (fun b => b.state = .waitingToSendMessage)
        (fun b hb => by rw [decide_eq_true_eq] at hb; rw [hb]; rfl) (fun _ => rfl)
        WakeEdit.keep (List.range N_PROCESSES) fun i hi => List.mem_range.mp hi
      have hstays : ∀ a ∈ as, a.Stays := fun a ha => by
        rcases has a ha with ⟨p, rfl⟩ | ⟨p, e, rfl, he⟩ <;> trivial
      refine Serving.edit_code (e := ringEdit buffer) (p := k.currentProcess) trivial
        (Serving.note_code (e := .received k.currentProcess m.body) rfl ?_)
      have h₃ := h₂.step hexec hstays hk (hexec.uartOwner fun a ha owner he => by
        rcases has a ha with ⟨p, rfl⟩ | ⟨p, e, rfl, -⟩ <;> exact nomatch he)
      obtain ⟨bs, s₁, hcode⟩ := h₃.toUser dep
      exact ⟨_, s₁, hcode.prepend hexec hstays⟩

/-- `syscall_send_message`. -/
theorem syscallSendMessage_code (h : Serving alg k s) {pid : Int} {body : Body}
    (hsends : ∀ p, k.searchProcess pid = some p →
      k.pushMessage alg p ⟨k.currentProcess, p, body⟩ = none → dep.sends p) :
    ∃ as s₁, Code alg dep s as s₁ (k.syscallSendMessage alg pid body) := by
  unfold Kernel.syscallSendMessage
  cases hp : k.searchProcess pid with
  | none => exact h.returnToUser dep _
  | some p => exact sendMessage_code h (searchProcess_some h.refines hp).1 (hsends p hp)

/-- `syscall_send_signal`. -/
theorem syscallSendSignal_code (h : Serving alg k s) (pid signalFlag : Int) :
    ∃ as s₁, Code alg dep s as s₁ (k.syscallSendSignal pid signalFlag) := by
  unfold Kernel.syscallSendSignal
  cases hp : k.searchProcess pid with
  | none => exact h.returnToUser dep _
  | some p =>
      have hg : (Edit.raise (1#32 <<< (signalFlag % 32).toNat)).Guard s p :=
        (searchProcess_some h.refines hp).1
      have h₁ := h.edit hg (h.refines.modifyPcb p (fun _ => rfl) fun _ => rfl)
      exact Serving.edit_code hg (h₁.returnToUser dep 0)

/-- `syscall_wait`. The process records what it waits for before it blocks. -/
theorem syscallWait_code (h : Serving alg k s) (pid : Int) :
    ∃ as s₁, Code alg dep s as s₁ (k.syscallWait pid) := by
  unfold Kernel.syscallWait
  cases hp : k.searchProcess pid with
  | none => exact h.returnToUser dep _
  | some p =>
      obtain ⟨hreg, hpid⟩ := searchProcess_some h.refines hp
      dsimp only
      rw [h.refines.state_eq]
      split
      · exact Serving.note_code (e := .waitReturned k.currentProcess pid) rfl
          ((h.log rfl).returnToUser dep 0)
      · next hz =>
          have hg : (Edit.waitFor pid).Guard s s.currentProcess :=
            ⟨rfl, by rw [h.running]; rfl⟩
          have h₁ := h.edit hg (h.refines.modifyCurrent (fun _ => rfl) fun _ => rfl)
          refine Serving.edit_code hg ?_
          -- The two assignments to the block commute.
          have hcomm : (k.setState k.currentProcess .waitingAnotherProcess).modifyCurrent
              (fun b => { b with pidToWait := pid })
              = (k.modifyCurrent (Edit.waitFor pid).apply).setState
                (k.modifyCurrent (Edit.waitFor pid).apply).currentProcess
                .waitingAnotherProcess := by
            simp [Kernel.modifyCurrent, Kernel.setState, Kernel.modifyPcb, Edit.apply,
              PCB.withState]
          rw [hcomm]
          refine block_code .waitingAnotherProcess h₁.refines h₁.ne_init h₁.running rfl
            (fun _ _ hd => by cases hd) (fun hown => absurd hown h₁.owner) ?_ (fun _ d hd hdp => ?_)
            fun hw => by cases hw
          · rw [Sched.modify_currentProcess, Sched.modify_block_self]
            rfl
          · -- The target is not a zombie, and no other process has its pid.
            have hd' : s.Registered d := hd
            rw [Sched.modify_currentProcess, Sched.modify_block_self,
              Sched.modify_field PCB.pid rfl] at hdp
            have hdp' : ((s.block d).pid : Int) = pid := hdp
            have : d = p := h.inv.table.pid_injective hd' hreg (by
              have := hdp'.trans hpid.symm
              exact_mod_cast this)
            rw [this, Sched.state_modify rfl]
            exact hz

/-- The continuation of `syscall_wait`. -/
theorem waitReturn_code (h : Serving alg k s) (pid : Int) :
    ∃ as s₁, Code alg dep s as s₁ (k.waitReturn pid) :=
  Serving.note_code (e := .waitReturned k.currentProcess pid) rfl
    ((h.log rfl).returnToUser dep 0)

/-- `syscall_yield`. -/
theorem syscallYield_code (h : Serving alg k s) :
    ∃ as s₁, Code alg dep s as s₁ k.syscallYield := by
  have hg : Edit.expire.Guard s s.currentProcess := rfl
  have hk : Refines (k.setCounter k.currentProcess 0)
      (s.modify s.currentProcess Edit.expire.apply) := by
    rw [h.refines.currentProcess]
    exact h.refines.setCounter _ 0
  obtain ⟨as, s₁, hcode, -⟩ := schedule_code alg dep hk
  exact Serving.edit_code hg ⟨as, s₁, hcode⟩

/-- The assignments of `sched_set_param` to the queue priority and to the level. -/
theorem setQueuePriority_does (h : Serving alg k s) (p : PcbPtr) (value : Int)
    (hvalue : value.toNat < ML_MAX_LEVELS) :
    ∃ as s', Exec alg s as s' ∧ (∀ a ∈ as, a.Stays) ∧ Serving alg
      (let k := k.preemptDisable
      let k := k.modifyPcb p fun b => { b with queuePriority := value }
      let pid := (k.pcb p).pid
      let k := { k with queueLevel := Function.update k.queueLevel pid value.toNat }
      k.preemptEnable) s' := by
  obtain ⟨f, hf⟩ : ∃ f : PCB → PCB, f = fun b => { b with queuePriority := value } := ⟨_, rfl⟩
  have hkeeps : ∀ b, (f b).core = b.core := fun b => by rw [hf]; rfl
  have hlink : ∀ b, (f b).nextReady = b.nextReady := fun b => by rw [hf]
  have hview : ∀ b, (f b).unlinked = f b.unlinked := fun b => by rw [hf]; rfl
  have h₁ := h.edit (e := .preempt 1) rfl h.refines.preemptDisable
  have h₂ := h₁.edit (p := p) (e := .touch f hkeeps) trivial
    (h₁.refines.modifyPcb p hlink hview)
  obtain ⟨pid, hpid⟩ : ∃ pid, pid = ((k.preemptDisable.modifyPcb p f).pcb p).pid := ⟨_, rfl⟩
  have hk₃ := h₂.refines.updateLevel pid value.toNat
  obtain ⟨hexec₃, hstays₃⟩ := exec_one alg ((s.modify s.currentProcess (Edit.preempt 1).apply).modify p
      (Edit.touch f hkeeps).apply) (.setLevel pid value.toNat) hvalue trivial
  have h₃ := h₂.step hexec₃ hstays₃ hk₃ rfl
  have h₄ := h₃.edit (e := .preempt (-1)) rfl h₃.refines.preemptEnable
  refine ⟨[.edit s.currentProcess (.preempt 1), .edit p (.touch f hkeeps),
    .setLevel pid value.toNat, .edit s.currentProcess (.preempt (-1))], _,
    ⟨rfl, trivial, hvalue, rfl, rfl⟩, fun a ha => ?_, ?_⟩
  · simp only [List.mem_cons, List.not_mem_nil, or_false] at ha
    rcases ha with rfl | rfl | rfl | rfl <;> trivial
  · rw [← hf]
    dsimp only
    rw [← hpid]
    exact h₄

/-- `sched_set_param`. -/
theorem schedSetParam_does (h : Serving alg k s) (p : PcbPtr) (param value : Int) :
    ∃ as s', Exec alg s as s' ∧ (∀ a ∈ as, a.Stays)
      ∧ Serving alg (k.schedSetParam alg p param value).1 s' := by
  have hskip : ∃ as s', Exec alg s as s' ∧ (∀ a ∈ as, a.Stays) ∧ Serving alg k s' :=
    ⟨[], s, rfl, by simp, h⟩
  have hone : ∀ {e : Edit} {k' : Kernel}, e.Guard s p → Refines k' (s.modify p e.apply) →
      ∃ as s', Exec alg s as s' ∧ (∀ a ∈ as, a.Stays) ∧ Serving alg k' s' := fun {e k'} hg hk => by
    obtain ⟨hexec, hstays⟩ := exec_one alg _ (.edit p e) hg trivial
    exact ⟨_, _, hexec, hstays, h.edit hg hk⟩
  unfold Kernel.schedSetParam
  split
  · exact hskip
  · next hne =>
    split
    · split
      · exact hskip
      · next hv =>
          exact hone (e := .setPriority value) ⟨hne, by omega⟩
            (h.refines.modifyPcb (f := (Edit.setPriority value).apply) p (fun _ => rfl)
              fun _ => rfl)
    · split
      · split
        · exact hskip
        · exact hone (e := .touch (fun b => { b with tickets := value }) fun _ => rfl) trivial
            (h.refines.modifyPcb (f := fun b => { b with tickets := value }) p (fun _ => rfl)
              fun _ => rfl)
      · split
        · split
          · exact hskip
          · next hv =>
              refine setQueuePriority_does h p _ ?_
              have hbound : value < 5 := by
                have : (ML_MAX_LEVELS : Int) = 5 := rfl
                omega
              have h5 : ML_MAX_LEVELS = 5 := rfl
              have hkept : value.toNat < ML_MAX_LEVELS := by omega
              have hclamp : ∀ n : Int, n = 5 →
                  (if value ≥ n then n - 1 else value).toNat < ML_MAX_LEVELS := fun n hn => by
                split <;> omega
              cases alg <;> first | exact hclamp _ rfl | exact hkept
        · exact hskip

/-- `syscall_set_sched_param`. -/
theorem syscallSetSchedParam_code (h : Serving alg k s) (pid param value : Int) :
    ∃ as s₁, Code alg dep s as s₁ (k.syscallSetSchedParam alg pid param value) := by
  unfold Kernel.syscallSetSchedParam
  cases hp : k.searchProcess pid with
  | none => exact h.returnToUser dep _
  | some p =>
      obtain ⟨as, s', hexec, hstays, h'⟩ := schedSetParam_does h p param value
      obtain ⟨bs, s₁, hcode⟩ := h'.returnToUser dep
        (k.schedSetParam alg p param value).2
      exact ⟨_, s₁, hcode.prepend hexec hstays⟩

end Syscalls

end DemoOS
