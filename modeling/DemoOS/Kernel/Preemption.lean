import DemoOS.Kernel.Run

/-!
# `DemoOS.Kernel.Preemption`: kernel code that a tick may interrupt

System calls run with interrupts enabled (`el0_svc`). A timer tick that finds
`preempt_disabled` at 0 calls the selection function in the middle of one, and the process
goes on behind the interrupted statement when it gets the CPU again.

A `Program` is a part of the kernel that is followed statement by statement, and `Program.step`
lets an interrupt come between any two statements. Each process then has a place in the
program of its own, with the local variables of the call. Kernel code outside the program runs
as in `Kernel.step`. What a program does without an interruption is `Program.complete`.
-/

set_option autoImplicit false

namespace DemoOS

/-- Where the code goes on behind a statement. -/
inductive Flow (π : Type) where
  | goto (p : π)
  /-- Return to user code. -/
  | returns
  /-- `_schedule()`, with the place behind it. -/
  | schedules (p : Option π)

/-- Kernel code that works on states `σ`, in steps from one of the places `π` to the next. The
system calls that it serves are `γ`. -/
structure Program (σ π γ : Type) where
  kernel : σ → Kernel
  setKernel : σ → Kernel → σ
  /-- The first statement of a system call. -/
  call : γ → π
  statement : SchedAlgorithm → σ → π → σ × Flow π
  /-- The kernel code that is not part of the program. -/
  trap : SchedAlgorithm → σ → Trap → Option σ

/-- A state, and the place of every process that is inside a call of the program. -/
structure Preemptible (σ π : Type) where
  state : σ
  point : PcbPtr → Option π

/-- What happens next. -/
inductive PreemptionEvent (γ : Type) where
  /-- The current process makes a system call, -/
  | call (c : γ)
  /-- executes the next statement of its call, -/
  | statement
  /-- or runs other kernel code. -/
  | trap (t : Trap)

/-- The trap may come in the middle of a system call. -/
def Trap.isInterrupt : Trap → Bool
  | .timerTick | .uartIrq _ _ _ => true
  | _ => false

namespace Program

variable {σ π γ : Type} (program : Program σ π γ) (alg : SchedAlgorithm)

/-- `current_process`. -/
def current (s : Preemptible σ π) : PcbPtr := (program.kernel s.state).currentProcess

/-- Nobody is inside a call. -/
def start (s : σ) : Preemptible σ π := ⟨s, fun _ => none⟩

/-- What follows a statement of the current process. -/
def proceed (s : Preemptible σ π) : σ × Flow π → Option (Preemptible σ π)
  | (s', .goto p) => some ⟨s', Function.update s.point (program.current s) (some p)⟩
  | (s', .returns) => some ⟨s', Function.update s.point (program.current s) none⟩
  | (s', .schedules p) =>
      (alg.pickNext (program.kernel s')).map fun k =>
        ⟨program.setKernel s' k, Function.update s.point (program.current s) p⟩

/-- One statement, or one interrupt or piece of other kernel code. The one that makes a system
call is a process of the table. -/
def step (s : Preemptible σ π) : PreemptionEvent γ → Option (Preemptible σ π)
  | .call c =>
      if (program.kernel s.state).InUserMode ∧ (s.point (program.current s)).isNone
          ∧ (program.kernel s.state).IsProcess (program.current s) then
        some { s with point := Function.update s.point (program.current s) (some (program.call c)) }
      else none
  | .statement =>
      (s.point (program.current s)).bind fun p =>
        program.proceed alg s (program.statement alg s.state p)
  | .trap t =>
      if t.isInterrupt ∨ (s.point (program.current s)).isNone then
        (program.trap alg s.state t).map fun s' => { s with state := s' }
      else none

/-- The state after a list of events, as long as they pass the check. -/
def run (check : Preemptible σ π → PreemptionEvent γ → Bool) (s : Preemptible σ π) :
    List (PreemptionEvent γ) → Option (Preemptible σ π)
  | [] => some s
  | e :: es => if check s e then (program.step alg s e).bind fun s => run check s es else none

/-- The states of runs whose steps are all allowed. -/
inductive Reachable (allowed : Preemptible σ π → PreemptionEvent γ → Prop)
    (first : Preemptible σ π) : Preemptible σ π → Prop where
  | start : Reachable allowed first first
  | step {s s' : Preemptible σ π} (e : PreemptionEvent γ) : Reachable allowed first s →
      allowed s e → program.step alg s e = some s' → Reachable allowed first s'

/-- Allowed steps lead from `first` to a state, and `n` of them are statements that `p` executes. -/
inductive Continues (allowed : Preemptible σ π → PreemptionEvent γ → Prop) (p : PcbPtr)
    (first : Preemptible σ π) : Nat → Preemptible σ π → Prop where
  | refl : Continues allowed p first 0 first
  | own {n : Nat} {s s' : Preemptible σ π} : Continues allowed p first n s →
      program.current s = p → allowed s .statement → program.step alg s .statement = some s' →
      Continues allowed p first (n + 1) s'
  | other {n : Nat} {s s' : Preemptible σ π} (e : PreemptionEvent γ) :
      Continues allowed p first n s → (e = .statement → program.current s ≠ p) → allowed s e →
      program.step alg s e = some s' → Continues allowed p first n s'

/-- The program from `p` on without an interruption, up to the return or the call of the
scheduler. -/
def complete : Nat → σ → π → Option (σ × Control)
  | 0, _, _ => none
  | fuel + 1, s, p =>
      match program.statement alg s p with
      | (s, .goto p) => complete fuel s p
      | (s, .returns) => some (s, .returns)
      | (s, .schedules _) => some (s, .schedules)

variable {program alg} {allowed : Preemptible σ π → PreemptionEvent γ → Prop}
  {first s s' : Preemptible σ π}

/-- A run goes on from where its first part ends. -/
theorem run_append {check : Preemptible σ π → PreemptionEvent γ → Bool}
    (es es' : List (PreemptionEvent γ)) :
    program.run alg check s (es ++ es')
      = (program.run alg check s es).bind fun s => program.run alg check s es' := by
  induction es generalizing s with
  | nil => rfl
  | cons e es ih =>
      rw [List.cons_append, run, run]
      split
      · rw [Option.bind_assoc]
        exact congrArg _ (funext fun _ => ih)
      · rfl

/-- Who is where, after the current process has moved. -/
theorem point_update {point : PcbPtr → Option π} {p q : PcbPtr} {x : Option π} {y : π}
    (h : Function.update point p x q = some y) : q = p ∧ x = some y ∨ q ≠ p ∧ point q = some y := by
  by_cases hqp : q = p
  · rw [hqp, Function.update_self] at h
    exact Or.inl ⟨hqp, h⟩
  · exact Or.inr ⟨hqp, (Function.update_of_ne hqp _ _).symm.trans h⟩

/-- What holds at the start and is preserved by allowed steps holds in the states that these
reach. -/
theorem Reachable.invariant (h : program.Reachable alg allowed first s)
    {I : Preemptible σ π → Prop} (hfirst : I first)
    (hstep : ∀ {s s' : Preemptible σ π} {e : PreemptionEvent γ}, I s → allowed s e →
      program.step alg s e = some s' → I s') : I s := by
  induction h with
  | start => exact hfirst
  | step e _ hallowed hs ih => exact hstep ih hallowed hs

/-- A run that passes a check for what is allowed reaches its last state. -/
theorem reachable_run {check : Preemptible σ π → PreemptionEvent γ → Bool}
    (hcheck : ∀ s e, check s e → allowed s e) {es : List (PreemptionEvent γ)}
    (h : program.run alg check s es = some s') (hs : program.Reachable alg allowed first s) :
    program.Reachable alg allowed first s' := by
  induction es generalizing s with
  | nil =>
      obtain rfl := Option.some.inj h
      exact hs
  | cons e es ih =>
      rw [run] at h
      split at h
      · next hpass =>
          obtain ⟨s₁, hone, hrest⟩ := Option.bind_eq_some_iff.mp h
          exact ih hrest (hs.step e (hcheck s e hpass) hone)
      · exact nomatch h

/-- The three kinds of steps. -/
theorem step_cases {e : PreemptionEvent γ} (h : program.step alg s e = some s') :
    (∃ c, e = .call c ∧ (program.kernel s.state).InUserMode ∧ s.point (program.current s) = none
      ∧ (program.kernel s.state).IsProcess (program.current s)
      ∧ s' = ⟨s.state, Function.update s.point (program.current s) (some (program.call c))⟩)
    ∨ (∃ p, e = .statement ∧ s.point (program.current s) = some p
      ∧ program.proceed alg s (program.statement alg s.state p) = some s')
    ∨ ∃ t st, e = .trap t ∧ (t.isInterrupt ∨ s.point (program.current s) = none)
      ∧ program.trap alg s.state t = some st ∧ s' = ⟨st, s.point⟩ := by
  cases e with
  | call c =>
      simp only [step] at h
      split at h
      · next hguard =>
          exact Or.inl ⟨c, rfl, hguard.1, Option.isNone_iff_eq_none.mp hguard.2.1, hguard.2.2,
            (Option.some.inj h).symm⟩
      · exact nomatch h
  | statement =>
      obtain ⟨p, hp, hnext⟩ := Option.bind_eq_some_iff.mp h
      exact Or.inr (Or.inl ⟨p, rfl, hp, hnext⟩)
  | trap t =>
      simp only [step] at h
      split at h
      · next hguard =>
          obtain ⟨st, hst, hs'⟩ := Option.map_eq_some_iff.mp h
          exact Or.inr (Or.inr ⟨t, st, rfl, hguard.imp id Option.isNone_iff_eq_none.mp, hst,
            hs'.symm⟩)
      · exact nomatch h

end Program

end DemoOS
