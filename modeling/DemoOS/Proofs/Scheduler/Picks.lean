import DemoOS.Proofs.Scheduler.ReadyQueues

/-!
# `DemoOS.Proofs.Scheduler.Picks`: what a selection does to every process

The states, signals and queues after a call of the selection function, in terms of those
before it: `PickExec.state_of_removed` for the processes that a signal takes out of the
queues, `PickExec.state_of_kept` for the others, and `PickExec.queue` for the queues.
-/

set_option autoImplicit false

namespace DemoOS

open Support

/-- The states that a dispatch neither reads nor writes. -/
def ProcessState.isOff : ProcessState → Bool
  | .unset | .running | .ready => false
  | _ => true

namespace Sched

section Requeued
variable {alg : SchedAlgorithm} {s : Sched} {r : PcbPtr}

/-- The opening of a selection function changes states and preemption counters only. -/
theorem requeued_field {β : Type} (φ : PCB → β) (hstate : ∀ b st, φ (PCB.withState b st) = φ b)
    (hpreempt : ∀ b, φ ((Edit.preempt 1).apply b) = φ b) (r : PcbPtr) :
    φ ((s.requeued alg).block r) = φ (s.block r) := by
  simp only [requeued]
  split
  · rw [enqueue_field alg φ hstate, modify_field φ (hpreempt _)]
  · exact modify_field φ (hpreempt _) r

/-- A process that is off the CPU and outside the queues stays so. -/
theorem requeued_state_iff {st : ProcessState} (hst : st.isOff = true) :
    (s.requeued alg).state r = st ↔ s.state r = st := by
  have hmodify : (s.modify s.currentProcess (Edit.preempt 1).apply).state r = s.state r :=
    state_modify rfl
  simp only [requeued]
  split
  · next hcond =>
      rw [state_enqueue, hmodify]
      split
      · next hr =>
          -- The outgoing process was running and is ready now.
          have hrun : s.state r = .running := by
            rw [← hmodify, hr]
            exact hcond.2
          rw [hrun]
          constructor <;> rintro rfl <;> cases hst
      · rfl
  · rw [hmodify]

/-- Nobody leaves a queue in the opening. -/
theorem mem_requeued_queue {q : QueueId} (h : r ∈ s.queue q) : r ∈ (s.requeued alg).queue q := by
  simp only [requeued]
  split
  · exact (mem_enqueue_queue alg).mpr (Or.inr h)
  · exact h

end Requeued

end Sched

/-! ### The actions of a selection -/

/-- The actions of a selection function. -/
def Action.IsPick : Action → Prop
  | .requeue | .drop _ | .recharge | .dispatch _ _ | .edit _ .clearResume
  | .edit _ (.preempt _) => True
  | _ => False

section Actions
variable {alg : SchedAlgorithm} {s s' : Sched} {as : List Action} {next : Option PcbPtr}
  {quantum : Option Int}

/-- A selection changes nobody's pid, resume point or wait condition. -/
theorem Exec.identity (h : Exec alg s as s') (has : ∀ a ∈ as, a.IsPick) :
    (∀ r, Sched.identity (s'.block r) = Sched.identity (s.block r))
      ∧ s'.processes = s.processes := by
  refine h.invariant (P := fun t => (∀ r, Sched.identity (t.block r) = Sched.identity (s.block r))
    ∧ t.processes = s.processes) (fun t a ha _ ht => ?_) has ⟨fun _ => rfl, rfl⟩
  have hstate := Sched.identity_withState
  refine ⟨fun r => Eq.trans ?_ (ht.1 r), Eq.trans ?_ ht.2⟩
  · cases a with
    | edit p e =>
        cases e with
        | clearResume | preempt => exact Sched.modify_field Sched.identity rfl r
        | _ => exact absurd ha id
    | requeue => exact Sched.enqueue_field alg Sched.identity hstate r
    | drop p => exact Sched.modify_field Sched.identity (Sched.identity_handled _) r
    | recharge =>
        simp only [Action.apply]
        split
        · exact Sched.identity_withCounter _ _
        · rfl
    | dispatch next quantum =>
        cases next with
        | none => exact Sched.switchTo_field Sched.identity hstate r
        | some p =>
            refine (Sched.switchTo_field Sched.identity hstate r).trans ?_
            exact Sched.modify_field Sched.identity (Sched.identity_withCounter _ _) r
    | _ => exact absurd ha id
  · cases a with
    | dispatch next quantum => cases next <;> exact Sched.switchTo_processes
    | edit | requeue | drop | recharge => rfl
    | _ => exact absurd ha id

theorem isPick_pickActions (has : ∀ a ∈ as, a.Selects) :
    ∀ a ∈ pickActions s as next quantum, a.IsPick := by
  intro a ha
  unfold pickActions Sched.requeueActions at ha
  rcases List.mem_append.mp ha with ha | ha
  · rcases List.mem_append.mp ha with ha | ha
    · rcases List.mem_cons.mp ha with rfl | ha
      · trivial
      · split at ha
        · rw [List.mem_singleton.mp ha]
          trivial
        · exact nomatch ha
    · have := has a ha
      cases a with
      | edit p e => cases e <;> trivial
      | drop | recharge => trivial
      | _ => exact absurd this id
  · simp only [List.mem_cons, List.not_mem_nil, or_false] at ha
    rcases ha with rfl | rfl <;> trivial

end Actions

namespace PickExec

variable {alg : SchedAlgorithm} {s₁ s₂ s₃ : Sched} {as : List Action} {next : Option PcbPtr}
  {quantum : Option Int} {p : PcbPtr}

theorem selected (h : PickExec alg s₁ as s₂ next quantum s₃) :
    (s₁.requeued alg).Selected (drops as) s₂ :=
  h.exec.selected h.selects

theorem isPick (h : PickExec alg s₁ as s₂ next quantum s₃) :
    ∀ a ∈ pickActions s₁ as next quantum, a.IsPick := isPick_pickActions h.selects

theorem processes (h : PickExec alg s₁ as s₂ next quantum s₃) : s₃.processes = s₁.processes :=
  (h.all.identity h.isPick).2

theorem queueLevel (h : PickExec alg s₁ as s₂ next quantum s₃) :
    s₃.queueLevel = s₁.queueLevel := by
  have hopened : (s₁.requeued alg).queueLevel = s₁.queueLevel := by
    simp only [Sched.requeued]
    split <;> rfl
  rw [h.final, Sched.modify_queueLevel, ← hopened, ← h.selected.queueLevel]
  cases next <;> exact Sched.switchTo_queueLevel

theorem inv (h : PickExec alg s₁ as s₂ next quantum s₃) (hinv : s₁.Inv alg) : s₂.Inv alg :=
  (inv_requeued hinv).exec h.exec

/-- The dispatch leaves the processes that are off. -/
theorem dispatch_state_iff (h : PickExec alg s₁ as s₂ next quantum s₃) (hinv : s₁.Inv alg)
    {st : ProcessState} (hst : st.isOff = true) : s₃.state p = st ↔ s₂.state p = st := by
  have hinv₂ := h.inv hinv
  have hg := h.guard
  -- The process that gets the CPU was ready, or it is init.
  have hswitch : ∀ {t : Sched} {r : PcbPtr}, t.state r ≠ st →
      ((t.switchTo r).state p = st ↔ t.state p = st) := by
    intro t r hr
    rw [Sched.state_switchTo]
    split
    · next hpr =>
        subst hpr
        exact iff_of_false (by rintro rfl; exact nomatch hst) hr
    · split
      · next hd =>
          rw [hd.1, hd.2]
          constructor <;> rintro rfl <;> exact nomatch hst
      · rfl
  rw [h.final, Sched.state_modify rfl]
  cases next with
  | none =>
      refine hswitch fun hinit => ?_
      rcases hinv₂.cpu.initState with h' | h' | h' <;> rw [h'] at hinit <;> rw [← hinit] at hst <;>
        exact nomatch hst
  | some r =>
      have hstate : ∀ x, ((s₂.unlink r).modify r fun b =>
          b.withCounter (quantum.getD b.counter)).state x = s₂.state x := fun x =>
        Sched.state_modify rfl
      refine (hswitch fun hr => ?_).trans (by rw [hstate])
      rw [hstate, hinv₂.linked_ready hg.1] at hr
      rw [← hr] at hst
      exact nomatch hst

/-- A process that a signal takes out of the queues ends as a zombie or stopped. -/
theorem state_of_removed (h : PickExec alg s₁ as s₂ next quantum s₃) (hinv : s₁.Inv alg)
    (hp : p ∈ drops as) : (s₁.block p).signalled = true
      ∧ s₃.state p = if (s₁.block p).isPending SIGNAL_KILL then .zombie else .stopped := by
  obtain ⟨-, hsig, hst⟩ := h.selected.dropped p hp
  rw [Sched.requeued_field PCB.signalled (fun _ _ => rfl) (fun _ => rfl)] at hsig
  rw [Sched.requeued_field (fun b => b.isPending SIGNAL_KILL) (fun _ _ => rfl) (fun _ => rfl)] at hst
  refine ⟨hsig, (h.dispatch_state_iff hinv ?_).mpr hst⟩
  split <;> rfl

/-- Any other process that is off stays in its state, and no other comes to it. -/
theorem state_of_kept (h : PickExec alg s₁ as s₂ next quantum s₃) (hinv : s₁.Inv alg)
    (hp : p ∉ drops as) {st : ProcessState} (hst : st.isOff = true) :
    s₃.state p = st ↔ s₁.state p = st := by
  rw [h.dispatch_state_iff hinv hst, (h.selected.kept p hp).1, Sched.requeued_state_iff hst]

/-! A function of blocks that looks at no state, pending signals or counter. -/

section Fields
variable {β : Type} (φ : PCB → β)
  (hφ : ∀ b st signals c, φ { b with state := st, pendingSignals := signals, counter := c } = φ b)
include hφ

/-- A search leaves the function's value. -/
theorem searched_field (h : PickExec alg s₁ as s₂ next quantum s₃) (p : PcbPtr) :
    φ (s₂.block p) = φ ((s₁.requeued alg).block p) :=
  h.exec.select_field φ hφ h.selects p

/-- The dispatch leaves it, up to the preemption count of the process that gets the CPU. -/
theorem dispatched_field (h : PickExec alg s₁ as s₂ next quantum s₃) (p : PcbPtr) :
    φ (s₃.block p) = if p = s₃.currentProcess then
      φ { (s₂.block p) with preemptDisabled := (s₂.block p).preemptDisabled - 1 }
    else φ (s₂.block p) := by
  have hswitched : ∀ ψ : PCB → β, (∀ b st signals c,
      ψ { b with state := st, pendingSignals := signals, counter := c } = ψ b) →
      ψ (((Action.dispatch next quantum).apply alg s₂).block p) = ψ (s₂.block p) := by
    intro ψ hψ
    have hstate : ∀ b st, ψ (PCB.withState b st) = ψ b := fun b st =>
      hψ b st b.pendingSignals b.counter
    cases next with
    | none => exact Sched.switchTo_field ψ hstate p
    | some r =>
        refine (Sched.switchTo_field ψ hstate p).trans ?_
        exact Sched.modify_field (s := s₂.unlink r) ψ
          (hψ _ (s₂.block r).state (s₂.block r).pendingSignals _) p
  rw [h.final, Sched.modify_block]
  split
  · next hp =>
      subst hp
      rw [if_pos (h.final ▸ h.currentProcess).symm]
      exact hswitched (fun b => φ { b with preemptDisabled := b.preemptDisabled - 1 })
        fun b st signals c =>
          hφ { b with preemptDisabled := b.preemptDisabled - 1 } st signals c
  · next hp =>
      have hcurrent : p ≠ s₃.currentProcess := fun he => hp (he.trans h.currentProcess)
      rw [if_neg (h.final ▸ hcurrent)]
      exact hswitched φ hφ

end Fields

end PickExec

end DemoOS
