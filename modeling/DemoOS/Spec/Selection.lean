import DemoOS.Spec.Invariant
import Mathlib.Logic.Function.Iterate

/-!
# `DemoOS.Spec.Selection`: what the search of a selection function does

Between the moment a selection function has put the outgoing process back and its
context switch it does three things: it drops linked processes that a signal killed
or stopped, it clears resume bits, and under priority aging it recharges counters.
`Selected s D s₁` collects what every such search, with `D` the processes it
dropped, has in common whatever the order in which the algorithm looks at the
queues. `Exec.selected` derives it from the actions.
-/

set_option autoImplicit false

namespace DemoOS

namespace PCB

/-- Clearing the resume bit leaves the two bits that remove a process. -/
theorem signalled_clearResume (b : PCB) :
    (Edit.clearResume.apply b).signalled = b.signalled := by
  have hkept : ∀ mask : BitVec 32, ~~~(1#32 <<< SIGNAL_RESUME) &&& mask = mask →
      b.clearSignal SIGNAL_RESUME &&& mask = b.pendingSignals &&& mask := fun mask h => by
    rw [clearSignal, BitVec.and_assoc, h]
  have hkill := hkept (1#32 <<< SIGNAL_KILL) (by decide)
  have hstop := hkept (1#32 <<< SIGNAL_STOP) (by decide)
  simp only [signalled, isPending, Edit.apply, hkill, hstop]

end PCB

/-- The processes that a list of actions drops. -/
def drops (as : List Action) : List PcbPtr :=
  as.filterMap fun a => match a with
    | .drop p => some p
    | _ => none

theorem drops_append (as bs : List Action) : drops (as ++ bs) = drops as ++ drops bs :=
  List.filterMap_append

/-- How often a list of actions recharges the counters. -/
def recharges (as : List Action) : Nat :=
  as.countP fun a => match a with
    | .recharge => true
    | _ => false

theorem recharges_append (as bs : List Action) :
    recharges (as ++ bs) = recharges as + recharges bs :=
  List.countP_append

/-- The counter of a process after `n` recharges. -/
def PCB.aged (b : PCB) (n : Nat) : Int :=
  (fun c : Int => (c >>> (1 : Nat)) + b.priority)^[n] b.counter

namespace Sched

/-- The search of a selection function, which dropped the processes `D`. -/
structure Selected (s : Sched) (D : List PcbPtr) (s₁ : Sched) : Prop where
  queue : ∀ q, s₁.queue q = (s.queue q).filter (· ∉ D)
  currentProcess : s₁.currentProcess = s.currentProcess
  processes : s₁.processes = s.processes
  queueLevel : s₁.queueLevel = s.queueLevel
  kept : ∀ r ∉ D, s₁.state r = s.state r ∧ (s₁.block r).signalled = (s.block r).signalled
  dropped : ∀ r ∈ D, s.IsLinked r ∧ (s.block r).signalled = true
    ∧ s₁.state r = if (s.block r).isPending SIGNAL_KILL then .zombie else .stopped

namespace Selected

variable {s s₁ s₂ : Sched} {D : List PcbPtr} {p : PcbPtr}

theorem refl (s : Sched) : Selected s [] s where
  queue := by simp
  currentProcess := rfl
  processes := rfl
  queueLevel := rfl
  kept _ _ := ⟨rfl, rfl⟩
  dropped := by simp

/-- A change of blocks in front of a search. -/
theorem of_blocks (h : Selected s₁ D s₂) (hqueue : s₁.queue = s.queue)
    (hcur : s₁.currentProcess = s.currentProcess) (hproc : s₁.processes = s.processes)
    (hlevel : s₁.queueLevel = s.queueLevel) (hstate : ∀ r, s₁.state r = s.state r)
    (hpending : ∀ r, (s₁.block r).isPending SIGNAL_KILL = (s.block r).isPending SIGNAL_KILL)
    (hsignalled : ∀ r, (s₁.block r).signalled = (s.block r).signalled) : Selected s D s₂ where
  queue := by rw [← hqueue]; exact h.queue
  currentProcess := h.currentProcess.trans hcur
  processes := h.processes.trans hproc
  queueLevel := h.queueLevel.trans hlevel
  kept r hr := by rw [← hstate, ← hsignalled]; exact h.kept r hr
  dropped r hr := by
    obtain ⟨hl, hs, hst⟩ := h.dropped r hr
    exact ⟨by unfold IsLinked at hl ⊢; rw [← hqueue]; exact hl, hsignalled r ▸ hs,
      hpending r ▸ hst⟩

/-- A drop in front of a search. -/
theorem cons_drop (hsig : (s.block p).signalled = true) (hp : s.IsLinked p)
    (h : Selected ((s.unlink p).handleSignals p) D s₂) : Selected s (p :: D) s₂ := by
  have hpD : p ∉ D := fun hp => by
    have := (h.dropped p hp).1
    exact (isLinked_unlink.mp this).2 rfl
  have hother : ∀ r, r ≠ p → ((s.unlink p).handleSignals p).block r = s.block r := fun r hr =>
    modify_block_of_ne hr
  exact {
    queue := fun q => by
      rw [h.queue]
      show ((s.queue q).filter (· ≠ p)).filter (· ∉ D) = _
      rw [List.filter_filter]
      congr 1
      funext r
      simp [Bool.and_comm, not_or]
    currentProcess := h.currentProcess
    processes := h.processes
    queueLevel := h.queueLevel
    kept := fun r hr => by
      obtain ⟨hrp, hrD⟩ := not_or.mp (fun h' => hr (List.mem_cons.mpr h'))
      obtain ⟨hst, hsig'⟩ := h.kept r hrD
      rw [hother r hrp] at hsig'
      exact ⟨hst.trans (congrArg PCB.state (hother r hrp)), hsig'⟩
    dropped := fun r hr => by
      rcases List.mem_cons.mp hr with rfl | hr
      · refine ⟨hp, hsig, (h.kept r hpD).1.trans ?_⟩
        rw [← PCB.handled_state_of_signalled _ hsig]
        exact congrArg PCB.state modify_block_self
      · obtain ⟨hl, hs, hst⟩ := h.dropped r hr
        obtain ⟨hl, hrp⟩ := isLinked_unlink.mp hl
        rw [hother r hrp] at hs hst
        exact ⟨hl, hs, hst⟩ }

end Selected

end Sched

/-- A list of selection actions is a search that dropped what it dropped. -/
theorem Exec.selected {alg : SchedAlgorithm} {s s₁ : Sched} {as : List Action}
    (h : Exec alg s as s₁) (has : ∀ a ∈ as, a.Selects) : Sched.Selected s (drops as) s₁ := by
  induction as generalizing s with
  | nil =>
      rw [show s₁ = s from h]
      exact .refl s
  | cons a as ih =>
      have hrest := ih h.2 fun b hb => has b (by simp [hb])
      have ha := has a (by simp)
      cases a with
      | drop p => exact .cons_drop h.1.2 h.1.1 hrest
      | edit p e =>
          cases e with
          | clearResume =>
              have hfield : ∀ {β : Type} (φ : PCB → β),
                  φ (Edit.clearResume.apply (s.block p)) = φ (s.block p) →
                  ∀ r, φ ((s.modify p Edit.clearResume.apply).block r) = φ (s.block r) :=
                fun φ hφ => Sched.modify_field φ hφ
              refine hrest.of_blocks rfl rfl rfl rfl (hfield PCB.state rfl)
                (hfield (fun b => b.isPending SIGNAL_KILL) ?_)
                (hfield PCB.signalled (PCB.signalled_clearResume _))
              rw [PCB.isPending, PCB.isPending, Edit.apply, PCB.clearSignal, BitVec.and_assoc]
              rfl
          | _ => exact absurd ha id
      | recharge =>
          have hfield : ∀ {β : Type} (φ : PCB → β), (∀ b c, φ (PCB.withCounter b c) = φ b) →
              ∀ r, φ ((Action.recharge.apply alg s).block r) = φ (s.block r) := by
            intro β φ hφ r
            simp only [Action.apply]
            split
            · exact hφ _ _
            · rfl
          exact hrest.of_blocks rfl rfl rfl rfl (hfield PCB.state fun _ _ => rfl)
            (hfield (fun b => b.isPending SIGNAL_KILL) fun _ _ => rfl)
            (hfield PCB.signalled fun _ _ => rfl)
      | _ => exact absurd ha id

end DemoOS
