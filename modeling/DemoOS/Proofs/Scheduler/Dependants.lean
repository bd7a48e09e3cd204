import DemoOS.Proofs.Scheduler.Epochs

/-!
# `DemoOS.Proofs.Scheduler.Dependants`: who is left behind by a terminated process

A process can wait for the end of another, for room in its ring, or for the console that
it holds. `exit_process` wakes those who wait for its end. A kill wakes nobody, and no path
wakes the senders. `run_released` says which steps leave nobody behind: in a run of such
steps no process depends on a terminated one.

The proof follows the step. Its code changes the dependants of the current process only
(`Sched.Leaving`), and its selection function changes no dependant at all, so that what it
kills has to be free of them before (`PickExec.released`).
-/

set_option autoImplicit false

namespace DemoOS

open Support

namespace Kernel

/-- Nobody depends on the process `z`. -/
structure Released (k : Kernel) (z : PcbPtr) : Prop where
  /-- No process waits for its end, -/
  waiters : ∀ p, k.IsProcess p → (k.pcb p).state = .waitingAnotherProcess →
    (k.pcb p).pidToWait ≠ (k.pcb z).pid
  /-- no process waits for room in its ring, -/
  senders : ∀ p, k.IsProcess p → (k.pcb p).state = .waitingToSendMessage → ∀ body,
    (k.pcb p).resume ≠ .sendMessage z body
  /-- and it does not own the console. -/
  owner : k.uartOwner ≠ some z

/-- The step under the trap `t` leaves nobody behind. -/
structure StepReleases (alg : SchedAlgorithm) (k : Kernel) (t : Trap) : Prop where
  /-- A process that exits has no blocked senders. -/
  exits : t = .exit → ∀ p, k.IsProcess p → (k.pcb p).state = .waitingToSendMessage → ∀ body,
    (k.pcb p).resume ≠ .sendMessage k.currentProcess body
  /-- A process that has to wait for room does so at a process that is alive. -/
  sends : ∀ p, k.SendsToFull t p → (k.pcb p).state ≠ .zombie
  /-- Nobody depends on a process that the selection function kills. -/
  kills : ∀ k₁, k.enter alg t = some (k₁, .schedules) → ∀ p ∈ k₁.removals alg,
    (k₁.pcb p).isPending SIGNAL_KILL = true → k₁.Released p

section Decidable
variable (alg : SchedAlgorithm) (k : Kernel)

theorem forall_isProcess_iff {P : PcbPtr → Prop} :
    (∀ p, k.IsProcess p → P p) ↔ ∀ i < N_PROCESSES, ∀ p ∈ k.processes i, P p := by
  constructor
  · intro h i hi p hp
    exact h p ⟨i, hi, hp⟩
  · rintro h p ⟨i, hi, hp⟩
    exact h i hi p hp

instance (P : PcbPtr → Prop) [DecidablePred P] : Decidable (∀ p, k.IsProcess p → P p) :=
  decidable_of_iff _ (k.forall_isProcess_iff).symm

instance (point : ResumePoint) (z : PcbPtr) :
    Decidable (∀ body, point ≠ .sendMessage z body) :=
  match point with
  | .sendMessage d body => decidable_of_iff (d ≠ z) (by simp)
  | .kernelMain | .idle | .kernelProcess | .user | .receiveMessage | .inputOwner _
  | .inputRead _ _ | .wait _ | .exited => .isTrue (by simp)

instance (z : PcbPtr) : Decidable (k.Released z) :=
  decidable_of_iff ((∀ p, k.IsProcess p → (k.pcb p).state = .waitingAnotherProcess →
      (k.pcb p).pidToWait ≠ (k.pcb z).pid)
    ∧ (∀ p, k.IsProcess p → (k.pcb p).state = .waitingToSendMessage → ∀ body,
      (k.pcb p).resume ≠ .sendMessage z body) ∧ k.uartOwner ≠ some z)
    ⟨fun h => ⟨h.1, h.2.1, h.2.2⟩, fun h => ⟨h.waiters, h.senders, h.owner⟩⟩

instance (t : Trap) : Decidable (t = .exit → ∀ p, k.IsProcess p →
    (k.pcb p).state = .waitingToSendMessage → ∀ body,
      (k.pcb p).resume ≠ .sendMessage k.currentProcess body) := by
  cases t with
  | exit => exact decidable_of_iff _ (forall_prop_of_true rfl).symm
  | _ => exact .isTrue fun h => nomatch h

instance (t : Trap) : Decidable (∀ p, k.SendsToFull t p → (k.pcb p).state ≠ .zombie) := by
  cases t with
  | sendMessage pid body =>
      refine decidable_of_iff (∀ p ∈ k.searchProcess pid, k.RingFull p →
        (k.pcb p).state ≠ .zombie) ?_
      exact ⟨fun h p hp => h p hp.1 hp.2, fun h p hp hfull => h p ⟨hp, hfull⟩⟩
  | resume =>
      cases hpoint : k.current.resume with
      | sendMessage d body =>
          refine decidable_of_iff (k.RingFull d → (k.pcb d).state ≠ .zombie) ?_
          constructor
          · rintro h p ⟨⟨body', hp⟩, hfull⟩
            obtain ⟨rfl, -⟩ := ResumePoint.sendMessage.inj (hpoint.symm.trans hp)
            exact h hfull
          · exact fun h hfull => h d ⟨⟨body, hpoint⟩, hfull⟩
      | _ =>
          refine .isTrue ?_
          rintro p ⟨⟨body', hp⟩, -⟩
          rw [hpoint] at hp
          exact nomatch hp
  | _ => exact .isTrue fun p hp => hp.elim

instance (t : Trap) : Decidable (∀ k₁, k.enter alg t = some (k₁, .schedules) →
    ∀ p ∈ k₁.removals alg, (k₁.pcb p).isPending SIGNAL_KILL = true → k₁.Released p) := by
  cases hr : k.enter alg t with
  | none => exact .isTrue fun k₁ hk => nomatch hk
  | some r =>
      obtain ⟨k₁, control⟩ := r
      cases control with
      | returns => exact .isTrue fun k₂ hk => by simp at hk
      | schedules =>
          refine decidable_of_iff (∀ p ∈ k₁.removals alg,
            (k₁.pcb p).isPending SIGNAL_KILL = true → k₁.Released p) ?_
          simp

instance (t : Trap) : Decidable (k.StepReleases alg t) :=
  decidable_of_iff (_ ∧ _ ∧ _)
    ⟨fun h => ⟨h.1, h.2.1, h.2.2⟩, fun h => ⟨h.exits, h.sends, h.kills⟩⟩

end Decidable

/-- All steps of the run do. -/
def RunReleases (alg : SchedAlgorithm) : Kernel → List Trap → Prop
  | _, [] => True
  | k, t :: ts => k.StepReleases alg t ∧ ∀ k', k.step alg t = some k' → RunReleases alg k' ts

instance decidableRunReleases (alg : SchedAlgorithm) :
    (k : Kernel) → (ts : List Trap) → Decidable (k.RunReleases alg ts)
  | _, [] => .isTrue trivial
  | k, t :: ts =>
      have : Decidable (∀ k', k.step alg t = some k' → RunReleases alg k' ts) :=
        match k.step alg t with
        | none => .isTrue fun k' hk => nomatch hk
        | some k' =>
            have := decidableRunReleases alg k' ts
            decidable_of_iff (RunReleases alg k' ts) (by simp)
      inferInstanceAs (Decidable (_ ∧ _))

end Kernel

/-! ### Dependants in the abstract scheduler -/

namespace Sched

/-- Nobody depends on the process `z`. -/
structure Released (s : Sched) (z : PcbPtr) : Prop where
  waiters : ∀ p, s.Registered p → s.state p = .waitingAnotherProcess →
    (s.block p).pidToWait ≠ (s.block z).pid
  senders : ∀ p, s.Registered p → s.state p = .waitingToSendMessage → ∀ body,
    (s.block p).resume ≠ .sendMessage z body
  owner : s.uartOwner ≠ some z

/-- Nobody depends on a terminated process. -/
def AllReleased (s : Sched) : Prop :=
  ∀ z, s.Registered z → s.state z = .zombie → s.Released z

end Sched

theorem Refines.released_iff {k : Kernel} {s : Sched} (h : Refines k s) {z : PcbPtr} :
    k.Released z ↔ s.Released z := by
  have hresume : ∀ p, (k.pcb p).resume = (s.block p).resume := fun p => by
    rw [h.block_eq]
    rfl
  have hwait : ∀ p, (k.pcb p).pidToWait = (s.block p).pidToWait := fun p => by
    rw [h.block_eq]
    rfl
  have hpid : ∀ p, (k.pcb p).pid = (s.block p).pid := fun p => by
    rw [h.block_eq]
    rfl
  constructor
  · intro hk
    refine ⟨fun p hp hst => ?_, fun p hp hst body => ?_, h.uartOwner ▸ hk.owner⟩
    · rw [← hwait, ← hpid]
      exact hk.waiters p (h.isProcess_iff.mpr hp) ((h.state_eq p).trans hst)
    · rw [← hresume]
      exact hk.senders p (h.isProcess_iff.mpr hp) ((h.state_eq p).trans hst) body
  · intro hs
    refine ⟨fun p hp hst => ?_, fun p hp hst body => ?_, h.uartOwner ▸ hs.owner⟩
    · rw [hwait, hpid]
      exact hs.waiters p (h.isProcess_iff.mp hp) ((h.state_eq p).symm.trans hst)
    · rw [hresume]
      exact hs.senders p (h.isProcess_iff.mp hp) ((h.state_eq p).symm.trans hst) body

/-! ### The code of a trap -/

/-- The states in which a process depends on others, or has terminated. -/
def ProcessState.isBound : ProcessState → Bool
  | .waitingAnotherProcess | .waitingToSendMessage | .zombie => true
  | _ => false

/-- The state `t` inside the code of a trap that began in `s` and calls the scheduler in
`s₁`, as far as dependants go: those of other processes are what they were, and the current
process has a reason for the state in which it leaves the CPU. -/
structure Sched.Leaving (dep : Departure) (s s₁ t : Sched) : Prop where
  current : t.currentProcess = s.currentProcess
  others : ∀ p, t.Registered p → p ≠ s.currentProcess → (t.state p).isBound = true →
    s.Registered p ∧ s.state p = t.state p ∧ ((t.state p).isWaiting = true →
      (t.block p).resume = (s.block p).resume ∧ (t.block p).pidToWait = (s.block p).pidToWait)
  pids : ∀ p, s.Registered p → t.Registered p ∧ (t.block p).pid = (s.block p).pid
  owner : ∀ p, p ≠ s.currentProcess → t.uartOwner = some p → s.uartOwner = some p
  target : t.state s.currentProcess = .waitingAnotherProcess → ∀ d, t.Registered d →
    ((t.block d).pid : Int) = (t.block s.currentProcess).pidToWait → t.state d ≠ .zombie
  sending : t.state s.currentProcess = .waitingToSendMessage → ∃ p body,
    (s₁.block s₁.currentProcess).resume = .sendMessage p body ∧ dep.sends p
  exited : t.state s.currentProcess = .zombie → dep.exits s₁

namespace Sched.Leaving

variable {alg : SchedAlgorithm} {dep : Departure} {s s₁ t : Sched} {p : PcbPtr}

/-- The start of the code. -/
theorem refl (hrun : (s.state s.currentProcess).isBound = false) : Leaving dep s s₁ s where
  current := rfl
  others p hp _ _ := ⟨hp, rfl, fun _ => ⟨rfl, rfl⟩⟩
  pids p hp := ⟨hp, rfl⟩
  owner _ _ ho := ho
  target hst := by rw [hst] at hrun; exact nomatch hrun
  sending hst := by rw [hst] at hrun; exact nomatch hrun
  exited hst := by rw [hst] at hrun; exact nomatch hrun

/-- A change of one block that keeps its state and its pid, and where a blocked process
waits. -/
theorem modify (h : Leaving dep s s₁ t) (hinv : t.Inv alg) {f : PCB → PCB}
    (hf : t.Registered p → (f (t.block p)).state = (t.block p).state
      ∧ (f (t.block p)).pid = (t.block p).pid
      ∧ ((t.state p).isWaiting = true → (f (t.block p)).resume = (t.block p).resume
        ∧ (f (t.block p)).pidToWait = (t.block p).pidToWait)) :
    Leaving dep s s₁ (t.modify p f) := by
  have hsame : ∀ r, t.Registered r → (t.modify p f).state r = t.state r
      ∧ ((t.modify p f).block r).pid = (t.block r).pid
      ∧ ((t.state r).isWaiting = true →
        ((t.modify p f).block r).resume = (t.block r).resume
        ∧ ((t.modify p f).block r).pidToWait = (t.block r).pidToWait) := by
    intro r hr
    by_cases hrp : r = p
    · subst hrp
      rw [Sched.state, modify_block_self]
      exact hf hr
    · rw [Sched.state, modify_block_of_ne hrp]
      exact ⟨rfl, rfl, fun _ => ⟨rfl, rfl⟩⟩
  have hcur : t.Registered s.currentProcess := h.current ▸ hinv.cpu.current
  have hst := fun r hr => (hsame r hr).1
  refine ⟨h.current, fun r hr hne hb => ?_, fun r hr => ?_, h.owner, fun hw d hd hdp => ?_,
    fun hw => ?_, fun hz => ?_⟩
  · rw [hst r hr] at hb ⊢
    obtain ⟨hr', hst', hwaits⟩ := h.others r hr hne hb
    refine ⟨hr', hst', fun hw => ?_⟩
    obtain ⟨hresume, hwait⟩ := (hsame r hr).2.2 hw
    rw [hresume, hwait]
    exact hwaits hw
  · obtain ⟨hr', hrp⟩ := h.pids r hr
    exact ⟨hr', (hsame r hr').2.1.trans hrp⟩
  · rw [hst _ hcur] at hw
    rw [hst d hd]
    rw [(hsame d hd).2.1, ((hsame _ hcur).2.2 (by rw [hw]; rfl)).2] at hdp
    exact h.target hw d hd hdp
  · exact h.sending (by rwa [hst _ hcur] at hw)
  · exact h.exited (by rwa [hst _ hcur] at hz)

/-- A change that leaves the blocks alone. -/
theorem congr {t' : Sched} (h : Leaving dep s s₁ t) (hcur : t'.currentProcess = t.currentProcess)
    (hblock : t'.block = t.block) (hprocesses : t'.processes = t.processes)
    (howner : ∀ p, p ≠ s.currentProcess → t'.uartOwner = some p → t.uartOwner = some p) :
    Leaving dep s s₁ t' := by
  have hreg : ∀ p, t'.Registered p ↔ t.Registered p := fun p => registered_congr hprocesses
  have hst : ∀ p, t'.state p = t.state p := fun p => congrArg (fun f => PCB.state (f p)) hblock
  refine ⟨hcur.trans h.current, ?_, ?_, fun p hp ho => h.owner p hp (howner p hp ho), ?_, ?_, ?_⟩
  · intro p hp hne hb
    rw [hst] at hb ⊢
    rw [hblock]
    exact h.others p ((hreg p).mp hp) hne hb
  · intro p hp
    rw [hblock, hreg]
    exact h.pids p hp
  · intro hw d hd hdp
    rw [hst] at hw ⊢
    rw [hblock] at hdp
    exact h.target hw d ((hreg d).mp hd) hdp
  · intro hw
    exact h.sending (by rwa [hst] at hw)
  · intro hz
    exact h.exited (by rwa [hst] at hz)

/-- A process becomes ready. It was blocked, or it is new in the table. -/
theorem enqueue (h : Leaving dep s s₁ t) (p : PcbPtr) :
    Leaving dep s s₁ (t.enqueue alg p) := by
  have hst : ∀ r, (t.enqueue alg p).state r = if r = p then .ready else t.state r := fun r =>
    state_enqueue r
  have hreg : ∀ r, (t.enqueue alg p).Registered r ↔ t.Registered r := fun r =>
    registered_congr rfl
  have hfield : ∀ {β : Type} (φ : PCB → β), (∀ b st, φ (PCB.withState b st) = φ b) → ∀ r,
      φ ((t.enqueue alg p).block r) = φ (t.block r) := fun φ hφ => enqueue_field alg φ hφ
  have hresume := hfield PCB.resume fun _ _ => rfl
  have hwait := hfield PCB.pidToWait fun _ _ => rfl
  have hpid := hfield PCB.pid fun _ _ => rfl
  have hkept : ∀ {r st}, st ≠ .ready → (t.enqueue alg p).state r = st → t.state r = st := by
    intro r st hne hr
    rw [hst] at hr
    split at hr
    · exact absurd hr.symm hne
    · exact hr
  refine ⟨h.current, fun r hr hne hb => ?_, fun r hr => ?_, h.owner, fun hw d hd hdp hz => ?_,
    fun hw => h.sending (hkept (by decide) hw), fun hz => h.exited (hkept (by decide) hz)⟩
  · have hsame : (t.enqueue alg p).state r = t.state r := by
      refine (hkept ?_ rfl).symm
      intro hready
      rw [hready] at hb
      exact nomatch hb
    rw [hresume, hwait]
    rw [hsame] at hb ⊢
    exact h.others r ((hreg r).mp hr) hne hb
  · rw [hpid, hreg]
    exact h.pids r hr
  · rw [hpid, hwait] at hdp
    exact h.target (hkept (by decide) hw) d ((hreg d).mp hd) hdp (hkept (by decide) hz)

/-- The current process blocks or exits, for the reason that the code has. -/
theorem leave (h : Leaving dep s s₁ t) {st : ProcessState} (hg : (Action.leave st).Guard alg t)
    (hallows : dep.Allows s₁ (.leave st)) :
    Leaving dep s s₁ (t.setState t.currentProcess st) := by
  have hcur : t.currentProcess = s.currentProcess := h.current
  have hself : (t.setState t.currentProcess st).state s.currentProcess = st := by
    rw [← hcur]
    exact congrArg PCB.state (modify_block_self (f := fun b => b.withState st))
  have hother : ∀ r, r ≠ s.currentProcess →
      (t.setState t.currentProcess st).block r = t.block r := by
    intro r hr
    rw [← hcur] at hr
    exact modify_block_of_ne hr
  have hfield : ∀ {β : Type} (φ : PCB → β), (∀ b st, φ (PCB.withState b st) = φ b) → ∀ r,
      φ ((t.setState t.currentProcess st).block r) = φ (t.block r) := fun φ hφ =>
    setState_field φ hφ st
  refine ⟨hcur, fun r hr hne hb => ?_, fun r hr => ?_, h.owner, fun hw d hd hdp => ?_,
    fun hw => ?_, fun hz => ?_⟩
  · have hst : (t.setState t.currentProcess st).state r = t.state r :=
      congrArg PCB.state (hother r hne)
    rw [hst] at hb ⊢
    rw [hother r hne]
    exact h.others r hr hne hb
  · rw [hfield PCB.pid fun _ _ => rfl]
    exact h.pids r hr
  · rw [hself] at hw
    rw [hfield PCB.pid fun _ _ => rfl, hfield PCB.pidToWait fun _ _ => rfl, ← hcur] at hdp
    have halive := hg.2.2.2.2 hw d hd hdp
    by_cases hd' : d = s.currentProcess
    · rw [hd', hself, hw]
      decide
    · rw [Sched.state, hother d hd']
      exact halive
  · obtain rfl : st = .waitingToSendMessage := hself.symm.trans hw
    exact hallows
  · obtain rfl : st = .zombie := hself.symm.trans hz
    exact hallows

/-- A new process is ready. -/
theorem addToTable (h : Leaving dep s s₁ t) (hinv : t.Inv alg) {b : PCB} {level : Nat}
    (hp : ¬ t.Registered p) (hb : b.state = .ready) :
    Leaving dep s s₁ (t.addToTable p b level) := by
  have hother : ∀ r, t.Registered r → (t.addToTable p b level).block r = t.block r := by
    intro r hr
    have hrp : r ≠ p := by
      rintro rfl
      exact hp hr
    exact Function.update_of_ne hrp _ _
  have hnew : (t.addToTable p b level).state p = .ready := by
    show (Function.update t.block p b p).state = .ready
    rw [Function.update_self, hb]
  have hgrow : ∀ r, t.Registered r → (t.addToTable p b level).Registered r := by
    rintro r ⟨i, hi, hslot⟩
    refine ⟨i, hi, ?_⟩
    exact (Function.update_of_ne (Nat.ne_of_lt (hinv.table.slot hslot).1) _ _).trans hslot
  have hold : ∀ r, (t.addToTable p b level).Registered r → r = p ∨ t.Registered r := by
    rintro r ⟨i, hi, hslot⟩
    change Function.update t.processes t.nProcesses (some p) i = some r at hslot
    by_cases hin : i = t.nProcesses
    · rw [hin, Function.update_self] at hslot
      exact Or.inl (Option.some.inj hslot).symm
    · rw [Function.update_of_ne hin] at hslot
      exact Or.inr ⟨i, hi, hslot⟩
  have hcur : t.Registered s.currentProcess := h.current ▸ hinv.cpu.current
  have hst : ∀ r, t.Registered r → (t.addToTable p b level).state r = t.state r := fun r hr =>
    congrArg PCB.state (hother r hr)
  refine ⟨h.current, fun r hr hne hbound => ?_, fun r hr => ?_, h.owner, fun hw d hd hdp => ?_,
    fun hw => ?_, fun hz => ?_⟩
  · rcases hold r hr with rfl | hr'
    · rw [hnew] at hbound
      exact nomatch hbound
    · rw [hst r hr'] at hbound ⊢
      rw [hother r hr']
      exact h.others r hr' hne hbound
  · obtain ⟨hr', hpid⟩ := h.pids r hr
    rw [hother r hr']
    exact ⟨hgrow r hr', hpid⟩
  · rcases hold d hd with rfl | hd'
    · rw [hnew]
      decide
    · rw [hst _ hcur] at hw
      rw [hother d hd', hother _ hcur] at hdp
      rw [hst d hd']
      exact h.target hw d hd' hdp
  · exact h.sending (by rwa [hst _ hcur] at hw)
  · exact h.exited (by rwa [hst _ hcur] at hz)

/-- Every action of the code of a trap. -/
theorem apply (h : Leaving dep s s₁ t) (hinv : t.Inv alg) {a : Action} (hg : a.Guard alg t)
    (ha : a.IsCode) (hallows : dep.Allows s₁ a) : Leaving dep s s₁ (a.apply alg t) := by
  cases a with
  | edit p e =>
      refine h.modify hinv fun _ => ⟨edit_state e _, edit_pid e _, fun hw => ?_⟩
      cases e with
      | touch f hf => exact ⟨core_resume (hf _), core_pidToWait (hf _)⟩
      | suspendAt point =>
          rw [hg.2.1] at hw
          exact nomatch hw
      | waitFor pid =>
          rw [hg.2] at hw
          exact nomatch hw
      | clearWait =>
          rw [show t.state p = .ready from hg] at hw
          exact nomatch hw
      | _ => exact ⟨rfl, rfl⟩
  | leave st => exact h.leave hg hallows
  | wake p => exact h.enqueue p
  | setLevel | resetLevels | note | promote => exact h.congr rfl rfl rfl fun _ _ ho => ho
  | own owner =>
      refine h.congr rfl rfl rfl fun p hp ho => ?_
      have ho : owner = some p := ho
      rcases hg with hg | ⟨hg, -⟩
      · rw [ho] at hg
        exact nomatch hg
      · rw [ho, h.current] at hg
        exact absurd (Option.some.inj hg) hp
  | clear p => exact h.modify hinv (f := fun _ => .zeroed) fun hp => absurd hp hg
  | register p cloneFlags mm =>
      exact Leaving.enqueue (h.addToTable hinv hg.1 rfl) p
  | requeue | drop | recharge | dispatch => exact absurd ha id

/-- Where the code ends, nobody depends on a terminated process. -/
theorem allReleased (h : Leaving dep s s₁ s₁) (hall : s.AllReleased)
    (hsends : ∀ p, dep.sends p → s.state p ≠ .zombie)
    (hexits : dep.exits s₁ → s₁.ExitReleased ∧ ∀ p, s.Registered p →
      s.state p = .waitingToSendMessage → ∀ body,
        (s.block p).resume ≠ .sendMessage s.currentProcess body) : s₁.AllReleased := by
  intro z hz hzombie
  by_cases hzc : z = s.currentProcess
  · -- The current process has exited.
    subst hzc
    obtain ⟨hreleased, hsenders⟩ := hexits (h.exited hzombie)
    refine ⟨fun p hp hst => ?_, fun p hp hst body => ?_, ?_⟩
    · rw [← h.current]
      exact hreleased.waiting p hp hst
    · have hpc : p ≠ s.currentProcess := by
        rintro rfl
        rw [hzombie] at hst
        exact nomatch hst
      obtain ⟨hp', hst', hlinks⟩ := h.others p hp hpc (by rw [hst]; rfl)
      rw [(hlinks (by rw [hst]; rfl)).1]
      exact hsenders p hp' (hst'.trans hst) body
    · rw [← h.current]
      exact hreleased.owner
  · obtain ⟨hz', hzombie', -⟩ := h.others z hz hzc (by rw [hzombie]; rfl)
    rw [hzombie] at hzombie'
    have hreleased := hall z hz' hzombie'
    refine ⟨fun p hp hst => ?_, fun p hp hst body => ?_, fun ho => ?_⟩
    · rw [(h.pids z hz').2]
      by_cases hpc : p = s.currentProcess
      · subst hpc
        intro hw
        refine h.target hst z hz ?_ hzombie
        rw [(h.pids z hz').2, hw]
      · obtain ⟨hp', hst', hlinks⟩ := h.others p hp hpc (by rw [hst]; rfl)
        rw [(hlinks (by rw [hst]; rfl)).2]
        exact hreleased.waiters p hp' (hst'.trans hst)
    · by_cases hpc : p = s.currentProcess
      · subst hpc
        intro hresume
        obtain ⟨r, body', hresume', hr⟩ := h.sending hst
        rw [h.current, hresume] at hresume'
        obtain ⟨rfl, -⟩ := ResumePoint.sendMessage.inj hresume'
        exact hsends z hr hzombie'
      · obtain ⟨hp', hst', hlinks⟩ := h.others p hp hpc (by rw [hst]; rfl)
        rw [(hlinks (by rw [hst]; rfl)).1]
        exact hreleased.senders p hp' (hst'.trans hst) body
    · exact hreleased.owner (h.owner z hzc ho)

end Sched.Leaving

/-! ### Selections -/

section Picks
variable {alg : SchedAlgorithm} {dep : Departure} {s s' s₁ s₂ s₃ : Sched} {as : List Action}
  {next : Option PcbPtr} {quantum : Option Int}

/-- A selection leaves nobody behind if nobody depends on those it kills. -/
theorem PickExec.released (h : PickExec alg s₁ as s₂ next quantum s₃) (hinv : s₁.Inv alg)
    (hall : s₁.AllReleased)
    (hkills : ∀ p ∈ drops as, (s₁.block p).isPending SIGNAL_KILL = true → s₁.Released p) :
    s₃.AllReleased := by
  have hpick : ∀ a ∈ pickActions s₁ as next quantum, a.IsPick := isPick_pickActions h.selects
  obtain ⟨hid, hproc⟩ := h.all.identity hpick
  have howner : s₃.uartOwner = s₁.uartOwner := h.all.uartOwner fun a ha owner he => by
    rw [he] at ha
    exact hpick _ ha
  have hpid : ∀ r, (s₃.block r).pid = (s₁.block r).pid := fun r => congrArg (fun x => x.1) (hid r)
  have hresume : ∀ r, (s₃.block r).resume = (s₁.block r).resume := fun r =>
    congrArg (fun x => x.2.2.1) (hid r)
  have hwait : ∀ r, (s₃.block r).pidToWait = (s₁.block r).pidToWait := fun r =>
    congrArg (fun x => x.2.2.2) (hid r)
  -- A process that is blocked now was blocked before.
  have hblocked : ∀ {p st}, st.isOff = true → st ≠ .zombie → st ≠ .stopped → s₃.state p = st →
      s₁.state p = st := by
    intro p st hoff hz hs hst
    by_cases hp : p ∈ drops as
    · have hdrop := (h.state_of_removed hinv hp).2
      rw [hst] at hdrop
      split at hdrop
      · exact absurd hdrop hz
      · exact absurd hdrop hs
    · exact (h.state_of_kept hinv hp hoff).mp hst
  intro z hz hzombie
  have hz' : s₁.Registered z := (Sched.registered_congr hproc).mp hz
  have hreleased : s₁.Released z := by
    by_cases hd : z ∈ drops as
    · refine hkills z hd ?_
      have hdrop := (h.state_of_removed hinv hd).2
      rw [hzombie] at hdrop
      by_contra hkill
      rw [if_neg hkill] at hdrop
      exact nomatch hdrop
    · exact hall z hz' ((h.state_of_kept hinv hd rfl).mp hzombie)
  refine ⟨fun p hp hst => ?_, fun p hp hst body => ?_, by rw [howner]; exact hreleased.owner⟩
  · rw [hwait, hpid]
    exact hreleased.waiters p ((Sched.registered_congr hproc).mp hp)
      (hblocked rfl (by decide) (by decide) hst)
  · rw [hresume]
    exact hreleased.senders p ((Sched.registered_congr hproc).mp hp)
      (hblocked rfl (by decide) (by decide) hst) body

/-- The code of a trap. -/
theorem Exec.leaving (h : Exec alg s as s₁) (hinv : s.Inv alg)
    (hbound : (s.state s.currentProcess).isBound = false)
    (has : ∀ a ∈ as, a.IsCode ∧ dep.Allows s₁ a) : Sched.Leaving dep s s₁ s₁ := by
  have hboth := h.invariant (A := fun a => a.IsCode ∧ dep.Allows s₁ a)
    (P := fun t => t.Inv alg ∧ Sched.Leaving dep s s₁ t)
    (fun t a ha hg ⟨hi, ht⟩ => ⟨hi.apply hg, ht.apply hi hg ha.1 ha.2⟩) has
    ⟨hinv, .refl hbound⟩
  exact hboth.2

end Picks

/-! ### Runs -/

section Runs
variable {alg : SchedAlgorithm} {k k' : Kernel} {s : Sched}

/-- Between two steps the current process is neither blocked nor terminated. -/
theorem Settled.not_bound (h : Settled alg k s) : (s.state s.currentProcess).isBound = false := by
  by_cases hinit : s.currentProcess = .initProcess
  · rw [hinit]
    rcases h.inv.cpu.initState with hst | hst | hst <;> rw [hst] <;> rfl
  · rw [h.running hinit]
    rfl

/-- One step. -/
theorem step_released (h : Settled alg k s) (hall : s.AllReleased) {t : Trap}
    (hreleases : k.StepReleases alg t) (hstep : k.step alg t = some k') :
    ∃ s', Settled alg k' s' ∧ s'.AllReleased := by
  unfold Kernel.step at hstep
  cases hr : k.enter alg t with
  | none =>
      rw [hr] at hstep
      exact nomatch hstep
  | some r =>
      obtain ⟨k₁, control⟩ := r
      obtain ⟨as, s₁, hcode⟩ := enter_code h.refines h.inv h.running hr
      rw [hr] at hstep
      cases control with
      | returns =>
          obtain rfl := Option.some.inj hstep
          have hstays := hcode.returns rfl
          obtain ⟨hinv, hrun, -⟩ := hcode.exec.stays hstays h.inv h.running
          have hleaving : Sched.Leaving ⟨fun _ => False, fun _ => False⟩ s s₁ s₁ :=
            hcode.exec.leaving h.inv h.not_bound fun a ha => ⟨(hstays a ha).isCode, (hstays a ha).allows _ _⟩
          exact ⟨s₁, ⟨hcode.refines, hinv, hrun⟩,
            hleaving.allReleased hall (fun _ hp => hp.elim) fun hp => hp.elim⟩
      | schedules =>
          obtain ⟨hcodes, -⟩ := hcode.schedules rfl
          have hinv₁ := h.inv.exec hcode.exec
          obtain ⟨k'', bs, s₂, next, quantum, s₃, hpick, hexec, hsettled, hdrops⟩ :=
            pickNext_exec alg hcode.refines hinv₁
          obtain rfl : k'' = k' := Option.some.inj (hpick.symm.trans hstep)
          have hleaving := hcode.exec.leaving h.inv h.not_bound hcodes
          have hall₁ : s₁.AllReleased := by
            refine hleaving.allReleased hall (fun p hp => ?_) fun hexits => ⟨hexits.2, ?_⟩
            · rw [← h.refines.state_eq]
              exact hreleases.sends p hp
            · intro p hp hst body
              have hsenders := hreleases.exits hexits.1 p (h.refines.isProcess_iff.mpr hp)
                ((h.refines.state_eq p).trans hst) body
              rw [h.refines.currentProcess] at hsenders
              rw [h.refines.block_eq]
              exact hsenders
          refine ⟨s₃, hsettled, hexec.released hinv₁ hall₁ fun p hp hkill => ?_⟩
          rw [hdrops] at hp
          rw [hcode.refines.block_eq] at hkill
          exact hcode.refines.released_iff.mp (hreleases.kills k₁ hr p hp hkill)

end Runs

end DemoOS
