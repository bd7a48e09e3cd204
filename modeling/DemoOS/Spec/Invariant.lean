import DemoOS.Spec.Sched
import Mathlib.Data.List.Nodup
import Mathlib.Data.List.Perm.Subperm

/-!
# `DemoOS.Spec.Invariant`: the invariant of the abstract scheduler

`Inv` has four parts: the process table is a dense array of distinct processes,
the queues hold exactly the ready processes, at most the current process is
running, and a process that is switched out goes on at a point that makes sense.
`Inv.apply` says that every action keeps them, and `Inv.exec` that every list of
actions does.

Between two kernel steps the current process is moreover marked as running
(`Sched.Running`). Inside a step it is not: it has blocked or exited, or a
selection function has put it back in a queue.
-/

set_option autoImplicit false

namespace DemoOS

namespace Sched

variable (alg : SchedAlgorithm)

/-- The table is a dense array of distinct processes, and slot 0 is init. -/
structure Table (s : Sched) : Prop where
  slot : ∀ {i p}, s.processes i = some p → i < s.nProcesses ∧ (s.block p).pid = i
  dense : ∀ i < s.nProcesses, ∃ p, s.processes i = some p
  bound : s.nProcesses ≤ N_PROCESSES
  first : s.processes 0 = some .initProcess

/-- The queues of the algorithm hold exactly the ready processes. -/
structure Queues (s : Sched) : Prop where
  member : ∀ {q p}, p ∈ s.queue q → s.Registered p ∧ p ≠ .initProcess ∧ alg.Uses q
  nodup : ∀ q, (s.queue q).Nodup
  disjoint : ∀ {q q' p}, p ∈ s.queue q → p ∈ s.queue q' → q = q'
  linked : ∀ {p}, s.Registered p → p ≠ .initProcess → (s.state p = .ready ↔ s.IsLinked p)
  level : ∀ i, s.queueLevel i < ML_MAX_LEVELS

/-- Only the current process is running, and init is never blocked. -/
structure Cpu (s : Sched) : Prop where
  current : s.Registered s.currentProcess
  running : ∀ {p}, s.Registered p → s.state p = .running → p = s.currentProcess
  initState : s.state .initProcess = .unset ∨ s.state .initProcess = .running
    ∨ s.state .initProcess = .ready

/-- Parameters and resume points make sense. -/
structure Points (s : Sched) : Prop where
  priority : ∀ {p}, s.Registered p → 1 ≤ (s.block p).priority
  init : (s.block .initProcess).resume = .kernelMain ∨ (s.block .initProcess).resume = .idle
  destination : ∀ {p d body}, s.Registered p → (s.block p).resume = .sendMessage d body →
    s.Registered d
  blocked : ∀ {p}, s.Registered p → (s.block p).Blocked
  owner : ∀ {p}, s.uartOwner = some p → s.Registered p ∧ (s.block p).resume.isInputRead = true

/-- The invariant of the abstract scheduler. -/
structure Inv (s : Sched) : Prop where
  table : s.Table
  queues : s.Queues alg
  cpu : s.Cpu
  points : s.Points

section Preservation
variable {alg} {s s' : Sched} {p : PcbPtr}

/-! ### The table -/

theorem registered_congr (h : s'.processes = s.processes) : s'.Registered p ↔ s.Registered p := by
  unfold Registered; rw [h]

namespace Table

theorem registered_init (h : s.Table) : s.Registered .initProcess :=
  ⟨0, by decide, h.first⟩

/-- A registered process sits in the slot of its pid. -/
theorem slot_pid (h : s.Table) (hp : s.Registered p) :
    (s.block p).pid < s.nProcesses ∧ s.processes (s.block p).pid = some p := by
  obtain ⟨i, -, hi⟩ := hp
  obtain ⟨hlt, hpid⟩ := h.slot hi
  rw [hpid]
  exact ⟨hlt, hi⟩

/-- Distinct processes have distinct pids. -/
theorem pid_injective (h : s.Table) {r : PcbPtr} (hp : s.Registered p) (hr : s.Registered r)
    (hpid : (s.block p).pid = (s.block r).pid) : p = r := by
  have h₁ := (h.slot_pid hp).2
  rw [hpid, (h.slot_pid hr).2] at h₁
  exact (Option.some.inj h₁).symm

theorem congr (h : s.Table) (hprocesses : s'.processes = s.processes)
    (hn : s'.nProcesses = s.nProcesses)
    (hpid : ∀ p, s.Registered p → (s'.block p).pid = (s.block p).pid) : s'.Table where
  slot {i p} hi := by
    rw [hprocesses] at hi
    obtain ⟨hlt, hp⟩ := h.slot hi
    have hreg : s.Registered p := ⟨i, Nat.lt_of_lt_of_le hlt h.bound, hi⟩
    rw [hn, hpid p hreg]
    exact ⟨hlt, hp⟩
  dense := by rw [hn, hprocesses]; exact h.dense
  bound := by rw [hn]; exact h.bound
  first := by rw [hprocesses]; exact h.first

/-- Distinct registered processes other than init fit in 63 places. -/
theorem length_le (h : s.Table) {l : List PcbPtr} (hl : l.Nodup)
    (hmem : ∀ p ∈ l, s.Registered p ∧ p ≠ .initProcess) : l.length < N_PROCESSES := by
  have hinj : ∀ x ∈ l, ∀ y ∈ l, (s.block x).pid = (s.block y).pid → x = y := fun x hx y hy =>
    h.pid_injective (hmem x hx).1 (hmem y hy).1
  have hnodup : (l.map fun p => (s.block p).pid).Nodup := hl.map_on hinj
  have hsub : (l.map fun p => (s.block p).pid) ⊆ List.range' 1 (N_PROCESSES - 1) := by
    intro i hi
    obtain ⟨p, hp, rfl⟩ := List.mem_map.mp hi
    have hslot := h.slot_pid (hmem p hp).1
    have hne : (s.block p).pid ≠ 0 := fun h0 => by
      rw [h0, h.first] at hslot
      exact (hmem p hp).2 (Option.some.inj hslot.2).symm
    have := h.bound
    simp only [List.mem_range'_1]
    omega
  have hle := (hnodup.subperm hsub).length_le
  simp only [List.length_map, List.length_range'] at hle
  have : N_PROCESSES = 64 := rfl
  omega

end Table

theorem Inv.length_lt (h : s.Inv alg) (q : QueueId) : (s.queue q).length < N_PROCESSES :=
  h.table.length_le (h.queues.nodup q) fun _ hp =>
    ⟨(h.queues.member hp).1, (h.queues.member hp).2.1⟩

/-! ### Blocks and levels -/

theorem state_modify {f : PCB → PCB} {r : PcbPtr}
    (hf : (f (s.block p)).state = (s.block p).state) : (s.modify p f).state r = s.state r := by
  unfold state
  rw [modify_block]
  by_cases h : r = p
  · rw [if_pos h, hf, h]
  · rw [if_neg h]

/-- A change of one block that keeps its state, its pid and what `Points` says. -/
theorem Inv.modify (h : s.Inv alg) {f : PCB → PCB}
    (hstate : (f (s.block p)).state = (s.block p).state)
    (hpid : (f (s.block p)).pid = (s.block p).pid)
    (hprio : s.Registered p → 1 ≤ (f (s.block p)).priority)
    (hinit : p = .initProcess →
      (f (s.block p)).resume = .kernelMain ∨ (f (s.block p)).resume = .idle)
    (hdest : ∀ d body, s.Registered p → (f (s.block p)).resume = .sendMessage d body →
      s.Registered d)
    (hblocked : s.Registered p → (f (s.block p)).Blocked)
    (howner : s.uartOwner = some p → (f (s.block p)).resume.isInputRead = true) :
    (s.modify p f).Inv alg where
  table := h.table.congr rfl rfl fun r _ => by
    rw [modify_block]
    by_cases hr : r = p
    · rw [if_pos hr, hpid, hr]
    · rw [if_neg hr]
  queues := {
    member := h.queues.member
    nodup := h.queues.nodup
    disjoint := h.queues.disjoint
    linked := fun {r} hr hne => by
      rw [state_modify hstate]
      exact h.queues.linked hr hne
    level := h.queues.level }
  cpu := {
    current := h.cpu.current
    running := fun {r} hr hst => by
      rw [state_modify hstate] at hst
      exact h.cpu.running hr hst
    initState := by
      rw [state_modify hstate]
      exact h.cpu.initState }
  points := {
    priority := fun {r} hr => by
      rw [modify_block]
      split
      · next hrp => subst hrp; exact hprio hr
      · exact h.points.priority hr
    init := by
      rw [modify_block]
      split
      · next hp => exact hp ▸ hinit hp.symm
      · exact h.points.init
    destination := fun {r d body} hr hres => by
      rw [modify_block] at hres
      split at hres
      · next hrp => subst hrp; exact hdest d body hr hres
      · exact h.points.destination hr hres
    blocked := fun {r} hr => by
      rw [modify_block]
      split
      · next hrp => subst hrp; exact hblocked hr
      · exact h.points.blocked hr
    owner := fun {r} hr => by
      refine ⟨(h.points.owner hr).1, ?_⟩
      rw [modify_block]
      split
      · next hrp => subst hrp; exact howner hr
      · exact (h.points.owner hr).2 }

/-- A change outside the table, the queues, the blocks and the CPU. -/
theorem Inv.congr (h : s.Inv alg) (hblock : s'.block = s.block) (hqueue : s'.queue = s.queue)
    (hcur : s'.currentProcess = s.currentProcess) (hproc : s'.processes = s.processes)
    (hn : s'.nProcesses = s.nProcesses) (hlevel : ∀ i, s'.queueLevel i < ML_MAX_LEVELS)
    (howner : ∀ p, s'.uartOwner = some p →
      s.Registered p ∧ (s.block p).resume.isInputRead = true) :
    s'.Inv alg := by
  obtain ⟨block, queue, cur, processes, n, level, owner, trace⟩ := s'
  simp only at hblock hqueue hcur hproc hn hlevel howner
  subst hblock hqueue hcur hproc hn
  exact ⟨⟨h.table.slot, h.table.dense, h.table.bound, h.table.first⟩,
    ⟨h.queues.member, h.queues.nodup, h.queues.disjoint, h.queues.linked, hlevel⟩,
    ⟨h.cpu.current, h.cpu.running, h.cpu.initState⟩,
    ⟨h.points.priority, h.points.init, h.points.destination, h.points.blocked,
      fun hp => howner _ hp⟩⟩

/-! ### One block -/

section Core
variable {b b' : PCB} (h : b'.core = b.core)
include h

theorem core_state : b'.state = b.state := by
  have := congrArg PCB.state h
  exact this

theorem core_pid : b'.pid = b.pid := by
  have := congrArg PCB.pid h
  exact this

theorem core_priority : b'.priority = b.priority := by
  have := congrArg PCB.priority h
  exact this

theorem core_counter : b'.counter = b.counter := by
  have := congrArg PCB.counter h
  exact this

theorem core_resume : b'.resume = b.resume := by
  have := congrArg PCB.resume h
  exact this

theorem core_pidToWait : b'.pidToWait = b.pidToWait := by
  have := congrArg PCB.pidToWait h
  exact this

theorem core_pendingSignals : b'.pendingSignals = b.pendingSignals := by
  have := congrArg PCB.pendingSignals h
  exact this

theorem core_estBurst : b'.estBurst = b.estBurst := by
  have := congrArg PCB.estBurst h
  exact this

theorem core_preemptDisabled : b'.preemptDisabled = b.preemptDisabled := by
  have := congrArg PCB.preemptDisabled h
  exact this

end Core

@[simp] theorem edit_state (e : Edit) (b : PCB) : (e.apply b).state = b.state := by
  cases e with
  | touch f keeps => exact core_state (keeps b)
  | _ => rfl

@[simp] theorem edit_pid (e : Edit) (b : PCB) : (e.apply b).pid = b.pid := by
  cases e with
  | touch f keeps => exact core_pid (keeps b)
  | _ => rfl

theorem Inv.edit (h : s.Inv alg) {e : Edit} (hg : e.Guard s p) :
    (s.modify p e.apply).Inv alg := by
  refine h.modify (edit_state e _) (edit_pid e _) (fun hp => ?_) (fun hp => ?_)
    (fun d body hp hres => ?_) (fun hp => ?_) (fun hp => ?_)
  · have hprio := h.points.priority hp
    cases e with
    | touch f keeps => simpa [Edit.apply, core_priority (keeps _)] using hprio
    | setPriority value => exact hg.2
    | _ => exact hprio
  · have hinit := h.points.init
    rw [← hp] at hinit
    cases e with
    | touch f keeps => simpa [Edit.apply, core_resume (keeps _)] using hinit
    | suspendAt point => exact Or.inr (hg.2.2.1 hp)
    | _ => exact hinit
  · cases e with
    | touch f keeps =>
        rw [Edit.apply, core_resume (keeps _)] at hres
        exact h.points.destination hp hres
    | suspendAt point => exact hg.2.2.2.1 d body hres
    | _ => exact h.points.destination hp hres
  · have hblocked := h.points.blocked hp
    cases e with
    | touch f keeps =>
        exact PCB.blocked_congr (core_state (keeps _)) (core_resume (keeps _))
          (core_pidToWait (keeps _)) hblocked
    | suspendAt point => exact PCB.blocked_of_not_waiting hg.2.1
    | waitFor pid => exact PCB.blocked_of_not_waiting hg.2
    | clearWait =>
        refine PCB.blocked_of_not_waiting ?_
        show (s.state p).isWaiting = false
        rw [show s.state p = .ready from hg]
        rfl
    | _ => exact PCB.blocked_congr rfl rfl rfl hblocked
  · have howner := (h.points.owner hp).2
    cases e with
    | touch f keeps => simpa [Edit.apply, core_resume (keeps _)] using howner
    | suspendAt point => exact hg.2.2.2.2 hp
    | _ => exact howner

/-- The block of a page that no process occupies. -/
theorem Inv.modify_free (h : s.Inv alg) (f : PCB → PCB) (hp : ¬ s.Registered p) :
    (s.modify p f).Inv alg := by
  have hblock : ∀ r, s.Registered r → (s.modify p f).block r = s.block r := fun r hr =>
    modify_block_of_ne fun h => hp (h ▸ hr)
  have hstate : ∀ r, s.Registered r → (s.modify p f).state r = s.state r := fun r hr => by
    rw [state, hblock r hr, state]
  have hinit := h.table.registered_init
  exact {
    table := h.table.congr rfl rfl fun r hr => by rw [hblock r hr]
    queues := {
      member := h.queues.member
      nodup := h.queues.nodup
      disjoint := h.queues.disjoint
      linked := fun {r} hr hne => by
        rw [hstate r hr]
        exact h.queues.linked hr hne
      level := h.queues.level }
    cpu := {
      current := h.cpu.current
      running := fun {r} hr hst => by
        rw [hstate r hr] at hst
        exact h.cpu.running hr hst
      initState := by
        rw [hstate _ hinit]
        exact h.cpu.initState }
    points := {
      priority := fun {r} hr => by
        rw [hblock r hr]
        exact h.points.priority hr
      init := by
        rw [hblock _ hinit]
        exact h.points.init
      destination := fun {r d body} hr hres => by
        rw [hblock r hr] at hres
        exact h.points.destination hr hres
      blocked := fun {r} hr => by
        rw [hblock r hr]
        exact h.points.blocked hr
      owner := fun {r} hr => by
        obtain ⟨hreg, hread⟩ := h.points.owner hr
        rw [hblock r hreg]
        exact ⟨hreg, hread⟩ } }

/-! ### States and queues -/

/-- What a change of states and queues leaves alone. -/
def identity (b : PCB) : Nat × Int × ResumePoint × Int :=
  (b.pid, b.priority, b.resume, b.pidToWait)

theorem identity_withState (b : PCB) (st : ProcessState) :
    identity (b.withState st) = identity b := rfl

theorem identity_withCounter (b : PCB) (c : Int) : identity (b.withCounter c) = identity b := rfl

theorem identity_handled (b : PCB) : identity b.handled = identity b := by
  unfold PCB.handled
  split
  · rfl
  · split
    · rfl
    · split <;> rfl

/-- What a change of states and queues has to respect. -/
theorem Inv.restate (h : s.Inv alg) (s' : Sched) (hprocesses : s'.processes = s.processes)
    (hn : s'.nProcesses = s.nProcesses) (hlevel : ∀ i, s'.queueLevel i < ML_MAX_LEVELS)
    (howner : s'.uartOwner = s.uartOwner)
    (hidentity : ∀ r, identity (s'.block r) = identity (s.block r))
    (hmember : ∀ {q r}, r ∈ s'.queue q → s.Registered r ∧ r ≠ .initProcess ∧ alg.Uses q)
    (hnodup : ∀ q, (s'.queue q).Nodup)
    (hdisjoint : ∀ {q q' r}, r ∈ s'.queue q → r ∈ s'.queue q' → q = q')
    (hlinked : ∀ {r}, s.Registered r → r ≠ .initProcess →
      (s'.state r = .ready ↔ s'.IsLinked r))
    (hwaiting : ∀ r, s'.state r = s.state r ∨ (s'.state r).isWaiting = false ∨
      (s'.block r).Blocked)
    (hcurrent : s.Registered s'.currentProcess)
    (hrunning : ∀ {r}, s.Registered r → s'.state r = .running → r = s'.currentProcess)
    (hinitState : s'.state .initProcess = .unset ∨ s'.state .initProcess = .running
      ∨ s'.state .initProcess = .ready) : s'.Inv alg := by
  have hreg : ∀ {r}, s'.Registered r ↔ s.Registered r := registered_congr hprocesses
  have hpriority : ∀ r, (s'.block r).priority = (s.block r).priority := fun r =>
    congrArg (fun x => x.2.1) (hidentity r)
  have hresume : ∀ r, (s'.block r).resume = (s.block r).resume := fun r =>
    congrArg (fun x => x.2.2.1) (hidentity r)
  have hwait : ∀ r, (s'.block r).pidToWait = (s.block r).pidToWait := fun r =>
    congrArg (fun x => x.2.2.2) (hidentity r)
  exact {
    table := h.table.congr hprocesses hn fun r _ => congrArg Prod.fst (hidentity r)
    queues := {
      member := fun hr => by rw [hreg]; exact hmember hr
      nodup := hnodup
      disjoint := hdisjoint
      linked := fun hr hne => hlinked (hreg.mp hr) hne
      level := hlevel }
    cpu := {
      current := hreg.mpr hcurrent
      running := fun hr => hrunning (hreg.mp hr)
      initState := hinitState }
    points := {
      priority := fun {r} hr => by rw [hpriority]; exact h.points.priority (hreg.mp hr)
      init := by rw [hresume]; exact h.points.init
      destination := fun {r d body} hr hres => by
        rw [hresume] at hres
        exact hreg.mpr (h.points.destination (hreg.mp hr) hres)
      blocked := fun {r} hr => by
        rcases hwaiting r with hst | hst | hst
        · exact PCB.blocked_congr hst (hresume r) (hwait r) (h.points.blocked (hreg.mp hr))
        · exact PCB.blocked_of_not_waiting hst
        · exact hst
      owner := fun {r} hr => by
        rw [howner] at hr
        rw [hresume, hreg]
        exact h.points.owner hr } }

/-- The current process blocks or exits. -/
theorem Inv.leave (h : s.Inv alg) {st : ProcessState}
    (hg : (Action.leave st).Guard alg s) : (s.setState s.currentProcess st).Inv alg := by
  obtain ⟨hne, hrun, hst, hblocked, -⟩ := hg
  have hready : st ≠ .ready := by rintro rfl; simp [ProcessState.isWaiting] at hst
  have hrunning : st ≠ .running := by rintro rfl; simp [ProcessState.isWaiting] at hst
  have hstate : ∀ r, (s.setState s.currentProcess st).state r
      = if r = s.currentProcess then st else s.state r := by
    intro r
    unfold state
    rw [setState_block]
    split <;> rfl
  refine h.restate (s.setState s.currentProcess st) rfl rfl h.queues.level rfl
    (setState_field identity identity_withState st) h.queues.member h.queues.nodup
    h.queues.disjoint (fun {r} hr hne' => ?_) (fun r => ?_) h.cpu.current
    (fun {r} hr hst' => ?_) ?_
  · rw [hstate]
    split
    · next hrc =>
        -- A running process is in no queue, and a blocked one neither.
        have := (h.queues.linked hr hne').not
        subst hrc
        exact iff_of_false hready (this.mp (by rw [hrun]; decide))
    · exact h.queues.linked hr hne'
  · by_cases hr : r = s.currentProcess
    · refine Or.inr (Or.inr ?_)
      rw [setState_block, if_pos hr]
      exact hblocked
    · exact Or.inl (by rw [hstate, if_neg hr])
  · rw [hstate] at hst'
    split at hst'
    · exact absurd hst' hrunning
    · exact h.cpu.running hr hst'
  · rw [hstate, if_neg (Ne.symm hne)]
    exact h.cpu.initState

theorem state_enqueue (r : PcbPtr) :
    (s.enqueue alg p).state r = if r = p then .ready else s.state r := by
  unfold state
  rw [enqueue_block]
  split <;> rfl

theorem isLinked_enqueue {r : PcbPtr} :
    (s.enqueue alg p).IsLinked r ↔ r = p ∨ s.IsLinked r := by
  unfold IsLinked
  constructor
  · rintro ⟨q, hq⟩
    rcases (mem_enqueue_queue alg).mp hq with h | h
    · exact Or.inl h.1
    · exact Or.inr ⟨q, h⟩
  · rintro (rfl | ⟨q, hq⟩)
    · exact ⟨s.queueOf alg r, (mem_enqueue_queue alg).mpr (Or.inl ⟨rfl, rfl⟩)⟩
    · exact ⟨q, (mem_enqueue_queue alg).mpr (Or.inr hq)⟩

/-- A process outside the queues becomes ready and joins one. -/
theorem Inv.enqueue (h : s.Inv alg) (hp : s.Registered p) (hne : p ≠ .initProcess)
    (hfree : ¬ s.IsLinked p) : (s.enqueue alg p).Inv alg := by
  refine h.restate (s.enqueue alg p) rfl rfl h.queues.level rfl
    (enqueue_field alg identity identity_withState)
    (fun {q r} hr => ?_) (fun q => ?_) (fun {q q' r} hr hr' => ?_) (fun {r} hr hne' => ?_)
    (fun r => ?_) h.cpu.current (fun {r} hr hst => ?_) ?_
  · rcases (mem_enqueue_queue alg).mp hr with ⟨rfl, rfl⟩ | hr
    · exact ⟨hp, hne, SchedAlgorithm.uses_queueAt (h.queues.level _)⟩
    · exact h.queues.member hr
  · by_cases hq : q = s.queueOf alg p
    · subst hq
      simp only [Sched.enqueue, Function.update_self]
      rw [(SchedAlgorithm.place_perm alg _ _ _).nodup_iff, List.nodup_cons]
      exact ⟨fun hmem => hfree ⟨_, hmem⟩, h.queues.nodup _⟩
    · simp only [Sched.enqueue, Function.update_of_ne hq]
      exact h.queues.nodup q
  · rw [mem_enqueue_queue] at hr hr'
    rcases hr with ⟨rfl, rfl⟩ | hr <;> rcases hr' with ⟨h₁, rfl⟩ | hr'
    · rfl
    · exact absurd ⟨_, hr'⟩ hfree
    · exact absurd ⟨_, h₁ ▸ hr⟩ hfree
    · exact h.queues.disjoint hr hr'
  · rw [state_enqueue, isLinked_enqueue]
    by_cases hrp : r = p
    · simp [hrp]
    · simpa [hrp] using h.queues.linked hr hne'
  · rw [state_enqueue]
    split
    · exact Or.inr (Or.inl rfl)
    · exact Or.inl rfl
  · rw [state_enqueue] at hst
    split at hst
    · exact absurd hst (by decide)
    · exact h.cpu.running hr hst
  · rw [state_enqueue, if_neg (Ne.symm hne)]
    exact h.cpu.initState

theorem isLinked_unlink {r : PcbPtr} : (s.unlink p).IsLinked r ↔ s.IsLinked r ∧ r ≠ p := by
  unfold IsLinked
  simp

/-- The process is linked exactly when it is not in a state that keeps it out. -/
theorem Inv.not_linked (h : s.Inv alg) (hst : s.state p ≠ .ready) : ¬ s.IsLinked p := by
  rintro ⟨q, hq⟩
  obtain ⟨hreg, hne, -⟩ := h.queues.member hq
  exact hst ((h.queues.linked hreg hne).mpr ⟨q, hq⟩)

theorem Inv.linked_ready (h : s.Inv alg) (hp : s.IsLinked p) : s.state p = .ready := by
  obtain ⟨q, hq⟩ := hp
  obtain ⟨hreg, hne, -⟩ := h.queues.member hq
  exact (h.queues.linked hreg hne).mpr ⟨q, hq⟩

theorem Inv.linked_registered (h : s.Inv alg) (hp : s.IsLinked p) :
    s.Registered p ∧ p ≠ .initProcess := by
  obtain ⟨q, hq⟩ := hp
  exact ⟨(h.queues.member hq).1, (h.queues.member hq).2.1⟩

/-- Init is not blocked. -/
theorem Inv.init_not_waiting (h : s.Inv alg) : (s.state .initProcess).isWaiting = false := by
  rcases h.cpu.initState with hs | hs | hs <;> rw [hs] <;> rfl

/-- A selection function drops a signalled process. -/
theorem Inv.drop (h : s.Inv alg) (hg : (Action.drop p).Guard alg s) :
    ((Action.drop p).apply alg s).Inv alg := by
  obtain ⟨hp, hsig⟩ := hg
  obtain ⟨hreg, hne⟩ := h.linked_registered hp
  have hst := PCB.handled_state_of_signalled _ hsig
  have hready : (s.block p).handled.state ≠ .ready := by rw [hst]; split <;> decide
  have hrunning : (s.block p).handled.state ≠ .running := by rw [hst]; split <;> decide
  have hblock : ∀ r, ((Action.drop p).apply alg s).state r
      = if r = p then (s.block p).handled.state else s.state r := by
    intro r
    show (((s.unlink p).modify p PCB.handled).block r).state = _
    rw [modify_block]
    split <;> rfl
  refine h.restate ((Action.drop p).apply alg s) rfl rfl h.queues.level rfl
    (modify_field identity (identity_handled _))
    (fun {q r} hr => ?_) (fun q => ?_) (fun {q q' r} hr hr' => ?_) (fun {r} hr hne' => ?_)
    (fun r => ?_) h.cpu.current (fun {r} hr hst => ?_) ?_
  · exact h.queues.member (List.mem_filter.mp hr).1
  · exact (h.queues.nodup q).filter _
  · exact h.queues.disjoint (List.mem_filter.mp hr).1 (List.mem_filter.mp hr').1
  · rw [hblock]
    have : ((Action.drop p).apply alg s).IsLinked r ↔ s.IsLinked r ∧ r ≠ p := isLinked_unlink
    rw [this]
    by_cases hrp : r = p
    · simp [hrp, hready]
    · simpa [hrp] using h.queues.linked hr hne'
  · rw [hblock]
    split
    · refine Or.inr (Or.inl ?_)
      rw [hst]
      split <;> rfl
    · exact Or.inl rfl
  · rw [hblock] at hst
    split at hst
    · exact absurd hst hrunning
    · exact h.cpu.running hr hst
  · rw [hblock, if_neg (Ne.symm hne)]
    exact h.cpu.initState

theorem state_switchTo (r : PcbPtr) :
    (s.switchTo p).state r =
      if r = p then .running
      else if r = s.currentProcess ∧ s.state s.currentProcess = .running then .ready
      else s.state r := by
  show ((s.switchTo p).block r).state = _
  rw [switchTo_block]
  by_cases hr : r = p
  · rw [if_pos hr, if_pos hr]
    rfl
  · rw [if_neg hr, if_neg hr]
    split <;> rfl

/-- The dispatch of a process, or of init, that has left the queues. The processes
other than it are linked exactly when they are ready. -/
theorem Inv.switch (h : s.Inv alg) (hp : s.Registered p)
    (hcur : s.currentProcess ≠ .initProcess → s.state s.currentProcess ≠ .running)
    (s₁ : Sched) (hs₁ : ∀ q, s₁.queue q = (s.queue q).filter (· ≠ p))
    (hproc : s₁.processes = s.processes) (hn : s₁.nProcesses = s.nProcesses)
    (hlevel : s₁.queueLevel = s.queueLevel) (hcp : s₁.currentProcess = s.currentProcess)
    (howner : s₁.uartOwner = s.uartOwner) (hstate : ∀ r, s₁.state r = s.state r)
    (hid : ∀ r, identity (s₁.block r) = identity (s.block r)) : (s₁.switchTo p).Inv alg := by
  have hlinked : ∀ {r}, (s₁.switchTo p).IsLinked r ↔ s.IsLinked r ∧ r ≠ p := by
    intro r
    unfold IsLinked
    simp [hs₁]
  -- The process that loses the CPU is marked as running only when it is init.
  have hdisplaced : ∀ {r}, r = s₁.currentProcess ∧ s₁.state s₁.currentProcess = .running →
      r = .initProcess := by
    rintro r ⟨hr, hrun⟩
    rw [hcp, hstate] at hrun
    rw [hr, hcp]
    exact Classical.byContradiction fun hne => hcur hne hrun
  refine h.restate (s₁.switchTo p) (by simp [hproc]) (by simp [hn])
    (by simpa [hlevel] using h.queues.level) (by simp [howner])
    (fun r => (switchTo_field identity identity_withState r).trans (hid r))
    (fun {q r} hr => ?_) (fun q => ?_) (fun {q q' r} hr hr' => ?_) (fun {r} hr hne' => ?_)
    (fun r => ?_) (by simpa using hp) (fun {r} hr hst => ?_) ?_
  · rw [switchTo_queue, hs₁] at hr
    exact h.queues.member (List.mem_filter.mp hr).1
  · rw [switchTo_queue, hs₁]
    exact (h.queues.nodup q).filter _
  · rw [switchTo_queue, hs₁] at hr hr'
    exact h.queues.disjoint (List.mem_filter.mp hr).1 (List.mem_filter.mp hr').1
  · rw [state_switchTo, hlinked]
    by_cases hrp : r = p
    · simp [hrp]
    · rw [if_neg hrp, if_neg fun hd => hne' (hdisplaced hd), hstate]
      simpa [hrp] using h.queues.linked hr hne'
  · rw [state_switchTo]
    split
    · exact Or.inr (Or.inl rfl)
    · split
      · exact Or.inr (Or.inl rfl)
      · exact Or.inl (hstate r)
  · rw [switchTo_currentProcess]
    rw [state_switchTo] at hst
    by_cases hrp : r = p
    · exact hrp
    · rw [if_neg hrp] at hst
      split at hst
      · exact absurd hst (by decide)
      · next hd =>
          rw [hstate] at hst
          have hrc := h.cpu.running hr hst
          refine absurd ⟨hrc.trans hcp.symm, ?_⟩ hd
          rw [hstate, hcp, ← hrc]
          exact hst
  · rw [state_switchTo]
    split
    · simp
    · split
      · simp
      · rw [hstate]
        exact h.cpu.initState

theorem Inv.dispatch (h : s.Inv alg) {next : Option PcbPtr} {quantum : Option Int}
    (hg : (Action.dispatch next quantum).Guard alg s) :
    ((Action.dispatch next quantum).apply alg s).Inv alg := by
  cases next with
  | none =>
      obtain ⟨hempty, hcur⟩ := hg
      exact h.switch h.table.registered_init hcur s (fun q => by simp [hempty]) rfl rfl rfl rfl
        rfl (fun _ => rfl) fun _ => rfl
  | some p =>
      obtain ⟨hp, -, hcur, -⟩ := hg
      refine h.switch (h.linked_registered hp).1 hcur
        ((s.unlink p).modify p fun b => b.withCounter (quantum.getD b.counter))
        (fun q => rfl) rfl rfl rfl rfl rfl (fun r => ?_) fun r => ?_
      · exact modify_field PCB.state rfl r
      · exact modify_field identity (identity_withCounter _ _) r

/-- The boost moves a process to the top level. -/
theorem Inv.promote (h : s.Inv alg) {level : Nat} (hg : (Action.promote level p).Guard alg s) :
    ((Action.promote level p).apply alg s).Inv alg := by
  obtain ⟨rfl, -, hp⟩ := hg
  obtain ⟨hreg, hne, -⟩ := h.queues.member hp
  obtain ⟨s₁, hs₁⟩ : ∃ s₁, s₁ = (Action.promote level p).apply .mlfq s := ⟨_, rfl⟩
  rw [← hs₁]
  have hmem : ∀ {q r}, r ∈ s₁.queue q ↔
      (r = p ∧ q = .mlQueue 0) ∨ (r ∈ s.queue q ∧ r ≠ p) := by
    intro q r
    subst hs₁
    by_cases hq : q = .mlQueue 0
    · subst hq
      simp [Action.apply, or_comm]
    · simp [Action.apply, hq]
  have hlinked : ∀ {r}, s₁.IsLinked r ↔ s.IsLinked r := by
    intro r
    unfold IsLinked
    simp only [hmem]
    constructor
    · rintro ⟨q, ⟨rfl, rfl⟩ | ⟨hr, -⟩⟩
      · exact ⟨_, hp⟩
      · exact ⟨q, hr⟩
    · rintro ⟨q, hr⟩
      by_cases hrp : r = p
      · exact ⟨_, Or.inl ⟨hrp, rfl⟩⟩
      · exact ⟨q, Or.inr ⟨hr, hrp⟩⟩
  refine h.restate s₁ (by rw [hs₁]; rfl) (by rw [hs₁]; rfl) (fun i => ?_)
    (by rw [hs₁]; rfl) (fun r => by rw [hs₁]; rfl) (fun {q r} hr => ?_) (fun q => ?_)
    (fun {q q' r} hr hr' => ?_) (fun {r} hr hne' => ?_)
    (fun r => Or.inl (by rw [hs₁]; rfl)) (by rw [hs₁]; exact h.cpu.current) (fun {r} hr hst => ?_) ?_
  · rw [hs₁]
    show Function.update s.queueLevel (s.block p).pid 0 i < _
    by_cases hi : i = (s.block p).pid
    · rw [hi, Function.update_self]; decide
    · rw [Function.update_of_ne hi]; exact h.queues.level i
  · rcases hmem.mp hr with ⟨rfl, rfl⟩ | ⟨hr, -⟩
    · exact ⟨hreg, hne, (by decide : 0 < ML_MAX_LEVELS)⟩
    · exact h.queues.member hr
  · have hnodup := (h.queues.nodup q).filter (· ≠ p)
    rw [hs₁]
    by_cases hq : q = .mlQueue 0
    · subst hq
      simp only [Action.apply, Function.update_self, unlink_queue]
      rw [(List.perm_append_singleton p _).nodup_iff]
      exact List.nodup_cons.mpr ⟨by simp, hnodup⟩
    · simp only [Action.apply, Function.update_of_ne hq, unlink_queue]
      exact hnodup
  · rw [hmem] at hr hr'
    rcases hr with ⟨rfl, rfl⟩ | ⟨hr, hrp⟩ <;> rcases hr' with ⟨h₁, rfl⟩ | ⟨hr', hrp'⟩
    · rfl
    · exact absurd rfl hrp'
    · exact absurd h₁ hrp
    · exact h.queues.disjoint hr hr'
  · rw [hlinked, show s₁.state r = s.state r by rw [hs₁]; rfl]
    exact h.queues.linked hr hne'
  · rw [show s₁.state r = s.state r by rw [hs₁]; rfl] at hst
    rw [hs₁]
    exact h.cpu.running hr hst
  · rw [show s₁.state .initProcess = s.state .initProcess by rw [hs₁]; rfl]
    exact h.cpu.initState

/-- The invariant says nothing about counters. -/
theorem Inv.recount (h : s.Inv alg) {block : PcbPtr → PCB} (trace : List KernelEvent)
    (hblock : ∀ r, ∃ c, block r = (s.block r).withCounter c) :
    ({ s with block := block, trace := trace } : Sched).Inv alg := by
  have hstate : ∀ r, (block r).state = s.state r := fun r => by
    obtain ⟨c, hc⟩ := hblock r
    rw [hc]
    rfl
  refine h.restate { s with block := block, trace := trace } rfl rfl h.queues.level rfl
    (fun r => ?_) h.queues.member h.queues.nodup h.queues.disjoint (fun {r} hr hne => ?_)
    (fun r => Or.inl (hstate r)) h.cpu.current (fun {r} hr hst => ?_) ?_
  · obtain ⟨c, hc⟩ := hblock r
    show identity (block r) = identity (s.block r)
    rw [hc]
    rfl
  · show (block r).state = .ready ↔ s.IsLinked r
    rw [hstate]
    exact h.queues.linked hr hne
  · exact h.cpu.running hr ((hstate r).symm.trans hst)
  · show (block .initProcess).state = .unset ∨ (block .initProcess).state = .running
      ∨ (block .initProcess).state = .ready
    rw [hstate]
    exact h.cpu.initState

/-- An epoch ends. -/
theorem Inv.recharge (h : s.Inv alg) :
    ((Action.recharge).apply alg s).Inv alg := by
  refine h.recount _ fun r => ?_
  split
  · exact ⟨_, rfl⟩
  · exact ⟨(s.block r).counter, rfl⟩

/-- A new process in a state in which it need not be in a queue. -/
theorem Inv.addToTable (h : s.Inv alg) (hp : ¬ s.Registered p)
    (hn : s.nProcesses < N_PROCESSES) {b : PCB} {level : Nat} (hpid : b.pid = s.nProcesses)
    (hstate : b.state = .unset) (hpriority : 1 ≤ b.priority)
    (hresume : ∀ d body, b.resume ≠ .sendMessage d body) (hlevel : level < ML_MAX_LEVELS) :
    (s.addToTable p b level).Inv alg := by
  have hfree : ¬ s.IsLinked p := fun hl => hp (h.linked_registered hl).1
  obtain ⟨s₁, hs₁⟩ : ∃ s₁, s₁ = s.addToTable p b level := ⟨_, rfl⟩
  rw [← hs₁]
  have hblock : ∀ r, s₁.block r = if r = p then b else s.block r := fun r => by
    rw [hs₁]
    exact modify_block (f := fun _ => b)
  have hslot : ∀ {i r}, s₁.processes i = some r ↔
      (i = s.nProcesses ∧ r = p) ∨ s.processes i = some r := by
    intro i r
    rw [hs₁]
    by_cases hi : i = s.nProcesses
    · have hempty : s.processes i ≠ some r := fun hs => by
        have := (h.table.slot hs).1
        omega
      rw [hi] at hempty ⊢
      simp [Sched.addToTable, hempty, eq_comm]
    · simp [Sched.addToTable, hi]
  have hreg : ∀ {r}, s₁.Registered r ↔ r = p ∨ s.Registered r := by
    intro r
    unfold Registered
    simp only [hslot]
    constructor
    · rintro ⟨i, hi, ⟨rfl, rfl⟩ | hs⟩
      · exact Or.inl rfl
      · exact Or.inr ⟨i, hi, hs⟩
    · rintro (rfl | ⟨i, hi, hs⟩)
      · exact ⟨_, hn, Or.inl ⟨rfl, rfl⟩⟩
      · exact ⟨i, hi, Or.inr hs⟩
  have hold : ∀ {r}, s.Registered r → s₁.block r = s.block r := fun {r} hr => by
    rw [hblock, if_neg fun he : r = p => hp (he ▸ hr)]
  have hlinked : ∀ {r}, s₁.IsLinked r ↔ s.IsLinked r := by
    intro r
    rw [hs₁]
    rfl
  have hcur : s₁.currentProcess = s.currentProcess := by rw [hs₁]; rfl
  have hinit := h.table.registered_init
  exact {
    table := {
      slot := fun {i r} hs => by
        have hn₁ : s₁.nProcesses = s.nProcesses + 1 := by rw [hs₁]; rfl
        rcases hslot.mp hs with ⟨rfl, rfl⟩ | hs
        · rw [hblock, if_pos rfl, hn₁]
          exact ⟨Nat.lt_succ_self _, hpid⟩
        · obtain ⟨hlt, hpid'⟩ := h.table.slot hs
          have hr : s.Registered r := ⟨i, Nat.lt_of_lt_of_le hlt h.table.bound, hs⟩
          rw [hold hr, hn₁]
          exact ⟨by omega, hpid'⟩
      dense := fun i hi => by
        have hn₁ : s₁.nProcesses = s.nProcesses + 1 := by rw [hs₁]; rfl
        rcases Nat.lt_or_eq_of_le (Nat.lt_succ_iff.mp (hn₁ ▸ hi)) with hlt | rfl
        · obtain ⟨r, hr⟩ := h.table.dense i hlt
          exact ⟨r, hslot.mpr (Or.inr hr)⟩
        · exact ⟨p, hslot.mpr (Or.inl ⟨rfl, rfl⟩)⟩
      bound := by rw [hs₁]; exact hn
      first := hslot.mpr (Or.inr h.table.first) }
    queues := {
      member := fun {q r} hr => by
        rw [hs₁] at hr
        obtain ⟨hr', hne', huses⟩ := h.queues.member hr
        exact ⟨hreg.mpr (Or.inr hr'), hne', huses⟩
      nodup := by rw [hs₁]; exact h.queues.nodup
      disjoint := by rw [hs₁]; exact h.queues.disjoint
      linked := fun {r} hr hne' => by
        rw [hlinked]
        rcases hreg.mp hr with rfl | hr'
        · rw [state, hblock, if_pos rfl, hstate]
          exact iff_of_false (by decide) hfree
        · rw [state, hold hr']
          exact h.queues.linked hr' hne'
      level := fun i => by
        rw [hs₁]
        show Function.update s.queueLevel s.nProcesses level i < _
        by_cases hi : i = s.nProcesses
        · rw [hi, Function.update_self]; exact hlevel
        · rw [Function.update_of_ne hi]; exact h.queues.level i }
    cpu := {
      current := by rw [hcur]; exact hreg.mpr (Or.inr h.cpu.current)
      running := fun {r} hr hst => by
        rw [hcur]
        rcases hreg.mp hr with rfl | hr'
        · rw [state, hblock, if_pos rfl, hstate] at hst
          exact absurd hst (by decide)
        · rw [state, hold hr'] at hst
          exact h.cpu.running hr' hst
      initState := by rw [state, hold hinit]; exact h.cpu.initState }
    points := {
      priority := fun {r} hr => by
        rcases hreg.mp hr with rfl | hr'
        · rw [hblock, if_pos rfl]; exact hpriority
        · rw [hold hr']; exact h.points.priority hr'
      init := by rw [hold hinit]; exact h.points.init
      destination := fun {r d body} hr hres => by
        rcases hreg.mp hr with rfl | hr'
        · rw [hblock, if_pos rfl] at hres
          exact absurd hres (hresume d body)
        · rw [hold hr'] at hres
          exact hreg.mpr (Or.inr (h.points.destination hr' hres))
      blocked := fun {r} hr => by
        rcases hreg.mp hr with rfl | hr'
        · rw [hblock, if_pos rfl]
          exact PCB.blocked_of_not_waiting (by rw [hstate]; rfl)
        · rw [hold hr']; exact h.points.blocked hr'
      owner := fun {r} hr => by
        rw [show s₁.uartOwner = s.uartOwner by rw [hs₁]; rfl] at hr
        obtain ⟨hr', hread⟩ := h.points.owner hr
        rw [hold hr']
        exact ⟨hreg.mpr (Or.inr hr'), hread⟩ } }

theorem startLevel_lt (alg : SchedAlgorithm) (queuePriority : Int) :
    Kernel.startLevel alg queuePriority < ML_MAX_LEVELS := by
  have hclamp : ∀ n : Nat, (if n ≥ ML_MAX_LEVELS then ML_MAX_LEVELS - 1 else n) < ML_MAX_LEVELS := by
    intro n
    have : ML_MAX_LEVELS = 5 := rfl
    split <;> omega
  unfold Kernel.startLevel
  cases alg <;> exact hclamp _

theorem Inv.register (h : s.Inv alg) {cloneFlags : BitVec 64} {mm : MmStruct}
    (hg : (Action.register p cloneFlags mm).Guard alg s) :
    ((Action.register p cloneFlags mm).apply alg s).Inv alg := by
  obtain ⟨hp, hn⟩ := hg
  have hne : p ≠ .initProcess := fun he => hp (he ▸ h.table.registered_init)
  have hfree : ¬ s.IsLinked p := fun hl => hp (h.linked_registered hl).1
  obtain ⟨b, hb⟩ : ∃ b, b = Kernel.childPcb (s.block s.currentProcess) cloneFlags mm s.nProcesses :=
    ⟨_, rfl⟩
  simp only [Action.apply, ← hb]
  have hresume : ∀ d body, b.resume ≠ .sendMessage d body := fun d body => by
    rw [hb]
    simp only [Kernel.childPcb]
    split <;> simp
  -- `enqueue` marks the child as ready whatever its state was before.
  rw [← enqueue_setState alg .unset]
  have hunset : (s.addToTable p b (Kernel.startLevel alg b.queuePriority)).setState p .unset
      = s.addToTable p (b.withState .unset) (Kernel.startLevel alg b.queuePriority) := by
    simp [setState, Sched.modify, Sched.addToTable]
  rw [hunset]
  refine (h.addToTable (b := b.withState .unset) hp hn (by rw [hb]; rfl) rfl ?_ hresume
    (startLevel_lt _ _)).enqueue ⟨s.nProcesses, hn, by simp [Sched.addToTable]⟩ hne hfree
  rw [hb]
  exact h.points.priority h.cpu.current

/-- Every action keeps the invariant. -/
theorem Inv.apply (h : s.Inv alg) {a : Action} (hg : a.Guard alg s) : (a.apply alg s).Inv alg := by
  cases a with
  | edit p e => exact h.edit hg
  | leave st => exact h.leave hg
  | wake p =>
      obtain ⟨hp, hwait⟩ := hg
      refine h.enqueue hp (fun hne => ?_) (h.not_linked fun hst => ?_)
      · rw [hne, h.init_not_waiting] at hwait
        exact absurd hwait (by decide)
      · rw [hst] at hwait
        exact absurd hwait (by decide)
  | setLevel pid level =>
      refine h.congr rfl rfl rfl rfl rfl (fun i => ?_) fun _ => h.points.owner
      show Function.update s.queueLevel pid level i < _
      by_cases hi : i = pid
      · rw [hi, Function.update_self]; exact hg
      · rw [Function.update_of_ne hi]; exact h.queues.level i
  | promote level p => exact h.promote hg
  | resetLevels =>
      refine h.congr rfl rfl rfl rfl rfl (fun i => ?_) fun _ => h.points.owner
      show (if i < N_PROCESSES then 0 else s.queueLevel i) < _
      split
      · decide
      · exact h.queues.level i
  | own owner =>
      refine h.congr rfl rfl rfl rfl rfl h.queues.level fun p hp => ?_
      rcases hg with rfl | ⟨rfl, hread⟩
      · exact nomatch hp
      · rw [← Option.some.inj hp]
        exact ⟨h.cpu.current, hread⟩
  | clear p => exact h.modify_free (fun _ => .zeroed) hg
  | register p cloneFlags mm => exact h.register hg
  | note e => exact h.congr rfl rfl rfl rfl rfl h.queues.level fun _ => h.points.owner
  | requeue =>
      refine h.enqueue h.cpu.current hg.1 (h.not_linked fun hst => ?_)
      rw [hg.2] at hst
      exact absurd hst (by decide)
  | drop p => exact h.drop hg
  | recharge => exact h.recharge
  | dispatch next quantum => exact h.dispatch hg

/-- No action removes a process from the table. -/
theorem Inv.registered_apply (h : s.Inv alg) {a : Action} (hg : a.Guard alg s)
    (hp : s.Registered p) : (a.apply alg s).Registered p := by
  cases a with
  | register r cloneFlags mm =>
      obtain ⟨i, hi, hslot⟩ := hp
      have hlt := (h.table.slot hslot).1
      exact ⟨i, hi, (Function.update_of_ne (Nat.ne_of_lt hlt) _ _).trans hslot⟩
  | dispatch next quantum =>
      cases next <;> simp only [Action.apply, Registered, switchTo_processes, modify_processes,
        unlink_processes] <;> exact hp
  | _ => exact hp

/-- Every list of actions keeps the invariant. -/
theorem Inv.exec (h : s.Inv alg) {as : List Action} (hexec : Exec alg s as s') : s'.Inv alg :=
  hexec.invariant (P := Inv alg) (A := fun _ => True) (fun _ _ _ hg hs => hs.apply hg)
    (fun _ _ => trivial) h

/-- Code that leaves the current process on the CPU leaves it marked as running. -/
theorem Running.apply (hrun : s.Running) (h : s.Inv alg) {a : Action} (ha : a.Stays)
    (hg : a.Guard alg s) : (a.apply alg s).Running := by
  have hother : ∀ {r b}, r ≠ s.currentProcess →
      (Function.update s.block r b s.currentProcess).state = s.state s.currentProcess :=
    fun {r b} hr => by rw [Function.update_of_ne (Ne.symm hr)]; rfl
  intro hne
  cases a with
  | edit p e =>
      show (s.modify p e.apply).state s.currentProcess = .running
      rw [state_modify (edit_state e _)]
      exact hrun hne
  | wake p =>
      have hp : p ≠ s.currentProcess := fun he => by
        have := hg.2
        rw [he, hrun hne] at this
        exact absurd this (by decide)
      exact (hother hp).trans (hrun hne)
  | clear p =>
      have hp : p ≠ s.currentProcess := fun he => hg (he ▸ h.cpu.current)
      exact (hother hp).trans (hrun hne)
  | register p cloneFlags mm =>
      have hp : p ≠ s.currentProcess := fun he => hg.1 (he ▸ h.cpu.current)
      show ((Sched.enqueue alg (s.addToTable p _ _) p).state s.currentProcess) = .running
      rw [state_enqueue, if_neg (Ne.symm hp)]
      exact (hother hp).trans (hrun hne)
  | setLevel | promote | resetLevels | own | note => exact hrun hne
  | leave | requeue | drop | recharge | dispatch => exact absurd ha id

end Preservation

end Sched

end DemoOS
