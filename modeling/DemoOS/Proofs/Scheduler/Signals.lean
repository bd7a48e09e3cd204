import DemoOS.Proofs.Scheduler.Picks

/-!
# `DemoOS.Proofs.Scheduler.Signals`: delivery of signals, and the dead and the stopped

The documentation says that every invocation of the scheduler processes the signals of
each process. The selection functions look at the queues only, and not always at all of
them. `signalsDelivered_iff` says for which states the documented behaviour results.
In particular it never does for a stopped process whose resume signal is pending: it is
in no queue.

`off_stays_off` says that nothing else brings a terminated or stopped process back.
-/

set_option autoImplicit false

namespace DemoOS

open Support

namespace Kernel

/-- The selection function that led from `k` to `k'` has processed the signals of every
process. -/
structure SignalsDelivered (k k' : Kernel) : Prop where
  killed : ∀ p, k.IsProcess p → (k.pcb p).isPending SIGNAL_KILL = true →
    (k'.pcb p).state = .zombie
  stopped : ∀ p, k.IsProcess p → (k.pcb p).isPending SIGNAL_KILL = false →
    (k.pcb p).isPending SIGNAL_STOP = true → (k'.pcb p).state = .stopped
  resumed : ∀ p, k.IsProcess p → (k.pcb p).state = .stopped → (k.pcb p).signalled = false →
    (k.pcb p).isPending SIGNAL_RESUME = true →
    (k'.pcb p).state = .ready ∧ ∃ q, p ∈ k'.linkedIn q

/-- The selection function comes across every signal that has something to do. -/
structure SignalsInReach (alg : SchedAlgorithm) (k : Kernel) : Prop where
  kill : ∀ p, k.IsProcess p → (k.pcb p).isPending SIGNAL_KILL = true →
    (k.pcb p).state = .zombie ∨ p ∈ k.removals alg
  stop : ∀ p, k.IsProcess p → (k.pcb p).isPending SIGNAL_KILL = false →
    (k.pcb p).isPending SIGNAL_STOP = true → (k.pcb p).state = .stopped ∨ p ∈ k.removals alg
  resume : ∀ p, k.IsProcess p → (k.pcb p).state = .stopped → (k.pcb p).signalled = false →
    (k.pcb p).isPending SIGNAL_RESUME = false

end Kernel

section Delivery
variable {alg : SchedAlgorithm} {k k' : Kernel} {s₁ s₂ s₃ : Sched} {as : List Action}
  {next : Option PcbPtr} {quantum : Option Int}

/-- The states after a selection, in the kernel. -/
theorem PickExec.kernel_state_iff (h : PickExec alg s₁ as s₂ next quantum s₃) (hk : Refines k s₁)
    (hinv : s₁.Inv alg) (hk' : Refines k' s₃) {p : PcbPtr} (hp : p ∉ drops as)
    {st : ProcessState} (hst : st.isOff = true) :
    (k'.pcb p).state = st ↔ (k.pcb p).state = st := by
  rw [hk'.state_eq, hk.state_eq]
  exact h.state_of_kept hinv hp hst

theorem PickExec.kernel_state_of_removed (h : PickExec alg s₁ as s₂ next quantum s₃)
    (hk : Refines k s₁) (hinv : s₁.Inv alg) (hk' : Refines k' s₃) {p : PcbPtr}
    (hp : p ∈ drops as) : (k.pcb p).signalled = true
      ∧ (k'.pcb p).state = if (k.pcb p).isPending SIGNAL_KILL then .zombie else .stopped := by
  obtain ⟨hsig, hst⟩ := h.state_of_removed hinv hp
  rw [hk.block_eq] at hsig hst
  rw [hk'.state_eq]
  exact ⟨hsig, hst⟩

/-- In every state in which a selection function starts, it ends, and it delivers all
signals if and only if they are in its reach. -/
theorem signalsDelivered_iff (hk : Kernel.AtPick alg k) :
    ∃ k', alg.pickNext k = some k' ∧ (k.SignalsDelivered k' ↔ k.SignalsInReach alg) := by
  obtain ⟨s₁, hrefines, hinv⟩ := atPick_refines hk
  obtain ⟨k', as, s₂, next, quantum, s₃, hpick, hexec, hsettled, hdrops⟩ :=
    pickNext_exec alg hrefines hinv
  have hremoved := fun {p} => hexec.kernel_state_of_removed hrefines hinv hsettled.refines (p := p)
  have hkept := fun {p} (hp : p ∉ drops as) => @PickExec.kernel_state_iff _ _ _ _ _ _ _ _ _ hexec
    hrefines hinv hsettled.refines p hp
  rw [hdrops] at hremoved hkept
  refine ⟨k', hpick, fun h => ⟨fun p hp hkill => ?_, fun p hp hkill hstop => ?_,
    fun p hp hst hsig => ?_⟩, fun h => ⟨fun p hp hkill => ?_, fun p hp hkill hstop => ?_,
    fun p hp hst hsig hresume => ?_⟩⟩
  · by_cases hr : p ∈ k.removals alg
    · exact Or.inr hr
    · exact Or.inl ((hkept hr rfl).mp (h.killed p hp hkill))
  · by_cases hr : p ∈ k.removals alg
    · exact Or.inr hr
    · exact Or.inl ((hkept hr rfl).mp (h.stopped p hp hkill hstop))
  · -- A stopped process without further signals is not taken out, and stays stopped.
    have hr : p ∉ k.removals alg := fun hr => by
      rw [(hremoved hr).1] at hsig
      exact nomatch hsig
    cases hresume : (k.pcb p).isPending SIGNAL_RESUME with
    | false => rfl
    | true =>
        have hready := (h.resumed p hp hst hsig hresume).1
        rw [(hkept hr rfl).mpr hst] at hready
        exact nomatch hready
  · by_cases hr : p ∈ k.removals alg
    · rw [(hremoved hr).2, if_pos hkill]
    · exact (hkept hr rfl).mpr ((h.kill p hp hkill).resolve_right hr)
  · by_cases hr : p ∈ k.removals alg
    · rw [(hremoved hr).2, if_neg (by rw [hkill]; decide)]
    · exact (hkept hr rfl).mpr ((h.stop p hp hkill hstop).resolve_right hr)
  · rw [h.resume p hp hst hsig] at hresume
    exact nomatch hresume

/-- Process 1 kills process 2 while process 2 is at the head of the queue. -/
theorem signalsDelivered_iff_killed :
    ∃ k k', (Kernel.boot fun _ => 0).run .roundRobin [.kernelMain (some 0), .timerTick,
        .moveToUserMode .empty .zeroed, .fork (some 1) .empty, .sendSignal 2 1] = some k
      ∧ SchedAlgorithm.roundRobin.pickNext k = some k' ∧ k.removals .roundRobin = [.page 1]
      ∧ (k.SignalsDelivered k' ↔ k.SignalsInReach .roundRobin) := by
  have hrun : ((Kernel.boot fun _ => 0).run .roundRobin [.kernelMain (some 0), .timerTick,
      .moveToUserMode .empty .zeroed, .fork (some 1) .empty, .sendSignal 2 1]).map
        (Kernel.removals .roundRobin) = some [.page 1] := by decide +kernel
  obtain ⟨k, hk, hremovals⟩ := Option.map_eq_some_iff.mp hrun
  obtain ⟨k', hpick, hiff⟩ := @signalsDelivered_iff .roundRobin _
    (.reachable (reachable_run (.boot _) hk))
  exact ⟨k, k', hk, hpick, hremovals, hiff⟩

/-- Process 1 stops process 2, which the next selection marks as stopped, and resumes it.
The selection after that leaves it stopped. -/
theorem stopped_not_resumed :
    ∃ k k', Kernel.AtPick .roundRobin k ∧ SchedAlgorithm.roundRobin.pickNext k = some k'
      ∧ (k'.pcb (.page 1)).state = .stopped ∧ ¬ k.SignalsDelivered k' := by
  have hrun : ((Kernel.boot fun _ => 0).run .roundRobin [.kernelMain (some 0), .timerTick,
      .moveToUserMode .empty .zeroed, .fork (some 1) .empty, .sendSignal 2 2, .yield,
      .sendSignal 2 3]).bind (fun k => (SchedAlgorithm.roundRobin.pickNext k).map fun k' =>
        (k.processes 2, (k.pcb (.page 1)).state, (k.pcb (.page 1)).signalled,
          (k.pcb (.page 1)).isPending SIGNAL_RESUME, (k'.pcb (.page 1)).state))
      = some (some (.page 1), .stopped, false, true, .stopped) := by decide +kernel
  obtain ⟨k, hk, hpicked⟩ := Option.bind_eq_some_iff.mp hrun
  obtain ⟨k', hpick, hvalues⟩ := Option.map_eq_some_iff.mp hpicked
  simp only [Prod.mk.injEq] at hvalues
  obtain ⟨hslot, hstopped, hsignalled, hresume, hstopped'⟩ := hvalues
  refine ⟨k, k', .reachable (reachable_run (.boot _) hk), hpick, hstopped', fun h => ?_⟩
  have hready := (h.resumed (.page 1) ⟨2, by decide, hslot⟩ hstopped hsignalled hresume).1
  rw [hstopped'] at hready
  exact nomatch hready

end Delivery

/-! ### The dead and the stopped -/

section Off
variable {alg : SchedAlgorithm} {k k' : Kernel} {s : Sched} {p : PcbPtr}

/-- The process is in the table, and terminated or stopped. -/
structure Sched.Off (s : Sched) (p : PcbPtr) (st : ProcessState) : Prop where
  registered : s.Registered p
  state : s.state p = st
  off : st = .zombie ∨ st = .stopped

namespace Sched.Off

variable {st : ProcessState} (h : s.Off p st)
include h

theorem ne_of_state {r : PcbPtr} {st' : ProcessState} (hr : s.state r = st')
    (hst : st' ≠ .zombie ∧ st' ≠ .stopped) : p ≠ r := by
  rintro rfl
  rw [h.state] at hr
  subst hr
  rcases h.off with hoff | hoff
  · exact hst.1 hoff
  · exact hst.2 hoff

theorem ne_init (hinv : s.Inv alg) : p ≠ .initProcess := by
  rcases hinv.cpu.initState with hs | hs | hs <;> exact h.ne_of_state hs (by decide)

/-- No action changes the state of a terminated or stopped process. -/
theorem apply (hinv : s.Inv alg) {a : Action} (hg : a.Guard alg s) :
    (a.apply alg s).Off p st := by
  refine ⟨hinv.registered_apply hg h.registered, ?_, h.off⟩
  have hready : st ≠ .ready := by rcases h.off with rfl | rfl <;> decide
  have hmodify : ∀ (f : PCB → PCB) {r : PcbPtr}, p ≠ r → (s.modify r f).state p = st :=
    fun f {r} hr => (congrArg PCB.state (modify_block_of_ne hr)).trans h.state
  have henqueue : ∀ {t : Sched} {r : PcbPtr}, t.state p = st → p ≠ r →
      (t.enqueue alg r).state p = st := fun {t r} ht hr => by
    rw [state_enqueue, if_neg hr, ht]
  have hswitch : ∀ {t : Sched} {r : PcbPtr}, t.state p = st → p ≠ r →
      (t.switchTo r).state p = st := fun {t r} ht hr => by
    rw [state_switchTo, if_neg hr, if_neg]
    · exact ht
    · rintro ⟨rfl, hrun⟩
      rw [ht] at hrun
      rcases h.off with hoff | hoff <;> rw [hoff] at hrun <;> exact nomatch hrun
  cases a with
  | edit r e => exact (state_modify (edit_state e _)).trans h.state
  | leave st' =>
      exact hmodify (fun b => b.withState st') (h.ne_of_state hg.2.1 (by decide))
  | wake r =>
      refine henqueue h.state ?_
      rintro rfl
      have hwait := hg.2
      rw [h.state] at hwait
      rcases h.off with hoff | hoff <;> rw [hoff] at hwait <;> exact nomatch hwait
  | clear r =>
      exact hmodify (fun _ => .zeroed) fun he => hg (he ▸ h.registered)
  | register r cloneFlags mm =>
      have hp : p ≠ r := fun he => hg.1 (he ▸ h.registered)
      refine henqueue ?_ hp
      exact (congrArg PCB.state (Function.update_of_ne hp _ _)).trans h.state
  | requeue => exact henqueue h.state (h.ne_of_state hg.2 (by decide))
  | drop r =>
      exact hmodify PCB.handled (h.ne_of_state (hinv.linked_ready hg.1) (by decide))
  | recharge =>
      refine Eq.trans ?_ h.state
      unfold Sched.state
      simp only [Action.apply]
      split <;> rfl
  | dispatch next quantum =>
      cases next with
      | none => exact hswitch h.state (h.ne_init hinv)
      | some r =>
          refine hswitch ((state_modify rfl).trans h.state) ?_
          exact h.ne_of_state (hinv.linked_ready hg.1) (by decide)
  | setLevel | promote | resetLevels | own | note => exact h.state

end Sched.Off

/-- Terminated and stopped processes stay what they are in every run. -/
theorem run_off {st : ProcessState} (hk : Kernel.Reachable alg k) {ts : List Trap}
    (hrun : k.run alg ts = some k') (hp : k.IsProcess p) (hst : (k.pcb p).state = st)
    (hoff : st = .zombie ∨ st = .stopped) :
    (k'.pcb p).state = st ∧ ∀ q, p ∉ k'.linkedIn q := by
  obtain ⟨s, hs⟩ := reachable_settled hk
  have hs_off : s.Off p st :=
    ⟨hs.refines.isProcess_iff.mp hp, (hs.refines.state_eq p).symm.trans hst, hoff⟩
  obtain ⟨s', hs', hoff'⟩ := run_of_actions (P := fun s => s.Off p st)
    (fun _ _ hinv hg h => h.apply hinv hg) hs hs_off hrun
  refine ⟨(hs'.refines.state_eq p).trans hoff'.state, fun q hq => ?_⟩
  rw [hs'.refines.linkedIn_eq hs'.inv] at hq
  have hready := hs'.inv.linked_ready ⟨q, hq⟩
  rw [hoff'.state] at hready
  rcases hoff with rfl | rfl <;> exact nomatch hready

/-- A process with a pending signal that removes it does not get the CPU. -/
theorem PickExec.not_dispatched {s₁ s₂ s₃ : Sched} {as : List Action} {next : Option PcbPtr}
    {quantum : Option Int} (h : PickExec alg s₁ as s₂ next quantum s₃)
    (hsig : (s₁.block p).signalled = true) (hp : p ≠ .initProcess) : s₃.currentProcess ≠ p := by
  rw [h.currentProcess]
  cases next with
  | none => exact hp.symm
  | some r =>
      intro hrp
      obtain rfl : r = p := hrp
      obtain ⟨hlinked, hnot, -⟩ := h.guard
      obtain ⟨q, hq⟩ := hlinked
      have hkept : r ∉ drops as := by
        rw [h.selected.queue] at hq
        simpa using (List.mem_filter.mp hq).2
      rw [(h.selected.kept r hkept).2,
        Sched.requeued_field PCB.signalled (fun _ _ => rfl) (fun _ => rfl), hsig] at hnot
      exact nomatch hnot

/-- Dead and stopped processes do not run: a selection gives the CPU to no process other
than init that has a kill or stop signal pending, a terminated process never changes its
state and is never linked again, and a stopped one changes it by the handling of a
signal only. -/
theorem off_stays_off (alg : SchedAlgorithm) :
    (∀ k k', Kernel.AtPick alg k → alg.pickNext k = some k' → ∀ p, p ≠ .initProcess →
      (k.pcb p).signalled = true → k'.currentProcess ≠ p)
    ∧ (∀ k k' ts, Kernel.Reachable alg k → k.run alg ts = some k' → ∀ p, k.IsProcess p →
      (k.pcb p).state = .zombie → (k'.pcb p).state = .zombie ∧ ∀ q, p ∉ k'.linkedIn q)
    ∧ (∀ k k' ts, Kernel.Reachable alg k → k.run alg ts = some k' → ∀ p, k.IsProcess p →
      (k.pcb p).state = .stopped → (k'.pcb p).state = .stopped
        ∨ ∃ e ∈ k'.trace.drop k.trace.length, e = .resumed p ∨ e = .killed p) := by
  refine ⟨fun k k' hk hpick p hp hsig => ?_, fun k k' ts hk hrun p hp hst =>
    run_off hk hrun hp hst (Or.inl rfl), fun k k' ts hk hrun p hp hst =>
    Or.inl (run_off hk hrun hp hst (Or.inr rfl)).1⟩
  obtain ⟨s₁, hrefines, hinv⟩ := atPick_refines hk
  obtain ⟨k'', as, s₂, next, quantum, s₃, hpick', hexec, hsettled, -⟩ :=
    pickNext_exec alg hrefines hinv
  obtain rfl : k'' = k' := Option.some.inj (hpick'.symm.trans hpick)
  rw [hsettled.refines.currentProcess]
  exact hexec.not_dispatched (by rw [hrefines.block_eq]; exact hsig) hp

/-- Process 1 kills process 2 and stops process 3, and yields. -/
theorem off_stays_off_run :
    ∃ k₀ k' k₁ k₂, SchedAlgorithm.roundRobin.pickNext k₀ = some k'
      ∧ k₀.run .roundRobin [.yield] = some k₁ ∧ k₁.run .roundRobin [.timerTick] = some k₂
      ∧ k'.currentProcess ≠ .page 1
      ∧ ((k₂.pcb (.page 1)).state = .zombie ∧ ∀ q, .page 1 ∉ k₂.linkedIn q)
      ∧ ((k₂.pcb (.page 2)).state = .stopped
        ∨ ∃ e ∈ k₂.trace.drop k₁.trace.length, e = .resumed (.page 2) ∨ e = .killed (.page 2)) := by
  have hrun : ((Kernel.boot fun _ => 0).run .roundRobin [.kernelMain (some 0), .timerTick,
      .moveToUserMode .empty .zeroed, .fork (some 1) .empty, .fork (some 2) .empty,
      .sendSignal 2 1, .sendSignal 3 2]).bind (fun k₀ =>
        (SchedAlgorithm.roundRobin.pickNext k₀).bind fun k' =>
          (k₀.run .roundRobin [.yield]).bind fun k₁ =>
            (k₁.run .roundRobin [.timerTick]).map fun k₂ =>
              ((k₀.pcb (.page 1)).signalled, (k₁.processes 2, k₁.processes 3),
                (k₁.pcb (.page 1)).state, (k₁.pcb (.page 2)).state))
      = some (true, (some (.page 1), some (.page 2)), .zombie, .stopped) := by decide +kernel
  obtain ⟨k₀, hk₀, hrun⟩ := Option.bind_eq_some_iff.mp hrun
  obtain ⟨k', hk', hrun⟩ := Option.bind_eq_some_iff.mp hrun
  obtain ⟨k₁, hk₁, hrun⟩ := Option.bind_eq_some_iff.mp hrun
  obtain ⟨k₂, hk₂, hvalues⟩ := Option.map_eq_some_iff.mp hrun
  simp only [Prod.mk.injEq] at hvalues
  obtain ⟨hsignalled, ⟨hslot₁, hslot₂⟩, hzombie, hstopped⟩ := hvalues
  have hreach := reachable_run (.boot _) hk₀
  have hreach₁ := reachable_run hreach hk₁
  obtain ⟨hpicks, hdead, hstops⟩ := off_stays_off .roundRobin
  exact ⟨k₀, k', k₁, k₂, hk', hk₁, hk₂,
    hpicks k₀ k' (.reachable hreach) hk' _ (by decide) hsignalled,
    hdead k₁ k₂ _ hreach₁ hk₂ _ ⟨2, by decide, hslot₁⟩ hzombie,
    hstops k₁ k₂ _ hreach₁ hk₂ _ ⟨3, by decide, hslot₂⟩ hstopped⟩

/-- Process 1 kills init and waits for a message. Nobody else is ready, and init gets the
CPU with the signal still pending. -/
theorem killed_init_dispatched :
    ∃ k k', Kernel.AtPick .roundRobin k ∧ SchedAlgorithm.roundRobin.pickNext k = some k'
      ∧ (k.pcb .initProcess).isPending SIGNAL_KILL = true ∧ k'.currentProcess = .initProcess := by
  have hrun : ((Kernel.boot fun _ => 0).run .roundRobin [.kernelMain (some 0), .timerTick,
      .moveToUserMode .empty .zeroed, .sendSignal 0 1]).bind (fun k₀ =>
        (k₀.enter .roundRobin .receiveMessage).bind fun r =>
          (SchedAlgorithm.roundRobin.pickNext r.1).map fun k' =>
            (r.2, (r.1.pcb .initProcess).isPending SIGNAL_KILL, k'.currentProcess))
      = some (.schedules, true, .initProcess) := by decide +kernel
  obtain ⟨k₀, hk₀, hrun⟩ := Option.bind_eq_some_iff.mp hrun
  obtain ⟨⟨k, control⟩, hr, hrun⟩ := Option.bind_eq_some_iff.mp hrun
  obtain ⟨k', hpick, hvalues⟩ := Option.map_eq_some_iff.mp hrun
  simp only [Prod.mk.injEq] at hvalues
  obtain ⟨rfl, hkill, hinit⟩ := hvalues
  exact ⟨k, k', .scheduling _ (reachable_run (.boot _) hk₀) hr, hpick, hkill, hinit⟩

end Off

end DemoOS
