import DemoOS.Proofs.Scheduler.Fifo

/-!
# `DemoOS.Proofs.Scheduler.Epochs`: an epoch of priority aging serves everybody once

A recharge ends an epoch. `Sched.Epochs` ties the counters to what the trace says about
the epoch that is under way: a process that was dispatched in it has used up its counter,
and a process that was queued when it began is still queued with a positive one, unless it
was served. `epoch_fair` follows for all the epochs of a run, because a process is only
dispatched with a positive counter, and a recharge only happens when no counter in the
queue is positive.
-/

set_option autoImplicit false

namespace DemoOS

open Support

/-! ### Epochs of a trace -/

/-- The processes queued when the current epoch began, and its events so far. -/
def epochStep : Option (List PcbPtr × List KernelEvent) → KernelEvent →
    Option (List PcbPtr × List KernelEvent)
  | _, .recharged l => some (l, [])
  | epoch, e => epoch.map fun x => (x.1, x.2 ++ [e])

/-- The current epoch, if a recharge has begun one. -/
def epochOf (trace : List KernelEvent) : Option (List PcbPtr × List KernelEvent) :=
  trace.foldl epochStep none

/-- The process was dispatched, or a signal removed it. -/
def Served (p : PcbPtr) (u : List KernelEvent) : Prop :=
  ∃ e ∈ u, e = .dispatched p ∨ e = .killed p ∨ e = .stopped p

/-- What an epoch with the events `u` owes to those who were queued when it began. -/
structure EpochFair (l : List PcbPtr) (u : List KernelEvent) : Prop where
  once : ∀ p, p ≠ .initProcess → u.count (.dispatched p) ≤ 1
  served : ∀ p ∈ l, Served p u

/-- The event is no recharge. -/
def KernelEvent.Within : KernelEvent → Prop
  | .recharged _ => False
  | _ => True

section Traces
variable {t u v : List KernelEvent} {l : List PcbPtr} {p : PcbPtr} {e : KernelEvent}

theorem Served.append_left (h : Served p u) : Served p (u ++ v) := by
  obtain ⟨e, he, hp⟩ := h
  exact ⟨e, List.mem_append_left v he, hp⟩

theorem Served.append_right (h : Served p v) : Served p (u ++ v) := by
  obtain ⟨e, he, hp⟩ := h
  exact ⟨e, List.mem_append_right u he, hp⟩

theorem epochOf_concat : epochOf (t ++ [e]) = epochStep (epochOf t) e := by
  simp [epochOf, List.foldl_append]

theorem epochOf_recharged : epochOf (t ++ [.recharged l]) = some (l, []) := by
  rw [epochOf_concat]
  rfl

/-- Any other event belongs to the epoch under way. -/
theorem epochOf_within (he : e.Within) :
    epochOf (t ++ [e]) = (epochOf t).map fun x => (x.1, x.2 ++ [e]) := by
  rw [epochOf_concat]
  cases e with
  | recharged l => exact absurd he id
  | _ => rfl

theorem epochOf_append (hu : ∀ e ∈ u, e.Within) :
    epochOf (t ++ u) = (epochOf t).map fun x => (x.1, x.2 ++ u) := by
  induction u generalizing t with
  | nil => simp
  | cons e u ih =>
      have hrest : ∀ d ∈ u, d.Within := fun d hd => hu d (by simp [hd])
      rw [List.append_cons, ih hrest, epochOf_within (hu e (by simp)), Option.map_map]
      congr 1
      funext x
      simp

/-- The epoch that begins with a recharge and has not ended yet. -/
theorem epochOf_open (hu : ∀ e ∈ u, e.Within) :
    epochOf (t ++ KernelEvent.recharged l :: u) = some (l, u) := by
  rw [List.append_cons, epochOf_append hu, epochOf_recharged]
  rfl

end Traces

/-! ### The invariant -/

/-- The counters and the epochs of the trace. The process `x` may be in the middle of its
slice. -/
structure Sched.Epochs (s : Sched) (x : Option PcbPtr) : Prop where
  /-- The epochs that are over were fair. -/
  closed : ∀ t l' v, s.trace = t ++ KernelEvent.recharged l' :: v → ∀ l u, epochOf t = some (l, u) →
    EpochFair l u
  once : ∀ l u, epochOf s.trace = some (l, u) → ∀ p, p ≠ .initProcess →
    u.count (.dispatched p) ≤ 1
  waiting : ∀ l u, epochOf s.trace = some (l, u) → ∀ p ∈ l,
    Served p u ∨ p ∈ s.queue .readyQueue ∧ 0 < (s.block p).counter ∧ x ≠ some p
  spent : ∀ l u, epochOf s.trace = some (l, u) → ∀ p, .dispatched p ∈ u →
    s.Registered p ∧ (x ≠ some p → (s.block p).counter ≤ 0)
  counters : ∀ p, s.Registered p → x ≠ some p → 0 ≤ (s.block p).counter

/-- The event is about neither dispatches nor epochs. -/
def KernelEvent.Quiet : KernelEvent → Prop
  | .recharged _ | .dispatched _ => False
  | _ => True

theorem KernelEvent.Quiet.within {e : KernelEvent} (h : e.Quiet) : e.Within := by
  cases e <;> trivial

theorem KernelEvent.quiet_of_note {e : KernelEvent} (h : e.isNote = true) : e.Quiet := by
  cases e <;> trivial

/-- Where a trace that grew by such events has a recharge. -/
theorem recharged_mem_append {t es u v : List KernelEvent} {l : List PcbPtr}
    (hes : ∀ e ∈ es, e.Within) (h : t ++ es = u ++ KernelEvent.recharged l :: v) :
    ∃ w, t = u ++ KernelEvent.recharged l :: w := by
  rcases List.append_eq_append_iff.mp h with ⟨w, hw, hes'⟩ | ⟨w, hw, hrest⟩
  · rw [hes'] at hes
    exact absurd (hes (.recharged l) (by simp)) id
  · cases w with
    | nil =>
        rw [List.nil_append] at hrest
        exact absurd (hes (.recharged l) (by rw [← hrest]; simp)) id
    | cons e w =>
        obtain ⟨rfl, -⟩ := List.cons_eq_cons.mp hrest
        exact ⟨w, hw⟩

namespace Sched.Epochs

variable {alg : SchedAlgorithm} {s s' : Sched} {x : Option PcbPtr} {p : PcbPtr}

/-- A change that dispatches nobody, ends no epoch and keeps the counters, except for new
processes and for `x`. -/
theorem extend (h : s.Epochs x) (hinv : s.Inv alg) (es : List KernelEvent)
    (hes : ∀ e ∈ es, e.Quiet) (htrace : s'.trace = s.trace ++ es)
    (hreg : ∀ p, s.Registered p → s'.Registered p)
    (hqueue : ∀ p ∈ s.queue .readyQueue, p ∈ s'.queue .readyQueue ∨ Served p es)
    (hcounter : ∀ p, s.Registered p → x ≠ some p → (s'.block p).counter = (s.block p).counter)
    (hnew : ∀ p, s'.Registered p → ¬ s.Registered p → 0 ≤ (s'.block p).counter) :
    s'.Epochs x := by
  have hwithin : ∀ e ∈ es, e.Within := fun e he => (hes e he).within
  have hcount : ∀ p, es.count (.dispatched p) = 0 := by
    intro p
    refine List.count_eq_zero.mpr fun hp => ?_
    exact absurd (hes _ hp) id
  -- The epoch of the new trace is that of the old one, with the new events.
  have hepoch : ∀ {l u}, epochOf s'.trace = some (l, u) →
      ∃ u', epochOf s.trace = some (l, u') ∧ u = u' ++ es := by
    intro l u hu
    rw [htrace, epochOf_append hwithin] at hu
    obtain ⟨⟨l', u'⟩, hu', heq⟩ := Option.map_eq_some_iff.mp hu
    obtain ⟨rfl, rfl⟩ := Prod.mk.inj heq
    exact ⟨u', hu', rfl⟩
  refine ⟨?_, ?_, ?_, ?_, ?_⟩
  · intro t l' v hsplit
    rw [htrace] at hsplit
    obtain ⟨w, hw⟩ := recharged_mem_append hwithin hsplit
    exact h.closed t l' w hw
  · intro l u hu p hp
    obtain ⟨u', hu', rfl⟩ := hepoch hu
    rw [List.count_append, hcount, Nat.add_zero]
    exact h.once l u' hu' p hp
  · intro l u hu p hp
    obtain ⟨u', hu', rfl⟩ := hepoch hu
    rcases h.waiting l u' hu' p hp with hserved | ⟨hq, hpos, hx⟩
    · exact Or.inl hserved.append_left
    · have hp' := (hinv.queues.member hq).1
      rcases hqueue p hq with hq' | hserved
      · exact Or.inr ⟨hq', by rw [hcounter p hp' hx]; exact hpos, hx⟩
      · exact Or.inl hserved.append_right
  · intro l u hu p hp
    obtain ⟨u', hu', rfl⟩ := hepoch hu
    rcases List.mem_append.mp hp with hp | hp
    · obtain ⟨hp', hle⟩ := h.spent l u' hu' p hp
      refine ⟨hreg p hp', fun hx => ?_⟩
      rw [hcounter p hp' hx]
      exact hle hx
    · exact absurd (hes _ hp) id
  · intro p hp hx
    by_cases hp' : s.Registered p
    · rw [hcounter p hp' hx]
      exact h.counters p hp' hx
    · exact hnew p hp hp'

/-- A process joins the queue. -/
theorem enqueue (h : s.Epochs x) (hinv : s.Inv .priorityAging) (p : PcbPtr) :
    (s.enqueue .priorityAging p).Epochs x := by
  have hreg : ∀ r, (s.enqueue .priorityAging p).Registered r ↔ s.Registered r := fun r =>
    registered_congr rfl
  refine h.extend hinv [.enqueued _ p] (by simp [KernelEvent.Quiet]) rfl
    (fun r hr => (hreg r).mpr hr) (fun r hr => Or.inl ?_) (fun r _ _ => ?_)
    fun r hr hr' => absurd ((hreg r).mp hr) hr'
  · exact (mem_enqueue_queue .priorityAging).mpr (Or.inr hr)
  · exact enqueue_field .priorityAging PCB.counter (fun _ _ => rfl) r

/-- A change of one block that leaves its counter. -/
theorem modify (h : s.Epochs x) (hinv : s.Inv alg) {f : PCB → PCB}
    (hf : s.Registered p → x ≠ some p → (f (s.block p)).counter = (s.block p).counter) :
    (s.modify p f).Epochs x := by
  refine h.extend hinv [] (by simp) (List.append_nil _).symm (fun _ hr => hr)
    (fun _ hr => Or.inl hr) (fun r hr hx => ?_) fun _ hr hr' => absurd hr hr'
  rw [modify_block]
  split
  · next hrp => subst hrp; exact hf hr hx
  · rfl

/-- A change outside the blocks, the queues and the trace. -/
theorem congr (h : s.Epochs x) (hblock : s'.block = s.block) (hqueue : s'.queue = s.queue)
    (hprocesses : s'.processes = s.processes) (htrace : s'.trace = s.trace) : s'.Epochs x where
  closed := by rw [htrace]; exact h.closed
  once := by rw [htrace]; exact h.once
  waiting := by rw [htrace, hqueue, hblock]; exact h.waiting
  spent := by
    rw [htrace, hblock]
    simp only [registered_congr hprocesses]
    exact h.spent
  counters := by
    rw [hblock]
    simp only [registered_congr hprocesses]
    exact h.counters

/-- Every action of code keeps the invariant, with the current process on the CPU. -/
theorem apply (h : s.Epochs (some s.currentProcess)) (hinv : s.Inv .priorityAging) {a : Action}
    (hg : a.Guard .priorityAging s) (ha : a.IsCode) :
    (a.apply .priorityAging s).Epochs (some (a.apply .priorityAging s).currentProcess) := by
  cases a with
  | edit p e =>
      refine h.modify hinv fun _ hx => ?_
      cases e with
      | touch f hf => exact core_counter (hf _)
      | charge | expire => exact absurd (congrArg some (show p = _ from hg).symm) hx
      | _ => rfl
  | leave st => exact h.modify hinv (f := fun b => b.withState st) fun _ _ => rfl
  | wake p => exact h.enqueue hinv p
  | setLevel | resetLevels | own => exact h.congr rfl rfl rfl rfl
  | promote q p => exact nomatch hg.1
  | clear p => exact h.modify hinv (f := fun _ => .zeroed) fun hp _ => absurd hp hg
  | register p cloneFlags mm =>
      have hother : ∀ r, r ≠ p → ((Action.register p cloneFlags mm).apply .priorityAging s).block r
          = s.block r := by
        intro r hr
        refine (enqueue_block .priorityAging).trans ?_
        rw [if_neg hr]
        exact Function.update_of_ne hr _ _
      refine h.extend hinv [.enqueued _ p] (by simp [KernelEvent.Quiet]) rfl
        (fun r hr => hinv.registered_apply hg hr) (fun r hr => Or.inl ?_) (fun r hr _ => ?_) fun r hr hr' => ?_
      · exact (mem_enqueue_queue .priorityAging).mpr (Or.inr hr)
      · rw [hother r fun he => hg.1 (he ▸ hr)]
      · -- A new process starts with a counter of 10.
        obtain rfl : r = p := by
          by_contra hrp
          obtain ⟨i, hi, hslot⟩ := hr
          refine hr' ⟨i, hi, ?_⟩
          have hslot' : Function.update s.processes s.nProcesses (some p) i = some r := hslot
          by_cases hin : i = s.nProcesses
          · rw [hin, Function.update_self] at hslot'
            exact absurd (Option.some.inj hslot').symm hrp
          · rwa [Function.update_of_ne hin] at hslot'
        have hcounter : (((Action.register r cloneFlags mm).apply .priorityAging s).block r).counter
            = 10 := by
          refine (congrArg PCB.counter (enqueue_block .priorityAging)).trans ?_
          rw [if_pos rfl]
          show (Function.update s.block r _ r).counter = 10
          rw [Function.update_self]
          rfl
        rw [hcounter]
        decide
  | note e =>
      refine h.extend hinv [e] (fun d hd => ?_) rfl (fun _ hr => hr) (fun _ hr => Or.inl hr)
        (fun _ _ _ => rfl) fun _ hr hr' => absurd hr hr'
      rw [List.mem_singleton.mp hd]
      exact KernelEvent.quiet_of_note hg
  | requeue | drop | recharge | dispatch => exact absurd ha id

/-- A process that calls the scheduler has used up its slice. -/
theorem settle (h : s.Epochs x) (hcounter : ∀ p, x = some p → (s.block p).counter = 0) :
    s.Epochs none where
  closed := h.closed
  once := h.once
  waiting := by
    intro l u hu p hp
    rcases h.waiting l u hu p hp with hserved | ⟨hq, hpos, -⟩
    · exact Or.inl hserved
    · exact Or.inr ⟨hq, hpos, by simp⟩
  spent := by
    intro l u hu p hp
    obtain ⟨hp', hle⟩ := h.spent l u hu p hp
    refine ⟨hp', fun _ => ?_⟩
    by_cases hx : x = some p
    · rw [hcounter p hx]
    · exact hle hx
  counters := by
    intro p hp _
    by_cases hx : x = some p
    · rw [hcounter p hx]
    · exact h.counters p hp hx

/-- A new epoch. Everybody who was queued at the start of the old one has been served,
since no counter in the queue is positive any more. -/
theorem recharge (h : s.Epochs none) (hinv : s.Inv alg)
    (hle : ∀ p ∈ s.queue .readyQueue, (s.block p).counter ≤ 0) :
    (Action.recharge.apply alg s).Epochs none := by
  have htrace : (Action.recharge.apply alg s).trace
      = s.trace ++ [.recharged (s.queue .readyQueue)] := rfl
  have hgrown : ∀ p, s.Registered p →
      0 < ((Action.recharge.apply alg s).block p).counter := by
    intro p hp
    have hcounter : ((Action.recharge.apply alg s).block p).counter
        = ((s.block p).counter >>> (1 : Nat)) + (s.block p).priority := recharge_counter hp
    have hnonneg := h.counters p hp (by simp)
    have hpriority := hinv.points.priority hp
    have hshift : (s.block p).counter >>> (1 : Nat) = (s.block p).counter / 2 := by
      rw [Int.shiftRight_eq_div_pow]
      rfl
    rw [hcounter, hshift]
    omega
  have hepoch : epochOf (Action.recharge.apply alg s).trace
      = some (s.queue .readyQueue, []) := by
    rw [htrace, epochOf_recharged]
  refine ⟨?_, ?_, ?_, ?_, fun p hp _ => Int.le_of_lt (hgrown p hp)⟩
  · intro t l' v hsplit l u hu
    rw [htrace] at hsplit
    rcases List.eq_nil_or_concat v with rfl | ⟨w, e, rfl⟩
    · -- The epoch that has just ended.
      obtain ⟨rfl, -⟩ := List.append_inj' hsplit rfl
      refine ⟨h.once l u hu, fun p hp => ?_⟩
      rcases h.waiting l u hu p hp with hserved | ⟨hq, hpos, -⟩
      · exact hserved
      · have := hle p hq
        omega
    · rw [List.concat_eq_append, ← List.cons_append, ← List.append_assoc] at hsplit
      exact h.closed t l' w (List.append_inj' hsplit rfl).1 l u hu
  · intro l u hu p _
    obtain ⟨-, rfl⟩ := Prod.mk.inj (Option.some.inj (hepoch.symm.trans hu))
    simp
  · intro l u hu p hp
    obtain ⟨rfl, rfl⟩ := Prod.mk.inj (Option.some.inj (hepoch.symm.trans hu))
    exact Or.inr ⟨hp, hgrown p (hinv.queues.member hp).1, by simp⟩
  · intro l u hu p hp
    obtain ⟨-, rfl⟩ := Prod.mk.inj (Option.some.inj (hepoch.symm.trans hu))
    exact nomatch hp

/-- The actions of a search. -/
theorem select (h : s.Epochs none) (hinv : s.Inv alg) {a : Action} (hg : a.Guard alg s)
    (ha : a.Selects) : (a.apply alg s).Epochs none := by
  cases a with
  | drop p =>
      have hp : p ∈ leftIn ((s.block p).signalEvents p) := by
        rw [(signalEvents_left hg.2).2]
        simp
      refine h.extend hinv ((s.block p).signalEvents p) (fun e he => ?_) rfl (fun _ hr => hr)
        (fun r hr => ?_) (fun r _ _ => ?_) fun _ hr hr' => absurd hr hr'
      · unfold PCB.signalEvents at he
        split at he
        · rw [List.mem_singleton.mp he]
          trivial
        · split at he
          · rw [List.mem_singleton.mp he]
            trivial
          · exact nomatch he
      · by_cases hrp : r = p
        · rw [hrp]
          exact Or.inr (mem_leftIn hp)
        · exact Or.inl (List.mem_filter.mpr ⟨hr, by simpa using hrp⟩)
      · exact modify_field PCB.counter (handled_counter _) r
  | edit p e =>
      cases e with
      | clearResume => exact h.modify hinv fun _ _ => rfl
      | _ => exact absurd ha id
  | recharge => exact h.recharge hinv hg.2.2
  | _ => exact absurd ha id

/-- A dispatch to a process that the epoch has not served yet, or to init. -/
theorem dispatch (h : s.Epochs none) (hinv : s.Inv .priorityAging) {next : Option PcbPtr}
    {quantum : Option Int} (hg : (Action.dispatch next quantum).Guard .priorityAging s) :
    ((Action.dispatch next quantum).apply .priorityAging s).Epochs
      (some (next.getD .initProcess)) := by
  obtain ⟨r, hr⟩ : ∃ r, r = next.getD .initProcess := ⟨_, rfl⟩
  obtain ⟨s', hs'⟩ : ∃ s', s' = (Action.dispatch next quantum).apply .priorityAging s := ⟨_, rfl⟩
  have htrace : s'.trace = s.trace ++ [.dispatched r] := by
    rw [hs', hr]
    cases next <;> exact switchTo_trace
  have hreg : ∀ p, s'.Registered p ↔ s.Registered p := by
    intro p
    rw [hs']
    cases next <;> exact registered_congr switchTo_processes
  have hcounter : ∀ p, p ≠ r → (s'.block p).counter = (s.block p).counter := by
    intro p hp
    rw [hs']
    cases next with
    | none => exact switchTo_field PCB.counter (fun _ _ => rfl) p
    | some q =>
        have hpq : p ≠ q := fun he => hp (he.trans hr.symm)
        refine (switchTo_field PCB.counter (fun _ _ => rfl) p).trans ?_
        exact congrArg PCB.counter (modify_block_of_ne hpq)
  have hqueue : ∀ p ∈ s.queue .readyQueue, p ≠ r → p ∈ s'.queue .readyQueue := by
    intro p hp hpr
    rw [hs']
    cases next with
    | none =>
        rw [hg.1] at hp
        exact nomatch hp
    | some q =>
        have hpq : p ≠ q := fun he => hpr (he.trans hr.symm)
        refine (congrFun switchTo_queue _).symm ▸ ?_
        exact List.mem_filter.mpr ⟨hp, by simpa using hpq⟩
  have hregistered : s.Registered r := by
    rw [hr]
    cases next with
    | none => exact hinv.table.registered_init
    | some q => exact (hinv.linked_registered hg.1).1
  -- The process that is dispatched has a positive counter, unless it is init.
  have hfresh : ∀ l u, epochOf s.trace = some (l, u) → r ≠ .initProcess →
      .dispatched r ∉ u := by
    intro l u hu hne hmem
    cases next with
    | none => exact hne hr
    | some q =>
        obtain rfl : r = q := hr
        have hle := (h.spent l u hu r hmem).2 (by simp)
        have hpos := hg.2.2.2 rfl
        omega
  have hwithin : ∀ e ∈ [KernelEvent.dispatched r], e.Within := by simp [KernelEvent.Within]
  have hepoch : ∀ {l u}, epochOf s'.trace = some (l, u) →
      ∃ u', epochOf s.trace = some (l, u') ∧ u = u' ++ [.dispatched r] := by
    intro l u hu
    rw [htrace, epochOf_append hwithin] at hu
    obtain ⟨⟨l', u'⟩, hu', heq⟩ := Option.map_eq_some_iff.mp hu
    obtain ⟨rfl, rfl⟩ := Prod.mk.inj heq
    exact ⟨u', hu', rfl⟩
  rw [← hs', ← hr]
  refine ⟨?_, ?_, ?_, ?_, ?_⟩
  · intro t l' v hsplit
    rw [htrace] at hsplit
    obtain ⟨w, hw⟩ := recharged_mem_append hwithin hsplit
    exact h.closed t l' w hw
  · intro l u hu p hp
    obtain ⟨u', hu', rfl⟩ := hepoch hu
    by_cases hpr : p = r
    · subst hpr
      rw [List.count_append, List.count_eq_zero.mpr (hfresh l u' hu' hp)]
      simp
    · have hzero : [KernelEvent.dispatched r].count (.dispatched p) = 0 := by
        refine List.count_eq_zero.mpr ?_
        simp [hpr]
      rw [List.count_append, hzero]
      exact h.once l u' hu' p hp
  · intro l u hu p hp
    obtain ⟨u', hu', rfl⟩ := hepoch hu
    by_cases hpr : p = r
    · exact Or.inl ⟨.dispatched r, by simp, Or.inl (by rw [hpr])⟩
    · rcases h.waiting l u' hu' p hp with hserved | ⟨hq, hpos, -⟩
      · exact Or.inl hserved.append_left
      · refine Or.inr ⟨hqueue p hq hpr, by rw [hcounter p hpr]; exact hpos, ?_⟩
        simpa using fun he => hpr (he : r = p).symm
  · intro l u hu p hp
    obtain ⟨u', hu', rfl⟩ := hepoch hu
    rw [hreg]
    by_cases hpr : p = r
    · subst hpr
      exact ⟨hregistered, fun hx => absurd rfl hx⟩
    · have hp' : .dispatched p ∈ u' := by simpa [hpr] using hp
      obtain ⟨hp'', hle⟩ := h.spent l u' hu' p hp'
      exact ⟨hp'', fun _ => by rw [hcounter p hpr]; exact hle (by simp)⟩
  · intro p hp hx
    have hpr : p ≠ r := fun he => hx (by rw [he])
    rw [hcounter p hpr]
    exact h.counters p ((hreg p).mp hp) (by simp)

end Sched.Epochs

/-! ### Runs -/

section Runs
variable {s s' : Sched} {k : Kernel}

/-- The opening of a selection function. -/
theorem Sched.Epochs.requeued (h : s.Epochs none) (hinv : s.Inv .priorityAging) :
    (s.requeued .priorityAging).Epochs none := by
  have hedit := h.modify hinv (p := s.currentProcess) (f := (Edit.preempt 1).apply)
    fun _ _ => rfl
  have hinv' : (s.modify s.currentProcess (Edit.preempt 1).apply).Inv .priorityAging :=
    hinv.edit (e := .preempt 1) rfl
  unfold Sched.requeued
  dsimp only
  split
  · exact hedit.enqueue hinv' _
  · exact hedit

/-- A call of the selection function. -/
theorem PickExec.epochs {s₁ s₂ s₃ : Sched} {as : List Action} {next : Option PcbPtr}
    {quantum : Option Int} (h : PickExec .priorityAging s₁ as s₂ next quantum s₃)
    (hinv : s₁.Inv .priorityAging) (hepochs : s₁.Epochs none) :
    s₃.Epochs (some s₃.currentProcess) := by
  have hsearch : s₂.Inv .priorityAging ∧ s₂.Epochs none :=
    h.exec.invariant (A := Action.Selects)
      (P := fun s => s.Inv .priorityAging ∧ s.Epochs none)
      (fun s a ha hg ⟨hi, he⟩ => ⟨hi.apply hg, he.select hi hg ha⟩) h.selects
      ⟨inv_requeued hinv, hepochs.requeued hinv⟩
  have hdispatch := hsearch.2.dispatch hsearch.1 h.guard
  rw [h.currentProcess, h.final]
  exact hdispatch.modify (hsearch.1.apply h.guard) fun _ _ => rfl

/-- Every kernel step. -/
theorem StepExec.epochs {dep : Departure} {as : List Action}
    (h : StepExec .priorityAging dep s as s') (hinv : s.Inv .priorityAging)
    (hepochs : s.Epochs (some s.currentProcess)) : s'.Epochs (some s'.currentProcess) := by
  have hcode : ∀ {t : Sched} {bs : List Action}, Exec .priorityAging s bs t →
      (∀ a ∈ bs, a.IsCode) → t.Inv .priorityAging ∧ t.Epochs (some t.currentProcess) := by
    intro t bs hexec hall
    exact hexec.invariant (A := Action.IsCode)
      (P := fun s => s.Inv .priorityAging ∧ s.Epochs (some s.currentProcess))
      (fun s a ha hg ⟨hi, he⟩ => ⟨hi.apply hg, he.apply hi hg ha⟩) hall ⟨hinv, hepochs⟩
  cases h with
  | returns hexec hstays => exact (hcode hexec fun a ha => (hstays a ha).isCode).2
  | schedules hexec hall hcounter hpick =>
      obtain ⟨hinv₁, hepochs₁⟩ := hcode hexec fun a ha => (hall a ha).1
      refine hpick.epochs hinv₁ (hepochs₁.settle fun p hp => ?_)
      rw [← Option.some.inj hp]
      exact hcounter

theorem epochs_boot : Sched.boot.Epochs (some Sched.boot.currentProcess) where
  closed t l' v h := by simp [Sched.boot] at h
  once l u h := nomatch h
  waiting l u h := nomatch h
  spent l u h := nomatch h
  counters p hp hx := absurd (congrArg some (Sched.registered_boot.mp hp).symm) hx

/-- Between two consecutive recharges, priority aging dispatches no process other than init
twice, and every process that was queued at the first recharge is dispatched, killed or
stopped before the second. -/
theorem epoch_fair (hk : Kernel.Reachable .priorityAging k) {t u v : List KernelEvent}
    {l l' : List PcbPtr} (htrace : k.trace = t ++ .recharged l :: u ++ .recharged l' :: v)
    (hu : ∀ e ∈ u, ∀ m, e ≠ .recharged m) :
    (∀ p, p ≠ .initProcess → u.count (.dispatched p) ≤ 1)
    ∧ ∀ p ∈ l, ∃ e ∈ u, e = .dispatched p ∨ e = .killed p ∨ e = .stopped p := by
  obtain ⟨s, hs, hepochs⟩ := reachable_invariant (P := fun s => s.Epochs (some s.currentProcess))
    epochs_boot (fun _ hinv _ hexec h => hexec.epochs hinv h) hk
  have hwithin : ∀ e ∈ u, e.Within := by
    intro e he
    cases e with
    | recharged m => exact absurd rfl (hu _ he m)
    | _ => trivial
  rw [hs.refines.trace] at htrace
  have hfair := hepochs.closed _ _ _ htrace l u (epochOf_open hwithin)
  exact ⟨hfair.once, hfair.served⟩

/-- Two processes that yield in turn. -/
theorem epoch_fair_yields :
    ∃ k t v, (Kernel.boot fun _ => 0).run .priorityAging [.kernelMain (some 0), .timerTick,
        .moveToUserMode .empty .zeroed, .fork (some 1) .empty, .yield, .yield, .yield, .yield]
        = some k
      ∧ k.trace = t ++ KernelEvent.recharged [.page 0, .page 1] :: [KernelEvent.dispatched (.page 0),
          .enqueued .readyQueue (.page 0), .dispatched (.page 1), .enqueued .readyQueue (.page 1)]
          ++ KernelEvent.recharged [.page 0, .page 1] :: v
      ∧ (∀ p, p ≠ .initProcess → [KernelEvent.dispatched (.page 0),
          .enqueued .readyQueue (.page 0), .dispatched (.page 1),
          .enqueued .readyQueue (.page 1)].count (.dispatched p) ≤ 1)
      ∧ ∀ p ∈ [PcbPtr.page 0, .page 1], ∃ e ∈ [KernelEvent.dispatched (.page 0),
          .enqueued .readyQueue (.page 0), .dispatched (.page 1),
          .enqueued .readyQueue (.page 1)],
          e = .dispatched p ∨ e = .killed p ∨ e = .stopped p := by
  have hrun : ((Kernel.boot fun _ => 0).run .priorityAging [.kernelMain (some 0), .timerTick,
      .moveToUserMode .empty .zeroed, .fork (some 1) .empty, .yield, .yield, .yield,
      .yield]).map (fun k => decide (k.trace = k.trace.take 6
        ++ KernelEvent.recharged [.page 0, .page 1] :: [KernelEvent.dispatched (.page 0),
          .enqueued .readyQueue (.page 0), .dispatched (.page 1), .enqueued .readyQueue (.page 1)]
        ++ KernelEvent.recharged [.page 0, .page 1] :: k.trace.drop 12)) = some true := by decide +kernel
  obtain ⟨k, hk, htrace⟩ := Option.map_eq_some_iff.mp hrun
  have htrace := of_decide_eq_true htrace
  exact ⟨k, _, _, hk, htrace, epoch_fair (reachable_run (.boot _) hk) htrace (by simp)⟩

end Runs

end DemoOS
