import DemoOS.Proofs.Scheduler.Levels
import DemoOS.Proofs.Scheduler.ShortestJob

/-!
# `DemoOS.Proofs.Scheduler.LevelQueues`: levels and queues agree

A multilevel algorithm keeps the level of a process apart from the queue that the process is
linked in. The tick moves levels and queues together, an insertion reads the level, and
`sched_set_param` writes it without moving the process. `Tuned` records when that happened last,
and `multilevel_levels` says that a process that has been inserted since then is in the queue of
its level, and that a selection serves the queues by level and each in the order of insertion.
-/

set_option autoImplicit false

namespace DemoOS

open Kernel Support

/-! ### Insertions and removals -/

section Insertions
variable {alg : SchedAlgorithm} {s s' : Sched} {as : List Action} {a : Action} {p : PcbPtr}

/-- The multilevel algorithms insert at the tail. -/
theorem place_multilevel (halg : alg.mlPolicy ≠ none) (block : PcbPtr → PCB) (p : PcbPtr)
    (l : List PcbPtr) : alg.place block p l = l ++ [p] := by
  cases alg with
  | mlq | mlfq => rfl
  | _ => exact absurd rfl halg

/-- The process goes from where it is, if it is linked, to the tail of the queue `q`. -/
structure Sched.MovesTo (s s' : Sched) (q : QueueId) (p : PcbPtr) : Prop where
  trace : s'.trace = s.trace ++ [.enqueued q p]
  joined : s'.queue q = (s.unlink p).queue q ++ [p]
  others : ∀ q', q' ≠ q → s'.queue q' = (s.unlink p).queue q'

/-- No process joins a queue. -/
structure Sched.OnlyLeaves (s s' : Sched) (es : List KernelEvent) : Prop where
  trace : s'.trace = s.trace ++ es
  links : ∀ e ∈ es, ∀ p, e.links p = false
  queue : ∀ q, (s'.queue q).Sublist (s.queue q)

namespace Sched

theorem OnlyLeaves.of_queue (hqueue : s'.queue = s.queue) (htrace : s'.trace = s.trace) :
    s.OnlyLeaves s' [] :=
  ⟨by rw [htrace, List.append_nil], nofun, fun q => by rw [hqueue]⟩

theorem movesTo_enqueue (halg : alg.mlPolicy ≠ none) (hp : ¬ s.IsLinked p) :
    s.MovesTo (s.enqueue alg p) (s.queueOf alg p) p := by
  have hfree : ∀ q, (s.unlink p).queue q = s.queue q := fun q =>
    filter_ne_eq_self fun hq => hp ⟨q, hq⟩
  exact {
    trace := rfl
    joined := by
      rw [hfree, enqueue]
      simp only [Function.update_self]
      exact place_multilevel halg s.block p _
    others := fun q' hq' => by
      rw [hfree, enqueue]
      exact Function.update_of_ne hq' _ _ }

end Sched

/-- An action of a multilevel algorithm links one process or none. -/
theorem Action.queue_cases (halg : alg.mlPolicy ≠ none) (hinv : s.Inv alg)
    (hg : a.Guard alg s) :
    (∃ es, s.OnlyLeaves (a.apply alg s) es) ∨ ∃ q p, s.MovesTo (a.apply alg s) q p := by
  have hfree : ∀ {r}, s.state r ≠ .ready → ¬ s.IsLinked r := fun hst hr =>
    hst (hinv.linked_ready hr)
  cases a with
  | edit | leave | setLevel | resetLevels | own | clear =>
      exact Or.inl ⟨[], .of_queue rfl rfl⟩
  | wake r =>
      refine Or.inr ⟨_, r, Sched.movesTo_enqueue halg (hfree fun hst => ?_)⟩
      rw [Action.Guard, hst] at hg
      cases hg.2
  | promote q r =>
      refine Or.inr ⟨.mlQueue 0, r, rfl, ?_, fun q' hq' => ?_⟩
      · exact Function.update_self (QueueId.mlQueue 0) _ (s.unlink r).queue
      · exact Function.update_of_ne hq' _ (s.unlink r).queue
  | register r cloneFlags mm =>
      have hr : ¬ s.IsLinked r := fun hr => hg.1 (hinv.linked_registered hr).1
      have hmoves := Sched.movesTo_enqueue (s := s.addToTable r
        (childPcb (s.block s.currentProcess) cloneFlags mm s.nProcesses)
        (startLevel alg (s.block s.currentProcess).queuePriority)) halg hr
      exact Or.inr ⟨_, r, hmoves.trace, hmoves.joined, hmoves.others⟩
  | note e =>
      refine Or.inl ⟨[e], rfl, fun e' he' p => ?_, fun q => List.Sublist.refl _⟩
      rw [List.mem_singleton.mp he']
      cases e <;> first | rfl | cases hg
  | requeue =>
      refine Or.inr ⟨_, _, Sched.movesTo_enqueue halg (hfree ?_)⟩
      rw [hg.2]
      decide
  | drop r =>
      exact Or.inl ⟨_, rfl, fun e he p => links_signalEvents e he, fun q => List.filter_sublist⟩
  | recharge =>
      refine Or.inl ⟨[.recharged (s.queue .readyQueue)], rfl, fun e he p => ?_,
        fun q => List.Sublist.refl _⟩
      rw [List.mem_singleton.mp he]
      rfl
  | dispatch next quantum =>
      refine Or.inl ⟨[.dispatched (next.getD .initProcess)], ?_, fun e he p => ?_, fun q => ?_⟩
      · cases next <;> exact Sched.switchTo_trace
      · rw [List.mem_singleton.mp he]
        rfl
      · cases next with
        | none => rw [Action.apply, Sched.switchTo_queue]
        | some r =>
            rw [Action.apply, Sched.switchTo_queue]
            exact List.filter_sublist

/-- A linked process was linked there before and has not been inserted since, or it has been
inserted there. -/
theorem Exec.linked_cases (halg : alg.mlPolicy ≠ none) (hinv : s.Inv alg)
    (h : Exec alg s as s') :
    ∃ es, s'.trace = s.trace ++ es ∧ ∀ q p, p ∈ s'.queue q →
      p ∈ s.queue q ∧ (∀ e ∈ es, e.links p = false) ∨ .enqueued q p ∈ es := by
  refine (h.preserves (P := fun t => ∃ es, t.trace = s.trace ++ es ∧ ∀ q p, p ∈ t.queue q →
    p ∈ s.queue q ∧ (∀ e ∈ es, e.links p = false) ∨ .enqueued q p ∈ es) ?_ hinv
    ⟨[], (List.append_nil _).symm, fun q p hp => Or.inl ⟨hp, nofun⟩⟩).2
  rintro t a htinv hg ⟨es, htrace, hlinked⟩
  rcases Action.queue_cases halg htinv hg with ⟨fs, hleaves⟩ | ⟨q, r, hmoves⟩
  · refine ⟨es ++ fs, by rw [hleaves.trace, htrace, List.append_assoc], fun q p hp => ?_⟩
    rcases hlinked q p ((hleaves.queue q).subset hp) with ⟨hbefore, hes⟩ | hmem
    · refine Or.inl ⟨hbefore, fun e he => ?_⟩
      exact (List.mem_append.mp he).elim (hes e) fun he => hleaves.links e he p
    · exact Or.inr (List.mem_append_left fs hmem)
  · refine ⟨es ++ [.enqueued q r], by rw [hmoves.trace, htrace, List.append_assoc],
      fun q' p hp => ?_⟩
    by_cases hpr : p = r ∧ q' = q
    · obtain ⟨rfl, rfl⟩ := hpr
      exact Or.inr (List.mem_append_right es List.mem_cons_self)
    · have hold : p ∈ (t.unlink r).queue q' := by
        by_cases hq : q' = q
        · subst hq
          rw [hmoves.joined] at hp
          refine (List.mem_append.mp hp).resolve_right fun hp => hpr ?_
          exact ⟨List.mem_singleton.mp hp, rfl⟩
        · rwa [hmoves.others q' hq] at hp
      obtain ⟨hold, hne⟩ := List.mem_filter.mp hold
      have hne : r ≠ p := fun he => by simp [he] at hne
      rcases hlinked q' p hold with ⟨hbefore, hes⟩ | hmem
      · refine Or.inl ⟨hbefore, fun e he => ?_⟩
        refine (List.mem_append.mp he).elim (hes e) fun he => ?_
        rw [List.mem_singleton.mp he]
        exact links_of_ne hne
      · exact Or.inr (List.mem_append_left _ hmem)

/-- Every queue is in the order of insertion. -/
def Sched.InArrivalOrder (s : Sched) : Prop :=
  ∀ q, (s.queue q).Pairwise fun a b => enqueueTime s.trace a < enqueueTime s.trace b

/-- Every action keeps the order. -/
theorem Sched.InArrivalOrder.apply (halg : alg.mlPolicy ≠ none) (hinv : s.Inv alg)
    (hg : a.Guard alg s) (h : s.InArrivalOrder) : (a.apply alg s).InArrivalOrder := by
  intro q
  rcases Action.queue_cases halg hinv hg with ⟨es, hleaves⟩ | ⟨q', p, hmoves⟩
  · refine ((h q).sublist (hleaves.queue q)).imp fun {a b} hab => ?_
    rw [hleaves.trace, enqueueTime_append fun e he => hleaves.links e he a,
      enqueueTime_append fun e he => hleaves.links e he b]
    exact hab
  · rw [hmoves.trace]
    have hkept : ∀ r, r ≠ p →
        enqueueTime (s.trace ++ [.enqueued q' p]) r = enqueueTime s.trace r := fun r hr =>
      enqueueTime_concat (links_of_ne hr.symm)
    -- Those who stay have their times.
    have hne : ∀ {r}, r ∈ (s.unlink p).queue q → r ≠ p := fun hr => by
      simpa using (List.mem_filter.mp hr).2
    have hold : ((s.unlink p).queue q).Pairwise fun a b =>
        enqueueTime (s.trace ++ [.enqueued q' p]) a < enqueueTime (s.trace ++ [.enqueued q' p]) b := by
      refine ((h q).sublist List.filter_sublist).imp_of_mem fun {a b} ha hb hab => ?_
      rw [hkept a (hne ha), hkept b (hne hb)]
      exact hab
    by_cases hq : q = q'
    · subst hq
      rw [hmoves.joined]
      refine List.pairwise_append.mpr ⟨hold, List.pairwise_singleton _ _, fun a ha b hb => ?_⟩
      rw [List.mem_singleton.mp hb, hkept a (hne ha), enqueueTime_enqueued]
      exact Nat.lt_succ_of_le enqueueTime_le
    · rw [hmoves.others q hq]
      exact hold

end Insertions

/-! ### Levels -/

namespace Kernel

/-- `queue_level[process->pid]`. -/
def level (k : Kernel) (p : PcbPtr) : Nat := k.queueLevel (k.pcb p).pid

/-- Every insertion since `k` was into the queue of the level that the process has in `k'`. -/
def JoinsLevel (k k' : Kernel) : Prop :=
  ∃ es, k'.trace = k.trace ++ es ∧ ∀ q p, KernelEvent.enqueued q p ∈ es → q = .mlQueue (k'.level p)

/-- `set_sched_param` was called for the queue of the process. -/
def Retunes (k : Kernel) : Trap → PcbPtr → Bool
  | .setSchedParam pid param _, p =>
      param = SCHED_PARAM_QUEUE_PRIORITY ∧ k.searchProcess pid = some p
  | _, _ => false

/-- The states of runs. `T p` is the length of the history when `set_sched_param` was last called
for the queue of `p`, and 0 before the first call. -/
inductive Tuned (alg : SchedAlgorithm) : Kernel → (PcbPtr → Nat) → Prop
  | boot (timerClo : Nat → BitVec 32) : Tuned alg (boot timerClo) fun _ => 0
  | step {k k' : Kernel} {T : PcbPtr → Nat} (t : Trap) : Tuned alg k T → k.step alg t = some k' →
      Tuned alg k' fun p => if k.Retunes t p then k.trace.length else T p

/-- A linked process that has been inserted since is in the queue of its level. -/
def LevelsAgree (k : Kernel) (T : PcbPtr → Nat) : Prop :=
  ∀ q p, p ∈ k.linkedIn (.mlQueue q) → T p < enqueueTime k.trace p → k.level p = q

section Tuned
variable {alg : SchedAlgorithm} {k k' : Kernel} {T : PcbPtr → Nat}

theorem Tuned.reachable (hk : Tuned alg k T) : Reachable alg k := by
  induction hk with
  | boot timerClo => exact .boot timerClo
  | step t _ hstep ih => exact .step t ih hstep

/-- Every state of a run has such times. -/
theorem Reachable.tuned (hk : Reachable alg k) : ∃ T, Tuned alg k T := by
  induction hk with
  | boot timerClo => exact ⟨_, .boot timerClo⟩
  | step t _ hstep ih =>
      obtain ⟨T, hT⟩ := ih
      exact ⟨_, .step t hT hstep⟩

end Tuned

end Kernel

section Agreement
variable {alg : SchedAlgorithm} {k k₁ : Kernel} {s s₁ : Sched} {as : List Action}
  {T T' : PcbPtr → Nat}

/-- Code that inserts at the levels and keeps the level of whom it leaves where he is. -/
theorem levelsAgree_of_exec (halg : alg.mlPolicy ≠ none) (hk : Refines k s) (hinv : s.Inv alg)
    (hk₁ : Refines k₁ s₁) (hexec : Exec alg s as s₁) (hjoins : k.JoinsLevel k₁)
    (hkept : ∀ p, s.IsLinked p → T' p < enqueueTime k.trace p →
      T p < enqueueTime k.trace p ∧ k₁.level p = k.level p)
    (h : k.LevelsAgree T) : k₁.LevelsAgree T' := by
  intro q p hp htime
  rw [hk₁.linkedIn_eq (hinv.exec hexec)] at hp
  obtain ⟨es, htrace, hcases⟩ := hexec.linked_cases halg hinv
  obtain ⟨fs, htrace', hlevels⟩ := hjoins
  have hfs : fs = es := by
    rw [hk₁.trace, htrace, hk.trace] at htrace'
    exact (List.append_cancel_left htrace').symm
  subst hfs
  rcases hcases _ p hp with ⟨hbefore, hes⟩ | hmem
  · rw [hk₁.trace, htrace, enqueueTime_append hes, ← hk.trace] at htime
    obtain ⟨htime, hlevel⟩ := hkept p ⟨_, hbefore⟩ htime
    rw [hlevel]
    exact h q p (by rw [hk.linkedIn_eq hinv]; exact hbefore) htime
  · exact (QueueId.mlQueue.inj (hlevels _ p hmem)).symm

end Agreement

/-! ### System calls and the UART interrupt -/

namespace Kernel

section Code
variable {alg : SchedAlgorithm} {k k' k'' : Kernel} {p : PcbPtr}

theorem SameLevels.level (h : SameLevels k k') (p : PcbPtr) : k'.level p = k.level p := by
  unfold Kernel.level
  rw [h.queueLevel, h.pid]

theorem JoinsLevel.of_trace (h : k'.trace = k.trace) : k.JoinsLevel k' :=
  ⟨[], by rw [h, List.append_nil], nofun⟩

/-- Code that writes no level goes on. -/
theorem JoinsLevel.then (h : k.JoinsLevel k') (h' : SameLevels k' k'') : k.JoinsLevel k'' := by
  obtain ⟨es, htrace, hes⟩ := h
  obtain ⟨fs, htrace', hfs⟩ := h'.enqueued
  refine ⟨es ++ fs, by rw [htrace', htrace, List.append_assoc], fun q p hmem => ?_⟩
  rw [h'.level]
  exact (List.mem_append.mp hmem).elim (hes q p) (hfs q p)

theorem SameLevels.joinsLevel (h : SameLevels k k') : k.JoinsLevel k' :=
  (JoinsLevel.of_trace rfl).then h

/-- The new process is put in the queue of its level. -/
theorem addProcessToScheduler_joinsLevel (halg : alg.mlPolicy ≠ none)
    (h : k.addProcessToScheduler alg p = some k') : k.JoinsLevel k' := by
  unfold addProcessToScheduler at h
  dsimp only at h
  split at h
  · cases h
  · obtain rfl := Option.some.inj h
    have hcounted : ∀ k₁ k₂ : Kernel, k₁.trace = k.trace → SameLevels k₁ k₂ →
        k.JoinsLevel { k₂ with nProcesses := k₂.nProcesses + 1 } :=
      fun _ _ htrace hsame => (JoinsLevel.of_trace htrace).then (hsame.trans (.of_trace rfl (fun _ => rfl) rfl))
    -- The table and the levels grow first.
    refine hcounted { k with
      processes := Function.update k.processes (k.pcb p).pid (some p)
      queueLevel := Function.update k.queueLevel (k.pcb p).pid
        (startLevel alg (k.pcb p).queuePriority) } _ rfl ?_
    split
    · exact .enqueueProcess halg _ p
    · exact .refl _

theorem copyProcess_joinsLevel (halg : alg.mlPolicy ≠ none) (k : Kernel) (cloneFlags : BitVec 64)
    (page : Option Nat) (mm : MmStruct) :
    k.JoinsLevel (k.copyProcess alg cloneFlags page mm).1 := by
  unfold copyProcess
  dsimp only
  split
  · exact .of_trace rfl
  · split
    · exact .of_trace rfl
    · split
      · exact .of_trace rfl
      · next k₁ hk₁ =>
          obtain ⟨es, htrace, hes⟩ := addProcessToScheduler_joinsLevel halg hk₁
          have hjoins : k.JoinsLevel k₁ := ⟨es, htrace, hes⟩
          exact hjoins.then (SameLevels.modifyPcb (f := fun b =>
            { b with preemptDisabled := b.preemptDisabled - 1 }) rfl)

/-! ### The tick -/

theorem enqueueProcessTo_queues_of_ne (k : Kernel) {q q' : QueueId} (p : PcbPtr) (h : q' ≠ q) :
    (k.enqueueProcessTo q p).queues q' = k.queues q' := by
  unfold enqueueProcessTo
  dsimp only
  split
  · rfl
  · split
    · exact setQueue_queues_of_ne _ _ h
    · exact setQueue_queues_of_ne _ _ h

/-- The boost empties a lower queue and leaves the others but the top one. -/
theorem boostQueue_queues {q fuel : Nat} (h : k.boostQueue q fuel = some k') :
    (k'.queues (.mlQueue q)).head = none
      ∧ ∀ q', q' ≠ q → q' ≠ 0 → k'.queues (.mlQueue q') = k.queues (.mlQueue q') := by
  induction fuel generalizing k with
  | zero => exact nomatch h
  | succ fuel ih =>
      unfold boostQueue dequeueProcessFrom at h
      dsimp only at h
      cases hhead : (k.queues (.mlQueue q)).head with
      | none =>
          rw [hhead] at h
          obtain rfl := Option.some.inj h
          exact ⟨hhead, fun _ _ _ => rfl⟩
      | some p =>
          rw [hhead] at h
          obtain ⟨hempty, hothers⟩ := ih h
          refine ⟨hempty, fun q' hne hne' => (hothers q' hne hne').trans ?_⟩
          rw [enqueueProcessTo_queues_of_ne _ _ (by simpa using hne')]
          exact setQueue_queues_of_ne _ _ (by simpa using hne)

theorem boostQueues_queues {levels : List Nat} (hlevels : ∀ q ∈ levels, q ≠ 0)
    (h : levels.foldlM (fun k q => boostQueue q (N_PROCESSES + 1) k) k = some k') :
    (∀ q ∈ levels, (k'.queues (.mlQueue q)).head = none)
      ∧ ∀ q, q ∉ levels → q ≠ 0 → k'.queues (.mlQueue q) = k.queues (.mlQueue q) := by
  induction levels generalizing k with
  | nil =>
      obtain rfl := Option.some.inj h
      exact ⟨nofun, fun _ _ _ => rfl⟩
  | cons q levels ih =>
      obtain ⟨k₁, hone, hrest⟩ := Option.bind_eq_some_iff.mp h
      obtain ⟨hempty₁, hothers₁⟩ := boostQueue_queues hone
      obtain ⟨hempty, hothers⟩ := ih (fun q' hq' => hlevels q' (List.mem_cons_of_mem q hq')) hrest
      refine ⟨fun q' hq' => ?_, fun q' hq' hne => ?_⟩
      · by_cases hin : q' ∈ levels
        · exact hempty q' hin
        · -- The queues still to come do not touch this one.
          obtain rfl := (List.mem_cons.mp hq').resolve_right hin
          rw [hothers q' hin (hlevels q' hq')]
          exact hempty₁
      · have hne₁ : q' ≠ q := fun he => hq' (he ▸ List.mem_cons_self)
        have hin : q' ∉ levels := fun hin => hq' (List.mem_cons_of_mem q hin)
        exact (hothers q' hin hne).trans (hothers₁ q' hne₁ hne)

/-- A boost that is due empties the lower queues. -/
theorem boost_queues {policy : MultilevelPolicy} (h : k.boost policy = some k')
    (hdue : k.BoostDue policy) {q : Nat} (hq : q ≠ 0) (hbound : q < policy.nLevels) :
    (k'.queues (.mlQueue q)).head = none := by
  have hcond : k.mlTicksSinceBoost + 1 ≥ policy.boostPeriod := hdue
  unfold boost at h
  dsimp only at h
  rw [if_pos hcond] at h
  obtain ⟨k₁, hmoved, hk'⟩ := Option.bind_eq_some_iff.mp h
  obtain rfl := Option.some.inj hk'
  have hlevels : ∀ q ∈ List.range' 1 (policy.nLevels - 1), q ≠ 0 := fun q hq => by
    have := (List.mem_range'_1.mp hq).1
    omega
  refine (boostQueues_queues hlevels hmoved).1 q (List.mem_range'_1.mpr ?_)
  omega

/-- A boost that is not due counts the tick. -/
theorem boost_of_not_due {policy : MultilevelPolicy} (hdue : ¬ k.BoostDue policy) :
    k.boost policy = some { k with mlTicksSinceBoost := k.mlTicksSinceBoost + 1 } :=
  if_neg hdue

theorem demote_queues (policy : MultilevelPolicy) (k : Kernel) :
    (k.demote policy).queues = k.queues ∧ (k.demote policy).trace = k.trace := by
  unfold demote
  dsimp only
  split <;> exact ⟨rfl, rfl⟩

/-- After `on_tick` a tick writes counters only. -/
theorem handleTimerTick_onTick {c : Control} (h : k.handleTimerTick alg = some (k', c)) :
    ∃ k₁, alg.onTick (k.modifyCurrent Edit.charge.apply) = some k₁ ∧ SameLevels k₁ k'
      ∧ k'.queues = k₁.queues ∧ k'.trace = k₁.trace := by
  obtain ⟨k₁, hcharged, h⟩ := Option.bind_eq_some_iff.mp h
  rw [charge_eq] at hcharged
  refine ⟨k₁, hcharged, ?_⟩
  split at h
  · obtain ⟨rfl, -⟩ := Prod.mk.inj (Option.some.inj h)
    exact ⟨.refl k₁, rfl, rfl⟩
  · obtain ⟨rfl, -⟩ := Prod.mk.inj (Option.some.inj h)
    exact ⟨.modifyPcb (f := fun b => b.withCounter 0) rfl, rfl, rfl⟩

theorem handleTimerTick_mlq {c : Control} (h : k.handleTimerTick .mlq = some (k', c)) :
    SameLevels k k' := by
  obtain ⟨k₁, htick, hsame, -⟩ := handleTimerTick_onTick h
  rw [onTick_mlq] at htick
  obtain rfl := Option.some.inj htick
  exact (SameLevels.modifyPcb (f := Edit.charge.apply) rfl).trans hsame

/-- A tick links nobody, unless the boost is due: it then leaves the lower queues empty. -/
theorem handleTimerTick_queues {c : Control} (h : k.handleTimerTick .mlfq = some (k', c)) :
    if k.BoostDue mlPolicyMlfq then
      ∀ q, q ≠ 0 → q < ML_MAX_LEVELS → (k'.queues (.mlQueue q)).head = none
    else k'.trace = k.trace := by
  obtain ⟨k₁, htick, -, hqueues, htrace⟩ := handleTimerTick_onTick h
  obtain ⟨k₂, hboost, hk₁⟩ : ∃ k₂, (k.modifyCurrent Edit.charge.apply).boost mlPolicyMlfq = some k₂
      ∧ demote mlPolicyMlfq k₂ = k₁ := by
    obtain ⟨k₂, hboost, hk₁⟩ := Option.bind_eq_some_iff.mp htick
    exact ⟨k₂, hboost, Option.some.inj hk₁⟩
  obtain ⟨hqueues', htrace'⟩ := demote_queues mlPolicyMlfq k₂
  rw [hqueues, htrace, ← hk₁, hqueues', htrace']
  split
  · next hdue => exact fun q hq hbound => boost_queues hboost hdue hq hbound
  · next hdue =>
      have hdue' : ¬ (k.modifyCurrent Edit.charge.apply).BoostDue mlPolicyMlfq := hdue
      rw [boost_of_not_due hdue'] at hboost
      rw [← Option.some.inj hboost]
      rfl

end Code

section Traps
variable {alg : SchedAlgorithm} {k k' : Kernel} {s : Sched} {T : PcbPtr → Nat} {c : Control}

/-- Empty in the pointers, empty in the list. -/
theorem linkedIn_of_head {q : QueueId} (h : (k.queues q).head = none) : k.linkedIn q = [] := by
  unfold linkedIn
  rw [h]
  rfl

/-- A linked process is not the current one, between two steps. -/
theorem pid_ne_current (hs : Settled alg k s) {p : PcbPtr} (hp : s.IsLinked p) :
    (k.pcb p).pid ≠ k.current.pid := by
  intro hpid
  obtain ⟨hreg, hne⟩ := hs.inv.linked_registered hp
  have hpids : ∀ r, (s.block r).pid = (k.pcb r).pid := fun r => by
    rw [hs.refines.block_eq]
    rfl
  have hcurrent : p = s.currentProcess := by
    refine hs.inv.table.pid_injective hreg hs.inv.cpu.current ?_
    rw [hpids, hpids, ← hs.refines.currentProcess]
    exact hpid
  have hready := hs.inv.linked_ready hp
  subst hcurrent
  exact nomatch hready.symm.trans (hs.running hne)

/-- Whoever is linked after the tick was linked before. -/
theorem handleTimerTick_exec (hs : Settled alg k s) (h : k.handleTimerTick alg = some (k', c)) :
    ∃ as s', Exec alg s as s' ∧ Refines k' s' ∧ ∀ p, s'.IsLinked p → s.IsLinked p := by
  obtain ⟨k₁, htick, as, s₁, hexec, -, hk₁, hblock, hproc, -⟩ := charge_does hs.refines hs.inv
  have hinv₁ := hs.inv.exec hexec
  have hlinked : ∀ p, s₁.IsLinked p → s.IsLinked p := by
    intro p hp
    have hreg := hinv₁.linked_registered hp
    have hready : s.state p = .ready := by
      rw [← hinv₁.linked_ready hp, Sched.state, Sched.state, hblock]
      exact (Sched.state_modify rfl).symm
    refine (hs.inv.queues.linked ?_ hreg.2).mp hready
    exact (Sched.registered_congr hproc).mp hreg.1
  obtain ⟨k₂, hcharged, h⟩ := Option.bind_eq_some_iff.mp h
  obtain rfl := Option.some.inj (hcharged.symm.trans htick)
  split at h
  · obtain ⟨rfl, -⟩ := Prod.mk.inj (Option.some.inj h)
    exact ⟨as, s₁, hexec, hk₁, hlinked⟩
  · obtain ⟨rfl, -⟩ := Prod.mk.inj (Option.some.inj h)
    have hexpired : Exec alg s₁ [.edit s₁.currentProcess .expire]
        (s₁.modify s₁.currentProcess Edit.expire.apply) := ⟨rfl, rfl⟩
    refine ⟨_, _, exec_append.mpr ⟨s₁, hexec, hexpired⟩, ?_, hlinked⟩
    rw [hk₁.currentProcess]
    exact hk₁.setCounter s₁.currentProcess 0

theorem handleTimerTick_levelsAgree (halg : alg.mlPolicy ≠ none) (hs : Settled alg k s)
    (h : k.handleTimerTick alg = some (k', c)) (hagree : k.LevelsAgree T) :
    k'.LevelsAgree T := by
  obtain ⟨as, s', hexec, hk', hlinked⟩ := handleTimerTick_exec hs h
  have hagrees : k.JoinsLevel k' → (∀ p, s.IsLinked p → k'.level p = k.level p) →
      k'.LevelsAgree T := fun hjoins hkept =>
    levelsAgree_of_exec halg hs.refines hs.inv hk' hexec hjoins
      (fun p hp htime => ⟨htime, hkept p hp⟩) hagree
  cases alg with
  | mlq =>
      have hsame := handleTimerTick_mlq h
      exact hagrees hsame.joinsLevel fun p _ => hsame.level p
  | mlfq =>
      have hlevel : ∀ p, s.IsLinked p →
          k'.level p = if k.BoostDue mlPolicyMlfq then 0 else k.level p := by
        intro p hp
        have hreg := (hs.inv.linked_registered hp).1
        have hpid : (k'.pcb p).pid = (k.pcb p).pid :=
          congrArg (fun b => b.pid) ((Scheduled.handleTimerTick h).block p).fixed
        have hslot := (hs.inv.table.slot_pid hreg).1
        rw [hs.refines.block_eq] at hslot
        have hbound : (k.pcb p).pid < N_PROCESSES := Nat.lt_of_lt_of_le hslot hs.inv.table.bound
        have hlevels : k.queueLevel (k.pcb p).pid < ML_MAX_LEVELS := by
          rw [hs.refines.queueLevel]
          exact hs.inv.queues.level _
        unfold level
        rw [hpid, handleTimerTick_levels h hbound hlevels,
          if_neg fun he => pid_ne_current hs hp he.2]
      have hqueues := handleTimerTick_queues h
      split at hqueues
      · next hdue =>
          intro q p hp _
          have hinv' := hs.inv.exec hexec
          have hmem : p ∈ s'.queue (.mlQueue q) := by rwa [← hk'.linkedIn_eq hinv']
          have hq : q = 0 := by
            by_contra hq
            have hbound : q < ML_MAX_LEVELS := (hinv'.queues.member hmem).2.2
            rw [linkedIn_of_head (hqueues q hq hbound)] at hp
            exact nomatch hp
          rw [hlevel p (hlinked p ⟨_, hmem⟩), if_pos hdue, hq]
      · next hdue =>
          refine hagrees (.of_trace hqueues) fun p hp => ?_
          rw [hlevel p hp, if_neg hdue]
  | _ => exact absurd rfl halg

/-! ### Steps -/

/-- The trap puts whom it inserts into the queue of his level. -/
theorem enter_joinsLevel (halg : alg.mlPolicy ≠ none) {t : Trap} (ht : t ≠ .timerTick)
    (h : k.enter alg t = some (k', c)) : k.JoinsLevel k' := by
  have hkept := SameLevels.keptByCode halg
  cases t with
  | timerTick => exact absurd rfl ht
  | kernelMain page =>
      obtain ⟨rfl, -⟩ := Prod.mk.inj (guarded h).2
      exact (copyProcess_joinsLevel halg k _ page _).then (hkept.suspendAt _ .idle)
  | fork page mm =>
      obtain ⟨rfl, -⟩ := Prod.mk.inj (guarded h).2
      exact (copyProcess_joinsLevel halg k 0 page mm).then (hkept.returnToUser _ _)
  | setSchedParam pid param value =>
      have hr := (guarded h).2
      unfold syscallSetSchedParam at hr
      refine .of_trace ?_
      split at hr
      · rw [← (Prod.mk.inj hr).1]
        rfl
      · rw [← (Prod.mk.inj hr).1]
        show (k.schedSetParam alg _ param value).1.trace = k.trace
        unfold schedSetParam
        split
        · rfl
        · split
          · split <;> rfl
          · split
            · split <;> rfl
            · split
              · split <;> rfl
              · rfl
  | _ => exact (SameLevels.of_ends (hkept.enter rfl h)).joinsLevel

/-- No trap but the tick and `set_sched_param` for its queue changes the level of a process. -/
theorem enter_level (halg : alg.mlPolicy ≠ none) (hs : Settled alg k s) {t : Trap}
    (ht : t ≠ .timerTick) (h : k.enter alg t = some (k', c)) {p : PcbPtr} (hp : k.IsProcess p)
    (hretunes : k.Retunes t p = false) : k'.level p = k.level p := by
  have hkept := SameLevels.keptByCode halg
  have hslot := (hs.inv.table.slot_pid (hs.refines.isProcess_iff.mp hp)).1
  have hbound : (k.pcb p).pid < k.nProcesses := by
    rw [hs.refines.block_eq] at hslot
    rw [hs.refines.nProcesses]
    exact hslot
  have hcopied : (k'.pcb p).pid = (k.pcb p).pid →
      (∀ pid param value, t ≠ .setSchedParam pid param value) → k'.level p = k.level p := by
    intro hpid hparam
    unfold level
    rw [hpid, enter_levels halg ht hparam h hbound]
  cases t with
  | timerTick => exact absurd rfl ht
  | kernelMain page =>
      refine hcopied ?_ nofun
      obtain ⟨⟨-, -, hfresh⟩, hr⟩ := guarded h
      obtain ⟨rfl, -⟩ := Prod.mk.inj hr
      have hpid := ((copyProcess_extends alg hfresh PF_KTHREAD .empty).1.block p hp).pid
      exact ((hkept.suspendAt _ .idle).pid p).trans hpid
  | fork page mm =>
      refine hcopied ?_ nofun
      obtain ⟨⟨-, hfresh⟩, hr⟩ := guarded h
      obtain ⟨rfl, -⟩ := Prod.mk.inj hr
      have hpid := ((copyProcess_extends alg hfresh 0 mm).1.block p hp).pid
      exact ((hkept.returnToUser _ _).pid p).trans hpid
  | setSchedParam pid param value =>
      have hr := (guarded h).2
      unfold syscallSetSchedParam at hr
      split at hr
      · obtain ⟨rfl, -⟩ := Prod.mk.inj hr
        exact (hkept.returnToUser k _).level p
      · next r hr' =>
          obtain ⟨rfl, -⟩ := Prod.mk.inj hr
          have hreturned := hkept.returnToUser (k.schedSetParam alg r param value).1
            (k.schedSetParam alg r param value).2
          refine (hreturned.level p).trans ?_
          have hpid := ((Served.schedSetParam alg k r param value).block p).pid
          unfold level
          rw [hpid]
          refine schedSetParam_levels k r param value ?_
          by_contra hboth
          obtain ⟨hsame, hparam⟩ := not_or.mp hboth
          -- The two have the same pid, so that it is the target's level.
          have hpr : p = r := by
            have hpids : ∀ x, (s.block x).pid = (k.pcb x).pid := fun x => by
              rw [hs.refines.block_eq]
              rfl
            refine hs.inv.table.pid_injective (hs.refines.isProcess_iff.mp hp)
              (hs.refines.isProcess_iff.mp (searchProcess_isProcess hr').1) ?_
            rw [hpids, hpids]
            exact not_not.mp hsame
          subst hpr
          simp [Retunes, not_not.mp hparam, hr'] at hretunes
  | _ => exact (SameLevels.of_ends (hkept.enter rfl h)).level p

/-- The code of a trap keeps the agreement. -/
theorem enter_levelsAgree (halg : alg.mlPolicy ≠ none) (hs : Settled alg k s) {t : Trap}
    (h : k.enter alg t = some (k', c)) (hagree : k.LevelsAgree T) :
    k'.LevelsAgree fun p => if k.Retunes t p then k.trace.length else T p := by
  by_cases ht : t = .timerTick
  · subst ht
    exact handleTimerTick_levelsAgree halg hs h hagree
  · obtain ⟨as, s₁, hcode⟩ := enter_code hs.refines hs.inv hs.running h
    refine levelsAgree_of_exec halg hs.refines hs.inv hcode.refines hcode.exec
      (enter_joinsLevel halg ht h) (fun p hp htime => ?_) hagree
    have hreg := hs.refines.isProcess_iff.mpr (hs.inv.linked_registered hp).1
    cases hretunes : k.Retunes t p with
    | false =>
        rw [hretunes] at htime
        exact ⟨htime, enter_level halg hs ht h hreg hretunes⟩
    | true =>
        rw [hretunes] at htime
        exact absurd htime (Nat.not_lt.mpr enqueueTime_le)

end Traps

end Kernel

/-! ### Selections -/

section Selections
variable {alg : SchedAlgorithm} {k k' : Kernel} {s s₁ s₂ s₃ : Sched} {as : List Action}
  {next : Option PcbPtr} {quantum : Option Int} {T : PcbPtr → Nat}

/-- A selection inserts nobody but the outgoing process, at his level. -/
theorem PickExec.joinsLevel (halg : alg.mlPolicy ≠ none) (hk : Refines k s₁)
    (hk' : Refines k' s₃) (h : PickExec alg s₁ as s₂ next quantum s₃) : k.JoinsLevel k' := by
  have hqueue : ∀ level, alg.queueAt level = .mlQueue level := by
    cases alg with
    | mlq | mlfq => exact fun _ => rfl
    | _ => exact absurd rfl halg
  have hall : s₃.queueLevel = s₁.queueLevel ∧ (∀ r, (s₃.block r).pid = (s₁.block r).pid)
      ∧ ∃ es, s₃.trace = s₁.trace ++ es ∧ ∀ q p, KernelEvent.enqueued q p ∈ es →
        q = .mlQueue (s₁.queueLevel (s₁.block p).pid) := by
    refine h.all.invariant (A := Action.IsPick) (P := fun t => t.queueLevel = s₁.queueLevel
      ∧ (∀ r, (t.block r).pid = (s₁.block r).pid)
      ∧ ∃ es, t.trace = s₁.trace ++ es ∧ ∀ q p, KernelEvent.enqueued q p ∈ es →
        q = .mlQueue (s₁.queueLevel (s₁.block p).pid)) ?_ h.isPick
      ⟨rfl, fun _ => rfl, [], (List.append_nil _).symm, fun _ _ h => absurd h List.not_mem_nil⟩
    rintro t a ha hg ⟨hlevel, hpid, es, htrace, hes⟩
    have hgrows : ∀ fs, (a.apply alg t).trace = t.trace ++ fs → (∀ q p,
        KernelEvent.enqueued q p ∈ fs → q = .mlQueue (s₁.queueLevel (s₁.block p).pid)) →
        ∃ es, (a.apply alg t).trace = s₁.trace ++ es ∧ ∀ q p, KernelEvent.enqueued q p ∈ es →
          q = .mlQueue (s₁.queueLevel (s₁.block p).pid) := fun fs hfs hmem =>
      ⟨es ++ fs, by rw [hfs, htrace, List.append_assoc], fun q p h =>
        (List.mem_append.mp h).elim (hes q p) (hmem q p)⟩
    -- Only the opening inserts.
    have hnone : ∀ {e : KernelEvent}, (∀ q p, e ≠ .enqueued q p) → ∀ q p,
        KernelEvent.enqueued q p ∈ [e] → q = .mlQueue (s₁.queueLevel (s₁.block p).pid) :=
      fun he q p h => absurd (List.mem_singleton.mp h).symm (he q p)
    cases a with
    | edit r e =>
        refine ⟨hlevel, fun p => ?_, es, htrace, hes⟩
        exact (Sched.modify_field PCB.pid (Sched.edit_pid e _) p).trans (hpid p)
    | requeue =>
        refine ⟨hlevel, fun p => ?_, hgrows _ rfl fun q p hmem => ?_⟩
        · exact (Sched.enqueue_field alg PCB.pid (fun _ _ => rfl) p).trans (hpid p)
        · obtain ⟨rfl, rfl⟩ := KernelEvent.enqueued.inj (List.mem_singleton.mp hmem)
          rw [Sched.queueOf, hqueue, hlevel, hpid]
    | drop r =>
        refine ⟨hlevel, fun p => ?_, hgrows _ rfl fun q p hmem => ?_⟩
        · exact (Sched.modify_field (s := t.unlink r) PCB.pid
            (PCB.handled_field PCB.pid (fun _ _ _ => rfl) _) p).trans (hpid p)
        · have hlinks : (KernelEvent.enqueued q p).links p = false := links_signalEvents _ hmem
          exact absurd hlinks (by simp [KernelEvent.links])
    | recharge =>
        refine ⟨hlevel, fun p => Eq.trans ?_ (hpid p), hgrows _ rfl (hnone fun _ _ h => by cases h)⟩
        simp only [Action.apply]
        split <;> rfl
    | dispatch next quantum =>
        cases next with
        | none =>
            refine ⟨?_, fun p => ?_, hgrows _ Sched.switchTo_trace (hnone fun _ _ h => by cases h)⟩
            · exact Sched.switchTo_queueLevel.trans hlevel
            · exact (Sched.switchTo_field PCB.pid (fun _ _ => rfl) p).trans (hpid p)
        | some r =>
            refine ⟨?_, fun p => ?_, hgrows _ Sched.switchTo_trace (hnone fun _ _ h => by cases h)⟩
            · exact Sched.switchTo_queueLevel.trans hlevel
            · refine (Sched.switchTo_field PCB.pid (fun _ _ => rfl) p).trans ?_
              exact (Sched.modify_field (s := t.unlink r) PCB.pid rfl p).trans (hpid p)
    | _ => exact absurd ha id
  obtain ⟨hlevel, hpid, es, htrace, hes⟩ := hall
  refine ⟨es, by rw [hk'.trace, htrace, hk.trace], fun q p hmem => ?_⟩
  have hpid' := hpid p
  rw [hk'.block_eq] at hpid'
  rw [hes q p hmem, level, hk'.queueLevel, hlevel, ← hpid']
  rfl

/-- A selection changes no level. -/
theorem pickNext_level (hk : Refines k s) (hinv : s.Inv alg) (hpick : alg.pickNext k = some k')
    (p : PcbPtr) : k'.level p = k.level p := by
  have hpid : (k'.pcb p).pid = (k.pcb p).pid :=
    congrArg (fun b => b.pid) ((Scheduled.pickNext hpick).block p).fixed
  rw [level, level, pickNext_levels hk hinv hpick, hpid]

/-- A selection keeps the agreement. -/
theorem pickNext_levelsAgree (halg : alg.mlPolicy ≠ none) (hk : Refines k s) (hinv : s.Inv alg)
    (hpick : alg.pickNext k = some k') (hagree : k.LevelsAgree T) : k'.LevelsAgree T := by
  obtain ⟨k₁, as, s₂, next, quantum, s₃, hpick', hexec, hs₃, -⟩ := pickNext_exec alg hk hinv
  obtain rfl := Option.some.inj (hpick'.symm.trans hpick)
  refine levelsAgree_of_exec halg hk hinv hs₃.refines hexec.all
    (hexec.joinsLevel halg hk hs₃.refines)
    (fun p _ htime => ⟨htime, pickNext_level hk hinv hpick p⟩) hagree

namespace Kernel

/-- A step keeps the agreement. -/
theorem step_levelsAgree (halg : alg.mlPolicy ≠ none) (hs : Settled alg k s) {t : Trap}
    (hstep : k.step alg t = some k') (hagree : k.LevelsAgree T) :
    k'.LevelsAgree fun p => if k.Retunes t p then k.trace.length else T p := by
  rcases step_cases hstep with henter | ⟨k₁, henter, hpick⟩
  · exact enter_levelsAgree halg hs henter hagree
  · obtain ⟨as, s₁, hcode⟩ := enter_code hs.refines hs.inv hs.running henter
    exact pickNext_levelsAgree halg hcode.refines (hs.inv.exec hcode.exec) hpick
      (enter_levelsAgree halg hs henter hagree)

/-- In every state of a run the levels and queues agree, and the queues are in the order of
insertion. -/
theorem Tuned.agrees (halg : alg.mlPolicy ≠ none) (hk : Tuned alg k T) :
    ∃ s, Settled alg k s ∧ s.InArrivalOrder ∧ k.LevelsAgree T := by
  induction hk with
  | boot timerClo =>
      refine ⟨_, settled_boot alg timerClo, fun q => List.Pairwise.nil, fun q p hp _ => ?_⟩
      rw [(settled_boot alg timerClo).refines.linkedIn_eq (Sched.inv_boot alg)] at hp
      exact nomatch hp
  | step t _ hstep ih =>
      obtain ⟨s, hs, horder, hagree⟩ := ih
      obtain ⟨as, s', hexec, hs'⟩ := step_exec hs hstep
      obtain ⟨-, horder'⟩ := hexec.exec.preserves (P := Sched.InArrivalOrder)
        (fun _ _ hinv hg h => h.apply halg hinv hg) hs.inv horder
      exact ⟨s', hs', horder', step_levelsAgree halg hs hstep hagree⟩

/-- The process with the CPU in `k'` is taken from the first level of `k` that holds a process
that is still ready once its signals are handled, and it is the one of them that was inserted
first. It is init if no level holds such a process. -/
def DispatchesTopLevel (alg : SchedAlgorithm) (k k' : Kernel) : Prop :=
  (k'.currentProcess = .initProcess ∧ ∀ q, ∀ p ∈ k.linkedIn q, ¬ k.Survives alg p)
  ∨ ∃ level, k'.currentProcess ∈ k.linkedIn (.mlQueue level)
    ∧ k.Survives alg k'.currentProcess
    ∧ (∀ lower < level, ∀ p ∈ k.linkedIn (.mlQueue lower), ¬ k.Survives alg p)
    ∧ ∀ p ∈ k.linkedIn (.mlQueue level), k.Survives alg p → p ≠ k'.currentProcess →
      enqueueTime k.trace k'.currentProcess < enqueueTime k.trace p

end Kernel

/-- Such an algorithm scans its queues level by level. -/
theorem scanOrder_multilevel (halg : alg.mlPolicy ≠ none) (s : Sched) :
    alg.scanOrder s = some (s.cascadeOrder (List.range ML_MAX_LEVELS)) := by
  cases alg with
  | mlq | mlfq => rfl
  | _ => exact absurd rfl halg

/-- A selection that starts with the queues in the order of insertion. -/
theorem dispatchesTopLevel_of (halg : alg.mlPolicy ≠ none) (hk : Refines k s) (hinv : s.Inv alg)
    (horder : s.InArrivalOrder) (hpick : alg.pickNext k = some k') :
    (k.requeueOutgoing alg.enqueue).DispatchesTopLevel alg k' := by
  obtain ⟨k₁, as, s₂, next, quantum, s₃, hpick', hexec, hs₃, -⟩ := pickNext_exec alg hk hinv
  obtain rfl := Option.some.inj (hpick'.symm.trans hpick)
  have hk₁ : Refines (k.requeueOutgoing alg.enqueue) (s.requeued alg) :=
    requeueOutgoing_refines hk hinv rfl
  have hinv₁ := inv_requeued hinv
  have hopened : Exec alg s s.requeueActions (s.requeued alg) := Sched.exec_requeued
  obtain ⟨-, horder₁⟩ := hopened.preserves (P := Sched.InArrivalOrder)
    (fun _ _ hi hg h => h.apply halg hi hg) hinv horder
  have hcur : k₁.currentProcess = next.getD .initProcess :=
    hs₃.refines.currentProcess.trans hexec.currentProcess
  have hsurvives : ∀ {q p}, p ∈ (s.requeued alg).queue q →
      ((k.requeueOutgoing alg.enqueue).Survives alg p ↔ (s.requeued alg).removed p = false) :=
    fun hp => survives_iff hk₁ hinv₁ ⟨_, hp⟩
  -- The search ends with the first process that no signal removes, level by level.
  have hnext : next = (List.range ML_MAX_LEVELS).findSome? fun level =>
      ((s.requeued alg).queue (.mlQueue level)).find? fun p => !(s.requeued alg).removed p := by
    rw [(hexec.scans _ (scanOrder_multilevel halg _)).2, ← List.find?_not_eq_head?_dropWhile,
      Sched.cascadeOrder, List.find?_flatMap]
  unfold DispatchesTopLevel
  simp only [hk₁.linkedIn_eq hinv₁, hcur, hk₁.trace]
  cases hn : next with
  | none =>
      rw [hn] at hnext
      refine Or.inl ⟨rfl, fun q p hp => ?_⟩
      obtain ⟨level, hlevel, rfl⟩ := uses_mlQueue halg (hinv₁.queues.member hp).2.2
      have hnone := List.findSome?_eq_none_iff.mp hnext.symm level (List.mem_range.mpr hlevel)
      have hremoved := List.find?_eq_none.mp hnone p hp
      rw [hsurvives hp]
      simpa using hremoved
  | some r =>
      rw [hn] at hnext
      obtain ⟨lower, level, upper, hrange, hfind, hnone⟩ :=
        List.findSome?_eq_some_iff.mp hnext.symm
      have hmem := List.mem_of_find?_eq_some hfind
      have hr : (s.requeued alg).removed r = false := by simpa using List.find?_some hfind
      refine Or.inr ⟨level, hmem, (hsurvives hmem).mpr hr, fun lower' hlt p hp => ?_,
        fun p hp hsurvive hne => ?_⟩
      · -- The levels in front of this one are the lower numbers.
        have hin : lower' ∈ lower := by
          have hpairs : (lower ++ level :: upper).Pairwise (· < ·) := by
            rw [← hrange]
            exact List.pairwise_lt_range
          have hlevel : level ∈ List.range ML_MAX_LEVELS := by
            rw [hrange]
            exact List.mem_append_right lower List.mem_cons_self
          have hmem' : lower' ∈ lower ++ level :: upper := by
            rw [← hrange]
            exact List.mem_range.mpr (Nat.lt_trans hlt (List.mem_range.mp hlevel))
          refine (List.mem_append.mp hmem').resolve_right fun hafter => ?_
          rcases List.mem_cons.mp hafter with rfl | hafter
          · exact Nat.lt_irrefl _ hlt
          · have hup := (List.pairwise_cons.mp (List.pairwise_append.mp hpairs).2.1).1 _ hafter
            exact Nat.lt_asymm hlt hup
        have hremoved := List.find?_eq_none.mp (hnone lower' hin) p hp
        rw [hsurvives hp]
        simpa using hremoved
      · have hkept : (!(s.requeued alg).removed p) = true := by
          simpa using (hsurvives hp).mp hsurvive
        have hfirst := rel_of_find (horder₁ (.mlQueue level)) hfind hp hkept hne
        exact hfirst

/-- Under MLQ and MLFQ every level is one of the policy's, and a linked process is in the queue of
its level unless `set_sched_param` was called for its queue after it was inserted. A selection
gives the CPU to the process that was inserted first among the survivors of the first level that
has any. Under MLQ a level changes only by `set_sched_param`. -/
theorem multilevel_levels {policy : MultilevelPolicy} (halg : alg.mlPolicy = some policy)
    (hk : Tuned alg k T) :
    (∀ p, k.IsProcess p → k.level p < policy.nLevels)
    ∧ (∀ q p, p ∈ k.linkedIn (.mlQueue q) → T p < enqueueTime k.trace p → k.level p = q)
    ∧ (∀ k₁ k', k₁ = k ∨ (∃ t, k.enter alg t = some (k₁, .schedules)) →
        alg.pickNext k₁ = some k' → (k₁.requeueOutgoing alg.enqueue).DispatchesTopLevel alg k')
    ∧ (alg = .mlq → ∀ t k', k.step alg t = some k' → ∀ p, k.IsProcess p →
        k'.level p ≠ k.level p → k.Retunes t p = true) := by
  have hml : alg.mlPolicy ≠ none := by
    rw [halg]
    exact Option.some_ne_none policy
  have hlevels : policy.nLevels = ML_MAX_LEVELS := by
    cases alg with
    | mlq | mlfq => rw [← Option.some.inj halg]; rfl
    | _ => exact nomatch halg
  obtain ⟨s, hs, horder, hagree⟩ := hk.agrees hml
  refine ⟨fun p _ => ?_, hagree, ?_, ?_⟩
  · rw [hlevels, level, hs.refines.queueLevel]
    exact hs.inv.queues.level _
  · rintro k₁ k' (rfl | ⟨t, henter⟩) hpick
    · exact dispatchesTopLevel_of hml hs.refines hs.inv horder hpick
    · obtain ⟨as, s₁, hcode⟩ := enter_code hs.refines hs.inv hs.running henter
      obtain ⟨hinv₁, horder₁⟩ := hcode.exec.preserves (P := Sched.InArrivalOrder)
        (fun _ _ hinv hg h => h.apply hml hinv hg) hs.inv horder
      exact dispatchesTopLevel_of hml hcode.refines hinv₁ horder₁ hpick
  · rintro rfl t k' hstep p hp hchanged
    by_contra hretunes
    refine hchanged ?_
    have hkept : ∀ {k₁ c}, k.enter .mlq t = some (k₁, c) → k₁.level p = k.level p := by
      intro k₁ c henter
      by_cases ht : t = .timerTick
      · subst ht
        exact (handleTimerTick_mlq henter).level p
      · exact enter_level hml hs ht henter hp (by simpa using hretunes)
    rcases step_cases hstep with henter | ⟨k₁, henter, hpick⟩
    · exact hkept henter
    · obtain ⟨as, s₁, hcode⟩ := enter_code hs.refines hs.inv hs.running henter
      have hinv₁ := hs.inv.exec hcode.exec
      rw [← hkept henter]
      exact pickNext_level hcode.refines hinv₁ hpick p

/-- A process has set the queue of its child, which is linked at the top level. The child stays
there with the level 3, and `T` knows that. -/
theorem multilevel_levels_tuned :
    ∃ k T, Tuned .mlq k T ∧ k.linkedIn (.mlQueue 0) = [.page 1] ∧ k.level (.page 1) = 3
      ∧ enqueueTime k.trace (.page 1) ≤ T (.page 1) := by
  have hrun : ((Kernel.boot fun _ => 0).run .mlq
      [.kernelMain (some 0), .timerTick, .moveToUserMode .empty .zeroed, .fork (some 1) .empty,
        .setSchedParam 2 SCHED_PARAM_QUEUE_PRIORITY 3]).map
        (fun k => (k.linkedIn (.mlQueue 0), k.level (.page 1))) = some ([.page 1], 3) := by
    decide +kernel
  obtain ⟨k, hk, hfinal⟩ := Option.map_eq_some_iff.mp hrun
  obtain ⟨hlinked, hlevel⟩ := Prod.mk.inj hfinal
  obtain ⟨T, hT⟩ := (reachable_run (.boot _) hk).tuned
  refine ⟨k, T, hT, hlinked, hlevel, Nat.le_of_not_lt fun htime => ?_⟩
  have hmem : PcbPtr.page 1 ∈ k.linkedIn (.mlQueue 0) := by
    rw [hlinked]
    exact List.mem_cons_self
  have hpolicy : SchedAlgorithm.mlq.mlPolicy = some mlPolicyMlq := rfl
  have hagree := (multilevel_levels hpolicy hT).2.1 0 (.page 1) hmem htime
  rw [hlevel] at hagree
  exact nomatch hagree

end Selections

end DemoOS
