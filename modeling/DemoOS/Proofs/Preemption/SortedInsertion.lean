import DemoOS.Proofs.Preemption.QueueInterrupts
import Mathlib.Data.List.TakeWhile

/-!
# `DemoOS.Proofs.Preemption.SortedInsertion`: the UART handler under SJF

The handler inserts the woken process by its estimate. `wakeUp_sorted_iff` is the result: what
that does to an unfinished operation at each place.
-/

set_option autoImplicit false

namespace DemoOS

open Support Kernel

variable {k k₂ : Kernel} {Q Q₂ : QueueId → List PcbPtr} {q : QueueId} {p r w c : PcbPtr}
  {l : List PcbPtr} {m x : Option PcbPtr}

/-! ### The place of the woken process -/

section Lists
variable {block : PcbPtr → PCB}

/-- Another process stays the last one if somebody in the list has a longer estimate. -/
theorem getLast?_insertByBurst_iff (hr : r ≠ w) :
    (insertByBurst block w l).getLast? = some r
      ↔ l.getLast? = some r ∧ ∃ s ∈ l, (block w).estBurst < (block s).estBurst := by
  obtain ⟨f, hf⟩ : ∃ f : PcbPtr → Bool,
      f = fun r => decide ((block r).estBurst ≤ (block w).estBurst) := ⟨_, rfl⟩
  have hl := List.takeWhile_append_dropWhile (p := f) (l := l)
  rw [insertByBurst, ← hf]
  cases hd : l.dropWhile f with
  | nil =>
      refine iff_of_false (fun hlast => ?_) ?_
      · rw [List.getLast?_append] at hlast
        exact hr (Option.some.inj hlast).symm
      · rintro ⟨-, s, hs, hlt⟩
        have hfs := List.dropWhile_eq_nil_iff.mp hd s hs
        rw [hf] at hfs
        exact absurd (of_decide_eq_true hfs) (Int.not_le.mpr hlt)
  | cons d v =>
      have hlast : (l.takeWhile f ++ w :: d :: v).getLast? = l.getLast? := by
        conv_rhs => rw [← hl, hd]
        simp [List.getLast?_append]
      rw [hlast]
      refine ⟨fun h => ⟨h, d, ?_, ?_⟩, And.left⟩
      · rw [← hl, hd]
        exact List.mem_append_right _ (.head _)
      · have hfd : ¬ f d := by
          have := List.head_dropWhile_not f (l := l) (by rw [hd]; exact fun h => by cases h)
          simpa [hd] using this
        rw [hf] at hfd
        simpa using hfd

end Lists

/-- `LandsBehind` in terms of the list. -/
theorem landsBehind_iff (hk : k.Linked Q) (hlen : (Q q).length ≤ N_PROCESSES) :
    QueueInterrupt.LandsBehind k q w c ↔ ((Q q).takeWhile
      (fun r => decide ((k.view r).estBurst ≤ (k.view w).estBurst))).getLast? = some c := by
  unfold QueueInterrupt.LandsBehind
  rw [linkedIn_eq hk q hlen]
  rfl

/-- The woken process is linked behind `c`. -/
theorem insertByBurst_behind (hk : k.Linked Q) (hlen : (Q q).length ≤ N_PROCESSES)
    (hbehind : QueueInterrupt.LandsBehind k q w c) :
    ∃ u v, insertByBurst k.view w (Q q) = u ++ c :: w :: v ∧ Q q = u ++ c :: v := by
  obtain ⟨u, hu⟩ := List.getLast?_eq_some_iff.mp ((landsBehind_iff hk hlen).mp hbehind)
  refine ⟨u, (Q q).dropWhile (fun r => decide ((k.view r).estBurst ≤ (k.view w).estBurst)), ?_, ?_⟩
  · rw [insertByBurst, hu]
    simp
  · conv_lhs => rw [← List.takeWhile_append_dropWhile
      (p := fun r => decide ((k.view r).estBurst ≤ (k.view w).estBurst)) (l := Q q), hu]
    simp

/-- Elsewhere a process keeps its successor. -/
theorem insertByBurst_next (hk : k.Linked Q) (hlen : (Q q).length ≤ N_PROCESSES)
    (hk₂ : k₂.Linked Q₂) (hQ : Q₂ q = insertByBurst k.view w (Q q)) (hc : c ∈ Q q)
    (hbehind : ¬ QueueInterrupt.LandsBehind k q w c) : k₂.next c = k.next c := by
  rw [landsBehind_iff hk hlen] at hbehind
  have hqueue := hk.queue q
  have hqueue₂ := hk₂.queue q
  have hl := List.takeWhile_append_dropWhile
    (p := fun r => decide ((k.view r).estBurst ≤ (k.view w).estBurst)) (l := Q q)
  rw [hQ, insertByBurst] at hqueue₂
  rw [← hl] at hqueue hc
  generalize (Q q).takeWhile _ = tw at hqueue hqueue₂ hc hbehind
  generalize (Q q).dropWhile _ = dw at hqueue hqueue₂ hc
  rcases List.mem_append.mp hc with hc | hc
  · obtain ⟨u, v, rfl⟩ := List.append_of_mem hc
    cases v with
    | nil => exact absurd (by simp) hbehind
    | cons n v =>
        rw [List.append_assoc] at hqueue hqueue₂
        have hn : k.next c = some n := hqueue.next_eq
        have hn₂ : k₂.next c = some n := hqueue₂.next_eq
        exact hn₂.trans hn.symm
  · obtain ⟨u, v, rfl⟩ := List.append_of_mem hc
    have hqueue' := (List.append_assoc tw u (c :: v)).symm ▸ hqueue
    have hsplit : tw ++ w :: (u ++ c :: v) = (tw ++ w :: u) ++ c :: v := by simp
    rw [hsplit] at hqueue₂
    rw [hqueue'.next_eq, hqueue₂.next_eq]

/-! ### The insertion and the tail -/

theorem sortedPosition_congr {k' : Kernel} (h : k'.pcb = k.pcb) (e : Int) (fuel : Nat) (c : PcbPtr) :
    k'.sortedPosition e fuel c = k.sortedPosition e fuel c := by
  induction fuel generalizing c with
  | zero => rfl
  | succ fuel ih =>
      unfold sortedPosition
      rw [h]
      split
      · rfl
      · rw [ih]

theorem walk_congr {k' : Kernel} (h : k'.pcb = k.pcb) (fuel : Nat) (x : Option PcbPtr) :
    k'.walk fuel x = k.walk fuel x := by
  induction fuel generalizing x with
  | zero => cases x <;> rfl
  | succ fuel ih =>
      cases x with
      | none => rfl
      | some p =>
          unfold walk
          rw [h, ih]

/-- The wake-up under SJF. -/
theorem wakeUp_sjf (hw : w ≠ .initProcess) :
    (k.setState w .ready).enqueueProcess .sjf w = k.enqueueSortedTo .readyQueue w := by
  have hsame : ((k.setState w .ready).setLink w none).setState w .ready
      = (k.setLink w none).setState w .ready := by
    unfold setState setLink modifyPcb
    simp [PCB.withState]
  unfold enqueueProcess
  rw [if_neg hw]
  show (k.setState w .ready).enqueueSortedTo .readyQueue w = _
  unfold enqueueSortedTo
  rw [if_neg hw, if_neg hw, hsame]

/-- The insertion does not read the tail. -/
theorem enqueueSortedTo_setTail (hw : w ≠ .initProcess) :
    (k.setTail q x).enqueueSortedTo q w = k.enqueueSortedTo q w
      ∨ (k.queues q).head ≠ none
        ∧ (k.setTail q x).enqueueSortedTo q w = (k.enqueueSortedTo q w).setTail q x := by
  unfold enqueueSortedTo
  rw [if_neg hw, if_neg hw]
  have hk : (((k.setLink w none).setState w .ready).log (.enqueued q w)).queues q = k.queues q := rfl
  have hx : ((((k.setTail q x).setLink w none).setState w .ready).log (.enqueued q w)).queues q
      = ⟨(k.queues q).head, x⟩ := setTail_queues_self k q x
  have hpos : ∀ e fuel c,
      ((((k.setTail q x).setLink w none).setState w .ready).log (.enqueued q w)).sortedPosition
          e fuel c
        = (((k.setLink w none).setState w .ready).log (.enqueued q w)).sortedPosition e fuel c :=
    sortedPosition_congr rfl
  have hpcb : ((((k.setTail q x).setLink w none).setState w .ready).log (.enqueued q w)).pcb
      = (((k.setLink w none).setState w .ready).log (.enqueued q w)).pcb := rfl
  have hwrite : ∀ y : ProcessQueue, Function.update (k.setTail q x).queues q y
      = Function.update k.queues q y := fun y => Function.update_idem ..
  have htail : ∀ (k' : Kernel) (h t : Option PcbPtr), (k'.setQueue q ⟨h, t⟩).setTail q x
      = k'.setQueue q ⟨h, x⟩ := fun k' h t => by
    unfold setTail
    rw [setQueue_queues_self]
    unfold setQueue
    simp only [Function.update_idem]
  dsimp only
  rw [hk, hx, hpcb]
  simp only [hpos]
  cases (k.queues q).head with
  | none =>
      refine Or.inl ?_
      unfold setQueue
      exact congrArg (fun queues => ({ ((k.setLink w none).setState w .ready).log (.enqueued q w) with
        queues := queues } : Kernel)) (hwrite _)
  | some h =>
      dsimp only
      split
      · refine Or.inr ⟨nofun, ?_⟩
        rw [htail]
        unfold setQueue
        exact congrArg (fun queues => ({ (((k.setLink w none).setState w .ready).log
          (.enqueued q w)).setLink w (some h) with queues := queues } : Kernel)) (hwrite _)
      · split
        · refine Or.inl ?_
          unfold setQueue
          exact congrArg (fun queues => ({ ((((k.setLink w none).setState w .ready).log
            (.enqueued q w)).setLink w _).setLink _ (some w) with queues := queues } : Kernel))
            (hwrite _)
        · refine Or.inr ⟨nofun, ?_⟩
          rw [htail]
          unfold setQueue
          exact congrArg (fun queues => ({ ((((k.setLink w none).setState w .ready).log
            (.enqueued q w)).setLink w _).setLink _ (some w) with queues := queues } : Kernel))
            (hwrite _)

/-- The insertion of the woken process on sound queues. -/
theorem sorted_sound (hk : k.Linked Q) (hpop : Population k Q m) (hp : k.IsProcess w)
    (hst : (k.pcb w).state = .waitingUartInput) :
    ∃ Q₂, Handled k Q (some w) (k.enqueueSortedTo .readyQueue w) Q₂
      ∧ Q₂ .readyQueue = insertByBurst k.view w (Q .readyQueue)
      ∧ Population (k.enqueueSortedTo .readyQueue w) Q₂ m
      ∧ ((k.enqueueSortedTo .readyQueue w).pcb w).state = .ready := by
  have h := wakeUp_sound hk hpop hp hst
    (show SchedAlgorithm.sjf.queueAt (k.queueLevel (k.pcb w).pid) = .readyQueue from rfl)
  rw [wakeUp_sjf (hpop.waiting hst).1] at h
  refine ⟨_, h.1, ?_, h.2⟩
  rw [wokenLists, Function.update_self]
  rfl

/-- The tail does not know the process yet: the sound queue, and the state behind the
insertion, which differs in the tail at most. -/
theorem sorted_tailBefore (ht : TailBefore k Q .readyQueue p) (hpop : Population k Q (some p))
    (ho : Outside k Q p) (hp : k.IsProcess w) (hst : (k.pcb w).state = .waitingUartInput) :
    ∃ k₂ Q₂, k₂.Linked Q₂ ∧ Population k₂ Q₂ none ∧ p ∈ Q₂ .readyQueue
      ∧ ((Q₂ .readyQueue).getLast? = some p
        ↔ ∃ r ∈ k.linkedIn .readyQueue, (k.pcb w).estBurst < (k.pcb r).estBurst)
      ∧ (k₂ = k.enqueueSortedTo .readyQueue w
        ∨ k₂ = (k.enqueueSortedTo .readyQueue w).setTail .readyQueue (some p)) := by
  have hpop' := hpop.append ho .readyQueue
  obtain ⟨hw, -⟩ := hpop'.waiting hst
  have hpw : p ≠ w := fun he => ho.notWaiting (he ▸ hst)
  obtain ⟨Q₂, hh, hQ₂, hpop₂, -⟩ := sorted_sound ht.linked hpop' hp hst
  rw [Function.update_self] at hQ₂
  refine ⟨_, Q₂, hh.linked, hpop₂, ?_, ?_, (enqueueSortedTo_setTail hw).imp id And.right⟩
  · rw [hQ₂, mem_insertByBurst]
    exact Or.inr (List.mem_append_right _ (List.mem_singleton_self p))
  · have hlinkedIn : k.linkedIn .readyQueue = Q .readyQueue ++ [p] := by
      have h := linkedIn_eq ht.linked .readyQueue (hpop'.length_le ht.linked _)
      rw [Function.update_self] at h
      rw [← h]
      unfold linkedIn
      rw [setTail_queues_self, walk_congr (setTail_pcb ..)]
    rw [hQ₂, getLast?_insertByBurst_iff hpw, hlinkedIn]
    exact ⟨And.right, fun h => ⟨by simp, h⟩⟩

/-- The pending tail is right if the woken process has not become the last one. -/
theorem sorted_setTail_iff (ht : TailBefore k Q .readyQueue p) (hpop : Population k Q (some p))
    (ho : Outside k Q p) (hp : k.IsProcess w) (hst : (k.pcb w).state = .waitingUartInput) :
    ((k.enqueueSortedTo .readyQueue w).setTail .readyQueue (some p)).EachReadyOnce none
      ↔ ∃ r ∈ k.linkedIn .readyQueue, (k.pcb w).estBurst < (k.pcb r).estBurst := by
  obtain ⟨k₂, Q₂, hk₂, hpop₂, -, hlast, hcases⟩ := sorted_tailBefore ht hpop ho hp hst
  have hsame : (k.enqueueSortedTo .readyQueue w).setTail .readyQueue (some p)
      = k₂.setTail .readyQueue (some p) := by
    rcases hcases with rfl | rfl
    · rfl
    · rw [setTail_setTail]
  rw [hsame, ← hlast]
  by_cases hend : (Q₂ .readyQueue).getLast? = some p
  · rw [setTail_self ((hk₂.queue .readyQueue).tail_eq.trans hend)]
    exact iff_of_true (hpop₂.removed hk₂ nofun) hend
  · exact iff_of_false (setTail_wrong hk₂ hend) hend

/-- At the last test the operation sees whether somebody is behind the process by now. -/
theorem sorted_last (ht : TailBefore k Q .readyQueue p) (hpop : Population k Q (some p))
    (ho : Outside k Q p) (hp : k.IsProcess w) (hst : (k.pcb w).state = .waitingUartInput) :
    (k.enqueueSortedTo .readyQueue w).Completed (.sortedLast .readyQueue p) := by
  have hdone := sorted_setTail_iff ht hpop ho hp hst
  obtain ⟨k₂, Q₂, hk₂, hpop₂, hpq, hlast, hcases⟩ := sorted_tailBefore ht hpop ho hp hst
  have hnext : (k.enqueueSortedTo .readyQueue w).next p = k₂.next p := by
    rcases hcases with rfl | rfl <;> rfl
  have hend := (hk₂.queue .readyQueue).next_eq_none_iff hpq
  rw [← hnext] at hend
  by_cases hnone : (k.enqueueSortedTo .readyQueue w).next p = none
  · have hgoto := completed_goto (k := k.enqueueSortedTo .readyQueue w)
      (x := .sortedLast .readyQueue p) (y := .sortedTail .readyQueue p) (by
        rw [queueStatement, if_pos (show ((k.enqueueSortedTo .readyQueue w).pcb p).nextReady = none
          from hnone)])
    exact hgoto.mpr ((completed_returns rfl).mpr (hdone.mpr (hlast.mp (hend.mp hnone))))
  · have hreturn : (k.enqueueSortedTo .readyQueue w).queueStatement (.sortedLast .readyQueue p)
        = some (k.enqueueSortedTo .readyQueue w, .returns none) := by
      rw [queueStatement, if_neg (show ((k.enqueueSortedTo .readyQueue w).pcb p).nextReady ≠ none
        from hnone)]
    refine (completed_returns hreturn).mpr ?_
    rcases hcases with rfl | rfl
    · exact hpop₂.removed hk₂ (fun _ h => by cases h)
    · -- Its tail would be the last process.
      have htail := (hk₂.queue .readyQueue).tail_eq
      rw [setTail_queues_self] at htail
      exact absurd (hend.mpr htail.symm) hnone

/-- The woken process has become the first one: it is skipped by a `dequeue_process_from` that
has read the head before. -/
theorem not_completed_dequeueHead (hk : k.Linked Q) (hl : Q q = w :: p :: l) (hp : k.IsProcess w)
    (hw : w ≠ .initProcess) (hst : (k.pcb w).state = .ready) : ¬ k.Completed (.dequeueHead q p) := by
  intro hdone
  have hend := (completed_goto rfl).mp hdone
  have hnd := hk.nodup q
  rw [hl] at hnd
  have hwq : w ∈ Q q := by rw [hl]; exact .head _
  have hwl : w ∉ l := fun h => (List.nodup_cons.mp hnd).1 (.tail _ h)
  have hwp : w ≠ p := fun he => (List.nodup_cons.mp hnd).1 (he ▸ List.mem_cons_self)
  have hpl : p ∉ l := (List.nodup_cons.mp (List.nodup_cons.mp hnd).2).1
  have hpq : p ∈ Q q := by rw [hl]; exact .tail _ (.head _)
  obtain ⟨k₃, hk₃⟩ : ∃ k₃, k₃ = k.setHead q (k.pcb p).nextReady := ⟨_, rfl⟩
  rw [← hk₃] at hend
  have hlost : ∀ k' : Kernel, k'.pcb = k.pcb → k'.processes = k.processes →
      (∀ q', (k'.queues q').head = (k₃.queues q').head) →
        ¬ (k'.setLink p none).EachReadyOnce (some p) := by
    intro k' hpcb hprocesses hheads
    have hnext : ∀ r, r ≠ p → (k'.setLink p none).next r = k.next r := fun r hr => by
      rw [next_setLink, Function.update_of_ne hr]
      exact congrArg (fun pcb => (pcb r).nextReady) hpcb
    have hwalks : Walks (k'.setLink p none) (Function.update Q q l) := by
      refine hk.walks.update ?_ fun q' hq' => ⟨?_, fun r hr => hnext r fun he => ?_⟩
      · have hwalk := (hk.queue q).walk
        rw [hl] at hwalk
        rw [setLink_queues, hheads, hk₃, setHead_queues_self]
        exact hwalk.2.2.congr fun r hr => hnext r (ne_of_mem_of_not_mem hr hpl)
      · rw [setLink_queues, hheads, hk₃, setHead_queues_of_ne hq']
      · exact hq' (hk.disjoint (he ▸ hr) hpq)
    refine hwalks.lost (p := w) ?_ hw ?_ (fun he => hwp (Option.some.inj he)) fun q' hq' => ?_
    · unfold IsProcess
      show ∃ slot, slot < N_PROCESSES ∧ k'.processes slot = some w
      rw [hprocesses]
      exact hp
    · rw [(SameStates.setLink k' p none).2 w, hpcb]
      exact hst
    · by_cases he : q' = q
      · rw [he, Function.update_self] at hq'
        exact hwl hq'
      · rw [Function.update_of_ne he] at hq'
        exact he (hk.disjoint hq' hwq)
  by_cases hhead : (k₃.queues q).head = none
  · have hgoto := completed_goto (k := k₃) (x := .dequeueEmpty q p) (y := .dequeueTail q p) (by
      rw [queueStatement, if_pos hhead])
    refine hlost (k₃.setTail q none) (by rw [hk₃]; rfl) (by rw [hk₃]; rfl) (fun q' => ?_)
      ((completed_returns rfl).mp ((completed_goto rfl).mp (hgoto.mp hend)))
    by_cases he : q' = q
    · rw [he, setTail_queues_self]
    · rw [setTail_queues_of_ne he]
  · have hgoto := completed_goto (k := k₃) (x := .dequeueEmpty q p) (y := .dequeueClear p) (by
      rw [queueStatement, if_neg hhead])
    exact hlost k₃ (by rw [hk₃]; rfl) (by rw [hk₃]; rfl) (fun _ => rfl)
      ((completed_returns rfl).mp (hgoto.mp hend))

/-- An empty queue whose tail still knows the process that has left it: the insertion sees the
empty head only. -/
theorem sorted_stale (hs : TailStale k Q .readyQueue p) (hnil : Q .readyQueue = [])
    (hpop : Population k Q (some p)) (ho : Outside k Q p) (hp : k.IsProcess w)
    (hst : (k.pcb w).state = .waitingUartInput) :
    ∃ Q₂, (k.enqueueSortedTo .readyQueue w).Linked Q₂
      ∧ Population (k.enqueueSortedTo .readyQueue w) Q₂ (some p)
      ∧ Outside (k.enqueueSortedTo .readyQueue w) Q₂ p ∧ Q₂ .readyQueue = [w] := by
  have hlinked : (k.setTail .readyQueue none).Linked Q := by
    have h := hs.linked
    rw [hnil] at h
    exact h
  have hhead : (k.queues .readyQueue).head = none := by
    have hqueue := hlinked.queue .readyQueue
    rw [setTail_queues_self] at hqueue
    exact hqueue.head_eq_none_iff.mpr hnil
  have hsame : SameStates k (k.setTail .readyQueue none) := ⟨rfl, fun _ => rfl⟩
  have hpop' := hpop.same hsame
  obtain ⟨hw, -⟩ := hpop'.waiting hst
  obtain ⟨Q₂, hh, hQ₂, hpop₂, -⟩ := sorted_sound hlinked hpop' hp hst
  have heq : (k.setTail .readyQueue none).enqueueSortedTo .readyQueue w
      = k.enqueueSortedTo .readyQueue w :=
    (enqueueSortedTo_setTail hw).resolve_right fun h => h.1 hhead
  have ho₂ := hh.outside (ho.same hsame) fun he => ho.notWaiting (Option.some.inj he ▸ hst)
  have hlinked₂ := hh.linked
  rw [heq] at hlinked₂ hpop₂ ho₂
  refine ⟨Q₂, hlinked₂, hpop₂, ho₂, ?_⟩
  rw [hQ₂, hnil]
  rfl

/-- The woken process has become the first one: a `queue->head = process` that is still to come
leaves it out. -/
theorem not_eachReadyOnce_front (hk : k.Linked Q) (hl : Q q = w :: l) (ho : Outside k Q p)
    (hnext : k.next p = l.head?) (hp : k.IsProcess w) (hw : w ≠ .initProcess)
    (hst : (k.pcb w).state = .ready) : ¬ (k.setHead q (some p)).EachReadyOnce none := by
  have hqueue := hk.queue q
  rw [hl] at hqueue
  have hwq : w ∈ Q q := by rw [hl]; exact .head _
  have hwalks : Walks (k.setHead q (some p)) (Function.update Q q (p :: l)) := by
    refine hk.walks.update ?_ fun q' hq' => ⟨?_, fun _ _ => rfl⟩
    · rw [setHead_queues_self]
      have hwalk := hqueue.walk.2
      rw [hwalk.head?_eq, ← hnext] at hwalk
      exact ⟨rfl, hwalk⟩
    · rw [setHead_queues_of_ne hq']
  refine hwalks.lost (p := w) hp hw hst nofun fun q' hq' => ?_
  by_cases he : q' = q
  · rw [he, Function.update_self] at hq'
    rcases List.mem_cons.mp hq' with hwp | hwl
    · exact ho.free q (hwp ▸ hwq)
    · exact (List.nodup_cons.mp hqueue.nodup).1 hwl
  · rw [Function.update_of_ne he] at hq'
    exact he (hk.disjoint hq' hwq)

/-- The woken process has been linked between `c` and its successor: a link from `c` to the
process that is still to come leaves it out. -/
theorem not_completed_sortedBehind {u v : List PcbPtr} (hk : k.Linked Q)
    (hl : Q q = u ++ c :: w :: v) (ho : Outside k Q p) (hnext : k.next p = v.head?)
    (hp : k.IsProcess w) (hw : w ≠ .initProcess) (hst : (k.pcb w).state = .ready) :
    ¬ k.Completed (.sortedBehind q p c) := by
  intro hdone
  have hend := (completed_goto rfl).mp hdone
  have hqueue := hk.queue q
  rw [hl] at hqueue
  have hnd := List.nodup_append.mp hqueue.nodup
  have hcu : c ∉ u := fun h => hnd.2.2 c h c List.mem_cons_self rfl
  have hwu : w ∉ u := fun h => hnd.2.2 w h w (.tail _ (.head _)) rfl
  have hcv : c ∉ v := fun h => (List.nodup_cons.mp hnd.2.1).1 (.tail _ h)
  have hwc : w ≠ c := fun he => (List.nodup_cons.mp hnd.2.1).1 (he ▸ List.mem_cons_self)
  have hwv : w ∉ v := (List.nodup_cons.mp (List.nodup_cons.mp hnd.2.1).2).1
  have hcq : c ∈ Q q := by rw [hl]; exact List.mem_append_right _ (.head _)
  have hwq : w ∈ Q q := by rw [hl]; exact List.mem_append_right _ (.tail _ (.head _))
  have hpc : p ≠ c := fun he => ho.free q (he ▸ hcq)
  have hpw : p ≠ w := fun he => ho.free q (he ▸ hwq)
  obtain ⟨k₃, hk₃⟩ : ∃ k₃, k₃ = k.setLink c (some p) := ⟨_, rfl⟩
  rw [← hk₃] at hend
  have hlost : ∀ k' : Kernel, k'.pcb = k₃.pcb → k'.processes = k.processes →
      (∀ q', (k'.queues q').head = (k.queues q').head) → ¬ k'.EachReadyOnce none := by
    intro k' hpcb hprocesses hheads
    have hlink : ∀ r, k'.next r = Function.update k.next c (some p) r := fun r => by
      rw [← next_setLink, ← hk₃]
      exact congrArg (fun pcb => (pcb r).nextReady) hpcb
    have hkeep : ∀ r, r ≠ c → k'.next r = k.next r := fun r hr => by
      rw [hlink, Function.update_of_ne hr]
    obtain ⟨m, hu, hm⟩ := segment_append.mp hqueue.walk
    have hv := hm.2.2
    rw [hv.head?_eq, ← hnext, ← hkeep p hpc] at hv
    have hwalks : Walks k' (Function.update Q q (u ++ c :: p :: v)) := by
      refine hk.walks.update ?_ fun q' hq' => ⟨hheads q', fun r hr => hkeep r fun he => ?_⟩
      · rw [hheads]
        refine segment_append.mpr ⟨m, hu.congr fun r hr => ?_, hm.1, ?_, ?_⟩
        · exact hkeep r (ne_of_mem_of_not_mem hr hcu)
        · rw [hlink, Function.update_self]
        · exact hv.congr fun r hr => hkeep r (ne_of_mem_of_not_mem hr hcv)
      · exact hq' (hk.disjoint (he ▸ hr) hcq)
    refine hwalks.lost (p := w) ?_ hw ?_ nofun fun q' hq' => ?_
    · unfold IsProcess
      rw [hprocesses]
      exact hp
    · rw [hpcb, hk₃, (SameStates.setLink k c (some p)).2 w]
      exact hst
    · by_cases he : q' = q
      · rw [he, Function.update_self] at hq'
        rcases List.mem_append.mp hq' with hq' | hq'
        · exact hwu hq'
        · rcases List.mem_cons.mp hq' with hq' | hq'
          · exact hwc hq'
          · rcases List.mem_cons.mp hq' with hq' | hq'
            · exact hpw hq'.symm
            · exact hwv hq'
      · rw [Function.update_of_ne he] at hq'
        exact he (hk.disjoint hq' hwq)
  by_cases hnone : (k₃.pcb p).nextReady = none
  · have hgoto := completed_goto (k := k₃) (x := .sortedLast q p) (y := .sortedTail q p) (by
      rw [queueStatement, if_pos hnone])
    refine hlost (k₃.setTail q (some p)) rfl (by rw [hk₃]; rfl) (fun q' => ?_)
      ((completed_returns rfl).mp (hgoto.mp hend))
    rw [hk₃]
    by_cases he : q' = q
    · rw [he, setTail_queues_self]
      rfl
    · rw [setTail_queues_of_ne he]
      rfl
  · have hreturn : k₃.queueStatement (.sortedLast q p) = some (k₃, .returns none) := by
      rw [queueStatement, if_neg hnone]
    exact hlost k₃ rfl (by rw [hk₃]; rfl) (fun q' => by rw [hk₃]; rfl)
      ((completed_returns hreturn).mp hend)

/-- What the woken process does to an unfinished operation under SJF. -/
theorem wakeUp_sorted_iff {x : QueuePoint} (h : x.At .sjf k Q) (hp : k.IsProcess w)
    (hst : (k.pcb w).state = .waitingUartInput) :
    ((k.setState w .ready).enqueueProcess .sjf w).Completed x
      ↔ (QueueInterrupt.wakeUp w).Harmless .sjf k x := by
  obtain ⟨hw, hfree⟩ := h.population.waiting hst
  rw [wakeUp_sjf hw]
  obtain ⟨hpop, hshape⟩ := h
  have hsound := fun hk : k.Linked Q => sorted_sound hk hpop hp hst
  have hlen := fun hk : k.Linked Q => hpop.length_le hk
  have happends : ∀ q, ¬ (QueueInterrupt.wakeUp w).Appends .sjf k q := fun q ha => ha.1 rfl
  have hempties : ∀ q, ¬ (QueueInterrupt.wakeUp w).Empties q := fun q he => he.elim
  have hsorts : ∀ P : PcbPtr → Prop,
      (∀ w', (QueueInterrupt.wakeUp w).Sorts .sjf w' → P w') ↔ P w := fun P =>
    ⟨fun h => h w ⟨rfl, rfl⟩, fun h w' hs => QueueInterrupt.wakeUp.inj hs.2 ▸ h⟩
  have hne : ∀ {p Q}, Outside k Q p → some p ≠ some w := fun ho he =>
    ho.notWaiting (Option.some.inj he ▸ hst)
  have huses : ∀ {q}, SchedAlgorithm.sjf.Uses q → q = .readyQueue := fun {q} hu => by
    cases q with
    | readyQueue => rfl
    | mlQueue level => exact hu.elim
  cases x with
  | dequeueTest q =>
      obtain ⟨ha, hk⟩ := hshape
      obtain ⟨Q₂, hh, -, hpop₂, -⟩ := hsound hk
      exact iff_of_true (QueuePoint.At.completed ⟨hpop₂, ha, hh.linked⟩) trivial
  | dequeueRead q =>
      obtain ⟨ha, hk, hnil⟩ := hshape
      obtain rfl := huses ha
      obtain ⟨Q₂, hh, hQ₂, hpop₂, -⟩ := hsound hk
      have hnil₂ : Q₂ .readyQueue ≠ [] := List.ne_nil_of_mem (a := w) (by
        rw [hQ₂, mem_insertByBurst]
        exact Or.inl rfl)
      exact iff_of_true (QueuePoint.At.completed ⟨hpop₂, ha, hh.linked, hnil₂⟩) (hempties _)
  | dequeueHead q p =>
      obtain ⟨ha, hk, l, hl⟩ := hshape
      obtain rfl := huses ha
      obtain ⟨Q₂, hh, hQ₂, hpop₂, hready⟩ := hsound hk
      show _ ↔ ¬ _ ∧ _
      rw [hsorts fun w' => (k.pcb p).estBurst ≤ (k.pcb w').estBurst, and_iff_right (hempties _)]
      by_cases hle : (k.view p).estBurst ≤ (k.view w).estBurst
      · have hl₂ : Q₂ .readyQueue = p :: insertByBurst k.view w l := by
          rw [hQ₂, hl]
          simp [insertByBurst, hle]
        exact iff_of_true (QueuePoint.At.completed ⟨hpop₂, ha, hh.linked, _, hl₂⟩) hle
      · have hl₂ : Q₂ .readyQueue = w :: p :: l := by
          rw [hQ₂, hl]
          simp [insertByBurst, hle]
        exact iff_of_false (not_completed_dequeueHead hh.linked hl₂ ((hh.isProcess w).mpr hp) hw
          hready) hle
  | dequeueEmpty q p =>
      obtain ⟨ha, ho, hcases⟩ := hshape
      obtain rfl := huses ha
      refine iff_of_true ?_ fun h => absurd h (happends _)
      rcases hcases with ⟨hk, -⟩ | ⟨hnil, hs⟩
      · obtain ⟨Q₂, hh, hQ₂, hpop₂, -⟩ := hsound hk
        have hnil₂ : Q₂ .readyQueue ≠ [] := List.ne_nil_of_mem (a := w) (by
          rw [hQ₂, mem_insertByBurst]
          exact Or.inl rfl)
        exact QueuePoint.At.completed ⟨hpop₂, ha, hh.outside ho (hne ho),
          Or.inl ⟨hh.linked, hnil₂⟩⟩
      · obtain ⟨Q₂, hlinked₂, hpop₂, ho₂, hQ₂⟩ := sorted_stale hs hnil hpop ho hp hst
        exact QueuePoint.At.completed ⟨hpop₂, ha, ho₂, Or.inl ⟨hlinked₂, by rw [hQ₂]; exact fun h => by cases h⟩⟩
  | dequeueTail q p =>
      obtain ⟨ha, ho, hnil, hs⟩ := hshape
      obtain rfl := huses ha
      refine iff_of_false (fun hdone => ?_) fun h => h.2 w ⟨rfl, rfl⟩
      obtain ⟨Q₂, hlinked₂, -, ho₂, hQ₂⟩ := sorted_stale hs hnil hpop ho hp hst
      have hwalks : Walks (((k.enqueueSortedTo .readyQueue w).setTail .readyQueue none).setLink p
          none) Q₂ := hlinked₂.walks.congr (fun q' => by
          rw [setLink_queues]
          by_cases he : q' = .readyQueue
          · rw [he, setTail_queues_self]
          · rw [setTail_queues_of_ne he]) fun q' r hr => by
          have hrp : r ≠ p := ne_of_mem_of_not_mem hr (ho₂.free q')
          rw [next_setLink, Function.update_of_ne hrp]
          rfl
      refine hwalks.wrongTail (q := .readyQueue) ?_
        ((completed_returns rfl).mp ((completed_goto rfl).mp hdone))
      rw [setLink_queues, setTail_queues_self, hQ₂]
      exact fun h => by cases h
  | dequeueClear p | removeClear p =>
      obtain ⟨hk, ho⟩ := hshape
      obtain ⟨Q₂, hh, -, hpop₂, -⟩ := hsound hk
      exact iff_of_true (QueuePoint.completed_clear rfl hpop₂ hh.linked (hh.outside ho (hne ho))) trivial
  | sortedClear q p =>
      obtain ⟨ha, hk, ho⟩ := hshape
      obtain ⟨Q₂, hh, -, hpop₂, -⟩ := hsound hk
      exact iff_of_true (QueuePoint.At.completed ⟨hpop₂, ha, hh.linked, hh.outside ho (hne ho)⟩)
        trivial
  | sortedReady q p | sortedTest q p =>
      obtain ⟨ha, hk, ho, hn⟩ := hshape
      obtain ⟨Q₂, hh, -, hpop₂, -⟩ := hsound hk
      exact iff_of_true (QueuePoint.At.completed ⟨hpop₂, ha, hh.linked, hh.outside ho (hne ho),
        (hh.next p ho.free (hne ho)).trans hn⟩) trivial
  | sortedHead q p =>
      obtain ⟨ha, hk, ho, hn, hnil⟩ := hshape
      obtain rfl := huses ha.2
      obtain ⟨Q₂, hh, hQ₂, hpop₂, hready⟩ := hsound hk
      refine iff_of_false (fun hdone => ?_) fun h => h w ⟨rfl, rfl⟩
      refine overwritten_lost hh.linked ((hh.next p ho.free (hne ho)).trans hn)
        ((hh.outside ho (hne ho)).free .readyQueue) (r := w) ?_ ((hh.isProcess w).mpr hp) hw hready
        ((completed_returns rfl).mp ((completed_goto rfl).mp hdone))
      rw [hQ₂, mem_insertByBurst]
      exact Or.inl rfl
  | sortedOnlyTail q p | sortedTail q p =>
      obtain ⟨ha, ho, ht⟩ := hshape
      obtain rfl := huses ha.2
      show _ ↔ (∀ _, _ → _)
      rw [hsorts fun w' => ∃ r ∈ k.linkedIn .readyQueue, (k.pcb w').estBurst < (k.pcb r).estBurst,
        completed_returns rfl]
      exact sorted_setTail_iff ht hpop ho hp hst
  | sortedFirst q p | sortedFrontLink q p | sortedStart q p =>
      obtain ⟨ha, hk, ho, hnil⟩ := hshape
      obtain rfl := huses ha.2
      obtain ⟨Q₂, hh, hQ₂, hpop₂, -⟩ := hsound hk
      have hnil₂ : Q₂ .readyQueue ≠ [] := List.ne_nil_of_mem (a := w) (by
        rw [hQ₂, mem_insertByBurst]
        exact Or.inl rfl)
      exact iff_of_true (QueuePoint.At.completed ⟨hpop₂, ha, hh.linked, hh.outside ho (hne ho),
        hnil₂⟩) trivial
  | sortedFront q p =>
      obtain ⟨ha, hk, ho, hnil, hn⟩ := hshape
      obtain rfl := huses ha.2
      obtain ⟨Q₂, hh, hQ₂, hpop₂, hready⟩ := hsound hk
      obtain ⟨c, l, hl⟩ := List.exists_cons_of_ne_nil hnil
      have hhead : (k.queues .readyQueue).head = some c := by
        rw [(hk.queue _).head_eq, hl]
        rfl
      have hn₂ : (k.enqueueSortedTo .readyQueue w).next p = some c :=
        ((hh.next p ho.free (hne ho)).trans hn).trans hhead
      have ho₂ := hh.outside ho (hne ho)
      show _ ↔ (∀ _, _ → _)
      rw [hsorts fun w' => ∀ h ∈ (k.queues .readyQueue).head,
        (k.pcb h).estBurst ≤ (k.pcb w').estBurst, hhead]
      by_cases hle : (k.view c).estBurst ≤ (k.view w).estBurst
      · have hl₂ : Q₂ .readyQueue = c :: insertByBurst k.view w l := by
          rw [hQ₂, hl]
          simp [insertByBurst, hle]
        have hhead₂ : ((k.enqueueSortedTo .readyQueue w).queues .readyQueue).head = some c := by
          rw [(hh.linked.queue _).head_eq, hl₂]
          rfl
        refine iff_of_true (QueuePoint.At.completed ⟨hpop₂, ha, hh.linked, ho₂, ?_,
          hn₂.trans hhead₂.symm⟩) ?_
        · rw [hl₂]
          exact fun h => by cases h
        · rintro h ⟨⟩
          exact hle
      · have hl₂ : Q₂ .readyQueue = w :: c :: l := by
          rw [hQ₂, hl]
          simp [insertByBurst, hle]
        refine iff_of_false (fun hdone => ?_) fun h => hle (h c rfl)
        exact not_eachReadyOnce_front hh.linked hl₂ ho₂ hn₂ ((hh.isProcess w).mpr hp) hw hready
          ((completed_returns rfl).mp hdone)
  | sortedLoop q p c | sortedLink q p c =>
      obtain ⟨ha, hk, ho, hc⟩ := hshape
      obtain rfl := huses ha.2
      obtain ⟨Q₂, hh, hQ₂, hpop₂, -⟩ := hsound hk
      have hc₂ : c ∈ Q₂ .readyQueue := by
        rw [hQ₂, mem_insertByBurst]
        exact Or.inr hc
      exact iff_of_true (QueuePoint.At.completed ⟨hpop₂, ha, hh.linked, hh.outside ho (hne ho),
        hc₂⟩) trivial
  | sortedCompare q p c | sortedAdvance q p c =>
      obtain ⟨ha, hk, ho, hc, hn⟩ := hshape
      obtain rfl := huses ha.2
      obtain ⟨Q₂, hh, hQ₂, hpop₂, -⟩ := hsound hk
      have hcw : c ≠ w := ne_of_mem_of_not_mem hc (hfree _)
      have hc₂ : c ∈ Q₂ .readyQueue := by
        rw [hQ₂, mem_insertByBurst]
        exact Or.inr hc
      have hn₂ : (k.enqueueSortedTo .readyQueue w).next c ≠ none := fun h => by
        rw [(hh.linked.queue .readyQueue).next_eq_none_iff hc₂, hQ₂,
          getLast?_insertByBurst_iff hcw] at h
        exact hn (((hk.queue .readyQueue).next_eq_none_iff hc).mpr h.1)
      exact iff_of_true (QueuePoint.At.completed ⟨hpop₂, ha, hh.linked, hh.outside ho (hne ho),
        hc₂, hn₂⟩) trivial
  | sortedBehind q p c =>
      obtain ⟨ha, hk, ho, hc, hn⟩ := hshape
      obtain rfl := huses ha.2
      obtain ⟨Q₂, hh, hQ₂, hpop₂, hready⟩ := hsound hk
      have hc₂ : c ∈ Q₂ .readyQueue := by
        rw [hQ₂, mem_insertByBurst]
        exact Or.inr hc
      have hn₂ := (hh.next p ho.free (hne ho)).trans hn
      have ho₂ := hh.outside ho (hne ho)
      show _ ↔ (∀ _, _ → _)
      rw [hsorts fun w' => ¬ QueueInterrupt.LandsBehind k .readyQueue w' c]
      by_cases hbehind : QueueInterrupt.LandsBehind k .readyQueue w c
      · obtain ⟨u, v, hl₂, hl⟩ := insertByBurst_behind hk (hlen hk _) hbehind
        have hqueue := hk.queue .readyQueue
        rw [hl] at hqueue
        exact iff_of_false (not_completed_sortedBehind hh.linked (hQ₂.trans hl₂) ho₂
          (hn₂.trans hqueue.next_eq) ((hh.isProcess w).mpr hp) hw hready) (not_not_intro hbehind)
      · have hnext := insertByBurst_next hk (hlen hk _) hh.linked hQ₂ hc hbehind
        exact iff_of_true (QueuePoint.At.completed ⟨hpop₂, ha, hh.linked, ho₂, hc₂,
          hn₂.trans hnext.symm⟩) hbehind
  | sortedLast q p =>
      obtain ⟨ha, ho, hcases⟩ := hshape
      obtain rfl := huses ha.2
      refine iff_of_true ?_ trivial
      rcases hcases with ht | ⟨u, v, hl, hv, hk⟩
      · exact sorted_last ht hpop ho hp hst
      · have hpop' : Population k (Function.update Q .readyQueue (u ++ p :: v)) none :=
          hpop.insert ho fun r => by
            rw [hl]
            simp
            tauto
        obtain ⟨Q₂, hh, hQ₂, hpop₂, -⟩ := sorted_sound hk hpop' hp hst
        have hpw : p ≠ w := fun he => ho.notWaiting (he ▸ hst)
        rw [Function.update_self] at hQ₂
        have hp₂ : p ∈ Q₂ .readyQueue := by
          rw [hQ₂, mem_insertByBurst]
          simp
        have hn₂ : (k.enqueueSortedTo .readyQueue w).next p ≠ none := fun h => by
          rw [(hh.linked.queue .readyQueue).next_eq_none_iff hp₂, hQ₂,
            getLast?_insertByBurst_iff hpw] at h
          have hqueue := hk.queue .readyQueue
          rw [Function.update_self] at hqueue
          have hnext := (hqueue.next_eq_none_iff (by simp)).mpr h.1
          rw [hqueue.next_eq] at hnext
          exact hv (List.head?_eq_none_iff.mp hnext)
        have hreturn : (k.enqueueSortedTo .readyQueue w).queueStatement (.sortedLast .readyQueue p)
            = some (k.enqueueSortedTo .readyQueue w, .returns none) := by
          rw [queueStatement, if_neg (show ((k.enqueueSortedTo .readyQueue w).pcb p).nextReady
            ≠ none from hn₂)]
        exact (completed_returns hreturn).mpr (hpop₂.removed hh.linked (fun _ h => by cases h))
  -- The others are places of functions that SJF does not call.
  | enqueueClear | enqueueReady | enqueueTest | enqueueHead | enqueueOnlyTail | enqueueLink
  | enqueueTail => exact absurd rfl hshape.1.1
  | removeTest | removeHead | removeLink | removeTailTest | removeTail =>
      exact hshape.1.elim (fun h => by cases h) (fun h => by cases h)

end DemoOS
