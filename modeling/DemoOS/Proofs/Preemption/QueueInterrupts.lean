import DemoOS.Proofs.Preemption.Queues

/-!
# `DemoOS.Proofs.Preemption.QueueInterrupts`: where a handler may cut a queue operation

`Handled` is what a handler does to sound queues, seen from an operation that has not ended:
the processes outside of the queues and their links stay as they are. `wakeUp_handled` and
`boost_handled` derive it for the two handlers.

Where an operation has written one of two pointers, the queues are not sound, and the handler
is compared with its run on a sound kernel nearby. Damage is shown with `Walks`: the lists that
the head pointers lead through, of which a ready process is no member (`Walks.lost`), or whose
last process is not the tail (`Walks.wrongTail`).

`wakeUp_fifo_iff` is the result for the UART handler under the algorithms that append.
-/

set_option autoImplicit false

namespace DemoOS

open Support Kernel

variable {alg : SchedAlgorithm} {k k₂ : Kernel} {Q Q₂ : QueueId → List PcbPtr} {q : QueueId}
  {p w : PcbPtr} {m : Option PcbPtr}

/-! ### The handlers on sound queues -/

/-- The lists hold distinct processes of the table. -/
theorem Population.length_le (h : Population k Q m) (hk : k.Linked Q) (q : QueueId) :
    (Q q).length ≤ N_PROCESSES := by
  have hslot : ∀ p ∈ Q q, ∃ i, i < N_PROCESSES ∧ k.processes i = some p := fun p hp => (h.member q p hp).1
  choose! slot hslot using hslot
  have hinj : ∀ x ∈ Q q, ∀ y ∈ Q q, slot x = slot y → x = y := by
    intro x hx y hy hxy
    have hx' := (hslot x hx).2
    rw [hxy, (hslot y hy).2] at hx'
    exact (Option.some.inj hx').symm
  have hsub : (Q q).map slot ⊆ List.range N_PROCESSES := by
    intro i hi
    obtain ⟨p, hp, rfl⟩ := List.mem_map.mp hi
    exact List.mem_range.mpr (hslot p hp).1
  have hle := (((hk.nodup q).map_on hinj).subperm hsub).length_le
  rw [List.length_map, List.length_range] at hle
  exact hle

/-- A process that waits for input is in no queue. -/
theorem Population.waiting (h : Population k Q m) (hst : (k.pcb w).state = .waitingUartInput) :
    w ≠ .initProcess ∧ ∀ q, w ∉ Q q :=
  ⟨fun he => h.init (he ▸ hst), fun q hq => (h.member q w hq).2.2 hst⟩

/-- What both handlers do to processes outside of the queues, and to the table. -/
structure Handled (k : Kernel) (Q : QueueId → List PcbPtr) (woken : Option PcbPtr) (k₂ : Kernel)
    (Q₂ : QueueId → List PcbPtr) : Prop where
  linked : k₂.Linked Q₂
  processes : k₂.processes = k.processes
  state : ∀ r, (k₂.pcb r).state = (k.pcb r).state
    ∨ (k₂.pcb r).state = .ready ∧ ∃ q, r ∈ Q₂ q
  keeps : ∀ q r, r ∈ Q q → ∃ q', r ∈ Q₂ q'
  only : ∀ q r, r ∈ Q₂ q → (∃ q', r ∈ Q q') ∨ some r = woken
  next : ∀ r, (∀ q, r ∉ Q q) → some r ≠ woken → k₂.next r = k.next r

namespace Handled

variable {woken : Option PcbPtr}

theorem isProcess (h : Handled k Q woken k₂ Q₂) (p : PcbPtr) : k₂.IsProcess p ↔ k.IsProcess p := by
  unfold Kernel.IsProcess
  rw [h.processes]

theorem population (h : Handled k Q woken k₂ Q₂) (hpop : Population k Q m)
    (hw : ∀ w ∈ woken, k.IsProcess w ∧ w ≠ .initProcess ∧ (k₂.pcb w).state = .ready) :
    Population k₂ Q₂ m where
  member q r hr := by
    have hready : (k₂.pcb r).state = .ready → (k₂.pcb r).state ≠ .waitingUartInput := fun hst => by
      rw [hst]
      decide
    rcases h.only q r hr with ⟨q', hq'⟩ | hwoken
    · obtain ⟨hp, hne, hst⟩ := hpop.member q' r hq'
      refine ⟨(h.isProcess r).mpr hp, hne, ?_⟩
      rcases h.state r with heq | ⟨hst', -⟩
      · exact heq ▸ hst
      · exact hready hst'
    · obtain ⟨hp, hne, hst⟩ := hw r hwoken.symm
      exact ⟨(h.isProcess r).mpr hp, hne, hready hst⟩
  ready r hr hne hm hst := by
    rcases h.state r with heq | ⟨-, hq⟩
    · obtain ⟨q, hq⟩ := hpop.ready r ((h.isProcess r).mp hr) hne hm (heq ▸ hst)
      exact h.keeps q r hq
    · exact hq
  init := by
    rcases h.state .initProcess with heq | ⟨hst, -⟩
    · exact heq ▸ hpop.init
    · rw [hst]
      decide

theorem outside (h : Handled k Q woken k₂ Q₂) (ho : Outside k Q p) (hw : some p ≠ woken) :
    Outside k₂ Q₂ p where
  process := (h.isProcess p).mpr ho.process
  notInit := ho.notInit
  notWaiting := by
    rcases h.state p with heq | ⟨hst, -⟩
    · exact heq ▸ ho.notWaiting
    · rw [hst]
      decide
  free q hq := by
    rcases h.only q p hq with ⟨q', hq'⟩ | hwoken
    · exact ho.free q' hq'
    · exact hw hwoken

end Handled

/-- The loop of `enqueue_sorted_to` stops at a process of the queue. -/
theorem sortedPosition_mem (hk : k.Linked Q) (hlen : (Q q).length ≤ N_PROCESSES) {h : PcbPtr}
    (hhead : (k.queues q).head = some h) (e : Int) :
    k.sortedPosition e N_PROCESSES h ∈ Q q := by
  have hq := hk.queue q
  obtain ⟨l, hl⟩ : ∃ l, Q q = h :: l := by
    rw [hq.head_eq] at hhead
    exact List.head?_eq_some_iff.mp hhead
  have hwalk := hq.walk
  rw [hhead, hl] at hwalk
  obtain ⟨u, hu⟩ := sortedPosition_eq N_PROCESSES e hwalk (by rw [hl] at hlen; simp at hlen; omega)
  have hmem : k.sortedPosition e N_PROCESSES h
      ∈ h :: l.takeWhile (fun r => (k.pcb r).estBurst ≤ e) := by
    rw [hu]
    exact List.mem_append_right _ (List.mem_singleton_self _)
  rw [hl]
  rcases List.mem_cons.mp hmem with heq | hmem
  · rw [heq]
    exact .head _
  · exact .tail _ ((List.takeWhile_prefix _).subset hmem)

/-- `enqueue_process_to` writes no link of a process outside of the queues. -/
theorem enqueueProcessTo_next (hk : k.Linked Q) (hw : ∀ q, w ∉ Q q) (hfree : ∀ q, p ∉ Q q)
    (hne : p ≠ w) : (k.enqueueProcessTo q w).next p = k.next p := by
  obtain ⟨k₁, hk₁⟩ : ∃ k₁, k₁ = ((k.setLink w none).setState w .ready).log (.enqueued q w) :=
    ⟨_, rfl⟩
  have hnext : k₁.next p = k.next p := by
    rw [hk₁]
    simp [Function.update_of_ne hne]
  have hlinked : k₁.Linked Q := by
    rw [hk₁]
    exact ((hk.setLink_free hw none).modifyPcb (fun b => b.withState .ready) fun _ => rfl).log _
  unfold enqueueProcessTo
  split
  · rfl
  · dsimp only
    rw [← hk₁]
    split
    · exact hnext
    · next t ht =>
        have hpt : p ≠ t := fun he =>
          hfree q (he ▸ List.mem_of_getLast? ((hlinked.queue q).tail_eq.symm.trans ht))
        rw [next_setQueue, next_setLink, Function.update_of_ne hpt]
        exact hnext

/-- `enqueue_process` writes no link of a process outside of the queues. -/
theorem enqueueProcess_next (hk : k.Linked Q) (hlen : ∀ q, (Q q).length ≤ N_PROCESSES)
    (hw : ∀ q, w ∉ Q q) (hfree : ∀ q, p ∉ Q q) (hne : p ≠ w) :
    (k.enqueueProcess alg w).next p = k.next p := by
  obtain ⟨k₁, hk₁⟩ : ∃ k₁ : Kernel → QueueId → Kernel, k₁ = fun k q =>
      ((k.setLink w none).setState w .ready).log (.enqueued q w) := ⟨_, rfl⟩
  have hnext : ∀ q, (k₁ k q).next p = k.next p := fun q => by
    rw [hk₁]
    simp [Function.update_of_ne hne]
  have hlinked : ∀ q, (k₁ k q).Linked Q := fun q => by
    rw [hk₁]
    exact ((hk.setLink_free hw none).modifyPcb (fun b => b.withState .ready) fun _ => rfl).log _
  have hsorted : ∀ q, (k.enqueueSortedTo q w).next p = k.next p := by
    intro q
    unfold enqueueSortedTo
    split
    · rfl
    · dsimp only
      rw [show ((k.setLink w none).setState w .ready).log (.enqueued q w) = k₁ k q by rw [hk₁]]
      split
      · exact hnext q
      · next h hhead =>
          split
          · rw [next_setQueue, next_setLink, Function.update_of_ne hne]
            exact hnext q
          · have hpos := sortedPosition_mem (hlinked q) (hlen q) hhead ((k₁ k q).pcb w).estBurst
            have hpp : p ≠ (k₁ k q).sortedPosition ((k₁ k q).pcb w).estBurst N_PROCESSES h :=
              fun he => hfree q (he ▸ hpos)
            rw [next_setQueue, next_setLink, Function.update_of_ne hpp, next_setLink,
              Function.update_of_ne hne]
            exact hnext q
  unfold enqueueProcess
  split
  · rfl
  · cases alg with
    | sjf => exact hsorted _
    | _ => exact enqueueProcessTo_next hk hw hfree hne

/-- The UART handler inserts the process into the queue that the algorithm chooses. -/
theorem wakeUp_handled (hk : k.Linked Q) (hpop : Population k Q m)
    (hst : (k.pcb w).state = .waitingUartInput) {q' : QueueId}
    (hq' : alg.queueAt (k.queueLevel (k.pcb w).pid) = q') :
    Handled k Q (some w) ((k.setState w .ready).enqueueProcess alg w)
        (Function.update Q q' (alg.place k.view w (Q q')))
      ∧ (((k.setState w .ready).enqueueProcess alg w).pcb w).state = .ready := by
  obtain ⟨hne, hfree⟩ := hpop.waiting hst
  have hlen := hpop.length_le hk
  obtain ⟨k₁, hk₁⟩ : ∃ k₁, k₁ = k.setState w .ready := ⟨_, rfl⟩
  have hlinked₁ : k₁.Linked Q := hk₁ ▸ hk.modifyPcb (fun b => b.withState .ready) fun _ => rfl
  have hburst : ∀ r, (k₁.view r).estBurst = (k.view r).estBurst := by
    intro r
    rw [hk₁, view_setState]
    by_cases hr : r = w
    · rw [hr, Function.update_self]
      rfl
    · rw [Function.update_of_ne hr]
  have hlevel : k₁.queueLevel (k₁.pcb w).pid = k.queueLevel (k.pcb w).pid := by
    rw [hk₁, setState, modifyPcb_pcb_self]
    rfl
  have hview : (k₁.enqueueProcess alg w).view
      = Function.update k.view w ((k.view w).withState .ready) := by
    have hone : Function.update k₁.view w ((k₁.view w).withState .ready)
        = Function.update k.view w ((k.view w).withState .ready) := by
      rw [hk₁, view_setState, Function.update_self, Function.update_idem]
      rfl
    unfold enqueueProcess
    rw [if_neg hne, ← hone]
    cases alg with
    | sjf => exact enqueueSortedTo_view hne
    | _ => exact enqueueProcessTo_view hne
  have hlinked : (k₁.enqueueProcess alg w).Linked
      (Function.update Q q' (alg.place k.view w (Q q'))) := by
    rw [← hq', ← SchedAlgorithm.place_congr alg hburst, ← hlevel]
    unfold enqueueProcess
    rw [if_neg hne]
    cases alg with
    | sjf => exact enqueueSortedTo_linked hlinked₁ hne hfree (hlen _)
    | _ => exact enqueueProcessTo_linked hlinked₁ hne hfree
  have hmem : ∀ q r, r ∈ Function.update Q q' (alg.place k.view w (Q q')) q
      ↔ r ∈ Q q ∨ q = q' ∧ r = w := by
    intro q r
    by_cases hq : q = q'
    · rw [hq, Function.update_self, SchedAlgorithm.mem_place]
      tauto
    · rw [Function.update_of_ne hq]
      tauto
  rw [← hk₁]
  have hstate : ((k₁.enqueueProcess alg w).pcb w).state = .ready := by
    have hw := congrArg (fun v => (v w).state) hview
    rw [Function.update_self] at hw
    exact hw
  refine ⟨⟨hlinked, ?_, fun r => ?_, fun q r hr => ⟨q, (hmem q r).mpr (Or.inl hr)⟩, fun q r hr => ?_,
    fun r hr hrw => ?_⟩, hstate⟩
  · exact (rest_processes (enqueueProcess_rest alg k₁ w)).trans (by rw [hk₁]; rfl)
  · have hr : ((k₁.enqueueProcess alg w).pcb r).state = ((k₁.enqueueProcess alg w).view r).state := rfl
    rw [hr, hview]
    by_cases hrw : r = w
    · rw [hrw, Function.update_self]
      exact Or.inr ⟨rfl, q', (hmem q' w).mpr (Or.inr ⟨rfl, rfl⟩)⟩
    · rw [Function.update_of_ne hrw]
      exact Or.inl rfl
  · rcases (hmem q r).mp hr with hr | ⟨-, hr⟩
    · exact Or.inl ⟨q, hr⟩
    · exact Or.inr (congrArg some hr)
  · have hne' : r ≠ w := fun he => hrw (congrArg some he)
    rw [enqueueProcess_next hlinked₁ hlen hfree hr hne', hk₁, next_setState]

section Boost

theorem Handled.refl (hk : k.Linked Q) : Handled k Q none k Q :=
  ⟨hk, rfl, fun _ => Or.inl rfl, fun q _ hr => ⟨q, hr⟩, fun q _ hr => Or.inl ⟨q, hr⟩,
    fun _ _ _ => rfl⟩

theorem Handled.trans {k₁ : Kernel} {Q₁ : QueueId → List PcbPtr} (h : Handled k Q none k₁ Q₁)
    (h' : Handled k₁ Q₁ none k₂ Q₂) : Handled k Q none k₂ Q₂ where
  linked := h'.linked
  processes := h'.processes.trans h.processes
  state r := by
    rcases h'.state r with heq | hready
    · rcases h.state r with heq₁ | ⟨hst, q, hq⟩
      · exact Or.inl (heq.trans heq₁)
      · exact Or.inr ⟨heq.trans hst, h'.keeps q r hq⟩
    · exact Or.inr hready
  keeps q r hr := by
    obtain ⟨q₁, hq₁⟩ := h.keeps q r hr
    exact h'.keeps q₁ r hq₁
  only q r hr := by
    rcases h'.only q r hr with ⟨q₁, hq₁⟩ | hw
    · exact h.only q₁ r hq₁
    · exact nomatch hw
  next r hr hw := by
    have hr₁ : ∀ q, r ∉ Q₁ q := fun q hq => by
      rcases h.only q r hq with ⟨q', hq'⟩ | hw
      · exact hr q' hq'
      · exact nomatch hw
    exact (h'.next r hr₁ hw).trans (h.next r hr hw)

theorem Handled.stays_ready {woken : Option PcbPtr} (h : Handled k Q woken k₂ Q₂)
    (hst : (k.pcb p).state = .ready) : (k₂.pcb p).state = .ready := by
  rcases h.state p with heq | ⟨hst', -⟩
  · exact heq.trans hst
  · exact hst'

/-- The lists after the process `p` has moved from the front of one queue to the end of
another. -/
private theorem move_handled {level : Nat} {l : List PcbPtr} (hlevel : level ≠ 0) (hk : k.Linked Q)
    (hne : p ≠ .initProcess) (hl : Q (.mlQueue level) = p :: l) {k₁ : Kernel} {f : Nat → Nat}
    (hdequeue : k.dequeueProcessFrom (.mlQueue level) = (k₁, some p)) :
    Handled k Q none (enqueueProcessTo { k₁ with queueLevel := f } (.mlQueue 0) p)
      (Function.update (Function.update Q (.mlQueue level) l) (.mlQueue 0)
        (Q (.mlQueue 0) ++ [p])) := by
  obtain ⟨k', hk', hlinked, hview, hrest, -⟩ := dequeueProcessFrom_cons hk hl
  obtain ⟨rfl, -⟩ := Prod.mk.inj (hdequeue.symm.trans hk')
  have hqueues : QueueId.mlQueue 0 ≠ .mlQueue level := fun h => hlevel (QueueId.mlQueue.inj h).symm
  have hpq : p ∈ Q (.mlQueue level) := by rw [hl]; exact .head _
  have hpl : p ∉ l := by
    have hnd := hk.nodup (.mlQueue level)
    rw [hl] at hnd
    exact (List.nodup_cons.mp hnd).1
  have hfree : ∀ q, p ∉ Function.update Q (.mlQueue level) l q := fun q hq => by
    by_cases he : q = .mlQueue level
    · rw [he, Function.update_self] at hq
      exact hpl hq
    · rw [Function.update_of_ne he] at hq
      exact he (hk.disjoint hq hpq)
  have hlinked' : ({ k₁ with queueLevel := f } : Kernel).Linked
      (Function.update Q (.mlQueue level) l) := hlinked.congr rfl rfl
  have hend := enqueueProcessTo_linked (q := .mlQueue 0) hlinked' hne hfree
  rw [Function.update_of_ne hqueues] at hend
  have hmem : ∀ q r, r ∈ Function.update (Function.update Q (.mlQueue level) l) (.mlQueue 0)
      (Q (.mlQueue 0) ++ [p]) q → r = p ∨ r ∈ Q q := by
    intro q r hr
    by_cases h0 : q = .mlQueue 0
    · subst h0
      rw [Function.update_self] at hr
      rcases List.mem_append.mp hr with hr | hr
      · exact Or.inr hr
      · exact Or.inl (List.mem_singleton.mp hr)
    · rw [Function.update_of_ne h0] at hr
      by_cases he : q = .mlQueue level
      · subst he
        rw [Function.update_self] at hr
        exact Or.inr (by rw [hl]; exact .tail _ hr)
      · rw [Function.update_of_ne he] at hr
        exact Or.inr hr
  refine ⟨hend, ?_, fun r => ?_, fun q r hr => ?_, fun q r hr => ?_, fun r hr _ => ?_⟩
  · exact (rest_processes enqueueProcessTo_rest).trans (rest_processes hrest :)
  · have hstate := congrArg (fun v => (v r).state) (enqueueProcessTo_view (q := .mlQueue 0)
      (k := { k₁ with queueLevel := f }) hne)
    have hv : ({ k₁ with queueLevel := f } : Kernel).view = k.view := hview
    rw [hv] at hstate
    by_cases hrp : r = p
    · refine Or.inr ⟨hstate.trans ?_, .mlQueue 0, ?_⟩
      · rw [hrp, Function.update_self]
        rfl
      · rw [hrp, Function.update_self]
        exact List.mem_append_right _ (List.mem_singleton_self p)
    · refine Or.inl (hstate.trans ?_)
      rw [Function.update_of_ne hrp]
      rfl
  · by_cases hrp : r = p
    · exact ⟨.mlQueue 0, by rw [Function.update_self]; exact List.mem_append_right _ (by simp [hrp])⟩
    · refine ⟨q, ?_⟩
      by_cases h0 : q = .mlQueue 0
      · subst h0
        rw [Function.update_self]
        exact List.mem_append_left _ hr
      · rw [Function.update_of_ne h0]
        by_cases he : q = .mlQueue level
        · subst he
          rw [hl] at hr
          rw [Function.update_self]
          exact (List.mem_cons.mp hr).resolve_left hrp
        · rw [Function.update_of_ne he]
          exact hr
  · rcases hmem q r hr with rfl | hr
    · exact Or.inl ⟨_, hpq⟩
    · exact Or.inl ⟨q, hr⟩
  · have hrp : r ≠ p := fun he => hr _ (he ▸ hpq)
    have hr₁ : ∀ q, r ∉ Function.update Q (.mlQueue level) l q := fun q hq => by
      by_cases he : q = .mlQueue level
      · rw [he, Function.update_self] at hq
        exact hr (.mlQueue level) (by rw [hl]; exact .tail _ hq)
      · rw [Function.update_of_ne he] at hq
        exact hr q hq
    have hnext₁ : k₁.next r = k.next r := by
      have hhead : (k.queues (.mlQueue level)).head = some p := by
        rw [(hk.queue _).head_eq, hl]
        rfl
      simp only [dequeueProcessFrom, hhead] at hdequeue
      obtain ⟨rfl, -⟩ := Prod.mk.inj hdequeue
      rw [next_setLink, Function.update_of_ne hrp]
      rfl
    exact (enqueueProcessTo_next (q := .mlQueue 0) hlinked' hfree hr₁ hrp).trans hnext₁

/-- The boost of one lower queue. -/
theorem boostQueue_handled {level : Nat} (hlevel : level ≠ 0) {fuel : Nat} (hk : k.Linked Q)
    (hinit : ∀ q, .initProcess ∉ Q q) (hfuel : (Q (.mlQueue level)).length < fuel) :
    ∃ k₂, boostQueue level fuel k = some k₂
      ∧ Handled k Q none k₂ (Function.update (Function.update Q (.mlQueue level) [])
          (.mlQueue 0) (Q (.mlQueue 0) ++ Q (.mlQueue level)))
      ∧ ∀ r ∈ Q (.mlQueue level), (k₂.pcb r).state = .ready := by
  have hqueues : QueueId.mlQueue 0 ≠ .mlQueue level := fun h => hlevel (QueueId.mlQueue.inj h).symm
  induction fuel generalizing k Q with
  | zero => exact absurd hfuel (Nat.not_lt_zero _)
  | succ fuel ih =>
      unfold boostQueue
      cases hl : Q (.mlQueue level) with
      | nil =>
          rw [dequeueProcessFrom_nil hk hl]
          refine ⟨k, rfl, ?_, fun _ hr => (nomatch hr)⟩
          rw [List.append_nil, ← hl, Function.update_eq_self, Function.update_eq_self]
          exact .refl hk
      | cons p l =>
          obtain ⟨k₁, hk₁, -⟩ := dequeueProcessFrom_cons hk hl
          have hne : p ≠ .initProcess := fun he => hinit (.mlQueue level) (by rw [hl, he]; exact .head _)
          have hmove := move_handled (f := Function.update k₁.queueLevel (k₁.pcb p).pid 0) hlevel hk
            hne hl hk₁
          have hmove_ready := congrArg (fun v => (v p).state) (enqueueProcessTo_view
            (q := .mlQueue 0) (k := { k₁ with
              queueLevel := Function.update k₁.queueLevel (k₁.pcb p).pid 0 }) hne)
          rw [Function.update_self] at hmove_ready
          rw [hk₁]
          dsimp only
          obtain ⟨Q₁, hQ₁⟩ : ∃ Q₁, Q₁ = Function.update (Function.update Q (.mlQueue level) l)
            (.mlQueue 0) (Q (.mlQueue 0) ++ [p]) := ⟨_, rfl⟩
          have hlevel₁ : Q₁ (.mlQueue level) = l := by
            rw [hQ₁, Function.update_of_ne hqueues.symm, Function.update_self]
          have hzero₁ : Q₁ (.mlQueue 0) = Q (.mlQueue 0) ++ [p] := by rw [hQ₁, Function.update_self]
          rw [← hQ₁] at hmove
          have hinit₁ : ∀ q, .initProcess ∉ Q₁ q := fun q hq => by
            rcases hmove.only q _ hq with ⟨q', hq'⟩ | hw
            · exact hinit q' hq'
            · exact nomatch hw
          obtain ⟨k₂, hk₂, hhandled, hready⟩ := ih hmove.linked hinit₁ (by
            rw [hlevel₁]
            rw [hl] at hfuel
            simpa using hfuel)
          refine ⟨k₂, hk₂, ?_, fun r hr => ?_⟩
          rotate_left
          · rcases List.mem_cons.mp hr with rfl | hr
            · exact hhandled.stays_ready hmove_ready
            · exact hready r (hlevel₁ ▸ hr)
          have hlists : Function.update (Function.update Q₁ (.mlQueue level) []) (.mlQueue 0)
              (Q₁ (.mlQueue 0) ++ Q₁ (.mlQueue level))
            = Function.update (Function.update Q (.mlQueue level) []) (.mlQueue 0)
              (Q (.mlQueue 0) ++ p :: l) := by
            funext q
            rw [hlevel₁, hzero₁, List.append_assoc, List.singleton_append]
            by_cases h0 : q = .mlQueue 0
            · rw [h0, Function.update_self, Function.update_self]
            · rw [Function.update_of_ne h0, Function.update_of_ne h0]
              by_cases he : q = .mlQueue level
              · rw [he, Function.update_self, Function.update_self]
              · rw [Function.update_of_ne he, Function.update_of_ne he, hQ₁,
                  Function.update_of_ne h0, Function.update_of_ne he]
          rw [← hlists]
          exact hmove.trans hhandled

/-- The boost of several lower queues. -/
theorem boostQueues_handled (levels : List Nat) (hlevels : ∀ level ∈ levels, level ≠ 0) {fuel : Nat}
    (hk : k.Linked Q) (hinit : ∀ q, .initProcess ∉ Q q)
    (hfuel : ∀ level ∈ levels, (Q (.mlQueue level)).length < fuel) :
    ∃ k₂ Q₂ moved, levels.foldlM (fun k q => boostQueue q fuel k) k = some k₂
      ∧ Handled k Q none k₂ Q₂
      ∧ (∀ level ≠ 0, level ∈ levels ∨ Q (.mlQueue level) = [] → Q₂ (.mlQueue level) = [])
      ∧ Q₂ (.mlQueue 0) = Q (.mlQueue 0) ++ moved
      ∧ (moved = [] ↔ ∀ level ∈ levels, Q (.mlQueue level) = [])
      ∧ (levels.Nodup → moved = levels.flatMap fun level => Q (.mlQueue level))
      ∧ ∀ r ∈ moved, (k₂.pcb r).state = .ready := by
  induction levels generalizing k Q with
  | nil => exact ⟨k, Q, [], rfl, .refl hk, by simp, by simp, by simp, fun _ => rfl, by simp⟩
  | cons level levels ih =>
      have hlevel := hlevels level (.head _)
      obtain ⟨k₁, hk₁, hone, hready⟩ := boostQueue_handled hlevel hk hinit (hfuel level (.head _))
      obtain ⟨Q₁, hQ₁⟩ : ∃ Q₁, Q₁ = Function.update (Function.update Q (.mlQueue level) [])
        (.mlQueue 0) (Q (.mlQueue 0) ++ Q (.mlQueue level)) := ⟨_, rfl⟩
      rw [← hQ₁] at hone
      have hzero : Q₁ (.mlQueue 0) = Q (.mlQueue 0) ++ Q (.mlQueue level) := by
        rw [hQ₁, Function.update_self]
      have hself : Q₁ (.mlQueue level) = [] := by
        rw [hQ₁, Function.update_of_ne fun h => hlevel (QueueId.mlQueue.inj h), Function.update_self]
      have hother : ∀ l, l ≠ 0 → l ≠ level → Q₁ (.mlQueue l) = Q (.mlQueue l) := fun l h0 hl => by
        rw [hQ₁, Function.update_of_ne fun h => h0 (QueueId.mlQueue.inj h),
          Function.update_of_ne fun h => hl (QueueId.mlQueue.inj h)]
      have hinit₁ : ∀ q, .initProcess ∉ Q₁ q := fun q hq => by
        rcases hone.only q _ hq with ⟨q', hq'⟩ | hw
        · exact hinit q' hq'
        · exact nomatch hw
      have hlow : ∀ l ∈ levels, Q₁ (.mlQueue l) = [] ∨ Q₁ (.mlQueue l) = Q (.mlQueue l) := by
        intro l hl
        by_cases he : l = level
        · exact Or.inl (he ▸ hself)
        · exact Or.inr (hother l (hlevels l (.tail _ hl)) he)
      obtain ⟨k₂, Q₂, moved, hk₂, hrest, hempty, hmoved, hnone, hconcat, hready'⟩ := ih
        (fun l hl => hlevels l (.tail _ hl)) hone.linked hinit₁ fun l hl => by
          rcases hlow l hl with h | h <;> rw [h]
          · exact Nat.lt_of_le_of_lt (Nat.zero_le _) (hfuel level (.head _))
          · exact hfuel l (.tail _ hl)
      refine ⟨k₂, Q₂, Q (.mlQueue level) ++ moved, ?_, hone.trans hrest,
        fun l h0 hl => hempty l h0 ?_, ?_, ?_, fun hnodup => ?_, fun r hr => ?_⟩
      · rw [List.foldlM_cons, hk₁]
        exact hk₂
      · by_cases he : l = level
        · exact Or.inr (he ▸ hself)
        · rw [hother l h0 he]
          exact hl.imp (fun hl => (List.mem_cons.mp hl).resolve_left he) id
      · rw [hmoved, hzero, List.append_assoc]
      · rw [List.append_eq_nil_iff, hnone, List.forall_mem_cons]
        refine and_congr_right fun hnil => forall₂_congr fun l hl => ?_
        by_cases he : l = level
        · subst he
          simp [hself, hnil]
        · rw [hother l (hlevels l (.tail _ hl)) he]
      · -- The queues still to come are the ones from before.
        obtain ⟨hfresh, hrest⟩ := List.nodup_cons.mp hnodup
        rw [List.flatMap_cons, hconcat hrest]
        refine congrArg (Q (.mlQueue level) ++ ·) (List.flatMap_congr fun l hl => ?_)
        exact hother l (hlevels l (.tail _ hl)) fun he => hfresh (he ▸ hl)
      · rcases List.mem_append.mp hr with hr | hr
        · exact hrest.stays_ready (hready r hr)
        · exact hready' r hr

/-- A tick on which the boost is due. -/
theorem boost_handled (hk : k.Linked Q) (hpop : Population k Q m)
    (h : k.interrupt alg .boost = some k₂) :
    alg = .mlfq ∧ ∃ Q₂ moved, Handled k Q none k₂ Q₂
      ∧ (∀ level, 0 < level → level < ML_MAX_LEVELS → Q₂ (.mlQueue level) = [])
      ∧ Q₂ (.mlQueue 0) = Q (.mlQueue 0) ++ moved
      ∧ (moved = [] ↔ ∀ level, 0 < level → level < ML_MAX_LEVELS → Q (.mlQueue level) = [])
      ∧ ∀ r ∈ moved, (k₂.pcb r).state = .ready := by
  rw [interrupt] at h
  split at h
  · next hdue =>
      refine ⟨hdue.1, ?_⟩
      have hlevels : ∀ level, level ∈ List.range' 1 (mlPolicyMlfq.nLevels - 1)
          ↔ 0 < level ∧ level < ML_MAX_LEVELS := by
        intro level
        rw [List.mem_range'_1]
        show 1 ≤ level ∧ level < 1 + 4 ↔ 0 < level ∧ level < 5
        omega
      obtain ⟨k₀, hk₀⟩ : ∃ k₀ : Kernel, k₀ = { k with mlTicksSinceBoost := k.mlTicksSinceBoost + 1 } :=
        ⟨_, rfl⟩
      have hlinked₀ : k₀.Linked Q := hk₀ ▸ hk.congr rfl rfl
      obtain ⟨k₁, Q₁, moved, hk₁, hh, hempty, hmoved, hnone, -, hready⟩ := boostQueues_handled
        (List.range' 1 (mlPolicyMlfq.nLevels - 1))
        (fun level hl => by have := (hlevels level).mp hl; omega) hlinked₀
        (fun q hq => (hpop.member q _ hq).2.1 rfl)
        (fun level _ => show (Q (.mlQueue level)).length < N_PROCESSES + 1 from
          Nat.lt_succ_of_le (hpop.length_le hk _))
      have hk₂ : k₂ = { k₁ with
          queueLevel := fun i => if i < N_PROCESSES then 0 else k₁.queueLevel i
          mlTicksSinceBoost := 0 } := by
        unfold Kernel.boost at h
        dsimp only at h
        rw [if_pos hdue.2, ← hk₀, hk₁] at h
        exact (Option.some.inj h).symm
      refine ⟨Q₁, moved, ⟨?_, ?_, ?_, ?_, hh.only, ?_⟩, fun level h0 h5 => ?_, hmoved, ?_,
        fun r hr => ?_⟩
      · rw [hk₂]
        exact hh.linked.congr rfl rfl
      · rw [hk₂]
        exact hh.processes.trans (by rw [hk₀])
      · intro r
        rw [hk₂]
        have hr := hh.state r
        rw [hk₀] at hr
        exact hr
      · exact hh.keeps
      · intro r hr hw
        rw [hk₂]
        exact (hh.next r hr hw).trans (by rw [hk₀]; rfl)
      · exact hempty level (by omega) (Or.inl ((hlevels level).mpr ⟨h0, h5⟩))
      · rw [hnone]
        exact ⟨fun h level h0 h5 => h level ((hlevels level).mpr ⟨h0, h5⟩),
          fun h level hl => h level ((hlevels level).mp hl).1 ((hlevels level).mp hl).2⟩
      · rw [hk₂]
        exact hready r hr
  · exact nomatch h

/-- With nothing in the lower queues the boost moves nobody. -/
theorem boost_idle (hlow : ∀ level, 0 < level → level < ML_MAX_LEVELS →
      (k.queues (.mlQueue level)).head = none) (h : k.interrupt alg .boost = some k₂) :
    k₂ = { k with
      queueLevel := fun i => if i < N_PROCESSES then 0 else k.queueLevel i
      mlTicksSinceBoost := 0 } := by
  have hone : ∀ (level fuel : Nat) (k : Kernel), (k.queues (.mlQueue level)).head = none →
      boostQueue level (fuel + 1) k = some k := by
    intro level fuel k hhead
    unfold boostQueue
    simp only [dequeueProcessFrom, hhead]
  have hmany : ∀ (levels : List Nat) (k : Kernel),
      (∀ level ∈ levels, (k.queues (.mlQueue level)).head = none) →
        levels.foldlM (fun k q => boostQueue q (N_PROCESSES + 1) k) k = some k := by
    intro levels
    induction levels with
    | nil => exact fun _ _ => rfl
    | cons level levels ih =>
        intro k hl
        rw [List.foldlM_cons, hone level _ k (hl level (.head _))]
        exact ih k fun l h => hl l (.tail _ h)
  rw [interrupt] at h
  split at h
  · next hdue =>
      unfold Kernel.boost at h
      dsimp only at h
      rw [if_pos hdue.2, hmany] at h
      · exact (Option.some.inj h).symm
      · intro level hl
        rw [List.mem_range'_1] at hl
        exact hlow level (by omega) (show level < 5 by have : level < 1 + 4 := hl.2; omega)
  · cases h

end Boost

/-! ### Damage -/

/-- The pointers lead through these lists, whatever the tails are. -/
def Walks (k : Kernel) (R : QueueId → List PcbPtr) : Prop :=
  ∀ q, Segment k.next (k.queues q).head (R q) none

section Damage
variable {k' : Kernel} {R : QueueId → List PcbPtr} {l : List PcbPtr} {out : Option PcbPtr}

theorem Kernel.Linked.walks (hk : k.Linked Q) : Walks k Q := fun q => (hk.queue q).walk

/-- Other tails, and other links outside of the lists. -/
theorem Walks.congr (h : Walks k R) (hhead : ∀ q, (k'.queues q).head = (k.queues q).head)
    (hnext : ∀ q, ∀ r ∈ R q, k'.next r = k.next r) : Walks k' R := fun q => by
  rw [hhead]
  exact (h q).congr (hnext q)

theorem Walks.update (h : Walks k R) (hq : Segment k'.next (k'.queues q).head l none)
    (hother : ∀ q' ≠ q, (k'.queues q').head = (k.queues q').head ∧ ∀ r ∈ R q', k'.next r = k.next r) :
    Walks k' (Function.update R q l) := fun q' => by
  by_cases hq' : q' = q
  · rw [hq', Function.update_self]
    exact hq
  · rw [Function.update_of_ne hq', (hother q' hq').1]
    exact (h q').congr (hother q' hq').2

theorem Walks.unique (h : Walks k R) (hk : k.Linked Q) (q : QueueId) : Q q = R q :=
  (hk.queue q).walk.unique (h q)

/-- A ready process is in no list. -/
theorem Walks.lost (h : Walks k R) (hp : k.IsProcess p) (hne : p ≠ .initProcess)
    (hst : (k.pcb p).state = .ready) (hout : some p ≠ out) (hlost : ∀ q, p ∉ R q) :
    ¬ k.EachReadyOnce out := by
  rintro ⟨Q', hk, hready, -⟩
  obtain ⟨q, hq⟩ := hready p hp hne hout hst
  exact hlost q (h.unique hk q ▸ hq)

/-- A tail is not the last process. -/
theorem Walks.wrongTail (h : Walks k R) (htail : (k.queues q).tail ≠ (R q).getLast?) :
    ¬ k.EachReadyOnce out := by
  rintro ⟨Q', hk, -, -⟩
  rw [← h.unique hk q] at htail
  exact htail (hk.queue q).tail_eq

end Damage

/-! ### The UART handler under first-in first-out insertion -/

section Fifo

/-- The wake-up appends to the queue of the process. -/
theorem wakeUp_eq (halg : alg ≠ .sjf) (hne : w ≠ .initProcess) {q' : QueueId}
    (hq' : alg.queueAt (k.queueLevel (k.pcb w).pid) = q') :
    (k.setState w .ready).enqueueProcess alg w = (k.setState w .ready).enqueueProcessTo q' w := by
  have hpid : ((k.setState w .ready).pcb w).pid = (k.pcb w).pid := by
    rw [setState, modifyPcb_pcb_self]
    rfl
  unfold enqueueProcess
  rw [if_neg hne, ← hq']
  cases alg with
  | sjf => exact absurd rfl halg
  | mlq | mlfq =>
      show (k.setState w .ready).enqueueProcessTo
        (.mlQueue ((k.setState w .ready).queueLevel ((k.setState w .ready).pcb w).pid)) w = _
      rw [hpid]
      rfl
  | _ => rfl

/-- Writing to the ends of another queue. -/
theorem setQueue_enqueueProcessTo {q' : QueueId} (hne : q' ≠ q) (x : ProcessQueue) :
    (k.setQueue q x).enqueueProcessTo q' w = (k.enqueueProcessTo q' w).setQueue q x := by
  have hqueue : (k.setQueue q x).queues q' = k.queues q' := setQueue_queues_of_ne _ _ hne
  have hcomm : ∀ y : ProcessQueue, Function.update (Function.update k.queues q x) q' y
      = Function.update (Function.update k.queues q' y) q x := fun y =>
    Function.update_comm hne.symm x y k.queues
  unfold enqueueProcessTo
  split
  · rfl
  · dsimp only
    rw [show (((k.setQueue q x).setLink w none).setState w .ready |>.log (.enqueued q' w)).queues q'
      = k.queues q' from hqueue]
    rw [show ((k.setLink w none).setState w .ready |>.log (.enqueued q' w)).queues q'
      = k.queues q' from rfl]
    split
    · simp only [setQueue, log, setState, setLink, modifyPcb, hcomm]
    · simp only [setQueue, log, setState, setLink, modifyPcb, hcomm]

/-- The wake-up writes to one queue only. -/
theorem wakeUp_setTail (halg : alg ≠ .sjf) (hw : w ≠ .initProcess) {q' : QueueId}
    (hq' : alg.queueAt (k.queueLevel (k.pcb w).pid) = q') (hne : q' ≠ q) (x : Option PcbPtr) :
    ((k.setTail q x).setState w .ready).enqueueProcess alg w
      = ((k.setState w .ready).enqueueProcess alg w).setTail q x := by
  have hqueue : ((k.setState w .ready).enqueueProcessTo q' w).queues q = k.queues q := by
    unfold enqueueProcessTo
    rw [if_neg hw]
    dsimp only
    split <;> exact setQueue_queues_of_ne _ _ hne.symm
  rw [wakeUp_eq halg hw hq', wakeUp_eq (k := k.setTail q x) halg hw hq']
  unfold setTail
  rw [hqueue]
  exact setQueue_enqueueProcessTo (k := k.setState w .ready) hne _

/-- A stale tail: the woken process is linked behind a process that has left the queue. -/
theorem wakeUp_stale (halg : alg ≠ .sjf) (hw : w ≠ .initProcess)
    (hq : alg.queueAt (k.queueLevel (k.pcb w).pid) = q) (hk : Walks k Q) (hfree : ∀ q, w ∉ Q q)
    (htail : (k.queues q).tail = some p) (hp : ∀ q, p ∉ Q q) :
    Walks ((k.setState w .ready).enqueueProcess alg w) Q
      ∧ (((k.setState w .ready).enqueueProcess alg w).queues q).head = (k.queues q).head
      ∧ (((k.setState w .ready).enqueueProcess alg w).queues q).tail = some w := by
  rw [wakeUp_eq halg hw hq]
  obtain ⟨k₁, hk₁⟩ : ∃ k₁, k₁ = ((((k.setState w .ready).setLink w none).setState w .ready).log
      (.enqueued q w)).setLink p (some w) := ⟨_, rfl⟩
  have hqueues : k₁.queues = k.queues := by rw [hk₁]; rfl
  have heq : (k.setState w .ready).enqueueProcessTo q w
      = k₁.setQueue q ⟨(k.queues q).head, some w⟩ := by
    unfold enqueueProcessTo
    rw [if_neg hw]
    dsimp only
    rw [show (((k.setState w .ready).setLink w none).setState w .ready |>.log
      (.enqueued q w)).queues q = k.queues q from rfl, htail, hk₁]
  rw [heq]
  refine ⟨hk.congr (fun q' => ?_) fun q' r hr => ?_, ?_, ?_⟩
  · by_cases hq' : q' = q
    · rw [hq', setQueue_queues_self]
    · rw [setQueue_queues_of_ne _ _ hq', hqueues]
  · have hrp : r ≠ p := fun he => hp q' (he ▸ hr)
    have hrw : r ≠ w := fun he => hfree q' (he ▸ hr)
    rw [next_setQueue, hk₁]
    simp [Function.update_of_ne hrp, Function.update_of_ne hrw]
  · rw [setQueue_queues_self]
  · rw [setQueue_queues_self]

/-- The list that a tail that comes late does not know yet. -/
theorem Population.append (hpop : Population k Q (some p)) (ho : Outside k Q p)
    (q : QueueId) :
    Population (k.setTail q (some p)) (Function.update Q q (Q q ++ [p])) none := by
  have hsame : SameStates k (k.setTail q (some p)) := ⟨rfl, fun _ => rfl⟩
  refine (hpop.same hsame).insert (ho.same hsame) fun r => ?_
  rw [List.mem_append, List.mem_singleton, or_comm]

/-- Back to the lists that do not have the process yet. -/
theorem TailBefore.of_population
    (hpop : Population (k.setTail q (some p)) (Function.update Q q (Q q ++ [p])) none)
    (hfree : ∀ q, p ∉ Q q) : Population k Q (some p) ∧ Outside k Q p := by
  have hmem : ∀ q' r, r ∈ Q q' → r ∈ Function.update Q q (Q q ++ [p]) q' := by
    intro q' r hr
    by_cases hq' : q' = q
    · rw [hq', Function.update_self]
      exact List.mem_append_left _ (hq' ▸ hr)
    · rw [Function.update_of_ne hq']
      exact hr
  have hself : p ∈ Function.update Q q (Q q ++ [p]) q := by
    rw [Function.update_self]
    exact List.mem_append_right _ (List.mem_singleton_self p)
  obtain ⟨hp, hne, hst⟩ := hpop.member q p hself
  refine ⟨⟨fun q' r hr => hpop.member q' r (hmem q' r hr), fun r hr hri hrp hst => ?_, hpop.init⟩,
    hp, hne, hst, hfree⟩
  obtain ⟨q', hq'⟩ := hpop.ready r hr hri (nomatch ·) hst
  refine ⟨q', ?_⟩
  by_cases he : q' = q
  · rw [he, Function.update_self] at hq'
    rcases List.mem_append.mp hq' with hq' | hq'
    · exact he ▸ hq'
    · exact absurd (congrArg some (List.mem_singleton.mp hq')) hrp
  · rw [Function.update_of_ne he] at hq'
    exact hq'

/-- The wake-up leaves the tails of the other queues alone. -/
theorem wakeUp_tail (halg : alg ≠ .sjf) (hw : w ≠ .initProcess) {q' : QueueId}
    (hq' : alg.queueAt (k.queueLevel (k.pcb w).pid) = q') (hne : q' ≠ q) :
    ((k.setState w .ready).enqueueProcess alg w).queues q = k.queues q := by
  rw [wakeUp_eq halg hw hq']
  unfold enqueueProcessTo
  rw [if_neg hw]
  dsimp only
  split <;> exact setQueue_queues_of_ne _ _ hne.symm

/-- The wake-up into another queue leaves a late tail as it is. -/
theorem TailBefore.wakeUp_other (h : TailBefore k Q q p) (hpop : Population k Q (some p))
    (ho : Outside k Q p) (halg : alg ≠ .sjf) (hp : k.IsProcess w)
    (hst : (k.pcb w).state = .waitingUartInput) {q' : QueueId}
    (hq' : alg.queueAt (k.queueLevel (k.pcb w).pid) = q') (hne : q' ≠ q) :
    ∃ Q₂, Population ((k.setState w .ready).enqueueProcess alg w) Q₂ (some p)
      ∧ Outside ((k.setState w .ready).enqueueProcess alg w) Q₂ p
      ∧ TailBefore ((k.setState w .ready).enqueueProcess alg w) Q₂ q p := by
  have hpop' := hpop.append ho q
  obtain ⟨hw, -⟩ := hpop'.waiting hst
  have hwp : p ≠ w := fun he => ho.notWaiting (he ▸ hst)
  obtain ⟨hh, hready⟩ := wakeUp_handled h.linked hpop' hst hq'
  have hpop₂ := hh.population hpop' fun w' hw' => by
    obtain rfl := Option.some.inj hw'
    exact ⟨hp, hw, hready⟩
  obtain ⟨Q₂, hQ₂⟩ : ∃ Q₂, Q₂ = Function.update Q q'
    (alg.place (k.setTail q (some p)).view w (Q q')) := ⟨_, rfl⟩
  have hQq : Q₂ q = Q q := by rw [hQ₂, Function.update_of_ne hne.symm]
  have hlists : Function.update (Function.update Q q (Q q ++ [p])) q'
      (alg.place (k.setTail q (some p)).view w (Function.update Q q (Q q ++ [p]) q'))
      = Function.update Q₂ q (Q₂ q ++ [p]) := by
    rw [hQq, hQ₂, Function.update_of_ne hne]
    exact Function.update_comm hne.symm _ _ _
  have hlinked := hh.linked
  rw [hlists, wakeUp_setTail halg hw hq' hne] at hlinked hpop₂
  have hfree : ∀ q, p ∉ Q₂ q := fun r hr => by
    rw [hQ₂] at hr
    by_cases he : r = q'
    · rw [he, Function.update_self, SchedAlgorithm.mem_place] at hr
      exact hr.elim hwp (ho.free q')
    · rw [Function.update_of_ne he] at hr
      exact ho.free r hr
  obtain ⟨hpop₃, ho₃⟩ := TailBefore.of_population hpop₂ hfree
  refine ⟨Q₂, hpop₃, ho₃, hlinked, ?_⟩
  rw [hQq, ← h.tail, wakeUp_tail halg hw hq' hne]

/-- And so it leaves a stale one. -/
theorem TailStale.wakeUp_other (h : TailStale k Q q p) (hpop : Population k Q (some p))
    (ho : Outside k Q p) (halg : alg ≠ .sjf) (hp : k.IsProcess w)
    (hst : (k.pcb w).state = .waitingUartInput) {q' : QueueId}
    (hq' : alg.queueAt (k.queueLevel (k.pcb w).pid) = q') (hne : q' ≠ q) :
    ∃ Q₂, Population ((k.setState w .ready).enqueueProcess alg w) Q₂ (some p)
      ∧ Outside ((k.setState w .ready).enqueueProcess alg w) Q₂ p
      ∧ TailStale ((k.setState w .ready).enqueueProcess alg w) Q₂ q p ∧ Q₂ q = Q q := by
  have hpop' : Population (k.setTail q (Q q).getLast?) Q (some p) := hpop.same ⟨rfl, fun _ => rfl⟩
  obtain ⟨hw, -⟩ := hpop'.waiting hst
  have hwp : p ≠ w := fun he => ho.notWaiting (he ▸ hst)
  have hsome : some p ≠ some w := fun he => hwp (Option.some.inj he)
  obtain ⟨hh, hready⟩ := wakeUp_handled h.linked hpop' hst hq'
  have ho' : Outside (k.setTail q (Q q).getLast?) Q p := ho.same ⟨rfl, fun _ => rfl⟩
  have ho₂ := hh.outside ho' hsome
  have hpop₂ := hh.population hpop' fun w' hw' => by
    obtain rfl := Option.some.inj hw'
    exact ⟨hp, hw, hready⟩
  have hnext := hh.next p ho.free hsome
  obtain ⟨Q₂, hQ₂⟩ : ∃ Q₂, Q₂ = Function.update Q q'
    (alg.place (k.setTail q (Q q).getLast?).view w (Q q')) := ⟨_, rfl⟩
  have hQq : Q₂ q = Q q := by rw [hQ₂, Function.update_of_ne hne.symm]
  have hlinked := hh.linked
  rw [← hQ₂, wakeUp_setTail halg hw hq' hne] at hlinked hpop₂ ho₂
  rw [wakeUp_setTail halg hw hq' hne] at hnext
  refine ⟨Q₂, ⟨hpop₂.member, hpop₂.ready, hpop₂.init⟩, ⟨ho₂.process, ho₂.notInit, ho₂.notWaiting,
    ho₂.free⟩, ⟨by rw [hQq]; exact hlinked, ?_, hnext.trans h.next⟩, hQq⟩
  rw [wakeUp_tail halg hw hq' hne]
  exact h.tail

/-- Without the process that the tail does not know yet, the queue is sound, and an insertion
behind its last process cannot tell the difference. -/
theorem TailBefore.forget (h : TailBefore k Q q p) (ho : Outside k Q p) :
    ∃ k₀ : Kernel, k₀.Linked Q ∧ k₀.next p = none
      ∧ (Q q = [] ∧ k = k₀.setHead q (some p)
        ∨ ∃ t, (Q q).getLast? = some t ∧ k = k₀.setLink t (some p)) := by
  have hback : ∀ {k₀ : Kernel}, IsQueue k₀.next (k₀.queues q).head (k₀.queues q).tail (Q q) →
      (∀ q' ≠ q, k₀.queues q' = k.queues q' ∧ ∀ r ∈ Q q', k₀.next r = k.next r) → k₀.Linked Q := by
    intro k₀ hq hother
    have hlinked := h.linked.update (l := Q q) hq (fun q' hq' => ?_) fun r hr q' hq' hrq' => ?_
    · rw [Function.update_idem, Function.update_eq_self] at hlinked
      exact hlinked
    · rw [Function.update_of_ne hq', setTail_queues_of_ne hq', setTail_next]
      exact hother q' hq'
    · refine hq' (h.linked.disjoint hrq' ?_)
      rw [Function.update_self]
      exact List.mem_append_left _ hr
  have hqueue := h.linked.queue q
  rw [setTail_queues_self, setTail_next, Function.update_self] at hqueue
  have hnext : k.next p = none := hqueue.next_eq (v := [])
  rcases List.eq_nil_or_concat (Q q) with hnil | ⟨u, t, hu⟩
  · have htail := h.tail
    have hhead := hqueue.head_eq
    rw [hnil] at htail hhead
    refine ⟨k.setHead q none, hback ?_ fun q' hq' => ⟨setHead_queues_of_ne hq', fun _ _ => rfl⟩,
      hnext, Or.inl ⟨hnil, ?_⟩⟩
    · rw [setHead_queues_self, hnil, htail]
      exact .empty _
    · have hends : (k.queues q) = ⟨some p, none⟩ := by
        cases hk : k.queues q
        rw [hk] at htail hhead
        exact congrArg₂ ProcessQueue.mk hhead htail
      unfold setHead setQueue
      simp only [Function.update_self, Function.update_idem, htail]
      rw [show (⟨some p, [].getLast?⟩ : ProcessQueue) = k.queues q from hends.symm,
        Function.update_eq_self]
  · rw [List.concat_eq_append] at hu
    have htail := h.tail
    rw [hu] at htail hqueue
    have htp : p ≠ t := fun he => ho.free q (by rw [hu, he]; simp)
    have htq : t ∈ Q q := by rw [hu]; simp
    refine ⟨k.setLink t none, hback ?_ fun q' hq' => ⟨rfl, fun r hr => ?_⟩, ?_,
      Or.inr ⟨t, by rw [hu]; simp, ?_⟩⟩
    · rw [setLink_queues, next_setLink, htail, hu]
      have hcut := hqueue.cut
      simpa using hcut
    · rw [next_setLink]
      refine Function.update_of_ne (fun he => hq' (h.linked.disjoint (p := r) ?_ ?_)) _ _
      · rw [Function.update_of_ne hq']
        exact hr
      · rw [Function.update_self, he]
        exact List.mem_append_left _ htq
    · rw [next_setLink, Function.update_of_ne htp]
      exact hnext
    · -- The link of the last process is the one to `p`.
      have hlink : k.next t = some p := by
        have := (show IsQueue k.next (k.queues q).head (some p) (u ++ t :: [p]) by
          simpa using hqueue).next_eq
        exact this
      unfold setLink modifyPcb
      simp only [Function.update_self, Function.update_idem]
      rw [show ({ k.pcb t with nextReady := some p } : PCB) = k.pcb t by rw [← hlink]; rfl,
        Function.update_eq_self]

/-- The insertion overwrites what points to the process. -/
theorem enqueueProcessTo_forget {k₀ : Kernel} (hk₀ : k₀.Linked Q)
    (hk : Q q = [] ∧ k = k₀.setHead q (some p)
      ∨ ∃ t, (Q q).getLast? = some t ∧ k = k₀.setLink t (some p)) (hne : w ≠ .initProcess)
    (hw : ∀ q, w ∉ Q q) : k.enqueueProcessTo q w = k₀.enqueueProcessTo q w := by
  unfold enqueueProcessTo
  rw [if_neg hne, if_neg hne]
  dsimp only
  rcases hk with ⟨hnil, rfl⟩ | ⟨t, ht, rfl⟩
  · have htail : (k₀.queues q).tail = none := (hk₀.queue q).tail_eq_none_iff.mpr hnil
    rw [show ((((k₀.setHead q (some p)).setLink w none).setState w .ready).log
      (.enqueued q w)).queues q = ⟨some p, (k₀.queues q).tail⟩ from setHead_queues_self ..,
      show (((k₀.setLink w none).setState w .ready).log (.enqueued q w)).queues q = k₀.queues q
        from rfl, htail]
    simp only [setHead, setQueue, log, setState, setLink, modifyPcb, Function.update_idem]
  · have htail : (k₀.queues q).tail = some t := (hk₀.queue q).tail_eq.trans ht
    have htw : t ≠ w := fun he => hw q (he ▸ List.mem_of_getLast? ht)
    rw [show ((((k₀.setLink t (some p)).setLink w none).setState w .ready).log
      (.enqueued q w)).queues q = k₀.queues q from rfl,
      show (((k₀.setLink w none).setState w .ready).log (.enqueued q w)).queues q = k₀.queues q
        from rfl, htail]
    have hpcb : (((((k₀.setLink t (some p)).setLink w none).setState w .ready).log
        (.enqueued q w)).setLink t (some w)).pcb
        = ((((k₀.setLink w none).setState w .ready).log (.enqueued q w)).setLink t (some w)).pcb := by
      funext r
      simp only [setLink, setState, log, modifyPcb_pcb]
      by_cases hrt : r = t
      · simp [hrt, htw]
      · simp [hrt, Ne.symm htw]
    exact congrArg (fun pcb => ({ ((((k₀.setLink w none).setState w .ready).log
      (.enqueued q w)).setQueue q ⟨(k₀.queues q).head, some w⟩) with pcb := pcb } : Kernel)) hpcb

variable (alg k Q w) in
/-- The lists behind a wake-up. -/
def wokenLists (q' : QueueId) : QueueId → List PcbPtr :=
  Function.update Q q' (alg.place k.view w (Q q'))

private theorem place_fifo (halg : alg ≠ .sjf) (l : List PcbPtr) :
    alg.place k.view w l = l ++ [w] := by
  cases alg with
  | sjf => exact absurd rfl halg
  | _ => rfl

/-- The woken process is ready. -/
theorem wakeUp_ready (hw : w ≠ .initProcess) :
    (((k.setState w .ready).enqueueProcess alg w).pcb w).state = .ready := by
  have hstate : ∀ v : PcbPtr → PCB, ((k.setState w .ready).enqueueProcess alg w).view = v →
      (v w).state = .ready → (((k.setState w .ready).enqueueProcess alg w).pcb w).state = .ready :=
    fun v hv hst => by
      rw [← hv] at hst
      exact hst
  unfold enqueueProcess at hstate ⊢
  rw [if_neg hw] at hstate ⊢
  cases alg with
  | sjf =>
      refine hstate _ (enqueueSortedTo_view hw) ?_
      rw [Function.update_self]
      rfl
  | _ =>
      refine hstate _ (enqueueProcessTo_view hw) ?_
      rw [Function.update_self]
      rfl

/-- The wake-up on sound queues. -/
theorem wakeUp_sound (hk : k.Linked Q) (hpop : Population k Q m) (hp : k.IsProcess w)
    (hst : (k.pcb w).state = .waitingUartInput) {q' : QueueId}
    (hq' : alg.queueAt (k.queueLevel (k.pcb w).pid) = q') :
    Handled k Q (some w) ((k.setState w .ready).enqueueProcess alg w) (wokenLists alg k Q w q')
      ∧ Population ((k.setState w .ready).enqueueProcess alg w) (wokenLists alg k Q w q') m
      ∧ (((k.setState w .ready).enqueueProcess alg w).pcb w).state = .ready := by
  obtain ⟨hh, hready⟩ := wakeUp_handled hk hpop hst hq'
  refine ⟨hh, hh.population hpop fun w' hw' => ?_, hready⟩
  obtain rfl := Option.some.inj hw'
  exact ⟨hp, (hpop.waiting hst).1, hready⟩

/-- A wake-up behind a stale tail is lost, whatever the removal makes of the tail. -/
private theorem stale_lost (halg : alg ≠ .sjf) (hpop : Population k Q (some p)) (ho : Outside k Q p)
    (hs : TailStale k Q q p) (hp : k.IsProcess w) (hst : (k.pcb w).state = .waitingUartInput)
    (hq : alg.queueAt (k.queueLevel (k.pcb w).pid) = q)
    (hready : (((k.setState w .ready).enqueueProcess alg w).pcb w).state = .ready) :
    (((k.setState w .ready).enqueueProcess alg w).queues q).head = (k.queues q).head
      ∧ (((k.setState w .ready).enqueueProcess alg w).queues q).tail = some w
      ∧ ∀ x, ¬ ((((k.setState w .ready).enqueueProcess alg w).setTail q x).setLink p
          none).EachReadyOnce (some p) := by
  obtain ⟨hw, hfree⟩ := hpop.waiting hst
  have hwp : w ≠ p := fun he => ho.notWaiting (he ▸ hst)
  have hwalks : Walks k Q := hs.linked.walks.congr (fun q' => by
    by_cases hq' : q' = q
    · rw [hq', setTail_queues_self]
    · rw [setTail_queues_of_ne hq']) fun _ _ _ => rfl
  obtain ⟨hwalks₂, hhead, htail⟩ := wakeUp_stale halg hw hq hwalks hfree hs.tail ho.free
  refine ⟨hhead, htail, fun x => ?_⟩
  have hprocesses : ((k.setState w .ready).enqueueProcess alg w).processes = k.processes :=
    rest_processes (enqueueProcess_rest alg (k.setState w .ready) w)
  generalize (k.setState w .ready).enqueueProcess alg w = k₂ at hwalks₂ hready hprocesses ⊢
  have hwalks' : Walks ((k₂.setTail q x).setLink p none) Q := by
    refine hwalks₂.congr (fun q' => ?_) fun q' r hr => ?_
    · rw [setLink_queues]
      by_cases hq' : q' = q
      · rw [hq', setTail_queues_self]
      · rw [setTail_queues_of_ne hq']
    · have hrp : r ≠ p := ne_of_mem_of_not_mem hr (ho.free q')
      rw [next_setLink, Function.update_of_ne hrp, setTail_next]
  refine hwalks'.lost (p := w) ?_ hw ?_ (fun he => hwp (Option.some.inj he)) hfree
  · unfold IsProcess
    show ∃ slot, slot < N_PROCESSES ∧ k₂.processes slot = some w
    rw [hprocesses]
    exact hp
  · rw [((SameStates.setLink (k₂.setTail q x) p none).2 w)]
    exact hready

/-- Both ends of the queue are overwritten: who was in it is lost. -/
theorem overwritten_lost {r : PcbPtr} (hk : k.Linked Q) (hnext : k.next p = none)
    (hfree : p ∉ Q q) (hr : r ∈ Q q) (hp : k.IsProcess r) (hne : r ≠ .initProcess)
    (hst : (k.pcb r).state = .ready) :
    ¬ ((k.setHead q (some p)).setTail q (some p)).EachReadyOnce none := by
  have hwalks : Walks ((k.setHead q (some p)).setTail q (some p)) (Function.update Q q [p]) := by
    refine hk.walks.update ?_ fun q' hq' => ⟨?_, fun _ _ => rfl⟩
    · rw [setTail_queues_self, setHead_queues_self]
      exact ⟨rfl, hnext⟩
    · rw [setTail_queues_of_ne hq', setHead_queues_of_ne hq']
  refine hwalks.lost (p := r) hp hne hst (nomatch ·) fun q' hq' => ?_
  by_cases he : q' = q
  · rw [he, Function.update_self, List.mem_singleton] at hq'
    exact hfree (hq' ▸ hr)
  · rw [Function.update_of_ne he] at hq'
    exact he (hk.disjoint hq' hr)

/-- A tail that is not the last process. -/
theorem setTail_wrong (hk : k.Linked Q) (hlast : (Q q).getLast? ≠ some p) :
    ¬ (k.setTail q (some p)).EachReadyOnce none := by
  have hwalks : Walks (k.setTail q (some p)) Q := hk.walks.congr (fun q' => by
    by_cases hq' : q' = q
    · rw [hq', setTail_queues_self]
    · rw [setTail_queues_of_ne hq']) fun _ _ _ => rfl
  refine hwalks.wrongTail (q := q) ?_
  rw [setTail_queues_self]
  exact hlast.symm

/-- A wake-up behind a process that the tail does not know yet cuts that process off. -/
private theorem tailBefore_lost (halg : alg ≠ .sjf) (hpop : Population k Q (some p))
    (ho : Outside k Q p) (h : TailBefore k Q q p) (hst : (k.pcb w).state = .waitingUartInput)
    (hq : alg.queueAt (k.queueLevel (k.pcb w).pid) = q) :
    ¬ (((k.setState w .ready).enqueueProcess alg w).setTail q (some p)).EachReadyOnce none := by
  obtain ⟨hw, hfree⟩ := hpop.waiting hst
  have hwp : p ≠ w := fun he => ho.notWaiting (he ▸ hst)
  have hset : TailBefore (k.setState w .ready) Q q p :=
    ⟨h.linked.modifyPcb (fun b => b.withState .ready) fun _ => rfl, h.tail⟩
  have ho₁ : Outside (k.setState w .ready) Q p := by
    refine ⟨ho.process, ho.notInit, ?_, ho.free⟩
    rw [setState, modifyPcb_pcb_of_ne _ _ hwp]
    exact ho.notWaiting
  obtain ⟨k₀, hk₀, -, hform⟩ := hset.forget ho₁
  rw [wakeUp_eq halg hw hq, enqueueProcessTo_forget hk₀ hform hw hfree]
  refine setTail_wrong (enqueueProcessTo_linked hk₀ hw hfree) fun hlast => ?_
  rw [Function.update_self] at hlast
  have hmem := List.mem_of_getLast? hlast
  rcases List.mem_append.mp hmem with hmem | hmem
  · exact ho.free q hmem
  · exact hwp (List.mem_singleton.mp hmem)

/-- Where a wake-up that appends does damage, and where it does not. -/
theorem wakeUp_fifo_iff (halg : alg ≠ .sjf) {x : QueuePoint} (h : x.At alg k Q)
    (hp : k.IsProcess w) (hst : (k.pcb w).state = .waitingUartInput) :
    ((k.setState w .ready).enqueueProcess alg w).Completed x
      ↔ (QueueInterrupt.wakeUp w).Harmless alg k x := by
  obtain ⟨q', hq'⟩ : ∃ q', alg.queueAt (k.queueLevel (k.pcb w).pid) = q' := ⟨_, rfl⟩
  obtain ⟨hw, hfree⟩ := h.population.waiting hst
  have happends : ∀ q, (QueueInterrupt.wakeUp w).Appends alg k q ↔ q' = q := fun q =>
    ⟨fun ha => hq'.symm.trans ha.2, fun ha => ⟨halg, hq'.trans ha⟩⟩
  have hsorts : ∀ w', ¬ (QueueInterrupt.wakeUp w).Sorts alg w' := fun w' hs => halg hs.1
  have hsound := fun (hk : k.Linked Q) => wakeUp_sound hk h.population hp hst hq'
  have hready : (((k.setState w .ready).enqueueProcess alg w).pcb w).state = .ready :=
    wakeUp_ready hw
  have hself : ∀ l, wokenLists alg k Q w l l = Q l ++ [w] := fun l => by
    rw [wokenLists, Function.update_self, place_fifo halg]
  have hother : ∀ l, l ≠ q' → wokenLists alg k Q w q' l = Q l := fun l hl =>
    Function.update_of_ne hl _ _
  have hout : ∀ {p}, k.Linked Q → Outside k Q p →
      Outside ((k.setState w .ready).enqueueProcess alg w) (wokenLists alg k Q w q') p :=
    fun hk ho => (hsound hk).1.outside ho fun he => ho.notWaiting (Option.some.inj he ▸ hst)
  have hnext : ∀ {p}, k.Linked Q → Outside k Q p →
      ((k.setState w .ready).enqueueProcess alg w).next p = k.next p := fun hk ho =>
    (hsound hk).1.next _ ho.free fun he => ho.notWaiting (Option.some.inj he ▸ hst)
  have happended : ∀ {q p u v}, Q q = u ++ p :: v → ∃ v₂, wokenLists alg k Q w q' q = u ++ p :: v₂ := by
    intro q p u v hl
    by_cases hqq : q = q'
    · exact ⟨v ++ [w], by rw [hqq, hself, ← hqq, hl]; simp⟩
    · exact ⟨v, (hother q hqq).trans hl⟩
  obtain ⟨hpop, hshape⟩ := h
  cases x with
  | enqueueClear q p =>
      obtain ⟨ha, hk, ho⟩ := hshape
      exact iff_of_true (QueuePoint.At.completed ⟨(hsound hk).2.1, ha, (hsound hk).1.linked, hout hk ho⟩) trivial
  | enqueueReady q p | enqueueTest q p =>
      obtain ⟨ha, hk, ho, hn⟩ := hshape
      exact iff_of_true (QueuePoint.At.completed ⟨(hsound hk).2.1, ha, (hsound hk).1.linked,
        hout hk ho, (hnext hk ho).trans hn⟩) trivial
  | enqueueHead q p =>
      obtain ⟨ha, hk, ho, hn, hnil⟩ := hshape
      obtain ⟨hh, hpop₂, hready⟩ := hsound hk
      show _ ↔ ¬ _
      rw [happends]
      by_cases hqq : q' = q
      · subst hqq
        refine iff_of_false (fun hdone => ?_) (fun hnot => hnot rfl)
        refine overwritten_lost hh.linked ((hnext hk ho).trans hn) ((hout hk ho).free q')
          (r := w) ?_ ((hh.isProcess w).mpr hp) hw hready
          ((completed_returns rfl).mp ((completed_goto rfl).mp hdone))
        rw [hself]
        exact List.mem_append_right _ (List.mem_singleton_self w)
      · have hnil₂ : wokenLists alg k Q w q' q = [] := (hother q (Ne.symm hqq)).trans hnil
        exact iff_of_true (QueuePoint.At.completed ⟨hpop₂, ha, hh.linked, hout hk ho,
          (hnext hk ho).trans hn, hnil₂⟩) hqq
  | enqueueLink q p =>
      obtain ⟨ha, hk, ho, hn, hne⟩ := hshape
      obtain ⟨hh, hpop₂, hready⟩ := hsound hk
      have hne₂ : wokenLists alg k Q w q' q ≠ [] := by
        by_cases hqq : q = q'
        · rw [hqq, hself]
          simp
        · rw [hother q hqq]
          exact hne
      exact iff_of_true (QueuePoint.At.completed ⟨hpop₂, ha, hh.linked, hout hk ho,
        (hnext hk ho).trans hn, hne₂⟩) id
  | enqueueOnlyTail q p | enqueueTail q p =>
      obtain ⟨ha, ho, ht⟩ := hshape
      show _ ↔ ¬ _ ∧ ¬ False
      rw [happends, not_false_eq_true, and_true]
      by_cases hqq : q' = q
      · refine iff_of_false (fun hdone => ?_) (fun hnot => hnot hqq)
        exact tailBefore_lost halg hpop ho ht hst (hq'.trans hqq) ((completed_returns rfl).mp hdone)
      · obtain ⟨Q₂, hpop₂, ho₂, ht₂⟩ := ht.wakeUp_other hpop ho halg hp hst hq' hqq
        exact iff_of_true (QueuePoint.At.completed ⟨hpop₂, ha, ho₂, ht₂⟩) hqq
  | dequeueTest q =>
      obtain ⟨ha, hk⟩ := hshape
      exact iff_of_true (QueuePoint.At.completed ⟨(hsound hk).2.1, ha, (hsound hk).1.linked⟩) trivial
  | dequeueRead q =>
      obtain ⟨ha, hk, hne⟩ := hshape
      have hne₂ : wokenLists alg k Q w q' q ≠ [] := by
        by_cases hqq : q = q'
        · rw [hqq, hself]
          simp
        · rw [hother q hqq]
          exact hne
      exact iff_of_true (QueuePoint.At.completed ⟨(hsound hk).2.1, ha, (hsound hk).1.linked, hne₂⟩) id
  | dequeueHead q p =>
      obtain ⟨ha, hk, l, hl⟩ := hshape
      have hl₂ : ∃ l, wokenLists alg k Q w q' q = p :: l := by
        by_cases hqq : q = q'
        · exact ⟨l ++ [w], by rw [hqq, hself, ← hqq, hl]; rfl⟩
        · exact ⟨l, (hother q hqq).trans hl⟩
      exact iff_of_true (QueuePoint.At.completed ⟨(hsound hk).2.1, ha, (hsound hk).1.linked, hl₂⟩)
        ⟨id, fun w' hs => absurd hs (hsorts w')⟩
  | dequeueEmpty q p =>
      obtain ⟨ha, ho, ⟨hk, hne⟩ | ⟨hnil, hs⟩⟩ := hshape
      · have hne₂ : wokenLists alg k Q w q' q ≠ [] := by
          by_cases hqq : q = q'
          · rw [hqq, hself]
            simp
          · rw [hother q hqq]
            exact hne
        exact iff_of_true (QueuePoint.At.completed ⟨(hsound hk).2.1, ha, hout hk ho,
          Or.inl ⟨(hsound hk).1.linked, hne₂⟩⟩)
          fun _ hh => hne ((hk.queue q).head_eq_none_iff.mp hh)
      · have hhead : (k.queues q).head = none := by
          have hq := hs.linked.queue q
          rw [setTail_queues_self] at hq
          exact hq.head_eq_none_iff.mpr hnil
        show _ ↔ (_ → _)
        rw [happends]
        by_cases hqq : q' = q
        · refine iff_of_false (fun hdone => ?_) (fun hharmless => hharmless hqq hhead)
          obtain ⟨hhead₂, -, hlost⟩ := stale_lost halg hpop ho hs hp hst (hq'.trans hqq) hready
          have hgoto := completed_goto (k := (k.setState w .ready).enqueueProcess alg w)
            (x := .dequeueEmpty q p) (y := .dequeueTail q p) (by
              rw [queueStatement, if_pos (hhead₂.trans hhead)])
          exact hlost none ((completed_returns rfl).mp ((completed_goto rfl).mp (hgoto.mp hdone)))
        · obtain ⟨Q₂, hpop₂, ho₂, hs₂, hQ⟩ := hs.wakeUp_other hpop ho halg hp hst hq' hqq
          exact iff_of_true (QueuePoint.At.completed ⟨hpop₂, ha, ho₂,
            Or.inr ⟨hQ.trans hnil, hs₂⟩⟩) fun h => absurd h hqq
  | dequeueTail q p =>
      obtain ⟨ha, ho, hnil, hs⟩ := hshape
      show _ ↔ ¬ _ ∧ _
      rw [happends, and_iff_left hsorts]
      by_cases hqq : q' = q
      · refine iff_of_false (fun hdone => ?_) (fun hnot => hnot hqq)
        obtain ⟨-, -, hlost⟩ := stale_lost halg hpop ho hs hp hst (hq'.trans hqq) hready
        exact hlost none ((completed_returns rfl).mp ((completed_goto rfl).mp hdone))
      · obtain ⟨Q₂, hpop₂, ho₂, hs₂, hQ⟩ := hs.wakeUp_other hpop ho halg hp hst hq' hqq
        exact iff_of_true (QueuePoint.At.completed ⟨hpop₂, ha, ho₂, hQ.trans hnil, hs₂⟩) hqq
  | dequeueClear p | removeClear p =>
      obtain ⟨hk, ho⟩ := hshape
      exact iff_of_true (QueuePoint.completed_clear rfl (hsound hk).2.1 (hsound hk).1.linked
        (hout hk ho)) trivial
  | removeTest q previous p =>
      obtain ⟨ha, hu, hk, u, v, hl, hprevious⟩ := hshape
      obtain ⟨v₂, hl₂⟩ := happended hl
      exact iff_of_true (QueuePoint.At.completed ⟨(hsound hk).2.1, ha, hu, (hsound hk).1.linked,
        u, v₂, hl₂, hprevious⟩) trivial
  | removeHead q p =>
      obtain ⟨ha, hu, hk, l, hl⟩ := hshape
      obtain ⟨l₂, hl₂⟩ := happended (u := []) hl
      exact iff_of_true (QueuePoint.At.completed ⟨(hsound hk).2.1, ha, hu, (hsound hk).1.linked,
        l₂, hl₂⟩) trivial
  | removeLink q previous p =>
      obtain ⟨ha, hu, hk, u, v, hl, hprevious⟩ := hshape
      obtain ⟨v₂, hl₂⟩ := happended hl
      exact iff_of_true (QueuePoint.At.completed ⟨(hsound hk).2.1, ha, hu, (hsound hk).1.linked,
        u, v₂, hl₂, hprevious⟩) trivial
  | removeTailTest q previous p =>
      obtain ⟨ha, hu, ho, hk | ⟨hs, hprevious⟩⟩ := hshape
      · have htail : (k.queues q).tail ≠ some p := fun ht =>
          ho.free q (List.mem_of_getLast? ((hk.queue q).tail_eq.symm.trans ht))
        exact iff_of_true (QueuePoint.At.completed ⟨(hsound hk).2.1, ha, hu, hout hk ho,
          Or.inl (hsound hk).1.linked⟩) fun _ => htail
      · show _ ↔ (_ → _)
        rw [happends]
        by_cases hqq : q' = q
        · refine iff_of_false (fun hdone => ?_) (fun hharmless => hharmless hqq hs.tail)
          obtain ⟨-, htail₂, hlost⟩ := stale_lost halg hpop ho hs hp hst (hq'.trans hqq) hready
          have hwp : some w ≠ some p := fun he => ho.notWaiting (Option.some.inj he ▸ hst)
          have hgoto := completed_goto (k := (k.setState w .ready).enqueueProcess alg w)
            (x := .removeTailTest q previous p) (y := .removeClear p) (by
              rw [queueStatement, htail₂, if_neg hwp])
          refine hlost (some w) ?_
          rw [setTail_self htail₂]
          exact (completed_returns rfl).mp (hgoto.mp hdone)
        · obtain ⟨Q₂, hpop₂, ho₂, hs₂, hQ⟩ := hs.wakeUp_other hpop ho halg hp hst hq' hqq
          exact iff_of_true (QueuePoint.At.completed ⟨hpop₂, ha, hu, ho₂,
            Or.inr ⟨hs₂, hQ ▸ hprevious⟩⟩) fun h => absurd h hqq
  | removeTail q previous p =>
      obtain ⟨ha, hu, ho, hs, hprevious⟩ := hshape
      show _ ↔ ¬ _
      rw [happends]
      by_cases hqq : q' = q
      · refine iff_of_false (fun hdone => ?_) (fun hnot => hnot hqq)
        obtain ⟨-, -, hlost⟩ := stale_lost halg hpop ho hs hp hst (hq'.trans hqq) hready
        exact hlost previous ((completed_returns rfl).mp ((completed_goto rfl).mp hdone))
      · obtain ⟨Q₂, hpop₂, ho₂, hs₂, hQ⟩ := hs.wakeUp_other hpop ho halg hp hst hq' hqq
        exact iff_of_true (QueuePoint.At.completed ⟨hpop₂, ha, hu, ho₂, hs₂, hQ ▸ hprevious⟩) hqq
  -- The others are places of `enqueue_sorted_to`, which only SJF calls.
  | sortedClear | sortedReady | sortedTest | sortedHead | sortedOnlyTail | sortedFirst
  | sortedFrontLink | sortedFront | sortedStart | sortedLoop | sortedCompare | sortedAdvance
  | sortedLink | sortedBehind | sortedLast | sortedTail => exact absurd hshape.1.1 halg

end Fifo

end DemoOS
