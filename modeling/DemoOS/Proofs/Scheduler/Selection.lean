import DemoOS.Support.Lists
import Mathlib.Algebra.Order.BigOperators.Group.List
import Mathlib.Algebra.Order.Group.Nat
import Mathlib.Data.List.TakeWhile
import DemoOS.Spec.Selection
import DemoOS.Proofs.Scheduler.Refinement
import Mathlib.Algebra.Ring.Int.Defs

/-!
# `DemoOS.Proofs.Scheduler.Selection`: the selection functions

The five search loops, each as a list of abstract actions (`Search`) with the
process it found: `dequeueUntilReady_search`, `cascade_search`,
`lotteryLoop_search`, `agingWalk_search` and `agingLoop_search`. From them,
`pickNext_outcome` gives the outcome that all seven selection functions share.
-/

set_option autoImplicit false

namespace DemoOS

open Kernel Support

/-- A signal that removes the process is pending. -/
def Sched.removed (s : Sched) (p : PcbPtr) : Bool := (s.block p).signalled

/-- A search changes states, signals and counters only. -/
theorem Exec.select_field {β : Type} (φ : PCB → β)
    (hφ : ∀ b st signals c,
      φ { b with state := st, pendingSignals := signals, counter := c } = φ b)
    {alg : SchedAlgorithm} {s s₁ : Sched} {as : List Action} (h : Exec alg s as s₁)
    (has : ∀ a ∈ as, a.Selects) (p : PcbPtr) : φ (s₁.block p) = φ (s.block p) := by
  refine h.invariant (A := Action.Selects) (P := fun t => φ (t.block p) = φ (s.block p))
    ?_ has rfl
  intro t a ha hg hkept
  refine Eq.trans ?_ hkept
  cases a with
  | drop r =>
      exact Sched.modify_field (s := t.unlink r) φ
        (PCB.handled_field φ (fun b st signals => hφ b st signals b.counter) _) p
  | edit r e =>
      cases e with
      | clearResume => exact Sched.modify_field φ (hφ _ (t.block r).state _ (t.block r).counter) p
      | _ => exact absurd ha id
  | recharge =>
      simp only [Action.apply]
      split
      · exact hφ _ (t.block p).state (t.block p).pendingSignals _
      · rfl
  | _ => exact absurd ha id

/-- A search from `s`: the actions `as` lead to `s₁`, and `k'` represents `s₁` with the
process that was found already cut out of its queue. -/
structure Search (alg : SchedAlgorithm) (s : Sched) (as : List Action) (s₁ : Sched)
    (k' : Kernel) (next : Option PcbPtr) : Prop where
  exec : Exec alg s as s₁
  selects : ∀ a ∈ as, a.Selects
  nobody : next = none → Refines k' s₁
  found : ∀ p, next = some p → s₁.IsLinked p ∧ s₁.removed p = false ∧ Refines k' (s₁.unlink p)

namespace Search

variable {alg : SchedAlgorithm} {s s₁ s₂ : Sched} {as bs : List Action} {k' : Kernel}
  {next : Option PcbPtr}

theorem selected (h : Search alg s as s₁ k' next) : s.Selected (drops as) s₁ :=
  h.exec.selected h.selects

/-- More actions in front of a search. -/
theorem prepend (hexec : Exec alg s as s₁) (has : ∀ a ∈ as, a.Selects)
    (h : Search alg s₁ bs s₂ k' next) : Search alg s (as ++ bs) s₂ k' next where
  exec := exec_append.mpr ⟨s₁, hexec, h.exec⟩
  selects a ha := (List.mem_append.mp ha).elim (has a) (h.selects a)
  nobody := h.nobody
  found := h.found

/-- One action in front of a search. -/
theorem cons {a : Action} (hg : a.Guard alg s) (ha : a.Selects)
    (h : Search alg (a.apply alg s) bs s₂ k' next) : Search alg s (a :: bs) s₂ k' next :=
  have hone : Exec alg s [a] (a.apply alg s) := ⟨hg, rfl⟩
  .prepend hone (fun b hb => by rwa [List.mem_singleton.mp hb]) h

/-- An empty search that ends with nobody. -/
theorem refl (h : Refines k' s) : Search alg s [] s k' none :=
  ⟨rfl, by simp, fun _ => h, by simp⟩

end Search

section Loops
variable {alg : SchedAlgorithm} {k : Kernel} {s : Sched} {p : PcbPtr} {q : QueueId}

/-- The handler on the process that a search has just taken out of its queue, when no
signal removes it. -/
theorem search_found (alg : SchedAlgorithm) (hk : Refines k ((s.unlink p).handleSignals p)) (hp : s.IsLinked p)
    (hsig : s.removed p = false) :
    ∃ as s₁, Search alg s as s₁ k (some p) ∧ drops as = [] ∧ s₁.queue = s.queue := by
  rw [handleSignals_of_not_signalled (s := s.unlink p) hsig] at hk
  by_cases hresume : ((s.unlink p).block p).isPending SIGNAL_RESUME = true
  · rw [if_pos hresume] at hk
    refine ⟨[.edit p .clearResume], s.modify p Edit.clearResume.apply,
      ⟨⟨⟨hp, hsig⟩, rfl⟩, ?_, by simp, ?_⟩, rfl, rfl⟩
    · intro a ha
      rw [List.mem_singleton.mp ha]
      trivial
    · intro r hr
      obtain rfl := Option.some.inj hr
      refine ⟨hp, ?_, hk⟩
      rw [Sched.removed, Sched.modify_block_self, PCB.signalled_clearResume]
      exact hsig
  · rw [if_neg hresume] at hk
    refine ⟨[], s, ⟨rfl, by simp, by simp, ?_⟩, rfl, rfl⟩
    intro r hr
    obtain rfl := Option.some.inj hr
    exact ⟨hp, hsig, hk⟩

/-- The handler on a process that a search has just taken out of its queue: the process
is still ready if and only if no signal removes it. -/
theorem search_handled (h : Refines k (s.unlink p)) (hinv : s.Inv alg) (hp : s.IsLinked p) :
    Refines (k.handleProcessSignals alg p) ((s.unlink p).handleSignals p)
      ∧ (((k.handleProcessSignals alg p).pcb p).state = .ready ↔ s.removed p = false) := by
  have hready : s.state p = .ready := hinv.linked_ready hp
  have hhandled := h.handleProcessSignals alg (p := p) (by
    show s.state p ≠ .stopped
    rw [hready]
    decide)
  refine ⟨hhandled, ?_⟩
  rw [hhandled.state_eq]
  exact (iff_of_eq (by rw [Sched.state, Sched.handleSignals, Sched.modify_block_self]; rfl)).trans
    (PCB.handled_state_eq_ready_iff _ hready)

/-- A drop leaves the other blocks alone. -/
theorem removed_drop {r : PcbPtr} (hr : r ≠ p) :
    ((s.unlink p).handleSignals p).removed r = s.removed r :=
  congrArg PCB.signalled (Sched.modify_block_of_ne hr)

/-- `while ((next = dequeue_process_from(queue)) != NULL)` drops the signalled processes
at the front of the queue and ends with the first other one. -/
theorem dequeueUntilReady_search (h : Refines k s) (hinv : s.Inv alg) {fuel : Nat}
    (hfuel : (s.queue q).length < fuel) :
    ∃ k' as s₁, dequeueUntilReady alg q fuel k
        = some (k', ((s.queue q).dropWhile s.removed).head?)
      ∧ Search alg s as s₁ k' ((s.queue q).dropWhile s.removed).head?
      ∧ drops as = (s.queue q).takeWhile s.removed
      ∧ s₁.queue q = (s.queue q).dropWhile s.removed := by
  induction fuel generalizing k s with
  | zero => simp at hfuel
  | succ fuel ih =>
      cases hl : s.queue q with
      | nil =>
          refine ⟨k, [], s, ?_, Search.refl h, rfl, hl⟩
          simp [dequeueUntilReady, dequeueProcessFrom_nil h.linked hl]
      | cons p l =>
          have hp : s.IsLinked p := ⟨q, by simp [hl]⟩
          obtain ⟨k₁, hk₁, h₁⟩ := h.dequeueProcessFrom hl
          obtain ⟨h₂, hstate⟩ := search_handled h₁ hinv hp
          simp only [dequeueUntilReady, hk₁]
          cases hsig : s.removed p with
          | false =>
              obtain ⟨as, s₁, hsearch, hdrops, hqueue⟩ := search_found alg h₂ hp hsig
              refine ⟨k₁.handleProcessSignals alg p, as, s₁, ?_, ?_, ?_, ?_⟩
              · rw [if_pos (hstate.mpr hsig)]
                simp [hsig]
              · simpa [hsig] using hsearch
              · simp [hsig, hdrops]
              · rw [hqueue, hl]
                simp [hsig]
          | true =>
              have hfree : p ∉ l := by
                have := hinv.queues.nodup q
                rw [hl] at this
                exact (List.nodup_cons.mp this).1
              have hqueue : ((s.unlink p).handleSignals p).queue q = l := by
                show (s.queue q).filter (· ≠ p) = l
                rw [hl, List.filter_cons_of_neg (by simp), filter_ne_eq_self hfree]
              have hremoved : ∀ r ∈ l, ((s.unlink p).handleSignals p).removed r = s.removed r :=
                fun r hr => removed_drop (ne_of_mem_of_not_mem hr hfree)
              have hdrop : (Action.drop p).Guard alg s := ⟨hp, hsig⟩
              obtain ⟨k', as, s₁, hrun, hsearch, hdrops, hend⟩ :=
                ih h₂ (hinv.drop hdrop) (by rw [hqueue]; rw [hl] at hfuel; simpa using hfuel)
              rw [hqueue, dropWhile_congr hremoved] at hrun hsearch hend
              rw [hqueue, takeWhile_congr hremoved] at hdrops
              refine ⟨k', .drop p :: as, s₁, ?_, ?_, ?_, ?_⟩
              · rw [if_neg (by simp [hstate, hsig]), hrun]
                simp [hsig]
              · rw [List.dropWhile_cons_of_pos hsig]
                exact .cons hdrop trivial hsearch
              · rw [List.takeWhile_cons_of_pos hsig, ← hdrops]
                rfl
              · rw [List.dropWhile_cons_of_pos hsig]
                exact hend

/-! ### The cascade over levels -/

/-- The queues of the given levels, one after the other. -/
def Sched.cascadeOrder (s : Sched) (levels : List Nat) : List PcbPtr :=
  levels.flatMap fun q => s.queue (.mlQueue q)

/-- A search that dropped processes of one queue only leaves the others alone. -/
theorem Search.queue_eq {as : List Action} {s₁ : Sched} {k' : Kernel} {next : Option PcbPtr}
    (h : Search alg s as s₁ k' next) {q' : QueueId} (hd : ∀ p ∈ drops as, p ∉ s.queue q') :
    s₁.queue q' = s.queue q' := by
  rw [h.selected.queue]
  exact List.filter_eq_self.mpr fun r hr => by simpa using fun hrd => hd r hrd hr

/-- The cascade drops the signalled processes in front of the first other one, level by
level, and ends with that one and its level. -/
theorem cascade_search (h : Refines k s) (hinv : s.Inv alg) {levels : List Nat}
    (hlevels : levels.Nodup) :
    ∃ k' as s₁ found, cascade alg levels k = some (k', found)
      ∧ Search alg s as s₁ k' (found.map Prod.fst)
      ∧ found.map Prod.fst = ((s.cascadeOrder levels).dropWhile s.removed).head?
      ∧ drops as = (s.cascadeOrder levels).takeWhile s.removed
      ∧ (found = none → ∀ q ∈ levels, s₁.queue (.mlQueue q) = [])
      ∧ ∀ p q, found = some (p, q) → q ∈ levels ∧ p ∈ s.queue (.mlQueue q) := by
  induction levels generalizing k s with
  | nil => exact ⟨k, [], s, none, rfl, .refl h, rfl, rfl, by simp, nofun⟩
  | cons q levels ih =>
      obtain ⟨hq, hlevels⟩ := List.nodup_cons.mp hlevels
      have hlen := Nat.lt_succ_of_lt (hinv.length_lt (.mlQueue q))
      obtain ⟨k₁, as, s₁, hrun, hsearch, hdrops, hqueue⟩ :=
        dequeueUntilReady_search h hinv hlen
      have horder : s.cascadeOrder (q :: levels)
          = s.queue (.mlQueue q) ++ s.cascadeOrder levels := rfl
      rw [horder, cascade, hrun]
      cases hrest : (s.queue (.mlQueue q)).dropWhile s.removed with
      | cons p l =>
          -- Somebody at this level is left, and the lower levels are not looked at.
          rw [hrest] at hsearch
          have hpart := List.takeWhile_append_dropWhile (p := s.removed)
            (l := s.queue (.mlQueue q))
          refine ⟨k₁, as, s₁, some (p, q), rfl, hsearch, ?_, ?_, by simp, fun p' q' hfound => ?_⟩
          · rw [List.dropWhile_append, hrest]
            rfl
          · rw [hdrops, List.takeWhile_append, if_neg]
            intro hlen'
            have := congrArg List.length hpart
            rw [hrest, List.length_append, List.length_cons] at this
            omega
          · obtain ⟨rfl, rfl⟩ := Prod.mk.inj (Option.some.inj hfound)
            refine ⟨List.mem_cons_self, (List.dropWhile_sublist s.removed).subset ?_⟩
            rw [hrest]
            exact List.mem_cons_self
      | nil =>
          have hall : ∀ p ∈ s.queue (.mlQueue q), s.removed p = true :=
            List.dropWhile_eq_nil_iff.mp hrest
          rw [hrest] at hsearch
          have hdrops' : drops as = s.queue (.mlQueue q) := by
            rw [hdrops]
            exact List.takeWhile_eq_self_iff.mpr hall
          -- The lower levels are what they were.
          have hlower : ∀ {q'}, q' ∈ levels → s₁.queue (.mlQueue q') = s.queue (.mlQueue q') := by
            intro q' hq'
            refine hsearch.queue_eq fun p hp hp' => ?_
            rw [hdrops'] at hp
            have := hinv.queues.disjoint hp hp'
            simp only [QueueId.mlQueue.injEq] at this
            exact hq (this ▸ hq')
          have hsame : s₁.cascadeOrder levels = s.cascadeOrder levels := by
            unfold Sched.cascadeOrder
            exact List.flatMap_congr fun q' hq' => hlower hq'
          have hremoved : ∀ p ∈ s₁.cascadeOrder levels, s₁.removed p = s.removed p := by
            intro p hp
            rw [hsame] at hp
            obtain ⟨q', hq', hp'⟩ := List.mem_flatMap.mp hp
            refine (hsearch.selected.kept p fun hpd => ?_).2
            rw [hdrops'] at hpd
            have := hinv.queues.disjoint hpd hp'
            simp only [QueueId.mlQueue.injEq] at this
            exact hq (this ▸ hq')
          obtain ⟨k₂, bs, s₂, found, hrun₂, hsearch₂, hfound, hdrops₂, hempty, hlevel⟩ :=
            ih (hsearch.nobody rfl) (hinv.exec hsearch.exec) hlevels
          rw [dropWhile_congr hremoved, hsame] at hfound
          rw [takeWhile_congr hremoved, hsame] at hdrops₂
          refine ⟨k₂, as ++ bs, s₂, found, hrun₂, .prepend hsearch.exec hsearch.selects hsearch₂,
            ?_, ?_, fun hnone q' hq' => ?_, fun p' q' hp' => ?_⟩
          · rw [List.dropWhile_append_of_pos hall]
            exact hfound
          · rw [drops_append, hdrops', hdrops₂, List.takeWhile_append_of_pos hall]
          · rcases List.mem_cons.mp hq' with rfl | hq'
            · rw [hsearch₂.selected.queue, hqueue, hrest]
              rfl
            · exact hempty hnone q' hq'
          · obtain ⟨hq', hmem⟩ := hlevel p' q' hp'
            exact ⟨List.mem_cons_of_mem q hq', hlower hq' ▸ hmem⟩

/-! ### The lottery -/

theorem effectiveTickets_pos (k : Kernel) (p : PcbPtr) : 0 < k.effectiveTickets p := by
  unfold effectiveTickets
  split <;> omega

/-- The tickets of the processes in a list. -/
def Kernel.totalTickets (k : Kernel) (l : List PcbPtr) : Int := (l.map k.effectiveTickets).sum

theorem foldl_tickets (k : Kernel) (l : List PcbPtr) (c : Int) :
    l.foldl (fun total p => total + k.effectiveTickets p) c = c + k.totalTickets l := by
  induction l generalizing c with
  | nil => simp [totalTickets]
  | cons p l ih => rw [List.foldl_cons, ih]; simp [totalTickets, Int.add_assoc]

theorem totalTickets_nonneg (k : Kernel) (l : List PcbPtr) : 0 ≤ k.totalTickets l := by
  induction l with
  | nil => simp [totalTickets]
  | cons p l ih =>
      have := effectiveTickets_pos k p
      simp only [totalTickets, List.map_cons, List.sum_cons] at ih ⊢
      omega

theorem totalTickets_eq_zero_iff (k : Kernel) (l : List PcbPtr) :
    k.totalTickets l = 0 ↔ l = [] := by
  cases l with
  | nil => simp [totalTickets]
  | cons p l =>
      have := effectiveTickets_pos k p
      have := totalTickets_nonneg k l
      simp only [totalTickets, List.map_cons, List.sum_cons] at this ⊢
      simp only [reduceCtorEq, iff_false]
      omega

/-- The walk stops on a node of the list, with its predecessor, for every winner below
the number of tickets. -/
theorem drawWinner_eq (k : Kernel) {winner c : Int} {w l : List PcbPtr} (hc : c ≤ winner)
    (hwinner : winner < c + k.totalTickets l) :
    ∃ u p v, l = u ++ p :: v
      ∧ k.drawWinner winner l w.getLast? c = some ((w ++ u).getLast?, p) := by
  induction l generalizing w c with
  | nil => simp [totalTickets] at hwinner; omega
  | cons p l ih =>
      unfold drawWinner
      by_cases hp : c + k.effectiveTickets p > winner
      · exact ⟨[], p, l, rfl, by simp [hp]⟩
      · have htotal : k.totalTickets (p :: l) = k.effectiveTickets p + k.totalTickets l := by
          simp [totalTickets]
        obtain ⟨u, p', v, hl, hdraw⟩ := ih (w := w ++ [p]) (c := c + k.effectiveTickets p)
          (by omega) (by omega)
        refine ⟨p :: u, p', v, by simp [hl], ?_⟩
        simp only [hp, if_false]
        rw [List.getLast?_concat] at hdraw
        rw [hdraw]
        simp

/-- The winner is a node of the list. -/
theorem drawWinner_mem (k : Kernel) {winner c : Int} {l : List PcbPtr}
    {previous previous' : Option PcbPtr} {p : PcbPtr}
    (h : k.drawWinner winner l previous c = some (previous', p)) : p ∈ l := by
  induction l generalizing previous c with
  | nil => exact nomatch h
  | cons r l ih =>
      unfold drawWinner at h
      dsimp only at h
      split at h
      · rw [(Prod.mk.inj (Option.some.inj h)).2]
        simp
      · exact List.mem_cons_of_mem r (ih h)

/-- The processes that the draws of the lottery take out of the queue because a signal
removes them, from a queue that holds `l`: draw until a process wins that no signal
removes. -/
def Kernel.lotteryRemovals : Nat → Kernel → List PcbPtr → List PcbPtr
  | 0, _, _ => []
  | fuel + 1, k, l =>
      if k.totalTickets l = 0 then []
      else
        let (k, random) := k.lotteryRandom
        match k.drawWinner (random.toNat % (k.totalTickets l).toNat) l none 0 with
        | none => []
        | some (_, p) =>
            if (k.pcb p).signalled then p :: lotteryRemovals fuel k (l.filter (· ≠ p)) else []

/-- What the generator of the lottery reads. -/
def Kernel.draws (k : Kernel) : BitVec 64 × (Nat → BitVec 32) := (k.lotteryRngState, k.timerClo)

section Draws
variable (alg : SchedAlgorithm) (k : Kernel) (p : PcbPtr)

theorem removeProcessFrom_draws (q : QueueId) (previous : Option PcbPtr) :
    (k.removeProcessFrom q previous p).draws = k.draws := by
  cases previous <;> rfl

theorem enqueueProcessTo_draws (q : QueueId) : (k.enqueueProcessTo q p).draws = k.draws := by
  unfold enqueueProcessTo
  split
  · rfl
  · dsimp only
    split <;> rfl

theorem enqueueSortedTo_draws (q : QueueId) : (k.enqueueSortedTo q p).draws = k.draws := by
  unfold enqueueSortedTo
  split
  · rfl
  · dsimp only
    split
    · rfl
    · split <;> rfl

theorem enqueueProcess_draws : (k.enqueueProcess alg p).draws = k.draws := by
  unfold enqueueProcess
  split
  · rfl
  · cases alg <;> first
      | exact enqueueSortedTo_draws k p _
      | exact enqueueProcessTo_draws k p _

theorem handleProcessSignals_draws : (k.handleProcessSignals alg p).draws = k.draws := by
  unfold handleProcessSignals
  dsimp only
  split
  · rfl
  · split
    · rfl
    · split
      · rfl
      · split
        · split
          · exact enqueueProcess_draws alg _ p
          · rfl
        · rfl

end Draws

/-- Two kernels between which the draws of the lottery cannot tell, over the processes
in `l`. -/
structure SameDraws (k k' : Kernel) (l : List PcbPtr) : Prop where
  draws : k'.draws = k.draws
  block : ∀ p ∈ l, k'.effectiveTickets p = k.effectiveTickets p
    ∧ (k'.pcb p).signalled = (k.pcb p).signalled

namespace SameDraws

variable {k k' : Kernel} {l : List PcbPtr}

/-- The draws look at the blocks without their links. -/
theorem of_unlinked (hdraws : k'.draws = k.draws)
    (hblock : ∀ p ∈ l, (k'.pcb p).unlinked = (k.pcb p).unlinked) : SameDraws k k' l := by
  refine ⟨hdraws, fun p hp => ⟨?_, ?_⟩⟩
  · have htickets := congrArg PCB.tickets (hblock p hp)
    change (k'.pcb p).tickets = (k.pcb p).tickets at htickets
    rw [effectiveTickets, effectiveTickets, htickets]
  · have hsignalled := congrArg PCB.signalled (hblock p hp)
    exact hsignalled

theorem mono (h : SameDraws k k' l) {l' : List PcbPtr} (hl : l' ⊆ l) : SameDraws k k' l' :=
  ⟨h.draws, fun p hp => h.block p (hl hp)⟩

theorem lotteryRandom (h : SameDraws k k' l) :
    k'.lotteryRandom.2 = k.lotteryRandom.2
      ∧ SameDraws k.lotteryRandom.1 k'.lotteryRandom.1 l := by
  obtain ⟨hrng, htimer⟩ := Prod.mk.inj h.draws
  have hrandom : k'.lotteryRandom.2 = k.lotteryRandom.2 := by
    simp only [Kernel.lotteryRandom, hrng, htimer]
  refine ⟨hrandom, Prod.ext hrandom ?_, h.block⟩
  simp only [Kernel.draws, Kernel.lotteryRandom, htimer]

theorem totalTickets (h : SameDraws k k' l) : k'.totalTickets l = k.totalTickets l := by
  unfold Kernel.totalTickets
  rw [List.map_congr_left fun p hp => (h.block p hp).1]

theorem drawWinner (h : SameDraws k k' l) (winner : Int) (previous : Option PcbPtr) (c : Int) :
    k'.drawWinner winner l previous c = k.drawWinner winner l previous c := by
  induction l generalizing previous c with
  | nil => rfl
  | cons p l ih =>
      simp only [Kernel.drawWinner, (h.block p (by simp)).1]
      split
      · rfl
      · exact ih (h.mono (List.subset_cons_self p l)) _ _

theorem lotteryRemovals (h : SameDraws k k' l) (fuel : Nat) :
    k'.lotteryRemovals fuel l = k.lotteryRemovals fuel l := by
  induction fuel generalizing k k' l with
  | zero => rfl
  | succ fuel ih =>
      obtain ⟨hrandom, hsame⟩ := h.lotteryRandom
      simp only [Kernel.lotteryRemovals, h.totalTickets, hrandom, hsame.totalTickets,
        hsame.drawWinner]
      split
      · rfl
      · split
        · rfl
        · next p hdraw =>
            have hp : p ∈ l := drawWinner_mem _ hdraw
            have hrest := hsame.mono (List.filter_sublist (p := (· ≠ p)) (l := l)).subset
            rw [(hsame.block p hp).2, ih hrest]

end SameDraws

theorem lotteryRandom_refines (h : Refines k s) : Refines k.lotteryRandom.1 s :=
  h.devices k.mlTicksSinceBoost _ _ k.uartBuffer k.uartHead k.uartTail k.ttbr0

/-- The `while (next_process == NULL)` of the lottery draws and drops signalled
processes until another one wins or the queue is empty. -/
theorem lotteryLoop_search (h : Refines k s) (hinv : s.Inv alg) {fuel : Nat}
    (hfuel : (s.queue .readyQueue).length < fuel) :
    ∃ k' as s₁ next, lotteryLoop alg fuel k = some (k', next) ∧ Search alg s as s₁ k' next
      ∧ (next = none → s₁.queue .readyQueue = [])
      ∧ drops as = k.lotteryRemovals fuel (s.queue .readyQueue) := by
  induction fuel generalizing k s with
  | zero => simp at hfuel
  | succ fuel ih =>
      have hlen := hinv.length_lt .readyQueue
      simp only [lotteryLoop, walk_head h.linked .readyQueue (Nat.le_of_lt hlen),
        Option.bind_eq_bind, Option.bind_some, foldl_tickets, Int.zero_add,
        totalTickets_eq_zero_iff]
      by_cases hnil : s.queue .readyQueue = []
      · rw [if_pos hnil]
        refine ⟨k, [], s, none, rfl, .refl h, fun _ => hnil, ?_⟩
        rw [lotteryRemovals, if_pos ((totalTickets_eq_zero_iff k _).mpr hnil)]
        rfl
      · rw [if_neg hnil]
        have htotal : 0 < k.totalTickets (s.queue .readyQueue) := by
          have := totalTickets_nonneg k (s.queue .readyQueue)
          have := (totalTickets_eq_zero_iff k (s.queue .readyQueue)).not.mpr hnil
          omega
        obtain ⟨k₁, hk₁⟩ : ∃ k₁, k₁ = k.lotteryRandom.1 := ⟨_, rfl⟩
        have h₁ : Refines k₁ s := hk₁ ▸ lotteryRandom_refines h
        have htickets : ∀ l, k₁.totalTickets l = k.totalTickets l := fun l => by
          rw [hk₁]; rfl
        obtain ⟨random, hrandom⟩ : ∃ random, random = k.lotteryRandom.2 := ⟨_, rfl⟩
        have hsplit : k.lotteryRandom = (k₁, random) := by rw [hk₁, hrandom]
        simp only [hsplit]
        obtain ⟨winner, hwinner⟩ : ∃ winner : Int,
            winner = random.toNat % (k.totalTickets (s.queue .readyQueue)).toNat := ⟨_, rfl⟩
        have htoNat := Int.toNat_of_nonneg (Int.le_of_lt htotal)
        have hnonneg : 0 ≤ winner := by
          rw [hwinner]
          exact Int.emod_nonneg _ (by omega)
        have hlt : winner < 0 + k₁.totalTickets (s.queue .readyQueue) := by
          rw [hwinner, htickets, htoNat, Int.zero_add]
          exact Int.emod_lt_of_pos _ htotal
        obtain ⟨u, p, v, hl, hdraw⟩ := drawWinner_eq k₁ (w := []) hnonneg hlt
        simp only [List.getLast?_nil, List.nil_append] at hdraw
        rw [← hwinner, hdraw]
        simp only [Option.bind_some]
        have hp : s.IsLinked p := ⟨.readyQueue, by simp [hl]⟩
        obtain ⟨h₂, hstate⟩ := search_handled (h₁.removeProcessFrom hl) hinv hp
        have hremovals : k.lotteryRemovals (fuel + 1) (s.queue .readyQueue)
            = if s.removed p then
                p :: k₁.lotteryRemovals fuel ((s.queue .readyQueue).filter (· ≠ p)) else [] := by
          have hblock : (k₁.pcb p).signalled = s.removed p := by
            rw [Sched.removed, h₁.block_eq]
            rfl
          rw [lotteryRemovals, if_neg (by rw [totalTickets_eq_zero_iff]; exact hnil)]
          simp only [hsplit, htickets, ← hwinner, hdraw, hblock]
        cases hsig : s.removed p with
        | false =>
            obtain ⟨as, s₁, hsearch, hdrops, -⟩ := search_found alg h₂ hp hsig
            rw [if_pos (hstate.mpr hsig)]
            exact ⟨_, as, s₁, some p, rfl, hsearch, by simp, by rw [hdrops, hremovals, hsig]; rfl⟩
        | true =>
            have hdrop : (Action.drop p).Guard alg s := ⟨hp, hsig⟩
            have hqueue : ((s.unlink p).handleSignals p).queue .readyQueue = u ++ v := by
              have hnodup := hinv.queues.nodup .readyQueue
              rw [hl] at hnodup
              show (s.queue .readyQueue).filter (· ≠ p) = u ++ v
              rw [hl, filter_ne_append_cons hnodup]
            rw [if_neg (by simp [hstate, hsig])]
            obtain ⟨k', as, s₁, next, hrun, hsearch, hempty, hdrops⟩ :=
              ih h₂ (hinv.drop hdrop) (by
                rw [hqueue]
                rw [hl] at hfuel
                simp only [List.length_append, List.length_cons] at hfuel ⊢
                omega)
            refine ⟨k', .drop p :: as, s₁, next, hrun, .cons hdrop trivial hsearch, hempty, ?_⟩
            have hrest : drops (.drop p :: as) = p :: drops as := rfl
            have hqueue' : (s.queue .readyQueue).filter (· ≠ p) = u ++ v := hqueue
            rw [hrest, hdrops, hremovals, hsig, hqueue, hqueue', if_pos rfl]
            -- Neither the removal nor the signals of one process touch the next draws.
            have hsame : SameDraws k₁ (handleProcessSignals alg
                (k₁.removeProcessFrom .readyQueue u.getLast? p) p) (u ++ v) := by
              refine .of_unlinked ((handleProcessSignals_draws alg _ p).trans
                (removeProcessFrom_draws k₁ p _ _)) fun r hr => ?_
              have hrp : r ≠ p := by
                rw [← hqueue'] at hr
                simpa using (List.mem_filter.mp hr).2
              have hblock : ((s.unlink p).handleSignals p).block r = s.block r :=
                Sched.modify_block_of_ne hrp
              rw [← h₂.block_eq, hblock, h₁.block_eq]
            rw [hsame.lotteryRemovals]

/-! ### Priority aging -/

/-- The handler on a linked process that no signal removes is at most a cleared resume
bit. -/
theorem exec_handled (alg : SchedAlgorithm) (hp : s.IsLinked p) (hsig : s.removed p = false) :
    ∃ as, Exec alg s as (s.handleSignals p) ∧ (∀ a ∈ as, a.Selects) ∧ drops as = []
      ∧ recharges as = 0 := by
  rw [handleSignals_of_not_signalled hsig]
  split
  · refine ⟨[.edit p .clearResume], ⟨⟨hp, hsig⟩, rfl⟩, fun a ha => ?_, rfl, rfl⟩
    rw [List.mem_singleton.mp ha]
    trivial
  · exact ⟨[], rfl, by simp, rfl, rfl⟩

theorem handled_counter (b : PCB) : b.handled.counter = b.counter :=
  PCB.handled_field PCB.counter (fun _ _ _ => rfl) b

/-- The residual slice of a process, which is its dynamic priority. -/
def Sched.counter (s : Sched) (p : PcbPtr) : Int := (s.block p).counter

theorem counter_handleSignals (r : PcbPtr) : (s.handleSignals p).counter r = s.counter r :=
  Sched.modify_field PCB.counter (handled_counter _) r

/-- The best candidate after a walk over `w`, with its predecessor and its counter: the
first of those with the largest positive counter. -/
def BestOf (counter : PcbPtr → Int) (w : List PcbPtr) :
    Option PcbPtr → Option PcbPtr → Int → Prop
  | none, previous, m => previous = none ∧ m = 0 ∧ ∀ r ∈ w, counter r ≤ 0
  | some b, previous, m => ∃ u v, w = u ++ b :: v ∧ previous = u.getLast? ∧ m = counter b
      ∧ 0 < m ∧ (∀ r ∈ u, counter r < m) ∧ ∀ r ∈ v, counter r ≤ m

namespace BestOf

variable {counter : PcbPtr → Int} {w : List PcbPtr} {best previous : Option PcbPtr} {m : Int}

theorem nonneg (h : BestOf counter w best previous m) : 0 ≤ m := by
  cases best with
  | none => exact Int.le_of_eq h.2.1.symm
  | some b =>
      obtain ⟨u, v, -, -, -, hm, -⟩ := h
      exact Int.le_of_lt hm

theorem le (h : BestOf counter w best previous m) : ∀ r ∈ w, counter r ≤ m := by
  intro r hr
  cases best with
  | none =>
      have := h.2.2 r hr
      have := h.2.1
      omega
  | some b =>
      obtain ⟨u, v, rfl, -, hb, -, hu, hv⟩ := h
      rcases List.mem_append.mp hr with hr | hr
      · exact Int.le_of_lt (hu r hr)
      · rcases List.mem_cons.mp hr with rfl | hr
        · exact Int.le_of_eq hb.symm
        · exact hv r hr

/-- Nobody, before the first node. -/
theorem start (counter : PcbPtr → Int) : BestOf counter [] none none 0 :=
  ⟨rfl, rfl, by simp⟩

/-- A node with a larger counter takes over. -/
theorem snoc_new (h : BestOf counter w best previous m) (hp : counter p > m) :
    BestOf counter (w ++ [p]) (some p) w.getLast? (counter p) :=
  ⟨w, [], rfl, rfl, rfl, by have := h.nonneg; omega,
    fun r hr => by have := h.le r hr; omega, by simp⟩

/-- Any other node changes nothing. -/
theorem snoc_old (h : BestOf counter w best previous m) (hp : ¬ counter p > m) :
    BestOf counter (w ++ [p]) best previous m := by
  cases best with
  | none =>
      refine ⟨h.1, h.2.1, fun r hr => ?_⟩
      rcases List.mem_append.mp hr with hr | hr
      · exact h.2.2 r hr
      · rw [List.mem_singleton.mp hr]
        have := h.2.1
        omega
  | some b =>
      obtain ⟨u, v, rfl, hprev, hb, hm, hu, hv⟩ := h
      refine ⟨u, v ++ [p], by simp, hprev, hb, hm, hu, fun r hr => ?_⟩
      rcases List.mem_append.mp hr with hr | hr
      · exact hv r hr
      · rw [List.mem_singleton.mp hr]
        omega

theorem congr {counter' : PcbPtr → Int} (h : BestOf counter w best previous m)
    (hc : ∀ r, counter' r = counter r) : BestOf counter' w best previous m := by
  rw [funext hc]
  exact h

end BestOf

/-- One walk of the ready queue: the signalled processes are dropped, and the result is
the best of the others. -/
theorem agingWalk_search (h : Refines k s) (hinv : s.Inv alg) {w l : List PcbPtr}
    (hqueue : s.queue .readyQueue = w ++ l) {fuel : Nat} (hfuel : l.length ≤ fuel)
    {best previous : Option PcbPtr} {m : Int} (hbest : BestOf s.counter w best previous m) :
    ∃ k' as s₁ best' previous' m', agingWalk alg fuel k l.head? w.getLast? best previous m
        = some (k', best', previous')
      ∧ Exec alg s as s₁ ∧ (∀ a ∈ as, a.Selects) ∧ Refines k' s₁
      ∧ drops as = l.filter s.removed ∧ recharges as = 0
      ∧ s₁.queue .readyQueue = w ++ l.filter (!s.removed ·)
      ∧ (∀ r, s₁.counter r = s.counter r)
      ∧ BestOf s₁.counter (s₁.queue .readyQueue) best' previous' m' := by
  induction l generalizing k s w fuel best previous m with
  | nil =>
      rw [List.append_nil] at hqueue
      refine ⟨k, [], s, best, previous, m, ?_, rfl, by simp, h, rfl, rfl, by simp [hqueue],
        fun _ => rfl, hqueue ▸ hbest⟩
      cases fuel <;> rfl
  | cons p l ih =>
      cases fuel with
      | zero => simp at hfuel
      | succ fuel =>
          have hp : s.IsLinked p := ⟨.readyQueue, by simp [hqueue]⟩
          have hready : s.state p = .ready := hinv.linked_ready hp
          have hnodup := hinv.queues.nodup .readyQueue
          rw [hqueue] at hnodup
          have hnext : (k.pcb p).nextReady = l.head? := by
            have := h.linked.queue .readyQueue
            rw [hqueue] at this
            exact this.next_eq
          have hk₁ := h.handleProcessSignals alg (p := p) (by rw [hready]; decide)
          have hstate : ((k.handleProcessSignals alg p).pcb p).state = .ready
              ↔ s.removed p = false := by
            rw [hk₁.state_eq]
            exact (iff_of_eq (by rw [Sched.state, Sched.handleSignals,
              Sched.modify_block_self])).trans (PCB.handled_state_eq_ready_iff _ hready)
          have hcounter : ((k.handleProcessSignals alg p).pcb p).counter = s.counter p := by
            rw [← counter_handleSignals (p := p), Sched.counter, hk₁.block_eq]
            rfl
          simp only [List.head?_cons, agingWalk, hnext, hcounter]
          cases hsig : s.removed p with
          | true =>
              -- The node leaves the queue, and its predecessor stays the last one kept.
              have hdrop : (Action.drop p).Guard alg s := ⟨hp, hsig⟩
              have hk₂ : Refines ((k.handleProcessSignals alg p).removeProcessFrom .readyQueue
                  w.getLast? p) ((Action.drop p).apply alg s) :=
                hk₁.removeProcessFrom (q := .readyQueue) hqueue
              have hqueue₂ : ((Action.drop p).apply alg s).queue .readyQueue = w ++ l := by
                show (s.queue .readyQueue).filter (· ≠ p) = w ++ l
                rw [hqueue, filter_ne_append_cons hnodup]
              have hother : ∀ r ∈ l, ((Action.drop p).apply alg s).removed r = s.removed r :=
                fun r hr => removed_drop fun hrp =>
                  (List.nodup_cons.mp (List.nodup_append.mp hnodup).2.1).1 (hrp ▸ hr)
              have hcounter₂ : ∀ r, ((Action.drop p).apply alg s).counter r = s.counter r :=
                fun r => counter_handleSignals (s := s.unlink p) r
              obtain ⟨k', as, s₁, best', previous', m', hrun, hexec, hsel, hk', hdrops, hnone, hq,
                hc, hb⟩ := ih hk₂ (hinv.drop hdrop) hqueue₂ (by simpa using hfuel)
                  (hbest.congr hcounter₂)
              rw [if_pos (by simp [hstate, hsig])]
              refine ⟨k', .drop p :: as, s₁, best', previous', m', hrun, ⟨hdrop, hexec⟩,
                fun a ha => ?_, hk', ?_, hnone, ?_, fun r => (hc r).trans (hcounter₂ r), hb⟩
              · rcases List.mem_cons.mp ha with rfl | ha
                · trivial
                · exact hsel a ha
              · rw [List.filter_cons_of_pos hsig, ← List.filter_congr hother, ← hdrops]
                rfl
              · rw [hq, List.filter_cons_of_neg (by simp [hsig])]
                congr 1
                exact List.filter_congr fun r hr => by rw [hother r hr]
          | false =>
              obtain ⟨as, hexec, hsel, hdrops, hnone⟩ := exec_handled alg hp hsig
              have hremoved : ∀ r ∈ l, (s.handleSignals p).removed r = s.removed r :=
                fun r hr => congrArg PCB.signalled (Sched.modify_block_of_ne fun hrp =>
                  (List.nodup_cons.mp (List.nodup_append.mp hnodup).2.1).1 (hrp ▸ hr))
              have hqueue₁ : (s.handleSignals p).queue .readyQueue = (w ++ [p]) ++ l := by
                rw [List.append_assoc]
                exact hqueue
              have hbest₁ := hbest.congr (counter_handleSignals (s := s) (p := p))
              have hkept : ∀ {best₁ previous₁ : Option PcbPtr} {m₁ : Int},
                  BestOf (s.handleSignals p).counter (w ++ [p]) best₁ previous₁ m₁ →
                  ∃ k' as s₁ best' previous' m',
                    agingWalk alg fuel (k.handleProcessSignals alg p) l.head? (some p) best₁
                      previous₁ m₁ = some (k', best', previous')
                    ∧ Exec alg s as s₁ ∧ (∀ a ∈ as, a.Selects) ∧ Refines k' s₁
                    ∧ drops as = (p :: l).filter s.removed ∧ recharges as = 0
                    ∧ s₁.queue .readyQueue = w ++ (p :: l).filter (!s.removed ·)
                    ∧ (∀ r, s₁.counter r = s.counter r)
                    ∧ BestOf s₁.counter (s₁.queue .readyQueue) best' previous' m' := by
                intro best₁ previous₁ m₁ hb₁
                obtain ⟨k', bs, s₁, best', previous', m', hrun, hexec', hsel', hk', hdrops',
                  hnone', hq, hc, hb⟩ := ih hk₁ (hinv.exec hexec) hqueue₁ (by simpa using hfuel) hb₁
                rw [List.getLast?_concat] at hrun
                refine ⟨k', as ++ bs, s₁, best', previous', m', hrun,
                  exec_append.mpr ⟨_, hexec, hexec'⟩,
                  fun a ha => (List.mem_append.mp ha).elim (hsel a) (hsel' a), hk', ?_, ?_, ?_,
                  fun r => (hc r).trans (counter_handleSignals r), hb⟩
                · rw [drops_append, hdrops, hdrops', List.nil_append,
                    List.filter_cons_of_neg (by simp [hsig])]
                  exact List.filter_congr hremoved
                · rw [recharges_append, hnone, hnone']
                · rw [hq, List.filter_cons_of_pos (by simp [hsig]), List.append_assoc]
                  refine congrArg (fun v => w ++ p :: v) ?_
                  exact List.filter_congr fun r hr => by rw [hremoved r hr]
              rw [if_neg (by simp [hstate, hsig])]
              split
              · next hgt =>
                  have := hbest₁.snoc_new (p := p) (by rw [counter_handleSignals]; exact hgt)
                  rw [counter_handleSignals] at this
                  exact hkept this
              · next hle =>
                  exact hkept (hbest₁.snoc_old (p := p) (by rw [counter_handleSignals]; exact hle))

/-- The blocks after a loop over slots of the table that rewrites each process it
finds. -/
def Sched.slotBlock (s : Sched) (f : PCB → PCB) (slots : List Nat) (r : PcbPtr) : PCB :=
  if ∃ i ∈ slots, s.processes i = some r then f (s.block r) else s.block r

theorem slotBlock_cons_none {f : PCB → PCB} {i : Nat} {slots : List Nat}
    (hi : s.processes i = none) : s.slotBlock f (i :: slots) = s.slotBlock f slots := by
  funext r
  simp [Sched.slotBlock, hi]

/-- The process of a slot is not in the slots of the rest. -/
theorem slotBlock_cons_some {f : PCB → PCB} {i : Nat} {slots : List Nat}
    (hi : s.processes i = some p) (hrest : ∀ j ∈ slots, s.processes j ≠ some p) :
    s.slotBlock f (i :: slots) = (s.modify p f).slotBlock f slots := by
  funext r
  unfold Sched.slotBlock
  by_cases hr : r = p
  · subst hr
    have hnone : ¬ ∃ j ∈ slots, (s.modify r f).processes j = some r := fun ⟨j, hj, hj'⟩ =>
      hrest j hj hj'
    rw [if_pos ⟨i, by simp, hi⟩, if_neg hnone, Sched.modify_block_self]
  · rw [Sched.modify_block_of_ne hr]
    have hhead : s.processes i ≠ some r := fun h' => by
      rw [hi] at h'
      exact hr (Option.some.inj h').symm
    exact if_congr (by simp [hhead]) rfl rfl

/-- A loop over slots of the table that rewrites each process it finds, once. -/
theorem foldl_modifyPcb (h : Refines k s) {f : PCB → PCB}
    (hlink : ∀ b, (f b).nextReady = b.nextReady) (hview : ∀ b, (f b).unlinked = f b.unlinked)
    (hinj : ∀ {i j r}, s.processes i = some r → s.processes j = some r → i = j)
    {slots : List Nat} (hslots : slots.Nodup) :
    Refines
      (slots.foldl
        (fun k i => match k.processes i with
          | none => k
          | some p => k.modifyPcb p f) k)
      { s with block := s.slotBlock f slots } := by
  induction slots generalizing k s with
  | nil =>
      have hblock : s.slotBlock f [] = s.block := by
        funext r
        simp [Sched.slotBlock]
      rw [hblock]
      exact h
  | cons i slots ih =>
      obtain ⟨hi, hslots⟩ := List.nodup_cons.mp hslots
      rw [List.foldl_cons, h.processes]
      cases hp : s.processes i with
      | none =>
          rw [slotBlock_cons_none hp]
          exact ih h hinj hslots
      | some p =>
          rw [slotBlock_cons_some hp fun j hj hj' => hi (hinj hp hj' ▸ hj)]
          exact ih (h.modifyPcb p hlink hview) hinj hslots

/-- `counter = counter / 2 + priority` for every process in the table. -/
theorem rechargeAll_refines (h : Refines k s) (hinv : s.Inv alg) :
    Refines k.rechargeAll (Action.recharge.apply alg s) := by
  have hlen := hinv.length_lt .readyQueue
  have hfold := foldl_modifyPcb (h.log (.recharged (k.linkedIn .readyQueue)))
    (f := fun b => b.withCounter ((b.counter >>> (1 : Nat)) + b.priority)) (fun _ => rfl) (fun _ => rfl)
    (fun {i j r} hi hj => (hinv.table.slot hi).2.symm.trans (hinv.table.slot hj).2)
    (List.nodup_range (n := N_PROCESSES))
  have hblock : (s.log (.recharged (k.linkedIn .readyQueue))).slotBlock
      (fun b => b.withCounter ((b.counter >>> (1 : Nat)) + b.priority)) (List.range N_PROCESSES)
      = (Action.recharge.apply alg s).block := by
    funext r
    exact if_congr (by simp [Sched.Registered, Sched.log]) rfl rfl
  rw [hblock, linkedIn_eq h.linked .readyQueue (Nat.le_of_lt hlen)] at hfold
  unfold rechargeAll
  rw [linkedIn_eq h.linked .readyQueue (Nat.le_of_lt hlen)]
  exact hfold

/-- The recharge of one counter. -/
theorem recharge_counter (hp : s.Registered p) :
    (Action.recharge.apply alg s).counter p = (s.counter p >>> (1 : Nat)) + (s.block p).priority := by
  simp only [Sched.counter, Action.apply, if_pos hp]
  rfl

/-- The rounds of the epoch loop that a process with this counter allows. -/
def epochRounds (counter : Int) : Nat := if counter > 0 then 1 else counter.natAbs + 2

theorem epochRounds_recharge {c priority : Int} {fuel : Nat} (hc : c ≤ 0)
    (hpriority : 1 ≤ priority) (h : epochRounds c ≤ fuel + 1) :
    epochRounds ((c >>> (1 : Nat)) + priority) ≤ fuel := by
  have hshift : c >>> (1 : Nat) = c / 2 := by
    rw [Int.shiftRight_eq_div_pow]
    rfl
  rw [hshift]
  unfold epochRounds at h ⊢
  split at h <;> split <;> omega

/-- The queued processes that no signal removes. -/
def Sched.contenders (s : Sched) : List PcbPtr :=
  (s.queue .readyQueue).filter (!s.removed ·)

/-- What the epoch loop chooses after `n` recharges: the first contender with the largest
counter, or nobody if there is none. -/
structure Sched.AgingChoice (s : Sched) (n : Nat) (next : Option PcbPtr) : Prop where
  nobody : next = none → s.contenders = []
  best : ∀ p, next = some p → FirstMax (fun r => (s.block r).aged n) s.contenders p
  current : (∃ p ∈ s.contenders, 0 < s.counter p) → n = 0
  once : (∀ p ∈ s.contenders, 0 ≤ s.counter p) → n ≤ 1

/-- One more recharge of a process in the table. -/
theorem recharge_aged (hp : s.Registered p) (n : Nat) :
    ((Action.recharge.apply alg s).block p).aged n = (s.block p).aged (n + 1) := by
  simp only [Action.apply, if_pos hp]
  exact (Function.iterate_succ_apply _ _ _).symm

/-- A recharge in front of the loop. -/
theorem Sched.AgingChoice.recharge {n : Nat} {next : Option PcbPtr} (hinv : s.Inv alg)
    (h : (Action.recharge.apply alg s).AgingChoice n next)
    (hne : s.contenders ≠ []) (hle : ∀ p ∈ s.contenders, s.counter p ≤ 0) :
    s.AgingChoice (n + 1) next := by
  have hsame : (Action.recharge.apply alg s).contenders = s.contenders := by
    refine List.filter_congr fun r _ => congrArg (fun b => !b) ?_
    simp only [Sched.removed, Action.apply]
    split <;> rfl
  have hreg : ∀ p ∈ s.contenders, s.Registered p := fun p hp =>
    (hinv.queues.member (List.mem_filter.mp hp).1).1
  refine ⟨fun hnone => hsame.symm.trans (h.nobody hnone), fun p hp => ?_, ?_,
    fun hnonneg => ?_⟩
  · have hbest := h.best p hp
    rw [hsame] at hbest
    exact hbest.congr fun r hr => (recharge_aged (hreg r hr) n).symm
  · rintro ⟨p, hp, hpos⟩
    have := hle p hp
    omega
  · -- From zero, one recharge makes every counter positive.
    obtain ⟨p, hp⟩ := List.exists_mem_of_ne_nil _ hne
    have hzero : s.counter p = 0 := by
      have := hle p hp
      have := hnonneg p hp
      omega
    have hpriority := hinv.points.priority (hreg p hp)
    have hn : n = 0 := by
      refine h.current ⟨p, by rw [hsame]; exact hp, ?_⟩
      rw [recharge_counter (hreg p hp), hzero]
      show 0 < 0 + (s.block p).priority
      omega
    omega

/-- The loop on what a walk without recharges leaves. -/
theorem Sched.AgingChoice.of_walk {s₁ : Sched} {n : Nat} {next : Option PcbPtr}
    (h : s₁.AgingChoice n next) (hcontenders : s₁.contenders = s.contenders)
    (hcounter : ∀ r, s₁.counter r = s.counter r)
    (hpriority : ∀ r, (s₁.block r).priority = (s.block r).priority) :
    s.AgingChoice n next := by
  have haged : ∀ r, (s.block r).aged n = (s₁.block r).aged n := by
    intro r
    unfold PCB.aged
    rw [hpriority, show (s₁.block r).counter = (s.block r).counter from hcounter r]
  exact {
    nobody := fun hnone => hcontenders ▸ h.nobody hnone
    best := fun p hp => hcontenders ▸ (h.best p hp).congr fun r _ => haged r
    current := fun ⟨p, hp, hpos⟩ => h.current ⟨p, hcontenders ▸ hp, by rwa [hcounter]⟩
    once := fun hnonneg => h.once fun p hp => by
      rw [hcounter]
      exact hnonneg p (hcontenders ▸ hp) }

/-- The epoch loop drops the signalled processes and ends with the best of the others. -/
theorem agingLoop_search (h : Refines k s) (hinv : s.Inv .priorityAging) {fuel : Nat}
    (hfuel : ∀ p ∈ s.queue .readyQueue, epochRounds (s.counter p) ≤ fuel) (hpos : 0 < fuel) :
    ∃ k' as s₁ next, agingLoop .priorityAging fuel k = some (k', next)
      ∧ Search .priorityAging s as s₁ k' next
      ∧ drops as = (s.queue .readyQueue).filter s.removed
      ∧ (next = none → s₁.queue .readyQueue = [])
      ∧ (∀ p, next = some p → 0 < s₁.counter p)
      ∧ s.AgingChoice (recharges as) next := by
  induction fuel generalizing k s with
  | zero => exact absurd hpos (by decide)
  | succ fuel ih =>
      have hlen := hinv.length_lt .readyQueue
      obtain ⟨k₁, as, s₁, best, previous, m, hrun, hexec, hsel, hk₁, hdrops, hnone, hqueue,
        hcounter, hbest⟩ := agingWalk_search h hinv (w := []) rfl (Nat.le_of_lt hlen) (.start _)
      have hinv₁ := hinv.exec hexec
      have hselected := hexec.selected hsel
      have hqueue : s₁.queue .readyQueue = s.contenders := hqueue
      have hkept : ∀ p ∈ s.contenders, p ∈ s.queue .readyQueue ∧ s₁.removed p = false := by
        intro p hp
        obtain ⟨hps, hsig⟩ := List.mem_filter.mp hp
        have hsig : s.removed p = false := by simpa using hsig
        refine ⟨hps, (hselected.kept p fun hd => ?_).2.trans hsig⟩
        rw [hdrops] at hd
        simp [hsig] at hd
      have hsame : s₁.contenders = s.contenders := by
        show (s₁.queue .readyQueue).filter (!s₁.removed ·) = s.contenders
        rw [hqueue]
        exact List.filter_eq_self.mpr fun p hp => by rw [(hkept p hp).2]; rfl
      have hpriority : ∀ r, (s₁.block r).priority = (s.block r).priority := fun r =>
        hexec.select_field PCB.priority (fun _ _ _ _ => rfl) hsel r
      have hhead := (h.linked.queue .readyQueue).head_eq
      simp only [agingLoop, hhead]
      rw [show ([] : List PcbPtr).getLast? = none from rfl] at hrun
      rw [hrun]
      simp only [Option.bind_eq_bind, Option.bind_some]
      cases best with
      | some p =>
          obtain ⟨u, v, hsplit, hprevious, hm, hpos', hu, hv⟩ := hbest
          have hp : p ∈ s₁.queue .readyQueue := by rw [hsplit]; simp
          have hfirst : FirstMax (fun r => (s.block r).aged 0) s.contenders p := by
            have hcounters : FirstMax s₁.counter s.contenders p := by
              refine ⟨u, v, hqueue ▸ hsplit, ?_, ?_⟩
              · intro r hr
                rw [← hm]
                exact hu r hr
              · intro r hr
                rw [← hm]
                exact hv r hr
            exact hcounters.congr fun r _ => (hcounter r).symm
          refine ⟨_, as, s₁, some p, rfl, ⟨hexec, hsel, by simp, fun r hr => ?_⟩, hdrops, by simp,
            fun r hr => ?_, ?_⟩
          · obtain rfl := Option.some.inj hr
            refine ⟨⟨_, hp⟩, (hkept p (hqueue ▸ hp)).2, ?_⟩
            rw [hprevious]
            exact hk₁.removeProcessFrom hsplit
          · obtain rfl := Option.some.inj hr
            omega
          · rw [hnone]
            exact ⟨nofun, fun r hr => Option.some.inj hr ▸ hfirst, fun _ => rfl,
              fun _ => Nat.zero_le 1⟩
      | none =>
          have hle : ∀ p ∈ s₁.queue .readyQueue, s₁.counter p ≤ 0 := hbest.2.2
          have hhead₁ := (hk₁.linked.queue .readyQueue).head_eq_none_iff
          by_cases hnil : s₁.queue .readyQueue = []
          · simp only [if_pos (hhead₁.mpr hnil)]
            refine ⟨k₁, as, s₁, none, rfl, ⟨hexec, hsel, fun _ => hk₁, by simp⟩, hdrops,
              fun _ => hnil, by simp, ?_⟩
            rw [hnone]
            exact ⟨fun _ => hqueue ▸ hnil, nofun, fun _ => rfl, fun _ => Nat.zero_le 1⟩
          · simp only [if_neg (hhead₁.not.mpr hnil)]
            have hg : Action.recharge.Guard .priorityAging s₁ := ⟨rfl, hnil, hle⟩
            have hk₂ := rechargeAll_refines hk₁ hinv₁
            have hinv₂ := hinv₁.recharge
            -- Every queued counter grows towards the round in which it is positive.
            have hrounds : ∀ p ∈ s₁.queue .readyQueue,
                epochRounds ((Action.recharge.apply .priorityAging s₁).counter p) ≤ fuel := by
              intro p hp
              have hreg := (hinv₁.queues.member hp).1
              rw [recharge_counter hreg]
              refine epochRounds_recharge (hle p hp) (hinv₁.points.priority hreg) ?_
              rw [hcounter]
              exact hfuel p (hkept p (hqueue ▸ hp)).1
            obtain ⟨p₀, hp₀⟩ := List.exists_mem_of_ne_nil _ hnil
            have hpos₂ : 0 < fuel := by
              have := hrounds p₀ hp₀
              unfold epochRounds at this
              split at this <;> omega
            obtain ⟨k', bs, s₂, next, hrun₂, hsearch, hdrops₂, hempty, hnext, hchoice⟩ :=
              ih hk₂ hinv₂ hrounds hpos₂
            refine ⟨k', as ++ (.recharge :: bs), s₂, next, hrun₂,
              .prepend hexec hsel (.cons hg trivial hsearch), ?_, hempty, hnext, ?_⟩
            · -- After the first walk nothing is left to drop.
              have hnone : drops bs = [] := by
                rw [hdrops₂]
                refine List.filter_eq_nil_iff.mpr fun r hr => ?_
                have hsame : (Action.recharge.apply .priorityAging s₁).removed r
                    = s₁.removed r := by
                  simp only [Sched.removed, Action.apply]
                  split <;> rfl
                have hr' : r ∈ s.contenders := hqueue ▸ (show r ∈ s₁.queue .readyQueue from hr)
                rw [hsame, (hkept r hr').2]
                decide
              rw [drops_append, hdrops]
              show _ ++ drops bs = _
              rw [hnone, List.append_nil]
            · have hcount : recharges (as ++ Action.recharge :: bs) = recharges bs + 1 := by
                rw [recharges_append, hnone, Nat.zero_add]
                exact List.countP_cons_of_pos rfl
              rw [hcount]
              refine Sched.AgingChoice.of_walk (.recharge hinv₁ hchoice ?_ fun p hp => ?_) hsame
                hcounter hpriority
              · rw [hsame, ← hqueue]
                exact hnil
              · refine hle p ?_
                rw [hqueue, ← hsame]
                exact hp

end Loops

/-! ### The outcome of a selection function -/

namespace Sched

variable (alg : SchedAlgorithm) (s : Sched)

/-- The state after the opening of a selection function. -/
def requeued : Sched :=
  let s := s.modify s.currentProcess (Edit.preempt 1).apply
  if s.currentProcess ≠ .initProcess ∧ s.state s.currentProcess = .running then
    s.enqueue alg s.currentProcess
  else s

/-- The actions of that opening. -/
def requeueActions : List Action :=
  .edit s.currentProcess (.preempt 1) ::
    if s.currentProcess ≠ .initProcess ∧ s.state s.currentProcess = .running then [.requeue]
    else []

variable {alg s}

theorem exec_requeued : Exec alg s s.requeueActions (s.requeued alg) := by
  have hstate : (s.modify s.currentProcess (Edit.preempt 1).apply).state s.currentProcess
      = s.state s.currentProcess := state_modify rfl
  refine ⟨rfl, ?_⟩
  simp only [requeued, modify_currentProcess, hstate]
  split
  · next hcond => exact ⟨⟨hcond.1, hstate.trans hcond.2⟩, rfl⟩
  · rfl

/-- After the opening the outgoing process is no longer marked as running. -/
theorem requeued_not_running :
    (s.requeued alg).currentProcess ≠ .initProcess →
      (s.requeued alg).state (s.requeued alg).currentProcess ≠ .running := by
  simp only [requeued]
  split
  · intro _
    rw [state_enqueue, enqueue_currentProcess, if_pos rfl]
    decide
  · next hcond =>
      intro hne hrun
      exact hcond ⟨hne, hrun⟩

theorem requeued_currentProcess : (s.requeued alg).currentProcess = s.currentProcess := by
  simp only [requeued]
  split <;> rfl

end Sched

/-- A call of the selection function from `s`: after the opening, the search `as` leads
to `s₁`, `next` gets the CPU (`none` is the fallback to init), and `k'` is the result. -/
structure Picked (alg : SchedAlgorithm) (s : Sched) (as : List Action) (s₁ : Sched)
    (next : Option PcbPtr) (quantum : Option Int) (k' : Kernel) : Prop where
  exec : Exec alg (s.requeued alg) as s₁
  selects : ∀ a ∈ as, a.Selects
  guard : (Action.dispatch next quantum).Guard alg s₁
  refines : Refines k' (((Action.dispatch next quantum).apply alg s₁).modify
    (next.getD .initProcess) (Edit.preempt (-1)).apply)

section Pick
variable {alg : SchedAlgorithm} {k : Kernel} {s : Sched}

theorem requeueOutgoing_refines (h : Refines k s) (hinv : s.Inv alg)
    {insert : Kernel → PcbPtr → Kernel} (hinsert : insert = alg.enqueue) :
    Refines (k.requeueOutgoing insert) (s.requeued alg) := by
  have h₁ := h.preemptDisable
  have hinv₁ := hinv.edit (p := s.currentProcess) (e := .preempt 1) rfl
  simp only [requeueOutgoing, Sched.requeued, hinsert]
  rw [h₁.currentProcess, Kernel.current, h₁.currentProcess, h₁.state_eq]
  split
  · next hcond =>
      refine h₁.enqueue alg hcond.1 (hinv₁.not_linked ?_) fun q => Nat.le_of_lt
        (hinv₁.length_lt q)
      rw [hcond.2]
      decide
  · exact h₁

theorem inv_requeued (hinv : s.Inv alg) : (s.requeued alg).Inv alg :=
  hinv.exec Sched.exec_requeued

theorem dispatch_refines {k' : Kernel} {s' : Sched} {p : PcbPtr} (h : Refines k' s') :
    Refines (k'.switchToProcess p).preemptEnable
      ((s'.switchTo p).modify p (Edit.preempt (-1)).apply) := by
  have := (h.switchToProcess p).preemptEnable
  rwa [Sched.switchTo_currentProcess] at this

/-- The recharge of the slice, in the algorithms that have one. -/
def Kernel.applyQuantum (k : Kernel) (next : Option PcbPtr) : Option Int → Kernel
  | none => k
  | some c => k.setQuantum next c

/-- The end of a selection function, after a search that emptied the queues or found
somebody. -/
theorem Search.picked {as : List Action} {s₁ : Sched} {k' : Kernel} {next : Option PcbPtr}
    (hs : Search alg (s.requeued alg) as s₁ k' next) (quantum : Option Int)
    (hinv : s.Inv alg) (hempty : next = none → ∀ q, alg.Uses q → s₁.queue q = [])
    (hcounter : ∀ p, next = some p → alg = .priorityAging → 0 < s₁.counter p) :
    Picked alg s as s₁ next quantum ((k'.applyQuantum next quantum).dispatch next) := by
  have hinv₁ := (inv_requeued hinv).exec hs.exec
  have hcur : s₁.currentProcess ≠ .initProcess → s₁.state s₁.currentProcess ≠ .running := by
    rw [hs.selected.currentProcess]
    intro hne hrun
    -- A dropped process is not running, and the others keep their states.
    by_cases hd : (s.requeued alg).currentProcess ∈ drops as
    · rw [(hs.selected.dropped _ hd).2.2] at hrun
      split at hrun <;> exact absurd hrun (by decide)
    · rw [(hs.selected.kept _ hd).1] at hrun
      exact Sched.requeued_not_running hne hrun
  cases next with
  | none =>
      have hk' : Refines (k'.applyQuantum none quantum) s₁ := by
        cases quantum <;> exact hs.nobody rfl
      refine ⟨hs.exec, hs.selects, ⟨fun q => ?_, hcur⟩, dispatch_refines hk'⟩
      by_cases hq : alg.Uses q
      · exact hempty rfl q hq
      · exact List.eq_nil_iff_forall_not_mem.mpr fun p hp => hq (hinv₁.queues.member hp).2.2
  | some p =>
      obtain ⟨hp, hsig, hk'⟩ := hs.found p rfl
      refine ⟨hs.exec, hs.selects, ⟨hp, hsig, hcur, hcounter p rfl⟩, ?_⟩
      cases quantum with
      | none =>
          have : ((s₁.unlink p).modify p fun b => b.withCounter b.counter) = s₁.unlink p := by
            simp only [Sched.modify, PCB.withCounter, Function.update_eq_self]
          refine dispatch_refines ?_
          show Refines k' ((s₁.unlink p).modify p fun b => b.withCounter b.counter)
          rw [this]
          exact hk'
      | some c => exact dispatch_refines (hk'.setCounter p c)

theorem uses_readyQueue (halg : alg.mlPolicy = none) {q : QueueId} (hq : alg.Uses q) :
    q = .readyQueue := by
  cases q with
  | readyQueue => rfl
  | mlQueue level =>
      cases alg with
      | mlq | mlfq => exact nomatch halg
      | _ => exact absurd hq id

theorem uses_mlQueue (halg : alg.mlPolicy ≠ none) {q : QueueId} (hq : alg.Uses q) :
    ∃ level < ML_MAX_LEVELS, q = .mlQueue level := by
  cases alg with
  | mlq | mlfq =>
      cases q with
      | readyQueue => exact absurd hq id
      | mlQueue level => exact ⟨level, hq, rfl⟩
  | _ => exact absurd rfl halg

/-- The processes that the selection function takes out of the queues because a signal
removes them. It opens by putting the outgoing process back. -/
def Kernel.removals (alg : SchedAlgorithm) (k : Kernel) : List PcbPtr :=
  let k := k.requeueOutgoing alg.enqueue
  let removes := fun p => (k.pcb p).signalled
  match alg with
  | .roundRobin | .fcfs | .sjf => (k.linkedIn .readyQueue).takeWhile removes
  | .mlq | .mlfq =>
      ((List.range ML_MAX_LEVELS).flatMap fun q => k.linkedIn (.mlQueue q)).takeWhile removes
  | .priorityAging => (k.linkedIn .readyQueue).filter removes
  | .lottery => k.lotteryRemovals (N_PROCESSES + 1) (k.linkedIn .readyQueue)

/-- The processes in the order in which the algorithm scans them, if it goes from the front
of its queues to the first process that no signal removes. -/
def SchedAlgorithm.scanOrder : SchedAlgorithm → Sched → Option (List PcbPtr)
  | .roundRobin, s | .fcfs, s | .sjf, s => some (s.queue .readyQueue)
  | .mlq, s | .mlfq, s => some (s.cascadeOrder (List.range ML_MAX_LEVELS))
  | .priorityAging, _ | .lottery, _ => none

/-- Such a scan drops the signalled processes in front of the first other one, which it
ends with. -/
def Sched.Scans (alg : SchedAlgorithm) (s : Sched) (as : List Action) (next : Option PcbPtr) :
    Prop :=
  ∀ l, alg.scanOrder s = some l →
    drops as = l.takeWhile s.removed ∧ next = (l.dropWhile s.removed).head?

/-- The opening leaves the queues of the abstract state. -/
theorem requeueOutgoing_reads (h : Refines k s) (hinv : s.Inv alg) :
    (k.requeueOutgoing alg.enqueue).linkedIn = (s.requeued alg).queue
      ∧ (fun p => ((k.requeueOutgoing alg.enqueue).pcb p).signalled) = (s.requeued alg).removed := by
  have h₁ := requeueOutgoing_refines h hinv rfl
  refine ⟨funext fun q => linkedIn_eq h₁.linked q
    (Nat.le_of_lt ((inv_requeued hinv).length_lt q)), funext fun p => ?_⟩
  rw [Sched.removed, h₁.block_eq]
  rfl

/-- The algorithms that take the head of the ready queue. -/
theorem dequeue_picked (h : Refines k s) (hinv : s.Inv alg) (hml : alg.mlPolicy = none)
    (halg : alg ≠ .priorityAging) (quantum : Option Int) :
    ∃ k₁ as s₁ next, dequeueUntilReady alg .readyQueue (N_PROCESSES + 1)
        (k.requeueOutgoing alg.enqueue) = some (k₁, next)
      ∧ Picked alg s as s₁ next quantum ((k₁.applyQuantum next quantum).dispatch next)
      ∧ drops as = ((s.requeued alg).queue .readyQueue).takeWhile (s.requeued alg).removed
      ∧ next = (((s.requeued alg).queue .readyQueue).dropWhile (s.requeued alg).removed).head? := by
  have hinv₁ := inv_requeued hinv
  obtain ⟨k₁, as, s₁, hrun, hsearch, hdrops, hqueue⟩ := dequeueUntilReady_search
    (requeueOutgoing_refines h hinv rfl) hinv₁ (Nat.lt_succ_of_lt (hinv₁.length_lt _))
  refine ⟨k₁, as, s₁, _, hrun, hsearch.picked quantum hinv (fun hnone q hq => ?_)
    (fun _ _ hal => absurd hal halg), hdrops, rfl⟩
  rw [uses_readyQueue hml hq, hqueue]
  exact List.head?_eq_none_iff.mp hnone

/-- The cascade of the multilevel algorithms. -/
theorem cascade_picked (h : Refines k s) (hinv : s.Inv alg) (policy : MultilevelPolicy)
    (hml : alg.mlPolicy = some policy) (hlevels : policy.nLevels = ML_MAX_LEVELS) :
    ∃ k' as s₁ next quantum, scheduleMultilevel alg k = some k'
      ∧ Picked alg s as s₁ next quantum k'
      ∧ drops as = ((s.requeued alg).cascadeOrder (List.range ML_MAX_LEVELS)).takeWhile
          (s.requeued alg).removed
      ∧ next = (((s.requeued alg).cascadeOrder (List.range ML_MAX_LEVELS)).dropWhile
          (s.requeued alg).removed).head? := by
  have hinsert : (fun k p => Kernel.enqueueMultilevel k p) = alg.enqueue := by
    cases alg <;> first | rfl | exact nomatch hml
  obtain ⟨k₁, as, s₁, found, hrun, hsearch, hfound, hdrops, hempty, -⟩ := cascade_search
    (requeueOutgoing_refines h hinv hinsert) (inv_requeued hinv)
    (List.nodup_range (n := ML_MAX_LEVELS))
  have hpicked := hsearch.picked (found.map fun x => policy.quantum x.2) hinv
    (fun hnone q hq => by
      obtain ⟨level, hlevel, rfl⟩ := uses_mlQueue (by rw [hml]; simp) hq
      exact hempty (Option.map_eq_none_iff.mp hnone) level (List.mem_range.mpr hlevel))
    (fun _ _ hal => by rw [hal] at hml; exact nomatch hml)
  simp only [scheduleMultilevel, hml, Option.bind_eq_bind, Option.bind_some, hlevels, hrun]
  cases found with
  | none => exact ⟨_, as, s₁, _, _, rfl, hpicked, hdrops, hfound⟩
  | some found => exact ⟨_, as, s₁, _, _, rfl, hpicked, hdrops, hfound⟩

/-- `agingFuel` is enough for every queued counter. -/
theorem agingFuel_rounds (h : Refines k s)
    (hlinked : k.linkedIn .readyQueue = s.queue .readyQueue) :
    ∀ p ∈ s.queue .readyQueue, epochRounds (s.counter p) ≤ k.agingFuel := by
  intro p hp
  have hcounter : s.counter p = (k.pcb p).counter := by
    rw [Sched.counter, h.block_eq]
    rfl
  have hmem : (s.counter p).natAbs
      ∈ (k.linkedIn .readyQueue).map fun p => (k.pcb p).counter.natAbs := by
    rw [hlinked]
    exact List.mem_map.mpr ⟨p, hp, by rw [hcounter]⟩
  have hle := List.single_le_sum (fun _ _ => Nat.zero_le _) _ hmem
  unfold epochRounds agingFuel
  split <;> omega

/-- Every selection function ends, and with a dispatch. -/
theorem pickNext_outcome (h : Refines k s) (hinv : s.Inv alg) :
    ∃ k' as s₁ next quantum, alg.pickNext k = some k' ∧ Picked alg s as s₁ next quantum k'
      ∧ drops as = k.removals alg ∧ (s.requeued alg).Scans alg as next := by
  have hinv₁ := inv_requeued hinv
  obtain ⟨hlinkedIn, hremoved⟩ := requeueOutgoing_reads h hinv
  unfold Kernel.removals
  dsimp only
  rw [hlinkedIn, hremoved]
  cases alg with
  | roundRobin =>
      obtain ⟨k₁, as, s₁, next, hrun, hpicked, hdrops, hnext⟩ := dequeue_picked h hinv rfl
        (by simp) (some 10)
      refine ⟨_, as, s₁, next, some 10, ?_, hpicked, hdrops, fun l hl => ?_⟩
      · exact (congrArg (· >>= _) hrun).trans rfl
      · obtain rfl := Option.some.inj hl
        exact ⟨hdrops, hnext⟩
  | fcfs | sjf =>
      obtain ⟨k₁, as, s₁, next, hrun, hpicked, hdrops, hnext⟩ := dequeue_picked h hinv rfl
        (by simp) none
      refine ⟨_, as, s₁, next, none, ?_, hpicked, hdrops, fun l hl => ?_⟩
      · exact (congrArg (· >>= _) hrun).trans rfl
      · obtain rfl := Option.some.inj hl
        exact ⟨hdrops, hnext⟩
  | lottery =>
      obtain ⟨k₁, as, s₁, next, hrun, hsearch, hempty, hdrops⟩ := lotteryLoop_search
        (requeueOutgoing_refines h hinv rfl) hinv₁ (Nat.lt_succ_of_lt (hinv₁.length_lt _))
      have hpicked := hsearch.picked (some 10) hinv
        (fun hnone q hq => by rw [uses_readyQueue rfl hq]; exact hempty hnone)
        (fun _ _ hal => nomatch hal)
      exact ⟨_, as, s₁, next, some 10, (congrArg (· >>= _) hrun).trans rfl, hpicked, hdrops,
        fun l hl => nomatch hl⟩
  | priorityAging =>
      have h₁ := requeueOutgoing_refines h hinv rfl
      have hfuel := agingFuel_rounds h₁ (congrFun hlinkedIn .readyQueue)
      obtain ⟨k₁, as, s₁, next, hrun, hsearch, hdrops, hempty, hcounter, -⟩ :=
        agingLoop_search h₁ hinv₁ hfuel (by unfold agingFuel; omega)
      have hpicked := hsearch.picked none hinv
        (fun hnone q hq => by rw [uses_readyQueue rfl hq]; exact hempty hnone)
        (fun p hp _ => hcounter p hp)
      exact ⟨_, as, s₁, next, none, (congrArg (· >>= _) hrun).trans rfl, hpicked, hdrops,
        fun l hl => nomatch hl⟩
  | mlq =>
      obtain ⟨k', as, s₁, next, quantum, hrun, hpicked, hdrops, hnext⟩ := cascade_picked h hinv
        mlPolicyMlq rfl rfl
      refine ⟨k', as, s₁, next, quantum, hrun, hpicked, hdrops, fun l hl => ?_⟩
      obtain rfl := Option.some.inj hl
      exact ⟨hdrops, hnext⟩
  | mlfq =>
      obtain ⟨k', as, s₁, next, quantum, hrun, hpicked, hdrops, hnext⟩ := cascade_picked h hinv
        mlPolicyMlfq rfl rfl
      refine ⟨k', as, s₁, next, quantum, hrun, hpicked, hdrops, fun l hl => ?_⟩
      obtain rfl := Option.some.inj hl
      exact ⟨hdrops, hnext⟩

end Pick

end DemoOS
