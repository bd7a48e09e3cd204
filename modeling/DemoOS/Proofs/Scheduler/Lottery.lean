import DemoOS.Support.WeightedDraw
import DemoOS.Kernel.Run
import DemoOS.Proofs.Scheduler.Selection

/-!
# `DemoOS.Proofs.Scheduler.Lottery`: the draw of `_schedule_lottery` is proportional

`lotteryRound` is the body of the `while` loop of `_schedule_lottery` for one drawn ticket, and
`Redraws` are the states in which that loop starts another round because the winner was killed
or stopped. The queue is any well-formed one, of any length and with any tickets
(`HoldsReady`).

The winner walk is the reference recursion `WeightedDraw.holder` (`drawWinner_holder`), whose
lemmas give the number of winning tickets of each process. `ProportionalDraw` collects what
holds of one draw, and `lottery_proportional` says that it holds of the first draw and of
every redraw, on what is left of the queue.
-/

set_option autoImplicit false

namespace DemoOS

open Kernel Support

namespace Kernel

/-- The first loop of a round of `_schedule_lottery`: the tickets in the queue. -/
def ticketSum (fuel : Nat) (k : Kernel) : Option Int :=
  (k.walk fuel (k.queues .readyQueue).head).map fun nodes =>
    nodes.foldl (fun total p => total + k.effectiveTickets p) 0

/-- The rest of the round, once the ticket `winner` is drawn: the winner is searched, taken out
of the queue and shown its signals. -/
def lotteryRound (alg : SchedAlgorithm) (fuel : Nat) (k : Kernel) (winner : Int) :
    Option (Kernel × PcbPtr) := do
  let nodes ← k.walk fuel (k.queues .readyQueue).head
  let (previous, candidate) ← k.drawWinner winner nodes none 0
  let k := k.removeProcessFrom .readyQueue previous candidate
  some (k.handleProcessSignals alg candidate, candidate)

/-- The draw changes nothing that a walk reads. -/
theorem walk_lotteryRandom (k : Kernel) (fuel : Nat) (h : Option PcbPtr) :
    k.lotteryRandom.1.walk fuel h = k.walk fuel h := by
  induction fuel generalizing h with
  | zero => cases h <;> rfl
  | succ fuel ih =>
      cases h with
      | none => rfl
      | some p =>
          simp only [walk]
          rw [ih]
          rfl

/-- The `while (next_process == NULL)` is made of these rounds. -/
theorem lotteryLoop_succ (alg : SchedAlgorithm) (fuel : Nat) (k : Kernel) :
    lotteryLoop alg (fuel + 1) k = (do
      let total ← k.ticketSum N_PROCESSES
      if total = 0 then some (k, none)
      else
        let (k₂, candidate) ← k.lotteryRandom.1.lotteryRound alg N_PROCESSES
          (k.lotteryRandom.2.toNat % total.toNat)
        if (k₂.pcb candidate).state = .ready then some (k₂, some candidate)
        else lotteryLoop alg fuel k₂) := by
  have hwalk : k.lotteryRandom.1.walk N_PROCESSES (k.lotteryRandom.1.queues .readyQueue).head
      = k.walk N_PROCESSES (k.queues .readyQueue).head := walk_lotteryRandom k _ _
  rw [lotteryLoop]
  simp only [ticketSum, lotteryRound, hwalk]
  cases k.walk N_PROCESSES (k.queues .readyQueue).head with
  | none => rfl
  | some nodes =>
      simp only [Option.bind_eq_bind, Option.bind_some, Option.map_some]
      split
      · rfl
      · rw [Option.bind_assoc]
        rfl

/-- The ready queue is well formed and holds the list: its pointers lead through the list and
end at its last member, nobody is in it twice, and everybody in it is ready. -/
structure HoldsReady (k : Kernel) (l : List PcbPtr) : Prop where
  queue : IsQueue k.next (k.queues .readyQueue).head (k.queues .readyQueue).tail l
  ready : ∀ p ∈ l, (k.pcb p).state = .ready

/-- The states in which the loop of `_schedule_lottery` draws again, from the first round in
`k` on, with the winners that their signals have removed before. Any ticket may be drawn. -/
inductive Redraws (alg : SchedAlgorithm) (fuel : Nat) (k : Kernel) : List PcbPtr → Kernel → Prop
  | first : Redraws alg fuel k [] k
  | redraw {k₁ k₂ : Kernel} {gone : List PcbPtr} {total winner : Int} {p : PcbPtr} :
      Redraws alg fuel k gone k₁ → k₁.ticketSum fuel = some total → 0 ≤ winner →
      winner < total → k₁.lotteryRandom.1.lotteryRound alg fuel winner = some (k₂, p) →
      (k₂.pcb p).state ≠ .ready → Redraws alg fuel k (gone ++ [p]) k₂

/-- A draw from the queue that holds `l`. -/
structure ProportionalDraw (fuel : Nat) (k : Kernel) (l : List PcbPtr) : Prop where
  /-- The first loop visits the queue and sums up all tickets. -/
  total : k.walk fuel (k.queues .readyQueue).head = some l
    ∧ k.ticketSum fuel = some (k.totalTickets l)
  /-- Neither loop holds a sum that does not fit into a `long`. -/
  fits : ∀ u v, l = u ++ v → 0 ≤ k.totalTickets u ∧ k.totalTickets u < 2 ^ 63
  /-- The walk stops on a linked process, and cutting it out with the predecessor that the walk
  found leaves the others in their order. -/
  stops : ∀ winner : Int, 0 ≤ winner → winner < k.totalTickets l →
    ∃ u p v, l = u ++ p :: v ∧ k.drawWinner winner l none 0 = some (u.getLast?, p)
      ∧ (k.removeProcessFrom .readyQueue u.getLast? p).HoldsReady (u ++ v)
  /-- A process wins with as many tickets as it holds. -/
  share : ∀ p ∈ l,
    (Nat.count (fun n => (k.drawWinner n l none 0).map Prod.snd = some p)
      (k.totalTickets l).toNat : Int) = k.effectiveTickets p

end Kernel

section Draw
variable {k : Kernel} {l : List PcbPtr} {p : PcbPtr}

/-- The tickets as a natural number. -/
def Kernel.ticketCount (k : Kernel) (p : PcbPtr) : Nat := (k.effectiveTickets p).toNat

theorem ticketCount_eq (k : Kernel) (p : PcbPtr) : (k.ticketCount p : Int) = k.effectiveTickets p :=
  Int.toNat_of_nonneg (Int.le_of_lt (effectiveTickets_pos k p))

theorem total_ticketCount (k : Kernel) (l : List PcbPtr) :
    (WeightedDraw.total k.ticketCount l : Int) = k.totalTickets l := by
  induction l with
  | nil => rfl
  | cons p l ih =>
      have htotal : k.totalTickets (p :: l) = k.effectiveTickets p + k.totalTickets l := by
        simp [totalTickets]
      rw [WeightedDraw.total_cons, Int.natCast_add, ticketCount_eq, ih, htotal]

/-- The winner walk finds the holder of the ticket. -/
theorem drawWinner_holder (k : Kernel) {winner c : Int} (hc : c ≤ winner) (l : List PcbPtr)
    (previous : Option PcbPtr) :
    (k.drawWinner winner l previous c).map Prod.snd
      = WeightedDraw.holder k.ticketCount l (winner - c).toNat := by
  induction l generalizing c previous with
  | nil => rfl
  | cons p l ih =>
      have hp := ticketCount_eq k p
      rw [drawWinner, WeightedDraw.holder]
      by_cases hwins : c + k.effectiveTickets p > winner
      · have hlt : (winner - c).toNat < k.ticketCount p := by omega
        rw [if_pos hwins, if_pos hlt]
        rfl
      · have hge : ¬ (winner - c).toNat < k.ticketCount p := by omega
        have hnext : (winner - c).toNat - k.ticketCount p
            = (winner - (c + k.effectiveTickets p)).toNat := by omega
        rw [if_neg hwins, if_neg hge, hnext]
        exact ih (by omega) (some p)

/-- The tickets of a part of the queue. -/
theorem totalTickets_append (k : Kernel) (u v : List PcbPtr) :
    k.totalTickets (u ++ v) = k.totalTickets u + k.totalTickets v := by
  simp [totalTickets]

/-- One draw from a well-formed queue. -/
theorem proportionalDraw_of_holdsReady {fuel : Nat} (hl : k.HoldsReady l) (hfuel : l.length ≤ fuel)
    (hfit : k.totalTickets l < 2 ^ 63) : k.ProportionalDraw fuel l where
  total := by
    have hwalk := walk_eq hl.queue.walk hfuel
    refine ⟨hwalk, ?_⟩
    rw [ticketSum, hwalk, Option.map_some, foldl_tickets, Int.zero_add]
  fits u v huv := by
    have hsum := totalTickets_append k u v
    have hv := totalTickets_nonneg k v
    rw [← huv] at hsum
    exact ⟨totalTickets_nonneg k u, by omega⟩
  stops winner hnonneg hlt := by
    obtain ⟨u, p, v, huv, hdraw⟩ := drawWinner_eq k (w := []) (l := l) hnonneg (by simpa using hlt)
    refine ⟨u, p, v, huv, hdraw, ?_, ?_⟩
    · have hqueue := hl.queue
      rw [huv] at hqueue
      exact removeProcessFrom_isQueue hqueue
    · intro r hr
      have hrl : r ∈ l := by
        rw [huv]
        exact List.mem_append.mpr ((List.mem_append.mp hr).imp_right (List.mem_cons_of_mem p))
      have hview := congrFun (removeProcessFrom_view (k := k) (q := .readyQueue) (p := p)
        u.getLast?) r
      have hstate := congrArg PCB.state hview
      exact hstate.trans (hl.ready r hrl)
  share p hp := by
    have htotal : (k.totalTickets l).toNat = WeightedDraw.total k.ticketCount l := by
      have := total_ticketCount k l
      omega
    have hholder : ∀ n : Nat, (k.drawWinner n l none 0).map Prod.snd
        = WeightedDraw.holder k.ticketCount l n := fun n => by
      rw [drawWinner_holder k (Int.natCast_nonneg n), Int.sub_zero, Int.toNat_natCast]
    simp only [hholder, htotal]
    rw [WeightedDraw.count_holder, List.count_eq_one_of_mem hl.queue.nodup hp, Nat.one_mul,
      ticketCount_eq]

end Draw

section Redraw
variable {alg : SchedAlgorithm} {fuel : Nat} {k k₁ k₂ : Kernel} {l : List PcbPtr} {p : PcbPtr}

/-- A round of the loop takes its winner out of the queue and leaves the tickets. -/
theorem holdsReady_lotteryRound (hl : k.HoldsReady l) (hfuel : l.length ≤ fuel) {winner : Int}
    (hnonneg : 0 ≤ winner) (hlt : winner < k.totalTickets l)
    (h : k.lotteryRound alg fuel winner = some (k₁, p)) :
    k₁.HoldsReady (l.filter (· ≠ p)) ∧ ∀ r, k₁.effectiveTickets r = k.effectiveTickets r := by
  have hwalk := walk_eq hl.queue.walk hfuel
  obtain ⟨u, c, v, huv, hdraw⟩ := drawWinner_eq k (w := []) (l := l) hnonneg (by simpa using hlt)
  rw [List.nil_append, List.getLast?_nil] at hdraw
  simp only [lotteryRound, hwalk, Option.bind_eq_bind, Option.bind_some, hdraw] at h
  obtain ⟨hk₁, rfl⟩ := Prod.mk.inj (Option.some.inj h)
  -- The list without the winner, and the block of the winner when it is taken out.
  have hqueue := hl.queue
  rw [huv] at hqueue
  have hrest : l.filter (· ≠ c) = u ++ v := by
    rw [huv]
    exact filter_ne_append_cons hqueue.nodup
  have hview := removeProcessFrom_view (k := k) (q := .readyQueue) (p := c) u.getLast?
  have hready : ∀ r ∈ l, ((k.removeProcessFrom .readyQueue u.getLast? c).pcb r).state = .ready := by
    intro r hr
    have hstate := congrArg PCB.state (congrFun hview r)
    exact hstate.trans (hl.ready r hr)
  have hc : c ∈ l := by rw [huv]; simp
  rw [handleProcessSignals_eq alg (by rw [hready c hc]; decide)] at hk₁
  subst hk₁
  rw [hrest]
  refine ⟨⟨?_, fun r hr => ?_⟩, fun r => ?_⟩
  · have hnext : ((k.removeProcessFrom .readyQueue u.getLast? c).modifyPcb c PCB.handled).next
        = (k.removeProcessFrom .readyQueue u.getLast? c).next :=
      next_modifyPcb PCB.handled_nextReady
    have hcut := removeProcessFrom_isQueue hqueue
    rw [← hnext] at hcut
    exact hcut
  · have hrl : r ∈ l.filter (· ≠ c) := by rwa [hrest]
    obtain ⟨hrl, hrc⟩ := List.mem_filter.mp hrl
    have hblock := modifyPcb_pcb_of_ne (k.removeProcessFrom .readyQueue u.getLast? c) PCB.handled
      (show r ≠ c by simpa using hrc)
    exact (congrArg PCB.state hblock).trans (hready r hrl)
  · have hremoved := congrArg PCB.tickets (congrFun hview r)
    have htickets : (((k.removeProcessFrom .readyQueue u.getLast? c).modifyPcb c
        PCB.handled).pcb r).tickets = (k.pcb r).tickets := by
      rw [modifyPcb_pcb]
      split
      · next hrc =>
          rw [PCB.handled_field PCB.tickets (fun _ _ _ => rfl)]
          subst hrc
          exact hremoved
      · exact hremoved
    simp only [effectiveTickets, htickets]

/-- The states of the redraws hold what is left of the queue, with the same tickets. -/
theorem Kernel.Redraws.holdsReady {gone : List PcbPtr} (h : Redraws alg fuel k gone k₁)
    (hl : k.HoldsReady l) (hfuel : l.length ≤ fuel) :
    k₁.HoldsReady (l.filter (· ∉ gone)) ∧ ∀ r, k₁.effectiveTickets r = k.effectiveTickets r := by
  induction h with
  | first => exact ⟨by simpa using hl, fun _ => rfl⟩
  | @redraw k₁ k₂ gone total winner p _ hsum hnonneg hlt hround _ ih =>
      obtain ⟨hl₁, htickets₁⟩ := ih
      have hfuel₁ : (l.filter (· ∉ gone)).length ≤ fuel :=
        Nat.le_trans (List.length_filter_le _ _) hfuel
      rw [ticketSum, walk_eq hl₁.queue.walk hfuel₁, Option.map_some, foldl_tickets,
        Int.zero_add] at hsum
      rw [← Option.some.inj hsum] at hlt
      have hl₁' : k₁.lotteryRandom.1.HoldsReady (l.filter (· ∉ gone)) := ⟨hl₁.queue, hl₁.ready⟩
      obtain ⟨hl₂, htickets₂⟩ := holdsReady_lotteryRound hl₁' hfuel₁ hnonneg hlt hround
      refine ⟨?_, fun r => (htickets₂ r).trans (htickets₁ r)⟩
      rw [List.filter_filter] at hl₂
      convert hl₂ using 2
      funext r
      simp [Bool.and_comm, not_or]

/-- The first draw of `_schedule_lottery` and every redraw are proportional on what is left of
the queue. -/
theorem lottery_proportional {gone : List PcbPtr} (hl : k.HoldsReady l) (hfuel : l.length ≤ fuel)
    (hfit : k.totalTickets l < 2 ^ 63) (h : Redraws alg fuel k gone k₁) :
    k₁.HoldsReady (l.filter (· ∉ gone)) ∧ k₁.ProportionalDraw fuel (l.filter (· ∉ gone))
      ∧ ∀ p, k₁.effectiveTickets p = k.effectiveTickets p := by
  obtain ⟨hl₁, htickets⟩ := h.holdsReady hl hfuel
  have hfuel₁ := Nat.le_trans (List.length_filter_le (· ∉ gone) l) hfuel
  refine ⟨hl₁, proportionalDraw_of_holdsReady hl₁ hfuel₁ ?_, htickets⟩
  -- A part of the queue holds no more tickets than the queue.
  have hle : ((l.filter (· ∉ gone)).map k.effectiveTickets).sum ≤ (l.map k.effectiveTickets).sum :=
    ((List.filter_sublist (p := (· ∉ gone)) (l := l)).map _).sum_le_sum fun t ht => by
      obtain ⟨p, -, rfl⟩ := List.mem_map.mp ht
      exact Int.le_of_lt (effectiveTickets_pos k p)
  unfold totalTickets at hfit ⊢
  rw [funext htickets]
  omega

end Redraw

/-- A queue of two processes, with 3 tickets and with a count that is taken for 1. The first of
them was killed. -/
def Kernel.lotteryQueue : Kernel :=
  let k := boot fun _ => 0
  let k := k.modifyPcb (.page 1) fun b => { b with tickets := 3, pendingSignals := 2 }
  let k := k.modifyPcb (.page 2) fun b => { b with tickets := -5 }
  (k.enqueueProcessTo .readyQueue (.page 1)).enqueueProcessTo .readyQueue (.page 2)

/-- Ticket 2 wins for the killed process, and the only ticket of the other one is drawn next. -/
theorem lottery_proportional_redraw :
    ∃ k₁, Redraws .lottery N_PROCESSES lotteryQueue [.page 1] k₁
      ∧ k₁.HoldsReady [.page 2] ∧ k₁.ProportionalDraw N_PROCESSES [.page 2] := by
  have hl : lotteryQueue.HoldsReady [.page 1, .page 2] :=
    ⟨⟨⟨rfl, rfl, rfl⟩, rfl, by decide⟩, by decide⟩
  have hround : (lotteryQueue.lotteryRandom.1.lotteryRound .lottery N_PROCESSES 2).map
      (fun x => (x.2, (x.1.pcb x.2).state)) = some (.page 1, .zombie) := by
    decide +kernel
  obtain ⟨⟨k₁, p⟩, hk₁, hp⟩ := Option.map_eq_some_iff.mp hround
  obtain ⟨rfl, hst⟩ := Prod.mk.inj hp
  have hsum : lotteryQueue.ticketSum N_PROCESSES = some 4 := by decide +kernel
  have hredraws : Redraws .lottery N_PROCESSES lotteryQueue [.page 1] k₁ :=
    .redraw .first hsum (by decide) (by decide) hk₁ fun hready => by
      exact nomatch hst.symm.trans hready
  obtain ⟨hrest, hdraw, -⟩ := lottery_proportional hl (by decide) (by decide +kernel) hredraws
  exact ⟨k₁, hredraws, hrest, hdraw⟩

end DemoOS
