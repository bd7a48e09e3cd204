import DemoOS.Proofs.Scheduler.Levels
import DemoOS.Proofs.Scheduler.ReadyQueues
import DemoOS.Proofs.Preemption.QueueInterrupts

/-!
# `DemoOS.Proofs.Scheduler.BoostTick`: the tick on which the boost is due

`_multilevel_on_tick` moves the processes of the lower queues behind those of the first one,
takes all levels to 0, and then demotes the current process if its time slice is over. So after
`boost_tick` all processes but that one are at level 0 (`boosted_then_demoted` is such a tick),
and the first queue is the concatenation of the former queues.
-/

set_option autoImplicit false

namespace DemoOS

open Kernel Support

section Boost
variable {k k' : Kernel} {Q : QueueId → List PcbPtr}

/-- A boost that is due appends the lower queues to the first one, in order. -/
theorem boost_concatenates (hk : k.Linked Q) (hinit : ∀ q, .initProcess ∉ Q q)
    (hlen : ∀ q, (Q q).length ≤ N_PROCESSES) (hdue : k.BoostDue mlPolicyMlfq) :
    ∃ k' Q', k.boost mlPolicyMlfq = some k' ∧ k'.Linked Q'
      ∧ (∀ q, 0 < q → q < mlPolicyMlfq.nLevels → Q' (.mlQueue q) = [])
      ∧ Q' (.mlQueue 0) = (List.range mlPolicyMlfq.nLevels).flatMap fun q => Q (.mlQueue q) := by
  have hlevels : ∀ q, q ∈ List.range' 1 (mlPolicyMlfq.nLevels - 1)
      ↔ 0 < q ∧ q < mlPolicyMlfq.nLevels := by
    intro q
    rw [List.mem_range'_1]
    show 1 ≤ q ∧ q < 1 + 4 ↔ 0 < q ∧ q < 5
    omega
  have hcounted : ({ k with mlTicksSinceBoost := k.mlTicksSinceBoost + 1 } : Kernel).Linked Q :=
    hk.congr rfl rfl
  have hfuel : ∀ q ∈ List.range' 1 (mlPolicyMlfq.nLevels - 1),
      (Q (.mlQueue q)).length < N_PROCESSES + 1 := fun q _ =>
    Nat.lt_succ_of_le (hlen (.mlQueue q))
  obtain ⟨k₁, Q₁, moved, hk₁, hh, hempty, hmoved, -, hconcat, -⟩ := boostQueues_handled
    (List.range' 1 (mlPolicyMlfq.nLevels - 1)) (fun q hq => by have := (hlevels q).mp hq; omega)
    hcounted hinit hfuel
  have hlinked : Kernel.Linked { k₁ with
      queueLevel := fun i => if i < N_PROCESSES then 0 else k₁.queueLevel i
      mlTicksSinceBoost := 0 } Q₁ := hh.linked.congr rfl rfl
  refine ⟨_, Q₁, ?_, hlinked, fun q h0 hq => ?_, ?_⟩
  · have hdue : k.mlTicksSinceBoost + 1 ≥ mlPolicyMlfq.boostPeriod := hdue
    unfold Kernel.boost
    dsimp only
    rw [if_pos hdue, hk₁]
    rfl
  · exact hempty q (by omega) (Or.inl ((hlevels q).mpr ⟨h0, hq⟩))
  · rw [hmoved, hconcat (List.nodup_range' 1)]
    rfl

end Boost

/-- The processes of all levels, level by level, are distinct. -/
theorem Sched.Inv.levels_nodup {alg : SchedAlgorithm} {s : Sched} (hinv : s.Inv alg) (n : Nat) :
    ((List.range n).flatMap fun q => s.queue (.mlQueue q)).Nodup := by
  refine List.nodup_flatMap.mpr ⟨fun q _ => hinv.queues.nodup (.mlQueue q), ?_⟩
  refine List.nodup_range.imp fun {q q'} hne p hp hp' => hne ?_
  exact QueueId.mlQueue.inj (hinv.queues.disjoint hp hp')

/-- The demotion moves nobody. -/
theorem demote_linked {k : Kernel} {Q : QueueId → List PcbPtr} {policy : MultilevelPolicy}
    (hk : k.Linked Q) : (k.demote policy).Linked Q := by
  unfold demote
  dsimp only
  split
  · exact hk.congr rfl rfl
  · exact hk

/-- On a tick on which the boost is due, the callback of the multilevel algorithms empties the
lower queues into the first one, behind each other, and takes every process to level 0. If the
tick also ends the time slice of the current process, this one goes on to level 1. -/
theorem boost_tick {k : Kernel} (hk : Reachable .mlfq k) (hdue : k.BoostDue mlPolicyMlfq) :
    ∃ k', SchedAlgorithm.mlfq.onTick
        ((k.setCounter k.currentProcess (k.current.counter - 1)).modifyCurrent
          fun b => { b with burstTicks := b.burstTicks + 1 }) = some k'
      ∧ k'.processes = k.processes
      ∧ (∀ i < N_PROCESSES, ∀ p, k'.processes i = some p →
        k'.queueLevel (k'.pcb p).pid = if k.Expires ∧ p = k.currentProcess then 1 else 0)
      ∧ (∀ q, 0 < q → q < mlPolicyMlfq.nLevels → k'.queues (.mlQueue q) = QUEUE_INIT)
      ∧ k'.linkedIn (.mlQueue 0)
        = (List.range mlPolicyMlfq.nLevels).flatMap (fun q => k.linkedIn (.mlQueue q))
      ∧ (k'.linkedIn (.mlQueue 0)).Nodup := by
  obtain ⟨s, hs⟩ := reachable_settled hk
  rw [charge_eq]
  have hcharged : Refines (k.modifyCurrent Edit.charge.apply)
      (s.modify s.currentProcess Edit.charge.apply) :=
    hs.refines.modifyCurrent (fun _ => rfl) fun _ => rfl
  have hinit : ∀ q, .initProcess ∉ s.queue q := fun q hq => (hs.inv.queues.member hq).2.1 rfl
  obtain ⟨k₁, Q', hk₁, hlinked, hempty, htop⟩ := boost_concatenates hcharged.linked hinit
    (fun q => Nat.le_of_lt (hs.inv.length_lt q)) (show Kernel.BoostDue _ _ from hdue)
  have honTick : SchedAlgorithm.mlfq.onTick (k.modifyCurrent Edit.charge.apply)
      = some (demote mlPolicyMlfq k₁) := by
    show (do let k ← boost mlPolicyMlfq _; return demote mlPolicyMlfq k) = _
    rw [hk₁]
    rfl
  have hlinked' : (demote mlPolicyMlfq k₁).Linked Q' := demote_linked hlinked
  have hnodup := hs.inv.levels_nodup mlPolicyMlfq.nLevels
  have hlen : (Q' (.mlQueue 0)).length < N_PROCESSES := by
    rw [htop]
    refine hs.inv.table.length_le hnodup fun p hp => ?_
    obtain ⟨q, -, hq⟩ := List.mem_flatMap.mp hp
    exact ⟨(hs.inv.queues.member hq).1, (hs.inv.queues.member hq).2.1⟩
  have hfirst := linkedIn_eq hlinked' (.mlQueue 0) (Nat.le_of_lt hlen)
  have hformer : (fun q => k.linkedIn (.mlQueue q)) = fun q => s.queue (.mlQueue q) := by
    funext q
    rw [hs.refines.linkedIn_eq hs.inv]
  have hsame := Scheduled.onTick honTick
  have hprocesses : (demote mlPolicyMlfq k₁).processes = k.processes := hsame.processes
  have hpid : ∀ p, ((demote mlPolicyMlfq k₁).pcb p).pid = (s.block p).pid := fun p => by
    have hfixed : ((demote mlPolicyMlfq k₁).pcb p).pid
        = ((k.modifyCurrent Edit.charge.apply).pcb p).pid :=
      congrArg (fun b => b.pid) (hsame.block p).fixed
    rw [hfixed, hs.refines.block_eq]
    show ((k.modifyPcb k.currentProcess Edit.charge.apply).pcb p).pid = (k.pcb p).pid
    rw [modifyPcb_pcb]
    split
    · next he => rw [he]; rfl
    · rfl
  refine ⟨demote mlPolicyMlfq k₁, honTick, hprocesses, fun i hi p hp => ?_, fun q h0 hq => ?_,
    ?_, ?_⟩
  · rw [hprocesses, hs.refines.processes] at hp
    have hreg : s.Registered p := ⟨i, hi, hp⟩
    have hslot : (s.block p).pid = i := (hs.inv.table.slot hp).2
    have hbound : k.queueLevel i < ML_MAX_LEVELS := hs.refines.queueLevel ▸ hs.inv.queues.level i
    -- Distinct processes have distinct pids.
    have hcurrent : i = k.current.pid ↔ p = k.currentProcess := by
      have hcur : k.current.pid = (s.block s.currentProcess).pid := by
        rw [hs.refines.block_eq, ← hs.refines.currentProcess]
        rfl
      rw [hcur, ← hslot, hs.refines.currentProcess]
      exact ⟨hs.inv.table.pid_injective hreg hs.inv.cpu.current, fun he => by rw [he]⟩
    rw [hpid, hslot, onTick_levels honTick hi hbound, if_pos hdue]
    simp only [hcurrent]
    rfl
  · have hqueue := hlinked'.queue (.mlQueue q)
    rw [hempty q h0 hq] at hqueue
    have hhead := hqueue.head_eq
    have htail := hqueue.tail_eq
    exact congrArg₂ ProcessQueue.mk hhead htail
  · rw [hfirst, htop, hformer]
    rfl
  · rw [hfirst, htop]
    exact hnodup

/-- The 300th tick of a run with one process. -/
theorem boost_tick_first :
    ∃ k k', (Kernel.boot fun _ => 0).run .mlfq
        (Trap.kernelMain (some 0) :: List.replicate 299 Trap.timerTick) = some k
      ∧ SchedAlgorithm.mlfq.onTick
        ((k.setCounter k.currentProcess (k.current.counter - 1)).modifyCurrent
          fun b => { b with burstTicks := b.burstTicks + 1 }) = some k'
      ∧ (∀ q, 0 < q → q < mlPolicyMlfq.nLevels → k'.queues (.mlQueue q) = QUEUE_INIT)
      ∧ k'.linkedIn (.mlQueue 0)
        = (List.range mlPolicyMlfq.nLevels).flatMap (fun q => k.linkedIn (.mlQueue q)) := by
  have hrun : ((Kernel.boot fun _ => 0).run .mlfq
      (Trap.kernelMain (some 0) :: List.replicate 299 Trap.timerTick)).map
        (fun k => decide (k.BoostDue mlPolicyMlfq)) = some true := by
    decide +kernel
  obtain ⟨k, hk, hdue⟩ := Option.map_eq_some_iff.mp hrun
  obtain ⟨k', htick, -, -, hempty, htop, -⟩ :=
    boost_tick (reachable_run (.boot _) hk) (of_decide_eq_true hdue)
  exact ⟨k, k', hk, htick, hempty, htop⟩

/-- The boost and the end of a time slice on one tick: the process is not at level 0 behind
it. -/
theorem boosted_then_demoted :
    ∃ k k', Reachable .mlfq k ∧ k.BoostDue mlPolicyMlfq
      ∧ SchedAlgorithm.mlfq.onTick
        ((k.setCounter k.currentProcess (k.current.counter - 1)).modifyCurrent
          fun b => { b with burstTicks := b.burstTicks + 1 }) = some k'
      ∧ k'.processes 1 = some (.page 0) ∧ k'.queueLevel (k'.pcb (.page 0)).pid = 1 := by
  have hrun : ((Kernel.boot fun _ => 0).run .mlfq
      ([Trap.kernelMain (some 0), .timerTick, .moveToUserMode .empty .zeroed, .timerTick, .yield]
        ++ List.replicate 297 Trap.timerTick)).bind (fun k =>
      (SchedAlgorithm.mlfq.onTick
        ((k.setCounter k.currentProcess (k.current.counter - 1)).modifyCurrent
          fun b => { b with burstTicks := b.burstTicks + 1 })).map fun k' =>
        (decide (k.BoostDue mlPolicyMlfq), k'.processes 1,
          k'.queueLevel (k'.pcb (.page 0)).pid)) = some (true, some (.page 0), 1) := by
    decide +kernel
  obtain ⟨k, hk, hrun⟩ := Option.bind_eq_some_iff.mp hrun
  obtain ⟨k', htick, hfinal⟩ := Option.map_eq_some_iff.mp hrun
  simp only [Prod.mk.injEq, decide_eq_true_eq] at hfinal
  exact ⟨k, k', reachable_run (.boot _) hk, hfinal.1, htick, hfinal.2.1, hfinal.2.2⟩

end DemoOS
