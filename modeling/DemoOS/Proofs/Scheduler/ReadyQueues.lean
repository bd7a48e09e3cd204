import DemoOS.Proofs.Scheduler.Runs

/-!
# `DemoOS.Proofs.Scheduler.ReadyQueues`: the ready queues in every reachable state

`reachable_queuesSound` says of the intrusive lists what the rest of the scheduler takes
for granted: they are well formed, no process is in two of them, and they hold the ready
processes and nobody else.
-/

set_option autoImplicit false

namespace DemoOS

open Support

/-- The ready queues are well formed and agree with the process states. -/
structure Kernel.QueuesSound (k : Kernel) : Prop where
  /-- From `head`, `next_ready` leads through the nodes of `linkedIn` to a null pointer. -/
  walk : ∀ q, k.walk N_PROCESSES (k.queues q).head = some (k.linkedIn q)
  nodup : ∀ q, (k.linkedIn q).Nodup
  tail : ∀ q, (k.queues q).tail = (k.linkedIn q).getLast?
  empty : ∀ q, (k.queues q).head = none ↔ (k.queues q).tail = none
  disjoint : ∀ {q q' p}, p ∈ k.linkedIn q → p ∈ k.linkedIn q' → q = q'
  process : ∀ {q p}, p ∈ k.linkedIn q → k.IsProcess p
  ready : ∀ {p}, k.IsProcess p → p ≠ .initProcess →
    ((∃ q, p ∈ k.linkedIn q) ↔ (k.pcb p).state = .ready)
  init : ∀ q, .initProcess ∉ k.linkedIn q
  running : ∀ {p}, k.IsProcess p → (k.pcb p).state = .running → p = k.currentProcess

section Abstraction
variable {alg : SchedAlgorithm} {k : Kernel} {s : Sched} {p : PcbPtr}

/-- The table is the abstract one. -/
theorem Refines.isProcess_iff (h : Refines k s) : k.IsProcess p ↔ s.Registered p := by
  unfold Kernel.IsProcess Sched.Registered
  rw [h.processes]

/-- The pointers hold the lists. -/
theorem Refines.linkedIn_eq (h : Refines k s) (hinv : s.Inv alg) (q : QueueId) :
    k.linkedIn q = s.queue q :=
  Kernel.linkedIn_eq h.linked q (Nat.le_of_lt (hinv.length_lt q))

theorem queuesSound (h : Refines k s) (hinv : s.Inv alg) : k.QueuesSound := by
  have hlinked := h.linkedIn_eq hinv
  have hqueue := fun q => h.linked.queue q
  exact {
    walk := fun q => by
      rw [hlinked]
      exact Kernel.walk_head h.linked q (Nat.le_of_lt (hinv.length_lt q))
    nodup := fun q => by rw [hlinked]; exact hinv.queues.nodup q
    tail := fun q => by rw [hlinked]; exact (hqueue q).tail_eq
    empty := fun q => (hqueue q).head_eq_none_iff.trans (hqueue q).tail_eq_none_iff.symm
    disjoint := fun hp hp' => by
      rw [hlinked] at hp hp'
      exact hinv.queues.disjoint hp hp'
    process := fun hp => by
      rw [hlinked] at hp
      exact h.isProcess_iff.mpr (hinv.queues.member hp).1
    ready := fun {p} hp hne => by
      rw [h.state_eq, hinv.queues.linked (h.isProcess_iff.mp hp) hne]
      simp only [hlinked]
      rfl
    init := fun q hp => by
      rw [hlinked] at hp
      exact (hinv.queues.member hp).2.1 rfl
    running := fun {p} hp hst => by
      rw [h.state_eq] at hst
      rw [h.currentProcess]
      exact hinv.cpu.running (h.isProcess_iff.mp hp) hst }

end Abstraction

/-- Under each of the seven algorithms, the ready queues are sound after every step of
every run. -/
theorem reachable_queuesSound {alg : SchedAlgorithm} {k : Kernel}
    (hk : Kernel.Reachable alg k) : k.QueuesSound := by
  obtain ⟨s, hs⟩ := reachable_settled hk
  exact queuesSound hs.refines hs.inv

/-- A run with a fork, a blocked receiver and a wake-up. -/
theorem reachable_queuesSound_mlfq :
    ∃ k, (Kernel.boot fun _ => 0).run .mlfq
        [.kernelMain (some 0), .timerTick, .moveToUserMode .empty .zeroed, .fork (some 1) .empty,
          .receiveMessage, .sendMessage 1 [104, 105], .timerTick] = some k
      ∧ k.linkedIn (.mlQueue 0) = [.page 0] ∧ k.QueuesSound := by
  have hrun : ((Kernel.boot fun _ => 0).run .mlfq
      [.kernelMain (some 0), .timerTick, .moveToUserMode .empty .zeroed, .fork (some 1) .empty,
        .receiveMessage, .sendMessage 1 [104, 105], .timerTick]).map
        (fun k => k.linkedIn (.mlQueue 0)) = some [.page 0] := by decide +kernel
  obtain ⟨k, hk, hlinked⟩ := Option.map_eq_some_iff.mp hrun
  exact ⟨k, hk, hlinked, reachable_queuesSound (reachable_run (.boot _) hk)⟩

end DemoOS
