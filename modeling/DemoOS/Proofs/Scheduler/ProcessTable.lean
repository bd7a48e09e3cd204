import DemoOS.Kernel.TableScans
import DemoOS.Proofs.Scheduler.Runs
import DemoOS.Proofs.Scheduler.Served

/-!
# `DemoOS.Proofs.Scheduler.ProcessTable`: the table is dense, and which scans of it are safe

In every reachable state slot `i` of `processes[]` holds the process with the pid `i`, for the
first `n_processes` slots and no others. A scan that tests a slot before it dereferences it, or
that stops at `n_processes`, is therefore safe (`scanTable_eq`). The scan of `receive_message`
does neither (`scanTable_none`): it is safe only when all `N_PROCESSES` slots are in use, and it
runs whenever `receive_message` finds a message. `tableSafe_iff` puts this together.
-/

set_option autoImplicit false

namespace DemoOS

open Kernel

section Scans
variable {alg : SchedAlgorithm} {k : Kernel}

/-- A scan without an empty slot to dereference does what it does with all slots tested. -/
theorem scanTable_eq {skipsEmpty : Bool} {body : Kernel → PcbPtr → Kernel}
    (hbody : ∀ k p, (body k p).processes = k.processes) {slots : List Nat}
    (h : ∀ i ∈ slots, skipsEmpty = true ∨ k.processes i ≠ none) :
    k.scanTable skipsEmpty body slots
      = some (slots.foldl
          (fun k i =>
            match k.processes i with
            | none => k
            | some p => body k p) k) := by
  induction slots generalizing k with
  | nil => rfl
  | cons i slots ih =>
      have hslots := fun j hj => h j (List.mem_cons_of_mem i hj)
      rw [scanTable, List.foldlM_cons, List.foldl_cons]
      cases hi : k.processes i with
      | none =>
          have hskips : skipsEmpty = true :=
            (h i List.mem_cons_self).resolve_right fun hne => hne hi
          exact (congrArg (· >>= scanTable skipsEmpty body slots) (if_pos hskips)).trans
            (ih hslots)
      | some p =>
          simp only [Option.bind_eq_bind, Option.bind_some]
          exact ih fun j hj => by
            rw [hbody]
            exact hslots j hj

/-- A scan without the test fails at an empty slot. -/
theorem scanTable_none {body : Kernel → PcbPtr → Kernel}
    (hbody : ∀ k p, (body k p).processes = k.processes) {slots : List Nat} {i : Nat}
    (hi : i ∈ slots) (hempty : k.processes i = none) : k.scanTable false body slots = none := by
  induction slots generalizing k with
  | nil => exact nomatch hi
  | cons j slots ih =>
      rw [scanTable, List.foldlM_cons]
      cases hj : k.processes j with
      | none => rfl
      | some p =>
          have hij : i ≠ j := fun h => by
            rw [h, hj] at hempty
            exact nomatch hempty
          simp only [Option.bind_eq_bind, Option.bind_some]
          exact ih ((List.mem_cons.mp hi).resolve_left hij) (by rw [hbody]; exact hempty)

theorem wakeBody_processes (waits : PCB → Bool) (wake : PCB → PCB) (k : Kernel) (p : PcbPtr) :
    (k.wakeBody alg waits wake p).processes = k.processes := by
  unfold wakeBody
  split
  · exact rest_processes (enqueueProcess_rest alg _ p)
  · rfl

/-- A wake-up loop that meets no empty slot without a test. -/
theorem scanTable_wake {skipsEmpty : Bool} {waits : PCB → Bool} {wake : PCB → PCB}
    {slots : List Nat} (h : ∀ i ∈ slots, skipsEmpty = true ∨ k.processes i ≠ none) :
    k.scanTable skipsEmpty (wakeBody alg waits wake) slots
      = some (k.wakeProcesses alg waits wake slots) :=
  scanTable_eq (wakeBody_processes waits wake) h

/-! ### The scans that test each slot -/

theorem searchSlots_eq (k : Kernel) (pid : Int) (slots : List Nat) :
    k.searchSlots pid slots = some (slots.findSome? fun i =>
      match k.processes i with
      | some p => if ((k.pcb p).pid : Int) = pid then some p else none
      | none => none) := by
  induction slots with
  | nil => rfl
  | cons i slots ih =>
      rw [searchSlots, List.findSome?_cons]
      cases k.processes i with
      | none => exact ih
      | some p =>
          dsimp only
          split
          · rfl
          · exact ih

theorem exitProcessChecked_eq : k.exitProcessChecked alg = some (k.exitProcess alg) := by
  simp only [exitProcessChecked, exitProcess]
  rw [scanTable_wake fun _ _ => Or.inl rfl]
  rfl

theorem rechargeAllChecked_eq : k.rechargeAllChecked = some k.rechargeAll :=
  have hbody : ∀ (k : Kernel) (p : PcbPtr),
      (k.setCounter p (((k.pcb p).counter >>> (1 : Nat)) + (k.pcb p).priority)).processes
        = k.processes := fun _ _ => rfl
  scanTable_eq hbody fun _ _ => Or.inl rfl

/-! ### The scan up to `n_processes` -/

/-- The first `n_processes` slots are in use. -/
def Kernel.Dense (k : Kernel) : Prop := ∀ i < k.nProcesses, k.processes i ≠ none

theorem receiveWord_rest (k : Kernel) (dr : BitVec 32) :
    (k.receiveWord alg dr).processes = k.processes
      ∧ (k.receiveWord alg dr).nProcesses = k.nProcesses := by
  unfold receiveWord
  dsimp only
  split
  · exact ⟨rfl, rfl⟩
  · have hrest := fun (k : Kernel) => wakeProcesses_rest alg
      (fun b => b.state = .waitingUartInput) id (List.range k.nProcesses) k
    refine ⟨(rest_processes (hrest _)).trans ?_, (rest_nProcesses (hrest _)).trans ?_⟩ <;>
      split <;> rfl

theorem receiveWordChecked_eq (hk : k.Dense) (dr : BitVec 32) :
    k.receiveWordChecked alg dr = some (k.receiveWord alg dr) := by
  unfold receiveWordChecked receiveWord
  dsimp only
  split
  · rfl
  · refine scanTable_wake fun i hi => Or.inr ?_
    revert hi
    split <;> exact fun hi => hk i (List.mem_range.mp hi)

theorem handleUartIrqChecked_eq (hk : k.Dense) (mis : BitVec 32)
    (fifo timeoutFifo : List (BitVec 32)) :
    k.handleUartIrqChecked alg mis fifo timeoutFifo
      = some (k.handleUartIrq alg mis fifo timeoutFifo) := by
  have hfifo : fifo.foldlM (receiveWordChecked alg) k = some (fifo.foldl (receiveWord alg) k) := by
    induction fifo generalizing k with
    | nil => rfl
    | cons dr fifo ih =>
        obtain ⟨hprocesses, hn⟩ := receiveWord_rest k dr
        rw [List.foldlM_cons, receiveWordChecked_eq hk, List.foldl_cons, Option.bind_eq_bind,
          Option.bind_some]
        refine ih fun i hi => ?_
        rw [hprocesses]
        exact hk i (hn ▸ hi)
  unfold handleUartIrqChecked handleUartIrq
  by_cases hmis : mis &&& (1#32 <<< 4) ≠ 0
  · simp only [if_pos hmis, hfifo, Option.bind_eq_bind, Option.bind_some]
    rfl
  · simp only [if_neg hmis, Option.bind_eq_bind, Option.bind_some]
    rfl

/-! ### The scan of all slots without a test -/

/-- `receive_message` is safe if there is no message, or if no slot is empty. -/
theorem receiveMessageChecked_iff (hk : ∀ i, k.processes i ≠ none ↔ i < k.nProcesses)
    (hbound : k.nProcesses ≤ N_PROCESSES) (d : PcbPtr) :
    k.receiveMessageChecked alg d = some (k.receiveMessage alg d)
      ↔ k.nProcesses = N_PROCESSES
        ∨ (k.pcb d).messagesBuffer.head = (k.pcb d).messagesBuffer.tail := by
  have hpop : k.popMessage d = none
      ↔ (k.pcb d).messagesBuffer.head = (k.pcb d).messagesBuffer.tail := by
    simp only [popMessage, RingMemory.pop, pcbRing]
    by_cases h : (k.pcb d).messagesBuffer.head = (k.pcb d).messagesBuffer.tail
    · simp [h]
    · simp [h]
  unfold receiveMessageChecked receiveMessage
  cases hp : k.popMessage d with
  | none => exact iff_of_true rfl (Or.inr (hpop.mp hp))
  | some r =>
      obtain ⟨k₁, message⟩ := r
      have hring := (not_congr hpop).mp (by rw [hp]; nofun)
      have hprocesses : k₁.processes = k.processes := by
        simp only [popMessage, Option.bind_eq_bind, Option.bind_eq_some_iff] at hp
        obtain ⟨_, -, hk₁⟩ := hp
        rw [← (Prod.mk.inj (Option.some.inj hk₁)).1]
        rfl
      simp only [or_iff_left hring]
      constructor
      · intro hsome
        -- With an empty slot the scan would have failed.
        by_contra hne
        have hempty : k.processes k.nProcesses = none := by
          by_contra h
          exact Nat.lt_irrefl _ ((hk _).mp h)
        have hlt : k.nProcesses ∈ List.range N_PROCESSES :=
          List.mem_range.mpr (Nat.lt_of_le_of_ne hbound hne)
        rw [scanTable_none (wakeBody_processes _ _) hlt
          (by rw [← hprocesses] at hempty; exact hempty)] at hsome
        exact nomatch hsome
      · intro hfull
        rw [scanTable_wake fun i hi => Or.inr (by
          have hlt := List.mem_range.mp hi
          rw [← hfull] at hlt
          have hi := (hk i).mpr hlt
          rw [← hprocesses] at hi
          exact hi)]
        rfl

end Scans

section Table
variable {alg : SchedAlgorithm} {k : Kernel} {s : Sched}

/-- The slots in use are the first `n_processes`, each with the pid of its index. -/
theorem processes_dense (h : Refines k s) (hinv : s.Inv alg) :
    (∀ i, k.processes i ≠ none ↔ i < k.nProcesses)
      ∧ ∀ i p, k.processes i = some p → (k.pcb p).pid = i := by
  rw [h.processes, h.nProcesses]
  refine ⟨fun i => ⟨fun hi => ?_, fun hi => ?_⟩, fun i p hi => ?_⟩
  · obtain ⟨p, hp⟩ := Option.ne_none_iff_exists'.mp hi
    exact (hinv.table.slot hp).1
  · obtain ⟨p, hp⟩ := hinv.table.dense i hi
    rw [hp]
    nofun
  · have hpid := (hinv.table.slot hi).2
    rw [h.block_eq] at hpid
    exact hpid

/-- `search_process` finds the process with the pid. -/
theorem searchProcess_iff (h : Refines k s) (hinv : s.Inv alg) (pid : Int) (p : PcbPtr) :
    k.searchProcess pid = some p ↔ k.IsProcess p ∧ ((k.pcb p).pid : Int) = pid := by
  refine ⟨searchProcess_isProcess, fun ⟨hp, hpid⟩ => ?_⟩
  obtain ⟨i, hlt, hi⟩ := hp
  cases hfound : k.searchProcess pid with
  | none =>
      have hslot := List.findSome?_eq_none_iff.mp hfound i (List.mem_range.mpr hlt)
      rw [hi] at hslot
      simp only [hpid, if_true] at hslot
      exact nomatch hslot
  | some r =>
      -- Two processes with one pid sit in one slot.
      obtain ⟨⟨j, -, hj⟩, hrpid⟩ := searchProcess_isProcess hfound
      obtain ⟨-, hslot⟩ := processes_dense h hinv
      have hij : (i : Int) = j := by
        rw [← hslot i p hi, ← hslot j r hj, hpid, hrpid]
      rw [Int.natCast_inj.mp hij, hj] at hi
      exact hi

end Table

end DemoOS
