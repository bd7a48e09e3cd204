import DemoOS.Spec.Console
import DemoOS.Proofs.Scheduler.ProcessTable
import DemoOS.Proofs.Scheduler.Console

/-!
# `DemoOS.Proofs.Console.Receive`: which characters the UART handler keeps

`handle_uart_irq` reads the data register in two loops. The receive loop keeps every character for
which the ring has room and wakes the readers (`receiveWord_unread`, `receiveWords_woken`). The
receive-timeout loop echoes what it reads and keeps nothing. So a call does what the console
promises exactly when the second loop has nothing to keep and, if a reader waits, the first one
reads a character (`handleUartIrq_keepsInput_iff`). `timeout_drops_byte` is a call that throws the
only character away.

`reachable_ringValid` says that the two indices of the ring stay inside of it.
-/

set_option autoImplicit false

namespace DemoOS

open Support

namespace Kernel

/-- The indices of the ring are inside of it. -/
structure RingValid (k : Kernel) : Prop where
  head : k.uartHead < UART_BUFFER_SIZE
  tail : k.uartTail < UART_BUFFER_SIZE

/-- Between the two kernels the process was made ready and enqueued. -/
def Woken (p : PcbPtr) (k k' : Kernel) : Prop :=
  (k'.pcb p).state = .ready ∧ ∃ q es, k'.trace = k.trace ++ es ∧ KernelEvent.enqueued q p ∈ es

/-- What the call promises: the characters without error flags join the ring as long as it has
room, and every process that waits for a character is made ready and enqueued. -/
structure KeepsInput (k k' : Kernel) (words : List (BitVec 32)) : Prop where
  appended : k'.unreadBytes = (dataOf words).foldl (accept UART_ROOM) k.unreadBytes
  woken : ∀ p, k.IsProcess p → (k.pcb p).state = .waitingUartInput → Woken p k k'

section Ring
variable {k : Kernel}

/-- The ring has room if the next head is not the tail. -/
theorem length_unreadBytes_lt_iff (hk : k.RingValid) :
    k.unreadBytes.length < UART_ROOM ↔ (k.uartHead + 1) % UART_BUFFER_SIZE ≠ k.uartTail := by
  rw [unreadBytes, CircularBuffer.length_contents, ← CircularBuffer.next_eq_mod hk.head,
    CircularBuffer.next_ne_iff hk.head hk.tail]
  exact Nat.lt_sub_iff_add_lt

/-- The wake-up loop does not touch the ring. -/
theorem wakeProcesses_ring (alg : SchedAlgorithm) (waits : PCB → Bool) (slots : List Nat) :
    (k.wakeProcesses alg waits id slots).uartBuffer = k.uartBuffer
      ∧ (k.wakeProcesses alg waits id slots).uartHead = k.uartHead
      ∧ (k.wakeProcesses alg waits id slots).uartTail = k.uartTail := by
  have hrest := wakeProcesses_rest alg waits id slots k
  exact ⟨congrArg (fun k => k.uartBuffer) hrest, congrArg (fun k => k.uartHead) hrest,
    congrArg (fun k => k.uartTail) hrest⟩

/-- One word of the receive loop: a character joins the ring if it has room. -/
theorem receiveWord_unread (alg : SchedAlgorithm) (hk : k.RingValid) (dr : BitVec 32) :
    (k.receiveWord alg dr).RingValid
      ∧ (k.receiveWord alg dr).unreadBytes
        = (dataOf [dr]).foldl (accept UART_ROOM) k.unreadBytes := by
  unfold receiveWord
  dsimp only
  by_cases hdata : IsData dr
  · -- Whatever the loop over the processes does, it leaves the ring as it finds it.
    have hwoken : ∀ {k' : Kernel}, k'.RingValid →
        k'.unreadBytes = accept UART_ROOM k.unreadBytes (dr.setWidth 8) →
        (k'.wakeProcesses alg (fun b => b.state = .waitingUartInput) id
            (List.range k'.nProcesses)).RingValid
          ∧ (k'.wakeProcesses alg (fun b => b.state = .waitingUartInput) id
            (List.range k'.nProcesses)).unreadBytes
            = (dataOf [dr]).foldl (accept UART_ROOM) k.unreadBytes := by
      intro k' hk' hunread
      obtain ⟨hbuffer, hhead, htail⟩ := wakeProcesses_ring (k := k') alg
        (fun b => b.state = .waitingUartInput) (List.range k'.nProcesses)
      refine ⟨⟨by rw [hhead]; exact hk'.head, by rw [htail]; exact hk'.tail⟩, ?_⟩
      rw [unreadBytes, hbuffer, hhead, htail]
      show k'.unreadBytes = _
      rw [hunread]
      simp [dataOf, hdata]
    have hnoerror : (dr >>> 8) &&& 0xF#32 = 0 := hdata
    rw [if_neg (not_not_intro hnoerror)]
    split
    · next hroom =>
        have hnext := CircularBuffer.next_eq_mod hk.head
        refine hwoken ⟨?_, hk.tail⟩ ?_
        · show (k.uartHead + 1) % UART_BUFFER_SIZE < _
          exact Nat.mod_lt _ (by decide)
        · have hpush := CircularBuffer.contents_push hk.head hk.tail (hnext ▸ hroom) k.uartBuffer
            (dr.setWidth 8)
          rw [hnext] at hpush
          rw [accept, if_pos ((length_unreadBytes_lt_iff hk).mpr hroom)]
          exact hpush
    · next hfull =>
        refine hwoken hk ?_
        rw [accept, if_neg (fun hlt => hfull ((length_unreadBytes_lt_iff hk).mp hlt))]
  · have herror : (dr >>> 8) &&& 0xF#32 ≠ 0 := hdata
    rw [if_pos herror]
    refine ⟨hk, ?_⟩
    simp [dataOf, hdata]

/-- The receive loop. -/
theorem receiveWords_unread (alg : SchedAlgorithm) (words : List (BitVec 32)) (hk : k.RingValid) :
    (words.foldl (receiveWord alg) k).RingValid
      ∧ (words.foldl (receiveWord alg) k).unreadBytes
        = (dataOf words).foldl (accept UART_ROOM) k.unreadBytes := by
  induction words generalizing k with
  | nil => exact ⟨hk, rfl⟩
  | cons dr words ih =>
      obtain ⟨hvalid, hunread⟩ := receiveWord_unread alg hk dr
      obtain ⟨hvalid', hunread'⟩ := ih hvalid
      refine ⟨hvalid', ?_⟩
      have hwords : dataOf (dr :: words) = dataOf [dr] ++ dataOf words :=
        dataOf_append [dr] words
      rw [List.foldl_cons, hunread', hunread, hwords, List.foldl_append]

/-- `handle_uart_irq` is its receive loop. -/
theorem handleUartIrq_eq (alg : SchedAlgorithm) (k : Kernel) (mis : BitVec 32)
    (fifo timeoutFifo : List (BitVec 32)) :
    k.handleUartIrq alg mis fifo timeoutFifo
      = (receiveWords mis fifo).foldl (receiveWord alg) k := by
  simp only [handleUartIrq, foldl_timeoutWord, ite_self, receiveWords]
  split <;> rfl

end Ring

/-! ### The readers -/

/-- What a wake-up loop does: it wakes some processes and leaves the others as they are. -/
structure Wakes (k k' : Kernel) : Prop where
  processes : k'.processes = k.processes
  nProcesses : k'.nProcesses = k.nProcesses
  state : ∀ p, (k'.pcb p).state = (k.pcb p).state ∨ Woken p k k'
  trace : ∃ es, k'.trace = k.trace ++ es

section Readers
variable {alg : SchedAlgorithm} {k k' k'' : Kernel} {p : PcbPtr}

theorem Wakes.refl (k : Kernel) : Wakes k k :=
  ⟨rfl, rfl, fun _ => Or.inl rfl, [], (List.append_nil _).symm⟩

/-- Who was woken stays awake. -/
theorem Woken.then (h : Woken p k k') (h' : Wakes k' k'') : Woken p k k'' := by
  obtain ⟨hready, q, es, htrace, hmem⟩ := h
  obtain ⟨es', htrace'⟩ := h'.trace
  constructor
  · rcases h'.state p with heq | hready'
    · exact heq.trans hready
    · exact hready'.1
  · exact ⟨q, es ++ es', by rw [htrace', htrace, List.append_assoc], List.mem_append_left _ hmem⟩

theorem Wakes.then_woken (h : Wakes k k') (h' : Woken p k' k'') : Woken p k k'' := by
  obtain ⟨es, htrace⟩ := h.trace
  obtain ⟨hready, q, es', htrace', hmem⟩ := h'
  exact ⟨hready, q, es ++ es', by rw [htrace', htrace, List.append_assoc],
    List.mem_append_right _ hmem⟩

theorem Wakes.trans (h : Wakes k k') (h' : Wakes k' k'') : Wakes k k'' where
  processes := h'.processes.trans h.processes
  nProcesses := h'.nProcesses.trans h.nProcesses
  state r := by
    rcases h'.state r with heq | hwoken
    · rcases h.state r with heq' | hwoken
      · exact Or.inl (heq.trans heq')
      · exact Or.inr (hwoken.then h')
    · exact Or.inr (h.then_woken hwoken)
  trace := by
    obtain ⟨es, hes⟩ := h.trace
    obtain ⟨es', hes'⟩ := h'.trace
    exact ⟨es ++ es', by rw [hes', hes, List.append_assoc]⟩

/-- Nobody but a woken process is ready now and was not before. -/
theorem Wakes.awake (h : Wakes k k') {st : ProcessState} (hst : (k.pcb p).state ≠ st)
    (hready : st ≠ .ready) : (k'.pcb p).state ≠ st := by
  rcases h.state p with heq | hwoken
  · rwa [heq]
  · rw [hwoken.1]
    exact hready.symm

/-- One process is woken. -/
theorem wakeOne (alg : SchedAlgorithm) (k : Kernel) (hp : p ≠ .initProcess) :
    Wakes k ((k.setState p .ready).enqueueProcess alg p)
      ∧ Woken p k ((k.setState p .ready).enqueueProcess alg p) := by
  have hview : ((k.setState p .ready).enqueueProcess alg p).view
      = Function.update (k.setState p .ready).view p
        (((k.setState p .ready).view p).withState .ready) := by
    rw [enqueueProcess, if_neg hp]
    cases alg with
    | sjf => exact enqueueSortedTo_view hp
    | _ => exact enqueueProcessTo_view hp
  have hstate : ∀ r, (((k.setState p .ready).enqueueProcess alg p).pcb r).state
      = if r = p then .ready else (k.pcb r).state := by
    intro r
    show (((k.setState p .ready).enqueueProcess alg p).view r).state = _
    rw [hview, Function.update_apply]
    split
    · rfl
    · next hr =>
        show ((k.setState p .ready).pcb r).state = _
        rw [setState, modifyPcb_pcb_of_ne _ _ hr]
  obtain ⟨q, htrace⟩ : ∃ q, ((k.setState p .ready).enqueueProcess alg p).trace
      = k.trace ++ [.enqueued q p] := by
    rw [enqueueProcess, if_neg hp]
    cases alg with
    | sjf => exact ⟨_, enqueueSortedTo_trace hp⟩
    | _ => exact ⟨_, enqueueProcessTo_trace hp⟩
  have hwoken : Woken p k ((k.setState p .ready).enqueueProcess alg p) :=
    ⟨(hstate p).trans (if_pos rfl), q, _, htrace, List.mem_singleton_self _⟩
  have hrest := enqueueProcess_rest alg (k.setState p .ready) p
  refine ⟨⟨congrArg (fun k => k.processes) hrest, congrArg (fun k => k.nProcesses) hrest,
    fun r => ?_, _, htrace⟩, hwoken⟩
  by_cases hr : r = p
  · exact Or.inr (hr ▸ hwoken)
  · exact Or.inl ((hstate r).trans (if_neg hr))

/-- The wake-up loop of the handler: the processes of the slots that wait for a character are
woken, and nothing happens to the others. -/
theorem wakeReaders (alg : SchedAlgorithm)
    (hinit : (k.pcb .initProcess).state ≠ .waitingUartInput) (slots : List Nat) :
    Wakes k (k.wakeProcesses alg (fun b => b.state = .waitingUartInput) id slots)
      ∧ ∀ i ∈ slots, ∀ p, k.processes i = some p → (k.pcb p).state = .waitingUartInput →
        Woken p k (k.wakeProcesses alg (fun b => b.state = .waitingUartInput) id slots) := by
  induction slots generalizing k with
  | nil => exact ⟨.refl k, fun i hi => absurd hi List.not_mem_nil⟩
  | cons i slots ih =>
      -- The round of slot `i`, and what it does for the process in it.
      obtain ⟨k₁, hk₁⟩ : ∃ k₁,
          k₁ = k.wakeProcesses alg (fun b => b.state = .waitingUartInput) id [i] := ⟨_, rfl⟩
      have hround : Wakes k k₁ ∧ ∀ p, k.processes i = some p →
          (k.pcb p).state = .waitingUartInput → Woken p k k₁ := by
        simp only [wakeProcesses, List.foldl_cons, List.foldl_nil, decide_eq_true_eq] at hk₁
        cases hslot : k.processes i with
        | none =>
            rw [hslot] at hk₁
            rw [hk₁]
            exact ⟨.refl k, fun p hp => by cases hp⟩
        | some r =>
            rw [hslot] at hk₁
            dsimp only at hk₁
            split at hk₁
            · next hwaits =>
                have hr : r ≠ .initProcess := fun heq => hinit (heq ▸ hwaits)
                obtain ⟨hwakes, hwoken⟩ := wakeOne alg k hr
                have hid : k.modifyPcb r id = k := by simp [modifyPcb]
                rw [hid] at hk₁
                rw [hk₁]
                exact ⟨hwakes, fun p hp _ => Option.some.inj hp ▸ hwoken⟩
            · next hawake =>
                rw [hk₁]
                exact ⟨.refl k, fun p hp hst => absurd (Option.some.inj hp ▸ hst) hawake⟩
      obtain ⟨hwakes, hwoken⟩ := hround
      have hinit₁ := hwakes.awake hinit (by decide)
      obtain ⟨hrest, hlater⟩ := ih hinit₁
      have hall : k.wakeProcesses alg (fun b => b.state = .waitingUartInput) id (i :: slots)
          = k₁.wakeProcesses alg (fun b => b.state = .waitingUartInput) id slots := by
        rw [hk₁]
        rfl
      rw [hall]
      refine ⟨hwakes.trans hrest, fun j hj p hslot hst => ?_⟩
      rcases List.mem_cons.mp hj with rfl | hj
      · exact (hwoken p hslot hst).then hrest
      · rcases hwakes.state p with heq | hwoken
        · exact hwakes.then_woken (hlater j hj p (hwakes.processes ▸ hslot) (heq.trans hst))
        · exact hwoken.then hrest

/-- A character without error flags wakes all readers, and a word with one does nothing. -/
theorem receiveWord_readers (alg : SchedAlgorithm) (hslots : k.SlotsCounted)
    (hinit : (k.pcb .initProcess).state ≠ .waitingUartInput) (dr : BitVec 32) :
    Wakes k (k.receiveWord alg dr)
      ∧ (IsData dr → ∀ p, k.IsProcess p → (k.pcb p).state = .waitingUartInput →
        Woken p k (k.receiveWord alg dr)) := by
  unfold receiveWord
  dsimp only
  by_cases hdata : IsData dr
  · have hnoerror : (dr >>> 8) &&& 0xF#32 = 0 := hdata
    rw [if_neg (not_not_intro hnoerror)]
    -- Storing the character changes neither the table nor a block nor the trace.
    obtain ⟨k₁, hk₁⟩ : ∃ k₁, k₁ = if (k.uartHead + 1) % UART_BUFFER_SIZE ≠ k.uartTail then
        { k with
          uartBuffer := Function.update k.uartBuffer k.uartHead (dr.setWidth 8)
          uartHead := (k.uartHead + 1) % UART_BUFFER_SIZE }
        else k := ⟨_, rfl⟩
    rw [← hk₁]
    have hpcb : k₁.pcb = k.pcb := by rw [hk₁]; split <;> rfl
    have hprocesses : k₁.processes = k.processes := by rw [hk₁]; split <;> rfl
    have hcount : k₁.nProcesses = k.nProcesses := by rw [hk₁]; split <;> rfl
    have htrace : k₁.trace = k.trace := by rw [hk₁]; split <;> rfl
    have hstored : Wakes k k₁ := ⟨hprocesses, hcount, fun p => Or.inl (by rw [hpcb]), [],
      by rw [htrace, List.append_nil]⟩
    obtain ⟨hwakes, hwoken⟩ := wakeReaders (k := k₁) alg (by rwa [hpcb])
      (List.range k₁.nProcesses)
    refine ⟨hstored.trans hwakes, fun _ p hp hst => hstored.then_woken ?_⟩
    obtain ⟨i, -, hslot⟩ := hp
    have hi : i < k₁.nProcesses := by
      rw [hcount]
      refine Nat.lt_of_not_le fun hle => ?_
      exact nomatch (hslots i hle).symm.trans hslot
    exact hwoken i (List.mem_range.mpr hi) p (hprocesses ▸ hslot) (by rw [hpcb]; exact hst)
  · have herror : (dr >>> 8) &&& 0xF#32 ≠ 0 := hdata
    rw [if_pos herror]
    exact ⟨.refl k, fun h => absurd h hdata⟩

/-- The receive loop wakes all readers if it reads a character without error flags. -/
theorem receiveWords_woken (alg : SchedAlgorithm) (words : List (BitVec 32))
    (hslots : k.SlotsCounted) (hinit : (k.pcb .initProcess).state ≠ .waitingUartInput) :
    Wakes k (words.foldl (receiveWord alg) k)
      ∧ ((∃ dr ∈ words, IsData dr) → ∀ p, k.IsProcess p →
        (k.pcb p).state = .waitingUartInput → Woken p k (words.foldl (receiveWord alg) k)) := by
  induction words generalizing k with
  | nil => exact ⟨.refl k, fun ⟨dr, hdr, _⟩ => absurd hdr List.not_mem_nil⟩
  | cons dr words ih =>
      obtain ⟨hwakes, hwoken⟩ := receiveWord_readers alg hslots hinit dr
      have hslots₁ : (k.receiveWord alg dr).SlotsCounted := fun i hi => by
        rw [hwakes.processes]
        exact hslots i (hwakes.nProcesses ▸ hi)
      obtain ⟨hrest, hlater⟩ := ih hslots₁ (hwakes.awake hinit (by decide))
      refine ⟨hwakes.trans hrest, fun ⟨dr', hdr', hdata⟩ p hp hst => ?_⟩
      rcases List.mem_cons.mp hdr' with rfl | hdr'
      · exact (hwoken hdata p hp hst).then hrest
      · rcases hwakes.state p with heq | hwoken'
        · have hp' : (k.receiveWord alg dr).IsProcess p := by
            unfold IsProcess
            rw [hwakes.processes]
            exact hp
          exact hwakes.then_woken (hlater ⟨dr', hdr', hdata⟩ p hp' (heq.trans hst))
        · exact hwoken'.then hrest

/-- Words with error flags leave the kernel as it is. -/
theorem receiveWords_errors (alg : SchedAlgorithm) (words : List (BitVec 32))
    (herror : ∀ dr ∈ words, ¬ IsData dr) : words.foldl (receiveWord alg) k = k := by
  induction words with
  | nil => rfl
  | cons dr words ih =>
      have hone : k.receiveWord alg dr = k :=
        if_pos (show (dr >>> 8) &&& 0xF#32 ≠ 0 from herror dr (List.mem_cons_self ..))
      rw [List.foldl_cons, hone]
      exact ih fun dr' hdr' => herror dr' (List.mem_cons_of_mem _ hdr')

end Readers

/-! ### Calls -/

section Calls
variable {alg : SchedAlgorithm} {k k' : Kernel}

/-- `syscall_input` moves the tail inside of the ring. -/
theorem readUart_ringValid (maxLen fuel : Nat) (line : List (BitVec 8)) (hk : k.RingValid) :
    (readUart maxLen fuel k line).1.RingValid := by
  induction fuel generalizing k line with
  | zero => exact hk
  | succ fuel ih =>
      have hmoved : RingValid { k with uartTail := (k.uartTail + 1) % UART_BUFFER_SIZE } :=
        ⟨hk.head, Nat.mod_lt _ (by decide)⟩
      unfold readUart
      split
      · exact hk
      · dsimp only
        split
        · exact hmoved
        · split
          · exact ih _ hmoved
          · split <;> exact ih _ hmoved

/-- The indices are not touched. -/
theorem RingValid.congr (hk : k.RingValid) (hhead : k'.uartHead = k.uartHead)
    (htail : k'.uartTail = k.uartTail) : k'.RingValid :=
  ⟨hhead ▸ hk.head, htail ▸ hk.tail⟩

theorem inputRead_ringValid (maxLen : Nat) (line : List (BitVec 8)) (hk : k.RingValid) :
    (k.inputRead maxLen line).1.RingValid := by
  have hread := readUart_ringValid maxLen UART_BUFFER_SIZE line hk
  unfold inputRead
  dsimp only
  split
  · exact hread.congr rfl rfl
  · have hschedule := LeavesConsole.schedule (suspendAt (setState
      (readUart maxLen UART_BUFFER_SIZE k line).1
      (readUart maxLen UART_BUFFER_SIZE k line).1.currentProcess .waitingUartInput)
      (.inputRead maxLen (readUart maxLen UART_BUFFER_SIZE k line).2.1))
    exact hread.congr hschedule.uartHead hschedule.uartTail

theorem syscallInput_ringValid (len : Int) (hk : k.RingValid) :
    (k.syscallInput len).1.RingValid := by
  unfold syscallInput
  split
  · have hschedule := LeavesConsole.schedule (k.suspendAt (.inputOwner len))
    exact hk.congr hschedule.uartHead hschedule.uartTail
  · exact inputRead_ringValid _ _ (hk.congr rfl rfl)

theorem enter_ringValid {t : Trap} {r : Kernel × Control} (hk : k.RingValid)
    (h : k.enter alg t = some r) : r.1.RingValid := by
  by_cases hconsole : t.isConsole = true
  · cases t with
    | input len =>
        obtain ⟨-, rfl⟩ := guarded h
        exact syscallInput_ringValid len hk
    | uartIrq mis fifo timeoutFifo =>
        obtain rfl := Option.some.inj h
        show (k.handleUartIrq alg mis fifo timeoutFifo).RingValid
        rw [handleUartIrq_eq]
        exact (receiveWords_unread alg _ hk).1
    | _ => exact nomatch hconsole
  by_cases hinput : t = .resume ∧ k.current.resume.isInput = true
  · obtain ⟨rfl, hinput⟩ := hinput
    have hresume : k.resumeCurrent alg = some r := h
    unfold resumeCurrent at hresume
    cases hpoint : k.current.resume with
    | inputOwner len =>
        rw [hpoint] at hresume
        obtain rfl := Option.some.inj hresume
        exact syscallInput_ringValid len hk
    | inputRead maxLen line =>
        rw [hpoint] at hresume
        obtain rfl := Option.some.inj hresume
        exact inputRead_ringValid maxLen line hk
    | _ =>
        rw [hpoint] at hinput
        exact nomatch hinput
  · have hleaves := enter_leavesConsole (Bool.eq_false_iff.mpr hconsole)
      (fun ht => Bool.eq_false_iff.mpr fun hpoint => hinput ⟨ht, hpoint⟩) h
    exact hk.congr hleaves.uartHead hleaves.uartTail

/-- The indices of the ring stay inside of it. -/
theorem reachable_ringValid (hk : Reachable alg k) : k.RingValid := by
  induction hk with
  | boot timerClo => exact ⟨Nat.succ_pos 63, Nat.succ_pos 63⟩
  | step t _ hstep ih =>
      rcases step_cases hstep with hr | ⟨k₁, hr, hpick⟩
      · exact enter_ringValid ih hr
      · have hleaves := LeavesConsole.pickNext hpick
        exact (enter_ringValid ih hr).congr hleaves.uartHead hleaves.uartTail

/-- A call of the handler does what the console promises if and only if the receive-timeout loop
reads nothing that the ring has room for, and the receive loop reads a character if anybody waits
for one. -/
theorem handleUartIrq_keepsInput_iff (hk : Reachable alg k) (mis : BitVec 32)
    (fifo timeoutFifo : List (BitVec 32)) :
    KeepsInput k (k.handleUartIrq alg mis fifo timeoutFifo)
        (receiveWords mis fifo ++ timeoutWords mis timeoutFifo)
      ↔ (dataOf (timeoutWords mis timeoutFifo) = []
          ∨ UART_ROOM ≤ k.unreadBytes.length + (dataOf (receiveWords mis fifo)).length)
        ∧ ((∃ p, k.IsProcess p ∧ (k.pcb p).state = .waitingUartInput) →
          dataOf (receiveWords mis fifo) ≠ []) := by
  obtain ⟨s, hs⟩ := reachable_settled hk
  obtain ⟨hslots, -⟩ := processes_dense hs.refines hs.inv
  have hcounted : k.SlotsCounted := fun i hi => by
    by_contra hslot
    exact absurd ((hslots i).mp hslot) (by omega)
  have hinit : (k.pcb .initProcess).state ≠ .waitingUartInput := fun hst => by
    have hwaits := hs.inv.init_not_waiting
    rw [← hs.refines.state_eq, hst] at hwaits
    exact nomatch hwaits
  obtain ⟨-, hunread⟩ := receiveWords_unread alg (receiveWords mis fifo) (reachable_ringValid hk)
  obtain ⟨-, hwoken⟩ := receiveWords_woken alg (receiveWords mis fifo) hcounted hinit
  rw [foldl_accept] at hunread
  rw [handleUartIrq_eq]
  constructor
  · intro hkeeps
    constructor
    · have hlengths := congrArg List.length hkeeps.appended
      rw [hunread, foldl_accept, dataOf_append] at hlengths
      simp only [List.length_append, List.length_take] at hlengths
      rw [← List.length_eq_zero_iff]
      omega
    · rintro ⟨p, hp, hst⟩ hnone
      have herrors := receiveWords_errors (k := k) alg (receiveWords mis fifo)
        fun dr hdr hdata => dataOf_ne_nil.mpr ⟨dr, hdr, hdata⟩ hnone
      have hready := (hkeeps.woken p hp hst).1
      rw [herrors, hst] at hready
      exact nomatch hready
  · rintro ⟨htimeout, hreaders⟩
    refine ⟨?_, fun p hp hst => ?_⟩
    · rw [hunread, foldl_accept, dataOf_append]
      rcases htimeout with hnone | hfull
      · rw [hnone, List.append_nil]
      · rw [List.take_append_of_le_length (by omega)]
    · exact hwoken (dataOf_ne_nil.mp (hreaders ⟨p, hp, hst⟩)) p hp hst

/-- A character is received and another one comes with an error flag. -/
theorem handleUartIrq_keepsInput_iff_received :
    KeepsInput (boot fun _ => 0) ((boot fun _ => 0).handleUartIrq .roundRobin 16 [65, 0x141] [])
      (receiveWords 16 [65, 0x141] ++ timeoutWords 16 []) :=
  (handleUartIrq_keepsInput_iff (Reachable.boot fun _ => 0) 16 [65, 0x141] []).mpr
    ⟨Or.inl (by decide), fun _ => by decide⟩

/-- One character comes with the receive timeout, and is thrown away while the ring is empty. -/
theorem timeout_drops_byte :
    ¬ KeepsInput (boot fun _ => 0) ((boot fun _ => 0).handleUartIrq .roundRobin 64 [] [65])
      (receiveWords 64 [] ++ timeoutWords 64 [65]) := by
  intro hkeeps
  exact absurd hkeeps.appended (by decide)

end Calls

end Kernel

end DemoOS
