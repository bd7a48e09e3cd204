import DemoOS.Proofs.MessageRing
import DemoOS.Proofs.Scheduler.ReadyQueues
import DemoOS.Proofs.Messages.Quiet

/-!
# `DemoOS.Proofs.Messages.Delivery`: messages arrive once and in order

`Moves k k' call done` says what one kernel step does to messages: `call` is the call of
`send_message` that begins in it and `done` the one that returns. `step_moves` proves it of
every step, with the mailbox invariant (`Mailboxes`), and `messages_delivered` of every run
from boot: each process receives a prefix of what was stored for it, exactly the sends that
returned 0 have stored their message, once and in program order, and nobody is left waiting
at a ring that would let it go on.
-/

set_option autoImplicit false

namespace DemoOS

open Support

/-! ### One ring -/

section Ring
variable {b b' : MessagesCircularBuffer} {message : Message}

theorem nextIndex_eq (i : Nat) : nextIndex i = CircularBuffer.next RING_SLOTS i := by
  unfold nextIndex CircularBuffer.next RING_SLOTS
  split <;> split <;> omega

theorem bounded_zeroed : MessagesCircularBuffer.zeroed.Bounded := ⟨by decide, by decide⟩

/-- `push_message` appends to the ring. -/
theorem push_contents (h : b.Bounded) (hpush : pcbRing.push b message = some b') :
    b'.Bounded ∧ b'.contents = b.contents ++ [message] ∧ nextIndex b.head ≠ b.tail := by
  by_cases hroom : nextIndex (pcbRing.head b) = pcbRing.tail b
  · rw [RingMemory.push, if_pos hroom] at hpush
    cases hpush
  · rw [RingMemory.push_of_room hroom] at hpush
    obtain rfl := Option.some.inj hpush
    refine ⟨⟨?_, h.tail⟩, ?_, hroom⟩
    · show nextIndex b.head < RING_SLOTS
      rw [nextIndex_eq]
      exact CircularBuffer.next_lt (by decide) _
    · show CircularBuffer.contents RING_SLOTS (Function.update b.buffer b.head message)
        (nextIndex b.head) b.tail = _
      change nextIndex b.head ≠ b.tail at hroom
      rw [nextIndex_eq] at hroom ⊢
      exact CircularBuffer.contents_push h.head h.tail hroom b.buffer message

/-- `pop_message` takes the first message of the ring. -/
theorem pop_contents (h : b.Bounded) (hpop : pcbRing.pop b = some (b', message)) :
    b'.Bounded ∧ b.contents = message :: b'.contents := by
  by_cases hempty : pcbRing.head b = pcbRing.tail b
  · rw [RingMemory.pop_of_empty hempty] at hpop
    exact nomatch hpop
  · rw [RingMemory.pop_of_ne hempty] at hpop
    obtain ⟨rfl, rfl⟩ := Prod.mk.inj (Option.some.inj hpop)
    refine ⟨⟨h.head, ?_⟩, ?_⟩
    · show nextIndex b.tail < RING_SLOTS
      rw [nextIndex_eq]
      exact CircularBuffer.next_lt (by decide) _
    · show _ = b.buffer b.tail
        :: CircularBuffer.contents RING_SLOTS b.buffer b.head (nextIndex b.tail)
      rw [nextIndex_eq]
      exact CircularBuffer.contents_pop h.head h.tail hempty b.buffer

theorem contents_zeroed : MessagesCircularBuffer.zeroed.contents = [] :=
  (CircularBuffer.contents_eq_nil_iff (by decide)).mpr rfl

end Ring

namespace Kernel

variable {k k' : Kernel} {p : PcbPtr}

theorem messagesPushed_congr
    (h : k'.trace.filter (·.isMessage) = k.trace.filter (·.isMessage)) :
    k'.messagesPushed = k.messagesPushed := by
  unfold messagesPushed
  rw [← pushedIn_filter, h, pushedIn_filter]

theorem bodiesReceived_congr
    (h : k'.trace.filter (·.isMessage) = k.trace.filter (·.isMessage)) (p : PcbPtr) :
    k'.bodiesReceived p = k.bodiesReceived p := by
  unfold bodiesReceived
  rw [← receivedIn_filter, h, receivedIn_filter]

theorem bodiesPushed_congr
    (h : k'.trace.filter (·.isMessage) = k.trace.filter (·.isMessage)) (p : PcbPtr) :
    k'.bodiesPushed p = k.bodiesPushed p := by
  unfold bodiesPushed
  rw [messagesPushed_congr h]

/-! ### Code that moves no message -/

/-- A process that is in no send before it enters the table sends nothing. -/
theorem Quiet.pendingSend (h : Quiet k k')
    (hunused : ∀ p, ¬ k.IsProcess p → k.pendingSend p = []) (p : PcbPtr) :
    k'.pendingSend p = k.pendingSend p := by
  rcases h.block p with hsame | ⟨hp, hnone⟩
  · simp only [Kernel.pendingSend, hsame.send]
  · rw [hunused p hp, Kernel.pendingSend, hnone.send]
    rfl

/-- Nothing is stored for a process that is new to the table. -/
theorem RingsHold.empty_of_unused (hk : k.RingsHold) (hp : ¬ k.IsProcess p) :
    k.bodiesReceived p = [] ∧ (k.pcb p).messagesBuffer.contents = [] := by
  have hqueued := hk.queued p
  rw [(hk.unused p hp).1] at hqueued
  obtain ⟨hreceived, hcontents⟩ := List.append_eq_nil_iff.mp hqueued.symm
  exact ⟨hreceived, List.map_eq_nil_iff.mp hcontents⟩

theorem RingsHold.quiet (hk : k.RingsHold) (h : Quiet k k') : k'.RingsHold where
  bounded p := by
    rcases h.block p with hsame | ⟨-, hnone⟩
    · rw [hsame.ring]
      exact hk.bounded p
    · rw [hnone.ring]
      exact bounded_zeroed
  queued p := by
    rw [bodiesPushed_congr h.trace, bodiesReceived_congr h.trace]
    rcases h.block p with hsame | ⟨hp, hnone⟩
    · rw [hsame.ring]
      exact hk.queued p
    · rw [hnone.ring, contents_zeroed, (hk.unused p hp).1, (hk.empty_of_unused hp).1]
      rfl
  unused p hp := by
    have hp' : ¬ k.IsProcess p := fun hp' => hp (h.grows p hp')
    rw [bodiesPushed_congr h.trace, h.pendingSend fun r hr => (hk.unused r hr).2]
    exact hk.unused p hp'

/-- The two kinds of waiting processes. -/
def ReceiversWait (k : Kernel) : Prop :=
  ∀ p, k.IsProcess p → (k.pcb p).state = .waitingToReceiveMessage → k.RingEmpty p

def SendersWait (k : Kernel) : Prop :=
  ∀ p, k.IsProcess p → (k.pcb p).state = .waitingToSendMessage →
    ∃ d body, (k.pcb p).resume = .sendMessage d body ∧ k.IsProcess d ∧ k.RingFull d

/-- A process that waits after such code waited before it, in the table and with the same
ring. -/
theorem Quiet.waiting (h : Quiet k k') (hp : k'.IsProcess p)
    (hst : (k'.pcb p).state = .waitingToReceiveMessage
      ∨ (k'.pcb p).state = .waitingToSendMessage) :
    k.IsProcess p ∧ (k.pcb p).SameMail (k'.pcb p) := by
  have hnot : ¬ (k'.pcb p).NoMail := fun hnone => hst.elim hnone.receives hnone.sends
  have hp' := (h.joins p hp).resolve_right hnot
  exact ⟨hp', (h.block p).resolve_right fun hfresh => hfresh.1 hp'⟩

theorem Quiet.ring (h : Quiet k k') (hp : k.IsProcess p) :
    (k'.pcb p).messagesBuffer = (k.pcb p).messagesBuffer :=
  ((h.block p).resolve_right fun hfresh => hfresh.1 hp).ring

theorem ReceiversWait.quiet (hk : k.ReceiversWait) (h : Quiet k k') : k'.ReceiversWait := by
  intro p hp hst
  obtain ⟨hp', hsame⟩ := h.waiting hp (Or.inl hst)
  unfold RingEmpty
  rw [hsame.ring]
  exact hk p hp' (hsame.receives hst)

theorem SendersWait.quiet (hk : k.SendersWait) (h : Quiet k k') : k'.SendersWait := by
  intro p hp hst
  obtain ⟨hp', hsame⟩ := h.waiting hp (Or.inr hst)
  obtain ⟨hst', hresume⟩ := hsame.sends hst
  obtain ⟨d, body, hpoint, hd, hfull⟩ := hk p hp' hst'
  refine ⟨d, body, hresume.trans hpoint, h.grows d hd, ?_⟩
  unfold RingFull
  rw [h.ring hd]
  exact hfull

theorem Mailboxes.quiet (hk : k.Mailboxes) (h : Quiet k k') : k'.Mailboxes :=
  { hk.toRingsHold.quiet h with
    receivers := ReceiversWait.quiet hk.receivers h
    senders := SendersWait.quiet hk.senders h }

/-! ### What a step does to messages -/

/-- Between the two states the call `call` of `send_message` begins, if there is one, and the
call `done` stores its message and returns. -/
structure Moves (k k' : Kernel) (call done : Option Message) : Prop where
  mail : k'.Mailboxes
  pushed : k'.messagesPushed = k.messagesPushed ++ done.toList
  sends : ∀ p, k'.sends p = k.sends p ++ call.toList.filter (·.sourceProcess = p)

namespace Moves

variable {k₁ : Kernel} {call done : Option Message}

theorem thenQuiet (h : Moves k k₁ call done) (hq : Quiet k₁ k') : Moves k k' call done where
  mail := h.mail.quiet hq
  pushed := by rw [messagesPushed_congr hq.trace, h.pushed]
  sends p := by
    rw [← h.sends p]
    unfold Kernel.sends
    rw [messagesPushed_congr hq.trace, hq.pendingSend fun r hr => (h.mail.unused r hr).2]

theorem refl (hk : k.Mailboxes) : Moves k k none none :=
  ⟨hk, (List.append_nil _).symm, fun _ => (List.append_nil _).symm⟩

theorem of_quiet (hk : k.Mailboxes) (h : Quiet k k') : Moves k k' none none :=
  (refl hk).thenQuiet h

end Moves

/-! ### Resume points -/

section Suspend
variable (hk : k.Mailboxes) (hstate : k.current.state ≠ .waitingToSendMessage)
  {point : ResumePoint}

theorem suspendAt_pcb (k : Kernel) (point : ResumePoint) (r : PcbPtr) :
    (k.suspendAt point).pcb r
      = if r = k.currentProcess then { k.current with resume := point } else k.pcb r :=
  modifyPcb_pcb k k.currentProcess r fun b => { b with resume := point }

/-- The new resume point says what the current process is sending. -/
theorem pendingSend_suspendAt (k : Kernel) (point : ResumePoint) (p : PcbPtr) :
    (k.suspendAt point).pendingSend p
      = if p = k.currentProcess then
          (point.send?.map fun send => (⟨p, send.1, send.2⟩ : Message)).toList
        else k.pendingSend p := by
  unfold pendingSend
  rw [suspendAt_pcb]
  split <;> rfl

include hk hstate in
/-- A process that waits at no ring may go on anywhere. -/
theorem Mailboxes.suspendAt (hcur : k.IsProcess k.currentProcess) :
    (k.suspendAt point).Mailboxes := by
  have hsame : ∀ r, ((k.suspendAt point).pcb r).messagesBuffer = (k.pcb r).messagesBuffer
      ∧ ((k.suspendAt point).pcb r).state = (k.pcb r).state := by
    intro r
    rw [suspendAt_pcb]
    split
    · next hr => rw [hr]; exact ⟨rfl, rfl⟩
    · exact ⟨rfl, rfl⟩
  refine { bounded := ?_, queued := ?_, unused := ?_, receivers := ?_, senders := ?_ }
  · intro p
    rw [(hsame p).1]
    exact hk.bounded p
  · intro p
    rw [(hsame p).1]
    exact hk.queued p
  · intro p hp
    have hpc : p ≠ k.currentProcess := fun he => hp (he ▸ hcur)
    refine ⟨(hk.unused p hp).1, ?_⟩
    rw [pendingSend_suspendAt, if_neg hpc]
    exact (hk.unused p hp).2
  · intro p hp hst
    unfold RingEmpty
    rw [(hsame p).1]
    exact hk.receivers p hp ((hsame p).2 ▸ hst)
  · intro p hp hst
    rw [(hsame p).2] at hst
    obtain ⟨d, body, hpoint, hd, hfull⟩ := hk.senders p hp hst
    refine ⟨d, body, ?_, hd, ?_⟩
    · rw [suspendAt_pcb, if_neg fun he => hstate (by rw [current, ← he, hst])]
      exact hpoint
    · unfold RingFull
      rw [(hsame d).1]
      exact hfull

end Suspend

/-- A process begins to wait at a ring that gives it a reason to. -/
theorem Mailboxes.setState (hk : k.Mailboxes) {st : ProcessState}
    (hreceive : st = .waitingToReceiveMessage → k.RingEmpty p)
    (hsend : st = .waitingToSendMessage →
      ∃ d body, (k.pcb p).resume = .sendMessage d body ∧ k.IsProcess d ∧ k.RingFull d) :
    (k.setState p st).Mailboxes := by
  have hblock : ∀ r, (k.setState p st).pcb r
      = if r = p then (k.pcb p).withState st else k.pcb r := fun r => modifyPcb_pcb ..
  have hsame : ∀ r, ((k.setState p st).pcb r).messagesBuffer = (k.pcb r).messagesBuffer
      ∧ ((k.setState p st).pcb r).resume = (k.pcb r).resume := by
    intro r
    rw [hblock]
    split
    · next hr => rw [hr]; exact ⟨rfl, rfl⟩
    · exact ⟨rfl, rfl⟩
  have hstate : ∀ r, ((k.setState p st).pcb r).state = if r = p then st else (k.pcb r).state := by
    intro r
    rw [hblock]
    split <;> rfl
  refine { bounded := ?_, queued := ?_, unused := ?_, receivers := ?_, senders := ?_ }
  · intro r
    rw [(hsame r).1]
    exact hk.bounded r
  · intro r
    rw [(hsame r).1]
    exact hk.queued r
  · intro r hr
    refine ⟨(hk.unused r hr).1, ?_⟩
    rw [pendingSend, (hsame r).2]
    exact (hk.unused r hr).2
  · intro r hr hst
    unfold RingEmpty
    rw [(hsame r).1]
    rw [hstate] at hst
    split at hst
    · next hrp => rw [hrp]; exact hreceive hst
    · exact hk.receivers r hr hst
  · intro r hr hst
    rw [hstate] at hst
    have hwait : ∃ d body, (k.pcb r).resume = .sendMessage d body ∧ k.IsProcess d
        ∧ k.RingFull d := by
      split at hst
      · next hrp => rw [hrp]; exact hsend hst
      · exact hk.senders r hr hst
    obtain ⟨d, body, hpoint, hd, hfull⟩ := hwait
    refine ⟨d, body, (hsame r).2.trans hpoint, hd, ?_⟩
    unfold RingFull
    rw [(hsame d).1]
    exact hfull

theorem setState_pendingSend (st : ProcessState) (r : PcbPtr) :
    (k.setState p st).pendingSend r = k.pendingSend r := by
  unfold pendingSend Kernel.setState
  rw [modifyPcb_pcb]
  split
  · next hr => rw [hr]; rfl
  · rfl

/-! ### Sending -/

/-- The state in which `push_message` has stored the message. -/
def stored (k : Kernel) (d : PcbPtr) (buffer : MessagesCircularBuffer) (message : Message) :
    Kernel :=
  (k.modifyPcb d (setMessages buffer)).log (.pushed message)

section Store
variable {d : PcbPtr} {buffer : MessagesCircularBuffer} {message : Message}

theorem stored_pcb (r : PcbPtr) : (k.stored d buffer message).pcb r
    = if r = d then setMessages buffer (k.pcb d) else k.pcb r :=
  modifyPcb_pcb ..

theorem stored_state (r : PcbPtr) :
    ((k.stored d buffer message).pcb r).state = (k.pcb r).state
      ∧ ((k.stored d buffer message).pcb r).resume = (k.pcb r).resume := by
  rw [stored_pcb]
  split
  · next hr => rw [hr]; exact ⟨rfl, rfl⟩
  · exact ⟨rfl, rfl⟩

theorem stored_ring_of_ne {r : PcbPtr} (h : r ≠ d) :
    ((k.stored d buffer message).pcb r).messagesBuffer = (k.pcb r).messagesBuffer := by
  rw [stored_pcb, if_neg h]

theorem stored_pendingSend (p : PcbPtr) :
    (k.stored d buffer message).pendingSend p = k.pendingSend p := by
  unfold pendingSend
  rw [(stored_state p).2]

theorem stored_pushed :
    (k.stored d buffer message).messagesPushed = k.messagesPushed ++ [message] :=
  List.filterMap_append

theorem stored_received (p : PcbPtr) :
    (k.stored d buffer message).bodiesReceived p = k.bodiesReceived p := by
  show receivedIn (k.trace ++ [_]) p = receivedIn k.trace p
  unfold receivedIn
  rw [List.filterMap_append]
  exact List.append_nil _

theorem stored_bodies (hm : message.destinationProcess = d) (p : PcbPtr) :
    (k.stored d buffer message).bodiesPushed p
      = k.bodiesPushed p ++ if p = d then [message.body] else [] := by
  unfold bodiesPushed
  rw [stored_pushed, List.filter_append, List.map_append]
  by_cases hp : p = d
  · rw [if_pos hp, List.filter_cons_of_pos (by simp [hm, hp])]
    rfl
  · rw [if_neg hp, List.filter_cons_of_neg (by simpa [hm] using Ne.symm hp)]
    rfl

/-- The ring and the history grow by the same message. -/
theorem RingsHold.stored (hk : k.RingsHold) (hd : k.IsProcess d)
    (hm : message.destinationProcess = d)
    (hpush : pcbRing.push (k.pcb d).messagesBuffer message = some buffer) :
    (k.stored d buffer message).RingsHold := by
  obtain ⟨hbounded, hcontents, -⟩ := push_contents (hk.bounded d) hpush
  have hring : ((k.stored d buffer message).pcb d).messagesBuffer = buffer := by
    rw [stored_pcb, if_pos rfl]
    rfl
  refine { bounded := fun p => ?_, queued := fun p => ?_, unused := fun p hp => ?_ }
  · by_cases hpd : p = d
    · rw [hpd, hring]
      exact hbounded
    · rw [stored_ring_of_ne hpd]
      exact hk.bounded p
  · rw [stored_bodies hm, stored_received, hk.queued p, List.append_assoc]
    by_cases hpd : p = d
    · rw [if_pos hpd, hpd, hring, hcontents, List.map_append]
      rfl
    · rw [if_neg hpd, stored_ring_of_ne hpd, List.append_nil]
  · have hpd : p ≠ d := fun he => hp (he ▸ hd)
    rw [stored_bodies hm, if_neg hpd, (hk.unused p hp).1, stored_pendingSend]
    exact ⟨rfl, (hk.unused p hp).2⟩

end Store

/-- `push_message` stores the message and wakes the receiver. -/
theorem pushMessage_quiet {alg : SchedAlgorithm} {d : PcbPtr} {message : Message}
    (hm : message.destinationProcess = d) (hpush : k.pushMessage alg d message = some k') :
    ∃ buffer, pcbRing.push (k.pcb d).messagesBuffer message = some buffer
      ∧ Quiet (k.stored d buffer message) k' ∧ k'.currentProcess = k.currentProcess
      ∧ (k'.pcb d).state ≠ .waitingToReceiveMessage := by
  unfold Kernel.pushMessage at hpush
  cases hring : pcbRing.push (k.pcb d).messagesBuffer message with
  | none => rw [hring] at hpush; exact nomatch hpush
  | some buffer =>
      rw [hring, hm] at hpush
      change (if ((k.stored d buffer message).pcb d).state = .waitingToReceiveMessage then
        some (((k.stored d buffer message).setState d .ready).enqueueProcess alg d)
        else some (k.stored d buffer message)) = some k' at hpush
      refine ⟨buffer, rfl, ?_⟩
      split at hpush
      · obtain rfl := Option.some.inj hpush
        have hready := Quiet.setState (k.stored d buffer message) d .ready (by decide)
          (by decide)
        have henqueue := Quiet.enqueueProcess alg ((k.stored d buffer message).setState d .ready) d
        refine ⟨hready.trans henqueue, Kernel.rest_currentProcess (enqueueProcess_rest alg _ d),
          fun hst => ?_⟩
        -- The receiver is ready before it is enqueued.
        have hawake : (((k.stored d buffer message).setState d .ready).pcb d).state = .ready :=
          congrArg PCB.state (modifyPcb_pcb_self ..)
        rcases henqueue.block d with hsame | ⟨-, hnone⟩
        · rw [hsame.receives hst] at hawake
          exact nomatch hawake
        · exact hnone.receives hst
      · next hawake =>
          obtain rfl := Option.some.inj hpush
          exact ⟨.refl _, rfl, hawake⟩

/-- Once the receiver is awake, the mailboxes are in order again. -/
theorem Mailboxes.push {d : PcbPtr} {buffer : MessagesCircularBuffer} {message : Message}
    (hk : k.Mailboxes) (hd : k.IsProcess d) (hm : message.destinationProcess = d)
    (hpush : pcbRing.push (k.pcb d).messagesBuffer message = some buffer)
    (hq : Quiet (k.stored d buffer message) k')
    (hawake : (k'.pcb d).state ≠ .waitingToReceiveMessage) : k'.Mailboxes := by
  obtain ⟨-, -, hroom⟩ := push_contents (hk.bounded d) hpush
  refine { (hk.toRingsHold.stored hd hm hpush).quiet hq with receivers := ?_, senders := ?_ }
  · intro p hp hst
    obtain ⟨hp', hsame⟩ := hq.waiting hp (Or.inl hst)
    have hst' := hsame.receives hst
    have hpd : p ≠ d := fun he => hawake (he ▸ hst)
    rw [(stored_state p).1] at hst'
    unfold RingEmpty
    rw [hsame.ring, stored_ring_of_ne hpd]
    exact hk.receivers p hp' hst'
  · intro p hp hst
    obtain ⟨hp', hsame⟩ := hq.waiting hp (Or.inr hst)
    obtain ⟨hst', hresume⟩ := hsame.sends hst
    rw [(stored_state p).1] at hst'
    obtain ⟨d', body, hpoint, hd', hfull⟩ := hk.senders p hp' hst'
    -- A sender waits at another ring, since there was room in this one.
    have hne : d' ≠ d := fun he => hroom (he ▸ hfull)
    refine ⟨d', body, ?_, hq.grows d' hd', ?_⟩
    · rw [hresume, (stored_state p).2, hpoint]
    · unfold RingFull
      rw [hq.ring hd', stored_ring_of_ne hne]
      exact hfull

/-- The current process is in a system call. -/
structure InCall (k : Kernel) : Prop where
  mail : k.Mailboxes
  process : k.IsProcess k.currentProcess
  running : k.current.state = .running

/-- A call that stores `done` and leaves `pending`, where its process had one message to
send. -/
theorem sends_of {message : Message} {call : Option Message} {done pending : List Message}
    (hsource : message.sourceProcess = k.currentProcess)
    (hcall : k.pendingSend k.currentProcess ++ call.toList = [message])
    (hdone : done ++ pending = [message]) (p : PcbPtr) :
    (k.messagesPushed ++ done).filter (·.sourceProcess = p)
        ++ (if p = k.currentProcess then pending else k.pendingSend p)
      = k.sends p ++ call.toList.filter (·.sourceProcess = p) := by
  have hsources : ∀ m, m ∈ call.toList ∨ m ∈ done → m.sourceProcess = k.currentProcess := by
    intro m hm
    have hmem : m ∈ [message] := hm.elim
      (fun hm => hcall ▸ List.mem_append_right _ hm) fun hm => hdone ▸ List.mem_append_left _ hm
    rw [List.mem_singleton.mp hmem, hsource]
  unfold Kernel.sends
  rw [List.filter_append, List.append_assoc, List.append_assoc]
  congr 1
  by_cases hp : p = k.currentProcess
  · rw [if_pos hp,
      List.filter_eq_self.mpr fun m hm => by simpa [hp] using hsources m (Or.inr hm),
      List.filter_eq_self.mpr fun m hm => by simpa [hp] using hsources m (Or.inl hm), hp, hcall,
      hdone]
  · have hnone : ∀ m, m ∈ call.toList ∨ m ∈ done → ¬ m.sourceProcess = p := fun m hm he =>
      hp (he.symm.trans (hsources m hm))
    rw [if_neg hp,
      List.filter_eq_nil_iff.mpr fun m hm => by simpa using hnone m (Or.inr hm),
      List.filter_eq_nil_iff.mpr fun m hm => by simpa using hnone m (Or.inl hm),
      List.nil_append, List.append_nil]

namespace InCall

variable {alg : SchedAlgorithm} {d : PcbPtr} {message : Message} {call : Option Message}

/-- The message is stored, and `send_message` returns 0. -/
theorem send_returns (h : k.InCall) (hd : k.IsProcess d)
    (hsource : message.sourceProcess = k.currentProcess) (hdest : message.destinationProcess = d)
    (hcall : k.pendingSend k.currentProcess ++ call.toList = [message]) {k₀ : Kernel}
    (hpush : k.pushMessage alg d message = some k₀) :
    (k₀.returnToUser 0).1.current.regs.registers 0 = 0
      ∧ Moves k (k₀.returnToUser 0).1 call (some message) := by
  obtain ⟨buffer, hring, hpushed, hcur, hawake⟩ := pushMessage_quiet hdest hpush
  obtain ⟨k₁, hk₁⟩ : ∃ k₁, k₁ = k₀.modifyCurrent fun b =>
    { b with regs := b.regs.setRegister0 (BitVec.ofInt 64 0) } := ⟨_, rfl⟩
  have hreturn : (k₀.returnToUser 0).1 = k₁.suspendAt .user := by rw [hk₁]; rfl
  have hset : Quiet k₀ k₁ := hk₁ ▸ Quiet.setRegister0 k₀ _
  have hq := hpushed.trans hset
  have hcur₁ : k₁.currentProcess = k.currentProcess := by rw [hk₁]; exact hcur
  have hmail : k₁.Mailboxes := h.mail.push hd hdest hring hq fun hst => by
    rcases hset.block d with hsame | ⟨-, hnone⟩
    · exact hawake (hsame.receives hst)
    · exact hnone.receives hst
  have hstate : k₁.current.state ≠ .waitingToSendMessage := by
    rw [current, hcur₁]
    intro hst
    rcases hq.block k.currentProcess with hsame | ⟨-, hnone⟩
    · have hst' := (hsame.sends hst).1
      rw [(stored_state _).1] at hst'
      cases h.running.symm.trans hst'
    · exact hnone.sends hst
  have hprocess : k₁.IsProcess k₁.currentProcess := by
    rw [hcur₁]
    exact hq.grows _ h.process
  have hhistory : k₁.messagesPushed = k.messagesPushed ++ [message] := by
    rw [messagesPushed_congr hq.trace, stored_pushed]
  have hpending : ∀ p, k₁.pendingSend p = k.pendingSend p := fun p => by
    rw [hq.pendingSend fun r hr => by
      rw [stored_pendingSend]
      exact (h.mail.unused r hr).2, stored_pendingSend]
  rw [hreturn]
  constructor
  · rw [hk₁]
    simp [current, suspendAt, modifyCurrent, modifyPcb, PtRegs.setRegister0]
  · refine ⟨hmail.suspendAt hstate hprocess, hhistory, fun p => ?_⟩
    rw [← sends_of hsource hcall (List.append_nil [message]) p, ← hhistory]
    show k₁.messagesPushed.filter _ ++ (k₁.suspendAt .user).pendingSend p = _
    rw [pendingSend_suspendAt, hcur₁, hpending]
    rfl

/-- The ring is full, and `send_message` waits. -/
theorem send_waits (h : k.InCall) (hd : k.IsProcess d) {body : Body}
    (hmessage : message = ⟨k.currentProcess, d, body⟩)
    (hcall : k.pendingSend k.currentProcess ++ call.toList = [message]) (hfull : k.RingFull d) :
    Moves k ((k.setState k.currentProcess .waitingToSendMessage).suspendAt
      (.sendMessage d body)) call none := by
  -- The process is at its resume point before it waits there.
  obtain ⟨k₁, hk₁⟩ : ∃ k₁, k₁ = k.suspendAt (.sendMessage d body) := ⟨_, rfl⟩
  have hcomm : (k.setState k.currentProcess .waitingToSendMessage).suspendAt
      (.sendMessage d body) = k₁.setState k.currentProcess .waitingToSendMessage := by
    rw [hk₁]
    simp [suspendAt, setState, modifyCurrent, modifyPcb, PCB.withState]
  have hmail : k₁.Mailboxes := hk₁ ▸ h.mail.suspendAt (by rw [h.running]; decide) h.process
  have hpoint : (k₁.pcb k.currentProcess).resume = .sendMessage d body := by
    rw [hk₁, suspendAt_pcb, if_pos rfl]
  have hfull₁ : k₁.RingFull d := by
    have hring : (k₁.pcb d).messagesBuffer = (k.pcb d).messagesBuffer := by
      rw [hk₁, suspendAt_pcb]
      split
      · next hdc => rw [hdc]; rfl
      · rfl
    unfold RingFull
    rw [hring]
    exact hfull
  rw [hcomm]
  refine ⟨hmail.setState (fun hst => by cases hst) fun _ => ⟨d, body, hpoint, ?_, hfull₁⟩,
    ?_, fun p => ?_⟩
  · rw [hk₁]
    exact hd
  · rw [hk₁]
    exact (List.append_nil _).symm
  · have hpending := sends_of (by rw [hmessage]) hcall
      (show ([] : List Message) ++ [message] = [message] from rfl) p
    rw [List.append_nil] at hpending
    rw [← hpending]
    unfold Kernel.sends
    rw [setState_pendingSend, hk₁, pendingSend_suspendAt, hmessage]
    by_cases hp : p = k.currentProcess
    · rw [if_pos hp, if_pos hp, ← hp]
      rfl
    · rw [if_neg hp, if_neg hp]
      rfl

end InCall

/-! ### Receiving -/

/-- The wake-up loop of `receive_message` wakes every sender. -/
theorem wakeProcesses_senders (alg : SchedAlgorithm) (slots : List Nat) (k : Kernel) :
    ∀ i ∈ slots, ∀ p, k.processes i = some p →
      ((k.wakeProcesses alg (fun b => b.state = .waitingToSendMessage) id slots).pcb p).state
        ≠ .waitingToSendMessage := by
  induction slots generalizing k with
  | nil => exact fun i hi => nomatch hi
  | cons i slots ih =>
      obtain ⟨k₁, hk₁⟩ : ∃ k₁, k₁ = k.wakeProcesses alg (fun b => b.state = .waitingToSendMessage)
        id [i] := ⟨_, rfl⟩
      have hrest : k.wakeProcesses alg (fun b => b.state = .waitingToSendMessage) id (i :: slots)
          = k₁.wakeProcesses alg (fun b => b.state = .waitingToSendMessage) id slots := by
        rw [hk₁]
        rfl
      have hproc : k₁.processes = k.processes := by
        rw [hk₁]
        exact Kernel.rest_processes (wakeProcesses_rest alg _ _ _ k)
      have hquiet : Quiet k₁ (k₁.wakeProcesses alg (fun b => b.state = .waitingToSendMessage) id
          slots) := Quiet.wakeProcesses alg (fun b => .refl b) slots k₁
      intro j hj p hp
      rw [hrest]
      rcases List.mem_cons.mp hj with rfl | hj
      · -- The process is awake after its own round, and the others do not touch it.
        intro hst
        have hst₁ : (k₁.pcb p).state = .waitingToSendMessage := by
          rcases hquiet.block p with hsame | ⟨-, hnone⟩
          · exact (hsame.sends hst).1
          · exact absurd hst hnone.sends
        rw [hk₁, wakeProcesses, List.foldl_cons, List.foldl_nil, hp] at hst₁
        dsimp only at hst₁
        split at hst₁
        · obtain ⟨k₂, hk₂⟩ : ∃ k₂, k₂ = (k.modifyPcb p id).setState p .ready := ⟨_, rfl⟩
          rw [← hk₂] at hst₁
          have hready : (k₂.pcb p).state = .ready := by
            rw [hk₂]
            exact congrArg PCB.state (modifyPcb_pcb_self ..)
          rcases (Quiet.enqueueProcess alg k₂ p).block p with hsame | ⟨-, hnone⟩
          · rw [(hsame.sends hst₁).1] at hready
            exact nomatch hready
          · exact hnone.sends hst₁
        · next hnot => exact hnot (by simpa using hst₁)
      · exact ih k₁ j hj p (by rw [hproc]; exact hp)

/-- The state in which `receive_message` has taken the message. -/
def taken (k : Kernel) (buffer : MessagesCircularBuffer) (message : Message) : Kernel :=
  (k.modifyPcb k.currentProcess (setMessages buffer)).log
    (.received k.currentProcess message.body)

section Take
variable {buffer : MessagesCircularBuffer} {message : Message}

theorem taken_pcb (r : PcbPtr) : (k.taken buffer message).pcb r
    = if r = k.currentProcess then setMessages buffer k.current else k.pcb r :=
  modifyPcb_pcb ..

theorem taken_block (r : PcbPtr) :
    ((k.taken buffer message).pcb r).state = (k.pcb r).state
      ∧ ((k.taken buffer message).pcb r).resume = (k.pcb r).resume := by
  rw [taken_pcb]
  split
  · next hr => rw [hr]; exact ⟨rfl, rfl⟩
  · exact ⟨rfl, rfl⟩

theorem taken_pushed : (k.taken buffer message).messagesPushed = k.messagesPushed := by
  show pushedIn (k.trace ++ [_]) = pushedIn k.trace
  unfold pushedIn
  rw [List.filterMap_append]
  exact List.append_nil _

theorem taken_received (p : PcbPtr) : (k.taken buffer message).bodiesReceived p
    = k.bodiesReceived p ++ if k.currentProcess = p then [message.body] else [] := by
  show receivedIn (k.trace ++ [_]) p = _
  unfold receivedIn
  rw [List.filterMap_append]
  split
  · next hp => simp [bodiesReceived, receivedIn, hp]
  · next hp => simp [bodiesReceived, receivedIn, hp]

/-- The ring shrinks by the message that the process gets. -/
theorem RingsHold.taken (hk : k.RingsHold)
    (hpop : pcbRing.pop k.current.messagesBuffer = some (buffer, message)) :
    (k.taken buffer message).RingsHold := by
  obtain ⟨hbounded, hcontents⟩ := pop_contents (hk.bounded _) hpop
  have hring : ((k.taken buffer message).pcb k.currentProcess).messagesBuffer = buffer := by
    rw [taken_pcb, if_pos rfl]
    rfl
  have hother : ∀ r, r ≠ k.currentProcess →
      ((k.taken buffer message).pcb r).messagesBuffer = (k.pcb r).messagesBuffer := fun r hr => by
    rw [taken_pcb, if_neg hr]
  have hpushed : ∀ r, (k.taken buffer message).bodiesPushed r = k.bodiesPushed r := fun r => by
    unfold bodiesPushed
    rw [taken_pushed]
  refine { bounded := fun p => ?_, queued := fun p => ?_, unused := fun p hp => ?_ }
  · by_cases hpc : p = k.currentProcess
    · rw [hpc, hring]
      exact hbounded
    · rw [hother p hpc]
      exact hk.bounded p
  · rw [hpushed, taken_received, hk.queued p]
    by_cases hpc : p = k.currentProcess
    · rw [if_pos hpc.symm, hpc, hring, List.append_assoc]
      rw [show (k.pcb k.currentProcess).messagesBuffer.contents = message :: buffer.contents from
        hcontents]
      rfl
    · rw [if_neg (Ne.symm hpc), hother p hpc, List.append_nil]
  · refine ⟨(hpushed p).trans (hk.unused p hp).1, ?_⟩
    rw [pendingSend, (taken_block p).2]
    exact (hk.unused p hp).2

end Take

/-- One round of `receive_message`: it takes a message and wakes the senders, or it waits in
front of an empty ring. -/
theorem InCall.receiveMessage {alg : SchedAlgorithm} (h : k.InCall)
    (hsend : k.current.resume.send? = none) :
    Moves k (k.receiveMessage alg k.currentProcess).1 none none := by
  unfold Kernel.receiveMessage Kernel.popMessage
  cases hpop : pcbRing.pop (k.pcb k.currentProcess).messagesBuffer with
  | some r =>
      obtain ⟨buffer, message⟩ := r
      obtain ⟨k₁, hk₁⟩ : ∃ k₁, k₁ = (k.taken buffer message).wakeProcesses alg
        (fun b => b.state = .waitingToSendMessage) id (List.range N_PROCESSES) := ⟨_, rfl⟩
      have hresult : Moves k (k₁.suspendAt .user) none none := by
        have hwoken : Quiet (k.taken buffer message) k₁ := by
          rw [hk₁]
          exact Quiet.wakeProcesses alg (fun b => .refl b) _ _
        have hcur : k₁.currentProcess = k.currentProcess := by
          rw [hk₁]
          exact Kernel.rest_currentProcess (wakeProcesses_rest alg _ _ _ _)
        have hq : Quiet (k.taken buffer message) (k₁.suspendAt .user) := by
          refine hwoken.thenSuspend hcur ?_ ?_ rfl
          · rw [current, (taken_block _).1]
            exact fun hst => by cases h.running.symm.trans hst
          · rw [current, (taken_block _).2]
            exact hsend
        have hawake : ∀ p, (k₁.suspendAt .user).IsProcess p →
            ((k₁.suspendAt .user).pcb p).state ≠ .waitingToSendMessage := by
          rintro p ⟨i, hi, hslot⟩
          have hstate : ((k₁.suspendAt .user).pcb p).state = (k₁.pcb p).state := by
            rw [suspendAt_pcb]
            split
            · next hp => rw [hp]; rfl
            · rfl
          have hproc : k₁.processes = k.processes := by
            rw [hk₁]
            exact Kernel.rest_processes (wakeProcesses_rest alg _ _ _ _)
          rw [hstate, hk₁]
          exact wakeProcesses_senders alg _ _ i (List.mem_range.mpr hi) p (hproc ▸ hslot)
        refine ⟨{ (h.mail.toRingsHold.taken hpop).quiet hq with
          receivers := fun p hp hst => ?_, senders := fun p hp hst => absurd hst (hawake p hp) },
          ?_, fun p => ?_⟩
        · obtain ⟨hp', hsame⟩ := hq.waiting hp (Or.inl hst)
          have hst' := hsame.receives hst
          rw [(taken_block p).1] at hst'
          have hpc : p ≠ k.currentProcess := fun he => by
            rw [he] at hst'
            cases h.running.symm.trans hst'
          unfold RingEmpty
          rw [hsame.ring, taken_pcb, if_neg hpc]
          exact h.mail.receivers p hp' hst'
        · rw [messagesPushed_congr hq.trace, taken_pushed]
          exact (List.append_nil _).symm
        · have hpending : ∀ r, (k.taken buffer message).pendingSend r = k.pendingSend r :=
            fun r => by
              unfold pendingSend
              rw [(taken_block r).2]
          have hkept := hq.pendingSend (fun r hr => by
            rw [hpending]
            exact (h.mail.unused r hr).2) p
          unfold Kernel.sends
          rw [messagesPushed_congr hq.trace, taken_pushed, hkept, hpending]
          exact (List.append_nil _).symm
      rw [hk₁] at hresult
      exact hresult
  | none =>
      have hempty : k.RingEmpty k.currentProcess := by
        by_contra hne
        have hsome := hpop.symm.trans (RingMemory.pop_of_ne hne)
        cases hsome
      have hwait : (k.setState k.currentProcess .waitingToReceiveMessage).Mailboxes :=
        h.mail.setState (fun _ => hempty) fun hst => by cases hst
      have hsuspend : ((k.setState k.currentProcess .waitingToReceiveMessage).suspendAt
          .receiveMessage).Mailboxes := hwait.suspendAt (by
        show ((k.setState k.currentProcess _).pcb k.currentProcess).state ≠ _
        rw [setState, modifyPcb_pcb_self]
        show ProcessState.waitingToReceiveMessage ≠ _
        decide) h.process
      have hmoves : Moves k ((k.setState k.currentProcess
          .waitingToReceiveMessage).suspendAt .receiveMessage) none none := by
        refine ⟨hsuspend, (List.append_nil _).symm, fun p => ?_⟩
        refine Eq.trans ?_ (List.append_nil _).symm
        unfold Kernel.sends
        rw [pendingSend_suspendAt]
        split
        · next hp =>
            have hnone : k.pendingSend p = [] := by
              rw [pendingSend, hp]
              exact congrArg (fun x => (Option.map _ x).toList) hsend
            rw [hnone]
            rfl
        · rw [setState_pendingSend]
          rfl
      exact hmoves.thenQuiet (Quiet.schedule _)

end Kernel

/-! ### Steps -/

section Steps
variable {alg : SchedAlgorithm} {k k' : Kernel} {s : Sched}

theorem inCall_of_serving (h : Serving alg k s) (hk : k.Mailboxes) : k.InCall where
  mail := hk
  process := by
    rw [h.refines.isProcess_iff, h.refines.currentProcess]
    exact h.inv.cpu.current
  running := by
    rw [Kernel.current, h.refines.currentProcess, h.refines.state_eq]
    exact h.running

/-- One round of `send_message`, as its caller sees it. -/
theorem sendMessage_moves (h : k.InCall) {d : PcbPtr} (hd : k.IsProcess d) {body : Body}
    {call : Option Message}
    (hcall : k.pendingSend k.currentProcess ++ call.toList = [⟨k.currentProcess, d, body⟩])
    {k' : Kernel} {c : Control} (hr : k.sendMessage alg k.currentProcess d body = (k', c)) :
    k.Moves k' call (match c with
      | .returns =>
          if k'.current.regs.registers 0 = 0 then some ⟨k.currentProcess, d, body⟩ else none
      | .schedules => none) := by
  simp only [Kernel.sendMessage] at hr
  cases hpush : k.pushMessage alg d ⟨k.currentProcess, d, body⟩ with
  | some k₀ =>
      rw [hpush] at hr
      obtain ⟨hzero, hmoves⟩ := h.send_returns hd rfl rfl hcall hpush
      change k₀.returnToUser 0 = (k', c) at hr
      rw [hr] at hzero hmoves
      obtain rfl : Control.returns = c := congrArg Prod.snd hr
      dsimp only
      rw [if_pos hzero]
      exact hmoves
  | none =>
      rw [hpush] at hr
      obtain ⟨rfl, rfl⟩ := Prod.mk.inj hr
      exact (h.send_waits hd rfl hcall (Kernel.ringFull_of_push hpush)).thenQuiet (.schedule _)

theorem sendReturn_of_none {t : Trap} (h : k.sendWork t = none) : k.sendReturn alg t = none := by
  unfold Kernel.sendReturn
  split
  · rw [h, ite_self]
  · rfl

/-- A trap that moves no message. -/
theorem moves_quiet (hk : k.Mailboxes) {t : Trap} {r : Kernel × Control} (hcall : k.sendCall t = none)
    (hwork : k.sendWork t = none) (hq : k.Quiet r.1) :
    k.Moves r.1 (k.sendCall t) (k.sendReturn alg t) := by
  rw [hcall, sendReturn_of_none hwork]
  exact .of_quiet hk hq

theorem tableEnds (h : Refines k s) (hinv : s.Inv alg) : k.TableEnds := by
  intro i hi
  cases hslot : k.processes i with
  | none => rfl
  | some p =>
      rw [h.processes] at hslot
      rw [h.nProcesses] at hi
      exact absurd (hinv.table.slot hslot).1 (Nat.not_lt.mpr hi)

/-- The continuation of a call that was switched out. -/
theorem resume_moves (h : Settled alg k s) (hk : k.Mailboxes) {r : Kernel × Control}
    (hr : k.enter alg .resume = some r) :
    k.Moves r.1 (k.sendCall .resume) (k.sendReturn alg .resume) := by
  have hserving := serving_of_resume h.refines h.inv h.running
  have hwork : k.current.resume.send? = none → k.sendWork .resume = none := fun hnone => by
    rw [Kernel.sendWork, hnone]
    rfl
  obtain ⟨k', c⟩ := r
  have hr' := hr
  simp only [Kernel.enter, Kernel.resumeCurrent] at hr'
  cases hpoint : k.current.resume with
  | sendMessage d body =>
      rw [hpoint] at hr' hserving
      have hcall := inCall_of_serving (hserving (by simp) (by simp) rfl) hk
      have hd : k.IsProcess d := by
        rw [h.refines.isProcess_iff]
        refine h.inv.points.destination h.inv.cpu.current (?_ : _ = ResumePoint.sendMessage d body)
        rw [h.refines.block_eq, ← h.refines.currentProcess]
        exact hpoint
      have hpending : k.pendingSend k.currentProcess = [⟨k.currentProcess, d, body⟩] := by
        rw [Kernel.pendingSend, show (k.pcb k.currentProcess).resume = _ from hpoint]
        rfl
      have hsend : k.pendingSend k.currentProcess ++ (none : Option Message).toList
          = [⟨k.currentProcess, d, body⟩] := by
        rw [hpending]
        rfl
      have hmoves := sendMessage_moves hcall hd hsend (Option.some.inj hr')
      have hwork : k.sendWork .resume = some ⟨k.currentProcess, d, body⟩ := by
        rw [Kernel.sendWork, hpoint]
        rfl
      unfold Kernel.sendReturn
      rw [hr, hwork]
      cases c <;> exact hmoves
  | receiveMessage =>
      rw [hpoint] at hr' hserving
      have hcall := inCall_of_serving (hserving (by simp) (by simp) rfl) hk
      rw [← Option.some.inj hr']
      rw [sendReturn_of_none (hwork (by rw [hpoint]; rfl))]
      exact hcall.receiveMessage (by rw [hpoint]; rfl)
  | inputOwner len =>
      rw [hpoint] at hr' hserving
      have hrun := (inCall_of_serving (hserving (by simp) (by simp) rfl) hk).running
      have hsend : k.current.resume.send? = none := by rw [hpoint]; rfl
      rw [← Option.some.inj hr']
      exact moves_quiet hk rfl (hwork hsend) (.syscallInput hrun hsend len)
  | inputRead maxLen line =>
      rw [hpoint] at hr'
      have hsend : k.current.resume.send? = none := by rw [hpoint]; rfl
      have hne : s.currentProcess ≠ .initProcess := by
        intro he
        have hresume := congrArg PCB.resume (h.refines.block_eq s.currentProcess)
        rw [← h.refines.currentProcess] at hresume
        change (s.block k.currentProcess).resume = k.current.resume at hresume
        rw [h.refines.currentProcess, he, hpoint] at hresume
        rcases h.inv.points.init with hinit | hinit <;> cases hinit.symm.trans hresume
      have hrun : k.current.state = .running := by
        rw [Kernel.current, h.refines.currentProcess, h.refines.state_eq]
        exact h.running hne
      rw [← Option.some.inj hr']
      exact moves_quiet hk rfl (hwork hsend) (.inputRead hrun hsend (.refl k) rfl maxLen line)
  | wait pid =>
      rw [hpoint] at hr' hserving
      have hrun := (inCall_of_serving (hserving (by simp) (by simp) rfl) hk).running
      have hsend : k.current.resume.send? = none := by rw [hpoint]; rfl
      rw [← Option.some.inj hr']
      exact moves_quiet hk rfl (hwork hsend) (.waitReturn hrun hsend pid)
  | _ => rw [hpoint] at hr'; cases hr'

/-- A trap, up to its return or its call of the scheduler. -/
theorem enter_moves (h : Settled alg k s) (hk : k.Mailboxes) {t : Trap} {r : Kernel × Control}
    (hr : k.enter alg t = some r) : k.Moves r.1 (k.sendCall t) (k.sendReturn alg t) := by
  have hserving := serving_of_user h.refines h.inv h.running
  have hrunning : k.InUserMode → k.current.state = .running := fun huser =>
    (inCall_of_serving (hserving huser) hk).running
  have hsend : k.InUserMode → k.current.resume.send? = none := fun huser => by
    rw [huser.2]
    rfl
  cases t with
  | kernelMain page =>
      obtain ⟨⟨hcur, hpoint, hfresh⟩, rfl⟩ := Kernel.guarded hr
      obtain ⟨hq, hcur'⟩ := Kernel.Quiet.copyProcess alg hfresh
        (tableEnds h.refines h.inv) PF_KTHREAD .empty
      refine moves_quiet hk rfl rfl (hq.thenSuspend hcur' ?_ (by rw [hpoint]; rfl) rfl)
      intro hst
      have hinit := h.inv.init_not_waiting
      rw [← h.refines.state_eq, ← hcur, show (k.pcb k.currentProcess).state = _ from hst] at hinit
      exact nomatch hinit
  | fork page mm =>
      obtain ⟨⟨huser, hfresh⟩, rfl⟩ := Kernel.guarded hr
      obtain ⟨hq, hcur⟩ := Kernel.Quiet.copyProcess alg hfresh
        (tableEnds h.refines h.inv) 0 mm
      exact moves_quiet hk rfl rfl (.returnToUser (hrunning huser) (hsend huser) hq hcur _)
  | exit =>
      obtain ⟨huser, rfl⟩ := Kernel.guarded hr
      exact moves_quiet hk rfl rfl (.exitProcess (hrunning huser) (hsend huser))
  | wait pid =>
      obtain ⟨huser, rfl⟩ := Kernel.guarded hr
      exact moves_quiet hk rfl rfl (.syscallWait (hrunning huser) (hsend huser) pid)
  | yield =>
      obtain ⟨huser, rfl⟩ := Kernel.guarded hr
      exact moves_quiet hk rfl rfl (.syscallYield k)
  | sendMessage pid body =>
      obtain ⟨huser, hrun⟩ := Kernel.guarded hr
      obtain ⟨k', c⟩ := r
      cases hp : k.searchProcess pid with
      | none =>
          have hcall : k.sendCall (.sendMessage pid body) = none := by
            rw [Kernel.sendCall, hp]
            rfl
          rw [Kernel.syscallSendMessage, hp] at hrun
          rw [← hrun]
          exact moves_quiet hk hcall hcall
            (.returnToUser (hrunning huser) (hsend huser) (.refl k) rfl _)
      | some d =>
          have hcall : k.sendCall (.sendMessage pid body) = some ⟨k.currentProcess, d, body⟩ := by
            rw [Kernel.sendCall, hp]
            rfl
          rw [Kernel.syscallSendMessage, hp] at hrun
          have hd : k.IsProcess d :=
            h.refines.isProcess_iff.mpr (searchProcess_some h.refines hp).1
          have hpending : k.pendingSend k.currentProcess = [] := by
            rw [Kernel.pendingSend, show (k.pcb k.currentProcess).resume = _ from huser.2]
            rfl
          have hsend : k.pendingSend k.currentProcess
              ++ (some (⟨k.currentProcess, d, body⟩ : Message)).toList
                = [⟨k.currentProcess, d, body⟩] := by
            rw [hpending]
            rfl
          have hmoves := sendMessage_moves (inCall_of_serving (hserving huser) hk) hd hsend hrun
          have hwork : k.sendWork (.sendMessage pid body) = some ⟨k.currentProcess, d, body⟩ :=
            hcall
          unfold Kernel.sendReturn
          rw [hr, hwork, hcall]
          cases c <;> exact hmoves
  | receiveMessage =>
      obtain ⟨huser, rfl⟩ := Kernel.guarded hr
      rw [sendReturn_of_none rfl]
      exact (inCall_of_serving (hserving huser) hk).receiveMessage (hsend huser)
  | input len =>
      obtain ⟨huser, rfl⟩ := Kernel.guarded hr
      exact moves_quiet hk rfl rfl (.syscallInput (hrunning huser) (hsend huser) len)
  | sendSignal pid flag =>
      obtain ⟨huser, rfl⟩ := Kernel.guarded hr
      exact moves_quiet hk rfl rfl (.syscallSendSignal (hrunning huser) (hsend huser) pid flag)
  | setSchedParam pid param value =>
      obtain ⟨huser, rfl⟩ := Kernel.guarded hr
      refine moves_quiet hk rfl rfl ?_
      unfold Kernel.syscallSetSchedParam
      split
      · exact .returnToUser (hrunning huser) (hsend huser) (.refl k) rfl _
      · next d _ =>
          obtain ⟨hq, hcur⟩ := Kernel.Quiet.schedSetParam alg k d param value
          exact .returnToUser (hrunning huser) (hsend huser) hq hcur _
  | resume => exact resume_moves h hk hr
  | moveToUserMode mm regs =>
      obtain ⟨hpoint, rfl⟩ := Kernel.guarded hr
      have hcall := inCall_of_serving (serving_of_resume h.refines h.inv h.running
        (by rw [hpoint]; decide) (by rw [hpoint]; decide) (by rw [hpoint]; rfl)) hk
      exact moves_quiet hk rfl rfl
        (.moveToUserMode hpoint (by rw [hcall.running]; decide) mm regs)
  | timerTick => exact moves_quiet hk rfl rfl (.scheduled (.handleTimerTick hr))
  | uartIrq mis fifo timeoutFifo =>
      obtain rfl := Option.some.inj hr
      exact moves_quiet hk rfl rfl (.scheduled (.handleUartIrq k mis fifo timeoutFifo))

/-- One kernel step. -/
theorem step_moves (h : Settled alg k s) (hk : k.Mailboxes) {t : Trap}
    (hstep : k.step alg t = some k') : k.Moves k' (k.sendCall t) (k.sendReturn alg t) := by
  unfold Kernel.step at hstep
  cases hr : k.enter alg t with
  | none => rw [hr] at hstep; exact nomatch hstep
  | some r =>
      obtain ⟨k₁, control⟩ := r
      have hmoves := enter_moves h hk hr
      rw [hr] at hstep
      cases control with
      | returns =>
          obtain rfl := Option.some.inj hstep
          exact hmoves
      | schedules => exact hmoves.thenQuiet (.scheduled (.pickNext hstep))

end Steps

/-! ### Runs -/

section Runs
variable {alg : SchedAlgorithm} {k k' : Kernel} {s : Sched}

theorem mailboxes_boot (timerClo : Nat → BitVec 32) : (Kernel.boot timerClo).Mailboxes := by
  have hring : ∀ p, ((Kernel.boot timerClo).pcb p).messagesBuffer = .zeroed := fun p => by
    simp only [Kernel.boot]
    split <;> rfl
  have hstate : ∀ p, ((Kernel.boot timerClo).pcb p).state = .unset := fun p => by
    simp only [Kernel.boot]
    split <;> rfl
  have hsend : ∀ p, ((Kernel.boot timerClo).pcb p).resume.send? = none := fun p => by
    simp only [Kernel.boot]
    split <;> rfl
  refine { bounded := ?_, queued := ?_, unused := ?_, receivers := ?_, senders := ?_ }
  · intro p
    rw [hring]
    exact bounded_zeroed
  · intro p
    rw [hring, contents_zeroed]
    rfl
  · intro p _
    refine ⟨rfl, ?_⟩
    rw [Kernel.pendingSend, hsend]
    rfl
  · intro p _ hst
    cases (hstate p).symm.trans hst
  · intro p _ hst
    cases (hstate p).symm.trans hst

/-- What the steps of a run do to messages adds up. -/
theorem run_moves (h : Settled alg k s) (hk : k.Mailboxes) {ts : List Trap}
    (hrun : k.run alg ts = some k') :
    k'.Mailboxes ∧ k'.messagesPushed = k.messagesPushed ++ k.observe alg (Kernel.sendReturn alg) ts
      ∧ ∀ p, k'.sends p
        = k.sends p ++ (k.observe alg Kernel.sendCall ts).filter (·.sourceProcess = p) := by
  induction ts generalizing k s with
  | nil =>
      obtain rfl := Option.some.inj hrun
      exact ⟨hk, (List.append_nil _).symm, fun _ => (List.append_nil _).symm⟩
  | cons t ts ih =>
      obtain ⟨k₁, hstep, hrest⟩ := Option.bind_eq_some_iff.mp hrun
      obtain ⟨as, s₁, -, h₁⟩ := step_exec h hstep
      have hmoves := step_moves h hk hstep
      obtain ⟨hmail, hpushed, hsends⟩ := ih h₁ hmoves.mail hrest
      refine ⟨hmail, ?_, fun p => ?_⟩
      · rw [hpushed, hmoves.pushed, List.append_assoc, Kernel.observe, hstep]
      · rw [hsends p, hmoves.sends p, List.append_assoc, Kernel.observe, hstep,
          List.filter_append]

/-- Message delivery, for every run from boot: a process receives a prefix of what was
pushed for it; the pushes are those of the sends that returned 0, one each and in order; the
sends of one process are pushed in the order of its calls, and at most its last one is
pending; and who waits at a ring has a reason to. -/
theorem messages_delivered (alg : SchedAlgorithm) (timerClo : Nat → BitVec 32)
    (ts : List Trap) {k : Kernel} (hrun : (Kernel.boot timerClo).run alg ts = some k) :
    (∀ d, k.bodiesReceived d <+: k.bodiesPushed d)
      ∧ k.messagesPushed = (Kernel.boot timerClo).observe alg (Kernel.sendReturn alg) ts
      ∧ (∀ p, ((Kernel.boot timerClo).observe alg Kernel.sendCall ts).filter
          (·.sourceProcess = p)
        = k.messagesPushed.filter (·.sourceProcess = p) ++ k.pendingSend p)
      ∧ (∀ p, k.IsProcess p → (k.pcb p).state = .waitingToReceiveMessage → k.RingEmpty p)
      ∧ ∀ p, k.IsProcess p → (k.pcb p).state = .waitingToSendMessage →
          ∃ d body, (k.pcb p).resume = .sendMessage d body ∧ k.RingFull d := by
  obtain ⟨hmail, hpushed, hsends⟩ :=
    run_moves (settled_boot alg timerClo) (mailboxes_boot timerClo) hrun
  refine ⟨fun d => ?_, hpushed, fun p => ?_, hmail.receivers, fun p hp hst => ?_⟩
  · rw [hmail.queued d]
    exact List.prefix_append _ _
  · have hboot : (Kernel.boot timerClo).sends p = [] := by
      unfold Kernel.sends Kernel.pendingSend
      simp only [Kernel.boot]
      split <;> rfl
    have hp := hsends p
    rw [hboot, List.nil_append] at hp
    exact hp.symm
  · obtain ⟨d, body, hpoint, -, hfull⟩ := hmail.senders p hp hst
    exact ⟨d, body, hpoint, hfull⟩

/-- Process 1 sends five messages to process 2 and waits with the fifth until process 2 has
received one. -/
theorem messages_delivered_full :
    ∃ k, (Kernel.boot fun _ => 0).run .roundRobin [.kernelMain (some 0), .timerTick,
        .moveToUserMode .empty .zeroed, .fork (some 1) .empty, .sendMessage 2 [1],
        .sendMessage 2 [2], .sendMessage 2 [3], .sendMessage 2 [4], .sendMessage 2 [5],
        .receiveMessage, .yield, .resume] = some k
      ∧ k.bodiesPushed (.page 1) = [[1], [2], [3], [4], [5]]
      ∧ k.bodiesReceived (.page 1) <+: [[1], [2], [3], [4], [5]] := by
  have hrun : ((Kernel.boot fun _ => 0).run .roundRobin [.kernelMain (some 0), .timerTick,
      .moveToUserMode .empty .zeroed, .fork (some 1) .empty, .sendMessage 2 [1],
      .sendMessage 2 [2], .sendMessage 2 [3], .sendMessage 2 [4], .sendMessage 2 [5],
      .receiveMessage, .yield, .resume]).map (fun k => k.bodiesPushed (.page 1))
      = some [[1], [2], [3], [4], [5]] := by decide +kernel
  obtain ⟨k, hk, hpushed⟩ := Option.map_eq_some_iff.mp hrun
  exact ⟨k, hk, hpushed, hpushed ▸ (messages_delivered _ _ _ hk).1 _⟩

end Runs

end DemoOS
