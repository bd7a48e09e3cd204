import DemoOS.Kernel.Run
import DemoOS.Support.CircularBuffer

/-!
# `DemoOS.Spec.Messages`: what message passing promises

The history of a run, as its processes see it: which messages were stored for a process
and which ones it received (`messagesPushed`, `bodiesReceived`, read off the trace), and
which calls of `send_message` were made and which returned 0 (`sendCall`, `sendReturn`,
observed at the steps themselves). A mailbox is then the queue of the messages that are
stored and not yet received, and `Mailboxes` is the invariant that ties the rings and the
states of blocked processes to it.
-/

set_option autoImplicit false

namespace DemoOS

open Support

/-- The number of indices that `head` and `tail` of a ring run through. -/
abbrev RING_SLOTS : Nat := MAX_MESSAGES_PER_PROCESS + 1

/-- The event stores a message or hands one over. -/
def KernelEvent.isMessage : KernelEvent → Bool
  | .pushed _ | .received _ _ => true
  | _ => false

/-- The destination and the text of a `send_message` that has not returned. -/
def ResumePoint.send? : ResumePoint → Option (PcbPtr × Body)
  | .sendMessage destination body => some (destination, body)
  | _ => none

/-- The stored messages, the oldest first. -/
def MessagesCircularBuffer.contents (b : MessagesCircularBuffer) : List Message :=
  CircularBuffer.contents RING_SLOTS b.buffer b.head b.tail

/-- The indices are inside the five slots. -/
structure MessagesCircularBuffer.Bounded (b : MessagesCircularBuffer) : Prop where
  head : b.head < RING_SLOTS
  tail : b.tail < RING_SLOTS

/-- The messages that `push_message` stored, among some events. -/
def pushedIn (trace : List KernelEvent) : List Message :=
  trace.filterMap fun
    | .pushed message => some message
    | _ => none

/-- The texts that `receive_message` returned to `p`, among some events. -/
def receivedIn (trace : List KernelEvent) (p : PcbPtr) : List Body :=
  trace.filterMap fun
    | .received r body => if r = p then some body else none
    | _ => none

namespace Kernel

/-- The messages stored so far, in order. -/
def messagesPushed (k : Kernel) : List Message := pushedIn k.trace

/-- The texts of the messages stored for `p`. -/
def bodiesPushed (k : Kernel) (p : PcbPtr) : List Body :=
  (k.messagesPushed.filter (·.destinationProcess = p)).map Message.body

/-- The texts that `receive_message` returned to `p`. -/
def bodiesReceived (k : Kernel) (p : PcbPtr) : List Body := receivedIn k.trace p

/-- No message is stored for `p`. -/
def RingEmpty (k : Kernel) (p : PcbPtr) : Prop :=
  (k.pcb p).messagesBuffer.head = (k.pcb p).messagesBuffer.tail

instance (k : Kernel) (p : PcbPtr) : Decidable (k.RingEmpty p) :=
  inferInstanceAs (Decidable (_ = _))

/-- No message fits into the ring of `p`. -/
def RingFull (k : Kernel) (p : PcbPtr) : Prop :=
  nextIndex (k.pcb p).messagesBuffer.head = (k.pcb p).messagesBuffer.tail

instance (k : Kernel) (p : PcbPtr) : Decidable (k.RingFull p) :=
  inferInstanceAs (Decidable (_ = _))

/-- The message that `p` is in the middle of sending, if there is one. -/
def pendingSend (k : Kernel) (p : PcbPtr) : List Message :=
  ((k.pcb p).resume.send?.map fun send => ⟨p, send.1, send.2⟩).toList

/-- The messages of `p`: those stored and the one it is in the middle of sending. -/
def sends (k : Kernel) (p : PcbPtr) : List Message :=
  k.messagesPushed.filter (·.sourceProcess = p) ++ k.pendingSend p

/-- The call of `send_message` that the trap makes. A pid that no process has ends the
system call before it. -/
def sendCall (k : Kernel) : Trap → Option Message
  | .sendMessage destinationPid body =>
      (k.searchProcess destinationPid).map fun d => ⟨k.currentProcess, d, body⟩
  | _ => none

/-- The call of `send_message` that the trap makes or goes on with. -/
def sendWork (k : Kernel) : Trap → Option Message
  | .resume => k.current.resume.send?.map fun send => ⟨k.currentProcess, send.1, send.2⟩
  | t => k.sendCall t

/-- The call of `send_message` that returns 0 to user code under the trap. -/
def sendReturn (alg : SchedAlgorithm) (k : Kernel) (t : Trap) : Option Message :=
  match k.enter alg t with
  | some (k', .returns) =>
      if k'.current.regs.registers 0 = 0 then k.sendWork t else none
  | _ => none

/-- What `f` observes at the steps of a run. -/
def observe {β : Type} (alg : SchedAlgorithm) (f : Kernel → Trap → Option β) :
    Kernel → List Trap → List β
  | _, [] => []
  | k, t :: ts =>
      (f k t).toList ++ match k.step alg t with
        | some k' => observe alg f k' ts
        | none => []

/-- The rings hold what the history says. -/
structure RingsHold (k : Kernel) : Prop where
  bounded : ∀ p, (k.pcb p).messagesBuffer.Bounded
  /-- A ring holds what was stored and not yet received, in the order of arrival. -/
  queued : ∀ p, k.bodiesPushed p
    = k.bodiesReceived p ++ (k.pcb p).messagesBuffer.contents.map Message.body
  /-- Outside the table nothing is stored and nothing is being sent. -/
  unused : ∀ p, ¬ k.IsProcess p → k.bodiesPushed p = [] ∧ k.pendingSend p = []

/-- And nobody waits at a ring without reason. -/
structure Mailboxes (k : Kernel) : Prop extends RingsHold k where
  /-- A process waits to receive in front of an empty ring, -/
  receivers : ∀ p, k.IsProcess p → (k.pcb p).state = .waitingToReceiveMessage → k.RingEmpty p
  /-- and to send in front of a full one. -/
  senders : ∀ p, k.IsProcess p → (k.pcb p).state = .waitingToSendMessage →
    ∃ d body, (k.pcb p).resume = .sendMessage d body ∧ k.IsProcess d ∧ k.RingFull d

end Kernel

end DemoOS
