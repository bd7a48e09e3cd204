import DemoOS.Libs.Scheduler

/-!
# `DemoOS.Libs.Ipc`: `libs/ipc.c`

Message rings, blocking send and receive, and signals.

`push_message` and `pop_message` compute indices and then read or write the
array through them. What such an access touches depends on the memory around the
array, so the two index computations are written once, over a `RingMemory`, and
instantiated twice: with `pcbRing`, where every index has a slot of its own, and
in `Proofs/MessageRing.lean` with the array at its declared length and the PCB
fields behind it.
-/

set_option autoImplicit false

namespace DemoOS

/-- The index after `i` in `push_message` and `pop_message`. -/
def nextIndex (i : Nat) : Nat :=
  if i + 1 > MAX_MESSAGES_PER_PROCESS then 0 else i + 1

/-- How the code reaches a ring that lies in a memory of type `σ`: its indices,
and the storage that `buffer->buffer[i]` addresses. -/
structure RingMemory (σ μ : Type) where
  head : σ → Nat
  tail : σ → Nat
  setHead : σ → Nat → σ
  setTail : σ → Nat → σ
  load : σ → Nat → μ
  store : σ → Nat → μ → σ

namespace RingMemory

variable {σ μ : Type} (ring : RingMemory σ μ)

/-- The buffer update of `push_message`; `none` when the ring is full. -/
def push (s : σ) (message : μ) : Option σ :=
  let nextHead := nextIndex (ring.head s)
  if nextHead = ring.tail s then none
  else some (ring.setHead (ring.store s (ring.head s) message) nextHead)

/-- The buffer access of `pop_message`; `none` when the ring is empty. -/
def pop (s : σ) : Option (σ × μ) :=
  if ring.head s = ring.tail s then none
  else
    let nextTail := nextIndex (ring.tail s)
    some (ring.setTail s nextTail, ring.load s (ring.tail s))

end RingMemory

/-- The ring of a PCB, one slot for each index. -/
def pcbRing : RingMemory MessagesCircularBuffer Message where
  head := MessagesCircularBuffer.head
  tail := MessagesCircularBuffer.tail
  setHead b i := { b with head := i }
  setTail b i := { b with tail := i }
  load b i := b.buffer i
  store b i m := { b with buffer := Function.update b.buffer i m }

namespace Kernel

variable (alg : SchedAlgorithm)

/-- `push_message` into the ring of `owner`; `none` is the error return. -/
def pushMessage (k : Kernel) (owner : PcbPtr) (message : Message) : Option Kernel := do
  let buffer ← pcbRing.push (k.pcb owner).messagesBuffer message
  let k := k.modifyPcb owner fun b => { b with messagesBuffer := buffer }
  let k := k.log (.pushed message)
  let destination := message.destinationProcess
  if (k.pcb destination).state = .waitingToReceiveMessage then
    return (k.setState destination .ready).enqueueProcess alg destination
  else return k

/-- `pop_message` from the ring of `owner`; `none` is the error return. -/
def popMessage (k : Kernel) (owner : PcbPtr) : Option (Kernel × Message) := do
  let (buffer, message) ← pcbRing.pop (k.pcb owner).messagesBuffer
  return (k.modifyPcb owner fun b => { b with messagesBuffer := buffer }, message)

/-- The dispatcher's `registers[0] = value`, and the return to user code. -/
def returnToUser (k : Kernel) (value : Int) : Kernel × Control :=
  let k := k.modifyCurrent fun b => { b with regs := b.regs.setRegister0 (BitVec.ofInt 64 value) }
  (k.suspendAt .user, .returns)

/-- `send_message`, one round of its `do ... while`. -/
def sendMessage (k : Kernel) (sourceProcess destinationProcess : PcbPtr) (body : Body) :
    Kernel × Control :=
  let message : Message := ⟨k.currentProcess, destinationProcess, body⟩
  match k.pushMessage alg destinationProcess message with
  | some k => k.returnToUser 0
  | none =>
      let k := k.setState sourceProcess .waitingToSendMessage
      (k.suspendAt (.sendMessage destinationProcess body)).schedule

/-- `receive_message`, one round of its `do ... while` and the wake-up loop behind
it. -/
def receiveMessage (k : Kernel) (destinationProcess : PcbPtr) : Kernel × Control :=
  match k.popMessage destinationProcess with
  | some (k, message) =>
      let k := k.log (.received destinationProcess message.body)
      let k := k.wakeProcesses alg (fun b => b.state = .waitingToSendMessage) id
        (List.range N_PROCESSES)
      (k.suspendAt .user, .returns)
  | none =>
      let k := k.setState k.currentProcess .waitingToReceiveMessage
      (k.suspendAt .receiveMessage).schedule

/-- `send_signal`. The processor takes the shift amount modulo the register
width. -/
def sendSignal (k : Kernel) (destinationProcess : PcbPtr) (signalFlag : Int) : Kernel :=
  k.modifyPcb destinationProcess fun b =>
    { b with pendingSignals := b.pendingSignals ||| (1#32 <<< (signalFlag % 32).toNat) }

end Kernel

end DemoOS
