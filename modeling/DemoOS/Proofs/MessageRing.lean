import Mathlib.Data.List.Induction
import DemoOS.Support.Lists
import DemoOS.Libs.Ipc

/-!
# `DemoOS.Proofs.MessageRing`: the message ring in the memory of its PCB

`push_message` and `pop_message` reset an index to 0 when it is greater than
`MAX_MESSAGES_PER_PROCESS`, so that it runs through five values. The array has four
slots, and `buffer[4]` is the memory behind them: `pending_signals` and `pid_to_wait`,
which hold the two halves of the slot's `source_process`, then `next_ready`, in the
place of `destination_process`, and then the end of the PCB.

`PcbMemory` lays the ring out in this way, with pointers as the 64-bit words they are,
and `pcbMemory` is the ring in it. `ring_inside_iff` says how long the indices stay
inside the array: for the first three pushes of the ring's life.
-/

set_option autoImplicit false

namespace DemoOS

open Support

/-! ### Rings in general -/

namespace RingMemory

variable {σ μ : Type} (ring : RingMemory σ μ)

/-- The indices have storage of their own, which the slots do not overlap. -/
structure Lawful : Prop where
  head_setHead : ∀ s i, ring.head (ring.setHead s i) = i
  tail_setHead : ∀ s i, ring.tail (ring.setHead s i) = ring.tail s
  head_setTail : ∀ s i, ring.head (ring.setTail s i) = ring.head s
  tail_setTail : ∀ s i, ring.tail (ring.setTail s i) = i
  head_store : ∀ s i m, ring.head (ring.store s i m) = ring.head s
  tail_store : ∀ s i m, ring.tail (ring.store s i m) = ring.tail s

variable {ring} {s s' : σ} {m : μ}

theorem push_of_room (h : nextIndex (ring.head s) ≠ ring.tail s) :
    ring.push s m = some (ring.setHead (ring.store s (ring.head s) m) (nextIndex (ring.head s))) :=
  if_neg h

theorem pop_of_empty (h : ring.head s = ring.tail s) : ring.pop s = none := if_pos h

theorem pop_of_ne (h : ring.head s ≠ ring.tail s) :
    ring.pop s = some (ring.setTail s (nextIndex (ring.tail s)), ring.load s (ring.tail s)) :=
  if_neg h

namespace Lawful

/-- A push moves the head and leaves the tail. -/
theorem push (hr : ring.Lawful) (h : ring.push s m = some s') :
    ring.head s' = nextIndex (ring.head s) ∧ ring.tail s' = ring.tail s := by
  by_cases hroom : nextIndex (ring.head s) = ring.tail s
  · rw [RingMemory.push, if_pos hroom] at h
    exact nomatch h
  · rw [push_of_room hroom] at h
    rw [← Option.some.inj h, hr.head_setHead, hr.tail_setHead, hr.tail_store]
    exact ⟨rfl, rfl⟩

/-- A pop moves the tail and leaves the head. -/
theorem pop (hr : ring.Lawful) (h : ring.pop s = some (s', m)) :
    ring.head s' = ring.head s ∧ ring.tail s' = nextIndex (ring.tail s) := by
  by_cases hempty : ring.head s = ring.tail s
  · rw [pop_of_empty hempty] at h
    exact nomatch h
  · rw [pop_of_ne hempty] at h
    rw [← (Prod.mk.inj (Option.some.inj h)).1, hr.head_setTail, hr.tail_setTail]
    exact ⟨rfl, rfl⟩

end Lawful

end RingMemory

theorem pcbRing_lawful : pcbRing.Lawful :=
  ⟨fun _ _ => rfl, fun _ _ => rfl, fun _ _ => rfl, fun _ _ => rfl, fun _ _ _ => rfl,
    fun _ _ _ => rfl⟩

/-! ### The memory of a PCB -/

/-- A `struct Message` as it lies in memory. -/
structure RawMessage where
  sourceProcess : BitVec 64
  destinationProcess : BitVec 64
  body : List UInt8
deriving DecidableEq, Repr

/-- The end of a PCB, from `messages_buffer` on, with the process state, which
`push_message` may also write. `behind` is the memory behind the PCB that the body of a
fifth slot would occupy. -/
structure PcbMemory where
  state : ProcessState
  head : Nat
  tail : Nat
  buffer : Fin MAX_MESSAGES_PER_PROCESS → RawMessage
  pendingSignals : BitVec 32
  pidToWait : BitVec 32
  nextReady : BitVec 64
  behind : List UInt8

/-- The ring in this memory. An index that is not one of the array reaches the fields
behind it, in the layout of a little-endian machine with 8-byte pointers. -/
def pcbMemory : RingMemory PcbMemory RawMessage where
  head := PcbMemory.head
  tail := PcbMemory.tail
  setHead s i := { s with head := i }
  setTail s i := { s with tail := i }
  load s i :=
    if h : i < MAX_MESSAGES_PER_PROCESS then s.buffer ⟨i, h⟩
    else ⟨s.pidToWait ++ s.pendingSignals, s.nextReady, s.behind⟩
  store s i m :=
    if h : i < MAX_MESSAGES_PER_PROCESS then { s with buffer := Function.update s.buffer ⟨i, h⟩ m }
    else
      { s with
        pendingSignals := m.sourceProcess.setWidth 32
        pidToWait := (m.sourceProcess >>> 32).setWidth 32
        nextReady := m.destinationProcess
        behind := m.body }

theorem pcbMemory_lawful : pcbMemory.Lawful where
  head_setHead _ _ := rfl
  tail_setHead _ _ := rfl
  head_setTail _ _ := rfl
  tail_setTail _ _ := rfl
  head_store s i m := by
    simp only [pcbMemory]
    split <;> rfl
  tail_store s i m := by
    simp only [pcbMemory]
    split <;> rfl

/-- A call of `push_message` or `pop_message` on the ring. -/
inductive RingCall where
  | push (message : RawMessage)
  | pop
deriving DecidableEq, Repr

def RingCall.isPush : RingCall → Bool
  | .push _ => true
  | .pop => false

namespace PcbMemory

/-- `push_message` by `send_message`, whose destination is the owner of the ring. The
link that `enqueue_process` writes to a process it wakes is not part of it. -/
def pushMessage (s : PcbMemory) (message : RawMessage) : PcbMemory :=
  match pcbMemory.push s message with
  | none => s
  | some s => if s.state = .waitingToReceiveMessage then { s with state := .ready } else s

/-- `pop_message`. -/
def popMessage (s : PcbMemory) : PcbMemory :=
  match pcbMemory.pop s with
  | none => s
  | some (s, _) => s

def call (s : PcbMemory) : RingCall → PcbMemory
  | .push message => s.pushMessage message
  | .pop => s.popMessage

/-- The memory after a sequence of calls. -/
def calls (s : PcbMemory) (cs : List RingCall) : PcbMemory := cs.foldl call s

/-- The memory with a zero-initialised ring. -/
def zeroRing (s : PcbMemory) : PcbMemory :=
  { s with head := 0, tail := 0, buffer := fun _ => ⟨0, 0, []⟩ }

/-- The memory outside the ring and the process state. -/
def outside (s : PcbMemory) : BitVec 32 × BitVec 32 × BitVec 64 × List UInt8 :=
  (s.pendingSignals, s.pidToWait, s.nextReady, s.behind)

/-- The indices are inside the array, and nothing outside the ring has changed since
`s₀`. -/
structure Inside (s₀ s : PcbMemory) : Prop where
  head : s.head < MAX_MESSAGES_PER_PROCESS
  tail : s.tail < MAX_MESSAGES_PER_PROCESS
  outside : s.outside = s₀.outside

instance (s₀ s : PcbMemory) : Decidable (Inside s₀ s) :=
  decidable_of_iff (s.head < MAX_MESSAGES_PER_PROCESS ∧ s.tail < MAX_MESSAGES_PER_PROCESS
    ∧ s.outside = s₀.outside) ⟨fun h => ⟨h.1, h.2.1, h.2.2⟩, fun h => ⟨h.1, h.2, h.3⟩⟩

variable {s s₀ : PcbMemory} {message : RawMessage}

theorem calls_append (s : PcbMemory) (cs ds : List RingCall) :
    s.calls (cs ++ ds) = (s.calls cs).calls ds :=
  List.foldl_append

/-- The wake-up writes the state and nothing else of the ring and what follows it. -/
theorem pushMessage_of_push {s' : PcbMemory} (h : pcbMemory.push s message = some s') :
    (s.pushMessage message).head = s'.head ∧ (s.pushMessage message).tail = s'.tail
      ∧ (s.pushMessage message).outside = s'.outside := by
  unfold pushMessage
  rw [h]
  dsimp only
  split <;> exact ⟨rfl, rfl, rfl⟩

/-- An access to a slot of the array leaves what is outside the ring. -/
theorem outside_store (h : s.head < MAX_MESSAGES_PER_PROCESS) :
    (pcbMemory.store s s.head message).outside = s.outside := by
  simp only [pcbMemory, dif_pos h]
  rfl

/-- A ring whose head is inside the array and not behind its tail is not full, and the
next push stores inside the array. -/
theorem pushMessage_of_lt (message : RawMessage) (hle : s.tail ≤ s.head)
    (hlt : s.head < MAX_MESSAGES_PER_PROCESS) :
    (s.pushMessage message).head = s.head + 1 ∧ (s.pushMessage message).tail = s.tail
      ∧ (s.pushMessage message).outside = s.outside := by
  have hnext : nextIndex s.head = s.head + 1 := if_neg (by omega)
  have hroom : nextIndex (pcbMemory.head s) ≠ pcbMemory.tail s := by
    show nextIndex s.head ≠ s.tail
    omega
  have hpush := RingMemory.push_of_room hroom (m := message)
  obtain ⟨hhead, htail⟩ := pcbMemory_lawful.push hpush
  obtain ⟨h₁, h₂, h₃⟩ := pushMessage_of_push hpush
  exact ⟨h₁.trans (hhead.trans hnext), h₂.trans htail, h₃.trans (outside_store hlt)⟩

/-- Where the tail is not in front of the head, a pop leaves it so. -/
theorem popMessage_of_le (hle : s.tail ≤ s.head) :
    s.popMessage.head = s.head ∧ s.popMessage.tail ≤ s.head
      ∧ s.popMessage.outside = s.outside := by
  unfold popMessage
  by_cases hempty : pcbMemory.head s = pcbMemory.tail s
  · rw [RingMemory.pop_of_empty hempty]
    exact ⟨rfl, hle, rfl⟩
  · rw [RingMemory.pop_of_ne hempty]
    refine ⟨rfl, ?_, rfl⟩
    show nextIndex s.tail ≤ s.head
    have : s.head ≠ s.tail := hempty
    unfold nextIndex
    split <;> omega

/-- While there have been no more pushes than slots, their number is the head, and the
accesses stay inside the array. -/
theorem calls_of_few (cs : List RingCall)
    (hcs : cs.countP RingCall.isPush ≤ MAX_MESSAGES_PER_PROCESS) :
    (s.zeroRing.calls cs).head = cs.countP RingCall.isPush
      ∧ (s.zeroRing.calls cs).tail ≤ (s.zeroRing.calls cs).head
      ∧ (s.zeroRing.calls cs).outside = s.outside := by
  induction cs using List.reverseRecOn with
  | nil => exact ⟨rfl, Nat.le_refl _, rfl⟩
  | append_singleton cs c ih =>
      rw [List.countP_append] at hcs
      obtain ⟨hhead, htail, houtside⟩ := ih (by omega)
      rw [calls_append, List.countP_append]
      cases c with
      | push message =>
          rw [List.countP_cons_of_pos (by rfl), List.countP_nil] at hcs ⊢
          obtain ⟨h₁, h₂, h₃⟩ := pushMessage_of_lt message htail (by omega)
          refine ⟨h₁.trans (by omega), ?_, h₃.trans houtside⟩
          show (pushMessage _ message).tail ≤ (pushMessage _ message).head
          omega
      | pop =>
          rw [List.countP_cons_of_neg (by decide), List.countP_nil] at hcs ⊢
          obtain ⟨h₁, h₂, h₃⟩ := popMessage_of_le htail
          refine ⟨h₁.trans (by omega), ?_, h₃.trans houtside⟩
          show (popMessage _).tail ≤ (popMessage _).head
          omega

end PcbMemory

/-- A sequence of calls stays inside the array, in every state it goes through, if and
only if it makes fewer pushes than the array has slots. -/
theorem ring_inside_iff (s : PcbMemory) (cs : List RingCall) :
    (∀ pre, pre <+: cs → PcbMemory.Inside s (s.zeroRing.calls pre))
      ↔ cs.countP RingCall.isPush < MAX_MESSAGES_PER_PROCESS := by
  constructor
  · intro h
    by_contra hmany
    -- The call after which four pushes have been made leaves the head at four.
    obtain ⟨pre, hpre, hcount⟩ : ∃ pre, pre <+: cs
        ∧ pre.countP RingCall.isPush = MAX_MESSAGES_PER_PROCESS :=
      exists_prefix_countP (by omega)
    have hhead := (PcbMemory.calls_of_few (s := s) pre (Nat.le_of_eq hcount)).1
    have := (h pre hpre).head
    omega
  · intro hfew pre hpre
    have hle : pre.countP RingCall.isPush ≤ cs.countP RingCall.isPush :=
      hpre.sublist.countP_le
    obtain ⟨hhead, htail, houtside⟩ := PcbMemory.calls_of_few (s := s) pre (by omega)
    exact ⟨by omega, by omega, houtside⟩

/-- Six calls: four pushes fill the array, a pop makes room, and the next push writes the
link of the PCB. -/
theorem push_overwrites_link :
    ∃ s : PcbMemory, ∃ cs : List RingCall,
      (s.zeroRing.calls (cs.take 4)).head = MAX_MESSAGES_PER_PROCESS
        ∧ (s.zeroRing.calls cs).nextReady ≠ s.nextReady
        ∧ ¬ ∀ pre, pre <+: cs → PcbMemory.Inside s (s.zeroRing.calls pre) := by
  refine ⟨⟨.running, 0, 0, fun _ => ⟨0, 0, []⟩, 0, 0, 0, []⟩,
    List.replicate 4 (.push ⟨0x1000, 0x2000, []⟩) ++ [.pop, .push ⟨0x1000, 0x2000, []⟩],
    by decide, by decide, fun h => ?_⟩
  have := (h (List.replicate 4 (.push ⟨0x1000, 0x2000, []⟩)) (List.prefix_append _ _)).head
  exact absurd this (by decide)

end DemoOS
