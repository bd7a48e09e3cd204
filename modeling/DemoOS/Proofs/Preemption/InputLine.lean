import DemoOS.Preemption.InputLine
import DemoOS.Preemption.Wait
import DemoOS.Proofs.Console.Receive
import Mathlib.Data.List.Induction

/-!
# `DemoOS.Proofs.Preemption.InputLine`: what a reader of the console gets

One process calls `syscall_input` again and again while characters come in batches, at any time.
The ring carries the characters that came while it had room, and the reader takes them in order:
those taken and those unread together are those kept (`LineInv.kept`). The user's array holds the
line that the characters of the call make up so far (`Editing`), so that no store is outside of it.
Once the end of the line has come, each statement of the call brings it nearer to its return
(`LineInv.within_statement`).

The test of the ring and the assignment of the state are two statements, as in
`Proofs/Preemption/Input.lean`, and a character between them wakes nobody. The results are

* `console_lines`: in a run without such a character the reader gets its lines;
* `console_line_unread`: a run with one, which leaves the reader asleep.
-/

set_option autoImplicit false

namespace DemoOS

open Kernel Support Support.CString

/-! ### The line in the user's array -/

section Editing

variable {room : Nat} {cs : List (BitVec 8)} {c : BitVec 8} {l : InputLocals}

theorem edited_append (room : Nat) (cs : List (BitVec 8)) (c : BitVec 8) :
    edited room (cs ++ [c]) = editChar room (edited room cs) c := by
  rw [edited, List.foldl_append]
  rfl

theorem length_edited_le (room : Nat) (cs : List (BitVec 8)) : (edited room cs).length ≤ room := by
  induction cs using List.reverseRecOn with
  | nil => exact Nat.zero_le room
  | append_singleton cs c ih =>
      rw [edited_append]
      exact length_editChar_le ih c

/-- The array of a call that has taken the characters `cs`, none of which ends a line. -/
structure Editing (l : InputLocals) (cs : List (BitVec 8)) : Prop where
  room : l.maxLen + 1 = l.len
  size : l.buffer.length = l.len
  length : l.currentLen = (edited l.maxLen cs).length
  line : l.buffer.take l.currentLen = edited l.maxLen cs
  noEnd : ∀ c ∈ cs, endsInput c = false

theorem Editing.currentLen_le (h : Editing l cs) : l.currentLen ≤ l.maxLen := by
  rw [h.length]
  exact length_edited_le l.maxLen cs

theorem editing_first {buffer : List (BitVec 8)} (h : buffer ≠ []) :
    Editing (.first buffer) [] := by
  have hpos := List.length_pos_of_ne_nil h
  refine ⟨?_, rfl, rfl, rfl, fun c hc => absurd hc List.not_mem_nil⟩
  show (if buffer.length > 0 then buffer.length - 1 else 0) + 1 = buffer.length
  rw [if_pos hpos]
  omega

/-- One more character that does not end the line. The stores are inside the array. -/
theorem Editing.storeChar (h : Editing l cs) (hc : endsInput c = false) :
    ∃ l', l.storeChar c = some l' ∧ l'.taken = l.taken ∧ Editing l' (cs ++ [c]) := by
  have hle := h.currentLen_le
  have hroom := h.room
  have hsize := h.size
  have hends : ∀ a ∈ cs ++ [c], endsInput a = false := by
    intro a ha
    rcases List.mem_append.mp ha with ha | ha
    · exact h.noEnd a ha
    · exact List.mem_singleton.mp ha ▸ hc
  rw [InputLocals.storeChar]
  by_cases hdelete : c = 0x7F
  · rw [if_pos hdelete]
    have hedited : edited l.maxLen (cs ++ [c]) = (edited l.maxLen cs).dropLast := by
      rw [edited_append, editChar, if_pos hdelete]
    by_cases hpos : l.currentLen > 0
    · -- The last character is taken back.
      have hput : put l.buffer (l.currentLen - 1) 0 = some (l.buffer.set (l.currentLen - 1) 0) :=
        if_pos (by omega)
      rw [if_pos hpos, hput]
      refine ⟨_, rfl, rfl, hroom, (List.length_set ..).trans hsize, ?_, ?_, hends⟩
      · show l.currentLen - 1 = _
        rw [hedited, List.length_dropLast, h.length]
      · show (l.buffer.set (l.currentLen - 1) 0).take (l.currentLen - 1) = _
        rw [List.take_set_of_le (Nat.le_refl _), hedited, ← h.line,
          List.dropLast_take (by omega)]
    · have hnil : edited l.maxLen cs = [] := by
        apply List.length_eq_zero_iff.mp
        rw [← h.length]
        omega
      rw [if_neg hpos]
      refine ⟨l, rfl, rfl, hroom, hsize, ?_, ?_, hends⟩
      · rw [hedited, hnil, h.length, hnil]
        rfl
      · rw [hedited, h.line, hnil]
        rfl
  · rw [if_neg hdelete]
    by_cases hlt : l.currentLen < l.maxLen
    · have hedited : edited l.maxLen (cs ++ [c]) = edited l.maxLen cs ++ [c] := by
        rw [edited_append, editChar, if_neg hdelete, if_pos (h.length ▸ hlt)]
      have hput : put l.buffer l.currentLen c = some (l.buffer.set l.currentLen c) :=
        if_pos (by omega)
      have hzero : put (l.buffer.set l.currentLen c) (l.currentLen + 1) 0
          = some ((l.buffer.set l.currentLen c).set (l.currentLen + 1) 0) :=
        if_pos (by rw [List.length_set]; omega)
      rw [if_pos hlt, hput]
      show ∃ l', ((put (l.buffer.set l.currentLen c) (l.currentLen + 1) 0).bind _) = some l' ∧ _
      rw [hzero]
      refine ⟨_, rfl, rfl, hroom, ?_, ?_, ?_, hends⟩
      · exact (List.length_set ..).trans ((List.length_set ..).trans hsize)
      · show l.currentLen + 1 = _
        rw [hedited, List.length_append, List.length_singleton, h.length]
      · show ((l.buffer.set l.currentLen c).set (l.currentLen + 1) 0).take (l.currentLen + 1) = _
        have hinside : l.currentLen < (l.buffer.set l.currentLen c).length := by
          rw [List.length_set]
          omega
        rw [List.take_set_of_le (Nat.le_refl _), List.take_succ_eq_append_getElem hinside,
          List.getElem_set_self, List.take_set_of_le (Nat.le_refl _), h.line, hedited]
    · have hedited : edited l.maxLen (cs ++ [c]) = edited l.maxLen cs := by
        rw [edited_append, editChar, if_neg hdelete, if_neg (h.length ▸ hlt)]
      rw [if_neg hlt]
      exact ⟨l, rfl, rfl, hroom, hsize, by rw [hedited, h.length], by rw [hedited, h.line], hends⟩

/-- The zero behind the line. -/
theorem Editing.terminate (h : Editing l cs) (hc : endsInput c = true)
    (htaken : l.taken = cs ++ [c]) :
    ∃ buffer, put l.buffer l.currentLen 0 = some buffer
      ∧ InputLine.IsRight ⟨l.len, l.taken, buffer, l.currentLen⟩ := by
  have hle := h.currentLen_le
  have hroom := h.room
  have hsize := h.size
  have hmax : l.len - 1 = l.maxLen := by omega
  refine ⟨l.buffer.set l.currentLen 0, if_pos (by omega), cs, c, htaken, h.noEnd, hc,
    (List.length_set ..).trans hsize, ?_, ?_, ?_⟩
  · show l.currentLen = (edited (l.len - 1) cs).length
    rw [hmax, h.length]
  · show (l.buffer.set l.currentLen 0).take l.currentLen = edited (l.len - 1) cs
    rw [hmax, List.take_set_of_le (Nat.le_refl _), h.line]
  · show (l.buffer.set l.currentLen 0)[l.currentLen]? = some 0
    rw [List.getElem?_set_self (by omega)]

end Editing

/-! ### The ring -/

section Ring

variable {k k' : Kernel}

theorem unreadBytes_eq_nil_iff (hk : k.RingValid) : k.unreadBytes = [] ↔ k.uartHead = k.uartTail :=
  CircularBuffer.contents_eq_nil_iff hk.tail

theorem Kernel.LeavesConsole.unreadBytes (h : LeavesConsole k k') :
    k'.unreadBytes = k.unreadBytes := by
  rw [Kernel.unreadBytes, h.uartBuffer, h.uartHead, h.uartTail]
  rfl

theorem Kernel.LeavesConsole.ringValid (h : LeavesConsole k k') (hk : k.RingValid) :
    k'.RingValid :=
  hk.congr h.uartHead h.uartTail

/-- The first unread character is the one at the tail, and the next tail leaves the others. -/
theorem unreadBytes_pop (hk : k.RingValid) (hne : k.unreadBytes ≠ []) :
    k.unreadBytes = k.uartBuffer k.uartTail
      :: { k with uartTail := (k.uartTail + 1) % UART_BUFFER_SIZE }.unreadBytes := by
  have hpop := CircularBuffer.contents_pop hk.head hk.tail
    (mt (unreadBytes_eq_nil_iff hk).mpr hne) k.uartBuffer
  rw [CircularBuffer.next_eq_mod hk.tail] at hpop
  exact hpop

end Ring

/-! ### The invariant -/

/-- What holds at a place of the call. -/
def InputLinePoint.Right (k : Kernel) : InputLinePoint → Prop
  | .testOwner buffer | .assign buffer => buffer ≠ []
  | .testRing l | .markWaiting l | .block l | .testTail l => Editing l l.taken
  | .load l => Editing l l.taken ∧ k.unreadBytes ≠ []
  | .advance l c => Editing l l.taken ∧ k.unreadBytes.head? = some c
  | .store l c => ∃ cs, l.taken = cs ++ [c] ∧ Editing l cs
  | .release l | .terminate l =>
      ∃ cs c, l.taken = cs ++ [c] ∧ endsInput c = true ∧ Editing l cs
  | .finish l => InputLine.IsRight ⟨l.len, l.taken, l.buffer, l.currentLen⟩
  -- The console belongs to nobody else, so that the first loop is never entered.
  | .waitOwner _ | .outside => False

/-- Characters that come do not change what holds at the place of the reader. -/
theorem InputLinePoint.Right.grows {k k' : Kernel} {x : InputLinePoint} (h : x.Right k)
    {cs : List (BitVec 8)} (hunread : k'.unreadBytes = k.unreadBytes ++ cs) : x.Right k' := by
  cases x with
  | load l =>
      refine ⟨h.1, ?_⟩
      rw [hunread]
      exact List.append_ne_nil_of_left_ne_nil h.2 cs
  | advance l c =>
      refine ⟨h.1, ?_⟩
      rw [hunread, List.head?_append, h.2]
      rfl
  | _ => exact h

/-- The characters of an interrupt come behind those that are unread. -/
theorem handleUartIrq_unread (alg : SchedAlgorithm) {k : Kernel} (hk : k.RingValid)
    (mis : BitVec 32) (fifo timeoutFifo : List (BitVec 32)) :
    (k.handleUartIrq alg mis fifo timeoutFifo).RingValid
      ∧ (k.handleUartIrq alg mis fifo timeoutFifo).unreadBytes
        = k.unreadBytes ++ keptOf UART_ROOM k.unreadBytes (dataOf (receiveWords mis fifo)) := by
  rw [handleUartIrq_eq, ← foldl_accept_keptOf]
  exact receiveWords_unread alg (receiveWords mis fifo) hk

/-- Other kernel code leaves the console alone, or is the interrupt of the UART. -/
theorem inputLine_trap_cases {alg : SchedAlgorithm} {h h' : ConsoleHistory} {t : Trap}
    (hplaces : h.kernel.NoInputPlaces) (ht : inputLineProgram.trap alg h t = some h') :
    (∃ k, LeavesConsole h.kernel k ∧ h' = { h with kernel := k })
    ∨ ∃ mis fifo timeoutFifo, h' =
      { h with
          kernel := h.kernel.handleUartIrq alg mis fifo timeoutFifo
          kept := h.kept
            ++ keptOf UART_ROOM h.kernel.unreadBytes (dataOf (receiveWords mis fifo)) } := by
  have hother : t.isConsole = false → ∀ k, h.kernel.step alg t = some k →
      LeavesConsole h.kernel k := by
    intro hconsole k hstep
    rcases Kernel.step_cases hstep with hr | ⟨k₁, hr, hpick⟩
    · exact enter_leavesConsole hconsole (fun _ => hplaces _) hr
    · exact (enter_leavesConsole hconsole (fun _ => hplaces _) hr).trans (.pickNext hpick)
  cases t with
  | input _ => cases ht
  | uartIrq mis fifo timeoutFifo => exact .inr ⟨mis, fifo, timeoutFifo, (Option.some.inj ht).symm⟩
  | _ =>
      obtain ⟨k, hk, rfl⟩ := Option.map_eq_some_iff.mp ht
      exact .inl ⟨k, hother rfl k hk, rfl⟩

/-- Between two statements: only `reader` is inside the call, and nothing was lost, repeated or
put in another order. -/
structure LineInv (reader : PcbPtr) (s : Preemptible ConsoleHistory InputLinePoint) : Prop where
  slots : s.state.kernel.SlotsCounted
  places : s.state.kernel.NoInputPlaces
  ring : s.state.kernel.RingValid
  owner : s.state.kernel.uartOwner = none ∨ s.state.kernel.uartOwner = some reader
  only : ∀ {p x}, s.point p = some x → p = reader
  right : ∀ {x}, s.point reader = some x → x.Right s.state.kernel
  kept : takenBy s reader ++ s.state.kernel.unreadBytes = s.state.kept
  lines : ∀ line ∈ s.state.lines, line.IsRight

namespace LineInv

variable {s s' : Preemptible ConsoleHistory InputLinePoint} {alg : SchedAlgorithm}
variable {reader : PcbPtr} {k' : Kernel} {x y : InputLinePoint}

/-- Kernel code that leaves the console alone. -/
theorem leavesConsole (h : LineInv reader s) (hk : LeavesConsole s.state.kernel k') :
    LineInv reader ⟨{ s.state with kernel := k' }, s.point⟩ where
  slots := hk.slots h.slots
  places := hk.places h.places
  ring := hk.ringValid h.ring
  owner := hk.uartOwner.symm ▸ h.owner
  only := h.only
  right hx := (h.right hx).grows (hk.unreadBytes.trans (List.append_nil _).symm)
  kept := by
    rw [hk.unreadBytes]
    exact h.kept
  lines := h.lines

/-- The reader goes on to another place of the call. -/
theorem goes (h : LineInv reader s) (hx : (s.point reader).map InputLinePoint.taken = some x.taken
      ∨ s.point reader = none ∧ x.taken = []) (hslots : k'.SlotsCounted)
    (hplaces : k'.NoInputPlaces) (hring : k'.RingValid)
    (howner : k'.uartOwner = none ∨ k'.uartOwner = some reader) (hy : y.Right k')
    (htaken : y.taken ++ k'.unreadBytes = x.taken ++ s.state.kernel.unreadBytes) :
    LineInv reader ⟨{ s.state with kernel := k' }, Function.update s.point reader (some y)⟩ where
  slots := hslots
  places := hplaces
  ring := hring
  owner := howner
  only {p z} hz := by
    rcases Program.point_update hz with ⟨hp, -⟩ | ⟨-, hz⟩
    · exact hp
    · exact h.only hz
  right {z} hz := by
    have hz' : y = z := Option.some.inj ((Function.update_self reader (some y) s.point).symm.trans hz)
    exact hz' ▸ hy
  kept := by
    have hbefore : ((s.point reader).map InputLinePoint.taken).getD [] = x.taken := by
      rcases hx with hx | ⟨hx, hnil⟩
      · rw [hx]
        rfl
      · rw [hx, hnil]
        rfl
    have hkept := h.kept
    rw [takenBy, hbefore, List.append_assoc, ← htaken, ← List.append_assoc] at hkept
    show ((s.state.lines.map InputLine.taken).flatten
      ++ ((Function.update s.point reader (some y) reader).map InputLinePoint.taken).getD [])
        ++ k'.unreadBytes = s.state.kept
    rw [Function.update_self]
    exact hkept
  lines := h.lines

/-- The same, where the console is left alone. -/
theorem moves (h : LineInv reader s) (hx : s.point reader = some x)
    (hk : LeavesConsole s.state.kernel k') (hy : y.Right k') (htaken : y.taken = x.taken) :
    LineInv reader ⟨{ s.state with kernel := k' }, Function.update s.point reader (some y)⟩ := by
  refine h.goes (x := x) (.inl ?_) (hk.slots h.slots) (hk.places h.places) (hk.ringValid h.ring)
    (hk.uartOwner.symm ▸ h.owner) hy ?_
  · rw [hx]
    rfl
  · rw [htaken, hk.unreadBytes]

/-- The same, where nothing in the kernel changes. -/
theorem goto (h : LineInv reader s) (hx : s.point reader = some x) (hy : y.Right s.state.kernel)
    (htaken : y.taken = x.taken) :
    LineInv reader ⟨s.state, Function.update s.point reader (some y)⟩ :=
  h.moves hx (.refl _) hy htaken

/-- A statement of the system call. -/
theorem statement (h : LineInv reader s) (hcurrent : s.state.kernel.currentProcess = reader)
    (hx : s.point reader = some x)
    (hs : inputLineProgram.proceed alg s (inputLineStatement s.state x) = some s') :
    LineInv reader s' := by
  subst hcurrent
  have hright := h.right hx
  cases x with
  | testOwner buffer =>
      simp only [inputLineStatement] at hs
      have howner : ¬ (s.state.kernel.uartOwner ≠ none
          ∧ s.state.kernel.uartOwner ≠ some s.state.kernel.currentProcess) := by
        rintro ⟨hnone, hself⟩
        exact h.owner.elim hnone hself
      rw [if_neg howner] at hs
      obtain rfl := Option.some.inj hs
      exact h.goto hx hright rfl
  | waitOwner buffer => exact hright.elim
  | assign buffer =>
      obtain rfl := Option.some.inj hs
      refine h.goes (x := .assign buffer) (.inl ?_) h.slots h.places ⟨h.ring.head, h.ring.tail⟩
        (.inr rfl) ?_ rfl
      · rw [hx]
        rfl
      · exact editing_first hright
  | testRing l =>
      simp only [inputLineStatement] at hs
      split at hs
      · obtain rfl := Option.some.inj hs
        exact h.goto hx hright rfl
      · obtain rfl := Option.some.inj hs
        exact h.goto hx hright rfl
  | markWaiting l =>
      obtain rfl := Option.some.inj hs
      -- The state of the process is not part of the console.
      refine h.goes (x := .markWaiting l) (.inl ?_) h.slots (fun p => ?_)
        ⟨h.ring.head, h.ring.tail⟩ h.owner hright rfl
      · rw [hx]
        rfl
      · have hplace := h.places p
        rw [setState, modifyPcb_pcb]
        split
        · next hp => exact hp ▸ hplace
        · exact hplace
  | block l =>
      obtain ⟨k', hpick, rfl⟩ := Option.map_eq_some_iff.mp hs
      exact h.moves hx ((LeavesConsole.schedule _).trans (.pickNext hpick)) hright rfl
  | testTail l =>
      simp only [inputLineStatement] at hs
      split at hs
      · obtain rfl := Option.some.inj hs
        exact h.goto hx hright rfl
      · next hne =>
          obtain rfl := Option.some.inj hs
          have hunread : s.state.kernel.unreadBytes ≠ [] := fun hnil =>
            hne ((unreadBytes_eq_nil_iff h.ring).mp hnil).symm
          exact h.goto hx ⟨hright, hunread⟩ rfl
  | load l =>
      obtain rfl := Option.some.inj hs
      refine h.goto hx ⟨hright.1, ?_⟩ rfl
      rw [unreadBytes_pop h.ring hright.2]
      rfl
  | advance l c =>
      obtain rfl := Option.some.inj hs
      obtain ⟨hediting, hhead⟩ := hright
      have hne : s.state.kernel.unreadBytes ≠ [] := by
        intro hnil
        rw [hnil] at hhead
        cases hhead
      have hpop := unreadBytes_pop h.ring hne
      have hc : s.state.kernel.uartBuffer s.state.kernel.uartTail = c := by
        rw [hpop] at hhead
        exact Option.some.inj hhead
      rw [hc] at hpop
      refine h.goes (x := .advance l c) (.inl ?_) h.slots h.places
        ⟨h.ring.head, Nat.mod_lt _ (by decide)⟩ h.owner ⟨l.taken, rfl, ?_⟩ ?_
      · rw [hx]
        rfl
      · exact ⟨hediting.room, hediting.size, hediting.length, hediting.line, hediting.noEnd⟩
      · show (l.taken ++ [c]) ++ _ = l.taken ++ s.state.kernel.unreadBytes
        rw [hpop, List.append_assoc]
        rfl
  | store l c =>
      obtain ⟨cs, htaken, hediting⟩ := hright
      simp only [inputLineStatement] at hs
      cases hc : endsInput c with
      | true =>
          rw [if_pos hc] at hs
          obtain rfl := Option.some.inj hs
          exact h.goto hx ⟨cs, c, htaken, hc, hediting⟩ rfl
      | false =>
          obtain ⟨l', hstore, htaken', hediting'⟩ := hediting.storeChar hc
          rw [if_neg (by rw [hc]; exact Bool.false_ne_true), hstore] at hs
          obtain rfl := Option.some.inj hs
          refine h.goto hx ?_ htaken'
          show Editing l' l'.taken
          rw [htaken', htaken]
          exact hediting'
  | release l =>
      obtain rfl := Option.some.inj hs
      refine h.goes (x := .release l) (.inl ?_) h.slots h.places ⟨h.ring.head, h.ring.tail⟩
        (.inl rfl) hright rfl
      rw [hx]
      rfl
  | terminate l =>
      obtain ⟨cs, c, htaken, hc, hediting⟩ := hright
      obtain ⟨buffer, hput, hline⟩ := hediting.terminate hc htaken
      simp only [inputLineStatement, hput] at hs
      obtain rfl := Option.some.inj hs
      exact h.goto hx hline rfl
  | finish l =>
      obtain rfl := Option.some.inj hs
      have hk : LeavesConsole s.state.kernel (s.state.kernel.returnToUser l.currentLen).1 :=
        .returnToUser _ _
      refine ⟨hk.slots h.slots, hk.places h.places, hk.ringValid h.ring,
        hk.uartOwner.symm ▸ h.owner, ?_, ?_, ?_, ?_⟩
      · intro p z hz
        rcases Program.point_update hz with ⟨hp, -⟩ | ⟨-, hz⟩
        · exact hp
        · exact h.only hz
      · intro z hz
        rcases Program.point_update hz with ⟨-, hnone⟩ | ⟨hne, -⟩
        · cases hnone
        · exact absurd rfl hne
      · have hkept := h.kept
        rw [takenBy, hx] at hkept
        show (((s.state.lines ++ [(⟨l.len, l.taken, l.buffer, l.currentLen⟩ : InputLine)]).map
            InputLine.taken).flatten
          ++ ((Function.update s.point s.state.kernel.currentProcess none
            s.state.kernel.currentProcess).map InputLinePoint.taken).getD [])
            ++ (s.state.kernel.returnToUser l.currentLen).1.unreadBytes = s.state.kept
        rw [Function.update_self, hk.unreadBytes, List.map_append, List.flatten_append]
        simpa [InputLinePoint.taken] using hkept
      · intro line hline
        rcases List.mem_append.mp hline with hline | hline
        · exact h.lines line hline
        · exact List.mem_singleton.mp hline ▸ hright
  | outside => exact hright.elim

/-- The other kernel code, and the two interrupts. -/
theorem trap (h : LineInv reader s) {t : Trap} {h' : ConsoleHistory}
    (ht : inputLineProgram.trap alg s.state t = some h') : LineInv reader ⟨h', s.point⟩ := by
  rcases inputLine_trap_cases h.places ht with ⟨k, hk, rfl⟩ | ⟨mis, fifo, timeoutFifo, rfl⟩
  · exact h.leavesConsole hk
  · obtain ⟨hscheduled, -⟩ := handleUartIrq_wakes alg h.slots mis fifo timeoutFifo
    obtain ⟨hring, hunread⟩ := handleUartIrq_unread alg h.ring mis fifo timeoutFifo
    refine ⟨h.slots.scheduled hscheduled, h.places.scheduled hscheduled, hring, ?_, h.only, ?_,
      ?_, h.lines⟩
    · exact (congrArg (fun k => k.uartOwner) hscheduled.fixed).symm ▸ h.owner
    · intro x hx
      exact (h.right hx).grows hunread
    · show takenBy s reader ++ _ = s.state.kept ++ _
      rw [hunread, ← List.append_assoc, h.kept]

theorem step {e : PreemptionEvent (List (BitVec 8))} (h : LineInv reader s)
    (hallowed : OneReader reader s e) (hstep : inputLineProgram.step alg s e = some s') :
    LineInv reader s' := by
  rcases Program.step_cases hstep with ⟨buffer, rfl, -, hnone, -, rfl⟩ | ⟨x, rfl, hx, hs⟩
    | ⟨t, st, rfl, -, ht, rfl⟩
  · obtain ⟨hcurrent, hbuffer⟩ := hallowed
    have hreader : inputLineProgram.current s = reader := hcurrent
    rw [hreader] at hnone ⊢
    exact h.goes (x := .testOwner buffer) (.inr ⟨hnone, rfl⟩) h.slots h.places h.ring h.owner hbuffer
      rfl
  · have hreader : inputLineProgram.current s = reader := h.only hx
    rw [hreader] at hx
    exact h.statement hreader hx hs
  · exact h.trap ht

end LineInv

theorem lineInv_start (reader : PcbPtr) (timerClo : Nat → BitVec 32) :
    LineInv reader (Program.start (.boot timerClo)) where
  slots i hi := if_neg (by have : 1 ≤ i := hi; omega)
  places p := by
    show ((if p = .initProcess then INIT_PROCESS else PCB.zeroed).resume).isInput = false
    split <;> rfl
  ring := ⟨Nat.succ_pos 63, Nat.succ_pos 63⟩
  owner := .inl rfl
  only hx := by cases hx
  right hx := by cases hx
  kept := rfl
  lines _ hline := absurd hline List.not_mem_nil

/-! ### A call returns -/

/-- A character that ends a line is unread, behind `d` others. -/
def LineEndAt (unread : List (BitVec 8)) (d : Nat) : Prop :=
  ∃ c, unread[d]? = some c ∧ endsInput c = true

theorem LineEndAt.append {unread : List (BitVec 8)} {d : Nat} (h : LineEndAt unread d)
    (cs : List (BitVec 8)) : LineEndAt (unread ++ cs) d := by
  obtain ⟨c, hd, hc⟩ := h
  exact ⟨c, by rw [List.getElem?_append_left (List.getElem?_eq_some_iff.mp hd).1, hd], hc⟩

theorem lineEndAt_of_mem {unread : List (BitVec 8)} {c : BitVec 8} (hmem : c ∈ unread)
    (hc : endsInput c = true) : ∃ d, LineEndAt unread d ∧ d < unread.length := by
  obtain ⟨d, hlt, hd⟩ := List.getElem_of_mem hmem
  exact ⟨d, ⟨c, List.getElem?_eq_some_iff.mpr ⟨hlt, hd⟩, hc⟩, hlt⟩

/-- The call returns after at most `n` more statements, where each unread character in front of
the end of the line takes four. -/
def InputLinePoint.Within (unread : List (BitVec 8)) (n : Nat) : InputLinePoint → Prop
  | .testOwner _ | .markWaiting _ => ∃ d, LineEndAt unread d ∧ 4 * d + 10 ≤ n
  | .assign _ | .block _ => ∃ d, LineEndAt unread d ∧ 4 * d + 9 ≤ n
  | .testRing _ => ∃ d, LineEndAt unread d ∧ 4 * d + 8 ≤ n
  | .testTail _ => ∃ d, LineEndAt unread d ∧ 4 * d + 7 ≤ n
  | .load _ => ∃ d, LineEndAt unread d ∧ 4 * d + 6 ≤ n
  | .advance _ _ => ∃ d, LineEndAt unread d ∧ 4 * d + 5 ≤ n
  | .store _ c => endsInput c = true ∧ 4 ≤ n ∨ ∃ d, LineEndAt unread d ∧ 4 * d + 8 ≤ n
  | .release _ => 3 ≤ n
  | .terminate _ => 2 ≤ n
  | .finish _ => 1 ≤ n
  | .waitOwner _ | .outside => False

theorem InputLinePoint.Within.pos {unread : List (BitVec 8)} {n : Nat} {x : InputLinePoint}
    (h : x.Within unread n) : 0 < n := by
  cases x with
  | waitOwner _ | outside => exact h.elim
  | store l c =>
      rcases h with ⟨-, h⟩ | ⟨d, -, h⟩
      · omega
      · omega
  | release l | terminate l | finish l =>
      simp only [InputLinePoint.Within] at h
      omega
  | _ =>
      obtain ⟨d, -, h⟩ := h
      omega

theorem InputLinePoint.Within.grows {unread : List (BitVec 8)} {n : Nat} {x : InputLinePoint}
    (h : x.Within unread n) (cs : List (BitVec 8)) : x.Within (unread ++ cs) n := by
  cases x with
  | waitOwner _ | outside | release l | terminate l | finish l => exact h
  | store l c =>
      rcases h with h | ⟨d, hd, hn⟩
      · exact .inl h
      · exact .inr ⟨d, hd.append cs, hn⟩
  | _ =>
      obtain ⟨d, hd, hn⟩ := h
      exact ⟨d, hd.append cs, hn⟩

/-- The end of the line of a call has been taken or is unread. -/
theorem InputLinePoint.Right.within {k : Kernel} {x : InputLinePoint} (h : x.Right k)
    (hcome : ∃ c ∈ x.taken ++ k.unreadBytes, endsInput c = true) :
    x.Within k.unreadBytes (4 * k.unreadBytes.length + 6) := by
  obtain ⟨c, hmem, hc⟩ := hcome
  -- While the call edits, the end is among the unread characters.
  have hunread : ∀ cs : List (BitVec 8), (∀ c ∈ cs, endsInput c = false) →
      c ∈ cs ++ k.unreadBytes → ∃ d, LineEndAt k.unreadBytes d ∧ d < k.unreadBytes.length := by
    intro cs hcs hmem
    rcases List.mem_append.mp hmem with hmem | hmem
    · rw [hcs c hmem] at hc
      cases hc
    · exact lineEndAt_of_mem hmem hc
  cases x with
  | testOwner buffer | assign buffer =>
      obtain ⟨d, hd, hlt⟩ := hunread [] (fun _ h => absurd h List.not_mem_nil) hmem
      exact ⟨d, hd, by omega⟩
  | waitOwner _ | outside => exact h.elim
  | testRing l | markWaiting l | block l | testTail l =>
      obtain ⟨d, hd, hlt⟩ := hunread _ h.noEnd hmem
      exact ⟨d, hd, by omega⟩
  | load l | advance l c =>
      obtain ⟨d, hd, hlt⟩ := hunread _ h.1.noEnd hmem
      exact ⟨d, hd, by omega⟩
  | store l a =>
      obtain ⟨cs, htaken, hediting⟩ := h
      cases ha : endsInput a with
      | true => exact .inl ⟨ha, by omega⟩
      | false =>
          obtain ⟨d, hd, hlt⟩ := hunread l.taken (fun b hb => by
            rw [htaken] at hb
            rcases List.mem_append.mp hb with hb | hb
            · exact hediting.noEnd b hb
            · exact List.mem_singleton.mp hb ▸ ha) hmem
          exact .inr ⟨d, hd, by omega⟩
  | release l | terminate l | finish l =>
      simp only [InputLinePoint.Within]
      omega

section Returns

variable {s s' : Preemptible ConsoleHistory InputLinePoint} {alg : SchedAlgorithm}
variable {reader : PcbPtr} {x : InputLinePoint} {n : Nat}

/-- One statement of the call brings it nearer to its return. -/
theorem LineInv.within_statement (h : LineInv reader s)
    (hcurrent : s.state.kernel.currentProcess = reader) (hx : s.point reader = some x)
    (hs : inputLineProgram.proceed alg s (inputLineStatement s.state x) = some s')
    (hwithin : x.Within s.state.kernel.unreadBytes (n + 1)) :
    s.state.lines.length < s'.state.lines.length
      ∨ ∃ y, s'.point reader = some y ∧ y.Within s'.state.kernel.unreadBytes n := by
  subst hcurrent
  have hright := h.right hx
  have hgoto : ∀ {h' : ConsoleHistory} {y : InputLinePoint},
      inputLineProgram.proceed alg s (h', .goto y) = some s' →
      y.Within h'.kernel.unreadBytes n → ∃ y, s'.point s.state.kernel.currentProcess = some y
        ∧ y.Within s'.state.kernel.unreadBytes n := by
    intro h' y hs hy
    obtain rfl := Option.some.inj hs
    exact ⟨y, Function.update_self _ _ _, hy⟩
  have hne : ∀ {d}, LineEndAt s.state.kernel.unreadBytes d →
      s.state.kernel.uartHead ≠ s.state.kernel.uartTail := by
    rintro d ⟨c, hd, -⟩ heq
    rw [(unreadBytes_eq_nil_iff h.ring).mpr heq] at hd
    cases hd
  cases x with
  | waitOwner _ | outside => exact hright.elim
  | testOwner buffer =>
      obtain ⟨d, hd, hn⟩ := hwithin
      have howner : ¬ (s.state.kernel.uartOwner ≠ none
          ∧ s.state.kernel.uartOwner ≠ some s.state.kernel.currentProcess) := by
        rintro ⟨hnone, hself⟩
        exact h.owner.elim hnone hself
      rw [inputLineStatement, if_neg howner] at hs
      exact .inr (hgoto hs ⟨d, hd, by omega⟩)
  | assign buffer | markWaiting l =>
      obtain ⟨d, hd, hn⟩ := hwithin
      exact .inr (hgoto hs ⟨d, hd, by omega⟩)
  | testRing l =>
      obtain ⟨d, hd, hn⟩ := hwithin
      rw [inputLineStatement, if_neg (hne hd)] at hs
      exact .inr (hgoto hs ⟨d, hd, by omega⟩)
  | block l =>
      obtain ⟨d, hd, hn⟩ := hwithin
      obtain ⟨k', hpick, rfl⟩ := Option.map_eq_some_iff.mp hs
      have hk : LeavesConsole s.state.kernel k' :=
        (LeavesConsole.schedule _).trans (.pickNext hpick)
      refine .inr ⟨.testRing l, Function.update_self _ _ _, d, ?_, by omega⟩
      show LineEndAt k'.unreadBytes d
      rw [hk.unreadBytes]
      exact hd
  | testTail l =>
      obtain ⟨d, hd, hn⟩ := hwithin
      rw [inputLineStatement, if_neg (hne hd).symm] at hs
      exact .inr (hgoto hs ⟨d, hd, by omega⟩)
  | load l =>
      obtain ⟨d, hd, hn⟩ := hwithin
      exact .inr (hgoto hs ⟨d, hd, by omega⟩)
  | advance l c =>
      obtain ⟨d, ⟨a, hd, ha⟩, hn⟩ := hwithin
      have hunread : s.state.kernel.unreadBytes ≠ [] := by
        intro hnil
        rw [hnil] at hd
        cases hd
      have hpop := unreadBytes_pop h.ring hunread
      have hhead := hright.2
      rw [hpop] at hd hhead
      refine .inr (hgoto hs ?_)
      cases d with
      | zero =>
          -- The end of the line is the character that was loaded.
          have hac : a = c := (Option.some.inj hd).symm.trans (Option.some.inj hhead)
          exact .inl ⟨hac ▸ ha, by omega⟩
      | succ d => exact .inr ⟨d, ⟨a, hd, ha⟩, by omega⟩
  | store l c =>
      simp only [inputLineStatement] at hs
      cases hc : endsInput c with
      | true =>
          rw [if_pos hc] at hs
          refine .inr (hgoto hs ?_)
          rcases hwithin with ⟨-, hn⟩ | ⟨d, -, hn⟩
          · show 3 ≤ n
            omega
          · show 3 ≤ n
            omega
      | false =>
          obtain ⟨cs, htaken, hediting⟩ := hright
          obtain ⟨l', hstore, -, -⟩ := hediting.storeChar hc
          rw [if_neg (by rw [hc]; exact Bool.false_ne_true), hstore] at hs
          rcases hwithin with ⟨hends, -⟩ | ⟨d, hd, hn⟩
          · rw [hc] at hends
            cases hends
          · exact .inr (hgoto hs ⟨d, hd, by omega⟩)
  | release l =>
      have hn : 3 ≤ n + 1 := hwithin
      refine .inr (hgoto hs ?_)
      show 2 ≤ n
      omega
  | terminate l =>
      have hn : 2 ≤ n + 1 := hwithin
      obtain ⟨cs, c, htaken, hc, hediting⟩ := hright
      obtain ⟨buffer, hput, -⟩ := hediting.terminate hc htaken
      simp only [inputLineStatement, hput] at hs
      refine .inr (hgoto hs ?_)
      show 1 ≤ n
      omega
  | finish l =>
      obtain rfl := Option.some.inj hs
      left
      show _ < (s.state.lines ++ [_]).length
      rw [List.length_append, List.length_singleton]
      exact Nat.lt_succ_self _

/-- No step forgets a call that has returned. -/
theorem LineInv.lines_le {e : PreemptionEvent (List (BitVec 8))} (h : LineInv reader s)
    (hstep : inputLineProgram.step alg s e = some s') :
    s.state.lines.length ≤ s'.state.lines.length := by
  have hstatement : ∀ x, s.state.lines.length ≤ (inputLineStatement s.state x).1.lines.length := by
    intro x
    cases x with
    | finish l =>
        show _ ≤ (s.state.lines ++ [_]).length
        rw [List.length_append]
        exact Nat.le_add_right _ _
    | testOwner _ | testRing _ | testTail _ | terminate _ =>
        simp only [inputLineStatement]
        split <;> exact Nat.le_refl _
    | store _ _ =>
        simp only [inputLineStatement]
        split
        · exact Nat.le_refl _
        · split <;> exact Nat.le_refl _
    | _ => exact Nat.le_refl _
  rcases Program.step_cases hstep with ⟨_, -, -, -, -, rfl⟩ | ⟨x, -, -, hs⟩ | ⟨t, st, -, -, ht, rfl⟩
  · exact Nat.le_refl _
  · have hx := hstatement x
    change inputLineProgram.proceed alg s (inputLineStatement s.state x) = some s' at hs
    generalize inputLineStatement s.state x = r at hs hx
    obtain ⟨h', flow⟩ := r
    cases flow with
    | goto y | returns =>
        obtain rfl := Option.some.inj hs
        exact hx
    | schedules y =>
        obtain ⟨k', -, rfl⟩ := Option.map_eq_some_iff.mp hs
        exact hx
  · rcases inputLine_trap_cases h.places ht with ⟨k, -, rfl⟩ | ⟨mis, fifo, timeoutFifo, rfl⟩
    · exact Nat.le_refl _
    · exact Nat.le_refl _

/-- Other code does not take the call back from its return. -/
theorem LineInv.within_other {e : PreemptionEvent (List (BitVec 8))} (h : LineInv reader s)
    (he : e = .statement → inputLineProgram.current s ≠ reader) (hallowed : OneReader reader s e)
    (hstep : inputLineProgram.step alg s e = some s') (hx : s.point reader = some x)
    (hwithin : x.Within s.state.kernel.unreadBytes n) :
    s'.point reader = some x ∧ x.Within s'.state.kernel.unreadBytes n := by
  rcases Program.step_cases hstep with ⟨buffer, rfl, -, hnone, -, -⟩ | ⟨y, rfl, hy, -⟩
    | ⟨t, st, rfl, -, ht, rfl⟩
  · -- The reader is inside a call already.
    have hreader : inputLineProgram.current s = reader := hallowed.1
    rw [hreader, hx] at hnone
    cases hnone
  · exact absurd (h.only hy) (he rfl)
  · refine ⟨hx, ?_⟩
    rcases inputLine_trap_cases h.places ht with ⟨k, hk, rfl⟩ | ⟨mis, fifo, timeoutFifo, rfl⟩
    · show x.Within k.unreadBytes n
      rw [hk.unreadBytes]
      exact hwithin
    · show x.Within (s.state.kernel.handleUartIrq alg mis fifo timeoutFifo).unreadBytes n
      rw [(handleUartIrq_unread alg h.ring mis fifo timeoutFifo).2]
      exact hwithin.grows _

/-- As long as the call has not returned, its statements count down. -/
theorem LineInv.continues {bound : Nat} (h : LineInv reader s) (hx : s.point reader = some x)
    (hwithin : x.Within s.state.kernel.unreadBytes bound)
    (hrun : inputLineProgram.Continues alg (OneReader reader) reader s n s') :
    LineInv reader s' ∧ s.state.lines.length ≤ s'.state.lines.length
      ∧ (s.state.lines.length < s'.state.lines.length
        ∨ ∃ y m, s'.point reader = some y ∧ y.Within s'.state.kernel.unreadBytes m
            ∧ m + n = bound) := by
  induction hrun with
  | refl => exact ⟨h, Nat.le_refl _, .inr ⟨x, bound, hx, hwithin, rfl⟩⟩
  | @own n s₁ s₂ _ hcurrent hallowed hstep ih =>
      obtain ⟨h₁, hle, hreturns⟩ := ih
      refine ⟨h₁.step hallowed hstep, Nat.le_trans hle (h₁.lines_le hstep), ?_⟩
      rcases hreturns with hdone | ⟨y, m, hy, hm, hsum⟩
      · exact .inl (Nat.lt_of_lt_of_le hdone (h₁.lines_le hstep))
      · obtain ⟨m, rfl⟩ := Nat.exists_eq_succ_of_ne_zero (Nat.ne_of_gt hm.pos)
        obtain ⟨z, hz, hs⟩ := Option.bind_eq_some_iff.mp hstep
        rw [hcurrent, hy] at hz
        obtain rfl := Option.some.inj hz
        rcases h₁.within_statement hcurrent hy hs hm with hlt | ⟨z, hz, hm'⟩
        · exact .inl (Nat.lt_of_le_of_lt hle hlt)
        · exact .inr ⟨z, m, hz, hm', by omega⟩
  | @other n s₁ s₂ e _ he hallowed hstep ih =>
      obtain ⟨h₁, hle, hreturns⟩ := ih
      refine ⟨h₁.step hallowed hstep, Nat.le_trans hle (h₁.lines_le hstep), ?_⟩
      rcases hreturns with hdone | ⟨y, m, hy, hm, hsum⟩
      · exact .inl (Nat.lt_of_lt_of_le hdone (h₁.lines_le hstep))
      · obtain ⟨hy', hm'⟩ := h₁.within_other he hallowed hstep hy hm
        exact .inr ⟨y, m, hy', hm', hsum⟩

/-! ### Nobody sleeps -/

/-- The reader waits only while nothing is unread. -/
def ReaderAwake (reader : PcbPtr) (k : Kernel) : Prop :=
  k.IsProcess reader → (k.pcb reader).state = .waitingUartInput → k.unreadBytes = []

theorem ReaderAwake.leavesConsole {k k' : Kernel} (h : ReaderAwake reader k)
    (hk : LeavesConsole k k') : ReaderAwake reader k' := by
  intro hp hst
  obtain ⟨hp', hst'⟩ := hk.waits reader hp hst
  rw [hk.unreadBytes]
  exact h hp' hst'

theorem ReaderAwake.statement (hawake : ReaderAwake reader s.state.kernel) (h : LineInv reader s)
    (hcurrent : s.state.kernel.currentProcess = reader) (hx : s.point reader = some x)
    (hallowed : RingTestHolds s .statement)
    (hs : inputLineProgram.proceed alg s (inputLineStatement s.state x) = some s') :
    ReaderAwake reader s'.state.kernel := by
  subst hcurrent
  have hright := h.right hx
  cases x with
  | waitOwner _ | outside => exact hright.elim
  | testOwner _ | testRing _ | testTail _ | terminate _ =>
      simp only [inputLineStatement] at hs
      split at hs
      · obtain rfl := Option.some.inj hs
        exact hawake
      · obtain rfl := Option.some.inj hs
        exact hawake
  | store l c =>
      simp only [inputLineStatement] at hs
      split at hs
      · obtain rfl := Option.some.inj hs
        exact hawake
      · split at hs
        · obtain rfl := Option.some.inj hs
          exact hawake
        · obtain rfl := Option.some.inj hs
          exact hawake
  | assign _ | load _ | release _ =>
      obtain rfl := Option.some.inj hs
      exact hawake
  | markWaiting l =>
      simp only [RingTestHolds, hx] at hallowed
      obtain rfl := Option.some.inj hs
      intro _ _
      exact (unreadBytes_eq_nil_iff h.ring).mpr hallowed
  | block l =>
      obtain ⟨k', hpick, rfl⟩ := Option.map_eq_some_iff.mp hs
      exact hawake.leavesConsole ((LeavesConsole.schedule _).trans (.pickNext hpick))
  | advance l c =>
      obtain rfl := Option.some.inj hs
      intro hp hst
      -- The character that was loaded is still unread.
      have hhead := hright.2
      rw [hawake hp hst] at hhead
      cases hhead
  | finish l =>
      obtain rfl := Option.some.inj hs
      exact hawake.leavesConsole (.returnToUser _ _)

theorem ReaderAwake.step {e : PreemptionEvent (List (BitVec 8))}
    (hawake : ReaderAwake reader s.state.kernel) (h : LineInv reader s)
    (hallowed : RingTestHolds s e) (hstep : inputLineProgram.step alg s e = some s') :
    ReaderAwake reader s'.state.kernel := by
  rcases Program.step_cases hstep with ⟨buffer, rfl, -, -, -, rfl⟩ | ⟨x, rfl, hx, hs⟩
    | ⟨t, st, rfl, -, ht, rfl⟩
  · exact hawake
  · have hreader : inputLineProgram.current s = reader := h.only hx
    rw [hreader] at hx
    exact hawake.statement h hreader hx hallowed hs
  · rcases inputLine_trap_cases h.places ht with ⟨k, hk, rfl⟩ | ⟨mis, fifo, timeoutFifo, rfl⟩
    · exact hawake.leavesConsole hk
    · obtain ⟨hscheduled, hring⟩ := handleUartIrq_wakes alg h.slots mis fifo timeoutFifo
      obtain ⟨hvalid, -⟩ := handleUartIrq_unread alg h.ring mis fifo timeoutFifo
      intro hp hst
      -- Who still waits has found the ring as it was.
      have hp' := (hscheduled.isProcess reader).mp hp
      obtain ⟨hhead, htail⟩ := hring reader hp' hst
      have hempty := hawake hp' ((hscheduled.block reader).waiting rfl hst)
      refine (unreadBytes_eq_nil_iff hvalid).mpr ?_
      rw [hhead, htail]
      exact (unreadBytes_eq_nil_iff h.ring).mp hempty

end Returns

/-! ### Runs -/

/-- In every run with one reader, in which the ring is still empty whenever the reader sets its
state to waiting, the reader gets the lines that the kept characters make up. -/
theorem console_lines (alg : SchedAlgorithm) (timerClo : Nat → BitVec 32) (reader : PcbPtr)
    (s : Preemptible ConsoleHistory InputLinePoint)
    (hrun : inputLineProgram.Reachable alg (fun s e => OneReader reader s e ∧ RingTestHolds s e)
      (Program.start (.boot timerClo)) s) :
    ReadsLines alg reader s := by
  have hstart : ReaderAwake reader (.boot timerClo) := fun _ _ => rfl
  obtain ⟨h, hawake⟩ := hrun.invariant
    (I := fun s => LineInv reader s ∧ ReaderAwake reader s.state.kernel)
    ⟨lineInv_start reader timerClo, hstart⟩
    fun h hallowed hstep => ⟨h.1.step hallowed.1 hstep, h.2.step h.1 hallowed.2 hstep⟩
  refine ⟨h.kept, h.lines, ?_, ?_, hawake⟩
  · intro p hp
    obtain rfl := h.only hp
    exact h.right hp
  · intro x hx hcome n s' hrun hn
    obtain ⟨-, -, hdone | ⟨y, m, -, hm, hsum⟩⟩ :=
      h.continues hx ((h.right hx).within hcome) hrun
    · exact hdone
    · have hpos := hm.pos
      omega

section Examples

open PreemptionEvent (call statement trap)

/-- Process 1 in user mode. -/
def oneReader : List (PreemptionEvent (List (BitVec 8))) :=
  [.trap (.kernelMain (some 0)), .trap .timerTick, .trap (.moveToUserMode .empty .zeroed)]

/-- Process 1 sleeps, and is woken by the first of two batches. -/
theorem console_lines_batches :
    ∃ s, inputLineProgram.run .roundRobin
        (fun s e => decide (OneReader (.page 0) s e ∧ RingTestHolds s e))
        (Program.start (.boot fun _ => 0))
        (oneReader ++ call [1, 1, 1] :: List.replicate 5 statement
          ++ trap (.uartIrq 16 [65, 66, 0x7F] []) :: List.replicate 10 (trap .timerTick)
          ++ List.replicate 6 statement ++ trap (.uartIrq 16 [67, 68, 10, 69] [])
          :: List.replicate 22 statement) = some s
      ∧ s.state.lines = [⟨3, [65, 66, 0x7F, 67, 68, 10], [65, 67, 0], 2⟩]
      ∧ s.state.kernel.unreadBytes = [69] ∧ ReadsLines .roundRobin (.page 0) s := by
  have hrun : (inputLineProgram.run .roundRobin
        (fun s e => decide (OneReader (.page 0) s e ∧ RingTestHolds s e))
        (Program.start (.boot fun _ => 0))
        (oneReader ++ call [1, 1, 1] :: List.replicate 5 statement
          ++ trap (.uartIrq 16 [65, 66, 0x7F] []) :: List.replicate 10 (trap .timerTick)
          ++ List.replicate 6 statement ++ trap (.uartIrq 16 [67, 68, 10, 69] [])
          :: List.replicate 22 statement)).map (fun s => (s.state.lines, s.state.kernel.unreadBytes))
      = some ([⟨3, [65, 66, 0x7F, 67, 68, 10], [65, 67, 0], 2⟩], [69]) := by decide +kernel
  obtain ⟨s, hs, hstate⟩ := Option.map_eq_some_iff.mp hrun
  obtain ⟨hlines, hunread⟩ := Prod.mk.inj hstate
  exact ⟨s, hs, hlines, hunread, console_lines _ _ _ _
    (Program.reachable_run (fun _ _ => of_decide_eq_true) hs .start)⟩

/-- The end of a line comes between the test of the ring and the assignment of the state. The
reader is put to sleep: it does not run and is in no ready queue, and its line is unread. -/
theorem console_line_unread :
    ∃ s, inputLineProgram.run .roundRobin (fun s e => decide (OneReader (.page 0) s e))
        (Program.start (.boot fun _ => 0))
        (oneReader ++ call [1, 1, 1] :: List.replicate 3 statement
          ++ trap (.uartIrq 16 [65, 10] []) :: List.replicate 2 statement
          ++ List.replicate 20 (trap .timerTick)) = some s
      ∧ s.state.kernel.unreadBytes = [65, 10] ∧ s.state.lines = []
      ∧ s.state.kernel.currentProcess ≠ .page 0
      ∧ (∀ q ∈ readyQueues, .page 0 ∉ s.state.kernel.linkedIn q)
      ∧ ¬ ReadsLines .roundRobin (.page 0) s := by
  have hrun : (inputLineProgram.run .roundRobin (fun s e => decide (OneReader (.page 0) s e))
        (Program.start (.boot fun _ => 0))
        (oneReader ++ call [1, 1, 1] :: List.replicate 3 statement
          ++ trap (.uartIrq 16 [65, 10] []) :: List.replicate 2 statement
          ++ List.replicate 20 (trap .timerTick))).map (fun s =>
            decide ((s.state.kernel.unreadBytes = [65, 10] ∧ s.state.lines = []
              ∧ s.state.kernel.currentProcess ≠ .page 0
              ∧ ∀ q ∈ readyQueues, .page 0 ∉ s.state.kernel.linkedIn q)
              ∧ s.state.kernel.processes 1 = some (.page 0)
              ∧ (s.state.kernel.pcb (.page 0)).state = .waitingUartInput)) = some true := by
    decide +kernel
  obtain ⟨s, hs, hstate⟩ := Option.map_eq_some_iff.mp hrun
  obtain ⟨⟨hunread, hlines, hcurrent, hqueues⟩, hslot, hwaits⟩ := of_decide_eq_true hstate
  refine ⟨s, hs, hunread, hlines, hcurrent, hqueues, ?_⟩
  intro h
  have hnil := h.awake ⟨1, by decide, hslot⟩ hwaits
  rw [hunread] at hnil
  cases hnil

end Examples

end DemoOS
