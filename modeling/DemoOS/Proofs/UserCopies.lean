import DemoOS.Libs.UserCopies
import DemoOS.Proofs.Shell.Strings

/-!
# `DemoOS.Proofs.UserCopies`: when the copies of user data are bounded

`strcpy` stays inside an array exactly if the string that it copies is shorter
(`strcpy_isSome_iff`). This settles the bodies of messages, and the rows of `safe_arguments`. From
there the arguments go to the user's stack, which has room for them, and their addresses to the
saved registers: `pushArguments_eq` says what the loop leaves.

The result is `userCopies_bounded_iff`. `userCopies_unbounded` has a body that is too long, and
33 arguments, which overwrite `pstate`.
-/

set_option autoImplicit false

namespace DemoOS

open Support.CString

/-! ### Copies -/

section Copies

variable {dest src b : Buffer} {n : Nat}

theorem Fits.holds {s : List UInt8} (h : Fits n src) (hs : Holds src s) : s.length < n := by
  obtain ⟨t, ht, hlt⟩ := h
  rw [hs.unique ht]
  exact hlt

/-- A copy that ends has found the end of its string. -/
theorem holds_of_copyString {pointer : Nat} (h : copyString dest pointer src = some b) :
    ∃ s, Holds src s := by
  induction src generalizing dest pointer with
  | nil => cases h
  | cons c src ih =>
      rw [copyString] at h
      split at h
      · next hc => exact ⟨[], ⟨src, by rw [hc]; rfl⟩, List.not_mem_nil⟩
      · next hc =>
          obtain ⟨dest', -, hrest⟩ := Option.bind_eq_some_iff.mp h
          obtain ⟨s, ⟨rest, hsrc⟩, hs⟩ := ih hrest
          refine ⟨c :: s, ⟨rest, by rw [hsrc]; rfl⟩, ?_⟩
          rw [List.mem_cons, not_or]
          exact ⟨Ne.symm hc, hs⟩

/-- `strcpy` stays inside its arrays exactly if there is a string that fits. -/
theorem strcpy_isSome_iff : (strcpy dest src).isSome ↔ Fits dest.length src := by
  constructor
  · intro h
    obtain ⟨b, hb⟩ := Option.isSome_iff_exists.mp h
    obtain ⟨s, hs⟩ := holds_of_copyString hb
    refine ⟨s, hs, ?_⟩
    rw [strcpy_eq hs] at hb
    split at hb
    · assumption
    · cases hb
  · rintro ⟨s, hs, hlt⟩
    rw [strcpy_eq hs, if_pos hlt]
    rfl

end Copies

/-! ### Messages -/

section Messages

theorem fillMessage_isSome_iff (stack : BodyArray) (source destination : BitVec 64)
    (body : Buffer) :
    (fillMessage stack source destination body).isSome ↔ Fits MAX_MESSAGES_BODY_SIZE body := by
  have hcopy : (strcpy stack.1 body).isSome ↔ Fits stack.1.length body := strcpy_isSome_iff
  rw [stack.2] at hcopy
  rw [← hcopy, fillMessage]
  cases strcpy stack.1 body with
  | none => rfl
  | some b => rfl

namespace PcbMemory

theorem sendMessage_isSome_iff (s : PcbMemory) (stack : BodyArray) (source destination : BitVec 64)
    (body : Buffer) :
    (s.sendMessage stack source destination body).isSome ↔ Fits MAX_MESSAGES_BODY_SIZE body := by
  rw [sendMessage, Option.isSome_map]
  exact fillMessage_isSome_iff stack source destination body

/-- The copy to the user is that of a string that has come through the array on the stack. -/
theorem receiveMessage_isSome_iff (s : PcbMemory) (stack body : BodyArray) :
    (s.receiveMessage stack body.1).isSome
      ↔ s.head = s.tail ∨ Fits MAX_MESSAGES_BODY_SIZE (pcbMemory.load s s.tail).body := by
  by_cases hempty : s.head = s.tail
  · have hpop : pcbMemory.pop s = none := RingMemory.pop_of_empty hempty
    refine iff_of_true ?_ (.inl hempty)
    rw [receiveMessage, popInto, hpop]
    rfl
  · have hpop : pcbMemory.pop s
        = some (pcbMemory.setTail s (nextIndex s.tail), pcbMemory.load s s.tail) :=
      RingMemory.pop_of_ne hempty
    have hcopy : (strcpy stack.1 (pcbMemory.load s s.tail).body).isSome
        ↔ Fits stack.1.length (pcbMemory.load s s.tail).body := strcpy_isSome_iff
    rw [stack.2] at hcopy
    rw [or_iff_right hempty, ← hcopy, receiveMessage, popInto, hpop]
    cases hb : strcpy stack.1 (pcbMemory.load s s.tail).body with
    | none => simp [hb]
    | some b =>
        -- What is in the array on the stack fits in one of the same length.
        obtain ⟨t, ht, hlt⟩ := hcopy.mp (by rw [hb]; rfl)
        have hroom : t.length < stack.1.length := by
          rw [stack.2]
          exact hlt
        obtain ⟨b', hb', hholds, -⟩ := strcpy_holds ht hroom
        obtain rfl := Option.some.inj (hb.symm.trans hb')
        have hfits : (strcpy body.1 b).isSome := by
          rw [strcpy_isSome_iff, body.2]
          exact ⟨t, hholds, hlt⟩
        obtain ⟨c, hc⟩ := Option.isSome_iff_exists.mp hfits
        simp [hb, hc]

/-- Every slot of the array holds a body. -/
def BodiesFit (s : PcbMemory) : Prop := ∀ i, Fits MAX_MESSAGES_BODY_SIZE (s.buffer i).body

/-- A message that was filled in has a body that fits. -/
theorem fits_of_fillMessage {stack : BodyArray} {source destination : BitVec 64} {body : Buffer}
    {message : RawMessage} (h : fillMessage stack source destination body = some message) :
    Fits MAX_MESSAGES_BODY_SIZE message.body := by
  obtain ⟨b, hb, hmessage⟩ := Option.bind_eq_some_iff.mp h
  obtain rfl := Option.some.inj hmessage
  obtain ⟨t, ht, hlt⟩ := strcpy_isSome_iff.mp (Option.isSome_iff_exists.mpr ⟨b, hb⟩)
  obtain ⟨b', hb', hholds, -⟩ := strcpy_holds ht hlt
  obtain rfl := Option.some.inj (hb.symm.trans hb')
  exact ⟨t, hholds, by rw [← stack.2]; exact hlt⟩

/-- What is sent keeps the slots in order. -/
theorem BodiesFit.sendMessage {s s' : PcbMemory} (h : s.BodiesFit) {stack : BodyArray}
    {source destination : BitVec 64} {body : Buffer}
    (hs : s.sendMessage stack source destination body = some s') : s'.BodiesFit := by
  obtain ⟨message, hmessage, rfl⟩ := Option.map_eq_some_iff.mp hs
  have hfits := fits_of_fillMessage hmessage
  have hstore : ∀ j, (pcbMemory.store s j message).BodiesFit := by
    intro j i
    by_cases hj : j < MAX_MESSAGES_PER_PROCESS
    · simp only [pcbMemory, dif_pos hj]
      by_cases hij : i = ⟨j, hj⟩
      · rw [hij, Function.update_self]
        exact hfits
      · rw [Function.update_of_ne hij]
        exact h i
    · simp only [pcbMemory, dif_neg hj]
      exact h i
  rw [pushMessage]
  split
  · exact h
  · next s₁ hpush =>
      have hs₁ : s₁.BodiesFit := by
        rw [RingMemory.push] at hpush
        split at hpush
        · cases hpush
        · obtain rfl := Option.some.inj hpush
          exact hstore _
      split
      · exact hs₁
      · exact hs₁

/-- A message that was sent to a slot of the array is received inside the arrays. -/
theorem BodiesFit.receiveMessage_isSome {s : PcbMemory} (h : s.BodiesFit)
    (htail : s.tail < MAX_MESSAGES_PER_PROCESS) (stack body : BodyArray) :
    (s.receiveMessage stack body.1).isSome := by
  refine (receiveMessage_isSome_iff s stack body).mpr (.inr ?_)
  simp only [pcbMemory, dif_pos htail]
  exact h ⟨s.tail, htail⟩

end PcbMemory

end Messages

/-! ### `syscall_exec` -/

section Exec

variable {rows : List Buffer} {arguments image memory : Buffer} {frame : PtRegs} {n : Int}

theorem argument_drop (arguments : Buffer) (i : Nat) :
    argument (arguments.drop SYSCALL_EXEC_ARGUMENT_DIMENSION) i = argument arguments (i + 1) := by
  rw [argument, argument, List.drop_drop, Nat.mul_succ, Nat.add_comm]

/-- Each row holds an argument that fits in it. -/
def Saved (arguments : Buffer) (rows : List Buffer) : Prop :=
  ∀ i row, rows[i]? = some row → ∃ s, Holds (argument arguments i) s
    ∧ s.length < SYSCALL_EXEC_ARGUMENT_DIMENSION ∧ Holds row s

theorem Saved.cons {s : List UInt8} {row : Buffer} (hs : Holds arguments s)
    (hlt : s.length < SYSCALL_EXEC_ARGUMENT_DIMENSION) (hrow : Holds row s)
    (h : Saved (arguments.drop SYSCALL_EXEC_ARGUMENT_DIMENSION) rows) :
    Saved arguments (row :: rows) := by
  intro i row' hi
  cases i with
  | zero =>
      obtain rfl := Option.some.inj hi
      exact ⟨s, hs, hlt, hrow⟩
  | succ i =>
      have hsaved := h i row' hi
      rw [argument_drop] at hsaved
      exact hsaved

/-- Arguments that fit are saved. -/
theorem saveArguments_of_fits (m : Nat)
    (h : ∀ i < m, Fits SYSCALL_EXEC_ARGUMENT_DIMENSION (argument arguments i)) :
    ∃ safe, saveArguments (List.replicate m (memzero SYSCALL_EXEC_ARGUMENT_DIMENSION)) arguments
      = some safe ∧ safe.length = m ∧ Saved arguments safe := by
  induction m generalizing arguments with
  | zero => exact ⟨[], rfl, rfl, fun i row hi => by cases hi⟩
  | succ m ih =>
      obtain ⟨s, hs, hlt⟩ := h 0 (Nat.succ_pos m)
      have hroom : s.length < (memzero SYSCALL_EXEC_ARGUMENT_DIMENSION).length := by
        rw [memzero, List.length_replicate]
        exact hlt
      obtain ⟨row, hcopy, hrow, -⟩ := strcpy_holds hs hroom
      have hrest : ∀ i < m, Fits SYSCALL_EXEC_ARGUMENT_DIMENSION
          (argument (arguments.drop SYSCALL_EXEC_ARGUMENT_DIMENSION) i) := by
        intro i hi
        rw [argument_drop]
        exact h (i + 1) (Nat.succ_lt_succ hi)
      obtain ⟨rows, hrows, hlength, hsaved⟩ := ih hrest
      refine ⟨row :: rows, ?_, by rw [List.length_cons, hlength], hsaved.cons hs hlt hrow⟩
      show (strcpy (memzero SYSCALL_EXEC_ARGUMENT_DIMENSION) arguments).bind _ = _
      have harguments : argument arguments 0 = arguments := rfl
      rw [harguments] at hcopy
      rw [hcopy, Option.bind_some, hrows]
      rfl

/-- Only arguments that fit are saved. -/
theorem fits_of_saveArguments (m : Nat) {safe : List Buffer}
    (h : saveArguments (List.replicate m (memzero SYSCALL_EXEC_ARGUMENT_DIMENSION)) arguments
      = some safe) :
    ∀ i < m, Fits SYSCALL_EXEC_ARGUMENT_DIMENSION (argument arguments i) := by
  induction m generalizing arguments safe with
  | zero => exact fun i hi => absurd hi (Nat.not_lt_zero i)
  | succ m ih =>
      obtain ⟨row, hrow, hrest⟩ := Option.bind_eq_some_iff.mp h
      obtain ⟨rows, hrows, -⟩ := Option.bind_eq_some_iff.mp hrest
      intro i hi
      cases i with
      | zero =>
          have hfits := strcpy_isSome_iff.mp (Option.isSome_iff_exists.mpr ⟨row, hrow⟩)
          rw [memzero, List.length_replicate] at hfits
          exact hfits
      | succ i =>
          rw [← argument_drop]
          exact ih hrows i (Nat.lt_of_succ_lt_succ hi)

/-- The registers, of which one has another value. -/
def PtRegs.withRegister (r : PtRegs) (i : Nat) (value : BitVec 64) : PtRegs :=
  { r with registers := Function.update r.registers i value }

theorem PtRegs.store_of_lt (r : PtRegs) {i : Nat} (h : i < 31) (value : BitVec 64) :
    r.store i value = some (r.withRegister i value) :=
  if_pos h

/-- The word with the index 33 is `pstate`. -/
theorem PtRegs.store_eq (r : PtRegs) {i : Nat} (h : i ≤ 33) (value : BitVec 64) :
    ∃ r', r.store i value = some r' ∧ r'.pstate = (if i = 33 then value else r.pstate)
      ∧ ∀ j, j ≠ i → r'.registers j = r.registers j := by
  by_cases hregister : i < 31
  · refine ⟨_, r.store_of_lt hregister value, (if_neg (by omega)).symm, fun j hj => ?_⟩
    exact Function.update_of_ne hj value r.registers
  · have hcases : i = 31 ∨ i = 32 ∨ i = 33 := by omega
    rcases hcases with rfl | rfl | rfl
    · exact ⟨_, rfl, rfl, fun _ _ => rfl⟩
    · exact ⟨_, rfl, rfl, fun _ _ => rfl⟩
    · exact ⟨_, rfl, rfl, fun _ _ => rfl⟩

/-- The place of the argument with the index `i`. -/
def argumentPlace (i : Nat) : Nat := STACK_TOP - SYSCALL_EXEC_ARGUMENT_DIMENSION * (i + 1)

/-- The loop has room for 33 arguments, the last one of which takes the place of `pstate`. -/
theorem pushArguments_eq (frame : PtRegs) (i : Nat)
    (hrows : ∀ row ∈ rows, Fits SYSCALL_EXEC_ARGUMENT_DIMENSION row) (hi : i + rows.length ≤ 33)
    (hsize : memory.length = STACK_TOP) :
    ∃ frame' memory', pushArguments frame memory
        (BitVec.ofNat 64 (STACK_TOP - SYSCALL_EXEC_ARGUMENT_DIMENSION * i)) i rows
        = some (frame', memory', BitVec.ofNat 64
          (STACK_TOP - SYSCALL_EXEC_ARGUMENT_DIMENSION * (i + rows.length)))
      ∧ frame'.pstate = (if i < 33 ∧ i + rows.length = 33 then BitVec.ofNat 64 (argumentPlace 32)
        else frame.pstate)
      ∧ (∀ j, i + rows.length < j → frame'.registers j = frame.registers j)
      ∧ memory'.drop (STACK_TOP - SYSCALL_EXEC_ARGUMENT_DIMENSION * i)
        = memory.drop (STACK_TOP - SYSCALL_EXEC_ARGUMENT_DIMENSION * i)
      ∧ memory'.take (STACK_TOP - SYSCALL_EXEC_ARGUMENT_DIMENSION * (i + rows.length))
        = memory.take (STACK_TOP - SYSCALL_EXEC_ARGUMENT_DIMENSION * (i + rows.length))
      ∧ ∀ j row s, rows[j]? = some row → Holds row s →
          Holds (memory'.drop (argumentPlace (i + j))) s := by
  induction rows generalizing i frame memory with
  | nil =>
      refine ⟨frame, memory, rfl, (if_neg ?_).symm, fun _ _ => rfl, rfl, rfl, ?_⟩
      · rw [List.length_nil]
        omega
      intro j row s hj
      cases hj
  | cons row rows ih =>
      rw [List.length_cons] at hi
      obtain ⟨t, ht, hlt⟩ := hrows row List.mem_cons_self
      have hplace : argumentPlace i = STACK_TOP - SYSCALL_EXEC_ARGUMENT_DIMENSION * (i + 1) := rfl
      have htop : STACK_TOP = 65536 := rfl
      have hdim : SYSCALL_EXEC_ARGUMENT_DIMENSION = 64 := rfl
      have hpointer : BitVec.ofNat 64 (STACK_TOP - SYSCALL_EXEC_ARGUMENT_DIMENSION * i)
          - BitVec.ofNat 64 SYSCALL_EXEC_ARGUMENT_DIMENSION = BitVec.ofNat 64 (argumentPlace i) := by
        rw [hplace, htop, hdim]
        apply BitVec.eq_of_toNat_eq
        simp only [BitVec.toNat_sub, BitVec.toNat_ofNat]
        omega
      have hnat : (BitVec.ofNat 64 (argumentPlace i)).toNat = argumentPlace i := by
        rw [BitVec.toNat_ofNat, hplace, htop, hdim]
        omega
      -- The copy and its zero stay in the bytes of this argument.
      have hinside : argumentPlace i + (t ++ [NUL]).length
          ≤ STACK_TOP - SYSCALL_EXEC_ARGUMENT_DIMENSION * i := by
        rw [hplace, List.length_append, List.length_singleton, htop, hdim]
        omega
      have hroom : argumentPlace i + (t ++ [NUL]).length ≤ memory.length := by omega
      have hcopy : copyString memory (argumentPlace i) row
          = some (overwrite memory (argumentPlace i) (t ++ [NUL])) := by
        rw [copyString_eq ht, writeAll_of_le hroom]
      obtain ⟨frame₁, hstore, hpstate₁, hregisters₁⟩ :=
        frame.store_eq (i := i + 1) (by omega) (BitVec.ofNat 64 (argumentPlace i))
      obtain ⟨frame', memory', hpush, hpstate, hregisters, hdrop, htake, hholds⟩ :=
        ih frame₁ (i + 1)
          (fun r hr => hrows r (List.mem_cons_of_mem row hr)) (by omega)
          ((length_overwrite hroom).trans hsize)
      have hlength : i + (row :: rows).length = i + 1 + rows.length := by
        rw [List.length_cons]
        omega
      rw [hlength]
      refine ⟨frame', memory', ?_, ?_, ?_, ?_, ?_, ?_⟩
      · rw [← hpush]
        show (copyString memory (_ - _ : BitVec 64).toNat row).bind _ = _
        rw [hpointer, hnat, hcopy, Option.bind_some]
        show (frame.store (i + 1) _).bind _ = _
        rw [hstore]
        rfl
      · rw [hpstate, hpstate₁]
        by_cases hlast : i + 1 = 33
        · obtain rfl : i = 32 := by omega
          rw [if_neg (by omega), if_pos rfl, if_pos (by omega)]
        · rw [if_neg hlast]
          have hsame : (i + 1 < 33 ∧ i + 1 + rows.length = 33)
              ↔ (i < 33 ∧ i + 1 + rows.length = 33) := by omega
          simp only [hsame]
      · intro j hj
        rw [hregisters j hj, hregisters₁ j (by omega)]
      · have hbelow : STACK_TOP - SYSCALL_EXEC_ARGUMENT_DIMENSION * (i + 1)
            ≤ STACK_TOP - SYSCALL_EXEC_ARGUMENT_DIMENSION * i := by omega
        have hrest := congrArg (List.drop (STACK_TOP - SYSCALL_EXEC_ARGUMENT_DIMENSION * i
          - (STACK_TOP - SYSCALL_EXEC_ARGUMENT_DIMENSION * (i + 1)))) hdrop
        rw [List.drop_drop, List.drop_drop, Nat.add_sub_cancel' hbelow] at hrest
        rw [hrest, drop_overwrite hroom hinside]
      · have hbelow : STACK_TOP - SYSCALL_EXEC_ARGUMENT_DIMENSION * (i + 1 + rows.length)
            ≤ argumentPlace i := by
          rw [hplace, htop, hdim]
          omega
        rw [htake, take_overwrite_of_le (by omega) hbelow]
      · intro j row' s hj hs
        cases j with
        | zero =>
            obtain rfl := Option.some.inj hj
            obtain rfl := hs.unique ht
            rw [Nat.add_zero, hplace, hdrop]
            exact Holds.drop_overwrite (by omega) ht.noZero
        | succ j =>
            rw [show i + (j + 1) = i + 1 + j by omega]
            exact hholds j row' s hj hs

/-- With 1 to 33 arguments that fit, the code is loaded. -/
theorem syscallExec_loads {readBytes : Option Int} (image : Image) (frame : PtRegs)
    (hloads : ¬ ExecFails readBytes) (hpos : 1 ≤ n) (hle : n ≤ 33)
    (hfits : ∀ i < n.toNat, Fits SYSCALL_EXEC_ARGUMENT_DIMENSION (argument arguments i)) :
    ∃ frame' memory, syscallExec readBytes image frame n arguments = some (.loaded frame' memory)
      ∧ frame'.pstate
        = (if n = 33 then BitVec.ofNat 64 (argumentPlace 32) else frame.pstate)
      ∧ (n < 31 → ExecResult.Loads image frame n arguments
        { frame' with pstate := frame.pstate } memory) := by
  obtain ⟨safe, hsafe, hlength, hsaved⟩ := saveArguments_of_fits n.toNat hfits
  have hrows : ∀ row ∈ safe, Fits SYSCALL_EXEC_ARGUMENT_DIMENSION row := by
    intro row hrow
    obtain ⟨i, hi⟩ := List.mem_iff_getElem?.mp hrow
    obtain ⟨s, -, hlt, hholds⟩ := hsaved i row hi
    exact ⟨s, hholds, hlt⟩
  obtain ⟨frame', memory, hpush, hpstate, hregisters, -, htake, hholds⟩ :=
    pushArguments_eq (frame.withRegister 0 (BitVec.ofInt 64 n)) 0 hrows
      (by omega) image.2
  rw [Nat.mul_zero, Nat.sub_zero, Nat.zero_add, hlength] at hpush
  rw [Nat.zero_add, hlength] at htake hpstate
  have harguments : safeArguments n
      = some (List.replicate n.toNat (memzero SYSCALL_EXEC_ARGUMENT_DIMENSION)) := if_pos (by omega)
  refine ⟨{ frame' with
      sp := BitVec.ofNat 64 (STACK_TOP - SYSCALL_EXEC_ARGUMENT_DIMENSION * n.toNat)
      pc := 0 }, memory, ?_, ?_, fun hbelow => ⟨hbelow, ?_, rfl, ?_, htake⟩⟩
  · cases readBytes with
    | none => exact absurd (fun n hn => by cases hn) hloads
    | some bytes =>
        have hbytes : ¬ bytes > PAGE_SIZE * 15 := by
          intro hlong
          apply hloads
          intro m hm
          obtain rfl := Option.some.inj hm
          exact hlong
        show (if bytes > PAGE_SIZE * 15 then _ else (safeArguments n).bind _) = _
        rw [if_neg hbytes, harguments, Option.bind_some]
        show (saveArguments _ arguments).bind _ = _
        rw [hsafe, Option.bind_some]
        show (frame.store 0 _).bind _ = _
        rw [PtRegs.store_of_lt _ (by omega), Option.bind_some]
        show (pushArguments _ image.1 _ 0 safe).bind _ = _
        rw [hpush]
        rfl
  · show frame'.pstate = _
    rw [hpstate]
    have hlast : (0 < 33 ∧ n.toNat = 33) ↔ n = 33 := by omega
    simp only [hlast]
    rfl
  · intro i hi
    show frame'.registers i = frame.registers i
    rw [hregisters i (by omega)]
    exact Function.update_of_ne (by omega) _ _
  · intro i hi
    have hlt : i < safe.length := by omega
    obtain ⟨s, hs, hslt, hrow⟩ := hsaved i safe[i] (List.getElem?_eq_getElem hlt)
    have hat := hholds i safe[i] s (List.getElem?_eq_getElem hlt) hrow
    rw [Nat.zero_add] at hat
    exact ⟨s, hs, hslt, hat⟩

/-- Up to 30 arguments leave `pstate` alone. -/
theorem syscallExec_of_fits {readBytes : Option Int} (image : Image) (frame : PtRegs)
    (hloads : ¬ ExecFails readBytes) (hpos : 1 ≤ n) (hle : n ≤ 30)
    (hfits : ∀ i < n.toNat, Fits SYSCALL_EXEC_ARGUMENT_DIMENSION (argument arguments i)) :
    ∃ r, syscallExec readBytes image frame n arguments = some r
      ∧ r.Keeps image frame n arguments := by
  obtain ⟨frame', memory, hexec, hpstate, hkeeps⟩ :=
    syscallExec_loads image frame hloads hpos (by omega) hfits
  obtain ⟨hbelow, hregisters, -, harguments, hrest⟩ := hkeeps (by omega)
  rw [if_neg (by omega)] at hpstate
  exact ⟨.loaded frame' memory, hexec, hbelow, hregisters, hpstate, harguments, hrest⟩

/-- The copies and the registers are in order exactly if the call fails early, or has between 1
and 30 arguments that all fit. -/
theorem syscallExec_keeps_iff (readBytes : Option Int) (image : Image) (frame : PtRegs) (n : Int)
    (arguments : Buffer) :
    (∃ r, syscallExec readBytes image frame n arguments = some r
        ∧ r.Keeps image frame n arguments)
      ↔ ExecFails readBytes
        ∨ 1 ≤ n ∧ n ≤ 30
          ∧ ∀ i < n.toNat, Fits SYSCALL_EXEC_ARGUMENT_DIMENSION (argument arguments i) := by
  by_cases hfails : ExecFails readBytes
  · refine iff_of_true ⟨.failed frame, ?_, rfl⟩ (.inl hfails)
    cases readBytes with
    | none => rfl
    | some bytes => exact if_pos (hfails bytes rfl)
  · rw [or_iff_right hfails]
    constructor
    · rintro ⟨r, hr, hkeeps⟩
      cases readBytes with
      | none => exact absurd (fun n hn => by cases hn) hfails
      | some bytes =>
          rw [syscallExec] at hr
          split at hr
          · next hlong =>
              refine absurd (fun m hm => ?_) hfails
              obtain rfl := Option.some.inj hm
              exact hlong
          · obtain ⟨safe, hsafe, hr⟩ := Option.bind_eq_some_iff.mp hr
            rw [safeArguments] at hsafe
            split at hsafe
            · next hpos =>
                obtain rfl := Option.some.inj hsafe
                obtain ⟨saved, hsaved, hr⟩ := Option.bind_eq_some_iff.mp hr
                obtain ⟨-, -, hr⟩ := Option.bind_eq_some_iff.mp hr
                obtain ⟨⟨frame', memory, sp⟩, -, hr⟩ := Option.bind_eq_some_iff.mp hr
                obtain ⟨frame₁, -, hr⟩ := Option.bind_eq_some_iff.mp hr
                obtain ⟨frame₂, -, hr⟩ := Option.bind_eq_some_iff.mp hr
                obtain rfl := Option.some.inj hr
                have hbelow : n < 31 := hkeeps.below
                exact ⟨by omega, by omega, fits_of_saveArguments _ hsaved⟩
            · cases hsafe
    · rintro ⟨hpos, hle, hfits⟩
      exact syscallExec_of_fits image frame hfails hpos hle hfits

end Exec

/-- The copies of `send_message`, `receive_message` and `syscall_exec` stay in the arrays that they
fill, and `syscall_exec` changes of the saved registers only those it may, exactly if the strings
that they copy are shorter than the arrays, and the number of arguments is between 1 and 30 where
`syscall_exec` does not fail before it looks at them. -/
theorem userCopies_bounded_iff (memory : PcbMemory) (stack userBody : BodyArray)
    (source destination : BitVec 64) (body : Buffer) (readBytes : Option Int) (image : Image)
    (frame : PtRegs) (n : Int) (arguments : Buffer) :
    ((memory.sendMessage stack source destination body).isSome
        ↔ Fits MAX_MESSAGES_BODY_SIZE body)
      ∧ ((memory.receiveMessage stack userBody.1).isSome
        ↔ memory.head = memory.tail
          ∨ Fits MAX_MESSAGES_BODY_SIZE (pcbMemory.load memory memory.tail).body)
      ∧ ((∃ r, syscallExec readBytes image frame n arguments = some r
          ∧ r.Keeps image frame n arguments)
        ↔ ExecFails readBytes
          ∨ 1 ≤ n ∧ n ≤ 30
            ∧ ∀ i < n.toNat, Fits SYSCALL_EXEC_ARGUMENT_DIMENSION (argument arguments i)) :=
  ⟨memory.sendMessage_isSome_iff stack source destination body,
    memory.receiveMessage_isSome_iff stack userBody,
    syscallExec_keeps_iff readBytes image frame n arguments⟩

/-- A body of 256 bytes and its zero do not fit, and the address of the 33rd argument overwrites
`pstate`. -/
theorem userCopies_unbounded :
    PcbMemory.sendMessage ⟨.ready, 0, 0, fun _ => ⟨0, 0, []⟩, 0, 0, 0, []⟩
        ⟨memzero MAX_MESSAGES_BODY_SIZE, List.length_replicate⟩ 0 0
        (List.replicate 256 65 ++ [NUL]) = none
      ∧ ∃ frame memory, syscallExec (some 1000) ⟨memzero STACK_TOP, List.length_replicate⟩ .zeroed
          33 (memzero (64 * 33)) = some (.loaded frame memory)
        ∧ PtRegs.zeroed.pstate = 0 ∧ frame.pstate = 63424 := by
  constructor
  · rw [← Option.not_isSome_iff_eq_none, PcbMemory.sendMessage_isSome_iff]
    intro hfits
    have hholds : Holds (List.replicate 256 65 ++ [NUL]) (List.replicate 256 65) :=
      ⟨⟨[], rfl⟩, fun h => absurd (List.eq_of_mem_replicate h) (by decide)⟩
    have hlt := hfits.holds hholds
    rw [List.length_replicate] at hlt
    exact absurd hlt (Nat.lt_irrefl 256)
  · have hloads : ¬ ExecFails (some 1000) := fun h => absurd (h 1000 rfl) (by decide)
    have hfits : ∀ i < (33 : Int).toNat,
        Fits SYSCALL_EXEC_ARGUMENT_DIMENSION (argument (memzero (64 * 33)) i) := by
      intro i hi
      refine ⟨[], ⟨⟨memzero (64 * 33 - 64 * i - 1), ?_⟩, List.not_mem_nil⟩, by decide⟩
      have hi' : i < 33 := hi
      have hdim : SYSCALL_EXEC_ARGUMENT_DIMENSION = 64 := rfl
      rw [argument, hdim, memzero, List.drop_replicate, memzero, List.nil_append,
        ← List.replicate_succ]
      congr 1
      omega
    obtain ⟨frame, memory, hexec, hpstate, -⟩ := syscallExec_loads
      ⟨memzero STACK_TOP, List.length_replicate⟩ .zeroed hloads (by decide) (by decide) hfits
    exact ⟨frame, memory, hexec, rfl, hpstate⟩

end DemoOS
