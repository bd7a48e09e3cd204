import DemoOS.Common.Memory

/-!
# `DemoOS.Proofs.Common.MemoryPrimitives`: the range of the memory routines

The loops of `memzero` and `memcpy` test their counter after the first round, as a signed number,
`memzero` in steps of eight bytes and `memcpy` in the lower half of the register. `clearedBytes`
and `copiedBytes` are the lengths of the ranges that they change for every value of the counter;
`memset` and `memcmp` test before the first round and are right for every length. The main result
is `memoryPrimitives_keepRange`.
-/

set_option autoImplicit false

namespace DemoOS.Machine

open Support.WordMemory

/-! ## What the routines should do -/

/-- `memzero(dest, n)` clears the `n` bytes from `dest` on, and changes nothing else. -/
def Zeroes (dest n : BitVec 64) : Prop :=
  ∀ s : State, s.x0 = dest → s.x1 = n →
    ∃ s', memzero s = some s' ∧ s'.mem = patch s.mem dest n.toNat fun _ => 0

/-- `memcpy(dest, src, n)` copies the `n` bytes from `src` on, and changes nothing else. -/
def Copies (dest src n : BitVec 64) : Prop :=
  ∀ s : State, s.x0 = dest → s.x1 = src → s.x2 = n →
    ∃ s', memcpy s = some s'
      ∧ s'.mem = patch s.mem dest n.toNat fun i => s.mem (src + BitVec.ofNat 64 i)

/-- `memset(dest, c, n)` sets the `n` bytes from `dest` on to the byte `c`, and changes nothing
else. -/
def Sets (dest c n : BitVec 64) : Prop :=
  ∀ s : State, s.x0 = dest → s.x1 = c → s.x2 = n →
    ∃ s', memset s = some s' ∧ s'.mem = patch s.mem dest n.toNat fun _ => ⟨c.setWidth 8⟩

/-- `memcmp(a, b, n)` returns 0 exactly if the `n` bytes from `a` and from `b` on are the same, and
changes nothing. -/
def Compares (a b n : BitVec 64) : Prop :=
  ∀ s : State, s.x0 = a → s.x1 = b → s.x2 = n →
    ∃ s', memcmp s = some s' ∧ s'.mem = s.mem
      ∧ (lower s'.x0 = 0 ↔
        ∀ i < n.toNat, s.mem (a + BitVec.ofNat 64 i) = s.mem (b + BitVec.ofNat 64 i))

/-- The `n` bytes from `dest` on and those from `src` on do not overlap. -/
def Apart (dest src : BitVec 64) (n : Nat) : Prop :=
  ∀ i < n, ∀ j < n, dest + BitVec.ofNat 64 i ≠ src + BitVec.ofNat 64 j

/-! ## The condition of the loops -/

/-- `b.gt` after the subtraction of a number without sign bit: the counter is a positive signed
number, and greater. -/
theorem gt_subs_iff {w : Nat} {a c : BitVec (w + 1)} (hc : c.toNat < 2 ^ w) :
    (subs a c).gt = true ↔ c.toNat < a.toNat ∧ a.toNat < 2 ^ w := by
  have ha := a.isLt
  rw [Nat.pow_succ] at ha
  have hmsb : ∀ x : BitVec (w + 1), x.msb = decide (2 ^ w ≤ x.toNat) := fun x =>
    BitVec.msb_eq_decide x
  have hsub : (a - c).toNat
      = if c.toNat ≤ a.toNat then a.toNat - c.toNat else 2 ^ w * 2 + a.toNat - c.toNat := by
    rw [BitVec.toNat_sub, Nat.pow_succ]
    split
    · have hsum : 2 ^ w * 2 - c.toNat + a.toNat = 2 ^ w * 2 + (a.toNat - c.toNat) := by omega
      rw [hsum, Nat.add_mod_left, Nat.mod_eq_of_lt (by omega)]
    · rw [Nat.mod_eq_of_lt (by omega)]
      omega
  have hzero : a - c = 0 ↔ a.toNat = c.toNat := by
    rw [← BitVec.toNat_inj, hsub]
    show _ = (BitVec.ofNat (w + 1) 0).toNat ↔ _
    rw [BitVec.toNat_ofNat, Nat.zero_mod]
    split <;> omega
  simp only [Subs.gt, subs, hmsb, hzero, hsub, Bool.and_eq_true, Bool.not_eq_true',
    decide_eq_false_iff_not, beq_iff_eq, decide_eq_decide, ne_eq]
  split <;> omega

/-! ## `memzero` -/

/-- The length of the range that `memzero` clears. -/
def clearedBytes (n : Nat) : Nat := if 8 < n ∧ n < 2 ^ 63 then (n + 7) / 8 * 8 else 8

theorem memzeroLoop_spec {fuel : Nat} {s : State} (hfuel : s.x1.toNat < fuel) :
    ∃ s', memzeroLoop fuel s = some s'
      ∧ s'.mem = patch s.mem s.x0 (clearedBytes s.x1.toNat) fun _ => 0 := by
  induction fuel generalizing s with
  | zero => omega
  | succ fuel ih =>
      have hgt : (subs s.x1 8).gt = true ↔ 8 < s.x1.toNat ∧ s.x1.toNat < 2 ^ 63 :=
        gt_subs_iff (w := 63) (by decide)
      by_cases h : 8 < s.x1.toNat ∧ s.x1.toNat < 2 ^ 63
      · have hcounter : (s.x1 - 8).toNat = s.x1.toNat - 8 := by
          bv_omega
        obtain ⟨s', hrun, hmem⟩ := ih (s := ⟨s.x0 + 8, s.x1 - 8, s.x2, s.x3, s.x4, s.x5,
          storeZeros s.mem s.x0⟩) (show (s.x1 - 8).toNat < fuel by omega)
        refine ⟨s', ?_, ?_⟩
        · show (if (subs s.x1 8).gt then memzeroLoop fuel _ else some _) = some s'
          rw [if_pos (hgt.mpr h)]
          exact hrun
        · -- The rest of the range is behind the eight bytes of this round.
          have hsum : 8 + clearedBytes (s.x1.toNat - 8) = clearedBytes s.x1.toNat := by
            unfold clearedBytes
            rw [if_pos h]
            split <;> omega
          have hle : 8 + clearedBytes (s.x1.toNat - 8) ≤ 2 ^ 64 := by
            rw [hsum, clearedBytes, if_pos h]
            omega
          rw [hmem, ← hsum, ← patch_patch_const hle]
          show patch (storeZeros s.mem s.x0) (s.x0 + 8) (clearedBytes (s.x1 - 8).toNat) _ = _
          rw [hcounter]
          rfl
      · refine ⟨⟨s.x0 + 8, s.x1 - 8, s.x2, s.x3, s.x4, s.x5, storeZeros s.mem s.x0⟩, ?_, ?_⟩
        · show (if (subs s.x1 8).gt then memzeroLoop fuel _ else some _) = some _
          rw [if_neg (hgt.not.mpr h)]
          rfl
        · rw [clearedBytes, if_neg h]
          rfl

/-- Ranges of one value in a memory of another are equal only if they have the same length. -/
theorem length_of_patch_eq {mem : BitVec 64 → UInt8} {base : BitVec 64} {m n : Nat} {c : UInt8}
    (hmem : ∀ a, mem a ≠ c) (hlt : m < n) (hm : m < 2 ^ 64)
    (h : patch mem base m (fun _ => c) = patch mem base n fun _ => c) : False := by
  have hcell := congrFun h (base + BitVec.ofNat 64 m)
  rw [patch_inside hlt hm, patch_outside (Nat.le_of_eq (distance_add hm).symm)] at hcell
  exact hmem _ hcell

/-- `memzero` clears the range that it is asked to clear exactly for these lengths. -/
theorem zeroes_iff (dest n : BitVec 64) :
    Zeroes dest n ↔ 0 < n.toNat ∧ n.toNat % 8 = 0 ∧ n.toNat < 2 ^ 63 := by
  have hn := n.isLt
  have hcleared : clearedBytes n.toNat = n.toNat
      ↔ 0 < n.toNat ∧ n.toNat % 8 = 0 ∧ n.toNat < 2 ^ 63 := by
    unfold clearedBytes
    split <;> omega
  rw [← hcleared]
  constructor
  · intro h
    obtain ⟨s', hrun, hmem⟩ := h ⟨dest, n, 0, 0, 0, 0, fun _ => 1⟩ rfl rfl
    obtain ⟨s'', hrun', hmem'⟩ :=
      memzeroLoop_spec (s := ⟨dest, n, 0, 0, 0, 0, fun _ => 1⟩) (Nat.lt_succ_self n.toNat)
    obtain rfl : s' = s'' := Option.some.inj (hrun.symm.trans hrun')
    have hpatch : patch (fun _ => (1 : UInt8)) dest (clearedBytes n.toNat) (fun _ => 0)
        = patch (fun _ => 1) dest n.toNat fun _ => 0 := hmem'.symm.trans hmem
    have hbound : clearedBytes n.toNat < 2 ^ 64 := by
      unfold clearedBytes
      split <;> omega
    rcases Nat.lt_trichotomy (clearedBytes n.toNat) n.toNat with hlt | heq | hlt
    · exact (length_of_patch_eq (fun _ => by decide) hlt hbound hpatch).elim
    · exact heq
    · exact (length_of_patch_eq (fun _ => by decide) hlt hn hpatch.symm).elim
  · intro h s hdest hlen
    obtain ⟨s', hrun, hmem⟩ := memzeroLoop_spec (Nat.lt_succ_self s.x1.toNat)
    refine ⟨s', hrun, ?_⟩
    rw [hmem, hdest, hlen, h]

/-! ## `memcpy` -/

/-- The length of the range that `memcpy` copies, for the lower half of its counter. -/
def copiedBytes (n : Nat) : Nat := if 1 < n ∧ n < 2 ^ 31 then n else 1

/-- A byte that is loaded and stored is copied. -/
theorem storeByte_loadByte (mem : BitVec 64 → UInt8) (a b : BitVec 64) :
    storeByte mem a (loadByte mem b) = patch mem a 1 fun _ => mem b := by
  have hbyte : (⟨((mem b).toBitVec.setWidth 64).setWidth 8⟩ : UInt8) = mem b := by
    rw [BitVec.setWidth_setWidth_of_le _ (by omega), BitVec.setWidth_eq]
  show patch mem a 1 (fun _ => _) = _
  rw [loadByte, hbyte]

theorem sub_eq_zero_iff {w : Nat} {a b : BitVec w} : a - b = 0 ↔ a = b := by
  show a - b = 0#w ↔ a = b
  rw [BitVec.sub_eq_iff_eq_add, BitVec.zero_add]

theorem add_ofNat_zero (a : BitVec 64) : a + BitVec.ofNat 64 0 = a := BitVec.add_zero a

theorem ofNat_succ (i : Nat) : (1 : BitVec 64) + BitVec.ofNat 64 i = BitVec.ofNat 64 (i + 1) := by
  rw [Nat.add_comm, BitVec.ofNat_add]
  rfl

/-- No byte is stored to before it is read. -/
def ReadFirst (dest src : BitVec 64) (n : Nat) : Prop :=
  ∀ j < n, ∀ i < j, dest + BitVec.ofNat 64 i ≠ src + BitVec.ofNat 64 j

theorem Apart.readFirst {dest src : BitVec 64} {n : Nat} (h : Apart dest src n) :
    ReadFirst dest src n := by
  intro j hj i hi
  exact h i (by omega) j hj

theorem ReadFirst.one (dest src : BitVec 64) : ReadFirst dest src 1 := by
  intro j hj i hi
  omega

theorem ReadFirst.tail {dest src : BitVec 64} {n : Nat} (h : ReadFirst dest src (n + 1)) :
    ReadFirst (dest + 1) (src + 1) n := by
  intro j hj i hi
  rw [BitVec.add_assoc, BitVec.add_assoc, ofNat_succ, ofNat_succ]
  exact h (j + 1) (by omega) (i + 1) (by omega)

/-- After its first byte, a copy still reads the old bytes of the source. -/
theorem patch_copy {mem : BitVec 64 → UInt8} {dest src : BitVec 64} {n : Nat} (hn : n + 1 ≤ 2 ^ 64)
    (h : ReadFirst dest src (n + 1)) :
    patch (patch mem dest 1 fun _ => mem src) (dest + 1) n
        (fun i => patch mem dest 1 (fun _ => mem src) (src + 1 + BitVec.ofNat 64 i))
      = patch mem dest (n + 1) fun i => mem (src + BitVec.ofNat 64 i) := by
  have hsource : ∀ i < n, patch mem dest 1 (fun _ => mem src) (src + 1 + BitVec.ofNat 64 i)
      = mem (src + BitVec.ofNat 64 (i + 1)) := by
    intro i hi
    rw [BitVec.add_assoc, ofNat_succ]
    apply patch_outside
    -- The first byte of the destination is not there.
    have hne := h (i + 1) (by omega) 0 (by omega)
    rw [add_ofNat_zero] at hne
    have hsub : src + BitVec.ofNat 64 (i + 1) - dest ≠ 0 := by
      intro hzero
      exact hne (sub_eq_zero_iff.mp hzero).symm
    exact Nat.one_le_iff_ne_zero.mpr fun hzero => hsub (BitVec.eq_of_toNat_eq hzero)
  rw [patch_congr hsource]
  show patch _ (dest + BitVec.ofNat 64 1) n _ = _
  rw [patch_patch (by omega), Nat.add_comm 1 n]
  apply patch_congr
  intro i hi
  rcases Nat.eq_zero_or_pos i with rfl | hpos
  · rw [if_pos (by omega), add_ofNat_zero]
  · rw [if_neg (by omega), Nat.sub_add_cancel hpos]

/-- What the loop of `memcpy` does, for every value of its counter. -/
theorem memcpyLoop_spec {fuel : Nat} {s : State} (hfuel : (lower s.x2).toNat < fuel) :
    ∃ s', memcpyLoop fuel s = some s'
      ∧ (∀ a, copiedBytes (lower s.x2).toNat ≤ (a - s.x0).toNat → s'.mem a = s.mem a)
      ∧ (ReadFirst s.x0 s.x1 (copiedBytes (lower s.x2).toNat) →
        s'.mem = patch s.mem s.x0 (copiedBytes (lower s.x2).toNat)
          fun i => s.mem (s.x1 + BitVec.ofNat 64 i)) := by
  induction fuel generalizing s with
  | zero => omega
  | succ fuel ih =>
      have hgt : (subs (lower s.x2) 1).gt = true
          ↔ 1 < (lower s.x2).toNat ∧ (lower s.x2).toNat < 2 ^ 31 :=
        gt_subs_iff (w := 31) (by decide)
      have hbyte := storeByte_loadByte s.mem s.x0 s.x1
      have hlower : lower ((lower s.x2 - 1).setWidth 64) = lower s.x2 - 1 := by
        rw [lower, BitVec.setWidth_setWidth_of_le _ (by omega), BitVec.setWidth_eq]
      obtain ⟨s₁, hs₁⟩ : ∃ s₁ : State, s₁ = ⟨s.x0 + 1, s.x1 + 1, (lower s.x2 - 1).setWidth 64,
        loadByte s.mem s.x1, s.x4, s.x5, storeByte s.mem s.x0 (loadByte s.mem s.x1)⟩ := ⟨_, rfl⟩
      have hround : memcpyLoop (fuel + 1) s
          = if (subs (lower s.x2) 1).gt then memcpyLoop fuel s₁ else some s₁ := by
        rw [hs₁]
        rfl
      by_cases h : 1 < (lower s.x2).toNat ∧ (lower s.x2).toNat < 2 ^ 31
      · have hcounter : (lower s₁.x2).toNat + 1 = (lower s.x2).toNat := by
          rw [hs₁]
          show (lower ((lower s.x2 - 1).setWidth 64)).toNat + 1 = _
          rw [hlower]
          bv_omega
        have hrest : copiedBytes (lower s₁.x2).toNat + 1 = copiedBytes (lower s.x2).toNat := by
          unfold copiedBytes
          rw [if_pos h]
          split <;> omega
        have hbound : copiedBytes (lower s₁.x2).toNat + 1 ≤ 2 ^ 64 := by
          rw [hrest, copiedBytes, if_pos h]
          omega
        obtain ⟨s', hrun, hframe, hcopy⟩ := ih (s := s₁) (by omega)
        refine ⟨s', ?_, ?_, ?_⟩
        · rw [hround, if_pos (hgt.mpr h)]
          exact hrun
        · intro a ha
          rw [← hrest] at ha
          have hdistance : (a - s₁.x0).toNat = (a - s.x0).toNat - 1 := by
            rw [hs₁]
            show (a - (s.x0 + BitVec.ofNat 64 1)).toNat = _
            rw [distance_move (by omega), if_pos (by omega)]
          rw [hframe a (by omega), hs₁]
          show storeByte s.mem s.x0 (loadByte s.mem s.x1) a = s.mem a
          rw [hbyte, patch_outside (by omega)]
        · intro hapart
          rw [← hrest] at hapart ⊢
          have htail : ReadFirst s₁.x0 s₁.x1 (copiedBytes (lower s₁.x2).toNat) := by
            rw [hs₁] at hapart ⊢
            exact hapart.tail
          rw [hcopy htail, ← patch_copy hbound hapart, ← hbyte, hs₁]
      · have hone : copiedBytes (lower s.x2).toNat = 1 := if_neg h
        refine ⟨s₁, ?_, ?_, ?_⟩
        · rw [hround, if_neg (hgt.not.mpr h)]
        · intro a ha
          rw [hone] at ha
          rw [hs₁]
          show storeByte s.mem s.x0 (loadByte s.mem s.x1) a = s.mem a
          rw [hbyte, patch_outside ha]
        · intro _
          rw [hone, hs₁]
          show storeByte s.mem s.x0 (loadByte s.mem s.x1) = _
          rw [hbyte]
          apply patch_congr
          intro i hi
          rw [Nat.lt_one_iff.mp hi, add_ofNat_zero]

/-- `memcpy` copies the range that it is asked to copy exactly for these lengths, and for a length
of zero when the byte that it copies is the one that it stores to. -/
theorem copies_iff {dest src n : BitVec 64} (hapart : Apart dest src n.toNat) :
    Copies dest src n ↔ (0 < n.toNat ∧ n.toNat < 2 ^ 31) ∨ (n = 0 ∧ dest = src) := by
  have hn := n.isLt
  have hlower : (lower n).toNat = n.toNat % 2 ^ 32 := BitVec.toNat_setWidth 32 n
  constructor
  · intro h
    by_cases hzero : n = 0
    · -- One byte is copied, and it may be another one.
      subst hzero
      by_cases heq : dest = src
      · exact Or.inr ⟨rfl, heq⟩
      · obtain ⟨s', hrun, hmem⟩ :=
          h ⟨dest, src, 0, 0, 0, 0, fun a => if a = src then 1 else 0⟩ rfl rfl rfl
        obtain ⟨s'', hrun', -, hcopy⟩ := memcpyLoop_spec
          (s := ⟨dest, src, 0, 0, 0, 0, fun a => if a = src then 1 else 0⟩) (Nat.lt_succ_self _)
        obtain rfl : s' = s'' := Option.some.inj (hrun.symm.trans hrun')
        have hcell := congrFun (hmem.symm.trans (hcopy (.one dest src))) dest
        replace hcell : (if dest = src then (1 : UInt8) else 0)
            = patch _ dest 1 _ dest := hcell
        rw [if_neg heq, patch, BitVec.sub_self] at hcell
        replace hcell : (0 : UInt8) = if src + BitVec.ofNat 64 0 = src then 1 else 0 := hcell
        rw [add_ofNat_zero, if_pos rfl] at hcell
        exact absurd hcell (by decide)
    · have hpos : 0 < n.toNat := by
        rcases Nat.eq_zero_or_pos n.toNat with h0 | hpos
        · exact absurd (BitVec.eq_of_toNat_eq h0) hzero
        · exact hpos
      by_cases hlt : n.toNat < 2 ^ 31
      · exact Or.inl ⟨hpos, hlt⟩
      · -- The byte behind those that are copied stays.
        obtain ⟨m, hm⟩ : ∃ m, m = copiedBytes (lower n).toNat := ⟨_, rfl⟩
        have hmn : m < n.toNat := by
          rw [hm, hlower]
          unfold copiedBytes
          split <;> omega
        obtain ⟨mem, hdef⟩ : ∃ mem : BitVec 64 → UInt8,
          mem = fun a => if a = src + BitVec.ofNat 64 m then 1 else 0 := ⟨_, rfl⟩
        obtain ⟨s', hrun, hmem⟩ := h ⟨dest, src, n, 0, 0, 0, mem⟩ rfl rfl rfl
        obtain ⟨s'', hrun', hframe, -⟩ :=
          memcpyLoop_spec (s := ⟨dest, src, n, 0, 0, 0, mem⟩) (Nat.lt_succ_self _)
        obtain rfl : s' = s'' := Option.some.inj (hrun.symm.trans hrun')
        have hstays : s'.mem (dest + BitVec.ofNat 64 m) = mem (dest + BitVec.ofNat 64 m) := by
          apply hframe
          show copiedBytes (lower n).toNat ≤ (dest + BitVec.ofNat 64 m - dest).toNat
          rw [distance_add (by omega), hm]
        have hcell : s'.mem (dest + BitVec.ofNat 64 m) = mem (src + BitVec.ofNat 64 m) := by
          rw [hmem]
          exact patch_inside hmn (by omega)
        rw [hstays, hdef] at hcell
        replace hcell : (if dest + BitVec.ofNat 64 m = src + BitVec.ofNat 64 m then (1 : UInt8)
          else 0) = if src + BitVec.ofNat 64 m = src + BitVec.ofNat 64 m then 1 else 0 := hcell
        rw [if_neg (hapart m hmn m hmn), if_pos rfl] at hcell
        exact absurd hcell (by decide)
  · intro h s hdest hsrc hlen
    subst hdest hsrc hlen
    obtain ⟨s', hrun, hframe, hcopy⟩ := memcpyLoop_spec (Nat.lt_succ_self (lower s.x2).toNat)
    refine ⟨s', hrun, ?_⟩
    rcases h with ⟨hpos, hlt⟩ | ⟨hzero, heq⟩
    · have hbytes : copiedBytes (lower s.x2).toNat = s.x2.toNat := by
        rw [hlower]
        unfold copiedBytes
        split <;> omega
      rw [hbytes] at hcopy
      exact hcopy hapart.readFirst
    · -- The byte is copied to itself.
      have hbytes : copiedBytes (lower s.x2).toNat = 1 := by
        rw [hzero]
        rfl
      rw [hbytes] at hcopy
      rw [hcopy (.one _ _), hzero, heq]
      show patch s.mem s.x1 1 _ = patch s.mem s.x1 0 _
      rw [patch_zero]
      funext a
      by_cases ha : a = s.x1
      · rw [ha, patch, BitVec.sub_self]
        exact congrArg s.mem (add_ofNat_zero s.x1)
      · apply patch_outside
        refine Nat.one_le_iff_ne_zero.mpr fun hd => ha ?_
        exact sub_eq_zero_iff.mp (BitVec.eq_of_toNat_eq hd)

/-! ## `memset` and `memcmp` -/

theorem memsetLoop_spec {fuel : Nat} {s : State} (hfuel : s.x2.toNat < fuel) :
    ∃ s', memsetLoop fuel s = some s'
      ∧ s'.mem = patch s.mem s.x0 s.x2.toNat fun _ => ⟨s.x1.setWidth 8⟩ := by
  induction fuel generalizing s with
  | zero => omega
  | succ fuel ih =>
      by_cases hzero : s.x2 = 0
      · refine ⟨exit s, ?_, ?_⟩
        · show (if s.x2 = 0 then _ else _) = _
          rw [if_pos hzero]
        · rw [hzero]
          exact patch_zero.symm
      · have hbound := s.x2.isLt
        have hcounter : (s.x2 - 1).toNat + 1 = s.x2.toNat := by bv_omega
        obtain ⟨s', hrun, hmem⟩ := ih (s := ⟨s.x0 + 1, s.x1, s.x2 - 1, s.x3, s.x4, s.x5,
          storeByte s.mem s.x0 s.x1⟩) (show (s.x2 - 1).toNat < fuel by omega)
        refine ⟨s', ?_, ?_⟩
        · show (if s.x2 = 0 then _ else memsetLoop fuel _) = _
          rw [if_neg hzero]
          exact hrun
        · have hle : 1 + (s.x2 - 1).toNat ≤ 2 ^ 64 := by omega
          rw [hmem, ← hcounter, Nat.add_comm _ 1]
          exact patch_patch_const hle

/-- `memset` is right for every length. -/
theorem sets (dest c n : BitVec 64) : Sets dest c n := by
  intro s hdest hc hlen
  subst hdest hc hlen
  exact memsetLoop_spec (Nat.lt_succ_self s.x2.toNat)

/-- The end of `memcmp` for equal bytes: `memset` has nothing to do, and 0 is returned. -/
theorem equal_spec {s : State} (h : s.x2 = 0) : equal s = some (exit { s with x5 := 0 }) := by
  show memsetLoop (s.x2.toNat + 1) { s with x5 := 0 } = _
  show (if s.x2 = 0 then _ else _) = _
  rw [if_pos h]

/-- The difference of two bytes in `w` registers is zero for equal bytes only. -/
theorem difference_eq_zero_iff (mem : BitVec 64 → UInt8) (a b : BitVec 64) :
    lower ((lower (loadByte mem a) - lower (loadByte mem b)).setWidth 64) = 0 ↔ mem a = mem b := by
  have hload : ∀ c, lower (loadByte mem c) = (mem c).toBitVec.setWidth 32 := by
    intro c
    rw [lower, loadByte, BitVec.setWidth_setWidth_of_le _ (by omega)]
  have hlower : ∀ x : BitVec 32, lower (x.setWidth 64) = x := by
    intro x
    rw [lower, BitVec.setWidth_setWidth_of_le _ (by omega), BitVec.setWidth_eq]
  rw [hlower, hload, hload, sub_eq_zero_iff]
  constructor
  · intro h
    have hbyte := congrArg (BitVec.setWidth 8) h
    rw [BitVec.setWidth_setWidth_of_le _ (by omega), BitVec.setWidth_setWidth_of_le _ (by omega),
      BitVec.setWidth_eq, BitVec.setWidth_eq] at hbyte
    exact UInt8.toBitVec_inj.mp hbyte
  · intro h
    rw [h]

theorem memcmpLoop_spec {fuel : Nat} {s : State} (hpos : s.x2 ≠ 0) (hfuel : s.x2.toNat < fuel) :
    ∃ s', memcmpLoop fuel s = some s' ∧ s'.mem = s.mem
      ∧ (lower s'.x0 = 0 ↔ ∀ i < s.x2.toNat,
        s.mem (s.x0 + BitVec.ofNat 64 i) = s.mem (s.x1 + BitVec.ofNat 64 i)) := by
  induction fuel generalizing s with
  | zero => omega
  | succ fuel ih =>
      have hcounter : (s.x2 - 1).toNat + 1 = s.x2.toNat := by bv_omega
      have hdifference := difference_eq_zero_iff s.mem s.x0 s.x1
      obtain ⟨d, hd⟩ : ∃ d : BitVec 64,
        d = (lower (loadByte s.mem s.x0) - lower (loadByte s.mem s.x1)).setWidth 64 := ⟨_, rfl⟩
      obtain ⟨s₁, hs₁⟩ : ∃ s₁ : State, s₁ = ⟨s.x0 + 1, s.x1 + 1, s.x2, loadByte s.mem s.x0,
        loadByte s.mem s.x1, d, s.mem⟩ := ⟨_, rfl⟩
      have hround : memcmpLoop (fuel + 1) s = if lower d ≠ 0 then some (exit s₁)
          else if s.x2 - 1 ≠ 0 then memcmpLoop fuel { s₁ with x2 := s.x2 - 1 }
          else equal { s₁ with x2 := s.x2 - 1 } := by
        rw [hs₁, hd]
        rfl
      rw [← hd] at hdifference
      -- The first bytes, and the others.
      have hall : (∀ i < s.x2.toNat,
            s.mem (s.x0 + BitVec.ofNat 64 i) = s.mem (s.x1 + BitVec.ofNat 64 i))
          ↔ s.mem s.x0 = s.mem s.x1 ∧ ∀ i < (s.x2 - 1).toNat,
            s.mem (s.x0 + 1 + BitVec.ofNat 64 i) = s.mem (s.x1 + 1 + BitVec.ofNat 64 i) := by
        rw [← hcounter]
        constructor
        · intro h
          have hfirst := h 0 (Nat.zero_lt_succ _)
          rw [add_ofNat_zero, add_ofNat_zero] at hfirst
          refine ⟨hfirst, fun i hi => ?_⟩
          rw [BitVec.add_assoc, BitVec.add_assoc, ofNat_succ]
          exact h (i + 1) (by omega)
        · rintro ⟨hfirst, hrest⟩ i hi
          cases i with
          | zero => rw [add_ofNat_zero, add_ofNat_zero, hfirst]
          | succ i =>
              have hi' := hrest i (by omega)
              rwa [BitVec.add_assoc, BitVec.add_assoc, ofNat_succ] at hi'
      by_cases hne : lower d = 0
      · have hfirst := hdifference.mp hne
        rw [hround, if_neg (not_not_intro hne)]
        by_cases hlast : s.x2 - 1 = 0
        · refine ⟨_, (if_neg (not_not_intro hlast)).trans (equal_spec hlast), ?_, ?_⟩
          · rw [hs₁]
            rfl
          · rw [hall, hlast]
            refine iff_of_true rfl ⟨hfirst, fun i hi => ?_⟩
            exact absurd hi (Nat.not_lt_zero i)
        · obtain ⟨s', hrun, hmem, hiff⟩ := ih (s := { s₁ with x2 := s.x2 - 1 }) hlast
            (show (s.x2 - 1).toNat < fuel by omega)
          refine ⟨s', (if_pos hlast).trans hrun, ?_, ?_⟩
          · rw [hmem, hs₁]
          · rw [hiff, hall, hs₁]
            exact (and_iff_right hfirst).symm
      · rw [hround, if_pos hne]
        refine ⟨_, rfl, by rw [hs₁]; rfl, ?_⟩
        rw [hall, hs₁]
        have hexit : lower (exit ⟨s.x0 + 1, s.x1 + 1, s.x2, loadByte s.mem s.x0,
            loadByte s.mem s.x1, d, s.mem⟩).x0 = lower d := by
          show lower ((lower d).setWidth 64) = lower d
          rw [lower, BitVec.setWidth_setWidth_of_le _ (by omega), BitVec.setWidth_eq]
        rw [hexit]
        exact iff_of_false hne fun h => hne (hdifference.mpr h.1)

/-- `memcmp` is right for every length. -/
theorem compares (a b n : BitVec 64) : Compares a b n := by
  intro s ha hb hlen
  subst ha hb hlen
  by_cases hzero : s.x2 = 0
  · refine ⟨_, (if_pos hzero).trans (equal_spec hzero), rfl, ?_⟩
    rw [hzero]
    exact iff_of_true rfl fun i hi => absurd hi (Nat.not_lt_zero i)
  · obtain ⟨s', hrun, hrest⟩ := memcmpLoop_spec hzero (Nat.lt_succ_self s.x2.toNat)
    exact ⟨s', (if_neg hzero).trans hrun, hrest⟩

/-! ## The routines together -/

/-- For every address and every length, and whatever the memory contains: `memset` and `memcmp` do
what they should, `memzero` does exactly for positive multiples of eight, and `memcpy`, on ranges
that do not overlap, exactly for positive lengths of 31 bits; a length of zero is harmless when the
byte that is copied all the same is copied to itself. -/
theorem memoryPrimitives_keepRange (a b c n : BitVec 64) :
    (Zeroes a n ↔ 0 < n.toNat ∧ n.toNat % 8 = 0 ∧ n.toNat < 2 ^ 63)
    ∧ (Apart a b n.toNat →
      (Copies a b n ↔ (0 < n.toNat ∧ n.toNat < 2 ^ 31) ∨ (n = 0 ∧ a = b)))
    ∧ Sets a c n
    ∧ Compares a b n :=
  ⟨zeroes_iff a n, copies_iff, sets a c n, compares a b n⟩

/-- Copying eight bytes between two pages. -/
theorem memoryPrimitives_copy_eight : Copies 0x1000 0x2000 8 := by
  have hapart : Apart 0x1000 0x2000 (8 : BitVec 64).toNat := by
    show ∀ i < 8, ∀ j < 8, (0x1000 : BitVec 64) + BitVec.ofNat 64 i ≠ 0x2000 + BitVec.ofNat 64 j
    decide
  exact ((memoryPrimitives_keepRange 0x1000 0x2000 0 8).2.1 hapart).mpr (Or.inl (by decide))

/-- Clearing no byte clears eight, as `syscall_exec` does without arguments. -/
theorem memzero_nothing : ¬ Zeroes 0x1000 0 := by
  intro h
  obtain ⟨s', hrun, hmem⟩ := h ⟨0x1000, 0, 0, 0, 0, 0, fun _ => 1⟩ rfl rfl
  have hbyte : (memzero ⟨0x1000, 0, 0, 0, 0, 0, fun _ => 1⟩).map (fun s => s.mem 0x1000)
      = some 0 := by decide
  rw [hrun, Option.map_some, hmem] at hbyte
  exact absurd (Option.some.inj hbyte) (by decide)

end DemoOS.Machine
