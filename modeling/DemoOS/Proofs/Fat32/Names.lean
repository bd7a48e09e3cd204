import DemoOS.Libs.Fat32.Directory
import Mathlib.Data.List.GetD
import Mathlib.Data.List.TakeWhile
import Mathlib.Tactic.IntervalCases

/-!
# `DemoOS.Proofs.Fat32.Names`: what is written into entries is read back

`fragment_putLfn` is the round trip of a part of a long name. `sfnName_putSfn`,
`sfnCluster_putSfn` and their like are those of the fields of a `Sfn`. A short name never begins
with a byte that marks a free entry (`putSfnName_head`), whatever the long one is.
-/

set_option autoImplicit false

namespace DemoOS.Fat32

open Support

/-! ### Records -/

/-- The 32 bytes of an entry, without what is behind them. -/
def trim (r : Record) : Record := fun b => if b < 32 then r b else 0

section Records
variable {buf : Sector} {r r' : Record} {idx idx' b : Nat}

theorem trim_of_lt (hb : b < 32) : trim r b = r b := if_pos hb

theorem recordAt_of_lt (hb : b < 32) : recordAt buf idx b = buf (idx + b) := if_pos hb

/-- An entry that is written is read back. -/
theorem recordAt_patch_self (buf : Sector) (idx : Nat) (r : Record) :
    recordAt (ByteMemory.patch buf idx 32 r) idx = trim r := by
  funext b
  unfold recordAt trim
  split
  · next hb => exact ByteMemory.patch_add hb
  · rfl

/-- The other entries of the sector stay. -/
theorem recordAt_patch_of_ne (hne : 32 * idx' ≠ 32 * idx) (r : Record) :
    recordAt (ByteMemory.patch buf (32 * idx) 32 r) (32 * idx') = recordAt buf (32 * idx') := by
  funext b
  unfold recordAt
  split
  · exact ByteMemory.patch_outside (by omega)
  · rfl

theorem load_trim {a n : Nat} (h : a + n ≤ 32) :
    ByteMemory.load (trim r) a n = ByteMemory.load r a n :=
  ByteMemory.load_congr fun _ _ _ => trim_of_lt (by omega)

@[simp] theorem sfnIsLast_trim (r : Record) : sfnIsLast (trim r) = sfnIsLast r := rfl

@[simp] theorem sfnIsFree_trim (r : Record) : sfnIsFree (trim r) = sfnIsFree r := rfl

@[simp] theorem sfnAttr_trim (r : Record) : sfnAttr (trim r) = sfnAttr r := rfl

@[simp] theorem sfnIsLfn_trim (r : Record) : sfnIsLfn (trim r) = sfnIsLfn r := rfl

@[simp] theorem lfnSeq_trim (r : Record) : lfnSeq (trim r) = lfnSeq r := rfl

@[simp] theorem lfnCrc_trim (r : Record) : lfnCrc (trim r) = lfnCrc r := rfl

@[simp] theorem sfnName_trim (r : Record) : sfnName (trim r) = sfnName r := rfl

@[simp] theorem fragChars_trim (r : Record) : fragChars (trim r) = fragChars r := rfl

@[simp] theorem fragment_trim (r : Record) : fragment (trim r) = fragment r := rfl

@[simp] theorem sfnCluster_trim (r : Record) : sfnCluster (trim r) = sfnCluster r := by
  rw [sfnCluster, sfnCluster, load_trim (by omega), load_trim (by omega)]

@[simp] theorem sfnSize_trim (r : Record) : sfnSize (trim r) = sfnSize r := by
  rw [sfnSize, sfnSize, load_trim (by omega)]

/-- A record of zeros. -/
theorem sfnIsLast_zero : sfnIsLast (fun _ => 0) = true := rfl

end Records

/-! ### Parts of a long name -/

section Long
variable {name : List UInt8} {seq crc : UInt8} {r : Record} {i : Nat}

/-- The bytes of the characters, after `n` rounds of `put_lfn_name_frag`. -/
theorem putLfnNameFrag_char (name : List UInt8) (r : Record) (hi : i < 13) :
    putLfnNameFrag name r (lfnIndices.getD i 0) = (lfnChar name i).1 := by
  interval_cases i <;> simp [putLfnNameFrag, lfnIndices, List.range_succ, Function.update]

theorem putLfn_char (hi : i < 13) :
    putLfn name seq crc r (lfnIndices.getD i 0) = (lfnChar name i).1 := by
  rw [← putLfnNameFrag_char name r hi]
  interval_cases i <;> simp [putLfn, lfnIndices, Function.update, ByteMemory.storeWord,
    ByteMemory.patch]

theorem fragChars_putLfn (name : List UInt8) (seq crc : UInt8) (r : Record) :
    fragChars (putLfn name seq crc r) = (List.range 13).map fun i => (lfnChar name i).1 := by
  refine List.ext_getElem (by simp [fragChars, lfnIndices]) fun i hi _ => ?_
  have hi' : i < 13 := by simpa [fragChars, lfnIndices] using hi
  have hlt : i < lfnIndices.length := hi'
  have hget : lfnIndices.getD i 0 = lfnIndices[i] := List.getD_eq_getElem lfnIndices 0 hlt
  simp only [fragChars, List.getElem_map, List.getElem_range]
  rw [← hget, putLfn_char hi']

@[simp] theorem lfnSeq_putLfn : lfnSeq (putLfn name seq crc r) = seq := by
  simp [lfnSeq, putLfn, Function.update, ByteMemory.storeWord, ByteMemory.patch]

@[simp] theorem lfnCrc_putLfn : lfnCrc (putLfn name seq crc r) = crc := by
  simp [lfnCrc, putLfn, Function.update, ByteMemory.storeWord, ByteMemory.patch]

@[simp] theorem sfnAttr_putLfn : sfnAttr (putLfn name seq crc r) = FAT_ATTR_LFN := by
  simp [sfnAttr, putLfn, Function.update, ByteMemory.storeWord, ByteMemory.patch]

theorem sfnIsFree_putLfn : sfnIsFree (putLfn name seq crc r) = decide (seq = 0 ∨ seq = 0xe5) := by
  have hseq : putLfn name seq crc r 0 = seq := lfnSeq_putLfn
  simp only [sfnIsFree, hseq]

/-- A character that a long name can have. -/
def NameChar (c : UInt8) : Prop := c ≠ 0x00 ∧ c ≠ 0xff

/-- A part of a name, and what is behind it. -/
theorem map_lfnChar (hlen : name.length ≤ 13) :
    (List.range 13).map (fun i => (lfnChar name i).1)
      = name ++ (if name.length < 13 then 0x00 :: List.replicate (12 - name.length) 0xff
        else []) := by
  refine List.ext_getElem ?_ fun i hi hi' => ?_
  · split <;> simp <;> omega
  · simp only [List.length_map, List.length_range] at hi
    simp only [List.getElem_map, List.getElem_range]
    rcases Nat.lt_trichotomy i name.length with hlt | heq | hgt
    · rw [List.getElem_append_left hlt, lfnChar, if_pos hlt]
      simp [hlt]
    · have h13 : name.length < 13 := by omega
      simp only [if_pos h13]
      rw [List.getElem_append_right (by omega)]
      simp [lfnChar, heq]
    · have h13 : name.length < 13 := by omega
      simp only [if_pos h13]
      rw [List.getElem_append_right (by omega), lfnChar, if_neg (by omega), if_neg (by omega)]
      rw [List.getElem_cons]
      split
      · omega
      · simp

/-- A part of a long name is read back. -/
theorem fragment_putLfn (hlen : name.length ≤ 13) (hname : ∀ c ∈ name, NameChar c) :
    fragment (putLfn name seq crc r) = name := by
  have htake : name.takeWhile (fun c => decide (c ≠ 0x00 ∧ c ≠ 0xff)) = name := by
    rw [List.takeWhile_eq_self_iff]
    exact fun c hc => decide_eq_true (hname c hc)
  rw [fragment, fragChars_putLfn, map_lfnChar hlen, List.takeWhile_append, htake,
    if_pos rfl]
  split
  · simp
  · simp

/-- No `0xff` is behind it. -/
theorem fragChars_putLfn_end (hlen : name.length ≤ 13) :
    (fragChars (putLfn name seq crc r))[name.length]? ≠ some 0xff := by
  rw [fragChars_putLfn, map_lfnChar hlen, List.getElem?_append_right (Nat.le_refl _), Nat.sub_self]
  split <;> simp

end Long

/-! ### Short names -/

section Short
variable {name : List UInt8} {c : UInt8}

/-- `sfn_char` returns no byte that marks a free entry. -/
theorem sfnChar_ne (c : UInt8) : sfnChar c ≠ SFN_LAST ∧ sfnChar c ≠ SFN_FREE := by
  unfold sfnChar
  simp only
  split
  · next h =>
      constructor
      · intro heq
        rw [heq] at h
        exact absurd h.1 (by decide)
      · intro heq
        rw [heq] at h
        exact absurd h.2 (by decide)
  · split
    · next h =>
        constructor
        · intro heq
          rw [heq] at h
          exact absurd h (by decide)
        · intro heq
          rw [heq] at h
          exact absurd h (by decide)
    · decide

theorem padded_length {size : Nat} (h : name.length ≤ size) : (padded size name).length = size := by
  rw [padded, List.length_append, List.length_replicate]
  omega

@[simp] theorem putSfnName_length (name : List UInt8) : (putSfnName name).length = 11 := by
  have hstem : ((name.take 8).takeWhile (· ≠ DOT)).length ≤ 8 :=
    (List.takeWhile_prefix _).length_le.trans (List.length_take_le _ _)
  rw [putSfnName, List.length_append, padded_length (by simpa using hstem),
    padded_length (by simp)]

/-- A short name does not begin like a free entry. -/
theorem putSfnName_head (name : List UInt8) :
    (putSfnName name).getD 0 0 ≠ SFN_LAST ∧ (putSfnName name).getD 0 0 ≠ SFN_FREE := by
  unfold putSfnName padded
  cases h : (name.take 8).takeWhile (· ≠ DOT) with
  | nil => exact ⟨show SFN_PAD ≠ SFN_LAST by decide, show SFN_PAD ≠ SFN_FREE by decide⟩
  | cons c stem => exact sfnChar_ne c

end Short

/-! ### The fields of a `Sfn` -/

section Fields
variable {name : List UInt8} {attr : UInt8} {clust date time : Nat} {r : Record}

theorem putSfn_name {i : Nat} (hi : i < 11) :
    putSfn name attr clust date time r i = name.getD i 0 := by
  simp only [putSfn, ByteMemory.storeWord]
  repeat rw [ByteMemory.patch_outside (by omega)]
  rw [Function.update_of_ne (by omega), Function.update_of_ne (by omega),
    Function.update_of_ne (by omega)]
  repeat rw [ByteMemory.patch_outside (by omega)]
  rw [ByteMemory.patch_inside (by omega), Nat.sub_zero]

theorem sfnName_putSfn (hlen : name.length = 11) :
    sfnName (putSfn name attr clust date time r) = name := by
  refine List.ext_getElem (by simp [sfnName, hlen]) fun i hi hi' => ?_
  simp only [sfnName, List.getElem_map, List.getElem_range]
  rw [putSfn_name (by omega)]
  simp [hi']

@[simp] theorem sfnAttr_putSfn : sfnAttr (putSfn name attr clust date time r) = attr := by
  simp only [sfnAttr, putSfn, ByteMemory.storeWord]
  repeat rw [ByteMemory.patch_outside (by omega)]
  rw [Function.update_of_ne (by omega), Function.update_of_ne (by omega), Function.update_self]

theorem sfnSize_putSfn : sfnSize (putSfn name attr clust date time r) = 0 :=
  ByteMemory.load_storeWord (by omega)

/-- The cluster is stored in two halves. -/
theorem sfnCluster_putSfn (hc : clust < 2 ^ 32) :
    sfnCluster (putSfn name attr clust date time r) = clust := by
  have hhi : ByteMemory.load (putSfn name attr clust date time r) 20 2 = clust >>> 16 := by
    have hbytes : ∀ i < 2, putSfn name attr clust date time r (20 + i)
        = ByteMemory.digit (clust >>> 16) i := fun i hi => by
      simp only [putSfn, ByteMemory.storeWord]
      repeat rw [ByteMemory.patch_outside (by omega)]
      rw [Function.update_of_ne (by omega), Function.update_of_ne (by omega),
        Function.update_of_ne (by omega), ByteMemory.patch_outside (by omega),
        ByteMemory.patch_add hi]
    rw [ByteMemory.load_digits hbytes]
    refine Nat.mod_eq_of_lt ?_
    rw [Nat.shiftRight_eq_div_pow]
    omega
  have hlo : ByteMemory.load (putSfn name attr clust date time r) 26 2 = clust &&& 0xffff := by
    have hbytes : ∀ i < 2, putSfn name attr clust date time r (26 + i)
        = ByteMemory.digit (clust &&& 0xffff) i := fun i hi => by
      simp only [putSfn, ByteMemory.storeWord]
      repeat rw [ByteMemory.patch_outside (by omega)]
      rw [Function.update_of_ne (by omega), Function.update_of_ne (by omega),
        Function.update_of_ne (by omega), ByteMemory.patch_add hi]
    rw [ByteMemory.load_digits hbytes]
    exact Nat.mod_eq_of_lt (Nat.lt_of_le_of_lt Nat.and_le_right (by omega))
  have hlow : clust &&& 0xffff = clust % 2 ^ 16 := Nat.and_two_pow_sub_one_eq_mod clust 16
  have hu : u32 (clust >>> 16 <<< 16) = clust >>> 16 <<< 16 := by
    refine Nat.mod_eq_of_lt ?_
    rw [Nat.shiftRight_eq_div_pow, Nat.shiftLeft_eq]
    omega
  rw [sfnCluster, hhi, hlo, hu, hlow,
    ← Nat.shiftLeft_add_eq_or_of_lt (Nat.mod_lt _ (Nat.two_pow_pos 16)),
    Nat.shiftRight_eq_div_pow, Nat.shiftLeft_eq]
  omega

theorem sfnIsFree_putSfn (name' : List UInt8) :
    sfnIsFree (putSfn (putSfnName name') attr clust date time r) = false := by
  have hhead := putSfnName_head name'
  simp only [sfnIsFree, putSfn_name (show 0 < 11 by omega)]
  simpa using hhead

end Fields

end DemoOS.Fat32
