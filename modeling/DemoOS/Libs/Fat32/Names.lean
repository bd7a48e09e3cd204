import DemoOS.Libs.Fat32.Volume
import DemoOS.Common.String

/-!
# `DemoOS.Libs.Fat32.Names`: the entries of a directory

An entry has 32 bytes. It is a `Sfn`, with a short name and all that is known of a file, or a `Lfn`,
with thirteen characters of a long name. The long name of a file stands in front of its `Sfn`, with
the last characters first. A name that is passed with its length is the list of its bytes.
-/

set_option autoImplicit false

namespace DemoOS.Fat32

open Support

/-- The 32 bytes of an entry. -/
abbrev Record := Nat → UInt8

abbrev SFN_FREE : UInt8 := 0xe5
abbrev SFN_LAST : UInt8 := 0x00
abbrev SFN_PAD : UInt8 := 0x20

abbrev LFN_HEAD_MSK : UInt8 := 0x40
abbrev LFN_SEQ_MSK : UInt8 := 0x1f

abbrev FAT_ATTR_RO : UInt8 := 0x01
abbrev FAT_ATTR_SYS : UInt8 := 0x04
abbrev FAT_ATTR_LABEL : UInt8 := 0x08
abbrev FAT_ATTR_DIR : UInt8 := 0x10
abbrev FAT_ATTR_ARCHIVE : UInt8 := 0x20
abbrev FAT_ATTR_LFN : UInt8 := 0x0f

/-! ### Paths -/

/-- `to_upper`. -/
def toUpper (c : UInt8) : UInt8 := if 97 ≤ c ∧ c ≤ 122 then c &&& ~~~0x20 else c

/-- `subpath_len` and the characters it counts. -/
def subpath (path : List UInt8) : List UInt8 := path.takeWhile (· ≠ SLASH)

def subpathLen (path : List UInt8) : Nat := (subpath path).length

/-- `last_subpath_len`. -/
def lastSubpathLen (path : List UInt8) : Nat :=
  let len := subpathLen path
  if len = 0 then 0
  else if (path.drop len).dropWhile (· = SLASH) = [] then len else 0

/-! ### Timestamps -/

structure Timestamp where
  hour : Nat
  min : Nat
  sec : Nat
  day : Nat
  month : Nat
  year : Nat
deriving DecidableEq, Repr

/-- `decode_timestamp`. -/
def decodeTimestamp (date time : Nat) : Timestamp where
  day := date &&& 0x1f
  month := date >>> 5 &&& 0xf
  year := (date >>> 9 &&& 0x3f) + 1980
  hour := time >>> 11 &&& 0x1f
  min := time >>> 5 &&& 0x3f
  sec := 2 * (time &&& 0x1f)

/-- `encode_timestamp`: the date and the time. -/
def encodeTimestamp (ts : Timestamp) : Nat × Nat :=
  ((ts.year + 2 ^ 32 - 1980 &&& 0x3f) <<< 9 ||| (ts.month &&& 0xf) <<< 5 ||| (ts.day &&& 0x1f),
    (ts.sec / 2 &&& 0x1f) ||| (ts.min &&& 0x3f) <<< 5 ||| (ts.hour &&& 0x1f) <<< 11)

/-- `fat_get_timestamp`, which nothing overrides. -/
def fatGetTimestamp : Timestamp := ⟨0, 0, 0, 1, 1, 1980⟩

/-! ### Short names -/

/-- `sfn_is_last`. -/
def sfnIsLast (sfn : Record) : Bool := sfn 0 = SFN_LAST

/-- `sfn_is_free`. -/
def sfnIsFree (sfn : Record) : Bool := sfn 0 = SFN_LAST ∨ sfn 0 = SFN_FREE

/-- `sfn->attr`. -/
def sfnAttr (sfn : Record) : UInt8 := sfn 11

/-- `sfn_is_lfn`. -/
def sfnIsLfn (sfn : Record) : Bool := sfnAttr sfn = FAT_ATTR_LFN

/-- `sfn->name`. -/
def sfnName (sfn : Record) : List UInt8 := (List.range 11).map sfn

/-- `sfn_cluster`. -/
def sfnCluster (sfn : Record) : Nat :=
  u32 (ByteMemory.load sfn 20 2 <<< 16) ||| ByteMemory.load sfn 26 2

/-- `sfn->size`. -/
def sfnSize (sfn : Record) : Nat := ByteMemory.load sfn 28 4

/-- `get_crc`. -/
def getCrc (name : List UInt8) : UInt8 :=
  name.foldl (fun sum c => (sum &&& 1) <<< 7 + sum >>> 1 + c) 0

/-- The special characters that `sfn_char` allows: `!#$%&'()-@^_` and the rest of its string. -/
def sfnSpecials : List UInt8 :=
  [33, 35, 36, 37, 38, 39, 40, 41, 45, 64, 94, 95, 96, 123, 125, 126, 32]

/-- `sfn_char`. -/
def sfnChar (c : UInt8) : UInt8 :=
  let c := toUpper c
  if 65 ≤ c ∧ c ≤ 90 then c else if c ∈ sfnSpecials then c else 95

/-- A field of a short name, with `SFN_PAD` behind it. -/
def padded (size : Nat) (name : List UInt8) : List UInt8 :=
  name ++ List.replicate (size - name.length) SFN_PAD

/-- `put_sfn_name`. The first loop stops at a dot or after eight characters, the second one goes on
behind the next dot, and the third one takes three characters. -/
def putSfnName (name : List UInt8) : List UInt8 :=
  let stem := (name.take 8).takeWhile (· ≠ DOT)
  let ext := (((name.drop stem.length).dropWhile (· ≠ DOT)).drop 1).take 3
  padded 8 (stem.map sfnChar) ++ padded 3 (ext.map sfnChar)

/-- `parse_sfn_name`. -/
def parseSfnName (sfn : Record) : List UInt8 :=
  let stem := ((List.range 8).map sfn).takeWhile (· ≠ SFN_PAD)
  let ext := ((List.range 3).map fun i => sfn (8 + i)).takeWhile (· ≠ SFN_PAD)
  stem ++ (if sfn 8 ≠ SFN_PAD then [DOT] else []) ++ ext

/-- The assignments of `dir_add` to the `Sfn`. -/
def putSfn (name : List UInt8) (attr : UInt8) (clust date time : Nat) (sfn : Record) : Record :=
  let sfn := ByteMemory.patch sfn 0 11 fun i => name.getD i 0
  let sfn := ByteMemory.storeWord sfn 20 2 (clust >>> 16)
  let sfn := ByteMemory.storeWord sfn 26 2 (clust &&& 0xffff)
  let sfn := Function.update sfn 11 attr
  let sfn := Function.update (Function.update sfn 12 0) 13 0
  let sfn := ByteMemory.storeWord (ByteMemory.storeWord sfn 14 2 time) 22 2 time
  let sfn := ByteMemory.storeWord (ByteMemory.storeWord sfn 16 2 date) 24 2 date
  let sfn := ByteMemory.storeWord sfn 18 2 date
  ByteMemory.storeWord sfn 28 4 0

/-! ### Long names -/

/-- `g_lfn_indices`. -/
def lfnIndices : List Nat := [1, 3, 5, 7, 9, 14, 16, 18, 20, 22, 24, 28, 30]

/-- `lfn->seq`. -/
def lfnSeq (lfn : Record) : UInt8 := lfn 0

/-- `lfn->crc`. -/
def lfnCrc (lfn : Record) : UInt8 := lfn 13

/-- The two bytes that `put_lfn_name_frag` writes for a character: the name, one zero, and then
only `0xff`. -/
def lfnChar (name : List UInt8) (i : Nat) : UInt8 × UInt8 :=
  if i < name.length then (name.getD i 0, 0x00)
  else if i = name.length then (0x00, 0x00)
  else (0xff, 0xff)

/-- `put_lfn_name_frag`. -/
def putLfnNameFrag (name : List UInt8) (lfn : Record) : Record :=
  (List.range 13).foldl (fun lfn i =>
    let index := lfnIndices.getD i 0
    Function.update (Function.update lfn index (lfnChar name i).1) (index + 1) (lfnChar name i).2) lfn

/-- The assignments of `dir_add` to a `Lfn`. -/
def putLfn (name : List UInt8) (seq crc : UInt8) (lfn : Record) : Record :=
  let lfn := putLfnNameFrag name lfn
  let lfn := Function.update lfn 11 FAT_ATTR_LFN
  let lfn := Function.update lfn 0 seq
  let lfn := Function.update lfn 13 crc
  let lfn := Function.update lfn 12 0
  ByteMemory.storeWord lfn 26 2 0

end DemoOS.Fat32
