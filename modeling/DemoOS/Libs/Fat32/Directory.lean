import DemoOS.Libs.Fat32.Names

/-!
# `DemoOS.Libs.Fat32.Directory`: the directories of `libs/fat32/fat.c`

A `Dir` is a place in a directory, and the functions that walk through directories change it. They
share the volume and the three globals into which a name is parsed. A directory whose chain comes
back to itself is walked for ever, and so the number of rounds is bounded by the number of entries
that a volume has.
-/

set_option autoImplicit false

namespace DemoOS.Fat32

open Support

/-- `Dir`. The field `fat` says whether the pointer is not null. -/
structure Dir where
  fat : Bool
  sclust : Nat
  clust : Nat
  sect : Nat
  idx : Nat
deriving DecidableEq, Repr

/-- `g_buf`, `g_len` and `g_crc`. -/
structure Names where
  buf : Nat → UInt8
  len : Nat
  crc : UInt8

structure Loc where
  sect : Nat
  idx : Nat
deriving DecidableEq, Repr

/-- What the functions share: a `Dir`, the names, and the variables of their callers that they get
pointers to. -/
structure Walk where
  volume : Volume
  dir : Dir
  names : Names
  path : List UInt8
  loc : Option Loc

abbrev DirM (α : Type) := EStateM Stop Walk α

/-- A function of the volume. -/
def onVolume {α : Type} (c : FatM α) : DirM α :=
  within Walk.volume (fun volume w => { w with volume := volume }) c

def modifyDir (f : Dir → Dir) : DirM PUnit := modify fun w => { w with dir := f w.dir }

def modifyNames (f : Names → Names) : DirM PUnit := modify fun w => { w with names := f w.names }

/-! ### Places -/

/-- `dir_at_clust`. -/
def dirAtClust (clust : Nat) : DirM PUnit := do
  let w ← get
  modifyDir fun dir =>
    { dir with clust := clust, sect := w.volume.fat.clustToSect clust, idx := 0 }

/-- `dir_enter`. -/
def dirEnter (clust : Nat) : DirM PUnit := do
  let w ← get
  let clust := if clust = 0 then w.volume.fat.rootClust else clust
  modifyDir fun dir => { dir with sclust := clust }
  dirAtClust clust

/-- `dir_next`. -/
def dirNext : DirM PUnit := do
  modifyDir fun dir => { dir with idx := dir.idx + 32 }
  let w ← get
  if w.dir.idx < 512 then pure ⟨⟩
  else
    modifyDir fun dir => { dir with idx := 0, sect := u32 (dir.sect + 1) }
    let w ← get
    if w.dir.sect &&& w.volume.fat.clustMsk ≠ 0 then pure ⟨⟩
    else
      let (next, flags) ← onVolume (getFat w.dir.clust)
      if flags = .bad ∨ flags = .free then throw (.error .broken)
      else if flags = .usedLast then throw (.error .eof)
      else dirAtClust next

/-- `dir_advance`. -/
def dirAdvance : Nat → DirM PUnit
  | 0 => pure ⟨⟩
  | cnt + 1 => do
      dirNext
      dirAdvance cnt

/-- `dir_next_stretch`. -/
def dirNextStretch : DirM PUnit :=
  handle dirNext fun e =>
    if e ≠ .error .eof then throw e
    else do
      let w ← get
      let next ← onVolume (stretchChain w.dir.clust)
      dirAtClust next
      onVolume (clustClear next)

/-- `update_buf(dir->fat, dir->sect)`. -/
def dirUpdate : DirM PUnit := do
  let w ← get
  onVolume (updateBuf w.dir.sect)

/-- The entry at an offset of the buffer. -/
def recordAt (buf : Sector) (idx : Nat) : Record := fun b => if b < 32 then buf (idx + b) else 0

/-- What `dir_ptr` points to. -/
def dirPtr : DirM Record := do
  let w ← get
  pure (recordAt w.volume.fat.buf w.dir.idx)

/-- Assignments to what `dir_ptr` points to, with `FAT_BUF_DIRTY`. -/
def dirPut (f : Record → Record) : DirM PUnit := do
  let w ← get
  onVolume (changeBuf fun buf => ByteMemory.patch buf w.dir.idx 32 (f (recordAt buf w.dir.idx)))

/-- More rounds than there are entries in different places. -/
def Geometry.rounds (g : Geometry) : Nat := (g.clustCnt + 1) * (16 <<< g.clustShift) + 1

/-! ### Names -/

/-- The characters of a `Lfn`. -/
def fragChars (lfn : Record) : List UInt8 := lfnIndices.map lfn

/-- The characters in front of the first `0x00` or `0xff`. -/
def fragment (lfn : Record) : List UInt8 := (fragChars lfn).takeWhile fun c => c ≠ 0x00 ∧ c ≠ 0xff

/-- The characters of the `cnt`-th part of a name, counted from 0. -/
def Names.add (names : Names) (cnt : Nat) (chars : List UInt8) : Names :=
  { names with
    buf := ByteMemory.patch names.buf (13 * cnt) chars.length fun i => chars.getD i 0
    len := names.len + chars.length }

/-- The name in `g_buf`. -/
def Names.name (names : Names) : List UInt8 := (List.range names.len).map names.buf

/-- The loop of `parse_lfn_name`. -/
def parseLfnFrags : Nat → DirM PUnit
  | 0 => pure ⟨⟩
  | cnt + 1 => do
      let lfn ← dirPtr
      let w ← get
      if sfnAttr lfn ≠ FAT_ATTR_LFN ∨ lfnCrc lfn ≠ w.names.crc then throw (.error .broken)
      else
        modifyNames fun names => names.add cnt (fragment lfn)
        if (fragChars lfn)[(fragment lfn).length]? = some 0xff then throw (.error .broken)
        else
          dirNext
          dirUpdate
          parseLfnFrags cnt

/-- `parse_lfn_name`. -/
def parseLfnName : DirM PUnit := do
  dirUpdate
  let lfn ← dirPtr
  modifyNames fun names => { names with crc := lfnCrc lfn, len := 0 }
  if lfnSeq lfn &&& LFN_HEAD_MSK = 0 then throw (.error .broken)
  else if (lfnSeq lfn &&& LFN_SEQ_MSK).toNat > 20 then throw (.error .broken)
  else
    parseLfnFrags (lfnSeq lfn &&& LFN_SEQ_MSK).toNat
    let w ← get
    if w.names.len ≤ 255 then pure ⟨⟩ else throw (.error .broken)

/-- `g_buf` and `g_len` after `parse_sfn_name`. -/
def Names.short (names : Names) (sfn : Record) : Names :=
  let name := parseSfnName sfn
  { names with
    buf := ByteMemory.patch names.buf 0 name.length fun i => name.getD i 0
    len := name.length }

/-! ### Search -/

/-- One round of the loop of `dir_search`, with the `dir_next` that begins the next one. -/
def searchRound (name : List UInt8) (_ : PUnit) : DirM (PUnit ⊕ PUnit) := do
  dirUpdate
  let sfn ← dirPtr
  if sfnIsLast sfn then throw (.error .eof)
  else if sfnIsFree sfn then
    dirNext
    pure (.inl ⟨⟩)
  else
    modify fun w => { w with loc := some ⟨w.dir.sect, w.dir.idx⟩ }
    if sfnIsLfn sfn then
      parseLfnName
      let sfn ← dirPtr
      let w ← get
      if sfnIsFree sfn ∨ sfnIsLfn sfn ∨ w.names.crc ≠ getCrc (sfnName sfn) then
        throw (.error .broken)
      else if w.names.name = name then pure (.inr ⟨⟩)
      else
        dirNext
        pure (.inl ⟨⟩)
    else if putSfnName name = sfnName sfn then pure (.inr ⟨⟩)
    else
      dirNext
      pure (.inl ⟨⟩)

/-- `dir_search`. -/
def dirSearch (name : List UInt8) : DirM PUnit := do
  let w ← get
  dirAtClust w.dir.sclust
  loop .endless (searchRound name) w.volume.fat.rounds ⟨⟩

/-! ### Entries -/

/-- One round of the loop of `remove_entries`. -/
def deleteRound (last : Loc) (_ : PUnit) : DirM (PUnit ⊕ PUnit) := do
  dirUpdate
  dirPut fun sfn => Function.update sfn 0 SFN_FREE
  let w ← get
  if w.dir.sect = last.sect ∧ w.dir.idx = last.idx then pure (.inr ⟨⟩)
  else
    dirNext
    pure (.inl ⟨⟩)

/-- `remove_entries`. -/
def removeEntries (loc : Loc) : DirM PUnit := do
  let w ← get
  modifyDir fun dir =>
    { dir with clust := w.volume.fat.sectToClust loc.sect, sect := loc.sect, idx := loc.idx }
  loop .endless (deleteRound ⟨w.dir.sect, w.dir.idx⟩) w.volume.fat.rounds ⟨⟩

/-- The variables of the loop of `dir_add`. -/
structure Room where
  cnt : Nat
  eod : Bool
  sect : Nat
  idx : Nat

/-- One round of the loop of `dir_add`, which looks for free entries that follow each other. -/
def roomRound (lfns : Nat) (room : Room) : DirM (Room ⊕ Room) := do
  if room.cnt < lfns + 1 then
    dirUpdate
    let sfn ← dirPtr
    let w ← get
    let room :=
      if room.eod ∨ sfnIsFree sfn then
        if room.cnt = 0 then { room with cnt := 1, sect := w.dir.sect, idx := w.dir.idx }
        else { room with cnt := room.cnt + 1 }
      else { room with cnt := 0 }
    dirNextStretch
    pure (.inl { room with eod := room.eod || sfnIsLast sfn })
  else pure (.inr room)

/-- The loop of `dir_add` that creates the long name, from part `i` downwards. -/
def putLfns (name : List UInt8) (crc : UInt8) : Nat → UInt8 → DirM PUnit
  | 0, _ => pure ⟨⟩
  | i + 1, mask => do
      dirUpdate
      dirPut (putLfn ((name.drop (13 * i)).take 13) (mask ||| UInt8.ofNat (i + 1)) crc)
      dirNext
      putLfns name crc i 0

/-- The new mark of the end, at the entry behind those that `dir_add` will write. -/
def putEnd (eod : Bool) : DirM PUnit :=
  if eod then do
    dirUpdate
    dirPut fun sfn => Function.update sfn 0 0x00
  else pure ⟨⟩

/-- `dir_add`. -/
def dirAdd (name : List UInt8) (attr : UInt8) (clust : Nat) : DirM PUnit := do
  if name.length = 0 ∨ name.length > 255 then throw (.error .param)
  else
    let lfns := (name.length + 12) / 13
    let w ← get
    dirEnter w.dir.sclust
    let room ← loop .endless (roomRound lfns) (w.volume.fat.rounds + 1) ⟨0, false, 0, 0⟩
    putEnd room.eod
    let w ← get
    modifyDir fun dir =>
      { dir with clust := w.volume.fat.sectToClust room.sect, sect := room.sect, idx := room.idx }
    let crc := getCrc (putSfnName name)
    putLfns name crc lfns LFN_HEAD_MSK
    let (date, time) := encodeTimestamp fatGetTimestamp
    dirUpdate
    dirPut (putSfn (putSfnName name) attr clust date time)

end DemoOS.Fat32
