import DemoOS.Libs.Descriptors
import DemoOS.Support.ByteMemory
import DemoOS.Support.Commands

/-!
# `DemoOS.Libs.Fat32.Volume`: the buffer and the FAT of `libs/fat32/fat.c`

A mounted volume is a `struct Fat` and the disk. The functions of the file are commands on it: they
return an error as soon as a function that they call does, and leave what they have changed.

The disk answers each operation or fails it. What a failed operation leaves in its target depends on
what was there and on what should have come there. An `uint32_t` is a number below `2 ^ 32`.
-/

set_option autoImplicit false

namespace DemoOS.Fat32

open Support

/-- The 512 bytes of a sector, or of a buffer. -/
abbrev Sector := Nat → UInt8

abbrev SECTOR_SIZE : Nat := 512

/-- What `fat_mount` reads from the boot sector. -/
structure Geometry where
  clustShift : Nat
  clustMsk : Nat
  clustCnt : Nat
  infoSect : Nat
  /-- `fat_sect[0]`, the active FAT. -/
  fatSect0 : Nat
  /-- `fat_sect[1]`, its mirror, or 0. -/
  fatSect1 : Nat
  dataSect : Nat
  rootClust : Nat

/-- `struct Fat`. The two flags are `FAT_BUF_DIRTY` and `FAT_INFO_DIRTY`. -/
structure Fat extends Geometry where
  lastUsed : Nat
  freeCnt : Nat
  sect : Nat
  buf : Sector
  bufDirty : Bool
  infoDirty : Bool

/-- The operations that fail, by their numbers. The function says what the operation leaves of the
old and the new contents of its target: the buffer for a read, the sector for a write. -/
structure Faults where
  read : Nat → Option (Sector → Sector → Sector)
  write : Nat → Option (Sector → Sector → Sector)

/-- The disk, with the number of operations so far. -/
structure Disk where
  sectors : Nat → Sector
  operations : Nat
  faults : Faults

structure Volume where
  fat : Fat
  disk : Disk

/-- The flags that `get_fat` returns. -/
inductive ClustFlags where
  | free
  | used
  /-- `CLUST_USED | CLUST_LAST`. -/
  | usedLast
  | bad
deriving DecidableEq, Repr

/-- Why a function does not return `FAT_ERR_NONE`. -/
inductive Stop where
  | error (e : FatError)
  /-- `stretch_chain` returns its variable `flags`, which may not have been written yet. -/
  | flags (flags : Option ClustFlags)
  /-- A loop goes on for ever. -/
  | endless
deriving DecidableEq, Repr

abbrev FatM (α : Type) := EStateM Stop Volume α

/-- The value in a variable of the type `uint32_t`. -/
def u32 (n : Nat) : Nat := n % 2 ^ 32

/-- An assignment to fields of `fat`. -/
def modifyFat (f : Fat → Fat) : FatM PUnit := modify fun v => { v with fat := f v.fat }

/-! ### The disk -/

/-- The contents of the target after an operation, and whether the operation works. -/
def outcome (fault : Option (Sector → Sector → Sector)) (old new : Sector) : Sector × Bool :=
  match fault with
  | none => (new, true)
  | some left => (left old new, false)

/-- `fat->ops.read`. -/
def opsRead (buf : Sector) (sect : Nat) : FatM (Sector × Bool) :=
  modifyGet fun v =>
    (outcome (v.disk.faults.read v.disk.operations) buf (v.disk.sectors sect),
      { v with disk := { v.disk with operations := v.disk.operations + 1 } })

/-- `fat->ops.write`. -/
def opsWrite (buf : Sector) (sect : Nat) : FatM Bool :=
  modifyGet fun v =>
    let (data, ok) := outcome (v.disk.faults.write v.disk.operations) (v.disk.sectors sect) buf
    (ok, { v with disk := { v.disk with
      operations := v.disk.operations + 1
      sectors := Function.update v.disk.sectors sect data } })

/-! ### The buffer -/

/-- `sync_buf`. -/
def syncBuf : FatM PUnit := do
  let v ← get
  if v.fat.bufDirty then
    let ok ← opsWrite v.fat.buf v.fat.sect
    if ok then modifyFat fun fat => { fat with bufDirty := false }
    else throw (.error .io)
  else pure ⟨⟩

/-- `update_buf`. -/
def updateBuf (sect : Nat) : FatM PUnit := do
  let v ← get
  if v.fat.sect ≠ sect then
    syncBuf
    let v ← get
    let (data, ok) ← opsRead v.fat.buf sect
    modifyFat fun fat => { fat with buf := data }
    if ok then modifyFat fun fat => { fat with sect := sect }
    else throw (.error .io)
  else pure ⟨⟩

/-- A change of the buffer, with `fat->flags |= FAT_BUF_DIRTY`. -/
def changeBuf (f : Sector → Sector) : FatM PUnit :=
  modifyFat fun fat => { fat with buf := f fat.buf, bufDirty := true }

/-- The offset of `next_free` in a `FsInfo`. -/
abbrev NEXT_FREE : Nat := 492

/-- The offset of `free_cnt`. -/
abbrev FREE_CNT : Nat := 488

/-- The assignments of `sync_fs` to the `FsInfo` in the buffer. -/
def putInfo (lastUsed freeCnt : Nat) (buf : Sector) : Sector :=
  ByteMemory.storeWord (ByteMemory.storeWord buf NEXT_FREE 4 lastUsed) FREE_CNT 4 freeCnt

/-- `sync_fs`. -/
def syncFs : FatM PUnit := do
  syncBuf
  let v ← get
  if v.fat.infoDirty then
    updateBuf v.fat.infoSect
    let v ← get
    changeBuf (putInfo v.fat.lastUsed v.fat.freeCnt)
    syncBuf
    modifyFat fun fat => { fat with infoDirty := false }
  else pure ⟨⟩

/-! ### Clusters -/

/-- `sect_to_clust`. -/
def Geometry.sectToClust (g : Geometry) (sect : Nat) : Nat :=
  u32 (u32 (sect + 2 ^ 32 - g.dataSect) >>> g.clustShift + 2)

/-- `clust_to_sect`. -/
def Geometry.clustToSect (g : Geometry) (clust : Nat) : Nat :=
  u32 (u32 (clust + 2 ^ 32 - 2) <<< g.clustShift + g.dataSect)

/-! ### The FAT -/

/-- `items[idx]`. -/
def item (buf : Sector) (idx : Nat) : Nat := ByteMemory.load buf (4 * idx) 4

/-- The value of an item, and its flags. The upper nibble is ignored. -/
def classify (clustCnt item : Nat) : Except Stop (Nat × ClustFlags) :=
  let val := item &&& 0x0fffffff
  if val = 0 then .ok (val, .free)
  else if val = 0x0ffffff7 then .ok (val, .bad)
  else if val ≥ 0x0ffffff8 then .ok (val, .usedLast)
  else if val ≥ 2 ∧ val < clustCnt then .ok (val, .used)
  else .error (.error .broken)

/-- `get_fat`. -/
def getFat (clust : Nat) : FatM (Nat × ClustFlags) := do
  let v ← get
  updateBuf (u32 (v.fat.fatSect0 + clust / 128))
  let v ← get
  match classify v.fat.clustCnt (item v.fat.buf (clust % 128)) with
  | .ok r => pure r
  | .error stop => throw stop

/-- `items[idx] = (items[idx] & 0xf0000000) | (val & 0x0fffffff)`. -/
def putItem (idx val : Nat) (buf : Sector) : Sector :=
  ByteMemory.storeWord buf (4 * idx) 4 ((item buf idx &&& 0xf0000000) ||| (val &&& 0x0fffffff))

/-- `put_fat2`. -/
def putFat2 (fatSect clust val : Nat) : FatM PUnit := do
  updateBuf (u32 (fatSect + clust / 128))
  changeBuf (putItem (clust % 128) val)

/-- `put_fat`. -/
def putFat (clust val : Nat) : FatM PUnit := do
  let v ← get
  if v.fat.fatSect1 ≠ 0 then
    putFat2 v.fat.fatSect1 clust val
    putFat2 v.fat.fatSect0 clust val
  else putFat2 v.fat.fatSect0 clust val

/-- The body of the loop of `remove_chain`. -/
def removeRound (clust : Nat) : FatM (Nat ⊕ PUnit) := do
  let (next, flags) ← getFat clust
  if flags = .bad ∨ flags = .free then throw (.error .broken)
  else
    putFat clust 0
    modifyFat fun fat => { fat with freeCnt := u32 (fat.freeCnt + 1) }
    if flags = .usedLast then pure (.inr ⟨⟩) else pure (.inl next)

/-- `remove_chain`. Every round frees a cluster. -/
def removeChain (clust : Nat) : FatM PUnit := do
  modifyFat fun fat => { fat with infoDirty := true }
  let v ← get
  loop .endless removeRound (v.fat.clustCnt + 2) clust
  syncFs

/-- `++clust >= fat->clust_cnt`, and the cluster that follows. -/
def Geometry.following (g : Geometry) (clust : Nat) : Nat :=
  if u32 (clust + 1) ≥ g.clustCnt then 2 else u32 (clust + 1)

/-- The body of the loop of `stretch_chain`, which looks for a free cluster. -/
def scanRound (s : Nat × Option ClustFlags) : FatM ((Nat × Option ClustFlags) ⊕ Nat) := do
  let v ← get
  let clust := v.fat.following s.1
  if clust = v.fat.lastUsed then throw (.error .full)
  else
    let (_, flags) ← EStateM.adaptExcept (fun _ => .flags s.2) (getFat clust)
    if flags = .free then pure (.inr clust) else pure (.inl (clust, some flags))

/-- The loop of `stretch_chain`. When it has come round to its first cluster it goes round for
ever. -/
def scan (flags : Option ClustFlags) : FatM Nat := do
  let v ← get
  loop .endless scanRound (v.fat.clustCnt + 1) (v.fat.lastUsed, flags)

/-- The choice of a cluster by `stretch_chain`. -/
def findCluster (prev : Nat) : FatM Nat := do
  if prev ≠ 0 then
    let v ← get
    let clust := v.fat.following prev
    let (_, flags) ← getFat clust
    if flags = .free then pure clust else scan (some flags)
  else scan none

/-- `stretch_chain`. -/
def stretchChain (prev : Nat) : FatM Nat := do
  modifyFat fun fat => { fat with infoDirty := true }
  let clust ← findCluster prev
  putFat clust 0x0fffffff
  if prev ≠ 0 then putFat prev clust else pure ⟨⟩
  modifyFat fun fat => { fat with lastUsed := clust, freeCnt := u32 (fat.freeCnt + 2 ^ 32 - 1) }
  syncFs
  return clust

/-- `create_chain`. -/
def createChain : FatM Nat := stretchChain 0

/-- The loop of `clust_clear` over the sectors of the cluster. -/
def clearSectors : Nat → Nat → FatM PUnit
  | 0, _ => pure ⟨⟩
  | n + 1, sect => do
      modifyFat fun fat => { fat with bufDirty := true, sect := sect }
      syncBuf
      clearSectors n (u32 (sect + 1))

/-- `clust_clear`. -/
def clustClear (clust : Nat) : FatM PUnit := do
  syncBuf
  modifyFat fun fat => { fat with buf := fun _ => 0 }
  let v ← get
  clearSectors (1 <<< v.fat.clustShift) (v.fat.clustToSect clust)

end DemoOS.Fat32
