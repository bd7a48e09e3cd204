import DemoOS.Libs.SchedulerTypes
import DemoOS.Support.ByteMemory

/-!
# `DemoOS.Libs.Mm`: `libs/mm.c`

The page allocator and the page tables. `Memory` is the physical memory with the array
`memory_pages`; page tables are words in it, as the MMU reads them.

The kernel maps the whole physical memory from `VA_START` on and reaches every page through
that mapping. Here a kernel address `VA_START + a` is the physical address `a`, so that
`allocate_kernel_page` and `allocate_user_page` answer with the address of the page, or with 0
when `get_free_page` found none. `memzero` and `memcpy` are called on whole pages or on a
positive number of bytes, where they write exactly the range they are given.
-/

set_option autoImplicit false

namespace DemoOS

open Support

abbrev PAGE_SHIFT : Nat := 12
abbrev TABLE_SHIFT : Nat := 9
abbrev SECTION_SHIFT : Nat := PAGE_SHIFT + TABLE_SHIFT
abbrev PAGE_SIZE : Nat := 4096
abbrev SECTION_SIZE : Nat := 2097152
abbrev PGD_SHIFT : Nat := PAGE_SHIFT + 3 * TABLE_SHIFT
abbrev PUD_SHIFT : Nat := PAGE_SHIFT + 2 * TABLE_SHIFT
abbrev PMD_SHIFT : Nat := PAGE_SHIFT + TABLE_SHIFT
abbrev PTRS_PER_TABLE : Nat := 512

abbrev VA_START : Nat := 0xffff000000000000
abbrev PAGE_MASK : Nat := 0xfffffffffffff000
abbrev LOW_MEMORY : Nat := 2 * SECTION_SIZE
abbrev HIGH_MEMORY : Nat := 0x3F000000
abbrev PHYS_MEMORY_SIZE : Nat := 0x40000000
abbrev PAGING_MEMORY : Nat := HIGH_MEMORY - LOW_MEMORY
abbrev N_PAGES : Nat := PAGING_MEMORY / PAGE_SIZE

abbrev MM_TYPE_PAGE_TABLE : Nat := 0x3
/-- `MM_TYPE_PAGE | (MT_NORMAL_NC << 2) | MM_ACCESS | MM_ACCESS_PERMISSION`. -/
abbrev MMU_PTE_FLAGS : Nat := 0x447

/-- The physical memory, and which of its pages are in use (`memory_pages[i] != 0`). -/
structure Memory where
  memoryPages : Nat → Bool
  bytes : Nat → UInt8

/-- `LOW_MEMORY + i * PAGE_SIZE`. -/
def pageAddress (i : Nat) : Nat := LOW_MEMORY + i * PAGE_SIZE

/-- The index in `memory_pages` of the page at the address. -/
def pageIndex (a : Nat) : Nat := (a - LOW_MEMORY) / PAGE_SIZE

theorem pageIndex_pageAddress (i : Nat) : pageIndex (pageAddress i) = i := by
  rw [pageIndex, pageAddress, Nat.add_sub_cancel_left, Nat.mul_div_cancel i (by decide)]

theorem pageAddress_mod (i : Nat) : pageAddress i % PAGE_SIZE = 0 := by
  show (2 * 2097152 + i * 4096) % 4096 = 0
  omega

theorem pageAddress_ne_zero (i : Nat) : pageAddress i ≠ 0 := by
  show 2 * 2097152 + i * 4096 ≠ 0
  omega

/-- The index of the virtual address in a table of the level. -/
def tableIndex (virtualAddress shift : Nat) : Nat :=
  (virtualAddress >>> shift) &&& (PTRS_PER_TABLE - 1)

namespace Memory

/-- `memzero`. -/
def memzero (m : Memory) (a n : Nat) : Memory :=
  { m with bytes := ByteMemory.patch m.bytes a n fun _ => 0 }

/-- `memcpy`. -/
def memcpy (m : Memory) (destination source n : Nat) : Memory :=
  { m with bytes := ByteMemory.patch m.bytes destination n fun i => m.bytes (source + i) }

/-- `table[index]` of a page table. -/
def entry (m : Memory) (table index : Nat) : Nat := ByteMemory.load m.bytes (table + 8 * index) 8

/-- `table[index] = value`. -/
def setEntry (m : Memory) (table index value : Nat) : Memory :=
  { m with bytes := ByteMemory.storeWord m.bytes (table + 8 * index) 8 value }

/-- `memory_pages[i] = x`. -/
def setPage (m : Memory) (i : Nat) (x : Bool) : Memory :=
  { m with memoryPages := Function.update m.memoryPages i x }

/-! ### The allocator -/

/-- The `for` loop of `get_free_page` from slot `i` on: the first free slot. -/
def findFreePage (m : Memory) : Nat → Nat → Option Nat
  | 0, _ => none
  | fuel + 1, i => if m.memoryPages i then m.findFreePage fuel (i + 1) else some i

/-- The claim of `get_free_page` on slot `i`. -/
def claimPage (m : Memory) (i : Nat) : Memory :=
  (m.setPage i true).memzero (pageAddress i) PAGE_SIZE

/-- `get_free_page`. -/
def getFreePage (m : Memory) : Memory × Nat :=
  match m.findFreePage N_PAGES 0 with
  | none => (m, 0)
  | some i => (m.claimPage i, pageAddress i)

/-- `free_page`, and its return value. -/
def freePage (m : Memory) (page : Nat) : Memory × Int :=
  if page % PAGE_SIZE ≠ 0 then (m, -1)
  else ((m.memzero page PAGE_SIZE).setPage (pageIndex page) false, 0)

/-- `allocate_kernel_page`. -/
def allocateKernelPage (m : Memory) : Memory × Nat := m.getFreePage

/-! ### Page tables -/

/-- `map_table`: the address of the next table, and whether it was created. -/
def mapTable (m : Memory) (table indexShift virtualAddress : Nat) : Memory × Nat × Bool :=
  let index := tableIndex virtualAddress indexShift
  if m.entry table index = 0 then
    let (m, nextLevelTable) := m.getFreePage
    let m := m.memzero nextLevelTable PAGE_SIZE
    (m.setEntry table index (nextLevelTable ||| MM_TYPE_PAGE_TABLE), nextLevelTable, true)
  else (m, m.entry table index &&& PAGE_MASK, false)

/-- `map_table_entry`. -/
def mapTableEntry (m : Memory) (pte virtualAddress pagePhysicalAddress : Nat) : Memory :=
  m.setEntry pte (tableIndex virtualAddress PAGE_SHIFT) (pagePhysicalAddress ||| MMU_PTE_FLAGS)

/-- `map_table` and the tracking of a new table in `kernel_pages`, as `map_page` does them for
each level. -/
def mapLevel (m : Memory) (mm : MmStruct) (table indexShift virtualAddress : Nat) :
    Memory × MmStruct × Nat :=
  let (m, next, newTableEntryCreated) := m.mapTable table indexShift virtualAddress
  (m, if newTableEntryCreated then { mm with kernelPages := mm.kernelPages ++ [next] } else mm,
    next)

/-- The PGD of the process, created when there is none. -/
def mapPgd (m : Memory) (mm : MmStruct) : Memory × MmStruct :=
  if mm.pgd = 0 then
    let (m, pgd) := m.getFreePage
    (m.memzero pgd PAGE_SIZE, { mm with pgd := pgd, kernelPages := mm.kernelPages ++ [pgd] })
  else (m, mm)

/-- `map_page`. -/
def mapPage (m : Memory) (mm : MmStruct) (virtualAddress pagePhysicalAddress : Nat) :
    Memory × MmStruct :=
  let (m, mm) := m.mapPgd mm
  let (m, mm, pud) := m.mapLevel mm mm.pgd PGD_SHIFT virtualAddress
  let (m, mm, pmd) := m.mapLevel mm pud PUD_SHIFT virtualAddress
  let (m, mm, pte) := m.mapLevel mm pmd PMD_SHIFT virtualAddress
  (m.mapTableEntry pte virtualAddress pagePhysicalAddress,
    { mm with userPages := mm.userPages ++ [⟨pagePhysicalAddress, virtualAddress⟩] })

/-- `allocate_user_page`. -/
def allocateUserPage (m : Memory) (mm : MmStruct) (virtualAddress : Nat) :
    Memory × MmStruct × Nat :=
  let (m, page) := m.getFreePage
  if page = 0 then (m, mm, 0)
  else
    let (m, mm) := m.mapPage mm virtualAddress page
    (m, mm, page)

/-- `copy_virtual_memory` of the pages `source` into the process with the memory map `mm`. -/
def copyVirtualMemory : List UserPage → Memory → MmStruct → Memory × MmStruct × Int
  | [], m, mm => (m, mm, 0)
  | page :: source, m, mm =>
      let (m, mm, destination) := m.allocateUserPage mm page.virtualAddress
      if destination = 0 then (m, mm, -1)
      else
        let m := m.memzero destination PAGE_SIZE
        copyVirtualMemory source (m.memcpy destination page.physicalAddress PAGE_SIZE) mm

/-! ### The MMU -/

/-- The table that a descriptor points to, unless it is invalid. -/
def nextTable (m : Memory) (table index : Nat) : Option Nat :=
  let descriptor := m.entry table index
  if descriptor % 4 = 3 then some (descriptor &&& 0xfffffffff000) else none

/-- The physical address that the four-level walk from `pgd` finds for a virtual address. -/
def translate (m : Memory) (pgd virtualAddress : Nat) : Option Nat := do
  let pud ← m.nextTable pgd (tableIndex virtualAddress PGD_SHIFT)
  let pmd ← m.nextTable pud (tableIndex virtualAddress PUD_SHIFT)
  let pte ← m.nextTable pmd (tableIndex virtualAddress PMD_SHIFT)
  let page ← m.nextTable pte (tableIndex virtualAddress PAGE_SHIFT)
  return page + virtualAddress % PAGE_SIZE

end Memory

end DemoOS
