import DemoOS.Common.String
import DemoOS.Libs.Fork
import DemoOS.Proofs.Memory.PageTables

/-!
# `DemoOS.Libs.AddressSpaces`: the memory of the processes

What `copy_process` and `move_to_user_mode` of `libs/fork.c` and `syscall_malloc` and
`syscall_exec` of `libs/syscalls.c` do to the physical memory and to the memory maps, and the
loads and stores of a process through its page tables. The rest of a PCB plays no part here, so
that a process is its memory map.

A step returns `none` where `get_free_page` fails and its caller does not look: `map_table` and
`copy_code` would go on with the address 0. The page of the PCB and the frames of a fork are
looked at (`copy_virtual_memory` returns -1, which `copy_process` ignores).
-/

set_option autoImplicit false

namespace DemoOS

open Support

/-- The memory, and the memory maps of the processes. -/
structure AddressSpaces where
  memory : Memory
  processes : List MmStruct

/-- A step of the system, by the process of the index. -/
inductive SpaceEvent where
  /-- `copy_process` of a kernel thread, -/
  | kernelThread
  /-- `move_to_user_mode` with a program in the kernel's image, -/
  | moveToUserMode (i start size : Nat)
  /-- `syscall_fork`, -/
  | fork (i : Nat)
  /-- `syscall_malloc`, -/
  | malloc
  /-- `syscall_exec` with the bytes that `fat_file_read` returns and the arguments, -/
  | exec (i : Nat) (image : List UInt8) (arguments : List (List UInt8))
  /-- a store of a byte to a virtual address. -/
  | store (i virtualAddress : Nat) (byte : UInt8)

namespace Memory

variable (m : Memory) (mm : MmStruct)

/-- `allocate_kernel_page`, where it finds a page. -/
def takePage : Option (Memory × Nat) :=
  let (m, page) := m.allocateKernelPage
  if page = 0 then none else some (m, page)

/-- The address that a load or a store of the process reaches. -/
def userAddress (virtualAddress : Nat) : Option Nat :=
  if virtualAddress < 2 ^ 48 then m.translateUser mm virtualAddress else none

/-- A load of the process. -/
def loadUser (virtualAddress : Nat) : Option UInt8 := (m.userAddress mm virtualAddress).map m.bytes

/-- A store of the process. -/
def storeUser (virtualAddress : Nat) (byte : UInt8) : Option Memory :=
  (m.userAddress mm virtualAddress).map fun a => { m with bytes := Function.update m.bytes a byte }

/-- `strcpy` of a text to a virtual address of the process. -/
def strcpyUser : Memory → Nat → List UInt8 → Option Memory
  | m, virtualAddress, [] => m.storeUser mm virtualAddress 0
  | m, virtualAddress, byte :: text => do
      let m ← m.storeUser mm virtualAddress byte
      strcpyUser m (virtualAddress + 1) text

/-- `stack_pointer -= SYSCALL_EXEC_ARGUMENT_DIMENSION`. -/
def nextArgument (stackPointer : Nat) : Nat :=
  (stackPointer + 2 ^ 64 - SYSCALL_EXEC_ARGUMENT_DIMENSION) % 2 ^ 64

/-- The loop of `syscall_exec` that puts the arguments on the stack. -/
def putArguments : Memory → Nat → List (List UInt8) → Option Memory
  | m, _, [] => some m
  | m, stackPointer, argument :: arguments => do
      let m ← m.strcpyUser mm (nextArgument stackPointer) argument
      putArguments m (nextArgument stackPointer) arguments

/-- The loop of `syscall_exec` that frees the user pages. -/
def freeUserPages : Memory × MmStruct :=
  (mm.userPages.foldl (fun m page => (m.freePage page.physicalAddress).1) m,
    { mm with userPages := [] })

/-- What `fat_file_read` copies to the buffer. -/
def readImage (buffer : Nat) (image : List UInt8) : Memory :=
  { m with bytes := ByteMemory.patch m.bytes buffer image.length fun i => image.getD i 0 }

/-- `copy_code`, where no allocation fails. -/
def loadProgram (buffer size : Nat) : Option (Memory × MmStruct) :=
  let r := m.copyCode mm buffer size
  if 0 ∉ r.2.kernelPages ∧ r.2.userPages.length = mm.userPages.length + 16 then some r else none

/-- `syscall_exec` up to the read: the pages of the file, of its resource and of the buffer. -/
def openImage (image : List UInt8) : Option (Memory × Nat × Nat) := do
  let (m, file) ← m.takePage
  let (m, _) ← m.takePage
  let (m, buffer) ← m.takePage
  return (m.readImage buffer image, file, buffer)

/-- `syscall_exec`, where the file is found. -/
def exec (image : List UInt8) (arguments : List (List UInt8)) : Option (Memory × MmStruct) := do
  let (m, file, buffer) ← m.openImage image
  -- `syscall_close_file`
  let (m, _) ← (m.freePage file).1.takePage
  if image.length > PAGE_SIZE * 15 then return (m, mm)
  else
    let (m, mm) := m.freeUserPages mm
    let (m, mm) ← m.loadProgram mm buffer image.length
    let m ← m.putArguments mm (16 * PAGE_SIZE) arguments
    return (m, mm)

end Memory

namespace AddressSpaces

open Memory

variable (s : AddressSpaces)

/-- The step of a process that changes its own memory map. -/
def act (i : Nat) (f : MmStruct → Option (Memory × MmStruct)) : Option AddressSpaces := do
  let mm ← s.processes[i]?
  let (m, mm) ← f mm
  return ⟨m, s.processes.set i mm⟩

/-- A step of the system. -/
def step : SpaceEvent → Option AddressSpaces
  | .kernelThread => do
      let (m, _) ← s.memory.takePage
      return ⟨m, s.processes ++ [.empty]⟩
  | .moveToUserMode i start size => s.act i fun mm => s.memory.loadProgram mm start size
  | .fork i => do
      let parent ← s.processes[i]?
      let (m, _) ← s.memory.takePage
      let (m, child, _) := m.copyVirtualMemory parent.userPages .empty
      if 0 ∉ child.kernelPages then return ⟨m, s.processes ++ [child]⟩ else none
  | .malloc => do
      let (m, _) ← s.memory.takePage
      return { s with memory := m }
  | .exec i image arguments => s.act i fun mm => s.memory.exec mm image arguments
  | .store i virtualAddress byte => s.act i fun mm =>
      (s.memory.storeUser mm virtualAddress byte).map (·, mm)

/-- The pages that the image reaches behind its buffer are free, and stay free. -/
def OverrunFree (m m' : Memory) (buffer size : Nat) : Prop :=
  ∀ k, 1 ≤ k → k * PAGE_SIZE < size → pageIndex buffer + k < N_PAGES
    ∧ m.memoryPages (pageIndex buffer + k) = false
    ∧ m'.memoryPages (pageIndex buffer + k) = false

/-- What a step takes for granted: a program for a kernel thread is in the kernel's image, there
are frames for a child, and an image that does not fit into the one page of its buffer overwrites
free pages only. -/
def Fits : SpaceEvent → Prop
  | .moveToUserMode i start size =>
      (∀ mm ∈ s.processes[i]?, mm.userPages = []) ∧ start + size ≤ LOW_MEMORY
  | .fork i => ∀ parent ∈ s.processes[i]?, ∀ r ∈ s.memory.takePage,
      (r.1.copyVirtualMemory parent.userPages .empty).2.2 = 0
  | .exec i image arguments => ∀ r ∈ s.memory.openImage image,
      ∀ s' ∈ s.step (.exec i image arguments), OverrunFree r.1 s'.memory r.2.2 image.length
  | _ => True

/-- The runs from a state without processes. -/
inductive Run (s₀ : AddressSpaces) : List SpaceEvent → AddressSpaces → Prop where
  | start (hnone : s₀.processes = []) : Run s₀ [] s₀
  | step {events : List SpaceEvent} {s s' : AddressSpaces} (e : SpaceEvent) :
      Run s₀ events s → s.Fits e → s.step e = some s' → Run s₀ (events ++ [e]) s'

end AddressSpaces

end DemoOS
