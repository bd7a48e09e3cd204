import DemoOS.Libs.Mm
import DemoOS.Libs.Scheduler

/-!
# `DemoOS.Libs.Fork`: `libs/fork.c`

`copy_process` takes two answers from the memory manager: the page that
`allocate_kernel_page` found, and the memory map that `copy_virtual_memory`
built. Here they are arguments.

`copy_code` works on the memory alone. It does not look at the answer 0 of
`allocate_user_page`, and would then copy to the address 0; the results about it
are for calls in which no allocation fails.
-/

set_option autoImplicit false

namespace DemoOS

abbrev PF_KTHREAD : BitVec 64 := 2

namespace Memory

/-- One round of the loop of `copy_code`: the memory, the process's memory map and
`copied_bytes`. -/
def copyCodePage (buffer size : Nat) (state : Memory × MmStruct × Nat) (i : Nat) :
    Memory × MmStruct × Nat :=
  let (m, mm, copiedBytes) := state
  let virtualAddress := i * PAGE_SIZE
  let (m, mm, kernelVirtualAddress) := m.allocateUserPage mm virtualAddress
  if copiedBytes < size then
    let bytesToCopy := if size - copiedBytes > PAGE_SIZE then PAGE_SIZE else size - copiedBytes
    (m.memcpy kernelVirtualAddress (buffer + copiedBytes) bytesToCopy, mm,
      copiedBytes + bytesToCopy)
  else (m, mm, copiedBytes)

/-- `copy_code`. -/
def copyCode (m : Memory) (mm : MmStruct) (buffer size : Nat) : Memory × MmStruct :=
  let (m, mm, _) := (List.range 16).foldl (copyCodePage buffer size) (m, mm, 0)
  (m, mm)

end Memory

namespace Kernel

/-- The block that `copy_process` fills in for a child of `parent`. -/
def childPcb (parent : PCB) (cloneFlags : BitVec 64) (mm : MmStruct) (pid : Nat) : PCB :=
  let kthread : Bool := cloneFlags &&& PF_KTHREAD ≠ 0
  { PCB.zeroed with
    regs := if kthread then .zeroed else parent.regs.setRegister0 0
    mm := if kthread then .empty else mm
    resume := if kthread then .kernelProcess else .user
    flags := cloneFlags
    priority := parent.priority
    state := .ready
    counter := 10
    estBurst := parent.estBurst
    burstTicks := 0
    queuePriority := parent.queuePriority
    tickets := parent.tickets
    preemptDisabled := 1
    pid := pid }

/-- `copy_process`, given the page of the new PCB and the child's memory map. The
result is the kernel and the return value. -/
def copyProcess (alg : SchedAlgorithm) (k : Kernel) (cloneFlags : BitVec 64)
    (page : Option Nat) (mm : MmStruct) : Kernel × Int :=
  let k := k.preemptDisable
  match page with
  | none => (k, -1)
  | some n =>
      let newProcess := PcbPtr.page n
      let k := k.modifyPcb newProcess fun _ => .zeroed
      if k.nProcesses ≥ N_PROCESSES then (k, -1)
      else
        let processId := k.nProcesses
        let parent := k.current
        let k := k.modifyPcb newProcess fun _ => childPcb parent cloneFlags mm processId
        match k.addProcessToScheduler alg newProcess with
        | none => (k, -1)
        | some k => (k.preemptEnable, processId)

end Kernel

end DemoOS
