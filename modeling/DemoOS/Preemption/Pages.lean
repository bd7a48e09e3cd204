import DemoOS.Kernel.Preemption
import DemoOS.Libs.Mm

/-!
# `DemoOS.Preemption.Pages`: `get_free_page` and `free_page` under preemption

`syscall_malloc` and the system calls on files call the page allocator with preemption
enabled. Its two functions are followed statement by statement here, for any number of
processes. `copy_process` allocates inside a section that no tick interrupts; what it and
`move_to_user_mode` allocate is claimed in one step, together with the kernel's own step.

`PageState.history` records which page was returned to which process, and which was freed.
-/

set_option autoImplicit false

namespace DemoOS

/-- A place in `get_free_page` or `free_page`. -/
inductive PagePoint where
  /-- The test `memory_pages[i] == 0`, -/
  | test (i : Nat)
  /-- `memory_pages[i] = 1`, -/
  | claim (i : Nat)
  /-- `memzero` of the claimed page, and the return. -/
  | clear (i : Nat)
  /-- `memzero` of the page to free, -/
  | freeClear (i : Nat)
  /-- `memory_pages[i] = 0`. -/
  | freeMark (i : Nat)
deriving DecidableEq

/-- The allocator's two functions. A process frees pages that it holds. -/
inductive PageCall where
  | getFreePage
  | freePage (i : Nat)

inductive PageEvent where
  | returned (process : PcbPtr) (i : Nat)
  | freed (i : Nat)
deriving DecidableEq

structure PageState where
  kernel : Kernel
  memory : Memory
  history : List PageEvent

/-- The process that page `i` was returned to, if it was not freed since. -/
def pageHolder (history : List PageEvent) (i : Nat) : Option PcbPtr :=
  history.foldl
    (fun holder e =>
      match e with
      | .returned p j => if j = i then some p else holder
      | .freed j => if j = i then none else holder)
    none

/-- No page was returned to two callers, unless it was freed in between. -/
def ReturnedOnce (history : List PageEvent) : Prop :=
  ∀ (i : Nat) (p q : PcbPtr) (before between after : List PageEvent),
    history = before ++ .returned p i :: (between ++ .returned q i :: after) →
      .freed i ∈ between

/-- The pages that the code of a trap takes from the allocator. -/
def Trap.pages : Trap → List Nat
  | .kernelMain page => page.toList
  | .fork page mm =>
      page.toList ++ (mm.kernelPages ++ mm.userPages.map UserPage.physicalAddress).map pageIndex
  | .moveToUserMode mm _ =>
      (mm.kernelPages ++ mm.userPages.map UserPage.physicalAddress).map pageIndex
  | _ => []

/-- The pages are claimed for the process. -/
def PageState.claimAll (s : PageState) (p : PcbPtr) (pages : List Nat) : PageState :=
  pages.foldl
    (fun s i => { s with memory := s.memory.claimPage i, history := s.history ++ [.returned p i] }) s

def pageStatement (s : PageState) : PagePoint → PageState × Flow PagePoint
  | .test i =>
      if i < N_PAGES then (s, .goto (if s.memory.memoryPages i then .test (i + 1) else .claim i))
      else (s, .returns)
  | .claim i => ({ s with memory := s.memory.setPage i true }, .goto (.clear i))
  | .clear i =>
      ({ s with
        memory := s.memory.memzero (pageAddress i) PAGE_SIZE
        history := s.history ++ [.returned s.kernel.currentProcess i] }, .returns)
  | .freeClear i =>
      if pageHolder s.history i = some s.kernel.currentProcess then
        ({ s with memory := s.memory.memzero (pageAddress i) PAGE_SIZE }, .goto (.freeMark i))
      else (s, .returns)
  | .freeMark i =>
      ({ s with memory := s.memory.setPage i false, history := s.history ++ [.freed i] }, .returns)

/-- The allocator as a program. -/
def pageProgram : Program PageState PagePoint PageCall where
  kernel := PageState.kernel
  setKernel s k := { s with kernel := k }
  call
    | .getFreePage => .test 0
    | .freePage i => .freeClear i
  statement _ := pageStatement
  trap alg s t :=
    if t.pages.Nodup ∧ ∀ i ∈ t.pages, s.memory.memoryPages i = false then
      (s.kernel.step alg t).map fun k =>
        { s.claimAll s.kernel.currentProcess t.pages with kernel := k }
    else none

/-- The state at boot, whatever the memory holds. -/
def PageState.boot (timerClo : Nat → BitVec 32) (bytes : Nat → UInt8) : PageState :=
  ⟨.boot timerClo, ⟨fun _ => false, bytes⟩, []⟩

/-- The step does not claim a page that another process has claimed since the test. -/
def PageClaimHolds (s : Preemptible PageState PagePoint) (e : PreemptionEvent PageCall) : Prop :=
  match e, s.point (pageProgram.current s) with
  | .statement, some (.claim i) => s.state.memory.memoryPages i = false
  | _, _ => True

instance (s : Preemptible PageState PagePoint) (e : PreemptionEvent PageCall) :
    Decidable (PageClaimHolds s e) := by
  unfold PageClaimHolds
  split <;> infer_instance

end DemoOS
