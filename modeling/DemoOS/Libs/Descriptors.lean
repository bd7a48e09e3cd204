import DemoOS.Libs.Mm
import DemoOS.Libs.SchedulerTypes
import Mathlib.Data.Finset.Card
import Mathlib.Data.Finset.Range

/-!
# `DemoOS.Libs.Descriptors`: the descriptors of `libs/syscalls.c`

The system calls that open, close and use files and folders. The FAT layer is not part of the
model: a call is given with what the layer returns to it, and the outcome lists the objects that
were passed to the layer. Of a page the model keeps whether it is free, and which object of the
FAT layer lies in it.

A call returns `none` where it reads or writes through a pointer that is not one of a resource
page: the null pointer, or what lies beside the array `files`.
-/

set_option autoImplicit false

namespace DemoOS

/-- The errors of `common/fat_types.h`. -/
inductive FatError where
  | noFat
  | broken
  | io
  | param
  | path
  | eof
  | denied
  | full
deriving DecidableEq, Repr

def FatError.code : FatError → Int
  | .noFat => -1
  | .broken => -2
  | .io => -3
  | .param => -4
  | .path => -5
  | .eof => -6
  | .denied => -7
  | .full => -8

/-- What `create_dir`, `open_dir` and `open_file` of `libs/filesystem.c` find: a path that is too
long, or what the FAT layer returns. -/
inductive OpenResult where
  | tooLong
  | fat (error : Option FatError)
deriving DecidableEq, Repr

/-- A call on a descriptor, with the results of the functions of the FAT layer that it calls. -/
inductive DescriptorCall where
  | close (error : Option FatError)
  | write (error : Option FatError)
  | read (error : Option FatError)
  /-- The results of `fat_dir_read` and `fat_dir_next`. -/
  | getNextEntry (readError nextError : Option FatError)
deriving DecidableEq, Repr

inductive FileCall where
  | createDir (result : OpenResult)
  | openDir (result : OpenResult)
  | openFile (result : OpenResult)
  | on (fileDescriptor : Int) (call : DescriptorCall)
deriving DecidableEq, Repr

/-- The use of a page. -/
inductive PageUse where
  | free
  | used
  | object (kind : ResourceType)
deriving DecidableEq, Repr

/-- The pages, and the array `files` of every process. -/
structure Descriptors where
  pages : Nat → PageUse
  files : PcbPtr → Nat → Option FatResource
  /-- The word beside the array that is reached as `files[i]` is zero. -/
  zeroBeside : PcbPtr → Int → Bool

/-- An object is passed to a function of the FAT layer that expects one of a kind. -/
structure FatCall where
  kind : ResourceType
  object : Option Nat
deriving DecidableEq, Repr

structure FileOutcome where
  state : Descriptors
  calls : List FatCall
  value : Int

namespace Descriptors

variable (s : Descriptors) (p : PcbPtr)

/-- `allocate_kernel_page`. -/
def allocateKernelPage : Option Nat := (List.range N_PAGES).find? fun i => s.pages i = .free

def setPage (i : Nat) (use : PageUse) : Descriptors :=
  { s with pages := Function.update s.pages i use }

/-- `current_process->files[i] = resource`. -/
def setFile (i : Nat) (resource : FatResource) : Descriptors :=
  { s with files := Function.update s.files p (Function.update (s.files p) i (some resource)) }

/-- `get_first_free_file_descriptor`. -/
def getFirstFreeFileDescriptor : Option Nat :=
  (List.range MAX_FILES_PER_PROCESS).find? fun i => (s.files p i).isNone

/-- The number is one of the array. -/
def InRange (fileDescriptor : Int) : Prop :=
  0 ≤ fileDescriptor ∧ fileDescriptor < MAX_FILES_PER_PROCESS

instance (fileDescriptor : Int) : Decidable (InRange fileDescriptor) :=
  inferInstanceAs (Decidable (_ ∧ _))

/-- The resource that `files[fileDescriptor]` points to. -/
def resource (fileDescriptor : Int) : Option FatResource :=
  if InRange fileDescriptor then s.files p fileDescriptor.toNat else none

/-- `files[fileDescriptor] == NULL`. -/
def isNull (fileDescriptor : Int) : Bool :=
  if InRange fileDescriptor then (s.files p fileDescriptor.toNat).isNone
  else s.zeroBeside p fileDescriptor

/-- The body that the three calls share: `kind` is the tag they write, and `failure` the value they
return for an error. -/
def openResource (kind : ResourceType) (failure : Int → Int) (result : OpenResult) :
    Option FileOutcome :=
  match s.getFirstFreeFileDescriptor p with
  | none => some ⟨s, [], -1⟩
  | some fileDescriptor => do
      let object ← s.allocateKernelPage
      match result with
      | .tooLong => return ⟨s, [], failure (-1)⟩
      | .fat (some error) => return ⟨s, [⟨kind, some object⟩], failure error.code⟩
      | .fat none =>
          let s := s.setPage object (.object kind)
          let page ← s.allocateKernelPage
          let s := s.setPage page .used
          let s := s.setFile p fileDescriptor ⟨page, kind, some object⟩
          return ⟨s, [⟨kind, some object⟩], fileDescriptor⟩

def syscallCreateDir (result : OpenResult) : Option FileOutcome :=
  s.openResource p .folder id result

def syscallOpenDir (result : OpenResult) : Option FileOutcome :=
  s.openResource p .folder (fun _ => -1) result

def syscallOpenFile (result : OpenResult) : Option FileOutcome :=
  s.openResource p .file (fun _ => -1) result

def syscallCloseFile (fileDescriptor : Int) (error : Option FatError) : Option FileOutcome :=
  if fileDescriptor < 0 ∨ fileDescriptor ≥ MAX_FILES_PER_PROCESS then some ⟨s, [], -1⟩
  else do
    let resource ← s.resource p fileDescriptor
    match error with
    | some error => return ⟨s, [⟨.file, resource.object⟩], error.code⟩
    | none =>
        let file ← resource.object
        let s := s.setPage file .free
        let page ← s.allocateKernelPage
        let s := s.setPage page .used
        let s := s.setFile p fileDescriptor.toNat ⟨page, .file, none⟩
        return ⟨s, [⟨.file, some file⟩], 0⟩

/-- The value of an error. -/
def errorCode (error : Option FatError) : Int := (error.map FatError.code).getD 0

def syscallWriteFile (fileDescriptor : Int) (error : Option FatError) : Option FileOutcome :=
  if s.isNull p fileDescriptor then some ⟨s, [], -1⟩
  else do
    let resource ← s.resource p fileDescriptor
    return ⟨s, [⟨.file, resource.object⟩], errorCode error⟩

/-- `fat_file_seek`, whose result is not looked at, and `fat_file_read`. -/
def syscallReadFile (fileDescriptor : Int) (error : Option FatError) : Option FileOutcome := do
  let resource ← s.resource p fileDescriptor
  return ⟨s, [⟨.file, resource.object⟩, ⟨.file, resource.object⟩], errorCode error⟩

def syscallGetNextEntry (fileDescriptor : Int) (readError nextError : Option FatError) :
    Option FileOutcome := do
  let resource ← s.resource p fileDescriptor
  match resource.object with
  | none => return ⟨s, [], -1⟩
  | some dir =>
      if readError.isSome then return ⟨s, [⟨.folder, some dir⟩], -1⟩
      else
        return ⟨s, [⟨.folder, some dir⟩, ⟨.folder, some dir⟩],
          if nextError.isSome then -1 else 0⟩

/-- A call by the process `p`. -/
def call : FileCall → Option FileOutcome
  | .createDir result => s.syscallCreateDir p result
  | .openDir result => s.syscallOpenDir p result
  | .openFile result => s.syscallOpenFile p result
  | .on fileDescriptor (.close error) => s.syscallCloseFile p fileDescriptor error
  | .on fileDescriptor (.write error) => s.syscallWriteFile p fileDescriptor error
  | .on fileDescriptor (.read error) => s.syscallReadFile p fileDescriptor error
  | .on fileDescriptor (.getNextEntry readError nextError) =>
      s.syscallGetNextEntry p fileDescriptor readError nextError

/-! ### What was opened -/

/-- The object that each process has opened through each descriptor and not closed since. -/
abbrev Opened := PcbPtr → Nat → Option FatCall

/-- An open call that returns a descriptor has opened the object that it passed to the FAT layer,
and a close call that returns 0 has closed one. -/
def Opened.record (opened : Opened) (p : PcbPtr) (call : FileCall) (outcome : FileOutcome) :
    Opened :=
  match call with
  | .createDir _ | .openDir _ | .openFile _ =>
      if 0 ≤ outcome.value then
        Function.update opened p
          (Function.update (opened p) outcome.value.toNat outcome.calls.head?)
      else opened
  | .on fileDescriptor (.close _) =>
      if outcome.value = 0 then
        Function.update opened p (Function.update (opened p) fileDescriptor.toNat none)
      else opened
  | _ => opened

/-- The call returns an error and changes nothing, or calls the FAT layer, with the object that the
process has opened through the descriptor and not closed since, which is of the kind expected. -/
def Disciplined (opened : Opened) (fileDescriptor : Int) (c : DescriptorCall) : Prop :=
  ∃ outcome, s.call p (.on fileDescriptor c) = some outcome
    ∧ (outcome.value < 0 ∧ outcome.calls = [] ∧ outcome.state = s
      ∨ outcome.calls ≠ [] ∧ InRange fileDescriptor
        ∧ ∀ fatCall ∈ outcome.calls, fatCall.object.isSome
          ∧ opened p fileDescriptor.toNat = some fatCall)

/-- `files[fileDescriptor]` is a resource with that tag, and has not been closed. -/
def IsOpen (fileDescriptor : Int) (kind : ResourceType) : Prop :=
  ∃ resource, s.resource p fileDescriptor = some resource ∧ resource.resourceType = kind
    ∧ resource.object.isSome

/-- What a call on a descriptor takes for granted. -/
def CallFits (fileDescriptor : Int) : DescriptorCall → Prop
  | .close _ => ¬ InRange fileDescriptor ∨ s.IsOpen p fileDescriptor .file
  | .write _ => s.isNull p fileDescriptor ∨ s.IsOpen p fileDescriptor .file
  | .read _ => s.IsOpen p fileDescriptor .file
  | .getNextEntry _ _ => s.IsOpen p fileDescriptor .folder
      ∨ ∃ resource, s.resource p fileDescriptor = some resource ∧ resource.object = none

/-- The states of the runs whose calls on descriptors all get what they take for granted, and whose
other calls find free pages. -/
inductive Run : Descriptors → Opened → Prop where
  | start {s : Descriptors} (hpages : ∀ i kind, s.pages i ≠ .object kind)
      (hfiles : ∀ p i, s.files p i = none) : Run s fun _ _ => none
  | call {s : Descriptors} {opened : Opened} {outcome : FileOutcome} (p : PcbPtr)
      (call : FileCall) : Run s opened →
      (∀ fileDescriptor c, call = .on fileDescriptor c → s.CallFits p fileDescriptor c) →
      s.call p call = some outcome → Run outcome.state (opened.record p call outcome)

/-! ### The calls of a run -/

/-- A call of a process, and the value that it returned. -/
structure FileEvent where
  process : PcbPtr
  call : FileCall
  value : Int

/-- The call has opened a file or a folder. -/
def FileEvent.opens (e : FileEvent) : Bool :=
  match e.call with
  | .createDir _ | .openDir _ | .openFile _ => decide (0 ≤ e.value)
  | .on _ _ => false

/-- The descriptors that the process was given, in order. -/
def givenDescriptors (events : List FileEvent) (p : PcbPtr) : List Int :=
  (events.filter fun e => e.process = p ∧ e.opens).map FileEvent.value

/-- The pages that are not free. -/
def pagesInUse (s : Descriptors) : Nat :=
  ((Finset.range N_PAGES).filter fun i => s.pages i ≠ .free).card

/-- The calls of a run from `s₀`, where nothing is open. -/
inductive Calls (s₀ : Descriptors) : List FileEvent → Descriptors → Opened → Prop where
  | start (hpages : ∀ i kind, s₀.pages i ≠ .object kind) (hfiles : ∀ p i, s₀.files p i = none) :
      Calls s₀ [] s₀ fun _ _ => none
  | call {events : List FileEvent} {s : Descriptors} {opened : Opened} {outcome : FileOutcome}
      (p : PcbPtr) (call : FileCall) : Calls s₀ events s opened →
      (∀ fileDescriptor c, call = .on fileDescriptor c → s.CallFits p fileDescriptor c) →
      s.call p call = some outcome →
      Calls s₀ (events ++ [⟨p, call, outcome.value⟩]) outcome.state (opened.record p call outcome)

end Descriptors

end DemoOS
