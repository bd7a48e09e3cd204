import DemoOS.Common.String

/-!
# `DemoOS.App.Shell`: `app/shell.c`

The handlers of the shell, up to the system calls: a handler is the path it asks the kernel for,
and `handle_cd` the new working directory. `shell` runs one command after the other. Every
function returns `none` where the source would write outside one of its buffers. What the
handlers print, and what they do with the answers of the kernel except for the one of `open_dir`
in `handle_cd`, is left out. `handle_tree` ends with a call of `print_tree`, whose loop stops at
once: it goes on at the result 1 of `call_syscall_get_next_entry`, which returns 0 or -1.
-/

set_option autoImplicit false

namespace DemoOS

open Support.CString

abbrev MAX_COMMAND_DIMENSION : Nat := 64
abbrev MAX_EXEC_ARGUMENTS : Nat := 4

namespace Shell

/-! ## `normalize_path` -/

/-- `path[i] = c` for an index that may be negative. -/
def putAt (path : Buffer) (i : Int) (c : UInt8) : Option Buffer :=
  match i with
  | .ofNat i => put path i c
  | .negSucc _ => none

/-- The inner loop of `normalize_path`: back to behind the last slash before `write`. -/
def backUp (path : Buffer) : Nat → Nat
  | 0 => 0
  | write + 1 => if path[write]? = some SLASH then write + 1 else backUp path write

/-- Whether a component ends at `i`. -/
def endsAt (path : Buffer) (i : Nat) : Prop := path[i]? = some SLASH ∨ path[i]? = some NUL

instance (path : Buffer) (i : Nat) : Decidable (endsAt path i) :=
  inferInstanceAs (Decidable (_ ∨ _))

/-- The outer loop of `normalize_path`. -/
def normalizeLoop : Nat → Buffer → Nat → Int → Option (Buffer × Int)
  | 0, _, _, _ => none
  | fuel + 1, path, read, write => do
      let c ← path[read]?
      if c = NUL then some (path, write)
      else if c = DOT ∧ endsAt path (read + 1) then
        normalizeLoop fuel path (read + if path[read + 1]? = some SLASH then 2 else 1) write
      else if c = DOT ∧ path[read + 1]? = some DOT ∧ endsAt path (read + 2) then
        let write := write - 1
        let write : Int := if write > 0 then backUp path write.toNat else write
        normalizeLoop fuel path (read + if path[read + 2]? = some SLASH then 3 else 2) write
      else do
        let path ← putAt path write c
        normalizeLoop fuel path (read + 1) (write + 1)

/-- `normalize_path`. Every round of the loop reads further on. -/
def normalizePath (path : Buffer) : Option Buffer := do
  let (path, write) ← normalizeLoop (path.length + 1) path 0 0
  let path ← putAt path write NUL
  if write = 0 then do
    let path ← putAt path write SLASH
    putAt path (write + 1) NUL
  else some path

/-! ## The handlers -/

/-- The bytes of a local array after `memzero`. -/
abbrev cleared : Buffer := memzero MAX_COMMAND_DIMENSION

/-- `handle_mkdir`: the path for `create_dir`, if there is one. -/
def handleMkdir (buffer workingDirectory : Buffer) : Option (Option Buffer) := do
  let (_, dirName) ← strsplit buffer SPACE cleared cleared
  if dirName.head? = some NUL then some none
  else do
    let length ← strlen workingDirectory
    if length < MAX_COMMAND_DIMENSION then do
      let temp ← strcat cleared workingDirectory
      let temp ← if dirName.head? ≠ some SLASH then strcat temp [SLASH, NUL] else some temp
      let temp ← strcat temp dirName
      some (some temp)
    else some none

/-- The branch for a relative path that `handle_cd` and `handle_show` share. -/
def appendToDirectory (workingDirectory destination : Buffer) : Option Buffer := do
  let temp ← memcpy cleared workingDirectory MAX_COMMAND_DIMENSION
  let len ← strlen temp
  let temp ←
    if len > 2 ∧ temp[len - 1]? ≠ some SLASH then do
      let temp ← put temp len SLASH
      put temp (len + 1) NUL
    else some temp
  strcat temp destination

/-- `handle_cd`: the working directory that it leaves. `stray` is the byte in front of
`destination`, which is read when there is no argument; `opens` says which directories
`open_dir` finds. -/
def handleCd (stray : UInt8) (opens : Buffer → Bool) (buffer workingDirectory : Buffer) :
    Option Buffer := do
  let (_, destination) ← strsplit buffer SPACE cleared cleared
  let destinationLen ← strlen destination
  let last := if destinationLen = 0 then some stray else destination[destinationLen - 1]?
  let destination ← if last ≠ some SLASH then strcat destination [SLASH, NUL] else some destination
  let temp ←
    if destination.head? = some SLASH then memcpy cleared destination MAX_COMMAND_DIMENSION
    else appendToDirectory workingDirectory destination
  let temp ← normalizePath temp
  if opens temp then memcpy workingDirectory temp MAX_COMMAND_DIMENSION else some workingDirectory

/-- `handle_show`: the path for `open_file`. -/
def handleShow (buffer workingDirectory : Buffer) : Option Buffer := do
  let (_, destination) ← strsplit buffer SPACE cleared cleared
  let temp ←
    if destination.head? = some SLASH then memcpy cleared destination MAX_COMMAND_DIMENSION
    else appendToDirectory workingDirectory destination
  normalizePath temp

/-- `handle_tree`: the path for `open_dir`. -/
def handleTree (buffer workingDirectory : Buffer) : Option Buffer := do
  let (_, target) ← strsplit buffer SPACE cleared cleared
  let fullpath ←
    if target.head? = some NUL then memcpy cleared workingDirectory MAX_COMMAND_DIMENSION
    else if target.head? = some SLASH then memcpy cleared target MAX_COMMAND_DIMENSION
    else do
      let fullpath ← memcpy cleared workingDirectory MAX_COMMAND_DIMENSION
      let len ← strlen fullpath
      let fullpath ←
        if len > 1 ∧ fullpath[len - 1]? ≠ some SLASH then strcat fullpath [SLASH, NUL]
        else some fullpath
      strcat fullpath target
  normalizePath fullpath

/-- The characters at which the first two loops of `handle_write` stop. -/
def endsWord (c : UInt8) : Bool := c = NUL ∨ c = SPACE

/-- The characters at which its last loop stops. -/
def endsText (c : UInt8) : Bool := c = NUL

/-- The first loop of `handle_write`. The memory behind the last byte given is zero. -/
def skipWord : Buffer → Buffer
  | [] => []
  | c :: p => if endsWord c then c :: p else skipWord p

/-- The two copying loops of `handle_write`: the destination with a zero behind the text, the
length of the text, and where the pointer stops. -/
def copyUntil (stop : UInt8 → Bool) (dest : Buffer) (i : Nat) :
    Buffer → Option (Buffer × Nat × Buffer)
  | [] => do
      let dest ← put dest i NUL
      some (dest, i, [])
  | c :: p =>
      if stop c then do
        let dest ← put dest i NUL
        some (dest, i, c :: p)
      else do
        let dest ← put dest i c
        copyUntil stop dest (i + 1) p

/-- `handle_write`: the path for `open_file`, and the content. `behind` is the memory behind the
command buffer, which the two `p++` can reach. -/
def handleWrite (behind buffer workingDirectory : Buffer) : Option (Buffer × Buffer) := do
  let p := (skipWord (buffer ++ behind)).tail
  let (fileName, _, p) ← copyUntil endsWord cleared 0 p
  let (fileContent, _, _) ← copyUntil endsText cleared 0 p.tail
  let directoryLength ← strlen workingDirectory
  let nameLength ← strlen fileName
  let filePath ←
    if directoryLength + nameLength < MAX_COMMAND_DIMENSION then do
      let filePath ← strcat cleared workingDirectory
      strcat filePath fileName
    else some cleared
  some (filePath, fileContent)

/-- `handle_exec`: the path for `exec`, if there is one. -/
def handleExec (buffer workingDirectory : Buffer) : Option (Option Buffer) := do
  let (_, path) ← strsplit buffer SPACE cleared cleared
  let pathLength ← strlen path
  if pathLength = 0 then some none
  else do
    let directoryLength ← strlen workingDirectory
    if directoryLength + pathLength ≥ MAX_COMMAND_DIMENSION then some none
    else do
      let completePath ← strcat cleared workingDirectory
      let completePath ← strcat completePath path
      let completePath ← normalizePath completePath
      some (some completePath)

/-- The tokenising loop of `handle_exec_from_bin`. It fails when the fuel runs out. -/
def argumentLoop : Nat → Buffer → List Buffer → Nat → Option (List Buffer × Nat)
  | 0, _, _, _ => none
  | fuel + 1, argumentsRaw, arguments, nArguments => do
      let length ← strlen argumentsRaw
      if length > 0 ∧ nArguments < MAX_EXEC_ARGUMENTS then do
        let argument ← arguments[nArguments]?
        let (argument, temp) ←
          strsplit argumentsRaw SPACE argument (memzero SYSCALL_EXEC_ARGUMENT_DIMENSION)
        let argumentsRaw ← strcpy argumentsRaw temp
        argumentLoop fuel argumentsRaw (arguments.set nArguments argument) (nArguments + 1)
      else some (arguments, nArguments)

/-- What `handle_exec_from_bin` calls `exec` with. -/
structure ExecRequest where
  fileName : Buffer
  completePath : Buffer
  arguments : List Buffer
  nArguments : Nat

/-- The array `arguments` after `memzero`. -/
def noArguments : List Buffer :=
  List.replicate MAX_EXEC_ARGUMENTS (memzero SYSCALL_EXEC_ARGUMENT_DIMENSION)

/-- `"/bin/"` and `".bin"`. -/
def binDirectory : Buffer := [47, 98, 105, 110, 47, 0]
def binExtension : Buffer := [46, 98, 105, 110, 0]

/-- `handle_exec_from_bin`, if it gets as far as `exec`. -/
def handleExecFromBin (buffer : Buffer) : Option (Option ExecRequest) := do
  let (fileName, argumentsRaw) ← strsplit buffer SPACE cleared cleared
  let directoryLength ← strlen binDirectory
  let nameLength ← strlen fileName
  let extensionLength ← strlen binExtension
  if directoryLength + nameLength + extensionLength ≥ MAX_COMMAND_DIMENSION then some none
  else do
    let completePath ← strcat cleared binDirectory
    let completePath ← strcat completePath fileName
    let completePath ← strcat completePath binExtension
    let completePath ← normalizePath completePath
    let (arguments, nArguments) ←
      argumentLoop (MAX_EXEC_ARGUMENTS + 1) argumentsRaw noArguments 0
    some (some { fileName, completePath, arguments, nArguments })

/-! ## The loop of `shell` -/

/-- What a command line is handled by; `clear` has no handler of its own. -/
inductive Handler where
  | handleHelp
  | handleLs
  | handlePwd
  | handleMkdir
  | handleCd
  | handleTree
  | clear
  | handleWrite
  | handleShow
  | handleExec
  | handleExecFromBin
  deriving DecidableEq

/-- `memcmp(buffer, name, n) == 0` for the `n` bytes of `name`. -/
def startsWith (buffer : Buffer) (name : List UInt8) : Prop := buffer.take name.length = name

instance (buffer : Buffer) (name : List UInt8) : Decidable (startsWith buffer name) :=
  inferInstanceAs (Decidable (_ = _))

/-- The comparisons of `shell` with `"help"`, `"ls"`, `"pwd"`, `"mkdir"`, `"cd"`, `"tree"`,
`"clear"`, `"write"`, `"show"` and `"exec"`. -/
def dispatch (buffer : Buffer) : Handler :=
  if startsWith buffer [104, 101, 108, 112] then .handleHelp
  else if startsWith buffer [108, 115] then .handleLs
  else if startsWith buffer [112, 119, 100] then .handlePwd
  else if startsWith buffer [109, 107, 100, 105, 114] then .handleMkdir
  else if startsWith buffer [99, 100] then .handleCd
  else if startsWith buffer [116, 114, 101, 101] then .handleTree
  else if startsWith buffer [99, 108, 101, 97, 114] then .clear
  else if startsWith buffer [119, 114, 105, 116, 101] then .handleWrite
  else if startsWith buffer [115, 104, 111, 119] then .handleShow
  else if startsWith buffer [101, 120, 101, 99] then .handleExec
  else .handleExecFromBin

/-- The buffer of a command as `syscall_input` leaves it, and what the handlers meet besides: the
byte in front of `destination` in `handle_cd`, the memory behind the buffer, and the directories
that `open_dir` finds. -/
structure Command where
  buffer : Buffer
  stray : UInt8
  behind : Buffer
  opens : Buffer → Bool

/-- The working directory that a handler leaves. Only `handle_cd` changes it. -/
def runHandler (command : Command) (workingDirectory : Buffer) : Handler → Option Buffer
  | .handleMkdir => (handleMkdir command.buffer workingDirectory).map fun _ => workingDirectory
  | .handleCd => handleCd command.stray command.opens command.buffer workingDirectory
  | .handleTree => (handleTree command.buffer workingDirectory).map fun _ => workingDirectory
  | .handleWrite =>
      (handleWrite command.behind command.buffer workingDirectory).map fun _ => workingDirectory
  | .handleShow => (handleShow command.buffer workingDirectory).map fun _ => workingDirectory
  | .handleExec => (handleExec command.buffer workingDirectory).map fun _ => workingDirectory
  | .handleExecFromBin => (handleExecFromBin command.buffer).map fun _ => workingDirectory
  | .handleHelp | .handleLs | .handlePwd | .clear => some workingDirectory

/-- One round of the loop of `shell`, from the command that is read to the next one. -/
def runCommand (command : Command) (workingDirectory : Buffer) : Option Buffer := do
  let length ← strlen command.buffer
  if length = 0 then some workingDirectory
  else runHandler command workingDirectory (dispatch command.buffer)

/-- The array `working_directory` at the beginning: `"/"`. -/
def initialDirectory : Buffer := SLASH :: memzero (MAX_COMMAND_DIMENSION - 1)

/-- `shell`, as far as the rounds for the given commands: the working directory that they leave. -/
def shell (commands : List Command) : Option Buffer :=
  commands.foldlM (fun workingDirectory command => runCommand command workingDirectory)
    initialDirectory

end Shell

end DemoOS
