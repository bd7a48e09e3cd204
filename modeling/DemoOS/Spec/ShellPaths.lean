import DemoOS.App.Shell
import DemoOS.Spec.CommandLine
import DemoOS.Spec.Paths

/-!
# `DemoOS.Spec.ShellPaths`: the paths that the handlers of the shell build

Which path a handler builds from the working directory and the text of its command, as plain
lists of characters, and when that path has room in a buffer of 64 bytes and `normalize_path` does
not go back beyond its beginning.
-/

set_option autoImplicit false

namespace DemoOS.Shell

open DemoOS.Path Support.CString

/-- The string in front of the first zero of a buffer. -/
def textOf (buffer : Buffer) : List UInt8 := buffer.takeWhile (· ≠ NUL)

/-- The text behind the first space of a command. -/
def argumentOf (buffer : Buffer) : List UInt8 := textBehind SPACE (textOf buffer)

/-- A directory, with a slash behind it if it has none and is longer than `shortest`. -/
def withSlash (shortest : Nat) (directory : List UInt8) : List UInt8 :=
  if directory.length > shortest ∧ directory.getLast? ≠ some SLASH then directory ++ [SLASH]
  else directory

/-- A path from the root as it is, and any other one behind the directory. -/
def joined (shortest : Nat) (directory path : List UInt8) : List UInt8 :=
  if path.head? = some SLASH then path else withSlash shortest directory ++ path

/-- The path that `handle_mkdir` asks for. -/
def mkdirPath (directory name : List UInt8) : List UInt8 :=
  if name.head? = some SLASH then directory ++ name else directory ++ SLASH :: name

/-- The argument of `handle_cd` with its slash. For an empty one `stray` decides. -/
def cdDestination (stray : UInt8) (argument : List UInt8) : List UInt8 :=
  if argument.getLast?.getD stray = SLASH then argument else argument ++ [SLASH]

/-- The path that `handle_tree` asks for. -/
def treePath (directory target : List UInt8) : List UInt8 :=
  if target = [] then directory else joined 1 directory target

/-- The path that `handle_exec_from_bin` asks for. -/
def binPath (name : List UInt8) : List UInt8 :=
  textOf binDirectory ++ name ++ textOf binExtension

/-- The memory behind the character that ends the first word. -/
def behindWord (memory : Buffer) : Buffer := (memory.dropWhile (! endsWord ·)).tail

/-- What `handle_write` takes for the file name. -/
def writtenName (memory : Buffer) : List UInt8 := (behindWord memory).takeWhile (! endsWord ·)

/-- What it takes for the content. -/
def writtenContent (memory : Buffer) : List UInt8 :=
  (behindWord (behindWord memory)).takeWhile (! endsText ·)

/-- A text and its zero have room in a buffer of the shell. -/
def Fits (text : List UInt8) : Prop := text.length < MAX_COMMAND_DIMENSION

instance (text : List UInt8) : Decidable (Fits text) := inferInstanceAs (Decidable (_ < _))

/-- What a handler needs to stay inside its buffers, in a directory. `handle_exec` and
`handle_exec_from_bin` do nothing for a path that does not fit. -/
def Command.HasRoom (command : Command) (directory : List UInt8) : Handler → Prop
  | .handleMkdir =>
      argumentOf command.buffer = [] ∨ Fits (mkdirPath directory (argumentOf command.buffer))
  | .handleCd =>
      let path := joined 2 directory (cdDestination command.stray (argumentOf command.buffer))
      Fits path ∧ Contained path
  | .handleTree =>
      let path := treePath directory (argumentOf command.buffer)
      Fits path ∧ Contained path
  | .handleWrite =>
      Fits (writtenName (command.buffer ++ command.behind))
        ∧ Fits (writtenContent (command.buffer ++ command.behind))
  | .handleShow =>
      let path := joined 2 directory (argumentOf command.buffer)
      Fits path ∧ Contained path
  | .handleExec =>
      let path := directory ++ argumentOf command.buffer
      argumentOf command.buffer = [] ∨ ¬ Fits path ∨ Contained path
  | .handleExecFromBin =>
      let path := binPath (textBefore SPACE (textOf command.buffer))
      ¬ Fits path ∨ Contained path
  | .handleHelp | .handleLs | .handlePwd | .clear => True

/-- What a command needs, in a directory. An empty line is not handled. -/
def Command.Allowed (command : Command) (directory : List UInt8) : Prop :=
  textOf command.buffer ≠ [] → command.HasRoom directory (dispatch command.buffer)

/-- Every command of a run has what it needs, in the directory that it meets. -/
def AllAllowed : Buffer → List Command → Prop
  | _, [] => True
  | workingDirectory, command :: commands =>
      command.Allowed (textOf workingDirectory)
        ∧ ∀ next, runCommand command workingDirectory = some next → AllAllowed next commands

/-- A buffer of the shell with a string of at most 63 characters. -/
structure IsTerminated (buffer : Buffer) : Prop where
  holds : Holds buffer (textOf buffer)
  size : buffer.length = MAX_COMMAND_DIMENSION

/-- A command as `syscall_input` leaves it. -/
structure Command.IsTyped (command : Command) : Prop extends IsTerminated command.buffer where
  line : IsLine (textOf command.buffer)

end DemoOS.Shell
