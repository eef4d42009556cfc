import NameServerConf.Tool.Basic

/-!
# The command line

Runs the tool on the files of the machine.  Everything that is decided is decided by `Tool.run`; this
module reads the options and does what the script asks for.
-/

namespace NameServerConf.Tool

/-- What was read of a command line: a request, or the option that is not known. -/
def requestOf (r : Request) : List String → Except String Request
  | [] => .ok r
  | "--help" :: rest => requestOf { r with help := true } rest
  | "-h" :: rest => requestOf { r with help := true } rest
  | "--verbose" :: rest => requestOf { r with verbose := true } rest
  | "-v" :: rest => requestOf { r with verbose := true } rest
  | "--config-dir" :: dir :: rest => requestOf { r with configDir := dir } rest
  | word :: rest =>
    if "--config-dir=".isPrefixOf word then
      requestOf { r with configDir := (word.drop 13).toString } rest
    else if "-".isPrefixOf word && word ≠ "-" then .error word
    else requestOf { r with words := r.words ++ [Text.ofString word] } rest

/-- The bytes of a text as the machine wants them. -/
def bytesOf (t : Text) : ByteArray := ⟨t.toArray⟩

/-- The name of a file. -/
def fileName (path : Text) : IO String :=
  match String.fromUTF8? (bytesOf path) with
  | some name => pure name
  | none => throw (IO.userError "not a file name")

/-- Opens a file, if that is possible. -/
def openIO (path : Text) (mode : IO.FS.Mode) : IO (Option IO.FS.Handle) := do
  try
    pure (some (← IO.FS.Handle.mk (← fileName path) mode))
  catch _ => pure none

/-- Reads a file, if it can be opened.  What opens and cannot be read, such as a folder, is empty. -/
def readIO (path : Text) : IO (Option Text) := do
  match ← openIO path .read with
  | none => pure none
  | some handle =>
    try
      pure (some (← handle.readBinToEnd).data.toList)
    catch _ => pure (some [])

/-- Writes a file, and says what went wrong. -/
def writeIO (path content : Text) : IO (Option FileError) := do
  match ← openIO path .write with
  | none => pure (some (.cannotOpen path))
  | some handle =>
    try
      handle.write (bytesOf content)
      handle.flush
      pure none
    catch _ => pure (some (.cannotWrite path))

/-- Runs a script on the files of the machine. -/
def perform : Script Exit → IO Exit
  | .done e => pure e
  | .read path next => do perform (next (← readIO path))
  | .write path content next => do perform (next (← writeIO path content))
  | .print .output text next => do
    (← IO.getStdout).write (bytesOf text)
    perform next
  | .print .errors text next => do
    (← IO.getStderr).write (bytesOf text)
    perform next

end NameServerConf.Tool

def main (args : List String) : IO UInt32 := do
  match NameServerConf.Tool.requestOf ⟨[], false, false, "."⟩ args with
  | .ok r => pure (← NameServerConf.Tool.perform (NameServerConf.Tool.run r)).code.toUInt32
  | .error option =>
    IO.eprintln ("Error: unrecognised option '" ++ option ++ "'")
    pure 1
