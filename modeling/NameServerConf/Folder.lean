import NameServerConf.Text.Words

/-!
# A folder of files

The files that a program can reach, as a value: the files of the folder that it works in, two
devices, and the folders around them, of which no more is known than that they exist.  A path is
walked component by component (`Spot.enter`), and what can be done at its end hangs on the kind of
place that it leads to.  Opening a file for writing either fails, or replaces all that the file held.
-/

namespace NameServerConf

/-- Why a file could not be read or written. -/
inductive FileError
  /-- There is no name to write to. -/
  | noName
  /-- The file cannot be opened for reading. -/
  | cannotRead (path : Text)
  /-- The file cannot be opened for writing. -/
  | cannotOpen (path : Text)
  /-- The file was opened, but not all could be written to it. -/
  | cannotWrite (path : Text)
deriving DecidableEq, Repr

/-- What is told to the user. -/
def FileError.message : FileError → Text
  | .noName => "No file name to save the configuration to"
  | .cannotRead path => "Unable to open configuration file '" ++ path ++ "' for reading"
  | .cannotOpen path => "Unable to open configuration file '" ++ path ++ "' for writing"
  | .cannotWrite path => "Error writing configuration file '" ++ path ++ "'"

/-- Where a path can lead. -/
inductive Spot
  /-- The folder that paths start from. -/
  | here
  /-- A folder around it. -/
  | around
  /-- The folder around all others, where paths that begin with a slash start. -/
  | root
  /-- A folder that every machine has in its root. -/
  | standard (name : Text)
  /-- A file in the folder that paths start from, whether there is one or not. -/
  | file (name : Text)
  /-- The device that takes everything and gives nothing. -/
  | nullDevice
  /-- The device that is always full. -/
  | fullDevice
deriving DecidableEq, Repr

namespace Spot

/-- The folders that every machine has in its root. -/
def standardFolders : List Text :=
  ["bin", "dev", "etc", "home", "lib", "proc", "root", "sbin", "sys", "tmp", "usr", "var"]

/-- How long the name of a file can be. -/
def longestName : Nat := 255

/-- How long a path can be. -/
def longestPath : Nat := 4095

/-- Whether a place is a folder. -/
def isFolder : Spot → Bool
  | .here | .around | .root | .standard _ => true
  | .file _ | .nullDevice | .fullDevice => false

/-- The folder around a folder. -/
def parent : Spot → Spot
  | .here | .around => .around
  | p => if p.isFolder then .root else p

/-- What a folder holds under a name. -/
def child (p : Spot) (name : Text) : Option Spot :=
  match p with
  | .here => if name.length ≤ longestName then some (.file name) else none
  | .root => if name ∈ standardFolders then some (.standard name) else none
  | .standard folder =>
    if folder = "dev" then
      if name = "null" then some .nullDevice else if name = "full" then some .fullDevice else none
    else none
  | _ => none

/-- One component of a path further.  Only a folder has something behind it, be it itself: a path to
    a file does not end in a slash. -/
def enter (p : Spot) (component : Text) : Option Spot :=
  if !p.isFolder then none
  else if component = [] || component = "." then some p
  else if component = ".." then some p.parent
  else p.child component

/-- What a path leads to, if that exists or could be made; a path ends before its first null byte. -/
def ofPath? (path : Text) : Option Spot :=
  let p := path.untilNul
  if p = [] || longestPath < p.length then none
  else (Text.fields (· = Byte.slash) p).foldlM enter
    (if p.head? = some Byte.slash then .root else .here)

end Spot

/-- The files of a folder with their contents. -/
structure Folder where
  files : List (Text × Text)
deriving DecidableEq, Inhabited, Repr

namespace Folder

/-- The content of a file of the folder. -/
def lookup (name : Text) : List (Text × Text) → Option Text
  | [] => none
  | (n, content) :: rest => if n = name then some content else lookup name rest

/-- Gives a file of the folder its content. -/
def store (name content : Text) : List (Text × Text) → List (Text × Text)
  | [] => [(name, content)]
  | (n, c) :: rest => if n = name then (n, content) :: rest else (n, c) :: store name content rest

/-- What can be read at a path.  A folder can be opened, and reads as empty. -/
def read? (f : Folder) (path : Text) : Option Text :=
  match Spot.ofPath? path with
  | some (.file name) => lookup name f.files
  | some .fullDevice | none => none
  | some _ => some []

/-- Writes a file at a path.  The full device takes nothing, which is enough if there is nothing to
    write. -/
def write (f : Folder) (path content : Text) : Except FileError Folder :=
  match Spot.ofPath? path with
  | some (.file name) => .ok ⟨store name content f.files⟩
  | some .nullDevice => .ok f
  | some .fullDevice => if content = [] then .ok f else .error (.cannotWrite path)
  | _ => .error (.cannotOpen path)

end Folder

end NameServerConf
