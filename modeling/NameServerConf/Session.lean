import NameServerConf.Config.Access
import NameServerConf.Config.Apply
import NameServerConf.Node.Render
import NameServerConf.Script

/-!
# Sessions

In a session a configuration is read from a file, changed and written back.  The session keeps the
nodes of the file, so that what the library does not know, and every comment, is still there when the
file is written.

Operations that can fail, or that have remarks to make, give an `Outcome`.  An operation that fails
may have changed the session before: saving brings the nodes up to date first and writes them then.
-/

namespace NameServerConf

/-- The nodes of a file, and the path that it was read from if it was. -/
structure Document where
  nodes : List Node
  path : Option Text
deriving Inhabited, Repr

/-- A configuration and the file that it belongs to. -/
structure Session where
  config : Config
  document : Option Document
deriving Inhabited, Repr

/-- Why an operation of a session failed. -/
inductive SessionError
  /-- There is no file that the configuration belongs to. -/
  | noDocument
  /-- A file could not be read or written. -/
  | file (error : FileError)
deriving DecidableEq, Repr

/-- What an operation did: the session after it, the remarks on the way, and its result. -/
structure Outcome (α : Type) where
  session : Session
  remarks : List Remark
  result : Except SessionError α

/-- What is told to the user. -/
def SessionError.message : SessionError → Text
  | .noDocument => "no underlying configuration tree; decode a file first"
  | .file e => e.message

namespace Document

/-- A file with the given text. -/
def ofText (s : Text) : Document := ⟨Node.parse s, none⟩

/-- The text of a file. -/
def text (d : Document) : Text := Node.renderFile d.nodes

/-- Reads a file. -/
def load (path : Text) : Script (Except FileError Document) := do
  match ← Script.readFile path with
  | some content => pure (.ok ⟨Node.parse content, some path⟩)
  | none => pure (.error (.cannotRead path))

/-- The path to write to: the one given, or if that is empty the one that the file was read from. -/
def target (d : Document) (path : Text) : Text := if path = [] then d.path.getD [] else path

/-- Writes a file. -/
def save (d : Document) (path : Text) : Script (Option FileError) :=
  if d.target path = [] then pure (some .noName) else Script.writeFile (d.target path) d.text

end Document

namespace Session

/-- An empty configuration that belongs to no file. -/
def empty : Session := ⟨Config.empty, none⟩

/-- Takes up a file. -/
def ofDocument (unknown : Unknown) (d : Document) : Noted Session := do
  pure ⟨← Config.ofNodes unknown d.nodes, some d⟩

/-- Reads a file and takes it up.  If it cannot be read, nothing changes. -/
def load (unknown : Unknown) (path : Text) (s : Session) : Script (Outcome Unit) := do
  match ← Document.load path with
  | .ok d =>
    let opened := Session.ofDocument unknown d
    pure ⟨opened.value, opened.remarks, .ok ()⟩
  | .error e => pure ⟨s, [], .error (.file e)⟩

/-- Brings the nodes of the file up to date. -/
def apply (placement : Placement) (s : Session) : Outcome Document :=
  match s.document with
  | none => ⟨s, [], .error .noDocument⟩
  | some d =>
    let nodes := s.config.apply placement d.nodes
    let after : Document := { d with nodes := nodes.value }
    ⟨{ s with document := some after }, nodes.remarks, .ok after⟩

/-- Brings the nodes of the file up to date and writes it, to the path that it was read from if
    none is given. -/
def save (placement : Placement) (path : Text) (s : Session) : Script (Outcome Unit) :=
  match s.apply placement with
  | ⟨after, remarks, .error e⟩ => pure ⟨after, remarks, .error e⟩
  | ⟨after, remarks, .ok d⟩ => do
    match ← d.save path with
    | none => pure ⟨after, remarks ++ [.saved (d.target path)], .ok ()⟩
    | some e => pure ⟨after, remarks, .error (.file e)⟩

end Session

end NameServerConf
