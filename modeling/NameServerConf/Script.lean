import NameServerConf.Folder

/-!
# Scripts

A **script** is a program that reads and writes files and prints, given as data: at each point either
its result or the next thing to do, and how to go on after that.  It says what happens and in which
order, and leaves open where the files are.  `Script.run` runs it on a folder; the command line runs
it on the files of the machine.
-/

namespace NameServerConf

/-- Where a text is printed. -/
inductive Stream
  | output
  | errors
deriving DecidableEq, Repr

/-- A program with a result of type `α`. -/
inductive Script (α : Type) : Type
  /-- The result. -/
  | done (a : α)
  /-- Reads a file; there is no content if it cannot be opened. -/
  | read (path : Text) (next : Option Text → Script α)
  /-- Writes a file; there is an error if that fails. -/
  | write (path content : Text) (next : Option FileError → Script α)
  /-- Prints a text. -/
  | print (stream : Stream) (text : Text) (next : Script α)

/-- What has been printed. -/
structure Printed where
  output : Text
  errors : Text
deriving DecidableEq, Repr

namespace Printed

/-- Nothing. -/
def nothing : Printed := ⟨[], []⟩

/-- A text more on one of the streams. -/
def add (p : Printed) (stream : Stream) (text : Text) : Printed :=
  match stream with
  | .output => { p with output := p.output ++ text }
  | .errors => { p with errors := p.errors ++ text }

end Printed

namespace Script

variable {α β : Type}

/-- First one script, then another that depends on its result. -/
protected def bind (s : Script α) (f : α → Script β) : Script β :=
  match s with
  | .done a => f a
  | .read path next => .read path fun content => (next content).bind f
  | .write path content next => .write path content fun error => (next error).bind f
  | .print stream text next => .print stream text (next.bind f)

instance : Monad Script where
  pure := .done
  bind := Script.bind

/-- The content of a file, if it can be opened. -/
def readFile (path : Text) : Script (Option Text) := .read path .done

/-- Writes a file. -/
def writeFile (path content : Text) : Script (Option FileError) := .write path content .done

/-- Prints a text to the output. -/
def say (text : Text) : Script Unit := .print .output text (.done ())

/-- Prints a text to the errors. -/
def warn (text : Text) : Script Unit := .print .errors text (.done ())

/-- Runs a script on a folder: its result, the folder after it, and what was printed in all. -/
def run (s : Script α) (folder : Folder) (printed : Printed) : α × Folder × Printed :=
  match s with
  | .done a => (a, folder, printed)
  | .read path next => (next (folder.read? path)).run folder printed
  | .write path content next =>
    match folder.write path content with
    | .ok after => (next none).run after printed
    | .error e => (next (some e)).run folder printed
  | .print stream text next => next.run folder (printed.add stream text)

end Script

end NameServerConf
