import NameServerConf.Settings.Basic

/-!
# Giving settings their values

An **argument** gives a setting a value, adds to the value it has, or is a command word.  Arguments
come from a command line (`acceptArguments`) or from a settings file (`acceptFile`), where each line is one
argument without the hyphens.

In a file, a backslash at the end of a line joins the next line to it, and a number sign at the
beginning of a line or after a blank starts a comment, if it is the first number sign of the line.  A
line that is still to be joined when the file ends is not read.
-/

namespace NameServerConf

/-- What an argument asks for. -/
inductive Argument
  /-- A value for a setting; with `more`, to be added to the value it has. -/
  | assign (name value : Text) (more : Bool)
  /-- A command word. -/
  | command (word : Text)
deriving DecidableEq, Repr

namespace Argument

/-- Splits a text at its first `+=`. -/
def splitMore? : Text → Option (Text × Text)
  | [] => none
  | [_] => none
  | a :: b :: r =>
    if a = Byte.plus && b = Byte.equals then some ([], r)
    else (splitMore? (b :: r)).map fun (name, value) => (a :: name, value)

/-- Splits a text at its first `=`. -/
def splitEquals? : Text → Option (Text × Text)
  | [] => none
  | a :: r =>
    if a = Byte.equals then some ([], r)
    else (splitEquals? r).map fun (name, value) => (a :: name, value)

/-- A name, perhaps with a value, as it stands after two hyphens. -/
def ofLong (s : Text) : Argument :=
  match splitMore? s with
  | some (name, value) => .assign name value true
  | none =>
    match splitEquals? s with
    | some (name, value) => .assign name value false
    | none => .assign s [] false

/-- What an argument asks for.  After one hyphen there is no value, and a single hyphen is a word. -/
def ofText (s : Text) : Argument :=
  match s with
  | a :: b :: r =>
    if a = Byte.hyphen then
      if b = Byte.hyphen then ofLong r else .assign (b :: r) [] false
    else .command s
  | _ => .command s

end Argument

namespace Settings

/-- The value after something was added to it. -/
def extended (old more : Text) : Text := if old = [] then more else old ++ ", " ++ more

/-- Does what an argument asks for.  Blanks around name and value do not count, and an empty name
    asks for nothing.  If `lax`, unknown names are passed over. -/
def accept (lax : Bool) (s : Settings) (a : Argument) : Except SettingError Settings :=
  match a with
  | .command word => .ok { s with commands := s.commands ++ [word] }
  | .assign name value more =>
    if name.trim = [] then .ok s
    else
      match s.get? name.trim with
      | some x =>
        .ok (s.put name.trim
          { x with value := if more then extended x.value value.trim else value.trim })
      | none => if lax then .ok s else .error (.unknownParameter name.trim)

/-- Does what some arguments ask for, up to the first that is refused. -/
def acceptAll (lax : Bool) : List Text → Settings → Settings × Option SettingError
  | [], s => (s, none)
  | a :: as, s =>
    match s.accept lax (.ofText a) with
    | .ok next => acceptAll lax as next
    | .error e => (s, some e)

/-- Reads the arguments of a command line, each up to its first null byte.  Earlier command words
    are forgotten. -/
def acceptArguments (lax : Bool) (args : List Text) (s : Settings) : Settings × Option SettingError :=
  acceptAll lax (args.map Text.untilNul) { s with commands := [] }

/-! ## Settings files -/

/-- The lines of a text.  A line feed ends a line, so there is none after the last. -/
def splitLines (s : Text) : List Text :=
  match (Text.fields (· = Byte.newline) s).reverse with
  | [] :: rest => rest.reverse
  | all => all.reverse

/-- Joins lines: what comes before the line `pending` is to be put before.  Blanks at the end of a
    line are dropped first. -/
def joinLines (pending : Text) : List Text → List Text
  | [] => []
  | l :: ls =>
    if l.trimRight.getLast? = some Byte.backslash then
      joinLines (pending ++ l.trimRight.dropLast) ls
    else (pending ++ l.trimRight) :: joinLines [] ls

/-- A line without its comment. -/
def dropComment (line : Text) : Text :=
  match line.dropWhile (· ≠ Byte.hash) with
  | [] => line
  | _ =>
    match (line.takeWhile (· ≠ Byte.hash)).getLast? with
    | none => []
    | some b => if Byte.isBlank b then line.takeWhile (· ≠ Byte.hash) else line

/-- The arguments in a settings file. -/
def argumentsOf (content : Text) : List Text :=
  (joinLines [] (splitLines content)).map fun line =>
    [Byte.hyphen, Byte.hyphen] ++ Text.trim (dropComment line)

/-- Reads a settings file. -/
def acceptFile (lax : Bool) (content : Text) (s : Settings) : Settings × Option SettingError :=
  acceptAll lax (argumentsOf content) s

end Settings

end NameServerConf
