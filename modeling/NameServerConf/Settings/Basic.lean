import NameServerConf.Text.Number

/-!
# Settings

Settings are declared with a name, a kind and a help text, and have a text for a value.  They are kept
in the order of their names, which is the order of the help texts.

Reading a setting as a number makes its name known even if nobody declared it, with an empty value:
`Settings.touch`.  Such a setting has no help text.
-/

namespace NameServerConf

/-- What a setting is for. -/
inductive SettingKind
  /-- Takes any value. -/
  | parameter
  /-- Is on unless its value is `no` or `off`. -/
  | switch
  /-- Is a word of the command line. -/
  | command
deriving DecidableEq, Inhabited, Repr

/-- What is said about a setting when it is declared. -/
structure Declaration where
  kind : SettingKind
  help : Text
deriving DecidableEq, Inhabited, Repr

/-- A setting: its value, and its declaration if there is one. -/
structure Setting where
  value : Text
  declared : Option Declaration
deriving DecidableEq, Inhabited, Repr

/-- Settings by name, and the command words that were given with them. -/
structure Settings where
  entries : List (Text × Setting)
  commands : List Text
deriving DecidableEq, Inhabited, Repr

/-- Why a setting cannot be read or given a value. -/
inductive SettingError
  /-- Nobody declared the setting. -/
  | undefined (name : Text)
  /-- The value is none of those that are allowed. -/
  | notAChoice (name value : Text) (choices : List Text)
  /-- The value is a number that is too large or too small. -/
  | outOfRange (name value : Text)
  /-- The value is no number. -/
  | notANumber (name value : Text)
  /-- A value is given to a setting that nobody declared. -/
  | unknownParameter (name : Text)
deriving DecidableEq, Repr

/-- What is told to the user. -/
def SettingError.message : SettingError → Text
  | .undefined name => "Undefined but needed argument: '" ++ name ++ "'"
  | .notAChoice name value choices =>
    "Unknown " ++ name ++ " '" ++ value ++ "', expected one of: " ++ Text.join ", " choices
  | .outOfRange name value => "'" ++ name ++ "' value out of range: '" ++ value ++ "'"
  | .notANumber name value => "'" ++ name ++ "' value '" ++ value ++ "' is not a valid number"
  | .unknownParameter name => "Trying to set unknown parameter '" ++ name ++ "'"

namespace Settings

/-- No settings. -/
def empty : Settings := ⟨[], []⟩

/-! ## Looking up and changing -/

/-- The entry of a name. -/
def lookup (name : Text) : List (Text × Setting) → Option Setting
  | [] => none
  | (key, x) :: rest => if key = name then some x else lookup name rest

/-- Puts an entry in its place in the order of names, or replaces the one of its name. -/
def insert (name : Text) (x : Setting) : List (Text × Setting) → List (Text × Setting)
  | [] => [(name, x)]
  | (key, y) :: rest =>
    if key = name then (name, x) :: rest
    else if Text.before name key then (name, x) :: (key, y) :: rest
    else (key, y) :: insert name x rest

/-- An entry that was put in is found, and the other entries are found as before. -/
theorem lookup_insert (name n : Text) (x : Setting) (entries : List (Text × Setting)) :
    lookup n (insert name x entries) = if n = name then some x else lookup n entries := by
  induction entries with
  | nil => simp only [insert, lookup, eq_comm]
  | cons entry rest ih =>
    obtain ⟨key, y⟩ := entry
    rw [insert]
    split
    next h =>
      subst h
      rw [lookup, lookup]
      split
      next hn => rw [if_pos hn.symm]
      next hn => rw [if_neg (Ne.symm hn)]
    next h =>
      split
      · rw [lookup]
        simp only [eq_comm]
      · rw [lookup, lookup, ih]
        split
        next hn =>
          subst hn
          rw [if_neg h]
        next => rfl

/-- The setting of a name. -/
def get? (s : Settings) (name : Text) : Option Setting := lookup name s.entries

/-- Gives a name a setting. -/
def put (s : Settings) (name : Text) (x : Setting) : Settings :=
  { s with entries := insert name x s.entries }

/-- The name that was given a setting has it, and the other names have theirs. -/
theorem get?_put (s : Settings) (name n : Text) (x : Setting) :
    (s.put name x).get? n = if n = name then some x else s.get? n :=
  lookup_insert name n x s.entries

/-- Declares a setting and gives it a value. -/
def declare (s : Settings) (name help : Text) (kind : SettingKind) (value : Text) : Settings :=
  s.put name ⟨value, some ⟨kind, help⟩⟩

/-- Declares a command word. -/
def declareCommand (s : Settings) (name help : Text) : Settings := s.declare name help .command "no"

/-- Makes a name known; if it was not, its value is empty. -/
def touch (s : Settings) (name : Text) : Settings :=
  match s.get? name with
  | some _ => s
  | none => s.put name ⟨[], none⟩

/-! ## Reading -/

/-- There is a setting of that name. -/
def isSet (s : Settings) (name : Text) : Bool := (s.get? name).isSome

/-- There is no setting of that name, or its value is empty. -/
def isEmpty (s : Settings) (name : Text) : Bool := (s.get? name).all (·.value = [])

/-- The value of a setting. -/
def value (s : Settings) (name : Text) : Except SettingError Text :=
  match s.get? name with
  | some x => .ok x.value
  | none => .error (.undefined name)

/-- A setting is on. -/
def isOn (s : Settings) (name : Text) : Except SettingError Bool := do
  let v ← s.value name
  pure (v ≠ "no" && v ≠ "off")

/-- The value of a setting, which must be one of those given. -/
def choice (s : Settings) (name : Text) (choices : List Text) : Except SettingError Text := do
  let v ← s.value name
  if choices.contains v then pure v else throw (.notAChoice name v choices)

/-- The number that a value begins with, up to its first null byte. -/
def numberOf (name value : Text) : Except SettingError Int :=
  match Text.leadingInt? value.untilNul with
  | some n => if Text.inInt32 n then .ok n else .error (.outOfRange name value)
  | none => .error (.notANumber name value.untilNul)

/-- The value of a setting as a number, or `default` if it is empty; and the settings after that,
    for a name that was not known is known then. -/
def number (s : Settings) (name : Text) (default : Int) : Settings × Except SettingError Int :=
  (s.touch name,
    match (s.get? name).map (·.value) with
    | none => .ok default
    | some v => if v = [] then .ok default else numberOf name v)

/-! ## Help -/

/-- The help text of a setting. -/
def help (s : Settings) (name : Text) : Text :=
  (((s.get? name).bind (·.declared)).map (·.help)).getD []

/-- How a setting is written on the command line. -/
def usage (name : Text) : SettingKind → Text
  | .parameter => "  --" ++ name ++ "=..."
  | .switch => "  --" ++ name ++ " | --" ++ name ++ "=yes | --" ++ name ++ "=no"
  | .command => "  --" ++ name

/-- A line of help, indented, below the line that it is about. -/
def withHelp (line help : Text) : Text := line ++ "\n\t" ++ help ++ "\n"

/-- The help texts of the settings whose names begin with `start`; the word `no` stands for all. -/
def helpText (s : Settings) (start : Text) : Text :=
  let wanted : Text := if start = "no" then [] else start
  s.entries.flatMap fun (name, x) =>
    match x.declared with
    | some d => if wanted.isPrefixOf name then withHelp (usage name d.kind) d.help else []
    | none => []

/-- The settings as lines of a settings file, with their help texts.  Command words have no place
    there. -/
def fileText (s : Settings) : Text :=
  s.entries.flatMap fun (name, x) =>
    match x.declared with
    | some d =>
      if d.kind = .command then [] else withHelp ("  " ++ name ++ "=" ++ x.value) d.help
    | none => []

end Settings

end NameServerConf
