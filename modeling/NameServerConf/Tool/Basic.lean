import NameServerConf.Session
import NameServerConf.Tool.Command
import NameServerConf.Tool.Preferences

/-!
# The tool

A run of the tool does one command on one configuration file.  Arguments are looked at before the
file is, and whatever is to be changed is changed before the file is written, so a run that ends in
failure has written nothing.
-/

namespace NameServerConf.Tool

/-- What the tool is asked for. -/
structure Request where
  /-- The command and its arguments. -/
  words : List Text
  verbose : Bool
  help : Bool
  /-- Where the settings file is. -/
  configDir : Text
deriving DecidableEq, Inhabited, Repr

/-- How a run ends. -/
inductive Exit
  | success
  | failure
deriving DecidableEq, Inhabited, Repr

/-- The number that stands for the end of a run. -/
def Exit.code : Exit → Nat
  | .success => 0
  | .failure => 1

/-- A request, from arguments that end before their first null bytes. -/
def Request.ofArguments (words : List Text) (verbose help : Bool) (configDir : Text) : Request :=
  ⟨words.map Text.untilNul, verbose, help, configDir.untilNul⟩

/-! ## Ends of a run -/

/-- Ends a run with an error. -/
def fail (message : Text) : Script Exit := do
  Script.warn ("Error: " ++ message ++ "\n")
  pure .failure

/-- Ends a run with a complaint. -/
def refuse (complaint : Text) : Script Exit := do
  Script.warn (complaint ++ "\n")
  pure .failure

/-- Ends a run because the arguments are not what the command takes. -/
def usage (c : Command) : Script Exit :=
  refuse ("Usage:\nnzutil " ++ c.word ++ " " ++ c.synopsis)

/-- Ends a run because there is no such thing. -/
def notFound (kind name : Text) : Script Exit := refuse (kind ++ " '" ++ name ++ "' not found")

/-! ## The configuration file -/

/-- Shows the remarks that the user wants to see. -/
def remarked (p : Preferences) (remarks : List Remark) : Script Unit :=
  Script.warn (Remark.log p.threshold remarks)

/-- Reads the configuration file and goes on with it. -/
def withSession (p : Preferences) (next : Session → List Remark → Script Exit) : Script Exit := do
  let outcome ← Session.load p.unknown p.path Session.empty
  remarked p outcome.remarks
  match outcome.result with
  | .ok () => next outcome.session outcome.remarks
  | .error e => fail e.message

/-- Writes the configuration file. -/
def save (p : Preferences) (s : Session) : Script Exit := do
  let outcome ← s.save p.placement []
  remarked p outcome.remarks
  match outcome.result with
  | .ok () => pure .success
  | .error e => fail e.message

/-- Reads the configuration file, changes the configuration and writes the file. -/
def edit (p : Preferences) (change : Config → Config) : Script Exit :=
  withSession p fun s _ => save p { s with config := change s.config }

/-! ## Commands -/

/-- Adds a trust anchor to a view. -/
def addTrustAnchor (p : Preferences) (view name : Text) (record : List Text) : Script Exit :=
  withSession p fun s _ => do
    let raw := Text.phrase (name.quote :: record)
    let anchor := TrustAnchor.read? raw
    remarked p anchor.remarks
    match anchor.value with
    | none => refuse ("Not a DS or DNSKEY trust anchor: " ++ raw)
    | some a =>
      let items := ((s.config.view? view).bind (·.trustAnchors)).elim [] (·.items)
      save p { s with config := s.config.setTrustAnchorsInView view ⟨items ++ [a]⟩ }

/-- Adds a view for some clients, or changes whom a view is for. -/
def addView (p : Preferences) (name : Text) (clients : List Text) : Script Exit :=
  withSession p fun s _ => do
    let terms := clients.mapM MatchTerm.read
    remarked p terms.remarks
    let view := (s.config.view? name).getD (View.empty name)
    let changed : View :=
      { view with name := name, matchClients := if clients = [] then none else some terms.value }
    save p { s with config := s.config.upsertView changed }

/-- Adds a zone, at top level or in a view. -/
def addZone (p : Preferences) (name type file : Text) (view : Option Text) : Script Exit :=
  match ZoneType.ofWord? type.lower with
  | none => refuse ("Unknown zone type '" ++ type ++ "'")
  | some t =>
    let zone : Zone := { Zone.empty name with type := some t, file := file }
    edit p fun c =>
      match view with
      | none => c.upsertZone zone
      | some v => c.upsertZoneInView v zone

/-- Reports what was left out. -/
def checkConf (p : Preferences) : Script Exit :=
  withSession p fun s remarks => do
    let left := Remark.leftOut remarks
    Script.say (left.flatMap fun what => "[Warning] " ++ what ++ "\n")
    Script.say ("Checked " ++ Text.ofNat s.config.views.length ++ " view(s) and " ++
      Text.ofNat s.config.zoneCount ++ " zone(s), " ++ Text.ofNat left.length ++
      " fragment(s) not understood\n")
    pure (if left = [] then .success else .failure)

/-- Lists the views. -/
def listViews (p : Preferences) : Script Exit :=
  withSession p fun s _ => do
    Script.say (s.config.views.flatMap fun v =>
      v.name ++ (if p.verbose then "\t" ++ Text.ofNat v.zones.length ++ " zone(s)" else []) ++ "\n")
    pure .success

/-- A zone in a list of zones. -/
def zoneLine (p : Preferences) (z : Zone) : Text :=
  z.name ++
    (match z.type with
      | some t => if p.verbose then "\t" ++ t.word else []
      | none => []) ++ "\n"

/-- Lists the zones at top level, or those of a view. -/
def listZones (p : Preferences) (view : Option Text) : Script Exit :=
  withSession p fun s _ =>
    match view with
    | none => do
      Script.say (s.config.zones.flatMap (zoneLine p))
      pure .success
    | some name =>
      match s.config.view? name with
      | none => notFound "View" name
      | some v => do
        Script.say (v.zones.flatMap (zoneLine p))
        pure .success

/-- Removes a view. -/
def removeView (p : Preferences) (name : Text) : Script Exit :=
  withSession p fun s _ =>
    if s.config.hasView name then save p { s with config := s.config.removeView name }
    else notFound "View" name

/-- Removes a zone, at top level or from a view. -/
def removeZone (p : Preferences) (name : Text) (view : Option Text) : Script Exit :=
  withSession p fun s _ =>
    match view with
    | none =>
      if s.config.hasZone name then save p { s with config := s.config.removeZone name }
      else notFound "Zone" name
    | some v =>
      if s.config.hasZoneInView v name then
        save p { s with config := s.config.removeZoneInView v name }
      else notFound "Zone" name

/-- Shows a zone. -/
def showZone (p : Preferences) (name : Text) : Script Exit :=
  withSession p fun s _ =>
    match s.config.zone? name with
    | none => notFound "Zone" name
    | some z => do
      Script.say (z.node.render 0 ++ "\n")
      pure .success

/-- Does a command. -/
def runCommand (p : Preferences) (c : Command) (args : List Text) : Script Exit :=
  match c, args with
  | .addTrustAnchor, view :: name :: type :: data :: more =>
    addTrustAnchor p view name (type :: data :: more)
  | .addView, name :: clients => addView p name clients
  | .addZone, [name, type, file] => addZone p name type file none
  | .addZone, [name, type, file, view] => addZone p name type file (some view)
  | .checkConf, _ => checkConf p
  | .listViews, [] => listViews p
  | .listZones, [] => listZones p none
  | .listZones, [view] => listZones p (some view)
  | .normalize, [] => edit p id
  | .removeView, [name] => removeView p name
  | .removeZone, [name] => removeZone p name none
  | .removeZone, [name, view] => removeZone p name (some view)
  | .setRecursion, [word] =>
    match word.readYesNo? with
    | some b => edit p fun c => c.setRecursion b
    | none => usage .setRecursion
  | .showZone, [name] => showZone p name
  | c, _ => usage c

/-! ## A run -/

/-- The help text without the table of options.  That table stands before the settings, and is printed
    by what reads the options of the command line. -/
def helpText (configDir : Text) : Text :=
  "Usage:\nnzutil [options] <command> [params...]\n\nCommands:\n\n" ++
    Command.all.flatMap Command.help ++ "\n\n" ++
    "Settings, read from " ++ settingsPath configDir ++ " as name=value lines:\n\n" ++
    (settings configDir).fileText

/-- Shows the help text. -/
def help (r : Request) : Script Exit := do
  Script.say (helpText r.configDir)
  pure .success

/-- Does what is asked for. -/
def run (r : Request) : Script Exit :=
  match r.words with
  | [] => help r
  | word :: args =>
    if r.help || word.lower = "help" then help r
    else do
      let content ← Script.readFile (settingsPath r.configDir)
      match (readSettings r.configDir content).bind (Preferences.ofSettings r.verbose) with
      | .error e => fail e.message
      | .ok p =>
        match Command.ofWord? word.lower with
        | none => refuse ("Unknown command '" ++ word ++ "'")
        | some c => runCommand p c args

end NameServerConf.Tool
