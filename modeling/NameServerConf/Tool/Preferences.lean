import NameServerConf.Block
import NameServerConf.Config.Apply
import NameServerConf.Settings.Argument

/-!
# What the user prefers

The tool reads its settings from a file in the configuration directory.  `Preferences` is what they
come to: which configuration to edit, and how.
-/

namespace NameServerConf.Tool

/-- What the settings come to. -/
structure Preferences where
  /-- The configuration to edit. -/
  path : Text
  unknown : Unknown
  placement : Placement
  /-- Remarks that pass this are shown. -/
  threshold : Urgency
  verbose : Bool
deriving DecidableEq, Repr

/-- The settings of the tool, with the values they have if nothing is said. -/
def settings (configDir : Text) : Settings :=
  Settings.empty
  |>.declare "config-dir" "Location of configuration directory (nzutil.conf)" .parameter configDir
  |>.declare "named-conf" "Location of the named.conf to edit" .parameter "/etc/bind/named.conf"
  |>.declare "sync-mode"
    "Where rewritten statements go: 'append' moves them to the end, 'in-place' keeps their position"
    .parameter "append"
  |>.declare "keep-unknown" "Keep statements that are not understood inside modeled blocks" .switch
    "yes"
  |>.declare "loglevel" "Amount of logging. Higher is more." .parameter "4"

/-- The file that the settings are read from. -/
def settingsPath (configDir : Text) : Text := configDir ++ "/nzutil.conf"

/-- The settings after the settings file, if there is one. -/
def readSettings (configDir : Text) (content : Option Text) : Except SettingError Settings :=
  match content with
  | none => .ok (settings configDir)
  | some c =>
    match (settings configDir).acceptFile false c with
    | (s, none) => .ok s
    | (_, some e) => .error e

namespace Preferences

/-- What some settings come to. -/
def ofSettings (verbose : Bool) (s : Settings) : Except SettingError Preferences := do
  let level ← (s.number "loglevel" 0).2
  let mode ← s.choice "sync-mode" ["append", "in-place"]
  let keep ← s.isOn "keep-unknown"
  let path ← s.value "named-conf"
  pure
    { path := path
      unknown := if keep then .keep else .report
      placement := if mode = "in-place" then .inPlace else .append
      threshold := if verbose then .debug else .ofLevel level
      verbose := verbose }

end Preferences

end NameServerConf.Tool
