import NameServerConf.Settings.Basic

/-!
# The commands of the tool

Each command has a word, a synopsis of its arguments and a short description.  They are listed in the
order of their words.
-/

namespace NameServerConf.Tool

/-- What the tool can be asked to do. -/
inductive Command
  | addTrustAnchor
  | addView
  | addZone
  | checkConf
  | listViews
  | listZones
  | normalize
  | removeView
  | removeZone
  | setRecursion
  | showZone
deriving DecidableEq, Inhabited, Repr

namespace Command

/-- Every command, in the order of their words. -/
def all : List Command :=
  [.addTrustAnchor, .addView, .addZone, .checkConf, .listViews, .listZones, .normalize, .removeView,
    .removeZone, .setRecursion, .showZone]

/-- The word for a command. -/
def word : Command → Text
  | .addTrustAnchor => "add-trust-anchor"
  | .addView => "add-view"
  | .addZone => "add-zone"
  | .checkConf => "check-conf"
  | .listViews => "list-views"
  | .listZones => "list-zones"
  | .normalize => "normalize"
  | .removeView => "remove-view"
  | .removeZone => "remove-zone"
  | .setRecursion => "set-recursion"
  | .showZone => "show-zone"

/-- The arguments of a command. -/
def synopsis : Command → Text
  | .addTrustAnchor => "VIEW NAME TYPE DATA..."
  | .addView => "VIEW [CLIENT...]"
  | .addZone => "ZONE TYPE FILE [VIEW]"
  | .checkConf => ""
  | .listViews => ""
  | .listZones => "[VIEW]"
  | .normalize => ""
  | .removeView => "VIEW"
  | .removeZone => "ZONE [VIEW]"
  | .setRecursion => "yes|no"
  | .showZone => "ZONE"

/-- What a command does, in lines that begin with a tab. -/
def description : Command → Text
  | .addTrustAnchor =>
    "\tAdd a trust anchor for NAME to the trust-anchors of VIEW,\n\tTYPE is one of initial-ds, static-ds, initial-key, static-key"
  | .addView => "\tAdd or replace VIEW, matching the given clients"
  | .addZone => "\tAdd or replace ZONE, at top level or inside VIEW"
  | .checkConf => "\tDecode the configuration and report everything that was not understood"
  | .listViews => "\tList all views"
  | .listZones => "\tList all zones, or the zones of VIEW"
  | .normalize => "\tRewrite every modeled statement in canonical form"
  | .removeView => "\tRemove VIEW and all of its zones"
  | .removeZone => "\tRemove ZONE, at top level or inside VIEW"
  | .setRecursion => "\tSet the global recursion option"
  | .showZone => "\tShow ZONE as it will be written"

/-- The command with the given word. -/
def ofWord? (w : Text) : Option Command := all.find? (·.word = w)

/-- A command and its description. -/
def help (c : Command) : Text :=
  c.word ++ (if c.synopsis = [] then [] else Byte.space :: c.synopsis) ++ [Byte.newline] ++
    c.description ++ [Byte.newline]

end Command

end NameServerConf.Tool
