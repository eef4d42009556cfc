import NameServerConf.Text.Basic

/-!
# Urgencies

How urgent a message is, as a number: the smaller the more urgent, from 0 (emergencies) to 7
(debugging).  Two further numbers stand for all messages and for none.
-/

namespace NameServerConf

/-- How urgent a message is; smaller is more urgent. -/
structure Urgency where
  level : Int
deriving DecidableEq, Repr

namespace Urgency

/-- A threshold that lets every message pass. -/
def all : Urgency := ⟨32767⟩
/-- A threshold that stops every message. -/
def none : Urgency := ⟨-1⟩
def alert : Urgency := ⟨1⟩
def critical : Urgency := ⟨2⟩
def error : Urgency := ⟨3⟩
def warning : Urgency := ⟨4⟩
def notice : Urgency := ⟨5⟩
def info : Urgency := ⟨6⟩
def debug : Urgency := ⟨7⟩

/-- The names of the urgencies that have one of their own. -/
def names : List (Urgency × Text) :=
  [(all, "All"), (alert, "Alert"), (critical, "Critical"), (error, "Error"), (warning, "Warning"),
    (notice, "Notice"), (info, "Info"), (debug, "Debug"), (none, "None")]

/-- The name of an urgency. -/
def name (u : Urgency) : Text := ((names.find? (·.1 = u)).map (·.2)).getD "Emergency"

/-- The urgency for a level that a user chose: the nearest from 0 to 7. -/
def ofLevel (level : Int) : Urgency := ⟨max 0 (min 7 level)⟩

/-- A message of urgency `u` passes the threshold. -/
def passes (u threshold : Urgency) : Bool := u.level ≤ threshold.level

end Urgency

end NameServerConf
