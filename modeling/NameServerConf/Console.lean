import NameServerConf.Urgency

/-!
# The console

Messages are shown one to a line, if they are urgent enough.  A line can also be put together piece
by piece; it has an urgency of its own until it is committed.
-/

namespace NameServerConf

/-- How messages are shown, and the line under construction. -/
structure Console where
  /-- Messages that pass this are shown. -/
  threshold : Urgency
  /-- Message and urgency are shown as two quoted values. -/
  labelled : Bool
  /-- Lines begin with the time. -/
  stamped : Bool
  /-- The line so far. -/
  line : Text
  /-- The urgency of the line. -/
  urgency : Urgency
deriving DecidableEq, Repr

namespace Console

/-- A console that shows errors and worse, with the time before each. -/
def initial : Console := ⟨.error, false, true, [], .info⟩

/-- The text in quotation marks, with a backslash before each quotation mark and backslash in it. -/
def escaped (s : Text) : Text :=
  Byte.quote ::
    s.flatMap (fun b => if b = Byte.quote || b = Byte.backslash then [Byte.backslash, b] else [b]) ++
      [Byte.quote]

/-- How a message looks, after the stamp of its time. -/
def lineOf (c : Console) (stamp message : Text) (u : Urgency) : Text :=
  (if c.stamped then stamp else []) ++
    (if c.labelled then "msg=" ++ escaped message ++ " prio=" ++ escaped u.name else message) ++
    [Byte.newline]

/-- What a message adds to the console at the time with the given stamp. -/
def shown (c : Console) (stamp message : Text) (u : Urgency) : Text :=
  if u.passes c.threshold then c.lineOf stamp message u else []

/-- Adds to the line. -/
def add (c : Console) (piece : Text) : Console := { c with line := c.line ++ piece }

/-- What committing the line adds to the console. -/
def committed (c : Console) (stamp : Text) : Text := c.shown stamp c.line c.urgency

/-- Starts the next line. -/
def next (c : Console) : Console := { c with line := [], urgency := .info }

end Console

end NameServerConf
