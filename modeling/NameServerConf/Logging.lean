import NameServerConf.Block
import NameServerConf.Text.Header

/-!
# The logging block

A channel says where messages go and which; a category says which channels messages of a kind are
given to.  A channel has one destination: a later one replaces an earlier one, with a remark.
-/

namespace NameServerConf

/-- A log file, and how it is rotated. -/
structure LogFile where
  path : Text
  /-- How many old files are kept, a number or `unlimited`. -/
  versions : Text
  size : Text
  suffix : Text
  severity : Text
deriving DecidableEq, Inhabited, Repr

/-- Where the messages of a channel go. -/
inductive LogDestination
  | unset
  | file (file : LogFile)
  | syslog (facility : Text)
  | stderr
  | null
deriving DecidableEq, Inhabited, Repr

/-- Where messages go, and which. -/
structure LogChannel where
  name : Text
  destination : LogDestination
  severity : Text
  printTime : Option Bool
  printCategory : Option Bool
  printSeverity : Option Bool
  buffered : Option Bool
  other : List OtherOption
deriving DecidableEq, Inhabited, Repr

/-- The channels that messages of a kind are given to, in order. -/
structure LogCategory where
  name : Text
  channels : List Text
deriving DecidableEq, Inhabited, Repr

/-- All channels and categories. -/
structure Logging where
  channels : List LogChannel
  categories : List LogCategory
  other : List OtherOption
deriving DecidableEq, Inhabited, Repr

namespace LogFile

/-- What may follow the path. -/
def clauses : List (Clause LogFile) :=
  [⟨"versions", fun arg f => pure { f with versions := arg }⟩,
    ⟨"size", fun arg f => pure { f with size := arg }⟩,
    ⟨"suffix", fun arg f => pure { f with suffix := arg }⟩,
    ⟨"severity", fun arg f => pure { f with severity := arg }⟩]

/-- A log file, from the value of its statement in the given channel. -/
def read (place : Place) (s : Text) : Noted LogFile :=
  match s.tokens with
  | [] => pure ⟨[], [], [], [], []⟩
  | path :: rest =>
    readClauses clauses (fun word => Noted.remark (.statement place (Text.clause "file" word))) rest
      ⟨path.unquote, [], [], [], []⟩

/-- A log file, as it is written. -/
def text (f : LogFile) : Text :=
  Text.phrase ([Text.clause "file" f.path.quote] ++ Text.wordClause "versions" f.versions ++
    Text.wordClause "size" f.size ++ Text.wordClause "suffix" f.suffix ++
    Text.wordClause "severity" f.severity)

end LogFile

namespace LogDestination

/-- The lines of a destination. -/
def texts : LogDestination → List Text
  | .unset => []
  | .file f => [f.text]
  | .syslog facility => [if facility = [] then "syslog" else Text.clause "syslog" facility]
  | .stderr => ["stderr"]
  | .null => ["null"]

end LogDestination

namespace LogChannel

/-- The place of a channel's statements. -/
def place (name : Text) : Place := ⟨"channel", name⟩

/-- A destination; that there is one already is worth a remark. -/
def destinationMember (keyword : Text) (read : Place → Text → Noted LogDestination) :
    Member LogChannel :=
  .all keyword fun s c => do
    if c.destination ≠ .unset then
      Noted.remark (.secondDestination c.name keyword)
    pure { c with destination := ← read (place c.name) s.value }

/-- What a channel block may hold. -/
def members : List (Member LogChannel) :=
  [destinationMember "file" fun p v => do pure (.file (← LogFile.read p v)),
    destinationMember "syslog" fun _ v => pure (.syslog v.firstWord),
    destinationMember "stderr" fun _ _ => pure .stderr,
    destinationMember "null" fun _ _ => pure .null,
    .all "severity" fun s c => pure { c with severity := s.value },
    .yesNo "print-time" fun b c => { c with printTime := some b },
    .yesNo "print-category" fun b c => { c with printCategory := some b },
    .yesNo "print-severity" fun b c => { c with printSeverity := some b },
    .yesNo "buffered" fun b c => { c with buffered := some b }]

/-- A channel, from its statement. -/
def ofStatement (unknown : Unknown) (s : Statement) : Noted LogChannel :=
  let name := s.header.headerName
  readMembers members
    (unknown.handle (place name) fun o c => { c with other := c.other ++ [o] })
    s.children ⟨name, .unset, [], none, none, none, none, []⟩

/-- The statement of a channel. -/
def node (c : LogChannel) : Node :=
  .block (Text.namedHeader "channel" c.name [])
    (Node.lines
      (c.destination.texts ++ Text.wordClause "severity" c.severity ++
        Text.yesNoClause "print-time" c.printTime ++
        Text.yesNoClause "print-category" c.printCategory ++
        Text.yesNoClause "print-severity" c.printSeverity ++
        Text.yesNoClause "buffered" c.buffered) ++
      Node.otherLines c.other)

end LogChannel

namespace LogCategory

/-- A category, from its statement. -/
def ofStatement (s : Statement) : LogCategory := ⟨s.header.headerName, s.bodyText.readStrings⟩

/-- The statement of a category. -/
def node (c : LogCategory) : Node :=
  .line (Text.phrase [Text.clause "category" c.name.quoteUnlessBare, Text.ofStrings c.channels])

end LogCategory

namespace Logging

/-- What a logging block may hold. -/
def members (unknown : Unknown) : List (Member Logging) :=
  [.all "channel" fun s l => do
      pure { l with channels := l.channels ++ [← LogChannel.ofStatement unknown s] },
    .all "category" fun s l =>
      pure { l with categories := l.categories ++ [LogCategory.ofStatement s] }]

/-- Channels and categories, from their statement. -/
def ofStatement (unknown : Unknown) (s : Statement) : Noted Logging :=
  readMembers (members unknown)
    (unknown.handle (.only "logging") fun o l => { l with other := l.other ++ [o] })
    s.children ⟨[], [], []⟩

/-- The statement of channels and categories. -/
def node (l : Logging) : Node :=
  .block "logging"
    (l.channels.map LogChannel.node ++ l.categories.map LogCategory.node ++ Node.otherLines l.other)

end Logging

end NameServerConf
