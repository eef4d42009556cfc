import NameServerConf.Options
import NameServerConf.Named
import NameServerConf.Text.Header

/-!
# Zones

A zone is a part of the name space that the server has a say in.  Its type tells what that is; for a
copy of another server's zone, the primaries are where it is copied from.
-/

namespace NameServerConf

/-- What the server does for a zone. -/
inductive ZoneType
  | primary
  | secondary
  | stub
  | mirror
  | redirect
  | forward
  | staticStub
  | hint
deriving DecidableEq, Inhabited, Repr

/-- The servers that a zone is copied from. -/
inductive Primaries
  | unset
  /-- A group of servers, by its name. -/
  | group (name : Text)
  | servers (servers : List RemoteServer)
deriving DecidableEq, Inhabited, Repr

/-- A part of the name space. -/
structure Zone where
  name : Text
  zclass : Text
  type : Option ZoneType
  file : Text
  primaries : Primaries
  /-- An empty list turns off forwarding. -/
  forwarders : Option (List Forwarder)
  forward : Text
  allowUpdate : Option (List MatchTerm)
  allowTransfer : Option (List MatchTerm)
  alsoNotify : Option (List RemoteServer)
  dnssecPolicy : Text
  other : List OtherOption
deriving DecidableEq, Inhabited, Repr

namespace ZoneType

/-- Every type. -/
def all : List ZoneType :=
  [.primary, .secondary, .stub, .mirror, .redirect, .forward, .staticStub, .hint]

/-- The word for a type. -/
def word : ZoneType → Text
  | .primary => "primary"
  | .secondary => "secondary"
  | .stub => "stub"
  | .mirror => "mirror"
  | .redirect => "redirect"
  | .forward => "forward"
  | .staticStub => "static-stub"
  | .hint => "hint"

/-- The type that a word stands for. -/
def ofWord? (w : Text) : Option ZoneType := all.find? (·.word = w)

end ZoneType

namespace Primaries

/-- The lines of the primaries. -/
def texts : Primaries → List Text
  | .unset => []
  | .group name => [Text.clause "primaries" name.quoteUnlessBare]
  | .servers rs => [Text.clause "primaries" (RemoteServer.textOfList rs)]

/-- A value that names a group: it is not empty and has no brace in it. -/
def groupName? (value : Text) : Option Text :=
  if value ≠ [] ∧ Byte.openBrace ∉ value then some value.firstWord.unquote else none

end Primaries

instance : Named Zone := ⟨Zone.name⟩

namespace Zone

/-- A zone about which nothing more is said. -/
def empty (name : Text) : Zone := ⟨name, [], none, [], .unset, none, [], none, none, none, [], []⟩

/-- What a zone block may hold. -/
def members : List (Member Zone) :=
  [.value? "type" (fun v => ZoneType.ofWord? v.firstWord) fun t z => { z with type := some t },
    .string "file" fun t z => { z with file := t },
    .braced "primaries" RemoteServer.readList fun rs z => { z with primaries := .servers rs },
    .value? "primaries" Primaries.groupName? fun t z => { z with primaries := .group t },
    .braced "forwarders" Forwarder.readList fun fs z => { z with forwarders := some fs },
    .all "forward" fun s z => pure { z with forward := s.value.firstWord },
    .noted "allow-update" MatchTerm.readList fun ts z => { z with allowUpdate := some ts },
    .noted "allow-transfer" MatchTerm.readList fun ts z => { z with allowTransfer := some ts },
    .braced "also-notify" RemoteServer.readList fun rs z => { z with alsoNotify := some rs },
    .string "dnssec-policy" fun t z => { z with dnssecPolicy := t }]

/-- A zone, from its statement. -/
def ofStatement (unknown : Unknown) (s : Statement) : Noted Zone :=
  let name := s.header.headerName
  readMembers members
    (unknown.handle ⟨"zone", name⟩ fun o z => { z with other := z.other ++ [o] })
    s.children { empty name with zclass := s.header.headerClass }

/-- The statement of a zone. -/
def node (z : Zone) : Node :=
  .block (Text.namedHeader "zone" z.name z.zclass)
    (Node.lines
      ((match z.type with
        | none => []
        | some t => [Text.clause "type" t.word]) ++
        Text.nameClause "file" z.file ++ z.primaries.texts ++ Text.forwardersClause z.forwarders ++
        Text.wordClause "forward" z.forward ++ Text.matchClause "allow-update" z.allowUpdate ++
        Text.matchClause "allow-transfer" z.allowTransfer ++
        (match z.alsoNotify with
        | none => []
        | some rs => [Text.clause "also-notify" (RemoteServer.textOfList rs)]) ++
        (if z.dnssecPolicy = [] then []
         else [Text.clause "dnssec-policy" z.dnssecPolicy.quoteUnlessBare])) ++
      Node.otherLines z.other)

end Zone

end NameServerConf
