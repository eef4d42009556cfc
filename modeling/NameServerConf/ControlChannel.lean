import NameServerConf.MatchTerm

/-!
# Control channels

Through a control channel a running server takes commands, over the network or over a socket in the
file system.  Clauses say who may use it.
-/

namespace NameServerConf

/-- A control channel over the network. -/
structure InetChannel where
  address : Text
  port : Option Int
  allow : List MatchTerm
  keys : List Text
  readOnly : Option Bool
deriving DecidableEq, Inhabited, Repr

/-- A control channel over a socket in the file system, with the socket's access rights. -/
structure UnixChannel where
  path : Text
  perm : Int
  owner : Int
  group : Int
  keys : List Text
  readOnly : Option Bool
deriving DecidableEq, Inhabited, Repr

/-- The tokens after the word that a channel begins with. -/
def channelTokens (kind s : Text) : List Text :=
  match s.tokens with
  | [] => []
  | word :: rest => if word = kind then rest else word :: rest

namespace InetChannel

/-- What may follow the address. -/
def clauses : List (Clause InetChannel) :=
  [⟨"port", fun arg c => pure { c with port := arg.readInt? }⟩,
    ⟨"allow", fun arg c => do pure { c with allow := ← MatchTerm.readList arg }⟩,
    ⟨"keys", fun arg c => pure { c with keys := arg.readStrings }⟩,
    ⟨"read-only", fun arg c => pure { c with readOnly := arg.readYesNo? }⟩]

/-- A channel over the network, from its text. -/
def read (s : Text) : Noted InetChannel :=
  match channelTokens "inet" s with
  | [] => pure ⟨[], none, [], [], none⟩
  | address :: rest =>
    readClauses clauses (fun word => Noted.remark (.token .inetControl word s)) rest
      ⟨address, none, [], [], none⟩

/-- A channel over the network, as it is written. -/
def text (c : InetChannel) : Text :=
  Text.phrase ([Text.clause "inet" c.address] ++ Text.numberClause "port" c.port ++
    [Text.clause "allow" (MatchTerm.textOfList c.allow)] ++
    (if c.keys = [] then [] else [Text.clause "keys" (Text.ofStrings c.keys)]) ++
    Text.yesNoClause "read-only" c.readOnly)

end InetChannel

namespace UnixChannel

/-- What may follow the path. -/
def clauses : List (Clause UnixChannel) :=
  [⟨"perm", fun arg c => pure { c with perm := arg.readInt?.getD 0 }⟩,
    ⟨"owner", fun arg c => pure { c with owner := arg.readInt?.getD 0 }⟩,
    ⟨"group", fun arg c => pure { c with group := arg.readInt?.getD 0 }⟩,
    ⟨"keys", fun arg c => pure { c with keys := arg.readStrings }⟩,
    ⟨"read-only", fun arg c => pure { c with readOnly := arg.readYesNo? }⟩]

/-- A channel over a socket, from its text. -/
def read (s : Text) : Noted UnixChannel :=
  match channelTokens "unix" s with
  | [] => pure ⟨[], 0, 0, 0, [], none⟩
  | path :: rest =>
    readClauses clauses (fun word => Noted.remark (.token .unixControl word s)) rest
      ⟨path.unquote, 0, 0, 0, [], none⟩

/-- A channel over a socket, as it is written.  Access rights have at least four digits. -/
def text (c : UnixChannel) : Text :=
  Text.phrase ([Text.clause "unix" c.path.quote, Text.clause "perm" (Text.ofIntPadded 4 c.perm),
      Text.clause "owner" (Text.ofInt c.owner), Text.clause "group" (Text.ofInt c.group)] ++
    (if c.keys = [] then [] else [Text.clause "keys" (Text.ofStrings c.keys)]) ++
    Text.yesNoClause "read-only" c.readOnly)

end UnixChannel

end NameServerConf
