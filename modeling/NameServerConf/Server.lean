import NameServerConf.Clause

/-!
# Other servers

A server is named by its address, and clauses after it say how to reach it.  Forwarders are asked
for what this server does not know; remote servers are told of changes, or are where the content of
a zone comes from.
-/

namespace NameServerConf

/-- A server that queries are forwarded to. -/
structure Forwarder where
  address : Text
  port : Option Int
  tls : Text
deriving DecidableEq, Inhabited, Repr

/-- A server that zones are exchanged with. -/
structure RemoteServer where
  address : Text
  port : Option Int
  key : Text
  tls : Text
deriving DecidableEq, Inhabited, Repr

namespace Forwarder

/-- What may follow the address. -/
def clauses : List (Clause Forwarder) :=
  [⟨"port", fun arg f => pure { f with port := arg.readInt? }⟩,
    ⟨"tls", fun arg f => pure { f with tls := arg.unquote }⟩]

/-- A forwarder, from the tokens of `entry`. -/
def ofTokens (entry : Text) : List Text → Noted Forwarder
  | [] => pure ⟨[], none, []⟩
  | address :: rest =>
    readClauses clauses (fun word => Noted.remark (.token .forwarder word entry)) rest
      ⟨address, none, []⟩

/-- A list of forwarders, from its text.  What stands before the braces is left out. -/
def readList (s : Text) : Noted (List Forwarder) := do
  match s.trim.splitAtGroup with
  | (before, group) =>
    if before ≠ [] ∧ group ≠ [] then
      Noted.remark (.token .forwarders before.trim s)
    let list := if group = [] then before else group
    list.stripBraces.parts.mapM (fun entry => ofTokens entry entry.tokens)

/-- A forwarder, as it is written. -/
def text (f : Forwarder) : Text :=
  Text.phrase ([f.address] ++ Text.numberClause "port" f.port ++ Text.nameClause "tls" f.tls)

/-- A list of forwarders, as it is written. -/
def textOfList (fs : List Forwarder) : Text := Text.joined (fs.map text)

end Forwarder

namespace RemoteServer

/-- What may follow the address. -/
def clauses : List (Clause RemoteServer) :=
  [⟨"port", fun arg r => pure { r with port := arg.readInt? }⟩,
    ⟨"key", fun arg r => pure { r with key := arg.unquote }⟩,
    ⟨"tls", fun arg r => pure { r with tls := arg.unquote }⟩]

/-- A remote server, from its text. -/
def read (s : Text) : Noted RemoteServer :=
  match s.tokens with
  | [] => pure ⟨[], none, [], []⟩
  | address :: rest =>
    readClauses clauses (fun word => Noted.remark (.token .remoteServer word s)) rest
      ⟨address, none, [], []⟩

/-- A list of remote servers, from its text. -/
def readList (s : Text) : Noted (List RemoteServer) := s.stripBraces.parts.mapM read

/-- A remote server, as it is written. -/
def text (r : RemoteServer) : Text :=
  Text.phrase ([r.address] ++ Text.numberClause "port" r.port ++ Text.nameClause "key" r.key ++
    Text.nameClause "tls" r.tls)

/-- A list of remote servers, as it is written. -/
def textOfList (rs : List RemoteServer) : Text := Text.joined (rs.map text)

end RemoteServer

end NameServerConf
