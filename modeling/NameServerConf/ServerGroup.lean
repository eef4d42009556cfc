import NameServerConf.Server
import NameServerConf.Block
import NameServerConf.Text.Header

/-!
# Groups of remote servers

A list of remote servers with a name, to be referred to from zones, and a port for all of them.
-/

namespace NameServerConf

/-- Remote servers under one name. -/
structure ServerGroup where
  name : Text
  port : Option Int
  servers : List RemoteServer
deriving DecidableEq, Inhabited, Repr

namespace ServerGroup

/-- What may follow the name in the header. -/
def clauses : List (Clause (Option Int)) := [⟨"port", fun arg _ => pure arg.readInt?⟩]

/-- A group of servers, from its statement. -/
def ofStatement (s : Statement) : Noted ServerGroup := do
  let name := s.header.headerName
  let port ← readClauses clauses
    (fun word => Noted.remark (.statement ⟨"remote-servers", name⟩ word)) (s.header.tokens.drop 1) none
  let servers ← s.children.mapM fun child => RemoteServer.read child.text
  pure ⟨name, port, servers⟩

/-- The statement of a group of servers. -/
def node (g : ServerGroup) : Node :=
  .block (Text.phrase (Text.namedHeader "remote-servers" g.name [] :: Text.numberClause "port" g.port))
    (Node.lines (g.servers.map RemoteServer.text))

end ServerGroup

end NameServerConf
