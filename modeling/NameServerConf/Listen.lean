import NameServerConf.MatchTerm

/-!
# Where to listen

The value of a `listen-on` option: a port and the names of profiles, in any order, then the addresses
in braces.
-/

namespace NameServerConf

/-- Where, and how, to listen. -/
structure Listen where
  port : Option Int
  tls : Text
  http : Text
  addrs : List MatchTerm
deriving DecidableEq, Inhabited, Repr

namespace Listen

/-- What may stand before the addresses. -/
def clauses : List (Clause Listen) :=
  [⟨"port", fun arg l => pure { l with port := arg.readInt? }⟩,
    ⟨"tls", fun arg l => pure { l with tls := arg.unquote }⟩,
    ⟨"http", fun arg l => pure { l with http := arg.unquote }⟩]

/-- Where to listen, from its text. -/
def read (s : Text) : Noted Listen := do
  let addrs ← MatchTerm.readList s.splitAtGroup.2
  readClauses clauses (fun word => Noted.remark (.token .listen word s))
    s.splitAtGroup.1.tokens ⟨none, [], [], addrs⟩

/-- Where to listen, as it is written. -/
def text (l : Listen) : Text :=
  Text.phrase (Text.numberClause "port" l.port ++ Text.nameClause "tls" l.tls ++
    Text.nameClause "http" l.http ++ [MatchTerm.textOfList l.addrs])

end Listen

end NameServerConf
