import NameServerConf.Clause

/-!
# The order of records in answers

A rule says in which order the records of an answer are given, for a class, a type and a name or for
all of them.
-/

namespace NameServerConf

/-- A rule for the order of records. -/
structure RRsetOrder where
  rrclass : Text
  type : Text
  name : Text
  order : Text
deriving DecidableEq, Inhabited, Repr

namespace RRsetOrder

/-- What a rule is made of. -/
def clauses : List (Clause RRsetOrder) :=
  [⟨"class", fun arg r => pure { r with rrclass := arg }⟩,
    ⟨"type", fun arg r => pure { r with type := arg }⟩,
    ⟨"name", fun arg r => pure { r with name := arg.unquote }⟩,
    ⟨"order", fun arg r => pure { r with order := arg }⟩]

/-- A rule, from its tokens.  Tokens that are not understood are passed over, but a rule without
    an order has its last token for one. -/
def ofTokens (tokens : List Text) : Noted RRsetOrder := do
  let rule ← readClauses clauses (fun _ => pure ()) tokens ⟨[], [], [], []⟩
  pure (if rule.order = [] then { rule with order := tokens.getLast?.getD [] } else rule)

/-- A list of rules, from its text. -/
def readList (s : Text) : Noted (List RRsetOrder) :=
  s.stripBraces.parts.mapM (fun entry => ofTokens entry.tokens)

/-- A rule, as it is written. -/
def text (r : RRsetOrder) : Text :=
  Text.phrase (Text.wordClause "class" r.rrclass ++ Text.wordClause "type" r.type ++
    Text.nameClause "name" r.name ++ [Text.clause "order" r.order])

/-- A list of rules, as it is written. -/
def textOfList (rs : List RRsetOrder) : Text := Text.joined (rs.map text)

end RRsetOrder

end NameServerConf
