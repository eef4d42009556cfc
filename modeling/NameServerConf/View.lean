import NameServerConf.Zone
import NameServerConf.TrustAnchor
import NameServerConf.Acl

/-!
# Trust anchors and views

A view is what some clients see of the server: zones of its own, and whom they are shown to.
-/

namespace NameServerConf

/-- The trust anchors of one statement. -/
structure TrustAnchors where
  items : List TrustAnchor
deriving DecidableEq, Inhabited, Repr

/-- What some clients see of the server. -/
structure View where
  name : Text
  vclass : Text
  matchClients : Option (List MatchTerm)
  matchDestinations : Option (List MatchTerm)
  recursion : Option Bool
  trustAnchors : Option TrustAnchors
  zones : List Zone
  includes : List Include
  other : List OtherOption
deriving DecidableEq, Inhabited, Repr

namespace TrustAnchors

/-- The trust anchors among some statements; the other statements are left out with a remark. -/
def readItems : List Statement → Noted (List TrustAnchor)
  | [] => pure []
  | s :: ss => do
    match ← TrustAnchor.read? s.text with
    | some anchor => do pure (anchor :: (← readItems ss))
    | none => do
      Noted.remark (.statement (.only "trust-anchors") s.text)
      readItems ss

/-- Trust anchors, from their statement. -/
def ofStatement (s : Statement) : Noted TrustAnchors := do pure ⟨← readItems s.children⟩

/-- The statement of some trust anchors. -/
def node (a : TrustAnchors) : Node :=
  .block "trust-anchors" (Node.lines (a.items.map TrustAnchor.text))

end TrustAnchors

instance : Named View := ⟨View.name⟩

namespace View

/-- A view about which nothing more is said. -/
def empty (name : Text) : View := ⟨name, [], none, none, none, none, [], [], []⟩

/-- What a view block may hold. -/
def members (unknown : Unknown) : List (Member View) :=
  [.noted "match-clients" MatchTerm.readList fun ts v => { v with matchClients := some ts },
    .noted "match-destinations" MatchTerm.readList fun ts v => { v with matchDestinations := some ts },
    .yesNo "recursion" fun b v => { v with recursion := some b },
    .all "trust-anchors" fun s v => do
      pure { v with trustAnchors := some (← TrustAnchors.ofStatement s) },
    .all "zone" fun s v => do pure { v with zones := v.zones ++ [← Zone.ofStatement unknown s] },
    .all "include" fun s v => pure { v with includes := v.includes ++ [Include.ofStatement s] }]

/-- A view, from its statement. -/
def ofStatement (unknown : Unknown) (s : Statement) : Noted View :=
  let name := s.header.headerName
  readMembers (members unknown)
    (unknown.handle ⟨"view", name⟩ fun o v => { v with other := v.other ++ [o] })
    s.children { empty name with vclass := s.header.headerClass }

/-- The statement of a view. -/
def node (v : View) : Node :=
  .block (Text.namedHeader "view" v.name v.vclass)
    (Node.lines
      (Text.matchClause "match-clients" v.matchClients ++
        Text.matchClause "match-destinations" v.matchDestinations ++
        Text.yesNoClause "recursion" v.recursion) ++
      (match v.trustAnchors with
      | none => []
      | some a => [a.node]) ++
      v.includes.map Include.node ++ v.zones.map Zone.node ++ Node.otherLines v.other)

end View

end NameServerConf
