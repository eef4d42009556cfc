import NameServerConf.Listen
import NameServerConf.Server
import NameServerConf.RRsetOrder
import NameServerConf.Block

/-!
# The options block

Settings of the server as a whole.  Most options are not known to the library, and all of those are
kept, whatever is done with unknown statements elsewhere.
-/

namespace NameServerConf

/-- Settings of the server as a whole.  A list that is present and empty matches nobody, which is
    not the same as an absent one. -/
structure Options where
  directory : Text
  recursion : Option Bool
  allowQuery : Option (List MatchTerm)
  allowTransfer : Option (List MatchTerm)
  allowUpdate : Option (List MatchTerm)
  listenOn : Option Listen
  listenOnV6 : Option Listen
  forwarders : Option (List Forwarder)
  forward : Text
  dnssecValidation : Text
  rrsetOrder : List RRsetOrder
  other : List OtherOption
deriving DecidableEq, Inhabited, Repr

/-- A clause with a match list, if there is one. -/
def Text.matchClause (keyword : Text) : Option (List MatchTerm) → List Text
  | none => []
  | some ts => [clause keyword (MatchTerm.textOfList ts)]

/-- A clause with forwarders, if there are any. -/
def Text.forwardersClause : Option (List Forwarder) → List Text
  | none => []
  | some fs => [clause "forwarders" (Forwarder.textOfList fs)]

/-- A clause with what to listen on, if it is said. -/
def Text.listenClause (keyword : Text) : Option Listen → List Text
  | none => []
  | some l => [clause keyword l.text]

namespace Options

/-- No settings. -/
def empty : Options := ⟨[], none, none, none, none, none, none, none, [], [], [], []⟩

/-- A value of one word; further words are left out with a remark. -/
def oneWord (s : Statement) : Noted Text :=
  match s.value.words with
  | [] => pure []
  | [word] => pure word
  | word :: next :: rest => do
    Noted.remark (.statement (.only "options") (Text.clause s.keyword (Text.phrase (next :: rest))))
    pure word

/-- A member for what to listen on, of which only the first is known. -/
def listenMember (keyword : Text) (get : Options → Option Listen) (put : Listen → Options → Options) :
    Member Options :=
  ⟨keyword, fun s o =>
    if (get o).isSome then none else some (do pure (put (← Listen.read s.value) o))⟩

/-- What an options block may hold. -/
def members : List (Member Options) :=
  [.string "directory" fun t o => { o with directory := t },
    .yesNo "recursion" fun b o => { o with recursion := some b },
    .noted "allow-query" MatchTerm.readList fun ts o => { o with allowQuery := some ts },
    .noted "allow-transfer" MatchTerm.readList fun ts o => { o with allowTransfer := some ts },
    .noted "allow-update" MatchTerm.readList fun ts o => { o with allowUpdate := some ts },
    listenMember "listen-on" listenOn fun l o => { o with listenOn := some l },
    listenMember "listen-on-v6" listenOnV6 fun l o => { o with listenOnV6 := some l },
    .braced "forwarders" Forwarder.readList fun fs o => { o with forwarders := some fs },
    .all "forward" fun s o => do pure { o with forward := ← oneWord s },
    .all "dnssec-validation" fun s o => do pure { o with dnssecValidation := ← oneWord s },
    .noted "rrset-order" RRsetOrder.readList fun rs o => { o with rrsetOrder := rs }]

/-- Settings, from their statement. -/
def ofStatement (s : Statement) : Noted Options :=
  readMembers members (fun child o => pure { o with other := o.other ++ [⟨child.keyword, child.value⟩] })
    s.children empty

/-- The statement of the settings. -/
def node (o : Options) : Node :=
  .block "options"
    (Node.lines
      (Text.nameClause "directory" o.directory ++ Text.yesNoClause "recursion" o.recursion ++
        Text.matchClause "allow-query" o.allowQuery ++
        Text.matchClause "allow-transfer" o.allowTransfer ++
        Text.matchClause "allow-update" o.allowUpdate ++
        Text.listenClause "listen-on" o.listenOn ++
        Text.listenClause "listen-on-v6" o.listenOnV6 ++
        Text.forwardersClause o.forwarders ++ Text.wordClause "forward" o.forward ++
        Text.wordClause "dnssec-validation" o.dnssecValidation ++
        (if o.rrsetOrder = [] then []
         else [Text.clause "rrset-order" (RRsetOrder.textOfList o.rrsetOrder)])) ++
      Node.otherLines o.other)

end Options

end NameServerConf
