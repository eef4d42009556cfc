import NameServerConf.Proofs.Collected
import NameServerConf.Proofs.RoundTrip

/-!
# Names that are written bare where they can be

`Text.quoteUnlessBare` writes a name without quotation marks if it is made of letters, digits and
hyphens.  Names are written in this way in four places, and there is a different reader for each.

**Whole names.**  The name of a policy is a whole value, that of a category ends at the second
quotation mark, and that of a match list is a whole term; so any name is read as it was written, that
of a match list unless it looks like an address.

**First words.**  The name of a group of servers is the first word of a value without braces, and
words end at blanks inside quotation marks like at any others.  So a name is read as it was written
exactly if there is no gap and no opening brace in it.
-/

namespace NameServerConf

open Text Node

/-! ## Files with one statement -/

/-- The statement of a text that a neat node was laid out as. -/
lemma Node.Neat.withKeyword_parse {n : Node} (h : n.Neat) {k : Keyword}
    (hk : (said 0 n).keyword = k.word) :
    Statement.withKeyword k (statements (parse (n.render 0))) = [said 0 n] := by
  have hparse : parse (n.render 0) = [.source (n.render 0)] := (h.complete 0).parse_eq
  rw [hparse]
  exact List.filter_cons_of_pos (decide_eq_true hk)

namespace ReadBack

variable {α : Type} {k : Keyword} {read : Statement → Noted α} {e : α} {n : Node}

/-- What is read back is all that its keyword stands for. -/
lemma map_value_parse (h : ReadBack k.word read e n) :
    (Statement.withKeyword k (statements (parse (n.render 0)))).map (fun s => (read s).value) =
      [e] := by
  rw [h.neat.withKeyword_parse (h.keyword 0), List.map_singleton, h.read_eq]
  rfl

lemma getLast?_parse (h : ReadBack k.word read e n) :
    ((Statement.withKeyword k (statements (parse (n.render 0)))).getLast?.map
      fun s => (read s).value) = some e := by
  rw [h.neat.withKeyword_parse (h.keyword 0), List.getLast?_singleton, Option.map_some, h.read_eq]
  rfl

section Files

variable {unknown : Unknown}

lemma acls_ofNodes {a : Acl} (h : ReadBack "acl" Acl.ofStatement a n) :
    (Config.ofNodes unknown (parse (n.render 0))).value.acls = [a] := by
  rw [Config.value_ofNodes]
  exact map_value_parse (k := .acl) h

lemma zones_ofNodes {z : Zone} (h : ReadBack "zone" (Zone.ofStatement unknown) z n) :
    (Config.ofNodes unknown (parse (n.render 0))).value.zones = [z] := by
  rw [Config.value_ofNodes]
  exact map_value_parse (k := .zone) h

lemma views_ofNodes {v : View} (h : ReadBack "view" (View.ofStatement unknown) v n) :
    (Config.ofNodes unknown (parse (n.render 0))).value.views = [v] := by
  rw [Config.value_ofNodes]
  exact map_value_parse (k := .view) h

lemma options_ofNodes {o : Options} (h : ReadBack "options" Options.ofStatement o n) :
    (Config.ofNodes unknown (parse (n.render 0))).value.options = some o := by
  rw [Config.value_ofNodes]
  exact getLast?_parse (k := .options) h

lemma controls_ofNodes {c : Controls} (h : ReadBack "controls" (Controls.ofStatement unknown) c n) :
    (Config.ofNodes unknown (parse (n.render 0))).value.controls = some c := by
  rw [Config.value_ofNodes]
  exact getLast?_parse (k := .controls) h

lemma logging_ofNodes {l : Logging} (h : ReadBack "logging" (Logging.ofStatement unknown) l n) :
    (Config.ofNodes unknown (parse (n.render 0))).value.logging = some l := by
  rw [Config.value_ofNodes]
  exact getLast?_parse (k := .logging) h

end Files

end ReadBack

/-! ## Zones -/

namespace Zone

variable {name n : Text}

/-- A zone of which only the lines of its body are known, and what they say. -/
lemma readBack_lines (unknown : Unknown) (hname : name.isClean = true) {l : List Text} {z : Zone}
    (hbody : ∀ other depth, Reads members other depth (lines l)
      { empty name with zclass := headerClass (quote name ++ afterGap []) } z) :
    ReadBack "zone" (Zone.ofStatement unknown) z (.block (namedHeader "zone" name []) (lines l)) :=
  .namedMembers (by decide) hname (Or.inl rfl) (hbody _) fun s hs => by
    rw [ofStatement, hs, headerName_quote hname]

/-- A statement about the primaries that does not begin with a brace names a group, or is refused. -/
lemma primaries_readMembers {z : Zone} (hz : z.primaries = .unset) {s : Statement}
    (hs : s.keyword = "primaries") (hbraced : Member.isBraced s.value = false) (unknown : Unknown)
    (place : Place) :
    (readMembers members (unknown.handle place fun o z => { z with other := z.other ++ [o] }) [s]
      z).value.primaries = (Primaries.groupName? s.value).elim .unset .group := by
  have htake : Member.take? members s z =
      (Primaries.groupName? s.value).map fun t => pure { z with primaries := .group t } := by
    rw [Member.take?_eq rfl hs, findSome?_primaries rfl, hbraced]
    rfl
  rw [readMembers, htake]
  cases Primaries.groupName? s.value with
  | some g => rfl
  | none => cases unknown <;> exact hz

/-- The group that a zone is copied from is what its name is read as. -/
lemma primaries_said (unknown : Unknown) (hname : name.isClean = true) (hn : n.isClean = true) :
    let node := ({ empty name with primaries := .group n } : Zone).node
    node.Neat ∧ (said 0 node).keyword = "zone" ∧
      (ofStatement unknown (said 0 node)).value.primaries =
        (Primaries.groupName? n.quoteUnlessBare).elim .unset .group := by
  have hk : IsKeyword "zone" := isKeyword_of_isWord (by decide)
  have hprimaries : IsKeyword "primaries" := isKeyword_of_isWord (by decide)
  have hvalue := isValue_quoteUnlessBare (isQuotable_of_isClean hn)
  obtain ⟨hh, hg⟩ := isTail_header hname (Or.inl rfl)
  have hbody : ∀ m ∈ [Node.line ("primaries" ++ afterGap n.quoteUnlessBare)], m.Neat :=
    List.forall_mem_singleton.mpr (.line hprimaries hvalue.isTail)
  have hnode : ({ empty name with primaries := .group n } : Zone).node =
      .block ("zone" ++ afterGap (quote name ++ afterGap []))
        [.line ("primaries" ++ afterGap n.quoteUnlessBare)] := by
    rw [← namedHeader_eq_afterGap, ← afterGap_eq_clause _ hvalue.ne_nil]
    rfl
  obtain ⟨hkeyword, -, hchildren⟩ := said_block hk hh hg hbody 0
  dsimp only
  rw [hnode]
  refine ⟨.block hk hh hg hbody, hkeyword, ?_⟩
  have hline : (Statement.ofParts "primaries" (afterGap n.quoteUnlessBare)).value =
      n.quoteUnlessBare := Statement.value_ofParts hvalue.isTail
  rw [ofStatement, hchildren, List.map_singleton, said_line hprimaries hvalue.isTail,
    primaries_readMembers rfl rfl, hline]
  rw [hline]
  exact Member.isBraced_quoteUnlessBare n

/-- **A group of servers** is read under its name exactly if there is no gap in it and no brace. -/
lemma primaries_ofNodes (unknown : Unknown) (hname : name.isClean = true) (hn : n.isClean = true) :
    ∃ z, (Config.ofNodes unknown
        (parse (({ empty name with primaries := .group n } : Zone).node.render 0))).value.zones = [z] ∧
      (z.primaries = .group n ↔ ∀ b ∈ n, isWordGap b = false ∧ b ≠ Byte.openBrace) := by
  obtain ⟨hneat, hkeyword, hprimaries⟩ := primaries_said unknown hname hn
  let node := ({ empty name with primaries := .group n } : Zone).node
  refine ⟨(ofStatement unknown (said 0 node)).value, ?_, ?_⟩
  · rw [Config.value_ofNodes]
    exact congrArg (List.map _) (hneat.withKeyword_parse (k := .zone) hkeyword)
  · rw [hprimaries, ← Primaries.groupName?_quoteUnlessBare hn]
    cases Primaries.groupName? n.quoteUnlessBare <;> simp

/-- **A policy** is read under its name. -/
lemma dnssecPolicy_ofNodes (unknown : Unknown) (hname : name.isClean = true)
    (hn : n.isClean = true) :
    ∃ z, (Config.ofNodes unknown
        (parse (({ empty name with dnssecPolicy := n } : Zone).node.render 0))).value.zones = [z] ∧
      z.dnssecPolicy = n := by
  have hnode : ({ empty name with dnssecPolicy := n } : Zone).node =
      .block (namedHeader "zone" name [])
        (lines (if n = [] then [] else [clause "dnssec-policy" n.quoteUnlessBare])) := by
    rw [node_eq]
    exact congrArg _ (List.append_nil _)
  rw [hnode]
  exact ⟨_, (readBack_lines unknown hname fun _ _ => reads_dnssecPolicy hn rfl).zones_ofNodes, rfl⟩

end Zone

/-! ## Categories -/

/-- **Categories** are read under their names. -/
lemma Logging.categories_ofNodes (unknown : Unknown) {cs : List LogCategory}
    (h : ∀ c ∈ cs, c.WellFormed) :
    (Config.ofNodes unknown (parse ((Logging.mk [] cs []).node.render 0))).value.logging =
      some ⟨[], cs, []⟩ := by
  have hnode : (Logging.mk [] cs []).node = .block "logging" (cs.map LogCategory.node) :=
    congrArg (Node.block _) (List.append_nil _)
  have hbody : ∀ depth, Reads (members unknown)
      (unknown.handle (.only "logging") fun o l => { l with other := l.other ++ [o] }) depth
      (cs.map LogCategory.node) ⟨[], [], []⟩ ⟨[], cs, []⟩ := fun depth =>
    .each (fun c (l : Logging) => { l with categories := l.categories ++ [c] })
      (fun cs => ⟨[], cs, []⟩) rfl (fun _ _ => rfl) fun c hc => LogCategory.readBack (h c hc)
  have hread : ReadBack "logging" (Logging.ofStatement unknown) ⟨[], cs, []⟩
      (.block "logging" (cs.map LogCategory.node)) :=
    .bareMembers (by decide) hbody fun s => rfl
  rw [hnode]
  exact hread.logging_ofNodes

/-! ## Match lists -/

lemma MatchTerm.areWellFormed_append (ts us : List MatchTerm) :
    areWellFormed (ts ++ us) = (areWellFormed ts && areWellFormed us) := by
  induction ts with
  | nil => rw [List.nil_append, areWellFormed, Bool.true_and]
  | cons t ts ih => rw [List.cons_append, areWellFormed, areWellFormed, ih, Bool.and_assoc]

/-- Settings of which none is made are well-formed. -/
lemma Options.wellFormed_empty : Options.empty.WellFormed where
  directory := rfl
  allowQuery := fun _ h => by cases h
  allowTransfer := fun _ h => by cases h
  allowUpdate := fun _ h => by cases h
  listenOn := fun _ h => by cases h
  listenOnV6 := fun _ h => by cases h
  forwarders := fun _ h => by cases h
  forward := rfl
  dnssecValidation := rfl
  rrsetOrder := fun _ h => by cases h
  other := fun _ h => by cases h

/-- A place for a match list: the statement with this list and nothing else that need not be there, and
    the lists that a configuration has in this place. -/
structure MatchListPlace where
  node : List MatchTerm → Node
  lists : Config → List (List MatchTerm)

namespace MatchListPlace

/-- A named match list. -/
def acl (name : Text) : MatchListPlace :=
  ⟨fun ts => (Acl.mk name ts).node, fun c => c.acls.map Acl.elements⟩

/-- A setting of the server. -/
def setting (put : List MatchTerm → Options) (get : Options → Option (List MatchTerm)) :
    MatchListPlace :=
  ⟨fun ts => (put ts).node, fun c => (c.options.bind get).toList⟩

/-- A setting of a zone. -/
def ofZone (name : Text) (put : List MatchTerm → Zone → Zone)
    (get : Zone → Option (List MatchTerm)) : MatchListPlace :=
  ⟨fun ts => (put ts (Zone.empty name)).node, fun c => c.zones.filterMap get⟩

/-- A setting of a view. -/
def ofView (name : Text) (put : List MatchTerm → View → View)
    (get : View → Option (List MatchTerm)) : MatchListPlace :=
  ⟨fun ts => (put ts (View.empty name)).node, fun c => c.views.filterMap get⟩

/-- Who may use a control channel over the network. -/
def controls (address : Text) : MatchListPlace :=
  ⟨fun ts => (Controls.mk [⟨address, none, ts, [], none⟩] [] []).node,
    fun c => c.controls.toList.flatMap fun c => c.inetChannels.map InetChannel.allow⟩

/-- Every place for a match list. -/
def all (name address : Text) : List MatchListPlace :=
  [acl name,
    setting (fun ts => { Options.empty with allowQuery := some ts }) (·.allowQuery),
    setting (fun ts => { Options.empty with allowTransfer := some ts }) (·.allowTransfer),
    setting (fun ts => { Options.empty with allowUpdate := some ts }) (·.allowUpdate),
    setting (fun ts => { Options.empty with listenOn := some ⟨none, [], [], ts⟩ })
      fun o => o.listenOn.map Listen.addrs,
    setting (fun ts => { Options.empty with listenOnV6 := some ⟨none, [], [], ts⟩ })
      fun o => o.listenOnV6.map Listen.addrs,
    ofZone name (fun ts z => { z with allowUpdate := some ts }) (·.allowUpdate),
    ofZone name (fun ts z => { z with allowTransfer := some ts }) (·.allowTransfer),
    ofView name (fun ts v => { v with matchClients := some ts }) (·.matchClients),
    ofView name (fun ts v => { v with matchDestinations := some ts }) (·.matchDestinations),
    controls address]

/-- In this place, well-formed lists are read as they were written. -/
def IsReadBack (p : MatchListPlace) : Prop :=
  ∀ unknown ts, MatchTerm.areWellFormed ts = true →
    p.lists (Config.ofNodes unknown (parse ((p.node ts).render 0))).value = [ts]

variable {name address : Text}

/-- A match list that a member takes as it is. -/
lemma reads_matchClause {β : Type} {table : List (Member β)} {other : Statement → β → Noted β}
    {depth : ℕ} {put : List MatchTerm → β → β} {kw : Text} {b : β}
    (htable : table.filter (·.keyword = kw) = [.noted kw MatchTerm.readList put])
    (hkw : kw.isWord = true) {ts : List MatchTerm} (hts : MatchTerm.areWellFormed ts = true) :
    Reads table other depth (lines (matchClause kw (some ts))) b (put ts b) :=
  .matchList (fun ts? b => ts?.elim b (put · b)) htable hkw
    (fun _ h => Option.some.inj h ▸ hts) rfl

lemma isReadBack_acl (hname : name.isClean = true) : (acl name).IsReadBack := by
  intro unknown ts hts
  exact congrArg (List.map _) (Acl.readBack (a := ⟨name, ts⟩) ⟨hname, hts⟩).acls_ofNodes

lemma isReadBack_setting {put : List MatchTerm → Options} {get : Options → Option (List MatchTerm)}
    (hput : ∀ ts, MatchTerm.areWellFormed ts = true → (put ts).WellFormed)
    (hget : ∀ ts, get (put ts) = some ts) : (setting put get).IsReadBack := by
  intro unknown ts hts
  have hread : (Config.ofNodes unknown (parse ((put ts).node.render 0))).value.options =
      some (put ts) := (Options.readBack (hput ts hts)).options_ofNodes
  show ((Config.ofNodes unknown (parse ((put ts).node.render 0))).value.options.bind get).toList = _
  rw [hread, Option.bind_some, hget]
  rfl

lemma isReadBack_ofZone {put : List MatchTerm → Zone → Zone}
    {get : Zone → Option (List MatchTerm)} {kw : Text} (hname : name.isClean = true)
    (htable : Zone.members.filter (·.keyword = kw) = [.noted kw MatchTerm.readList put])
    (hkw : kw.isWord = true)
    (hnode : ∀ ts, (put ts (Zone.empty name)).node =
      .block (namedHeader "zone" name []) (lines (matchClause kw (some ts))))
    (hget : ∀ ts z, get (put ts z) = some ts) : (ofZone name put get).IsReadBack := by
  intro unknown ts hts
  have hread := Zone.readBack_lines unknown hname fun _ _ => reads_matchClause htable hkw hts
  show List.filterMap get _ = [ts]
  rw [show (ofZone name put get).node ts = _ from hnode ts, hread.zones_ofNodes,
    List.filterMap_cons_some (hget ts _), List.filterMap_nil]

lemma isReadBack_ofView {put : List MatchTerm → View → View}
    {get : View → Option (List MatchTerm)} {kw : Text} (hname : name.isClean = true)
    (htable : ∀ unknown, (View.members unknown).filter (·.keyword = kw) =
      [.noted kw MatchTerm.readList put])
    (hkw : kw.isWord = true)
    (hnode : ∀ ts, (put ts (View.empty name)).node =
      .block (namedHeader "view" name []) (lines (matchClause kw (some ts))))
    (hget : ∀ ts v, get (put ts v) = some ts) : (ofView name put get).IsReadBack := by
  intro unknown ts hts
  have hread : ReadBack "view" (View.ofStatement unknown) _
      (.block (namedHeader "view" name []) (lines (matchClause kw (some ts)))) :=
    .namedMembers (by decide) hname (Or.inl rfl)
      (fun depth => reads_matchClause (htable unknown) hkw hts)
      fun s hs => by rw [View.ofStatement, hs, headerName_quote hname]
  show List.filterMap get _ = [ts]
  rw [show (ofView name put get).node ts = _ from hnode ts, hread.views_ofNodes,
    List.filterMap_cons_some (hget ts _), List.filterMap_nil]

lemma isReadBack_controls (haddress : address.isWord = true) : (controls address).IsReadBack := by
  intro unknown ts hts
  have hchannel : InetChannel.WellFormed ⟨address, none, ts, [], none⟩ :=
    ⟨haddress, rfl, hts, fun _ h => absurd h List.not_mem_nil⟩
  have hread : ReadBack "controls" (Controls.ofStatement unknown)
      ⟨[⟨address, none, ts, [], none⟩], [], []⟩
      (.block "controls" (lines ([⟨address, none, ts, [], none⟩].map InetChannel.text))) :=
    .bareMembers (by decide)
      (fun depth => .eachLine
        (fun i (c : Controls) => { c with inetChannels := c.inetChannels ++ [i] })
        (fun l => ⟨l, [], []⟩) rfl (fun _ _ => rfl) (List.forall_mem_singleton.mpr hchannel.readBack))
      fun s => rfl
  show (Option.toList _).flatMap _ = [ts]
  rw [show (Config.ofNodes unknown (parse (((controls address).node ts).render 0))).value.controls = _
    from hread.controls_ofNodes]
  rfl

/-- **A match list** is read as it was written, whatever its place. -/
theorem isReadBack_of_mem_all (hname : name.isClean = true) (haddress : address.isWord = true) :
    ∀ p ∈ all name address, p.IsReadBack := by
  have hsetting := Options.wellFormed_empty
  refine List.forall_iff_forall_mem.mp ⟨isReadBack_acl hname, ?_, ?_, ?_, ?_, ?_, ?_, ?_, ?_, ?_,
    isReadBack_controls haddress⟩
  · exact isReadBack_setting (fun ts hts => { hsetting with
      allowQuery := fun _ h => Option.some.inj h ▸ hts
      other := fun _ h => absurd h List.not_mem_nil }) fun _ => rfl
  · exact isReadBack_setting (fun ts hts => { hsetting with
      allowTransfer := fun _ h => Option.some.inj h ▸ hts
      other := fun _ h => absurd h List.not_mem_nil }) fun _ => rfl
  · exact isReadBack_setting (fun ts hts => { hsetting with
      allowUpdate := fun _ h => Option.some.inj h ▸ hts
      other := fun _ h => absurd h List.not_mem_nil }) fun _ => rfl
  · exact isReadBack_setting (fun ts hts => { hsetting with
      listenOn := fun _ h => Option.some.inj h ▸ ⟨rfl, rfl, rfl, hts⟩
      other := fun _ h => absurd h List.not_mem_nil }) fun _ => rfl
  · exact isReadBack_setting (fun ts hts => { hsetting with
      listenOnV6 := fun _ h => Option.some.inj h ▸ ⟨rfl, rfl, rfl, hts⟩
      other := fun _ h => absurd h List.not_mem_nil }) fun _ => rfl
  · exact isReadBack_ofZone hname rfl (by decide) (fun _ => rfl) fun _ _ => rfl
  · exact isReadBack_ofZone hname rfl (by decide) (fun _ => rfl) fun _ _ => rfl
  · exact isReadBack_ofView hname (fun _ => rfl) (by decide) (fun _ => rfl) fun _ _ => rfl
  · exact isReadBack_ofView hname (fun _ => rfl) (by decide) (fun _ => rfl) fun _ _ => rfl

end MatchListPlace

/-! ## Every place for a name -/

namespace Config

/-- **Names that are written bare where they can be.**  The name of a policy, of a category or, if it
    does not look like an address, of a match list is read as it was written; the name of a group of
    servers exactly if there is no gap and no opening brace in it. -/
theorem ofNodes_quoteUnlessBare {n name address : Text} (hn : n.isClean = true)
    (hname : name.isClean = true) (haddress : address.isWord = true) (unknown : Unknown) :
    (∃ z, (ofNodes unknown (parse
        (({ Zone.empty name with primaries := .group n } : Zone).node.render 0))).value.zones = [z] ∧
      (z.primaries = .group n ↔ ∀ b ∈ n, isWordGap b = false ∧ b ≠ Byte.openBrace)) ∧
    (∃ z, (ofNodes unknown (parse
        (({ Zone.empty name with dnssecPolicy := n } : Zone).node.render 0))).value.zones = [z] ∧
      z.dnssecPolicy = n) ∧
    (∀ channels before behind, (∀ s ∈ channels, s.isClean = true) →
      (∀ c ∈ before ++ behind, c.WellFormed) →
      let l : Logging := ⟨[], before ++ ⟨n, channels⟩ :: behind, []⟩
      (ofNodes unknown (parse (l.node.render 0))).value.logging = some l) ∧
    (MatchTerm.looksLikeAddress n = false → ∀ p ∈ MatchListPlace.all name address,
      ∀ negated before behind, MatchTerm.areWellFormed before = true →
        MatchTerm.areWellFormed behind = true →
        let ts := before ++ .acl negated n :: behind
        p.lists (ofNodes unknown (parse ((p.node ts).render 0))).value = [ts]) := by
  refine ⟨Zone.primaries_ofNodes unknown hname hn, Zone.dnssecPolicy_ofNodes unknown hname hn, ?_, ?_⟩
  · intro channels before behind hchannels hcategories
    refine Logging.categories_ofNodes unknown fun c hc => ?_
    rcases List.mem_append.mp hc with hc | hc
    · exact hcategories c (List.mem_append_left _ hc)
    rcases List.mem_cons.mp hc with rfl | hc
    · exact ⟨hn, hchannels⟩
    · exact hcategories c (List.mem_append_right _ hc)
  · intro haddr p hp negated before behind hbefore hbehind
    refine MatchListPlace.isReadBack_of_mem_all hname haddress p hp unknown _ ?_
    rw [MatchTerm.areWellFormed_append, hbefore, MatchTerm.areWellFormed, hbehind,
      MatchTerm.isWellFormed, hn, haddr]
    rfl

/-- A name that needs its quotation marks, in four places. -/
theorem ofNodes_quoteUnlessBare_dotted :
    ("a.b" : Text).isClean = true ∧ ("example.com" : Text).isClean = true ∧
      ("127.0.0.1" : Text).isWord = true ∧
      (∃ z, (ofNodes .keep (parse (({ Zone.empty "example.com" with
        primaries := .group "a.b" } : Zone).node.render 0))).value.zones = [z] ∧
        z.primaries = .group "a.b") ∧
      (∃ z, (ofNodes .keep (parse (({ Zone.empty "example.com" with
        dnssecPolicy := "a.b" } : Zone).node.render 0))).value.zones = [z] ∧
        z.dnssecPolicy = "a.b") ∧
      (ofNodes .keep (parse ((Logging.mk [] [⟨"a.b", ["default"]⟩] []).node.render 0))).value.logging =
        some ⟨[], [⟨"a.b", ["default"]⟩], []⟩ ∧
      (ofNodes .keep (parse ((Acl.mk "example.com" [.acl true "a.b"]).node.render 0))).value.acls.map
        Acl.elements = [[.acl true "a.b"]] := by
  have hn : ("a.b" : Text).isClean = true := by decide +kernel
  have hname : ("example.com" : Text).isClean = true := by decide +kernel
  have haddress : ("127.0.0.1" : Text).isWord = true := by decide +kernel
  obtain ⟨⟨z, hz, hprimaries⟩, hpolicy, hcategory, hlist⟩ :=
    ofNodes_quoteUnlessBare hn hname haddress .keep
  have hchannels : ∀ s ∈ [("default" : Text)], s.isClean = true := by decide +kernel
  refine ⟨hn, hname, haddress, ⟨z, hz, hprimaries.mpr (by decide +kernel)⟩, hpolicy, ?_, ?_⟩
  · exact hcategory ["default"] [] [] hchannels fun _ h => absurd h List.not_mem_nil
  · exact hlist (by decide +kernel) _ (List.mem_cons_self ..) true [] [] rfl rfl

/-- Of the name of a group, what stands behind a blank is lost. -/
theorem ofNodes_quoteUnlessBare_ne :
    ("a b" : Text) ≠ [] ∧ ("a b" : Text).isClean = true ∧
      ¬ ∃ z, (ofNodes .keep (parse (({ Zone.empty "z" with
        primaries := .group "a b" } : Zone).node.render 0))).value.zones = [z] ∧
        z.primaries = .group "a b" := by
  have hn : ("a b" : Text).isClean = true := by decide +kernel
  have hname : ("z" : Text).isClean = true := by decide +kernel
  obtain ⟨z, hz, hprimaries⟩ := Zone.primaries_ofNodes .keep hname hn
  refine ⟨by decide +kernel, hn, ?_⟩
  rintro ⟨z', hz', hread⟩
  obtain rfl := (List.cons.inj (hz'.symm.trans hz)).1
  exact absurd (hprimaries.mp hread) (by decide +kernel)

end Config

end NameServerConf
