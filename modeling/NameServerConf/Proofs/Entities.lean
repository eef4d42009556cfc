import NameServerConf.Proofs.Blocks

/-!
# Entities that are read as they were written

For each entity of a configuration, well-formed entities are read back from their statements:
`readBack` in the namespace of the entity.  The entities without blocks of their own inside come first,
then channels, zones and views, then what holds them.
-/

namespace NameServerConf

open Text Node

/-! ## Includes and named match lists -/

/-- **An included file** is read as it was written. -/
theorem Include.readBack {i : Include} (h : i.WellFormed) :
    ReadBack "include" (fun s => pure (Include.ofStatement s)) i i.node := by
  have hpath := isQuotable_of_isClean h.path
  have hvalue := (isValue_quote hpath).isTail
  have hk : IsKeyword "include" := isKeyword_of_isWord (by decide)
  have hread : Include.ofStatement (Statement.ofParts "include" (afterGap i.path.quote)) = i := by
    rw [ofStatement, Statement.value_ofParts hvalue, unquote_quote hpath]
  have hnode : i.node = .line ("include" ++ afterGap i.path.quote) :=
    congrArg Node.line (afterGap_eq_clause "include" (List.cons_ne_nil _ _))
  rw [hnode]
  exact .line hk hvalue (congrArg pure hread)

/-- What a list in braces behind a header says. -/
lemma Statement.ofParts_joined (kw : Text) {h : Text} {l : List Text} (hh : IsValue h)
    (hg : noGroups h = true) (hl : ∀ p ∈ l, IsValue p) :
    (ofParts kw (afterGap (h ++ Byte.space :: joined l))).header = h ∧
      (ofParts kw (afterGap (h ++ Byte.space :: joined l))).bodyText = listText l := by
  have hrest : afterGap (h ++ Byte.space :: joined l) = afterGap h ++ Byte.space ::
      Byte.openBrace :: (Byte.space :: listed l) ++ [Byte.closeBrace] := by
    rw [afterGap_of_ne_nil (by simp), afterGap_of_ne_nil hh.ne_nil, joined_eq]
    simp
  obtain ⟨hheader, hbody, -⟩ := ofParts_braces kw hh.isTail hg (isInside_listed hl)
  rw [hrest]
  exact ⟨hheader, hbody.trans (normalize_space_listed hl)⟩

/-- **A named match list** is read as it was written. -/
theorem Acl.readBack {a : Acl} (h : a.WellFormed) : ReadBack "acl" Acl.ofStatement a a.node := by
  have hname := isValue_quote (isQuotable_of_isClean h.name)
  have hvalues := MatchTerm.isValue_of_mem_texts a.elements h.elements
  have hvalue := (hname.append (isValue_joined hvalues)).isTail
  have hk : IsKeyword "acl" := isKeyword_of_isWord (by decide)
  have hnode : a.node = .line ("acl" ++
      afterGap (quote a.name ++ Byte.space :: joined (MatchTerm.texts a.elements))) := by
    rw [afterGap_of_ne_nil (by simp)]
    show Node.line (phrase [namedHeader "acl" a.name [], joined (MatchTerm.texts a.elements)]) = _
    rw [phrase_cons_cons]
    show Node.line (clause "acl" (quote a.name) ++ _) = _
    rw [clause_eq, List.append_assoc]
    rfl
  obtain ⟨hheader, hbody⟩ :=
    Statement.ofParts_joined "acl" hname (noGroups_quote (isQuotable_of_isClean h.name)) hvalues
  have hheaderName := headerName_quote h.name []
  rw [List.append_nil] at hheaderName
  rw [hnode]
  refine .line hk hvalue ?_
  have hread := (MatchTerm.readList_textOfList
    (MatchTerm.areReadable_of_areWellFormed a.elements h.elements)).2
  rw [ofStatement, hheader, hbody, hread, pure_bind, hheaderName]

/-! ## Keys and profiles -/

/-- **A key** is read as it was written. -/
theorem Key.readBack {k : Key} (h : k.WellFormed) :
    ReadBack "key" (Key.ofStatement .keep) k k.node := by
  have hbody : ∀ depth, Reads members
      (Unknown.keep.handle ⟨"key", k.name⟩ fun o k => { k with other := k.other ++ [o] }) depth
      (lines (nameClause "algorithm" k.algorithm ++ nameClause "secret" k.secret) ++
        otherLines k.other) ⟨k.name, [], [], []⟩ k := by
    intro depth
    exact .append
      (.append_lines
        (.string (fun t (k : Key) => { k with algorithm := t }) rfl (by decide) h.algorithm rfl)
        (.string (fun t (k : Key) => { k with secret := t }) rfl (by decide) h.secret rfl))
      (.others (fun l => { k with other := l }) (fun l s => rfl)
        (fun l => by simp [Member.Declines, members]) h.other)
  refine .namedMembers (by decide) h.name (Or.inl rfl) hbody fun s hs => ?_
  rw [ofStatement, hs, headerName_quote h.name]

/-- **A key store** is read as it was written. -/
theorem KeyStore.readBack {k : KeyStore} (h : k.WellFormed) :
    ReadBack "key-store" (KeyStore.ofStatement .keep) k k.node := by
  have hbody : ∀ depth, Reads members
      (Unknown.keep.handle ⟨"key-store", k.name⟩ fun o k => { k with other := k.other ++ [o] }) depth
      (lines (nameClause "pkcs11-uri" k.pkcs11Uri) ++ otherLines k.other)
      ⟨k.name, [], []⟩ k := by
    intro depth
    exact .append
      (.string (fun t (k : KeyStore) => { k with pkcs11Uri := t }) rfl (by decide) h.pkcs11Uri rfl)
      (.others (fun l => { k with other := l }) (fun l s => rfl)
        (fun l => by simp [Member.Declines, members]) h.other)
  refine .namedMembers (by decide) h.name (Or.inl rfl) hbody fun s hs => ?_
  rw [ofStatement, hs, headerName_quote h.name]

/-- **A TLS profile** is read as it was written. -/
theorem TlsProfile.readBack {p : TlsProfile} (h : p.WellFormed) :
    ReadBack "tls" (TlsProfile.ofStatement .keep) p p.node := by
  have hfiles : ∀ depth, Reads members
      (Unknown.keep.handle ⟨"tls", p.name⟩ fun o p => { p with other := p.other ++ [o] }) depth
      (lines (nameClause "ca-file" p.caFile ++ nameClause "cert-file" p.certFile ++
        nameClause "key-file" p.keyFile ++ nameClause "cipher-suites" p.cipherSuites ++
        nameClause "ciphers" p.ciphers ++ nameClause "dhparam-file" p.dhparamFile))
      ⟨p.name, [], [], [], [], [], [], none, [], [], none, []⟩
      ⟨p.name, p.caFile, p.certFile, p.keyFile, p.cipherSuites, p.ciphers, p.dhparamFile, none, [],
        [], none, []⟩ := by
    intro depth
    exact .append_lines (.append_lines (.append_lines (.append_lines (.append_lines
      (.string (fun t (p : TlsProfile) => { p with caFile := t }) rfl (by decide) h.caFile rfl)
      (.string (fun t (p : TlsProfile) => { p with certFile := t }) rfl (by decide) h.certFile rfl))
      (.string (fun t (p : TlsProfile) => { p with keyFile := t }) rfl (by decide) h.keyFile rfl))
      (.string (fun t (p : TlsProfile) => { p with cipherSuites := t }) rfl (by decide)
        h.cipherSuites rfl))
      (.string (fun t (p : TlsProfile) => { p with ciphers := t }) rfl (by decide) h.ciphers rfl))
      (.string (fun t (p : TlsProfile) => { p with dhparamFile := t }) rfl (by decide)
        h.dhparamFile rfl)
  have hbody : ∀ depth, Reads members
      (Unknown.keep.handle ⟨"tls", p.name⟩ fun o p => { p with other := p.other ++ [o] }) depth
      (lines (nameClause "ca-file" p.caFile ++ nameClause "cert-file" p.certFile ++
        nameClause "key-file" p.keyFile ++ nameClause "cipher-suites" p.cipherSuites ++
        nameClause "ciphers" p.ciphers ++ nameClause "dhparam-file" p.dhparamFile ++
        yesNoClause "prefer-server-ciphers" p.preferServerCiphers ++
        stringsClause "protocols" p.protocols ++ nameClause "remote-hostname" p.remoteHostname ++
        yesNoClause "session-tickets" p.sessionTickets) ++ otherLines p.other)
      ⟨p.name, [], [], [], [], [], [], none, [], [], none, []⟩ p := by
    intro depth
    exact .append
      (.append_lines (.append_lines (.append_lines (.append_lines (hfiles depth)
        (.yesNo (fun b (p : TlsProfile) => { p with preferServerCiphers := b }) rfl (by decide)
          rfl))
        (.strings (fun l (p : TlsProfile) => { p with protocols := l }) rfl (by decide)
          h.protocols rfl))
        (.string (fun t (p : TlsProfile) => { p with remoteHostname := t }) rfl (by decide)
          h.remoteHostname rfl))
        (.yesNo (fun b (p : TlsProfile) => { p with sessionTickets := b }) rfl (by decide) rfl))
      (.others (fun l => { p with other := l }) (fun l s => rfl)
        (fun l => by simp [Member.Declines, members]) h.other)
  refine .namedMembers (by decide) h.name (Or.inl rfl) hbody fun s hs => ?_
  rw [ofStatement, hs, headerName_quote h.name]

/-- **An HTTP profile** is read as it was written. -/
theorem HttpProfile.readBack {p : HttpProfile} (h : p.WellFormed) :
    ReadBack "http" (HttpProfile.ofStatement .keep) p p.node := by
  have hbody : ∀ depth, Reads members
      (Unknown.keep.handle ⟨"http", p.name⟩ fun o p => { p with other := p.other ++ [o] }) depth
      (lines (stringsClause "endpoints" p.endpoints ++
        numberClause "listener-clients" p.listenerClients ++
        numberClause "streams-per-connection" p.streamsPerConnection) ++ otherLines p.other)
      ⟨p.name, [], none, none, []⟩ p := by
    intro depth
    exact .append
      (.append_lines
        (.append_lines
          (.strings (fun l (p : HttpProfile) => { p with endpoints := l }) rfl (by decide)
            h.endpoints rfl)
          (.number (fun n (p : HttpProfile) => { p with listenerClients := n }) rfl (by decide)
            h.listenerClients rfl))
        (.number (fun n (p : HttpProfile) => { p with streamsPerConnection := n }) rfl (by decide)
          h.streamsPerConnection rfl))
      (.others (fun l => { p with other := l }) (fun l s => rfl)
        (fun l => by simp [Member.Declines, members]) h.other)
  refine .namedMembers (by decide) h.name (Or.inl rfl) hbody fun s hs => ?_
  rw [ofStatement, hs, headerName_quote h.name]

/-! ## Groups of servers and trust anchors -/

/-- A line of its own says its text. -/
lemma Node.text_said_line {kw v : Text} (hk : IsKeyword kw) (hv : IsTail v) (depth : ℕ) :
    (said depth (.line (kw ++ afterGap v))).text = kw ++ afterGap v := by
  rw [said_line hk hv, Statement.text_ofParts hk hv]

/-- The line of a server is neat and says the server. -/
lemma RemoteServer.line {r : RemoteServer} (h : r.WellFormed) :
    (Node.line r.text).Neat ∧ ∀ depth, (said depth (.line r.text)).text = r.text := by
  obtain ⟨heq, htail⟩ := h.readable.runs.phrase_cons_eq r.address
  have hk := isKeyword_of_isWord h.address
  rw [text_eq, heq]
  exact ⟨.line hk htail, fun depth => text_said_line hk htail depth⟩

/-- **A group of servers** is read as it was written. -/
theorem ServerGroup.readBack {g : ServerGroup} (h : g.WellFormed) :
    ReadBack "remote-servers" ServerGroup.ofStatement g g.node := by
  have hruns : Runs clauses (numberClause "port" g.port) none g.port :=
    .number (fun n _ => n) rfl (by decide) h.port rfl
  have hquotable := isQuotable_of_isClean h.name
  have hname := isToken_quote hquotable
  have hvalue := hruns.isValue_phrase_cons hname
  have htokens := hruns.leads.tokens_phrase_cons hname.isArgument
  obtain ⟨heq, -⟩ := hruns.phrase_cons_eq (quote g.name)
  have hgroups : noGroups (phrase (quote g.name :: numberClause "port" g.port)) = true := by
    refine noGroups_phrase
      (List.forall_mem_cons.mpr ⟨hname.isArgument.isPart, hruns.leads.parts⟩) ?_
    exact List.forall_mem_cons.mpr
      ⟨noGroups_quote hquotable, noGroups_numberClause (by decide) h.port⟩
  have hheader : phrase (namedHeader "remote-servers" g.name [] :: numberClause "port" g.port) =
      "remote-servers" ++ afterGap (phrase (quote g.name :: numberClause "port" g.port)) := by
    rw [afterGap_of_ne_nil hvalue.ne_nil]
    exact phrase_clause_cons "remote-servers" (quote g.name) _
  have hbody : ∀ n ∈ lines (g.servers.map RemoteServer.text), n.Neat := by
    intro n hn
    obtain ⟨t, ht, rfl⟩ := List.mem_map.mp hn
    obtain ⟨r, hr, rfl⟩ := List.mem_map.mp ht
    exact (RemoteServer.line (h.servers r hr)).1
  rw [node, hheader]
  refine .block (isKeyword_of_isWord (by decide)) hvalue.isTail hgroups hbody
    fun depth s hs hchildren => ?_
  have hservers : s.children.mapM (fun child => RemoteServer.read child.text) = pure g.servers := by
    have htexts : s.children.map (·.text) = g.servers.map RemoteServer.text := by
      rw [hchildren, lines, List.map_map, List.map_map, List.map_map]
      exact List.map_congr_left fun r hr => (RemoteServer.line (h.servers r hr)).2 (depth + 1)
    have hmap : s.children.mapM (fun child => RemoteServer.read child.text) =
        (s.children.map (·.text)).mapM RemoteServer.read := by
      rw [List.mapM_map]
      rfl
    rw [hmap, htexts]
    exact mapM_map_eq fun r hr => RemoteServer.read_text (h.servers r hr)
  have hheaderName : s.header.headerName = g.name := by
    rw [hs, heq, headerName_quote h.name]
  rw [ofStatement, hheaderName, hs, htokens, List.drop_one, List.tail_cons, hruns.leads.read_eq,
    pure_bind, hservers, pure_bind]

/-- **Trust anchors** are read as they were written. -/
theorem TrustAnchors.readBack {a : TrustAnchors} (h : a.WellFormed) :
    ReadBack "trust-anchors" TrustAnchors.ofStatement a a.node := by
  have hline : ∀ t ∈ a.items, (Node.line t.text).Neat ∧
      ∀ depth, (said depth (.line t.text)).text = t.text := by
    intro t ht
    have hk := isKeyword_quote (isQuotable_of_isClean (h.items t ht).name)
    have hrecord := (h.items t ht).record
    rw [TrustAnchor.text_eq, ← afterGap_of_ne_nil hrecord.ne_nil]
    exact ⟨.line hk hrecord.isTail, fun depth => text_said_line hk hrecord.isTail depth⟩
  have hbody : ∀ n ∈ lines (a.items.map TrustAnchor.text), n.Neat := by
    intro n hn
    obtain ⟨s, hs, rfl⟩ := List.mem_map.mp hn
    obtain ⟨t, ht, rfl⟩ := List.mem_map.mp hs
    exact (hline t ht).1
  have hitems : ∀ depth, readItems ((lines (a.items.map TrustAnchor.text)).map (said depth)) =
      pure a.items := by
    intro depth
    have hwf := h.items
    generalize a.items = items at hline hwf
    induction items with
    | nil => rfl
    | cons t items ih =>
        have htext := (hline t (List.mem_cons_self ..)).2 depth
        show (TrustAnchor.read? (said depth (.line t.text)).text >>= _) = _
        rw [htext, TrustAnchor.read?_text (hwf t (List.mem_cons_self ..)), pure_bind]
        show (readItems ((lines (items.map TrustAnchor.text)).map (said depth)) >>=
          fun ts => pure (t :: ts)) = _
        rw [ih (fun u hu => hline u (List.mem_cons_of_mem _ hu))
          fun u hu => hwf u (List.mem_cons_of_mem _ hu), pure_bind]
  refine .bareBlock (by decide) hbody fun depth s hchildren => ?_
  rw [ofStatement, hchildren, hitems, pure_bind]

/-! ## Control channels -/

lemma InetChannel.WellFormed.readBack {c : InetChannel} (h : c.WellFormed) :
    ReadBack "inet" (fun s => InetChannel.read s.text) c (.line c.text) := by
  have hk : IsKeyword "inet" := isKeyword_of_isWord (by decide)
  have htail := h.isValue_phrase.isTail
  have htext : c.text = "inet" ++ afterGap (phrase (c.address :: c.clauseTexts)) := by
    rw [text_eq, afterGap_of_ne_nil h.isValue_phrase.ne_nil]
  have hread : InetChannel.read (Statement.ofParts "inet"
      (afterGap (phrase (c.address :: c.clauseTexts)))).text = pure c := by
    rw [Statement.text_ofParts hk htail, ← htext, read_text h]
  rw [htext]
  exact .line hk htail hread

lemma UnixChannel.WellFormed.readBack {c : UnixChannel} (h : c.WellFormed) :
    ReadBack "unix" (fun s => UnixChannel.read s.text) c (.line c.text) := by
  have hk : IsKeyword "unix" := isKeyword_of_isWord (by decide)
  have htail := h.isValue_phrase.isTail
  have htext : c.text = "unix" ++ afterGap (phrase (c.path.quote :: c.clauseTexts)) := by
    rw [text_eq, afterGap_of_ne_nil h.isValue_phrase.ne_nil]
  have hread : UnixChannel.read (Statement.ofParts "unix"
      (afterGap (phrase (c.path.quote :: c.clauseTexts)))).text = pure c := by
    rw [Statement.text_ofParts hk htail, ← htext, read_text h]
  rw [htext]
  exact .line hk htail hread

/-- **Control channels** are read as they were written. -/
theorem Controls.readBack {c : Controls} (h : c.WellFormed) :
    ReadBack "controls" (Controls.ofStatement .keep) c c.node := by
  have hbody : ∀ depth, Reads members
      (Unknown.keep.handle (.only "controls") fun o c => { c with other := c.other ++ [o] }) depth
      (lines (c.inetChannels.map InetChannel.text ++ c.unixChannels.map UnixChannel.text) ++
        otherLines c.other) ⟨[], [], []⟩ c := by
    intro depth
    exact .append
      (.append_lines
        (.eachLine (fun i (c : Controls) => { c with inetChannels := c.inetChannels ++ [i] })
          (fun l => ⟨l, [], []⟩) rfl (fun l i => rfl)
          fun i hi => (h.inetChannels i hi).readBack)
        (.eachLine (fun u (c : Controls) => { c with unixChannels := c.unixChannels ++ [u] })
          (fun l => ⟨c.inetChannels, l, []⟩) rfl (fun l u => rfl)
          fun u hu => (h.unixChannels u hu).readBack))
      (.others (fun l => { c with other := l }) (fun l s => rfl)
        (fun l => by simp [Member.Declines, members]) h.other)
  exact .bareMembers (by decide) hbody fun s => rfl

/-! ## Logging -/

namespace LogChannel

/-- A channel without a destination takes one without a remark. -/
lemma destinationMember_read? {c : LogChannel} (hc : c.destination = .unset) (kw : Text)
    (read : Place → Text → Noted LogDestination) (s : Statement) :
    (destinationMember kw read).read? s c =
      some (read (place c.name) s.value >>= fun d => pure { c with destination := d }) := by
  show some (do
    if c.destination ≠ LogDestination.unset then
      Noted.remark (.secondDestination c.name kw)
    pure { c with destination := ← read (place c.name) s.value }) = _
  rw [hc, if_neg (not_not_intro rfl)]

/-- The member with the keyword of a destination reads it. -/
lemma findSome?_destination {kw : Text} {read : Place → Text → Noted LogDestination}
    (htable : members.filter (·.keyword = kw) = [destinationMember kw read]) {c : LogChannel}
    (hc : c.destination = .unset) {s : Statement} {d : LogDestination}
    (hread : read (place c.name) s.value = pure d) :
    ((members.filter (·.keyword = kw)).findSome? fun m => m.read? s c) =
      some (pure { c with destination := d }) := by
  rw [htable, List.findSome?_singleton, destinationMember_read? hc, hread, pure_bind]

/-- The lines of a destination are read as it. -/
lemma reads_destination {d : LogDestination} (h : d.WellFormed)
    {other : Statement → LogChannel → Noted LogChannel} (depth : ℕ) {c : LogChannel}
    (hc : c.destination = .unset) :
    Reads members other depth (lines d.texts) c { c with destination := d } := by
  cases d with
  | unset =>
      have hself : ({ c with destination := .unset } : LogChannel) = c := by rw [← hc]
      rw [hself]
      exact .nil
  | file f =>
      have hvalue := LogFile.WellFormed.runs h |>.isValue_phrase_cons
        (isToken_quote (isQuotable_of_isClean h.path))
      have hline : f.text = clause "file" (phrase (f.path.quote :: f.clauseTexts)) := by
        rw [LogFile.text_eq, clause_eq]
      rw [LogDestination.texts, hline]
      refine .clause rfl (by decide) hvalue fun s hs => findSome?_destination rfl hc ?_
      rw [hs, LogFile.read_text h, pure_bind]
  | syslog facility =>
      rw [LogDestination.texts]
      split
      next hnil =>
        refine .word rfl (by decide) fun s hs => findSome?_destination rfl hc ?_
        rw [hs, hnil]
        rfl
      next hne =>
        have hbare := isBare_of_isOptionalWord h hne
        refine .clause rfl (by decide) hbare.isValue fun s hs => findSome?_destination rfl hc ?_
        rw [hs, hbare.firstWord_eq]
  | stderr => exact .word rfl (by decide) fun s _ => findSome?_destination rfl hc rfl
  | null => exact .word rfl (by decide) fun s _ => findSome?_destination rfl hc rfl

@[simp] lemma destinationMember_read?_ne_none (kw : Text)
    (read : Place → Text → Noted LogDestination) (s : Statement) (c : LogChannel) :
    ¬ (destinationMember kw read).read? s c = none := Option.some_ne_none _

/-- **A log channel** is read as it was written. -/
theorem readBack {c : LogChannel} (h : c.WellFormed) :
    ReadBack "channel" (LogChannel.ofStatement .keep) c c.node := by
  have hbody : ∀ depth, Reads members
      (Unknown.keep.handle (place c.name) fun o c => { c with other := c.other ++ [o] }) depth
      (lines (c.destination.texts ++ wordClause "severity" c.severity ++
        yesNoClause "print-time" c.printTime ++ yesNoClause "print-category" c.printCategory ++
        yesNoClause "print-severity" c.printSeverity ++ yesNoClause "buffered" c.buffered) ++
        otherLines c.other) ⟨c.name, .unset, [], none, none, none, none, []⟩ c := by
    intro depth
    exact .append
      (.append_lines (.append_lines (.append_lines (.append_lines (.append_lines
        (reads_destination h.destination depth rfl)
        (.value (fun v (c : LogChannel) => { c with severity := v }) rfl (by decide)
          h.severity rfl))
        (.yesNo (fun b (c : LogChannel) => { c with printTime := b }) rfl (by decide) rfl))
        (.yesNo (fun b (c : LogChannel) => { c with printCategory := b }) rfl (by decide) rfl))
        (.yesNo (fun b (c : LogChannel) => { c with printSeverity := b }) rfl (by decide) rfl))
        (.yesNo (fun b (c : LogChannel) => { c with buffered := b }) rfl (by decide) rfl))
      (.others (fun l => { c with other := l }) (fun l s => rfl)
        (fun l => by simp [Member.Declines, members]) h.other)
  refine .namedMembers (by decide) h.name (Or.inl rfl) hbody fun s hs => ?_
  rw [ofStatement, hs, headerName_quote h.name]

end LogChannel

/-- **A category** is read as it was written. -/
theorem LogCategory.readBack {c : LogCategory} (h : c.WellFormed) :
    ReadBack "category" (fun s => pure (LogCategory.ofStatement s)) c c.node := by
  have hquotable := isQuotable_of_isClean h.name
  have hchannels := fun s hs => isQuotable_of_isClean (h.channels s hs)
  have hname := isValue_quoteUnlessBare hquotable
  have hvalues := isValue_of_mem_quotes hchannels
  have hparts := isPart_of_isValue hvalues .value
  have hvalue := (hname.append (isValue_joined hvalues)).isTail
  have hk : IsKeyword "category" := isKeyword_of_isWord (by decide)
  have hnode : c.node = .line ("category" ++
      afterGap (c.name.quoteUnlessBare ++ Byte.space :: joined (c.channels.map quote))) := by
    rw [afterGap_of_ne_nil (by simp)]
    show Node.line (phrase [clause "category" c.name.quoteUnlessBare,
      joined (c.channels.map quote)]) = _
    rw [phrase_clause_cons, phrase_cons_cons]
    rfl
  obtain ⟨hheader, hbody⟩ :=
    Statement.ofParts_joined "category" hname (noGroups_quoteUnlessBare hquotable) hvalues
  have hchannels : readStrings (listText (c.channels.map quote)) = c.channels := by
    have hread := readStrings_ofStrings hchannels
    rw [readStrings, ofStrings, parts_joined hparts] at hread
    rw [readStrings, stripBraces_listText hparts, parts_listText hparts, hread]
  rw [hnode]
  refine .line hk hvalue (congrArg pure ?_)
  rw [ofStatement, hheader, hbody, headerName_quoteUnlessBare h.name, hchannels]

/-- **Channels and categories** are read as they were written. -/
theorem Logging.readBack {l : Logging} (h : l.WellFormed) :
    ReadBack "logging" (Logging.ofStatement .keep) l l.node := by
  have hbody : ∀ depth, Reads (members .keep)
      (Unknown.keep.handle (.only "logging") fun o l => { l with other := l.other ++ [o] }) depth
      (l.channels.map LogChannel.node ++ l.categories.map LogCategory.node ++ otherLines l.other)
      ⟨[], [], []⟩ l := by
    intro depth
    exact .append
      (.append
        (.each (fun c (l : Logging) => { l with channels := l.channels ++ [c] })
          (fun cs => ⟨cs, [], []⟩) rfl (fun cs c => rfl)
          fun c hc => LogChannel.readBack (h.channels c hc))
        (.each (fun c (l : Logging) => { l with categories := l.categories ++ [c] })
          (fun cs => ⟨l.channels, cs, []⟩) rfl (fun cs c => rfl)
          fun c hc => LogCategory.readBack (h.categories c hc)))
      (.others (fun os => { l with other := os }) (fun os s => rfl)
        (fun os => by simp [Member.Declines, members]) h.other)
  exact .bareMembers (by decide) hbody fun s => rfl

/-! ## Options -/

namespace Options

@[simp] lemma listenMember_read?_eq_none (kw : Text) (get : Options → Option Listen)
    (put : Listen → Options → Options) (s : Statement) (o : Options) :
    (listenMember kw get put).read? s o = none ↔ get o ≠ none := by
  simp [listenMember]

section Members

variable {other : Statement → Options → Noted Options} {depth : ℕ} {kw : Text} {o : Options}

/-- What to listen on, if it is said. -/
lemma reads_listen {get : Options → Option Listen} (put : Option Listen → Options → Options)
    (htable : members.filter (·.keyword = kw) = [listenMember kw get fun l => put (some l)])
    (hkw : kw.isWord = true) {l? : Option Listen} (hl : ∀ l ∈ l?, l.WellFormed)
    (hget : get o = none) (habsent : put none o = o) :
    Reads members other depth (lines (listenClause kw l?)) o (put l? o) := by
  cases l? with
  | none =>
      rw [habsent]
      exact .nil
  | some l =>
      refine .clause htable hkw (hl l rfl).isValue_text fun s hs => ?_
      rw [List.findSome?_singleton]
      show (if (get o).isSome then none
        else some (Listen.read s.value >>= fun l => pure (put (some l) o))) = _
      rw [hget, hs, Listen.read_text (hl l rfl), pure_bind]
      rfl

/-- A value of one word, if it is not empty. -/
lemma reads_oneWord (put : Text → Options → Options)
    (htable : members.filter (·.keyword = kw) =
      [.all kw fun s o => oneWord s >>= fun w => pure (put w o)])
    (hkw : kw.isWord = true) {w : Text} (hw : w.isOptionalWord = true) (habsent : put [] o = o) :
    Reads members other depth (lines (wordClause kw w)) o (put w o) := by
  rw [wordClause]
  split
  next h =>
    rw [h, habsent]
    exact .nil
  next h =>
    have hbare := isBare_of_isOptionalWord hw h
    refine .clause htable hkw hbare.isValue fun s hs => ?_
    have hword : oneWord s = pure w := by rw [oneWord, hs, hbare.words_eq]
    rw [List.findSome?_singleton]
    show some (oneWord s >>= fun w => pure (put w o)) = _
    rw [hword, pure_bind]

/-- Rules for the order of records, if there are any. -/
lemma reads_rrsetOrder {rs : List RRsetOrder} (hrs : ∀ r ∈ rs, r.WellFormed)
    (habsent : o.rrsetOrder = []) :
    Reads members other depth
      (lines (if rs = [] then [] else [clause "rrset-order" (RRsetOrder.textOfList rs)])) o
      { o with rrsetOrder := rs } := by
  split
  next h =>
    have hself : ({ o with rrsetOrder := rs } : Options) = o := by rw [h, ← habsent]
    rw [hself]
    exact .nil
  next =>
    have hvalue := isValue_joined (RRsetOrder.isValue_of_mem_texts hrs)
    refine .clause rfl (by decide) hvalue fun s hs => ?_
    show some (RRsetOrder.readList s.value >>=
      fun rs => pure ({ o with rrsetOrder := rs } : Options)) = _
    rw [hs]
    show some (RRsetOrder.readList (RRsetOrder.textOfList rs) >>= _) = _
    rw [RRsetOrder.readList_text hrs, pure_bind]

end Members

/-- **The settings of the server** are read as they were written. -/
theorem readBack {o : Options} (h : o.WellFormed) :
    ReadBack "options" Options.ofStatement o o.node := by
  have hbody : ∀ depth, Reads members
      (fun child o => pure { o with other := o.other ++ [⟨child.keyword, child.value⟩] }) depth
      (lines (nameClause "directory" o.directory ++ yesNoClause "recursion" o.recursion ++
        matchClause "allow-query" o.allowQuery ++ matchClause "allow-transfer" o.allowTransfer ++
        matchClause "allow-update" o.allowUpdate ++ listenClause "listen-on" o.listenOn ++
        listenClause "listen-on-v6" o.listenOnV6 ++ forwardersClause o.forwarders ++
        wordClause "forward" o.forward ++ wordClause "dnssec-validation" o.dnssecValidation ++
        (if o.rrsetOrder = [] then []
         else [clause "rrset-order" (RRsetOrder.textOfList o.rrsetOrder)])) ++
        otherLines o.other) empty o := by
    intro depth
    exact .append
      (.append_lines (.append_lines (.append_lines (.append_lines (.append_lines (.append_lines
        (.append_lines (.append_lines (.append_lines (.append_lines
        (.string (fun t (o : Options) => { o with directory := t }) rfl (by decide) h.directory rfl)
        (.yesNo (fun b (o : Options) => { o with recursion := b }) rfl (by decide) rfl))
        (.matchList (fun ts (o : Options) => { o with allowQuery := ts }) rfl (by decide)
          h.allowQuery rfl))
        (.matchList (fun ts (o : Options) => { o with allowTransfer := ts }) rfl (by decide)
          h.allowTransfer rfl))
        (.matchList (fun ts (o : Options) => { o with allowUpdate := ts }) rfl (by decide)
          h.allowUpdate rfl))
        (reads_listen (fun l (o : Options) => { o with listenOn := l }) rfl (by decide)
          h.listenOn rfl rfl))
        (reads_listen (fun l (o : Options) => { o with listenOnV6 := l }) rfl (by decide)
          h.listenOnV6 rfl rfl))
        (.forwarders (fun fs (o : Options) => { o with forwarders := fs }) rfl h.forwarders rfl))
        (reads_oneWord (fun w (o : Options) => { o with forward := w }) rfl (by decide)
          h.forward rfl))
        (reads_oneWord (fun w (o : Options) => { o with dnssecValidation := w }) rfl (by decide)
          h.dnssecValidation rfl))
        (reads_rrsetOrder h.rrsetOrder rfl))
      (.others (fun l => { o with other := l }) (fun l s => rfl)
        (fun l => by simp [Member.Declines, members]) h.other)
  exact .bareMembers (by decide) hbody fun s => rfl

end Options

/-! ## Zones -/

/-- The word for a type stands for it. -/
lemma ZoneType.ofWord?_firstWord (t : ZoneType) :
    IsValue t.word ∧ ofWord? (firstWord t.word) = some t := by
  have hbare : IsBare t.word := by
    refine isBare_of_isWord ?_
    cases t <;> decide
  rw [hbare.firstWord_eq]
  refine ⟨hbare.isValue, ?_⟩
  cases t <;> rfl

/-- What begins a name, bare or between quotation marks, is no brace. -/
lemma Member.isBraced_quoteUnlessBare (name : Text) : isBraced name.quoteUnlessBare = false := by
  rw [quoteUnlessBare]
  split
  next hbare =>
    rw [isBraced, decide_eq_false_iff_not]
    intro hhead
    have hbrace := (isBare_of_isBareName hbare).bytes _ (List.mem_of_mem_head? hhead)
    exact absurd hbrace (by decide)
  next => rfl

/-- **The name of a group** is read as it was written exactly if there is no brace in it and no gap,
    for the value is refused if there is a brace in it, and cut behind its first word. -/
lemma Primaries.groupName?_quoteUnlessBare {name : Text} (h : name.isClean = true) :
    groupName? name.quoteUnlessBare = some name ↔
      ∀ b ∈ name, isWordGap b = false ∧ b ≠ Byte.openBrace := by
  have hquotable := isQuotable_of_isClean h
  have hne := (isValue_quoteUnlessBare hquotable).ne_nil
  have hmem : ∀ b ∈ name, b ∈ name.quoteUnlessBare := by
    intro b hb
    rw [quoteUnlessBare]
    split
    · exact hb
    · simp [quote, hb]
  rw [groupName?]
  constructor
  · intro hread b hb
    split at hread
    next hvalue =>
      refine ⟨?_, fun hbrace => hvalue.2 (hbrace ▸ hmem b hb)⟩
      obtain hname := Option.some.inj hread
      exact isWordGap_of_mem_firstWord (mem_of_mem_unquote (hname.symm ▸ hb))
    next => cases hread
  · intro hbytes
    have hbrace : Byte.openBrace ∉ name.quoteUnlessBare := by
      intro hbrace
      rw [quoteUnlessBare] at hbrace
      split at hbrace
      next => exact (hbytes _ hbrace).2 rfl
      next =>
        have hquote : Byte.openBrace ∈ name := by simpa [quote, Byte.openBrace, Byte.quote] using hbrace
        exact (hbytes _ hquote).2 rfl
    have hword : firstWord name.quoteUnlessBare = name.quoteUnlessBare := by
      rw [quoteUnlessBare]
      split
      next hbare => exact (isBare_of_isBareName hbare).firstWord_eq
      next => rw [firstWord, words_quote fun b hb => (hbytes b hb).1]; rfl
    rw [if_pos ⟨hne, hbrace⟩, hword, unquote_quoteUnlessBare hquotable]

namespace Zone

/-- The lines of a zone, each setting that may be absent as a list of at most one. -/
lemma node_eq (z : Zone) : z.node = .block (namedHeader "zone" z.name z.zclass)
    (lines
      (z.type.toList.map (fun t => clause "type" t.word) ++ nameClause "file" z.file ++
        z.primaries.texts ++ forwardersClause z.forwarders ++ wordClause "forward" z.forward ++
        matchClause "allow-update" z.allowUpdate ++ matchClause "allow-transfer" z.allowTransfer ++
        z.alsoNotify.toList.map
          (fun rs => clause "also-notify" (RemoteServer.textOfList rs)) ++
        (if z.dnssecPolicy = [] then []
         else [clause "dnssec-policy" z.dnssecPolicy.quoteUnlessBare])) ++
      otherLines z.other) := by
  rw [node]
  cases z.type <;> cases z.alsoNotify <;> rfl

section Members

variable {other : Statement → Zone → Noted Zone} {depth : ℕ} {z : Zone}

/-- The type, if it is said. -/
lemma reads_type {t? : Option ZoneType} (habsent : z.type = none) :
    Reads members other depth (lines (t?.toList.map fun t => clause "type" t.word)) z
      { z with type := t? } :=
  .optional ZoneType.word (fun v => ZoneType.ofWord? v.firstWord)
    (fun t (z : Zone) => { z with type := t }) rfl (by decide)
    (fun t _ => ZoneType.ofWord?_firstWord t) (by rw [← habsent])

/-- The primaries are servers if the value begins with a brace, and else a group. -/
lemma findSome?_primaries
    (htable : members.filter (·.keyword = ("primaries" : Text)) =
      [.braced "primaries" RemoteServer.readList fun rs z => { z with primaries := .servers rs },
        .value? "primaries" Primaries.groupName? fun t z => { z with primaries := .group t }])
    (s : Statement) :
    ((members.filter (·.keyword = ("primaries" : Text))).findSome? fun m => m.read? s z) =
      (if Member.isBraced s.value then
        some (RemoteServer.readList s.value >>= fun rs => pure { z with primaries := .servers rs })
      else (Primaries.groupName? s.value).map fun t => pure { z with primaries := .group t }) := by
  rw [htable, List.findSome?_cons, List.findSome?_singleton]
  have hservers : (Member.braced "primaries" RemoteServer.readList
      fun rs z => { z with primaries := .servers rs }).read? s z =
      if Member.isBraced s.value then
        some (RemoteServer.readList s.value >>= fun rs => pure { z with primaries := .servers rs })
      else none := rfl
  rw [hservers]
  split_ifs <;> rfl

/-- The primaries are read as the group or the servers that they are. -/
lemma reads_primaries {p : Primaries} (h : p.WellFormed) (habsent : z.primaries = .unset) :
    Reads members other depth (lines p.texts) z { z with primaries := p } := by
  cases p with
  | unset =>
      have hself : ({ z with primaries := .unset } : Zone) = z := by rw [← habsent]
      rw [hself]
      exact .nil
  | group name =>
      obtain ⟨hclean, hbytes⟩ := isName_iff.mp h
      have hname := (Primaries.groupName?_quoteUnlessBare hclean).mpr fun b hb =>
        ⟨isWordGap_of_isName h b hb, (hbytes b hb).2.1⟩
      have hvalue := isValue_quoteUnlessBare (isQuotable_of_isClean hclean)
      refine .clause rfl (by decide) hvalue fun s hs => ?_
      rw [findSome?_primaries rfl, hs, Member.isBraced_quoteUnlessBare, hname]
      rfl
  | servers rs =>
      refine .clause rfl (by decide) (isValue_joined (RemoteServer.isValue_of_mem_texts h))
        fun s hs => ?_
      have hbraced : Member.isBraced (RemoteServer.textOfList rs) = true := rfl
      rw [findSome?_primaries rfl, hs]
      rw [if_pos hbraced, RemoteServer.readList_text h, pure_bind]

/-- The word for when to forward, if there is one. -/
lemma reads_forward {w : Text} (hw : w.isOptionalWord = true) (habsent : z.forward = []) :
    Reads members other depth (lines (wordClause "forward" w)) z { z with forward := w } := by
  rw [wordClause]
  split
  next h =>
    have hself : ({ z with forward := w } : Zone) = z := by rw [h, ← habsent]
    rw [hself]
    exact .nil
  next h =>
    have hbare := isBare_of_isOptionalWord hw h
    refine .clause rfl (by decide) hbare.isValue fun s hs => ?_
    show some (pure { z with forward := s.value.firstWord }) = _
    rw [hs, hbare.firstWord_eq]

/-- The servers to notify, if there is a list of them. -/
lemma reads_alsoNotify {rs? : Option (List RemoteServer)}
    (h : ∀ rs ∈ rs?, ∀ r ∈ rs, r.WellFormed) (habsent : z.alsoNotify = none) :
    Reads members other depth
      (lines (rs?.toList.map fun rs => clause "also-notify" (RemoteServer.textOfList rs))) z
      { z with alsoNotify := rs? } :=
  .braced RemoteServer.textOfList RemoteServer.readList
    (fun rs (z : Zone) => { z with alsoNotify := rs }) rfl (by decide)
    (fun rs hrs => ⟨isValue_joined (RemoteServer.isValue_of_mem_texts (h rs hrs)), rfl,
      RemoteServer.readList_text (h rs hrs)⟩) (by rw [← habsent])

/-- The name of a policy, if it is not empty. -/
lemma reads_dnssecPolicy {policy : Text} (h : policy.isClean = true)
    (habsent : z.dnssecPolicy = []) :
    Reads members other depth
      (lines (if policy = [] then [] else [clause "dnssec-policy" policy.quoteUnlessBare])) z
      { z with dnssecPolicy := policy } := by
  split
  next hnil =>
    have hself : ({ z with dnssecPolicy := policy } : Zone) = z := by rw [hnil, ← habsent]
    rw [hself]
    exact .nil
  next =>
    have hquotable := isQuotable_of_isClean h
    refine .clause rfl (by decide) (isValue_quoteUnlessBare hquotable) fun s hs => ?_
    show some (pure { z with dnssecPolicy := s.value.unquote }) = _
    rw [hs, unquote_quoteUnlessBare hquotable]

end Members

/-- **A zone** is read as it was written. -/
theorem readBack {z : Zone} (h : z.WellFormed) :
    ReadBack "zone" (Zone.ofStatement .keep) z z.node := by
  have hbody : ∀ depth, Reads members
      (Unknown.keep.handle ⟨"zone", z.name⟩ fun o z => { z with other := z.other ++ [o] }) depth
      (lines
        (z.type.toList.map (fun t => clause "type" t.word) ++ nameClause "file" z.file ++
          z.primaries.texts ++ forwardersClause z.forwarders ++ wordClause "forward" z.forward ++
          matchClause "allow-update" z.allowUpdate ++ matchClause "allow-transfer" z.allowTransfer ++
          z.alsoNotify.toList.map
            (fun rs => clause "also-notify" (RemoteServer.textOfList rs)) ++
          (if z.dnssecPolicy = [] then []
           else [clause "dnssec-policy" z.dnssecPolicy.quoteUnlessBare])) ++
        otherLines z.other) { empty z.name with zclass := z.zclass } z := by
    intro depth
    exact .append
      (.append_lines (.append_lines (.append_lines (.append_lines (.append_lines (.append_lines
        (.append_lines (.append_lines
        (reads_type rfl)
        (.string (fun t (z : Zone) => { z with file := t }) rfl (by decide) h.file rfl))
        (reads_primaries h.primaries rfl))
        (.forwarders (fun fs (z : Zone) => { z with forwarders := fs }) rfl h.forwarders rfl))
        (reads_forward h.forward rfl))
        (.matchList (fun ts (z : Zone) => { z with allowUpdate := ts }) rfl (by decide)
          h.allowUpdate rfl))
        (.matchList (fun ts (z : Zone) => { z with allowTransfer := ts }) rfl (by decide)
          h.allowTransfer rfl))
        (reads_alsoNotify h.alsoNotify rfl))
        (reads_dnssecPolicy h.dnssecPolicy rfl))
      (.others (fun l => { z with other := l }) (fun l s => rfl)
        (fun l => by simp [Member.Declines, members]) h.other)
  rw [node_eq]
  have hname := (isName_iff.mp h.name).1
  refine .namedMembers (by decide) hname (isBare_of_isOptionalClass h.zclass) hbody fun s hs => ?_
  have hclass : z.zclass = [] ∨ z.zclass.isClassWord = true := by
    simpa [isOptionalClass] using h.zclass
  rw [ofStatement, hs, headerName_quote hname, headerClass_quote h.name hclass]

end Zone

/-! ## Views -/

namespace View

/-- The statements of a view, the trust anchors as a list of at most one. -/
lemma node_eq (v : View) : v.node = .block (namedHeader "view" v.name v.vclass)
    (lines
      (matchClause "match-clients" v.matchClients ++
        matchClause "match-destinations" v.matchDestinations ++
        yesNoClause "recursion" v.recursion) ++
      v.trustAnchors.toList.map TrustAnchors.node ++ v.includes.map Include.node ++
      v.zones.map Zone.node ++ otherLines v.other) := by
  rw [node]
  cases v.trustAnchors <;> rfl

/-- The trust anchors of a view, if it has any. -/
lemma reads_trustAnchors {other : Statement → View → Noted View} {depth : ℕ} {v : View}
    {a? : Option TrustAnchors} (h : ∀ a ∈ a?, a.WellFormed) (habsent : v.trustAnchors = none) :
    Reads (members .keep) other depth (a?.toList.map TrustAnchors.node) v
      { v with trustAnchors := a? } := by
  cases a? with
  | none =>
      have hself : ({ v with trustAnchors := none } : View) = v := by rw [← habsent]
      rw [hself]
      exact .nil
  | some a =>
      have ha := TrustAnchors.readBack (h a rfl)
      refine .one ha.neat ?_
      rw [Member.take?_eq rfl (ha.keyword depth)]
      show some (TrustAnchors.ofStatement (said depth a.node) >>=
        fun a => pure { v with trustAnchors := some a }) = _
      rw [ha.read_eq, pure_bind]

/-- **A view** is read as it was written. -/
theorem readBack {v : View} (h : v.WellFormed) :
    ReadBack "view" (View.ofStatement .keep) v v.node := by
  have hbody : ∀ depth, Reads (members .keep)
      (Unknown.keep.handle ⟨"view", v.name⟩ fun o v => { v with other := v.other ++ [o] }) depth
      (lines
        (matchClause "match-clients" v.matchClients ++
          matchClause "match-destinations" v.matchDestinations ++
          yesNoClause "recursion" v.recursion) ++
        v.trustAnchors.toList.map TrustAnchors.node ++ v.includes.map Include.node ++
        v.zones.map Zone.node ++ otherLines v.other)
      { empty v.name with vclass := v.vclass } v := by
    intro depth
    exact .append (.append (.append (.append
      (.append_lines (.append_lines
        (.matchList (fun ts (v : View) => { v with matchClients := ts }) rfl (by decide)
          h.matchClients rfl)
        (.matchList (fun ts (v : View) => { v with matchDestinations := ts }) rfl (by decide)
          h.matchDestinations rfl))
        (.yesNo (fun b (v : View) => { v with recursion := b }) rfl (by decide) rfl))
      (reads_trustAnchors h.trustAnchors rfl))
      (.each (fun i (v : View) => { v with includes := v.includes ++ [i] })
        (fun l => { v with zones := [], includes := l, other := [] }) rfl (fun l i => rfl)
        fun i hi => Include.readBack (h.includes i hi)))
      (.each (fun z (v : View) => { v with zones := v.zones ++ [z] })
        (fun l => { v with zones := l, other := [] }) rfl (fun l z => rfl)
        fun z hz => Zone.readBack (h.zones z hz)))
      (.others (fun l => { v with other := l }) (fun l s => rfl)
        (fun l => by simp [Member.Declines, members]) h.other)
  rw [node_eq]
  have hname := (isName_iff.mp h.name).1
  refine .namedMembers (by decide) hname (isBare_of_isOptionalClass h.vclass) hbody fun s hs => ?_
  have hclass : v.vclass = [] ∨ v.vclass.isClassWord = true := by
    simpa [isOptionalClass] using h.vclass
  rw [ofStatement, hs, headerName_quote hname, headerClass_quote h.name hclass]

end View

end NameServerConf
