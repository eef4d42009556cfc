import NameServerConf.Proofs.MatchLists

/-!
# Values with match lists

What to listen on and who may use a control channel is read as it was written, whatever the order of the
clauses.  All that is asked of a match list in it is that it comes back by itself.
-/

namespace NameServerConf

open Text

/-! ## What stands before a group -/

namespace Text

lemma noGroups_append_space {s : Text} (hs : IsPart .value s) (t : Text) :
    noGroups (s ++ Byte.space :: t) = (noGroups s && noGroups t) := by
  rw [noGroups, hs.items_append (startsSoft_space t), items_cons_of_single rfl,
    List.all_append, List.all_cons, noGroups, noGroups]
  rfl

lemma noGroups_phrase {l : List Text} (h : ∀ s ∈ l, IsPart .value s)
    (hg : ∀ s ∈ l, noGroups s = true) : noGroups (phrase l) = true := by
  induction l with
  | nil => rw [phrase, join, noGroups, items_nil]; rfl
  | cons s l ih =>
      have ih := ih (fun t ht => h t (List.mem_cons_of_mem _ ht))
        fun t ht => hg t (List.mem_cons_of_mem _ ht)
      cases l with
      | nil => exact hg s (List.mem_cons_self ..)
      | cons t l =>
          rw [phrase_cons_cons, noGroups_append_space (h s (List.mem_cons_self ..)), ih,
            hg s (List.mem_cons_self ..)]
          rfl

lemma noGroups_clause {kw arg : Text} (hkw : kw.isWord = true) (harg : noGroups arg = true) :
    noGroups (clause kw arg) = true := by
  have hkw := isBare_of_isWord hkw
  rw [clause_eq, noGroups_append_space (hkw.isValue.isPart .value), hkw.noGroups_eq, harg]
  rfl

lemma noGroups_numberClause {kw : Text} (hkw : kw.isWord = true) {n? : Option ℤ}
    (hn : fitsInt32 n? = true) : ∀ s ∈ numberClause kw n?, noGroups s = true := by
  cases n? with
  | none => exact fun s hs => absurd hs List.not_mem_nil
  | some n =>
      intro s hs
      rw [List.mem_singleton.mp hs]
      exact noGroups_clause hkw (readInt?_ofInt (n := n) hn).1.noGroups_eq

lemma noGroups_nameClause {kw name : Text} (hkw : kw.isWord = true)
    (hname : name.isQuotable = true) : ∀ s ∈ nameClause kw name, noGroups s = true := by
  intro s hs
  rw [nameClause] at hs
  split at hs
  · cases hs
  · rw [List.mem_singleton.mp hs]
    exact noGroups_clause hkw (noGroups_quote hname)

lemma phrase_concat {l : List Text} (hne : l ≠ []) (s : Text) :
    phrase (l ++ [s]) = phrase l ++ Byte.space :: s := by
  induction l with
  | nil => exact absurd rfl hne
  | cons t l ih =>
      cases l with
      | nil => exact phrase_cons_cons t s []
      | cons u l =>
          rw [List.cons_append, List.cons_append, phrase_cons_cons, phrase_cons_cons,
            ← List.cons_append, ih (List.cons_ne_nil u l), List.append_assoc, List.cons_append]

/-- A list in braces is split off from the parts of the phrase before it. -/
lemma splitAtGroup_phrase {l : List Text} (h : ∀ s ∈ l, IsPart .value s)
    (hg : ∀ s ∈ l, noGroups s = true) (list : List Text) :
    (splitAtGroup (phrase (l ++ [joined list]))).1.tokens = l.flatMap tokens ∧
      (splitAtGroup (phrase (l ++ [joined list]))).2 = joined list := by
  by_cases hne : l = []
  · subst hne
    show (splitAtGroup (joined list)).1.tokens = [] ∧ (splitAtGroup (joined list)).2 = joined list
    rw [splitAtGroup_joined]
    exact ⟨tokens_nil, rfl⟩
  · have hpart := isPart_phrase hne h
    rw [phrase_concat hne, splitAtGroup_append hpart (noGroups_phrase h hg)]
    refine ⟨?_, rfl⟩
    show tokens (phrase l ++ [Byte.space]) = _
    rw [tokens_append_space hpart, tokens_nil, List.append_nil, tokens_phrase h]

/-- A text that is one group in braces is one argument. -/
lemma isArgument_of_items {s inner : Text} (h : items .value s = [.group inner true]) :
    IsArgument s := by
  have htext : Byte.openBrace :: inner ++ [Byte.closeBrace] = s := by
    have htext := ofItems_items .value s
    rwa [h, ofItems_cons, ofItems_nil, List.append_nil] at htext
  refine ⟨⟨?_, rfl, ?_, ?_, ?_⟩, ?_⟩
  · rw [← htext]
    exact List.cons_ne_nil _ _
  · rw [h]
    rfl
  · rw [← htext]
    exact fun b hb => Option.some.inj hb ▸ rfl
  · rw [← htext, List.getLast?_concat]
    exact fun b hb => Option.some.inj hb ▸ rfl
  · rw [tokens, h, tokensOf, if_neg (by simp [Item.isByte]),
      if_neg (by simp [isWordItem, Item.isByte]), tokensOf]
    exact congrArg (fun t => [t]) htext

end Text

/-! ## Where to listen -/

namespace Listen

variable {l : Listen}

/-- What makes the value come back when it is read. -/
structure Readable (l : Listen) : Prop where
  port : fitsInt32 l.port = true
  tls : l.tls.isQuotable = true
  http : l.http.isQuotable = true
  addrs : MatchTerm.readList (MatchTerm.textOfList l.addrs) = pure l.addrs

lemma WellFormed.readable (h : l.WellFormed) : l.Readable :=
  ⟨h.port, isQuotable_of_isClean h.tls, isQuotable_of_isClean h.http,
    MatchTerm.readList_textOfList_of_areWellFormed h.addrs⟩

/-- What stands before the addresses. -/
def clauseTexts (l : Listen) : List Text :=
  numberClause "port" l.port ++ nameClause "tls" l.tls ++ nameClause "http" l.http

/-- The text says where to listen, with the clauses before the addresses in some order. -/
def IsWriting (l : Listen) (s : Text) : Prop :=
  IsReordering [] l.clauseTexts [MatchTerm.textOfList l.addrs] s

lemma isWriting_text (l : Listen) : l.IsWriting l.text := ⟨_, .refl _, rfl⟩

lemma unordered_clauses : Unordered clauses := by
  simp only [Unordered, clauses, List.pairwise_cons, List.forall_mem_cons, List.not_mem_nil,
    IsEmpty.forall_iff, implies_true, List.Pairwise.nil, and_true]
  refine ⟨⟨?_, ?_⟩, ?_⟩ <;> exact ⟨by decide, fun _ _ _ => rfl⟩

lemma Readable.runs (h : l.Readable) : Runs clauses l.clauseTexts ⟨none, [], [], l.addrs⟩ l :=
  Runs.append
    (Runs.append
      (Runs.number (fun n (l : Listen) => { l with port := n }) rfl (by decide) h.port rfl)
      (Runs.name (fun s (l : Listen) => { l with tls := s }) rfl (by decide) h.tls rfl))
    (Runs.name (fun s (l : Listen) => { l with http := s }) rfl (by decide) h.http rfl)

lemma Readable.follows (h : l.Readable) : Follows clauses l.clauseTexts := by
  rw [clauseTexts, List.append_assoc]
  exact .cons (.number (by decide) h.port)
    (.cons (.name (by decide) h.tls) (.name (by decide) h.http))

lemma WellFormed.isValue_text (h : l.WellFormed) : IsValue l.text := by
  refine isValue_phrase (List.append_ne_nil_of_right_ne_nil _ (List.cons_ne_nil _ _)) fun s hs => ?_
  rcases List.mem_append.mp hs with hs | hs
  · exact h.readable.runs.values s hs
  · rw [List.mem_singleton.mp hs]
    exact (MatchTerm.isToken_textOfList h.addrs).isValue

lemma Readable.noGroups (h : l.Readable) : ∀ s ∈ l.clauseTexts, noGroups s = true := by
  intro s hs
  rcases List.mem_append.mp hs with hs | hs
  · rcases List.mem_append.mp hs with hs | hs
    · exact noGroups_numberClause (by decide) h.port s hs
    · exact noGroups_nameClause (by decide) h.tls s hs
  · exact noGroups_nameClause (by decide) h.http s hs

/-- What to listen on is read as it was written, whatever the order of the clauses. -/
theorem read_of_isWriting (h : l.Readable) {s : Text} (hs : l.IsWriting s) : read s = pure l := by
  obtain ⟨m, hm, rfl⟩ := hs
  have hleads := h.runs.leads.anyOrder h.follows unordered_clauses m hm
  obtain ⟨htokens, hgroup⟩ := splitAtGroup_phrase hleads.parts
    (fun s hs => h.noGroups s (hm.mem_iff.mp hs)) (MatchTerm.texts l.addrs)
  rw [List.nil_append, MatchTerm.textOfList, read, hgroup, htokens, ← MatchTerm.textOfList, h.addrs,
    pure_bind]
  exact hleads.read_eq _

/-- **What to listen on** is read as it was written. -/
theorem read_text (h : l.WellFormed) : read l.text = pure l :=
  read_of_isWriting h.readable l.isWriting_text

end Listen

/-! ## Control channels -/

/-- The word that a channel begins with is passed over. -/
lemma channelTokens_eq {kind s : Text} {l : List Text} (h : s.tokens = kind :: l) :
    channelTokens kind s = l := by
  rw [channelTokens, h]
  exact if_pos rfl

/-- What follows that word is what the channel is made of. -/
lemma channelTokens_reordering {α : Type} {table : List (Clause α)} {kind x s : Text} {l : List Text}
    {a b : α} (hkind : kind.isWord = true) (hx : IsArgument x) (h : LeadsInAnyOrder table l a b)
    (hs : IsReordering [clause kind x] l [] s) : ∃ rest, channelTokens kind s = x :: rest ∧
      ∀ stray, readClauses table stray rest a = pure b := by
  obtain ⟨m, hm, rfl⟩ := hs
  have hkind := isBare_of_isWord hkind
  have hleads := h m hm
  refine ⟨m.flatMap tokens, channelTokens_eq ?_, hleads.read_eq⟩
  show tokens (phrase (clause kind x :: m ++ [])) = _
  rw [List.append_nil, phrase_clause_cons, tokens_append_space (hkind.isValue.isPart .value),
    hkind.isToken.tokens_eq, hleads.tokens_phrase_cons hx]
  rfl

namespace InetChannel

variable {c : InetChannel}

/-- What makes a channel over the network come back when it is read. -/
structure Readable (c : InetChannel) : Prop where
  address : c.address.isCompact = true
  port : fitsInt32 c.port = true
  allow : MatchTerm.readList (MatchTerm.textOfList c.allow) = pure c.allow
  keys : ∀ k ∈ c.keys, k.isQuotable = true

lemma WellFormed.readable (h : c.WellFormed) : c.Readable :=
  ⟨(isBare_of_isWord h.address).isCompact, h.port,
    MatchTerm.readList_textOfList_of_areWellFormed h.allow,
    fun k hk => isQuotable_of_isClean (h.keys k hk)⟩

/-- What follows the address. -/
def clauseTexts (c : InetChannel) : List Text :=
  numberClause "port" c.port ++ [clause "allow" (MatchTerm.textOfList c.allow)] ++
    (if c.keys = [] then [] else [clause "keys" (ofStrings c.keys)]) ++
    yesNoClause "read-only" c.readOnly

lemma text_eq (c : InetChannel) :
    c.text = "inet" ++ Byte.space :: phrase (c.address :: c.clauseTexts) :=
  phrase_clause_cons "inet" c.address c.clauseTexts

/-- The text says what the channel is, with the clauses in some order. -/
def IsWriting (c : InetChannel) (s : Text) : Prop :=
  IsReordering [clause "inet" c.address] c.clauseTexts [] s

lemma isWriting_text (c : InetChannel) : c.IsWriting c.text :=
  ⟨_, .refl _, by rw [List.append_nil]; rfl⟩

lemma unordered_clauses : Unordered clauses := by
  simp only [Unordered, clauses, List.pairwise_cons, List.forall_mem_cons, List.not_mem_nil,
    IsEmpty.forall_iff, implies_true, List.Pairwise.nil, and_true]
  refine ⟨⟨?_, ?_, ?_⟩, ⟨?_, ?_⟩, ?_⟩ <;>
    exact ⟨by decide, fun _ _ _ => by simp only [pure_bind, bind_assoc]⟩

lemma Readable.isArgument_allow (h : c.Readable) : IsArgument (MatchTerm.textOfList c.allow) := by
  obtain ⟨inner, hitems⟩ := MatchTerm.exists_items_textOfList h.allow
  exact isArgument_of_items hitems

lemma Readable.leads (h : c.Readable) :
    Leads clauses c.clauseTexts ⟨c.address, none, [], [], none⟩ c :=
  Leads.append
    (Leads.append
      (Leads.append
        (Runs.number (fun n (c : InetChannel) => { c with port := n }) rfl (by decide) h.port
          rfl).leads
        (Leads.clause rfl (by decide) h.isArgument_allow
          (congrArg (· >>= fun ts => pure (⟨c.address, c.port, ts, [], none⟩ : InetChannel))
            h.allow)))
      (Runs.strings (fun l (c : InetChannel) => { c with keys := l }) rfl (by decide) h.keys
        rfl).leads)
    (Runs.yesNo (fun b (c : InetChannel) => { c with readOnly := b }) rfl (by decide) rfl).leads

lemma Readable.follows (h : c.Readable) : Follows clauses c.clauseTexts := by
  rw [clauseTexts, List.append_assoc, List.append_assoc]
  exact .cons (.number (by decide) h.port) (.cons (.single (by decide) h.isArgument_allow)
    (.cons (.strings (by decide) h.keys) (.yesNo (by decide) c.readOnly)))

/-- Where match lists are values, so are the clauses. -/
lemma WellFormed.runs (h : c.WellFormed) :
    Runs clauses c.clauseTexts ⟨c.address, none, [], [], none⟩ c :=
  Runs.append
    (Runs.append
      (Runs.append
        (Runs.number (fun n (c : InetChannel) => { c with port := n }) rfl (by decide) h.port rfl)
        (Runs.clause rfl (by decide) (MatchTerm.isToken_textOfList h.allow)
          (congrArg (· >>= fun ts => pure (⟨c.address, c.port, ts, [], none⟩ : InetChannel))
            h.readable.allow)))
      (Runs.strings (fun l (c : InetChannel) => { c with keys := l }) rfl (by decide)
        h.readable.keys rfl))
    (Runs.yesNo (fun b (c : InetChannel) => { c with readOnly := b }) rfl (by decide) rfl)

lemma WellFormed.isValue_phrase (h : c.WellFormed) : IsValue (phrase (c.address :: c.clauseTexts)) :=
  h.runs.isValue_phrase_cons (isBare_of_isWord h.address).isToken

/-- A control channel over the network is read as it was written, whatever the order of its clauses. -/
theorem read_of_isWriting (h : c.Readable) {s : Text} (hs : c.IsWriting s) : read s = pure c := by
  obtain ⟨rest, htokens, hread⟩ := channelTokens_reordering (by decide)
    (isArgument_of_isCompact h.address) (h.leads.anyOrder h.follows unordered_clauses) hs
  rw [read, htokens]
  exact hread _

/-- **A control channel over the network** is read as it was written. -/
theorem read_text (h : c.WellFormed) : read c.text = pure c :=
  read_of_isWriting h.readable c.isWriting_text

end InetChannel

namespace UnixChannel

variable {c : UnixChannel}

/-- What makes a channel over a socket come back when it is read. -/
structure Readable (c : UnixChannel) : Prop where
  path : c.path.isQuotable = true
  perm : Text.inInt32 c.perm = true
  owner : Text.inInt32 c.owner = true
  group : Text.inInt32 c.group = true
  keys : ∀ k ∈ c.keys, k.isQuotable = true

lemma WellFormed.readable (h : c.WellFormed) : c.Readable :=
  ⟨isQuotable_of_isClean h.path, h.perm, h.owner, h.group,
    fun k hk => isQuotable_of_isClean (h.keys k hk)⟩

/-- What follows the path. -/
def clauseTexts (c : UnixChannel) : List Text :=
  [clause "perm" (ofIntPadded 4 c.perm), clause "owner" (ofInt c.owner),
    clause "group" (ofInt c.group)] ++
    (if c.keys = [] then [] else [clause "keys" (ofStrings c.keys)]) ++
    yesNoClause "read-only" c.readOnly

lemma text_eq (c : UnixChannel) :
    c.text = "unix" ++ Byte.space :: phrase (c.path.quote :: c.clauseTexts) :=
  phrase_clause_cons "unix" c.path.quote c.clauseTexts

/-- The text says what the channel is, with the clauses in some order. -/
def IsWriting (c : UnixChannel) (s : Text) : Prop :=
  IsReordering [clause "unix" c.path.quote] c.clauseTexts [] s

lemma isWriting_text (c : UnixChannel) : c.IsWriting c.text :=
  ⟨_, .refl _, by rw [List.append_nil]; rfl⟩

lemma unordered_clauses : Unordered clauses := by
  simp only [Unordered, clauses, List.pairwise_cons, List.forall_mem_cons, List.not_mem_nil,
    IsEmpty.forall_iff, implies_true, List.Pairwise.nil, and_true]
  refine ⟨⟨?_, ?_, ?_, ?_⟩, ⟨?_, ?_, ?_⟩, ⟨?_, ?_⟩, ?_⟩ <;> exact ⟨by decide, fun _ _ _ => rfl⟩

lemma Readable.runs (h : c.Readable) :
    Runs clauses c.clauseTexts ⟨c.path, 0, 0, 0, [], none⟩ c := by
  obtain ⟨hpermBare, hperm⟩ := readInt?_ofIntPadded 4 h.perm
  obtain ⟨hownerBare, howner⟩ := readInt?_ofInt h.owner
  obtain ⟨hgroupBare, hgroup⟩ := readInt?_ofInt h.group
  have hnumbers : Runs clauses
      ([clause "perm" (ofIntPadded 4 c.perm)] ++ [clause "owner" (ofInt c.owner)] ++
        [clause "group" (ofInt c.group)])
      ⟨c.path, 0, 0, 0, [], none⟩ ⟨c.path, c.perm, c.owner, c.group, [], none⟩ :=
    Runs.append
      (Runs.append
        (Runs.clause rfl (by decide) hpermBare.isToken
          (congrArg (fun n? => pure (⟨c.path, n?.getD 0, 0, 0, [], none⟩ : UnixChannel)) hperm))
        (Runs.clause rfl (by decide) hownerBare.isToken
          (congrArg (fun n? => pure (⟨c.path, c.perm, n?.getD 0, 0, [], none⟩ : UnixChannel)) howner)))
      (Runs.clause rfl (by decide) hgroupBare.isToken
        (congrArg (fun n? => pure (⟨c.path, c.perm, c.owner, n?.getD 0, [], none⟩ : UnixChannel))
          hgroup))
  exact Runs.append
    (Runs.append hnumbers
      (Runs.strings (fun l (c : UnixChannel) => { c with keys := l }) rfl (by decide) h.keys rfl))
    (Runs.yesNo (fun b (c : UnixChannel) => { c with readOnly := b }) rfl (by decide) rfl)

lemma Readable.follows (h : c.Readable) : Follows clauses c.clauseTexts := by
  have hperm := (readInt?_ofIntPadded 4 h.perm).1.isToken.isArgument
  have howner := (readInt?_ofInt h.owner).1.isToken.isArgument
  have hgroup := (readInt?_ofInt h.group).1.isToken.isArgument
  rw [clauseTexts, List.append_assoc]
  exact .cons (l := [_]) (.single (by decide) hperm) (.cons (l := [_]) (.single (by decide) howner)
    (.cons (l := [_]) (.single (by decide) hgroup)
      (.cons (.strings (by decide) h.keys) (.yesNo (by decide) c.readOnly))))

lemma WellFormed.isValue_phrase (h : c.WellFormed) :
    IsValue (phrase (c.path.quote :: c.clauseTexts)) :=
  h.readable.runs.isValue_phrase_cons (isToken_quote h.readable.path)

/-- A control channel over a socket is read as it was written, whatever the order of its clauses. -/
theorem read_of_isWriting (h : c.Readable) {s : Text} (hs : c.IsWriting s) : read s = pure c := by
  obtain ⟨rest, htokens, hread⟩ := channelTokens_reordering (by decide)
    (isToken_quote h.path).isArgument (h.runs.leads.anyOrder h.follows unordered_clauses) hs
  rw [read, htokens]
  dsimp only
  rw [unquote_quote h.path]
  exact hread _

/-- **A control channel over a socket** is read as it was written. -/
theorem read_text (h : c.WellFormed) : read c.text = pure c :=
  read_of_isWriting h.readable c.isWriting_text

end UnixChannel

/-! ## All values made of clauses -/

/-- **Values made of clauses** come back from their text and from every text that has their clauses in
    another order: those that follow an address or a path, stand before a match list, or make up a
    rule. -/
theorem read_inAnyOrder :
    (∀ l : Listen, l.Readable →
      l.IsWriting l.text ∧ ∀ s, l.IsWriting s → Listen.read s = pure l) ∧
    (∀ fs : List Forwarder, (∀ f ∈ fs, f.Readable) →
      List.Forall₂ Forwarder.IsWriting fs (fs.map Forwarder.text) ∧
      ∀ ps, List.Forall₂ Forwarder.IsWriting fs ps → Forwarder.readList (joined ps) = pure fs) ∧
    (∀ rs : List RemoteServer, (∀ r ∈ rs, r.Readable) →
      List.Forall₂ RemoteServer.IsWriting rs (rs.map RemoteServer.text) ∧
      ∀ ps, List.Forall₂ RemoteServer.IsWriting rs ps →
        RemoteServer.readList (joined ps) = pure rs) ∧
    (∀ c : InetChannel, c.Readable →
      c.IsWriting c.text ∧ ∀ s, c.IsWriting s → InetChannel.read s = pure c) ∧
    (∀ c : UnixChannel, c.Readable →
      c.IsWriting c.text ∧ ∀ s, c.IsWriting s → UnixChannel.read s = pure c) ∧
    ∀ rs : List RRsetOrder, (∀ r ∈ rs, r.Readable) →
      List.Forall₂ RRsetOrder.IsWriting rs (rs.map RRsetOrder.text) ∧
      ∀ ps, List.Forall₂ RRsetOrder.IsWriting rs ps → RRsetOrder.readList (joined ps) = pure rs := by
  refine ⟨fun l h => ⟨l.isWriting_text, fun s hs => Listen.read_of_isWriting h hs⟩,
    fun fs h => ⟨forall₂_map Forwarder.isWriting_text fs,
      fun ps hps => Forwarder.readList_of_isWriting h hps⟩,
    fun rs h => ⟨forall₂_map RemoteServer.isWriting_text rs,
      fun ps hps => RemoteServer.readList_of_isWriting h hps⟩,
    fun c h => ⟨c.isWriting_text, fun s hs => InetChannel.read_of_isWriting h hs⟩,
    fun c h => ⟨c.isWriting_text, fun s hs => UnixChannel.read_of_isWriting h hs⟩,
    fun rs h => ⟨forall₂_map RRsetOrder.isWriting_text rs,
      fun ps hps => RRsetOrder.readList_of_isWriting h hps⟩⟩

/-- Keywords as arguments, strings with separators in them, a sign and padding do no harm. -/
theorem read_inAnyOrder_shuffled :
    Listen.read "http \"port\" port -53 tls \"a; \x7b\" \x7b !tls; \x7d" =
      pure ⟨some (-53), "a; \x7b", "port", [.acl true "tls"]⟩ ∧
    Forwarder.readList (joined ["#1 tls \"\x7d\" port 0", "port"]) =
      pure [⟨"#1", some 0, "\x7d"⟩, ⟨"port", none, []⟩] ∧
    RemoteServer.readList (joined ["a//b tls \"key\" key \"tls\""]) =
      pure [⟨"a//b", none, "tls", "key"⟩] ∧
    InetChannel.read "inet inet read-only no keys \x7b \"k;\"; \x7d allow \x7b any; \x7d" =
      pure ⟨"inet", none, [.acl false "any"], ["k;"], some false⟩ ∧
    UnixChannel.read "unix \"perm\" group -1 owner 7 perm 0008" =
      pure ⟨"perm", 8, 7, -1, [], none⟩ ∧
    RRsetOrder.readList (joined ["order name name \"*\" class order"]) =
      pure [⟨"order", [], "*", "name"⟩] := by
  obtain ⟨hlisten, hforwarders, hservers, hinet, hunix, hrules⟩ := read_inAnyOrder
  have hmatch : ∀ ts, MatchTerm.areReadable ts = true →
      MatchTerm.readList (MatchTerm.textOfList ts) = pure ts :=
    fun _ h => (MatchTerm.readList_textOfList h).1
  refine ⟨?_, ?_, ?_, ?_, ?_, ?_⟩
  · exact (hlisten ⟨some (-53), "a; \x7b", "port", [.acl true "tls"]⟩
      ⟨by decide, by decide, by decide, hmatch _ (by decide)⟩).2 _
      ⟨["http \"port\"", "port -53", "tls \"a; \x7b\""], by decide +kernel, by decide⟩
  · refine (hforwarders [⟨"#1", some 0, "\x7d"⟩, ⟨"port", none, []⟩] ?_).2 _ ?_
    · simp only [List.forall_mem_cons]
      exact ⟨⟨by decide, by decide, by decide⟩, ⟨by decide, by decide, by decide⟩, by simp⟩
    · exact .cons ⟨["tls \"\x7d\"", "port 0"], by decide +kernel, by decide⟩
        (.cons ⟨[], by decide, by decide⟩ .nil)
  · refine (hservers [⟨"a//b", none, "tls", "key"⟩] ?_).2 _ ?_
    · exact List.forall_mem_singleton.mpr ⟨by decide, by decide, by decide, by decide⟩
    · exact .cons ⟨["tls \"key\"", "key \"tls\""], by decide, by decide⟩ .nil
  · exact (hinet ⟨"inet", none, [.acl false "any"], ["k;"], some false⟩
      ⟨by decide, by decide, hmatch _ (by decide), by decide⟩).2 _
      ⟨["read-only no", "keys \x7b \"k;\"; \x7d", "allow \x7b any; \x7d"], by decide, by decide⟩
  · exact (hunix ⟨"perm", 8, 7, -1, [], none⟩
      ⟨by decide, by decide, by decide, by decide, by decide⟩).2 _
      ⟨["group -1", "owner 7", "perm 0008"], by decide +kernel, by decide⟩
  · refine (hrules [⟨"order", [], "*", "name"⟩] ?_).2 _ ?_
    · exact List.forall_mem_singleton.mpr
        ⟨Or.inr (by decide), Or.inl rfl, by decide, by decide⟩
    · exact .cons ⟨["order name", "name \"*\"", "class order"], by decide, by decide⟩ .nil

end NameServerConf
