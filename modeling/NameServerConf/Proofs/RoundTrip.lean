import NameServerConf.Proofs.Entities
import NameServerConf.Proofs.Reload

/-!
# The round trip through a file

A well-formed configuration that was put into a closed file is read from the file as it was.

**Statements of their own.**  What is read back is laid out as one statement
(`ReadBack.isStatement`), so the nodes of the file are known (`parse_renderFile`): the statements
with a known keyword are those of the configuration, in order.

**Part by part.**  `Config.upTo c f` is the part of `c` that has been read when `f k` statements
with the keyword `k` have gone by.  Each statement takes it one step further (`Config.add_upTo`),
whatever stands between the statements.
-/

namespace NameServerConf

open Text Node

/-! ## Statements of their own -/

/-- A complete statement is one statement and nothing else. -/
lemma Node.Complete.parse_eq {s : Text} (h : (Node.source s).Complete) : parse s = [.source s] := by
  have hwritten : parse ([Node.source s].flatMap written) = [.source s] :=
    parse_written fun n hn => List.mem_singleton.mp hn ▸ h
  rwa [List.flatMap_singleton] at hwritten

lemma Node.Complete.isStatement {k : Keyword} {s : Text} (h : (Node.source s).Complete)
    (hk : (Node.source s).keyword? = some k) : Config.IsStatement k s := by
  have hparse := h.parse_eq
  obtain ⟨hfinished, i, body, hitems, -⟩ := h
  have hended : (Node.source s).isEnded = true := by
    rw [isEnded, hitems, List.getLast?_concat, decide_eq_true_eq]
  refine ⟨?_, s, hparse, hk⟩
  rw [isClosed, hfinished, hparse, Bool.true_and, List.all_cons, hended]
  rfl

namespace ReadBack

variable {α β : Type} {k : Keyword} {read : Statement → Noted α} {node : α → Node}

/-- What is read back is laid out as one statement with its keyword. -/
lemma isStatement {e : α} {n : Node} (h : ReadBack k.word read e n) :
    Config.IsStatement k (n.render 0) := by
  have hkeyword : (Node.source (n.render 0)).keyword? = some k := by
    show Keyword.ofWord? (said 0 n).keyword = some k
    rw [h.keyword, Keyword.ofWord?_eq_some]
  exact (h.neat.complete 0).isStatement hkeyword

/-- So it is for the statements of a list of entities. -/
lemma isStatement_of_mem {l : List α} (h : ∀ e ∈ l, ReadBack k.word read e (node e)) {n : Node}
    (hn : n ∈ l.map node) : Config.IsStatement k (n.render 0) := by
  obtain ⟨e, he, rfl⟩ := List.mem_map.mp hn
  exact (h e he).isStatement

/-- The statement of the next entity of a list adds this entity. -/
lemma read_next {l : List α} (h : ∀ e ∈ l, ReadBack k.word read e (node e)) (put : List α → β)
    {m : ℕ} {n : Node} {ns : List Node} (hn : (l.map node).drop m = n :: ns) :
    (read (said 0 n) >>= fun e => pure (put (l.take m ++ [e]))) =
      (pure (put (l.take (m + 1))) : Noted β) := by
  rw [← List.map_drop] at hn
  obtain ⟨e, es, hdrop, rfl, -⟩ := List.map_eq_cons_iff.mp hn
  have he : l[m]? = some e := by
    rw [← List.head?_drop, hdrop, List.head?_cons]
  have hread := (h e (List.mem_of_getElem? he)).read_eq 0
  rw [hread, pure_bind, List.take_add_one, he, Option.toList_some]

/-- The only statement of an entity that there is at most one of says this entity. -/
lemma read_only {x? : Option α} (h : ∀ e ∈ x?, ReadBack k.word read e (node e))
    (put : Option α → β) {m : ℕ} {n : Node} {ns : List Node}
    (hn : (x?.toList.map node).drop m = n :: ns) :
    (read (said 0 n) >>= fun e => pure (put (some e))) =
      (pure (put (if m + 1 = 0 then none else x?)) : Noted β) := by
  rw [if_neg (Nat.succ_ne_zero m)]
  cases x? with
  | none =>
      rw [Option.toList_none, List.map_nil, List.drop_nil] at hn
      cases hn
  | some e =>
      cases m with
      | zero =>
          obtain ⟨rfl, -⟩ := List.cons.inj hn
          rw [(h e rfl).read_eq 0, pure_bind]
      | succ m =>
          rw [Option.toList_some, List.map_singleton, List.drop_succ_cons, List.drop_nil] at hn
          cases hn

end ReadBack

/-! ## Part by part -/

namespace Config

variable {c : Config} {k : Keyword}

/-- The part of a configuration that has been read when so many statements with each keyword have
    gone by. -/
def upTo (c : Config) (f : Keyword → ℕ) : Config where
  includes := c.includes.take (f .include)
  acls := c.acls.take (f .acl)
  keys := c.keys.take (f .key)
  keyStores := c.keyStores.take (f .keyStore)
  remoteServers := c.remoteServers.take (f .remoteServers)
  tls := c.tls.take (f .tls)
  http := c.http.take (f .http)
  controls := if f .controls = 0 then none else c.controls
  logging := if f .logging = 0 then none else c.logging
  options := if f .options = 0 then none else c.options
  trustAnchors := c.trustAnchors.take (f .trustAnchors)
  views := c.views.take (f .view)
  zones := c.zones.take (f .zone)

/-- Before any statement, nothing has been read. -/
lemma upTo_zero (c : Config) : c.upTo (fun _ => 0) = empty := rfl

lemma take_of_drop_map {α β : Type} {l : List α} {g : α → β} {m : ℕ}
    (h : (l.map g).drop m = []) : l.take m = l := by
  rw [List.drop_eq_nil_iff, List.length_map] at h
  exact List.take_of_length_le h

lemma ite_of_drop_map {α β : Type} {x? : Option α} {g : α → β} {m : ℕ}
    (h : (x?.toList.map g).drop m = []) : (if m = 0 then none else x?) = x? := by
  split
  next hm =>
    subst hm
    cases x? with
    | none => rfl
    | some x => cases h
  next => rfl

/-- When no statement is left, all has been read. -/
lemma upTo_eq_self {f : Keyword → ℕ} (h : ∀ k, (c.nodes k).drop (f k) = []) : c.upTo f = c := by
  have hlist {α : Type} {l : List α} {node : α → Node} (k : Keyword)
      (hk : c.nodes k = l.map node) : l.take (f k) = l := take_of_drop_map (hk ▸ h k)
  have honly {α : Type} {x? : Option α} {node : α → Node} (k : Keyword)
      (hk : c.nodes k = x?.toList.map node) : (if f k = 0 then none else x?) = x? :=
    ite_of_drop_map (hk ▸ h k)
  rw [upTo, hlist .include rfl, hlist .acl rfl, hlist .key rfl, hlist .keyStore rfl,
    hlist .remoteServers rfl, hlist .tls rfl, hlist .http rfl, honly .controls rfl,
    honly .logging rfl, honly .options rfl, hlist .trustAnchors rfl, hlist .view rfl,
    hlist .zone rfl]

/-- **The next statement** with a keyword adds the next entity, with no remark. -/
theorem add_upTo (h : c.WellFormed) {f : Keyword → ℕ} {n : Node} {ns : List Node}
    (hn : (c.nodes k).drop (f k) = n :: ns) :
    (c.upTo f).add .keep (said 0 n) k = pure (c.upTo (Function.update f k (f k + 1))) := by
  cases k with
  | «include» =>
      exact ReadBack.read_next (k := .include) (fun i hi => Include.readBack (h.includes i hi))
        (fun l => { c.upTo f with includes := l }) hn
  | acl =>
      exact ReadBack.read_next (k := .acl) (fun a ha => Acl.readBack (h.acls a ha))
        (fun l => { c.upTo f with acls := l }) hn
  | key =>
      exact ReadBack.read_next (k := .key) (fun a ha => Key.readBack (h.keys a ha))
        (fun l => { c.upTo f with keys := l }) hn
  | keyStore =>
      exact ReadBack.read_next (k := .keyStore) (fun s hs => KeyStore.readBack (h.keyStores s hs))
        (fun l => { c.upTo f with keyStores := l }) hn
  | remoteServers =>
      exact ReadBack.read_next (k := .remoteServers)
        (fun g hg => ServerGroup.readBack (h.remoteServers g hg))
        (fun l => { c.upTo f with remoteServers := l }) hn
  | tls =>
      exact ReadBack.read_next (k := .tls) (fun p hp => TlsProfile.readBack (h.tls p hp))
        (fun l => { c.upTo f with tls := l }) hn
  | http =>
      exact ReadBack.read_next (k := .http) (fun p hp => HttpProfile.readBack (h.http p hp))
        (fun l => { c.upTo f with http := l }) hn
  | controls =>
      exact ReadBack.read_only (k := .controls) (fun b hb => Controls.readBack (h.controls b hb))
        (fun b? => { c.upTo f with controls := b? }) hn
  | logging =>
      exact ReadBack.read_only (k := .logging) (fun l hl => Logging.readBack (h.logging l hl))
        (fun l? => { c.upTo f with logging := l? }) hn
  | options =>
      exact ReadBack.read_only (k := .options) (fun o ho => Options.readBack (h.options o ho))
        (fun o? => { c.upTo f with options := o? }) hn
  | trustAnchors =>
      exact ReadBack.read_next (k := .trustAnchors)
        (fun a ha => TrustAnchors.readBack (h.trustAnchors a ha))
        (fun l => { c.upTo f with trustAnchors := l }) hn
  | view =>
      exact ReadBack.read_next (k := .view) (fun v hv => View.readBack (h.views v hv))
        (fun l => { c.upTo f with views := l }) hn
  | zone =>
      exact ReadBack.read_next (k := .zone) (fun z hz => Zone.readBack (h.zones z hz))
        (fun l => { c.upTo f with zones := l }) hn

/-- **A file whose known statements are those of a configuration** says this configuration. -/
theorem addAll_statements (h : c.WellFormed) {ns : List Node} {f : Keyword → ℕ}
    (hns : ∀ k, statementsWith k ns =
      ((c.nodes k).drop (f k)).map fun b => .source (b.render 0)) :
    addAll .keep (statements ns) (c.upTo f) = pure c := by
  induction ns generalizing f with
  | nil =>
      have hself : c.upTo f = c :=
        upTo_eq_self fun k => List.map_eq_nil_iff.mp (hns k).symm
      rw [hself]
      rfl
  | cons n ns ih =>
      cases hk : n.keyword? with
      | none =>
          have hrest := ih fun k => by
            rw [← hns k, statementsWith_cons_of_ne fun h => by rw [hk] at h; cases h]
          cases hs : n.statement? with
          | none =>
              rw [statements, List.filterMap_cons_none hs, ← statements, hrest]
          | some s =>
              have hword : Keyword.ofWord? s.keyword = none := by
                rw [keyword?, hs, Option.bind_some] at hk
                exact hk
              rw [statements, List.filterMap_cons_some hs, ← statements, addAll, hword, hrest]
      | some k =>
          have hnext := hns k
          rw [statementsWith_cons_self hk] at hnext
          obtain ⟨b, bs, hdrop, hb, hbs⟩ := List.map_eq_cons_iff.mp hnext.symm
          subst hb
          have hword : Keyword.ofWord? (said 0 b).keyword = some k := hk
          have hrest : ∀ j, statementsWith j ns =
              ((c.nodes j).drop (Function.update f k (f k + 1) j)).map
                fun b => .source (b.render 0) := by
            intro j
            by_cases hj : j = k
            · subst hj
              rw [Function.update_self, ← List.tail_drop, hdrop, List.tail_cons, hbs]
            · rw [Function.update_of_ne hj, ← hns j, statementsWith_cons_of_other hk (Ne.symm hj)]
          have hsaid : (Node.source (b.render 0)).statement? = some (said 0 b) := rfl
          rw [statements, List.filterMap_cons_some hsaid, ← statements, addAll, hword]
          show (c.upTo f).add .keep (said 0 b) k >>= addAll .keep (statements ns) = _
          rw [add_upTo h hdrop, pure_bind, ih hrest]

/-! ## Through the file -/

/-- The statements of a well-formed configuration are laid out as one statement each. -/
lemma isStatement_of_mem_nodes (h : c.WellFormed) {b : Node} (hb : b ∈ c.nodes k) :
    IsStatement k (b.render 0) := by
  cases k with
  | «include» =>
      exact ReadBack.isStatement_of_mem (k := .include)
        (fun i hi => Include.readBack (h.includes i hi)) hb
  | acl =>
      exact ReadBack.isStatement_of_mem (k := .acl) (fun a ha => Acl.readBack (h.acls a ha)) hb
  | key =>
      exact ReadBack.isStatement_of_mem (k := .key) (fun a ha => Key.readBack (h.keys a ha)) hb
  | keyStore =>
      exact ReadBack.isStatement_of_mem (k := .keyStore)
        (fun s hs => KeyStore.readBack (h.keyStores s hs)) hb
  | remoteServers =>
      exact ReadBack.isStatement_of_mem (k := .remoteServers)
        (fun g hg => ServerGroup.readBack (h.remoteServers g hg)) hb
  | tls =>
      exact ReadBack.isStatement_of_mem (k := .tls)
        (fun p hp => TlsProfile.readBack (h.tls p hp)) hb
  | http =>
      exact ReadBack.isStatement_of_mem (k := .http)
        (fun p hp => HttpProfile.readBack (h.http p hp)) hb
  | controls =>
      exact ReadBack.isStatement_of_mem (k := .controls)
        (fun b hb => Controls.readBack (h.controls b (Option.mem_toList.mp hb))) hb
  | logging =>
      exact ReadBack.isStatement_of_mem (k := .logging)
        (fun l hl => Logging.readBack (h.logging l (Option.mem_toList.mp hl))) hb
  | options =>
      exact ReadBack.isStatement_of_mem (k := .options)
        (fun o ho => Options.readBack (h.options o (Option.mem_toList.mp ho))) hb
  | trustAnchors =>
      exact ReadBack.isStatement_of_mem (k := .trustAnchors)
        (fun a ha => TrustAnchors.readBack (h.trustAnchors a ha)) hb
  | view =>
      exact ReadBack.isStatement_of_mem (k := .view) (fun v hv => View.readBack (h.views v hv)) hb
  | zone =>
      exact ReadBack.isStatement_of_mem (k := .zone) (fun z hz => Zone.readBack (h.zones z hz)) hb

/-- Statements that were laid out keep their keywords. -/
lemma statementsWith_layOut (hc : KeepsKeywords c) {ns : List Node}
    (hns : ∀ n ∈ ns, ∀ j, n.keyword? = some j → n ∈ c.nodes j) (k : Keyword) :
    statementsWith k (layOut Keyword.all ns) =
      (statementsWith k ns).map fun b => .source (b.render 0) := by
  induction ns with
  | nil => rfl
  | cons n ns ih =>
      have hrest := ih fun m hm => hns m (List.mem_cons_of_mem _ hm)
      cases hn : n.keyword? with
      | none =>
          have hnone : ∀ j, n.keyword? ≠ some j := fun j h => by
            rw [hn] at h
            cases h
          rw [layOut_cons_of_not fun j _ => hnone j, statementsWith_cons_of_ne (hnone k),
            statementsWith_cons_of_ne (hnone k), hrest]
      | some j =>
          have hkeyword := hc j n (hns n (List.mem_cons_self ..) j hn)
          have hlineEnd : lineEnd.keyword? ≠ some k := fun h => by cases h
          rw [layOut_cons_of_keyword hn (mem_all j)]
          by_cases hj : j = k
          · subst hj
            rw [statementsWith_cons_self hkeyword, statementsWith_cons_of_ne hlineEnd,
              statementsWith_cons_self hn, List.map_cons, hrest]
          · rw [statementsWith_cons_of_other hkeyword hj, statementsWith_cons_of_ne hlineEnd,
              statementsWith_cons_of_other hn hj, hrest]

/-- The statements of a file that a well-formed configuration was put into say this
    configuration. -/
theorem addAll_renderFile (h : c.WellFormed) (p : Placement) {t : Text} (ht : t.isClosed = true) :
    addAll .keep (statements (parse (renderFile (c.apply p (parse t)).value))) empty = pure c := by
  have hc : ∀ k, ∀ b ∈ c.nodes k, IsStatement k (b.render 0) :=
    fun k b hb => isStatement_of_mem_nodes h hb
  have hlined : ∀ n ∈ lined true (c.apply p (parse t)).value, ∀ j, n.keyword? = some j →
      n ∈ c.nodes j := by
    intro n hn j hj
    rcases mem_lined hn with rfl | hn
    · cases hj
    · exact mem_nodes_of_keyword hn hj
  rw [← upTo_zero c]
  refine addAll_statements h fun k => ?_
  have hgroup := (replaced_apply p c (parse t)).statementsWith_eq (by decide) (mem_all k)
  rw [if_neg List.not_mem_nil] at hgroup
  rw [parse_renderFile ht hc, statementsWith_joinRaws,
    statementsWith_layOut (keepsKeywords_of_isStatement hc) hlined, statementsWith_lined, hgroup,
    List.drop_zero]

/-- **The round trip.**  A well-formed configuration that was put into a closed file, to the end
    or in place, is what the file says when it is read again; nothing is left out and there is
    nothing to remark. -/
theorem ofNodes_renderFile (h : c.WellFormed) (p : Placement) {t : Text} (ht : t.isClosed = true) :
    ofNodes .keep (parse (renderFile (c.apply p (parse t)).value)) = pure c := by
  rw [ofNodes, addAll_renderFile h p ht]
  rfl

/-- A configuration with a match list, settings, one of them unknown, and a view with a zone. -/
def sample : Config :=
  { empty with
    acls := [⟨"trusted", [.address false "10.0.0.0/8", .nested true [.acl false "guests"]]⟩]
    options := some { Options.empty with
      directory := "/var/named", recursion := some true, other := [⟨"version", "none"⟩] }
    views := [{ View.empty "internal" with
      vclass := "IN"
      zones := [{ Zone.empty "example.com" with type := some .primary, file := "db.example" }] }] }

/-- Among a comment and a foreign statement, in place of a view and a zone, the sample is read. -/
theorem ofNodes_renderFile_sample :
    ofNodes .keep (parse (renderFile (sample.apply .inPlace (parse
      "// views\nview \"old\" \x7b \x7d; statistics \x7b a; \x7d;\nzone \"b\" \x7b \x7d;\n")).value)) =
        pure sample := by
  have hacl : ∀ a ∈ sample.acls, a.WellFormed :=
    List.forall_mem_singleton.mpr ⟨by decide, by cbv⟩
  have hversion : OtherOption.IsFree Options.members
      { Options.empty with
        directory := "/var/named", recursion := some true, other := [⟨"version", "none"⟩] }
      ⟨"version", "none"⟩ :=
    ⟨(isBare_of_isWord (by decide)).isKeyword, (isBare_of_isWord (by decide)).isValue.isTail, rfl⟩
  have hoptions : ∀ o ∈ sample.options, o.WellFormed := by
    intro o ho
    obtain rfl := Option.some.inj ho
    exact {
      directory := by decide
      allowQuery := fun _ h => by cases h
      allowTransfer := fun _ h => by cases h
      allowUpdate := fun _ h => by cases h
      listenOn := fun _ h => by cases h
      listenOnV6 := fun _ h => by cases h
      forwarders := fun _ h => by cases h
      forward := by decide
      dnssecValidation := by decide
      rrsetOrder := fun _ h => by cases h
      other := List.forall_mem_singleton.mpr hversion }
  have hzone : Zone.WellFormed
      { Zone.empty "example.com" with type := some .primary, file := "db.example" } :=
    { name := by decide
      zclass := by decide
      file := by decide
      primaries := trivial
      forwarders := fun _ h => by cases h
      forward := by decide
      allowUpdate := fun _ h => by cases h
      allowTransfer := fun _ h => by cases h
      alsoNotify := fun _ h => by cases h
      dnssecPolicy := by decide
      other := fun _ h => by cases h }
  have hview : ∀ v ∈ sample.views, v.WellFormed :=
    List.forall_mem_singleton.mpr
      { name := by decide
        vclass := by cbv
        matchClients := fun _ h => by cases h
        matchDestinations := fun _ h => by cases h
        trustAnchors := fun _ h => by cases h
        zones := List.forall_mem_singleton.mpr hzone
        includes := fun _ h => by cases h
        other := fun _ h => by cases h }
  have hsample : sample.WellFormed :=
    { includes := fun _ h => by cases h
      acls := hacl
      keys := fun _ h => by cases h
      keyStores := fun _ h => by cases h
      remoteServers := fun _ h => by cases h
      tls := fun _ h => by cases h
      http := fun _ h => by cases h
      controls := fun _ h => by cases h
      logging := fun _ h => by cases h
      options := hoptions
      trustAnchors := fun _ h => by cases h
      views := hview
      zones := fun _ h => by cases h }
  exact ofNodes_renderFile hsample .inPlace (by cbv)

end Config

end NameServerConf
