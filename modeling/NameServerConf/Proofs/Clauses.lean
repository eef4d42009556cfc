import NameServerConf.Proofs.Runs

/-!
# Values made of clauses

**Round trips.**  Each value made of clauses is read as it was written: `read_text` and `readList_text`
for each of them.

**Any order.**  The clauses that follow an address or a path, and those that make up a rule, can stand
in any order, which is `readList_of_isWriting`.  What has to hold of the value for that is `Readable`, and
is less than a file asks for: where there are no comments, words may hold what would begin one.
-/

namespace NameServerConf

open Text

/-! ## Lists -/

section Lists

variable {α : Type} {g : Text → Noted α} {as : List α} {ps : List Text}

/-- What is read one by one is read as it was written. -/
lemma mapM_eq_pure (h : List.Forall₂ (fun a p => g p = pure a) as ps) : ps.mapM g = pure as := by
  induction h with
  | nil => rfl
  | cons ha _ ih => rw [List.mapM_cons, ha, pure_bind, ih, pure_bind]

lemma mapM_map_eq {f : α → Text} (h : ∀ a ∈ as, g (f a) = pure a) : (as.map f).mapM g = pure as :=
  mapM_eq_pure (List.forall₂_map_right_iff.mpr (List.forall₂_same.mpr h))

lemma forall₂_map {f : α → Text} {R : α → Text → Prop} (h : ∀ a, R a (f a)) (as : List α) :
    List.Forall₂ R as (as.map f) :=
  List.forall₂_map_right_iff.mpr (List.forall₂_same.mpr fun a _ => h a)

lemma isPart_of_forall₂ (h : List.Forall₂ (fun a p => IsPart .value p ∧ g p = pure a) as ps) :
    ∀ p ∈ ps, IsPart .value p := by
  induction h with
  | nil => exact fun p hp => absurd hp List.not_mem_nil
  | cons ha _ ih => exact List.forall_mem_cons.mpr ⟨ha.1, ih⟩

/-- A list in braces is read part by part. -/
lemma mapM_parts_joined (h : List.Forall₂ (fun a p => IsPart .value p ∧ g p = pure a) as ps) :
    (joined ps).stripBraces.parts.mapM g = pure as := by
  rw [parts_joined (isPart_of_forall₂ h)]
  exact mapM_eq_pure (h.imp fun _ _ ha => ha.2)

end Lists

/-! ## Servers -/

namespace Forwarder

variable {f : Forwarder}

/-- What makes a server that queries are forwarded to come back when it is read. -/
structure Readable (f : Forwarder) : Prop where
  address : f.address.isCompact = true
  port : fitsInt32 f.port = true
  tls : f.tls.isQuotable = true

lemma WellFormed.readable (h : f.WellFormed) : f.Readable :=
  ⟨(isBare_of_isWord h.address).isCompact, h.port, isQuotable_of_isClean h.tls⟩

/-- The clauses of a server that queries are forwarded to. -/
def clauseTexts (f : Forwarder) : List Text := numberClause "port" f.port ++ nameClause "tls" f.tls

/-- The text says what the server is, with the clauses in some order. -/
def IsWriting (f : Forwarder) (s : Text) : Prop := IsReordering [f.address] f.clauseTexts [] s

lemma isWriting_text (f : Forwarder) : f.IsWriting f.text :=
  ⟨_, .refl _, by rw [List.append_nil]; rfl⟩

lemma unordered_clauses : Unordered clauses := by
  simp only [Unordered, clauses, List.pairwise_cons, List.forall_mem_cons, List.not_mem_nil,
    IsEmpty.forall_iff, implies_true, List.Pairwise.nil, and_true]
  exact ⟨by decide, fun _ _ _ => rfl⟩

lemma Readable.runs (h : f.Readable) : Runs clauses f.clauseTexts ⟨f.address, none, []⟩ f :=
  Runs.append (Runs.number (fun n (f : Forwarder) => { f with port := n }) rfl (by decide) h.port
      rfl)
    (Runs.name (fun s (f : Forwarder) => { f with tls := s }) rfl (by decide) h.tls rfl)

lemma Readable.leads (h : f.Readable) :
    LeadsInAnyOrder clauses f.clauseTexts ⟨f.address, none, []⟩ f :=
  h.runs.leads.anyOrder (.cons (.number (by decide) h.port) (.name (by decide) h.tls))
    unordered_clauses

lemma WellFormed.isValue_text (h : f.WellFormed) : IsValue f.text :=
  h.readable.runs.isValue_phrase_cons (isBare_of_isWord h.address).isToken

/-- A forwarder is read as it was written, whatever the order of its clauses. -/
lemma Readable.ofTokens_eq (h : f.Readable) {s : Text} (hs : f.IsWriting s) (entry : Text) :
    IsPart .value s ∧ ofTokens entry s.tokens = pure f := by
  obtain ⟨hpart, rest, htokens, hread⟩ :=
    h.leads.of_isReordering (isArgument_of_isCompact h.address) hs
  rw [htokens]
  exact ⟨hpart, hread _⟩

/-- **Forwarders** are read as they were written, whatever the order of their clauses. -/
theorem readList_of_isWriting {fs : List Forwarder} {ps : List Text} (h : ∀ f ∈ fs, f.Readable)
    (hps : List.Forall₂ IsWriting fs ps) : readList (joined ps) = pure fs := by
  have hne : joined ps ≠ [] := List.cons_ne_nil _ _
  have hread := ((List.forall₂_and_left fs ps).mpr ⟨h, hps⟩).imp
    fun f p hf => hf.1.ofTokens_eq hf.2 p
  rw [readList, trim_joined, splitAtGroup_joined]
  simp only [ne_eq, not_true_eq_false, false_and, if_false, if_neg hne]
  exact mapM_parts_joined hread

lemma isValue_of_mem_texts {fs : List Forwarder} (h : ∀ f ∈ fs, f.WellFormed) :
    ∀ p ∈ fs.map text, IsValue p :=
  List.forall_mem_map.mpr fun f hf => (h f hf).isValue_text

/-- **Forwarders** are read as they were written. -/
theorem readList_text {fs : List Forwarder} (h : ∀ f ∈ fs, f.WellFormed) :
    readList (textOfList fs) = pure fs :=
  readList_of_isWriting (fun f hf => (h f hf).readable) (forall₂_map isWriting_text fs)

end Forwarder

namespace RemoteServer

variable {r : RemoteServer}

/-- What makes a server that zones are exchanged with come back when it is read. -/
structure Readable (r : RemoteServer) : Prop where
  address : r.address.isCompact = true
  port : fitsInt32 r.port = true
  key : r.key.isQuotable = true
  tls : r.tls.isQuotable = true

lemma WellFormed.readable (h : r.WellFormed) : r.Readable :=
  ⟨(isBare_of_isWord h.address).isCompact, h.port, isQuotable_of_isClean h.key,
    isQuotable_of_isClean h.tls⟩

/-- The clauses of a remote server. -/
def clauseTexts (r : RemoteServer) : List Text :=
  numberClause "port" r.port ++ nameClause "key" r.key ++ nameClause "tls" r.tls

lemma text_eq (r : RemoteServer) : r.text = phrase (r.address :: r.clauseTexts) := rfl

/-- The text says what the server is, with the clauses in some order. -/
def IsWriting (r : RemoteServer) (s : Text) : Prop := IsReordering [r.address] r.clauseTexts [] s

lemma isWriting_text (r : RemoteServer) : r.IsWriting r.text :=
  ⟨_, .refl _, by rw [List.append_nil]; rfl⟩

lemma unordered_clauses : Unordered clauses := by
  simp only [Unordered, clauses, List.pairwise_cons, List.forall_mem_cons, List.not_mem_nil,
    IsEmpty.forall_iff, implies_true, List.Pairwise.nil, and_true]
  refine ⟨⟨?_, ?_⟩, ?_⟩ <;> exact ⟨by decide, fun _ _ _ => rfl⟩

lemma Readable.runs (h : r.Readable) : Runs clauses r.clauseTexts ⟨r.address, none, [], []⟩ r :=
  Runs.append
    (Runs.append
      (Runs.number (fun n (r : RemoteServer) => { r with port := n }) rfl (by decide) h.port rfl)
      (Runs.name (fun s (r : RemoteServer) => { r with key := s }) rfl (by decide) h.key rfl))
    (Runs.name (fun s (r : RemoteServer) => { r with tls := s }) rfl (by decide) h.tls rfl)

lemma Readable.follows (h : r.Readable) : Follows clauses r.clauseTexts := by
  rw [clauseTexts, List.append_assoc]
  exact .cons (.number (by decide) h.port)
    (.cons (.name (by decide) h.key) (.name (by decide) h.tls))

lemma WellFormed.isValue_text (h : r.WellFormed) : IsValue r.text :=
  h.readable.runs.isValue_phrase_cons (isBare_of_isWord h.address).isToken

/-- A remote server is read as it was written, whatever the order of its clauses. -/
lemma Readable.read_eq (h : r.Readable) {s : Text} (hs : r.IsWriting s) :
    IsPart .value s ∧ read s = pure r := by
  have hleads := h.runs.leads.anyOrder h.follows unordered_clauses
  obtain ⟨hpart, rest, htokens, hread⟩ := hleads.of_isReordering (isArgument_of_isCompact h.address) hs
  rw [read, htokens]
  exact ⟨hpart, hread _⟩

/-- A remote server is read as it was written. -/
lemma read_text (h : r.WellFormed) : read r.text = pure r :=
  (h.readable.read_eq r.isWriting_text).2

/-- **Remote servers** are read as they were written, whatever the order of their clauses. -/
theorem readList_of_isWriting {rs : List RemoteServer} {ps : List Text} (h : ∀ r ∈ rs, r.Readable)
    (hps : List.Forall₂ IsWriting rs ps) : readList (joined ps) = pure rs :=
  mapM_parts_joined
    (((List.forall₂_and_left rs ps).mpr ⟨h, hps⟩).imp fun _ _ hr => hr.1.read_eq hr.2)

lemma isValue_of_mem_texts {rs : List RemoteServer} (h : ∀ r ∈ rs, r.WellFormed) :
    ∀ p ∈ rs.map text, IsValue p :=
  List.forall_mem_map.mpr fun r hr => (h r hr).isValue_text

/-- **Remote servers** are read as they were written. -/
theorem readList_text {rs : List RemoteServer} (h : ∀ r ∈ rs, r.WellFormed) :
    readList (textOfList rs) = pure rs :=
  readList_of_isWriting (fun r hr => (h r hr).readable) (forall₂_map isWriting_text rs)

end RemoteServer

/-! ## Rules for the order of records -/

namespace RRsetOrder

variable {r : RRsetOrder}

/-- What makes a rule come back when it is read. -/
structure Readable (r : RRsetOrder) : Prop where
  rrclass : r.rrclass = [] ∨ r.rrclass.isCompact = true
  type : r.type = [] ∨ r.type.isCompact = true
  name : r.name.isQuotable = true
  order : r.order.isCompact = true

lemma WellFormed.readable (h : r.WellFormed) : r.Readable :=
  ⟨eq_nil_or_isCompact h.rrclass, eq_nil_or_isCompact h.type, isQuotable_of_isClean h.name,
    (isBare_of_isWord h.order).isCompact⟩

/-- The clauses of a rule. -/
def clauseTexts (r : RRsetOrder) : List Text :=
  wordClause "class" r.rrclass ++ wordClause "type" r.type ++ nameClause "name" r.name ++
    [clause "order" r.order]

/-- The text says what the rule is, with the clauses in some order. -/
def IsWriting (r : RRsetOrder) (s : Text) : Prop := IsReordering [] r.clauseTexts [] s

lemma isWriting_text (r : RRsetOrder) : r.IsWriting r.text :=
  ⟨_, .refl _, by rw [List.append_nil]; rfl⟩

lemma unordered_clauses : Unordered clauses := by
  simp only [Unordered, clauses, List.pairwise_cons, List.forall_mem_cons, List.not_mem_nil,
    IsEmpty.forall_iff, implies_true, List.Pairwise.nil, and_true]
  refine ⟨⟨?_, ?_, ?_⟩, ⟨?_, ?_⟩, ?_⟩ <;> exact ⟨by decide, fun _ _ _ => rfl⟩

lemma WellFormed.runs (h : r.WellFormed) : Runs clauses r.clauseTexts ⟨[], [], [], []⟩ r :=
  Runs.append
    (Runs.append
      (Runs.append
        (Runs.word (fun s (r : RRsetOrder) => { r with rrclass := s }) rfl (by decide) h.rrclass rfl)
        (Runs.word (fun s (r : RRsetOrder) => { r with type := s }) rfl (by decide) h.type rfl))
      (Runs.name (fun s (r : RRsetOrder) => { r with name := s }) rfl (by decide)
        (isQuotable_of_isClean h.name) rfl))
    (Runs.clause rfl (by decide) (isBare_of_isWord h.order).isToken rfl)

lemma WellFormed.isValue_text (h : r.WellFormed) : IsValue r.text :=
  isValue_phrase (List.append_ne_nil_of_right_ne_nil _ (List.cons_ne_nil _ _)) h.runs.values

lemma Readable.leads (h : r.Readable) : Leads clauses r.clauseTexts ⟨[], [], [], []⟩ r :=
  Leads.append
    (Leads.append
      (Leads.append
        (Leads.word (fun s (r : RRsetOrder) => { r with rrclass := s }) rfl (by decide) h.rrclass rfl)
        (Leads.word (fun s (r : RRsetOrder) => { r with type := s }) rfl (by decide) h.type rfl))
      (Runs.name (fun s (r : RRsetOrder) => { r with name := s }) rfl (by decide) h.name rfl).leads)
    (Leads.clause rfl (by decide) (isArgument_of_isCompact h.order) rfl)

lemma Readable.follows (h : r.Readable) : Follows clauses r.clauseTexts := by
  rw [clauseTexts, List.append_assoc, List.append_assoc]
  exact .cons (.word (by decide) h.rrclass) (.cons (.word (by decide) h.type)
    (.cons (.name (by decide) h.name) (.single (by decide) (isArgument_of_isCompact h.order))))

/-- A rule is read as it was written, whatever the order of its clauses. -/
lemma Readable.ofTokens_eq (h : r.Readable) {s : Text} (hs : r.IsWriting s) :
    IsPart .value s ∧ ofTokens s.tokens = pure r := by
  obtain ⟨l, hl, rfl⟩ := hs
  have hleads := h.leads.anyOrder h.follows unordered_clauses l hl
  have hne : l ≠ [] := by
    rintro rfl
    have hlast := List.nil_perm.mp hl
    exact List.append_ne_nil_of_right_ne_nil _ (List.cons_ne_nil _ _) hlast
  have horder : r.order ≠ [] := (isCompact_iff.mp h.order).1
  rw [List.nil_append, List.append_nil]
  refine ⟨isPart_phrase hne hleads.parts, ?_⟩
  rw [ofTokens, tokens_phrase hleads.parts, hleads.read_eq, pure_bind, if_neg horder]

/-- **Rules for the order of records** are read as they were written, whatever the order of their
    clauses. -/
theorem readList_of_isWriting {rs : List RRsetOrder} {ps : List Text} (h : ∀ r ∈ rs, r.Readable)
    (hps : List.Forall₂ IsWriting rs ps) : readList (joined ps) = pure rs :=
  mapM_parts_joined
    (((List.forall₂_and_left rs ps).mpr ⟨h, hps⟩).imp fun _ _ hr => hr.1.ofTokens_eq hr.2)

lemma isValue_of_mem_texts {rs : List RRsetOrder} (h : ∀ r ∈ rs, r.WellFormed) :
    ∀ p ∈ rs.map text, IsValue p :=
  List.forall_mem_map.mpr fun r hr => (h r hr).isValue_text

/-- **Rules for the order of records** are read as they were written. -/
theorem readList_text {rs : List RRsetOrder} (h : ∀ r ∈ rs, r.WellFormed) :
    readList (textOfList rs) = pure rs :=
  readList_of_isWriting (fun r hr => (h r hr).readable) (forall₂_map isWriting_text rs)

end RRsetOrder

/-! ## Log files -/

namespace LogFile

variable {f : LogFile}

/-- The clauses of a log file. -/
def clauseTexts (f : LogFile) : List Text :=
  wordClause "versions" f.versions ++ wordClause "size" f.size ++ wordClause "suffix" f.suffix ++
    wordClause "severity" f.severity

lemma WellFormed.runs (h : f.WellFormed) :
    Runs clauses f.clauseTexts ⟨f.path, [], [], [], []⟩ f :=
  Runs.append
    (Runs.append
      (Runs.append
        (Runs.word (fun s (f : LogFile) => { f with versions := s }) rfl (by decide) h.versions rfl)
        (Runs.word (fun s (f : LogFile) => { f with size := s }) rfl (by decide) h.size rfl))
      (Runs.word (fun s (f : LogFile) => { f with suffix := s }) rfl (by decide) h.suffix rfl))
    (Runs.word (fun s (f : LogFile) => { f with severity := s }) rfl (by decide) h.severity rfl)

lemma text_eq (f : LogFile) :
    f.text = "file" ++ Byte.space :: phrase (f.path.quote :: f.clauseTexts) :=
  phrase_clause_cons "file" f.path.quote f.clauseTexts

/-- **A log file** is read as it was written. -/
theorem read_text (h : f.WellFormed) (place : Place) :
    read place (phrase (f.path.quote :: f.clauseTexts)) = pure f := by
  have hpath := isQuotable_of_isClean h.path
  rw [read, h.runs.leads.tokens_phrase_cons (isToken_quote hpath).isArgument]
  dsimp only
  rw [unquote_quote hpath]
  exact h.runs.leads.read_eq _

end LogFile

/-! ## Trust anchors -/

namespace TrustAnchor

variable {a : TrustAnchor}

lemma text_eq (a : TrustAnchor) : a.text = a.name.quote ++ Byte.space :: a.record :=
  phrase_cons_cons a.name.quote a.record []

lemma splitName_quote_append {s : Text} (h : s.isQuotable = true) (t : Text) :
    splitName (quote s ++ t) = (quote s, t) := by
  have hsplit := splitQuoted_append_of_closes (closesQuote_of_isQuotable h) t
  have hquote : quote s ++ t = Byte.quote :: (s ++ [Byte.quote] ++ t) := by simp [quote]
  rw [hquote, splitName, if_pos rfl, hsplit]
  rfl

/-- **A trust anchor** is read as it was written. -/
theorem read?_text (h : a.WellFormed) : read? a.text = pure (some a) := by
  have hquotable := isQuotable_of_isClean h.name
  have htrim : a.text.trim = a.text := by
    rw [text_eq]
    exact ((isValue_quote hquotable).append h.record).trim_eq
  have hne : a.text ≠ [] := by rw [text_eq]; simp
  have hrecord : (splitName a.text).2.trim = a.record := by
    rw [text_eq, splitName_quote_append hquotable, trim_space_cons, h.record.trim_eq]
  have hname : (splitName a.text).1.unquote = a.name := by
    rw [text_eq, splitName_quote_append hquotable, unquote_quote hquotable]
  have hkind := h.kind
  rw [read?, htrim]
  split
  next hnil => exact absurd hnil hne
  next =>
    rw [hrecord, hname]
    dsimp only
    split
    next hwords => exact absurd hwords h.record.words_ne_nil
    next word rest hwords =>
      rw [firstWord, hwords, List.headD_cons] at hkind
      rw [hkind]

end TrustAnchor

end NameServerConf
