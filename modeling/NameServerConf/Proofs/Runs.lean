import NameServerConf.Proofs.WellFormed

/-!
# Running through clauses

**Clauses as they were written.**  `Leads table l a b` says that the clauses in `l` take the value under
construction from `a` to `b`, whatever clauses follow.  There is one lemma for each way that a clause is
written.  `Runs` says in addition that the clauses are values, so that they can stand in a file.

**Clauses in any order.**  No two clauses of a table have the same keyword, and each changes a field of
its own.  So clauses that follow a table can be read in any order with the same result
(`Leads.anyOrder`).
-/

namespace NameServerConf

namespace Text

/-! ## Tokens -/

/-- A part of one token. -/
structure IsArgument (s : Text) : Prop where
  isPart : IsPart .value s
  tokens_eq : tokens s = [s]

/-- A value of one token. -/
structure IsToken (s : Text) : Prop where
  isValue : IsValue s
  tokens_eq : tokens s = [s]

lemma IsToken.isArgument {s : Text} (h : IsToken s) : IsArgument s :=
  ⟨h.isValue.isPart .value, h.tokens_eq⟩

lemma isArgument_of_isCompact {w : Text} (h : w.isCompact = true) : IsArgument w :=
  ⟨isPart_of_isCompact h, tokens_of_isCompact h⟩

lemma IsBare.isToken {w : Text} (h : IsBare w) : IsToken w :=
  ⟨h.isValue, tokens_of_isCompact h.isCompact⟩

lemma isToken_quote {s : Text} (h : s.isQuotable = true) : IsToken (quote s) :=
  ⟨isValue_quote h, tokens_quote h⟩

lemma isToken_joined {l : List Text} (h : ∀ p ∈ l, IsValue p) : IsToken (joined l) :=
  ⟨isValue_joined h, tokens_joined (isPart_of_isValue h .value)⟩

lemma isToken_ofStrings {l : List Text} (h : ∀ s ∈ l, s.isQuotable = true) :
    IsToken (ofStrings l) := isToken_joined (isValue_of_mem_quotes h)

lemma isBare_of_isOptionalWord {w : Text} (h : w.isOptionalWord = true) (hne : w ≠ []) :
    IsBare w := by
  rw [isOptionalWord, Bool.or_eq_true, decide_eq_true_eq] at h
  exact isBare_of_isWord (h.resolve_left hne)

lemma eq_nil_or_isCompact {w : Text} (h : w.isOptionalWord = true) : w = [] ∨ w.isCompact = true :=
  (eq_or_ne w []).imp id fun hne => (isBare_of_isOptionalWord h hne).isCompact

lemma clause_eq (kw arg : Text) : clause kw arg = kw ++ Byte.space :: arg := phrase_cons_cons kw arg []

lemma phrase_clause_cons (kw arg : Text) (l : List Text) :
    phrase (clause kw arg :: l) = kw ++ Byte.space :: phrase (arg :: l) := by
  cases l with
  | nil => exact clause_eq kw arg
  | cons s l =>
      rw [phrase_cons_cons, phrase_cons_cons, clause_eq, List.append_assoc, List.cons_append]

lemma isPart_clause {kw arg : Text} (hkw : IsBare kw) (harg : IsArgument arg) :
    IsPart .value (clause kw arg) := by
  rw [clause_eq]
  exact (hkw.isValue.isPart .value).append harg.isPart

lemma isValue_clause {kw arg : Text} (hkw : IsBare kw) (harg : IsToken arg) :
    IsValue (clause kw arg) := by
  rw [clause_eq]
  exact hkw.isValue.append harg.isValue

lemma tokens_clause {kw arg : Text} (hkw : IsBare kw) (harg : IsArgument arg) :
    tokens (clause kw arg) = [kw, arg] := by
  rw [clause_eq, tokens_append_space (hkw.isValue.isPart .value), hkw.isToken.tokens_eq,
    harg.tokens_eq]
  rfl

/-! ## Reading clauses -/

/-- The clauses take the value under construction from `a` to `b`, whatever follows them. -/
structure Leads {α : Type} (table : List (Clause α)) (l : List Text) (a b : α) : Prop where
  parts : ∀ s ∈ l, IsPart .value s
  run : ∀ stray rest,
    readClauses table stray (l.flatMap tokens ++ rest) a = readClauses table stray rest b

namespace Leads

variable {α : Type} {table : List (Clause α)} {a b c : α} {l m : List Text} {s kw arg : Text}

lemma nil : Leads table [] a a := ⟨fun _ h => absurd h List.not_mem_nil, fun _ _ => rfl⟩

lemma append (hl : Leads table l a b) (hm : Leads table m b c) : Leads table (l ++ m) a c := by
  refine ⟨fun s hs => ?_, fun stray rest => ?_⟩
  · exact (List.mem_append.mp hs).elim (hl.parts s) (hm.parts s)
  · rw [List.flatMap_append, List.append_assoc, hl.run, hm.run]

/-- At the end of its clauses a value is complete. -/
lemma read_eq (h : Leads table l a b) (stray : Text → Noted Unit) :
    readClauses table stray (l.flatMap tokens) a = pure b := by
  have hrun := h.run stray []
  rw [List.append_nil] at hrun
  rw [hrun, readClauses]

/-- A clause is read by the entry of its keyword. -/
lemma clause {entry : Clause α} (hentry : table.find? (·.keyword = kw) = some entry)
    (hkw : kw.isWord = true) (harg : IsArgument arg) (hread : entry.read arg a = pure b) :
    Leads table [Text.clause kw arg] a b := by
  have hkw := isBare_of_isWord hkw
  refine ⟨fun s hs => ?_, fun stray rest => ?_⟩
  · rw [List.mem_singleton.mp hs]
    exact isPart_clause hkw harg
  · rw [List.flatMap_cons, List.flatMap_nil, List.append_nil, tokens_clause hkw harg]
    show readClauses table stray (kw :: arg :: rest) a = _
    rw [readClauses, hentry]
    show (entry.read arg a >>= readClauses table stray rest) = _
    rw [hread, pure_bind]

/-- A compact word, if it is not empty. -/
lemma word (put : Text → α → α)
    (hentry : table.find? (·.keyword = kw) = some ⟨kw, fun arg a => pure (put arg a)⟩)
    (hkw : kw.isWord = true) {w : Text} (hw : w = [] ∨ w.isCompact = true) (habsent : put [] a = a) :
    Leads table (wordClause kw w) a (put w a) := by
  rw [wordClause]
  split
  next h =>
    rw [h, habsent]
    exact nil
  next h => exact clause hentry hkw (isArgument_of_isCompact (hw.resolve_left h)) rfl

/-- What begins with an argument and goes on with clauses is a part. -/
lemma isPart_phrase_cons (h : Leads table l a b) (hs : IsArgument s) :
    IsPart .value (phrase (s :: l)) :=
  isPart_phrase (List.cons_ne_nil s l) (List.forall_mem_cons.mpr ⟨hs.isPart, h.parts⟩)

/-- The tokens of such a part. -/
lemma tokens_phrase_cons (h : Leads table l a b) (hs : IsArgument s) :
    tokens (phrase (s :: l)) = s :: l.flatMap tokens := by
  rw [tokens_phrase (List.forall_mem_cons.mpr ⟨hs.isPart, h.parts⟩), List.flatMap_cons,
    hs.tokens_eq]
  rfl

end Leads

/-! ## Clauses that are values -/

/-- The clauses can stand in a file, and take the value under construction from `a` to `b`, whatever
    follows them. -/
structure Runs {α : Type} (table : List (Clause α)) (l : List Text) (a b : α) : Prop where
  values : ∀ s ∈ l, IsValue s
  run : ∀ stray rest,
    readClauses table stray (l.flatMap tokens ++ rest) a = readClauses table stray rest b

namespace Runs

variable {α : Type} {table : List (Clause α)} {a b c : α} {l m : List Text} {kw arg : Text}

lemma leads (h : Runs table l a b) : Leads table l a b :=
  ⟨isPart_of_isValue h.values .value, h.run⟩

lemma nil : Runs table [] a a := ⟨fun _ h => absurd h List.not_mem_nil, Leads.nil.run⟩

lemma append (hl : Runs table l a b) (hm : Runs table m b c) : Runs table (l ++ m) a c :=
  ⟨fun s hs => (List.mem_append.mp hs).elim (hl.values s) (hm.values s),
    (hl.leads.append hm.leads).run⟩

/-- A clause is read by the entry of its keyword. -/
lemma clause {entry : Clause α} (hentry : table.find? (·.keyword = kw) = some entry)
    (hkw : kw.isWord = true) (harg : IsToken arg) (hread : entry.read arg a = pure b) :
    Runs table [Text.clause kw arg] a b :=
  ⟨List.forall_mem_singleton.mpr (isValue_clause (isBare_of_isWord hkw) harg),
    (Leads.clause hentry hkw harg.isArgument hread).run⟩

/-- A number, if there is one. -/
lemma number (put : Option ℤ → α → α)
    (hentry : table.find? (·.keyword = kw) = some ⟨kw, fun arg a => pure (put arg.readInt? a)⟩)
    (hkw : kw.isWord = true) {n? : Option ℤ} (hn : fitsInt32 n? = true) (habsent : put none a = a) :
    Runs table (numberClause kw n?) a (put n? a) := by
  cases n? with
  | none =>
      rw [habsent]
      exact nil
  | some n =>
      obtain ⟨hbare, hread⟩ := readInt?_ofInt (n := n) hn
      exact clause hentry hkw hbare.isToken
        (congrArg (fun n? => pure (put n? a)) hread)

/-- A quoted name, if it is not empty. -/
lemma name (put : Text → α → α)
    (hentry : table.find? (·.keyword = kw) = some ⟨kw, fun arg a => pure (put arg.unquote a)⟩)
    (hkw : kw.isWord = true) {s : Text} (hs : s.isQuotable = true) (habsent : put [] a = a) :
    Runs table (nameClause kw s) a (put s a) := by
  rw [nameClause]
  split
  next h =>
    rw [h, habsent]
    exact nil
  next =>
    exact clause hentry hkw (isToken_quote hs)
      (congrArg (fun t => pure (put t a)) (unquote_quote hs))

/-- A word, if it is not empty. -/
lemma word (put : Text → α → α)
    (hentry : table.find? (·.keyword = kw) = some ⟨kw, fun arg a => pure (put arg a)⟩)
    (hkw : kw.isWord = true) {s : Text} (hs : s.isOptionalWord = true) (habsent : put [] a = a) :
    Runs table (wordClause kw s) a (put s a) := by
  rw [wordClause]
  split
  next h =>
    rw [h, habsent]
    exact nil
  next h => exact clause hentry hkw (isBare_of_isOptionalWord hs h).isToken rfl

/-- Yes or no, if it is said. -/
lemma yesNo (put : Option Bool → α → α)
    (hentry : table.find? (·.keyword = kw) = some ⟨kw, fun arg a => pure (put arg.readYesNo? a)⟩)
    (hkw : kw.isWord = true) {b? : Option Bool} (habsent : put none a = a) :
    Runs table (yesNoClause kw b?) a (put b? a) := by
  cases b? with
  | none =>
      rw [habsent]
      exact nil
  | some b =>
      exact clause hentry hkw (isBare_ofYesNo b).isToken
        (congrArg (fun b? => pure (put b? a)) (readYesNo?_ofYesNo b))

/-- A list of strings, if it is not empty. -/
lemma strings (put : List Text → α → α)
    (hentry : table.find? (·.keyword = kw) = some ⟨kw, fun arg a => pure (put arg.readStrings a)⟩)
    (hkw : kw.isWord = true) {l : List Text} (hl : ∀ s ∈ l, s.isQuotable = true)
    (habsent : put [] a = a) :
    Runs table (if l = [] then [] else [Text.clause kw (ofStrings l)]) a (put l a) := by
  split
  next h =>
    rw [h, habsent]
    exact nil
  next =>
    exact clause hentry hkw (isToken_ofStrings hl)
      (congrArg (fun l => pure (put l a)) (readStrings_ofStrings hl))

end Runs

section Phrases

variable {α : Type} {table : List (Clause α)} {a b : α} {l : List Text} {s : Text}

/-- What begins with a token and goes on with clauses is a value. -/
lemma Runs.isValue_phrase_cons (h : Runs table l a b) (hs : IsToken s) :
    IsValue (phrase (s :: l)) :=
  isValue_phrase (List.cons_ne_nil s l) (List.forall_mem_cons.mpr ⟨hs.isValue, h.values⟩)

/-- What stands behind a token is a value, or nothing. -/
lemma Runs.phrase_cons_eq (h : Runs table l a b) (s : Text) :
    phrase (s :: l) = s ++ afterGap (phrase l) ∧ IsTail (phrase l) := by
  cases l with
  | nil => exact ⟨(List.append_nil s).symm, isTail_nil⟩
  | cons t l =>
      have hvalue := isValue_phrase (List.cons_ne_nil t l) h.values
      rw [phrase_cons_cons, afterGap_of_ne_nil hvalue.ne_nil]
      exact ⟨rfl, hvalue.isTail⟩

end Phrases

/-! ## Clauses in any order -/

/-- The clauses are of the table, in its order and each at most once. -/
inductive Follows {α : Type} : List (Clause α) → List Text → Prop
  /-- No clause is left. -/
  | nil : Follows [] []
  /-- A clause that is not said. -/
  | skip {c : Clause α} {table : List (Clause α)} {l : List Text} :
    Follows table l → Follows (c :: table) l
  /-- A clause with its argument. -/
  | say {c : Clause α} {table : List (Clause α)} {l : List Text} {s arg : Text} :
    tokens s = [c.keyword, arg] → Follows table l → Follows (c :: table) (s :: l)

/-- The two clauses have different keywords and can be read in either order. -/
structure Swappable {α : Type} (c d : Clause α) : Prop where
  keyword_ne : c.keyword ≠ d.keyword
  read_comm : ∀ x y a, (c.read x a >>= d.read y) = (d.read y a >>= c.read x)

instance {α : Type} : Std.Symm (@Swappable α) where
  symm _ _ h := ⟨h.keyword_ne.symm, fun x y a => (h.read_comm y x a).symm⟩

/-- The clauses of the table can be read in any order. -/
def Unordered {α : Type} (table : List (Clause α)) : Prop := table.Pairwise Swappable

/-- In whatever order, the clauses take the value under construction from `a` to `b`. -/
def LeadsInAnyOrder {α : Type} (table : List (Clause α)) (l : List Text) (a b : α) : Prop :=
  ∀ m, m.Perm l → Leads table m a b

/-- The text is the phrase of `before`, the clauses in some order, and `behind`. -/
def IsReordering (before clauses behind : List Text) (s : Text) : Prop :=
  ∃ l, l.Perm clauses ∧ s = phrase (before ++ l ++ behind)

section Follows

variable {α : Type} {table : List (Clause α)} {l m : List Text} {kw : Text} {read : Text → α → Noted α}

lemma Follows.cons {c : Clause α} (hl : Follows [c] l) (hm : Follows table m) :
    Follows (c :: table) (l ++ m) := by
  cases hl with
  | skip h =>
      cases h
      exact .skip hm
  | say hs h =>
      cases h
      exact .say hs hm

lemma Follows.single {arg : Text} (hkw : kw.isWord = true) (harg : IsArgument arg) :
    Follows [⟨kw, read⟩] [clause kw arg] :=
  .say (tokens_clause (isBare_of_isWord hkw) harg) .nil

lemma Follows.number (hkw : kw.isWord = true) {n? : Option ℤ} (hn : fitsInt32 n? = true) :
    Follows [⟨kw, read⟩] (numberClause kw n?) := by
  cases n? with
  | none => exact .skip .nil
  | some n => exact .single hkw (readInt?_ofInt (n := n) hn).1.isToken.isArgument

lemma Follows.name (hkw : kw.isWord = true) {s : Text} (hs : s.isQuotable = true) :
    Follows [⟨kw, read⟩] (nameClause kw s) := by
  rw [nameClause]
  split
  · exact .skip .nil
  · exact .single hkw (isToken_quote hs).isArgument

lemma Follows.word (hkw : kw.isWord = true) {w : Text} (hw : w = [] ∨ w.isCompact = true) :
    Follows [⟨kw, read⟩] (wordClause kw w) := by
  rw [wordClause]
  split
  next => exact .skip .nil
  next h => exact .single hkw (isArgument_of_isCompact (hw.resolve_left h))

lemma Follows.yesNo (hkw : kw.isWord = true) (b? : Option Bool) :
    Follows [⟨kw, read⟩] (yesNoClause kw b?) := by
  cases b? with
  | none => exact .skip .nil
  | some b => exact .single hkw (isBare_ofYesNo b).isToken.isArgument

lemma Follows.strings (hkw : kw.isWord = true) {l : List Text} (hl : ∀ s ∈ l, s.isQuotable = true) :
    Follows [⟨kw, read⟩] (if l = [] then [] else [clause kw (ofStrings l)]) := by
  split
  · exact .skip .nil
  · exact .single hkw (isToken_ofStrings hl).isArgument

/-- Each clause is a keyword of the table with its argument. -/
lemma Follows.exists_of_mem (h : Follows table l) {s : Text} (hs : s ∈ l) :
    ∃ c ∈ table, ∃ arg, tokens s = [c.keyword, arg] := by
  induction h with
  | nil => cases hs
  | skip _ ih =>
      obtain ⟨c, hc, harg⟩ := ih hs
      exact ⟨c, List.mem_cons_of_mem _ hc, harg⟩
  | @say c table _ _ arg h _ ih =>
      rcases List.mem_cons.mp hs with rfl | hs
      · exact ⟨c, List.mem_cons_self .., arg, h⟩
      · obtain ⟨c, hc, harg⟩ := ih hs
        exact ⟨c, List.mem_cons_of_mem _ hc, harg⟩

/-- No keyword is said twice. -/
lemma Follows.pairwise (h : Follows table l) (htable : Unordered table) :
    l.Pairwise fun s t => (tokens s).head? ≠ (tokens t).head? := by
  induction h with
  | nil => exact List.Pairwise.nil
  | skip _ ih => exact ih (List.pairwise_cons.mp htable).2
  | say h hl ih =>
      obtain ⟨hc, htable⟩ := List.pairwise_cons.mp htable
      refine List.pairwise_cons.mpr ⟨fun t ht heq => ?_, ih htable⟩
      obtain ⟨d, hd, arg, harg⟩ := hl.exists_of_mem ht
      rw [h, harg] at heq
      exact (hc d hd).keyword_ne (Option.some.inj heq)

lemma Unordered.find?_eq (htable : Unordered table) {c : Clause α} (hc : c ∈ table) :
    table.find? (·.keyword = c.keyword) = some c := by
  induction table with
  | nil => cases hc
  | cons d table ih =>
      obtain ⟨hd, htable⟩ := List.pairwise_cons.mp htable
      rcases List.mem_cons.mp hc with rfl | hc
      · exact List.find?_cons_of_pos (by simp)
      · rw [List.find?_cons_of_neg (by simpa using (hd c hc).keyword_ne), ih htable hc]

/-- A clause of the table is read by its entry. -/
lemma Unordered.readClauses_eq (htable : Unordered table) {c : Clause α} (hc : c ∈ table)
    {s arg : Text} (hs : tokens s = [c.keyword, arg]) (stray : Text → Noted Unit) (rest : List Text) :
    readClauses table stray (tokens s ++ rest) =
      fun a => c.read arg a >>= readClauses table stray rest := by
  funext a
  rw [hs]
  show readClauses table stray (c.keyword :: arg :: rest) a = _
  rw [readClauses, htable.find?_eq hc]

/-- **Clauses in another order** do the same. -/
theorem Unordered.readClauses_perm (htable : Unordered table)
    (hl : ∀ s ∈ l, ∃ c ∈ table, ∃ arg, tokens s = [c.keyword, arg])
    (hne : l.Pairwise fun s t => (tokens s).head? ≠ (tokens t).head?) (h : l.Perm m)
    (stray : Text → Noted Unit) (rest : List Text) (a : α) :
    readClauses table stray (l.flatMap tokens ++ rest) a =
      readClauses table stray (m.flatMap tokens ++ rest) a := by
  induction h generalizing a with
  | nil => rfl
  | cons s _ ih =>
      obtain ⟨⟨c, hc, arg, hs⟩, hl⟩ := List.forall_mem_cons.mp hl
      have ih := ih hl (List.pairwise_cons.mp hne).2
      simp only [List.flatMap_cons, List.append_assoc]
      rw [htable.readClauses_eq hc hs, htable.readClauses_eq hc hs]
      exact congrArg _ (funext ih)
  | swap t s l =>
      obtain ⟨⟨c, hc, x, hs⟩, hl⟩ := List.forall_mem_cons.mp hl
      obtain ⟨⟨d, hd, y, ht⟩, -⟩ := List.forall_mem_cons.mp hl
      have hcd : c ≠ d := by
        have hne := (List.pairwise_cons.mp hne).1 t (List.mem_cons_self ..)
        rw [hs, ht] at hne
        exact fun heq => hne (congrArg (fun c : Clause α => some c.keyword) heq)
      simp only [List.flatMap_cons, List.append_assoc]
      rw [htable.readClauses_eq hc hs, htable.readClauses_eq hd ht, htable.readClauses_eq hd ht,
        htable.readClauses_eq hc hs]
      show (c.read x a >>= fun b => d.read y b >>= _) = (d.read y a >>= fun b => c.read x b >>= _)
      rw [← bind_assoc, ← bind_assoc, (htable.forall hc hd hcd).read_comm]
  | trans h _ ih₁ ih₂ =>
      have hl' := fun s hs => hl s (h.mem_iff.mpr hs)
      have hne' := (h.pairwise_iff Ne.symm).mp hne
      exact (ih₁ hl hne a).trans (ih₂ hl' hne' a)

/-- Clauses that follow a table are read in any order. -/
theorem Leads.anyOrder {a b : α} (h : Leads table l a b) (hl : Follows table l)
    (htable : Unordered table) : LeadsInAnyOrder table l a b := by
  refine fun m hm => ⟨fun s hs => h.parts s (hm.mem_iff.mp hs), fun stray rest => ?_⟩
  rw [← htable.readClauses_perm (fun s hs => hl.exists_of_mem hs) (hl.pairwise htable) hm.symm]
  exact h.run stray rest

/-- What begins with an argument and goes on with clauses is read in whatever order they stand. -/
lemma LeadsInAnyOrder.of_isReordering {a b : α} (h : LeadsInAnyOrder table l a b) {x s : Text}
    (hx : IsArgument x) (hs : IsReordering [x] l [] s) : IsPart .value s ∧
      ∃ rest, tokens s = x :: rest ∧ ∀ stray, readClauses table stray rest a = pure b := by
  obtain ⟨m, hm, rfl⟩ := hs
  have hleads := h m hm
  rw [List.append_nil]
  exact ⟨hleads.isPart_phrase_cons hx, _, hleads.tokens_phrase_cons hx, hleads.read_eq⟩

end Follows

end Text

end NameServerConf
