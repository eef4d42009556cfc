import NameServerConf.Proofs.Channels

/-!
# Blocks that are read as they were written

**Statements read back.**  `ReadBack kw read e n` says that the statement `n` is neat and that, laid out
at any depth, it has the keyword `kw` and is read as `e`.

**Members.**  `Reads table other depth ns a b` says that the statements `ns` of a body, laid out at the
given depth, take the block under construction from `a` to `b`, whatever statements follow.  There is one
lemma for each kind of member, and one for the statements that no member takes (`Reads.others`).
-/

namespace NameServerConf

open Text Node

/-! ## Headers -/

/-- The header of a block is its keyword and what stands behind it. -/
lemma namedHeader_eq_afterGap (kw name cls : Text) :
    namedHeader kw name cls = kw ++ afterGap (quote name ++ afterGap cls) := by
  have hne : quote name ++ afterGap cls ≠ [] := List.cons_ne_nil _ _
  rw [afterGap_of_ne_nil hne, namedHeader, afterGap]
  split
  · rw [List.append_nil, List.append_nil]
    exact clause_eq kw (quote name)
  · show phrase [kw, quote name, cls] = _
    rw [phrase_cons_cons, phrase_cons_cons]
    rfl

/-- What stands behind the keyword: a name, and perhaps a word. -/
lemma isTail_header {name cls : Text} (hname : name.isClean = true)
    (hcls : cls = [] ∨ IsBare cls) :
    IsTail (quote name ++ afterGap cls) ∧ noGroups (quote name ++ afterGap cls) = true := by
  have hvalue := isValue_quote (isQuotable_of_isClean hname)
  have hgroups := noGroups_quote (isQuotable_of_isClean hname)
  rcases hcls with rfl | hcls
  · rw [afterGap, if_pos rfl, List.append_nil]
    exact ⟨hvalue.isTail, hgroups⟩
  · rw [afterGap_of_ne_nil hcls.ne_nil]
    refine ⟨(hvalue.append hcls.isValue).isTail, ?_⟩
    rw [noGroups_append_space (hvalue.isPart .value), hgroups, hcls.noGroups_eq]
    rfl

lemma isBare_of_isOptionalClass {cls : Text} (h : cls.isOptionalClass = true) :
    cls = [] ∨ IsBare cls := by
  rw [isOptionalClass, Bool.or_eq_true, decide_eq_true_eq] at h
  exact h.imp id isBare_of_isClassWord

lemma afterGap_eq_clause (kw : Text) {v : Text} (hv : v ≠ []) :
    clause kw v = kw ++ afterGap v := by
  rw [clause_eq, afterGap_of_ne_nil hv]

/-- The line of an unknown statement. -/
lemma otherLines_cons (o : OtherOption) (os : List OtherOption) :
    otherLines (o :: os) = .line (o.name ++ afterGap o.raw) :: otherLines os := by
  have hline : (if o.raw = [] then o.name else clause o.name o.raw) = o.name ++ afterGap o.raw := by
    split
    next h => rw [h, afterGap, if_pos rfl, List.append_nil]
    next h => exact afterGap_eq_clause o.name h
  rw [← hline]
  rfl

lemma isKeyword_of_isWord {kw : Text} (h : kw.isWord = true) : IsKeyword kw :=
  (isBare_of_isWord h).isKeyword

/-! ## Statements read back -/

/-- The statement is neat, and at any depth it has the keyword and is read as the entity. -/
structure ReadBack {α : Type} (kw : Text) (read : Statement → Noted α) (e : α) (n : Node) :
    Prop where
  neat : n.Neat
  keyword : ∀ depth, (said depth n).keyword = kw
  read_eq : ∀ depth, read (said depth n) = pure e

namespace ReadBack

variable {α : Type} {kw : Text} {read : Statement → Noted α} {e : α}

/-- A line is read from its keyword and its value. -/
lemma line {v : Text} (hk : IsKeyword kw) (hv : IsTail v)
    (hread : read (Statement.ofParts kw (afterGap v)) = pure e) :
    ReadBack kw read e (.line (kw ++ afterGap v)) := by
  refine ⟨.line hk hv, fun depth => ?_, fun depth => ?_⟩
  · rw [said_line hk hv]
    rfl
  · rw [said_line hk hv, hread]

/-- A block is read from its header and the statements in it. -/
lemma block {h : Text} {body : List Node} (hk : IsKeyword kw) (hh : IsTail h)
    (hg : noGroups h = true) (hbody : ∀ n ∈ body, n.Neat)
    (hread : ∀ depth s, s.header = h → s.children = body.map (said (depth + 1)) →
      read s = pure e) : ReadBack kw read e (.block (kw ++ afterGap h) body) := by
  refine ⟨.block hk hh hg hbody, fun depth => ?_, fun depth => ?_⟩
  · exact (said_block hk hh hg hbody depth).1
  · obtain ⟨-, hheader, hchildren⟩ := said_block hk hh hg hbody depth
    exact hread depth _ hheader hchildren

/-- A block with a name and perhaps a class. -/
lemma namedBlock {name cls : Text} {body : List Node} (hkw : kw.isWord = true)
    (hname : name.isClean = true) (hcls : cls = [] ∨ IsBare cls) (hbody : ∀ n ∈ body, n.Neat)
    (hread : ∀ depth s, s.header = quote name ++ afterGap cls →
      s.children = body.map (said (depth + 1)) → read s = pure e) :
    ReadBack kw read e (.block (namedHeader kw name cls) body) := by
  obtain ⟨hh, hg⟩ := isTail_header hname hcls
  rw [namedHeader_eq_afterGap]
  exact block (isKeyword_of_isWord hkw) hh hg hbody hread

/-- A block that is nothing but its keyword and its body. -/
lemma bareBlock {body : List Node} (hkw : kw.isWord = true) (hbody : ∀ n ∈ body, n.Neat)
    (hread : ∀ depth s, s.children = body.map (said (depth + 1)) → read s = pure e) :
    ReadBack kw read e (.block kw body) := by
  have hgroups : noGroups [] = true := by
    rw [noGroups, items_nil]
    rfl
  have h : ReadBack kw read e (.block (kw ++ afterGap []) body) :=
    block (isKeyword_of_isWord hkw) isTail_nil hgroups hbody fun depth s _ hs => hread depth s hs
  rwa [afterGap, if_pos rfl, List.append_nil] at h

end ReadBack

/-! ## Members -/

namespace Member

variable {β : Type} {table ms : List (Member β)} {kw : Text}

/-- A statement is offered to the members with its keyword. -/
lemma take?_eq (h : table.filter (·.keyword = kw) = ms) {s : Statement} (hs : s.keyword = kw)
    (b : β) : take? table s b = ms.findSome? fun m => m.read? s b := by
  subst h
  subst hs
  induction table with
  | nil => rfl
  | cons m table ih =>
      rw [take?, List.findSome?_cons, ← take?, ih]
      by_cases hm : m.keyword = s.keyword
      · rw [if_pos hm, List.filter_cons, if_pos (decide_eq_true hm), List.findSome?_cons]
      · rw [if_neg hm, List.filter_cons, if_neg (by simpa using hm)]

/-- The members of a table that decline a statement when the block is `a` decline it when it
    is `b`. -/
def Declines (table : List (Member β)) (a b : β) : Prop :=
  ∀ m ∈ table, ∀ s, m.read? s a = none → m.read? s b = none

lemma Declines.take?_eq_none {a b : β} (h : Declines table a b) {s : Statement}
    (hs : take? table s a = none) : take? table s b = none := by
  rw [take?, List.findSome?_eq_none_iff] at hs ⊢
  intro m hm
  have hdeclined := hs m hm
  split
  next hkw =>
    rw [if_pos hkw] at hdeclined
    exact h m hm s hdeclined
  next => rfl

section Kinds

variable {α : Type} (kw : Text) (s : Statement) (b : β)

@[simp] lemma all_read?_ne_none (read : Statement → β → Noted β) :
    ¬ (all kw read).read? s b = none := Option.some_ne_none _

@[simp] lemma string_read?_ne_none (put : Text → β → β) :
    ¬ (string kw put).read? s b = none := Option.some_ne_none _

@[simp] lemma noted_read?_ne_none (read : Text → Noted α) (put : α → β → β) :
    ¬ (noted kw read put).read? s b = none := Option.some_ne_none _

@[simp] lemma value?_read?_eq_none (read : Text → Option α) (put : α → β → β) :
    (value? kw read put).read? s b = none ↔ read s.value = none := Option.map_eq_none_iff

@[simp] lemma yesNo_read?_eq_none (put : Bool → β → β) :
    (yesNo kw put).read? s b = none ↔ readYesNo? s.value = none := Option.map_eq_none_iff

@[simp] lemma number_read?_eq_none (put : Int → β → β) :
    (number kw put).read? s b = none ↔ readInt? s.value = none := Option.map_eq_none_iff

@[simp] lemma braced_read?_eq_none (read : Text → Noted α) (put : α → β → β) :
    (braced kw read put).read? s b = none ↔ isBraced s.value = false := by
  simp [braced]

end Kinds

end Member

/-! ## The statements of a body -/

/-- The statements of a body, laid out at the given depth, take the block under construction from
    `a` to `b`, whatever follows them. -/
structure Reads {β : Type} (table : List (Member β)) (other : Statement → β → Noted β) (depth : ℕ)
    (ns : List Node) (a b : β) : Prop where
  neat : ∀ n ∈ ns, n.Neat
  run : ∀ rest, readMembers table other (ns.map (said depth) ++ rest) a =
    readMembers table other rest b

namespace Reads

variable {α β : Type} {table : List (Member β)} {other : Statement → β → Noted β} {depth : ℕ}
  {ns ms : List Node} {a b c : β} {kw : Text}

lemma nil : Reads table other depth [] a a := ⟨fun _ h => absurd h List.not_mem_nil, fun _ => rfl⟩

lemma append (hns : Reads table other depth ns a b) (hms : Reads table other depth ms b c) :
    Reads table other depth (ns ++ ms) a c := by
  refine ⟨fun n hn => ?_, fun rest => ?_⟩
  · exact (List.mem_append.mp hn).elim (hns.neat n) (hms.neat n)
  · rw [List.map_append, List.append_assoc, hns.run, hms.run]

/-- Lines are statements one after the other. -/
lemma append_lines {l m : List Text} (hl : Reads table other depth (lines l) a b)
    (hm : Reads table other depth (lines m) b c) :
    Reads table other depth (lines (l ++ m)) a c := by
  rw [lines, List.map_append]
  exact hl.append hm

/-- At the end of its body a block is complete. -/
lemma read_eq (h : Reads table other depth ns a b) :
    readMembers table other (ns.map (said depth)) a = pure b := by
  have hrun := h.run []
  rw [List.append_nil] at hrun
  rw [hrun, readMembers]

/-- One statement that a member takes. -/
lemma one {n : Node} (hn : n.Neat)
    (htake : Member.take? table (said depth n) a = some (pure b)) :
    Reads table other depth [n] a b := by
  refine ⟨fun m hm => List.mem_singleton.mp hm ▸ hn, fun rest => ?_⟩
  show (Member.take? table (said depth n) a).getD (other (said depth n) a) >>= _ = _
  rw [htake, Option.getD_some, pure_bind]
  rfl

/-- A line that the members with its keyword read by its value. -/
lemma clause {members : List (Member β)} (htable : table.filter (·.keyword = kw) = members)
    (hkw : kw.isWord = true) {v : Text} (hv : IsValue v)
    (hread : ∀ s : Statement, s.value = v →
      (members.findSome? fun m => m.read? s a) = some (pure b)) :
    Reads table other depth (lines [Text.clause kw v]) a b := by
  have hk := isKeyword_of_isWord hkw
  rw [afterGap_eq_clause kw hv.ne_nil]
  refine one (.line hk hv.isTail) ?_
  rw [said_line hk hv.isTail, Member.take?_eq htable rfl]
  exact hread _ (Statement.value_ofParts hv.isTail)

/-- A line that is nothing but a keyword. -/
lemma word {members : List (Member β)} (htable : table.filter (·.keyword = kw) = members)
    (hkw : kw.isWord = true)
    (hread : ∀ s : Statement, s.value = [] →
      (members.findSome? fun m => m.read? s a) = some (pure b)) :
    Reads table other depth (lines [kw]) a b := by
  have hk := isKeyword_of_isWord hkw
  have hline : kw = kw ++ afterGap [] := by rw [afterGap, if_pos rfl, List.append_nil]
  have hone : Reads table other depth [.line (kw ++ afterGap [])] a b := by
    refine one (.line hk isTail_nil) ?_
    rw [said_line hk isTail_nil, Member.take?_eq htable rfl]
    exact hread _ (Statement.value_ofParts isTail_nil)
  rwa [← hline] at hone

/-- A string, if it is not empty. -/
lemma string (put : Text → β → β) (htable : table.filter (·.keyword = kw) = [.string kw put])
    (hkw : kw.isWord = true) {s : Text} (hs : s.isClean = true) (habsent : put [] a = a) :
    Reads table other depth (lines (nameClause kw s)) a (put s a) := by
  rw [nameClause]
  split
  next h =>
    rw [h, habsent]
    exact nil
  next =>
    have hs := isQuotable_of_isClean hs
    refine clause htable hkw (isValue_quote hs) fun st hst => ?_
    show some (pure (put st.value.unquote a)) = _
    rw [hst, unquote_quote hs]

/-- A value that is read or declined, if it is there. -/
lemma optional (write : α → Text) (read : Text → Option α) (put : Option α → β → β)
    (htable : table.filter (·.keyword = kw) = [.value? kw read fun x => put (some x)])
    (hkw : kw.isWord = true) {x? : Option α}
    (hx : ∀ x ∈ x?, IsValue (write x) ∧ read (write x) = some x) (habsent : put none a = a) :
    Reads table other depth (lines (x?.toList.map fun x => Text.clause kw (write x))) a
      (put x? a) := by
  cases x? with
  | none =>
      rw [habsent]
      exact nil
  | some x =>
      obtain ⟨hvalue, hread⟩ := hx x rfl
      refine clause htable hkw hvalue fun st hst => ?_
      rw [List.findSome?_singleton]
      show (read st.value).map _ = _
      rw [hst, hread]
      rfl

/-- Yes or no, if it is said. -/
lemma yesNo (put : Option Bool → β → β)
    (htable : table.filter (·.keyword = kw) = [.yesNo kw fun b => put (some b)])
    (hkw : kw.isWord = true) {b? : Option Bool} (habsent : put none a = a) :
    Reads table other depth (lines (yesNoClause kw b?)) a (put b? a) := by
  have hclause : yesNoClause kw b? = b?.toList.map fun b => Text.clause kw (ofYesNo b) := by
    cases b? <;> rfl
  rw [hclause]
  exact optional ofYesNo readYesNo? put htable hkw
    (fun b _ => ⟨(isBare_ofYesNo b).isValue, readYesNo?_ofYesNo b⟩) habsent

/-- A number, if there is one. -/
lemma number (put : Option ℤ → β → β)
    (htable : table.filter (·.keyword = kw) = [.number kw fun n => put (some n)])
    (hkw : kw.isWord = true) {n? : Option ℤ} (hn : fitsInt32 n? = true) (habsent : put none a = a) :
    Reads table other depth (lines (numberClause kw n?)) a (put n? a) := by
  have hclause : numberClause kw n? = n?.toList.map fun n => Text.clause kw (ofInt n) := by
    cases n? <;> rfl
  rw [hclause]
  refine optional ofInt readInt? put htable hkw (fun n h => ?_) habsent
  obtain rfl := h
  obtain ⟨hbare, hread⟩ := readInt?_ofInt (n := n) hn
  exact ⟨hbare.isValue, hread⟩

/-- A word or a longer value, if it is not empty. -/
lemma value (put : Text → β → β)
    (htable : table.filter (·.keyword = kw) = [.all kw fun s b => pure (put s.value b)])
    (hkw : kw.isWord = true) {v : Text} (hv : IsTail v) (habsent : put [] a = a) :
    Reads table other depth (lines (wordClause kw v)) a (put v a) := by
  rw [wordClause]
  split
  next h =>
    rw [h, habsent]
    exact nil
  next h =>
    refine clause htable hkw (hv.resolve_left h) fun st hst => ?_
    show some (pure (put st.value a)) = _
    rw [hst]

/-- A list of strings, if it is not empty. -/
lemma strings (put : List Text → β → β)
    (htable : table.filter (·.keyword = kw) =
      [.all kw fun s b => pure (put s.value.readStrings b)])
    (hkw : kw.isWord = true) {l : List Text} (hl : ∀ s ∈ l, s.isClean = true)
    (habsent : put [] a = a) :
    Reads table other depth (lines (stringsClause kw l)) a (put l a) := by
  rw [stringsClause]
  split
  next h =>
    rw [h, habsent]
    exact nil
  next =>
    have hl := fun s h => isQuotable_of_isClean (hl s h)
    refine clause htable hkw (isToken_ofStrings hl).isValue fun st hst => ?_
    show some (pure (put st.value.readStrings a)) = _
    rw [hst, readStrings_ofStrings hl]

/-- A value with remarks, if it is there. -/
lemma noted (write : α → Text) (read : Text → Noted α) (put : Option α → β → β)
    (htable : table.filter (·.keyword = kw) = [.noted kw read fun x => put (some x)])
    (hkw : kw.isWord = true) {x? : Option α}
    (hx : ∀ x ∈ x?, IsValue (write x) ∧ read (write x) = pure x) (habsent : put none a = a) :
    Reads table other depth (lines (x?.toList.map fun x => Text.clause kw (write x))) a
      (put x? a) := by
  cases x? with
  | none =>
      rw [habsent]
      exact nil
  | some x =>
      obtain ⟨hvalue, hread⟩ := hx x rfl
      refine clause htable hkw hvalue fun st hst => ?_
      show some (read st.value >>= fun x => pure (put (some x) a)) = _
      rw [hst, hread, pure_bind]

/-- A list in braces, if it is there. -/
lemma braced (write : α → Text) (read : Text → Noted α) (put : Option α → β → β)
    (htable : table.filter (·.keyword = kw) = [.braced kw read fun x => put (some x)])
    (hkw : kw.isWord = true) {x? : Option α}
    (hx : ∀ x ∈ x?, IsValue (write x) ∧ Member.isBraced (write x) = true ∧
      read (write x) = pure x) (habsent : put none a = a) :
    Reads table other depth (lines (x?.toList.map fun x => Text.clause kw (write x))) a
      (put x? a) := by
  cases x? with
  | none =>
      rw [habsent]
      exact nil
  | some x =>
      obtain ⟨hvalue, hbraced, hread⟩ := hx x rfl
      refine clause htable hkw hvalue fun st hst => ?_
      rw [List.findSome?_singleton]
      show (if Member.isBraced st.value = true
        then some (read st.value >>= fun x => pure (put (some x) a)) else none) = _
      rw [hst, if_pos hbraced, hread, pure_bind]

/-- Statements of their own, one for each entity. -/
lemma each {read : Statement → Noted α} {node : α → Node} (put : α → β → β) (add : List α → β)
    (htable : table.filter (·.keyword = kw) =
      [.all kw fun s b => read s >>= fun e => pure (put e b)])
    (hput : ∀ l e, put e (add l) = add (l ++ [e])) {l : List α}
    (hl : ∀ e ∈ l, ReadBack kw read e (node e)) :
    Reads table other depth (l.map node) (add []) (add l) := by
  have hrun : ∀ done, Reads table other depth (l.map node) (add done) (add (done ++ l)) := by
    induction l with
    | nil =>
        intro done
        rw [List.append_nil]
        exact nil
    | cons e l ih =>
        intro done
        have he := hl e (List.mem_cons_self ..)
        have hone : Reads table other depth [node e] (add done) (add (done ++ [e])) := by
          refine one he.neat ?_
          rw [Member.take?_eq htable (he.keyword depth)]
          show some (read (said depth (node e)) >>= fun e => pure (put e (add done))) = _
          rw [he.read_eq, pure_bind, hput]
        have hrest := ih (fun f hf => hl f (List.mem_cons_of_mem _ hf)) (done ++ [e])
        rw [List.append_assoc] at hrest
        exact hone.append hrest
  exact hrun []

/-- A value with remarks, if there is a match list. -/
lemma matchList (put : Option (List MatchTerm) → β → β)
    (htable : table.filter (·.keyword = kw) =
      [.noted kw MatchTerm.readList fun ts => put (some ts)])
    (hkw : kw.isWord = true) {ts? : Option (List MatchTerm)}
    (hts : ∀ ts ∈ ts?, MatchTerm.areWellFormed ts = true) (habsent : put none a = a) :
    Reads table other depth (lines (matchClause kw ts?)) a (put ts? a) := by
  have hclause : matchClause kw ts? =
      ts?.toList.map fun ts => Text.clause kw (MatchTerm.textOfList ts) := by cases ts? <;> rfl
  rw [hclause]
  exact noted MatchTerm.textOfList MatchTerm.readList put htable hkw
    (fun ts h => ⟨(MatchTerm.isToken_textOfList (hts ts h)).isValue,
      MatchTerm.readList_textOfList_of_areWellFormed (hts ts h)⟩) habsent

/-- A list of forwarders in braces, if there is one. -/
lemma forwarders (put : Option (List Forwarder) → β → β)
    (htable : table.filter (·.keyword = ("forwarders" : Text)) =
      [.braced "forwarders" Forwarder.readList fun fs => put (some fs)])
    {fs? : Option (List Forwarder)} (hfs : ∀ fs ∈ fs?, ∀ f ∈ fs, f.WellFormed)
    (habsent : put none a = a) :
    Reads table other depth (lines (forwardersClause fs?)) a (put fs? a) := by
  have hclause : forwardersClause fs? =
      fs?.toList.map fun fs => Text.clause "forwarders" (Forwarder.textOfList fs) := by
    cases fs? <;> rfl
  rw [hclause]
  exact braced Forwarder.textOfList Forwarder.readList put htable (by decide)
    (fun fs h => ⟨isValue_joined (Forwarder.isValue_of_mem_texts (hfs fs h)), rfl,
      Forwarder.readList_text (hfs fs h)⟩) habsent

/-- Lines of their own, one for each entity. -/
lemma eachLine {read : Statement → Noted α} {write : α → Text} (put : α → β → β) (add : List α → β)
    (htable : table.filter (·.keyword = kw) =
      [.all kw fun s b => read s >>= fun e => pure (put e b)])
    (hput : ∀ l e, put e (add l) = add (l ++ [e])) {l : List α}
    (hl : ∀ e ∈ l, ReadBack kw read e (.line (write e))) :
    Reads table other depth (lines (l.map write)) (add []) (add l) := by
  rw [lines, List.map_map]
  exact each put add htable hput hl

/-- **Statements that no member takes** are kept. -/
lemma others (add : List OtherOption → β)
    (hkeep : ∀ l s, other s (add l) = pure (add (l ++ [⟨s.keyword, s.value⟩]))) {block : β}
    (hadd : ∀ l, Member.Declines table block (add l)) {os : List OtherOption}
    (hos : ∀ o ∈ os, o.IsFree table block) :
    Reads table other depth (otherLines os) (add []) (add os) := by
  have hrun : ∀ done, Reads table other depth (otherLines os) (add done) (add (done ++ os)) := by
    induction os with
    | nil =>
        intro done
        rw [List.append_nil]
        exact nil
    | cons o os ih =>
        intro done
        have ho := hos o (List.mem_cons_self ..)
        have hsaid : said depth (.line (o.name ++ afterGap o.raw)) = o.statement :=
          said_line ho.name ho.raw depth
        have hkept : other o.statement (add done) = pure (add (done ++ [o])) := by
          rw [hkeep, OtherOption.statement, Statement.value_ofParts ho.raw]
          rfl
        have hone : Reads table other depth [.line (o.name ++ afterGap o.raw)] (add done)
            (add (done ++ [o])) := by
          refine ⟨fun m hm => List.mem_singleton.mp hm ▸ .line ho.name ho.raw, fun rest => ?_⟩
          rw [List.map_singleton, hsaid, List.singleton_append, readMembers,
            (hadd done).take?_eq_none ho.free, Option.getD_none, hkept, pure_bind]
        have hrest := ih (fun p hp => hos p (List.mem_cons_of_mem _ hp)) (done ++ [o])
        rw [List.append_assoc] at hrest
        rw [otherLines_cons]
        exact hone.append hrest
  exact hrun []

end Reads

/-! ## Blocks of members -/

namespace ReadBack

variable {β : Type} {kw : Text} {read : Statement → Noted β} {e start : β}
  {table : List (Member β)} {other : Statement → β → Noted β} {body : List Node}

/-- A block with a name that is read by its members. -/
lemma namedMembers {name cls : Text} (hkw : kw.isWord = true) (hname : name.isClean = true)
    (hcls : cls = [] ∨ IsBare cls) (hbody : ∀ depth, Reads table other depth body start e)
    (hread : ∀ s, s.header = quote name ++ afterGap cls →
      read s = readMembers table other s.children start) :
    ReadBack kw read e (.block (namedHeader kw name cls) body) :=
  namedBlock hkw hname hcls (hbody 0).neat fun depth s hheader hchildren => by
    rw [hread s hheader, hchildren, (hbody (depth + 1)).read_eq]

/-- A block without a name that is read by its members. -/
lemma bareMembers (hkw : kw.isWord = true)
    (hbody : ∀ depth, Reads table other depth body start e)
    (hread : ∀ s, read s = readMembers table other s.children start) :
    ReadBack kw read e (.block kw body) :=
  bareBlock hkw (hbody 0).neat fun depth s hchildren => by
    rw [hread s, hchildren, (hbody (depth + 1)).read_eq]

end ReadBack

end NameServerConf
