import NameServerConf.Proofs.Collected
import NameServerConf.Proofs.MatchLists
import NameServerConf.Proofs.Splitting

/-!
# Match lists in bodies and in values

The body of an `acl` statement is a match list, and so is the value of clauses such as `allow-query`.
One is read from the text inside the braces, the other from the text with them.

**Braces.**  With its braces or without, a normalized list is taken apart the same way
(`stripBraces_normalize_group`), but for a list that is one group in braces itself: without its own
braces it loses those of the group (`stripBraces_normalize`).

**Lists.**  So an `acl` statement says what its braces say elsewhere, unless all there is in them is
one more list in braces, not even a semicolon behind it; that list is then taken for its own
(`Acl.elements_eq_iff`).
-/

namespace NameServerConf

namespace Text

variable {s t : Text}

/-! ## The ends of a tidied text -/

section Ends

variable {before gap behind : Bool} {is : List Item} {i : Item}

/-- With nothing before it, a tidied list begins with no gap. -/
lemma isGap_head?_tidy_false (h : i ∈ (tidy false gap behind is).head?) : i.isGap = false := by
  induction is generalizing gap with
  | nil =>
      rw [tidy_nil, Bool.false_and, Bool.false_and] at h
      cases h
  | cons j js ih =>
      by_cases hj : j.isGap = true
      · rw [tidy_gap hj] at h
        exact ih h
      · rw [Bool.not_eq_true] at hj
        rw [tidy_cons hj, Bool.false_and] at h
        obtain rfl : j = i := Option.some.inj h
        exact hj

/-- With nothing behind it, a tidied list ends with no gap. -/
lemma isGap_getLast?_tidy_false (h : i ∈ (tidy before gap false is).getLast?) : i.isGap = false := by
  induction is generalizing before gap with
  | nil =>
      rw [tidy_nil, Bool.and_false] at h
      cases h
  | cons j js ih =>
      by_cases hj : j.isGap = true
      · rw [tidy_gap hj] at h
        exact ih h
      · rw [Bool.not_eq_true] at hj
        rw [tidy_cons hj, List.getLast?_append, List.getLast?_cons] at h
        cases hlast : (tidy true false false js).getLast? with
        | none =>
            rw [hlast] at h
            obtain rfl : j = i := Option.some.inj h
            exact hj
        | some k =>
            rw [hlast] at h
            obtain rfl : k = i := Option.some.inj h
            exact ih hlast

/-- One thing among gaps stands alone when it is tidied. -/
lemma tidy_eq_singleton_iff : tidy false gap false is = [i] ↔ is.filter (!·.isGap) = [i] := by
  have hhead := @isGap_head?_tidy_false gap false is
  have hlast := @isGap_getLast?_tidy_false false gap is
  rw [← filter_tidy false gap false is]
  generalize tidy false gap false is = js at hhead hlast
  constructor
  · rintro rfl
    rw [List.filter_singleton, hhead rfl]
    rfl
  · intro h
    cases js with
    | nil => cases h
    | cons j js =>
        rw [List.filter_cons_of_pos (by rw [hhead rfl]; rfl)] at h
        obtain ⟨rfl, hjs⟩ := List.cons.inj h
        -- what comes last is no gap, so nothing comes after the first
        cases hnext : js.getLast? with
        | none => rw [List.getLast?_eq_none_iff.mp hnext]
        | some k =>
            have hk : k.isGap = false := hlast (by rw [List.getLast?_cons, hnext]; rfl)
            have hmem := List.filter_eq_nil_iff.mp hjs k (List.mem_of_getLast? hnext)
            rw [hk] at hmem
            exact absurd rfl hmem

end Ends

/-- The items of a value text are bytes, strings and groups. -/
lemma of_mem_items_value {i : Item} (h : i ∈ items .value s) :
    (∃ b, i = .byte b) ∨ (∃ t, i = .quoted (Byte.quote :: t)) ∨ ∃ t closed, i = .group t closed := by
  obtain hlex | hgroup := of_mem_nest h
  · exact (of_mem_lexemes_value hlex).imp_right .inl
  · exact .inr (.inr hgroup)

/-- What begins and ends with something finished that is no gap has no blanks around it. -/
lemma trim_eq_of_items (hhead : ∀ i ∈ (items .value s).head?, i.isGap = false)
    (hlast : ∀ i ∈ (items .value s).getLast?, i.isGap = false ∧ i.isFinished = true) :
    trim s = s := by
  have htext := ofItems_items .value s
  refine trim_eq_self (fun b hb => ?_) fun b hb => ?_
  · cases hitems : items .value s with
    | nil =>
        rw [hitems] at htext
        rw [← htext] at hb
        cases hb
    | cons i is =>
        rw [hitems] at htext hhead
        rw [← htext, ofItems_cons] at hb
        have hi := hhead i rfl
        obtain ⟨c, rfl⟩ | ⟨u, rfl⟩ | ⟨u, closed, rfl⟩ :=
          of_mem_items_value (s := s) (hitems ▸ List.mem_cons_self ..)
        all_goals obtain rfl := Option.some.inj hb
        exacts [hi, rfl, rfl]
  · obtain hnil | ⟨is, i, hitems⟩ := List.eq_nil_or_concat (items .value s)
    · rw [hnil] at htext
      rw [← htext] at hb
      cases hb
    · rw [List.concat_eq_append] at hitems
      have hi : i ∈ (items .value s).getLast? := by rw [hitems, List.getLast?_concat]; rfl
      obtain ⟨hgap, hfinished⟩ := hlast i hi
      rw [← htext, hitems, ofItems_append, ofItems_cons, ofItems_nil, List.append_nil,
        List.getLast?_append] at hb
      obtain ⟨c, rfl⟩ | ⟨u, rfl⟩ | ⟨u, closed, rfl⟩ := of_mem_items_value (List.mem_of_getLast? hi)
      · obtain rfl := Option.some.inj hb
        exact hgap
      · have hmark : u.getLast? = some Byte.quote := getLast?_of_closesQuote hfinished
        rw [Item.text, List.getLast?_cons, hmark] at hb
        obtain rfl := Option.some.inj hb
        rfl
      · obtain rfl : closed = true := hfinished
        rw [Item.text, if_pos rfl, List.getLast?_concat] at hb
        obtain rfl := Option.some.inj hb
        rfl

/-- Blanks around a text do not count. -/
lemma trim_blankIf (c d : Bool) (t : Text) :
    trim (ofItems (blankIf c) ++ (t ++ ofItems (blankIf d))) = trim t := by
  have hbefore : ∀ u, trim (ofItems (blankIf c) ++ u) = trim u := fun u => by cases c <;> rfl
  rw [hbefore]
  cases d with
  | false => rw [blankIf_false, ofItems_nil, List.append_nil]
  | true =>
      show trim (t ++ [Byte.space]) = trim t
      rw [trim, trim, strip, strip, List.dropWhile_append]
      split
      next hblank =>
        rw [List.isEmpty_iff.mp hblank]
        rfl
      next => exact dropRight_concat rfl _

variable (hs : ∀ i ∈ items .file s, i.isFinished = true)
include hs

lemma trim_normalize : trim (normalize s) = normalize s := by
  have hitems := items_normalize (groupsClosed_of_finished hs)
  refine trim_eq_of_items (fun i hi => ?_) fun i hi => ?_
  · rw [hitems, List.head?_map] at hi
    obtain ⟨j, hj, rfl⟩ := Option.map_eq_some_iff.mp hi
    rw [isGap_tidyGroup]
    exact isGap_head?_tidy_false hj
  · refine ⟨?_, isFinished_of_mem_tidyGroup hs (hitems ▸ List.mem_of_getLast? hi)⟩
    rw [hitems, List.getLast?_map] at hi
    obtain ⟨j, hj, rfl⟩ := Option.map_eq_some_iff.mp hi
    rw [isGap_tidyGroup]
    exact isGap_getLast?_tidy_false hj

/-- Without the blanks around it, a text tidied for a place inside is normalized. -/
lemma trim_tidyText : trim (tidyText true true s) = normalize s := by
  obtain ⟨c, hc⟩ := exists_tidy_eq_blankIf_append true false true (lexemes .file s)
  obtain ⟨d, hd⟩ := exists_tidy_eq_append_blankIf false false true (lexemes .file s)
  rw [tidyText, hc, hd, ofItems_append, ofItems_append, ← tidyText, ← normalize_eq_tidyText,
    trim_blankIf, trim_normalize hs]

omit hs

/-! ## Braces -/

section Group

variable {u : Text} (h : .group s true ∈ items .file u)
include h

/-- A group is one item wherever it stands. -/
lemma items_group : items .file (Item.group s true).text = [.group s true] := by
  obtain ⟨as, bs, hsplit⟩ := List.append_of_mem h
  have hfront : items .file (ofItems (.group s true :: bs)) = [.group s true] ++ bs :=
    items_ofItems_suffix hsplit
  have hgroup := items_ofItems_prefix hfront
  rwa [ofItems_cons, ofItems_nil, List.append_nil] at hgroup

/-- **A list with its braces** loses them. -/
lemma stripBraces_normalize_group :
    stripBraces (normalize (Item.group s true).text) = normalize s := by
  have hitems := items_group h
  have hfinished : ∀ i ∈ items .file (Item.group s true).text, i.isFinished = true := by
    rw [hitems]
    exact List.forall_mem_singleton.mpr rfl
  rw [stripBraces, trim_normalize hfinished, items_normalize (groupsClosed_of_finished hfinished),
    hitems]
  exact trim_tidyText (isFinished_iff.mp (isFinished_of_group h)).1

end Group

/-- A text that is one group in braces, blanks and comments aside. -/
def isLoneGroup (s : Text) : Bool :=
  match (items .file s).filter (!·.isGap) with
  | [i] => i.isGroup
  | _ => false

section LoneGroup

variable (hs : ∀ i ∈ items .file s, i.isFinished = true)
include hs

lemma isLoneGroup_iff : isLoneGroup s = true ↔
    ∃ x, items .value (normalize s) = [.group x true] := by
  rw [items_normalize (groupsClosed_of_finished hs), isLoneGroup]
  constructor
  · intro h
    split at h
    next i hi =>
      have hmem : i ∈ items .file s := List.mem_of_mem_filter (hi ▸ List.mem_singleton_self i)
      rw [tidy_eq_singleton_iff.mpr hi]
      cases i with
      | group x closed =>
          obtain rfl : closed = true := hs _ hmem
          exact ⟨_, rfl⟩
      | byte b => cases h
      | quoted t => cases h
      | comment t => cases h
    next => cases h
  · rintro ⟨x, hx⟩
    obtain ⟨i, hi, hgroup⟩ := List.map_eq_singleton_iff.mp hx
    rw [tidy_eq_singleton_iff.mp hi]
    show i.isGroup = true
    rw [← isGroup_tidyGroup, hgroup]
    rfl

/-- **A list without its braces** loses none, if it is no group in braces itself. -/
lemma stripBraces_normalize (h : isLoneGroup s = false) :
    stripBraces (normalize s) = normalize s := by
  have hno : ¬ ∃ x, items .value (normalize s) = [.group x true] := by
    rw [← isLoneGroup_iff hs, h]
    exact Bool.false_ne_true
  have hclosed := groupsClosed_of_finished hs
  rw [stripBraces, trim_normalize hs]
  split
  next x closed hx =>
    have hgroup : Item.group x closed ∈ items .value (normalize s) := by
      rw [hx]
      exact List.mem_singleton_self _
    rw [items_normalize hclosed] at hgroup
    obtain rfl : closed = true := isFinished_of_mem_tidyGroup hs hgroup
    exact absurd ⟨x, hx⟩ hno
  next => rfl

end LoneGroup

end Text

/-! ## Match lists -/

namespace MatchTerm

open Text

/-- The list that a part is found in is for the remarks only. -/
lemma value_readParts (l m : Text) (ps : List Text) :
    (readParts l ps).value = (readParts m ps).value := by
  induction ps with
  | nil => rw [readParts, readParts]
  | cons p ps ih =>
      rw [readParts, readParts]
      split
      · exact ih
      · simp only [Noted.value_bind, Noted.value_pure, ih]

/-- A list in braces that is read as a part is a term, and as a list is what is in it. -/
lemma value_readParts_of_group {n x : Text} (h : items .value n = [.group x true]) (l : Text) :
    (readParts l (parts n)).value = [.nested false (readList n).value] := by
  have htext : n = Byte.openBrace :: x ++ [Byte.closeBrace] := by
    rw [← ofItems_items .value n, h]
    simp [Item.text]
  have hhead : n.head? = some Byte.openBrace := by rw [htext]; rfl
  have hlast : n.getLast? = some Byte.closeBrace := by rw [htext, List.getLast?_concat]
  have hpart : IsPart .value n := by
    refine ⟨by rw [htext]; simp, rfl, by rw [h]; rfl, fun b hb => ?_, fun b hb => ?_⟩
    · rw [hhead] at hb
      obtain rfl := Option.some.inj hb
      rfl
    · rw [hlast] at hb
      obtain rfl := Option.some.inj hb
      rfl
  have hbang : n.head? ≠ some Byte.bang := by rw [hhead]; decide
  have hunbroken : isBrokenGroup n = false := isBrokenGroup_sign false hpart hbang (.inr ⟨x, h⟩)
  have hsign : splitSign n = (false, n) := splitSign_append false hpart hbang
  have hstrip : stripBraces n = trim x := by rw [stripBraces, hpart.trim_eq, h]
  rw [parts_eq_singleton hpart, readParts, hunbroken, if_neg Bool.false_ne_true, read_group hsign h,
    readList, hstrip, readParts]
  rfl

/-- No list is the only term of itself. -/
lemma ne_nested (negated : Bool) (ts : List MatchTerm) : ts ≠ [.nested negated ts] := by
  intro h
  have hsize := congrArg sizeOf h
  simp only [List.cons.sizeOf_spec, List.nil.sizeOf_spec, nested.sizeOf_spec] at hsize
  omega

/-- **A list in braces**, read with its braces and without: the same, or it is one list in braces, and
    without its own braces it is the one within. -/
theorem value_readList_group {s u : Text} (h : .group s true ∈ items .file u) :
    (s.isLoneGroup = false → (readList (normalize (Item.group s true).text)).value =
        (readList (normalize s)).value) ∧
      (s.isLoneGroup = true → (readList (normalize (Item.group s true).text)).value =
        [.nested false (readList (normalize s)).value]) := by
  have hs := (isFinished_iff.mp (isFinished_of_group h)).1
  rw [readList, stripBraces_normalize_group h]
  constructor
  · intro hlone
    rw [readList, stripBraces_normalize hs hlone]
    exact value_readParts _ _ _
  · intro hlone
    obtain ⟨x, hx⟩ := (isLoneGroup_iff hs).mp hlone
    exact value_readParts_of_group hx _

/-- The list that a value gives to every clause with a match list. -/
structure GivenBy (value : Text) (ts : List MatchTerm) : Prop where
  allowQuery : ∀ c : Statement, c.keyword = ("allow-query" : Text) → c.value = value →
    ∀ o, (Member.take? Options.members c o).map (·.value) = some { o with allowQuery := some ts }
  allowTransfer : ∀ c : Statement, c.keyword = ("allow-transfer" : Text) → c.value = value →
    (∀ o, (Member.take? Options.members c o).map (·.value) =
      some { o with allowTransfer := some ts }) ∧
    ∀ z, (Member.take? Zone.members c z).map (·.value) = some { z with allowTransfer := some ts }
  matchClients : ∀ c : Statement, c.keyword = ("match-clients" : Text) → c.value = value →
    ∀ unknown v, (Member.take? (View.members unknown) c v).map (·.value) =
      some { v with matchClients := some ts }

/-- A member that reads a match list puts the list of the value. -/
lemma take?_of_filter_eq {β : Type} (table : List (Member β)) {kw : Text}
    (put : List MatchTerm → β → β) (h : table.filter (·.keyword = kw) = [.noted kw readList put])
    {c : Statement} (hc : c.keyword = kw) (b : β) :
    (Member.take? table c b).map (·.value) = some (put (readList c.value).value b) := by
  rw [Member.take?_eq h hc, List.findSome?_singleton]
  rfl

lemma givenBy_readList (value : Text) : GivenBy value (readList value).value where
  allowQuery c hc := by
    rintro rfl
    exact take?_of_filter_eq Options.members
      (fun ts (o : Options) => { o with allowQuery := some ts }) rfl hc
  allowTransfer c hc := by
    rintro rfl
    exact ⟨take?_of_filter_eq Options.members
        (fun ts (o : Options) => { o with allowTransfer := some ts }) rfl hc,
      take?_of_filter_eq Zone.members
        (fun ts (z : Zone) => { z with allowTransfer := some ts }) rfl hc⟩
  matchClients c hc := by
    rintro rfl unknown
    exact take?_of_filter_eq (View.members unknown)
      (fun ts (v : View) => { v with matchClients := some ts }) rfl hc

end MatchTerm

/-! ## Statements -/

/-- A statement among the nodes is made by a piece. -/
lemma Node.exists_piece_of_source_mem {is : List Item} {u : Text} (h : .source u ∈ ofItems is) :
    ∃ p ∈ pieces is, u = Text.ofItems p := by
  fun_induction pieces is with
  | case1 =>
      rw [ofItems] at h
      cases h
  | case2 i rest hi ih =>
      refine ih ?_
      rw [ofItems, if_pos hi] at h
      replace h := (List.mem_cons.mp h).resolve_left (by simp)
      cases rest with
      | nil => exact h
      | cons j js =>
          by_cases hj : j.isFiller = true
          · rw [List.dropWhile_cons_of_pos hj] at h
            rw [ofItems, if_pos hj]
            exact List.mem_cons_of_mem _ h
          · rwa [List.dropWhile_cons_of_neg hj] at h
  | case3 i rest hi ih =>
      rw [ofItems, if_neg hi] at h
      rcases List.mem_cons.mp h with heq | h
      · exact ⟨_, List.mem_cons_self .., source.inj heq⟩
      · obtain ⟨p, hp, hu⟩ := ih h
        exact ⟨p, List.mem_cons_of_mem _ hp, hu⟩

/-- The body of a finished statement is what stands in its first braces. -/
lemma Statement.bodyText_read {t u inner : Text} (hu : .source u ∈ Node.parse t)
    (hfinished : u.isFinished = true)
    (hinner : (Text.items .file u).findSome? Item.inner? = some inner) :
    (read u).bodyText = Text.normalize inner := by
  obtain ⟨p, hp, rfl⟩ := Node.exists_piece_of_source_mem hu
  obtain ⟨ks, v, hread, -, hv, -, -, -, tail, rfl, hsplit, htail⟩ :=
    exists_parts_of_finished hp hfinished
  have hks : ks.findSome? Item.inner? = none := by
    refine List.findSome?_eq_none_iff.mpr fun i hi => ?_
    obtain ⟨q, rfl⟩ | ⟨b, rfl, -⟩ := hsplit.of_mem hi <;> rfl
  have htail : tail.findSome? Item.inner? = none := by
    obtain rfl | rfl := htail <;> rfl
  rw [Node.items_of_mem_pieces hp, List.findSome?_append, List.findSome?_append, hks, htail,
    Option.none_or, Option.or_none] at hinner
  rw [hread, bodyText_ofParts, hv, hinner]
  rfl

namespace Acl

/-- **An access list** has the terms that its braces give to clauses, unless there is nothing but one
    more list in braces in them; that list is then taken for its own. -/
theorem elements_eq_iff (unknown : Unknown) {t u inner : Text} (hu : .source u ∈ Node.parse t)
    (hkeyword : (Statement.read u).keyword = ("acl" : Text)) (hfinished : u.isFinished = true)
    (hinner : (Text.items .file u).findSome? Item.inner? = some inner) :
    let a := (ofStatement (Statement.read u)).value
    let value := Text.normalize (Item.group inner true).text
    let ts := (MatchTerm.readList value).value
    a ∈ (Config.ofNodes unknown (Node.parse t)).value.acls ∧ MatchTerm.GivenBy value ts ∧
      (a.elements = ts ↔ inner.isLoneGroup = false) ∧
      (inner.isLoneGroup = true → ts = [.nested false a.elements]) := by
  have hgroup : .group inner true ∈ Text.items .file u :=
    Statement.group_mem_of_findSome?_inner? (Text.isFinished_iff.mp hfinished).1 hinner
  obtain ⟨hsame, hlone⟩ := MatchTerm.value_readList_group hgroup
  have helements : (ofStatement (Statement.read u)).value.elements =
      (MatchTerm.readList (Text.normalize inner)).value := by
    rw [← Statement.bodyText_read hu hfinished hinner]
    rfl
  have hmem : (ofStatement (Statement.read u)).value ∈
      (Config.ofNodes unknown (Node.parse t)).value.acls := by
    rw [Config.value_ofNodes]
    refine List.mem_map_of_mem (List.mem_filter.mpr ⟨?_, decide_eq_true hkeyword⟩)
    exact List.mem_filterMap.mpr ⟨.source u, hu, rfl⟩
  refine ⟨hmem, MatchTerm.givenBy_readList _, ?_, fun h => ?_⟩
  · rw [helements]
    cases h : inner.isLoneGroup with
    | false => exact iff_of_true (hsame h).symm rfl
    | true =>
        rw [hlone h]
        exact iff_of_false (MatchTerm.ne_nested _ _) (by decide)
  · rw [helements, hlone h]

/-- An access list with lists in it, each with something behind it. -/
def nestedList : Text :=
  "acl x \x7b !\x7b a; \x7d; /* \x7d */ key \"k;\x7d\";\n\t\x7b b; !\x7b c; \x7d; \x7d; # ;\n\x7d;"

/-- The terms of that list. -/
def nestedTerms : List MatchTerm :=
  [.nested true [.acl false "a"], .key false "k;\x7d",
    .nested false [.acl false "b", .nested true [.acl false "c"]]]

/-- It says what it would say as the value of a clause. -/
theorem elements_eq_iff_nested :
    .source nestedList ∈ Node.parse nestedList ∧
      (Statement.read nestedList).keyword = ("acl" : Text) ∧ nestedList.isFinished = true ∧
      ∃ inner, (Text.items .file nestedList).findSome? Item.inner? = some inner ∧
        MatchTerm.GivenBy (Text.normalize (Item.group inner true).text) nestedTerms ∧
        (ofStatement (Statement.read nestedList)).value.elements = nestedTerms := by
  have hparse : Node.parse nestedList = [.source nestedList] := by cbv
  have hu : .source nestedList ∈ Node.parse nestedList := by
    rw [hparse]
    exact List.mem_singleton_self _
  have hkeyword : (Statement.read nestedList).keyword = ("acl" : Text) := by cbv
  have hfinished : nestedList.isFinished = true := by cbv
  obtain ⟨inner, hinner, hlone, hvalue⟩ : ∃ inner,
      (Text.items .file nestedList).findSome? Item.inner? = some inner ∧
      inner.isLoneGroup = false ∧
      Text.normalize (Item.group inner true).text = MatchTerm.textOfList nestedTerms :=
    ⟨_, by cbv, by cbv, by cbv⟩
  obtain ⟨-, hgiven, hsame, -⟩ := elements_eq_iff .keep hu hkeyword hfinished hinner
  have hterms : (MatchTerm.readList (Text.normalize (Item.group inner true).text)).value =
      nestedTerms := by
    rw [hvalue, (MatchTerm.readList_textOfList (by decide)).1]
    rfl
  rw [hterms] at hgiven hsame
  exact ⟨hu, hkeyword, hfinished, inner, hinner, hgiven, hsame.mpr hlone⟩

/-- An access list with one list in it and nothing behind that. -/
def loneList : Text := "acl x \x7b \x7b a; \x7d \x7d;"

/-- Its only term is taken for the whole of it, but not in the value of a clause. -/
theorem elements_ne_lone :
    .source loneList ∈ Node.parse loneList ∧
      (Statement.read loneList).keyword = ("acl" : Text) ∧ loneList.isFinished = true ∧
      ∃ inner, (Text.items .file loneList).findSome? Item.inner? = some inner ∧
        MatchTerm.GivenBy (Text.normalize (Item.group inner true).text)
          [.nested false [.acl false "a"]] ∧
        (ofStatement (Statement.read loneList)).value.elements = [.acl false "a"] ∧
        (ofStatement (Statement.read loneList)).value.elements ≠
          (MatchTerm.readList (Text.normalize (Item.group inner true).text)).value := by
  have hparse : Node.parse loneList = [.source loneList] := by cbv
  have hkeyword : (Statement.read loneList).keyword = ("acl" : Text) := by cbv
  have hbody : (Statement.read loneList).bodyText = MatchTerm.textOfList [.acl false "a"] := by cbv
  have hread : MatchTerm.readList (MatchTerm.textOfList [.acl false "a"]) = pure [.acl false "a"] :=
    (MatchTerm.readList_textOfList (by decide)).1
  obtain ⟨inner, hinner, hlone, hinside, hmem⟩ : ∃ inner,
      (Text.items .file loneList).findSome? Item.inner? = some inner ∧
      inner.isLoneGroup = true ∧
      Text.normalize inner = MatchTerm.textOfList [.acl false "a"] ∧
      (Text.items .file loneList)[6]? = some (.group inner true) :=
    ⟨_, by cbv, by cbv, by cbv, by cbv⟩
  have hterms : (MatchTerm.readList (Text.normalize (Item.group inner true).text)).value =
      [.nested false [.acl false "a"]] := by
    rw [(MatchTerm.value_readList_group (List.mem_of_getElem? hmem)).2 hlone, hinside, hread]
    rfl
  have helements : (ofStatement (Statement.read loneList)).value.elements = [.acl false "a"] := by
    show (MatchTerm.readList (Statement.read loneList).bodyText).value = _
    rw [hbody, hread]
    rfl
  refine ⟨?_, hkeyword, by cbv, inner, hinner, hterms ▸ MatchTerm.givenBy_readList _, helements, ?_⟩
  · rw [hparse]
    exact List.mem_singleton_self _
  · rw [helements, hterms]
    decide

end Acl

end NameServerConf
