import NameServerConf.Proofs.KeptStatements

/-!
# Two ways to split a body

What stands in the braces of a statement is split twice.  As text without comments it is split into
the parts of a list, at each semicolon (`Text.parts`); as it is written it is split into statements,
at their ends (`Node.parse`).

**One part for each piece.**  Where nothing is left open and no closing brace left over, the parts of
the normalized text are the pieces of the text, normalized and without their semicolons:
`parts_normalize`.  Semicolons with nothing between them make neither a part nor a piece, and the last
of both needs no semicolon.

**One statement.**  A part with a semicolon behind it says what the piece says
(`Statement.alike_read_partOf`), so both ways find the same statements: `agrees_parts_children`.
-/

namespace NameServerConf

namespace Text

/-! ## Parts of a normalized text -/

/-- A gap at the beginning leaves a blank or nothing. -/
lemma exists_tidy_eq_blankIf_append (before gap behind : Bool) (is : List Item) :
    ∃ c, tidy before gap behind is = blankIf c ++ tidy false false behind is := by
  induction is generalizing gap with
  | nil => exact ⟨before && gap && behind, (List.append_nil _).symm⟩
  | cons i is ih =>
      by_cases hi : i.isGap = true
      · rw [tidy_gap hi, tidy_gap hi, tidy_false_gap false]
        exact ih true
      · rw [Bool.not_eq_true] at hi
        exact ⟨before && gap, by rw [tidy_cons hi, tidy_cons hi]; rfl⟩

/-- A gap at the end leaves a blank or nothing. -/
lemma exists_tidy_eq_append_blankIf (before gap behind : Bool) (is : List Item) :
    ∃ c, tidy before gap behind is = tidy before gap false is ++ blankIf c := by
  induction is generalizing before gap with
  | nil => exact ⟨before && gap && behind, by rw [tidy_nil, tidy_nil, Bool.and_false]; rfl⟩
  | cons i is ih =>
      by_cases hi : i.isGap = true
      · rw [tidy_gap hi, tidy_gap hi]
        exact ih before true
      · rw [Bool.not_eq_true] at hi
        obtain ⟨c, hc⟩ := ih true false
        exact ⟨c, by rw [tidy_cons hi, tidy_cons hi, hc, List.append_assoc, List.cons_append]⟩

/-- What begins with no gap is tidied the same whether something stands before it or not. -/
lemma tidy_false_eq_of_head? {behind : Bool} {is : List Item} (h : ∃ i ∈ is.head?, i.isGap = false) :
    tidy false false behind is = tidy true false behind is := by
  obtain ⟨i, hi, hgap⟩ := h
  obtain ⟨rest, rfl⟩ := List.head?_eq_some_iff.mp hi
  rw [tidy_cons hgap, tidy_cons hgap]
  rfl

section Normalized

variable {is js : List Item}

/-- A gap before a text is not in its normal form. -/
lemma normalize_gap_cons {i : Item} (hi : i.isGap = true)
    (h : items .file (ofItems (i :: is)) = i :: is) (hclosed : groupsClosed (i :: is) = true) :
    normalize (ofItems (i :: is)) = normalize (ofItems is) := by
  have hsplit : items .file (ofItems (i :: is)) = [i] ++ is := h
  have his : items .file (ofItems is) = is := items_ofItems_suffix hsplit
  rw [normalize_eq_tidyText, normalize_eq_tidyText, ← ofItems_tidy h hclosed,
    ← ofItems_tidy his (groupsClosed_cons.mp hclosed).2, tidy_gap hi, tidy_false_gap false]

/-- **Around a semicolon** both sides are normalized, but for a blank on either side. -/
lemma exists_normalize_semicolon (h : items .file (ofItems (is ++ .byte Byte.semicolon :: js)) =
      is ++ .byte Byte.semicolon :: js)
    (hclosed : groupsClosed (is ++ .byte Byte.semicolon :: js) = true) :
    ∃ c d, normalize (ofItems (is ++ .byte Byte.semicolon :: js)) = normalize (ofItems is) ++
      (ofItems (blankIf c) ++ Byte.semicolon :: (ofItems (blankIf d) ++ normalize (ofItems js))) := by
  have his : items .file (ofItems is) = is := items_ofItems_prefix h
  have hsplit : items .file (ofItems (is ++ .byte Byte.semicolon :: js)) =
      (is ++ [.byte Byte.semicolon]) ++ js := by rw [h, List.append_assoc, List.singleton_append]
  have hjs : items .file (ofItems js) = js := items_ofItems_suffix hsplit
  have hclosed' := hclosed
  rw [groupsClosed, List.all_append, Bool.and_eq_true] at hclosed'
  obtain ⟨c, hc⟩ := exists_tidy_eq_append_blankIf false false true is
  obtain ⟨d, hd⟩ := exists_tidy_eq_blankIf_append true false false js
  refine ⟨c, d, ?_⟩
  rw [normalize_eq_tidyText, normalize_eq_tidyText, normalize_eq_tidyText, ← ofItems_tidy h hclosed,
    ← ofItems_tidy his hclosed'.1, ← ofItems_tidy hjs (groupsClosed_cons.mp hclosed'.2).2,
    tidy_append rfl, hc, hd]
  simp [map_tidyGroup_blankIf, tidyGroup, Item.text]

lemma parts_blankIf (c : Bool) (t : Text) : parts (ofItems (blankIf c) ++ t) = parts t := by
  cases c with
  | false => rfl
  | true => exact parts_space_cons t

/-- What nothing stands before is no part. -/
lemma parts_semicolon_cons (t : Text) : parts (Byte.semicolon :: t) = parts t := by
  have hsplit : splitItems (isSeparator Byte.semicolon)
      ([] ++ .byte Byte.semicolon :: items .value t) =
        [] :: splitItems (isSeparator Byte.semicolon) (items .value t) :=
    splitItems_append (fun j hj => absurd hj List.not_mem_nil) rfl _
  rw [List.nil_append] at hsplit
  rw [parts, partsAt, items_cons_of_single rfl, hsplit]
  rfl

lemma IsPart.trim_append_space {p : Text} (hp : IsPart .value p) : trim (p ++ [Byte.space]) = p := by
  have hhead : ∀ b ∈ (p ++ [Byte.space]).head?, Byte.isBlank b = false := by
    rw [List.head?_append_of_ne_nil _ hp.ne_nil]
    exact hp.head?_isBlank
  rw [trim, strip, dropWhile_eq_self hhead, dropRight_concat rfl, dropRight_eq_self hp.getLast?_isBlank]

/-- A blank behind a part is not part of it. -/
lemma parts_append_blankIf {p : Text} (hp : IsPart .value p) (c : Bool) (t : Text) :
    parts (p ++ (ofItems (blankIf c) ++ Byte.semicolon :: t)) = p :: parts t := by
  cases c with
  | false => exact parts_append hp t
  | true =>
      have hblank : ofItems (blankIf true) ++ Byte.semicolon :: t =
          Byte.space :: Byte.semicolon :: t := rfl
      have hitems : items .value (p ++ Byte.space :: Byte.semicolon :: t) =
          (items .value p ++ [.byte Byte.space]) ++ .byte Byte.semicolon :: items .value t := by
        rw [hp.items_append (startsSoft_space _), items_cons_of_single rfl, items_cons_of_single rfl,
          List.append_assoc, List.singleton_append]
      have hsep : ∀ i ∈ items .value p ++ [.byte Byte.space], isSeparator Byte.semicolon i = false := by
        intro i hi
        rcases List.mem_append.mp hi with hi | hi
        · exact hp.isSeparator_eq_false hi
        · rw [List.mem_singleton.mp hi]
          rfl
      have htext : ofItems (items .value p ++ [.byte Byte.space]) = p ++ [Byte.space] := by
        rw [ofItems_append, ofItems_items]
        rfl
      rw [hblank, parts, partsAt, hitems, splitItems_append hsep rfl, List.map_cons, htext,
        hp.trim_append_space, List.filter_cons_of_pos (by simpa using hp.ne_nil), ← partsAt, ← parts]

lemma parts_eq_singleton {p : Text} (hp : IsPart .value p) : parts p = [p] := by
  rw [parts, partsAt, splitItems_eq_singleton fun i hi => hp.isSeparator_eq_false hi,
    List.map_singleton, ofItems_items, hp.trim_eq]
  exact List.filter_cons_of_pos (by simpa using hp.ne_nil)

/-- The items of a statement without its semicolon are a value once they are normalized. -/
lemma isValue_normalize (his : items .file (ofItems is) = is)
    (hinner : ∀ i ∈ is, i.isFinished = true ∧ i ≠ .byte Byte.closeBrace)
    (hsemicolon : .byte Byte.semicolon ∉ is) (hhead : ∃ i ∈ is.head?, i.isGap = false) :
    IsValue (normalize (ofItems is)) := by
  have hfinished : ∀ i ∈ items .file (ofItems is), i.isFinished = true := by
    rw [his]
    exact fun i hi => (hinner i hi).1
  have htail := isTail_normalize hfinished (by rwa [his])
    (by rw [his]; exact fun h => (hinner _ h).2 rfl)
  refine htail.resolve_left fun hnil => ?_
  obtain ⟨i, hi, hgap⟩ := hhead
  obtain ⟨rest, rfl⟩ := List.head?_eq_some_iff.mp hi
  have hitems := items_tidyText (groupsClosed_of_finished hfinished) false false
  rw [← normalize_eq_tidyText, hnil, items_nil, his, tidy_cons hgap] at hitems
  cases hitems

end Normalized

end Text

/-! ## One part for each piece -/

namespace Node

open Text

/-- The text of a piece, normalized and without its semicolon. -/
def partOf (p : List Item) : Text :=
  normalize (Text.ofItems (p.takeWhile (· ≠ .byte Byte.semicolon)))

lemma takeWhile_ne_of_not_mem {q : List Item} (hq : .byte Byte.semicolon ∉ q) :
    q.takeWhile (· ≠ .byte Byte.semicolon) = q :=
  List.takeWhile_eq_self_iff.mpr fun i hi => by
    rw [decide_eq_true_eq]
    rintro rfl
    exact hq hi

lemma partOf_of_not_mem {q tail : List Item} (hq : .byte Byte.semicolon ∉ q)
    (htail : tail = [.byte Byte.semicolon] ∨ tail = []) :
    partOf (q ++ tail) = normalize (Text.ofItems q) := by
  have htake : (q ++ tail).takeWhile (· ≠ .byte Byte.semicolon) = q := by
    rcases htail with rfl | rfl
    · have hstop := takeWhile_append_cons (p := (· ≠ .byte Byte.semicolon))
        (i := .byte Byte.semicolon) (by simp) q []
      rw [hstop.1, takeWhile_ne_of_not_mem hq]
    · rw [List.append_nil, takeWhile_ne_of_not_mem hq]
  rw [partOf, htake]

/-- A piece begins with a gap no more than a statement does. -/
lemma exists_head?_of_not_isFiller {i : Item} (hi : i.isFiller = false) (q : List Item) :
    ∃ j ∈ (i :: q).head?, j.isGap = false := by
  refine ⟨i, rfl, ?_⟩
  rw [← Bool.not_eq_true]
  intro hgap
  rw [Item.isFiller_of_isGap hgap] at hi
  cases hi

/-- **One part for each piece.** -/
theorem parts_normalize {is : List Item} (his : Text.items .file (Text.ofItems is) = is)
    (hinner : ∀ i ∈ is, i.isFinished = true ∧ i ≠ .byte Byte.closeBrace) :
    parts (normalize (Text.ofItems is)) = (pieces is).map partOf := by
  have hclosed := groupsClosed_of_finished fun i hi => (hinner i hi).1
  fun_induction pieces is with
  | case1 =>
      have hnil : normalize (Text.ofItems []) = [] := by cbv
      rw [hnil, parts_nil]
      rfl
  | case2 i rest hi ih =>
      have hrest : ∀ j ∈ rest, j.isFinished = true ∧ j ≠ .byte Byte.closeBrace :=
        fun j hj => hinner j (List.mem_cons_of_mem i hj)
      have hsplit : Text.items .file (Text.ofItems (i :: rest)) = [i] ++ rest := his
      have ih := ih (items_ofItems_suffix hsplit) hrest (groupsClosed_cons.mp hclosed).2
      by_cases hgap : i.isGap = true
      · rw [normalize_gap_cons hgap his hclosed, ih]
      · -- a filler that is no gap is a semicolon
        obtain rfl : i = .byte Byte.semicolon := by
          have hbrace := (hinner i (List.mem_cons_self ..)).2
          cases i with
          | byte b => simp_all [Item.isFiller, Item.isGap]
          | quoted t => cases hi
          | comment t => exact absurd rfl hgap
          | group t closed => cases hi
        have hfront : Text.items .file (Text.ofItems ([] ++ .byte Byte.semicolon :: rest)) =
            [] ++ .byte Byte.semicolon :: rest := his
        obtain ⟨c, d, hnormalize⟩ := exists_normalize_semicolon hfront hclosed
        have hnil : normalize (Text.ofItems []) = [] := by cbv
        rw [List.nil_append, hnil, List.nil_append] at hnormalize
        rw [hnormalize, parts_blankIf, parts_semicolon_cons, parts_blankIf, ih]
  | case3 i rest hi ih =>
      rw [Bool.not_eq_true] at hi
      have hne : Item.byte Byte.semicolon ≠ i := by
        rintro rfl
        cases hi
      have hrest := splitStatement_append rest
      have hend := splitStatement_end rest
      generalize splitStatement rest = split at hrest hend ih ⊢
      obtain ⟨statement, after⟩ := split
      subst hrest
      rcases hend with ⟨q, rfl, hmem⟩ | ⟨hmem, hend⟩
      · have hpiece : .byte Byte.semicolon ∉ i :: q := by simp [hne, hmem]
        have hsplit : i :: (q ++ [.byte Byte.semicolon] ++ after) =
            (i :: q) ++ .byte Byte.semicolon :: after := by simp
        rw [hsplit] at his hinner hclosed ⊢
        have hafter : Text.items .file (Text.ofItems after) = after :=
          items_ofItems_suffix (his.trans (List.append_cons _ _ _))
        have ih := ih hafter (fun j hj => hinner j (by simp [hj]))
          (groupsClosed_of_finished fun j hj => (hinner j (by simp [hj])).1)
        have hfront : Text.items .file (Text.ofItems (i :: q)) = i :: q := items_ofItems_prefix his
        have hvalue := isValue_normalize hfront (fun j hj => hinner j (List.mem_append_left _ hj))
          hpiece (exists_head?_of_not_isFiller hi q)
        obtain ⟨c, d, hnormalize⟩ := exists_normalize_semicolon his hclosed
        rw [hnormalize, parts_append_blankIf (hvalue.isPart .value), parts_blankIf, ih, List.map_cons,
          ← List.cons_append, partOf_of_not_mem hpiece (Or.inl rfl)]
      · -- no brace is left over, so the statement reaches to the end
        obtain rfl : after = [] := by
          cases after with
          | nil => rfl
          | cons j js => exact absurd (hend j rfl) (hinner j (by simp)).2
        rw [List.append_nil] at his hinner ⊢
        have hpiece : .byte Byte.semicolon ∉ i :: statement := by simpa [hne] using hmem
        have hvalue := isValue_normalize his hinner hpiece (exists_head?_of_not_isFiller hi statement)
        have hpart := partOf_of_not_mem hpiece (Or.inr rfl)
        rw [List.append_nil] at hpart
        rw [pieces, List.map_singleton, hpart, parts_eq_singleton (hvalue.isPart .value)]

end Node

namespace Statement

open Text

/-! ## One statement -/

section KeywordSplit

variable {ks v tail : List Item}

/-- Where a keyword ends does not depend on what comes after the value. -/
lemma IsKeywordSplit.of_append (h : IsKeywordSplit ks (v ++ tail)) : IsKeywordSplit ks v := by
  refine h.imp id fun ⟨hks, hrest, hquoted⟩ => ⟨hks, fun i hi => hrest i ?_, fun q hq => hquoted q ?_⟩
  · rw [List.head?_append, Option.mem_def.mp hi]
    rfl
  · rw [← List.append_assoc, List.head?_append, hq]
    rfl

/-- A semicolon is not part of a keyword. -/
lemma IsKeywordSplit.append_semicolon (h : IsKeywordSplit ks v) :
    IsKeywordSplit ks (v ++ [.byte Byte.semicolon]) := by
  refine h.imp id fun ⟨hks, hrest, hquoted⟩ => ⟨hks, fun i hi => ?_, fun q hq => ?_⟩
  · cases v with
    | nil =>
        obtain rfl : Item.byte Byte.semicolon = i := Option.some.inj hi
        rfl
    | cons j js => exact hrest i hi
  · rw [← List.append_assoc, List.head?_append] at hq
    cases hhead : (ks ++ v).head? with
    | none =>
        rw [hhead] at hq
        cases hq
    | some i => exact hquoted q (by rw [hhead] at hq ⊢; exact hq)

lemma IsKeywordSplit.semicolon_not_mem (h : IsKeywordSplit ks v) : .byte Byte.semicolon ∉ ks := by
  intro hmem
  rcases h.of_mem hmem with ⟨q, hq⟩ | ⟨b, hb, -, hne⟩
  · cases hq
  · exact hne (Item.byte.inj hb).symm

end KeywordSplit

/-- **One statement.**  A part with a semicolon behind it says what the piece says. -/
theorem alike_read_partOf {s : Text} {p : List Item} (hp : p ∈ Node.pieces (Text.items .file s))
    (hp' : (ofItems p).isFinished = true) :
    (read (ofItems p)).Alike (read (Node.partOf p ++ [Byte.semicolon])) := by
  have hitems := Node.items_of_mem_pieces hp
  obtain ⟨ks, v, hread, hks, hv, hinner, hsemicolon, hfirst, tail, rfl, hsplit, htail⟩ :=
    exists_parts_of_finished hp hp'
  have hline : .byte Byte.semicolon ∉ ks ++ v := by
    rw [List.mem_append, not_or]
    exact ⟨hsplit.semicolon_not_mem, hsemicolon⟩
  have hhead : ∃ i ∈ (ks ++ v).head?, i.isGap = false := by
    rw [← List.append_assoc] at hfirst
    obtain ⟨i, hi, hfiller⟩ := hfirst
    cases hkv : ks ++ v with
    | nil =>
        rw [hkv] at hi
        rcases htail with rfl | rfl
        · obtain rfl := Option.some.inj hi
          cases hfiller
        · cases hi
    | cons j q =>
        rw [hkv] at hi
        obtain rfl : j = i := Option.some.inj hi
        exact Node.exists_head?_of_not_isFiller hfiller q
  have hheads : ∀ i ∈ (ks ++ v).head?, i.isGap = false := by
    obtain ⟨j, hj, hgap⟩ := hhead
    intro i hi
    obtain rfl : j = i := Option.some.inj (hj.symm.trans hi)
    exact hgap
  have hkv : Text.items .file (ofItems (ks ++ v)) = ks ++ v :=
    items_ofItems_prefix (hitems.trans (List.append_assoc ..).symm)
  have hvalue := isValue_normalize hkv hinner hline hhead
  have hfinished : ∀ i ∈ v, i.isFinished = true := fun i hi => (hinner i (List.mem_append_right _ hi)).1
  -- the part has the items of the keyword as they are, and those of the value tidied
  obtain ⟨htidy, hsplit'⟩ := hsplit.of_append.tidy hheads false
  have hpart : Text.items .file (Node.partOf (ks ++ (v ++ tail)) ++ [Byte.semicolon]) =
      ks ++ ((tidy true false false v).map tidyGroup ++ [.byte Byte.semicolon]) := by
    rw [← List.append_assoc, Node.partOf_of_not_mem hline htail,
      hvalue.items_append .file (startsSoft_semicolon []), ← hvalue.items_eq .file,
      items_cons_of_single rfl, items_nil, normalize_eq_tidyText,
      items_tidyText (groupsClosed_of_finished fun i hi => (hinner i (hkv ▸ hi)).1), hkv,
      tidy_false_eq_of_head? hhead, htidy, List.append_assoc]
  rw [hread, read_of_items hpart ?_ hsplit'.append_semicolon (Or.inl rfl),
    ofItems_tidy hv (groupsClosed_of_finished hfinished)]
  · exact alike_ofParts (ofItems ks) (by rwa [hv]) true false
  · rw [← List.append_assoc, ← htidy, List.head?_append]
    intro i hi
    cases hfront : ((tidy true false false (ks ++ v)).map tidyGroup).head? with
    | none =>
        rw [hfront] at hi
        obtain rfl : Item.byte Byte.semicolon = i := Option.some.inj hi
        rfl
    | some j =>
        rw [hfront] at hi
        obtain rfl : j = i := Option.some.inj hi
        exact isGap_head?_tidy hheads hfront

end Statement

namespace Node

open Text

/-- **Two ways to split a body.**  In a finished text the body of every statement, at whatever depth,
    has as many parts as it has statements, and each statement agrees with what its part says. -/
theorem agrees_parts_children {t : Text} (ht : (Text.items .file t).all Item.isFinished = true)
    (hended : (parse t).all isEnded = true) {s : Statement} (hs : Holds (parse t) s) :
    s.bodyText.parts.length = s.children.length ∧
      List.Forall₂ (fun part c => c.Agrees (Statement.read (part ++ [Byte.semicolon])))
        s.bodyText.parts s.children := by
  rw [List.all_eq_true] at ht hended
  obtain ⟨u, p, hp, hp', rfl⟩ := exists_of_holds ht hended hs
  obtain ⟨ks, v, hread, -, hv, hinner, -⟩ := Statement.exists_parts_of_finished hp hp'
  have hfinished : ∀ i ∈ Text.items .file (Text.ofItems v), i.isFinished = true := by
    rw [hv]
    exact fun i hi => (hinner i (List.mem_append_right _ hi)).1
  rw [Statement.children, hread, Statement.bodyText_ofParts, Statement.body_ofParts]
  cases hgroup : (Text.items .file (Text.ofItems v)).findSome? Item.inner? with
  | none =>
      rw [Option.map_none, Option.map_none, Option.getD_none, Option.getD_none, parts_nil]
      exact ⟨rfl, List.Forall₂.nil⟩
  | some inner =>
      have hmem := Statement.group_mem_of_findSome?_inner? hfinished hgroup
      have hinside := isFinished_of_group hmem
      have hbody : ∀ i ∈ Text.items .file inner, i.isFinished = true ∧ i ≠ .byte Byte.closeBrace := by
        have hbalanced := isBalanced_of_group hmem
        rw [isBalanced, List.all_eq_true] at hbalanced
        intro i hi
        have hi' := hbalanced i hi
        rw [Bool.and_eq_true, decide_eq_true_eq] at hi'
        exact ⟨(isFinished_iff.mp hinside).1 i hi, hi'.2⟩
      have hself : Text.items .file (Text.ofItems (Text.items .file inner)) =
          Text.items .file inner := by rw [ofItems_items]
      have hparts := parts_normalize hself hbody
      rw [ofItems_items] at hparts
      rw [Option.map_some, Option.map_some, Option.getD_some, Option.getD_some, hparts, parse,
        statements_ofItems, List.length_map, List.length_map, List.forall₂_map_left_iff,
        List.forall₂_map_right_iff, List.forall₂_same]
      exact ⟨rfl, fun q hq =>
        (Statement.alike_read_partOf hq (isFinished_of_mem_pieces hinside hq)).agrees⟩

/-- Comments with semicolons and braces in them, an empty statement, and a last statement without a
    semicolon. -/
def threeEntries : Text := "acl a \x7b x/*;*/y ; ; \"b;\x7d\" \x7b z; \x7d; # \x7d\n ! c \x7d;"

/-- Its body has three parts and three statements. -/
theorem agrees_parts_children_threeEntries :
    (Statement.read threeEntries).bodyText.parts =
        [Text.ofString "x y", Text.ofString "\"b;\x7d\" \x7b z; \x7d", Text.ofString "! c"] ∧
      List.Forall₂ (fun part c => c.Agrees (Statement.read (part ++ [Byte.semicolon])))
        [Text.ofString "x y", Text.ofString "\"b;\x7d\" \x7b z; \x7d", Text.ofString "! c"]
        (Statement.read threeEntries).children := by
  have hholds : Holds (parse threeEntries) (Statement.read threeEntries) := by
    have hparse : parse threeEntries = [.source threeEntries] := by cbv
    rw [hparse]
    exact .here (List.mem_singleton_self _)
  have hparts : (Statement.read threeEntries).bodyText.parts =
      [Text.ofString "x y", Text.ofString "\"b;\x7d\" \x7b z; \x7d", Text.ofString "! c"] := by cbv
  have hagrees := (agrees_parts_children (by cbv) (by cbv) hholds).2
  rw [hparts] at hagrees
  exact ⟨hparts, hagrees⟩

end Node

end NameServerConf
