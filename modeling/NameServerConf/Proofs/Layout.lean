import Mathlib.Data.List.Forall2
import NameServerConf.Proofs.Pieces

/-!
# Statements of tidied texts

A tidied text has the statements of the text, one for one, and each says the same:
`statements_alike`.

**Pieces.**  Tidying keeps the pieces that the statements are made by (`forall₂_pieces_tidy`), and in
each piece the keyword and the place of the value.

**Alike.**  Two statements are `Alike` if they have the same keyword, header and value, and their
bodies differ in layout only.  The statements in the bodies are then alike again
(`Alike.children`), which is how what is read from a statement is followed down to any depth.
-/

namespace NameServerConf

namespace Text

/-! ## What tidying keeps -/

section Kept

variable {before gap behind : Bool} {is : List Item}

lemma isGap_tidyGroup (i : Item) : (tidyGroup i).isGap = i.isGap := by cases i <;> rfl

lemma isFiller_tidyGroup (i : Item) : (tidyGroup i).isFiller = i.isFiller := by cases i <;> rfl

lemma isGroup_tidyGroup (i : Item) : (tidyGroup i).isGroup = i.isGroup := by cases i <;> rfl

lemma tidyGroup_eq_byte {i : Item} {b : UInt8} : tidyGroup i = .byte b ↔ i = .byte b := by
  cases i <;> simp [tidyGroup]

lemma isFinished_tidyGroup (i : Item) : (tidyGroup i).isFinished = i.isFinished := by
  cases i <;> rfl

lemma isKeywordItem_tidyGroup (i : Item) :
    Statement.isKeywordItem (tidyGroup i) = Statement.isKeywordItem i := by cases i <;> rfl

/-- No comment is left. -/
lemma comment_not_mem_tidy (t : Text) : .comment t ∉ tidy before gap behind is := by
  induction is generalizing before gap with
  | nil =>
      intro h
      cases mem_blankIf h
  | cons j is ih =>
      intro h
      by_cases hj : j.isGap = true
      · rw [tidy_gap hj] at h
        exact ih h
      · rw [tidy_cons (by simpa using hj), List.mem_append, List.mem_cons] at h
        rcases h with h | rfl | h
        · cases mem_blankIf h
        · exact hj rfl
        · exact ih h

lemma isLineComment_of_mem_tidyGroup {i : Item}
    (h : i ∈ (tidy before gap behind is).map tidyGroup) : i.isLineComment = false := by
  obtain ⟨j, hj, rfl⟩ := List.mem_map.mp h
  cases j with
  | comment t => exact absurd hj (comment_not_mem_tidy t)
  | byte b => rfl
  | quoted t => rfl
  | group t closed => rfl

lemma isFinished_of_mem_tidyGroup (his : ∀ i ∈ is, i.isFinished = true) {i : Item}
    (h : i ∈ (tidy before gap behind is).map tidyGroup) : i.isFinished = true := by
  obtain ⟨j, hj, rfl⟩ := List.mem_map.mp h
  rw [isFinished_tidyGroup]
  rcases of_mem_tidy hj with rfl | hj
  · rfl
  · exact his j hj

lemma mem_of_byte_mem_tidyGroup {b : UInt8} (hb : b ≠ Byte.space)
    (h : .byte b ∈ (tidy before gap behind is).map tidyGroup) : .byte b ∈ is := by
  obtain ⟨j, hj, hbyte⟩ := List.mem_map.mp h
  rw [tidyGroup_eq_byte] at hbyte
  subst hbyte
  rcases of_mem_tidy hj with hspace | hj
  · exact absurd (Item.byte.inj hspace) hb
  · exact hj

/-- What begins with no gap does so when tidied. -/
lemma isGap_head?_tidy (his : ∀ i ∈ is.head?, i.isGap = false) {i : Item}
    (h : i ∈ ((tidy before false behind is).map tidyGroup).head?) : i.isGap = false := by
  cases is with
  | nil =>
      rw [tidy_nil, Bool.and_false, Bool.false_and] at h
      cases h
  | cons j js =>
      have hj := his j rfl
      rw [tidy_cons hj, Bool.and_false] at h
      obtain rfl : tidyGroup j = i := Option.some.inj h
      rw [isGap_tidyGroup, hj]

/-- The first group is the same, tidied inside. -/
lemma findSome?_inner?_tidy :
    ((tidy before gap behind is).map tidyGroup).findSome? Item.inner? =
      (is.findSome? Item.inner?).map (tidyText true true) := by
  have hblank : ∀ c, (blankIf c).findSome? Item.inner? = none := fun c => by cases c <;> rfl
  induction is generalizing before gap with
  | nil => rw [tidy_nil, map_tidyGroup_blankIf, hblank]; rfl
  | cons i is ih =>
      by_cases hi : i.isGap = true
      · rw [tidy_gap hi, ih, List.findSome?_cons, Item.inner?_of_isGap hi]
      · rw [tidy_cons (by simpa using hi), List.map_append, map_tidyGroup_blankIf,
          List.findSome?_append, hblank, List.map_cons, List.findSome?_cons, ih, List.findSome?_cons]
        cases i <;> rfl

/-- What stands before the first group is the same, tidied. -/
lemma takeWhile_tidy (before gap behind : Bool) (is : List Item) : ∃ behind',
    ((tidy before gap behind is).map tidyGroup).takeWhile (!·.isGroup) =
      (tidy before gap behind' (is.takeWhile (!·.isGroup))).map tidyGroup := by
  induction is generalizing before gap with
  | nil =>
      refine ⟨behind, ?_⟩
      rw [List.takeWhile_nil, tidy_nil, map_tidyGroup_blankIf]
      cases before && gap && behind <;> rfl
  | cons i is ih =>
      by_cases hi : i.isGap = true
      · obtain ⟨behind', ih⟩ := ih before true
        refine ⟨behind', ?_⟩
        rw [tidy_gap hi, ih,
          List.takeWhile_cons_of_pos (by rw [Item.isGroup_of_isGap hi]; rfl), tidy_gap hi]
      · rw [Bool.not_eq_true] at hi
        have hblank : ∀ j ∈ blankIf (before && gap), (!j.isGroup) = true := fun j hj => by
          obtain rfl := mem_blankIf hj
          rfl
        rw [tidy_cons hi, List.map_append, map_tidyGroup_blankIf, List.takeWhile_append_of_pos hblank,
          List.map_cons, List.takeWhile_cons, isGroup_tidyGroup, List.takeWhile_cons]
        cases hgroup : i.isGroup with
        | true =>
            -- the group stands behind a gap
            refine ⟨true, ?_⟩
            simp [tidy_nil, map_tidyGroup_blankIf]
        | false =>
            obtain ⟨behind', ih⟩ := ih true false
            refine ⟨behind', ?_⟩
            simp [tidy_cons hi, ih, map_tidyGroup_blankIf]

end Kept

end Text

/-! ## Pieces of tidied texts -/

namespace Node

lemma pieces_blankIf (c : Bool) (is : List Item) : pieces (Text.blankIf c ++ is) = pieces is := by
  cases c with
  | false => rfl
  | true => exact pieces_filler rfl is

/-- A statement is split off a tidied list as it is split off the list. -/
lemma splitStatement_tidy (gap behind : Bool) (is : List Item) : ∃ behind',
    splitStatement ((Text.tidy true gap behind is).map Text.tidyGroup) =
      ((Text.tidy true gap behind' (splitStatement is).1).map Text.tidyGroup,
        (Text.tidy true false behind (splitStatement is).2).map Text.tidyGroup) := by
  have hblank : ∀ (c : Bool) (js : List Item), splitStatement (Text.blankIf c ++ js) =
      (Text.blankIf c ++ (splitStatement js).1, (splitStatement js).2) := by
    intro c js
    cases c with
    | false => rfl
    | true =>
        rw [Text.blankIf_true, List.singleton_append, splitStatement, if_neg (by decide),
          if_neg (by decide)]
        rfl
  induction is generalizing gap with
  | nil =>
      refine ⟨behind, ?_⟩
      have h := hblank (true && gap && behind) []
      rw [List.append_nil] at h
      rw [Text.tidy_nil, Text.map_tidyGroup_blankIf, h]
      show (Text.blankIf _ ++ [], []) = ((Text.blankIf _).map Text.tidyGroup, [])
      rw [List.append_nil, Text.map_tidyGroup_blankIf]
  | cons i is ih =>
      by_cases hi : i.isGap = true
      · obtain ⟨behind', ih⟩ := ih true
        refine ⟨behind', ?_⟩
        rw [Text.tidy_gap hi, ih, splitStatement, if_neg (Item.ne_byte_of_isGap hi rfl),
          if_neg (Item.ne_byte_of_isGap hi rfl), Text.tidy_gap hi]
      · rw [Bool.not_eq_true] at hi
        rw [Text.tidy_cons hi, List.map_append, Text.map_tidyGroup_blankIf, hblank, List.map_cons,
          splitStatement, splitStatement]
        simp only [Text.tidyGroup_eq_byte]
        by_cases hsemicolon : i = .byte Byte.semicolon
        · refine ⟨true, ?_⟩
          rw [if_pos hsemicolon, if_pos hsemicolon, Text.tidy_cons hi]
          subst hsemicolon
          simp [Text.tidy_nil, Text.map_tidyGroup_blankIf, Text.blankIf_false, Text.tidyGroup]
        by_cases hbrace : i = .byte Byte.closeBrace
        · refine ⟨true, ?_⟩
          rw [if_neg hsemicolon, if_neg hsemicolon, if_pos hbrace, if_pos hbrace, Text.tidy_cons hi]
          simp [Text.tidy_nil, Text.map_tidyGroup_blankIf, Text.blankIf_false]
        · obtain ⟨behind', ih⟩ := ih false
          refine ⟨behind', ?_⟩
          rw [if_neg hsemicolon, if_neg hsemicolon, if_neg hbrace, if_neg hbrace, ih,
            Text.tidy_cons hi]
          simp [Text.map_tidyGroup_blankIf]

/-- **Tidying keeps the pieces**, each of them tidied. -/
lemma forall₂_pieces_tidy (before gap behind : Bool) (is : List Item) :
    List.Forall₂ (fun p p' => ∃ b, p' = (Text.tidy true false b p).map Text.tidyGroup)
      (pieces is) (pieces ((Text.tidy before gap behind is).map Text.tidyGroup)) := by
  fun_induction pieces is generalizing before gap with
  | case1 =>
      have h := pieces_blankIf (before && gap && behind) []
      rw [List.append_nil] at h
      rw [Text.tidy_nil, Text.map_tidyGroup_blankIf, h, pieces]
      exact List.Forall₂.nil
  | case2 i rest hi ih =>
      by_cases hgap : i.isGap = true
      · rw [Text.tidy_gap hgap]
        exact ih before true
      · rw [Text.tidy_cons (by simpa using hgap), List.map_append, Text.map_tidyGroup_blankIf,
          pieces_blankIf, List.map_cons, pieces_filler (by rwa [Text.isFiller_tidyGroup])]
        exact ih true false
  | case3 i rest hi ih =>
      have hgap : i.isGap = false := by
        rw [← Bool.not_eq_true]
        exact fun h => hi (Item.isFiller_of_isGap h)
      obtain ⟨behind', hsplit⟩ := splitStatement_tidy false behind rest
      rw [Text.tidy_cons hgap, List.map_append, Text.map_tidyGroup_blankIf, pieces_blankIf,
        List.map_cons, pieces_cons (by simpa [Text.isFiller_tidyGroup] using hi), hsplit]
      refine List.Forall₂.cons ⟨behind', ?_⟩ (ih true false)
      rw [Text.tidy_cons hgap, Bool.and_false]
      rfl

end Node

/-! ## Alike statements -/

/-- Two statements that differ in layout only, the second of them tidied. -/
structure Statement.Alike (s t : Statement) : Prop where
  keyword : s.keyword = t.keyword
  header : s.header = t.header
  value : s.value = t.value
  bodyText : s.bodyText = t.bodyText
  hasBody : s.hasBody = t.hasBody
  body : ∃ u before behind, u.isFinished = true ∧ s.body = Node.parse u ∧
    t.body = Node.parse (Text.tidyText before behind u)

namespace Statement

lemma bodyText_ofParts (kw v : Text) : (ofParts kw v).bodyText =
    (((Text.items .file v).findSome? Item.inner?).map Text.normalize).getD [] := rfl

lemma hasBody_ofParts (kw v : Text) :
    (ofParts kw v).hasBody = ((Text.items .file v).findSome? Item.inner?).isSome := rfl

lemma body_ofParts (kw v : Text) : (ofParts kw v).body =
    (((Text.items .file v).findSome? Item.inner?).map Node.parse).getD [] := rfl

/-- Of finished items the first group is closed. -/
lemma group_mem_of_findSome?_inner? {is : List Item} (his : ∀ i ∈ is, i.isFinished = true)
    {inner : Text} (h : is.findSome? Item.inner? = some inner) : .group inner true ∈ is := by
  obtain ⟨i, hi, hinner⟩ := List.exists_of_findSome?_eq_some h
  have hfinished := his i hi
  cases i with
  | group t closed =>
      obtain rfl : t = inner := Option.some.inj hinner
      obtain rfl : closed = true := hfinished
      exact hi
  | byte b => cases hinner
  | quoted t => cases hinner
  | comment t => cases hinner

/-- Of finished items the first group is finished inside. -/
lemma isFinished_of_findSome?_inner? {v inner : Text}
    (hv : ∀ i ∈ Text.items .file v, i.isFinished = true)
    (h : (Text.items .file v).findSome? Item.inner? = some inner) : inner.isFinished = true :=
  Text.isFinished_of_group (group_mem_of_findSome?_inner? hv h)

/-- Statements with the same keyword are alike if what follows it differs in layout only. -/
lemma alike_ofParts (kw : Text) {v : Text}
    (hv : ∀ i ∈ Text.items .file v, i.isFinished = true) (before behind : Bool) :
    Alike (ofParts kw v) (ofParts kw (Text.tidyText before behind v)) := by
  have hclosed := Text.groupsClosed_of_finished hv
  have hitems := Text.items_tidyText hclosed before behind
  have hinner : (Text.items .file (Text.tidyText before behind v)).findSome? Item.inner? =
      ((Text.items .file v).findSome? Item.inner?).map (Text.tidyText true true) := by
    rw [hitems, Text.findSome?_inner?_tidy]
  refine ⟨rfl, ?_, (Text.normalize_tidyText before behind v).symm, ?_, ?_, ?_⟩
  · obtain ⟨behind', hheader⟩ :=
      Text.takeWhile_tidy before false behind (Text.items .file v)
    have hbefore : Text.items .file v = (Text.items .file v).takeWhile (!·.isGroup) ++
        (Text.items .file v).dropWhile (!·.isGroup) := List.takeWhile_append_dropWhile.symm
    have hpiece := Text.items_ofItems_prefix hbefore
    show Text.normalize _ = Text.normalize _
    rw [hitems, hheader, Text.ofItems_tidy hpiece, Text.normalize_tidyText]
    refine Text.groupsClosed_of_finished fun i hi => hv i ?_
    exact (List.takeWhile_sublist _).subset hi
  · rw [bodyText_ofParts, bodyText_ofParts, hinner]
    cases (Text.items .file v).findSome? Item.inner? with
    | none => rfl
    | some inner => exact (Text.normalize_tidyText true true inner).symm
  · rw [hasBody_ofParts, hasBody_ofParts, hinner, Option.isSome_map]
  · rw [body_ofParts, body_ofParts, hinner]
    cases hfind : (Text.items .file v).findSome? Item.inner? with
    | none =>
        -- a statement without a group has the body of the empty text
        have hnil : Node.parse [] = [] := by rw [Node.parse, Text.items_nil, Node.ofItems]
        have htidy : Text.tidyText false false [] = [] := by rw [Text.tidyText, Text.lexemes]; rfl
        refine ⟨[], false, false, Text.isFinished_iff.mpr ?_, hnil.symm, by rw [htidy, hnil]; rfl⟩
        rw [Text.items_nil]
        exact ⟨fun i hi => absurd hi List.not_mem_nil, fun i hi => by cases hi⟩
    | some inner =>
        exact ⟨inner, true, true, isFinished_of_findSome?_inner? hv hfind, rfl, rfl⟩

/-- Tidying leaves a keyword as it is. -/
lemma IsKeywordSplit.tidy {ks rest : List Item} (h : IsKeywordSplit ks rest)
    (hks : ∀ i ∈ (ks ++ rest).head?, i.isGap = false) (behind : Bool) :
    (Text.tidy true false behind (ks ++ rest)).map Text.tidyGroup =
        ks ++ (Text.tidy true false behind rest).map Text.tidyGroup ∧
      IsKeywordSplit ks ((Text.tidy true false behind rest).map Text.tidyGroup) := by
  have hkeep : ∀ i ∈ ks, i.isGap = false ∧ Text.tidyGroup i = i := by
    intro i hi
    rcases h.of_mem hi with ⟨q, rfl⟩ | ⟨b, rfl, hb, -⟩
    · exact ⟨rfl, rfl⟩
    · exact ⟨hb, rfl⟩
  have hmap : ks.map Text.tidyGroup = ks := by
    refine (List.map_congr_left fun i hi => ?_).trans (List.map_id ks)
    exact (hkeep i hi).2
  refine ⟨?_, ?_⟩
  · rw [Text.tidy_append_of_noGap fun i hi => (hkeep i hi).1, List.map_append, hmap]
  · refine h.imp id fun ⟨hks', hrest, hquoted⟩ => ⟨hks', ?_⟩
    have hbehind : ∀ is : List Item,
        (∀ i ∈ is.head?, isKeywordItem i = false ∧ ∀ q, i = .quoted q → rest.head? = some i) →
        (∀ i ∈ is.head?, isKeywordItem i = false) ∧ ∀ q, (ks ++ is).head? ≠ some (.quoted q) := by
      intro is his
      refine ⟨fun i hi => (his i hi).1, fun q hq => ?_⟩
      cases ks with
      | nil => exact hquoted q ((his _ hq).2 q rfl)
      | cons k ks => exact hquoted q hq
    -- behind the keyword stands what stood there, or a blank for a gap
    refine hbehind _ fun i hi => ?_
    cases rest with
    | nil => cases hi
    | cons j js =>
        by_cases hj : j.isGap = true
        · rw [Text.tidy_gap hj, List.head?_map] at hi
          rcases Text.head?_tidy_gap behind js with hnil | hhead
          · rw [hnil] at hi
            cases hi
          · rw [hhead] at hi
            obtain rfl : Item.byte Byte.space = i := Option.some.inj hi
            exact ⟨rfl, fun q hq => by cases hq⟩
        · rw [Text.tidy_cons (by simpa using hj), Bool.and_false, Text.blankIf_false,
            List.nil_append, List.map_cons] at hi
          obtain rfl : Text.tidyGroup j = i := Option.some.inj hi
          refine ⟨(Text.isKeywordItem_tidyGroup j).trans (hrest j rfl), fun q hq => ?_⟩
          cases j with
          | quoted t => rfl
          | byte b => cases hq
          | comment t => cases hq
          | group t closed => cases hq

/-- **A tidied statement** says the same as the statement. -/
theorem alike_read {s : Text} {p : List Item} (hp : p ∈ Node.pieces (Text.items .file s))
    (hp' : (Text.ofItems p).isFinished = true) (behind : Bool) :
    Alike (read (Text.ofItems p)) (read (Text.tidyText true behind (Text.ofItems p))) := by
  have hitems := Node.items_of_mem_pieces hp
  obtain ⟨hfinished, hline⟩ := Text.isFinished_iff.mp hp'
  rw [hitems] at hfinished hline
  obtain ⟨ks, v, tail, rfl, hhead, hsplit, hmem, htail⟩ := exists_parts hp
  obtain ⟨htidy, hsplit'⟩ := hsplit.tidy hhead behind
  have hitems' := Text.items_tidyText
    (Text.groupsClosed_of_finished (by rwa [hitems])) true behind
  have hhead' : ∀ i ∈ ((Text.tidy true false behind (ks ++ (v ++ tail))).map Text.tidyGroup).head?,
      i.isGap = false := fun i hi => Text.isGap_head?_tidy hhead hi
  rw [hitems, htidy] at hitems'
  rw [htidy] at hhead'
  have hitemsv : Text.items .file (Text.ofItems v) = v :=
    Text.items_ofItems_prefix (Text.items_ofItems_suffix hitems)
  have hfinishedv : ∀ i ∈ v, i.isFinished = true := fun i hi => hfinished i (by simp [hi])
  have hclosedv := Text.groupsClosed_of_finished hfinishedv
  have halike := fun behind' =>
    alike_ofParts (Text.ofItems ks) (by rwa [hitemsv]) true behind'
  have htext := Text.ofItems_tidy hitemsv hclosedv true
  rcases htail with rfl | rfl
  · -- the semicolon stays, so that a gap before it counts
    rw [Text.tidy_append rfl, List.map_append] at hitems' hhead' hsplit'
    rw [read_of_items hitems hhead hsplit (Or.inl rfl),
      read_of_items hitems' hhead' hsplit' (Or.inl rfl), htext]
    exact halike true
  · have hnil : (Text.tidy true false behind (v ++ [])).map Text.tidyGroup =
        (Text.tidy true false behind v).map Text.tidyGroup ++ [] := by
      rw [List.append_nil, List.append_nil]
    rw [hnil] at hitems' hhead' hsplit'
    have hlinev : ∀ i ∈ v.getLast?, i.isLineComment = false := by
      rw [← List.append_nil v]
      exact Node.forall_getLast?_of_append hline
    rw [read_of_items hitems hhead hsplit (Or.inr ⟨rfl, hfinishedv, hlinev, hmem⟩),
      read_of_items hitems' hhead' hsplit' (Or.inr ⟨rfl, ?_, ?_, ?_⟩), htext]
    · exact halike behind
    · exact fun i hi => Text.isFinished_of_mem_tidyGroup hfinishedv hi
    · exact fun i hi => Text.isLineComment_of_mem_tidyGroup (List.mem_of_getLast? hi)
    · exact fun h => hmem (Text.mem_of_byte_mem_tidyGroup (by decide) h)

end Statement

/-! ## Statements of a tidied text -/

/-- **The statements of a tidied text** are those of the text, one for one and each alike. -/
theorem Node.statements_alike {s : Text} (hs : ∀ i ∈ Text.items .file s, i.isFinished = true)
    (hpieces : ∀ p ∈ pieces (Text.items .file s), (Text.ofItems p).isFinished = true)
    (before behind : Bool) :
    List.Forall₂ Statement.Alike (statements (parse s))
      (statements (parse (Text.tidyText before behind s))) := by
  have hclosed := Text.groupsClosed_of_finished hs
  rw [parse, parse, statements_ofItems, statements_ofItems, Text.items_tidyText hclosed,
    List.forall₂_map_left_iff, List.forall₂_map_right_iff]
  refine ((List.forall₂_and_left _ _).mpr
    ⟨fun p hp => hp, forall₂_pieces_tidy before false behind _⟩).imp ?_
  rintro p p' ⟨hp, behind', rfl⟩
  have hitems := items_of_mem_pieces hp
  have hfinished := (Text.isFinished_iff.mp (hpieces p hp)).1
  rw [hitems] at hfinished
  rw [Text.ofItems_tidy hitems (Text.groupsClosed_of_finished hfinished)]
  exact Statement.alike_read hp (hpieces p hp) behind'

/-- The statements in the bodies of alike statements are alike. -/
theorem Statement.Alike.children {s t : Statement} (h : s.Alike t) :
    List.Forall₂ Statement.Alike s.children t.children := by
  obtain ⟨u, before, behind, hu, hs, ht⟩ := h.body
  rw [Statement.children, Statement.children, hs, ht]
  exact Node.statements_alike (Text.isFinished_iff.mp hu).1
    (fun p hp => Node.isFinished_of_mem_pieces hu hp) before behind

end NameServerConf
