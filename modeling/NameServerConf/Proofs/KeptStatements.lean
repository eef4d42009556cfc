import NameServerConf.Proofs.Agreement
import NameServerConf.Proofs.Blocks
import NameServerConf.Proofs.Finished
import NameServerConf.Proofs.Tree

/-!
# Statements that are kept

A statement that the library does not know is kept as its keyword and its value, and written back as a
line of its own.

**One line.**  However a finished statement was laid out, its keyword and its value with a blank
between them say the same: `Statement.alike_read_text`.  A statement without a keyword begins with a
brace group, and its value alone says the same.

**At every depth.**  What holds of the statements of a finished text holds of those in their bodies
(`Node.exists_of_holds`), so every statement in the text survives being kept:
`Node.agrees_otherLines`.
-/

namespace NameServerConf

namespace Text

lemma normalize_space_cons (s : Text) : normalize (Byte.space :: s) = normalize s := by
  rw [normalize_eq_tidyText, normalize_eq_tidyText, tidyText, tidyText, lexemes_cons_of_single rfl,
    tidy_gap rfl, tidy_false_gap false]

end Text

namespace Statement

open Text

/-! ## One line -/

/-- A blank before a value says nothing. -/
lemma ofParts_space_cons (kw v : Text) : ofParts kw (Byte.space :: v) = ofParts kw v := by
  have htake : ∀ is : List Item, (Item.byte Byte.space :: is).takeWhile (!·.isGroup) =
      .byte Byte.space :: is.takeWhile (!·.isGroup) := fun is => rfl
  simp only [ofParts]
  rw [items_cons_of_single rfl, htake, ofItems_cons, Item.text, List.singleton_append,
    normalize_space_cons, normalize_space_cons, List.findSome?_cons]
  rfl

lemma ofParts_afterGap (kw v : Text) : ofParts kw (afterGap v) = ofParts kw v := by
  rw [afterGap]
  split
  next hv => rw [hv]
  next => exact ofParts_space_cons kw v

lemma text_eq {s : Statement} (h : s.keyword ≠ []) : s.text = s.keyword ++ afterGap s.value := by
  rw [text, if_neg h, afterGap]
  split
  · exact (List.append_nil _).symm
  · rfl

/-- What is neither a filler nor the beginning of a keyword is a group. -/
lemma exists_group {i : Item} (hfiller : i.isFiller = false) (hkeyword : isKeywordItem i = false)
    (hquoted : ∀ q, i ≠ .quoted q) : ∃ u closed, i = .group u closed := by
  cases i with
  | group u closed => exact ⟨u, closed, rfl⟩
  | quoted q => exact absurd rfl (hquoted q)
  | comment t => cases hfiller
  | byte b => simp_all [Item.isFiller, isKeywordItem, Item.isByte]

/-- A value that begins with a brace group is a statement without a keyword. -/
lemma read_of_group {v u : Text} {closed : Bool} (hv : IsValue v)
    (hgroup : (items .file v).head? = some (.group u closed)) :
    read (v ++ [Byte.semicolon]) = ofParts [] v := by
  have hitems : items .file (v ++ [Byte.semicolon]) = [] ++ (items .file v ++ [.byte Byte.semicolon]) := by
    rw [hv.items_append .file (startsSoft_semicolon []), items_cons_of_single rfl, items_nil,
      hv.items_eq .file]
    rfl
  have hhead : ∀ i ∈ (items .file v ++ [Item.byte Byte.semicolon]).head?, i = .group u closed := by
    rw [List.head?_append, hgroup]
    exact fun i hi => (Option.some.inj hi).symm
  have hsplit : IsKeywordSplit [] (items .file v ++ [.byte Byte.semicolon]) := by
    refine Or.inr ⟨fun i hi => absurd hi List.not_mem_nil, fun i hi => ?_, fun q hq => ?_⟩
    · rw [hhead i hi]
      rfl
    · cases hhead _ hq
  have hread := read_of_items hitems (fun i hi => by rw [hhead i hi]; rfl) hsplit (Or.inl rfl)
  rwa [ofItems_items, ofItems_nil] at hread

/-- A statement without a keyword begins with a brace group. -/
lemma exists_group_of_parts {v tail : List Item} (hsplit : IsKeywordSplit [] (v ++ tail))
    (htail : tail = [.byte Byte.semicolon] ∨ tail = [])
    (hfirst : ∃ i ∈ (v ++ tail).head?, i.isFiller = false) :
    ∃ u closed rest, v = .group u closed :: rest := by
  obtain ⟨i, hi, hfiller⟩ := hfirst
  cases v with
  | nil =>
      rcases htail with rfl | rfl
      · obtain rfl := Option.some.inj hi
        cases hfiller
      · cases hi
  | cons j rest =>
      obtain rfl : j = i := Option.some.inj hi
      rcases hsplit with ⟨q, hq⟩ | ⟨-, hkeyword, hquoted⟩
      · cases hq
      · obtain ⟨u, closed, rfl⟩ :=
          exists_group hfiller (hkeyword j hi) fun q hq => hquoted q (by rw [List.nil_append, hi, hq])
        exact ⟨u, closed, rest, rfl⟩

/-- A normalized text begins with a group if the text does. -/
lemma head?_items_normalize {v : Text} {u : Text} {closed : Bool} {rest : List Item}
    (hv : items .file v = .group u closed :: rest) (hfinished : ∀ i ∈ items .file v, i.isFinished = true) :
    (items .file (normalize v)).head? = some (tidyGroup (.group u closed)) := by
  rw [normalize_eq_tidyText, items_tidyText (groupsClosed_of_finished hfinished), hv, tidy_cons rfl]
  rfl

/-- **What was found** says the same with one blank between its keyword and its value. -/
theorem alike_read_text {s : Text} {p : List Item} (hp : p ∈ Node.pieces (items .file s))
    (hp' : (ofItems p).isFinished = true) :
    IsValue (read (ofItems p)).text ∧
      (read (ofItems p)).Alike (read ((read (ofItems p)).text ++ [Byte.semicolon])) := by
  have hwritten := finished_read hp hp'
  obtain ⟨ks, v, hread, hks, hv, hinner, -, hfirst, tail, rfl, hsplit, htail⟩ :=
    exists_parts_of_finished hp hp'
  rw [hread] at hwritten ⊢
  have hvalue : IsTail (normalize (ofItems v)) := hwritten.value
  have hfinished : ∀ i ∈ items .file (ofItems v), i.isFinished = true := by
    rw [hv]
    exact fun i hi => (hinner i (List.mem_append_right _ hi)).1
  have halike := alike_ofParts (ofItems ks) hfinished false false
  rw [← normalize_eq_tidyText] at halike
  rcases hwritten.keyword with hk | hk
  · have hk : ofItems ks = [] := hk
    obtain rfl : ks = [] := by rw [← hks, hk, items_nil]
    obtain ⟨u, closed, rest, hrest⟩ := exists_group_of_parts hsplit htail hfirst
    have hgroup := head?_items_normalize (hv.trans hrest) hfinished
    have hne : normalize (ofItems v) ≠ [] := by
      intro hnil
      rw [hnil, items_nil] at hgroup
      cases hgroup
    have htext : (ofParts (ofItems []) (ofItems v)).text = normalize (ofItems v) := by
      rw [text]
      exact (if_neg hne).trans (if_pos rfl)
    rw [htext, read_of_group (hvalue.resolve_left hne) hgroup]
    exact ⟨hvalue.resolve_left hne, halike⟩
  · have hk : IsKeyword (ofItems ks) := hk
    have htext : (ofParts (ofItems ks) (ofItems v)).text =
        ofItems ks ++ afterGap (normalize (ofItems v)) := text_eq hk.isValue.ne_nil
    rw [htext, read_append hk (head?_afterGap _), ofParts_afterGap]
    exact ⟨hvalue.isValue_append hk.isValue, halike⟩

/-- Blanks before a statement are not part of it. -/
lemma read_space_cons (s : Text) : read (Byte.space :: s) = read s := rfl

/-- The line that a statement is kept on says the same as the statement's text. -/
lemma read_keyword_append (s : Statement) :
    read (s.keyword ++ afterGap s.value ++ [Byte.semicolon]) = read (s.text ++ [Byte.semicolon]) := by
  by_cases hk : s.keyword = []
  · rw [hk, List.nil_append, text, if_pos hk, hk, afterGap]
    split
    · rfl
    · exact read_space_cons _
  · rw [text_eq hk]

end Statement

/-! ## At every depth -/

namespace Node

open Text

/-- The statement is among some nodes, or in the body of one that is. -/
inductive Holds (ns : List Node) : Statement → Prop
  | here {s : Statement} (h : s ∈ statements ns) : Holds ns s
  | inside {s c : Statement} (h : Holds ns s) (hc : c ∈ s.children) : Holds ns c

/-- At every depth a statement of a finished text is read from a finished piece of some text. -/
lemma exists_of_holds {t : Text} (ht : ∀ i ∈ items .file t, i.isFinished = true)
    (hended : ∀ n ∈ parse t, n.isEnded = true) {s : Statement} (hs : Holds (parse t) s) :
    ∃ u p, p ∈ pieces (items .file u) ∧ (Text.ofItems p).isFinished = true ∧
      s = Statement.read (Text.ofItems p) := by
  induction hs with
  | here h =>
      rw [parse, statements_ofItems] at h
      obtain ⟨p, hp, rfl⟩ := List.mem_map.mp h
      exact ⟨t, p, hp, isFinished_of_ended ht hp (hended _ (source_mem_of_mem_pieces hp)), rfl⟩
  | inside h hc ih =>
      obtain ⟨u, p, hp, hp', rfl⟩ := ih
      obtain ⟨v, hv, hbody⟩ := (Statement.finished_read hp hp').body
      rw [Statement.children, hbody, parse, statements_ofItems] at hc
      obtain ⟨q, hq, rfl⟩ := List.mem_map.mp hc
      exact ⟨v, q, hq, isFinished_of_mem_pieces hv hq, rfl⟩

/-- A complete statement behind tabs is the one statement there. -/
lemma parse_tabs_append {x : Text} (hx : (Node.source x).Complete) (depth : ℕ) :
    parse (tabs depth ++ x) = (if depth = 0 then [] else [.raw (tabs depth)]) ++ [.source x] := by
  have hone : parse x = [.source x] := by
    have hparse := hx.parse_append []
    rw [written, List.append_nil] at hparse
    rw [hparse, parse, items_nil, ofItems_nil]
    rfl
  have htabs := (complete_tabs depth).parse_append x
  rw [written, hone] at htabs
  rw [htabs]
  cases depth with
  | zero => rfl
  | succ depth => rfl

/-- **Statements that are kept.**  Every statement of a finished text, at whatever depth, agrees with
    the line that is made of its keyword and its value, and with the one statement that this line is
    read as when it was laid out, at whatever depth. -/
theorem agrees_otherLines {t : Text} (ht : (items .file t).all Item.isFinished = true)
    (hended : (parse t).all isEnded = true) {s : Statement} (hs : Holds (parse t) s) :
    ∃ n, otherLines [⟨s.keyword, s.value⟩] = [n] ∧
      (∃ kept, n.statement? = some kept ∧ s.Agrees kept) ∧
      ∀ depth, ∃ x, parse (n.render depth) =
          (if depth = 0 then [] else [.raw (tabs depth)]) ++ [.source x] ∧
        s.Agrees (Statement.read x) := by
  rw [List.all_eq_true] at ht hended
  obtain ⟨u, p, hp, hp', rfl⟩ := exists_of_holds ht hended hs
  obtain ⟨hvalue, halike⟩ := Statement.alike_read_text hp hp'
  set s := Statement.read (Text.ofItems p)
  have hagrees := halike.agrees
  have hline := Statement.read_keyword_append s
  refine ⟨.line (s.keyword ++ afterGap s.value), otherLines_cons _ _, ⟨_, rfl, ?_⟩, fun depth =>
    ⟨s.text ++ [Byte.semicolon], ?_, hagrees⟩⟩
  · rwa [hline]
  · rw [render_eq rfl, bare_line, hline, ← hagrees.text]
    exact parse_tabs_append (complete_line hvalue.isLine) depth

/-- A statement without a keyword and without a semicolon: two brace groups, a comment between them. -/
def nameless : Text := "\x7bx\x7d/**/\x7b y; \x7d "

/-- It is kept when it stands in a block. -/
theorem agrees_otherLines_nameless :
    Holds (parse "a \x7b \x7bx\x7d/**/\x7b y; \x7d \x7d;") (Statement.read nameless) ∧
      ∃ n, otherLines [⟨[], "\x7bx\x7d \x7b y; \x7d"⟩] = [n] ∧
        (∃ kept, n.statement? = some kept ∧ (Statement.read nameless).Agrees kept) ∧
        ∀ depth, ∃ x, parse (n.render depth) =
            (if depth = 0 then [] else [.raw (tabs depth)]) ++ [.source x] ∧
          (Statement.read nameless).Agrees (Statement.read x) := by
  have hblock : parse "a \x7b \x7bx\x7d/**/\x7b y; \x7d \x7d;" =
      [.source "a \x7b \x7bx\x7d/**/\x7b y; \x7d \x7d;"] := by cbv
  have hbody : (Statement.read "a \x7b \x7bx\x7d/**/\x7b y; \x7d \x7d;").body =
      [.raw " ", .source nameless] := by cbv
  have hholds : Holds (parse "a \x7b \x7bx\x7d/**/\x7b y; \x7d \x7d;") (Statement.read nameless) := by
    refine .inside (s := Statement.read "a \x7b \x7bx\x7d/**/\x7b y; \x7d \x7d;") (.here ?_) ?_
    · rw [hblock]
      exact List.mem_singleton_self _
    · rw [Statement.children, hbody]
      exact List.mem_singleton_self _
  have hkeyword : (Statement.read nameless).keyword = [] := by cbv
  have hvalue : (Statement.read nameless).value = Text.ofString "\x7bx\x7d \x7b y; \x7d" := by cbv
  have hkept := agrees_otherLines (by cbv) (by cbv) hholds
  rw [hkeyword, hvalue] at hkept
  exact ⟨hholds, hkept⟩

end Node

end NameServerConf
