import NameServerConf.Proofs.Blindness
import NameServerConf.Proofs.KeptStatements

/-!
# Statements that are built

A built block has its value and its body text from what the statements in it say, one blank between
two of them.  When it is laid out, each of them stands on a line of its own, indented.

**Lines and headers.**  A line is read like the text of its statement, and a header is a keyword and a
value without groups (`read_header`).

**Blanks only.**  `Collapses` says which text a list of lexemes is collapsed to, wherever it stands.  The
lines of a body are collapsed to its statements with blanks between them (`squeeze_lines`), and a body in
braces to a list in braces (`collapses_inside`).

**Blocks in blocks.**  A built statement is `Faithful` to what it says if at any depth its text agrees
with that.  Lines are, and blocks of statements that are (`Faithful.block`), so a built tree and what is
read from its text are the same: `Buildable.parse_render`.
-/

namespace NameServerConf

open Text

/-! ## Lines and headers -/

namespace Node

/-- The items of a complete statement are one piece. -/
lemma Complete.mem_pieces {t : Text} (h : (Node.source t).Complete) :
    Text.items .file t ∈ pieces (Text.items .file t) := by
  obtain ⟨-, i, body, hitems, hi, hbody⟩ := h
  have hsplit := splitStatement_append_semicolon hbody []
  rw [hitems, List.cons_append, pieces_cons hi, hsplit]
  exact List.mem_cons_self ..

end Node

namespace Statement

/-- A line is read like the text of its statement. -/
lemma alike_read_line {t : Text} (ht : t.isLine = true) :
    IsValue (read (t ++ [Byte.semicolon])).text ∧ (read (t ++ [Byte.semicolon])).Alike
      (read ((read (t ++ [Byte.semicolon])).text ++ [Byte.semicolon])) := by
  have hcomplete := Node.complete_line ht
  have halike := alike_read_text hcomplete.mem_pieces (by rw [ofItems_items]; exact hcomplete.1)
  rwa [ofItems_items] at halike

end Statement

/-- A line without brace groups. -/
def Text.isHeader (h : Text) : Bool := h.isLine && (items .file h).all (!·.isGroup)

namespace Statement

/-- Without groups all that follows the keyword is header. -/
lemma header_eq_normalize (kw : Text) {v : Text} (hv : ∀ i ∈ items .file v, i.isGroup = false) :
    (ofParts kw v).header = normalize v := by
  show normalize (ofItems ((items .file v).takeWhile (!·.isGroup))) = normalize v
  rw [List.takeWhile_eq_self_iff.mpr fun i hi => by rw [hv i hi]; rfl, ofItems_items]

/-- Normalizing adds no groups. -/
lemma noGroups_normalize {v : Text} (hv : ∀ i ∈ items .file v, i.isGroup = false)
    (hfinished : ∀ i ∈ items .file v, i.isFinished = true) :
    noGroups (normalize v) = true := by
  rw [noGroups, items_normalize (groupsClosed_of_finished hfinished), List.all_map,
    List.all_eq_true]
  intro i hi
  rw [Function.comp_apply, isGroup_tidyGroup]
  rcases of_mem_tidy hi with rfl | hi
  · rfl
  · rw [hv i hi]
    rfl

/-- **A header** is read as a keyword and a value without groups. -/
lemma read_header {h : Text} (hh : h.isHeader = true) :
    IsKeyword (read (h ++ [Byte.semicolon])).keyword ∧ IsTail (read (h ++ [Byte.semicolon])).header ∧
      noGroups (read (h ++ [Byte.semicolon])).header = true := by
  obtain ⟨hline, hgroups⟩ := Bool.and_eq_true_iff.mp hh
  have hcomplete := Node.complete_line hline
  have hfinished : (ofItems (items .file (h ++ [Byte.semicolon]))).isFinished = true := by
    rw [ofItems_items]
    exact hcomplete.1
  have hwritten := finished_read hcomplete.mem_pieces hfinished
  obtain ⟨ks, v, hread, hks, hv, hinner, -, hfirst, tail, hp, hsplit, htail⟩ :=
    exists_parts_of_finished hcomplete.mem_pieces hfinished
  have hvgroups : ∀ i ∈ items .file (ofItems v), i.isGroup = false := by
    have hitems := items_append_of_inner (noComments_of_isLine hline) (inner_of_isLine hline)
      (startsSoft_semicolon [])
    rw [items_cons_of_single rfl, items_nil, hp, items, ← noComments_of_isLine hline] at hitems
    intro i hi
    rw [hv] at hi
    have hmem : i ∈ items .file h ++ [.byte Byte.semicolon] := hitems ▸ by simp [hi]
    rcases List.mem_append.mp hmem with hmem | hmem
    · simpa using List.all_eq_true.mp hgroups i hmem
    · rw [List.mem_singleton.mp hmem]
      rfl
  have hvfinished : ∀ i ∈ items .file (ofItems v), i.isFinished = true := by
    rw [hv]
    exact fun i hi => (hinner i (List.mem_append_right _ hi)).1
  rw [hread] at hwritten
  rw [ofItems_items] at hread
  have hvalue : IsTail (normalize (ofItems v)) := hwritten.value
  rw [hread, header_eq_normalize _ hvgroups]
  refine ⟨hwritten.keyword.resolve_left fun hk => ?_, hvalue,
    noGroups_normalize hvgroups hvfinished⟩
  -- a statement without a keyword begins with a group
  have hk : ofItems ks = [] := hk
  obtain rfl : ks = [] := by rw [← hks, hk, items_nil]
  rw [hp] at hfirst
  obtain ⟨u, closed, rest, rfl⟩ := exists_group_of_parts hsplit htail hfirst
  rw [hv] at hvgroups
  cases hvgroups _ (List.mem_cons_self ..)

end Statement

/-! ## Blanks only -/

namespace Text

/-- The lexemes are collapsed to the text, wherever they stand. -/
def Collapses (ls : List Item) (t : Text) : Prop := ∀ started gap ms,
  squeeze started gap (ls ++ ms) =
    (if started && gap then [Byte.space] else []) ++ t ++ squeeze true false ms

namespace Collapses

variable {ls ms : List Item} {s t : Text}

lemma byte {b : UInt8} (hb : Byte.isBlank b = false) : Collapses [.byte b] [b] := by
  intro started gap ms
  rw [List.singleton_append, squeeze, if_neg (by rw [Item.isByte, hb]; decide), Item.text]

lemma append (hs : Collapses ls s) (ht : Collapses ms t) : Collapses (ls ++ ms) (s ++ t) := by
  intro started gap rest
  rw [List.append_assoc, hs, ht]
  simp

/-- Any blanks between two texts are collapsed to one. -/
lemma append_space (hs : Collapses ls s) (ht : Collapses ms t) :
    Collapses (ls ++ .byte Byte.space :: ms) (s ++ Byte.space :: t) := by
  intro started gap rest
  have hblank : squeeze true false (.byte Byte.space :: (ms ++ rest)) =
      squeeze true true (ms ++ rest) := rfl
  rw [List.append_assoc, List.cons_append, hs, hblank, ht]
  simp

/-- A text that is nothing else is normalized to what its lexemes are collapsed to. -/
lemma normalize_eq (h : Collapses ls t) (hs : ∀ d, lexemes d s = ls) : normalize s = t := by
  have hsqueeze := h false false []
  rw [List.append_nil] at hsqueeze
  rw [normalize_eq_collapse ((hs .file).trans (hs .value).symm), collapse, hs, hsqueeze]
  simp [squeeze]

end Collapses

lemma IsValue.collapses {v : Text} (h : IsValue v) : Collapses (lexemes .value v) v := by
  intro started gap ms
  have hsqueeze := (squeeze_append h.isSpaced ms).2 rfl started gap
  rwa [ofItems_lexemes] at hsqueeze

end Text

namespace Node

/-- A built statement that at any depth is laid out as what it says. -/
structure Faithful (n : Node) (s : Statement) : Prop where
  isBuilt : n.isBuilt = true
  statement : n.statement? = some s
  isValue : IsValue s.text
  complete : ∀ depth, (Node.source (bare depth n)).Complete
  lexemes : ∀ depth d t, Text.lexemes d (bare depth n ++ t) =
    Text.lexemes .value (bare depth n) ++ Text.lexemes d t
  collapses : ∀ depth, Collapses (Text.lexemes .value (bare depth n)) (s.text ++ [Byte.semicolon])
  agrees : ∀ depth, s.Agrees (said depth n)

/-- The lexemes of the lines of a body. -/
def lineLexemes (depth : ℕ) (body : List Node) : List Item :=
  body.flatMap fun n => (tabs depth).map .byte ++ Text.lexemes .value (bare depth n) ++ [.byte Byte.newline]

/-- The lexemes of the inside of a block. -/
def insideLexemes (depth : ℕ) (body : List Node) : List Item :=
  .byte Byte.newline :: lineLexemes (depth + 1) body ++ (tabs depth).map .byte

section Inside

variable {body : List Node} {ss : List Statement} (depth : ℕ)

lemma texts_eq (h : List.Forall₂ Faithful body ss) : texts body = ss.map (·.text) := by
  induction h with
  | nil => rfl
  | cons hn _ ih => rw [texts, hn.statement, List.map_cons, ih]

lemma lexemes_tabs_append (d : Dialect) (t : Text) :
    Text.lexemes d (tabs depth ++ t) = (tabs depth).map .byte ++ Text.lexemes d t := by
  induction depth with
  | zero => rfl
  | succ depth ih =>
      rw [tabs, List.replicate_succ, List.cons_append, lexemes_cons_of_single rfl, ← tabs, ih]
      rfl

lemma squeeze_tabs_append (started : Bool) (ms : List Item) :
    squeeze started true ((tabs depth).map .byte ++ ms) = squeeze started true ms := by
  induction depth with
  | zero => rfl
  | succ depth ih =>
      rw [tabs, List.replicate_succ, List.map_cons, List.cons_append, ← tabs, squeeze]
      exact ih

lemma lexemes_lines (h : List.Forall₂ Faithful body ss) (d : Dialect) (t : Text) :
    Text.lexemes d ((body.flatMap fun n => tabs depth ++ bare depth n ++ [Byte.newline]) ++ t) =
      lineLexemes depth body ++ Text.lexemes d t := by
  induction h with
  | nil => rfl
  | cons hn _ ih =>
      rw [lineLexemes, List.flatMap_cons, List.flatMap_cons, ← lineLexemes, List.append_assoc,
        List.append_assoc, List.append_assoc, lexemes_tabs_append, hn.lexemes, List.singleton_append,
        lexemes_cons_of_single rfl, ih]
      simp

lemma lexemes_inside (h : List.Forall₂ Faithful body ss) (d : Dialect) (t : Text) :
    Text.lexemes d ((inside depth body).flatMap written ++ t) =
      insideLexemes depth body ++ Text.lexemes d t := by
  rw [written_inside, List.cons_append, List.cons_append, List.append_assoc,
    lexemes_cons_of_single rfl, lexemes_lines _ h, lexemes_tabs_append, insideLexemes]
  simp

/-- **The lines of a body** are collapsed to its statements. -/
lemma squeeze_lines (h : List.Forall₂ Faithful body ss) (started : Bool) (ms : List Item) :
    squeeze started true (lineLexemes depth body ++ ms) =
      if ss = [] then squeeze started true ms
      else (if started then [Byte.space] else []) ++ listText (ss.map (·.text)) ++
        squeeze true true ms := by
  induction h generalizing started with
  | nil => rfl
  | @cons n s body ss hn _ ih =>
      have hline : squeeze true false (.byte Byte.newline :: (lineLexemes depth body ++ ms)) =
          squeeze true true (lineLexemes depth body ++ ms) := rfl
      rw [lineLexemes, List.flatMap_cons, ← lineLexemes]
      simp only [List.append_assoc]
      rw [squeeze_tabs_append, hn.collapses, List.singleton_append, hline, ih, Bool.and_true,
        if_neg (List.cons_ne_nil s ss)]
      cases ss with
      | nil => simp [listText, join]
      | cons s' ss =>
          have hmap : (s :: s' :: ss).map (·.text) = s.text :: s'.text :: ss.map (·.text) := rfl
          rw [if_neg (List.cons_ne_nil s' ss), hmap, listText_cons_cons]
          simp

/-- The inside of a block is normalized to its statements. -/
lemma normalize_inside (h : List.Forall₂ Faithful body ss) :
    normalize ((inside depth body).flatMap written) = listText (ss.map (·.text)) := by
  have hlex : ∀ d, Text.lexemes d ((inside depth body).flatMap written) = insideLexemes depth body := by
    intro d
    have hinside := lexemes_inside depth h d []
    rwa [List.append_nil, Text.lexemes.eq_1, List.append_nil] at hinside
  have hline : squeeze false false (insideLexemes depth body) =
      squeeze false true (lineLexemes (depth + 1) body ++ (tabs depth).map .byte) := rfl
  have htabs : ∀ started, squeeze started true ((tabs depth).map .byte) = [] := by
    intro started
    have hend := squeeze_tabs_append depth started []
    rwa [List.append_nil] at hend
  rw [normalize_eq_collapse ((hlex .file).trans (hlex .value).symm), collapse, hlex, hline,
    squeeze_lines _ h, htabs, htabs]
  cases ss with
  | nil => rfl
  | cons s ss => simp

/-- **A body in braces** is collapsed to a list in braces. -/
lemma collapses_inside (h : List.Forall₂ Faithful body ss) :
    Collapses (.byte Byte.openBrace :: insideLexemes depth body ++ [.byte Byte.closeBrace])
      (joined (ss.map (·.text))) := by
  intro started gap ms
  have hopen : squeeze started gap (.byte Byte.openBrace :: insideLexemes depth body ++
      [.byte Byte.closeBrace] ++ ms) = (if started && gap then [Byte.space] else []) ++
        [Byte.openBrace] ++ squeeze true true (lineLexemes (depth + 1) body ++
          ((tabs depth).map .byte ++ .byte Byte.closeBrace :: ms)) := by
    rw [insideLexemes]
    simp only [List.append_assoc, List.cons_append, List.nil_append]
    exact (Collapses.byte rfl started gap _).trans (List.append_assoc ..)
  have hclose : squeeze true true ((tabs depth).map .byte ++ .byte Byte.closeBrace :: ms) =
      Byte.space :: Byte.closeBrace :: squeeze true false ms := by
    rw [squeeze_tabs_append]
    rfl
  rw [hopen, squeeze_lines _ h, hclose, joined_eq]
  cases ss with
  | nil => simp [listed]
  | cons s ss =>
      have hne : (s :: ss).map (·.text) ≠ [] := List.cons_ne_nil _ _
      rw [if_neg (List.cons_ne_nil s ss), listed_eq hne]
      simp

end Inside

/-! ## Blocks in blocks -/

section Blocks

variable {header : Text} {body : List Node} {ss : List Statement}

/-- The value of a block is its header and the list of its statements in braces. -/
lemma value_ofBlock (header : Text) (body : List Node) (l : List Text) :
    (Statement.ofBlock header body l).value =
      (if (Statement.read (header ++ [Byte.semicolon])).header = [] then []
        else (Statement.read (header ++ [Byte.semicolon])).header ++ [Byte.space]) ++ joined l := by
  have hbraces : (if listText l = [] then [Byte.openBrace, Byte.space, Byte.closeBrace]
      else Byte.openBrace :: Byte.space :: listText l ++ [Byte.space, Byte.closeBrace]) = joined l := by
    rw [joined_eq]
    cases l with
    | nil => rfl
    | cons t l =>
        have hne : listText (t :: l) ≠ [] := by
          intro hnil
          have hlast := getLast?_listText (List.cons_ne_nil t l)
          rw [hnil] at hlast
          cases hlast
        rw [if_neg hne, listed_eq (List.cons_ne_nil t l)]
        simp
  rw [← hbraces]
  rfl

/-- A line is faithful to what is read from it. -/
lemma Faithful.line {t : Text} (ht : t.isLine = true) :
    Faithful (.line t) (Statement.read (t ++ [Byte.semicolon])) := by
  obtain ⟨hvalue, halike⟩ := Statement.alike_read_line ht
  refine ⟨rfl, rfl, hvalue, fun depth => ?_, fun depth d u => ?_, fun depth => ?_, fun depth => ?_⟩
  · rw [bare_line]
    exact complete_line hvalue.isLine
  · have hlex : ∀ d v, Text.lexemes d ((Statement.read (t ++ [Byte.semicolon])).text ++
        Byte.semicolon :: v) = Text.lexemes .value (Statement.read (t ++ [Byte.semicolon])).text ++
          .byte Byte.semicolon :: Text.lexemes d v := fun d v => by
      rw [hvalue.lexemes_append d (startsSoft_semicolon v), lexemes_cons_of_single rfl]
    rw [bare_line, List.append_assoc, List.singleton_append, hlex, hlex, Text.lexemes.eq_1,
      List.append_assoc]
    rfl
  · rw [bare_line, hvalue.lexemes_append .value (startsSoft_semicolon []),
      lexemes_cons_of_single rfl, Text.lexemes.eq_1]
    exact hvalue.collapses.append (.byte rfl)
  · rw [said, bare_line]
    exact halike.agrees

lemma text_ofBlock (body : List Node) (l : List Text)
    (hk : (Statement.read (header ++ [Byte.semicolon])).keyword ≠ []) :
    (Statement.ofBlock header body l).text = (Statement.read (header ++ [Byte.semicolon])).keyword ++
      afterGap (Statement.read (header ++ [Byte.semicolon])).header ++ Byte.space :: joined l := by
  have htext : (Statement.ofBlock header body l).text =
      (Statement.read (header ++ [Byte.semicolon])).keyword ++
        afterGap (Statement.ofBlock header body l).value := Statement.text_eq hk
  have hne : (Statement.ofBlock header body l).value ≠ [] := by
    rw [value_ofBlock]
    exact List.append_ne_nil_of_right_ne_nil _ (List.cons_ne_nil _ _)
  rw [htext, afterGap_of_ne_nil hne, value_ofBlock, afterGap]
  split
  · simp
  · simp

variable {kw hd : Text} (depth : ℕ)

lemma lexemes_braces (h : List.Forall₂ Faithful body ss) (d : Dialect) (t : Text) :
    Text.lexemes d (Byte.openBrace :: (inside depth body).flatMap written ++ [Byte.closeBrace] ++ t) =
      (.byte Byte.openBrace :: insideLexemes depth body ++ [.byte Byte.closeBrace]) ++
        Text.lexemes d t := by
  rw [List.append_assoc, List.cons_append, lexemes_openBrace, lexemes_inside _ h, List.singleton_append,
    lexemes_cons_of_single rfl]
  simp

/-- What stands behind the keyword of a block is normalized to its value. -/
lemma normalize_braces (hh : IsTail hd) (h : List.Forall₂ Faithful body ss) :
    normalize (afterGap hd ++
        Byte.space :: Byte.openBrace :: (inside depth body).flatMap written ++ [Byte.closeBrace]) =
      (if hd = [] then [] else hd ++ [Byte.space]) ++ joined (ss.map (·.text)) := by
  have hbraces : ∀ d, Text.lexemes d
      (Byte.openBrace :: (inside depth body).flatMap written ++ [Byte.closeBrace]) =
        .byte Byte.openBrace :: insideLexemes depth body ++ [.byte Byte.closeBrace] := by
    intro d
    have hlex := lexemes_braces depth h d []
    rwa [List.append_nil, Text.lexemes.eq_1, List.append_nil] at hlex
  rcases hh with rfl | hh
  · rw [if_pos rfl, List.nil_append, afterGap, if_pos rfl, List.nil_append, List.cons_append,
      normalize_space_cons]
    exact (collapses_inside _ h).normalize_eq hbraces
  · rw [if_neg hh.ne_nil, afterGap_of_ne_nil hh.ne_nil, List.append_assoc, List.cons_append,
      normalize_space_cons, List.append_assoc, List.singleton_append]
    have hcollapses := hh.collapses.append_space (collapses_inside depth h)
    refine (hcollapses.normalize_eq fun d => ?_).trans (by simp)
    rw [List.cons_append, hh.lexemes_append d (startsSoft_space _), lexemes_cons_of_single rfl, hbraces]

/-- The lexemes of a block that was laid out. -/
lemma lexemes_bracedText (hk : IsKeyword kw) (hh : IsTail hd) (h : List.Forall₂ Faithful body ss)
    (d : Dialect) (t : Text) :
    Text.lexemes d (bracedText kw hd ((inside depth body).flatMap written) ++ t) =
      (Text.lexemes .value (kw ++ afterGap hd) ++ .byte Byte.space ::
        (.byte Byte.openBrace :: insideLexemes depth body ++ [.byte Byte.closeBrace])) ++
          .byte Byte.semicolon :: Text.lexemes d t := by
  have htext : bracedText kw hd ((inside depth body).flatMap written) ++ t = kw ++ afterGap hd ++
      Byte.space :: (Byte.openBrace :: (inside depth body).flatMap written ++ [Byte.closeBrace] ++
        Byte.semicolon :: t) := by
    simp [bracedText]
  rw [htext, (hh.isValue_append hk.isValue).lexemes_append d (startsSoft_space _),
    lexemes_cons_of_single rfl, lexemes_braces _ h, lexemes_cons_of_single rfl]
  simp

lemma forall_of_faithful (h : List.Forall₂ Faithful body ss) :
    (∀ n ∈ body, n.isBuilt = true ∧ ∀ depth, (Node.source (bare depth n)).Complete) ∧
      ∀ s ∈ ss, IsValue s.text := by
  induction h with
  | nil => simp
  | cons hn _ ih =>
      exact ⟨List.forall_mem_cons.mpr ⟨⟨hn.isBuilt, hn.complete⟩, ih.1⟩,
        List.forall_mem_cons.mpr ⟨hn.isValue, ih.2⟩⟩

lemma forall₂_agrees (h : List.Forall₂ Faithful body ss) :
    List.Forall₂ Statement.Agrees (statements body) (body.map (said depth)) := by
  induction h with
  | nil => exact List.Forall₂.nil
  | cons hn _ ih =>
      rw [statements, List.filterMap_cons, hn.statement]
      exact List.Forall₂.cons (hn.agrees depth) ih

/-- **A block** of faithful statements is faithful to what is put together from them. -/
theorem Faithful.block (hheader : header.isHeader = true) (h : List.Forall₂ Faithful body ss) :
    Faithful (.block header body) (Statement.ofBlock header body (texts body)) := by
  obtain ⟨hk, hh, hg⟩ := Statement.read_header hheader
  obtain ⟨hbody, hvalue⟩ := forall_of_faithful h
  have hvalues : ∀ p ∈ ss.map (·.text), IsValue p := List.forall_mem_map.mpr hvalue
  have hbuilt : ∀ n ∈ body, n.isBuilt = true := fun n hn => (hbody n hn).1
  have hcomplete : ∀ depth, ∀ n ∈ body, (Node.source (bare depth n)).Complete :=
    fun depth n hn => (hbody n hn).2 depth
  have hbare := bare_block header hbuilt
  have htext := text_ofBlock body (texts body) hk.isValue.ne_nil
  rw [texts_eq h] at htext ⊢
  refine ⟨rfl, ?_, ?_, fun depth => ?_, fun depth d t => ?_, fun depth => ?_, fun depth => ?_⟩
  · rw [statement?, texts_eq h]
  · rw [htext]
    exact (hh.isValue_append hk.isValue).append (isValue_joined hvalues)
  · rw [hbare]
    exact complete_bracedText hk hh (isInside_inside (hcomplete (depth + 1)))
  · have hnil := lexemes_bracedText depth hk hh h .value []
    rw [List.append_nil, Text.lexemes.eq_1] at hnil
    rw [hbare, lexemes_bracedText _ hk hh h, hnil]
    simp
  · have hnil := lexemes_bracedText depth hk hh h .value []
    rw [List.append_nil, Text.lexemes.eq_1] at hnil
    rw [hbare, hnil, htext]
    exact ((hh.isValue_append hk.isValue).collapses.append_space (collapses_inside _ h)).append
      (.byte rfl)
  · obtain ⟨hread, hhead, hinner, hhas, hchildren⟩ :=
      read_bracedText hk hh hg (hcomplete (depth + 1))
    rw [said, hbare]
    refine ⟨by rw [hread]; rfl, hhead.symm, ?_, ?_, hhas.symm, ?_⟩
    · rw [hread, value_ofBlock]
      exact (normalize_braces _ hh h).symm
    · rw [hinner, normalize_inside _ h]
      rfl
    · rw [hchildren]
      exact forall₂_agrees _ h

end Blocks

/-- A tree of lines and headers. -/
inductive Buildable : Node → Prop
  | line {t : Text} (ht : t.isLine = true) : Buildable (.line t)
  | block {header : Text} {body : List Node} (hh : header.isHeader = true)
      (hbody : ∀ n ∈ body, Buildable n) : Buildable (.block header body)

lemma exists_forall₂_faithful {body : List Node} (h : ∀ n ∈ body, ∃ s, Faithful n s) :
    ∃ ss, List.Forall₂ Faithful body ss := by
  induction body with
  | nil => exact ⟨[], List.Forall₂.nil⟩
  | cons n body ih =>
      obtain ⟨s, hs⟩ := h n (List.mem_cons_self ..)
      obtain ⟨ss, hss⟩ := ih fun m hm => h m (List.mem_cons_of_mem _ hm)
      exact ⟨s :: ss, List.Forall₂.cons hs hss⟩

/-- **Trees of lines and headers** are faithful to what they say. -/
theorem Buildable.exists_faithful {n : Node} (hn : n.Buildable) : ∃ s, Faithful n s := by
  induction hn with
  | line ht => exact ⟨_, .line ht⟩
  | block hh hbody ih =>
      obtain ⟨ss, hss⟩ := exists_forall₂_faithful ih
      exact ⟨_, .block hh hss⟩

/-- **Built and written.**  The text of a built tree is one statement.  It agrees with what was built,
    child by child at every depth, and in any file it is read as what was built. -/
theorem Buildable.parse_render {b : Node} (hb : b.Buildable) :
    ∃ built, b.statement? = some built ∧ parse (b.render 0) = [.source (b.render 0)] ∧
      built.Agrees (Statement.read (b.render 0)) ∧
      ∀ unknown before behind, Config.ofNodes unknown (before ++ b :: behind) =
        Config.ofNodes unknown (before ++ parse (b.render 0) ++ behind) := by
  obtain ⟨built, h⟩ := hb.exists_faithful
  have hrender : b.render 0 = bare 0 b := render_eq h.isBuilt 0
  have hagrees : built.Agrees (Statement.read (bare 0 b)) := h.agrees 0
  have hparse : parse (bare 0 b) = [.source (bare 0 b)] := parse_tabs_append (h.complete 0) 0
  rw [hrender]
  refine ⟨built, h.statement, hparse, hagrees, fun unknown before behind => ?_⟩
  have hsame : ∀ ns, List.Forall₂ Statement.Agrees (statements ns) (statements ns) :=
    fun ns => List.forall₂_same.mpr fun s _ => Statement.Agrees.refl s
  have hstatements : List.Forall₂ Statement.Agrees (statements (before ++ b :: behind))
      (statements (before ++ parse (bare 0 b) ++ behind)) := by
    rw [hparse, List.append_assoc, List.singleton_append, statements, statements,
      List.filterMap_append, List.filterMap_append, List.filterMap_cons, h.statement]
    exact List.rel_append (hsame before) (List.Forall₂.cons hagrees (hsame behind))
  rw [Config.ofNodes, Config.ofNodes, Config.addAll_of_agrees unknown hstatements]

/-- A view with a zone in it, and an option that is not spaced as it is written. -/
def viewOfZone : Node :=
  .block "view \"v\"" [.line "x\x7by ; z\x7d ",
    .block "zone  \"z\"" [.line "type primary", .line "file \"z;db\""]]

/-- The view is read as it was built. -/
theorem Buildable.parse_render_viewOfZone :
    viewOfZone.Buildable ∧ ∃ built, viewOfZone.statement? = some built ∧
      parse (viewOfZone.render 0) = [.source (viewOfZone.render 0)] ∧
      built.Agrees (Statement.read (viewOfZone.render 0)) ∧
      ∀ unknown before behind, Config.ofNodes unknown (before ++ viewOfZone :: behind) =
        Config.ofNodes unknown (before ++ parse (viewOfZone.render 0) ++ behind) := by
  have hzone : (Node.block "zone  \"z\"" [.line "type primary", .line "file \"z;db\""]).Buildable :=
    .block (by cbv) (List.forall_mem_cons.mpr ⟨.line (by cbv), List.forall_mem_singleton.mpr
      (.line (by cbv))⟩)
  have hview : viewOfZone.Buildable :=
    .block (by cbv) (List.forall_mem_cons.mpr ⟨.line (by cbv), List.forall_mem_singleton.mpr hzone⟩)
  exact ⟨hview, hview.parse_render⟩

end Node

end NameServerConf
