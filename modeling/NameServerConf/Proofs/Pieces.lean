import NameServerConf.Proofs.Statements
import NameServerConf.Proofs.Tidying

/-!
# The pieces of a text

What a statement says is told by its items: those of the keyword, those of the value, and the
semicolon.

**Inside braces.**  A brace group ends at its closing brace, so whatever is in it is balanced and
finished (`isBalanced_of_group`, `isFinished_of_group`).  A semicolon at the end of a statement is
therefore the statement's own and not the end of a comment or a string.

**Pieces.**  The statements of a text are made by `pieces` of its items (`statements_ofItems`), which
begin with no gap and hold no semicolon but the last item.

**Parts.**  A piece is the items of a keyword, those of a value, and perhaps a semicolon
(`exists_parts`), and this is how it is read: `read_of_items`.
-/

namespace NameServerConf

namespace Text

/-! ## Inside braces -/

/-- Where a group is not closed, one more brace is needed to close it. -/
lemma splitGroup?_ne_of_none {depth : ℕ} {ls : List Item} (h : splitGroup? depth ls = none)
    (ms : List Item) :
    splitGroup? (depth + 1) (ls ++ .byte Byte.closeBrace :: ms) ≠ some (ls, ms) := by
  -- for every depth: a brace in the list changes it
  induction ls generalizing depth with
  | nil =>
      intro hsome
      simp only [List.nil_append, splitGroup?, if_pos] at hsome
      obtain ⟨p, -, hp⟩ := Option.map_eq_some_iff.mp hsome
      cases (Prod.mk.inj hp).1
  | cons i ls ih =>
      intro hsome
      by_cases hi : i = .byte Byte.closeBrace
      · subst hi
        cases depth with
        | zero => simp [splitGroup?] at h
        | succ depth =>
            simp only [List.cons_append, splitGroup?, if_pos, Option.map_eq_none_iff] at h hsome
            obtain ⟨⟨l, m⟩, hp, hcons⟩ := Option.map_eq_some_iff.mp hsome
            obtain ⟨hl, rfl⟩ := Prod.mk.inj hcons
            obtain rfl := (List.cons.inj hl).2
            exact ih h hp
      · rw [splitGroup?_cons hi, Option.map_eq_none_iff] at h
        have hp := splitGroup?_of_cons hi hsome
        split at h
        next hopen =>
          rw [if_pos hopen] at hp
          exact ih h hp
        next hopen =>
          rw [if_neg hopen] at hp
          exact ih h hp

/-- What stands before the brace that closes it is balanced. -/
lemma isBalanced_of_splitGroup? {ls ms : List Item}
    (h : splitGroup? 0 (ls ++ .byte Byte.closeBrace :: ms) = some (ls, ms))
    (hls : ∀ i ∈ ls, i.inner?.isNone) : isBalanced ls = true := by
  rw [isBalanced]
  fun_induction nest ls with
  | case1 => rfl
  | case2 rest inside after hg ih =>
      have hsplit := append_of_splitGroup? hg
      have hafter : splitGroup? 0 (after ++ .byte Byte.closeBrace :: ms) = some (after, ms) := by
        rw [List.cons_append] at h
        have hp := splitGroup?_of_cons (by decide) h
        rw [if_pos rfl, ← hsplit, List.append_assoc, List.cons_append,
          splitGroup?_shift hg 0 (after ++ .byte Byte.closeBrace :: ms)] at hp
        obtain ⟨⟨l, m⟩, hl, hlm⟩ := Option.map_eq_some_iff.mp hp
        obtain ⟨hinside, rfl⟩ := Prod.mk.inj hlm
        obtain rfl : l = after := (List.cons.inj (List.append_cancel_left hinside)).2
        exact hl
      rw [List.all_cons, ih hafter fun i hi => hls i (by rw [← hsplit]; simp [hi])]
      rfl
  | case3 rest hg =>
      have hp := splitGroup?_of_cons (by decide) h
      exact absurd hp (splitGroup?_ne_of_none hg _)
  | case4 i rest hi ih =>
      have hbrace : i ≠ .byte Byte.closeBrace := by
        rintro rfl
        simp [splitGroup?] at h
      have hp := splitGroup?_of_cons hbrace h
      rw [if_neg hi] at hp
      rw [List.all_cons, ih hp fun j hj => hls j (List.mem_cons_of_mem _ hj),
        hls i (List.mem_cons_self ..)]
      simpa using hbrace

/-- A closed group among the items is a pair of braces among the lexemes. -/
lemma exists_of_group_mem_items {d : Dialect} {s inner : Text}
    (h : .group inner true ∈ items d s) :
    ∃ ls inside ms, lexemes d s = ls ++ (inside ++ .byte Byte.closeBrace :: ms) ∧
      splitGroup? 0 (inside ++ .byte Byte.closeBrace :: ms) = some (inside, ms) ∧
      inner = ofItems inside := by
  obtain ⟨as, bs, hsplit⟩ := List.append_of_mem h
  obtain ⟨l₁, l₂, hlex, -, hnest⟩ := exists_of_nest_eq_append hsplit
  cases l₂ with
  | nil => rw [nest] at hnest; cases hnest
  | cons i l =>
      by_cases hi : i = .byte Byte.openBrace
      · subst hi
        rw [nest, if_pos rfl] at hnest
        split at hnest
        next inside after hg =>
          obtain ⟨hgroup, -⟩ := List.cons.inj hnest
          obtain ⟨rfl, -⟩ := Item.group.inj hgroup
          have happend := append_of_splitGroup? hg
          refine ⟨l₁ ++ [.byte Byte.openBrace], inside, after, ?_, ?_, rfl⟩
          · rw [hlex, happend, List.append_assoc, List.singleton_append]
          · rw [happend, hg]
        next => cases (List.cons.inj hnest).1
      · rw [nest_cons_of_ne hi] at hnest
        obtain ⟨rfl, -⟩ := List.cons.inj hnest
        have hinner := inner?_of_mem_lexemes (d := d) (s := s) (i := .group inner true)
          (by rw [hlex]; simp)
        cases hinner

/-- **Inside braces** everything is balanced. -/
theorem isBalanced_of_group {d : Dialect} {s inner : Text} (h : .group inner true ∈ items d s) :
    isBalanced (lexemes d inner) = true := by
  obtain ⟨ls, inside, ms, hlex, hsplit, rfl⟩ := exists_of_group_mem_items h
  have hinside : lexemes d (ofItems inside) = inside :=
    lexemes_ofItems_prefix (lexemes_ofItems_suffix hlex)
  rw [hinside]
  exact isBalanced_of_splitGroup? hsplit fun i hi =>
    inner?_of_mem_lexemes (d := d) (s := s) (by rw [hlex]; simp [hi])

/-- **Inside braces** everything is finished. -/
theorem isFinished_of_group {s inner : Text} (h : .group inner true ∈ items .file s) :
    inner.isFinished = true := by
  have hclosed := groupsClosed_of_isBalanced (isBalanced_of_group h)
  obtain ⟨ls, inside, ms, hlex, hsplit, rfl⟩ := exists_of_group_mem_items h
  have hinside : lexemes .file (ofItems inside) = inside :=
    lexemes_ofItems_prefix (lexemes_ofItems_suffix hlex)
  have hlexeme : ∀ i ∈ inside, i.inner?.isNone := fun i hi =>
    inner?_of_mem_lexemes (d := .file) (s := s) (by rw [hlex]; simp [hi])
  rw [hinside] at hclosed
  rw [isFinished_iff, items, hinside]
  refine ⟨fun i hi => ?_, fun i hi => ?_⟩
  · rcases of_mem_nest hi with hmem | ⟨t, closed, rfl⟩
    · exact isFinished_of_mem_lexemes (lexemes_ofItems_suffix hlex) (List.cons_ne_nil _ _) hmem
    · rw [groupsClosed, List.all_eq_true] at hclosed
      simpa [Item.inner?] using hclosed _ hi
  · -- a comment to the end of the line would have the brace in it
    rw [← Bool.not_eq_true]
    intro hline
    cases i with
    | byte b => cases hline
    | quoted t => cases hline
    | group t closed => cases hline
    | comment t =>
        have hlast := getLast?_lexemes_of_nest hclosed hlexeme
        rw [Option.mem_def.mp hi] at hlast
        obtain ⟨front, rfl⟩ := List.getLast?_eq_some_iff.mp hlast
        have hcomment : lexemes .file s =
            (ls ++ front) ++ (.comment t :: .byte Byte.closeBrace :: ms) := by
          rw [hlex]
          simp [lastLexeme]
        rcases Node.head?_of_lineComment (lexemes_ofItems_suffix hcomment) hline with hnil | hnext
        · cases hnil
        · cases hnext

end Text

/-! ## Pieces -/

namespace Node

/-- The items of each statement among some items. -/
def pieces (is : List Item) : List (List Item) :=
  match is with
  | [] => []
  | i :: rest =>
    if i.isFiller then pieces rest
    else (i :: (splitStatement rest).1) :: pieces (splitStatement rest).2
termination_by is.length
decreasing_by
  · simp
  · have := length_splitStatement_le rest
    simp only [List.length_cons]
    omega

lemma pieces_filler {i : Item} (h : i.isFiller = true) (is : List Item) :
    pieces (i :: is) = pieces is := by
  rw [pieces, if_pos h]

lemma pieces_cons {i : Item} (h : i.isFiller = false) (is : List Item) :
    pieces (i :: is) = (i :: (splitStatement is).1) :: pieces (splitStatement is).2 := by
  rw [pieces, h, if_neg Bool.false_ne_true]

/-- A filler adds no statement. -/
lemma statements_ofItems_filler {i : Item} (h : i.isFiller = true) (is : List Item) :
    statements (ofItems (i :: is)) = statements (ofItems is) := by
  rw [ofItems, if_pos h, statements, List.filterMap_cons]
  cases is with
  | nil => rfl
  | cons j js =>
      by_cases hj : j.isFiller = true
      · rw [statements, ofItems.eq_2 j js, if_pos hj, List.filterMap_cons,
          List.dropWhile_cons_of_pos hj]
        rfl
      · rw [List.dropWhile_cons_of_neg hj]
        rfl

/-- The statements of some items are read from the pieces. -/
lemma statements_ofItems (is : List Item) :
    statements (ofItems is) = (pieces is).map fun p => Statement.read (Text.ofItems p) := by
  fun_induction pieces is with
  | case1 => rw [ofItems]; rfl
  | case2 i rest hi ih => rw [statements_ofItems_filler hi, ih]
  | case3 i rest hi ih =>
      rw [ofItems, if_neg hi, statements, List.filterMap_cons, List.map_cons, ← ih]
      rfl

/-- The statement of a piece is among the nodes. -/
lemma source_mem_of_mem_pieces {is p : List Item} (h : p ∈ pieces is) :
    .source (Text.ofItems p) ∈ ofItems is := by
  fun_induction pieces is with
  | case1 => exact absurd h List.not_mem_nil
  | case2 i rest hi ih =>
      rw [ofItems, if_pos hi]
      refine List.mem_cons_of_mem _ ?_
      have hmem := ih h
      cases rest with
      | nil => exact hmem
      | cons j js =>
          by_cases hj : j.isFiller = true
          · rw [ofItems, if_pos hj] at hmem
            rw [List.dropWhile_cons_of_pos hj]
            exact (List.mem_cons.mp hmem).resolve_left (by simp)
          · rwa [List.dropWhile_cons_of_neg hj]
  | case3 i rest hi ih =>
      rw [ofItems, if_neg hi]
      rcases List.mem_cons.mp h with rfl | h
      · exact List.mem_cons_self ..
      · exact List.mem_cons_of_mem _ (ih h)

/-- No closing brace is part of a statement. -/
lemma closeBrace_not_mem_splitStatement (is : List Item) :
    .byte Byte.closeBrace ∉ (splitStatement is).1 := by
  induction is with
  | nil => exact List.not_mem_nil
  | cons i is ih =>
      rw [splitStatement]
      split
      next hi =>
        rw [hi, List.mem_singleton]
        decide
      next hi =>
      split
      · exact List.not_mem_nil
      next hbrace => simp [ih, Ne.symm hbrace]

/-- A statement ends with the first semicolon, or has none and ends before a brace or at the end. -/
lemma splitStatement_end (is : List Item) :
    (∃ q, (splitStatement is).1 = q ++ [.byte Byte.semicolon] ∧ .byte Byte.semicolon ∉ q) ∨
      .byte Byte.semicolon ∉ (splitStatement is).1 ∧
        ∀ i ∈ (splitStatement is).2.head?, i = .byte Byte.closeBrace := by
  induction is with
  | nil => exact Or.inr ⟨List.not_mem_nil, fun i hi => by cases hi⟩
  | cons i is ih =>
      rw [splitStatement]
      split
      next hi => exact Or.inl ⟨[], by rw [hi]; rfl, List.not_mem_nil⟩
      next hi =>
      split
      next hbrace =>
        refine Or.inr ⟨List.not_mem_nil, fun j hj => ?_⟩
        obtain rfl : i = j := Option.some.inj hj
        exact hbrace
      next hbrace =>
        have hne : Item.byte Byte.semicolon ≠ i := fun h => hi h.symm
        rcases ih with ⟨q, hq, hmem⟩ | ⟨hmem, hrest⟩
        · exact Or.inl ⟨i :: q, congrArg (i :: ·) hq, by simp [hne, hmem]⟩
        · exact Or.inr ⟨by simp [hne, hmem], hrest⟩

/-- Where a piece comes from, and how it begins and ends. -/
lemma exists_of_mem_pieces {is p : List Item} (h : p ∈ pieces is) :
    ∃ as cs, is = as ++ (p ++ cs) ∧ (∃ i rest, p = i :: rest ∧ i.isFiller = false) ∧
      .byte Byte.closeBrace ∉ p ∧
      ((∃ q, p = q ++ [.byte Byte.semicolon] ∧ .byte Byte.semicolon ∉ q) ∨
        .byte Byte.semicolon ∉ p ∧ ∀ i ∈ cs.head?, i = .byte Byte.closeBrace) := by
  fun_induction pieces is with
  | case1 => exact absurd h List.not_mem_nil
  | case2 j rest hj ih =>
      obtain ⟨as, cs, hsplit, hpiece⟩ := ih h
      exact ⟨j :: as, cs, by rw [hsplit]; rfl, hpiece⟩
  | case3 j rest hj ih =>
      rcases List.mem_cons.mp h with rfl | h
      · have hsemicolon : Item.byte Byte.semicolon ≠ j := by
          rintro rfl
          exact hj rfl
        have hbrace : Item.byte Byte.closeBrace ≠ j := by
          rintro rfl
          exact hj rfl
        refine ⟨[], (splitStatement rest).2, ?_, ⟨j, _, rfl, by simpa using hj⟩, ?_, ?_⟩
        · rw [List.nil_append, List.cons_append, splitStatement_append]
        · simp [hbrace, closeBrace_not_mem_splitStatement rest]
        · rcases splitStatement_end rest with ⟨q, hq, hmem⟩ | ⟨hmem, hrest⟩
          · exact Or.inl ⟨j :: q, congrArg (j :: ·) hq, by simp [hsemicolon, hmem]⟩
          · exact Or.inr ⟨by simp [hsemicolon, hmem], hrest⟩
      · obtain ⟨as, cs, hsplit, hpiece⟩ := ih h
        refine ⟨j :: (splitStatement rest).1 ++ as, cs, ?_, hpiece⟩
        rw [List.append_assoc, ← hsplit, List.cons_append, splitStatement_append]

/-- A piece has its items by itself. -/
lemma items_of_mem_pieces {s : Text} {p : List Item} (hp : p ∈ pieces (Text.items .file s)) :
    Text.items .file (Text.ofItems p) = p := by
  obtain ⟨as, cs, hsplit, -⟩ := exists_of_mem_pieces hp
  exact Text.items_ofItems_prefix (Text.items_ofItems_suffix hsplit)

/-- A piece of a finished text is finished. -/
lemma isFinished_of_mem_pieces {s : Text} (hs : s.isFinished = true) {p : List Item}
    (hp : p ∈ pieces (Text.items .file s)) : (Text.ofItems p).isFinished = true := by
  obtain ⟨as, cs, hsplit, -, -, hend⟩ := exists_of_mem_pieces hp
  obtain ⟨hfinished, hlast⟩ := Text.isFinished_iff.mp hs
  rw [hsplit] at hfinished hlast
  refine (isFinished_ofItems hsplit (fun i hi => hfinished i (List.mem_append_right _ hi))
    (forall_getLast?_of_append hlast) fun c hc hnext => ?_).2
  rcases hend with ⟨q, rfl, -⟩ | ⟨-, hbrace⟩
  · rw [List.getLast?_concat] at hc
    cases hc
  · cases hbrace _ hnext

/-- A piece with a semicolon at its end is finished if its items are. -/
lemma isFinished_of_ended {s : Text} (hs : ∀ i ∈ Text.items .file s, i.isFinished = true)
    {p : List Item} (hp : p ∈ pieces (Text.items .file s))
    (hended : (Node.source (Text.ofItems p)).isEnded = true) :
    (Text.ofItems p).isFinished = true := by
  obtain ⟨as, cs, hsplit, -⟩ := exists_of_mem_pieces hp
  have hitems := items_of_mem_pieces hp
  rw [isEnded, decide_eq_true_eq] at hended
  refine Text.isFinished_iff.mpr ⟨fun i hi => hs i ?_, fun i hi => ?_⟩
  · rw [hitems] at hi
    rw [hsplit]
    simp [hi]
  · obtain rfl := Option.mem_some_iff.mp (hended ▸ hi)
    rfl

end Node

namespace Statement

/-! ## Keyword and value -/

/-- Items up to the end of a keyword, and those behind it. -/
def IsKeywordSplit (ks rest : List Item) : Prop :=
  (∃ q, ks = [.quoted q]) ∨
    (∀ i ∈ ks, isKeywordItem i = true) ∧ (∀ i ∈ rest.head?, isKeywordItem i = false) ∧
      ∀ q, (ks ++ rest).head? ≠ some (.quoted q)

/-- A keyword is made of strings and bytes that are no gaps. -/
lemma IsKeywordSplit.of_mem {ks rest : List Item} (h : IsKeywordSplit ks rest) {i : Item}
    (hi : i ∈ ks) :
    (∃ q, i = .quoted q) ∨ ∃ b, i = .byte b ∧ Byte.isBlank b = false ∧ b ≠ Byte.semicolon := by
  rcases h with ⟨q, rfl⟩ | ⟨hks, -, -⟩
  · exact Or.inl ⟨q, List.mem_singleton.mp hi⟩
  · have hword := hks i hi
    cases i with
    | byte b =>
        have hb : (!Byte.isBlank b && b ≠ Byte.semicolon) = true := hword
        rw [Bool.and_eq_true, Bool.not_eq_true', decide_eq_true_eq] at hb
        exact Or.inr ⟨b, rfl, hb⟩
    | quoted t => cases hword
    | comment t => cases hword
    | group t closed => cases hword

lemma exists_isKeywordSplit (is : List Item) : ∃ ks rest, is = ks ++ rest ∧ IsKeywordSplit ks rest := by
  cases is with
  | nil => exact ⟨[], [], rfl, Or.inr ⟨fun i hi => absurd hi List.not_mem_nil,
      fun i hi => (by cases hi), fun q h => by cases h⟩⟩
  | cons i is =>
      by_cases hq : ∃ q, i = .quoted q
      · obtain ⟨q, rfl⟩ := hq
        exact ⟨[.quoted q], is, rfl, Or.inl ⟨q, rfl⟩⟩
      · refine ⟨(i :: is).takeWhile isKeywordItem, (i :: is).dropWhile isKeywordItem,
          List.takeWhile_append_dropWhile.symm, Or.inr ⟨fun j hj => List.mem_takeWhile_imp hj,
            fun j hj => ?_, fun q h => ?_⟩⟩
        · have hstop := List.head?_dropWhile_not isKeywordItem (i :: is)
          rw [Option.mem_def.mp hj] at hstop
          simpa using hstop
        · rw [List.takeWhile_append_dropWhile] at h
          exact hq ⟨q, Option.some.inj h⟩

/-- The keyword of a text is told by its items. -/
lemma splitKeyword_of_items {s : Text} {ks rest : List Item} (h : Text.items .file s = ks ++ rest)
    (hsplit : IsKeywordSplit ks rest) :
    splitKeyword s = (Text.ofItems ks, Text.ofItems rest) := by
  rw [splitKeyword, h]
  rcases hsplit with ⟨q, rfl⟩ | ⟨hks, hrest, hquoted⟩
  · show (q, Text.ofItems rest) = _
    simp [Item.text]
  · have htake : (ks ++ rest).takeWhile isKeywordItem = ks := by
      rw [List.takeWhile_append_of_pos hks]
      cases rest with
      | nil => simp
      | cons i rest => rw [List.takeWhile_cons_of_neg (by simpa using hrest i rfl), List.append_nil]
    have hdrop : (ks ++ rest).dropWhile isKeywordItem = rest := by
      rw [List.dropWhile_append_of_pos hks]
      cases rest with
      | nil => rfl
      | cons i rest => rw [List.dropWhile_cons_of_neg (by simpa using hrest i rfl)]
    split
    next q rest' hq => exact absurd (by rw [hq]; rfl) (hquoted q)
    next => rw [htake, hdrop]

/-- A text that begins with something other than a gap begins with no blank. -/
lemma trimLeft_of_items {s : Text} {is : List Item} (h : Text.items .file s = is)
    (hhead : ∀ i ∈ is.head?, i.isGap = false) : Text.trimLeft s = s := by
  refine Text.dropWhile_eq_self fun b hb => ?_
  rw [← Bool.not_eq_true]
  intro hblank
  obtain ⟨r, rfl⟩ := List.head?_eq_some_iff.mp hb
  rw [Text.items_cons_of_single (Byte.isSingle_of_isBlank hblank)] at h
  subst h
  have hgap := hhead _ rfl
  rw [Item.isGap, hblank] at hgap
  cases hgap

/-- The keyword of a statement is told by its items. -/
lemma keyword_read_of_items {s : Text} {ks rest : List Item} (h : Text.items .file s = ks ++ rest)
    (hhead : ∀ i ∈ (ks ++ rest).head?, i.isGap = false) (hsplit : IsKeywordSplit ks rest) :
    (read s).keyword = Text.ofItems ks := by
  show (splitKeyword (Text.trimLeft s)).1 = _
  rw [trimLeft_of_items h hhead, splitKeyword_of_items h hsplit]

lemma dropTerminator_concat (is : List Item) :
    dropTerminator (Text.ofItems (is ++ [.byte Byte.semicolon])) = Text.ofItems is := by
  have htext : Text.ofItems (is ++ [.byte Byte.semicolon]) =
      Text.ofItems is ++ [Byte.semicolon] := by
    rw [Text.ofItems_append]
    rfl
  rw [htext, dropTerminator, List.getLast?_concat, if_pos rfl, List.dropLast_concat]

lemma getLast?_of_closesComment {t : Text} (h : Text.closesComment t = true) :
    t.getLast? = some Byte.slash := by
  fun_induction Text.closesComment t with
  | case1 => cases h
  | case2 => cases h
  | case3 b c r hend =>
      obtain rfl := List.isEmpty_iff.mp h
      simp only [Bool.and_eq_true, decide_eq_true_eq] at hend
      rw [hend.2]
      rfl
  | case4 b c r _ ih =>
      rw [List.getLast?_cons_cons]
      exact ih h

/-- A finished item ends with a semicolon only if it is one. -/
lemma exists_getLast?_text {i : Item} (hfinished : i.isFinished = true)
    (hline : i.isLineComment = false) (hne : i ≠ .byte Byte.semicolon) :
    ∃ b, i.text.getLast? = some b ∧ b ≠ Byte.semicolon := by
  have hdrop : ∀ (k : ℕ) (t : Text) (b : UInt8), (t.drop k).getLast? = some b →
      t.getLast? = some b := by
    intro k t b h
    rw [← List.take_append_drop k t, List.getLast?_append, h]
    rfl
  cases i with
  | byte b =>
      refine ⟨b, rfl, ?_⟩
      rintro rfl
      exact hne rfl
  | quoted t =>
      exact ⟨Byte.quote, hdrop 1 t _ (Text.getLast?_of_closesQuote hfinished), by decide⟩
  | comment t =>
      rw [Item.isFinished, hline, Bool.false_or] at hfinished
      exact ⟨Byte.slash, hdrop 2 t _ (getLast?_of_closesComment hfinished), by decide⟩
  | group t closed =>
      obtain rfl : closed = true := hfinished
      refine ⟨Byte.closeBrace, ?_, by decide⟩
      rw [Item.text, if_pos rfl, List.getLast?_concat]

lemma dropTerminator_of_not_mem {is : List Item} (hfinished : ∀ i ∈ is, i.isFinished = true)
    (hline : ∀ i ∈ is.getLast?, i.isLineComment = false) (hne : .byte Byte.semicolon ∉ is) :
    dropTerminator (Text.ofItems is) = Text.ofItems is := by
  refine if_neg fun hlast => ?_
  cases his : is.getLast? with
  | none =>
      rw [List.getLast?_eq_none_iff.mp his] at hlast
      cases hlast
  | some i =>
      obtain ⟨front, rfl⟩ := List.getLast?_eq_some_iff.mp his
      obtain ⟨b, hb, hbne⟩ := exists_getLast?_text (hfinished i (by simp)) (hline i his)
        (by rintro rfl; simp at hne)
      rw [Text.ofItems_append, Text.ofItems_cons, Text.ofItems_nil, List.append_nil,
        List.getLast?_append, hb] at hlast
      exact hbne (Option.some.inj hlast)

/-- **A statement** is read from its items: a keyword, a value, and perhaps a semicolon. -/
lemma read_of_items {s : Text} {ks v tail : List Item}
    (h : Text.items .file s = ks ++ (v ++ tail))
    (hhead : ∀ i ∈ (ks ++ (v ++ tail)).head?, i.isGap = false)
    (hsplit : IsKeywordSplit ks (v ++ tail))
    (htail : tail = [.byte Byte.semicolon] ∨ tail = [] ∧ (∀ i ∈ v, i.isFinished = true) ∧
      (∀ i ∈ v.getLast?, i.isLineComment = false) ∧ .byte Byte.semicolon ∉ v) :
    read s = ofParts (Text.ofItems ks) (Text.ofItems v) := by
  have hvalue : dropTerminator (Text.ofItems (v ++ tail)) = Text.ofItems v := by
    rcases htail with rfl | ⟨rfl, hfinished, hline, hmem⟩
    · exact dropTerminator_concat v
    · rw [List.append_nil]
      exact dropTerminator_of_not_mem hfinished hline hmem
  rw [read, valueText, trimLeft_of_items h hhead, splitKeyword_of_items h hsplit, hvalue]

/-- The items of a statement are those of its keyword, those of its value, and perhaps a semicolon. -/
lemma exists_parts {s : Text} {p : List Item} (hp : p ∈ Node.pieces (Text.items .file s)) :
    ∃ ks v tail, p = ks ++ (v ++ tail) ∧ (∀ i ∈ p.head?, i.isGap = false) ∧
      IsKeywordSplit ks (v ++ tail) ∧ .byte Byte.semicolon ∉ v ∧
      (tail = [.byte Byte.semicolon] ∨ tail = []) := by
  obtain ⟨as, cs, -, ⟨i, is, rfl, hi⟩, -, hend⟩ := Node.exists_of_mem_pieces hp
  have hhead : ∀ j ∈ (i :: is).head?, j.isGap = false := by
    intro j hj
    obtain rfl : i = j := Option.some.inj hj
    rw [← Bool.not_eq_true]
    intro hgap
    rw [Item.isFiller_of_isGap hgap] at hi
    cases hi
  obtain ⟨ks, rest, hks, hsplit⟩ := exists_isKeywordSplit (i :: is)
  rcases hend with ⟨q, hq, hmem⟩ | ⟨hmem, -⟩
  · -- the semicolon is no part of the keyword
    have hkeyword : .byte Byte.semicolon ∉ ks := by
      intro hmem
      rcases hsplit.of_mem hmem with ⟨q, hq⟩ | ⟨b, hb, -, hne⟩
      · cases hq
      · exact hne (Item.byte.inj hb).symm
    rcases List.eq_nil_or_concat rest with rfl | ⟨v, j, rfl⟩
    · rw [List.append_nil] at hks
      exact absurd (by rw [← hks, hq]; simp) hkeyword
    · rw [List.concat_eq_append] at hks hsplit
      have hconcat : (ks ++ v) ++ [j] = q ++ [.byte Byte.semicolon] := by
        rw [List.append_assoc, ← hks, hq]
      obtain rfl := List.append_inj_left' hconcat rfl
      obtain rfl := List.singleton_inj.mp (List.append_inj_right' hconcat rfl)
      exact ⟨ks, v, _, hks, hhead, hsplit, fun h => hmem (List.mem_append_right _ h), Or.inl rfl⟩
  · refine ⟨ks, rest, [], by rw [List.append_nil, hks], hhead, by rwa [List.append_nil], fun h => ?_,
      Or.inr rfl⟩
    exact hmem (by rw [hks]; exact List.mem_append_right _ h)

end Statement

end NameServerConf
