import NameServerConf.Proofs.Lists
import NameServerConf.Proofs.Reload

/-!
# Statements that were laid out

**One statement.**  A keyword and a value with a blank between them are a statement that says just
this (`read_append`, `value_ofParts`), and what stands in braces at its end is found there
(`ofParts_braces`).

**Laid out.**  At any depth a built statement is its text behind tabs (`render_eq`), and the text of a
block has its statements in braces, one to a line (`bare_block`).  What is made of keywords, values and
braces is complete (`complete_line`, `complete_bracedText`), and in the braces its statements are found
again (`read_bracedText`).

**Neat statements.**  A built statement is **neat** if all of it is made of keywords and values.  At any
depth its text is complete (`Neat.complete`), and a neat block has the statements of its body for its
children (`said_block`).
-/

namespace NameServerConf

namespace Text

/-! ## After a keyword -/

/-- A keyword: a string, or a value without strings, groups and blanks. -/
structure IsKeyword (w : Text) : Prop where
  isValue : IsValue w
  single : (∃ q, items .value w = [.quoted q]) ∨
    ∀ i ∈ items .value w, Statement.isKeywordItem i = true

lemma IsBare.isKeyword {w : Text} (h : IsBare w) : IsKeyword w := by
  refine ⟨h.isValue, Or.inr fun i hi => ?_⟩
  rw [h.items_eq] at hi
  obtain ⟨b, hb, rfl⟩ := List.mem_map.mp hi
  have hb := h.bytes b hb
  simp only [isWordByte, Bool.and_eq_true, Bool.not_eq_true', decide_eq_true_eq] at hb
  simp [Statement.isKeywordItem, Item.isByte, hb.1.1.1.1.1, hb.1.1.2]

lemma isKeyword_quote {s : Text} (h : s.isQuotable = true) : IsKeyword (quote s) :=
  ⟨isValue_quote h, Or.inl ⟨_, items_quote h .value⟩⟩

/-- A value, or nothing. -/
def IsTail (v : Text) : Prop := v = [] ∨ IsValue v

/-- A blank and the text, or nothing. -/
def afterGap (v : Text) : Text := if v = [] then [] else Byte.space :: v

lemma afterGap_of_ne_nil {v : Text} (h : v ≠ []) : afterGap v = Byte.space :: v := if_neg h

lemma IsValue.isTail {v : Text} (h : IsValue v) : IsTail v := Or.inr h

lemma isTail_nil : IsTail [] := Or.inl rfl

section Tails

variable {h v t : Text}

lemma IsTail.isValue_append {s : Text} (hs : IsValue s) (hv : IsTail v) :
    IsValue (s ++ afterGap v) := by
  rcases hv with rfl | hv
  · rwa [afterGap, if_pos rfl, List.append_nil]
  · rw [afterGap_of_ne_nil hv.ne_nil]
    exact hs.append hv

lemma IsTail.lexemes_append (hv : IsTail v) (d : Dialect) (ht : StartsSoft t) :
    lexemes d (afterGap v ++ t) = lexemes .value (afterGap v) ++ lexemes d t := by
  rcases hv with rfl | hv
  · rw [afterGap, if_pos rfl, lexemes.eq_1 .value]
    rfl
  · rw [afterGap_of_ne_nil hv.ne_nil, List.cons_append, lexemes_cons_of_single rfl,
      hv.lexemes_append d ht, lexemes_cons_of_single rfl, List.cons_append]

lemma IsTail.items_append (hv : IsTail v) (d : Dialect) (ht : StartsSoft t) :
    items d (afterGap v ++ t) = items .value (afterGap v) ++ items d t := by
  rcases hv with rfl | hv
  · rw [afterGap, if_pos rfl, items_nil]
    rfl
  · rw [afterGap_of_ne_nil hv.ne_nil, List.cons_append, items_cons_of_single rfl,
      hv.items_append d ht, items_cons_of_single rfl, List.cons_append]

/-- The blanks around a value are not part of it. -/
lemma IsTail.normalize_eq (hv : IsTail v) {gap : Text} (hgap : gap = [] ∨ gap = [Byte.space]) :
    normalize (afterGap v ++ gap) = v := by
  have hsoft : StartsSoft gap := by
    rcases hgap with rfl | rfl
    · exact startsSoft_nil
    · exact startsSoft_space []
  have hend : ∀ d, lexemes d gap = gap.map .byte := by
    intro d
    rcases hgap with rfl | rfl
    · exact lexemes.eq_1 d
    · rw [lexemes_cons_of_single rfl, lexemes.eq_1]
      rfl
  have hlex : ∀ d, lexemes d (afterGap v ++ gap) = lexemes .value (afterGap v) ++ gap.map .byte :=
    fun d => by rw [hv.lexemes_append d hsoft, hend]
  have hsqueeze : squeeze true false (gap.map .byte) = [] := by
    rcases hgap with rfl | rfl <;> rfl
  rw [normalize_eq_collapse ((hlex .file).trans (hlex .value).symm), collapse, hlex]
  rcases hv with rfl | hv
  · rw [afterGap, if_pos rfl, lexemes.eq_1]
    rcases hgap with rfl | rfl <;> rfl
  · have hvalue := (squeeze_append hv.isSpaced (gap.map .byte)).2 rfl false true
    rw [hsqueeze, ofItems_lexemes] at hvalue
    rw [afterGap_of_ne_nil hv.ne_nil, lexemes_cons_of_single rfl, List.cons_append, squeeze,
      if_pos (by decide), hvalue]
    simp

lemma noGroups_afterGap (hg : noGroups h = true) : noGroups (afterGap h) = true := by
  rw [afterGap]
  split
  · rw [noGroups, items_nil]
    rfl
  · rw [noGroups, items_cons_of_single rfl, List.all_cons]
    exact hg

end Tails

/-! ## Inside braces -/

/-- Enclosed in braces the text is one group. -/
def IsInside (x : Text) : Prop :=
  ∀ t, items .file (Byte.openBrace :: x ++ Byte.closeBrace :: t) = .group x true :: items .file t

/-- A list can stand in braces. -/
lemma isInside_listed {l : List Text} (h : ∀ p ∈ l, IsValue p) :
    IsInside (Byte.space :: listed l) := by
  intro t
  rw [← items_joined_append (isPart_of_isValue h .file) t, joined_eq, List.append_assoc]
  rfl

lemma isInside_of_items {x : Text}
    (h : ∀ i ∈ items .file x, i.isFinished = true ∧ i ≠ .byte Byte.closeBrace)
    (hend : ∀ i ∈ (items .file x).getLast?, ∀ b, i.takes b = false) : IsInside x := by
  intro t
  have hbalanced : isBalanced (lexemes .file x) = true := by
    rw [isBalanced, List.all_eq_true]
    intro i hi
    rw [(h i hi).1, Bool.or_true, Bool.true_and, decide_eq_true_eq]
    exact (h i hi).2
  have hlex : lexemes .file (x ++ Byte.closeBrace :: t) =
      lexemes .file x ++ lexemes .file (Byte.closeBrace :: t) := by
    refine lexemes_append fun i hi b _ => ?_
    rw [getLast?_lexemes_of_nest (groupsClosed_of_isBalanced hbalanced)
      fun i hi => inner?_of_mem_lexemes hi] at hi
    obtain ⟨j, hj, rfl⟩ := Option.map_eq_some_iff.mp hi
    have hj := hend j hj b
    cases j with
    | group inner closed => rfl
    | byte c => exact hj
    | quoted u => exact hj
    | comment u => exact hj
  rw [items, List.cons_append, lexemes_openBrace, hlex, lexemes_cons_of_single rfl,
    ← List.cons_append, nest_braces hbalanced, ofItems_lexemes]
  rfl

/-- Nesting makes groups and leaves the rest as it is. -/
lemma of_mem_nest {ls : List Item} {i : Item} (h : i ∈ nest ls) :
    i ∈ ls ∨ ∃ t closed, i = .group t closed := by
  fun_induction nest ls with
  | case1 => cases h
  | case2 rest inside after hg ih =>
      rcases List.mem_cons.mp h with rfl | h
      · exact Or.inr ⟨_, _, rfl⟩
      · refine (ih h).imp (fun h => ?_) id
        rw [← append_of_splitGroup? hg]
        exact List.mem_cons_of_mem _ (List.mem_append_right _ (List.mem_cons_of_mem _ h))
  | case3 rest hg => exact Or.inr ⟨_, _, List.mem_singleton.mp h⟩
  | case4 j rest hj ih =>
      rcases List.mem_cons.mp h with rfl | h
      · exact Or.inl (List.mem_cons_self ..)
      · exact (ih h).imp (List.mem_cons_of_mem _) id

end Text

namespace Node

lemma getLast?_flatMap {f : Node → List Item} {i : Item} {ns : List Node}
    (hi : i ∈ (ns.flatMap f).getLast?) : ∃ n ∈ ns, i ∈ (f n).getLast? := by
  induction ns with
  | nil => cases hi
  | cons n ns ih =>
      rw [List.flatMap_cons, List.getLast?_append, Option.mem_def, Option.or_eq_some_iff] at hi
      rcases hi with hi | ⟨-, hi⟩
      · obtain ⟨m, hm, hi⟩ := ih hi
        exact ⟨m, List.mem_cons_of_mem _ hm, hi⟩
      · exact ⟨n, List.mem_cons_self .., hi⟩

/-- Complete nodes without a stray brace can stand in braces. -/
lemma isInside_of_complete {ns : List Node} (h : ∀ n ∈ ns, n.Complete)
    (hbrace : ∀ n ∈ ns, .byte Byte.closeBrace ∉ Text.items .file n.written) :
    Text.IsInside (ns.flatMap written) := by
  have hitems : Text.items .file (ns.flatMap written) =
      ns.flatMap fun n => Text.items .file n.written := by
    induction ns with
    | nil => exact Text.items_nil .file
    | cons n ns ih =>
        rw [List.flatMap_cons, (h n (List.mem_cons_self ..)).items_append,
          ih (fun m hm => h m (List.mem_cons_of_mem _ hm))
            fun m hm => hbrace m (List.mem_cons_of_mem _ hm), List.flatMap_cons]
  refine Text.isInside_of_items (fun i hi => ?_) fun i hi => ?_
  · rw [hitems] at hi
    obtain ⟨n, hn, hi⟩ := List.mem_flatMap.mp hi
    refine ⟨?_, fun e => hbrace n hn (e ▸ hi)⟩
    have hcomplete := h n hn
    cases n with
    | line t => exact absurd hcomplete id
    | block header body => exact absurd hcomplete id
    | source t => exact (Text.isFinished_iff.mp hcomplete.1).1 i hi
    | raw t => exact (Text.isFinished_iff.mp hcomplete.1).1 i hi
  · rw [hitems] at hi
    obtain ⟨n, hn, hi⟩ := getLast?_flatMap hi
    exact (h n hn).takes_eq_false hi

end Node

/-! ## One statement -/

namespace Statement

open Text

variable {kw h v x : Text}

/-- A keyword is split off where a blank or a semicolon ends it. -/
lemma splitKeyword_of_isKeyword (hk : IsKeyword kw) {b : UInt8} (hb : endsKeyword b = true)
    (t : Text) :
    splitKeyword (kw ++ b :: t) = (kw, b :: t) := by
  have hsingle : Byte.isSingle b := by
    simp only [endsKeyword, Bool.or_eq_true, decide_eq_true_eq] at hb
    rcases hb with hb | rfl
    · exact Byte.isSingle_of_isBlank hb
    · rfl
  have hsoft : StartsSoft (b :: t) := by
    refine startsSoft_cons ⟨?_, ?_⟩ t <;>
      · rintro rfl
        exact absurd hb (by decide)
  have hstop : isKeywordItem (.byte b) = false := by
    simp only [endsKeyword, Bool.or_eq_true, decide_eq_true_eq] at hb
    simp only [isKeywordItem, Item.isByte, Bool.and_eq_false_iff, Bool.not_eq_false',
      decide_eq_false_iff_not, not_not]
    exact hb
  have hitems := hk.isValue.items_append .file hsoft
  have htext := ofItems_items .value kw
  have hrest := ofItems_items .file (b :: t)
  rw [splitKeyword, hitems]
  rcases hk.single with ⟨q, hq⟩ | hbytes
  · rw [hq, ofItems_cons, ofItems_nil, List.append_nil] at htext
    rw [hq, ← htext]
    exact congrArg _ hrest
  · rw [items_cons_of_single hsingle] at hrest ⊢
    split
    next q rest hq =>
      -- the first item is a byte, be it of the keyword or the one that ends it
      cases hw : items .value kw with
      | nil =>
          rw [hw] at hq
          cases hq
      | cons i is =>
          rw [hw] at hq hbytes
          rw [(List.cons.inj hq).1] at hbytes
          exact absurd (hbytes _ (List.mem_cons_self ..)) Bool.false_ne_true
    next =>
      rw [List.takeWhile_append_of_pos hbytes, List.dropWhile_append_of_pos hbytes,
        List.takeWhile_cons_of_neg (by rw [hstop]; decide),
        List.dropWhile_cons_of_neg (by rw [hstop]; decide), List.append_nil, htext, hrest]

/-- **A statement** is read as its keyword and what follows. -/
lemma read_append (hk : IsKeyword kw) {rest : Text}
    (hrest : rest = [] ∨ rest.head? = some Byte.space) :
    read (kw ++ rest ++ [Byte.semicolon]) = ofParts kw rest := by
  have htrim : trimLeft (kw ++ rest ++ [Byte.semicolon]) = kw ++ (rest ++ [Byte.semicolon]) := by
    rw [List.append_assoc, trimLeft]
    refine dropWhile_eq_self fun b hb => hk.isValue.head?_isBlank b ?_
    rwa [List.head?_append_of_ne_nil _ hk.isValue.ne_nil] at hb
  have hsplit : splitKeyword (kw ++ (rest ++ [Byte.semicolon])) =
      (kw, rest ++ [Byte.semicolon]) := by
    rcases hrest with rfl | hrest
    · exact splitKeyword_of_isKeyword hk rfl []
    · obtain ⟨r, rfl⟩ := List.head?_eq_some_iff.mp hrest
      exact splitKeyword_of_isKeyword hk rfl _
  have hdrop : dropTerminator (rest ++ [Byte.semicolon]) = rest := by
    rw [dropTerminator, if_pos List.getLast?_concat, List.dropLast_concat]
  rw [read, valueText, htrim, hsplit, hdrop]

lemma head?_afterGap (v : Text) : afterGap v = [] ∨ (afterGap v).head? = some Byte.space := by
  rw [afterGap]
  split
  · exact Or.inl rfl
  · exact Or.inr rfl

/-- The value of a statement is what follows its keyword. -/
lemma value_ofParts (hv : IsTail v) : (ofParts kw (afterGap v)).value = v := by
  have h := hv.normalize_eq (Or.inl rfl)
  rwa [List.append_nil] at h

/-- The text of a statement is its keyword and its value. -/
lemma text_ofParts (hk : IsKeyword kw) (hv : IsTail v) :
    (ofParts kw (afterGap v)).text = kw ++ afterGap v := by
  have hkw : kw ≠ [] := hk.isValue.ne_nil
  rw [text, value_ofParts hv, afterGap]
  split
  · exact (List.append_nil kw).symm
  · exact if_neg hkw

/-- Without groups all of a value is header. -/
lemma header_ofParts (hh : IsTail h) (hg : noGroups h = true) :
    (ofParts kw (afterGap h)).header = h := by
  have hitems := hh.items_append .file startsSoft_nil
  rw [List.append_nil, items_nil, List.append_nil] at hitems
  have hall := List.all_eq_true.mp (noGroups_afterGap hg)
  have hnormalize := hh.normalize_eq (Or.inl rfl)
  rw [List.append_nil] at hnormalize
  show normalize (ofItems ((items .file (afterGap h)).takeWhile (!·.isGroup))) = h
  rw [hitems, List.takeWhile_eq_self_iff.mpr hall, ofItems_items, hnormalize]

/-- **What stands in braces** is the inside of the statement, and what stands before them its
    header. -/
lemma ofParts_braces (kw : Text) (hh : IsTail h) (hg : noGroups h = true) (hx : IsInside x) :
    let s := ofParts kw (afterGap h ++ Byte.space :: Byte.openBrace :: x ++ [Byte.closeBrace])
    s.header = h ∧ s.bodyText = normalize x ∧ s.body = Node.parse x ∧ s.hasBody = true := by
  have hinside := hx []
  rw [items_nil] at hinside
  have hitems : items .file
      (afterGap h ++ Byte.space :: Byte.openBrace :: x ++ [Byte.closeBrace]) =
        (items .value (afterGap h) ++ [.byte Byte.space]) ++ [.group x true] := by
    have hsplit := hh.items_append .file
      (startsSoft_space (Byte.openBrace :: x ++ [Byte.closeBrace]))
    rw [items_cons_of_single rfl, hinside] at hsplit
    simpa using hsplit
  have hall : ∀ i ∈ items .value (afterGap h) ++ [.byte Byte.space], (!i.isGroup) = true := by
    intro i hi
    rcases List.mem_append.mp hi with hi | hi
    · exact List.all_eq_true.mp (noGroups_afterGap hg) i hi
    · rw [List.mem_singleton.mp hi]
      rfl
  have hnone : (items .value (afterGap h) ++ [Item.byte Byte.space]).findSome? Item.inner? = none := by
    refine List.findSome?_eq_none_iff.mpr fun i hi => ?_
    simpa [Item.isGroup] using hall i hi
  have hinner : (items .file
      (afterGap h ++ Byte.space :: Byte.openBrace :: x ++ [Byte.closeBrace])).findSome?
        Item.inner? = some x := by
    rw [hitems, List.findSome?_append, hnone]
    rfl
  refine ⟨?_, ?_, ?_, ?_⟩
  · show normalize (ofItems ((items .file _).takeWhile (!·.isGroup))) = h
    rw [hitems, List.takeWhile_append_of_pos hall, List.takeWhile_cons_of_neg Bool.false_ne_true,
      List.append_nil, ofItems_append, ofItems_items]
    exact hh.normalize_eq (Or.inr rfl)
  · show (((items .file _).findSome? Item.inner?).map normalize).getD [] = normalize x
    rw [hinner]
    rfl
  · show (((items .file _).findSome? Item.inner?).map Node.parse).getD [] = Node.parse x
    rw [hinner]
    rfl
  · show ((items .file _).findSome? Item.inner?).isSome = true
    rw [hinner]
    rfl

end Statement

/-! ## Blocks in blocks -/

namespace Node

open Text Config

/-- A built statement that is made of keywords and values. -/
inductive Neat : Node → Prop
  /-- A keyword and a value on one line. -/
  | line {kw v : Text} (hk : IsKeyword kw) (hv : IsTail v) : Neat (.line (kw ++ afterGap v))
  /-- A keyword and a header before a body. -/
  | block {kw h : Text} {body : List Node} (hk : IsKeyword kw) (hh : IsTail h)
      (hg : noGroups h = true) (hbody : ∀ n ∈ body, Neat n) : Neat (.block (kw ++ afterGap h) body)

/-- The text of a built statement at the given depth, without the tabs before it. -/
def bare (depth : ℕ) (n : Node) : Text := (n.render depth).drop depth

/-- What a built statement says when it was laid out at the given depth. -/
def said (depth : ℕ) (n : Node) : Statement := Statement.read (bare depth n)

/-- The nodes that the inside of a block is made of when it was laid out. -/
def inside (depth : ℕ) (body : List Node) : List Node :=
  lineEnd :: (body.flatMap fun n =>
    [.raw (tabs (depth + 1)), .source (bare (depth + 1) n), lineEnd]) ++ [.raw (tabs depth)]

section Layout

variable {body : List Node}

lemma drop_tabs_append (depth : ℕ) (s : Text) : (tabs depth ++ s).drop depth = s :=
  List.drop_left' (List.length_replicate ..)

lemma raw?_eq_none {n : Node} (hn : n.isBuilt = true) : n.raw? = none := by
  cases n with
  | raw t => cases hn
  | source t => rfl
  | line t => rfl
  | block header body => rfl

/-- The text of a built statement at any depth, tabs and all. -/
lemma render_eq {n : Node} (hn : n.isBuilt = true) (depth : ℕ) :
    n.render depth = tabs depth ++ bare depth n := by
  obtain ⟨s, hs⟩ : tabs depth <+: n.render depth := by
    cases n with
    | raw t => cases hn
    | source t => cases hn
    | line t =>
        rw [render, List.append_assoc]
        exact List.prefix_append _ _
    | block header body =>
        rw [render]
        simp only [List.append_assoc]
        exact List.prefix_append _ _
  rw [bare, ← hs, drop_tabs_append]

/-- A line of a body is indented and has a line feed. -/
lemma renderBody_eq (hbody : ∀ n ∈ body, n.isBuilt = true) (depth : ℕ) :
    renderBody depth body = body.flatMap fun n => tabs depth ++ bare depth n ++ [Byte.newline] := by
  induction body with
  | nil => rfl
  | cons n body ih =>
      have hn := hbody n (List.mem_cons_self ..)
      rw [renderBody, raw?_eq_none hn, ih fun m hm => hbody m (List.mem_cons_of_mem _ hm),
        List.flatMap_cons, ← render_eq hn]

lemma written_inside (depth : ℕ) (body : List Node) :
    (inside depth body).flatMap written =
      Byte.newline :: (body.flatMap fun n =>
        tabs (depth + 1) ++ bare (depth + 1) n ++ [Byte.newline]) ++ tabs depth := by
  have hbody : (body.flatMap fun n => [Node.raw (tabs (depth + 1)),
      .source (bare (depth + 1) n), lineEnd]).flatMap written =
        body.flatMap fun n => tabs (depth + 1) ++ bare (depth + 1) n ++ [Byte.newline] := by
    rw [List.flatMap_assoc]
    refine List.flatMap_congr fun n _ => ?_
    simp [written, lineEnd]
  rw [inside, List.flatMap_append, List.flatMap_cons, hbody]
  simp [written, lineEnd]

lemma bare_line (t : Text) (depth : ℕ) :
    bare depth (.line t) = (Statement.read (t ++ [Byte.semicolon])).text ++ [Byte.semicolon] := by
  rw [bare, render, List.append_assoc, drop_tabs_append]

/-- The text of a statement with a body: what stands before it, and the inside in braces. -/
def bracedText (kw h x : Text) : Text :=
  kw ++ (afterGap h ++ Byte.space :: Byte.openBrace :: x ++ [Byte.closeBrace]) ++ [Byte.semicolon]

/-- **The text of a block**: its header, and the inside in braces. -/
lemma bare_block (header : Text) (hbody : ∀ n ∈ body, n.isBuilt = true) (depth : ℕ) :
    bare depth (.block header body) = bracedText (Statement.read (header ++ [Byte.semicolon])).keyword
      (Statement.read (header ++ [Byte.semicolon])).header ((inside depth body).flatMap written) := by
  rw [bare, render, renderBody_eq hbody, written_inside]
  simp only [List.append_assoc]
  rw [drop_tabs_append]
  simp [bracedText, afterGap]

end Layout

/-! ### Complete texts -/

/-- A text between fillers is complete if it is made of finished items and has one semicolon. -/
lemma complete_source {s : Text} {body : List Item} (hne : body ≠ [])
    (hitems : Text.items .file s = body ++ [.byte Byte.semicolon])
    (hhead : ∀ i ∈ body.head?, i.isFiller = false) (hbody : body.all isInner = true) :
    (Node.source s).Complete := by
  have hinner : ∀ i ∈ body, i.isFinished = true ∧ i ≠ .byte Byte.semicolon ∧
      i ≠ .byte Byte.closeBrace := by
    intro i hi
    simpa [isInner, and_assoc] using List.all_eq_true.mp hbody i hi
  refine ⟨Text.isFinished_iff.mpr ?_, ?_⟩
  · rw [hitems]
    refine ⟨fun i hi => ?_, fun i hi => ?_⟩
    · rcases List.mem_append.mp hi with hi | hi
      · exact (hinner i hi).1
      · rw [List.mem_singleton.mp hi]
        rfl
    · rw [List.getLast?_concat] at hi
      rw [← Option.some.inj hi]
      rfl
  · cases body with
    | nil => exact absurd rfl hne
    | cons i body =>
        exact ⟨i, body, hitems, hhead i rfl, fun j hj => (hinner j (List.mem_cons_of_mem _ hj)).2⟩

/-- A line does not begin with a filler. -/
lemma isFiller_head?_items {s : Text} (hs : s.isLine = true) :
    ∀ i ∈ (Text.items .value s).head?, i.isFiller = false := by
  intro i hi
  have hmem : i ∈ Text.items .value s := List.mem_of_head? hi
  obtain ⟨c, r, hs', hc⟩ := head?_of_isLine hs
  obtain ⟨is, his⟩ := List.head?_eq_some_iff.mp hi
  have htext := Text.ofItems_items .value s
  rw [his, hs', Text.ofItems_cons] at htext
  cases i with
  | quoted t => rfl
  | group t closed => rfl
  | byte b =>
      obtain rfl : b = c := (List.cons.inj htext).1
      have hsemicolon := ne_semicolon_of_inner (inner_of_isLine hs) hmem
      have hbrace := ne_closeBrace_of_inner (inner_of_isLine hs) hmem
      simp_all [Item.isFiller]
  | comment t =>
      -- the lexemes of a value text are strings and bytes
      rcases of_mem_nest hmem with hlex | ⟨u, closed, h⟩
      · rcases of_mem_lexemes_value hlex with ⟨b, h⟩ | ⟨u, h⟩ <;> cases h
      · cases h

lemma eq_tab_of_mem_items_tabs {depth : ℕ} {i : Item} (hi : i ∈ Text.items .file (tabs depth)) :
    i = .byte Byte.tab := by
  have hitems := Text.items_append_of_single (d := .file) (w := tabs depth)
    (fun b hb => by rw [List.eq_of_mem_replicate hb]; rfl) []
  rw [List.append_nil, Text.items_nil, List.append_nil] at hitems
  rw [hitems] at hi
  obtain ⟨b, hb, rfl⟩ := List.mem_map.mp hi
  rw [List.eq_of_mem_replicate hb]

lemma complete_tabs (depth : ℕ) : (Node.raw (tabs depth)).Complete := by
  refine ⟨Text.isFinished_iff.mpr ⟨fun i hi => ?_, fun i hi => ?_⟩, fun i hi => ?_⟩
  · rw [eq_tab_of_mem_items_tabs hi]
    rfl
  · rw [eq_tab_of_mem_items_tabs (List.mem_of_getLast? hi)]
    rfl
  · rw [eq_tab_of_mem_items_tabs hi]
    rfl

/-- The inside of a block is made of complete nodes if the statements in it are complete. -/
lemma complete_of_mem_inside {depth : ℕ} {body : List Node}
    (hbody : ∀ n ∈ body, (Node.source (bare (depth + 1) n)).Complete) :
    ∀ m ∈ inside depth body, m.Complete := by
  intro m hm
  rcases List.mem_append.mp hm with hm | hm
  · rcases List.mem_cons.mp hm with rfl | hm
    · exact complete_lineEnd
    · obtain ⟨n, hn, hm⟩ := List.mem_flatMap.mp hm
      rcases List.mem_cons.mp hm with rfl | hm
      · exact complete_tabs _
      rcases List.mem_cons.mp hm with rfl | hm
      · exact hbody n hn
      · rw [List.mem_singleton.mp hm]
        exact complete_lineEnd
  · rw [List.mem_singleton.mp hm]
    exact complete_tabs depth

/-- There is no stray brace in a complete statement, or in what a body is laid out with. -/
lemma closeBrace_not_mem_inside {depth : ℕ} {body : List Node}
    (hbody : ∀ n ∈ body, (Node.source (bare (depth + 1) n)).Complete) :
    ∀ m ∈ inside depth body, .byte Byte.closeBrace ∉ Text.items .file m.written := by
  have htabs : ∀ depth, .byte Byte.closeBrace ∉ Text.items .file (tabs depth) := fun depth h => by
    have hb := eq_tab_of_mem_items_tabs h
    cases hb
  have hline : .byte Byte.closeBrace ∉ Text.items .file lineEnd.written := by
    rw [lineEnd, written, Text.items_cons_of_single rfl, Text.items_nil]
    decide
  have hsource : ∀ {s : Text}, (Node.source s).Complete →
      .byte Byte.closeBrace ∉ Text.items .file s := by
    rintro s ⟨-, i, rest, hitems, hi, hrest⟩ h
    rw [hitems] at h
    rcases List.mem_append.mp h with h | h
    · rcases List.mem_cons.mp h with rfl | h
      · exact absurd hi (by decide)
      · exact (hrest _ h).2 rfl
    · cases List.mem_singleton.mp h
  intro m hm
  rcases List.mem_append.mp hm with hm | hm
  · rcases List.mem_cons.mp hm with rfl | hm
    · exact hline
    · obtain ⟨n, hn, hm⟩ := List.mem_flatMap.mp hm
      rcases List.mem_cons.mp hm with rfl | hm
      · exact htabs _
      rcases List.mem_cons.mp hm with rfl | hm
      · exact hsource (hbody n hn)
      · rw [List.mem_singleton.mp hm]
        exact hline
  · rw [List.mem_singleton.mp hm]
    exact htabs depth

lemma isInside_inside {depth : ℕ} {body : List Node}
    (hbody : ∀ n ∈ body, (Node.source (bare (depth + 1) n)).Complete) :
    IsInside ((inside depth body).flatMap written) :=
  isInside_of_complete (complete_of_mem_inside hbody) (closeBrace_not_mem_inside hbody)

section Written

variable {kw h v x : Text}

/-- A line and a semicolon are complete. -/
lemma complete_line (hv : v.isLine = true) : (Node.source (v ++ [Byte.semicolon])).Complete := by
  have hitems := items_append_of_inner (noComments_of_isLine hv) (inner_of_isLine hv)
    (startsSoft_semicolon [])
  rw [items_cons_of_single rfl, items_nil] at hitems
  refine complete_source (fun hnil => ?_) hitems (isFiller_head?_items hv) (inner_of_isLine hv)
  obtain ⟨b, r, rfl, -⟩ := head?_of_isLine hv
  have htext := Text.ofItems_items .value (b :: r)
  rw [hnil] at htext
  cases htext

/-- A statement with a body in braces is complete. -/
lemma complete_bracedText (hk : IsKeyword kw) (hh : IsTail h) (hx : IsInside x) :
    (Node.source (bracedText kw h x)).Complete := by
  have hvalue := hh.isValue_append hk.isValue
  have hitems : Text.items .file (bracedText kw h x) =
      (Text.items .value (kw ++ afterGap h) ++ [.byte Byte.space, .group x true]) ++
        [.byte Byte.semicolon] := by
    have htail := hx [Byte.semicolon]
    rw [items_cons_of_single rfl, items_nil] at htail
    have hsplit := hvalue.items_append .file (startsSoft_space
      (Byte.openBrace :: x ++ Byte.closeBrace :: [Byte.semicolon]))
    rw [items_cons_of_single rfl, htail] at hsplit
    rw [bracedText]
    simpa using hsplit
  obtain ⟨i, is, his⟩ : ∃ i is, Text.items .value (kw ++ afterGap h) = i :: is := by
    cases hnil : Text.items .value (kw ++ afterGap h) with
    | nil =>
        refine absurd ?_ hvalue.ne_nil
        rw [← Text.ofItems_items .value (kw ++ afterGap h), hnil, Text.ofItems_nil]
    | cons i is => exact ⟨i, is, rfl⟩
  refine complete_source (by simp) hitems ?_ ?_
  · have hhead := isFiller_head?_items hvalue.isLine
    rw [his] at hhead ⊢
    exact hhead
  · rw [List.all_append, hvalue.inner]
    rfl

end Written

lemma Neat.isBuilt {n : Node} (hn : n.Neat) : n.isBuilt = true := by cases hn <;> rfl

section Neat

variable {kw h v : Text} {body : List Node}

/-- The text of a neat block. -/
lemma bare_neatBlock (hk : IsKeyword kw) (hh : IsTail h) (hg : noGroups h = true)
    (hbody : ∀ n ∈ body, n.Neat) (depth : ℕ) :
    bare depth (.block (kw ++ afterGap h) body) =
      bracedText kw h ((inside depth body).flatMap written) := by
  rw [bare_block _ fun n hn => (hbody n hn).isBuilt,
    Statement.read_append hk (Statement.head?_afterGap h), Statement.header_ofParts hh hg]
  rfl

/-- The text of a neat line. -/
lemma bare_neatLine (hk : IsKeyword kw) (hv : IsTail v) (depth : ℕ) :
    bare depth (.line (kw ++ afterGap v)) = kw ++ afterGap v ++ [Byte.semicolon] := by
  rw [bare_line, Statement.read_append hk (Statement.head?_afterGap v), Statement.text_ofParts hk hv]

end Neat

/-- **A neat statement** is complete at any depth. -/
theorem Neat.complete {n : Node} (hn : n.Neat) (depth : ℕ) :
    (Node.source (bare depth n)).Complete := by
  induction hn generalizing depth with
  | line hk hv =>
      rw [bare_neatLine hk hv]
      exact complete_line (hv.isValue_append hk.isValue).isLine
  | block hk hh hg hbody ih =>
      rw [bare_neatBlock hk hh hg hbody]
      exact complete_bracedText hk hh (isInside_inside fun n hn => ih n hn (depth + 1))

/-! ### What is read -/

/-- Raw fragments say nothing, joined or not. -/
lemma statements_joinRaws (ns : List Node) : statements (joinRaws ns) = statements ns := by
  induction ns with
  | nil => rfl
  | cons n ns ih =>
      have hjoin : ∀ ms, statements (n.joinTo ms) = statements (n :: ms) := by
        intro ms
        cases n with
        | source t => rfl
        | line t => rfl
        | block header body => rfl
        | raw t =>
            rw [joinTo]
            by_cases ht : t = []
            · rw [ht, prependRaw_nil]
              rfl
            rcases prependRaw_cases ht ms with ⟨u, rest, rfl, hjoin⟩ | ⟨-, hjoin⟩
            · rw [hjoin]
              rfl
            · rw [hjoin]
      show statements (n.joinTo (joinRaws ns)) = _
      rw [hjoin, statements, statements, List.filterMap_cons, List.filterMap_cons, ← statements,
        ← statements, ih]

lemma statements_inside (depth : ℕ) (body : List Node) :
    statements (inside depth body) = body.map (said (depth + 1)) := by
  have hbody : statements (body.flatMap fun n =>
      [.raw (tabs (depth + 1)), .source (bare (depth + 1) n), lineEnd]) =
        body.map (said (depth + 1)) := by
    induction body with
    | nil => rfl
    | cons n body ih =>
        rw [List.map_cons, ← ih]
        rfl
  rw [inside, statements, List.filterMap_append, List.filterMap_cons, ← statements,
    show statements (body.flatMap _) = _ from hbody]
  simp [statement?, lineEnd]

section Said

variable {kw h v : Text} {body : List Node}

/-- **A statement with a body** says its keyword, its header, and what the statements in it say. -/
lemma read_bracedText (hk : IsKeyword kw) (hh : IsTail h) (hg : noGroups h = true) {depth : ℕ}
    (hcomplete : ∀ n ∈ body, (Node.source (bare (depth + 1) n)).Complete) :
    let x := (inside depth body).flatMap written
    let s := Statement.read (bracedText kw h x)
    s = Statement.ofParts kw (afterGap h ++ Byte.space :: Byte.openBrace :: x ++ [Byte.closeBrace]) ∧
      s.header = h ∧ s.bodyText = normalize x ∧ s.hasBody = true ∧
      s.children = body.map (said (depth + 1)) := by
  obtain ⟨hheader, htext, hinner, hhas⟩ := Statement.ofParts_braces kw hh hg (isInside_inside hcomplete)
  have hrest : ∀ r u : Text, afterGap h ++ Byte.space :: r ++ u = [] ∨
      (afterGap h ++ Byte.space :: r ++ u).head? = some Byte.space := by
    intro r u
    rw [afterGap]
    split
    · exact Or.inr rfl
    · exact Or.inr rfl
  have hread := Statement.read_append hk (hrest (Byte.openBrace :: (inside depth body).flatMap written)
    [Byte.closeBrace])
  refine ⟨hread, ?_⟩
  rw [bracedText, hread]
  refine ⟨hheader, htext, hhas, ?_⟩
  rw [Statement.children, hinner, parse_written (complete_of_mem_inside hcomplete),
    statements_joinRaws, statements_inside]

/-- **A line** says its keyword and its value. -/
lemma said_line (hk : IsKeyword kw) (hv : IsTail v) (depth : ℕ) :
    said depth (.line (kw ++ afterGap v)) = Statement.ofParts kw (afterGap v) := by
  rw [said, bare_neatLine hk hv, Statement.read_append hk (Statement.head?_afterGap v)]

/-- **A block** says its keyword, its header, and what the statements in it say. -/
lemma said_block (hk : IsKeyword kw) (hh : IsTail h) (hg : noGroups h = true)
    (hbody : ∀ n ∈ body, n.Neat) (depth : ℕ) :
    (said depth (.block (kw ++ afterGap h) body)).keyword = kw ∧
      (said depth (.block (kw ++ afterGap h) body)).header = h ∧
      (said depth (.block (kw ++ afterGap h) body)).children = body.map (said (depth + 1)) := by
  obtain ⟨hread, hheader, -, -, hchildren⟩ :=
    read_bracedText hk hh hg fun n hn => (hbody n hn).complete (depth + 1)
  rw [said, bare_neatBlock hk hh hg hbody]
  exact ⟨by rw [hread]; rfl, hheader, hchildren⟩

end Said

end Node

end NameServerConf
