import NameServerConf.Proofs.ClosedText
import NameServerConf.Proofs.Values

/-!
# Tidied texts

A **gap** is what may stand between two words: blanks and comments.  To tidy a text is to put a
single blank for each run of gaps.

**Ends.**  A gap at the end of a text stays or goes, as something stands on the other side of it or
not.  Inside braces both ends stay, since there are the braces.  Around a whole text none does, and
that is how a text is normalized: `normalize_eq_tidyText`.

**Items.**  A tidied text has the tidied items of the text, with each brace group tidied inside:
`items_tidyText`.  So tidying can be followed from a text to what its items say, to any depth.

**What tidying hides.**  Once tidied, a text is normalized to the same as before
(`normalize_tidyText`).
-/

namespace NameServerConf

namespace Item

/-- What may stand between two words: a blank or a comment. -/
def isGap : Item → Bool
  | .byte b => Byte.isBlank b
  | .comment _ => true
  | _ => false

section Gap

variable {i : Item}

lemma ne_byte_of_isGap (h : i.isGap = true) {b : UInt8} (hb : Byte.isBlank b = false) :
    i ≠ .byte b := by
  rintro rfl
  exact absurd h (by rw [isGap, hb]; exact Bool.false_ne_true)

lemma inner?_of_isGap (h : i.isGap = true) : i.inner? = none := by
  cases i with
  | group t closed => cases h
  | byte b => rfl
  | quoted t => rfl
  | comment t => rfl

lemma isGroup_of_isGap (h : i.isGap = true) : i.isGroup = false := by
  cases i with
  | group t closed => cases h
  | byte b => rfl
  | quoted t => rfl
  | comment t => rfl

lemma isFiller_of_isGap (h : i.isGap = true) : i.isFiller = true := by
  cases i with
  | byte b =>
      have hb : Byte.isBlank b = true := h
      simp [Item.isFiller, hb]
  | quoted t => cases h
  | comment t => rfl
  | group t closed => cases h

end Gap

end Item

namespace Text

/-- A blank, or nothing. -/
def blankIf (c : Bool) : List Item := if c then [.byte Byte.space] else []

/-- The items with a single blank for each run of gaps.  `gap` says that the run has begun before
    them; `before` and `behind` say that there is something at that end, so that a gap there counts. -/
def tidy (before gap behind : Bool) : List Item → List Item
  | [] => blankIf (before && gap && behind)
  | i :: is =>
    if i.isGap then tidy before true behind is
    else blankIf (before && gap) ++ i :: tidy true false behind is

/-- A text with a single blank for each run of gaps. -/
def tidyText (before behind : Bool) (s : Text) : Text :=
  ofItems (tidy before false behind (lexemes .file s))

/-- A group tidied inside; all else as it is. -/
def tidyGroup : Item → Item
  | .group inner closed => .group (tidyText true true inner) closed
  | i => i

section Tidy

variable {before gap behind : Bool} {i : Item} {is js : List Item}

lemma blankIf_false : blankIf false = [] := rfl

lemma blankIf_true : blankIf true = [.byte Byte.space] := rfl

lemma mem_blankIf {c : Bool} (h : i ∈ blankIf c) : i = .byte Byte.space := by
  cases c with
  | false => exact absurd h List.not_mem_nil
  | true => exact List.mem_singleton.mp h

lemma tidy_nil : tidy before gap behind [] = blankIf (before && gap && behind) := rfl

lemma tidy_gap (h : i.isGap = true) : tidy before gap behind (i :: is) =
    tidy before true behind is := by
  rw [tidy, if_pos h]

lemma tidy_cons (h : i.isGap = false) : tidy before gap behind (i :: is) =
    blankIf (before && gap) ++ i :: tidy true false behind is := by
  rw [tidy, h, if_neg Bool.false_ne_true]

/-- What is no gap stays where it is, and is something before what follows and behind what stands
    before it. -/
lemma tidy_append (h : i.isGap = false) : tidy before gap behind (is ++ i :: js) =
    tidy before gap true is ++ i :: tidy true false behind js := by
  induction is generalizing before gap with
  | nil => rw [List.nil_append, tidy_cons h, tidy_nil, Bool.and_true]
  | cons j is ih =>
      rw [List.cons_append]
      by_cases hj : j.isGap = true
      · rw [tidy_gap hj, tidy_gap hj, ih]
      · rw [Bool.not_eq_true] at hj
        rw [tidy_cons hj, tidy_cons hj, ih, List.append_assoc, List.cons_append]

/-- What is no gap is not changed. -/
lemma tidy_append_of_noGap (h : ∀ j ∈ is, j.isGap = false) :
    tidy true false behind (is ++ js) = is ++ tidy true false behind js := by
  induction is with
  | nil => rfl
  | cons j is ih =>
      rw [List.cons_append, tidy_cons (h j (List.mem_cons_self ..)),
        ih fun m hm => h m (List.mem_cons_of_mem _ hm)]
      rfl

/-- The items of a tidied list are items of the list and blanks. -/
lemma of_mem_tidy (h : i ∈ tidy before gap behind is) : i = .byte Byte.space ∨ i ∈ is := by
  induction is generalizing before gap with
  | nil => exact Or.inl (mem_blankIf h)
  | cons j is ih =>
      by_cases hj : j.isGap = true
      · rw [tidy_gap hj] at h
        exact (ih h).imp id (List.mem_cons_of_mem _)
      · rw [tidy_cons (by simpa using hj), List.mem_append, List.mem_cons] at h
        rcases h with h | rfl | h
        · exact Or.inl (mem_blankIf h)
        · exact Or.inr (List.mem_cons_self ..)
        · exact (ih h).imp id (List.mem_cons_of_mem _)

/-- Tidying changes nothing but gaps. -/
lemma filter_tidy (before gap behind : Bool) (is : List Item) :
    (tidy before gap behind is).filter (!·.isGap) = is.filter (!·.isGap) := by
  have hblank : ∀ c, (blankIf c).filter (!·.isGap) = [] := fun c => by cases c <;> rfl
  induction is generalizing before gap with
  | nil => rw [tidy_nil, hblank]; rfl
  | cons j js ih =>
      by_cases hj : j.isGap = true
      · rw [tidy_gap hj, ih, List.filter_cons_of_neg (by simp [hj])]
      · rw [Bool.not_eq_true] at hj
        rw [tidy_cons hj, List.filter_append, hblank, List.filter_cons_of_pos (by simp [hj]), ih,
          List.filter_cons_of_pos (by simp [hj])]
        rfl

/-- **Tidied twice.**  With nothing around it, a text is the same whether it was tidied before or
    not. -/
lemma tidy_tidy (b g : Bool) :
    tidy b g false (tidy true gap behind is) = tidy b (g || gap) false is := by
  have hspace : (Item.byte Byte.space).isGap = true := rfl
  induction is generalizing gap b g with
  | nil =>
      rw [tidy_nil, tidy_nil, Bool.and_false]
      cases true && gap && behind with
      | false => rw [blankIf_false, tidy_nil, Bool.and_false]; rfl
      | true => rw [blankIf_true, tidy_gap hspace, tidy_nil, Bool.and_false]
  | cons i is ih =>
      by_cases hi : i.isGap = true
      · rw [tidy_gap hi, tidy_gap hi, ih, Bool.or_true]
      · rw [Bool.not_eq_true] at hi
        cases gap with
        | false =>
            rw [tidy_cons hi, Bool.and_false, blankIf_false, List.nil_append, tidy_cons hi,
              tidy_cons hi, ih, Bool.or_false, Bool.or_false]
        | true =>
            rw [tidy_cons hi, Bool.and_true, blankIf_true, List.singleton_append, tidy_gap hspace,
              tidy_cons hi, tidy_cons hi, ih, Bool.or_true, Bool.or_false]

/-- With nothing before them, gaps at the beginning do not count. -/
lemma tidy_false_gap (g : Bool) : tidy false gap behind is = tidy false g behind is := by
  induction is generalizing gap g with
  | nil => rfl
  | cons i is ih =>
      by_cases hi : i.isGap = true
      · rw [tidy_gap hi, tidy_gap hi]
      · rw [Bool.not_eq_true] at hi
        rw [tidy_cons hi, tidy_cons hi, Bool.false_and, Bool.false_and]

lemma tidy_tidy_false :
    tidy false false false (tidy before gap behind is) = tidy false false false is := by
  cases before with
  | true => rw [tidy_tidy, tidy_false_gap false]
  | false =>
      induction is generalizing gap with
      | nil => rfl
      | cons i is ih =>
          by_cases hi : i.isGap = true
          · rw [tidy_gap hi, tidy_gap hi, ih, tidy_false_gap true]
          · rw [Bool.not_eq_true] at hi
            rw [tidy_cons hi, Bool.false_and, blankIf_false, List.nil_append, tidy_cons hi,
              tidy_cons hi, tidy_tidy, Bool.or_false]

end Tidy

/-! ## Lexemes -/

lemma text_ne_nil_of_lexemes {d : Dialect} {s : Text} {i : Item} {ls : List Item}
    (h : lexemes d s = i :: ls) : i.text ≠ [] := by
  obtain ⟨u, -, -, hagain⟩ := lexemes_eq_cons h
  intro hnil
  have halone := hagain [] (Or.inl rfl)
  rw [hnil, List.nil_append, lexemes] at halone
  cases halone

/-- A comment with something behind it is finished. -/
lemma isFinished_of_splitComment? {s c rest : Text} (h : splitComment? s = some (c, rest))
    (hrest : rest ≠ []) : (Item.comment c).isFinished = true := by
  unfold splitComment? at h
  split at h
  · cases h
  next b r =>
  split at h
  next hb =>
    subst hb
    obtain ⟨rfl, rfl⟩ := Prod.mk.inj (Option.some.inj h)
    rfl
  split at h
  next hb =>
    subst hb
    split at h
    · cases h
    next c' r' =>
    split at h
    next hc =>
      subst hc
      obtain ⟨rfl, rfl⟩ := Prod.mk.inj (Option.some.inj h)
      rfl
    split at h
    next hc =>
      subst hc
      obtain ⟨rfl, rfl⟩ := Prod.mk.inj (Option.some.inj h)
      have hclosed := (closesComment_splitBlockComment r').resolve_right hrest
      simpa [Item.isFinished] using Or.inr hclosed
    · cases h
  · cases h

/-- A lexeme with something behind it is finished. -/
lemma isFinished_of_lexemes_cons {d : Dialect} {s : Text} {i j : Item} {ls : List Item}
    (h : lexemes d s = i :: j :: ls) : i.isFinished = true := by
  have hne : ∀ u : Text, lexemes d u = j :: ls → u ≠ [] := by
    rintro u hu rfl
    rw [lexemes] at hu
    cases hu
  unfold lexemes at h
  split at h
  · cases h
  next b r =>
  split at h
  next hq =>
    obtain ⟨rfl, hls⟩ := List.cons.inj h
    exact (closesQuote_splitQuoted r).resolve_right (hne _ hls)
  next hq =>
  split at h
  next c rest hc =>
    obtain ⟨rfl, hls⟩ := List.cons.inj h
    cases d with
    | value => cases hc
    | file =>
        have hfile : splitComment? (b :: r) = some (c, rest) := hc
        exact isFinished_of_splitComment? hfile (hne _ hls)
  next =>
    obtain ⟨rfl, -⟩ := List.cons.inj h
    rfl

/-- The lexemes up to some other one are finished. -/
lemma isFinished_of_mem_lexemes {d : Dialect} {s : Text} {ls ms : List Item}
    (h : lexemes d s = ls ++ ms) (hms : ms ≠ []) {i : Item} (hi : i ∈ ls) :
    i.isFinished = true := by
  obtain ⟨as, bs, rfl⟩ := List.append_of_mem hi
  have hbehind : bs ++ ms ≠ [] := by simp [hms]
  obtain ⟨j, js, hjs⟩ := List.exists_cons_of_ne_nil hbehind
  rw [List.append_assoc, List.cons_append, hjs] at h
  have hlex := lexemes_ofItems_suffix h
  exact isFinished_of_lexemes_cons hlex

/-- A finished lexeme other than a comment takes in no blank. -/
lemma takes_space_eq_false {i : Item} (hfinished : i.isFinished = true) (hgap : i.isGap = false) :
    i.takes Byte.space = false := by
  cases i with
  | byte b => simp [Item.takes, Byte.space, Byte.slash, Byte.star]
  | quoted t =>
      have hclosed : closesQuote (t.drop 1) = true := hfinished
      rw [Item.takes, hclosed]
      rfl
  | comment t => cases hgap
  | group t closed =>
      obtain rfl : closed = true := hfinished
      rfl

lemma head?_tidy_gap (behind : Bool) (is : List Item) :
    tidy true true behind is = [] ∨
      (tidy true true behind is).head? = some (.byte Byte.space) := by
  induction is with
  | nil => cases behind with
    | false => exact Or.inl rfl
    | true => exact Or.inr rfl
  | cons i is ih =>
      by_cases hi : i.isGap = true
      · rwa [tidy_gap hi]
      · rw [tidy_cons (by simpa using hi)]
        exact Or.inr rfl

lemma lexemes_blankIf (d : Dialect) (c : Bool) (t : Text) :
    lexemes d (ofItems (blankIf c) ++ t) = blankIf c ++ lexemes d t := by
  cases c with
  | false => rfl
  | true => exact lexemes_cons_of_single rfl t

/-- A tidied text has the tidied lexemes of the text. -/
lemma lexemes_tidy {d : Dialect} {s : Text} {ls : List Item} (h : lexemes d s = ls)
    (before gap behind : Bool) :
    lexemes d (ofItems (tidy before gap behind ls)) = tidy before gap behind ls := by
  induction ls generalizing s before gap with
  | nil =>
      have hend := lexemes_blankIf d (before && gap && behind) []
      rwa [List.append_nil, lexemes, List.append_nil] at hend
  | cons i ls ih =>
      obtain ⟨u, -, hu, hagain⟩ := lexemes_eq_cons h
      by_cases hi : i.isGap = true
      · rw [tidy_gap hi]
        exact ih hu before true
      · rw [Bool.not_eq_true] at hi
        rw [tidy_cons hi, ofItems_append, lexemes_blankIf, ofItems_cons, hagain, ih hu]
        -- what stands behind the lexeme now begins as before, or with a blank for a gap
        cases ls with
        | nil => exact Or.inl rfl
        | cons j ls =>
            by_cases hj : j.isGap = true
            · rw [tidy_gap hj]
              rcases head?_tidy_gap behind ls with hnil | hhead
              · rw [hnil]
                exact Or.inl rfl
              · obtain ⟨rest, hrest⟩ := List.head?_eq_some_iff.mp hhead
                rw [hrest]
                refine Or.inr (Or.inr fun b hb => ?_)
                obtain rfl : Byte.space = b := Option.some.inj hb
                exact takes_space_eq_false (isFinished_of_lexemes_cons h) hi
            · obtain ⟨v, rfl, -, -⟩ := lexemes_eq_cons hu
              rw [tidy_cons (by simpa using hj), Bool.and_false, blankIf_false, List.nil_append,
                ofItems_cons]
              obtain ⟨b, r, hbr⟩ := List.exists_cons_of_ne_nil (text_ne_nil_of_lexemes hu)
              rw [hbr]
              exact Or.inr (Or.inl rfl)

lemma lexemes_tidyText (before behind : Bool) (s : Text) :
    lexemes .file (tidyText before behind s) = tidy before false behind (lexemes .file s) :=
  lexemes_tidy rfl before false behind

/-! ## Groups -/

/-- A step over an item that is no closing brace. -/
lemma splitGroup?_cons {depth : ℕ} {i : Item} (h : i ≠ .byte Byte.closeBrace) (is : List Item) :
    splitGroup? depth (i :: is) =
      (splitGroup? (if i = .byte Byte.openBrace then depth + 1 else depth) is).map
        fun (inside, rest) => (i :: inside, rest) := by
  simp only [splitGroup?, if_neg h]

lemma exists_of_splitGroup?_cons {depth : ℕ} {i : Item} (hi : i ≠ .byte Byte.closeBrace)
    {is inside rest : List Item} (h : splitGroup? depth (i :: is) = some (inside, rest)) :
    ∃ inside', inside = i :: inside' ∧
      splitGroup? (if i = .byte Byte.openBrace then depth + 1 else depth) is =
        some (inside', rest) := by
  rw [splitGroup?_cons hi] at h
  obtain ⟨⟨inside', rest'⟩, h', he⟩ := Option.map_eq_some_iff.mp h
  obtain ⟨rfl, rfl⟩ := Prod.mk.inj he
  exact ⟨inside', rfl, h'⟩

/-- What is split off behind an item that is no closing brace. -/
lemma splitGroup?_of_cons {depth : ℕ} {i : Item} (hi : i ≠ .byte Byte.closeBrace)
    {is inside rest : List Item} (h : splitGroup? depth (i :: is) = some (i :: inside, rest)) :
    splitGroup? (if i = .byte Byte.openBrace then depth + 1 else depth) is = some (inside, rest) := by
  obtain ⟨inside', he, h'⟩ := exists_of_splitGroup?_cons hi h
  rwa [(List.cons.inj he).2]

lemma splitGroup?_blankIf (depth : ℕ) (c : Bool) (is : List Item) :
    splitGroup? depth (blankIf c ++ is) =
      (splitGroup? depth is).map fun p => (blankIf c ++ p.1, p.2) := by
  cases c with
  | false => simp [blankIf]
  | true => exact splitGroup?_cons (by decide) is

/-- What a brace closes is the same in a tidied list. -/
lemma splitGroup?_tidy {depth : ℕ} {is inside rest : List Item}
    (h : splitGroup? depth is = some (inside, rest)) (gap behind : Bool) :
    splitGroup? depth (tidy true gap behind is) =
      some (tidy true gap true inside, tidy true false behind rest) := by
  -- `behind` is true inside: the closing brace stands there
  induction is generalizing depth gap inside with
  | nil => cases h
  | cons i is ih =>
      by_cases hi : i.isGap = true
      · obtain ⟨inside, rfl, h'⟩ := exists_of_splitGroup?_cons (Item.ne_byte_of_isGap hi rfl) h
        rw [if_neg (Item.ne_byte_of_isGap hi rfl)] at h'
        rw [tidy_gap hi, tidy_gap hi, ih h']
      · rw [Bool.not_eq_true] at hi
        rw [tidy_cons hi, splitGroup?_blankIf]
        by_cases hbrace : i = .byte Byte.closeBrace
        · subst hbrace
          cases depth with
          | zero =>
              simp only [splitGroup?, if_pos, Option.some.injEq, Prod.mk.injEq] at h
              obtain ⟨rfl, rfl⟩ := h
              simp [splitGroup?, tidy_nil]
          | succ depth =>
              simp only [splitGroup?, if_pos] at h ⊢
              obtain ⟨⟨inside', rest'⟩, h', he⟩ := Option.map_eq_some_iff.mp h
              obtain ⟨rfl, rfl⟩ := Prod.mk.inj he
              rw [ih h', tidy_cons hi]
              rfl
        · obtain ⟨inside, rfl, h'⟩ := exists_of_splitGroup?_cons hbrace h
          rw [splitGroup?_cons hbrace, ih h', tidy_cons hi]
          rfl

lemma nest_blankIf (c : Bool) (ls : List Item) : nest (blankIf c ++ ls) = blankIf c ++ nest ls := by
  cases c with
  | false => rfl
  | true => exact nest_cons_of_ne (by decide) ls

lemma map_tidyGroup_blankIf (c : Bool) : (blankIf c).map tidyGroup = blankIf c := by
  cases c <;> rfl

/-- The items of tidied lexemes are the tidied items, each group tidied inside. -/
lemma nest_tidy {s : Text} {ls : List Item} (h : lexemes .file s = ls)
    (hclosed : groupsClosed (nest ls) = true) (before gap behind : Bool) :
    nest (tidy before gap behind ls) = (tidy before gap behind (nest ls)).map tidyGroup := by
  fun_induction nest ls generalizing s before gap with
  | case1 =>
      have hend := nest_blankIf (before && gap && behind) []
      rw [List.append_nil, nest, List.append_nil] at hend
      rw [tidy_nil, hend, map_tidyGroup_blankIf]
  | case2 rest inside after hg ih =>
      have hsplit := append_of_splitGroup? hg
      have hlex : lexemes .file s =
          [.byte Byte.openBrace] ++ (inside ++ ([.byte Byte.closeBrace] ++ after)) := by
        rw [h, ← hsplit]
        rfl
      have hinside : lexemes .file (ofItems inside) = inside :=
        lexemes_ofItems_prefix (lexemes_ofItems_suffix hlex)
      have hafter : lexemes .file (ofItems after) = after :=
        lexemes_ofItems_suffix (lexemes_ofItems_suffix (lexemes_ofItems_suffix hlex))
      have hbrace : (Item.byte Byte.openBrace).isGap = false := rfl
      have hgroup : (Item.group (ofItems inside) true).isGap = false := rfl
      -- tidying the lexemes tidies inside the braces already, as `tidyGroup` does to the item
      have htidy := splitGroup?_tidy hg false behind
      rw [tidy_cons hbrace, nest_blankIf, ← append_of_splitGroup? htidy, ← List.cons_append,
        nest_group htidy, tidy_cons hgroup, List.map_append, map_tidyGroup_blankIf, List.map_cons,
        tidyGroup, tidyText, hinside, ih hafter (groupsClosed_cons.mp hclosed).2]
  | case3 rest hg =>
      exact absurd (groupsClosed_cons.mp hclosed).1 (by simp [Item.inner?, Item.isFinished])
  | case4 i rest hi ih =>
      obtain ⟨u, -, hu, -⟩ := lexemes_eq_cons h
      have hclosed := (groupsClosed_cons.mp hclosed).2
      by_cases hgap : i.isGap = true
      · rw [tidy_gap hgap, tidy_gap hgap, ih hu hclosed]
      · rw [Bool.not_eq_true] at hgap
        have hlexeme : tidyGroup i = i := by
          have hinner := inner?_of_mem_lexemes (d := .file) (s := s) (i := i) (by rw [h]; simp)
          cases i with
          | group t closed => cases hinner
          | byte b => rfl
          | quoted t => rfl
          | comment t => rfl
        rw [tidy_cons hgap, tidy_cons hgap, nest_blankIf, nest_cons_of_ne hi, ih hu hclosed,
          List.map_append, map_tidyGroup_blankIf, List.map_cons, hlexeme]

/-- **The items of a tidied text** are its tidied items, each group tidied inside. -/
theorem items_tidyText {s : Text} (h : groupsClosed (items .file s) = true) (before behind : Bool) :
    items .file (tidyText before behind s) =
      (tidy before false behind (items .file s)).map tidyGroup := by
  rw [items, lexemes_tidyText, nest_tidy rfl h]
  rfl

/-- The text of some items of a text, tidied. -/
lemma ofItems_tidy {is : List Item} (h : items .file (ofItems is) = is)
    (hclosed : groupsClosed is = true) (before behind : Bool) :
    ofItems ((tidy before false behind is).map tidyGroup) = tidyText before behind (ofItems is) := by
  rw [← h] at hclosed
  have hitems := items_tidyText hclosed before behind
  rw [h] at hitems
  rw [← hitems, ofItems_items]

/-! ## Normalized texts -/

/-- A blank for a comment. -/
def blankOut : Item → Item
  | .comment _ => .byte Byte.space
  | i => i

lemma stripComments_eq (s : Text) : stripComments s = ofItems ((lexemes .file s).map blankOut) := by
  rw [stripComments, ofItems, List.flatMap_map]
  refine List.flatMap_congr fun i _ => ?_
  cases i <;> rfl

/-- Without its comments a text is read as before, each comment a blank. -/
lemma lexemes_stripComments (s : Text) :
    lexemes .value (stripComments s) = (lexemes .file s).map blankOut := by
  rw [stripComments_eq]
  fun_induction lexemes .file s with
  | case1 => exact lexemes.eq_1 .value
  | case2 r ih =>
      have hstring : blankOut (.quoted (Byte.quote :: (splitQuoted r).1)) =
          .quoted (Byte.quote :: (splitQuoted r).1) := rfl
      rw [List.map_cons, hstring, ofItems_cons, Item.text, List.cons_append, lexemes, if_pos rfl]
      have hagain : ∀ v, v = [] ∨ closesQuote (splitQuoted r).1 = true →
          splitQuoted ((splitQuoted r).1 ++ v) = ((splitQuoted r).1, v) := by
        rintro v (hv | hv)
        · exact splitQuoted_again (Or.inl hv)
        · exact splitQuoted_append_of_closes hv v
      rw [hagain, ih]
      rcases closesQuote_splitQuoted r with hclosed | hrest
      · exact Or.inr hclosed
      · rw [hrest, lexemes]
        exact Or.inl rfl
  | case3 b r hq c rest hc ih =>
      rw [List.map_cons, blankOut, ofItems_cons, Item.text, List.singleton_append,
        lexemes_cons_of_single rfl, ih]
  | case4 b r hq hc ih =>
      have hbyte : blankOut (.byte b) = .byte b := rfl
      rw [List.map_cons, hbyte, ofItems_cons, Item.text, List.singleton_append,
        lexemes_cons_of_none hq rfl, ih]

lemma squeeze_blankOut (started gap : Bool) (is : List Item) :
    squeeze started gap (is.map blankOut) = ofItems (tidy started gap false is) := by
  induction is generalizing started gap with
  | nil => rw [tidy_nil, Bool.and_false]; rfl
  | cons i is ih =>
      have hblank : (blankOut i).isByte Byte.isBlank = i.isGap := by cases i <;> rfl
      rw [List.map_cons, squeeze, hblank]
      by_cases hi : i.isGap = true
      · rw [if_pos hi, ih, tidy_gap hi]
      · have htext : (blankOut i).text = i.text := by
          cases i with
          | comment t => exact absurd rfl hi
          | byte b => rfl
          | quoted t => rfl
          | group t closed => rfl
        rw [Bool.not_eq_true] at hi
        rw [hi, if_neg Bool.false_ne_true, ih, tidy_cons hi, ofItems_append, ofItems_cons, htext,
          List.append_assoc]
        congr 1
        cases started && gap <;> rfl

/-- A normalized text is a tidied one with nothing around it. -/
theorem normalize_eq_tidyText (s : Text) : normalize s = tidyText false false s := by
  rw [normalize, collapse, lexemes_stripComments, squeeze_blankOut, tidyText]

/-- **What tidying hides.**  A tidied text is normalized to the same as before. -/
theorem normalize_tidyText (before behind : Bool) (s : Text) :
    normalize (tidyText before behind s) = normalize s := by
  rw [normalize_eq_tidyText, normalize_eq_tidyText, tidyText, lexemes_tidyText, tidy_tidy_false,
    tidyText]

lemma normalize_normalize (s : Text) : normalize (normalize s) = normalize s := by
  conv_lhs => rw [normalize_eq_tidyText s, normalize_tidyText]

end Text

end NameServerConf
