import NameServerConf.Clause
import NameServerConf.Text.Group
import NameServerConf.Text.Spacing
import NameServerConf.Proofs.Lexemes

/-!
# Values

**Canonical spacing.**  `isSpaced` says of a list of lexemes that collapsing its blanks changes
nothing, in a form that can be checked lexeme by lexeme and so is kept when lists are put together.

**Values.**  A value is a text as a statement may hold it: canonically spaced, without comments, with
nothing unfinished and no semicolon or closing brace outside groups.  What follows a value does not
change how it is read (`IsValue.items_append`), and values with a blank between them are one value
(`IsValue.append`).

**Parts and lines.**  Less is asked of a part, which only has to come back when a list or a phrase is
taken apart again: the spacing inside it does not matter, nor does a comment in a dialect that has none.
A line is what a statement can be built from, and may have blanks at its end.

**What values are made of.**  Bare words and quoted strings are values.
-/

namespace NameServerConf

namespace Text

/-! ## Balanced lexemes -/

/-- No group is left open, and no closing brace is left over. -/
def isBalanced (ls : List Item) : Bool :=
  (nest ls).all fun i => (i.inner?.isNone || i.isFinished) && i ≠ .byte Byte.closeBrace

lemma groupsClosed_of_isBalanced {ls : List Item} (h : isBalanced ls = true) :
    groupsClosed (nest ls) = true := by
  rw [isBalanced, List.all_eq_true] at h
  rw [groupsClosed, List.all_eq_true]
  intro i hi
  have hi := h i hi
  rw [Bool.and_eq_true] at hi
  exact hi.1

lemma isBalanced_append {ls ms : List Item} (hl : isBalanced ls = true)
    (hm : isBalanced ms = true) : isBalanced (ls ++ ms) = true := by
  rw [isBalanced, nest_append (groupsClosed_of_isBalanced hl), List.all_append]
  exact Bool.and_eq_true_iff.mpr ⟨hl, hm⟩

/-- What a split takes off the front is passed over by a split that looks for a later brace. -/
lemma splitGroup?_shift {j : ℕ} {is inside rest : List Item}
    (h : splitGroup? j is = some (inside, rest)) (k : ℕ) (ms : List Item) :
    splitGroup? (j + k + 1) (inside ++ .byte Byte.closeBrace :: ms) =
      (splitGroup? k ms).map fun p => (inside ++ .byte Byte.closeBrace :: p.1, p.2) := by
  induction is generalizing j inside with
  | nil => cases h
  | cons i is ih =>
      simp only [splitGroup?] at h
      split at h
      next hi =>
        subst hi
        cases j with
        | zero =>
            obtain ⟨rfl, rfl⟩ := Prod.mk.inj (Option.some.inj h)
            simp [splitGroup?]
        | succ j =>
            obtain ⟨⟨inside', rest'⟩, h', he⟩ := Option.map_eq_some_iff.mp h
            obtain ⟨rfl, rfl⟩ := Prod.mk.inj he
            have hj : j + 1 + k + 1 = j + k + 1 + 1 := by omega
            rw [hj]
            simp only [List.cons_append, splitGroup?, if_pos, ih h', Option.map_map]
            rfl
      next hi =>
        obtain ⟨⟨inside', rest'⟩, h', he⟩ := Option.map_eq_some_iff.mp h
        obtain ⟨rfl, rfl⟩ := Prod.mk.inj he
        have hshift := ih h'
        simp only [List.cons_append, splitGroup?, if_neg hi]
        split
        next ho =>
          rw [if_pos ho] at hshift
          rw [show j + k + 1 + 1 = j + 1 + k + 1 by omega, hshift, Option.map_map]
          rfl
        next ho =>
          rw [if_neg ho] at hshift
          rw [hshift, Option.map_map]
          rfl

/-- Balanced lexemes are passed over by a split. -/
lemma splitGroup?_append_of_balanced {ls : List Item} (h : isBalanced ls = true) (k : ℕ)
    (ms : List Item) :
    splitGroup? k (ls ++ ms) = (splitGroup? k ms).map fun p => (ls ++ p.1, p.2) := by
  fun_induction nest ls generalizing k with
  | case1 => simp
  | case2 rest inside after hg ih =>
      have hafter : isBalanced after = true := by
        have hrest := append_of_splitGroup? hg
        rw [isBalanced, ← hrest, ← List.cons_append, nest_group hg, List.all_cons,
          Bool.and_eq_true] at h
        exact h.2
      have hshift := splitGroup?_shift hg k (after ++ ms)
      rw [Nat.zero_add] at hshift
      rw [List.cons_append, ← append_of_splitGroup? hg, List.append_assoc, List.cons_append]
      simp only [splitGroup?]
      rw [if_neg (by decide), if_pos trivial, hshift, ih hafter, Option.map_map, Option.map_map]
      congr 1
      funext p
      simp
  | case3 rest hg =>
      rw [isBalanced, nest, if_pos rfl] at h
      split at h
      next h' => rw [hg] at h'; cases h'
      next => cases h
  | case4 i rest hi ih =>
      rw [isBalanced, nest_cons_of_ne hi, List.all_cons, Bool.and_eq_true, Bool.and_eq_true,
        decide_eq_true_eq] at h
      simp only [List.cons_append, splitGroup?]
      rw [if_neg h.1.2, if_neg hi, ih h.2, Option.map_map]
      rfl

/-- Balanced lexemes in braces are a group. -/
lemma nest_braces {ls : List Item} (h : isBalanced ls = true) (ms : List Item) :
    nest (.byte Byte.openBrace :: ls ++ .byte Byte.closeBrace :: ms) =
      .group (ofItems ls) true :: nest ms := by
  have hsplit := splitGroup?_append_of_balanced h 0 (.byte Byte.closeBrace :: ms)
  simp only [splitGroup?, if_pos, Option.map_some, List.append_nil] at hsplit
  exact nest_group hsplit ms

/-! ## Canonical spacing -/

/-- Each blank is a single space between two other lexemes.  `gap` says that a blank, or nothing,
    stands before the first one. -/
def isSpaced (gap : Bool) : List Item → Bool
  | [] => !gap
  | i :: is =>
    if i.isByte Byte.isBlank then i = .byte Byte.space && !gap && isSpaced true is
    else isSpaced false is

lemma isSpaced_space_cons (ls : List Item) :
    isSpaced false (.byte Byte.space :: ls) = isSpaced true ls := rfl

lemma isSpaced_cons {i : Item} (h : i.isByte Byte.isBlank = false) (gap : Bool) (ls : List Item) :
    isSpaced gap (i :: ls) = isSpaced false ls := by
  rw [isSpaced, h, if_neg Bool.false_ne_true]

lemma isSpaced_append {gap : Bool} {ls ms : List Item} (hl : isSpaced gap ls = true)
    (hm : isSpaced false ms = true) : isSpaced gap (ls ++ ms) = true := by
  induction ls generalizing gap with
  | nil =>
      cases gap with
      | true => cases hl
      | false => exact hm
  | cons i ls ih =>
      rw [isSpaced] at hl
      rw [List.cons_append, isSpaced]
      split at hl
      next hi =>
        rw [if_pos hi]
        rw [Bool.and_eq_true] at hl ⊢
        exact ⟨hl.1, ih hl.2⟩
      next hi =>
        rw [if_neg hi]
        exact ih hl

lemma isByte_of_isSpaced_concat {gap : Bool} {ls : List Item} {i : Item}
    (h : isSpaced gap (ls ++ [i]) = true) : i.isByte Byte.isBlank = false := by
  induction ls generalizing gap with
  | nil =>
      rw [List.nil_append, isSpaced] at h
      split at h
      · simp [isSpaced] at h
      next hi => exact (Bool.not_eq_true _).mp hi
  | cons j ls ih =>
      rw [List.cons_append, isSpaced] at h
      split at h
      · exact ih (Bool.and_eq_true_iff.mp h).2
      · exact ih h

/-- Nothing is lost when blanks are collapsed that are single spaces already. -/
lemma squeeze_append {gap : Bool} {ls : List Item} (h : isSpaced gap ls = true) (ms : List Item) :
    (gap = false → squeeze true false (ls ++ ms) = ofItems ls ++ squeeze true false ms) ∧
    (gap = true → ∀ started open', squeeze started open' (ls ++ ms) =
      (if started && open' then [Byte.space] else []) ++ ofItems ls ++ squeeze true false ms) := by
  induction ls generalizing gap with
  | nil =>
      rw [isSpaced, Bool.not_eq_true'] at h
      exact ⟨fun _ => rfl, fun hgap => absurd (h.symm.trans hgap) (by decide)⟩
  | cons i ls ih =>
      rw [isSpaced] at h
      split at h
      next hi =>
        rw [Bool.and_eq_true, Bool.and_eq_true, decide_eq_true_eq, Bool.not_eq_true'] at h
        obtain ⟨⟨rfl, rfl⟩, h⟩ := h
        refine ⟨fun _ => ?_, fun hgap => absurd hgap (by decide)⟩
        rw [List.cons_append, squeeze, if_pos hi, (ih h).2 rfl, ofItems_cons]
        rfl
      next hi =>
        have hrest := (ih h).1 rfl
        constructor
        · intro _
          rw [List.cons_append, squeeze, if_neg hi, hrest]
          simp
        · intro _ started open'
          rw [List.cons_append, squeeze, if_neg hi, hrest]
          simp

lemma length_squeeze_le (started gap : Bool) (ls : List Item) :
    (squeeze started gap ls).length ≤
      (ofItems ls).length + (started && gap).toNat := by
  induction ls generalizing started gap with
  | nil => simp [squeeze]
  | cons i ls ih =>
      rw [squeeze, ofItems_cons, List.length_append]
      split
      next hi =>
        have hlen : i.text.length = 1 := by cases i <;> first | rfl | cases hi
        have hrest := ih started true
        have hbound := Bool.toNat_le (started && true)
        omega
      next hi =>
        have hrest := ih true false
        rw [Bool.and_false, Bool.toNat_false] at hrest
        cases hg : started && gap with
        | true =>
            simp only [if_true, List.length_append, List.length_singleton, Bool.toNat_true]
            omega
        | false =>
            simp only [Bool.false_eq_true, if_false, List.nil_append, List.length_append,
              Bool.toNat_false]
            omega

/-- The first byte that comes after a gap is the space that stands for it. -/
lemma head?_squeeze (ls : List Item) :
    squeeze true true ls = [] ∨ (squeeze true true ls).head? = some Byte.space := by
  induction ls with
  | nil => exact Or.inl rfl
  | cons i ls ih =>
      rw [squeeze]
      split
      · exact ih
      · exact Or.inr rfl

/-- If collapsing the blanks changes nothing, they are single spaces. -/
lemma isSpaced_of_squeeze {ls : List Item} :
    (squeeze true false ls = ofItems ls → isSpaced false ls = true) ∧
    (squeeze true true ls = Byte.space :: ofItems ls → isSpaced true ls = true) ∧
    ∀ gap, ls ≠ [] → squeeze false gap ls = ofItems ls → isSpaced true ls = true := by
  induction ls with
  | nil => exact ⟨fun _ => rfl, fun h => (by cases h), fun _ hne => absurd rfl hne⟩
  | cons i ls ih =>
      obtain ⟨ih₁, ih₂, -⟩ := ih
      rw [isSpaced, isSpaced, squeeze, squeeze, ofItems_cons]
      by_cases hi : i.isByte Byte.isBlank = true
      · obtain ⟨b, rfl⟩ : ∃ b, i = .byte b := by cases i <;> first | exact ⟨_, rfl⟩ | cases hi
        rw [if_pos hi, if_pos hi, if_pos hi, if_pos hi, Item.text, List.singleton_append]
        have hlong : ∀ started gap, (squeeze started gap ls).length ≤ (ofItems ls).length + 1 :=
          fun started gap => (length_squeeze_le started gap ls).trans
            (Nat.add_le_add_left (Bool.toNat_le _) _)
        refine ⟨fun h => ?_, fun h => ?_, fun gap _ h => ?_⟩
        · rcases head?_squeeze ls with hnil | hhead
          · rw [hnil] at h
            cases h
          · rw [h, List.head?_cons, Option.some.injEq] at hhead
            subst hhead
            simpa using ih₂ h
        · have hlen := congrArg List.length h
          have := hlong true true
          simp only [List.length_cons] at hlen
          omega
        · rw [squeeze, if_pos hi] at h
          have hlen := congrArg List.length h
          have hle := length_squeeze_le false true ls
          simp only [List.length_cons, Bool.false_and, Bool.toNat_false] at hlen hle
          omega
      · rw [if_neg hi, if_neg hi, if_neg hi, if_neg hi]
        refine ⟨fun h => ?_, fun h => ?_, fun gap _ h => ?_⟩
        · exact ih₁ (by simpa using h)
        · exact ih₁ (by simpa using h)
        · rw [squeeze, if_neg hi] at h
          exact ih₁ (by simpa using h)

/-! ## Values -/

/-- An item of a value: it is finished, and ends neither the statement nor the block. -/
def isInner (i : Item) : Bool :=
  i.isFinished && i ≠ .byte Byte.semicolon && i ≠ .byte Byte.closeBrace

/-- A text as a statement may hold it. -/
structure IsValue (s : Text) : Prop where
  ne_nil : s ≠ []
  noComments : lexemes .file s = lexemes .value s
  inner : (items .value s).all isInner = true
  collapsed : collapse s = s

/-- The text does not make a comment of a slash before it. -/
def StartsSoft (t : Text) : Prop := ∀ b ∈ t.head?, b ≠ Byte.slash ∧ b ≠ Byte.star

lemma startsSoft_cons {b : UInt8} (h : b ≠ Byte.slash ∧ b ≠ Byte.star) (t : Text) :
    StartsSoft (b :: t) := fun c hc => by
  obtain rfl : b = c := Option.some.inj hc
  exact h

lemma startsSoft_nil : StartsSoft [] := fun _ h => by cases h

lemma startsSoft_space (t : Text) : StartsSoft (Byte.space :: t) := startsSoft_cons (by decide) t

lemma startsSoft_semicolon (t : Text) : StartsSoft (Byte.semicolon :: t) :=
  startsSoft_cons (by decide) t

lemma items_nil (d : Dialect) : items d [] = [] := by rw [items, lexemes, nest]

/-- The lexemes of a value text are strings and bytes. -/
lemma of_mem_lexemes_value {s : Text} {i : Item} (h : i ∈ lexemes .value s) :
    (∃ b, i = .byte b) ∨ ∃ t, i = .quoted (Byte.quote :: t) := by
  fun_induction lexemes .value s with
  | case1 => cases h
  | case2 r ih =>
      rcases List.mem_cons.mp h with rfl | h
      · exact Or.inr ⟨_, rfl⟩
      · exact ih h
  | case3 b r _ c rest hc ih => cases hc
  | case4 b r _ _ ih =>
      rcases List.mem_cons.mp h with rfl | h
      · exact Or.inl ⟨b, rfl⟩
      · exact ih h

lemma getLast?_of_closesQuote {t : Text} (h : closesQuote t = true) :
    t.getLast? = some Byte.quote := by
  fun_induction closesQuote t with
  | case1 => cases h
  | case2 b => rw [decide_eq_true_eq.mp h]; rfl
  | case3 c r => cases h
  | case4 c r _ ih =>
      rw [List.getLast?_cons, List.getLast?_cons, ih h]
      rfl
  | case5 b c r _ _ ih =>
      rw [List.getLast?_cons, ih h]
      rfl

section Inner

variable {s : Text}

lemma isFinished_of_inner (h : (items .value s).all isInner = true) {i : Item}
    (hi : i ∈ items .value s) : i.isFinished = true := by
  have hi := List.all_eq_true.mp h i hi
  rw [isInner, Bool.and_eq_true, Bool.and_eq_true] at hi
  exact hi.1.1

lemma ne_semicolon_of_inner (h : (items .value s).all isInner = true) {i : Item}
    (hi : i ∈ items .value s) : i ≠ .byte Byte.semicolon := by
  have hi := List.all_eq_true.mp h i hi
  rw [isInner, Bool.and_eq_true, Bool.and_eq_true, decide_eq_true_eq] at hi
  exact hi.1.2

lemma ne_closeBrace_of_inner (h : (items .value s).all isInner = true) {i : Item}
    (hi : i ∈ items .value s) : i ≠ .byte Byte.closeBrace := by
  have hi := List.all_eq_true.mp h i hi
  rw [isInner, Bool.and_eq_true, decide_eq_true_eq] at hi
  exact hi.2

lemma isBalanced_of_inner (h : (items .value s).all isInner = true) :
    isBalanced (lexemes .value s) = true := by
  rw [isBalanced, List.all_eq_true]
  intro i hi
  rw [isFinished_of_inner h hi, Bool.or_true, Bool.true_and, decide_eq_true_eq]
  exact ne_closeBrace_of_inner h hi

/-- The last lexeme of a value takes in nothing but what would make a comment of a slash. -/
lemma takes_eq_false_of_inner (h : (items .value s).all isInner = true) {i : Item}
    (hi : i ∈ (lexemes .value s).getLast?) {b : UInt8} (hb : b ≠ Byte.slash ∧ b ≠ Byte.star) :
    i.takes b = false := by
  have hlast := getLast?_lexemes_of_nest (groupsClosed_of_isBalanced (isBalanced_of_inner h))
    fun i hi => inner?_of_mem_lexemes hi
  rw [hlast] at hi
  obtain ⟨j, hj, rfl⟩ := Option.map_eq_some_iff.mp hi
  have hfinished := isFinished_of_inner h (List.mem_of_getLast? hj)
  have hlex := of_mem_lexemes_value (List.mem_of_getLast? (hlast.trans (Option.map_eq_some_iff.mpr
    ⟨j, hj, rfl⟩)))
  cases j with
  | byte c => simp [lastLexeme, Item.takes, hb]
  | quoted u =>
      show (!closesQuote (u.drop 1)) = false
      rw [Bool.not_eq_false']
      exact hfinished
  | comment u => rcases hlex with ⟨c, hc⟩ | ⟨c, hc⟩ <;> cases hc
  | group u closed => simp [lastLexeme, Item.takes, hb]

/-- **What follows a text** does not change its lexemes, if it has no comments and nothing in it is
    unfinished. -/
lemma lexemes_append_of_inner {d : Dialect} (hlex : lexemes d s = lexemes .value s)
    (h : (items .value s).all isInner = true) {t : Text} (ht : StartsSoft t) :
    lexemes d (s ++ t) = lexemes .value s ++ lexemes d t := by
  rw [← hlex]
  exact Text.lexemes_append fun i hi b hb => takes_eq_false_of_inner h (hlex ▸ hi) (ht b hb)

/-- Nor does it change its items. -/
lemma items_append_of_inner {d : Dialect} (hlex : lexemes d s = lexemes .value s)
    (h : (items .value s).all isInner = true) {t : Text} (ht : StartsSoft t) :
    items d (s ++ t) = items .value s ++ items d t := by
  rw [items, lexemes_append_of_inner hlex h ht,
    nest_append (groupsClosed_of_isBalanced (isBalanced_of_inner h))]
  rfl

end Inner

/-! ### Parts -/

/-- A text that a list or a phrase can be made of: in the dialect `d` it has no comments, nothing in
    it is unfinished or ends the part, and no blanks are around it. -/
structure IsPart (d : Dialect) (s : Text) : Prop where
  ne_nil : s ≠ []
  noComments : lexemes d s = lexemes .value s
  inner : (items .value s).all isInner = true
  head?_isBlank : ∀ b ∈ s.head?, Byte.isBlank b = false
  getLast?_isBlank : ∀ b ∈ s.getLast?, Byte.isBlank b = false

namespace IsPart

variable {d : Dialect} {s t : Text}

/-- **What follows a part** does not change its lexemes. -/
lemma lexemes_append (h : IsPart d s) (ht : StartsSoft t) :
    Text.lexemes d (s ++ t) = Text.lexemes .value s ++ Text.lexemes d t :=
  lexemes_append_of_inner h.noComments h.inner ht

/-- **What follows a part** does not change its items. -/
lemma items_append (h : IsPart d s) (ht : StartsSoft t) :
    items d (s ++ t) = items .value s ++ items d t :=
  items_append_of_inner h.noComments h.inner ht

/-- In the dialect of values there are no comments. -/
lemma value (h : IsPart d s) : IsPart .value s :=
  ⟨h.ne_nil, rfl, h.inner, h.head?_isBlank, h.getLast?_isBlank⟩

/-- Two parts with a blank between them are a part. -/
lemma append (hs : IsPart d s) (ht : IsPart d t) : IsPart d (s ++ Byte.space :: t) := by
  have hitems := hs.value.items_append (startsSoft_space t)
  rw [items_cons_of_single rfl] at hitems
  refine ⟨List.append_ne_nil_of_left_ne_nil hs.ne_nil _, ?_, ?_, ?_, ?_⟩
  · rw [hs.lexemes_append (startsSoft_space t), hs.value.lexemes_append (startsSoft_space t),
      lexemes_cons_of_single rfl, lexemes_cons_of_single rfl, ht.noComments]
  · rw [hitems, List.all_append, List.all_cons, hs.inner, ht.inner]
    rfl
  · rw [List.head?_append_of_ne_nil _ hs.ne_nil]
    exact hs.head?_isBlank
  · rw [List.getLast?_append_of_ne_nil _ (List.cons_ne_nil _ _), List.getLast?_cons_of_ne_nil ht.ne_nil]
    exact ht.getLast?_isBlank

end IsPart

/-! ### Values are parts -/

namespace IsValue

variable {s t : Text}

lemma lexemes_ne_nil (h : IsValue s) : Text.lexemes .value s ≠ [] := by
  intro hnil
  have hs := ofItems_lexemes .value s
  rw [hnil] at hs
  exact h.ne_nil hs.symm

lemma isSpaced (h : IsValue s) : isSpaced true (Text.lexemes .value s) = true := by
  refine isSpaced_of_squeeze.2.2 false h.lexemes_ne_nil ?_
  rw [ofItems_lexemes]
  exact h.collapsed

lemma head?_isBlank (h : IsValue s) : ∀ b ∈ s.head?, Byte.isBlank b = false := by
  have hspaced := h.isSpaced
  have htext := ofItems_lexemes .value s
  cases hlex : Text.lexemes .value s with
  | nil => exact absurd hlex h.lexemes_ne_nil
  | cons i is =>
      rw [hlex] at hspaced htext
      intro b hb
      rw [← htext] at hb
      rcases of_mem_lexemes_value (s := s) (hlex ▸ List.mem_cons_self ..) with ⟨c, rfl⟩ | ⟨u, rfl⟩
      · obtain rfl : c = b := Option.some.inj hb
        rw [Text.isSpaced] at hspaced
        split at hspaced
        · simp at hspaced
        next hi => exact (Bool.not_eq_true _).mp hi
      · obtain rfl : Byte.quote = b := Option.some.inj hb
        rfl

lemma getLast?_isBlank (h : IsValue s) : ∀ b ∈ s.getLast?, Byte.isBlank b = false := by
  have htext := ofItems_lexemes .value s
  have hspaced := h.isSpaced
  obtain ⟨front, i, hlex⟩ : ∃ front i, Text.lexemes .value s = front ++ [i] :=
    ⟨_, _, (List.dropLast_append_getLast h.lexemes_ne_nil).symm⟩
  have hi : i ∈ (Text.lexemes .value s).getLast? := by rw [hlex, List.getLast?_concat]; rfl
  intro b hb
  rw [← htext, hlex, ofItems_append, ofItems_cons, ofItems_nil, List.append_nil] at hb
  rcases of_mem_lexemes_value (List.mem_of_getLast? hi) with ⟨c, rfl⟩ | ⟨u, rfl⟩
  · rw [Item.text, List.getLast?_concat] at hb
    obtain rfl : c = b := Option.some.inj hb
    rw [hlex] at hspaced
    exact isByte_of_isSpaced_concat hspaced
  · have hclosed : closesQuote u = true := by
      simpa [Item.takes] using takes_eq_false_of_inner h.inner hi (b := Byte.space) (by decide)
    rw [Item.text, List.getLast?_append, List.getLast?_cons, getLast?_of_closesQuote hclosed] at hb
    obtain rfl : Byte.quote = b := Option.some.inj hb
    rfl

/-- A value is a part in both dialects. -/
lemma isPart (h : IsValue s) (d : Dialect) : IsPart d s := by
  refine ⟨h.ne_nil, ?_, h.inner, h.head?_isBlank, h.getLast?_isBlank⟩
  cases d with
  | value => rfl
  | file => exact h.noComments

lemma lexemes_append (h : IsValue s) (d : Dialect) (ht : StartsSoft t) :
    Text.lexemes d (s ++ t) = Text.lexemes .value s ++ Text.lexemes d t :=
  (h.isPart d).lexemes_append ht

lemma items_append (h : IsValue s) (d : Dialect) (ht : StartsSoft t) :
    items d (s ++ t) = items .value s ++ items d t := (h.isPart d).items_append ht

/-- A value has the same items in both dialects. -/
lemma items_eq (h : IsValue s) (d : Dialect) : items d s = items .value s := by
  have hd := h.items_append d startsSoft_nil
  rwa [List.append_nil, items_nil, List.append_nil] at hd

end IsValue

/-! ### Lines -/

/-- Without comments both dialects have the same lexemes. -/
lemma lexemes_value_eq {s : Text} (h : ∀ t, .comment t ∉ lexemes .file s) :
    lexemes .value s = lexemes .file s := by
  fun_induction lexemes .file s with
  | case1 => exact lexemes.eq_1 .value
  | case2 r ih =>
      rw [lexemes, if_pos rfl, ih fun t ht => h t (List.mem_cons_of_mem _ ht)]
  | case3 b r hq c rest hc ih => exact absurd (List.mem_cons_self ..) (h c)
  | case4 b r hq hc ih =>
      rw [lexemes_cons_of_none hq rfl, ih fun t ht => h t (List.mem_cons_of_mem _ ht)]

/-- A text that a statement can be built from: it begins with no blank, and outside strings it has no
    comments; strings and groups in it are finished, and no semicolon and no brace is outside groups. -/
def isLine (s : Text) : Bool :=
  s.head?.any (!Byte.isBlank ·) && (lexemes .file s).all (!·.isComment) && (items .file s).all isInner

section Lines

variable {s : Text}

lemma noComments_of_isLine (h : s.isLine = true) : lexemes .file s = lexemes .value s := by
  simp only [isLine, Bool.and_eq_true, List.all_eq_true] at h
  refine (lexemes_value_eq fun t ht => ?_).symm
  have hcomment := h.1.2 _ ht
  cases hcomment

lemma inner_of_isLine (h : s.isLine = true) : (items .value s).all isInner = true := by
  rw [items, ← noComments_of_isLine h]
  exact (Bool.and_eq_true_iff.mp h).2

lemma head?_of_isLine (h : s.isLine = true) : ∃ b r, s = b :: r ∧ Byte.isBlank b = false := by
  simp only [isLine, Bool.and_eq_true] at h
  cases s with
  | nil => cases h.1.1
  | cons b r => exact ⟨b, r, rfl, by simpa using h.1.1⟩

/-- A value is a line. -/
lemma IsValue.isLine (h : IsValue s) : s.isLine = true := by
  simp only [Text.isLine, Bool.and_eq_true, List.all_eq_true]
  refine ⟨⟨?_, fun i hi => ?_⟩, ?_⟩
  · cases hs : s with
    | nil => exact absurd hs h.ne_nil
    | cons b r => simpa [hs] using h.head?_isBlank b
  · rw [h.noComments] at hi
    rcases of_mem_lexemes_value hi with ⟨b, rfl⟩ | ⟨t, rfl⟩ <;> rfl
  · rw [h.items_eq .file, ← List.all_eq_true]
    exact h.inner

end Lines

/-- The values of a list are parts in both dialects. -/
lemma isPart_of_isValue {l : List Text} (h : ∀ p ∈ l, IsValue p) (d : Dialect) :
    ∀ p ∈ l, IsPart d p := fun p hp => (h p hp).isPart d

/-! ## Trimming -/

lemma dropRight_eq_self {p : UInt8 → Bool} {s : Text} (h : ∀ b ∈ s.getLast?, p b = false) :
    dropRight p s = s := by
  rw [dropRight]
  cases hs : s.reverse with
  | nil => rw [List.reverse_eq_nil_iff.mp hs]; rfl
  | cons b r =>
      have hb : p b = false := h b (by rw [← List.head?_reverse, hs]; rfl)
      rw [List.dropWhile_cons_of_neg (by rw [hb]; decide), ← hs, List.reverse_reverse]

lemma dropWhile_eq_self {p : UInt8 → Bool} {s : Text} (h : ∀ b ∈ s.head?, p b = false) :
    s.dropWhile p = s := by
  cases s with
  | nil => rfl
  | cons b r => rw [List.dropWhile_cons_of_neg (by rw [h b rfl]; decide)]

/-- A text without blanks at its ends is not trimmed. -/
lemma trim_eq_self {s : Text} (hhead : ∀ b ∈ s.head?, Byte.isBlank b = false)
    (hlast : ∀ b ∈ s.getLast?, Byte.isBlank b = false) : trim s = s := by
  rw [trim, strip, dropWhile_eq_self hhead, dropRight_eq_self hlast]

/-- A trimmed text has no blanks at its ends. -/
lemma isBlank_head?_trim {s : Text} : ∀ b ∈ (trim s).head?, Byte.isBlank b = false := by
  intro b hb
  have hprefix : dropRight Byte.isBlank (s.dropWhile Byte.isBlank) <+: s.dropWhile Byte.isBlank := by
    have hreverse := List.reverse_prefix.mpr
      (List.dropWhile_suffix Byte.isBlank (l := (s.dropWhile Byte.isBlank).reverse))
    rwa [List.reverse_reverse] at hreverse
  have hstop := List.head?_dropWhile_not Byte.isBlank s
  obtain ⟨r, hr⟩ := List.head?_eq_some_iff.mp hb
  rw [trim, strip] at hr
  rw [hr] at hprefix
  obtain ⟨t, ht⟩ := hprefix
  rw [← ht] at hstop
  simpa using hstop

lemma isBlank_getLast?_trim {s : Text} : ∀ b ∈ (trim s).getLast?, Byte.isBlank b = false := by
  intro b hb
  have hstop := List.head?_dropWhile_not Byte.isBlank (s.dropWhile Byte.isBlank).reverse
  rw [trim, strip, dropRight, List.getLast?_reverse] at hb
  rw [Option.mem_def.mp hb] at hstop
  simpa using hstop

lemma trim_trim (s : Text) : trim (trim s) = trim s :=
  trim_eq_self isBlank_head?_trim isBlank_getLast?_trim

lemma trim_space_cons (s : Text) : trim (Byte.space :: s) = trim s := rfl

lemma dropRight_concat {p : UInt8 → Bool} {b : UInt8} (h : p b = true) (s : Text) :
    dropRight p (s ++ [b]) = dropRight p s := by
  rw [dropRight, List.reverse_concat, List.dropWhile_cons_of_pos h, dropRight]

/-- Stripping a text loses no bytes but those that are stripped. -/
lemma count_strip {p : UInt8 → Bool} {b : UInt8} (hb : p b = false) (s : Text) :
    (strip p s).count b = s.count b := by
  have hdrop : ∀ t : Text, (t.dropWhile p).count b = t.count b := by
    intro t
    have htake : b ∉ t.takeWhile p := fun h => by
      rw [List.mem_takeWhile_imp h] at hb
      cases hb
    conv_rhs => rw [← List.takeWhile_append_dropWhile (p := p) (l := t), List.count_append]
    rw [List.count_eq_zero_of_not_mem htake, Nat.zero_add]
  rw [strip, dropRight, List.count_reverse, hdrop, List.count_reverse, hdrop]

lemma IsPart.trim_eq {d : Dialect} {s : Text} (h : IsPart d s) : trim s = s :=
  trim_eq_self h.head?_isBlank h.getLast?_isBlank

namespace IsValue

variable {s t : Text}

lemma trim_eq (h : IsValue s) : trim s = s := (h.isPart .value).trim_eq

/-- A text is a value if its lexemes say so. -/
lemma of_lexemes {ls : List Item} (hne : ls ≠ []) (hlex : ∀ d, Text.lexemes d s = ls)
    (hinner : (nest ls).all isInner = true) (hspaced : Text.isSpaced true ls = true) : IsValue s := by
  have htext := ofItems_lexemes .value s
  rw [hlex] at htext
  refine ⟨?_, (hlex .file).trans (hlex .value).symm, ?_, ?_⟩
  · rintro rfl
    rw [← hlex .value, Text.lexemes] at hne
    exact hne rfl
  · rw [items, hlex]
    exact hinner
  · have h := (squeeze_append hspaced []).2 rfl false false
    rw [List.append_nil, htext] at h
    rw [collapse, hlex, h]
    simp [squeeze]

lemma lexemes_append_space (hs : IsValue s) (ht : IsValue t) (d : Dialect) :
    Text.lexemes d (s ++ Byte.space :: t) =
      Text.lexemes .value s ++ .byte Byte.space :: Text.lexemes .value t := by
  have hd := ht.lexemes_append d startsSoft_nil
  rw [List.append_nil, Text.lexemes.eq_1, List.append_nil] at hd
  rw [hs.lexemes_append d (startsSoft_space t), lexemes_cons_of_single rfl, hd]

lemma items_append_space (hs : IsValue s) (ht : IsValue t) (d : Dialect) :
    items d (s ++ Byte.space :: t) = items .value s ++ .byte Byte.space :: items .value t := by
  rw [hs.items_append d (startsSoft_space t), items_cons_of_single rfl, ht.items_eq]

/-- Two values with a blank between them are a value. -/
lemma append (hs : IsValue s) (ht : IsValue t) : IsValue (s ++ Byte.space :: t) := by
  refine of_lexemes (by simp) (hs.lexemes_append_space ht) ?_ ?_
  · rw [← hs.lexemes_append_space ht .value, ← items, hs.items_append_space ht, List.all_append,
      List.all_cons, hs.inner, ht.inner]
    rfl
  · refine isSpaced_append hs.isSpaced ?_
    rw [isSpaced_space_cons]
    exact ht.isSpaced

end IsValue

/-- Values with blanks between them are a value. -/
lemma isValue_phrase {l : List Text} (hne : l ≠ []) (h : ∀ s ∈ l, IsValue s) :
    IsValue (phrase l) := by
  induction l with
  | nil => exact absurd rfl hne
  | cons s l ih =>
      have hs := h s (List.mem_cons_self ..)
      cases l with
      | nil => exact hs
      | cons t l =>
          rw [phrase_cons_cons]
          exact hs.append (ih (List.cons_ne_nil t l) fun u hu => h u (List.mem_cons_of_mem _ hu))

/-- Parts with blanks between them are a part. -/
lemma isPart_phrase {d : Dialect} {l : List Text} (hne : l ≠ []) (h : ∀ s ∈ l, IsPart d s) :
    IsPart d (phrase l) := by
  induction l with
  | nil => exact absurd rfl hne
  | cons s l ih =>
      have hs := h s (List.mem_cons_self ..)
      cases l with
      | nil => exact hs
      | cons t l =>
          rw [phrase_cons_cons]
          exact hs.append (ih (List.cons_ne_nil t l) fun u hu => h u (List.mem_cons_of_mem _ hu))

/-! ## Words and strings -/

/-- A byte of a word. -/
def isWordByte (b : UInt8) : Bool :=
  !Byte.isBlank b && b ≠ Byte.quote && b ≠ Byte.hash && b ≠ Byte.semicolon && b ≠ Byte.openBrace &&
    b ≠ Byte.closeBrace

/-- A text of word bytes without the beginning of a comment. -/
structure IsBare (w : Text) : Prop where
  ne_nil : w ≠ []
  bytes : ∀ b ∈ w, isWordByte b = true
  noLine : ¬ [Byte.slash, Byte.slash] <:+: w
  noBlock : ¬ [Byte.slash, Byte.star] <:+: w

/-- A word is read byte by byte. -/
lemma lexemes_of_bytes {w : Text} (h : ∀ b ∈ w, isWordByte b = true)
    (hline : ¬ [Byte.slash, Byte.slash] <:+: w) (hblock : ¬ [Byte.slash, Byte.star] <:+: w)
    (d : Dialect) : lexemes d w = w.map .byte := by
  induction w with
  | nil => exact lexemes.eq_1 d
  | cons b r ih =>
      have hb := h b (List.mem_cons_self ..)
      simp only [isWordByte, Bool.and_eq_true, decide_eq_true_eq] at hb
      have hrest := ih (fun c hc => h c (List.mem_cons_of_mem _ hc))
        (fun hi => hline (hi.trans (List.suffix_cons b r).isInfix))
        (fun hi => hblock (hi.trans (List.suffix_cons b r).isInfix))
      have hnone : Dialect.splitComment? d (b :: r) = none := by
        cases d with
        | value => rfl
        | file =>
            rw [Dialect.splitComment?, splitComment?_eq_none_iff]
            refine ⟨hb.1.1.1.2, fun hslash => ⟨fun hc => hline ?_, fun hc => hblock ?_⟩⟩
            all_goals
              obtain ⟨r', rfl⟩ := List.head?_eq_some_iff.mp hc
              rw [hslash]
              exact List.infix_append' [] _ r'
      rw [lexemes_cons_of_none hb.1.1.1.1.2 hnone, hrest, List.map_cons]

/-- Bytes that open no group are items. -/
lemma nest_bytes {w : Text} (h : ∀ b ∈ w, b ≠ Byte.openBrace) : nest (w.map .byte) = w.map .byte := by
  induction w with
  | nil => exact nest.eq_1
  | cons b w ih =>
      rw [List.map_cons, nest_cons_of_ne (fun e => h b (List.mem_cons_self ..) (Item.byte.inj e)),
        ih fun c hc => h c (List.mem_cons_of_mem _ hc)]

/-- Where there are no comments, only strings take in more than one byte. -/
lemma lexemes_value_cons {b : UInt8} (h : b ≠ Byte.quote) (r : Text) :
    lexemes .value (b :: r) = .byte b :: lexemes .value r :=
  lexemes_cons_of_none h rfl

/-- Where there are no comments, only strings and groups are longer than a byte. -/
lemma items_value_cons {b : UInt8} (hquote : b ≠ Byte.quote) (hbrace : b ≠ Byte.openBrace) (r : Text) :
    items .value (b :: r) = .byte b :: items .value r := by
  rw [items, lexemes_value_cons hquote, nest_cons_of_ne fun h => hbrace (Item.byte.inj h), items]

/-- A byte that stands for itself where there are no comments. -/
def isCompactByte (b : UInt8) : Bool :=
  !Byte.isBlank b && b ≠ Byte.quote && b ≠ Byte.semicolon && b ≠ Byte.openBrace && b ≠ Byte.closeBrace

/-- A word where there are no comments: it is not empty and has no blank, quotation mark, brace or
    semicolon. -/
def isCompact (s : Text) : Bool := s ≠ [] && s.all isCompactByte

section Compact

variable {w : Text}

lemma isCompact_iff : w.isCompact = true ↔ w ≠ [] ∧ ∀ b ∈ w, Byte.isBlank b = false ∧
    b ≠ Byte.quote ∧ b ≠ Byte.semicolon ∧ b ≠ Byte.openBrace ∧ b ≠ Byte.closeBrace := by
  simp [isCompact, isCompactByte, and_assoc]

lemma lexemes_value_of_ne_quote (h : ∀ b ∈ w, b ≠ Byte.quote) : lexemes .value w = w.map .byte := by
  induction w with
  | nil => exact lexemes.eq_1 .value
  | cons b w ih =>
      rw [lexemes_value_cons (h b (List.mem_cons_self ..)), ih fun c hc => h c (List.mem_cons_of_mem _ hc),
        List.map_cons]

/-- A compact word is read byte by byte. -/
lemma items_of_isCompact (h : w.isCompact = true) : items .value w = w.map .byte := by
  obtain ⟨-, hbytes⟩ := isCompact_iff.mp h
  rw [items, lexemes_value_of_ne_quote fun b hb => (hbytes b hb).2.1,
    nest_bytes fun b hb => (hbytes b hb).2.2.2.1]

/-- A compact word is a part where there are no comments. -/
lemma isPart_of_isCompact (h : w.isCompact = true) : IsPart .value w := by
  obtain ⟨hne, hbytes⟩ := isCompact_iff.mp h
  refine ⟨hne, rfl, ?_, fun b hb => (hbytes b (List.mem_of_head? hb)).1,
    fun b hb => (hbytes b (List.mem_of_getLast? hb)).1⟩
  rw [items_of_isCompact h, List.all_map, List.all_eq_true]
  intro b hb
  simp [isInner, Item.isFinished, (hbytes b hb).2.2]

end Compact

namespace IsBare

variable {w : Text}

lemma isCompact (h : IsBare w) : w.isCompact = true := by
  refine isCompact_iff.mpr ⟨h.ne_nil, fun b hb => ?_⟩
  have hb := h.bytes b hb
  simp only [isWordByte, Bool.and_eq_true, decide_eq_true_eq, Bool.not_eq_true'] at hb
  exact ⟨hb.1.1.1.1.1, hb.1.1.1.1.2, hb.1.1.2, hb.1.2, hb.2⟩

lemma lexemes_eq (h : IsBare w) (d : Dialect) : lexemes d w = w.map .byte :=
  lexemes_of_bytes h.bytes h.noLine h.noBlock d

lemma items_eq (h : IsBare w) (d : Dialect) : items d w = w.map .byte := by
  obtain ⟨-, hbytes⟩ := isCompact_iff.mp h.isCompact
  rw [items, h.lexemes_eq, nest_bytes fun b hb => (hbytes b hb).2.2.2.1]

/-- A bare word is a value. -/
lemma isValue (h : IsBare w) : IsValue w := by
  refine IsValue.of_lexemes (by simpa using h.ne_nil) h.lexemes_eq ?_ ?_
  · rw [← h.lexemes_eq .value, ← items]
    exact (isPart_of_isCompact h.isCompact).inner
  · have hspaced : ∀ l : Text, (∀ b ∈ l, isWordByte b = true) →
        Text.isSpaced false (l.map .byte) = true := by
      intro l hl
      induction l with
      | nil => rfl
      | cons b l ih =>
          have hb := hl b (List.mem_cons_self ..)
          simp only [isWordByte, Bool.and_eq_true, Bool.not_eq_true'] at hb
          rw [List.map_cons, isSpaced_cons (i := .byte b) hb.1.1.1.1.1]
          exact ih fun c hc => hl c (List.mem_cons_of_mem _ hc)
    cases hw : w with
    | nil => exact absurd hw h.ne_nil
    | cons b l =>
        have hb := h.bytes b (hw ▸ List.mem_cons_self ..)
        simp only [isWordByte, Bool.and_eq_true, Bool.not_eq_true'] at hb
        rw [List.map_cons, isSpaced_cons (i := .byte b) hb.1.1.1.1.1]
        exact hspaced l fun c hc => h.bytes c (hw ▸ List.mem_cons_of_mem _ hc)

end IsBare

/-- A text that can stand between quotation marks: it has no quotation mark, no backslash and no null
    byte. -/
def isClean (s : Text) : Bool :=
  s.all fun b => b ≠ Byte.quote && b ≠ Byte.backslash && b ≠ Byte.nul

/-- A word: it is clean and has no blank, brace, semicolon or number sign, and no beginning of a
    comment. -/
def isWord (s : Text) : Bool :=
  s ≠ [] && s.isClean && s.all isWordByte && !occursIn [Byte.slash, Byte.slash] s &&
    !occursIn [Byte.slash, Byte.star] s

lemma occursIn_of_isInfix {u s : Text} (h : u <:+: s) : occursIn u s = true := by
  induction s with
  | nil => rw [List.infix_nil.mp h]; rfl
  | cons b s ih =>
      rw [occursIn, Bool.or_eq_true, List.isPrefixOf_iff_prefix]
      exact (List.infix_cons_iff.mp h).imp id ih

lemma isBare_of_isWord {w : Text} (h : w.isWord = true) : IsBare w := by
  simp only [isWord, Bool.and_eq_true, decide_eq_true_eq, Bool.not_eq_true'] at h
  obtain ⟨⟨⟨⟨hne, -⟩, hbytes⟩, hline⟩, hblock⟩ := h
  refine ⟨hne, List.all_eq_true.mp hbytes, fun hi => ?_, fun hi => ?_⟩
  · rw [occursIn_of_isInfix hi] at hline
    cases hline
  · rw [occursIn_of_isInfix hi] at hblock
    cases hblock

/-- A word without slashes is bare. -/
lemma isBare_of_noSlash {w : Text} (hne : w ≠ [])
    (h : ∀ b ∈ w, isWordByte b = true ∧ b ≠ Byte.slash) : IsBare w := by
  have hslash : ∀ b, ¬ [Byte.slash, b] <:+: w := fun b hi =>
    (h Byte.slash (hi.subset (List.mem_cons_self ..))).2 rfl
  exact ⟨hne, fun b hb => (h b hb).1, hslash _, hslash _⟩

lemma ne_of_isClean {s : Text} (h : s.isClean = true) {b : UInt8} (hb : b ∈ s) :
    b ≠ Byte.quote ∧ b ≠ Byte.backslash ∧ b ≠ Byte.nul := by
  have hb := List.all_eq_true.mp h b hb
  simpa [and_assoc] using hb

/-- A text that comes back from between quotation marks: it has no quotation mark and no backslash. -/
def isQuotable (s : Text) : Bool := s.all fun b => b ≠ Byte.quote && b ≠ Byte.backslash

lemma isQuotable_of_isClean {s : Text} (h : s.isClean = true) : s.isQuotable = true := by
  rw [isQuotable, List.all_eq_true]
  intro b hb
  simp [ne_of_isClean h hb]

lemma ne_of_isQuotable {s : Text} (h : s.isQuotable = true) {b : UInt8} (hb : b ∈ s) :
    b ≠ Byte.quote ∧ b ≠ Byte.backslash := by simpa using List.all_eq_true.mp h b hb

lemma closesQuote_of_isQuotable {s : Text} (h : s.isQuotable = true) :
    closesQuote (s ++ [Byte.quote]) = true := by
  induction s with
  | nil => rfl
  | cons b s ih =>
      have hb := ne_of_isQuotable h (List.mem_cons_self ..)
      have hs : isQuotable s = true := (Bool.and_eq_true_iff.mp h).2
      cases s with
      | nil => simp [closesQuote, hb]
      | cons c r =>
          rw [List.cons_append, List.cons_append, closesQuote, if_neg hb.1, if_neg hb.2]
          exact ih hs

/-- Such a text in quotation marks is one string. -/
lemma lexemes_quote {s : Text} (h : s.isQuotable = true) (d : Dialect) (t : Text) :
    lexemes d (quote s ++ t) = .quoted (quote s) :: lexemes d t := by
  have hsplit := splitQuoted_append_of_closes (closesQuote_of_isQuotable h) t
  rw [quote, List.cons_append, List.cons_append, lexemes, if_pos rfl, hsplit]

lemma items_quote {s : Text} (h : s.isQuotable = true) (d : Dialect) :
    items d (quote s) = [.quoted (quote s)] := by
  have hlex := lexemes_quote h d []
  rw [List.append_nil, lexemes.eq_1] at hlex
  rw [items, hlex, nest_cons_of_ne (by simp), nest]

/-- Such a text in quotation marks is a value. -/
lemma isValue_quote {s : Text} (h : s.isQuotable = true) : IsValue (quote s) := by
  refine IsValue.of_lexemes (List.cons_ne_nil (Item.quoted (quote s)) []) (fun d => ?_) ?_ rfl
  · have hlex := lexemes_quote h d []
    rwa [List.append_nil, lexemes.eq_1] at hlex
  · have hclosed : (Item.quoted (quote s)).isFinished = true := closesQuote_of_isQuotable h
    rw [nest_cons_of_ne (by simp), nest, List.all_cons, isInner, hclosed]
    rfl

end Text

end NameServerConf
