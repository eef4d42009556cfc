import Mathlib.Data.List.TakeWhile
import NameServerConf.Proofs.Keywords

/-!
# Cutting texts at the seams of their items

**What an item takes in.**  Whether an item ends where it does can depend on the next byte: an
unfinished string takes in whatever follows, a comment to the end of the line everything but the line
feed, and a slash becomes a comment with another slash or an asterisk.  `Item.takes` says which byte
an item takes in, and `lexemes_eq_cons` that nothing else matters.

**Parts of a text.**  So a text can be cut between two of its items, and both parts have the items
that they had before (`items_ofItems_prefix`, `items_ofItems_suffix`).

**Texts put together.**  Two texts have their items one after the other if all groups of the first
are closed and its last item takes in nothing of the second (`items_append`).
-/

namespace NameServerConf

namespace Text

/-- The text behind an opening quotation mark ends with the closing one. -/
def closesQuote : Text → Bool
  | [] => false
  | [b] => b = Byte.quote
  | b :: c :: r =>
    if b = Byte.quote then false
    else if b = Byte.backslash then closesQuote r
    else closesQuote (c :: r)

/-- The text inside a block comment ends with the comment. -/
def closesComment : Text → Bool
  | [] => false
  | [_] => false
  | b :: c :: r => if b = Byte.star && c = Byte.slash then r.isEmpty else closesComment (c :: r)

end Text

namespace Item

/-- A comment of either kind. -/
def isComment : Item → Bool
  | .comment _ => true
  | _ => false

/-- A comment that the end of the line ends. -/
def isLineComment : Item → Bool
  | .comment t => t.head? = some Byte.hash || [Byte.slash, Byte.slash].isPrefixOf t
  | _ => false

/-- An item that ends by itself and not because the text ends.  A comment to the end of the line is
    ended by the line feed behind it. -/
def isFinished : Item → Bool
  | .byte _ => true
  | .quoted t => Text.closesQuote (t.drop 1)
  | .comment t => (Item.comment t).isLineComment || Text.closesComment (t.drop 2)
  | .group _ closed => closed

/-- The item takes in the byte that follows it. -/
def takes : Item → UInt8 → Bool
  | .byte b, c => b = Byte.slash && (c = Byte.slash || c = Byte.star)
  | .quoted t, _ => !Text.closesQuote (t.drop 1)
  | .comment t, c =>
    if (Item.comment t).isLineComment then c ≠ Byte.newline else !Text.closesComment (t.drop 2)
  | .group _ closed, _ => !closed

end Item

namespace Text

/-! ## Strings and comments -/

lemma splitQuoted_append_of_closes {s : Text} (h : closesQuote s = true) (v : Text) :
    splitQuoted (s ++ v) = (s, v) := by
  fun_induction closesQuote s with
  | case1 => cases h
  | case2 b =>
      rw [decide_eq_true_eq] at h
      subst h
      cases v <;> rfl
  | case3 c r => cases h
  | case4 c r _ ih =>
      have hne : ¬ Byte.backslash = Byte.quote := by decide
      rw [List.cons_append, List.cons_append, splitQuoted, if_neg hne, if_pos rfl, ih h]
  | case5 b c r hq hb ih =>
      rw [List.cons_append, List.cons_append, splitQuoted, if_neg hq, if_neg hb,
        ← List.cons_append, ih h]

/-- The string that a text begins with is closed, or reaches to the end. -/
lemma closesQuote_splitQuoted (s : Text) :
    closesQuote (splitQuoted s).1 = true ∨ (splitQuoted s).2 = [] := by
  fun_induction splitQuoted s with
  | case1 => exact Or.inr rfl
  | case2 => exact Or.inr rfl
  | case3 => exact Or.inl rfl
  | case4 c r inside rest h _ ih =>
      rw [h] at ih
      refine ih.imp (fun ih => ?_) id
      rw [closesQuote, if_neg (by decide), if_pos rfl]
      exact ih
  | case5 b c r hq hb inside rest h ih =>
      rw [h] at ih
      refine ih.imp (fun ih => ?_) id
      have happend := splitQuoted_append (c :: r)
      rw [h] at happend
      cases inside with
      | nil => cases ih
      | cons c' inside => simpa [closesQuote, hq, hb] using ih

/-- A string is read as it is where nothing follows, or if it is closed. -/
lemma splitQuoted_again {r v : Text} (h : v = [] ∨ v.head? = (splitQuoted r).2.head? ∨
    ∀ b ∈ v.head?, (Item.quoted (Byte.quote :: (splitQuoted r).1)).takes b = false) :
    splitQuoted ((splitQuoted r).1 ++ v) = ((splitQuoted r).1, v) := by
  rcases closesQuote_splitQuoted r with hc | hrest
  · exact splitQuoted_append_of_closes hc v
  · have hv : v = [] ∨ closesQuote (splitQuoted r).1 = true := by
      rcases h with h | h | h
      · exact Or.inl h
      · rw [hrest] at h
        exact Or.inl (List.head?_eq_none_iff.mp h)
      · cases v with
        | nil => exact Or.inl rfl
        | cons b v => exact Or.inr (by simpa [Item.takes] using h b rfl)
    rcases hv with rfl | hc
    · have happend := splitQuoted_append r
      rw [hrest, List.append_nil] at happend
      rw [List.append_nil, happend]
      exact Prod.ext happend hrest
    · exact splitQuoted_append_of_closes hc v

lemma splitBlockComment_append_of_closes {s : Text} (h : closesComment s = true) (v : Text) :
    splitBlockComment (s ++ v) = (s, v) := by
  fun_induction closesComment s with
  | case1 => cases h
  | case2 => cases h
  | case3 b c r hend =>
      obtain rfl := List.isEmpty_iff.mp h
      rw [List.cons_append, List.cons_append, splitBlockComment, if_pos hend]
      rfl
  | case4 b c r hend ih =>
      rw [List.cons_append, List.cons_append, splitBlockComment, if_neg hend,
        ← List.cons_append, ih h]

lemma closesComment_splitBlockComment (s : Text) :
    closesComment (splitBlockComment s).1 = true ∨ (splitBlockComment s).2 = [] := by
  fun_induction splitBlockComment s with
  | case1 => exact Or.inr rfl
  | case2 => exact Or.inr rfl
  | case3 b c r h => exact Or.inl (by simpa [closesComment] using h)
  | case4 b c r hend inside rest h ih =>
      rw [h] at ih
      refine ih.imp (fun ih => ?_) id
      have happend := splitBlockComment_append (c :: r)
      rw [h] at happend
      cases inside with
      | nil => cases ih
      | cons c' inside =>
          obtain rfl : c' = c := (List.cons.inj happend).1
          rw [closesComment, if_neg hend]
          exact ih

/-- The rest of a line is read as it is where nothing follows, or a line feed. -/
lemma takeWhile_line_again {x v : Text} (hx : ∀ b ∈ x, b ≠ Byte.newline)
    (hv : v = [] ∨ v.head? = some Byte.newline) :
    (x ++ v).takeWhile (· ≠ Byte.newline) = x ∧ (x ++ v).dropWhile (· ≠ Byte.newline) = v := by
  have hx' : ∀ b ∈ x, decide (b ≠ Byte.newline) = true := fun b hb => by simpa using hx b hb
  rw [List.takeWhile_append_of_pos hx', List.dropWhile_append_of_pos hx']
  rcases hv with rfl | hv
  · simp
  · cases v with
    | nil => cases hv
    | cons b v =>
        obtain rfl : b = Byte.newline := by simpa using hv
        simp

lemma head?_dropWhile_line (r : Text) :
    r.dropWhile (· ≠ Byte.newline) = [] ∨
      (r.dropWhile (· ≠ Byte.newline)).head? = some Byte.newline := by
  induction r with
  | nil => exact Or.inl rfl
  | cons b r ih =>
      rw [List.dropWhile_cons]
      split
      · exact ih
      next h =>
        right
        simpa using h

/-- A line comment is read as it is where nothing follows, or if it takes in nothing more. -/
lemma line_of_not_takes {c r v : Text} (hc : (Item.comment c).isLineComment = true)
    (hv : v = [] ∨ v.head? = (r.dropWhile (· ≠ Byte.newline)).head? ∨
      ∀ b ∈ v.head?, (Item.comment c).takes b = false) :
    v = [] ∨ v.head? = some Byte.newline := by
  rcases hv with hv | hv | hv
  · exact Or.inl hv
  · rcases head?_dropWhile_line r with hr | hr
    · rw [hr] at hv
      exact Or.inl (List.head?_eq_none_iff.mp hv)
    · exact Or.inr (hv.trans hr)
  · cases v with
    | nil => exact Or.inl rfl
    | cons b v =>
        have hb := hv b rfl
        simp only [Item.takes, hc, if_true] at hb
        exact Or.inr (by simpa using hb)

lemma splitComment?_hash (r : Text) :
    splitComment? (Byte.hash :: r) = some (Byte.hash :: r.takeWhile (· ≠ Byte.newline),
      r.dropWhile (· ≠ Byte.newline)) := rfl

lemma splitComment?_slashes (r : Text) :
    splitComment? (Byte.slash :: Byte.slash :: r) =
      some (Byte.slash :: Byte.slash :: r.takeWhile (· ≠ Byte.newline),
        r.dropWhile (· ≠ Byte.newline)) := rfl

lemma splitComment?_block (r : Text) :
    splitComment? (Byte.slash :: Byte.star :: r) =
      some (Byte.slash :: Byte.star :: (splitBlockComment r).1, (splitBlockComment r).2) := rfl

/-- A comment is read as it is where nothing follows, before the byte that did follow it, and before
    any byte that it does not take in. -/
lemma splitComment?_again {s c rest : Text} (h : splitComment? s = some (c, rest)) {v : Text}
    (hv : v = [] ∨ v.head? = rest.head? ∨ ∀ b ∈ v.head?, (Item.comment c).takes b = false) :
    splitComment? (c ++ v) = some (c, v) := by
  have hline : ∀ r : Text, ∀ b ∈ r.takeWhile (· ≠ Byte.newline), b ≠ Byte.newline :=
    fun r b hb => by simpa using List.mem_takeWhile_imp hb
  unfold splitComment? at h
  split at h
  · cases h
  next b r =>
  split at h
  next hb =>
    subst hb
    obtain ⟨rfl, rfl⟩ := Prod.mk.inj (Option.some.inj h)
    obtain ⟨h₁, h₂⟩ := takeWhile_line_again (hline r) (line_of_not_takes rfl hv)
    rw [List.cons_append, splitComment?_hash, h₁, h₂]
  next =>
  split at h
  next hb =>
    subst hb
    split at h
    · cases h
    next c' r' =>
    split at h
    next hc =>
      subst hc
      obtain ⟨rfl, rfl⟩ := Prod.mk.inj (Option.some.inj h)
      obtain ⟨h₁, h₂⟩ := takeWhile_line_again (hline r') (line_of_not_takes rfl hv)
      rw [List.cons_append, List.cons_append, splitComment?_slashes, h₁, h₂]
    next =>
    split at h
    next hc =>
      subst hc
      obtain ⟨rfl, rfl⟩ := Prod.mk.inj (Option.some.inj h)
      have hblock : splitBlockComment ((splitBlockComment r').1 ++ v) =
          ((splitBlockComment r').1, v) := by
        rcases closesComment_splitBlockComment r' with hc | hrest
        · exact splitBlockComment_append_of_closes hc v
        · have hv' : v = [] ∨ closesComment (splitBlockComment r').1 = true := by
            rcases hv with hv | hv | hv
            · exact Or.inl hv
            · rw [hrest] at hv
              exact Or.inl (List.head?_eq_none_iff.mp hv)
            · cases v with
              | nil => exact Or.inl rfl
              | cons b v =>
                  have hb : (!closesComment (splitBlockComment r').1) = false := hv b rfl
                  exact Or.inr (by simpa using hb)
          rcases hv' with rfl | hc
          · have happend := splitBlockComment_append r'
            rw [hrest, List.append_nil] at happend
            rw [List.append_nil, happend]
            exact Prod.ext happend hrest
          · exact splitBlockComment_append_of_closes hc v
      rw [List.cons_append, List.cons_append, splitComment?_block, hblock]
    · cases h
  · cases h

/-! ## Lexemes -/

lemma splitComment?_eq_none_iff {b : UInt8} {u : Text} :
    splitComment? (b :: u) = none ↔ b ≠ Byte.hash ∧
      (b = Byte.slash → u.head? ≠ some Byte.slash ∧ u.head? ≠ some Byte.star) := by
  unfold splitComment?
  dsimp only
  split
  next hb => simp [hb]
  next hb =>
    split
    next hs =>
      subst hs
      cases u with
      | nil => simpa using hb
      | cons c u =>
          dsimp only
          split
          next h₁ => simp [h₁]
          next h₁ =>
            split
            next h₂ => simp [h₂]
            next h₂ => simpa [h₁, h₂] using hb
    next hs => simp [hb, hs]

/-- **The first item of a text.**  It is the first item again before nothing at all, before any text
    that begins with the same byte as the one that followed it, and before any that begins with a
    byte that it does not take in. -/
theorem lexemes_eq_cons {d : Dialect} {s : Text} {i : Item} {ls : List Item}
    (h : lexemes d s = i :: ls) :
    ∃ u, s = i.text ++ u ∧ lexemes d u = ls ∧
      ∀ v : Text, (v = [] ∨ v.head? = u.head? ∨ ∀ b ∈ v.head?, i.takes b = false) →
        lexemes d (i.text ++ v) = i :: lexemes d v := by
  unfold lexemes at h
  split at h
  · cases h
  next b r =>
  split at h
  next hq =>
    subst hq
    obtain ⟨rfl, rfl⟩ := List.cons.inj h
    refine ⟨(splitQuoted r).2, by simp [Item.text, splitQuoted_append], rfl, fun v hv => ?_⟩
    rw [Item.text, List.cons_append, lexemes, if_pos rfl, splitQuoted_again hv]
  next hq =>
  split at h
  next c rest hc =>
    obtain ⟨rfl, rfl⟩ := List.cons.inj h
    refine ⟨rest, (Dialect.append_of_splitComment? hc).symm, rfl, fun v hv => ?_⟩
    cases d with
    | value => cases hc
    | file =>
        have hfile : splitComment? (b :: r) = some (c, rest) := hc
        have hagain := splitComment?_again hfile hv
        have happend := append_of_splitComment? hfile
        -- the comment begins with the first byte of the text
        have hlt := length_lt_of_splitComment? (d := .file) hc
        cases c with
        | nil =>
            rw [List.nil_append] at happend
            rw [happend] at hlt
            exact absurd hlt (lt_irrefl _)
        | cons b' c =>
            obtain rfl : b' = b := (List.cons.inj happend).1
            rw [List.cons_append] at hagain
            rw [Item.text, List.cons_append]
            exact lexemes_cons_of_some hq hagain
  next hc =>
    obtain ⟨rfl, rfl⟩ := List.cons.inj h
    refine ⟨r, rfl, rfl, fun v hv => ?_⟩
    have hnone : Dialect.splitComment? d (b :: v) = none := by
      cases d with
      | value => rfl
      | file =>
          rw [Dialect.splitComment?, splitComment?_eq_none_iff] at hc ⊢
          refine ⟨hc.1, fun hb => ?_⟩
          rcases hv with rfl | hv | hv
          · exact ⟨fun h => (by cases h), fun h => (by cases h)⟩
          · rw [hv]
            exact hc.2 hb
          · cases v with
            | nil => exact ⟨fun h => (by cases h), fun h => (by cases h)⟩
            | cons c v => simpa [Item.takes, hb] using hv c rfl
    rw [Item.text, List.singleton_append, lexemes_cons_of_none hq hnone]

/-- The first part of a text has its items by itself. -/
theorem lexemes_ofItems_prefix {d : Dialect} {s : Text} {ls ms : List Item}
    (h : lexemes d s = ls ++ ms) : lexemes d (ofItems ls) = ls := by
  induction ls generalizing s with
  | nil => exact lexemes.eq_1 d
  | cons i ls ih =>
      obtain ⟨u, -, hu, hagain⟩ := lexemes_eq_cons h
      have hu : lexemes d u = ls ++ ms := hu
      have hls := ih hu
      have hsplit : u = ofItems ls ++ ofItems ms := by
        rw [← ofItems_append, ← hu, ofItems_lexemes]
      rw [ofItems_cons, hagain, hls]
      cases hv : ofItems ls with
      | nil => exact Or.inl rfl
      | cons b v => exact Or.inr (Or.inl (by rw [hsplit, hv]; rfl))

/-- The rest of a text has its items by itself. -/
theorem lexemes_ofItems_suffix {d : Dialect} {s : Text} {ls ms : List Item}
    (h : lexemes d s = ls ++ ms) : lexemes d (ofItems ms) = ms := by
  induction ls generalizing s with
  | nil =>
      rw [List.nil_append] at h
      rw [← h, ofItems_lexemes]
  | cons i ls ih =>
      obtain ⟨u, -, hu, -⟩ := lexemes_eq_cons h
      exact ih hu

/-- Two texts have their items one after the other if the last item of the first takes in nothing of
    the second. -/
theorem lexemes_append {d : Dialect} {s t : Text}
    (h : ∀ i ∈ (lexemes d s).getLast?, ∀ b ∈ t.head?, i.takes b = false) :
    lexemes d (s ++ t) = lexemes d s ++ lexemes d t := by
  generalize hs : lexemes d s = ls at h
  induction ls generalizing s with
  | nil =>
      have hnil : s = [] := by rw [← ofItems_lexemes d s, hs, ofItems_nil]
      rw [hnil, List.nil_append, List.nil_append]
  | cons i ls ih =>
      obtain ⟨u, rfl, hu, hagain⟩ := lexemes_eq_cons hs
      have hrest : lexemes d (u ++ t) = ls ++ lexemes d t := by
        refine ih hu fun j hj => h j ?_
        cases ls with
        | nil => cases hj
        | cons m ls => rw [List.getLast?_cons_cons]; exact hj
      rw [List.append_assoc, hagain, hrest, List.cons_append]
      cases u with
      | nil =>
          have hls : ls = [] := by rw [← hu, lexemes]
          subst hls
          exact Or.inr (Or.inr (h i rfl))
      | cons b u => exact Or.inr (Or.inl rfl)

/-! ## Items -/

/-- What a split takes off the front is taken off again whatever follows the brace. -/
lemma splitGroup?_again {depth : Nat} {is inside rest : List Item}
    (h : splitGroup? depth is = some (inside, rest)) (ms : List Item) :
    splitGroup? depth (inside ++ .byte Byte.closeBrace :: ms) = some (inside, ms) := by
  induction is generalizing depth inside with
  | nil => cases h
  | cons i is ih =>
      simp only [splitGroup?] at h
      split at h
      next hi =>
        cases depth with
        | zero =>
            obtain ⟨rfl, rfl⟩ := Prod.mk.inj (Option.some.inj h)
            simp only [List.nil_append, splitGroup?, if_pos]
        | succ depth =>
            obtain ⟨⟨inside', rest'⟩, h', he⟩ := Option.map_eq_some_iff.mp h
            obtain ⟨rfl, rfl⟩ := Prod.mk.inj he
            subst hi
            simp only [List.cons_append, splitGroup?, if_pos, ih h', Option.map_some]
      next hi =>
        obtain ⟨⟨inside', rest'⟩, h', he⟩ := Option.map_eq_some_iff.mp h
        obtain ⟨rfl, rfl⟩ := Prod.mk.inj he
        simp only [List.cons_append, splitGroup?, if_neg hi, ih h', Option.map_some]

/-- A closed group and what follows it. -/
lemma nest_group {rest inside after : List Item} (h : splitGroup? 0 rest = some (inside, after))
    (ms : List Item) :
    nest (.byte Byte.openBrace :: inside ++ .byte Byte.closeBrace :: ms) =
      .group (ofItems inside) true :: nest ms := by
  rw [List.cons_append, nest, if_pos rfl]
  split
  next inside' after' h' =>
    obtain ⟨rfl, rfl⟩ := Prod.mk.inj (Option.some.inj (h'.symm.trans (splitGroup?_again h ms)))
    rfl
  next h' => rw [splitGroup?_again h ms] at h'; cases h'

/-- Between two items there is a place between two lexemes. -/
lemma exists_of_nest_eq_append {ls is js : List Item} (h : nest ls = is ++ js) :
    ∃ l₁ l₂, ls = l₁ ++ l₂ ∧ nest l₁ = is ∧ nest l₂ = js := by
  cases is with
  | nil => exact ⟨[], ls, rfl, nest.eq_1, h⟩
  | cons i is =>
      fun_induction nest ls generalizing i is with
      | case1 => cases h
      | case2 rest inside after hg ih =>
          obtain ⟨rfl, htail⟩ := List.cons.inj h
          have hsplit : ∃ l₁ l₂, after = l₁ ++ l₂ ∧ nest l₁ = is ∧ nest l₂ = js := by
            cases is with
            | nil => exact ⟨[], after, rfl, nest.eq_1, htail⟩
            | cons i is => exact ih i is htail
          obtain ⟨l₁, l₂, rfl, h₁, h₂⟩ := hsplit
          refine ⟨.byte Byte.openBrace :: inside ++ .byte Byte.closeBrace :: l₁, l₂, ?_, ?_, h₂⟩
          · rw [← append_of_splitGroup? hg]
            simp
          · rw [nest_group hg, h₁]
      | case3 rest hg =>
          obtain ⟨rfl, htail⟩ := List.cons.inj h
          obtain ⟨rfl, rfl⟩ := List.nil_eq_append_iff.mp htail
          refine ⟨.byte Byte.openBrace :: rest, [], by simp, ?_, nest.eq_1⟩
          rw [nest, if_pos rfl]
          split
          next h' => rw [hg] at h'; cases h'
          next => rfl
      | case4 j rest hj ih =>
          obtain ⟨rfl, htail⟩ := List.cons.inj h
          have hsplit : ∃ l₁ l₂, rest = l₁ ++ l₂ ∧ nest l₁ = is ∧ nest l₂ = js := by
            cases is with
            | nil => exact ⟨[], rest, rfl, nest.eq_1, htail⟩
            | cons i is => exact ih i is htail
          obtain ⟨l₁, l₂, rfl, h₁, h₂⟩ := hsplit
          exact ⟨j :: l₁, l₂, rfl, by rw [nest_cons_of_ne hj, h₁], h₂⟩

/-- The first part of a text has its items by itself. -/
theorem items_ofItems_prefix {d : Dialect} {s : Text} {is js : List Item}
    (h : items d s = is ++ js) : items d (ofItems is) = is := by
  obtain ⟨l₁, l₂, hl, h₁, -⟩ := exists_of_nest_eq_append h
  rw [items, ← h₁, ofItems_nest, lexemes_ofItems_prefix hl]

/-- The rest of a text has its items by itself. -/
theorem items_ofItems_suffix {d : Dialect} {s : Text} {is js : List Item}
    (h : items d s = is ++ js) : items d (ofItems js) = js := by
  obtain ⟨l₁, l₂, hl, -, h₂⟩ := exists_of_nest_eq_append h
  rw [items, ← h₂, ofItems_nest, lexemes_ofItems_suffix hl]

/-- No group is left open. -/
def groupsClosed (is : List Item) : Bool := is.all fun i => i.inner?.isNone || i.isFinished

lemma groupsClosed_cons {i : Item} {is : List Item} :
    groupsClosed (i :: is) = true ↔
      (i.inner?.isNone || i.isFinished) = true ∧ groupsClosed is = true := by
  rw [groupsClosed, List.all_cons, Bool.and_eq_true, groupsClosed]

/-- Lexemes that leave no group open have their items by themselves, whatever follows. -/
lemma nest_append {ls : List Item} (h : groupsClosed (nest ls) = true) (ms : List Item) :
    nest (ls ++ ms) = nest ls ++ nest ms := by
  fun_induction nest ls with
  | case1 => rw [List.nil_append, List.nil_append]
  | case2 rest inside after hg ih =>
      have hrest : rest ++ ms = inside ++ .byte Byte.closeBrace :: (after ++ ms) := by
        rw [← append_of_splitGroup? hg, List.append_assoc, List.cons_append]
      rw [List.cons_append, hrest, ← List.cons_append, nest_group hg,
        ih (groupsClosed_cons.mp h).2, List.cons_append]
  | case3 rest hg => exact absurd (groupsClosed_cons.mp h).1 (by simp [Item.inner?, Item.isFinished])
  | case4 i rest hi ih =>
      rw [List.cons_append, nest_cons_of_ne hi, ih (groupsClosed_cons.mp h).2, List.cons_append]

/-- The lexeme that an item ends with. -/
def lastLexeme : Item → Item
  | .group _ _ => .byte Byte.closeBrace
  | i => i

lemma getLast?_lexemes_of_nest {ls : List Item} (h : groupsClosed (nest ls) = true)
    (hls : ∀ i ∈ ls, i.inner?.isNone) : ls.getLast? = (nest ls).getLast?.map lastLexeme := by
  fun_induction nest ls with
  | case1 => rfl
  | case2 rest inside after hg ih =>
      rw [← append_of_splitGroup? hg] at hls ⊢
      have hafter : ∀ i ∈ after, i.inner?.isNone := fun i hi => hls i (by simp [hi])
      have ih := ih (groupsClosed_cons.mp h).2 hafter
      rw [List.getLast?_cons, List.getLast?_append, List.getLast?_cons, ih, List.getLast?_cons]
      cases (nest after).getLast? with
      | none => rfl
      | some i => rfl
  | case3 rest hg => exact absurd (groupsClosed_cons.mp h).1 (by simp [Item.inner?, Item.isFinished])
  | case4 i rest hi ih =>
      have hi' : lastLexeme i = i := by
        have := hls i (List.mem_cons_self ..)
        cases i <;> first | rfl | cases this
      rw [List.getLast?_cons, ih (groupsClosed_cons.mp h).2
        fun j hj => hls j (List.mem_cons_of_mem _ hj), List.getLast?_cons]
      cases (nest rest).getLast? with
      | none => exact congrArg some hi'.symm
      | some j => rfl

/-- A lexeme is no group. -/
lemma inner?_of_mem_lexemes {d : Dialect} {s : Text} {i : Item} (h : i ∈ lexemes d s) :
    i.inner?.isNone := by
  fun_induction lexemes d s with
  | case1 => cases h
  | case2 r ih => rcases List.mem_cons.mp h with rfl | h; exacts [rfl, ih h]
  | case3 b r _ c rest _ ih => rcases List.mem_cons.mp h with rfl | h; exacts [rfl, ih h]
  | case4 b r _ _ ih => rcases List.mem_cons.mp h with rfl | h; exacts [rfl, ih h]

/-- **Texts put together.**  Two texts have their items one after the other if the first leaves no
    group open and its last item takes in nothing of the second. -/
theorem items_append {d : Dialect} {s t : Text} (hs : groupsClosed (items d s) = true)
    (h : ∀ i ∈ (items d s).getLast?, ∀ b ∈ t.head?, i.takes b = false) :
    items d (s ++ t) = items d s ++ items d t := by
  have hlex : lexemes d (s ++ t) = lexemes d s ++ lexemes d t := by
    refine lexemes_append fun i hi b hb => ?_
    rw [getLast?_lexemes_of_nest hs fun i hi => inner?_of_mem_lexemes hi] at hi
    obtain ⟨j, hj, rfl⟩ := Option.map_eq_some_iff.mp hi
    have hj := h j hj b hb
    cases j with
    | group inner closed => rfl
    | byte b' => exact hj
    | quoted t => exact hj
    | comment t => exact hj
  rw [items, hlex, nest_append hs]
  rfl

end Text

end NameServerConf
