import NameServerConf.Proofs.Lexemes

/-!
# What stands inside and outside quotation marks

What a string is and what a comment is can be said without a reader that goes through the text byte by
byte.  Between the quotation marks of a string, a quotation mark or a backslash stands only behind a
backslash; up to the end of a block comment there is no other asterisk with a slash behind it.  A string
or comment that does not end is the last thing in its text.

**Each piece.**  The readers of strings and comments find these pieces and no others:
`splitQuoted_eq_iff`, `splitBlockComment_eq_iff`, `splitComment?_eq_some_iff`.

**The whole text.**  A list of items `Scans` a text if the text is made up of them, each ends where it
has to, and a single byte begins neither a string nor a comment.  Every text has one such list, its
lexemes: `lexemes_eq_iff`.
-/

namespace NameServerConf.Text

/-- What can stand between quotation marks: a quotation mark or a backslash only behind a backslash. -/
inductive Unquoted : Text → Prop
  | nil : Unquoted []
  | plain {b : UInt8} {t : Text} (hquote : b ≠ Byte.quote) (hbackslash : b ≠ Byte.backslash)
      (ht : Unquoted t) : Unquoted (b :: t)
  | escaped (b : UInt8) {t : Text} (ht : Unquoted t) : Unquoted (Byte.backslash :: b :: t)

/-- What stands behind an opening quotation mark up to the end of the string, and what stands behind
    that.  Where the closing quotation mark is missing, the string reaches to the end of the text, even
    if the last byte is a backslash with nothing behind it. -/
inductive EndsString : Text → Text → Prop
  | closed {t : Text} (ht : Unquoted t) (rest : Text) : EndsString (t ++ [Byte.quote]) rest
  | unclosed {t : Text} (ht : Unquoted t) : EndsString t []
  | unclosedBackslash {t : Text} (ht : Unquoted t) : EndsString (t ++ [Byte.backslash]) []

/-- Where a block comment ends: an asterisk and a slash. -/
abbrev blockEnd : Text := [Byte.star, Byte.slash]

/-- What stands behind the beginning of a block comment up to its end, and what stands behind that. -/
inductive EndsBlock : Text → Text → Prop
  | closed {t : Text} (ht : ¬ blockEnd <:+: t ++ [Byte.star]) (rest : Text) :
      EndsBlock (t ++ blockEnd) rest
  | unclosed {t : Text} (ht : ¬ blockEnd <:+: t) : EndsBlock t []

/-- What stands up to the end of a line, and the rest, which begins with the line feed if there is
    one. -/
def EndsLine (t rest : Text) : Prop :=
  Byte.newline ∉ t ∧ (rest = [] ∨ rest.head? = some Byte.newline)

/-- A comment, and what stands behind it. -/
inductive IsComment : Text → Text → Prop
  | hash {t rest : Text} (ht : EndsLine t rest) : IsComment (Byte.hash :: t) rest
  | slashes {t rest : Text} (ht : EndsLine t rest) :
      IsComment (Byte.slash :: Byte.slash :: t) rest
  | block {t rest : Text} (ht : EndsBlock t rest) : IsComment (Byte.slash :: Byte.star :: t) rest

/-- The text begins as a comment does. -/
def BeginsComment (s : Text) : Prop :=
  [Byte.hash] <+: s ∨ [Byte.slash, Byte.slash] <+: s ∨ [Byte.slash, Byte.star] <+: s

/-- The items make up the text one after the other: strings, comments, and single bytes that begin
    neither.  A value has no comments. -/
inductive Scans (d : Dialect) : List Item → Text → Prop
  | nil : Scans d [] []
  | quoted {t rest : Text} {is : List Item} (ht : EndsString t rest) (hrest : Scans d is rest) :
      Scans d (.quoted (Byte.quote :: t) :: is) (Byte.quote :: t ++ rest)
  | comment {t rest : Text} {is : List Item} (hd : d = .file) (ht : IsComment t rest)
      (hrest : Scans d is rest) : Scans d (.comment t :: is) (t ++ rest)
  | byte {b : UInt8} {rest : Text} {is : List Item} (hquote : b ≠ Byte.quote)
      (hcomment : d = .file → ¬ BeginsComment (b :: rest)) (hrest : Scans d is rest) :
      Scans d (.byte b :: is) (b :: rest)

variable {s t rest : Text} {b : UInt8}

/-! ## Strings -/

lemma EndsString.plain (hquote : b ≠ Byte.quote) (hbackslash : b ≠ Byte.backslash)
    (h : EndsString t rest) : EndsString (b :: t) rest := by
  cases h with
  | closed ht => exact .closed (.plain hquote hbackslash ht) rest
  | unclosed ht => exact .unclosed (.plain hquote hbackslash ht)
  | unclosedBackslash ht => exact .unclosedBackslash (.plain hquote hbackslash ht)

lemma EndsString.escaped (b : UInt8) (h : EndsString t rest) :
    EndsString (Byte.backslash :: b :: t) rest := by
  cases h with
  | closed ht => exact .closed (.escaped b ht) rest
  | unclosed ht => exact .unclosed (.escaped b ht)
  | unclosedBackslash ht => exact .unclosedBackslash (.escaped b ht)

lemma endsString_splitQuoted (s : Text) : EndsString (splitQuoted s).1 (splitQuoted s).2 := by
  fun_induction splitQuoted s with
  | case1 => exact .unclosed .nil
  | case2 b =>
      by_cases hquote : b = Byte.quote
      · subst hquote
        exact .closed .nil []
      · by_cases hbackslash : b = Byte.backslash
        · subst hbackslash
          exact .unclosedBackslash .nil
        · exact .unclosed (.plain hquote hbackslash .nil)
  | case3 c r => exact .closed .nil (c :: r)
  | case4 c r inside rest h _ ih =>
      rw [h] at ih
      exact ih.escaped c
  | case5 b c r hquote hbackslash inside rest h ih =>
      rw [h] at ih
      exact ih.plain hquote hbackslash

/-- What can stand between quotation marks does not end the string. -/
lemma splitQuoted_unquoted_append (h : Unquoted t) (s : Text) :
    splitQuoted (t ++ s) = (t ++ (splitQuoted s).1, (splitQuoted s).2) := by
  induction h with
  | nil => rfl
  | @plain b t hquote hbackslash _ ih =>
      rw [List.cons_append]
      cases hts : t ++ s with
      | nil =>
          obtain ⟨rfl, rfl⟩ := List.append_eq_nil_iff.mp hts
          rfl
      | cons c r => rw [splitQuoted, if_neg hquote, if_neg hbackslash, ← hts, ih, List.cons_append]
  | escaped b _ ih =>
      rw [List.cons_append, List.cons_append, splitQuoted, if_neg (by decide), if_pos rfl, ih,
        List.cons_append, List.cons_append]

/-- **The end of a string** is where the reader finds it. -/
theorem splitQuoted_eq_iff : splitQuoted s = (t, rest) ↔ s = t ++ rest ∧ EndsString t rest := by
  constructor
  · intro h
    have happend := splitQuoted_append s
    have hends := endsString_splitQuoted s
    rw [h] at happend hends
    exact ⟨happend.symm, hends⟩
  · rintro ⟨rfl, h⟩
    cases h with
    | closed ht =>
        rw [List.append_assoc, splitQuoted_unquoted_append ht]
        cases rest <;> rfl
    | unclosed ht => rw [splitQuoted_unquoted_append ht, splitQuoted, List.append_nil]
    | unclosedBackslash ht => rw [List.append_nil, splitQuoted_unquoted_append ht, splitQuoted]

/-! ## Comments -/

lemma blockEnd_infix_cons :
    blockEnd <:+: b :: t ↔ (b = Byte.star ∧ t.head? = some Byte.slash) ∨ blockEnd <:+: t := by
  rw [List.infix_cons_iff, List.cons_prefix_cons]
  refine or_congr_left (and_congr eq_comm ?_)
  cases t with
  | nil => simp
  | cons c t => simp [List.cons_prefix_cons, eq_comm]

lemma EndsBlock.cons (h : EndsBlock t rest)
    (hb : ¬ (b = Byte.star ∧ (t ++ rest).head? = some Byte.slash)) : EndsBlock (b :: t) rest := by
  cases h with
  | @closed t ht =>
      refine .closed (t := b :: t) (fun hend => ?_) rest
      rw [List.cons_append, blockEnd_infix_cons] at hend
      rcases hend with ⟨hstar, hslash⟩ | hend
      · refine hb ⟨hstar, ?_⟩
        cases t with
        | nil => cases hslash
        | cons c t => exact hslash
      · exact ht hend
  | unclosed ht =>
      refine .unclosed fun hend => ?_
      rw [List.append_nil] at hb
      exact (blockEnd_infix_cons.mp hend).elim hb ht

lemma endsBlock_splitBlockComment (s : Text) :
    EndsBlock (splitBlockComment s).1 (splitBlockComment s).2 := by
  fun_induction splitBlockComment s with
  | case1 => exact .unclosed (by simp)
  | case2 b => exact .unclosed (by simp [blockEnd_infix_cons])
  | case3 b c r h =>
      obtain ⟨rfl, rfl⟩ : b = Byte.star ∧ c = Byte.slash := by simpa using h
      exact .closed (t := []) (by simp [blockEnd_infix_cons]) r
  | case4 b c r hend inside rest h ih =>
      have happend := splitBlockComment_append (c :: r)
      rw [h] at ih happend
      refine ih.cons fun hb => hend ?_
      rw [happend] at hb
      simpa using hb

/-- What holds no end of a block comment, not even with the next byte, does not end it. -/
lemma splitBlockComment_open_append (h : ¬ blockEnd <:+: t ++ s.take 1) :
    splitBlockComment (t ++ s) = (t ++ (splitBlockComment s).1, (splitBlockComment s).2) := by
  induction t with
  | nil => rfl
  | cons b t ih =>
      rw [List.cons_append, blockEnd_infix_cons, not_or] at h
      rw [List.cons_append]
      cases hts : t ++ s with
      | nil =>
          obtain ⟨rfl, rfl⟩ := List.append_eq_nil_iff.mp hts
          rfl
      | cons c r =>
          have hhead : (t ++ s.take 1).head? = (t ++ s).head? := by cases t <;> cases s <;> rfl
          have hend : ¬ (decide (b = Byte.star) && decide (c = Byte.slash)) = true := by
            rw [Bool.and_eq_true, decide_eq_true_eq, decide_eq_true_eq]
            rintro ⟨hb, rfl⟩
            exact h.1 ⟨hb, by rw [hhead, hts, List.head?_cons]⟩
          rw [splitBlockComment, if_neg hend, ← hts, ih h.2, List.cons_append]

/-- **The end of a block comment** is where the reader finds it. -/
theorem splitBlockComment_eq_iff :
    splitBlockComment s = (t, rest) ↔ s = t ++ rest ∧ EndsBlock t rest := by
  constructor
  · intro h
    have happend := splitBlockComment_append s
    have hends := endsBlock_splitBlockComment s
    rw [h] at happend hends
    exact ⟨happend.symm, hends⟩
  · rintro ⟨rfl, h⟩
    cases h with
    | closed ht =>
        rw [List.append_assoc, splitBlockComment_open_append ht]
        rfl
    | unclosed ht =>
        have hshort : ¬ blockEnd <:+: t ++ List.take 1 [] := by simpa using ht
        rw [splitBlockComment_open_append hshort, splitBlockComment, List.append_nil]

lemma endsLine_takeWhile (s : Text) :
    EndsLine (s.takeWhile (· ≠ Byte.newline)) (s.dropWhile (· ≠ Byte.newline)) :=
  ⟨fun h => by simpa using List.mem_takeWhile_imp h, head?_dropWhile_line s⟩

lemma takeWhile_line_eq_iff :
    (s.takeWhile (· ≠ Byte.newline), s.dropWhile (· ≠ Byte.newline)) = (t, rest) ↔
      s = t ++ rest ∧ EndsLine t rest := by
  constructor
  · intro h
    obtain ⟨rfl, rfl⟩ := Prod.mk.inj h
    exact ⟨List.takeWhile_append_dropWhile.symm, endsLine_takeWhile s⟩
  · rintro ⟨rfl, hline, hrest⟩
    have hagain := takeWhile_line_again (fun b hb h => hline (h ▸ hb)) hrest
    exact Prod.ext hagain.1 hagain.2

lemma isComment_of_splitComment? (h : splitComment? s = some (t, rest)) : IsComment t rest := by
  unfold splitComment? at h
  split at h
  · cases h
  next b r =>
  split at h
  next hhash =>
    subst hhash
    obtain ⟨rfl, rfl⟩ := Prod.mk.inj (Option.some.inj h)
    exact .hash (endsLine_takeWhile r)
  next =>
  split at h
  next hslash =>
    subst hslash
    split at h
    · cases h
    next c r =>
    split at h
    next hslash =>
      subst hslash
      obtain ⟨rfl, rfl⟩ := Prod.mk.inj (Option.some.inj h)
      exact .slashes (endsLine_takeWhile r)
    next =>
    split at h
    next hstar =>
      subst hstar
      obtain ⟨rfl, rfl⟩ := Prod.mk.inj (Option.some.inj h)
      exact .block (endsBlock_splitBlockComment r)
    · cases h
  · cases h

/-- **A comment** is what the reader takes for one. -/
theorem splitComment?_eq_some_iff :
    splitComment? s = some (t, rest) ↔ s = t ++ rest ∧ IsComment t rest := by
  constructor
  · exact fun h => ⟨(append_of_splitComment? h).symm, isComment_of_splitComment? h⟩
  · rintro ⟨rfl, h⟩
    cases h with
    | hash ht =>
        obtain ⟨h₁, h₂⟩ := Prod.mk.inj (takeWhile_line_eq_iff.mpr ⟨rfl, ht⟩)
        rw [List.cons_append, splitComment?_hash, h₁, h₂]
    | slashes ht =>
        obtain ⟨h₁, h₂⟩ := Prod.mk.inj (takeWhile_line_eq_iff.mpr ⟨rfl, ht⟩)
        rw [List.cons_append, List.cons_append, splitComment?_slashes, h₁, h₂]
    | block ht =>
        rw [List.cons_append, List.cons_append, splitComment?_block,
          splitBlockComment_eq_iff.mpr ⟨rfl, ht⟩]

/-- A comment does not begin as a string does. -/
lemma IsComment.exists_append_eq_cons (h : IsComment t rest) :
    ∃ b u, t ++ rest = b :: u ∧ b ≠ Byte.quote := by
  cases h <;> exact ⟨_, _, rfl, by decide⟩

lemma splitComment?_eq_none_iff_not_begins :
    splitComment? (b :: t) = none ↔ ¬ BeginsComment (b :: t) := by
  have hhead (c : UInt8) : [c] <+: t ↔ t.head? = some c := by
    cases t with
    | nil => simp
    | cons a t => simp [List.cons_prefix_cons, eq_comm]
  rw [splitComment?_eq_none_iff, BeginsComment, List.cons_prefix_cons, List.cons_prefix_cons,
    List.cons_prefix_cons, hhead, hhead, ← and_or_left, not_or]
  refine and_congr (by simp [eq_comm]) ?_
  rw [not_and, not_or, eq_comm]

/-! ## Lexemes -/

/-- The lexemes of a text scan it. -/
lemma scans_lexemes (d : Dialect) (s : Text) : Scans d (lexemes d s) s := by
  fun_induction lexemes d s with
  | case1 => exact .nil
  | case2 r ih =>
      have hscans := Scans.quoted (endsString_splitQuoted r) ih
      rwa [List.cons_append, splitQuoted_append] at hscans
  | case3 b r _ t rest h ih =>
      cases d with
      | value => cases h
      | file =>
          have hfile : splitComment? (b :: r) = some (t, rest) := h
          rw [← append_of_splitComment? hfile]
          exact .comment rfl (isComment_of_splitComment? hfile) ih
  | case4 b r hquote h ih =>
      refine .byte hquote ?_ ih
      rintro rfl
      exact splitComment?_eq_none_iff_not_begins.mp h

/-- What scans a text is its lexemes. -/
lemma Scans.lexemes_eq {d : Dialect} {is : List Item} (h : Scans d is s) : lexemes d s = is := by
  induction h with
  | nil => rw [lexemes]
  | quoted ht _ ih =>
      rw [List.cons_append, lexemes, if_pos rfl, splitQuoted_eq_iff.mpr ⟨rfl, ht⟩, ih]
  | @comment t rest is hd ht _ ih =>
      subst hd
      have hsplit : Dialect.splitComment? .file (t ++ rest) = some (t, rest) :=
        splitComment?_eq_some_iff.mpr ⟨rfl, ht⟩
      obtain ⟨b, u, hu, hquote⟩ := ht.exists_append_eq_cons
      rw [hu] at hsplit ⊢
      rw [lexemes_cons_of_some hquote hsplit, ih]
  | @byte b rest is hquote hcomment _ ih =>
      have hnone : Dialect.splitComment? d (b :: rest) = none := by
        cases d with
        | value => rfl
        | file => exact splitComment?_eq_none_iff_not_begins.mpr (hcomment rfl)
      rw [lexemes_cons_of_none hquote hnone, ih]

/-- **The lexemes of a text** are the strings, the comments and the bytes outside of them. -/
theorem lexemes_eq_iff {d : Dialect} {is : List Item} : lexemes d s = is ↔ Scans d is s :=
  ⟨fun h => h ▸ scans_lexemes d s, Scans.lexemes_eq⟩

end NameServerConf.Text
