import NameServerConf.Proofs.Values

/-!
# Lists, tokens and strings

**Lists in braces.**  A list of values in braces is a value, and its parts are what it was made of
(`parts_joined`), with the braces and without them.

**Tokens.**  Values with blanks between them have their tokens one after the other
(`tokens_phrase`); a bare word, a string and a list in braces are one token each.

**Strings.**  What was put between quotation marks is found there again.
-/

namespace NameServerConf

namespace Text

/-! ## Lists in braces -/

/-- The inside of a list: each part is followed by a semicolon and a space. -/
def listed (parts : List Text) : Text :=
  parts.flatMap fun part => part ++ [Byte.semicolon, Byte.space]

/-- The lexemes of the inside of a list. -/
def listedLexemes (parts : List Text) : List Item :=
  parts.flatMap fun part => lexemes .value part ++ [.byte Byte.semicolon, .byte Byte.space]

lemma joined_eq (parts : List Text) :
    joined parts = Byte.openBrace :: (Byte.space :: listed parts) ++ [Byte.closeBrace] := rfl

section Lists

variable {l : List Text}

lemma lexemes_listed {d : Dialect} (h : ∀ p ∈ l, IsPart d p) (t : Text) :
    lexemes d (listed l ++ t) = listedLexemes l ++ lexemes d t := by
  induction l with
  | nil => rfl
  | cons p l ih =>
      have hp := h p (List.mem_cons_self ..)
      show lexemes d (p ++ [Byte.semicolon, Byte.space] ++ listed l ++ t) =
        lexemes .value p ++ [.byte Byte.semicolon, .byte Byte.space] ++ listedLexemes l ++ _
      simp only [List.append_assoc, List.cons_append, List.nil_append]
      rw [hp.lexemes_append (startsSoft_semicolon _), lexemes_cons_of_single rfl,
        lexemes_cons_of_single rfl, ih fun q hq => h q (List.mem_cons_of_mem _ hq)]

lemma isBalanced_listed {d : Dialect} (h : ∀ p ∈ l, IsPart d p) :
    isBalanced (listedLexemes l) = true := by
  induction l with
  | nil => rw [listedLexemes, List.flatMap_nil, isBalanced, nest]; rfl
  | cons p l ih =>
      rw [listedLexemes, List.flatMap_cons, ← listedLexemes]
      refine isBalanced_append (isBalanced_append
        (isBalanced_of_inner (h p (List.mem_cons_self ..)).inner) ?_)
        (ih fun q hq => h q (List.mem_cons_of_mem _ hq))
      rw [isBalanced, nest_cons_of_ne (by decide), nest_cons_of_ne (by decide), nest]
      rfl

lemma isSpaced_listed (h : ∀ p ∈ l, IsValue p) {ls : List Item} (hls : isSpaced true ls = true) :
    isSpaced true (listedLexemes l ++ ls) = true := by
  induction l with
  | nil => exact hls
  | cons p l ih =>
      rw [listedLexemes, List.flatMap_cons, ← listedLexemes, List.append_assoc, List.append_assoc]
      refine isSpaced_append (h p (List.mem_cons_self ..)).isSpaced ?_
      rw [List.cons_append, isSpaced_cons (by decide), List.cons_append, isSpaced_space_cons]
      exact ih fun q hq => h q (List.mem_cons_of_mem _ hq)

lemma ofItems_listedLexemes (l : List Text) : ofItems (listedLexemes l) = listed l := by
  induction l with
  | nil => rfl
  | cons p l ih =>
      show ofItems (lexemes .value p ++ [.byte Byte.semicolon, .byte Byte.space] ++
        listedLexemes l) = p ++ [Byte.semicolon, Byte.space] ++ listed l
      rw [ofItems_append, ofItems_append, ofItems_lexemes, ih]
      rfl

lemma lexemes_openBrace (d : Dialect) (t : Text) :
    lexemes d (Byte.openBrace :: t) = .byte Byte.openBrace :: lexemes d t :=
  lexemes_cons_of_none (by decide) (by cases d <;> rfl)

lemma lexemes_joined {d : Dialect} (h : ∀ p ∈ l, IsPart d p) (t : Text) :
    lexemes d (joined l ++ t) = .byte Byte.openBrace :: (.byte Byte.space :: listedLexemes l) ++
      .byte Byte.closeBrace :: lexemes d t := by
  rw [joined_eq, List.append_assoc, List.cons_append, List.cons_append, List.singleton_append,
    lexemes_openBrace, lexemes_cons_of_single rfl, lexemes_listed h, lexemes_cons_of_single rfl]
  rfl

lemma items_joined_append {d : Dialect} (h : ∀ p ∈ l, IsPart d p) (t : Text) :
    items d (joined l ++ t) = .group (Byte.space :: listed l) true :: items d t := by
  have hbalanced : isBalanced (.byte Byte.space :: listedLexemes l) = true := by
    have hspace : isBalanced [.byte Byte.space] = true := by
      rw [isBalanced, nest_cons_of_ne (by decide), nest]
      rfl
    exact isBalanced_append hspace (isBalanced_listed h)
  rw [items, lexemes_joined h, nest_braces hbalanced, ofItems_cons, ofItems_listedLexemes]
  rfl

/-- A list in braces is one group. -/
lemma items_joined {d : Dialect} (h : ∀ p ∈ l, IsPart d p) :
    items d (joined l) = [.group (Byte.space :: listed l) true] := by
  have hitems := items_joined_append h []
  rwa [List.append_nil, items_nil] at hitems

/-- A list in braces has no blanks around it. -/
lemma trim_joined (l : List Text) : trim (joined l) = joined l := by
  refine trim_eq_self (fun b hb => Option.some.inj hb ▸ rfl) ?_
  rw [joined_eq, List.getLast?_concat]
  exact fun b hb => Option.some.inj hb ▸ rfl

/-- A list in braces is a part of a list. -/
lemma isPart_joined {d : Dialect} (h : ∀ p ∈ l, IsPart d p) : IsPart d (joined l) := by
  have hvalue := fun p hp => (h p hp).value
  have hlex := lexemes_joined h []
  have hlex' := lexemes_joined hvalue []
  rw [List.append_nil, lexemes.eq_1] at hlex hlex'
  refine ⟨List.cons_ne_nil _ _, hlex.trans hlex'.symm, ?_, ?_, ?_⟩
  · rw [items_joined hvalue]
    rfl
  · exact fun b hb => Option.some.inj hb ▸ rfl
  · rw [joined_eq, List.getLast?_concat]
    exact fun b hb => Option.some.inj hb ▸ rfl

/-- A list in braces is a value. -/
lemma isValue_joined (h : ∀ p ∈ l, IsValue p) : IsValue (joined l) := by
  have hlex : ∀ d, lexemes d (joined l) = .byte Byte.openBrace ::
      (.byte Byte.space :: listedLexemes l) ++ [.byte Byte.closeBrace] := by
    intro d
    have hlex := lexemes_joined (isPart_of_isValue h d) []
    rwa [List.append_nil, lexemes.eq_1] at hlex
  refine IsValue.of_lexemes (by simp) hlex ?_ ?_
  · rw [← hlex .value, ← items, items_joined (isPart_of_isValue h .value)]
    rfl
  · rw [List.cons_append, isSpaced_cons (by decide), List.cons_append, isSpaced_space_cons]
    exact isSpaced_listed h rfl

/-! ### The inside of a list -/

/-- The inside of a list without the blanks around it. -/
def listText (parts : List Text) : Text :=
  join [Byte.space] (parts.map (· ++ [Byte.semicolon]))

lemma listText_cons_cons (p q : Text) (l : List Text) :
    listText (p :: q :: l) = p ++ Byte.semicolon :: Byte.space :: listText (q :: l) := by
  simp [listText, join]

lemma listed_eq (hne : l ≠ []) : listed l = listText l ++ [Byte.space] := by
  induction l with
  | nil => exact absurd rfl hne
  | cons p l ih =>
      cases l with
      | nil => simp [listed, listText, join]
      | cons q l =>
          show p ++ [Byte.semicolon, Byte.space] ++ listed (q :: l) = _
          rw [ih (List.cons_ne_nil q l), listText_cons_cons]
          simp

lemma getLast?_listText (hne : l ≠ []) : (listText l).getLast? = some Byte.semicolon := by
  induction l with
  | nil => exact absurd rfl hne
  | cons p l ih =>
      cases l with
      | nil => simp [listText, join]
      | cons q l =>
          rw [listText_cons_cons, List.getLast?_append, List.getLast?_cons, List.getLast?_cons,
            ih (List.cons_ne_nil q l)]
          rfl

lemma head?_listText (h : ∀ p ∈ l, IsPart .value p) :
    ∀ b ∈ (listText l).head?, Byte.isBlank b = false := by
  cases l with
  | nil => exact fun b hb => by cases hb
  | cons p l =>
      have hp := h p (List.mem_cons_self ..)
      have hhead : (listText (p :: l)).head? = p.head? := by
        cases hb : p with
        | nil => exact absurd hb hp.ne_nil
        | cons b r => cases l <;> simp [listText, join]
      rw [hhead]
      exact hp.head?_isBlank

lemma trim_listText (h : ∀ p ∈ l, IsPart .value p) : trim (listText l) = listText l := by
  refine trim_eq_self (head?_listText h) ?_
  by_cases hne : l = []
  · subst hne
    exact fun b hb => by cases hb
  · rw [getLast?_listText hne]
    exact fun b hb => (Option.some.inj hb) ▸ rfl

lemma trim_space_listed (h : ∀ p ∈ l, IsPart .value p) : trim (Byte.space :: listed l) = listText l := by
  by_cases hne : l = []
  · subst hne
    rfl
  · rw [trim_space_cons, listed_eq hne, trim, strip, dropWhile_eq_self, dropRight_concat rfl]
    · have htrim := trim_listText h
      rwa [trim, strip, dropWhile_eq_self (head?_listText h)] at htrim
    · cases hl : listText l with
      | nil =>
          have hlast := getLast?_listText hne
          rw [hl] at hlast
          cases hlast
      | cons b r =>
          have hhead := head?_listText h
          rw [hl] at hhead
          exact hhead

/-- Without braces and in canonical spacing, the inside of a list is its text. -/
lemma squeeze_listed (h : ∀ p ∈ l, IsValue p) (started gap : Bool) :
    squeeze started gap (listedLexemes l) =
      if l = [] then [] else (if started && gap then [Byte.space] else []) ++ listText l := by
  induction l generalizing started gap with
  | nil => rfl
  | cons p l ih =>
      have hp := (squeeze_append (h p (List.mem_cons_self ..)).isSpaced
        (.byte Byte.semicolon :: .byte Byte.space :: listedLexemes l)).2 rfl started gap
      have hrest : squeeze true false
          (.byte Byte.semicolon :: .byte Byte.space :: listedLexemes l) =
            Byte.semicolon :: squeeze true true (listedLexemes l) := rfl
      have hcons : listedLexemes (p :: l) = lexemes .value p ++
          .byte Byte.semicolon :: .byte Byte.space :: listedLexemes l := by
        simp [listedLexemes]
      rw [hcons, hp, hrest, ih (fun q hq => h q (List.mem_cons_of_mem _ hq)), ofItems_lexemes,
        if_neg (List.cons_ne_nil p l)]
      cases l with
      | nil => simp [listText, join]
      | cons q l =>
          rw [if_neg (List.cons_ne_nil q l), listText_cons_cons]
          simp

/-- Without comments there is nothing to take out but blanks. -/
lemma normalize_eq_collapse {s : Text} (h : lexemes .file s = lexemes .value s) :
    normalize s = collapse s := by
  have hstrip : stripComments s = s := by
    have htext := ofItems_lexemes .value s
    rw [stripComments, h]
    refine Eq.trans (List.flatMap_congr fun i hi => ?_) htext
    rcases of_mem_lexemes_value hi with ⟨b, rfl⟩ | ⟨t, rfl⟩ <;> rfl
  rw [normalize, hstrip]

/-- The inside of a list in canonical spacing. -/
lemma normalize_space_listed (h : ∀ p ∈ l, IsValue p) :
    normalize (Byte.space :: listed l) = listText l := by
  have hlex : ∀ d, lexemes d (Byte.space :: listed l) =
      .byte Byte.space :: listedLexemes l := by
    intro d
    have hlisted := lexemes_listed (isPart_of_isValue h d) []
    rw [List.append_nil, lexemes.eq_1, List.append_nil] at hlisted
    rw [lexemes_cons_of_single rfl, hlisted]
  have hsqueeze : squeeze false false (.byte Byte.space :: listedLexemes l) =
      squeeze false true (listedLexemes l) := rfl
  rw [normalize_eq_collapse ((hlex .file).trans (hlex .value).symm), collapse, hlex, hsqueeze,
    squeeze_listed h]
  by_cases hne : l = []
  · subst hne
    rfl
  · rw [if_neg hne]
    rfl

/-! ### Parts -/

lemma splitItems_append {sep : Item → Bool} {is : List Item} {i : Item}
    (his : ∀ j ∈ is, sep j = false) (hi : sep i = true) (js : List Item) :
    splitItems sep (is ++ i :: js) = is :: splitItems sep js := by
  have hne : ∀ js : List Item, splitItems sep js ≠ [] := by
    intro js
    cases js with
    | nil => exact List.cons_ne_nil _ _
    | cons j js =>
        rw [splitItems]
        split
        · exact List.cons_ne_nil _ _
        · split <;> exact List.cons_ne_nil _ _
  induction is with
  | nil =>
      rw [List.nil_append, splitItems]
      cases hjs : splitItems sep js with
      | nil => exact absurd hjs (hne js)
      | cons part parts => exact if_pos hi
  | cons j is ih =>
      have hj : ¬ sep j = true := by rw [his j (List.mem_cons_self ..)]; exact Bool.false_ne_true
      rw [List.cons_append, splitItems, ih fun k hk => his k (List.mem_cons_of_mem _ hk)]
      exact if_neg hj

/-- Items without a separator are one part. -/
lemma splitItems_eq_singleton {sep : Item → Bool} {is : List Item} (his : ∀ j ∈ is, sep j = false) :
    splitItems sep is = [is] := by
  induction is with
  | nil => rfl
  | cons j is ih =>
      have hj : ¬ sep j = true := by rw [his j (List.mem_cons_self ..)]; exact Bool.false_ne_true
      rw [splitItems, ih fun k hk => his k (List.mem_cons_of_mem _ hk)]
      exact if_neg hj

/-- A part of a list holds no separator. -/
lemma IsPart.isSeparator_eq_false {d : Dialect} {p : Text} (hp : IsPart d p) {i : Item}
    (hi : i ∈ items .value p) : isSeparator Byte.semicolon i = false := by
  have hne := ne_semicolon_of_inner hp.inner hi
  cases i with
  | byte b =>
      have hb : b ≠ Byte.semicolon := fun e => hne (congrArg Item.byte e)
      simp [isSeparator, Item.isByte, hb]
  | quoted u => rfl
  | comment u => rfl
  | group u closed => rfl

/-- The first part of a list is what stands before the first semicolon. -/
lemma parts_append {p : Text} (hp : IsPart .value p) (t : Text) :
    parts (p ++ Byte.semicolon :: t) = p :: parts t := by
  rw [parts, partsAt, hp.items_append (startsSoft_semicolon t), items_cons_of_single rfl,
    splitItems_append (fun i hi => hp.isSeparator_eq_false hi) rfl, List.map_cons, ofItems_items,
    hp.trim_eq, List.filter_cons_of_pos (by simpa using hp.ne_nil), ← partsAt, ← parts]

/-- A blank before a list does not matter. -/
lemma parts_space_cons (t : Text) : parts (Byte.space :: t) = parts t := by
  rw [parts, partsAt, items_cons_of_single rfl, splitItems, parts, partsAt]
  cases splitItems (isSeparator Byte.semicolon) (items .value t) with
  | nil => rfl
  | cons part parts => rfl

lemma parts_nil : parts [] = [] := by
  rw [parts, partsAt, items_nil]
  rfl

/-- **The parts of a list** are what it was made of. -/
lemma parts_listText (h : ∀ p ∈ l, IsPart .value p) : parts (listText l) = l := by
  induction l with
  | nil => exact parts_nil
  | cons p l ih =>
      have hp := h p (List.mem_cons_self ..)
      cases l with
      | nil =>
          show parts (p ++ [Byte.semicolon]) = [p]
          rw [parts_append hp, parts_nil]
      | cons q l =>
          rw [listText_cons_cons, parts_append hp, parts_space_cons,
            ih fun r hr => h r (List.mem_cons_of_mem _ hr)]

/-- A list is the same without its braces. -/
lemma stripBraces_joined (h : ∀ p ∈ l, IsPart .value p) : stripBraces (joined l) = listText l := by
  rw [stripBraces, trim_joined, items_joined h]
  exact trim_space_listed h

lemma items_listText (h : ∀ p ∈ l, IsPart .value p) (hne : l ≠ []) :
    .byte Byte.semicolon ∈ items .value (listText l) := by
  cases l with
  | nil => exact absurd rfl hne
  | cons p l =>
      have hp := h p (List.mem_cons_self ..)
      have hsplit : ∃ t, listText (p :: l) = p ++ Byte.semicolon :: t := by
        cases l with
        | nil => exact ⟨[], rfl⟩
        | cons q l => exact ⟨_, listText_cons_cons p q l⟩
      obtain ⟨t, ht⟩ := hsplit
      rw [ht, hp.items_append (startsSoft_semicolon t), items_cons_of_single rfl]
      simp

/-- What has no braces keeps its text. -/
lemma stripBraces_listText (h : ∀ p ∈ l, IsPart .value p) : stripBraces (listText l) = listText l := by
  rw [stripBraces, trim_listText h]
  split
  next inner closed hitems =>
    by_cases hne : l = []
    · subst hne
      rw [listText, List.map_nil, join, items_nil] at hitems
      cases hitems
    · have hmem := items_listText h hne
      rw [hitems] at hmem
      cases List.mem_singleton.mp hmem
  next => rfl

/-- **The parts of a list in braces** are what it was made of. -/
theorem parts_joined (h : ∀ p ∈ l, IsPart .value p) : parts (stripBraces (joined l)) = l := by
  rw [stripBraces_joined h, parts_listText h]

end Lists

/-! ## Tokens -/

lemma takeWhile_append_cons {p : Item → Bool} {i : Item} (hi : p i = false) (is js : List Item) :
    (is ++ i :: js).takeWhile p = is.takeWhile p ∧
      (is ++ i :: js).dropWhile p = is.dropWhile p ++ i :: js := by
  induction is with
  | nil => simp [hi]
  | cons j is ih =>
      by_cases hj : p j = true
      · simp [hj, ih]
      · simp [hj]

/-- A blank stands between tokens. -/
lemma tokensOf_append {i : Item} (hi : i.isByte Byte.isBlank = true) (is js : List Item) :
    tokensOf (is ++ i :: js) = tokensOf is ++ tokensOf js := by
  have hword : isWordItem i = false := by
    cases i with
    | byte b =>
        show (!Byte.isBlank b) = false
        rw [Bool.not_eq_false']
        exact hi
    | quoted t => rfl
    | comment t => rfl
    | group t closed => rfl
  fun_induction tokensOf is with
  | case1 => rw [List.nil_append, tokensOf, if_pos hi, List.nil_append]
  | case2 k rest hk ih => rw [List.cons_append, tokensOf, if_pos hk, ih]
  | case3 k rest hk hkw ih =>
      obtain ⟨htake, hdrop⟩ := takeWhile_append_cons hword rest js
      rw [List.cons_append, tokensOf, if_neg hk, if_pos hkw, htake, hdrop, ih, List.cons_append]
  | case4 k rest hk hkw ih =>
      rw [List.cons_append, tokensOf, if_neg hk, if_neg hkw, ih, List.cons_append]

lemma tokens_nil : tokens [] = [] := by rw [tokens, items_nil, tokensOf]

lemma tokens_append_space {s : Text} (hs : IsPart .value s) (t : Text) :
    tokens (s ++ Byte.space :: t) = tokens s ++ tokens t := by
  rw [tokens, hs.items_append (startsSoft_space t), items_cons_of_single rfl,
    tokensOf_append rfl, ← tokens, ← tokens]

/-- **The tokens of a phrase** are those of its parts. -/
theorem tokens_phrase {l : List Text} (h : ∀ s ∈ l, IsPart .value s) :
    tokens (phrase l) = l.flatMap tokens := by
  induction l with
  | nil => exact tokens_nil
  | cons s l ih =>
      cases l with
      | nil => rw [List.flatMap_cons, List.flatMap_nil, List.append_nil]; rfl
      | cons t l =>
          rw [phrase_cons_cons, tokens_append_space (h s (List.mem_cons_self ..)),
            ih fun u hu => h u (List.mem_cons_of_mem _ hu)]
          rfl

lemma tokens_of_isCompact {w : Text} (h : w.isCompact = true) : tokens w = [w] := by
  obtain ⟨hne, hbytes⟩ := isCompact_iff.mp h
  rw [tokens, items_of_isCompact h]
  cases w with
  | nil => exact absurd rfl hne
  | cons b w =>
      have hall : ∀ i ∈ w.map Item.byte, isWordItem i = true := by
        intro i hi
        obtain ⟨c, hc, rfl⟩ := List.mem_map.mp hi
        simp [isWordItem, Item.isByte, (hbytes c (List.mem_cons_of_mem _ hc)).1]
      have hb := (hbytes b (List.mem_cons_self ..)).1
      have htake := List.takeWhile_eq_self_iff.mpr hall
      have hdrop := List.dropWhile_eq_nil_iff.mpr hall
      rw [List.map_cons, tokensOf, if_neg (by simp [Item.isByte, hb]),
        if_pos (by simp [isWordItem, Item.isByte, hb]), htake, hdrop, tokensOf, ← List.map_cons,
        ofItems_map_byte]

lemma tokens_quote {s : Text} (h : s.isQuotable = true) : tokens (quote s) = [quote s] := by
  rw [tokens, items_quote h, tokensOf, if_neg (by simp [Item.isByte]),
    if_neg (by simp [isWordItem, Item.isByte]), tokensOf, Item.text]

lemma tokens_joined {l : List Text} (h : ∀ p ∈ l, IsPart .value p) :
    tokens (joined l) = [joined l] := by
  rw [tokens, items_joined h, tokensOf, if_neg (by simp [Item.isByte]),
    if_neg (by simp [isWordItem, Item.isByte]), tokensOf, Item.text, joined_eq]
  rfl

/-! ## What stands before a group -/

/-- A text without brace groups. -/
def noGroups (s : Text) : Bool := (items .value s).all (!·.isGroup)

/-- What begins with a brace begins with a group. -/
lemma exists_items_openBrace (d : Dialect) (t : Text) :
    ∃ inner closed is, items d (Byte.openBrace :: t) = .group inner closed :: is := by
  rw [items, lexemes_openBrace, nest, if_pos rfl]
  split
  · exact ⟨_, _, _, rfl⟩
  · exact ⟨_, _, _, rfl⟩

/-- What begins with a quotation mark begins with a string. -/
lemma exists_items_quote (d : Dialect) (r : Text) :
    ∃ u is, items d (Byte.quote :: r) = .quoted (Byte.quote :: u) :: is := by
  rw [items, lexemes, if_pos rfl, nest_cons_of_ne (by simp)]
  exact ⟨_, _, rfl⟩

lemma splitAtGroup_joined (l : List Text) : splitAtGroup (joined l) = ([], joined l) := by
  obtain ⟨inner, closed, is, hitems⟩ : ∃ inner closed is,
      items .value (joined l) = .group inner closed :: is := exists_items_openBrace .value _
  have htext := ofItems_items .value (joined l)
  rw [hitems] at htext
  rw [splitAtGroup, hitems]
  exact Prod.ext rfl htext

/-- A list in braces is split off from what stands before it. -/
lemma splitAtGroup_append {s : Text} (hs : IsPart .value s) (hgroups : noGroups s = true)
    (l : List Text) : splitAtGroup (s ++ Byte.space :: joined l) = (s ++ [Byte.space], joined l) := by
  have hall : ∀ i ∈ items .value s ++ [.byte Byte.space], (!i.isGroup) = true := by
    intro i hi
    rcases List.mem_append.mp hi with hi | hi
    · exact List.all_eq_true.mp hgroups i hi
    · rw [List.mem_singleton.mp hi]
      rfl
  have hitems : items .value (s ++ Byte.space :: joined l) =
      (items .value s ++ [.byte Byte.space]) ++ items .value (joined l) := by
    rw [hs.items_append (startsSoft_space _), items_cons_of_single rfl, List.append_assoc]
    rfl
  have hjoined := splitAtGroup_joined l
  rw [splitAtGroup, Prod.mk.injEq] at hjoined ⊢
  rw [hitems, List.takeWhile_append_of_pos hall, List.dropWhile_append_of_pos hall,
    ofItems_append, hjoined.1, hjoined.2, List.append_nil, ofItems_append, ofItems_items]
  exact ⟨rfl, rfl⟩

/-! ## Strings -/

/-- What was put between quotation marks is found there again. -/
lemma unquote_quote {s : Text} (h : s.isQuotable = true) : unquote (quote s) = s := by
  have hne : ∀ b ∈ s, (decide (b = Byte.quote)) = false := fun b hb => by
    simpa using (ne_of_isQuotable h hb).1
  have hdrop : (quote s).dropWhile (· = Byte.quote) =
      (s ++ [Byte.quote]).dropWhile (· = Byte.quote) := rfl
  rw [unquote, (isValue_quote h).trim_eq, strip, hdrop]
  cases hs : s with
  | nil => rfl
  | cons b r =>
      rw [hs] at hne
      rw [dropWhile_eq_self fun c hc => (Option.some.inj hc) ▸ hne b (List.mem_cons_self ..),
        dropRight_concat (by simp), dropRight_eq_self fun c hc => hne c (List.mem_of_getLast? hc)]

lemma unquoteOnce_quote {s : Text} (h : s.isQuotable = true) : unquoteOnce (quote s) = s := by
  rw [unquoteOnce, (isValue_quote h).trim_eq]
  cases s with
  | nil => rfl
  | cons b r =>
      have hlast : (b :: (r ++ [Byte.quote])).getLast? = some Byte.quote := by
        rw [← List.cons_append, List.getLast?_concat]
      have hdrop : (b :: (r ++ [Byte.quote])).dropLast = b :: r := by
        rw [← List.cons_append, List.dropLast_concat]
      show (if (decide (Byte.quote = Byte.quote) &&
        decide ((b :: (r ++ [Byte.quote])).getLast? = some Byte.quote)) = true
        then (b :: (r ++ [Byte.quote])).dropLast else _) = b :: r
      rw [if_pos (by simp [hlast]), hdrop]

lemma isValue_of_mem_quotes {l : List Text} (h : ∀ s ∈ l, s.isQuotable = true) :
    ∀ p ∈ l.map quote, IsValue p :=
  List.forall_mem_map.mpr fun s hs => isValue_quote (h s hs)

/-- A list of strings is read as it was written. -/
lemma readStrings_ofStrings {l : List Text} (h : ∀ s ∈ l, s.isQuotable = true) :
    readStrings (ofStrings l) = l := by
  have hparts := isPart_of_isValue (isValue_of_mem_quotes h) .value
  rw [readStrings, ofStrings, parts_joined hparts, List.map_map]
  calc l.map (unquoteOnce ∘ quote) = l.map id :=
        List.map_congr_left fun s hs => unquoteOnce_quote (h s hs)
    _ = l := List.map_id l

end Text

end NameServerConf
