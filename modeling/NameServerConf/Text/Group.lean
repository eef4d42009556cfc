import NameServerConf.Text.Item

/-!
# Lists in braces, and tokens

The text of a value has lost its comments.  It is taken apart in two ways: into the *parts* of a
list, which semicolons separate, and into *tokens*, which are words, quoted strings and whole
brace groups.  Separators inside quotation marks or inner braces do not count for either.

`joined` writes a list; each part is followed by a semicolon.
-/

namespace NameServerConf.Text

/-! ## Parts of a list -/

/-- The lists of items between the separators, empty ones included. -/
def splitItems (sep : Item → Bool) : List Item → List (List Item)
  | [] => [[]]
  | i :: is =>
    match splitItems sep is with
    | [] => [[i]]
    | part :: parts => if sep i then [] :: part :: parts else (i :: part) :: parts

/-- A separator: the byte `sep` where it stands for itself.  A closing brace never does. -/
def isSeparator (sep : UInt8) : Item → Bool := Item.isByte (fun b => b = sep && b ≠ Byte.closeBrace)

/-- The parts of a list between the separators, trimmed, without the empty ones. -/
def partsAt (sep : UInt8) (s : Text) : List Text :=
  ((splitItems (isSeparator sep) (items .value s)).map (fun part => trim (ofItems part))).filter (· ≠ [])

/-- The parts of a list, which semicolons separate. -/
def parts (s : Text) : List Text := partsAt Byte.semicolon s

/-! ## Braces around a list -/

/-- What the braces enclose if the text is one brace group, closed or not, blanks aside.  Any other
    text is only trimmed. -/
def stripBraces (s : Text) : Text :=
  match items .value (trim s) with
  | [.group inner _] => trim inner
  | _ => trim s

/-- A text that starts like a group in braces, perhaps negated, and is not one complete group. -/
def isBrokenGroup (s : Text) : Bool :=
  let t := match trim s with
    | b :: r => if b = Byte.bang then trimLeft r else b :: r
    | [] => []
  match items .value t with
  | [.group _ closed] => !closed
  | .group _ _ :: _ => true
  | _ => false

/-- The text before the first brace group, and the text from that group on. -/
def splitAtGroup (s : Text) : Text × Text :=
  (ofItems ((items .value s).takeWhile (!·.isGroup)), ofItems ((items .value s).dropWhile (!·.isGroup)))

/-- A list in braces: each part is followed by a semicolon. -/
def joined (parts : List Text) : Text :=
  Byte.openBrace :: Byte.space ::
    parts.flatMap (fun part => part ++ [Byte.semicolon, Byte.space]) ++ [Byte.closeBrace]

/-! ## Tokens -/

/-- A byte inside a word. -/
def isWordItem : Item → Bool := Item.isByte (!Byte.isBlank ·)

/-- The words, quoted strings and groups among some items. -/
def tokensOf (is : List Item) : List Text :=
  match is with
  | [] => []
  | i :: rest =>
    if i.isByte Byte.isBlank then tokensOf rest
    else if isWordItem i then
      ofItems (i :: rest.takeWhile isWordItem) :: tokensOf (rest.dropWhile isWordItem)
    else i.text :: tokensOf rest
termination_by is.length
decreasing_by
  · simp
  · have := (List.dropWhile_suffix (l := rest) isWordItem).length_le
    simp only [List.length_cons]
    omega
  · simp

/-- The words, quoted strings and groups of a text. -/
def tokens (s : Text) : List Text := tokensOf (items .value s)

/-! ## Parts are short

A part of a list is no longer than the list.  Lists of lists end because of this: each level takes
off a pair of braces. -/

/-- The lengths of some texts, added up. -/
def totalLength : List Text → Nat
  | [] => 0
  | s :: l => s.length + totalLength l

theorem totalLength_splitItems_le (sep : Item → Bool) (is : List Item) :
    totalLength ((splitItems sep is).map ofItems) ≤ (ofItems is).length := by
  induction is with
  | nil => simp [splitItems, totalLength]
  | cons i is ih =>
    simp only [splitItems]
    generalize splitItems sep is = l at ih
    cases l with
    | nil => simp [totalLength]
    | cons part parts =>
      simp only [List.map_cons, totalLength, ofItems_cons, List.length_append] at ih ⊢
      split
      · simp only [List.map_cons, totalLength, ofItems_nil, List.length_nil]
        omega
      · simp only [List.map_cons, totalLength, ofItems_cons, List.length_append]
        omega

theorem totalLength_filter_le (p : Text → Bool) (l : List Text) :
    totalLength (l.filter p) ≤ totalLength l := by
  induction l with
  | nil => simp
  | cons a l ih =>
    by_cases h : p a <;> simp only [List.filter_cons, h, if_true, totalLength]
    · omega
    · simp only [Bool.false_eq_true, if_false]
      omega

/-- All parts together are no longer than the list. -/
theorem totalLength_parts_le (s : Text) : totalLength (parts s) ≤ s.length := by
  refine Nat.le_trans (totalLength_filter_le _ _) ?_
  have h := totalLength_splitItems_le (isSeparator Byte.semicolon) (items .value s)
  rw [ofItems_items] at h
  refine Nat.le_trans ?_ h
  generalize splitItems (isSeparator Byte.semicolon) (items .value s) = l
  induction l with
  | nil => simp
  | cons part l ih =>
    have := length_trim_le (ofItems part)
    simp only [List.map_cons, totalLength]
    omega

end NameServerConf.Text
