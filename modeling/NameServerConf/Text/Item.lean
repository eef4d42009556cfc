import NameServerConf.Text.Basic

/-!
# The items of a text

Configuration text is read in two steps.  `lexemes` cuts it into quoted strings, comments and
single bytes; `nest` then pairs the braces among the bytes and packs each pair, with all that lies
between, into one item.  After that every question about a text is one about a flat list: where a
statement ends is where the first semicolon stands, since one inside a string, a comment or a
group is not in the list.

* A quoted string reaches to the next quotation mark that no backslash protects, or to the end.
* A comment starts with `#` or two slashes and ends before the line feed, or stands between a slash
  with an asterisk and an asterisk with a slash; an unfinished one reaches to the end.
* A closing brace that closes nothing stays a byte; an unclosed group reaches to the end.

Nothing is lost on the way: `ofItems_lexemes` and `ofItems_items`.
-/

namespace NameServerConf

/-- A piece of text that is read as a whole. -/
inductive Item
  /-- A byte outside quotation marks and comments. -/
  | byte (b : UInt8)
  /-- A quoted string with its quotation marks. -/
  | quoted (text : Text)
  /-- A comment with the bytes that mark it. -/
  | comment (text : Text)
  /-- A brace group: what its braces enclose, and whether there is a closing one. -/
  | group (inner : Text) (closed : Bool)
deriving DecidableEq, Repr

/-- Which comments there are: a file has them, the text of a value has lost them. -/
inductive Dialect
  | file
  | value
deriving DecidableEq, Repr

namespace Item

/-- The bytes of an item. -/
def text : Item → Text
  | .byte b => [b]
  | .quoted t => t
  | .comment t => t
  | .group inner closed => Byte.openBrace :: inner ++ (if closed then [Byte.closeBrace] else [])

/-- A byte of the given kind. -/
def isByte (p : UInt8 → Bool) : Item → Bool
  | .byte b => p b
  | _ => false

/-- What a group encloses. -/
def inner? : Item → Option Text
  | .group inner _ => some inner
  | _ => none

/-- A brace group. -/
def isGroup (i : Item) : Bool := i.inner?.isSome

end Item

namespace Text

/-- The text that a list of items makes up. -/
def ofItems (is : List Item) : Text := is.flatMap Item.text

@[simp] theorem ofItems_nil : ofItems [] = [] := rfl

@[simp] theorem ofItems_cons (i : Item) (is : List Item) :
    ofItems (i :: is) = i.text ++ ofItems is := rfl

@[simp] theorem ofItems_append (is js : List Item) :
    ofItems (is ++ js) = ofItems is ++ ofItems js := List.flatMap_append

/-! ## Strings and comments -/

/-- Splits the text after an opening quotation mark behind the closing one.  A backslash protects
    the byte after it. -/
def splitQuoted : Text → Text × Text
  | [] => ([], [])
  | [b] => ([b], [])
  | b :: c :: r =>
    if b = Byte.quote then ([b], c :: r)
    else if b = Byte.backslash then
      match splitQuoted r with
      | (inside, rest) => (b :: c :: inside, rest)
    else
      match splitQuoted (c :: r) with
      | (inside, rest) => (b :: inside, rest)

/-- Splits the text inside a block comment behind the comment's end. -/
def splitBlockComment : Text → Text × Text
  | [] => ([], [])
  | [b] => ([b], [])
  | b :: c :: r =>
    if b = Byte.star && c = Byte.slash then ([b, c], r)
    else
      match splitBlockComment (c :: r) with
      | (inside, rest) => (b :: inside, rest)

/-- Splits a file text behind the comment that it begins with, if it begins with one. -/
def splitComment? : Text → Option (Text × Text)
  | [] => none
  | b :: r =>
    if b = Byte.hash then some (b :: r.takeWhile (· ≠ Byte.newline), r.dropWhile (· ≠ Byte.newline))
    else if b = Byte.slash then
      match r with
      | [] => none
      | c :: r' =>
        if c = Byte.slash then
          some (b :: c :: r'.takeWhile (· ≠ Byte.newline), r'.dropWhile (· ≠ Byte.newline))
        else if c = Byte.star then
          match splitBlockComment r' with
          | (inside, rest) => some (b :: c :: inside, rest)
        else none
    else none

/-- The comment at the beginning of a text, in the given dialect. -/
def Dialect.splitComment? : Dialect → Text → Option (Text × Text)
  | .file, s => Text.splitComment? s
  | .value, _ => none

theorem splitQuoted_append (s : Text) : (splitQuoted s).1 ++ (splitQuoted s).2 = s := by
  fun_induction splitQuoted s with
  | case1 => rfl
  | case2 => rfl
  | case3 => rfl
  | case4 c r inside rest h _ ih => simpa [h] using ih
  | case5 b c r _ _ inside rest h ih => simpa [h] using ih

theorem splitBlockComment_append (s : Text) :
    (splitBlockComment s).1 ++ (splitBlockComment s).2 = s := by
  fun_induction splitBlockComment s with
  | case1 => rfl
  | case2 => rfl
  | case3 => rfl
  | case4 b c r _ inside rest h ih => simpa [h] using ih

theorem append_of_splitComment? {s c rest : Text} (h : splitComment? s = some (c, rest)) :
    c ++ rest = s := by
  unfold splitComment? at h
  split at h
  · cases h
  next b r =>
  split at h
  · obtain ⟨rfl, rfl⟩ := Prod.mk.inj (Option.some.inj h)
    simp
  split at h
  · split at h
    · cases h
    next c' r' =>
    split at h
    · obtain ⟨rfl, rfl⟩ := Prod.mk.inj (Option.some.inj h)
      simp
    split at h
    · have := splitBlockComment_append r'
      obtain ⟨rfl, rfl⟩ := Prod.mk.inj (Option.some.inj h)
      simpa using this
    · cases h
  · cases h

theorem Dialect.append_of_splitComment? {d : Dialect} {s c rest : Text}
    (h : Dialect.splitComment? d s = some (c, rest)) : c ++ rest = s := by
  cases d with
  | value => cases h
  | file => exact Text.append_of_splitComment? h

/-- A comment is not empty, so reading one makes progress. -/
theorem length_lt_of_splitComment? {d : Dialect} {s c rest : Text}
    (h : Dialect.splitComment? d s = some (c, rest)) : rest.length < s.length := by
  have hne : c ≠ [] := by
    rintro rfl
    cases d with
    | value => cases h
    | file =>
      simp only [Dialect.splitComment?, splitComment?] at h
      repeat' split at h
      all_goals simp at h
  rw [← Dialect.append_of_splitComment? h, List.length_append]
  have := List.length_pos_iff.2 hne
  omega

/-- The quoted strings, comments and single bytes of a text, in order. -/
def lexemes (d : Dialect) (s : Text) : List Item :=
  match s with
  | [] => []
  | b :: r =>
    if b = Byte.quote then .quoted (b :: (splitQuoted r).1) :: lexemes d (splitQuoted r).2
    else
      match _h : Dialect.splitComment? d (b :: r) with
      | some (c, rest) => .comment c :: lexemes d rest
      | none => .byte b :: lexemes d r
termination_by s.length
decreasing_by
  · have := congrArg List.length (splitQuoted_append r)
    simp only [List.length_append] at this
    simp only [List.length_cons]
    omega
  · exact length_lt_of_splitComment? _h
  · simp

/-- Cutting a text into lexemes loses nothing. -/
theorem ofItems_lexemes (d : Dialect) (s : Text) : ofItems (lexemes d s) = s := by
  fun_induction lexemes d s with
  | case1 => rfl
  | case2 r ih => simp [Item.text, ih, splitQuoted_append]
  | case3 b r _ c rest h ih => simpa [Item.text, ih] using Dialect.append_of_splitComment? h
  | case4 b r _ _ ih => simp [Item.text, ih]

/-! ## Braces -/

/-- What stands before and after the brace that closes the group that the lexemes are in, if there is
    such a brace.  There are `depth` more groups to be closed before that. -/
def splitGroup? : Nat → List Item → Option (List Item × List Item)
  | _, [] => none
  | depth, i :: is =>
    if i = .byte Byte.closeBrace then
      match depth with
      | 0 => some ([], is)
      | d + 1 => (splitGroup? d is).map fun (inside, rest) => (i :: inside, rest)
    else
      (splitGroup? (if i = .byte Byte.openBrace then depth + 1 else depth) is).map
        fun (inside, rest) => (i :: inside, rest)

/-- A split takes out one closing brace and nothing else. -/
theorem append_of_splitGroup? {depth : Nat} {is inside rest : List Item}
    (h : splitGroup? depth is = some (inside, rest)) :
    inside ++ .byte Byte.closeBrace :: rest = is := by
  induction is generalizing depth inside with
  | nil => cases h
  | cons i is ih =>
    simp only [splitGroup?] at h
    split at h
    next hi =>
      cases depth with
      | zero =>
        obtain ⟨rfl, rfl⟩ := Prod.mk.inj (Option.some.inj h)
        rw [hi, List.nil_append]
      | succ d =>
        obtain ⟨⟨inside', rest'⟩, h', he⟩ := Option.map_eq_some_iff.1 h
        obtain ⟨rfl, rfl⟩ := Prod.mk.inj he
        rw [List.cons_append, ih h']
    next =>
      obtain ⟨⟨inside', rest'⟩, h', he⟩ := Option.map_eq_some_iff.1 h
      obtain ⟨rfl, rfl⟩ := Prod.mk.inj he
      rw [List.cons_append, ih h']

/-- The items of a list of lexemes, brace groups packed into one each. -/
def nest (is : List Item) : List Item :=
  match is with
  | [] => []
  | i :: rest =>
    if i = .byte Byte.openBrace then
      match _h : splitGroup? 0 rest with
      | some (inside, after) => .group (ofItems inside) true :: nest after
      | none => [.group (ofItems rest) false]
    else i :: nest rest
termination_by is.length
decreasing_by
  · have := congrArg List.length (append_of_splitGroup? _h)
    simp only [List.length_append, List.length_cons] at this ⊢
    omega
  · simp

/-- The items of a text. -/
def items (d : Dialect) (s : Text) : List Item := nest (lexemes d s)

/-- Packing lexemes into items loses nothing. -/
theorem ofItems_nest (is : List Item) : ofItems (nest is) = ofItems is := by
  fun_induction nest is with
  | case1 => rfl
  | case2 rest inside after h ih =>
    rw [ofItems_cons, ih, ofItems_cons, ← append_of_splitGroup? h]
    simp [Item.text]
  | case3 rest h => simp [Item.text]
  | case4 i rest _ ih => rw [ofItems_cons, ofItems_cons, ih]

/-- Packing a text into items loses nothing. -/
theorem ofItems_items (d : Dialect) (s : Text) : ofItems (items d s) = s := by
  rw [items, ofItems_nest, ofItems_lexemes]

end Text

end NameServerConf
