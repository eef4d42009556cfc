import NameServerConf.Text.Spacing

/-!
# Nodes and statements

A configuration file is a list of nodes.  A **node** is what is written: a raw fragment between
statements, a statement as it was found in a file, or a statement that was built and has yet to be
laid out.  A **statement** is what a node says: its keyword, its value, and the nodes of its body.

The two are kept apart.  A node found in a file is nothing but its text, so it cannot disagree with
it, and what it says is read from that text when it is asked for (`Node.statement?`).  A built block
has nodes for its body; its value is put together from what they say.

`Node.parse` splits a text into nodes and loses nothing: `written_parse`.  The text inside the braces
of a statement is shorter than the statement, `length_lt_of_innerText?`, so looking into bodies of
bodies comes to an end.
-/

namespace NameServerConf

/-- One piece of a configuration file. -/
inductive Node
  /-- What stands between statements: blanks, comments, stray punctuation. -/
  | raw (text : Text)
  /-- A statement as it was found, with its final semicolon if it has one. -/
  | source (text : Text)
  /-- A built statement on a line of its own, given without its semicolon. -/
  | line (text : Text)
  /-- A built statement with a body in braces; the header begins with the keyword. -/
  | block (header : Text) (body : List Node)
deriving Inhabited, Repr

/-- What a statement says, comments and layout apart. -/
structure Statement where
  /-- The first word. -/
  keyword : Text
  /-- What stands between the keyword and the body. -/
  header : Text
  /-- All that follows the keyword, up to the semicolon. -/
  value : Text
  /-- The inside of the first brace group. -/
  bodyText : Text
  /-- There is a brace group. -/
  hasBody : Bool
  /-- The nodes inside the first brace group. -/
  body : List Node
deriving Repr

/-! ## Splitting a text into nodes -/

namespace Item

/-- What may stand between statements: blanks, comments, and punctuation that ends nothing. -/
def isFiller : Item → Bool
  | .byte b => Byte.isBlank b || b = Byte.semicolon || b = Byte.closeBrace
  | .comment _ => true
  | _ => false

end Item

namespace Node

/-- Splits a list of items behind the semicolon that ends the statement there.  A closing brace
    ends it too, but belongs to what follows. -/
def splitStatement : List Item → List Item × List Item
  | [] => ([], [])
  | i :: is =>
    if i = .byte Byte.semicolon then ([i], is)
    else if i = .byte Byte.closeBrace then ([], i :: is)
    else
      match splitStatement is with
      | (statement, rest) => (i :: statement, rest)

theorem splitStatement_append (is : List Item) :
    (splitStatement is).1 ++ (splitStatement is).2 = is := by
  induction is with
  | nil => rfl
  | cons i is ih =>
    simp only [splitStatement]
    split
    · rfl
    split
    · rfl
    · simpa using ih

theorem length_splitStatement_le (is : List Item) : (splitStatement is).2.length ≤ is.length := by
  have h := congrArg List.length (splitStatement_append is)
  rw [List.length_append] at h
  omega

/-- The nodes that a list of items makes up: fillers run together into one raw fragment. -/
def ofItems (is : List Item) : List Node :=
  match is with
  | [] => []
  | i :: rest =>
    if i.isFiller then
      .raw (Text.ofItems (i :: rest.takeWhile Item.isFiller)) :: ofItems (rest.dropWhile Item.isFiller)
    else
      .source (Text.ofItems (i :: (splitStatement rest).1)) :: ofItems (splitStatement rest).2
termination_by is.length
decreasing_by
  · have := (List.dropWhile_suffix (l := rest) Item.isFiller).length_le
    simp only [List.length_cons]
    omega
  · have := length_splitStatement_le rest
    simp only [List.length_cons]
    omega

/-- The statements of a text and what stands between them.  Every text can be split. -/
def parse (s : Text) : List Node := ofItems (Text.items .file s)

/-- The bytes of a node that was found in a file; built nodes have none before they are laid out. -/
def written : Node → Text
  | .raw t => t
  | .source t => t
  | .line _ => []
  | .block _ _ => []

theorem written_ofItems (is : List Item) : (ofItems is).flatMap written = Text.ofItems is := by
  fun_induction ofItems is with
  | case1 => rfl
  | case2 i rest _ ih =>
    rw [List.flatMap_cons, ih, written, ← Text.ofItems_append, List.cons_append,
      List.takeWhile_append_dropWhile]
  | case3 i rest _ ih =>
    rw [List.flatMap_cons, ih, written, ← Text.ofItems_append, List.cons_append,
      splitStatement_append]

/-- Splitting a text into nodes loses nothing. -/
theorem written_parse (s : Text) : (parse s).flatMap written = s := by
  rw [parse, written_ofItems, Text.ofItems_items]

end Node

/-! ## Reading a statement -/

namespace Statement

/-- An item that can be part of an unquoted keyword. -/
def isKeywordItem : Item → Bool := Item.isByte (fun b => !Byte.isBlank b && b ≠ Byte.semicolon)

/-- Splits a statement behind its keyword, which is a quoted string or a run of bytes up to a blank,
    a semicolon, a string, a comment or a group. -/
def splitKeyword (s : Text) : Text × Text :=
  match Text.items .file s with
  | .quoted q :: rest => (q, Text.ofItems rest)
  | is => (Text.ofItems (is.takeWhile isKeywordItem), Text.ofItems (is.dropWhile isKeywordItem))

/-- The text without the semicolon at its end. -/
def dropTerminator (s : Text) : Text :=
  if s.getLast? = some Byte.semicolon then s.dropLast else s

/-- The text after the keyword, as it is written. -/
def valueText (source : Text) : Text := dropTerminator (splitKeyword (Text.trimLeft source)).2

/-- The text inside the first braces after the keyword, as it is written. -/
def innerText? (source : Text) : Option Text :=
  (Text.items .file (valueText source)).findSome? Item.inner?

/-- The statement with the given keyword and the given text after it. -/
def ofParts (keyword value : Text) : Statement :=
  let is := Text.items .file value
  let inner? := is.findSome? Item.inner?
  { keyword := keyword
    header := Text.normalize (Text.ofItems (is.takeWhile (!·.isGroup)))
    value := Text.normalize value
    bodyText := (inner?.map Text.normalize).getD []
    hasBody := inner?.isSome
    body := (inner?.map Node.parse).getD [] }

/-- What the text of one statement says. -/
def read (source : Text) : Statement :=
  ofParts (splitKeyword (Text.trimLeft source)).1 (valueText source)

/-- Keyword and value, without the semicolon. -/
def text (s : Statement) : Text :=
  if s.value = [] then s.keyword
  else if s.keyword = [] then s.value
  else s.keyword ++ Byte.space :: s.value

/-- The statement that a header and a body make up; `texts` are the statements of the body. -/
def ofBlock (header : Text) (body : List Node) (texts : List Text) : Statement :=
  let head := read (header ++ [Byte.semicolon])
  let inside := Text.join [Byte.space] (texts.map (· ++ [Byte.semicolon]))
  { keyword := head.keyword
    header := head.header
    value :=
      (if head.header = [] then [] else head.header ++ [Byte.space]) ++
        (if inside = [] then [Byte.openBrace, Byte.space, Byte.closeBrace]
         else Byte.openBrace :: Byte.space :: inside ++ [Byte.space, Byte.closeBrace])
    bodyText := inside
    hasBody := true
    body := body }

/-! ### The inside of a statement is shorter than the statement -/

theorem splitKeyword_append (s : Text) : (splitKeyword s).1 ++ (splitKeyword s).2 = s := by
  have h := Text.ofItems_items .file s
  unfold splitKeyword
  split
  next q rest hq => rwa [hq] at h
  · simp only
    rw [← Text.ofItems_append, List.takeWhile_append_dropWhile, h]

theorem length_valueText_le (source : Text) : (valueText source).length ≤ source.length := by
  have h₁ := congrArg List.length (splitKeyword_append (Text.trimLeft source))
  have h₂ := (List.dropWhile_suffix (l := source) Byte.isBlank).length_le
  rw [List.length_append] at h₁
  simp only [Text.trimLeft] at h₁
  unfold valueText dropTerminator
  split
  · rw [List.length_dropLast]
    simp only [Text.trimLeft]
    omega
  · simp only [Text.trimLeft]
    omega

theorem length_lt_of_inner_mem {is : List Item} {inner : Text}
    (h : is.findSome? Item.inner? = some inner) : inner.length < (Text.ofItems is).length := by
  obtain ⟨i, hi, hinner⟩ := List.exists_of_findSome?_eq_some h
  obtain ⟨a, b, rfl⟩ := List.append_of_mem hi
  cases i with
  | group t closed =>
    cases hinner
    simp only [Text.ofItems_append, Text.ofItems_cons, Item.text, List.length_append,
      List.length_cons]
    omega
  | byte b => cases hinner
  | quoted t => cases hinner
  | comment t => cases hinner

/-- The braces at least are missing. -/
theorem length_lt_of_innerText? {source inner : Text} (h : innerText? source = some inner) :
    inner.length < source.length := by
  have h₁ := length_lt_of_inner_mem h
  rw [Text.ofItems_items] at h₁
  exact Nat.lt_of_lt_of_le h₁ (length_valueText_le source)

end Statement

/-! ## What a node says -/

namespace Node

mutual

/-- The statement that a node makes, unless it is a raw fragment. -/
def statement? : Node → Option Statement
  | .raw _ => none
  | .source t => some (Statement.read t)
  | .line t => some (Statement.read (t ++ [Byte.semicolon]))
  | .block header body => some (Statement.ofBlock header body (texts body))

/-- The texts of the statements among some nodes. -/
def texts : List Node → List Text
  | [] => []
  | n :: ns =>
    match n.statement? with
    | none => texts ns
    | some s => s.text :: texts ns

end

/-- The node was built and has yet to be laid out. -/
def isBuilt : Node → Bool
  | .raw _ => false
  | .source _ => false
  | .line _ => true
  | .block _ _ => true

/-- The text of a raw fragment. -/
def raw? : Node → Option Text
  | .raw t => some t
  | _ => none

/-- The statements among some nodes. -/
def statements (ns : List Node) : List Statement := ns.filterMap statement?

/-- The node is a statement with the given keyword. -/
def hasKeyword (keyword : Text) (n : Node) : Bool := n.statement?.any (·.keyword = keyword)

end Node

/-- The statements in the body of a statement. -/
def Statement.children (s : Statement) : List Statement := Node.statements s.body

end NameServerConf
