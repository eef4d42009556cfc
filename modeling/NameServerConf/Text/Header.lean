import NameServerConf.Text.Words
import NameServerConf.Text.Quoted

/-!
# Names and classes in headers

The header of a zone or view is a name, usually quoted, and perhaps a class word after it.  Three
patterns describe quoted headers: the name alone, the name and the class word, the name and a word
that may run on.  A pattern is known by a regular expression, and no other expression is read.  It
looks at the text up to its first null byte, and letters match in either case.

`headerName` and `headerClass` first try the pattern of their expression, then take the header as a
list of words; a quoted name with blanks in it has no other way to be read.
-/

namespace NameServerConf

/-- What a quoted header may look like. -/
inductive HeaderPattern
  /-- A quoted name. -/
  | name
  /-- A quoted name, blanks, and a whole word of letters. -/
  | nameAndClass
  /-- A quoted name, blanks, and letters.  Headers are read without it. -/
  | nameAndWord
deriving DecidableEq, Repr

/-- Why an expression is no pattern. -/
inductive PatternError
  | notAPattern
deriving DecidableEq, Repr

namespace HeaderPattern

/-- Every pattern. -/
def all : List HeaderPattern := [.name, .nameAndClass, .nameAndWord]

/-- The regular expression that a pattern is known by. -/
def expression : HeaderPattern → Text
  | .name => "^\"([^\"]*)\""
  | .nameAndClass => "^\"[^\"]*\"[[:space:]]+([A-Za-z]+)([[:space:]]|$)"
  | .nameAndWord => "^\"([^\"]*)\"[[:space:]]+([a-z]+)"

/-- The pattern with the given expression. -/
def ofExpression (e : Text) : Except PatternError HeaderPattern :=
  match all.find? (·.expression = e) with
  | some p => .ok p
  | none => .error .notAPattern

/-- A pattern is found by its expression. -/
theorem ofExpression_expression (p : HeaderPattern) : ofExpression p.expression = .ok p := by
  have hfind : all.find? (·.expression = p.expression) = some p := by cases p <;> decide +kernel
  rw [ofExpression, hfind]

/-- The pattern with an expression that is known to have one. -/
def ofKnown (e : Text) (h : (ofExpression e).toOption.isSome = true) : HeaderPattern :=
  (ofExpression e).toOption.get h

theorem ofKnown_expression (p : HeaderPattern)
    (h : (ofExpression p.expression).toOption.isSome = true) : ofKnown p.expression h = p := by
  simp only [ofKnown, ofExpression_expression, Except.toOption, Option.get_some]

/-- The name in quotation marks that a text begins with, and what follows the marks. -/
def splitName? : Text → Option (Text × Text)
  | [] => none
  | b :: r =>
    if b = Byte.quote then
      match r.dropWhile (· ≠ Byte.quote) with
      | [] => none
      | _ :: rest => some (r.takeWhile (· ≠ Byte.quote), rest)
    else none

/-- Blanks and a word: the blanks, the letters after them, and what follows. -/
def splitWord? (s : Text) : Option (Text × Text × Text) :=
  match s.takeWhile Byte.isBlank, (s.dropWhile Byte.isBlank).takeWhile Byte.isLetter with
  | b :: bs, c :: cs => some (b :: bs, c :: cs, (s.dropWhile Byte.isBlank).dropWhile Byte.isLetter)
  | _, _ => none

/-- The groups of a pattern in a text without null bytes: first all that it covers, then its parts
    in parentheses. -/
def groupsIn (p : HeaderPattern) (s : Text) : Option (List Text) := do
  let (label, rest) ← splitName? s
  match p with
  | .name => some [Text.quote label, label]
  | .nameAndClass =>
    let (blanks, word, after) ← splitWord? rest
    match after with
    | [] => some [Text.quote label ++ blanks ++ word, word, []]
    | b :: _ =>
      if Byte.isBlank b then some [Text.quote label ++ blanks ++ word ++ [b], word, [b]] else none
  | .nameAndWord =>
    let (blanks, word, _) ← splitWord? rest
    some [Text.quote label ++ blanks ++ word, label, word]

/-- The groups of a pattern in a text, if the text begins with it. -/
def groups (p : HeaderPattern) (s : Text) : Option (List Text) := p.groupsIn s.untilNul

end HeaderPattern

/-- What is told to the user. -/
def PatternError.message : PatternError → Text
  | .notAPattern => "Regular expression did not compile"

namespace Text

/-- The pattern by which a quoted name is found. -/
def quotedName : HeaderPattern := .ofKnown "^\"([^\"]*)\"" (by decide +kernel)

theorem quotedName_eq : quotedName = .name := HeaderPattern.ofKnown_expression .name _

/-- The name in a header. -/
def headerName (header : Text) : Text :=
  match quotedName.groups header with
  | some [_, name] => name
  | _ => unquote (firstWord header)

/-- The words that name a class. -/
def classWords : List Text := ["IN", "CH", "CHAOS", "HS", "HESIOD", "ANY"]

/-- The word names a class, in whatever case it is written. -/
def isClassWord (w : Text) : Bool := classWords.any (equalFold · w)

/-- The pattern by which the class behind a quoted name is found. -/
def quotedClass : HeaderPattern :=
  .ofKnown "^\"[^\"]*\"[[:space:]]+([A-Za-z]+)([[:space:]]|$)" (by decide +kernel)

theorem quotedClass_eq : quotedClass = .nameAndClass :=
  HeaderPattern.ofKnown_expression .nameAndClass _

/-- The class in a header, as it is written there; empty if there is none. -/
def headerClass (header : Text) : Text :=
  match quotedClass.groups header with
  | some (_ :: word :: _) => if isClassWord word then word else []
  | _ =>
    match words header with
    | _ :: word :: _ => if isClassWord word then word else []
    | _ => []

end Text

end NameServerConf
