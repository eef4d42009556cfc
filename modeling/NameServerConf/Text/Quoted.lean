import NameServerConf.Text.Basic

/-!
# Quotation marks around names and strings

Writing puts a text between quotation marks as it is.  There are two ways back: `unquote` takes
all quotation marks off both ends, `unquoteOnce` exactly one pair.  A name made of letters, digits
and hyphens is also written bare.
-/

namespace NameServerConf.Text

/-- The text between quotation marks. -/
def quote (s : Text) : Text := Byte.quote :: s ++ [Byte.quote]

/-- The text without the blanks around it, and without all the quotation marks that are then at
    its ends. -/
def unquote (s : Text) : Text := strip (· = Byte.quote) (trim s)

/-- The text without the blanks around it, and without one pair of quotation marks if it is then
    enclosed in one. -/
def unquoteOnce (s : Text) : Text :=
  match trim s with
  | b :: c :: r =>
    if b = Byte.quote && (c :: r).getLast? = some Byte.quote then (c :: r).dropLast else b :: c :: r
  | t => t

/-- Letters, digits and hyphens, and at least one of them. -/
def isBareName (s : Text) : Bool :=
  s ≠ [] && s.all (fun b => Byte.isLetter b || Byte.isDigit b || b = Byte.hyphen)

/-- A name as it is written where quotation marks are optional. -/
def quoteUnlessBare (s : Text) : Text := if isBareName s then s else quote s

end NameServerConf.Text
