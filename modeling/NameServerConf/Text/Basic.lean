/-!
# Texts

A text is a list of bytes.  Everything the library decides it decides on ASCII bytes: a byte
of 128 and above is never blank, a digit or a letter, and never changes case, so texts in any
ASCII-compatible encoding pass through unchanged.

The module holds the carrier, the bytes that have a meaning in the configuration language,
and the operations that look at one byte at a time: trimming, case folding, searching.
-/

namespace NameServerConf

/-- A text, byte by byte. -/
abbrev Text := List UInt8

/-! ## Bytes with a meaning -/

namespace Byte

/-- The null byte. -/
abbrev nul : UInt8 := 0
/-- The horizontal tab. -/
abbrev tab : UInt8 := 9
/-- The line feed, which ends a line. -/
abbrev newline : UInt8 := 10
/-- The blank. -/
abbrev space : UInt8 := 32
/-- The exclamation mark, which negates a match term. -/
abbrev bang : UInt8 := 33
/-- The quotation mark. -/
abbrev quote : UInt8 := 34
/-- The number sign, which starts a comment. -/
abbrev hash : UInt8 := 35
/-- The asterisk of a block comment. -/
abbrev star : UInt8 := 42
/-- The plus sign. -/
abbrev plus : UInt8 := 43
/-- The hyphen. -/
abbrev hyphen : UInt8 := 45
/-- The full stop. -/
abbrev dot : UInt8 := 46
/-- The slash. -/
abbrev slash : UInt8 := 47
/-- The digit zero. -/
abbrev zero : UInt8 := 48
/-- The colon. -/
abbrev colon : UInt8 := 58
/-- The semicolon, which ends a statement. -/
abbrev semicolon : UInt8 := 59
/-- The equals sign. -/
abbrev equals : UInt8 := 61
/-- The backslash, which protects the byte after it inside quotation marks. -/
abbrev backslash : UInt8 := 92
/-- The brace that opens a group. -/
abbrev openBrace : UInt8 := 123
/-- The brace that closes a group. -/
abbrev closeBrace : UInt8 := 125

/-- Blank bytes: space, tab, line feed, vertical tab, form feed, carriage return. -/
def isBlank (b : UInt8) : Bool := b = space || (9 ≤ b && b ≤ 13)

/-- Decimal digits. -/
def isDigit (b : UInt8) : Bool := 48 ≤ b && b ≤ 57

/-- Capital ASCII letters. -/
def isUpper (b : UInt8) : Bool := 65 ≤ b && b ≤ 90

/-- Small ASCII letters. -/
def isLower (b : UInt8) : Bool := 97 ≤ b && b ≤ 122

/-- ASCII letters. -/
def isLetter (b : UInt8) : Bool := isUpper b || isLower b

/-- The small letter for a capital one; every other byte is left alone. -/
def lower (b : UInt8) : UInt8 := if isUpper b then b + 32 else b

end Byte

namespace Text

/-- The UTF-8 bytes of a string. -/
def ofString (s : String) : Text := s.toByteArray.data.toList

/-- String literals stand for their bytes. -/
instance : Coe String Text := ⟨ofString⟩

/-! ## Trimming -/

/-- `s` without the bytes in `p` at its end. -/
def dropRight (p : UInt8 → Bool) (s : Text) : Text := (s.reverse.dropWhile p).reverse

/-- `s` without the bytes in `p` at either end. -/
def strip (p : UInt8 → Bool) (s : Text) : Text := dropRight p (s.dropWhile p)

/-- `s` without the blanks before it. -/
def trimLeft (s : Text) : Text := s.dropWhile Byte.isBlank

/-- `s` without the blanks after it. -/
def trimRight (s : Text) : Text := dropRight Byte.isBlank s

/-- `s` without the blanks around it. -/
def trim (s : Text) : Text := strip Byte.isBlank s

/-- Nothing but blanks. -/
def isBlank (s : Text) : Bool := s.all Byte.isBlank

theorem length_dropRight_le (p : UInt8 → Bool) (s : Text) : (dropRight p s).length ≤ s.length := by
  have h := (List.dropWhile_suffix (l := s.reverse) p).length_le
  simpa [dropRight] using h

theorem length_strip_le (p : UInt8 → Bool) (s : Text) : (strip p s).length ≤ s.length :=
  Nat.le_trans (length_dropRight_le p _) (List.dropWhile_suffix p).length_le

theorem length_trim_le (s : Text) : (trim s).length ≤ s.length := length_strip_le _ s

/-! ## Case -/

/-- Every capital ASCII letter made small. -/
def lower (s : Text) : Text := s.map Byte.lower

/-- Equal up to the case of ASCII letters. -/
def equalFold (s t : Text) : Bool := lower s = lower t

/-! ## Searching and joining -/

/-- `part` occurs somewhere in the text. -/
def occursIn (part : Text) : Text → Bool
  | [] => part.isEmpty
  | b :: r => part.isPrefixOf (b :: r) || occursIn part r

/-- The text up to its first null byte, which is all that a null-terminated reader sees. -/
def untilNul (s : Text) : Text := s.takeWhile (· ≠ Byte.nul)

/-- The texts one after the other, with `sep` between neighbours. -/
def join (sep : Text) : List Text → Text
  | [] => []
  | [s] => s
  | s :: t :: r => s ++ sep ++ join sep (t :: r)

/-- Byte by byte order, a text before its extensions. -/
def before : Text → Text → Bool
  | _, [] => false
  | [], _ :: _ => true
  | a :: s, b :: t => a < b || (a = b && before s t)

end Text

end NameServerConf
