import NameServerConf.Text.Basic

/-!
# Words

The words of a text are its maximal runs of bytes that are no separators.  Usually the separators
are the blank, the tab and the line feed: `words`.  This is a smaller set than that of the blank
bytes, so a carriage return is part of a word.

`fields` keeps the empty runs, and is how words are found: a structural recursion that cuts the
text at every separator.
-/

namespace NameServerConf.Text

/-- The runs between the separators, empty ones included: one more than there are separators. -/
def fields (sep : UInt8 → Bool) : Text → List Text
  | [] => [[]]
  | b :: r =>
    match fields sep r with
    | [] => [[b]]
    | w :: ws => if sep b then [] :: w :: ws else (b :: w) :: ws

/-- The maximal runs of bytes that are not in `sep`. -/
def wordsBy (sep : UInt8 → Bool) (s : Text) : List Text := (fields sep s).filter (· ≠ [])

/-- The words between the bytes of `delims`.  Only what stands before a null byte in `delims`
    counts as a separator. -/
def wordsAt (delims s : Text) : List Text := wordsBy (delims.untilNul.contains ·) s

/-- What separates words where nothing else is said. -/
def isWordGap (b : UInt8) : Bool := b = Byte.space || b = Byte.tab || b = Byte.newline

/-- The words of a text. -/
def words (s : Text) : List Text := wordsBy isWordGap s

/-- The first word, or nothing. -/
def firstWord (s : Text) : Text := (words s).headD []

end NameServerConf.Text
