import NameServerConf.Text.Item

/-!
# Canonical spacing

`collapse` brings the blanks of a text into one form: outside quotation marks every run of blanks
becomes a single one, and none is left at the ends.  `normalize` replaces each comment by a blank
before that, so the layout of a file and its comments are gone from what it yields.
-/

namespace NameServerConf.Text

/-- The text of a list of items with collapsed blanks.  `started` says that something was written
    before, `gap` that blanks were read since then; they are written when something follows. -/
def squeeze (started gap : Bool) : List Item → Text
  | [] => []
  | i :: is =>
    if i.isByte Byte.isBlank then squeeze started true is
    else (if started && gap then [Byte.space] else []) ++ i.text ++ squeeze true false is

/-- Every run of blanks outside quotation marks as a single blank, and none around the text. -/
def collapse (s : Text) : Text := squeeze false false (lexemes .value s)

/-- What an item leaves of itself when comments are taken out: a blank for a comment. -/
def withoutComment : Item → Text
  | .comment _ => [Byte.space]
  | i => i.text

/-- A file text with a blank for every comment. -/
def stripComments (s : Text) : Text := (lexemes .file s).flatMap withoutComment

/-- A file text without comments and in canonical spacing. -/
def normalize (s : Text) : Text := collapse (stripComments s)

end NameServerConf.Text
