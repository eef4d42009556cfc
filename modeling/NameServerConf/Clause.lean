import NameServerConf.Text.Number
import NameServerConf.Text.Quoted
import NameServerConf.Text.Group
import NameServerConf.Remark

/-!
# Clauses

A **clause** is a keyword and the one token that belongs to it, such as `port 53`.  Many values are
made of clauses in any order: what follows the address of a server, what stands before the addresses
to listen on, what follows the path of a log file.

A table of clauses says which keywords there are and what each does to the value under
construction; `readClauses` runs through the tokens with such a table.  Clauses are written by
`numberClause`, `nameClause`, `wordClause` and `yesNoClause`, which write nothing for a value that
is absent.
-/

namespace NameServerConf

/-- A keyword, and what the token after it does to the value under construction. -/
structure Clause (α : Type) where
  keyword : Text
  read : Text → α → Noted α

/-- Runs through tokens with a table of clauses.  A token that is no keyword, or that has no token
    after it, is left to `stray`. -/
def readClauses {α : Type} (table : List (Clause α)) (stray : Text → Noted Unit) :
    List Text → α → Noted α
  | [], a => pure a
  | [word], a => do
    stray word
    pure a
  | word :: arg :: rest, a =>
    match table.find? (·.keyword = word) with
    | some clause => do readClauses table stray rest (← clause.read arg a)
    | none => do
      stray word
      readClauses table stray (arg :: rest) a

namespace Text

/-! ## Yes and no -/

/-- Yes or no, by the first word in whatever case. -/
def readYesNo? (s : Text) : Option Bool :=
  match words s with
  | [] => none
  | w :: _ => if equalFold w "yes" then some true else if equalFold w "no" then some false else none

/-- Yes or no. -/
def ofYesNo (b : Bool) : Text := if b then "yes" else "no"

/-! ## Lists of strings -/

/-- A list of strings, each with or without quotation marks. -/
def readStrings (s : Text) : List Text := (parts (stripBraces s)).map unquoteOnce

/-- A list of strings in quotation marks. -/
def ofStrings (l : List Text) : Text := joined (l.map quote)

/-! ## Writing clauses -/

/-- Texts with a blank between neighbours. -/
def phrase (l : List Text) : Text := join [Byte.space] l

/-- A keyword and what belongs to it. -/
def clause (keyword arg : Text) : Text := phrase [keyword, arg]

/-- A clause with a number. -/
def numberClause (keyword : Text) : Option Int → List Text
  | none => []
  | some n => [clause keyword (ofInt n)]

/-- A clause with a quoted name; an empty name is no name. -/
def nameClause (keyword name : Text) : List Text :=
  if name = [] then [] else [clause keyword (quote name)]

/-- A clause with a word as it is; an empty word is none. -/
def wordClause (keyword word : Text) : List Text :=
  if word = [] then [] else [clause keyword word]

/-- A clause with yes or no. -/
def yesNoClause (keyword : Text) : Option Bool → List Text
  | none => []
  | some b => [clause keyword (ofYesNo b)]

end Text

end NameServerConf
