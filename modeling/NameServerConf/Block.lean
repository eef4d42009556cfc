import NameServerConf.Clause
import NameServerConf.Node.Basic

/-!
# Blocks

A block is a statement with statements inside, such as a zone with its options.  What a block may
hold is given by a table of **members**; `readMembers` runs through the statements of a block with
such a table.  A statement that no member takes is either kept as it is, to be written back, or left
out with a remark: `Unknown` says which.

A member may decline a statement whose value it cannot use, and the statement is then treated like
one with an unknown keyword.  So a value that is understood in part only is never cut short without a
word.
-/

namespace NameServerConf

/-- A statement inside a block that the library does not know, kept to be written back. -/
structure OtherOption where
  name : Text
  /-- All that follows the name. -/
  raw : Text
deriving DecidableEq, Inhabited, Repr

/-- What becomes of statements that the library does not know. -/
inductive Unknown
  | keep
  | report
deriving DecidableEq, Inhabited, Repr

/-- A keyword inside a block, and what a statement with it does to the block, if it takes it. -/
structure Member (β : Type) where
  keyword : Text
  read? : Statement → β → Option (Noted β)

namespace Member

variable {β : Type}

/-- A member that takes every statement. -/
def all (keyword : Text) (read : Statement → β → Noted β) : Member β :=
  ⟨keyword, fun s b => some (read s b)⟩

/-- A member whose value is a string. -/
def string (keyword : Text) (put : Text → β → β) : Member β :=
  all keyword fun s b => pure (put s.value.unquote b)

/-- A member whose value has no remarks to make, or is declined. -/
def value? {α : Type} (keyword : Text) (read : Text → Option α) (put : α → β → β) : Member β :=
  ⟨keyword, fun s b => (read s.value).map fun a => pure (put a b)⟩

/-- A member that is yes or no. -/
def yesNo (keyword : Text) (put : Bool → β → β) : Member β := value? keyword Text.readYesNo? put

/-- A member that is a number. -/
def number (keyword : Text) (put : Int → β → β) : Member β := value? keyword Text.readInt? put

/-- A member whose value is read with remarks. -/
def noted {α : Type} (keyword : Text) (read : Text → Noted α) (put : α → β → β) : Member β :=
  all keyword fun s b => do pure (put (← read s.value) b)

/-- A text that begins with a brace. -/
def isBraced (s : Text) : Bool := s.head? = some Byte.openBrace

/-- A member whose value is a list in braces with nothing before it. -/
def braced {α : Type} (keyword : Text) (read : Text → Noted α) (put : α → β → β) : Member β :=
  ⟨keyword, fun s b => if isBraced s.value then some (do pure (put (← read s.value) b)) else none⟩

/-- What the first member that takes a statement makes of the block. -/
def take? (table : List (Member β)) (s : Statement) (b : β) : Option (Noted β) :=
  table.findSome? fun m => if m.keyword = s.keyword then m.read? s b else none

end Member

/-- Runs through the statements of a block with a table of members; what none of them takes is left
    to `other`. -/
def readMembers {β : Type} (table : List (Member β)) (other : Statement → β → Noted β) :
    List Statement → β → Noted β
  | [], b => pure b
  | s :: ss, b => do
    let next ← (Member.take? table s b).getD (other s b)
    readMembers table other ss next

/-- Keeps an unknown statement with `put`, or leaves it out with a remark. -/
def Unknown.handle {β : Type} (unknown : Unknown) (place : Place) (put : OtherOption → β → β)
    (s : Statement) (b : β) : Noted β :=
  match unknown with
  | .keep => pure (put ⟨s.keyword, s.value⟩ b)
  | .report => do
    Noted.remark (.statement place s.text)
    pure b

/-! ## Writing -/

namespace Node

/-- One line for each text. -/
def lines (texts : List Text) : List Node := texts.map .line

/-- The lines of unknown statements. -/
def otherLines (others : List OtherOption) : List Node :=
  lines (others.map fun o => if o.raw = [] then o.name else Text.clause o.name o.raw)

end Node

/-- The header of a block with a name and perhaps a class. -/
def Text.namedHeader (keyword name cls : Text) : Text :=
  phrase ([keyword, quote name] ++ if cls = [] then [] else [cls])

end NameServerConf
