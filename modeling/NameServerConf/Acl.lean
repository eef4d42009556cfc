import NameServerConf.MatchTerm
import NameServerConf.Block
import NameServerConf.Text.Header

/-!
# Includes and named match lists

The two statements that stand on one line: an included file, and a match list with a name.
-/

namespace NameServerConf

/-- A file whose statements are read in place of this one. -/
structure Include where
  path : Text
deriving DecidableEq, Inhabited, Repr

/-- A match list with a name. -/
structure Acl where
  name : Text
  elements : List MatchTerm
deriving DecidableEq, Inhabited, Repr

namespace Include

/-- An included file, from its statement. -/
def ofStatement (s : Statement) : Include := ⟨s.value.unquote⟩

/-- The statement of an included file. -/
def node (i : Include) : Node := .line (Text.clause "include" i.path.quote)

end Include

namespace Acl

/-- A named match list, from its statement. -/
def ofStatement (s : Statement) : Noted Acl := do
  pure ⟨s.header.headerName, ← MatchTerm.readList s.bodyText⟩

/-- The statement of a named match list. -/
def node (a : Acl) : Node :=
  .line (Text.phrase [Text.namedHeader "acl" a.name [], MatchTerm.textOfList a.elements])

end Acl

end NameServerConf
