import NameServerConf.Config.Basic

/-!
# Bringing a file up to date

A configuration is put into a file keyword by keyword: the old statements with the keyword give way to
new ones, and all other nodes stay.  `Placement` says where the new ones go: to the end of the file,
or to where the first old one was.

The line end behind a statement goes with it, for a built statement brings its own.
-/

namespace NameServerConf

/-- Where new statements go. -/
inductive Placement
  /-- To the end of the file. -/
  | append
  /-- To the place of the first statement that they replace, if there is one. -/
  | inPlace
deriving DecidableEq, Inhabited, Repr

namespace Node

/-- A byte that may stand between a statement and the end of its line. -/
def isLineGap (b : UInt8) : Bool := b = Byte.space || b = Byte.tab

/-- What remains of a node behind a removed statement: a raw fragment loses the rest of the line,
    and is gone if that was all. -/
def afterRemoved (n : Node) : Option Node :=
  match n with
  | .raw t =>
    match t.dropWhile isLineGap with
    | [] => some n
    | b :: r => if b ≠ Byte.newline then some n else if r = [] then none else some (.raw r)
  | _ => some n

/-- The nodes without the statements with the given keyword.  `removed` says that the node before
    was such a statement. -/
def withoutKeyword (keyword : Text) (removed : Bool) : List Node → List Node
  | [] => []
  | n :: ns =>
    if n.hasKeyword keyword then withoutKeyword keyword true ns
    else (if removed then n.afterRemoved.toList else [n]) ++ withoutKeyword keyword false ns

/-- Puts `built` for the statements with the given keyword. -/
def replace (placement : Placement) (keyword : Text) (built ns : List Node) : List Node :=
  match placement with
  | .append => withoutKeyword keyword false ns ++ built
  | .inPlace =>
    match ns.dropWhile (!·.hasKeyword keyword) with
    | [] => ns ++ built
    | found => ns.takeWhile (!·.hasKeyword keyword) ++ built ++ withoutKeyword keyword false found

/-- Puts `built` for the statements with the given keyword, and remarks how many there were. -/
def sync (placement : Placement) (keyword : Text) (built ns : List Node) : Noted (List Node) := do
  Noted.remark (.replaced (ns.countP (·.hasKeyword keyword)) keyword built.length)
  pure (replace placement keyword built ns)

end Node

namespace Config

/-- Brings the statements of some keywords up to date, one keyword after the other. -/
def applyAll (placement : Placement) (c : Config) : List Keyword → List Node → Noted (List Node)
  | [], ns => pure ns
  | k :: ks, ns => do applyAll placement c ks (← Node.sync placement k.word (c.nodes k) ns)

/-- Brings a file up to date with a configuration. -/
def apply (placement : Placement) (c : Config) (ns : List Node) : Noted (List Node) :=
  applyAll placement c Keyword.all ns

end Config

end NameServerConf
