import NameServerConf.Node.Basic

/-!
# Laying out nodes

A node that was found in a file is written as it was found.  A built one is laid out: a line is
indented with tabs, a block puts each statement of its body on lines of its own, one tab deeper.
In a file every built statement begins and ends a line.

`renderFile_parse`: a file that was split into nodes is written back byte for byte.
-/

namespace NameServerConf.Node

/-- As many tabs. -/
def tabs (indent : Nat) : Text := List.replicate indent Byte.tab

mutual

/-- The text of a node at the given depth.  A statement that was found in a file moves only if the
    depth is not zero. -/
def render (indent : Nat) : Node → Text
  | .raw t => t
  | .source t => if indent = 0 then t else tabs indent ++ Text.trim t
  | .line t => tabs indent ++ (Statement.read (t ++ [Byte.semicolon])).text ++ [Byte.semicolon]
  | .block header body =>
    let head := Statement.read (header ++ [Byte.semicolon])
    tabs indent ++ head.keyword ++
      (if head.header = [] then [] else Byte.space :: head.header) ++
      [Byte.space, Byte.openBrace, Byte.newline] ++
      renderBody (indent + 1) body ++
      tabs indent ++ [Byte.closeBrace, Byte.semicolon]

/-- The lines of a body at the given depth; raw fragments that are blank are left out. -/
def renderBody (indent : Nat) : List Node → Text
  | [] => []
  | n :: ns =>
    (match n.raw? with
      | some t => if Text.isBlank t then [] else tabs indent ++ Text.trim t ++ [Byte.newline]
      | none => n.render indent ++ [Byte.newline]) ++ renderBody indent ns

end

/-- The text of a file from some node on.  `lineStart` says that nothing stands before it on its
    line. -/
def renderFrom (lineStart : Bool) : List Node → Text
  | [] => []
  | n :: ns =>
    if n.isBuilt then
      (if lineStart then [] else [Byte.newline]) ++ n.render 0 ++ [Byte.newline] ++ renderFrom true ns
    else
      n.written ++
        renderFrom (match n.written.getLast? with
          | none => lineStart
          | some b => b = Byte.newline) ns

/-- The text of a file. -/
def renderFile (ns : List Node) : Text := renderFrom true ns

theorem renderFrom_of_not_built {ns : List Node} (h : ∀ n ∈ ns, n.isBuilt = false)
    (lineStart : Bool) : renderFrom lineStart ns = ns.flatMap written := by
  induction ns generalizing lineStart with
  | nil => rfl
  | cons n ns ih =>
    have hn := h n (List.mem_cons_self ..)
    rw [renderFrom, hn, List.flatMap_cons]
    simp only [Bool.false_eq_true, if_false]
    rw [ih fun m hm => h m (List.mem_cons_of_mem _ hm)]

theorem isBuilt_of_mem_ofItems {is : List Item} {n : Node} (h : n ∈ ofItems is) :
    n.isBuilt = false := by
  fun_induction ofItems is with
  | case1 => cases h
  | case2 i rest _ ih =>
    rcases List.mem_cons.1 h with rfl | h
    · rfl
    · exact ih h
  | case3 i rest _ ih =>
    rcases List.mem_cons.1 h with rfl | h
    · rfl
    · exact ih h

/-- A file that was split into nodes is written back byte for byte. -/
theorem renderFile_parse (s : Text) : renderFile (parse s) = s := by
  have h : ∀ n ∈ parse s, n.isBuilt = false := fun n hn => isBuilt_of_mem_ofItems hn
  rw [renderFile, renderFrom_of_not_built h, written_parse]

end NameServerConf.Node
