import NameServerConf.Node.Basic

/-!
# The whole tree

`Node.statement?` looks one level deep.  An **outline** is the tree that shows when this is done at
every level.  It is finite because the text inside a statement's braces is shorter than the
statement (`weight_body_read_lt`).
-/

namespace NameServerConf

/-- A node with all that is inside it. -/
inductive Outline
  /-- A raw fragment, and whether it is all blanks. -/
  | raw (text : Text) (blank : Bool)
  /-- What a statement says, whether it was built, and what is in its body. -/
  | statement (content : Statement) (built : Bool) (body : List Outline)

namespace Node

mutual

/-- How much text a node holds: a bound for the depth of its outline. -/
def weight : Node → Nat
  | .raw t => t.length
  | .source t => t.length
  | .line t => t.length + 1
  | .block _ body => weights body + 1

/-- How much text some nodes hold. -/
def weights : List Node → Nat
  | [] => 0
  | n :: ns => n.weight + weights ns

end

theorem weight_le_weights {n : Node} {ns : List Node} (h : n ∈ ns) : n.weight ≤ weights ns := by
  induction ns with
  | nil => cases h
  | cons m ns ih =>
    rw [weights]
    rcases List.mem_cons.1 h with rfl | h
    · omega
    · have := ih h
      omega

theorem weights_ofItems (is : List Item) : weights (ofItems is) = (Text.ofItems is).length := by
  rw [← written_ofItems]
  fun_induction ofItems is with
  | case1 => rfl
  | case2 i rest _ ih => rw [weights, ih, weight, List.flatMap_cons, List.length_append, written]
  | case3 i rest _ ih => rw [weights, ih, weight, List.flatMap_cons, List.length_append, written]

theorem weights_parse (s : Text) : weights (parse s) = s.length := by
  rw [parse, weights_ofItems, Text.ofItems_items]

/-- A body that was read weighs less than the statement. -/
theorem weight_body_read_lt {source : Text} {n : Node} (h : n ∈ (Statement.read source).body) :
    n.weight < source.length := by
  have hbody : (Statement.read source).body =
      ((Statement.innerText? source).map parse).getD [] := rfl
  rw [hbody] at h
  cases hinner : Statement.innerText? source with
  | none => simp [hinner] at h
  | some inner =>
    simp only [hinner, Option.map_some, Option.getD_some] at h
    have h₁ := weight_le_weights h
    have h₂ := Statement.length_lt_of_innerText? hinner
    rw [weights_parse] at h₁
    omega

/-- The body of a statement weighs less than the node that makes it. -/
theorem weight_lt_of_mem_body {n m : Node} {s : Statement} (hs : n.statement? = some s)
    (hm : m ∈ s.body) : m.weight < n.weight := by
  cases n with
  | raw t => cases hs
  | source t =>
    cases hs
    exact weight_body_read_lt hm
  | line t =>
    cases hs
    simpa [weight] using weight_body_read_lt hm
  | block header body =>
    cases hs
    have h : m.weight ≤ weights body := weight_le_weights hm
    rw [weight]
    omega

/-- A node with all that is inside it. -/
def outline (n : Node) : Outline :=
  match _h : n.statement? with
  | none => .raw n.written (Text.isBlank n.written)
  | some s => .statement s n.isBuilt (s.body.attach.map fun ⟨m, _hm⟩ => m.outline)
termination_by n.weight
decreasing_by exact weight_lt_of_mem_body _h _hm

end Node

end NameServerConf
