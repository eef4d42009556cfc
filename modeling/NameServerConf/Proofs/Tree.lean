import Mathlib.Data.List.Chain
import NameServerConf.Node.Render
import NameServerConf.Proofs.Lexemes

/-!
# The tree of a text

Any text can be split into nodes, unfinished strings, comments and groups included, and stray braces
and semicolons with them.

**Pieces.**  Each node is made by a piece of the items of the text, and that piece makes this node
and no other: `exists_piece_of_mem_ofItems`.  Since a piece of a text has its items by itself, the
text of a node is split into the node alone, whatever stood around it: `parse_written_of_mem`.

**Inside.**  A text is `Nested` in another if it stands in the braces of one of the other's
statements.  It is shorter, so splitting the nested texts, the texts nested in them, and so on, comes
to an end.

The two are put together in `parse_lossless`.
-/

namespace NameServerConf.Node

/-! ## Pieces -/

/-- What is split off a list as a statement is a statement as a whole. -/
lemma splitStatement_again (is : List Item) :
    splitStatement (splitStatement is).1 = ((splitStatement is).1, []) := by
  induction is with
  | nil => rfl
  | cons i is ih =>
      rw [splitStatement]
      split
      next hi =>
        subst hi
        rfl
      next hi =>
      split
      · rfl
      next hbrace =>
        dsimp only
        rw [splitStatement, if_neg hi, if_neg hbrace, ih]

lemma ofItems_nil : ofItems [] = [] := by rw [ofItems]

/-- A run of fillers is a single fragment. -/
lemma ofItems_fillers {i : Item} {is : List Item} (h : ∀ j ∈ i :: is, j.isFiller = true) :
    ofItems (i :: is) = [.raw (Text.ofItems (i :: is))] := by
  have his : ∀ j ∈ is, j.isFiller = true := fun j hj => h j (List.mem_cons_of_mem _ hj)
  rw [ofItems, if_pos (h i (List.mem_cons_self ..)), List.takeWhile_eq_self_iff.mpr his,
    List.dropWhile_eq_nil_iff.mpr his, ofItems_nil]

/-- The items up to the end of a statement are a single statement. -/
lemma ofItems_statement {i : Item} (hi : i.isFiller = false) (rest : List Item) :
    ofItems (i :: (splitStatement rest).1) =
      [.source (Text.ofItems (i :: (splitStatement rest).1))] := by
  rw [ofItems, if_neg (by rw [hi]; decide), splitStatement_again, ofItems_nil]

/-- Each node is made by a piece of the items, which makes this node alone. -/
theorem exists_piece_of_mem_ofItems {is : List Item} {n : Node} (h : n ∈ ofItems is) :
    ∃ as bs cs, is = as ++ (bs ++ cs) ∧ n.written = Text.ofItems bs ∧ ofItems bs = [n] := by
  fun_induction ofItems is with
  | case1 => exact absurd h List.not_mem_nil
  | case2 i rest hi ih =>
      rcases List.mem_cons.mp h with rfl | h
      · refine ⟨[], i :: rest.takeWhile Item.isFiller, rest.dropWhile Item.isFiller, ?_,
          rfl, ofItems_fillers fun j hj => ?_⟩
        · rw [List.nil_append, List.cons_append, List.takeWhile_append_dropWhile]
        · rcases List.mem_cons.mp hj with rfl | hj
          · exact hi
          · exact List.mem_takeWhile_imp hj
      · obtain ⟨as, bs, cs, hsplit, hpiece⟩ := ih h
        refine ⟨i :: rest.takeWhile Item.isFiller ++ as, bs, cs, ?_, hpiece⟩
        rw [List.append_assoc, ← hsplit, List.cons_append, List.takeWhile_append_dropWhile]
  | case3 i rest hi ih =>
      rcases List.mem_cons.mp h with rfl | h
      · refine ⟨[], i :: (splitStatement rest).1, (splitStatement rest).2, ?_,
          rfl, ofItems_statement (by simpa using hi) rest⟩
        rw [List.nil_append, List.cons_append, splitStatement_append]
      · obtain ⟨as, bs, cs, hsplit, hpiece⟩ := ih h
        refine ⟨i :: (splitStatement rest).1 ++ as, bs, cs, ?_, hpiece⟩
        rw [List.append_assoc, ← hsplit, List.cons_append, splitStatement_append]

/-- The text of a node is split into the node alone. -/
theorem parse_written_of_mem {s : Text} {n : Node} (h : n ∈ parse s) : parse n.written = [n] := by
  obtain ⟨as, bs, cs, hsplit, hwritten, hpiece⟩ := exists_piece_of_mem_ofItems h
  rw [parse, hwritten, Text.items_ofItems_prefix (Text.items_ofItems_suffix hsplit), hpiece]

/-- No node is empty. -/
lemma written_ne_nil_of_mem {s : Text} {n : Node} (h : n ∈ parse s) : n.written ≠ [] := by
  intro hnil
  have halone := parse_written_of_mem h
  rw [hnil, parse, Text.items, Text.lexemes, Text.nest, ofItems] at halone
  cases halone

/-- A node is a part of the text. -/
lemma length_written_le_of_mem {s : Text} {n : Node} (h : n ∈ parse s) :
    n.written.length ≤ s.length := by
  obtain ⟨as, bs, hsplit⟩ := List.append_of_mem h
  have hlength := congrArg List.length (written_parse s)
  rw [hsplit, List.flatMap_append, List.flatMap_cons, List.length_append, List.length_append]
    at hlength
  omega

/-! ## Neighbours -/

/-- Two nodes of which one at least is no raw fragment. -/
def Apart (m n : Node) : Prop := m.raw? = none ∨ n.raw? = none

/-- No two raw fragments are side by side: a fragment takes in all the fillers there are. -/
theorem isChain_apart_ofItems (is : List Item) : (ofItems is).IsChain Apart := by
  fun_induction ofItems is with
  | case1 => exact List.IsChain.nil
  | case2 i rest hi ih =>
      refine List.isChain_cons.mpr ⟨fun n hn => ?_, ih⟩
      have hstop := List.head?_dropWhile_not Item.isFiller rest
      cases hrest : rest.dropWhile Item.isFiller with
      | nil =>
          rw [hrest, ofItems_nil] at hn
          cases hn
      | cons j js =>
          rw [hrest] at hn hstop
          have hj : ¬ j.isFiller = true := by simpa using hstop
          rw [ofItems, if_neg hj] at hn
          obtain rfl := Option.mem_some_iff.mp hn
          exact Or.inr rfl
  | case3 i rest hi ih => exact List.isChain_cons.mpr ⟨fun n _ => Or.inl rfl, ih⟩

/-! ## Inside -/

/-- The first text stands inside the braces of a statement of the second.  Reading the statements of
    a text splits all the texts that are nested in it. -/
def Nested (inner s : Text) : Prop := ∃ t, .source t ∈ parse s ∧ Statement.innerText? t = some inner

/-- What is nested in a text is shorter than the text. -/
lemma Nested.length_lt {inner s : Text} (h : Nested inner s) : inner.length < s.length := by
  obtain ⟨t, ht, hinner⟩ := h
  exact Nat.lt_of_lt_of_le (Statement.length_lt_of_innerText? hinner) (length_written_le_of_mem ht)

/-- Splitting what is nested in what is nested comes to an end. -/
lemma wellFounded_nested : WellFounded Nested :=
  Subrelation.wf (fun h => h.length_lt) (measure List.length).wf

/-- The body of a statement that was found is what its inner text is split into. -/
lemma body_read (t : Text) : (Statement.read t).body =
    ((Statement.innerText? t).map parse).getD [] := rfl

/-- **The tree is lossless.**  Whatever the text, it is written back as it was; of two neighbours one
    at least is a statement; no node is empty, and the text of each node is split into that node
    alone, which says what it said.  The nodes in the body of a statement are those of the text
    inside its braces, which is shorter than the statement, and there is no endless chain of texts
    each nested in the one before. -/
theorem parse_lossless (s : Text) :
    renderFile (parse s) = s ∧
    (parse s).IsChain Apart ∧
    (∀ n ∈ parse s, n.written ≠ [] ∧ parse n.written = [n] ∧
      statements (parse n.written) = n.statement?.toList) ∧
    (∀ t, .source t ∈ parse s → t.length ≤ s.length ∧
      match Statement.innerText? t with
      | none => (Statement.read t).hasBody = false ∧ (Statement.read t).body = []
      | some inner => (Statement.read t).hasBody = true ∧ (Statement.read t).body = parse inner ∧
          inner.length < t.length) ∧
    Acc Nested s := by
  refine ⟨renderFile_parse s, isChain_apart_ofItems _, fun n hn => ?_, fun t ht => ?_,
    wellFounded_nested.apply s⟩
  · have halone := parse_written_of_mem hn
    refine ⟨written_ne_nil_of_mem hn, halone, ?_⟩
    rw [halone, statements, List.filterMap_cons]
    cases n.statement? with
    | none => rfl
    | some st => rfl
  · refine ⟨length_written_le_of_mem ht, ?_⟩
    have hbody := body_read t
    have hhas : (Statement.read t).hasBody = (Statement.innerText? t).isSome := rfl
    cases hinner : Statement.innerText? t with
    | none =>
        rw [hinner] at hbody hhas
        exact ⟨hhas, hbody⟩
    | some inner =>
        rw [hinner] at hbody hhas
        exact ⟨hhas, hbody, Statement.length_lt_of_innerText? hinner⟩

end NameServerConf.Node
