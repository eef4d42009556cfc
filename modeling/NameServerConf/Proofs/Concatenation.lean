import Mathlib
import NameServerConf.Proofs.ClosedText
import NameServerConf.Proofs.Collected

/-!
# Texts put together

A file may be written piece by piece.  If nothing in a text waits for an end, what follows it is read
as if it stood alone, however malformed it is.

**Statements.**  The statements of a closed text and of what follows it come one after the other; only
fragments may run together (`Node.statements_parse_append`).

**Configurations.**  So both configurations are put together, entity after entity, and of two blocks
that there can be only one of, the second counts (`Config.ofNodes_parse_append`).
-/

namespace NameServerConf

namespace Node

/-! ## Statements -/

/-- A text put before some nodes is no statement. -/
lemma statements_prependRaw (t : Text) (ns : List Node) :
    statements (prependRaw t ns) = statements ns := by
  by_cases ht : t = []
  · rw [ht, prependRaw_nil]
  · rcases prependRaw_cases ht ns with ⟨u, ms, rfl, hjoined⟩ | ⟨-, hjoined⟩
    · rw [hjoined]
      rfl
    · rw [hjoined]
      rfl

/-- Joining fragments neither makes a statement nor loses one. -/
lemma statements_joinTo (n : Node) (ns : List Node) :
    statements (n.joinTo ns) = statements (n :: ns) := by
  cases n with
  | raw t => exact statements_prependRaw t ns
  | source t => rfl
  | line t => rfl
  | block header body => rfl

/-- What follows the text of complete nodes is split as if it stood alone. -/
lemma statements_parse_written_append {ns : List Node} (h : ∀ n ∈ ns, n.Complete) (t : Text) :
    statements (parse (ns.flatMap written ++ t)) = statements ns ++ statements (parse t) := by
  induction ns with
  | nil => rfl
  | cons n ns ih =>
      obtain ⟨hn, hns⟩ := List.forall_mem_cons.mp h
      have hcons : ∀ ms, statements (n :: ms) = statements [n] ++ statements ms :=
        fun ms => List.filterMap_append (l := [n])
      calc statements (parse ((n :: ns).flatMap written ++ t))
          = statements (n :: parse (ns.flatMap written ++ t)) := by
            rw [List.flatMap_cons, List.append_assoc, hn.parse_append, statements_joinTo]
        _ = statements [n] ++ (statements ns ++ statements (parse t)) := by rw [hcons, ih hns]
        _ = statements (n :: ns) ++ statements (parse t) := by rw [← List.append_assoc, ← hcons]

/-- **The statements of texts put together** are those of the first and those of the second, if the
    first text is closed. -/
theorem statements_parse_append {s : Text} (hs : s.isClosed = true) (t : Text) :
    statements (parse (s ++ t)) = statements (parse s) ++ statements (parse t) := by
  have happend := statements_parse_written_append (fun n hn => complete_of_mem_parse hs hn) t
  rwa [written_parse] at happend

end Node

/-! ## Configurations -/

namespace Statement

lemma withKeyword_append (k : Keyword) (ss ts : List Statement) :
    withKeyword k (ss ++ ts) = withKeyword k ss ++ withKeyword k ts := List.filter_append ..

end Statement

namespace Config

/-- Two configurations put together.  A block that there can be only one of is that of the second, if
    it has one. -/
def append (c d : Config) : Config where
  includes := c.includes ++ d.includes
  acls := c.acls ++ d.acls
  keys := c.keys ++ d.keys
  keyStores := c.keyStores ++ d.keyStores
  remoteServers := c.remoteServers ++ d.remoteServers
  tls := c.tls ++ d.tls
  http := c.http ++ d.http
  controls := d.controls.or c.controls
  logging := d.logging.or c.logging
  options := d.options.or c.options
  trustAnchors := c.trustAnchors ++ d.trustAnchors
  views := c.views ++ d.views
  zones := c.zones ++ d.zones

/-- What statements say that come one after the other. -/
lemma ofStatements_append (unknown : Unknown) (ss ts : List Statement) :
    ofStatements unknown (ss ++ ts) =
      (ofStatements unknown ss).append (ofStatements unknown ts) := by
  simp only [ofStatements, append, Statement.withKeyword_append, List.map_append,
    List.getLast?_append, Option.map_or]

/-- **Texts put together** are read one after the other if the first is closed: what the file says is
    what both say, and what is left out is what is left out of the first and then of the second. -/
theorem ofNodes_parse_append (unknown : Unknown) {s : Text} (hs : s.isClosed = true) (t : Text) :
    (ofNodes unknown (Node.parse (s ++ t))).value =
        (ofNodes unknown (Node.parse s)).value.append (ofNodes unknown (Node.parse t)).value ∧
      Remark.leftOut (ofNodes unknown (Node.parse (s ++ t))).remarks =
        Remark.leftOut (ofNodes unknown (Node.parse s)).remarks ++
          Remark.leftOut (ofNodes unknown (Node.parse t)).remarks := by
  have hstatements := Node.statements_parse_append hs t
  constructor
  · rw [value_ofNodes, value_ofNodes, value_ofNodes, hstatements, ofStatements_append]
  · rw [leftOut_ofNodes, leftOut_ofNodes, leftOut_ofNodes, hstatements, List.flatMap_append]

/-- Comments, stray punctuation and an unknown statement, all of it closed. -/
def closedPart : Text :=
  "\x7d; options \x7b recursion yes; \x7d; logging \x7b foo; \x7d; # options \x7b\n/* \x7d */ zone \"a;\" \x7b \x7d;\n"

/-- A statement that never ends, with a string in it that does not end either. -/
def openPart : Text := "\x7d options \x7b recursion no; \x7d; zone \"b\" \x7b file \"f\"; bar \"baz; \x7d"

/-- Put together, both are read: the zones of both, and the options of the second. -/
theorem ofNodes_parse_append_open :
    closedPart.isClosed = true ∧
      ∃ c, (ofNodes .report (Node.parse (closedPart ++ openPart))).value = c ∧
        c.zones.map Zone.name = [Text.ofString "a;", Text.ofString "b"] ∧
        c.options.map Options.recursion = some (some false) ∧
        Remark.leftOut (ofNodes .report (Node.parse (closedPart ++ openPart))).remarks =
          [Text.ofString "logging: foo", Text.ofString "zone 'b': bar \"baz; \x7d"] := by
  have hclosed : closedPart.isClosed = true := by cbv
  obtain ⟨hvalue, hleft⟩ := ofNodes_parse_append .report hclosed openPart
  exact ⟨hclosed, _, hvalue, by cbv, by cbv, hleft.trans (by cbv)⟩

end Config

end NameServerConf
