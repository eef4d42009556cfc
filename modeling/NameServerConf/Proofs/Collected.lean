import Mathlib.Data.List.Induction
import NameServerConf.Proofs.Keywords

/-!
# What a file says, keyword by keyword

Statements are read one after the other, each into the configuration that was read before.  What is
read in the end can be said without that: under each keyword stands what the statements with it say,
in order, or of controls, logging and options what the last of them says (`Config.value_ofNodes`).
What is remarked on the way is what each statement gives rise to, whatever was read before it
(`Config.leftOut_ofNodes`).
-/

namespace NameServerConf

/-- The statements with a keyword. -/
def Statement.withKeyword (k : Keyword) (ss : List Statement) : List Statement :=
  ss.filter (·.keyword = k.word)

lemma Statement.withKeyword_concat {s : Statement} {k : Keyword} (hs : s.keyword = k.word)
    (j : Keyword) (ss : List Statement) :
    withKeyword j (ss ++ [s]) = withKeyword j ss ++ if j = k then [s] else [] := by
  have hword : s.keyword = j.word ↔ j = k := by
    rw [← Keyword.ofWord?_eq_some, Keyword.ofWord?_eq_some.mpr hs, Option.some.injEq, eq_comm]
  rw [withKeyword, withKeyword, List.filter_append, List.filter_singleton, Bool.cond_decide]
  simp only [hword]

/-- A statement with an unknown keyword is not among them. -/
lemma Statement.withKeyword_concat_of_none {s : Statement} (hs : Keyword.ofWord? s.keyword = none)
    (j : Keyword) (ss : List Statement) : withKeyword j (ss ++ [s]) = withKeyword j ss := by
  have hword : s.keyword ≠ j.word := fun h => by
    rw [Keyword.ofWord?_eq_some.mpr h] at hs
    cases hs
  rw [withKeyword, withKeyword, List.filter_append, List.filter_singleton, Bool.cond_decide,
    if_neg hword, List.append_nil]

namespace Config

open Statement

/-- What some statements say: all of those with a keyword in order, or the last of them. -/
def ofStatements (unknown : Unknown) (ss : List Statement) : Config where
  includes := (withKeyword .include ss).map Include.ofStatement
  acls := (withKeyword .acl ss).map fun s => (Acl.ofStatement s).value
  keys := (withKeyword .key ss).map fun s => (Key.ofStatement unknown s).value
  keyStores := (withKeyword .keyStore ss).map fun s => (KeyStore.ofStatement unknown s).value
  remoteServers := (withKeyword .remoteServers ss).map fun s => (ServerGroup.ofStatement s).value
  tls := (withKeyword .tls ss).map fun s => (TlsProfile.ofStatement unknown s).value
  http := (withKeyword .http ss).map fun s => (HttpProfile.ofStatement unknown s).value
  controls := (withKeyword .controls ss).getLast?.map fun s => (Controls.ofStatement unknown s).value
  logging := (withKeyword .logging ss).getLast?.map fun s => (Logging.ofStatement unknown s).value
  options := (withKeyword .options ss).getLast?.map fun s => (Options.ofStatement s).value
  trustAnchors := (withKeyword .trustAnchors ss).map fun s => (TrustAnchors.ofStatement s).value
  views := (withKeyword .view ss).map fun s => (View.ofStatement unknown s).value
  zones := (withKeyword .zone ss).map fun s => (Zone.ofStatement unknown s).value

/-- One statement more adds what it says. -/
lemma ofStatements_concat (unknown : Unknown) (ss : List Statement) {s : Statement} {k : Keyword}
    (hs : s.keyword = k.word) :
    ofStatements unknown (ss ++ [s]) = ((ofStatements unknown ss).add unknown s k).value := by
  cases k <;> simp [ofStatements, add, withKeyword_concat hs, -bind_pure_comp]

lemma ofStatements_concat_of_none (unknown : Unknown) (ss : List Statement) {s : Statement}
    (hs : Keyword.ofWord? s.keyword = none) :
    ofStatements unknown (ss ++ [s]) = ofStatements unknown ss := by
  simp only [ofStatements, withKeyword_concat_of_none hs]

lemma addAll_concat (unknown : Unknown) (ss : List Statement) (s : Statement) (c : Config) :
    addAll unknown (ss ++ [s]) c = addAll unknown ss c >>= addAll unknown [s] := by
  induction ss generalizing c with
  | nil => rfl
  | cons t ss ih =>
      rw [List.cons_append, addAll, addAll]
      cases Keyword.ofWord? t.keyword with
      | none => exact ih c
      | some k => simp only [ih, bind_assoc]

lemma value_addAll (unknown : Unknown) (ss : List Statement) :
    (addAll unknown ss empty).value = ofStatements unknown ss := by
  induction ss using List.reverseRecOn with
  | nil => rfl
  | append_singleton ss s ih =>
      rw [addAll_concat, Noted.value_bind, ih, addAll]
      cases hs : Keyword.ofWord? s.keyword with
      | none => exact (ofStatements_concat_of_none unknown ss hs).symm
      | some k => exact (ofStatements_concat unknown ss (Keyword.ofWord?_eq_some.mp hs)).symm

/-- The remarks that a statement gives rise to. -/
def remarksOf (unknown : Unknown) (s : Statement) : List Remark :=
  (Keyword.ofWord? s.keyword).elim [] fun k => (empty.add unknown s k).remarks

/-- What was read before does not matter for them. -/
lemma remarks_add (unknown : Unknown) (c : Config) (s : Statement) (k : Keyword) :
    (c.add unknown s k).remarks = (empty.add unknown s k).remarks := by
  cases k <;> rfl

lemma remarks_addAll (unknown : Unknown) (ss : List Statement) (c : Config) :
    (addAll unknown ss c).remarks = ss.flatMap (remarksOf unknown) := by
  induction ss generalizing c with
  | nil => rfl
  | cons s ss ih =>
      rw [addAll, List.flatMap_cons, remarksOf]
      cases Keyword.ofWord? s.keyword with
      | none => exact ih c
      | some k =>
          dsimp only [Option.elim_some]
          rw [Noted.remarks_bind, ih, remarks_add]

end Config

/-! ## Files -/

lemma Remark.leftOut_append (rs ss : List Remark) : leftOut (rs ++ ss) = leftOut rs ++ leftOut ss :=
  List.filterMap_append

namespace Config

/-- The count at the end is nothing that was left out. -/
lemma leftOut_countLeftOut (m : Noted Config) :
    Remark.leftOut (countLeftOut m).remarks = Remark.leftOut m.remarks := by
  rw [countLeftOut]
  split
  · rfl
  · rw [Remark.leftOut_append]
    exact List.append_nil _

lemma value_countLeftOut (m : Noted Config) : (countLeftOut m).value = m.value := by
  rw [countLeftOut]
  split <;> rfl

/-- **What a file says**, keyword by keyword. -/
theorem value_ofNodes (unknown : Unknown) (ns : List Node) :
    (ofNodes unknown ns).value = ofStatements unknown (Node.statements ns) := by
  rw [ofNodes, value_countLeftOut, value_addAll]

/-- **What is left out of a file**, statement by statement. -/
theorem leftOut_ofNodes (unknown : Unknown) (ns : List Node) :
    Remark.leftOut (ofNodes unknown ns).remarks =
      (Node.statements ns).flatMap fun s => Remark.leftOut (remarksOf unknown s) := by
  rw [ofNodes, leftOut_countLeftOut, remarks_addAll]
  exact List.filterMap_flatMap

end Config

end NameServerConf
