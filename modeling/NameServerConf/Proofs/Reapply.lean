import Mathlib
import NameServerConf.Node.Render
import NameServerConf.Proofs.Replacement

/-!
# Applying a configuration twice

**What the second time does.**  After a configuration was applied, each of its groups is there in one
piece.  Applied again to the same nodes, it puts every group back where it is, but takes the line end
behind a group for that of the statement it has just removed: `settle` describes this in one run over
the nodes, and `apply_inPlace_of_grouped` says that it is what happens.  At the end of the file
nothing follows a group but groups, and nothing is lost (`apply_append_of_grouped`).

**Which files it changes.**  Hence the file is laid out as before unless a fragment that begins with
a line end stands right behind a group: `renderFile_apply_apply_iff`.  There is such a fragment
wherever an empty line stood behind the last statement of a group, so a second run does lose lines
(`renderFile_apply_apply_ne`).
-/

namespace NameServerConf

namespace Node

/-! ## One keyword -/

/-- What remains of the nodes behind a removed statement. -/
def afterGroup : List Node → List Node
  | [] => []
  | n :: ns => n.afterRemoved.toList ++ ns

/-- Nothing happens to nodes that are no statements with the keyword. -/
lemma withoutKeyword_append_of_none {k : Keyword} {a : List Node} (h : statementsWith k a = [])
    (b : List Node) :
    withoutKeyword k.word false (a ++ b) = a ++ withoutKeyword k.word false b := by
  induction a with
  | nil => rfl
  | cons n a ih =>
      have hn : n.keyword? ≠ some k := by
        intro e
        rw [statementsWith_cons_self e] at h
        cases h
      rw [statementsWith_cons_of_ne hn] at h
      rw [List.cons_append, withoutKeyword, hasKeyword_false_iff.mpr hn, ih h]
      rfl

lemma withoutKeyword_eq_self {k : Keyword} {ns : List Node} (h : statementsWith k ns = []) :
    withoutKeyword k.word false ns = ns := by
  simpa [withoutKeyword] using withoutKeyword_append_of_none h []

lemma withoutKeyword_true_eq {k : Keyword} {ns : List Node} (h : statementsWith k ns = []) :
    withoutKeyword k.word true ns = afterGroup ns := by
  cases ns with
  | nil => rfl
  | cons n ns =>
      have hn : n.keyword? ≠ some k := by
        intro e
        rw [statementsWith_cons_self e] at h
        cases h
      rw [statementsWith_cons_of_ne hn] at h
      rw [withoutKeyword, hasKeyword_false_iff.mpr hn, withoutKeyword_eq_self h]
      rfl

/-- A run of statements with the keyword is taken out. -/
lemma withoutKeyword_append_of_group {k : Keyword} {g ns : List Node} (hne : g ≠ [])
    (hg : ∀ n ∈ g, n.keyword? = some k) (removed : Bool) :
    withoutKeyword k.word removed (g ++ ns) = withoutKeyword k.word true ns := by
  induction g generalizing removed with
  | nil => exact absurd rfl hne
  | cons n g ih =>
      have hn := hasKeyword_word_iff.mpr (hg n (List.mem_cons_self ..))
      rw [List.cons_append, withoutKeyword, if_pos hn]
      cases g with
      | nil => rfl
      | cons m g => exact ih (by simp) (fun x hx => hg x (List.mem_cons_of_mem _ hx)) true

lemma not_hasKeyword_of_mem {k : Keyword} {ns : List Node} (h : statementsWith k ns = []) :
    ∀ n ∈ ns, (!n.hasKeyword k.word) = true := by
  intro n hn
  have := List.filter_eq_nil_iff.mp h n hn
  rw [Bool.not_eq_true', hasKeyword_false_iff]
  simpa using this

/-- A group is put back where it is. -/
lemma replace_inPlace_of_group {k : Keyword} {g a b : List Node}
    (hg : ∀ n ∈ g, n.keyword? = some k) (ha : statementsWith k a = [])
    (hb : statementsWith k b = []) :
    replace .inPlace k.word g (a ++ g ++ b) = a ++ g ++ if g = [] then b else afterGroup b := by
  have ha' := not_hasKeyword_of_mem ha
  rw [replace, List.append_assoc, List.dropWhile_append_of_pos ha',
    List.takeWhile_append_of_pos ha']
  cases g with
  | nil =>
      have hb' := not_hasKeyword_of_mem hb
      have hdrop : (b ++ []).dropWhile (fun n : Node => !n.hasKeyword k.word) = _ :=
        List.dropWhile_append_of_pos hb'
      rw [List.append_nil] at hdrop
      simp [hdrop]
  | cons n g =>
      have hn := hasKeyword_word_iff.mpr (hg n (List.mem_cons_self ..))
      have hout : withoutKeyword k.word false (n :: g ++ b) = _ :=
        withoutKeyword_append_of_group (List.cons_ne_nil n g) hg false
      rw [withoutKeyword_true_eq hb, List.cons_append] at hout
      simp [hn, hout]

/-! ## All keywords -/

/-- The nodes without the line ends behind statements of the kind `P`.  `after` says that such a
    statement stands before the first node. -/
def settle (P : Node → Bool) (after : Bool) : List Node → List Node
  | [] => []
  | n :: ns => (if after then n.afterRemoved.toList else [n]) ++ settle P (P n) ns

lemma afterRemoved_of_isSome {n : Node} (h : n.keyword?.isSome) : n.afterRemoved = some n := by
  cases n with
  | raw t => cases h
  | source t => rfl
  | line t => rfl
  | block header body => rfl

lemma settle_eq_self {P : Node → Bool} {ns : List Node} (h : ∀ n ∈ ns, P n = false) :
    settle P false ns = ns := by
  induction ns with
  | nil => rfl
  | cons n ns ih =>
      rw [settle, h n (List.mem_cons_self ..), ih fun m hm => h m (List.mem_cons_of_mem _ hm)]
      rfl

lemma settle_true_eq {P : Node → Bool} {ns : List Node} (h : ∀ n ∈ ns, P n = false) :
    settle P true ns = afterGroup ns := by
  cases ns with
  | nil => rfl
  | cons n ns =>
      rw [settle, h n (List.mem_cons_self ..),
        settle_eq_self fun m hm => h m (List.mem_cons_of_mem _ hm)]
      rfl

/-- Statements of other kinds do not matter. -/
lemma settle_append_of_not {P : Node → Bool} {a : List Node} (h : ∀ n ∈ a, P n = false)
    (b : List Node) : settle P false (a ++ b) = a ++ settle P false b := by
  induction a with
  | nil => rfl
  | cons n a ih =>
      rw [List.cons_append, settle, h n (List.mem_cons_self ..),
        ih fun m hm => h m (List.mem_cons_of_mem _ hm)]
      rfl

/-- Statements stay. -/
lemma settle_append_of_group {P : Node → Bool} {g : List Node} (hne : g ≠ [])
    (hP : ∀ n ∈ g, P n = true) (hg : ∀ n ∈ g, n.keyword?.isSome) (after : Bool) (b : List Node) :
    settle P after (g ++ b) = g ++ settle P true b := by
  induction g generalizing after with
  | nil => exact absurd rfl hne
  | cons n g ih =>
      have hn := afterRemoved_of_isSome (hg n (List.mem_cons_self ..))
      have hhead : (if after then n.afterRemoved.toList else [n]) = [n] := by
        cases after <;> simp [hn]
      rw [List.cons_append, settle, hhead, hP n (List.mem_cons_self ..)]
      cases g with
      | nil => rfl
      | cons m g =>
          rw [ih (by simp) (fun x hx => hP x (List.mem_cons_of_mem _ hx))
            (fun x hx => hg x (List.mem_cons_of_mem _ hx))]
          rfl

/-- To do without the line ends behind one kind of statements and then behind another is to do
    without both. -/
lemma settle_settle {P Q : Node → Bool} (hPQ : ∀ n, P n = true → Q n = false)
    (hP : ∀ t, P (.raw t) = false) (hQ : ∀ t, Q (.raw t) = false) {after after' : Bool}
    (h : after = true → after' = false) (ns : List Node) :
    settle Q after' (settle P after ns) = settle (fun n => P n || Q n) (after || after') ns := by
  induction ns generalizing after after' with
  | nil => rfl
  | cons n ns ih =>
      have hn : P n = true → Q n = false := hPQ n
      rw [settle, settle]
      cases after with
      | false =>
          simp only [Bool.false_eq_true, if_false, Bool.false_or, List.singleton_append]
          rw [settle, ih hn]
      | true =>
          rw [h rfl]
          rcases afterRemoved_cases n with he | ⟨gap, t, rfl, -, -, he⟩ | ⟨gap, rfl, -, -, he⟩
          · simp only [he, if_true, Option.toList_some, List.singleton_append, Bool.true_or]
            rw [settle, ih hn]
            rfl
          · simp only [he, if_true, Option.toList_some, List.singleton_append, Bool.true_or]
            rw [settle, hQ t, hP, hQ, ih (by simp)]
            rfl
          · simp only [he, if_true, Option.toList_none, List.nil_append, Bool.true_or]
            rw [hP, hQ, ih (by simp)]

lemma settle_append (P : Node → Bool) (after : Bool) (a b : List Node) :
    ∃ after', settle P after (a ++ b) = settle P after a ++ settle P after' b := by
  induction a generalizing after with
  | nil => exact ⟨after, rfl⟩
  | cons n a ih =>
      obtain ⟨after', h⟩ := ih (P n)
      exact ⟨after', by rw [List.cons_append, settle, settle, h, List.append_assoc]⟩

/-- Only fragments change. -/
lemma statementsWith_settle (P : Node → Bool) (k : Keyword) (after : Bool) (ns : List Node) :
    statementsWith k (settle P after ns) = statementsWith k ns := by
  induction ns generalizing after with
  | nil => rfl
  | cons n ns ih =>
      have hone : statementsWith k n.afterRemoved.toList = statementsWith k [n] := by
        rcases afterRemoved_cases n with he | ⟨gap, t, rfl, -, -, he⟩ | ⟨gap, rfl, -, -, he⟩ <;>
          rw [he] <;> rfl
      have hhead : statementsWith k (if after then n.afterRemoved.toList else [n]) =
          statementsWith k [n] := by
        cases after
        · rfl
        · exact hone
      rw [settle, statementsWith_append, hhead, ih, ← statementsWith_append]
      rfl

lemma settle_of_isSome {ns : List Node} (h : ∀ n ∈ ns, n.keyword?.isSome) (P : Node → Bool)
    (after : Bool) : settle P after ns = ns := by
  induction ns generalizing after with
  | nil => rfl
  | cons n ns ih =>
      have hn := afterRemoved_of_isSome (h n (List.mem_cons_self ..))
      rw [settle, ih fun m hm => h m (List.mem_cons_of_mem _ hm), hn]
      cases after <;> rfl

/-- The statements with a keyword are the group of a configuration, in one piece. -/
def Grouped (c : Config) (k : Keyword) (ns : List Node) : Prop :=
  ∃ a b, ns = a ++ c.nodes k ++ b ∧ statementsWith k a = [] ∧ statementsWith k b = []

variable {c : Config} {k : Keyword} {ns : List Node}

lemma Grouped.settle (h : Grouped c k ns) (P : Node → Bool) (after : Bool) :
    Grouped c k (settle P after ns) := by
  obtain ⟨a, b, rfl, ha, hb⟩ := h
  have hg : ∀ n ∈ c.nodes k, n.keyword?.isSome := fun n hn => by
    rw [c.keyword?_of_mem_nodes k hn]
    rfl
  obtain ⟨x, hx⟩ := settle_append P after (a ++ c.nodes k) b
  obtain ⟨y, hy⟩ := settle_append P after a (c.nodes k)
  refine ⟨_, _, by rw [hx, hy, settle_of_isSome hg], ?_, ?_⟩
  · rw [statementsWith_settle, ha]
  · rw [statementsWith_settle, hb]

lemma hasKeyword_eq_false_of_mem (h : statementsWith k ns = []) :
    ∀ n ∈ ns, n.hasKeyword k.word = false := fun n hn => by
  simpa using not_hasKeyword_of_mem h n hn

lemma Grouped.replace_inPlace (h : Grouped c k ns) :
    replace .inPlace k.word (c.nodes k) ns = Node.settle (·.hasKeyword k.word) false ns := by
  obtain ⟨a, b, rfl, ha, hb⟩ := h
  have hg : ∀ n ∈ c.nodes k, n.keyword? = some k := fun n => c.keyword?_of_mem_nodes k
  have ha' := hasKeyword_eq_false_of_mem ha
  have hb' := hasKeyword_eq_false_of_mem hb
  rw [replace_inPlace_of_group hg ha hb, List.append_assoc, List.append_assoc,
    settle_append_of_not ha']
  by_cases hne : c.nodes k = []
  · rw [hne, List.nil_append, if_pos rfl, List.nil_append, settle_eq_self hb']
  · rw [settle_append_of_group hne (fun n hn => hasKeyword_word_iff.mpr (hg n hn))
      (fun n hn => by rw [hg n hn]; rfl), settle_true_eq hb', if_neg hne]

end Node

namespace Config

open Node

variable {c : Config}

/-- Bringing keywords up to date whose groups are in one piece. -/
lemma applyAll_inPlace_of_grouped {ks : List Keyword} (hks : ks.Nodup) {ns : List Node}
    (h : ∀ k ∈ ks, Grouped c k ns) :
    (applyAll .inPlace c ks ns).value = settle (fun n => ks.any (n.hasKeyword ·.word)) false ns := by
  induction ks generalizing ns with
  | nil => exact (settle_eq_self fun n _ => rfl).symm
  | cons k ks ih =>
      obtain ⟨hk, hks'⟩ := List.nodup_cons.mp hks
      have hpass := (h k (List.mem_cons_self ..)).replace_inPlace
      have hnext : ∀ j ∈ ks, Grouped c j (settle (·.hasKeyword k.word) false ns) :=
        fun j hj => (h j (List.mem_cons_of_mem _ hj)).settle _ _
      have hdisjoint : ∀ n : Node, n.hasKeyword k.word = true →
          ks.any (n.hasKeyword ·.word) = false := by
        intro n hn
        rw [hasKeyword_word_iff] at hn
        refine List.any_eq_false.mpr fun j hj => ?_
        rw [hasKeyword_word_iff, hn]
        intro e
        exact hk (Option.some.inj e ▸ hj)
      calc (applyAll .inPlace c (k :: ks) ns).value
          = (applyAll .inPlace c ks (replace .inPlace k.word (c.nodes k) ns)).value := rfl
        _ = settle (fun n => ks.any (n.hasKeyword ·.word)) false
              (settle (·.hasKeyword k.word) false ns) := by rw [hpass, ih hks' hnext]
        _ = settle (fun n => (k :: ks).any (n.hasKeyword ·.word)) false ns :=
            settle_settle hdisjoint (fun t => rfl)
              (fun t => List.any_eq_false.mpr fun j _ h => (by cases h))
              (fun h => absurd h (by decide)) ns

lemma any_hasKeyword_eq_isSome (n : Node) :
    Keyword.all.any (n.hasKeyword ·.word) = n.keyword?.isSome := by
  rw [Bool.eq_iff_iff, List.any_eq_true, Option.isSome_iff_exists]
  constructor
  · rintro ⟨k, -, hk⟩
    exact ⟨k, hasKeyword_word_iff.mp hk⟩
  · rintro ⟨k, hk⟩
    exact ⟨k, by cases k <;> decide, hasKeyword_word_iff.mpr hk⟩

/-- Where all groups are in one piece, bringing them up to date in their places takes the line ends
    behind them and does nothing else. -/
theorem apply_inPlace_of_grouped {ns : List Node} (h : ∀ k, Grouped c k ns) :
    (c.apply .inPlace ns).value = settle (·.keyword?.isSome) false ns := by
  rw [apply, applyAll_inPlace_of_grouped (by decide) fun k _ => h k]
  simp only [any_hasKeyword_eq_isSome]

/-- Each group goes to the end in its turn. -/
lemma applyAll_append_of_grouped {o : List Node} (ho : ∀ k, statementsWith k o = [])
    {ks : List Keyword} (hks : ks.Nodup) {tail : List Node}
    (htail : ∀ n ∈ tail, ∃ j, j ∉ ks ∧ n.keyword? = some j) :
    (applyAll .append c ks (o ++ (ks.flatMap c.nodes ++ tail))).value =
      o ++ (tail ++ ks.flatMap c.nodes) := by
  induction ks generalizing tail with
  | nil => simp [applyAll]
  | cons k ks ih =>
      obtain ⟨hk, hks'⟩ := List.nodup_cons.mp hks
      have hg : ∀ n ∈ c.nodes k, n.keyword? = some k := fun n => c.keyword?_of_mem_nodes k
      -- what follows the group are statements, so no line end goes with it
      have hrest : ∀ n ∈ ks.flatMap c.nodes ++ tail, ∃ j, j ≠ k ∧ n.keyword? = some j := by
        intro n hn
        rcases List.mem_append.mp hn with hn | hn
        · obtain ⟨j, hj, hn⟩ := List.mem_flatMap.mp hn
          exact ⟨j, fun e => hk (e ▸ hj), c.keyword?_of_mem_nodes j hn⟩
        · obtain ⟨j, hj, hn⟩ := htail n hn
          exact ⟨j, fun e => hj (e ▸ List.mem_cons_self ..), hn⟩
      have hnone : statementsWith k (ks.flatMap c.nodes ++ tail) = [] := by
        refine List.filter_eq_nil_iff.mpr fun n hn => ?_
        obtain ⟨j, hj, hn⟩ := hrest n hn
        simp [hn, hj]
      have hkeep : afterGroup (ks.flatMap c.nodes ++ tail) = ks.flatMap c.nodes ++ tail := by
        cases hl : ks.flatMap c.nodes ++ tail with
        | nil => rfl
        | cons n ns =>
            obtain ⟨j, -, hn⟩ := hrest n (hl ▸ List.mem_cons_self ..)
            rw [afterGroup, afterRemoved_of_isSome (by rw [hn]; rfl)]
            rfl
      have hpass : withoutKeyword k.word false
          (o ++ (c.nodes k ++ (ks.flatMap c.nodes ++ tail))) = o ++ (ks.flatMap c.nodes ++ tail) := by
        rw [withoutKeyword_append_of_none (ho k)]
        by_cases hne : c.nodes k = []
        · rw [hne, List.nil_append, withoutKeyword_eq_self hnone]
        · rw [withoutKeyword_append_of_group hne hg, withoutKeyword_true_eq hnone, hkeep]
      have htail' : ∀ n ∈ tail ++ c.nodes k, ∃ j, j ∉ ks ∧ n.keyword? = some j := by
        intro n hn
        rcases List.mem_append.mp hn with hn | hn
        · obtain ⟨j, hj, hn⟩ := htail n hn
          exact ⟨j, fun h => hj (List.mem_cons_of_mem _ h), hn⟩
        · exact ⟨k, hk, hg n hn⟩
      calc (applyAll .append c (k :: ks) (o ++ ((k :: ks).flatMap c.nodes ++ tail))).value
          = (applyAll .append c ks (withoutKeyword k.word false
              (o ++ ((k :: ks).flatMap c.nodes ++ tail)) ++ c.nodes k)).value := rfl
        _ = (applyAll .append c ks (o ++ (ks.flatMap c.nodes ++ (tail ++ c.nodes k)))).value := by
            rw [List.flatMap_cons, List.append_assoc, hpass]
            simp only [List.append_assoc]
        _ = o ++ (tail ++ (k :: ks).flatMap c.nodes) := by
            rw [ih hks' htail']
            simp only [List.flatMap_cons, List.append_assoc]

/-- Groups that are at the end of the file stay there. -/
theorem apply_append_of_grouped {o : List Node} (ho : ∀ k, statementsWith k o = []) :
    (c.apply .append (o ++ Keyword.all.flatMap c.nodes)).value =
      o ++ Keyword.all.flatMap c.nodes := by
  have h : (applyAll .append c Keyword.all (o ++ (Keyword.all.flatMap c.nodes ++ []))).value = _ :=
    applyAll_append_of_grouped ho (by decide) fun n hn => absurd hn List.not_mem_nil
  rw [List.append_nil, List.nil_append] at h
  exact h

end Config

/-! ## What is laid out -/

namespace Node

/-- A fragment that begins with the end of a line. -/
def startsWithLineEnd : Node → Bool
  | .raw t => (t.dropWhile isLineGap).head? = some Byte.newline
  | _ => false

/-- A fragment that begins with a line end stands right behind a statement with a known keyword. -/
def hasSpareLineEnd : List Node → Bool
  | [] => false
  | [_] => false
  | n :: m :: ns => (n.keyword?.isSome && m.startsWithLineEnd) || hasSpareLineEnd (m :: ns)

lemma afterRemoved_eq_self {n : Node} (h : n.startsWithLineEnd = false) :
    n.afterRemoved = some n := by
  cases n with
  | raw t =>
      rw [startsWithLineEnd, decide_eq_false_iff_not] at h
      rw [afterRemoved]
      split
      next => rfl
      next b r hr =>
        rw [hr, List.head?_cons, Option.some.injEq] at h
        rw [if_pos h]
  | source t => rfl
  | line t => rfl
  | block header body => rfl

/-- A line end behind a statement makes the fragment shorter, and does not matter for the line that
    the next statement begins on. -/
lemma afterRemoved_raw {t : Text} (h : (Node.raw t).startsWithLineEnd = true) :
    (∃ gap, t = gap ++ [Byte.newline] ∧ (Node.raw t).afterRemoved = none) ∨
      ∃ gap r, t = gap ++ r ∧ gap ≠ [] ∧ r ≠ [] ∧ (Node.raw t).afterRemoved = some (.raw r) := by
  have ht := List.takeWhile_append_dropWhile (p := isLineGap) (l := t)
  rw [startsWithLineEnd, decide_eq_true_eq] at h
  rw [afterRemoved]
  split
  next hr => rw [hr] at h; cases h
  next b r hr =>
    rw [hr, List.head?_cons, Option.some.injEq] at h
    subst h
    rw [hr] at ht
    rw [if_neg (fun h => h rfl)]
    split
    next hnil => exact Or.inl ⟨_, by rw [← ht, hnil], rfl⟩
    next hne =>
      refine Or.inr ⟨t.takeWhile isLineGap ++ [Byte.newline], r, ?_, by simp, hne, rfl⟩
      rw [List.append_assoc, List.singleton_append, ht]

/-- Nothing changes where no line end is to spare. -/
lemma settle_eq_self_of_not_spare {ns : List Node} (h : hasSpareLineEnd ns = false) {after : Bool}
    (hafter : after = true → ∀ n ∈ ns.head?, n.startsWithLineEnd = false) :
    settle (·.keyword?.isSome) after ns = ns := by
  induction ns generalizing after with
  | nil => rfl
  | cons n ns ih =>
      have hhead : (if after then n.afterRemoved.toList else [n]) = [n] := by
        cases after with
        | false => rfl
        | true => rw [if_pos rfl, afterRemoved_eq_self (hafter rfl n rfl)]; rfl
      have hrest : hasSpareLineEnd ns = false ∧
          (n.keyword?.isSome = true → ∀ m ∈ ns.head?, m.startsWithLineEnd = false) := by
        cases ns with
        | nil => exact ⟨rfl, fun _ m hm => by cases hm⟩
        | cons m ns =>
            rw [hasSpareLineEnd, Bool.or_eq_false_iff, Bool.and_eq_false_iff] at h
            refine ⟨h.2, fun hn x hx => ?_⟩
            obtain rfl : m = x := by simpa using hx
            exact h.1.resolve_left (by simp [hn])
      rw [settle, hhead, ih hrest.1 hrest.2]
      rfl

/-- All statements with known keywords were built. -/
def KnownBuilt (ns : List Node) : Prop := ∀ n ∈ ns, n.keyword?.isSome → n.isBuilt = true

/-- Whether the next statement begins a line when `t` was written. -/
def lineStartAfter (lineStart : Bool) (t : Text) : Bool :=
  match t.getLast? with
  | none => lineStart
  | some b => b = Byte.newline

lemma renderFrom_cons_of_built {n : Node} (h : n.isBuilt = true) (lineStart : Bool)
    (ns : List Node) :
    renderFrom lineStart (n :: ns) =
      (if lineStart then [] else [Byte.newline]) ++ n.render 0 ++ [Byte.newline] ++
        renderFrom true ns := by
  rw [renderFrom, if_pos h]

lemma renderFrom_cons_of_not_built {n : Node} (h : n.isBuilt = false) (lineStart : Bool)
    (ns : List Node) :
    renderFrom lineStart (n :: ns) =
      n.written ++ renderFrom (lineStartAfter lineStart n.written) ns := by
  rw [renderFrom, h]
  rfl

lemma lineStartAfter_append_of_ne_nil (lineStart : Bool) (s : Text) {t : Text} (h : t ≠ []) :
    lineStartAfter lineStart (s ++ t) = lineStartAfter true t := by
  rw [lineStartAfter, lineStartAfter, List.getLast?_append_of_ne_nil s h]
  cases hl : t.getLast? with
  | none => exact absurd (List.getLast?_eq_none_iff.mp hl) h
  | some b => rfl

lemma hasSpareLineEnd_cons (n : Node) (ns : List Node) :
    hasSpareLineEnd (n :: ns) =
      (hasSpareLineEnd ns || (n.keyword?.isSome && ns.head?.any startsWithLineEnd)) := by
  cases ns with
  | nil => simp [hasSpareLineEnd]
  | cons m ns => simp [hasSpareLineEnd, Bool.or_comm]

/-- A line end behind a statement that brings its own makes the file longer, by one byte at least. -/
lemma length_renderFrom_settle_raw {t : Text} (ht : (Node.raw t).startsWithLineEnd = true)
    (ns : List Node) :
    ∃ lineStart, renderFrom true (settle (·.keyword?.isSome) true (.raw t :: ns)) =
        ((Node.raw t).afterRemoved.toList.flatMap written) ++
          renderFrom lineStart (settle (·.keyword?.isSome) false ns) ∧
      renderFrom true (.raw t :: ns) = t ++ renderFrom lineStart ns ∧
      ((Node.raw t).afterRemoved.toList.flatMap written).length < t.length := by
  refine ⟨lineStartAfter true t, ?_, renderFrom_cons_of_not_built rfl _ _, ?_⟩
  · rw [settle, if_pos rfl]
    rcases afterRemoved_raw ht with ⟨gap, rfl, he⟩ | ⟨gap, r, rfl, -, hr, he⟩
    · rw [he, lineStartAfter_append_of_ne_nil _ _ (by simp)]
      rfl
    · rw [he, Option.toList_some, List.singleton_append, renderFrom_cons_of_not_built rfl,
        lineStartAfter_append_of_ne_nil _ _ hr]
      simp only [written, List.flatMap_cons, List.flatMap_nil, List.append_nil]
      rfl
  · rcases afterRemoved_raw ht with ⟨gap, rfl, he⟩ | ⟨gap, r, rfl, hgap, -, he⟩
    · simp [he]
    · have hpos := List.length_pos_iff.mpr hgap
      simpa [he, written] using hpos

/-- The file does not become longer, and becomes shorter where a line end is to spare. -/
lemma length_renderFrom_settle_le {ns : List Node} (hb : KnownBuilt ns) {after lineStart : Bool}
    (hafter : after = true → lineStart = true) :
    (renderFrom lineStart (settle (·.keyword?.isSome) after ns)).length +
        (hasSpareLineEnd ns || (after && ns.head?.any startsWithLineEnd)).toNat ≤
      (renderFrom lineStart ns).length := by
  induction ns generalizing after lineStart with
  | nil => cases after <;> simp [settle, hasSpareLineEnd]
  | cons n ns ih =>
      have hbuilt := hb n (List.mem_cons_self ..)
      have ih' : ∀ after lineStart : Bool, (after = true → lineStart = true) → _ ≤ _ :=
        fun after lineStart => @ih (fun m hm => hb m (List.mem_cons_of_mem _ hm)) after lineStart
      rw [hasSpareLineEnd_cons]
      by_cases hcut : after = true ∧ n.startsWithLineEnd = true
      · obtain ⟨rfl, hn⟩ := hcut
        obtain rfl := hafter rfl
        cases n with
        | raw t =>
            obtain ⟨ls, h₁, h₂, hlt⟩ := length_renderFrom_settle_raw hn ns
            have hrest := ih' false ls (by simp)
            have hone := Bool.toNat_le (hasSpareLineEnd ns ||
              (Node.raw t).keyword?.isSome && ns.head?.any startsWithLineEnd || true &&
                (Node.raw t :: ns).head?.any startsWithLineEnd)
            rw [h₁, h₂, List.length_append, List.length_append]
            omega
        | source t => cases hn
        | line t => cases hn
        | block header body => cases hn
      · have hhead : (if after then n.afterRemoved.toList else [n]) = [n] := by
          cases after with
          | false => rfl
          | true =>
              rw [if_pos rfl, afterRemoved_eq_self (by simpa using hcut)]
              rfl
        have hnone : (after && (n :: ns).head?.any startsWithLineEnd) = false := by
          cases after with
          | false => rfl
          | true => simpa using hcut
        rw [settle, hhead, hnone, Bool.or_false, List.singleton_append]
        cases hn : n.isBuilt with
        | true =>
            have hrest := ih' n.keyword?.isSome true (fun _ => rfl)
            rw [renderFrom_cons_of_built hn, renderFrom_cons_of_built hn]
            simp only [List.length_append]
            omega
        | false =>
            have hknown : n.keyword?.isSome = false := by
              rw [← Bool.not_eq_true]
              exact fun h => absurd (hbuilt h) (by simp [hn])
            have hrest := ih' false (lineStartAfter lineStart n.written) (by simp)
            rw [renderFrom_cons_of_not_built hn, renderFrom_cons_of_not_built hn, hknown,
              List.length_append, List.length_append]
            simp only [Bool.false_and, Bool.or_false] at hrest ⊢
            omega

end Node

namespace Config

open Node

/-- What a configuration leaves of a file has each of its groups in one piece. -/
lemma grouped_apply (c : Config) (p : Placement) (ns : List Node) (k : Keyword) :
    Grouped c k (c.apply p ns).value := by
  have h := replaced_apply p c ns
  have hall : ∀ k, k ∈ Keyword.all := fun k => by cases k <;> decide
  obtain ⟨a, b, hab⟩ := h.isInfix (hall k) List.not_mem_nil
  have heq := h.statementsWith_eq (by decide) (hall k)
  rw [← hab, statementsWith_append, statementsWith_append, c.statementsWith_nodes, if_pos rfl,
    if_neg List.not_mem_nil] at heq
  have hlen := congrArg List.length heq
  simp only [List.length_append] at hlen
  have ha : statementsWith k a = [] := List.length_eq_zero_iff.mp (by omega)
  have hb : statementsWith k b = [] := List.length_eq_zero_iff.mp (by omega)
  exact ⟨a, b, hab.symm, ha, hb⟩

/-- The statements with known keywords in what a configuration leaves of a file were all built. -/
lemma knownBuilt_apply (c : Config) (p : Placement) (ns : List Node) :
    KnownBuilt (c.apply p ns).value := by
  intro n hn hk
  obtain ⟨k, hk⟩ := Option.isSome_iff_exists.mp hk
  have heq := (replaced_apply p c ns).statementsWith_eq (by decide)
    (show k ∈ Keyword.all by cases k <;> decide)
  rw [if_neg List.not_mem_nil] at heq
  have hmem : n ∈ statementsWith k (c.apply p ns).value := by
    simp [statementsWith, hn, hk]
  exact c.isBuilt_of_mem_nodes k (heq ▸ hmem)

/-- Groups that went to the end stay there when they are put there again. -/
lemma apply_append_apply (c : Config) (ns : List Node) :
    (c.apply .append (c.apply .append ns).value).value = (c.apply .append ns).value := by
  have h := (replaced_apply .append c ns).eq_append rfl fun k => by cases k <;> decide
  rw [show Keyword.all.filter (· ∉ []) = Keyword.all from by simp] at h
  rw [h]
  refine apply_append_of_grouped fun k => List.filter_eq_nil_iff.mpr fun n hn => ?_
  have hnone := (List.mem_filter.mp hn).2
  rw [decide_eq_true_eq] at hnone
  simp [hnone]

/-- Groups that stand in their places stay there, but for line ends behind them. -/
lemma apply_inPlace_apply (c : Config) (ns : List Node) :
    (c.apply .inPlace (c.apply .inPlace ns).value).value =
      settle (·.keyword?.isSome) false (c.apply .inPlace ns).value :=
  apply_inPlace_of_grouped (grouped_apply c .inPlace ns)

/-- A second run in place changes the file exactly when a line end is to spare. -/
lemma renderFile_apply_inPlace_apply_iff (c : Config) (ns : List Node) :
    renderFile (c.apply .inPlace (c.apply .inPlace ns).value).value =
        renderFile (c.apply .inPlace ns).value ↔
      hasSpareLineEnd (c.apply .inPlace ns).value = false := by
  rw [apply_inPlace_apply]
  constructor
  · intro heq
    have hle := @length_renderFrom_settle_le _ (knownBuilt_apply c .inPlace ns) false true (by simp)
    rw [renderFile, renderFile] at heq
    rw [heq, Bool.false_and, Bool.or_false] at hle
    cases h : hasSpareLineEnd (c.apply .inPlace ns).value with
    | false => rfl
    | true => rw [h, Bool.toNat_true] at hle; omega
  · intro h
    rw [settle_eq_self_of_not_spare h (by simp)]

/-- **Applying a configuration twice.**  The second run over the same nodes leaves the file as it is
    exactly if groups go to the end, or no fragment right behind a group begins with a line end. -/
theorem renderFile_apply_apply_iff (c : Config) (p : Placement) (ns : List Node) :
    renderFile (c.apply p (c.apply p ns).value).value = renderFile (c.apply p ns).value ↔
      p = .append ∨ hasSpareLineEnd (c.apply p ns).value = false := by
  cases p with
  | append => simp [apply_append_apply]
  | inPlace => simp [renderFile_apply_inPlace_apply_iff]

/-- A configuration with one zone and nothing else. -/
def oneZone : Config := { Config.empty with zones := [Zone.empty "a"] }

/-- An empty line behind the last zone is lost in the second run. -/
theorem renderFile_apply_apply_ne :
    renderFile (oneZone.apply .inPlace (oneZone.apply .inPlace
        (Node.parse "zone \"a\" \x7b \x7d;\n\n# end\n")).value).value ≠
      renderFile (oneZone.apply .inPlace (Node.parse "zone \"a\" \x7b \x7d;\n\n# end\n")).value := by
  have once : renderFile (oneZone.apply .inPlace
      (Node.parse "zone \"a\" \x7b \x7d;\n\n# end\n")).value =
        Text.ofString "zone \"a\" \x7b\n\x7d;\n\n# end\n" := by cbv
  have twice : renderFile (oneZone.apply .inPlace (oneZone.apply .inPlace
      (Node.parse "zone \"a\" \x7b \x7d;\n\n# end\n")).value).value =
        Text.ofString "zone \"a\" \x7b\n\x7d;\n# end\n" := by cbv
  rw [once, twice]
  decide

end Config

end NameServerConf
