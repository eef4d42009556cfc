import Mathlib.Data.List.TakeWhile
import NameServerConf.Proofs.Keywords

/-!
# What applying a configuration does to a file

**One keyword.**  `Replaced` relates a list of nodes to what becomes of it when the statements of
some keywords give way to those of a configuration.  It has one rule for each thing that can happen
to a node, and one for the end of the file, where the groups that found no place are put.
`replaced_replace` says that the code does this for one keyword.

**All keywords.**  Bringing keywords up to date one after the other is the same as doing it for all
of them at once (`Replaced.trans`): the groups that are put in have other keywords, so later passes
run over them without touching them.  Hence `replaced_apply`.

**What follows.**  Statements with unknown keywords do not change, those with known ones are built from
the entities of the configuration (`Represents`), each group is there exactly once and in one piece,
fragments lose nothing but blanks at their beginning, and the groups stand where they should:
`apply_spec`.
-/

namespace NameServerConf

namespace Node

/-! ## Fragments behind removed statements -/

/-- What can be left of nodes that are kept: all of them, in order.  A fragment may have lost
    blanks, tabs and line feeds at its beginning, and is gone only if there was nothing else in it. -/
inductive Shortened : List Node → List Node → Prop
  | nil : Shortened [] []
  | keep {ns ms : List Node} (n : Node) : Shortened ns ms → Shortened (n :: ns) (n :: ms)
  | cut {ns ms : List Node} {gap t : Text} : (∀ b ∈ gap, Text.isWordGap b) → t ≠ [] →
      Shortened ns ms → Shortened (.raw (gap ++ t) :: ns) (.raw t :: ms)
  | drop {ns ms : List Node} {gap : Text} : (∀ b ∈ gap, Text.isWordGap b) → gap ≠ [] →
      Shortened ns ms → Shortened (.raw gap :: ns) ms

/-- The line gap at the beginning of a text, and the line feed behind it if there is one. -/
lemma isWordGap_of_mem_takeWhile {t : Text} {b : UInt8} (h : b ∈ t.takeWhile isLineGap) :
    Text.isWordGap b := by
  have hb := List.mem_takeWhile_imp h
  simp only [isLineGap, Bool.or_eq_true] at hb
  simp only [Text.isWordGap, Bool.or_eq_true]
  exact Or.inl hb

/-- What the line end behind a removed statement can be: nothing, a part of a fragment, or all
    of it. -/
lemma afterRemoved_cases (n : Node) :
    n.afterRemoved = some n ∨
      (∃ gap t, n = .raw (gap ++ t) ∧ (∀ b ∈ gap, Text.isWordGap b) ∧ t ≠ [] ∧
        n.afterRemoved = some (.raw t)) ∨
      (∃ gap, n = .raw gap ∧ (∀ b ∈ gap, Text.isWordGap b) ∧ gap ≠ [] ∧ n.afterRemoved = none) := by
  cases n with
  | raw t =>
      have ht := List.takeWhile_append_dropWhile (p := isLineGap) (l := t)
      simp only [afterRemoved]
      split
      next => exact Or.inl rfl
      next b r hr =>
        by_cases hb : b = Byte.newline
        · subst hb
          have hgap : ∀ b ∈ t.takeWhile isLineGap ++ [Byte.newline], Text.isWordGap b := by
            intro b hb
            rcases List.mem_append.mp hb with hb | hb
            · exact isWordGap_of_mem_takeWhile hb
            · rw [List.mem_singleton.mp hb]
              rfl
          have htext : t = t.takeWhile isLineGap ++ [Byte.newline] ++ r := by
            rw [List.append_assoc, List.singleton_append, ← hr, ht]
          rw [if_neg (fun h => h rfl)]
          split
          next hnil =>
            rw [hnil, List.append_nil] at htext
            exact Or.inr (Or.inr ⟨t, rfl, htext ▸ hgap, by rw [htext]; simp, rfl⟩)
          next hne =>
            exact Or.inr (Or.inl ⟨_, r, congrArg Node.raw htext, hgap, hne, rfl⟩)
        · rw [if_pos hb]
          exact Or.inl rfl
  | source t => exact Or.inl rfl
  | line t => exact Or.inl rfl
  | block header body => exact Or.inl rfl

/-! ## Some keywords at once -/

/-- `Replaced p c ks seen ns ms`: the nodes `ns` become `ms` when their statements with keywords in
    `ks` give way to those of `c`.  The groups of the keywords in `seen` have been put before. -/
inductive Replaced (p : Placement) (c : Config) (ks : List Keyword) :
    List Keyword → List Node → List Node → Prop
  /-- At the end of the file all groups are put that found no place before. -/
  | done (seen : List Keyword) :
      Replaced p c ks seen [] ((ks.filter (· ∉ seen)).flatMap c.nodes)
  /-- The first statement with a keyword gives its place to the group. -/
  | first {seen : List Keyword} {k : Keyword} {n : Node} {ns ms : List Node} :
      p = .inPlace → n.keyword? = some k → k ∈ ks → k ∉ seen →
      Replaced p c ks (k :: seen) ns ms → Replaced p c ks seen (n :: ns) (c.nodes k ++ ms)
  /-- Any other statement with a keyword goes without a trace. -/
  | again {seen : List Keyword} {k : Keyword} {n : Node} {ns ms : List Node} :
      (p = .append ∨ k ∈ seen) → n.keyword? = some k → k ∈ ks →
      Replaced p c ks seen ns ms → Replaced p c ks seen (n :: ns) ms
  /-- All other nodes stay. -/
  | keep {seen : List Keyword} {n : Node} {ns ms : List Node} :
      (∀ k ∈ ks, n.keyword? ≠ some k) →
      Replaced p c ks seen ns ms → Replaced p c ks seen (n :: ns) (n :: ms)
  /-- A fragment may lose blanks. -/
  | cut {seen : List Keyword} {gap t : Text} {ns ms : List Node} :
      (∀ b ∈ gap, Text.isWordGap b) → t ≠ [] →
      Replaced p c ks seen ns ms → Replaced p c ks seen (.raw (gap ++ t) :: ns) (.raw t :: ms)
  /-- A fragment of nothing but blanks may go. -/
  | drop {seen : List Keyword} {gap : Text} {ns ms : List Node} :
      (∀ b ∈ gap, Text.isWordGap b) → gap ≠ [] →
      Replaced p c ks seen ns ms → Replaced p c ks seen (.raw gap :: ns) ms

variable {p : Placement} {c : Config}

lemma hasKeyword_false_iff {n : Node} {k : Keyword} :
    n.hasKeyword k.word = false ↔ n.keyword? ≠ some k := by
  rw [← Bool.not_eq_true, hasKeyword_word_iff]

/-- Behind the place of its group, or when groups go to the end, the statements with a keyword
    are just taken out. -/
lemma replaced_withoutKeyword {k : Keyword} {seen : List Keyword} (h : p = .append ∨ k ∈ seen)
    (removed : Bool) (ns : List Node) :
    Replaced p c [k] seen ns
      (withoutKeyword k.word removed ns ++ ([k].filter (· ∉ seen)).flatMap c.nodes) := by
  induction ns generalizing removed with
  | nil => exact .done seen
  | cons n ns ih =>
      rw [withoutKeyword]
      by_cases hn : n.hasKeyword k.word
      · rw [if_pos hn]
        exact .again h (hasKeyword_word_iff.mp hn) (List.mem_singleton_self k) (ih true)
      · have hkeep : ∀ j ∈ [k], n.keyword? ≠ some j := by
          intro j hj
          rw [List.mem_singleton.mp hj]
          exact hasKeyword_false_iff.mp (Bool.not_eq_true _ ▸ hn)
        rw [if_neg hn]
        cases removed with
        | false => exact .keep hkeep (ih false)
        | true =>
            rcases afterRemoved_cases n with h' | ⟨gap, t, rfl, hgap, ht, h'⟩ | ⟨gap, rfl, hgap, hne, h'⟩
            · simp only [if_true, h']
              exact .keep hkeep (ih false)
            · simp only [if_true, h']
              exact .cut hgap ht (ih false)
            · simp only [if_true, h']
              exact .drop hgap hne (ih false)

/-- Bringing one keyword up to date. -/
theorem replaced_replace (p : Placement) (c : Config) (k : Keyword) (ns : List Node) :
    Replaced p c [k] [] ns (replace p k.word (c.nodes k) ns) := by
  cases p with
  | append =>
      have h : Replaced .append c [k] [] ns _ := replaced_withoutKeyword (Or.inl rfl) false ns
      simpa [replace] using h
  | inPlace =>
      rw [replace]
      induction ns with
      | nil =>
          have h : Replaced .inPlace c [k] [] [] _ := .done []
          simpa using h
      | cons n ns ih =>
          by_cases hn : n.hasKeyword k.word
          · have h : Replaced .inPlace c [k] [k] ns _ := replaced_withoutKeyword
              (Or.inr (List.mem_singleton_self k)) true ns
            have h' := Replaced.first (n := n) rfl (hasKeyword_word_iff.mp hn)
              (List.mem_singleton_self k) List.not_mem_nil h
            simpa [hn, withoutKeyword] using h'
          · have hkeep : ∀ j ∈ [k], n.keyword? ≠ some j := by
              intro j hj
              rw [List.mem_singleton.mp hj]
              exact hasKeyword_false_iff.mp (Bool.not_eq_true _ ▸ hn)
            have hn' : n.hasKeyword k.word = false := by simpa using hn
            rw [List.dropWhile_cons, List.takeWhile_cons]
            simp only [hn', Bool.not_false, if_true]
            have h' := Replaced.keep hkeep ih
            cases hrest : ns.dropWhile (!·.hasKeyword k.word) with
            | nil => simpa [hrest] using h'
            | cons m ms => simpa [hrest] using h'

/-! ### One pass after the other -/

/-- Which groups have been put matters, not in which order. -/
lemma Replaced.of_mem_iff {ks seen : List Keyword} {ns ms : List Node}
    (h : Replaced p c ks seen ns ms) :
    ∀ {seen' : List Keyword}, (∀ k, k ∈ seen ↔ k ∈ seen') → Replaced p c ks seen' ns ms := by
  induction h with
  | done seen =>
      intro seen' hs
      have hfilter : ks.filter (· ∉ seen) = ks.filter (· ∉ seen') := by simp only [hs]
      rw [hfilter]
      exact .done seen'
  | first hp hn hk hnew _ ih =>
      intro seen' hs
      refine .first hp hn hk (fun h => hnew ((hs _).mpr h)) (ih fun j => ?_)
      simp only [List.mem_cons, hs]
  | again hk hn hmem _ ih =>
      intro seen' hs
      exact .again (hk.imp_right (hs _).mp) hn hmem (ih hs)
  | keep hn _ ih => exact fun hs => .keep hn (ih hs)
  | cut hgap ht _ ih => exact fun hs => .cut hgap ht (ih hs)
  | drop hgap hne _ ih => exact fun hs => .drop hgap hne (ih hs)

/-- A group that was put in for another keyword stays in one piece. -/
lemma Replaced.of_group {k : Keyword} {ks seen : List Keyword} (hk : k ∉ ks) {g ns ls : List Node}
    (hg : ∀ n ∈ g, n.keyword? = some k) (h : Replaced p c ks seen (g ++ ns) ls) :
    ∃ ls', ls = g ++ ls' ∧ Replaced p c ks seen ns ls' := by
  induction g generalizing ls with
  | nil => exact ⟨ls, rfl, h⟩
  | cons n g ih =>
      have hn := hg n (List.mem_cons_self ..)
      have hg' : ∀ m ∈ g, m.keyword? = some k := fun m hm => hg m (List.mem_cons_of_mem _ hm)
      generalize hns : n :: g ++ ns = l at h
      cases h with
      | done => cases hns
      | first _ hm hj =>
          obtain ⟨rfl, -⟩ := List.cons.inj hns
          rw [hn] at hm
          exact absurd (Option.some.inj hm ▸ hj) hk
      | again _ hm hj =>
          obtain ⟨rfl, -⟩ := List.cons.inj hns
          rw [hn] at hm
          exact absurd (Option.some.inj hm ▸ hj) hk
      | keep _ h =>
          obtain ⟨rfl, rfl⟩ := List.cons.inj hns
          obtain ⟨ls', rfl, h'⟩ := ih hg' h
          exact ⟨ls', rfl, h'⟩
      | cut =>
          obtain ⟨rfl, -⟩ := List.cons.inj hns
          cases hn
      | drop =>
          obtain ⟨rfl, -⟩ := List.cons.inj hns
          cases hn

/-- A pass for one keyword and then passes for others are passes for all of them. -/
theorem Replaced.trans {k : Keyword} {ks : List Keyword} (hk : k ∉ ks) {s₁ : List Keyword}
    {ns ms : List Node} (h₁ : Replaced p c [k] s₁ ns ms) (hs₁ : ∀ j ∈ s₁, j = k) :
    ∀ {s₂ : List Keyword} {ls : List Node}, k ∉ s₂ → Replaced p c ks s₂ ms ls →
      Replaced p c (k :: ks) (s₁ ++ s₂) ns ls := by
  have hgroup : ∀ n ∈ c.nodes k, n.keyword? = some k := fun _ => c.keyword?_of_mem_nodes k
  induction h₁ with
  | done s₁ =>
      intro s₂ ls hs₂ h₂
      have hrest : ks.filter (· ∉ s₁ ++ s₂) = ks.filter (· ∉ s₂) := by
        refine List.filter_congr fun j hj => ?_
        have hjk : j ∉ s₁ := fun h => hk (hs₁ j h ▸ hj)
        simp [hjk]
      have hfin : Replaced p c (k :: ks) (s₁ ++ s₂) [] _ := .done (s₁ ++ s₂)
      by_cases hmem : k ∈ s₁
      · rw [List.filter_cons_of_neg (by simp [hmem]), hrest] at hfin
        rw [List.filter_cons_of_neg (by simp [hmem])] at h₂
        cases h₂
        exact hfin
      · rw [List.filter_cons_of_pos (by simp [hmem, hs₂]), hrest, List.flatMap_cons] at hfin
        rw [List.filter_cons_of_pos (by simp [hmem]), List.filter_nil, List.flatMap_cons] at h₂
        obtain ⟨ls', rfl, h'⟩ := h₂.of_group hk hgroup
        cases h'
        exact hfin
  | first hp hn hmem hnew _ ih =>
      intro s₂ ls hs₂ h₂
      obtain rfl := List.mem_singleton.mp hmem
      obtain ⟨ls', rfl, h'⟩ := h₂.of_group hk hgroup
      have hnew' : _ ∉ _ ++ s₂ := fun h => (List.mem_append.mp h).elim hnew hs₂
      refine .first hp hn (List.mem_cons_self ..) hnew' (ih ?_ hs₂ h')
      exact List.forall_mem_cons.mpr ⟨rfl, hs₁⟩
  | again hseen hn hmem _ ih =>
      intro s₂ ls hs₂ h₂
      obtain rfl := List.mem_singleton.mp hmem
      exact .again (hseen.imp_right (List.mem_append_left _)) hn (List.mem_cons_self ..)
        (ih hs₁ hs₂ h₂)
  | keep hn _ ih =>
      intro s₂ ls hs₂ h₂
      have hnk := hn k (List.mem_singleton_self k)
      cases h₂ with
      | first hp hm hj hnew h' =>
          have hjk : _ ≠ k := fun e => hk (e ▸ hj)
          have hnew' : _ ∉ _ ++ s₂ :=
            fun h => (List.mem_append.mp h).elim (fun h => hjk (hs₁ _ h)) hnew
          refine .first hp hm (List.mem_cons_of_mem _ hj) hnew' ?_
          have hs₂' : k ∉ _ :: s₂ := fun h => (List.mem_cons.mp h).elim (fun e => hjk e.symm) hs₂
          refine (ih hs₁ hs₂' h').of_mem_iff fun i => ?_
          simp only [List.mem_append, List.mem_cons]
          tauto
      | again hseen hm hj h' =>
          exact .again (hseen.imp_right (List.mem_append_right _)) hm (List.mem_cons_of_mem _ hj)
            (ih hs₁ hs₂ h')
      | keep hm h' =>
          exact .keep (List.forall_mem_cons.mpr ⟨hnk, hm⟩) (ih hs₁ hs₂ h')
      | cut hgap ht h' => exact .cut hgap ht (ih hs₁ hs₂ h')
      | drop hgap hne h' => exact .drop hgap hne (ih hs₁ hs₂ h')
  | @cut _ gap _ _ _ hgap ht _ ih =>
      intro s₂ ls hs₂ h₂
      generalize hraw : Node.raw _ = n at h₂
      cases h₂ with
      | first _ hm => rw [← hraw] at hm; cases hm
      | again _ hm => rw [← hraw] at hm; cases hm
      | keep _ h' =>
          rw [← hraw]
          exact .cut hgap ht (ih hs₁ hs₂ h')
      | cut hgap' ht' h' =>
          obtain rfl := Node.raw.inj hraw
          rw [← List.append_assoc]
          exact .cut (List.forall_mem_append.mpr ⟨hgap, hgap'⟩) ht' (ih hs₁ hs₂ h')
      | drop hgap' hne' h' =>
          obtain rfl := Node.raw.inj hraw
          exact .drop (List.forall_mem_append.mpr ⟨hgap, hgap'⟩)
            (List.append_ne_nil_of_right_ne_nil _ hne')
            (ih hs₁ hs₂ h')
  | drop hgap hne _ ih =>
      intro s₂ ls hs₂ h₂
      exact .drop hgap hne (ih hs₁ hs₂ h₂)

/-- Nothing happens to nodes when no keyword is brought up to date. -/
lemma replaced_refl (ns : List Node) : Replaced p c [] [] ns ns := by
  induction ns with
  | nil => exact .done []
  | cons n ns ih => exact .keep (fun _ h => absurd h List.not_mem_nil) ih

end Node

namespace Config

open Node

theorem replaced_applyAll (p : Placement) (c : Config) {ks : List Keyword} (hks : ks.Nodup)
    (ns : List Node) : Replaced p c ks [] ns (applyAll p c ks ns).value := by
  induction ks generalizing ns with
  | nil => exact replaced_refl ns
  | cons k ks ih =>
      obtain ⟨hk, hks'⟩ := List.nodup_cons.mp hks
      exact (replaced_replace p c k ns).trans hk (by simp) List.not_mem_nil (ih hks' _)

/-- Applying a configuration brings all keywords up to date at once. -/
theorem replaced_apply (p : Placement) (c : Config) (ns : List Node) :
    Replaced p c Keyword.all [] ns (c.apply p ns).value :=
  replaced_applyAll p c (by decide) ns

end Config

/-! ## What follows from it -/

namespace Node

/-- The statements with a known keyword. -/
def statementsWith (k : Keyword) (ns : List Node) : List Node := ns.filter (·.keyword? = some k)

/-- The nodes that are no statements with a known keyword: fragments and foreign statements. -/
def others (ns : List Node) : List Node := ns.filter (·.keyword? = none)

/-- A statement with a keyword that the library does not know. -/
def isForeign (n : Node) : Bool := n.statement?.isSome && n.keyword? = none

@[simp] lemma statementsWith_nil (k : Keyword) : statementsWith k [] = [] := rfl

@[simp] lemma statementsWith_append (k : Keyword) (ns ms : List Node) :
    statementsWith k (ns ++ ms) = statementsWith k ns ++ statementsWith k ms :=
  List.filter_append ..

lemma statementsWith_cons_self {k : Keyword} {n : Node} (h : n.keyword? = some k) (ns : List Node) :
    statementsWith k (n :: ns) = n :: statementsWith k ns := by simp [statementsWith, h]

lemma statementsWith_cons_of_ne {k : Keyword} {n : Node} (h : n.keyword? ≠ some k)
    (ns : List Node) : statementsWith k (n :: ns) = statementsWith k ns := by
  simp [statementsWith, h]

lemma statementsWith_cons_of_other {j k : Keyword} {n : Node} (h : n.keyword? = some j)
    (hjk : j ≠ k) (ns : List Node) : statementsWith k (n :: ns) = statementsWith k ns :=
  statementsWith_cons_of_ne (fun hk => hjk (Option.some.inj (h.symm.trans hk))) ns

@[simp] lemma others_append (ns ms : List Node) : others (ns ++ ms) = others ns ++ others ms :=
  List.filter_append ..

lemma others_cons_self {n : Node} (h : n.keyword? = none) (ns : List Node) :
    others (n :: ns) = n :: others ns := by simp [others, h]

lemma others_cons_of_keyword {k : Keyword} {n : Node} (h : n.keyword? = some k) (ns : List Node) :
    others (n :: ns) = others ns := by simp [others, h]

lemma isForeign_eq_false {k : Keyword} {n : Node} (h : n.keyword? = some k) :
    n.isForeign = false := by simp [isForeign, h]

end Node

namespace Config

open Node

variable (c : Config)

lemma statementsWith_nodes (k j : Keyword) :
    statementsWith k (c.nodes j) = if j = k then c.nodes k else [] := by
  have hj : ∀ n ∈ c.nodes j, n.keyword? = some j := fun _ => c.keyword?_of_mem_nodes j
  split
  next h =>
    subst h
    exact List.filter_eq_self.mpr fun n hn => by simp [hj n hn]
  next h => exact List.filter_eq_nil_iff.mpr fun n hn => by simp [hj n hn, h]

lemma others_nodes (k : Keyword) : others (c.nodes k) = [] :=
  List.filter_eq_nil_iff.mpr fun n hn => by simp [c.keyword?_of_mem_nodes k hn]

lemma filter_isForeign_nodes (k : Keyword) : (c.nodes k).filter isForeign = [] :=
  List.filter_eq_nil_iff.mpr fun n hn => by
    simp [isForeign_eq_false (c.keyword?_of_mem_nodes k hn)]

lemma others_flatMap_nodes (ks : List Keyword) : others (ks.flatMap c.nodes) = [] := by
  induction ks with
  | nil => rfl
  | cons k ks ih => rw [List.flatMap_cons, others_append, c.others_nodes, ih]; rfl

lemma filter_isForeign_flatMap_nodes (ks : List Keyword) :
    (ks.flatMap c.nodes).filter isForeign = [] := by
  induction ks with
  | nil => rfl
  | cons k ks ih =>
      rw [List.flatMap_cons, List.filter_append, c.filter_isForeign_nodes, ih]
      rfl

/-- Among the groups of some keywords there is one for each. -/
lemma statementsWith_flatMap_nodes {ks : List Keyword} (hks : ks.Nodup) (k : Keyword) :
    statementsWith k (ks.flatMap c.nodes) = if k ∈ ks then c.nodes k else [] := by
  induction ks with
  | nil => rfl
  | cons j ks ih =>
      obtain ⟨hj, hks'⟩ := List.nodup_cons.mp hks
      rw [List.flatMap_cons, statementsWith_append, c.statementsWith_nodes, ih hks']
      by_cases h : j = k
      · subst h
        simp [hj]
      · simp [h, Ne.symm h]

end Config

namespace Node

variable {p : Placement} {c : Config} {ks seen : List Keyword} {ns ms : List Node}

/-- Each group is there once, unless it was put before. -/
lemma Replaced.statementsWith_eq (h : Replaced p c ks seen ns ms) (hks : ks.Nodup) {k : Keyword}
    (hk : k ∈ ks) : statementsWith k ms = if k ∈ seen then [] else c.nodes k := by
  induction h with
  | done seen =>
      rw [c.statementsWith_flatMap_nodes (hks.filter _)]
      by_cases hs : k ∈ seen <;> simp [hk, hs]
  | @first seen j n ns ms _ _ _ hnew _ ih =>
      rw [statementsWith_append, c.statementsWith_nodes, ih]
      by_cases hjk : j = k
      · subst hjk
        simp [hnew]
      · simp [hjk, Ne.symm hjk]
  | again _ _ _ _ ih => exact ih
  | keep hn _ ih => rw [statementsWith_cons_of_ne (hn k hk), ih]
  | cut _ _ _ ih => exact ih
  | drop _ _ _ ih => exact ih

/-- Each group is in one piece. -/
lemma Replaced.isInfix (h : Replaced p c ks seen ns ms) {k : Keyword} (hk : k ∈ ks)
    (hs : k ∉ seen) : c.nodes k <:+: ms := by
  induction h with
  | done seen =>
      have hmem : k ∈ ks.filter (· ∉ seen) := by simp [hk, hs]
      obtain ⟨l₁, l₂, hl⟩ := List.append_of_mem hmem
      rw [hl, List.flatMap_append, List.flatMap_cons]
      exact ⟨_, _, List.append_assoc ..⟩
  | @first seen j n ns ms _ _ _ _ _ ih =>
      by_cases hjk : j = k
      · subst hjk
        exact List.infix_append' [] _ _
      · have hs' : k ∉ j :: seen := by simp [hs, Ne.symm hjk]
        exact (ih hs').trans (List.suffix_append ..).isInfix
  | again _ _ _ _ ih => exact ih hs
  | keep _ _ ih => exact (ih hs).trans (List.suffix_cons ..).isInfix
  | cut _ _ _ ih => exact (ih hs).trans (List.suffix_cons ..).isInfix
  | drop _ _ _ ih => exact ih hs

/-- Foreign statements do not change. -/
lemma Replaced.filter_isForeign (h : Replaced p c ks seen ns ms) :
    ms.filter isForeign = ns.filter isForeign := by
  induction h with
  | done seen => exact c.filter_isForeign_flatMap_nodes _
  | first _ hn _ _ _ ih =>
      rw [List.filter_append, c.filter_isForeign_nodes, ih, List.nil_append,
        List.filter_cons_of_neg (by simp [isForeign_eq_false hn])]
  | again _ hn _ _ ih => rw [ih, List.filter_cons_of_neg (by simp [isForeign_eq_false hn])]
  | keep _ _ ih => rw [List.filter_cons, List.filter_cons, ih]
  | cut _ _ _ ih => exact ih
  | drop _ _ _ ih => exact ih

/-- All other nodes stay as they are and where they are, fragments but for blanks. -/
lemma Replaced.shortened_others (h : Replaced p c ks seen ns ms) (hall : ∀ k, k ∈ ks) :
    Shortened (others ns) (others ms) := by
  induction h with
  | done seen =>
      rw [c.others_flatMap_nodes]
      exact .nil
  | first _ hn _ _ _ ih =>
      rw [others_cons_of_keyword hn, others_append, c.others_nodes]
      exact ih
  | again _ hn _ _ ih =>
      rw [others_cons_of_keyword hn]
      exact ih
  | @keep _ n _ _ hn _ ih =>
      have hnone : n.keyword? = none := Option.eq_none_iff_forall_ne_some.mpr fun k => hn k (hall k)
      rw [others_cons_self hnone, others_cons_self hnone]
      exact .keep n ih
  | cut hgap ht _ ih => exact .cut hgap ht ih
  | drop hgap hne _ ih => exact .drop hgap hne ih

/-- When groups go to the end, they come after everything else. -/
lemma Replaced.eq_append (h : Replaced p c ks seen ns ms) (hp : p = .append) (hall : ∀ k, k ∈ ks) :
    ms = others ms ++ (ks.filter (· ∉ seen)).flatMap c.nodes := by
  induction h with
  | done seen => rw [c.others_flatMap_nodes, List.nil_append]
  | first hp' => exact absurd (hp'.symm.trans hp) (by decide)
  | again _ _ _ _ ih => exact ih
  | @keep _ n _ _ hn _ ih =>
      have hnone : n.keyword? = none := Option.eq_none_iff_forall_ne_some.mpr fun k => hn k (hall k)
      rw [others_cons_self hnone, List.cons_append, ← ih]
  | cut _ _ _ ih => rw [others_cons_self (keyword?_raw _), List.cons_append, ← ih]
  | drop _ _ _ ih => exact ih

end Node

/-! ### Where groups stand -/

namespace Node

variable {p : Placement} {c : Config} {ks seen : List Keyword} {ns ms : List Node}

/-- `ms` has the group of a keyword where `ns` has the first statement with it.  What stands before
    and after that statement stands before and after the group, other nodes in their order, and the
    groups before it are those of the keywords that occur before it. -/
def GroupAtFirst (c : Config) (ns ms : List Node) (k : Keyword) : Prop :=
  ∀ before first after, ns = before ++ first :: after → first.keyword? = some k →
    statementsWith k before = [] →
    ∃ before' after', ms = before' ++ c.nodes k ++ after' ∧
      Shortened (others before) (others before') ∧ Shortened (others after) (others after') ∧
      ∀ j, statementsWith j before' = if statementsWith j before = [] then [] else c.nodes j

/-- What is not a statement with the keyword stands before the first one. -/
lemma exists_cons_of_ne {k : Keyword} {n first : Node} {before after : List Node}
    (hns : n :: ns = before ++ first :: after) (hn : n.keyword? ≠ some k)
    (hfirst : first.keyword? = some k) :
    ∃ before', before = n :: before' ∧ ns = before' ++ first :: after := by
  cases before with
  | nil =>
      obtain ⟨rfl, -⟩ := List.cons.inj hns
      exact absurd hfirst hn
  | cons m before =>
      obtain ⟨rfl, rfl⟩ := List.cons.inj hns
      exact ⟨before, rfl, rfl⟩

lemma Replaced.group_at_first (h : Replaced p c ks seen ns ms) (hp : p = .inPlace)
    (hall : ∀ k, k ∈ ks) {k : Keyword} :
    ∀ {before first after}, k ∉ seen → ns = before ++ first :: after → first.keyword? = some k →
      statementsWith k before = [] →
      ∃ before' after', ms = before' ++ c.nodes k ++ after' ∧
        Shortened (others before) (others before') ∧ Shortened (others after) (others after') ∧
        ∀ j, statementsWith j before' =
          if j ∈ seen ∨ statementsWith j before = [] then [] else c.nodes j := by
  induction h with
  | done => intro before first after _ hns; simp at hns
  | @first seen j n ns ms _ hn _ hnew h ih =>
      intro before first after hk hns hfirst hbefore
      cases before with
      | nil =>
          obtain ⟨rfl, rfl⟩ := List.cons.inj hns
          obtain rfl : j = k := Option.some.inj (hn.symm.trans hfirst)
          exact ⟨[], ms, rfl, .nil, h.shortened_others hall, fun i => by simp⟩
      | cons m before =>
          obtain ⟨rfl, rfl⟩ := List.cons.inj hns
          have hjk : j ≠ k := by
            rintro rfl
            rw [statementsWith_cons_self hn] at hbefore
            cases hbefore
          rw [statementsWith_cons_of_other hn hjk] at hbefore
          obtain ⟨b, a, rfl, hb, ha, hj⟩ := ih (by simp [hk, Ne.symm hjk]) rfl hfirst hbefore
          refine ⟨c.nodes j ++ b, a, by simp only [List.append_assoc], ?_, ha, fun i => ?_⟩
          · rw [others_cons_of_keyword hn, others_append, c.others_nodes]
            exact hb
          · rw [statementsWith_append, c.statementsWith_nodes, hj]
            by_cases hij : j = i
            · subst hij
              simp [hnew, statementsWith_cons_self hn]
            · simp [hij, Ne.symm hij, statementsWith_cons_of_other hn hij]
  | @again seen j n ns ms hseen hn _ h ih =>
      intro before first after hk hns hfirst hbefore
      have hj : j ∈ seen := hseen.resolve_left (by rw [hp]; decide)
      have hnk : n.keyword? ≠ some k := fun e => hk (Option.some.inj (hn.symm.trans e) ▸ hj)
      obtain ⟨before, rfl, rfl⟩ := exists_cons_of_ne hns hnk hfirst
      rw [statementsWith_cons_of_ne hnk] at hbefore
      obtain ⟨b, a, rfl, hb, ha, hi⟩ := ih hk rfl hfirst hbefore
      refine ⟨b, a, rfl, ?_, ha, fun i => ?_⟩
      · rw [others_cons_of_keyword hn]
        exact hb
      · rw [hi]
        by_cases hij : j = i
        · subst hij
          simp [hj]
        · simp [statementsWith_cons_of_other hn hij]
  | @keep seen n ns ms hn h ih =>
      intro before first after hk hns hfirst hbefore
      have hnone : n.keyword? = none := Option.eq_none_iff_forall_ne_some.mpr fun k => hn k (hall k)
      obtain ⟨before, rfl, rfl⟩ := exists_cons_of_ne hns (hn k (hall k)) hfirst
      rw [statementsWith_cons_of_ne (hn k (hall k))] at hbefore
      obtain ⟨b, a, rfl, hb, ha, hi⟩ := ih hk rfl hfirst hbefore
      refine ⟨n :: b, a, rfl, ?_, ha, fun i => ?_⟩
      · rw [others_cons_self hnone, others_cons_self hnone]
        exact .keep n hb
      · rw [statementsWith_cons_of_ne (hn i (hall i)), statementsWith_cons_of_ne (hn i (hall i)),
          hi]
  | @cut _ _ t _ _ hgap ht h ih =>
      intro before first after hk hns hfirst hbefore
      obtain ⟨before, rfl, rfl⟩ := exists_cons_of_ne hns (Option.some_ne_none k).symm hfirst
      obtain ⟨b, a, rfl, hb, ha, hi⟩ := ih hk rfl hfirst hbefore
      exact ⟨.raw t :: b, a, rfl, .cut hgap ht hb, ha, hi⟩
  | drop hgap hne h ih =>
      intro before first after hk hns hfirst hbefore
      obtain ⟨before, rfl, rfl⟩ := exists_cons_of_ne hns (Option.some_ne_none k).symm hfirst
      obtain ⟨b, a, rfl, hb, ha, hi⟩ := ih hk rfl hfirst hbefore
      exact ⟨b, a, rfl, .drop hgap hne hb, ha, hi⟩

/-- The groups of keywords that do not occur end the file. -/
lemma Replaced.groups_at_end (h : Replaced p c ks seen ns ms) (hp : p = .inPlace) :
    ∃ front, ms = front ++
      (ks.filter fun k => k ∉ seen ∧ statementsWith k ns = []).flatMap c.nodes := by
  induction h with
  | done seen => exact ⟨[], by simp⟩
  | @first seen j n ns ms _ hn _ hnew _ ih =>
      obtain ⟨front, hfront⟩ := ih
      refine ⟨c.nodes j ++ front, ?_⟩
      rw [List.append_assoc, hfront]
      congr 3
      refine List.filter_congr fun k _ => ?_
      by_cases hjk : j = k
      · subst hjk
        simp [statementsWith_cons_self hn]
      · simp [statementsWith_cons_of_other hn hjk, Ne.symm hjk]
  | @again seen j n ns ms hseen hn _ _ ih =>
      obtain ⟨front, hfront⟩ := ih
      have hj : j ∈ seen := hseen.resolve_left (by rw [hp]; decide)
      refine ⟨front, ?_⟩
      rw [hfront]
      congr 2
      refine List.filter_congr fun k _ => ?_
      by_cases hjk : j = k
      · subst hjk
        simp [hj]
      · simp [statementsWith_cons_of_other hn hjk]
  | @keep seen n ns ms hn _ ih =>
      obtain ⟨front, hfront⟩ := ih
      refine ⟨n :: front, ?_⟩
      rw [List.cons_append, hfront]
      congr 3
      refine List.filter_congr fun k hk => ?_
      rw [statementsWith_cons_of_ne (hn k hk)]
  | @cut _ _ t _ _ _ _ _ ih =>
      obtain ⟨front, hfront⟩ := ih
      exact ⟨.raw t :: front, by rw [hfront]; rfl⟩
  | drop _ _ _ ih => exact ih

end Node

namespace Config

open Node

lemma isBuilt_of_mem_nodes (c : Config) (k : Keyword) {n : Node} (h : n ∈ c.nodes k) :
    n.isBuilt = true := by
  cases k <;> obtain ⟨e, -, rfl⟩ := List.mem_map.mp h <;> rfl

/-- The statements with known keywords are one for each entity of the configuration, built from it, in
    the same order. -/
structure Represents (ns : List Node) (c : Config) : Prop where
  includes : statementsWith .include ns = c.includes.map Include.node
  acls : statementsWith .acl ns = c.acls.map Acl.node
  keys : statementsWith .key ns = c.keys.map Key.node
  keyStores : statementsWith .keyStore ns = c.keyStores.map KeyStore.node
  remoteServers : statementsWith .remoteServers ns = c.remoteServers.map ServerGroup.node
  tls : statementsWith .tls ns = c.tls.map TlsProfile.node
  http : statementsWith .http ns = c.http.map HttpProfile.node
  controls : statementsWith .controls ns = c.controls.toList.map Controls.node
  logging : statementsWith .logging ns = c.logging.toList.map Logging.node
  options : statementsWith .options ns = c.options.toList.map Options.node
  trustAnchors : statementsWith .trustAnchors ns = c.trustAnchors.map TrustAnchors.node
  views : statementsWith .view ns = c.views.map View.node
  zones : statementsWith .zone ns = c.zones.map Zone.node

lemma represents_iff {ns : List Node} {c : Config} :
    Represents ns c ↔ ∀ k, statementsWith k ns = c.nodes k := by
  constructor
  · intro h k
    cases k
    exacts [h.includes, h.acls, h.keys, h.keyStores, h.remoteServers, h.tls, h.http, h.controls,
      h.logging, h.options, h.trustAnchors, h.views, h.zones]
  · exact fun h => ⟨h .include, h .acl, h .key, h .keyStore, h .remoteServers, h .tls, h .http,
      h .controls, h .logging, h .options, h .trustAnchors, h .view, h .zone⟩

/-- **What applying a configuration does.**  Foreign statements stay as they are; of each known
    keyword there are then exactly the statements of the configuration, one for each entity, newly
    built, in order and next to each other; all other nodes keep their order, and fragments lose
    only blanks at their beginning.  The groups come at the end, or each where the first statement
    with its keyword was and at the end if there was none. -/
theorem apply_spec (c : Config) (p : Placement) (ns : List Node) :
    ((c.apply p ns).value.filter isForeign = ns.filter isForeign) ∧
    Represents (c.apply p ns).value c ∧
    (∀ k, statementsWith k (c.apply p ns).value = c.nodes k ∧
      c.nodes k <:+: (c.apply p ns).value ∧ ∀ n ∈ c.nodes k, n.isBuilt = true) ∧
    Shortened (others ns) (others (c.apply p ns).value) ∧
    match p with
    | .append =>
        (c.apply p ns).value = others (c.apply p ns).value ++ Keyword.all.flatMap c.nodes
    | .inPlace =>
        (∀ k, GroupAtFirst c ns (c.apply p ns).value k) ∧
        ∃ front, (c.apply p ns).value =
          front ++ (Keyword.all.filter fun k => statementsWith k ns = []).flatMap c.nodes := by
  have h := replaced_apply p c ns
  have hall : ∀ k, k ∈ Keyword.all := fun k => by cases k <;> decide
  have hnodes : ∀ k, statementsWith k (c.apply p ns).value = c.nodes k := fun k => by
    simpa using h.statementsWith_eq (by decide) (hall k)
  refine ⟨h.filter_isForeign, represents_iff.mpr hnodes, fun k => ⟨hnodes k,
    h.isInfix (hall k) List.not_mem_nil, ?_⟩, h.shortened_others hall, ?_⟩
  · exact fun n => c.isBuilt_of_mem_nodes k
  · cases p with
    | append => simpa using h.eq_append rfl hall
    | inPlace =>
        refine ⟨fun k before first after hns hfirst hbefore => ?_, ?_⟩
        · simpa using h.group_at_first rfl hall List.not_mem_nil hns hfirst hbefore
        · simpa using h.groups_at_end rfl

end Config

end NameServerConf
