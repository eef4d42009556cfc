import NameServerConf.Proofs.ClosedText
import NameServerConf.Proofs.Reapply

/-!
# Applying a configuration to a file that it was written to

**What a file is split into.**  A file that was laid out has a line feed before a built statement
where one is needed, and one behind each.  `lined` puts the first into the nodes, `layOut` the second
and the statements' texts.  If all statements are complete, reading the file gives these nodes again,
fragments side by side made one (`parse_renderFile`).

**One keyword after the other.**  Applying the configuration puts back each group where it is and
takes the line feeds behind its statements, which were laid out with them, and nothing else
(`replace_inPlace_layOut`, `replace_append_layOut`).  So all layout there is is that of the first
time, and the file does not change: `renderFile_reload`.
-/

namespace NameServerConf

namespace Node

/-! ## The nodes of a file that was laid out -/

/-- The line feed that ends a line. -/
def lineEnd : Node := .raw [Byte.newline]

/-- The nodes with line feeds before the built statements that would not begin a line. -/
def lined (lineStart : Bool) : List Node → List Node
  | [] => []
  | n :: ns =>
    if n.isBuilt then (if lineStart then [] else [lineEnd]) ++ n :: lined true ns
    else n :: lined (lineStartAfter lineStart n.written) ns

/-- The nodes with the statements with some of the keywords laid out, each with its line feed. -/
def layOut (ks : List Keyword) (ns : List Node) : List Node :=
  ns.flatMap fun n => if n.keyword?.any (· ∈ ks) then [.source (n.render 0), lineEnd] else [n]

lemma layOut_append (ks : List Keyword) (ns ms : List Node) :
    layOut ks (ns ++ ms) = layOut ks ns ++ layOut ks ms := List.flatMap_append

lemma layOut_cons_of_keyword {ks : List Keyword} {k : Keyword} {n : Node} (h : n.keyword? = some k)
    (hk : k ∈ ks) (ns : List Node) :
    layOut ks (n :: ns) = .source (n.render 0) :: lineEnd :: layOut ks ns := by
  rw [layOut, List.flatMap_cons, h, Option.any_some, if_pos (decide_eq_true hk)]
  rfl

lemma layOut_cons_of_not {ks : List Keyword} {n : Node} (h : ∀ k ∈ ks, n.keyword? ≠ some k)
    (ns : List Node) : layOut ks (n :: ns) = n :: layOut ks ns := by
  have hany : n.keyword?.any (· ∈ ks) = false := by
    cases hn : n.keyword? with
    | none => rfl
    | some k => exact decide_eq_false fun hk => h k hk hn
  rw [layOut, List.flatMap_cons, hany]
  rfl

/-- Only statements with known keywords were built, and all of them. -/
def BuiltIffKnown (ns : List Node) : Prop := ∀ n ∈ ns, n.isBuilt = n.keyword?.isSome

lemma mem_all (k : Keyword) : k ∈ Keyword.all := by cases k <;> decide

/-- A file is laid out as the texts of its nodes with all layout put in. -/
lemma renderFrom_eq_written {ns : List Node} (h : BuiltIffKnown ns) (lineStart : Bool) :
    renderFrom lineStart ns = (layOut Keyword.all (lined lineStart ns)).flatMap written := by
  induction ns generalizing lineStart with
  | nil => rfl
  | cons n ns ih =>
      have hrest : BuiltIffKnown ns := fun m hm => h m (List.mem_cons_of_mem _ hm)
      have hn := h n (List.mem_cons_self ..)
      rw [lined]
      cases hbuilt : n.isBuilt with
      | true =>
          rw [hbuilt] at hn
          obtain ⟨k, hk⟩ := Option.isSome_iff_exists.mp hn.symm
          rw [renderFrom_cons_of_built hbuilt, if_pos rfl, layOut_append,
            layOut_cons_of_keyword hk (mem_all k), ih hrest]
          cases lineStart <;> simp [layOut, lineEnd, written, keyword?_raw]
      | false =>
          rw [hbuilt] at hn
          have hnone : n.keyword? = none := by simpa using hn.symm
          rw [renderFrom_cons_of_not_built hbuilt, if_neg Bool.false_ne_true,
            layOut_cons_of_not (fun k _ => by rw [hnone]; exact (Option.some_ne_none k).symm),
            ih hrest, List.flatMap_cons]

/-- Line feeds that are there already need not be added. -/
lemma renderFrom_lined (lineStart : Bool) (ns : List Node) :
    renderFrom lineStart (lined lineStart ns) = renderFrom lineStart ns := by
  induction ns generalizing lineStart with
  | nil => rfl
  | cons n ns ih =>
      rw [lined]
      cases hbuilt : n.isBuilt with
      | true =>
          rw [if_pos rfl, renderFrom_cons_of_built hbuilt]
          cases lineStart with
          | true =>
              rw [if_pos rfl, List.nil_append, renderFrom_cons_of_built hbuilt, ih]
          | false =>
              rw [if_neg Bool.false_ne_true, List.singleton_append,
                renderFrom_cons_of_not_built rfl, renderFrom_cons_of_built hbuilt, ih]
              rfl
      | false =>
          rw [if_neg Bool.false_ne_true, renderFrom_cons_of_not_built hbuilt,
            renderFrom_cons_of_not_built hbuilt, ih]

lemma renderFrom_joinTo (n : Node) (ns : List Node) (lineStart : Bool) :
    renderFrom lineStart (n.joinTo ns) = renderFrom lineStart (n :: ns) := by
  cases n with
  | source t => rfl
  | line t => rfl
  | block header body => rfl
  | raw t =>
      rw [joinTo]
      by_cases ht : t = []
      · rw [ht, prependRaw_nil, renderFrom_cons_of_not_built rfl]
        rfl
      rcases prependRaw_cases ht ns with ⟨u, ms, rfl, hjoin⟩ | ⟨-, hjoin⟩
      · rw [hjoin, renderFrom_cons_of_not_built rfl, renderFrom_cons_of_not_built rfl,
          renderFrom_cons_of_not_built rfl, written, written, written, List.append_assoc]
        congr 3
        by_cases hu : u = []
        · rw [hu, List.append_nil]
          rfl
        · rw [lineStartAfter_append_of_ne_nil _ _ hu]
          exact (lineStartAfter_append_of_ne_nil _ [] hu).symm
      · rw [hjoin]

/-- Joining fragments does not change what is laid out. -/
lemma renderFrom_joinRaws (ns : List Node) (lineStart : Bool) :
    renderFrom lineStart (joinRaws ns) = renderFrom lineStart ns := by
  induction ns generalizing lineStart with
  | nil => rfl
  | cons n ns ih =>
      rw [show joinRaws (n :: ns) = n.joinTo (joinRaws ns) from rfl, renderFrom_joinTo]
      cases hbuilt : n.isBuilt with
      | true => rw [renderFrom_cons_of_built hbuilt, renderFrom_cons_of_built hbuilt, ih]
      | false => rw [renderFrom_cons_of_not_built hbuilt, renderFrom_cons_of_not_built hbuilt, ih]

/-! ## Joined fragments and keywords -/

lemma joinRaws_cons_of_not_raw {n : Node} (h : ∀ t, n ≠ .raw t) (ns : List Node) :
    joinRaws (n :: ns) = n :: joinRaws ns := by
  cases n with
  | raw t => exact absurd rfl (h t)
  | source t => rfl
  | line t => rfl
  | block header body => rfl

/-- Fragments are not joined over a statement. -/
lemma joinRaws_append_cons {n : Node} (h : ∀ t, n ≠ .raw t) (as ns : List Node) :
    joinRaws (as ++ n :: ns) = joinRaws as ++ joinRaws (n :: ns) := by
  induction as with
  | nil => rfl
  | cons a as ih =>
      show a.joinTo (joinRaws (as ++ n :: ns)) = a.joinTo (joinRaws as) ++ _
      rw [ih]
      cases a with
      | source t => rfl
      | line t => rfl
      | block header body => rfl
      | raw t =>
          rw [joinTo, joinTo]
          by_cases ht : t = []
          · rw [ht, prependRaw_nil, prependRaw_nil]
          rcases prependRaw_cases ht (joinRaws as) with ⟨u, ms, has, hjoin⟩ | ⟨hhead, hjoin⟩
          · rw [hjoin, has, List.cons_append, prependRaw_raw ht, List.cons_append]
          · rw [hjoin]
            rcases prependRaw_cases ht (joinRaws as ++ joinRaws (n :: ns)) with
              ⟨u, ms, hall, -⟩ | ⟨-, hall⟩
            · -- the list begins with a node of `as`, or with `n`
              cases has : joinRaws as with
              | nil =>
                  rw [has, List.nil_append, joinRaws_cons_of_not_raw h] at hall
                  exact absurd (List.cons.inj hall).1 (h u)
              | cons m ms' =>
                  rw [has, List.cons_append] at hall
                  rw [has, (List.cons.inj hall).1] at hhead
                  exact absurd rfl (hhead u)
            · rw [hall, List.cons_append]

lemma source_ne_raw (s t : Text) : Node.source s ≠ .raw t := fun h => by cases h

lemma ne_raw_of_isSome {n : Node} (h : n.keyword?.isSome) (t : Text) : n ≠ .raw t := by
  rintro rfl
  cases h

/-- Statements are not joined to anything. -/
lemma joinRaws_group {g : List Node} (h : ∀ n ∈ g, n.keyword?.isSome) (ns : List Node) :
    joinRaws (g ++ ns) = g ++ joinRaws ns := by
  induction g with
  | nil => rfl
  | cons n g ih =>
      rw [List.cons_append, joinRaws_cons_of_not_raw (ne_raw_of_isSome (h n (List.mem_cons_self ..))),
        ih fun m hm => h m (List.mem_cons_of_mem _ hm), List.cons_append]

/-- Fragments are not joined over a group. -/
lemma joinRaws_append_group {g : List Node} (hne : g ≠ []) (h : ∀ n ∈ g, n.keyword?.isSome)
    (as ns : List Node) : joinRaws (as ++ (g ++ ns)) = joinRaws as ++ (g ++ joinRaws ns) := by
  rw [← joinRaws_group h]
  cases g with
  | nil => exact absurd rfl hne
  | cons n g => exact joinRaws_append_cons (ne_raw_of_isSome (h n (List.mem_cons_self ..))) _ _

lemma statementsWith_joinTo (k : Keyword) (n : Node) (ns : List Node) :
    statementsWith k (n.joinTo ns) = statementsWith k (n :: ns) := by
  cases n with
  | source t => rfl
  | line t => rfl
  | block header body => rfl
  | raw t =>
      rw [joinTo]
      by_cases ht : t = []
      · rw [ht, prependRaw_nil]
        rfl
      rcases prependRaw_cases ht ns with ⟨u, ms, rfl, hjoin⟩ | ⟨-, hjoin⟩
      · rw [hjoin]
        rfl
      · rw [hjoin]

lemma statementsWith_joinRaws (k : Keyword) (ns : List Node) :
    statementsWith k (joinRaws ns) = statementsWith k ns := by
  induction ns with
  | nil => rfl
  | cons n ns ih =>
      rw [show joinRaws (n :: ns) = n.joinTo (joinRaws ns) from rfl, statementsWith_joinTo,
        statementsWith, List.filter_cons, ← statementsWith, ih, statementsWith, statementsWith,
        List.filter_cons]

/-- There are no empty fragments among joined ones. -/
lemma ne_nil_of_raw_mem_joinRaws {ns : List Node} {t : Text} (h : .raw t ∈ joinRaws ns) : t ≠ [] := by
  induction ns generalizing t with
  | nil => cases h
  | cons n ns ih =>
      rw [show joinRaws (n :: ns) = n.joinTo (joinRaws ns) from rfl] at h
      cases n with
      | source u => exact ih (by simpa [joinTo] using h)
      | line u => exact ih (by simpa [joinTo] using h)
      | block header body => exact ih (by simpa [joinTo] using h)
      | raw u =>
          rw [joinTo] at h
          by_cases hu : u = []
          · rw [hu, prependRaw_nil] at h
            exact ih h
          rcases prependRaw_cases hu (joinRaws ns) with ⟨v, ms, hns, hjoin⟩ | ⟨-, hjoin⟩
          · rw [hjoin] at h
            rcases List.mem_cons.mp h with h | h
            · rw [Node.raw.inj h]
              exact List.append_ne_nil_of_left_ne_nil hu v
            · exact ih (hns ▸ List.mem_cons_of_mem _ h)
          · rw [hjoin] at h
            rcases List.mem_cons.mp h with h | h
            · rw [Node.raw.inj h]
              exact hu
            · exact ih h

/-- The line feed behind a removed statement goes with it. -/
lemma withoutKeyword_lineEnd (word : Text) (ns : List Node) :
    withoutKeyword word true (lineEnd.joinTo (joinRaws ns)) =
      withoutKeyword word false (joinRaws ns) := by
  have hne : [Byte.newline] ≠ [] := List.cons_ne_nil _ _
  rw [lineEnd, joinTo]
  rcases prependRaw_cases hne (joinRaws ns) with ⟨u, ms, hns, hjoin⟩ | ⟨-, hjoin⟩
  · have hmem : .raw u ∈ joinRaws ns := hns ▸ List.mem_cons_self ..
    have hu : u ≠ [] := ne_nil_of_raw_mem_joinRaws hmem
    have hdrop : ([Byte.newline] ++ u).dropWhile isLineGap = Byte.newline :: u :=
      List.dropWhile_cons_of_neg (by decide)
    have hafter : (Node.raw ([Byte.newline] ++ u)).afterRemoved = some (.raw u) := by
      simp only [afterRemoved, hdrop]
      rw [if_neg (fun h => h rfl), if_neg hu]
    rw [hjoin, hns, withoutKeyword, withoutKeyword, hafter]
    rfl
  · rw [hjoin, withoutKeyword]
    rfl

/-! ## One keyword after the other -/

variable {c : Config} {k : Keyword} {ks : List Keyword}

/-- Every statement of the configuration is laid out as one statement with its keyword. -/
def KeepsKeywords (c : Config) : Prop :=
  ∀ k, ∀ b ∈ c.nodes k, (Node.source (b.render 0)).keyword? = some k

/-- Laid out statements are found under their keywords. -/
lemma statementsWith_layOut_eq_nil {ns : List Node}
    (hks : ∀ n ∈ ns, ∀ j, n.keyword? = some j → (Node.source (n.render 0)).keyword? = some j)
    (h : statementsWith k ns = []) : statementsWith k (layOut ks ns) = [] := by
  refine List.filter_eq_nil_iff.mpr fun m hm => ?_
  obtain ⟨n, hn, hm⟩ := List.mem_flatMap.mp hm
  have hnk : n.keyword? ≠ some k := by
    simpa using List.filter_eq_nil_iff.mp h n hn
  rw [decide_eq_true_eq]
  cases hkey : n.keyword? with
  | none =>
      rw [hkey, Option.any_none, if_neg Bool.false_ne_true] at hm
      rw [List.mem_singleton.mp hm]
      exact hnk
  | some j =>
      rw [hkey, Option.any_some] at hm
      split at hm
      · rcases List.mem_cons.mp hm with rfl | hm
        · rw [hks n hn j hkey, ← hkey]
          exact hnk
        · rw [List.mem_singleton.mp hm]
          exact fun h => by cases h
      · rw [List.mem_singleton.mp hm]
        exact hnk

lemma layOut_eq_of_none {ns : List Node} (h : statementsWith k ns = []) :
    layOut (k :: ks) ns = layOut ks ns := by
  refine List.flatMap_congr fun n hn => ?_
  have hnk : n.keyword? ≠ some k := by
    simpa using List.filter_eq_nil_iff.mp h n hn
  cases hkey : n.keyword? with
  | none => rfl
  | some j =>
      have hjk : j ≠ k := fun e => hnk (by rw [hkey, e])
      simp [hjk]

lemma layOut_eq_self {ns : List Node} (h : ∀ n ∈ ns, ∀ k ∈ ks, n.keyword? ≠ some k) :
    layOut ks ns = ns := by
  induction ns with
  | nil => rfl
  | cons n ns ih =>
      rw [layOut_cons_of_not (h n (List.mem_cons_self ..)),
        ih fun m hm => h m (List.mem_cons_of_mem _ hm)]

/-- Removing the statements of a group that was laid out takes their line feeds, too. -/
lemma withoutKeyword_layOut {g : List Node} (hg : ∀ n ∈ g, n.keyword? = some k)
    (hr : ∀ n ∈ g, (Node.source (n.render 0)).keyword? = some k) (ns : List Node) :
    withoutKeyword k.word false (joinRaws (layOut (k :: ks) g ++ ns)) =
      withoutKeyword k.word false (joinRaws ns) := by
  induction g with
  | nil => rfl
  | cons n g ih =>
      have hn := hasKeyword_word_iff.mpr (hr n (List.mem_cons_self ..))
      rw [layOut_cons_of_keyword (hg n (List.mem_cons_self ..)) (List.mem_cons_self ..),
        List.cons_append, joinRaws_cons_of_not_raw (source_ne_raw _), withoutKeyword, if_pos hn]
      refine (withoutKeyword_lineEnd k.word (layOut (k :: ks) g ++ ns)).trans ?_
      exact ih (fun m hm => hg m (List.mem_cons_of_mem _ hm))
        (fun m hm => hr m (List.mem_cons_of_mem _ hm))

/-- A group that was laid out is found where it is. -/
lemma joinRaws_append_layOut (ks : List Keyword) {g : List Node} (hne : g ≠ [])
    (hg : ∀ n ∈ g, n.keyword? = some k)
    (hr : ∀ n ∈ g, (Node.source (n.render 0)).keyword? = some k) (as ns : List Node) :
    ∃ m ms, m.keyword? = some k ∧ joinRaws (layOut (k :: ks) g ++ ns) = m :: ms ∧
      joinRaws (as ++ (layOut (k :: ks) g ++ ns)) = joinRaws as ++ m :: ms := by
  cases g with
  | nil => exact absurd rfl hne
  | cons n g =>
      refine ⟨_, joinRaws (lineEnd :: (layOut (k :: ks) g ++ ns)), hr n (List.mem_cons_self ..), ?_⟩
      rw [layOut_cons_of_keyword (hg n (List.mem_cons_self ..)) (List.mem_cons_self ..),
        List.cons_append, joinRaws_append_cons (source_ne_raw _)]
      exact ⟨rfl, rfl⟩

/-- A group is put back in its place, and its layout with it. -/
lemma replace_inPlace_layOut (hc : KeepsKeywords c) (hk : k ∉ ks) {ns : List Node}
    (hns : ∀ n ∈ ns, ∀ j, n.keyword? = some j → n ∈ c.nodes j) (h : Grouped c k ns) :
    replace .inPlace k.word (c.nodes k) (joinRaws (layOut (k :: ks) ns)) =
      joinRaws (layOut ks ns) := by
  obtain ⟨a, b, rfl, ha, hb⟩ := h
  have hg : ∀ n ∈ c.nodes k, n.keyword? = some k := fun n => c.keyword?_of_mem_nodes k
  have hkeep : ∀ n ∈ a ++ c.nodes k ++ b, ∀ j, n.keyword? = some j →
      (Node.source (n.render 0)).keyword? = some j := fun n hn j hj => hc j n (hns n hn j hj)
  have ha' : statementsWith k (layOut ks a) = [] :=
    statementsWith_layOut_eq_nil (fun n hn => hkeep n (by simp [hn])) ha
  have hb' : statementsWith k (layOut ks b) = [] :=
    statementsWith_layOut_eq_nil (fun n hn => hkeep n (by simp [hn])) hb
  have hself : layOut ks (c.nodes k) = c.nodes k :=
    layOut_eq_self fun n hn j hj e => hk (Option.some.inj ((hg n hn).symm.trans e) ▸ hj)
  simp only [layOut_append, layOut_eq_of_none ha, layOut_eq_of_none hb, hself, List.append_assoc]
  by_cases hne : c.nodes k = []
  · have hnone : statementsWith k (joinRaws (layOut ks a ++ layOut ks b)) = [] := by
      rw [statementsWith_joinRaws, statementsWith_append, ha', hb', List.append_nil]
    have h := replace_inPlace_of_group (k := k) (g := []) (b := [])
      (fun n hn => absurd hn List.not_mem_nil) hnone rfl
    rw [hne]
    simpa [layOut] using h
  · have hr : ∀ n ∈ c.nodes k, (Node.source (n.render 0)).keyword? = some k := fun n hn => hc k n hn
    have hrest : withoutKeyword k.word false
        (joinRaws (layOut (k :: ks) (c.nodes k) ++ layOut ks b)) = _ :=
      withoutKeyword_layOut hg hr (layOut ks b)
    obtain ⟨m, ms, hm, hlaid, hjoin⟩ :=
      joinRaws_append_layOut ks hne hg hr (layOut ks a) (layOut ks b)
    rw [← statementsWith_joinRaws] at ha' hb'
    rw [withoutKeyword_eq_self hb', hlaid] at hrest
    have hm : m.hasKeyword k.word = true := hasKeyword_word_iff.mpr hm
    rw [hjoin, replace, List.dropWhile_append_of_pos (not_hasKeyword_of_mem ha'),
      List.takeWhile_append_of_pos (not_hasKeyword_of_mem ha'),
      List.dropWhile_cons_of_neg (by simp [hm]), List.takeWhile_cons_of_neg (by simp [hm])]
    dsimp only
    rw [hrest, joinRaws_append_group hne (fun n hn => by rw [hg n hn]; rfl), List.append_nil,
      List.append_assoc]

/-- A group goes to the end, and its layout with it. -/
lemma replace_append_layOut (hc : KeepsKeywords c) (hk : k ∉ ks) {a b : List Node}
    (ha : statementsWith k a = []) (hb : ∀ n ∈ b, ∃ j, j ≠ k ∧ n ∈ c.nodes j) :
    replace .append k.word (c.nodes k) (joinRaws (a ++ layOut (k :: ks) (c.nodes k ++ b))) =
      joinRaws (a ++ layOut ks (b ++ c.nodes k)) := by
  have hg : ∀ n ∈ c.nodes k, n.keyword? = some k := fun n => c.keyword?_of_mem_nodes k
  have hb' : statementsWith k b = [] := by
    refine List.filter_eq_nil_iff.mpr fun n hn => ?_
    obtain ⟨j, hj, hn⟩ := hb n hn
    simp [c.keyword?_of_mem_nodes j hn, hj]
  have hlaid : statementsWith k (layOut ks b) = [] := by
    refine statementsWith_layOut_eq_nil (fun n hn i hi => ?_) hb'
    obtain ⟨j, -, hn⟩ := hb n hn
    obtain rfl : j = i := Option.some.inj ((c.keyword?_of_mem_nodes j hn).symm.trans hi)
    exact hc j n hn
  have hself : layOut ks (c.nodes k) = c.nodes k :=
    layOut_eq_self fun n hn j hj e => hk (Option.some.inj ((hg n hn).symm.trans e) ▸ hj)
  -- fragments are not joined over the place of the group, for a statement comes next
  have hsplit : joinRaws (a ++ layOut ks b) = joinRaws a ++ joinRaws (layOut ks b) := by
    cases b with
    | nil => rw [layOut, List.flatMap_nil, List.append_nil]; exact (List.append_nil _).symm
    | cons n b =>
        obtain ⟨j, -, hn⟩ := hb n (List.mem_cons_self ..)
        have hn := c.keyword?_of_mem_nodes j hn
        by_cases hj : j ∈ ks
        · rw [layOut_cons_of_keyword hn hj, joinRaws_append_cons (source_ne_raw _)]
        · have hnot : ∀ i ∈ ks, n.keyword? ≠ some i := fun i hi e =>
            hj (Option.some.inj (hn.symm.trans e) ▸ hi)
          rw [layOut_cons_of_not hnot,
            joinRaws_append_cons (ne_raw_of_isSome (by rw [hn]; rfl))]
  have hout : withoutKeyword k.word false
      (joinRaws (a ++ layOut (k :: ks) (c.nodes k ++ b))) = joinRaws (a ++ layOut ks b) := by
    rw [layOut_append, layOut_eq_of_none hb']
    have ha' := (statementsWith_joinRaws k a).trans ha
    have hlaid' := (statementsWith_joinRaws k (layOut ks b)).trans hlaid
    by_cases hne : c.nodes k = []
    · rw [hne]
      refine withoutKeyword_eq_self ?_
      rw [statementsWith_joinRaws, statementsWith_append, ha]
      exact hlaid
    · have hr : ∀ n ∈ c.nodes k, (Node.source (n.render 0)).keyword? = some k :=
        fun n hn => hc k n hn
      obtain ⟨m, ms, -, hms, hjoin⟩ := joinRaws_append_layOut ks hne hg hr a (layOut ks b)
      rw [hjoin, withoutKeyword_append_of_none ha', ← hms, withoutKeyword_layOut hg hr,
        withoutKeyword_eq_self hlaid', hsplit]
  rw [replace, hout, layOut_append, hself, ← List.append_assoc]
  by_cases hne : c.nodes k = []
  · rw [hne, List.append_nil, List.append_nil]
  · have h := joinRaws_append_group hne (fun n hn => by rw [hg n hn]; rfl) (a ++ layOut ks b) []
    rw [List.append_nil] at h
    rw [h]
    exact congrArg _ (List.append_nil _).symm

/-! ## Line feeds that are put in -/

lemma statementsWith_lined (k : Keyword) (lineStart : Bool) (ns : List Node) :
    statementsWith k (lined lineStart ns) = statementsWith k ns := by
  induction ns generalizing lineStart with
  | nil => rfl
  | cons n ns ih =>
      have hcons : ∀ ls, statementsWith k (n :: lined ls ns) = statementsWith k (n :: ns) := by
        intro ls
        rw [statementsWith, List.filter_cons, ← statementsWith, ih, statementsWith, statementsWith,
          List.filter_cons]
      rw [lined]
      split
      · rw [statementsWith_append, hcons]
        cases lineStart <;> rfl
      · exact hcons _

lemma lined_append (lineStart : Bool) (as ns : List Node) :
    ∃ start, lined lineStart (as ++ ns) = lined lineStart as ++ lined start ns := by
  induction as generalizing lineStart with
  | nil => exact ⟨lineStart, rfl⟩
  | cons a as ih =>
      simp only [List.cons_append, lined]
      split
      · obtain ⟨start, h⟩ := ih true
        exact ⟨start, by rw [h, List.append_assoc, List.cons_append]⟩
      · obtain ⟨start, h⟩ := ih (lineStartAfter lineStart a.written)
        exact ⟨start, by rw [h, List.cons_append]⟩

/-- No line feed is put into a group. -/
lemma lined_group {g : List Node} (hg : ∀ n ∈ g, n.isBuilt = true) (lineStart : Bool)
    (ns : List Node) :
    ∃ as start, (as = [] ∨ as = [lineEnd]) ∧
      lined lineStart (g ++ ns) = as ++ (g ++ lined start ns) := by
  induction g generalizing lineStart with
  | nil => exact ⟨[], lineStart, Or.inl rfl, rfl⟩
  | cons n g ih =>
      have htrue : ∀ g : List Node, (∀ n ∈ g, n.isBuilt = true) →
          ∃ start, lined true (g ++ ns) = g ++ lined start ns := by
        intro g hg
        induction g with
        | nil => exact ⟨true, rfl⟩
        | cons m g ih =>
            obtain ⟨start, h⟩ := ih fun x hx => hg x (List.mem_cons_of_mem _ hx)
            refine ⟨start, ?_⟩
            rw [List.cons_append, lined, if_pos (hg m (List.mem_cons_self ..)), h]
            rfl
      obtain ⟨start, h⟩ := htrue g fun m hm => hg m (List.mem_cons_of_mem _ hm)
      rw [List.cons_append, lined, if_pos (hg n (List.mem_cons_self ..)), h]
      cases lineStart with
      | true => exact ⟨[], start, Or.inl rfl, rfl⟩
      | false => exact ⟨[lineEnd], start, Or.inr rfl, rfl⟩

lemma Grouped.lined {ns : List Node} (h : Grouped c k ns) (lineStart : Bool) :
    Grouped c k (lined lineStart ns) := by
  obtain ⟨a, b, rfl, ha, hb⟩ := h
  obtain ⟨start, hsplit⟩ := lined_append lineStart a (c.nodes k ++ b)
  obtain ⟨front, start', hfront, hgroup⟩ :=
    lined_group (fun n => c.isBuilt_of_mem_nodes k) start b
  refine ⟨Node.lined lineStart a ++ front, Node.lined start' b, ?_, ?_, ?_⟩
  · rw [List.append_assoc, hsplit, hgroup]
    simp only [List.append_assoc]
  · rw [statementsWith_append, statementsWith_lined, ha]
    rcases hfront with rfl | rfl <;> rfl
  · rw [statementsWith_lined, hb]

end Node

namespace Config

open Node

variable {c : Config}

/-! ## All keywords -/

lemma layOut_nil (ns : List Node) : layOut [] ns = ns :=
  layOut_eq_self fun _ _ _ hk => absurd hk List.not_mem_nil

/-- Groups that were laid out are put back in their places. -/
lemma applyAll_inPlace_layOut (hc : KeepsKeywords c) {ks : List Keyword} (hks : ks.Nodup)
    {ns : List Node} (hns : ∀ n ∈ ns, ∀ j, n.keyword? = some j → n ∈ c.nodes j)
    (h : ∀ k, Grouped c k ns) :
    (applyAll .inPlace c ks (joinRaws (layOut ks ns))).value = joinRaws ns := by
  induction ks with
  | nil =>
      rw [layOut_nil]
      rfl
  | cons k ks ih =>
      obtain ⟨hk, hks'⟩ := List.nodup_cons.mp hks
      calc (applyAll .inPlace c (k :: ks) (joinRaws (layOut (k :: ks) ns))).value
          = (applyAll .inPlace c ks (replace .inPlace k.word (c.nodes k)
              (joinRaws (layOut (k :: ks) ns)))).value := rfl
        _ = (applyAll .inPlace c ks (joinRaws (layOut ks ns))).value := by
            rw [replace_inPlace_layOut hc hk hns (h k)]
        _ = joinRaws ns := ih hks'

/-- Groups that were laid out go to the end in their turn. -/
lemma applyAll_append_layOut (hc : KeepsKeywords c) {ks : List Keyword} (hks : ks.Nodup)
    {a tail : List Node} (ha : ∀ k, statementsWith k a = [])
    (htail : ∀ n ∈ tail, ∃ j, j ∉ ks ∧ n ∈ c.nodes j) :
    (applyAll .append c ks (joinRaws (a ++ layOut ks (ks.flatMap c.nodes ++ tail)))).value =
      joinRaws (a ++ (tail ++ ks.flatMap c.nodes)) := by
  induction ks generalizing tail with
  | nil =>
      rw [layOut_nil, List.flatMap_nil, List.nil_append, List.append_nil]
      rfl
  | cons k ks ih =>
      obtain ⟨hk, hks'⟩ := List.nodup_cons.mp hks
      have hrest : ∀ n ∈ ks.flatMap c.nodes ++ tail, ∃ j, j ≠ k ∧ n ∈ c.nodes j := by
        intro n hn
        rcases List.mem_append.mp hn with hn | hn
        · obtain ⟨j, hj, hn⟩ := List.mem_flatMap.mp hn
          exact ⟨j, fun e => hk (e ▸ hj), hn⟩
        · obtain ⟨j, hj, hn⟩ := htail n hn
          exact ⟨j, fun e => hj (e ▸ List.mem_cons_self ..), hn⟩
      have htail' : ∀ n ∈ tail ++ c.nodes k, ∃ j, j ∉ ks ∧ n ∈ c.nodes j := by
        intro n hn
        rcases List.mem_append.mp hn with hn | hn
        · obtain ⟨j, hj, hn⟩ := htail n hn
          exact ⟨j, fun h => hj (List.mem_cons_of_mem _ h), hn⟩
        · exact ⟨k, hk, hn⟩
      have hpass := replace_append_layOut hc hk (ha k) hrest
      calc (applyAll .append c (k :: ks)
            (joinRaws (a ++ layOut (k :: ks) ((k :: ks).flatMap c.nodes ++ tail)))).value
          = (applyAll .append c ks (replace .append k.word (c.nodes k)
              (joinRaws (a ++ layOut (k :: ks) ((k :: ks).flatMap c.nodes ++ tail))))).value := rfl
        _ = (applyAll .append c ks
              (joinRaws (a ++ layOut ks (ks.flatMap c.nodes ++ (tail ++ c.nodes k))))).value := by
            rw [List.flatMap_cons, List.append_assoc, hpass, List.append_assoc]
        _ = joinRaws (a ++ (tail ++ (k :: ks).flatMap c.nodes)) := by
            rw [ih hks' htail', List.flatMap_cons]
            simp only [List.append_assoc]

/-! ## The file as a whole -/

variable {p : Placement} {t : Text}

/-- Statements with known keywords in what a configuration leaves of a file are its own. -/
lemma mem_nodes_of_keyword {ns : List Node} {n : Node} {k : Keyword}
    (hn : n ∈ (c.apply p ns).value) (hk : n.keyword? = some k) : n ∈ c.nodes k := by
  have heq := (replaced_apply p c ns).statementsWith_eq (by decide) (mem_all k)
  rw [if_neg List.not_mem_nil] at heq
  rw [← heq]
  exact List.mem_filter.mpr ⟨hn, decide_eq_true hk⟩

/-- All other nodes are what was left of the nodes of a closed text. -/
lemma complete_of_mem_apply (ht : t.isClosed = true) {n : Node}
    (hn : n ∈ (c.apply p (parse t)).value) (hk : n.keyword? = none) : n.Complete := by
  have hshort := (replaced_apply p c (parse t)).shortened_others mem_all
  refine Complete.of_shortened hshort (fun m hm => ?_) n (List.mem_filter.mpr ⟨hn, by simp [hk]⟩)
  exact complete_of_mem_parse ht (List.mem_filter.mp hm).1

lemma builtIffKnown_apply (ht : t.isClosed = true) :
    BuiltIffKnown (c.apply p (parse t)).value := by
  intro n hn
  cases hk : n.keyword? with
  | some k => exact c.isBuilt_of_mem_nodes k (mem_nodes_of_keyword hn hk)
  | none =>
      have hcomplete := complete_of_mem_apply ht hn hk
      cases n with
      | raw u => rfl
      | source u => rfl
      | line u => exact absurd hcomplete id
      | block header body => exact absurd hcomplete id

/-- The text is closed, and is one statement with the keyword and nothing else. -/
def IsStatement (k : Keyword) (s : Text) : Prop :=
  s.isClosed = true ∧ ∃ u, parse s = [.source u] ∧ (Node.source u).keyword? = some k

lemma IsStatement.parse_eq {k : Keyword} {s : Text} (h : IsStatement k s) :
    parse s = [.source s] ∧ (Node.source s).keyword? = some k := by
  obtain ⟨-, u, hu, hk⟩ := h
  have hs := written_parse s
  rw [hu, List.flatMap_cons, List.flatMap_nil, List.append_nil, written] at hs
  subst hs
  exact ⟨hu, hk⟩

lemma IsStatement.complete {k : Keyword} {s : Text} (h : IsStatement k s) :
    (Node.source s).Complete :=
  complete_of_mem_parse h.1 (h.parse_eq.1 ▸ List.mem_singleton_self _)

lemma keepsKeywords_of_isStatement (hc : ∀ k, ∀ b ∈ c.nodes k, IsStatement k (b.render 0)) :
    KeepsKeywords c := fun k b hb => (hc k b hb).parse_eq.2

lemma complete_lineEnd : lineEnd.Complete := by
  have hitems : Text.items .file [Byte.newline] = [.byte Byte.newline] := by
    rw [Text.items_cons_of_single rfl, Text.items, Text.lexemes, Text.nest]
  refine ⟨Text.isFinished_iff.mpr ?_, ?_⟩ <;> rw [hitems] <;> decide

lemma mem_lined {n : Node} {lineStart : Bool} {ns : List Node} (h : n ∈ lined lineStart ns) :
    n = lineEnd ∨ n ∈ ns := by
  induction ns generalizing lineStart with
  | nil => cases h
  | cons m ns ih =>
      rw [lined] at h
      split at h
      · rcases List.mem_append.mp h with h | h
        · split at h
          · cases h
          · exact Or.inl (List.mem_singleton.mp h)
        · rcases List.mem_cons.mp h with rfl | h
          · exact Or.inr (List.mem_cons_self ..)
          · exact (ih h).imp id (List.mem_cons_of_mem _)
      · rcases List.mem_cons.mp h with rfl | h
        · exact Or.inr (List.mem_cons_self ..)
        · exact (ih h).imp id (List.mem_cons_of_mem _)

/-- **Reading back a file** that a configuration was put into gives its nodes, with all layout. -/
theorem parse_renderFile (ht : t.isClosed = true)
    (hc : ∀ k, ∀ b ∈ c.nodes k, IsStatement k (b.render 0)) :
    parse (renderFile (c.apply p (parse t)).value) =
      joinRaws (layOut Keyword.all (lined true (c.apply p (parse t)).value)) := by
  rw [renderFile, renderFrom_eq_written (builtIffKnown_apply ht)]
  refine parse_written fun m hm => ?_
  obtain ⟨n, hn, hm⟩ := List.mem_flatMap.mp hm
  rcases mem_lined hn with rfl | hn
  · rw [List.mem_singleton.mp hm]
    exact complete_lineEnd
  cases hk : n.keyword? with
  | none =>
      rw [hk, Option.any_none, if_neg Bool.false_ne_true] at hm
      rw [List.mem_singleton.mp hm]
      exact complete_of_mem_apply ht hn hk
  | some k =>
      rw [hk, Option.any_some, if_pos (decide_eq_true (mem_all k))] at hm
      rcases List.mem_cons.mp hm with rfl | hm
      · exact (hc k n (mem_nodes_of_keyword hn hk)).complete
      · rw [List.mem_singleton.mp hm]
        exact complete_lineEnd

/-- Where groups go to the end, no line feed is put in behind the first of them. -/
lemma lined_apply_append (c : Config) (ns : List Node) :
    ∃ a, (∀ k, statementsWith k a = []) ∧
      lined true (c.apply .append ns).value = a ++ Keyword.all.flatMap c.nodes := by
  have h := (replaced_apply .append c ns).eq_append rfl mem_all
  rw [show Keyword.all.filter (· ∉ []) = Keyword.all from by simp] at h
  obtain ⟨o, ho⟩ : ∃ o, others (c.apply .append ns).value = o := ⟨_, rfl⟩
  have hnone : ∀ k, statementsWith k o = [] := by
    intro k
    refine List.filter_eq_nil_iff.mpr fun n hn => ?_
    rw [← ho] at hn
    have hn := (List.mem_filter.mp hn).2
    rw [decide_eq_true_eq] at hn
    simp [hn]
  have hbuilt : ∀ n ∈ Keyword.all.flatMap c.nodes, n.isBuilt = true := by
    intro n hn
    obtain ⟨k, -, hn⟩ := List.mem_flatMap.mp hn
    exact c.isBuilt_of_mem_nodes k hn
  obtain ⟨start, hsplit⟩ := lined_append true o (Keyword.all.flatMap c.nodes)
  obtain ⟨front, start', hfront, hgroup⟩ := lined_group hbuilt start []
  rw [List.append_nil, lined, List.append_nil] at hgroup
  refine ⟨lined true o ++ front, fun k => ?_, ?_⟩
  · rw [statementsWith_append, statementsWith_lined, hnone k]
    rcases hfront with rfl | rfl <;> rfl
  · rw [h, ho, hsplit, hgroup, List.append_assoc]

/-- Applied to the file again, a configuration leaves these nodes as they are. -/
lemma apply_joinRaws_layOut (hc : KeepsKeywords c) (ns : List Node) :
    (c.apply p (joinRaws (layOut Keyword.all (lined true (c.apply p ns).value)))).value =
      joinRaws (lined true (c.apply p ns).value) := by
  cases p with
  | inPlace =>
      refine applyAll_inPlace_layOut hc (by decide) (fun n hn j hj => ?_)
        fun k => (grouped_apply c .inPlace ns k).lined true
      rcases mem_lined hn with rfl | hn
      · cases hj
      · exact mem_nodes_of_keyword hn hj
  | append =>
      obtain ⟨a, ha, hlined⟩ := lined_apply_append c ns
      have hself : layOut Keyword.all a = a := by
        refine layOut_eq_self fun n hn k _ hk => ?_
        exact List.filter_eq_nil_iff.mp (ha k) n hn (decide_eq_true hk)
      have h : (applyAll .append c Keyword.all (joinRaws
          (a ++ layOut Keyword.all (Keyword.all.flatMap c.nodes ++ [])))).value = _ :=
        applyAll_append_layOut hc (by decide) ha fun n hn => absurd hn List.not_mem_nil
      rw [List.append_nil, List.nil_append] at h
      rw [hlined, layOut_append, hself]
      exact h

/-- **Saving through the file** is a fixed point.  Where a configuration was put into a closed file
    and its statements are laid out as one statement each, reading the file and putting the
    configuration into it in the same way gives the file again, byte for byte. -/
theorem renderFile_reload (c : Config) (p : Placement) {t : Text} (ht : t.isClosed = true)
    (hc : ∀ k, ∀ b ∈ c.nodes k, IsStatement k (b.render 0)) :
    renderFile (c.apply p (parse (renderFile (c.apply p (parse t)).value))).value =
      renderFile (c.apply p (parse t)).value := by
  calc renderFile (c.apply p (parse (renderFile (c.apply p (parse t)).value))).value
      = renderFile (joinRaws (lined true (c.apply p (parse t)).value)) := by
        rw [parse_renderFile ht hc, apply_joinRaws_layOut (keepsKeywords_of_isStatement hc)]
    _ = renderFile (c.apply p (parse t)).value := by
        rw [renderFile, renderFrom_joinRaws, renderFrom_lined, renderFile]

/-- The file that loses its empty line when the same nodes are used twice keeps it when it is read
    again. -/
theorem renderFile_reload_oneZone :
    renderFile (oneZone.apply .inPlace (Node.parse (renderFile (oneZone.apply .inPlace
        (Node.parse "zone \"a\" \x7b \x7d;\n\n# end\n")).value))).value =
      renderFile (oneZone.apply .inPlace
        (Node.parse "zone \"a\" \x7b \x7d;\n\n# end\n")).value := by
  refine renderFile_reload oneZone .inPlace (by cbv) fun k b hb => ?_
  cases k with
  | zone =>
      obtain rfl : b = (Zone.empty "a").node := List.mem_singleton.mp hb
      have hrender : (Zone.empty "a").node.render 0 = Text.ofString "zone \"a\" \x7b\n\x7d;" := by cbv
      have hparse : parse "zone \"a\" \x7b\n\x7d;" =
          [.source (Text.ofString "zone \"a\" \x7b\n\x7d;")] := by cbv
      rw [hrender]
      exact ⟨by cbv, _, hparse, by cbv⟩
  | «include» | acl | key | keyStore | remoteServers | tls | http | controls | logging | options
  | trustAnchors | view => cases hb

end Config

end NameServerConf
