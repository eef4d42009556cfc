import NameServerConf.Proofs.Blocks

/-!
# Names and classes of built blocks

The header of a zone or a view is its name in quotation marks and perhaps a class behind it.  This
module says how much of it is read back from a block that was just built, whatever the name is.

**The name** is read as it was written: it ends at the second quotation mark.

**The class** is read as it was written if there is one.  A header without a class is looked through
for words, though, and blanks inside the quotation marks separate words like any others.  So a class
word that is the second word of a name is taken for the class (`HidesClass`).
-/

namespace NameServerConf

open Text

namespace Text

/-! ## Words of a quoted name -/

/-- The class word is the second word of a name: the first gap ends right before it, and there is
    another gap right behind it. -/
def HidesClass (s w : Text) : Prop :=
  isClassWord w = true ∧ ∃ first gap b rest, s = first ++ gap ++ w ++ b :: rest ∧
    (∀ c ∈ first, isWordGap c = false) ∧ gap ≠ [] ∧ (∀ c ∈ gap, isWordGap c = true) ∧
    isWordGap b = true

lemma exists_gap (s : Text) : (∀ b ∈ s, isWordGap b = false) ∨
    ∃ first b rest, s = first ++ b :: rest ∧ (∀ c ∈ first, isWordGap c = false) ∧
      isWordGap b = true := by
  cases h : s.find? isWordGap with
  | none => exact Or.inl fun b hb => by simpa using List.find?_eq_none.mp h b hb
  | some b =>
      obtain ⟨hb, first, rest, hs, hfirst⟩ := List.find?_eq_some_iff_append.mp h
      exact Or.inr ⟨first, b, rest, hs, fun c hc => by simpa using hfirst c hc, hb⟩

lemma isWordGap_of_isClassWord {w : Text} (h : isClassWord w = true) :
    ∀ b ∈ w, isWordGap b = false := fun _ hb =>
  isWordGap_of_not_isBlank ((isBare_of_isClassWord h).isBlank_eq_false hb)

lemma isClassWord_append_quote (s : Text) : isClassWord (s ++ [Byte.quote]) = false := by
  rw [← Bool.not_eq_true]
  intro h
  exact absurd (isLetter_of_isClassWord h Byte.quote (by simp)) (by decide)

/-- The first word of a quoted name ends at the first gap. -/
lemma words_quote_append_gap {first gap : Text} (hfirst : ∀ c ∈ first, isWordGap c = false)
    (hne : gap ≠ []) (hgap : ∀ c ∈ gap, isWordGap c = true) (rest : Text) :
    words (quote (first ++ gap ++ rest)) =
      (Byte.quote :: first) :: words (rest ++ [Byte.quote]) := by
  obtain ⟨b, gap, rfl⟩ := List.exists_cons_of_ne_nil hne
  obtain ⟨hb, hgap⟩ := List.forall_mem_cons.mp hgap
  have hword : ∀ c ∈ Byte.quote :: first, isWordGap c = false :=
    List.forall_mem_cons.mpr ⟨rfl, hfirst⟩
  calc words (quote (first ++ b :: gap ++ rest))
      = words ((Byte.quote :: first) ++ b :: (gap ++ (rest ++ [Byte.quote]))) := by simp [quote]
    _ = words (Byte.quote :: first) ++ words (rest ++ [Byte.quote]) := by
        rw [words_append_cons hb, words_append_of_gap hgap]
    _ = _ := by rw [words_eq_singleton (List.cons_ne_nil _ _) hword, List.singleton_append]

/-- A class word that begins what is left of a name ends at a gap, for the mark behind the name is
    no letter. -/
lemma exists_gap_of_words_append_quote {s w : Text} {vs : List Text}
    (hhead : ∀ b ∈ s.head?, isWordGap b = false) (hw : isClassWord w = true)
    (hwords : words (s ++ [Byte.quote]) = w :: vs) :
    ∃ b rest, s = w ++ b :: rest ∧ isWordGap b = true := by
  rcases exists_gap s with hs | ⟨first, b, rest, rfl, hfirst, hb⟩
  · rw [words_eq_singleton (by simp) (isWordGap_append_quote hs)] at hwords
    obtain ⟨rfl, -⟩ := List.cons.inj hwords
    rw [isClassWord_append_quote] at hw
    cases hw
  · have hne : first ≠ [] := by
      rintro rfl
      rw [hhead b rfl] at hb
      cases hb
    rw [List.append_assoc, List.cons_append, words_append_cons hb, words_eq_singleton hne hfirst]
      at hwords
    obtain ⟨rfl, -⟩ := List.cons.inj hwords
    exact ⟨b, rest, rfl, hb⟩

/-- **The second word** of a quoted name is a class word exactly if the name hides it. -/
lemma words_quote_eq_iff {s w : Text} (hw : isClassWord w = true) :
    (words (quote s))[1]? = some w ↔ HidesClass s w := by
  constructor
  · intro hsecond
    rcases exists_gap s with hs | ⟨first, b, rest, rfl, hfirst, hb⟩
    · rw [words_quote hs] at hsecond
      cases hsecond
    · have hsplit : first ++ b :: rest =
          first ++ (b :: rest.takeWhile isWordGap) ++ rest.dropWhile isWordGap := by
        rw [List.append_assoc, List.cons_append, List.takeWhile_append_dropWhile]
      have hgap : ∀ c ∈ b :: rest.takeWhile isWordGap, isWordGap c = true :=
        List.forall_mem_cons.mpr ⟨hb, fun _ hc => List.mem_takeWhile_imp hc⟩
      rw [hsplit, words_quote_append_gap hfirst (List.cons_ne_nil _ _) hgap,
        List.getElem?_cons_succ, ← List.head?_eq_getElem?] at hsecond
      obtain ⟨vs, hwords⟩ := List.head?_eq_some_iff.mp hsecond
      have hhead : ∀ c ∈ (rest.dropWhile isWordGap).head?, isWordGap c = false := by
        intro c hc
        have h := List.head?_dropWhile_not isWordGap rest
        rw [Option.mem_def.mp hc] at h
        exact h
      obtain ⟨c, rest', htail, hc⟩ := exists_gap_of_words_append_quote hhead hw hwords
      rw [htail, ← List.append_assoc] at hsplit
      exact ⟨hw, first, _, c, rest', hsplit, hfirst, List.cons_ne_nil _ _, hgap, hc⟩
  · rintro ⟨-, first, gap, b, rest, rfl, hfirst, hne, hgap, hb⟩
    have hquote := words_quote_append_gap hfirst hne hgap (w ++ b :: rest)
    have hclass := words_eq_singleton (isBare_of_isClassWord hw).ne_nil (isWordGap_of_isClassWord hw)
    rw [List.append_assoc w, List.cons_append, words_append_cons hb, hclass] at hquote
    rw [List.append_assoc _ w, hquote]
    rfl

/-- **The class in a header without one** is the class word that the name hides, if it hides one. -/
lemma headerClass_quote_eq_iff {s : Text} (h : s.isClean = true) :
    (headerClass (quote s) = [] ↔ ∀ w, ¬ HidesClass s w) ∧
      ∀ w, HidesClass s w → headerClass (quote s) = w := by
  have hhidden : ∀ w, HidesClass s w → headerClass (quote s) = w := by
    intro w hw
    rw [headerClass_quote_eq h, (words_quote_eq_iff hw.1).mpr hw, Option.filter_some, if_pos hw.1,
      Option.getD_some]
  refine ⟨⟨fun hnil w hw => ?_, fun hnone => ?_⟩, hhidden⟩
  · exact (isBare_of_isClassWord hw.1).ne_nil ((hhidden w hw).symm.trans hnil)
  · have hfilter : (words (quote s))[1]?.filter isClassWord = none :=
      Option.filter_eq_none_iff.mpr fun w hw hclass =>
        hnone w ((words_quote_eq_iff hclass).mp hw)
    rw [headerClass_quote_eq h, hfilter]
    rfl

end Text

/-! ## Built blocks -/

namespace Node

/-- The header of a built block is what stands behind its keyword. -/
lemma exists_statement_namedHeader {kw name cls : Text} (hkw : kw.isWord = true)
    (hname : name.isClean = true) (hcls : cls = [] ∨ IsBare cls) (body : List Node) :
    ∃ s, (Node.block (namedHeader kw name cls) body).statement? = some s ∧ s.keyword = kw ∧
      s.header = quote name ++ afterGap cls := by
  obtain ⟨hh, hg⟩ := isTail_header hname hcls
  have hread := Statement.read_append (isKeyword_of_isWord hkw)
    (Statement.head?_afterGap (quote name ++ afterGap cls))
  refine ⟨_, rfl, ?_, ?_⟩
  · show (Statement.read _).keyword = kw
    rw [namedHeader_eq_afterGap, hread]
    rfl
  · show (Statement.read _).header = _
    rw [namedHeader_eq_afterGap, hread, Statement.header_ofParts hh hg]

/-- **The header of a built block** has the name of the block, and it has the class of the block
    unless that is empty and the name hides a class word, which is then taken for the class. -/
theorem header_namedHeader {kw name cls : Text} (hkw : kw.isWord = true)
    (hname : name.isClean = true) (hcls : cls.isOptionalClass = true) (body : List Node) :
    ∃ s, (Node.block (namedHeader kw name cls) body).statement? = some s ∧ s.keyword = kw ∧
      s.header.headerName = name ∧
      (s.header.headerClass = cls ↔ (cls = [] → ∀ w, ¬ HidesClass name w)) ∧
      (cls = [] → ∀ w, HidesClass name w → s.header.headerClass = w) := by
  obtain ⟨s, hs, hkeyword, hheader⟩ :=
    exists_statement_namedHeader hkw hname (isBare_of_isOptionalClass hcls) body
  refine ⟨s, hs, hkeyword, by rw [hheader, headerName_quote hname], ?_⟩
  rw [hheader]
  by_cases hnil : cls = []
  · subst hnil
    rw [afterGap, if_pos rfl, List.append_nil]
    obtain ⟨hempty, hhidden⟩ := headerClass_quote_eq_iff hname
    exact ⟨hempty.trans ⟨fun h _ => h, fun h => h rfl⟩, fun _ => hhidden⟩
  · have hword : isClassWord cls = true := by
      rw [isOptionalClass, Bool.or_eq_true, decide_eq_true_eq] at hcls
      exact hcls.resolve_left hnil
    refine ⟨⟨fun _ h => absurd h hnil, fun _ => headerClass_quote_append hname hword⟩, fun h =>
      absurd h hnil⟩

/-- A zone whose name has blanks, and a class. -/
theorem header_namedHeader_blanks :
    ("zone" : Text).isWord = true ∧ ("a IN b" : Text).isClean = true ∧
      ("CH" : Text).isOptionalClass = true ∧
      ∃ s, (Node.block (namedHeader "zone" "a IN b" "CH") []).statement? = some s ∧
        s.header.headerName = "a IN b" ∧ s.header.headerClass = "CH" := by
  have hkw : ("zone" : Text).isWord = true := by decide +kernel
  have hname : ("a IN b" : Text).isClean = true := by decide +kernel
  have hcls : ("CH" : Text).isOptionalClass = true := by decide +kernel
  obtain ⟨s, hs, -, hheader, hclass, -⟩ := header_namedHeader hkw hname hcls []
  exact ⟨hkw, hname, hcls, s, hs, hheader, hclass.mpr fun h => absurd h (by decide)⟩

/-- The second word of a name is taken for a class that was never written. -/
theorem header_namedHeader_ne :
    ∃ s, (Node.block (namedHeader "zone" "a IN b" []) []).statement? = some s ∧
      ("a IN b" : Text).isClean = true ∧ s.header.headerName = "a IN b" ∧
      s.header.headerClass = "IN" ∧ s.header.headerClass ≠ [] := by
  have hkw : ("zone" : Text).isWord = true := by decide +kernel
  have hname : ("a IN b" : Text).isClean = true := by decide +kernel
  obtain ⟨s, hs, -, hheader⟩ := exists_statement_namedHeader hkw hname (Or.inl rfl) []
  rw [afterGap, if_pos rfl, List.append_nil] at hheader
  have hclass : headerClass (quote "a IN b") = "IN" := by decide +kernel
  refine ⟨s, hs, hname, by rw [hheader]; decide +kernel, ?_⟩
  rw [hheader, hclass]
  exact ⟨rfl, by decide⟩

end Node

end NameServerConf
