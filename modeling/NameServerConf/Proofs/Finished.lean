import NameServerConf.Proofs.Layout

/-!
# Statements of finished texts

What a statement of a finished text says can be written again.

**Canonical values.**  A text that was normalized is a value, or nothing, if it was finished and held
no semicolon and no closing brace outside groups (`isTail_normalize`).  A keyword has no gaps, so it is
normalized as it stands (`eq_nil_or_isKeyword`).

**Down to any depth.**  The statements of a finished text are `Finished`, and so are the statements in
their bodies (`Finished.children`).
-/

namespace NameServerConf

namespace Text

variable {s w : Text}

/-! ## Canonical values -/

/-- No comment is left in a tidied text. -/
lemma lexemes_value_tidyText (s : Text) :
    lexemes .value (tidyText false false s) = lexemes .file (tidyText false false s) :=
  lexemes_value_eq fun t ht => comment_not_mem_tidy t (lexemes_tidyText false false s ▸ ht)

/-- The items of a normalized text are its tidied items, each group tidied inside. -/
lemma items_normalize (h : groupsClosed (items .file s) = true) :
    items .value (normalize s) = (tidy false false false (items .file s)).map tidyGroup := by
  rw [normalize_eq_tidyText, items, lexemes_value_tidyText, ← items, items_tidyText h]

/-- **What was normalized is a value**, or nothing. -/
theorem isTail_normalize (hfinished : ∀ i ∈ items .file s, i.isFinished = true)
    (hsemicolon : .byte Byte.semicolon ∉ items .file s)
    (hbrace : .byte Byte.closeBrace ∉ items .file s) : IsTail (normalize s) := by
  have hitems := items_normalize (groupsClosed_of_finished hfinished)
  have hvalue := lexemes_value_tidyText s
  rw [normalize_eq_tidyText] at hitems ⊢
  refine (eq_or_ne _ []).imp_right fun hne => ⟨hne, hvalue.symm, ?_, ?_⟩
  · rw [hitems, List.all_eq_true]
    intro i hi
    simp only [isInner, Bool.and_eq_true, decide_eq_true_eq]
    refine ⟨⟨isFinished_of_mem_tidyGroup hfinished hi, ?_⟩, ?_⟩
    · rintro rfl
      exact hsemicolon (mem_of_byte_mem_tidyGroup (by decide) hi)
    · rintro rfl
      exact hbrace (mem_of_byte_mem_tidyGroup (by decide) hi)
  · rw [← normalize_eq_collapse hvalue.symm, normalize_tidyText, normalize_eq_tidyText]

/-- Items without groups are the lexemes. -/
lemma nest_eq_self {ls : List Item} (h : ∀ i ∈ nest ls, i.isGroup = false) : nest ls = ls := by
  fun_induction nest ls with
  | case1 => rfl
  | case2 rest inside after hg ih => cases h _ (List.mem_cons_self ..)
  | case3 rest hg => cases h _ (List.mem_cons_self ..)
  | case4 i rest hi ih => rw [ih fun j hj => h j (List.mem_cons_of_mem _ hj)]

/-- A text without gaps is normalized as it stands. -/
lemma normalize_eq_self (h : ∀ i ∈ lexemes .file s, i.isGap = false) : normalize s = s := by
  have htidy : tidy false false false (lexemes .file s) = lexemes .file s := by
    cases hlex : lexemes .file s with
    | nil => rfl
    | cons i is =>
        rw [hlex] at h
        have hrest : tidy true false false (is ++ []) = is ++ tidy true false false [] :=
          tidy_append_of_noGap fun j hj => h j (List.mem_cons_of_mem i hj)
        rw [List.append_nil, tidy_nil, Bool.and_false, blankIf_false, List.append_nil] at hrest
        rw [tidy_cons (h i (List.mem_cons_self ..)), hrest]
        rfl
  rw [normalize_eq_tidyText, tidyText, htidy, ofItems_lexemes]

/-- **A keyword** that was read is one that can be written, unless it is empty. -/
theorem eq_nil_or_isKeyword {ks rest : List Item} (hks : items .file (ofItems ks) = ks)
    (hsplit : Statement.IsKeywordSplit ks rest) (hfinished : ∀ i ∈ ks, i.isFinished = true)
    (hbrace : .byte Byte.closeBrace ∉ ks) : ofItems ks = [] ∨ (ofItems ks).IsKeyword := by
  have hitem : ∀ i ∈ ks, i.isGap = false ∧ i.isGroup = false ∧ i ≠ .byte Byte.semicolon := by
    intro i hi
    rcases hsplit.of_mem hi with ⟨q, rfl⟩ | ⟨b, rfl, hb, hne⟩
    · exact ⟨rfl, rfl, by simp⟩
    · exact ⟨hb, rfl, by simpa using hne⟩
  have hlex : lexemes .file (ofItems ks) = ks := by
    have hnest : nest (lexemes .file (ofItems ks)) = ks := hks
    have hself := nest_eq_self (hnest.symm ▸ fun i hi => (hitem i hi).2.1)
    exact hself.symm.trans hnest
  have htail := isTail_normalize (s := ofItems ks) (by rwa [hks])
    (by rw [hks]; exact fun h => (hitem _ h).2.2 rfl) (by rwa [hks])
  rw [normalize_eq_self (by rw [hlex]; exact fun i hi => (hitem i hi).1)] at htail
  refine htail.imp_right fun hvalue => ⟨hvalue, ?_⟩
  rw [← hvalue.items_eq .file, hks]
  exact hsplit.imp id fun h => h.1

end Text

/-! ## Down to any depth -/

/-- What is read from a finished text: keyword and value can be written again, and the body is
    finished too. -/
structure Statement.Finished (s : Statement) : Prop where
  keyword : s.keyword = [] ∨ s.keyword.IsKeyword
  value : s.value.IsTail
  body : ∃ u : Text, u.isFinished = true ∧ s.body = Node.parse u

namespace Statement

/-- A finished statement is read from the items of a keyword and of a value. -/
lemma exists_parts_of_finished {s : Text} {p : List Item}
    (hp : p ∈ Node.pieces (Text.items .file s)) (hp' : (Text.ofItems p).isFinished = true) :
    ∃ ks v, read (Text.ofItems p) = ofParts (Text.ofItems ks) (Text.ofItems v) ∧
      Text.items .file (Text.ofItems ks) = ks ∧ Text.items .file (Text.ofItems v) = v ∧
      (∀ i ∈ ks ++ v, i.isFinished = true ∧ i ≠ .byte Byte.closeBrace) ∧
      .byte Byte.semicolon ∉ v ∧ (∃ i ∈ p.head?, i.isFiller = false) ∧
      ∃ tail, p = ks ++ (v ++ tail) ∧ IsKeywordSplit ks (v ++ tail) ∧
        (tail = [.byte Byte.semicolon] ∨ tail = []) := by
  have hitems := Node.items_of_mem_pieces hp
  obtain ⟨hfinished, hline⟩ := Text.isFinished_iff.mp hp'
  obtain ⟨-, -, -, ⟨i, is, hi, hfiller⟩, hbrace, -⟩ := Node.exists_of_mem_pieces hp
  have hfirst : ∃ i ∈ p.head?, i.isFiller = false := ⟨i, by rw [hi]; rfl, hfiller⟩
  obtain ⟨ks, v, tail, rfl, hhead, hsplit, hmem, htail⟩ := exists_parts hp
  rw [hitems] at hfinished hline
  refine ⟨ks, v, ?_, Text.items_ofItems_prefix hitems,
    Text.items_ofItems_prefix (Text.items_ofItems_suffix hitems), fun j hj => ?_, hmem, hfirst, tail,
    rfl, hsplit, htail⟩
  · refine read_of_items hitems hhead hsplit (htail.imp_right ?_)
    rintro rfl
    refine ⟨rfl, fun i hi => hfinished i (by simp [hi]), ?_, hmem⟩
    rw [← List.append_nil v]
    exact Node.forall_getLast?_of_append hline
  · rw [← List.append_assoc] at hfinished hbrace
    refine ⟨hfinished j (List.mem_append_left _ hj), ?_⟩
    rintro rfl
    exact hbrace (List.mem_append_left _ hj)

theorem finished_read {s : Text} {p : List Item} (hp : p ∈ Node.pieces (Text.items .file s))
    (hp' : (Text.ofItems p).isFinished = true) : (read (Text.ofItems p)).Finished := by
  obtain ⟨ks, v, hread, hks, hv, hinner, hmem, -, tail, -, hsplit, -⟩ :=
    exists_parts_of_finished hp hp'
  have hkinner : ∀ i ∈ ks, i.isFinished = true ∧ i ≠ .byte Byte.closeBrace :=
    fun i hi => hinner i (List.mem_append_left _ hi)
  have hvinner : ∀ i ∈ Text.items .file (Text.ofItems v),
      i.isFinished = true ∧ i ≠ .byte Byte.closeBrace := by
    rw [hv]
    exact fun i hi => hinner i (List.mem_append_right _ hi)
  rw [hread]
  refine ⟨?_, ?_, ?_⟩
  · exact Text.eq_nil_or_isKeyword hks hsplit (fun i hi => (hkinner i hi).1)
      fun h => (hkinner _ h).2 rfl
  · exact Text.isTail_normalize (fun i hi => (hvinner i hi).1) (by rwa [hv])
      fun h => (hvinner _ h).2 rfl
  · obtain ⟨u, -, -, hu, hbody, -⟩ :=
      (alike_ofParts (Text.ofItems ks) (fun i hi => (hvinner i hi).1) true true).body
    exact ⟨u, hu, hbody⟩

end Statement

/-- **The statements of a finished text** are finished. -/
theorem Node.finished_of_mem_statements {s : Text}
    (hs : ∀ p ∈ pieces (Text.items .file s), (Text.ofItems p).isFinished = true) {t : Statement}
    (ht : t ∈ statements (parse s)) : t.Finished := by
  rw [parse, statements_ofItems] at ht
  obtain ⟨p, hp, rfl⟩ := List.mem_map.mp ht
  exact Statement.finished_read hp (hs p hp)

namespace Statement

/-- The statements in the body of a finished statement are finished. -/
theorem Finished.children {s : Statement} (h : s.Finished) {c : Statement} (hc : c ∈ s.children) :
    c.Finished := by
  obtain ⟨u, hu, hbody⟩ := h.body
  rw [Statement.children, hbody] at hc
  exact Node.finished_of_mem_statements (fun p hp => Node.isFinished_of_mem_pieces hu hp) hc

end Statement

end NameServerConf
