import NameServerConf.Proofs.Finished
import NameServerConf.Proofs.Scanning

/-!
# Canonical spacing

Collapsing the blanks of a text and normalizing it bring the text into a form in which they then
leave it.  The text may be anything: with a string or a comment that does not end, a backslash as its
last byte, slashes beside comments.

**The form.**  A text `IsCanonical` if outside its strings it has no comments, and no blanks but single
spaces between two other bytes.  These are exactly the texts that are left as they are:
`collapse_eq_self_iff` and `normalize_eq_self_iff`.

**Once is enough.**  What was collapsed has the tidied lexemes of the text (`lexemes_collapse`), so
nothing is left to do the second time, and nothing but blanks and comments has gone
(`isCanonical_normalize`).
-/

namespace NameServerConf.Text

variable {s : Text}

/-- Outside its strings the text has no comments, and each blank is a single space with something else
    before it and behind it. -/
structure IsCanonical (d : Dialect) (s : Text) : Prop where
  noComments : ∀ t, .comment t ∉ lexemes d s
  spaced : s ≠ [] → isSpaced true (lexemes d s) = true

/-! ## Collapsed texts -/

/-- Where there are no comments, only blanks are gaps. -/
lemma collapse_eq_ofItems_tidy (s : Text) :
    collapse s = ofItems (tidy false false false (lexemes .value s)) := by
  have hkept : (lexemes .value s).map blankOut = lexemes .value s := by
    refine (List.map_congr_left fun i hi => ?_).trans (List.map_id _)
    rcases of_mem_lexemes_value hi with ⟨b, rfl⟩ | ⟨t, rfl⟩ <;> rfl
  rw [collapse, ← hkept, squeeze_blankOut, hkept]

lemma lexemes_collapse (s : Text) :
    lexemes .value (collapse s) = tidy false false false (lexemes .value s) := by
  rw [collapse_eq_ofItems_tidy, lexemes_tidy rfl]

lemma collapse_collapse (s : Text) : collapse (collapse s) = collapse s := by
  rw [collapse_eq_ofItems_tidy (collapse s), lexemes_collapse, tidy_tidy_false,
    ← collapse_eq_ofItems_tidy]

/-- **What collapsing leaves alone.** -/
theorem collapse_eq_self_iff : collapse s = s ↔ IsCanonical .value s := by
  constructor
  · intro h
    refine ⟨fun t ht => ?_, fun hne => ?_⟩
    · rcases of_mem_lexemes_value ht with ⟨b, hb⟩ | ⟨u, hu⟩
      · cases hb
      · cases hu
    · refine isSpaced_of_squeeze.2.2 false (fun hnil => hne ?_) ?_
      · rw [← ofItems_lexemes .value s, hnil, ofItems_nil]
      · rw [ofItems_lexemes]
        exact h
  · intro h
    by_cases hne : s = []
    · rw [hne, collapse, lexemes, squeeze]
    · have hsqueeze := (squeeze_append (h.spaced hne) []).2 rfl false false
      rwa [List.append_nil, ofItems_lexemes, ← collapse, squeeze, List.append_nil] at hsqueeze

/-! ## Normalized texts -/

/-- Both readers, the one that knows comments and the one that does not, see the same strings. -/
lemma lexemes_value_normalize (s : Text) :
    lexemes .value (normalize s) = lexemes .file (normalize s) := by
  rw [normalize_eq_tidyText, lexemes_value_tidyText]

/-- **What normalizing leaves alone.** -/
theorem normalize_eq_self_iff : normalize s = s ↔ IsCanonical .file s := by
  constructor
  · intro h
    have hlex := lexemes_value_normalize s
    have hcollapse : collapse (normalize s) = normalize s := collapse_collapse (stripComments s)
    rw [h] at hlex hcollapse
    obtain ⟨hcomments, hspaced⟩ := collapse_eq_self_iff.mp hcollapse
    rw [hlex] at hcomments hspaced
    exact ⟨hcomments, hspaced⟩
  · intro h
    have hlex := lexemes_value_eq h.noComments
    rw [normalize_eq_collapse hlex.symm]
    refine collapse_eq_self_iff.mpr ⟨?_, ?_⟩
    · rw [hlex]
      exact h.noComments
    · rw [hlex]
      exact h.spaced

/-- **Canonical spacing** is reached at once, whatever the text: a normalized text is left alone when
    it is normalized again, and a collapsed one when it is collapsed again.  Outside strings there are
    then no comments and only single spaces between other bytes, the strings are the same with comments
    and without, and strings and other bytes are those of the text, in the same order.  What a string
    and what a comment is, is what `Scans` says: no other list of items scans a text. -/
theorem isCanonical_normalize (s : Text) :
    (∀ d t is, lexemes d t = is ↔ Scans d is t) ∧
    normalize (normalize s) = normalize s ∧ collapse (collapse s) = collapse s ∧
    IsCanonical .file (normalize s) ∧ IsCanonical .value (collapse s) ∧
    lexemes .value (normalize s) = lexemes .file (normalize s) ∧
    (lexemes .file (normalize s)).filter (!·.isGap) = (lexemes .file s).filter (!·.isGap) ∧
    (lexemes .value (collapse s)).filter (!·.isGap) = (lexemes .value s).filter (!·.isGap) := by
  have hnormalize := normalize_normalize s
  have hcollapse := collapse_collapse s
  refine ⟨fun _ _ _ => lexemes_eq_iff, hnormalize, hcollapse, normalize_eq_self_iff.mp hnormalize,
    collapse_eq_self_iff.mp hcollapse, lexemes_value_normalize s, ?_, ?_⟩
  · rw [normalize_eq_tidyText, lexemes_tidyText, filter_tidy]
  · rw [lexemes_collapse, filter_tidy]

/-- A comment between slashes, a backslash outside a string, and a string that does not end. -/
example : normalize " a/# b\n/ \\\t\t\"c  \\\"# d\\" = "a/ / \\ \"c  \\\"# d\\" := by decide +kernel

end NameServerConf.Text
