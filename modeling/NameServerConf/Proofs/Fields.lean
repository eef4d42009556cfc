import NameServerConf.Text.Header
import NameServerConf.Proofs.Statements

/-!
# Fields that are read as they were written

**Numbers, yes and no.**  A number is one bare word, and is read as that number, with zeros before
its digits and without (`readInt?_ofInt`, `readInt?_ofIntPadded`).

**Names.**  A name in a header is found whatever follows it (`headerName_quote`), a class if the
name has no blanks (`headerClass_quote`), and a name that is written bare where it can be is read
in either form (`unquote_quoteUnlessBare`).
-/

namespace NameServerConf

/-- What holds of every number below 256 holds of every byte. -/
lemma Byte.forall_of_all {p : UInt8 → Bool}
    (h : ((List.range 256).all fun n => p (UInt8.ofNat n)) = true) (b : UInt8) : p b = true := by
  have hb := List.all_eq_true.mp h b.toNat (List.mem_range.mpr b.toNat_lt)
  rwa [UInt8.ofNat_toNat] at hb

namespace Text

/-! ## Words -/

lemma fields_eq_singleton {sep : UInt8 → Bool} {w : Text} (h : ∀ b ∈ w, sep b = false) :
    fields sep w = [w] := by
  induction w with
  | nil => rfl
  | cons b w ih =>
      rw [fields, ih fun c hc => h c (List.mem_cons_of_mem _ hc)]
      exact if_neg (by rw [h b (List.mem_cons_self ..)]; exact Bool.false_ne_true)

lemma words_eq_singleton {w : Text} (hne : w ≠ []) (h : ∀ b ∈ w, isWordGap b = false) :
    words w = [w] := by
  rw [words, wordsBy, fields_eq_singleton h, List.filter_cons_of_pos (by simpa using hne),
    List.filter_nil]

lemma fields_ne_nil (sep : UInt8 → Bool) (s : Text) : fields sep s ≠ [] := by
  cases s with
  | nil => exact List.cons_ne_nil _ _
  | cons b s =>
      rw [fields]
      split
      · exact List.cons_ne_nil _ _
      · split <;> exact List.cons_ne_nil _ _

/-- A separator ends a field, whatever follows it. -/
lemma fields_append_cons {sep : UInt8 → Bool} {b : UInt8} (hb : sep b = true) (w r : Text) :
    fields sep (w ++ b :: r) = fields sep w ++ fields sep r := by
  induction w with
  | nil =>
      obtain ⟨v, vs, hr⟩ := List.exists_cons_of_ne_nil (fields_ne_nil sep r)
      rw [List.nil_append, fields, fields, hr]
      exact if_pos hb
  | cons c w ih =>
      obtain ⟨v, vs, hw⟩ := List.exists_cons_of_ne_nil (fields_ne_nil sep w)
      rw [hw] at ih
      rw [List.cons_append, fields, fields, ih, hw]
      simp only [List.cons_append]
      split <;> rfl

/-- The words before a gap, then those behind it. -/
lemma words_append_cons {b : UInt8} (hb : isWordGap b = true) (w r : Text) :
    words (w ++ b :: r) = words w ++ words r := by
  rw [words, wordsBy, fields_append_cons hb, List.filter_append]
  rfl

/-- There are no words in a gap. -/
lemma words_append_of_gap {g : Text} (hg : ∀ b ∈ g, isWordGap b = true) (r : Text) :
    words (g ++ r) = words r := by
  induction g with
  | nil => rfl
  | cons b g ih =>
      rw [← ih fun c hc => hg c (List.mem_cons_of_mem _ hc)]
      exact words_append_cons (hg b (List.mem_cons_self ..)) [] (g ++ r)

lemma sep_of_mem_fields {sep : UInt8 → Bool} {s : Text} :
    ∀ w ∈ fields sep s, ∀ b ∈ w, sep b = false := by
  induction s with
  | nil => simp [fields]
  | cons c s ih =>
      rw [fields]
      split
      next hs => exact absurd hs (fields_ne_nil sep s)
      next v vs hs =>
        rw [hs] at ih
        obtain ⟨hv, hvs⟩ := List.forall_mem_cons.mp ih
        split
        next => exact List.forall_mem_cons.mpr ⟨by simp, ih⟩
        next hc =>
          exact List.forall_mem_cons.mpr
            ⟨List.forall_mem_cons.mpr ⟨(Bool.not_eq_true _).mp hc, hv⟩, hvs⟩

/-- There is no gap in the first word. -/
lemma isWordGap_of_mem_firstWord {s : Text} {b : UInt8} (hb : b ∈ firstWord s) :
    isWordGap b = false := by
  rw [firstWord] at hb
  cases hwords : words s with
  | nil =>
      rw [hwords] at hb
      cases hb
  | cons w ws =>
      rw [hwords] at hb
      have hw : w ∈ words s := hwords ▸ List.mem_cons_self ..
      exact sep_of_mem_fields w (List.mem_of_mem_filter hw) b hb

lemma isWordGap_of_not_isBlank {b : UInt8} (h : Byte.isBlank b = false) : isWordGap b = false := by
  rw [← Bool.not_eq_true] at h ⊢
  intro hgap
  simp only [isWordGap, Bool.or_eq_true, decide_eq_true_eq] at hgap
  rcases hgap with (rfl | rfl) | rfl <;> exact h rfl

lemma IsBare.isBlank_eq_false {w : Text} (h : IsBare w) {b : UInt8} (hb : b ∈ w) :
    Byte.isBlank b = false := by
  have hb := h.bytes b hb
  simp only [isWordByte, Bool.and_eq_true, Bool.not_eq_true'] at hb
  exact hb.1.1.1.1.1

lemma IsBare.words_eq {w : Text} (h : IsBare w) : words w = [w] :=
  words_eq_singleton h.ne_nil fun _ hb => isWordGap_of_not_isBlank (h.isBlank_eq_false hb)

lemma IsBare.firstWord_eq {w : Text} (h : IsBare w) : firstWord w = w := by
  rw [firstWord, h.words_eq]
  rfl

lemma words_cons_ne_nil {b : UInt8} (hb : Byte.isBlank b = false) (r : Text) :
    words (b :: r) ≠ [] := by
  have hgap := isWordGap_of_not_isBlank hb
  rw [words, wordsBy, fields]
  cases fields isWordGap r with
  | nil => simp
  | cons w ws => simp [hgap]

/-- There are words in a value. -/
lemma IsValue.words_ne_nil {s : Text} (h : IsValue s) : words s ≠ [] := by
  obtain ⟨b, r, rfl⟩ := List.exists_cons_of_ne_nil h.ne_nil
  exact words_cons_ne_nil (h.head?_isBlank b rfl) r

/-! ## Numbers -/

lemma digitValue?_digit {n : ℕ} (h : n < 10) : digitValue? (digit n) = some n := by
  have hall : ∀ m < 10, digitValue? (digit m) = some m := by decide
  exact hall n h

lemma isDigit_digit {n : ℕ} (h : n < 10) : Byte.isDigit (digit n) = true := by
  have hall : ∀ m < 10, Byte.isDigit (digit m) = true := by decide
  exact hall n h

lemma isDigit_of_mem_ofNat {n : ℕ} : ∀ b ∈ ofNat n, Byte.isDigit b = true := by
  fun_induction ofNat n with
  | case1 n hn =>
      intro b hb
      rw [List.mem_singleton.mp hb]
      exact isDigit_digit hn
  | case2 n hn ih =>
      intro b hb
      rcases List.mem_append.mp hb with hb | hb
      · exact ih b hb
      · rw [List.mem_singleton.mp hb]
        exact isDigit_digit (Nat.mod_lt n (by omega))

lemma ofNat_ne_nil (n : ℕ) : ofNat n ≠ [] := by
  rw [ofNat]
  split <;> simp

/-- The digits of a number have its value. -/
lemma valueOf_ofNat (n : ℕ) : valueOf 10 (ofNat n) = n := by
  fun_induction ofNat n with
  | case1 n hn =>
      rw [valueOf, List.foldl_cons, List.foldl_nil, digitValue?_digit hn, Option.getD_some,
        Nat.mul_zero, Nat.zero_add]
  | case2 n hn ih =>
      rw [valueOf] at ih
      rw [valueOf, List.foldl_append, ih, List.foldl_cons, List.foldl_nil,
        digitValue?_digit (Nat.mod_lt n (by omega)), Option.getD_some, Nat.div_add_mod]

lemma valueOf_zeros (k : ℕ) (s : Text) :
    valueOf 10 (List.replicate k Byte.zero ++ s) = valueOf 10 s := by
  induction k with
  | zero => rfl
  | succ k ih =>
      rw [List.replicate_succ, List.cons_append, ← ih]
      rfl

/-- A byte of a number. -/
def isNumberByte (b : UInt8) : Bool := Byte.isDigit b || b = Byte.hyphen

lemma isBare_of_number {w : Text} (hne : w ≠ []) (h : ∀ b ∈ w, isNumberByte b = true) :
    IsBare w := by
  refine isBare_of_noSlash hne fun b hb => ?_
  have hall := Byte.forall_of_all
    (p := fun b => !isNumberByte b || (isWordByte b && b ≠ Byte.slash)) (by decide +kernel) b
  simpa [h b hb] using hall

/-- A run of digits is a word and a number, with a hyphen before it and without. -/
lemma wordInt?_of_digits {s : Text} (hne : s ≠ []) (h : ∀ b ∈ s, Byte.isDigit b = true) :
    (inInt32 (valueOf 10 s) = true → wordInt? s = some (valueOf 10 s : ℤ)) ∧
      (inInt32 (-(valueOf 10 s : ℤ)) = true →
        wordInt? (Byte.hyphen :: s) = some (-(valueOf 10 s : ℤ))) := by
  have hall : s.all Byte.isDigit = true := List.all_eq_true.mpr h
  have hsplit : splitSign s = (false, s) := by
    cases hs : s with
    | nil => exact absurd hs hne
    | cons b r =>
        have hb : Byte.isDigit b = true := h b (hs ▸ List.mem_cons_self ..)
        have hhyphen : b ≠ Byte.hyphen := by
          rintro rfl
          exact absurd hb (by decide)
        have hplus : b ≠ Byte.plus := by
          rintro rfl
          exact absurd hb (by decide)
        rw [splitSign, if_neg hhyphen, if_neg hplus]
  have hminus : splitSign (Byte.hyphen :: s) = (true, s) := rfl
  constructor
  · intro hfits
    simp [wordInt?, hsplit, hne, hall, signed, hfits]
  · intro hfits
    simp [wordInt?, hminus, hne, hall, signed, hfits]

lemma isDigit_of_mem_zeroPad {width : ℕ} {s : Text} (h : ∀ b ∈ s, Byte.isDigit b = true) :
    ∀ b ∈ zeroPad width s, Byte.isDigit b = true := by
  intro b hb
  rcases List.mem_append.mp hb with hb | hb
  · rw [List.eq_of_mem_replicate hb]
    rfl
  · exact h b hb

section Written

variable {n : ℤ} {w : Text}

/-- A number as it is written: its digits, perhaps with zeros before them, after its sign. -/
lemma readInt?_of_digits {s : Text} (hne : s ≠ []) (h : ∀ b ∈ s, Byte.isDigit b = true)
    (hn : inInt32 n = true)
    (hw : (w = s ∧ n = valueOf 10 s) ∨ (w = Byte.hyphen :: s ∧ n = -(valueOf 10 s : ℤ))) :
    IsBare w ∧ readInt? w = some n := by
  have hnumber : ∀ b ∈ s, isNumberByte b = true := fun b hb => by
    rw [isNumberByte, h b hb, Bool.true_or]
  have hwords : ∀ {v : Text}, IsBare v → readInt? v = wordInt? v := by
    intro v hv
    rw [readInt?, hv.words_eq]
    rfl
  rcases hw with ⟨rfl, rfl⟩ | ⟨rfl, rfl⟩
  · have hbare := isBare_of_number hne hnumber
    exact ⟨hbare, (hwords hbare).trans ((wordInt?_of_digits hne h).1 hn)⟩
  · have hbare : IsBare (Byte.hyphen :: s) :=
      isBare_of_number (List.cons_ne_nil _ _) (List.forall_mem_cons.mpr ⟨rfl, hnumber⟩)
    exact ⟨hbare, (hwords hbare).trans ((wordInt?_of_digits hne h).2 hn)⟩

lemma negSucc_eq (n : ℕ) : Int.negSucc n = -((n + 1 : ℕ) : ℤ) := rfl

/-- **A number** is one word, and read as it was written. -/
theorem readInt?_ofInt (hn : inInt32 n = true) : IsBare (ofInt n) ∧ readInt? (ofInt n) = some n := by
  cases n with
  | ofNat n =>
      refine readInt?_of_digits (ofNat_ne_nil n) isDigit_of_mem_ofNat hn (Or.inl ⟨rfl, ?_⟩)
      rw [valueOf_ofNat]
      rfl
  | negSucc n =>
      refine readInt?_of_digits (ofNat_ne_nil (n + 1)) isDigit_of_mem_ofNat hn (Or.inr ⟨rfl, ?_⟩)
      rw [valueOf_ofNat, negSucc_eq]

lemma zeroPad_ne_nil (width : ℕ) {s : Text} (h : s ≠ []) : zeroPad width s ≠ [] :=
  List.append_ne_nil_of_right_ne_nil _ h

/-- Zeros before the digits do not matter. -/
theorem readInt?_ofIntPadded (width : ℕ) (hn : inInt32 n = true) :
    IsBare (ofIntPadded width n) ∧ readInt? (ofIntPadded width n) = some n := by
  cases n with
  | ofNat n =>
      refine readInt?_of_digits (zeroPad_ne_nil width (ofNat_ne_nil n))
        (isDigit_of_mem_zeroPad isDigit_of_mem_ofNat) hn (Or.inl ⟨rfl, ?_⟩)
      rw [zeroPad, valueOf_zeros, valueOf_ofNat]
      rfl
  | negSucc n =>
      refine readInt?_of_digits (zeroPad_ne_nil (width - 1) (ofNat_ne_nil (n + 1)))
        (isDigit_of_mem_zeroPad isDigit_of_mem_ofNat) hn (Or.inr ⟨rfl, ?_⟩)
      rw [zeroPad, valueOf_zeros, valueOf_ofNat, negSucc_eq]

end Written

/-! ## Yes and no -/

lemma isBare_ofYesNo (b : Bool) : IsBare (ofYesNo b) := by
  refine isBare_of_noSlash (by cases b <;> decide) (List.forall_iff_forall_mem.mp ?_)
  cases b <;> decide

lemma readYesNo?_ofYesNo (b : Bool) : readYesNo? (ofYesNo b) = some b := by
  rw [readYesNo?, (isBare_ofYesNo b).words_eq]
  cases b <;> rfl

/-! ## Names -/

lemma isBare_of_isBareName {s : Text} (h : isBareName s = true) : IsBare s := by
  rw [isBareName, Bool.and_eq_true, decide_eq_true_eq, List.all_eq_true] at h
  refine isBare_of_noSlash h.1 fun b hb => ?_
  have hall := Byte.forall_of_all
    (p := fun b => !(Byte.isLetter b || Byte.isDigit b || b = Byte.hyphen) ||
      (isWordByte b && b ≠ Byte.slash)) (by decide +kernel) b
  simpa [h.2 b hb] using hall

lemma IsBare.ne_quote {w : Text} (h : IsBare w) {b : UInt8} (hb : b ∈ w) : b ≠ Byte.quote := by
  rintro rfl
  exact absurd (h.bytes _ hb) (by decide)

/-- Nothing is put in when quotation marks are taken off. -/
lemma mem_of_mem_unquote {s : Text} {b : UInt8} (h : b ∈ unquote s) : b ∈ s := by
  have hstrip : ∀ (p : UInt8 → Bool) (t : Text), b ∈ strip p t → b ∈ t := by
    intro p t ht
    rw [strip, dropRight, List.mem_reverse] at ht
    have ht := (List.dropWhile_sublist p).subset ht
    rw [List.mem_reverse] at ht
    exact (List.dropWhile_sublist p).subset ht
  exact hstrip _ _ (hstrip _ _ h)

/-- There is nothing to take off a bare word. -/
lemma IsBare.unquote_eq {w : Text} (h : IsBare w) : unquote w = w := by
  rw [unquote, h.isValue.trim_eq, strip, dropWhile_eq_self, dropRight_eq_self]
  · exact fun b hb => decide_eq_false (h.ne_quote (List.mem_of_getLast? hb))
  · exact fun b hb => decide_eq_false (h.ne_quote (List.mem_of_head? hb))

lemma IsBare.noGroups_eq {w : Text} (h : IsBare w) : noGroups w = true := by
  rw [noGroups, h.items_eq, List.all_map]
  exact List.all_eq_true.mpr fun _ _ => rfl

lemma noGroups_quote {s : Text} (h : s.isQuotable = true) : noGroups (quote s) = true := by
  rw [noGroups, items_quote h]
  rfl

section Names

variable {s : Text}

lemma isValue_quoteUnlessBare (h : s.isQuotable = true) : IsValue (quoteUnlessBare s) := by
  rw [quoteUnlessBare]
  split
  next hbare => exact (isBare_of_isBareName hbare).isValue
  next => exact isValue_quote h

lemma noGroups_quoteUnlessBare (h : s.isQuotable = true) : noGroups (quoteUnlessBare s) = true := by
  rw [quoteUnlessBare]
  split
  next hbare => exact (isBare_of_isBareName hbare).noGroups_eq
  next => exact noGroups_quote h

/-- **A name** is read as it was written, with quotation marks and without. -/
lemma unquote_quoteUnlessBare (h : s.isQuotable = true) : unquote (quoteUnlessBare s) = s := by
  rw [quoteUnlessBare]
  split
  next hbare => exact (isBare_of_isBareName hbare).unquote_eq
  next => exact unquote_quote h

/-! ## Headers -/

lemma untilNul_quote_append (h : s.isClean = true) (t : Text) :
    untilNul (quote s ++ t) = quote s ++ untilNul t := by
  refine List.takeWhile_append_of_pos fun b hb => decide_eq_true ?_
  rcases List.mem_append.mp hb with hb | hb
  · rcases List.mem_cons.mp hb with rfl | hb
    · decide
    · exact (ne_of_isClean h hb).2.2
  · rw [List.mem_singleton.mp hb]
    decide

lemma splitName?_quote_append (h : s.isClean = true) (t : Text) :
    HeaderPattern.splitName? (quote s ++ t) = some (s, t) := by
  have hne : ∀ b ∈ s, decide (b ≠ Byte.quote) = true :=
    fun b hb => decide_eq_true (ne_of_isClean h hb).1
  have hquote : quote s ++ t = Byte.quote :: (s ++ Byte.quote :: t) := by simp [quote]
  rw [hquote, HeaderPattern.splitName?, if_pos rfl, List.dropWhile_append_of_pos hne,
    List.dropWhile_cons_of_neg (by decide), List.takeWhile_append_of_pos hne,
    List.takeWhile_cons_of_neg (by decide), List.append_nil]

/-- **The name in a header** is found whatever follows it. -/
theorem headerName_quote (h : s.isClean = true) (t : Text) : headerName (quote s ++ t) = s := by
  have hgroups : HeaderPattern.name.groups (quote s ++ t) = some [quote s, s] := by
    rw [HeaderPattern.groups, untilNul_quote_append h, HeaderPattern.groupsIn,
      splitName?_quote_append h]
    rfl
  rw [headerName, quotedName_eq, hgroups]

lemma headerName_quoteUnlessBare (h : s.isClean = true) : headerName (quoteUnlessBare s) = s := by
  rw [quoteUnlessBare]
  split
  next hbare =>
    have hbare := isBare_of_isBareName hbare
    have hgroups : HeaderPattern.name.groups s = none := by
      rw [HeaderPattern.groups, HeaderPattern.groupsIn, untilNul]
      have hsplit : ∀ t : Text, (∀ b ∈ t.head?, b ≠ Byte.quote) →
          HeaderPattern.splitName? t = none := by
        intro t ht
        cases t with
        | nil => rfl
        | cons b r => exact if_neg (ht b rfl)
      rw [hsplit _ fun b hb => hbare.ne_quote ((List.takeWhile_sublist _).subset
        (List.mem_of_head? hb))]
      rfl
    rw [headerName, quotedName_eq, hgroups, hbare.firstWord_eq, hbare.unquote_eq]
  next =>
    have hname := headerName_quote h []
    rwa [List.append_nil] at hname

end Names

/-- A name: it is clean and has no blank and no brace. -/
def isName (s : Text) : Bool :=
  s.isClean && s.all fun b => !Byte.isBlank b && b ≠ Byte.openBrace && b ≠ Byte.closeBrace

lemma isName_iff {s : Text} : s.isName = true ↔ s.isClean = true ∧
    ∀ b ∈ s, Byte.isBlank b = false ∧ b ≠ Byte.openBrace ∧ b ≠ Byte.closeBrace := by
  rw [isName, Bool.and_eq_true, List.all_eq_true]
  simp only [Bool.and_eq_true, Bool.not_eq_true', decide_eq_true_eq, and_assoc]

lemma isWordGap_of_isName {s : Text} (h : s.isName = true) : ∀ b ∈ s, isWordGap b = false :=
  fun b hb => isWordGap_of_not_isBlank ((isName_iff.mp h).2 b hb).1

lemma isWordGap_append_quote {s : Text} (h : ∀ b ∈ s, isWordGap b = false) :
    ∀ b ∈ s ++ [Byte.quote], isWordGap b = false := by
  intro b hb
  rcases List.mem_append.mp hb with hb | hb
  · exact h b hb
  · rw [List.mem_singleton.mp hb]
    rfl

/-- A name without gaps in quotation marks is one word. -/
lemma words_quote {s : Text} (h : ∀ b ∈ s, isWordGap b = false) : words (quote s) = [quote s] :=
  words_eq_singleton (List.cons_ne_nil _ _)
    (isWordGap_append_quote (List.forall_mem_cons.mpr ⟨rfl, h⟩))

lemma isLetter_of_isClassWord {w : Text} (h : isClassWord w = true) :
    ∀ b ∈ w, Byte.isLetter b = true := by
  intro b hb
  obtain ⟨c, hc, hw⟩ := List.any_eq_true.mp h
  have hfold : lower c = lower w := of_decide_eq_true hw
  have hletters : (classWords.all fun c => (lower c).all Byte.isLetter) = true := by decide +kernel
  have hlower : Byte.isLetter (Byte.lower b) = true := by
    refine List.all_eq_true.mp (List.all_eq_true.mp hletters c hc) _ ?_
    rw [hfold]
    exact List.mem_map_of_mem hb
  have hall := Byte.forall_of_all
    (p := fun b => !Byte.isLetter (Byte.lower b) || Byte.isLetter b) (by decide +kernel) b
  simpa [hlower] using hall

lemma isBare_of_isClassWord {w : Text} (h : isClassWord w = true) : IsBare w := by
  have hne : w ≠ [] := by
    rintro rfl
    exact absurd h (by decide +kernel)
  refine isBare_of_noSlash hne fun b hb => ?_
  have hall := Byte.forall_of_all
    (p := fun b => !Byte.isLetter b || (isWordByte b && b ≠ Byte.slash)) (by decide +kernel) b
  simpa [isLetter_of_isClassWord h b hb] using hall

/-- A class word behind a quoted name is found. -/
lemma headerClass_quote_append {s cls : Text} (hclean : s.isClean = true)
    (hc : isClassWord cls = true) : headerClass (quote s ++ afterGap cls) = cls := by
  have hletters := isLetter_of_isClassWord hc
  obtain ⟨c, cs, rfl⟩ := List.exists_cons_of_ne_nil (isBare_of_isClassWord hc).ne_nil
  have hnul : untilNul (Byte.space :: c :: cs) = Byte.space :: c :: cs := by
    refine List.takeWhile_eq_self_iff.mpr fun b hb => decide_eq_true ?_
    rcases List.mem_cons.mp hb with rfl | hb
    · decide
    · rintro rfl
      exact absurd (hletters _ hb) (by decide)
  have hblank : Byte.isBlank c = false :=
    (isBare_of_isClassWord hc).isBlank_eq_false (List.mem_cons_self ..)
  have htake := List.takeWhile_eq_self_iff.mpr hletters
  have hdrop := List.dropWhile_eq_nil_iff.mpr hletters
  have hword : HeaderPattern.splitWord? (Byte.space :: c :: cs) =
      some ([Byte.space], c :: cs, []) := by
    have hgap : (Byte.space :: c :: cs).takeWhile Byte.isBlank = [Byte.space] := by
      rw [List.takeWhile_cons_of_pos (by decide), List.takeWhile_cons_of_neg (by simp [hblank])]
    have hrest : (Byte.space :: c :: cs).dropWhile Byte.isBlank = c :: cs := by
      rw [List.dropWhile_cons_of_pos (by decide), List.dropWhile_cons_of_neg (by simp [hblank])]
    rw [HeaderPattern.splitWord?, hgap, hrest, htake, hdrop]
  have hgroups : HeaderPattern.nameAndClass.groups (quote s ++ Byte.space :: c :: cs) =
      some [quote s ++ [Byte.space] ++ c :: cs, c :: cs, []] := by
    rw [HeaderPattern.groups, untilNul_quote_append hclean, hnul, HeaderPattern.groupsIn,
      splitName?_quote_append hclean]
    show (HeaderPattern.splitWord? (Byte.space :: c :: cs)).bind _ = _
    rw [hword]
    rfl
  rw [afterGap_of_ne_nil (List.cons_ne_nil _ _), headerClass, quotedClass_eq, hgroups]
  exact if_pos hc

/-- A quoted name with nothing behind it is looked through for words, as any header is. -/
lemma headerClass_quote_eq {s : Text} (hclean : s.isClean = true) :
    headerClass (quote s) = ((words (quote s))[1]?.filter isClassWord).getD [] := by
  have hgroups : HeaderPattern.nameAndClass.groups (quote s) = none := by
    have hnul := untilNul_quote_append hclean []
    have hsplit := splitName?_quote_append hclean []
    rw [List.append_nil] at hnul hsplit
    rw [HeaderPattern.groups, hnul, untilNul, List.takeWhile_nil, List.append_nil,
      HeaderPattern.groupsIn, hsplit]
    rfl
  rw [headerClass, quotedClass_eq, hgroups]
  dsimp only
  split
  next v w vs hwords =>
    rw [hwords, List.getElem?_cons_succ, List.getElem?_cons_zero, Option.filter_some]
    split <;> rfl
  next hwords =>
    cases hquote : words (quote s) with
    | nil => rfl
    | cons v vs =>
        cases vs with
        | nil => rfl
        | cons w vs => exact absurd hquote (hwords v w vs)

/-- **The class in a header** is the word behind the name, if there is one. -/
theorem headerClass_quote {s cls : Text} (h : s.isName = true)
    (hc : cls = [] ∨ isClassWord cls = true) : headerClass (quote s ++ afterGap cls) = cls := by
  have hclean := (isName_iff.mp h).1
  rcases hc with rfl | hc
  · rw [afterGap, if_pos rfl, List.append_nil, headerClass_quote_eq hclean,
      words_quote (isWordGap_of_isName h)]
    rfl
  · exact headerClass_quote_append hclean hc

end Text

end NameServerConf
