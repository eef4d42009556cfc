import NameServerConf.Proofs.MatchLists

/-!
# How deep match lists nest

Reading a term reads a list if the term is one in braces, and reading that list reads its terms.  This
module says why that ends, for any text, and how deep it goes.

**Going in.**  A term `Opens` a list if what stands behind its sign is one complete group.  Then it is
read as that list, negated or not (`read_of_opens`), and the list loses the braces of the group, so its
parts are shorter by two bytes at least (`Opens.length_le`).  Any other term has no terms of its
own (`terms_read`).

**Coming out.**  A term is `Within` another if reading the other reads it.  There is no endless descent
(`wellFounded_within`), and each level takes a brace with it: `depths_readList_le`.
-/

namespace NameServerConf

open Text

namespace MatchTerm

/-! ## Depth -/

mutual

/-- How many lists stand one in another in a term. -/
def depth : MatchTerm → ℕ
  | .address _ _ => 0
  | .key _ _ => 0
  | .acl _ _ => 0
  | .nested _ ts => depths ts + 1

/-- How many lists stand one in another in the terms of a list. -/
def depths : List MatchTerm → ℕ
  | [] => 0
  | t :: ts => max t.depth (depths ts)

end

/-- The terms of the list that a term is. -/
def terms : MatchTerm → List MatchTerm
  | .nested _ ts => ts
  | _ => []

/-! ## Going in -/

section Opens

variable {segment t part : Text}

/-- What stands behind the sign of the term begins like a list in braces and is no broken group. -/
def Opens (segment t : Text) : Prop :=
  (splitSign segment).2 = t ∧ t.head? = some Byte.openBrace ∧ isBrokenGroup t = false

instance : Decidable (Opens segment t) := inferInstanceAs (Decidable (_ ∧ _ ∧ _))

/-- There are no blanks around what stands behind a sign. -/
lemma trim_splitSign (segment : Text) : trim (splitSign segment).2 = (splitSign segment).2 := by
  have htrim := trim_trim segment
  rw [splitSign]
  split
  · rfl
  next b r hs =>
    split
    · exact trim_trim r
    · rwa [hs] at htrim

/-- A list is opened by one complete group. -/
lemma opens_iff : Opens segment t ↔
    (splitSign segment).2 = t ∧ ∃ inner, items .value t = [.group inner true] := by
  refine and_congr_right fun hsign => ?_
  have htrim : trim t = t := hsign ▸ trim_splitSign segment
  constructor
  · rintro ⟨hhead, hbroken⟩
    obtain ⟨r, rfl⟩ := List.head?_eq_some_iff.mp hhead
    obtain ⟨inner, closed, is, hitems⟩ := exists_items_openBrace .value r
    rw [isBrokenGroup, htrim] at hbroken
    simp only [show Byte.openBrace ≠ Byte.bang by decide, if_false, hitems] at hbroken
    cases is with
    | nil =>
        obtain rfl : closed = true := by simpa using hbroken
        exact ⟨inner, hitems⟩
    | cons i is => cases hbroken
  · rintro ⟨inner, hitems⟩
    have htext : t = Byte.openBrace :: (inner ++ [Byte.closeBrace]) := by
      rw [← ofItems_items .value t, hitems]
      simp [Item.text]
    refine ⟨by rw [htext]; rfl, ?_⟩
    rw [isBrokenGroup, htrim]
    conv_lhs => rw [htext]
    simp only [show Byte.openBrace ≠ Byte.bang by decide, if_false, ← htext, hitems, Bool.not_true]

/-- The list that a term opens loses a pair of braces. -/
lemma Opens.stripBraces_eq (h : Opens segment t) :
    ∃ inner, t = Byte.openBrace :: (inner ++ [Byte.closeBrace]) ∧ stripBraces t = trim inner := by
  obtain ⟨hsign, inner, hitems⟩ := opens_iff.mp h
  have htrim : trim t = t := hsign ▸ trim_splitSign segment
  refine ⟨inner, ?_, ?_⟩
  · rw [← ofItems_items .value t, hitems]
    simp [Item.text]
  · rw [stripBraces, htrim, hitems]

/-- **A list in braces** is read as a list. -/
lemma read_of_opens (h : Opens segment t) :
    read segment = readList t >>= fun ts => pure (.nested (splitSign segment).1 ts) := by
  obtain ⟨hsign, inner, hitems⟩ := opens_iff.mp h
  have htrim : trim t = t := hsign ▸ trim_splitSign segment
  have hstrip : stripBraces t = trim inner := by rw [stripBraces, htrim, hitems]
  have hsplit : splitSign segment = ((splitSign segment).1, t) := Prod.ext rfl hsign
  rw [read_group hsplit hitems, readList, hstrip]

/-- Any other term has no terms, and is a list at all only if it has an opening brace. -/
lemma terms_read (h : ∀ t, ¬ Opens segment t) : (read segment).value.terms = [] ∧
    (read segment).value.depth ≤ (splitSign segment).2.count Byte.openBrace := by
  rw [read]
  split
  next => exact ⟨rfl, Nat.zero_le _⟩
  next =>
    split
    next inner hitems => exact absurd (opens_iff.mpr ⟨rfl, inner, hitems⟩) (h _)
    next inner closed is _ hitems =>
      refine ⟨rfl, ?_⟩
      rw [← ofItems_items .value (splitSign segment).2, hitems]
      show 1 ≤ (Byte.openBrace :: _).count Byte.openBrace
      rw [List.count_cons_self]
      exact Nat.le_add_left 1 _
    next =>
      split
      · exact ⟨rfl, Nat.zero_le _⟩
      · exact ⟨rfl, Nat.zero_le _⟩

lemma length_le_totalLength {l : List Text} (h : part ∈ l) : part.length ≤ totalLength l := by
  induction l with
  | nil => cases h
  | cons s l ih =>
      rw [totalLength]
      rcases List.mem_cons.mp h with rfl | h
      · exact Nat.le_add_right _ _
      · exact (ih h).trans (Nat.le_add_left _ _)

/-- **The parts of a list in braces** are shorter by the braces. -/
lemma Opens.length_le (h : Opens segment t) (hpart : part ∈ parts (stripBraces t)) :
    part.length + 2 ≤ t.length := by
  obtain ⟨inner, ht, hstrip⟩ := h.stripBraces_eq
  rw [hstrip] at hpart
  have hle := (length_le_totalLength hpart).trans (totalLength_parts_le (trim inner))
  have htrim := length_trim_le inner
  have hlength := congrArg List.length ht
  rw [List.length_cons, List.length_append, List.length_singleton] at hlength
  omega

end Opens

/-- Without the braces around it a list has no more of them. -/
lemma count_stripBraces_le (s : Text) :
    (stripBraces s).count Byte.openBrace ≤ s.count Byte.openBrace := by
  have htrim : ∀ t : Text, (trim t).count Byte.openBrace = t.count Byte.openBrace := count_strip rfl
  rw [stripBraces, ← htrim s]
  split
  next inner closed hitems =>
    rw [← ofItems_items .value (trim s), hitems, htrim]
    simp only [ofItems_cons, ofItems_nil, Item.text, List.count_append, List.count_cons]
    omega
  next => exact le_rfl

/-! ## Coming out -/

/-- Reading the term `segment` reads the term `part`. -/
def Within (part segment : Text) : Prop :=
  ∃ t, Opens segment t ∧ part ∈ parts (stripBraces t) ∧ isBrokenGroup part = false

lemma Within.length_lt {part segment : Text} (h : Within part segment) :
    part.length < segment.length := by
  obtain ⟨t, hopens, hpart, -⟩ := h
  have hshort := hopens.length_le hpart
  have hsign := length_splitSign_le segment
  rw [hopens.1] at hsign
  omega

/-- No descent is endless. -/
lemma wellFounded_within : WellFounded Within :=
  Subrelation.wf (fun h => h.length_lt) (measure List.length).wf

/-- The terms of a list are as deep as its parts have opening braces, if each of them is. -/
lemma depths_readParts_le (list : Text) (parts : List Text)
    (h : ∀ part ∈ parts, isBrokenGroup part = false →
      (read part).value.depth ≤ part.count Byte.openBrace) :
    depths (readParts list parts).value ≤ parts.flatten.count Byte.openBrace := by
  induction parts with
  | nil =>
      rw [readParts]
      exact Nat.zero_le _
  | cons part rest ih =>
      have hrest := ih fun p hp => h p (List.mem_cons_of_mem _ hp)
      rw [readParts, List.flatten_cons, List.count_append]
      split
      next => exact hrest.trans (Nat.le_add_left _ _)
      next hbroken =>
        have hpart := h part (List.mem_cons_self ..) (by simpa using hbroken)
        exact max_le (hpart.trans (Nat.le_add_right _ _)) (hrest.trans (Nat.le_add_left _ _))

/-- A term is no deeper than it has opening braces. -/
lemma depth_read_le (segment : Text) :
    (read segment).value.depth ≤ segment.count Byte.openBrace := by
  induction segment using wellFounded_within.induction with
  | _ segment ih =>
  rw [← count_splitSign rfl (by decide) segment]
  by_cases hopens : ∃ t, Opens segment t
  · obtain ⟨t, hopens⟩ := hopens
    obtain ⟨inner, ht, hstrip⟩ := hopens.stripBraces_eq
    have hterms := depths_readParts_le t (parts (stripBraces t))
      fun part hpart hunbroken => ih part ⟨t, hopens, hpart, hunbroken⟩
    have hinner : (parts (stripBraces t)).flatten.count Byte.openBrace =
        inner.count Byte.openBrace := by
      rw [count_parts rfl (by decide), hstrip, trim, count_strip rfl]
    have hcount : t.count Byte.openBrace = inner.count Byte.openBrace + 1 := by
      rw [ht, List.count_cons_self, List.count_append]
      rfl
    rw [read_of_opens hopens, hopens.1, hcount, ← hinner]
    exact Nat.succ_le_succ hterms
  · exact (terms_read (not_exists.mp hopens)).2

/-- **Reading a match list ends**, whatever the text.  A term that opens a list is read as this list,
    which loses one pair of braces, so that each of its parts is at least two bytes shorter; no other
    term has terms of its own; and there is no endless chain of terms each read within the one before.
    So the list that is read is no deeper than the text has opening braces. -/
theorem depths_readList_le (s : Text) :
    (∀ segment t, Opens segment t →
      read segment = readList t >>= (fun ts => pure (.nested (splitSign segment).1 ts)) ∧
      (∃ inner, t = Byte.openBrace :: (inner ++ [Byte.closeBrace]) ∧ stripBraces t = trim inner) ∧
      ∀ part ∈ parts (stripBraces t), part.length + 2 ≤ t.length) ∧
    (∀ segment, (∀ t, ¬ Opens segment t) → (read segment).value.terms = []) ∧
    WellFounded Within ∧
    depths (readList s).value ≤ s.count Byte.openBrace := by
  refine ⟨fun segment t h => ⟨read_of_opens h, h.stripBraces_eq, fun part hpart => h.length_le hpart⟩,
    fun segment h => (terms_read h).1, wellFounded_within, ?_⟩
  have hparts := depths_readParts_le s (parts (stripBraces s)) fun part _ _ => depth_read_le part
  rw [count_parts rfl (by decide)] at hparts
  exact hparts.trans (count_stripBraces_le s)

/-- A negated list is opened, and a group with something behind it is not. -/
example : Opens "! { { a; }; }" "{ { a; }; }" ∧ ¬ Opens "{ a; } b" "{ a; } b" := by decide +kernel

end MatchTerm

end NameServerConf
