import NameServerConf.Proofs.Clauses

/-!
# Match lists

**Terms and lists.**  A term is its sign and what it is about, and the sign is split off again
(`splitSign_append`).  Terms and lists of terms are read as they were written by induction on both:
`isReadBack` and `readParts_texts`.

**One group.**  A list that comes back when it is read is one group in braces, whatever its terms are
(`exists_items_textOfList`): reading that leaves nothing out keeps every closing brace, and a list that
fell apart would have one more than its terms.
-/

namespace NameServerConf

open Text

namespace MatchTerm

/-! ## Terms that come back -/

mutual

/-- The term comes back when it is read: an address is a compact word that looks like one and has no
    sign, a name can stand between quotation marks, and the name of a list does not look like an
    address. -/
def isReadable : MatchTerm → Bool
  | .address _ a => a.isCompact && looksLikeAddress a && a.head? ≠ some Byte.bang
  | .key _ k => k.isQuotable
  | .acl _ name => name.isQuotable && !looksLikeAddress name
  | .nested _ ts => areReadable ts

/-- All terms of a list come back. -/
def areReadable : List MatchTerm → Bool
  | [] => true
  | t :: ts => t.isReadable && areReadable ts

end

mutual

lemma isReadable_of_isWellFormed (t : MatchTerm) (h : t.isWellFormed = true) :
    t.isReadable = true := by
  cases t with
  | address negated a =>
      simp only [isWellFormed, isReadable, Bool.and_eq_true] at h ⊢
      exact ⟨⟨(isBare_of_isWord h.1.1).isCompact, h.1.2⟩, h.2⟩
  | key negated k => exact isQuotable_of_isClean h
  | acl negated name =>
      simp only [isWellFormed, isReadable, Bool.and_eq_true] at h ⊢
      exact ⟨isQuotable_of_isClean h.1, h.2⟩
  | nested negated ts => exact areReadable_of_areWellFormed ts h

lemma areReadable_of_areWellFormed (ts : List MatchTerm) (h : areWellFormed ts = true) :
    areReadable ts = true := by
  cases ts with
  | nil => rfl
  | cons t ts =>
      rw [areWellFormed, Bool.and_eq_true] at h
      rw [areReadable, isReadable_of_isWellFormed t h.1, areReadable_of_areWellFormed ts h.2]
      rfl

end

lemma areReadable_iff {ts : List MatchTerm} :
    areReadable ts = true ↔ ∀ t ∈ ts, t.isReadable = true := by
  induction ts with
  | nil => simp [areReadable]
  | cons t ts ih => rw [areReadable, Bool.and_eq_true, ih, List.forall_mem_cons]

/-! ## Signs -/

section Signs

variable {s : Text}

lemma isValue_sign (negated : Bool) (h : IsValue s) : IsValue (sign negated ++ s) := by
  cases negated with
  | false => exact h
  | true =>
      have hlex : ∀ d, lexemes d (Byte.bang :: s) = .byte Byte.bang :: lexemes .value s := by
        intro d
        have hs := h.lexemes_append d startsSoft_nil
        rw [List.append_nil, lexemes.eq_1, List.append_nil] at hs
        rw [lexemes_cons_of_single rfl, hs]
      refine IsValue.of_lexemes (List.cons_ne_nil _ _) hlex ?_ ?_
      · rw [nest_cons_of_ne (by decide), List.all_cons]
        exact h.inner
      · rw [isSpaced_cons (by decide)]
        have hspaced := h.isSpaced
        cases hls : lexemes .value s with
        | nil => exact absurd hls h.lexemes_ne_nil
        | cons i is =>
            rw [hls, isSpaced] at hspaced
            rw [isSpaced]
            split at hspaced
            · simp at hspaced
            next hi => rwa [if_neg hi]

lemma isPart_sign (negated : Bool) (h : IsPart .value s) : IsPart .value (sign negated ++ s) := by
  cases negated with
  | false => exact h
  | true =>
      have hitems : items .value (Byte.bang :: s) = .byte Byte.bang :: items .value s :=
        items_cons_of_single rfl s
      refine ⟨List.cons_ne_nil _ _, rfl, ?_, ?_, ?_⟩
      · show (items .value (Byte.bang :: s)).all isInner = true
        rw [hitems, List.all_cons, h.inner]
        rfl
      · exact fun b hb => Option.some.inj hb ▸ rfl
      · show ∀ b ∈ (Byte.bang :: s).getLast?, Byte.isBlank b = false
        rw [List.getLast?_cons_of_ne_nil h.ne_nil]
        exact h.getLast?_isBlank

/-- **The sign of a term** is split off again. -/
lemma splitSign_append (negated : Bool) (h : IsPart .value s) (hbang : s.head? ≠ some Byte.bang) :
    splitSign (sign negated ++ s) = (negated, s) := by
  rw [splitSign, (isPart_sign negated h).trim_eq]
  cases negated with
  | true =>
      show (true, trim s) = _
      rw [h.trim_eq]
  | false =>
      cases hs : s with
      | nil => exact absurd hs h.ne_nil
      | cons b r =>
          rw [hs] at hbang
          exact if_neg fun hb => hbang (congrArg some hb)

/-- A sign does not break a group. -/
lemma isBrokenGroup_sign_eq (negated : Bool) (h : IsPart .value s) (hbang : s.head? ≠ some Byte.bang) :
    isBrokenGroup (sign negated ++ s) = isBrokenGroup s := by
  cases negated with
  | false => rfl
  | true =>
      rw [isBrokenGroup, isBrokenGroup, (isPart_sign true h).trim_eq, h.trim_eq]
      cases hs : s with
      | nil => exact absurd hs h.ne_nil
      | cons b r =>
          have htrim : trimLeft (b :: r) = b :: r := hs ▸ dropWhile_eq_self h.head?_isBlank
          rw [hs] at hbang
          have hb : b ≠ Byte.bang := fun hb => hbang (congrArg some hb)
          simp only [sign, if_true, List.singleton_append, htrim, if_neg hb]

/-- What is one group, or does not begin with one, is not broken. -/
lemma isBrokenGroup_sign (negated : Bool) (h : IsPart .value s) (hbang : s.head? ≠ some Byte.bang)
    (hs : (∀ i ∈ (items .value s).head?, i.isGroup = false) ∨
      ∃ x, items .value s = [.group x true]) : isBrokenGroup (sign negated ++ s) = false := by
  rw [isBrokenGroup_sign_eq negated h hbang, isBrokenGroup, h.trim_eq]
  cases hcons : s with
  | nil => exact absurd hcons h.ne_nil
  | cons b r =>
      rw [hcons] at hs hbang
      have hb : b ≠ Byte.bang := fun hb => hbang (congrArg some hb)
      simp only [if_neg hb]
      rcases hs with hs | ⟨x, hx⟩
      · cases hitems : items .value (b :: r) with
        | nil => rfl
        | cons i is =>
            rw [hitems] at hs
            have hi := hs i rfl
            cases i with
            | group x closed => cases hi
            | byte b => rfl
            | quoted t => rfl
            | comment t => rfl
      · rw [hx]
        rfl

end Signs

/-! ## Terms -/

lemma afterKey?_of_not_isBlank {s : Text} (h : ∀ b ∈ s, Byte.isBlank b = false) :
    afterKey? s = none := by
  rw [afterKey?.eq_def]
  split
  next k e y b r => exact if_neg (by simp [h b (by simp)])
  next => rfl

lemma afterKey?_of_head {b : UInt8} (h : b ≠ 107) (r : Text) : afterKey? (b :: r) = none := by
  rw [afterKey?.eq_def]
  split
  next k e y c r' hs =>
    obtain ⟨rfl, -⟩ := List.cons.inj hs
    refine if_neg fun hkey => ?_
    rw [Bool.and_eq_true, decide_eq_true_eq] at hkey
    exact h (List.cons.inj hkey.1).1
  next => rfl

/-- A term is read from its sign and the rest. -/
lemma read_of_splitSign {segment s : Text} {negated : Bool}
    (h : splitSign segment = (negated, s)) (hkey : afterKey? s = none)
    (hitems : ∀ i ∈ (items .value s).head?, i.isGroup = false) :
    read segment =
      pure (if looksLikeAddress s then .address negated s else .acl negated (unquote s)) := by
  rw [read]
  simp only [h, hkey]
  split
  next inner hgroup =>
    rw [h] at hgroup
    rw [hgroup] at hitems
    cases hitems _ rfl
  next inner closed rest _ hgroup =>
    rw [h] at hgroup
    rw [hgroup] at hitems
    cases hitems _ rfl
  next => rfl

lemma read_key {segment k : Text} {negated : Bool} (hk : k.isQuotable = true)
    (h : splitSign segment = (negated, clause "key" (quote k))) :
    read segment = pure (.key negated k) := by
  have hkey : afterKey? (clause "key" (quote k)) = some (quote k) := by
    rw [clause_eq]
    rfl
  rw [read]
  simp only [h, hkey, unquote_quote hk]

/-- A group is read as a list of terms. -/
lemma read_group {segment s x : Text} {negated : Bool} (h : splitSign segment = (negated, s))
    (hitems : items .value s = [.group x true]) :
    read segment = readParts s (parts (trim x)) >>= fun ts => pure (.nested negated ts) := by
  have htext : s = Byte.openBrace :: (x ++ [Byte.closeBrace]) := by
    rw [← ofItems_items .value s, hitems]
    simp [Item.text]
  have hkey : afterKey? s = none := htext ▸ afterKey?_of_head (by decide) _
  rw [read]
  simp only [h, hkey]
  split
  next inner hgroup =>
    rw [h, hitems] at hgroup
    obtain ⟨rfl, -⟩ := Item.group.inj (List.cons.inj hgroup).1
    rfl
  next inner closed rest hne hgroup =>
    rw [h, hitems] at hgroup
    obtain ⟨hgroup, hrest⟩ := List.cons.inj hgroup
    exact (hne hrest.symm (Item.group.inj hgroup).2.symm).elim
  next hne _ =>
    refine (hne x ?_).elim
    rw [h]
    exact hitems

lemma read_nested {segment : Text} {negated : Bool} {l : List Text}
    (hl : ∀ p ∈ l, IsPart .value p) (h : splitSign segment = (negated, joined l)) :
    read segment = readParts (joined l) l >>= fun ts => pure (.nested negated ts) := by
  rw [read_group h (items_joined hl), trim_space_listed hl, parts_listText hl]

/-- Quotation marks do not make an address of a name. -/
lemma looksLikeAddress_quote (s : Text) : looksLikeAddress (quote s) = looksLikeAddress s := by
  have hcount : ∀ b : UInt8, b ≠ Byte.quote → (quote s).count b = s.count b := by
    intro b hb
    simp [quote, List.count_append, hb.symm]
  have hslash : (quote s).contains Byte.slash = s.contains Byte.slash := by
    simp [quote, show Byte.slash ≠ Byte.quote by decide]
  rw [looksLikeAddress, looksLikeAddress, hslash, hcount _ (by decide), hcount _ (by decide)]

/-- A term is a part of its own and is read as it was written. -/
def IsReadBack (t : MatchTerm) : Prop :=
  IsPart .value t.text ∧ isBrokenGroup t.text = false ∧ read t.text = pure t

/-- A compact word does not begin with a group. -/
lemma isGroup_head?_of_isCompact {s : Text} (h : s.isCompact = true) :
    ∀ i ∈ (items .value s).head?, i.isGroup = false := by
  rw [items_of_isCompact h]
  cases s with
  | nil => exact fun i hi => by cases hi
  | cons b r => exact fun i hi => Option.some.inj hi ▸ rfl

lemma isReadBack_address {negated : Bool} {a : Text}
    (h : (MatchTerm.address negated a).isReadable = true) : IsReadBack (.address negated a) := by
  simp only [isReadable, Bool.and_eq_true, decide_eq_true_eq] at h
  obtain ⟨⟨hcompact, haddress⟩, hbang⟩ := h
  have hpart := isPart_of_isCompact hcompact
  have hitems := isGroup_head?_of_isCompact hcompact
  have hkey := afterKey?_of_not_isBlank fun b hb => ((isCompact_iff.mp hcompact).2 b hb).1
  rw [IsReadBack, text]
  refine ⟨isPart_sign negated hpart, isBrokenGroup_sign negated hpart hbang (Or.inl hitems), ?_⟩
  rw [read_of_splitSign (splitSign_append negated hpart hbang) hkey hitems, if_pos haddress]

lemma isReadBack_key {negated : Bool} {k : Text} (h : k.isQuotable = true) :
    IsReadBack (.key negated k) := by
  have hkw : IsBare "key" := isBare_of_isWord (by decide)
  have hpart : IsPart .value (clause "key" (quote k)) :=
    isPart_clause hkw (isToken_quote h).isArgument
  have hhead : (clause "key" (quote k)).head? = some 107 := by
    rw [clause_eq]
    rfl
  have hbang : (clause "key" (quote k)).head? ≠ some Byte.bang := by
    rw [hhead]
    decide
  have hitems : ∀ i ∈ (items .value (clause "key" (quote k))).head?, i.isGroup = false := by
    rw [clause_eq, hkw.isValue.items_append .value (startsSoft_space _), hkw.items_eq]
    exact fun i hi => Option.some.inj hi ▸ rfl
  rw [IsReadBack, text]
  exact ⟨isPart_sign negated hpart, isBrokenGroup_sign negated hpart hbang (Or.inl hitems),
    read_key h (splitSign_append negated hpart hbang)⟩

/-- A bare name has no blanks and no exclamation mark, a quoted one begins with a quotation mark;
    so neither has a sign, is a key or begins with a group. -/
lemma quoteUnlessBare_start {name : Text} (h : name.isQuotable = true) :
    (quoteUnlessBare name).head? ≠ some Byte.bang ∧ afterKey? (quoteUnlessBare name) = none ∧
      ∀ i ∈ (items .value (quoteUnlessBare name)).head?, i.isGroup = false := by
  rw [quoteUnlessBare]
  split
  next hbare =>
    have hb := isBare_of_isBareName hbare
    refine ⟨fun hhead => ?_, afterKey?_of_not_isBlank fun b hb' => hb.isBlank_eq_false hb',
      isGroup_head?_of_isCompact hb.isCompact⟩
    rw [isBareName, Bool.and_eq_true, List.all_eq_true] at hbare
    exact absurd (hbare.2 _ (List.mem_of_head? hhead)) (by decide)
  next =>
    refine ⟨fun hhead => absurd (Option.some.inj hhead) (by decide),
      afterKey?_of_head (by decide) _, ?_⟩
    rw [items_quote h]
    exact fun i hi => Option.some.inj hi ▸ rfl

lemma looksLikeAddress_quoteUnlessBare (name : Text) :
    looksLikeAddress (quoteUnlessBare name) = looksLikeAddress name := by
  rw [quoteUnlessBare]
  split
  next => rfl
  next => exact looksLikeAddress_quote name

lemma isReadBack_acl {negated : Bool} {name : Text}
    (h : (MatchTerm.acl negated name).isReadable = true) : IsReadBack (.acl negated name) := by
  simp only [isReadable, Bool.and_eq_true, Bool.not_eq_true'] at h
  obtain ⟨hname, haddress⟩ := h
  have hpart := (isValue_quoteUnlessBare hname).isPart .value
  obtain ⟨hbang, hkey, hitems⟩ := quoteUnlessBare_start hname
  rw [IsReadBack, text]
  refine ⟨isPart_sign negated hpart, isBrokenGroup_sign negated hpart hbang (Or.inl hitems), ?_⟩
  rw [read_of_splitSign (splitSign_append negated hpart hbang) hkey hitems,
    looksLikeAddress_quoteUnlessBare, haddress, unquote_quoteUnlessBare hname]
  rfl

lemma isReadBack_nested {negated : Bool} {ts : List MatchTerm}
    (hparts : ∀ s ∈ texts ts, IsPart .value s)
    (hread : ∀ list, readParts list (texts ts) = pure ts) : IsReadBack (.nested negated ts) := by
  have hpart := isPart_joined hparts
  have hbang : (joined (texts ts)).head? ≠ some Byte.bang :=
    fun hhead => absurd (Option.some.inj hhead) (by decide)
  rw [IsReadBack, text]
  refine ⟨isPart_sign negated hpart, isBrokenGroup_sign negated hpart hbang
    (Or.inr ⟨_, items_joined hparts⟩), ?_⟩
  rw [read_nested hparts (splitSign_append negated hpart hbang), hread, pure_bind]

mutual

/-- **A term** is read as it was written. -/
theorem isReadBack (t : MatchTerm) (h : t.isReadable = true) : IsReadBack t := by
  cases t with
  | address negated a => exact isReadBack_address h
  | key negated k =>
      rw [isReadable] at h
      exact isReadBack_key h
  | acl negated name => exact isReadBack_acl h
  | nested negated ts =>
      rw [isReadable] at h
      obtain ⟨hparts, hread⟩ := readParts_texts ts h
      exact isReadBack_nested hparts hread

/-- **The terms of a list** are read as they were written. -/
theorem readParts_texts (ts : List MatchTerm) (h : areReadable ts = true) :
    (∀ s ∈ texts ts, IsPart .value s) ∧ ∀ list, readParts list (texts ts) = pure ts := by
  cases ts with
  | nil => exact ⟨fun s hs => absurd hs List.not_mem_nil, fun list => by rw [texts, readParts]⟩
  | cons t ts =>
      rw [areReadable, Bool.and_eq_true] at h
      obtain ⟨hpart, hbroken, hterm⟩ := isReadBack t h.1
      obtain ⟨hparts, hrest⟩ := readParts_texts ts h.2
      rw [texts]
      refine ⟨List.forall_mem_cons.mpr ⟨hpart, hparts⟩, fun list => ?_⟩
      rw [readParts, if_neg (by rw [hbroken]; exact Bool.false_ne_true), hterm, hrest, pure_bind,
        pure_bind]

end

/-- **A match list** is read as it was written, with braces and without. -/
theorem readList_textOfList {ts : List MatchTerm} (h : areReadable ts = true) :
    readList (textOfList ts) = pure ts ∧ readList (listText (texts ts)) = pure ts := by
  obtain ⟨hparts, hread⟩ := readParts_texts ts h
  constructor
  · rw [readList, textOfList, parts_joined hparts, hread]
  · rw [readList, stripBraces_listText hparts, parts_listText hparts, hread]

/-- **Match lists round trip** at every depth: a list comes back from its text, and each of its terms
    from its own. -/
theorem read_text_of_areReadable {ts : List MatchTerm} (h : areReadable ts = true) :
    readList (textOfList ts) = pure ts ∧ ∀ t ∈ ts, read t.text = pure t :=
  ⟨(readList_textOfList h).1, fun t ht => (isReadBack t (areReadable_iff.mp h t ht)).2.2⟩

/-- Lists in lists, empty ones and negated ones, with names that look like braces, signs and keys. -/
def entangled : List MatchTerm :=
  [.nested false [.nested true []], .nested true [.acl true "key a", .address true "::1/#//*\\"],
    .key false "\x7d; \x7b !", .acl false "", .acl false "! \x7b;"]

/-- The names in the list do not take it apart. -/
theorem read_text_entangled : areReadable entangled = true ∧
    readList (textOfList entangled) = pure entangled ∧
      ∀ t ∈ entangled, read t.text = pure t :=
  ⟨by decide, read_text_of_areReadable (by decide)⟩

/-! ## Match lists in a file -/

mutual

/-- A well-formed term is a value. -/
lemma isValue_text (t : MatchTerm) (h : t.isWellFormed = true) : IsValue t.text := by
  cases t with
  | address negated a =>
      simp only [isWellFormed, Bool.and_eq_true] at h
      rw [text]
      exact isValue_sign negated (isBare_of_isWord h.1.1).isValue
  | key negated k =>
      rw [text]
      exact isValue_sign negated (isValue_clause (isBare_of_isWord (by decide))
        (isToken_quote (isQuotable_of_isClean h)))
  | acl negated name =>
      simp only [isWellFormed, Bool.and_eq_true] at h
      rw [text]
      exact isValue_sign negated (isValue_quoteUnlessBare (isQuotable_of_isClean h.1))
  | nested negated ts =>
      rw [isWellFormed] at h
      rw [text]
      exact isValue_sign negated (isValue_joined (isValue_of_mem_texts ts h))

lemma isValue_of_mem_texts (ts : List MatchTerm) (h : areWellFormed ts = true) :
    ∀ s ∈ texts ts, IsValue s := by
  cases ts with
  | nil => exact fun s hs => absurd hs List.not_mem_nil
  | cons t ts =>
      rw [areWellFormed, Bool.and_eq_true] at h
      rw [texts]
      exact List.forall_mem_cons.mpr ⟨isValue_text t h.1, isValue_of_mem_texts ts h.2⟩

end

lemma isToken_textOfList {ts : List MatchTerm} (h : areWellFormed ts = true) :
    IsToken (textOfList ts) := isToken_joined (isValue_of_mem_texts ts h)

lemma readList_textOfList_of_areWellFormed {ts : List MatchTerm} (h : areWellFormed ts = true) :
    readList (textOfList ts) = pure ts :=
  (readList_textOfList (areReadable_of_areWellFormed ts h)).1

end MatchTerm

/-! ## Closing braces -/

/-- What is read without a remark is read without one in each step. -/
lemma Noted.bind_eq_pure {α β : Type} {m : Noted α} {f : α → Noted β} {b : β}
    (h : (m >>= f) = pure b) : m = pure m.value ∧ f m.value = pure b := by
  have hremarks : m.remarks ++ (f m.value).remarks = [] := congrArg Noted.remarks h
  have hvalue : (f m.value).value = b := congrArg Noted.value h
  obtain ⟨hm, hf⟩ := List.append_eq_nil_iff.mp hremarks
  have heq : ∀ {γ : Type} (n : Noted γ), n.remarks = [] → n = pure n.value := by
    rintro γ ⟨value, remarks⟩ rfl
    rfl
  exact ⟨heq m hm, hvalue ▸ heq _ hf⟩

/-- Nothing is read without a remark after one. -/
lemma Noted.remark_bind_ne_pure {α : Type} {r : Remark} {f : Unit → Noted α} {a : α} :
    (Noted.remark r >>= f) ≠ pure a := fun h => by cases congrArg Noted.remarks h

namespace Text

/-- The number of closing braces. -/
def braces (s : Text) : ℕ := s.count Byte.closeBrace

@[simp] lemma braces_nil : braces [] = 0 := rfl

@[simp] lemma braces_append (s t : Text) : braces (s ++ t) = braces s + braces t :=
  List.count_append

@[simp] lemma braces_cons (b : UInt8) (s : Text) :
    braces (b :: s) = braces s + if b = Byte.closeBrace then 1 else 0 := by
  simp [braces, List.count_cons]

lemma braces_strip {p : UInt8 → Bool} (hp : p Byte.closeBrace = false) (s : Text) :
    braces (strip p s) = braces s := count_strip hp s

lemma braces_trim (s : Text) : braces (trim s) = braces s := braces_strip rfl s

lemma braces_unquote (s : Text) : braces (unquote s) = braces s := by
  rw [unquote, braces_strip (by decide), braces_trim]

lemma braces_quote (s : Text) : braces (quote s) = braces s := by
  simp [quote, show Byte.quote ≠ Byte.closeBrace by decide]

lemma braces_quoteUnlessBare (s : Text) : braces (quoteUnlessBare s) = braces s := by
  rw [quoteUnlessBare]
  split
  · rfl
  · exact braces_quote s

/-- A list in braces has one closing brace more than its parts. -/
lemma braces_joined (l : List Text) : braces (joined l) = braces l.flatten + 1 := by
  have hlisted : braces (listed l) = braces l.flatten := by
    induction l with
    | nil => rfl
    | cons p l ih =>
        rw [listed, List.flatMap_cons, ← listed, List.flatten_cons, braces_append, braces_append,
          braces_append, ih]
        rfl
  rw [joined_eq, braces_append, braces_cons, braces_cons, hlisted]
  rfl

/-- Taking a list apart loses no byte but semicolons and blanks. -/
lemma count_splitItems {b : UInt8} (hb : b ≠ Byte.semicolon) (is : List Item) :
    ((splitItems (isSeparator Byte.semicolon) is).map ofItems).flatten.count b =
      (ofItems is).count b := by
  induction is with
  | nil => rfl
  | cons i is ih =>
      rw [splitItems]
      cases hparts : splitItems (isSeparator Byte.semicolon) is with
      | nil =>
          rw [hparts] at ih
          rw [ofItems_cons, List.count_append, ← ih]
          simp
      | cons part parts =>
          rw [hparts] at ih
          rw [ofItems_cons, List.count_append, ← ih]
          dsimp only
          split
          next hi =>
            -- the separator is a semicolon
            have htext : i.text.count b = 0 := by
              cases i with
              | byte c =>
                  simp only [isSeparator, Item.isByte, Bool.and_eq_true, decide_eq_true_eq] at hi
                  rw [Item.text, hi.1, List.count_singleton, if_neg (by simpa using hb.symm)]
              | quoted t => cases hi
              | comment t => cases hi
              | group t closed => cases hi
            rw [htext]
            simp
          next => simp

lemma count_parts {b : UInt8} (hblank : Byte.isBlank b = false) (hb : b ≠ Byte.semicolon) (s : Text) :
    (parts s).flatten.count b = s.count b := by
  have htrims : ∀ l : List (List Item),
      ((l.map fun part => trim (ofItems part)).filter (· ≠ [])).flatten.count b =
        (l.map ofItems).flatten.count b := by
    intro l
    induction l with
    | nil => rfl
    | cons part l ih =>
        have htrim : (trim (ofItems part)).count b = (ofItems part).count b := count_strip hblank _
        rw [List.map_cons, List.map_cons, List.flatten_cons, List.count_append, ← ih, ← htrim,
          List.filter_cons]
        split
        · rw [List.flatten_cons, List.count_append]
        next h =>
          have hnil : trim (ofItems part) = [] := by simpa using h
          rw [hnil, List.count_nil, Nat.zero_add]
  have hsplit := count_splitItems hb (items .value s)
  rw [ofItems_items] at hsplit
  rw [parts, partsAt, htrims, hsplit]

lemma braces_parts (s : Text) : braces (parts s).flatten = braces s := count_parts rfl (by decide) s

end Text

namespace MatchTerm

lemma braces_sign (negated : Bool) (s : Text) : braces (sign negated ++ s) = braces s := by
  cases negated with
  | false => rfl
  | true => rw [braces_append]; exact Nat.zero_add _

/-- A sign has no byte but the exclamation mark. -/
lemma count_splitSign {b : UInt8} (hblank : Byte.isBlank b = false) (hb : b ≠ Byte.bang) (s : Text) :
    (splitSign s).2.count b = s.count b := by
  have htrim : ∀ t : Text, (trim t).count b = t.count b := count_strip hblank
  rw [← htrim s, splitSign]
  split
  next h => rw [h]
  next c r h =>
    rw [h]
    split
    next hc => rw [htrim, List.count_cons, if_neg (by simpa [hc] using hb.symm), Nat.add_zero]
    next => rfl

lemma braces_splitSign (s : Text) : braces (splitSign s).2 = braces s :=
  count_splitSign rfl (by decide) s

lemma braces_afterKey? {s name : Text} (h : afterKey? s = some name) : braces s = braces name := by
  rw [afterKey?.eq_def] at h
  split at h
  next k e y b r =>
    split at h
    next hkey =>
      obtain rfl := Option.some.inj h
      rw [Bool.and_eq_true, decide_eq_true_eq] at hkey
      obtain ⟨hkey, hb⟩ := hkey
      have hne : b ≠ Byte.closeBrace := by rintro rfl; cases hb
      show braces ([k, e, y] ++ b :: r) = braces r
      rw [braces_append, hkey, braces_cons, if_neg hne]
      exact Nat.zero_add _
    next => cases h
  next => cases h

mutual

/-- A term that is read without a remark has the closing braces of its text. -/
lemma braces_text_of_read (segment : Text) (t : MatchTerm) (h : read segment = pure t) :
    braces t.text = braces segment := by
  rw [← braces_splitSign segment]
  rw [read] at h
  split at h
  next name hkey =>
    obtain rfl := congrArg Noted.value h
    show braces (sign _ ++ clause "key" (quote (unquote name))) = _
    rw [braces_sign, clause_eq, braces_append, braces_cons, braces_quote, braces_unquote,
      braces_afterKey? hkey]
    exact Nat.zero_add _
  next hkey =>
    split at h
    next inner hgroup =>
      have htext := ofItems_items .value (splitSign segment).2
      rw [hgroup] at htext
      obtain ⟨hparts, hterm⟩ := Noted.bind_eq_pure h
      obtain rfl := congrArg Noted.value hterm
      have hinner := braces_texts_of_readParts _ _ _ hparts
      show braces (sign _ ++ joined (texts _)) = _
      rw [braces_sign, braces_joined, hinner, braces_parts, braces_trim, ← htext]
      simp [Item.text, show Byte.openBrace ≠ Byte.closeBrace by decide]
    next => exact absurd h Noted.remark_bind_ne_pure
    next =>
      obtain rfl := congrArg Noted.value h
      split
      · exact braces_sign _ _
      · show braces (sign _ ++ quoteUnlessBare (unquote _)) = _
        rw [braces_sign, braces_quoteUnlessBare, braces_unquote]
termination_by (segment.length, 0)
decreasing_by exact Prod.Lex.left _ _ (totalLength_parts_lt ‹_›)

/-- So have the terms of a list. -/
lemma braces_texts_of_readParts (list : Text) (parts : List Text) (ts : List MatchTerm)
    (h : readParts list parts = pure ts) : braces (texts ts).flatten = braces parts.flatten := by
  match parts with
  | [] =>
      rw [readParts] at h
      obtain rfl := congrArg Noted.value h
      rfl
  | part :: rest =>
      rw [readParts] at h
      split at h
      next => exact absurd h Noted.remark_bind_ne_pure
      next =>
        obtain ⟨hread, h⟩ := Noted.bind_eq_pure h
        obtain ⟨hrest, h⟩ := Noted.bind_eq_pure h
        obtain rfl := congrArg Noted.value h
        have hterm := braces_text_of_read part _ hread
        have hterms := braces_texts_of_readParts list rest _ hrest
        show braces (text _ :: texts _).flatten = _
        rw [List.flatten_cons, List.flatten_cons, braces_append, braces_append, hterm, hterms]
termination_by (totalLength parts, parts.length + 1)
decreasing_by
  all_goals
    simp only [totalLength, List.length_cons, Prod.lex_def]
    omega

end

/-- **A list that comes back** is one group in braces. -/
theorem exists_items_textOfList {ts : List MatchTerm} (h : readList (textOfList ts) = pure ts) :
    ∃ inner, items .value (textOfList ts) = [.group inner true] := by
  have hbraces := braces_texts_of_readParts _ _ _ h
  rw [braces_parts] at hbraces
  obtain ⟨inner, closed, is, hitems⟩ : ∃ inner closed is,
      items .value (textOfList ts) = .group inner closed :: is := exists_items_openBrace .value _
  by_cases hone : is = [] ∧ closed = true
  · obtain ⟨rfl, rfl⟩ := hone
    exact ⟨inner, hitems⟩
  · exfalso
    -- a list that is not one group loses none of its closing braces
    have hstrip : braces (stripBraces (textOfList ts)) = braces (textOfList ts) := by
      have htext := ofItems_items .value (textOfList ts)
      have htrim : trim (textOfList ts) = textOfList ts := trim_joined _
      rw [stripBraces, htrim, hitems]
      rw [hitems] at htext
      split
      next inner' closed' heq =>
        obtain ⟨hgroup, rfl⟩ := List.cons.inj heq
        obtain ⟨rfl, rfl⟩ := Item.group.inj hgroup
        have hclosed : closed = false := by simpa using hone
        rw [braces_trim, ← htext, hclosed]
        simp [Item.text, show Byte.openBrace ≠ Byte.closeBrace by decide]
      next => rfl
    rw [hstrip, textOfList, braces_joined] at hbraces
    omega

end MatchTerm

end NameServerConf
