import NameServerConf.Proofs.Entities
import NameServerConf.Proofs.KeptStatements

/-!
# Lists behind a clause

A statement whose value is a list in braces may have a clause before the braces, such as a port.
The library does not model such a clause.

**Kept.**  A list of servers is read by a member that takes values in braces only, so a value that
begins with a clause is kept as it is and written back as it was.

**Cut.**  A match list is read from any text.  The clause becomes a part of its first term, and what
is written begins with a brace.
-/

namespace NameServerConf

open Text

namespace Text

/-! ## Values with a clause before the list -/

/-- The value has a brace group and something else before it. -/
def HasLeadingClause (v : Text) : Prop :=
  ∃ clause inner closed behind, items .value v = clause ++ .group inner closed :: behind ∧
    clause ≠ [] ∧ ∀ i ∈ clause, i.isGroup = false

lemma HasLeadingClause.isBraced_eq_false {v : Text} (h : HasLeadingClause v) :
    Member.isBraced v = false := by
  obtain ⟨clause, inner, closed, behind, hitems, hne, hclause⟩ := h
  rw [Member.isBraced, decide_eq_false_iff_not]
  intro hhead
  obtain ⟨t, rfl⟩ := List.head?_eq_some_iff.mp hhead
  obtain ⟨u, c, is, hgroup⟩ := exists_items_openBrace .value t
  rw [hgroup] at hitems
  cases clause with
  | nil => exact hne rfl
  | cons i clause =>
      obtain ⟨rfl, -⟩ := List.cons.inj hitems
      cases hclause _ (List.mem_cons_self ..)

lemma HasLeadingClause.openBrace_mem {v : Text} (h : HasLeadingClause v) : Byte.openBrace ∈ v := by
  obtain ⟨clause, inner, closed, behind, hitems, -⟩ := h
  rw [← ofItems_items .value v, hitems]
  simp [Item.text]

/-- What begins with a brace does so once it is normalized. -/
lemma head?_normalize_openBrace (s : Text) :
    (normalize (Byte.openBrace :: s)).head? = some Byte.openBrace := by
  rw [normalize_eq_tidyText, tidyText, lexemes_openBrace, tidy_cons rfl]
  rfl

end Text

namespace Member

/-! ## What a block keeps -/

variable {α β : Type} {get : β → List OtherOption} {table : List (Member β)} {keyword : Text}

/-- The member does not touch what is kept. -/
def LeavesAlone (get : β → List OtherOption) (m : Member β) : Prop :=
  ∀ s b n, m.read? s b = some n → get n.value = get b

lemma leavesAlone_all {read : Statement → β → Noted β} (h : ∀ s b, get (read s b).value = get b) :
    (all keyword read).LeavesAlone get := by
  intro s b n hn
  obtain rfl := Option.some.inj hn
  exact h s b

lemma leavesAlone_string {put : Text → β → β} (h : ∀ t b, get (put t b) = get b) :
    (string keyword put).LeavesAlone get := leavesAlone_all fun _ _ => h _ _

lemma leavesAlone_noted {read : Text → Noted α} {put : α → β → β} (h : ∀ a b, get (put a b) = get b) :
    (noted keyword read put).LeavesAlone get := leavesAlone_all fun _ _ => h _ _

lemma leavesAlone_value? {read : Text → Option α} {put : α → β → β}
    (h : ∀ a b, get (put a b) = get b) : (value? keyword read put).LeavesAlone get := by
  intro s b n hn
  obtain ⟨a, -, rfl⟩ := Option.map_eq_some_iff.mp hn
  exact h a b

lemma leavesAlone_braced {read : Text → Noted α} {put : α → β → β}
    (h : ∀ a b, get (put a b) = get b) : (braced keyword read put).LeavesAlone get := by
  intro s b n hn
  change (if isBraced s.value = true then some _ else none) = some n at hn
  split at hn
  · obtain rfl := Option.some.inj hn
    exact h _ b
  · cases hn

end Member

/-- **What a block keeps** are statements that no member took, in order, and all of those that no
    member takes at any time. -/
lemma exists_kept {β : Type} {get : β → List OtherOption} {table : List (Member β)}
    {other : Statement → β → Noted β} (htable : ∀ m ∈ table, m.LeavesAlone get)
    (hother : ∀ s b, get (other s b).value = get b ++ [⟨s.keyword, s.value⟩]) (ss : List Statement)
    (b : β) : ∃ kept : List Statement, kept.Sublist ss ∧
      get (readMembers table other ss b).value =
        get b ++ kept.map (fun s => ⟨s.keyword, s.value⟩) ∧
      (∀ s ∈ kept, ∃ a, Member.take? table s a = none) ∧
      ∀ s ∈ ss, (∀ a, Member.take? table s a = none) → s ∈ kept := by
  induction ss generalizing b with
  | nil => exact ⟨[], .slnil, (List.append_nil _).symm, by simp, by simp⟩
  | cons s ss ih =>
      rw [readMembers, Noted.value_bind]
      cases htake : Member.take? table s b with
      | none =>
          obtain ⟨kept, hsub, hget, hnone, hall⟩ := ih (other s b).value
          refine ⟨s :: kept, hsub.cons_cons s, ?_, ?_, ?_⟩
          · rw [Option.getD_none, hget, hother, List.append_assoc]
            rfl
          · exact List.forall_mem_cons.mpr ⟨⟨b, htake⟩, hnone⟩
          · intro t ht hdeclined
            rcases List.mem_cons.mp ht with rfl | ht
            · exact List.mem_cons_self ..
            · exact List.mem_cons_of_mem _ (hall t ht hdeclined)
      | some n =>
          obtain ⟨kept, hsub, hget, hnone, hall⟩ := ih n.value
          refine ⟨kept, hsub.cons s, ?_, hnone, ?_⟩
          · obtain ⟨m, hm, hread⟩ := List.exists_of_findSome?_eq_some htake
            split at hread
            · rw [Option.getD_some, hget, htable m hm s b n hread]
            · cases hread
          · intro t ht hdeclined
            rcases List.mem_cons.mp ht with rfl | ht
            · rw [hdeclined b] at htake
              cases htake
            · exact hall t ht hdeclined

/-! ## Keywords that are read again -/

namespace Text

/-- A string begins with its quotation mark. -/
lemma head?_of_items_quoted {d : Dialect} {s q : Text} {is : List Item}
    (h : items d s = .quoted q :: is) : s.head? = some Byte.quote := by
  cases s with
  | nil =>
      rw [items_nil] at h
      cases h
  | cons b r =>
      by_cases hb : b = Byte.quote
      · rw [hb]
        rfl
      · rw [items, lexemes, if_neg hb] at h
        split at h
        · rw [nest_cons_of_ne (by simp)] at h
          cases h
        · rw [nest] at h
          split at h
          · split at h <;> cases h
          · cases h

end Text

namespace Statement

variable {s : Text} {p : List Item}

/-- A keyword of bytes is found again before a blank or a semicolon. -/
lemma keyword_read_bytes {ks : List Item} (hks : Text.items .file (ofItems ks) = ks)
    (hkeyword : ∀ i ∈ ks, isKeywordItem i = true) (hne : ks ≠ []) {b : UInt8}
    (hb : b = Byte.space ∨ b = Byte.semicolon) (t : Text) :
    (read (ofItems ks ++ b :: t)).keyword = ofItems ks := by
  have hbyte : ∀ i ∈ ks, ∃ c, i = .byte c ∧ Byte.isBlank c = false := by
    intro i hi
    have hword := hkeyword i hi
    cases i with
    | byte c =>
        have hc : (!Byte.isBlank c && c ≠ Byte.semicolon) = true := hword
        rw [Bool.and_eq_true, Bool.not_eq_true'] at hc
        exact ⟨c, rfl, hc.1⟩
    | quoted q => cases hword
    | comment u => cases hword
    | group u closed => cases hword
  have hitems : Text.items .file (ofItems ks ++ b :: t) = ks ++ .byte b :: Text.items .file t := by
    have hsingle : Byte.isSingle b := by rcases hb with rfl | rfl <;> rfl
    rw [Text.items_append, hks, items_cons_of_single hsingle]
    · rw [hks]
      refine groupsClosed_of_finished fun i hi => ?_
      obtain ⟨c, rfl, -⟩ := hbyte i hi
      rfl
    · rw [hks]
      intro i hi c hc
      obtain ⟨e, rfl, -⟩ := hbyte i (List.mem_of_getLast? hi)
      obtain rfl : b = c := Option.some.inj hc
      rcases hb with rfl | rfl <;> simp [Item.takes, Byte.space, Byte.semicolon, Byte.slash, Byte.star]
  have hhead : ∀ i ∈ (ks ++ .byte b :: Text.items .file t).head?, i ∈ ks := by
    rw [List.head?_append_of_ne_nil _ hne]
    exact fun i hi => List.mem_of_head? hi
  refine keyword_read_of_items hitems (fun i hi => ?_)
    (Or.inr ⟨hkeyword, fun i hi => ?_, fun q hq => ?_⟩)
  · obtain ⟨c, rfl, hc⟩ := hbyte i (hhead i hi)
    exact hc
  · obtain rfl : Item.byte b = i := Option.some.inj hi
    rcases hb with rfl | rfl <;> rfl
  · cases hkeyword _ (hhead _ hq)

/-- What begins with a brace has no keyword. -/
lemma keyword_read_openBrace (t : Text) : (read (Byte.openBrace :: t)).keyword = [] := by
  obtain ⟨u, closed, is, hitems⟩ := exists_items_openBrace .file t
  rw [← List.nil_append (_ :: is)] at hitems
  refine keyword_read_of_items hitems (fun i hi => ?_)
    (Or.inr ⟨fun i hi => absurd hi List.not_mem_nil, fun i hi => ?_, fun q hq => ?_⟩)
  · obtain rfl : Item.group u closed = i := Option.some.inj hi
    rfl
  · obtain rfl : Item.group u closed = i := Option.some.inj hi
    rfl
  · cases hq

/-- What begins with a quotation mark has a string for its keyword. -/
lemma head?_keyword_read_quote (t : Text) :
    (read (Byte.quote :: t)).keyword.head? = some Byte.quote := by
  obtain ⟨u, is, hitems⟩ := exists_items_quote .file t
  have hkeyword : (read (Byte.quote :: t)).keyword = ofItems [.quoted (Byte.quote :: u)] := by
    refine keyword_read_of_items hitems (fun i hi => ?_) (Or.inl ⟨_, rfl⟩)
    obtain rfl : Item.quoted (Byte.quote :: u) = i := Option.some.inj hi
    rfl
  rw [hkeyword]
  rfl

/-- What begins with a brace has a value that does. -/
lemma head?_value_read_openBrace (t : Text) :
    (read (Byte.openBrace :: t)).value.head? = some Byte.openBrace := by
  have hrest : (splitKeyword (Byte.openBrace :: t)).2 = Byte.openBrace :: t := by
    have happend := splitKeyword_append (Byte.openBrace :: t)
    have hkeyword : (splitKeyword (Byte.openBrace :: t)).1 = [] := keyword_read_openBrace t
    rwa [hkeyword] at happend
  have hvalue : ∃ u, valueText (Byte.openBrace :: t) = Byte.openBrace :: u := by
    have htrim : Text.trimLeft (Byte.openBrace :: t) = Byte.openBrace :: t := rfl
    rw [valueText, htrim, hrest, dropTerminator]
    split
    next hlast =>
      cases t with
      | nil => cases hlast
      | cons c t => exact ⟨_, rfl⟩
    next => exact ⟨t, rfl⟩
  obtain ⟨u, hu⟩ := hvalue
  show (normalize (valueText (Byte.openBrace :: t))).head? = _
  rw [hu, head?_normalize_openBrace]

/-- **A keyword** is found again before its value: what is read from a line is a word only if it is
    the word that the line was made with. -/
lemma keyword_of_read_again (hp : p ∈ Node.pieces (Text.items .file s)) {kw : Text}
    (hkw : kw.isWord = true)
    (h : (read ((read (ofItems p)).keyword ++ afterGap (read (ofItems p)).value ++
      [Byte.semicolon])).keyword = kw) : (read (ofItems p)).keyword = kw := by
  obtain ⟨ks, v, tail, hparts, hhead, hsplit, -, -⟩ := exists_parts hp
  obtain ⟨-, -, -, ⟨i, is, hfirst, hfiller⟩, -, -⟩ := Node.exists_of_mem_pieces hp
  have hitems := (Node.items_of_mem_pieces hp).trans hparts
  rw [hparts] at hhead
  have hbare := isBare_of_isWord hkw
  have hkeyword := keyword_read_of_items hitems hhead hsplit
  have hks : Text.items .file (ofItems ks) = ks := items_ofItems_prefix (hparts ▸ hitems)
  rw [hkeyword, List.append_assoc] at h
  rw [hkeyword]
  rcases hsplit with ⟨q, rfl⟩ | ⟨hbytes, hrest, hquoted⟩
  · obtain ⟨t, ht⟩ := List.head?_eq_some_iff.mp (head?_of_items_quoted hks)
    rw [ht, List.cons_append] at h
    have hquote := head?_keyword_read_quote
      (t ++ (afterGap (read (ofItems p)).value ++ [Byte.semicolon]))
    rw [h] at hquote
    exact absurd rfl (hbare.ne_quote (List.mem_of_head? hquote))
  by_cases hne : ks = []
  · -- without a keyword both begin with a brace
    subst hne
    have hhead? : (v ++ tail).head? = some i := by
      rw [← List.nil_append (v ++ tail), ← hparts, hfirst]
      rfl
    obtain ⟨u, closed, rfl⟩ := exists_group hfiller (hrest i hhead?) fun q hq =>
      hquoted q (by rw [List.nil_append, hhead?, hq])
    obtain ⟨t, ht⟩ : ∃ t, ofItems p = Byte.openBrace :: t := ⟨_, by rw [hfirst]; rfl⟩
    obtain ⟨w, hw⟩ := List.head?_eq_some_iff.mp (head?_value_read_openBrace t)
    rw [ht, hw, afterGap_of_ne_nil (List.cons_ne_nil _ _)] at h
    have hnil : kw = [] := h.symm.trans (keyword_read_openBrace (w ++ [Byte.semicolon]))
    exact absurd hnil hbare.ne_nil
  · have hgap : ∃ b t, (b = Byte.space ∨ b = Byte.semicolon) ∧
        afterGap (read (ofItems p)).value ++ [Byte.semicolon] = b :: t := by
      rw [afterGap]
      split
      · exact ⟨_, _, Or.inr rfl, rfl⟩
      · exact ⟨_, _, Or.inl rfl, rfl⟩
    obtain ⟨b, t, hb, hbt⟩ := hgap
    rw [hbt, keyword_read_bytes hks hbytes hne hb] at h
    exact h

end Statement

/-! ## Blocks that are read and written -/

/-- The statement holds one with the given keyword and the given value. -/
def Node.HasChild (n : Node) (keyword value : Text) : Prop :=
  ∃ s, n.statement? = some s ∧ ∃ d ∈ s.children, d.keyword = keyword ∧ d.value = value

/-- The keywords of match lists. -/
def MatchTerm.keywords : List Text := ["allow-query", "allow-transfer", "allow-update"]

/-- The keywords of lists in braces among the settings of the server. -/
def Options.listKeywords : List Text := ["allow-query", "allow-transfer", "allow-update", "forwarders"]

/-- The keywords of lists in braces in a zone. -/
def Zone.listKeywords : List Text :=
  ["primaries", "forwarders", "allow-update", "allow-transfer", "also-notify"]

/-- A line that is a clause; if it is a match list, it begins with a brace. -/
def IsListClause (x : Text) : Prop :=
  ∃ kw v, x = clause kw v ∧ kw.isWord = true ∧
    (kw ∈ MatchTerm.keywords → v.head? = some Byte.openBrace)

/-- What a line says. -/
lemma Statement.read_clause {kw : Text} (hkw : kw.isWord = true) (v : Text) :
    read (clause kw v ++ [Byte.semicolon]) = ofParts kw v := by
  rw [clause_eq, read_append (isKeyword_of_isWord hkw) (Or.inr rfl), ofParts_space_cons]

/-- The statements of a body of lines are read line by line. -/
lemma Node.hasChild_block_iff {header keyword value : Text} {xs : List Text} :
    (block header (lines xs)).HasChild keyword value ↔
      ∃ x ∈ xs, (Statement.read (x ++ [Byte.semicolon])).keyword = keyword ∧
        (Statement.read (x ++ [Byte.semicolon])).value = value := by
  have hstatements : statements (lines xs) =
      xs.map fun x => Statement.read (x ++ [Byte.semicolon]) := by
    rw [statements, lines, List.filterMap_map]
    exact congrFun List.filterMap_eq_map xs
  constructor
  · rintro ⟨s, hs, d, hd, h⟩
    obtain rfl := Option.some.inj hs
    have hd : d ∈ statements (lines xs) := hd
    rw [hstatements] at hd
    obtain ⟨x, hx, rfl⟩ := List.mem_map.mp hd
    exact ⟨x, hx, h⟩
  · rintro ⟨x, hx, h⟩
    have hmem : Statement.read (x ++ [Byte.semicolon]) ∈ statements (lines xs) := by
      rw [hstatements]
      exact List.mem_map_of_mem hx
    exact ⟨_, rfl, _, hmem, h⟩

/-- The lines of what is kept. -/
lemma Node.otherLines_eq (os : List OtherOption) :
    otherLines os = lines (os.map fun o => o.name ++ afterGap o.raw) := by
  induction os with
  | nil => rfl
  | cons o os ih =>
      rw [otherLines_cons, ih]
      rfl

namespace IsListClause

variable {kw v : Text}

lemma of_not_mem (hkw : kw.isWord = true) (hno : kw ∉ MatchTerm.keywords) (v : Text) :
    IsListClause (clause kw v) := ⟨kw, v, rfl, hkw, fun h => absurd h hno⟩

lemma ite {c : Prop} [Decidable c] (h : IsListClause (clause kw v)) :
    ∀ x ∈ if c then [] else [clause kw v], IsListClause x := by
  intro x hx
  split at hx
  · cases hx
  · exact List.mem_singleton.mp hx ▸ h

lemma option {α : Type} {f : α → Text} (h : ∀ a, IsListClause (clause kw (f a))) (a? : Option α) :
    ∀ x ∈ a?.toList.map fun a => clause kw (f a), IsListClause x := by
  intro x hx
  obtain ⟨a, -, rfl⟩ := List.mem_map.mp hx
  exact h a

lemma yesNo (h : ∀ v, IsListClause (clause kw v)) (b? : Option Bool) :
    ∀ x ∈ yesNoClause kw b?, IsListClause x := by
  cases b? with
  | none => exact option (fun b => h (ofYesNo b)) none
  | some b => exact option (fun b => h (ofYesNo b)) (some b)

lemma listen (h : ∀ v, IsListClause (clause kw v)) (l? : Option Listen) :
    ∀ x ∈ listenClause kw l?, IsListClause x := by
  cases l? with
  | none => exact option (fun l => h (Listen.text l)) none
  | some l => exact option (fun l => h (Listen.text l)) (some l)

lemma forwarders (fs? : Option (List Forwarder)) :
    ∀ x ∈ forwardersClause fs?, IsListClause x := by
  have h : ∀ fs, IsListClause (clause "forwarders" (Forwarder.textOfList fs)) :=
    fun fs => of_not_mem (by decide) (by decide) _
  cases fs? with
  | none => exact option h none
  | some fs => exact option h (some fs)

/-- A match list begins with a brace. -/
lemma matchList (hkw : kw.isWord = true) (ts? : Option (List MatchTerm)) :
    ∀ x ∈ matchClause kw ts?, IsListClause x := by
  have h : ∀ ts, IsListClause (clause kw (MatchTerm.textOfList ts)) :=
    fun ts => ⟨kw, _, rfl, hkw, fun _ => rfl⟩
  cases ts? with
  | none => exact option h none
  | some ts => exact option h (some ts)

end IsListClause

section Rebuilt

open Node

variable {β : Type} {get : β → List OtherOption} {table : List (Member β)}
  {other : Statement → β → Noted β} {source : Text} {c : Statement}

/-- A statement of a body is read from a piece. -/
lemma exists_piece_of_mem_children (hc : c ∈ (Statement.read source).children) :
    ∃ u p, p ∈ pieces (Text.items .file u) ∧ c = Statement.read (Text.ofItems p) := by
  have hbody : (Statement.read source).body =
      ((Statement.innerText? source).map parse).getD [] := rfl
  rw [Statement.children, hbody] at hc
  cases hinner : Statement.innerText? source with
  | none =>
      rw [hinner] at hc
      cases hc
  | some u =>
      rw [hinner, Option.map_some, Option.getD_some, parse, statements_ofItems] at hc
      obtain ⟨p, hp, rfl⟩ := List.mem_map.mp hc
      exact ⟨u, p, hp, rfl⟩

/-- **A block that is read and written** has the list again exactly if it is no match list: if all
    members with the keyword of a match list read every value, and all with another one decline the
    value with the clause. -/
lemma hasChild_rebuilt_iff (htable : ∀ m ∈ table, m.LeavesAlone get)
    (hother : ∀ s b, get (other s b).value = get b ++ [⟨s.keyword, s.value⟩]) {start : β}
    (hstart : get start = []) {header : β → Text} {clauses : β → List Text}
    (hclauses : ∀ b, ∀ x ∈ clauses b, IsListClause x) {node : β → Node}
    (hnode : ∀ b, node b = .block (header b) (lines (clauses b) ++ otherLines (get b)))
    (hc : c ∈ (Statement.read source).children) (hclause : c.value.HasLeadingClause)
    (hword : c.keyword.isWord = true)
    (htakes : c.keyword ∈ MatchTerm.keywords → ∀ s : Statement, s.keyword = c.keyword →
      ∀ a, Member.take? table s a ≠ none)
    (hdeclines : c.keyword ∉ MatchTerm.keywords → ∀ a, Member.take? table c a = none) :
    (node (readMembers table other (Statement.read source).children start).value).HasChild
      c.keyword c.value ↔ c.keyword ∉ MatchTerm.keywords := by
  obtain ⟨kept, hsub, hget, hnone, hall⟩ :=
    exists_kept htable hother (Statement.read source).children start
  rw [hstart, List.nil_append] at hget
  generalize (readMembers table other (Statement.read source).children start).value = b at hget ⊢
  rw [hnode, hget, otherLines_eq, lines, lines, ← List.map_append, ← lines, hasChild_block_iff]
  constructor
  · rintro ⟨x, hx, hkeyword, hvalue⟩ hmatch
    rcases List.mem_append.mp hx with hx | hx
    · -- what is written begins with a brace
      obtain ⟨kw, v, rfl, hkw, hbraced⟩ := hclauses b x hx
      rw [Statement.read_clause hkw] at hkeyword hvalue
      have hkw' : kw = c.keyword := hkeyword
      obtain ⟨t, rfl⟩ := List.head?_eq_some_iff.mp (hbraced (hkw' ▸ hmatch))
      have hnormalize : normalize (Byte.openBrace :: t) = c.value := hvalue
      have hhead := head?_normalize_openBrace t
      rw [hnormalize] at hhead
      have hno := hclause.isBraced_eq_false
      rw [Member.isBraced, hhead] at hno
      cases hno
    · -- no statement with this keyword was kept
      obtain ⟨o, ho, rfl⟩ := List.mem_map.mp hx
      obtain ⟨s, hs, rfl⟩ := List.mem_map.mp ho
      obtain ⟨u, p, hp, rfl⟩ := exists_piece_of_mem_children (hsub.subset hs)
      have hagain := Statement.keyword_of_read_again hp hword hkeyword
      obtain ⟨a, ha⟩ := hnone _ hs
      exact htakes hmatch _ hagain a ha
  · intro hmatch
    have hkept := hall c hc (hdeclines hmatch)
    obtain ⟨u, p, hp, rfl⟩ := exists_piece_of_mem_children hc
    refine ⟨_, List.mem_append_right _ (List.mem_map_of_mem (List.mem_map_of_mem hkept)), ?_⟩
    rw [Statement.read_append (isKeyword_of_isWord hword)
      (Statement.head?_afterGap _), Statement.ofParts_afterGap]
    exact ⟨rfl, normalize_normalize _⟩

end Rebuilt

namespace Options

open Member

/-- What the library knows of the settings, clause by clause. -/
def clauses (o : Options) : List Text :=
  nameClause "directory" o.directory ++ yesNoClause "recursion" o.recursion ++
    matchClause "allow-query" o.allowQuery ++ matchClause "allow-transfer" o.allowTransfer ++
    matchClause "allow-update" o.allowUpdate ++ listenClause "listen-on" o.listenOn ++
    listenClause "listen-on-v6" o.listenOnV6 ++ forwardersClause o.forwarders ++
    wordClause "forward" o.forward ++ wordClause "dnssec-validation" o.dnssecValidation ++
    (if o.rrsetOrder = [] then []
     else [clause "rrset-order" (RRsetOrder.textOfList o.rrsetOrder)])

lemma isListClause_of_mem_clauses (o : Options) : ∀ x ∈ o.clauses, IsListClause x := by
  simp only [clauses, List.forall_mem_append, and_assoc]
  refine ⟨.ite (.of_not_mem ?_ ?_ _), .yesNo (.of_not_mem ?_ ?_) _, .matchList ?_ _, .matchList ?_ _,
    .matchList ?_ _, .listen (.of_not_mem ?_ ?_) _, .listen (.of_not_mem ?_ ?_) _, .forwarders _,
    .ite (.of_not_mem ?_ ?_ _), .ite (.of_not_mem ?_ ?_ _), .ite (.of_not_mem ?_ ?_ _)⟩ <;> decide

lemma leavesAlone_members : members.Forall fun m => m.LeavesAlone Options.other := by
  refine ⟨leavesAlone_string fun _ _ => rfl, leavesAlone_value? fun _ _ => rfl,
    leavesAlone_noted fun _ _ => rfl, leavesAlone_noted fun _ _ => rfl,
    leavesAlone_noted fun _ _ => rfl, ?_, ?_, leavesAlone_braced fun _ _ => rfl,
    leavesAlone_all fun _ _ => rfl, leavesAlone_all fun _ _ => rfl, leavesAlone_noted fun _ _ => rfl⟩
  all_goals
    intro s o n hn
    simp only [listenMember] at hn
    split at hn
    · cases hn
    · obtain rfl := Option.some.inj hn
      rfl

/-- **Settings** keep a list behind a clause exactly if it is no match list. -/
lemma hasChild_iff {source : Text} {c : Statement} (hc : c ∈ (Statement.read source).children)
    (hclause : c.value.HasLeadingClause) (hlist : c.keyword ∈ listKeywords) :
    (ofStatement (Statement.read source)).value.node.HasChild c.keyword c.value ↔
      c.keyword ∉ MatchTerm.keywords := by
  refine hasChild_rebuilt_iff (List.forall_iff_forall_mem.mp leavesAlone_members) (fun s o => rfl) rfl
    isListClause_of_mem_clauses (fun o => rfl) hc hclause ?_ ?_ ?_
  · have hwords : ∀ kw ∈ listKeywords, kw.isWord = true := by decide
    exact hwords _ hlist
  · intro hmatch s hs a
    simp only [MatchTerm.keywords, List.mem_cons, List.not_mem_nil, or_false] at hmatch
    rcases hmatch with hkw | hkw | hkw <;> rw [Member.take?_eq rfl (hs.trans hkw)]
    all_goals exact Option.some_ne_none _
  · intro hmatch a
    have hkeywords : ∀ kw ∈ listKeywords, kw ∉ MatchTerm.keywords → kw = "forwarders" := by decide
    have hkw := hkeywords _ hlist hmatch
    have htable : members.filter (·.keyword = ("forwarders" : Text)) =
        [.braced "forwarders" Forwarder.readList fun fs o => { o with forwarders := some fs }] := rfl
    rw [take?_eq htable hkw, List.findSome?_singleton, braced_read?_eq_none]
    exact hclause.isBraced_eq_false

end Options

namespace Zone

open Member

/-- What the library knows of a zone, clause by clause. -/
def clauses (z : Zone) : List Text :=
  z.type.toList.map (fun t => clause "type" t.word) ++ nameClause "file" z.file ++
    z.primaries.texts ++ forwardersClause z.forwarders ++ wordClause "forward" z.forward ++
    matchClause "allow-update" z.allowUpdate ++ matchClause "allow-transfer" z.allowTransfer ++
    z.alsoNotify.toList.map (fun rs => clause "also-notify" (RemoteServer.textOfList rs)) ++
    (if z.dnssecPolicy = [] then [] else [clause "dnssec-policy" z.dnssecPolicy.quoteUnlessBare])

lemma isListClause_of_mem_clauses (z : Zone) : ∀ x ∈ z.clauses, IsListClause x := by
  have hprimaries : ∀ x ∈ z.primaries.texts, IsListClause x := by
    have h : ∀ v, IsListClause (clause "primaries" v) := .of_not_mem (by decide) (by decide)
    cases z.primaries with
    | unset => exact fun x hx => absurd hx List.not_mem_nil
    | group name => exact List.forall_mem_singleton.mpr (h _)
    | servers rs => exact List.forall_mem_singleton.mpr (h _)
  simp only [clauses, List.forall_mem_append, and_assoc]
  refine ⟨.option (fun _ => .of_not_mem ?_ ?_ _) _, .ite (.of_not_mem ?_ ?_ _), hprimaries,
    .forwarders _, .ite (.of_not_mem ?_ ?_ _), .matchList ?_ _, .matchList ?_ _,
    .option (fun _ => .of_not_mem ?_ ?_ _) _, .ite (.of_not_mem ?_ ?_ _)⟩ <;> decide

lemma leavesAlone_members : members.Forall fun m => m.LeavesAlone Zone.other :=
  ⟨leavesAlone_value? fun _ _ => rfl, leavesAlone_string fun _ _ => rfl,
    leavesAlone_braced fun _ _ => rfl, leavesAlone_value? fun _ _ => rfl,
    leavesAlone_braced fun _ _ => rfl, leavesAlone_all fun _ _ => rfl,
    leavesAlone_noted fun _ _ => rfl, leavesAlone_noted fun _ _ => rfl,
    leavesAlone_braced fun _ _ => rfl, leavesAlone_string fun _ _ => rfl⟩

/-- **A zone** keeps a list behind a clause exactly if it is no match list. -/
lemma hasChild_iff {source : Text} {c : Statement} (hc : c ∈ (Statement.read source).children)
    (hclause : c.value.HasLeadingClause) (hlist : c.keyword ∈ listKeywords) :
    (ofStatement .keep (Statement.read source)).value.node.HasChild c.keyword c.value ↔
      c.keyword ∉ MatchTerm.keywords := by
  refine hasChild_rebuilt_iff (List.forall_iff_forall_mem.mp leavesAlone_members) (fun s z => rfl) rfl
    isListClause_of_mem_clauses node_eq hc hclause ?_ ?_ ?_
  · have hwords : ∀ kw ∈ listKeywords, kw.isWord = true := by decide
    exact hwords _ hlist
  · intro hmatch s hs a
    have hkeywords : ∀ kw ∈ listKeywords, kw ∈ MatchTerm.keywords →
        kw = "allow-update" ∨ kw = "allow-transfer" := by decide
    rcases hkeywords _ hlist hmatch with hkw | hkw <;> rw [take?_eq rfl (hs.trans hkw)]
    all_goals exact Option.some_ne_none _
  · intro hmatch a
    have hunbraced := hclause.isBraced_eq_false
    have hkeywords : ∀ kw ∈ listKeywords, kw ∉ MatchTerm.keywords →
        kw = "primaries" ∨ kw = "forwarders" ∨ kw = "also-notify" := by decide
    rcases hkeywords _ hlist hmatch with hkw | hkw | hkw
    · have hgroup : Primaries.groupName? c.value = none :=
        if_neg fun h => h.2 hclause.openBrace_mem
      rw [take?_eq rfl hkw, findSome?_primaries rfl, hunbraced, hgroup]
      rfl
    · have htable : members.filter (·.keyword = ("forwarders" : Text)) =
          [.braced "forwarders" Forwarder.readList fun fs z => { z with forwarders := some fs }] := rfl
      rw [take?_eq htable hkw, List.findSome?_singleton, braced_read?_eq_none]
      exact hunbraced
    · have htable : members.filter (·.keyword = ("also-notify" : Text)) =
          [.braced "also-notify" RemoteServer.readList
            fun rs z => { z with alsoNotify := some rs }] := rfl
      rw [take?_eq htable hkw, List.findSome?_singleton, braced_read?_eq_none]
      exact hunbraced

end Zone

/-! ## Lists behind a clause -/

/-- **Lists behind a clause.**  Of the lists in braces among the settings and in a zone, one with a
    clause before its braces is there again, as it was, exactly if it is no match list. -/
theorem hasChild_leadingClause_iff {source : Text} {c : Statement}
    (hc : c ∈ (Statement.read source).children) (hclause : c.value.HasLeadingClause) :
    (c.keyword ∈ Options.listKeywords →
      ((Options.ofStatement (Statement.read source)).value.node.HasChild c.keyword c.value ↔
        c.keyword ∉ MatchTerm.keywords)) ∧
    (c.keyword ∈ Zone.listKeywords →
      ((Zone.ofStatement .keep (Statement.read source)).value.node.HasChild c.keyword c.value ↔
        c.keyword ∉ MatchTerm.keywords)) :=
  ⟨Options.hasChild_iff hc hclause, Zone.hasChild_iff hc hclause⟩

/-- Servers to forward to, behind a port. -/
def portedForwarders : Text := "options \x7b forwarders port 853 \x7b 192.0.2.1; \x7d; \x7d;"

/-- A match list behind a port. -/
def portedTransfer : Text := "options \x7b allow-transfer port 853 \x7b any; \x7d; \x7d;"

/-- The servers are kept with their port. -/
theorem hasChild_leadingClause_forwarders :
    (Options.ofStatement (Statement.read portedForwarders)).value.node.HasChild "forwarders"
      "port 853 \x7b 192.0.2.1; \x7d" := by
  have hchildren : (Statement.read portedForwarders).children =
      [Statement.read "forwarders port 853 \x7b 192.0.2.1; \x7d;"] := by cbv
  have hmem : Statement.read "forwarders port 853 \x7b 192.0.2.1; \x7d;" ∈
      (Statement.read portedForwarders).children := by
    rw [hchildren]
    exact List.mem_singleton_self _
  have hkeyword : (Statement.read "forwarders port 853 \x7b 192.0.2.1; \x7d;").keyword =
      Text.ofString "forwarders" := by cbv
  have hvalue : (Statement.read "forwarders port 853 \x7b 192.0.2.1; \x7d;").value =
      Text.ofString "port 853 \x7b 192.0.2.1; \x7d" := by cbv
  have hclause : HasLeadingClause "port 853 \x7b 192.0.2.1; \x7d" :=
    ⟨(Text.ofString "port 853 ").map .byte, Text.ofString " 192.0.2.1; ", true, [], by cbv, by decide,
      by decide⟩
  rw [← hvalue] at hclause
  have hkept := (hasChild_leadingClause_iff hmem hclause).1 (by rw [hkeyword]; decide)
  rw [hkeyword, hvalue] at hkept
  exact hkept.mpr (by decide)

lemma items_ported : items .value "port 853 \x7b any; \x7d" =
    (Text.ofString "port 853 ").map .byte ++ [.group " any; " true] := by cbv

/-- A match list behind a port is read as the name of a list. -/
lemma MatchTerm.readList_ported :
    readList "port 853 \x7b any; \x7d" = pure [.acl false "port 853 \x7b any; \x7d"] := by
  have hparts : parts (stripBraces "port 853 \x7b any; \x7d") =
      [Text.ofString "port 853 \x7b any; \x7d"] := by cbv
  have hunbroken : isBrokenGroup "port 853 \x7b any; \x7d" = false := by cbv
  have hsign : splitSign "port 853 \x7b any; \x7d" =
      (false, Text.ofString "port 853 \x7b any; \x7d") := by cbv
  have hterm : read "port 853 \x7b any; \x7d" = pure (.acl false "port 853 \x7b any; \x7d") :=
    read_of_splitSign hsign (by cbv) (by rw [items_ported]; decide)
  rw [readList, hparts, readParts, hunbroken, hterm, readParts]
  rfl

/-- What the settings with such a list are written as. -/
lemma Options.node_ported {s c : Statement} (hs : s.children = [c])
    (hkeyword : c.keyword = Text.ofString "allow-transfer")
    (hvalue : c.value = Text.ofString "port 853 \x7b any; \x7d") :
    (ofStatement s).value.node =
      .block "options" (Node.lines ["allow-transfer \x7b \"port 853 \x7b any; \x7d\"; \x7d"]) := by
  have htable : members.filter (·.keyword = ("allow-transfer" : Text)) =
      [.noted "allow-transfer" MatchTerm.readList
        fun ts o => { o with allowTransfer := some ts }] := rfl
  have htake : Member.take? members c empty =
      some (pure { empty with allowTransfer := some [.acl false "port 853 \x7b any; \x7d"] }) := by
    rw [Member.take?_eq htable hkeyword, List.findSome?_singleton]
    show some (MatchTerm.readList c.value >>= _) = _
    rw [hvalue, MatchTerm.readList_ported, pure_bind]
  rw [ofStatement, hs, readMembers, htake, Option.getD_some, pure_bind, readMembers]
  cbv

/-- The match list, the only statement in its block, is not kept: its port and its braces become the
    name of a list. -/
theorem hasChild_leadingClause_ne : ∃ c, (Statement.read portedTransfer).children = [c] ∧
    c.keyword = Text.ofString "allow-transfer" ∧
    c.value = Text.ofString "port 853 \x7b any; \x7d" ∧ c.value.HasLeadingClause ∧
    ¬ (Options.ofStatement (Statement.read portedTransfer)).value.node.HasChild c.keyword c.value ∧
    (Options.ofStatement (Statement.read portedTransfer)).value.node.HasChild c.keyword
      "\x7b \"port 853 \x7b any; \x7d\"; \x7d" := by
  have hchildren : (Statement.read portedTransfer).children =
      [Statement.read "allow-transfer port 853 \x7b any; \x7d;"] := by cbv
  have hkeyword : (Statement.read "allow-transfer port 853 \x7b any; \x7d;").keyword =
      Text.ofString "allow-transfer" := by cbv
  have hvalue : (Statement.read "allow-transfer port 853 \x7b any; \x7d;").value =
      Text.ofString "port 853 \x7b any; \x7d" := by cbv
  have hclause : HasLeadingClause "port 853 \x7b any; \x7d" :=
    ⟨_, _, _, _, items_ported, by decide, by decide⟩
  rw [← hvalue] at hclause
  have hmem : Statement.read "allow-transfer port 853 \x7b any; \x7d;" ∈
      (Statement.read portedTransfer).children := by
    rw [hchildren]
    exact List.mem_singleton_self _
  have hlost := (Options.hasChild_iff hmem hclause (by rw [hkeyword]; decide)).not.mpr
    (by rw [hkeyword]; decide)
  refine ⟨_, hchildren, hkeyword, hvalue, hclause, hlost, ?_⟩
  rw [Options.node_ported hchildren hkeyword hvalue, Node.hasChild_block_iff]
  exact ⟨_, List.mem_singleton_self _, by cbv, by cbv⟩

end NameServerConf
