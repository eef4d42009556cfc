import NameServerConf.Proofs.Lists
import NameServerConf.Proofs.Tidying

/-!
# Tokens of a text

A text `Renders` some tokens if they stand in it in that order and nothing but blanks is around them.
A token is a word, a string or a group; where no blank separates it from the next one, it has to end by
itself.

**One step.**  Each rule of the relation is an equation for `tokens`: a blank is passed over, and a
token is taken off the front with the rest left as it is (`tokens_blank_cons`, `tokens_word_append`,
`tokens_packed_append`).

**All steps.**  So a text renders its tokens and no others: `tokens_eq_iff`.  Strings and groups that do
not end are covered, since nothing can stand behind them.

**Written again.**  With single blanks between them, the tokens of a text are rendered once more
(`Renders.phrase`).
-/

namespace NameServerConf

/-- A string or a group, whose bytes stay together. -/
def Item.isPacked : Item → Bool
  | .quoted _ => true
  | .group _ _ => true
  | _ => false

namespace Text

/-- A byte of a word: no blank, and the beginning of neither a string nor a group. -/
def isLoose (b : UInt8) : Bool := !Byte.isBlank b && b ≠ Byte.quote && b ≠ Byte.openBrace

/-- The tokens stand in the text one after the other, with nothing but blanks before, between and behind
    them.  A word ends before a byte that can be in no word; a string or group ends by itself, or the
    text ends with it. -/
inductive Renders : List Text → Text → Prop
  | nil : Renders [] []
  | blank {b : UInt8} {s : Text} {ts : List Text} (hb : Byte.isBlank b = true) (hs : Renders ts s) :
      Renders ts (b :: s)
  | word {w rest : Text} {ts : List Text} (hne : w ≠ []) (hw : ∀ b ∈ w, isLoose b = true)
      (hend : ∀ b ∈ rest.head?, isLoose b = false) (hrest : Renders ts rest) :
      Renders (w :: ts) (w ++ rest)
  | packed {i : Item} {rest : Text} {ts : List Text} (hpacked : i.isPacked = true)
      (hitem : items .value i.text = [i]) (hend : i.isFinished = true ∨ rest = [])
      (hrest : Renders ts rest) : Renders (i.text :: ts) (i.text ++ rest)

/-! ## One step -/

section Steps

variable {w rest : Text} {i : Item}

lemma isLoose_eq_false {b : UInt8} (h : isLoose b = false) :
    Byte.isBlank b = true ∨ b = Byte.quote ∨ b = Byte.openBrace := by
  simp only [isLoose, Bool.and_eq_false_iff, Bool.not_eq_false', decide_eq_false_iff_not,
    not_not] at h
  exact or_assoc.mp h

lemma isBlank_of_isLoose {b : UInt8} (h : isLoose b = true) : Byte.isBlank b = false := by
  simp only [isLoose, Bool.and_eq_true, Bool.not_eq_true'] at h
  exact h.1.1

/-- A blank before the tokens does not count. -/
lemma tokens_blank_cons {b : UInt8} (hb : Byte.isBlank b = true) (s : Text) :
    tokens (b :: s) = tokens s := by
  have hblank : (Item.byte b).isByte Byte.isBlank = true := hb
  rw [tokens, items_cons_of_single (Byte.isSingle_of_isBlank hb), tokensOf, if_pos hblank, ← tokens]

/-- The bytes of a word are items of their own. -/
lemma items_loose_append (hw : ∀ b ∈ w, isLoose b = true) (rest : Text) :
    items .value (w ++ rest) = w.map .byte ++ items .value rest := by
  induction w with
  | nil => rfl
  | cons b w ih =>
      have hb := hw b (List.mem_cons_self ..)
      simp only [isLoose, Bool.and_eq_true, decide_eq_true_eq] at hb
      rw [List.cons_append, items_value_cons hb.1.2 hb.2,
        ih fun c hc => hw c (List.mem_cons_of_mem _ hc), List.map_cons, List.cons_append]

/-- A byte that is in no word does not begin one. -/
lemma isWordItem_head?_items (hend : ∀ b ∈ rest.head?, isLoose b = false) :
    ∀ i ∈ (items .value rest).head?, isWordItem i = false := by
  intro i hi
  cases rest with
  | nil =>
      rw [items_nil] at hi
      cases hi
  | cons b r =>
      rcases isLoose_eq_false (hend b rfl) with hb | rfl | rfl
      · rw [items_cons_of_single (Byte.isSingle_of_isBlank hb)] at hi
        obtain rfl := Option.some.inj hi
        show (!Byte.isBlank b) = false
        rw [hb, Bool.not_true]
      · obtain ⟨u, is, hitems⟩ := exists_items_quote .value r
        rw [hitems] at hi
        obtain rfl := Option.some.inj hi
        rfl
      · obtain ⟨u, closed, is, hitems⟩ := exists_items_openBrace .value r
        rw [hitems] at hi
        obtain rfl := Option.some.inj hi
        rfl

/-- **A word** is taken off as a whole. -/
lemma tokens_word_append (hne : w ≠ []) (hw : ∀ b ∈ w, isLoose b = true)
    (hend : ∀ b ∈ rest.head?, isLoose b = false) : tokens (w ++ rest) = w :: tokens rest := by
  obtain ⟨b, r, rfl⟩ := List.exists_cons_of_ne_nil hne
  have hb : Byte.isBlank b = false := isBlank_of_isLoose (hw b (List.mem_cons_self ..))
  have hword : ∀ j ∈ r.map Item.byte, isWordItem j = true := by
    intro j hj
    obtain ⟨c, hc, rfl⟩ := List.mem_map.mp hj
    show (!Byte.isBlank c) = true
    rw [isBlank_of_isLoose (hw c (List.mem_cons_of_mem _ hc)), Bool.not_false]
  have hstop : (items .value rest).takeWhile isWordItem = [] ∧
      (items .value rest).dropWhile isWordItem = items .value rest := by
    have hhead := isWordItem_head?_items hend
    cases hitems : items .value rest with
    | nil => exact ⟨rfl, rfl⟩
    | cons j js =>
        rw [hitems] at hhead
        have hj : ¬ isWordItem j = true := by rw [hhead j rfl]; exact Bool.false_ne_true
        exact ⟨List.takeWhile_cons_of_neg hj, List.dropWhile_cons_of_neg hj⟩
  rw [tokens, items_loose_append hw, List.map_cons, List.cons_append, tokensOf,
    if_neg (by rw [Item.isByte, hb]; exact Bool.false_ne_true),
    if_pos (by rw [isWordItem, Item.isByte, hb, Bool.not_false]),
    List.takeWhile_append_of_pos hword, List.dropWhile_append_of_pos hword, hstop.1, hstop.2,
    List.append_nil, ← List.map_cons, ofItems_map_byte, ← tokens]

/-- **A string or a group** is taken off as a whole. -/
lemma tokens_packed_append (hpacked : i.isPacked = true) (hitem : items .value i.text = [i])
    (hend : i.isFinished = true ∨ rest = []) : tokens (i.text ++ rest) = i.text :: tokens rest := by
  have hitems : items .value (i.text ++ rest) = i :: items .value rest := by
    rcases hend with hfinished | rfl
    · have hclosed : groupsClosed (items .value i.text) = true := by
        rw [hitem, groupsClosed, List.all_cons, hfinished, Bool.or_true]
        rfl
      rw [items_append hclosed, hitem, List.singleton_append]
      intro j hj b _
      rw [hitem] at hj
      obtain rfl := Option.some.inj hj
      -- what is finished takes in nothing more
      cases i with
      | byte c => cases hpacked
      | comment t => cases hpacked
      | quoted t => exact (congrArg (!·) hfinished).trans rfl
      | group t closed => exact (congrArg (!·) hfinished).trans rfl
    · rw [List.append_nil, hitem, items_nil]
  have hbyte : i.isByte Byte.isBlank = false ∧ isWordItem i = false := by
    cases i with
    | byte c => cases hpacked
    | comment t => cases hpacked
    | quoted t => exact ⟨rfl, rfl⟩
    | group t closed => exact ⟨rfl, rfl⟩
  rw [tokens, hitems, tokensOf, hbyte.1, hbyte.2, if_neg Bool.false_ne_true,
    if_neg Bool.false_ne_true, ← tokens]

end Steps

/-! ## All steps -/

/-- An item with another one behind it is finished. -/
lemma isFinished_of_items_cons {d : Dialect} {s : Text} {i j : Item} {is : List Item}
    (h : items d s = i :: j :: is) : i.isFinished = true := by
  rw [items] at h
  cases hls : lexemes d s with
  | nil =>
      rw [hls, nest] at h
      cases h
  | cons k ls =>
      rw [hls, nest] at h
      split at h
      · split at h
        · obtain ⟨rfl, -⟩ := List.cons.inj h
          rfl
        · cases (List.cons.inj h).2
      · obtain ⟨rfl, hrest⟩ := List.cons.inj h
        cases ls with
        | nil =>
            rw [nest] at hrest
            cases hrest
        | cons m ls => exact isFinished_of_lexemes_cons hls

/-- What begins with a string or a group begins with one that ends before anything else begins. -/
lemma exists_packed {s : Text} {i : Item} {is : List Item} (h : items .value s = i :: is) :
    s = i.text ++ ofItems is ∧ items .value i.text = [i] ∧
      (i.isFinished = true ∨ ofItems is = []) := by
  have hsplit : items .value s = [i] ++ is := h
  have hfront := items_ofItems_prefix hsplit
  refine ⟨?_, ?_, ?_⟩
  · rw [← ofItems_items .value s, h, ofItems_cons]
  · rwa [ofItems_cons, ofItems_nil, List.append_nil] at hfront
  · cases is with
    | nil => exact Or.inr rfl
    | cons j is => exact Or.inl (isFinished_of_items_cons h)

/-- A text renders its tokens. -/
theorem renders_tokens (s : Text) : Renders (tokens s) s := by
  -- on the length: the rest behind a token is shorter
  induction hn : s.length using Nat.strong_induction_on generalizing s with
  | _ n ih =>
  subst hn
  have packed : ∀ (i : Item) (is : List Item), items .value s = i :: is → i.isPacked = true →
      Renders (tokens s) s := by
    intro i is hitems hpacked
    obtain ⟨htext, hitem, hend⟩ := exists_packed hitems
    have hshort : (ofItems is).length < s.length := by
      have hne : i.text ≠ [] := fun hnil => by
        rw [hnil, items_nil] at hitem
        cases hitem
      rw [htext, List.length_append]
      have := List.length_pos_iff.mpr hne
      omega
    rw [htext, tokens_packed_append hpacked hitem hend]
    exact .packed hpacked hitem hend (ih _ hshort _ rfl)
  cases hs : s with
  | nil =>
      rw [tokens_nil]
      exact .nil
  | cons b r =>
      cases hloose : isLoose b with
      | true =>
          -- the word is as long as it can be
          have hsplit := List.takeWhile_append_dropWhile (p := isLoose) (l := b :: r)
          have hfirst : (b :: r).takeWhile isLoose = b :: r.takeWhile isLoose :=
            List.takeWhile_cons_of_pos hloose
          have hne : (b :: r).takeWhile isLoose ≠ [] := by
            rw [hfirst]
            exact List.cons_ne_nil _ _
          have hw : ∀ c ∈ (b :: r).takeWhile isLoose, isLoose c = true :=
            fun c hc => List.mem_takeWhile_imp hc
          have hend : ∀ c ∈ ((b :: r).dropWhile isLoose).head?, isLoose c = false := by
            intro c hc
            have hstop := List.head?_dropWhile_not isLoose (b :: r)
            rw [Option.mem_def.mp hc] at hstop
            simpa using hstop
          have hshort : ((b :: r).dropWhile isLoose).length < s.length := by
            have hlength := congrArg List.length hsplit
            rw [hfirst, List.length_append, List.length_cons] at hlength
            rw [hs]
            omega
          rw [← hsplit, tokens_word_append hne hw hend]
          exact .word hne hw hend (ih _ hshort _ rfl)
      | false =>
          rw [← hs]
          rcases isLoose_eq_false hloose with hb | rfl | rfl
          · have hshort : r.length < s.length := by rw [hs]; exact Nat.lt_succ_self _
            rw [hs, tokens_blank_cons hb]
            exact .blank hb (ih _ hshort _ rfl)
          · obtain ⟨u, is, hitems⟩ := exists_items_quote .value r
            exact packed _ _ (hs ▸ hitems) rfl
          · obtain ⟨u, closed, is, hitems⟩ := exists_items_openBrace .value r
            exact packed _ _ (hs ▸ hitems) rfl

lemma Renders.tokens_eq {s : Text} {ts : List Text} (h : Renders ts s) : tokens s = ts := by
  induction h with
  | nil => exact tokens_nil
  | blank hb hs ih => rw [tokens_blank_cons hb, ih]
  | word hne hw hend hrest ih => rw [tokens_word_append hne hw hend, ih]
  | packed hpacked hitem hend hrest ih => rw [tokens_packed_append hpacked hitem hend, ih]

/-- **The tokens of a text** are those that it renders. -/
theorem tokens_eq_iff {s : Text} {ts : List Text} : tokens s = ts ↔ Renders ts s :=
  ⟨fun h => h ▸ renders_tokens s, Renders.tokens_eq⟩

/-! ## Written again -/

lemma Renders.ne_nil_of_mem {s t : Text} {ts : List Text} (h : Renders ts s) (ht : t ∈ ts) :
    t ≠ [] := by
  induction h with
  | nil => cases ht
  | blank hb hs ih => exact ih ht
  | word hne hw hend hrest ih =>
      rcases List.mem_cons.mp ht with rfl | ht
      · exact hne
      · exact ih ht
  | packed hpacked hitem hend hrest ih =>
      rcases List.mem_cons.mp ht with rfl | ht
      · intro hnil
        rw [hnil, items_nil] at hitem
        cases hitem
      · exact ih ht

/-- What stands behind a token when the tokens are joined: nothing, or a blank and the other tokens. -/
lemma phrase_cons_cases (t : Text) (ts : List Text) :
    (ts = [] ∧ phrase (t :: ts) = t ++ []) ∨
      (ts ≠ [] ∧ phrase (t :: ts) = t ++ Byte.space :: phrase ts) := by
  cases ts with
  | nil => exact Or.inl ⟨rfl, (List.append_nil t).symm⟩
  | cons u ts => exact Or.inr ⟨List.cons_ne_nil u ts, phrase_cons_cons t u ts⟩

/-- **Tokens with single blanks between them** are tokens again, and the same. -/
lemma Renders.phrase {s : Text} {ts : List Text} (h : Renders ts s) : Renders ts (phrase ts) := by
  induction h with
  | nil => exact .nil
  | blank hb hs ih => exact ih
  | @word w rest ts hne hw hend hrest ih =>
      rcases phrase_cons_cases w ts with ⟨rfl, hphrase⟩ | ⟨-, hphrase⟩
      · rw [hphrase]
        exact .word hne hw (fun b hb => by cases hb) .nil
      · rw [hphrase]
        refine .word hne hw (fun b hb => ?_) (.blank rfl ih)
        obtain rfl := Option.some.inj hb
        rfl
  | @packed i rest ts hpacked hitem hend hrest ih =>
      rcases phrase_cons_cases i.text ts with ⟨rfl, hphrase⟩ | ⟨hts, hphrase⟩
      · rw [hphrase]
        exact .packed hpacked hitem (Or.inr rfl) .nil
      · rcases hend with hfinished | rfl
        · rw [hphrase]
          exact .packed hpacked hitem (Or.inl hfinished) (.blank rfl ih)
        · -- with nothing behind it in the text, it is the last token
          exact absurd (hrest.tokens_eq.symm.trans tokens_nil) hts

/-- **Nothing is lost and nothing changes.**  Whatever the text, it is its tokens in order with nothing
    but blanks around them, and it is no other tokens; none of them is empty; and joined by single
    blanks they are the tokens of what is written then. -/
theorem tokens_lossless (s : Text) :
    Renders (tokens s) s ∧ (∀ ts, Renders ts s → ts = tokens s) ∧ (∀ t ∈ tokens s, t ≠ []) ∧
    tokens (phrase (tokens s)) = tokens s :=
  have hrenders := renders_tokens s
  ⟨hrenders, fun _ h => h.tokens_eq.symm, fun _ ht => hrenders.ne_nil_of_mem ht,
    hrenders.phrase.tokens_eq⟩

/-- Words that touch a string and a group, a stray brace, and a group that a string keeps open. -/
example : tokens "a\"b c\"d\x7be f\x7dg\x7d h\x7b \"i\x7d" =
    ["a", "\"b c\"", "d", "\x7be f\x7d", "g\x7d", "h", "\x7b \"i\x7d"] := by decide +kernel

end Text

end NameServerConf
