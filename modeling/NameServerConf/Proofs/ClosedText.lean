import NameServerConf.Proofs.Lexemes
import NameServerConf.Proofs.Replacement

/-!
# Closed texts

A text is **closed** if nothing in it waits for an end: every string, comment and group is finished
and every statement has its own semicolon.

**Complete nodes.**  The nodes of a closed text are complete: each is read as itself wherever it
stands (`complete_of_mem_parse`), and what applying a configuration leaves of a fragment still is
(`Complete.of_shortened`).

**Joined fragments.**  A text that complete nodes make up is split into these nodes again, but for
fragments side by side, which become one: `parse_written`.
-/

namespace NameServerConf

namespace Text

/-- Each string, comment and group in the text ends before the text does. -/
def isFinished (s : Text) : Bool :=
  (items .file s).all Item.isFinished && (items .file s).getLast?.all (!·.isLineComment)

lemma isFinished_iff {s : Text} : isFinished s = true ↔
    (∀ i ∈ items .file s, i.isFinished = true) ∧
      ∀ i ∈ (items .file s).getLast?, i.isLineComment = false := by
  rw [isFinished, Bool.and_eq_true, List.all_eq_true]
  refine and_congr Iff.rfl ?_
  cases (items .file s).getLast? with
  | none => simp
  | some i => simp

lemma groupsClosed_of_finished {is : List Item} (h : ∀ i ∈ is, i.isFinished = true) :
    groupsClosed is = true := by
  rw [groupsClosed, List.all_eq_true]
  intro i hi
  rw [h i hi, Bool.or_true]

end Text

namespace Node

/-- A statement ends with its own semicolon. -/
def isEnded : Node → Bool
  | .source t => (Text.items .file t).getLast? = some (.byte Byte.semicolon)
  | _ => true

end Node

/-- Nothing in the text waits for an end. -/
def Text.isClosed (s : Text) : Bool := s.isFinished && (Node.parse s).all Node.isEnded

/-! ## Complete nodes -/

namespace Node

/-- A piece of a file that is read as itself wherever it stands. -/
def Complete : Node → Prop
  | .raw t => t.isFinished = true ∧ ∀ i ∈ Text.items .file t, i.isFiller = true
  | .source t => t.isFinished = true ∧ ∃ i body,
      Text.items .file t = i :: body ++ [.byte Byte.semicolon] ∧ i.isFiller = false ∧
        ∀ j ∈ body, j ≠ .byte Byte.semicolon ∧ j ≠ .byte Byte.closeBrace
  | _ => False

/-- The last item of a complete node takes in nothing. -/
lemma Complete.takes_eq_false {n : Node} (h : n.Complete) {i : Item}
    (hi : i ∈ (Text.items .file n.written).getLast?) (b : UInt8) : i.takes b = false := by
  cases n with
  | line t => exact absurd h id
  | block header body => exact absurd h id
  | source t =>
      obtain ⟨-, j, body, ht, -, -⟩ := h
      rw [written, ht, List.getLast?_concat] at hi
      obtain rfl := Option.mem_some_iff.mp hi
      rfl
  | raw t =>
      obtain ⟨hfinished, hfiller⟩ := h
      obtain ⟨hfinished, hlast⟩ := Text.isFinished_iff.mp hfinished
      have hmem := List.mem_of_getLast? hi
      have hfinished := hfinished i hmem
      have hline := hlast i hi
      have hfiller := hfiller i hmem
      cases i with
      | quoted u => cases hfiller
      | group u closed => cases hfiller
      | byte c =>
          have hc : c ≠ Byte.slash := by
            rintro rfl
            exact absurd hfiller (by decide)
          simp [Item.takes, hc]
      | comment u =>
          rw [Item.isFinished, hline, Bool.false_or] at hfinished
          rw [Item.takes, hline, hfinished]
          rfl

/-- The items of a complete node come first, whatever follows it. -/
lemma Complete.items_append {n : Node} (h : n.Complete) (t : Text) :
    Text.items .file (n.written ++ t) = Text.items .file n.written ++ Text.items .file t := by
  refine Text.items_append (Text.groupsClosed_of_finished ?_) fun i hi b _ => h.takes_eq_false hi b
  cases n with
  | line t => exact absurd h id
  | block header body => exact absurd h id
  | source t => exact (Text.isFinished_iff.mp h.1).1
  | raw t => exact (Text.isFinished_iff.mp h.1).1

/-! ### The nodes of a closed text -/

/-- A comment to the end of the line has the line feed behind it, or nothing. -/
lemma head?_of_lineComment {d : Dialect} {s c : Text} {ls : List Item}
    (h : Text.lexemes d s = .comment c :: ls) (hc : (Item.comment c).isLineComment = true) :
    ls = [] ∨ ls.head? = some (.byte Byte.newline) := by
  have hline : ∀ r : Text, Text.lexemes d (r.dropWhile (· ≠ Byte.newline)) = [] ∨
      (Text.lexemes d (r.dropWhile (· ≠ Byte.newline))).head? = some (.byte Byte.newline) := by
    intro r
    rcases Text.head?_dropWhile_line r with hr | hr
    · rw [hr]
      exact Or.inl (Text.lexemes.eq_1 d)
    · obtain ⟨u, hu⟩ := List.head?_eq_some_iff.mp hr
      rw [hu, Text.lexemes_cons_of_single rfl]
      exact Or.inr rfl
  unfold Text.lexemes at h
  split at h
  · cases h
  next b r =>
  split at h
  · cases h
  next =>
  split at h
  next c' rest hsplit =>
    obtain ⟨hcc, rfl⟩ := List.cons.inj h
    obtain rfl := Item.comment.inj hcc
    cases d with
    | value => cases hsplit
    | file =>
        simp only [Text.Dialect.splitComment?, Text.splitComment?] at hsplit
        split at hsplit
        · obtain ⟨rfl, rfl⟩ := Prod.mk.inj (Option.some.inj hsplit)
          exact hline r
        split at hsplit
        next hb =>
          split at hsplit
          · cases hsplit
          next c'' r' =>
          split at hsplit
          · obtain ⟨rfl, rfl⟩ := Prod.mk.inj (Option.some.inj hsplit)
            exact hline r'
          split at hsplit
          next hstar =>
            -- a block comment is no comment to the end of the line
            obtain ⟨rfl, rfl⟩ := Prod.mk.inj (Option.some.inj hsplit)
            subst hb
            subst hstar
            exact absurd hc Bool.false_ne_true
          · cases hsplit
        · cases hsplit
  · cases List.cons.inj h |>.1

/-- The same among the items of a text. -/
lemma head?_items_of_lineComment {d : Dialect} {s c : Text} {as is : List Item}
    (h : Text.items d s = as ++ .comment c :: is) (hc : (Item.comment c).isLineComment = true) :
    is = [] ∨ is.head? = some (.byte Byte.newline) := by
  obtain ⟨l₁, l₂, hl, -, h₂⟩ := Text.exists_of_nest_eq_append h
  have hlex := Text.lexemes_ofItems_suffix hl
  cases l₂ with
  | nil => rw [Text.nest] at h₂; cases h₂
  | cons i ls =>
      have hi : i.inner?.isNone := Text.inner?_of_mem_lexemes (s := s) (d := d) (by rw [hl]; simp)
      have hne : i ≠ .byte Byte.openBrace := by
        rintro rfl
        rw [Text.nest, if_pos rfl] at h₂
        split at h₂ <;> cases List.cons.inj h₂ |>.1
      rw [Text.nest_cons_of_ne hne] at h₂
      obtain ⟨rfl, rfl⟩ := List.cons.inj h₂
      rcases head?_of_lineComment hlex hc with rfl | hls
      · exact Or.inl Text.nest.eq_1
      · obtain ⟨ls, rfl⟩ := List.head?_eq_some_iff.mp hls
        rw [Text.nest_cons_of_ne (by decide)]
        exact Or.inr rfl

/-- Some of the items of a text are the items of their own text, and nothing in it is unfinished if
    nothing is in the whole and no comment is cut off from the end of its line. -/
lemma isFinished_ofItems {s : Text} {as is js : List Item}
    (h : Text.items .file s = as ++ (is ++ js)) (hfinished : ∀ i ∈ is ++ js, i.isFinished = true)
    (hlast : ∀ i ∈ (is ++ js).getLast?, i.isLineComment = false)
    (hcut : ∀ c, is.getLast? = some (.comment c) → js.head? ≠ some (.byte Byte.newline)) :
    Text.items .file (Text.ofItems is) = is ∧ (Text.ofItems is).isFinished = true := by
  have hitems : Text.items .file (Text.ofItems is) = is :=
    Text.items_ofItems_prefix (Text.items_ofItems_suffix h)
  refine ⟨hitems, Text.isFinished_iff.mpr ?_⟩
  rw [hitems]
  refine ⟨fun i hi => hfinished i (List.mem_append_left _ hi), fun i hi => ?_⟩
  rw [← Bool.not_eq_true]
  intro hline
  cases i with
  | byte b => cases hline
  | quoted t => cases hline
  | group t closed => cases hline
  | comment t =>
      obtain ⟨front, rfl⟩ := List.getLast?_eq_some_iff.mp hi
      have hsplit : Text.items .file s = (as ++ front) ++ .comment t :: js := by rw [h]; simp
      rcases head?_items_of_lineComment hsplit hline with hnil | hnext
      · rw [hnil, List.append_nil] at hlast
        rw [hlast _ hi] at hline
        cases hline
      · exact hcut t hi hnext

/-- A statement goes up to its semicolon, if it has one. -/
lemma splitStatement_of_getLast? {is : List Item}
    (h : (splitStatement is).1.getLast? = some (.byte Byte.semicolon)) :
    ∃ body, (splitStatement is).1 = body ++ [.byte Byte.semicolon] ∧
      ∀ j ∈ body, j ≠ .byte Byte.semicolon ∧ j ≠ .byte Byte.closeBrace := by
  induction is with
  | nil => cases h
  | cons i is ih =>
      rw [splitStatement] at h ⊢
      split
      next hi => exact ⟨[], by rw [hi]; rfl, fun j hj => absurd hj List.not_mem_nil⟩
      next hi =>
      split
      next hbrace =>
        rw [if_neg hi, if_pos hbrace] at h
        cases h
      next hbrace =>
        rw [if_neg hi, if_neg hbrace, List.getLast?_cons] at h
        have hrest : (splitStatement is).1.getLast? = some (.byte Byte.semicolon) := by
          cases hlast : (splitStatement is).1.getLast? with
          | none =>
              rw [hlast] at h
              exact absurd (Option.some.inj h) hi
          | some j =>
              rw [hlast] at h
              exact h
        obtain ⟨body, hbody, hall⟩ := ih hrest
        refine ⟨i :: body, congrArg (i :: ·) hbody, fun j hj => ?_⟩
        rcases List.mem_cons.mp hj with rfl | hj
        · exact ⟨hi, hbrace⟩
        · exact hall j hj

/-- What is left of a list ends like the list. -/
lemma forall_getLast?_of_append {P : Item → Prop} {is js : List Item}
    (h : ∀ i ∈ (is ++ js).getLast?, P i) : ∀ j ∈ js.getLast?, P j := by
  intro j hj
  refine h j ?_
  rw [Option.mem_def] at hj ⊢
  rw [List.getLast?_append, hj]
  rfl

/-- The nodes that some items of a text make up are complete if nothing in them is unfinished. -/
lemma complete_of_mem_ofItems {s : Text} {as is : List Item} (h : Text.items .file s = as ++ is)
    (hfinished : ∀ i ∈ is, i.isFinished = true)
    (hlast : ∀ i ∈ is.getLast?, i.isLineComment = false)
    (hended : ∀ n ∈ ofItems is, n.isEnded = true) : ∀ n ∈ ofItems is, n.Complete := by
  fun_induction ofItems is generalizing as with
  | case1 => exact fun n hn => absurd hn List.not_mem_nil
  | case2 i rest hi ih =>
      have hsplit : i :: rest =
          (i :: rest.takeWhile Item.isFiller) ++ rest.dropWhile Item.isFiller := by
        rw [List.cons_append, List.takeWhile_append_dropWhile]
      rw [hsplit] at h hfinished hlast
      -- the line feed behind a comment is in the same run of fillers
      have hstop := List.head?_dropWhile_not Item.isFiller rest
      have hrun := isFinished_ofItems h hfinished hlast fun c _ hnext => by
        rw [hnext] at hstop
        exact absurd hstop (by decide)
      intro n hn
      rcases List.mem_cons.mp hn with rfl | hn
      · refine ⟨hrun.2, ?_⟩
        rw [hrun.1]
        intro j hj
        rcases List.mem_cons.mp hj with rfl | hj
        · exact hi
        · exact List.mem_takeWhile_imp hj
      · exact ih (h.trans (List.append_assoc ..).symm)
          (fun j hj => hfinished j (List.mem_append_right _ hj)) (forall_getLast?_of_append hlast)
          (fun m hm => hended m (List.mem_cons_of_mem _ hm)) n hn
  | case3 i rest hi ih =>
      have hsplit : i :: rest = (i :: (splitStatement rest).1) ++ (splitStatement rest).2 := by
        rw [List.cons_append, splitStatement_append]
      rw [hsplit] at h hfinished hlast
      have hitems : Text.items .file (Text.ofItems (i :: (splitStatement rest).1)) =
          i :: (splitStatement rest).1 := Text.items_ofItems_prefix (Text.items_ofItems_suffix h)
      have hsemicolon : (splitStatement rest).1.getLast? = some (.byte Byte.semicolon) := by
        have hn := hended _ (List.mem_cons_self ..)
        rw [isEnded, decide_eq_true_eq, hitems, List.getLast?_cons] at hn
        cases hrest : (splitStatement rest).1.getLast? with
        | none =>
            -- the first item is no semicolon
            rw [hrest] at hn
            obtain rfl : i = .byte Byte.semicolon := Option.some.inj hn
            exact absurd rfl hi
        | some j =>
            rw [hrest] at hn
            exact hn
      obtain ⟨body, hbody, hall⟩ := splitStatement_of_getLast? hsemicolon
      have hrun := isFinished_ofItems h hfinished hlast fun c hc => by
        rw [hbody, ← List.cons_append, List.getLast?_concat] at hc
        cases hc
      intro n hn
      rcases List.mem_cons.mp hn with rfl | hn
      · refine ⟨hrun.2, i, body, ?_, by simpa using hi, hall⟩
        rw [hrun.1, hbody, List.cons_append]
      · exact ih (h.trans (List.append_assoc ..).symm)
          (fun j hj => hfinished j (List.mem_append_right _ hj)) (forall_getLast?_of_append hlast)
          (fun m hm => hended m (List.mem_cons_of_mem _ hm)) n hn

/-- **The nodes of a closed text** are complete. -/
theorem complete_of_mem_parse {s : Text} (hs : s.isClosed = true) {n : Node} (hn : n ∈ parse s) :
    n.Complete := by
  rw [Text.isClosed, Bool.and_eq_true, Text.isFinished_iff, List.all_eq_true] at hs
  exact complete_of_mem_ofItems (List.nil_append _).symm hs.1.1 hs.1.2 hs.2 n hn

/-! ### Fragments that have lost blanks -/

lemma isSingle_of_isWordGap {b : UInt8} (h : Text.isWordGap b = true) : Byte.isSingle b := by
  simp only [Text.isWordGap, Bool.or_eq_true, decide_eq_true_eq] at h
  rcases h with (rfl | rfl) | rfl <;> rfl

lemma Complete.of_gap {gap t : Text} (hgap : ∀ b ∈ gap, Text.isWordGap b)
    (h : (Node.raw (gap ++ t)).Complete) : (Node.raw t).Complete := by
  have hitems : Text.items .file (gap ++ t) = gap.map .byte ++ Text.items .file t :=
    Text.items_append_of_single (fun b hb => isSingle_of_isWordGap (hgap b hb)) t
  obtain ⟨hfinished, hfiller⟩ := h
  obtain ⟨hfinished, hlast⟩ := Text.isFinished_iff.mp hfinished
  rw [hitems] at hfinished hlast hfiller
  exact ⟨Text.isFinished_iff.mpr ⟨fun i hi => hfinished i (List.mem_append_right _ hi),
    forall_getLast?_of_append hlast⟩, fun i hi => hfiller i (List.mem_append_right _ hi)⟩

/-- What is left of complete nodes is complete. -/
lemma Complete.of_shortened {ns ms : List Node} (h : Shortened ns ms)
    (hns : ∀ n ∈ ns, n.Complete) : ∀ m ∈ ms, m.Complete := by
  induction h with
  | nil => exact hns
  | keep n _ ih =>
      exact List.forall_mem_cons.mpr ⟨hns n (List.mem_cons_self ..),
        ih fun m hm => hns m (List.mem_cons_of_mem _ hm)⟩
  | cut hgap _ _ ih =>
      exact List.forall_mem_cons.mpr ⟨(hns _ (List.mem_cons_self ..)).of_gap hgap,
        ih fun m hm => hns m (List.mem_cons_of_mem _ hm)⟩
  | drop _ _ _ ih => exact ih fun m hm => hns m (List.mem_cons_of_mem _ hm)

/-! ## Joined fragments -/

/-- Puts a text before some nodes: it becomes a part of the fragment that they begin with, or a
    fragment of its own if there is something in it. -/
def prependRaw (t : Text) (ns : List Node) : List Node :=
  if t = [] then ns
  else
    match ns with
    | .raw u :: ns => .raw (t ++ u) :: ns
    | ns => .raw t :: ns

lemma prependRaw_nil (ns : List Node) : prependRaw [] ns = ns := if_pos rfl

lemma prependRaw_raw {t : Text} (ht : t ≠ []) (u : Text) (ns : List Node) :
    prependRaw t (.raw u :: ns) = .raw (t ++ u) :: ns := by
  rw [prependRaw, if_neg ht]

/-- A text is joined to the fragment that follows it, or is one by itself. -/
lemma prependRaw_cases {t : Text} (ht : t ≠ []) (ns : List Node) :
    (∃ u ms, ns = .raw u :: ms ∧ prependRaw t ns = .raw (t ++ u) :: ms) ∨
      (∀ u, ns.head? ≠ some (.raw u)) ∧ prependRaw t ns = .raw t :: ns := by
  rw [prependRaw.eq_def, if_neg ht]
  cases ns with
  | nil => exact Or.inr ⟨fun _ h => (by cases h), rfl⟩
  | cons n ns =>
      cases n with
      | raw u => exact Or.inl ⟨u, ns, rfl, rfl⟩
      | source u => exact Or.inr ⟨fun _ h => (by cases h), rfl⟩
      | line u => exact Or.inr ⟨fun _ h => (by cases h), rfl⟩
      | block header body => exact Or.inr ⟨fun _ h => (by cases h), rfl⟩

/-- Puts a node before some nodes; a fragment is joined to the one that they begin with. -/
def joinTo (n : Node) (ns : List Node) : List Node :=
  match n with
  | .raw t => prependRaw t ns
  | n => n :: ns

/-- The nodes with the fragments that stand side by side made one. -/
def joinRaws (ns : List Node) : List Node := ns.foldr joinTo []

/-- Fillers at the beginning are a fragment, or the beginning of one. -/
lemma ofItems_fillers_append {t : Text} (h : ∀ i ∈ Text.items .file t, i.isFiller = true)
    (js : List Item) :
    ofItems (Text.items .file t ++ js) = prependRaw t (ofItems js) := by
  have htext := Text.ofItems_items .file t
  cases hitems : Text.items .file t with
  | nil =>
      rw [hitems, Text.ofItems_nil] at htext
      rw [← htext, prependRaw_nil, List.nil_append]
  | cons i is =>
      rw [hitems] at h htext
      have hne : t ≠ [] := by
        rintro rfl
        rw [Text.items, Text.lexemes, Text.nest] at hitems
        cases hitems
      have his : ∀ j ∈ is, j.isFiller = true := fun j hj => h j (List.mem_cons_of_mem _ hj)
      rw [List.cons_append, ofItems, if_pos (h i (List.mem_cons_self ..)),
        List.takeWhile_append_of_pos his, List.dropWhile_append_of_pos his, ← List.cons_append,
        Text.ofItems_append, htext]
      cases js with
      | nil => simp [ofItems, prependRaw, hne]
      | cons j js =>
          by_cases hj : j.isFiller = true
          · rw [List.takeWhile_cons_of_pos hj, List.dropWhile_cons_of_pos hj, ofItems.eq_2 j js,
              if_pos hj, prependRaw_raw hne]
          · rw [List.takeWhile_cons_of_neg hj, List.dropWhile_cons_of_neg hj, ofItems.eq_2 j js,
              if_neg hj, Text.ofItems_nil, List.append_nil]
            exact (if_neg hne).symm

/-- A statement ends with its semicolon, whatever follows. -/
lemma splitStatement_append_semicolon {body : List Item}
    (h : ∀ j ∈ body, j ≠ .byte Byte.semicolon ∧ j ≠ .byte Byte.closeBrace) (js : List Item) :
    splitStatement (body ++ .byte Byte.semicolon :: js) = (body ++ [.byte Byte.semicolon], js) := by
  induction body with
  | nil => rfl
  | cons j body ih =>
      have hj := h j (List.mem_cons_self ..)
      rw [List.cons_append, splitStatement, if_neg hj.1, if_neg hj.2,
        ih fun i hi => h i (List.mem_cons_of_mem _ hi)]
      rfl

/-- A complete node is split off first. -/
lemma Complete.parse_append {n : Node} (h : n.Complete) (t : Text) :
    parse (n.written ++ t) = n.joinTo (parse t) := by
  rw [parse, h.items_append]
  cases n with
  | line u => exact absurd h id
  | block header body => exact absurd h id
  | raw u => exact ofItems_fillers_append h.2 _
  | source u =>
      obtain ⟨-, i, body, hu, hi, hbody⟩ := h
      have htext := Text.ofItems_items .file u
      show ofItems (Text.items .file u ++ _) = .source u :: parse t
      rw [hu] at htext ⊢
      rw [List.append_assoc, List.cons_append, ofItems, if_neg (by rw [hi]; decide),
        List.singleton_append, splitStatement_append_semicolon hbody, ← List.cons_append, htext,
        parse]

/-- **The text of complete nodes** is split into these nodes, fragments side by side made one. -/
theorem parse_written {ns : List Node} (h : ∀ n ∈ ns, n.Complete) :
    parse (ns.flatMap written) = joinRaws ns := by
  induction ns with
  | nil => simp [parse, Text.items, Text.lexemes, Text.nest, ofItems, joinRaws]
  | cons n ns ih =>
      have hn := h n (List.mem_cons_self ..)
      rw [List.flatMap_cons, hn.parse_append, ih fun m hm => h m (List.mem_cons_of_mem _ hm)]
      rfl

end Node

end NameServerConf
