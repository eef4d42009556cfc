import NameServerConf.Proofs.Blocks
import NameServerConf.Proofs.Collected
import NameServerConf.Proofs.Pieces
import NameServerConf.Proofs.Replacement

/-!
# What is reported and what is not

If unknown statements are kept, what else reading leaves out ought to be reported.  Here is what a file
can be trusted to say if nothing was.

**Zones say nothing.**  A reading is `Silent` if it reports nothing that was left out.  Match lists and
lists of servers are read silently, so zones are too (`Zone.silent_ofStatement`), whatever stands
behind the one word that is read of a type, of `forward` or of the name of a group of primaries.

**Options do.**  A value of which one word is read is reported if there are more
(`Options.length_words_le`).

**Counting.**  Under each keyword there are as many entities as statements, but only one for any number
of controls, logging and options blocks (`Config.count_ofStatements`), and applying the configuration
leaves as many statements as there are entities.

So that nothing was reported means that nothing was lost just for files in which those blocks are not
there twice and zones have no further words (`Config.complete_ofNodes_iff`).
-/

namespace NameServerConf

open Remark (leftOut leftOut_append)

/-! ## Silent readings -/

namespace Noted

variable {α β : Type} {m : Noted α}

/-- Nothing is reported as left out. -/
def Silent (m : Noted α) : Prop := leftOut m.remarks = []

lemma silent_pure (a : α) : Silent (pure a) := rfl

/-- A token that is passed over is no statement that is left out. -/
lemma silent_token (wording : Wording) (word value : Text) :
    Silent (remark (.token wording word value)) := rfl

lemma silent_bind_iff {f : α → Noted β} : Silent (m >>= f) ↔ Silent m ∧ Silent (f m.value) := by
  rw [Silent, remarks_bind, leftOut_append, List.append_eq_nil_iff]
  rfl

lemma Silent.bind (h : Silent m) {f : α → Noted β} (hf : ∀ a, Silent (f a)) : Silent (m >>= f) :=
  silent_bind_iff.mpr ⟨h, hf _⟩

lemma silent_mapM {f : α → Noted β} (hf : ∀ a, Silent (f a)) (l : List α) : Silent (l.mapM f) := by
  induction l with
  | nil => exact silent_pure _
  | cons a l ih =>
      rw [List.mapM_cons]
      exact (hf a).bind fun b => ih.bind fun bs => silent_pure _

end Noted

open Noted (Silent silent_pure silent_token silent_mapM)

lemma silent_readClauses {α : Type} {table : List (Clause α)} {stray : Text → Noted Unit}
    (htable : table.Forall fun c => ∀ arg a, Silent (c.read arg a)) (hstray : ∀ word, Silent (stray word))
    (tokens : List Text) (a : α) : Silent (readClauses table stray tokens a) := by
  fun_induction readClauses table stray tokens a with
  | case1 a => exact silent_pure a
  | case2 word a => exact (hstray word).bind fun _ => silent_pure a
  | case3 word arg rest a clause hfind ih =>
      have hclause := List.forall_iff_forall_mem.mp htable clause (List.mem_of_find?_eq_some hfind)
      exact (hclause arg a).bind ih
  | case4 word arg rest a hfind ih => exact (hstray word).bind fun _ => ih

namespace MatchTerm

mutual

lemma silent_read (segment : Text) : Silent (read segment) := by
  rw [read]
  split
  next => exact silent_pure _
  next =>
    split
    next inner h => exact (silent_readParts _ _).bind fun _ => silent_pure _
    next => exact (silent_token ..).bind fun _ => silent_pure _
    next => exact silent_pure _
termination_by (segment.length, 0)
decreasing_by exact Prod.Lex.left _ _ (totalLength_parts_lt ‹_›)

/-- **Match lists** are read silently. -/
lemma silent_readParts (list : Text) (parts : List Text) : Silent (readParts list parts) := by
  match parts with
  | [] => rw [readParts]; exact silent_pure _
  | part :: rest =>
      rw [readParts]
      split
      next => exact (silent_token ..).bind fun _ => silent_readParts list rest
      next =>
        exact (silent_read part).bind fun _ => (silent_readParts list rest).bind fun _ => silent_pure _
termination_by (Text.totalLength parts, parts.length + 1)
decreasing_by
  all_goals
    simp only [Text.totalLength, List.length_cons, Prod.lex_def]
    omega

end

lemma silent_readList (s : Text) : Silent (readList s) := silent_readParts _ _

end MatchTerm

lemma Forwarder.silent_readList (s : Text) : Silent (readList s) := by
  have hentry : ∀ entry : Text, Silent (ofTokens entry entry.tokens) := by
    intro entry
    cases entry.tokens with
    | nil => exact silent_pure _
    | cons address rest =>
        refine silent_readClauses ?_ (fun word => silent_token ..) rest _
        exact ⟨fun _ _ => silent_pure _, fun _ _ => silent_pure _⟩
  rw [readList]
  dsimp only
  split
  next => exact (silent_token ..).bind fun _ => silent_mapM hentry _
  next => exact (silent_pure ()).bind fun _ => silent_mapM hentry _

lemma RemoteServer.silent_readList (s : Text) : Silent (readList s) := by
  refine silent_mapM (fun entry => ?_) _
  rw [read]
  cases entry.tokens with
  | nil => exact silent_pure _
  | cons address rest =>
      refine silent_readClauses ?_ (fun word => silent_token ..) rest _
      exact ⟨fun _ _ => silent_pure _, fun _ _ => silent_pure _, fun _ _ => silent_pure _⟩

/-! ## Blocks -/

section Blocks

variable {α β : Type} {keyword : Text}

/-- A member that reports nothing as left out. -/
def Member.Silent (m : Member β) : Prop := ∀ s b n, m.read? s b = some n → n.Silent

namespace Member

lemma silent_all {read : Statement → β → Noted β} (h : ∀ s b, (read s b).Silent) :
    Silent (all keyword read) := by
  rintro s b n hn
  obtain rfl := Option.some.inj hn
  exact h s b

lemma silent_noted {read : Text → Noted α} (put : α → β → β) (h : ∀ t, (read t).Silent) :
    Silent (noted keyword read put) :=
  silent_all fun s _ => (h s.value).bind fun _ => silent_pure _

lemma silent_value? (read : Text → Option α) (put : α → β → β) :
    Silent (value? keyword read put) := by
  rintro s b n hn
  obtain ⟨a, -, rfl⟩ := Option.map_eq_some_iff.mp hn
  exact silent_pure _

lemma silent_braced {read : Text → Noted α} (put : α → β → β) (h : ∀ t, (read t).Silent) :
    Silent (braced keyword read put) := by
  rintro s b n hn
  rw [braced] at hn
  dsimp only at hn
  split at hn
  next =>
    obtain rfl := Option.some.inj hn
    exact (h s.value).bind fun _ => silent_pure _
  next => cases hn

end Member

/-- A block is read silently if its members are and unknown statements are kept. -/
lemma silent_readMembers {table : List (Member β)} {place : Place} {put : OtherOption → β → β}
    (htable : table.Forall Member.Silent) (ss : List Statement) (b : β) :
    Silent (readMembers table (Unknown.keep.handle place put) ss b) := by
  induction ss generalizing b with
  | nil => exact silent_pure b
  | cons s ss ih =>
      rw [readMembers]
      refine Noted.Silent.bind ?_ ih
      cases htake : Member.take? table s b with
      | none => exact silent_pure _
      | some n =>
          obtain ⟨m, hm, hread⟩ := List.exists_of_findSome?_eq_some htake
          split at hread
          next => exact List.forall_iff_forall_mem.mp htable m hm s b n hread
          next => cases hread

/-- If a block is read silently, then so is each statement in it. -/
lemma exists_silent_of_readMembers {table : List (Member β)} {other : Statement → β → Noted β}
    {ss : List Statement} {b : β} (h : Silent (readMembers table other ss b)) {s : Statement}
    (hs : s ∈ ss) : ∃ b, Silent ((Member.take? table s b).getD (other s b)) := by
  induction ss generalizing b with
  | nil => cases hs
  | cons t ss ih =>
      rw [readMembers, Noted.silent_bind_iff] at h
      rcases List.mem_cons.mp hs with rfl | hs
      · exact ⟨b, h.1⟩
      · exact ih h.2 hs

end Blocks

/-- **Zones** are read silently if unknown statements are kept. -/
theorem Zone.silent_ofStatement (s : Statement) : Silent (ofStatement .keep s) := by
  refine silent_readMembers ?_ s.children _
  exact ⟨Member.silent_value? _ _, Member.silent_all fun _ _ => silent_pure _,
    Member.silent_braced _ RemoteServer.silent_readList, Member.silent_value? _ _,
    Member.silent_braced _ Forwarder.silent_readList, Member.silent_all fun _ _ => silent_pure _,
    Member.silent_noted _ MatchTerm.silent_readList, Member.silent_noted _ MatchTerm.silent_readList,
    Member.silent_braced _ RemoteServer.silent_readList, Member.silent_all fun _ _ => silent_pure _⟩

/-! ## Values of one word -/

/-- An option of which one word is read. -/
def Options.takesOneWord (s : Statement) : Bool :=
  s.keyword = "forward" || s.keyword = "dnssec-validation"

/-- A statement in a zone of which one word is read: its type if that is known, how to forward, or the
    name of a group of primaries. -/
def Zone.takesOneWord (s : Statement) : Bool :=
  s.keyword = "type" && (ZoneType.ofWord? s.value.firstWord).isSome || s.keyword = "forward" ||
    s.keyword = "primaries" && (Primaries.groupName? s.value).isSome

lemma Options.length_words_le_of_silent {s : Statement} (h : Silent (oneWord s)) :
    s.value.words.length ≤ 1 := by
  rw [oneWord] at h
  split at h
  next hwords => simp [hwords]
  next hwords => simp [hwords]
  next => cases h

/-- **Further words** of an option are reported. -/
theorem Options.length_words_le {o : Statement} (h : Silent (ofStatement o)) {s : Statement}
    (hs : s ∈ o.children) (hword : takesOneWord s = true) : s.value.words.length ≤ 1 := by
  obtain ⟨b, hb⟩ := exists_silent_of_readMembers h hs
  rw [takesOneWord, Bool.or_eq_true, decide_eq_true_eq, decide_eq_true_eq] at hword
  rcases hword with hkeyword | hkeyword
  all_goals
    rw [Member.take?_eq rfl hkeyword] at hb
    exact Options.length_words_le_of_silent (Noted.silent_bind_iff.mp hb).1

/-! ## Values are empty or have words -/

namespace Text

/-- No blank is put at the beginning. -/
lemma head?_squeeze_false (gap : Bool) {ls : List Item}
    (h : ∀ i ∈ ls, (∃ b, i = .byte b) ∨ ∃ t, i = .quoted (Byte.quote :: t)) :
    ∀ b ∈ (squeeze false gap ls).head?, Byte.isBlank b = false := by
  induction ls generalizing gap with
  | nil => simp [squeeze]
  | cons i ls ih =>
      obtain ⟨hi, hls⟩ := List.forall_mem_cons.mp h
      intro b hb
      rw [squeeze] at hb
      split at hb
      next => exact ih true hls b hb
      next hblank =>
        rcases hi with ⟨c, rfl⟩ | ⟨t, rfl⟩
        · obtain rfl : c = b := Option.some.inj hb
          exact (Bool.not_eq_true _).mp hblank
        · obtain rfl : Byte.quote = b := Option.some.inj hb
          rfl

lemma words_normalize_ne_nil {s : Text} (h : normalize s ≠ []) : words (normalize s) ≠ [] := by
  obtain ⟨b, r, heq⟩ := List.exists_cons_of_ne_nil h
  have hhead := head?_squeeze_false false fun i hi => of_mem_lexemes_value (s := stripComments s) hi
  rw [heq]
  refine words_cons_ne_nil (hhead b ?_) r
  rw [← collapse, ← normalize, heq]
  rfl

end Text

namespace Statement

lemma words_value_read_ne_nil {u : Text} (h : (read u).value ≠ []) : (read u).value.words ≠ [] :=
  Text.words_normalize_ne_nil h

lemma exists_read_of_mem {t : Text} {s : Statement} (hs : s ∈ Node.statements (Node.parse t)) :
    ∃ u, s = read u := by
  rw [Node.parse, Node.statements_ofItems] at hs
  obtain ⟨p, -, rfl⟩ := List.mem_map.mp hs
  exact ⟨_, rfl⟩

/-- What stands in a statement that was read was read too. -/
lemma exists_read_of_mem_children {u : Text} {s : Statement} (hs : s ∈ (read u).children) :
    ∃ v, s = read v := by
  rw [children, read, ofParts] at hs
  dsimp only at hs
  cases hinner : (Text.items .file (valueText u)).findSome? Item.inner? with
  | none => rw [hinner] at hs; cases hs
  | some v => rw [hinner] at hs; exact exists_read_of_mem hs

end Statement

/-! ## Counting -/

/-- What there is at most one of. -/
def Keyword.isSingle : Keyword → Bool
  | .controls | .logging | .options => true
  | _ => false

namespace Config

open Statement (withKeyword)

/-- The number of entities under a keyword. -/
def count (c : Config) : Keyword → ℕ
  | .include => c.includes.length
  | .acl => c.acls.length
  | .key => c.keys.length
  | .keyStore => c.keyStores.length
  | .remoteServers => c.remoteServers.length
  | .tls => c.tls.length
  | .http => c.http.length
  | .controls => c.controls.toList.length
  | .logging => c.logging.toList.length
  | .options => c.options.toList.length
  | .trustAnchors => c.trustAnchors.length
  | .view => c.views.length
  | .zone => c.zones.length

lemma length_nodes (c : Config) (k : Keyword) : (c.nodes k).length = c.count k := by
  cases k <;> simp only [nodes, count, List.length_map]

lemma length_toList_getLast? {α β : Type} (f : α → β) (l : List α) :
    (l.getLast?.map f).toList.length = min 1 l.length := by
  rcases List.eq_nil_or_concat l with rfl | ⟨l, a, rfl⟩
  · rfl
  · simp

/-- **One entity for each statement**, or for all of them. -/
theorem count_ofStatements (unknown : Unknown) (ss : List Statement) (k : Keyword) :
    (ofStatements unknown ss).count k =
      if k.isSingle then min 1 (withKeyword k ss).length else (withKeyword k ss).length := by
  cases k <;> simp only [count, ofStatements, Keyword.isSingle, List.length_map, length_toList_getLast?,
    if_true, if_false, Bool.false_eq_true]

lemma length_withKeyword_statements (k : Keyword) (ns : List Node) :
    (withKeyword k (Node.statements ns)).length = (Node.statementsWith k ns).length := by
  induction ns with
  | nil => rfl
  | cons n ns ih =>
      rw [Node.statements, List.filterMap_cons, ← Node.statements]
      cases hn : n.statement? with
      | none =>
          rw [Node.statementsWith_cons_of_ne (by simp [Node.keyword?, hn]), ih]
      | some s =>
          have hword : n.keyword? = some k ↔ s.keyword = k.word := by
            rw [Node.keyword?, hn, Option.bind_some, Keyword.ofWord?_eq_some]
          dsimp only
          rw [withKeyword, List.filter_cons]
          split
          next h =>
            rw [Node.statementsWith_cons_self (hword.mpr (of_decide_eq_true h)), List.length_cons,
              List.length_cons, ← ih, withKeyword]
          next h =>
            rw [Node.statementsWith_cons_of_ne fun hk => h (decide_eq_true (hword.mp hk)), ← ih,
              withKeyword]

/-- **Applying** leaves as many statements as there are entities. -/
theorem length_withKeyword_apply (c : Config) (p : Placement) (ns : List Node) (k : Keyword) :
    (withKeyword k (Node.statements (c.apply p ns).value)).length = c.count k := by
  rw [length_withKeyword_statements, (replaced_apply p c ns).statementsWith_eq (by decide)
    (by cases k <;> decide), if_neg List.not_mem_nil, length_nodes]

/-! ## What an empty list of reports tells -/

/-- The zones of a file: those at top level and those in views. -/
def zoneStatements (ss : List Statement) : List Statement :=
  withKeyword .zone ss ++ (withKeyword .view ss).flatMap fun v => withKeyword .zone v.children

/-- The statements in zones of which one word is read. -/
def zoneWords (ss : List Statement) : List Statement :=
  (zoneStatements ss).flatMap fun z => z.children.filter Zone.takesOneWord

/-- The options of which one word is read. -/
def optionWords (ss : List Statement) : List Statement :=
  (withKeyword .options ss).flatMap fun o => o.children.filter Options.takesOneWord

/-- The options of a file are read silently if nothing of it is reported as left out. -/
lemma silent_options {ns : List Node} (h : leftOut (ofNodes .keep ns).remarks = []) {o : Statement}
    (ho : o ∈ withKeyword .options (Node.statements ns)) : Silent (Options.ofStatement o) := by
  rw [leftOut_ofNodes, List.flatMap_eq_nil_iff] at h
  obtain ⟨hmem, hkeyword⟩ := List.mem_filter.mp ho
  have hnone := h o hmem
  rw [remarksOf, Keyword.ofWord?_eq_some.mpr (of_decide_eq_true hkeyword)] at hnone
  exact (Noted.silent_bind_iff.mp hnone).1

/-- What has one word read of it was read itself. -/
lemma exists_read_of_mem_words {t : Text} {s : Statement}
    (hs : s ∈ optionWords (Node.statements (Node.parse t)) ++
      zoneWords (Node.statements (Node.parse t))) : ∃ u, s = Statement.read u := by
  have hchild : ∀ {b : Statement}, (∃ u, b = Statement.read u) → ∀ s ∈ b.children,
      ∃ u, s = Statement.read u := by
    rintro _ ⟨u, rfl⟩ s hs
    exact Statement.exists_read_of_mem_children hs
  have htop : ∀ {k : Keyword} {b : Statement},
      b ∈ withKeyword k (Node.statements (Node.parse t)) → ∃ u, b = Statement.read u :=
    fun hb => Statement.exists_read_of_mem (List.mem_of_mem_filter hb)
  rcases List.mem_append.mp hs with hs | hs
  · obtain ⟨o, ho, hs⟩ := List.mem_flatMap.mp hs
    exact hchild (htop ho) s (List.mem_of_mem_filter hs)
  · obtain ⟨z, hz, hs⟩ := List.mem_flatMap.mp hs
    refine hchild ?_ s (List.mem_of_mem_filter hs)
    rcases List.mem_append.mp hz with hz | hz
    · exact htop hz
    · obtain ⟨v, hv, hz⟩ := List.mem_flatMap.mp hz
      exact hchild (htop hv) z (List.mem_of_mem_filter hz)

/-- Options have no further words if nothing is reported as left out. -/
lemma length_words_le_of_mem_optionWords {ns : List Node}
    (h : leftOut (ofNodes .keep ns).remarks = []) {s : Statement}
    (hs : s ∈ optionWords (Node.statements ns)) : s.value.words.length ≤ 1 := by
  obtain ⟨o, ho, hs⟩ := List.mem_flatMap.mp hs
  obtain ⟨hchild, hword⟩ := List.mem_filter.mp hs
  exact Options.length_words_le (silent_options h ho) hchild hword

/-- There is a word, unless the value is empty. -/
lemma one_le_length_words_iff {t : Text} {s : Statement}
    (hs : s ∈ optionWords (Node.statements (Node.parse t)) ++
      zoneWords (Node.statements (Node.parse t))) : 1 ≤ s.value.words.length ↔ s.value ≠ [] := by
  obtain ⟨u, rfl⟩ := exists_read_of_mem_words hs
  refine ⟨fun h hempty => ?_, fun hne => ?_⟩
  · rw [hempty] at h
    exact absurd h (by decide)
  · exact List.length_pos_iff.mpr (Statement.words_value_read_ne_nil hne)

/-- Nothing is lost: there is an entity for each statement, and one word where one word is read. -/
structure Complete (c : Config) (ss : List Statement) : Prop where
  count : ∀ k, (withKeyword k ss).length = c.count k
  words : ∀ s ∈ optionWords ss ++ zoneWords ss, s.value.words.length = 1

lemma count_ofNodes (ns : List Node) (k : Keyword) : (ofNodes .keep ns).value.count k =
    if k.isSingle then min 1 (withKeyword k (Node.statements ns)).length
    else (withKeyword k (Node.statements ns)).length := by
  rw [value_ofNodes, count_ofStatements]

/-- **Nothing is lost** of a file of which nothing is reported as left out just if controls, logging and
    options blocks are there only once, no further words stand where one is read in a zone, and nothing
    is empty where one word is read. -/
theorem complete_ofNodes_iff {t : Text} (h : leftOut (ofNodes .keep (Node.parse t)).remarks = []) :
    (ofNodes .keep (Node.parse t)).value.Complete (Node.statements (Node.parse t)) ↔
      (∀ k, k.isSingle = true → (withKeyword k (Node.statements (Node.parse t))).length ≤ 1) ∧
        (∀ s ∈ zoneWords (Node.statements (Node.parse t)), s.value.words.length ≤ 1) ∧
        ∀ s ∈ optionWords (Node.statements (Node.parse t)) ++
          zoneWords (Node.statements (Node.parse t)), s.value ≠ [] := by
  constructor
  · intro hcomplete
    refine ⟨fun k hk => ?_, fun s hs => ?_, fun s hs => ?_⟩
    · have hcount := hcomplete.count k
      rw [count_ofNodes, if_pos hk] at hcount
      omega
    · exact (hcomplete.words s (List.mem_append_right _ hs)).le
    · exact (one_le_length_words_iff hs).mp (hcomplete.words s hs).ge
  · rintro ⟨hsingle, hzones, hne⟩
    refine ⟨fun k => ?_, fun s hs => ?_⟩
    · rw [count_ofNodes]
      split
      next hk => rw [Nat.min_eq_right (hsingle k hk)]
      next => rfl
    · have hone := (one_le_length_words_iff hs).mpr (hne s hs)
      -- further words are reported in options only, so zones need the hypothesis
      rcases List.mem_append.mp hs with hs | hs
      · exact Nat.le_antisymm (length_words_le_of_mem_optionWords h hs) hone
      · exact Nat.le_antisymm (hzones s hs) hone

/-- **A file of which nothing is reported as left out.**  Applying what was read leaves as many
    statements as there are entities, which is one for each statement, but only one for any number of
    controls, logging and options blocks.  An option of which one word is read has one, unless it is
    empty; but zones never report anything.  So something may be lost, and this says when. -/
theorem ofNodes_unreported {t : Text} (h : leftOut (ofNodes .keep (Node.parse t)).remarks = []) :
    let ss := Node.statements (Node.parse t)
    let c := (ofNodes .keep (Node.parse t)).value
    (∀ p k, (withKeyword k (Node.statements (c.apply p (Node.parse t)).value)).length = c.count k) ∧
      (∀ k, c.count k =
        if k.isSingle then min 1 (withKeyword k ss).length else (withKeyword k ss).length) ∧
      (∀ s ∈ optionWords ss, s.value.words.length = 1 ↔ s.value ≠ []) ∧
      (∀ z ∈ zoneStatements ss, leftOut (Zone.ofStatement .keep z).remarks = []) ∧
      (c.Complete ss ↔ (∀ k, k.isSingle = true → (withKeyword k ss).length ≤ 1) ∧
        (∀ s ∈ zoneWords ss, s.value.words.length ≤ 1) ∧
        ∀ s ∈ optionWords ss ++ zoneWords ss, s.value ≠ []) := by
  intro ss c
  refine ⟨fun p k => length_withKeyword_apply c p _ k, count_ofNodes _, fun s hs => ?_,
    fun z _ => Zone.silent_ofStatement z, complete_ofNodes_iff h⟩
  have hle := length_words_le_of_mem_optionWords h hs
  rw [← one_le_length_words_iff (List.mem_append_left _ hs)]
  omega

/-- A file with one word where one word is read. -/
def forwarding : Text := "options \x7b forward first; \x7d;\nzone \"z\" \x7b forward only; \x7d;\n"

/-- Nothing is reported, and nothing is lost. -/
theorem ofNodes_unreported_forwarding :
    leftOut (ofNodes .keep (Node.parse forwarding)).remarks = [] ∧
      (ofNodes .keep (Node.parse forwarding)).value.Complete
        (Node.statements (Node.parse forwarding)) := by
  have h : leftOut (ofNodes .keep (Node.parse forwarding)).remarks = [] := of_decide_eq_true (by cbv)
  have hzones : (zoneWords (Node.statements (Node.parse forwarding))).all
      (fun s => decide (s.value.words.length ≤ 1)) = true := by cbv
  have hne : (optionWords (Node.statements (Node.parse forwarding)) ++
      zoneWords (Node.statements (Node.parse forwarding))).all
        (fun s => decide (s.value ≠ [])) = true := by cbv
  simp only [List.all_eq_true, decide_eq_true_eq] at hzones hne
  obtain ⟨-, -, -, -, hcomplete⟩ := ofNodes_unreported h
  refine ⟨h, hcomplete.mpr ⟨fun k hk => ?_, hzones, hne⟩⟩
  cases k <;> first | exact absurd hk Bool.false_ne_true | exact of_decide_eq_true (by cbv)

/-- A zone with one word too many. -/
def furtherWord : Text := "zone \"z\" \x7b forward only first; \x7d;\n"

/-- Two options blocks, of which only the last is read. -/
def optionsTwice : Text := "options \x7b directory \"a\"; \x7d;\noptions \x7b recursion yes; \x7d;\n"

/-- Nothing is reported, but something is lost. -/
theorem ofNodes_unreported_ne :
    (leftOut (ofNodes .keep (Node.parse furtherWord)).remarks = [] ∧
      ∃ s ∈ zoneWords (Node.statements (Node.parse furtherWord)), s.value.words.length ≠ 1) ∧
    leftOut (ofNodes .keep (Node.parse optionsTwice)).remarks = [] ∧
      (withKeyword .options (Node.statements (Node.parse optionsTwice))).length ≠
        (ofNodes .keep (Node.parse optionsTwice)).value.count .options := by
  have hlengths : (zoneWords (Node.statements (Node.parse furtherWord))).map
      (fun s => s.value.words.length) = [2] := by cbv
  obtain ⟨s, hs, hlength⟩ := List.mem_map.mp (hlengths ▸ List.mem_singleton_self 2)
  exact ⟨⟨of_decide_eq_true (by cbv), s, hs, hlength ▸ by decide⟩, of_decide_eq_true (by cbv),
    of_decide_eq_true (by cbv)⟩

end Config

end NameServerConf
