import NameServerConf.Config.Basic
import NameServerConf.Proofs.Finished
import NameServerConf.Proofs.Spelling

/-!
# What reading sees to

A configuration that was read from a finished text is checked: `Config.checked_addAll`.

**Clauses and match lists.**  A clause keeps what all clauses of its table keep
(`readClauses_invariant`).  Quotation marks do not change whether a text looks like an address, so
reading a term checks it.

**Members.**  What each member of a table keeps, and what keeping an unknown statement keeps, is kept
by the block as a whole (`readMembers_invariant`).  A member of a **steady** table declines a statement
for its value and not for what the block says already, so a statement that was kept would be kept
again.
-/

namespace NameServerConf

namespace Noted

variable {α β : Type}

lemma value_mapM (f : α → Noted β) (l : List α) :
    (l.mapM f).value = l.map fun a => (f a).value := by
  induction l with
  | nil => rfl
  | cons a l ih =>
      rw [List.mapM_cons, List.map_cons, ← ih]
      rfl

lemma forall_mem_value_mapM {P : β → Prop} {f : α → Noted β} (h : ∀ a, P (f a).value) (l : List α) :
    ∀ b ∈ (l.mapM f).value, P b := by
  rw [value_mapM]
  exact List.forall_mem_map.mpr fun a _ => h a

end Noted

open Text

/-! ## Clauses and numbers -/

lemma Text.fitsInt32_readInt? (s : Text) : fitsInt32 s.readInt? = true := by
  have hword : ∀ w : Text, fitsInt32 (wordInt? w) = true := by
    intro w
    rw [wordInt?]
    split
    split
    next negative digits _ h =>
      rw [Bool.and_eq_true] at h
      exact h.2
    next => rfl
  rw [readInt?]
  cases (words s).head? with
  | none => rfl
  | some w => exact hword w

lemma Text.inInt32_readInt?_getD (s : Text) : inInt32 (s.readInt?.getD 0) = true := by
  have h := fitsInt32_readInt? s
  cases hn : s.readInt? with
  | none => rfl
  | some n =>
      rw [hn] at h
      exact h

/-- What each clause keeps, all of them keep. -/
lemma readClauses_invariant {α : Type} {P : α → Prop} {table : List (Clause α)}
    {stray : Text → Noted Unit} (htable : ∀ c ∈ table, ∀ arg a, P a → P (c.read arg a).value)
    (tokens : List Text) {a : α} (ha : P a) : P (readClauses table stray tokens a).value := by
  fun_induction readClauses table stray tokens a with
  | case1 a => exact ha
  | case2 word a => exact ha
  | case3 word arg rest a clause hfind ih =>
      exact ih _ (htable clause (List.mem_of_find?_eq_some hfind) arg a ha)
  | case4 word arg rest a hfind ih => exact ih ha

/-! ## Match lists -/

namespace MatchTerm

lemma looksLikeAddress_strip {p : UInt8 → Bool}
    (hp : p Byte.slash = false ∧ p Byte.colon = false ∧ p Byte.dot = false) (s : Text) :
    looksLikeAddress (strip p s) = looksLikeAddress s := by
  have hdrop : ∀ (b : UInt8) (t : Text), p b = false → (t.dropWhile p).count b = t.count b := by
    intro b t hb
    have htake : (t.takeWhile p).count b = 0 := by
      refine List.count_eq_zero_of_not_mem fun hmem => ?_
      rw [List.mem_takeWhile_imp hmem] at hb
      cases hb
    calc (t.dropWhile p).count b
      _ = (t.takeWhile p).count b + (t.dropWhile p).count b := by rw [htake, Nat.zero_add]
      _ = t.count b := by rw [← List.count_append, List.takeWhile_append_dropWhile]
  have hcount : ∀ b : UInt8, p b = false → (strip p s).count b = s.count b := by
    intro b hb
    rw [strip, dropRight, List.count_reverse, hdrop b _ hb, List.count_reverse, hdrop b _ hb]
  have hslash : (strip p s).contains Byte.slash = s.contains Byte.slash := by
    rw [Bool.eq_iff_iff, List.contains_iff_mem, List.contains_iff_mem, ← List.count_pos_iff,
      ← List.count_pos_iff, hcount _ hp.1]
  rw [looksLikeAddress, looksLikeAddress, hslash, hcount _ hp.2.1, hcount _ hp.2.2]

/-- Quotation marks and blanks do not make an address of a text. -/
lemma looksLikeAddress_unquote (s : Text) : looksLikeAddress s.unquote = looksLikeAddress s := by
  rw [unquote, looksLikeAddress_strip (by decide), trim, looksLikeAddress_strip (by decide)]

mutual

lemma isChecked_read (segment : Text) : (read segment).value.isChecked = true := by
  rw [read]
  split
  next => rfl
  next =>
    split
    next inner h => exact areChecked_readParts _ _
    next => rfl
    next =>
      split
      next haddress => exact haddress
      -- the name was looked at with its quotation marks and is kept without them
      next haddress =>
        show (!looksLikeAddress (unquote _)) = true
        rw [looksLikeAddress_unquote, Bool.not_eq_true']
        exact Bool.eq_false_of_not_eq_true haddress
termination_by (segment.length, 0)
decreasing_by exact Prod.Lex.left _ _ (totalLength_parts_lt ‹_›)

/-- **The terms of a list** are checked when they are read. -/
lemma areChecked_readParts (list : Text) (parts : List Text) :
    areChecked (readParts list parts).value = true := by
  match parts with
  | [] => rw [readParts]; rfl
  | part :: rest =>
      rw [readParts]
      split
      next => exact areChecked_readParts list rest
      next =>
        show (_ && _) = true
        rw [isChecked_read part, areChecked_readParts list rest, Bool.and_self]
termination_by (totalLength parts, parts.length + 1)
decreasing_by
  all_goals
    simp only [totalLength, List.length_cons, Prod.lex_def]
    omega

end

lemma areChecked_readList (s : Text) : areChecked (readList s).value = true :=
  areChecked_readParts _ _

end MatchTerm

/-! ## Values -/

lemma Listen.checked_read (s : Text) : (Listen.read s).value.Checked := by
  refine readClauses_invariant (P := Checked) ?_ _ ⟨rfl, MatchTerm.areChecked_readList _⟩
  simp only [clauses, List.forall_mem_cons, List.not_mem_nil, false_implies, implies_true, and_true]
  exact ⟨fun arg _ h => ⟨fitsInt32_readInt? arg, h.addrs⟩, fun _ _ h => ⟨h.port, h.addrs⟩,
    fun _ _ h => ⟨h.port, h.addrs⟩⟩

lemma Forwarder.checked_readList (s : Text) : ∀ f ∈ (readList s).value, f.Checked := by
  have hentry : ∀ entry : Text, (ofTokens entry entry.tokens).value.Checked := by
    intro entry
    cases entry.tokens with
    | nil => rfl
    | cons address rest =>
        refine readClauses_invariant (P := Checked) ?_ rest rfl
        simp only [clauses, List.forall_mem_cons, List.not_mem_nil, false_implies, implies_true,
          and_true]
        exact ⟨fun arg _ _ => fitsInt32_readInt? arg, fun _ _ h => h⟩
  rw [readList]
  dsimp only
  split <;> exact Noted.forall_mem_value_mapM hentry _

namespace RemoteServer

lemma checked_read (s : Text) : (read s).value.Checked := by
  rw [read]
  cases s.tokens with
  | nil => rfl
  | cons address rest =>
      refine readClauses_invariant (P := Checked) ?_ rest rfl
      simp only [clauses, List.forall_mem_cons, List.not_mem_nil, false_implies, implies_true,
        and_true]
      exact ⟨fun arg _ _ => fitsInt32_readInt? arg, fun _ _ h => h, fun _ _ h => h⟩

lemma checked_readList (s : Text) : ∀ r ∈ (readList s).value, r.Checked :=
  Noted.forall_mem_value_mapM checked_read _

end RemoteServer

lemma InetChannel.checked_read (s : Text) : (InetChannel.read s).value.Checked := by
  rw [InetChannel.read]
  cases channelTokens "inet" s with
  | nil => exact ⟨rfl, rfl⟩
  | cons address rest =>
      refine readClauses_invariant (P := Checked) ?_ rest ⟨rfl, rfl⟩
      simp only [clauses, List.forall_mem_cons, List.not_mem_nil, false_implies, implies_true,
        and_true]
      exact ⟨fun arg _ h => ⟨fitsInt32_readInt? arg, h.allow⟩,
        fun arg _ h => ⟨h.port, MatchTerm.areChecked_readList arg⟩, fun _ _ h => ⟨h.port, h.allow⟩,
        fun _ _ h => ⟨h.port, h.allow⟩⟩

lemma UnixChannel.checked_read (s : Text) : (UnixChannel.read s).value.Checked := by
  rw [UnixChannel.read]
  cases channelTokens "unix" s with
  | nil => exact ⟨rfl, rfl, rfl⟩
  | cons path rest =>
      refine readClauses_invariant (P := Checked) ?_ rest ⟨rfl, rfl, rfl⟩
      simp only [clauses, List.forall_mem_cons, List.not_mem_nil, false_implies, implies_true,
        and_true]
      exact ⟨fun arg _ h => ⟨inInt32_readInt?_getD arg, h.owner, h.group⟩,
        fun arg _ h => ⟨h.perm, inInt32_readInt?_getD arg, h.group⟩,
        fun arg _ h => ⟨h.perm, h.owner, inInt32_readInt?_getD arg⟩,
        fun _ _ h => ⟨h.perm, h.owner, h.group⟩, fun _ _ h => ⟨h.perm, h.owner, h.group⟩⟩

lemma TrustAnchor.checked_read? (s : Text) : ∀ a ∈ (TrustAnchor.read? s).value, a.Checked := by
  intro a ha
  rw [TrustAnchor.read?] at ha
  split at ha
  next => cases ha
  next t _ =>
    dsimp only at ha
    split at ha
    next => cases ha
    next word words hwords =>
      split at ha
      next kind hkind =>
        obtain rfl := Option.some.inj ha
        rw [Checked, firstWord, hwords]
        exact hkind
      next => cases ha

/-! ## Members -/

section Members

variable {β : Type}

namespace Member

/-- What a member makes of a finished statement keeps the condition. -/
def Keeps (P : β → Prop) (m : Member β) : Prop :=
  ∀ ⦃s : Statement⦄, s.Finished → ∀ ⦃b : β⦄ ⦃n : Noted β⦄, m.read? s b = some n → P b → P n.value

/-- What the member declines for its value when the block is `b`, it declines when the block is
    `c`. -/
def StaysDeclined (b c : β) (m : Member β) : Prop :=
  ∀ ⦃s t : Statement⦄, s.value = t.value → m.read? s b = none → m.read? t c = none

section Constructors

variable {P : β → Prop} {keyword : Text}

lemma keeps_all {read : Statement → β → Noted β}
    (h : ∀ s : Statement, s.Finished → ∀ b, P b → P (read s b).value) :
    (all keyword read).Keeps P := by
  intro s hs b n hn hb
  obtain rfl := Option.some.inj hn
  exact h s hs b hb

lemma keeps_string {put : Text → β → β} (h : ∀ t b, P b → P (put t b)) :
    (string keyword put).Keeps P :=
  keeps_all fun _ _ _ hb => h _ _ hb

lemma keeps_noted {α : Type} {read : Text → Noted α} {put : α → β → β}
    (h : ∀ t b, P b → P (put (read t).value b)) : (noted keyword read put).Keeps P :=
  keeps_all fun _ _ _ hb => h _ _ hb

lemma keeps_value? {α : Type} {read : Text → Option α} {put : α → β → β}
    (h : ∀ t, ∀ a ∈ read t, ∀ b, P b → P (put a b)) : (value? keyword read put).Keeps P := by
  intro s _ b n hn hb
  obtain ⟨a, ha, rfl⟩ := Option.map_eq_some_iff.mp hn
  exact h _ a ha b hb

lemma keeps_yesNo {put : Bool → β → β} (h : ∀ x b, P b → P (put x b)) :
    (yesNo keyword put).Keeps P :=
  keeps_value? fun _ x _ b hb => h x b hb

lemma keeps_number {put : Int → β → β} (h : ∀ n b, inInt32 n = true → P b → P (put n b)) :
    (number keyword put).Keeps P := by
  refine keeps_value? fun t n hn b hb => h n b ?_ hb
  have hfits := fitsInt32_readInt? t
  rw [Option.mem_def.mp hn] at hfits
  exact hfits

lemma keeps_braced {α : Type} {read : Text → Noted α} {put : α → β → β}
    (h : ∀ t b, P b → P (put (read t).value b)) : (braced keyword read put).Keeps P := by
  intro s _ b n hn hb
  change (if isBraced s.value = true then some _ else none) = some n at hn
  split at hn
  · obtain rfl := Option.some.inj hn
    exact h _ _ hb
  · cases hn

variable {b c : β}

@[simp] lemma staysDeclined_all (read : Statement → β → Noted β) :
    (all keyword read).StaysDeclined b c :=
  fun _ _ _ h => by cases h

@[simp] lemma staysDeclined_string (put : Text → β → β) :
    (string keyword put).StaysDeclined b c := staysDeclined_all _

@[simp] lemma staysDeclined_noted {α : Type} (read : Text → Noted α) (put : α → β → β) :
    (noted keyword read put).StaysDeclined b c := staysDeclined_all _

@[simp] lemma staysDeclined_value? {α : Type} (read : Text → Option α) (put : α → β → β) :
    (value? keyword read put).StaysDeclined b c := by
  intro s t hst h
  rw [value?, Option.map_eq_none_iff] at h ⊢
  rwa [← hst]

@[simp] lemma staysDeclined_yesNo (put : Bool → β → β) :
    (yesNo keyword put).StaysDeclined b c := staysDeclined_value? ..

@[simp] lemma staysDeclined_number (put : Int → β → β) :
    (number keyword put).StaysDeclined b c := staysDeclined_value? ..

@[simp] lemma staysDeclined_braced {α : Type} (read : Text → Noted α) (put : α → β → β) :
    (braced keyword read put).StaysDeclined b c := by
  intro s t hst h
  simp only [braced, ite_eq_right_iff, reduceCtorEq, imp_false] at h ⊢
  rwa [← hst]

end Constructors

end Member

variable {P : β → Prop} {table : List (Member β)}

lemma take?_eq_none_of_staysDeclined {b c : β} (htable : ∀ m ∈ table, m.StaysDeclined b c)
    {s t : Statement} (hkeyword : s.keyword = t.keyword) (hvalue : s.value = t.value)
    (h : Member.take? table s b = none) : Member.take? table t c = none := by
  rw [Member.take?, List.findSome?_eq_none_iff] at h ⊢
  intro m hm
  have hdeclined := h m hm
  rw [← hkeyword]
  split at hdeclined
  next hword => rw [if_pos hword, htable m hm hvalue hdeclined]
  next hword => rw [if_neg hword]

/-- **A block** keeps what its members keep, and what is done with the statements that they decline. -/
theorem readMembers_invariant {other : Statement → β → Noted β} (htable : ∀ m ∈ table, m.Keeps P)
    (hother : ∀ s : Statement, s.Finished → ∀ b, Member.take? table s b = none → P b →
      P (other s b).value) {ss : List Statement} (hss : ∀ s ∈ ss, s.Finished) {b : β} (hb : P b) :
    P (readMembers table other ss b).value := by
  -- the invariant is for every block: the statement that is read next changes it
  induction ss generalizing b with
  | nil => exact hb
  | cons s ss ih =>
      have hs := hss s (List.mem_cons_self ..)
      refine ih (fun t ht => hss t (List.mem_cons_of_mem _ ht)) ?_
      cases htake : Member.take? table s b with
      | none => exact hother s hs b htake hb
      | some n =>
          obtain ⟨m, hm, hread⟩ := List.exists_of_findSome?_eq_some htake
          split at hread
          · exact htable m hm hs hread hb
          · cases hread

/-- A statement that is declined is kept as one that is declined. -/
lemma OtherOption.kept_of_declined {b c : β} (htable : ∀ m ∈ table, m.StaysDeclined b c)
    {s : Statement} (hs : s.Finished) (h : Member.take? table s b = none) :
    OtherOption.Kept table c ⟨s.keyword, s.value⟩ := by
  have hvalue := hs.value.normalize_eq (Or.inl rfl)
  rw [List.append_nil] at hvalue
  exact ⟨hs.keyword, hs.value, take?_eq_none_of_staysDeclined htable (s := s)
    (t := OtherOption.statement ⟨s.keyword, s.value⟩) rfl hvalue.symm h⟩

/-- A block with a steady table keeps statements that would be kept again. -/
theorem readMembers_keep {place : Place} {put : OtherOption → β → β}
    (hsteady : ∀ m ∈ table, ∀ b c, m.StaysDeclined b c) (htable : ∀ m ∈ table, m.Keeps P)
    (hput : ∀ o b, (∀ c, o.Kept table c) → P b → P (put o b)) {s : Statement} (hs : s.Finished)
    {b : β} (hb : P b) :
    P (readMembers table (Unknown.keep.handle place put) s.children b).value :=
  readMembers_invariant htable
    (fun _ ht b hnone hb => hput _ b
      (fun c => OtherOption.kept_of_declined (fun m hm => hsteady m hm b c) ht hnone) hb)
    (fun _ ht => hs.children ht) hb

end Members

namespace OtherOption

variable {β : Type} {table : List (Member β)} {os : List OtherOption}

lemma allKept_nil : AllKept table [] := fun _ h => absurd h List.not_mem_nil

lemma AllKept.concat (h : AllKept table os) {o : OtherOption} (ho : ∀ b, o.Kept table b) :
    AllKept table (os ++ [o]) :=
  List.forall_mem_append.mpr ⟨h, List.forall_mem_singleton.mpr ho⟩

end OtherOption

/-! ## Entities -/

section Entities

open Member OtherOption

variable {s : Statement}

lemma Acl.checked_ofStatement (s : Statement) : (Acl.ofStatement s).value.Checked :=
  MatchTerm.areChecked_readList _

lemma Key.checked_ofStatement (hs : s.Finished) : (Key.ofStatement .keep s).value.Checked := by
  refine readMembers_keep (P := Checked) (by simp [members]) ?_ ?_ hs allKept_nil
  · simp only [members, List.forall_mem_cons, List.not_mem_nil, false_implies, implies_true, and_true]
    exact ⟨keeps_string fun _ _ h => h, keeps_string fun _ _ h => h⟩
  · exact fun o _ ho h => h.concat ho

lemma KeyStore.checked_ofStatement (hs : s.Finished) :
    (KeyStore.ofStatement .keep s).value.Checked := by
  refine readMembers_keep (P := Checked) (by simp [members]) ?_ ?_ hs allKept_nil
  · simp only [members, List.forall_mem_cons, List.not_mem_nil, false_implies, implies_true, and_true]
    exact keeps_string fun _ _ h => h
  · exact fun o _ ho h => h.concat ho

lemma ServerGroup.checked_ofStatement (s : Statement) : (ServerGroup.ofStatement s).value.Checked := by
  refine ⟨?_, Noted.forall_mem_value_mapM (fun child => RemoteServer.checked_read _) _⟩
  refine readClauses_invariant (P := fun port => fitsInt32 port = true) ?_ _ rfl
  exact List.forall_mem_singleton.mpr fun arg _ _ => fitsInt32_readInt? arg

lemma TlsProfile.checked_ofStatement (hs : s.Finished) :
    (TlsProfile.ofStatement .keep s).value.Checked := by
  refine readMembers_keep (P := Checked) (by simp [members]) ?_ ?_ hs allKept_nil
  · simp only [members, List.forall_mem_cons, List.not_mem_nil, false_implies, implies_true, and_true]
    exact ⟨keeps_string fun _ _ h => h, keeps_string fun _ _ h => h, keeps_string fun _ _ h => h,
      keeps_string fun _ _ h => h, keeps_string fun _ _ h => h, keeps_string fun _ _ h => h,
      keeps_yesNo fun _ _ h => h, keeps_all fun _ _ _ h => h, keeps_string fun _ _ h => h,
      keeps_yesNo fun _ _ h => h⟩
  · exact fun o _ ho h => h.concat ho

lemma HttpProfile.checked_ofStatement (hs : s.Finished) :
    (HttpProfile.ofStatement .keep s).value.Checked := by
  refine readMembers_keep (P := Checked) (by simp [members]) ?_ ?_ hs ⟨rfl, rfl, allKept_nil⟩
  · simp only [members, List.forall_mem_cons, List.not_mem_nil, false_implies, implies_true, and_true]
    exact ⟨keeps_all fun _ _ _ h => ⟨h.listenerClients, h.streamsPerConnection, h.other⟩,
      keeps_number fun _ _ hn h => ⟨hn, h.streamsPerConnection, h.other⟩,
      keeps_number fun _ _ hn h => ⟨h.listenerClients, hn, h.other⟩⟩
  · exact fun o _ ho h => ⟨h.listenerClients, h.streamsPerConnection, h.other.concat ho⟩

lemma forall_mem_concat {α : Type} {p : α → Prop} {l : List α} (h : ∀ a ∈ l, p a) {a : α}
    (ha : p a) : ∀ b ∈ l ++ [a], p b :=
  List.forall_mem_append.mpr ⟨h, List.forall_mem_singleton.mpr ha⟩

lemma Controls.checked_ofStatement (hs : s.Finished) :
    (Controls.ofStatement .keep s).value.Checked := by
  refine readMembers_keep (P := Checked) (by simp [members]) ?_ ?_ hs
    ⟨List.forall_mem_nil _, List.forall_mem_nil _, allKept_nil⟩
  · simp only [members, List.forall_mem_cons, List.not_mem_nil, false_implies, implies_true, and_true]
    exact ⟨keeps_all fun _ _ _ h =>
        ⟨forall_mem_concat h.inetChannels (InetChannel.checked_read _), h.unixChannels, h.other⟩,
      keeps_all fun _ _ _ h =>
        ⟨h.inetChannels, forall_mem_concat h.unixChannels (UnixChannel.checked_read _), h.other⟩⟩
  · exact fun o _ ho h => ⟨h.inetChannels, h.unixChannels, h.other.concat ho⟩

namespace LogChannel

lemma staysDeclined_destinationMember (keyword : Text)
    (read : Place → Text → Noted LogDestination) (b c : LogChannel) :
    (destinationMember keyword read).StaysDeclined b c := staysDeclined_all _

lemma keeps_destinationMember (keyword : Text) (read : Place → Text → Noted LogDestination) :
    (destinationMember keyword read).Keeps Checked := by
  refine keeps_all fun s _ c h => ?_
  dsimp only
  split <;> exact ⟨h.severity, h.other⟩

lemma checked_ofStatement (hs : s.Finished) : (LogChannel.ofStatement .keep s).value.Checked := by
  refine readMembers_keep (P := Checked) (by simp [members, staysDeclined_destinationMember]) ?_ ?_ hs
    ⟨isTail_nil, allKept_nil⟩
  · simp only [members, List.forall_mem_cons, keeps_destinationMember, List.not_mem_nil,
      false_implies, implies_true, true_and, and_true]
    exact ⟨keeps_all fun _ hs _ h => ⟨hs.value, h.other⟩,
      keeps_yesNo fun _ _ h => ⟨h.severity, h.other⟩, keeps_yesNo fun _ _ h => ⟨h.severity, h.other⟩,
      keeps_yesNo fun _ _ h => ⟨h.severity, h.other⟩, keeps_yesNo fun _ _ h => ⟨h.severity, h.other⟩⟩
  · exact fun o _ ho h => ⟨h.severity, h.other.concat ho⟩

end LogChannel

lemma Logging.checked_ofStatement (hs : s.Finished) :
    (Logging.ofStatement .keep s).value.Checked := by
  refine readMembers_keep (P := Checked) (by simp [members]) ?_ ?_ hs
    ⟨List.forall_mem_nil _, allKept_nil⟩
  · simp only [members, List.forall_mem_cons, List.not_mem_nil, false_implies, implies_true, and_true]
    exact ⟨keeps_all fun _ hs _ h =>
        ⟨forall_mem_concat h.channels (LogChannel.checked_ofStatement hs), h.other⟩,
      keeps_all fun _ _ _ h => ⟨h.channels, h.other⟩⟩
  · exact fun o _ ho h => ⟨h.channels, h.other.concat ho⟩

lemma forall_mem_none {α : Type} (p : α → Prop) : ∀ a ∈ (none : Option α), p a :=
  fun _ h => by cases h

lemma forall_mem_some {α : Type} {p : α → Prop} {a : α} (h : p a) : ∀ b ∈ some a, p b :=
  fun _ hb => Option.mem_some_iff.mp hb ▸ h

namespace Options

lemma staysDeclined_listenMember {o p : Options} {keyword : Text} {get : Options → Option Listen}
    {put : Listen → Options → Options} (h : (get o).isSome → (get p).isSome) :
    (listenMember keyword get put).StaysDeclined o p := by
  intro s t _ hdeclined
  simp only [listenMember, ite_eq_left_iff, reduceCtorEq, imp_false, not_not] at hdeclined ⊢
  exact h hdeclined

/-- What is declined stays so while more becomes known of where to listen. -/
lemma staysDeclined_members {o p : Options} (h4 : o.listenOn.isSome → p.listenOn.isSome)
    (h6 : o.listenOnV6.isSome → p.listenOnV6.isSome) : ∀ m ∈ members, m.StaysDeclined o p := by
  simp only [members, List.forall_mem_cons, staysDeclined_string, staysDeclined_yesNo,
    staysDeclined_noted, staysDeclined_braced, staysDeclined_all, List.not_mem_nil, false_implies,
    implies_true, true_and, and_true]
  exact ⟨staysDeclined_listenMember h4, staysDeclined_listenMember h6⟩

lemma kept_mono {o p : Options} (h4 : o.listenOn.isSome → p.listenOn.isSome)
    (h6 : o.listenOnV6.isSome → p.listenOnV6.isSome) {x : OtherOption} (h : x.Kept members o) :
    x.Kept members p :=
  ⟨h.name, h.raw, take?_eq_none_of_staysDeclined (staysDeclined_members h4 h6) rfl rfl h.free⟩

/-- Other settings leave the statements that were kept what they are. -/
lemma Checked.others {o p : Options} (h : o.Checked) (hother : p.other = o.other)
    (h4 : o.listenOn.isSome → p.listenOn.isSome) (h6 : o.listenOnV6.isSome → p.listenOnV6.isSome) :
    ∀ x ∈ p.other, x.Kept members p :=
  fun x hx => kept_mono h4 h6 (h.other x (hother ▸ hx))

lemma keeps_listenMember {keyword : Text} {get : Options → Option Listen}
    {put : Listen → Options → Options}
    (h : ∀ l o, l.Checked → o.Checked → (put l o).Checked) :
    (listenMember keyword get put).Keeps Checked := by
  intro s _ o n hn ho
  change (if (get o).isSome = true then none else some _) = some n at hn
  split at hn
  · cases hn
  · obtain rfl := Option.some.inj hn
    exact h _ o (Listen.checked_read _) ho

lemma checked_ofStatement (hs : s.Finished) : (Options.ofStatement s).value.Checked := by
  refine readMembers_invariant (P := Checked) ?_ ?_ (fun t ht => hs.children ht)
    ⟨forall_mem_none _, forall_mem_none _, forall_mem_none _, forall_mem_none _,
      forall_mem_none _, forall_mem_none _, List.forall_mem_nil _⟩
  · have hlist := MatchTerm.areChecked_readList
    simp only [members, List.forall_mem_cons, List.not_mem_nil, false_implies, implies_true, and_true]
    -- what was kept is kept for the settings as they are now, so each change has to see to it
    exact ⟨keeps_string fun _ _ h => { h with other := h.others rfl id id },
      keeps_yesNo fun _ _ h => { h with other := h.others rfl id id },
      keeps_noted fun t _ h =>
        { h with allowQuery := forall_mem_some (hlist t), other := h.others rfl id id },
      keeps_noted fun t _ h =>
        { h with allowTransfer := forall_mem_some (hlist t), other := h.others rfl id id },
      keeps_noted fun t _ h =>
        { h with allowUpdate := forall_mem_some (hlist t), other := h.others rfl id id },
      keeps_listenMember fun _ _ hl h =>
        { h with listenOn := forall_mem_some hl, other := h.others rfl (fun _ => rfl) id },
      keeps_listenMember fun _ _ hl h =>
        { h with listenOnV6 := forall_mem_some hl, other := h.others rfl id fun _ => rfl },
      keeps_braced fun t _ h =>
        { h with
          forwarders := forall_mem_some (Forwarder.checked_readList t)
          other := h.others rfl id id },
      keeps_all fun _ _ _ h => { h with other := h.others rfl id id },
      keeps_all fun _ _ _ h => { h with other := h.others rfl id id },
      keeps_noted fun _ _ h => { h with other := h.others rfl id id }⟩
  · intro t ht o hnone h
    have hkept : OtherOption.Kept members o ⟨t.keyword, t.value⟩ :=
      kept_of_declined (staysDeclined_members id id) ht hnone
    exact { h with
      other := fun x hx => kept_mono (o := o) (p := { o with other := o.other ++ [_] }) id id
        (forall_mem_concat h.other hkept x hx) }

end Options

lemma TrustAnchors.checked_ofStatement (s : Statement) :
    (TrustAnchors.ofStatement s).value.Checked := by
  have hitems : ∀ ss : List Statement, ∀ a ∈ (readItems ss).value, a.Checked := by
    intro ss
    induction ss with
    | nil => exact List.forall_mem_nil _
    | cons s ss ih =>
        have hs := TrustAnchor.checked_read? s.text
        rw [readItems]
        intro a ha
        rw [Noted.value_bind] at ha
        split at ha
        next anchor hanchor =>
          rcases List.mem_cons.mp ha with rfl | ha
          · exact hs a hanchor
          · exact ih a ha
        next => exact ih a ha
  exact hitems s.children

lemma Text.isOptionalClass_headerClass (header : Text) :
    (headerClass header).isOptionalClass = true := by
  rw [headerClass]
  split
  next => split <;> simp_all [isOptionalClass]
  next => split <;> (try split) <;> simp_all [isOptionalClass]

lemma Zone.checked_ofStatement (hs : s.Finished) : (Zone.ofStatement .keep s).value.Checked := by
  refine readMembers_keep (P := Checked) (by simp [members]) ?_ ?_ hs
    ⟨isOptionalClass_headerClass _, trivial, forall_mem_none _, forall_mem_none _, forall_mem_none _,
      forall_mem_none _, allKept_nil⟩
  · have hlist := MatchTerm.areChecked_readList
    simp only [members, List.forall_mem_cons, List.not_mem_nil, false_implies, implies_true, and_true]
    exact ⟨keeps_value? fun _ _ _ _ h => { h with other := h.other },
      keeps_string fun _ _ h => { h with other := h.other },
      keeps_braced fun t _ h => { h with primaries := RemoteServer.checked_readList t },
      keeps_value? fun _ _ _ _ h => { h with primaries := trivial },
      keeps_braced fun t _ h =>
        { h with forwarders := forall_mem_some (Forwarder.checked_readList t) },
      keeps_all fun _ _ _ h => { h with other := h.other },
      keeps_noted fun t _ h => { h with allowUpdate := forall_mem_some (hlist t) },
      keeps_noted fun t _ h => { h with allowTransfer := forall_mem_some (hlist t) },
      keeps_braced fun t _ h =>
        { h with alsoNotify := forall_mem_some (RemoteServer.checked_readList t) },
      keeps_string fun _ _ h => { h with other := h.other }⟩
  · exact fun o _ ho h => { h with other := h.other.concat ho }

lemma View.checked_ofStatement (hs : s.Finished) : (View.ofStatement .keep s).value.Checked := by
  refine readMembers_keep (P := Checked) (by simp [members]) ?_ ?_ hs
    ⟨isOptionalClass_headerClass _, forall_mem_none _, forall_mem_none _, forall_mem_none _,
      List.forall_mem_nil _, allKept_nil⟩
  · have hlist := MatchTerm.areChecked_readList
    simp only [members, List.forall_mem_cons, List.not_mem_nil, false_implies, implies_true, and_true]
    exact ⟨keeps_noted fun t _ h => { h with matchClients := forall_mem_some (hlist t) },
      keeps_noted fun t _ h => { h with matchDestinations := forall_mem_some (hlist t) },
      keeps_yesNo fun _ _ h => { h with other := h.other },
      keeps_all fun t _ _ h =>
        { h with trustAnchors := forall_mem_some (TrustAnchors.checked_ofStatement t) },
      keeps_all fun _ ht _ h =>
        { h with zones := forall_mem_concat h.zones (Zone.checked_ofStatement ht) },
      keeps_all fun _ _ _ h => { h with other := h.other }⟩
  · exact fun o _ ho h => { h with other := h.other.concat ho }

end Entities

/-! ## Configurations -/

namespace Config

lemma checked_empty : empty.Checked :=
  ⟨List.forall_mem_nil _, List.forall_mem_nil _, List.forall_mem_nil _, List.forall_mem_nil _,
    List.forall_mem_nil _, List.forall_mem_nil _, forall_mem_none _, forall_mem_none _,
    forall_mem_none _, List.forall_mem_nil _, List.forall_mem_nil _, List.forall_mem_nil _⟩

/-- What a finished statement adds is checked. -/
lemma checked_add {s : Statement} (hs : s.Finished) {c : Config} (h : c.Checked) (k : Keyword) :
    (c.add .keep s k).value.Checked := by
  cases k with
  | «include» => exact { h with acls := h.acls }
  | acl => exact { h with acls := forall_mem_concat h.acls (Acl.checked_ofStatement s) }
  | key => exact { h with keys := forall_mem_concat h.keys (Key.checked_ofStatement hs) }
  | keyStore =>
      exact { h with keyStores := forall_mem_concat h.keyStores (KeyStore.checked_ofStatement hs) }
  | remoteServers =>
      exact { h with
        remoteServers := forall_mem_concat h.remoteServers (ServerGroup.checked_ofStatement s) }
  | tls => exact { h with tls := forall_mem_concat h.tls (TlsProfile.checked_ofStatement hs) }
  | http => exact { h with http := forall_mem_concat h.http (HttpProfile.checked_ofStatement hs) }
  | controls => exact { h with controls := forall_mem_some (Controls.checked_ofStatement hs) }
  | logging => exact { h with logging := forall_mem_some (Logging.checked_ofStatement hs) }
  | options => exact { h with options := forall_mem_some (Options.checked_ofStatement hs) }
  | trustAnchors =>
      exact { h with
        trustAnchors := forall_mem_concat h.trustAnchors (TrustAnchors.checked_ofStatement s) }
  | view => exact { h with views := forall_mem_concat h.views (View.checked_ofStatement hs) }
  | zone => exact { h with zones := forall_mem_concat h.zones (Zone.checked_ofStatement hs) }

lemma checked_addAll {ss : List Statement} (hss : ∀ s ∈ ss, s.Finished) {c : Config}
    (h : c.Checked) : (addAll .keep ss c).value.Checked := by
  induction ss generalizing c with
  | nil => exact h
  | cons s ss ih =>
      have hrest := fun t ht => hss t (List.mem_cons_of_mem s ht)
      rw [addAll]
      cases Keyword.ofWord? s.keyword with
      | none => exact ih hrest h
      | some k => exact ih hrest (checked_add (hss s (List.mem_cons_self ..)) h k)

/-- **A configuration read from a closed text** is checked. -/
theorem checked_ofNodes {t : Text} (ht : t.isClosed = true) :
    (ofNodes .keep (Node.parse t)).value.Checked := by
  rw [Text.isClosed, Bool.and_eq_true] at ht
  have hchecked := checked_addAll (c := empty) (fun s hs => Node.finished_of_mem_statements
    (fun p hp => Node.isFinished_of_mem_pieces ht.1 hp) hs) checked_empty
  rw [ofNodes, countLeftOut]
  split <;> exact hchecked

end Config

end NameServerConf
