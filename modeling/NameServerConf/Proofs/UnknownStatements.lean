import Mathlib
import NameServerConf.Proofs.Collected

/-!
# Unknown statements, kept or reported

A file can be read in two ways: unknown statements inside blocks are kept, or they are reported.

**Two readings.**  `Parted` relates what both make of the same statements: with what was kept taken
away the values are the same, and each statement that was kept is one report more.  Members of a block
that do not touch what is kept part so, a block does if its members do (`readMembers_parted`), and so
does each entity.

**Files.**  Controls and logging blocks may be there more than once.  The last of them counts, and what
an earlier one kept is then neither in the configuration nor reported; that, and nothing else, is
missing from the sum (`Config.ofNodes_report`, `Config.ofNodes_report_ne`).
-/

namespace NameServerConf

/-! ## Without what was kept -/

/-- A key without unknown statements. -/
def Key.withoutOther (k : Key) : Key := { k with other := [] }

/-- A key store without unknown statements. -/
def KeyStore.withoutOther (k : KeyStore) : KeyStore := { k with other := [] }

/-- A TLS profile without unknown statements. -/
def TlsProfile.withoutOther (p : TlsProfile) : TlsProfile := { p with other := [] }

/-- An HTTP profile without unknown statements. -/
def HttpProfile.withoutOther (p : HttpProfile) : HttpProfile := { p with other := [] }

/-- Control channels without unknown statements. -/
def Controls.withoutOther (c : Controls) : Controls := { c with other := [] }

/-- A channel without unknown statements. -/
def LogChannel.withoutOther (c : LogChannel) : LogChannel := { c with other := [] }

/-- Channels and categories without unknown statements, those of the channels included. -/
def Logging.withoutOther (l : Logging) : Logging :=
  { l with channels := l.channels.map LogChannel.withoutOther, other := [] }

/-- How many unknown statements are kept in all. -/
def Logging.otherCount (l : Logging) : ℕ :=
  l.other.length + (l.channels.map (·.other.length)).sum

/-- A zone without unknown statements. -/
def Zone.withoutOther (z : Zone) : Zone := { z with other := [] }

/-- A view without unknown statements, those of its zones included. -/
def View.withoutOther (v : View) : View :=
  { v with zones := v.zones.map Zone.withoutOther, other := [] }

/-- How many unknown statements are kept in all. -/
def View.otherCount (v : View) : ℕ := v.other.length + (v.zones.map (·.other.length)).sum

namespace Config

/-- A configuration without unknown statements, except for those among the settings of the server. -/
def withoutOther (c : Config) : Config :=
  { c with
    keys := c.keys.map Key.withoutOther
    keyStores := c.keyStores.map KeyStore.withoutOther
    tls := c.tls.map TlsProfile.withoutOther
    http := c.http.map HttpProfile.withoutOther
    controls := c.controls.map Controls.withoutOther
    logging := c.logging.map Logging.withoutOther
    views := c.views.map View.withoutOther
    zones := c.zones.map Zone.withoutOther }

/-- How many unknown statements are kept in all, except for those among the settings of the server. -/
def otherCount (c : Config) : ℕ :=
  (c.keys.map (·.other.length)).sum + (c.keyStores.map (·.other.length)).sum +
    (c.tls.map (·.other.length)).sum + (c.http.map (·.other.length)).sum +
    (c.controls.elim 0 (·.other.length)) + (c.logging.elim 0 Logging.otherCount) +
    (c.views.map View.otherCount).sum + (c.zones.map (·.other.length)).sum

end Config

/-! ## Two readings -/

open Remark (leftOut leftOut_append)

variable {α β : Type} {strip : β → β} {count : β → ℕ}

/-- What two readings make of the block `b`: `kept` keeps unknown statements, `reported` reports
    them and begins without those that `b` has.  `strip` takes them away and `count` counts them. -/
structure Noted.Parted (strip : β → β) (count : β → ℕ) (b : β) (kept reported : Noted β) : Prop where
  value : reported.value = strip kept.value
  sublist : (leftOut kept.remarks).Sublist (leftOut reported.remarks)
  length : (leftOut reported.remarks).length + count b =
    (leftOut kept.remarks).length + count kept.value

namespace Noted.Parted

/-- Nothing was done. -/
lemma pure (b : β) : Parted strip count b (pure b) (pure (strip b)) where
  value := rfl
  sublist := .slnil
  length := rfl

/-- One reading goes on where the other does. -/
lemma bind {b : β} {m n : Noted β} {f g : β → Noted β} (h : Parted strip count b m n)
    (hfg : ∀ c, Parted strip count c (f c) (g (strip c))) :
    Parted strip count b (m >>= f) (n >>= g) := by
  have hnext := hfg m.value
  rw [← h.value] at hnext
  refine ⟨hnext.value, ?_, ?_⟩
  · rw [remarks_bind, remarks_bind, leftOut_append, leftOut_append]
    exact h.sublist.append hnext.sublist
  · rw [remarks_bind, remarks_bind, leftOut_append, leftOut_append, List.length_append,
      List.length_append]
    have h₁ := h.length
    have h₂ := hnext.length
    show _ = _ + count (f m.value).value
    omega

/-- What was read becomes part of something larger. -/
lemma into {γ : Type} {strip' : γ → γ} {count' : γ → ℕ} {b : β} {c : γ} {m n : Noted β}
    (h : Parted strip count b m n) (hzero : count b = 0) {put put' : β → γ}
    (hput : ∀ x, put' (strip x) = strip' (put x)) (hcount : ∀ x, count' (put x) = count' c + count x) :
    Parted strip' count' c (m >>= fun x => Pure.pure (put x)) (n >>= fun x => Pure.pure (put' x)) := by
  have hremarks : ∀ (n : Noted β) (f : β → γ), (n >>= fun x => Pure.pure (f x)).remarks = n.remarks :=
    fun n f => List.append_nil _
  refine ⟨?_, ?_, ?_⟩
  · rw [value_bind, h.value]
    exact hput _
  · rw [hremarks, hremarks]
    exact h.sublist
  · have hlength := h.length
    rw [hzero] at hlength
    rw [hremarks, hremarks, value_bind, value_pure, hcount]
    omega

end Noted.Parted

/-- A change that leaves alone what is kept. -/
def Spares (strip : β → β) (count : β → ℕ) (f : β → β) : Prop :=
  ∀ b, f (strip b) = strip (f b) ∧ count (f b) = count b

/-- Whatever was remarked, such a change is made in both readings. -/
lemma Spares.parted {put : α → β → β} {m : Noted α} (h : Spares strip count (put m.value)) (b : β) :
    Noted.Parted strip count b (do pure (put (← m) b)) (do pure (put (← m) (strip b))) where
  value := (h b).1
  sublist := List.Sublist.refl _
  length := congrArg _ (h b).2.symm

namespace Member

/-- Two members for the same keyword that part in the two readings. -/
structure Parted (strip : β → β) (count : β → ℕ) (m n : Member β) : Prop where
  keyword : m.keyword = n.keyword
  read? : ∀ s b, Option.Rel (Noted.Parted strip count b) (m.read? s b) (n.read? s (strip b))

variable {keyword : Text}

lemma parted_all {read read' : Statement → β → Noted β}
    (h : ∀ s b, Noted.Parted strip count b (read s b) (read' s (strip b))) :
    Parted strip count (all keyword read) (all keyword read') :=
  ⟨rfl, fun s b => .some (h s b)⟩

lemma parted_string {put : Text → β → β} (h : ∀ t, Spares strip count (put t)) :
    Parted strip count (string keyword put) (string keyword put) :=
  parted_all fun s b => (h s.value.unquote).parted (m := Pure.pure _) b

lemma parted_noted {read : Text → Noted α} {put : α → β → β} (h : ∀ a, Spares strip count (put a)) :
    Parted strip count (noted keyword read put) (noted keyword read put) :=
  parted_all fun _ b => (h _).parted b

lemma parted_value? {read : Text → Option α} {put : α → β → β} (h : ∀ a, Spares strip count (put a)) :
    Parted strip count (value? keyword read put) (value? keyword read put) := by
  refine ⟨rfl, fun s b => ?_⟩
  rw [value?]
  dsimp only
  cases read s.value with
  | none => exact .none
  | some a => exact .some ((h a).parted (m := Pure.pure a) b)

lemma parted_yesNo {put : Bool → β → β} (h : ∀ x, Spares strip count (put x)) :
    Parted strip count (yesNo keyword put) (yesNo keyword put) := parted_value? h

lemma parted_number {put : Int → β → β} (h : ∀ n, Spares strip count (put n)) :
    Parted strip count (number keyword put) (number keyword put) := parted_value? h

lemma parted_braced {read : Text → Noted α} {put : α → β → β} (h : ∀ a, Spares strip count (put a)) :
    Parted strip count (braced keyword read put) (braced keyword read put) := by
  refine ⟨rfl, fun s b => ?_⟩
  rw [braced]
  dsimp only
  split
  · exact .some ((h _).parted b)
  · exact .none

/-- The first member that takes a statement is the same in both readings. -/
lemma take?_parted {table table' : List (Member β)}
    (h : List.Forall₂ (Parted strip count) table table') (s : Statement) (b : β) :
    Option.Rel (Noted.Parted strip count b) (take? table s b) (take? table' s (strip b)) := by
  induction h with
  | nil => exact .none
  | @cons m n table table' hmn _ ih =>
      rw [take?, take?, List.findSome?_cons, List.findSome?_cons, hmn.keyword]
      by_cases hkeyword : n.keyword = s.keyword
      · have hread := hmn.read? s b
        rw [if_pos hkeyword, if_pos hkeyword]
        cases hm : m.read? s b <;> cases hn : n.read? s (strip b) <;> rw [hm, hn] at hread
        next => exact ih
        next => cases hread
        next => cases hread
        next => exact hread
      · rw [if_neg hkeyword, if_neg hkeyword]
        exact ih

end Member

lemma parted_handle {place : Place} {put : OtherOption → β → β}
    (hput : ∀ o b, strip (put o b) = strip b ∧ count (put o b) = count b + 1) (s : Statement) (b : β) :
    Noted.Parted strip count b (Unknown.keep.handle place put s b)
      (Unknown.report.handle place put s (strip b)) where
  value := (hput _ b).1.symm
  sublist := List.nil_sublist _
  length := by
    show 1 + count b = 0 + count (put _ b)
    rw [(hput _ b).2]
    omega

/-- **A block** parts if its members do. -/
theorem readMembers_parted {table table' : List (Member β)} {place : Place}
    {put : OtherOption → β → β}
    (htable : List.Forall₂ (Member.Parted strip count) table table')
    (hput : ∀ o b, strip (put o b) = strip b ∧ count (put o b) = count b + 1) (ss : List Statement)
    (b : β) : Noted.Parted strip count b
      (readMembers table (Unknown.keep.handle place put) ss b)
      (readMembers table' (Unknown.report.handle place put) ss (strip b)) := by
  induction ss generalizing b with
  | nil => exact .pure b
  | cons s ss ih =>
      rw [readMembers, readMembers]
      refine .bind ?_ ih
      have htake := Member.take?_parted htable s b
      cases hm : Member.take? table s b <;> cases hn : Member.take? table' s (strip b) <;>
        rw [hm, hn] at htake
      next => exact parted_handle hput s b
      next => cases htake
      next => cases htake
      next => cases htake with | some h => exact h

/-- A block whose members are the same in both readings. -/
lemma readMembers_parted_self {table : List (Member β)} {place : Place} {put : OtherOption → β → β}
    (htable : table.Forall fun m => Member.Parted strip count m m)
    (hput : ∀ o b, strip (put o b) = strip b ∧ count (put o b) = count b + 1) (ss : List Statement)
    (b : β) : Noted.Parted strip count b
      (readMembers table (Unknown.keep.handle place put) ss b)
      (readMembers table (Unknown.report.handle place put) ss (strip b)) :=
  readMembers_parted (List.forall₂_same.mpr (List.forall_iff_forall_mem.mp htable)) hput ss b

/-! ## Entities -/

section Entities

open Member

variable (s : Statement)

lemma Key.parted_ofStatement : Noted.Parted Key.withoutOther (·.other.length)
    ⟨s.header.headerName, [], [], []⟩ (Key.ofStatement .keep s) (Key.ofStatement .report s) := by
  refine readMembers_parted_self ?_ ?_ s.children _
  · exact ⟨parted_string fun _ _ => ⟨rfl, rfl⟩, parted_string fun _ _ => ⟨rfl, rfl⟩⟩
  · exact fun o k => ⟨rfl, List.length_append⟩

lemma KeyStore.parted_ofStatement : Noted.Parted KeyStore.withoutOther (·.other.length)
    ⟨s.header.headerName, [], []⟩ (KeyStore.ofStatement .keep s) (KeyStore.ofStatement .report s) := by
  refine readMembers_parted_self ?_ ?_ s.children _
  · exact parted_string fun _ _ => ⟨rfl, rfl⟩
  · exact fun o k => ⟨rfl, List.length_append⟩

lemma TlsProfile.parted_ofStatement : Noted.Parted TlsProfile.withoutOther (·.other.length)
    ⟨s.header.headerName, [], [], [], [], [], [], none, [], [], none, []⟩
    (TlsProfile.ofStatement .keep s) (TlsProfile.ofStatement .report s) := by
  refine readMembers_parted_self ?_ ?_ s.children _
  · exact ⟨parted_string fun _ _ => ⟨rfl, rfl⟩, parted_string fun _ _ => ⟨rfl, rfl⟩,
      parted_string fun _ _ => ⟨rfl, rfl⟩, parted_string fun _ _ => ⟨rfl, rfl⟩,
      parted_string fun _ _ => ⟨rfl, rfl⟩, parted_string fun _ _ => ⟨rfl, rfl⟩,
      parted_yesNo fun _ _ => ⟨rfl, rfl⟩, parted_all fun _ _ => ⟨rfl, .slnil, rfl⟩,
      parted_string fun _ _ => ⟨rfl, rfl⟩, parted_yesNo fun _ _ => ⟨rfl, rfl⟩⟩
  · exact fun o p => ⟨rfl, List.length_append⟩

lemma HttpProfile.parted_ofStatement : Noted.Parted HttpProfile.withoutOther (·.other.length)
    ⟨s.header.headerName, [], none, none, []⟩
    (HttpProfile.ofStatement .keep s) (HttpProfile.ofStatement .report s) := by
  refine readMembers_parted_self ?_ ?_ s.children _
  · exact ⟨parted_all fun _ _ => ⟨rfl, .slnil, rfl⟩, parted_number fun _ _ => ⟨rfl, rfl⟩,
      parted_number fun _ _ => ⟨rfl, rfl⟩⟩
  · exact fun o p => ⟨rfl, List.length_append⟩

lemma Controls.parted_ofStatement : Noted.Parted Controls.withoutOther (·.other.length)
    ⟨[], [], []⟩ (Controls.ofStatement .keep s) (Controls.ofStatement .report s) := by
  refine readMembers_parted_self ?_ ?_ s.children _
  · exact ⟨parted_all fun _ _ => ⟨rfl, .refl _, rfl⟩, parted_all fun _ _ => ⟨rfl, .refl _, rfl⟩⟩
  · exact fun o c => ⟨rfl, List.length_append⟩

lemma LogChannel.parted_ofStatement : Noted.Parted LogChannel.withoutOther (·.other.length)
    ⟨s.header.headerName, .unset, [], none, none, none, none, []⟩
    (LogChannel.ofStatement .keep s) (LogChannel.ofStatement .report s) := by
  have hdestination : ∀ keyword read, Parted LogChannel.withoutOther (·.other.length)
      (destinationMember keyword read) (destinationMember keyword read) := by
    refine fun keyword read => parted_all fun s c => ?_
    have hsame : (withoutOther c).destination = c.destination := rfl
    rw [hsame]
    split <;> exact ⟨rfl, .refl _, rfl⟩
  refine readMembers_parted_self ?_ ?_ s.children _
  · exact ⟨hdestination .., hdestination .., hdestination .., hdestination ..,
      parted_all fun _ _ => ⟨rfl, .slnil, rfl⟩, parted_yesNo fun _ _ => ⟨rfl, rfl⟩,
      parted_yesNo fun _ _ => ⟨rfl, rfl⟩, parted_yesNo fun _ _ => ⟨rfl, rfl⟩,
      parted_yesNo fun _ _ => ⟨rfl, rfl⟩⟩
  · exact fun o c => ⟨rfl, List.length_append⟩

lemma Logging.parted_ofStatement : Noted.Parted Logging.withoutOther Logging.otherCount
    ⟨[], [], []⟩ (Logging.ofStatement .keep s) (Logging.ofStatement .report s) := by
  refine readMembers_parted ?_ ?_ s.children _
  · refine .cons (parted_all fun s l => ?_) (.cons (parted_all fun _ _ => ⟨rfl, .slnil, rfl⟩) .nil)
    -- a channel keeps or reports unknown statements of its own
    refine (LogChannel.parted_ofStatement s).into rfl (fun c => ?_) fun c => ?_
    · simp [withoutOther]
    · simp [otherCount, Nat.add_assoc]
  · intro o l
    refine ⟨rfl, ?_⟩
    simp only [otherCount, List.length_append, List.length_singleton]
    omega

lemma Zone.parted_ofStatement : Noted.Parted Zone.withoutOther (·.other.length)
    { Zone.empty s.header.headerName with zclass := s.header.headerClass }
    (Zone.ofStatement .keep s) (Zone.ofStatement .report s) := by
  refine readMembers_parted_self ?_ ?_ s.children _
  · exact ⟨parted_value? fun _ _ => ⟨rfl, rfl⟩, parted_string fun _ _ => ⟨rfl, rfl⟩,
      parted_braced fun _ _ => ⟨rfl, rfl⟩, parted_value? fun _ _ => ⟨rfl, rfl⟩,
      parted_braced fun _ _ => ⟨rfl, rfl⟩, parted_all fun _ _ => ⟨rfl, .slnil, rfl⟩,
      parted_noted fun _ _ => ⟨rfl, rfl⟩, parted_noted fun _ _ => ⟨rfl, rfl⟩,
      parted_braced fun _ _ => ⟨rfl, rfl⟩, parted_string fun _ _ => ⟨rfl, rfl⟩⟩
  · exact fun o z => ⟨rfl, List.length_append⟩

lemma View.parted_ofStatement : Noted.Parted View.withoutOther View.otherCount
    { View.empty s.header.headerName with vclass := s.header.headerClass }
    (View.ofStatement .keep s) (View.ofStatement .report s) := by
  refine readMembers_parted ?_ ?_ s.children _
  · refine .cons (parted_noted fun _ _ => ⟨rfl, rfl⟩) (.cons (parted_noted fun _ _ => ⟨rfl, rfl⟩)
      (.cons (parted_yesNo fun _ _ => ⟨rfl, rfl⟩) (.cons (parted_all fun _ _ => ⟨rfl, .refl _, rfl⟩)
      (.cons (parted_all fun s v => ?_) (.cons (parted_all fun _ _ => ⟨rfl, .slnil, rfl⟩) .nil)))))
    -- and so does a zone
    refine (Zone.parted_ofStatement s).into rfl (fun z => ?_) fun z => ?_
    · simp [withoutOther]
    · simp [otherCount, Nat.add_assoc]
  · intro o v
    refine ⟨rfl, ?_⟩
    simp only [otherCount, List.length_append, List.length_singleton]
    omega

end Entities

/-! ## Files -/

namespace Config

open Statement

/-- **A statement** that is read by itself parts in the two readings. -/
lemma parted_add (s : Statement) (k : Keyword) :
    Noted.Parted withoutOther otherCount empty (empty.add .keep s k) (empty.add .report s k) := by
  cases k with
  | «include» => exact ⟨rfl, .refl _, rfl⟩
  | acl => exact ⟨rfl, .refl _, rfl⟩
  | key => exact (Key.parted_ofStatement s).into rfl (fun _ => rfl) fun _ => by simp [otherCount, empty]
  | keyStore =>
      exact (KeyStore.parted_ofStatement s).into rfl (fun _ => rfl) fun _ => by simp [otherCount, empty]
  | remoteServers => exact ⟨rfl, .refl _, rfl⟩
  | tls =>
      exact (TlsProfile.parted_ofStatement s).into rfl (fun _ => rfl) fun _ => by
        simp [otherCount, empty]
  | http =>
      exact (HttpProfile.parted_ofStatement s).into rfl (fun _ => rfl) fun _ => by
        simp [otherCount, empty]
  | controls =>
      exact (Controls.parted_ofStatement s).into rfl (fun _ => rfl) fun _ => by
        simp [otherCount, empty]
  | logging =>
      exact (Logging.parted_ofStatement s).into rfl (fun _ => rfl) fun _ => by
        simp [otherCount, empty]
  | options => exact ⟨rfl, .refl _, rfl⟩
  | trustAnchors => exact ⟨rfl, .refl _, rfl⟩
  | view =>
      exact (View.parted_ofStatement s).into rfl (fun _ => rfl) fun _ => by simp [otherCount, empty]
  | zone =>
      exact (Zone.parted_ofStatement s).into rfl (fun _ => rfl) fun _ => by simp [otherCount, empty]

/-- How many unknown statements are kept of a statement that is read by itself. -/
def keptCount (s : Statement) : ℕ :=
  (Keyword.ofWord? s.keyword).elim 0 fun k => (empty.add .keep s k).value.otherCount

/-- How many unknown statements were kept in controls and logging blocks that a later one replaces. -/
def replacedCount (ss : List Statement) : ℕ :=
  ((withKeyword .controls ss).dropLast.map fun s =>
      (Controls.ofStatement .keep s).value.other.length).sum +
    ((withKeyword .logging ss).dropLast.map fun s =>
      (Logging.ofStatement .keep s).value.otherCount).sum

lemma sublist_remarksOf (s : Statement) :
    (leftOut (remarksOf .keep s)).Sublist (leftOut (remarksOf .report s)) := by
  rw [remarksOf, remarksOf]
  cases Keyword.ofWord? s.keyword with
  | none => exact .slnil
  | some k => exact (parted_add s k).sublist

lemma length_remarksOf (s : Statement) : (leftOut (remarksOf .report s)).length =
    (leftOut (remarksOf .keep s)).length + keptCount s := by
  rw [remarksOf, remarksOf, keptCount]
  cases Keyword.ofWord? s.keyword with
  | none => rfl
  | some k => exact (parted_add s k).length

lemma sum_map_dropLast_add {γ : Type} (f : Statement → γ) (g : γ → ℕ) (ss : List Statement) :
    (ss.dropLast.map fun s => g (f s)).sum + (ss.getLast?.map f).elim 0 g =
      (ss.map fun s => g (f s)).sum := by
  rcases List.eq_nil_or_concat ss with rfl | ⟨ss, s, rfl⟩
  · rfl
  · simp

/-- What is lost of a configuration when a statement with the given keyword is read. -/
def overwrittenCount (c : Config) : Keyword → ℕ
  | .controls => c.controls.elim 0 (·.other.length)
  | .logging => c.logging.elim 0 Logging.otherCount
  | _ => 0

lemma otherCount_add (c : Config) (s : Statement) (k : Keyword) :
    (c.add .keep s k).value.otherCount + c.overwrittenCount k =
      c.otherCount + (empty.add .keep s k).value.otherCount := by
  cases k <;> simp only [add, empty, otherCount, overwrittenCount, Noted.value_bind, Noted.value_pure,
    List.map_append, List.map_nil, List.map_cons, List.nil_append, List.sum_append, List.sum_cons,
    List.sum_nil, Option.elim_some, Option.elim_none] <;> omega

lemma replacedCount_concat (ss : List Statement) {s : Statement} {k : Keyword}
    (hs : s.keyword = k.word) : replacedCount (ss ++ [s]) =
      replacedCount ss + (ofStatements .keep ss).overwrittenCount k := by
  cases k with
  | controls =>
      have hlast := sum_map_dropLast_add (fun s => (Controls.ofStatement .keep s).value)
        (·.other.length) (withKeyword .controls ss)
      simp only [replacedCount, withKeyword_concat hs, overwrittenCount, ofStatements, if_true,
        reduceCtorEq, if_false, List.append_nil, List.dropLast_concat]
      omega
  | logging =>
      have hlast := sum_map_dropLast_add (fun s => (Logging.ofStatement .keep s).value)
        Logging.otherCount (withKeyword .logging ss)
      simp only [replacedCount, withKeyword_concat hs, overwrittenCount, ofStatements, if_true,
        reduceCtorEq, if_false, List.append_nil, List.dropLast_concat]
      omega
  | _ => simp [replacedCount, withKeyword_concat hs, overwrittenCount]

/-- **What was kept** of all statements is in the configuration or was replaced. -/
lemma sum_keptCount (ss : List Statement) :
    (ss.map keptCount).sum = (ofStatements .keep ss).otherCount + replacedCount ss := by
  induction ss using List.reverseRecOn with
  | nil => rfl
  | append_singleton ss s ih =>
      rw [List.map_append, List.sum_append, ih, List.map_singleton, List.sum_singleton, keptCount]
      cases hs : Keyword.ofWord? s.keyword with
      | none =>
          rw [ofStatements_concat_of_none .keep ss hs]
          simp [replacedCount, withKeyword_concat_of_none hs]
      | some k =>
          have hk := Keyword.ofWord?_eq_some.mp hs
          have hadd := otherCount_add (ofStatements .keep ss) s k
          rw [ofStatements_concat .keep ss hk, replacedCount_concat ss hk, Option.elim_some]
          omega

/-- Without what was kept, a configuration is what is read when unknown statements are reported. -/
lemma ofStatements_report (ss : List Statement) :
    ofStatements .report ss = (ofStatements .keep ss).withoutOther := by
  simp only [ofStatements, withoutOther, List.map_map, Option.map_map, Function.comp_def,
    (Key.parted_ofStatement _).value, (KeyStore.parted_ofStatement _).value,
    (TlsProfile.parted_ofStatement _).value, (HttpProfile.parted_ofStatement _).value,
    (Controls.parted_ofStatement _).value, (Logging.parted_ofStatement _).value,
    (View.parted_ofStatement _).value, (Zone.parted_ofStatement _).value]

/-- **Two readings of a file.**  If unknown statements are reported, what is read is what is read when
    they are kept, without them; all that is left out when they are kept is left out then too; and one
    report more is there for each statement that is kept, or that was kept in a controls or logging
    block before a later one replaced it. -/
theorem ofNodes_report (ns : List Node) :
    (ofNodes .report ns).value = (ofNodes .keep ns).value.withoutOther ∧
      (leftOut (ofNodes .keep ns).remarks).Sublist (leftOut (ofNodes .report ns).remarks) ∧
      (leftOut (ofNodes .report ns).remarks).length =
        (leftOut (ofNodes .keep ns).remarks).length + (ofNodes .keep ns).value.otherCount +
          replacedCount (Node.statements ns) := by
  rw [value_ofNodes, value_ofNodes, leftOut_ofNodes, leftOut_ofNodes]
  refine ⟨ofStatements_report _, ?_, ?_⟩
  · generalize Node.statements ns = ss
    induction ss with
    | nil => exact .slnil
    | cons s ss ih =>
        rw [List.flatMap_cons, List.flatMap_cons]
        exact (sublist_remarksOf s).append ih
  · rw [List.length_flatMap, List.length_flatMap, Nat.add_assoc, ← sum_keptCount, ← List.sum_map_add]
    exact congrArg List.sum (List.map_congr_left fun s _ => length_remarksOf s)

/-- Two logging blocks, the first of them with an unknown statement. -/
def loggingTwice : Text := "logging \x7b foo bar; \x7d;\nlogging \x7b \x7d;\n"

/-- The unknown statement is reported, but if it is to be kept, it is neither kept nor reported. -/
theorem ofNodes_report_ne :
    (leftOut (ofNodes .report (Node.parse loggingTwice)).remarks).length ≠
      (leftOut (ofNodes .keep (Node.parse loggingTwice)).remarks).length +
        (ofNodes .keep (Node.parse loggingTwice)).value.otherCount :=
  of_decide_eq_true (by cbv)

end Config

end NameServerConf
