import NameServerConf.Config.Basic
import NameServerConf.Proofs.Agreement

/-!
# What is read does not depend on layout

Comments and blanks are read by nobody.  What is made of a statement depends on its keyword, its
header, its value and the statements in its body, and on these statements can agree whatever their
layout.

**Blind readers.**  A reader is `Blind` if it makes the same of statements that agree.  Members that
look at the value of a statement are blind, and a block is if its members are (`readMembers_congr`).
Files whose statements agree say the same: `Config.addAll_of_agrees`.

**Normalized files.**  So a file that was normalized as a whole says what it said before, and the same
is left out of it: `Config.ofNodes_parse_normalize`.
-/

namespace NameServerConf

namespace Statement

/-- A reader that makes the same of statements that agree. -/
def Blind {γ : Type} (f : Statement → γ) : Prop := ∀ ⦃s t : Statement⦄, s.Agrees t → f s = f t

end Statement

open Statement

/-! ## Members -/

section Members

variable {β : Type}

/-- A member that makes the same of statements that agree. -/
def Member.Blind (m : Member β) : Prop := Statement.Blind m.read?

@[simp] lemma Member.blind_all {keyword : Text} {read : Statement → β → Noted β} :
    (Member.all keyword read).Blind ↔ Statement.Blind read := by
  refine ⟨fun h s t hst => funext fun b => ?_, fun h s t hst => funext fun b => ?_⟩
  · exact Option.some.inj (congrFun (h hst) b)
  · exact congrArg some (congrFun (h hst) b)

lemma Member.blind_of_value {m : Member β}
    (h : ∀ s t : Statement, s.value = t.value → m.read? s = m.read? t) : m.Blind :=
  fun s t hst => h s t hst.value

@[simp] lemma Member.blind_string (keyword : Text) (put : Text → β → β) :
    (Member.string keyword put).Blind :=
  blind_of_value fun s t h => by simp only [string, all, h]

@[simp] lemma Member.blind_value? {α : Type} (keyword : Text) (read : Text → Option α)
    (put : α → β → β) : (Member.value? keyword read put).Blind :=
  blind_of_value fun s t h => by simp only [value?, h]

@[simp] lemma Member.blind_yesNo (keyword : Text) (put : Bool → β → β) :
    (Member.yesNo keyword put).Blind := blind_value? ..

@[simp] lemma Member.blind_number (keyword : Text) (put : Int → β → β) :
    (Member.number keyword put).Blind := blind_value? ..

@[simp] lemma Member.blind_noted {α : Type} (keyword : Text) (read : Text → Noted α)
    (put : α → β → β) : (Member.noted keyword read put).Blind :=
  blind_of_value fun s t h => by simp only [noted, all, h]

@[simp] lemma Member.blind_braced {α : Type} (keyword : Text) (read : Text → Noted α)
    (put : α → β → β) : (Member.braced keyword read put).Blind :=
  blind_of_value fun s t h => by simp only [braced, h]

lemma blind_handle (unknown : Unknown) (place : Place) (put : OtherOption → β → β) :
    Statement.Blind (unknown.handle place put) := by
  intro s t h
  funext b
  cases unknown with
  | keep => rw [Unknown.handle, Unknown.handle, h.keyword, h.value]
  | report => rw [Unknown.handle, Unknown.handle, h.text]

lemma take?_congr {table : List (Member β)} (htable : ∀ m ∈ table, m.Blind) {s t : Statement}
    (h : s.Agrees t) (b : β) : Member.take? table s b = Member.take? table t b := by
  induction table with
  | nil => rfl
  | cons m table ih =>
      have hm := htable m (List.mem_cons_self ..) h
      have ih := ih fun m' hm' => htable m' (List.mem_cons_of_mem _ hm')
      simp only [Member.take?, List.findSome?_cons, h.keyword, hm] at ih ⊢
      rw [ih]

/-- **A block** of statements that agree says the same, if its members are blind. -/
lemma readMembers_congr {table : List (Member β)} {other : Statement → β → Noted β}
    (htable : ∀ m ∈ table, m.Blind) (hother : Statement.Blind other) {ss ts : List Statement}
    (h : List.Forall₂ Agrees ss ts) (b : β) :
    readMembers table other ss b = readMembers table other ts b := by
  induction h generalizing b with
  | nil => rfl
  | @cons s t ss ts hst _ ih =>
      have htake : Member.take? table s b = Member.take? table t b :=
        take?_congr htable hst b
      rw [readMembers, readMembers, htake, hother hst]
      exact congrArg _ (funext fun next => ih next)

end Members

/-! ## Entities -/

section Entities

variable {s t : Statement} (unknown : Unknown)

lemma Include.ofStatement_congr (h : s.Agrees t) : Include.ofStatement s = Include.ofStatement t := by
  rw [Include.ofStatement, Include.ofStatement, h.value]

lemma Acl.ofStatement_congr (h : s.Agrees t) : Acl.ofStatement s = Acl.ofStatement t := by
  rw [Acl.ofStatement, Acl.ofStatement, h.header, h.bodyText]

lemma Key.ofStatement_congr (h : s.Agrees t) :
    Key.ofStatement unknown s = Key.ofStatement unknown t := by
  rw [Key.ofStatement, Key.ofStatement, h.header]
  exact readMembers_congr (by simp [members]) (blind_handle ..) h.children _

lemma KeyStore.ofStatement_congr (h : s.Agrees t) :
    KeyStore.ofStatement unknown s = KeyStore.ofStatement unknown t := by
  rw [KeyStore.ofStatement, KeyStore.ofStatement, h.header]
  exact readMembers_congr (by simp [members]) (blind_handle ..) h.children _

/-- The servers of a group, one for each statement in it. -/
lemma mapM_read_congr {ss ts : List Statement} (h : List.Forall₂ Agrees ss ts) :
    (ss.mapM fun child => RemoteServer.read child.text) =
      ts.mapM fun child => RemoteServer.read child.text := by
  induction h with
  | nil => rfl
  | cons hst _ ih => rw [List.mapM_cons, List.mapM_cons, hst.text, ih]

lemma ServerGroup.ofStatement_congr (h : s.Agrees t) :
    ServerGroup.ofStatement s = ServerGroup.ofStatement t := by
  rw [ServerGroup.ofStatement, ServerGroup.ofStatement, h.header, mapM_read_congr h.children]

lemma TlsProfile.ofStatement_congr (h : s.Agrees t) :
    TlsProfile.ofStatement unknown s = TlsProfile.ofStatement unknown t := by
  rw [TlsProfile.ofStatement, TlsProfile.ofStatement, h.header]
  refine readMembers_congr ?_ (blind_handle ..) h.children _
  simp only [members, List.forall_mem_cons, Member.blind_string, Member.blind_yesNo,
    Member.blind_all, List.not_mem_nil, false_implies, implies_true, true_and, and_true]
  exact fun s t h => by simp only [h.value]

lemma HttpProfile.ofStatement_congr (h : s.Agrees t) :
    HttpProfile.ofStatement unknown s = HttpProfile.ofStatement unknown t := by
  rw [HttpProfile.ofStatement, HttpProfile.ofStatement, h.header]
  refine readMembers_congr ?_ (blind_handle ..) h.children _
  simp only [members, List.forall_mem_cons, Member.blind_number, Member.blind_all, List.not_mem_nil,
    false_implies, implies_true, and_true]
  exact fun s t h => by simp only [h.value]

lemma Controls.ofStatement_congr (h : s.Agrees t) :
    Controls.ofStatement unknown s = Controls.ofStatement unknown t := by
  refine readMembers_congr ?_ (blind_handle ..) h.children _
  simp only [members, List.forall_mem_cons, Member.blind_all, List.not_mem_nil, false_implies,
    implies_true, and_true]
  exact ⟨fun s t h => by simp only [h.text], fun s t h => by simp only [h.text]⟩

lemma LogChannel.ofStatement_congr (h : s.Agrees t) :
    LogChannel.ofStatement unknown s = LogChannel.ofStatement unknown t := by
  rw [LogChannel.ofStatement, LogChannel.ofStatement, h.header]
  refine readMembers_congr ?_ (blind_handle ..) h.children _
  have hdestination : ∀ keyword read, (destinationMember keyword read).Blind := fun keyword read =>
    Member.blind_of_value fun s t h => by simp only [destinationMember, Member.all, h]
  simp only [members, List.forall_mem_cons, hdestination, Member.blind_yesNo, Member.blind_all,
    List.not_mem_nil, false_implies, implies_true, true_and, and_true]
  exact fun s t h => by simp only [h.value]

lemma LogCategory.ofStatement_congr (h : s.Agrees t) :
    LogCategory.ofStatement s = LogCategory.ofStatement t := by
  rw [LogCategory.ofStatement, LogCategory.ofStatement, h.header, h.bodyText]

lemma Logging.ofStatement_congr (h : s.Agrees t) :
    Logging.ofStatement unknown s = Logging.ofStatement unknown t := by
  refine readMembers_congr ?_ (blind_handle ..) h.children _
  simp only [members, List.forall_mem_cons, Member.blind_all, List.not_mem_nil, false_implies,
    implies_true, and_true]
  exact ⟨fun s t h => by simp only [LogChannel.ofStatement_congr unknown h],
    fun s t h => by simp only [LogCategory.ofStatement_congr h]⟩

lemma Options.ofStatement_congr (h : s.Agrees t) : Options.ofStatement s = Options.ofStatement t := by
  have hword : ∀ {s t : Statement}, s.Agrees t → oneWord s = oneWord t := fun h => by
    rw [oneWord, oneWord, h.value, h.keyword]
  have hlisten : ∀ keyword get put, (listenMember keyword get put).Blind := fun keyword get put =>
    Member.blind_of_value fun s t h => by simp only [listenMember, h]
  refine readMembers_congr ?_ (fun s t h => by simp only [h.keyword, h.value]) h.children _
  simp only [members, List.forall_mem_cons, hlisten, Member.blind_string, Member.blind_yesNo,
    Member.blind_noted, Member.blind_braced, Member.blind_all, List.not_mem_nil, false_implies,
    implies_true, true_and, and_true]
  exact ⟨fun s t h => by simp only [hword h], fun s t h => by simp only [hword h]⟩

lemma TrustAnchors.ofStatement_congr (h : s.Agrees t) :
    TrustAnchors.ofStatement s = TrustAnchors.ofStatement t := by
  have hitems : ∀ {ss ts : List Statement}, List.Forall₂ Agrees ss ts → readItems ss = readItems ts := by
    intro ss ts h
    induction h with
    | nil => rfl
    | cons hst _ ih => rw [readItems, readItems, hst.text, ih]
  rw [TrustAnchors.ofStatement, TrustAnchors.ofStatement, hitems h.children]

lemma Zone.ofStatement_congr (h : s.Agrees t) :
    Zone.ofStatement unknown s = Zone.ofStatement unknown t := by
  rw [Zone.ofStatement, Zone.ofStatement, h.header]
  refine readMembers_congr ?_ (blind_handle ..) h.children _
  simp only [members, List.forall_mem_cons, Member.blind_value?, Member.blind_string,
    Member.blind_noted, Member.blind_braced, Member.blind_all, List.not_mem_nil, false_implies,
    implies_true, true_and, and_true]
  exact fun s t h => by simp only [h.value]

lemma View.ofStatement_congr (h : s.Agrees t) :
    View.ofStatement unknown s = View.ofStatement unknown t := by
  rw [View.ofStatement, View.ofStatement, h.header]
  refine readMembers_congr ?_ (blind_handle ..) h.children _
  simp only [members, List.forall_mem_cons, Member.blind_yesNo, Member.blind_noted,
    Member.blind_all, List.not_mem_nil, false_implies, implies_true, true_and, and_true]
  exact ⟨fun s t h => by simp only [TrustAnchors.ofStatement_congr h],
    fun s t h => by simp only [Zone.ofStatement_congr unknown h],
    fun s t h => by simp only [Include.ofStatement_congr h]⟩

end Entities

/-! ## Files -/

namespace Config

lemma add_congr (unknown : Unknown) {s t : Statement} (h : s.Agrees t) (c : Config) (k : Keyword) :
    c.add unknown s k = c.add unknown t k := by
  cases k with
  | «include» => rw [add, add, Include.ofStatement_congr h]
  | acl => rw [add, add, Acl.ofStatement_congr h]
  | key => rw [add, add, Key.ofStatement_congr unknown h]
  | keyStore => rw [add, add, KeyStore.ofStatement_congr unknown h]
  | remoteServers => rw [add, add, ServerGroup.ofStatement_congr h]
  | tls => rw [add, add, TlsProfile.ofStatement_congr unknown h]
  | http => rw [add, add, HttpProfile.ofStatement_congr unknown h]
  | controls => rw [add, add, Controls.ofStatement_congr unknown h]
  | logging => rw [add, add, Logging.ofStatement_congr unknown h]
  | options => rw [add, add, Options.ofStatement_congr h]
  | trustAnchors => rw [add, add, TrustAnchors.ofStatement_congr h]
  | view => rw [add, add, View.ofStatement_congr unknown h]
  | zone => rw [add, add, Zone.ofStatement_congr unknown h]

lemma addAll_of_agrees (unknown : Unknown) {ss ts : List Statement} (h : List.Forall₂ Agrees ss ts)
    (c : Config) : addAll unknown ss c = addAll unknown ts c := by
  induction h generalizing c with
  | nil => rfl
  | @cons s t ss ts hst _ ih =>
      rw [addAll, addAll, hst.keyword]
      cases Keyword.ofWord? t.keyword with
      | none => exact ih c
      | some k =>
          dsimp only
          rw [add_congr unknown hst]
          exact congrArg _ (funext fun next => ih next)

lemma addAll_congr (unknown : Unknown) {ss ts : List Statement} (h : List.Forall₂ Alike ss ts)
    (c : Config) : addAll unknown ss c = addAll unknown ts c :=
  addAll_of_agrees unknown (h.imp fun _ _ hst => hst.agrees) c

/-- **Layout and comments** do not change what a file says, nor what is left out of it, if its
    strings, comments and groups are finished and its statements have their semicolons.  A comment to
    the end of the line may be the last thing in the file, with or without a line feed. -/
theorem ofNodes_parse_normalize (unknown : Unknown) {s : Text}
    (hs : (Text.items .file s).all Item.isFinished = true)
    (hended : (Node.parse s).all Node.isEnded = true) :
    (ofNodes unknown (Node.parse (Text.normalize s))).value = (ofNodes unknown (Node.parse s)).value ∧
      Remark.leftOut (ofNodes unknown (Node.parse (Text.normalize s))).remarks =
        Remark.leftOut (ofNodes unknown (Node.parse s)).remarks ∧
      (ofNodes unknown (Node.parse (Text.normalize s))).remarks =
        (ofNodes unknown (Node.parse s)).remarks := by
  rw [List.all_eq_true] at hs hended
  have hpieces : ∀ p ∈ Node.pieces (Text.items .file s), (Text.ofItems p).isFinished = true :=
    fun p hp => Node.isFinished_of_ended hs hp (hended _ (Node.source_mem_of_mem_pieces hp))
  have halike := Node.statements_alike hs hpieces false false
  have hsame : ofNodes unknown (Node.parse s) = ofNodes unknown (Node.parse (Text.normalize s)) := by
    rw [ofNodes, ofNodes, Text.normalize_eq_tidyText, addAll_congr unknown halike]
  rw [hsame]
  exact ⟨rfl, rfl, rfl⟩

/-- Comments behind a keyword, at the end of a body and at the end of the file. -/
theorem ofNodes_parse_normalize_zone :
    Text.normalize "zone/* a */\"z\" \x7b type hint # c\n \x7d; # d" =
        Text.ofString "zone \"z\" \x7b type hint \x7d;" ∧
      (ofNodes .report (Node.parse (Text.normalize
          "zone/* a */\"z\" \x7b type hint # c\n \x7d; # d"))).value =
        (ofNodes .report (Node.parse "zone/* a */\"z\" \x7b type hint # c\n \x7d; # d")).value :=
  ⟨by cbv, (ofNodes_parse_normalize .report (by cbv) (by cbv)).1⟩

end Config

end NameServerConf
