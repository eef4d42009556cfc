import NameServerConf.Proofs.WellFormed

/-!
# Spellings

A configuration is well-formed for two reasons, and they are not of the same kind.

**Spellings.**  Writing puts each text down as it is: between quotation marks, or bare, or as the
record that it is.  The **spellings** of a configuration are its texts with the way in which they are
written, and a spelling is **sound** if the text can be written so.  Nothing that reads or writes a
configuration sees to this.

**Checks.**  What is left is seen to by reading: numbers have 32 bits, what is taken for an address
looks like one, and a statement was kept because no member of the block takes it.  A configuration
with these conditions is **checked**.

A checked configuration with sound spellings is well-formed: `Config.Checked.wellFormed`.
-/

namespace NameServerConf

/-! ## Texts and how they are written -/

/-- A text of a configuration, and how it is written. -/
inductive Spelling
  /-- Between quotation marks. -/
  | quoted (s : Text)
  /-- Between quotation marks, and one word in every other respect. -/
  | name (s : Text)
  /-- Bare. -/
  | word (s : Text)
  /-- Bare, and left away if it is empty. -/
  | optionalWord (s : Text)
  /-- Bare, in a match list. -/
  | address (s : Text)
  /-- As it is. -/
  | record (s : Text)
  /-- As the keyword of a statement that was kept. -/
  | keyword (s : Text)
deriving DecidableEq, Repr

namespace Spelling

/-- The text can be written in this way. -/
def IsSound : Spelling → Prop
  | quoted s => s.isClean = true
  | name s => s.isName = true
  | word s => s.isWord = true
  | optionalWord s => s.isOptionalWord = true
  | address s => s.isWord = true ∧ s.head? ≠ some Byte.bang
  | record s => s.IsValue
  | keyword s => s ≠ []

/-- Whether a text is a value can be decided. -/
instance (s : Text) : Decidable s.IsValue :=
  decidable_of_iff (s ≠ [] ∧ s.lexemes .file = s.lexemes .value ∧
      (s.items .value).all Text.isInner = true ∧ s.collapse = s)
    ⟨fun ⟨hne, hcomments, hinner, hcollapsed⟩ => ⟨hne, hcomments, hinner, hcollapsed⟩,
      fun h => ⟨h.ne_nil, h.noComments, h.inner, h.collapsed⟩⟩

instance : DecidablePred IsSound
  | quoted s => inferInstanceAs (Decidable (s.isClean = true))
  | name s => inferInstanceAs (Decidable (s.isName = true))
  | word s => inferInstanceAs (Decidable (s.isWord = true))
  | optionalWord s => inferInstanceAs (Decidable (s.isOptionalWord = true))
  | address s => inferInstanceAs (Decidable (s.isWord = true ∧ s.head? ≠ some Byte.bang))
  | record s => inferInstanceAs (Decidable s.IsValue)
  | keyword s => inferInstanceAs (Decidable (s ≠ []))

/-- All of the texts can be written as they are to be. -/
def AllSound (l : List Spelling) : Prop := ∀ s ∈ l, s.IsSound

instance (l : List Spelling) : Decidable (AllSound l) := List.decidableBAll IsSound l

variable {l m : List Spelling}

@[simp] lemma allSound_nil : AllSound [] := fun _ h => absurd h List.not_mem_nil

@[simp] lemma allSound_cons {s : Spelling} : AllSound (s :: l) ↔ s.IsSound ∧ AllSound l :=
  List.forall_mem_cons

@[simp] lemma allSound_append : AllSound (l ++ m) ↔ AllSound l ∧ AllSound m :=
  List.forall_mem_append

@[simp] lemma allSound_flatMap {α : Type} {f : α → List Spelling} {xs : List α} :
    AllSound (xs.flatMap f) ↔ ∀ x ∈ xs, AllSound (f x) := by
  simp only [AllSound, List.mem_flatMap]
  exact ⟨fun h x hx s hs => h s ⟨x, hx, hs⟩, fun h s ⟨x, hx, hs⟩ => h x hx s hs⟩

@[simp] lemma allSound_map {f : Text → Spelling} {xs : List Text} :
    AllSound (xs.map f) ↔ ∀ x ∈ xs, (f x).IsSound :=
  List.forall_mem_map

end Spelling

open Spelling hiding quoted name word optionalWord address record keyword

/-! ## Values -/

namespace MatchTerm

mutual

/-- The texts of a term. -/
def spellings : MatchTerm → List Spelling
  | .address _ a => [.address a]
  | .key _ k => [.quoted k]
  | .acl _ name => [.quoted name]
  | .nested _ ts => listSpellings ts

/-- The texts of a match list. -/
def listSpellings : List MatchTerm → List Spelling
  | [] => []
  | t :: ts => t.spellings ++ listSpellings ts

end

mutual

/-- What looks like an address is taken for one, and nothing else is. -/
def isChecked : MatchTerm → Bool
  | .address _ a => looksLikeAddress a
  | .key _ _ => true
  | .acl _ name => !looksLikeAddress name
  | .nested _ ts => areChecked ts

/-- All terms of a list are checked. -/
def areChecked : List MatchTerm → Bool
  | [] => true
  | t :: ts => t.isChecked && areChecked ts

end

mutual

lemma isWellFormed_of_checked : ∀ t : MatchTerm, t.isChecked = true → AllSound t.spellings →
    t.isWellFormed = true
  | .address _ a, hc, hs => by
      have ha : a.isWord = true ∧ a.head? ≠ some Byte.bang := (allSound_cons.mp hs).1
      have haddress : looksLikeAddress a = true := hc
      rw [isWellFormed, ha.1, haddress, decide_eq_true ha.2]
      rfl
  | .key _ k, _, hs => (allSound_cons.mp hs).1
  | .acl _ name, hc, hs => Bool.and_eq_true_iff.mpr ⟨(allSound_cons.mp hs).1, hc⟩
  | .nested _ ts, hc, hs => areWellFormed_of_checked ts hc hs

/-- A checked match list with sound spellings is well-formed. -/
lemma areWellFormed_of_checked : ∀ ts : List MatchTerm, areChecked ts = true →
    AllSound (listSpellings ts) → areWellFormed ts = true
  | [], _, _ => rfl
  | t :: ts, hc, hs => by
      rw [areChecked, Bool.and_eq_true] at hc
      rw [listSpellings, allSound_append] at hs
      rw [areWellFormed, isWellFormed_of_checked t hc.1 hs.1, areWellFormed_of_checked ts hc.2 hs.2]
      rfl

end

end MatchTerm

/-- The texts of a match list, if there is one. -/
def Spelling.ofMatchList? (ts? : Option (List MatchTerm)) : List Spelling :=
  ts?.toList.flatMap MatchTerm.listSpellings

/-- A match list, if there is one, is checked. -/
def MatchTerm.areChecked? (ts? : Option (List MatchTerm)) : Prop :=
  ∀ ts ∈ ts?, MatchTerm.areChecked ts = true

lemma MatchTerm.areChecked?.wellFormed {ts? : Option (List MatchTerm)}
    (hc : MatchTerm.areChecked? ts?) (hs : AllSound (Spelling.ofMatchList? ts?)) :
    ∀ ts ∈ ts?, MatchTerm.areWellFormed ts = true := by
  intro ts hts
  rw [Spelling.ofMatchList?, allSound_flatMap] at hs
  exact areWellFormed_of_checked ts (hc ts hts) (hs ts (Option.mem_toList.mpr hts))

namespace Listen

/-- The texts of where to listen. -/
def spellings (l : Listen) : List Spelling :=
  [.quoted l.tls, .quoted l.http] ++ MatchTerm.listSpellings l.addrs

/-- What reading sees to. -/
structure Checked (l : Listen) : Prop where
  port : fitsInt32 l.port = true
  addrs : MatchTerm.areChecked l.addrs = true

lemma Checked.wellFormed {l : Listen} (hc : l.Checked) (hs : AllSound l.spellings) :
    l.WellFormed := by
  rw [spellings, allSound_append, allSound_cons, allSound_cons] at hs
  obtain ⟨⟨htls, hhttp, -⟩, haddrs⟩ := hs
  exact ⟨hc.port, htls, hhttp, MatchTerm.areWellFormed_of_checked _ hc.addrs haddrs⟩

end Listen

namespace Forwarder

/-- The texts of a forwarder. -/
def spellings (f : Forwarder) : List Spelling := [.word f.address, .quoted f.tls]

/-- What reading sees to. -/
def Checked (f : Forwarder) : Prop := fitsInt32 f.port = true

lemma Checked.wellFormed {f : Forwarder} (hc : f.Checked) (hs : AllSound f.spellings) :
    f.WellFormed := by
  rw [spellings, allSound_cons, allSound_cons] at hs
  exact ⟨hs.1, hc, hs.2.1⟩

end Forwarder

namespace RemoteServer

/-- The texts of a remote server. -/
def spellings (r : RemoteServer) : List Spelling :=
  [.word r.address, .quoted r.key, .quoted r.tls]

/-- What reading sees to. -/
def Checked (r : RemoteServer) : Prop := fitsInt32 r.port = true

lemma Checked.wellFormed {r : RemoteServer} (hc : r.Checked) (hs : AllSound r.spellings) :
    r.WellFormed := by
  rw [spellings, allSound_cons, allSound_cons, allSound_cons] at hs
  exact ⟨hs.1, hc, hs.2.1, hs.2.2.1⟩

end RemoteServer

namespace RRsetOrder

/-- The texts of a rule. -/
def spellings (r : RRsetOrder) : List Spelling :=
  [.optionalWord r.rrclass, .optionalWord r.type, .quoted r.name, .word r.order]

lemma wellFormed {r : RRsetOrder} (hs : AllSound r.spellings) : r.WellFormed := by
  simp only [spellings, allSound_cons] at hs
  exact ⟨hs.1, hs.2.1, hs.2.2.1, hs.2.2.2.1⟩

end RRsetOrder

namespace InetChannel

/-- The texts of a channel over the network. -/
def spellings (c : InetChannel) : List Spelling :=
  .word c.address :: (c.keys.map .quoted ++ MatchTerm.listSpellings c.allow)

/-- What reading sees to. -/
structure Checked (c : InetChannel) : Prop where
  port : fitsInt32 c.port = true
  allow : MatchTerm.areChecked c.allow = true

lemma Checked.wellFormed {c : InetChannel} (hc : c.Checked) (hs : AllSound c.spellings) :
    c.WellFormed := by
  rw [spellings, allSound_cons, allSound_append, allSound_map] at hs
  exact ⟨hs.1, hc.port, MatchTerm.areWellFormed_of_checked _ hc.allow hs.2.2, hs.2.1⟩

end InetChannel

namespace UnixChannel

/-- The texts of a channel over a socket. -/
def spellings (c : UnixChannel) : List Spelling := .quoted c.path :: c.keys.map .quoted

/-- What reading sees to. -/
structure Checked (c : UnixChannel) : Prop where
  perm : Text.inInt32 c.perm = true
  owner : Text.inInt32 c.owner = true
  group : Text.inInt32 c.group = true

lemma Checked.wellFormed {c : UnixChannel} (hc : c.Checked) (hs : AllSound c.spellings) :
    c.WellFormed := by
  rw [spellings, allSound_cons, allSound_map] at hs
  exact ⟨hs.1, hc.perm, hc.owner, hc.group, hs.2⟩

end UnixChannel

namespace LogDestination

/-- The texts of a destination. -/
def spellings : LogDestination → List Spelling
  | .file f => [.quoted f.path, .optionalWord f.versions, .optionalWord f.size,
      .optionalWord f.suffix, .optionalWord f.severity]
  | .syslog facility => [.optionalWord facility]
  | .unset | .stderr | .null => []

lemma wellFormed {d : LogDestination} (hs : AllSound d.spellings) : d.WellFormed := by
  cases d with
  | file f =>
      simp only [spellings, allSound_cons] at hs
      exact ⟨hs.1, hs.2.1, hs.2.2.1, hs.2.2.2.1, hs.2.2.2.2.1⟩
  | syslog facility => exact (allSound_cons.mp hs).1
  | unset => trivial
  | stderr => trivial
  | null => trivial

end LogDestination

namespace TrustAnchor

/-- The texts of a trust anchor. -/
def spellings (a : TrustAnchor) : List Spelling := [.quoted a.name, .record a.record]

/-- What reading sees to. -/
def Checked (a : TrustAnchor) : Prop := kindOf? a.record.firstWord a.record = some a.kind

lemma Checked.wellFormed {a : TrustAnchor} (hc : a.Checked) (hs : AllSound a.spellings) :
    a.WellFormed := by
  rw [spellings, allSound_cons, allSound_cons] at hs
  exact ⟨hs.1, hs.2.1, hc⟩

end TrustAnchor

namespace Primaries

/-- The texts of the primaries. -/
def spellings : Primaries → List Spelling
  | .unset => []
  | .group name => [.name name]
  | .servers rs => rs.flatMap RemoteServer.spellings

/-- What reading sees to. -/
def Checked : Primaries → Prop
  | .servers rs => ∀ r ∈ rs, r.Checked
  | .unset | .group _ => True

lemma Checked.wellFormed {p : Primaries} (hc : p.Checked) (hs : AllSound p.spellings) :
    p.WellFormed := by
  cases p with
  | unset => trivial
  | group name => exact (allSound_cons.mp hs).1
  | servers rs =>
      rw [spellings, allSound_flatMap] at hs
      exact fun r hr => (hc r hr).wellFormed (hs r hr)

end Primaries

/-! ## Statements that are kept as they are -/

namespace OtherOption

/-- The texts of statements that were kept. -/
def spellings (os : List OtherOption) : List Spelling := os.map fun o => .keyword o.name

/-- What reading sees to: the statement was kept because no member of the block takes it. -/
structure Kept {β : Type} (table : List (Member β)) (b : β) (o : OtherOption) : Prop where
  name : o.name = [] ∨ o.name.IsKeyword
  raw : o.raw.IsTail
  free : Member.take? table o.statement b = none

/-- All of the statements would be kept, whatever the block says. -/
def AllKept {β : Type} (table : List (Member β)) (os : List OtherOption) : Prop :=
  ∀ o ∈ os, ∀ b, o.Kept table b

section Kept

variable {β : Type} {table : List (Member β)} {b : β} {o : OtherOption} {os : List OtherOption}

lemma Kept.isFree (hc : o.Kept table b) (hname : o.name ≠ []) : o.IsFree table b :=
  ⟨hc.name.resolve_left hname, hc.raw, hc.free⟩

lemma ne_nil_of_allSound (hs : AllSound (spellings os)) (ho : o ∈ os) : o.name ≠ [] :=
  List.forall_mem_map.mp hs o ho

lemma AllKept.isFree (hc : AllKept table os) (hs : AllSound (spellings os)) :
    ∀ o ∈ os, o.IsFree table b :=
  fun o ho => (hc o ho b).isFree (ne_nil_of_allSound hs ho)

end Kept

end OtherOption

/-! ## Entities -/

namespace Include

/-- The texts of an included file. -/
def spellings (i : Include) : List Spelling := [.quoted i.path]

lemma wellFormed {i : Include} (hs : AllSound i.spellings) : i.WellFormed :=
  ⟨(allSound_cons.mp hs).1⟩

end Include

namespace Acl

/-- The texts of a named match list. -/
def spellings (a : Acl) : List Spelling := .quoted a.name :: MatchTerm.listSpellings a.elements

/-- What reading sees to. -/
def Checked (a : Acl) : Prop := MatchTerm.areChecked a.elements = true

lemma Checked.wellFormed {a : Acl} (hc : a.Checked) (hs : AllSound a.spellings) :
    a.WellFormed := by
  rw [spellings, allSound_cons] at hs
  exact ⟨hs.1, MatchTerm.areWellFormed_of_checked _ hc hs.2⟩

end Acl

namespace Key

/-- The texts of a key. -/
def spellings (k : Key) : List Spelling :=
  [.quoted k.name, .quoted k.algorithm, .quoted k.secret] ++ OtherOption.spellings k.other

/-- What reading sees to. -/
def Checked (k : Key) : Prop := OtherOption.AllKept members k.other

lemma Checked.wellFormed {k : Key} (hc : k.Checked) (hs : AllSound k.spellings) :
    k.WellFormed := by
  simp only [spellings, allSound_append, allSound_cons] at hs
  obtain ⟨⟨hname, halgorithm, hsecret, -⟩, hother⟩ := hs
  exact ⟨hname, halgorithm, hsecret, OtherOption.AllKept.isFree hc hother⟩

end Key

namespace KeyStore

/-- The texts of a key store. -/
def spellings (k : KeyStore) : List Spelling :=
  [.quoted k.name, .quoted k.pkcs11Uri] ++ OtherOption.spellings k.other

/-- What reading sees to. -/
def Checked (k : KeyStore) : Prop := OtherOption.AllKept members k.other

lemma Checked.wellFormed {k : KeyStore} (hc : k.Checked) (hs : AllSound k.spellings) :
    k.WellFormed := by
  simp only [spellings, allSound_append, allSound_cons] at hs
  obtain ⟨⟨hname, huri, -⟩, hother⟩ := hs
  exact ⟨hname, huri, OtherOption.AllKept.isFree hc hother⟩

end KeyStore

namespace ServerGroup

/-- The texts of a group of servers. -/
def spellings (g : ServerGroup) : List Spelling :=
  .quoted g.name :: g.servers.flatMap RemoteServer.spellings

/-- What reading sees to. -/
structure Checked (g : ServerGroup) : Prop where
  port : fitsInt32 g.port = true
  servers : ∀ r ∈ g.servers, r.Checked

lemma Checked.wellFormed {g : ServerGroup} (hc : g.Checked) (hs : AllSound g.spellings) :
    g.WellFormed := by
  rw [spellings, allSound_cons, allSound_flatMap] at hs
  exact ⟨hs.1, hc.port, fun r hr => (hc.servers r hr).wellFormed (hs.2 r hr)⟩

end ServerGroup

namespace TlsProfile

/-- The texts of a TLS profile. -/
def spellings (p : TlsProfile) : List Spelling :=
  ([p.name, p.caFile, p.certFile, p.keyFile, p.cipherSuites, p.ciphers, p.dhparamFile,
    p.remoteHostname] ++ p.protocols).map Spelling.quoted ++ OtherOption.spellings p.other

/-- What reading sees to. -/
def Checked (p : TlsProfile) : Prop := OtherOption.AllKept members p.other

lemma Checked.wellFormed {p : TlsProfile} (hc : p.Checked) (hs : AllSound p.spellings) :
    p.WellFormed := by
  simp only [spellings, allSound_append, allSound_map, List.forall_mem_append,
    List.forall_mem_cons] at hs
  obtain ⟨⟨⟨hname, hca, hcert, hkey, hsuites, hciphers, hdhparam, hhostname, -⟩, hprotocols⟩,
    hother⟩ := hs
  exact ⟨hname, hca, hcert, hkey, hsuites, hciphers, hdhparam, hprotocols, hhostname,
    OtherOption.AllKept.isFree hc hother⟩

end TlsProfile

namespace HttpProfile

/-- The texts of an HTTP profile. -/
def spellings (p : HttpProfile) : List Spelling :=
  .quoted p.name :: (p.endpoints.map .quoted ++ OtherOption.spellings p.other)

/-- What reading sees to. -/
structure Checked (p : HttpProfile) : Prop where
  listenerClients : fitsInt32 p.listenerClients = true
  streamsPerConnection : fitsInt32 p.streamsPerConnection = true
  other : OtherOption.AllKept members p.other

lemma Checked.wellFormed {p : HttpProfile} (hc : p.Checked) (hs : AllSound p.spellings) :
    p.WellFormed := by
  rw [spellings, allSound_cons, allSound_append, allSound_map] at hs
  obtain ⟨hname, hendpoints, hother⟩ := hs
  exact ⟨hname, hendpoints, hc.listenerClients, hc.streamsPerConnection,
    hc.other.isFree hother⟩

end HttpProfile

namespace Controls

/-- The texts of the control channels. -/
def spellings (c : Controls) : List Spelling :=
  c.inetChannels.flatMap InetChannel.spellings ++ c.unixChannels.flatMap UnixChannel.spellings ++
    OtherOption.spellings c.other

/-- What reading sees to. -/
structure Checked (c : Controls) : Prop where
  inetChannels : ∀ i ∈ c.inetChannels, i.Checked
  unixChannels : ∀ u ∈ c.unixChannels, u.Checked
  other : OtherOption.AllKept members c.other

lemma Checked.wellFormed {c : Controls} (hc : c.Checked) (hs : AllSound c.spellings) :
    c.WellFormed := by
  rw [spellings, allSound_append, allSound_append, allSound_flatMap, allSound_flatMap] at hs
  obtain ⟨⟨hinet, hunix⟩, hother⟩ := hs
  exact ⟨fun i hi => (hc.inetChannels i hi).wellFormed (hinet i hi),
    fun u hu => (hc.unixChannels u hu).wellFormed (hunix u hu),
    hc.other.isFree hother⟩

end Controls

namespace LogChannel

/-- The texts of a log channel. -/
def spellings (c : LogChannel) : List Spelling :=
  .quoted c.name :: (c.destination.spellings ++ OtherOption.spellings c.other)

/-- What reading sees to. -/
structure Checked (c : LogChannel) : Prop where
  severity : c.severity.IsTail
  other : OtherOption.AllKept members c.other

lemma Checked.wellFormed {c : LogChannel} (hc : c.Checked) (hs : AllSound c.spellings) :
    c.WellFormed := by
  rw [spellings, allSound_cons, allSound_append] at hs
  obtain ⟨hname, hdestination, hother⟩ := hs
  exact ⟨hname, LogDestination.wellFormed hdestination, hc.severity,
    hc.other.isFree hother⟩

end LogChannel

namespace LogCategory

/-- The texts of a category. -/
def spellings (c : LogCategory) : List Spelling := .quoted c.name :: c.channels.map .quoted

lemma wellFormed {c : LogCategory} (hs : AllSound c.spellings) : c.WellFormed := by
  rw [spellings, allSound_cons, allSound_map] at hs
  exact ⟨hs.1, hs.2⟩

end LogCategory

namespace Logging

/-- The texts of channels and categories. -/
def spellings (l : Logging) : List Spelling :=
  l.channels.flatMap LogChannel.spellings ++ l.categories.flatMap LogCategory.spellings ++
    OtherOption.spellings l.other

/-- What reading sees to. -/
structure Checked (l : Logging) : Prop where
  channels : ∀ c ∈ l.channels, c.Checked
  other : OtherOption.AllKept (members .keep) l.other

lemma Checked.wellFormed {l : Logging} (hc : l.Checked) (hs : AllSound l.spellings) :
    l.WellFormed := by
  rw [spellings, allSound_append, allSound_append, allSound_flatMap, allSound_flatMap] at hs
  obtain ⟨⟨hchannels, hcategories⟩, hother⟩ := hs
  exact ⟨fun c hc' => (hc.channels c hc').wellFormed (hchannels c hc'),
    fun c hc' => LogCategory.wellFormed (hcategories c hc'), hc.other.isFree hother⟩

end Logging

namespace Options

/-- The texts of the settings. -/
def spellings (o : Options) : List Spelling :=
  [.quoted o.directory, .optionalWord o.forward, .optionalWord o.dnssecValidation] ++
    ofMatchList? o.allowQuery ++ ofMatchList? o.allowTransfer ++ ofMatchList? o.allowUpdate ++
    o.listenOn.toList.flatMap Listen.spellings ++ o.listenOnV6.toList.flatMap Listen.spellings ++
    o.forwarders.toList.flatMap (fun fs => fs.flatMap Forwarder.spellings) ++
    o.rrsetOrder.flatMap RRsetOrder.spellings ++ OtherOption.spellings o.other

/-- What reading sees to. -/
structure Checked (o : Options) : Prop where
  allowQuery : MatchTerm.areChecked? o.allowQuery
  allowTransfer : MatchTerm.areChecked? o.allowTransfer
  allowUpdate : MatchTerm.areChecked? o.allowUpdate
  listenOn : ∀ l ∈ o.listenOn, l.Checked
  listenOnV6 : ∀ l ∈ o.listenOnV6, l.Checked
  forwarders : ∀ fs ∈ o.forwarders, ∀ f ∈ fs, f.Checked
  other : ∀ p ∈ o.other, p.Kept members o

lemma Checked.wellFormed {o : Options} (hc : o.Checked) (hs : AllSound o.spellings) :
    o.WellFormed := by
  simp only [spellings, allSound_append, allSound_cons, allSound_flatMap, Option.mem_toList] at hs
  obtain ⟨⟨⟨⟨⟨⟨⟨⟨⟨hdirectory, hforward, hvalidation, -⟩, hquery⟩, htransfer⟩, hupdate⟩, hlisten⟩,
    hlisten6⟩, hforwarders⟩, horder⟩, hother⟩ := hs
  exact {
    directory := hdirectory
    allowQuery := hc.allowQuery.wellFormed hquery
    allowTransfer := hc.allowTransfer.wellFormed htransfer
    allowUpdate := hc.allowUpdate.wellFormed hupdate
    listenOn := fun l hl => (hc.listenOn l hl).wellFormed (hlisten l hl)
    listenOnV6 := fun l hl => (hc.listenOnV6 l hl).wellFormed (hlisten6 l hl)
    forwarders := fun fs hfs f hf =>
      (hc.forwarders fs hfs f hf).wellFormed (hforwarders fs hfs f hf)
    forward := hforward
    dnssecValidation := hvalidation
    rrsetOrder := fun r hr => RRsetOrder.wellFormed (horder r hr)
    other := fun p hp => (hc.other p hp).isFree (OtherOption.ne_nil_of_allSound hother hp) }

end Options

namespace Zone

/-- The texts of a zone.  The class is one of a few words, so it is not among them. -/
def spellings (z : Zone) : List Spelling :=
  [.name z.name, .quoted z.file, .optionalWord z.forward, .quoted z.dnssecPolicy] ++
    z.primaries.spellings ++
    z.forwarders.toList.flatMap (fun fs => fs.flatMap Forwarder.spellings) ++
    ofMatchList? z.allowUpdate ++ ofMatchList? z.allowTransfer ++
    z.alsoNotify.toList.flatMap (fun rs => rs.flatMap RemoteServer.spellings) ++
    OtherOption.spellings z.other

/-- What reading sees to. -/
structure Checked (z : Zone) : Prop where
  zclass : z.zclass.isOptionalClass = true
  primaries : z.primaries.Checked
  forwarders : ∀ fs ∈ z.forwarders, ∀ f ∈ fs, f.Checked
  allowUpdate : MatchTerm.areChecked? z.allowUpdate
  allowTransfer : MatchTerm.areChecked? z.allowTransfer
  alsoNotify : ∀ rs ∈ z.alsoNotify, ∀ r ∈ rs, r.Checked
  other : OtherOption.AllKept members z.other

lemma Checked.wellFormed {z : Zone} (hc : z.Checked) (hs : AllSound z.spellings) :
    z.WellFormed := by
  simp only [spellings, allSound_append, allSound_cons, allSound_flatMap, Option.mem_toList] at hs
  obtain ⟨⟨⟨⟨⟨⟨⟨hname, hfile, hforward, hpolicy, -⟩, hprimaries⟩, hforwarders⟩, hupdate⟩, htransfer⟩,
    hnotify⟩, hother⟩ := hs
  exact {
    name := hname
    zclass := hc.zclass
    file := hfile
    primaries := hc.primaries.wellFormed hprimaries
    forwarders := fun fs hfs f hf =>
      (hc.forwarders fs hfs f hf).wellFormed (hforwarders fs hfs f hf)
    forward := hforward
    allowUpdate := hc.allowUpdate.wellFormed hupdate
    allowTransfer := hc.allowTransfer.wellFormed htransfer
    alsoNotify := fun rs hrs r hr => (hc.alsoNotify rs hrs r hr).wellFormed (hnotify rs hrs r hr)
    dnssecPolicy := hpolicy
    other := hc.other.isFree hother }

end Zone

namespace TrustAnchors

/-- The texts of some trust anchors. -/
def spellings (a : TrustAnchors) : List Spelling := a.items.flatMap TrustAnchor.spellings

/-- What reading sees to. -/
def Checked (a : TrustAnchors) : Prop := ∀ t ∈ a.items, t.Checked

lemma Checked.wellFormed {a : TrustAnchors} (hc : a.Checked) (hs : AllSound a.spellings) :
    a.WellFormed := by
  rw [spellings, allSound_flatMap] at hs
  exact ⟨fun t ht => (hc t ht).wellFormed (hs t ht)⟩

end TrustAnchors

namespace View

/-- The texts of a view. -/
def spellings (v : View) : List Spelling :=
  [.name v.name] ++ ofMatchList? v.matchClients ++ ofMatchList? v.matchDestinations ++
    v.trustAnchors.toList.flatMap TrustAnchors.spellings ++ v.zones.flatMap Zone.spellings ++
    v.includes.flatMap Include.spellings ++ OtherOption.spellings v.other

/-- What reading sees to. -/
structure Checked (v : View) : Prop where
  vclass : v.vclass.isOptionalClass = true
  matchClients : MatchTerm.areChecked? v.matchClients
  matchDestinations : MatchTerm.areChecked? v.matchDestinations
  trustAnchors : ∀ a ∈ v.trustAnchors, a.Checked
  zones : ∀ z ∈ v.zones, z.Checked
  other : OtherOption.AllKept (members .keep) v.other

lemma Checked.wellFormed {v : View} (hc : v.Checked) (hs : AllSound v.spellings) :
    v.WellFormed := by
  simp only [spellings, allSound_append, allSound_cons, allSound_flatMap, Option.mem_toList] at hs
  obtain ⟨⟨⟨⟨⟨⟨⟨hname, -⟩, hclients⟩, hdestinations⟩, hanchors⟩, hzones⟩, hincludes⟩, hother⟩ := hs
  exact {
    name := hname
    vclass := hc.vclass
    matchClients := hc.matchClients.wellFormed hclients
    matchDestinations := hc.matchDestinations.wellFormed hdestinations
    trustAnchors := fun a ha => (hc.trustAnchors a ha).wellFormed (hanchors a ha)
    zones := fun z hz => (hc.zones z hz).wellFormed (hzones z hz)
    includes := fun i hi => Include.wellFormed (hincludes i hi)
    other := hc.other.isFree hother }

end View

/-! ## Configurations -/

namespace Config

/-- The texts of a configuration. -/
def spellings (c : Config) : List Spelling :=
  c.includes.flatMap Include.spellings ++ c.acls.flatMap Acl.spellings ++
    c.keys.flatMap Key.spellings ++ c.keyStores.flatMap KeyStore.spellings ++
    c.remoteServers.flatMap ServerGroup.spellings ++ c.tls.flatMap TlsProfile.spellings ++
    c.http.flatMap HttpProfile.spellings ++ c.controls.toList.flatMap Controls.spellings ++
    c.logging.toList.flatMap Logging.spellings ++ c.options.toList.flatMap Options.spellings ++
    c.trustAnchors.flatMap TrustAnchors.spellings ++ c.views.flatMap View.spellings ++
    c.zones.flatMap Zone.spellings

/-- What reading sees to. -/
structure Checked (c : Config) : Prop where
  acls : ∀ a ∈ c.acls, a.Checked
  keys : ∀ k ∈ c.keys, k.Checked
  keyStores : ∀ k ∈ c.keyStores, k.Checked
  remoteServers : ∀ g ∈ c.remoteServers, g.Checked
  tls : ∀ p ∈ c.tls, p.Checked
  http : ∀ p ∈ c.http, p.Checked
  controls : ∀ b ∈ c.controls, b.Checked
  logging : ∀ l ∈ c.logging, l.Checked
  options : ∀ o ∈ c.options, o.Checked
  trustAnchors : ∀ a ∈ c.trustAnchors, a.Checked
  views : ∀ v ∈ c.views, v.Checked
  zones : ∀ z ∈ c.zones, z.Checked

/-- **A checked configuration** with sound spellings is well-formed. -/
theorem Checked.wellFormed {c : Config} (hc : c.Checked) (hs : AllSound c.spellings) :
    c.WellFormed := by
  simp only [spellings, allSound_append, allSound_flatMap, Option.mem_toList] at hs
  obtain ⟨⟨⟨⟨⟨⟨⟨⟨⟨⟨⟨⟨hincludes, hacls⟩, hkeys⟩, hstores⟩, hservers⟩, htls⟩, hhttp⟩, hcontrols⟩,
    hlogging⟩, hoptions⟩, hanchors⟩, hviews⟩, hzones⟩ := hs
  exact {
    includes := fun i hi => Include.wellFormed (hincludes i hi)
    acls := fun a ha => (hc.acls a ha).wellFormed (hacls a ha)
    keys := fun k hk => (hc.keys k hk).wellFormed (hkeys k hk)
    keyStores := fun k hk => (hc.keyStores k hk).wellFormed (hstores k hk)
    remoteServers := fun g hg => (hc.remoteServers g hg).wellFormed (hservers g hg)
    tls := fun p hp => (hc.tls p hp).wellFormed (htls p hp)
    http := fun p hp => (hc.http p hp).wellFormed (hhttp p hp)
    controls := fun b hb => (hc.controls b hb).wellFormed (hcontrols b hb)
    logging := fun l hl => (hc.logging l hl).wellFormed (hlogging l hl)
    options := fun o ho => (hc.options o ho).wellFormed (hoptions o ho)
    trustAnchors := fun a ha => (hc.trustAnchors a ha).wellFormed (hanchors a ha)
    views := fun v hv => (hc.views v hv).wellFormed (hviews v hv)
    zones := fun z hz => (hc.zones z hz).wellFormed (hzones z hz) }

end Config

end NameServerConf
