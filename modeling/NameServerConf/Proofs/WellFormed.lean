import NameServerConf.Config.Basic
import NameServerConf.Proofs.Fields

/-!
# Well-formed configurations

A configuration is **well-formed** if each of its texts is of the kind that its place in a file
asks for: what is written between quotation marks is clean, what is written bare is a word, what is
written as it is is a value.  Numbers have 32 bits, and an address is not taken for the name of a
match list.

A statement that was kept as it is must be **free**: no member of the block takes it.
-/

namespace NameServerConf

namespace Text

/-- A word, or nothing. -/
def isOptionalWord (s : Text) : Bool := s = [] || s.isWord

/-- The word for a class, or nothing. -/
def isOptionalClass (s : Text) : Bool := s = [] || s.isClassWord

end Text

/-! ## Values -/

namespace MatchTerm

mutual

/-- Each name in the term is clean, addresses look like addresses, and the names of lists do not. -/
def isWellFormed : MatchTerm → Bool
  | .address _ a => a.isWord && looksLikeAddress a && a.head? ≠ some Byte.bang
  | .key _ k => k.isClean
  | .acl _ name => name.isClean && !looksLikeAddress name
  | .nested _ ts => areWellFormed ts

/-- All terms of a list are well-formed. -/
def areWellFormed : List MatchTerm → Bool
  | [] => true
  | t :: ts => t.isWellFormed && areWellFormed ts

end

end MatchTerm

/-- A port, if there is one, is a number of 32 bits. -/
def fitsInt32 (n? : Option Int) : Bool := n?.all Text.inInt32

/-- The conditions on where to listen. -/
structure Listen.WellFormed (l : Listen) : Prop where
  port : fitsInt32 l.port = true
  tls : l.tls.isClean = true
  http : l.http.isClean = true
  addrs : MatchTerm.areWellFormed l.addrs = true

/-- The conditions on a server that queries are forwarded to. -/
structure Forwarder.WellFormed (f : Forwarder) : Prop where
  address : f.address.isWord = true
  port : fitsInt32 f.port = true
  tls : f.tls.isClean = true

/-- The conditions on a server that zones are exchanged with. -/
structure RemoteServer.WellFormed (r : RemoteServer) : Prop where
  address : r.address.isWord = true
  port : fitsInt32 r.port = true
  key : r.key.isClean = true
  tls : r.tls.isClean = true

/-- The conditions on a rule for the order of records. -/
structure RRsetOrder.WellFormed (r : RRsetOrder) : Prop where
  rrclass : r.rrclass.isOptionalWord = true
  type : r.type.isOptionalWord = true
  name : r.name.isClean = true
  order : r.order.isWord = true

/-- The conditions on a control channel over the network. -/
structure InetChannel.WellFormed (c : InetChannel) : Prop where
  address : c.address.isWord = true
  port : fitsInt32 c.port = true
  allow : MatchTerm.areWellFormed c.allow = true
  keys : ∀ k ∈ c.keys, k.isClean = true

/-- The conditions on a control channel over a socket. -/
structure UnixChannel.WellFormed (c : UnixChannel) : Prop where
  path : c.path.isClean = true
  perm : Text.inInt32 c.perm = true
  owner : Text.inInt32 c.owner = true
  group : Text.inInt32 c.group = true
  keys : ∀ k ∈ c.keys, k.isClean = true

/-- The conditions on a log file. -/
structure LogFile.WellFormed (f : LogFile) : Prop where
  path : f.path.isClean = true
  versions : f.versions.isOptionalWord = true
  size : f.size.isOptionalWord = true
  suffix : f.suffix.isOptionalWord = true
  severity : f.severity.isOptionalWord = true

/-- The conditions on where the messages of a channel go. -/
def LogDestination.WellFormed : LogDestination → Prop
  | .file f => f.WellFormed
  | .syslog facility => facility.isOptionalWord = true
  | .unset | .stderr | .null => True

/-- The conditions on a trust anchor: its record is of the kind that it is said to be. -/
structure TrustAnchor.WellFormed (a : TrustAnchor) : Prop where
  name : a.name.isClean = true
  record : a.record.IsValue
  kind : TrustAnchor.kindOf? a.record.firstWord a.record = some a.kind

/-- The conditions on the servers that a zone is copied from. -/
def Primaries.WellFormed : Primaries → Prop
  | .unset => True
  | .group name => name.isName = true
  | .servers rs => ∀ r ∈ rs, r.WellFormed

/-! ## Statements that are kept as they are -/

/-- The statement that an unknown option is. -/
def OtherOption.statement (o : OtherOption) : Statement :=
  Statement.ofParts o.name (Text.afterGap o.raw)

/-- An unknown option that is a statement of its own and that no member of the block takes. -/
structure OtherOption.IsFree {β : Type} (table : List (Member β)) (b : β) (o : OtherOption) :
    Prop where
  name : o.name.IsKeyword
  raw : o.raw.IsTail
  free : Member.take? table o.statement b = none

/-! ## Entities -/

/-- The conditions on an included file. -/
structure Include.WellFormed (i : Include) : Prop where
  path : i.path.isClean = true

/-- The conditions on a named match list. -/
structure Acl.WellFormed (a : Acl) : Prop where
  name : a.name.isClean = true
  elements : MatchTerm.areWellFormed a.elements = true

/-- The conditions on a key. -/
structure Key.WellFormed (k : Key) : Prop where
  name : k.name.isClean = true
  algorithm : k.algorithm.isClean = true
  secret : k.secret.isClean = true
  other : ∀ o ∈ k.other, o.IsFree Key.members k

/-- The conditions on a key store. -/
structure KeyStore.WellFormed (k : KeyStore) : Prop where
  name : k.name.isClean = true
  pkcs11Uri : k.pkcs11Uri.isClean = true
  other : ∀ o ∈ k.other, o.IsFree KeyStore.members k

/-- The conditions on a group of servers. -/
structure ServerGroup.WellFormed (g : ServerGroup) : Prop where
  name : g.name.isClean = true
  port : fitsInt32 g.port = true
  servers : ∀ r ∈ g.servers, r.WellFormed

/-- The conditions on a TLS profile. -/
structure TlsProfile.WellFormed (p : TlsProfile) : Prop where
  name : p.name.isClean = true
  caFile : p.caFile.isClean = true
  certFile : p.certFile.isClean = true
  keyFile : p.keyFile.isClean = true
  cipherSuites : p.cipherSuites.isClean = true
  ciphers : p.ciphers.isClean = true
  dhparamFile : p.dhparamFile.isClean = true
  protocols : ∀ s ∈ p.protocols, s.isClean = true
  remoteHostname : p.remoteHostname.isClean = true
  other : ∀ o ∈ p.other, o.IsFree TlsProfile.members p

/-- The conditions on an HTTP profile. -/
structure HttpProfile.WellFormed (p : HttpProfile) : Prop where
  name : p.name.isClean = true
  endpoints : ∀ s ∈ p.endpoints, s.isClean = true
  listenerClients : fitsInt32 p.listenerClients = true
  streamsPerConnection : fitsInt32 p.streamsPerConnection = true
  other : ∀ o ∈ p.other, o.IsFree HttpProfile.members p

/-- The conditions on control channels. -/
structure Controls.WellFormed (c : Controls) : Prop where
  inetChannels : ∀ i ∈ c.inetChannels, i.WellFormed
  unixChannels : ∀ u ∈ c.unixChannels, u.WellFormed
  other : ∀ o ∈ c.other, o.IsFree Controls.members c

/-- The conditions on a log channel. -/
structure LogChannel.WellFormed (c : LogChannel) : Prop where
  name : c.name.isClean = true
  destination : c.destination.WellFormed
  severity : c.severity.IsTail
  other : ∀ o ∈ c.other, o.IsFree LogChannel.members c

/-- The conditions on a category. -/
structure LogCategory.WellFormed (c : LogCategory) : Prop where
  name : c.name.isClean = true
  channels : ∀ s ∈ c.channels, s.isClean = true

/-- The conditions on channels and categories. -/
structure Logging.WellFormed (l : Logging) : Prop where
  channels : ∀ c ∈ l.channels, c.WellFormed
  categories : ∀ c ∈ l.categories, c.WellFormed
  other : ∀ o ∈ l.other, o.IsFree (Logging.members .keep) l

/-- The conditions on the settings of the server. -/
structure Options.WellFormed (o : Options) : Prop where
  directory : o.directory.isClean = true
  allowQuery : ∀ ts ∈ o.allowQuery, MatchTerm.areWellFormed ts = true
  allowTransfer : ∀ ts ∈ o.allowTransfer, MatchTerm.areWellFormed ts = true
  allowUpdate : ∀ ts ∈ o.allowUpdate, MatchTerm.areWellFormed ts = true
  listenOn : ∀ l ∈ o.listenOn, l.WellFormed
  listenOnV6 : ∀ l ∈ o.listenOnV6, l.WellFormed
  forwarders : ∀ fs ∈ o.forwarders, ∀ f ∈ fs, f.WellFormed
  forward : o.forward.isOptionalWord = true
  dnssecValidation : o.dnssecValidation.isOptionalWord = true
  rrsetOrder : ∀ r ∈ o.rrsetOrder, r.WellFormed
  other : ∀ p ∈ o.other, p.IsFree Options.members o

/-- The conditions on a zone. -/
structure Zone.WellFormed (z : Zone) : Prop where
  name : z.name.isName = true
  zclass : z.zclass.isOptionalClass = true
  file : z.file.isClean = true
  primaries : z.primaries.WellFormed
  forwarders : ∀ fs ∈ z.forwarders, ∀ f ∈ fs, f.WellFormed
  forward : z.forward.isOptionalWord = true
  allowUpdate : ∀ ts ∈ z.allowUpdate, MatchTerm.areWellFormed ts = true
  allowTransfer : ∀ ts ∈ z.allowTransfer, MatchTerm.areWellFormed ts = true
  alsoNotify : ∀ rs ∈ z.alsoNotify, ∀ r ∈ rs, r.WellFormed
  dnssecPolicy : z.dnssecPolicy.isClean = true
  other : ∀ o ∈ z.other, o.IsFree Zone.members z

/-- The conditions on the trust anchors of one statement. -/
structure TrustAnchors.WellFormed (a : TrustAnchors) : Prop where
  items : ∀ t ∈ a.items, t.WellFormed

/-- The conditions on a view. -/
structure View.WellFormed (v : View) : Prop where
  name : v.name.isName = true
  vclass : v.vclass.isOptionalClass = true
  matchClients : ∀ ts ∈ v.matchClients, MatchTerm.areWellFormed ts = true
  matchDestinations : ∀ ts ∈ v.matchDestinations, MatchTerm.areWellFormed ts = true
  trustAnchors : ∀ a ∈ v.trustAnchors, a.WellFormed
  zones : ∀ z ∈ v.zones, z.WellFormed
  includes : ∀ i ∈ v.includes, i.WellFormed
  other : ∀ o ∈ v.other, o.IsFree (View.members .keep) v

/-- The conditions on a configuration. -/
structure Config.WellFormed (c : Config) : Prop where
  includes : ∀ i ∈ c.includes, i.WellFormed
  acls : ∀ a ∈ c.acls, a.WellFormed
  keys : ∀ k ∈ c.keys, k.WellFormed
  keyStores : ∀ k ∈ c.keyStores, k.WellFormed
  remoteServers : ∀ g ∈ c.remoteServers, g.WellFormed
  tls : ∀ p ∈ c.tls, p.WellFormed
  http : ∀ p ∈ c.http, p.WellFormed
  controls : ∀ b ∈ c.controls, b.WellFormed
  logging : ∀ l ∈ c.logging, l.WellFormed
  options : ∀ o ∈ c.options, o.WellFormed
  trustAnchors : ∀ a ∈ c.trustAnchors, a.WellFormed
  views : ∀ v ∈ c.views, v.WellFormed
  zones : ∀ z ∈ c.zones, z.WellFormed

end NameServerConf
