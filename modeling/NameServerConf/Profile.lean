import NameServerConf.Block
import NameServerConf.Text.Header

/-!
# Profiles for connections

What a server uses for connections over TLS and over HTTP, under a name that listeners and forwarders
refer to.
-/

namespace NameServerConf

/-- Certificates and settings for connections over TLS. -/
structure TlsProfile where
  name : Text
  caFile : Text
  certFile : Text
  keyFile : Text
  cipherSuites : Text
  ciphers : Text
  dhparamFile : Text
  preferServerCiphers : Option Bool
  protocols : List Text
  remoteHostname : Text
  sessionTickets : Option Bool
  other : List OtherOption
deriving DecidableEq, Inhabited, Repr

/-- Settings for connections over HTTP. -/
structure HttpProfile where
  name : Text
  endpoints : List Text
  listenerClients : Option Int
  streamsPerConnection : Option Int
  other : List OtherOption
deriving DecidableEq, Inhabited, Repr

/-- A list of strings, or nothing if it is empty. -/
def Text.stringsClause (keyword : Text) (l : List Text) : List Text :=
  if l = [] then [] else [clause keyword (ofStrings l)]

namespace TlsProfile

/-- What a TLS block may hold. -/
def members : List (Member TlsProfile) :=
  [.string "ca-file" fun t p => { p with caFile := t },
    .string "cert-file" fun t p => { p with certFile := t },
    .string "key-file" fun t p => { p with keyFile := t },
    .string "cipher-suites" fun t p => { p with cipherSuites := t },
    .string "ciphers" fun t p => { p with ciphers := t },
    .string "dhparam-file" fun t p => { p with dhparamFile := t },
    .yesNo "prefer-server-ciphers" fun b p => { p with preferServerCiphers := some b },
    .all "protocols" fun s p => pure { p with protocols := s.value.readStrings },
    .string "remote-hostname" fun t p => { p with remoteHostname := t },
    .yesNo "session-tickets" fun b p => { p with sessionTickets := some b }]

/-- A TLS profile, from its statement. -/
def ofStatement (unknown : Unknown) (s : Statement) : Noted TlsProfile :=
  let name := s.header.headerName
  readMembers members
    (unknown.handle ⟨"tls", name⟩ fun o p => { p with other := p.other ++ [o] })
    s.children ⟨name, [], [], [], [], [], [], none, [], [], none, []⟩

/-- The statement of a TLS profile. -/
def node (p : TlsProfile) : Node :=
  .block (Text.namedHeader "tls" p.name [])
    (Node.lines
      (Text.nameClause "ca-file" p.caFile ++ Text.nameClause "cert-file" p.certFile ++
        Text.nameClause "key-file" p.keyFile ++ Text.nameClause "cipher-suites" p.cipherSuites ++
        Text.nameClause "ciphers" p.ciphers ++ Text.nameClause "dhparam-file" p.dhparamFile ++
        Text.yesNoClause "prefer-server-ciphers" p.preferServerCiphers ++
        Text.stringsClause "protocols" p.protocols ++
        Text.nameClause "remote-hostname" p.remoteHostname ++
        Text.yesNoClause "session-tickets" p.sessionTickets) ++
      Node.otherLines p.other)

end TlsProfile

namespace HttpProfile

/-- What an HTTP block may hold. -/
def members : List (Member HttpProfile) :=
  [.all "endpoints" fun s p => pure { p with endpoints := s.value.readStrings },
    .number "listener-clients" fun n p => { p with listenerClients := some n },
    .number "streams-per-connection" fun n p => { p with streamsPerConnection := some n }]

/-- An HTTP profile, from its statement. -/
def ofStatement (unknown : Unknown) (s : Statement) : Noted HttpProfile :=
  let name := s.header.headerName
  readMembers members
    (unknown.handle ⟨"http", name⟩ fun o p => { p with other := p.other ++ [o] })
    s.children ⟨name, [], none, none, []⟩

/-- The statement of an HTTP profile. -/
def node (p : HttpProfile) : Node :=
  .block (Text.namedHeader "http" p.name [])
    (Node.lines
      (Text.stringsClause "endpoints" p.endpoints ++
        Text.numberClause "listener-clients" p.listenerClients ++
        Text.numberClause "streams-per-connection" p.streamsPerConnection) ++
      Node.otherLines p.other)

end HttpProfile

end NameServerConf
