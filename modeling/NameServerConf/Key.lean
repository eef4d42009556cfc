import NameServerConf.Block
import NameServerConf.Text.Header

/-!
# Keys and key stores

A key is a secret that two servers share; a key store says where keys are held.
-/

namespace NameServerConf

/-- A shared secret. -/
structure Key where
  name : Text
  algorithm : Text
  secret : Text
  other : List OtherOption
deriving DecidableEq, Inhabited, Repr

/-- A place where keys are held. -/
structure KeyStore where
  name : Text
  pkcs11Uri : Text
  other : List OtherOption
deriving DecidableEq, Inhabited, Repr

namespace Key

/-- What a key block may hold. -/
def members : List (Member Key) :=
  [.string "algorithm" fun t k => { k with algorithm := t },
    .string "secret" fun t k => { k with secret := t }]

/-- A key, from its statement. -/
def ofStatement (unknown : Unknown) (s : Statement) : Noted Key :=
  let name := s.header.headerName
  readMembers members
    (unknown.handle ⟨"key", name⟩ fun o k => { k with other := k.other ++ [o] })
    s.children ⟨name, [], [], []⟩

/-- The statement of a key. -/
def node (k : Key) : Node :=
  .block (Text.namedHeader "key" k.name [])
    (Node.lines (Text.nameClause "algorithm" k.algorithm ++ Text.nameClause "secret" k.secret) ++
      Node.otherLines k.other)

end Key

namespace KeyStore

/-- What a key store block may hold. -/
def members : List (Member KeyStore) :=
  [.string "pkcs11-uri" fun t k => { k with pkcs11Uri := t }]

/-- A key store, from its statement. -/
def ofStatement (unknown : Unknown) (s : Statement) : Noted KeyStore :=
  let name := s.header.headerName
  readMembers members
    (unknown.handle ⟨"key-store", name⟩ fun o k => { k with other := k.other ++ [o] })
    s.children ⟨name, [], []⟩

/-- The statement of a key store. -/
def node (k : KeyStore) : Node :=
  .block (Text.namedHeader "key-store" k.name [])
    (Node.lines (Text.nameClause "pkcs11-uri" k.pkcs11Uri) ++ Node.otherLines k.other)

end KeyStore

end NameServerConf
