import NameServerConf.Key
import NameServerConf.ServerGroup
import NameServerConf.Profile
import NameServerConf.Controls
import NameServerConf.Logging
import NameServerConf.View

/-!
# Configurations

A configuration holds what the library knows of a file: for each **keyword** at top level either all
statements with it, in order, or the one that counts.  Statements with other keywords are not part of
it; they stay where they are in the file.

`Config.ofNodes` reads a configuration from the nodes of a file, and `Config.nodes` gives the
statements for a keyword back.
-/

namespace NameServerConf

/-- The keywords at top level that the library knows. -/
inductive Keyword
  | include
  | acl
  | key
  | keyStore
  | remoteServers
  | tls
  | http
  | controls
  | logging
  | options
  | trustAnchors
  | view
  | zone
deriving DecidableEq, Inhabited, Repr

/-- What a configuration file says. -/
structure Config where
  includes : List Include
  acls : List Acl
  keys : List Key
  keyStores : List KeyStore
  remoteServers : List ServerGroup
  tls : List TlsProfile
  http : List HttpProfile
  controls : Option Controls
  logging : Option Logging
  options : Option Options
  trustAnchors : List TrustAnchors
  views : List View
  zones : List Zone
deriving DecidableEq, Inhabited, Repr

namespace Keyword

/-- Every keyword, in the order in which statements are written. -/
def all : List Keyword :=
  [.include, .acl, .key, .keyStore, .remoteServers, .tls, .http, .controls, .logging, .options,
    .trustAnchors, .view, .zone]

/-- How a keyword is spelt. -/
def word : Keyword → Text
  | .include => "include"
  | .acl => "acl"
  | .key => "key"
  | .keyStore => "key-store"
  | .remoteServers => "remote-servers"
  | .tls => "tls"
  | .http => "http"
  | .controls => "controls"
  | .logging => "logging"
  | .options => "options"
  | .trustAnchors => "trust-anchors"
  | .view => "view"
  | .zone => "zone"

/-- The keyword that is spelt so. -/
def ofWord? (w : Text) : Option Keyword := all.find? (·.word = w)

end Keyword

namespace Config

/-- The configuration that says nothing. -/
def empty : Config := ⟨[], [], [], [], [], [], [], none, none, none, [], [], []⟩

/-! ## Reading -/

/-- Adds what a statement with the given keyword says.  Of controls, logging and options, the last
    statement counts. -/
def add (unknown : Unknown) (c : Config) (s : Statement) : Keyword → Noted Config
  | .include => pure { c with includes := c.includes ++ [Include.ofStatement s] }
  | .acl => do pure { c with acls := c.acls ++ [← Acl.ofStatement s] }
  | .key => do pure { c with keys := c.keys ++ [← Key.ofStatement unknown s] }
  | .keyStore => do pure { c with keyStores := c.keyStores ++ [← KeyStore.ofStatement unknown s] }
  | .remoteServers => do
    pure { c with remoteServers := c.remoteServers ++ [← ServerGroup.ofStatement s] }
  | .tls => do pure { c with tls := c.tls ++ [← TlsProfile.ofStatement unknown s] }
  | .http => do pure { c with http := c.http ++ [← HttpProfile.ofStatement unknown s] }
  | .controls => do pure { c with controls := some (← Controls.ofStatement unknown s) }
  | .logging => do pure { c with logging := some (← Logging.ofStatement unknown s) }
  | .options => do pure { c with options := some (← Options.ofStatement s) }
  | .trustAnchors => do
    pure { c with trustAnchors := c.trustAnchors ++ [← TrustAnchors.ofStatement s] }
  | .view => do pure { c with views := c.views ++ [← View.ofStatement unknown s] }
  | .zone => do pure { c with zones := c.zones ++ [← Zone.ofStatement unknown s] }

/-- Adds what some statements say, in order; those with other keywords say nothing. -/
def addAll (unknown : Unknown) : List Statement → Config → Noted Config
  | [], c => pure c
  | s :: ss, c =>
    match Keyword.ofWord? s.keyword with
    | none => addAll unknown ss c
    | some k => do addAll unknown ss (← c.add unknown s k)

/-- Counts what was left out, if anything was. -/
def countLeftOut (m : Noted Config) : Noted Config :=
  if Remark.leftOut m.remarks = [] then m
  else ⟨m.value, m.remarks ++ [.statementsLeftOut (Remark.leftOut m.remarks).length]⟩

/-- What the nodes of a file say. -/
def ofNodes (unknown : Unknown) (ns : List Node) : Noted Config :=
  countLeftOut (addAll unknown (Node.statements ns) empty)

/-! ## Writing -/

/-- The statements for a keyword, one for each entity, in order. -/
def nodes (c : Config) : Keyword → List Node
  | .include => c.includes.map Include.node
  | .acl => c.acls.map Acl.node
  | .key => c.keys.map Key.node
  | .keyStore => c.keyStores.map KeyStore.node
  | .remoteServers => c.remoteServers.map ServerGroup.node
  | .tls => c.tls.map TlsProfile.node
  | .http => c.http.map HttpProfile.node
  | .controls => c.controls.toList.map Controls.node
  | .logging => c.logging.toList.map Logging.node
  | .options => c.options.toList.map Options.node
  | .trustAnchors => c.trustAnchors.map TrustAnchors.node
  | .view => c.views.map View.node
  | .zone => c.zones.map Zone.node

end Config

end NameServerConf
