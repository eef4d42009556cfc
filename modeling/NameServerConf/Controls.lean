import NameServerConf.ControlChannel
import NameServerConf.Block

/-!
# The controls block

All control channels of a server.  Written out, those over the network come first.
-/

namespace NameServerConf

/-- The control channels of a server. -/
structure Controls where
  inetChannels : List InetChannel
  unixChannels : List UnixChannel
  other : List OtherOption
deriving DecidableEq, Inhabited, Repr

namespace Controls

/-- What a controls block may hold. -/
def members : List (Member Controls) :=
  [.all "inet" fun s c => do
      pure { c with inetChannels := c.inetChannels ++ [← InetChannel.read s.text] },
    .all "unix" fun s c => do
      pure { c with unixChannels := c.unixChannels ++ [← UnixChannel.read s.text] }]

/-- The control channels, from their statement. -/
def ofStatement (unknown : Unknown) (s : Statement) : Noted Controls :=
  readMembers members
    (unknown.handle (.only "controls") fun o c => { c with other := c.other ++ [o] })
    s.children ⟨[], [], []⟩

/-- The statement of the control channels. -/
def node (c : Controls) : Node :=
  .block "controls"
    (Node.lines (c.inetChannels.map InetChannel.text ++ c.unixChannels.map UnixChannel.text) ++
      Node.otherLines c.other)

end Controls

end NameServerConf
