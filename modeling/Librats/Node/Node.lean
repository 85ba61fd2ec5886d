import Librats.Peer.PeerTable
import Librats.Transport.Reactor

/-!
# The node

The callbacks of `Node` (`node/node.cpp`) on its connections. The callbacks of the application and
the handlers of the router are one function from the history of the node to the calls they make.
-/

namespace Librats

open PeerTable

/-- What a node does, newest first in its log. -/
inductive NodeEvent (I : Type)
  /-- `on_established` took the connection. -/
  | admitted (conn : ConnId)
  /-- It is a self connection, beyond the peer limit, or a rejected duplicate. -/
  | refused (conn : ConnId)
  | connected (peer : I)
  | disconnected (peer : I)
  | dialFailed (host : Bytes) (port : ℕ)
  /-- `handle_identify` got a frame. -/
  | identified (conn : ConnId) (frame : Frame)
  /-- `router_.dispatch` got a frame. -/
  | dispatched (conn : ConnId) (frame : Frame)
  deriving DecidableEq

/-- What a node is set up with. -/
structure Node.Config (I : Type) where
  identity : I
  /-- `max_peers_`; 0 is no limit. -/
  maxPeers : ℕ
  /-- The index of the reactor a connection is on. -/
  reactor : ℕ
  /-- `IpAddress::parse`. -/
  parseIp : Bytes → Option Bytes
  /-- The payload of `send_identify`. -/
  identify : Bytes
  /-- The addresses `handle_identify` finds in a frame. -/
  candidates : Frame → List Address
  /-- What the application does when the newest event happens. -/
  app : List (NodeEvent I) → List Action

/-- The configuration as a connection of reactor `k` sees it. -/
def Node.Config.on {I : Type} (cfg : Node.Config I) (k : ℕ) : Node.Config I :=
  { cfg with reactor := k }

/-- The state of `Node` its callbacks work on. -/
structure Node (I : Type) where
  peers : PeerTable I
  log : List (NodeEvent I)

namespace Node

variable {I : Type}

def record (n : Node I) (e : NodeEvent I) : Node I := { n with log := e :: n.log }

variable (cfg : Config I)

/-- A round of application callbacks. -/
def fire (n : Node I) (e : NodeEvent I) : Node I × List Action :=
  (n.record e, cfg.app (e :: n.log))

variable {H S : Type}

/-- The `PeerInfo` of a connection; a host name that was dialed is not an address. -/
def infoOf (c : Connection H S I) : PeerInfo I where
  id := c.remoteId
  addresses :=
    if c.dialPort = 0 then []
    else ((cfg.parseIp c.dialHost).map fun ip => ⟨ip, c.dialPort⟩).toList
  direction := c.role

def routeOf (c : Connection H S I) : PeerRoute := ⟨cfg.reactor, c.id⟩

variable [LinearOrder I]

def admitInbound (n : Node I) : Bool :=
  cfg.maxPeers = 0 ∨ n.peers.size < cfg.maxPeers

/-- The peer-limit backstop of `on_established`. -/
def beyondLimit (n : Node I) (c : Connection H S I) : Bool :=
  cfg.maxPeers ≠ 0 ∧ c.role = .inbound ∧ cfg.maxPeers ≤ n.peers.size ∧
    n.peers.contains c.remoteId = false

/-- The call of `peers_.add` in `on_established`. -/
def register (n : Node I) (c : Connection H S I) : PeerTable I × AddOutcome :=
  n.peers.add (infoOf cfg c) (routeOf cfg c) (cfg.identity < c.remoteId)

/-- The loser of a duplicate race is closed. -/
def closeLoser (outcome : AddOutcome) : List Action :=
  outcome.close.toList.map fun loser => .close loser.reactor loser.conn .duplicateConn

def sendIdentify (c : Connection H S I) : Action :=
  .send c.id ⟨.control, 0, 0⟩ cfg.identify

def onEstablished (n : Node I) (c : Connection H S I) : Node I × List Action :=
  if c.remoteId = cfg.identity then
    (n.record (.refused c.id), [.close cfg.reactor c.id .localClose])
  else if beyondLimit cfg n c then (n.record (.refused c.id), [.close cfg.reactor c.id .peerLimit])
  else
    let added := register cfg n c
    let n := { n with peers := added.1 }
    match added.2.result with
    | .rejected => (n.record (.refused c.id), closeLoser added.2)
    | .newPeer =>
      let fired := fire cfg (n.record (.admitted c.id)) (.connected c.remoteId)
      (fired.1, closeLoser added.2 ++ fired.2 ++ [sendIdentify cfg c])
    | .updated | .replaced =>
      (n.record (.admitted c.id), closeLoser added.2 ++ [sendIdentify cfg c])

/-- `Node::on_frame`; `handle_identify` keeps and tells the addresses. -/
def onFrame (n : Node I) (c : Connection H S I) (frame : Frame) : Node I × List Action :=
  if frame.header.type = .control then
    let merged := n.peers.addAddresses c.remoteId (routeOf cfg c) (cfg.candidates frame)
    fire cfg { n with peers := merged.1 } (.identified c.id frame)
  else fire cfg n (.dispatched c.id frame)

variable [Zero I]

def onClosed (n : Node I) (c : Connection H S I) (_reason : CloseReason) : Node I × List Action :=
  if c.remoteId = 0 then
    if c.role = .outbound ∧ c.dialPort ≠ 0 then fire cfg n (.dialFailed c.dialHost c.dialPort)
    else (n, [])
  else
    match n.peers.remove c.remoteId (routeOf cfg c) with
    | (_, false) => (n, [])
    | (peers, true) => fire cfg { n with peers := peers } (.disconnected c.remoteId)

/-- A node as the delegate of its reactor. -/
def delegate : Delegate (Node I) H S I where
  admitInbound := admitInbound cfg
  onEstablished := onEstablished cfg
  onFrame := onFrame cfg
  onClosed := onClosed cfg

/-- The connection `on_established` refuses. -/
def Refuses (n : Node I) (c : Connection H S I) : Prop :=
  c.remoteId = cfg.identity ∨ beyondLimit cfg n c = true ∨ (register cfg n c).2.result = .rejected

end Node

end Librats
