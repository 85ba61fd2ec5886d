import Librats.BitTorrent.Bencode
import Librats.Dht.Id
import Librats.Foundations.BigEndian

/-!
# KRPC messages

The messages of `dht/krpc.h` and their encoding as bencoded dictionaries (`dht/krpc.cpp`). A field
that is missing is left at its default; anything of another form than expected makes the whole
message unreadable.
-/

namespace Librats

/-- The significant bytes of an address. -/
def IpAddress.bytes : IpAddress → Bytes
  | .unspecified => []
  | .v4 addr => BigEndian.encode 4 addr.toNat
  | .v6 addr => BigEndian.encode 16 addr.toNat

def IpAddress.fromBytes (b : Bytes) : Option IpAddress :=
  if b.length = 4 then some (.v4 (.ofNat 32 (BigEndian.decode b)))
  else if b.length = 16 then some (.v6 (.ofNat 128 (BigEndian.decode b)))
  else none

end Librats

namespace Librats.Dht

open BigEndian

inductive KrpcMessageType
  | query
  | response
  | error
  deriving DecidableEq

inductive KrpcQueryType
  | ping
  | findNode
  | getPeers
  | announcePeer
  deriving DecidableEq

structure KrpcNode where
  id : NodeId
  ip : IpAddress
  port : UInt16
  deriving DecidableEq

/-- `KrpcMessage`, with the values of a new one. The error code is a number of which the header
names four. -/
structure KrpcMessage where
  type : KrpcMessageType := .query
  transactionId : Bytes := []
  queryType : KrpcQueryType := .ping
  senderId : NodeId := 0
  targetId : NodeId := 0
  infoHash : NodeId := 0
  port : UInt16 := 0
  impliedPort : Bool := false
  token : Bytes := []
  want : List Bytes := []
  responseId : NodeId := 0
  nodes : List KrpcNode := []
  peers : List Address := []
  externalIp : IpAddress := .unspecified
  externalPort : UInt16 := 0
  errorCode : Int32 := 201
  errorMessage : Bytes := []
  deriving DecidableEq

namespace Krpc

/-! ## Compact records -/

def nodeIdToString (id : NodeId) : Bytes := encode 20 id.toNat

def stringToNodeId (str : Bytes) : NodeId :=
  if 20 ≤ str.length then .ofNat 160 (decode (str.take 20))
  else .ofNat 160 (decode (str ++ List.replicate (20 - str.length) 0))

/-- `append_compact_address`: an unspecified address is written as 0.0.0.0. -/
def compactAddress (ip : IpAddress) : Bytes :=
  if ip.bytes = [] then List.replicate 4 0 else ip.bytes

def compactPeerInfo (peer : Address) : Bytes :=
  compactAddress peer.ip ++ encode 2 peer.port.toNat

def compactNodeInfo (node : KrpcNode) : Bytes :=
  nodeIdToString node.id ++ (compactAddress node.ip ++ encode 2 node.port.toNat)

variable (info : Bytes)

def readCompactIp (offset addrLen : ℕ) : IpAddress :=
  (IpAddress.fromBytes ((info.drop offset).take addrLen)).getD .unspecified

def readPort (offset : ℕ) : UInt16 :=
  .ofNat (decode ((info.drop offset).take 2))

/-- A peer in a record of its own. -/
def readPeer (addrLen : ℕ) (r : Bytes) : Address := ⟨readCompactIp r 0 addrLen, readPort r addrLen⟩

/-- `parse_compact_peer_info`: one IPv6 record of 18 bytes, or IPv4 records of 6. -/
def parseCompactPeerInfo : List Address :=
  if info.length = 18 then (Parsing.records 18 info).map (readPeer 16)
  else if info.length % 6 ≠ 0 then []
  else (Parsing.records 6 info).map (readPeer 4)

/-- A node in a record of its own. -/
def readNode (addrLen : ℕ) (r : Bytes) : KrpcNode :=
  ⟨.ofNat 160 (decode (r.take 20)), readCompactIp r 20 addrLen, readPort r (20 + addrLen)⟩

/-- `parse_compact_node_info`: records of 26 or 38 bytes. -/
def parseCompactNodeInfo (ipv6 : Bool) : List KrpcNode :=
  let addrLen := if ipv6 then 16 else 4
  if info.length % (20 + addrLen + 2) ≠ 0 then []
  else (Parsing.records (20 + addrLen + 2) info).map (readNode addrLen)

/-! ## Encoding -/

def queryTypeToString : KrpcQueryType → Bytes
  | .ping => ascii "ping"
  | .findNode => ascii "find_node"
  | .getPeers => ascii "get_peers"
  | .announcePeer => ascii "announce_peer"

def stringToQueryType (str : Bytes) : KrpcQueryType :=
  if str = ascii "ping" then .ping
  else if str = ascii "find_node" then .findNode
  else if str = ascii "get_peers" then .getPeers
  else if str = ascii "announce_peer" then .announcePeer
  else .ping

variable (m : KrpcMessage)

/-- The arguments that only one type of query has. -/
def queryArgs (args : BencodeDict) : BencodeDict :=
  match m.queryType with
  | .ping => args
  | .findNode => args.insertKey (ascii "target") (.string (nodeIdToString m.targetId))
  | .getPeers => args.insertKey (ascii "info_hash") (.string (nodeIdToString m.infoHash))
  | .announcePeer =>
    (((args.insertKey (ascii "info_hash") (.string (nodeIdToString m.infoHash))).insertKey
      (ascii "port") (.integer (.ofNat m.port.toNat))).insertKey
      (ascii "token") (.string m.token)).insertWhen
      m.impliedPort (ascii "implied_port") (.integer 1)

/-- The arguments of a query, with the families of nodes that are wanted. -/
def encodeArgs : BencodeDict :=
  (queryArgs m (BencodeDict.insertKey (ascii "id") (.string (nodeIdToString m.senderId)) [])).insertWhen
    (!m.want.isEmpty) (ascii "want") (.list (m.want.map .string))

def encodeQuery : BencodeValue :=
  let root := ((BencodeDict.insertKey (ascii "t") (.string m.transactionId) []).insertKey
    (ascii "y") (.string (ascii "q"))).insertKey
    (ascii "q") (.string (queryTypeToString m.queryType))
  .dictionary (root.insertKey (ascii "a") (.dictionary (encodeArgs m)))

/-- The data of a response. -/
def encodeData : BencodeDict :=
  let compactNodesV4 := (m.nodes.filter fun n => !n.ip.isV6).flatMap compactNodeInfo
  let compactNodesV6 := (m.nodes.filter fun n => n.ip.isV6).flatMap compactNodeInfo
  ((((BencodeDict.insertKey (ascii "id") (.string (nodeIdToString m.responseId)) []).insertWhen
    (!compactNodesV4.isEmpty) (ascii "nodes") (.string compactNodesV4)).insertWhen
    (!compactNodesV6.isEmpty) (ascii "nodes6") (.string compactNodesV6)).insertWhen
    (!m.peers.isEmpty) (ascii "values") (.list ((m.peers.map compactPeerInfo).map .string))).insertWhen
    (!m.token.isEmpty) (ascii "token") (.string m.token)

def encodeResponse : BencodeValue :=
  let root := (BencodeDict.insertKey (ascii "t") (.string m.transactionId) []).insertKey
    (ascii "y") (.string (ascii "r"))
  .dictionary ((root.insertKey (ascii "r") (.dictionary (encodeData m))).insertWhen
    (!m.externalIp.isUnspecified) (ascii "ip")
    (.string (compactPeerInfo ⟨m.externalIp, m.externalPort⟩)))

def encodeError : BencodeValue :=
  let root := (BencodeDict.insertKey (ascii "t") (.string m.transactionId) []).insertKey
    (ascii "y") (.string (ascii "e"))
  .dictionary (root.insertKey (ascii "e")
    (.list [.integer (.ofInt m.errorCode.toInt), .string m.errorMessage]))

def encodeMessage : Bytes :=
  match m.type with
  | .query => (encodeQuery m).encode
  | .response => (encodeResponse m).encode
  | .error => (encodeError m).encode

/-! ## Decoding -/

/-- The value of a key that may be missing. -/
def optional {α : Type} (v : BencodeValue) (key : Bytes) (default : α)
    (read : BencodeValue → Option α) : Option α :=
  match v.find key with
  | some x => read x
  | none => some default

/-- The strings of a list; what is no list is passed over. -/
def asStrings : BencodeValue → Option (List Bytes)
  | .list l => l.mapM BencodeValue.asString
  | _ => some []

def readNodeId (v : BencodeValue) : Option NodeId := v.asString.map stringToNodeId

/-- The arguments that only one type of query has. -/
def decodeArgs (args : BencodeValue) (m : KrpcMessage) : Option KrpcMessage :=
  match m.queryType with
  | .ping => some m
  | .findNode => do
    let targetId ← optional args (ascii "target") 0 readNodeId
    some { m with targetId }
  | .getPeers => do
    let infoHash ← optional args (ascii "info_hash") 0 readNodeId
    some { m with infoHash }
  | .announcePeer => do
    let infoHash ← optional args (ascii "info_hash") 0 readNodeId
    let port ← optional args (ascii "port") 0 fun v =>
      v.asInteger.map fun n => UInt16.ofInt n.toInt
    let token ← optional args (ascii "token") [] BencodeValue.asString
    let impliedPort ← optional args (ascii "implied_port") false fun v =>
      v.asInteger.map fun n => n != 0
    some { m with infoHash, port, token, impliedPort }

variable (data : BencodeValue)

def decodeQuery : Option KrpcMessage := do
  let queryMethod ← (← data.find (ascii "q")).asString
  let args ← data.find (ascii "a")
  let transactionId ← (← data.find (ascii "t")).asString
  let senderId ← readNodeId (← args.find (ascii "id"))
  let want ← optional args (ascii "want") [] asStrings
  decodeArgs args
    { type := .query, transactionId, queryType := stringToQueryType queryMethod, senderId, want }

def decodeResponse : Option KrpcMessage := do
  let response ← data.find (ascii "r")
  let transactionId ← (← data.find (ascii "t")).asString
  let responseId ← readNodeId (← response.find (ascii "id"))
  let nodes ← optional response (ascii "nodes") [] fun v =>
    v.asString.map (parseCompactNodeInfo · false)
  let nodes6 ← optional response (ascii "nodes6") [] fun v =>
    v.asString.map (parseCompactNodeInfo · true)
  let values ← optional response (ascii "values") [] asStrings
  let token ← optional response (ascii "token") [] BencodeValue.asString
  let endpoints ← optional data (ascii "ip") [] fun v => v.asString.map parseCompactPeerInfo
  let external := endpoints.head?.getD ⟨.unspecified, 0⟩
  some
    { type := .response
      transactionId
      responseId
      nodes := nodes ++ nodes6
      peers := values.flatMap parseCompactPeerInfo
      token
      externalIp := external.ip
      externalPort := external.port }

def decodeError : Option KrpcMessage := do
  match ← data.find (ascii "e") with
  | .list (code :: message :: _) =>
    some
      { type := .error
        transactionId := ← (← data.find (ascii "t")).asString
        errorCode := .ofInt (← code.asInteger).toInt
        errorMessage := ← message.asString }
  | _ => none

def decodeMessage (data : Bytes) : Option KrpcMessage := do
  let root ← Bencode.decode data
  let _ ← (← root.find (ascii "t")).asString
  let messageType ← (← root.find (ascii "y")).asString
  if messageType = ascii "q" then decodeQuery root
  else if messageType = ascii "r" then decodeResponse root
  else if messageType = ascii "e" then decodeError root
  else none

end Krpc

end Librats.Dht
