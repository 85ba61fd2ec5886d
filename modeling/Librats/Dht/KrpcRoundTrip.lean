import Librats.Dht.Krpc

/-!
# KRPC messages come back

A message that is encoded and decoded comes back with every field its kind carries
(`krpc_round_trip`). Compact records are read back first, then the tree of a message, from which
each field is fetched under the key it was written to.
-/

namespace Librats

open List BencodeValue BencodeDict IpAddress

/-- The address that comes back for one that is written. -/
def IpAddress.written : IpAddress → IpAddress
  | .unspecified => .v4 0
  | ip => ip

/-- The bytes of an address of a family. -/
def IpAddress.width (ip : IpAddress) : ℕ := if ip.isV6 then 16 else 4

namespace Dht

/-- The fields a message's kind carries, with IPv4 nodes before IPv6 nodes. -/
def KrpcMessage.carried (m : KrpcMessage) : KrpcMessage :=
  match m.type with
  | .query =>
    { type := .query
      transactionId := m.transactionId
      queryType := m.queryType
      senderId := m.senderId
      want := m.want
      targetId := if m.queryType = .findNode then m.targetId else 0
      infoHash := if m.queryType = .getPeers ∨ m.queryType = .announcePeer then m.infoHash else 0
      port := if m.queryType = .announcePeer then m.port else 0
      token := if m.queryType = .announcePeer then m.token else []
      impliedPort := m.queryType = .announcePeer ∧ m.impliedPort = true }
  | .response =>
    { type := .response
      transactionId := m.transactionId
      responseId := m.responseId
      nodes := (m.nodes.filter fun n => !n.ip.isV6).map (fun n => { n with ip := n.ip.written }) ++
        m.nodes.filter fun n => n.ip.isV6
      peers := m.peers.map fun a => { a with ip := a.ip.written }
      token := m.token
      externalIp := m.externalIp
      externalPort := if m.externalIp.isUnspecified then 0 else m.externalPort }
  | .error =>
    { type := .error
      transactionId := m.transactionId
      errorCode := m.errorCode
      errorMessage := m.errorMessage }

namespace Krpc

open BigEndian

/-! ## Compact records -/

theorem ofNat_decode {w n : ℕ} (hw : 2 ^ n = 256 ^ w) (a : BitVec n) :
    BitVec.ofNat n (decode (encode w a.toNat)) = a := by
  rw [decode_encode (hw ▸ a.isLt), BitVec.ofNat_toNat, BitVec.setWidth_eq]

theorem length_nodeIdToString (id : NodeId) : (nodeIdToString id).length = 20 :=
  length_encode 20 _

theorem stringToNodeId_nodeIdToString (id : NodeId) : stringToNodeId (nodeIdToString id) = id := by
  have hlength := length_nodeIdToString id
  rw [stringToNodeId, take_of_length_le hlength.le]
  exact ofNat_decode (by norm_num) id

theorem length_compactAddress (ip : IpAddress) : (compactAddress ip).length = ip.width := by
  cases ip <;> rfl

theorem fromBytes_compactAddress (ip : IpAddress) :
    fromBytes (compactAddress ip) = some ip.written := by
  cases ip with
  | unspecified => rfl
  | v4 addr => exact congrArg (fun a => some (v4 a)) (ofNat_decode (by norm_num) addr)
  | v6 addr => exact congrArg (fun a => some (v6 a)) (ofNat_decode (by norm_num) addr)

theorem readCompactIp_append (before rest : Bytes) (ip : IpAddress) {offset addrLen : ℕ}
    (hoffset : before.length = offset) (haddr : ip.width = addrLen) :
    readCompactIp (before ++ (compactAddress ip ++ rest)) offset addrLen = ip.written := by
  subst hoffset haddr
  rw [readCompactIp, drop_left, take_left' (length_compactAddress ip),
    fromBytes_compactAddress, Option.getD_some]

theorem readPort_append (before : Bytes) (port : UInt16) {offset : ℕ}
    (hoffset : before.length = offset) :
    readPort (before ++ encode 2 port.toNat) offset = port := by
  subst hoffset
  rw [readPort, drop_left, take_of_length_le (length_encode 2 _).le,
    decode_encode port.toNat_lt, UInt16.ofNat_toNat]

theorem length_compactPeerInfo (a : Address) : (compactPeerInfo a).length = a.ip.width + 2 := by
  rw [compactPeerInfo, length_append, length_compactAddress, length_encode]

theorem records_single {width : ℕ} (hwidth : 0 < width) {w : Bytes} (hw : w.length = width) :
    Parsing.records width w = [w] := by
  have hall : ∀ a ∈ [w], (id a).length = width := forall_mem_singleton.mpr hw
  simpa using Parsing.records_flatMap hwidth id hall

theorem readPeer_compactPeerInfo (a : Address) :
    readPeer a.ip.width (compactPeerInfo a) = { a with ip := a.ip.written } := by
  rw [readPeer, compactPeerInfo, readPort_append _ a.port (length_compactAddress a.ip)]
  exact congrArg (Address.mk · a.port) (readCompactIp_append [] _ a.ip rfl rfl)

theorem parseCompactPeerInfo_compactPeerInfo (a : Address) :
    parseCompactPeerInfo (compactPeerInfo a) = [{ a with ip := a.ip.written }] := by
  have hlength := length_compactPeerInfo a
  have hread := readPeer_compactPeerInfo a
  unfold parseCompactPeerInfo
  cases hv6 : a.ip.isV6 with
  | true =>
    simp only [width, hv6, if_true] at hlength hread
    rw [if_pos hlength, records_single (by norm_num) hlength, map_singleton, hread]
  | false =>
    simp only [width, hv6, Bool.false_eq_true, if_false] at hlength hread
    rw [if_neg (by omega), if_neg (by omega), records_single (by norm_num) hlength,
      map_singleton, hread]

theorem length_compactNodeInfo (n : KrpcNode) : (compactNodeInfo n).length = 20 + n.ip.width + 2 := by
  rw [compactNodeInfo, length_append, length_append, length_nodeIdToString,
    length_compactAddress, length_encode, Nat.add_assoc]

theorem readNode_compactNodeInfo (n : KrpcNode) :
    readNode n.ip.width (compactNodeInfo n) = { n with ip := n.ip.written } := by
  have hid : BitVec.ofNat 160 (decode ((compactNodeInfo n).take 20)) = n.id := by
    rw [compactNodeInfo, take_left' (length_nodeIdToString n.id)]
    exact ofNat_decode (by norm_num) n.id
  have hip : readCompactIp (compactNodeInfo n) 20 n.ip.width = n.ip.written :=
    readCompactIp_append (nodeIdToString n.id) _ n.ip (length_nodeIdToString n.id) rfl
  have hport : readPort (compactNodeInfo n) (20 + n.ip.width) = n.port := by
    rw [compactNodeInfo, ← append_assoc]
    refine readPort_append _ n.port ?_
    rw [length_append, length_nodeIdToString, length_compactAddress]
  rw [readNode, hid, hip, hport]

theorem parseCompactNodeInfo_flatMap {nodes : List KrpcNode} {ipv6 : Bool}
    (h : ∀ n ∈ nodes, n.ip.isV6 = ipv6) :
    parseCompactNodeInfo (nodes.flatMap compactNodeInfo) ipv6 =
      nodes.map fun n => { n with ip := n.ip.written } := by
  have hwidth {n : KrpcNode} (hn : n ∈ nodes) : n.ip.width = if ipv6 then 16 else 4 := by
    rw [width, h n hn]
  have hlength (n : KrpcNode) (hn : n ∈ nodes) :
      (compactNodeInfo n).length = 20 + (if ipv6 then 16 else 4) + 2 := by
    rw [length_compactNodeInfo, hwidth hn]
  have hsize : (nodes.flatMap compactNodeInfo).length % (20 + (if ipv6 then 16 else 4) + 2) = 0 := by
    rw [length_flatMap, map_congr_left hlength, map_const', sum_replicate, smul_eq_mul]
    exact Nat.mul_mod_left _ _
  simp only [parseCompactNodeInfo, hsize]
  rw [Parsing.records_flatMap (by omega) compactNodeInfo hlength, map_map]
  refine map_congr_left fun n hn => ?_
  rw [Function.comp_apply, ← hwidth hn, readNode_compactNodeInfo]

/-! ## Trees -/

open Bencode

theorem canonical_queryArgs {n : ℕ} {args : BencodeDict} (h : Canonical (n + 1) (.dictionary args))
    (m : KrpcMessage) : Canonical (n + 1) (.dictionary (queryArgs m args)) := by
  unfold queryArgs
  cases m.queryType with
  | ping => exact h
  | findNode | getPeers => exact h.insertKey (canonical_string _ _) _
  | announcePeer =>
    exact (((h.insertKey (canonical_string _ _) _).insertKey (canonical_integer _ _) _).insertKey
      (canonical_string _ _) _).insertWhen (canonical_integer _ _) _ _

variable (m : KrpcMessage)

theorem canonical_encodeQuery : Canonical kMaxDepth (encodeQuery m) := by
  refine ((((canonical_empty 99).insertKey (canonical_string _ _) _).insertKey
    (canonical_string _ _) _).insertKey (canonical_string _ _) _).insertKey ?_ _
  exact (canonical_queryArgs ((canonical_empty 98).insertKey (canonical_string _ _) _) m).insertWhen
    (canonical_strings _ _) _ _

theorem canonical_encodeResponse : Canonical kMaxDepth (encodeResponse m) := by
  refine ((((canonical_empty 99).insertKey (canonical_string _ _) _).insertKey
    (canonical_string _ _) _).insertKey ?_ _).insertWhen (canonical_string _ _) _ _
  exact (((((canonical_empty 98).insertKey (canonical_string _ _) _).insertWhen
    (canonical_string _ _) _ _).insertWhen (canonical_string _ _) _ _).insertWhen
    (canonical_strings _ _) _ _).insertWhen (canonical_string _ _) _ _

theorem canonical_encodeError : Canonical kMaxDepth (encodeError m) := by
  refine (((canonical_empty 99).insertKey (canonical_string _ _) _).insertKey
    (canonical_string _ _) _).insertKey ?_ _
  intro v hv
  obtain rfl | hv := mem_cons.mp hv
  · exact canonical_integer _ _
  · obtain rfl := mem_singleton.mp hv
    exact canonical_string _ _

/-! ## Fields -/

variable {v : BencodeValue} {key : Bytes} {m : KrpcMessage} {x : BencodeValue} {ip : IpAddress}

theorem optional_eq {α : Type} {c : Bool} {a b : α}
    {read : BencodeValue → Option α} (hfind : v.find key = if c then some x else none)
    (hread : c = true → read x = some a) (hdefault : c = false → b = a) :
    optional v key b read = some a := by
  cases c with
  | true => simp only [optional, hfind, if_true, hread rfl]
  | false => simp [optional, hfind, hdefault rfl]

theorem optional_of_find {α : Type} {b : α} {read : BencodeValue → Option α}
    (hfind : v.find key = some x) : optional v key b read = read x := by
  rw [optional, hfind]

theorem asStrings_strings (l : List Bytes) : asStrings (.list (l.map .string)) = some l := by
  induction l with
  | nil => rfl
  | cons s l ih =>
    simp only [asStrings] at ih ⊢
    rw [map_cons, mapM_cons, ih]
    rfl

theorem readNodeId_nodeIdToString (id : NodeId) :
    readNodeId (.string (nodeIdToString id)) = some id :=
  congrArg some (stringToNodeId_nodeIdToString id)

theorem stringToQueryType_queryTypeToString (t : KrpcQueryType) :
    stringToQueryType (queryTypeToString t) = t := by
  cases t <;> decide

theorem find_encodeArgs_id (m : KrpcMessage) : (dictionary (encodeArgs m)).find (ascii "id") =
      some (.string (nodeIdToString m.senderId)) := by
  unfold encodeArgs queryArgs
  cases m.queryType <;> simp +decide

theorem optional_want (m : KrpcMessage) :
    optional (.dictionary (encodeArgs m)) (ascii "want") [] asStrings = some m.want := by
  have hfind : (dictionary (encodeArgs m)).find (ascii "want") =
      if !m.want.isEmpty then some (.list (m.want.map .string)) else none := by
    unfold encodeArgs queryArgs
    cases m.queryType <;> simp +decide
  refine optional_eq hfind (fun _ => asStrings_strings m.want) fun hwant => ?_
  cases hl : m.want with
  | nil => rfl
  | cons s l => simp [hl] at hwant

theorem decodeArgs_encodeArgs (h : m.type = .query) : decodeArgs (.dictionary (encodeArgs m))
      { type := .query, transactionId := m.transactionId, queryType := m.queryType,
        senderId := m.senderId, want := m.want } = some m.carried := by
  have hfind (key : Bytes) (hkey : key ≠ ascii "want") :
      (dictionary (encodeArgs m)).find key = (dictionary (queryArgs m
        (insertKey (ascii "id") (.string (nodeIdToString m.senderId)) []))).find key := by
    simp [encodeArgs, hkey.symm]
  unfold decodeArgs
  cases hq : m.queryType with
  | ping => simp [KrpcMessage.carried, h, hq]
  | findNode =>
    have htarget := hfind (ascii "target") (by decide)
    simp +decide only [queryArgs, hq, find_insertKey, if_true] at htarget
    simp [optional_of_find htarget, readNodeId_nodeIdToString, KrpcMessage.carried, h, hq]
  | getPeers =>
    have hhash := hfind (ascii "info_hash") (by decide)
    simp +decide only [queryArgs, hq, find_insertKey, if_true] at hhash
    simp [optional_of_find hhash, readNodeId_nodeIdToString, KrpcMessage.carried, h, hq]
  | announcePeer =>
    have hhash := hfind (ascii "info_hash") (by decide)
    have hport := hfind (ascii "port") (by decide)
    have htoken := hfind (ascii "token") (by decide)
    have himplied := hfind (ascii "implied_port") (by decide)
    simp +decide only [queryArgs, hq, find_insertKey, find_insertWhen,
      find_nil, and_false, and_true, if_false, if_true] at hhash hport htoken himplied
    have hcast : UInt16.ofInt (Int64.ofNat m.port.toNat).toInt = m.port := by
      have hlt := m.port.toNat_lt
      rw [Int64.toInt_ofNat_of_lt (by omega), UInt16.ofInt, Int.emod_eq_of_lt (by omega) (by omega),
        Int.toNat_natCast, UInt16.ofNat_toNat]
    have hflag : optional (.dictionary (encodeArgs m)) (ascii "implied_port") false
        (fun v => v.asInteger.map fun n => n != 0) = some m.impliedPort :=
      optional_eq himplied (fun hc => by rw [hc]; rfl) fun hc => hc.symm
    simp only [optional_of_find hhash, optional_of_find hport, optional_of_find htoken, hflag,
      readNodeId_nodeIdToString, asInteger_integer, asString_string,
      Option.map_some, hcast, KrpcMessage.carried, h, hq]
    simp

theorem decodeQuery_encodeQuery (h : m.type = .query) :
    decodeQuery (encodeQuery m) = some m.carried := by
  have hroot : (encodeQuery m).find (ascii "q") = some (.string (queryTypeToString m.queryType)) ∧
      (encodeQuery m).find (ascii "a") = some (.dictionary (encodeArgs m)) ∧
      (encodeQuery m).find (ascii "t") = some (.string m.transactionId) := by
    simp +decide [encodeQuery]
  obtain ⟨hq, ha, ht⟩ := hroot
  simpa [decodeQuery, hq, ha, ht, find_encodeArgs_id,
    readNodeId_nodeIdToString, optional_want, stringToQueryType_queryTypeToString]
    using decodeArgs_encodeArgs h

theorem optional_nodes (nodes : List KrpcNode) (ipv6 : Bool)
    (hfind : v.find key = if !(nodes.flatMap compactNodeInfo).isEmpty then
      some (.string (nodes.flatMap compactNodeInfo)) else none)
    (h : ∀ n ∈ nodes, n.ip.isV6 = ipv6) :
    optional v key [] (fun v => v.asString.map (parseCompactNodeInfo · ipv6)) =
      some (nodes.map fun n => { n with ip := n.ip.written }) := by
  have hparse := parseCompactNodeInfo_flatMap h
  refine optional_eq hfind (fun _ => congrArg some hparse) fun hempty => ?_
  have hnone : nodes.flatMap compactNodeInfo = [] :=
    isEmpty_iff.mp ((Bool.not_eq_false_eq_eq_true _).mp hempty)
  rw [← hparse, hnone]
  cases ipv6 <;> rfl

theorem flatMap_parseCompactPeerInfo (peers : List Address) :
    (peers.map compactPeerInfo).flatMap parseCompactPeerInfo =
      peers.map fun a => { a with ip := a.ip.written } := by
  simp only [flatMap_map, parseCompactPeerInfo_compactPeerInfo]
  exact map_eq_flatMap.symm

theorem optional_ip {port : UInt16} (hfind : v.find key =
      if !ip.isUnspecified then some (.string (compactPeerInfo ⟨ip, port⟩)) else none) :
    optional v key [] (fun v => v.asString.map parseCompactPeerInfo) =
      some (if ip.isUnspecified then [] else [⟨ip, port⟩]) := by
  refine optional_eq hfind (fun hip => ?_) fun hip => ?_
  · have hwritten : ip.written = ip := by cases ip <;> simp_all [written, isUnspecified]
    simp_all [parseCompactPeerInfo_compactPeerInfo]
  · simp_all

theorem find_encodeData (m : KrpcMessage) (key : Bytes) : (dictionary (encodeData m)).find key =
      if (!m.token.isEmpty) = true ∧ ascii "token" = key then some (.string m.token)
      else if (!m.peers.isEmpty) = true ∧ ascii "values" = key then
        some (.list ((m.peers.map compactPeerInfo).map .string))
      else if (!((m.nodes.filter fun n => n.ip.isV6).flatMap compactNodeInfo).isEmpty) = true ∧
          ascii "nodes6" = key then
        some (.string ((m.nodes.filter fun n => n.ip.isV6).flatMap compactNodeInfo))
      else if (!((m.nodes.filter fun n => !n.ip.isV6).flatMap compactNodeInfo).isEmpty) = true ∧
          ascii "nodes" = key then
        some (.string ((m.nodes.filter fun n => !n.ip.isV6).flatMap compactNodeInfo))
      else if ascii "id" = key then some (.string (nodeIdToString m.responseId)) else none := by
  simp [encodeData, find_insertWhen, find_insertKey, find_nil]

theorem written_of_isV6 (h : ip.isV6 = true) : ip.written = ip := by
  cases ip with
  | unspecified => cases h
  | v4 _ | v6 _ => rfl

theorem decodeResponse_encodeResponse (h : m.type = .response) :
    decodeResponse (encodeResponse m) = some m.carried := by
  have hdata : (encodeResponse m).find (ascii "r") = some (.dictionary (encodeData m)) := by
    simp +decide [encodeResponse]
  have htransaction : (encodeResponse m).find (ascii "t") = some (.string m.transactionId) := by
    simp +decide [encodeResponse]
  have hip : (encodeResponse m).find (ascii "ip") = if !m.externalIp.isUnspecified then
      some (.string (compactPeerInfo ⟨m.externalIp, m.externalPort⟩)) else none := by
    simp +decide [encodeResponse]
  have hid := find_encodeData m (ascii "id")
  have hv4 := find_encodeData m (ascii "nodes")
  have hv6 := find_encodeData m (ascii "nodes6")
  have hvalues := find_encodeData m (ascii "values")
  have htoken := find_encodeData m (ascii "token")
  simp +decide only [and_false, and_true, if_false, if_true] at hid hv4 hv6 hvalues htoken
  replace hv4 := optional_nodes _ false hv4 (by simp)
  replace hv6 := optional_nodes _ true hv6 (by simp)
  have hkept : (m.nodes.filter fun n => n.ip.isV6).map (fun n => { n with ip := n.ip.written }) =
      m.nodes.filter fun n => n.ip.isV6 := by
    refine (map_congr_left fun n hn => ?_).trans (map_id _)
    rw [written_of_isV6 (mem_filter.mp hn).2]
    rfl
  have hpeers : optional (.dictionary (encodeData m)) (ascii "values") [] asStrings =
      some (m.peers.map compactPeerInfo) :=
    optional_eq hvalues (fun _ => asStrings_strings _) fun hnone => by
      rw [isEmpty_iff.mp ((Bool.not_eq_false_eq_eq_true _).mp hnone)]
      rfl
  replace htoken : optional (.dictionary (encodeData m)) (ascii "token") [] asString =
      some m.token :=
    optional_eq htoken (fun _ => rfl) fun hnone =>
      (isEmpty_iff.mp ((Bool.not_eq_false_eq_eq_true _).mp hnone)).symm
  simp only [decodeResponse, hdata, htransaction, hid, optional_ip hip, hv4, hv6, hkept, hpeers,
    htoken, flatMap_parseCompactPeerInfo, readNodeId_nodeIdToString, asString_string,
    Option.bind_eq_bind, Option.bind_some, KrpcMessage.carried, h]
  cases hnone : m.externalIp with
  | unspecified => rfl
  | v4 _ | v6 _ => rfl

theorem decodeError_encodeError (h : m.type = .error) :
    decodeError (encodeError m) = some m.carried := by
  simp +decide [decodeError, encodeError, KrpcMessage.carried, h]

/-- **A message comes back** with every field of its kind: the nodes IPv4 first, then IPv6, each
family in its order, and an unspecified address as 0.0.0.0. -/
theorem krpc_round_trip (m : KrpcMessage) : decodeMessage (encodeMessage m) = some m.carried := by
  unfold encodeMessage
  cases h : m.type with
  | query =>
    have hkeys : (encodeQuery m).find (ascii "t") = some (.string m.transactionId) ∧
        (encodeQuery m).find (ascii "y") = some (.string (ascii "q")) := by
      simp +decide [encodeQuery]
    simp [decodeMessage, decode_encode (canonical_encodeQuery m), hkeys, decodeQuery_encodeQuery h]
  | response =>
    have hkeys : (encodeResponse m).find (ascii "t") = some (.string m.transactionId) ∧
        (encodeResponse m).find (ascii "y") = some (.string (ascii "r")) := by
      simp +decide [encodeResponse]
    simp +decide [decodeMessage, decode_encode (canonical_encodeResponse m), hkeys,
      decodeResponse_encodeResponse h]
  | error =>
    have hkeys : (encodeError m).find (ascii "t") = some (.string m.transactionId) ∧
        (encodeError m).find (ascii "y") = some (.string (ascii "e")) := by
      simp +decide [encodeError]
    simp +decide [decodeMessage, decode_encode (canonical_encodeError m), hkeys,
      decodeError_encodeError h]

end Krpc

end Dht

end Librats
