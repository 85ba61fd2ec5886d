import Librats.Core.Types
import Librats.Foundations.BigEndian
import Librats.Foundations.Parsing

/-!
# The frames of the gossip protocol

The frames of `subsystems/pubsub.cpp`. The length of a topic is written in 16 bits, but the topic
itself in full, so a topic of more than 65535 bytes is read as another one (`topic_cut`); every
other frame is read as it was built (`gossip_round_trip`).
-/

namespace Librats.PubSub

open BigEndian Parsing List

/-- `PeerId`: the 32 bytes of a digest. -/
abbrev PeerId := BitVec 256

/-- `PeerId::kSize`. -/
def kPeerIdSize : ℕ := 32

/-- A message id: the origin and its sequence number. -/
def kIdSize : ℕ := kPeerIdSize + 8

/-- The control frames, which carry a topic only. -/
inductive CtrlOp
  | subscribe
  | unsubscribe
  | graft
  | prune
  deriving DecidableEq

/-- `OP_SUBSCRIBE` to `OP_PRUNE`. -/
def CtrlOp.code : CtrlOp → UInt8
  | .subscribe => 1
  | .unsubscribe => 2
  | .graft => 3
  | .prune => 4

/-- What a frame says. -/
inductive Message
  | publish (origin : PeerId) (seqno : UInt64) (topic data : Bytes)
  | ctrl (op : CtrlOp) (topic : Bytes)
  | ihave (topic : Bytes) (ids : List Bytes)
  | iwant (ids : List Bytes)
  deriving DecidableEq

/-! ## Building -/

def PeerId.bytes (id : PeerId) : Bytes := encode kPeerIdSize id.toNat

def makeId (origin : PeerId) (seqno : UInt64) : Bytes := PeerId.bytes origin ++ encode 8 seqno.toNat

/-- `put_topic`: the length modulo 65536, and the topic. -/
def putTopic (topic : Bytes) : Bytes := encode 2 topic.length ++ topic

def buildPublish (origin : PeerId) (seqno : UInt64) (topic data : Bytes) : Bytes :=
  [0] ++ (PeerId.bytes origin ++ (encode 8 seqno.toNat ++ (putTopic topic ++ data)))

def buildCtrl (op : CtrlOp) (topic : Bytes) : Bytes := [op.code] ++ putTopic topic

/-- The number of the ids, at most 65535, and those of the size of an id. -/
def putIds (ids : List Bytes) : Bytes :=
  encode 2 (min ids.length 0xffff) ++ (ids.filter fun id => id.length = kIdSize).flatten

def buildIhave (topic : Bytes) (ids : List Bytes) : Bytes := [5] ++ (putTopic topic ++ putIds ids)

def buildIwant (ids : List Bytes) : Bytes := [6] ++ putIds ids

/-! ## Reading -/

/-- `Reader`: what is left of the payload; a read beyond its end fails for good. -/
abbrev Reader := StateT Bytes Option

namespace Reader

/-- `Reader::bytes` and `str`. -/
def bytes (n : ℕ) : Reader Bytes := fun s =>
  if s.length < n then none else some (s.take n, s.drop n)

/-- `Reader::u8`, `u16` and `u64`, by the number of bytes. -/
def uint (w : ℕ) : Reader ℕ := decode <$> bytes w

def rest : Reader Bytes := fun s => some (s, [])

end Reader

open Reader

def readTopic : Reader Bytes := do bytes (← uint 2)

/-- As many ids as a count says. -/
def readIds : ℕ → Reader (List Bytes)
  | 0 => pure []
  | count + 1 => do
    let id ← bytes kIdSize
    let ids ← readIds count
    pure (id :: ids)

/-- A count and as many ids. -/
def readCounted : Reader (List Bytes) := do readIds (← uint 2)

/-- A control frame past its opcode. -/
def readCtrl (op : CtrlOp) : Reader Message := do
  let topic ← readTopic
  if topic = [] then failure else pure (.ctrl op topic)

/-- A frame past its opcode, as the cases of `on_gossip` read it. -/
def readBody : ℕ → Reader Message
  | 0 => do
    let origin ← uint kPeerIdSize
    let seqno ← uint 8
    let topic ← readTopic
    let data ← rest
    pure (.publish (.ofNat 256 origin) (.ofNat seqno) topic data)
  | 1 => readCtrl .subscribe
  | 2 => readCtrl .unsubscribe
  | 3 => readCtrl .graft
  | 4 => readCtrl .prune
  | 5 => do
    let topic ← readTopic
    let ids ← readCounted
    if topic = [] then failure else pure (.ihave topic ids)
  | 6 => do
    let ids ← readCounted
    pure (.iwant ids)
  | _ => failure

/-- What `on_gossip` reads in a payload; `none` is one that is ignored. -/
def parse (payload : Bytes) : Option Message :=
  ((do readBody (← uint 1)) : Reader Message).run' payload

/-! ## Reading back -/

theorem reads_bytes {w : Bytes} {n : ℕ} (h : w.length = n) : Reads (bytes n) w w := by
  intro rest
  have hlt : ¬(w ++ rest).length < n := by
    rw [length_append]
    omega
  rw [bytes, if_neg hlt, take_left' h, drop_left' h]

theorem reads_uint (w n : ℕ) : Reads (uint w) (encode w n) (n % 256 ^ w) := by
  have h := (reads_bytes (length_encode w n)).map decode
  rwa [decode, foldl_encode, Nat.zero_mul, Nat.zero_add] at h

/-- The topic that is read: as much of it as 16 bits of length say. -/
theorem readTopic_putTopic (topic rest : Bytes) : readTopic (putTopic topic ++ rest) =
      some (topic.take (topic.length % 65536), topic.drop (topic.length % 65536) ++ rest) := by
  have hle : topic.length % 65536 ≤ topic.length := Nat.mod_le _ _
  have hread : Reads readTopic (encode 2 topic.length ++ topic.take (topic.length % 65536))
      (topic.take (topic.length % 65536)) :=
    (reads_uint 2 topic.length).bind (reads_bytes (length_take_of_le hle))
  rw [← hread (topic.drop (topic.length % 65536) ++ rest), append_assoc,
    ← append_assoc (List.take _ _), take_append_drop, putTopic, append_assoc]

variable {topic : Bytes} {ids : List Bytes}

theorem reads_topic (h : topic.length < 65536) : Reads readTopic (putTopic topic) topic := by
  intro rest
  rw [readTopic_putTopic, Nat.mod_eq_of_lt h, take_length, drop_length, nil_append]

theorem take_eq_iff (topic : Bytes) :
    topic.take (topic.length % 65536) = topic ↔ topic.length < 65536 := by
  rw [take_eq_self_iff]
  omega

theorem reads_ids (h : ∀ id ∈ ids, id.length = kIdSize) :
    Reads (readIds ids.length) ids.flatten ids := by
  induction ids with
  | nil => exact Reads.pure []
  | cons id ids ih =>
    have hid := reads_bytes (h id (.head _))
    have hrest := ih fun x hx => h x (mem_cons_of_mem id hx)
    have hall := hid.bind (f := fun id => readIds ids.length >>= fun ids => pure (id :: ids))
      (hrest.bind (Reads.pure (id :: ids)))
    rwa [append_nil] at hall

theorem Reader.bind_eq {α β : Type} {p : Reader α} {f : α → Reader β} {s s' : Bytes} {a : α}
    (h : p s = some (a, s')) : (p >>= f) s = f a s' := by
  change (p s).bind (fun x => f x.1 x.2) = f a s'
  rw [h]
  rfl

theorem reads_putIds (hcount : ids.length ≤ 65535) (h : ∀ id ∈ ids, id.length = kIdSize) :
    Reads readCounted (putIds ids) ids := by
  have hfilter : ids.filter (fun id => id.length = kIdSize) = ids :=
    filter_eq_self.mpr fun id hid => decide_eq_true (h id hid)
  have hread := reads_uint 2 (min ids.length 0xffff)
  rw [show min ids.length 0xffff % 256 ^ 2 = ids.length by omega] at hread
  rw [putIds, hfilter]
  exact hread.bind (reads_ids h)

theorem reads_opcode (b : UInt8) : Reads (uint 1) [b] b.toNat := by
  have h := (reads_bytes (w := [b]) rfl).map decode
  rwa [show decode [b] = b.toNat by simp [decode]] at h

theorem parse_cons (b : UInt8) (rest : Bytes) :
    parse ([b] ++ rest) = (readBody b.toNat rest).map Prod.fst := by
  change ((uint 1 >>= readBody) ([b] ++ rest)).map Prod.fst = _
  rw [bind_eq (reads_opcode b rest)]

/-- What is read in a `PUBLISH` frame, whatever the length of the topic. -/
theorem parse_buildPublish (origin : PeerId) (seqno : UInt64) (topic data : Bytes) :
    parse (buildPublish origin seqno topic data) =
      some (.publish origin seqno (topic.take (topic.length % 65536))
        (topic.drop (topic.length % 65536) ++ data)) := by
  have horigin := reads_uint kPeerIdSize origin.toNat
  have hseqno := reads_uint 8 seqno.toNat
  rw [Nat.mod_eq_of_lt (by exact origin.isLt)] at horigin
  rw [Nat.mod_eq_of_lt (by exact seqno.toNat_lt)] at hseqno
  rw [buildPublish, parse_cons, PeerId.bytes]
  change (readBody 0 _).map Prod.fst = _
  rw [readBody, bind_eq (horigin _), bind_eq (hseqno _),
    bind_eq (readTopic_putTopic topic data), BitVec.ofNat_toNat, BitVec.setWidth_eq,
    UInt64.ofNat_toNat]
  rfl

theorem parse_buildCtrl (op : CtrlOp) (topic : Bytes) : parse (buildCtrl op topic) =
      if topic.take (topic.length % 65536) = [] then none
      else some (.ctrl op (topic.take (topic.length % 65536))) := by
  have hctrl : (readCtrl op (putTopic topic)).map Prod.fst =
      if topic.take (topic.length % 65536) = [] then none
      else some (.ctrl op (topic.take (topic.length % 65536))) := by
    have htopic := readTopic_putTopic topic []
    rw [append_nil] at htopic
    rw [readCtrl, bind_eq htopic]
    split_ifs <;> rfl
  rw [buildCtrl, parse_cons, ← hctrl]
  cases op <;> rfl

/-- An `IHAVE` frame is read with the topic as far as 16 bits of length say. -/
theorem topic_of_parse_buildIhave {topic' : Bytes} {ids' : List Bytes}
    (h : parse (buildIhave topic ids) = some (.ihave topic' ids')) :
    topic' = topic.take (topic.length % 65536) := by
  rw [buildIhave, parse_cons] at h
  obtain ⟨⟨m, rest⟩, hbody, hm⟩ := Option.map_eq_some_iff.mp h
  change readBody 5 _ = _ at hbody
  rw [readBody, bind_eq (readTopic_putTopic topic _)] at hbody
  obtain ⟨⟨ids'', rest'⟩, -, hend⟩ := Option.bind_eq_some_iff.mp hbody
  split_ifs at hend
  · cases hend
  · obtain ⟨rfl, -⟩ := Prod.mk.inj (Option.some.inj hend)
    exact (Message.ihave.inj hm).1.symm

theorem parse_buildIhave (htopic : topic ≠ []) (hlength : topic.length < 65536)
    (hcount : ids.length ≤ 65535) (hids : ∀ id ∈ ids, id.length = kIdSize) :
    parse (buildIhave topic ids) = some (.ihave topic ids) := by
  have hread := reads_putIds hcount hids []
  rw [append_nil] at hread
  rw [buildIhave, parse_cons]
  change (readBody 5 _).map Prod.fst = _
  rw [readBody, bind_eq (reads_topic hlength _), bind_eq hread, if_neg htopic]
  rfl

theorem parse_buildIwant (hcount : ids.length ≤ 65535) (hids : ∀ id ∈ ids, id.length = kIdSize) :
    parse (buildIwant ids) = some (.iwant ids) := by
  have hread := reads_putIds hcount hids []
  rw [append_nil] at hread
  rw [buildIwant, parse_cons]
  change (readBody 6 _).map Prod.fst = _
  rw [readBody, bind_eq hread]
  rfl

/-- **Frames are read as they were built**: those with a topic exactly if its length fits 16 bits,
the others always. -/
theorem gossip_round_trip (topic : Bytes) (htopic : topic ≠ []) (origin : PeerId) (seqno : UInt64)
    (data : Bytes) (ids : List Bytes) (hcount : ids.length ≤ 65535)
    (hids : ∀ id ∈ ids, id.length = kIdSize) :
    (parse (buildPublish origin seqno topic data) = some (.publish origin seqno topic data) ↔
        topic.length ≤ 65535) ∧
      (∀ op, parse (buildCtrl op topic) = some (.ctrl op topic) ↔ topic.length ≤ 65535) ∧
      (parse (buildIhave topic ids) = some (.ihave topic ids) ↔ topic.length ≤ 65535) ∧
      parse (buildIwant ids) = some (.iwant ids) := by
  have hfits : topic.take (topic.length % 65536) = topic ↔ topic.length ≤ 65535 :=
    (take_eq_iff topic).trans Nat.lt_succ_iff
  refine ⟨?_, fun op => ?_, ⟨fun h => ?_, fun h => ?_⟩, parse_buildIwant hcount hids⟩
  · rw [parse_buildPublish, ← hfits]
    refine ⟨fun h => (Message.publish.inj (Option.some.inj h)).2.2.1, fun h => ?_⟩
    have hlength := (take_eq_iff topic).mp h
    rw [h, Nat.mod_eq_of_lt hlength, drop_length, nil_append]
  · rw [parse_buildCtrl, ← hfits]
    refine ⟨fun h => ?_, fun h => by rw [h, if_neg htopic]⟩
    split_ifs at h
    exact (Message.ctrl.inj (Option.some.inj h)).2
  · exact hfits.mp (topic_of_parse_buildIhave h).symm
  · exact parse_buildIhave htopic (Nat.lt_succ_iff.mpr h) hcount hids

/-- A short topic, and the id of a message. -/
theorem gossip_round_trip_short :
    parse (buildPublish 7 1 [110] [1, 2]) = some (.publish 7 1 [110] [1, 2]) ∧
      parse (buildIhave [110] [makeId 7 1]) = some (.ihave [110] [makeId 7 1]) := by
  have h := gossip_round_trip [110] (by decide) 7 1 [1, 2] [makeId 7 1] (by decide) (by decide)
  exact ⟨h.1.mpr (by decide), h.2.2.1.mpr (by decide)⟩

/-- **A long topic is read as another one**: of 65537 bytes only the first is read as the topic, the
rest as data. -/
theorem topic_cut : parse (buildPublish 7 1 (List.replicate 65537 110) [1, 2]) =
      some (.publish 7 1 [110] (List.replicate 65536 110 ++ [1, 2])) := by
  rw [parse_buildPublish, length_replicate, take_replicate, drop_replicate,
    show 65537 % 65536 = 1 from rfl, show min 1 65537 = 1 from rfl, show 65537 - 1 = 65536 from rfl]
  rfl

end Librats.PubSub
