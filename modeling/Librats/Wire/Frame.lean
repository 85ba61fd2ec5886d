import Librats.Core.Types
import Librats.Foundations.BigEndian

/-!
# Framing

The two levels of the wire format (`wire/frame.cpp`): length-prefixed blocks on the stream, and the
header of the message inside a block.
-/

namespace Librats

open List

/-- `MessageType`; a byte that names no type is cast all the same. -/
inductive MessageType
  | app
  | control
  | gossip
  | fileChunk
  | ping
  | storage
  | typed
  | pex
  | unknown (byte : UInt8)
  deriving DecidableEq

/-- `static_cast<MessageType>`. -/
def MessageType.ofByte (b : UInt8) : MessageType :=
  match b.toNat with
  | 1 => .app
  | 2 => .control
  | 3 => .gossip
  | 4 => .fileChunk
  | 5 => .ping
  | 6 => .storage
  | 7 => .typed
  | 8 => .pex
  | _ => .unknown b

/-- `static_cast<uint8_t>`. -/
def MessageType.toByte : MessageType → UInt8
  | .app => 1
  | .control => 2
  | .gossip => 3
  | .fileChunk => 4
  | .ping => 5
  | .storage => 6
  | .typed => 7
  | .pex => 8
  | .unknown b => b

structure FrameHeader where
  type : MessageType
  flags : UInt8
  channel : ℕ
  deriving DecidableEq

structure Frame where
  header : FrameHeader
  payload : Bytes
  deriving DecidableEq

namespace Framer

open BigEndian

def kLengthPrefixSize : ℕ := 4

def kHeaderSize : ℕ := 4

/-- `kMaxBlockSize`, 64 MiB. -/
def kMaxBlockSize : ℕ := 64 * 1024 * 1024

inductive Block
  | incomplete (needed : ℕ)
  | error
  | ok (consumed : ℕ) (body : Bytes)
  deriving DecidableEq

def encodeBlock (body : Bytes) : Bytes := encode kLengthPrefixSize body.length ++ body

theorem length_encodeBlock (body : Bytes) :
    (encodeBlock body).length = kLengthPrefixSize + body.length := by
  rw [encodeBlock, length_append, length_encode]

def tryTakeBlock (data : Bytes) : Block :=
  if data.length < kLengthPrefixSize then .incomplete 0
  else
    let len := decode (data.take kLengthPrefixSize)
    if kMaxBlockSize < len then .error
    else
      let total := kLengthPrefixSize + len
      if data.length < total then .incomplete total
      else .ok total ((data.drop kLengthPrefixSize).take len)

def encodeMessage (header : FrameHeader) (payload : Bytes) : Bytes :=
  header.type.toByte :: header.flags :: encode 2 header.channel ++ payload

theorem length_encodeMessage (header : FrameHeader) (payload : Bytes) :
    (encodeMessage header payload).length = kHeaderSize + payload.length := by
  simp only [encodeMessage, kHeaderSize, length_append, length_cons, length_encode]

def parseMessage : Bytes → Option Frame
  | type :: flags :: hi :: lo :: payload =>
    some ⟨⟨.ofByte type, flags, decode [hi, lo]⟩, payload⟩
  | _ => none

variable {data body : Bytes}

theorem tryTakeBlock_bounds {n : ℕ} (h : tryTakeBlock data = .ok n body) :
    0 < n ∧ n ≤ data.length := by
  unfold tryTakeBlock at h
  simp only at h
  split_ifs at h with hlen hmax htotal
  obtain ⟨rfl, -⟩ := Block.ok.inj h
  refine ⟨?_, not_lt.mp htotal⟩
  unfold kLengthPrefixSize
  omega

/-- **What follows a complete block does not matter.** -/
theorem tryTakeBlock_append {n : ℕ} (h : tryTakeBlock data = .ok n body) (rest : Bytes) :
    tryTakeBlock (data ++ rest) = .ok n body := by
  unfold tryTakeBlock at h ⊢
  simp only at h ⊢
  split_ifs at h with hlen hmax htotal
  have hpre : kLengthPrefixSize ≤ data.length := not_lt.mp hlen
  have hbody : decode (data.take kLengthPrefixSize) ≤ (data.drop kLengthPrefixSize).length := by
    rw [length_drop]
    omega
  rw [take_append_of_le_length hpre, drop_append_of_le_length hpre,
    take_append_of_le_length hbody, length_append, if_neg (by omega), if_neg hmax,
    if_neg (by omega)]
  exact h

theorem tryTakeBlock_append_error (h : tryTakeBlock data = .error) (rest : Bytes) :
    tryTakeBlock (data ++ rest) = .error := by
  unfold tryTakeBlock at h ⊢
  simp only at h ⊢
  split_ifs at h with hlen hmax
  have hpre : kLengthPrefixSize ≤ data.length := not_lt.mp hlen
  rw [take_append_of_le_length hpre, length_append, if_neg (by omega), if_pos hmax]

theorem tryTakeBlock_encodeBlock (h : body.length ≤ kMaxBlockSize) (rest : Bytes) :
    tryTakeBlock (encodeBlock body ++ rest) = .ok (kLengthPrefixSize + body.length) body := by
  refine tryTakeBlock_append ?_ rest
  have hlen : (encode kLengthPrefixSize body.length).length = kLengthPrefixSize := length_encode ..
  have hdec : decode (encode kLengthPrefixSize body.length) = body.length :=
    decode_encode (lt_of_le_of_lt h (by decide))
  have htake :
      (encodeBlock body).take kLengthPrefixSize = encode kLengthPrefixSize body.length := by
    rw [encodeBlock, take_left' hlen]
  have hdrop : (encodeBlock body).drop kLengthPrefixSize = body := by
    rw [encodeBlock, drop_left' hlen]
  simp only [tryTakeBlock, htake, hdrop, length_encodeBlock, hdec, take_length]
  rw [if_neg (by omega), if_neg (by omega), if_neg (by omega)]

theorem tryTakeBlock_encodeBlock_error (h : kMaxBlockSize < body.length)
    (hlen : body.length < 2 ^ 32) (rest : Bytes) :
    tryTakeBlock (encodeBlock body ++ rest) = .error := by
  refine tryTakeBlock_append_error ?_ rest
  have htake :
      (encodeBlock body).take kLengthPrefixSize = encode kLengthPrefixSize body.length := by
    rw [encodeBlock, take_left' (length_encode ..)]
  have hdec : decode (encode kLengthPrefixSize body.length) = body.length :=
    decode_encode (lt_of_lt_of_le hlen (by decide))
  simp only [tryTakeBlock, htake, hdec, length_encodeBlock]
  rw [if_neg (by omega), if_pos h]

theorem parseMessage_encodeMessage {header : FrameHeader}
    (htype : MessageType.ofByte header.type.toByte = header.type) (hch : header.channel < 2 ^ 16)
    (payload : Bytes) : parseMessage (encodeMessage header payload) = some ⟨header, payload⟩ := by
  have hdec : decode (encode 2 header.channel) = header.channel := decode_encode hch
  simp only [encode] at hdec
  simp only [encodeMessage, encode, cons_append, nil_append, parseMessage, htype, hdec]

end Framer

end Librats
