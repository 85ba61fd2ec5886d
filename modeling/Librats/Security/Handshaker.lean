import Librats.Core.Types
import Librats.Foundations.BigEndian

/-!
# Secure channels

`Handshaker::Outcome` and `SecurityProvider` (`security/handshaker.h`), over the types `H` of the
handshakers, `S` of the sessions and `I` of the identities; and `PlaintextSecurity`
(`security/plaintext_security.h`), where each side sends the protocol id and its peer id and nothing
is encrypted. A peer id is the number its 32 bytes spell, so that ids are ordered as the byte arrays.
-/

namespace Librats

/-- `Handshaker::Outcome`; the session and the remote id are only there when it is `Done`. -/
inductive Outcome (S I : Type)
  | needMore
  | done (session : S) (remoteId : I)
  | failed
  deriving DecidableEq

/-- `SecurityProvider` with its `Handshaker` and `Session`: `start` and `consume` give the bytes to
send, and a session that cannot encrypt or decrypt gives none. -/
structure SecurityProvider (H S I : Type) where
  create : ConnId → ConnRole → H
  start : H → Option Bytes × H
  consume : H → Bytes → (Outcome S I × Bytes) × H
  encrypt : S → Bytes → Option Bytes × S
  decrypt : S → Bytes → Option Bytes × S

namespace Plaintext

open BigEndian List

/-- `PeerId::kSize`. -/
def kSize : ℕ := 32

structure PlaintextHandshaker where
  localId : ℕ
  proto : Bytes
  initiator : Bool
  deriving DecidableEq

namespace PlaintextHandshaker

variable (hk : PlaintextHandshaker)

/-- `PlaintextHandshaker::append_message`. -/
def message : Bytes :=
  encode 2 hk.proto.length ++ hk.proto ++ encode kSize hk.localId

def start : Option Bytes × PlaintextHandshaker :=
  (some (if hk.initiator then hk.message else []), hk)

/-- `PlaintextHandshaker::consume`; the session only holds the remote id. -/
def consume (incoming : Bytes) : (Outcome ℕ ℕ × Bytes) × PlaintextHandshaker :=
  if incoming.length < 2 then ((.failed, []), hk)
  else
    let protoLen := decode (incoming.take 2)
    if incoming.length < 2 + protoLen + kSize then ((.failed, []), hk)
    else if protoLen ≠ hk.proto.length ∨ (incoming.drop 2).take protoLen ≠ hk.proto then
      ((.failed, []), hk)
    else
      let remote := decode ((incoming.drop (2 + protoLen)).take kSize)
      ((.done remote remote, if hk.initiator then [] else hk.message), hk)

end PlaintextHandshaker

/-- `PlaintextSecurity` of a node. -/
def security (localId : ℕ) (proto : Bytes) : SecurityProvider PlaintextHandshaker ℕ ℕ where
  create _ role := ⟨localId, proto, role = .outbound⟩
  start := PlaintextHandshaker.start
  consume := PlaintextHandshaker.consume
  encrypt s plain := (some plain, s)
  decrypt s cipher := (some cipher, s)

end Plaintext

end Librats
