import Librats.Crypto.Noise.Session
import Librats.Security.Handshaker

/-!
# The Noise handshaker

`NoiseHandshaker` (`security/noise_security.cpp`) drives `NoiseSession.handshakeStep` with the
blocks the connection receives. `NoiseSessionAdapter` is the session it hands out.
-/

namespace Librats.Noise

variable {B : Type} (P : Primitives B)

/-- `NoiseHandshaker`. The session is gone once `consume` has handed it out. -/
structure NoiseHandshaker (B : Type) where
  session : Option (NoiseSession B)
  initiator : Bool
  deriving DecidableEq

namespace NoiseHandshaker

/-- `NoiseHandshaker::NoiseHandshaker`. -/
def new (identity : KeyPair B) (initiator : Bool) (prologue staticEntropy entropy : List B) :
    NoiseHandshaker B :=
  ⟨some (.start P initiator (some identity) prologue staticEntropy entropy), initiator⟩

variable (hk : NoiseHandshaker B)

/-- `NoiseHandshaker::step`: the message to append to `out`, `none` on failure. A moved session is
not stepped. -/
def step (received : List B) : Option (List B) × NoiseHandshaker B :=
  match hk.session with
  | none => (none, hk)
  | some ss =>
    if maxMessageSize < received.length then (none, hk)
    else
      match ss.handshakeStep P received maxMessageSize with
      | (.error _, ss) => (none, { hk with session := some ss })
      | (.ok out, ss) => (some (out.getD []), { hk with session := some ss })

/-- `NoiseHandshaker::start`: the initiator sends the first message. -/
def start : Option (List B) × NoiseHandshaker B :=
  if hk.initiator then hk.step P [] else (some [], hk)

/-- `NoiseHandshaker::consume`: the outcome and the bytes to send. -/
def consume (incoming : List B) :
    (Outcome (NoiseSession B) (List B) × List B) × NoiseHandshaker B :=
  match hk.step P incoming with
  | (none, hk) => ((.failed, []), hk)
  | (some out, hk) =>
    match hk.session with
    | some ss =>
      if ss.transportReady then
        ((.done ss (P.sha256 ss.handshake.rs.publicKey), out), { hk with session := none })
      else ((.needMore, out), hk)
    | none => ((.needMore, out), hk)

/-- The handshaker after it has consumed a list of blocks. -/
def consumeAll (blocks : List (List B)) : NoiseHandshaker B :=
  blocks.foldl (fun hk b => (hk.consume P b).2) hk

@[simp] theorem consumeAll_append_singleton (bs : List (List B))
    (b : List B) : hk.consumeAll P (bs ++ [b]) = ((hk.consumeAll P bs).consume P b).2 := by
  simp [consumeAll]

end NoiseHandshaker

namespace NoiseSessionAdapter

/-- `NoiseSessionAdapter::encrypt`: no bytes for some are a failure. -/
def encrypt (ss : NoiseSession B) (plain : List B) : Option (List B) × NoiseSession B :=
  match ss.encrypt P plain with
  | (some cipher, ss) => (some cipher, ss)
  | (none, ss) => (if plain.length ≠ 0 then none else some [], ss)

def decrypt (ss : NoiseSession B) (cipher : List B) : Option (List B) × NoiseSession B :=
  if cipher.length < tagSize then (none, ss) else ss.decrypt P cipher

/-- A session that is ready seals every message under its key and the next nonce. -/
theorem encrypt_eq {ss : NoiseSession B} (hready : ss.transportReady = true)
    (hkey : ss.sendCipher.hasKey = true) (plain : List B) :
    encrypt P ss plain = (some (P.encrypt ss.sendCipher.key ss.sendCipher.nonce [] plain),
      { ss with sendCipher := { ss.sendCipher with nonce := ss.sendCipher.nonce + 1 } }) := by
  simp [encrypt, NoiseSession.encrypt, hready, CipherState.encryptWithAd, hkey]

end NoiseSessionAdapter

end Librats.Noise
