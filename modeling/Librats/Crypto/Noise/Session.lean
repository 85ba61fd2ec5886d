import Librats.Crypto.Noise.Handshake

/-!
# A Noise session

`NoiseSession` (`crypto/noise.cpp`): the handshake and, once it is complete, the two transport
ciphers. `handshakeStep` reads the received message, unless it is empty, and then writes one,
unless the handshake is complete: whose turn it is is not asked.
-/

namespace Librats.Noise

variable {B : Type} (P : Primitives B)

structure NoiseSession (B : Type) where
  handshake : HandshakeState B
  sendCipher : CipherState B
  recvCipher : CipherState B
  transportReady : Bool
  deriving DecidableEq

namespace NoiseSession

/-- The size of the payload buffer of `handshake_step`. -/
def payloadBufSize : ℕ := 256

/-- `NoiseSession::start` on a fresh session. -/
def start (isInitiator : Bool) (staticKeypair : Option (KeyPair B)) (prologue : List B)
    (staticEntropy entropy : List B) : NoiseSession B where
  handshake := .initializeHandshake P isInitiator staticKeypair prologue staticEntropy entropy
  sendCipher := .new P
  recvCipher := .new P
  transportReady := false

/-- The first part of `handshake_step`: a non-empty message is read. -/
def receive (st : HandshakeState B) (received : List B) :
    Except NoiseError Unit × HandshakeState B :=
  if received = [] then (.ok (), st)
  else
    let r := st.readMessage P received payloadBufSize
    (r.1.map fun _ => (), r.2)

/-- The second part of `handshake_step`: if the handshake is not complete, a message is written.
An error of `write_message` is dropped. -/
def reply (st : HandshakeState B) (sendLen : ℕ) : Option (List B) × HandshakeState B :=
  if st.handshakeComplete then (none, st)
  else
    match st.writeMessage P [] sendLen with
    | (.ok m, st) => (some m, st)
    | (.error _, st) => (none, st)

variable (ss : NoiseSession B)

/-- The last part of `handshake_step`: the split into the transport ciphers. -/
def finish (out : Option (List B)) : Except NoiseError (Option (List B)) × NoiseSession B :=
  if ss.handshake.handshakeComplete then
    match ss.handshake.split P with
    | .ok (send, recv) =>
      (.ok out, { ss with sendCipher := send, recvCipher := recv, transportReady := true })
    | .error e => (.error e, ss)
  else (.ok out, ss)

/-- `NoiseSession::handshake_step`: the message to send, if there is one. -/
def handshakeStep (received : List B) (sendLen : ℕ) :
    Except NoiseError (Option (List B)) × NoiseSession B :=
  if ss.transportReady then (.error .handshakeAlreadyComplete, ss)
  else
    match receive P ss.handshake received with
    | (.error e, st) => (.error e, { ss with handshake := st })
    | (.ok _, st) =>
      let r := reply P st sendLen
      { ss with handshake := r.2 }.finish P r.1

/-- `NoiseSession::encrypt`, which returns nothing before it is ready. -/
def encrypt (pt : List B) : Option (List B) × NoiseSession B :=
  if ss.transportReady then
    let r := ss.sendCipher.encryptWithAd P [] pt
    (some r.1, { ss with sendCipher := r.2 })
  else (none, ss)

/-- `NoiseSession::decrypt`, with an empty plaintext before the transport is ready. -/
def decrypt (ct : List B) : Option (List B) × NoiseSession B :=
  if ss.transportReady then
    let r := ss.recvCipher.decryptWithAd P [] ct
    (r.1, { ss with recvCipher := r.2 })
  else (some [], ss)

def getRemoteStaticPublic : List B := ss.handshake.rs.publicKey

def getHandshakeHash : List B := ss.handshake.symmetric.h

/-! ## The cases of a step -/

variable {ss : NoiseSession B} {m : List B} {st : HandshakeState B} (hr : ss.transportReady = false)
  {sendLen : ℕ}

include hr

theorem handshakeStep_refused (hm : m ≠ []) {err : NoiseError}
    (h : ss.handshake.readMessage P m payloadBufSize = (.error err, st)) (sendLen : ℕ) :
    ss.handshakeStep P m sendLen = (.error err, { ss with handshake := st }) := by
  simp [handshakeStep, receive, hr, hm, h, Except.map]

theorem handshakeStep_completed (hm : m ≠ []) {payload : List B}
    (h : ss.handshake.readMessage P m payloadBufSize = (.ok payload, st))
    (hc : st.handshakeComplete = true) (sendLen : ℕ) :
    ss.handshakeStep P m sendLen = { ss with handshake := st }.finish P none := by
  simp [handshakeStep, receive, reply, hr, hm, h, hc, Except.map]

theorem handshakeStep_answered (hm : m ≠ []) {payload out : List B} {st' : HandshakeState B}
    (h : ss.handshake.readMessage P m payloadBufSize = (.ok payload, st))
    (hc : st.handshakeComplete = false) (hw : st.writeMessage P [] sendLen = (.ok out, st')) :
    ss.handshakeStep P m sendLen = { ss with handshake := st' }.finish P (some out) := by
  simp [handshakeStep, receive, reply, hr, hm, h, hc, hw, Except.map]

theorem handshakeStep_nil (hc : ss.handshake.handshakeComplete = false) {out : List B}
    (hw : ss.handshake.writeMessage P [] sendLen = (.ok out, st)) :
    ss.handshakeStep P [] sendLen = { ss with handshake := st }.finish P (some out) := by
  simp [handshakeStep, receive, reply, hr, hc, hw]

omit hr

/-- What a finished handshake leaves behind: its final state, and the transport keys from its
chaining key, in an order that depends on the role. -/
theorem finish_complete (h : ss.handshake.handshakeComplete = true) (out : Option (List B)) :
    ss.finish P out = (.ok out,
      { ss with
        sendCipher := .initializeKey (if ss.handshake.isInitiator then
          (P.hkdf2 ss.handshake.symmetric.ck []).1 else (P.hkdf2 ss.handshake.symmetric.ck []).2)
        recvCipher := .initializeKey (if ss.handshake.isInitiator then
          (P.hkdf2 ss.handshake.symmetric.ck []).2 else (P.hkdf2 ss.handshake.symmetric.ck []).1)
        transportReady := true }) := by
  cases hi : ss.handshake.isInitiator <;>
    simp [finish, h, HandshakeState.split, SymmetricState.split, hi]

theorem finish_incomplete (h : ss.handshake.handshakeComplete = false) (out : Option (List B)) :
    ss.finish P out = (.ok out, ss) := by
  simp [finish, h]

end NoiseSession

end Librats.Noise
