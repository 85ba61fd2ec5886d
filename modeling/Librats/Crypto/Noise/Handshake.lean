import Librats.Crypto.Noise.Symmetric

/-!
# The XX handshake state machine

`NoiseHandshakeState` (`crypto/noise.cpp`). Where in the pattern a side stands is only the counter
`messageIndex`. `readMessage` and `writeMessage` at an index at which the role has nothing to read
or write treat the message as a bare payload. The random bytes of the ephemeral key are the field
`entropy`.
-/

namespace Librats.Noise

variable {B : Type} (P : Primitives B)

/-! ## Key pairs -/

/-- `NoiseKeyPair`; a public key is an array of `NOISE_DH_SIZE` bytes. -/
structure KeyPair (B : Type) where
  privateKey : List B
  publicKey : List B
  hasKeys : Bool
  length_publicKey : publicKey.length = dhSize
  deriving DecidableEq

attribute [simp] KeyPair.length_publicKey

/-- `NoiseKeyPair::NoiseKeyPair`. -/
def KeyPair.empty : KeyPair B :=
  ⟨List.replicate dhSize P.zero, List.replicate dhSize P.zero, false, List.length_replicate⟩

/-- `noise_generate_keypair` on the random bytes it draws. -/
def generateKeypair (random : List B) : KeyPair B :=
  ⟨P.clamp random, P.curve25519 (P.clamp random) P.basepoint, true, P.length_curve25519 _ _⟩

/-! ## The state and its tokens -/

/-- `NoiseHandshakeState`. -/
structure HandshakeState (B : Type) where
  symmetric : SymmetricState B
  s : KeyPair B
  e : KeyPair B
  rs : KeyPair B
  re : KeyPair B
  isInitiator : Bool
  messageIndex : ℕ
  handshakeComplete : Bool
  initialized : Bool
  entropy : List B
  deriving DecidableEq

namespace HandshakeState

/-- `NoiseHandshakeState::initialize` on a fresh state. A missing static key pair is generated
from `staticEntropy`. -/
def initializeHandshake (isInitiator : Bool) (staticKeypair : Option (KeyPair B))
    (prologue : List B) (staticEntropy entropy : List B) : HandshakeState B where
  symmetric := ((SymmetricState.new P).initializeSymmetric P P.protocolName).mixHash P prologue
  s := match staticKeypair with
    | some kp => if kp.hasKeys then kp else generateKeypair P staticEntropy
    | none => generateKeypair P staticEntropy
  e := .empty P
  rs := .empty P
  re := .empty P
  isInitiator := isInitiator
  messageIndex := 0
  handshakeComplete := false
  initialized := true
  entropy := entropy

variable (st : HandshakeState B)

def mixDh (localPrivate remotePublic : List B) : HandshakeState B :=
  { st with symmetric := st.symmetric.mixKey P (P.curve25519 localPrivate remotePublic) }

/-- The ephemeral key pair `write_e` uses: the stored one, or a fresh one. -/
def ephemeral : KeyPair B :=
  if st.e.hasKeys then st.e else generateKeypair P st.entropy

def writeE : List B × HandshakeState B :=
  ((st.ephemeral P).publicKey,
    { st with
      e := st.ephemeral P
      symmetric := st.symmetric.mixHash P (st.ephemeral P).publicKey })

def writeS : List B × HandshakeState B :=
  let r := st.symmetric.encryptAndHash P st.s.publicKey
  (r.1, { st with symmetric := r.2 })

/-- `NoiseHandshakeState::read_e`: the number of bytes consumed, `none` for failure. -/
def readE (input : List B) : Option ℕ × HandshakeState B :=
  if h : dhSize ≤ input.length then
    (some dhSize,
      { st with
        re := ⟨st.re.privateKey, input.take dhSize, true, by simp [h]⟩
        symmetric := st.symmetric.mixHash P (input.take dhSize) })
  else (none, st)

/-- The length of the static key on the wire, with a tag once there is a key. -/
def staticLength : ℕ :=
  if st.symmetric.cipher.hasKey then dhSize + tagSize else dhSize

/-- `NoiseHandshakeState::read_s`. A key that fails to verify has entered the hash. -/
def readS (input : List B) : Option ℕ × HandshakeState B :=
  if input.length < st.staticLength then (none, st)
  else
    match st.symmetric.decryptAndHash P (input.take st.staticLength) dhSize with
    | (some pt, sym) =>
      if h : pt.length = dhSize then
        (some st.staticLength, { st with symmetric := sym, rs := ⟨st.rs.privateKey, pt, true, h⟩ })
      else (none, { st with symmetric := sym })
    | (none, sym) => (none, { st with symmetric := sym })

/-! ## Messages -/

/-- The tokens written before the payload; `none` is a buffer too small. -/
def writeTokens (maxLen : ℕ) : Option (List B) × HandshakeState B :=
  if st.isInitiator then
    if st.messageIndex = 0 then
      -- -> e
      if maxLen < dhSize then (none, st)
      else
        let r := st.writeE P
        (some r.1, r.2)
    else if st.messageIndex = 2 then
      -- -> s, se
      if maxLen < dhSize + tagSize then (none, st)
      else
        let r := st.writeS P
        let st := r.2.mixDh P r.2.s.privateKey r.2.re.publicKey
        (some r.1, { st with handshakeComplete := true })
    else (some [], st)
  else if st.messageIndex = 1 then
    -- <- e, ee, s, es
    if maxLen < dhSize + dhSize + tagSize then (none, st)
    else
      let r := st.writeE P
      let st := r.2.mixDh P r.2.e.privateKey r.2.re.publicKey
      let r' := st.writeS P
      (some (r.1 ++ r'.1), r'.2.mixDh P r'.2.s.privateKey r'.2.re.publicKey)
  else (some [], st)

def writeMessage (payload : List B) (maxLen : ℕ) : Except NoiseError (List B) × HandshakeState B :=
  if !st.initialized then (.error .invalidState, st)
  else if st.handshakeComplete then (.error .handshakeAlreadyComplete, st)
  else
    match st.writeTokens P maxLen with
    | (none, st) => (.error .messageTooLarge, st)
    | (some out, st) =>
      let tag := if st.symmetric.cipher.hasKey then tagSize else 0
      if maxLen < out.length + payload.length + tag then (.error .messageTooLarge, st)
      else
        let r := st.symmetric.encryptAndHash P payload
        (.ok (out ++ r.1), { st with symmetric := r.2, messageIndex := st.messageIndex + 1 })

/-- The tokens `read_message` reads before the payload: how far they reach. -/
def readTokens (message : List B) : Option ℕ × HandshakeState B :=
  if st.isInitiator then
    if st.messageIndex = 1 then
      -- <- e, ee, s, es
      match st.readE P message with
      | (none, st) => (none, st)
      | (some c, st) =>
        match (st.mixDh P st.e.privateKey st.re.publicKey).readS P (message.drop c) with
        | (none, st) => (none, st)
        | (some c', st) => (some (c + c'), st.mixDh P st.e.privateKey st.rs.publicKey)
    else (some 0, st)
  else if st.messageIndex = 0 then
    -- -> e
    st.readE P message
  else if st.messageIndex = 2 then
    -- -> s, se
    match st.readS P message with
    | (none, st) => (none, st)
    | (some c, st) =>
      -- complete before the payload is verified
      (some c, { st.mixDh P st.e.privateKey st.rs.publicKey with handshakeComplete := true })
  else (some 0, st)

/-- `NoiseHandshakeState::read_message`; `payloadCap` is the size of the buffer. -/
def readMessage (message : List B) (payloadCap : ℕ) :
    Except NoiseError (List B) × HandshakeState B :=
  if !st.initialized then (.error .invalidState, st)
  else if st.handshakeComplete then (.error .handshakeAlreadyComplete, st)
  else
    match st.readTokens P message with
    | (none, st) => (.error .decryptFailed, st)
    | (some offset, st) =>
      match st.symmetric.decryptAndHash P (message.drop offset) payloadCap with
      | (none, sym) => (.error .decryptFailed, { st with symmetric := sym })
      | (some pt, sym) =>
        (.ok pt, { st with symmetric := sym, messageIndex := st.messageIndex + 1 })

/-- `NoiseHandshakeState::split`: the sending and the receiving cipher. -/
def split : Except NoiseError (CipherState B × CipherState B) :=
  if st.handshakeComplete then
    let c := st.symmetric.split P
    .ok (if st.isInitiator then (c.1, c.2) else (c.2, c.1))
  else .error .handshakeNotComplete

/-! ## The cases of reading a key -/

variable {P}

theorem readE_cases (m : List B) : st.readE P m = (none, st) ∨
      ∃ h : (m.take dhSize).length = dhSize, st.readE P m = (some dhSize,
        { st with
          re := ⟨st.re.privateKey, m.take dhSize, true, h⟩
          symmetric := st.symmetric.mixHash P (m.take dhSize) }) := by
  unfold readE
  split_ifs with h
  · exact .inr ⟨by simp [h], rfl⟩
  · exact .inl rfl

/-- A keyed `readS` fails and moves at most the handshake hash, or verified the tag of the static
key it stores. -/
theorem readS_cases {st : HandshakeState B} (hk : st.symmetric.cipher.hasKey = true) (m : List B) :
    (∃ h, st.readS P m = (none, { st with symmetric := { st.symmetric with h := h } })) ∨
      dhSize + tagSize ≤ m.length ∧ ∃ rs : List B, ∃ hrs : rs.length = dhSize,
        P.decrypt st.symmetric.cipher.key st.symmetric.cipher.nonce st.symmetric.h
          (m.take (dhSize + tagSize)) = some rs ∧
        st.readS P m = (some (dhSize + tagSize),
          { st with
            rs := ⟨st.rs.privateKey, rs, true, hrs⟩
            symmetric :=
              { ck := st.symmetric.ck
                h := P.sha256 (st.symmetric.h ++ m.take (dhSize + tagSize))
                cipher := { st.symmetric.cipher with nonce := st.symmetric.cipher.nonce + 1 } } }) := by
  have hlen : st.staticLength = dhSize + tagSize := by simp [staticLength, hk]
  unfold readS
  rw [hlen]
  split_ifs with hl
  · exact .inl ⟨st.symmetric.h, rfl⟩
  obtain ⟨h, he⟩ | ⟨rs, hd, he⟩ := SymmetricState.decryptAndHash_cases hk
    (m.take (dhSize + tagSize)) dhSize
  · exact .inl ⟨h, by rw [he]⟩
  · -- the plaintext of a key and its tag has the length of a key
    have hrs : rs.length = dhSize := by
      have := P.length_of_decrypt hd
      rw [List.length_take] at this
      omega
    exact .inr ⟨by omega, rs, hrs, hd, by simp [he, dif_pos hrs]⟩

end HandshakeState

end Librats.Noise
