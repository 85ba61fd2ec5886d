import Librats.Crypto.Noise.Session

/-!
# Reading the messages of the XX pattern

What a side has verified when it read a message of the pattern. A refused message 1 has already
mixed a DH result into the chaining key, and a message 2 whose payload does not verify has already
completed the handshake.
-/

namespace Librats.Noise

open List SymmetricState

variable {B : Type} (P : Primitives B)

/-- The chaining key and the cipher key after mixing in a DH result. -/
def Primitives.mixDh (ck localPrivate remotePublic : List B) : List B × List B :=
  P.hkdf2 ck (P.curve25519 localPrivate remotePublic)

/-- `m` is a message 0 that carries the ephemeral key `re`. -/
def ReadsMessage0 (m re : List B) : Prop :=
  re.length = dhSize ∧ ∃ payload, m = re ++ payload

/-- `m` is a message 1 with the ephemeral key `re` and, under the keys derived from `ck` and the own
ephemeral key, the static key `rs`: the tags of the static key and of the payload verify over the
transcript hash `h`. -/
def ReadsMessage1 (ck h ePrivate m re rs : List B) : Prop :=
  re.length = dhSize ∧ rs.length = dhSize ∧ ∃ cs cp payload,
    m = re ++ (cs ++ cp) ∧ cs.length = dhSize + tagSize ∧
    P.decrypt (P.mixDh ck ePrivate re).2 0 (P.sha256 (h ++ re)) cs = some rs ∧
    P.decrypt (P.mixDh (P.mixDh ck ePrivate re).1 ePrivate rs).2 0
      (P.sha256 (P.sha256 (h ++ re) ++ cs)) cp = some payload

/-- `m` is a message 2 with the static key `rs`: its tag verifies under the key `k` and nonce `n`,
and the tag of the payload under the key derived from `ck`, the own ephemeral key and `rs`. -/
def ReadsMessage2 (k : List B) (n : UInt64) (ck h ePrivate m rs : List B) : Prop :=
  rs.length = dhSize ∧ ∃ cs cp payload,
    m = cs ++ cp ∧ cs.length = dhSize + tagSize ∧ P.decrypt k n h cs = some rs ∧
    P.decrypt (P.mixDh ck ePrivate rs).2 0 (P.sha256 (h ++ cs)) cp = some payload

namespace HandshakeState

variable {P}

/-- A state that has not completed and accepts messages, in the role `isInitiator` and at the index
`n`. -/
structure Expects (st : HandshakeState B) (isInitiator : Bool) (n : ℕ) : Prop where
  role : st.isInitiator = isInitiator
  index : st.messageIndex = n
  incomplete : st.handshakeComplete = false
  initialized : st.initialized = true

variable {st : HandshakeState B} {maxLen : ℕ}

theorem readMessage_one (hst : st.Expects true 1) (m : List B) (cap : ℕ) :
    (∃ err st', st.readMessage P m cap = (.error err, st') ∧ st'.Expects true 1 ∧
      st'.s = st.s ∧ st'.e = st.e) ∨
    ∃ payload re rs st', st.readMessage P m cap = (.ok payload, st') ∧ st'.Expects true 2 ∧
      ReadsMessage1 P st.symmetric.ck st.symmetric.h st.e.privateKey m re rs ∧
      st'.s = st.s ∧ st'.re.publicKey = re ∧ st'.rs.publicKey = rs ∧ st'.rs.hasKeys = true ∧
      st'.symmetric.ck =
        (P.mixDh (P.mixDh st.symmetric.ck st.e.privateKey re).1 st.e.privateKey rs).1 := by
  obtain ⟨hi, hn, hc, hin⟩ := hst
  simp only [readMessage, readTokens, hi, hn, hc, hin, Bool.not_true, Bool.false_eq_true, if_true,
    if_false]
  obtain he | ⟨hre, he⟩ := readE_cases (P := P) st m
  · refine .inl ⟨.decryptFailed, st, by simp [he], ⟨hi, hn, hc, hin⟩, rfl, rfl⟩
  simp only [he]
  set re := m.take dhSize
  set st₁ : HandshakeState B := ({ st with
    re := ⟨st.re.privateKey, re, true, hre⟩
    symmetric := st.symmetric.mixHash P re }).mixDh P st.e.privateKey re
  obtain ⟨h, hs⟩ | ⟨hl, rs, hrs, hd, hs⟩ := readS_cases (P := P)
    (show st₁.symmetric.cipher.hasKey = true from rfl) (m.drop dhSize)
  · simp only [hs]
    exact .inl ⟨_, _, rfl, ⟨hi, hn, hc, hin⟩, rfl, rfl⟩
  simp only [hs]
  set cs := (m.drop dhSize).take (dhSize + tagSize)
  have hdrop : m.drop (dhSize + (dhSize + tagSize)) = (m.drop dhSize).drop (dhSize + tagSize) := by
    rw [drop_drop]
  rw [hdrop]
  set cp := (m.drop dhSize).drop (dhSize + tagSize)
  have hm : m = re ++ (cs ++ cp) := by
    rw [take_append_drop, take_append_drop]
  have hcs : cs.length = dhSize + tagSize := by
    rw [length_take]
    omega
  have hk : ({ st₁ with
      rs := ⟨st₁.rs.privateKey, rs, true, hrs⟩
      symmetric :=
        { ck := st₁.symmetric.ck
          h := P.sha256 (st₁.symmetric.h ++ cs)
          cipher := { st₁.symmetric.cipher with nonce := st₁.symmetric.cipher.nonce + 1 } }
      }.mixDh P st₁.e.privateKey rs).symmetric.cipher.hasKey = true := rfl
  obtain ⟨h, hp⟩ | ⟨payload, hd', hp⟩ := decryptAndHash_cases (P := P) hk cp cap
  · simp only [hp]
    exact .inl ⟨_, _, rfl, ⟨hi, hn, hc, hin⟩, rfl, rfl⟩
  · simp only [hp]
    exact .inr ⟨payload, re, rs, _, rfl, ⟨hi, congrArg (· + 1) hn, hc, hin⟩,
      ⟨hre, hrs, cs, cp, payload, hm, hcs, hd, hd'⟩, rfl, rfl, rfl, rfl, rfl⟩

/-- The responder at index 0 refuses a message, or reads a message 0. It has no cipher key yet, so
nothing but the hash and the remote ephemeral key moves. -/
theorem readMessage_zero (hst : st.Expects false 0) (hk : st.symmetric.cipher.hasKey = false)
    (m : List B) (cap : ℕ) :
    (∃ err st', st.readMessage P m cap = (.error err, st') ∧ st'.Expects false 0 ∧
      st'.symmetric.cipher.hasKey = false) ∨
    ∃ payload re st', st.readMessage P m cap = (.ok payload, st') ∧ st'.Expects false 1 ∧
      st'.symmetric.cipher.hasKey = false ∧ ReadsMessage0 m re ∧
      st'.re.publicKey = re ∧ st'.symmetric.ck = st.symmetric.ck := by
  obtain ⟨hi, hn, hc, hin⟩ := hst
  simp only [readMessage, readTokens, hi, hn, hc, hin, Bool.not_true, Bool.false_eq_true, if_true,
    if_false]
  obtain he | ⟨hre, he⟩ := readE_cases (P := P) st m
  · exact .inl ⟨.decryptFailed, st, by simp [he], ⟨hi, hn, hc, hin⟩, hk⟩
  simp only [he]
  by_cases hcap : (m.drop dhSize).length ≤ cap
  · have hk' : (st.symmetric.mixHash P (m.take dhSize)).cipher.hasKey = false := hk
    have hp := decryptAndHash_noKey (P := P) hk' hcap
    simp only [hp]
    exact .inr ⟨_, _, _, rfl, ⟨hi, congrArg (· + 1) hn, hc, hin⟩, hk,
      ⟨hre, m.drop dhSize, (take_append_drop ..).symm⟩, rfl, rfl⟩
  · have hp : (st.symmetric.mixHash P (m.take dhSize)).decryptAndHash P (m.drop dhSize) cap =
        (none, st.symmetric.mixHash P (m.take dhSize)) := by
      rw [decryptAndHash, if_pos]
      simpa [plaintextMax, mixHash_cipher, hk] using not_le.mp hcap
    simp only [hp]
    exact .inl ⟨_, _, rfl, ⟨hi, hn, hc, hin⟩, hk⟩

/-- The responder at index 2 refuses a message 2 at its static key, which moves at most the hash;
or at its payload, after which the handshake counts as complete; or reads it. -/
theorem readMessage_two (hst : st.Expects false 2) (hk : st.symmetric.cipher.hasKey = true)
    (m : List B) (cap : ℕ) : (∃ err h, st.readMessage P m cap =
      (.error err, { st with symmetric := { st.symmetric with h := h } })) ∨
    (∃ err st', st.readMessage P m cap = (.error err, st') ∧ st'.handshakeComplete = true ∧
      st'.initialized = true) ∨
    ∃ payload rs st', st.readMessage P m cap = (.ok payload, st') ∧
      st'.handshakeComplete = true ∧ st'.isInitiator = false ∧
      ReadsMessage2 P st.symmetric.cipher.key st.symmetric.cipher.nonce st.symmetric.ck
        st.symmetric.h st.e.privateKey m rs ∧
      st'.rs.publicKey = rs ∧ st'.rs.hasKeys = true ∧
      st'.symmetric.ck = (P.mixDh st.symmetric.ck st.e.privateKey rs).1 := by
  obtain ⟨hi, hn, hc, hin⟩ := hst
  simp only [readMessage, readTokens, hi, hn, hc, hin, Bool.not_true, Bool.false_eq_true, if_true,
    if_false, OfNat.ofNat_ne_zero]
  obtain ⟨h, hs⟩ | ⟨hl, rs, hrs, hd, hs⟩ := readS_cases (P := P) hk m
  · simp only [hs]
    exact .inl ⟨.decryptFailed, h, by simp [hi, hn, hc, hin]⟩
  simp only [hs]
  set cs := m.take (dhSize + tagSize)
  set cp := m.drop (dhSize + tagSize)
  have hcs : cs.length = dhSize + tagSize := by
    rw [length_take]
    omega
  have hk' : ({ st with
      symmetric :=
        { ck := st.symmetric.ck
          h := P.sha256 (st.symmetric.h ++ cs)
          cipher := { st.symmetric.cipher with nonce := st.symmetric.cipher.nonce + 1 } }
      }.mixDh P st.e.privateKey rs).symmetric.cipher.hasKey = true := rfl
  obtain ⟨h, hp⟩ | ⟨payload, hd', hp⟩ := decryptAndHash_cases (P := P) hk' cp cap
  · simp only [mixDh] at hp ⊢
    simp only [hp]
    exact .inr (.inl ⟨_, _, rfl, rfl, hin⟩)
  · simp only [mixDh] at hp ⊢
    simp only [hp]
    exact .inr (.inr ⟨payload, rs, _, rfl, rfl, hi,
      ⟨hrs, cs, cp, payload, (take_append_drop ..).symm, hcs, hd, hd'⟩, rfl, rfl, rfl⟩)

/-! ## Writing the messages -/

theorem writeMessage_zero (hst : st.Expects true 0) (hk : st.symmetric.cipher.hasKey = false)
    (hl : dhSize ≤ maxLen) : st.writeMessage P [] maxLen = (.ok (st.ephemeral P).publicKey,
      { st with
        e := st.ephemeral P
        symmetric := (st.symmetric.mixHash P (st.ephemeral P).publicKey).mixHash P []
        messageIndex := 1 }) := by
  obtain ⟨hi, hn, hc, hin⟩ := hst
  have hk' : (st.symmetric.mixHash P (st.ephemeral P).publicKey).cipher.hasKey = false := hk
  simp only [writeMessage, writeTokens, writeE, hi, hn, hc, hin, hk', if_neg (not_lt.mpr hl),
    encryptAndHash_noKey hk', KeyPair.length_publicKey, Bool.not_true,
    Bool.false_eq_true, if_true, if_false, length_nil, append_nil, add_zero, zero_add]

variable (P) in
/-- The symmetric state of the responder after the tokens `e`, `ee` of message 1. -/
def afterEE (st : HandshakeState B) : SymmetricState B :=
  (st.symmetric.mixHash P (st.ephemeral P).publicKey).mixKey P
    (P.curve25519 (st.ephemeral P).privateKey st.re.publicKey)

variable (P) in
/-- The symmetric state of the responder after the tokens of message 1. -/
def afterES (st : HandshakeState B) : SymmetricState B :=
  ((st.afterEE P).encryptAndHash P st.s.publicKey).2.mixKey P
    (P.curve25519 st.s.privateKey st.re.publicKey)

/-- The responder at index 1 writes its ephemeral key, its encrypted static key and the tag of an
empty payload. -/
theorem writeMessage_one (hst : st.Expects false 1)
    (hl : dhSize + (dhSize + tagSize) + tagSize ≤ maxLen) : st.writeMessage P [] maxLen =
      (.ok ((st.ephemeral P).publicKey ++ ((st.afterEE P).encryptAndHash P st.s.publicKey).1 ++
          ((st.afterES P).encryptAndHash P []).1),
      { st with
        e := st.ephemeral P
        symmetric := ((st.afterES P).encryptAndHash P []).2
        messageIndex := 2 }) := by
  obtain ⟨hi, hn, hc, hin⟩ := hst
  have hs := (st.afterEE P).length_encryptAndHash_le (P := P) st.s.publicKey
  rw [st.s.length_publicKey] at hs
  have hl₁ : ¬ maxLen < dhSize + dhSize + tagSize := by omega
  have hl₂ : ¬ maxLen < dhSize + ((st.afterEE P).encryptAndHash P st.s.publicKey).1.length +
      tagSize := by omega
  simp only [afterES, afterEE] at hl₂ ⊢
  simp [writeMessage, writeTokens, writeE, writeS, mixDh, hi, hn, hc, hin, if_neg hl₁, if_neg hl₂,
    KeyPair.length_publicKey, mixKey_cipher, CipherState.initializeKey]

variable (P) in
/-- The symmetric state of the initiator after the tokens of message 2. -/
def afterSE (st : HandshakeState B) : SymmetricState B :=
  (st.symmetric.encryptAndHash P st.s.publicKey).2.mixKey P
    (P.curve25519 st.s.privateKey st.re.publicKey)

/-- The initiator at index 2 writes its encrypted static key and the tag of an empty payload, and
is done. -/
theorem writeMessage_two (hst : st.Expects true 2) (hl : dhSize + tagSize + tagSize ≤ maxLen) :
    st.writeMessage P [] maxLen = (.ok ((st.symmetric.encryptAndHash P st.s.publicKey).1 ++
          ((st.afterSE P).encryptAndHash P []).1),
      { st with
        symmetric := ((st.afterSE P).encryptAndHash P []).2
        messageIndex := 3
        handshakeComplete := true }) := by
  obtain ⟨hi, hn, hc, hin⟩ := hst
  have hs := st.symmetric.length_encryptAndHash_le (P := P) st.s.publicKey
  rw [st.s.length_publicKey] at hs
  have hl₁ : ¬ maxLen < dhSize + tagSize := by omega
  have hl₂ : ¬ maxLen < (st.symmetric.encryptAndHash P st.s.publicKey).1.length + tagSize := by
    omega
  simp only [afterSE]
  simp [writeMessage, writeTokens, writeS, mixDh, hi, hn, hc, hin, if_neg hl₁, if_neg hl₂,
    mixKey_cipher, CipherState.initializeKey]

end HandshakeState

end Librats.Noise
