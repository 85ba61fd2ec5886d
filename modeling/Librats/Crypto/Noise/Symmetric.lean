import Mathlib.Data.List.Basic
import Mathlib.Tactic

/-!
# The symmetric part of the Noise handshake

`NoiseCipherState` and `NoiseSymmetricState` (`crypto/noise.cpp`), over the cryptographic functions
of `Primitives`. The code never looks at the value of a byte of a message, so byte strings are lists
over an alphabet `B`; the code itself is the instance `B = UInt8`.
-/

namespace Librats.Noise

/-- `NOISE_DH_SIZE`. -/
def dhSize : ℕ := 32

/-- `NOISE_HASH_SIZE`. -/
def hashSize : ℕ := 32

/-- `NOISE_TAG_SIZE`. -/
def tagSize : ℕ := 16

/-- `NOISE_MAX_MESSAGE_SIZE`. -/
def maxMessageSize : ℕ := 65535

/-- `NoiseError`, without `OK`: success is the `ok` of `Except`. -/
inductive NoiseError
  | invalidState
  | decryptFailed
  | messageTooLarge
  | handshakeNotComplete
  | handshakeAlreadyComplete
  | invalidKey
  | internalError
  deriving DecidableEq, Repr

/-- The cryptographic functions the handshake calls, over an alphabet `B` of bytes. -/
structure Primitives (B : Type) where
  /-- The byte `0` of `memset`. -/
  zero : B
  /-- `NOISE_PROTOCOL_NAME`. -/
  protocolName : List B
  /-- `rats_curve25519_basepoint`. -/
  basepoint : List B
  /-- The clamping of a random private key. -/
  clamp : List B → List B
  /-- `rats_curve25519_donna`: private key, then public key. -/
  curve25519 : List B → List B → List B
  sha256 : List B → List B
  /-- `rats_noise_hkdf_2`: chaining key, then input key material. -/
  hkdf2 : List B → List B → List B × List B
  /-- `rats_chachapoly_encrypt`: key, nonce counter, associated data, plaintext. -/
  encrypt : List B → UInt64 → List B → List B → List B
  /-- `rats_chachapoly_decrypt`; `none` is `RATS_CHACHAPOLY_DECRYPT_FAILED`. -/
  decrypt : List B → UInt64 → List B → List B → Option (List B)
  length_curve25519 : ∀ k p, (curve25519 k p).length = dhSize
  length_encrypt : ∀ k n ad p, (encrypt k n ad p).length = p.length + tagSize
  length_of_decrypt : ∀ {k n ad c p}, decrypt k n ad c = some p → c.length = p.length + tagSize

variable {B : Type} (P : Primitives B)

/-! ## The cipher state -/

/-- `NoiseCipherState`. -/
structure CipherState (B : Type) where
  key : List B
  nonce : UInt64
  hasKey : Bool
  deriving DecidableEq

namespace CipherState

/-- `NoiseCipherState::NoiseCipherState`. -/
def new : CipherState B := ⟨List.replicate dhSize P.zero, 0, false⟩

def initializeKey (key : List B) : CipherState B := ⟨key, 0, true⟩

/-- `NoiseCipherState::encrypt_with_ad`. Without a key the plaintext is copied. -/
def encryptWithAd (c : CipherState B) (ad pt : List B) : List B × CipherState B :=
  if c.hasKey then (P.encrypt c.key c.nonce ad pt, { c with nonce := c.nonce + 1 }) else (pt, c)

/-- `NoiseCipherState::decrypt_with_ad`. The nonce only moves when the tag verifies. -/
def decryptWithAd (c : CipherState B) (ad ct : List B) : Option (List B) × CipherState B :=
  if c.hasKey then
    if ct.length < tagSize then (none, c)
    else
      match P.decrypt c.key c.nonce ad ct with
      | some pt => (some pt, { c with nonce := c.nonce + 1 })
      | none => (none, c)
  else (some ct, c)

variable {P} {c : CipherState B}

/-- A keyed decryption fails and changes nothing, or verified the tag and moved the nonce. -/
theorem decryptWithAd_cases (hk : c.hasKey = true) (ad ct : List B) :
    c.decryptWithAd P ad ct = (none, c) ∨ ∃ pt, P.decrypt c.key c.nonce ad ct = some pt ∧
        c.decryptWithAd P ad ct = (some pt, { c with nonce := c.nonce + 1 }) := by
  unfold decryptWithAd
  split_ifs with hl
  · exact .inl rfl
  · cases hd : P.decrypt c.key c.nonce ad ct with
    | none => exact .inl rfl
    | some pt => exact .inr ⟨pt, rfl, rfl⟩

end CipherState

/-! ## The symmetric state -/

/-- `NoiseSymmetricState`. -/
structure SymmetricState (B : Type) where
  ck : List B
  h : List B
  cipher : CipherState B
  deriving DecidableEq

namespace SymmetricState

/-- `NoiseSymmetricState::NoiseSymmetricState`. -/
def new : SymmetricState B :=
  ⟨List.replicate hashSize P.zero, List.replicate hashSize P.zero, CipherState.new P⟩

variable (st : SymmetricState B)

/-- `NoiseSymmetricState::initialize_symmetric`: a protocol name that fits is padded with zeros,
a longer one is hashed. The cipher is not touched. -/
def initializeSymmetric (name : List B) : SymmetricState B :=
  let h := if name.length ≤ hashSize then name ++ List.replicate (hashSize - name.length) P.zero
    else P.sha256 name
  { st with h := h, ck := h }

def mixKey (ikm : List B) : SymmetricState B :=
  { st with ck := (P.hkdf2 st.ck ikm).1, cipher := .initializeKey (P.hkdf2 st.ck ikm).2 }

def mixHash (data : List B) : SymmetricState B :=
  { st with h := P.sha256 (st.h ++ data) }

def encryptAndHash (pt : List B) : List B × SymmetricState B :=
  let r := st.cipher.encryptWithAd P st.h pt
  (r.1, { st with cipher := r.2 }.mixHash P r.1)

/-- The bound `decrypt_and_hash` puts on the plaintext. -/
def plaintextMax (ct : List B) : ℕ :=
  if st.cipher.hasKey then ct.length - tagSize else ct.length

/-- `NoiseSymmetricState::decrypt_and_hash`: the ciphertext enters the hash whether or not the
tag verifies, and the associated data is the hash from before. -/
def decryptAndHash (ct : List B) (cap : ℕ) : Option (List B) × SymmetricState B :=
  if cap < st.plaintextMax ct then (none, st)
  else
    let r := st.cipher.decryptWithAd P st.h ct
    (r.1, { st.mixHash P ct with cipher := r.2 })

def split : CipherState B × CipherState B :=
  (.initializeKey (P.hkdf2 st.ck []).1, .initializeKey (P.hkdf2 st.ck []).2)

variable {P} (ikm : List B)

@[simp] theorem mixKey_ck : (st.mixKey P ikm).ck = (P.hkdf2 st.ck ikm).1 := rfl

@[simp] theorem mixKey_h : (st.mixKey P ikm).h = st.h := rfl

@[simp] theorem mixKey_cipher :
    (st.mixKey P ikm).cipher = .initializeKey (P.hkdf2 st.ck ikm).2 := rfl

@[simp] theorem mixHash_ck (d : List B) : (st.mixHash P d).ck = st.ck := rfl

@[simp] theorem mixHash_h (d : List B) : (st.mixHash P d).h = P.sha256 (st.h ++ d) := rfl

@[simp] theorem mixHash_cipher (d : List B) : (st.mixHash P d).cipher = st.cipher := rfl

theorem encryptAndHash_ck (pt : List B) : (st.encryptAndHash P pt).2.ck = st.ck := rfl

variable {st : SymmetricState B}

theorem encryptAndHash_noKey (hk : st.cipher.hasKey = false) (pt : List B) :
    st.encryptAndHash P pt = (pt, st.mixHash P pt) := by
  simp [encryptAndHash, CipherState.encryptWithAd, hk]

theorem encryptAndHash_key (hk : st.cipher.hasKey = true) (pt : List B) :
    st.encryptAndHash P pt = (P.encrypt st.cipher.key st.cipher.nonce st.h pt,
      { ck := st.ck
        h := P.sha256 (st.h ++ P.encrypt st.cipher.key st.cipher.nonce st.h pt)
        cipher := { st.cipher with nonce := st.cipher.nonce + 1 } }) := by
  simp [encryptAndHash, CipherState.encryptWithAd, hk, mixHash]

theorem length_encryptAndHash_le (st : SymmetricState B) (pt : List B) :
    (st.encryptAndHash P pt).1.length ≤ pt.length + tagSize := by
  cases hk : st.cipher.hasKey with
  | false => simp [encryptAndHash_noKey hk]
  | true => simp [encryptAndHash_key hk, P.length_encrypt]

/-- A keyed `decrypt_and_hash` fails and moves at most the hash, or verified the tag over the hash
from before. -/
theorem decryptAndHash_cases (hk : st.cipher.hasKey = true) (ct : List B) (cap : ℕ) :
    (∃ h, st.decryptAndHash P ct cap = (none, { st with h := h })) ∨
      ∃ pt, P.decrypt st.cipher.key st.cipher.nonce st.h ct = some pt ∧
        st.decryptAndHash P ct cap = (some pt,
          { ck := st.ck, h := P.sha256 (st.h ++ ct),
            cipher := { st.cipher with nonce := st.cipher.nonce + 1 } }) := by
  unfold decryptAndHash
  split_ifs with hc
  · exact .inl ⟨st.h, rfl⟩
  · obtain he | ⟨pt, hd, he⟩ := CipherState.decryptWithAd_cases (P := P) hk st.h ct
    · exact .inl ⟨P.sha256 (st.h ++ ct), by simp [he, mixHash]⟩
    · exact .inr ⟨pt, hd, by simp [he, mixHash]⟩

theorem decryptAndHash_noKey (hk : st.cipher.hasKey = false) {ct : List B} {cap : ℕ}
    (hc : ct.length ≤ cap) : st.decryptAndHash P ct cap = (some ct, st.mixHash P ct) := by
  have hc' : ¬ cap < st.plaintextMax ct := by simpa [plaintextMax, hk] using hc
  simp [decryptAndHash, if_neg hc', CipherState.decryptWithAd, hk, mixHash]

end SymmetricState

end Librats.Noise
