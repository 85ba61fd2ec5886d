import Librats.Crypto.Noise.Pattern

/-!
# Honest runs of the handshake

An initiator and a responder run against each other, and every message arrives as it was sent.
Curve25519 is an abstract commutative DH and the AEAD opens what was sealed (`Correct`); for
different prologues the hash is injective and the AEAD opens nothing else (`Ideal`).
-/

namespace Librats.Noise

open List Function HandshakeState NoiseSession SymmetricState

variable {B : Type} (P : Primitives B)

/-- Primitives under which two honest ends agree. -/
structure Correct : Prop where
  dh_comm : ∀ a b, P.curve25519 a (P.curve25519 b P.basepoint) =
    P.curve25519 b (P.curve25519 a P.basepoint)
  decrypt_encrypt : ∀ k n ad p, P.decrypt k n ad (P.encrypt k n ad p) = some p

/-- The idealised primitives. -/
structure Ideal : Prop extends Correct P where
  sha256_injective : Function.Injective P.sha256
  decrypt_only : ∀ {k n ad k' n' ad' p q}, P.decrypt k n ad (P.encrypt k' n' ad' p) = some q →
    k = k' ∧ n = n' ∧ ad = ad' ∧ p = q

/-- A key pair whose public key is the one of its private key. -/
def KeyPair.Valid (kp : KeyPair B) : Prop :=
  kp.hasKeys = true ∧ kp.publicKey = P.curve25519 kp.privateKey P.basepoint

variable {P}

theorem generateKeypair_valid (r : List B) : (generateKeypair P r).Valid P := ⟨rfl, rfl⟩

theorem KeyPair.Valid.dh_comm (hP : Correct P) {a b : KeyPair B} (ha : a.Valid P) (hb : b.Valid P) :
    P.curve25519 a.privateKey b.publicKey = P.curve25519 b.privateKey a.publicKey := by
  rw [ha.2, hb.2, hP.dh_comm]

/-! ## Reading what was written -/

theorem SymmetricState.decryptAndHash_encryptAndHash (hP : Correct P) {st : SymmetricState B}
    (hk : st.cipher.hasKey = true) {pt : List B} {cap : ℕ} (hc : pt.length ≤ cap) :
    st.decryptAndHash P (st.encryptAndHash P pt).1 cap = (some pt, (st.encryptAndHash P pt).2) := by
  have hl : ¬ cap < st.plaintextMax (P.encrypt st.cipher.key st.cipher.nonce st.h pt) := by
    simpa [plaintextMax, hk, P.length_encrypt] using hc
  have ht : ¬ (P.encrypt st.cipher.key st.cipher.nonce st.h pt).length < tagSize := by
    simp [P.length_encrypt]
  simp [encryptAndHash_key hk, decryptAndHash, if_neg hl, CipherState.decryptWithAd, hk, if_neg ht,
    hP.decrypt_encrypt, mixHash]

theorem SymmetricState.length_encryptAndHash {st : SymmetricState B} (hk : st.cipher.hasKey = true)
    (pt : List B) : (st.encryptAndHash P pt).1.length = pt.length + tagSize := by
  simp [encryptAndHash_key hk, P.length_encrypt]

namespace HandshakeState

variable (st : HandshakeState B)

variable (P) in
/-- The message 1 the responder writes in the state `st`. -/
def message1 : List B :=
  (st.ephemeral P).publicKey ++ ((st.afterEE P).encryptAndHash P st.s.publicKey).1 ++
    ((st.afterES P).encryptAndHash P []).1

variable (P) in
/-- The message 2 the initiator writes in the state `st`. -/
def message2 : List B :=
  (st.symmetric.encryptAndHash P st.s.publicKey).1 ++ ((st.afterSE P).encryptAndHash P []).1

variable (P) in
/-- The initiator after it wrote message 0. -/
def wroteMessage0 : HandshakeState B :=
  { st with
    e := st.ephemeral P
    symmetric := (st.symmetric.mixHash P (st.ephemeral P).publicKey).mixHash P []
    messageIndex := 1 }

variable (P) in
/-- The responder after it read a message 0 with the ephemeral key `e`. -/
def heardMessage0 (e : KeyPair B) : HandshakeState B :=
  { st with
    re := ⟨st.re.privateKey, e.publicKey, true, e.length_publicKey⟩
    symmetric := (st.symmetric.mixHash P e.publicKey).mixHash P []
    messageIndex := 1 }

variable (P) in
/-- The responder after it wrote message 1. -/
def wroteMessage1 : HandshakeState B :=
  { st with
    e := st.ephemeral P
    symmetric := ((st.afterES P).encryptAndHash P []).2
    messageIndex := 2 }

variable (P) in
/-- The initiator after it read the message 1 of the responder `rst`. -/
def heardMessage1 (st rst : HandshakeState B) : HandshakeState B :=
  { st with
    re := ⟨st.re.privateKey, (rst.ephemeral P).publicKey, true, (rst.ephemeral P).length_publicKey⟩
    rs := ⟨st.rs.privateKey, rst.s.publicKey, true, rst.s.length_publicKey⟩
    symmetric := ((rst.afterES P).encryptAndHash P []).2
    messageIndex := 2 }

variable (P) in
/-- The initiator after it wrote message 2. -/
def wroteMessage2 : HandshakeState B :=
  { st with
    symmetric := ((st.afterSE P).encryptAndHash P []).2
    messageIndex := 3
    handshakeComplete := true }

variable (P) in
/-- The responder after it read the message 2 of the initiator `ist`. -/
def heardMessage2 (st ist : HandshakeState B) : HandshakeState B :=
  { st with
    rs := ⟨st.rs.privateKey, ist.s.publicKey, true, ist.s.length_publicKey⟩
    symmetric := ((ist.afterSE P).encryptAndHash P []).2
    messageIndex := 3
    handshakeComplete := true }

variable {st rst : HandshakeState B}

theorem readS_encryptAndHash (hP : Correct P) {sym : SymmetricState B} (hsym : st.symmetric = sym)
    (hk : sym.cipher.hasKey = true) (s : KeyPair B) (rest : List B) :
    st.readS P ((sym.encryptAndHash P s.publicKey).1 ++ rest) = (some (dhSize + tagSize),
      { st with
        rs := ⟨st.rs.privateKey, s.publicKey, true, s.length_publicKey⟩
        symmetric := (sym.encryptAndHash P s.publicKey).2 }) := by
  subst hsym
  have hlen : (st.symmetric.encryptAndHash P s.publicKey).1.length = dhSize + tagSize := by
    rw [length_encryptAndHash hk, s.length_publicKey]
  have hl :
      ¬ ((st.symmetric.encryptAndHash P s.publicKey).1 ++ rest).length < dhSize + tagSize := by
    rw [length_append]
    omega
  have htake : ((st.symmetric.encryptAndHash P s.publicKey).1 ++ rest).take (dhSize + tagSize) =
      (st.symmetric.encryptAndHash P s.publicKey).1 := by
    rw [← hlen, take_left]
  simp only [readS, staticLength, hk, if_true, if_neg hl, htake,
    decryptAndHash_encryptAndHash hP hk s.length_publicKey.le, s.length_publicKey,
    dif_pos]

theorem readMessage_zero_honest (hst : st.Expects false 0)
    (hk : st.symmetric.cipher.hasKey = false) (e : KeyPair B) (cap : ℕ) :
    st.readMessage P e.publicKey cap = (.ok [], st.heardMessage0 P e) := by
  obtain ⟨hi, hn, hc, hin⟩ := hst
  have hk' : (st.symmetric.mixHash P e.publicKey).cipher.hasKey = false := hk
  have hp := decryptAndHash_noKey (P := P) hk'
    (show ([] : List B).length ≤ cap from cap.zero_le)
  have htake : e.publicKey.take dhSize = e.publicKey :=
    take_of_length_le e.length_publicKey.le
  have hdrop : e.publicKey.drop dhSize = [] := drop_of_length_le e.length_publicKey.le
  simp [readMessage, readTokens, readE, hi, hn, hc, hin, e.length_publicKey, htake, hdrop, hp,
    heardMessage0]

theorem readMessage_one_honest (hP : Correct P) (hst : st.Expects true 1)
    (hsym : st.symmetric = rst.symmetric) (he : st.e.Valid P)
    (hre : rst.re.publicKey = st.e.publicKey) (hs : rst.s.Valid P)
    (hre' : (rst.ephemeral P).Valid P) (cap : ℕ) :
    st.readMessage P (rst.message1 P) cap = (.ok [], st.heardMessage1 P rst) := by
  obtain ⟨hi, hn, hc, hin⟩ := hst
  rw [message1]
  have hp := decryptAndHash_encryptAndHash hP (show (rst.afterES P).cipher.hasKey = true from rfl)
    (show ([] : List B).length ≤ cap from cap.zero_le)
  set e := rst.ephemeral P
  set cs := ((rst.afterEE P).encryptAndHash P rst.s.publicKey).1 with hcs
  set cp := ((rst.afterES P).encryptAndHash P []).1
  have hcslen : cs.length = dhSize + tagSize := by
    rw [length_encryptAndHash rfl, rst.s.length_publicKey]
  have htake : (e.publicKey ++ cs ++ cp).take dhSize = e.publicKey := by
    rw [append_assoc, ← e.length_publicKey, take_left]
  have hdrop : (e.publicKey ++ cs ++ cp).drop dhSize = cs ++ cp := by
    rw [append_assoc, ← e.length_publicKey, drop_left]
  have hdrop' : (e.publicKey ++ cs ++ cp).drop (dhSize + (dhSize + tagSize)) = cp := by
    rw [← drop_drop, hdrop, ← hcslen, drop_left]
  have hlen : dhSize ≤ (e.publicKey ++ cs ++ cp).length := by
    simp only [length_append]
    omega
  -- the two DH results are the responder's
  have hee : (st.symmetric.mixHash P e.publicKey).mixKey P
      (P.curve25519 st.e.privateKey e.publicKey) = rst.afterEE P := by
    rw [hsym, he.dh_comm hP hre', afterEE, hre]
  have hes : ((rst.afterEE P).encryptAndHash P rst.s.publicKey).2.mixKey P
      (P.curve25519 st.e.privateKey rst.s.publicKey) = rst.afterES P := by
    rw [he.dh_comm hP hs, afterES, hre]
  simp only [readMessage, readTokens, hi, hn, hc, hin, Bool.not_true, Bool.false_eq_true, if_true,
    if_false]
  simp only [readE, dif_pos hlen, htake, hdrop, mixDh, hee]
  rw [readS_encryptAndHash hP rfl rfl]
  simp only [hdrop', hes, hp, hn]
  rfl

theorem readMessage_two_honest (hP : Correct P) {ist : HandshakeState B} (hst : st.Expects false 2)
    (hsym : st.symmetric = ist.symmetric) (hk : ist.symmetric.cipher.hasKey = true)
    (he : st.e.Valid P) (hre : ist.re.publicKey = st.e.publicKey) (hs : ist.s.Valid P) (cap : ℕ) :
    st.readMessage P (ist.message2 P) cap = (.ok [], st.heardMessage2 P ist) := by
  obtain ⟨hi, hn, hc, hin⟩ := hst
  have hp := decryptAndHash_encryptAndHash hP (show (ist.afterSE P).cipher.hasKey = true from rfl)
    (show ([] : List B).length ≤ cap from cap.zero_le)
  have hdrop : (ist.message2 P).drop (dhSize + tagSize) =
      ((ist.afterSE P).encryptAndHash P []).1 := by
    apply drop_left'
    rw [length_encryptAndHash hk, ist.s.length_publicKey]
  have hse : (ist.symmetric.encryptAndHash P ist.s.publicKey).2.mixKey P
      (P.curve25519 st.e.privateKey ist.s.publicKey) = ist.afterSE P := by
    rw [he.dh_comm hP hs, afterSE, hre]
  simp only [readMessage, readTokens, hi, hn, hc, hin, Bool.not_true, Bool.false_eq_true, if_true,
    if_false, OfNat.ofNat_ne_zero]
  have hs : st.readS P (ist.message2 P) = _ := readS_encryptAndHash hP hsym hk ist.s _
  simp [heardMessage2, hs, mixDh, hse, hdrop, hp, hi, hn, hin]

theorem readMessage_one_foreign (hP : Ideal P) (hst : st.Expects true 1)
    (hh : st.symmetric.h ≠ rst.symmetric.h) (cap : ℕ) :
    ∃ err st', st.readMessage P (rst.message1 P) cap = (.error err, st') ∧ st'.Expects true 1 := by
  obtain ⟨err, st', hr, hst', -, -⟩ | ⟨_, re, rs, _, -, -, ⟨hre, -, cs, cp, _, hm, hcs, hd, -⟩, -⟩ :=
    readMessage_one hst (rst.message1 P) cap
  · exact ⟨err, st', hr, hst'⟩
  exfalso
  rw [message1, append_assoc] at hm
  obtain ⟨rfl, hm'⟩ := append_inj hm (by rw [hre, KeyPair.length_publicKey])
  obtain ⟨rfl, -⟩ := append_inj hm' (by
    rw [hcs, length_encryptAndHash rfl, KeyPair.length_publicKey])
  have had := (hP.decrypt_only hd).2.2.1
  exact hh (append_cancel_right (hP.sha256_injective had))

theorem message1_ne_nil (st : HandshakeState B) : st.message1 P ≠ [] := by
  intro h
  have := congrArg List.length h
  simp [message1, dhSize] at this

theorem message2_ne_nil (hk : st.symmetric.cipher.hasKey = true) : st.message2 P ≠ [] := by
  intro h
  have := congrArg List.length h
  simp [message2, length_encryptAndHash hk, dhSize] at this

end HandshakeState

theorem KeyPair.publicKey_ne_nil (kp : KeyPair B) : kp.publicKey ≠ [] :=
  ne_nil_of_length_pos (by rw [kp.length_publicKey]; decide)

/-! ## The exchange -/

/-- The two ends of a handshake. -/
inductive Side
  | initiator
  | responder
  deriving DecidableEq, Repr

/-- Two sessions and the message under way between them, with its receiver; `sent` counts the
messages sent so far. -/
structure Exchange (B : Type) where
  initiator : NoiseSession B
  responder : NoiseSession B
  inFlight : Option (Side × List B)
  sent : ℕ

namespace Exchange

/-- What a call of `handshakeStep` returned is sent to the other end. -/
def post (x : Exchange B) (dest : Side) : Except NoiseError (Option (List B)) → Exchange B
  | .ok (some m) => { x with inFlight := some (dest, m), sent := x.sent + 1 }
  | .ok none => { x with inFlight := none }
  | .error _ => { x with inFlight := none }

variable (P) in
/-- The initiator starts the handshake. -/
def start (i r : NoiseSession B) : Exchange B :=
  let s := i.handshakeStep P [] maxMessageSize
  (Exchange.mk s.2 r none 0).post .responder s.1

variable (P) in
/-- The message under way is delivered, and its receiver makes its step. -/
def deliver (x : Exchange B) : Exchange B :=
  match x.inFlight with
  | none => x
  | some (.initiator, m) =>
    let s := x.initiator.handshakeStep P m maxMessageSize
    { x with initiator := s.2 }.post .responder s.1
  | some (.responder, m) =>
    let s := x.responder.handshakeStep P m maxMessageSize
    { x with responder := s.2 }.post .initiator s.1

variable {x : Exchange B}

theorem deliver_none (hx : x.inFlight = none) : x.deliver P = x := by
  simp [deliver, hx]

theorem start_eq {i : NoiseSession B} (r : NoiseSession B) (hr : i.transportReady = false)
    (hi : i.handshake.Expects true 0) (hk : i.handshake.symmetric.cipher.hasKey = false) :
    start P i r =
      { initiator := { i with handshake := i.handshake.wroteMessage0 P }
        responder := r
        inFlight := some (.responder, (i.handshake.ephemeral P).publicKey)
        sent := 1 } := by
  have hw := writeMessage_zero (P := P) hi hk
    (show dhSize ≤ maxMessageSize by decide)
  have hs := handshakeStep_nil P hr hi.incomplete hw
  rw [finish_incomplete P (by exact hi.incomplete)] at hs
  simp [start, hs, post, wroteMessage0]

theorem deliver_message0 {e : KeyPair B}
    (hx : x.inFlight = some (.responder, e.publicKey)) (hr : x.responder.transportReady = false)
    (hst : x.responder.handshake.Expects false 0)
    (hk : x.responder.handshake.symmetric.cipher.hasKey = false) : x.deliver P = { x with
        responder :=
          { x.responder with handshake := (x.responder.handshake.heardMessage0 P e).wroteMessage1 P }
        inFlight := some (.initiator, (x.responder.handshake.heardMessage0 P e).message1 P)
        sent := x.sent + 1 } := by
  have hread := readMessage_zero_honest (P := P) hst hk e
    payloadBufSize
  have hst' : (x.responder.handshake.heardMessage0 P e).Expects false 1 :=
    ⟨hst.role, rfl, hst.incomplete, hst.initialized⟩
  have hw := writeMessage_one (P := P) hst'
    (show dhSize + (dhSize + tagSize) + tagSize ≤ maxMessageSize by decide)
  have hs := handshakeStep_answered P hr e.publicKey_ne_nil hread hst'.incomplete hw
  rw [finish_incomplete P (by exact hst'.incomplete)] at hs
  simp [deliver, hx, hs, post, wroteMessage1, message1]

theorem deliver_message1 (hP : Correct P) (rst : HandshakeState B)
    (hx : x.inFlight = some (.initiator, rst.message1 P)) (hr : x.initiator.transportReady = false)
    (hst : x.initiator.handshake.Expects true 1)
    (hsym : x.initiator.handshake.symmetric = rst.symmetric) (he : x.initiator.handshake.e.Valid P)
    (hre : rst.re.publicKey = x.initiator.handshake.e.publicKey)
    (hs : rst.s.Valid P) (hre' : (rst.ephemeral P).Valid P) : x.deliver P = { x with
        initiator := ({ x.initiator with
          handshake := (x.initiator.handshake.heardMessage1 P rst).wroteMessage2 P }.finish P none).2
        inFlight := some (.responder, (x.initiator.handshake.heardMessage1 P rst).message2 P)
        sent := x.sent + 1 } := by
  have hread := readMessage_one_honest hP hst hsym he hre hs hre' payloadBufSize
  have hst' : (x.initiator.handshake.heardMessage1 P rst).Expects true 2 :=
    ⟨hst.role, rfl, hst.incomplete, hst.initialized⟩
  have hw := writeMessage_two (P := P) hst'
    (show dhSize + tagSize + tagSize ≤ maxMessageSize by decide)
  have hs := handshakeStep_answered P hr rst.message1_ne_nil hread hst'.incomplete hw
  rw [finish_complete P rfl] at hs
  rw [finish_complete P rfl]
  simp only [deliver, hx, hs]
  rfl

theorem deliver_message2 (hP : Correct P) (ist : HandshakeState B)
    (hx : x.inFlight = some (.responder, ist.message2 P))
    (hr : x.responder.transportReady = false) (hst : x.responder.handshake.Expects false 2)
    (hsym : x.responder.handshake.symmetric = ist.symmetric)
    (hk : ist.symmetric.cipher.hasKey = true) (he : x.responder.handshake.e.Valid P)
    (hre : ist.re.publicKey = x.responder.handshake.e.publicKey) (hs : ist.s.Valid P) :
    x.deliver P = { x with
        responder := ({ x.responder with
          handshake := x.responder.handshake.heardMessage2 P ist }.finish P none).2
        inFlight := none } := by
  have hread := readMessage_two_honest hP hst hsym hk he hre hs payloadBufSize
  have hs := handshakeStep_completed P hr (message2_ne_nil hk) hread rfl
  rw [finish_complete P rfl] at hs
  rw [finish_complete P rfl]
  simp [deliver, hx, hs, post]

/-! ## Agreement -/

/-- Both ends are ready after three messages, each sends under the key the other receives under, the
hashes are equal, and each knows the static key of the other. -/
structure Agreed (si sr : KeyPair B) (x : Exchange B) : Prop where
  inFlight : x.inFlight = none
  sent : x.sent = 3
  initiator_ready : x.initiator.transportReady = true
  responder_ready : x.responder.transportReady = true
  initiator_to_responder : x.initiator.sendCipher = x.responder.recvCipher
  responder_to_initiator : x.responder.sendCipher = x.initiator.recvCipher
  hash : x.initiator.getHandshakeHash = x.responder.getHandshakeHash
  initiator_remote : x.initiator.getRemoteStaticPublic = sr.publicKey
  responder_remote : x.responder.getRemoteStaticPublic = si.publicKey

/-- No end is ready, and a message to the initiator would be refused. -/
structure Stuck (P : Primitives B) (x : Exchange B) : Prop where
  initiator_ready : x.initiator.transportReady = false
  responder_ready : x.responder.transportReady = false
  refused : ∀ m, x.inFlight = some (.initiator, m) →
    ∃ err, (x.initiator.handshakeStep P m maxMessageSize).1 = .error err

section

variable (P) (si sr : KeyPair B) (p₁ p₂ s₁ e₁ s₂ e₂ : List B)

/-- The exchange of an initiator with static key `si` and prologue `p₁` and a responder with `sr`
and `p₂`, after `n` deliveries; `s₁` and `e₁`, `s₂` and `e₂` are the entropy for their keys. -/
def honest (n : ℕ) : Exchange B :=
  (deliver P)^[n] (start P (.start P true (some si) p₁ s₁ e₁) (.start P false (some sr) p₂ s₂ e₂))

variable {P si sr}

/-- Up to the responder's message the prologues do not matter. -/
theorem honest_one : let ist := initializeHandshake P true (some si) p₁ s₁ e₁
    let rst := (initializeHandshake P false (some sr) p₂ s₂ e₂).heardMessage0 P (ist.ephemeral P)
    honest P si sr p₁ p₂ s₁ e₁ s₂ e₂ 1 =
      { initiator := ⟨ist.wroteMessage0 P, .new P, .new P, false⟩
        responder := ⟨rst.wroteMessage1 P, .new P, .new P, false⟩
        inFlight := some (.initiator, rst.message1 P)
        sent := 2 } := by
  rw [honest, start_eq _ rfl ⟨rfl, rfl, rfl, rfl⟩ rfl, iterate_one,
    deliver_message0 rfl rfl ⟨rfl, rfl, rfl, rfl⟩ rfl]
  rfl

theorem honest_succ (n : ℕ) : honest P si sr p₁ p₂ s₁ e₁ s₂ e₂ (n + 1) =
    (honest P si sr p₁ p₂ s₁ e₁ s₂ e₂ n).deliver P :=
  iterate_succ_apply' ..

section

variable (hP : Correct P)

include hP

/-- With equal prologues the initiator answers message 1, and is ready. -/
theorem honest_two (hsr : sr.Valid P) :
    let ist := initializeHandshake P true (some si) p₁ s₁ e₁
    let rst := (initializeHandshake P false (some sr) p₁ s₂ e₂).heardMessage0 P (ist.ephemeral P)
    let ist' := (ist.wroteMessage0 P).heardMessage1 P rst
    honest P si sr p₁ p₁ s₁ e₁ s₂ e₂ 2 =
      { initiator := ((NoiseSession.mk (ist'.wroteMessage2 P) (.new P) (.new P) false).finish P
          none).2
        responder := ⟨rst.wroteMessage1 P, .new P, .new P, false⟩
        inFlight := some (.responder, ist'.message2 P)
        sent := 3 } := by
  intro ist rst ist'
  have hs : rst.s.Valid P := by
    rwa [show rst.s = sr from if_pos hsr.1]
  rw [honest_succ, honest_one, deliver_message1 hP rst rfl rfl ⟨rfl, rfl, rfl, rfl⟩ rfl
    (generateKeypair_valid _) rfl hs (generateKeypair_valid _)]

theorem honest_three_agreed (hsi : si.Valid P) (hsr : sr.Valid P) :
    Agreed si sr (honest P si sr p₁ p₁ s₁ e₁ s₂ e₂ 3) := by
  rw [honest_succ, honest_two _ _ _ _ _ hP hsr]
  set ist := initializeHandshake P true (some si) p₁ s₁ e₁
  set rst := initializeHandshake P false (some sr) p₁ s₂ e₂
  have hi : ist.s = si := if_pos hsi.1
  have hr : rst.s = sr := if_pos hsr.1
  rw [deliver_message2 hP ((ist.wroteMessage0 P).heardMessage1 P (rst.heardMessage0 P
      (ist.ephemeral P))) rfl rfl ⟨rfl, rfl, rfl, rfl⟩ rfl
    (by rw [heardMessage1]; rfl)
    (generateKeypair_valid _) rfl (show ist.s.Valid P from hi ▸ hsi),
    finish_complete P rfl, finish_complete P rfl]
  have hi' : ist.s.publicKey = si.publicKey := by rw [hi]
  have hr' : rst.s.publicKey = sr.publicKey := by rw [hr]
  exact ⟨rfl, rfl, rfl, rfl, rfl, rfl, rfl, hr', hi'⟩

end

section

variable (hP : Ideal P)

include hP

theorem deliver_foreign {x : Exchange B} {rst : HandshakeState B}
    (hx : x.inFlight = some (.initiator, rst.message1 P)) (hr : x.initiator.transportReady = false)
    (hst : x.initiator.handshake.Expects true 1)
    (hh : x.initiator.handshake.symmetric.h ≠ rst.symmetric.h) :
    ∃ err st, x.initiator.handshakeStep P (rst.message1 P) maxMessageSize =
        (.error err, { x.initiator with handshake := st }) ∧
      x.deliver P =
        { x with initiator := { x.initiator with handshake := st }, inFlight := none } := by
  obtain ⟨err, st, hread, -⟩ := readMessage_one_foreign hP hst hh payloadBufSize
  have hs := handshakeStep_refused P hr rst.message1_ne_nil hread maxMessageSize
  exact ⟨err, st, hs, by simp [deliver, hx, hs, post]⟩

/-- Different prologues keep the transcripts of the two ends different. -/
theorem transcript_ne {p₁ p₂ : List B} (hp : p₁ ≠ p₂) (h e : List B) :
    P.sha256 (P.sha256 (P.sha256 (h ++ p₁) ++ e) ++ []) ≠
      P.sha256 (P.sha256 (P.sha256 (h ++ p₂) ++ e) ++ []) := by
  intro heq
  have h₁ := append_cancel_right (hP.sha256_injective heq)
  have h₂ := append_cancel_right (hP.sha256_injective h₁)
  exact hp (append_cancel_left (hP.sha256_injective h₂))

theorem honest_stuck (hp : p₁ ≠ p₂) (n : ℕ) : Stuck P (honest P si sr p₁ p₂ s₁ e₁ s₂ e₂ n) := by
  obtain ⟨err, st, hstep, hdeliver⟩ := deliver_foreign hP (x := honest P si sr p₁ p₂ s₁ e₁ s₂ e₂ 1)
    (by rw [honest_one]) (by rw [honest_one]) (by rw [honest_one]; exact ⟨rfl, rfl, rfl, rfl⟩)
    (by rw [honest_one]; exact transcript_ne hP hp _ _)
  match n with
  | 0 =>
    rw [honest, start_eq _ rfl ⟨rfl, rfl, rfl, rfl⟩ rfl]
    exact ⟨rfl, rfl, fun m hm => by simp at hm⟩
  | 1 =>
    rw [honest_one] at hstep ⊢
    refine ⟨rfl, rfl, fun m hm => ⟨err, ?_⟩⟩
    obtain rfl : _ = m := by simpa using hm
    rw [hstep]
  | n + 2 =>
    have hdone : honest P si sr p₁ p₂ s₁ e₁ s₂ e₂ (n + 2) =
        (honest P si sr p₁ p₂ s₁ e₁ s₂ e₂ 1).deliver P := by
      induction n with
      | zero => exact honest_succ ..
      | succ n ih => rw [honest_succ, ih, deliver_none (by rw [hdeliver])]
    rw [hdone, hdeliver, honest_one]
    exact ⟨rfl, rfl, fun m hm => by simp at hm⟩

end

/-- **Honest agreement.** With equal prologues both ends agree after three messages and not before;
with different ones and ideal primitives the initiator refuses the responder's message, and no end
is ever ready. -/
theorem honest_agreement (hP : Correct P) (hsi : si.Valid P) (hsr : sr.Valid P) : (p₁ = p₂ →
      Agreed si sr (honest P si sr p₁ p₂ s₁ e₁ s₂ e₂ 3) ∧
      ∀ n < 3, (honest P si sr p₁ p₂ s₁ e₁ s₂ e₂ n).responder.transportReady = false) ∧
    (Ideal P → p₁ ≠ p₂ → ∀ n, Stuck P (honest P si sr p₁ p₂ s₁ e₁ s₂ e₂ n)) := by
  refine ⟨?_, honest_stuck _ _ _ _ _ _⟩
  rintro rfl
  refine ⟨honest_three_agreed _ _ _ _ _ hP hsi hsr, fun n hn => ?_⟩
  interval_cases n
  · rw [honest, start_eq _ rfl ⟨rfl, rfl, rfl, rfl⟩ rfl]
    rfl
  · rw [honest_one]
  · rw [honest_two _ _ _ _ _ hP hsr]

end

end Exchange

/-! ## A symbolic instance -/

/-- The tag of a symbolic ciphertext: one letter for the key, the nonce, the associated data and the
plaintext. -/
def symbolicTag (k : List ℕ) (n : UInt64) (ad pt : List ℕ) : List ℕ :=
  Encodable.encode (k, n.toNat, ad, pt) :: List.replicate 15 0

theorem length_symbolicTag (k : List ℕ) (n : UInt64) (ad pt : List ℕ) :
    (symbolicTag k n ad pt).length = tagSize := rfl

theorem symbolicTag_inj {k k' : List ℕ} {n n' : UInt64} {ad ad' pt pt' : List ℕ}
    (h : symbolicTag k n ad pt = symbolicTag k' n' ad' pt') :
    k = k' ∧ n = n' ∧ ad = ad' ∧ pt = pt' := by
  have := Encodable.encode_injective (List.cons.inj h).1
  simpa [UInt64.toNat_inj] using this

/-- Opening a symbolic ciphertext. -/
def symbolicDecrypt (k : List ℕ) (n : UInt64) (ad ct : List ℕ) : Option (List ℕ) :=
  let pt := ct.take (ct.length - tagSize)
  if ct = pt ++ symbolicTag k n ad pt then some pt else none

theorem symbolicDecrypt_eq_some {k : List ℕ} {n : UInt64} {ad ct pt : List ℕ} :
    symbolicDecrypt k n ad ct = some pt ↔ ct = pt ++ symbolicTag k n ad pt := by
  rw [symbolicDecrypt, Option.ite_none_right_eq_some, Option.some_inj]
  constructor
  · rintro ⟨h, rfl⟩
    exact h
  · intro h
    have htake : ct.take (ct.length - tagSize) = pt := by
      rw [h, length_append, length_symbolicTag, Nat.add_sub_cancel, take_left]
    exact ⟨by rw [htake]; exact h, htake⟩

/-- Symbolic primitives: a letter of a hash, a key or a tag names what it was made of, and a DH adds
the exponents. -/
def symbolicPrimitives : Primitives ℕ where
  zero := 0
  protocolName := []
  basepoint := []
  clamp := id
  curve25519 a p := List.replicate dhSize (a.headI + p.headI)
  sha256 l := [Encodable.encode l]
  hkdf2 ck ikm := ([Encodable.encode (ck, ikm, 1)], [Encodable.encode (ck, ikm, 2)])
  encrypt k n ad pt := pt ++ symbolicTag k n ad pt
  decrypt := symbolicDecrypt
  length_curve25519 _ _ := length_replicate
  length_encrypt k n ad pt := by rw [length_append, length_symbolicTag]
  length_of_decrypt h := by
    rw [symbolicDecrypt_eq_some.mp h, length_append, length_symbolicTag]

theorem symbolicPrimitives_ideal : Ideal symbolicPrimitives where
  dh_comm a b := congrArg (List.replicate dhSize) (Nat.add_left_comm ..)
  sha256_injective _ _ h := Encodable.encode_injective (List.cons.inj h).1
  decrypt_encrypt _ _ _ _ := symbolicDecrypt_eq_some.mpr rfl
  decrypt_only h := by
    obtain ⟨rfl, ht⟩ := append_inj' (symbolicDecrypt_eq_some.mp h) rfl
    obtain ⟨rfl, rfl, rfl, -⟩ := symbolicTag_inj ht
    exact ⟨rfl, rfl, rfl, rfl⟩

/-- The symbolic run with the exponents 1 and 2 for the static and 3 and 4 for the ephemeral keys:
with the prologue `[7]` on both sides it agrees, with `[7]` and `[8]` it is stuck. -/
theorem honest_agreement_symbolic : Ideal symbolicPrimitives ∧
    (generateKeypair symbolicPrimitives [1]).Valid symbolicPrimitives ∧
    (generateKeypair symbolicPrimitives [2]).Valid symbolicPrimitives ∧
    Exchange.Agreed (generateKeypair symbolicPrimitives [1])
      (generateKeypair symbolicPrimitives [2])
      (Exchange.honest symbolicPrimitives (generateKeypair symbolicPrimitives [1])
        (generateKeypair symbolicPrimitives [2]) [7] [7] [] [3] [] [4] 3) ∧
    Exchange.Stuck symbolicPrimitives
      (Exchange.honest symbolicPrimitives (generateKeypair symbolicPrimitives [1])
        (generateKeypair symbolicPrimitives [2]) [7] [8] [] [3] [] [4] 3) :=
  ⟨symbolicPrimitives_ideal, generateKeypair_valid _, generateKeypair_valid _,
    ((Exchange.honest_agreement [7] [7] [] [3] [] [4] symbolicPrimitives_ideal.1
      (generateKeypair_valid _) (generateKeypair_valid _)).1 rfl).1,
    (Exchange.honest_agreement [7] [8] [] [3] [] [4] symbolicPrimitives_ideal.1
      (generateKeypair_valid _) (generateKeypair_valid _)).2 symbolicPrimitives_ideal (by decide) 3⟩

end Librats.Noise
