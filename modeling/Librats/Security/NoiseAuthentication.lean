import Librats.Security.NoiseSecurity
import Librats.Crypto.Noise.Pattern

/-!
# What a finished Noise handshake proves

What a `NoiseHandshaker` that reports `done` has proved (`RanAsInitiator`, `RanAsResponder`). An
empty block is not read but answered, and the answer moves the index
(`ranXX_fails_on_empty_blocks`); without one `done` means that the pattern was run
(`consume_done_ranXX`). After a failed step, messages too short for a key finish nothing.
-/

namespace Librats.Noise

open List

variable {B : Type} (P : Primitives B)

/-! ## Having run the pattern -/

/-- The initiator with session `before` when the last block `m` arrived, who then handed out `ss`
and `rid`, has read `m` as a message 1: its ephemeral key, its static key and both tags. -/
def RanAsInitiator (before : NoiseSession B) (m : List B) (ss : NoiseSession B) (rid : List B) :
    Prop :=
  ∃ re rs,
    let st := before.handshake
    let ee := P.mixDh st.symmetric.ck st.e.privateKey re
    let es := P.mixDh ee.1 st.e.privateKey rs
    let se := P.mixDh es.1 st.s.privateKey re
    ReadsMessage1 P st.symmetric.ck st.symmetric.h st.e.privateKey m re rs ∧
      rid = P.sha256 rs ∧ ss.handshake.rs.publicKey = rs ∧ ss.handshake.rs.hasKeys = true ∧
      ss.sendCipher.key = (P.hkdf2 se.1 []).1 ∧ ss.recvCipher.key = (P.hkdf2 se.1 []).2

/-- The chaining key and the cipher key a responder derives in message 1 from the ephemeral key of
message 0. -/
def responderKeys (ck : List B) (st : HandshakeState B) (re : List B) : List B × List B :=
  P.mixDh (P.mixDh ck st.e.privateKey re).1 st.s.privateKey re

/-- The responder with session `first` when `m₀` arrived and `before` when the last block `m₂`
arrived, who handed out `ss` and `rid`, has read `m₀` as a message 0 and `m₂` as a message 2: the
remote ephemeral key, the static key and both tags. -/
def RanAsResponder (first : NoiseSession B) (m₀ : List B) (before : NoiseSession B) (m₂ : List B)
    (ss : NoiseSession B) (rid : List B) : Prop :=
  ∃ re rs,
    let st := before.handshake
    let es := responderKeys P first.handshake.symmetric.ck st re
    let se := P.mixDh es.1 st.e.privateKey rs
    ReadsMessage0 m₀ re ∧
      ReadsMessage2 P es.2 1 es.1 st.symmetric.h st.e.privateKey m₂ rs ∧
      rid = P.sha256 rs ∧ ss.handshake.rs.publicKey = rs ∧ ss.handshake.rs.hasKeys = true ∧
      ss.sendCipher.key = (P.hkdf2 se.1 []).2 ∧ ss.recvCipher.key = (P.hkdf2 se.1 []).1

/-- The handshaker that was `hk` after `start`, was then fed with `blocks` and handed out `ss` and
`rid` on the last block `m`, has run the XX pattern in its role. -/
def RanXX (hk : NoiseHandshaker B) (blocks : List (List B)) (m : List B) (ss : NoiseSession B)
    (rid : List B) : Prop :=
  if hk.initiator then
    ∃ before, (hk.consumeAll P blocks).session = some before ∧ RanAsInitiator P before m ss rid
  else
    ∃ pre m₀ post first before, blocks = pre ++ m₀ :: post ∧
      (hk.consumeAll P pre).session = some first ∧
      (hk.consumeAll P blocks).session = some before ∧ RanAsResponder P first m₀ before m ss rid

/-! ## The initiator -/

namespace NoiseHandshaker

variable {P}

/-- An initiator that waits for message 1. -/
def WaitsForOne (hk : NoiseHandshaker B) : Prop :=
  ∃ ss, hk.session = some ss ∧ ss.transportReady = false ∧ ss.handshake.Expects true 1

variable {hk : NoiseHandshaker B} {ss : NoiseSession B} {m : List B}

theorem consume_oversized (h : hk.session = some ss) (hm : maxMessageSize < m.length) :
    hk.consume P m = ((.failed, []), hk) := by
  simp [consume, step, h, if_pos hm]

section

variable {ss' : NoiseSession B} (h : hk.session = some ss) (hm : m.length ≤ maxMessageSize)

include h hm

theorem consume_of_error {err : NoiseError}
    (hs : ss.handshakeStep P m maxMessageSize = (.error err, ss')) :
    hk.consume P m = ((.failed, []), { hk with session := some ss' }) := by
  simp [consume, step, h, if_neg (not_lt.mpr hm), hs]

theorem consume_of_ok {out : Option (List B)}
    (hs : ss.handshakeStep P m maxMessageSize = (.ok out, ss')) :
    hk.consume P m = if ss'.transportReady then
        ((.done ss' (P.sha256 ss'.handshake.rs.publicKey), out.getD []),
          { hk with session := none })
      else ((.needMore, out.getD []), { hk with session := some ss' }) := by
  simp [consume, step, h, if_neg (not_lt.mpr hm), hs]

end

theorem WaitsForOne.consume (h : hk.WaitsForOne) (hm : m ≠ []) :
    ((hk.consume P m).1.1 = .failed ∧ (hk.consume P m).2.WaitsForOne) ∨
      ∃ before ss rid, hk.session = some before ∧ (hk.consume P m).1.1 = .done ss rid ∧
        (hk.consume P m).2.session = none ∧ RanAsInitiator P before m ss rid := by
  obtain ⟨ss, hss, hr, hst⟩ := h
  by_cases hl : maxMessageSize < m.length
  · rw [consume_oversized hss hl]
    exact .inl ⟨rfl, ss, hss, hr, hst⟩
  rw [not_lt] at hl
  obtain ⟨err, st, hread, hst', -, -⟩ | ⟨payload, re, rs, st, hread, hst', hm₁, hs, hre, hrs, hhas,
    hck⟩ := HandshakeState.readMessage_one hst m NoiseSession.payloadBufSize
  · rw [consume_of_error hss hl (NoiseSession.handshakeStep_refused P hr hm hread _)]
    exact .inl ⟨rfl, _, rfl, hr, hst'⟩
  have hw := HandshakeState.writeMessage_two (P := P) hst'
    (show dhSize + tagSize + tagSize ≤ maxMessageSize by decide)
  have hstep := NoiseSession.handshakeStep_answered P hr hm hread hst'.incomplete hw
  rw [NoiseSession.finish_complete P rfl] at hstep
  rw [consume_of_ok hss hl hstep]
  refine .inr ⟨ss, _, _, hss, rfl, rfl, re, rs, hm₁, by rw [hrs], hrs, hhas, ?_, ?_⟩
  all_goals
    simp only [hst'.role]
    rw [SymmetricState.encryptAndHash_ck, HandshakeState.afterSE, SymmetricState.mixKey_ck,
      SymmetricState.encryptAndHash_ck, hck, hs, hre]
    rfl

/-! ## The responder -/

/-- A responder that waits for message 0. -/
def WaitsForZero (hk : NoiseHandshaker B) : Prop :=
  ∃ ss, hk.session = some ss ∧ ss.transportReady = false ∧ ss.handshake.Expects false 0 ∧
    ss.handshake.symmetric.cipher.hasKey = false

variable (P) in
/-- A responder that answered a message 0 with the ephemeral key `re` at the chaining key `ck` and
waits for message 2. -/
def WaitsForTwo (ck re : List B) (hk : NoiseHandshaker B) : Prop :=
  ∃ ss, hk.session = some ss ∧ ss.transportReady = false ∧ ss.handshake.Expects false 2 ∧
    ss.handshake.symmetric.ck = (responderKeys P ck ss.handshake re).1 ∧
    ss.handshake.symmetric.cipher = ⟨(responderKeys P ck ss.handshake re).2, 1, true⟩

/-- A responder that refused the payload of a message 2: its handshake counts as complete, and it
reads no more. -/
def Spent (hk : NoiseHandshaker B) : Prop :=
  ∃ ss, hk.session = some ss ∧ ss.transportReady = false ∧
    ss.handshake.handshakeComplete = true ∧ ss.handshake.initialized = true

theorem WaitsForZero.consume (h : hk.WaitsForZero) (hm : m ≠ []) :
    ((hk.consume P m).1.1 = .failed ∧ (hk.consume P m).2.WaitsForZero) ∨
      ∃ ss re, hk.session = some ss ∧ (hk.consume P m).1.1 = .needMore ∧ ReadsMessage0 m re ∧
        (hk.consume P m).2.WaitsForTwo P ss.handshake.symmetric.ck re := by
  obtain ⟨ss, hss, hr, hst, hk⟩ := h
  by_cases hl : maxMessageSize < m.length
  · rw [consume_oversized hss hl]
    exact .inl ⟨rfl, ss, hss, hr, hst, hk⟩
  rw [not_lt] at hl
  obtain ⟨err, st, hread, hst', hk'⟩ | ⟨payload, re, st, hread, hst', hk', hm₀, hre, hck⟩ :=
    HandshakeState.readMessage_zero hst hk m NoiseSession.payloadBufSize
  · rw [consume_of_error hss hl (NoiseSession.handshakeStep_refused P hr hm hread _)]
    exact .inl ⟨rfl, _, rfl, hr, hst', hk'⟩
  have hw := HandshakeState.writeMessage_one (P := P) hst'
    (show dhSize + (dhSize + tagSize) + tagSize ≤ maxMessageSize by decide)
  have hstep := NoiseSession.handshakeStep_answered P hr hm hread hst'.incomplete hw
  rw [NoiseSession.finish_incomplete P hst'.incomplete] at hstep
  rw [consume_of_ok hss hl hstep, hr]
  refine .inr ⟨ss, re, hss, rfl, hm₀, _, rfl, rfl,
    ⟨hst'.role, rfl, hst'.incomplete, hst'.initialized⟩, ?_, ?_⟩
  all_goals
    rw [SymmetricState.encryptAndHash_key rfl]
    simp only [HandshakeState.afterES, HandshakeState.afterEE, SymmetricState.mixKey_ck,
      SymmetricState.mixKey_cipher, SymmetricState.encryptAndHash_ck, SymmetricState.mixHash_ck,
      hck, hre, CipherState.initializeKey]
    rfl

theorem WaitsForTwo.consume {ck re : List B} (h : hk.WaitsForTwo P ck re) (hm : m ≠ []) :
    ((hk.consume P m).1.1 = .failed ∧
      ((hk.consume P m).2.WaitsForTwo P ck re ∨ (hk.consume P m).2.Spent)) ∨
      ∃ before ss rid, hk.session = some before ∧ (hk.consume P m).1.1 = .done ss rid ∧
        (hk.consume P m).2.session = none ∧
        ∀ first m₀, first.handshake.symmetric.ck = ck → ReadsMessage0 m₀ re →
          RanAsResponder P first m₀ before m ss rid := by
  obtain ⟨ss, hss, hr, hst, hck, hci⟩ := h
  by_cases hl : maxMessageSize < m.length
  · rw [consume_oversized hss hl]
    exact .inl ⟨rfl, .inl ⟨ss, hss, hr, hst, hck, hci⟩⟩
  rw [not_lt] at hl
  obtain ⟨err, h, hread⟩ | ⟨err, st, hread, hc, hin⟩ | ⟨payload, rs, st, hread, hc, hi, hm₂, hrs,
    hhas, hck'⟩ := HandshakeState.readMessage_two hst (by rw [hci]) m NoiseSession.payloadBufSize
  · rw [consume_of_error hss hl (NoiseSession.handshakeStep_refused P hr hm hread _)]
    exact .inl ⟨rfl, .inl ⟨_, rfl, hr, ⟨hst.role, hst.index, hst.incomplete, hst.initialized⟩, hck,
      hci⟩⟩
  · rw [consume_of_error hss hl (NoiseSession.handshakeStep_refused P hr hm hread _)]
    exact .inl ⟨rfl, .inr ⟨_, rfl, hr, hc, hin⟩⟩
  have hstep := NoiseSession.handshakeStep_completed P hr hm hread hc maxMessageSize
  rw [NoiseSession.finish_complete P hc] at hstep
  rw [consume_of_ok hss hl hstep]
  refine .inr ⟨ss, _, _, hss, rfl, rfl, fun first m₀ hfirst hm₀ => ?_⟩
  rw [hci, hck] at hm₂
  refine ⟨re, rs, hm₀, by rw [hfirst]; exact hm₂, by rw [hrs], hrs, hhas, ?_, ?_⟩
  all_goals
    simp only [hi, Bool.false_eq_true, if_false, CipherState.initializeKey]
    rw [hck', hck, hfirst]

theorem Spent.consume (h : hk.Spent) (hm : m ≠ []) :
    (hk.consume P m).1.1 = .failed ∧ (hk.consume P m).2.Spent := by
  obtain ⟨ss, hss, hr, hc, hin⟩ := h
  by_cases hl : maxMessageSize < m.length
  · rw [consume_oversized hss hl]
    exact ⟨rfl, ss, hss, hr, hc, hin⟩
  rw [not_lt] at hl
  have hread : ss.handshake.readMessage P m NoiseSession.payloadBufSize =
      (.error .handshakeAlreadyComplete, ss.handshake) := by
    simp [HandshakeState.readMessage, hc, hin]
  rw [consume_of_error hss hl (NoiseSession.handshakeStep_refused P hr hm hread _)]
  exact ⟨rfl, _, rfl, hr, hc, hin⟩

/-! ## Whole runs -/

theorem initiator_consumeAll (h : hk.WaitsForOne) {blocks : List (List B)}
    (hne : ∀ b ∈ blocks, b ≠ []) :
    (hk.consumeAll P blocks).WaitsForOne ∨ (hk.consumeAll P blocks).session = none := by
  induction blocks using reverseRecOn with
  | nil => exact .inl h
  | append_singleton bs b ih =>
    rw [consumeAll_append_singleton]
    rcases ih fun c hc => hne c (by simp [hc]) with hw | hn
    · obtain ⟨-, h'⟩ | ⟨_, _, _, -, -, h', -⟩ := hw.consume (hne b (by simp))
      · exact .inl h'
      · exact .inr h'
    · exact .inr (by simp [consume, step, hn])

theorem responder_consumeAll (h : hk.WaitsForZero) {blocks : List (List B)}
    (hne : ∀ b ∈ blocks, b ≠ []) : (hk.consumeAll P blocks).WaitsForZero ∨
      (∃ pre m₀ post first re, blocks = pre ++ m₀ :: post ∧
        (hk.consumeAll P pre).session = some first ∧ ReadsMessage0 m₀ re ∧
        (hk.consumeAll P blocks).WaitsForTwo P first.handshake.symmetric.ck re) ∨
      (hk.consumeAll P blocks).Spent ∨ (hk.consumeAll P blocks).session = none := by
  induction blocks using reverseRecOn with
  | nil => exact .inl h
  | append_singleton bs b ih =>
    have hb := hne b (by simp)
    rw [consumeAll_append_singleton]
    rcases ih fun c hc => hne c (by simp [hc]) with
      hw | ⟨pre, m₀, post, first, re, rfl, hfirst, hm₀, hw⟩ | hs | hn
    · obtain ⟨-, h'⟩ | ⟨ss, re, hss, -, hm₀, h'⟩ := hw.consume hb
      · exact .inl h'
      · exact .inr (.inl ⟨bs, b, [], ss, re, rfl, hss, hm₀, h'⟩)
    · obtain ⟨-, h' | h'⟩ | ⟨_, _, _, -, -, h', -⟩ := hw.consume hb
      · exact .inr (.inl ⟨pre, m₀, post ++ [b], first, re, by simp, hfirst, hm₀, h'⟩)
      · exact .inr (.inr (.inl h'))
      · exact .inr (.inr (.inr h'))
    · exact .inr (.inr (.inl (hs.consume hb).2))
    · exact .inr (.inr (.inr (by simp [consume, step, hn])))

theorem step_initiator (hk : NoiseHandshaker B) (m : List B) :
    (hk.step P m).2.initiator = hk.initiator := by
  unfold step
  split
  · rfl
  · split_ifs
    · rfl
    · split <;> rfl

theorem start_initiator (hk : NoiseHandshaker B) : (hk.start P).2.initiator = hk.initiator := by
  unfold start
  split_ifs
  · exact step_initiator hk []
  · rfl

section

variable (identity : KeyPair B) (prologue sEntropy entropy : List B)

theorem new_waitsForZero :
    ((new P identity false prologue sEntropy entropy).start P).2.WaitsForZero :=
  ⟨_, rfl, rfl, ⟨rfl, rfl, rfl, rfl⟩, rfl⟩

theorem new_waitsForOne :
    ((new P identity true prologue sEntropy entropy).start P).2.WaitsForOne := by
  have hst : (HandshakeState.initializeHandshake P true (some identity) prologue sEntropy
      entropy).Expects true 0 := ⟨rfl, rfl, rfl, rfl⟩
  have hw := HandshakeState.writeMessage_zero (P := P) hst rfl
    (show dhSize ≤ maxMessageSize by decide)
  have hr : (NoiseSession.start P true (some identity) prologue sEntropy entropy).transportReady =
      false := rfl
  have hstep := NoiseSession.handshakeStep_nil P hr rfl hw
  simp only [start, new, step, hstep]
  exact ⟨_, rfl, rfl, ⟨rfl, rfl, rfl, rfl⟩⟩

end

end NoiseHandshaker

open NoiseHandshaker

/-- **A handshaker fed only with non-empty blocks authenticates**, in either role and also after
failures: when a call returns `done`, the full XX pattern was run on this side. -/
theorem consume_done_ranXX (identity : KeyPair B) (initiator : Bool)
    (prologue sEntropy entropy : List B) (blocks : List (List B)) (m : List B)
    (hne : ∀ b ∈ blocks ++ [m], b ≠ []) {ss : NoiseSession B} {rid : List B}
    (hdone : ((((new P identity initiator prologue sEntropy entropy).start P).2.consumeAll P
      blocks).consume P m).1.1 = .done ss rid) :
    RanXX P ((new P identity initiator prologue sEntropy entropy).start P).2 blocks m ss rid := by
  have hm : m ≠ [] := hne m (by simp)
  have hbs : ∀ b ∈ blocks, b ≠ [] := fun b hb => hne b (by simp [hb])
  cases initiator with
  | true =>
    rw [RanXX, if_pos (by rw [start_initiator, new])]
    rcases initiator_consumeAll (new_waitsForOne identity prologue sEntropy entropy) hbs
      with hw | hn
    · obtain ⟨hf, -⟩ | ⟨before, ss', rid', hb, hd, -, hran⟩ := hw.consume hm
      · cases hf.symm.trans hdone
      · cases hd.symm.trans hdone
        exact ⟨before, hb, hran⟩
    · simp [consume, step, hn] at hdone
  | false =>
    rcases responder_consumeAll (new_waitsForZero identity prologue sEntropy entropy) hbs with
      hw | ⟨pre, m₀, post, first, re, hpre, hfirst, hm₀, hw⟩ | hs | hn
    · obtain ⟨hf, -⟩ | ⟨_, _, -, hf, -, -⟩ := hw.consume hm <;> rw [hf] at hdone <;> cases hdone
    · obtain ⟨hf, -⟩ | ⟨before, ss', rid', hb, hd, -, hran⟩ := hw.consume hm
      · cases hf.symm.trans hdone
      · cases hd.symm.trans hdone
        exact ⟨pre, m₀, post, first, before, hpre, hfirst, hb, hran first m₀ rfl hm₀⟩
    · rw [(hs.consume hm).1] at hdone
      cases hdone
    · simp [consume, step, hn] at hdone

/-! ## The empty block -/

/-- Primitives to run the handshake with: hashes are the identity, every DH gives zeros and the AEAD
appends a tag of zeros it does not check. -/
def plainPrimitives : Primitives UInt8 where
  zero := 0
  protocolName := "Noise_XX_25519_ChaChaPoly_SHA256".toUTF8.toList
  basepoint := replicate dhSize 9
  clamp := id
  curve25519 _ _ := replicate dhSize 0
  sha256 := id
  hkdf2 ck ikm := (ck, ikm)
  encrypt _ _ _ p := p ++ replicate tagSize 0
  decrypt _ _ _ c := if tagSize ≤ c.length then some (c.take (c.length - tagSize)) else none
  length_curve25519 _ _ := length_replicate
  length_encrypt _ _ _ p := by simp
  length_of_decrypt {_ _ _ c p} h := by
    split_ifs at h with hc
    cases h
    simp [hc]

/-- A key pair for these primitives. -/
def plainKeyPair : KeyPair UInt8 :=
  ⟨replicate dhSize 1, replicate dhSize 0, true, length_replicate⟩

/-- A handshake that does finish on a non-empty block. -/
theorem consume_done_ranXX_message1 : ∃ ss rid,
    (((new plainPrimitives plainKeyPair true [] [] []).start plainPrimitives).2.consume
      plainPrimitives (replicate 96 0)).1.1 = .done ss rid ∧
    RanXX plainPrimitives ((new plainPrimitives plainKeyPair true [] [] []).start plainPrimitives).2
      [] (replicate 96 0) ss rid :=
  ⟨_, _, rfl, consume_done_ranXX plainPrimitives plainKeyPair true [] [] [] [] (replicate 96 0)
    (by simp) rfl⟩

/-- **Empty blocks break the authentication**: an initiator fed with two empty blocks reports `done`
without having read a message. -/
theorem ranXX_fails_on_empty_blocks :
    ¬ ∀ (P : Primitives UInt8) (identity : KeyPair UInt8) (initiator : Bool)
      (prologue sEntropy entropy : List UInt8) (blocks : List (List UInt8)) (m : List UInt8)
      (ss : NoiseSession UInt8) (rid : List UInt8),
      ((((new P identity initiator prologue sEntropy entropy).start P).2.consumeAll P
        blocks).consume P m).1.1 = .done ss rid →
      RanXX P ((new P identity initiator prologue sEntropy entropy).start P).2 blocks m ss rid := by
  intro h
  obtain ⟨ss, rid, hdone⟩ : ∃ ss rid, ((((new plainPrimitives plainKeyPair true [] [] []).start
      plainPrimitives).2.consumeAll plainPrimitives [[]]).consume plainPrimitives []).1.1 =
      .done ss rid := ⟨_, _, rfl⟩
  have hran := h plainPrimitives plainKeyPair true [] [] [] [[]] [] ss rid hdone
  obtain ⟨before, -, re, rs, ⟨hre, -, cs, cp, _, hm, -⟩, -⟩ := hran
  -- the empty block does not hold an ephemeral key
  have := congrArg length hm
  simp only [length_nil, length_append, hre, dhSize] at this
  omega

/-! ## After a failed step -/

namespace HandshakeState

variable {P} {st st' : HandshakeState B} {m payload : List B} {cap : ℕ}

/-- A message too short for a key is read only where no key is expected, so that it completes
nothing and makes no initiator write the last message. -/
theorem readMessage_of_short (h : st.readMessage P m cap = (.ok payload, st'))
    (hshort : m.length < dhSize) :
    st'.handshakeComplete = false ∧ (st'.isInitiator = true → st'.messageIndex ≠ 2) := by
  have hE : st.readE P m = (none, st) := dif_neg hshort.not_ge
  have hS : st.readS P m = (none, st) := by
    rw [readS, if_pos]
    unfold staticLength
    split_ifs <;> omega
  have htokens : st.readTokens P m = (none, st) ∨
      st.readTokens P m = (some 0, st) ∧ (st.isInitiator = true → st.messageIndex ≠ 1) := by
    rw [readTokens, hE, hS]
    split_ifs <;> simp_all
  rw [readMessage] at h
  obtain htokens | ⟨htokens, hindex⟩ := htokens
  all_goals
    rw [htokens] at h
    split_ifs at h with hinit hcomplete
    all_goals try cases h
  dsimp only at h
  split at h <;> cases h
  exact ⟨Bool.not_eq_true _ ▸ hcomplete, fun hrole heq => hindex hrole (Nat.succ.inj heq)⟩

theorem complete_writeTokens (st : HandshakeState B) (maxLen : ℕ) :
    (st.writeTokens P maxLen).2.handshakeComplete = true →
      st.handshakeComplete = true ∨ st.isInitiator = true ∧ st.messageIndex = 2 := by
  intro h
  rw [writeTokens] at h
  by_cases hlast : st.isInitiator = true ∧ st.messageIndex = 2
  · exact .inr hlast
  · split_ifs at h with hinit _ _ h2
    all_goals first | exact .inl h | exact absurd ⟨hinit, h2⟩ hlast

theorem complete_writeMessage (st : HandshakeState B) (payload : List B) (maxLen : ℕ) :
    (st.writeMessage P payload maxLen).2.handshakeComplete = true →
      st.handshakeComplete = true ∨ st.isInitiator = true ∧ st.messageIndex = 2 := by
  intro h
  rw [writeMessage] at h
  split_ifs at h with hinit hcomplete
  · exact .inl h
  · exact .inl h
  have htokens := complete_writeTokens (P := P) st maxLen
  split at h <;> rename_i heq <;> rw [heq] at htokens
  · exact htokens h
  · dsimp only at h
    split_ifs at h <;> exact htokens h

end HandshakeState

open HandshakeState

namespace NoiseSession

variable {P} {ss : NoiseSession B}

theorem ready_finish (hr : ss.transportReady = false) (out : Option (List B)) :
    (ss.finish P out).2.transportReady = ss.handshake.handshakeComplete := by
  cases h : ss.handshake.handshakeComplete with
  | true => rw [finish_complete P h]
  | false => rw [finish_incomplete P h, hr]

theorem complete_reply {st : HandshakeState B} {sendLen : ℕ}
    (h : (reply P st sendLen).2.handshakeComplete = true) :
    st.handshakeComplete = true ∨ st.isInitiator = true ∧ st.messageIndex = 2 := by
  rw [reply] at h
  split_ifs at h with hcomplete
  · exact .inl hcomplete
  · have hwrite := complete_writeMessage (P := P) st [] sendLen
    split at h <;> rename_i heq <;> rw [heq] at hwrite <;> exact hwrite h

theorem handshakeStep_of_short (hr : ss.transportReady = false) {m : List B} (hne : m ≠ [])
    (hshort : m.length < dhSize) (sendLen : ℕ) :
    (ss.handshakeStep P m sendLen).2.transportReady = false := by
  rw [handshakeStep, hr, if_neg Bool.false_ne_true, receive, if_neg hne]
  cases hread : ss.handshake.readMessage P m payloadBufSize with
  | mk r st =>
    cases r with
    | error e => rfl
    | ok payload =>
      obtain ⟨hcomplete, hturn⟩ := readMessage_of_short hread hshort
      simp only [Except.map]
      rw [ready_finish rfl, ← Bool.not_eq_true]
      intro hready
      obtain hc | ⟨hrole, hindex⟩ := complete_reply hready
      · cases hcomplete.symm.trans hc
      · exact hturn hrole hindex

variable (P)

/-- Calls of `handshake_step`: the session after them, and whether one failed. -/
def steps (ss : NoiseSession B) (inputs : List (List B × ℕ)) : NoiseSession B × Bool :=
  inputs.foldl (fun s i =>
    let r := s.1.handshakeStep P i.1 i.2
    (r.2, s.2 || !r.1.isOk)) (ss, false)

/-- No call after one that returned an error makes the session ready. -/
def FailureFinal (ss : NoiseSession B) (inputs : List (List B × ℕ)) : Prop :=
  ∀ before i after, inputs = before ++ i :: after → (steps P ss before).2 = true →
    (steps P ss before).1.transportReady = false →
    (steps P ss (before ++ [i])).1.transportReady = false

/-- **A failed step is final as long as the messages after it are not empty and too short for a
key.** -/
theorem failureFinal_of_short (ss : NoiseSession B) (inputs : List (List B × ℕ))
    (h : ∀ k (hk : k < inputs.length), (steps P ss (inputs.take k)).2 = true →
      inputs[k].1 ≠ [] ∧ inputs[k].1.length < dhSize) : FailureFinal P ss inputs := by
  rintro before i after rfl hfailed hr
  obtain ⟨hne, hshort⟩ : i.1 ≠ [] ∧ i.1.length < dhSize := by
    simpa [hfailed] using h before.length (by simp)
  rw [steps, foldl_concat]
  exact handshakeStep_of_short hr hne hshort i.2

/-- A responder. -/
def listening : NoiseSession UInt8 := start plainPrimitives false (some plainKeyPair) [] [] []

/-- A first message, and a last one without the tag of its payload. -/
def untagged : List (Bytes × ℕ) := [(replicate 32 0, 1024), (replicate 48 0, 1024)]

/-- A message of one byte after the one that fails. -/
theorem failureFinal_of_short_oneByte : (steps plainPrimitives listening untagged).2 = true ∧
    FailureFinal plainPrimitives listening (untagged ++ [([0], 1024)]) :=
  ⟨by decide +kernel, failureFinal_of_short _ _ _ (by decide +kernel)⟩

/-- **An empty message after a failed one makes the session ready**: the message without the tag
completes the responder's handshake before it is refused. -/
theorem ready_after_failure :
    ¬FailureFinal plainPrimitives listening (untagged ++ [([], 1024)]) := by
  intro h
  have := h untagged ([], 1024) [] rfl (by decide +kernel) (by decide +kernel)
  revert this
  decide +kernel

end NoiseSession

end Librats.Noise
