import Librats.Security.NoiseSecurity
import Librats.Transport.Inbound
import Librats.Transport.Outbound

/-!
# The secure channel

`Outbound` seals frames under the nonces 0, 1, 2, … and `Inbound` opens what it reads under the same
nonces. Of the AEAD two things are used: what was sealed is opened again, and a block that opens
under a nonce was sealed under it (`Authentic`).
-/

namespace Librats

open Framer Noise List NoiseSessionAdapter Outbound Inbound BigEndian

/-- The values of `FrameHeader` in the source: a named message type has no other spelling, and the
channel has 16 bits. -/
structure FrameHeader.Valid (h : FrameHeader) : Prop where
  type : MessageType.ofByte h.type.toByte = h.type
  channel : h.channel < 2 ^ 16

namespace SecureChannel

variable (P : Primitives UInt8) (key : Bytes)

/-! ## Sealing -/

/-- The ciphertext of a frame under a nonce. -/
def sealed (n : ℕ) (frame : Frame) : Bytes :=
  P.encrypt key (UInt64.ofNat n) [] (encodeMessage frame.header frame.payload)

/-- The blocks of some frames, the first sealed under the nonce `n`. -/
def sealFrom (n : ℕ) : List Frame → List Bytes
  | [] => []
  | frame :: frames => sealed P key n frame :: sealFrom (n + 1) frames

/-- The session seals under the nonce `n` next. -/
structure Sealing (ss : NoiseSession UInt8) (n : ℕ) : Prop where
  ready : ss.transportReady = true
  cipher : ss.sendCipher = ⟨key, UInt64.ofNat n, true⟩

/-- The session opens under the nonce `n` next. -/
structure Opening (ss : NoiseSession UInt8) (n : ℕ) : Prop where
  ready : ss.transportReady = true
  cipher : ss.recvCipher = ⟨key, UInt64.ofNat n, true⟩

variable {P key} {ss : NoiseSession UInt8} {n : ℕ}

theorem Sealing.encrypt (h : Sealing key ss n) (frame : Frame) :
    ∃ ss', encrypt P ss (encodeMessage frame.header frame.payload) =
      (some (sealed P key n frame), ss') ∧ Sealing key ss' (n + 1) := by
  have henc := encrypt_eq P h.ready (by rw [h.cipher]) (encodeMessage frame.header frame.payload)
  rw [h.cipher] at henc
  exact ⟨_, henc, h.ready, by rw [UInt64.ofNat_add]; rfl⟩

/-- Every message is sealed with a tag, and nothing else is added. -/
theorem Sealing.seals (h : Sealing key ss n) : Seals (NoiseSessionAdapter.encrypt P) ss tagSize :=
  fun plain => ⟨_, _, encrypt_eq P h.ready (by rw [h.cipher]) plain, P.length_encrypt ..⟩

theorem Sealing.ciphers (h : Sealing key ss n) (frames : List Frame) :
    ∃ ss', Outbound.ciphers (NoiseSessionAdapter.encrypt P) ss frames =
      some (sealFrom P key n frames, ss') := by
  induction frames generalizing ss n with
  | nil => exact ⟨ss, rfl⟩
  | cons frame frames ih =>
    obtain ⟨next, henc, hnext⟩ := h.encrypt (P := P) frame
    obtain ⟨last, hlast⟩ := ih hnext
    exact ⟨last, by simp only [ciphers, henc, hlast]; rfl⟩

/-! ## Opening -/

variable {block : Bytes} {frames : List Frame} {received sent : List Bytes} {plain : Bytes}

theorem Opening.decrypt_none (h : Opening key ss n)
    (hd : P.decrypt key (UInt64.ofNat n) [] block = none) : decrypt P ss block = (none, ss) := by
  unfold decrypt
  split_ifs with hlen
  · rfl
  · simp only [NoiseSession.decrypt, h.ready, if_true, CipherState.decryptWithAd, h.cipher, hd,
      if_neg hlen]
    rw [← h.cipher, ← h.ready]

theorem Opening.decrypt_some (h : Opening key ss n)
    (hd : P.decrypt key (UInt64.ofNat n) [] block = some plain) :
    ∃ ss', decrypt P ss block = (some plain, ss') ∧ Opening key ss' (n + 1) := by
  have hlen : ¬ block.length < tagSize := by
    rw [P.length_of_decrypt hd]
    omega
  refine ⟨{ ss with recvCipher := ⟨key, UInt64.ofNat n + 1, true⟩ }, ?_, h.ready, ?_⟩
  · simp [decrypt, if_neg hlen, NoiseSession.decrypt, h.ready, CipherState.decryptWithAd, h.cipher, hd]
  · rw [UInt64.ofNat_add]
    rfl

/-- What was sealed is opened again. -/
def Opens (P : Primitives UInt8) (key : Bytes) : Prop :=
  ∀ n plain, P.decrypt key n [] (P.encrypt key n [] plain) = some plain

/-- A frame the source can send in one block. -/
structure Sendable (frame : Frame) : Prop where
  header : frame.header.Valid
  size : kHeaderSize + frame.payload.length + tagSize ≤ kMaxBlockSize

section

variable (h : Opening key ss n) (hopens : Opens P key)

include h hopens

theorem Opening.process_sealed {frame : Frame}
    (hframe : Sendable frame) (frames : List Frame) (rest : Bytes) :
    ∃ ss', process (decrypt P) ss frames (encodeBlock (sealed P key n frame) ++ rest) =
      process (decrypt P) ss' (frames ++ [frame]) rest ∧ Opening key ss' (n + 1) := by
  obtain ⟨ss', hdec, hnext⟩ := h.decrypt_some (hopens _ (encodeMessage frame.header frame.payload))
  have hsize : (sealed P key n frame).length ≤ kMaxBlockSize := by
    rw [sealed, P.length_encrypt, length_encodeMessage]
    exact hframe.size
  refine ⟨ss', ?_, hnext⟩
  rw [process_frame (tryTakeBlock_encodeBlock hsize rest) hdec
    (parseMessage_encodeMessage hframe.header.type hframe.header.channel frame.payload)]
  rw [← length_encodeBlock, drop_left]

theorem Opening.process_stream (hframes : ∀ frame ∈ frames, Sendable frame) (before : List Frame) :
    ∃ ss', process (decrypt P) ss before
      (stream (sealFrom P key n frames)) = ⟨ss', [], before ++ frames, true⟩ := by
  induction frames generalizing ss n before with
  | nil =>
    refine ⟨ss, ?_⟩
    rw [append_nil]
    exact process_incomplete (show _ = Block.incomplete 0 from rfl)
  | cons frame frames ih =>
    rw [forall_mem_cons] at hframes
    obtain ⟨next, hhead, hnext⟩ := h.process_sealed hopens hframes.1 before
      (stream (sealFrom P key (n + 1) frames))
    obtain ⟨last, hlast⟩ := ih hnext hframes.2 (before ++ [frame])
    refine ⟨last, hhead.trans (hlast.trans ?_)⟩
    rw [append_assoc]
    rfl

theorem Opening.process_arrived
    (hframes : ∀ frame ∈ frames, Sendable frame) {arrived missing : Bytes}
    (hstream : arrived ++ missing = stream (sealFrom P key n frames)) :
    let ch := process (decrypt P) ss [] arrived
    ch.up = true ∧ ch.frames <+: frames ∧ (missing = [] → ch.frames = frames) := by
  intro ch
  obtain ⟨last, hall⟩ := h.process_stream hopens hframes []
  rw [← hstream, process_append, nil_append] at hall
  have hup : ch.up = true := by
    by_contra hdown
    rw [Inbound.read, if_neg hdown] at hall
    exact hdown (by rw [show ch = _ from hall])
  have hpre : ch.frames <+: (ch.read (decrypt P) missing).frames :=
    ch.frames_read missing
  rw [show ch.read (decrypt P) missing = _ from hall] at hpre
  refine ⟨hup, hpre, fun hnil => ?_⟩
  rw [hnil, ← process_append, append_nil] at hall
  rw [show ch = _ from hall]

end

/-! ## Blocks that are not those that were sent -/

/-- The number of blocks that arrive as they were sent. -/
def agree : List Bytes → List Bytes → ℕ
  | block :: sent, block' :: received => if block = block' then agree sent received + 1 else 0
  | _, _ => 0

theorem agree_nil (sent : List Bytes) : agree sent [] = 0 := by
  cases sent <;> rfl

theorem agree_of_head?_ne (h : sent.head? ≠ some block) : agree sent (block :: received) = 0 := by
  cases sent with
  | nil => rfl
  | cons b sent => exact if_neg fun hb => h (by rw [hb, head?_cons])

theorem not_prefix_of_head?_ne (h : sent.head? ≠ some block) : ¬ block :: received <+: sent := by
  rintro ⟨rest, rfl⟩
  exact h rfl

section

variable (P : Primitives UInt8) (key : Bytes) (frames : List Frame)

/-- The blocks of some frames with the nonces they are sealed under. -/
def nonces : List (UInt64 × Bytes) :=
  (sealFrom P key 0 frames).zipIdx.map fun p => (UInt64.ofNat p.2, p.1)

/-- **The AEAD is authentic**: a block that arrives and opens under a nonce was sealed under it. -/
def Authentic (received : List Bytes) : Prop :=
  ∀ block ∈ received, ∀ n plain, P.decrypt key n [] block = some plain →
    (n, block) ∈ nonces P key frames

end

theorem length_sealFrom (frames : List Frame) (n : ℕ) :
    (sealFrom P key n frames).length = frames.length := by
  induction frames generalizing n with
  | nil => rfl
  | cons frame frames ih => rw [sealFrom, length_cons, ih, length_cons]

theorem getElem?_sealFrom (frames : List Frame) (n i : ℕ) :
    (sealFrom P key n frames)[i]? = frames[i]?.map (sealed P key (n + i)) := by
  induction frames generalizing n i with
  | nil => rfl
  | cons frame frames ih =>
    cases i with
    | zero => rfl
    | succ i =>
      rw [sealFrom, getElem?_cons_succ, ih, getElem?_cons_succ]
      congr 2
      omega

/-- With fewer than `2 ^ 64` frames no nonce is used twice. -/
theorem Authentic.block_eq (h : Authentic P key frames received) (hcount : frames.length < 2 ^ 64)
    (hmem : block ∈ received) {i : ℕ} (hi : i ≤ frames.length)
    (hd : P.decrypt key (UInt64.ofNat i) [] block = some plain) :
    (sealFrom P key 0 frames)[i]? = some block := by
  obtain ⟨⟨b, j⟩, hb, hj⟩ := mem_map.mp (h block hmem _ plain hd)
  obtain ⟨hnonce, rfl⟩ := Prod.mk.inj hj
  have hget := mem_zipIdx_iff_getElem?.mp hb
  have hjlen : j < frames.length := by
    obtain ⟨hlt, -⟩ := List.getElem?_eq_some_iff.mp hget
    rwa [length_sealFrom] at hlt
  have hij : j = i := by
    have := congrArg UInt64.toNat hnonce
    rw [UInt64.toNat_ofNat', UInt64.toNat_ofNat', Nat.mod_eq_of_lt (by omega),
      Nat.mod_eq_of_lt (by omega)] at this
    exact this
  rwa [← hij]

theorem Opening.process_refused (h : Opening key ss n) (hlen : block.length < 2 ^ 32)
    (hd : P.decrypt key (UInt64.ofNat n) [] block = none) (frames : List Frame) (rest : Bytes) :
    process (decrypt P) ss frames (encodeBlock block ++ rest) = ⟨ss, [], frames, false⟩ := by
  by_cases hsize : block.length ≤ kMaxBlockSize
  · exact process_failed (tryTakeBlock_encodeBlock hsize rest) (h.decrypt_none hd) rfl
  · exact process_error (tryTakeBlock_encodeBlock_error (not_le.mp hsize) hlen rest)

/-- **Blocks that arrive.** The frames before the first difference are handed on, and the connection
stays up exactly if there is none. -/
theorem Opening.process_received (h : Opening key ss n) (hopens : Opens P key)
    (hframes : ∀ frame ∈ frames, Sendable frame) (hlen : ∀ block ∈ received, block.length < 2 ^ 32)
    (hauth : ∀ block ∈ received, ∀ i ≤ frames.length, ∀ plain,
      P.decrypt key (UInt64.ofNat (n + i)) [] block = some plain →
        (sealFrom P key n frames)[i]? = some block) (before : List Frame) :
    let ch := process (decrypt P) ss before (stream received)
    ch.frames = before ++ frames.take (agree (sealFrom P key n frames) received) ∧
      (ch.up = true ↔ received <+: sealFrom P key n frames) := by
  induction received generalizing ss n frames before with
  | nil =>
    have hnil : process (decrypt P) ss before (stream []) =
        ⟨ss, [], before, true⟩ := process_incomplete (show _ = Block.incomplete 0 from rfl)
    rw [hnil, agree_nil, take_zero, append_nil]
    exact ⟨rfl, fun _ => nil_prefix, fun _ => rfl⟩
  | cons block received ih =>
    rw [forall_mem_cons] at hlen hauth
    intro ch
    by_cases hhead : (sealFrom P key n frames).head? = some block
    · -- the block that was sent: its frame is handed on
      cases frames with
      | nil => cases hhead
      | cons frame frames =>
        rw [forall_mem_cons] at hframes
        obtain rfl : sealed P key n frame = block := Option.some_inj.mp hhead
        obtain ⟨next, hch, hnext⟩ := h.process_sealed hopens hframes.1 before (stream received)
        obtain ⟨hfr, hup⟩ := ih hnext hframes.2 hlen.2 (fun b hb i hi plain hd => by
          refine hauth.2 b hb (i + 1) (Nat.succ_le_succ hi) plain ?_
          rwa [show n + (i + 1) = n + 1 + i by omega]) (before ++ [frame])
        rw [show ch = _ from hch, sealFrom, agree, if_pos rfl, take_succ_cons, prefix_cons_inj]
        exact ⟨hfr.trans (append_assoc ..), hup⟩
    have hnone : P.decrypt key (UInt64.ofNat n) [] block = none := by
      by_contra hsome
      obtain ⟨plain, hd⟩ := Option.ne_none_iff_exists'.mp hsome
      refine hhead ?_
      rw [head?_eq_getElem?]
      exact hauth.1 0 (Nat.zero_le _) plain hd
    rw [show ch = _ from h.process_refused hlen.1 hnone before _, agree_of_head?_ne hhead,
      take_zero, append_nil]
    exact ⟨rfl, nofun, fun hpre => absurd hpre (not_prefix_of_head?_ne hhead)⟩

/-! ## Both ends -/

section

variable {H I : Type} (r : Reactor (List Frame) H (NoiseSession UInt8) I)

/-- The connection on a socket is established. -/
def IsUp (sock : Socket) : Prop :=
  ∃ c, r.conns.lookup sock = some c ∧ c.state = .established

/-- The connection on a socket failed with a protocol error. -/
def HasFailed (sock : Socket) : Prop :=
  ∃ c, r.conns.lookup sock = some c ∧ c.state = .closing ∧ c.closeReason = .protocolError

/-- Both ends of a connection once the handshake agreed on a key for this direction; the sender has
queued its handshake messages. -/
structure Ends (P : Primitives UInt8) (key : Bytes) (c : Outbound (NoiseSession UInt8))
    (w : Setup (List Frame) H (NoiseSession UInt8) I)
    (r : Reactor (List Frame) H (NoiseSession UInt8) I) (sock : Socket) : Prop where
  sender : c.state = .established
  seals : Sealing key c.session 0
  receiver : ∃ conn ss, r.conns.lookup sock = some conn ∧ conn.state = .established ∧
    conn.session = some ss ∧ Opening key ss 0
  noFrames : r.delegate = []
  decrypts : w.security.decrypt = decrypt P
  observes : Reactor.Observes w

variable {c : Outbound (NoiseSession UInt8)} {w : Setup (List Frame) H (NoiseSession UInt8) I}
  {r : Reactor (List Frame) H (NoiseSession UInt8) I} {sock : Socket} {A : Allocator}

theorem Ends.arrived (h : Ends P key c w r sock) (rest : Bytes) (events : List (List Bytes)) :
    ∃ ss, Opening key ss 0 ∧ let ch := process (decrypt P) ss [] (rest ++ events.flatten.flatten)
      let r' := r.receive w sock rest events
      r'.1.delegate = ch.frames ∧ r'.2 = ch.up ∧ (ch.up = true → IsUp r'.1 sock) ∧
        (ch.up = false → HasFailed r'.1 sock) := by
  obtain ⟨conn, ss, hconn, hstate, hsession, hopening⟩ := h.receiver
  obtain ⟨hok, hshows⟩ := Reactor.receive_shows h.observes hconn hstate hsession h.noFrames rest
    events
  rw [h.decrypts] at hok hshows
  obtain ⟨conn', hconn', -, hup, hdown⟩ := hshows.conn
  exact ⟨ss, hopening, hshows.frames, hok, fun h => ⟨conn', hconn', (hup h).1⟩,
    fun h => ⟨conn', hconn', hdown h⟩⟩

/-- The wire and the queue behind it carry the blocks of the sent frames. -/
theorem Ends.stream_eq (h : Ends P key c w r sock) (A : Allocator) (calls : List Outbound.Call) :
    let c' := c.run A (NoiseSessionAdapter.encrypt P) calls
    c'.wire ++ c'.tx.contents = c.wire ++ c.tx.contents ++
      Outbound.stream (sealFrom P key 0 (c.sent A (NoiseSessionAdapter.encrypt P) calls)) := by
  obtain ⟨ss', hciphers⟩ :=
    h.seals.ciphers (c.sent A (NoiseSessionAdapter.encrypt P) calls)
  exact Outbound.run_stream hciphers

/-- **The secure channel.** However the bytes arrive, the frames handed on are the first of those
sent, and all of them once all has arrived. If other blocks arrive and the AEAD is authentic, the
connection fails at the first difference, after the frames before it. -/
theorem channel_fifo (hopens : Opens P key) (h : Ends P key c w r sock) {calls : List Outbound.Call}
    (hframes : ∀ frame ∈ c.sent A (encrypt P) calls, Sendable frame)
    (hcount : (c.sent A (encrypt P) calls).length < 2 ^ 64) :
    let frames := c.sent A (encrypt P) calls
    let blocks := sealFrom P key 0 frames
    let c' := c.run A (encrypt P) calls
    (∀ (rest : Bytes) (events : List (List Bytes)),
      c.wire ++ c.tx.contents ++ (rest ++ events.flatten.flatten) <+: c'.wire →
      let r' := r.receive w sock rest events
      r'.2 = true ∧ IsUp r'.1 sock ∧ r'.1.delegate <+: frames ∧
        (c.wire ++ c.tx.contents ++ (rest ++ events.flatten.flatten) = c'.wire →
          c'.tx.empty = true → r'.1.delegate = frames)) ∧
    ∀ (received : List Bytes), (∀ block ∈ received, block.length < 2 ^ 32) →
      Authentic P key frames received → ∀ (rest : Bytes) (events : List (List Bytes)),
        rest ++ events.flatten.flatten = stream received → let r' := r.receive w sock rest events
        r'.1.delegate = frames.take (agree blocks received) ∧
          (received <+: blocks → r'.2 = true ∧ IsUp r'.1 sock) ∧
          (¬ received <+: blocks → r'.2 = false ∧ HasFailed r'.1 sock) := by
  intro frames blocks c'
  have hstream : c'.wire ++ c'.tx.contents = c.wire ++ c.tx.contents ++ stream blocks :=
    h.stream_eq A calls
  constructor
  · intro rest events harrived r'
    -- what has not arrived yet is on the wire or in the queue
    obtain ⟨missing, hmissing⟩ : rest ++ events.flatten.flatten <+: stream blocks := by
      have := harrived.trans (prefix_append c'.wire c'.tx.contents)
      rw [hstream] at this
      exact (prefix_append_right_inj _).mp this
    obtain ⟨ss, hopening, hfr, hok, hup, -⟩ := h.arrived rest events
    obtain ⟨hchup, hpre, hcomplete⟩ := hopening.process_arrived hopens hframes hmissing
    refine ⟨hok.trans hchup, hup hchup, ?_, fun heq hempty => hfr.trans (hcomplete ?_)⟩
    · rwa [show r'.1.delegate = _ from hfr]
    · have hqueue := (ChainedSendBuffer.empty_iff _).mp hempty
      rw [hqueue, append_nil, ← heq, ← hmissing] at hstream
      simpa using append_cancel_left hstream
  intro received hlen hauth rest events harrived r'
  obtain ⟨ss, hopening, hfr, hok, hup, hdown⟩ := h.arrived rest events
  rw [harrived] at hfr hok hup hdown
  obtain ⟨hframes', hiff⟩ := hopening.process_received hopens hframes hlen
    (fun b hb i hi plain hd => hauth.block_eq hcount hb hi (by rwa [Nat.zero_add] at hd)) []
  refine ⟨hfr.trans hframes', fun hpre => ?_, fun hpre => ?_⟩
  · have hchup := hiff.mpr hpre
    exact ⟨hok.trans hchup, hup hchup⟩
  · have hchdown := Bool.eq_false_iff.mpr (mt hiff.mp hpre)
    exact ⟨hok.trans hchdown, hdown hchdown⟩

end

/-! ## A channel -/

theorem length_zeros (_ _ : Bytes) : (replicate dhSize (0 : UInt8)).length = dhSize :=
  length_replicate

/-- An AEAD that appends the nonce. -/
def taggedPrimitives : Primitives UInt8 where
  zero := 0
  protocolName := []
  basepoint := List.replicate dhSize 9
  clamp := id
  curve25519 _ _ := List.replicate dhSize 0
  sha256 := id
  hkdf2 ck ikm := (ck, ikm)
  encrypt _ n _ plain := plain ++ encode tagSize n.toNat
  decrypt _ n _ cipher :=
    if tagSize ≤ cipher.length ∧ cipher.drop (cipher.length - tagSize) =
      encode tagSize n.toNat then some (cipher.take (cipher.length - tagSize)) else none
  length_curve25519 := length_zeros
  length_encrypt _ _ _ plain := by rw [length_append, length_encode]
  length_of_decrypt {_ _ _ cipher plain} h := by
    split_ifs at h with hc
    cases h
    simp [hc.1]

theorem tagged_decrypt (n m : UInt64) (plain : Bytes) :
    taggedPrimitives.decrypt [] m [] (taggedPrimitives.encrypt [] n [] plain) =
      if n = m then some plain else none := by
  have hlen : (plain ++ encode tagSize n.toNat).length - tagSize = plain.length := by
    rw [length_append, length_encode, Nat.add_sub_cancel]
  have htag : encode tagSize n.toNat = encode tagSize m.toNat ↔ n = m := by
    constructor
    · intro h
      have := congrArg decode h
      rw [decode_encode (n.toNat_lt.trans (by decide)),
        decode_encode (m.toNat_lt.trans (by decide))] at this
      exact UInt64.toNat_inj.mp this
    · rintro rfl
      rfl
  simp only [taggedPrimitives, hlen, drop_left, htag]
  simp

theorem tagged_opens : Opens taggedPrimitives [] := by
  intro n plain
  rw [tagged_decrypt, if_pos rfl]

/-- Blocks that were sealed are authentic, in whatever order they arrive. -/
theorem tagged_authentic (frames : List Frame)
    (h : ∀ block ∈ received, block ∈ sealFrom taggedPrimitives [] 0 frames) :
    Authentic taggedPrimitives [] frames received := by
  intro block hblock n plain hd
  obtain ⟨i, hi⟩ := mem_iff_getElem?.mp (h block hblock)
  have hsealed := hi
  rw [getElem?_sealFrom, Nat.zero_add] at hsealed
  obtain ⟨frame, -, rfl⟩ := Option.map_eq_some_iff.mp hsealed
  rw [sealed, tagged_decrypt] at hd
  split_ifs at hd with hn
  exact mem_map.mpr ⟨(_, i), mem_zipIdx_iff_getElem?.mpr hi, Prod.ext hn rfl⟩

/-- A session after a handshake that agreed on the empty key. -/
def readySession : NoiseSession UInt8 :=
  { NoiseSession.start taggedPrimitives true none [] [] [] with
    sendCipher := .initializeKey []
    recvCipher := .initializeKey []
    transportReady := true }

/-- A receiving node that notes the frames it gets. -/
def observer : Setup (List Frame) Unit (NoiseSession UInt8) Unit where
  index := 0
  security :=
    { create := fun _ _ => ()
      start := fun hk => (some [], hk)
      consume := fun hk _ => ((.needMore, []), hk)
      encrypt := encrypt taggedPrimitives
      decrypt := decrypt taggedPrimitives }
  delegate :=
    { admitInbound := fun _ => true
      onEstablished := fun frames _ => (frames, [])
      onFrame := fun frames _ frame => (frames ++ [frame], [])
      onClosed := fun frames _ _ => (frames, []) }
  kernel := fun _ => .queued

/-- Its connection, on the socket 3. -/
def listener : Reactor (List Frame) Unit (NoiseSession UInt8) Unit :=
  { (Reactor.new [] : Reactor (List Frame) Unit (NoiseSession UInt8) Unit) with
    conns := AList.singleton 3
      ⟨1, .inbound, .established, .localClose, none, some readySession, (), [], none, [], 0⟩ }

theorem readySession_ends : Ends taggedPrimitives [] (new readySession) observer listener 3 where
  sender := rfl
  seals := ⟨rfl, rfl⟩
  receiver := ⟨_, readySession, rfl, rfl, rfl, rfl, rfl⟩
  noFrames := rfl
  decrypts := rfl
  observes _ _ _ := rfl

/-- **The reads do not matter**, whatever the bytes: the frames handed on and whether the connection
stays up depend on the stream only. -/
theorem receive_stream [Zero I] {S : Type} {w : Setup (List Frame) H S I}
    {r : Reactor (List Frame) H S I} {c : Connection H S I} {s : S} (hw : Reactor.Observes w)
    (hc : r.conns.lookup sock = some c) (hstate : c.state = .established) (hs : c.session = some s)
    {rest rest' : Bytes} {events events' : List (List Bytes)}
    (h : rest ++ events.flatten.flatten = rest' ++ events'.flatten.flatten) :
    (Reactor.receive w r sock rest events).2 = (Reactor.receive w r sock rest' events').2 ∧
      (Reactor.receive w r sock rest events).1.delegate =
        (Reactor.receive w r sock rest' events').1.delegate := by
  obtain ⟨hup, hshows⟩ := Reactor.receive_shows hw hc hstate hs rfl rest events
  obtain ⟨hup', hshows'⟩ := Reactor.receive_shows hw hc hstate hs rfl rest' events'
  rw [← h] at hup' hshows'
  exact ⟨hup.trans hup'.symm, hshows.frames.trans hshows'.frames.symm⟩

/-- Two frames. -/
def hello : Frame := ⟨⟨.app, 0, 7⟩, [104, 105]⟩

def goodbye : Frame := ⟨⟨.storage, 1, 0⟩, []⟩

/-- The socket takes a few bytes at first and the rest later. -/
def twoSends : List Outbound.Call :=
  [.send hello [.took 3, .wouldBlock], .send goodbye [], .writable [.took 10, .took 100]]

theorem twoSends_sent : (new readySession).sent .exact
    (encrypt taggedPrimitives) twoSends = [hello, goodbye] := by
  decide +kernel

theorem twoSends_sendable : ∀ frame ∈ (new readySession).sent .exact
    (encrypt taggedPrimitives) twoSends, Sendable frame := by
  rw [twoSends_sent, forall_mem_cons, forall_mem_singleton]
  exact ⟨⟨⟨rfl, by decide⟩, by decide⟩, ⟨rfl, by decide⟩, by decide⟩

/-- The blocks of the two frames. -/
def twoBlocks : List Bytes := sealFrom taggedPrimitives [] 0 [hello, goodbye]

/-- The last block is dropped, and the connection stays up. -/
theorem dropped_tail_unnoticed :
    let frames := (new readySession).sent .exact (encrypt taggedPrimitives) twoSends
    let received := twoBlocks.take 1
    let r' := listener.receive observer 3 (stream received) []
    Opens taggedPrimitives [] ∧ Ends taggedPrimitives [] (new readySession) observer listener 3 ∧
      (∀ frame ∈ frames, Sendable frame) ∧ Authentic taggedPrimitives [] frames received ∧
      received ≠ sealFrom taggedPrimitives [] 0 frames ∧ r'.2 = true ∧ ¬ HasFailed r'.1 3 := by
  obtain ⟨ss, hopening, -, hok, hup, -⟩ :=
    readySession_ends.arrived (stream (twoBlocks.take 1)) []
  have hhello : ∀ frame ∈ [hello], Sendable frame := fun frame hframe =>
    twoSends_sendable frame (by rw [twoSends_sent]; exact mem_of_mem_take (i := 1) hframe)
  obtain ⟨last, hall⟩ := hopening.process_stream tagged_opens hhello []
  rw [flatten_nil, flatten_nil, append_nil,
    show process _ ss [] (stream (twoBlocks.take 1)) = _ from hall] at hok hup
  refine ⟨tagged_opens, readySession_ends, twoSends_sendable,
    tagged_authentic _ fun block hblock => ?_, by rw [twoSends_sent]; decide, hok, ?_⟩
  · rw [twoSends_sent]
    exact mem_of_mem_take hblock
  · rintro ⟨conn, hconn, hclosing, -⟩
    obtain ⟨conn', hconn', hestablished⟩ := hup rfl
    cases hconn.symm.trans hconn'
    exact nomatch hestablished.symm.trans hclosing

/-- What the socket took of the two frames. -/
def twoWire : Bytes :=
  ((new readySession).run .exact (encrypt taggedPrimitives) twoSends).wire

/-- Both frames arrive, in one read or byte by byte after a rest of five. -/
theorem receive_stream_twoWire : let whole := listener.receive observer 3 [] [[twoWire]]
    let cut := listener.receive observer 3 (twoWire.take 5) ((twoWire.drop 5).map ([[·]]))
    whole.2 = cut.2 ∧ whole.1.delegate = cut.1.delegate ∧ whole.2 = true ∧
      whole.1.delegate = [hello, goodbye] := by
  intro whole cut
  have hstream : [] ++ [[twoWire]].flatten.flatten =
      twoWire.take 5 ++ ((twoWire.drop 5).map ([[·]])).flatten.flatten := by decide +kernel
  have hsame : whole.2 = cut.2 ∧ whole.1.delegate = cut.1.delegate :=
    receive_stream (fun _ _ _ => rfl) rfl rfl rfl hstream
  exact ⟨hsame.1, hsame.2, by decide +kernel, by decide +kernel⟩

/-- Both frames arrive over two reads; in the other order the blocks end the connection. -/
theorem channel_fifo_twoSends :
    (listener.receive observer 3 [] [[twoWire.take 5], [twoWire.drop 5]]).1.delegate =
        [hello, goodbye] ∧
      HasFailed (listener.receive observer 3 (stream twoBlocks.reverse) []).1 3 := by
  obtain ⟨hfifo, haltered⟩ := channel_fifo tagged_opens readySession_ends twoSends_sendable
    (by rw [twoSends_sent]; decide)
  have hwire : [] ++ [] ++ ([] ++ [[twoWire.take 5], [twoWire.drop 5]].flatten.flatten) =
      twoWire := by simp
  constructor
  · exact (hfifo [] [[twoWire.take 5], [twoWire.drop 5]] ⟨[], by rw [append_nil]; exact hwire⟩
      ).2.2.2 hwire (by decide +kernel)
  · refine ((haltered twoBlocks.reverse (by decide) (tagged_authentic _ fun block hblock => ?_)
      (stream twoBlocks.reverse) [] (append_nil _)).2.2 (by decide)).2
    exact mem_reverse.mp hblock

end SecureChannel

end Librats
