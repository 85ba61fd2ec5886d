import Librats.Core.SendBuffer
import Librats.Wire.Frame

/-!
# The sending half of a connection

`Connection::send`, `queue_block` and `flush` (`transport/connection.cpp`) over the send queue. The
session is any state with its `encrypt`; what `send_vectored` returns is an input. The bytes that
the socket took are kept as `wire`, the calls of `Reactor::close` as `closes`.
-/

namespace Librats

open Framer BigEndian List ChainedSendBuffer

/-- What `send_vectored` returns. It takes no more than it is given. -/
inductive WriteOutcome
  | took (n : ℕ)
  | wouldBlock
  | error
  deriving DecidableEq

def kMaxSendSlices : ℕ := 256

def kInlineBlockLimit : ℕ := kScratchCapacity

/-- `Connection::kDefaultSendHighWater`, 8 MiB. -/
def kDefaultSendHighWater : ℕ := 8 * 1024 * 1024

/-- The fields of `Connection` that sending uses. -/
structure Outbound (S : Type) where
  state : ConnState
  closeReason : CloseReason
  session : S
  tx : ChainedSendBuffer
  sendHighWater : ℕ
  wire : Bytes
  closes : List CloseReason

namespace Outbound

variable {S : Type}

/-- A connection that was just established. -/
def new (session : S) : Outbound S :=
  ⟨.established, .localClose, session, .new, kDefaultSendHighWater, [], []⟩

/-- `Reactor::close` of the connection. -/
def close (c : Outbound S) (reason : CloseReason) : Outbound S :=
  { c with closes := c.closes ++ [reason] }

/-- `Connection::fail`. -/
def fail (c : Outbound S) (reason : CloseReason) : Outbound S :=
  { c with closeReason := reason, state := .closing }

/-- The send queue once a block is queued: the length prefix as a slice of its own, then the body,
which is copied if it is small. -/
def queued (A : Allocator) (tx : ChainedSendBuffer) (body : ByteVector) : ChainedSendBuffer :=
  let tx := tx.append A (encode kLengthPrefixSize body.bytes.length)
  if body.bytes.length ≤ kInlineBlockLimit then tx.append A body.bytes else tx.appendOwned body

/-- `Connection::queue_block`. -/
def queueBlock (A : Allocator) (c : Outbound S) (body : ByteVector) : Outbound S :=
  { c with tx := queued A c.tx body }

/-- `Connection::flush`; false asks for teardown. The outcomes end where the socket takes nothing
more. -/
def flush (c : Outbound S) : List WriteOutcome → Outbound S × Bool
  | [] => (c, true)
  | .took n :: outcomes =>
    if c.tx.empty then (c, true)
    else
      let taken := (c.tx.gather kMaxSendSlices).flatten.take n
      if taken = [] then (c, true)
      else flush { c with tx := c.tx.popFront taken.length, wire := c.wire ++ taken } outcomes
  | .wouldBlock :: _ => (c, true)
  | .error :: _ => if c.tx.empty then (c, true) else (c.fail .peerReset, false)

variable (A : Allocator) (encrypt : S → Bytes → Option Bytes × S) (c : Outbound S)
  {tx : ChainedSendBuffer}

/-- `Connection::send`. -/
def send (header : FrameHeader) (payload : Bytes) (outcomes : List WriteOutcome) : Outbound S :=
  if c.state ≠ .established then c
  else
    match encrypt c.session (encodeMessage header payload) with
    | (none, session) => { c with session := session }.close .protocolError
    | (some cipher, session) =>
      let c := { c with session := session }.queueBlock A (.of A cipher)
      if c.sendHighWater < c.tx.allocated then (c.fail .slowConsumer).close .slowConsumer
      else
        match c.flush outcomes with
        | (c, true) => c
        | (c, false) => c.close c.closeReason

/-! ## What is queued -/

theorem contents_queued (tx : ChainedSendBuffer) (body : ByteVector) :
    (queued A tx body).contents = tx.contents ++ encodeBlock body.bytes := by
  unfold queued encodeBlock
  split_ifs
  · rw [contents_append, contents_append, append_assoc]
  · rw [contents_appendOwned, contents_append, append_assoc]

/-- The capacity of the chunk for a length prefix when nothing is queued. -/
def headCapacity (recycled : ℕ) : ℕ :=
  if kLengthPrefixSize ≤ recycled then recycled
  else A.capacity kScratchCapacity

/-- The memory of an empty queue once a block with a body of `n` bytes is queued: the chunk of the
prefix, the recycled chunk if another one, and a buffer for the body unless it is small and fits
behind the prefix. -/
def blockMemory (recycled n : ℕ) : ℕ :=
  let held := headCapacity A recycled + if kLengthPrefixSize ≤ recycled then 0 else recycled
  if n ≤ kInlineBlockLimit ∧ n ≤ headCapacity A recycled - kLengthPrefixSize then held
  else held + A.capacity (max n kScratchCapacity)

theorem append_head (h : tx.empty = true) {head : Bytes} (hlen : head.length = kLengthPrefixSize) :
    ∃ c : Chunk, (tx.append A head).chunks = [c] ∧ c.data.bytes = head ∧
      c.data.capacity = headCapacity A tx.recycled ∧
      (tx.append A head).recycled = (if kLengthPrefixSize ≤ tx.recycled then 0 else tx.recycled) ∧
      (tx.append A head).allocated = headCapacity A tx.recycled +
        if kLengthPrefixSize ≤ tx.recycled then 0 else tx.recycled := by
  have hchunks := chunks_eq_nil h
  have hne : head ≠ [] := ne_nil_of_length_pos (by rw [hlen]; decide)
  have hnone : tx.allocatedChunks = 0 := by rw [tx.allocated_eq, hchunks]; rfl
  rw [append_of_not_packed A hne (by rw [hchunks]; rfl)]
  rw [appendOwned, dif_neg (by rw [bytes_takeChunk]; exact hne)]
  have hmax : max kLengthPrefixSize kScratchCapacity = kScratchCapacity := by decide
  by_cases hr : kLengthPrefixSize ≤ tx.recycled
  · simp [takeChunk, headCapacity, allocated, hlen, hr, hchunks, hnone]
  · simp [takeChunk, headCapacity, allocated, hlen, hr, hchunks, hnone, hmax]

theorem allocated_queued (h : tx.empty = true) {cipher : Bytes}
    (hcipher : kLengthPrefixSize ≤ cipher.length) :
    (queued A tx (.of A cipher)).allocated = blockMemory A tx.recycled cipher.length := by
  obtain ⟨c, hchunks, hbytes, hcap, hrecycled, hheld⟩ :=
    append_head A h (length_encode kLengthPrefixSize cipher.length)
  have hne : cipher ≠ [] := ne_nil_of_length_pos (lt_of_lt_of_le (by decide) hcipher)
  have hsize : c.data.bytes.length = kLengthPrefixSize := by rw [hbytes, length_encode]
  have hof : (ByteVector.of A cipher).bytes = cipher := rfl
  simp only [queued, blockMemory, hof]
  by_cases hsmall : cipher.length ≤ kInlineBlockLimit
  · rw [if_pos hsmall]
    by_cases hfits : cipher.length ≤ headCapacity A tx.recycled - kLengthPrefixSize
    · -- the body is packed behind the length prefix
      rw [if_pos ⟨hsmall, hfits⟩, ← hheld]
      rw [← hcap, ← hsize] at hfits
      have hpack : packTail cipher (tx.append A
          (encode kLengthPrefixSize cipher.length)).chunks = some [c.pack cipher hfits] := by
        simp [hchunks, packTail, hfits]
      exact (allocated_append_of_packed A hpack).1
    rw [if_neg fun hand => hfits hand.2, ← hheld]
    rw [allocated_append_of_not_packed A hne, hrecycled, if_neg]
    · split_ifs
      · omega
      · omega
    · simp [hchunks, packTail, hcap, hsize, hfits]
  · rw [if_neg hsmall, if_neg fun hand => hsmall hand.1, ← hheld,
      allocated_appendOwned _ hne]
    have hmax : max cipher.length kScratchCapacity = cipher.length :=
      max_eq_left (not_le.mp hsmall).le
    rw [hmax]
    rfl

/-- A flush moves bytes from the queue to the wire, and fails only if a write does. -/
structure Flushed (c : Outbound S) (outcomes : List WriteOutcome) (r : Outbound S × Bool) :
    Prop where
  bytes : r.1.wire ++ r.1.tx.contents = c.wire ++ c.tx.contents
  session : r.1.session = c.session
  sendHighWater : r.1.sendHighWater = c.sendHighWater
  closes : r.1.closes = c.closes
  ok : .error ∉ outcomes → r.2 = true ∧ r.1.state = c.state

theorem Flushed.refl (outcomes : List WriteOutcome) : c.Flushed outcomes (c, true) :=
  ⟨rfl, rfl, rfl, rfl, fun _ => ⟨rfl, rfl⟩⟩

theorem flush_spec (outcomes : List WriteOutcome) : c.Flushed outcomes (c.flush outcomes) := by
  induction outcomes generalizing c with
  | nil => exact .refl c []
  | cons outcome outcomes ih =>
    cases outcome with
    | took n =>
      simp only [flush]
      split_ifs with hempty htaken
      · exact .refl c _
      · exact .refl c _
      have h := ih { c with
          tx := c.tx.popFront ((c.tx.gather kMaxSendSlices).flatten.take n).length
          wire := c.wire ++ (c.tx.gather kMaxSendSlices).flatten.take n }
      refine ⟨h.bytes.trans ?_, h.session, h.sendHighWater, h.closes, fun herr => ?_⟩
      · -- what the socket takes is the front of the queue
        obtain ⟨rest, hrest⟩ :=
          ( take_prefix n _).trans (c.tx.flatten_gather kMaxSendSlices)
        rw [contents_popFront, append_assoc, ← hrest, drop_left]
      · exact h.ok fun hmem => herr (.tail _ hmem)
    | wouldBlock => exact .refl c _
    | error =>
      simp only [flush]
      split_ifs with hempty
      · exact .refl c _
      · exact ⟨rfl, rfl, rfl, rfl, fun herr => absurd (.head _) herr⟩

/-! ## Runs -/

/-- A frame is sent, or the socket polls writable; with the writes made. -/
inductive Call
  | send (frame : Frame) (outcomes : List WriteOutcome)
  | writable (outcomes : List WriteOutcome)

/-- A call on the connection. -/
def call : Call → Outbound S
  | .send frame outcomes => c.send A encrypt frame.header frame.payload outcomes
  | .writable outcomes => (c.flush outcomes).1

/-- A run of calls. -/
def run (calls : List Call) : Outbound S := calls.foldl (call A encrypt) c

/-- The frames a run sends while the connection is established. -/
def sent : Outbound S → List Call → List Frame
  | _, [] => []
  | c, .send frame outcomes :: calls =>
    if c.state = .established then frame :: sent (c.call A encrypt (.send frame outcomes)) calls
    else sent (c.call A encrypt (.send frame outcomes)) calls
  | c, .writable outcomes :: calls => sent (c.call A encrypt (.writable outcomes)) calls

/-- The bodies of the blocks of some frames, and the session after them. -/
def ciphers (session : S) : List Frame → Option (List Bytes × S)
  | [] => some ([], session)
  | frame :: frames =>
    match encrypt session (encodeMessage frame.header frame.payload) with
    | (none, _) => none
    | (some cipher, session) =>
      (ciphers session frames).map fun r => (cipher :: r.1, r.2)

/-- The stream that some blocks make. -/
def stream (blocks : List Bytes) : Bytes := blocks.flatMap encodeBlock

variable {A encrypt}

section

variable {c : Outbound S} (hstate : c.state = .established) {header : FrameHeader} {payload : Bytes}
  {cipher : Bytes} {session : S}
  (hcipher : encrypt c.session (encodeMessage header payload) = (some cipher, session))

include hstate hcipher

theorem send_eq (outcomes : List WriteOutcome) : c.send A encrypt header payload outcomes =
      let q := { c with session := session, tx := queued A c.tx (.of A cipher) }
      if c.sendHighWater < q.tx.allocated then (q.fail .slowConsumer).close .slowConsumer
      else if (q.flush outcomes).2 then (q.flush outcomes).1
      else (q.flush outcomes).1.close (q.flush outcomes).1.closeReason := by
  rw [send, if_neg (not_not.mpr hstate), hcipher]
  simp only [queueBlock]
  by_cases hover : c.sendHighWater < (queued A c.tx (.of A cipher)).allocated
  · simp [hover]
  · simp only [hover, if_false]
    split <;> rename_i h <;> simp [h]

theorem send_queues (outcomes : List WriteOutcome) :
    let c' := c.send A encrypt header payload outcomes
    c'.wire ++ c'.tx.contents = c.wire ++ c.tx.contents ++ encodeBlock cipher ∧
      c'.session = session := by
  have hflush := flush_spec { c with session := session, tx := queued A c.tx (.of A cipher) } outcomes
  have hqueued : c.wire ++ (queued A c.tx (.of A cipher)).contents =
      c.wire ++ c.tx.contents ++ encodeBlock cipher := by
    rw [contents_queued, ← append_assoc]
    rfl
  rw [send_eq hstate hcipher]
  intro c'
  simp only [c']
  split_ifs
  · exact ⟨hqueued, rfl⟩
  · exact ⟨hflush.bytes.trans hqueued, hflush.session⟩
  · exact ⟨hflush.bytes.trans hqueued, hflush.session⟩

end

/-- A session that encrypts every message with a fixed number of extra bytes. -/
def Seals (encrypt : S → Bytes → Option Bytes × S) (session : S) (overhead : ℕ) : Prop :=
  ∀ plain, ∃ cipher session', encrypt session plain = (some cipher, session') ∧
    cipher.length = plain.length + overhead

/-- A connection that is not closed by a call. -/
def KeptOpen (c c' : Outbound S) : Prop := c'.state = .established ∧ c'.closes = c.closes

variable {c : Outbound S}

/-- **When a send closes the connection.** On an established connection with an empty queue, a frame
whose writes do not fail keeps it open exactly if the memory of its block is not above the
high-water mark. -/
theorem keptOpen_send_iff (hstate : c.state = .established) (hempty : c.tx.empty = true)
    {overhead : ℕ} (hseals : Seals encrypt c.session overhead) {outcomes : List WriteOutcome}
    (herr : .error ∉ outcomes) (header : FrameHeader) (payload : Bytes) :
    c.KeptOpen (c.send A encrypt header payload outcomes) ↔
      blockMemory A c.tx.recycled (kHeaderSize + payload.length + overhead) ≤ c.sendHighWater := by
  obtain ⟨cipher, session, hcipher, hlen⟩ := hseals (encodeMessage header payload)
  have hlen : cipher.length = kHeaderSize + payload.length + overhead := by
    rw [hlen, length_encodeMessage]
  have hqueued : (queued A c.tx (.of A cipher)).allocated =
      blockMemory A c.tx.recycled (kHeaderSize + payload.length + overhead) := by
    rw [allocated_queued A hempty, hlen]
    rw [hlen, Nat.add_assoc]
    exact Nat.le_add_right ..
  have hflush := flush_spec { c with session := session, tx := queued A c.tx (.of A cipher) } outcomes
  rw [send_eq hstate hcipher, ← hqueued]
  dsimp only
  split_ifs with hover hok
  · exact iff_of_false (fun h => nomatch h.1) (not_le.mpr hover)
  · exact iff_of_true ⟨(hflush.ok herr).2.trans hstate, hflush.closes⟩ (not_lt.mp hover)
  · exact absurd (hflush.ok herr).1 hok

/-- **The stream of a run.** The blocks of the sent frames follow each other on the wire and in the
queue behind it. -/
theorem run_stream {calls : List Call} {blocks : List Bytes} {session : S}
    (hciphers : ciphers encrypt c.session (c.sent A encrypt calls) = some (blocks, session)) :
    let c' := c.run A encrypt calls
    c'.wire ++ c'.tx.contents = c.wire ++ c.tx.contents ++ stream blocks := by
  induction calls generalizing c blocks with
  | nil =>
    obtain ⟨rfl, rfl⟩ := Prod.mk.inj (Option.some_inj.mp hciphers)
    exact (append_nil _).symm
  | cons k calls ih =>
    cases k with
    | send frame outcomes =>
      rw [sent] at hciphers
      split_ifs at hciphers with hstate
      · rw [ciphers] at hciphers
        split at hciphers
        · cases hciphers
        · rename_i cipher next hcipher
          obtain ⟨⟨rest, last⟩, hrest, hr⟩ := Option.map_eq_some_iff.mp hciphers
          obtain ⟨rfl, rfl⟩ := Prod.mk.inj hr
          obtain ⟨hbytes, hsession⟩ := send_queues hstate hcipher outcomes
          rw [← hsession] at hrest
          exact (ih hrest).trans ((congrArg (· ++ stream rest) hbytes).trans (append_assoc ..))
      · have hcall : c.call A encrypt (.send frame outcomes) = c := if_pos hstate
        rw [hcall] at hciphers
        rw [run, foldl_cons, hcall]
        exact ih hciphers
    | writable outcomes =>
      have hflush := c.flush_spec outcomes
      rw [← hflush.session] at hciphers
      exact (ih hciphers).trans (congrArg (· ++ stream blocks) hflush.bytes)

end Outbound

end Librats
