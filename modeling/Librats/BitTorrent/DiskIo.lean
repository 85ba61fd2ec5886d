import Librats.BitTorrent.Torrent

/-!
# A torrent and its disk

The jobs of a torrent wait in one queue; the workers take them in order, work on them part by part
at the same time, and post their completions to the reactor thread, which runs them even after a new
start. A block is parked in memory until its write is done. Reads and writes may fail at any point.
-/

namespace Librats.BitTorrent

open Function

/-! ## The reactor's events -/

inductive Event (Peer : Type)
  /-- A new connection has completed its handshake. -/
  | handshake (pc : Peer) (numPieces : ℕ)
  /-- The reply to the handshake of a new connection fails, which closes it; the torrent is told of
  the handshake all the same. -/
  | unanswered (pc : Peer) (numPieces : ℕ)
  | message (pc : Peer) (m : Torrent.Message)
  /-- The connection fails or times out. -/
  | drop (pc : Peer)
  /-- From now on a send on the connection fails. -/
  | breaks (pc : Peer)
  | timeouts (stalled : List Peer)
  | pause
  | resume
  | start (hasMetadata : Bool)
  | promote
  | stop

def Torrent.handle {H : Type} {info : TorrentInfo H} {Peer : Type} [DecidableEq Peer]
    (w : World info.toLayout Peer) (t : Torrent info Peer) : Event Peer → Torrent info Peer
  | .handshake pc numPieces =>
    (t.updateConn pc fun c => { PeerConnection.new numPieces with broken := c.broken }).onHandshake pc
  | .unanswered pc numPieces => ((t.updateConn pc fun _ => .new numPieces).close pc).onHandshake pc
  | .message pc m => t.dispatch w pc m
  | .drop pc => t.close pc
  | .breaks pc => t.updateConn pc fun c => { c with broken := true }
  | .timeouts stalled => t.checkRequestTimeouts w stalled
  | .pause => t.pause
  | .resume => t.resume
  | .start hasMetadata => t.start hasMetadata
  | .promote => t.promote w
  | .stop => t.stop

/-! ## Jobs -/

/-- What a job reports when it is done. -/
inductive Completion (H : Type)
  | written (b : PieceBlock) (ok : Bool)
  | hashed (piece : ℕ) (ok : Bool) (hash : H)
  | checked (bits : List Bool)

/-- A job of a worker: how much of a block is written, the bytes of a piece read so far, the outcome
for the pieces checked so far. -/
inductive Task (H : Type)
  | write (piece offset : ℕ) (data : Bytes) (done : ℕ)
  | hash (piece : ℕ) (buf : Bytes)
  | check (bits : List Bool) (buf : Bytes)
  | post (c : Completion H)

def DiskJob.task {H : Type} : DiskJob → Task H
  | .write piece offset data => .write piece offset data 0
  | .hash piece => .hash piece []
  | .check => .check [] []

/-- What the files hold, by path and offset; bytes behind their ends are missing. -/
abbrev Content := Bytes × ℕ → Option UInt8

/-- The parked blocks by piece and offset. -/
abbrev StoreBuffer := ℕ → ℕ → Option Bytes

namespace StoreBuffer

def empty : StoreBuffer := fun _ _ => none

variable (store : StoreBuffer)

def insert (piece offset : ℕ) (data : Bytes) : StoreBuffer :=
  Function.update store piece (Function.update (store piece) offset (some data))

def erase (piece offset : ℕ) : StoreBuffer :=
  Function.update store piece (Function.update (store piece) offset none)

/-- The bytes of a piece, with the parked blocks in their place. Blocks lie at multiples of the
block size. -/
def overlay (piece : ℕ) (buf : Bytes) : Bytes :=
  buf.mapIdx fun k byte =>
    ((store piece (k / kBlockSize * kBlockSize)).bind (·[k % kBlockSize]?)).getD byte

theorem of_insert_ne_none {store : StoreBuffer} {piece offset p o : ℕ} {data : Bytes}
    (h : store.insert piece offset data p o ≠ none) :
    store p o ≠ none ∨ p = piece ∧ o = offset := by
  rw [insert] at h
  by_cases hp : p = piece
  · subst hp
    by_cases ho : o = offset
    · exact .inr ⟨rfl, ho⟩
    · rw [update_self, update_of_ne ho] at h
      exact .inl h
  · rw [update_of_ne hp] at h
    exact .inl h

theorem of_erase_ne_none {store : StoreBuffer} {piece offset p o : ℕ}
    (h : store.erase piece offset p o ≠ none) : store p o ≠ none ∧ ¬(p = piece ∧ o = offset) := by
  rw [erase] at h
  by_cases hp : p = piece
  · subst hp
    by_cases ho : o = offset
    · rw [update_self, ho, update_self] at h
      exact absurd rfl h
    · rw [update_self, update_of_ne ho] at h
      exact ⟨h, fun e => ho e.2⟩
  · rw [update_of_ne hp] at h
    exact ⟨h, fun e => hp e.1⟩

/-- The block of a write is parked as soon as it is handed over. -/
def park : DiskJob → StoreBuffer
  | .write piece offset data => store.insert piece offset data
  | _ => store

end StoreBuffer

namespace Content

variable {H : Type} (content : Content) (info : TorrentInfo H) (piece : ℕ)

/-- The byte that is in the place of a byte of a piece. -/
def byte (k : ℕ) : Option UInt8 := (info.location piece k).bind content

/-- `bytes` written at an offset of a piece, each in its place. -/
def write : (content : Content) → (offset : ℕ) → (bytes : Bytes) → Content
  | content, _, [] => content
  | content, offset, b :: bytes =>
    match info.location piece offset with
    | some x => write (Function.update content x (some b)) (offset + 1) bytes
    | none => write content (offset + 1) bytes

/-- `n` bytes from an offset of a piece on, if they are all there. -/
def read : (offset n : ℕ) → Option Bytes
  | _, 0 => some []
  | offset, n + 1 =>
    match content.byte info piece offset, read (offset + 1) n with
    | some byte, some bytes => some (byte :: bytes)
    | _, _ => none

/-- A file is created or grown; the new bytes are zero. -/
def extend (grown : Bytes × ℕ → Bool) : Content := fun x =>
  if content x = none ∧ grown x then some 0 else content x

end Content

/-! ## The system -/

structure System {H : Type} (info : TorrentInfo H) (Peer : Type) where
  torrent : Torrent info Peer
  content : Content
  store : StoreBuffer
  jobs : List DiskJob
  workers : List (Task H)
  posted : List (Completion H)

/-- The worker threads of a disk. -/
def kNumThreads : ℕ := 2

inductive Action (g : Layout) (Peer : Type)
  /-- The reactor handles an event. -/
  | handle (w : World g Peer) (e : Event Peer)
  /-- The reactor runs a posted completion. -/
  | deliver (w : World g Peer) (i : ℕ)
  /-- A worker takes the next job. -/
  | take
  /-- A worker writes the next `n` bytes. -/
  | write (i n : ℕ)
  /-- A worker reads the next `n` bytes. -/
  | read (i n : ℕ)
  /-- A worker is done with a write, or with reading a piece. -/
  | finish (i : ℕ) (ok : Bool)
  /-- A worker posts the completion of its job. -/
  | post (i : ℕ)
  /-- A file grows. -/
  | extend (grown : Bytes × ℕ → Bool)

namespace System

variable {H : Type} {info : TorrentInfo H} {Peer : Type}

/-- A torrent before its first start, over whatever the files hold. -/
def init (conns : Peer → PeerConnection) (content : Content) : System info Peer where
  torrent := .new conns
  content := content
  store := .empty
  jobs := []
  workers := []
  posted := []

variable (s : System info Peer)

/-- The torrent has made a step, and its jobs are queued. A torrent without a picker has no disk. -/
def absorb (t : Torrent info Peer) : System info Peer :=
  { s with
    torrent := { t with submitted := [] }
    store := if t.picker.isSome then t.submitted.foldl StoreBuffer.park s.store else .empty
    jobs := s.jobs ++ t.submitted }

/-- A stop waits for the workers; the metadata comes while there is no picker. -/
def enabled : Event Peer → Bool
  | .stop => s.jobs.isEmpty && s.workers.isEmpty
  | .promote => s.torrent.running && s.torrent.picker.isNone
  | _ => true

def setWorker (i : ℕ) (task : Task H) : System info Peer :=
  { s with workers := s.workers.set i task }

/-- More of a piece is read. -/
def readMore (piece : ℕ) (buf : Bytes) (n : ℕ) : Option Bytes :=
  if buf.length + n ≤ info.pieceSize piece then
    (s.content.read info piece buf.length n).map (buf ++ ·)
  else none

def write (i n : ℕ) : Option (System info Peer) :=
  match s.workers[i]? with
  | some (.write piece offset data done) =>
    if done + n ≤ data.length then
      some { s.setWorker i (.write piece offset data (done + n)) with
        content := s.content.write info piece (offset + done) ((data.drop done).take n) }
    else none
  | _ => none

def read (i n : ℕ) : Option (System info Peer) :=
  match s.workers[i]? with
  | some (.hash piece buf) => (s.readMore piece buf n).map fun buf' => s.setWorker i (.hash piece buf')
  | some (.check bits buf) =>
    if bits.length < info.numPieces then
      (s.readMore bits.length buf n).map fun buf' => s.setWorker i (.check bits buf')
    else none
  | _ => none

variable [DecidableEq H] [Inhabited H] (sha1 : Bytes → H)

/-- What a worker that is done with a write or with reading a piece does next; `ok` is false if it
has failed. -/
def finish (s : System info Peer) (i : ℕ) (ok : Bool) : Option (System info Peer) :=
  match s.workers[i]? with
  | some (.write piece offset data done) =>
    if !ok || done == data.length then
      some { s.setWorker i (.post (.written ⟨piece, offset / kBlockSize⟩ ok)) with
        store := s.store.erase piece offset }
    else none
  | some (.hash piece buf) =>
    if !ok then some (s.setWorker i (.post (.hashed piece false default)))
    else if buf.length = info.pieceSize piece then
      some (s.setWorker i (.post (.hashed piece true (sha1 (s.store.overlay piece buf)))))
    else none
  | some (.check bits buf) =>
    if info.numPieces ≤ bits.length then some (s.setWorker i (.post (.checked bits)))
    else if !ok then some (s.setWorker i (.check (bits ++ [false]) []))
    else if buf.length = info.pieceSize bits.length then
      some (s.setWorker i (.check (bits ++ [sha1 buf == info.pieceHash bits.length]) []))
    else none
  | _ => none

variable [DecidableEq Peer]

def complete (w : World info.toLayout Peer) (t : Torrent info Peer) :
    Completion H → Torrent info Peer
  | .written b ok => t.onBlockWritten w b ok
  | .hashed piece ok hash => t.onPieceHashed w piece ok hash
  | .checked bits => t.onCheckComplete w bits

/-- One step of the reactor thread or of a worker. -/
def step (s : System info Peer) : Action info.toLayout Peer → Option (System info Peer)
  | .handle w e => if s.enabled e then some (s.absorb (s.torrent.handle w e)) else none
  | .deliver w i =>
    match s.posted[i]? with
    | some c => some ({ s with posted := s.posted.eraseIdx i }.absorb (complete w s.torrent c))
    | none => none
  | .take =>
    match s.jobs with
    | job :: rest =>
      if s.workers.length < kNumThreads then
        some { s with jobs := rest, workers := s.workers ++ [job.task] }
      else none
    | [] => none
  | .write i n => s.write i n
  | .read i n => s.read i n
  | .finish i ok => s.finish sha1 i ok
  | .post i =>
    match s.workers[i]? with
    | some (.post c) =>
      some { s with workers := s.workers.eraseIdx i, posted := s.posted ++ [c] }
    | _ => none
  | .extend grown => some { s with content := s.content.extend grown }

def run (s : System info Peer) (actions : List (Action info.toLayout Peer)) :
    Option (System info Peer) :=
  actions.foldlM (step sha1) s

end System

end Librats.BitTorrent
