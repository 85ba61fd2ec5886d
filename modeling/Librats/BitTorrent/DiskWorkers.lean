import Librats.BitTorrent.FileStorage
import Librats.Foundations.Interleaving
import Librats.Foundations.Lists
import Mathlib.Data.List.AList
import Mathlib.Data.List.Sort

/-!
# The workers of a `ThreadedDiskIo`

The reads, writes and hashes of `bittorrent/disk_io.cpp`. Each access of a worker to a file or to
the store buffer is one step, as is `ensure_file`, which holds a lock. Whether an access succeeds is
an input. `queued_bytes_` and `async_check_files`, which sees the files only, are left out.
-/

namespace Librats.BitTorrent.ThreadedDiskIo

open Interleaving

/-- A read, or the hash of a piece, with the number of its call. -/
structure Request where
  ticket : ℕ
  piece : ℕ
  offset : ℕ
  length : ℕ
  hash : Bool
  deriving DecidableEq

structure Write where
  piece : ℕ
  offset : ℕ
  data : Bytes
  deriving DecidableEq

/-- The key of a block in the store buffer. -/
def Write.key (w : Write) : ℕ × ℕ := (w.piece, w.offset)

inductive Job
  | request (r : Request)
  | write (w : Write)
  deriving DecidableEq

/-! ## The store buffer -/

/-- `StoreBuffer`. -/
abbrev Store := AList fun _ : ℕ × ℕ => Bytes

namespace Store

/-- The parked blocks of a piece, by their offsets. -/
def ofPiece (store : Store) (piece : ℕ) : List (ℕ × Bytes) :=
  ((store.entries.filter fun e => e.1.1 = piece).map fun e => (e.1.2, e.2)).insertionSort
    fun a b => a.1 ≤ b.1

/-- The part of a block that is in the range is copied. -/
def copyBlock (offset : ℕ) (out : Bytes) (block : ℕ × Bytes) : Bytes :=
  let from_ := max offset block.1
  let to_ := min (offset + out.length) (block.1 + block.2.length)
  if to_ ≤ from_ then out
  else patch 0 out (from_ - offset) ((block.2.drop (from_ - block.1)).take (to_ - from_))

/-- `StoreBuffer::overlay`. -/
def overlay (store : Store) (piece offset : ℕ) (out : Bytes) : Bytes :=
  (store.ofPiece piece).foldl (copyBlock offset) out

end Store

/-! ## Files -/

/-- The files and what they hold. -/
abbrev Disk (P : Type) := P → Option Bytes

variable {P : Type}

/-- `read_file_chunk`. -/
def readChunk (disk : Disk P) (path : P) (offset size : ℕ) : Option Bytes :=
  (disk path).bind fun content =>
    if offset + size ≤ content.length then some ((content.drop offset).take size) else none

variable [DecidableEq P]

/-- `write_file_chunk`. -/
def writeChunk (disk : Disk P) (path : P) (offset : ℕ) (data : Bytes) : Disk P :=
  Function.update disk path (some (patch 0 ((disk path).getD []) offset data))

/-! ## Workers -/

/-- What the workers share. `entering` is a write whose block is parked, but which is not yet
queued; `tickets` counts the requests. -/
structure State (P : Type) where
  disk : Disk P
  ensured : Finset ℕ
  store : Store
  jobs : List Job
  entering : Option Write
  stopping : Bool
  tickets : ℕ

/-- Where a worker is: at the next slice to read, with what it has read; at the answer; at the next
slice to write, with whether its file exists and how much is written; at the removal from the store
buffer; at the report. -/
inductive Point
  | pull (r : Request) (got : Bytes) (rest : List FileSlice)
  | answer (r : Request) (out : Option Bytes)
  | push (w : Write) (pos : ℕ) (rest : List FileSlice) (ensured : Bool)
  | drop (w : Write) (ok : Bool)
  | report (w : Write) (ok : Bool)
  deriving DecidableEq

/-- The calls `async_read`, `async_hash`, `async_write` and what handlers get. -/
inductive Effect (H : Type)
  | asked (r : Request)
  | wrote (w : Write)
  | returned (r : Request) (out : Option Bytes)
  | hashed (r : Request) (digest : Option H)
  | written (w : Write) (ok : Bool)
  deriving DecidableEq

/-- A call, its second step, a worker that takes a job, or the end. -/
inductive Call
  | read (piece offset length : ℕ)
  | hash (piece : ℕ)
  | write (w : Write)
  | enqueue
  | pop
  | stop

/-- What a step leaves. -/
abbrev Done (P H : Type) := Interleaving.Outcome (State P) Point (Effect H)

/-- What the workers share, the workers, and what was seen so far. -/
abbrev Snapshot (P H : Type) := Interleaving.Config (State P) Point (Effect H)

variable {H : Type} (fs : FileStorage) (filePath : ℕ → P) (sha1 : Bytes → H) (workers : ℕ)

/-- `ensure_file` on a file not known to have its size: it is created or made longer. -/
def sizeFile (disk : Disk P) (path : P) (size : ℕ) : Disk P :=
  match disk path with
  | some content =>
    if 0 < size ∧ content.length < size then writeChunk disk path (size - 1) [0] else disk
  | none => Function.update disk path (some (List.replicate size 0))

variable (s : State P)

def ensureFile (i : ℕ) : State P :=
  if i ∈ s.ensured then s
  else
    match fs.files[i]? with
    | none => s
    | some e =>
      { s with disk := sizeFile s.disk (filePath i) e.size, ensured := insert i s.ensured }

/-- What a worker begins with. -/
def firstPoint : Job → Point
  | .request r => .pull r [] (fs.mapBlock r.piece r.offset r.length)
  | .write w => .push w 0 (fs.mapBlock w.piece w.offset w.data.length) false

/-- The handler of a request gets its answer. -/
def answerOf (r : Request) (out : Option Bytes) : Effect H :=
  if r.hash then .hashed r (out.map sha1) else .returned r out

/-- One step of a worker. -/
def exec (th : Point) (ok : Bool) : Done P H :=
  match th with
  | .pull r got [] =>
    let out := got ++ List.replicate (r.length - got.length) 0
    ⟨s, [], [.answer r (some (s.store.overlay r.piece r.offset out))]⟩
  | .pull r got (slice :: rest) =>
    match if ok then readChunk s.disk (filePath slice.fileIndex) slice.offset slice.size else none with
    | none => ⟨s, [], [.answer r none]⟩
    | some bytes => ⟨s, [], [.pull r (got ++ bytes) rest]⟩
  | .answer r out => ⟨s, [answerOf sha1 r out], []⟩
  | .push w pos [] _ => ⟨s, [], [.drop w (pos = w.data.length)]⟩
  | .push w pos (slice :: rest) false =>
    if ok then ⟨ensureFile fs filePath s slice.fileIndex, [], [.push w pos (slice :: rest) true]⟩
    else ⟨s, [], [.drop w false]⟩
  | .push w pos (slice :: rest) true =>
    if ok then
      let disk := writeChunk s.disk (filePath slice.fileIndex) slice.offset
        ((w.data.drop pos).take slice.size)
      ⟨{ s with disk }, [], [.push w (pos + slice.size) rest false]⟩
    else ⟨s, [], [.drop w false]⟩
  | .drop w written => ⟨{ s with store := s.store.erase w.key }, [], [.report w written]⟩
  | .report w written => ⟨s, [.written w written], []⟩

def enqueue (job : Job) : State P :=
  if s.stopping then s else { s with jobs := s.jobs ++ [job] }

/-- A request is queued. -/
def ask (r : Request) : Option (Done P H) :=
  if s.entering.isSome then none
  else some ⟨enqueue { s with tickets := s.tickets + 1 } (.request r), [.asked r], []⟩

def call (threads : List Point) : Call → Option (Done P H)
  | .read piece offset length => ask s ⟨s.tickets, piece, offset, length, false⟩
  | .hash piece => ask s ⟨s.tickets, piece, 0, fs.pieceSize piece, true⟩
  | .write w =>
    if s.entering.isSome then none
    else some ⟨{ s with store := s.store.insert w.key w.data, entering := some w }, [.wrote w], []⟩
  | .enqueue =>
    s.entering.map fun w => ⟨enqueue { s with entering := none } (.write w), [], []⟩
  | .pop =>
    match s.jobs with
    | [] => none
    | job :: jobs =>
      if threads.length < workers then some ⟨{ s with jobs }, [], [firstPoint fs job]⟩ else none
  | .stop => some ⟨{ s with stopping := true }, [], []⟩

/-- The program of the workers and the calls. -/
def program : Program (State P) Point Bool Call (Effect H) where
  exec s th ok := some (exec fs filePath sha1 s th ok)
  call s threads x := call fs workers s threads x

/-- A new `ThreadedDiskIo`, over what the files hold. -/
def start (disk : Disk P) : Snapshot P H :=
  ⟨⟨disk, ∅, ∅, [], none, false, 0⟩, [], []⟩

end Librats.BitTorrent.ThreadedDiskIo
