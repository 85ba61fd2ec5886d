import Librats.Foundations.Objects
import Librats.Subsystems.FileTransfer
import Librats.Wire.Frame

/-!
# Receiving files

The receiving side of `FileTransfer` with all its threads, which interleave freely: every critical
section and every file operation is one step (`Section`). The disk workers are not bounded, and the
handlers of messages may overlap, which with one reactor they do not. A stream keeps what is written
until it is closed.
-/

namespace Librats.FileTransfer

open BigEndian

/-! ## Files -/

/-- The files and what they hold, by the paths `Config.resolve` gives. -/
abbrev Disk := Bytes → Option Bytes

namespace Disk

def put (d : Disk) (path content : Bytes) : Disk := Function.update d path (some content)

def delete (d : Disk) (path : Bytes) : Disk := Function.update d path none

end Disk

/-- `FileStream`: an open file, and what it holds once everything is flushed. -/
structure FileStream where
  path : Bytes
  view : Bytes
  deriving DecidableEq

/-- `FileStream::write_at` where the file can be written. -/
def overwrite (content : Bytes) (offset : ℕ) (data : Bytes) : Bytes :=
  if data = [] then content
  else
    (content ++ List.replicate (offset - content.length) 0).take offset ++ data ++
      content.drop (offset + data.length)

/-- `std::to_string`. -/
def decimal (n : ℕ) : Bytes := (Nat.toDigits 10 n).map fun c => c.toNat.toUInt8

/-- The temp path of a file, for a sender with the given hexadecimal name; only the directory can be
spelled in two ways. -/
def tempPath (cfg : Config) (hex : Bytes) (id i : ℕ) : Bytes :=
  combinePaths (cfg.resolve cfg.tempDirectory)
    (hex ++ [46] ++ decimal id ++ [46] ++ decimal i ++ [46, 112, 97, 114, 116])

/-! ## The state -/

/-- The fields of `Incoming` only its writer uses: `last_ack`, `out`, `out_idx`, `hashing_file`, and
what `hash` has taken in since its reset. -/
structure Writer where
  lastAck : ℕ
  out : Option FileStream
  outIdx : Option ℕ
  hashingFile : Option ℕ
  hashed : Bytes
  deriving DecidableEq

def Writer.new : Writer := ⟨0, none, none, none, []⟩

/-- An incoming transfer with its writer's part. -/
structure Transfer (P : Type) where
  t : Incoming P
  w : Writer

/-- A file operation, with the paths it is made on. -/
inductive FileOp
  | makeDirectories (path : Bytes)
  /-- The directories above the path. -/
  | makeParents (path : Bytes)
  | openWrite (path : Bytes)
  | write (path : Bytes) (offset : ℕ) (data : Bytes)
  | close (path : Bytes)
  | delete (path : Bytes)
  | create (path : Bytes)
  | rename (source target : Bytes)
  /-- The content is what there is to be copied. -/
  | copy (source target content : Bytes)
  /-- By somebody else. -/
  | changed (path : Bytes)
  deriving DecidableEq

/-- What is seen of a transfer. -/
inductive Note (P : Type)
  | sent (peer : P) (message : Bytes)
  | offered (offer : Offer P)
  | accepted
  /-- A job for the disk writer. -/
  | queued (job : WriteJob)
  | file (op : FileOp)
  /-- File `i` is in its final place. -/
  | moved (i : ℕ) (path content : Bytes)
  /-- A call of `finish_incoming`. -/
  | finishing (success : Bool) (error : String)
  /-- The transfer ends; the error text goes to the log, unless it was cancelled. -/
  | ended (success cancelled : Bool) (error : String)
  | progressed (progress : Progress P)
  /-- `complete_handler_`. -/
  | completed (id : ℕ) (success : Bool) (path : Bytes)
  deriving DecidableEq

/-- The next step of a thread on a transfer it holds. -/
inductive Section
  /-- `handle_chunk`. -/
  | chunk (fidx offset : ℕ) (data : Bytes)
  /-- `handle_file_end`. -/
  | fileEnd (fidx : ℕ) (sha : Bytes)
  /-- The cases of `on_message` for `CANCEL`, `PAUSE` and `RESUME`. -/
  | peerCancel
  | peerPause
  | peerResume
  | accept (dest : Bytes)
  /-- `accept`, after its critical section. -/
  | respond
  | cancel
  | pause
  | resume
  /-- `maintenance_loop`. -/
  | expire
  /-- `schedule_writer`. -/
  | schedule
  /-- `finish_incoming`; a disk worker goes back to its queue afterwards. -/
  | finish (success : Bool) (error : String) (back : Bool)
  | unlist (success : Bool) (dest : Bytes) (back : Bool)
  | report (success : Bool) (dest : Bytes) (back : Bool)
  /-- `reject`: the transfer leaves the map, and the application is told. -/
  | withdraw
  | refuse
  /-- `drain_writes`. -/
  | drain
  /-- `process_data`: the check, opening the temp file, the write, and the account of it. -/
  | data (job : WriteJob)
  | openTemp (job : WriteJob) (path : Bytes)
  | write (job : WriteJob)
  | record (job : WriteJob)
  /-- `process_file_end`: the check and the hash, closing the temp file, and moving it. -/
  | endFile (job : WriteJob)
  | close (i : ℕ) (final temp : Bytes) (size : ℕ)
  | clear (i : ℕ) (final temp : Bytes) (size : ℕ)
  | create (i : ℕ) (final temp : Bytes)
  | discard (i : ℕ) (temp : Bytes) (ok : Bool)
  | rename (i : ℕ) (final temp : Bytes)
  | copy (i : ℕ) (final temp : Bytes)
  | remove (i : ℕ) (temp : Bytes)
  | placed (i : ℕ)
  deriving DecidableEq

/-- What the system answers: whether the operation succeeds, what is left of a file if accepted
bytes do not reach it, and the clock in nanoseconds. -/
structure Answer where
  ok : Bool
  lost : Option Bytes
  now : ℕ

/-- What a section leaves behind. -/
structure Done (P : Type) where
  transfer : Transfer P
  disk : Disk
  notes : List (Note P)
  next : List Section

/-! ## Sections -/

/-- Where a thread goes on after `finish_incoming`. -/
def resumeDrain (back : Bool) : List Section := if back then [.drain] else []

/-- The job of a chunk. -/
def dataJob (fidx offset : ℕ) (data : Bytes) : WriteJob :=
  ⟨fidx, offset, data, false, List.replicate sha256HashSize 0⟩

/-- The job of a file end. -/
def endJob (fidx : ℕ) (sha : Bytes) : WriteJob := ⟨fidx, 0, [], true, sha⟩

/-- `FileStream::close`: what was written reaches the file, or is silently lost. -/
def Writer.flush (w : Writer) (disk : Disk) (lost : Option Bytes) : Disk :=
  match w.out with
  | none => disk
  | some stream => disk.put stream.path (lost.getD stream.view)

/-- The effect of closing the stream. -/
def Writer.closing {P : Type} (w : Writer) : List (Note P) :=
  w.out.toList.map fun stream => .file (.close stream.path)

/-- The hash is reset when another file begins. -/
def Writer.rehash (w : Writer) (fidx : ℕ) : Writer :=
  if w.hashingFile = some fidx then w else { w with hashed := [], hashingFile := some fidx }

/-- The number of bytes after which the receiver sends an ack. -/
def Config.ackInterval (cfg : Config) : ℕ :=
  min cfg.progressInterval (max 1 (cfg.windowBytes / 2))

section

variable {P : Type} (cfg : Config) (sha256 : Bytes → Bytes) (hex : P → Bytes)

namespace Transfer

variable (x : Transfer P)

/-- `schedule_writer`, unless the writer is scheduled. -/
def waking : List Section := if x.t.scheduled then [] else [.schedule]

variable (disk : Disk)

/-- The end of `handle_chunk` and `handle_file_end`. -/
def settle (job : WriteJob) : State.Accepts P → Done P
  | .error fail =>
    ⟨x, disk, [.sent x.t.peer (completeMessage x.t.id false)], [.finish false fail false]⟩
  | .ok t => ⟨{ x with t := t }, disk, [.queued job], x.waking⟩

/-- A failed operation of the disk worker. -/
def failed (notes : List (Note P)) (error : String) : Done P :=
  ⟨x, disk, notes ++ [.sent x.t.peer (completeMessage x.t.id false)], [.finish false error true]⟩

/-- The files of the transfer with the paths `accept` gives them, each by the file it leads to. -/
def placedIn (dest : Bytes) : List IncomingFile :=
  x.t.files.mapIdx fun i f => { f with
    finalPath := cfg.resolve (if x.t.isDirectory then combinePaths dest f.relativePath else dest)
    tempPath := tempPath cfg (hex x.t.peer) x.t.id i }

/-- The critical section of `accept`. -/
def accept (dest : Bytes) (now : ℕ) : Done P :=
  if x.t.status = .pending then
    ⟨{ x with t := { x.t with
        destRoot := dest, files := x.placedIn cfg hex dest, status := .active
        lastActivity := now } }, disk, [.accepted], [.respond]⟩
  else ⟨x, disk, [], []⟩

def respond : Done P :=
  let directories := if x.t.isDirectory then [.file (.makeDirectories x.t.destRoot)] else []
  let complete := if x.t.files = [] then [.sent x.t.peer (completeMessage x.t.id true)] else []
  ⟨x, disk, .file (.makeDirectories cfg.tempDirectory) :: directories ++
      .sent x.t.peer (responseMessage x.t.id 1) :: complete,
    if x.t.files = [] then [.finish true "" false] else []⟩

/-- The critical section of `finish_incoming`. -/
def finish (success : Bool) (error : String) (back : Bool) : Done P :=
  if x.t.finished then ⟨x, disk, [.finishing success error], resumeDrain back⟩
  else
    ⟨{ x with t := { x.t with finished := true, status := State.finalStatus x.t.status success } },
      disk, [.finishing success error, .ended success (x.t.status = .cancelled) error],
      [.unlist success x.t.destRoot back]⟩

/-- `drain_writes`: the next job, if the transfer has not ended. -/
def drainWrites : Done P :=
  if x.t.finished then
    ⟨{ x with t := { x.t with wq := [], queuedBytes := 0, scheduled := false } }, disk, [], []⟩
  else
    match x.t.wq with
    | [] => ⟨{ x with t := { x.t with scheduled := false } }, disk, [], []⟩
    | job :: rest =>
      ⟨{ x with t := { x.t with wq := rest } }, disk, [],
        [if job.isFileEnd then .endFile job else .data job]⟩

/-- `process_data`, up to opening the file. -/
def processData (job : WriteJob) : Done P :=
  match x.t.files[job.fidx]? with
  | none => ⟨x, disk, [], [.drain]⟩
  | some f =>
    if x.t.finished then ⟨x, disk, [], [.drain]⟩
    else if x.w.outIdx = some job.fidx then ⟨x, disk, [], [.write job]⟩
    else ⟨x, disk, [], [.openTemp job f.tempPath]⟩

/-- `FileStream::open_write` keeps what the file holds. -/
def openTemp (job : WriteJob) (path : Bytes) (a : Answer) : Done P :=
  let disk := x.w.flush disk a.lost
  if a.ok ∧ path ≠ [] then
    let content := (disk path).getD []
    ⟨⟨{ x.t with files := x.t.files.modify job.fidx fun f => { f with tempCreated := true } },
        { x.w with out := some ⟨path, content⟩, outIdx := some job.fidx }⟩,
      disk.put path content, x.w.closing ++ [.file (.openWrite path)], [.write job]⟩
  else
    { x with w := { x.w with out := none } }.failed disk (x.w.closing) "cannot create temp file"

/-- `FileStream::write_at` and the hash; `fseeko` takes no offset from 2⁶³ on. -/
def write (x : Transfer P) (disk : Disk) (job : WriteJob) (a : Answer) : Done P :=
  let w := x.w.rehash job.fidx
  match w.out with
  | none => { x with w := w }.failed disk [] "failed to write chunk to disk"
  | some stream =>
    if 2 ^ 63 ≤ job.offset then
      { x with w := w }.failed disk [] "failed to write chunk to disk"
    else if a.ok then
      ⟨{ x with w := { w with
          out := some { stream with view := overwrite stream.view job.offset job.data }
          hashed := w.hashed ++ job.data } },
        disk, [.file (.write stream.path job.offset job.data)], [.record job]⟩
    else
      { x with w := { w with out := some { stream with view := a.lost.getD stream.view } } }.failed
        disk [.file (.write stream.path job.offset job.data)] "failed to write chunk to disk"

/-- The second critical section of `process_data`. -/
def record (job : WriteJob) (now : ℕ) : Done P :=
  let n := job.data.length
  let files := x.t.files.modify job.fidx fun f => { f with received := (f.received + n) % 2 ^ 64 }
  let bytesDone := (x.t.bytesDone + n) % 2 ^ 64
  let complete := (files[job.fidx]?).any fun f => f.size ≤ f.received
  let ack := complete || cfg.ackInterval ≤ (bytesDone + 2 ^ 64 - x.w.lastAck) % 2 ^ 64
  let t := { x.t with
    files := files, bytesDone := bytesDone, lastActivity := now
    queuedBytes := if n ≤ x.t.queuedBytes then x.t.queuedBytes - n else x.t.queuedBytes }
  ⟨⟨t, if ack then { x.w with lastAck := bytesDone } else x.w⟩, disk,
    (if ack then [.sent t.peer (progressMessage t.id bytesDone)] else []) ++
      [.progressed (State.incomingProgress t)], [.drain]⟩

/-- `process_file_end`, up to the comparison of the hashes. -/
def processFileEnd (job : WriteJob) : Done P :=
  match x.t.files[job.fidx]? with
  | none => ⟨x, disk, [], [.drain]⟩
  | some f =>
    if x.t.finished || f.finalized then ⟨x, disk, [], [.drain]⟩
    else
      let w := x.w.rehash job.fidx
      let x := { x with w := { w with hashingFile := none } }
      if cfg.verifyIntegrity ∧ sha256 w.hashed ≠ job.sha then x.failed disk [] "SHA-256 mismatch"
      else ⟨x, disk, [], [.close job.fidx f.finalPath f.tempPath f.size]⟩

section

variable (i : ℕ) (final temp : Bytes)

def closeTemp (size : ℕ) (lost : Option Bytes) : Done P :=
  if x.w.outIdx = some i then
    ⟨{ x with w := { x.w with out := none, outIdx := none } }, x.w.flush disk lost, x.w.closing,
      [.clear i final temp size]⟩
  else ⟨x, disk, [], [.clear i final temp size]⟩

/-- Whatever is in the final place is deleted. -/
def clear (size : ℕ) (ok : Bool) : Done P :=
  let next : Section := if size = 0 then .create i final temp else .rename i final temp
  if (disk final).isSome then
    ⟨x, if ok then disk.delete final else disk,
      [.file (.makeParents final), .file (.delete final)], [next]⟩
  else ⟨x, disk, [.file (.makeParents final)], [next]⟩

/-- `create_file_with_size`. -/
def create (ok : Bool) : Done P :=
  if ok ∧ final ≠ [] then
    ⟨x, disk.put final [], [.file (.create final), .moved i final []], [.discard i temp true]⟩
  else ⟨x, disk, [.file (.create final)], [.discard i temp false]⟩

end

def discard (i : ℕ) (temp : Bytes) (created ok : Bool) : Done P :=
  let disk' := if ok then disk.delete temp else disk
  let notes := if (disk temp).isSome then [.file (.delete temp)] else []
  if created then ⟨x, disk', notes, [.placed i]⟩
  else x.failed disk' notes "cannot write destination file"

def rename (i : ℕ) (final temp : Bytes) (ok : Bool) : Done P :=
  match disk temp with
  | none => ⟨x, disk, [.file (.rename temp final)], [.copy i final temp]⟩
  | some content =>
    if ok ∧ final ≠ [] then
      ⟨x, (disk.delete temp).put final content,
        [.file (.rename temp final), .moved i final content], [.placed i]⟩
    else ⟨x, disk, [.file (.rename temp final)], [.copy i final temp]⟩

/-- `copy_file`; a copy that fails after it has opened the destination deletes it. -/
def copy (i : ℕ) (final temp : Bytes) (a : Answer) : Done P :=
  match disk temp with
  | none => x.failed disk [.file (.copy temp final [])] "cannot write destination file"
  | some content =>
    if a.ok ∧ final ≠ [] then
      ⟨x, disk.put final (a.lost.getD content),
        [.file (.copy temp final content), .moved i final (a.lost.getD content)], [.remove i temp]⟩
    else
      x.failed (if a.lost.isSome then disk.delete final else disk)
        [.file (.copy temp final content)] "cannot write destination file"

/-- The second critical section of `process_file_end`. -/
def placed (i : ℕ) : Done P :=
  let t := { x.t with
    files := x.t.files.modify i fun f => { f with finalized := true }
    filesDone := (x.t.filesDone + 1) % 2 ^ 32 }
  let progress : Note P := .progressed (State.incomingProgress t)
  if t.files.all (·.finalized) then
    ⟨{ x with t := t }, disk, [progress, .sent t.peer (completeMessage t.id true)],
      [.finish true "" true]⟩
  else ⟨{ x with t := t }, disk, [progress], [.drain]⟩

/-- A section on a transfer. `schedule`, `unlist` and `withdraw` are steps on the queue and on the
map. -/
def exec (a : Answer) : Section → Done P
  | .chunk fidx offset data =>
    if x.t.finished then ⟨x, disk, [], []⟩
    else if x.t.status ≠ .active ∧ x.t.status ≠ .paused then ⟨x, disk, [], []⟩
    else x.settle disk (dataJob fidx offset data) (State.queueChunk x.t fidx offset data a.now)
  | .fileEnd fidx sha =>
    if x.t.finished || x.t.files.length ≤ fidx then ⟨x, disk, [], []⟩
    else x.settle disk (endJob fidx sha) (State.queueFileEnd x.t fidx sha)
  | .peerCancel =>
    ⟨{ x with t := { x.t with status := .cancelled } }, disk, [],
      [.finish false "cancelled by peer" false]⟩
  | .peerPause =>
    ⟨{ x with t := if x.t.status = .active then { x.t with status := .paused } else x.t }, disk,
      [], []⟩
  | .peerResume =>
    ⟨{ x with t := if x.t.status = .paused then { x.t with status := .active, lastActivity := a.now }
        else x.t }, disk, [], []⟩
  | .accept dest => x.accept cfg hex disk dest a.now
  | .respond => x.respond cfg disk
  | .cancel =>
    if x.t.finished then ⟨x, disk, [], []⟩
    else
      ⟨{ x with t := { x.t with status := .cancelled } }, disk,
        [.sent x.t.peer (simpleMessage 7 x.t.id)], [.finish false "cancelled" false]⟩
  | .pause =>
    if x.t.status = .active then
      ⟨{ x with t := { x.t with status := .paused } }, disk,
        [.sent x.t.peer (simpleMessage 8 x.t.id)], []⟩
    else ⟨x, disk, [], []⟩
  | .resume =>
    if x.t.status = .paused then
      ⟨{ x with t := { x.t with status := .active, lastActivity := a.now } }, disk,
        [.sent x.t.peer (simpleMessage 9 x.t.id)], []⟩
    else ⟨x, disk, [], []⟩
  | .expire =>
    if !x.t.finished && x.t.status ≠ .paused && x.t.status ≠ .pending &&
        cfg.transferTimeoutSecs < (a.now - x.t.lastActivity) / 10 ^ 9 then
      ⟨x, disk, [.sent x.t.peer (completeMessage x.t.id false)], [.finish false "timed out" false]⟩
    else ⟨x, disk, [], []⟩
  | .schedule => ⟨x, disk, [], []⟩
  | .finish success error back => x.finish disk success error back
  | .unlist _ _ _ => ⟨x, disk, [], []⟩
  | .withdraw => ⟨x, disk, [], []⟩
  | .report success dest back =>
    ⟨x, disk, [.progressed (State.incomingProgress x.t), .completed x.t.id success dest],
      resumeDrain back⟩
  | .refuse => ⟨x, disk, [.completed x.t.id false []], []⟩
  | .drain => x.drainWrites disk
  | .data job => x.processData disk job
  | .openTemp job path => x.openTemp disk job path a
  | .write job => x.write disk job a
  | .record job => x.record cfg disk job a.now
  | .endFile job => x.processFileEnd cfg sha256 disk job
  | .close i final temp size => x.closeTemp disk i final temp size a.lost
  | .clear i final temp size => x.clear disk i final temp size a.ok
  | .create i final temp => x.create disk i final temp a.ok
  | .discard i temp created => x.discard disk i temp created a.ok
  | .rename i final temp => x.rename disk i final temp a.ok
  | .copy i final temp => x.copy disk i final temp a
  | .remove i temp =>
    ⟨x, if a.ok then disk.delete temp else disk, [.file (.delete temp)], [.placed i]⟩
  | .placed i => x.placed disk i

/-- The temp files that are left. -/
def leftovers : List Bytes :=
  (x.t.files.filter fun f => f.tempCreated && !f.finalized).map (·.tempPath)

/-- `~Incoming`. -/
def destroy (ok : Bool) : Done P :=
  let disk := x.w.flush disk none
  ⟨x, if ok then x.leftovers.foldl Disk.delete disk else disk,
    x.w.closing ++ x.leftovers.map fun path => .file (.delete path), []⟩

end Transfer

end

/-! ## The whole receiving side -/

/-- What the receiving side shares: `incoming_`, `disk_ready_` and the files. -/
structure Receiver (P : Type) where
  incoming : AList (fun _ : P × ℕ => ℕ)
  ready : List ℕ
  disk : Disk
  hasOfferHandler : Bool

/-- The point of a thread that holds no transfer. -/
inductive Seeker (P : Type)
  /-- `find_incoming`, and what is done with the transfer. -/
  | find (peer : P) (id : ℕ) (sec : Section)
  /-- `handle_offer`. -/
  | checkOffer (offer : Offer P)
  | emplace (offer : Offer P)
  | reject (peer : P) (id : ℕ)
  /-- `reject` has found no transfer. -/
  | rejecting (peer : P) (id : ℕ)

abbrev Thread (P : Type) := Objects.Point Section (Seeker P)

/-- What comes from outside: messages, calls of the application, and thread loops. -/
inductive Call (P : Type)
  | message (sender : P) (payload : Bytes)
  | accept (peer : P) (id : ℕ) (dest : Bytes)
  | reject (peer : P) (id : ℕ)
  | cancel (peer : P) (id : ℕ)
  | pause (peer : P) (id : ℕ)
  | resume (peer : P) (id : ℕ)
  /-- The handler of `on_peer_disconnected`. -/
  | disconnect (peer : P)
  /-- A pass of `maintenance_loop`. -/
  | maintain
  /-- `disk_worker_loop`: a worker takes the next transfer. -/
  | take
  /-- `~Incoming`. -/
  | destroy (r : ℕ) (ok : Bool)
  /-- Somebody else changes a file. -/
  | external (path : Bytes) (content : Option Bytes)

/-- The thread holds the transfer. -/
def holds {P : Type} (r : ℕ) : Thread P → Bool
  | .on r' _ => r' = r
  | .free _ => false

namespace Receiver

open Objects

variable {P : Type}

/-- What a step leaves that is not a section. -/
abbrev Outcome (P : Type) := Free (Transfer P) (Receiver P) Section (Seeker P) (Note P)

/-- The threads that handle a message. -/
def messageThreads (sender : P) : Message → List (Thread P)
  | .offer id isDir total name files => [.free (.checkOffer ⟨sender, id, name, total, isDir, files⟩)]
  | .chunk id fidx offset data => [.free (.find sender id (.chunk fidx offset data))]
  | .fileEnd id fidx sha => [.free (.find sender id (.fileEnd fidx sha))]
  | .cancel id => [.free (.find sender id .peerCancel)]
  | .pause id => [.free (.find sender id .peerPause)]
  | .resume id => [.free (.find sender id .peerResume)]
  | .response _ _ | .progress _ _ | .complete _ _ => []

variable [DecidableEq P]

/-- `incoming_` with a new transfer; `emplace` keeps an entry that is there. -/
def emplace (g : Receiver P) (o : Offer P) (r : ℕ) : Receiver P :=
  if (g.incoming.lookup (o.sender, o.id)).isSome then g
  else { g with incoming := g.incoming.insert (o.sender, o.id) r }

variable (cfg : Config) (sha256 : Bytes → Bytes) (hex : P → Bytes)

/-- A section on transfer `r`. -/
def sect (r : ℕ) (x : Transfer P) (g : Receiver P) (a : Answer) (sec : Section) :
    Objects.Done (Transfer P) (Receiver P) Section (Note P) :=
  match sec with
  | .schedule => ⟨x, { g with ready := g.ready ++ [r] }, [], []⟩
  | .unlist success dest back =>
    ⟨x, { g with incoming := g.incoming.erase (x.t.peer, x.t.id) }, [],
      [.report success dest back]⟩
  | .withdraw =>
    ⟨x, { g with incoming := g.incoming.erase (x.t.peer, x.t.id) },
      [.sent x.t.peer (responseMessage x.t.id 0)], [.refuse]⟩
  | sec =>
    let d := x.exec cfg sha256 hex g.disk a sec
    ⟨d.transfer, { g with disk := d.disk }, d.notes, d.next⟩

omit cfg sha256 hex in
/-- A step of a thread that holds no transfer. -/
def seek (st : Store (Transfer P) (Receiver P)) (th : Seeker P) (a : Answer) : Option (Outcome P) :=
  let g := st.globals
  match th with
  | .find peer id sec =>
    some ⟨g, [], [], (g.incoming.lookup (peer, id)).toList.map fun r => .on r sec⟩
  | .checkOffer o =>
    if (g.incoming.lookup (o.sender, o.id)).isSome then some ⟨g, [], [], []⟩
    else if o.isDirectory && o.files.any (fun f => !isSafeRelativePath f.relativePath) then
      some ⟨g, [], [⟨none, .sent o.sender (responseMessage o.id 0)⟩], []⟩
    else some ⟨g, [], [], [.free (.emplace o)]⟩
  | .emplace o =>
    let r := st.objects.length
    let t := State.newIncoming o.sender o.id o.isDirectory o.name o.files a.now
    if g.hasOfferHandler then some ⟨g.emplace o r, [⟨t, .new⟩], [⟨some r, .offered o⟩], []⟩
    else some ⟨g.emplace o r, [⟨t, .new⟩], [], [.free (.reject o.sender o.id)]⟩
  | .reject peer id =>
    some ⟨g, [], [],
      [(g.incoming.lookup (peer, id)).elim (.free (.rejecting peer id)) (.on · .withdraw)]⟩
  | .rejecting peer id =>
    some ⟨{ g with incoming := g.incoming.erase (peer, id) }, [],
      [⟨none, .sent peer (responseMessage id 0)⟩], []⟩

omit cfg sha256 hex in
/-- What comes from outside. A payload comes out of a block of the transport. -/
def call (st : Store (Transfer P) (Receiver P)) (threads : List (Thread P)) :
    Call P → Option (Outcome P)
  | .message sender payload =>
    if payload.length ≤ Framer.kMaxBlockSize then
      some ⟨st.globals, [], [], (parse payload).elim [] (messageThreads sender)⟩
    else none
  | .accept peer id dest => some ⟨st.globals, [], [], [.free (.find peer id (.accept dest))]⟩
  | .reject peer id => some ⟨st.globals, [], [], [.free (.reject peer id)]⟩
  | .cancel peer id => some ⟨st.globals, [], [], [.free (.find peer id .cancel)]⟩
  | .pause peer id => some ⟨st.globals, [], [], [.free (.find peer id .pause)]⟩
  | .resume peer id => some ⟨st.globals, [], [], [.free (.find peer id .resume)]⟩
  | .disconnect peer =>
    some ⟨st.globals, [], [],
      (st.globals.incoming.entries.filter fun e => e.1.1 = peer).map fun e =>
        .on e.2 (.finish false "peer disconnected" false)⟩
  | .maintain =>
    some ⟨st.globals, [], [], st.globals.incoming.entries.map fun e => .on e.2 .expire⟩
  | .take =>
    match st.globals.ready with
    | [] => none
    | r :: rest => some ⟨{ st.globals with ready := rest }, [], [], [.on r .drain]⟩
  | .destroy r ok =>
    match st.objects[r]? with
    | none => none
    | some x =>
      -- nothing refers to the transfer any more
      if threads.any (holds r) || r ∈ st.globals.ready ||
          st.globals.incoming.entries.any (fun e => e.2 = r) then none
      else
        let d := x.destroy st.globals.disk ok
        some ⟨{ st.globals with disk := d.disk }, [], d.notes.map fun n => ⟨some r, n⟩, []⟩
  | .external path content =>
    some ⟨{ st.globals with disk := Function.update st.globals.disk path content }, [],
      [⟨none, .file (.changed path)⟩], []⟩

/-- The receiving side as a program on its transfers. -/
def code : Code (Transfer P) (Receiver P) Section (Seeker P) Answer (Call P) (Note P) :=
  ⟨sect cfg sha256 hex, seek, call⟩

/-- The receiving side as a program of threads. -/
abbrev program := (code cfg sha256 hex).program

/-- The whole receiving side with its threads and what has been seen. -/
abbrev Snapshot (P : Type) := Objects.Snapshot (Transfer P) (Receiver P) Section (Seeker P) (Note P)

abbrev Move (P : Type) := Interleaving.Move Answer (Call P)

omit [DecidableEq P] in
/-- A node that has just started. -/
def start (disk : Disk) (hasOfferHandler : Bool) : Snapshot P :=
  ⟨⟨[], ∅, [], disk, hasOfferHandler⟩, [], []⟩

/-! ## Runs by their steps -/

/-- The payload of an offer of one file of the given size. -/
def oneFile (size : ℕ) : Bytes := offerMessage 1 false size [102] [⟨[102], size⟩]

/-- An answer of the system by which everything succeeds. -/
def fine : Answer := ⟨true, none, 0⟩

/-- A message is handled from beginning to end, with nothing in between. -/
def handled (payload : Bytes) (steps : ℕ) : List (Move ℕ) :=
  .call (.message 9 payload) :: List.replicate steps (.exec 0 fine)

/-- A node with an offer handler, whose digests are all zero. -/
def runFrom (test : Snapshot ℕ → Move ℕ → Bool) (moves : List (Move ℕ)) : Option (Snapshot ℕ) :=
  (program .plain (fun _ => List.replicate 32 0) fun _ => [97]).run test
    (start (fun _ => none) true) moves

end Receiver

end Librats.FileTransfer
