import Librats.Core.Paths
import Librats.Foundations.AssocList
import Librats.Foundations.BigEndian

/-!
# File transfer: messages from peers

`FileTransfer::on_message` (`subsystems/file_transfer.cpp`) with everything it calls on the reactor
thread. Transfers outlive their entry in a map, so the state has a store of objects for each
direction, and the maps hold references into it.

The rates of a `Progress` and the fields only the workers use are left out.
-/

namespace Librats.FileTransfer

open BigEndian

abbrev Bytes := List UInt8

/-! ## Transfers -/

/-- `FileTransfer::Config`, without the numbers of threads. -/
structure Config where
  chunkSize : ℕ
  windowBytes : ℕ
  progressInterval : ℕ
  transferTimeoutSecs : ℕ
  verifyIntegrity : Bool
  tempDirectory : Bytes
  /-- Of the file system: the file a path leads to, by one of its paths. -/
  resolve : Bytes → Bytes

/-- The defaults of `FileTransfer::Config`, where every path leads to a file of its own. -/
def Config.plain : Config := ⟨65536, 4194304, 262144, 60, true, [46], id⟩

inductive Status
  | pending
  | active
  | paused
  | completed
  | failed
  | cancelled
  deriving DecidableEq, Repr

inductive Direction
  | sending
  | receiving
  deriving DecidableEq, Repr

structure FileEntry where
  relativePath : Bytes
  size : ℕ
  deriving DecidableEq, Repr

/-- `FileTransfer::Outgoing`, for peers named by `P`. -/
structure Outgoing (P : Type) where
  id : ℕ
  peer : P
  root : Bytes
  files : List FileEntry
  totalBytes : ℕ
  curFile : ℕ
  curOffset : ℕ
  bytesDone : ℕ
  acked : ℕ
  filesDone : ℕ
  status : Status
  finished : Bool
  lastActivity : ℕ
  deriving DecidableEq

structure IncomingFile where
  relativePath : Bytes
  size : ℕ
  finalPath : Bytes
  tempPath : Bytes
  enqueued : ℕ
  received : ℕ
  tempCreated : Bool
  finalized : Bool
  deriving DecidableEq

structure WriteJob where
  fidx : ℕ
  offset : ℕ
  data : Bytes
  isFileEnd : Bool
  sha : Bytes
  deriving DecidableEq

structure Incoming (P : Type) where
  id : ℕ
  peer : P
  name : Bytes
  isDirectory : Bool
  destRoot : Bytes
  files : List IncomingFile
  recvFile : ℕ
  bytesDone : ℕ
  filesDone : ℕ
  status : Status
  finished : Bool
  lastActivity : ℕ
  wq : List WriteJob
  queuedBytes : ℕ
  scheduled : Bool
  deriving DecidableEq

structure Offer (P : Type) where
  sender : P
  id : ℕ
  name : Bytes
  size : ℕ
  isDirectory : Bool
  files : List FileEntry
  deriving DecidableEq

structure Progress (P : Type) where
  id : ℕ
  peer : P
  direction : Direction
  status : Status
  bytesTransferred : ℕ
  totalBytes : ℕ
  filesCompleted : ℕ
  totalFiles : ℕ
  deriving DecidableEq

/-- What a handler does besides changing transfers; callbacks name their object. -/
inductive Event (P : Type)
  | sent (peer : P) (message : Bytes)
  | offered (offer : Offer P)
  | progressed (direction : Direction) (ref : ℕ) (progress : Progress P)
  | completed (direction : Direction) (ref : ℕ) (id : ℕ) (success : Bool) (path : Bytes)
  /-- `queue_send`. -/
  | queued (id : ℕ)
  /-- `schedule_writer`. -/
  | scheduled (ref : ℕ)

/-- `FileTransfer`: the objects and the maps that refer to them. -/
structure State (P : Type) where
  outs : List (Outgoing P)
  ins : List (Incoming P)
  outgoing : AList (fun _ : ℕ => ℕ)
  incoming : AList (fun _ : P × ℕ => ℕ)
  hasOfferHandler : Bool
  completed : ℕ
  failed : ℕ

/-! ## The wire -/

/-- The messages of the wire format. -/
inductive Message
  | offer (id : ℕ) (isDir : Bool) (total : ℕ) (name : Bytes) (files : List FileEntry)
  | response (id : ℕ) (accepted : ℕ)
  | chunk (id fidx offset : ℕ) (data : Bytes)
  | fileEnd (id fidx : ℕ) (sha : Bytes)
  | progress (id received : ℕ)
  | complete (id : ℕ) (ok : ℕ)
  | cancel (id : ℕ)
  | pause (id : ℕ)
  | resume (id : ℕ)

/-- `Reader`: what is left of the payload; a read beyond its end fails for good. -/
abbrev Reader := StateT Bytes Option

namespace Reader

def bytes (n : ℕ) : Reader Bytes := fun s =>
  if s.length < n then none else some (s.take n, s.drop n)

/-- `Reader::u8`, `u16`, `u32` and `u64`, by the number of bytes. -/
def uint (w : ℕ) : Reader ℕ := decode <$> bytes w

def rest : Reader Bytes := fun s => some (s, [])

def remaining : Reader ℕ := fun s => some (s.length, s)

end Reader

open Reader

def kMinManifestEntry : ℕ := 2 + 8

/-- The entries of a manifest. -/
def readManifest : ℕ → Reader (List FileEntry)
  | 0 => pure []
  | count + 1 => do
    let plen ← uint 2
    let path ← bytes plen
    let size ← uint 8
    let files ← readManifest count
    return ⟨path, size⟩ :: files

/-- The body of `OFFER`. -/
def readOffer : Reader Message := do
  let id ← uint 8
  let isDir ← uint 1
  let total ← uint 8
  let nlen ← uint 2
  let name ← bytes nlen
  let count ← uint 4
  let remaining ← remaining
  if remaining < count * kMinManifestEntry then failure
  else
    let files ← readManifest count
    return .offer id (isDir ≠ 0) total name files

/-- `RATS_SHA256_HASH_SIZE`. -/
def sha256HashSize : ℕ := 32

/-- The message after its opcode, as the cases of `on_message` read it. -/
def readBody (op : ℕ) : Reader Message :=
  match op with
  | 1 => readOffer
  | 2 => return .response (← uint 8) (← uint 1)
  | 3 => return .chunk (← uint 8) (← uint 4) (← uint 8) (← rest)
  | 4 => return .fileEnd (← uint 8) (← uint 4) (← bytes sha256HashSize)
  | 5 => return .progress (← uint 8) (← uint 8)
  | 6 => return .complete (← uint 8) (← uint 1)
  | 7 => return .cancel (← uint 8)
  | 8 => return .pause (← uint 8)
  | 9 => return .resume (← uint 8)
  | _ => failure

/-- The message of a payload; `none` is a payload that is ignored. -/
def parse (payload : Bytes) : Option Message :=
  ((do readBody (← uint 1)) : Reader Message).run' payload

theorem Reader.bind_some {α β : Type} {m : Reader α} {f : α → Reader β} {s : Bytes} {b : β}
    {s' : Bytes} (h : (m >>= f) s = some (b, s')) :
    ∃ a t, m s = some (a, t) ∧ f a t = some (b, s') := by
  obtain ⟨⟨a, t⟩, hm, hf⟩ := Option.bind_eq_some_iff.mp h
  exact ⟨a, t, hm, hf⟩

theorem Reader.uint_length {w n : ℕ} {s t : Bytes} (h : uint w s = some (n, t)) :
    t.length ≤ s.length := by
  obtain ⟨⟨a, t'⟩, hb, h⟩ := Option.bind_eq_some_iff.mp h
  simp only [bytes] at hb
  split_ifs at hb
  cases hb
  cases h
  simp

theorem parse_chunk_length {payload data : Bytes} {id fidx offset : ℕ}
    (h : parse payload = some (.chunk id fidx offset data)) : data.length ≤ payload.length := by
  obtain ⟨⟨m, t⟩, hm, rfl : m = _⟩ := Option.map_eq_some_iff.mp h
  obtain ⟨op, s₁, h₁, hb⟩ := bind_some hm
  unfold readBody at hb
  split at hb
  case h_1 =>
    iterate 7 obtain ⟨_, _, -, hb⟩ := bind_some hb
    split at hb
    · cases hb
    · obtain ⟨_, _, -, hb⟩ := bind_some hb
      cases hb
  case h_3 =>
    obtain ⟨_, s₂, h₂, hb⟩ := bind_some hb
    obtain ⟨_, s₃, h₃, hb⟩ := bind_some hb
    obtain ⟨_, s₄, h₄, hb⟩ := bind_some hb
    obtain ⟨_, s₅, h₅, hb⟩ := bind_some hb
    cases hb
    cases h₅
    have := uint_length h₁
    have := uint_length h₂
    have := uint_length h₃
    have := uint_length h₄
    omega
  all_goals
    repeat obtain ⟨_, _, -, hb⟩ := bind_some hb
    cases hb

/-! ## Handlers -/

/-- The payload of `OFFER`, in `start_send`. -/
def offerMessage (id : ℕ) (isDirectory : Bool) (total : ℕ) (name : Bytes) (files : List FileEntry) :
    Bytes :=
  1 :: encode 8 id ++ [if isDirectory then 1 else 0] ++ encode 8 total ++ encode 2 name.length ++
    name ++ encode 4 files.length ++
      files.flatMap fun f => encode 2 f.relativePath.length ++ f.relativePath ++ encode 8 f.size

/-- The payload of `CHUNK`, in `run_send`. -/
def chunkMessage (id fidx offset : ℕ) (data : Bytes) : Bytes :=
  3 :: encode 8 id ++ encode 4 fidx ++ encode 8 offset ++ data

/-- The payload of `FILE_END`, in `run_send`. -/
def fileEndMessage (id fidx : ℕ) (sha : Bytes) : Bytes := 4 :: encode 8 id ++ encode 4 fidx ++ sha

/-- The payload of `RESPONSE`. -/
def responseMessage (id : ℕ) (accepted : UInt8) : Bytes := 2 :: encode 8 id ++ [accepted]

/-- The payload of `COMPLETE`, `send_complete`. -/
def completeMessage (id : ℕ) (ok : Bool) : Bytes := 6 :: encode 8 id ++ [if ok then 1 else 0]

/-- The payload of `PROGRESS`. -/
def progressMessage (id received : ℕ) : Bytes := 5 :: encode 8 id ++ encode 8 received

/-- `send_simple`. -/
def simpleMessage (op : UInt8) (id : ℕ) : Bytes := op :: encode 8 id

def isSafeRelativePath (p : Bytes) : Bool :=
  match p with
  | [] => false
  | front :: _ =>
    !isSeparator front && p[1]? ≠ some 58 &&
      (p.splitOnP isSeparator).all fun comp => comp ≠ [] && comp ≠ [46] && comp ≠ [46, 46]

namespace State

variable {P : Type} (s : State P)

def findOutgoing (id : ℕ) : Option ℕ := s.outgoing.lookup id

/-- A change of an outgoing object. -/
def modifyOut (r : ℕ) (f : Outgoing P → Outgoing P) : State P :=
  { s with outs := s.outs.modify r f }

/-- A change of an incoming object. -/
def modifyIn (r : ℕ) (f : Incoming P → Incoming P) : State P :=
  { s with ins := s.ins.modify r f }

/-- `emit_progress` for an outgoing transfer. -/
def outgoingProgress (t : Outgoing P) : Progress P :=
  ⟨t.id, t.peer, .sending, t.status, t.bytesDone, t.totalBytes, t.filesDone, t.files.length⟩

/-- `emit_progress` for an incoming transfer. -/
def incomingProgress (t : Incoming P) : Progress P :=
  ⟨t.id, t.peer, .receiving, t.status, t.bytesDone, (t.files.map (·.size)).sum % 2 ^ 64,
    t.filesDone, t.files.length⟩

/-- The status a transfer ends with. -/
def finalStatus (status : Status) (success : Bool) : Status :=
  if status = .cancelled then status else if success then .completed else .failed

/-- The counters of `Stats` a finished transfer moves. -/
def countFinished (success : Bool) : State P :=
  { s with
    completed := if success then s.completed + 1 else s.completed
    failed := if success then s.failed else s.failed + 1 }

def finishOutgoing (r : ℕ) (success : Bool) : State P × List (Event P) :=
  match s.outs[r]? with
  | none => (s, [])
  | some t =>
    if t.finished then (s, [])
    else
      let t := { t with finished := true, status := finalStatus t.status success }
      let s := { s with outs := s.outs.set r t, outgoing := s.outgoing.erase t.id }
      (s.countFinished success,
        [.progressed .sending r (outgoingProgress t), .completed .sending r t.id success t.root])

variable [DecidableEq P]

def findIncoming (peer : P) (id : ℕ) : Option ℕ := s.incoming.lookup (peer, id)

/-- `FileTransfer::finish_incoming`; the error text only goes to the log. -/
def finishIncoming (r : ℕ) (success : Bool) (_error : String) : State P × List (Event P) :=
  match s.ins[r]? with
  | none => (s, [])
  | some t =>
    if t.finished then (s, [])
    else
      let t := { t with finished := true, status := finalStatus t.status success }
      let s := { s with ins := s.ins.set r t, incoming := s.incoming.erase (t.peer, t.id) }
      (s.countFinished success,
        [.progressed .receiving r (incomingProgress t),
          .completed .receiving r t.id success t.destRoot])

variable (sender : P)

def reject (id : ℕ) : State P × List (Event P) :=
  ({ s with incoming := s.incoming.erase (sender, id) },
    .sent sender (responseMessage id 0) :: match s.findIncoming sender id with
      | none => []
      | some r => [.completed .receiving r id false []])

/-- The object of a new offer. -/
def newIncoming (id : ℕ) (isDir : Bool) (name : Bytes) (files : List FileEntry)
    (now : ℕ) : Incoming P where
  id := id
  peer := sender
  name := name
  isDirectory := isDir
  destRoot := []
  files := files.map fun f => ⟨f.relativePath, f.size, [], [], 0, 0, false, false⟩
  recvFile := 0
  bytesDone := 0
  filesDone := 0
  status := .pending
  finished := false
  lastActivity := now
  wq := []
  queuedBytes := 0
  scheduled := false

def handleOffer (id : ℕ) (isDir : Bool) (total : ℕ) (name : Bytes)
    (files : List FileEntry) (now : ℕ) : State P × List (Event P) :=
  if (s.findIncoming sender id).isSome then (s, [])
  else if isDir && files.any (fun f => !isSafeRelativePath f.relativePath) then
    (s, [.sent sender (responseMessage id 0)])
  else
    let s := { s with
      ins := s.ins ++ [newIncoming sender id isDir name files now]
      incoming := s.incoming.insert (sender, id) s.ins.length }
    if s.hasOfferHandler then (s, [.offered ⟨sender, id, name, total, isDir, files⟩])
    else s.reject sender id

/-- What a chunk or a file end does to its transfer: an error, or a job for the disk writer and
whether the writer has to be scheduled. -/
abbrev Accepts (P : Type) := Except String (Incoming P)

/-- The checks of `handle_chunk` and the job it queues. -/
def queueChunk (t : Incoming P) (fidx offset : ℕ) (data : Bytes) (now : ℕ) : Accepts P :=
  match t.files[fidx]? with
  | none => .error "out-of-order file index"
  | some f =>
    if fidx ≠ t.recvFile then .error "out-of-order file index"
    else if offset ≠ f.enqueued then .error "out-of-order chunk offset"
    else if f.size < (offset + data.length) % 2 ^ 64 then .error "chunk exceeds declared file size"
    else
      .ok { t with
        files := t.files.set fidx { f with enqueued := (f.enqueued + data.length) % 2 ^ 64 }
        queuedBytes := (t.queuedBytes + data.length) % 2 ^ 64
        lastActivity := now
        wq := t.wq ++ [⟨fidx, offset, data, false, List.replicate sha256HashSize 0⟩]
        scheduled := true }

/-- The checks of `handle_file_end` and the job it queues. -/
def queueFileEnd (t : Incoming P) (fidx : ℕ) (sha : Bytes) : Accepts P :=
  if fidx ≠ t.recvFile then .error "file-end out of order"
  else
    match t.files[fidx]? with
    | none => .error "file-end out of order"
    | some f =>
      if f.enqueued ≠ f.size then .error "file-end before all data"
      else
        .ok { t with
          wq := t.wq ++ [⟨fidx, 0, [], true, sha⟩]
          recvFile := t.recvFile + 1
          scheduled := true }

/-- The end of `handle_chunk` and `handle_file_end`: an error ends the transfer, a queued job
schedules the writer unless it is scheduled. -/
def settle (id r : ℕ) (t : Incoming P) : Accepts P → State P × List (Event P)
  | .error fail =>
    let f := s.finishIncoming r false fail
    (f.1, .sent sender (completeMessage id false) :: f.2)
  | .ok t' => (s.modifyIn r fun _ => t', if t.scheduled then [] else [.scheduled r])

def handleChunk (id fidx offset : ℕ) (data : Bytes) (now : ℕ) : State P × List (Event P) :=
  match s.findIncoming sender id with
  | none => (s, [])
  | some r =>
    match s.ins[r]? with
    | none => (s, [])
    | some t =>
      if t.finished then (s, [])
      else if t.status ≠ .active ∧ t.status ≠ .paused then (s, [])
      else s.settle sender id r t (queueChunk t fidx offset data now)

def handleFileEnd (id fidx : ℕ) (sha : Bytes) : State P × List (Event P) :=
  match s.findIncoming sender id with
  | none => (s, [])
  | some r =>
    match s.ins[r]? with
    | none => (s, [])
    | some t =>
      if t.finished || t.files.length ≤ fidx then (s, [])
      else s.settle sender id r t (queueFileEnd t fidx sha)

omit [DecidableEq P] in
/-- The part of `on_message` that looks for an outgoing transfer. -/
def outgoingPart (m : Message) (now : ℕ) : State P × List (Event P) :=
  match m with
  | .response id accepted =>
    match s.findOutgoing id with
    | none => (s, [])
    | some r =>
      if accepted = 0 then s.finishOutgoing r false
      else
        (s.modifyOut r fun t => { t with
          status := if t.status = .pending then .active else t.status
          lastActivity := now }, [.queued id])
  | .progress id received =>
    match s.findOutgoing id with
    | none => (s, [])
    | some r => (s.modifyOut r fun t => { t with acked := received, lastActivity := now }, [])
  | .complete id ok =>
    match s.findOutgoing id with
    | none => (s, [])
    | some r => s.finishOutgoing r (ok ≠ 0)
  | .cancel id =>
    match s.findOutgoing id with
    | none => (s, [])
    | some r => (s.modifyOut r fun t => { t with status := .cancelled }).finishOutgoing r false
  | .pause id =>
    match s.findOutgoing id with
    | none => (s, [])
    | some r =>
      (s.modifyOut r fun t => if t.status = .active then { t with status := .paused } else t, [])
  | .resume id =>
    match s.findOutgoing id with
    | none => (s, [])
    | some r =>
      (s.modifyOut r fun t =>
        if t.status = .paused then { t with status := .active, lastActivity := now } else t,
        if (s.outs[r]?).any (·.status = .paused) then [.queued id] else [])
  | _ => (s, [])

/-- The part of `on_message` that looks for an incoming transfer. -/
def incomingPart (m : Message) (now : ℕ) : State P × List (Event P) :=
  match m with
  | .offer id isDir total name files => s.handleOffer sender id isDir total name files now
  | .chunk id fidx offset data => s.handleChunk sender id fidx offset data now
  | .fileEnd id fidx sha => s.handleFileEnd sender id fidx sha
  | .cancel id =>
    match s.findIncoming sender id with
    | none => (s, [])
    | some r =>
      (s.modifyIn r fun t => { t with status := .cancelled }).finishIncoming r false
        "cancelled by peer"
  | .pause id =>
    match s.findIncoming sender id with
    | none => (s, [])
    | some r =>
      (s.modifyIn r fun t => if t.status = .active then { t with status := .paused } else t, [])
  | .resume id =>
    match s.findIncoming sender id with
    | none => (s, [])
    | some r =>
      (s.modifyIn r fun t =>
        if t.status = .paused then { t with status := .active, lastActivity := now } else t, [])
  | _ => (s, [])

def onMessage (payload : Bytes) (now : ℕ) : State P × List (Event P) :=
  match parse payload with
  | none => (s, [])
  | some m =>
    let o := s.outgoingPart m now
    let i := o.1.incomingPart sender m now
    (i.1, o.2 ++ i.2)

end State

end Librats.FileTransfer
