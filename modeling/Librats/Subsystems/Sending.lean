import Librats.Foundations.Objects
import Librats.Subsystems.FileTransfer

/-!
# Sending files

The sending side of `FileTransfer` with all its threads: every critical section and every message is
one step. The number of workers is not bounded. What is read of a source file is input; whether its
stream is open already is left out, since a read can fail either way.
-/

namespace Librats.FileTransfer

/-! ## The state -/

/-- `FileTransfer::Outgoing` with `worker_active` and what `hash` has taken in. -/
structure Upload (P : Type) where
  t : Outgoing P
  workerActive : Bool
  hashed : Bytes

namespace Upload

/-- What is seen of an outgoing transfer. -/
inductive Note (P : Type)
  | sent (peer : P) (message : Bytes)
  /-- The transfer ends. -/
  | ended (success cancelled : Bool)
  | progressed (progress : Progress P)
  /-- `complete_handler_`. -/
  | completed (id : ℕ) (success : Bool) (path : Bytes)
  deriving DecidableEq

/-- The next step of a thread on an outgoing transfer it holds. -/
inductive Section
  /-- `start_send`, after its critical section. -/
  | offer (message : Bytes)
  /-- The cases of `on_message`. -/
  | response
  | progress (received : ℕ)
  | peerCancel
  | peerPause
  | peerResume
  | cancel
  | pause
  | resume
  /-- `maintenance_loop`. -/
  | expire
  /-- `queue_send`. -/
  | queueSend
  /-- `finish_outgoing`; a worker leaves `run_send` afterwards. -/
  | finish (success back : Bool)
  | unlist (success back : Bool)
  | report (success back : Bool)
  /-- `worker_loop`, when it has found the transfer. -/
  | claim
  /-- `run_send`: the head of the loop. -/
  | look
  | sendEmpty (fidx : ℕ)
  | countEmpty
  | read (fidx offset size : ℕ)
  | count (fidx size : ℕ) (data : Bytes)
  | sendEnd (fidx : ℕ) (digest : Bytes)
  | emit
  /-- The wait for the window. -/
  | window
  /-- `worker_loop`, after `run_send`. -/
  | release
  deriving DecidableEq

/-- What the system gives: what is read of the source file, if that succeeds, and the clock in
nanoseconds. -/
structure Reading where
  data : Option Bytes
  now : ℕ

/-- What a section leaves behind. -/
structure Done (P : Type) where
  upload : Upload P
  notes : List (Note P)
  next : List Section

/-! ## Sections -/

/-- Where a thread goes on after `finish_outgoing`. -/
def leave (back : Bool) : List Section := if back then [.release] else []

variable {P : Type} (cfg : Config) (sha256 : Bytes → Bytes) (x : Upload P)

/-- The critical section of `finish_outgoing`. -/
def finish (success back : Bool) : Done P :=
  if x.t.finished then ⟨x, [], leave back⟩
  else
    ⟨{ x with t := { x.t with finished := true, status := State.finalStatus x.t.status success } },
      [.ended success (x.t.status = .cancelled)], [.unlist success back]⟩

/-- The head of the loop of `run_send`. -/
def look : Done P :=
  if x.t.status ≠ .active then ⟨x, [], [.release]⟩
  else
    match x.t.files[x.t.curFile]? with
    | none => ⟨x, [], [.release]⟩
    | some f =>
      ⟨{ x with hashed := if x.t.curOffset = 0 then [] else x.hashed }, [],
        [if f.size = 0 then .sendEmpty x.t.curFile else .read x.t.curFile x.t.curOffset f.size]⟩

/-- A chunk is read and sent. -/
def read (fidx offset size : ℕ) (data : Option Bytes) : Done P :=
  match data with
  | some bytes =>
    if bytes.length = min cfg.chunkSize (size - offset) then
      ⟨x, [.sent x.t.peer (chunkMessage x.t.id fidx offset bytes)], [.count fidx size bytes]⟩
    else ⟨x, [.sent x.t.peer (completeMessage x.t.id false)], [.finish false true]⟩
  | none => ⟨x, [.sent x.t.peer (completeMessage x.t.id false)], [.finish false true]⟩

/-- A chunk that was sent is counted. -/
def count (fidx size : ℕ) (data : Bytes) (now : ℕ) : Done P :=
  let hashed := x.hashed ++ data
  let t := { x.t with
    curOffset := x.t.curOffset + data.length
    bytesDone := (x.t.bytesDone + data.length) % 2 ^ 64
    lastActivity := now }
  if size ≤ t.curOffset then
    ⟨⟨{ t with curFile := t.curFile + 1, curOffset := 0, filesDone := (t.filesDone + 1) % 2 ^ 32 },
      x.workerActive, hashed⟩, [], [.sendEnd fidx (sha256 hashed)]⟩
  else ⟨⟨t, x.workerActive, hashed⟩, [], [.emit]⟩

/-- The bytes that are counted and not acked, as the code computes them. -/
def unacked : ℕ := (x.t.bytesDone + 2 ^ 64 - x.t.acked) % 2 ^ 64

/-- A section on an outgoing transfer. `queueSend` and `unlist` are steps on the queue and on the
map. -/
def exec (i : Reading) : Section → Done P
  | .offer message => ⟨x, [.sent x.t.peer message], []⟩
  | .response =>
    ⟨{ x with t := { x.t with
        status := if x.t.status = .pending then .active else x.t.status, lastActivity := i.now } },
      [], [.queueSend]⟩
  | .progress received =>
    ⟨{ x with t := { x.t with acked := received, lastActivity := i.now } }, [], []⟩
  | .peerCancel => ⟨{ x with t := { x.t with status := .cancelled } }, [], [.finish false false]⟩
  | .peerPause =>
    ⟨{ x with t := if x.t.status = .active then { x.t with status := .paused } else x.t }, [], []⟩
  | .peerResume =>
    if x.t.status = .paused then
      ⟨{ x with t := { x.t with status := .active, lastActivity := i.now } }, [], [.queueSend]⟩
    else ⟨x, [], []⟩
  | .cancel =>
    if x.t.finished then ⟨x, [], []⟩
    else
      ⟨{ x with t := { x.t with status := .cancelled } },
        [.sent x.t.peer (simpleMessage 7 x.t.id)], [.finish false false]⟩
  | .pause =>
    if x.t.status = .active then
      ⟨{ x with t := { x.t with status := .paused } }, [.sent x.t.peer (simpleMessage 8 x.t.id)], []⟩
    else ⟨x, [], []⟩
  | .resume =>
    if x.t.status = .paused then
      ⟨{ x with t := { x.t with status := .active, lastActivity := i.now } },
        [.sent x.t.peer (simpleMessage 9 x.t.id)], [.queueSend]⟩
    else ⟨x, [], []⟩
  | .expire =>
    if !x.t.finished && x.t.status ≠ .paused &&
        cfg.transferTimeoutSecs < (i.now - x.t.lastActivity) / 10 ^ 9 then
      ⟨x, [.sent x.t.peer (completeMessage x.t.id false)], [.finish false false]⟩
    else ⟨x, [], []⟩
  | .queueSend => ⟨x, [], []⟩
  | .finish success back => x.finish success back
  | .unlist _ _ => ⟨x, [], []⟩
  | .report success back =>
    ⟨x, [.progressed (State.outgoingProgress x.t), .completed x.t.id success x.t.root], leave back⟩
  | .claim =>
    -- another worker owns it
    if x.workerActive then ⟨x, [], []⟩ else ⟨{ x with workerActive := true }, [], [.look]⟩
  | .look => x.look
  | .sendEmpty fidx => ⟨x, [.sent x.t.peer (fileEndMessage x.t.id fidx (sha256 []))], [.countEmpty]⟩
  | .countEmpty =>
    ⟨{ x with t := { x.t with
        curFile := x.t.curFile + 1, curOffset := 0, filesDone := (x.t.filesDone + 1) % 2 ^ 32 } },
      [], [.look]⟩
  | .read fidx offset size => x.read cfg fidx offset size i.data
  | .count fidx size data => x.count sha256 fidx size data i.now
  | .sendEnd fidx digest => ⟨x, [.sent x.t.peer (fileEndMessage x.t.id fidx digest)], [.emit]⟩
  | .emit => ⟨x, [.progressed (State.outgoingProgress x.t)], [.window]⟩
  | .window =>
    if x.t.status = .active ∧ cfg.windowBytes ≤ x.unacked then ⟨x, [], [.window]⟩
    else ⟨x, [], [.look]⟩
  | .release => ⟨{ x with workerActive := false }, [], []⟩

end Upload

/-! ## The whole sending side -/

/-- What the sending side shares: `outgoing_`, `send_queue_` and `next_id_`. -/
structure Sender where
  outgoing : AList (fun _ : ℕ => ℕ)
  queue : List ℕ
  nextId : ℕ

namespace Sender

open Objects

/-- A thread that holds no transfer: `find_outgoing`, and what is done with the transfer. -/
inductive Seeker
  | find (id : ℕ) (sec : Upload.Section)

/-- What comes from outside: messages, calls of the application, and thread loops. -/
inductive Call (P : Type)
  /-- `start_send`, with what `send_file` and `send_directory` have found. -/
  | send (peer : P) (root name : Bytes) (isDirectory : Bool) (files : List FileEntry) (now : ℕ)
  | message (payload : Bytes)
  | cancel (id : ℕ)
  | pause (id : ℕ)
  | resume (id : ℕ)
  /-- The handler of `on_peer_disconnected`. -/
  | disconnect (peer : P)
  /-- A pass of `maintenance_loop`. -/
  | maintain
  /-- `worker_loop`: a worker takes the next id. -/
  | take

abbrev Thread := Point Upload.Section Seeker

variable {P : Type}

/-- What a step leaves that is not a section. -/
abbrev Outcome (P : Type) := Free (Upload P) Sender Upload.Section Seeker (Upload.Note P)

/-- The threads that handle a message. -/
def messageThreads : Message → List Thread
  | .response id accepted =>
    [.free (.find id (if accepted = 0 then .finish false false else .response))]
  | .progress id received => [.free (.find id (.progress received))]
  | .complete id ok => [.free (.find id (.finish (ok ≠ 0) false))]
  | .cancel id => [.free (.find id .peerCancel)]
  | .pause id => [.free (.find id .peerPause)]
  | .resume id => [.free (.find id .peerResume)]
  | .offer _ _ _ _ _ | .chunk _ _ _ _ | .fileEnd _ _ _ => []

/-- The object of a new offer. -/
def newOutgoing (id : ℕ) (peer : P) (root : Bytes) (files : List FileEntry) (now : ℕ) :
    Outgoing P where
  id := id
  peer := peer
  root := root
  files := files
  totalBytes := (files.map (·.size)).sum % 2 ^ 64
  curFile := 0
  curOffset := 0
  bytesDone := 0
  acked := 0
  filesDone := 0
  status := .pending
  finished := false
  lastActivity := now

variable (cfg : Config) (sha256 : Bytes → Bytes)

/-- A section on transfer `r`. -/
def sect (_ : ℕ) (x : Upload P) (g : Sender) (i : Upload.Reading) (sec : Upload.Section) :
    Objects.Done (Upload P) Sender Upload.Section (Upload.Note P) :=
  match sec with
  | .queueSend => ⟨x, { g with queue := g.queue ++ [x.t.id] }, [], []⟩
  | .unlist success back =>
    ⟨x, { g with outgoing := g.outgoing.erase x.t.id }, [], [.report success back]⟩
  | sec =>
    let d := x.exec cfg sha256 i sec
    ⟨d.upload, g, d.notes, d.next⟩

omit cfg sha256 in
/-- A step of a thread that holds no transfer. -/
def seek (st : Store (Upload P) Sender) : Seeker → Upload.Reading → Option (Outcome P)
  | .find id sec, _ =>
    some ⟨st.globals, [], [], (st.globals.outgoing.lookup id).toList.map fun r => .on r sec⟩

omit cfg sha256 in
/-- What comes from outside. The counter of ids does not run out. -/
def call [DecidableEq P] (st : Store (Upload P) Sender) (_ : List Thread) :
    Call P → Option (Outcome P)
  | .send peer root name isDirectory files now =>
    let g := st.globals
    if g.nextId + 1 < 2 ^ 64 then
      let t := newOutgoing g.nextId peer root files now
      some ⟨{ g with
          outgoing := g.outgoing.insert g.nextId st.objects.length, nextId := g.nextId + 1 },
        [⟨t, false, []⟩], [],
        [.on st.objects.length (.offer (offerMessage t.id isDirectory t.totalBytes name files))]⟩
    else none
  | .message payload => some ⟨st.globals, [], [], (parse payload).elim [] messageThreads⟩
  | .cancel id => some ⟨st.globals, [], [], [.free (.find id .cancel)]⟩
  | .pause id => some ⟨st.globals, [], [], [.free (.find id .pause)]⟩
  | .resume id => some ⟨st.globals, [], [], [.free (.find id .resume)]⟩
  | .disconnect peer =>
    some ⟨st.globals, [], [],
      (st.globals.outgoing.entries.filter fun e =>
        (st.objects[e.2]?).any fun x => x.t.peer = peer).map fun e => .on e.2 (.finish false false)⟩
  | .maintain =>
    some ⟨st.globals, [], [], st.globals.outgoing.entries.map fun e => .on e.2 .expire⟩
  | .take =>
    match st.globals.queue with
    | [] => none
    | id :: rest =>
      some ⟨{ st.globals with queue := rest }, [], [], [.free (.find id .claim)]⟩

/-- The sending side as a program on its transfers. -/
def code [DecidableEq P] :
    Code (Upload P) Sender Upload.Section Seeker Upload.Reading (Call P) (Upload.Note P) :=
  ⟨sect cfg sha256, seek, call⟩

/-- The sending side as a program of threads. -/
abbrev program [DecidableEq P] := (code (P := P) cfg sha256).program

/-- The whole sending side with its threads and what has been seen. -/
abbrev Snapshot (P : Type) :=
  Objects.Snapshot (Upload P) Sender Upload.Section Seeker (Upload.Note P)

abbrev Move (P : Type) := Interleaving.Move Upload.Reading (Call P)

/-- A node that has just started. -/
def start : Snapshot P := ⟨⟨[], ∅, [], 1⟩, [], []⟩

/-! ## Runs by their steps -/

/-- The thread at a place goes on for some steps, and nothing can be read. -/
def goesOn (k steps : ℕ) : List (Move ℕ) := List.replicate steps (.exec k ⟨none, 0⟩)

/-- A node that offers a file of five bytes to a peer that accepts it. -/
def runFrom (test : Snapshot ℕ → Move ℕ → Bool) (moves : List (Move ℕ)) : Option (Snapshot ℕ) :=
  (program .plain fun _ => List.replicate 32 0).run test start
    (.call (.send 9 [] [102] false [⟨[102], 5⟩] 0) :: goesOn 0 1 ++
      .call (.message (responseMessage 1 1)) :: goesOn 0 3 ++ moves)

end Sender

end Librats.FileTransfer
