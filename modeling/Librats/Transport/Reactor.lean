import Librats.Foundations.AssocList
import Librats.Security.Handshaker
import Librats.Wire.Frame

/-!
# The reactor and its connections

`Reactor` (`transport/reactor.cpp`) and `Connection` (`transport/connection.cpp`) as functions on
the state of the reactor. A callback of the delegate answers with the calls it makes on the reactor,
which only mark, queue or write.

What the outside world decides is an input. Queue and buffer sizes and poll interest do not appear.
The log is a ghost: it records, newest first, what happened to connections.
-/

namespace Librats

open Framer

/-- `Connection`; its socket is the key it is stored under. -/
structure Connection (H S I : Type) where
  id : ConnId
  role : ConnRole
  state : ConnState
  closeReason : CloseReason
  handshaker : Option H
  session : Option S
  remoteId : I
  rx : Bytes
  establishTimer : Option TimerId
  dialHost : Bytes
  dialPort : ℕ
  deriving DecidableEq

/-- What a callback or a posted task asks for. A connection is closed by the reactor it is on. -/
inductive Action
  | close (reactor : ℕ) (id : ConnId) (reason : CloseReason)
  | send (id : ConnId) (header : FrameHeader) (payload : Bytes)
  deriving DecidableEq

/-- `ConnectionDelegate`, with its own state `σ`. -/
structure Delegate (σ H S I : Type) where
  admitInbound : σ → Bool
  onEstablished : σ → Connection H S I → σ × List Action
  onFrame : σ → Connection H S I → Frame → σ × List Action
  onClosed : σ → Connection H S I → CloseReason → σ × List Action

/-- The fate of a write: taken or queued, beyond the high-water mark, or an error. -/
inductive WriteResult
  | queued
  | overHighWater
  | reset
  deriving DecidableEq

/-- What a reactor is built with, and the fate of its `n`-th write. -/
structure Setup (σ H S I : Type) where
  index : ℕ
  security : SecurityProvider H S I
  delegate : Delegate σ H S I
  kernel : ℕ → WriteResult

/-- What happens to connections. -/
inductive Event
  | adopted (id : ConnId) (sock : Socket)
  | closeCalled (id : ConnId)
  | handlerFailed (id : ConnId)
  | timerFired (id : ConnId)
  | removed (id : ConnId)
  deriving DecidableEq

/-- The establish timer of a connection, with the socket its closure captured. -/
structure EstablishTimer where
  sock : Socket
  owner : ConnId
  deriving DecidableEq

structure Reactor (σ H S I : Type) where
  delegate : σ
  conns : AList (fun _ : Socket => Connection H S I)
  idToSocket : AList (fun _ : ConnId => Socket)
  pendingClose : AList (fun _ : Socket => CloseReason)
  timers : AList (fun _ : TimerId => EstablishTimer)
  nextConnId : ConnId
  nextTimerId : TimerId
  writes : ℕ
  log : List Event

namespace Reactor

variable {σ H S I : Type}

/-- A reactor that has not run. -/
def new (d : σ) : Reactor σ H S I := ⟨d, ∅, ∅, ∅, ∅, 1, 1, 0, []⟩

variable (r : Reactor σ H S I)

def record (e : Event) : Reactor σ H S I := { r with log := e :: r.log }

/-- A change of the connection on a socket. -/
def modifyConn (sock : Socket) (f : Connection H S I → Connection H S I) : Reactor σ H S I :=
  match r.conns.lookup sock with
  | none => r
  | some c => { r with conns := r.conns.insert sock (f c) }

/-- `Reactor::mark_for_close`: the first reason wins. -/
def markForClose (sock : Socket) (reason : CloseReason) : Reactor σ H S I :=
  if sock ∈ r.pendingClose then r
  else { r with pendingClose := r.pendingClose.insert sock reason }

/-- `Reactor::close`, on the reactor thread. -/
def close (id : ConnId) (reason : CloseReason) : Reactor σ H S I :=
  match r.idToSocket.lookup id with
  | none => r.record (.closeCalled id)
  | some sock => (r.record (.closeCalled id)).markForClose sock reason

/-- `Connection::fail`. -/
def fail (sock : Socket) (reason : CloseReason) : Reactor σ H S I :=
  r.modifyConn sock fun c => { c with closeReason := reason, state := .closing }

/-- `Connection::cancel_establish_timer`. -/
def cancelEstablishTimer (sock : Socket) : Reactor σ H S I :=
  match (r.conns.lookup sock).bind (·.establishTimer) with
  | none => r
  | some tid =>
    { r.modifyConn sock fun c => { c with establishTimer := none } with
      timers := r.timers.erase tid }

variable (w : Setup σ H S I) (r : Reactor σ H S I)

/-- `Connection::flush`. -/
def flush (sock : Socket) : Reactor σ H S I × Bool :=
  if w.kernel r.writes = .reset then
    ({ r with writes := r.writes + 1 }.fail sock .peerReset, false)
  else ({ r with writes := r.writes + 1 }, true)

/-- `flush` if there is something to send. -/
def flushOut (sock : Socket) (out : Bytes) : Reactor σ H S I × Bool :=
  if out = [] then (r, true) else r.flush w sock

/-- `Connection::send` of the connection `id`, if there is one. -/
def send (id : ConnId) (header : FrameHeader) (payload : Bytes) : Reactor σ H S I :=
  match r.idToSocket.lookup id with
  | none => r
  | some sock =>
    match r.conns.lookup sock with
    | none => r
    | some c =>
      match c.session with
      | none => r
      | some s =>
        if c.state ≠ .established then r
        else
          match w.security.encrypt s (encodeMessage header payload) with
          | (none, s) =>
            (r.modifyConn sock fun c => { c with session := some s }).close id .protocolError
          | (some _, s) =>
            let r := r.modifyConn sock fun c => { c with session := some s }
            if w.kernel r.writes = .overHighWater then
              ({ r with writes := r.writes + 1 }.fail sock .slowConsumer).close id .slowConsumer
            else
              match r.flush w sock with
              | (r, true) => r
              | (r, false) => r.close id .peerReset

/-- One call a callback makes; other reactors perform the closes that go to them. -/
def act : Action → Reactor σ H S I
  | .close k id reason => if k = w.index then r.close id reason else r
  | .send id header payload => r.send w id header payload

/-- The calls a callback makes. -/
def perform (actions : List Action) : Reactor σ H S I :=
  actions.foldl (act w) r

/-- A callback of the delegate. -/
def callback (f : σ → σ × List Action) : Reactor σ H S I :=
  { r with delegate := (f r.delegate).1 }.perform w (f r.delegate).2

/-! ## Handshake and frames -/

/-- `Connection::begin_handshake`. -/
def beginHandshake (sock : Socket) : Reactor σ H S I :=
  match r.conns.lookup sock with
  | none => r
  | some c =>
    match w.security.start (w.security.create c.id c.role) with
    | (none, hk) =>
      (r.modifyConn sock fun c => { c with state := .handshaking, handshaker := some hk }).close
        c.id .handshakeFailed
    | (some out, hk) =>
      match (r.modifyConn sock fun c =>
        { c with state := .handshaking, handshaker := some hk }).flushOut w sock out with
      | (r, true) => r
      | (r, false) => r.close c.id .peerReset

/-- `Connection::complete_established`. -/
def completeEstablished (sock : Socket) : Reactor σ H S I :=
  let r := (r.modifyConn sock fun c => { c with state := .established }).cancelEstablishTimer sock
  match r.conns.lookup sock with
  | none => r
  | some c => r.callback w fun d => w.delegate.onEstablished d c

/-- `Connection::drive_handshake`; false asks for teardown. -/
def driveHandshake (sock : Socket) (hk : H) (body : Bytes) : Reactor σ H S I × Bool :=
  match w.security.consume hk body with
  | ((.failed, _), hk) =>
    ((r.modifyConn sock fun c => { c with handshaker := some hk }).fail sock .handshakeFailed,
      false)
  | ((.needMore, out), hk) =>
    (r.modifyConn sock fun c => { c with handshaker := some hk }).flushOut w sock out
  | ((.done s remote, out), hk) =>
    match (r.modifyConn sock fun c => { c with handshaker := some hk }).flushOut w sock out with
    | (r, false) => (r, false)
    | (r, true) =>
      ((r.modifyConn sock fun c =>
        { c with session := some s, remoteId := remote, handshaker := none }).completeEstablished w
          sock, true)

/-- `Connection::deliver_frame`; false asks for teardown. -/
def deliverFrame (sock : Socket) (c : Connection H S I) (body : Bytes) : Reactor σ H S I × Bool :=
  match c.session with
  | none => (r.fail sock .protocolError, false)
  | some s =>
    match w.security.decrypt s body with
    | (none, s) =>
      ((r.modifyConn sock fun c => { c with session := some s }).fail sock .protocolError, false)
    | (some plain, s) =>
      match parseMessage plain with
      | none =>
        ((r.modifyConn sock fun c => { c with session := some s }).fail sock .protocolError, false)
      | some frame =>
        ((r.modifyConn sock fun c => { c with session := some s }).callback w fun d =>
          w.delegate.onFrame d { c with session := some s } frame, true)

/-- One block, by the state of its connection. -/
def processBlock (sock : Socket) (c : Connection H S I) (body : Bytes) : Reactor σ H S I × Bool :=
  match c.state, c.handshaker with
  | .handshaking, some hk => r.driveHandshake w sock hk body
  | _, _ => r.deliverFrame w sock c body

/-- The connection on a socket is being closed. -/
def isClosing (sock : Socket) : Bool :=
  (r.conns.lookup sock).any fun c => c.state = .closing ∨ c.state = .closed

/-- What is left in the receive buffer. -/
def setRx (sock : Socket) (rx : Bytes) : Reactor σ H S I :=
  r.modifyConn sock fun c => { c with rx := rx }

/-- `Connection::process_blocks`; false asks for teardown. -/
def processBlocks (r : Reactor σ H S I) (sock : Socket) (rx : Bytes) : Reactor σ H S I × Bool :=
  match _h : tryTakeBlock rx with
  | .incomplete _ => (r.setRx sock rx, true)
  | .error => ((r.fail sock .protocolError).setRx sock rx, false)
  | .ok consumed body =>
    match r.conns.lookup sock with
    | none => (r, false)
    | some c =>
      match r.processBlock w sock c body with
      | (r, false) => (r.setRx sock (rx.drop consumed), false)
      | (r, true) =>
        if r.isClosing sock then (r.setRx sock (rx.drop consumed), false)
        else r.processBlocks sock (rx.drop consumed)
termination_by rx.length
decreasing_by
  have := tryTakeBlock_bounds ‹_›
  rw [List.length_drop]
  omega

/-! ## Socket events -/

/-- What `recv` returns; a list of them ends where the loop finds the socket drained. -/
inductive Recv
  | data (bytes : Bytes)
  | eof
  | error
  deriving DecidableEq

/-- `Connection::on_readable`; false asks for teardown. -/
def onReadable (r : Reactor σ H S I) (sock : Socket) : List Recv → Reactor σ H S I × Bool
  | [] => (r, true)
  | .data bytes :: rest =>
    match r.conns.lookup sock with
    | none => (r, false)
    | some c =>
      match r.processBlocks w sock (c.rx ++ bytes) with
      | (r, false) => (r, false)
      | (r, true) => r.onReadable sock rest
  | .eof :: _ =>
    match r.conns.lookup sock with
    | none => (r, false)
    | some c =>
      match r.processBlocks w sock c.rx with
      | (r, false) => (r, false)
      | (r, true) => (r.fail sock .peerClosed, false)
  | .error :: _ => (r.fail sock .peerReset, false)

/-- `Connection::on_writable`; a connect in flight has come to its result. -/
def onWritable (sock : Socket) (connected : Bool) : Reactor σ H S I × Bool :=
  match r.conns.lookup sock with
  | none => (r, false)
  | some c =>
    if c.state ≠ .connecting then r.flush w sock
    else if connected = false then (r.fail sock .connectFailed, false)
    else
      let r := r.beginHandshake w sock
      if (r.conns.lookup sock).any (·.state = .closing) then (r, false) else r.flush w sock

/-- The flags of a poll result with what the calls on the socket will return. -/
structure PollResult where
  failed : Bool
  readable : Option (List Recv)
  writable : Option Bool
  deriving DecidableEq

section

variable (r : Reactor σ H S I) (sock : Socket)

/-- `on_readable` if the socket polls readable. -/
def readIfReady : Option (List Recv) → Reactor σ H S I × Bool
  | none => (r, true)
  | some recvs => r.onReadable w sock recvs

/-- The handlers `handle_event` runs; false asks for teardown. -/
def runHandlers (ev : PollResult) : Reactor σ H S I × Bool :=
  if ev.failed then (r.fail sock .peerReset, false)
  else
    match r.readIfReady w sock ev.readable with
    | (r, false) => (r, false)
    | (r, true) =>
      match ev.writable with
      | none => (r, true)
      | some connected => r.onWritable w sock connected

/-- `Reactor::handle_event` of a connection. -/
def handleEvent (ev : PollResult) : Reactor σ H S I :=
  match r.conns.lookup sock with
  | none => r
  | some _ =>
    if r.isClosing sock then r
    else
      match r.runHandlers w sock ev with
      | (r, true) => r
      | (r, false) =>
        match r.conns.lookup sock with
        | none => r
        | some c => (r.record (.handlerFailed c.id)).markForClose sock c.closeReason

end

/-! ## Adoption and teardown -/

variable [Zero I]

omit w in
def adopt (r : Reactor σ H S I) (sock : Socket) (role : ConnRole) (host : Bytes) (port : ℕ) :
    Reactor σ H S I :=
  { r with
    conns := r.conns.insert sock
      ⟨r.nextConnId, role, .connecting, .peerClosed, none, none, 0, [], some r.nextTimerId, host,
        port⟩
    idToSocket := r.idToSocket.insert r.nextConnId sock
    timers := r.timers.insert r.nextTimerId ⟨sock, r.nextConnId⟩
    nextConnId := r.nextConnId + 1
    nextTimerId := r.nextTimerId + 1
    log := .adopted r.nextConnId sock :: r.log }

/-- A pass of the loop of `Reactor::do_accept`. -/
def doAccept (r : Reactor σ H S I) (sock : Socket) : Reactor σ H S I :=
  if w.delegate.admitInbound r.delegate then (r.adopt sock .inbound [] 0).beginHandshake w sock
  else r

omit w [Zero I] in
/-- The closure of an establish timer, when it is due. -/
def fireTimer (r : Reactor σ H S I) (tid : TimerId) : Reactor σ H S I :=
  match r.timers.lookup tid with
  | none => r
  | some timer =>
    let r := { r with timers := r.timers.erase tid }.record (.timerFired timer.owner)
    match r.conns.lookup timer.sock with
    | none => r
    | some c =>
      match c.state with
      | .connecting => r.markForClose timer.sock .connectFailed
      | .handshaking => r.markForClose timer.sock .handshakeFailed
      | _ => r

omit [Zero I] in
def remove (r : Reactor σ H S I) (sock : Socket) (reason : CloseReason) : Reactor σ H S I :=
  match r.conns.lookup sock with
  | none => r
  | some c =>
    let r := r.cancelEstablishTimer sock
    { r with
      conns := r.conns.erase sock
      idToSocket := r.idToSocket.erase c.id
      log := .removed c.id :: r.log }.callback w fun d => w.delegate.onClosed d c reason

omit [Zero I] in
/-- `Reactor::process_pending_close`, which walks the marks in some order. -/
def processPendingClose (r : Reactor σ H S I) (batch : List (Socket × CloseReason)) :
    Reactor σ H S I :=
  batch.foldl (fun r m => r.remove w m.1 m.2) { r with pendingClose := ∅ }

/-! ## Runs -/

/-- What the loop of `Reactor::run` comes across. -/
inductive Input
  /-- The task of `connect`, on a socket the operating system hands out. -/
  | connect (sock : Socket) (host : Bytes) (port : ℕ)
  /-- A client in the backlog of the listener. -/
  | accept (sock : Socket)
  /-- A posted task. -/
  | task (actions : List Action)
  | event (sock : Socket) (ev : PollResult)
  | timer (tid : TimerId)
  /-- The end of an iteration. -/
  | closePending (batch : List (Socket × CloseReason))

/-- A piece of an iteration. The number of an open socket is never handed out. -/
inductive Step : Reactor σ H S I → Input → Reactor σ H S I → Prop
  | connect {r sock host port} (hfree : sock ∉ r.conns) :
    Step r (.connect sock host port) (r.adopt sock .outbound host port)
  | accept {r sock} (hfree : sock ∉ r.conns) : Step r (.accept sock) (r.doAccept w sock)
  | task {r actions} : Step r (.task actions) (r.perform w actions)
  | event {r sock ev} : Step r (.event sock ev) (r.handleEvent w sock ev)
  | timer {r tid} : Step r (.timer tid) (r.fireTimer tid)
  | closePending {r batch}
    (hperm : batch.Perm (r.pendingClose.entries.map fun m => (m.1, m.2))) :
    Step r (.closePending batch) (r.processPendingClose w batch)

/-- The states reached by steps that meet a condition on the state before. -/
inductive Reachable (ok : Reactor σ H S I → Input → Prop) (r₀ : Reactor σ H S I) :
    Reactor σ H S I → Prop
  | refl : Reachable ok r₀ r₀
  | step {r r' i} (hr : Reachable ok r₀ r) (hok : ok r i) (hs : Step w r i r') : Reachable ok r₀ r'

/-! ## What the moves leave alone -/

section

omit [Zero I]

section

variable (r : Reactor σ H S I) (sock : Socket)

section

variable (f : Connection H S I → Connection H S I)

theorem lookup_modifyConn (s : Socket) : (r.modifyConn sock f).conns.lookup s =
      if s = sock then (r.conns.lookup sock).map f else r.conns.lookup s := by
  unfold modifyConn
  cases hc : r.conns.lookup sock with
  | none =>
    split_ifs with hs
    · rw [hs, hc, Option.map_none]
    · rfl
  | some c =>
    split_ifs with hs
    · rw [hs, AList.lookup_insert, Option.map_some]
    · exact AList.lookup_insert_ne hs

theorem modifyConn_eq :
    r.modifyConn sock f = { r with conns := (r.modifyConn sock f).conns } := by
  unfold modifyConn
  split <;> rfl

@[simp] theorem delegate_modifyConn : (r.modifyConn sock f).delegate = r.delegate := by
  rw [modifyConn_eq]

end

variable {r sock} in
theorem lookup_modifyConn_self {c : Connection H S I} (hc : r.conns.lookup sock = some c)
    (f : Connection H S I → Connection H S I) :
    (r.modifyConn sock f).conns.lookup sock = some (f c) := by
  rw [lookup_modifyConn, if_pos rfl, hc, Option.map_some]

variable (reason : CloseReason)

@[simp] theorem delegate_fail : (r.fail sock reason).delegate = r.delegate :=
  delegate_modifyConn ..

@[simp] theorem delegate_setRx (rx : Bytes) : (r.setRx sock rx).delegate = r.delegate :=
  delegate_modifyConn ..

@[simp] theorem delegate_markForClose : (r.markForClose sock reason).delegate = r.delegate := by
  unfold markForClose
  split_ifs <;> rfl

@[simp] theorem conns_markForClose : (r.markForClose sock reason).conns = r.conns := by
  unfold markForClose
  split_ifs <;> rfl

end

section

variable (r : Reactor σ H S I) (id : ConnId) (reason : CloseReason)

@[simp] theorem delegate_close : (r.close id reason).delegate = r.delegate := by
  unfold close
  split
  · rfl
  · rw [delegate_markForClose]
    rfl

@[simp] theorem conns_close : (r.close id reason).conns = r.conns := by
  unfold close
  split
  · rfl
  · rw [conns_markForClose]
    rfl

theorem act_close (w : Setup σ H S I) (k : ℕ) : r.act w (.close k id reason) = r.close id reason ∨
    r.act w (.close k id reason) = r := by
  rw [act]
  exact ite_eq_or_eq ..

theorem conns_act_close (w : Setup σ H S I) (k : ℕ) :
    (r.act w (.close k id reason)).conns = r.conns := by
  obtain h | h := r.act_close id reason w k <;> rw [h]
  exact conns_close ..

end

variable (r : Reactor σ H S I)

@[simp] theorem delegate_cancelEstablishTimer (sock : Socket) :
    (r.cancelEstablishTimer sock).delegate = r.delegate := by
  unfold cancelEstablishTimer
  split
  · rfl
  · exact delegate_modifyConn ..

theorem lookup_cancelEstablishTimer {r : Reactor σ H S I} {sock : Socket} {c : Connection H S I}
    (hc : r.conns.lookup sock = some c) :
    (r.cancelEstablishTimer sock).conns.lookup sock = some { c with establishTimer := none } ∧
      (r.cancelEstablishTimer sock).log = r.log := by
  have hbind : (r.conns.lookup sock).bind (·.establishTimer) = c.establishTimer := by rw [hc]; rfl
  unfold cancelEstablishTimer
  cases ht : c.establishTimer with
  | none =>
    rw [hbind, ht]
    exact ⟨hc.trans (by rw [← ht]), rfl⟩
  | some tid =>
    rw [hbind, ht]
    refine ⟨?_, by rw [modifyConn_eq]⟩
    simp [lookup_modifyConn, hc]

@[simp] theorem delegate_flush (sock : Socket) : (r.flush w sock).1.delegate = r.delegate := by
  unfold flush
  split_ifs
  · exact delegate_fail ..
  · rfl

@[simp] theorem delegate_flushOut (sock : Socket) (out : Bytes) :
    (r.flushOut w sock out).1.delegate = r.delegate := by
  unfold flushOut
  split_ifs
  · rfl
  · exact delegate_flush ..

theorem conns_flushOut {r r' : Reactor σ H S I} {sock : Socket} {out : Bytes}
    (h : r.flushOut w sock out = (r', true)) : r'.conns = r.conns := by
  unfold flushOut flush at h
  split_ifs at h
  · exact congrArg (·.1.conns) h.symm
  · exact nomatch congrArg Prod.snd h
  · exact congrArg (·.1.conns) h.symm

section

variable (r : Reactor σ H S I)

@[simp] theorem delegate_send (id : ConnId) (header : FrameHeader)
    (payload : Bytes) : (r.send w id header payload).delegate = r.delegate := by
  unfold send
  split
  · rfl
  rename_i sock _
  split
  · rfl
  split
  · rfl
  split_ifs
  · rfl
  split
  · simp
  rename_i s _
  dsimp only
  split_ifs
  · simp
  have hflush := delegate_flush w (r.modifyConn sock fun c => { c with session := some s }) sock
  split <;> rename_i hr <;> rw [hr] at hflush
  · simpa using hflush
  · simpa using hflush

@[simp] theorem delegate_perform (actions : List Action) :
    (r.perform w actions).delegate = r.delegate := by
  unfold perform
  induction actions generalizing r with
  | nil => rfl
  | cons a actions ih =>
    rw [List.foldl_cons, ih]
    cases a with
    | close k id reason =>
      obtain h | h := r.act_close id reason w k <;> rw [h]
      exact delegate_close ..
    | send id header payload => exact delegate_send ..

@[simp] theorem delegate_callback (f : σ → σ × List Action) :
    (r.callback w f).delegate = (f r.delegate).1 :=
  delegate_perform ..

@[simp] theorem delegate_beginHandshake (sock : Socket) :
    (r.beginHandshake w sock).delegate = r.delegate := by
  unfold beginHandshake
  split
  · rfl
  split
  · simp
  rename_i out hk _
  have hout := delegate_flushOut w
    (r.modifyConn sock fun c => { c with state := .handshaking, handshaker := some hk }) sock out
  split <;> rename_i hr <;> rw [hr] at hout
  · simpa using hout
  · simpa using hout

theorem delegate_onWritable (sock : Socket) (connected : Bool) :
    (r.onWritable w sock connected).1.delegate = r.delegate := by
  unfold onWritable
  split
  · rfl
  dsimp only
  split_ifs <;> simp

@[simp] theorem delegate_fireTimer (tid : TimerId) : (r.fireTimer tid).delegate = r.delegate := by
  unfold fireTimer
  split
  · rfl
  dsimp only
  split
  · rfl
  split <;> simp [record]

end

@[simp] theorem delegate_doAccept [Zero I] (r : Reactor σ H S I) (sock : Socket) :
    (r.doAccept w sock).delegate = r.delegate := by
  unfold doAccept
  split_ifs
  · exact delegate_beginHandshake ..
  · rfl

end

end Reactor

end Librats
