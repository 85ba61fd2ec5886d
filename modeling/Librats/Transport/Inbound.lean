import Librats.Transport.Reactor

/-!
# The receiving half of a connection

What an established connection makes of the bytes it reads, without the reactor around it
(`process`). It does not matter how the stream is cut into reads (`process_append`).
-/

namespace Librats

open Framer List

/-- The receiving half: the session, the bytes that do not make a block yet, the frames handed on,
and whether the connection is up. -/
structure Inbound (S : Type) where
  session : S
  rx : Bytes
  frames : List Frame
  up : Bool

namespace Inbound

variable {S : Type} (decrypt : S → Bytes → Option Bytes × S)

/-- The blocks in a receive buffer. -/
def process (session : S) (frames : List Frame) (rx : Bytes) : Inbound S :=
  match _h : tryTakeBlock rx with
  | .incomplete _ => ⟨session, rx, frames, true⟩
  | .error => ⟨session, [], frames, false⟩
  | .ok consumed body =>
    match decrypt session body with
    | (none, session) => ⟨session, [], frames, false⟩
    | (some plain, session) =>
      match parseMessage plain with
      | none => ⟨session, [], frames, false⟩
      | some frame => process session (frames ++ [frame]) (rx.drop consumed)
termination_by rx.length
decreasing_by
  have := tryTakeBlock_bounds ‹_›
  rw [length_drop]
  omega

/-- A read of some bytes. -/
def read (c : Inbound S) (bytes : Bytes) : Inbound S :=
  if c.up then process decrypt c.session c.frames (c.rx ++ bytes) else c

/-! ## The equations of `process` -/

section

variable {decrypt} {session : S} {frames : List Frame} {rx : Bytes}

theorem process_incomplete {needed : ℕ} (h : tryTakeBlock rx = .incomplete needed) :
    process decrypt session frames rx = ⟨session, rx, frames, true⟩ := by
  rw [process]
  split <;> simp_all

theorem process_error (h : tryTakeBlock rx = .error) :
    process decrypt session frames rx = ⟨session, [], frames, false⟩ := by
  rw [process]
  split <;> simp_all

variable {n : ℕ} {body : Bytes} (h : tryTakeBlock rx = .ok n body)

include h

variable {session' : S} {plain : Option Bytes} (hd : decrypt session body = (plain, session'))

include hd

theorem process_failed (hp : plain.bind parseMessage = none) :
    process decrypt session frames rx = ⟨session', [], frames, false⟩ := by
  rw [process]
  cases plain <;> split <;> simp_all

theorem process_frame {frame : Frame} (hp : plain.bind parseMessage = some frame) :
    process decrypt session frames rx =
      process decrypt session' (frames ++ [frame]) (rx.drop n) := by
  rw [process]
  cases plain <;> split <;> simp_all

end

variable {decrypt}

/-- **The reads do not matter.** A later read is processed as if it had been there from the
beginning. -/
theorem process_append (session : S) (frames : List Frame) (a b : Bytes) :
    process decrypt session frames (a ++ b) = (process decrypt session frames a).read decrypt b := by
  induction hlen : a.length using Nat.strong_induction_on generalizing session frames a with
  | _ len ih =>
    cases h : tryTakeBlock a with
    | incomplete needed =>
      rw [process_incomplete h]
      rfl
    | error =>
      rw [process_error h, process_error (tryTakeBlock_append_error h b)]
      rfl
    | ok n body =>
      have happ := tryTakeBlock_append h b
      have hbounds := tryTakeBlock_bounds h
      rcases hd : decrypt session body with ⟨plain, session'⟩
      cases hp : plain.bind parseMessage with
      | none =>
        rw [process_failed h hd hp, process_failed happ hd hp]
        rfl
      | some frame =>
        rw [process_frame h hd hp, process_frame happ hd hp, drop_append_of_le_length hbounds.2]
        refine ih (a.drop n).length ?_ session' _ _ rfl
        rw [length_drop]
        omega

variable (c : Inbound S)

theorem read_append (a b : Bytes) :
    c.read decrypt (a ++ b) = (c.read decrypt a).read decrypt b := by
  by_cases h : c.up = true
  · have hread : ∀ x, c.read decrypt x = process decrypt c.session c.frames (c.rx ++ x) :=
      fun x => if_pos h
    rw [hread, hread, ← append_assoc, process_append]
  · have hread : ∀ x, c.read decrypt x = c := fun x => if_neg h
    rw [hread, hread, hread]

theorem foldl_read (reads : List Bytes) (hc : c.read decrypt [] = c) :
    reads.foldl (read decrypt) c = c.read decrypt reads.flatten := by
  induction reads generalizing c with
  | nil => exact hc.symm
  | cons a reads ih =>
    rw [flatten_cons, read_append]
    refine ih _ ?_
    rw [← read_append, append_nil]

theorem foldl_read_of_down {c : Inbound S} (h : c.up = false) (reads : List Bytes) :
    reads.foldl (read decrypt) c = c := by
  induction reads with
  | nil => rfl
  | cons a reads ih =>
    rw [foldl_cons, read, if_neg (Bool.eq_false_iff.mp h)]
    exact ih

theorem frames_process (session : S) (frames : List Frame) (rx : Bytes) :
    frames <+: (process decrypt session frames rx).frames := by
  induction hlen : rx.length using Nat.strong_induction_on generalizing session frames rx with
  | _ len ih =>
    cases h : tryTakeBlock rx with
    | incomplete needed => rw [process_incomplete h]
    | error => rw [process_error h]
    | ok n body =>
      rcases hd : decrypt session body with ⟨plain, session'⟩
      cases hp : plain.bind parseMessage with
      | none => rw [process_failed h hd hp]
      | some frame =>
        have hbounds := tryTakeBlock_bounds h
        rw [process_frame h hd hp]
        refine (prefix_append _ _).trans (ih (rx.drop n).length ?_ session' _ _ rfl)
        rw [length_drop]
        omega

theorem frames_read (bytes : Bytes) : c.frames <+: (c.read decrypt bytes).frames := by
  unfold read
  split_ifs
  · exact frames_process ..
  · exact prefix_rfl

end Inbound

namespace Reactor

open Inbound

variable {H S I : Type}

/-- The delegate notes the frames it is given. -/
def Observes (w : Setup (List Frame) H S I) : Prop :=
  ∀ frames c frame, w.delegate.onFrame frames c frame = (frames ++ [frame], [])

/-- The connection on a socket is in the state of a receiving half. -/
structure Shows (r : Reactor (List Frame) H S I) (sock : Socket) (ch : Inbound S) : Prop where
  frames : r.delegate = ch.frames
  conn : ∃ c, r.conns.lookup sock = some c ∧ c.session = some ch.session ∧
    (ch.up = true → c.state = .established ∧ c.rx = ch.rx) ∧
    (ch.up = false → c.state = .closing ∧ c.closeReason = .protocolError)

variable {w : Setup (List Frame) H S I} {r : Reactor (List Frame) H S I} {sock : Socket}
  {c : Connection H S I} {s : S} {frames : List Frame} {ch : Inbound S}

theorem shows_fail (hc : r.conns.lookup sock = some c) (hs : c.session = some s)
    (hd : r.delegate = frames) (rx : Bytes) :
    ((r.fail sock .protocolError).setRx sock rx).Shows sock ⟨s, [], frames, false⟩ where
  frames := by simp [setRx, fail, hd]
  conn := by
    have hfail : (r.fail sock .protocolError).conns.lookup sock =
        some { c with closeReason := .protocolError, state := .closing } :=
      lookup_modifyConn_self hc _
    exact ⟨_, lookup_modifyConn_self hfail _, hs, nofun, fun _ => ⟨rfl, rfl⟩⟩

section

variable {s s' : S} {body : Bytes} {plain : Option Bytes} (hstate : c.state = .established)
  (hs : c.session = some s) (hdec : w.security.decrypt s body = (plain, s'))

include hstate hs hdec

theorem processBlock_failed (hp : plain.bind parseMessage = none) : r.processBlock w sock c body =
    ((r.modifyConn sock fun c => { c with session := some s' }).fail sock .protocolError, false) := by
  cases plain <;> simp_all [processBlock, deliverFrame]

theorem processBlock_frame (hw : Observes w) {frame : Frame}
    (hp : plain.bind parseMessage = some frame) : r.processBlock w sock c body =
      ({ r.modifyConn sock (fun c => { c with session := some s' }) with
        delegate := r.delegate ++ [frame] }, true) := by
  obtain ⟨plain, rfl, hparse⟩ := Option.bind_eq_some_iff.mp hp
  simp only [processBlock, hstate, deliverFrame, hs, hdec, hparse, callback, hw _ _ _,
    delegate_modifyConn]
  rfl

end

theorem processBlocks_shows (hw : Observes w) (rx : Bytes) (hc : r.conns.lookup sock = some c)
    (hstate : c.state = .established) (hs : c.session = some s) (hd : r.delegate = frames) :
    (r.processBlocks w sock rx).2 = (process w.security.decrypt s frames rx).up ∧
      (r.processBlocks w sock rx).1.Shows sock (process w.security.decrypt s frames rx) := by
  induction hlen : rx.length using Nat.strong_induction_on generalizing r c s frames rx with
  | _ len ih =>
    rw [processBlocks]
    split
    · rename_i needed htake
      rw [process_incomplete htake]
      refine ⟨rfl, by simp [setRx, hd], _, lookup_modifyConn_self hc _, hs, fun _ => ⟨hstate, rfl⟩,
        (by simp)⟩
    · rename_i htake
      rw [process_error htake]
      exact ⟨rfl, shows_fail hc hs hd rx⟩
    rename_i n body htake
    simp only [hc]
    rcases hdec : w.security.decrypt s body with ⟨plain, s'⟩
    cases hp : plain.bind parseMessage with
    | none =>
      rw [process_failed htake hdec hp]
      simp only [processBlock_failed hstate hs hdec hp]
      exact ⟨trivial, shows_fail (lookup_modifyConn_self hc _) rfl (by simp [hd]) _⟩
    | some frame =>
      rw [process_frame htake hdec hp]
      simp only [processBlock_frame hstate hs hdec hw hp]
      have hlookup := lookup_modifyConn_self hc fun c => { c with session := some s' }
      have hbounds := tryTakeBlock_bounds htake
      rw [if_neg]
      · refine ih (rx.drop n).length ?_ (rx.drop n) hlookup hstate rfl (by rw [hd]) rfl
        rw [length_drop]
        omega
      · simp [isClosing, hlookup, hstate]

/-- The readable events of a connection; each loop ends where the socket is drained. -/
def readEvents (w : Setup (List Frame) H S I) (r : Reactor (List Frame) H S I) (sock : Socket) :
    List (List Bytes) → Reactor (List Frame) H S I × Bool
  | [] => (r, true)
  | chunks :: events =>
    match r.onReadable w sock (chunks.map .data) with
    | (r, false) => (r, false)
    | (r, true) => readEvents w r sock events

/-- What an established connection receives: the rest of the read that completed the handshake, then
readable events, until teardown. -/
def receive (w : Setup (List Frame) H S I) (r : Reactor (List Frame) H S I) (sock : Socket)
    (rest : Bytes) (events : List (List Bytes)) : Reactor (List Frame) H S I × Bool :=
  match r.processBlocks w sock rest with
  | (r, false) => (r, false)
  | (r, true) => readEvents w r sock events

theorem onReadable_shows (hw : Observes w) (h : r.Shows sock ch)
    (hup : ch.up = true) (chunks : List Bytes) : (r.onReadable w sock (chunks.map .data)).2 =
        (chunks.foldl (read w.security.decrypt) ch).up ∧
      (r.onReadable w sock (chunks.map .data)).1.Shows sock
        (chunks.foldl (read w.security.decrypt) ch) := by
  induction chunks generalizing r ch with
  | nil => exact ⟨hup.symm, h⟩
  | cons bytes chunks ih =>
    obtain ⟨c, hc, hs, hlive, -⟩ := h.conn
    obtain ⟨hstate, hrx⟩ := hlive hup
    obtain ⟨hok, hshows⟩ := processBlocks_shows hw (c.rx ++ bytes) hc hstate hs h.frames
    have hread : process w.security.decrypt ch.session ch.frames (c.rx ++ bytes) =
        ch.read w.security.decrypt bytes := by rw [Inbound.read, if_pos hup, hrx]
    rw [hread] at hok hshows
    rw [map_cons, onReadable, hc, foldl_cons]
    dsimp only
    rcases hres : r.processBlocks w sock (c.rx ++ bytes) with ⟨r', _ | _⟩
    · rw [hres] at hok hshows
      rw [foldl_read_of_down hok.symm]
      exact ⟨hok, hshows⟩
    · rw [hres] at hok hshows
      exact ih hshows hok.symm

theorem readEvents_shows (hw : Observes w) (h : r.Shows sock ch)
    (hup : ch.up = true) (events : List (List Bytes)) :
    (readEvents w r sock events).2 = (events.flatten.foldl (read w.security.decrypt) ch).up ∧
      (readEvents w r sock events).1.Shows sock
        (events.flatten.foldl (read w.security.decrypt) ch) := by
  induction events generalizing r ch with
  | nil => exact ⟨hup.symm, h⟩
  | cons chunks events ih =>
    obtain ⟨hok, hshows⟩ := onReadable_shows hw h hup chunks
    rw [readEvents, flatten_cons, foldl_append]
    rcases hres : r.onReadable w sock (chunks.map .data) with ⟨r', _ | _⟩
    · rw [hres] at hok hshows
      rw [foldl_read_of_down hok.symm]
      exact ⟨hok, hshows⟩
    · rw [hres] at hok hshows
      exact ih hshows hok.symm

/-- **A connection receives as its receiving half does**, whatever the reads. -/
theorem receive_shows (hw : Observes w) (hc : r.conns.lookup sock = some c)
    (hstate : c.state = .established) (hs : c.session = some s) (hd : r.delegate = frames)
    (rest : Bytes) (events : List (List Bytes)) :
    let ch := process w.security.decrypt s frames (rest ++ events.flatten.flatten)
    (receive w r sock rest events).2 = ch.up ∧ (receive w r sock rest events).1.Shows sock ch := by
  intro ch
  obtain ⟨hok, hshows⟩ := processBlocks_shows hw rest hc hstate hs hd
  have hch : ch = events.flatten.foldl (read w.security.decrypt)
      (process w.security.decrypt s frames rest) := by
    rw [foldl_read, ← process_append]
    rw [← process_append, append_nil]
  rw [receive, hch]
  rcases hres : r.processBlocks w sock rest with ⟨r', _ | _⟩
  · rw [hres] at hok hshows
    rw [foldl_read_of_down hok.symm]
    exact ⟨hok, hshows⟩
  · rw [hres] at hok hshows
    exact readEvents_shows hw hshows hok.symm events

end Reactor

end Librats
