import Librats.BitTorrent.PiecePicker
import Librats.Core.Types
import Librats.Foundations.RawVector

/-!
# A torrent

The handlers of a torrent on the reactor thread, with the messages they send, the connections whose
`on_closed` they fire and the jobs for the disk. A send that fails (`broken`) closes the connection
and removes the peer in the middle of the handler that made it. Within one handler all sends to a
peer fail or none does.

The choice of blocks and the backlog of the disk are given by a `World`. Choking, serving, trackers,
peer exchange, the extension protocol and the statistics are left out: of the state below they touch
only the connections, by sends that fail.
-/

namespace Librats.BitTorrent

open Option PiecePicker Function RawVector

/-! ## State -/

/-- What a torrent file says: the layout and the hash of every piece, and the path of the file and
the offset in it where `map_block` puts a byte of a piece. -/
structure TorrentInfo (H : Type) extends Layout where
  pieceHash : ℕ → H
  location : ℕ → ℕ → Option (Bytes × ℕ)

/-- No file is used for two pieces in one place. -/
def TorrentInfo.PiecesApart {H : Type} (info : TorrentInfo H) : Prop :=
  ∀ p k q l x, info.location p k = some x → info.location q l = some x → p = q

/-- What the torrent reads of a connection, and whether the next send fails. -/
structure PeerConnection where
  numPieces : ℕ
  peerHave : List Bool
  pieceStateBegun : Bool
  peerChoking : Bool
  amInterested : Bool
  closed : Bool
  broken : Bool

/-- A connection just after its handshake. -/
def PeerConnection.new (numPieces : ℕ) : PeerConnection where
  numPieces := numPieces
  peerHave := List.replicate numPieces false
  pieceStateBegun := false
  peerChoking := true
  amInterested := false
  closed := false
  broken := false

/-- The messages a torrent sends. -/
inductive Sent
  | bitfield (bits : List Bool)
  | interested
  | notInterested
  | havePiece (piece : ℕ)
  | request (piece offset length : ℕ)
  | cancel (piece offset length : ℕ)
  deriving DecidableEq

/-- The jobs a torrent hands to the disk. -/
inductive DiskJob
  | write (piece offset : ℕ) (data : Bytes)
  | hash (piece : ℕ)
  | check
  deriving DecidableEq

structure Torrent {H : Type} (info : TorrentInfo H) (Peer : Type) where
  running : Bool
  paused : Bool
  picker : Option (PiecePicker info.toLayout Peer)
  writeStalled : Bool
  peers : RawVector Peer
  conns : Peer → PeerConnection
  outstanding : Peer → Option ℕ
  seedPeers : Peer → Bool
  /-- How often the world has been asked. -/
  draws : ℕ
  sent : List (Peer × Sent)
  /-- The connections `on_closed` was fired for. -/
  fired : List Peer
  submitted : List DiskJob

open Torrent

/-- What `pick_blocks` returns, and whether the waiting writes are over the mark, each time the
torrent asks. -/
structure World (g : Layout) (Peer : Type) where
  pickBlocks : ℕ → PiecePicker g Peer → List Bool → ℕ → Peer → List PieceBlock
  overHighWater : ℕ → Bool

def kPipelineDepth : ℕ := 16

def kMaxPeers : ℕ := 50

variable {H : Type} {info : TorrentInfo H} {Peer : Type}

namespace Torrent

/-- A torrent that has not been started. -/
def new (conns : Peer → PeerConnection) : Torrent info Peer where
  running := false
  paused := false
  picker := none
  writeStalled := false
  peers := .empty
  conns := conns
  outstanding _ := none
  seedPeers _ := false
  draws := 0
  sent := []
  fired := []
  submitted := []

def submit (t : Torrent info Peer) (job : DiskJob) : Torrent info Peer :=
  { t with submitted := t.submitted ++ [job] }

def setPicker (t : Torrent info Peer) (picker : PiecePicker info.toLayout Peer) :
    Torrent info Peer :=
  { t with picker := some picker }

variable [DecidableEq Peer]

section

variable (t : Torrent info Peer) (pc : Peer)

def alive : Bool := pc ∈ t.peers.live

def updateConn (f : PeerConnection → PeerConnection) : Torrent info Peer :=
  { t with conns := update t.conns pc (f (t.conns pc)) }

def setOutstanding (n : ℕ) : Torrent info Peer :=
  { t with outstanding := update t.outstanding pc (some n) }

/-! ## Closing a connection -/

/-- What a peer counted for is taken back, and its requests are cancelled. -/
def uncount : Torrent info Peer :=
  match t.picker with
  | none => t
  | some picker =>
    let counted :=
      if t.seedPeers pc then picker.decAvailabilityAll
      else picker.decAvailability (t.conns pc).peerHave
    { t.setPicker (counted.cancelPeer pc) with
      seedPeers := update t.seedPeers pc false }

def removePeer : Torrent info Peer :=
  if t.alive pc then
    let t := t.uncount pc
    { t with
      peers := t.peers.erase pc
      outstanding := update t.outstanding pc none }
  else t

def onClosed : Torrent info Peer :=
  removePeer { t with fired := t.fired ++ [pc] } pc

/-- `PeerConnection::close`. -/
def close : Torrent info Peer :=
  if (t.conns pc).closed then t
  else (t.updateConn pc fun c => { c with closed := true }).onClosed pc

/-! ## Sending -/

/-- Nothing is sent on a closed connection, and a send that fails closes it. -/
def sendMessage (m : Sent) : Torrent info Peer :=
  if (t.conns pc).closed then t
  else if (t.conns pc).broken then t.close pc
  else { t with sent := t.sent ++ [(pc, m)] }

def sendInterested : Torrent info Peer :=
  (t.updateConn pc fun c => { c with amInterested := true }).sendMessage pc .interested

def sendNotInterested : Torrent info Peer :=
  (t.updateConn pc fun c => { c with amInterested := false }).sendMessage pc .notInterested

/-! ## Requesting blocks -/

def requestBlock (b : PieceBlock) : Torrent info Peer :=
  match t.picker with
  | none => t
  | some picker =>
    let t := (t.setPicker (picker.markRequested b pc)).sendMessage pc
      (.request b.piece (b.block * kBlockSize) (info.blockSize b.piece b.block))
    t.setOutstanding pc ((t.outstanding pc).getD 0 + 1)

end

variable (w : World info.toLayout Peer) (t : Torrent info Peer) (pc : Peer)

/-- Fills the pipeline of a peer, unless too many writes wait. -/
def refill : Torrent info Peer :=
  match t.picker with
  | none => t
  | some picker =>
    let c := t.conns pc
    if !t.running || c.peerChoking || !c.amInterested then t
    else if w.overHighWater t.draws then { t with writeStalled := true, draws := t.draws + 1 }
    else
      let before := (t.outstanding pc).getD 0
      let t := { t.setOutstanding pc before with draws := t.draws + 1 }
      if kPipelineDepth ≤ before then t
      else
        (w.pickBlocks t.draws picker c.peerHave (kPipelineDepth - before) pc).foldl
          (fun t b => t.requestBlock pc b) t

def refillAll : Torrent info Peer :=
  rangeFor peers (fun t pc =>
    if (t.conns pc).amInterested && !(t.conns pc).peerChoking then t.refill w pc else t) t

def updateInterest : Torrent info Peer :=
  match t.picker with
  | none => t
  | some picker =>
    let want := picker.isInteresting (t.conns pc).peerHave
    let t :=
      if want && !(t.conns pc).amInterested then t.sendInterested pc
      else if !want && (t.conns pc).amInterested then t.sendNotInterested pc
      else t
    if want && !(t.conns pc).peerChoking then t.refill w pc else t

/-! ## What the peers send -/

/-- A peer has completed the handshake. -/
def onHandshake : Torrent info Peer :=
  if t.paused then t.close pc
  else if kMaxPeers ≤ t.peers.size then t.close pc
  else
    let t := { t with peers := t.peers.push pc }.setOutstanding pc 0
    match t.picker with
    | none => t
    | some picker =>
      t.sendMessage pc (.bitfield ((List.range info.numPieces).map picker.havePiece))

/-- A peer that has all pieces counts as a seed, any other for those it has. -/
def count (picker : PiecePicker info.toLayout Peer) (pc : Peer)
    (bits : List Bool) : Torrent info Peer :=
  if 0 < info.numPieces ∧ bits.length = info.numPieces ∧ bits.count true = info.numPieces then
    if t.seedPeers pc then t
    else
      { t with
        picker := some picker.incAvailabilityAll
        seedPeers := update t.seedPeers pc true }
  else t.setPicker (picker.incAvailability bits)

def onBitfield (bits : List Bool) : Torrent info Peer :=
  match t.picker with
  | none => t
  | some picker => (t.count picker pc bits).updateInterest w pc

def onHave (piece : ℕ) : Torrent info Peer :=
  match t.picker with
  | none => t
  | some picker =>
    if info.numPieces ≤ piece then t
    else
      let t := t.setPicker (picker.peerHasPiece piece)
      let t :=
        if !(t.conns pc).amInterested && picker.pieceInteresting piece then t.sendInterested pc
        else t
      if (t.conns pc).amInterested && !(t.conns pc).peerChoking then t.refill w pc else t

/-- A peer that chokes us has dropped our requests. -/
def onChoke (choking : Bool) : Torrent info Peer :=
  match t.picker with
  | none => t
  | some picker =>
    if choking then (t.setPicker (picker.cancelPeer pc)).setOutstanding pc 0
    else t.refill w pc

/-- Another peer's request for a block that has arrived is cancelled. -/
def cancelOn (b : PieceBlock) (t : Torrent info Peer) (other : Peer) : Torrent info Peer :=
  if t.alive other then
    let freed := update t.outstanding other ((t.outstanding other).map (· - 1))
    { t with outstanding := freed }.sendMessage other
      (.cancel b.piece (b.block * kBlockSize) (info.blockSize b.piece b.block))
  else t

/-- The block a PIECE message carries is one of the torrent's, whole. -/
def WellFormed (info : TorrentInfo H) (piece offset : ℕ) (data : Bytes) : Prop :=
  piece < info.numPieces ∧ offset % kBlockSize = 0 ∧ offset < info.pieceSize piece ∧
    data.length = info.blockSize piece (offset / kBlockSize)

instance (piece offset : ℕ) (data : Bytes) : Decidable (WellFormed info piece offset data) :=
  inferInstanceAs (Decidable (_ ∧ _))

/-- The data of a block goes to the disk unless the piece is already there; neither the state of the
block nor the peers it was requested from matter. -/
def onPiece (piece offset : ℕ) (data : Bytes) : Torrent info Peer :=
  match t.picker with
  | none => t
  | some picker =>
    if info.numPieces ≤ piece then t
    else if offset % kBlockSize ≠ 0 ∨ info.pieceSize piece ≤ offset then t
    else if data.length ≠ info.blockSize piece (offset / kBlockSize) then t
    else
      let t := t.setOutstanding pc ((t.outstanding pc).getD 0 - 1)
      if picker.havePiece piece then t.refill w pc
      else
        let b : PieceBlock := ⟨piece, offset / kBlockSize⟩
        let marked := picker.markWriting b pc
        let t := marked.1.foldl (cancelOn b) (t.setPicker marked.2)
        (t.submit (.write piece offset data)).refill w pc

/-- The messages of a peer that concern the download. -/
inductive Message
  | choke
  | unchoke
  | havePiece (piece : ℕ)
  | bitfield (payload : Bytes)
  | piece (piece offset : ℕ) (data : Bytes)

/-- The bits of a byte, the highest first. -/
def bitsOf (byte : UInt8) : List Bool := (List.range 8).map fun i => byte.toNat.testBit (7 - i)

/-- `PeerConnection::dispatch`. -/
def dispatch : Message → Torrent info Peer
  | .choke => (t.updateConn pc fun c => { c with peerChoking := true }).onChoke w pc true
  | .unchoke => (t.updateConn pc fun c => { c with peerChoking := false }).onChoke w pc false
  | .havePiece piece =>
    let t := t.updateConn pc fun c => { c with pieceStateBegun := true }
    let known := (t.conns pc).peerHave
    if piece < known.length && !hasBit known piece then
      (t.updateConn pc fun c => { c with peerHave := known.set piece true }).onHave w pc piece
    else t
  | .bitfield payload =>
    let n := (t.conns pc).numPieces
    if (t.conns pc).pieceStateBegun then t.close pc
    else if n ≠ 0 ∧ payload.length ≠ (n + 7) / 8 then t.close pc
    else
      let bits := (payload.flatMap bitsOf).take (if n ≠ 0 then n else payload.length * 8)
      (t.updateConn pc fun c => { c with pieceStateBegun := true, peerHave := bits }).onBitfield w
        pc bits
  | .piece piece offset data => t.onPiece w pc piece offset data

/-! ## What the disk reports -/

def onBlockWritten (b : PieceBlock) (ok : Bool) : Torrent info Peer :=
  match t.picker with
  | none => t
  | some picker =>
    if !t.running then t
    else if !ok then t.setPicker (picker.restorePiece b.piece)
    else
      let marked := picker.markFinished b
      let t := t.setPicker marked.2
      let t := if marked.1 then t.submit (.hash b.piece) else t
      if t.writeStalled && !w.overHighWater t.draws then
        { t with writeStalled := false, draws := t.draws + 1 }.refillAll w
      else { t with draws := t.draws + 1 }

def onPieceHashed [DecidableEq H] (piece : ℕ) (ok : Bool) (hash : H) : Torrent info Peer :=
  match t.picker with
  | none => t
  | some picker =>
    if !t.running then t
    else if !ok || hash != info.pieceHash piece then t.setPicker (picker.restorePiece piece)
    else
      rangeFor peers
        (fun t pc => (t.sendMessage pc (.havePiece piece)).updateInterest w pc)
        (t.setPicker (picker.weHave piece))

/-- The peers are told of the pieces found on disk, in a loop over a copy. -/
def onCheckComplete (bits : List Bool) : Torrent info Peer :=
  match t.picker with
  | none => t
  | some picker =>
    if !t.running then t
    else
      let picker := picker.setHaveBitfield bits
      let found := (List.range info.numPieces).filter picker.havePiece
      t.peers.live.foldl (fun t pc =>
        if t.alive pc then
          let t := found.foldl (fun t p => t.sendMessage pc (.havePiece p)) t
          if t.alive pc then t.updateInterest w pc else t
        else t) (t.setPicker picker)

/-! ## Starting and stopping -/

/-- With the metadata at hand the files are checked first. -/
def start (hasMetadata : Bool) : Torrent info Peer :=
  if t.running then t
  else if hasMetadata then ({ t with running := true }.setPicker .new).submit .check
  else { t with running := true }

/-- The pieces a peer announced before the metadata came are counted now. -/
def adopt : Torrent info Peer :=
  match t.picker with
  | none => t
  | some picker =>
    (t.setPicker (picker.incAvailability (t.conns pc).peerHave)).updateInterest w pc

/-- `promote_to_downloading`: the metadata has come from the peers. -/
def promote : Torrent info Peer :=
  (rangeFor peers (adopt w) (t.setPicker .new)).submit .check

/-- The peers are closed one by one; what is left of their bookkeeping is dropped. -/
def dropPeers : Torrent info Peer :=
  let t := rangeFor peers close t
  { t with
    peers := t.peers.clear
    outstanding := fun _ => none
    seedPeers := fun _ => false }

def pause : Torrent info Peer :=
  if !t.running || t.paused then t else { t with paused := true }.dropPeers

def resume : Torrent info Peer :=
  if !t.running || !t.paused then t else { t with paused := false }

def stop : Torrent info Peer :=
  if !t.running then t
  else { { t with running := false, paused := false }.dropPeers with picker := none }

def releaseRequests : Torrent info Peer :=
  match t.picker with
  | none => t
  | some picker => (t.setPicker (picker.cancelPeer pc)).setOutstanding pc 0

/-- Requests of peers that have not delivered for too long are handed to the others. -/
def checkRequestTimeouts (stalled : List Peer) : Torrent info Peer :=
  if t.picker.isNone || stalled.isEmpty then t
  else
    rangeFor peers (fun t pc =>
      if pc ∉ stalled && (t.conns pc).amInterested && !(t.conns pc).peerChoking then t.refill w pc
      else t) (stalled.foldl releaseRequests t)

/-- The block is requested, and `pc` is one of the peers asked. -/
def requestedFrom (b : PieceBlock) : Bool :=
  t.picker.any fun picker => picker.blockState b == .requested && pc ∈ picker.requesters b

end Torrent

namespace Torrent

/-! ## Steps without consequence for the disk

Most handlers neither hand a job to the disk nor set a piece as there nor finish a block. -/

/-- The picker has the piece. -/
def has (t : Torrent info Peer) (piece : ℕ) : Bool := t.picker.any (·.havePiece piece)

/-- The block is finished in a piece under way. -/
def finished (t : Torrent info Peer) (b : PieceBlock) : Bool := t.picker.any (·.finished b)

structure Quiet (t t' : Torrent info Peer) : Prop where
  running : t'.running = t.running
  has : t'.has = t.has
  isSome : t'.picker.isSome = t.picker.isSome
  priority : t'.picker.map (·.priority) = t.picker.map (·.priority)
  finished : ∀ b, t'.finished b = true → t.finished b = true
  submitted : t'.submitted = t.submitted

namespace Quiet

variable {t t' t'' : Torrent info Peer}

theorem refl (t : Torrent info Peer) : Quiet t t :=
  ⟨rfl, rfl, rfl, rfl, fun _ => id, rfl⟩

theorem trans (h : Quiet t t') (h' : Quiet t' t'') : Quiet t t'' :=
  ⟨h'.running.trans h.running, h'.has.trans h.has, h'.isSome.trans h.isSome,
    h'.priority.trans h.priority, fun b hb => h.finished b (h'.finished b hb),
    h'.submitted.trans h.submitted⟩

theorem of_eq (hr : t'.running = t.running) (hp : t'.picker = t.picker)
    (hs : t'.submitted = t.submitted) : Quiet t t' where
  running := hr
  has := by
    funext p
    rw [Torrent.has, Torrent.has, hp]
  isSome := by rw [hp]
  priority := by rw [hp]
  finished b hb := by rwa [Torrent.finished, hp] at hb
  submitted := hs

theorem after (h : Quiet t' t'') (hr : t'.running = t.running) (hp : t'.picker = t.picker)
    (hs : t'.submitted = t.submitted) : Quiet t t'' :=
  (of_eq hr hp hs).trans h

/-- The picker changes, but not what it has nor, except for blocks given up, what is finished. -/
theorem of_picker {picker picker' : PiecePicker info.toLayout Peer} (hr : t'.running = t.running)
    (hs : t'.submitted = t.submitted) (hp : t.picker = some picker) (hp' : t'.picker = some picker')
    (hhave : picker'.haveBits = picker.haveBits) (hpriority : picker'.priority = picker.priority)
    (hfin : ∀ b, picker'.finished b = true → picker.finished b = true) : Quiet t t' where
  running := hr
  has := by
    funext p
    rw [Torrent.has, Torrent.has, hp, hp', any_some, any_some, havePiece, hhave, havePiece]
  isSome := by rw [hp, hp', isSome_some, isSome_some]
  priority := by rw [hp, hp', map_some, map_some, hpriority]
  finished b hb := by
    rw [Torrent.finished, hp'] at hb
    rw [Torrent.finished, hp]
    exact hfin b hb
  submitted := hs

theorem rangeFor {body : Torrent info Peer → Peer → Torrent info Peer}
    (hbody : ∀ t pc, Quiet t (body t pc)) (t : Torrent info Peer) :
    Quiet t (rangeFor peers body t) :=
  rangeFor_induction (fun s x hs => hs.trans (hbody s x)) (refl t)

theorem foldl {α : Type} {f : Torrent info Peer → α → Torrent info Peer}
    (hf : ∀ t x, Quiet t (f t x)) (l : List α) (t : Torrent info Peer) : Quiet t (l.foldl f t) :=
  List.foldlRecOn l f (refl t) fun s hs x _ => hs.trans (hf s x)

end Quiet

/-- A block is on disk: it is marked finished, and if it was the last of its piece the piece is
hashed. -/
def settle (t : Torrent info Peer) (picker : PiecePicker info.toLayout Peer) (b : PieceBlock) :
    Torrent info Peer :=
  let marked := picker.markFinished b
  if marked.1 then (t.setPicker marked.2).submit (.hash b.piece) else t.setPicker marked.2

variable (w : World info.toLayout Peer) (t : Torrent info Peer) (pc : Peer)

theorem quiet_resume : Quiet t t.resume := by
  rw [resume]
  split_ifs
  · exact .refl t
  · exact .of_eq rfl rfl rfl

variable {picker : PiecePicker info.toLayout Peer}

theorem quiet_restorePiece (hp : t.picker = some picker) (piece : ℕ) :
    Quiet t (t.setPicker (picker.restorePiece piece)) :=
  .of_picker rfl rfl hp rfl rfl rfl fun _ hb => finished_restorePiece hb

variable [DecidableEq Peer]

theorem quiet_uncount : Quiet t (t.uncount pc) := by
  rw [uncount]
  split
  · exact .refl t
  · rename_i picker hp
    refine .of_picker rfl rfl hp rfl ?_ ?_ fun b hb => ?_
    · split_ifs <;> rfl
    · split_ifs <;> rfl
    · rw [finished_cancelPeer] at hb
      split_ifs at hb <;> exact hb

theorem quiet_removePeer : Quiet t (t.removePeer pc) := by
  rw [removePeer]
  split_ifs
  · exact (quiet_uncount t pc).trans (.of_eq rfl rfl rfl)
  · exact .refl t

theorem quiet_close : Quiet t (t.close pc) := by
  rw [close]
  split_ifs
  · exact .refl t
  · exact (quiet_removePeer _ pc).after rfl rfl rfl

theorem quiet_sendMessage (m : Sent) : Quiet t (t.sendMessage pc m) := by
  rw [sendMessage]
  split_ifs
  · exact .refl t
  · exact quiet_close t pc
  · exact .of_eq rfl rfl rfl

theorem quiet_sendInterested : Quiet t (t.sendInterested pc) :=
  (quiet_sendMessage _ pc .interested).after rfl rfl rfl

variable (b : PieceBlock)

theorem quiet_requestBlock : Quiet t (t.requestBlock pc b) := by
  rw [requestBlock]
  split
  · exact .refl t
  · rename_i picker hp
    have hmark : Quiet t (t.setPicker (picker.markRequested b pc)) :=
      .of_picker rfl rfl hp rfl rfl rfl fun b' hb' => by
        rwa [finished_markRequested] at hb'
    exact (hmark.trans (quiet_sendMessage _ pc _)).trans (.of_eq rfl rfl rfl)

theorem quiet_refill : Quiet t (t.refill w pc) := by
  rw [refill]
  split
  · exact .refl t
  · dsimp only
    split_ifs
    · exact .refl t
    · exact .of_eq rfl rfl rfl
    · exact .of_eq rfl rfl rfl
    · exact (Quiet.foldl (fun t b => quiet_requestBlock t pc b) _ _).after rfl rfl rfl

theorem quiet_refillAll : Quiet t (t.refillAll w) := by
  refine .rangeFor (fun t pc => ?_) t
  split_ifs
  · exact quiet_refill w t pc
  · exact .refl t

theorem quiet_updateInterest : Quiet t (t.updateInterest w pc) := by
  rw [updateInterest]
  split
  · exact .refl t
  extract_lets want told
  have htold : Quiet t told := by
    simp only [told]
    split_ifs
    · exact quiet_sendInterested t pc
    · exact (quiet_sendMessage _ pc .notInterested).after rfl rfl rfl
    · exact .refl t
  split_ifs
  · exact htold.trans (quiet_refill w told pc)
  · exact htold

theorem quiet_onHandshake : Quiet t (t.onHandshake pc) := by
  rw [onHandshake]
  split_ifs
  · exact quiet_close t pc
  · exact quiet_close t pc
  · extract_lets joined
    have hjoined : Quiet t joined := .of_eq rfl rfl rfl
    split
    · exact hjoined
    · exact hjoined.trans (quiet_sendMessage _ pc _)

theorem quiet_count (hp : t.picker = some picker) (bits : List Bool) :
    Quiet t (t.count picker pc bits) := by
  rw [count]
  split_ifs
  · exact .refl t
  · exact .of_picker rfl rfl hp rfl rfl rfl fun _ => id
  · exact .of_picker rfl rfl hp rfl rfl rfl fun _ => id

theorem quiet_onBitfield (bits : List Bool) : Quiet t (t.onBitfield w pc bits) := by
  rw [onBitfield]
  split
  · exact .refl t
  · rename_i picker hp
    exact (quiet_count t pc hp bits).trans (quiet_updateInterest w _ pc)

variable (piece : ℕ)

theorem quiet_onHave : Quiet t (t.onHave w pc piece) := by
  rw [onHave]
  split
  · exact .refl t
  rename_i picker hp
  split_ifs
  · exact .refl t
  extract_lets counted told
  have hcounted : Quiet t counted := .of_picker rfl rfl hp rfl rfl rfl fun _ => id
  have htold : Quiet t told := by
    simp only [told]
    split_ifs
    · exact hcounted.trans (quiet_sendInterested _ pc)
    · exact hcounted
  split_ifs
  · exact htold.trans (quiet_refill w told pc)
  · exact htold

theorem quiet_setPicker_cancelPeer (hp : t.picker = some picker) :
    Quiet t (t.setPicker (picker.cancelPeer pc)) :=
  .of_picker rfl rfl hp rfl rfl rfl fun b hb => by rwa [finished_cancelPeer] at hb

theorem quiet_onChoke (choking : Bool) : Quiet t (t.onChoke w pc choking) := by
  rw [onChoke]
  split
  · exact .refl t
  · rename_i picker hp
    split_ifs
    · exact (quiet_setPicker_cancelPeer t pc hp).trans (.of_eq rfl rfl rfl)
    · exact quiet_refill w t pc

theorem quiet_dispatch {m : Message} (hm : ∀ piece offset data, m ≠ .piece piece offset data) :
    Quiet t (t.dispatch w pc m) := by
  cases m with
  | choke => exact (quiet_onChoke w _ pc true).after rfl rfl rfl
  | unchoke => exact (quiet_onChoke w _ pc false).after rfl rfl rfl
  | havePiece piece =>
    rw [dispatch]
    split_ifs
    · exact (quiet_onHave w _ pc piece).after rfl rfl rfl
    · exact .of_eq rfl rfl rfl
  | bitfield payload =>
    rw [dispatch]
    extract_lets n
    split_ifs
    · exact quiet_close t pc
    · exact quiet_close t pc
    · exact (quiet_onBitfield w _ pc _).after rfl rfl rfl
  | piece piece offset data => exact absurd rfl (hm piece offset data)

theorem quiet_cancelOn : Quiet t (t.cancelOn b pc) := by
  rw [cancelOn]
  split_ifs
  · exact (quiet_sendMessage _ pc _).after rfl rfl rfl
  · exact .refl t

theorem quiet_dropPeers : Quiet t t.dropPeers :=
  (Quiet.rangeFor (fun t pc => quiet_close t pc) t).trans (.of_eq rfl rfl rfl)

theorem quiet_pause : Quiet t t.pause := by
  rw [pause]
  split_ifs
  · exact .refl t
  · exact (quiet_dropPeers _).after rfl rfl rfl

theorem quiet_releaseRequests : Quiet t (t.releaseRequests pc) := by
  rw [releaseRequests]
  split
  · exact .refl t
  · rename_i picker hp
    exact (quiet_setPicker_cancelPeer t pc hp).trans (.of_eq rfl rfl rfl)

theorem quiet_checkRequestTimeouts (stalled : List Peer) :
    Quiet t (t.checkRequestTimeouts w stalled) := by
  rw [checkRequestTimeouts]
  split_ifs
  · exact .refl t
  · have hfreed := Quiet.foldl (fun t pc => quiet_releaseRequests t pc) stalled t
    refine hfreed.trans (.rangeFor (fun t pc => ?_) _)
    split_ifs
    · exact quiet_refill w t pc
    · exact .refl t

theorem quiet_adopt : Quiet t (t.adopt w pc) := by
  rw [adopt]
  split
  · exact .refl t
  · rename_i picker hp
    have hcounted : Quiet t (t.setPicker (picker.incAvailability (t.conns pc).peerHave)) :=
      .of_picker rfl rfl hp rfl rfl rfl fun _ => id
    exact hcounted.trans (quiet_updateInterest w _ pc)

/-! ## Steps the disk takes part in -/

/-- A PIECE message hands its data to the disk iff it is well formed and the piece is not there. -/
theorem onPiece_cases (offset : ℕ) (data : Bytes) : (Quiet t (t.onPiece w pc piece offset data) ∧
      ¬(t.picker.isSome ∧ WellFormed info piece offset data ∧ t.has piece = false)) ∨
    (t.picker.isSome ∧ WellFormed info piece offset data ∧ t.has piece = false) ∧ ∃ t₁, Quiet t t₁ ∧
        Quiet (t₁.submit (.write piece offset data)) (t.onPiece w pc piece offset data) := by
  rw [onPiece]
  split
  · rename_i hp
    exact .inl ⟨.refl t, fun h => by simp [hp] at h⟩
  rename_i picker hp
  have hhas : t.has piece = picker.havePiece piece := by rw [has, hp, any_some]
  split_ifs with hpiece hoffset hdata hhave
  · exact .inl ⟨.refl t, fun h => absurd h.2.1.1 (not_lt.mpr hpiece)⟩
  · refine .inl ⟨.refl t, fun h => hoffset.elim (fun ho => ho h.2.1.2.1) fun ho => ?_⟩
    exact absurd h.2.1.2.2.1 (not_lt.mpr ho)
  · exact .inl ⟨.refl t, fun h => hdata h.2.1.2.2.2⟩
  · refine .inl ⟨(quiet_refill w _ pc).after rfl rfl rfl, fun h => ?_⟩
    rw [hhas, hhave] at h
    exact absurd h.2.2 (by decide)
  extract_lets freed b marked cancelled
  have hwf : WellFormed info piece offset data := by
    rw [not_or, not_not, not_le] at hoffset
    exact ⟨not_le.mp hpiece, hoffset.1, hoffset.2, not_not.mp hdata⟩
  have hmarked : Quiet t (freed.setPicker marked.2) :=
    .of_picker rfl rfl hp rfl (haveBits_markWriting b pc)
      (priority_markWriting b pc) fun b' hb' => by
        rwa [finished_markWriting] at hb'
  refine .inr ⟨⟨by rw [hp]; rfl, hwf, by rw [hhas]; simpa using hhave⟩, cancelled, ?_, ?_⟩
  · exact hmarked.trans (.foldl (fun t o => quiet_cancelOn t o b) _ _)
  · exact quiet_refill w _ pc

theorem onBlockWritten_cases (ok : Bool) : Quiet t (t.onBlockWritten w b ok) ∨
    ∃ picker, t.picker = some picker ∧ Quiet (t.settle picker b) (t.onBlockWritten w b ok) := by
  rw [onBlockWritten]
  split
  · exact .inl (.refl t)
  rename_i picker hp
  split_ifs with hrunning hok
  · exact .inl (.refl t)
  · exact .inl (quiet_restorePiece t hp b.piece)
  refine .inr ⟨picker, hp, ?_⟩
  change Quiet (t.settle picker b)
    (if (t.settle picker b).writeStalled && !w.overHighWater (t.settle picker b).draws then
      { t.settle picker b with
        writeStalled := false
        draws := (t.settle picker b).draws + 1 }.refillAll w
    else { t.settle picker b with draws := (t.settle picker b).draws + 1 })
  split_ifs
  · exact (quiet_refillAll w _).after rfl rfl rfl
  · exact .of_eq rfl rfl rfl

theorem onPieceHashed_cases [DecidableEq H] (ok : Bool) (hash : H) :
    ((!t.running || t.picker.isNone || !ok || hash != info.pieceHash piece) = true ∧
      Quiet t (t.onPieceHashed w piece ok hash)) ∨
    ∃ picker, t.running = true ∧ t.picker = some picker ∧ ok = true ∧ hash = info.pieceHash piece ∧
      Quiet (t.setPicker (picker.weHave piece)) (t.onPieceHashed w piece ok hash) := by
  rw [onPieceHashed]
  split
  · rename_i hp
    exact .inl ⟨by simp [hp], .refl t⟩
  rename_i picker hp
  split_ifs with hrunning hbad
  · exact .inl ⟨by simp [hrunning], .refl t⟩
  · exact .inl ⟨by rw [Bool.or_assoc, hbad, Bool.or_true], quiet_restorePiece t hp piece⟩
  · rw [Bool.not_eq_true', Bool.not_eq_false] at hrunning
    rw [Bool.or_eq_true, not_or, Bool.not_eq_true', Bool.not_eq_false, bne_iff_ne, not_not]
      at hbad
    exact .inr ⟨picker, hrunning, hp, hbad.1, hbad.2, .rangeFor (fun t pc =>
      (quiet_sendMessage t pc _).trans (quiet_updateInterest w _ pc)) _⟩

theorem onCheckComplete_cases (bits : List Bool) :
    ((t.picker = none ∨ t.running = false) ∧ t.onCheckComplete w bits = t) ∨
    ∃ picker, t.picker = some picker ∧ t.running = true ∧
      Quiet (t.setPicker (picker.setHaveBitfield bits)) (t.onCheckComplete w bits) := by
  rw [onCheckComplete]
  split
  · exact .inl ⟨.inl ‹_›, rfl⟩
  rename_i picker hp
  split_ifs with hrunning <;> rw [Bool.not_eq_true'] at hrunning
  · exact .inl ⟨.inr hrunning, rfl⟩
  · refine .inr ⟨picker, hp, eq_true_of_ne_false hrunning, .foldl (fun t pc => ?_) _ _⟩
    extract_lets told
    have htold : Quiet t told := .foldl (fun t p => quiet_sendMessage t pc _) _ t
    split_ifs
    · exact htold.trans (quiet_updateInterest w _ pc)
    · exact htold
    · exact .refl t

theorem quiet_promote : ∃ t₁, Quiet (t.setPicker .new) t₁ ∧ t.promote w = t₁.submit .check :=
  ⟨_, .rangeFor (fun t pc => quiet_adopt w t pc) _, rfl⟩

/-! ## Unrequested data -/

theorem submitted_onPiece (offset : ℕ) (data : Bytes) :
    (t.onPiece w pc piece offset data).submitted ≠ t.submitted ↔
      t.picker.isSome ∧ WellFormed info piece offset data ∧ t.has piece = false := by
  rcases onPiece_cases w t pc piece offset data with ⟨hquiet, hnot⟩ | ⟨hwrite, t₁, h₁, h₂⟩
  · exact ⟨fun hne => absurd hquiet.submitted hne, fun h => absurd h hnot⟩
  · refine ⟨fun _ => hwrite, fun _ => ?_⟩
    rw [h₂.submitted, submit, h₁.submitted]
    simp

/-- **The data of a PIECE message goes to disk only if it was requested from its sender, just if the
message is malformed, the piece is already there, or the block is requested from the sender.** -/
theorem onPiece_requested_iff (piece offset : ℕ) (data : Bytes) :
    ((t.dispatch w pc (.piece piece offset data)).submitted ≠ t.submitted →
        t.requestedFrom pc ⟨piece, offset / kBlockSize⟩ = true) ↔
      t.picker = none ∨ ¬WellFormed info piece offset data ∨ t.has piece = true ∨
        t.requestedFrom pc ⟨piece, offset / kBlockSize⟩ = true := by
  rw [dispatch, submitted_onPiece, ← isNone_iff_eq_none, ← Bool.not_eq_true (t.has piece),
    ← not_isSome, Bool.not_eq_true', ← Bool.not_eq_true]
  tauto

/-- One piece of one byte, its own hash. -/
def oneByte : TorrentInfo Bytes where
  numPieces := 1
  pieceLength := 1
  totalSize := 1
  pieceHash _ := [7]
  location p k := if p = 0 ∧ k = 0 then some ([102], 0) else none

/-- Nothing is ever requested. -/
def idle : World oneByte.toLayout ℕ where
  pickBlocks _ _ _ _ _ := []
  overHighWater _ := false

/-- A torrent with checked files and one peer that was never asked for anything. -/
def checked : Torrent oneByte ℕ :=
  (((new fun _ => .new 1).start true).onCheckComplete idle [false]).onHandshake 0

/-- A peer that was asked for nothing gets its data written. -/
theorem unrequested_written :
    (checked.dispatch idle 0 (.piece 0 0 [9])).submitted = checked.submitted ++ [.write 0 0 [9]] ∧
      checked.requestedFrom 0 ⟨0, 0⟩ = false := by
  decide +kernel

end Torrent

end Librats.BitTorrent
