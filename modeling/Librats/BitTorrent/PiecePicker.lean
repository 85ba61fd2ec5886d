import Mathlib.Data.List.Basic
import Mathlib.Data.UInt
import Mathlib.Tactic

/-!
# The piece picker

Which pieces are on disk, how many peers have each piece, and for every piece under way the state of
its blocks. The index, the cursor and the end-game flag only serve the choice of blocks and are left
out, as are the counters of requested and of written blocks, never read.
-/

namespace Librats.BitTorrent

open List Option

/-! ## Pieces and blocks -/

def kBlockSize : ℕ := 16 * 1024

theorem kBlockSize_pos : 0 < kBlockSize := by decide

/-- How a torrent's bytes are cut into pieces. -/
structure Layout where
  numPieces : ℕ
  pieceLength : ℕ
  totalSize : ℕ

namespace Layout

variable (g : Layout)

/-- All pieces have the same length, except the last one. -/
def pieceSize (piece : ℕ) : ℕ :=
  if piece + 1 < g.numPieces then g.pieceLength
  else min (g.totalSize - piece * g.pieceLength) g.pieceLength

def blocksInPiece (piece : ℕ) : ℕ := (g.pieceSize piece + kBlockSize - 1) / kBlockSize

def blockSize (piece block : ℕ) : ℕ := min kBlockSize (g.pieceSize piece - block * kBlockSize)

variable {g}

theorem div_lt_blocksInPiece {piece offset : ℕ} (h : offset < g.pieceSize piece) :
    offset / kBlockSize < g.blocksInPiece piece := by
  rw [blocksInPiece, Nat.div_lt_iff_lt_mul kBlockSize_pos]
  have hsize := Nat.lt_mul_div_succ (g.pieceSize piece + kBlockSize - 1) kBlockSize_pos
  rw [Nat.mul_succ, Nat.mul_comm kBlockSize] at hsize
  omega

end Layout

structure PieceBlock where
  piece : ℕ
  block : ℕ
  deriving DecidableEq

inductive BlockState
  | none
  | requested
  | writing
  | finished
  deriving DecidableEq

inductive PiecePriority
  | dontDownload
  | normal
  | high
  deriving DecidableEq

/-- A block and the peers it is requested from. -/
structure Block (Peer : Type) where
  state : BlockState
  peers : List Peer

open Block

namespace Block

variable {Peer : Type}

def fresh : Block Peer := ⟨.none, []⟩

def isFinished (blk : Block Peer) : Bool := blk.state == .finished

/-- The data of a requested block goes to disk. -/
def write (blk : Block Peer) : Block Peer :=
  if blk.state = .requested then ⟨.writing, []⟩ else blk

theorem isFinished_write (blk : Block Peer) : blk.write.isFinished = blk.isFinished := by
  simp only [isFinished, write]
  split_ifs with h <;> simp [h]

variable [DecidableEq Peer] (peer : Peer)

section

variable (blk : Block Peer)

/-- `peer` is asked for the block. -/
def request : Block Peer where
  state := if blk.state = .none then .requested else blk.state
  peers := if peer ∈ blk.peers then blk.peers else blk.peers ++ [peer]

/-- `peer` is no longer asked; a block nobody is asked for is free again. -/
def cancel : Block Peer where
  state := if blk.state = .requested ∧ blk.peers.filter (· ≠ peer) = [] then .none else blk.state
  peers := blk.peers.filter (· ≠ peer)

theorem isFinished_request : (blk.request peer).isFinished = blk.isFinished := by
  simp only [isFinished, request]
  split_ifs with h <;> simp [h]

theorem isFinished_cancel : (blk.cancel peer).isFinished = blk.isFinished := by
  simp only [isFinished, cancel]
  split_ifs with h <;> simp [h]

end

end Block

/-! ## Pieces under way -/

/-- The blocks of a piece under way, with the number of finished ones in 16 bits: a piece of more
blocks is never found complete. -/
structure DownloadingPiece (Peer : Type) (n : ℕ) where
  blocks : List (Block Peer)
  length_blocks : blocks.length = n
  numFinished : UInt16
  numFinished_eq : numFinished = UInt16.ofNat (blocks.countP isFinished)

open DownloadingPiece

namespace DownloadingPiece

variable {Peer : Type} {n : ℕ}

theorem countP_modify {f : Block Peer → Block Peer}
    (hf : ∀ blk, (f blk).isFinished = blk.isFinished) (l : List (Block Peer)) (i : ℕ) :
    (l.modify i f).countP isFinished = l.countP isFinished := by
  induction l generalizing i with
  | nil => simp
  | cons blk l ih =>
    cases i with
    | zero => simp [countP_cons, hf]
    | succ i => simp [countP_cons, ih]

theorem countP_finish (l : List (Block Peer)) (i : ℕ) :
    (l.modify i fun _ => ⟨.finished, []⟩).countP isFinished =
      l.countP isFinished + if l[i]?.any (!·.isFinished) then 1 else 0 := by
  have hfinished : (⟨.finished, []⟩ : Block Peer).isFinished = true := rfl
  induction l generalizing i with
  | nil => simp
  | cons blk l ih =>
    cases i with
    | zero => cases h : blk.isFinished <;> simp [hfinished, h]
    | succ i =>
      simp only [modify_succ_cons, countP_cons, ih, getElem?_cons_succ]
      omega

/-- No block has been asked for yet. -/
def fresh : DownloadingPiece Peer n where
  blocks := List.replicate n .fresh
  length_blocks := length_replicate
  numFinished := 0
  numFinished_eq := by
    rw [countP_replicate]
    rfl

variable (dp : DownloadingPiece Peer n)

/-- Block `i` changes to one that is finished just if it was. -/
def modify (i : ℕ) (f : Block Peer → Block Peer)
    (hf : ∀ blk, (f blk).isFinished = blk.isFinished) : DownloadingPiece Peer n where
  blocks := dp.blocks.modify i f
  length_blocks := (length_modify ..).trans dp.length_blocks
  numFinished := dp.numFinished
  numFinished_eq := by rw [countP_modify hf, dp.numFinished_eq]

def map (f : Block Peer → Block Peer)
    (hf : ∀ blk, (f blk).isFinished = blk.isFinished) : DownloadingPiece Peer n where
  blocks := dp.blocks.map f
  length_blocks := (length_map ..).trans dp.length_blocks
  numFinished := dp.numFinished
  numFinished_eq := by
    rw [dp.numFinished_eq, countP_map]
    exact congrArg _ (countP_congr fun blk _ => by simp [hf])

/-- Block `i` is on disk. -/
def finish (i : ℕ) : DownloadingPiece Peer n where
  blocks := dp.blocks.modify i fun _ => ⟨.finished, []⟩
  length_blocks := (length_modify ..).trans dp.length_blocks
  numFinished := if dp.blocks[i]?.any (!·.isFinished) then dp.numFinished + 1 else dp.numFinished
  numFinished_eq := by
    rw [countP_finish, dp.numFinished_eq]
    split_ifs <;> simp

def complete : Bool := dp.numFinished.toNat == dp.blocks.length

variable {dp : DownloadingPiece Peer n}

theorem isFinished_of_complete (h : dp.complete = true) :
    ∀ blk ∈ dp.blocks, blk.isFinished = true := by
  rw [complete, beq_iff_eq, dp.numFinished_eq] at h
  have hmod := Nat.mod_le (dp.blocks.countP isFinished) (2 ^ 16)
  have hle := countP_le_length (p := isFinished) (l := dp.blocks)
  exact countP_eq_length.mp (le_antisymm hle (h ▸ hmod))

/-- Block `i` is on disk, as far as the picker knows. -/
def finishedAt (dp : DownloadingPiece Peer n) (i : ℕ) : Bool := dp.blocks[i]?.any isFinished

@[simp]
theorem finishedAt_fresh (i : ℕ) : (fresh : DownloadingPiece Peer n).finishedAt i = false := by
  rw [finishedAt, fresh, getElem?_replicate]
  split_ifs <;> rfl

@[simp]
theorem finishedAt_modify (dp : DownloadingPiece Peer n) (i j : ℕ) (f : Block Peer → Block Peer)
    (hf : ∀ blk, (f blk).isFinished = blk.isFinished) :
    (dp.modify i f hf).finishedAt j = dp.finishedAt j := by
  rw [finishedAt, modify, getElem?_modify, finishedAt]
  cases dp.blocks[j]? with
  | none => rfl
  | some blk =>
    split_ifs with h
    · exact hf blk
    · rfl

@[simp]
theorem finishedAt_map (dp : DownloadingPiece Peer n) (j : ℕ) (f : Block Peer → Block Peer)
    (hf : ∀ blk, (f blk).isFinished = blk.isFinished) :
    (dp.map f hf).finishedAt j = dp.finishedAt j := by
  rw [finishedAt, map, getElem?_map, finishedAt]
  cases dp.blocks[j]? with
  | none => rfl
  | some blk => exact hf blk

theorem finishedAt_finish {i j : ℕ} (h : (dp.finish i).finishedAt j = true) :
    dp.finishedAt j = true ∨ j = i := by
  by_cases hij : i = j
  · exact .inr hij.symm
  · left
    simpa [finishedAt, finish, getElem?_modify, hij] using h

theorem finishedAt_of_complete (h : dp.complete = true) {i : ℕ} (hi : i < n) :
    dp.finishedAt i = true := by
  rw [← dp.length_blocks] at hi
  rw [finishedAt, getElem?_eq_getElem hi]
  exact isFinished_of_complete h _ (getElem_mem hi)

end DownloadingPiece

/-! ## The picker -/

/-- Bit `piece` of a bitfield, false behind its end. -/
def hasBit (bits : List Bool) (piece : ℕ) : Bool := bits[piece]?.getD false

theorem hasBit_replicate_false (n p : ℕ) : hasBit (List.replicate n false) p = false := by
  rw [hasBit, getElem?_replicate]
  split_ifs <;> rfl

theorem hasBit_set_true (bits : List Bool) {piece : ℕ} (hpiece : piece < bits.length) (p : ℕ) :
    hasBit (bits.set piece true) p = (hasBit bits p || decide (p = piece)) := by
  by_cases hp : p = piece
  · subst hp
    simp [hasBit, hpiece]
  · simp [hasBit, hp, getElem?_set_ne (Ne.symm hp)]

theorem hasBit_of_count {bits : List Bool} (h : bits.count true = bits.length) {p : ℕ}
    (hp : p < bits.length) : hasBit bits p = true := by
  rw [hasBit, getElem?_eq_getElem hp]
  exact (count_eq_length.mp h _ (getElem_mem hp)).symm

structure PiecePicker (g : Layout) (Peer : Type) where
  availability : ℕ → ℕ
  priority : ℕ → PiecePriority
  haveBits : ℕ → Bool
  seeds : ℕ
  downloading : (piece : ℕ) → Option (DownloadingPiece Peer (g.blocksInPiece piece))

namespace PiecePicker

variable {g : Layout} {Peer : Type}

/-- Every piece is wanted and none is there. -/
def new : PiecePicker g Peer where
  availability _ := 0
  priority _ := .normal
  haveBits _ := false
  seeds := 0
  downloading _ := none

variable (picker : PiecePicker g Peer) (piece : ℕ)

def havePiece : Bool := picker.haveBits piece

def wanted : Bool := !picker.haveBits piece && picker.priority piece != .dontDownload

def pieceInteresting : Bool := decide (piece < g.numPieces) && picker.wanted piece

/-- Nothing that is wanted is missing. -/
def isFinished : Bool := (List.range g.numPieces).all fun p => !picker.wanted p

variable (peerHave : List Bool)

def isInteresting : Bool :=
  (List.range g.numPieces).any fun p => picker.wanted p && hasBit peerHave p

/-- The blocks of a piece, those of a fresh one if it is not under way. -/
def downloadingFor : DownloadingPiece Peer (g.blocksInPiece piece) :=
  (picker.downloading piece).getD .fresh

def setDownloading (dp : Option (DownloadingPiece Peer (g.blocksInPiece piece))) :
    PiecePicker g Peer :=
  { picker with downloading := Function.update picker.downloading piece dp }

/-! ### Our progress -/

def weHave : PiecePicker g Peer :=
  if picker.havePiece piece then picker
  else { picker.setDownloading piece none with
    haveBits := Function.update picker.haveBits piece true }

/-- `weHave` for every piece of the bitfield. -/
def setHaveBitfield (bits : List Bool) : PiecePicker g Peer :=
  (List.range g.numPieces).foldl (fun q p => if hasBit bits p then q.weHave p else q) picker

/-- A piece that is no longer wanted loses its blocks under way. -/
def setPiecePriority (priority : PiecePriority) : PiecePicker g Peer :=
  if picker.priority piece = priority then picker
  else
    let dropped := !picker.havePiece piece && picker.priority piece != .dontDownload &&
      priority == .dontDownload
    { if dropped then picker.setDownloading piece none else picker with
      priority := Function.update picker.priority piece priority }

/-! ### Availability -/

def peerHasPiece : PiecePicker g Peer :=
  { picker with
    availability := Function.update picker.availability piece (picker.availability piece + 1) }

def incAvailability : PiecePicker g Peer :=
  { picker with availability := fun p =>
      if p < g.numPieces ∧ hasBit peerHave p then picker.availability p + 1
      else picker.availability p }

/-- The counts stop at zero. -/
def decAvailability : PiecePicker g Peer :=
  { picker with availability := fun p =>
      if p < g.numPieces ∧ hasBit peerHave p then picker.availability p - 1
      else picker.availability p }

def incAvailabilityAll : PiecePicker g Peer := { picker with seeds := picker.seeds + 1 }

def decAvailabilityAll : PiecePicker g Peer := { picker with seeds := picker.seeds - 1 }

/-! ### The blocks -/

variable (b : PieceBlock)

/-- A block of a piece under way. -/
def find : Option (Block Peer) :=
  (picker.downloading b.piece).bind (·.blocks[b.block]?)

def blockState : BlockState :=
  if picker.havePiece b.piece then .finished
  else ((picker.find b).map (·.state)).getD .none

/-- The peers a block is requested from. -/
def requesters : List Peer := ((picker.find b).map (·.peers)).getD []

def restorePiece : PiecePicker g Peer := picker.setDownloading piece none

def markFinished : Bool × PiecePicker g Peer :=
  let dp := (picker.downloadingFor b.piece).finish b.block
  (dp.complete, picker.setDownloading b.piece (some dp))

variable [DecidableEq Peer]

def markRequested (peer : Peer) : PiecePicker g Peer :=
  picker.setDownloading b.piece (some ((picker.downloadingFor b.piece).modify b.block
    (request peer) (isFinished_request peer)))

/-- The data of a block has come from `peer`; the other peers asked are returned. -/
def markWriting (peer : Peer) : List Peer × PiecePicker g Peer :=
  match picker.downloading b.piece with
  | none => ([], picker)
  | some dp =>
    let others := match dp.blocks[b.block]? with
      | some blk => if blk.state = .requested then blk.peers.filter (· ≠ peer) else []
      | none => []
    (others,
      picker.setDownloading b.piece (some (dp.modify b.block write isFinished_write)))

/-- A request was refused. -/
def abortBlock (peer : Peer) : PiecePicker g Peer :=
  match picker.downloading b.piece with
  | none => picker
  | some dp =>
    picker.setDownloading b.piece (some (dp.modify b.block (cancel peer)
      (isFinished_cancel peer)))

def cancelPeer (peer : Peer) : PiecePicker g Peer :=
  { picker with downloading := fun p =>
      (picker.downloading p).map (·.map (cancel peer) (isFinished_cancel peer)) }

end PiecePicker

namespace PiecePicker

variable {g : Layout} {Peer : Type} {picker : PiecePicker g Peer}

/-! ### The pieces we have -/

theorem haveBits_weHave (piece p : ℕ) :
    (picker.weHave piece).haveBits p = (picker.haveBits p || decide (p = piece)) := by
  rw [weHave]
  split_ifs with h
  · by_cases hp : p = piece
    · rw [hp, show picker.haveBits piece = true from h]
      rfl
    · simp [hp]
  · by_cases hp : p = piece
    · simp [hp]
    · simp [hp]

variable {bits : List Bool} {piece : ℕ} {b : PieceBlock}

theorem setHaveBitfield_induction {P : PiecePicker g Peer → Prop}
    (hstep : ∀ q p, hasBit bits p = true → P q → P (q.weHave p)) (h : P picker) :
    P (picker.setHaveBitfield bits) := by
  refine List.foldlRecOn (List.range g.numPieces) _ h fun q hq p _ => ?_
  split_ifs with hbit
  · exact hstep q p hbit hq
  · exact hq

theorem haveBits_setHaveBitfield {p : ℕ} (h : (picker.setHaveBitfield bits).haveBits p = true) :
    picker.haveBits p = true ∨ hasBit bits p = true := by
  revert h
  refine setHaveBitfield_induction (P := fun q => q.haveBits p = true →
    picker.haveBits p = true ∨ hasBit bits p = true) (fun q x hx hq h => ?_) Or.inl
  rw [haveBits_weHave, Bool.or_eq_true, decide_eq_true_iff] at h
  rcases h with h | rfl
  · exact hq h
  · exact .inr hx

theorem haveBits_setHaveBitfield_eq (bits : List Bool) (p : ℕ) :
    (picker.setHaveBitfield bits).haveBits p =
      (picker.haveBits p || (decide (p < g.numPieces) && hasBit bits p)) := by
  -- the pieces below `n` have been gone through
  have hloop (n : ℕ) : ((List.range n).foldl (fun q p => if hasBit bits p then q.weHave p else q)
      picker).haveBits p = (picker.haveBits p || (decide (p < n) && hasBit bits p)) := by
    induction n with
    | zero => simp
    | succ n ih =>
      rw [range_succ, foldl_append, foldl_cons]
      by_cases hpn : p = n
      · subst hpn
        split_ifs with hbit
        · simp [haveBits_weHave, hbit]
        · simp [ih, hbit]
      · have hlt : p < n + 1 ↔ p < n := by omega
        split_ifs
        · simp [haveBits_weHave, ih, hpn, hlt]
        · simp [ih, hlt]
  exact hloop g.numPieces

theorem haveBits_markWriting [DecidableEq Peer] (b : PieceBlock) (peer : Peer) :
    (picker.markWriting b peer).2.haveBits = picker.haveBits := by
  rw [markWriting]
  split <;> rfl

theorem priority_markWriting [DecidableEq Peer] (b : PieceBlock) (peer : Peer) :
    (picker.markWriting b peer).2.priority = picker.priority := by
  rw [markWriting]
  split <;> rfl

theorem priority_weHave (piece : ℕ) : (picker.weHave piece).priority = picker.priority := by
  rw [weHave]
  split_ifs <;> rfl

theorem tally_weHave (piece : ℕ) : (picker.weHave piece).availability = picker.availability ∧
    (picker.weHave piece).seeds = picker.seeds := by
  rw [weHave]
  split_ifs <;> exact ⟨rfl, rfl⟩

theorem tally_setHaveBitfield (bits : List Bool) :
    (picker.setHaveBitfield bits).availability = picker.availability ∧
      (picker.setHaveBitfield bits).seeds = picker.seeds :=
  setHaveBitfield_induction
    (P := fun q => q.availability = picker.availability ∧ q.seeds = picker.seeds)
    (fun _ p _ hq => ⟨(tally_weHave p).1.trans hq.1, (tally_weHave p).2.trans hq.2⟩) ⟨rfl, rfl⟩

theorem priority_setHaveBitfield (bits : List Bool) :
    (picker.setHaveBitfield bits).priority = picker.priority :=
  setHaveBitfield_induction (P := fun q => q.priority = picker.priority)
    (fun _ p _ hq => (priority_weHave p).trans hq) rfl

/-! ### The finished blocks -/

/-- The block is finished in a piece under way. -/
def finished (picker : PiecePicker g Peer) (b : PieceBlock) : Bool :=
  (picker.downloading b.piece).any (·.finishedAt b.block)

theorem finished_setDownloading_self (piece i : ℕ)
    (dp : Option (DownloadingPiece Peer (g.blocksInPiece piece))) :
    (picker.setDownloading piece dp).finished ⟨piece, i⟩ = dp.any (·.finishedAt i) := by
  simp [finished, setDownloading]

theorem finished_setDownloading_of_ne (hb : b.piece ≠ piece)
    (dp : Option (DownloadingPiece Peer (g.blocksInPiece piece))) :
    (picker.setDownloading piece dp).finished b = picker.finished b := by
  simp [finished, setDownloading, hb]

theorem finishedAt_downloadingFor (piece i : ℕ) :
    (picker.downloadingFor piece).finishedAt i = picker.finished ⟨piece, i⟩ := by
  rw [downloadingFor, finished]
  cases picker.downloading piece <;> simp

theorem finished_restorePiece (h : (picker.restorePiece piece).finished b = true) :
    picker.finished b = true := by
  obtain ⟨p, i⟩ := b
  by_cases hp : p = piece
  · subst hp
    rw [restorePiece, finished_setDownloading_self] at h
    cases h
  · rwa [restorePiece, finished_setDownloading_of_ne hp] at h

theorem finished_weHave (h : (picker.weHave piece).finished b = true) :
    picker.finished b = true := by
  rw [weHave] at h
  split_ifs at h
  · exact h
  · exact finished_restorePiece (show (picker.restorePiece piece).finished b = true from h)

theorem finished_setHaveBitfield (h : (picker.setHaveBitfield bits).finished b = true) :
    picker.finished b = true := by
  revert h
  exact setHaveBitfield_induction (P := fun q => q.finished b = true → picker.finished b = true)
    (fun q p _ hq h => hq (finished_weHave h)) id

theorem finished_markFinished {b' : PieceBlock} (h : (picker.markFinished b).2.finished b' = true) :
    picker.finished b' = true ∨ b' = b := by
  obtain ⟨p, i⟩ := b
  obtain ⟨q, j⟩ := b'
  by_cases hq : q = p
  · subst hq
    rw [markFinished, finished_setDownloading_self] at h
    rcases finishedAt_finish h with hj | hj
    · exact .inl (finishedAt_downloadingFor q j ▸ hj)
    · exact .inr (by rw [hj])
  · left
    rwa [markFinished, finished_setDownloading_of_ne hq] at h

theorem finished_of_markFinished (h : (picker.markFinished b).1 = true) {i : ℕ}
    (hi : i < g.blocksInPiece b.piece) :
    (picker.markFinished b).2.finished ⟨b.piece, i⟩ = true := by
  rw [markFinished, finished_setDownloading_self]
  exact finishedAt_of_complete h hi

variable [DecidableEq Peer]

theorem finished_markRequested (b b' : PieceBlock) (peer : Peer) :
    (picker.markRequested b peer).finished b' = picker.finished b' := by
  obtain ⟨p, i⟩ := b
  obtain ⟨q, j⟩ := b'
  by_cases hq : q = p
  · subst hq
    rw [markRequested, finished_setDownloading_self, any_some,
      finishedAt_modify, finishedAt_downloadingFor]
  · rw [markRequested, finished_setDownloading_of_ne hq]

theorem finished_markWriting (b b' : PieceBlock) (peer : Peer) :
    (picker.markWriting b peer).2.finished b' = picker.finished b' := by
  obtain ⟨p, i⟩ := b
  obtain ⟨q, j⟩ := b'
  rw [markWriting]
  split
  · rfl
  · rename_i dp hdp
    by_cases hq : q = p
    · subst hq
      rw [finished_setDownloading_self, any_some, finishedAt_modify,
        finished, show picker.downloading q = some dp from hdp, any_some]
    · rw [finished_setDownloading_of_ne hq]

theorem finished_cancelPeer (b : PieceBlock) (peer : Peer) :
    (picker.cancelPeer peer).finished b = picker.finished b := by
  simp only [finished, cancelPeer]
  cases picker.downloading b.piece <;> simp

/-! ### The requests -/

theorem requesters_cancelPeer (b : PieceBlock) (peer : Peer) :
    (picker.cancelPeer peer).requesters b = (picker.requesters b).filter (· ≠ peer) := by
  simp only [requesters, find, cancelPeer]
  cases picker.downloading b.piece with
  | none => rfl
  | some dp =>
    simp only [map_some, bind_some, DownloadingPiece.map, getElem?_map]
    cases dp.blocks[b.block]? <;> rfl

end PiecePicker

end Librats.BitTorrent
