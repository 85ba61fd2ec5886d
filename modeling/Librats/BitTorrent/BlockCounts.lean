import Librats.BitTorrent.TorrentLayout
import Librats.BitTorrent.PiecePicker

/-!
# The block counters of a piece

A piece under way counts its blocks by their state in three 16-bit numbers (`DownloadingPiece` of
`piece_picker.h`). A piece that is not under way is a fresh one here, since the operations that look
for it first would not change a fresh one either.
-/

namespace Librats.BitTorrent

open List

variable {Peer : Type}

/-- The blocks of a piece; `num .requested`, `num .writing` and `num .finished` are its counters. -/
structure CountedPiece (Peer : Type) where
  blocks : List (Block Peer)
  num : BlockState → UInt16

namespace CountedPiece

def fresh (n : ℕ) : CountedPiece Peer := ⟨replicate n .fresh, fun _ => 0⟩

/-- A block is moved from one counter to another. -/
def moved (num : BlockState → UInt16) (old new : BlockState) (σ : BlockState) : UInt16 :=
  num σ - (if old = σ then 1 else 0) + if new = σ then 1 else 0

variable (p : CountedPiece Peer)

def change (i : ℕ) (f : Block Peer → Block Peer) : CountedPiece Peer :=
  match p.blocks[i]? with
  | none => p
  | some blk => ⟨p.blocks.set i (f blk), moved p.num blk.state (f blk).state⟩

/-- What `mark_finished` returns. -/
def complete : Bool := (p.num .finished).toNat == p.blocks.length

/-- The operations on a piece. -/
inductive BlockOp (Peer : Type)
  | markRequested (i : ℕ) (peer : Peer)
  | markWriting (i : ℕ)
  | markFinished (i : ℕ)
  | abortBlock (i : ℕ) (peer : Peer)
  | cancelPeer (peer : Peer)
  | restorePiece

variable [DecidableEq Peer]

def step : BlockOp Peer → CountedPiece Peer
  | .markRequested i peer => p.change i (Block.request peer)
  | .markWriting i => p.change i Block.write
  | .markFinished i => p.change i fun _ => ⟨.finished, []⟩
  | .abortBlock i peer => p.change i (Block.cancel peer)
  | .cancelPeer peer => (range p.blocks.length).foldl (fun p i => p.change i (Block.cancel peer)) p
  | .restorePiece => fresh p.blocks.length

def run (n : ℕ) (ops : List (BlockOp Peer)) : CountedPiece Peer :=
  ops.foldl (fun p o => p.step o) (fresh n)

/-- The counters are right up to overflow. -/
def Tallied : Prop :=
  ∀ σ ≠ .none, p.num σ = UInt16.ofNat (p.blocks.countP (·.state == σ))

variable {p}

omit [DecidableEq Peer] in
theorem tallied_fresh (n : ℕ) : Tallied (fresh n : CountedPiece Peer) := by
  intro σ hσ
  rw [fresh, countP_replicate, if_neg (by simpa [Block.fresh] using hσ.symm)]
  rfl

omit [DecidableEq Peer] in
theorem Tallied.change (h : Tallied p) (i : ℕ) (f : Block Peer → Block Peer) :
    Tallied (p.change i f) := by
  rw [CountedPiece.change]
  split
  · exact h
  · rename_i blk hblk
    obtain ⟨hi, rfl⟩ := List.getElem?_eq_some_iff.mp hblk
    intro σ hσ
    have hle : (if p.blocks[i].state == σ then 1 else 0) ≤ p.blocks.countP (·.state == σ) := by
      split_ifs with hstate
      · exact countP_pos_iff.mpr ⟨_, getElem_mem hi, hstate⟩
      · exact Nat.zero_le _
    dsimp only
    rw [moved, h σ hσ, countP_set hi, UInt16.ofNat_add, UInt16.ofNat_sub hle]
    simp only [beq_iff_eq, apply_ite UInt16.ofNat]
    rfl

theorem Tallied.step (h : Tallied p) (o : BlockOp Peer) : Tallied (p.step o) := by
  cases o with
  | cancelPeer peer =>
    exact foldlRecOn _ _ h fun q hq i _ => hq.change i _
  | restorePiece => exact tallied_fresh _
  | _ => exact h.change _ _

theorem tallied_run (n : ℕ) (ops : List (BlockOp Peer)) : Tallied (run n ops) :=
  foldlRecOn ops _ (tallied_fresh n) fun _ h o _ => h.step o

omit [DecidableEq Peer] in
/-- A `DownloadingPiece` with these blocks has this number of finished ones. -/
theorem Tallied.num_finished (h : Tallied p) {n : ℕ} {dp : DownloadingPiece Peer n}
    (hblocks : dp.blocks = p.blocks) : p.num .finished = dp.numFinished := by
  rw [h _ (by decide), dp.numFinished_eq, hblocks]
  rfl

theorem length_step (p : CountedPiece Peer) (o : BlockOp Peer) :
    (p.step o).blocks.length = p.blocks.length := by
  have hchange (q : CountedPiece Peer) (i : ℕ) (f : Block Peer → Block Peer) :
      (q.change i f).blocks.length = q.blocks.length := by
    rw [CountedPiece.change]
    split
    · rfl
    · exact length_set
  cases o with
  | cancelPeer peer =>
    exact foldlRecOn (motive := fun q => q.blocks.length = p.blocks.length) _ _ rfl
      fun q hq i _ => (hchange q i _).trans hq
  | restorePiece => exact length_replicate
  | _ => exact hchange _ _ _

theorem length_run (n : ℕ) (ops : List (BlockOp Peer)) : (run n ops).blocks.length = n :=
  foldlRecOn (motive := fun q => q.blocks.length = n) ops _ length_replicate
    fun q hq o _ => (length_step q o).trans hq

theorem blocks_finishing {n k : ℕ} (hk : k ≤ n) :
    (run n ((range k).map .markFinished) : CountedPiece Peer).blocks =
      replicate k ⟨.finished, []⟩ ++ replicate (n - k) .fresh := by
  induction k with
  | zero => simp [run, fresh]
  | succ k ih =>
    obtain ⟨m, hm⟩ : ∃ m, n - k = m + 1 := ⟨n - k - 1, by omega⟩
    have hrest : n - (k + 1) = m := by omega
    rw [range_succ, map_append, run, foldl_append, ← run]
    have hblocks := ih (by omega)
    rw [hm, replicate_succ] at hblocks
    simp [CountedPiece.step, change, hblocks, hrest, replicate_succ']

/-- Every counter is the number of blocks it counts, and `mark_finished` finds a piece complete just
if all its blocks are finished. -/
def Counts (n : ℕ) (ops : List (BlockOp Peer)) : Prop :=
  (∀ σ ≠ .none, ((run n ops).num σ).toNat = (run n ops).blocks.countP (·.state == σ)) ∧
    ∀ i, ((run n ops).step (.markFinished i)).complete = true ↔
      ∀ blk ∈ ((run n ops).step (.markFinished i)).blocks, blk.state = .finished

theorem lt_of_counts {n : ℕ} (h : ∀ ops : List (BlockOp Peer), Counts n ops) : n < 2 ^ 16 := by
  have hfinished := (h ((range n).map .markFinished)).1 .finished (by decide)
  rw [blocks_finishing le_rfl, Nat.sub_self] at hfinished
  simp only [replicate_zero, append_nil, countP_replicate, beq_self_eq_true, if_true] at hfinished
  exact hfinished ▸ UInt16.toNat_lt _

/-- **The counters are right just if they can count all blocks of the piece**, which is so up to a
size of `2 ^ 30 - 2 ^ 14` bytes. -/
theorem counts_iff (g : Layout) (piece : ℕ) :
    (∀ ops : List (BlockOp Peer), Counts (g.blocksInPiece piece) ops) ↔
      g.pieceSize piece ≤ 2 ^ 30 - 2 ^ 14 := by
  have hblocks : g.pieceSize piece ≤ 2 ^ 30 - 2 ^ 14 ↔ g.blocksInPiece piece < 2 ^ 16 := by
    rw [Layout.blocksInPiece, kBlockSize]
    omega
  rw [hblocks]
  generalize g.blocksInPiece piece = n
  refine ⟨lt_of_counts, fun hn ops => ?_⟩
  have hexact {p : CountedPiece Peer} (hp : Tallied p) (hlength : p.blocks.length = n)
      (σ : BlockState) (hσ : σ ≠ .none) : (p.num σ).toNat = p.blocks.countP (·.state == σ) := by
    rw [hp σ hσ]
    exact Nat.mod_eq_of_lt (countP_le_length.trans_lt (hlength ▸ hn))
  refine ⟨hexact (tallied_run n ops) (length_run n ops), fun i => ?_⟩
  have hlength := (length_step _ (.markFinished i)).trans (length_run n ops)
  rw [complete, hexact ((tallied_run n ops).step _) hlength _ (by decide)]
  simp

/-- **The largest piece a torrent may have never becomes complete**: a piece length of `2 ^ 30` is
accepted, and its `2 ^ 16` blocks overflow the counter. -/
theorem largest_piece_uncounted : (∃ ti, TorrentInfo.fromInfoDict (fun _ => [])
      (TorrentInfo.singleFile (2 ^ 30) (2 ^ 30) (replicate 20 0)).encode [] = .ok ti ∧
      ti.files.pieceLength = 2 ^ 30) ∧
    ¬∀ ops : List (BlockOp Unit), Counts (Layout.blocksInPiece ⟨1, 2 ^ 30, 2 ^ 30⟩ 0) ops := by
  constructor
  · rw [TorrentInfo.fromInfoDict, TorrentInfo.decode_singleFile]
    exact ⟨_, rfl, by decide +kernel⟩
  · exact fun h => absurd (lt_of_counts h) (by decide)

end CountedPiece

end Librats.BitTorrent
