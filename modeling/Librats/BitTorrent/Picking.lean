import Librats.BitTorrent.PieceOrder

/-!
# What is picked

`pick_blocks` returns the free blocks of the pieces under way and then of those to be started, and
in the end-game one block more that another peer was asked for (`pickBlocks_eq`). The end-game is
recognised by comparing two numbers, which a block that is written late can put wrong
(`early_endgame`).
-/

namespace Librats.BitTorrent.IndexedPicker

open List Function PiecePicker

variable {g : Layout} {Peer : Type} {s : IndexedPicker g Peer} {d : Draws} {peerHave : List Bool}
  {count : ℕ} {p : ℕ} {b : PieceBlock}

/-! ## The free blocks -/

/-- The pieces whose free blocks are taken, in this order. -/
def visited (s : IndexedPicker g Peer) (d : Draws) (peerHave : List Bool) : List ℕ :=
  (s.partials d ++ (s.candidates d).filter (!s.underWay ·)).filter
    fun p => s.picker.wanted p && hasBit peerHave p

theorem foldl_appendFreeBlocks (l : List ℕ) {out : List PieceBlock} (hout : out.length ≤ count) :
    l.foldl (s.appendFreeBlocks peerHave count) out =
      (out ++ (l.filter fun p => s.picker.wanted p && hasBit peerHave p).flatMap
        s.freeBlocks).take count := by
  induction l generalizing out with
  | nil => simp [take_of_length_le hout]
  | cons p l ih =>
    rw [foldl_cons, appendFreeBlocks]
    split_ifs with hp
    · -- what does not fit is cut off at the end as well
      have hfit : out ++ (s.freeBlocks p).take (count - out.length) =
          (out ++ s.freeBlocks p).take count := by rw [take_append, take_of_length_le hout]
      have hleft (n : ℕ) : count - min count n = count - n := by omega
      rw [hfit, ih (length_take_le _ _)]
      simp only [filter_cons, hp, if_true, flatMap_cons]
      rw [take_append, take_take, min_self, length_take, hleft, ← take_append, append_assoc]
    · rw [ih hout]
      simp only [filter_cons, hp, if_false, Bool.false_eq_true]

theorem blockState_eq_none_iff (hw : s.picker.wanted b.piece = true) :
    s.picker.blockState b = .none ↔ (s.picker.find b).all (·.state == .none) = true := by
  rw [wanted, Bool.and_eq_true, Bool.not_eq_true'] at hw
  rw [blockState, havePiece, hw.1]
  cases s.picker.find b <;> simp

theorem mem_freeBlocks : b ∈ s.freeBlocks p ↔ b.piece = p ∧ b.block < g.blocksInPiece p ∧
    (s.picker.find b).all (·.state == .none) = true := by
  obtain ⟨piece, block⟩ := b
  rw [freeBlocks, mem_filter, mem_map]
  constructor
  · rintro ⟨⟨i, hi, heq⟩, hfree⟩
    cases heq
    exact ⟨rfl, mem_range.mp hi, hfree⟩
  · rintro ⟨rfl, hi, hfree⟩
    exact ⟨⟨block, mem_range.mpr hi, rfl⟩, hfree⟩

theorem of_mem_visited (hb : b ∈ (s.visited d peerHave).flatMap s.freeBlocks) :
    (b.block < g.blocksInPiece b.piece ∧ s.picker.wanted b.piece = true ∧
      hasBit peerHave b.piece = true) ∧ s.picker.blockState b = .none := by
  obtain ⟨p, hp, hb⟩ := mem_flatMap.mp hb
  obtain ⟨rfl, hblock, hall⟩ := mem_freeBlocks.mp hb
  have hgood := (mem_filter.mp hp).2
  rw [Bool.and_eq_true] at hgood
  exact ⟨⟨hblock, hgood⟩, (blockState_eq_none_iff hgood.1).mpr hall⟩

variable [DecidableEq Peer]

/-- **What `pick_blocks` returns.** -/
theorem pickBlocks_eq (s : IndexedPicker g Peer) (d : Draws) (peerHave : List Bool) (count : ℕ)
    (peer : Peer) : ∃ busy : Option PieceBlock, (s.pickBlocks d peerHave count peer).1 =
        ((s.visited d peerHave).flatMap s.freeBlocks).take count ++ busy.toList ∧
      ∀ b ∈ busy, ((s.visited d peerHave).flatMap s.freeBlocks).length < count ∧
        s.piecesLeft ≤ (List.range g.numPieces).countP s.underWay ∧
        s.busyBlock d peerHave peer = some b := by
  have hfree : ((s.candidates d).filter (!s.underWay ·)).foldl (s.appendFreeBlocks peerHave count)
      ((s.partials d).foldl (s.appendFreeBlocks peerHave count) []) =
      ((s.visited d peerHave).flatMap s.freeBlocks).take count := by
    rw [← foldl_append, foldl_appendFreeBlocks _ (Nat.zero_le _)]
    rfl
  rw [pickBlocks, hfree]
  split_ifs with hfull hfew
  · exact ⟨none, (append_nil _).symm, (by simp)⟩
  · exact ⟨none, (append_nil _).symm, (by simp)⟩
  · split
    · rename_i b hbusy
      refine ⟨some b, rfl, ?_⟩
      rintro _ ⟨⟩
      rw [length_take] at hfull
      exact ⟨by omega, by omega, hbusy⟩
    · exact ⟨none, (append_nil _).symm, (by simp)⟩

/-! ## The end-game -/

/-- Blocks are marked in wanted pieces only. -/
def Operation.careful (picker : PiecePicker g Peer) : Operation Peer → Bool
  | .markRequested b _ | .markFinished b => picker.wanted b.piece
  | _ => true

/-- The pieces under way are wanted. -/
def Tidy (picker : PiecePicker g Peer) : Prop :=
  ∀ p, (picker.downloading p).isSome = true → picker.wanted p = true

variable {picker : PiecePicker g Peer}

omit [DecidableEq Peer] in
theorem Tidy.setDownloading (h : Tidy picker)
    {dp : Option (DownloadingPiece Peer (g.blocksInPiece p))}
    (hdp : dp.isSome = true → picker.wanted p = true) : Tidy (picker.setDownloading p dp) := by
  intro q hq
  by_cases hqp : q = p
  · subst hqp
    exact hdp (by simpa [PiecePicker.setDownloading] using hq)
  · exact h q (by simpa [PiecePicker.setDownloading, hqp] using hq)

omit [DecidableEq Peer] in
theorem Tidy.weHave (h : Tidy picker) (p : ℕ) : Tidy (picker.weHave p) := by
  rw [PiecePicker.weHave]
  split_ifs
  · exact h
  intro q hq
  have hqp : q ≠ p := by
    rintro rfl
    simp [PiecePicker.setDownloading] at hq
  simpa [wanted, PiecePicker.setDownloading, hqp] using
    h q (by simpa [PiecePicker.setDownloading, hqp] using hq)

omit [DecidableEq Peer] in
theorem Tidy.setPiecePriority (h : Tidy picker) (p : ℕ) (priority : PiecePriority) :
    Tidy (picker.setPiecePriority p priority) := by
  rw [PiecePicker.setPiecePriority]
  split_ifs
  · exact h
  extract_lets dropped kept
  have hkept : Tidy kept := by
    simp only [kept]
    split_ifs
    · exact h.setDownloading (by simp)
    · exact h
  have hfields : kept.haveBits = picker.haveBits ∧ kept.priority = picker.priority := by
    simp only [kept]
    split_ifs <;> exact ⟨rfl, rfl⟩
  intro q hq
  have hw := hkept q hq
  simp only [wanted, hfields] at hw ⊢
  by_cases hqp : q = p
  · subst hqp
    have hd : dropped = false := by
      by_contra hd
      simp [kept, Bool.not_eq_false _ ▸ hd, PiecePicker.setDownloading] at hq
    simp_all [dropped, havePiece]
  · simpa [hqp] using hw

theorem Tidy.apply (h : Tidy picker) {o : Operation Peer} (ho : o.careful picker = true) :
    Tidy (o.apply picker) := by
  cases o with
  | weHave piece => exact h.weHave piece
  | weHaveAll => exact foldlRecOn _ _ h fun _ hq p _ => hq.weHave p
  | setHaveBitfield bits =>
    refine foldlRecOn _ _ h fun q hq p _ => ?_
    split_ifs
    · exact hq.weHave p
    · exact hq
  | setPiecePriority piece priority => exact h.setPiecePriority piece priority
  | markRequested b peer | markFinished b => exact h.setDownloading fun _ => ho
  | markWriting b peer | abortBlock b peer =>
    simp only [Operation.apply, markWriting, abortBlock]
    split
    · exact h
    · rename_i dp hdp
      exact h.setDownloading fun _ => h _ (by rw [hdp]; rfl)
  | cancelPeer peer => exact fun q hq => h q (by simpa [Operation.apply, cancelPeer] using hq)
  | restorePiece piece => exact h.setDownloading (by simp)
  | _ => exact h

theorem tidy_run {operations : List (Operation Peer)} (hcareful : ∀ l o, l ++ [o] <+: operations →
      o.careful (run l : IndexedPicker g Peer).picker = true) :
    Tidy (run operations : IndexedPicker g Peer).picker := by
  induction operations using reverseRecOn with
  | nil =>
    have hnew : (new : IndexedPicker g Peer).picker = .new :=
      picker_foldl (fun q _ => q) (fun _ p => picker_orderInsert _ p) _ _ |>.trans (by simp [blank])
    exact fun p hp => by simp [run, hnew, PiecePicker.new] at hp
  | append_singleton l o ih =>
    rw [run, foldl_append, foldl_cons, foldl_nil, picker_step]
    exact (ih fun l' o' hl => hcareful l' o' (hl.trans (prefix_append l [o]))).apply
      (hcareful l o prefix_rfl)

/-- **A requested block is picked only when all wanted pieces are under way**, if blocks are only
marked in wanted pieces. -/
theorem endgame_at_end {operations : List (Operation Peer)}
    (hvalid : ∀ o ∈ operations, o.valid g = true) (hcareful : ∀ l o, l ++ [o] <+: operations →
      o.careful (run l : IndexedPicker g Peer).picker = true) (hs : s = run operations)
    {peer : Peer} (hb : b ∈ (s.pickBlocks d peerHave count peer).1)
    (hrequested : s.picker.blockState b = .requested) :
    ∀ p < g.numPieces, s.picker.wanted p = true → s.underWay p = true := by
  have htidy : Tidy s.picker := hs ▸ tidy_run hcareful
  have hleft := (hs ▸ exact_run hvalid : Exact s).piecesLeft
  obtain ⟨busy, heq, hbusy⟩ := s.pickBlocks_eq d peerHave count peer
  rw [heq, mem_append, Option.mem_toList] at hb
  obtain hb | hb := hb
  · rw [(of_mem_visited (mem_of_mem_take hb)).2] at hrequested
    cases hrequested
  have hle := (hbusy b hb).2.1
  rw [hleft, countP_eq_length_filter, countP_eq_length_filter] at hle
  have hall := (monotone_filter_right (List.range g.numPieces) htidy).eq_of_length_le hle
  intro p hp hw
  have hmem : p ∈ (List.range g.numPieces).filter s.picker.wanted := by simp [hp, hw]
  rw [← hall] at hmem
  exact (mem_filter.mp hmem).2

/-- The pieces under way are met in their order, and each bucket at its start. -/
def inTurn : Draws := ⟨[0, 1, 2], id, fun _ => 0⟩

/-- The last of two pieces is requested, and picked once more for another peer. -/
theorem endgame_at_end_twoPieces :
    let s : IndexedPicker twoPieces ℕ := run [.weHave 0, .markRequested ⟨1, 0⟩ 0]
    ⟨1, 0⟩ ∈ (s.pickBlocks inTurn [true, true] 1 1).1 ∧
      ∀ p < 2, s.picker.wanted p = true → s.underWay p = true := by
  intro s
  have hb : ⟨1, 0⟩ ∈ (s.pickBlocks inTurn [true, true] 1 1).1 := by decide +kernel
  refine ⟨hb, endgame_at_end (by decide) (fun l o hl => ?_) rfl hb (by decide +kernel)⟩
  rcases l with _ | ⟨_, _ | ⟨_, l⟩⟩ <;> simp_all <;> decide +kernel

/-- Three pieces of one byte. Piece 0 is written twice; the second write is done only when the piece
is complete, and puts it among the pieces under way again. Then piece 1 is requested. -/
def writtenTwice : List (Operation ℕ) :=
  [.markRequested ⟨0, 0⟩ 0, .markWriting ⟨0, 0⟩ 0, .markWriting ⟨0, 0⟩ 0, .markFinished ⟨0, 0⟩,
    .weHave 0, .markFinished ⟨0, 0⟩, .markRequested ⟨1, 0⟩ 1]

/-- **The end-game begins early**: another peer is asked for piece 1, and piece 2 is not under way. -/
theorem early_endgame : let s : IndexedPicker ⟨3, 1, 3⟩ ℕ := run writtenTwice
    (s.pickBlocks inTurn [false, true, false] 1 2).1 = [⟨1, 0⟩] ∧
      s.picker.blockState ⟨1, 0⟩ = .requested ∧ s.picker.wanted 2 = true ∧
      s.underWay 2 = false := by
  decide +kernel

end Librats.BitTorrent.IndexedPicker
