import Librats.BitTorrent.PiecePicker
import Librats.Foundations.Buckets

/-!
# The order of the pieces

The piece picker with the index it keeps over the pieces: every wanted piece is in a bucket for its
priority and its availability, and remembers its slot there. The order of the hash map and the
random generator that `pick_blocks` depends on are a parameter (`Draws`). Availabilities are natural
numbers; in the source they have 32 bits, and `av + 1` may wrap.
-/

namespace Librats.BitTorrent

open List Function PiecePicker

inductive PickMode
  | rarestFirst
  | sequential
  | random
  deriving DecidableEq

def prioIdx (priority : PiecePriority) : ℕ := if priority = .high then 0 else 1

def kNumPrio : ℕ := 2

/-- A `PiecePicker` with all it keeps for choosing pieces: `order.slots (i, av)` is
`buckets_[i][av]`, `order.pos` is `order_pos_`, `order.filed` is `in_order_`, and `columns i` is the
number of buckets of a priority. -/
structure IndexedPicker (g : Layout) (Peer : Type) where
  picker : PiecePicker g Peer
  numHave : ℕ
  piecesLeft : ℕ
  mode : PickMode
  endgame : Bool
  seqCursor : ℕ
  order : Buckets (ℕ × ℕ) ℕ
  columns : ℕ → ℕ

open IndexedPicker

variable {g : Layout} {Peer : Type}

section

variable (picker : PiecePicker g Peer)

/-- Where a wanted piece belongs. -/
def PiecePicker.key (piece : ℕ) : ℕ × ℕ :=
  (prioIdx (picker.priority piece), picker.availability piece)

/-- A new count of the peers that have a piece. -/
def PiecePicker.setAvailability (piece count : ℕ) : PiecePicker g Peer :=
  { picker with availability := Function.update picker.availability piece count }

end

namespace IndexedPicker

/-! ## The index -/

def orderInsert (s : IndexedPicker g Peer) (piece : ℕ) : IndexedPicker g Peer :=
  if s.order.filed piece || !s.picker.wanted piece then s
  else
    let k := s.picker.key piece
    { s with
      order := s.order.insert k piece
      columns := Function.update s.columns k.1 (max (s.columns k.1) (k.2 + 1)) }

def orderRemove (s : IndexedPicker g Peer) (piece : ℕ) : IndexedPicker g Peer :=
  { s with order := s.order.remove (s.picker.key piece) piece }

/-- A count that is changed by `avail_add`; it stops at zero. -/
def shift (delta : ℤ) (count : ℕ) : ℕ :=
  if 0 ≤ delta then count + delta.toNat else count - (-delta).toNat

def availAdd (s : IndexedPicker g Peer) (piece : ℕ) (delta : ℤ) : IndexedPicker g Peer :=
  { s.orderRemove piece with
    picker := s.picker.setAvailability piece (shift delta (s.picker.availability piece))
  }.orderInsert piece

/-- A picker before the pieces are filed. -/
def blank : IndexedPicker g Peer where
  picker := .new
  numHave := 0
  piecesLeft := g.numPieces
  mode := .rarestFirst
  endgame := false
  seqCursor := 0
  order := .empty
  columns _ := 0

/-- The constructor: every piece is wanted. -/
def new : IndexedPicker g Peer := (range g.numPieces).foldl orderInsert blank

/-! ## Our progress -/

/-- Over the pieces that are there, `left` of them at most. -/
def advance (haveBits : ℕ → Bool) : ℕ → ℕ → ℕ
  | 0, cursor => cursor
  | left + 1, cursor => if haveBits cursor then advance haveBits left (cursor + 1) else cursor

section

variable (s : IndexedPicker g Peer)

def weHave (piece : ℕ) : IndexedPicker g Peer :=
  if s.picker.havePiece piece then s
  else
    let picker := s.picker.weHave piece
    { s.orderRemove piece with
      picker := picker
      numHave := s.numHave + 1
      piecesLeft :=
        if s.picker.priority piece ≠ .dontDownload ∧ 0 < s.piecesLeft then s.piecesLeft - 1
        else s.piecesLeft
      seqCursor := advance picker.haveBits (g.numPieces - s.seqCursor) s.seqCursor }

def weHaveAll : IndexedPicker g Peer :=
  (range g.numPieces).foldl weHave s

def setHaveBitfield (bits : List Bool) : IndexedPicker g Peer :=
  (range g.numPieces).foldl (fun s p => if hasBit bits p then s.weHave p else s) s

/-! ## Priorities and availability -/

def setPiecePriority (piece : ℕ) (priority : PiecePriority) : IndexedPicker g Peer :=
  if s.picker.priority piece = priority then s
  else
    let wasWanted := s.picker.priority piece != .dontDownload
    let nowWanted := priority != .dontDownload
    { s.orderRemove piece with
      picker := s.picker.setPiecePriority piece priority
      piecesLeft :=
        if s.picker.havePiece piece then s.piecesLeft
        else if wasWanted && !nowWanted then s.piecesLeft - 1
        else if !wasWanted && nowWanted then s.piecesLeft + 1
        else s.piecesLeft }.orderInsert piece

def peerHasPiece (piece : ℕ) : IndexedPicker g Peer := s.availAdd piece 1

def peerLostPiece (piece : ℕ) : IndexedPicker g Peer :=
  s.availAdd piece (-1)

/-- `inc_availability` and `dec_availability`. -/
def addAvailability (peerHave : List Bool) (delta : ℤ) : IndexedPicker g Peer :=
  (range g.numPieces).foldl (fun s p => if hasBit peerHave p then s.availAdd p delta else s) s

end

/-! ## Picking -/

/-- What the hash map and the random generator contribute: the order of the pieces under way, an
order of the buckets, and where each is entered. -/
structure Draws where
  met : List ℕ
  shuffle : List (ℕ × ℕ) → List (ℕ × ℕ)
  start : ℕ × ℕ → ℕ

section

variable (s : IndexedPicker g Peer)

def underWay (piece : ℕ) : Bool := (s.picker.downloading piece).isSome

/-- The blocks of a piece nobody was asked for. -/
def freeBlocks (piece : ℕ) : List PieceBlock :=
  ((range (g.blocksInPiece piece)).map fun b => ⟨piece, b⟩).filter fun b =>
    (s.picker.find b).all (·.state == .none)

/-- `append_free_blocks`, for a wanted piece that the peer has. -/
def appendFreeBlocks (peerHave : List Bool) (count : ℕ)
    (out : List PieceBlock) (piece : ℕ) : List PieceBlock :=
  if s.picker.wanted piece && hasBit peerHave piece then
    out ++ (s.freeBlocks piece).take (count - out.length)
  else out

/-- The pieces under way, in the order in which they are to be finished. -/
def partials (d : Draws) : List ℕ :=
  let met := d.met.filter s.underWay
  if s.mode = .sequential then met.mergeSort else met

/-- A bucket from where it is entered on, and around. -/
def entered (d : Draws) (k : ℕ × ℕ) : List ℕ :=
  (s.order.slots k).rotate (d.start k % (s.order.slots k).length)

/-- All buckets, the best first. -/
def bucketKeys : List (ℕ × ℕ) :=
  (range kNumPrio).flatMap fun i => (range (s.columns i)).map fun av => (i, av)

/-- The pieces to be started, in the order of the strategy. -/
def candidates (d : Draws) : List ℕ :=
  match s.mode with
  | .sequential => range' s.seqCursor (g.numPieces - s.seqCursor)
  | .random => (d.shuffle (s.bucketKeys.filter fun k => s.order.slots k ≠ [])).flatMap (s.entered d)
  | .rarestFirst => s.bucketKeys.flatMap (s.entered d)

end

section

variable [DecidableEq Peer] (s : IndexedPicker g Peer) (d : Draws)

/-- A requested block of a piece under way that the peer was not asked for. -/
def busyBlock (peerHave : List Bool) (peer : Peer) : Option PieceBlock :=
  ((d.met.filter fun p => s.underWay p && s.picker.wanted p && hasBit peerHave p).flatMap fun p =>
    (range (g.blocksInPiece p)).map fun b => (⟨p, b⟩ : PieceBlock)).find? fun b =>
      (s.picker.find b).any fun blk => blk.state == .requested && peer ∉ blk.peers

def pickBlocks (peerHave : List Bool)
    (count : ℕ) (peer : Peer) : List PieceBlock × IndexedPicker g Peer :=
  let result := (s.partials d).foldl (s.appendFreeBlocks peerHave count) []
  let result := ((s.candidates d).filter (!s.underWay ·)).foldl (s.appendFreeBlocks peerHave count)
    result
  if count ≤ result.length then (result, s)
  else if (range g.numPieces).countP s.underWay < s.piecesLeft then (result, s)
  else
    match s.busyBlock d peerHave peer with
    | some b => (result ++ [b], { s with endgame := true })
    | none => (result, s)

end

/-! ## Operations -/

/-- The operations of a picker, with what they are given. -/
inductive Operation (Peer : Type)
  | weHave (piece : ℕ)
  | weHaveAll
  | setHaveBitfield (bits : List Bool)
  | setPiecePriority (piece : ℕ) (priority : PiecePriority)
  | setMode (mode : PickMode)
  | peerHasPiece (piece : ℕ)
  | peerLostPiece (piece : ℕ)
  | incAvailability (peerHave : List Bool)
  | decAvailability (peerHave : List Bool)
  | incAvailabilityAll
  | decAvailabilityAll
  | markRequested (b : PieceBlock) (peer : Peer)
  | markWriting (b : PieceBlock) (peer : Peer)
  | markFinished (b : PieceBlock)
  | abortBlock (b : PieceBlock) (peer : Peer)
  | cancelPeer (peer : Peer)
  | restorePiece (piece : ℕ)
  | pickBlocks (d : Draws) (peerHave : List Bool) (count : ℕ) (peer : Peer)

/-- The operation is about a piece and a block there are. -/
def Operation.valid (g : Layout) : Operation Peer → Bool
  | .weHave piece | .setPiecePriority piece _ | .peerHasPiece piece | .peerLostPiece piece
  | .restorePiece piece => piece < g.numPieces
  | .markRequested b _ | .markWriting b _ | .markFinished b | .abortBlock b _ =>
    b.piece < g.numPieces && b.block < g.blocksInPiece b.piece
  | _ => true

/-- The state after an operation that concerns the blocks or the seeds only. -/
def setPicker (s : IndexedPicker g Peer) (picker : PiecePicker g Peer) : IndexedPicker g Peer :=
  { s with picker := picker }

def step [DecidableEq Peer] (s : IndexedPicker g Peer) : Operation Peer → IndexedPicker g Peer
  | .weHave piece => s.weHave piece
  | .weHaveAll => s.weHaveAll
  | .setHaveBitfield bits => s.setHaveBitfield bits
  | .setPiecePriority piece priority => s.setPiecePriority piece priority
  | .setMode mode => { s with mode := mode }
  | .peerHasPiece piece => s.peerHasPiece piece
  | .peerLostPiece piece => s.peerLostPiece piece
  | .incAvailability peerHave => s.addAvailability peerHave 1
  | .decAvailability peerHave => s.addAvailability peerHave (-1)
  | .incAvailabilityAll => s.setPicker s.picker.incAvailabilityAll
  | .decAvailabilityAll => s.setPicker s.picker.decAvailabilityAll
  | .markRequested b peer => s.setPicker (s.picker.markRequested b peer)
  | .markWriting b peer => s.setPicker (s.picker.markWriting b peer).2
  | .markFinished b => s.setPicker (s.picker.markFinished b).2
  | .abortBlock b peer => s.setPicker (s.picker.abortBlock b peer)
  | .cancelPeer peer => s.setPicker (s.picker.cancelPeer peer)
  | .restorePiece piece => s.setPicker (s.picker.restorePiece piece)
  | .pickBlocks d peerHave count peer => (s.pickBlocks d peerHave count peer).2

/-! ## The invariant -/

variable {piece : ℕ} {s : IndexedPicker g Peer}
  {f : IndexedPicker g Peer → ℕ → IndexedPicker g Peer}

theorem countP_range_change {f f' : ℕ → Bool} {n : ℕ} (hpiece : piece < n)
    (h : ∀ q, q ≠ piece → f' q = f q) : (range n).countP f' + (if f piece then 1 else 0) =
      (range n).countP f + if f' piece then 1 else 0 := by
  induction n with
  | zero => exact absurd hpiece (Nat.not_lt_zero _)
  | succ n ih =>
    rw [range_succ, countP_append, countP_append, countP_singleton, countP_singleton]
    obtain rfl | hlt : piece = n ∨ piece < n := by omega
    · have hcongr : (range piece).countP f' = (range piece).countP f :=
        countP_congr fun q hq => by rw [h q (mem_range.mp hq).ne]
      omega
    · have := ih hlt
      rw [h n hlt.ne']
      omega

/-- The index holds the wanted pieces, each where it remembers to be. -/
structure InOrder (picker : PiecePicker g Peer) (order : Buckets (ℕ × ℕ) ℕ) : Prop where
  filed : order.Filed picker.key
  wanted : ∀ p, order.filed p = (decide (p < g.numPieces) && picker.wanted p)

/-- The index, the counts and the cursor are right. -/
structure Exact (s : IndexedPicker g Peer) : Prop where
  inOrder : InOrder s.picker s.order
  piecesLeft : s.piecesLeft = (range g.numPieces).countP s.picker.wanted
  numHave : s.numHave = (range g.numPieces).countP s.picker.havePiece
  cursor_le : s.seqCursor ≤ g.numPieces
  behind : ∀ p < s.seqCursor, s.picker.havePiece p = true
  ahead : s.seqCursor < g.numPieces → s.picker.havePiece s.seqCursor = false

/-- **A piece is filed anew**: taken out under its old key, and filed under its new one if it is
wanted. -/
theorem InOrder.refile {picker picker' : PiecePicker g Peer} {order : Buckets (ℕ × ℕ) ℕ}
    (h : InOrder picker order) (hpiece : piece < g.numPieces)
    (hkey : ∀ q, q ≠ piece → picker'.key q = picker.key q)
    (hwanted : ∀ q, q ≠ piece → picker'.wanted q = picker.wanted q) :
    InOrder picker' (if picker'.wanted piece then
        (order.remove (picker.key piece) piece).insert (picker'.key piece) piece
      else order.remove (picker.key piece) piece) := by
  have hfiled := h.filed.filed_remove piece
  have hout : (order.remove (picker.key piece) piece).filed piece = false := by
    rw [hfiled, update_self]
  have hrest := (h.filed.remove piece).rekey hout hkey
  split_ifs with hnow
  · refine ⟨hrest.insert piece, fun q => ?_⟩
    rw [Buckets.filed_insert, hfiled]
    by_cases hq : q = piece
    · simp [hq, hpiece, hnow]
    · rw [update_of_ne hq, update_of_ne hq, h.wanted, hwanted q hq]
  · refine ⟨hrest, fun q => ?_⟩
    rw [hfiled]
    by_cases hq : q = piece
    · simp [hq, hnow]
    · rw [update_of_ne hq, h.wanted, hwanted q hq]

section

variable (s : IndexedPicker g Peer) (piece : ℕ)

@[simp] theorem picker_orderInsert : (s.orderInsert piece).picker = s.picker := by
  rw [orderInsert]
  split_ifs <;> rfl

@[simp] theorem numHave_orderInsert : (s.orderInsert piece).numHave = s.numHave := by
  rw [orderInsert]
  split_ifs <;> rfl

@[simp] theorem piecesLeft_orderInsert : (s.orderInsert piece).piecesLeft = s.piecesLeft := by
  rw [orderInsert]
  split_ifs <;> rfl

@[simp] theorem seqCursor_orderInsert : (s.orderInsert piece).seqCursor = s.seqCursor := by
  rw [orderInsert]
  split_ifs <;> rfl

theorem order_orderInsert (h : s.order.filed piece = false) : (s.orderInsert piece).order =
      if s.picker.wanted piece then s.order.insert (s.picker.key piece) piece else s.order := by
  rw [orderInsert, h]
  cases s.picker.wanted piece <;> rfl

end

theorem Exact.setPicker (h : Exact s) {picker : PiecePicker g Peer}
    (havail : picker.availability = s.picker.availability)
    (hpriority : picker.priority = s.picker.priority)
    (hhave : picker.haveBits = s.picker.haveBits) : Exact (s.setPicker picker) := by
  have hkey : picker.key = s.picker.key := by
    funext p
    rw [key, key, havail, hpriority]
  have hwanted : picker.wanted = s.picker.wanted := by
    funext p
    rw [wanted, wanted, hhave, hpriority]
  have hpiece : picker.havePiece = s.picker.havePiece := hhave
  obtain ⟨⟨hfiled, hin⟩, hleft, hcount, hle, hbehind, hahead⟩ := h
  rw [← hkey] at hfiled
  rw [← hwanted] at hin hleft
  rw [← hpiece] at hcount hbehind hahead
  exact ⟨⟨hfiled, hin⟩, hleft, hcount, hle, hbehind, hahead⟩

theorem Exact.orderInsert {t : IndexedPicker g Peer} (h : Exact s) (hpiece : piece < g.numPieces)
    (horder : t.order = s.order.remove (s.picker.key piece) piece)
    (hkey : ∀ q, q ≠ piece → t.picker.key q = s.picker.key q)
    (hwanted : ∀ q, q ≠ piece → t.picker.wanted q = s.picker.wanted q)
    (hhave : t.picker.havePiece = s.picker.havePiece) (hnum : t.numHave = s.numHave)
    (hcursor : t.seqCursor = s.seqCursor)
    (hleft : t.piecesLeft = (range g.numPieces).countP t.picker.wanted) :
    Exact (t.orderInsert piece) := by
  have hout : t.order.filed piece = false := by
    rw [horder, h.inOrder.filed.filed_remove, update_self]
  refine ⟨?_, ?_, ?_, ?_, ?_, ?_⟩
  · have hrefile := h.inOrder.refile hpiece hkey hwanted
    rwa [order_orderInsert _ _ hout, picker_orderInsert, horder]
  · rwa [piecesLeft_orderInsert, picker_orderInsert]
  · rw [numHave_orderInsert, picker_orderInsert, hnum, hhave]
    exact h.numHave
  · rw [seqCursor_orderInsert, hcursor]
    exact h.cursor_le
  · rw [seqCursor_orderInsert, picker_orderInsert, hcursor, hhave]
    exact h.behind
  · rw [seqCursor_orderInsert, picker_orderInsert, hcursor, hhave]
    exact h.ahead

theorem Exact.availAdd (h : Exact s) (hpiece : piece < g.numPieces) (delta : ℤ) :
    Exact (s.availAdd piece delta) := by
  refine h.orderInsert hpiece rfl (fun q hq => ?_) (fun _ _ => rfl) rfl rfl rfl h.piecesLeft
  simp [key, setAvailability, update_of_ne hq]

theorem Exact.setPiecePriority (h : Exact s) (hpiece : piece < g.numPieces)
    (priority : PiecePriority) : Exact (s.setPiecePriority piece priority) := by
  by_cases hold : s.picker.priority piece = priority
  · rwa [IndexedPicker.setPiecePriority, if_pos hold]
  rw [IndexedPicker.setPiecePriority, if_neg hold]
  set picker' := s.picker.setPiecePriority piece priority with hpicker'
  have hpriority : picker'.priority = Function.update s.picker.priority piece priority := by
    rw [hpicker', PiecePicker.setPiecePriority, if_neg hold]
  have hrest : picker'.haveBits = s.picker.haveBits ∧
      picker'.availability = s.picker.availability := by
    rw [hpicker', PiecePicker.setPiecePriority]
    dsimp only
    split_ifs <;> exact ⟨rfl, rfl⟩
  have hwanted (q : ℕ) (hq : q ≠ piece) : picker'.wanted q = s.picker.wanted q := by
    rw [wanted, wanted, hpriority, hrest.1, update_of_ne hq]
  have hkey (q : ℕ) (hq : q ≠ piece) : picker'.key q = s.picker.key q := by
    rw [key, key, hpriority, hrest.2, update_of_ne hq]
  refine h.orderInsert hpiece rfl hkey hwanted hrest.1 rfl rfl ?_
  have hchange := countP_range_change hpiece hwanted
  have hbefore : s.picker.wanted piece =
      (!s.picker.havePiece piece && s.picker.priority piece != .dontDownload) := rfl
  have hafter : picker'.wanted piece =
      (!s.picker.havePiece piece && priority != .dontDownload) := by
    rw [wanted, hpriority, hrest.1, update_self]
    rfl
  rw [hbefore, hafter, ← h.piecesLeft] at hchange
  cases hhave : s.picker.havePiece piece with
  | true =>
    simp only [hhave, Bool.not_true, Bool.false_and, Bool.false_eq_true, if_false,
      Nat.add_zero] at hchange
    exact hchange.symm
  | false =>
    rw [hhave] at hchange
    cases hwas : (s.picker.priority piece != .dontDownload) <;>
      cases hnow : (priority != .dontDownload) <;> simp [hwas, hnow] at hchange ⊢ <;> omega

theorem advance_spec {haveBits : ℕ → Bool} {cursor : ℕ} (left : ℕ)
    (hbehind : ∀ p < cursor, haveBits p = true) : advance haveBits left cursor ≤ cursor + left ∧
      (∀ p < advance haveBits left cursor, haveBits p = true) ∧
      (advance haveBits left cursor < cursor + left →
        haveBits (advance haveBits left cursor) = false) := by
  induction left generalizing cursor with
  | zero => exact ⟨le_rfl, hbehind, fun h => absurd h (lt_irrefl _)⟩
  | succ left ih =>
    rw [advance]
    split_ifs with hcursor
    · have hnext : ∀ p < cursor + 1, haveBits p = true := by
        intro p hp
        obtain rfl | hlt : p = cursor ∨ p < cursor := by omega
        · exact hcursor
        · exact hbehind p hlt
      obtain ⟨hle, hall, hstop⟩ := ih hnext
      exact ⟨by omega, hall, fun h => hstop (by omega)⟩
    · exact ⟨by omega, hbehind, fun _ => by simpa using hcursor⟩

theorem Exact.weHave (h : Exact s) (hpiece : piece < g.numPieces) : Exact (s.weHave piece) := by
  by_cases hhave : s.picker.havePiece piece = true
  · rwa [IndexedPicker.weHave, if_pos hhave]
  rw [IndexedPicker.weHave, if_neg hhave]
  rw [Bool.not_eq_true] at hhave
  extract_lets picker'
  have hbits (q : ℕ) : picker'.havePiece q = (s.picker.havePiece q || decide (q = piece)) :=
    PiecePicker.haveBits_weHave piece q
  have hsame : picker'.priority = s.picker.priority ∧ picker'.availability = s.picker.availability := by
    simp only [picker', PiecePicker.weHave, hhave]
    exact ⟨rfl, rfl⟩
  have hkey : picker'.key = s.picker.key := by
    funext q
    rw [PiecePicker.key, PiecePicker.key, hsame.1, hsame.2]
  have hwanted (q : ℕ) (hq : q ≠ piece) : picker'.wanted q = s.picker.wanted q := by
    have := hbits q
    rw [PiecePicker.havePiece, PiecePicker.havePiece] at this
    rw [PiecePicker.wanted, PiecePicker.wanted, this, hsame.1]
    simp [hq]
  have hdone : picker'.wanted piece = false := by
    have := hbits piece
    rw [PiecePicker.havePiece] at this
    rw [PiecePicker.wanted, this]
    simp
  have hbehind : ∀ p < s.seqCursor, picker'.haveBits p = true := fun p hp => by
    rw [← PiecePicker.havePiece, hbits, h.behind p hp, Bool.true_or]
  obtain ⟨hle, hall, hstop⟩ := advance_spec (g.numPieces - s.seqCursor) hbehind
  have hend : s.seqCursor + (g.numPieces - s.seqCursor) = g.numPieces :=
    Nat.add_sub_cancel' h.cursor_le
  rw [hend] at hle hstop
  refine ⟨?_, ?_, ?_, hle, hall, hstop⟩
  · have hsame (q : ℕ) (_ : q ≠ piece) : picker'.key q = s.picker.key q := by rw [hkey]
    have hrefile := h.inOrder.refile hpiece hsame hwanted
    rwa [hdone] at hrefile
  · have hchange := countP_range_change hpiece hwanted
    rw [hdone, ← h.piecesLeft] at hchange
    have hnow : s.picker.wanted piece = (s.picker.priority piece != .dontDownload) := by
      rw [PiecePicker.wanted, show s.picker.haveBits piece = false from hhave]
      rfl
    dsimp only
    by_cases hpriority : s.picker.priority piece = .dontDownload
    · rw [if_neg (fun hc => hc.1 hpriority)]
      simp [hnow, hpriority] at hchange
      exact hchange.symm
    · simp only [hnow, bne_iff_ne.mpr hpriority, if_true, Bool.false_eq_true, if_false] at hchange
      rw [if_pos ⟨hpriority, by omega⟩]
      omega
  · have hsame (q : ℕ) (hq : q ≠ piece) : picker'.havePiece q = s.picker.havePiece q := by
      rw [hbits q]
      simp [hq]
    have hchange := countP_range_change hpiece hsame
    rw [hhave, ← h.numHave, hbits piece] at hchange
    simpa using hchange.symm

theorem Exact.foldl (h : Exact s) (hf : ∀ s p, Exact s → p < g.numPieces → Exact (f s p)) :
    Exact ((range g.numPieces).foldl f s) :=
  foldlRecOn _ f h fun s hs p hp => hf s p hs (mem_range.mp hp)

theorem order_filing (k : ℕ) (hs : s = (range k).foldl orderInsert blank) :
    s.picker = .new ∧ s.numHave = 0 ∧ s.piecesLeft = g.numPieces ∧ s.seqCursor = 0 ∧
      s.order.Filed s.picker.key ∧ ∀ p, s.order.filed p = decide (p < k) := by
  induction k generalizing s with
  | zero =>
    subst hs
    exact ⟨rfl, rfl, rfl, rfl, Buckets.filed_empty _,
      fun p => (decide_eq_false (Nat.not_lt_zero p)).symm⟩
  | succ k ih =>
    rw [range_succ, foldl_append, foldl_cons, foldl_nil] at hs
    obtain ⟨hpicker, hnum, hleft, hcursor, hfiled, hin⟩ := ih rfl
    set t := (range k).foldl orderInsert (blank : IndexedPicker g Peer)
    have hout : t.order.filed k = false := by rw [hin]; exact decide_eq_false (lt_irrefl k)
    have hwanted : t.picker.wanted k = true := by rw [hpicker]; rfl
    have horder := order_orderInsert t k hout
    rw [if_pos hwanted] at horder
    subst hs
    rw [picker_orderInsert, numHave_orderInsert, piecesLeft_orderInsert, seqCursor_orderInsert, horder]
    refine ⟨hpicker, hnum, hleft, hcursor, hfiled.insert k, fun p => ?_⟩
    rw [Buckets.filed_insert]
    by_cases hp : p = k
    · simp [hp]
    · rw [update_of_ne hp, hin]
      exact decide_eq_decide.mpr (by omega)

theorem exact_new : Exact (new : IndexedPicker g Peer) := by
  obtain ⟨hpicker, hnum, hleft, hcursor, hfiled, hin⟩ :=
    order_filing g.numPieces (rfl : (new : IndexedPicker g Peer) = _)
  have hwanted : (new : IndexedPicker g Peer).picker.wanted = fun _ => true := by rw [hpicker]; rfl
  have hhave : (new : IndexedPicker g Peer).picker.havePiece = fun _ => false := by rw [hpicker]; rfl
  refine ⟨⟨hfiled, fun p => ?_⟩, ?_, ?_, ?_, ?_, ?_⟩
  · rw [hin, hwanted, Bool.and_true]
  · rw [hleft, hwanted]
    simp
  · rw [hnum, hhave]
    simp
  · rw [hcursor]
    exact Nat.zero_le _
  · rw [hcursor]
    exact fun p hp => absurd hp (Nat.not_lt_zero p)
  · rw [hhave]
    exact fun _ => rfl

section

variable [DecidableEq Peer]

theorem pickBlocks_cases (s : IndexedPicker g Peer) (d : Draws) (peerHave : List Bool) (count : ℕ)
    (peer : Peer) :
    ∃ endgame, (s.pickBlocks d peerHave count peer).2 = { s with endgame := endgame } := by
  rw [pickBlocks]
  split_ifs
  · exact ⟨s.endgame, rfl⟩
  · exact ⟨s.endgame, rfl⟩
  · split
    · exact ⟨true, rfl⟩
    · exact ⟨s.endgame, rfl⟩

theorem Exact.step (h : Exact s) {o : Operation Peer} (ho : o.valid g = true) :
    Exact (s.step o) := by
  cases o with
  | weHave piece => exact h.weHave (decide_eq_true_iff.mp ho)
  | weHaveAll => exact h.foldl fun s p hs hp => hs.weHave hp
  | setHaveBitfield bits =>
    refine h.foldl fun s p hs hp => ?_
    split_ifs
    · exact hs.weHave hp
    · exact hs
  | setPiecePriority piece priority => exact h.setPiecePriority (decide_eq_true_iff.mp ho) priority
  | setMode mode => exact ⟨h.inOrder, h.piecesLeft, h.numHave, h.cursor_le, h.behind, h.ahead⟩
  | peerHasPiece piece => exact h.availAdd (decide_eq_true_iff.mp ho) 1
  | peerLostPiece piece => exact h.availAdd (decide_eq_true_iff.mp ho) (-1)
  | incAvailability peerHave | decAvailability peerHave =>
    refine h.foldl fun s p hs hp => ?_
    split_ifs
    · exact hs.availAdd hp _
    · exact hs
  | markWriting b peer =>
    refine h.setPicker ?_ ?_ (haveBits_markWriting b peer)
    all_goals
      rw [markWriting]
      split <;> rfl
  | abortBlock b peer =>
    refine h.setPicker ?_ ?_ ?_
    all_goals
      rw [abortBlock]
      split <;> rfl
  | incAvailabilityAll | decAvailabilityAll | markRequested b peer | markFinished b | cancelPeer peer
  | restorePiece piece => exact h.setPicker rfl rfl rfl
  | pickBlocks d peerHave count peer =>
    obtain ⟨endgame, heq⟩ := s.pickBlocks_cases d peerHave count peer
    rw [IndexedPicker.step, heq]
    exact ⟨h.inOrder, h.piecesLeft, h.numHave, h.cursor_le, h.behind, h.ahead⟩

/-- The state after a sequence of operations. -/
def run (operations : List (Operation Peer)) : IndexedPicker g Peer := operations.foldl step new

theorem exact_run {operations : List (Operation Peer)}
    (hvalid : ∀ o ∈ operations, o.valid g = true) : Exact (run operations : IndexedPicker g Peer) :=
  foldlRecOn _ step exact_new fun _ hs o ho => hs.step (hvalid o ho)

/-- **The index is exact after every sequence of operations**: a piece is in it just if it is
wanted, and then in the slot it remembers of the bucket of its priority and availability, and
nowhere else. -/
theorem index_exact {operations : List (Operation Peer)}
    (hvalid : ∀ o ∈ operations, o.valid g = true) {s : IndexedPicker g Peer}
    (hs : s = run operations) : (∀ p < g.numPieces, s.order.filed p = s.picker.wanted p) ∧
    (∀ p < g.numPieces, s.picker.wanted p = true →
      (s.order.slots (prioIdx (s.picker.priority p), s.picker.availability p))[s.order.pos p]? =
        some p) ∧
    (∀ k i p, (s.order.slots k)[i]? = some p → p < g.numPieces ∧ s.picker.wanted p = true ∧
      k = (prioIdx (s.picker.priority p), s.picker.availability p) ∧ i = s.order.pos p) ∧
    s.piecesLeft = (range g.numPieces).countP s.picker.wanted ∧
    s.numHave = (range g.numPieces).countP s.picker.havePiece ∧
    (∀ p < s.seqCursor, s.picker.havePiece p = true) ∧
    (s.seqCursor < g.numPieces ∧ s.picker.havePiece s.seqCursor = false ∨
      s.seqCursor = g.numPieces) := by
  obtain ⟨⟨hfiled, hin⟩, hleft, hcount, hle, hbehind, hahead⟩ := hs ▸ exact_run hvalid
  have hwanted (p : ℕ) (hp : p < g.numPieces) : s.order.filed p = s.picker.wanted p := by
    rw [hin, decide_eq_true hp, Bool.true_and]
  refine ⟨hwanted, fun p hp hw => ?_, fun k i p hslot => ?_, hleft, hcount, hbehind, ?_⟩
  · exact hfiled.getElem? (by rw [hwanted p hp, hw])
  · obtain ⟨hf, hkey, hpos⟩ := (hfiled k i p).mp hslot
    rw [hin, Bool.and_eq_true, decide_eq_true_iff] at hf
    exact ⟨hf.1, hf.2, hkey.symm, hpos.symm⟩
  · obtain heq | hlt := hle.eq_or_lt
    · exact .inr heq
    · exact .inl ⟨hlt, hahead hlt⟩

/-- Two pieces of one byte. -/
def twoPieces : Layout := ⟨2, 1, 2⟩

/-- The second of two pieces of a bucket takes the place of the first, which is completed. -/
theorem index_exact_twoPieces :
    let s : IndexedPicker twoPieces ℕ := run [.peerHasPiece 0, .peerHasPiece 1, .weHave 0]
    (s.order.slots (prioIdx (s.picker.priority 1), s.picker.availability 1))[s.order.pos 1]? =
      some 1 := by
  have hvalid : ∀ o ∈ ([.peerHasPiece 0, .peerHasPiece 1, .weHave 0] : List (Operation ℕ)),
      o.valid twoPieces = true := by decide
  exact (index_exact hvalid rfl).2.1 1 (by decide) (by decide +kernel)

end

/-! ## The picker below the index -/

@[simp] theorem picker_weHave (s : IndexedPicker g Peer) (piece : ℕ) :
    (s.weHave piece).picker = s.picker.weHave piece := by
  by_cases h : s.picker.havePiece piece = true
  · rw [weHave, if_pos h, PiecePicker.weHave, if_pos h]
  · rw [weHave, if_neg h]

theorem picker_setPiecePriority (s : IndexedPicker g Peer) (piece : ℕ) (priority : PiecePriority) :
    (s.setPiecePriority piece priority).picker = s.picker.setPiecePriority piece priority := by
  by_cases h : s.picker.priority piece = priority
  · rw [setPiecePriority, if_pos h, PiecePicker.setPiecePriority, if_pos h]
  · rw [setPiecePriority, if_neg h, picker_orderInsert]

theorem picker_foldl (f' : PiecePicker g Peer → ℕ → PiecePicker g Peer)
    (h : ∀ s p, (f s p).picker = f' s.picker p) (l : List ℕ) (s : IndexedPicker g Peer) :
    (l.foldl f s).picker = l.foldl f' s.picker := by
  induction l generalizing s with
  | nil => rfl
  | cons p l ih => rw [foldl_cons, foldl_cons, ih, h]

theorem picker_addAvailability (s : IndexedPicker g Peer) (peerHave : List Bool) (delta : ℤ) :
    (s.addAvailability peerHave delta).picker =
      { s.picker with availability := fun p =>
          if p < g.numPieces ∧ hasBit peerHave p then shift delta (s.picker.availability p)
          else s.picker.availability p } := by
  have hfold := picker_foldl
    (fun picker p => if hasBit peerHave p then
      picker.setAvailability p (shift delta (picker.availability p)) else picker)
    (f := fun s p => if hasBit peerHave p then s.availAdd p delta else s)
    (fun s p => by split_ifs; exacts [picker_orderInsert _ p, rfl]) (range g.numPieces) s
  rw [addAvailability, hfold]
  generalize s.picker = picker
  generalize g.numPieces = n
  induction n with
  | zero => simp
  | succ n ih =>
    rw [range_succ, foldl_append, foldl_cons, foldl_nil, ih]
    have hother (p : ℕ) (hp : p ≠ n) : p < n + 1 ↔ p < n := by omega
    split_ifs with hbit
    · simp only [setAvailability, lt_irrefl, false_and, if_false]
      congr 1
      funext p
      by_cases hp : p = n
      · subst hp
        simp [hbit]
      · simp [update_of_ne hp, hother p hp]
    · dsimp only
      congr 1
      funext p
      by_cases hp : p = n
      · subst hp
        simp [hbit]
      · simp [hother p hp]

variable [DecidableEq Peer]

/-- What an operation does to pieces and blocks, without the index. -/
def Operation.apply (picker : PiecePicker g Peer) : Operation Peer → PiecePicker g Peer
  | .weHave piece => picker.weHave piece
  | .weHaveAll => (List.range g.numPieces).foldl PiecePicker.weHave picker
  | .setHaveBitfield bits => picker.setHaveBitfield bits
  | .setPiecePriority piece priority => picker.setPiecePriority piece priority
  | .peerHasPiece piece => picker.peerHasPiece piece
  | .peerLostPiece piece => picker.setAvailability piece (picker.availability piece - 1)
  | .incAvailability peerHave => picker.incAvailability peerHave
  | .decAvailability peerHave => picker.decAvailability peerHave
  | .incAvailabilityAll => picker.incAvailabilityAll
  | .decAvailabilityAll => picker.decAvailabilityAll
  | .markRequested b peer => picker.markRequested b peer
  | .markWriting b peer => (picker.markWriting b peer).2
  | .markFinished b => (picker.markFinished b).2
  | .abortBlock b peer => picker.abortBlock b peer
  | .cancelPeer peer => picker.cancelPeer peer
  | .restorePiece piece => picker.restorePiece piece
  | .setMode _ | .pickBlocks _ _ _ _ => picker

/-- **The index changes nothing of what the picker knows**: every operation works on the pieces and
the blocks as it does without the index. -/
theorem picker_step (s : IndexedPicker g Peer) (o : Operation Peer) :
    (s.step o).picker = o.apply s.picker := by
  cases o with
  | weHave piece => exact picker_weHave s piece
  | weHaveAll => exact picker_foldl _ picker_weHave _ s
  | setHaveBitfield bits =>
    refine picker_foldl _ (fun s p => ?_) _ s
    split_ifs
    · exact picker_weHave s p
    · rfl
  | setPiecePriority piece priority => exact picker_setPiecePriority s piece priority
  | peerHasPiece piece | peerLostPiece piece => exact picker_orderInsert _ piece
  | incAvailability peerHave | decAvailability peerHave => exact picker_addAvailability s peerHave _
  | pickBlocks d peerHave count peer =>
    obtain ⟨endgame, heq⟩ := s.pickBlocks_cases d peerHave count peer
    rw [step, heq]
    rfl
  | _ => rfl

/-- **The picker with the index refines the one without**, over every sequence of operations. -/
theorem picker_run (operations : List (Operation Peer)) :
    (run operations : IndexedPicker g Peer).picker =
      operations.foldl (fun picker o => o.apply picker) .new := by
  induction operations using reverseRecOn with
  | nil =>
    refine (picker_foldl (fun q _ => q) (fun _ p => picker_orderInsert _ p) _ _).trans ?_
    simp [blank]
  | append_singleton l o ih =>
    rw [foldl_append, ← ih, run, foldl_append, foldl_cons, foldl_nil, picker_step]
    rfl

end IndexedPicker

end Librats.BitTorrent
