import Librats.BitTorrent.PiecePicker
import Librats.BitTorrent.TorrentLayout
import Librats.Foundations.Lists

/-!
# Fetching the metadata of a magnet link

A torrent that is added by its info hash asks its peers for the info dictionary
(`handle_ext_handshake`, `handle_ut_metadata` in `bittorrent/torrent.cpp`). A failed verification
forgets the pieces but not the size, which the first plausible peer has named.

Messages are given decoded. The requests that go out and the answers to peers that ask us are left
out.
-/

namespace Librats.BitTorrent

open List TorrentInfo

/-- The bytes of the info dictionary in one piece. -/
def kMetadataPieceSize : ℕ := 16 * 1024

/-- The largest info dictionary that is fetched. -/
def kMaxMetadataSize : ℕ := 4 * 1024 * 1024

/-- The bytes of a piece. -/
def metadataPiece (dict : Bytes) (piece : ℕ) : Bytes :=
  (dict.drop (piece * kMetadataPieceSize)).take kMetadataPieceSize

/-- How many pieces an info dictionary has. -/
def metadataPieces (size : ℕ) : ℕ := (size + kMetadataPieceSize - 1) / kMetadataPieceSize

theorem lt_metadataPieces {piece size : ℕ} :
    piece < metadataPieces size ↔ piece * kMetadataPieceSize < size := by
  rw [metadataPieces, kMetadataPieceSize]
  omega

/-! ## The fetch -/

/-- The members of `Torrent` that are about the metadata. -/
structure MetadataFetch where
  hasMetadata : Bool
  size : ℕ
  pieces : ℕ
  buf : Bytes
  got : List Bool
  received : ℕ
  deriving DecidableEq

open MetadataFetch

/-- An extended handshake or a `ut_metadata` message, with size zero if it names none. -/
inductive MetadataMessage
  | handshake (metadataSize : ℕ)
  | request (piece : ℕ)
  | data (piece totalSize : ℕ) (block : Bytes)
  | reject (piece : ℕ)

namespace MetadataFetch

/-- A torrent without metadata that has heard from nobody. -/
def new : MetadataFetch := ⟨false, 0, 0, [], [], 0⟩

variable (f : MetadataFetch)

/-- `ensure_metadata_buffer`. -/
def ensureBuffer (totalSize : ℕ) : MetadataFetch :=
  if f.size ≠ 0 ∨ totalSize = 0 then f
  else if kMaxMetadataSize < totalSize then f
  else
    { f with
      size := totalSize
      pieces := metadataPieces totalSize
      buf := replicate totalSize 0
      got := replicate (metadataPieces totalSize) false
      received := 0 }

/-- The bytes that a piece has. -/
def expect (piece : ℕ) : ℕ :=
  min kMetadataPieceSize (f.size - piece * kMetadataPieceSize)

/-- A piece is copied to its place. -/
def store (piece : ℕ) (block : Bytes) : MetadataFetch :=
  { f with
    buf := patch 0 f.buf (piece * kMetadataPieceSize) block
    got := f.got.set piece true
    received := f.received + 1 }

/-- All pieces are to be fetched again. -/
def forget : MetadataFetch :=
  { f with got := replicate f.got.length false, received := 0 }

section

variable (sha1 : Bytes → InfoHash) (infoHash : InfoHash) (f : MetadataFetch)

/-- `try_complete_metadata`; `set_metadata` succeeds if the buffer is an info dictionary with the
torrent's info hash. -/
def tryComplete : MetadataFetch :=
  match fromInfoDict sha1 f.buf infoHash with
  | .ok _ => { f with hasMetadata := true }
  | .error _ => f.forget

/-- `on_metadata_piece`, behind the two checks at its start. -/
def takePiece (piece : ℕ) (block : Bytes) : MetadataFetch :=
  if f.size = 0 ∨ f.pieces ≤ piece ∨ hasBit f.got piece then f
  else if block.length ≠ f.expect piece then f
  else if (f.store piece block).received = f.pieces then
    (f.store piece block).tryComplete sha1 infoHash
  else f.store piece block

def onMetadataPiece (piece totalSize : ℕ) (block : Bytes) : MetadataFetch :=
  if f.hasMetadata then f else (f.ensureBuffer totalSize).takePiece sha1 infoHash piece block

/-- `handle_ext_handshake` and `handle_ut_metadata`. -/
def receive : MetadataMessage → MetadataFetch
  | .handshake metadataSize =>
    if f.hasMetadata = false ∧ 0 < metadataSize then f.ensureBuffer metadataSize else f
  | .data piece totalSize block => f.onMetadataPiece sha1 infoHash piece totalSize block
  | .request _ => f
  | .reject _ => f

/-- The fetch after any messages. -/
def receiveAll (messages : List MetadataMessage) : MetadataFetch :=
  messages.foldl (receive sha1 infoHash) new

/-- Piece `piece` of the info dictionary `dict` comes in. -/
def deliver (dict : Bytes) (f : MetadataFetch) (piece : ℕ) : MetadataFetch :=
  f.receive sha1 infoHash (.data piece dict.length (metadataPiece dict piece))

/-- The pieces of the info dictionary come in, once in every round. -/
def deliverRounds (dict : Bytes) (f : MetadataFetch) (rounds : List (List ℕ)) : MetadataFetch :=
  rounds.foldl (fun f order => order.foldl (deliver sha1 infoHash dict) f) f

end

/-! ## What the fetch keeps -/

/-- The counters and the buffer agree. -/
structure Sound (f : MetadataFetch) : Prop where
  pieces : f.pieces = metadataPieces f.size
  buf : f.buf.length = f.size
  got : f.got.length = f.pieces
  received : f.received = f.got.count true
  /-- With the last piece a verification is made. -/
  pending : f.hasMetadata = false → f.size ≠ 0 → f.received < f.pieces
  sized : f.hasMetadata = true → f.size ≠ 0

theorem Sound.new : Sound new where
  pieces := rfl
  buf := rfl
  got := rfl
  received := rfl
  pending := fun _ h => absurd rfl h
  sized := nofun

variable {f : MetadataFetch} {sha1 : Bytes → InfoHash} {infoHash : InfoHash} {piece : ℕ} {block : Bytes}

theorem ensureBuffer_of_size (h : f.size ≠ 0) (totalSize : ℕ) : f.ensureBuffer totalSize = f :=
  if_pos (.inl h)

theorem ensureBuffer_cases (f : MetadataFetch) (totalSize : ℕ) :
    f.ensureBuffer totalSize = f ∨ f.size = 0 ∧ 0 < totalSize ∧ totalSize ≤ kMaxMetadataSize ∧
      f.ensureBuffer totalSize = { f with
          size := totalSize, pieces := metadataPieces totalSize, buf := replicate totalSize 0
          got := replicate (metadataPieces totalSize) false, received := 0 } := by
  rw [ensureBuffer]
  split_ifs with hsized hlarge
  · exact .inl rfl
  · exact .inl rfl
  · exact .inr ⟨by omega, by omega, by omega, rfl⟩

theorem hasMetadata_ensureBuffer (f : MetadataFetch) (totalSize : ℕ) :
    (f.ensureBuffer totalSize).hasMetadata = f.hasMetadata := by
  obtain h | ⟨-, -, -, h⟩ := f.ensureBuffer_cases totalSize <;> rw [h]

theorem Sound.ensureBuffer (h : Sound f) (totalSize : ℕ) : Sound (f.ensureBuffer totalSize) := by
  obtain heq | ⟨hsize, hpos, -, heq⟩ := f.ensureBuffer_cases totalSize
  · rwa [heq]
  rw [heq]
  exact {
    pieces := rfl
    buf := length_replicate
    got := length_replicate
    received := by simp [count_replicate]
    pending := fun _ _ => lt_metadataPieces.mpr (by simpa using hpos)
    sized := fun hmetadata => absurd hsize (h.sized hmetadata) }

/-- What comes of a piece: nothing, or it is stored, and the buffer verified if it was the last one.
-/
theorem takePiece_cases (sha1 : Bytes → InfoHash) (infoHash : InfoHash) (f : MetadataFetch)
    (piece : ℕ) (block : Bytes) : f.takePiece sha1 infoHash piece block = f ∧
        (f.size = 0 ∨ f.pieces ≤ piece ∨ hasBit f.got piece = true ∨ block.length ≠ f.expect piece) ∨
      (f.size ≠ 0 ∧ piece < f.pieces ∧ hasBit f.got piece = false ∧ block.length = f.expect piece) ∧
        (f.received + 1 = f.pieces ∧ f.takePiece sha1 infoHash piece block =
            (f.store piece block).tryComplete sha1 infoHash ∨
          f.received + 1 ≠ f.pieces ∧ f.takePiece sha1 infoHash piece block = f.store piece block) := by
  rw [takePiece]
  split_ifs with hskip hlength hlast
  · exact .inl ⟨rfl, by tauto⟩
  · exact .inl ⟨rfl, by tauto⟩
  · simp only [not_or, not_le, Bool.not_eq_true, not_not] at hskip hlength
    exact .inr ⟨⟨hskip.1, hskip.2.1, hskip.2.2, hlength⟩, .inl ⟨hlast, rfl⟩⟩
  · simp only [not_or, not_le, Bool.not_eq_true, not_not] at hskip hlength
    exact .inr ⟨⟨hskip.1, hskip.2.1, hskip.2.2, hlength⟩, .inr ⟨hlast, rfl⟩⟩

theorem Sound.store (h : Sound f) (hpiece : piece < f.pieces)
    (hmissing : hasBit f.got piece = false) (hblock : block.length = f.expect piece) :
    (f.store piece block).buf.length = f.size ∧ (f.store piece block).got.length = f.pieces ∧
      (f.store piece block).received = (f.store piece block).got.count true := by
  have hlt : piece < f.got.length := h.got ▸ hpiece
  have hoff : piece * kMetadataPieceSize < f.size := lt_metadataPieces.mp (h.pieces ▸ hpiece)
  refine ⟨?_, ?_, ?_⟩
  · change (patch 0 f.buf (piece * kMetadataPieceSize) block).length = f.size
    rw [length_patch, h.buf, hblock, expect]
    omega
  · exact length_set.trans h.got
  · have hold : f.got[piece] = false := by
      simpa [hasBit, getElem?_eq_getElem hlt] using hmissing
    change f.received + 1 = (f.got.set piece true).count true
    simp [count_set, hlt, hold, h.received]

theorem tryComplete_cases (sha1 : Bytes → InfoHash) (infoHash : InfoHash) (f : MetadataFetch) :
    f.tryComplete sha1 infoHash = { f with hasMetadata := true } ∨
      f.tryComplete sha1 infoHash = f.forget := by
  rw [tryComplete]
  split
  · exact .inl rfl
  · exact .inr rfl

theorem Sound.takePiece (h : Sound f) (piece : ℕ) (block : Bytes) :
    Sound (f.takePiece sha1 infoHash piece block) := by
  obtain ⟨heq, -⟩ | ⟨⟨hsize, hpiece, hmissing, hblock⟩, ⟨-, heq⟩ | ⟨hmore, heq⟩⟩ :=
    f.takePiece_cases sha1 infoHash piece block
  · rwa [heq]
  · obtain ⟨hbuf, hgot, hreceived⟩ := h.store hpiece hmissing hblock
    rw [heq]
    obtain heq | heq := (f.store piece block).tryComplete_cases sha1 infoHash
    · rw [heq]
      exact ⟨h.pieces, hbuf, hgot, hreceived, nofun, fun _ => hsize⟩
    rw [heq]
    exact {
      pieces := h.pieces
      buf := hbuf
      got := length_replicate.trans hgot
      received := by simp [forget, count_replicate]
      pending := fun _ _ => Nat.zero_lt_of_lt hpiece
      sized := h.sized }
  · obtain ⟨hbuf, hgot, hreceived⟩ := h.store hpiece hmissing hblock
    rw [heq]
    have hle : (f.store piece block).received ≤ f.pieces := by
      rw [hreceived, ← hgot]
      exact count_le_length
    exact ⟨h.pieces, hbuf, hgot, hreceived, fun _ _ => lt_of_le_of_ne hle hmore, h.sized⟩

theorem Sound.receive (h : Sound f) (m : MetadataMessage) : Sound (f.receive sha1 infoHash m) := by
  cases m with
  | handshake metadataSize =>
    rw [MetadataFetch.receive]
    split_ifs
    · exact h.ensureBuffer metadataSize
    · exact h
  | data piece totalSize block =>
    rw [MetadataFetch.receive, onMetadataPiece]
    split_ifs
    · exact h
    · exact (h.ensureBuffer totalSize).takePiece piece block
  | request | reject => exact h

theorem sound_receiveAll (messages : List MetadataMessage) :
    Sound (receiveAll sha1 infoHash messages) :=
  foldlRecOn messages _ Sound.new fun _ h m _ => h.receive m

/-! ## The info dictionary -/

theorem sha1_of_fromInfoDict {bytes : Bytes} {ti : Metainfo} (hnonzero : isAllZero infoHash = false)
    (h : fromInfoDict sha1 bytes infoHash = .ok ti) : sha1 bytes = infoHash := by
  unfold fromInfoDict at h
  split at h
  · cases h
  rename_i info hinfo
  cases hparse : parseInfoDict info with
  | error e =>
    rw [hparse] at h
    cases h
  | ok ti =>
    rw [hparse] at h
    simp only [bind, Except.bind, hnonzero, Bool.not_false, true_and] at h
    by_contra hne
    rw [if_pos hne] at h
    cases h

/-- `dict` is what the info hash is the hash of, and nothing else is. -/
structure Genuine (sha1 : Bytes → InfoHash) (infoHash : InfoHash) (dict : Bytes) : Prop where
  accepted : (fromInfoDict sha1 dict infoHash).isOk = true
  unique : ∀ bytes, sha1 bytes = infoHash → bytes = dict
  nonzero : isAllZero infoHash = false
  length_le : dict.length ≤ kMaxMetadataSize

variable {dict : Bytes}

theorem Genuine.length_pos (h : Genuine sha1 infoHash dict) : 0 < dict.length := by
  refine length_pos_iff.mpr fun hnil => ?_
  have haccepted := h.accepted
  rw [hnil] at haccepted
  cases haccepted

theorem Genuine.tryComplete (h : Genuine sha1 infoHash dict) (f : MetadataFetch) :
    f.tryComplete sha1 infoHash = if f.buf = dict then { f with hasMetadata := true } else f.forget := by
  rw [MetadataFetch.tryComplete]
  split_ifs with hdict
  · have haccepted := h.accepted
    rw [← hdict] at haccepted
    cases hresult : TorrentInfo.fromInfoDict sha1 f.buf infoHash with
    | ok ti => rfl
    | error e =>
      rw [hresult] at haccepted
      cases haccepted
  · cases hresult : TorrentInfo.fromInfoDict sha1 f.buf infoHash with
    | ok ti => exact absurd (h.unique f.buf (sha1_of_fromInfoDict h.nonzero hresult)) hdict
    | error e => rfl

/-- The pieces that are there are those of the info dictionary. -/
def Clean (dict : Bytes) (f : MetadataFetch) : Prop :=
  ∀ piece, hasBit f.got piece = true → ∀ k, k / kMetadataPieceSize = piece → f.buf[k]? = dict[k]?

theorem Clean.buf_eq (h : Clean dict f) (hbuf : f.buf.length = dict.length)
    (hall : ∀ piece < metadataPieces dict.length, hasBit f.got piece = true) : f.buf = dict := by
  refine ext_getElem? fun k => ?_
  by_cases hk : k < dict.length
  · refine h _ (hall _ ?_) k rfl
    exact lt_metadataPieces.mpr (lt_of_le_of_lt (Nat.div_mul_le_self k _) hk)
  · rw [getElem?_eq_none (by omega), getElem?_eq_none (by omega)]

theorem length_metadataPiece (dict : Bytes) (piece : ℕ) : (metadataPiece dict piece).length =
    min kMetadataPieceSize (dict.length - piece * kMetadataPieceSize) := by
  rw [metadataPiece, length_take, length_drop]

theorem getElem?_metadataPiece {k : ℕ} (hk : k / kMetadataPieceSize = piece) :
    (metadataPiece dict piece)[k - piece * kMetadataPieceSize]? = dict[k]? := by
  have hle : piece * kMetadataPieceSize ≤ k := hk ▸ Nat.div_mul_le_self k _
  have hlt : k - piece * kMetadataPieceSize < kMetadataPieceSize := by
    simp only [kMetadataPieceSize] at hk ⊢
    omega
  rw [metadataPiece, getElem?_take_of_lt hlt, getElem?_drop, Nat.add_sub_cancel' hle]

theorem Clean.store (h : Clean dict f) (hsound : Sound f) (hsize : f.size = dict.length)
    (hpiece : piece < f.pieces) : Clean dict (f.store piece (metadataPiece dict piece)) := by
  intro q hq k hk
  change hasBit (f.got.set piece true) q = true at hq
  change (patch 0 f.buf (piece * kMetadataPieceSize) (metadataPiece dict piece))[k]? = dict[k]?
  rw [hasBit_set_true f.got (hsound.got ▸ hpiece), Bool.or_eq_true, decide_eq_true_eq] at hq
  have hlength := length_metadataPiece dict piece
  have hoff : piece * kMetadataPieceSize < dict.length :=
    hsize ▸ lt_metadataPieces.mp (hsound.pieces ▸ hpiece)
  by_cases hin : k < dict.length
  · by_cases hsame : q = piece
    · rw [hsame] at hk
      have hlt : k - piece * kMetadataPieceSize < (metadataPiece dict piece).length := by
        rw [hlength]
        simp only [kMetadataPieceSize] at hk ⊢
        omega
      have hput : (patch 0 f.buf _ (metadataPiece dict piece))[piece * kMetadataPieceSize +
          (k - piece * kMetadataPieceSize)]? = _ := getElem?_patch_add hlt
      rw [Nat.add_sub_cancel' (hk ▸ Nat.div_mul_le_self k _)] at hput
      exact hput.trans (getElem?_metadataPiece hk)
    · have hold := h q (hq.resolve_right hsame) k hk
      rw [getElem?_eq_getElem hin] at hold ⊢
      refine getElem?_patch_of_some hold ?_
      rw [hlength]
      simp only [kMetadataPieceSize] at hk hoff ⊢
      omega
  · rw [getElem?_eq_none (not_lt.mp hin), getElem?_eq_none]
    rw [length_patch, hsound.buf]
    omega

/-! ## Recovery -/

/-- A fetch with a buffer of the right size. -/
structure Fetching (dict : Bytes) (f : MetadataFetch) : Prop where
  sound : Sound f
  size : f.size = dict.length
  hasMetadata : f.hasMetadata = false

/-- The pieces of `l` have come in and nothing is lost. -/
structure Filled (dict : Bytes) (l : List ℕ) (f f' : MetadataFetch) : Prop where
  came : ∀ piece ∈ l, hasBit f'.got piece = true
  grows : ∀ piece, hasBit f.got piece = true → hasBit f'.got piece = true
  clean : Clean dict f → Clean dict f'

/-- How a fetch has gone on while the pieces of `l` came in: it is complete, or it has got these
pieces, or bad pieces have been thrown away. -/
def GoesOn (dict : Bytes) (l : List ℕ) (f f' : MetadataFetch) : Prop :=
  f'.hasMetadata = true ∨ Fetching dict f' ∧ (Filled dict l f f' ∨ ¬Clean dict f ∧ Clean dict f')

theorem foldl_deliver_of_hasMetadata (h : f.hasMetadata = true) (order : List ℕ) :
    order.foldl (deliver sha1 infoHash dict) f = f := by
  induction order with
  | nil => rfl
  | cons piece order ih => rw [foldl_cons, show f.deliver sha1 infoHash dict piece = f from if_pos h, ih]

theorem deliver_eq_takePiece (h : f.hasMetadata = false) (piece : ℕ) :
    f.deliver sha1 infoHash dict piece =
      (f.ensureBuffer dict.length).takePiece sha1 infoHash piece (metadataPiece dict piece) :=
  if_neg (by rw [h]; exact Bool.false_ne_true)

theorem Fetching.size_ne_zero (h : Fetching dict f) (hdict : 0 < dict.length) : f.size ≠ 0 := by
  rw [h.size]
  omega

/-- One piece of the info dictionary comes in. A full and clean buffer is the info dictionary, so
that a failed verification tells of bad pieces. -/
theorem Fetching.deliver (h : Fetching dict f) (hgenuine : Genuine sha1 infoHash dict)
    (hpiece : piece < metadataPieces dict.length) :
    GoesOn dict [piece] f (f.deliver sha1 infoHash dict piece) := by
  have hsize := h.size_ne_zero hgenuine.length_pos
  have hlt : piece < f.pieces := by rwa [h.sound.pieces, h.size]
  have hblock : (metadataPiece dict piece).length = f.expect piece := by
    rw [length_metadataPiece, expect, h.size]
  have hset (q : ℕ) := hasBit_set_true f.got (h.sound.got ▸ hlt) q
  have hsound' : Sound (f.takePiece sha1 infoHash piece (metadataPiece dict piece)) :=
    h.sound.takePiece piece _
  rw [deliver_eq_takePiece h.hasMetadata, ensureBuffer_of_size hsize]
  obtain ⟨heq, hskip⟩ | ⟨⟨-, -, hmissing, -⟩, ⟨hlast, heq⟩ | ⟨-, heq⟩⟩ :=
    f.takePiece_cases sha1 infoHash piece (metadataPiece dict piece)
  · have hgot : hasBit f.got piece = true := by
      obtain hzero | hge | hgot | hne := hskip
      · exact absurd hzero hsize
      · omega
      · exact hgot
      · exact absurd hblock hne
    rw [heq]
    exact .inr ⟨h, .inl ⟨by simpa using hgot, fun _ hq => hq, id⟩⟩
  · obtain ⟨hbuf, hlength, hreceived⟩ := h.sound.store hlt hmissing hblock
    rw [heq, hgenuine.tryComplete] at hsound' ⊢
    split_ifs at hsound' ⊢ with hdict
    · exact .inl rfl
    refine .inr ⟨⟨hsound', h.size, h.hasMetadata⟩, .inr ⟨fun hclean => hdict ?_, ?_⟩⟩
    · refine (hclean.store h.sound h.size hlt).buf_eq (hbuf.trans h.size) fun q hq => ?_
      refine hasBit_of_count ?_ ?_
      · rwa [← hreceived, hlength]
      · rwa [hlength, h.sound.pieces, h.size]
    · intro q hq
      rw [forget, hasBit_replicate_false] at hq
      cases hq
  · rw [heq] at hsound' ⊢
    refine .inr ⟨⟨hsound', h.size, h.hasMetadata⟩, .inl ⟨?_, ?_, ?_⟩⟩
    · simp [store, hset]
    · intro q hq
      simp [store, hset, hq]
    · exact fun hclean => hclean.store h.sound h.size hlt

theorem GoesOn.trans {f₁ f₂ f₃ : MetadataFetch} {l l' : List ℕ} (h : GoesOn dict l f₁ f₂)
    (h₂ : f₂.hasMetadata = true → f₃ = f₂) (h' : Fetching dict f₂ → GoesOn dict l' f₂ f₃) :
    GoesOn dict (l ++ l') f₁ f₃ := by
  obtain hdone | ⟨hfetching, h⟩ := h
  · rw [h₂ hdone]
    exact .inl hdone
  obtain hdone | ⟨hfetching', h'⟩ := h' hfetching
  · exact .inl hdone
  refine .inr ⟨hfetching', ?_⟩
  obtain hfilled | ⟨hdirty, hclean⟩ := h <;> obtain hfilled' | ⟨hdirty', hclean'⟩ := h'
  · refine .inl ⟨fun piece hpiece => ?_, fun piece hp => hfilled'.grows piece
      (hfilled.grows piece hp), fun hclean => hfilled'.clean (hfilled.clean hclean)⟩
    obtain hpiece | hpiece := mem_append.mp hpiece
    · exact hfilled'.grows piece (hfilled.came piece hpiece)
    · exact hfilled'.came piece hpiece
  · exact .inr ⟨fun hclean => hdirty' (hfilled.clean hclean), hclean'⟩
  · exact .inr ⟨hdirty, hfilled'.clean hclean⟩
  · exact absurd hclean hdirty'

variable {order : List ℕ}

theorem Fetching.deliverAll (hgenuine : Genuine sha1 infoHash dict)
    (horder : ∀ piece ∈ order, piece < metadataPieces dict.length) (h : Fetching dict f) :
    GoesOn dict order f (order.foldl (MetadataFetch.deliver sha1 infoHash dict) f) := by
  induction order generalizing f with
  | nil => exact .inr ⟨h, .inl ⟨nofun, fun _ hp => hp, id⟩⟩
  | cons piece order ih =>
    have hstep := h.deliver hgenuine (horder piece (.head _))
    exact hstep.trans (fun hdone => foldl_deliver_of_hasMetadata hdone order)
      (ih fun q hq => horder q (.tail _ hq))

/-- After a round of all pieces the info dictionary is there, unless bad pieces were: a fetch that
has got every piece is not left waiting. -/
theorem Fetching.round (h : Fetching dict f) (hgenuine : Genuine sha1 infoHash dict)
    (horder : order.Perm (range (metadataPieces dict.length))) :
    (order.foldl (MetadataFetch.deliver sha1 infoHash dict) f).hasMetadata = true ∨
      Fetching dict (order.foldl (MetadataFetch.deliver sha1 infoHash dict) f) ∧ ¬Clean dict f ∧
        Clean dict (order.foldl (MetadataFetch.deliver sha1 infoHash dict) f) := by
  have hmem (piece : ℕ) : piece ∈ order ↔ piece < metadataPieces dict.length := by
    rw [horder.mem_iff, mem_range]
  obtain hdone | ⟨hfetching, hfilled | hcleared⟩ :=
    h.deliverAll hgenuine fun piece hpiece => (hmem piece).mp hpiece
  · exact .inl hdone
  · have hpending := hfetching.sound.pending hfetching.hasMetadata
      (hfetching.size_ne_zero hgenuine.length_pos)
    refine absurd ?_ hpending.ne
    rw [hfetching.sound.received, ← hfetching.sound.got]
    refine count_eq_length.mpr fun bit hbit => ?_
    obtain ⟨piece, hpiece, rfl⟩ := getElem_of_mem hbit
    have hgot := hfilled.came piece ((hmem piece).mpr ?_)
    · rw [hasBit, getElem?_eq_getElem hpiece] at hgot
      exact hgot.symm
    · rwa [← hfetching.size, ← hfetching.sound.pieces, ← hfetching.sound.got]
  · exact .inr ⟨hfetching, hcleared⟩

theorem Fetching.deliverRounds (h : Fetching dict f) (hgenuine : Genuine sha1 infoHash dict)
    {order' : List ℕ} (horder : order.Perm (List.range (metadataPieces dict.length)))
    (horder' : order'.Perm (List.range (metadataPieces dict.length))) :
    (f.deliverRounds sha1 infoHash dict [order, order']).hasMetadata = true := by
  change (order'.foldl _ (order.foldl _ f)).hasMetadata = true
  obtain hdone | ⟨hfetching, -, hclean⟩ := h.round hgenuine horder
  · rwa [foldl_deliver_of_hasMetadata hdone]
  · obtain hdone | ⟨-, hdirty, -⟩ := hfetching.round hgenuine horder'
    · exact hdone
    · exact absurd hclean hdirty

section

variable (h : Sound f) (hgenuine : Genuine sha1 infoHash dict) (hfetch : f.hasMetadata = false)

include h hgenuine hfetch

theorem Sound.fetching (hsize : f.size = 0 ∨ f.size = dict.length) :
    Fetching dict (f.ensureBuffer dict.length) := by
  refine ⟨h.ensureBuffer _, ?_, (f.hasMetadata_ensureBuffer _).trans hfetch⟩
  have hpos := hgenuine.length_pos
  obtain hzero | hsize := hsize
  · rw [MetadataFetch.ensureBuffer, if_neg (by omega), if_neg (not_lt.mpr hgenuine.length_le)]
  · rw [ensureBuffer_of_size (by omega), hsize]

/-- **Bad pieces do no lasting harm.** -/
theorem recovers_of_size (hsize : f.size = 0 ∨ f.size = dict.length) {order' : List ℕ}
    (horder : order.Perm (range (metadataPieces dict.length)))
    (horder' : order'.Perm (range (metadataPieces dict.length))) :
    (f.deliverRounds sha1 infoHash dict [order, order']).hasMetadata = true := by
  have hfetching := h.fetching hgenuine hfetch hsize
  have hsized := hfetching.size_ne_zero hgenuine.length_pos
  -- The first piece makes the buffer that the honest size asks for.
  have hfirst (piece : ℕ) : f.deliver sha1 infoHash dict piece =
      (f.ensureBuffer dict.length).deliver sha1 infoHash dict piece := by
    rw [deliver_eq_takePiece hfetch, deliver_eq_takePiece hfetching.hasMetadata,
      ensureBuffer_of_size hsized]
  rw [← hfetching.deliverRounds hgenuine horder horder']
  cases order with
  | nil =>
    have hmem : 0 ∈ range (metadataPieces dict.length) :=
      mem_range.mpr (lt_metadataPieces.mpr (by simpa using hgenuine.length_pos))
    exact absurd (horder.mem_iff.mpr hmem) not_mem_nil
  | cons piece order =>
    simp [deliverRounds, hfirst]

end

theorem size_takePiece (f : MetadataFetch) (piece : ℕ) (block : Bytes) :
    (f.takePiece sha1 infoHash piece block).size = f.size := by
  obtain ⟨heq, -⟩ | ⟨-, ⟨-, heq⟩ | ⟨-, heq⟩⟩ := f.takePiece_cases sha1 infoHash piece block
  · rw [heq]
  · rw [heq]
    obtain heq | heq := (f.store piece block).tryComplete_cases sha1 infoHash <;> rw [heq] <;> rfl
  · rw [heq]
    rfl

/-- A fetch with a buffer of a wrong size. -/
structure Stuck (dict : Bytes) (f : MetadataFetch) : Prop where
  sound : Sound f
  hasMetadata : f.hasMetadata = false
  size_ne_zero : f.size ≠ 0
  size_ne : f.size ≠ dict.length

theorem Stuck.deliver (h : Stuck dict f) (hgenuine : Genuine sha1 infoHash dict) (piece : ℕ) :
    Stuck dict (f.deliver sha1 infoHash dict piece) := by
  rw [deliver_eq_takePiece h.hasMetadata, ensureBuffer_of_size h.size_ne_zero]
  refine ⟨h.sound.takePiece piece _, ?_, ?_, ?_⟩
  · obtain ⟨heq, -⟩ | ⟨⟨-, hpiece, hmissing, hblock⟩, ⟨-, heq⟩ | ⟨-, heq⟩⟩ :=
      f.takePiece_cases sha1 infoHash piece (metadataPiece dict piece)
    · rw [heq, h.hasMetadata]
    · have hne : (f.store piece (metadataPiece dict piece)).buf ≠ dict := fun hdict =>
        h.size_ne ((h.sound.store hpiece hmissing hblock).1.symm.trans (congrArg length hdict))
      rw [heq, hgenuine.tryComplete, if_neg hne]
      exact h.hasMetadata
    · rw [heq]
      exact h.hasMetadata
  · rw [size_takePiece]
    exact h.size_ne_zero
  · rw [size_takePiece]
    exact h.size_ne

/-- **No buffer of another size is ever the info dictionary.** -/
theorem Stuck.never_recovers (h : Stuck dict f) (hgenuine : Genuine sha1 infoHash dict)
    (rounds : List (List ℕ)) : Stuck dict (f.deliverRounds sha1 infoHash dict rounds) := by
  refine foldlRecOn rounds _ h fun f hf order _ => ?_
  exact foldlRecOn order _ hf fun f hf piece _ => hf.deliver hgenuine piece

/-! ## The first size -/

end MetadataFetch

namespace MetadataMessage

/-- The size that a message names. -/
def totalSize : MetadataMessage → ℕ
  | .handshake metadataSize => metadataSize
  | .data _ totalSize _ => totalSize
  | .request _ => 0
  | .reject _ => 0

/-- The first plausible size that is named. -/
def announced (messages : List MetadataMessage) : Option ℕ :=
  (messages.map totalSize).find? fun size => 0 < size ∧ size ≤ kMaxMetadataSize

end MetadataMessage

namespace MetadataFetch

open MetadataMessage

variable {f : MetadataFetch} {sha1 : Bytes → InfoHash} {infoHash : InfoHash} {dict : Bytes}

theorem size_ensureBuffer (f : MetadataFetch) (totalSize : ℕ) : (f.ensureBuffer totalSize).size =
      if f.size = 0 ∧ 0 < totalSize ∧ totalSize ≤ kMaxMetadataSize then totalSize else f.size := by
  rw [ensureBuffer]
  split_ifs <;> first | rfl | omega

theorem Sound.size_receive (h : Sound f) (m : MetadataMessage) : (f.receive sha1 infoHash m).size =
      if f.size = 0 ∧ 0 < m.totalSize ∧ m.totalSize ≤ kMaxMetadataSize then m.totalSize
      else f.size := by
  have hdone (hmetadata : f.hasMetadata = true) (P : Prop) : ¬(f.size = 0 ∧ P) :=
    fun hzero => h.sized hmetadata hzero.1
  cases m with
  | handshake metadataSize =>
    rw [MetadataFetch.receive, totalSize]
    split_ifs with hcond hset hset
    · rw [size_ensureBuffer, if_pos hset]
    · rw [size_ensureBuffer, if_neg hset]
    · cases hmetadata : f.hasMetadata with
      | true => exact absurd hset (hdone hmetadata _)
      | false => exact absurd ⟨hmetadata, hset.2.1⟩ hcond
    · rfl
  | data piece size block =>
    rw [MetadataFetch.receive, onMetadataPiece, totalSize]
    split_ifs with hmetadata hset hset
    · exact absurd hset (hdone hmetadata _)
    · rfl
    · rw [size_takePiece, size_ensureBuffer, if_pos hset]
    · rw [size_takePiece, size_ensureBuffer, if_neg hset]
  | request | reject => simp [MetadataFetch.receive, totalSize]

theorem size_receiveAll (messages : List MetadataMessage) :
    (receiveAll sha1 infoHash messages).size = (announced messages).getD 0 := by
  have hrun (messages : List MetadataMessage) (f : MetadataFetch) (h : Sound f) :
      (messages.foldl (receive sha1 infoHash) f).size =
        if f.size = 0 then (announced messages).getD 0 else f.size := by
    induction messages generalizing f with
    | nil =>
      rw [announced]
      split_ifs with hzero
      · exact hzero
      · rfl
    | cons m messages ih =>
      rw [foldl_cons, ih _ (h.receive m), h.size_receive m]
      by_cases hfits : 0 < m.totalSize ∧ m.totalSize ≤ kMaxMetadataSize
      · have hfirst : announced (m :: messages) = some m.totalSize := by
          rw [announced, map_cons, find?_cons_of_pos (by simpa using hfits)]
        rw [hfirst, Option.getD_some]
        split_ifs <;> omega
      · have hlater : announced (m :: messages) = announced messages := by
          rw [announced, map_cons, find?_cons_of_neg (by simpa using hfits), announced]
        have hkept : ¬(f.size = 0 ∧ 0 < m.totalSize ∧ m.totalSize ≤ kMaxMetadataSize) :=
          fun hset => hfits hset.2
        rw [hlater, if_neg hkept]
  exact hrun messages new Sound.new

theorem ne_zero_of_announced {messages : List MetadataMessage} {size : ℕ}
    (h : size ∈ announced messages) : size ≠ 0 := by
  have := find?_some h
  simp only [decide_eq_true_eq] at this
  omega

/-- **A fetch recovers from hostile peers just if the first plausible size was right.** In each
round the pieces may come in any order. -/
theorem recovers_iff (hgenuine : Genuine sha1 infoHash dict) (messages : List MetadataMessage)
    (hfetch : (receiveAll sha1 infoHash messages).hasMetadata = false) :
    (∃ n, ∀ rounds : List (List ℕ), rounds.length = n →
        (∀ order ∈ rounds, order.Perm (range (metadataPieces dict.length))) →
        ((receiveAll sha1 infoHash messages).deliverRounds sha1 infoHash dict rounds).hasMetadata =
          true) ↔ ∀ size ∈ announced messages, size = dict.length := by
  have hsound : Sound (receiveAll sha1 infoHash messages) := sound_receiveAll messages
  have hsize : (receiveAll sha1 infoHash messages).size = (announced messages).getD 0 :=
    size_receiveAll messages
  constructor
  · rintro ⟨n, hn⟩ size hannounced
    by_contra hne
    rw [Option.mem_def.mp hannounced] at hsize
    have hstuck : Stuck dict (receiveAll sha1 infoHash messages) :=
      ⟨hsound, hfetch, hsize ▸ ne_zero_of_announced hannounced, hsize ▸ hne⟩
    have hdone := hn (replicate n (range (metadataPieces dict.length)))
      length_replicate fun order horder => eq_of_mem_replicate horder ▸ .refl _
    rw [(hstuck.never_recovers hgenuine _).hasMetadata] at hdone
    cases hdone
  intro hright
  refine ⟨2, fun rounds hrounds horders => ?_⟩
  obtain ⟨order, order', rfl⟩ := length_eq_two.mp hrounds
  refine recovers_of_size hsound hgenuine hfetch ?_ (horders order (by simp))
    (horders order' (by simp))
  rw [hsize]
  cases hannounced : announced messages with
  | none => exact .inl rfl
  | some size => exact .inr (hright size hannounced)

/-- An info dictionary; let the hash of any bytes be the bytes themselves. -/
def plainDict : Bytes := (singleFile 1 1 (replicate 20 0)).encode

theorem genuine_plainDict : Genuine id plainDict plainDict where
  accepted := by
    rw [plainDict, fromInfoDict, decode_singleFile]
    decide +kernel
  unique := fun _ h => h
  nonzero := by decide +kernel
  length_le := by decide +kernel

/-- A bad piece after a handshake with the right size. -/
theorem recovers_iff_poisoned : ∃ n, ∀ rounds : List (List ℕ), rounds.length = n →
    (∀ order ∈ rounds, order.Perm (range (metadataPieces plainDict.length))) →
    ((receiveAll id plainDict [.handshake plainDict.length,
      .data 0 0 (replicate plainDict.length 1)]).deliverRounds id plainDict plainDict
        rounds).hasMetadata = true :=
  (recovers_iff genuine_plainDict [.handshake plainDict.length,
      .data 0 0 (replicate plainDict.length 1)] (by decide +kernel)).mpr
    (by decide +kernel)

/-- A handshake with the size 1, and the info dictionary never comes. -/
theorem size_poisoned : Genuine id plainDict plainDict ∧
    (receiveAll id plainDict [.handshake 1]).hasMetadata = false ∧
    ∀ rounds : List (List ℕ), ((receiveAll id plainDict [.handshake 1]).deliverRounds id plainDict
      plainDict rounds).hasMetadata = false := by
  have hstuck : Stuck plainDict (receiveAll id plainDict [.handshake 1]) :=
    ⟨sound_receiveAll _, rfl, by decide, by decide +kernel⟩
  exact ⟨genuine_plainDict, rfl, fun rounds =>
    (hstuck.never_recovers genuine_plainDict rounds).hasMetadata⟩

end MetadataFetch

end Librats.BitTorrent
