import Librats.BitTorrent.Availability

/-!
# What a peer has announced

A connection keeps the pieces its peer has announced, in a bitfield that is sized when the
connection is made. Before the metadata has come it has no bits, and a HAVE is lost on it.
-/

namespace Librats.BitTorrent

open List Function Torrent PeerConnection Message

/-- What a connection keeps of its peer's pieces. -/
structure PieceState where
  numPieces : ℕ
  bits : List Bool
  begun : Bool

def PeerConnection.pieces (c : PeerConnection) : PieceState :=
  ⟨c.numPieces, c.peerHave, c.pieceStateBegun⟩

namespace Torrent

/-- The share of `PeerConnection::dispatch` that concerns the peer's pieces. -/
def Message.announce (s : PieceState) : Message → PieceState
  | .havePiece p => { s with bits := s.bits.set p true, begun := true }
  | .bitfield payload =>
    if s.begun = true ∨ s.numPieces ≠ 0 ∧ payload.length ≠ (s.numPieces + 7) / 8 then s
    else
      { s with
        bits := (payload.flatMap bitsOf).take
          (if s.numPieces ≠ 0 then s.numPieces else payload.length * 8)
        begun := true }
  | _ => s

/-! ## Handlers that leave the pieces of the peers alone -/

variable {H : Type} {info : TorrentInfo H} {Peer : Type}

def pieces (t : Torrent info Peer) (x : Peer) : PieceState := (t.conns x).pieces

theorem pieces_rangeFor {body : Torrent info Peer → Peer → Torrent info Peer}
    (hbody : ∀ t pc, (body t pc).pieces = t.pieces) (t : Torrent info Peer) :
    (RawVector.rangeFor peers body t).pieces = t.pieces :=
  RawVector.rangeFor_induction (fun s pc hs => (hbody s pc).trans hs) rfl

variable [DecidableEq Peer] {t t' : Torrent info Peer}

section

variable (t : Torrent info Peer) (pc : Peer)

theorem pieces_updateConn (f : PeerConnection → PeerConnection) :
    (t.updateConn pc f).pieces = update t.pieces pc (f (t.conns pc)).pieces := by
  funext x
  by_cases hx : x = pc
  · simp [pieces, updateConn, hx]
  · simp [pieces, updateConn, hx]

theorem pieces_updateConn_of_eq
    {f : PeerConnection → PeerConnection} (hf : ∀ c, (f c).pieces = c.pieces) :
    (t.updateConn pc f).pieces = t.pieces := by
  rw [pieces_updateConn, hf]
  exact update_eq_self pc t.pieces

theorem pieces_close : (t.close pc).pieces = t.pieces := by
  funext x
  rw [pieces, conns_close]
  exact congrFun (pieces_updateConn_of_eq t pc (f := fun c => { c with closed := true })
    fun _ => rfl) x

theorem pieces_sendMessage (m : Sent) : (t.sendMessage pc m).pieces = t.pieces := by
  rw [sendMessage]
  split_ifs
  · rfl
  · exact pieces_close t pc
  · rfl

end

theorem Minors.pieces (h : Minors t t') : t'.pieces = t.pieces := by
  induction h with
  | refl => rfl
  | tail _ hminor ih =>
    rw [← ih]
    cases hminor with
    | send pc hm => exact pieces_sendMessage _ pc _
    | interest pc | choke pc => exact pieces_updateConn_of_eq _ pc fun _ => rfl
    | requests | books | submit => rfl

theorem pieces_onHandshake (t : Torrent info Peer) (pc : Peer) :
    (t.onHandshake pc).pieces = t.pieces := by
  rw [onHandshake]
  split_ifs
  · exact pieces_close t pc
  · exact pieces_close t pc
  · extract_lets joined
    split
    · rfl
    · exact pieces_sendMessage joined pc _

variable (w : World info.toLayout Peer)

theorem pieces_complete [DecidableEq H] (t : Torrent info Peer)
    (c : Completion H) : (System.complete w t c).pieces = t.pieces := by
  cases c with
  | written b ok => exact (minors_onBlockWritten w t b ok).pieces
  | hashed piece ok hash =>
    rw [System.complete, onPieceHashed]
    split
    · rfl
    split_ifs
    · rfl
    · rfl
    · refine pieces_rangeFor (fun s pc => ?_) _
      exact (minors_updateInterest w _ pc).pieces.trans (pieces_sendMessage s pc _)
  | checked bits =>
    rw [System.complete, onCheckComplete]
    split
    · rfl
    split_ifs
    · rfl
    extract_lets picker' found
    refine foldlRecOn (motive := fun s : Torrent info Peer => s.pieces = t.pieces) _ _ rfl
      fun s hs pc _ => ?_
    extract_lets told
    have htold : told.pieces = t.pieces :=
      foldlRecOn (motive := fun s : Torrent info Peer => s.pieces = t.pieces) _ _ hs fun s hs p _ =>
        (pieces_sendMessage s pc _).trans hs
    split_ifs
    · exact (minors_updateInterest w told pc).pieces.trans htold
    · exact htold
    · exact hs

variable (t : Torrent info Peer)

theorem pieces_onHave (pc : Peer) (piece : ℕ) : (t.onHave w pc piece).pieces = t.pieces := by
  rcases onHave_cases w t pc piece with ⟨heq, -⟩ | ⟨picker, -, -, hminors⟩
  · rw [heq]
  · exact hminors.pieces

theorem pieces_onBitfield (pc : Peer)
    (bits : List Bool) : (t.onBitfield w pc bits).pieces = t.pieces := by
  rw [onBitfield]
  split
  · rfl
  · rw [(minors_updateInterest w _ pc).pieces, count]
    split_ifs <;> rfl

theorem set_true_of_hasBit {bits : List Bool} {piece : ℕ}
    (h : ¬(decide (piece < bits.length) && !hasBit bits piece) = true) :
    bits.set piece true = bits := by
  by_cases hlt : piece < bits.length
  · have hbit : bits[piece] = true := by simpa [hasBit, hlt] using h
    rw [← hbit, set_getElem_self]
  · exact set_eq_of_length_le (not_lt.mp hlt)

theorem pieces_dispatch (pc : Peer)
    (m : Message) : (t.dispatch w pc m).pieces = update t.pieces pc (m.announce (t.pieces pc)) := by
  cases m with
  | choke | unchoke =>
    rw [dispatch, (minors_onChoke w _ pc _).pieces, pieces_updateConn]
    rfl
  | havePiece piece =>
    have hself : (t.updateConn pc fun c => { c with pieceStateBegun := true }).conns pc =
        { t.conns pc with pieceStateBegun := true } := update_self ..
    simp only [dispatch, hself]
    split_ifs with hflips
    · rw [pieces_onHave, pieces_updateConn, pieces_updateConn, update_idem, hself]
      rfl
    · rw [pieces_updateConn]
      simp only [announce, pieces, PeerConnection.pieces, set_true_of_hasBit hflips]
  | bitfield payload =>
    have hclosed : (t.close pc).pieces = update t.pieces pc (t.pieces pc) := by
      rw [pieces_close, update_eq_self]
    rw [dispatch]
    extract_lets bits
    split_ifs with hbegun hlength
    · rw [hclosed, announce, if_pos (.inl hbegun)]
    · rw [hclosed, announce, if_pos (.inr hlength)]
    · have hkept : ¬((t.pieces pc).begun = true ∨ (t.pieces pc).numPieces ≠ 0 ∧
          payload.length ≠ ((t.pieces pc).numPieces + 7) / 8) := not_or.mpr ⟨hbegun, hlength⟩
      rw [pieces_onBitfield, pieces_updateConn, announce, if_neg hkept]
      rfl
  | piece piece offset data =>
    rw [dispatch, (minors_onPiece w t pc piece offset data).pieces]
    exact (update_eq_self pc t.pieces).symm

theorem pieces_promote : (t.promote w).pieces = t.pieces := by
  refine pieces_rangeFor (fun t pc => ?_) (t.setPicker .new)
  rw [adopt]
  split
  · rfl
  · exact (minors_updateInterest w _ pc).pieces

end Torrent

/-! ## Announcements -/

/-- The message tells that the peer has the piece. -/
def Torrent.Message.announces (p : ℕ) : Torrent.Message → Bool
  | .havePiece q => p == q
  | .bitfield payload => hasBit (payload.flatMap bitsOf) p
  | _ => false

/-- The pieces of a torrent with `n` pieces are announced by a BITFIELD of the right length, which
comes first if at all, and HAVEs of pieces there are. -/
inductive Legal (n : ℕ) : List Torrent.Message → Prop
  | haves {l : List Torrent.Message} (h : ∀ m ∈ l, ∃ p < n, m = .havePiece p) : Legal n l
  | bitfield {payload : Bytes} {l : List Torrent.Message} (hlength : payload.length = (n + 7) / 8)
    (h : ∀ m ∈ l, ∃ p < n, m = .havePiece p) : Legal n (.bitfield payload :: l)

open Torrent (Message)

section

variable {n : ℕ} {l : List Message} (hl : ∀ m ∈ l, ∃ p < n, m = .havePiece p) {s : PieceState}

include hl

theorem hasBit_haves (hs : n ≤ s.bits.length) (p : ℕ) :
    hasBit (l.foldl announce s).bits p = (hasBit s.bits p || l.any (·.announces p)) := by
  induction l generalizing s with
  | nil => rw [foldl_nil, any_nil, Bool.or_false]
  | cons m l ih =>
    obtain ⟨q, hq, rfl⟩ := hl m (.head _)
    have hset := hasBit_set_true s.bits (hq.trans_le hs) p
    rw [foldl_cons, ih (fun m hm => hl m (.tail _ hm)) (by simpa [announce] using hs),
      announce, any_cons, hset, announces, Bool.or_assoc]
    rfl

theorem bits_haves_nil (hs : s.bits = []) : (l.foldl announce s).bits = [] := by
  induction l generalizing s with
  | nil => exact hs
  | cons m l ih =>
    obtain ⟨q, hq, rfl⟩ := hl m (.head _)
    exact ih (fun m hm => hl m (.tail _ hm)) (by rw [announce, hs, set_nil])

end

theorem hasBit_announced_iff {n n₀ : ℕ} (hn₀ : n₀ = 0 ∨ n₀ = n) {l : List Message}
    (hl : Legal n l) : (∀ p < n, hasBit (l.foldl announce (new n₀).pieces).bits p =
      l.any (·.announces p)) ↔ n₀ = n ∨ ∀ q, l.head? ≠ some (.havePiece q) := by
  have hnew : (new n₀).pieces.bits = replicate n₀ false := rfl
  cases hl with
  | haves h =>
    by_cases hsized : n₀ = n
    · refine iff_of_true (fun p _ => ?_) (.inl hsized)
      rw [hasBit_haves h (by rw [hnew, length_replicate, hsized]), hnew, hasBit_replicate_false,
        Bool.false_or]
    · obtain rfl := hn₀.resolve_right hsized
      cases l with
      | nil => exact iff_of_true (fun _ _ => rfl) (.inr (by simp))
      | cons m l =>
        obtain ⟨q, hq, rfl⟩ := h m (.head _)
        refine iff_of_false (fun hall => ?_) (not_or.mpr ⟨hsized, fun hhead => hhead q rfl⟩)
        have hlost := hall q hq
        rw [bits_haves_nil h rfl] at hlost
        simp [hasBit, announces] at hlost
  | @bitfield payload l hlength h =>
    refine iff_of_true (fun p hp => ?_) (.inr (by simp))
    have hbits : (payload.flatMap bitsOf).length = payload.length * 8 := by
      simp [bitsOf, length_flatMap]
    have hfirst : announce (new n₀).pieces (.bitfield payload) =
        ⟨n₀, (payload.flatMap bitsOf).take (if n₀ ≠ 0 then n₀ else payload.length * 8),
          true⟩ := by
      refine if_neg ?_
      rintro (hbegun | ⟨hne, hbad⟩)
      · cases hbegun
      · exact hbad (hn₀.resolve_left hne ▸ hlength)
    have hlong : n ≤ if n₀ ≠ 0 then n₀ else payload.length * 8 := by
      split_ifs <;> omega
    rw [foldl_cons, hfirst, hasBit_haves h, any_cons, announces]
    · congr 1
      rw [hasBit, hasBit, getElem?_take_of_lt (hp.trans_le hlong)]
    · rw [length_take]
      omega

namespace Download

variable {H : Type} {info : TorrentInfo H} {Peer : Type} [DecidableEq Peer]

/-- The announcement the peer makes in an action. -/
def heard (pc : Peer) : Action info.toLayout Peer → Option Message
  | .handle _ (.message x (.havePiece p)) => if x = pc then some (.havePiece p) else none
  | .handle _ (.message x (.bitfield payload)) => if x = pc then some (.bitfield payload) else none
  | _ => none

variable {d d' : Download info Peer} {pc : Peer}

theorem met_track_of_met (hmet : d.met pc = true) (e : Event Peer) : (d.track e).met pc = true := by
  cases e with
  | handshake x n | unanswered x n => simp [track, Function.update_apply, hmet]
  | start hasMetadata | stop =>
    rw [track]
    split_ifs <;> exact hmet
  | _ => exact hmet

theorem pieces_handle (hmet : d.met pc = true) (w : World info.toLayout Peer) {e : Event Peer}
    (hallowed : d.allowed e = true) : (d.torrent.handle w e).pieces pc =
      (heard pc (.handle w e)).toList.foldl announce (d.torrent.pieces pc) := by
  have hother {x : Peer} (hx : (!d.met x) = true) (c : PieceState) :
      update d.torrent.pieces x c pc = d.torrent.pieces pc := by
    refine update_of_ne ?_ _ _
    rintro rfl
    simp [hmet] at hx
  cases e with
  | handshake x n =>
    rw [handle, pieces_onHandshake, pieces_updateConn]
    exact hother hallowed _
  | unanswered x n =>
    rw [handle, pieces_onHandshake, pieces_close, pieces_updateConn]
    exact hother hallowed _
  | message x m =>
    rw [handle, pieces_dispatch]
    by_cases hx : x = pc
    · subst hx
      cases m <;> simp [heard, announce]
    · rw [update_of_ne (Ne.symm hx)]
      cases m <;> simp [heard, hx]
  | drop x => exact congrFun (pieces_close _ x) pc
  | breaks x => exact congrFun (pieces_updateConn_of_eq _ x
      (f := fun c => { c with broken := true }) fun _ => rfl) pc
  | timeouts stalled => exact congrFun (minors_checkRequestTimeouts w _ stalled).pieces pc
  | promote => exact congrFun (pieces_promote w _) pc
  | pause | stop =>
    simp only [handle, pause, stop]
    split_ifs
    · rfl
    · exact congrFun (pieces_rangeFor pieces_close _) pc
  | resume | start hasMetadata =>
    simp only [handle, resume, start]
    split_ifs <;> rfl

variable [DecidableEq H] [Inhabited H] {sha1 : Bytes → H}

theorem pieces_step (hmet : d.met pc = true) {a : Action info.toLayout Peer}
    (hd : d.step sha1 a = some d') : d'.met pc = true ∧
      d'.torrent.pieces pc = (heard pc a).toList.foldl announce (d.torrent.pieces pc) := by
  rcases step_cases hd with
    ⟨w, e, rfl, hallowed, -, rfl⟩ | ⟨w, i, c, rfl, -, rfl⟩ | ⟨s, rfl, htorrent, -, ha⟩
  · exact ⟨met_track_of_met hmet e, pieces_handle hmet w hallowed⟩
  · rw [met_account]
    exact ⟨hmet, congrFun (pieces_complete w d.torrent c) pc⟩
  · have hpieces : ({ d with system := s } : Download info Peer).torrent.pieces pc =
        d.torrent.pieces pc := congrArg (fun t : Torrent info Peer => t.pieces pc) htorrent
    cases a with
    | handle w e => exact absurd rfl (ha w e)
    | _ => exact ⟨hmet, hpieces⟩

theorem pieces_run (hmet : d.met pc = true) {actions : List (Action info.toLayout Peer)}
    (hrun : d.run sha1 actions = some d') :
    d'.torrent.pieces pc = (actions.filterMap (heard pc)).foldl announce (d.torrent.pieces pc) := by
  induction actions generalizing d with
  | nil =>
    cases hrun
    rfl
  | cons a actions ih =>
    obtain ⟨d₁, hd, hrun⟩ := Runs.run_cons.mp hrun
    obtain ⟨hmet₁, hpieces⟩ := pieces_step hmet hd
    rw [ih hmet₁ hrun, hpieces]
    cases hheard : heard pc a with
    | none => rw [filterMap_cons_none hheard]; rfl
    | some m => rw [filterMap_cons_some hheard]; rfl

/-- **A connection knows the announced pieces exactly if it was made with the number of pieces or
its peer does not begin with a HAVE**, whenever the metadata comes. -/
theorem announced_iff {w : World info.toLayout Peer} {n₀ : ℕ} (hn₀ : n₀ = 0 ∨ n₀ = info.numPieces)
    {actions : List (Action info.toLayout Peer)}
    (hlegal : Legal info.numPieces (actions.filterMap (heard pc)))
    (hrun : d.run sha1 (.handle w (.handshake pc n₀) :: actions) = some d') :
    (∀ p < info.numPieces, hasBit (d'.torrent.conns pc).peerHave p =
      (actions.filterMap (heard pc)).any (·.announces p)) ↔
    n₀ = info.numPieces ∨ ∀ q, (actions.filterMap (heard pc)).head? ≠ some (.havePiece q) := by
  obtain ⟨d₁, hd, hrun⟩ := Runs.run_cons.mp hrun
  obtain ⟨hmet, hnew⟩ : d₁.met pc = true ∧ d₁.torrent.pieces pc = (new n₀).pieces := by
    rcases step_cases hd with ⟨_, _, ⟨⟩, -, -, rfl⟩ | ⟨_, _, _, ⟨⟩, -⟩ | ⟨_, -, -, -, ha⟩
    · refine ⟨update_self .., ?_⟩
      change (d.torrent.handle w (.handshake pc n₀)).pieces pc = _
      rw [handle, pieces_onHandshake, pieces_updateConn, update_self]
      rfl
    · exact absurd rfl (ha w _)
  rw [← hasBit_announced_iff hn₀ hlegal, ← hnew, ← pieces_run hmet hrun]
  rfl

theorem announced_iff_magnet : ∃ d : Download oneByte ℕ, d.run id magnet = some resolved ∧
      ∀ p < oneByte.numPieces, hasBit (resolved.torrent.conns 0).peerHave p =
        (magnet.tail.filterMap (heard 0)).any (·.announces p) := by
  obtain ⟨d, -, hrun⟩ : ∃ d : Download oneByte ℕ, _ ∧ d.run id magnet = some resolved :=
    Runs.run_cons.mp (Option.some_get _).symm
  have hlegal : Legal oneByte.numPieces (magnet.tail.filterMap (heard 0)) := by
    exact .bitfield rfl nofun
  refine ⟨d, hrun, (announced_iff (.inl rfl) hlegal hrun).mpr (.inr ?_)⟩
  exact nofun

/-- **The HAVE of the other peer is lost**, and the metadata does not bring it back. -/
theorem early_have_lost : resolved.hasMetadata = true ∧
    (magnet.filterMap (heard 1)).any (·.announces 0) = true ∧
    hasBit (resolved.torrent.conns 1).peerHave 0 = false := by
  decide +kernel

end Download

end Librats.BitTorrent
