import Librats.BitTorrent.DiskIo
import Librats.BitTorrent.Pause
import Mathlib.Logic.Relation

/-!
# The small steps of a torrent's handlers

`Minor` lists the steps by which a torrent asks for blocks. None of them touches what a peer has
announced, what is counted for it, the pieces that are there, or what peers were told of them,
except that a send may fail.
-/

namespace Librats.BitTorrent

/-- The message does not speak of pieces we have. -/
def Sent.isMinor : Sent → Bool
  | .bitfield _ | .havePiece _ => false
  | _ => true

namespace Torrent

variable {H : Type} {info : TorrentInfo H} {Peer : Type} [DecidableEq Peer]

/-- A step that concerns requests, interest and jobs only. -/
inductive Minor : Torrent info Peer → Torrent info Peer → Prop
  | send (t : Torrent info Peer) (pc : Peer) {m : Sent} (hm : m.isMinor = true) :
    Minor t (t.sendMessage pc m)
  | interest (t : Torrent info Peer) (pc : Peer) (interested : Bool) :
    Minor t (t.updateConn pc fun c => { c with amInterested := interested })
  | choke (t : Torrent info Peer) (pc : Peer) (choking : Bool) :
    Minor t (t.updateConn pc fun c => { c with peerChoking := choking })
  | requests {t : Torrent info Peer} {picker : PiecePicker info.toLayout Peer}
    (hp : t.picker = some picker) (picker' : PiecePicker info.toLayout Peer)
    (havailability : picker'.availability = picker.availability)
    (hseeds : picker'.seeds = picker.seeds) (hhave : picker'.haveBits = picker.haveBits) :
    Minor t (t.setPicker picker')
  | books (t : Torrent info Peer) (outstanding : Peer → Option ℕ) (draws : ℕ) (stalled : Bool) :
    Minor t { t with outstanding := outstanding, draws := draws, writeStalled := stalled }
  | submit (t : Torrent info Peer) (job : DiskJob) : Minor t (t.submit job)

/-- Minor steps one after the other. -/
abbrev Minors : Torrent info Peer → Torrent info Peer → Prop := Relation.ReflTransGen Minor

theorem Minor.minors {t t' : Torrent info Peer} (h : Minor t t') : Minors t t' := .single h

theorem Minors.foldl {α : Type} {f : Torrent info Peer → α → Torrent info Peer}
    (hf : ∀ t x, Minors t (f t x)) (l : List α) (t : Torrent info Peer) : Minors t (l.foldl f t) :=
  List.foldlRecOn l f .refl fun s hs x _ => hs.trans (hf s x)

theorem Minors.rangeFor {body : Torrent info Peer → Peer → Torrent info Peer}
    (hbody : ∀ t pc, Minors t (body t pc)) (t : Torrent info Peer) :
    Minors t (RawVector.rangeFor peers body t) :=
  RawVector.rangeFor_induction (fun s x hs => hs.trans (hbody s x)) .refl

/-! ## Handlers made of minor steps -/

variable (w : World info.toLayout Peer) (t : Torrent info Peer) (pc : Peer)

theorem minors_setOutstanding (n : ℕ) : Minors t (t.setOutstanding pc n) :=
  (Minor.books t _ t.draws t.writeStalled).minors

theorem minors_sendInterested : Minors t (t.sendInterested pc) :=
  (Minor.interest t pc true).minors.tail (.send _ pc rfl)

variable (b : PieceBlock)

theorem minors_requestBlock : Minors t (t.requestBlock pc b) := by
  rw [requestBlock]
  split
  · exact .refl
  · rename_i picker hp
    have hmark : Minors t (t.setPicker (picker.markRequested b pc)) :=
      (Minor.requests hp (picker.markRequested b pc) rfl rfl rfl).minors
    exact (hmark.tail (.send _ pc rfl)).trans (minors_setOutstanding _ pc _)

theorem minors_refill : Minors t (t.refill w pc) := by
  rw [refill]
  split
  · exact .refl
  · dsimp only
    split_ifs
    · exact .refl
    · exact (Minor.books t t.outstanding _ true).minors
    · exact (Minor.books t _ _ t.writeStalled).minors
    · exact (Minor.books t _ _ t.writeStalled).minors.trans
        (Minors.foldl (fun t b => minors_requestBlock t pc b) _ _)

theorem minors_refillAll : Minors t (t.refillAll w) := by
  refine .rangeFor (fun t pc => ?_) t
  split_ifs
  · exact minors_refill w t pc
  · exact .refl

theorem minors_updateInterest : Minors t (t.updateInterest w pc) := by
  rw [updateInterest]
  split
  · exact .refl
  extract_lets want told
  have htold : Minors t told := by
    simp only [told]
    split_ifs
    · exact minors_sendInterested t pc
    · exact (Minor.interest t pc false).minors.tail (.send _ pc rfl)
    · exact .refl
  split_ifs
  · exact htold.trans (minors_refill w told pc)
  · exact htold

theorem onHave_cases (piece : ℕ) :
    (t.onHave w pc piece = t ∧ (t.picker = none ∨ info.numPieces ≤ piece)) ∨
    ∃ picker, t.picker = some picker ∧ piece < info.numPieces ∧
      Minors (t.setPicker (picker.peerHasPiece piece)) (t.onHave w pc piece) := by
  rw [onHave]
  split
  · rename_i hp
    exact .inl ⟨rfl, .inl hp⟩
  rename_i picker hp
  split_ifs with hpiece
  · exact .inl ⟨rfl, .inr hpiece⟩
  extract_lets counted told
  refine .inr ⟨picker, hp, not_le.mp hpiece, ?_⟩
  have htold : Minors counted told := by
    simp only [told]
    split_ifs
    · exact minors_sendInterested counted pc
    · exact .refl
  split_ifs
  · exact htold.trans (minors_refill w told pc)
  · exact htold

variable {picker : PiecePicker info.toLayout Peer}

theorem minors_cancelPeer (hp : t.picker = some picker) :
    Minors t (t.setPicker (picker.cancelPeer pc)) :=
  (Minor.requests hp (picker.cancelPeer pc) rfl rfl rfl).minors

theorem minors_onChoke (choking : Bool) : Minors t (t.onChoke w pc choking) := by
  rw [onChoke]
  split
  · exact .refl
  · rename_i picker hp
    split_ifs
    · exact (minors_cancelPeer t pc hp).trans (minors_setOutstanding _ pc 0)
    · exact minors_refill w t pc

theorem minors_cancelOn : Minors t (t.cancelOn b pc) := by
  rw [cancelOn]
  split_ifs
  · exact (Minor.books t _ t.draws t.writeStalled).minors.tail (.send _ pc rfl)
  · exact .refl

theorem minors_onPiece (piece offset : ℕ) (data : Bytes) :
    Minors t (t.onPiece w pc piece offset data) := by
  rw [onPiece]
  split
  · exact .refl
  rename_i picker hp
  split_ifs
  · exact .refl
  · exact .refl
  · exact .refl
  · exact (minors_setOutstanding t pc _).trans (minors_refill w _ pc)
  extract_lets freed b marked cancelled
  have hmarked : Minor freed (freed.setPicker marked.2) := by
    refine .requests (t := freed) hp marked.2 ?_ ?_ (PiecePicker.haveBits_markWriting b pc)
    all_goals
      simp only [marked, PiecePicker.markWriting]
      split <;> rfl
  have hcancelled : Minors t cancelled :=
    ((minors_setOutstanding t pc _).tail hmarked).trans
      (Minors.foldl (fun t o => minors_cancelOn t o b) _ _)
  exact (hcancelled.tail (.submit cancelled _)).trans (minors_refill w _ pc)

theorem minors_settle (hp : t.picker = some picker) (b : PieceBlock) :
    Minors t (t.settle picker b) := by
  have hmarked : Minors t (t.setPicker (picker.markFinished b).2) :=
    (Minor.requests hp (picker.markFinished b).2 rfl rfl rfl).minors
  rw [settle]
  split_ifs
  · exact hmarked.tail (.submit _ _)
  · exact hmarked

theorem minors_onBlockWritten (ok : Bool) : Minors t (t.onBlockWritten w b ok) := by
  rw [onBlockWritten]
  split
  · exact .refl
  rename_i picker hp
  split_ifs
  · exact .refl
  · exact (Minor.requests hp (picker.restorePiece b.piece) rfl rfl rfl).minors
  · extract_lets marked shown settled
    have hsettled : Minors t settled := minors_settle t hp b
    split_ifs
    · exact (hsettled.tail (.books settled settled.outstanding _ false)).trans
        (minors_refillAll w _)
    · exact hsettled.tail (.books settled settled.outstanding _ settled.writeStalled)

theorem minors_releaseRequests : Minors t (t.releaseRequests pc) := by
  rw [releaseRequests]
  split
  · exact .refl
  · rename_i picker hp
    exact (minors_cancelPeer t pc hp).trans (minors_setOutstanding _ pc 0)

theorem minors_checkRequestTimeouts (stalled : List Peer) :
    Minors t (t.checkRequestTimeouts w stalled) := by
  rw [checkRequestTimeouts]
  split_ifs
  · exact .refl
  · have hfreed := Minors.foldl (fun t pc => minors_releaseRequests t pc) stalled t
    refine hfreed.trans (Minors.rangeFor (fun t pc => ?_) _)
    split_ifs
    · exact minors_refill w t pc
    · exact .refl

/-! ## Steps without failing sends -/

section

variable {t t' : Torrent info Peer}

theorem apply_updateConn {β : Type} (field : PeerConnection → β) {f : PeerConnection → PeerConnection}
    (t : Torrent info Peer) (pc x : Peer) (hf : ∀ c, field (f c) = field c) :
    field ((t.updateConn pc f).conns x) = field (t.conns x) := by
  by_cases hx : x = pc
  · simp [updateConn, hx, hf]
  · simp [updateConn, hx]

theorem conns_close (t : Torrent info Peer) (pc : Peer) :
    (t.close pc).conns = Function.update t.conns pc { t.conns pc with closed := true } := by
  rw [close]
  split_ifs with hclosed
  · have hsame : { t.conns pc with closed := true } = t.conns pc := by
      rw [← hclosed]
    rw [hsame, Function.update_eq_self]
  · rw [onClosed, removePeer]
    split_ifs
    · exact uncount_conns _ pc
    · rfl

theorem paused_close (t : Torrent info Peer) (pc : Peer) : (t.close pc).paused = t.paused := by
  have huncount (t : Torrent info Peer) : (t.uncount pc).paused = t.paused := by
    rw [uncount]
    split <;> rfl
  rw [close]
  split_ifs
  · rfl
  · rw [onClosed, removePeer]
    split_ifs
    · exact huncount _
    · rfl

theorem broken_close (t : Torrent info Peer) (pc x : Peer) :
    ((t.close pc).conns x).broken = (t.conns x).broken := by
  rw [conns_close]
  by_cases hx : x = pc
  · rw [hx, Function.update_self]
  · rw [Function.update_of_ne hx]

theorem peers_close_of_notMem {pc : Peer} (hpc : pc ∉ t.peers.live) :
    (t.close pc).peers = t.peers := by
  rw [close]
  split_ifs
  · rfl
  · rw [onClosed, removePeer, if_neg]
    · rfl
    · exact fun halive => hpc (of_decide_eq_true halive)

theorem peers_sendMessage (h : ∀ x ∈ t.peers.live, (t.conns x).broken = false) (pc : Peer)
    (m : Sent) : (t.sendMessage pc m).peers = t.peers ∧
      ∀ x, ((t.sendMessage pc m).conns x).broken = (t.conns x).broken := by
  rw [sendMessage]
  split_ifs with hclosed hbroken
  · exact ⟨rfl, fun _ => rfl⟩
  · have hpc : pc ∉ t.peers.live := fun hmem =>
      absurd ((h pc hmem).symm.trans hbroken) (by decide)
    exact ⟨peers_close_of_notMem hpc, broken_close t pc⟩
  · exact ⟨rfl, fun _ => rfl⟩

theorem Minor.peers (hminor : Minor t t') (h : ∀ x ∈ t.peers.live, (t.conns x).broken = false) :
    t'.peers = t.peers ∧ ∀ x, (t'.conns x).broken = (t.conns x).broken := by
  cases hminor with
  | send pc hm => exact peers_sendMessage h pc _
  | interest pc interested | choke pc choking =>
    exact ⟨rfl, fun x => apply_updateConn (·.broken) t pc x fun _ => rfl⟩
  | requests | books | submit => exact ⟨rfl, fun _ => rfl⟩

theorem Minors.peers (hminors : Minors t t') (h : ∀ x ∈ t.peers.live, (t.conns x).broken = false) :
    t'.peers = t.peers ∧ ∀ x, (t'.conns x).broken = (t.conns x).broken := by
  induction hminors with
  | refl => exact ⟨rfl, fun _ => rfl⟩
  | tail _ hminor ih =>
    obtain ⟨hpeers, hbroken⟩ := ih
    have h' := hminor.peers fun x hx => by
      rw [hbroken]
      exact h x (hpeers ▸ hx)
    exact ⟨h'.1.trans hpeers, fun x => (h'.2 x).trans (hbroken x)⟩

end

end Torrent

end Librats.BitTorrent
