import Librats.BitTorrent.Download
import Librats.BitTorrent.TorrentSteps

/-!
# What the peers are told

A peer learns of our pieces from the bitfield it is sent after its handshake and from the HAVEs that
follow. These are sent in a loop over the connected peers themselves, from which a send that fails
removes its peer (`passed_over`).
-/

namespace Librats.BitTorrent

open List Function Torrent Librats.BitTorrent.System RawVector

/-- The message says that we have the piece. -/
def Sent.tells : Sent → ℕ → Bool
  | .bitfield bits, p => hasBit bits p
  | .havePiece piece, p => piece == p
  | _, _ => false

theorem Sent.tells_of_isMinor {m : Sent} (h : m.isMinor = true) (p : ℕ) : m.tells p = false := by
  cases m with
  | bitfield | havePiece => cases h
  | interested | notInterested | request | cancel => rfl

namespace Torrent

variable {H : Type} {info : TorrentInfo H} {Peer : Type} [DecidableEq Peer]

/-- The peer has been told of the piece. -/
def told (t : Torrent info Peer) (pc : Peer) (p : ℕ) : Bool :=
  t.sent.any fun x => x.1 == pc && x.2.tells p

/-- Among the connections `M`, the connected peers have been told of the pieces `K`, and nobody else
of anything. -/
structure Knows (M : Peer → Bool) (K : Peer → ℕ → Bool) (t : Torrent info Peer) : Prop
    extends Connected t where
  live : ∀ pc ∈ t.peers.live, M pc = true
  silent : ∀ pc, M pc = false → ∀ p, t.told pc p = false
  told : ∀ pc ∈ t.peers.live, ∀ p, t.told pc p = K pc p

open Knows

variable {M : Peer → Bool} {K : Peer → ℕ → Bool}

namespace Knows

variable {K' : Peer → ℕ → Bool} {t t' : Torrent info Peer}

theorem congr (h : Knows M K t) (hK : ∀ pc ∈ t.peers.live, K pc = K' pc) : Knows M K' t :=
  { h with told := fun pc hpc p => by rw [h.told pc hpc p, hK pc hpc] }

theorem of_eq (h : Knows M K t) (hpeers : t'.peers = t.peers) (hsent : t'.sent = t.sent)
    (hclosed : ∀ pc ∈ t.peers.live, (t'.conns pc).closed = (t.conns pc).closed) : Knows M K t' := by
  have htold : t'.told = t.told := by
    funext pc p
    rw [Torrent.told, hsent, Torrent.told]
  refine ⟨⟨?_, ?_⟩, ?_, ?_, ?_⟩
  all_goals try rw [hpeers]
  · exact h.nodup
  · exact fun pc hpc => (hclosed pc hpc).trans (h.isOpen pc hpc)
  · exact h.live
  · exact fun pc hpc => htold ▸ h.silent pc hpc
  · exact fun pc hpc => htold ▸ h.told pc hpc

end Knows

/-! ## Small steps -/

theorem sent_close (t : Torrent info Peer) (pc : Peer) : (t.close pc).sent = t.sent := by
  have huncount (t : Torrent info Peer) : (t.uncount pc).sent = t.sent := by
    rw [uncount]
    split <;> rfl
  rw [close]
  split_ifs
  · rfl
  · rw [onClosed, removePeer]
    split_ifs
    · exact huncount _
    · rfl

namespace Knows

variable {t t' : Torrent info Peer}

theorem updateConn (h : Knows M K t) (pc : Peer) {f : PeerConnection → PeerConnection}
    (hf : ∀ c, (f c).closed = c.closed) : Knows M K (t.updateConn pc f) :=
  h.of_eq rfl rfl fun x _ => apply_updateConn (·.closed) t pc x hf

theorem close (h : Knows M K t) (pc : Peer) : Knows M K (t.close pc) := by
  have htold : (t.close pc).told = t.told := by
    funext x p
    rw [Torrent.told, sent_close, Torrent.told]
  have hlive {x : Peer} (hx : x ∈ (t.close pc).peers.live) : x ∈ t.peers.live := by
    rw [peers_close h.isOpen, live_erase] at hx
    exact mem_of_mem_erase hx
  refine ⟨h.toConnected.close pc, fun x hx => h.live x (hlive hx), ?_, fun x hx => ?_⟩
  · rw [htold]
    exact h.silent
  · rw [htold]
    exact h.told x (hlive hx)

theorem send (h : Knows M K t) (pc : Peer) {m : Sent} (hM : M pc = true ∨ ∀ p, m.tells p = false) :
    Knows M (fun x p => K x p || x == pc && m.tells p) (t.sendMessage pc m) := by
  rw [sendMessage]
  split_ifs with hclosed hbroken
  · refine h.congr fun x hx => funext fun p => ?_
    have hne : x ≠ pc := by
      rintro rfl
      cases (h.isOpen x hx).symm.trans hclosed
    simp [hne]
  · have hgone : pc ∉ (t.close pc).peers.live := by
      rw [peers_close h.isOpen, RawVector.live_erase]
      exact fun hmem => (h.nodup.mem_erase_iff.mp hmem).1 rfl
    refine (h.close pc).congr fun x hx => funext fun p => ?_
    have hne : x ≠ pc := fun e => hgone (e ▸ hx)
    simp [hne]
  have htold (x : Peer) (p : ℕ) : Torrent.told { t with sent := t.sent ++ [(pc, m)] } x p =
        (t.told x p || x == pc && m.tells p) := by
    simp [Torrent.told, Bool.beq_comm]
  refine ⟨⟨h.nodup, h.isOpen⟩, h.live, fun x hx p => ?_, fun x hx p => ?_⟩
  · rw [htold, h.silent x hx, Bool.false_or]
    rcases hM with hM | hM
    · have hne : x ≠ pc := by
        rintro rfl
        cases hx.symm.trans hM
      simp [hne]
    · rw [hM, Bool.and_false]
  · rw [htold, h.told x hx]

theorem minor (hminor : Minor t t') (h : Knows M K t) : Knows M K t' := by
  cases hminor with
  | send pc hm =>
    refine (h.send pc (.inr (Sent.tells_of_isMinor hm))).congr fun x _ => funext fun p => ?_
    rw [Sent.tells_of_isMinor hm, Bool.and_false, Bool.or_false]
  | interest pc interested | choke pc choking => exact h.updateConn pc fun _ => rfl
  | requests | books | submit => exact h.of_eq rfl rfl fun _ _ => rfl

theorem minors (hminors : Minors t t') (h : Knows M K t) : Knows M K t' := by
  induction hminors with
  | refl => exact h
  | tail _ hminor ih => exact ih.minor hminor

theorem loop {f : Torrent info Peer → Peer → Torrent info Peer} (old new : ℕ → Bool)
    (hf : ∀ t pc K, M pc = true → Knows M K t → K pc = old → Knows M (update K pc new) (f t pc))
    {l : List Peer} (hl : l.Nodup) (hM : ∀ pc ∈ l, M pc = true)
    (h : Knows M (fun x => if x ∈ l then old else new) t) :
    Knows M (fun _ => new) (l.foldl f t) := by
  induction l generalizing t with
  | nil => exact h.congr fun _ _ => if_neg not_mem_nil
  | cons pc l ih =>
    obtain ⟨hpc, hl⟩ := nodup_cons.mp hl
    refine ih hl (fun x hx => hM x (.tail _ hx))
      ((hf t pc _ (hM pc (.head _)) h (if_pos (.head _))).congr fun x _ => ?_)
    by_cases hx : x = pc
    · rw [hx, update_self, if_neg hpc]
    · rw [update_of_ne hx]
      simp [hx]

end Knows

/-! ## Handlers -/

section

variable {t : Torrent info Peer} (w : World info.toLayout Peer) (h : Knows M K t)

include h

theorem Knows.onHave (pc : Peer) (piece : ℕ) : Knows M K (t.onHave w pc piece) := by
  rcases onHave_cases w t pc piece with ⟨heq, -⟩ | ⟨picker, -, -, hminors⟩
  · rwa [heq]
  · refine minors hminors ?_
    exact h.of_eq rfl rfl fun _ _ => rfl

theorem Knows.onBitfield (pc : Peer) (bits : List Bool) : Knows M K (t.onBitfield w pc bits) := by
  rw [Torrent.onBitfield]
  split
  · exact h
  rename_i picker _
  have hcounted : Knows M K (t.count picker pc bits) := by
    rw [count]
    split_ifs
    · exact h
    · exact h.of_eq rfl rfl fun _ _ => rfl
    · exact h.of_eq rfl rfl fun _ _ => rfl
  exact hcounted.minors (minors_updateInterest w _ pc)

theorem Knows.dispatch (pc : Peer) (m : Message) : Knows M K (t.dispatch w pc m) := by
  cases m with
  | choke =>
    refine minors (minors_onChoke w _ pc true) ?_
    exact h.updateConn pc fun _ => rfl
  | unchoke =>
    refine minors (minors_onChoke w _ pc false) ?_
    exact h.updateConn pc fun _ => rfl
  | havePiece piece =>
    rw [Torrent.dispatch]
    have hbegun : Knows M K (t.updateConn pc fun c => { c with pieceStateBegun := true }) :=
      h.updateConn pc fun _ => rfl
    split_ifs
    · refine onHave w ?_ pc piece
      exact hbegun.updateConn pc fun _ => rfl
    · exact hbegun
  | bitfield payload =>
    rw [Torrent.dispatch]
    extract_lets n
    split_ifs
    · exact h.close pc
    · exact h.close pc
    · refine onBitfield w ?_ pc _
      exact h.updateConn pc fun _ => rfl
  | piece piece offset data => exact h.minors (minors_onPiece w t pc piece offset data)

theorem Knows.dropPeers (K' : Peer → ℕ → Bool) : Knows M K' t.dropPeers := by
  have hclosed : Knows M K (RawVector.rangeFor peers Torrent.close t) :=
    rangeFor_induction (fun s x hs => hs.close x) h
  have hlive : t.dropPeers.peers.live = [] := take_zero
  refine ⟨⟨?_, ?_⟩, ?_, hclosed.silent, ?_⟩
  · rw [hlive]
    exact nodup_nil
  all_goals
    exact nofun

theorem Knows.promote : Knows M K (t.promote w) := by
  have hadopted : Knows M K (rangeFor peers (adopt w) (t.setPicker .new)) := by
    refine rangeFor_induction (fun s x hs => ?_) (h.of_eq rfl rfl fun _ _ => rfl)
    rw [adopt]
    split
    · exact hs
    · refine minors (minors_updateInterest w _ x) ?_
      exact hs.of_eq rfl rfl fun _ _ => rfl
  exact hadopted.of_eq rfl rfl fun _ _ => rfl

variable {pc : Peer}

theorem Knows.sends (hM : M pc = true) (ps : List ℕ) :
    Knows M (fun x p => K x p || x == pc && decide (p ∈ ps))
      (ps.foldl (fun t p => t.sendMessage pc (.havePiece p)) t) := by
  induction ps generalizing t K with
  | nil =>
    refine h.congr fun x _ => funext fun p => ?_
    rw [decide_eq_false not_mem_nil, Bool.and_false, Bool.or_false]
  | cons q ps ih =>
    refine (ih (h.send pc (.inl hM))).congr fun x _ => funext fun p => ?_
    have hcons : ((q == p) || decide (p ∈ ps)) = decide (p ∈ q :: ps) := by
      rw [Bool.beq_eq_decide_eq, ← Bool.decide_or]
      exact decide_eq_decide.mpr ((or_congr_left eq_comm).trans mem_cons.symm)
    rw [Sent.tells, Bool.or_assoc, ← Bool.and_or_distrib_left, hcons]

theorem Knows.join (hM : M pc = false) (hopen : (t.conns pc).closed = false) :
    Knows (update M pc true) (update K pc fun _ => false)
      ({ t with peers := t.peers.push pc }.setOutstanding pc 0) := by
  have hpc : pc ∉ t.peers.live := fun hmem => absurd ((h.live pc hmem).symm.trans hM) (by decide)
  have hne {x : Peer} (hx : x ∈ t.peers.live) : x ≠ pc := fun e => hpc (e ▸ hx)
  refine ⟨h.toConnected.join hpc hopen, fun x hx => ?_, fun x hx p => ?_, fun x hx p => ?_⟩
  · rcases mem_live_join.mp hx with hx | rfl
    · rw [update_of_ne (hne hx)]
      exact h.live x hx
    · rw [update_self]
  · have hx' : M x = false := by
      by_cases e : x = pc
      · rwa [e]
      · rwa [update_of_ne e] at hx
    exact h.silent x hx' p
  · rcases mem_live_join.mp hx with hx | rfl
    · rw [update_of_ne (hne hx)]
      exact h.told x hx p
    · rw [update_self]
      exact h.silent x hM p

theorem Knows.meet (pc : Peer) : Knows (update M pc true) K t := by
  have hM {x : Peer} (hx : M x = true) : update M pc true x = true := by
    by_cases e : x = pc
    · rw [e, update_self]
    · rwa [update_of_ne e]
  refine { h with live := fun x hx => hM (h.live x hx), silent := fun x hx => h.silent x ?_ }
  by_contra hx'
  cases (hM (Bool.not_eq_false _ ▸ hx')).symm.trans hx

omit h

theorem hasBit_map_range (f : ℕ → Bool) (n p : ℕ) :
    hasBit ((List.range n).map f) p = (decide (p < n) && f p) := by
  by_cases hp : p < n
  · simp [hasBit, hp]
  · simp [hasBit, hp]

theorem Knows.onHandshake (h : Knows M (fun _ => t.has) t) (hM : M pc = false)
    (hopen : (t.conns pc).closed = false) (hrange : ∀ p, t.has p = true → p < info.numPieces) :
    Knows (update M pc true) (fun _ => t.has) (t.onHandshake pc) := by
  rw [Torrent.onHandshake]
  split_ifs
  · exact (h.close pc).meet pc
  · exact (h.close pc).meet pc
  extract_lets joined
  have hjoined := h.join hM hopen
  split
  · rename_i hnone
    have hpicker : t.picker = none := hnone
    refine hjoined.congr fun x _ => ?_
    by_cases hx : x = pc
    · rw [hx, update_self]
      funext p
      rw [has, hpicker]
      rfl
    · rw [update_of_ne hx]
  rename_i picker hp
  have hpicker : t.picker = some picker := hp
  have hhas : t.has = picker.havePiece := by
    funext p
    rw [has, hpicker]
    rfl
  refine (hjoined.send pc (.inl (update_self ..))).congr fun x _ => funext fun p => ?_
  by_cases hx : x = pc
  · subst hx
    rw [Sent.tells, hasBit_map_range, ← hhas]
    cases hp' : t.has p with
    | false => simp
    | true => simp [hrange p hp']
  · simp [hx]

theorem Knows.announce {old : ℕ → Bool} (h : Knows M (fun _ => old) t)
    (hunbroken : ∀ x ∈ t.peers.live, (t.conns x).broken = false) (piece : ℕ) :
    Knows M (fun _ p => old p || decide (p = piece)) (rangeFor peers
        (fun t pc => (t.sendMessage pc (.havePiece piece)).updateInterest w pc) t) := by
  rw [rangeFor_eq_foldl
    (P := fun s : Torrent info Peer => ∀ x ∈ s.peers.live, (s.conns x).broken = false)
    (fun s pc hs _ => ?_) hunbroken]
  · refine loop old _ (fun s pc K hM hs hold => ?_) h.nodup h.live
      (h.congr fun x hx => (if_pos hx).symm)
    refine ((hs.send pc (.inl hM)).minors (minors_updateInterest w _ pc)).congr fun x _ => ?_
    by_cases hx : x = pc
    · subst hx
      funext p
      simp [hold, Sent.tells, Bool.beq_eq_decide_eq, eq_comm]
    · rw [update_of_ne hx]
      funext p
      simp [hx]
  obtain ⟨hpeers, hbroken⟩ := peers_sendMessage hs pc (.havePiece piece)
  have hs' : ∀ x ∈ (s.sendMessage pc (.havePiece piece)).peers.live,
      ((s.sendMessage pc (.havePiece piece)).conns x).broken = false := by
    rw [hpeers]
    exact fun x hx => (hbroken x).trans (hs x hx)
  obtain ⟨hpeers', hbroken'⟩ := (minors_updateInterest w _ pc).peers hs'
  refine ⟨?_, hpeers'.trans hpeers⟩
  rw [hpeers']
  exact fun x hx => (hbroken' x).trans (hs' x hx)

theorem Knows.onPieceHashed [DecidableEq H] (h : Knows M (fun _ => t.has) t) {piece : ℕ} {ok : Bool}
    {hash : H} (hunbroken : t.running = true → ok = true → hash = info.pieceHash piece →
      ∀ x ∈ t.peers.live, (t.conns x).broken = false) :
    Knows M (fun _ => (t.onPieceHashed w piece ok hash).has) (t.onPieceHashed w piece ok hash) := by
  rw [Torrent.onPieceHashed]
  split
  · exact h
  rename_i picker hp
  split_ifs with hrunning hbad
  · exact h
  · rw [(quiet_restorePiece t hp piece).has]
    exact h.of_eq rfl rfl fun _ _ => rfl
  simp only [Bool.or_eq_true, Bool.not_eq_true', bne_iff_ne, not_or, Bool.not_eq_false,
    not_not] at hrunning hbad
  have hset : Knows M (fun _ => t.has) (t.setPicker (picker.weHave piece)) :=
    h.of_eq rfl rfl fun _ _ => rfl
  refine (hset.announce w (hunbroken hrunning hbad.1 hbad.2) piece).congr fun _ _ => ?_
  rw [(Quiet.rangeFor (fun t pc => (quiet_sendMessage t pc (.havePiece piece)).trans
    (quiet_updateInterest w _ pc)) _).has]
  funext p
  rw [has, hp]
  exact (PiecePicker.haveBits_weHave piece p).symm

/-- The loop over a copy of the peers reaches all that stay connected. -/
theorem Knows.onCheckComplete (h : Knows M (fun _ => t.has) t)
    {picker : PiecePicker info.toLayout Peer} (hp : t.picker = some picker)
    (hrunning : t.running = true) (bits : List Bool) :
    Knows M (fun _ => (picker.setHaveBitfield bits).havePiece) (t.onCheckComplete w bits) := by
  have hnew (p : ℕ) : (picker.setHaveBitfield bits).havePiece p =
      (t.has p || decide (p ∈ (List.range info.numPieces).filter
        (picker.setHaveBitfield bits).havePiece)) := by
    have hbits : (picker.setHaveBitfield bits).haveBits p =
        (t.has p || (decide (p < info.numPieces) && hasBit bits p)) := by
      rw [PiecePicker.haveBits_setHaveBitfield_eq, has, hp]
      rfl
    rw [PiecePicker.havePiece, hbits]
    cases hhas : t.has p with
    | true => rfl
    | false => simp [PiecePicker.havePiece, hbits, hhas, mem_filter]
  rw [Torrent.onCheckComplete]
  split
  · rename_i hnone
    cases hp.symm.trans hnone
  rename_i picker₀ hp₀
  obtain rfl := Option.mem_unique hp₀ hp
  rw [if_neg (by simp [hrunning])]
  extract_lets picker' found
  have h' : Knows M (fun _ => t.has) (t.setPicker picker') := h.of_eq rfl rfl fun _ _ => rfl
  refine loop t.has _ (fun s pc K hM hs hold => ?_) h.nodup h.live
    (h'.congr fun x hx => (if_pos hx).symm)
  extract_lets told
  -- what one peer is told
  have htold : Knows M (update K pc picker'.havePiece) told := by
    refine (hs.sends hM found).congr fun x _ => ?_
    by_cases hx : x = pc
    · subst hx
      rw [update_self]
      funext p
      rw [hnew p, hold, BEq.rfl, Bool.true_and]
    · rw [update_of_ne hx]
      funext p
      simp [hx]
  split_ifs with halive
  · exact htold.minors (minors_updateInterest w told pc)
  · exact htold
  · refine hs.congr fun x hx => ?_
    have hne : x ≠ pc := by
      rintro rfl
      exact halive (decide_eq_true hx)
    rw [update_of_ne hne]

end

end Torrent

open Torrent

open Torrent

/-! ## Runs -/

namespace Download

open Torrent (Knows)

variable {H : Type} [DecidableEq H] {info : TorrentInfo H} {Peer : Type} [DecidableEq Peer]
  {d d' : Download info Peer} {e : Event Peer}

/-- A handshake is answered unless the peer is turned away, and the connections of the connected
peers work when a piece has been verified. -/
def reachesAll (d : Download info Peer) : Action info.toLayout Peer → Bool
  | .handle _ (.unanswered _ _) => d.torrent.paused || decide (kMaxPeers ≤ d.torrent.peers.size)
  | .deliver _ i =>
    d.system.posted[i]?.all fun
      | .hashed piece ok hash =>
        !d.torrent.running || !ok || hash != info.pieceHash piece ||
          d.torrent.peers.live.all fun pc => !(d.torrent.conns pc).broken
      | _ => true
  | _ => true

/-- The connected peers have been told of the pieces that are there. -/
structure Informed (d : Download info Peer) : Prop extends Sane d where
  knows : Knows d.met (fun _ => d.torrent.has) d.torrent

omit [DecidableEq H] in
theorem met_track (d : Download info Peer)
    (he : ∀ pc n, e ≠ .handshake pc n ∧ e ≠ .unanswered pc n) : (d.track e).met = d.met := by
  cases e
  case handshake pc n => exact absurd rfl (he pc n).1
  case unanswered pc n => exact absurd rfl (he pc n).2
  case start | stop =>
    rw [track]
    split_ifs <;> rfl
  all_goals rfl

variable {w : World info.toLayout Peer}

omit [DecidableEq H] in
theorem Knows.handshake (h : Informed d) {pc : Peer} {n : ℕ} (hmet : d.met pc = false) :
    Knows (Function.update d.met pc true) (fun _ => (d.torrent.handle w (.handshake pc n)).has)
      (d.torrent.handle w (.handshake pc n)) := by
  rw [(d.torrent.keeps_handle w (e := .handshake pc n) (by simp)).has]
  refine Knows.onHandshake (t := d.torrent.updateConn pc fun c =>
    { PeerConnection.new n with broken := c.broken }) ?_ hmet ?_ h.has
  · refine h.knows.of_eq rfl rfl fun x hx => ?_
    have hne : x ≠ pc := by
      rintro rfl
      cases (h.knows.live x hx).symm.trans hmet
    simp [updateConn, hne]
  · simp [updateConn, PeerConnection.new]

omit [DecidableEq H] in
theorem Knows.unanswered (h : Informed d) {pc : Peer} {n : ℕ} (hmet : d.met pc = false)
    (hturned : d.torrent.paused = true ∨ kMaxPeers ≤ d.torrent.peers.size) :
    Knows (update d.met pc true) (fun _ => (d.torrent.handle w (.unanswered pc n)).has)
      (d.torrent.handle w (.unanswered pc n)) := by
  rw [(d.torrent.keeps_handle w (e := .unanswered pc n) (by simp)).has]
  have hne {x : Peer} (hx : x ∈ d.torrent.peers.live) : x ≠ pc := by
    rintro rfl
    cases (h.knows.live x hx).symm.trans hmet
  have hnew : Knows d.met (fun _ => d.torrent.has) (d.torrent.updateConn pc fun _ => .new n) := by
    refine h.knows.of_eq rfl rfl fun x hx => ?_
    simp [updateConn, hne hx]
  have hpeers : ((d.torrent.updateConn pc fun _ => .new n).close pc).peers = d.torrent.peers :=
    peers_close_of_notMem (t := d.torrent.updateConn pc fun _ => .new n) fun hmem => hne hmem rfl
  rw [handle, onHandshake]
  split_ifs with hpaused hfull
  · exact ((hnew.close pc).close pc).meet pc
  · exact ((hnew.close pc).close pc).meet pc
  · rw [paused_close] at hpaused
    rw [hpeers] at hfull
    exact (hturned.elim hpaused hfull).elim

theorem Informed.handle (h : Informed d) (hallowed : d.allowed e = true)
    (henabled : d.system.enabled e = true) (hreaches : d.reachesAll (.handle w e) = true) :
    Knows (d.track e).met (fun _ => (d.torrent.handle w e).has) (d.torrent.handle w e) := by
  -- without a picker nothing is there
  have hnone (hp : d.torrent.picker = none) : d.torrent.has = fun _ => false := by
    funext p
    rw [has, hp]
    rfl
  cases e with
  | handshake pc n => exact Knows.handshake h (Bool.not_eq_true' _ ▸ hallowed)
  | unanswered pc n =>
    refine Knows.unanswered h (Bool.not_eq_true' _ ▸ hallowed) ?_
    simpa [reachesAll] using hreaches
  | message pc m =>
    rw [(d.torrent.keeps_handle w (e := .message pc m) (by simp)).has]
    exact h.knows.dispatch w pc m
  | drop pc =>
    rw [(d.torrent.keeps_handle w (e := .drop pc) (by simp)).has]
    exact h.knows.close pc
  | breaks pc =>
    rw [handle]
    exact h.knows.updateConn pc fun _ => rfl
  | timeouts stalled =>
    rw [(d.torrent.keeps_handle w (e := .timeouts stalled) (by simp)).has]
    exact h.knows.minors (minors_checkRequestTimeouts w d.torrent stalled)
  | pause =>
    rw [(d.torrent.keeps_handle w (e := .pause) (by simp)).has, handle, pause]
    split_ifs
    · exact h.knows
    · refine Knows.dropPeers (K := fun _ => d.torrent.has) ?_ _
      exact h.knows.of_eq rfl rfl fun _ _ => rfl
  | resume =>
    rw [(d.torrent.keeps_handle w (e := .resume) (by simp)).has, handle, resume]
    split_ifs
    · exact h.knows
    · exact h.knows.of_eq rfl rfl fun _ _ => rfl
  | start hasMetadata =>
    rw [d.met_track (e := .start hasMetadata) (by simp), handle, start]
    split_ifs with hrunning
    · exact h.knows
    · refine Knows.congr (h.knows.of_eq rfl rfl fun _ _ => rfl) ?_
      exact fun _ _ => hnone (h.stopped (Bool.not_eq_true _ ▸ hrunning))
    · exact h.knows.of_eq rfl rfl fun _ _ => rfl
  | promote =>
    rw [enabled, Bool.and_eq_true, Option.isNone_iff_eq_none] at henabled
    obtain ⟨t₁, hquiet, heq⟩ := quiet_promote w d.torrent
    refine (h.knows.promote w).congr fun _ _ => (hnone henabled.2).trans ?_
    rw [handle, heq]
    exact hquiet.has.symm
  | stop =>
    rw [d.met_track (e := .stop) (by simp), handle, stop]
    split_ifs with hrunning
    · exact h.knows
    · have hdropped : Knows d.met (fun _ _ => false)
          ({ d.torrent with running := false, paused := false }.dropPeers) := by
        refine Knows.dropPeers (K := fun _ => d.torrent.has) ?_ _
        exact h.knows.of_eq rfl rfl fun _ _ => rfl
      exact hdropped.of_eq rfl rfl fun _ _ => rfl

theorem Informed.deliver (h : Informed d) {i : ℕ} {c : Completion H}
    (hi : d.system.posted[i]? = some c) (hreaches : d.reachesAll (.deliver w i) = true) :
    Knows d.met (fun _ => (complete w d.torrent c).has) (complete w d.torrent c) := by
  have hc : c.ticket.Within info.numPieces :=
    h.tickets _ ((tickets_unpost hi).symm.subset (.head _))
  rw [reachesAll, hi] at hreaches
  cases c with
  | written b ok =>
    rw [complete, (keeps_onBlockWritten w d.torrent hc ok).has]
    exact h.knows.minors (minors_onBlockWritten w d.torrent b ok)
  | hashed piece ok hash =>
    refine h.knows.onPieceHashed w fun hrunning hok hhash => ?_
    simpa [hrunning, hok, hhash] using hreaches
  | checked bits =>
    rcases d.torrent.onCheckComplete_cases w bits with
      ⟨-, heq⟩ | ⟨picker, hp, hrunning, hquiet⟩ <;> rw [complete]
    · rw [heq]
      exact h.knows
    · rw [hquiet.keeps.has]
      exact h.knows.onCheckComplete w hp hrunning bits

variable [Inhabited H] {sha1 : Bytes → H}

theorem Informed.step (h : Informed d) {a : Action info.toLayout Peer}
    (hreaches : d.reachesAll a = true) (hd : d.step sha1 a = some d') : Informed d' := by
  have hsane := h.toSane.step hd
  rcases step_cases hd with
    ⟨w, e, rfl, hallowed, henabled, rfl⟩ | ⟨w, i, c, rfl, hi, rfl⟩ | ⟨s, rfl, htorrent, -⟩
  · refine ⟨hsane, ?_⟩
    exact (h.handle hallowed henabled hreaches).of_eq rfl rfl fun _ _ => rfl
  · refine ⟨hsane, ?_⟩
    rw [met_account]
    exact (h.deliver hi hreaches).of_eq rfl rfl fun _ _ => rfl
  · refine ⟨hsane, ?_⟩
    rw [htorrent]
    exact h.knows

/-- **If all handshakes are answered and no send fails while a verified piece is announced, every
connected peer has been told of exactly the pieces that are there.** -/
theorem told_eq_has (known : Bool) (conns : Peer → PeerConnection) (content : Content)
    {actions : List (Action info.toLayout Peer)} {d : Download info Peer}
    (hrun : (init known conns content).run sha1 actions = some d)
    (hreaches : Runs.AllMeet (Download.step sha1)
      (fun (d : Download info Peer) a => d.reachesAll a = true) (init known conns content) actions) :
    ∀ pc ∈ d.torrent.peers.live, ∀ p, d.torrent.told pc p = d.torrent.has p := by
  have hinit : Informed (init known conns content : Download info Peer) :=
    ⟨.init known conns content, ⟨nodup_nil, nofun⟩, nofun, fun _ _ _ => rfl, nofun⟩
  have hinformed : Informed d :=
    Runs.run_induction (fun _ _ _ hi hr hs => hi.step hr hs) hinit hreaches hrun
  exact hinformed.knows.told

/-- Three peers are connected, and the hash of the piece from the second is reported. -/
def threePeers : List (Action oneByte.toLayout ℕ) :=
  [.handle plain (.start true), .take, .finish 0 false, .finish 0 true, .post 0,
    .deliver plain 0, .handle plain (.handshake 0 1),
    .handle plain (.handshake 1 1), .handle plain (.handshake 2 1),
    .handle plain (.message 1 (.bitfield [128])), .handle plain (.message 1 .unchoke),
    .handle plain (.message 1 (.piece 0 0 [7])), .take, .write 0 1, .finish 0 true, .post 0,
    .deliver plain 0, .take, .read 0 1, .finish 0 true, .post 0]

/-- The piece has been announced to the three peers. -/
def announced : Download oneByte ℕ :=
  ((init true (fun _ => .new 1) fun _ => none : Download oneByte ℕ).run id
    (threePeers ++ [.deliver plain 0])).get (by decide +kernel)

theorem told_eq_has_announced : 1 ∈ announced.torrent.peers.live ∧ announced.torrent.has 0 = true ∧
      announced.torrent.told 1 0 = announced.torrent.has 0 :=
  ⟨by decide +kernel, by decide +kernel,
    told_eq_has true (fun _ => .new 1) (fun _ => none) (Option.some_get _).symm
      (by decide +kernel) 1 (by decide +kernel) 0⟩

/-- The connection of the first peer breaks before the piece is announced. -/
def firstBreaks : List (Action oneByte.toLayout ℕ) :=
  threePeers ++ [.handle plain (.breaks 0), .deliver plain 0]

/-- The byte is on disk, and the reply to a handshake fails. -/
def replyFails : List (Action oneByte.toLayout ℕ) :=
  [.handle plain (.start true), .take, .read 0 1, .finish 0 true, .finish 0 true, .post 0,
    .deliver plain 0, .handle plain (.unanswered 0 1)]

/-- The second of three peers is passed over when the first is removed, and one that could not be
answered is never told. -/
theorem passed_over : ((init true (fun _ => .new 1) fun _ => none : Download oneByte ℕ).run id
      firstBreaks).any (fun d => d.state == .seeding && d.torrent.peers.live == [1, 2] &&
        d.torrent.has 0 && !d.torrent.told 1 0) = true ∧
    ((init true (fun _ => .new 1) fun x => if x.2 = 0 then some 7 else none :
      Download oneByte ℕ).run id replyFails).any (fun d => d.state == .seeding &&
        d.torrent.peers.live == [0] && d.torrent.has 0 && !d.torrent.told 0 0) = true := by
  decide +kernel

end Download

end Librats.BitTorrent
