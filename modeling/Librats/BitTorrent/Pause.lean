import Librats.BitTorrent.Torrent

/-!
# Leaving the swarm

Pausing or stopping a torrent closes its connections in a loop over the connected peers, and each
close removes its peer from that vector. With one or two peers the loop reaches both; with more the
second one stays connected, with its requests and its counts (`leavesSwarm_iff`).
-/

namespace Librats.BitTorrent.Torrent

open List RawVector

variable {H : Type} {info : TorrentInfo H} {Peer : Type}

/-- The peer is counted in the availability of the piece. -/
def countsFor (t : Torrent info Peer) (piece : ℕ) (pc : Peer) : Bool :=
  !t.seedPeers pc && hasBit (t.conns pc).peerHave piece

variable [DecidableEq Peer]

/-- All peers connected in `t` are gone in `t'`: closed, reported closed once each, and with no
trace in the picker if there is one. -/
structure LeavesSwarm (t t' : Torrent info Peer) : Prop where
  closed : ∀ pc ∈ t.peers.live, (t'.conns pc).closed = true
  fired : ∀ pc ∈ t.peers.live, t'.fired.count pc = t.fired.count pc + 1
  requests : ∀ picker', t'.picker = some picker' → ∀ pc ∈ t.peers.live, ∀ b,
    pc ∉ picker'.requesters b
  availability : ∀ picker picker', t.picker = some picker → t'.picker = some picker' →
    ∀ p < info.numPieces,
      picker'.availability p = picker.availability p - t.peers.live.countP (t.countsFor p)
  seeds : ∀ picker picker', t.picker = some picker → t'.picker = some picker' →
    picker'.seeds = picker.seeds - t.peers.live.countP t.seedPeers

/-! ## Closing connections -/

/-- What is left of a picker once the peers `pcs` of `t` are gone. -/
structure Uncounted (t : Torrent info Peer) (pcs : List Peer)
    (picker picker' : PiecePicker info.toLayout Peer) : Prop where
  availability : ∀ p < info.numPieces,
    picker'.availability p = picker.availability p - pcs.countP (t.countsFor p)
  seeds : picker'.seeds = picker.seeds - pcs.countP t.seedPeers
  requesters : ∀ b, ∀ pc ∈ picker'.requesters b, pc ∈ picker.requesters b ∧ pc ∉ pcs

/-- The connections `pcs` have been closed, one after the other. -/
structure Leaves (pcs : List Peer) (t t' : Torrent info Peer) : Prop where
  closed : ∀ pc, (t'.conns pc).closed = true ↔ (t.conns pc).closed = true ∨ pc ∈ pcs
  peerHave : ∀ pc, (t'.conns pc).peerHave = (t.conns pc).peerHave
  seedPeers : ∀ pc ∉ pcs, t'.seedPeers pc = t.seedPeers pc
  fired : t'.fired = t.fired ++ pcs
  peers : t'.peers.live = t.peers.live.diff pcs
  picker : ∀ picker', t'.picker = some picker' →
    ∃ picker, t.picker = some picker ∧ t.Uncounted pcs picker picker'
  none : t'.picker = none → t.picker = none

theorem Leaves.nil (t : Torrent info Peer) : Leaves [] t t where
  closed pc := by simp
  peerHave _ := rfl
  seedPeers _ _ := rfl
  fired := (append_nil _).symm
  peers := rfl
  picker picker' h := ⟨picker', h, fun _ _ => rfl, rfl, fun _ _ h => ⟨h, not_mem_nil⟩⟩
  none := id

theorem Leaves.countsFor_eq {pcs : List Peer} {t t' : Torrent info Peer} (h : Leaves pcs t t')
    {pc : Peer} (hpc : pc ∉ pcs) (p : ℕ) : t'.countsFor p pc = t.countsFor p pc := by
  rw [countsFor, countsFor, h.seedPeers pc hpc, h.peerHave]

theorem Leaves.trans {l l' : List Peer} {t t' t'' : Torrent info Peer} (h : Leaves l t t')
    (h' : Leaves l' t' t'') (hdisj : ∀ pc ∈ l', pc ∉ l) : Leaves (l ++ l') t t'' where
  closed pc := by rw [h'.closed, h.closed, or_assoc, mem_append]
  peerHave pc := (h'.peerHave pc).trans (h.peerHave pc)
  seedPeers pc hpc := by
    rw [mem_append, not_or] at hpc
    exact (h'.seedPeers pc hpc.2).trans (h.seedPeers pc hpc.1)
  fired := by rw [h'.fired, h.fired, append_assoc]
  peers := by rw [h'.peers, h.peers, diff_append]
  picker picker'' hp'' := by
    obtain ⟨picker', hp', u'⟩ := h'.picker picker'' hp''
    obtain ⟨picker, hp, u⟩ := h.picker picker' hp'
    refine ⟨picker, hp, fun p hpn => ?_, ?_, fun b pc hpc => ?_⟩
    · have hcongr : l'.countP (t'.countsFor p) = l'.countP (t.countsFor p) :=
        countP_congr fun pc hpc => by rw [h.countsFor_eq (hdisj pc hpc)]
      rw [u'.availability p hpn, u.availability p hpn, hcongr, countP_append, Nat.sub_sub]
    · have hcongr : l'.countP t'.seedPeers = l'.countP t.seedPeers :=
        countP_congr fun pc hpc => by rw [h.seedPeers pc (hdisj pc hpc)]
      rw [u'.seeds, u.seeds, hcongr, countP_append, Nat.sub_sub]
    · obtain ⟨hmem', hnot'⟩ := u'.requesters b pc hpc
      obtain ⟨hmem, hnot⟩ := u.requesters b pc hmem'
      exact ⟨hmem, fun happ => (mem_append.mp happ).elim hnot hnot'⟩
  none hp := h.none (h'.none hp)

section

variable (t : Torrent info Peer) (pc : Peer)

@[simp]
theorem uncount_peers : (t.uncount pc).peers = t.peers := by
  rw [uncount]
  split <;> rfl

@[simp]
theorem uncount_conns : (t.uncount pc).conns = t.conns := by
  rw [uncount]
  split <;> rfl

@[simp]
theorem uncount_fired : (t.uncount pc).fired = t.fired := by
  rw [uncount]
  split <;> rfl

theorem uncount_picker_eq_none : (t.uncount pc).picker = none ↔ t.picker = none := by
  rw [uncount]
  split
  · rfl
  · rename_i picker hp
    simp [hp, setPicker]

theorem uncount_seedPeers {x : Peer} (hx : x ≠ pc) :
    (t.uncount pc).seedPeers x = t.seedPeers x := by
  rw [uncount]
  split
  · rfl
  · exact Function.update_of_ne hx _ _

theorem uncounted_uncount {picker' : PiecePicker info.toLayout Peer}
    (hp' : (t.uncount pc).picker = some picker') :
    ∃ picker, t.picker = some picker ∧ t.Uncounted [pc] picker picker' := by
  rw [uncount] at hp'
  split at hp'
  · rename_i hp
    cases hp.symm.trans hp'
  rename_i picker hp
  refine ⟨picker, hp, ?_⟩
  cases hp'
  refine ⟨fun p hpn => ?_, ?_, fun b x hx => ?_⟩
  · simp only [PiecePicker.cancelPeer, countP_singleton, countsFor]
    split_ifs <;> simp_all [PiecePicker.decAvailability, PiecePicker.decAvailabilityAll]
  · simp only [PiecePicker.cancelPeer]
    split_ifs <;> simp_all [PiecePicker.decAvailability, PiecePicker.decAvailabilityAll]
  · rw [PiecePicker.requesters_cancelPeer, mem_filter] at hx
    refine ⟨?_, by simpa using hx.2⟩
    split_ifs at hx <;> exact hx.1

variable {t pc}

theorem peers_close (hopen : ∀ x ∈ t.peers.live, (t.conns x).closed = false) (pc : Peer) :
    (t.close pc).peers = t.peers.erase pc := by
  rw [close]
  split_ifs with hclosed
  · rw [erase_of_notMem fun hmem => by simp [hopen pc hmem] at hclosed]
  · rw [onClosed, removePeer]
    split_ifs with halive
    · exact congrArg (erase · pc) (uncount_peers _ pc)
    · have hmem : pc ∉ t.peers.live := fun hmem => halive (decide_eq_true hmem)
      rw [erase_of_notMem hmem]
      rfl

theorem closed_close (pc x : Peer) :
    ((t.close pc).conns x).closed = true ↔ (t.conns x).closed = true ∨ x = pc := by
  rw [close]
  split_ifs with hclosed
  · exact ⟨.inl, fun h => h.elim id fun e => e ▸ hclosed⟩
  have hconns : ((t.updateConn pc fun c => { c with closed := true }).onClosed pc).conns =
      Function.update t.conns pc { t.conns pc with closed := true } := by
    rw [onClosed, removePeer]
    split_ifs
    · exact uncount_conns _ pc
    · rfl
  rw [hconns]
  by_cases hx : x = pc
  · simp [hx]
  · simp [hx]

/-- The connection is marked closed, and the report is under way. -/
def reported (t : Torrent info Peer) (pc : Peer) : Torrent info Peer :=
  { t.updateConn pc fun c => { c with closed := true } with fired := t.fired ++ [pc] }

theorem peerHave_reported (pc x : Peer) :
    ((t.reported pc).conns x).peerHave = (t.conns x).peerHave := by
  by_cases hx : x = pc
  · simp [reported, updateConn, hx]
  · simp [reported, updateConn, hx]

theorem countsFor_reported (p : ℕ) (pc : Peer) : (t.reported pc).countsFor p = t.countsFor p := by
  funext x
  rw [countsFor, peerHave_reported]
  rfl

section

variable (hmem : pc ∈ t.peers.live) (hopen : (t.conns pc).closed = false)

include hmem hopen

theorem close_eq : t.close pc = { (t.reported pc).uncount pc with
      peers := ((t.reported pc).uncount pc).peers.erase pc
      outstanding := Function.update ((t.reported pc).uncount pc).outstanding pc none } := by
  have halive : (t.reported pc).alive pc = true := decide_eq_true hmem
  rw [close, hopen]
  exact if_pos halive

theorem Leaves.close : Leaves [pc] t (t.close pc) where
  closed x := by rw [closed_close, mem_singleton]
  peerHave x := by
    rw [close_eq hmem hopen, uncount_conns, peerHave_reported]
  seedPeers x hx := by
    rw [close_eq hmem hopen]
    exact uncount_seedPeers _ pc (fun e => hx (mem_singleton.mpr e))
  fired := by
    rw [close_eq hmem hopen, uncount_fired]
    rfl
  peers := by
    rw [close_eq hmem hopen, uncount_peers, live_erase, diff_cons]
    rfl
  picker picker' hp' := by
    rw [close_eq hmem hopen] at hp'
    obtain ⟨picker, hp, u⟩ := uncounted_uncount (t.reported pc) pc hp'
    refine ⟨picker, hp, fun p hpn => ?_, u.seeds, u.requesters⟩
    rw [u.availability p hpn, countsFor_reported]
  none hp' := by
    rw [close_eq hmem hopen] at hp'
    exact (uncount_picker_eq_none (t.reported pc) pc).mp hp'

end

end

/-! ## The loop -/

section

variable {t : Torrent info Peer}

/-- The connected peers are distinct and their connections open. -/
structure Connected (t : Torrent info Peer) : Prop where
  nodup : t.peers.live.Nodup
  isOpen : ∀ pc ∈ t.peers.live, (t.conns pc).closed = false

theorem Connected.close (h : Connected t) (x : Peer) : Connected (t.close x) := by
  refine ⟨?_, fun pc hpc => ?_⟩
  · rw [peers_close h.isOpen, live_erase]
    exact h.nodup.erase x
  · rw [peers_close h.isOpen, live_erase, h.nodup.mem_erase_iff] at hpc
    rw [← Bool.not_eq_true, closed_close, not_or]
    exact ⟨by simp [h.isOpen pc hpc.2], hpc.1⟩

theorem mem_live_join {x pc : Peer} :
    x ∈ ({ t with peers := t.peers.push pc }.setOutstanding pc 0).peers.live ↔
      x ∈ t.peers.live ∨ x = pc := by
  simp [setOutstanding, live_push]

theorem Connected.join (h : Connected t) {pc : Peer} (hpc : pc ∉ t.peers.live)
    (hopen : (t.conns pc).closed = false) :
    Connected ({ t with peers := t.peers.push pc }.setOutstanding pc 0) := by
  refine ⟨?_, fun x hx => ?_⟩
  · rw [setOutstanding, live_push, ← List.concat_eq_append]
    exact h.nodup.concat hpc
  · rcases mem_live_join.mp hx with hx | rfl
    · exact h.isOpen x hx
    · exact hopen

theorem leaves_of_length_le_two (h : Connected t) (hlen : t.peers.live.length ≤ 2) :
    Leaves t.peers.live t (rangeFor peers close t) := by
  match hlive : t.peers.live, hlen with
  | [], _ =>
    rw [rangeFor_of_live_nil hlive]
    exact Leaves.nil t
  | [a], _ =>
    have ha : a ∈ t.peers.live := by simp [hlive]
    rw [rangeFor_of_live_singleton hlive]
    exact Leaves.close ha (h.isOpen a ha)
  | [a, b], _ =>
    have ha : a ∈ t.peers.live := by simp [hlive]
    have hb : b ∈ t.peers.live := by simp [hlive]
    have hba : b ≠ a := by
      have hnodup := h.nodup
      rintro rfl
      simp [hlive] at hnodup
    have hb' : b ∈ (t.close a).peers.live := by
      rw [peers_close h.isOpen, live_erase]
      exact (mem_erase_of_ne hba).mpr hb
    have hopen' := (h.close a).isOpen b hb'
    rw [rangeFor_of_live_pair hlive (peers_close h.isOpen a)]
    exact (Leaves.close ha (h.isOpen a ha)).trans (Leaves.close hb' hopen') (by simpa using hba)

theorem second_stays_open {a b c : Peer} {l : List Peer} (hlive : t.peers.live = a :: b :: c :: l)
    (h : Connected t) : ((rangeFor peers close t).conns b).closed = false := by
  have hb : (t.conns b).closed = false := h.isOpen b (by simp [hlive])
  have hkept : Connected (rangeFor peers close t) ∧
      ((rangeFor peers close t).conns b).closed = false := by
    refine rangeFor_skips_second
      (P := fun s : Torrent info Peer => Connected s ∧ (s.conns b).closed = false)
      (fun s x hs => peers_close hs.1.isOpen x) (fun s x hs hx => ⟨hs.1.close x, ?_⟩) hlive h.nodup
      ⟨h, hb⟩
    rw [← Bool.not_eq_true, closed_close, not_or]
    exact ⟨by simp [hs.2], hx.symm⟩
  exact hkept.2

end

/-! ## Pausing and stopping -/

section

variable {t : Torrent info Peer}

theorem LeavesSwarm.of_leaves {running paused : Bool} {t₁ t' : Torrent info Peer}
    (h : Leaves t.peers.live { t with running := running, paused := paused } t₁)
    (hnodup : t.peers.live.Nodup) (hconns : t'.conns = t₁.conns) (hfired : t'.fired = t₁.fired)
    (hpicker : ∀ picker', t'.picker = some picker' → t₁.picker = some picker') :
    LeavesSwarm t t' where
  closed pc hpc := by
    rw [hconns]
    exact (h.closed pc).mpr (.inr hpc)
  fired pc hpc := by
    rw [hfired, h.fired, count_append, count_eq_one_of_mem hnodup hpc]
  requests picker' hp' pc hpc b hb := by
    obtain ⟨picker, -, u⟩ := h.picker picker' (hpicker picker' hp')
    exact (u.requesters b pc hb).2 hpc
  availability picker picker' hp hp' p hpn := by
    obtain ⟨picker₀, hp₀, u⟩ := h.picker picker' (hpicker picker' hp')
    obtain rfl := Option.mem_unique hp hp₀
    exact u.availability p hpn
  seeds picker picker' hp hp' := by
    obtain ⟨picker₀, hp₀, u⟩ := h.picker picker' (hpicker picker' hp')
    obtain rfl := Option.mem_unique hp hp₀
    exact u.seeds

/-- Calls that do nothing leave the swarm only if there is nobody to leave. -/
theorem leavesSwarm_self_iff (h : Connected t) : LeavesSwarm t t ↔ t.peers.live = [] := by
  refine ⟨fun hleft => eq_nil_iff_forall_not_mem.mpr fun pc hpc => ?_, fun hnil => ?_⟩
  · have hclosed := hleft.closed pc hpc
    rw [h.isOpen pc hpc] at hclosed
    cases hclosed
  · have hleaves : Leaves t.peers.live t t := by
      rw [hnil]
      exact Leaves.nil t
    exact .of_leaves hleaves h.nodup rfl rfl fun _ hp => hp

theorem leavesSwarm_dropPeers_iff (h : Connected t) (running paused : Bool) {t' : Torrent info Peer}
    (hconns : t'.conns = ({ t with running := running, paused := paused }.dropPeers).conns)
    (hfired : t'.fired = ({ t with running := running, paused := paused }.dropPeers).fired)
    (hpicker : ∀ picker', t'.picker = some picker' →
      ({ t with running := running, paused := paused }.dropPeers).picker = some picker') :
    LeavesSwarm t t' ↔ t.peers.live.length ≤ 2 := by
  have hsame : Connected { t with running := running, paused := paused } := ⟨h.nodup, h.isOpen⟩
  refine ⟨fun hleft => ?_, fun hlen => ?_⟩
  · by_contra hlen
    obtain ⟨a, b, c, l, hlive⟩ : ∃ a b c l, t.peers.live = a :: b :: c :: l := by
      match hl : t.peers.live with
      | a :: b :: c :: l => exact ⟨a, b, c, l, rfl⟩
      | [] | [_] | [_, _] => simp [hl] at hlen
    have hclosed := hleft.closed b (by simp [hlive])
    rw [hconns] at hclosed
    cases hclosed.symm.trans (second_stays_open hlive hsame)
  · have hleaves := leaves_of_length_le_two hsame hlen
    exact .of_leaves hleaves h.nodup hconns hfired hpicker

/-- **Pausing and stopping leave the swarm just if at most two peers are connected**, for a torrent
that runs (and is not paused yet); otherwise the calls do nothing. -/
theorem leavesSwarm_iff (h : Connected t) : (LeavesSwarm t t.pause ↔
      t.peers.live = [] ∨ t.running = true ∧ t.paused = false ∧ t.peers.live.length ≤ 2) ∧
    (LeavesSwarm t t.stop ↔ t.peers.live = [] ∨ t.running = true ∧ t.peers.live.length ≤ 2) := by
  have hshort (hnil : t.peers.live = []) : t.peers.live.length ≤ 2 := by simp [hnil]
  constructor
  · rw [pause]
    split_ifs with hidle
    · rw [leavesSwarm_self_iff h, or_iff_left]
      rintro ⟨hrunning, hpaused, -⟩
      simp [hrunning, hpaused] at hidle
    · rw [leavesSwarm_dropPeers_iff h t.running true rfl rfl fun _ hp => hp]
      simp only [Bool.or_eq_true, Bool.not_eq_true', not_or, Bool.not_eq_false,
        Bool.not_eq_true] at hidle
      exact ⟨fun hlen => .inr ⟨hidle.1, hidle.2, hlen⟩,
        fun hlen => hlen.elim hshort fun hlen => hlen.2.2⟩
  rw [stop]
  split_ifs with hidle
  · rw [leavesSwarm_self_iff h, or_iff_left]
    rintro ⟨hrunning, -⟩
    simp [hrunning] at hidle
  · rw [Bool.not_eq_true', Bool.not_eq_false] at hidle
    refine Iff.trans (leavesSwarm_dropPeers_iff h false false rfl rfl (by simp)) ?_
    exact ⟨fun hlen => .inr ⟨hidle, hlen⟩, fun hlen => hlen.elim hshort fun hlen => hlen.2⟩

end

/-- A world in which every peer is asked for the first block. -/
def eager : World oneByte.toLayout ℕ where
  pickBlocks _ _ _ _ _ := [⟨0, 0⟩]
  overHighWater _ := false

/-- The peers `pcs` have joined, announced the piece and unchoked us. -/
def joined (pcs : List ℕ) : Torrent oneByte ℕ :=
  pcs.foldl (fun t pc =>
    ((t.onHandshake pc).dispatch eager pc (.bitfield [128])).dispatch eager pc .unchoke)
    (((new fun _ => .new 1).start true).onCheckComplete eager [false])

theorem leavesSwarm_iff_twoPeers : (LeavesSwarm (joined [0, 1]) (joined [0, 1]).pause ↔
      (joined [0, 1]).peers.live = [] ∨ (joined [0, 1]).running = true ∧
        (joined [0, 1]).paused = false ∧ (joined [0, 1]).peers.live.length ≤ 2) ∧
    (LeavesSwarm (joined [0, 1]) (joined [0, 1]).stop ↔
      (joined [0, 1]).peers.live = [] ∨ (joined [0, 1]).running = true ∧
        (joined [0, 1]).peers.live.length ≤ 2) :=
  leavesSwarm_iff ⟨by decide +kernel, by decide +kernel⟩

/-- The second of three peers survives the pause and the stop; the paused torrent's picker still
counts it as a seed and holds its request. -/
theorem second_of_three_stays : (joined [0, 1, 2]).peers.live = [0, 1, 2] ∧
      (((joined [0, 1, 2]).pause).conns 1).closed = false ∧
      (((joined [0, 1, 2]).stop).conns 1).closed = false ∧
      ((joined [0, 1, 2]).pause).fired = [0, 2] ∧
      ((joined [0, 1, 2]).pause).picker.map (·.seeds) = some 1 ∧
      ((joined [0, 1, 2]).pause).picker.map (·.requesters ⟨0, 0⟩) = some [1] := by
  decide +kernel

end Librats.BitTorrent.Torrent
