import Librats.BitTorrent.Download
import Librats.BitTorrent.TorrentSteps

/-!
# Availability

The picker counts for every piece the connected peers that have it: a peer whose bitfield has all
pieces once, as a seed, any other one piece by piece. `Roster` says how the connections and the
seeds go together, `Tally` that the picker counts a list of peers.
-/

namespace Librats.BitTorrent

open List Option Function Torrent PiecePicker RawVector

/-- `PiecePicker::availability`: seeds have every piece. -/
def PiecePicker.available {g : Layout} {Peer : Type} (picker : PiecePicker g Peer) (piece : ℕ) : ℕ :=
  picker.availability piece + picker.seeds

theorem countP_add_toNat {α : Type} [DecidableEq α] {l : List α} (hl : l.Nodup) {a : α} (ha : a ∈ l)
    {f g : α → Bool} (hfg : ∀ x, x ≠ a → f x = g x) :
    l.countP g + (f a).toNat = l.countP f + (g a).toNat := by
  have hperm := perm_cons_erase ha
  have hrest : (l.erase a).countP g = (l.erase a).countP f := by
    refine countP_congr fun x hx => ?_
    rw [hfg x (hl.mem_erase_iff.mp hx).1]
  rw [hperm.countP_eq, hperm.countP_eq, countP_cons, countP_cons, hrest]
  cases f a <;> cases g a <;> simp

namespace Torrent

variable {H : Type} {info : TorrentInfo H} {Peer : Type}

/-! ## Steps that count nothing -/

/-- Neither what the peers have announced nor what is counted changes. -/
structure Same (t t' : Torrent info Peer) : Prop where
  running : t'.running = t.running
  peers : t'.peers = t.peers
  seedPeers : t'.seedPeers = t.seedPeers
  peerHave : ∀ pc, (t'.conns pc).peerHave = (t.conns pc).peerHave
  begun : ∀ pc, (t'.conns pc).pieceStateBegun = (t.conns pc).pieceStateBegun
  closed : ∀ pc, (t'.conns pc).closed = (t.conns pc).closed
  broken : ∀ pc, (t'.conns pc).broken = (t.conns pc).broken
  tally : t'.picker.map (fun q => (q.availability, q.seeds)) =
    t.picker.map fun q => (q.availability, q.seeds)

namespace Same

variable {t t' t'' : Torrent info Peer}

theorem refl (t : Torrent info Peer) : Same t t :=
  ⟨rfl, rfl, rfl, fun _ => rfl, fun _ => rfl, fun _ => rfl, fun _ => rfl, rfl⟩

theorem trans (h : Same t t') (h' : Same t' t'') : Same t t'' where
  running := h'.running.trans h.running
  peers := h'.peers.trans h.peers
  seedPeers := h'.seedPeers.trans h.seedPeers
  peerHave pc := (h'.peerHave pc).trans (h.peerHave pc)
  begun pc := (h'.begun pc).trans (h.begun pc)
  closed pc := (h'.closed pc).trans (h.closed pc)
  broken pc := (h'.broken pc).trans (h.broken pc)
  tally := h'.tally.trans h.tally

theorem of_picker {picker picker' : PiecePicker info.toLayout Peer} (hp : t.picker = some picker)
    (havailability : picker'.availability = picker.availability)
    (hseeds : picker'.seeds = picker.seeds) : Same t (t.setPicker picker') := by
  refine ⟨rfl, rfl, rfl, fun _ => rfl, fun _ => rfl, fun _ => rfl, fun _ => rfl, ?_⟩
  rw [hp, setPicker, map_some, map_some, havailability, hseeds]

theorem countsFor (h : Same t t') (p : ℕ) : t'.countsFor p = t.countsFor p := by
  funext pc
  rw [Torrent.countsFor, Torrent.countsFor, h.seedPeers, h.peerHave]

theorem exists_picker (h : Same t t') {picker' : PiecePicker info.toLayout Peer}
    (hp' : t'.picker = some picker') : ∃ picker, t.picker = some picker ∧
      picker'.availability = picker.availability ∧ picker'.seeds = picker.seeds := by
  have htally := h.tally
  rw [hp'] at htally
  obtain ⟨picker, hp, heq⟩ := map_eq_some_iff.mp htally.symm
  exact ⟨picker, hp, (congrArg Prod.fst heq).symm, (congrArg Prod.snd heq).symm⟩

end Same

/-! ## The connections and the counts -/

/-- How connections, connected peers and seeds go together: `M` have completed their handshake, and
those that are open are connected. -/
structure Roster (M : Peer → Bool) (t : Torrent info Peer) : Prop extends Connected t where
  running : t.running = true
  unbroken : ∀ pc, (t.conns pc).broken = false
  live : ∀ pc ∈ t.peers.live, M pc = true
  connected : ∀ pc, M pc = true → (t.conns pc).closed = false → pc ∈ t.peers.live
  unbegun : ∀ pc ∈ t.peers.live, (t.conns pc).pieceStateBegun = false →
    ∀ p, hasBit (t.conns pc).peerHave p = false
  seed : ∀ pc, t.seedPeers pc = true →
    pc ∈ t.peers.live ∧ 0 < info.numPieces ∧ ∀ p < info.numPieces, hasBit (t.conns pc).peerHave p = true
  unseeded : t.picker = none → ∀ pc, t.seedPeers pc = false

/-- The picker counts the peers `l`. -/
structure Tally (l : List Peer) (t : Torrent info Peer) : Prop where
  availability : ∀ picker, t.picker = some picker → ∀ p < info.numPieces,
    picker.availability p = l.countP (t.countsFor p)
  seeds : ∀ picker, t.picker = some picker → picker.seeds = l.countP t.seedPeers

/-- The connected peers are the ones that are counted. -/
structure Counts (M : Peer → Bool) (t : Torrent info Peer) : Prop extends Roster M t where
  tally : Tally t.peers.live t

open Counts

variable {t t' : Torrent info Peer} {l : List Peer} {M : Peer → Bool}
    {picker : PiecePicker info.toLayout Peer} {pc : Peer} {w : World info.toLayout Peer}

theorem Roster.same (h : Roster M t) (hsame : Same t t') : Roster M t' where
  nodup := by
    rw [hsame.peers]
    exact h.nodup
  isOpen pc hpc := by
    rw [hsame.closed]
    exact h.isOpen pc (hsame.peers ▸ hpc)
  running := hsame.running.trans h.running
  unbroken pc := (hsame.broken pc).trans (h.unbroken pc)
  live pc hpc := h.live pc (hsame.peers ▸ hpc)
  connected pc hM hopen := by
    rw [hsame.peers]
    exact h.connected pc hM ((hsame.closed pc).symm.trans hopen)
  unbegun pc hpc hbegun p := by
    rw [hsame.peerHave]
    exact h.unbegun pc (hsame.peers ▸ hpc) ((hsame.begun pc).symm.trans hbegun) p
  seed pc hseed := by
    rw [hsame.peers, hsame.peerHave]
    exact h.seed pc (hsame.seedPeers ▸ hseed)
  unseeded hnone pc := by
    rw [hsame.seedPeers]
    refine h.unseeded ?_ pc
    have htally := hsame.tally
    rw [hnone, map_none] at htally
    exact map_eq_none_iff.mp htally.symm

theorem Tally.same (h : Tally l t) (hsame : Same t t') : Tally l t' where
  availability picker' hp' p hp := by
    obtain ⟨picker, hpicker, havailability, -⟩ := hsame.exists_picker hp'
    rw [havailability, hsame.countsFor]
    exact h.availability picker hpicker p hp
  seeds picker' hp' := by
    obtain ⟨picker, hpicker, -, hseeds⟩ := hsame.exists_picker hp'
    rw [hseeds, hsame.seedPeers]
    exact h.seeds picker hpicker

theorem Counts.same (h : Counts M t) (hsame : Same t t') : Counts M t' :=
  ⟨h.toRoster.same hsame, by
    rw [hsame.peers]
    exact h.tally.same hsame⟩

theorem Tally.of_none (hnone : t.picker = none) (l : List Peer) : Tally l t := by
  refine ⟨fun picker hp => ?_, fun picker hp => ?_⟩
  all_goals
    cases hnone.symm.trans hp

theorem Counts.available (h : Counts M t) (hp : t.picker = some picker) {p : ℕ}
    (hpn : p < info.numPieces) :
    picker.available p = t.peers.live.countP fun pc => hasBit (t.conns pc).peerHave p := by
  rw [PiecePicker.available, h.tally.availability picker hp p hpn, h.tally.seeds picker hp]
  have hsplit (l : List Peer) : l.countP (t.countsFor p) + l.countP t.seedPeers =
      l.countP fun pc => hasBit (t.conns pc).peerHave p := by
    induction l with
    | nil => rfl
    | cons pc l ih =>
      rw [countP_cons, countP_cons, countP_cons, ← ih, countsFor]
      cases hseed : t.seedPeers pc with
      | false =>
        simp only [Bool.not_false, Bool.true_and, Bool.false_eq_true, if_false]
        omega
      | true =>
        simp only [Bool.not_true, Bool.false_and, Bool.false_eq_true, if_false, if_true,
          (h.seed pc hseed).2.2 p hpn]
        omega
  exact hsplit t.peers.live

theorem Roster.setPicker (h : Roster M t) (picker : PiecePicker info.toLayout Peer) :
    Roster M (t.setPicker picker) :=
  { h with unseeded := nofun }

theorem Roster.uncounted (h : Roster M t) (hpc : pc ∈ t.peers.live)
    (hbegun : (t.conns pc).pieceStateBegun = false) :
    t.seedPeers pc = false ∧ ∀ p, t.countsFor p pc = false := by
  have hnone := h.unbegun pc hpc hbegun
  refine ⟨?_, fun p => ?_⟩
  · by_contra hseed
    obtain ⟨-, hpos, hall⟩ := h.seed pc (Bool.not_eq_false _ ▸ hseed)
    cases (hnone 0).symm.trans (hall 0 hpos)
  · rw [countsFor, hnone, Bool.and_false]

theorem Tally.cons (h : Tally l t) {picker' : PiecePicker info.toLayout Peer}
    (hp : t.picker = some picker) (hp' : t'.picker = some picker')
    (hcounts : ∀ x ∈ l, ∀ p, t'.countsFor p x = t.countsFor p x)
    (hseedPeers : ∀ x ∈ l, t'.seedPeers x = t.seedPeers x) (havailability : ∀ p < info.numPieces,
      picker'.availability p = picker.availability p + (t'.countsFor p pc).toNat)
    (hseeds : picker'.seeds = picker.seeds + (t'.seedPeers pc).toNat) : Tally (pc :: l) t' := by
  refine ⟨fun q hq p hpn => ?_, fun q hq => ?_⟩
  · obtain rfl := Option.mem_unique hp' hq
    rw [havailability p hpn, h.availability picker hp p hpn, countP_cons,
      countP_congr fun x hx => by rw [← hcounts x hx p]]
    cases t'.countsFor p pc <;> rfl
  · obtain rfl := Option.mem_unique hp' hq
    rw [hseeds, h.seeds picker hp, countP_cons, countP_congr fun x hx => by rw [← hseedPeers x hx]]
    cases t'.seedPeers pc <;> rfl

theorem Tally.perm {l' : List Peer} (h : Tally l t) (hperm : l.Perm l') : Tally l' t :=
  ⟨fun picker hp p hpn => (h.availability picker hp p hpn).trans (hperm.countP_eq _),
    fun picker hp => (h.seeds picker hp).trans (hperm.countP_eq _)⟩

/-- The peers other than one are counted; that one is no seed and is counted piece by piece. -/
theorem Roster.counted (h : Roster M t) (htally : Tally l t) (hseed : t.seedPeers pc = false)
    (hp : t.picker = some picker) :
    Roster M (t.setPicker (picker.incAvailability (t.conns pc).peerHave)) ∧
      Tally (pc :: l) (t.setPicker (picker.incAvailability (t.conns pc).peerHave)) := by
  refine ⟨h.setPicker _, htally.cons hp rfl (fun _ _ _ => rfl) (fun _ _ => rfl) (fun p hpn => ?_) ?_⟩
  · cases hbit : hasBit (t.conns pc).peerHave p <;>
      simp [countsFor, Torrent.setPicker, PiecePicker.incAvailability, hseed, hpn, hbit]
  · simp [Torrent.setPicker, PiecePicker.incAvailability, hseed]

/-! ## What keeps them -/

variable [DecidableEq Peer]

theorem same_sendMessage (h : ∀ x, (t.conns x).broken = false) (pc : Peer) (m : Sent) :
    Same t (t.sendMessage pc m) := by
  rw [sendMessage]
  split_ifs with hclosed hbroken
  · exact .refl t
  · cases (h pc).symm.trans hbroken
  · exact ⟨rfl, rfl, rfl, fun _ => rfl, fun _ => rfl, fun _ => rfl, fun _ => rfl, rfl⟩

variable {f : PeerConnection → PeerConnection}

theorem same_updateConn (t : Torrent info Peer) (pc : Peer)
    (hpeerHave : ∀ c, (f c).peerHave = c.peerHave)
    (hbegun : ∀ c, (f c).pieceStateBegun = c.pieceStateBegun)
    (hclosed : ∀ c, (f c).closed = c.closed) (hbroken : ∀ c, (f c).broken = c.broken) :
    Same t (t.updateConn pc f) :=
  ⟨rfl, rfl, rfl, fun x => apply_updateConn (·.peerHave) t pc x hpeerHave,
    fun x => apply_updateConn (·.pieceStateBegun) t pc x hbegun,
    fun x => apply_updateConn (·.closed) t pc x hclosed,
    fun x => apply_updateConn (·.broken) t pc x hbroken, rfl⟩

theorem Minor.same (hminor : Minor t t') (h : ∀ x, (t.conns x).broken = false) : Same t t' := by
  cases hminor with
  | send pc hm => exact same_sendMessage h pc _
  | interest pc interested | choke pc choking =>
    exact same_updateConn t pc (fun _ => rfl) (fun _ => rfl) (fun _ => rfl) fun _ => rfl
  | requests hp picker' havailability hseeds hhave => exact .of_picker hp havailability hseeds
  | books | submit => exact ⟨rfl, rfl, rfl, fun _ => rfl, fun _ => rfl, fun _ => rfl, fun _ => rfl, rfl⟩

theorem Minors.same (hminors : Minors t t') (h : ∀ x, (t.conns x).broken = false) : Same t t' := by
  induction hminors with
  | refl => exact .refl t
  | tail _ hminor ih => exact ih.trans (hminor.same fun x => (ih.broken x).trans (h x))

theorem Counts.minors (h : Counts M t) (hminors : Minors t t') : Counts M t' :=
  h.same (hminors.same h.unbroken)

/-! ## A peer leaves -/

theorem seedPeers_close (hmem : pc ∈ t.peers.live) (hopen : (t.conns pc).closed = false)
    (hnone : t.picker = none → t.seedPeers pc = false) : (t.close pc).seedPeers pc = false := by
  rw [close_eq hmem hopen]
  rw [uncount]
  split
  · rename_i hp
    exact hnone hp
  · exact update_self ..

theorem begun_close (t : Torrent info Peer) (pc x : Peer) :
    ((t.close pc).conns x).pieceStateBegun = (t.conns x).pieceStateBegun := by
  rw [conns_close]
  by_cases hx : x = pc
  · rw [hx, update_self]
  · rw [update_of_ne hx]

theorem Connected.mem_live_close (h : Connected t) {x : Peer} :
    x ∈ (t.close pc).peers.live ↔ x ≠ pc ∧ x ∈ t.peers.live := by
  rw [peers_close h.isOpen, live_erase, h.nodup.mem_erase_iff]

theorem Roster.close (h : Roster M t) (hmem : pc ∈ t.peers.live) : Roster M (t.close pc) := by
  have hopen := h.isOpen pc hmem
  have hleaves : Leaves [pc] t (t.close pc) := .close hmem hopen
  have hnotSeed : (t.close pc).seedPeers pc = false :=
    seedPeers_close hmem hopen fun hnone => h.unseeded hnone pc
  have hseeds {x : Peer} (hx : x ≠ pc) : (t.close pc).seedPeers x = t.seedPeers x :=
    hleaves.seedPeers x (by simpa using hx)
  refine ⟨h.toConnected.close pc, ?_, fun x => ?_, fun x hx => ?_, fun x hMx hx => ?_,
    fun x hx hbegun p => ?_, fun x hx => ?_, fun hnone x => ?_⟩
  · exact (quiet_close t pc).running.trans h.running
  · exact (broken_close t pc x).trans (h.unbroken x)
  · exact h.live x (h.mem_live_close.mp hx).2
  · rw [← Bool.not_eq_true, closed_close, not_or, Bool.not_eq_true] at hx
    exact h.mem_live_close.mpr ⟨hx.2, h.connected x hMx hx.1⟩
  · rw [hleaves.peerHave]
    exact h.unbegun x (h.mem_live_close.mp hx).2 ((begun_close t pc x).symm.trans hbegun) p
  · have hne : x ≠ pc := by
      rintro rfl
      cases hnotSeed.symm.trans hx
    obtain ⟨hlive, hseed⟩ := h.seed x ((hseeds hne).symm.trans hx)
    rw [hleaves.peerHave]
    exact ⟨h.mem_live_close.mpr ⟨hne, hlive⟩, hseed⟩
  · by_cases hx : x = pc
    · rwa [hx]
    · rw [hseeds hx]
      exact h.unseeded (hleaves.none hnone) x

section

variable (h : Counts M t)

include h

theorem Counts.close (hM : M pc = true) : Counts M (t.close pc) := by
  cases hclosed : (t.conns pc).closed with
  | true =>
    rwa [Torrent.close, hclosed]
  | false =>
    have hmem := h.connected pc hM hclosed
    have hleaves : Leaves [pc] t (t.close pc) := .close hmem hclosed
    have hperm := perm_cons_erase hmem
    have hne {x : Peer} (hx : x ∈ t.peers.live.erase pc) : x ∉ [pc] := by
      simpa using (h.nodup.mem_erase_iff.mp hx).1
    refine ⟨h.toRoster.close hmem, ?_⟩
    rw [peers_close h.isOpen, live_erase]
    refine ⟨fun picker' hp' p hpn => ?_, fun picker' hp' => ?_⟩
    · obtain ⟨picker, hp, huncounted⟩ := hleaves.picker picker' hp'
      have hcongr : (t.peers.live.erase pc).countP ((t.close pc).countsFor p) =
          (t.peers.live.erase pc).countP (t.countsFor p) :=
        countP_congr fun x hx => by rw [hleaves.countsFor_eq (hne hx)]
      rw [huncounted.availability p hpn, h.tally.availability picker hp p hpn, hcongr,
        hperm.countP_eq, countP_cons, countP_singleton, Nat.add_sub_cancel]
    · obtain ⟨picker, hp, huncounted⟩ := hleaves.picker picker' hp'
      have hcongr : (t.peers.live.erase pc).countP (t.close pc).seedPeers =
          (t.peers.live.erase pc).countP t.seedPeers :=
        countP_congr fun x hx => by rw [hleaves.seedPeers x (hne hx)]
      rw [huncounted.seeds, h.tally.seeds picker hp, hcongr, hperm.countP_eq, countP_cons,
        countP_singleton, Nat.add_sub_cancel]

/-! ## A peer joins -/

theorem Counts.updateConn_of_notMem (hpc : pc ∉ t.peers.live) (hM : M pc = false)
    (hbroken : (f (t.conns pc)).broken = false) : Counts M (t.updateConn pc f) := by
  have hne {x : Peer} (hx : x ∈ t.peers.live) : x ≠ pc := fun e => hpc (e ▸ hx)
  have hconns {x : Peer} (hx : x ≠ pc) : (t.updateConn pc f).conns x = t.conns x :=
    update_of_ne hx _ _
  refine ⟨⟨⟨h.nodup, fun x hx => ?_⟩, h.running, fun x => ?_, h.live, fun x hMx hopen => ?_,
    fun x hx => ?_, fun x hx => ?_, h.unseeded⟩, ⟨fun picker hp p hpn => ?_, h.tally.seeds⟩⟩
  · rw [hconns (hne hx)]
    exact h.isOpen x hx
  · by_cases hx : x = pc
    · rw [hx]
      exact (congrArg PeerConnection.broken (update_self ..)).trans hbroken
    · rw [hconns hx]
      exact h.unbroken x
  · have hx : x ≠ pc := by
      rintro rfl
      cases hMx.symm.trans hM
    rw [hconns hx] at hopen
    exact h.connected x hMx hopen
  · rw [hconns (hne hx)]
    exact h.unbegun x hx
  · rw [hconns (hne (h.seed x hx).1)]
    exact h.seed x hx
  · rw [h.tally.availability picker hp p hpn]
    refine countP_congr fun x hx => ?_
    rw [countsFor, countsFor, hconns (hne hx)]
    rfl

theorem Counts.join (hM : M pc = false) (hopen : (t.conns pc).closed = false)
    (hbits : ∀ p, hasBit (t.conns pc).peerHave p = false) : Counts (Function.update M pc true)
      ({ t with peers := t.peers.push pc }.setOutstanding pc 0) := by
  have hpc : pc ∉ t.peers.live := fun hmem => absurd ((h.live pc hmem).symm.trans hM) (by decide)
  have hne {x : Peer} (hx : x ∈ t.peers.live) : x ≠ pc := fun e => hpc (e ▸ hx)
  have hlive : ({ t with peers := t.peers.push pc }.setOutstanding pc 0).peers.live =
      t.peers.live ++ [pc] := live_push t.peers pc
  have hseed : t.seedPeers pc = false := by
    by_contra hseed
    exact hpc (h.seed pc (Bool.not_eq_false _ ▸ hseed)).1
  refine ⟨⟨h.toConnected.join hpc hopen, h.running, h.unbroken, fun x hx => ?_, fun x hMx hx => ?_,
    fun x hx hbegun => ?_, fun x hx => ?_, h.unseeded⟩, ?_⟩
  · rcases mem_live_join.mp hx with hx | rfl
    · rw [update_of_ne (hne hx)]
      exact h.live x hx
    · rw [update_self]
  · rw [mem_live_join]
    by_cases e : x = pc
    · exact .inr e
    · rw [update_of_ne e] at hMx
      exact .inl (h.connected x hMx hx)
  · rcases mem_live_join.mp hx with hx | rfl
    · exact h.unbegun x hx hbegun
    · exact hbits
  · obtain ⟨hx, hrest⟩ := h.seed x hx
    exact ⟨mem_live_join.mpr (.inl hx), hrest⟩
  · rw [hlive]
    refine ⟨fun picker hp p hpn => ?_, fun picker hp => ?_⟩
    · rw [h.tally.availability picker hp p hpn]
      simp [countsFor, setOutstanding, hbits]
      rfl
    · rw [h.tally.seeds picker hp]
      simp [setOutstanding, hseed]

theorem Counts.meet (hclosed : (t.conns pc).closed = true) :
    Counts (Function.update M pc true) t := by
  refine { h with live := fun x hx => ?_, connected := fun x hM hopen => ?_ }
  · by_cases e : x = pc
    · rw [e, update_self]
    · rw [update_of_ne e]
      exact h.live x hx
  · have hx : x ≠ pc := by
      rintro rfl
      cases hopen.symm.trans hclosed
    rw [update_of_ne hx] at hM
    exact h.connected x hM hopen

theorem Counts.onHandshake (hM : M pc = false)
    (hopen : (t.conns pc).closed = false) (hbits : ∀ p, hasBit (t.conns pc).peerHave p = false) :
    Counts (Function.update M pc true) (t.onHandshake pc) := by
  have hpc : pc ∉ t.peers.live := fun hmem => absurd ((h.live pc hmem).symm.trans hM) (by decide)
  have hturned : Counts (Function.update M pc true) (t.close pc) := by
    have heq : t.close pc = t.reported pc := by
      rw [Torrent.close, hopen, if_neg Bool.false_ne_true, onClosed, removePeer, if_neg]
      · rfl
      · exact fun halive => hpc (of_decide_eq_true halive)
    have hshut : Counts M (t.updateConn pc fun c => { c with closed := true }) :=
      h.updateConn_of_notMem hpc hM (h.unbroken pc)
    have hfired : Counts M (t.reported pc) :=
      hshut.same ⟨rfl, rfl, rfl, fun _ => rfl, fun _ => rfl, fun _ => rfl, fun _ => rfl, rfl⟩
    rw [heq]
    exact hfired.meet (by simp [reported, updateConn])
  rw [Torrent.onHandshake]
  split_ifs
  · exact hturned
  · exact hturned
  · extract_lets joined
    have hjoined := h.join hM hopen hbits
    split
    · exact hjoined
    · exact hjoined.same (same_sendMessage hjoined.unbroken pc _)

end

/-! ## A peer announces pieces -/

theorem Roster.updateConn (h : Roster M t) (pc : Peer) (hclosed : ∀ c, (f c).closed = c.closed)
    (hbroken : ∀ c, (f c).broken = c.broken) (hbegun : (f (t.conns pc)).pieceStateBegun = true)
    (hgrows : ∀ p, hasBit (t.conns pc).peerHave p = true →
      hasBit (f (t.conns pc)).peerHave p = true) : Roster M (t.updateConn pc f) := by
  have hconns {x : Peer} (hx : x ≠ pc) : (t.updateConn pc f).conns x = t.conns x :=
    update_of_ne hx _ _
  have hself : (t.updateConn pc f).conns pc = f (t.conns pc) := update_self ..
  have hclosed' (x : Peer) := apply_updateConn (·.closed) t pc x hclosed
  refine ⟨⟨h.nodup, fun x hx => (hclosed' x).trans (h.isOpen x hx)⟩, h.running, fun x => ?_, h.live,
    fun x hM hopen => h.connected x hM ((hclosed' x).symm.trans hopen), fun x hx hb => ?_,
    fun x hx => ?_, h.unseeded⟩
  · exact (apply_updateConn (·.broken) t pc x hbroken).trans (h.unbroken x)
  · by_cases e : x = pc
    · rw [e, hself, hbegun] at hb
      cases hb
    · rw [hconns e] at hb ⊢
      exact h.unbegun x hx hb
  · obtain ⟨hlive, hpos, hall⟩ := h.seed x hx
    refine ⟨hlive, hpos, fun p hp => ?_⟩
    by_cases e : x = pc
    · rw [e, hself]
      exact hgrows p (e ▸ hall p hp)
    · rw [hconns e]
      exact hall p hp

theorem countsFor_updateConn_of_ne {x : Peer} (hx : x ≠ pc) (f : PeerConnection → PeerConnection)
    (p : ℕ) : (t.updateConn pc f).countsFor p x = t.countsFor p x := by
  have hconns : (t.updateConn pc f).conns x = t.conns x := update_of_ne hx _ _
  rw [countsFor, hconns]
  rfl

theorem countsFor_updateConn_self (pc : Peer) (f : PeerConnection → PeerConnection) (p : ℕ) :
    (t.updateConn pc f).countsFor p pc =
      (!t.seedPeers pc && hasBit (f (t.conns pc)).peerHave p) := by
  have hself : (t.updateConn pc f).conns pc = f (t.conns pc) := update_self ..
  rw [countsFor, hself]
  rfl

theorem Connected.countP_updateConn (h : Connected t) (hpc : pc ∈ t.peers.live)
    (f : PeerConnection → PeerConnection) (p : ℕ) :
    t.peers.live.countP ((t.updateConn pc f).countsFor p) + (t.countsFor p pc).toNat =
      t.peers.live.countP (t.countsFor p) + ((t.updateConn pc f).countsFor p pc).toNat :=
  countP_add_toNat h.nodup hpc fun _ hx => (countsFor_updateConn_of_ne hx f p).symm

theorem Counts.begins (h : Counts M t) (hpc : pc ∈ t.peers.live) :
    Counts M (t.updateConn pc fun c => { c with pieceStateBegun := true }) := by
  refine ⟨h.toRoster.updateConn pc (fun _ => rfl) (fun _ => rfl) rfl fun _ => id,
    ⟨fun picker hp p hpn => ?_, h.tally.seeds⟩⟩
  have hcount := h.countP_updateConn hpc (fun c => { c with pieceStateBegun := true }) p
  rw [countsFor_updateConn_self] at hcount
  exact (h.tally.availability picker hp p hpn).trans (Nat.add_right_cancel hcount).symm

theorem Counts.onHave (h : Counts M t) (hpc : pc ∈ t.peers.live)
    (hbegun : (t.conns pc).pieceStateBegun = true) {bits : List Bool}
    (hbits : (t.conns pc).peerHave = bits) {piece : ℕ} (hlength : piece < bits.length)
    (hnew : hasBit bits piece = false) : Counts M ((t.updateConn pc fun c =>
      { c with peerHave := bits.set piece true }).onHave w pc piece) := by
  have hset (p : ℕ) := hasBit_set_true bits hlength p
  have hroster : Roster M (t.updateConn pc fun c => { c with peerHave := bits.set piece true }) := by
    refine h.toRoster.updateConn pc (fun _ => rfl) (fun _ => rfl) hbegun fun p hp => ?_
    rw [hbits] at hp
    simp [hset, hp]
  have hcount (p : ℕ) := h.countP_updateConn hpc (fun c => { c with peerHave := bits.set piece true }) p
  -- pieces other than the announced one are counted as before
  have hother {p : ℕ} (hp : p ≠ piece) : t.peers.live.countP ((t.updateConn pc fun c =>
      { c with peerHave := bits.set piece true }).countsFor p) =
        t.peers.live.countP (t.countsFor p) := by
    have hcount := hcount p
    rw [countsFor_updateConn_self, countsFor, hbits] at hcount
    simp only [hset, hp, decide_false, Bool.or_false] at hcount
    exact Nat.add_right_cancel hcount
  rcases onHave_cases w (t.updateConn pc fun c => { c with peerHave := bits.set piece true }) pc
    piece with ⟨heq, hnone | hpiece⟩ | ⟨picker, hp, hpiece, hminors⟩
  · rw [heq]
    exact ⟨hroster, .of_none hnone _⟩
  · rw [heq]
    refine ⟨hroster, ⟨fun picker hp p hpn => ?_, h.tally.seeds⟩⟩
    exact (h.tally.availability picker hp p hpn).trans (hother (by omega)).symm
  refine minors ⟨hroster.setPicker _, ⟨fun picker' hp' p hpn => ?_, fun picker' hp' => ?_⟩⟩
    hminors
  · cases hp'
    have hold := h.tally.availability picker hp p hpn
    by_cases e : p = piece
    · subst e
      have hseed : t.seedPeers pc = false := by
        by_contra hseed
        have hbit := (h.seed pc (Bool.not_eq_false _ ▸ hseed)).2.2 p hpn
        rw [hbits, hnew] at hbit
        cases hbit
      have hcount := hcount p
      rw [countsFor_updateConn_self, countsFor, hbits, hseed] at hcount
      simp only [hset, hnew, Bool.not_false, Bool.true_and, Bool.false_or, decide_true,
        Bool.toNat_false, Bool.toNat_true, Nat.add_zero] at hcount
      refine Eq.trans ?_ hcount.symm
      simp [peerHasPiece, hold]
    · refine Eq.trans ?_ (hother e).symm
      simp [peerHasPiece, e, hold]
  · cases hp'
    exact h.tally.seeds picker hp

theorem Counts.announces (h : Counts M t) (hpc : pc ∈ t.peers.live)
    (hbegun : (t.conns pc).pieceStateBegun = false) (bits : List Bool) :
    Roster M (t.updateConn pc fun c => { c with pieceStateBegun := true, peerHave := bits }) ∧
      Tally (t.peers.live.erase pc)
        (t.updateConn pc fun c => { c with pieceStateBegun := true, peerHave := bits }) := by
  obtain ⟨hseed, hcounts⟩ := h.toRoster.uncounted hpc hbegun
  have hperm := perm_cons_erase hpc
  refine ⟨h.toRoster.updateConn pc (fun _ => rfl) (fun _ => rfl) rfl fun p hp => ?_,
    fun picker hp p hpn => ?_, fun picker hp => ?_⟩
  · rw [h.unbegun pc hpc hbegun] at hp
    cases hp
  · rw [h.tally.availability picker hp p hpn, hperm.countP_eq, countP_cons, hcounts]
    refine countP_congr fun x hx => ?_
    rw [countsFor_updateConn_of_ne (h.nodup.mem_erase_iff.mp hx).1]
  · rw [h.tally.seeds picker hp, hperm.countP_eq, countP_cons, hseed]
    rfl

/-- The peers other than one are counted; that one has all pieces and becomes a seed. -/
theorem Roster.seeded (h : Roster M t) (hpc : pc ∈ t.peers.live)
    (htally : Tally (t.peers.live.erase pc) t) (hpos : 0 < info.numPieces)
    (hall : ∀ p < info.numPieces, hasBit (t.conns pc).peerHave p = true)
    (hp : t.picker = some picker) : Counts M { t with
      picker := some picker.incAvailabilityAll
      seedPeers := Function.update t.seedPeers pc true } := by
  refine ⟨{ h with seed := fun x hx => ?_, unseeded := nofun },
    Tally.perm ?_ (perm_cons_erase hpc).symm⟩
  · by_cases e : x = pc
    · rw [e]
      exact ⟨hpc, hpos, hall⟩
    · exact h.seed x ((update_of_ne e _ _).symm.trans hx)
  · refine htally.cons hp rfl (fun x hx p => ?_) (fun x hx => ?_) (fun p _ => ?_) ?_
    · have hne := (h.nodup.mem_erase_iff.mp hx).1
      simp [countsFor, hne]
    · exact update_of_ne (h.nodup.mem_erase_iff.mp hx).1 _ _
    · simp [countsFor, incAvailabilityAll]
    · simp [incAvailabilityAll]

theorem Counts.onBitfield (h : Counts M t) (hpc : pc ∈ t.peers.live)
    (hbegun : (t.conns pc).pieceStateBegun = false) (bits : List Bool) :
    Counts M ((t.updateConn pc fun c =>
      { c with pieceStateBegun := true, peerHave := bits }).onBitfield w pc bits) := by
  obtain ⟨hroster, htally⟩ := h.announces hpc hbegun bits
  have hseed : (t.updateConn pc fun c =>
      { c with pieceStateBegun := true, peerHave := bits }).seedPeers pc = false :=
    (h.toRoster.uncounted hpc hbegun).1
  have hbits : ((t.updateConn pc fun c =>
      { c with pieceStateBegun := true, peerHave := bits }).conns pc).peerHave = bits := by
    simp [updateConn]
  rw [Torrent.onBitfield]
  split
  · rename_i hnone
    exact ⟨hroster, .of_none hnone _⟩
  rename_i picker hp
  refine minors ?_ (minors_updateInterest w _ pc)
  rw [count]
  split_ifs with hall hseed'
  · cases hseed.symm.trans hseed'
  · obtain ⟨hpos, hlength, hcount⟩ := hall
    refine hroster.seeded hpc htally hpos (fun p hpn => ?_) hp
    rw [hbits]
    exact hasBit_of_count (hcount.trans hlength.symm) (hlength ▸ hpn)
  · obtain ⟨hroster', htally'⟩ := hroster.counted htally hseed hp
    rw [hbits] at hroster' htally'
    exact ⟨hroster', htally'.perm (perm_cons_erase hpc).symm⟩

theorem Counts.dispatch (h : Counts M t) (hpc : pc ∈ t.peers.live) (m : Message) :
    Counts M (t.dispatch w pc m) := by
  have hM := h.live pc hpc
  cases m with
  | choke =>
    refine minors ?_ (minors_onChoke w _ pc true)
    exact h.same (same_updateConn t pc (fun _ => rfl) (fun _ => rfl) (fun _ => rfl) fun _ => rfl)
  | unchoke =>
    refine minors ?_ (minors_onChoke w _ pc false)
    exact h.same (same_updateConn t pc (fun _ => rfl) (fun _ => rfl) (fun _ => rfl) fun _ => rfl)
  | havePiece piece =>
    have hbegins := h.begins hpc
    rw [Torrent.dispatch]
    split_ifs with hflips
    · rw [Bool.and_eq_true, decide_eq_true_iff, Bool.not_eq_true'] at hflips
      refine hbegins.onHave hpc ?_ rfl hflips.1 hflips.2
      simp [updateConn]
    · exact hbegins
  | bitfield payload =>
    rw [Torrent.dispatch]
    extract_lets n
    split_ifs with hbegun
    · exact h.close hM
    · exact h.close hM
    · exact h.onBitfield hpc (Bool.not_eq_true _ ▸ hbegun) _
  | piece piece offset data => exact h.minors (minors_onPiece w t pc piece offset data)

/-! ## The metadata comes -/

theorem Roster.adopt (h : Roster M t) (hseeds : ∀ x, t.seedPeers x = false)
    (hp : t.picker = some picker) (htally : Tally l t) (pc : Peer) :
    Roster M (t.adopt w pc) ∧ Tally (pc :: l) (t.adopt w pc) ∧ (t.adopt w pc).peers = t.peers ∧
      (∀ x, (t.adopt w pc).seedPeers x = false) ∧ (t.adopt w pc).picker.isSome = true := by
  obtain ⟨hroster, htally⟩ := h.counted htally (hseeds pc) hp
  have hsame := (minors_updateInterest w
    (t.setPicker (picker.incAvailability (t.conns pc).peerHave)) pc).same h.unbroken
  have hadopt : t.adopt w pc =
      (t.setPicker (picker.incAvailability (t.conns pc).peerHave)).updateInterest w pc := by
    rw [Torrent.adopt, hp]
  rw [hadopt]
  refine ⟨hroster.same hsame, htally.same hsame, hsame.peers, fun x => ?_, ?_⟩
  · rw [hsame.seedPeers]
    exact hseeds x
  · exact (quiet_updateInterest w _ pc).isSome

theorem Roster.adopts (h : Roster M t) (hseeds : ∀ x, t.seedPeers x = false)
    (hsome : t.picker.isSome = true) (htally : Tally l t) (pcs : List Peer) :
    Roster M (pcs.foldl (Torrent.adopt w) t) ∧
      Tally (pcs.reverse ++ l) (pcs.foldl (Torrent.adopt w) t) ∧
      (pcs.foldl (Torrent.adopt w) t).peers = t.peers := by
  induction pcs generalizing t l with
  | nil => exact ⟨h, htally, rfl⟩
  | cons pc pcs ih =>
    obtain ⟨picker, hp⟩ := isSome_iff_exists.mp hsome
    obtain ⟨hroster, htally, hpeers, hseeds, hsome⟩ := h.adopt (w := w) hseeds hp htally pc
    obtain ⟨hroster', htally', hpeers'⟩ := ih hroster hseeds hsome htally
    rw [reverse_cons, append_assoc]
    exact ⟨hroster', htally', hpeers'.trans hpeers⟩

theorem Roster.promote (h : Roster M t) (hnone : t.picker = none) : Counts M (t.promote w) := by
  have hloop : rangeFor peers (Torrent.adopt w) (t.setPicker .new) =
      t.peers.live.foldl (Torrent.adopt w) (t.setPicker .new) := by
    refine rangeFor_eq_foldl
      (P := fun s : Torrent info Peer => ∀ x, (s.conns x).broken = false)
      (fun s pc hs _ => ?_) h.unbroken
    rw [Torrent.adopt]
    split
    · exact ⟨hs, rfl⟩
    · rename_i picker _
      have hsame := (minors_updateInterest w
        (s.setPicker (picker.incAvailability (s.conns pc).peerHave)) pc).same hs
      exact ⟨fun x => (hsame.broken x).trans (hs x), hsame.peers⟩
  have hnew : Tally [] (t.setPicker (.new : PiecePicker info.toLayout Peer)) := by
    refine ⟨fun picker hp p _ => ?_, fun picker hp => ?_⟩
    all_goals
      cases hp
      rfl
  obtain ⟨hroster, htally, hpeers⟩ :=
    (h.setPicker .new).adopts (w := w) (h.unseeded hnone) rfl hnew t.peers.live
  have hadopted : Counts M (t.peers.live.foldl (Torrent.adopt w) (t.setPicker .new)) := by
    refine ⟨hroster, ?_⟩
    rw [hpeers]
    rw [append_nil] at htally
    exact htally.perm (reverse_perm t.peers.live)
  rw [Torrent.promote, hloop]
  exact hadopted.same ⟨rfl, rfl, rfl, fun _ => rfl, fun _ => rfl, fun _ => rfl, fun _ => rfl, rfl⟩

/-! ## What the disk reports -/

theorem same_onPieceHashed [DecidableEq H] (h : ∀ x, (t.conns x).broken = false)
    (piece : ℕ) (ok : Bool) (hash : H) :
    Same t (t.onPieceHashed w piece ok hash) := by
  rw [onPieceHashed]
  split
  · exact .refl t
  rename_i picker hp
  split_ifs
  · exact .refl t
  · exact .of_picker hp rfl rfl
  · refine rangeFor_induction (fun s pc hs => ?_)
      (.of_picker hp (tally_weHave piece).1 (tally_weHave piece).2)
    have hsent := hs.trans
      (same_sendMessage (fun x => (hs.broken x).trans (h x)) pc (.havePiece piece))
    exact hsent.trans ((minors_updateInterest w _ pc).same fun x => (hsent.broken x).trans (h x))

theorem same_onCheckComplete (h : ∀ x, (t.conns x).broken = false) (bits : List Bool) :
    Same t (t.onCheckComplete w bits) := by
  rw [onCheckComplete]
  split
  · exact .refl t
  rename_i picker hp
  split_ifs
  · exact .refl t
  extract_lets picker' found
  refine List.foldlRecOn t.peers.live _ (.of_picker hp (tally_setHaveBitfield bits).1
      (tally_setHaveBitfield bits).2) fun s hs pc _ => ?_
  extract_lets told
  have htold : Same t told :=
    List.foldlRecOn found _ hs fun s' hs' p _ => hs'.trans
      (same_sendMessage (fun x => (hs'.broken x).trans (h x)) pc (.havePiece p))
  split_ifs
  · exact htold.trans ((minors_updateInterest w told pc).same fun x =>
      (htold.broken x).trans (h x))
  · exact htold
  · exact hs

theorem same_complete [DecidableEq H] (h : ∀ x, (t.conns x).broken = false)
    (c : Completion H) : Same t (System.complete w t c) := by
  cases c with
  | written b ok => exact (minors_onBlockWritten w t b ok).same h
  | hashed piece ok hash => exact same_onPieceHashed h piece ok hash
  | checked bits => exact same_onCheckComplete h bits

end Torrent

/-! ## Runs -/

/-- The torrent is neither paused nor stopped, and no send fails. -/
def Action.steady {g : Layout} {Peer : Type} : Action g Peer → Bool
  | .handle _ .pause | .handle _ .stop | .handle _ (.breaks _) | .handle _ (.unanswered _ _) => false
  | _ => true

namespace Download

open Torrent (Counts)

variable {H : Type} {info : TorrentInfo H} {Peer : Type} [DecidableEq Peer]
  {d d' : Download info Peer} {w : World info.toLayout Peer}

theorem Counts.handle (h : Counts d.met d.torrent) {e : Event Peer}
    (hallowed : d.allowed e = true) (henabled : d.system.enabled e = true)
    (hsteady : (Action.handle w e).steady = true) :
    Counts (d.track e).met (d.torrent.handle w e) := by
  cases e with
  | handshake pc n =>
    have hM : d.met pc = false := Bool.not_eq_true' _ ▸ hallowed
    have hpc : pc ∉ d.torrent.peers.live := fun hmem =>
      absurd ((h.live pc hmem).symm.trans hM) (by decide)
    have hnew : Counts d.met (d.torrent.updateConn pc fun c =>
        { PeerConnection.new n with broken := c.broken }) :=
      h.updateConn_of_notMem hpc hM (h.unbroken pc)
    refine hnew.onHandshake hM ?_ fun p => ?_
    · simp [updateConn, PeerConnection.new]
    · simp [updateConn, PeerConnection.new, hasBit_replicate_false]
  | unanswered | breaks | pause | stop => cases hsteady
  | message pc m =>
    rw [allowed, Bool.and_eq_true, Bool.not_eq_true'] at hallowed
    exact h.dispatch (h.connected pc hallowed.1 hallowed.2) m
  | drop pc => exact h.close hallowed
  | timeouts stalled => exact h.minors (minors_checkRequestTimeouts w d.torrent stalled)
  | resume =>
    rw [Torrent.handle, Torrent.resume]
    split_ifs
    · exact h
    · exact h.same ⟨rfl, rfl, rfl, fun _ => rfl, fun _ => rfl, fun _ => rfl, fun _ => rfl, rfl⟩
  | start hasMetadata =>
    rwa [track, if_pos h.running, Torrent.handle, Torrent.start, if_pos h.running]
  | promote =>
    rw [System.enabled, Bool.and_eq_true, isNone_iff_eq_none] at henabled
    exact h.toRoster.promote henabled.2

variable [DecidableEq H] [Inhabited H] {sha1 : Bytes → H}

theorem Counts.step (h : Counts d.met d.torrent) {a : Action info.toLayout Peer}
    (hsteady : a.steady = true) (hd : d.step sha1 a = some d') : Counts d'.met d'.torrent := by
  rcases step_cases hd with
    ⟨w, e, rfl, hallowed, henabled, rfl⟩ | ⟨w, i, c, rfl, hi, rfl⟩ | ⟨s, rfl, htorrent, -⟩
  · exact (handle h hallowed henabled hsteady).same
      ⟨rfl, rfl, rfl, fun _ => rfl, fun _ => rfl, fun _ => rfl, fun _ => rfl, rfl⟩
  · have hcomplete := h.same (same_complete (w := w) h.unbroken c)
    rw [met_account]
    exact hcomplete.same
      ⟨rfl, rfl, rfl, fun _ => rfl, fun _ => rfl, fun _ => rfl, fun _ => rfl, rfl⟩
  · rwa [htorrent]

theorem Counts.start {known : Bool} {conns : Peer → PeerConnection}
    (hconns : ∀ pc, (conns pc).broken = false) {content : Content}
    (hd : (init known conns content).step sha1 (.handle w (.start known)) = some d) :
    Counts d.met d.torrent := by
  have hfresh {t : Torrent info Peer} (hrunning : t.running = true) (hpeers : t.peers = .empty)
      (hbroken : ∀ pc, (t.conns pc).broken = false) (hseeds : t.seedPeers = fun _ => false)
      (hpicker : ∀ picker, t.picker = some picker → picker = .new) : Counts (fun _ => false) t := by
    have hlive : t.peers.live = [] := by
      rw [hpeers]
      rfl
    refine ⟨⟨⟨?_, ?_⟩, hrunning, hbroken, ?_, (by simp), ?_, fun pc hpc => ?_, fun _ _ => ?_⟩,
      ⟨fun picker hp p _ => ?_, fun picker hp => ?_⟩⟩
    · rw [hlive]
      exact nodup_nil
    · rw [hlive]
      simp
    · rw [hlive]
      simp
    · rw [hlive]
      simp
    · rw [hseeds] at hpc
      cases hpc
    · rw [hseeds]
    · rw [hpicker picker hp, hlive]
      rfl
    · rw [hpicker picker hp, hlive]
      rfl
  rw [Download.step] at hd
  split_ifs at hd
  obtain ⟨s, hs, rfl⟩ := map_eq_some_iff.mp hd
  cases hs
  cases known with
  | true =>
    refine hfresh rfl rfl hconns rfl fun picker hp => ?_
    exact (Option.some.inj hp).symm
  | false => exact hfresh rfl rfl hconns rfl (by rintro _ ⟨⟩)

/-- **Without pause, stop and failing sends, the availability of a piece of a started torrent is the
number of connected peers that have announced it**, whenever there is a picker. -/
theorem availability_eq {known : Bool} {conns : Peer → PeerConnection}
    (hconns : ∀ pc, (conns pc).broken = false) (content : Content) (w : World info.toLayout Peer)
    {actions : List (Action info.toLayout Peer)} (hsteady : ∀ a ∈ actions, a.steady = true)
    {d : Download info Peer}
    (hrun : (init known conns content).run sha1 (.handle w (.start known) :: actions) = some d)
    {picker : PiecePicker info.toLayout Peer} (hp : d.torrent.picker = some picker) {p : ℕ}
    (hpn : p < info.numPieces) : picker.available p =
      d.torrent.peers.live.countP fun pc => hasBit (d.torrent.conns pc).peerHave p := by
  obtain ⟨d₁, hstart, hrun⟩ := Runs.run_cons.mp hrun
  have hcounts : Counts d.met d.torrent :=
    Runs.run_induction (P := fun d : Download info Peer => Counts d.met d.torrent)
      (fun _ _ _ hc hs hd => Counts.step hc hs hd) (Counts.start hconns hstart)
      (Runs.allMeet_of_forall hsteady d₁) hrun
  exact hcounts.available hp hpn

/-- Without metadata at first: a peer announces the piece in its bitfield, another by a HAVE that
comes too early to be understood; the metadata comes, and a third joins as a seed. -/
def magnet : List (Action oneByte.toLayout ℕ) :=
  [.handle System.plain (.handshake 0 0), .handle System.plain (.handshake 1 0),
    .handle System.plain (.message 0 (.bitfield [128])),
    .handle System.plain (.message 1 (.havePiece 0)), .handle System.plain .promote,
    .handle System.plain (.handshake 2 1), .handle System.plain (.message 2 (.bitfield [128]))]

/-- The magnet after all that. -/
def resolved : Download oneByte ℕ :=
  ((init false (fun _ => .new 0) fun _ => none : Download oneByte ℕ).run id
    (.handle System.plain (.start false) :: magnet)).get (by decide +kernel)

theorem availability_eq_magnet : (resolved.torrent.picker.get (by decide +kernel)).available 0 = 2 ∧
      (resolved.torrent.picker.get (by decide +kernel)).available 0 =
        resolved.torrent.peers.live.countP fun pc =>
          hasBit (resolved.torrent.conns pc).peerHave 0 :=
  ⟨by decide +kernel, availability_eq (fun _ => rfl) _ System.plain
    (by decide +kernel) (some_get _).symm (some_get _).symm (by decide)⟩

end Download

end Librats.BitTorrent
