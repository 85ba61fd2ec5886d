import Mathlib.Data.List.Induction
import Mathlib.Data.List.Sort
import Mathlib.Logic.Function.Basic

/-!
# The peers a torrent dials

`PeerList` (`bittorrent/peer_list.cpp`) with the connections that a client makes for it. Which of
two candidates that compare equal comes first depends on the order of a hash map, which is an input,
as are the outcomes of connects and handshakes. `ban` is never called.
-/

namespace Librats.BitTorrent

open List Function

/-- `PeerList::Peer` without the endpoint, which is its key. -/
structure PeerList.Peer where
  sources : UInt8 := 0
  connected : Bool := false
  connecting : Bool := false
  banned : Bool := false
  failCount : ℕ := 0

abbrev PeerList (E : Type) := E → Option PeerList.Peer

variable {E : Type} [DecidableEq E]

namespace PeerList

def kMaxFails : ℕ := 5

def Peer.eligible (p : Peer) : Bool :=
  !p.connected && !p.connecting && !p.banned && p.failCount < kMaxFails

def Peer.failed (p : Peer) : Peer := { p with connecting := false, failCount := p.failCount + 1 }

variable (l : PeerList E)

def add (e : E) (source : UInt8) : PeerList E :=
  let p := (l e).getD {}
  update l e (some { p with sources := p.sources ||| source })

/-- `PeerList::connect_candidates`; `order` is the order of the map. -/
def connectCandidates (order : List E) (max : ℕ) : List E :=
  let before (a b : E) : Bool := (l a).any fun p => (l b).any fun q =>
    if p.failCount ≠ q.failCount then p.failCount < q.failCount else q.sources ≤ p.sources
  ((order.filter fun e => (l e).any Peer.eligible).insertionSort (before · ·)).take max

def setConnected (e : E) (connected : Bool) : PeerList E :=
  update l e ((l e).map fun p => { p with
    connected, connecting := false, failCount := if connected then 0 else p.failCount })

def onConnectFailed (e : E) : PeerList E := update l e ((l e).map Peer.failed)

end PeerList

open PeerList

/-- A torrent and its client: the connects under way, and the connections, with whether their
handshake is done. `dials` counts the calls of `connect_peer` since the last handshake. -/
structure Dialer (E : Type) where
  peers : PeerList E := fun _ => none
  pending : List E := []
  conns : List (E × Bool) := []
  dials : E → ℕ := fun _ => 0

namespace Dialer

inductive Act (E : Type)
  | addPeer (e : E) (source : UInt8)
  /-- `try_connect`; `starts` says which sockets can be opened. -/
  | tryConnect (order : List E) (max : ℕ) (starts : E → Bool)
  | connectResult (i : ℕ) (ok : Bool)
  /-- `on_handshake`, which closes the connection if the torrent has no room or is paused. -/
  | handshake (i : ℕ) (room : Bool)
  | inbound (e : E) (room : Bool)
  /-- `on_closed`, before the handshake or after it. -/
  | closed (i : ℕ)

variable (s : Dialer E)

def onHandshake (e : E) (room : Bool) (conns : List (E × Bool)) : Dialer E :=
  { s with peers := s.peers.setConnected e room, conns, dials := update s.dials e 0 }

def step : Act E → Dialer E
  | .addPeer e source => { s with peers := s.peers.add e source }
  | .tryConnect order max starts =>
    let candidates := s.peers.connectCandidates order max
    { s with
      peers e := if e ∈ candidates then
          (s.peers e).map fun p => if starts e then { p with connecting := true } else p.failed
        else s.peers e
      pending := s.pending ++ candidates.filter starts
      dials e := if e ∈ candidates then s.dials e + 1 else s.dials e }
  | .connectResult i ok =>
    match s.pending[i]? with
    | none => s
    | some e =>
      if ok then { s with pending := s.pending.eraseIdx i, conns := s.conns ++ [(e, false)] }
      else { s with pending := s.pending.eraseIdx i, peers := s.peers.onConnectFailed e }
  | .handshake i room =>
    match s.conns[i]? with
    | some (e, false) =>
      s.onHandshake e room (if room then s.conns.set i (e, true) else s.conns.eraseIdx i)
    | _ => s
  | .inbound e room => s.onHandshake e room (if room then s.conns ++ [(e, true)] else s.conns)
  | .closed i =>
    match s.conns[i]? with
    | none => s
    | some (e, _) => { s with peers := s.peers.setConnected e false, conns := s.conns.eraseIdx i }

def run (acts : List (Act E)) : Dialer E := acts.foldl step {}

/-- A connection is closed only while its endpoint is listed as connected. -/
def ClosesConnected (acts : List (Act E)) : Prop :=
  ∀ earlier i e done, earlier ++ [.closed i] <+: acts → (run earlier).conns[i]? = some (e, done) →
    ∀ p, (run earlier).peers e = some p → p.connected = true

/-- A peer that was dialed `n` times since its last handshake. -/
def Tracked : Option Peer → ℕ → Prop
  | none, n => n = 0
  | some p, n =>
    n ≤ kMaxFails ∧ (p.connected = true → n = 0) ∧ n ≤ p.failCount + p.connecting.toNat

theorem tracked_zero (o : Option Peer) : Tracked o 0 := by
  cases o with
  | none => rfl
  | some p => exact ⟨Nat.zero_le _, fun _ => rfl, Nat.zero_le _⟩

variable {s}

theorem tracked_step (h : ∀ e, Tracked (s.peers e) (s.dials e)) (act : Act E)
    (hclosed : ∀ i e done, act = .closed i → s.conns[i]? = some (e, done) →
      ∀ p, s.peers e = some p → p.connected = true) (e : E) :
    Tracked ((s.step act).peers e) ((s.step act).dials e) := by
  have hp := h e
  have hupdate {e' : E} {o : Option Peer} (ho : e = e' → Tracked o (s.dials e)) :
      Tracked (update s.peers e' o e) (s.dials e) := by
    rw [update_apply]
    split_ifs with he
    · exact ho he
    · exact hp
  have hshake (e' : E) (room : Bool) (conns : List (E × Bool)) :
      Tracked ((s.onHandshake e' room conns).peers e) ((s.onHandshake e' room conns).dials e) := by
    by_cases he : e = e'
    · subst he
      simpa [onHandshake] using tracked_zero _
    · simpa [onHandshake, setConnected, update_of_ne he] using hp
  cases act with
  | addPeer e' source =>
    refine hupdate ?_
    rintro rfl
    cases hpeer : s.peers e <;> grind [Tracked]
  | tryConnect order max starts =>
    dsimp only [step]
    by_cases hmem : e ∈ s.peers.connectCandidates order max
    · have heligible := (mem_insertionSort _).mp (mem_of_mem_take hmem)
      rw [if_pos hmem, if_pos hmem]
      cases hpeer : s.peers e <;> grind [Tracked, Peer.eligible, Peer.failed]
    · rwa [if_neg hmem, if_neg hmem]
  | connectResult i ok =>
    dsimp only [step]
    split
    · exact hp
    split_ifs
    · exact hp
    refine hupdate ?_
    rintro rfl
    -- a failure takes the place of the dial that was under way
    cases hpeer : s.peers e <;> grind [Tracked, Peer.failed, Bool.toNat_le]
  | handshake i room =>
    dsimp only [step]
    split
    · exact hshake ..
    · exact hp
  | inbound e' room => exact hshake ..
  | closed i =>
    dsimp only [step]
    split
    · exact hp
    next e' done hi =>
    refine hupdate ?_
    rintro rfl
    cases hpeer : s.peers e <;> grind [Tracked]

/-- **A peer is dialed at most `kMaxFails` times without a handshake, if connections are closed only
while their endpoint is listed as connected.** -/
theorem dials_le (acts : List (Act E)) (h : ClosesConnected acts) (e : E) :
    (run acts).dials e ≤ kMaxFails := by
  have htracked (e : E) : Tracked ((run acts).peers e) ((run acts).dials e) := by
    induction acts using reverseRecOn generalizing e with
    | nil => rfl
    | append_singleton acts act ih =>
      rw [run, foldl_append]
      refine tracked_step (ih fun a i e d ha => h a i e d (ha.trans (prefix_append _ _))) act ?_ e
      rintro i e done rfl
      exact h acts i e done prefix_rfl
  have he := htracked e
  cases hpeer : (run acts).peers e <;> grind [Tracked]

/-- One peer is dialed and connected. -/
def connects : List (Act Unit) := [.tryConnect [()] 50 fun _ => true, .connectResult 0 true]

/-- After a dial that failed. -/
theorem dials_le_closed : (run (.addPeer () 1 :: .tryConnect [()] 50 (fun _ => true) ::
    .connectResult 0 false :: connects ++ [.handshake 0 true] ++ [.closed 0])).dials () ≤
      kMaxFails := by
  refine dials_le _ (fun earlier i e done h hi p hp => ?_) ()
  obtain heq | h := prefix_concat_iff.mp h
  · obtain ⟨rfl, heq⟩ := append_inj' heq rfl
    cases hp
    rfl
  · have hmem := h.subset (mem_append_right earlier (.head _))
    simp [connects] at hmem

/-- A peer that closes every connection before its handshake is dialed again and again. -/
theorem hopeless_peer_dialed :
    (run (.addPeer () 1 :: (replicate 6 (connects ++ [.closed 0])).flatten)).dials () = 6 := by
  decide +kernel

end Dialer

end Librats.BitTorrent
