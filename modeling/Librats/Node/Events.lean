import Librats.Node.Node

/-!
# Connected and disconnected

A node with several reactors runs its callbacks on several threads, and the round of application
callbacks that reports a change of the peer table runs after the lock is dropped (`Threads`). Two
rounds for one peer can overtake each other (`rounds_overtake`), or alternate (`rounds_alternate`).
-/

namespace Librats

open Node

open Node (Config register)

variable {H S I : Type}

/-- The point a reactor thread has reached in a handler of the node. -/
inductive Phase (H S I : Type)
  | idle
  /-- `on_established` found the table full and is about to look for the peer in it. -/
  | checking (c : Connection H S I)
  /-- `on_established` is about to call `peers_.add`. -/
  | registering (c : Connection H S I)
  /-- `on_established` is about to run the connected callbacks. -/
  | announcing (peer : I)
  /-- `on_closed` is about to call `peers_.remove`. -/
  | unregistering (c : Connection H S I)
  /-- `on_closed` is about to run the disconnected callbacks. -/
  | retiring (peer : I)
  deriving DecidableEq

open Phase

/-- The point at which the round `b` for the peer is due. -/
def Phase.due (peer : I) (b : Bool) : Phase H S I := if b then .announcing peer else .retiring peer

/-- A call of a handler by the reactor. -/
inductive Handler (H S I : Type)
  | established (c : Connection H S I)
  | closed (c : Connection H S I)

/-- A node and its threads, one for each reactor. -/
structure Threads (H S I : Type) where
  node : Node I
  phase : ℕ → Phase H S I

namespace Threads

/-- Thread `k` goes on, with the node changed. -/
def goto (t : Threads H S I) (k : ℕ) (n : Node I) (p : Phase H S I) : Threads H S I :=
  ⟨n, Function.update t.phase k p⟩

section

variable (t : Threads H S I) (k : ℕ) (n : Node I) (p : Phase H S I)

theorem phase_goto (k' : ℕ) : (t.goto k n p).phase k' = if k' = k then p else t.phase k' :=
  Function.update_apply ..

theorem node_goto : (t.goto k n p).node = n := rfl

theorem goto_goto (n' : Node I) (p' : Phase H S I) :
    (t.goto k n p).goto k n' p' = t.goto k n' p' := by
  simp [goto]

variable {t k n p}

theorem goto_idle (hidle : t.phase k = .idle) : t.goto k n .idle = ⟨n, t.phase⟩ := by
  rw [goto, Function.update_eq_self_iff.mpr hidle.symm]

theorem phase_goto_of_ne {k' : ℕ} (h : k' ≠ k) : (t.goto k n p).phase k' = t.phase k' :=
  Function.update_of_ne h ..

end

variable [LinearOrder I] [Zero I] (cfg : Config I) (t : Threads H S I)

/-- A handler starts on thread `k`. -/
def call (k : ℕ) : Handler H S I → Threads H S I
  | .established c =>
    if c.remoteId = cfg.identity then t.goto k (t.node.record (.refused c.id)) .idle
    else if cfg.maxPeers ≠ 0 ∧ c.role = .inbound ∧ cfg.maxPeers ≤ t.node.peers.size then
      t.goto k t.node (.checking c)
    else t.goto k t.node (.registering c)
  | .closed c =>
    if c.remoteId = 0 then
      if c.role = .outbound ∧ c.dialPort ≠ 0 then
        t.goto k (t.node.record (.dialFailed c.dialHost c.dialPort)) .idle
      else t.goto k t.node .idle
    else t.goto k t.node (.unregistering c)

omit [Zero I] in
/-- Thread `k` takes its next step. -/
def advance (k : ℕ) : Threads H S I :=
  match t.phase k with
  | .idle => t
  | .checking c =>
    if t.node.peers.contains c.remoteId then t.goto k t.node (.registering c)
    else t.goto k (t.node.record (.refused c.id)) .idle
  | .registering c =>
    let added := register (cfg.on k) t.node c
    let n := { t.node with peers := added.1 }
    match added.2.result with
    | .rejected => t.goto k (n.record (.refused c.id)) .idle
    | .newPeer => t.goto k (n.record (.admitted c.id)) (.announcing c.remoteId)
    | .updated | .replaced => t.goto k (n.record (.admitted c.id)) .idle
  | .announcing peer => t.goto k (t.node.record (.connected peer)) .idle
  | .unregistering c =>
    match t.node.peers.remove c.remoteId ⟨k, c.id⟩ with
    | (_, false) => t.goto k t.node .idle
    | (peers, true) => t.goto k { t.node with peers := peers } (.retiring c.remoteId)
  | .retiring peer => t.goto k (t.node.record (.disconnected peer)) .idle

/-- What a thread does next. -/
inductive Move (H S I : Type)
  | call (k : ℕ) (h : Handler H S I)
  | advance (k : ℕ)

/-- The thread of a move. -/
def Move.thread : Move H S I → ℕ
  | .call k _ | .advance k => k

/-- Threads interleave; a reactor runs one handler at a time. -/
inductive Step : Threads H S I → Move H S I → Threads H S I → Prop
  | call {t k h} (hidle : t.phase k = .idle) : Step t (.call k h) (t.call cfg k h)
  | advance {t k} : Step t (.advance k) (t.advance cfg k)

/-- The states reached by moves that meet a condition on the state before. -/
inductive Reachable (ok : Threads H S I → Move H S I → Prop) (t₀ : Threads H S I) :
    Threads H S I → Prop
  | refl : Reachable ok t₀ t₀
  | step {t t' m} (ht : Reachable ok t₀ t) (hok : ok t m) (hs : Step cfg t m t') :
    Reachable ok t₀ t'

/-- A node that has just started. -/
def new : Threads H S I := ⟨⟨.empty, []⟩, fun _ => .idle⟩

/-! ## Rounds -/

/-- The callback rounds for a peer, newest first; `true` is connected. -/
def rounds (peer : I) (log : List (NodeEvent I)) : List Bool :=
  log.filterMap fun
    | .connected p => if p = peer then some true else none
    | .disconnected p => if p = peer then some false else none
    | _ => none

/-- Connected and disconnected take turns, and connected came first. -/
def Alternating : List Bool → Prop
  | [] => True
  | b :: past => b = !past.headD false ∧ Alternating past

/-- A round for the peer is due on thread `k`. -/
def Busy (k : ℕ) (peer : I) : Prop :=
  t.phase k = .announcing peer ∨ t.phase k = .retiring peer

/-- No round for a peer is due when the peer is added or dropped. -/
def Exclusive : Move H S I → Prop
  | .call _ _ => True
  | .advance k =>
    match t.phase k with
    | .registering c => t.node.peers.contains c.remoteId = false → ∀ k', ¬t.Busy k' c.remoteId
    | .unregistering c => t.node.peers.route c.remoteId = some ⟨k, c.id⟩ →
      ∀ k', ¬t.Busy k' c.remoteId
    | _ => True

/-! ## The invariant of a peer -/

/-- The last round for the peer, and `false` before the first. -/
def announced (peer : I) : Bool := (rounds peer t.node.log).headD false

variable {t : Threads H S I} {k : ℕ}

omit [LinearOrder I] [Zero I] in
theorem busy_iff {peer : I} : t.Busy k peer ↔ ∃ b, t.phase k = .due peer b := by
  simp [Busy, due, or_comm]

/-- The rounds of a peer so far, and the one that may be due. -/
structure Good (t : Threads H S I) (peer : I) : Prop where
  alternating : Alternating (rounds peer t.node.log)
  unique : ∀ k k', t.Busy k peer → t.Busy k' peer → k = k'
  calm : (∀ k, ¬t.Busy k peer) → t.announced peer = t.node.peers.contains peer
  pending : ∀ k b, t.phase k = .due peer b → t.announced peer = !b ∧ t.node.peers.contains peer = b

section

omit [Zero I]

variable {peer : I} {n : Node I} (h : t.Good peer)

include h

theorem Good.other (hk : ¬t.Busy k peer) {p : Phase H S I}
    (hp : ∀ b, p ≠ .due peer b) (hrounds : rounds peer n.log = rounds peer t.node.log)
    (hpeers : n.peers.contains peer = t.node.peers.contains peer) : (t.goto k n p).Good peer := by
  have hphase : ∀ k' b, (t.goto k n p).phase k' = .due peer b ↔ t.phase k' = .due peer b := by
    intro k' b
    rw [phase_goto]
    split_ifs with hkk
    · subst hkk
      exact iff_of_false (hp b) fun heq => hk (busy_iff.mpr ⟨b, heq⟩)
    · rfl
  have hbusy : ∀ k', (t.goto k n p).Busy k' peer ↔ t.Busy k' peer := by
    simp [busy_iff, hphase]
  have hann : (t.goto k n p).announced peer = t.announced peer := congrArg (·.headD false) hrounds
  refine ⟨?_, fun k₁ k₂ h₁ h₂ => ?_, fun hcalm => ?_, fun k' b hk' => ?_⟩
  · exact (congrArg Alternating hrounds).mpr h.alternating
  · exact h.unique k₁ k₂ ((hbusy k₁).mp h₁) ((hbusy k₂).mp h₂)
  · rw [hann]
    exact (h.calm fun k' hb => hcalm k' ((hbusy k').mpr hb)).trans hpeers.symm
  · obtain ⟨ha, hc⟩ := h.pending k' b ((hphase k' b).mp hk')
    exact ⟨hann.trans ha, hpeers.trans hc⟩

theorem Good.change (hfree : ∀ k', ¬t.Busy k' peer) {b : Bool}
    (hrounds : rounds peer n.log = rounds peer t.node.log)
    (hbefore : t.node.peers.contains peer = !b) (hafter : n.peers.contains peer = b) :
    (t.goto k n (due peer b)).Good peer := by
  have hann : (t.goto k n (due peer b)).announced peer = !b :=
    (congrArg (·.headD false) hrounds).trans ((h.calm hfree).trans hbefore)
  have hbusy : ∀ k', (t.goto k n (due peer b)).Busy k' peer → k' = k := by
    intro k' hb
    by_contra hne
    simp only [Busy, phase_goto, if_neg hne] at hb
    exact hfree k' hb
  refine ⟨(congrArg Alternating hrounds).mpr h.alternating, fun k₁ k₂ h₁ h₂ => ?_, fun hcalm => ?_,
    fun k' b' hk' => ?_⟩
  · rw [hbusy k₁ h₁, hbusy k₂ h₂]
  · exact absurd (busy_iff.mpr ⟨b, by rw [phase_goto, if_pos rfl]⟩) (hcalm k)
  · have hkk := hbusy k' (busy_iff.mpr ⟨b', hk'⟩)
    have hbb : b' = b := by
      rw [phase_goto, if_pos hkk] at hk'
      revert hk'
      cases b <;> cases b' <;> simp [due]
    subst hbb
    exact ⟨hann, hafter⟩

theorem Good.fire {b : Bool} (hk : t.phase k = due peer b)
    (hrounds : rounds peer n.log = b :: rounds peer t.node.log)
    (hpeers : n.peers.contains peer = t.node.peers.contains peer) :
    (t.goto k n .idle).Good peer := by
  obtain ⟨ha, hc⟩ := h.pending k b hk
  have hbusy : ∀ k', ¬(t.goto k n .idle).Busy k' peer := by
    intro k' hb'
    by_cases hkk : k' = k
    · simp [Busy, phase_goto, hkk] at hb'
    · simp only [Busy, phase_goto, if_neg hkk] at hb'
      exact hkk (h.unique k' k hb' (busy_iff.mpr ⟨b, hk⟩))
  have hann : (t.goto k n .idle).announced peer = b := congrArg (·.headD false) hrounds
  refine ⟨(congrArg Alternating hrounds).mpr ⟨?_, h.alternating⟩,
    fun k₁ _ h₁ _ => absurd h₁ (hbusy k₁), fun _ => hann.trans (hpeers.trans hc).symm,
    fun k' b' hk' => absurd (busy_iff.mpr ⟨b', hk'⟩) (hbusy k')⟩
  rw [show (rounds peer t.node.log).headD false = !b from ha, Bool.not_not]

variable {c : Connection H S I}

omit h in
theorem advance_registering (hk : t.phase k = .registering c) : ∃ n, t.advance cfg k = t.goto k n
        (if t.node.peers.contains c.remoteId then .idle else .announcing c.remoteId) ∧
      (∀ peer, n.peers.contains peer = true ↔
        peer = c.remoteId ∨ t.node.peers.contains peer = true) ∧
      ∀ peer, rounds peer n.log = rounds peer t.node.log := by
  have hadd := PeerTable.contains_add t.node.peers (infoOf (cfg.on k) c)
    (routeOf (cfg.on k) c) ((cfg.on k).identity < c.remoteId)
  have hnew := PeerTable.add_newPeer_iff t.node.peers (infoOf (cfg.on k) c)
    (routeOf (cfg.on k) c) ((cfg.on k).identity < c.remoteId)
  change (register (cfg.on k) t.node c).2.result = .newPeer ↔
    t.node.peers.contains c.remoteId = false at hnew
  cases hin : t.node.peers.contains c.remoteId with
  | false =>
    refine ⟨⟨(register (cfg.on k) t.node c).1, .admitted c.id :: t.node.log⟩, ?_, hadd,
      fun _ => rfl⟩
    simp only [advance, hk, hnew.mpr hin]
    rfl
  | true =>
    have hne : (register (cfg.on k) t.node c).2.result ≠ .newPeer := by
      rw [Ne, hnew, hin]
      exact nofun
    cases hres : (register (cfg.on k) t.node c).2.result with
    | newPeer => exact absurd hres hne
    | rejected =>
      refine ⟨⟨(register (cfg.on k) t.node c).1, .refused c.id :: t.node.log⟩, ?_, hadd,
        fun _ => rfl⟩
      simp only [advance, hk, hres]
      rfl
    | updated | replaced =>
      refine ⟨⟨(register (cfg.on k) t.node c).1, .admitted c.id :: t.node.log⟩, ?_, hadd,
        fun _ => rfl⟩
      simp only [advance, hk, hres]
      rfl

omit h in
theorem advance_unregistering (hk : t.phase k = .unregistering c) :
    t.advance cfg k = t.goto k ⟨(t.node.peers.remove c.remoteId ⟨k, c.id⟩).1, t.node.log⟩
      (if t.node.peers.route c.remoteId = some ⟨k, c.id⟩ then .retiring c.remoteId else .idle) := by
  simp only [advance, hk]
  by_cases hroute : t.node.peers.route c.remoteId = some ⟨k, c.id⟩
  · have htrue := (PeerTable.remove_iff t.node.peers c.remoteId ⟨k, c.id⟩).mpr hroute
    rw [if_pos hroute]
    split <;> rename_i hr <;> rw [hr] at htrue
    · cases htrue
    · rw [hr]
  · rw [if_neg hroute, PeerTable.remove_eq_of_ne hroute]

theorem Good.call [Zero I] (hidle : t.phase k = .idle) (hd : Handler H S I) :
    (t.call cfg k hd).Good peer := by
  have hk : ¬t.Busy k peer := by simp [Busy, hidle]
  have hp : ∀ b, (.idle : Phase H S I) ≠ .due peer b := by simp [due]
  cases hd with
  | established c =>
    simp only [Threads.call]
    split_ifs
    · exact h.other hk hp rfl rfl
    · exact h.other hk (by simp [due]) rfl rfl
    · exact h.other hk (by simp [due]) rfl rfl
  | closed c =>
    simp only [Threads.call]
    split_ifs
    · exact h.other hk hp rfl rfl
    · exact h.other hk hp rfl rfl
    · exact h.other hk (by simp [due]) rfl rfl

theorem Good.registering (hk : t.phase k = .registering c)
    (hex : t.Exclusive (.advance k)) : (t.advance cfg k).Good peer := by
  have hp : ∀ b, (.idle : Phase H S I) ≠ .due peer b := by simp [due]
  have hbusy : ¬t.Busy k peer := by simp [Busy, hk]
  simp only [Exclusive, hk] at hex
  obtain ⟨n, hn, hpeers, hrounds⟩ := advance_registering cfg hk
  rw [hn]
  by_cases hpeer : peer = c.remoteId
  · subst hpeer
    have hafter : n.peers.contains c.remoteId = true := (hpeers _).mpr (.inl rfl)
    split_ifs with hin
    · exact h.other hbusy hp (hrounds _) (hafter.trans hin.symm)
    · rw [Bool.not_eq_true] at hin
      exact h.change (b := true) (hex hin) (hrounds _) hin hafter
  · refine h.other hbusy (fun b => ?_) (hrounds _) (Bool.eq_iff_iff.mpr ?_)
    · split_ifs
      · exact hp b
      · cases b <;> simp [due, Ne.symm hpeer]
    · rw [hpeers]
      exact or_iff_right hpeer

theorem Good.unregistering (hk : t.phase k = .unregistering c)
    (hex : t.Exclusive (.advance k)) : (t.advance cfg k).Good peer := by
  have hbusy : ¬t.Busy k peer := by simp [Busy, hk]
  simp only [Exclusive, hk] at hex
  rw [advance_unregistering cfg hk]
  have hpeers := PeerTable.contains_remove t.node.peers c.remoteId ⟨k, c.id⟩
  split_ifs with hroute
  · by_cases hpeer : peer = c.remoteId
    · subst hpeer
      have hbefore := PeerTable.contains_of_route hroute
      have hafter : (t.node.peers.remove c.remoteId ⟨k, c.id⟩).1.contains c.remoteId = false := by
        rw [← Bool.not_eq_true, hpeers]
        exact fun hc => hc.2 ⟨rfl, hroute⟩
      exact h.change (b := false) (hex hroute) rfl hbefore hafter
    · refine h.other hbusy (fun b => ?_) rfl (Bool.eq_iff_iff.mpr ?_)
      · cases b <;> simp [due, Ne.symm hpeer]
      · rw [hpeers]
        exact and_iff_left fun hc => hpeer hc.1
  · rw [PeerTable.remove_eq_of_ne hroute]
    exact h.other hbusy (by simp [due]) rfl rfl

theorem Good.advance (hex : t.Exclusive (.advance k)) : (t.advance cfg k).Good peer := by
  have hp : ∀ b, (.idle : Phase H S I) ≠ .due peer b := by simp [due]
  cases hk : t.phase k with
  | idle =>
    simp only [Threads.advance, hk]
    exact h
  | checking c =>
    have hbusy : ¬t.Busy k peer := by simp [Busy, hk]
    simp only [Threads.advance, hk]
    split_ifs
    · exact h.other hbusy (by simp [due]) rfl rfl
    · exact h.other hbusy hp rfl rfl
  | registering c => exact h.registering cfg hk hex
  | announcing p =>
    simp only [Threads.advance, hk]
    by_cases hpeer : p = peer
    · subst hpeer
      exact h.fire (b := true) hk (by simp [rounds, record]) rfl
    · exact h.other (by simp [Busy, hk, hpeer]) hp (by simp [rounds, record, hpeer]) rfl
  | unregistering c => exact h.unregistering cfg hk hex
  | retiring p =>
    simp only [Threads.advance, hk]
    by_cases hpeer : p = peer
    · subst hpeer
      exact h.fire (b := false) hk (by simp [rounds, record]) rfl
    · exact h.other (by simp [Busy, hk, hpeer]) hp (by simp [rounds, record, hpeer]) rfl

end

/-! ## Runs -/

variable {cfg} {t₀ : Threads H S I}

theorem Reachable.trans {ok : Threads H S I → Move H S I → Prop} {t₁ t₂ t₃ : Threads H S I}
    (h₁ : Reachable cfg ok t₁ t₂) (h₂ : Reachable cfg ok t₂ t₃) : Reachable cfg ok t₁ t₃ := by
  induction h₂ with
  | refl => exact h₁
  | step _ hok hs ih => exact .step ih hok hs

theorem Reachable.advance (h : Reachable cfg (fun _ m => m.thread = k) t₀ t) :
    Reachable cfg (fun _ m => m.thread = k) t₀ (t.advance cfg k) :=
  .step h rfl .advance

theorem Reachable.good (h : Reachable cfg Exclusive t₀ t) {peer : I}
    (h₀ : t₀.Good peer) : t.Good peer := by
  induction h with
  | refl => exact h₀
  | step _ hok hs ih =>
    cases hs with
    | call hidle => exact ih.call cfg hidle _
    | advance => exact ih.advance cfg hok

omit [Zero I] in
theorem new_good (peer : I) : (new : Threads H S I).Good peer where
  alternating := trivial
  unique k _ h := by simp [Busy, new] at h
  calm _ := rfl
  pending k b h := by cases b <;> cases h

/-- **If no thread adds or drops a peer while a round for it is due, the rounds of every peer
alternate, and when all threads are idle the last one tells whether it is in the table.** -/
theorem rounds_alternate {t : Threads H S I} (h : Reachable cfg Exclusive .new t) (peer : I) :
    Alternating (rounds peer t.node.log) ∧ ((∀ k, t.phase k = .idle) →
      ((rounds peer t.node.log).head? = some true ↔ t.node.peers.contains peer = true)) := by
  have hgood := h.good (new_good peer)
  refine ⟨hgood.alternating, fun hidle => ?_⟩
  rw [← hgood.calm fun k => by simp [Busy, hidle k], announced]
  cases rounds peer t.node.log <;> simp

theorem Step.phase_of_ne {t' : Threads H S I} {m : Move H S I} (hs : Step cfg t m t')
    (hk : k ≠ m.thread) : t'.phase k = t.phase k := by
  cases hs with
  | @call k' h _ =>
    cases h with
    | established c | closed c =>
      simp only [Threads.call]
      split_ifs <;> exact phase_goto_of_ne hk
  | @advance k' =>
    cases hp : t.phase k' with
    | idle => simp only [Threads.advance, hp]
    | checking c =>
      simp only [Threads.advance, hp]
      split_ifs <;> exact phase_goto_of_ne hk
    | registering c =>
      obtain ⟨n, hn, -⟩ := advance_registering cfg hp
      rw [hn]
      exact phase_goto_of_ne hk
    | unregistering c =>
      rw [advance_unregistering cfg hp]
      exact phase_goto_of_ne hk
    | announcing p | retiring p =>
      simp only [Threads.advance, hp]
      exact phase_goto_of_ne hk

theorem Reachable.exclusive_of_one {t₀ : Threads H S I} (hidle : ∀ j, j ≠ k → t₀.phase j = .idle)
    (h : Reachable cfg (fun _ m => m.thread = k) t₀ t) :
    Reachable cfg Exclusive t₀ t ∧ ∀ j, j ≠ k → t.phase j = .idle := by
  induction h with
  | refl => exact ⟨.refl, hidle⟩
  | @step t t' m _ hok hs ih =>
    obtain ⟨hreach, hothers⟩ := ih
    have hfree : ∀ peer, ¬t.Busy k peer → ∀ j, ¬t.Busy j peer := by
      intro peer h0 j
      by_cases hj : j = k
      · rwa [hj]
      · simp [Busy, hothers j hj]
    have hex : t.Exclusive m := by
      cases m with
      | call => trivial
      | advance j =>
        obtain rfl : j = k := hok
        simp only [Exclusive]
        split
        · rename_i hk
          exact fun _ => hfree _ (by simp [Busy, hk])
        · rename_i hk
          exact fun _ => hfree _ (by simp [Busy, hk])
        · trivial
    exact ⟨.step hreach hex hs, fun j hj =>
      (hs.phase_of_ne (by rwa [hok])).trans (hothers j hj)⟩

/-! ## A thread left alone -/

section

variable {t : Threads H S I} {k : ℕ}

theorem registering_uninterrupted {c : Connection H S I} (hk : t.phase k = .registering c)
    (hself : c.remoteId ≠ cfg.identity) (hlimit : beyondLimit cfg t.node c = false) :
    Reachable cfg (fun _ m => m.thread = k) t
      (t.goto k (onEstablished (cfg.on k) t.node c).1 .idle) := by
  have hnode : onEstablished (cfg.on k) t.node c = _ :=
    (if_neg hself).trans (if_neg (Bool.eq_false_iff.mp hlimit))
  have hadd : Reachable cfg (fun _ m => m.thread = k) t (t.advance cfg k) :=
    Reachable.refl.advance
  rw [hnode]
  dsimp only
  cases hres : (register (cfg.on k) t.node c).2.result with
  | newPeer =>
    have hfire := hadd.advance
    have hfirst : t.advance cfg k = t.goto k (record ⟨(register (cfg.on k) t.node c).1,
        t.node.log⟩ (.admitted c.id)) (.announcing c.remoteId) := by
      simp [advance, hk, hres]
    rw [hfirst, advance, phase_goto] at hfire
    simp only [goto_goto] at hfire
    exact hfire
  | rejected | updated | replaced =>
    simp only [advance, hk, hres] at hadd
    exact hadd

/-- **A thread that is not interrupted runs `on_established` as one callback.** -/
theorem established_uninterrupted (hidle : t.phase k = .idle) (c : Connection H S I) :
    Reachable cfg (fun _ m => m.thread = k) t ⟨(onEstablished (cfg.on k) t.node c).1, t.phase⟩ := by
  have hcall : Reachable cfg (fun _ m => m.thread = k) t (t.call cfg k (.established c)) :=
    .step .refl rfl (.call hidle)
  by_cases hself : c.remoteId = cfg.identity
  · simp only [call, if_pos hself, goto_idle hidle] at hcall
    rwa [show onEstablished (cfg.on k) t.node c = _ from if_pos hself]
  have hrest : ∀ t₁ : Threads H S I, t₁ = t.goto k t.node (.registering c) →
      beyondLimit cfg t.node c = false → Reachable cfg (fun _ m => m.thread = k) t₁
        ⟨(onEstablished (cfg.on k) t.node c).1, t.phase⟩ := by
    rintro t₁ rfl hlimit
    have hreg := registering_uninterrupted (t := t.goto k t.node (.registering c))
      (by rw [phase_goto, if_pos rfl]) hself hlimit
    rwa [goto_goto, goto_idle hidle] at hreg
  by_cases hfull : cfg.maxPeers ≠ 0 ∧ c.role = .inbound ∧ cfg.maxPeers ≤ t.node.peers.size
  · simp only [call, if_neg hself, if_pos hfull] at hcall
    have hcheck := hcall.advance
    rw [advance, phase_goto, if_pos rfl] at hcheck
    simp only [goto_goto, node_goto] at hcheck
    cases hin : t.node.peers.contains c.remoteId with
    | true =>
      rw [if_pos hin] at hcheck
      exact hcheck.trans (hrest _ rfl (by simp [beyondLimit, hin]))
    | false =>
      rw [if_neg (Bool.eq_false_iff.mp hin), goto_idle hidle] at hcheck
      have hlimit : beyondLimit (cfg.on k) t.node c = true := by
        rw [beyondLimit, decide_eq_true_eq]
        exact ⟨hfull.1, hfull.2.1, hfull.2.2, hin⟩
      rwa [show onEstablished (cfg.on k) t.node c = _ from
        (if_neg hself).trans (if_pos hlimit)]
  · simp only [call, if_neg hself, if_neg hfull] at hcall
    refine hcall.trans (hrest _ rfl ?_)
    rw [beyondLimit, decide_eq_false_iff_not]
    exact fun hlimit => hfull ⟨hlimit.1, hlimit.2.1, hlimit.2.2.1⟩

/-- **A thread that is not interrupted runs `on_closed` as one callback.** -/
theorem closed_uninterrupted (hidle : t.phase k = .idle) (c : Connection H S I)
    (reason : CloseReason) : Reachable cfg (fun _ m => m.thread = k) t
      ⟨(onClosed (cfg.on k) t.node c reason).1, t.phase⟩ := by
  have hcall : Reachable cfg (fun _ m => m.thread = k) t (t.call cfg k (.closed c)) :=
    .step .refl rfl (.call hidle)
  unfold onClosed
  by_cases hzero : c.remoteId = 0
  · simp only [call] at hcall ⊢
    split_ifs at hcall ⊢ with hdial <;> rwa [goto_idle hidle] at hcall
  simp only [call, if_neg hzero] at hcall ⊢
  have hremove := hcall.advance
  rw [advance_unregistering cfg (by rw [phase_goto, if_pos rfl]), goto_goto, node_goto] at hremove
  change Reachable cfg _ t ⟨(match t.node.peers.remove c.remoteId ⟨k, c.id⟩ with
    | (_, false) => (t.node, [])
    | (peers, true) => _).1, t.phase⟩
  by_cases hroute : t.node.peers.route c.remoteId = some ⟨k, c.id⟩
  · rw [if_pos hroute] at hremove
    have hfire := hremove.advance
    rw [advance, phase_goto] at hfire
    simp only [goto_goto, goto_idle hidle] at hfire
    have htrue := (PeerTable.remove_iff t.node.peers c.remoteId ⟨k, c.id⟩).mpr hroute
    split <;> rename_i hr <;> rw [hr] at htrue hfire
    · cases htrue
    · exact hfire
  · rw [if_neg hroute, goto_idle hidle, PeerTable.remove_eq_of_ne hroute] at hremove
    rwa [PeerTable.remove_eq_of_ne hroute]

end

/-! ## Two connections to one peer -/

/-- A node with id 7 and no peer limit. -/
def plainConfig : Config ℕ := ⟨7, 0, 0, fun _ => none, [], fun _ => [], fun _ => []⟩

/-- The first connection of a reactor, dialed to peer 9. -/
def link : Connection Unit Unit ℕ :=
  ⟨1, .outbound, .established, .peerClosed, none, some (), 9, [], none, [], 0⟩

/-- The node after `on_established` and `on_closed` of the connection on reactor `k`. -/
def comeAndGone (k : ℕ) (n : Node ℕ) : Node ℕ :=
  ((onEstablished (plainConfig.on k) n link).1.onClosed (plainConfig.on k) link .peerClosed).1

theorem comeAndGone_reachable (k : ℕ) (n : Node ℕ) :
    Reachable plainConfig Exclusive (⟨n, fun _ => .idle⟩ : Threads Unit Unit ℕ)
      ⟨comeAndGone k n, fun _ => .idle⟩ :=
  (((established_uninterrupted rfl link).trans
    (closed_uninterrupted rfl link .peerClosed)).exclusive_of_one fun _ _ => rfl).1

/-- A connection on one reactor comes and goes, then one on another reactor. -/
theorem rounds_alternate_comeAndGone :
    let n := comeAndGone 1 (comeAndGone 0 ⟨.empty, []⟩)
    Alternating (rounds 9 n.log) ∧ rounds 9 n.log = [false, true, false, true] :=
  ⟨(rounds_alternate ((comeAndGone_reachable 0 _).trans (comeAndGone_reachable 1 _)) 9).1, by decide⟩

/-- Reactor 0 has added the peer; before its connected round, reactor 1 replaces the route, loses
its connection and reports that. -/
def overtaken : Threads Unit Unit ℕ :=
  (((((((Threads.new.call plainConfig 0 (.established link)).advance plainConfig 0).call
    plainConfig 1 (.established link)).advance plainConfig 1).call
      plainConfig 1 (.closed link)).advance plainConfig 1).advance plainConfig 1).advance
        plainConfig 0

theorem overtaken_reachable : Reachable plainConfig (fun _ _ => True) .new overtaken := by
  have h : Reachable plainConfig (fun _ _ => True) (.new : Threads Unit Unit ℕ) .new := .refl
  have h := h.step trivial (.call (k := 0) (h := .established link) rfl)
  have h := h.step trivial (.advance (k := 0))
  have h := h.step trivial (.call (k := 1) (h := .established link) rfl)
  have h := h.step trivial (.advance (k := 1))
  have h := h.step trivial (.call (k := 1) (h := .closed link) rfl)
  have h := h.step trivial (.advance (k := 1))
  have h := h.step trivial (.advance (k := 1))
  exact h.step trivial .advance

/-- **The rounds come in the wrong order: disconnected, then connected, and the peer is gone.** -/
theorem rounds_overtake : ∃ t : Threads Unit Unit ℕ,
    Reachable plainConfig (fun _ _ => True) .new t ∧ (∀ k, t.phase k = .idle) ∧
      ¬Alternating (rounds 9 t.node.log) ∧ (rounds 9 t.node.log).head? = some true ∧
        t.node.peers.contains 9 = false := by
  refine ⟨overtaken, overtaken_reachable, fun k => ?_, ?_, by decide, by decide⟩
  · match k with
    | 0 => rfl
    | 1 => rfl
    | k + 2 => rfl
  · have hrounds : rounds 9 overtaken.node.log = [true, false] := by decide
    exact fun h => nomatch h.2.1

end Threads

end Librats
