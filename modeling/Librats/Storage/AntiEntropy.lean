import Librats.Storage.Mesh

/-!
# Anti-entropy over links that come up late

Managers between which links come up at any time; both ends of a new link ask for a snapshot. Its
entries are absorbed and not forwarded (`line_diverges`). The mesh refines `Gossip` as long as a
node that takes an entry from a snapshot need not tell anybody (`Settled`).
-/

namespace Librats.Storage

open StorageEntry StorageManager List

namespace Network

open Flood (rank)

variable {V : Type} [DecidableEq V]

/-! ## Well-formed meshes -/

/-- The messages managers send to each other. -/
inductive Message : Bytes → Prop
  | entry (e : StorageEntry) (he : Readable e) : Message (entryMessage e)
  | request : Message [opSyncRequest]
  | snapshot (s : Entries) (hs : ∀ p ∈ s.entries, Readable p.2)
      (hcount : s.entries.length < 2 ^ 32) : Message (snapshotMessage s)

/-- All managers replicate. -/
structure Replicating (net : Network V) : Prop where
  attached : ∀ v, (net.nodes v).network.isSome
  enableSync : ∀ v, (net.nodes v).config.enableSync = true

/-- What is stored can be sent, only the managers' messages are under way, and links have two ends.
-/
structure Meshed (net : Network V) : Prop extends Replicating net where
  stored : ∀ v k e, (net.nodes v).entries.lookup k = some e → e.key = k ∧ Readable e
  messages : ∀ u v p, net.UnderWay u v p → Message p
  peers_symm : ∀ u v, v ∈ net.peers u → u ∈ net.peers v

/-- The mesh with its messages read as entries and requests. -/
def toGossip (net : Network V) : Gossip.State V Bytes StorageEntry where
  held v k := (net.nodes v).entries.lookup k
  inFlight a b := { e | ∃ p, net.UnderWay a b p ∧ e ∈ carried p }
  wanted a b := net.UnderWay a b [opSyncRequest]
  adj a b := b ∈ net.peers a
  accepted := net.accepted

/-- The start: no links, no messages, and any entries that can be sent. -/
structure Unlinked (net : Network V) : Prop extends Meshed net where
  quiescent : net.Quiescent
  no_peers : ∀ v, net.peers v = []
  accepted : net.accepted = { e | ∃ v k, (net.nodes v).entries.lookup k = some e }

/-- Every entry taken from a snapshot at `v` is known on the other links of `v`, or will be asked
for there; snapshots are asked for only from stores whose entries can be counted in 32 bits. -/
def Settled (net : Network V) (u v : V) (payload : Bytes) : Prop :=
  (payload.head? = some opSyncRequest → (net.nodes v).entries.entries.length < 2 ^ 32) ∧
  (payload.head? = some opSyncResponse → ∀ e ∈ carried payload,
    (net.nodes v).loses e.key e = false → ∀ w ∈ net.peers v, w ≠ u →
      (e.stamp ≤ rank stamp ((net.nodes w).entries.lookup e.key) ∨
        net.UnderWay w v [opSyncRequest]))

/-- Local puts, links that come up, and messages. -/
def Growing : Action V → Bool
  | .put _ _ _ _ => true
  | .remove _ _ _ => false
  | .clear _ _ => false
  | .compact _ => false
  | .linkUp _ _ => true
  | .send _ _ _ => true
  | .deliver _ _ => true

/-- The steps in which a delivery is settled. -/
structure LateLinks (net : Network V) (a : Action V) : Prop where
  growing : Growing a = true
  settled : ∀ u v payload rest, a = .deliver u v → net.links u v = payload :: rest →
    net.Settled u v payload

/-! ## Links that come up -/

section

variable {net : Network V} (h : net.Replicating) (u v : V)

include h

omit [DecidableEq V] in
theorem onPeerConnected_trace :
    (((net.nodes u).addPeer v).onPeerConnected v).2 = [.send v [opSyncRequest]] := by
  obtain ⟨n, hn⟩ := Option.isSome_iff_exists.mp (h.attached u)
  have hsync : ((net.nodes u).addPeer v).config.enableSync = true := h.enableSync u
  rw [StorageManager.onPeerConnected_trace, hsync]
  simp [addPeer, hn]

theorem underWay_connect {a b : V} {p : Bytes} : (net.connect u v).UnderWay a b p ↔
      net.UnderWay a b p ∨ a = u ∧ b = v ∧ p = [opSyncRequest] := by
  simp [connect, underWay_act, onPeerConnected_trace h, Event.sends]

omit h in
theorem connect_nodes_of_ne {w : V} (hw : w ≠ u) : (net.connect u v).nodes w = net.nodes w := by
  simp [connect, act, hw]

omit h in
theorem connect_spec (w : V) : ((net.connect u v).nodes w).entries = (net.nodes w).entries ∧
    ((net.connect u v).nodes w).config = (net.nodes w).config ∧
    ((net.connect u v).nodes w).network.isSome = (net.nodes w).network.isSome := by
  by_cases hw : w = u
  · subst hw
    obtain ⟨he, hc, hn⟩ := ((net.nodes w).addPeer v).onPeerConnected_spec v
    simp only [connect, act, Function.update_self, he, hc, hn]
    exact ⟨rfl, rfl, by simp [addPeer]⟩
  · rw [connect_nodes_of_ne u v hw]
    exact ⟨rfl, rfl, rfl⟩

theorem mem_peers_connect {a b : V} :
    b ∈ (net.connect u v).peers a ↔ b ∈ net.peers a ∨ a = u ∧ b = v := by
  by_cases ha : a = u
  · subst ha
    obtain ⟨n, hn⟩ := Option.isSome_iff_exists.mp (h.attached a)
    have hnet := (((net.nodes a).addPeer v).onPeerConnected_spec v).2.2
    simp only [peers, connect, act, Function.update_self, hnet]
    simp [addPeer, hn]
  · simp only [peers, connect_nodes_of_ne u v ha]
    simp [ha]

end

variable {net : Network V} {v : V}

theorem Replicating.connect (h : net.Replicating) (u v : V) : (net.connect u v).Replicating where
  attached w := by
    rw [(connect_spec u v w).2.2]
    exact h.attached w
  enableSync w := by
    rw [(connect_spec u v w).2.1]
    exact h.enableSync w

section

variable {net : Network V} (h : net.Meshed) (u v : V)

include h

theorem underWay_linkUp {a b : V} {p : Bytes} :
    ((net.connect u v).connect v u).UnderWay a b p ↔ net.UnderWay a b p ∨
      p = [opSyncRequest] ∧ (a = u ∧ b = v ∨ a = v ∧ b = u) := by
  rw [underWay_connect (h.toReplicating.connect u v), underWay_connect h.toReplicating]
  constructor
  · rintro ((hp | ⟨ha, hb, hp⟩) | ⟨ha, hb, hp⟩)
    · exact .inl hp
    · exact .inr ⟨hp, .inl ⟨ha, hb⟩⟩
    · exact .inr ⟨hp, .inr ⟨ha, hb⟩⟩
  · rintro (hp | ⟨hp, ⟨ha, hb⟩ | ⟨ha, hb⟩⟩)
    · exact .inl (.inl hp)
    · exact .inl (.inr ⟨ha, hb, hp⟩)
    · exact .inr ⟨ha, hb, hp⟩

theorem mem_peers_linkUp {a b : V} : b ∈ ((net.connect u v).connect v u).peers a ↔
    b ∈ net.peers a ∨ a = u ∧ b = v ∨ a = v ∧ b = u := by
  rw [mem_peers_connect (h.toReplicating.connect u v), mem_peers_connect h.toReplicating, or_assoc]

omit h in
theorem entries_linkUp (w : V) :
    (((net.connect u v).connect v u).nodes w).entries = (net.nodes w).entries :=
  (connect_spec v u w).1.trans (connect_spec u v w).1

theorem Meshed.linkUp : ((net.connect u v).connect v u).Meshed where
  toReplicating := (h.toReplicating.connect u v).connect v u
  stored w k e he := h.stored w k e (entries_linkUp u v w ▸ he)
  messages a b p hp := by
    rcases (underWay_linkUp h u v).mp hp with hp | ⟨rfl, -⟩
    · exact h.messages a b p hp
    · exact .request
  peers_symm a b hab := by
    rw [mem_peers_linkUp h] at hab ⊢
    rcases hab with hab | ⟨rfl, rfl⟩ | ⟨rfl, rfl⟩
    · exact .inl (h.peers_symm a b hab)
    · exact .inr (.inr ⟨rfl, rfl⟩)
    · exact .inr (.inl ⟨rfl, rfl⟩)

theorem linkUp_refines : Gossip.Step key stamp net.toGossip
    ((net.connect u v).connect v u).toGossip := by
  refine .connect u v ?_ ?_ ?_ ?_ ?_ ?_ rfl
  · ext1 w
    ext1 k
    exact congrArg (AList.lookup k) (entries_linkUp u v w)
  · ext a b e
    simp only [toGossip, underWay_linkUp h]
    constructor
    · rintro ⟨p, hp | ⟨rfl, -⟩, he⟩
      · exact ⟨p, hp, he⟩
      · simp [carried_syncRequest] at he
    · rintro ⟨p, hp, he⟩
      exact ⟨p, .inl hp, he⟩
  · intro a b hab
    exact (underWay_linkUp h u v).mpr (.inl hab)
  · exact (underWay_linkUp h u v).mpr (.inr ⟨rfl, .inl ⟨rfl, rfl⟩⟩)
  · exact (underWay_linkUp h u v).mpr (.inr ⟨rfl, .inr ⟨rfl, rfl⟩⟩)
  · intro a b hab
    exact (mem_peers_linkUp h u v).mp hab

end

/-! ## Calls -/

theorem Meshed.act (h : net.Meshed) {r : StorageManager V × List (Event V)}
    (hnet : r.1.network = (net.nodes v).network) (hconfig : r.1.config = (net.nodes v).config)
    (hstored : ∀ k e, r.1.entries.lookup k = some e → e.key = k ∧ Readable e)
    (hsent : ∀ b p, (b, p) ∈ r.2.flatMap (Event.sends (net.peers v)) → Message p) :
    (net.act v r).Meshed := by
  refine ⟨⟨?_, ?_⟩, ?_, fun a b p hp => ?_, fun a b hab => ?_⟩
  · exact forall_nodes_act (P := fun _ m => m.network.isSome) (hnet ▸ h.attached v)
      fun w _ => h.attached w
  · exact forall_nodes_act (P := fun _ m => m.config.enableSync = true) (hconfig ▸ h.enableSync v)
      fun w _ => h.enableSync w
  · exact forall_nodes_act (P := fun _ m => ∀ k e, m.entries.lookup k = some e →
      e.key = k ∧ Readable e) hstored fun w _ => h.stored w
  · rcases underWay_act.mp hp with hp | ⟨-, hp⟩
    · exact h.messages a b p hp
    · exact hsent b p hp
  · rw [peers_act_of_network hnet] at hab ⊢
    exact h.peers_symm a b hab

omit [DecidableEq V] in
theorem Meshed.ghost (h : net.Meshed) (accepted offered : Set StorageEntry) :
    Meshed { net with accepted := accepted, offered := offered } :=
  ⟨⟨h.attached, h.enableSync⟩, h.stored, h.messages, h.peers_symm⟩

section

variable {net : Network V} {v : V} {r : StorageManager V × List (Event V)} {e : StorageEntry}
  (hnet : r.1.network = (net.nodes v).network)
  (hentries : r.1.entries = (net.nodes v).entries.insert e.key e) (hread : Readable e)
  (hsent : r.2.flatMap (Event.sends (net.peers v)) = (net.peers v).map fun w => (w, entryMessage e))

include hsent

include hnet hentries hread

theorem Meshed.publish (h : net.Meshed) (hconfig : r.1.config = (net.nodes v).config) :
    (net.act v r).Meshed := by
  refine h.act hnet hconfig (fun k x hx => ?_) fun b p hp => ?_
  · rw [hentries] at hx
    obtain ⟨rfl, rfl⟩ | ⟨-, hx⟩ := AssocList.lookup_of_insert hx
    · exact ⟨rfl, hread⟩
    · exact h.stored v k x hx
  · rw [hsent, mem_map] at hp
    obtain ⟨w, -, hp⟩ := hp
    rw [← (Prod.mk.inj hp).2]
    exact .entry e hread

theorem publish_refines (hlww : rank stamp ((net.nodes v).entries.lookup e.key) < e.stamp)
    {offered : Set StorageEntry} : Gossip.Step key stamp net.toGossip
      { net.act v r with accepted := insert e net.accepted, offered := offered }.toGossip := by
  refine .publish v e hlww ?_ ?_ ?_ ?_ ?_ ?_ ?_ rfl
  · simp [toGossip, act, hentries]
  · intro w k hwk
    by_cases hw : w = v
    · subst hw
      have hk : k ≠ e.key := hwk.resolve_left fun hn => hn rfl
      simp [toGossip, act, hentries, AList.lookup_insert_ne hk]
    · simp [toGossip, act, hw]
  · rintro a b x ⟨p, hp, hx⟩
    exact ⟨p, (underWay_act_of_sends hsent).mpr (.inl hp), hx⟩
  · rintro a b x ⟨p, hp, hx⟩
    rcases (underWay_act_of_sends hsent).mp hp with hp | ⟨rfl, -, rfl⟩
    · exact .inl ⟨p, hp, hx⟩
    · rw [carried_entryMessage hread, mem_singleton] at hx
      exact .inr ⟨rfl, hx⟩
  · intro w hw
    exact ⟨_, (underWay_act_of_sends hsent).mpr (.inr ⟨rfl, hw, rfl⟩),
      by simp [carried_entryMessage hread]⟩
  · ext a b
    refine (underWay_act_of_sends hsent).trans (or_iff_left ?_)
    rintro ⟨-, -, hp⟩
    exact absurd (cons.inj hp).1 (by decide)
  · ext a b
    simp only [toGossip]
    rw [← peers_act_of_network hnet a]
    rfl

end

theorem put_refines (h : net.Meshed) {key : Bytes} {value : StorageManager.Value} {clock : UInt64}
    (fits : (net.putEntry v key value clock).LengthsFit) : (net.put v key value clock).Meshed ∧
      (Gossip.Step StorageEntry.key StorageEntry.stamp net.toGossip
        (net.put v key value clock).toGossip ∨
        (net.put v key value clock).toGossip = net.toGossip) := by
  obtain ⟨hp, -⟩ | ⟨hkey, hsize, hlww, event, hp⟩ := (net.nodes v).put_cases key value clock
  · rw [put_refused hp]
    exact ⟨h.ghost .., .inr rfl⟩
  set e := net.putEntry v key value clock
  have hp : (net.nodes v).put key value clock = (true, (net.nodes v).commit key e true event) := by
    rw [hp, h.enableSync v]
    rfl
  have hread : Readable e := ⟨fits, verifyChecksum_calculateChecksum _⟩
  have hnet := (net.nodes v).commit_network key e true event
  have hentries := (net.nodes v).commit_entries key e true event
  have hsent := sends_commit (h.attached v) key e event (net.peers v)
  rw [put_accepted hkey hsize (by rw [hp]), hp]
  exact ⟨(h.publish hnet hentries hread hsent (commit_config ..)).ghost ..,
    .inl (publish_refines hnet hentries hread hsent (loses_eq_false_iff.mp hlww))⟩

/-! ## Deliveries -/

section

variable {net : Network V} (h : net.Meshed) {u v : V} {payload : Bytes} {rest : List Bytes}
  (head : net.links u v = payload :: rest)

include h

theorem message_of_handled (hsettled : net.Settled u v payload) {sent : List (V × Bytes)}
    (hs : (net.nodes v).Handled u payload sent) {b : V} {p : Bytes} (hp : (b, p) ∈ sent) :
    Message p := by
  cases hs with
  | forwarded e _ hc =>
    obtain ⟨w, -, heq⟩ := mem_map.mp hp
    rw [← (Prod.mk.inj heq).2]
    exact .entry e (readable_of_mem_carried (show e ∈ carried payload by simp [hc]))
  | dropped => exact absurd hp not_mem_nil
  | answered hreq =>
    rw [if_pos (h.attached v), mem_singleton] at hp
    rw [(Prod.mk.inj hp).2]
    exact .snapshot _ (readable_of_stored (h.stored v)) (hsettled.1 hreq)
  | absorbed => exact absurd hp not_mem_nil

include head

theorem Meshed.setLink_rest : (net.setLink u v rest).Meshed :=
  ⟨⟨h.attached, h.enableSync⟩, h.stored,
    fun a b p hp => h.messages a b p (underWay_of_rest head hp), h.peers_symm⟩

theorem Meshed.receive (hsettled : net.Settled u v payload) :
    (net.receive u v payload rest).Meshed := by
  obtain ⟨hentries, hnetwork, hconfig⟩ := (net.nodes v).onStorageMessage_spec u payload
  refine (h.setLink_rest head).act hnetwork hconfig (fun k e he => ?_) fun b p hp => ?_
  · rw [hentries] at he
    exact forall_lookup_foldl_absorb
      (h.stored v) (fun e he => ⟨rfl, readable_of_mem_carried he⟩) k e he
  · exact message_of_handled h hsettled ((net.nodes v).handled_onStorageMessage u _ payload) hp

omit h head in
theorem entries_receive_self : ((net.receive u v payload rest).nodes v).entries =
    (carried payload).foldl absorb (net.nodes v).entries := by
  rw [nodes_receive_self, ((net.nodes v).onStorageMessage_spec u payload).1]

omit h in
theorem underWay_receive_of {a b : V} {p : Bytes} (hp : net.UnderWay a b p) :
    (net.receive u v payload rest).UnderWay a b p ∨ a = u ∧ b = v ∧ p = payload := by
  rcases underWay_head_or_rest head hp with hp | hp
  · exact .inl (underWay_act.mpr (.inl hp))
  · exact .inr hp

omit h in
/-- A delivery that answers no request: what the receiver adopts it has told the others, or need
not. -/
theorem receive_refines (hne : payload ≠ [opSyncRequest])
    (hsent : ∀ b p, (net.receive u v payload rest).UnderWay v b p → net.UnderWay v b p ∨
      ∃ e, Readable e ∧ p = entryMessage e ∧
        ((net.receive u v payload rest).nodes v).entries.lookup e.key = some e)
    (htold : ∀ e ∈ carried payload, (net.nodes v).loses e.key e = false → ∀ w ∈ net.peers v, w ≠ u →
      e ∈ (net.receive u v payload rest).toGossip.inFlight v w ∨
      e.stamp ≤ rank stamp ((net.nodes w).entries.lookup e.key) ∨
      net.UnderWay w v [opSyncRequest]) :
    Gossip.Step key stamp net.toGossip (net.receive u v payload rest).toGossip := by
  have hway : ∀ a b p, (net.receive u v payload rest).UnderWay a b p → net.UnderWay a b p ∨
      a = v ∧ ∃ e, Readable e ∧ p = entryMessage e ∧
        ((net.receive u v payload rest).nodes v).entries.lookup e.key = some e := by
    intro a b p hp
    by_cases ha : a = v
    · subst ha
      exact (hsent b p hp).imp_right fun he => ⟨rfl, he⟩
    · rcases underWay_receive head hp with hp | ⟨_, _, hav, _⟩
      · exact .inl hp
      · exact absurd hav ha
  refine .receive u v (fun w hw => ?_) (fun k => ?_) ?_ ?_ ?_ ?_ rfl
  · ext1 k
    simp [toGossip, nodes_receive_of_ne net u hw]
  · simp only [toGossip, entries_receive_self]
    rcases lookup_foldl_absorb_cases (carried payload) (net.nodes v).entries k with
      heq | ⟨e, he, rfl, hlt, heq⟩
    · exact .inl heq
    · exact .inr ⟨e, ⟨payload, underWay_head head, he⟩, rfl, hlt, heq,
        htold e he (loses_eq_false_iff.mpr hlt)⟩
  · rintro a b x ⟨p, hp, hx⟩
    rcases underWay_receive_of head hp with hp | ⟨rfl, rfl, rfl⟩
    · exact .inl ⟨p, hp, hx⟩
    · refine .inr ⟨rfl, rfl, ?_⟩
      simp only [toGossip, entries_receive_self]
      exact stamp_le_rank_foldl_absorb hx _
  · rintro a b x ⟨p, hp, hx⟩
    rcases hway a b p hp with hp | ⟨rfl, e, he, rfl, hl⟩
    · exact .inl ⟨p, hp, hx⟩
    · rw [carried_entryMessage he, mem_singleton] at hx
      subst hx
      exact .inr ⟨rfl, hl⟩
  · ext a b
    constructor
    · intro hp
      rcases hway a b _ hp with hp | ⟨-, e, -, heq, -⟩
      · exact hp
      · exact absurd (cons.inj heq).1 (by decide)
    · intro hp
      rcases underWay_receive_of head hp with hp | ⟨-, -, heq⟩
      · exact hp
      · exact absurd heq.symm hne
  · ext a b
    exact (Iff.of_eq (congrArg (b ∈ ·) (net.peers_receive u v a payload rest)))

theorem answer_refines (hreq : payload = [opSyncRequest])
    (hcount : (net.nodes v).entries.entries.length < 2 ^ 32)
    (hway : ∀ a b p, (net.receive u v payload rest).UnderWay a b p ↔
      (net.setLink u v rest).UnderWay a b p ∨
        a = v ∧ b = u ∧ p = snapshotMessage (net.nodes v).entries) :
    Gossip.Step key stamp net.toGossip (net.receive u v payload rest).toGossip := by
  have hread := readable_of_stored (h.stored v)
  have hheld : (net.receive u v payload rest).toGossip.held = net.toGossip.held := by
    ext1 w
    ext1 k
    simp only [toGossip]
    by_cases hw : w = v
    · subst hw
      rw [entries_receive_self, hreq, carried_syncRequest, foldl_nil]
    · rw [nodes_receive_of_ne net u hw]
  refine .answer u v hheld ?_ ?_ ?_ ?_ ?_ rfl
  · rintro a b x ⟨p, hp, hx⟩
    rcases underWay_receive_of head hp with hp | ⟨-, -, rfl⟩
    · exact ⟨p, hp, hx⟩
    · simp [hreq, carried_syncRequest] at hx
  · rintro a b x ⟨p, hp, hx⟩
    rcases (hway a b p).mp hp with hp | ⟨rfl, -, rfl⟩
    · exact .inl ⟨p, underWay_of_rest head hp, hx⟩
    · obtain ⟨k, hk⟩ := mem_of_mem_carried_snapshotMessage hread hx
      exact .inr ⟨rfl, (h.stored a k x hk).1 ▸ hk⟩
  · intro k m hm
    refine ⟨_, (hway v u _).mpr (.inr ⟨rfl, rfl, rfl⟩), ?_⟩
    rw [carried_snapshotMessage hread, Nat.mod_eq_of_lt hcount, take_of_length_le (by simp)]
    exact mem_map_of_mem (of_mem_dlookup hm)
  · intro a b hp
    rcases underWay_receive_of head hp with hp | ⟨ha, hb, -⟩
    · exact .inl hp
    · exact .inr ⟨ha, hb⟩
  · ext a b
    exact (Iff.of_eq (congrArg (b ∈ ·) (net.peers_receive u v a payload rest)))

/-- **A settled delivery is a step of the gossip.** -/
theorem deliver_refines (hsettled : net.Settled u v payload) : Gossip.Step key stamp net.toGossip
      (net.receive u v payload rest).toGossip := by
  have hmessage := h.messages u v payload (underWay_head head)
  obtain ⟨sent, hs, hway⟩ : ∃ sent, (net.nodes v).Handled u payload sent ∧
      ∀ a b p, (net.receive u v payload rest).UnderWay a b p ↔
        (net.setLink u v rest).UnderWay a b p ∨ a = v ∧ (b, p) ∈ sent :=
    ⟨_, (net.nodes v).handled_onStorageMessage u _ payload, fun a b p => underWay_act⟩
  have hold : ∀ b p, (b, p) ∉ sent → (net.receive u v payload rest).UnderWay v b p →
      net.UnderWay v b p := by
    intro b p hp hq
    rcases (hway v b p).mp hq with hq | ⟨-, hq⟩
    · exact underWay_of_rest head hq
    · exact absurd hq hp
  cases hs with
  | forwarded e hhead hc hwins =>
    have he : Readable e := readable_of_mem_carried (show e ∈ carried payload by simp [hc])
    refine receive_refines head (by rintro rfl; exact absurd hhead (by decide)) (fun b p hp => ?_)
      fun x hx _ w hw hne => .inl ?_
    · rcases (hway v b p).mp hp with hp | ⟨-, hp⟩
      · exact .inl (underWay_of_rest head hp)
      · obtain ⟨w, -, heq⟩ := mem_map.mp hp
        refine .inr ⟨e, he, (Prod.mk.inj heq).2.symm, ?_⟩
        rw [entries_receive_self, hc, foldl_cons, foldl_nil,
          absorb_of_wins hwins, AList.lookup_insert]
    · rw [hc, mem_singleton] at hx
      subst hx
      refine ⟨_, (hway v w _).mpr (.inr ⟨rfl, mem_map_of_mem ?_⟩), ?_⟩
      · exact mem_filter.mpr ⟨hw, by simpa using hne⟩
      · simp [carried_entryMessage he]
  | dropped hhead hloses =>
    refine receive_refines head (by rintro rfl; exact absurd hhead (by decide))
      (fun b p hp => .inl (hold b p not_mem_nil hp)) fun x hx hwins => ?_
    rw [hloses x hx] at hwins
    exact absurd hwins (by decide)
  | answered hhead =>
    have hreq : payload = [opSyncRequest] := by
      cases hmessage with
      | request => rfl
      | entry | snapshot => exact absurd (Option.some_inj.mp hhead) (by decide)
    refine answer_refines h head hreq (hsettled.1 hhead) fun a b p => ?_
    rw [hway a b p, if_pos (h.attached v), mem_singleton, Prod.mk.injEq]
  | absorbed hhead hhead' =>
    have hresp : payload.head? = some opSyncResponse := by
      cases hmessage with
      | entry => exact absurd rfl hhead
      | request => exact absurd rfl hhead'
      | snapshot => rfl
    refine receive_refines head (by rintro rfl; exact hhead' rfl)
      (fun b p hp => .inl (hold b p not_mem_nil hp)) fun x hx hwins w hw hne => .inr ?_
    exact hsettled.2 hresp x hx hwins w hw hne

end

/-! ## Convergence -/

theorem step_gossips (h : net.Meshed) {a : Action V} (henabled : net.Enabled a)
    (hok : net.LateLinks a) : (net.perform a).Meshed ∧
      (Gossip.Step StorageEntry.key StorageEntry.stamp net.toGossip (net.perform a).toGossip ∨
        (net.perform a).toGossip = net.toGossip) := by
  cases a with
  | put v key value clock => exact put_refines h henabled
  | remove | clear | compact => exact absurd hok.growing Bool.false_ne_true
  | linkUp u v => exact ⟨h.linkUp u v, .inl (linkUp_refines h u v)⟩
  | send u v payload =>
    have hway : ∀ a b p, (net.transmit u v payload).UnderWay a b p ↔ net.UnderWay a b p :=
      fun a b p => underWay_transmit henabled
    refine ⟨⟨⟨h.attached, h.enableSync⟩, h.stored,
      fun a b p hp => h.messages a b p ((hway a b p).mp hp), h.peers_symm⟩, .inr ?_⟩
    simp only [perform, toGossip, hway]
    rfl
  | deliver u v =>
    cases hl : net.links u v with
    | nil => exact absurd hl henabled
    | cons payload rest =>
      have hsettled := hok.settled u v payload rest rfl hl
      simp only [perform, hl]
      exact ⟨h.receive hl hsettled, .inl (deliver_refines h hl hsettled)⟩

theorem run_gossips {net₀ : Network V} (h : net₀.Meshed) (run : Reaches LateLinks net₀ net) :
    net.Meshed ∧ Relation.ReflTransGen (Gossip.Step key stamp) net₀.toGossip net.toGossip := by
  induction run with
  | start => exact ⟨h, .refl⟩
  | step run a henabled hok ih =>
    obtain ⟨hmeshed, hsteps⟩ := ih
    obtain ⟨hmeshed', hstep | heq⟩ := step_gossips hmeshed henabled hok
    · exact ⟨hmeshed', hsteps.tail hstep⟩
    · exact ⟨hmeshed', heq ▸ hsteps⟩

omit [DecidableEq V] in
theorem Unlinked.invariant (h : net.Unlinked) : Gossip.Invariant key stamp net.toGossip := by
  have hway : ∀ a b p, ¬ net.UnderWay a b p := by
    intro a b p hp
    simp [UnderWay, h.quiescent.1, h.quiescent.2] at hp
  refine ⟨fun v k e he => (h.stored v k e he).1, fun v k e he => ?_, ?_, ?_, ?_⟩
  · rw [toGossip, h.accepted]
    exact ⟨v, k, he⟩
  · rintro a b e ⟨p, hp, -⟩
    exact absurd hp (hway a b p)
  · rintro a b e ⟨p, hp, -⟩
    exact absurd hp (hway a b p)
  · intro a b k e hab
    simp [toGossip, h.no_peers] at hab

/-- **Convergence over late links.** Once no message is under way, nodes joined by a path hold the
same entry for every key, if every delivery was settled. -/
theorem lateLinks_converge {net₀ net : Network V} (h : net₀.Unlinked)
    (run : Reaches LateLinks net₀ net) (huniq : net.StampsUnique) (hq : net.Quiescent) {a b : V}
    (hpath : Relation.ReflTransGen (fun x y => y ∈ net.peers x) a b) (k : Bytes) :
    (net.nodes a).entries.lookup k = (net.nodes b).entries.lookup k := by
  obtain ⟨hmeshed, hsteps⟩ := run_gossips h.toMeshed run
  have inv := h.invariant.run hsteps
  have hway : ∀ a b p, ¬ net.UnderWay a b p := by
    intro a b p hp
    simp [UnderWay, hq.1, hq.2] at hp
  have hback : Relation.ReflTransGen (fun x y => y ∈ net.peers x) b a :=
    Relation.ReflTransGen.mono (fun x y => hmeshed.peers_symm y x) _ _
      (Relation.reflTransGen_swap.mpr hpath)
  refine inv.quiescent (fun a b => ?_) (fun a b hw => hway a b _ hw)
    (fun e he e' he' hk hst => huniq e he e' he' hk (stamp_inj hst).1 (stamp_inj hst).2) hpath hback k
  rw [Set.eq_empty_iff_forall_notMem]
  rintro e ⟨p, hp, -⟩
  exact hway a b p hp

omit [DecidableEq V] in
theorem apart_unlinked (id : V → Bytes) : (apart id).Unlinked where
  attached _ := rfl
  enableSync _ := rfl
  stored v k e h := by simp [apart] at h
  messages u v p h := by simp [apart, UnderWay] at h
  peers_symm u v h := by simp [apart, peers] at h
  quiescent := ⟨fun _ => rfl, fun _ _ => rfl⟩
  no_peers _ := rfl
  accepted := by simp [apart]

theorem stampsUnique_of_one_put {id : V → Bytes} (v : V) (key : Bytes) (value : StorageManager.Value)
    (clock : UInt64) {actions : List (Action V)} (h : ∀ a ∈ actions, Silent a = true) :
    ((apart id).performAll (.put v key value clock :: actions)).StampsUnique := by
  intro e he e' he' _ _ _
  change e ∈ (((apart id).put v key value clock).performAll actions).accepted at he
  change e' ∈ (((apart id).put v key value clock).performAll actions).accepted at he'
  rw [accepted_performAll h] at he he'
  have hone : ∀ x ∈ ((apart id).put v key value clock).accepted,
      x = (apart id).putEntry v key value clock := by
    rintro x (hx | ⟨-, hx⟩)
    · exact absurd hx (Set.notMem_empty x)
    · exact hx
  rw [hone e he, hone e' he']

/-! ## A line of three nodes -/

/-- Three nodes without links. -/
def three : Network (Fin 3) := apart fun v => [97 + UInt8.ofNat v.val]

/-- The request and the snapshots of the nodes that hold nothing. -/
def noEntries : Bytes := snapshotMessage ∅

/-- Two nodes, the second of them empty, exchange snapshots over a new link. -/
def exchange (u v : Fin 3) (held : Bytes) : List (Action (Fin 3)) :=
  [.linkUp u v, .send u v [opSyncRequest], .deliver u v, .send v u [opSyncRequest], .deliver v u,
    .send v u noEntries, .deliver v u, .send u v held, .deliver u v]

/-- The first node puts an entry; the link between the other two comes up, then that to the first.
-/
def lineActions : List (Action (Fin 3)) :=
  .put 0 [107] (.string [118]) 1000 :: (exchange 1 2 noEntries ++
    exchange 0 1 (snapshotMessage (((three.put 0 [107] (.string [118]) 1000).nodes 0).entries)))

/-- The line once all messages were delivered. -/
def line : Network (Fin 3) := three.performAll lineActions

/-- The far end of the line never gets the entry of the first node. -/
theorem line_diverges : three.Unlinked ∧ Reaches (fun _ a => Growing a = true) three line ∧
    line.StampsUnique ∧ line.Quiescent ∧ Relation.ReflTransGen (fun x y => y ∈ line.peers x) 0 2 ∧
    (line.nodes 0).entries.lookup [107] ≠ (line.nodes 2).entries.lookup [107] := by
  refine ⟨apart_unlinked _, Reaches.start.performAll (by decide +kernel),
    stampsUnique_of_one_put 0 _ _ _ (by decide), ⟨by decide +kernel, by decide +kernel⟩, ?_,
    by decide +kernel⟩
  exact .tail (.single (show (1 : Fin 3) ∈ line.peers 0 by decide +kernel))
    (show (2 : Fin 3) ∈ line.peers 1 by decide +kernel)

omit [DecidableEq V] in
theorem lateLinks_of_one_peer {u : V} (hpeers : ∀ w ∈ net.peers v, w = u)
    (hcount : (net.nodes v).entries.entries.length < 2 ^ 32) : net.LateLinks (.deliver u v) := by
  refine ⟨rfl, fun u' v' payload rest ha _ => ?_⟩
  obtain ⟨rfl, rfl⟩ := Action.deliver.inj ha
  exact ⟨fun _ => hcount, fun _ e _ _ w hw hne => absurd (hpeers w hw) hne⟩

/-- The first node puts an entry, then the link to the second comes up. -/
def lateActions : List (Action (Fin 3)) :=
  .put 0 [107] (.string [118]) 1000 ::
    exchange 0 1 (snapshotMessage (((three.put 0 [107] (.string [118]) 1000).nodes 0).entries))

theorem lateActions_follow : three.Follows LateLinks lateActions := by
  have put {net : Network (Fin 3)} {v key value clock} : net.LateLinks (.put v key value clock) :=
    ⟨rfl, nofun⟩
  have linkUp {net : Network (Fin 3)} {u v} : net.LateLinks (.linkUp u v) :=
    ⟨rfl, nofun⟩
  have send {net : Network (Fin 3)} {u v p} : net.LateLinks (.send u v p) :=
    ⟨rfl, nofun⟩
  exact ⟨by decide, put, by decide +kernel, linkUp, by decide +kernel, send, by decide +kernel,
    lateLinks_of_one_peer (by decide +kernel) (by decide +kernel), by decide +kernel, send,
    by decide +kernel, lateLinks_of_one_peer (by decide +kernel) (by decide +kernel),
    by decide +kernel, send, by decide +kernel,
    lateLinks_of_one_peer (by decide +kernel) (by decide +kernel), by decide +kernel, send,
    by decide +kernel, lateLinks_of_one_peer (by decide +kernel) (by decide +kernel), trivial⟩

/-- The second node gets the entry in its snapshot. -/
theorem lateLinks_converge_two : Reaches LateLinks three (three.performAll lateActions) ∧
    ((three.performAll lateActions).nodes 0).entries.lookup [107] =
      ((three.performAll lateActions).nodes 1).entries.lookup [107] := by
  have run : Reaches LateLinks three (three.performAll lateActions) :=
    Reaches.start.performAll lateActions_follow
  exact ⟨run, lateLinks_converge (apart_unlinked _) run
    (stampsUnique_of_one_put 0 _ _ _ (by decide)) ⟨by decide +kernel, by decide +kernel⟩
    (.single (show (1 : Fin 3) ∈ (three.performAll lateActions).peers 0 by decide +kernel)) [107]⟩

end Network

end Librats.Storage
