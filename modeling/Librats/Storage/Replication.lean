import Mathlib.Combinatorics.SimpleGraph.Connectivity.Connected
import Librats.Foundations.Gossip
import Librats.Storage.Manager

/-!
# Replication over a fixed network

Managers on the nodes of a connected graph, with an in-order link in each direction of every edge.
Messages wait in the outbox of their node, from where they enter the links in any order. No link
comes up or goes down. The network refines `Flood` (`step_refines`).
-/

namespace Librats.Storage

open List Function StorageManager StorageEntry

variable {V : Type}

/-! ## Messages -/

/-- The messages an event hands to the network, at a node with these peers. -/
def Event.sends (peers : List V) : Event V → List (V × Bytes)
  | .broadcast payload => peers.map fun v => (v, payload)
  | .send v payload => [(v, payload)]
  | .stored _ _ _ => []
  | .notified _ => []
  | .syncCompleted _ => []

variable {e : StorageEntry} {m : StorageManager V}

theorem entryMessage_injective {e' : StorageEntry} (h : e.Fits) (h' : e'.Fits)
    (heq : entryMessage e = entryMessage e') : e = e' := by
  have hr := deserialize_serialize h [] []
  have hr' := deserialize_serialize h' [] []
  rw [(List.cons.inj heq).2, hr', Option.some_inj] at hr
  exact (Prod.mk.inj hr).1.symm

theorem commit_trace (hnet : m.network.isSome) (key : Bytes) (e : StorageEntry)
    (event : StorageChangeEvent) : (m.commit key e true event).2 =
      [.stored key (m.entries.lookup key) e, .broadcast (entryMessage e), .notified event] := by
  obtain ⟨n, hn⟩ := Option.isSome_iff_exists.mp hnet
  simp [commit, write, markDirty, broadcastEntry, hn]

theorem sends_commit (hnet : m.network.isSome) (key : Bytes) (e : StorageEntry)
    (event : StorageChangeEvent) (l : List V) :
    (m.commit key e true event).2.flatMap (Event.sends l) = l.map fun v => (v, entryMessage e) := by
  simp [commit_trace hnet, Event.sends]

theorem loses_eq_false_iff {key : Bytes} :
    m.loses key e = false ↔ Flood.rank stamp (m.entries.lookup key) < e.stamp := by
  rw [loses_eq_false]
  cases m.entries.lookup key with
  | none => simp [Flood.rank]
  | some old => simp [Flood.rank, winsOver_iff_stamp_lt]

theorem le_rank_of_loses {key : Bytes} (h : m.loses key e = true) :
    e.stamp ≤ Flood.rank stamp (m.entries.lookup key) := by
  by_contra hlt
  rw [loses_eq_false_iff.mpr (not_le.mp hlt)] at h
  exact Bool.false_ne_true h

/-! ## The network -/

/-- The managers, the messages not yet sent, and the links. `accepted` are the entries started with
and those of successful puts, `offered` also those of puts that lost. -/
structure Network (V : Type) where
  nodes : V → StorageManager V
  outbox : V → List (V × Bytes)
  links : V → V → List Bytes
  accepted : Set StorageEntry
  offered : Set StorageEntry

namespace Network

variable [DecidableEq V] (net : Network V)

/-- The connected peers of a node. -/
def peers (v : V) : List V :=
  match (net.nodes v).network with
  | none => []
  | some n => n.connectedPeers

/-- A call at `v` that left a manager and a trace. -/
def act (v : V) (r : StorageManager V × List (Event V)) : Network V :=
  { net with
    nodes := Function.update net.nodes v r.1
    outbox := Function.update net.outbox v
      (net.outbox v ++ r.2.flatMap (Event.sends (net.peers v))) }

section

variable (v : V) (key : Bytes) (value : StorageManager.Value)

/-- The entry of a put. -/
def putEntry (clock : UInt64) : StorageEntry :=
  (net.nodes v).newEntry key value.type value.serialize 0 [] clock

/-- A put at `v`. -/
def put (clock : UInt64) : Network V :=
  let r := (net.nodes v).put key value clock
  { net.act v r.2 with
    accepted := { x | x ∈ net.accepted ∨ r.1 = true ∧ x = net.putEntry v key value clock }
    offered := { x | x ∈ net.offered ∨ key ≠ [] ∧
      value.serialize.length ≤ (net.nodes v).config.maxValueSize ∧
      x = net.putEntry v key value clock } }

end

/-- The link from `u` to `v` changed. -/
def setLink (u v : V) (l : List Bytes) : Network V :=
  { net with links := Function.update net.links u (Function.update (net.links u) v l) }

/-- A message of the outbox of `u` enters its link. -/
def transmit (u v : V) (payload : Bytes) : Network V :=
  { net.setLink u v (net.links u v ++ [payload]) with
    outbox := Function.update net.outbox u ((net.outbox u).erase (v, payload)) }

/-- The steps of the network. The links carry every message, so an entry that is put is short
enough for one. -/
inductive Step (net : Network V) : Network V → Prop
  | put (v : V) (key : Bytes) (value : StorageManager.Value) (clock : UInt64)
      (fits : (net.putEntry v key value clock).Fits) : Step net (net.put v key value clock)
  | send (u v : V) (payload : Bytes) (mem : (v, payload) ∈ net.outbox u) :
      Step net (net.transmit u v payload)
  | deliver (u v : V) (payload : Bytes) (rest : List Bytes) (head : net.links u v = payload :: rest) :
      Step net ((net.setLink u v rest).act v ((net.nodes v).onStorageMessage u payload))

/-- No message is under way. -/
def Quiescent : Prop :=
  (∀ v, net.outbox v = []) ∧ ∀ u v, net.links u v = []

/-- An entry that can be sent and will be taken by whoever gets it. -/
def Sound (e : StorageEntry) : Prop := e.Fits ∧ e.verifyChecksum = true

/-- The network on the graph `G`: the peers of a node are its neighbours, every manager replicates,
and stores and messages are sound. -/
structure Wf (G : SimpleGraph V) (net : Network V) : Prop where
  attached : ∀ v, (net.nodes v).network.isSome
  mem_peers : ∀ u v, v ∈ net.peers u ↔ G.Adj u v
  enableSync : ∀ v, (net.nodes v).config.enableSync = true
  stored : ∀ v k e, (net.nodes v).entries.lookup k = some e → e.key = k ∧ Sound e
  outbox : ∀ u v p, (v, p) ∈ net.outbox u → ∃ e, Sound e ∧ p = entryMessage e
  links : ∀ u v p, p ∈ net.links u v → ∃ e, Sound e ∧ p = entryMessage e

/-- The start: the links are empty, and what the nodes hold is on its way to their peers. -/
structure Initial (G : SimpleGraph V) (net : Network V) : Prop extends Wf G net where
  links_nil : ∀ u v, net.links u v = []
  mem_outbox : ∀ u v p, (v, p) ∈ net.outbox u ↔
    G.Adj u v ∧ ∃ k e, (net.nodes u).entries.lookup k = some e ∧ p = entryMessage e
  accepted : net.accepted = { e | ∃ v k, (net.nodes v).entries.lookup k = some e }
  offered : net.offered = net.accepted

/-! ## Calls in a sound network -/

variable {u v a b : V} {key payload : Bytes} {value : StorageManager.Value}
    {clock : UInt64}

theorem onStorageMessage_entry (he : Sound e) (m : StorageManager V) (u : V) :
    m.loses e.key e = true ∧ m.onStorageMessage u (entryMessage e) = (m, []) ∨
    m.loses e.key e = false ∧ ∃ m' event, m.onStorageMessage u (entryMessage e) =
        (m', .stored e.key (m.entries.lookup e.key) e :: .notified event :: m.forwardEntry e u) ∧
      m'.entries = m.entries.insert e.key e ∧ m'.network = m.network ∧ m'.config = m.config := by
  have hd := deserialize_serialize he.1 [] []
  simp only [nil_append, append_nil, length_nil] at hd
  simp only [onStorageMessage, entryMessage, if_true, onEntry, hd, he.2]
  obtain ⟨hl, ha⟩ | ⟨hl, event, ha⟩ := m.applyRemoteEntry_cases e
  · exact .inl ⟨hl, by simp [ha]⟩
  · refine .inr ⟨hl, ?_⟩
    simp only [ha]
    exact ⟨_, event, rfl, rfl, rfl, rfl⟩

theorem sends_forwardEntry (v u : V) (e : StorageEntry) (l : List V) :
    ((net.nodes v).forwardEntry e u).flatMap (Event.sends l) =
      ((net.peers v).filter (· ≠ u)).map fun w => (w, entryMessage e) := by
  unfold forwardEntry peers
  cases (net.nodes v).network with
  | none => rfl
  | some n => rw [flatMap_map, map_eq_flatMap]; rfl

/-! ## Messages under way -/

/-- A message on its way from `u` to `v`. -/
def UnderWay (net : Network V) (u v : V) (p : Bytes) : Prop :=
  (v, p) ∈ net.outbox u ∨ p ∈ net.links u v

section

variable {net : Network V} {p : Bytes} {rest : List Bytes}

section

variable {r : StorageManager V × List (Event V)}

theorem underWay_act : (net.act v r).UnderWay a b p ↔
      net.UnderWay a b p ∨ a = v ∧ (b, p) ∈ r.2.flatMap (Event.sends (net.peers v)) := by
  by_cases ha : a = v
  · subst ha
    simp only [UnderWay, act, update_self, mem_append, true_and]
    exact or_right_comm
  · simp [UnderWay, act, ha]

theorem forall_nodes_act {P : V → StorageManager V → Prop}
    (hself : P v r.1) (hother : ∀ w, w ≠ v → P w (net.nodes w)) (w : V) :
    P w ((net.act v r).nodes w) := by
  by_cases hw : w = v
  · subst hw
    simpa [act] using hself
  · simpa [act, hw] using hother w hw

theorem underWay_act_of_sends {targets : List V}
    (hsent : r.2.flatMap (Event.sends (net.peers v)) = targets.map fun w => (w, entryMessage e)) :
    (net.act v r).UnderWay a b p ↔
      net.UnderWay a b p ∨ a = v ∧ b ∈ targets ∧ p = entryMessage e := by
  rw [underWay_act, hsent]
  simp only [mem_map, Prod.mk.injEq]
  refine or_congr_right (and_congr_right fun _ => ⟨?_, ?_⟩)
  · rintro ⟨w, hw, rfl, rfl⟩
    exact ⟨hw, rfl⟩
  · rintro ⟨hb, rfl⟩
    exact ⟨b, hb, rfl, rfl⟩

theorem peers_act_of_network
    (hnet : r.1.network = (net.nodes v).network) (w : V) : (net.act v r).peers w = net.peers w := by
  by_cases hw : w = v
  · subst hw
    simp [peers, act, hnet]
  · simp [peers, act, hw]

end

theorem mem_setLink {l : List Bytes} : p ∈ (net.setLink u v l).links a b ↔
      a = u ∧ b = v ∧ p ∈ l ∨ ¬ (a = u ∧ b = v) ∧ p ∈ net.links a b := by
  by_cases ha : a = u
  · subst ha
    by_cases hb : b = v
    · subst hb
      simp [setLink]
    · simp [setLink, hb]
  · simp [setLink, ha]

theorem underWay_of_rest (head : net.links u v = payload :: rest)
    (h : (net.setLink u v rest).UnderWay a b p) : net.UnderWay a b p := by
  rcases h with h | h
  · exact .inl h
  rcases mem_setLink.mp h with ⟨rfl, rfl, hp⟩ | ⟨-, hp⟩
  · exact .inr (head ▸ .tail _ hp)
  · exact .inr hp

theorem underWay_head_or_rest (head : net.links u v = payload :: rest) (h : net.UnderWay a b p) :
    (net.setLink u v rest).UnderWay a b p ∨ a = u ∧ b = v ∧ p = payload := by
  rcases h with h | h
  · exact .inl (.inl h)
  by_cases hab : a = u ∧ b = v
  · obtain ⟨rfl, rfl⟩ := hab
    rw [head, mem_cons] at h
    rcases h with rfl | h
    · exact .inr ⟨rfl, rfl, rfl⟩
    · exact .inl (.inr (mem_setLink.mpr (.inl ⟨rfl, rfl, h⟩)))
  · exact .inl (.inr (mem_setLink.mpr (.inr ⟨hab, h⟩)))

end

/-! ## The abstract flood -/

/-- The network with its messages read as entries. -/
def toFlood : Flood.State V Bytes StorageEntry where
  held v k := (net.nodes v).entries.lookup k
  inFlight u v := { e | Sound e ∧ ((v, entryMessage e) ∈ net.outbox u ∨
    entryMessage e ∈ net.links u v) }
  accepted := net.accepted
  offered := net.offered

omit [DecidableEq V] in
theorem Wf.underWay {G : SimpleGraph V} {net : Network V} (wf : net.Wf G) {p : Bytes}
    (hp : net.UnderWay u v p) : ∃ e, Sound e ∧ p = entryMessage e :=
  hp.elim (wf.outbox u v p) (wf.links u v p)

/-- A call at `v` stored the entry `e` and sends it to `targets`. -/
structure StoresAndSends (net : Network V) (v : V) (e : StorageEntry) (targets : List V)
    (r : StorageManager V × List (Event V)) : Prop where
  sound : Sound e
  entries : r.1.entries = (net.nodes v).entries.insert e.key e
  network : r.1.network = (net.nodes v).network
  config : r.1.config = (net.nodes v).config
  sends : r.2.flatMap (Event.sends (net.peers v)) = targets.map fun w => (w, entryMessage e)

section

variable {net : Network V} {v : V} {e : StorageEntry} {targets : List V}
  {r : StorageManager V × List (Event V)} (h : net.StoresAndSends v e targets r)

include h

theorem StoresAndSends.lookup_self : ((net.act v r).nodes v).entries.lookup e.key = some e := by
  simp [act, h.entries]

theorem StoresAndSends.lookup_other {w : V} {k : Bytes} (hne : w ≠ v ∨ k ≠ e.key) :
    ((net.act v r).nodes w).entries.lookup k = (net.nodes w).entries.lookup k := by
  by_cases hw : w = v
  · subst hw
    have hk : k ≠ e.key := hne.resolve_left (fun hn => hn rfl)
    simp [act, h.entries, AList.lookup_insert_ne hk]
  · simp [act, update_of_ne hw]

theorem StoresAndSends.wf {G : SimpleGraph V} (wf : net.Wf G) : (net.act v r).Wf G where
  attached := forall_nodes_act (P := fun _ m => m.network.isSome) (h.network ▸ wf.attached v)
    fun w _ => wf.attached w
  mem_peers u w := by
    rw [peers_act_of_network h.network]
    exact wf.mem_peers u w
  enableSync := forall_nodes_act (P := fun _ m => m.config.enableSync = true)
    (h.config ▸ wf.enableSync v) fun w _ => wf.enableSync w
  stored w k x hx := by
    by_cases hne : w = v ∧ k = e.key
    · obtain ⟨rfl, rfl⟩ := hne
      rw [h.lookup_self, Option.some_inj] at hx
      subst hx
      exact ⟨rfl, h.sound⟩
    · rw [h.lookup_other (not_and_or.mp hne)] at hx
      exact wf.stored w k x hx
  outbox u w p hp := by
    obtain hp | ⟨-, -, rfl⟩ := (underWay_act_of_sends h.sends).mp (.inl hp)
    · exact wf.underWay hp
    · exact ⟨e, h.sound, rfl⟩
  links := wf.links

theorem StoresAndSends.mem_inFlight {a b : V} {x : StorageEntry} :
    x ∈ (net.act v r).toFlood.inFlight a b ↔
      x ∈ net.toFlood.inFlight a b ∨ a = v ∧ b ∈ targets ∧ x = e := by
  constructor
  · rintro ⟨hx, hp⟩
    obtain hp | ⟨rfl, hb, hp⟩ := (underWay_act_of_sends h.sends).mp hp
    · exact .inl ⟨hx, hp⟩
    · exact .inr ⟨rfl, hb, entryMessage_injective hx.1 h.sound.1 hp⟩
  · rintro (⟨hx, hp⟩ | ⟨rfl, hb, rfl⟩)
    · exact ⟨hx, (underWay_act_of_sends h.sends).mpr (.inl hp)⟩
    · exact ⟨h.sound, (underWay_act_of_sends h.sends).mpr (.inr ⟨rfl, hb, rfl⟩)⟩

end

/-! ## Refinement -/

variable {G : SimpleGraph V} {net net' : Network V} {event : StorageChangeEvent}

theorem deliver_stored (he : Sound e) {m' : StorageManager V}
    {r : StorageManager V × List (Event V)}
    (hr : r = (m', .stored e.key ((net.nodes v).entries.lookup e.key) e :: .notified event ::
      (net.nodes v).forwardEntry e u))
    (hentries : m'.entries = (net.nodes v).entries.insert e.key e)
    (hnetwork : m'.network = (net.nodes v).network) (hconfig : m'.config = (net.nodes v).config) :
    net.StoresAndSends v e ((net.peers v).filter (· ≠ u)) r := by
  subst hr
  exact ⟨he, hentries, hnetwork, hconfig, sends_forwardEntry ..⟩

theorem act_unchanged (net : Network V) (v : V) : net.act v (net.nodes v, []) = net := by
  simp [act]

theorem setLink_wf (wf : net.Wf G) {l : List Bytes}
    (hl : ∀ p ∈ l, ∃ e, Sound e ∧ p = entryMessage e) : (net.setLink u v l).Wf G where
  attached := wf.attached
  mem_peers := wf.mem_peers
  enableSync := wf.enableSync
  stored := wf.stored
  outbox := wf.outbox
  links a b p hp := by
    obtain ⟨-, -, hp⟩ | ⟨-, hp⟩ := mem_setLink.mp hp
    · exact hl p hp
    · exact wf.links a b p hp

omit [DecidableEq V] in
theorem Wf.ghost (wf : net.Wf G) (accepted offered : Set StorageEntry) :
    Wf G { net with accepted := accepted, offered := offered } :=
  ⟨wf.attached, wf.mem_peers, wf.enableSync, wf.stored, wf.outbox, wf.links⟩

theorem put_refused (h : (net.nodes v).put key value clock = (false, net.nodes v, [])) :
    net.put v key value clock = { net with
      offered := { x | x ∈ net.offered ∨ key ≠ [] ∧
        value.serialize.length ≤ (net.nodes v).config.maxValueSize ∧
        x = net.putEntry v key value clock } } := by
  simp [put, h, act_unchanged]

theorem put_accepted (hkey : key ≠ [])
    (hsize : value.serialize.length ≤ (net.nodes v).config.maxValueSize)
    (h : ((net.nodes v).put key value clock).1 = true) :
    net.put v key value clock = { net.act v ((net.nodes v).put key value clock).2 with
      accepted := insert (net.putEntry v key value clock) net.accepted
      offered := insert (net.putEntry v key value clock) net.offered } := by
  have hinsert : ∀ (A : Set StorageEntry) (e : StorageEntry),
      { x | x ∈ A ∨ x = e } = insert e A := by
    intro A e
    ext x
    exact or_comm
  simp [put, h, hkey, hsize, hinsert]

theorem step_put_refused (wf : net.Wf G)
    (h : (net.nodes v).put key value clock = (false, net.nodes v, []))
    (hloses : key ≠ [] → value.serialize.length ≤ (net.nodes v).config.maxValueSize →
      (net.nodes v).loses key (net.putEntry v key value clock) = true) :
    (net.put v key value clock).Wf G ∧
      (Flood.Step StorageEntry.key StorageEntry.stamp G.Adj net.toFlood
        (net.put v key value clock).toFlood ∨
        (net.put v key value clock).toFlood = net.toFlood) := by
  rw [put_refused h]
  refine ⟨wf.ghost .., ?_⟩
  by_cases hok : key ≠ [] ∧ value.serialize.length ≤ (net.nodes v).config.maxValueSize
  · refine .inl (.reject v (net.putEntry v key value clock)
      (le_rank_of_loses (hloses hok.1 hok.2)) rfl rfl rfl ?_)
    ext x
    simp [toFlood, hok.1, hok.2, or_comm]
  · right
    rw [not_and] at hok
    simp only [toFlood, Flood.State.mk.injEq, true_and]
    ext x
    simp only [Set.mem_ofPred_eq, or_iff_left_iff_imp]
    exact fun hx => absurd hx.2.1 (hok hx.1)

theorem step_put_accepted (wf : net.Wf G) (fits : (net.putEntry v key value clock).Fits)
    (hkey : key ≠ []) (hsize : value.serialize.length ≤ (net.nodes v).config.maxValueSize)
    (hlww : (net.nodes v).loses key (net.putEntry v key value clock) = false)
    (h : (net.nodes v).put key value clock =
      (true, (net.nodes v).commit key (net.putEntry v key value clock)
        (net.nodes v).config.enableSync event)) :
    (net.put v key value clock).Wf G ∧ Flood.Step StorageEntry.key StorageEntry.stamp G.Adj
      net.toFlood (net.put v key value clock).toFlood := by
  have hs : net.StoresAndSends v (net.putEntry v key value clock) (net.peers v)
      ((net.nodes v).put key value clock).2 := by
    rw [h, wf.enableSync v]
    exact ⟨⟨fits, verifyChecksum_calculateChecksum _⟩,
      commit_entries .., commit_network ..,
      commit_config .., sends_commit (wf.attached v) ..⟩
  rw [put_accepted hkey hsize (by rw [h])]
  refine ⟨(hs.wf wf).ghost .., .publish v (net.putEntry v key value clock)
    ⟨loses_eq_false_iff.mp hlww, hs.lookup_self, fun w k => hs.lookup_other, fun a b x hx => ?_⟩
    (fun a b x hx => hs.mem_inFlight.mpr (.inl hx)) (fun w hw => hs.mem_inFlight.mpr
      (.inr ⟨rfl, (wf.mem_peers v w).mpr hw, rfl⟩)) rfl rfl⟩
  rcases hs.mem_inFlight.mp hx with hx | ⟨rfl, -, rfl⟩
  · exact .inl hx
  · exact .inr ⟨rfl, rfl⟩

theorem step_put (wf : net.Wf G) (fits : (net.putEntry v key value clock).Fits) :
    (net.put v key value clock).Wf G ∧
      (Flood.Step StorageEntry.key StorageEntry.stamp G.Adj net.toFlood
        (net.put v key value clock).toFlood ∨
        (net.put v key value clock).toFlood = net.toFlood) := by
  obtain ⟨hp, hloses⟩ | ⟨hkey, hsize, hlww, event, hp⟩ := (net.nodes v).put_cases key value clock
  · exact step_put_refused wf hp hloses
  · obtain ⟨hwf, hstep⟩ := step_put_accepted wf fits hkey hsize hlww hp
    exact ⟨hwf, .inl hstep⟩

theorem underWay_transmit (mem : (v, payload) ∈ net.outbox u) {p : Bytes} :
    (net.transmit u v payload).UnderWay a b p ↔ net.UnderWay a b p := by
  have hlinks : p ∈ (net.transmit u v payload).links a b ↔
      a = u ∧ b = v ∧ p ∈ net.links u v ++ [payload] ∨ ¬ (a = u ∧ b = v) ∧ p ∈ net.links a b :=
    mem_setLink
  rw [UnderWay, hlinks, UnderWay]
  by_cases ha : a = u
  · subst ha
    simp only [transmit, update_self]
    by_cases hbp : (b, p) = (v, payload)
    · obtain ⟨rfl, rfl⟩ := Prod.mk.inj hbp
      simp [mem]
    · rw [mem_erase_of_ne hbp]
      by_cases hb : b = v
      · subst hb
        have hp : p ≠ payload := fun hp => hbp (by rw [hp])
        simp [hp]
      · simp [hb]
  · simp [transmit, ha]

/-- Moving a message from the outbox to its link is not seen from outside. -/
theorem step_send (wf : net.Wf G) (mem : (v, payload) ∈ net.outbox u) :
    (net.transmit u v payload).Wf G ∧ (net.transmit u v payload).toFlood = net.toFlood := by
  have hsound {a b : V} {p : Bytes} (hp : (net.transmit u v payload).UnderWay a b p) :=
    wf.underWay ((underWay_transmit mem).mp hp)
  refine ⟨⟨wf.attached, wf.mem_peers, wf.enableSync, wf.stored, fun a b p hp => hsound (.inl hp),
    fun a b p hp => hsound (.inr hp)⟩, ?_⟩
  have hfl : (net.transmit u v payload).toFlood.inFlight = net.toFlood.inFlight := by
    ext a b e
    exact and_congr_right fun _ => underWay_transmit mem
  exact congrArg (fun f => { net.toFlood with inFlight := f }) hfl

theorem step_deliver (wf : net.Wf G) {rest : List Bytes} (head : net.links u v = payload :: rest) :
    ((net.setLink u v rest).act v ((net.nodes v).onStorageMessage u payload)).Wf G ∧
    Flood.Step StorageEntry.key StorageEntry.stamp G.Adj net.toFlood
      ((net.setLink u v rest).act v ((net.nodes v).onStorageMessage u payload)).toFlood := by
  have hmem : payload ∈ net.links u v := by rw [head]; exact .head _
  obtain ⟨e, he, rfl⟩ := wf.links u v payload hmem
  have wf' : (net.setLink u v rest).Wf G :=
    setLink_wf wf fun p hp => wf.links u v p (by rw [head]; exact .tail _ hp)
  -- taking the head away loses at most this entry, and on this link only
  have hkeeps : ∀ a b x, x ∈ net.toFlood.inFlight a b →
      x ∈ (net.setLink u v rest).toFlood.inFlight a b ∨ a = u ∧ b = v ∧ x = e := by
    rintro a b x ⟨hx, hp⟩
    obtain hp | ⟨rfl, rfl, hp⟩ := underWay_head_or_rest head hp
    · exact .inl ⟨hx, hp⟩
    · exact .inr ⟨rfl, rfl, entryMessage_injective hx.1 he.1 hp⟩
  have hsends : ∀ a b, (net.setLink u v rest).toFlood.inFlight a b ⊆ net.toFlood.inFlight a b :=
    fun a b x hx => ⟨hx.1, underWay_of_rest head hx.2⟩
  obtain ⟨hl, hm⟩ | ⟨hl, m', event, hm, hentries, hnetwork, hconfig⟩ :=
    onStorageMessage_entry he (net.nodes v) u
  · have hact : (net.setLink u v rest).act v (net.nodes v, []) = net.setLink u v rest :=
      act_unchanged (net.setLink u v rest) v
    rw [hm, hact]
    exact ⟨wf', .drop u v e (le_rank_of_loses hl) rfl hkeeps hsends rfl rfl⟩
  have hs : (net.setLink u v rest).StoresAndSends v e
      (((net.setLink u v rest).peers v).filter (· ≠ u)) _ :=
    deliver_stored he hm hentries hnetwork hconfig
  refine ⟨hs.wf wf', .accept u v e ⟨he, .inr hmem⟩ ⟨loses_eq_false_iff.mp hl, hs.lookup_self,
    fun w k => hs.lookup_other, fun a b x hx => ?_⟩ (fun a b x hx => ?_) (fun w hw hne => ?_)
    rfl rfl⟩
  · rcases hs.mem_inFlight.mp hx with hx | ⟨rfl, -, rfl⟩
    · exact .inl (hsends a b hx)
    · exact .inr ⟨rfl, rfl⟩
  · rcases hkeeps a b x hx with hx | hx
    · exact .inl (hs.mem_inFlight.mpr (.inl hx))
    · exact .inr hx
  · refine hs.mem_inFlight.mpr (.inr ⟨rfl, ?_, rfl⟩)
    simpa [hne] using (wf'.mem_peers v w).mpr hw

/-- **The network refines the flood.** -/
theorem step_refines (wf : net.Wf G) (h : net.Step net') :
    net'.Wf G ∧ (Flood.Step StorageEntry.key StorageEntry.stamp G.Adj net.toFlood net'.toFlood ∨
      net'.toFlood = net.toFlood) := by
  cases h with
  | put v key value clock fits => exact step_put wf fits
  | send u v payload mem =>
    obtain ⟨hwf, heq⟩ := step_send wf mem
    exact ⟨hwf, .inr heq⟩
  | deliver u v payload rest head =>
    obtain ⟨hwf, hstep⟩ := step_deliver wf head
    exact ⟨hwf, .inl hstep⟩

/-! ## Convergence -/

omit [DecidableEq V] in
theorem Initial.held_of_inFlight (h : net.Initial G) (he : e ∈ net.toFlood.inFlight a b) :
    ∃ k, (net.nodes a).entries.lookup k = some e := by
  obtain ⟨hs, hp | hp⟩ := he
  · obtain ⟨-, k, e', he', hp⟩ := (h.mem_outbox a b _).mp hp
    rw [entryMessage_injective hs.1 (h.stored a k e' he').2.1 hp]
    exact ⟨k, he'⟩
  · rw [h.links_nil] at hp
    exact absurd hp not_mem_nil

omit [DecidableEq V] in
theorem Initial.invariant (h : net.Initial G) :
    Flood.Invariant StorageEntry.key StorageEntry.stamp G.Adj net.toFlood where
  held_key v k e he := (h.stored v k e he).1
  held_accepted v k e he := by
    rw [toFlood, h.accepted]
    exact ⟨v, k, he⟩
  inFlight_accepted a b e he := by
    rw [toFlood, h.accepted]
    obtain ⟨k, he⟩ := h.held_of_inFlight he
    exact ⟨a, k, he⟩
  sender a b e he := by
    obtain ⟨k, he⟩ := h.held_of_inFlight he
    have hk : e.key = k := (h.stored a k e he).1
    subst hk
    exact Flood.le_rank_iff.mpr ⟨e, he, le_rfl⟩
  neighbours a b k e hab he :=
    .inr ⟨(h.stored a k e he).2, .inl ((h.mem_outbox a b _).mpr ⟨hab, k, e, he, rfl⟩)⟩
  accepted_offered := h.offered.symm.subset
  offered_held e he := by
    have hacc : e ∈ net.accepted := h.offered ▸ he
    rw [h.accepted] at hacc
    obtain ⟨v, k, he⟩ := hacc
    have hk : e.key = k := (h.stored v k e he).1
    subst hk
    exact ⟨v, Flood.le_rank_iff.mpr ⟨e, he, le_rfl⟩⟩

theorem run_refines (wf : net.Wf G) (hrun : Relation.ReflTransGen Step net net') :
    net'.Wf G ∧ Relation.ReflTransGen (Flood.Step StorageEntry.key StorageEntry.stamp G.Adj)
      net.toFlood net'.toFlood := by
  induction hrun with
  | refl => exact ⟨wf, .refl⟩
  | tail _ hstep ih =>
    obtain ⟨wf, hrun⟩ := ih
    obtain ⟨wf', hflood | heq⟩ := step_refines wf hstep
    · exact ⟨wf', hrun.tail hflood⟩
    · exact ⟨wf', heq ▸ hrun⟩

/-- `o` is the `winsOver`-maximum of the accepted entries for `k`, and no offered entry wins over
it. -/
structure IsWinner (net : Network V) (k : Bytes) (o : Option StorageEntry) : Prop where
  accepted : ∀ w, o = some w → w ∈ net.accepted ∧ w.key = k
  wins : ∀ e ∈ net.accepted, e.key = k → ∃ w, o = some w ∧ (e = w ∨ w.winsOver e = true)
  unbeaten : ∀ e ∈ net.offered, e.key = k → ∃ w, o = some w ∧ e.winsOver w = false

/-- No two different accepted entries for one key carry the same stamp. -/
def StampsUnique (net : Network V) : Prop :=
  ∀ e ∈ net.accepted, ∀ e' ∈ net.accepted, e.key = e'.key → e.timestampMs = e'.timestampMs →
    e.originPeerId = e'.originPeerId → e = e'

theorem stamp_inj {e' : StorageEntry} (h : e.stamp = e'.stamp) :
    e.timestampMs = e'.timestampMs ∧ e.originPeerId = e'.originPeerId := by
  obtain ⟨ht, ho⟩ := Prod.mk.inj (toLex.injective h)
  exact ⟨UInt64.toNat_inj.mp ht, map_injective_iff.mpr (fun _ _ => UInt8.toNat_inj.mp) ho⟩

/-- **Quiescent convergence.** On a connected graph, once no message is under way all nodes hold for
every key the `winsOver`-maximum of the entries put or started with. -/
theorem quiescent_converges (hG : G.Connected) (h : net.Initial G)
    (hrun : Relation.ReflTransGen Step net net') (huniq : net'.StampsUnique)
    (hq : net'.Quiescent) (k : Bytes) :
    ∃ o, (∀ v, (net'.nodes v).entries.lookup k = o) ∧ net'.IsWinner k o := by
  have inv := h.invariant.run (run_refines h.toWf hrun).2
  have hempty : ∀ a b, net'.toFlood.inFlight a b = ∅ := by
    intro a b
    rw [Set.eq_empty_iff_forall_notMem]
    rintro e ⟨-, hp | hp⟩
    · rw [hq.1] at hp
      exact not_mem_nil hp
    · rw [hq.2] at hp
      exact not_mem_nil hp
  have hpath : ∀ a b, Relation.ReflTransGen G.Adj a b := fun a b =>
    (G.reachable_iff_reflTransGen a b).mp (hG.preconnected a b)
  have huniq' : ∀ e ∈ net'.accepted, ∀ e' ∈ net'.accepted, e.key = e'.key → e.stamp = e'.stamp →
      e = e' := fun e he e' he' hk hst => huniq e he e' he' hk (stamp_inj hst).1 (stamp_inj hst).2
  have := hG.nonempty
  obtain ⟨o, hsame, hmax⟩ := inv.quiescent hempty hpath huniq' k
  refine ⟨o, hsame, hmax.accepted, fun e he hk => ?_, fun e he hk => ?_⟩
  · obtain ⟨w, rfl, hle⟩ := hmax.highest e (inv.accepted_offered he) hk
    obtain ⟨hw, hwk⟩ := hmax.accepted w rfl
    refine ⟨w, rfl, ?_⟩
    rcases hle.lt_or_eq with hlt | heq
    · exact .inr ((w.winsOver_iff_stamp_lt e).mpr hlt)
    · exact .inl (huniq' e he w hw (hk.trans hwk.symm) heq)
  · obtain ⟨w, rfl, hle⟩ := hmax.highest e he hk
    refine ⟨w, rfl, ?_⟩
    rw [Bool.eq_false_iff, ne_eq, e.winsOver_iff_stamp_lt w]
    exact not_lt.mpr hle

/-! ## Two nodes -/

/-- Two nodes that are each other's only peer, with nothing stored. -/
def pair : Network Bool where
  nodes v := ⟨some ⟨if v then [98] else [97], [!v]⟩, {}, ∅, .notStarted, false, {}, false⟩
  outbox _ := []
  links _ _ := []
  accepted := ∅
  offered := ∅

/-- The message of a put at the first node. -/
def pairMessage : Bytes :=
  entryMessage (pair.putEntry false [107] (.string [118]) 1000)

/-- The first node put an entry and sent it. -/
def pairSent : Network Bool :=
  (pair.put false [107] (.string [118]) 1000).transmit false true pairMessage

/-- The second node got it. -/
def pairDone : Network Bool :=
  (pairSent.setLink false true []).act true ((pairSent.nodes true).onStorageMessage false pairMessage)

theorem pair_initial : pair.Initial ⊤ where
  attached _ := rfl
  mem_peers u v := by cases u <;> cases v <;> decide
  enableSync _ := rfl
  stored v k e h := by simp [pair] at h
  outbox u v p h := by simp [pair] at h
  links u v p h := by simp [pair] at h
  links_nil _ _ := rfl
  mem_outbox u v p := by simp [pair]
  accepted := by simp [pair]
  offered := rfl

theorem pairSent_reached : Relation.ReflTransGen Step pair pairSent :=
  .tail (.single (.put false [107] (.string [118]) 1000 (by decide)))
    (.send false true pairMessage (by decide +kernel))

theorem pairSent_step : Step pairSent pairDone :=
  .deliver false true pairMessage [] (by decide +kernel)

theorem pairDone_reached : Relation.ReflTransGen Step pair pairDone :=
  pairSent_reached.tail pairSent_step

theorem pairDone_stampsUnique : pairDone.StampsUnique := by
  have hacc : pairDone.accepted = {pair.putEntry false [107] (.string [118]) 1000} := by
    have hput : (StorageManager.put (pair.nodes false) [107] (.string [118]) 1000).1 = true := by
      decide
    ext x
    simp [pairDone, act, setLink, pairSent, transmit, Network.put, hput]
    simp [pair]
  intro e he e' he' _ _ _
  rw [hacc] at he he'
  exact he.trans he'.symm

/-- The run in which the first node puts an entry and the second gets it. -/
theorem quiescent_converges_pair : pairDone.Quiescent ∧
    ∃ o, (∀ v, (pairDone.nodes v).entries.lookup [107] = o) ∧ pairDone.IsWinner [107] o := by
  have hq : pairDone.Quiescent := ⟨by decide +kernel, by decide +kernel⟩
  exact ⟨hq, quiescent_converges SimpleGraph.connected_top pair_initial pairDone_reached
    pairDone_stampsUnique hq [107]⟩

/-! ## Safety at any time -/

/-- **Nothing stored is invented, or gives way to something older**: what a node stores was put for
its key or was there at the start, and what it stores for the key later does not lose to it. -/
theorem stored_kept {net'' : Network V} (h : net.Initial G)
    (hrun : Relation.ReflTransGen Step net net') (hrun' : Relation.ReflTransGen Step net' net'')
    {k : Bytes} (he : (net'.nodes v).entries.lookup k = some e) : e ∈ net'.accepted ∧ e.key = k ∧
      ∃ e', (net''.nodes v).entries.lookup k = some e' ∧ e.winsOver e' = false := by
  obtain ⟨wf, hflood⟩ := run_refines h.toWf hrun
  have inv := h.invariant.run hflood
  refine ⟨inv.held_accepted v k e he, inv.held_key v k e he, ?_⟩
  have hrank := Flood.rank_le_of_run (run_refines wf hrun').2 v k
  obtain ⟨e', he', hle⟩ := Flood.le_rank_iff.mp ((congrArg (Flood.rank stamp) he).ge.trans hrank)
  refine ⟨e', he', ?_⟩
  rw [Bool.eq_false_iff, ne_eq, e.winsOver_iff_stamp_lt e']
  exact not_lt.mpr hle

/-- The first node keeps what it put while the second gets it. -/
theorem stored_kept_pair : ∃ e', (pairDone.nodes false).entries.lookup [107] = some e' ∧
    (pair.putEntry false [107] (.string [118]) 1000).winsOver e' = false :=
  (stored_kept pair_initial pairSent_reached (.single pairSent_step) (by decide +kernel)).2.2

end Network

end Librats.Storage
