import Librats.Storage.AntiEntropy

/-!
# Deletes that stay deleted

A mesh in which any node puts, deletes, clears and compacts and links come up at any time. A node
that compacts takes back an older entry from the next snapshot (`compacted_revives`).
-/

namespace Librats.Storage

open List StorageManager

variable {V : Type}

/-! ## What calls store and send -/

namespace StorageManager

/-- A call stores only entries that its trace shows, and sends only these. -/
structure Shown (m : StorageManager V) (r : StorageManager V × List (Event V)) : Prop where
  ourPeerId : r.1.getOurPeerId = m.getOurPeerId
  stored : ∀ k e, r.1.entries.lookup k = some e → m.entries.lookup k = some e ∨
    e.key = k ∧ Readable e ∧ ∃ old, Event.stored k old e ∈ r.2
  sent : ∀ l b p, (b, p) ∈ r.2.flatMap (Event.sends l) →
    ∀ e ∈ carried p, ∃ k old, Event.stored k old e ∈ r.2

theorem Shown.refl (m : StorageManager V) : m.Shown (m, []) :=
  ⟨rfl, fun _ _ h => .inl h, nofun⟩

variable {m : StorageManager V} {e : StorageEntry}

theorem Shown.append {r r' : StorageManager V × List (Event V)} (h : m.Shown r)
    (h' : r.1.Shown r') : m.Shown (r'.1, r.2 ++ r'.2) where
  ourPeerId := h'.ourPeerId.trans h.ourPeerId
  stored k e he := by
    rcases h'.stored k e he with he | ⟨hk, hr, old, hm⟩
    · rcases h.stored k e he with he | ⟨hk, hr, old, hm⟩
      · exact .inl he
      · exact .inr ⟨hk, hr, old, mem_append_left _ hm⟩
    · exact .inr ⟨hk, hr, old, mem_append_right _ hm⟩
  sent l b p hp e he := by
    rw [flatMap_append, mem_append] at hp
    rcases hp with hp | hp
    · obtain ⟨k, old, hm⟩ := h.sent l b p hp e he
      exact ⟨k, old, mem_append_left _ hm⟩
    · obtain ⟨k, old, hm⟩ := h'.sent l b p hp e he
      exact ⟨k, old, mem_append_right _ hm⟩

theorem Shown.commit (m : StorageManager V) {key : Bytes} (hkey : e.key = key) (he : Readable e)
    (broadcast : Bool) (event : StorageChangeEvent) : m.Shown (m.commit key e broadcast event) where
  ourPeerId := by rw [getOurPeerId, commit_network]; rfl
  stored k x hx := by
    rw [commit_entries] at hx
    obtain ⟨rfl, rfl⟩ | ⟨-, hx⟩ := AssocList.lookup_of_insert hx
    · exact .inr ⟨hkey, he, m.entries.lookup k, by simp [StorageManager.commit, write]⟩
    · exact .inl hx
  sent l b p hp x hx := by
    refine ⟨key, m.entries.lookup key, ?_⟩
    have hp : p = entryMessage e := by
      cases broadcast with
      | false => simp [StorageManager.commit, write, Event.sends] at hp
      | true =>
        unfold StorageManager.commit broadcastEntry at hp
        cases hn : m.network with
        | none => simp [write, markDirty, hn, Event.sends] at hp
        | some net =>
          simp only [write, markDirty, hn, if_true, Event.sends, flatMap_append,
            flatMap_singleton, nil_append, append_nil, mem_map,
            Prod.mk.injEq] at hp
          obtain ⟨_, -, -, rfl⟩ := hp
          rfl
    subst hp
    rw [carried_entryMessage he, mem_singleton] at hx
    subst hx
    simp [commit, write]

theorem Shown.put (m : StorageManager V) (key : Bytes) (value : Value) (clock : UInt64)
    (fits : (m.newEntry key value.type value.serialize 0 [] clock).LengthsFit) :
    m.Shown (m.put key value clock).2 := by
  obtain ⟨hp, -⟩ | ⟨-, -, -, event, hp⟩ := m.put_cases key value clock
  · rw [hp]
    exact .refl m
  · rw [hp]
    exact .commit m rfl ⟨fits, StorageEntry.verifyChecksum_calculateChecksum _⟩ _ event

/-- What is stored can be sent, and so can the tombstones of the manager. -/
structure Sendable (m : StorageManager V) : Prop where
  ourPeerId : m.getOurPeerId.length < 2 ^ 32
  stored : ∀ k e, m.entries.lookup k = some e → e.key = k ∧ Readable e

theorem Sendable.of_shown (h : m.Sendable) {r : StorageManager V × List (Event V)}
    (hr : m.Shown r) : r.1.Sendable where
  ourPeerId := by
    rw [hr.ourPeerId]
    exact h.ourPeerId
  stored k e he := by
    rcases hr.stored k e he with he | ⟨hk, he, -⟩
    · exact h.stored k e he
    · exact ⟨hk, he⟩

theorem readable_tombstone (he : Readable e) (clock : UInt64) {id : Bytes}
    (hid : id.length < 2 ^ 32) : Readable (tombstone e clock id) where
  lengths := ⟨he.lengths.key, hid, by simp [tombstone, StorageEntry.calculateChecksum]⟩
  checksum := StorageEntry.verifyChecksum_calculateChecksum _

theorem Shown.remove (h : m.Sendable) (key : Bytes) (clock : UInt64) :
    m.Shown (m.remove key clock).2 := by
  obtain ⟨hr, -⟩ | ⟨e, event, hl, -, hr⟩ := m.remove_cases key clock
  · rw [hr]
    exact .refl m
  · obtain ⟨hkey, he⟩ := h.stored key e hl
    rw [hr]
    exact .commit m (show (tombstone e clock _).key = key from hkey)
      (readable_tombstone he clock h.ourPeerId) _ event

theorem Shown.removeAll (h : m.Sendable) (keys : List Bytes) (clock : Bytes → UInt64) :
    m.Shown (m.removeAll keys clock) := by
  induction keys generalizing m with
  | nil => exact .refl m
  | cons key keys ih =>
    have hr := Shown.remove h key (clock key)
    exact hr.append (ih (h.of_shown hr))

theorem Shown.compact (m : StorageManager V) : m.Shown (m.compact.2, []) where
  ourPeerId := by
    rw [getOurPeerId, compact_network]
    rfl
  stored k e he := .inl (lookup_compact_cases he).1
  sent l b p hp := absurd hp not_mem_nil

theorem Shown.connect (m : StorageManager V) (peer : V) :
    m.Shown ((m.addPeer peer).onPeerConnected peer) := by
  obtain ⟨hentries, -, hnetwork⟩ := (m.addPeer peer).onPeerConnected_spec peer
  refine ⟨?_, fun k e he => .inl ?_, fun l b p hp e he => ?_⟩
  · rw [getOurPeerId, hnetwork, getOurPeerId, addPeer]
    cases m.network <;> rfl
  · rw [hentries] at he
    exact he
  have hp : p = [opSyncRequest] := by
    rw [onPeerConnected_trace] at hp
    split_ifs at hp
    · simp only [Event.sends, flatMap_singleton, mem_singleton, Prod.mk.injEq] at hp
      exact hp.2
    · exact absurd hp not_mem_nil
  rw [hp] at he
  exact absurd he not_mem_nil

theorem stored_of_commit {key k : Bytes} {x : StorageEntry} {broadcast : Bool}
    {event : StorageChangeEvent} {old : Option StorageEntry}
    (h : Event.stored k old x ∈ (m.commit key e broadcast event).2) : x = e := by
  have h' : k = key ∧ old = m.entries.lookup key ∧ x = e := by
    unfold commit broadcastEntry at h
    cases broadcast with
    | false => simpa [write] using h
    | true =>
      cases hn : m.network with
      | none | some net => simpa [write, markDirty, hn] using h
  exact h'.2.2

end StorageManager

namespace Network

variable [DecidableEq V]

/-! ## Where entries come from -/

/-- What is stored or under way was accepted from some node. -/
structure Traced (net : Network V) : Prop where
  sendable : ∀ v, (net.nodes v).Sendable
  stored : ∀ v k e, (net.nodes v).entries.lookup k = some e → e ∈ net.accepted
  sent : ∀ u v p, net.UnderWay u v p → ∀ e ∈ carried p, e ∈ net.accepted

variable {net : Network V} {v : V} {rest : List Bytes}

theorem Traced.act (h : net.Traced) {r : StorageManager V × List (Event V)}
    (hr : (net.nodes v).Shown r) {net' : Network V} (hnodes : net'.nodes = (net.act v r).nodes)
    (hway : ∀ a b p, net'.UnderWay a b p → (net.act v r).UnderWay a b p)
    (hsub : net.accepted ⊆ net'.accepted)
    (hnew : ∀ k old e, Event.stored k old e ∈ r.2 → e ∈ net'.accepted) : net'.Traced := by
  refine ⟨?_, ?_, fun a b p hp e he => ?_⟩
  · rw [hnodes]
    exact forall_nodes_act ((h.sendable v).of_shown hr) fun w _ => h.sendable w
  · rw [hnodes]
    refine forall_nodes_act (P := fun _ m => ∀ k e, m.entries.lookup k = some e →
      e ∈ net'.accepted) (fun k e he => ?_) fun w _ k e he => hsub (h.stored w k e he)
    rcases hr.stored k e he with he | ⟨-, -, old, hm⟩
    · exact hsub (h.stored v k e he)
    · exact hnew k old e hm
  · rcases underWay_act.mp (hway a b p hp) with hp | ⟨-, hp⟩
    · exact hsub (h.sent a b p hp e he)
    · obtain ⟨k, old, hm⟩ := hr.sent _ b p hp e he
      exact hnew k old e hm

theorem accepted_of_put {key : Bytes} {value : StorageManager.Value} {clock : UInt64} {k : Bytes}
    {old : Option StorageEntry} {e : StorageEntry}
    (h : Event.stored k old e ∈ ((net.nodes v).put key value clock).2.2) :
    e ∈ (net.put v key value clock).accepted := by
  obtain ⟨hp, -⟩ | ⟨-, -, -, event, hp⟩ := (net.nodes v).put_cases key value clock
  · rw [hp] at h
    exact absurd h not_mem_nil
  · rw [hp] at h
    exact .inr ⟨by rw [hp], StorageManager.stored_of_commit h⟩

theorem Traced.sent_receive (h : net.Traced) {u a b : V} {payload p : Bytes}
    (head : net.links u v = payload :: rest) (hp : (net.receive u v payload rest).UnderWay a b p) :
    ∀ e ∈ carried p, e ∈ net.accepted := by
  intro e he
  have hcarried := h.sent u v payload (underWay_head head)
  rcases underWay_receive head hp with hp | ⟨sent, hs, rfl, hmem⟩
  · exact h.sent a b p hp e he
  cases hs with
  | forwarded x _ hc =>
    obtain ⟨w, -, heq⟩ := mem_map.mp hmem
    obtain ⟨-, rfl⟩ := Prod.mk.inj heq
    have hx : x ∈ carried payload := by simp [hc]
    rw [carried_entryMessage (readable_of_mem_carried hx), mem_singleton] at he
    exact he ▸ hcarried x hx
  | dropped => exact absurd hmem not_mem_nil
  | answered =>
    split_ifs at hmem
    · rw [mem_singleton] at hmem
      rw [(Prod.mk.inj hmem).2] at he
      obtain ⟨k, hk⟩ := mem_of_mem_carried_snapshotMessage
        (readable_of_stored (h.sendable a).stored) he
      exact h.stored a k e hk
    · exact absurd hmem not_mem_nil
  | absorbed => exact absurd hmem not_mem_nil

theorem Traced.receive (h : net.Traced) {u : V} {payload : Bytes}
    (head : net.links u v = payload :: rest) : (net.receive u v payload rest).Traced := by
  obtain ⟨hentries, hnetwork, -⟩ := (net.nodes v).onStorageMessage_spec u payload
  have hself : ∀ k e, ((net.receive u v payload rest).nodes v).entries.lookup k = some e →
      (e.key = k ∧ Readable e) ∧ e ∈ net.accepted := by
    rw [nodes_receive_self, hentries]
    exact forall_lookup_foldl_absorb
      (fun k e he => ⟨(h.sendable v).stored k e he, h.stored v k e he⟩)
      fun e he => ⟨⟨rfl, readable_of_mem_carried he⟩, h.sent u v payload (underWay_head head) e he⟩
  refine ⟨fun w => ?_, fun w k e he => ?_, fun a b p hp => h.sent_receive head hp⟩
  · by_cases hw : w = v
    · subst hw
      refine ⟨?_, fun k e he => (hself k e he).1⟩
      rw [nodes_receive_self, getOurPeerId, hnetwork]
      exact (h.sendable w).ourPeerId
    · rw [nodes_receive_of_ne net u hw]
      exact h.sendable w
  · by_cases hw : w = v
    · subst hw
      exact (hself k e he).2
    · rw [nodes_receive_of_ne net u hw] at he
      exact h.stored w k e he

theorem Traced.connect (h : net.Traced) (u v : V) : (net.connect u v).Traced := by
  refine h.act (.connect _ v) rfl (fun _ _ _ => id) subset_rfl fun k old e he => ?_
  rw [StorageManager.onPeerConnected_trace] at he
  split_ifs at he
  · simp at he
  · exact absurd he not_mem_nil

theorem accepted_subset_perform (net : Network V) (a : Action V) :
    net.accepted ⊆ (net.perform a).accepted := by
  cases a with
  | put v key value clock | remove v key clock | clear v clock => exact fun e he => .inl he
  | compact | linkUp | send | deliver => exact (accepted_perform rfl net).ge

theorem Traced.perform (h : net.Traced) {a : Action V} (henabled : net.Enabled a) :
    (net.perform a).Traced := by
  cases a with
  | put v key value clock =>
    exact h.act (.put _ key value clock henabled) rfl (fun _ _ _ => id) (fun e he => .inl he)
      fun k old e => accepted_of_put
  | remove v key clock =>
    exact h.act (.remove (h.sendable v) key clock) rfl (fun _ _ _ => id) (fun e he => .inl he)
      fun k old e he => .inr ⟨k, old, he⟩
  | clear v clock =>
    exact h.act (.removeAll (h.sendable v) _ clock) rfl (fun _ _ _ => id) (fun e he => .inl he)
      fun k old e he => .inr ⟨k, old, he⟩
  | compact v =>
    exact h.act (.compact _) rfl (fun _ _ _ => id) subset_rfl nofun
  | linkUp u v => exact (h.connect u v).connect v u
  | send u v payload =>
    exact ⟨h.sendable, h.stored, fun a b p hp => h.sent a b p ((underWay_transmit henabled).mp hp)⟩
  | deliver u v =>
    cases hl : net.links u v with
    | nil => exact absurd hl henabled
    | cons payload rest =>
      simp only [Network.perform, hl]
      exact h.receive hl

theorem Traced.run {ok : Network V → Action V → Prop} {net₀ : Network V} (h : net₀.Traced)
    (run : Reaches ok net₀ net) : net.Traced := by
  induction run with
  | start => exact h
  | step _ a henabled _ ih => exact ih.perform henabled

/-! ## Tombstones -/

/-- `v` holds the tombstone of `key` with the stamp `(t, o)`. -/
def HoldsTombstone (net : Network V) (v : V) (key : Bytes) (t : UInt64) (o : Bytes) : Prop :=
  ∃ e, (net.nodes v).entries.lookup key = some e ∧ e.deleted = true ∧ e.timestampMs = t ∧
    e.originPeerId = o

/-- No node compacts its store while it holds the tombstone. -/
def KeepsTombstone (key : Bytes) (t : UInt64) (o : Bytes) (net : Network V) (a : Action V) : Prop :=
  ∀ v, a = .compact v → ¬ net.HoldsTombstone v key t o

/-- No entry for `key` with a stamp above `(t, o)` was made. -/
def NoneAbove (net : Network V) (key : Bytes) (t : UInt64) (o : Bytes) : Prop :=
  ∀ e ∈ net.accepted, e.key = key → e.stamp ≤ toLex (t.toNat, o.map UInt8.toNat)

end Network

namespace StorageManager

variable {m : StorageManager V} {k : Bytes} {e : StorageEntry}

section

variable (h : m.entries.lookup k = some e)

include h

theorem lookup_remove_of_deleted (hd : e.deleted = true)
    (key : Bytes) (clock : UInt64) : (m.remove key clock).2.1.entries.lookup k = some e := by
  obtain ⟨hr, -⟩ | ⟨x, event, hl, hx, hr⟩ := m.remove_cases key clock
  · rwa [hr]
  · have hk : k ≠ key := by
      rintro rfl
      rw [h, Option.some_inj] at hl
      rw [← hl, hd] at hx
      exact Bool.false_ne_true hx.symm
    rwa [hr, commit_entries, AList.lookup_insert_ne hk]

theorem lookup_removeAll_of_deleted (hd : e.deleted = true)
    (keys : List Bytes) (clock : Bytes → UInt64) :
    (m.removeAll keys clock).1.entries.lookup k = some e := by
  induction keys generalizing m with
  | nil => exact h
  | cons key keys ih => exact ih (lookup_remove_of_deleted h hd key (clock key))

theorem lookup_put_of_not_lt (key : Bytes) (value : Value) (clock : UInt64)
    (hle : k = key → (m.put key value clock).1 = true →
      ¬ e.stamp < (m.newEntry key value.type value.serialize 0 [] clock).stamp) :
    (m.put key value clock).2.1.entries.lookup k = some e := by
  obtain ⟨hp, -⟩ | ⟨-, -, hlww, event, hp⟩ := m.put_cases key value clock
  · rwa [hp]
  · by_cases hk : k = key
    · subst hk
      refine absurd ?_ (hle rfl (by rw [hp]))
      exact (StorageEntry.winsOver_iff_stamp_lt _ _).mp (loses_eq_false.mp hlww e h)
    · rwa [hp, commit_entries, AList.lookup_insert_ne hk]

end

end StorageManager

namespace Network

variable [DecidableEq V] {net : Network V} {v : V} {key : Bytes} {t : UInt64} {o : Bytes}

theorem lookup_act {e : StorageEntry} {w : V} {r : StorageManager V × List (Event V)}
    (hl : (net.nodes v).entries.lookup key = some e)
    (hr : v = w → r.1.entries.lookup key = some e) :
    ((net.act w r).nodes v).entries.lookup key = some e :=
  forall_nodes_act (P := fun x node => v = x → node.entries.lookup key = some e) hr
    (fun _ _ hx => hx ▸ hl) v rfl

theorem lookup_receive_of_not_lt {e : StorageEntry} {u w : V} {payload : Bytes} {rest : List Bytes}
    (hl : (net.nodes v).entries.lookup key = some e)
    (hle : ∀ x ∈ carried payload, x.key = key → ¬ e.stamp < x.stamp) :
    ((net.receive u w payload rest).nodes v).entries.lookup key = some e := by
  by_cases hw : v = w
  · subst hw
    rw [nodes_receive_self, ((net.nodes v).onStorageMessage_spec u payload).1]
    rcases lookup_foldl_absorb_cases (carried payload) (net.nodes v).entries key with
      heq | ⟨x, hx, hk, hlt, -⟩
    · rw [heq, hl]
    · rw [hl, Flood.rank, WithBot.coe_lt_coe] at hlt
      exact absurd hlt (hle x hx hk)
  · rwa [nodes_receive_of_ne net u hw]

theorem HoldsTombstone.perform (htraced : net.Traced) (h : net.HoldsTombstone v key t o)
    {a : Action V} (henabled : net.Enabled a) (hok : KeepsTombstone key t o net a)
    (hnone : (net.perform a).NoneAbove key t o) : (net.perform a).HoldsTombstone v key t o := by
  obtain ⟨e, hl, hd, rfl, rfl⟩ := h
  refine ⟨e, ?_, hd, rfl, rfl⟩
  -- nothing that was accepted for the key wins over the tombstone
  have hmax : ∀ x ∈ (net.perform a).accepted, x.key = key → ¬ e.stamp < x.stamp :=
    fun x hx hk => not_lt.mpr (hnone x hx hk)
  cases a with
  | put w key' value clock =>
    refine lookup_act hl fun hw => ?_
    subst hw
    refine lookup_put_of_not_lt hl key' value clock fun hk hsucc => ?_
    exact hmax _ (.inr ⟨hsucc, rfl⟩) hk.symm
  | remove w key' clock =>
    refine lookup_act hl fun hw => ?_
    subst hw
    exact lookup_remove_of_deleted hl hd key' clock
  | clear w clock =>
    refine lookup_act hl fun hw => ?_
    subst hw
    exact lookup_removeAll_of_deleted hl hd _ clock
  | compact w =>
    refine lookup_act hl fun hw => ?_
    subst hw
    exact absurd ⟨e, hl, hd, rfl, rfl⟩ (hok v rfl)
  | linkUp u w =>
    rwa [show net.perform (.linkUp u w) = (net.connect u w).connect w u from rfl, entries_linkUp]
  | send u w payload => exact hl
  | deliver u w =>
    cases hlink : net.links u w with
    | nil => exact absurd hlink henabled
    | cons payload rest =>
      simp only [Network.perform, hlink] at hmax ⊢
      exact lookup_receive_of_not_lt hl fun x hx =>
        hmax x (htraced.sent u w payload (underWay_head hlink) x hx)

omit [DecidableEq V] in
theorem HoldsTombstone.has_eq_false (h : net.HoldsTombstone v key t o) :
    (net.nodes v).has key = false := by
  obtain ⟨e, hl, hd, -⟩ := h
  simp [has, hl, hd]

/-- **Deletes stay deleted.** While no node compacts a store that holds it, a node with a tombstone
does not report the key, if no entry for the key was made with a higher stamp. -/
theorem tombstone_kept {net₀ net₁ net₂ : Network V} (h : net₀.Traced)
    (before : Reaches (fun _ _ => True) net₀ net₁) (held : net₁.HoldsTombstone v key t o)
    (after : Reaches (KeepsTombstone key t o) net₁ net₂) (hnone : net₂.NoneAbove key t o) :
    (net₂.nodes v).has key = false := by
  have htraced : net₁.Traced := h.run before
  -- no higher stamp at the end means none on the way
  have kept : net₂.HoldsTombstone v key t o := by
    induction after with
    | start => exact held
    | step run a henabled hok ih =>
      have hbefore : Network.NoneAbove _ key t o :=
        fun e he => hnone e (accepted_subset_perform _ a he)
      exact (ih hbefore).perform (htraced.run run) henabled hok hnone
  exact kept.has_eq_false

omit [DecidableEq V] in
theorem apart_traced {id : V → Bytes} (hid : ∀ v, (id v).length < 2 ^ 32) : (apart id).Traced where
  sendable v := ⟨hid v, fun k e h => by simp [apart] at h⟩
  stored v k e h := by simp [apart] at h
  sent u v p h := by simp [apart, UnderWay] at h

theorem mem_accepted_remove {x : StorageEntry} {clock : UInt64}
    (h : x ∈ (net.perform (.remove v key clock)).accepted) :
    x ∈ net.accepted ∨ ∃ e, x = tombstone e clock (net.nodes v).getOurPeerId := by
  rcases h with h | ⟨k, old, h⟩
  · exact .inl h
  · obtain ⟨hr, -⟩ | ⟨e, event, -, -, hr⟩ := (net.nodes v).remove_cases key clock
    · rw [hr] at h
      exact absurd h not_mem_nil
    · rw [hr] at h
      exact .inr ⟨e, stored_of_commit h⟩

/-! ## A store that forgets -/

/-- The first node puts an entry and deletes it. -/
def deleted : Network (Fin 3) :=
  three.performAll [.put 0 [107] (.string [118]) 1000, .remove 0 [107] 2000]

/-- The snapshot of the second node, which puts an older entry for the key. -/
def oldSnapshot : Bytes :=
  snapshotMessage ((deleted.put 1 [107] (.string [119]) 500).nodes 1).entries

theorem deleted_holdsTombstone : deleted.HoldsTombstone 0 [107] 2000 [97] :=
  ⟨tombstone ((three.put 0 [107] (.string [118]) 1000).putEntry 0 [107]
    (.string [118]) 1000) 2000 [97], by decide +kernel, rfl, rfl, rfl⟩

theorem deleted_noneAbove {actions : List (Action (Fin 3))}
    (h : ∀ a ∈ actions, Silent a = true) {net : Network (Fin 3)}
    (hnet : net.accepted = deleted.accepted) :
    ((net.put 1 [107] (.string [119]) 500).performAll actions).NoneAbove [107] 2000 [97] := by
  intro e he _
  rw [accepted_performAll h] at he
  rcases he with he | ⟨-, rfl⟩
  · rw [hnet] at he
    rcases mem_accepted_remove he with (he | ⟨-, rfl⟩) | ⟨x, rfl⟩
    · exact absurd he (Set.notMem_empty e)
    · decide +kernel
    · exact le_refl (toLex ((2000 : ℕ), [97]))
  · exact Prod.Lex.toLex_le_toLex.mpr
      (.inl (show (500 : UInt64).toNat < (2000 : UInt64).toNat by decide))

/-- The first node compacts its store, the second puts the older entry, and a link between the two
comes up. -/
def revived : Network (Fin 3) :=
  ((deleted.perform (.compact 0)).put 1 [107] (.string [119]) 500).performAll
    (exchange 1 0 oldSnapshot)

/-- A node that applied a tombstone reports the key once all messages were delivered. -/
theorem compacted_revives : three.Traced ∧ Reaches (fun _ _ => True) three deleted ∧
    deleted.HoldsTombstone 0 [107] 2000 [97] ∧ Reaches (fun _ _ => True) deleted revived ∧
    revived.NoneAbove [107] 2000 [97] ∧ revived.Quiescent ∧ (revived.nodes 0).has [107] = true := by
  have run : Reaches (fun _ _ => True) deleted
      ((deleted.perform (.compact 0)).perform (.put 1 [107] (.string [119]) 500)) :=
    (Reaches.start.step (.compact 0) trivial trivial).step _ (by decide) trivial
  exact ⟨apart_traced (by decide), Reaches.start.performAll (by decide +kernel),
    deleted_holdsTombstone, run.performAll (by decide +kernel),
    deleted_noneAbove (by simp [exchange, Silent]) rfl, ⟨by decide +kernel, by decide +kernel⟩,
    by decide +kernel⟩

/-- The second node answers the request of the first with its snapshot. -/
def oldAnswer : List (Action (Fin 3)) :=
  [.linkUp 1 0, .send 0 1 [opSyncRequest], .deliver 0 1, .send 1 0 oldSnapshot, .deliver 1 0]

theorem oldAnswer_follows : (deleted.put 1 [107] (.string [119]) 500).Follows
    (KeepsTombstone [107] 2000 [97]) oldAnswer := by
  have h : (deleted.put 1 [107] (.string [119]) 500).Follows (fun _ _ => True) oldAnswer := by
    decide +kernel
  refine h.mono fun net a ha _ v hv => ?_
  subst hv
  simp [oldAnswer] at ha

/-- Without the compaction the older entry is refused. -/
theorem tombstone_kept_oldAnswer : deleted.HoldsTombstone 0 [107] 2000 [97] ∧
    (((deleted.put 1 [107] (.string [119]) 500).performAll oldAnswer).nodes 0).has [107] = false := by
  have run : Reaches (KeepsTombstone [107] 2000 [97]) deleted
      (deleted.perform (.put 1 [107] (.string [119]) 500)) :=
    Reaches.start.step _ (by decide) nofun
  exact ⟨deleted_holdsTombstone, tombstone_kept (apart_traced (by decide))
    (Reaches.start.performAll (by decide +kernel)) deleted_holdsTombstone
    (run.performAll oldAnswer_follows) (deleted_noneAbove (by simp [oldAnswer, Silent]) rfl)⟩

end Network

end Librats.Storage
