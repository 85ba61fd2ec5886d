import Librats.Storage.Messages
import Librats.Storage.Replication

/-!
# Messages in a mesh of managers

What a manager sends on in answer to a message (`Handled`): an entry that wins is forwarded, a
request for a snapshot is answered, and nothing else is sent. Then the network of `Replication` is
given the steps it lacked: deletes, compaction, and links that come up while it runs.
-/

namespace Librats.Storage

open BigEndian List StorageEntry

variable {V : Type}

instance neZero_three : NeZero 3 := Nat.instNeZeroSucc

/-! ## Snapshots -/

/-- The payload of a `SYNC_RESPONSE` message. -/
def snapshotMessage (s : Entries) : Bytes :=
  opSyncResponse :: encode 4 s.entries.length.toUInt32.toNat ++
    (s.entries.map fun p => p.2.serialize).flatten

variable {s : Entries}

/-- A snapshot carries the entries of the store, or as many as its wrapped count says. -/
theorem carried_snapshotMessage (h : ∀ p ∈ s.entries, Readable p.2) :
    carried (snapshotMessage s) = (s.entries.map (·.2)).take (s.entries.length % 2 ^ 32) := by
  set n := s.entries.length.toUInt32.toNat
  have hmod : n = s.entries.length % 2 ^ 32 := UInt32.toNat_ofNat'
  set blob := (s.entries.map fun p => p.2.serialize).flatten with hblob
  have r₁ : Rest (opSyncResponse :: encode 4 n ++ blob) 1 (encode 4 n ++ blob) :=
    ⟨[opSyncResponse], rfl, rfl⟩
  have hcount := r₁.readNat_eq (show n < 256 ^ 4 from s.entries.length.toUInt32.toNat_lt)
  rw [snapshotMessage, cons_append, carried_syncResponse, ← cons_append, hcount]
  have r₂ : Rest blob 0 (((s.entries.map (·.2)).map (·.serialize)).flatten ++ []) :=
    ⟨[], by simp [hblob, Function.comp_def], rfl⟩
  refine listedEntries_eq _ r₂ (by simpa using fun e k hp => h ⟨k, e⟩ hp) ?_
  rw [length_map]
  exact Nat.mod_le _ _

theorem readable_of_stored (h : ∀ k e, s.lookup k = some e → e.key = k ∧ Readable e) :
    ∀ p ∈ s.entries, Readable p.2 :=
  fun p hp => (h p.1 p.2 (mem_dlookup s.nodupKeys hp)).2

theorem mem_of_mem_carried_snapshotMessage (h : ∀ p ∈ s.entries, Readable p.2) {e : StorageEntry}
    (he : e ∈ carried (snapshotMessage s)) : ∃ k, s.lookup k = some e := by
  rw [carried_snapshotMessage h] at he
  obtain ⟨⟨k, e⟩, hp, rfl⟩ := mem_map.mp (mem_of_mem_take he)
  exact ⟨k, mem_dlookup s.nodupKeys hp⟩

/-! ## Ranks of absorbed entries -/

section

open Flood (rank)

theorem rank_absorb (s : Entries) (e : StorageEntry) (k : Bytes) :
    rank stamp ((absorb s e).lookup k) = if k = e.key then max (rank stamp (s.lookup k)) e.stamp
      else rank stamp (s.lookup k) := by
  have hiff : (s.lookup e.key).any (fun old => !e.winsOver old) = true ↔
      e.stamp ≤ rank stamp (s.lookup e.key) := by
    cases s.lookup e.key with
    | none => simp [rank]
    | some old =>
      rw [Option.any_some, Bool.not_eq_true', Bool.eq_false_iff, ne_eq,
        winsOver_iff_stamp_lt, not_lt, rank, WithBot.coe_le_coe]
  by_cases hk : k = e.key
  · subst hk
    rw [if_pos rfl, absorb]
    split_ifs with h
    · rw [max_eq_left (hiff.mp h)]
    · rw [AList.lookup_insert, rank, max_eq_right (not_le.mp (fun hle => h (hiff.mpr hle))).le]
  · rw [absorb]
    split_ifs with h
    · rfl
    · rw [AList.lookup_insert_ne hk]

theorem rank_foldl_absorb (s : Entries) (l : List StorageEntry) (k : Bytes) :
    rank stamp ((l.foldl absorb s).lookup k) = rank stamp (s.lookup k) ⊔
      (l.toFinset.filter (·.key = k)).sup fun e => (e.stamp : WithBot _) := by
  induction l generalizing s with
  | nil => simp
  | cons e l ih =>
    rw [foldl_cons, ih, rank_absorb, toFinset_cons, Finset.filter_insert]
    by_cases hk : k = e.key
    · rw [if_pos hk, if_pos hk.symm, Finset.sup_insert, max_assoc]
    · rw [if_neg hk, if_neg (Ne.symm hk)]

theorem entries_messages [DecidableEq V] (m : StorageManager V) (messages : List (V × Bytes)) :
    (messages.foldl (fun m x => (m.onStorageMessage x.1 x.2).1) m).entries =
      (messages.flatMap (carried ·.2)).foldl absorb m.entries := by
  induction messages generalizing m with
  | nil => rfl
  | cons x messages ih =>
    rw [foldl_cons, ih, (m.onStorageMessage_spec x.1 x.2).1, flatMap_cons, foldl_append]

/-- **Neither the order of messages nor their repetition matters**: whoever sends them, under every
key the highest stamp is stored of what was there and what they carry. -/
theorem rank_messages [DecidableEq V] (m : StorageManager V) (messages : List (V × Bytes))
    (k : Bytes) :
    rank stamp ((messages.foldl (fun m x => (m.onStorageMessage x.1 x.2).1) m).entries.lookup k) =
      rank stamp (m.entries.lookup k) ⊔ ((messages.flatMap (carried ·.2)).toFinset.filter
        (·.key = k)).sup fun e => (e.stamp : WithBot _) := by
  rw [entries_messages, rank_foldl_absorb]

theorem rank_le_foldl_absorb (l : List StorageEntry) (s : Entries) (k : Bytes) :
    rank stamp (s.lookup k) ≤ rank stamp ((l.foldl absorb s).lookup k) := by
  induction l generalizing s with
  | nil => exact le_rfl
  | cons e l ih =>
    refine le_trans ?_ (ih (absorb s e))
    rw [rank_absorb]
    split_ifs
    · exact le_max_left _ _
    · exact le_rfl

theorem stamp_le_rank_foldl_absorb {l : List StorageEntry} {e : StorageEntry} (he : e ∈ l)
    (s : Entries) : e.stamp ≤ rank stamp ((l.foldl absorb s).lookup e.key) := by
  induction l generalizing s with
  | nil => exact absurd he not_mem_nil
  | cons a l ih =>
    rcases mem_cons.mp he with rfl | he
    · refine le_trans ?_ (rank_le_foldl_absorb l (absorb s e) e.key)
      rw [rank_absorb, if_pos rfl]
      exact le_max_right _ _
    · exact ih he (absorb s a)

theorem lookup_foldl_absorb_cases (l : List StorageEntry) (s : Entries) (k : Bytes) :
    (l.foldl absorb s).lookup k = s.lookup k ∨
      ∃ e ∈ l, e.key = k ∧ rank stamp (s.lookup k) < e.stamp ∧
        (l.foldl absorb s).lookup k = some e := by
  induction l generalizing s with
  | nil => exact .inl rfl
  | cons a l ih =>
    have hle := rank_le_foldl_absorb [a] s k
    rcases ih (absorb s a) with h | ⟨e, he, hk, hlt, h⟩
    · rw [foldl_cons, h]
      unfold absorb
      split_ifs with hlww
      · exact .inl rfl
      by_cases hk : k = a.key
      · subst hk
        refine .inr ⟨a, (.head _), rfl, ?_, AList.lookup_insert _⟩
        cases hs : s.lookup a.key with
        | none => exact WithBot.bot_lt_coe _
        | some old =>
          simp only [hs, Option.any_some, Bool.not_eq_true', Bool.not_eq_false] at hlww
          exact WithBot.coe_lt_coe.mpr ((a.winsOver_iff_stamp_lt old).mp hlww)
      · exact .inl (AList.lookup_insert_ne hk)
    · exact .inr ⟨e, .tail _ he, hk, hle.trans_lt hlt, h⟩

end

/-! ## What is sent in answer to a message -/

namespace StorageManager

/-- The connected peers. -/
def peers (m : StorageManager V) : List V :=
  match m.network with
  | none => []
  | some net => net.connectedPeers

/-- The manager once `PeerNetwork` lists one more peer. -/
def addPeer (m : StorageManager V) (peer : V) : StorageManager V :=
  { m with network := m.network.map fun net =>
      { net with connectedPeers := net.connectedPeers ++ [peer] } }

/-- What a manager sends when it gets a payload from `u`. -/
inductive Handled [DecidableEq V] (m : StorageManager V) (u : V) (payload : Bytes) :
    List (V × Bytes) → Prop
  | forwarded (e : StorageEntry) (head : payload.head? = some opEntry)
      (carries : carried payload = [e]) (wins : m.loses e.key e = false) :
      Handled m u payload ((m.peers.filter (· ≠ u)).map fun w => (w, entryMessage e))
  | dropped (head : payload.head? = some opEntry)
      (loses : ∀ e ∈ carried payload, m.loses e.key e = true) : Handled m u payload []
  | answered (head : payload.head? = some opSyncRequest) :
      Handled m u payload (if m.network.isSome then [(u, snapshotMessage m.entries)] else [])
  | absorbed (head : payload.head? ≠ some opEntry) (head' : payload.head? ≠ some opSyncRequest) :
      Handled m u payload []

variable [DecidableEq V] (m : StorageManager V) (u : V) (l : List V)

theorem handled_onEntry (buf : Bytes) :
    m.Handled u (opEntry :: buf) ((m.onEntry u buf).2.flatMap (Event.sends l)) := by
  have hc := carried_entry buf
  unfold onEntry
  cases hd : deserialize buf 0 with
  | none =>
    rw [hd] at hc
    exact .dropped rfl (by simp [hc])
  | some p =>
    obtain ⟨e, n⟩ := p
    rw [hd] at hc
    dsimp only at hc ⊢
    split_ifs at hc ⊢ with hsum
    · obtain ⟨hl, ha⟩ | ⟨hl, event, ha⟩ := m.applyRemoteEntry_cases e
      · simp only [ha]
        exact .dropped rfl (by simp [hc, hl])
      · simp only [ha]
        have := Handled.forwarded (u := u) e rfl hc hl
        unfold forwardEntry
        cases hn : m.network with
        | none => simpa [Event.sends, peers, hn] using this
        | some net =>
          simpa [Event.sends, peers, hn, flatMap_map, ← map_eq_flatMap] using this
    · exact .dropped rfl (by simp [hc])

omit [DecidableEq V] in
theorem sends_applySnapshot (buf : Bytes) (count offset : ℕ) :
    (m.applySnapshot buf count offset).2.2.flatMap (Event.sends l) = [] := by
  induction count generalizing m offset with
  | zero => rfl
  | succ count ih =>
    unfold applySnapshot
    split_ifs with hend
    · rfl
    cases hd : deserialize buf offset with
    | none => rfl
    | some p =>
      obtain ⟨e, n⟩ := p
      dsimp only
      split_ifs with hsum
      · obtain ⟨hl, ha⟩ | ⟨hl, event, ha⟩ := m.applyRemoteEntry_cases e
        · simp only [ha]
          exact ih m _
        · simp only [ha]
          simp [Event.sends, ih]
      · exact ih m _

/-- **What a message makes a manager send.** -/
theorem handled_onStorageMessage (payload : Bytes) :
    m.Handled u payload ((m.onStorageMessage u payload).2.flatMap (Event.sends l)) := by
  cases payload with
  | nil => exact .absorbed (by simp) (by simp)
  | cons op buf =>
    simp only [onStorageMessage]
    split_ifs with hentry hrequest hresponse
    · subst hentry
      exact m.handled_onEntry u l buf
    · subst hrequest
      have := @Handled.answered V _ m u (opSyncRequest :: buf) rfl
      unfold sendSyncResponse
      cases hn : m.network with
      | none => simpa [hn] using this
      | some net => simpa [hn, Event.sends, snapshotMessage] using this
    · subst hresponse
      have := @Handled.absorbed V _ m u (opSyncResponse :: buf) (by simpa) (by simpa)
      unfold onSyncResponse
      split
      · exact this
      · simpa [sends_applySnapshot, Event.sends] using this
    · exact .absorbed (by simpa using hentry) (by simpa using hrequest)

end StorageManager

/-! ## Messages under way -/

namespace Network

variable [DecidableEq V] {net : Network V} {u v a b : V} {p payload : Bytes} {rest : List Bytes}

/-- The head of the link from `u` to `v` is delivered, and `rest` stays. -/
def receive (net : Network V) (u v : V) (payload : Bytes) (rest : List Bytes) : Network V :=
  (net.setLink u v rest).act v ((net.nodes v).onStorageMessage u payload)

omit [DecidableEq V] in
theorem underWay_head (head : net.links u v = payload :: rest) : net.UnderWay u v payload :=
  .inr (head ▸ (.head _))

theorem underWay_receive (head : net.links u v = payload :: rest)
    (h : (net.receive u v payload rest).UnderWay a b p) : net.UnderWay a b p ∨
      ∃ sent, (net.nodes v).Handled u payload sent ∧ a = v ∧ (b, p) ∈ sent := by
  rcases underWay_act.mp h with h | ⟨rfl, h⟩
  · exact .inl (underWay_of_rest head h)
  · exact .inr ⟨_, (net.nodes a).handled_onStorageMessage u _ payload, rfl, h⟩

variable (net : Network V)

theorem nodes_receive_self (u v : V) (payload : Bytes) (rest : List Bytes) :
    (net.receive u v payload rest).nodes v = ((net.nodes v).onStorageMessage u payload).1 := by
  simp [receive, act]

theorem nodes_receive_of_ne (u : V) {v w : V} (h : w ≠ v) (payload : Bytes)
    (rest : List Bytes) : (net.receive u v payload rest).nodes w = net.nodes w := by
  simp [receive, act, setLink, h]

theorem peers_receive (u v w : V) (payload : Bytes) (rest : List Bytes) :
    (net.receive u v payload rest).peers w = net.peers w := by
  by_cases hw : w = v
  · subst hw
    simp [peers, nodes_receive_self, ((net.nodes w).onStorageMessage_spec u payload).2.1]
  · simp [peers, nodes_receive_of_ne net u hw]

/-! ## Steps -/

/-- A step of the mesh: a call at a node, a link that comes up, a message that leaves its node or is
delivered. -/
inductive Action (V : Type)
  | put (v : V) (key : Bytes) (value : StorageManager.Value) (clock : UInt64)
  | remove (v : V) (key : Bytes) (clock : UInt64)
  | clear (v : V) (clock : Bytes → UInt64)
  | compact (v : V)
  | linkUp (u v : V)
  | send (u v : V) (payload : Bytes)
  | deliver (u v : V)

section

variable (net : Network V)

/-- A call at `v` whose new entries count as accepted. -/
def commitAt (v : V) (r : StorageManager V × List (Event V)) : Network V :=
  { net.act v r with
    accepted := { x | x ∈ net.accepted ∨ ∃ key old, Event.stored key old x ∈ r.2 } }

/-- The peer `v` is connected at `u`, which asks it for a snapshot. -/
def connect (u v : V) : Network V :=
  let m := (net.nodes u).addPeer v
  net.act u (m.onPeerConnected v)

/-- A step is made. A link comes up at both ends. -/
def perform : Action V → Network V
  | .put v key value clock => net.put v key value clock
  | .remove v key clock => net.commitAt v ((net.nodes v).remove key clock).2
  | .clear v clock => net.commitAt v ((net.nodes v).clear clock)
  | .compact v => net.act v ((net.nodes v).compact.2, [])
  | .linkUp u v => (net.connect u v).connect v u
  | .send u v payload => net.transmit u v payload
  | .deliver u v =>
    match net.links u v with
    | [] => net
    | payload :: rest => net.receive u v payload rest

/-- A step is possible. The links carry every message, so the lengths of an entry that is put fit
their fields. -/
def Enabled : Action V → Prop
  | .put v key value clock => (net.putEntry v key value clock).LengthsFit
  | .remove _ _ _ => True
  | .clear _ _ => True
  | .compact _ => True
  | .linkUp u v => u ≠ v ∧ v ∉ net.peers u ∧ u ∉ net.peers v
  | .send u v payload => (v, payload) ∈ net.outbox u
  | .deliver u v => net.links u v ≠ []

end

/-- The networks reached by steps that meet a condition. -/
inductive Reaches (ok : Network V → Action V → Prop) (net₀ : Network V) : Network V → Prop
  | start : Reaches ok net₀ net₀
  | step {net : Network V} (run : Reaches ok net₀ net) (a : Action V) (enabled : net.Enabled a)
      (allowed : ok net a) : Reaches ok net₀ (net.perform a)

instance (net : Network V) : DecidablePred net.Enabled
  | .put v key value clock => inferInstanceAs (Decidable (net.putEntry v key value clock).LengthsFit)
  | .remove _ _ _ => .isTrue trivial
  | .clear _ _ => .isTrue trivial
  | .compact _ => .isTrue trivial
  | .linkUp _ _ => inferInstanceAs (Decidable (_ ∧ _))
  | .send u v payload => inferInstanceAs (Decidable ((v, payload) ∈ net.outbox u))
  | .deliver u v => inferInstanceAs (Decidable (net.links u v ≠ []))

/-- A run of given steps. -/
def performAll (net : Network V) (actions : List (Action V)) : Network V :=
  actions.foldl perform net

/-- The steps of a run are possible and allowed, one after the other. -/
def Follows (ok : Network V → Action V → Prop) (net : Network V) : List (Action V) → Prop
  | [] => True
  | a :: actions => net.Enabled a ∧ ok net a ∧ (net.perform a).Follows ok actions

instance decidableFollows (ok : Network V → Action V → Prop) [∀ net, DecidablePred (ok net)]
    (net : Network V) : (actions : List (Action V)) → Decidable (net.Follows ok actions)
  | [] => .isTrue trivial
  | a :: actions =>
    have := decidableFollows ok (net.perform a) actions
    inferInstanceAs (Decidable (_ ∧ _))

variable {actions : List (Action V)}

theorem Follows.mono {ok ok' : Network V → Action V → Prop} {net : Network V}
    (h : net.Follows ok actions) (himp : ∀ net, ∀ a ∈ actions, ok net a → ok' net a) :
    net.Follows ok' actions := by
  induction actions generalizing net with
  | nil => trivial
  | cons a actions ih =>
    exact ⟨h.1, himp net a (.head _) h.2.1,
      ih h.2.2 fun net b hb => himp net b (.tail _ hb)⟩

theorem Reaches.performAll {ok : Network V → Action V → Prop} {net₀ net : Network V}
    (run : Reaches ok net₀ net) (h : net.Follows ok actions) :
    Reaches ok net₀ (net.performAll actions) := by
  induction actions generalizing net with
  | nil => exact run
  | cons a actions ih => exact ih (run.step a h.1 h.2.1) h.2.2

/-- Links that come up and messages bring no entries of their own. -/
def Silent : Action V → Bool
  | .put _ _ _ _ => false
  | .remove _ _ _ => false
  | .clear _ _ => false
  | .compact _ => true
  | .linkUp _ _ => true
  | .send _ _ _ => true
  | .deliver _ _ => true

theorem accepted_perform {a : Action V} (ha : Silent a = true) (net : Network V) :
    (net.perform a).accepted = net.accepted := by
  cases a with
  | put | remove | clear => exact absurd ha Bool.false_ne_true
  | compact | linkUp | send => rfl
  | deliver u v =>
    simp only [perform]
    split <;> rfl

theorem accepted_performAll (h : ∀ a ∈ actions, Silent a = true) (net : Network V) :
    (net.performAll actions).accepted = net.accepted := by
  induction actions generalizing net with
  | nil => rfl
  | cons a actions ih =>
    exact (ih (fun b hb => h b (.tail _ hb)) _).trans (accepted_perform (h a (.head _)) net)

/-- Nodes with the given ids, with nothing stored and no links. -/
def apart (id : V → Bytes) : Network V where
  nodes v := ⟨some ⟨id v, []⟩, {}, ∅, .notStarted, false, {}, false⟩
  outbox _ := []
  links _ _ := []
  accepted := ∅
  offered := ∅

end Network

end Librats.Storage
