import Librats.Subsystems.PubSub

/-!
# The meshes of a `PubSub`

Whatever is called, the mesh and the fanout are among the subscribers, there is a mesh only for
topics we subscribe to, and a peer that left is in no set until it sends something again. A limit
can be negative, and then no mesh is within it (`negative_limit`).
-/

namespace Librats.PubSub

open List Finset State

theorem randomSample_subset (r : Sampler) (s : Finset PeerId) (n : ℤ) : randomSample r s n ⊆ s := by
  unfold randomSample
  split_ifs
  · exact empty_subset s
  · exact subset_rfl
  · exact r.subset s n.toNat

theorem randomSample_cases (r : Sampler) (s : Finset PeerId) {n : ℤ} (hn : 0 < n) :
    randomSample r s n = s ∧ (s.card : ℤ) ≤ n ∨ ((randomSample r s n).card : ℤ) = n := by
  unfold randomSample
  rw [if_neg (not_le.mpr hn)]
  split_ifs with hcard
  · exact .inl ⟨rfl, hcard⟩
  · right
    rw [r.card s n.toNat (by omega)]
    exact Int.toNat_of_nonneg hn.le

/-! ## Maintenance -/

/-- The mesh is within its limits, or has all subscribers. -/
def Balanced (c : Config) (t : Topic) : Prop :=
  (t.mesh.card : ℤ) ≤ c.meshHigh ∧ (c.meshLow ≤ (t.mesh.card : ℤ) ∨ t.mesh = t.subscribers)

section

variable (c : Config) (r : Sampler) (t : Topic)

@[simp] theorem maintainMesh_subscribers : (maintainMesh c r t).1.subscribers = t.subscribers := by
  unfold maintainMesh
  split_ifs <;> rfl

@[simp] theorem maintainMesh_fanout : (maintainMesh c r t).1.fanout = t.fanout := by
  unfold maintainMesh
  split_ifs <;> rfl

theorem maintainMesh_mesh_subset : (maintainMesh c r t).1.mesh ⊆ t.mesh ∪ t.subscribers := by
  unfold maintainMesh
  split_ifs
  · exact union_subset_union subset_rfl ((randomSample_subset ..).trans sdiff_subset)
  · exact sdiff_subset.trans subset_union_left
  · exact subset_union_left

variable {c t}

theorem balanced_maintainMesh (hlow : c.meshLow ≤ c.meshTarget) (hhigh : c.meshTarget ≤ c.meshHigh)
    (hpos : 0 ≤ c.meshHigh) (hmesh : t.mesh ⊆ t.subscribers) :
    Balanced c (maintainMesh c r t).1 := by
  unfold maintainMesh
  split_ifs with hfew hmany
  · -- too few: either all other subscribers join, or the mesh reaches its target
    have hdisjoint : Disjoint t.mesh
        (randomSample r (t.subscribers \ t.mesh) (c.meshTarget - t.mesh.card)) :=
      disjoint_of_subset_right (randomSample_subset ..) disjoint_sdiff
    have hcard := card_union_of_disjoint hdisjoint
    obtain ⟨hall, hsize⟩ | hsize :=
      randomSample_cases r (t.subscribers \ t.mesh) (n := c.meshTarget - t.mesh.card) (by omega)
    · rw [hall] at hcard ⊢
      refine ⟨?_, .inr (union_sdiff_of_subset hmesh)⟩
      simp only [hcard]
      omega
    · refine ⟨?_, .inl ?_⟩ <;> simp only [hcard] <;> omega
  · -- too many: the mesh shrinks to its target
    have hcard := card_sdiff_add_card_eq_card
      (randomSample_subset r t.mesh (t.mesh.card - c.meshTarget))
    obtain ⟨hall, hsize⟩ | hsize :=
      randomSample_cases r t.mesh (n := t.mesh.card - c.meshTarget) (by omega)
    · rw [hall] at hcard ⊢
      refine ⟨?_, .inl ?_⟩ <;> simp only <;> omega
    · refine ⟨?_, .inl ?_⟩ <;> simp only <;> omega
  · exact ⟨not_lt.mp hmany, .inl (not_lt.mp hfew)⟩

end

/-! ## The invariant -/

/-- What holds of the sets of peers. `Gone` are no subscribers of a topic. -/
structure Meshed (Gone : PeerId → Bytes → Prop) (s : State) : Prop where
  mesh : ∀ topic, (s.topics topic).mesh ⊆ (s.topics topic).subscribers
  fanout : ∀ topic, (s.topics topic).fanout ⊆ (s.topics topic).subscribers
  unsubscribed : ∀ topic ∉ s.subscriptions, (s.topics topic).mesh = ∅
  gone : ∀ p topic, Gone p topic → p ∉ (s.topics topic).subscribers

/-- A peer is in none of the sets of a topic. -/
def Absent (p : PeerId) (t : Topic) : Prop := p ∉ t.subscribers ∧ p ∉ t.mesh ∧ p ∉ t.fanout

/-- What is noted of maintenance is in order. -/
def AllBalanced (c : Config) (effects : List Effect) : Prop :=
  ∀ t, .maintained t ∈ effects → Balanced c t

/-- The watermarks are in order, and not negative. -/
structure Ordered (c : Config) : Prop where
  low : c.meshLow ≤ c.meshTarget
  high : c.meshTarget ≤ c.meshHigh
  nonneg : 0 ≤ c.meshHigh

/-- The states have the same peers in the same sets. -/
structure SamePeering (s s' : State) : Prop where
  topics : s'.topics = s.topics
  subscriptions : s'.subscriptions = s.subscriptions
  config : s'.config = s.config

theorem SamePeering.trans {a b c : State} (h : SamePeering a b) (h' : SamePeering b c) :
    SamePeering a c :=
  ⟨h'.topics.trans h.topics, h'.subscriptions.trans h.subscriptions, h'.config.trans h.config⟩

theorem samePeering_markSeen (s : State) (id : Bytes) : SamePeering s (s.markSeen id).2 := by
  unfold markSeen
  split
  · exact ⟨rfl, rfl, rfl⟩
  · exact ⟨rfl, rfl, rfl⟩

theorem samePeering_cacheMessage (s : State) (id topic frame : Bytes) :
    SamePeering s (s.cacheMessage id topic frame) := by
  unfold cacheMessage
  split
  · exact ⟨rfl, rfl, rfl⟩
  · exact ⟨rfl, rfl, rfl⟩

theorem samePeering_setValidator (s : State) (topic : Bytes) (v : Option Validator) :
    SamePeering s (s.setValidator topic v) := by
  unfold setValidator
  split
  · exact ⟨rfl, rfl, rfl⟩
  · exact ⟨rfl, rfl, rfl⟩

section

variable {Gone : PeerId → Bytes → Prop} {s s' : State} {r : Sampler} {topic : Bytes} {t : Topic}
  {p from_ : PeerId} {c : Config} {effects : List Effect}

theorem Meshed.absent (h : Meshed Gone s) (hgone : Gone p topic) : Absent p (s.topics topic) :=
  ⟨h.gone p topic hgone, fun hp => h.gone p topic hgone (h.mesh topic hp),
    fun hp => h.gone p topic hgone (h.fanout topic hp)⟩

theorem Meshed.congr (h : Meshed Gone s) (hsame : SamePeering s s') : Meshed Gone s' := by
  refine ⟨?_, ?_, ?_, ?_⟩
  · rw [hsame.topics]
    exact h.mesh
  · rw [hsame.topics]
    exact h.fanout
  · rw [hsame.topics, hsame.subscriptions]
    exact h.unsubscribed
  · rw [hsame.topics]
    exact h.gone

theorem Meshed.setTopic (h : Meshed Gone s) (hmesh : t.mesh ⊆ t.subscribers)
    (hfanout : t.fanout ⊆ t.subscribers) (hempty : topic ∉ s.subscriptions → t.mesh = ∅)
    (hgone : ∀ p, Gone p topic → p ∉ t.subscribers) : Meshed Gone (s.setTopic topic t) := by
  have hcases (x : Bytes) : x = topic ∧ (s.setTopic topic t).topics x = t ∨
      x ≠ topic ∧ (s.setTopic topic t).topics x = s.topics x := by
    by_cases hx : x = topic
    · exact .inl ⟨hx, by rw [hx]; exact Function.update_self ..⟩
    · exact .inr ⟨hx, Function.update_of_ne hx ..⟩
  refine ⟨fun x => ?_, fun x => ?_, fun x hx => ?_, fun p x hp => ?_⟩ <;>
    obtain ⟨rfl, heq⟩ | ⟨-, heq⟩ := hcases x <;> rw [heq]
  · exact hmesh
  · exact h.mesh x
  · exact hfanout
  · exact h.fanout x
  · exact hempty hx
  · exact h.unsubscribed x hx
  · exact hgone p hp
  · exact h.gone p x hp

theorem Meshed.maintain (h : Meshed Gone s) (r : Sampler) (topic : Bytes) :
    Meshed Gone (s.maintainMeshLocked r topic).1 := by
  unfold maintainMeshLocked
  split_ifs with hsubscribed
  · refine h.setTopic ?_ ?_ (fun hno => absurd hsubscribed hno) ?_
    · rw [maintainMesh_subscribers]
      exact (maintainMesh_mesh_subset ..).trans (union_subset (h.mesh topic) subset_rfl)
    · rw [maintainMesh_subscribers, maintainMesh_fanout]
      exact h.fanout topic
    · rw [maintainMesh_subscribers]
      exact fun p hp => h.gone p topic hp
  · exact h

/-- What a call comes to keeps the sets in order. -/
structure Keeps (Gone : PeerId → Bytes → Prop) (c : Config) (x : State × List Effect) : Prop where
  meshed : Meshed Gone x.1
  config : x.1.config = c
  balanced : AllBalanced c x.2

variable {x : State × List Effect}

theorem Keeps.weaken {Gone' : PeerId → Bytes → Prop} (h : Keeps Gone' c x)
    (hgone : ∀ p topic, Gone p topic → Gone' p topic) : Keeps Gone c x :=
  ⟨⟨h.meshed.mesh, h.meshed.fanout, h.meshed.unsubscribed,
    fun p topic hp => h.meshed.gone p topic (hgone p topic hp)⟩, h.config, h.balanced⟩

variable (h : Meshed Gone s) {y : State × List Effect}

include h

theorem Meshed.keeps (hconfig : s.config = c) {effects : List Effect}
    (hplain : ∀ t, .maintained t ∉ effects) : Keeps Gone c (s, effects) :=
  ⟨h, hconfig, fun t ht => absurd ht (hplain t)⟩

omit h in
theorem Keeps.cons (h : Keeps Gone c (s, effects)) {e : Effect} (he : ∀ t, .maintained t ≠ e) :
    Keeps Gone c (s, e :: effects) :=
  ⟨h.meshed, h.config, fun t ht => h.balanced t ((mem_cons.mp ht).resolve_left (he t))⟩

theorem Meshed.maintains (hc : Ordered s.config) (r : Sampler) (topic : Bytes) :
    Keeps Gone s.config (s.maintainMeshLocked r topic) := by
  refine ⟨h.maintain r topic, ?_, fun t ht => ?_⟩
  · unfold maintainMeshLocked
    split_ifs <;> rfl
  · unfold maintainMeshLocked at ht
    split_ifs at ht with hsubscribed
    · obtain heq | ht := mem_cons.mp ht
      · obtain rfl := Effect.maintained.inj heq
        exact balanced_maintainMesh r hc.low hc.high hc.nonneg (h.mesh topic)
      · simp [ctrlFrames] at ht
    · exact absurd ht not_mem_nil

/-! ## The calls -/

theorem Meshed.subscribe (hc : Ordered s.config) (r : Sampler) (topic : Bytes) :
    Keeps Gone s.config (s.subscribe r topic) := by
  unfold State.subscribe
  split_ifs with hsubscribed
  · exact h.keeps rfl fun _ => not_mem_nil
  · have hmeshed : Meshed Gone { s with subscriptions := insert topic s.subscriptions } :=
      ⟨h.mesh, h.fanout, fun x hx => h.unsubscribed x fun hmem =>
        hx (mem_insert_of_mem hmem), h.gone⟩
    exact (hmeshed.maintains hc r topic).cons nofun

theorem Meshed.unsubscribe (topic : Bytes) : Keeps Gone s.config (s.unsubscribe topic) := by
  unfold State.unsubscribe
  split_ifs with hsubscribed
  · have hcleared : Meshed Gone (s.setTopic topic { s.topics topic with mesh := ∅ }) :=
      h.setTopic (empty_subset _) (h.fanout topic) (fun _ => rfl) fun p => h.gone p topic
    have hmeshed : Meshed Gone ({ s with subscriptions := s.subscriptions.erase topic }.setTopic
        topic { s.topics topic with mesh := ∅ }) := by
      refine ⟨hcleared.mesh, hcleared.fanout, fun x hx => ?_, hcleared.gone⟩
      by_cases heq : x = topic
      · subst heq
        simp [State.setTopic]
      · exact hcleared.unsubscribed x fun hmem => hx (mem_erase.mpr ⟨heq, hmem⟩)
    exact hmeshed.keeps rfl fun t ht => by simp at ht
  · exact h.keeps rfl fun _ => not_mem_nil

theorem Meshed.joins (hc : Ordered s.config) (r : Sampler)
    (hfrom : ∀ x, ¬Gone from_ x) (topic : Bytes) :
    Keeps Gone s.config (s.recvSubscription r from_ topic true) := by
  have hjoined : Meshed Gone (s.setTopic topic
      { s.topics topic with subscribers := insert from_ (s.topics topic).subscribers }) := by
    refine h.setTopic ((h.mesh topic).trans (subset_insert ..))
      ((h.fanout topic).trans (subset_insert ..)) (h.unsubscribed topic) fun p hp hmem => ?_
    obtain rfl | hmem := mem_insert.mp hmem
    · exact hfrom topic hp
    · exact h.gone p topic hp hmem
  exact hjoined.maintains hc r topic

theorem Meshed.leaves (r : Sampler) (from_ : PeerId) (topic : Bytes) :
    Keeps (fun q x => Gone q x ∨ q = from_ ∧ x = topic) s.config
      (s.recvSubscription r from_ topic false) := by
  have hleft : Meshed Gone (s.recvSubscription r from_ topic false).1 := by
    refine h.setTopic ?_ ?_ ?_ ?_
    · exact erase_subset_erase from_ (h.mesh topic)
    · exact erase_subset_erase from_ (h.fanout topic)
    · intro hno
      simp [h.unsubscribed topic hno]
    · exact fun p hp hmem => h.gone p topic hp (mem_of_mem_erase hmem)
  refine ⟨⟨hleft.mesh, hleft.fanout, hleft.unsubscribed, ?_⟩, rfl, nofun⟩
  rintro q x (hq | ⟨rfl, rfl⟩)
  · exact hleft.gone q x hq
  · simp [State.recvSubscription, State.setTopic]

theorem Meshed.recvGraft (hfrom : ∀ x, ¬Gone from_ x) (topic : Bytes) :
    Keeps Gone s.config (s.recvGraft from_ topic) := by
  unfold State.recvGraft
  split_ifs with hsubscribed
  · refine Meshed.keeps (h.setTopic ?_ ?_ (fun hno => absurd hsubscribed hno) ?_) rfl
      fun _ => not_mem_nil
    · exact insert_subset_insert from_ (h.mesh topic)
    · exact (h.fanout topic).trans (subset_insert ..)
    · intro p hp hmem
      obtain rfl | hmem := mem_insert.mp hmem
      · exact hfrom topic hp
      · exact h.gone p topic hp hmem
  · exact h.keeps rfl fun t ht => by simp at ht

theorem Meshed.recvPrune (from_ : PeerId) (topic : Bytes) :
    Keeps Gone s.config (s.recvPrune from_ topic) := by
  have hmeshed : Meshed Gone (s.setTopic topic
      { s.topics topic with mesh := (s.topics topic).mesh.erase from_ }) := by
    refine h.setTopic ?_ (h.fanout topic) ?_ fun p => h.gone p topic
    · exact (Finset.erase_subset ..).trans (h.mesh topic)
    · intro hno
      simp [h.unsubscribed topic hno]
  exact hmeshed.keeps rfl fun _ => not_mem_nil

theorem Meshed.onPeerGone (p : PeerId) :
    Keeps (fun q topic => Gone q topic ∨ q = p) s.config (s.onPeerGone p) := by
  refine ⟨⟨fun topic => ?_, fun topic => ?_, fun topic hno => ?_, fun q topic hq hmem => ?_⟩, rfl,
    nofun⟩
  · exact erase_subset_erase p (h.mesh topic)
  · exact erase_subset_erase p (h.fanout topic)
  · simp [State.onPeerGone, h.unsubscribed topic hno]
  · obtain ⟨hne, hmem⟩ := mem_erase.mp hmem
    exact h.gone q topic (hq.resolve_right hne) hmem

theorem Meshed.publishTargets (r : Sampler) (topic : Bytes) (now : ℤ) :
    Meshed Gone (s.publishTargets r topic now).1 := by
  unfold State.publishTargets
  split_ifs with hsubscribed
  · exact h
  · refine h.setTopic (h.mesh topic) ?_ (h.unsubscribed topic) fun p => h.gone p topic
    split_ifs
    · exact union_subset (h.fanout topic) ((randomSample_subset ..).trans sdiff_subset)
    · exact h.fanout topic

theorem Meshed.unmoved (hsame : SamePeering s s')
    (hplain : ∀ t, .maintained t ∉ effects) : Keeps Gone s.config (s', effects) :=
  (h.congr hsame).keeps hsame.config hplain

theorem Meshed.publish (r : Sampler) (topic data : Bytes) (now : ℤ) :
    Keeps Gone s.config (s.publish r topic data now) := by
  have hnumbered : Meshed Gone { s with seqno := s.seqno + 1 } := h.congr ⟨rfl, rfl, rfl⟩
  have htargets := hnumbered.publishTargets r topic now
  have hconfig : ({ s with seqno := s.seqno + 1 }.publishTargets r topic now).1.config = s.config := by
    unfold State.publishTargets
    split_ifs <;> rfl
  rw [← hconfig]
  refine htargets.unmoved ((samePeering_markSeen ..).trans (samePeering_cacheMessage ..)) fun t => ?_
  simp only [deliverLocal]
  split_ifs <;> simp

theorem Meshed.recvPublish (from_ : PeerId) (frame : Bytes) (origin : PeerId)
    (seqno : UInt64) (topic data : Bytes) :
    Keeps Gone s.config (s.recvPublish from_ frame origin seqno topic data) := by
  have hmarked := samePeering_markSeen s (makeId origin seqno)
  simp only [State.recvPublish]
  split
  · exact h.unmoved hmarked fun _ => not_mem_nil
  · split
    · exact h.unmoved hmarked fun t => by simp
    · refine h.unmoved (hmarked.trans (samePeering_cacheMessage ..)) fun t => ?_
      simp only [deliverLocal]
      split_ifs <;> simp

theorem Meshed.onGossip (hc : Ordered s.config) (r : Sampler)
    (hfrom : ∀ x, ¬Gone from_ x) (payload : Bytes) :
    Keeps Gone s.config (s.onGossip r from_ payload) := by
  unfold State.onGossip
  split
  · exact h.keeps rfl fun _ => not_mem_nil
  · exact h.joins hc r hfrom _
  · exact (h.leaves r from_ _).weaken fun _ _ => .inl
  · exact h.recvGraft hfrom _
  · exact h.recvPrune from_ _
  · refine h.keeps rfl fun t => ?_
    split_ifs <;> simp
  · exact h.keeps rfl fun t => by simp
  · exact h.recvPublish from_ payload _ _ _ _

/-! ## Heartbeats -/

omit h in
theorem Keeps.heartbeatTopic (h : Keeps Gone c x) (hc : Ordered c) (gossip : Bytes → List Bytes)
    (r : Bytes → Sampler × Sampler) (topic : Bytes) :
    Keeps Gone c (heartbeatTopic gossip r x topic) := by
  have hmaintained := h.meshed.maintains (h.config.symm ▸ hc) (r topic).1 topic
  rw [h.config] at hmaintained
  refine ⟨hmaintained.meshed, hmaintained.config, fun t ht => ?_⟩
  simp only [State.heartbeatTopic, mem_append] at ht
  obtain (ht | ht) | ht := ht
  · exact h.balanced t ht
  · exact hmaintained.balanced t ht
  · split_ifs at ht <;> simp at ht

omit h in
theorem Keeps.heartbeatTopics (hc : Ordered c) (gossip : Bytes → List Bytes)
    (r : Bytes → Sampler × Sampler) (h : Keeps Gone c x) (order : List Bytes) :
    Keeps Gone c (order.foldl (State.heartbeatTopic gossip r) x) := by
  induction order generalizing x with
  | nil => exact h
  | cons topic order ih => exact ih (h.heartbeatTopic hc gossip r topic)

theorem Meshed.expireFanout (now : ℤ) : Meshed Gone (s.expireFanout now) := by
  have hcases (x : Bytes) : (s.expireFanout now).topics x = { s.topics x with fanout := ∅ } ∨
      (s.expireFanout now).topics x = s.topics x := by
    simp only [State.expireFanout]
    split_ifs
    · exact .inl rfl
    · exact .inr rfl
  refine ⟨fun x => ?_, fun x => ?_, fun x hx => ?_, fun p x hp => ?_⟩ <;>
    obtain heq | heq := hcases x <;> rw [heq]
  · exact h.mesh x
  · exact h.mesh x
  · exact empty_subset _
  · exact h.fanout x
  · exact h.unsubscribed x hx
  · exact h.unsubscribed x hx
  · exact h.gone p x hp
  · exact h.gone p x hp

theorem Meshed.doHeartbeat (hc : Ordered s.config) (order : List Bytes)
    (r : Bytes → Sampler × Sampler) (now : ℤ) :
    Keeps Gone s.config (s.doHeartbeat order r now) := by
  have hstart : Keeps Gone s.config (s, []) := h.keeps rfl fun _ => not_mem_nil
  have htopics := hstart.heartbeatTopics hc s.gossipIds r order
  exact ⟨(htopics.meshed.expireFanout now).congr ⟨rfl, rfl, rfl⟩, htopics.config, htopics.balanced⟩

omit h

/-! ## Runs -/

/-- Nothing comes from a peer that is gone. -/
def Call.Quiet (Gone : PeerId → Bytes → Prop) : Call → Prop
  | .gossip from_ _ _ => ∀ topic, ¬Gone from_ topic
  | _ => True

theorem Meshed.call (h : Meshed Gone s) (hc : Ordered s.config) {x : Call}
    (hquiet : x.Quiet Gone) (hcall : s.call x = some y) : Keeps Gone s.config y := by
  cases x with
  | subscribe topic r =>
    cases hcall
    exact h.subscribe hc r topic
  | unsubscribe topic =>
    cases hcall
    exact h.unsubscribe topic
  | publish topic data r now =>
    cases hcall
    exact h.publish r topic data now
  | setValidator topic v =>
    cases hcall
    exact h.unmoved (samePeering_setValidator ..) fun _ => not_mem_nil
  | gossip from_ payload r =>
    cases hcall
    exact h.onGossip hc r hquiet payload
  | newPeer peer order =>
    obtain ⟨-, hcall⟩ := Option.ite_none_right_eq_some.mp hcall
    cases hcall
    exact h.keeps rfl fun t => by simp
  | peerGone peer =>
    cases hcall
    exact (h.onPeerGone peer).weaken fun _ _ => .inl
  | heartbeat order r now =>
    obtain ⟨-, hcall⟩ := Option.ite_none_right_eq_some.mp hcall
    cases hcall
    exact h.doHeartbeat hc order r now

theorem Meshed.run (h : Meshed Gone s) (hc : Ordered s.config) {calls : List Call}
    (hquiet : ∀ x ∈ calls, x.Quiet Gone) (hrun : s.run calls = some y) : Keeps Gone s.config y := by
  induction calls generalizing s y with
  | nil =>
    cases hrun
    exact h.keeps rfl fun _ => not_mem_nil
  | cons x calls ih =>
    obtain ⟨hx, hcalls⟩ := forall_mem_cons.mp hquiet
    obtain ⟨s₁, first, more, hcall, hrest, heq⟩ := run_cons hrun
    have hfirst := h.call hc hx hcall
    have hmore := ih hfirst.meshed (hfirst.config.symm ▸ hc) hcalls hrest
    rw [hfirst.config] at hmore
    refine ⟨hmore.meshed, hmore.config, fun t ht => ?_⟩
    rw [heq] at ht
    obtain ht | ht := mem_append.mp ht
    · exact hfirst.balanced t ht
    · exact hmore.balanced t ht

end

theorem meshed_new (c : Config) (localId : PeerId) (seqno : UInt64) :
    Meshed (fun _ _ => False) (new c localId seqno) :=
  ⟨fun _ => subset_rfl, fun _ => subset_rfl, fun _ _ => rfl, fun _ _ h => h.elim⟩

theorem Call.quiet_nobody (x : Call) : x.Quiet fun _ _ => False := by
  cases x with
  | gossip from_ payload r => exact fun _ h => h
  | _ => trivial

/-- A peer that leaves a topic, and from which nothing comes afterwards, is in none of its sets. -/
theorem absent_after {c : Config} (hc : Ordered c) {localId p : PeerId} {seqno : UInt64}
    {topic : Bytes} {before after : List Call} {x : Call} {y : State × List Effect}
    (hrun : (new c localId seqno).run (before ++ x :: after) = some y)
    (hquiet : ∀ payload r, .gossip p payload r ∉ after)
    (hleft : ∀ {s z}, Meshed (fun _ _ => False) s → s.call x = some z →
      Keeps (fun q t => q = p ∧ t = topic) s.config z) : Absent p (y.1.topics topic) := by
  obtain ⟨s₁, _, _, hbefore, hrest, -⟩ := run_append hrun
  obtain ⟨s₂, _, _, hcall, hafter, -⟩ := run_cons hrest
  have hfirst := (meshed_new c localId seqno).run hc (fun x _ => x.quiet_nobody) hbefore
  have hgone := hleft hfirst.meshed hcall
  have hconfig : s₂.config = c := hgone.config.trans hfirst.config
  have hsilent : ∀ x ∈ after, x.Quiet fun q t => q = p ∧ t = topic := by
    intro x hx
    cases x with
    | gossip from_ payload r =>
      rintro t ⟨rfl, -⟩
      exact hquiet payload r hx
    | _ => trivial
  exact (hgone.meshed.run (hconfig.symm ▸ hc) hsilent hafter).meshed.absent ⟨rfl, rfl⟩

/-- What the sets of peers are at the end of a run of calls that did `effects`. -/
structure MeshesInOrder (calls : List Call) (s : State) (effects : List Effect) : Prop where
  /-- The mesh and the fanout are subscribers. -/
  subsets : ∀ topic, (s.topics topic).mesh ⊆ (s.topics topic).subscribers ∧
    (s.topics topic).fanout ⊆ (s.topics topic).subscribers
  /-- A topic we do not subscribe to has no mesh. -/
  unsubscribed : ∀ topic ∉ s.subscriptions, (s.topics topic).mesh = ∅
  /-- A peer that disconnected and sent nothing since is nowhere. -/
  disconnected : ∀ before after p, calls = before ++ .peerGone p :: after →
    (∀ payload r, .gossip p payload r ∉ after) → ∀ topic, Absent p (s.topics topic)
  /-- A peer that unsubscribed from a topic and sent nothing since is nowhere in the topic. -/
  left : ∀ before after p payload r topic, calls = before ++ .gossip p payload r :: after →
    parse payload = some (.ctrl .unsubscribe topic) → (∀ payload r, .gossip p payload r ∉ after) →
    Absent p (s.topics topic)
  /-- A maintained mesh is within its limits, or has all subscribers. -/
  maintained : ∀ t, .maintained t ∈ effects → Balanced s.config t

/-- **Meshes stay in order**, whatever is called. -/
theorem mesh_invariants (c : Config) (hlow : c.meshLow ≤ c.meshTarget)
    (hhigh : c.meshTarget ≤ c.meshHigh) (hpos : 0 ≤ c.meshHigh) (localId : PeerId) (seqno : UInt64)
    (calls : List Call) (s : State) (effects : List Effect)
    (hrun : (new c localId seqno).run calls = some (s, effects)) :
    MeshesInOrder calls s effects := by
  have hc : Ordered c := ⟨hlow, hhigh, hpos⟩
  have hend := (meshed_new c localId seqno).run hc (fun x _ => x.quiet_nobody) hrun
  refine ⟨fun topic => ⟨hend.meshed.mesh topic, hend.meshed.fanout topic⟩, hend.meshed.unsubscribed,
    ?_, ?_, ?_⟩
  · rintro before after p rfl hquiet topic
    refine absent_after hc hrun hquiet fun {s₁ z} h hcall => ?_
    cases hcall
    exact (h.onPeerGone p).weaken fun _ _ hq => .inr hq.1
  · rintro before after p payload r topic rfl hparse hquiet
    refine absent_after hc hrun hquiet fun {s₁ z} h hcall => ?_
    cases hcall
    simp only [onGossip, hparse]
    exact (h.leaves r p topic).weaken fun _ _ => .inr
  · rw [hend.config]
    exact hend.balanced

/-- A peer joins the mesh of a topic, and goes. -/
theorem mesh_invariants_peer_gone : ∃ s effects, (new {} 0 0).run [.subscribe [97] .smallest,
      .gossip 5 (buildCtrl .subscribe [97]) .smallest, .peerGone 5] = some (s, effects) ∧
    Absent 5 (s.topics [97]) ∧ ∀ t, .maintained t ∈ effects → Balanced s.config t := by
  have hrun : ((new {} 0 0).run [.subscribe [97] .smallest,
      .gossip 5 (buildCtrl .subscribe [97]) .smallest, .peerGone 5]).isSome := by
    decide +kernel
  obtain ⟨⟨s, effects⟩, hrun⟩ := Option.isSome_iff_exists.mp hrun
  have horder := mesh_invariants {} (by decide) (by decide) (by decide) 0 0 _ s effects hrun
  exact ⟨s, effects, hrun, horder.disconnected [_, _] [] 5 rfl (fun _ _ => not_mem_nil) [97],
    horder.maintained⟩

/-- No mesh is within a negative limit. -/
theorem negative_limit : ∃ s effects t,
    (new { meshLow := -1, meshTarget := -1, meshHigh := -1 } 0 0).run
      [.subscribe [97] .smallest] = some (s, effects) ∧
    s.config.meshLow ≤ s.config.meshTarget ∧ s.config.meshTarget ≤ s.config.meshHigh ∧
    .maintained t ∈ effects ∧ s.config.meshHigh < (t.mesh.card : ℤ) :=
  ⟨_, _, {}, rfl, by decide, by decide, by decide, by decide⟩

end Librats.PubSub
