import Librats.Storage.Mesh

/-!
# The flood of entries stops

A message is forwarded only if its entry wins, and then one stamp less lies above what the node
holds; so every node forwards at most once for every stamp of a key that was put in
(`Flooding.forwards_le`).
-/

namespace Librats.Storage

open List Finset

namespace Network

variable {V : Type} [DecidableEq V]

/-- A run in which messages are put on links, sent and delivered: the messages put in, how many were
forwarded and delivered, and the network at the end. -/
inductive Flooding (net₀ : Network V) : List Bytes → ℕ → ℕ → Network V → Prop
  | start : Flooding net₀ [] 0 0 net₀
  | inject {injected : List Bytes} {forwards deliveries : ℕ} {net : Network V} (u v : V)
      (buf : Bytes) (run : Flooding net₀ injected forwards deliveries net) :
      Flooding net₀ ((opEntry :: buf) :: injected) forwards deliveries
        (net.setLink u v (net.links u v ++ [opEntry :: buf]))
  | send {injected : List Bytes} {forwards deliveries : ℕ} {net : Network V} (u v : V) (payload : Bytes)
      (mem : (v, payload) ∈ net.outbox u) (run : Flooding net₀ injected forwards deliveries net) :
      Flooding net₀ injected forwards deliveries (net.transmit u v payload)
  | deliver {injected : List Bytes} {forwards deliveries : ℕ} {net : Network V} (u v : V)
      (payload : Bytes) (rest : List Bytes) (head : net.links u v = payload :: rest)
      (run : Flooding net₀ injected forwards deliveries net) : Flooding net₀ injected
        (forwards + (((net.nodes v).onStorageMessage u payload).2.flatMap
          (Event.sends (net.peers v))).length)
        (deliveries + 1) (net.receive u v payload rest)

/-- The keys and stamps of the entries that messages carry. -/
def stampsOf (messages : List Bytes) : Finset (Bytes × (ℕ ×ₗ List ℕ)) :=
  ((messages.flatMap carried).map fun e => (e.key, e.stamp)).toFinset

variable [Fintype V] (net : Network V)

/-- The most peers a node has. -/
def maxDegree : ℕ := Finset.univ.sup fun v => (net.peers v).length

/-- The number of messages under way. -/
def pending : ℕ :=
  ∑ u, ((net.outbox u).length + ∑ v, (net.links u v).length)

/-- What a node holds for each key. -/
def ranks (v : V) (k : Bytes) : WithBot (ℕ ×ₗ List ℕ) :=
  Flood.rank StorageEntry.stamp ((net.nodes v).entries.lookup k)

/-- How often the nodes may still adopt an entry with a stamp of `T`. -/
def budget (T : Finset (Bytes × (ℕ ×ₗ List ℕ))) (net : Network V) : ℕ :=
  ∑ v, (Flood.above T (net.ranks v)).card

/-! ## Sums over the nodes -/

omit [DecidableEq V] in
theorem sum_changed {f g : V → ℕ} (v : V) (h : ∀ w, w ≠ v → g w = f w) :
    ∑ w, g w + f v = ∑ w, f w + g v := by
  classical
  have hrest : ∑ w ∈ Finset.univ.erase v, g w = ∑ w ∈ Finset.univ.erase v, f w :=
    sum_congr rfl fun w hw => h w (ne_of_mem_erase hw)
  rw [← sum_erase_add _ g (mem_univ v), ← sum_erase_add _ f (mem_univ v), hrest]
  omega

theorem pending_setLink (u v : V) (l : List Bytes) :
    (net.setLink u v l).pending + (net.links u v).length = net.pending + l.length := by
  have hinner := sum_changed (f := fun w => (net.links u w).length)
    (g := fun w => ((net.setLink u v l).links u w).length) v (fun w hw => by simp [setLink, hw])
  have houter := sum_changed (f := fun a => (net.outbox a).length + ∑ w, (net.links a w).length)
    (g := fun a => ((net.setLink u v l).outbox a).length +
      ∑ w, ((net.setLink u v l).links a w).length) u
    (fun a ha => by simp [setLink, ha])
  have hl : ((net.setLink u v l).links u v).length = l.length := by simp [setLink]
  have ho : (net.setLink u v l).outbox u = net.outbox u := rfl
  simp only [ho] at hinner houter
  unfold pending
  omega

theorem pending_outbox (u : V) (l : List (V × Bytes)) :
    pending { net with outbox := Function.update net.outbox u l } + (net.outbox u).length =
      net.pending + l.length := by
  have houter := sum_changed (f := fun a => (net.outbox a).length + ∑ w, (net.links a w).length)
    (g := fun a => (Function.update net.outbox u l a).length + ∑ w, (net.links a w).length) u
    (fun a ha => by simp [ha])
  simp only [Function.update_self] at houter
  unfold pending
  dsimp only
  omega

theorem pending_act (v : V) (r : StorageManager V × List (Event V)) : (net.act v r).pending =
      net.pending + (r.2.flatMap (Event.sends (net.peers v))).length := by
  have h := net.pending_outbox v (net.outbox v ++ r.2.flatMap (Event.sends (net.peers v)))
  rw [length_append] at h
  have hact : (net.act v r).pending = pending { net with
      outbox := Function.update net.outbox v
        (net.outbox v ++ r.2.flatMap (Event.sends (net.peers v))) } := rfl
  omega

variable {u v : V} {payload : Bytes}

theorem pending_transmit {net : Network V} (mem : (v, payload) ∈ net.outbox u) :
    (net.transmit u v payload).pending = net.pending := by
  have hlink := net.pending_setLink u v (net.links u v ++ [payload])
  have hout : (net.transmit u v payload).pending + (net.outbox u).length =
      (net.setLink u v (net.links u v ++ [payload])).pending +
        ((net.outbox u).erase (v, payload)).length :=
    (net.setLink u v (net.links u v ++ [payload])).pending_outbox u _
  have herase := length_erase_add_one mem
  rw [length_append, length_singleton] at hlink
  omega

/-! ## The invariant of a run -/

/-- What holds along a run from `net₀` if all stamps put in are in `T`. -/
structure Bounded (net₀ : Network V) (T : Finset (Bytes × (ℕ ×ₗ List ℕ))) (injected : List Bytes)
    (forwards deliveries : ℕ) (net : Network V) : Prop where
  peers : ∀ v, net.peers v = net₀.peers v
  head : ∀ u v p, net.UnderWay u v p → p.head? = some opEntry
  stamps : ∀ u v p, net.UnderWay u v p → ∀ e ∈ carried p, (e.key, e.stamp) ∈ T
  forwards_le : forwards + net₀.maxDegree * net.budget T ≤
    net₀.maxDegree * (T.card * Fintype.card V)
  conserved : deliveries + net.pending = injected.length + forwards

variable {net₀ net : Network V} {T : Finset (Bytes × (ℕ ×ₗ List ℕ))} {injected : List Bytes}
  {forwards deliveries : ℕ}

omit [DecidableEq V] in
theorem Bounded.start (hq : net₀.Quiescent) : Bounded net₀ T [] 0 0 net₀ where
  peers _ := rfl
  head u v p h := by simp [UnderWay, hq.1, hq.2] at h
  stamps u v p h := by simp [UnderWay, hq.1, hq.2] at h
  forwards_le := by
    rw [Nat.zero_add, mul_comm T.card]
    refine Nat.mul_le_mul_left _ ?_
    unfold budget
    simpa using sum_le_card_nsmul Finset.univ (fun v => (Flood.above T (net₀.ranks v)).card) T.card
      fun v _ => Finset.card_filter_le ..
  conserved := by simp [pending, hq.1, hq.2]

theorem Bounded.inject (h : Bounded net₀ T injected forwards deliveries net) (u v : V) (buf : Bytes)
    (hT : ∀ e ∈ carried (opEntry :: buf), (e.key, e.stamp) ∈ T) :
    Bounded net₀ T ((opEntry :: buf) :: injected) forwards deliveries
      (net.setLink u v (net.links u v ++ [opEntry :: buf])) := by
  have hway : ∀ a b p, (net.setLink u v (net.links u v ++ [opEntry :: buf])).UnderWay a b p →
      net.UnderWay a b p ∨ p = opEntry :: buf := by
    rintro a b p (hp | hp)
    · exact .inl (.inl hp)
    rcases mem_setLink.mp hp with ⟨rfl, rfl, hp⟩ | ⟨-, hp⟩
    · rcases mem_append.mp hp with hp | hp
      · exact .inl (.inr hp)
      · exact .inr (List.mem_singleton.mp hp)
    · exact .inl (.inr hp)
  have hpending := net.pending_setLink u v (net.links u v ++ [opEntry :: buf])
  rw [length_append, length_singleton] at hpending
  have hconserved := h.conserved
  refine ⟨h.peers, fun a b p hp => ?_, fun a b p hp => ?_, h.forwards_le, ?_⟩
  · rcases hway a b p hp with hp | rfl
    · exact h.head a b p hp
    · rfl
  · rcases hway a b p hp with hp | rfl
    · exact h.stamps a b p hp
    · exact hT
  · rw [length_cons]
    omega

theorem Bounded.send (h : Bounded net₀ T injected forwards deliveries net)
    (mem : (v, payload) ∈ net.outbox u) :
    Bounded net₀ T injected forwards deliveries (net.transmit u v payload) where
  peers := h.peers
  head a b p hp := h.head a b p ((underWay_transmit mem).mp hp)
  stamps a b p hp := h.stamps a b p ((underWay_transmit mem).mp hp)
  forwards_le := h.forwards_le
  conserved := by
    rw [pending_transmit mem]
    exact h.conserved

theorem budget_receive_lt {e : StorageEntry} (rest : List Bytes) (hc : carried payload = [e])
    (hwins : (net.nodes v).loses e.key e = false) (hT : (e.key, e.stamp) ∈ T) :
    (net.receive u v payload rest).budget T < net.budget T := by
  have hentries : ((net.receive u v payload rest).nodes v).entries =
      (net.nodes v).entries.insert e.key e := by
    rw [nodes_receive_self, ((net.nodes v).onStorageMessage_spec u payload).1, hc]
    exact StorageManager.absorb_of_wins hwins
  have hlt : net.ranks v e.key < e.stamp := loses_eq_false_iff.mp hwins
  have hself : (net.receive u v payload rest).ranks v e.key = e.stamp := by
    rw [ranks, hentries, AList.lookup_insert, Flood.rank]
  have hle : ∀ k, net.ranks v k ≤ (net.receive u v payload rest).ranks v k := by
    intro k
    by_cases hk : k = e.key
    · subst hk
      exact hlt.le.trans hself.ge
    · rw [ranks, ranks, hentries, AList.lookup_insert_ne hk]
  have hcard := Flood.card_above_lt hle hT hlt hself.ge
  have hsum := sum_changed
    (g := fun w => (Flood.above T ((net.receive u v payload rest).ranks w)).card) v (fun w hw => by
      have hr : (net.receive u v payload rest).ranks w = net.ranks w := by
        ext1 k
        rw [ranks, ranks, nodes_receive_of_ne net u hw]
      rw [hr])
  unfold budget
  omega

theorem budget_receive_eq (rest : List Bytes)
    (hloses : ∀ e ∈ carried payload, (net.nodes v).loses e.key e = true) :
    (net.receive u v payload rest).budget T = net.budget T := by
  have hr : (net.receive u v payload rest).ranks = net.ranks := by
    ext1 w
    ext1 k
    by_cases hw : w = v
    · subst hw
      rw [ranks, ranks, nodes_receive_self, ((net.nodes w).onStorageMessage_spec u payload).1,
        foldl_absorb_of_loses hloses]
    · rw [ranks, ranks, nodes_receive_of_ne net u hw]
  unfold budget
  rw [hr]

section

variable (h : Bounded net₀ T injected forwards deliveries net) {rest : List Bytes}
  (head : net.links u v = payload :: rest)

include h head

theorem forwards_receive_le {sent : List (V × Bytes)} (hs : (net.nodes v).Handled u payload sent) :
    sent.length + net₀.maxDegree * (net.receive u v payload rest).budget T ≤
      net₀.maxDegree * net.budget T := by
  have hhead := h.head u v payload (underWay_head head)
  cases hs with
  | forwarded e _ hc hwins =>
    have hT := h.stamps u v payload (underWay_head head) e (by simp [hc])
    have hlt := budget_receive_lt (u := u) rest hc hwins hT
    have hdeg : ((net.nodes v).peers.filter (· ≠ u)).length ≤ net₀.maxDegree := by
      have hle := Finset.le_sup (f := fun v => (net₀.peers v).length) (Finset.mem_univ v)
      rw [← h.peers] at hle
      exact (length_filter_le _ _).trans hle
    rw [length_map]
    calc _ ≤ net₀.maxDegree + net₀.maxDegree * (net.receive u v payload rest).budget T :=
          Nat.add_le_add_right hdeg _
      _ = net₀.maxDegree * ((net.receive u v payload rest).budget T + 1) := by ring
      _ ≤ net₀.maxDegree * net.budget T := Nat.mul_le_mul_left _ hlt
  | dropped _ hloses => rw [budget_receive_eq rest hloses, length_nil, Nat.zero_add]
  | answered hr => cases hhead.symm.trans hr
  | absorbed hne _ => exact absurd hhead hne

theorem Bounded.deliver : Bounded net₀ T injected
      (forwards + (((net.nodes v).onStorageMessage u payload).2.flatMap
        (Event.sends (net.peers v))).length) (deliveries + 1) (net.receive u v payload rest) := by
  set sent := ((net.nodes v).onStorageMessage u payload).2.flatMap (Event.sends (net.peers v))
  have hs : (net.nodes v).Handled u payload sent :=
    (net.nodes v).handled_onStorageMessage u (net.peers v) payload
  have hhead := h.head u v payload (underWay_head head)
  have hstamps := h.stamps u v payload (underWay_head head)
  -- whatever is sent on carries the entry that was received
  have hway : ∀ a b p, (net.receive u v payload rest).UnderWay a b p →
      p.head? = some opEntry ∧ ∀ e ∈ carried p, (e.key, e.stamp) ∈ T := by
    intro a b p hp
    rcases underWay_receive head hp with hp | ⟨sent, hs, rfl, hmem⟩
    · exact ⟨h.head a b p hp, h.stamps a b p hp⟩
    cases hs with
    | forwarded e _ hc hwins =>
      obtain ⟨w, -, heq⟩ := mem_map.mp hmem
      obtain ⟨-, rfl⟩ := Prod.mk.inj heq
      refine ⟨rfl, fun x hx => ?_⟩
      have he : Readable e := readable_of_mem_carried (show e ∈ carried payload by simp [hc])
      rw [carried_entryMessage he, List.mem_singleton] at hx
      subst hx
      exact hstamps x (by simp [hc])
    | dropped => exact absurd hmem not_mem_nil
    | answered hr => cases hhead.symm.trans hr
    | absorbed hne _ => exact absurd hhead hne
  refine ⟨fun w => (net.peers_receive u v w payload rest).trans (h.peers w),
    fun a b p hp => (hway a b p hp).1, fun a b p hp => (hway a b p hp).2, ?_, ?_⟩
  · have hpaid := forwards_receive_le h head hs
    have hle := h.forwards_le
    omega
  · have hact : (net.receive u v payload rest).pending =
        (net.setLink u v rest).pending + sent.length := (net.setLink u v rest).pending_act v _
    have hlink := net.pending_setLink u v rest
    have hconserved := h.conserved
    rw [head, length_cons] at hlink
    omega

end

theorem Flooding.bounded (hq : net₀.Quiescent)
    (run : Flooding net₀ injected forwards deliveries net) (hT : stampsOf injected ⊆ T) :
    Bounded net₀ T injected forwards deliveries net := by
  induction run with
  | start => exact .start hq
  | inject u v buf _ ih =>
    rw [stampsOf, flatMap_cons, map_append, toFinset_append, union_subset_iff]
      at hT
    refine (ih hT.2).inject u v buf fun e he => hT.1 ?_
    exact mem_toFinset.mpr (mem_map_of_mem he)
  | send u v payload mem _ ih => exact (ih hT).send mem
  | deliver u v payload rest head _ ih => exact (ih hT).deliver head

/-- **The flood stops.** A run forwards at most as many messages as there are stamps of keys among
those put in, times the nodes, times the most peers of a node, and delivers at most those put in and
those forwarded. -/
theorem flood_stops (hq : net₀.Quiescent) (run : Flooding net₀ injected forwards deliveries net) :
    forwards ≤ (stampsOf injected).card * Fintype.card V * net₀.maxDegree ∧
      deliveries ≤ injected.length +
        (stampsOf injected).card * Fintype.card V * net₀.maxDegree := by
  have h := run.bounded hq subset_rfl
  have hle : forwards ≤ (stampsOf injected).card * Fintype.card V * net₀.maxDegree := by
    rw [mul_comm _ net₀.maxDegree]
    exact (Nat.le_add_right _ _).trans h.forwards_le
  have hconserved := h.conserved
  exact ⟨hle, by omega⟩

/-- Three nodes, each connected to the other two, with nothing stored. -/
def triangle : Network (Fin 3) where
  nodes v := ⟨some ⟨[97], [0, 1, 2].filter (· ≠ v)⟩, {}, ∅, .notStarted, false, {}, false⟩
  outbox _ := []
  links _ _ := []
  accepted := ∅
  offered := ∅

/-- The message of an entry. -/
def triangleMessage : Bytes :=
  StorageManager.entryMessage (StorageEntry.new [107] 2 [118] 1000 [97])

/-- The message is on the link between the first two nodes. -/
def triangleInjected : Network (Fin 3) :=
  triangle.setLink 0 1 (triangle.links 0 1 ++ [triangleMessage])

/-- The message is delivered, and the second node forwards it to the third. -/
theorem flood_stops_triangle :
    Flooding triangle [triangleMessage] 1 1 (triangleInjected.receive 0 1 triangleMessage []) ∧
    1 ≤ (stampsOf [triangleMessage]).card * Fintype.card (Fin 3) * triangle.maxDegree ∧
    1 ≤ [triangleMessage].length +
      (stampsOf [triangleMessage]).card * Fintype.card (Fin 3) * triangle.maxDegree := by
  have hinject : Flooding triangle [triangleMessage] 0 0 triangleInjected :=
    .inject 0 1 (StorageEntry.new [107] 2 [118] 1000 [97]).serialize .start
  have run := Flooding.deliver 0 1 triangleMessage [] (by decide +kernel) hinject
  have hone : (((triangleInjected.nodes 1).onStorageMessage 0 triangleMessage).2.flatMap
      (Event.sends (triangleInjected.peers 1))).length = 1 := by decide +kernel
  rw [hone] at run
  exact ⟨run, flood_stops ⟨fun _ => rfl, fun _ _ => rfl⟩ run⟩

end Network

end Librats.Storage
