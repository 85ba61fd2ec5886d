import Librats.Dht.AddNode

/-!
# Runs of a routing table

In every run the map of addresses agrees with the buckets, and the buckets keep their structure. A
contact that answers from another address is moved there unchecked, and a standby that answers from
the endpoint of another contact can make `add_node` refill a bucket that is gone.
-/

namespace Librats.Dht

open CountIndex List Option RoutingTable

/-! ## Calls -/

namespace RoutingTable

/-- The calls one after the other. -/
def run (t : RoutingTable) (calls : List (TimePoint × TableCall)) : Option RoutingTable :=
  calls.foldlM (fun t c => t.call c.1 c.2) t

/-- A condition on the contacts that are loaded, each with its table. -/
def LoadAll (P : RoutingTable → NodeEntry → Prop) (now : TimePoint) :
    RoutingTable → List NodeEntry → Prop
  | _, [] => True
  | t, e :: l => P t e ∧ ∀ t' ∈ t.add now e, LoadAll P now t' l

end RoutingTable

/-- The contact `node_seen` adds. -/
def sighted (now : TimePoint) (id : NodeId) (endpoint : Address) (rtt : ℕ) (verified : Bool) :
    NodeEntry :=
  { NodeEntry.new id endpoint with verified := verified }.recordSuccess now rtt

/-- A condition on the contacts a call is given, each with its table. -/
def TableCall.All (P : RoutingTable → NodeEntry → Prop) (t : RoutingTable) (now : TimePoint) :
    TableCall → Prop
  | .heardAbout id endpoint verified => P t { NodeEntry.new id endpoint with verified := verified }
  | .nodeSeen id endpoint rtt verified => P t (sighted now id endpoint rtt verified)
  | .loadContacts contacts => t.LoadAll P now contacts
  | .nodeFailed _ _ | .setSelf _ => True

/-- A condition on the contacts that the calls of a run are given. -/
def RoutingTable.Along (P : RoutingTable → NodeEntry → Prop) :
    RoutingTable → List (TimePoint × TableCall) → Prop
  | _, [] => True
  | t, c :: calls => c.2.All P t c.1 ∧ ∀ t' ∈ t.call c.1 c.2, Along P t' calls

section

variable (P : RoutingTable → NodeEntry → Prop) [∀ t e, Decidable (P t e)]

instance decidableLoadAll (now : TimePoint) :
    (t : RoutingTable) → (l : List NodeEntry) → Decidable (t.LoadAll P now l)
  | _, [] => isTrue trivial
  | _, _ :: l =>
    have (t' : RoutingTable) : Decidable (t'.LoadAll P now l) := decidableLoadAll now t' l
    inferInstanceAs (Decidable (_ ∧ _))

instance (t : RoutingTable) (now : TimePoint) (c : TableCall) : Decidable (c.All P t now) :=
  match c with
  | .heardAbout _ _ _ | .nodeSeen _ _ _ _ => inferInstanceAs (Decidable (P _ _))
  | .loadContacts contacts => inferInstanceAs (Decidable (t.LoadAll P now contacts))
  | .nodeFailed _ _ | .setSelf _ => isTrue trivial

instance decidableAlong :
    (t : RoutingTable) → (calls : List (TimePoint × TableCall)) → Decidable (t.Along P calls)
  | _, [] => isTrue trivial
  | _, _ :: calls =>
    have (t' : RoutingTable) : Decidable (t'.Along P calls) := decidableAlong t' calls
    inferInstanceAs (Decidable (_ ∧ _))

end

@[simp] theorem NodeEntry.recordFailure_id (e : NodeEntry) : e.recordFailure.id = e.id := by
  unfold recordFailure
  split_ifs <;> rfl

@[simp] theorem NodeEntry.recordFailure_endpoint (e : NodeEntry) :
    e.recordFailure.endpoint = e.endpoint := by
  unfold recordFailure
  split_ifs <;> rfl

theorem NodeEntry.pinged_of_recordFailure {e : NodeEntry} (h : e.recordFailure.pinged = true) :
    e.pinged = true := by
  unfold recordFailure at h
  split_ifs at h with hpinged
  · exact ((Bool.and_eq_true _ _).mp hpinged).1
  · exact h

section

variable {strict careful : Prop} {Known : NodeId → Address → Prop} {t t' : RoutingTable}
  {now : TimePoint} {e : NodeEntry}

theorem sound_empty (hbuckets : t.buckets = [.empty]) (hindex : t.ipCount = ∅)
    (haccesses : careful → ∀ a ∈ t.accesses, a.index < a.count) : Sound strict careful Known t := by
  have hcontacts : t.contacts = [] := by
    rw [contacts, hbuckets]
    rfl
  have hbucket {i : ℕ} {b : Bucket} (hb : t.buckets[i]? = some b) : b = .empty := by
    have hmem := mem_of_getElem? hb
    rwa [hbuckets, mem_singleton] at hmem
  refine ⟨?_, by simp [hcontacts], by simp [hcontacts], fun i b hb => ?_, fun i b hb => ?_,
    fun i b hb => ?_, by simp [hbuckets], by simp [hbuckets, kBucketCount], fun _ => ⟨?_, fun b hb => ?_⟩,
    haccesses, by simp [hcontacts]⟩
  · rw [hcontacts, hindex]
    exact Counts.empty
  · rw [hbucket hb]
    rintro _ ⟨⟩
  · rw [hbucket hb]
    exact Nat.zero_le _
  · rw [hbucket hb]
    exact Nat.zero_le _
  · rw [hcontacts]
    exact Multiset.nodup_zero
  · rw [hbuckets, mem_singleton] at hb
    rw [hb]
    exact .nil

theorem sound_new (self : NodeId) (extended : Bool) :
    Sound strict careful Known (.new self extended) :=
  sound_empty rfl rfl nofun

theorem isSome_add (t : RoutingTable) (now : TimePoint) (e : NodeEntry) : (t.add now e).isSome := by
  rw [add, isSome_map]
  exact isSome_addNode (by decide) (Nat.le_add_right _ _)

theorem Sound.add (h : Sound strict careful Known t) (hmeets : Meets strict careful t e)
    (hknown : e.pinged = true → Known e.id e.endpoint) (heq : t.add now e = some t') :
    Admits strict careful Known e t t' := by
  obtain ⟨⟨t₁, ok⟩, hadd, rfl⟩ := map_eq_some_iff.mp heq
  exact addNode_sound h hmeets hknown hadd

theorem isSome_loadContacts (t : RoutingTable) (now : TimePoint) (l : List NodeEntry) :
    (t.loadContacts now l).isSome := by
  induction l generalizing t with
  | nil => rfl
  | cons e l ih =>
    obtain ⟨t₁, ht₁⟩ := isSome_iff_exists.mp (isSome_add t now e)
    rw [loadContacts, foldlM_cons, ht₁]
    exact ih t₁

/-- The conditions, and that a contact which has answered is known. -/
def Brings (strict careful : Prop) (Known : NodeId → Address → Prop) (t : RoutingTable)
    (e : NodeEntry) : Prop :=
  Meets strict careful t e ∧ (e.pinged = true → Known e.id e.endpoint)

variable {l : List NodeEntry} {P : RoutingTable → NodeEntry → Prop}
  (h : Sound strict careful Known t)

include h

theorem Sound.loadContacts
    (hall : t.LoadAll (Brings strict careful Known) now l) (heq : t.loadContacts now l = some t') :
    Sound strict careful Known t' := by
  induction l generalizing t with
  | nil => exact Option.some.inj heq ▸ h
  | cons e l ih =>
    obtain ⟨t₁, ht₁, hrest⟩ := bind_eq_some_iff.mp heq
    have hstep := h.add hall.1.1 hall.1.2 ht₁
    exact ih hstep.sound (hall.2 t₁ ht₁) hrest

omit h in
theorem meets_of_fresh (hfresh : ∀ n ∈ t.contacts, n.id ≠ e.id) (h : Sound strict careful Known t) :
    Meets strict careful t e := by
  refine ⟨fun _ ⟨_, old, hold, hid, _⟩ => absurd hid (hfresh old hold), fun _ ⟨_, old, hold, hid⟩ => ?_⟩
  have hmem := mem_contacts_of_bucket (h.getElem?_bucketIndex e.id) (mem_append_right _ hold)
  exact absurd hid (hfresh old hmem)

omit h in
theorem Follows.fresh (h : Follows e t t') (hnodup : ((e :: l).map (·.id)).Nodup)
    (hfresh : ∀ e' ∈ e :: l, ∀ n ∈ t.contacts, n.id ≠ e'.id) :
    ∀ e' ∈ l, ∀ n ∈ t'.contacts, n.id ≠ e'.id := by
  intro e' he' n hn heq
  obtain hid | ⟨m, hm, hid⟩ := h.ids n hn
  · exact (nodup_cons.mp hnodup).1 (mem_map.mpr ⟨e', he', heq.symm.trans hid⟩)
  · exact hfresh e' (.tail _ he') m hm (hid.trans heq)

theorem loadAll_of_fresh (hnodup : (l.map (·.id)).Nodup)
    (hfresh : ∀ e ∈ l, ∀ n ∈ t.contacts, n.id ≠ e.id)
    (hknown : ∀ e ∈ l, e.pinged = true → Known e.id e.endpoint) :
    t.LoadAll (Brings strict careful Known) now l := by
  induction l generalizing t with
  | nil => trivial
  | cons e l ih =>
    have hmeets := meets_of_fresh (hfresh e (.head _)) h
    have hself := hknown e (.head _)
    refine ⟨⟨hmeets, hself⟩, fun t₁ ht₁ => ?_⟩
    have hstep := h.add hmeets hself ht₁
    exact ih hstep.sound (nodup_cons.mp hnodup).2 (hstep.fresh hnodup hfresh) fun e he =>
      hknown e (.tail _ he)

theorem Sound.setSelf {id : NodeId}
    (heq : t.setSelf now id = some t') : Sound strict careful Known t' := by
  unfold RoutingTable.setSelf at heq
  split_ifs at heq
  · exact Option.some.inj heq ▸ h
  · have hempty : Sound strict careful Known { t with self := id, buckets := [.empty], ipCount := ∅ } :=
      sound_empty rfl rfl h.accesses
    refine hempty.loadContacts (loadAll_of_fresh hempty h.nodup ?_ h.known) heq
    exact nofun

theorem Sound.nodeFailed (id : NodeId) (endpoint : Address) :
    Sound strict careful Known (t.nodeFailed id endpoint) := by
  have hb := h.getElem?_bucketIndex id
  have hlt := h.bucketIndex_lt id
  have hrenew (live : Bool) {j : ℕ} {old : NodeEntry}
      (hold : ((t.bucket (t.bucketIndex id)).list live)[j]? = some old) :
      Sound strict careful Known (t.edited (t.bucketIndex id)
        ((t.bucket (t.bucketIndex id)).replaced live j old.recordFailure) t.ipCount) := by
    have hmem : old ∈ (t.bucket (t.bucketIndex id)).contacts :=
      (without_perm (x := (old, j)) hold).subset (mem_append_right _ (.head _))
    refine (h.renew hb live hold (NodeEntry.recordFailure_id old) (fun hpinged => ?_)
      (fun _ => .inl ?_) t.ipCount fun m hm => ?_).sound
    · rw [NodeEntry.recordFailure_id, NodeEntry.recordFailure_endpoint]
      exact h.known old (mem_contacts_of_bucket hb hmem) (NodeEntry.pinged_of_recordFailure hpinged)
    · rw [NodeEntry.recordFailure_endpoint]
    · simpa [publicIps] using hm
  have hremove (live : Bool) {j : ℕ} {old : NodeEntry}
      (hold : ((t.bucket (t.bucketIndex id)).list live)[j]? = some old) :
      Sound strict careful Known (t.remove ⟨t.bucketIndex id, live, j, old.recordFailure⟩) :=
    h.remove ⟨t.bucketIndex id, live, j, old.recordFailure⟩ hb hold
      (by rw [NodeEntry.recordFailure_endpoint])
  unfold RoutingTable.nodeFailed
  simp only
  split
  · split
    · exact h
    · next r j hr =>
      have hold := findById_getElem? hr
      split_ifs
      · exact hremove false hold
      · exact hrenew false hold
      · exact h
  next n j hn =>
  have hold := findById_getElem? hn
  split_ifs
  · refine ((hremove true hold).fillFromReplacements fun _ => ?_).prune
    rwa [length_remove]
  · exact (hremove true hold).prune
  · exact (hrenew true hold).prune
  · exact h

theorem Sound.call {c : TableCall}
    (hall : c.All (Brings strict careful Known) t now) (heq : t.call now c = some t') :
    Sound strict careful Known t' := by
  cases c with
  | heardAbout id endpoint verified =>
    simp only [RoutingTable.call, RoutingTable.heardAbout] at heq
    split_ifs at heq
    · exact Option.some.inj heq ▸ h
    · exact (h.add hall.1 hall.2 heq).sound
  | nodeSeen id endpoint rtt verified =>
    simp only [RoutingTable.call, RoutingTable.nodeSeen] at heq
    split_ifs at heq
    · exact Option.some.inj heq ▸ h
    · exact (h.add hall.1 hall.2 heq).sound
  | nodeFailed id endpoint => exact Option.some.inj heq ▸ h.nodeFailed id endpoint
  | setSelf id => exact h.setSelf heq
  | loadContacts l => exact h.loadContacts hall heq

omit h in
theorem loadAll_mono {Q : RoutingTable → NodeEntry → Prop} (himp : ∀ t e, P t e → Q t e)
    (h : t.LoadAll P now l) : t.LoadAll Q now l := by
  induction l generalizing t with
  | nil => trivial
  | cons e l ih => exact ⟨himp t e h.1, fun t₁ ht₁ => ih (h.2 t₁ ht₁)⟩

omit h in
theorem TableCall.All.mono {Q : RoutingTable → NodeEntry → Prop} (himp : ∀ t e, P t e → Q t e)
    {c : TableCall} (h : c.All P t now) : c.All Q t now := by
  cases c with
  | loadContacts l => exact loadAll_mono himp h
  | nodeFailed _ _ | setSelf _ => trivial
  | _ => exact himp _ _ h

omit h in
theorem isSome_call (t : RoutingTable) (now : TimePoint) (c : TableCall) : (t.call now c).isSome := by
  cases c with
  | heardAbout id endpoint verified =>
    simp only [call, heardAbout]
    split_ifs
    · rfl
    · exact isSome_add _ _ _
  | nodeSeen id endpoint rtt verified =>
    simp only [call, nodeSeen]
    split_ifs
    · rfl
    · exact isSome_add _ _ _
  | nodeFailed id endpoint => rfl
  | setSelf id =>
    simp only [call, setSelf]
    split_ifs
    · rfl
    · exact isSome_loadContacts _ _ _
  | loadContacts l => exact isSome_loadContacts _ _ _

omit h in
theorem loadAll_of_forall (hP : ∀ t e, P t e) (t : RoutingTable) (l : List NodeEntry) :
    t.LoadAll P now l := by
  induction l generalizing t with
  | nil => trivial
  | cons e l ih => exact ⟨hP t e, fun t₁ _ => ih t₁⟩

omit h in
theorem TableCall.all_of_forall (hP : ∀ t e, P t e) (c : TableCall) : c.All P t now := by
  cases c with
  | loadContacts l => exact loadAll_of_forall hP t l
  | nodeFailed _ _ | setSelf _ => trivial
  | _ => exact hP _ _

omit h in
theorem RoutingTable.along_of_forall (hP : ∀ t e, P t e) (t : RoutingTable)
    (calls : List (TimePoint × TableCall)) : t.Along P calls := by
  induction calls generalizing t with
  | nil => trivial
  | cons c calls ih => exact ⟨TableCall.all_of_forall hP c.2, fun t₁ _ => ih t₁⟩

/-- **Every sequence of calls ends**, in a table that satisfies the invariant when the contacts that
are given satisfy its conditions. -/
theorem Sound.run {calls : List (TimePoint × TableCall)}
    (hP : ∀ t e, P t e → Brings strict careful Known t e) (hall : t.Along P calls) :
    ∃ t', t.run calls = some t' ∧ Sound strict careful Known t' := by
  induction calls generalizing t with
  | nil => exact ⟨t, rfl, h⟩
  | cons c calls ih =>
    obtain ⟨t₁, ht₁⟩ := isSome_iff_exists.mp (isSome_call t c.1 c.2)
    obtain ⟨t', hrun, ht'⟩ := ih (h.call (hall.1.mono hP) ht₁) (hall.2 t₁ ht₁)
    refine ⟨t', ?_, ht'⟩
    rwa [run, foldlM_cons, ht₁]

omit h

theorem run_new (self : NodeId) (extended : Bool) (calls : List (TimePoint × TableCall)) :
    ∃ t, (new self extended).run calls = some t ∧ Sound False False (fun _ _ => True) t :=
  (sound_new self extended).run (fun _ _ _ => ⟨⟨False.elim, False.elim⟩, fun _ => trivial⟩)
    (along_of_forall (fun _ _ => trivial) _ calls)

end

/-! ## What always holds -/

theorem count_publicIps (l : List NodeEntry) (ip : IpAddress) : (publicIps l).count ip =
      if ip.isPublic = true then l.countP (fun n => n.endpoint.ip = ip) else 0 := by
  rw [publicIps, Multiset.coe_count]
  split_ifs with hip
  · rw [count_filter hip, count_eq_countP, countP_map]
    refine countP_congr fun n _ => ?_
    simp
  · exact count_eq_zero.mpr fun hmem => hip (mem_filter.mp hmem).2

/-- **The map of addresses is exact**, after any calls: it agrees with a fresh count over the
buckets, and holds each public address that a contact has with the number of its contacts. A refill
of a bucket that is not there has no effect here. -/
theorem ip_index_exact (self : NodeId) (extended : Bool) (calls : List (TimePoint × TableCall)) :
    ∃ t, (new self extended).run calls = some t ∧ t.ipIndexConsistent = true ∧
      ∀ ip, t.ipCount.lookup ip =
        if ip.isPublic = true ∧ 0 < t.contacts.countP (fun n => n.endpoint.ip = ip) then
          some (t.contacts.countP fun n => n.endpoint.ip = ip) else none := by
  obtain ⟨t, hrun, ht⟩ := run_new self extended calls
  refine ⟨t, hrun, ?_, fun ip => ?_⟩
  · have hexpected := Counts.empty.foldl_track
      ((t.contacts.map (·.endpoint.ip)).filter IpAddress.isPublic)
    rw [add_zero] at hexpected
    exact decide_eq_true (hexpected.perm ht.index)
  · rw [ht.index ip, count_publicIps]
    by_cases hip : ip.isPublic = true
    · simp only [hip, if_true, true_and, pos_iff_ne_zero, ite_not]
    · simp [hip]

/-- **The buckets keep their structure**, after any calls, and every call returns. -/
theorem bucket_structure (self : NodeId) (extended : Bool) (calls : List (TimePoint × TableCall)) :
    ∃ t, (new self extended).run calls = some t ∧
      (∀ n ∈ t.contacts, n.id ≠ t.self) ∧ (t.contacts.map (·.id)).Nodup ∧
      (∀ (i : ℕ) (b : Bucket), t.buckets[i]? = some b →
        (∀ n ∈ b.contacts, t.bucketIndex n.id = i) ∧ b.live.length ≤ t.bucketLimit i ∧
          b.replacements.length ≤ kBucketSize) ∧
      1 ≤ t.buckets.length ∧ t.buckets.length ≤ kBucketCount - 1 := by
  obtain ⟨t, hrun, ht⟩ := run_new self extended calls
  exact ⟨t, hrun, ht.self, ht.nodup, fun i b hb =>
    ⟨ht.placed i b hb, ht.live i b hb, ht.standbys i b hb⟩, ht.nonempty, ht.bounded⟩

/-! ## Addresses and networks -/

/-- **At most one contact per public address, and per network in a bucket**, in every run in which a
contact that answers from another public address finds it free. -/
theorem one_contact_per_network {self : NodeId} {extended : Bool}
    {calls : List (TimePoint × TableCall)}
    (h : (new self extended).Along (fun t e => Moves t e → Fits t e) calls) :
    ∃ t, (new self extended).run calls = some t ∧ Diverse t := by
  have hsound : Sound True False (fun _ _ => True) (new self extended) :=
    sound_new self extended
  obtain ⟨t, hrun, ht⟩ := hsound.run
    (fun _ _ hfits => ⟨⟨fun _ => hfits, False.elim⟩, fun _ => trivial⟩) h
  exact ⟨t, hrun, ht.diverse trivial⟩

/-- An answer from 8.8.8.8. -/
def answer (id : NodeId) (port : UInt16) : TableCall :=
  .nodeSeen id ⟨.v4 0x08080808, port⟩ 10 false

/-- Of two contacts one answers from 9.9.9.9 and then from 8.8.8.8, where the other is not. -/
theorem one_contact_per_network_moved : ∃ t, (new 0 true).run
      [(0, .nodeSeen 1 ⟨.v4 0x07070707, 1⟩ 10 false), (0, .nodeSeen 2 ⟨.v4 0x09090909, 1⟩ 10 false),
        (1, answer 2 1)] = some t ∧ Diverse t :=
  one_contact_per_network (by decide +kernel)

/-- **Two contacts at one public address**: the second entered from another one. -/
theorem address_shared : ∃ t, (new 0 true).run
      [(0, answer 1 1), (1, .nodeSeen 2 ⟨.v4 0x09090909, 1⟩ 10 false), (2, answer 2 2)] = some t ∧
      ¬Diverse t := by
  have hrun : ((new 0 true).run
      [(0, answer 1 1), (1, .nodeSeen 2 ⟨.v4 0x09090909, 1⟩ 10 false), (2, answer 2 2)]).map
        (fun t => decide (publicIps t.contacts).Nodup) = some false := by decide +kernel
  obtain ⟨t, ht, hshared⟩ := map_eq_some_iff.mp hrun
  exact ⟨t, ht, fun h => of_decide_eq_false hshared h.address⟩

/-! ## Indices of buckets -/

/-- **Every bucket that is worked on exists**, in every run in which no standby answers from the
public endpoint of another contact. -/
theorem accesses_in_range {self : NodeId} {extended : Bool} {calls : List (TimePoint × TableCall)}
    (h : (new self extended).Along (fun t e => Promotes t e → ¬Taken t e) calls) :
    ∃ t, (new self extended).run calls = some t ∧ ∀ a ∈ t.accesses, a.index < a.count := by
  have hsound : Sound False True (fun _ _ => True) (new self extended) :=
    sound_new self extended
  obtain ⟨t, hrun, ht⟩ := hsound.run
    (fun _ _ hfree => ⟨⟨False.elim, fun _ => hfree⟩, fun _ => trivial⟩) h
  exact ⟨t, hrun, ht.accesses trivial⟩

/-- A contact of the other half of the keyspace. -/
def farId (n : ℕ) : NodeId := BitVec.ofNat 160 (2 ^ 159 + n * 2 ^ 155)

/-- A full bucket: seven contacts of the other half at private addresses and one of ours at 8.8.8.8.
One more of the other half becomes a standby. -/
def crowd : List (TimePoint × TableCall) :=
  (List.range 7).map (fun n => (0, .nodeSeen (farId n) ⟨.v4 (0x0A000001 + n), 1⟩ 10 false)) ++
    [(1, answer 1 1), (2, .heardAbout (farId 7) ⟨.v4 0x0A000064, 1⟩ false)]

/-- The standby answers: the bucket is split and both halves are refilled. -/
theorem accesses_in_range_split : ∃ t, (new 0 false).run
      (crowd ++ [(3, .nodeSeen (farId 7) ⟨.v4 0x0A000064, 1⟩ 10 false)]) = some t ∧
      ∀ a ∈ t.accesses, a.index < a.count :=
  accesses_in_range (by decide +kernel)

/-- **A bucket is refilled that does not exist**: the standby answers from 8.8.8.8, the contact
there is evicted, and its bucket is pruned. -/
theorem missing_bucket_refilled :
    ∃ t, (new 0 false).run (crowd ++ [(3, answer (farId 7) 1)]) = some t ∧
      ∃ a ∈ t.accesses, ¬a.index < a.count := by
  have hrun : ((new 0 false).run (crowd ++ [(3, answer (farId 7) 1)])).map
      (fun t => decide (∃ a ∈ t.accesses, ¬a.index < a.count)) = some true := by decide +kernel
  obtain ⟨t, ht, hout⟩ := map_eq_some_iff.mp hrun
  exact ⟨t, ht, of_decide_eq_true hout⟩

end Librats.Dht
