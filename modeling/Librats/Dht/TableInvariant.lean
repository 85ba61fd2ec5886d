import Librats.Dht.RoutingTable
import Mathlib.Data.List.TakeWhile

/-!
# What holds of a routing table

One invariant for all that is said of a table (`Sound`), and the kinds of change its functions are
made of. Two parts of it hold only under conditions on the calls, `strict` for the limits per
address and network, `careful` for the indices. `Known` is what is asked of contacts that have
answered.
-/

namespace Librats.Dht

open CountIndex List Multiset RoutingTable

/-! ## The addresses that are counted -/

/-- The public addresses of contacts. -/
def publicIps (l : List NodeEntry) : Multiset IpAddress :=
  ((l.map (·.endpoint.ip)).filter IpAddress.isPublic : List IpAddress)

theorem publicIps_append (l l' : List NodeEntry) :
    publicIps (l ++ l') = publicIps l + publicIps l' := by
  simp [publicIps]

theorem publicIps_perm {l l' : List NodeEntry} (h : l.Perm l') : publicIps l = publicIps l' :=
  coe_eq_coe.mpr ((h.map _).filter _)

variable {ip : IpAddress}

theorem mem_publicIps {l : List NodeEntry} :
    ip ∈ publicIps l ↔ ip.isPublic = true ∧ ∃ n ∈ l, n.endpoint.ip = ip := by
  simp [publicIps, and_comm]

variable (idx : Index IpAddress)

/-- The map after an address is tracked. -/
def tracked (ip : IpAddress) : Index IpAddress :=
  if ip.isPublic then track idx ip else idx

/-- The map after an address is untracked. -/
def untracked (ip : IpAddress) : Index IpAddress :=
  if ip.isPublic then untrack idx ip else idx

theorem RoutingTable.ipTrack_eq (t : RoutingTable) (ip : IpAddress) :
    t.ipTrack ip = { t with ipCount := tracked t.ipCount ip } := by
  unfold ipTrack tracked
  split_ifs <;> rfl

theorem RoutingTable.ipUntrack_eq (t : RoutingTable) (ip : IpAddress) :
    t.ipUntrack ip = { t with ipCount := untracked t.ipCount ip } := by
  unfold ipUntrack untracked
  split_ifs <;> rfl

theorem publicIps_cons (n : NodeEntry) (l : List NodeEntry) :
    publicIps (n :: l) = publicIps [n] + publicIps l := publicIps_append [n] l

theorem counts_tracked {m : Multiset IpAddress} {idx : Index IpAddress} (h : Counts m idx)
    (n : NodeEntry) : Counts (publicIps [n] + m) (tracked idx n.endpoint.ip) := by
  unfold tracked
  split_ifs with hip
  · simpa [publicIps, hip] using h.track n.endpoint.ip
  · simpa [publicIps, hip] using h

/-- Contacts with the given addresses have been taken out of the map. -/
def Dropped (removed : List NodeEntry) (idx idx' : Index IpAddress) : Prop :=
  ∀ m, Counts (publicIps removed + m) idx → Counts m idx'

theorem Dropped.nil : Dropped [] idx idx := by
  intro m h
  simpa [publicIps] using h

theorem Dropped.one {n : NodeEntry} (hip : n.endpoint.ip = ip)
    (idx : Index IpAddress) : Dropped [n] idx (untracked idx ip) := by
  subst hip
  intro m h
  unfold untracked
  split_ifs with hip
  · refine Counts.untrack ?_
    simpa [publicIps, hip] using h
  · simpa [publicIps, hip] using h

theorem Dropped.append {removed removed' : List NodeEntry} {idx idx' idx'' : Index IpAddress}
    (h : Dropped removed idx idx') (h' : Dropped removed' idx' idx'') :
    Dropped (removed ++ removed') idx idx'' := by
  intro m hm
  refine h' m (h _ ?_)
  rwa [publicIps_append, add_assoc] at hm

/-! ## The invariant -/

/-- Two contacts at public addresses are in different networks. -/
def Apart (n n' : NodeEntry) : Prop :=
  n.endpoint.ip.isPublic = true → n'.endpoint.ip.isPublic = true →
    n.endpoint.ip.tooClose n'.endpoint.ip = false

theorem Apart.symm {n n' : NodeEntry} (h : Apart n n') : Apart n' n := fun hn' hn => by
  rw [IpAddress.tooClose_comm]
  exact h hn hn'

/-- At most one contact per public address, and per network in a bucket. -/
structure Diverse (t : RoutingTable) : Prop where
  address : (publicIps t.contacts).Nodup
  network : ∀ b ∈ t.buckets, b.contacts.Pairwise Apart

/-- What holds of a table. -/
structure Sound (strict careful : Prop) (Known : NodeId → Address → Prop) (t : RoutingTable) :
    Prop where
  index : Counts (publicIps t.contacts) t.ipCount
  self : ∀ n ∈ t.contacts, n.id ≠ t.self
  nodup : (t.contacts.map (·.id)).Nodup
  placed : ∀ (i : ℕ) (b : Bucket), t.buckets[i]? = some b → ∀ n ∈ b.contacts, t.bucketIndex n.id = i
  live : ∀ (i : ℕ) (b : Bucket), t.buckets[i]? = some b → b.live.length ≤ t.bucketLimit i
  standbys : ∀ (i : ℕ) (b : Bucket), t.buckets[i]? = some b → b.replacements.length ≤ kBucketSize
  nonempty : 0 < t.buckets.length
  bounded : t.buckets.length ≤ kBucketCount - 1
  diverse : strict → Diverse t
  accesses : careful → ∀ a ∈ t.accesses, a.index < a.count
  known : ∀ n ∈ t.contacts, n.pinged = true → Known n.id n.endpoint

/-- What holds of contacts and the map of their addresses. -/
structure Listed (strict : Prop) (Known : NodeId → Address → Prop) (own : NodeId)
    (idx : Index IpAddress) (l : List NodeEntry) : Prop where
  index : Counts (publicIps l) idx
  self : ∀ n ∈ l, n.id ≠ own
  nodup : (l.map (·.id)).Nodup
  address : strict → (publicIps l).Nodup
  known : ∀ n ∈ l, n.pinged = true → Known n.id n.endpoint

/-- The table with another bucket and another map. -/
def RoutingTable.edited (t : RoutingTable) (i : ℕ) (b : Bucket) (idx : Index IpAddress) :
    RoutingTable :=
  { t with buckets := t.buckets.set i b, ipCount := idx }

section

variable {strict careful : Prop} {Known : NodeId → Address → Prop} {t : RoutingTable} {i : ℕ}
  {b b' : Bucket} {idx : Index IpAddress}

theorem mem_contacts {n : NodeEntry} :
    n ∈ t.contacts ↔ ∃ (i : ℕ) (b : Bucket), t.buckets[i]? = some b ∧ n ∈ b.contacts := by
  rw [contacts, mem_flatMap]
  simp only [mem_iff_getElem?]
  exact ⟨fun ⟨b, ⟨i, hi⟩, hn⟩ => ⟨i, b, hi, hn⟩, fun ⟨i, b, hi, hn⟩ => ⟨b, ⟨i, hi⟩, hn⟩⟩

theorem contacts_set (hb : t.buckets[i]? = some b) : ∃ rest, t.contacts.Perm (b.contacts ++ rest) ∧
      ∀ b' idx, (t.edited i b' idx).contacts.Perm (b'.contacts ++ rest) := by
  obtain ⟨hlt, rfl⟩ := List.getElem?_eq_some_iff.mp hb
  have hsplit (b' : Bucket) : t.buckets.set i b' = t.buckets.take i ++ b' :: t.buckets.drop (i + 1) :=
    set_eq_take_append_cons_drop.trans (if_pos hlt)
  have hmove (b' : Bucket) :
      ((t.buckets.take i ++ b' :: t.buckets.drop (i + 1)).flatMap Bucket.contacts).Perm
        (b'.contacts ++ (t.buckets.take i ++ t.buckets.drop (i + 1)).flatMap Bucket.contacts) := by
    simp only [flatMap_append]
    exact perm_append_comm_assoc _ _ _
  refine ⟨(t.buckets.take i ++ t.buckets.drop (i + 1)).flatMap Bucket.contacts, ?_, fun b' idx => ?_⟩
  · have hsame := hsplit t.buckets[i]
    rw [set_getElem_self] at hsame
    have hbucket := hmove t.buckets[i]
    rwa [← hsame] at hbucket
  · rw [edited, hsplit]
    exact hmove b'

@[simp] theorem bucketIndex_edited (id : NodeId) :
    (t.edited i b idx).bucketIndex id = t.bucketIndex id := by
  simp [bucketIndex, edited]

theorem edited_buckets {j : ℕ} {c : Bucket} (h : (t.edited i b idx).buckets[j]? = some c) :
    j = i ∧ c = b ∨ t.buckets[j]? = some c := by
  rw [edited, getElem?_set] at h
  split_ifs at h with hij hlt
  · exact .inl ⟨hij.symm, (Option.some.inj h).symm⟩
  · exact .inr h

@[simp] theorem edited_edited (b' : Bucket) (idx' : Index IpAddress) :
    (t.edited i b idx).edited i b' idx' = t.edited i b' idx' := by
  simp [edited]

theorem edited_self (hb : t.buckets[i]? = some b) : t.edited i b t.ipCount = t := by
  obtain ⟨hlt, rfl⟩ := List.getElem?_eq_some_iff.mp hb
  simp [edited]

theorem getElem?_edited (hb : t.buckets[i]? = some b) : (t.edited i b' idx).buckets[i]? = some b' := by
  have hlt := (List.getElem?_eq_some_iff.mp hb).1
  simp [edited, hlt]

variable {removed : List NodeEntry}

theorem edited_perm (hb : t.buckets[i]? = some b)
    (hperm : (b'.contacts ++ removed).Perm b.contacts) :
    t.contacts.Perm (removed ++ (t.edited i b' idx).contacts) := by
  obtain ⟨rest, hrest, hset⟩ := contacts_set hb
  refine hrest.trans (.trans (hperm.symm.append_right rest) ?_)
  rw [append_assoc]
  exact (perm_append_comm_assoc _ _ _).trans ((hset b' idx).symm.append_left _)

variable (h : Sound strict careful Known t)

include h

theorem Sound.drop {l : List NodeEntry} (hall : t.contacts.Perm (removed ++ l))
    (hidx : Dropped removed t.ipCount idx) : Listed strict Known t.self idx l := by
  have hsub (n : NodeEntry) (hn : n ∈ l) : n ∈ t.contacts := hall.symm.subset (mem_append_right _ hn)
  refine ⟨hidx _ ?_, fun n hn => h.self n (hsub n hn), ?_, fun hs => ?_,
    fun n hn => h.known n (hsub n hn)⟩
  · rw [← publicIps_append, ← publicIps_perm hall]
    exact h.index
  · have hnodup := (hall.map _).nodup_iff.mp h.nodup
    rw [map_append] at hnodup
    exact hnodup.of_append_right
  · have haddress := (h.diverse hs).address
    rw [publicIps_perm hall, publicIps_append] at haddress
    exact (nodup_add.mp haddress).2.1

theorem Sound.edit (hlisted : Listed strict Known t.self idx (t.edited i b' idx).contacts)
    (hplaced : ∀ n ∈ b'.contacts, t.bucketIndex n.id = i) (hlive : b'.live.length ≤ t.bucketLimit i)
    (hstandbys : b'.replacements.length ≤ kBucketSize)
    (hnetwork : strict → b'.contacts.Pairwise Apart) :
    Sound strict careful Known (t.edited i b' idx) := by
  refine ⟨hlisted.index, hlisted.self, hlisted.nodup, fun j c hc n hn => ?_, fun j c hc => ?_,
    fun j c hc => ?_, ?_, ?_, fun hs => ⟨hlisted.address hs, fun c hc => ?_⟩, h.accesses,
    hlisted.known⟩
  · rw [bucketIndex_edited]
    obtain ⟨rfl, rfl⟩ | hc := edited_buckets hc
    · exact hplaced n hn
    · exact h.placed j c hc n hn
  · obtain ⟨rfl, rfl⟩ | hc := edited_buckets hc
    · exact hlive
    · exact h.live j c hc
  · obtain ⟨rfl, rfl⟩ | hc := edited_buckets hc
    · exact hstandbys
    · exact h.standbys j c hc
  · rw [edited, length_set]
    exact h.nonempty
  · rw [edited, length_set]
    exact h.bounded
  · obtain ⟨j, hj⟩ := mem_iff_getElem?.mp hc
    obtain ⟨rfl, rfl⟩ | hj := edited_buckets hj
    · exact hnetwork hs
    · exact (h.diverse hs).network c (mem_of_getElem? hj)

theorem Sound.shrink (hb : t.buckets[i]? = some b)
    (hperm : (b'.contacts ++ removed).Perm b.contacts) (hidx : Dropped removed t.ipCount idx)
    (hlive : b'.live.length ≤ t.bucketLimit i) (hstandbys : b'.replacements.length ≤ kBucketSize) :
    Sound strict careful Known (t.edited i b' idx) := by
  refine h.edit (h.drop (edited_perm hb hperm) hidx) (fun n hn => ?_) hlive hstandbys fun hs => ?_
  · exact h.placed _ b hb n (hperm.subset (mem_append_left _ hn))
  · have hnetwork := (h.diverse hs).network b (mem_of_getElem? hb)
    exact ((hperm.pairwise_iff fun h => h.symm).mpr hnetwork).sublist (sublist_append_left _ _)

theorem Sound.grow {e : NodeEntry}
    (hb : t.buckets[t.bucketIndex e.id]? = some b) (hperm : b'.contacts.Perm (e :: b.contacts))
    (hidx : Counts (publicIps (e :: t.contacts)) idx)
    (hself : e.id ≠ t.self) (hfresh : ∀ n ∈ t.contacts, n.id ≠ e.id)
    (hknown : e.pinged = true → Known e.id e.endpoint)
    (hdiverse : strict → e.endpoint.ip.isPublic = true →
      (∀ n ∈ t.contacts, n.endpoint.ip ≠ e.endpoint.ip) ∧
        ∀ n ∈ b.contacts, n.endpoint.ip.isPublic = true →
          n.endpoint.ip.tooClose e.endpoint.ip = false)
    (hlive : b'.live.length ≤ t.bucketLimit (t.bucketIndex e.id))
    (hstandbys : b'.replacements.length ≤ kBucketSize) :
    Sound strict careful Known (t.edited (t.bucketIndex e.id) b' idx) := by
  obtain ⟨rest, hrest, hset⟩ := contacts_set hb
  have hall : (t.edited (t.bucketIndex e.id) b' idx).contacts.Perm (e :: t.contacts) :=
    ((hset b' idx).trans (hperm.append_right rest)).trans (hrest.symm.cons e)
  have hmem {n : NodeEntry} (hn : n ∈ (t.edited (t.bucketIndex e.id) b' idx).contacts) :
      n = e ∨ n ∈ t.contacts := mem_cons.mp (hall.subset hn)
  refine h.edit ⟨?_, fun n hn => ?_, ?_, fun hs => ?_, fun n hn => ?_⟩ (fun n hn => ?_) hlive
    hstandbys fun hs => ?_
  · rwa [publicIps_perm hall]
  · obtain rfl | hn := hmem hn
    · exact hself
    · exact h.self n hn
  · rw [(hall.map _).nodup_iff, List.map_cons, List.nodup_cons]
    refine ⟨fun hid => ?_, h.nodup⟩
    obtain ⟨n, hn, hid⟩ := mem_map.mp hid
    exact hfresh n hn hid
  · rw [publicIps_perm hall, ← singleton_append, publicIps_append]
    refine nodup_add.mpr ⟨?_, (h.diverse hs).address, ?_⟩
    · cases hip : e.endpoint.ip.isPublic <;> simp [publicIps, hip]
    · refine disjoint_left.mpr fun hip hother => ?_
      obtain ⟨hpublic, n, hn, rfl⟩ := mem_publicIps.mp hip
      obtain rfl := List.mem_singleton.mp hn
      obtain ⟨-, n', hn', heq⟩ := mem_publicIps.mp hother
      exact (hdiverse hs hpublic).1 n' hn' heq
  · obtain rfl | hn := hmem hn
    · exact hknown
    · exact h.known n hn
  · obtain rfl | hn := mem_cons.mp (hperm.subset hn)
    · rfl
    · exact h.placed _ b hb n hn
  · refine (hperm.pairwise_iff fun h => h.symm).mpr (pairwise_cons.mpr ⟨fun n hn he hn' => ?_, ?_⟩)
    · rw [IpAddress.tooClose_comm]
      exact (hdiverse hs he).2 n hn hn'
    · exact (h.diverse hs).network b (mem_of_getElem? hb)

theorem Sound.log {new : List Access} (hnew : careful → ∀ a ∈ new, a.index < a.count) :
    Sound strict careful Known { t with accesses := t.accesses ++ new } where
  __ := h
  diverse hs := ⟨(h.diverse hs).address, (h.diverse hs).network⟩
  accesses hc a ha := (mem_append.mp ha).elim (h.accesses hc a) (hnew hc a)

theorem Sound.touch (hi : careful → i < t.buckets.length) :
    Sound strict careful Known (t.touch i) :=
  h.log fun hc _ ha => List.mem_singleton.mp ha ▸ hi hc

theorem Sound.split {init : List Bucket} {b₁ b₂ : Bucket}
    (hb : t.buckets = init ++ [b]) (hlast : init.length + 2 ≤ kBucketCount - 1)
    (hperm : (b₁.contacts ++ b₂.contacts ++ removed).Perm b.contacts)
    (hidx : Dropped removed t.ipCount idx)
    (hhere : ∀ n ∈ b₁.contacts, sharedPrefixBits t.self n.id ≤ init.length)
    (hdeeper : ∀ n ∈ b₂.contacts, init.length < sharedPrefixBits t.self n.id)
    (hlive₁ : b₁.live.length ≤ t.bucketLimit init.length)
    (hlive₂ : b₂.live.length ≤ t.bucketLimit (init.length + 1))
    (hstandbys₁ : b₁.replacements.length ≤ kBucketSize)
    (hstandbys₂ : b₂.replacements.length ≤ kBucketSize) :
    Sound strict careful Known { t with buckets := init ++ [b₁, b₂], ipCount := idx } := by
  have hbucket : t.buckets[init.length]? = some b := by simp [hb]
  have hold : t.contacts = init.flatMap Bucket.contacts ++ b.contacts := by
    simp [contacts, hb]
  have hnew : ({ t with buckets := init ++ [b₁, b₂], ipCount := idx } : RoutingTable).contacts =
      init.flatMap Bucket.contacts ++ (b₁.contacts ++ b₂.contacts) := by
    simp [contacts]
  have hall : t.contacts.Perm (removed ++
      ({ t with buckets := init ++ [b₁, b₂], ipCount := idx } : RoutingTable).contacts) := by
    rw [hold, hnew]
    refine (hperm.symm.append_left _).trans ?_
    rw [← append_assoc]
    exact perm_append_comm
  have hlisted : Listed strict Known t.self idx _ := h.drop hall hidx
  have hindex (n : NodeEntry) :
      ({ t with buckets := init ++ [b₁, b₂], ipCount := idx } : RoutingTable).bucketIndex n.id =
        min (sharedPrefixBits t.self n.id) (init.length + 1) := by
    simp [bucketIndex]
  have hcases (j : ℕ) (c : Bucket) (hc : (init ++ [b₁, b₂])[j]? = some c) :
      j < init.length ∧ t.buckets[j]? = some c ∨ j = init.length ∧ c = b₁ ∨
        j = init.length + 1 ∧ c = b₂ := by
    rw [getElem?_append] at hc
    split_ifs at hc with hj
    · exact .inl ⟨hj, by rw [hb, getElem?_append_left hj, hc]⟩
    obtain hj | hj | hj : j - init.length = 0 ∨ j - init.length = 1 ∨ 2 ≤ j - init.length := by
      omega
    · rw [hj] at hc
      exact .inr (.inl ⟨by omega, (Option.some.inj hc).symm⟩)
    · rw [hj] at hc
      exact .inr (.inr ⟨by omega, (Option.some.inj hc).symm⟩)
    · rw [getElem?_eq_none (by simpa using hj)] at hc
      cases hc
  have hplaced (n : NodeEntry) (hn : n ∈ b.contacts) :
      init.length ≤ sharedPrefixBits t.self n.id := by
    have := h.placed _ b hbucket n hn
    rw [bucketIndex] at this
    omega
  have hin₁ : ∀ n ∈ b₁.contacts, n ∈ b.contacts := fun n hn =>
    hperm.subset (mem_append_left _ (mem_append_left _ hn))
  refine ⟨hlisted.index, hlisted.self, hlisted.nodup, fun j c hc n hn => ?_, fun j c hc => ?_,
    fun j c hc => ?_, ?_, ?_, fun hs => ⟨hlisted.address hs, fun c hc => ?_⟩, h.accesses,
    hlisted.known⟩
  · rw [hindex]
    obtain ⟨hj, hc⟩ | ⟨rfl, rfl⟩ | ⟨rfl, rfl⟩ := hcases j c hc
    · have hidx := h.placed j c hc n hn
      rw [bucketIndex, hb, length_append, length_singleton] at hidx
      omega
    · have := hplaced n (hin₁ n hn)
      have := hhere n hn
      omega
    · have := hdeeper n hn
      omega
  · obtain ⟨-, hc⟩ | ⟨rfl, rfl⟩ | ⟨rfl, rfl⟩ := hcases j c hc
    · exact h.live j c hc
    · exact hlive₁
    · exact hlive₂
  · obtain ⟨-, hc⟩ | ⟨rfl, rfl⟩ | ⟨rfl, rfl⟩ := hcases j c hc
    · exact h.standbys j c hc
    · exact hstandbys₁
    · exact hstandbys₂
  · simp
  · simpa using hlast
  have hnetwork := (hperm.pairwise_iff fun h => h.symm).mpr
    ((h.diverse hs).network b (mem_of_getElem? hbucket))
  have hboth := hnetwork.sublist (sublist_append_left _ removed)
  obtain ⟨j, hj⟩ := mem_iff_getElem?.mp hc
  obtain ⟨-, hc⟩ | ⟨rfl, rfl⟩ | ⟨rfl, rfl⟩ := hcases j c hj
  · exact (h.diverse hs).network c (mem_of_getElem? hc)
  · exact hboth.sublist (sublist_append_left _ _)
  · exact hboth.sublist (sublist_append_right _ _)

omit h in
/-- What `prune_empty_back` takes away. -/
theorem prune_spec (t : RoutingTable) (hne : 0 < t.buckets.length) :
    ∃ gone, t.buckets = t.pruneEmptyBack.buckets ++ gone ∧ (∀ b ∈ gone, b.contacts = []) ∧
      0 < t.pruneEmptyBack.buckets.length := by
  let p : Bucket → Bool := fun b => b.live.isEmpty && b.replacements.isEmpty
  have hempty (b : Bucket) (hb : p b = true) : b.contacts = [] := by
    simpa [p, Bucket.contacts] using hb
  have hsplit : t.buckets =
      (t.buckets.reverse.dropWhile p).reverse ++ (t.buckets.reverse.takeWhile p).reverse := by
    rw [← reverse_append, takeWhile_append_dropWhile, reverse_reverse]
  have htaken : ∀ b ∈ t.buckets.reverse.takeWhile p, b.contacts = [] := fun b hb =>
    hempty b (mem_takeWhile_imp hb)
  unfold pruneEmptyBack
  simp only
  split_ifs with hkept
  · rw [List.isEmpty_iff] at hkept
    refine ⟨t.buckets.drop 1, (take_append_drop 1 _).symm, fun b hb => ?_, by simp; omega⟩
    have hall : t.buckets = (t.buckets.reverse.takeWhile p).reverse := by
      conv_lhs => rw [hsplit, show t.buckets.reverse.dropWhile p = [] from hkept]
      rfl
    have hmem := mem_of_mem_drop hb
    rw [hall, mem_reverse] at hmem
    exact htaken b hmem
  · refine ⟨_, hsplit, fun b hb => htaken b (mem_reverse.mp hb), ?_⟩
    rw [length_reverse]
    exact length_pos_iff.mpr fun hnil => hkept (isEmpty_iff.mpr hnil)

theorem Sound.prune : Sound strict careful Known t.pruneEmptyBack := by
  obtain ⟨gone, hgone, hempty, hne⟩ := prune_spec t h.nonempty
  have hcontacts : t.pruneEmptyBack.contacts = t.contacts := by
    rw [contacts, contacts, hgone, flatMap_append]
    rw [flatMap_eq_nil_iff.mpr hempty, append_nil]
  have hlength : t.pruneEmptyBack.buckets.length ≤ t.buckets.length := by
    rw [hgone, length_append]
    omega
  have hbucket {j : ℕ} {c : Bucket} (hc : t.pruneEmptyBack.buckets[j]? = some c) :
      t.buckets[j]? = some c := by
    rw [hgone, List.getElem?_append_left (List.getElem?_eq_some_iff.mp hc).1, hc]
  refine ⟨hcontacts ▸ h.index, hcontacts ▸ h.self, hcontacts ▸ h.nodup, fun j c hc n hn => ?_,
    fun j c hc => h.live j c (hbucket hc), fun j c hc => h.standbys j c (hbucket hc), hne,
    hlength.trans h.bounded, fun hs => ⟨hcontacts ▸ (h.diverse hs).address, fun c hc => ?_⟩, h.accesses,
    hcontacts ▸ h.known⟩
  · have hidx := h.placed j c (hbucket hc) n hn
    have hj := (List.getElem?_eq_some_iff.mp hc).1
    rw [bucketIndex] at hidx ⊢
    change min (sharedPrefixBits t.self n.id) _ = j
    omega
  · refine (h.diverse hs).network c ?_
    rw [hgone]
    exact mem_append_left _ hc

end

end Librats.Dht
