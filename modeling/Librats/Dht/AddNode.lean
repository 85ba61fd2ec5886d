import Librats.Dht.BucketChanges

/-!
# Adding a contact

`add_node` and the calls that go through it keep the invariant of the table, for the limits per
address and network if a contact is moved only to a free public address, for the indices if a
standby that is promoted does not answer from the endpoint of another contact (`Meets`).
-/

namespace Librats.Dht

open CountIndex List RoutingTable

/-! ## Sightings -/

variable (e : NodeEntry)

@[simp] theorem NodeEntry.updateRtt_id (sample : ℕ) : (e.updateRtt sample).id = e.id := by
  unfold updateRtt
  split_ifs <;> rfl

@[simp] theorem NodeEntry.updateRtt_endpoint (sample : ℕ) :
    (e.updateRtt sample).endpoint = e.endpoint := by
  unfold updateRtt
  split_ifs <;> rfl

section

variable (now : TimePoint)

@[simp] theorem NodeEntry.recordSuccess_id (sample : ℕ) :
    (e.recordSuccess now sample).id = e.id := updateRtt_id _ _

@[simp] theorem NodeEntry.recordSuccess_endpoint (sample : ℕ) :
    (e.recordSuccess now sample).endpoint = e.endpoint := updateRtt_endpoint _ _

@[simp] theorem RoutingTable.carried_id (old e : NodeEntry) :
    (carried now old e).id = old.id := NodeEntry.recordSuccess_id _ _ _

@[simp] theorem RoutingTable.carried_endpoint (old e : NodeEntry) :
    (carried now old e).endpoint = e.endpoint := NodeEntry.recordSuccess_endpoint _ _ _

end

variable (t : RoutingTable)

/-- No other contact has its public address, and none of the bucket a public one in its network. -/
def Fits (e : NodeEntry) : Prop :=
  e.endpoint.ip.isPublic = true → (∀ n ∈ t.contacts, n.id ≠ e.id → n.endpoint.ip ≠ e.endpoint.ip) ∧
      ∀ n ∈ (t.bucket (t.bucketIndex e.id)).contacts, n.id ≠ e.id →
        n.endpoint.ip.isPublic = true → n.endpoint.ip.tooClose e.endpoint.ip = false

/-- A contact that answers from another address than the one held. -/
def Moves (e : NodeEntry) : Prop :=
  e.pinged = true ∧ ∃ old ∈ t.contacts, old.id = e.id ∧ old.endpoint.ip ≠ e.endpoint.ip

/-- A standby that answers. -/
def Promotes (e : NodeEntry) : Prop :=
  e.pinged = true ∧ ∃ old ∈ (t.bucket (t.bucketIndex e.id)).replacements, old.id = e.id

/-- Another contact is at the endpoint, which is public. -/
def Taken (e : NodeEntry) : Prop :=
  e.endpoint.ip.isPublic = true ∧ ∃ n ∈ t.contacts, n.id ≠ e.id ∧ n.endpoint = e.endpoint

instance (t : RoutingTable) (e : NodeEntry) : Decidable (Fits t e) :=
  inferInstanceAs (Decidable (_ → _))

instance (t : RoutingTable) (e : NodeEntry) : Decidable (Moves t e) :=
  inferInstanceAs (Decidable (_ ∧ _))

instance (t : RoutingTable) (e : NodeEntry) : Decidable (Promotes t e) :=
  inferInstanceAs (Decidable (_ ∧ _))

instance (t : RoutingTable) (e : NodeEntry) : Decidable (Taken t e) :=
  inferInstanceAs (Decidable (_ ∧ _))

/-- The conditions on a sighting. -/
structure Meets (strict careful : Prop) (t : RoutingTable) (e : NodeEntry) : Prop where
  moves : strict → Moves t e → Fits t e
  promotes : careful → Promotes t e → ¬Taken t e

/-- A contact that can enter its bucket. -/
structure Enters (strict : Prop) (Known : NodeId → Address → Prop) (t : RoutingTable)
    (e : NodeEntry) : Prop where
  self : e.id ≠ t.self
  fresh : ∀ n ∈ t.contacts, n.id ≠ e.id
  known : e.pinged = true → Known e.id e.endpoint
  fits : strict → Fits t e

/-- What a call may have brought into a table: one id, at most. -/
structure Follows (e : NodeEntry) (t t' : RoutingTable) : Prop where
  self : t'.self = t.self
  extended : t'.extended = t.extended
  ids : ∀ n ∈ t'.contacts, n.id = e.id ∨ ∃ m ∈ t.contacts, m.id = n.id

/-- A contact was brought to a table, and the invariant holds. -/
structure Admits (strict careful : Prop) (Known : NodeId → Address → Prop) (e : NodeEntry)
    (t t' : RoutingTable) : Prop extends Follows e t t' where
  sound : Sound strict careful Known t'

theorem Loses.follows {t t' : RoutingTable} (h : Loses t t') (e : NodeEntry) : Follows e t t' :=
  ⟨h.self, h.extended, fun n hn => .inr ⟨n, h.contacts n hn, rfl⟩⟩

theorem Follows.trans {e : NodeEntry} {t t' t'' : RoutingTable} (h : Follows e t t')
    (h' : Follows e t' t'') : Follows e t t'' := by
  refine ⟨h'.self.trans h.self, h'.extended.trans h.extended, fun n hn => ?_⟩
  obtain hid | ⟨m, hm, hid⟩ := h'.ids n hn
  · exact .inl hid
  · exact hid ▸ h.ids m hm

section

variable {strict careful : Prop} {Known : NodeId → Address → Prop} {t : RoutingTable} {i : ℕ}
  {b b' : Bucket} {idx : Index IpAddress} {e old : NodeEntry}

/-- A contact is brought as `e'` with the same id, to a table with fewer contacts. -/
theorem Admits.after {t₁ t' : RoutingTable} {e' : NodeEntry} (h : Admits strict careful Known e' t₁ t')
    (hid : e'.id = e.id) (hloses : Loses t t₁) : Admits strict careful Known e t t' :=
  ⟨(hloses.follows e).trans ⟨h.self, h.extended, hid ▸ h.ids⟩, h.sound⟩

theorem Sound.enter (h : Sound strict careful Known t) (he : Enters strict Known t e)
    (hi : t.bucketIndex e.id = i) (hb : t.buckets[i]? = some b) (b' : Bucket)
    (hperm : b'.contacts.Perm (e :: b.contacts)) (hidx : Counts (publicIps (e :: t.contacts)) idx)
    (hlive : b'.live.length ≤ t.bucketLimit i) (hstandbys : b'.replacements.length ≤ kBucketSize) :
    Admits strict careful Known e t (t.edited i b' idx) := by
  subst hi
  obtain ⟨rest, hrest, hset⟩ := contacts_set hb
  have hall := ((hset b' idx).trans (hperm.append_right rest)).trans (hrest.symm.cons e)
  refine ⟨⟨rfl, rfl, fun n hn => ?_⟩, h.grow hb hperm hidx he.self he.fresh he.known
    (fun hs hip => ?_) hlive hstandbys⟩
  · obtain rfl | hn := mem_cons.mp (hall.subset hn)
    · exact .inl rfl
    · exact .inr ⟨n, hn, rfl⟩
  · obtain ⟨haddress, hnetwork⟩ := he.fits hs hip
    rw [bucket_eq hb] at hnetwork
    have hin (n : NodeEntry) (hn : n ∈ b.contacts) := he.fresh n (mem_contacts_of_bucket hb hn)
    exact ⟨fun n hn => haddress n hn (he.fresh n hn), fun n hn => hnetwork n hn (hin n hn)⟩

/-- The bucket with another contact at a place. -/
def Bucket.replaced (b : Bucket) (live : Bool) (j : ℕ) (e : NodeEntry) : Bucket :=
  if live then { b with live := b.live.set j e } else { b with replacements := b.replacements.set j e }

variable {j depth : ℕ} {again : RoutingTable → NodeEntry → Option (RoutingTable × Bool)}
    {t' : RoutingTable} {ok : Bool} {now : TimePoint} {x : NodeEntry × ℕ}

theorem replaced_perm {live : Bool} (hold : (b.list live)[j]? = some old) (e : NodeEntry) :
    (b.replaced live j e).contacts.Perm (e :: (b.without live j).contacts) := by
  cases live with
  | true => exact (set_perm (x := (old, j)) hold e).append_right _
  | false =>
    refine ((set_perm (x := (old, j)) hold e).append_left _).trans ?_
    exact perm_middle

theorem replaced_length (live : Bool) (j : ℕ) (e : NodeEntry) :
    (b.replaced live j e).live.length = b.live.length ∧
      (b.replaced live j e).replacements.length = b.replacements.length := by
  cases live <;> simp [Bucket.replaced]

theorem Sound.swap (h : Sound strict careful Known t) (hi : t.bucketIndex e.id = i)
    (hb : t.buckets[i]? = some b) {live : Bool} (hold : (b.list live)[j]? = some old)
    (he : ∀ t₁, Loses t t₁ → t.contacts.Perm (old :: t₁.contacts) →
      t₁.buckets[i]? = some (b.without live j) → t₁.bucketIndex e.id = i → Enters strict Known t₁ e)
    (hidx : ∀ m, Counts (publicIps [old] + m) t.ipCount → Counts (publicIps [e] + m) idx) :
    Admits strict careful Known e t (t.edited i (b.replaced live j e) idx) := by
  let at_ : Located := ⟨i, live, j, old⟩
  have hremoved := h.remove at_ hb hold rfl
  have hloses : Loses t (t.remove at_) := .remove at_ hb hold
  have hperm : t.contacts.Perm (old :: (t.remove at_).contacts) := remove_perm at_ hb hold
  have heq := remove_eq at_ hb
  have hb' : (t.remove at_).buckets[i]? = some (b.without live j) := by
    rw [heq]
    exact getElem?_edited hb
  have hindex : (t.remove at_).bucketIndex e.id = i := by rw [heq, bucketIndex_edited, hi]
  have henters := he _ hloses hperm hb' hindex
  have hlength := replaced_length (b := b) live j e
  have hcount : Counts (publicIps (e :: (t.remove at_).contacts)) idx := by
    rw [publicIps_cons]
    refine hidx _ ?_
    rw [← publicIps_cons, ← publicIps_perm hperm]
    exact h.index
  have hstep := hremoved.enter henters hindex hb' (b.replaced live j e) (replaced_perm hold e)
    hcount ?_ ?_
  · rw [heq, edited_edited, ← heq] at hstep
    exact hstep.after rfl hloses
  · rw [hlength.1, heq]
    exact h.live _ b hb
  · rw [hlength.2]
    exact h.standbys _ b hb

theorem Enters.after {t₁ : RoutingTable} (he : Enters strict Known t e) (hloses : Loses t t₁)
    (hbucket : ∀ n ∈ (t₁.bucket (t₁.bucketIndex e.id)).contacts,
      n ∈ (t.bucket (t.bucketIndex e.id)).contacts) : Enters strict Known t₁ e where
  self := by rw [hloses.self]; exact he.self
  fresh n hn := he.fresh n (hloses.contacts n hn)
  known := he.known
  fits hs hip := by
    obtain ⟨haddress, hnetwork⟩ := he.fits hs hip
    exact ⟨fun n hn => haddress n (hloses.contacts n hn), fun n hn => hnetwork n (hbucket n hn)⟩

theorem Sound.assign (h : Sound strict careful Known t) (he : Enters strict Known t e)
    (hi : t.bucketIndex e.id = i) (hb : t.buckets[i]? = some b) (live : Bool)
    (hold : (b.list live)[j]? = some old) :
    Admits strict careful Known e t (t.edited i (b.replaced live j e)
      (tracked (untracked t.ipCount old.endpoint.ip) e.endpoint.ip)) := by
  refine h.swap hi hb hold
    (fun t₁ hloses _ hb₁ hindex => he.after hloses fun n hn => ?_) fun m hm => ?_
  · rw [hindex, bucket_eq hb₁] at hn
    rw [hi, bucket_eq hb]
    exact (without_perm (x := (old, j)) hold).subset (mem_append_left _ hn)
  · exact counts_tracked (Dropped.one rfl _ m hm) e

section

variable (hb : t.buckets[i]? = some b) (x : NodeEntry × ℕ) (e : NodeEntry)

include hb

theorem assignLive_eq : t.assignLive i x e = t.edited i (b.replaced true x.2 e)
      (tracked (untracked t.ipCount x.1.endpoint.ip) e.endpoint.ip) := by
  rw [assignLive, bucket_eq hb, ipUntrack_eq, ipTrack_eq]
  rfl

theorem assignReplacement_eq : t.assignReplacement i x e = t.edited i (b.replaced false x.2 e)
      (tracked (untracked t.ipCount x.1.endpoint.ip) e.endpoint.ip) := by
  rw [assignReplacement, bucket_eq hb, ipUntrack_eq, ipTrack_eq]
  rfl

end

section

variable (h : Sound strict careful Known t) (he : Enters strict Known t e)
  (hi : t.bucketIndex e.id = i)

include h he hi

theorem Sound.stashReplacement : Admits strict careful Known e t (t.stashReplacement i e) := by
  have hb : t.buckets[i]? = some (t.bucket i) := hi ▸ h.getElem?_bucketIndex e.id
  unfold RoutingTable.stashReplacement
  simp only
  split
  · next x hx =>
    rw [assignReplacement_eq hb]
    exact h.assign he hi hb false (findById_getElem? hx)
  split_ifs with hroom
  · rw [ipTrack_eq]
    refine h.enter he hi hb { t.bucket i with replacements := (t.bucket i).replacements ++ [e] }
      ?_ ?_ (h.live _ (t.bucket i) hb) ?_
    · rw [Bucket.contacts, ← append_assoc]
      exact perm_append_singleton _ _
    · rw [publicIps_cons]
      exact counts_tracked h.index e
    · simpa using hroom
  split
  · next x hx =>
    split_ifs
    · rw [assignReplacement_eq hb]
      exact h.assign he hi hb false (worstOf_getElem? hx)
    · exact ⟨(Loses.refl t).follows e, h⟩
  · exact ⟨(Loses.refl t).follows e, h⟩

theorem Sound.push (hb : t.buckets[i]? = some b) (hroom : b.live.length < t.bucketLimit i) :
    Admits strict careful Known e t
      ((t.setBucket i { b with live := b.live ++ [e] }).ipTrack e.endpoint.ip) := by
  rw [ipTrack_eq]
  refine h.enter he hi hb { b with live := b.live ++ [e] } ?_ ?_ (by simpa using hroom)
    (h.standbys _ b hb)
  · rw [Bucket.contacts, append_assoc]
    exact perm_middle
  · rw [publicIps_cons]
    exact counts_tracked h.index e

end

theorem loses_splitReads (t : RoutingTable) (i : ℕ) : Loses t (t.splitReads i) := by
  unfold splitReads
  split_ifs
  · exact loses_touch t i
  · exact (loses_touch t _).trans (loses_touch _ _)
  · exact .refl t

theorem splitReads_eq (t : RoutingTable) (i : ℕ) :
    ∃ log, t.splitReads i = { t with accesses := log } := by
  unfold splitReads
  split_ifs <;> exact ⟨_, rfl⟩

@[simp] theorem splitReads_buckets (t : RoutingTable) (i : ℕ) : (t.splitReads i).buckets = t.buckets := by
  unfold splitReads
  split_ifs <;> rfl

theorem Sound.splitReads (h : Sound strict careful Known t) (hi : i < t.buckets.length) :
    Sound strict careful Known (t.splitReads i) := by
  unfold RoutingTable.splitReads
  split_ifs
  · exact h.touch fun _ => hi
  · exact (h.touch fun _ => by omega).touch fun _ => hi
  · exact h

theorem canSplit_spec (h : t.canSplit i e = true) :
    ∃ init b, t.buckets = init ++ [b] ∧ init.length = i ∧ init.length + 2 ≤ kBucketCount - 1 := by
  simp only [canSplit, Bool.and_eq_true, beq_iff_eq, decide_eq_true_eq] at h
  obtain ⟨⟨⟨⟨hlast, hcount⟩, -⟩, -⟩, -⟩ := h
  have hne : t.buckets ≠ [] := fun hnil => by simp [hnil] at hlast
  refine ⟨t.buckets.dropLast, t.buckets.getLast hne, (dropLast_append_getLast hne).symm, ?_, ?_⟩
  · rw [length_dropLast]
    omega
  · rw [length_dropLast]
    omega

theorem Sound.splitBucket (h : Sound strict careful Known t) (hsplit : t.canSplit i e = true) :
    Sound strict careful Known t.splitBucket := by
  obtain ⟨init, b, hb, -, hcount⟩ := canSplit_spec hsplit
  obtain ⟨b₁, b₂, removed, idx, new, heq, hperm, hdropped, hhere, hdeeper, hlive₁, hlive₂,
    hstandbys₁, hstandbys₂, hnew⟩ := splitBucket_spec hb
  rw [heq]
  exact (h.split hb hcount hperm hdropped hhere hdeeper hlive₁ hlive₂ hstandbys₁ hstandbys₂).log
    fun _ => hnew

theorem loses_splitBucket (hsplit : t.canSplit i e = true) : Loses t t.splitBucket := by
  obtain ⟨init, b, hb, -, -⟩ := canSplit_spec hsplit
  obtain ⟨b₁, b₂, removed, idx, new, heq, hperm, -⟩ := splitBucket_spec hb
  rw [heq]
  refine ⟨rfl, rfl, fun n hn => ?_⟩
  simp only [contacts, flatMap_append, flatMap_cons, flatMap_nil, append_nil, hb] at hn ⊢
  obtain hn | hn := mem_append.mp hn
  · exact mem_append_left _ hn
  · exact mem_append_right _ (hperm.subset (mem_append_left _ hn))

theorem length_splitBucket (hsplit : t.canSplit i e = true) :
    t.splitBucket.buckets.length = t.buckets.length + 1 := by
  obtain ⟨init, b, hb, -, -⟩ := canSplit_spec hsplit
  obtain ⟨b₁, b₂, removed, idx, new, heq, -⟩ := splitBucket_spec hb
  rw [heq, hb]
  simp

/-! ## The calls -/

theorem insert_cases (h : t.insert again i e = some (t', ok)) :
    ((t.bucket i).live.length < t.bucketLimit i ∧ t' = (t.setBucket i { t.bucket i with
        live := (t.bucket i).live ++ [e] }).ipTrack e.endpoint.ip) ∨
    (∃ t₁, (t.splitReads i).canSplit i e = true ∧
      again (t.splitReads i).splitBucket e = some (t₁, ok) ∧
      t' = (t₁.fillFromReplacements i).fillFromReplacements (i + 1)) ∨
    (∃ last victim, spreadVictim i last (t.bucketLimit i) (t.bucket i).live e = some victim ∧
      t' = (t.splitReads i).assignLive i victim e) ∨
    t' = (t.splitReads i).stashReplacement i e ∨ t' = t.stashReplacement i e := by
  unfold RoutingTable.insert at h
  simp only at h
  split_ifs at h with hroom hconfirmed hsplit
  · exact .inl ⟨hroom, by cases h; rfl⟩
  · obtain ⟨⟨t₁, added⟩, hagain, heq⟩ := Option.map_eq_some_iff.mp h
    obtain ⟨rfl, rfl⟩ := Prod.mk.inj heq
    exact .inr (.inl ⟨t₁, hsplit, hagain, rfl⟩)
  · split at h
    · next victim hvictim =>
      exact .inr (.inr (.inl ⟨_, victim, hvictim, by cases h; rfl⟩))
    · exact .inr (.inr (.inr (.inl (by cases h; rfl))))
  · exact .inr (.inr (.inr (.inr (by cases h; rfl))))

theorem addNode_cases (hi : t.bucketIndex e.id = i)
    (h : addNode now (depth + 1) t e = some (t', ok)) : (e.id = t.self ∧ t' = t) ∨ e.id ≠ t.self ∧
      ((∃ old, findById (t.bucket i).live e.id = some old ∧ t' = (t.touch i).refresh now i old e) ∨
      findById (t.bucket i).live e.id = none ∧
        ((∃ old, findById (t.bucket i).replacements e.id = some old ∧
          (t' = t.touch i ∨ e.pinged = true ∧
            ((t.touch i).remove ⟨i, false, old.2, old.1⟩).insert (addNode now depth) i
              (carried now old.1 e) = some (t', ok))) ∨
        findById (t.bucket i).replacements e.id = none ∧
          ((t' = t.touch i ∧ e.endpoint.ip.isPublic = true ∧
            ((t.ipCount.lookup e.endpoint.ip).isSome = true ∨
              ∃ n ∈ (t.bucket i).contacts, n.endpoint.ip.tooClose e.endpoint.ip = true)) ∨
          (∃ found, (t.touch i).findByEndpoint e.endpoint = some found ∧
            e.endpoint.ip.isPublic = true ∧ t' = (t.touch i).evict found) ∨
          (e.endpoint.ip.isPublic = true → (t.ipCount.lookup e.endpoint.ip).isSome = false ∧
            ∀ n ∈ (t.bucket i).contacts, n.endpoint.ip.tooClose e.endpoint.ip = false) ∧
            (t.touch i).insert (addNode now depth) i e = some (t', ok)))) := by
  rw [addNode] at h
  by_cases hself : e.id = t.self
  · rw [if_pos hself] at h
    exact .inl ⟨hself, by cases h; rfl⟩
  rw [if_neg hself] at h
  refine .inr ⟨hself, ?_⟩
  have hbucket : (t.touch i).bucket i = t.bucket i := rfl
  simp only [hi] at h
  split at h
  · next old hold => exact .inl ⟨old, hold, by cases h; rfl⟩
  next hlive =>
  refine .inr ⟨hlive, ?_⟩
  split at h
  · next old hold =>
    split_ifs at h with hpinged
    · exact .inl ⟨old, hold, .inr ⟨hpinged, h⟩⟩
    · exact .inl ⟨old, hold, .inl (by cases h; rfl)⟩
  · next hstandby =>
    refine .inr ⟨hstandby, ?_⟩
    obtain ⟨hd, hclosed⟩ | ⟨found, hfound, hpublic, -, hd⟩ | ⟨hd, hgate⟩ :=
      passesIpDiversity_cases (t.touch i) i e
    all_goals rw [hd] at h
    · exact .inl ⟨by cases h; rfl, hclosed⟩
    · exact .inr (.inl ⟨found, hfound, hpublic, by cases h; rfl⟩)
    · exact .inr (.inr ⟨hgate, h⟩)

theorem length_fillFromReplacements (t : RoutingTable) (i : ℕ) :
    (t.fillFromReplacements i).buckets.length = t.buckets.length := by
  simp [fillFromReplacements, setBucket, touch]

theorem length_stashReplacement (t : RoutingTable) (i : ℕ) (e : NodeEntry) :
    (t.stashReplacement i e).buckets.length = t.buckets.length := by
  unfold stashReplacement
  simp only
  repeat' split
  all_goals simp [assignReplacement, ipTrack_eq, ipUntrack_eq, setBucket]

section

variable {id : NodeId} (h : findById (t.bucket i).replacements id = some x)

include h

theorem getElem?_of_findById : t.buckets[i]? = some (t.bucket i) := by
  cases hb : t.buckets[i]? with
  | some b => rw [bucket_eq hb]
  | none =>
    rw [bucket, hb] at h
    cases h

theorem loses_standby : Loses t ((t.touch i).remove ⟨i, false, x.2, x.1⟩) := by
  have hb : (t.touch i).buckets[i]? = some (t.bucket i) := getElem?_of_findById h
  exact (loses_touch t i).trans (.remove ⟨i, false, x.2, x.1⟩ hb (findById_getElem? h))

end

theorem length_remove (t : RoutingTable) (at_ : Located) :
    (t.remove at_).buckets.length = t.buckets.length := by
  simp [remove, setBucket, ipUntrack_eq]

theorem length_refresh (t : RoutingTable) (now : TimePoint) (i : ℕ) (x : NodeEntry × ℕ)
    (e : NodeEntry) : (t.refresh now i x e).buckets.length = t.buckets.length := by
  unfold refresh
  split_ifs
  all_goals simp [setBucket, ipTrack_eq, ipUntrack_eq]

theorem length_insert (hagain : ∀ t₁ t₂ ok, Loses t t₁ → again t₁ e = some (t₂, ok) →
      t₁.buckets.length ≤ t₂.buckets.length) (h : t.insert again i e = some (t', ok)) :
    t.buckets.length ≤ t'.buckets.length := by
  obtain ⟨-, rfl⟩ | ⟨t₁, hsplit, heq, rfl⟩ | ⟨last, victim, -, rfl⟩ | rfl | rfl := insert_cases h
  · simp [ipTrack_eq, setBucket]
  · have hle := hagain _ _ _ ((loses_splitReads t i).trans (loses_splitBucket hsplit)) heq
    rw [length_splitBucket hsplit, splitReads_buckets] at hle
    rw [length_fillFromReplacements, length_fillFromReplacements]
    omega
  · simp [assignLive, ipTrack_eq, ipUntrack_eq, setBucket]
  · rw [length_stashReplacement, splitReads_buckets]
  · rw [length_stashReplacement]

/-- When nobody else is at the endpoint, nobody is evicted and no bucket goes. -/
theorem addNode_length
    (hfree : e.endpoint.ip.isPublic = true → ∀ n ∈ t.contacts, n.endpoint ≠ e.endpoint)
    (h : addNode now depth t e = some (t', ok)) : t.buckets.length ≤ t'.buckets.length := by
  induction depth generalizing t e t' ok with
  | zero => cases h
  | succ depth ih =>
    have hagain {t₀ : RoutingTable} {e₀ : NodeEntry} (hloses : Loses t t₀)
        (he : e₀.endpoint = e.endpoint) (t₁ t₂ : RoutingTable) (ok : Bool) (h₁ : Loses t₀ t₁)
        (heq : addNode now depth t₁ e₀ = some (t₂, ok)) :
        t₁.buckets.length ≤ t₂.buckets.length := by
      refine ih (fun hip n hn => ?_) heq
      rw [he] at hip ⊢
      exact hfree hip n ((hloses.trans h₁).contacts n hn)
    obtain ⟨-, rfl⟩ | ⟨-, ⟨old, -, rfl⟩ | ⟨-, ⟨old, hold, rfl | ⟨-, heq⟩⟩ |
      ⟨-, ⟨rfl, -⟩ | ⟨found, hfound, hip, -⟩ | ⟨-, heq⟩⟩⟩⟩ := addNode_cases rfl h
    · exact le_rfl
    · rw [length_refresh]
      exact le_rfl
    · exact le_rfl
    · have hle := length_insert (hagain (loses_standby hold) (carried_endpoint ..)) heq
      rwa [length_remove] at hle
    · exact le_rfl
    · obtain ⟨hmem, hep⟩ := findByEndpoint_mem hfound
      exact absurd hep (hfree hip found.entry hmem)
    · have hle := length_insert (hagain (loses_touch t _) rfl) heq
      exact hle

theorem isSome_insert (hagain : t.buckets.length < kBucketCount - 1 →
      ∀ t₁, t₁.buckets.length = t.buckets.length + 1 → (again t₁ e).isSome) :
    (t.insert again i e).isSome := by
  unfold RoutingTable.insert
  simp only
  split_ifs with hroom hconfirmed hsplit
  · rfl
  · obtain ⟨init, b, hb, -, hcount⟩ := canSplit_spec hsplit
    have hlength := length_splitBucket hsplit
    rw [splitReads_buckets] at hb hlength
    rw [Option.isSome_map]
    refine hagain ?_ _ hlength
    rw [hb]
    simp only [length_append, length_singleton]
    omega
  · split <;> rfl
  · rfl

/-- The recursion ends: there are at most `kBucketCount - 1` buckets to split into. -/
theorem isSome_addNode (hpos : 0 < depth) (hdepth : kBucketCount ≤ depth + t.buckets.length) :
    (addNode now depth t e).isSome := by
  induction depth generalizing t e with
  | zero => cases hpos
  | succ depth ih =>
    have hinsert (t₀ : RoutingTable) (e₀ : NodeEntry) (i : ℕ)
        (hlength : t₀.buckets.length = t.buckets.length) :
        (t₀.insert (addNode now depth) i e₀).isSome := by
      refine isSome_insert fun hlt t₁ ht₁ => ?_
      rw [kBucketCount] at hdepth hlt
      exact ih (by omega) (by rw [kBucketCount]; omega)
    rw [addNode]
    by_cases hself : e.id = t.self
    · rw [if_pos hself]
      rfl
    rw [if_neg hself]
    simp only
    split
    · rfl
    split
    · split_ifs
      · exact hinsert _ _ _ (length_remove _ _)
      · rfl
    obtain ⟨hd, -⟩ | ⟨_, _, _, _, hd⟩ | ⟨hd, -⟩ :=
      passesIpDiversity_cases (t.touch (t.bucketIndex e.id)) (t.bucketIndex e.id) e
    all_goals rw [hd]
    · rfl
    · rfl
    · exact hinsert _ _ _ rfl

section

variable (h : Sound strict careful Known t) (hb : t.buckets[i]? = some b) (live : Bool)
  {n : NodeEntry}

include h hb

theorem Sound.enters_again (hold : (b.list live)[j]? = some old) (hid : n.id = old.id)
    (hknown : n.pinged = true → Known n.id n.endpoint)
    (hfits : strict → n.endpoint.ip = old.endpoint.ip ∨ Fits t n) {t₁ : RoutingTable}
    (hloses : Loses t t₁) (hperm : t.contacts.Perm (old :: t₁.contacts))
    (hb₁ : t₁.buckets[i]? = some (b.without live j)) (hindex : t₁.bucketIndex n.id = i) :
    Enters strict Known t₁ n := by
  have hbucket : b.contacts.Perm (old :: (b.without live j).contacts) :=
    (without_perm (x := (old, j)) hold).symm.trans (perm_append_singleton _ _)
  have hmem : old ∈ b.contacts := hbucket.symm.subset (.head _)
  have hplace : t.bucketIndex n.id = i := hid ▸ h.placed i b hb old hmem
  have hnodup := (hperm.map (·.id)).nodup_iff.mp h.nodup
  rw [map_cons, nodup_cons] at hnodup
  have hfresh (m : NodeEntry) (hm : m ∈ t₁.contacts) : m.id ≠ n.id := fun heq =>
    hnodup.1 (hid ▸ heq ▸ mem_map_of_mem hm)
  refine ⟨?_, hfresh, hknown, fun hs hip => ?_⟩
  · rw [hloses.self, hid]
    exact h.self old (mem_contacts_of_bucket hb hmem)
  rw [hindex, bucket_eq hb₁]
  obtain hsame | hfits := hfits hs
  · have hdiverse := h.diverse hs
    have haddress := hdiverse.address
    rw [publicIps_perm hperm, publicIps_cons] at haddress
    have hnetwork := (hbucket.pairwise_iff fun h => h.symm).mp
      (hdiverse.network b (mem_of_getElem? hb))
    rw [hsame] at hip ⊢
    refine ⟨fun m hm _ heq => ?_, fun m hm _ hpublic => ?_⟩
    · refine Multiset.disjoint_left.mp (Multiset.nodup_add.mp haddress).2.2 ?_
        (mem_publicIps.mpr ⟨hip, m, hm, heq⟩)
      exact mem_publicIps.mpr ⟨hip, old, (.head _), rfl⟩
    · rw [IpAddress.tooClose_comm]
      exact (pairwise_cons.mp hnetwork).1 m hm hip hpublic
  · obtain ⟨haddress, hnetwork⟩ := hfits hip
    rw [hplace, bucket_eq hb] at hnetwork
    exact ⟨fun m hm => haddress m (hloses.contacts m hm), fun m hm =>
      hnetwork m (hbucket.symm.subset (.tail _ hm))⟩

theorem Sound.renew (hold : (b.list live)[j]? = some old) (hid : n.id = old.id)
    (hknown : n.pinged = true → Known n.id n.endpoint)
    (hfits : strict → n.endpoint.ip = old.endpoint.ip ∨ Fits t n) (idx : Index IpAddress)
    (hidx : ∀ m, Counts (publicIps [old] + m) t.ipCount → Counts (publicIps [n] + m) idx) :
    Admits strict careful Known n t (t.edited i (b.replaced live j n) idx) := by
  have hmem : old ∈ b.contacts := (without_perm (x := (old, j)) hold).subset
    (mem_append_right _ (.head _))
  exact h.swap (hid ▸ h.placed i b hb old hmem) hb hold (fun t₁ hloses hperm hb₁ hindex =>
    h.enters_again hb live hold hid hknown hfits hloses hperm hb₁ hindex) hidx

end

theorem Sound.refresh (h : Sound strict careful Known t) (now : TimePoint)
    (hmoves : strict → Moves t e → Fits t e) (hknown : e.pinged = true → Known e.id e.endpoint)
    (hi : t.bucketIndex e.id = i) (hx : findById (t.bucket i).live e.id = some x) :
    Admits strict careful Known e t (t.refresh now i x e) := by
  have hb : t.buckets[i]? = some (t.bucket i) := hi ▸ h.getElem?_bucketIndex e.id
  have hold := findById_getElem? hx
  have hid := findById_id hx
  have hmem : x.1 ∈ t.contacts := mem_contacts_of_bucket hb
    (mem_append_left _ (mem_of_getElem? hold))
  unfold RoutingTable.refresh
  by_cases hpinged : e.pinged = true
  · rw [if_pos hpinged]
    let n := ({ x.1 with verified := x.1.verified || e.verified, endpoint := e.endpoint } :
      NodeEntry).recordSuccess now e.rtt
    have hn : n.id = e.id := (NodeEntry.recordSuccess_id ..).trans hid
    have hep : n.endpoint = e.endpoint := NodeEntry.recordSuccess_endpoint ..
    have hknown' : n.pinged = true → Known n.id n.endpoint := fun _ => by
      rw [hn, hep]
      exact hknown hpinged
    by_cases hip : x.1.endpoint.ip = e.endpoint.ip
    · rw [if_neg (not_not.mpr hip)]
      exact (h.renew hb true hold (hn.trans hid.symm) hknown' (fun _ => .inl (by rw [hep, hip]))
        t.ipCount fun m hm => by simpa [publicIps, hep, hip] using hm).after hn (.refl t)
    rw [if_pos hip, ipUntrack_eq, ipTrack_eq]
    have hfits : strict → Fits t n := fun hs => by
      have hfits := hmoves hs ⟨hpinged, x.1, hmem, hid, hip⟩
      rwa [Fits, hn, hep]
    exact (h.renew hb true hold (hn.trans hid.symm) hknown' (fun hs => .inr (hfits hs))
      (tracked (untracked t.ipCount x.1.endpoint.ip) e.endpoint.ip) fun m hm => by
        rw [← hep]
        exact counts_tracked (Dropped.one rfl _ m hm) n).after hn (.refl t)
  · rw [if_neg hpinged]
    let n : NodeEntry := { x.1 with verified := x.1.verified || e.verified }
    exact (h.renew hb true hold (n := n) rfl (h.known x.1 hmem) (fun _ => .inl rfl) t.ipCount
      fun m hm => hm).after hid (.refl t)

theorem Sound.insert (ih : ∀ t t' ok, Sound strict careful Known t → Meets strict careful t e →
      addNode now depth t e = some (t', ok) → Admits strict careful Known e t t')
    (h : Sound strict careful Known t) (he : Enters strict Known t e)
    (hfree : careful → e.endpoint.ip.isPublic = true → ∀ n ∈ t.contacts, n.endpoint ≠ e.endpoint)
    (hi : t.bucketIndex e.id = i) (heq : t.insert (addNode now depth) i e = some (t', ok)) :
    Admits strict careful Known e t t' := by
  have hb : t.buckets[i]? = some (t.bucket i) := hi ▸ h.getElem?_bucketIndex e.id
  have hlt := hi ▸ h.bucketIndex_lt e.id
  have hreads := h.splitReads hlt
  have hcases := insert_cases heq
  obtain ⟨log, hlog⟩ := splitReads_eq t i
  rw [hlog] at hreads hcases
  have he' : Enters strict Known { t with accesses := log } e := ⟨he.self, he.fresh, he.known, he.fits⟩
  have hloses : Loses t { t with accesses := log } := ⟨rfl, rfl, fun _ hn => hn⟩
  obtain ⟨hroom, rfl⟩ | ⟨t₁, hsplit, hagain, rfl⟩ | ⟨last, x, hx, rfl⟩ | rfl | rfl := hcases
  · exact h.push he hi hb hroom
  · have hdeeper := hreads.splitBucket hsplit
    have hlost := hloses.trans (loses_splitBucket hsplit)
    -- the contact is in none of the two halves, so it is a new one for the table that was split
    have hmeets : Meets strict careful ({ t with accesses := log } : RoutingTable).splitBucket e := by
      refine ⟨fun _ ⟨_, old, hold, hid, _⟩ => ?_, fun _ ⟨_, old, hold, hid⟩ => ?_⟩
      · exact absurd hid (he.fresh old (hlost.contacts old hold))
      · have hmem := mem_contacts_of_bucket (hdeeper.getElem?_bucketIndex e.id)
          (mem_append_right _ hold)
        exact absurd hid (he.fresh old (hlost.contacts old hmem))
    have hstep := ih _ _ _ hdeeper hmeets hagain
    have hcount : careful → i + 1 < t₁.buckets.length := fun hc => by
      have hle := addNode_length (fun hip n hn => hfree hc hip n (hlost.contacts n hn)) hagain
      rw [length_splitBucket hsplit] at hle
      exact (Nat.succ_le_succ hlt).trans hle
    have hfirst := hstep.sound.fillFromReplacements (i := i) fun hc => by
      have := hcount hc
      omega
    refine ⟨?_, hfirst.fillFromReplacements fun hc => ?_⟩
    · refine ((hlost.follows e).trans hstep.toFollows).trans (Loses.follows ?_ e)
      exact (loses_fillFromReplacements _ _).trans (loses_fillFromReplacements _ _)
    · rw [length_fillFromReplacements]
      exact hcount hc
  · rw [assignLive_eq (t := { t with accesses := log }) hb]
    exact (hreads.assign he' hi hb true (spreadVictim_getElem? hx)).after rfl hloses
  · exact (hreads.stashReplacement he' hi).after rfl hloses
  · exact h.stashReplacement he hi

theorem Sound.fresh (h : Sound strict careful Known t) (hi : t.bucketIndex e.id = i)
    (hlive : findById (t.bucket i).live e.id = none)
    (hstandby : findById (t.bucket i).replacements e.id = none) : ∀ n ∈ t.contacts, n.id ≠ e.id := by
  intro n hn heq
  have hmem := h.mem_bucket hn
  rw [heq, hi] at hmem
  obtain hmem | hmem := mem_append.mp hmem
  · exact findById_eq_none hlive n hmem heq
  · exact findById_eq_none hstandby n hmem heq

theorem addNode_sound (h : Sound strict careful Known t) (hmeets : Meets strict careful t e)
    (hknown : e.pinged = true → Known e.id e.endpoint)
    (heq : addNode now depth t e = some (t', ok)) : Admits strict careful Known e t t' := by
  induction depth generalizing t e t' ok with
  | zero => cases heq
  | succ depth ih =>
    obtain ⟨i, hi⟩ : ∃ i, t.bucketIndex e.id = i := ⟨_, rfl⟩
    have hlt := hi ▸ h.bucketIndex_lt e.id
    have hb : t.buckets[i]? = some (t.bucket i) := hi ▸ h.getElem?_bucketIndex e.id
    have htouched := h.touch fun _ => hlt
    have hloses := loses_touch t i
    obtain ⟨-, rfl⟩ | ⟨hself, ⟨x, hx, rfl⟩ | ⟨hlive, ⟨x, hx, rfl | ⟨hpinged, heq⟩⟩ |
      ⟨hstandby, ⟨rfl, -⟩ | ⟨found, hfound, -, rfl⟩ | ⟨hgate, heq⟩⟩⟩⟩ := addNode_cases hi heq
    · exact ⟨(Loses.refl _).follows e, h⟩
    · exact (htouched.refresh now hmeets.moves hknown hi hx).after rfl hloses
    · exact ⟨hloses.follows e, htouched⟩
    · -- a standby is promoted
      generalize ht₁ : (t.touch i).remove ⟨i, false, x.2, x.1⟩ = t₁ at heq
      have hold := findById_getElem? hx
      have hid := findById_id hx
      have hid' : (carried now x.1 e).id = e.id := (carried_id ..).trans hid
      have hremoved : Sound strict careful Known t₁ := ht₁ ▸ htouched.remove _ hb hold rfl
      have hlost : Loses t t₁ := ht₁ ▸ loses_standby hx
      have hperm : t.contacts.Perm (x.1 :: t₁.contacts) := ht₁ ▸ remove_perm (t := t.touch i) _ hb hold
      rw [remove_eq (t := t.touch i) ⟨i, _, _, _⟩ hb] at ht₁
      have hindex : t₁.bucketIndex (carried now x.1 e).id = i := by
        rw [hid', ← ht₁, bucketIndex_edited]
        exact hi
      have he := h.enters_again hb false hold (carried_id ..) (fun _ => by
          rw [hid', carried_endpoint]
          exact hknown hpinged) (fun hs => ?_) hlost hperm (ht₁ ▸ getElem?_edited hb) hindex
      · refine (hremoved.insert (fun _ _ _ hs hm => ih hs hm he.known) he
          (fun hc hip n hn heq => ?_) hindex heq).after hid' hlost
        rw [carried_endpoint] at hip heq
        exact hmeets.promotes hc ⟨hpinged, x.1, hi.symm ▸ mem_of_getElem? hold, hid⟩
          ⟨hip, n, hlost.contacts n hn, hid' ▸ he.fresh n hn, heq⟩
      · rw [carried_endpoint]
        by_cases hip : x.1.endpoint.ip = e.endpoint.ip
        · exact .inl hip.symm
        · have hfits := hmeets.moves hs ⟨hpinged, x.1, hperm.symm.subset (.head _), hid, hip⟩
          refine .inr ?_
          rwa [Fits, hid', carried_endpoint]
    · exact ⟨hloses.follows e, htouched⟩
    · obtain ⟨hs, hl⟩ := htouched.evict hfound
      exact ⟨(hloses.trans hl).follows e, hs⟩
    · -- a contact that is not known yet
      have hunheld (hip : e.endpoint.ip.isPublic = true) := h.unheld hip (hgate hip).1
      have he : Enters strict Known (t.touch i) e := by
        refine ⟨hself, h.fresh hi hlive hstandby, hknown, fun _ hip =>
          ⟨fun n hn _ => hunheld hip n hn, ?_⟩⟩
        exact fun n hn _ _ => (hgate hip).2 n (hi ▸ hn)
      exact (htouched.insert (fun _ _ _ hs hm => ih hs hm hknown) he
        (fun _ hip n hn heq => hunheld hip n hn (by rw [heq])) hi heq).after rfl hloses

end

end Librats.Dht
