import Librats.Dht.TableInvariant

/-!
# What the functions on buckets do

For each function of the table below `add_node`: which contacts leave, which move, and that the
invariant is kept.
-/

namespace Librats.Dht

open CountIndex List RoutingTable

/-! ## Contacts that are found -/

theorem preferred_cases (prefers : NodeEntry → NodeEntry → Bool) (best : Option (NodeEntry × ℕ))
    (x : NodeEntry × ℕ) :
    preferred prefers best x = some x ∨ best.isSome ∧ preferred prefers best x = best := by
  cases best with
  | none => exact .inl rfl
  | some b =>
    rw [preferred]
    split_ifs
    · exact .inl rfl
    · exact .inr ⟨rfl, rfl⟩

variable {prefers : NodeEntry → NodeEntry → Bool} {l : List (NodeEntry × ℕ)}
  {best : Option (NodeEntry × ℕ)}

theorem foldl_preferred_mem {x : NodeEntry × ℕ}
    (h : l.foldl (preferred prefers) best = some x) : x ∈ l ∨ best = some x := by
  induction l generalizing best with
  | nil => exact .inr h
  | cons y l ih =>
    obtain hx | hx := ih h
    · exact .inl (.tail _ hx)
    · obtain hy | ⟨-, hy⟩ := preferred_cases prefers best y
      · exact .inl (Option.mem_unique hy hx ▸ (.head _))
      · exact .inr (hy.symm.trans hx)

theorem pick_mem {x : NodeEntry × ℕ} (h : pick prefers l = some x) : x ∈ l :=
  (foldl_preferred_mem h).resolve_right (by simp)

theorem foldl_preferred_isSome (prefers : NodeEntry → NodeEntry → Bool) (l : List (NodeEntry × ℕ))
    (h : best.isSome) :
    (l.foldl (preferred prefers) best).isSome := by
  induction l generalizing best with
  | nil => exact h
  | cons y l ih =>
    refine ih ?_
    obtain hy | ⟨-, hy⟩ := preferred_cases prefers best y
    · rw [hy]
      rfl
    · rwa [hy]

theorem pick_isSome (h : l ≠ []) : (pick prefers l).isSome := by
  obtain _ | ⟨y, l⟩ := l
  · exact absurd rfl h
  · exact foldl_preferred_isSome prefers l rfl

section

variable {v : List NodeEntry} {x : NodeEntry × ℕ} {id : NodeId}

theorem findById_getElem? (h : findById v id = some x) : v[x.2]? = some x.1 :=
  mem_zipIdx_iff_getElem?.mp (mem_of_find?_eq_some h)

theorem findById_id (h : findById v id = some x) : x.1.id = id := by
  simpa using find?_some h

theorem findById_eq_none (h : findById v id = none) : ∀ n ∈ v, n.id ≠ id := by
  intro n hn
  obtain ⟨j, hj⟩ := mem_iff_getElem?.mp hn
  have := find?_eq_none.mp h (n, j) (mem_zipIdx_iff_getElem?.mpr hj)
  simpa using this

theorem worstOf_getElem? (h : worstOf v = some x) : v[x.2]? = some x.1 :=
  mem_zipIdx_iff_getElem?.mp (pick_mem h)

theorem bestOf_getElem? (h : bestOf v = some x) : v[x.2]? = some x.1 :=
  mem_zipIdx_iff_getElem?.mp (pick_mem h)

theorem worstOf_isSome (h : v ≠ []) : (worstOf v).isSome := pick_isSome (by simpa using h)

theorem spreadVictim_getElem? {index limit : ℕ} {last : Bool} {e : NodeEntry}
    (h : spreadVictim index last limit v e = some x) : v[x.2]? = some x.1 := by
  refine mem_zipIdx_iff_getElem?.mp ?_
  unfold spreadVictim at h
  simp only at h
  split at h
  · next stale hstale => exact Option.some.inj h ▸ (mem_filter.mp (pick_mem hstale)).1
  split at h
  · next worst hworst =>
    split_ifs at h
    exact Option.some.inj h ▸ (mem_filter.mp (pick_mem hworst)).1
  · obtain ⟨s, -, hs⟩ := mem_flatMap.mp (pick_mem h)
    split_ifs at hs
    · exact (mem_filter.mp hs).1
    · cases hs

theorem perm_eraseIdx (h : v[x.2]? = some x.1) : v.Perm (x.1 :: v.eraseIdx x.2) := by
  obtain ⟨hlt, heq⟩ := List.getElem?_eq_some_iff.mp h
  rw [← heq]
  exact (getElem_cons_eraseIdx_perm hlt).symm

theorem set_perm (h : v[x.2]? = some x.1) (e : NodeEntry) : (v.set x.2 e).Perm (e :: v.eraseIdx x.2) :=
  List.set_perm_cons_eraseIdx (List.getElem?_eq_some_iff.mp h).1 e

theorem length_eraseIdx_add_one (h : v[x.2]? = some x.1) :
    (v.eraseIdx x.2).length + 1 = v.length := by
  simpa using (perm_eraseIdx h).length_eq.symm

end

/-! ## Moving within a bucket -/

namespace Bucket

variable {limit : ℕ} (n : ℕ) (b : Bucket)

theorem fill_contacts : (b.fill limit n).contacts.Perm b.contacts := by
  induction n generalizing b with
  | zero => exact .refl _
  | succ n ih =>
    rw [fill]
    split_ifs
    · split
      · next best i hbest =>
        refine (ih _).trans ?_
        rw [contacts, append_assoc]
        exact (perm_eraseIdx (bestOf_getElem? hbest)).symm.append_left _
      · exact .refl _
    · exact .refl _

theorem fill_live (h : b.live.length ≤ limit) : (b.fill limit n).live.length ≤ limit := by
  induction n generalizing b with
  | zero => exact h
  | succ n ih =>
    rw [fill]
    split_ifs with hlt
    · split
      · exact ih _ (by simpa using hlt)
      · exact h
    · exact h

theorem fill_replacements : (b.fill limit n).replacements.length ≤ b.replacements.length := by
  induction n generalizing b with
  | zero => exact le_rfl
  | succ n ih =>
    rw [fill]
    split_ifs
    · split
      · next best i hbest =>
        refine (ih _).trans ?_
        have := length_eraseIdx_add_one (bestOf_getElem? hbest)
        simp only at this ⊢
        omega
      · exact le_rfl
    · exact le_rfl

theorem spill_contacts (limit n : ℕ) (b : Bucket) : (b.spill limit n).contacts.Perm b.contacts := by
  induction n generalizing b with
  | zero => exact .refl _
  | succ n ih =>
    rw [spill]
    split_ifs
    · split
      · next worst i hworst =>
        refine (ih _).trans ?_
        have hlive := perm_eraseIdx (worstOf_getElem? hworst)
        simp only [contacts]
        refine .trans ?_ (hlive.symm.append_right _)
        rw [← append_assoc]
        exact perm_append_singleton _ _
      · exact .refl _
    · exact .refl _

theorem spill_live (h : b.live.length ≤ limit + n) : (b.spill limit n).live.length ≤ limit := by
  induction n generalizing b with
  | zero => exact h
  | succ n ih =>
    rw [spill]
    split_ifs with hlt
    · split
      · next worst i hworst =>
        refine ih _ ?_
        have := length_eraseIdx_add_one (worstOf_getElem? hworst)
        simp only at this ⊢
        omega
      · next hnone =>
        have hsome := worstOf_isSome (v := b.live) fun hnil => by simp [hnil] at hlt
        rw [hnone] at hsome
        cases hsome
    · exact not_lt.mp hlt

end Bucket

/-! ## Buckets of the table -/

section

variable {strict careful : Prop} {Known : NodeId → Address → Prop} {t : RoutingTable} {i idx : ℕ}
  {b : Bucket}

theorem bucket_eq (hb : t.buckets[i]? = some b) : t.bucket i = b := by
  rw [bucket, hb]
  rfl

variable (h : Sound strict careful Known t) {n : NodeEntry}

include h

theorem Sound.bucketIndex_lt (id : NodeId) : t.bucketIndex id < t.buckets.length := by
  have := h.nonempty
  rw [bucketIndex]
  omega

theorem Sound.getElem?_bucketIndex (id : NodeId) :
    t.buckets[t.bucketIndex id]? = some (t.bucket (t.bucketIndex id)) := by
  rw [bucket, getElem?_eq_getElem (h.bucketIndex_lt id)]
  rfl

theorem Sound.mem_bucket (hn : n ∈ t.contacts) : n ∈ (t.bucket (t.bucketIndex n.id)).contacts := by
  obtain ⟨i, b, hb, hmem⟩ := mem_contacts.mp hn
  rwa [h.placed i b hb n hmem, bucket_eq hb]

omit h in
theorem mem_contacts_of_bucket (hb : t.buckets[i]? = some b) (hn : n ∈ b.contacts) :
    n ∈ t.contacts := mem_contacts.mpr ⟨i, b, hb, hn⟩

theorem Sound.fillFromReplacements (hi : careful → i < t.buckets.length) :
    Sound strict careful Known (t.fillFromReplacements i) := by
  have ht := h.touch hi
  unfold RoutingTable.fillFromReplacements
  by_cases hlt : i < t.buckets.length
  · have hb : (t.touch i).buckets[i]? = some (t.buckets[i]) := getElem?_eq_getElem hlt
    simp only [bucket_eq hb]
    refine ht.shrink hb ?_ (Dropped.nil t.ipCount) ?_ ?_
    · rw [append_nil]
      exact Bucket.fill_contacts _ _
    · exact Bucket.fill_live _ _ (ht.live i _ hb)
    · exact (Bucket.fill_replacements _ _).trans (ht.standbys i _ hb)
  · simp only [setBucket]
    rw [set_eq_of_length_le (by simpa [RoutingTable.touch] using not_lt.mp hlt)]
    exact ht

omit h

/-! ## Contacts that leave -/

/-- The list in which a contact stands. -/
def Bucket.list (b : Bucket) (live : Bool) : List NodeEntry := if live then b.live else b.replacements

/-- The bucket without the contact at a place. -/
def Bucket.without (b : Bucket) (live : Bool) (j : ℕ) : Bucket :=
  if live then { b with live := b.live.eraseIdx j }
  else { b with replacements := b.replacements.eraseIdx j }

variable (at_ : Located)

theorem remove_eq (hb : t.buckets[at_.bucket]? = some b) :
    t.remove at_ = t.edited at_.bucket (b.without at_.live at_.index)
      (untracked t.ipCount at_.entry.endpoint.ip) := by
  rw [remove, bucket_eq hb, ipUntrack_eq]
  rfl

theorem without_perm {live : Bool} {x : NodeEntry × ℕ} (h : (b.list live)[x.2]? = some x.1) :
    ((b.without live x.2).contacts ++ [x.1]).Perm b.contacts := by
  refine (perm_append_singleton _ _).trans ?_
  cases live with
  | true => exact ((perm_eraseIdx h).symm.append_right _)
  | false => exact perm_middle.symm.trans ((perm_eraseIdx h).symm.append_left _)

theorem without_length {live : Bool} {x : NodeEntry × ℕ} (h : (b.list live)[x.2]? = some x.1) :
    (b.without live x.2).live.length ≤ b.live.length ∧
      (b.without live x.2).replacements.length ≤ b.replacements.length := by
  have := length_eraseIdx_add_one h
  cases live with
  | true => exact ⟨by simp only [Bucket.without, Bucket.list, if_true] at *; omega, le_rfl⟩
  | false => exact ⟨le_rfl, by simp [Bucket.without, Bucket.list] at *; omega⟩

variable {old : NodeEntry} {ep : Address} {found : Located}

theorem Sound.remove (h : Sound strict careful Known t) (at_ : Located)
    (hb : t.buckets[at_.bucket]? = some b) (hold : (b.list at_.live)[at_.index]? = some old)
    (hip : old.endpoint.ip = at_.entry.endpoint.ip) :
    Sound strict careful Known (t.remove at_) := by
  rw [remove_eq at_ hb]
  have hlength := without_length (x := (old, at_.index)) hold
  exact h.shrink hb (without_perm (x := (old, at_.index)) hold) (.one hip _)
    (hlength.1.trans (h.live _ b hb)) (hlength.2.trans (h.standbys _ b hb))

theorem remove_perm (hb : t.buckets[at_.bucket]? = some b)
    (hold : (b.list at_.live)[at_.index]? = some old) :
    t.contacts.Perm (old :: (t.remove at_).contacts) := by
  rw [remove_eq at_ hb]
  exact edited_perm hb (without_perm (x := (old, at_.index)) hold)

theorem findByEndpoint_spec (h : t.findByEndpoint ep = some found) :
    ∃ b, t.buckets[found.bucket]? = some b ∧ (b.list found.live)[found.index]? = some found.entry ∧
      found.entry.endpoint = ep := by
  obtain ⟨⟨b, i⟩, hmem, hfound⟩ := exists_of_findSome?_eq_some h
  have hb := mem_zipIdx_iff_getElem?.mp hmem
  simp only at hfound
  split at hfound
  · next n j hj =>
    cases hfound
    exact ⟨b, hb, mem_zipIdx_iff_getElem?.mp (mem_of_find?_eq_some hj),
      by simpa using find?_some hj⟩
  · obtain ⟨⟨n, j⟩, hj, rfl⟩ := Option.map_eq_some_iff.mp hfound
    exact ⟨b, hb, mem_zipIdx_iff_getElem?.mp (mem_of_find?_eq_some hj),
      by simpa using find?_some hj⟩

/-- Contacts may leave the table, and none enters. -/
structure Loses (t t' : RoutingTable) : Prop where
  self : t'.self = t.self
  extended : t'.extended = t.extended
  contacts : ∀ n ∈ t'.contacts, n ∈ t.contacts

theorem Loses.refl (t : RoutingTable) : Loses t t := ⟨rfl, rfl, fun _ hn => hn⟩

theorem Loses.trans {t t' t'' : RoutingTable} (h : Loses t t') (h' : Loses t' t'') : Loses t t'' :=
  ⟨h'.self.trans h.self, h'.extended.trans h.extended, fun n hn => h.contacts n (h'.contacts n hn)⟩

theorem loses_touch (t : RoutingTable) (i : ℕ) : Loses t (t.touch i) := ⟨rfl, rfl, fun _ hn => hn⟩

theorem Loses.of_edited {b' : Bucket} (idx' : Index IpAddress) (hb : t.buckets[i]? = some b)
    (removed : List NodeEntry) (hperm : (b'.contacts ++ removed).Perm b.contacts) :
    Loses t (t.edited i b' idx') :=
  ⟨rfl, rfl, fun _ hn => (edited_perm hb hperm).symm.subset (mem_append_right _ hn)⟩

theorem Loses.remove (hb : t.buckets[at_.bucket]? = some b)
    (hold : (b.list at_.live)[at_.index]? = some old) : Loses t (t.remove at_) := by
  rw [remove_eq at_ hb]
  exact .of_edited _ hb _ (without_perm (x := (old, at_.index)) hold)

theorem loses_fillFromReplacements (t : RoutingTable) (i : ℕ) : Loses t (t.fillFromReplacements i) := by
  unfold fillFromReplacements
  refine (loses_touch t i).trans ?_
  by_cases hlt : i < t.buckets.length
  · have hb : (t.touch i).buckets[i]? = some (t.buckets[i]) := getElem?_eq_getElem hlt
    simp only [bucket_eq hb]
    refine Loses.of_edited t.ipCount hb [] ?_
    rw [append_nil]
    exact Bucket.fill_contacts _ _
  · simp only [setBucket]
    rw [set_eq_of_length_le (by simpa [touch] using not_lt.mp hlt)]
    exact .refl _

theorem loses_pruneEmptyBack (hne : 0 < t.buckets.length) : Loses t t.pruneEmptyBack := by
  obtain ⟨gone, hgone, -, -⟩ := prune_spec t hne
  refine ⟨rfl, rfl, fun n hn => ?_⟩
  rw [contacts, hgone, flatMap_append]
  exact mem_append_left _ hn

theorem findByEndpoint_mem (h : t.findByEndpoint ep = some found) :
    found.entry ∈ t.contacts ∧ found.entry.endpoint = ep := by
  obtain ⟨b, hb, hentry, hep⟩ := findByEndpoint_spec h
  refine ⟨mem_contacts_of_bucket hb ?_, hep⟩
  exact (without_perm (x := (found.entry, found.index)) hentry).subset
    (mem_append_right _ (.head _))

theorem Sound.evict (h : Sound strict careful Known t) (hfound : t.findByEndpoint ep = some found) :
    Sound strict careful Known (t.evict found) ∧ Loses t (t.evict found) := by
  obtain ⟨b, hb, hentry, -⟩ := findByEndpoint_spec hfound
  have hlt := (List.getElem?_eq_some_iff.mp hb).1
  have hremoved := (h.touch fun _ => hlt).remove found hb hentry rfl
  have hloses : Loses t ((t.touch found.bucket).remove found) :=
    (loses_touch t _).trans (.remove found hb hentry)
  have hlength : ((t.touch found.bucket).remove found).buckets.length = t.buckets.length := by
    rw [remove_eq (t := t.touch found.bucket) found hb, edited, length_set]
    rfl
  unfold RoutingTable.evict
  split_ifs
  · have hfilled := hremoved.fillFromReplacements fun _ => hlength ▸ hlt
    exact ⟨hfilled.prune, hloses.trans ((loses_fillFromReplacements _ _).trans
      (loses_pruneEmptyBack hfilled.nonempty))⟩
  · exact ⟨hremoved.prune, hloses.trans (loses_pruneEmptyBack hremoved.nonempty)⟩

theorem passesIpDiversity_cases (t : RoutingTable) (i : ℕ) (e : NodeEntry) :
    (t.passesIpDiversity i e = (t, false) ∧ e.endpoint.ip.isPublic = true ∧
      ((t.ipCount.lookup e.endpoint.ip).isSome = true ∨
        ∃ n ∈ (t.bucket i).contacts, n.endpoint.ip.tooClose e.endpoint.ip = true)) ∨
    (∃ found, t.findByEndpoint e.endpoint = some found ∧ e.endpoint.ip.isPublic = true ∧
      e.pinged = true ∧ t.passesIpDiversity i e = (t.evict found, false)) ∨
    t.passesIpDiversity i e = (t, true) ∧ (e.endpoint.ip.isPublic = true →
      (t.ipCount.lookup e.endpoint.ip).isSome = false ∧
        ∀ n ∈ (t.bucket i).contacts, n.endpoint.ip.tooClose e.endpoint.ip = false) := by
  cases hpublic : e.endpoint.ip.isPublic with
  | false => exact .inr (.inr ⟨by simp [passesIpDiversity, hpublic], nofun⟩)
  | true =>
    simp only [passesIpDiversity, hpublic, Bool.not_true, Bool.false_eq_true, if_false]
    split_ifs with hheld hpinged
    · split <;> exact .inl ⟨rfl, trivial, .inl hheld⟩
    · split
      · exact .inl ⟨rfl, trivial, .inl hheld⟩
      · next found hfound => exact .inr (.inl ⟨found, hfound, trivial, by simpa using hpinged, rfl⟩)
    · rw [← Bool.not_or, ← any_append, ← Bucket.contacts]
      cases hclose : (t.bucket i).contacts.any fun n => n.endpoint.ip.tooClose e.endpoint.ip with
      | true => exact .inl ⟨rfl, trivial, .inr (any_eq_true.mp hclose)⟩
      | false =>
        exact .inr (.inr ⟨rfl, fun _ => ⟨by simpa using hheld, by simpa using hclose⟩⟩)

theorem Sound.unheld (h : Sound strict careful Known t) {ip : IpAddress} (hip : ip.isPublic = true)
    (hnone : (t.ipCount.lookup ip).isSome = false) : ∀ n ∈ t.contacts, n.endpoint.ip ≠ ip := by
  intro n hn heq
  have hmem := h.index.lookup_isSome.mpr (mem_publicIps.mpr ⟨hip, n, hn, heq⟩)
  cases hnone.symm.trans hmem

/-! ## The split -/

/-- The second loop of `trim_to_limit`. -/
theorem dropOverflow_spec (n : ℕ) (hb : t.buckets[i]? = some b) :
    ∃ r removed idx', t.dropOverflow i n = t.edited i { b with replacements := r } idx' ∧
      (r ++ removed).Perm b.replacements ∧ Dropped removed t.ipCount idx' ∧
      (b.replacements.length ≤ kBucketSize + n → r.length ≤ kBucketSize) := by
  induction n generalizing t b with
  | zero => exact ⟨b.replacements, [], t.ipCount, (edited_self hb).symm, by simp, .nil _, id⟩
  | succ n ih =>
    rw [dropOverflow]
    simp only [bucket_eq hb]
    split_ifs with hlt
    · have hsome := worstOf_isSome (v := b.replacements) fun hnil => by simp [hnil] at hlt
      obtain ⟨⟨worst, j⟩, hworst⟩ := Option.isSome_iff_exists.mp hsome
      have hj := worstOf_getElem? hworst
      simp only [hworst]
      obtain ⟨r, removed, idx', heq, hperm, hdropped, hlength⟩ :=
        ih (t := t.edited i { b with replacements := b.replacements.eraseIdx j }
          (untracked t.ipCount worst.endpoint.ip)) (getElem?_edited hb)
      refine ⟨r, worst :: removed, idx', ?_, ?_, ?_, fun hle => hlength ?_⟩
      · rw [edited_edited] at heq
        rwa [ipUntrack_eq]
      · refine perm_middle.trans ((hperm.cons worst).trans ?_)
        exact (perm_eraseIdx hj).symm
      · exact (Dropped.one rfl _).append hdropped
      · have := length_eraseIdx_add_one hj
        simp only at this ⊢
        omega
    · exact ⟨b.replacements, [], t.ipCount, (edited_self hb).symm, by simp, .nil _,
        fun _ => not_lt.mp hlt⟩

theorem trimToLimit_spec (hb : t.buckets[i]? = some b) :
    ∃ b' removed idx', t.trimToLimit i = (t.touch i).edited i b' idx' ∧
      (b'.contacts ++ removed).Perm b.contacts ∧ Dropped removed t.ipCount idx' ∧
      b'.live.length ≤ t.bucketLimit i ∧ b'.replacements.length ≤ kBucketSize := by
  have ht : (t.touch i).buckets[i]? = some b := hb
  unfold trimToLimit
  simp only [bucket_eq ht]
  let spilled := b.spill (t.bucketLimit i) b.live.length
  obtain ⟨r, removed, idx', heq, hperm, hdropped, hlength⟩ :=
    dropOverflow_spec spilled.replacements.length (getElem?_edited ht)
  rw [edited_edited] at heq
  refine ⟨{ spilled with replacements := r }, removed, idx', heq, ?_, hdropped, ?_,
    hlength (Nat.le_add_left _ _)⟩
  · refine .trans ?_ (Bucket.spill_contacts (t.bucketLimit i) b.live.length b)
    rw [Bucket.contacts, append_assoc]
    exact hperm.append_left _
  · exact Bucket.spill_live _ b (Nat.le_add_left _ _)

theorem splitBucket_spec {init : List Bucket} (hb : t.buckets = init ++ [b]) :
    ∃ b₁ b₂ removed idx' new, t.splitBucket =
        { t with buckets := init ++ [b₁, b₂], ipCount := idx', accesses := t.accesses ++ new } ∧
      (b₁.contacts ++ b₂.contacts ++ removed).Perm b.contacts ∧ Dropped removed t.ipCount idx' ∧
      (∀ n ∈ b₁.contacts, sharedPrefixBits t.self n.id ≤ init.length) ∧
      (∀ n ∈ b₂.contacts, init.length < sharedPrefixBits t.self n.id) ∧
      b₁.live.length ≤ t.bucketLimit init.length ∧
      b₂.live.length ≤ t.bucketLimit (init.length + 1) ∧ b₁.replacements.length ≤ kBucketSize ∧
      b₂.replacements.length ≤ kBucketSize ∧ ∀ a ∈ new, a.index < a.count := by
  let stays (n : NodeEntry) : Bool := sharedPrefixBits t.self n.id ≤ init.length
  let here : Bucket := ⟨b.live.filter stays, b.replacements.filter stays⟩
  let deeper : Bucket := ⟨b.live.filter fun n => !stays n, b.replacements.filter fun n => !stays n⟩
  have hhere : here.contacts = b.contacts.filter stays := (filter_append ..).symm
  have hdeeper : deeper.contacts = b.contacts.filter fun n => !stays n :=
    (filter_append ..).symm
  -- the table before the two buckets are trimmed
  let t₀ : RoutingTable := (({ t with buckets := init ++ [here, deeper] } : RoutingTable).touch
    init.length).touch (init.length + 1)
  obtain ⟨b₁, removed₁, idx₁, heq₁, hperm₁, hdropped₁, hlive₁, hstandbys₁⟩ :=
    trimToLimit_spec (t := t₀) (i := init.length) (b := here) (by simp [t₀, touch])
  obtain ⟨b₂, removed₂, idx₂, heq₂, hperm₂, hdropped₂, hlive₂, hstandbys₂⟩ :=
    trimToLimit_spec (t := (t₀.touch init.length).edited init.length b₁ idx₁) (i := init.length + 1)
      (b := deeper) (by simp [t₀, touch, edited])
  have hsplit : t.splitBucket = (t₀.trimToLimit init.length).trimToLimit (init.length + 1) := by
    have hlast : t.buckets.length - 1 = init.length := by simp [hb]
    have hbucket : t.bucket init.length = b := bucket_eq (by simp [hb])
    unfold splitBucket
    simp only [hlast, hbucket]
    simp [t₀, hb, here, deeper, stays]
  let new : List Access := [⟨init.length, init.length + 2⟩, ⟨init.length + 1, init.length + 2⟩,
    ⟨init.length, init.length + 2⟩, ⟨init.length + 1, init.length + 2⟩]
  refine ⟨b₁, b₂, removed₁ ++ removed₂, idx₂, new, ?_, ?_, hdropped₁.append hdropped₂,
    fun n hn => ?_, fun n hn => ?_, hlive₁, hlive₂, hstandbys₁, hstandbys₂, by simp [new]⟩
  · rw [hsplit, heq₁, heq₂]
    simp [t₀, new, touch, edited]
  · refine .trans ?_ ((hperm₁.append hperm₂).trans ?_)
    · simp only [append_assoc]
      refine List.Perm.append_left _ ?_
      simp only [← append_assoc]
      exact perm_append_comm.append_right _
    · rw [hhere, hdeeper]
      exact filter_append_perm _ _
  · have hmem := hperm₁.subset (mem_append_left _ hn)
    rw [hhere] at hmem
    simpa [stays] using (mem_filter.mp hmem).2
  · have hmem := hperm₂.subset (mem_append_left _ hn)
    rw [hdeeper] at hmem
    simpa [stays] using (mem_filter.mp hmem).2

end

end Librats.Dht
