import Librats.Dht.RoutingTable
import Librats.Foundations.Selection

/-!
# The closest contacts

`find_closest` starts at the bucket of the target, goes on with the deeper buckets as a whole and
then with the shallower ones, one by one, until it has enough. What can go wrong is the room that is
reserved beforehand.
-/

namespace Librats.Dht

open List Selection

/-! ## Shared prefixes -/

section

variable {a b c : NodeId}

theorem le_sharedPrefixBits {k : ℕ} (hk : k ≤ 160) :
    k ≤ sharedPrefixBits a b ↔ (a ^^^ b).toNat < 2 ^ (160 - k) := by
  by_cases hab : a = b
  · simp [sharedPrefixBits, hab, kBucketCount, hk]
  · have hne : (a ^^^ b).toNat ≠ 0 := by
      intro hzero
      exact hab (BitVec.xor_eq_zero_iff.mp (BitVec.eq_of_toNat_eq hzero))
    have hlog := (Nat.log2_lt hne).mpr (a ^^^ b).isLt
    rw [sharedPrefixBits, if_neg hab, ← Nat.log2_lt hne, kBucketCount]
    omega

theorem sharedPrefixBits_le (a b : NodeId) : sharedPrefixBits a b ≤ 160 := by
  rw [sharedPrefixBits, kBucketCount]
  split_ifs <;> omega

theorem sharedPrefixBits_comm (a b : NodeId) : sharedPrefixBits a b = sharedPrefixBits b a := by
  simp only [sharedPrefixBits, eq_comm, BitVec.xor_comm]

theorem toNat_xor_trans (a b c : NodeId) :
    (a ^^^ c).toNat = (a ^^^ b).toNat ^^^ (b ^^^ c).toNat := by
  rw [← BitVec.toNat_xor, BitVec.xor_assoc, ← BitVec.xor_assoc b b c, BitVec.xor_self,
    BitVec.zero_xor]

/-- What two identifiers share with a third they share with each other. -/
theorem min_sharedPrefixBits_le (a b c : NodeId) :
    min (sharedPrefixBits a b) (sharedPrefixBits b c) ≤ sharedPrefixBits a c := by
  have hk : min (sharedPrefixBits a b) (sharedPrefixBits b c) ≤ 160 :=
    (min_le_left _ _).trans (sharedPrefixBits_le a b)
  rw [le_sharedPrefixBits hk, toNat_xor_trans a b c]
  exact Nat.xor_lt_two_pow ((le_sharedPrefixBits hk).mp (min_le_left _ _))
    ((le_sharedPrefixBits hk).mp (min_le_right _ _))

theorem lt_sharedPrefixBits_of_eq (h : sharedPrefixBits a b = sharedPrefixBits b c)
    (hlt : sharedPrefixBits a b < 160) : sharedPrefixBits a b < sharedPrefixBits a c := by
  obtain ⟨n, hn⟩ : ∃ n, 160 - sharedPrefixBits a b = n + 1 := ⟨159 - sharedPrefixBits a b, by omega⟩
  have hn' : 160 - (sharedPrefixBits a b + 1) = n := by omega
  -- both distances have their highest bit at `n`
  have hbit {x y : NodeId} (hxy : sharedPrefixBits x y = sharedPrefixBits a b) :
      (x ^^^ y).toNat < 2 ^ (n + 1) ∧ (x ^^^ y).toNat.testBit n = true := by
    have hupper := (le_sharedPrefixBits hlt.le).mp hxy.ge
    have hlower := (le_sharedPrefixBits hlt).not.mp (not_le.mpr (Nat.lt_succ_of_le hxy.le))
    rw [hn] at hupper
    rw [hn', not_lt] at hlower
    exact ⟨hupper, Nat.testBit_of_two_pow_le_and_two_pow_add_one_gt hlower hupper⟩
  obtain ⟨hab, hab'⟩ := hbit rfl
  obtain ⟨hbc, hbc'⟩ := hbit h.symm
  rw [Nat.lt_iff_add_one_le, le_sharedPrefixBits hlt, hn', toNat_xor_trans a b c]
  refine Nat.lt_pow_two_of_testBit _ fun i hi => ?_
  rw [Nat.testBit_xor]
  rcases hi.eq_or_lt with rfl | hi
  · rw [hab', hbc']
    rfl
  · rw [Nat.testBit_lt_two_pow (hab.trans_le (Nat.pow_le_pow_right two_pos hi)),
      Nat.testBit_lt_two_pow (hbc.trans_le (Nat.pow_le_pow_right two_pos hi))]
    rfl

/-- `distance`, as a number. -/
def distance (a b : NodeId) : ℕ := (a ^^^ b).toNat

theorem distance_le_of_lt (h : sharedPrefixBits b c < sharedPrefixBits a c) :
    distance a c ≤ distance b c := by
  have hk : sharedPrefixBits b c + 1 ≤ 160 := h.trans_le (sharedPrefixBits_le a c)
  have ha := (le_sharedPrefixBits hk).mp h
  have hb := (le_sharedPrefixBits hk).not.mp (Nat.not_succ_le_self (sharedPrefixBits b c))
  exact ha.le.trans (not_lt.mp hb)

end

/-! ## The walk over the buckets -/

/-- The contacts of a bucket that may be returned. -/
def Bucket.answers (includeUnconfirmed : Bool) (b : Bucket) : List NodeEntry :=
  b.live.filter fun n => includeUnconfirmed || n.confirmed

namespace RoutingTable

/-- The contacts that may be returned. -/
def answers (t : RoutingTable) (includeUnconfirmed : Bool) : List NodeEntry :=
  t.buckets.flatMap (Bucket.answers includeUnconfirmed)

/-- `find_closest`; `reserve` throws if it is asked for more than `maxSize` entries, in 64 bits. -/
def findClosest (sorts : PartialSort NodeEntry) (maxSize : ℕ) (t : RoutingTable) (target : NodeId)
    (count : ℕ) (includeUnconfirmed : Bool) : Option (List NodeEntry) :=
  if count = 0 then some []
  else
    let start := t.bucketIndex target
    if maxSize < (count + (t.bucket start).live.length) % 2 ^ 64 then none
    else
      let result := (t.bucket start).answers includeUnconfirmed
      let result := if result.length < count then
        result ++ (t.buckets.drop (start + 1)).flatMap (Bucket.answers includeUnconfirmed) else result
      let result := (t.buckets.take start).reverse.foldl (fun result b =>
        if result.length < count then result ++ b.answers includeUnconfirmed else result) result
      some ((sorts.sort (fun a c => closerTo a.id c.id target) (min count result.length) result).take
        count)

/-- Every live contact sits in its bucket. -/
structure Placed (t : RoutingTable) : Prop where
  nonempty : t.buckets ≠ []
  placed : ∀ i b, t.buckets[i]? = some b → ∀ n ∈ b.live, t.bucketIndex n.id = i

variable {t : RoutingTable} {target : NodeId}

/-- The contacts of the target's bucket come first, then those of deeper buckets, then those of
shallower ones, the deeper of these the closer. -/
theorem distance_le_of_bucketIndex {a b : NodeId}
    (h : t.bucketIndex a = t.bucketIndex target ∧ t.bucketIndex b ≠ t.bucketIndex target ∨
      t.bucketIndex b < t.bucketIndex target ∧ t.bucketIndex b < t.bucketIndex a) :
    distance a target ≤ distance b target := by
  apply distance_le_of_lt
  simp only [bucketIndex] at h
  rw [sharedPrefixBits_comm t.self a, sharedPrefixBits_comm t.self b] at h
  have ha := min_sharedPrefixBits_le a t.self target
  have hb' := min_sharedPrefixBits_le b target t.self
  have hself := min_sharedPrefixBits_le target b t.self
  have hle := sharedPrefixBits_le b t.self
  have heq := lt_sharedPrefixBits_of_eq (a := a) (b := t.self) (c := target)
  rw [sharedPrefixBits_comm target t.self] at hb'
  rw [sharedPrefixBits_comm target b, sharedPrefixBits_comm target t.self] at hself
  omega

variable {all : Bool}

theorem Placed.mem_answers (h : t.Placed) {i : ℕ} {b : Bucket} (hb : t.buckets[i]? = some b)
    {n : NodeEntry} (hn : n ∈ b.answers all) : t.bucketIndex n.id = i :=
  h.placed i b hb n (mem_of_mem_filter hn)

section

variable (h : t.Placed) (target : NodeId)

include h

theorem Placed.bucketIndex_lt : t.bucketIndex target < t.buckets.length := by
  have hpos := length_pos_of_ne_nil h.nonempty
  rw [bucketIndex]
  omega

theorem Placed.getElem?_start :
    t.buckets[t.bucketIndex target]? = some (t.bucket (t.bucketIndex target)) := by
  rw [bucket, getElem?_eq_getElem (h.bucketIndex_lt target), Option.getD_some]

theorem Placed.drop_start : t.buckets.drop (t.bucketIndex target) =
      t.bucket (t.bucketIndex target) :: t.buckets.drop (t.bucketIndex target + 1) := by
  have hstart := h.getElem?_start target
  rw [getElem?_eq_getElem (h.bucketIndex_lt target), Option.some_inj] at hstart
  rw [← hstart, drop_eq_getElem_cons]

end

/-- The tiers in the order of the walk. -/
def tiers (t : RoutingTable) (target : NodeId) (all : Bool) : List (List NodeEntry) :=
  (t.buckets.drop (t.bucketIndex target + 1)).flatMap (Bucket.answers all) ::
    (t.buckets.take (t.bucketIndex target)).reverse.map (Bucket.answers all)

theorem Placed.answers_perm (h : t.Placed) (target : NodeId) (all : Bool) : (t.answers all).Perm
      ((t.bucket (t.bucketIndex target)).answers all ++ (t.tiers target all).flatten) := by
  have hshallow := (reverse_perm (t.buckets.take (t.bucketIndex target))).flatMap_right
    (Bucket.answers all)
  have hsplit : t.answers all = (t.buckets.take (t.bucketIndex target)).flatMap
      (Bucket.answers all) ++ ((t.bucket (t.bucketIndex target)).answers all ++
        (t.buckets.drop (t.bucketIndex target + 1)).flatMap (Bucket.answers all)) := by
    rw [← flatMap_cons, ← h.drop_start, ← flatMap_append, take_append_drop, answers]
  rw [hsplit, tiers, flatten_cons, ← flatMap_def, ← append_assoc _ _ (flatMap _ (reverse _))]
  exact perm_append_comm.trans (hshallow.symm.append_left _)

theorem Placed.pairwise (h : t.Placed) (target : NodeId) (all : Bool) :
    ((t.bucket (t.bucketIndex target)).answers all :: t.tiers target all).Pairwise
      fun l l' => ∀ a ∈ l, ∀ b ∈ l', distance a.id target ≤ distance b.id target := by
  have hstart {n : NodeEntry} (hn : n ∈ (t.bucket (t.bucketIndex target)).answers all) :
      t.bucketIndex n.id = t.bucketIndex target := h.mem_answers (h.getElem?_start target) hn
  have hdeep {n : NodeEntry}
      (hn : n ∈ (t.buckets.drop (t.bucketIndex target + 1)).flatMap (Bucket.answers all)) :
      t.bucketIndex target < t.bucketIndex n.id := by
    obtain ⟨b, hb, hn⟩ := mem_flatMap.mp hn
    obtain ⟨i, hi⟩ := mem_iff_getElem?.mp hb
    rw [getElem?_drop] at hi
    rw [h.mem_answers hi hn]
    omega
  have hshallow {l : List NodeEntry} {n : NodeEntry}
      (hl : l ∈ (t.buckets.take (t.bucketIndex target)).reverse.map (Bucket.answers all))
      (hn : n ∈ l) : t.bucketIndex n.id < t.bucketIndex target := by
    obtain ⟨b, hb, rfl⟩ := mem_map.mp hl
    obtain ⟨i, hi⟩ := mem_iff_getElem?.mp (mem_reverse.mp hb)
    rw [getElem?_take] at hi
    split_ifs at hi with hlt
    rwa [h.mem_answers hi hn]
  refine pairwise_cons.mpr ⟨fun l hl a ha b hb => ?_, pairwise_cons.mpr ⟨fun l hl a ha b hb => ?_, ?_⟩⟩
  · refine distance_le_of_bucketIndex (.inl ⟨hstart ha, ?_⟩)
    rcases mem_cons.mp hl with rfl | hl
    · exact (hdeep hb).ne'
    · exact (hshallow hl hb).ne
  · exact distance_le_of_bucketIndex (.inr ⟨hshallow hl hb, (hshallow hl hb).trans (hdeep ha)⟩)
  · rw [pairwise_map, pairwise_reverse, pairwise_iff_getElem]
    intro i j hi hj hij a ha b hb
    rw [length_take] at hi hj
    rw [getElem_take] at ha hb
    have hindex := h.mem_answers (getElem?_eq_getElem (by omega)) ha
    have hindex' := h.mem_answers (getElem?_eq_getElem (by omega)) hb
    exact distance_le_of_bucketIndex (t := t) (.inr (by omega))

/-- **The closest contacts are found exactly if there is room for as many as are asked for.** -/
theorem findClosest_iff (sorts : PartialSort NodeEntry) (maxSize : ℕ) {t : RoutingTable}
    (h : t.Placed) (target : NodeId) (count : ℕ) (includeUnconfirmed : Bool) :
    (∃ result, t.findClosest sorts maxSize target count includeUnconfirmed = some result ∧
      Smallest (distance ·.id target) count (t.answers includeUnconfirmed) result) ↔
    count = 0 ∨ (count + (t.bucket (t.bucketIndex target)).live.length) % 2 ^ 64 ≤ maxSize := by
  by_cases hcount : count = 0
  · refine iff_of_true ⟨[], by rw [findClosest, if_pos hcount], ?_⟩ (.inl hcount)
    rw [hcount]
    exact ⟨by simp, .nil, _, .refl _, nofun⟩
  by_cases hroom : maxSize < (count + (t.bucket (t.bucketIndex target)).live.length) % 2 ^ 64
  · refine iff_of_false ?_ (not_or.mpr ⟨hcount, not_le.mpr hroom⟩)
    rintro ⟨result, hsome, -⟩
    simp only [findClosest, if_neg hcount, if_pos hroom] at hsome
    cases hsome
  · have hsmallest := smallest_take count (h.answers_perm target includeUnconfirmed)
      (h.pairwise target includeUnconfirmed) sorts fun _ _ => rfl
    refine iff_of_true ⟨_, ?_, hsmallest⟩ (.inr (not_lt.mp hroom))
    simp only [findClosest, if_neg hcount, if_neg hroom]
    rw [gather, tiers, foldl_cons, foldl_map]
    rfl

theorem placed_singleton (t : RoutingTable) (b : Bucket) : { t with buckets := [b] }.Placed := by
  refine ⟨cons_ne_nil _ _, fun i c hc n hn => ?_⟩
  obtain ⟨hi, -⟩ := List.getElem?_eq_some_iff.mp hc
  rw [length_singleton] at hi
  rw [bucketIndex, length_singleton]
  omega

/-- A table with two contacts. -/
def pair : RoutingTable :=
  { new 0 false with buckets := [⟨[.new 5 ⟨.v4 1, 1⟩, .new 3 ⟨.v4 2, 1⟩], []⟩] }

theorem findClosest_iff_pair :
    pair.Placed ∧ ∃ result, pair.findClosest .whole (2 ^ 32) 1 8 true = some result ∧
      Smallest (distance ·.id 1) 8 (pair.answers true) result :=
  ⟨placed_singleton _ _, (findClosest_iff .whole (2 ^ 32) (placed_singleton _ _) 1 8 true).mpr
    (.inr (by decide))⟩

/-- More room is asked for than a vector can have, without a single contact. -/
theorem too_much_reserved : (new 0 false).Placed ∧
      (new 0 false).findClosest .whole (2 ^ 63 - 1) 1 (2 ^ 64 - 1) true = none :=
  ⟨placed_singleton (new 0 false) .empty, by simp [findClosest, new, bucket, bucketIndex, Bucket.empty]⟩

end RoutingTable

end Librats.Dht
