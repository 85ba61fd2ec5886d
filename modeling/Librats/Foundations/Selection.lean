import Mathlib.Data.List.Sort

/-!
# The smallest elements of a list in tiers

A list is given in tiers, each of which comes before the next one. To find the elements with the
smallest keys it is enough to gather whole tiers until there are enough elements, and to sort the
front of what was gathered.
-/

namespace Librats.Selection

open List

variable {α : Type} {lt : α → α → Bool} {tiers : List (List α)} {found : List α}

/-- `best` are the `count` elements of `all` with the smallest keys, in order. -/
structure Smallest (key : α → ℕ) (count : ℕ) (all best : List α) : Prop where
  length : best.length = min count all.length
  sorted : best.Pairwise fun a b => key a ≤ key b
  rest : ∃ rest, all.Perm (best ++ rest) ∧ ∀ a ∈ best, ∀ b ∈ rest, key a ≤ key b

/-- What the C++ standard asks of a comparator. -/
structure StrictWeak (lt : α → α → Bool) : Prop where
  asymm : ∀ a b, lt a b = true → lt b a = false
  negTrans : ∀ a b c, lt b a = false → lt c b = false → lt c a = false

/-- `std::partial_sort`: the first `k` elements of the result are sorted and no other is smaller;
equal elements stand in any order. -/
structure PartialSort (α : Type) where
  sort : (α → α → Bool) → ℕ → List α → List α
  perm : ∀ lt k l, (sort lt k l).Perm l
  front : ∀ {lt}, StrictWeak lt → ∀ k l, ((sort lt k l).take k).Pairwise fun a b => lt b a = false
  back : ∀ {lt}, StrictWeak lt → ∀ k l, ∀ a ∈ (sort lt k l).take k, ∀ b ∈ (sort lt k l).drop k,
    lt b a = false

theorem StrictWeak.pairwise_mergeSort (h : StrictWeak lt) (l : List α) :
    (l.mergeSort fun a b => !lt b a).Pairwise fun a b => lt b a = false := by
  refine (List.pairwise_mergeSort (fun a b c => ?_) (fun a b => ?_) l).imp fun hab => ?_
  · simpa using h.negTrans a b c
  · cases hab : lt a b with
    | false => simp
    | true => simp [h.asymm a b hab]
  · simpa using hab

/-- Sorting everything is a way to sort the front. -/
def PartialSort.whole : PartialSort α where
  sort lt _ l := l.mergeSort fun a b => !lt b a
  perm _ _ l := mergeSort_perm l _
  front hlt k l := (hlt.pairwise_mergeSort l).sublist (take_sublist k _)
  back hlt k l := by
    have hsorted := hlt.pairwise_mergeSort l
    rw [← take_append_drop k (mergeSort _ _)] at hsorted
    exact (pairwise_append.mp hsorted).2.2

/-- Tiers are taken as long as there are too few elements. -/
def gather (count : ℕ) (found : List α) (tiers : List (List α)) : List α :=
  tiers.foldl (fun found tier => if found.length < count then found ++ tier else found) found

theorem gather_of_le {count : ℕ} (h : count ≤ found.length)
    (tiers : List (List α)) : gather count found tiers = found := by
  induction tiers with
  | nil => rfl
  | cons tier tiers ih =>
    rw [gather, foldl_cons, if_neg (not_lt.mpr h)]
    exact ih

/-- What is left out is not needed. -/
theorem gather_spec (count : ℕ) {R : α → α → Prop}
    (h : (found :: tiers).Pairwise fun l l' => ∀ a ∈ l, ∀ b ∈ l', R a b) :
    ∃ rest, found ++ tiers.flatten = gather count found tiers ++ rest ∧
      (rest = [] ∨ count ≤ (gather count found tiers).length) ∧
      ∀ a ∈ gather count found tiers, ∀ b ∈ rest, R a b := by
  induction tiers generalizing found with
  | nil => exact ⟨[], rfl, .inl rfl, nofun⟩
  | cons tier tiers ih =>
    obtain ⟨hfound, hrest⟩ := pairwise_cons.mp h
    obtain ⟨htier, htiers⟩ := pairwise_cons.mp hrest
    by_cases hcount : found.length < count
    · have hstep : gather count found (tier :: tiers) = gather count (found ++ tier) tiers := by
        rw [gather, foldl_cons, if_pos hcount]
        rfl
      have hnext : ((found ++ tier) :: tiers).Pairwise fun l l' => ∀ a ∈ l, ∀ b ∈ l', R a b := by
        refine pairwise_cons.mpr ⟨fun l hl a ha => ?_, htiers⟩
        rcases mem_append.mp ha with ha | ha
        · exact hfound l (mem_cons_of_mem _ hl) a ha
        · exact htier l hl a ha
      obtain ⟨rest, heq, hends, hR⟩ := ih hnext
      rw [hstep, flatten_cons, ← append_assoc]
      exact ⟨rest, heq, hends, hR⟩
    · have hle := not_lt.mp hcount
      rw [gather_of_le hle]
      refine ⟨_, rfl, .inr hle, fun a ha b hb => ?_⟩
      obtain ⟨l, hl, hb⟩ := mem_flatten.mp hb
      exact hfound l hl a ha b hb

/-- **The front of the sorted elements are the smallest ones.** -/
theorem smallest_take (count : ℕ) {key : α → ℕ} {all : List α}
    (hall : all.Perm (found ++ tiers.flatten))
    (h : (found :: tiers).Pairwise fun l l' => ∀ a ∈ l, ∀ b ∈ l', key a ≤ key b)
    (sorts : PartialSort α) (hlt : ∀ a b, lt a b = decide (key a < key b)) :
    Smallest key count all ((sorts.sort lt (min count (gather count found tiers).length)
      (gather count found tiers)).take count) := by
  obtain ⟨rest, heq, hends, hrest⟩ := gather_spec count h
  generalize gather count found tiers = g at heq hends hrest
  have hweak : StrictWeak lt := by
    constructor <;> simp only [hlt, decide_eq_true_iff, decide_eq_false_iff_not] <;> omega
  have hperm := sorts.perm lt (min count g.length) g
  have hfront := sorts.front hweak (min count g.length) g
  have hback := sorts.back hweak (min count g.length) g
  generalize sorts.sort lt (min count g.length) g = s at hperm hfront hback
  have htake : s.take count = s.take (min count g.length) := by
    rw [take_eq_take_iff, hperm.length_eq]
    omega
  have hlength : all.length = g.length + rest.length := by
    rw [hall.length_eq, heq, length_append]
  rw [htake]
  refine ⟨?_, ?_, s.drop (min count g.length) ++ rest, ?_, fun a ha b hb => ?_⟩
  · rw [length_take, hperm.length_eq, hlength]
    rcases hends with rfl | hends
    · simp
    · omega
  · exact hfront.imp fun hab => by simpa [hlt] using hab
  · rw [← append_assoc, take_append_drop]
    exact hall.trans (heq ▸ hperm.symm.append_right rest)
  · rcases mem_append.mp hb with hb | hb
    · simpa [hlt] using hback a ha b hb
    · exact hrest a (hperm.mem_iff.mp (mem_of_mem_take ha)) b hb

end Librats.Selection
