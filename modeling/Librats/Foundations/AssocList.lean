import Mathlib.Data.List.AList
import Mathlib.Data.Multiset.Count
import Mathlib.Data.Multiset.AddSub

/-!
# Association lists

Facts about `AList` maps with values of one type, beyond those of the library: how many entries a
map has after a change, what a lookup after an erasure says about the map before it, and the entries
of a map that satisfy a test.
-/

namespace AssocList

open List AList

variable {K V : Type*} [DecidableEq K] {m : AList fun _ : K => V} {k : K}

theorem length_erase (h : k ∈ m) : (m.erase k).entries.length + 1 = m.entries.length := by
  have hk := length_erase_add_one (mem_keys.mp h)
  rw [← keys_erase] at hk
  simpa [AList.keys, List.keys] using hk

theorem length_insert (h : k ∈ m) (v : V) : (m.insert k v).entries.length = m.entries.length := by
  exact length_erase h

theorem lookup_of_erase {key : K} {v : V} (h : (m.erase k).lookup key = some v) :
    key ≠ k ∧ m.lookup key = some v := by
  by_cases hk : key = k
  · rw [hk, lookup_erase] at h
    cases h
  · rw [lookup_erase_ne hk] at h
    exact ⟨hk, h⟩

theorem lookup_of_insert {key : K} {v w : V} (h : (m.insert k v).lookup key = some w) :
    key = k ∧ v = w ∨ key ≠ k ∧ m.lookup key = some w := by
  by_cases hk : key = k
  · rw [hk, lookup_insert] at h
    exact .inl ⟨hk, Option.some.inj h⟩
  · rw [lookup_insert_ne hk] at h
    exact .inr ⟨hk, h⟩

/-- The entries that satisfy a test. -/
def filter (m : AList fun _ : K => V) (p : V → Bool) : AList fun _ : K => V :=
  ⟨m.entries.filter fun x => p x.2, m.nodupKeys.sublist filter_sublist⟩

theorem dlookup_filter {l : List (Sigma fun _ : K => V)} (h : l.NodupKeys) (p : V → Bool) (k : K) :
    (l.filter fun x => p x.2).dlookup k = (l.dlookup k).filter p := by
  induction l with
  | nil => rfl
  | cons x l ih =>
    obtain ⟨a, v⟩ := x
    obtain ⟨ha, hl⟩ := nodupKeys_cons.mp h
    have ih := ih hl
    by_cases hk : k = a
    · subst hk
      rw [dlookup_eq_none.mpr ha] at ih
      cases hp : p v with
      | false => simpa [hp, Option.filter] using ih
      | true => simp [hp, Option.filter]
    · rw [dlookup_cons_ne _ _ hk, ← ih]
      cases hp : p v with
      | false => simp [hp]
      | true => simp [hp, hk]

theorem lookup_filter (m : AList fun _ : K => V) (p : V → Bool) (k : K) :
    (filter m p).lookup k = (m.lookup k).filter p :=
  dlookup_filter m.nodupKeys p k

end AssocList

namespace CountIndex

/-! ## A map that counts

Every key that enters a collection is tracked, every key that leaves is untracked, and a count that
falls to zero is erased (`Counts`). -/

open Multiset AList

variable {α : Type*} [DecidableEq α]

/-- A map from keys to how often they are held. -/
abbrev Index (α : Type*) := AList fun _ : α => ℕ

def track (idx : Index α) (a : α) : Index α := idx.insert a ((idx.lookup a).getD 0 + 1)

/-- An absent key stays absent, and a count that falls to zero is erased. -/
def untrack (idx : Index α) (a : α) : Index α :=
  match idx.lookup a with
  | none => idx
  | some n => if n - 1 = 0 then idx.erase a else idx.insert a (n - 1)

/-- The map holds just the keys of the collection, each with its number. -/
def Counts (m : Multiset α) (idx : Index α) : Prop :=
  ∀ a, idx.lookup a = if m.count a = 0 then none else some (m.count a)

namespace Counts

variable {m : Multiset α} {idx idx' : Index α} {a : α}

theorem empty : Counts (0 : Multiset α) ∅ := by
  intro a
  simp

theorem lookup_isSome (h : Counts m idx) : (idx.lookup a).isSome ↔ a ∈ m := by
  rw [h a, ← count_pos]
  split_ifs with hzero
  · simp [hzero]
  · simpa using Nat.pos_of_ne_zero hzero

theorem getD (h : Counts m idx) (a : α) : (idx.lookup a).getD 0 = m.count a := by
  rw [h a]
  split_ifs with hzero
  · exact hzero.symm
  · rfl

theorem track (h : Counts m idx) (a : α) : Counts (a ::ₘ m) (track idx a) := by
  intro b
  rw [CountIndex.track, h.getD a]
  by_cases hb : b = a
  · subst hb
    rw [lookup_insert, count_cons_self, if_neg (Nat.succ_ne_zero _)]
  · rw [lookup_insert_ne hb, count_cons_of_ne hb, h b]

theorem untrack (h : Counts (a ::ₘ m) idx) : Counts m (untrack idx a) := by
  intro b
  have ha : idx.lookup a = some (m.count a + 1) := by
    rw [h a, count_cons_self, if_neg (Nat.succ_ne_zero _)]
  rw [CountIndex.untrack, ha]
  simp only [Nat.add_sub_cancel]
  by_cases hb : b = a
  · subst hb
    split_ifs with hzero
    · rw [lookup_erase]
    · rw [lookup_insert]
  · have hbcount := h b
    rw [count_cons_of_ne hb] at hbcount
    split_ifs with hzero hbzero hbzero
    · rw [lookup_erase_ne hb, hbcount, if_pos hbzero]
    · rw [lookup_erase_ne hb, hbcount, if_neg hbzero]
    · rw [lookup_insert_ne hb, hbcount, if_pos hbzero]
    · rw [lookup_insert_ne hb, hbcount, if_neg hbzero]

theorem foldl_track (h : Counts m idx) (l : List α) :
    Counts ((l : Multiset α) + m) (l.foldl CountIndex.track idx) := by
  induction l generalizing m idx with
  | nil => simpa using h
  | cons a l ih =>
    have hl := ih (h.track a)
    rwa [add_cons, ← cons_add] at hl

theorem perm (h : Counts m idx) (h' : Counts m idx') : idx.entries.Perm idx'.entries := by
  refine List.lookup_ext idx.nodupKeys idx'.nodupKeys fun a n => ?_
  have heq : idx.lookup a = idx'.lookup a := (h a).trans (h' a).symm
  simp only [AList.lookup] at heq
  rw [heq]

end Counts

end CountIndex
