import Mathlib.Data.Finset.Card
import Mathlib.Data.List.Basic
import Mathlib.Tactic

/-!
# What was seen recently

A set of the things seen last, with the order in which they were seen, from which the oldest one is
dropped when there are too many (`mark`). `Tracks` says what the set is after a history of marks.
-/

namespace Recent

open List

variable {α : Type*} [DecidableEq α]

/-- The things seen, and the order in which they were. -/
structure Seen (α : Type*) where
  seen : Finset α
  order : List α
  deriving DecidableEq

def Seen.empty : Seen α := ⟨∅, []⟩

/-- Mark a thing as seen, unless it is already; beyond the limit the oldest one is dropped. -/
def Seen.mark (limit : ℕ) (r : Seen α) (a : α) : Option (Seen α) :=
  if a ∈ r.seen then none
  else
    match r.order ++ [a] with
    | [] => some ⟨insert a r.seen, []⟩
    | b :: order =>
      if limit < order.length + 1 then some ⟨(insert a r.seen).erase b, order⟩
      else some ⟨insert a r.seen, b :: order⟩

/-- The set after a history of marks. -/
structure Tracks (limit : ℕ) (marks : List α) (r : Seen α) : Prop where
  order : r.order = marks.drop (marks.length - limit)
  nodup : r.order.Nodup
  seen : r.seen = r.order.toFinset

variable {limit : ℕ} {marks : List α} {r r' : Seen α} {a : α}

theorem Tracks.length_le (h : Tracks limit marks r) : r.order.length ≤ limit := by
  rw [h.order, length_drop]
  omega

theorem not_mem_of_mark (h : r.mark limit a = some r') : a ∉ r.seen := by
  intro hmem
  rw [Seen.mark, if_pos hmem] at h
  cases h

theorem Tracks.order_mark (h : Tracks limit marks r) :
    (marks ++ [a]).drop ((marks ++ [a]).length - limit) =
      if limit < r.order.length + 1 then (r.order ++ [a]).tail else r.order ++ [a] := by
  have hlength : r.order.length = marks.length - (marks.length - limit) := by
    rw [h.order, length_drop]
  have happend : r.order ++ [a] = (marks ++ [a]).drop (marks.length - limit) := by
    rw [h.order, drop_append_of_le_length (by omega)]
  rw [happend]
  split_ifs with hfull
  · rw [tail_drop]
    congr 1
    simp only [length_append, length_singleton]
    omega
  · congr 1
    simp only [length_append, length_singleton]
    omega

theorem Tracks.mark (h : Tracks limit marks r) (hmark : r.mark limit a = some r') :
    Tracks limit (marks ++ [a]) r' := by
  have hfresh := not_mem_of_mark hmark
  have hnew : a ∉ r.order := by rwa [h.seen, mem_toFinset] at hfresh
  have hnodup : (r.order ++ [a]).Nodup := by
    rw [← concat_eq_append]
    exact h.nodup.concat hnew
  have hinsert : insert a r.seen = (r.order ++ [a]).toFinset := by
    rw [h.seen, toFinset_append, Finset.union_comm]
    rfl
  have horder := h.order_mark (a := a)
  rw [Seen.mark] at hmark
  cases hlist : r.order ++ [a] with
  | nil => simp at hlist
  | cons b order =>
    have hlength : r.order.length = order.length := by
      have := congrArg List.length hlist
      simpa using this
    simp only [hlist] at hmark
    rw [hlist, hlength] at horder
    rw [hlist] at hnodup hinsert
    obtain ⟨hb, hrest⟩ := nodup_cons.mp hnodup
    split_ifs at hmark with hfull
    · rw [if_pos hfull] at horder
      cases hmark
      refine ⟨horder.symm, hrest, ?_⟩
      rw [hinsert, toFinset_cons, Finset.erase_insert (by simpa using hb)]
    · rw [if_neg hfull] at horder
      cases hmark
      exact ⟨horder.symm, hnodup, hinsert⟩

/-- **Two marks of one thing are far apart**: as many others as the limit allows were marked in
between. -/
theorem Tracks.spacing (h : Tracks limit marks r) (ha : a ∉ r.seen) {before after : List α}
    (hmarks : marks = before ++ a :: after) : limit ≤ (after.toFinset.erase a).card := by
  have hnew : a ∉ r.order := by rwa [h.seen, mem_toFinset] at ha
  have hdrop : before.length + 1 ≤ marks.length - limit := by
    by_contra hlt
    apply hnew
    rw [h.order, hmarks, drop_append_of_le_length (by rw [hmarks] at hlt; omega)]
    simp
  have hlength : r.order.length = limit := by
    rw [h.order, length_drop]
    omega
  have hsub : r.order.toFinset ⊆ after.toFinset.erase a := by
    intro x hx
    rw [mem_toFinset] at hx
    refine Finset.mem_erase.mpr ⟨fun heq => hnew (heq ▸ hx), mem_toFinset.mpr ?_⟩
    have hsplit : marks = (before ++ [a]) ++ after := by rw [hmarks, append_assoc]; rfl
    rw [h.order, hsplit, drop_append, mem_append] at hx
    rw [← hsplit, drop_eq_nil_of_le (by simpa using hdrop)] at hx
    exact mem_of_mem_drop (hx.resolve_left (not_mem_nil))
  calc limit = r.order.toFinset.card := by rw [toFinset_card_of_nodup h.nodup, hlength]
    _ ≤ (after.toFinset.erase a).card := Finset.card_le_card hsub

end Recent
