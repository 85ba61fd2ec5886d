import Mathlib.Data.List.Basic
import Mathlib.Tactic

/-!
# Buckets with recorded positions

Elements filed in buckets by a key, where every element remembers its slot. An element is filed at
the end of a bucket, and taken out by moving the last element of the bucket into its slot (`Filed`).
-/

structure Buckets (K α : Type*) where
  slots : K → List α
  pos : α → ℕ
  filed : α → Bool

namespace Buckets

open List Function

variable {K α : Type*}

/-- Nothing is filed. -/
def empty : Buckets K α := ⟨fun _ => [], fun _ => 0, fun _ => false⟩

/-- The slots are those the elements remember. -/
def Filed (key : α → K) (B : Buckets K α) : Prop :=
  ∀ k i x, (B.slots k)[i]? = some x ↔ B.filed x = true ∧ key x = k ∧ B.pos x = i

theorem filed_empty (key : α → K) : Filed key (empty : Buckets K α) := by
  intro k i x
  simp [empty]

variable {key : α → K} {B : Buckets K α} {x : α}

theorem Filed.getElem? (h : Filed key B) (hx : B.filed x = true) :
    (B.slots (key x))[B.pos x]? = some x :=
  (h _ _ _).mpr ⟨hx, rfl, rfl⟩

theorem Filed.pos_lt (h : Filed key B) (hx : B.filed x = true) :
    B.pos x < (B.slots (key x)).length :=
  (List.getElem?_eq_some_iff.mp (h.getElem? hx)).1

theorem getElem?_dropLast_set {l : List α} (last : α) {p : ℕ} (hp : p < l.length) (i : ℕ) :
    (l.set p last).dropLast[i]? =
      if i < l.length - 1 then if i = p then some last else l[i]? else none := by
  rw [getElem?_dropLast, length_set]
  split_ifs with hi hip
  · rw [hip, getElem?_set_self hp]
  · rw [getElem?_set_ne (Ne.symm hip)]
  · rfl

theorem Filed.rekey (h : Filed key B) (hx : B.filed x = false) {key' : α → K}
    (hkey : ∀ y, y ≠ x → key' y = key y) : Filed key' B := by
  intro k i y
  rw [h k i y]
  by_cases hy : y = x
  · simp [hy, hx]
  · rw [hkey y hy]

/-! ## Filing and taking out -/

variable [DecidableEq K] [DecidableEq α]

section

variable (B : Buckets K α) (k : K) (x : α)

/-- File an element at the end of a bucket, unless it is filed already. -/
def insert : Buckets K α :=
  if B.filed x then B
  else
    { slots := Function.update B.slots k (B.slots k ++ [x])
      pos := Function.update B.pos x (B.slots k).length
      filed := Function.update B.filed x true }

/-- Take a filed element out of its bucket: the last one of the bucket takes its slot. -/
def remove : Buckets K α :=
  if !B.filed x then B
  else
    match (B.slots k).getLast? with
    | none => B
    | some last =>
      { slots := Function.update B.slots k ((B.slots k).set (B.pos x) last).dropLast
        pos := Function.update B.pos last (B.pos x)
        filed := Function.update B.filed x false }

theorem filed_insert : (B.insert k x).filed = Function.update B.filed x true := by
  rw [insert]
  split_ifs with hx
  · rw [← hx, update_eq_self]
  · rfl

end

theorem Filed.insert (h : Filed key B) (x : α) : Filed key (B.insert (key x) x) := by
  rw [Buckets.insert]
  split_ifs with hx
  · exact h
  rw [Bool.not_eq_true] at hx
  -- the bucket has no slot for `x`, and the new one is behind all others
  have hnew (i : ℕ) : (B.slots (key x))[i]? ≠ some x := fun hi => by
    rw [((h _ _ _).mp hi).1] at hx
    cases hx
  intro k i y
  dsimp only
  by_cases hk : k = key x
  · subst hk
    rw [update_self, getElem?_append]
    by_cases hy : y = x
    · subst hy
      simp only [update_self, true_and]
      split_ifs with hi
      · exact ⟨fun hslot => absurd hslot (hnew i), fun hlen => absurd hlen (by omega)⟩
      · rw [getElem?_singleton]
        split_ifs with hzero
        · exact ⟨fun _ => by omega, fun _ => rfl⟩
        · exact ⟨fun hslot => (nomatch hslot), fun hlen => absurd hlen (by omega)⟩
    simp only [update_of_ne hy]
    rw [← h]
    split_ifs with hi
    · rfl
    · have hnone : (B.slots (key x))[i]? = none := getElem?_eq_none (by omega)
      rw [hnone, getElem?_singleton]
      split_ifs
      · exact ⟨fun hslot => absurd (Option.some.inj hslot).symm hy, fun hslot => (nomatch hslot)⟩
      · rfl
  · rw [update_of_ne hk]
    by_cases hy : y = x
    · subst hy
      rw [h k i y, hx]
      exact ⟨fun hslot => absurd hslot.1 Bool.false_ne_true, fun hslot => absurd hslot.2.1.symm hk⟩
    · simp only [update_of_ne hy]
      exact h k i y

theorem Filed.filed_remove (h : Filed key B) (x : α) :
    (B.remove (key x) x).filed = Function.update B.filed x false := by
  rw [remove]
  split_ifs with hx
  · rw [Bool.not_eq_true'] at hx
    rw [← hx, update_eq_self]
  rw [Bool.not_eq_true', Bool.not_eq_false] at hx
  split
  · rename_i hlast
    rw [getLast?_eq_none_iff] at hlast
    have hpos := h.pos_lt hx
    rw [hlast] at hpos
    exact absurd hpos (Nat.not_lt_zero _)
  · rfl

theorem Filed.remove (h : Filed key B) (x : α) : Filed key (B.remove (key x) x) := by
  rw [Buckets.remove]
  split_ifs with hx
  · exact h
  rw [Bool.not_eq_true', Bool.not_eq_false] at hx
  split
  · exact h
  rename_i last hlast
  have hpos := h.pos_lt hx
  have hself := h.getElem? hx
  -- the last element, and its slot
  have hend : (B.slots (key x))[(B.slots (key x)).length - 1]? = some last := by
    rw [← getLast?_eq_getElem?, hlast]
  obtain ⟨hlastFiled, hlastKey, hlastPos⟩ := (h _ _ _).mp hend
  intro k i y
  dsimp only
  by_cases hk : k = key x
  · subst hk
    rw [update_self, getElem?_dropLast_set last hpos]
    by_cases hy : y = x
    · -- `x` has no slot any more: its own is the last one's or gone
      subst hy
      simp only [update_self, Bool.false_eq_true, false_and, iff_false]
      split_ifs with hi hip
      · rintro hslot
        cases hslot
        omega
      · rw [h]
        rintro ⟨-, -, rfl⟩
        exact hip rfl
      · exact nofun
    rw [update_of_ne hy]
    by_cases hyl : y = last
    · subst hyl
      rw [update_self]
      split_ifs with hi hip
      · exact ⟨fun _ => ⟨hlastFiled, hlastKey, hip.symm⟩, fun _ => rfl⟩
      · rw [h]
        exact ⟨fun hslot => absurd hslot.2.2 (by omega), fun hslot => absurd hslot.2.2.symm hip⟩
      · refine ⟨fun hslot => (nomatch hslot), fun hslot => ?_⟩
        -- the slot of `x` would be the last one, so that `x` would be the last element
        have hend' : B.pos x = (B.slots (key x)).length - 1 := by omega
        rw [hend', hend] at hself
        exact absurd (Option.some.inj hself) hy
    rw [update_of_ne hyl, ← h]
    split_ifs with hi hip
    · subst hip
      rw [hself]
      exact ⟨fun hslot => absurd (Option.some.inj hslot).symm hyl,
        fun hslot => absurd (Option.some.inj hslot).symm hy⟩
    · rfl
    · refine ⟨fun hslot => (nomatch hslot), fun hslot => ?_⟩
      have hlt := (List.getElem?_eq_some_iff.mp hslot).1
      obtain rfl : i = (B.slots (key x)).length - 1 := by omega
      rw [hend] at hslot
      exact absurd (Option.some.inj hslot).symm hyl
  rw [update_of_ne hk, h k i y]
  by_cases hy : y = x
  · subst hy
    simp only [update_self]
    exact ⟨fun hslot => absurd hslot.2.1.symm hk, fun hslot => absurd hslot.1 Bool.false_ne_true⟩
  · rw [update_of_ne hy]
    by_cases hyl : y = last
    · subst hyl
      exact ⟨fun hslot => absurd (hslot.2.1.symm.trans hlastKey) hk,
        fun hslot => absurd (hslot.2.1.symm.trans hlastKey) hk⟩
    · rw [update_of_ne hyl]

end Buckets
