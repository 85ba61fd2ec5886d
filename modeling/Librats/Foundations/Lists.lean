import Mathlib.Data.List.Induction

/-!
# Lists that are written

Lists that were written one entry after the other, each of them right when it was added
(`Chronicle`); and a list in the place of a part of another one, as a write to a file puts it
(`patch`): a gap before it is filled, and the list grows if need be.
-/

namespace Librats

open List

variable {α : Type*} {l l' : List α} {R : List α → α → Prop} {a : α}

/-- Every entry stands in the relation to those before it. -/
def Chronicle (R : List α → α → Prop) (l : List α) : Prop :=
  ∀ before a after, l = before ++ a :: after → R before a

namespace Chronicle

theorem nil : Chronicle R [] := fun before a after h => by simp at h

theorem concat (h : Chronicle R l) (ha : R l a) : Chronicle R (l ++ [a]) := by
  intro before b after heq
  obtain ⟨e, rfl, he⟩ | ⟨e, rfl, he⟩ := append_eq_append_iff.mp heq
  · cases e with
    | nil =>
      obtain ⟨rfl, -⟩ := cons.inj he
      simpa using ha
    | cons _ e => simp at he
  · cases e with
    | nil =>
      obtain ⟨rfl, -⟩ := cons.inj he
      simpa using ha
    | cons _ e =>
      obtain ⟨rfl, -⟩ := cons.inj he
      exact h before b e rfl

theorem append (h : Chronicle R l)
    (hl' : ∀ before a after, l' = before ++ a :: after → R (l ++ before) a) :
    Chronicle R (l ++ l') := by
  induction l' using reverseRecOn with
  | nil => simpa using h
  | append_singleton l' a ih =>
    rw [← append_assoc]
    refine (ih fun before b after heq => ?_).concat (hl' l' a [] rfl)
    exact hl' before b (after ++ [a]) (by simp [heq])

theorem left (h : Chronicle R (l ++ l')) : Chronicle R l := by
  rintro before a after rfl
  exact h before a (after ++ l') (by simp)

end Chronicle

variable {pad v : α} {data : List α} {offset k : ℕ}

/-- `data` in the place of the part of `l` from `offset` on. -/
def patch (pad : α) (l : List α) (offset : ℕ) (data : List α) : List α :=
  (l ++ replicate (offset - l.length) pad).take offset ++ data ++ l.drop (offset + data.length)

theorem length_patch_start (pad : α) (l : List α) (offset : ℕ) :
    ((l ++ replicate (offset - l.length) pad).take offset).length = offset := by
  simp only [length_take, length_append, length_replicate]
  omega

@[simp] theorem length_patch :
    (patch pad l offset data).length = max l.length (offset + data.length) := by
  simp only [patch, length_append, length_take, length_replicate, length_drop]
  omega

theorem getElem?_patch_add (h : k < data.length) : (patch pad l offset data)[offset + k]? = data[k]? := by
  have hstart := length_patch_start pad l offset
  rw [patch, append_assoc, getElem?_append_right (by omega), hstart,
    Nat.add_sub_cancel_left, getElem?_append_left h]

theorem getElem?_patch_of_some (h : l[k]? = some v) (hk : k < offset ∨ offset + data.length ≤ k) :
    (patch pad l offset data)[k]? = some v := by
  have hlt : k < l.length := (List.getElem?_eq_some_iff.mp h).1
  have hstart := length_patch_start pad l offset
  rw [patch, append_assoc]
  obtain hk | hk := hk
  · rw [getElem?_append_left (by omega), getElem?_take_of_lt hk, getElem?_append_left hlt, h]
  · rw [getElem?_append_right (by omega), getElem?_append_right (by omega), getElem?_drop, ← h]
    congr 1
    omega

end Librats
