import Mathlib.Data.List.Basic
import Mathlib.Tactic

/-!
# Vectors and loops over them that erase

A vector as it lies in memory: the slots of its buffer, of which the first `size` are its elements.
Erasing moves those behind down and leaves the last slot as it was. A range-for fixes its first and
last position when it starts, so a body that erases its element passes over the next one.
-/

/-- The slots of a vector's buffer, the first `size` of them its elements. -/
structure RawVector (α : Type*) where
  slots : List α
  size : ℕ
  size_le : size ≤ slots.length

namespace RawVector

open List

variable {α σ : Type*} (v : RawVector α)

/-- The elements. -/
def live : List α := v.slots.take v.size

/-- A vector without a buffer. -/
def empty : RawVector α := ⟨[], 0, le_rfl⟩

/-- No elements are left, and the slots keep their values. -/
def clear : RawVector α := { v with size := 0, size_le := Nat.zero_le _ }

theorem length_live : v.live.length = v.size := by
  rw [live, length_take, min_eq_left v.size_le]

/-- A new last element. -/
def push (x : α) : RawVector α where
  slots := v.live ++ x :: v.slots.drop (v.size + 1)
  size := v.size + 1
  size_le := by
    rw [length_append, length_live, length_cons]
    omega

@[simp]
theorem live_push (x : α) : (v.push x).live = v.live ++ [x] := by
  have hlen : (v.live ++ [x]).length = v.size + 1 := by
    rw [length_append, length_live, length_singleton]
  change (v.live ++ x :: v.slots.drop (v.size + 1)).take (v.size + 1) = v.live ++ [x]
  rw [append_cons]
  exact take_left' hlen

/-- The elements behind `x` move one slot down. -/
def erase [DecidableEq α] (x : α) : RawVector α :=
  if hx : x ∈ v.live then
    { slots := v.live.erase x ++ v.slots.drop (v.size - 1)
      size := v.size - 1
      size_le := by
        rw [length_append, length_erase_of_mem hx, length_live]
        omega }
  else v

section

variable [DecidableEq α]

@[simp]
theorem live_erase (v : RawVector α) (x : α) : (v.erase x).live = v.live.erase x := by
  by_cases hx : x ∈ v.live
  · have hlen : (v.live.erase x).length = v.size - 1 := by
      rw [length_erase_of_mem hx, length_live]
    rw [erase, dif_pos hx]
    exact take_left' hlen
  · rw [erase, dif_neg hx, erase_of_not_mem hx]

variable {v : RawVector α} {x : α}

theorem erase_of_notMem (hx : x ∉ v.live) : v.erase x = v := dif_neg hx

theorem size_erase (hx : x ∈ v.live) : (v.erase x).size = v.size - 1 := by
  rw [erase, dif_pos hx]

theorem slots_erase (hx : x ∈ v.live) (i : ℕ) :
    (v.erase x).slots[i]? = if i < v.size - 1 then (v.live.erase x)[i]? else v.slots[i]? := by
  have hlen : (v.live.erase x).length = v.size - 1 := by
    rw [length_erase_of_mem hx, length_live]
  rw [erase, dif_pos hx, getElem?_append, hlen]
  split_ifs with hi
  · rfl
  · rw [getElem?_drop, Nat.add_sub_cancel' (not_lt.mp hi)]

end

theorem slots_eq_live {v : RawVector α} {i : ℕ} (hi : i < v.size) : v.slots[i]? = v.live[i]? :=
  (getElem?_take_of_lt hi).symm

/-! ## Range-for -/

section

variable (get : σ → RawVector α) (body : σ → α → σ)

/-- The iterations from slot `i` on, `n` of them. -/
def rangeFrom : ℕ → ℕ → σ → σ
  | _, 0, s => s
  | i, n + 1, s =>
    match (get s).slots[i]? with
    | none => s
    | some x => rangeFrom (i + 1) n (body s x)

/-- `for (x : v) body`, over the positions the vector starts with; the body may change the vector.
-/
def rangeFor (s : σ) : σ := rangeFrom get body 0 (get s).size s

variable {get body} {P : σ → Prop} {s : σ} {a b : α}

theorem rangeFrom_induction (hstep : ∀ s x, P s → P (body s x)) (i n : ℕ) (h : P s) :
    P (rangeFrom get body i n s) := by
  induction n generalizing i s with
  | zero => exact h
  | succ n ih =>
    rw [rangeFrom]
    cases (get s).slots[i]? with
    | none => exact h
    | some x => exact ih (i + 1) (hstep s x h)

theorem rangeFor_induction (hstep : ∀ s x, P s → P (body s x)) (h : P s) :
    P (rangeFor get body s) :=
  rangeFrom_induction hstep 0 _ h

section

variable (hstep : ∀ s x, P s → x ∈ (get s).live → P (body s x) ∧ get (body s x) = get s)

include hstep

theorem rangeFrom_eq_foldl (i n : ℕ) (hin : i + n = (get s).size) (h : P s) :
    rangeFrom get body i n s = ((get s).live.drop i).foldl body s := by
  induction n generalizing i s with
  | zero =>
    rw [rangeFrom, drop_of_length_le (by rw [length_live]; omega), foldl_nil]
  | succ n ih =>
    have hi : i < (get s).live.length := by
      rw [length_live]
      omega
    have hslot : (get s).slots[i]? = some (get s).live[i] := by
      rw [slots_eq_live (by omega), getElem?_eq_getElem hi]
    obtain ⟨hbody, hget⟩ := hstep s (get s).live[i] h (getElem_mem hi)
    rw [rangeFrom, hslot, drop_eq_getElem_cons hi, foldl_cons]
    dsimp only
    rw [ih (i + 1) (by rw [hget]; omega) hbody, hget]

/-- A loop whose body leaves the vector alone goes through its elements. -/
theorem rangeFor_eq_foldl (h : P s) : rangeFor get body s = (get s).live.foldl body s := by
  rw [rangeFor, rangeFrom_eq_foldl hstep 0 _ (Nat.zero_add _) h, drop_zero]

end

/-! ### Bodies that erase -/

theorem rangeFor_of_live_nil (h : (get s).live = []) : rangeFor get body s = s := by
  have hsize : (get s).size = 0 := by rw [← length_live, h, length_nil]
  rw [rangeFor, hsize, rangeFrom]

theorem rangeFor_of_live_singleton (h : (get s).live = [a]) : rangeFor get body s = body s a := by
  have hsize : (get s).size = 1 := by rw [← length_live, h, length_singleton]
  have hslot : (get s).slots[0]? = some a := by
    rw [slots_eq_live (by omega), h, getElem?_cons_zero]
  simp [rangeFor, hsize, rangeFrom, hslot]

variable [DecidableEq α]

/-- Erasing the first of two elements leaves the second in the slot read next. -/
theorem rangeFor_of_live_pair (h : (get s).live = [a, b])
    (herase : get (body s a) = (get s).erase a) : rangeFor get body s = body (body s a) b := by
  have hsize : (get s).size = 2 := by rw [← length_live, h]; rfl
  have hfirst : (get s).slots[0]? = some a := by
    rw [slots_eq_live (by omega), h, getElem?_cons_zero]
  have hsecond : (get (body s a)).slots[1]? = some b := by
    have ha : a ∈ (get s).live := by rw [h]; exact .head _
    rw [herase, slots_erase ha, if_neg (by omega), slots_eq_live (by omega), h,
      getElem?_cons_succ, getElem?_cons_zero]
  simp [rangeFor, hsize, rangeFrom, hfirst, hsecond]

/-- Of the first `n` slots only the first one, an element's, holds `b`. -/
structure Behind (b : α) (n : ℕ) (v : RawVector α) : Prop where
  first : v.slots[0]? = some b
  others : ∀ i, 0 < i → i < n → v.slots[i]? ≠ some b
  size_pos : 0 < v.size
  size_le : v.size ≤ n

theorem Behind.erase {x : α} {n : ℕ} {v : RawVector α} (h : Behind b n v) (hxb : x ≠ b) :
    Behind b n (v.erase x) := by
  by_cases hx : x ∈ v.live
  swap
  · rwa [erase_of_notMem hx]
  obtain ⟨l, hl⟩ : ∃ l, v.live = b :: l := by
    have hb : v.live[0]? = some b := (slots_eq_live h.size_pos).symm.trans h.first
    rw [← head?_eq_getElem?] at hb
    exact ⟨_, eq_cons_of_mem_head? hb⟩
  have hlen : l.length + 1 = v.size := by rw [← length_live, hl, length_cons]
  have hxl : x ∈ l := by
    rw [hl] at hx
    exact (mem_cons.mp hx).resolve_left hxb
  have hpos : 0 < l.length := length_pos_of_mem hxl
  have hbl : b ∉ l := by
    intro hb
    obtain ⟨i, hi, hbi⟩ := mem_iff_getElem.mp hb
    have hslot : v.slots[i + 1]? = some b := by
      rw [slots_eq_live (by omega), hl, getElem?_cons_succ, getElem?_eq_getElem hi, hbi]
    exact h.others (i + 1) (Nat.succ_pos i) (by have := h.size_le; omega) hslot
  have herase : v.live.erase x = b :: l.erase x := by
    rw [hl, erase_cons_tail (by simpa using hxb.symm)]
  refine ⟨?_, fun i hi hin => ?_, ?_, ?_⟩
  · rw [slots_erase hx, if_pos (by omega), herase, getElem?_cons_zero]
  · rw [slots_erase hx]
    split_ifs with hlt
    · obtain ⟨j, rfl⟩ : ∃ j, i = j + 1 := ⟨i - 1, by omega⟩
      rw [herase]
      exact fun hj => hbl (mem_of_mem_erase (mem_of_getElem? hj))
    · exact h.others i hi hin
  · rw [size_erase hx]
    omega
  · rw [size_erase hx]
    exact (Nat.sub_le _ _).trans h.size_le

theorem rangeFrom_skips (herase : ∀ s x, P s → get (body s x) = (get s).erase x)
    (hstep : ∀ s x, P s → x ≠ b → P (body s x)) {n : ℕ} (i m : ℕ) (hi : 0 < i) (him : i + m ≤ n)
    (hb : Behind b n (get s)) (h : P s) : P (rangeFrom get body i m s) := by
  induction m generalizing i s with
  | zero => exact h
  | succ m ih =>
    rw [rangeFrom]
    cases hslot : (get s).slots[i]? with
    | none => exact h
    | some x =>
      have hxb : x ≠ b := by
        rintro rfl
        exact hb.others i hi (by omega) hslot
      refine ih (i + 1) (Nat.succ_pos i) (by omega) ?_ (hstep s x h hxb)
      rw [herase s x h]
      exact hb.erase hxb

/-- A loop that erases what it reads never reads the second of three or more. -/
theorem rangeFor_skips_second {c : α} {l : List α}
    (herase : ∀ s x, P s → get (body s x) = (get s).erase x)
    (hstep : ∀ s x, P s → x ≠ b → P (body s x)) (hlive : (get s).live = a :: b :: c :: l)
    (hnodup : (get s).live.Nodup) (h : P s) : P (rangeFor get body s) := by
  have hsize : (get s).size = l.length + 3 := by rw [← length_live, hlive]; rfl
  have hfirst : (get s).slots[0]? = some a := by
    rw [slots_eq_live (by omega), hlive, getElem?_cons_zero]
  have ha : a ∈ (get s).live := by rw [hlive]; exact .head _
  rw [hlive, nodup_cons, nodup_cons] at hnodup
  obtain ⟨hab, hbc, -⟩ := hnodup
  have hne : a ≠ b := fun e => hab (e ▸ (.head _))
  have hrest : (get s).live.erase a = b :: c :: l := by rw [hlive, erase_cons_head]
  -- the first iteration moves `b` to the slot just read
  have hbehind : Behind b (l.length + 3) ((get s).erase a) := by
    refine ⟨?_, fun i hi hin => ?_, ?_, ?_⟩
    · rw [slots_erase ha, if_pos (by omega), hrest, getElem?_cons_zero]
    · rw [slots_erase ha]
      split_ifs with hlt
      · obtain ⟨j, rfl⟩ : ∃ j, i = j + 1 := ⟨i - 1, by omega⟩
        rw [hrest]
        exact fun hj => hbc (mem_of_getElem? hj)
      · obtain ⟨j, rfl⟩ : ∃ j, i = j + 2 := ⟨i - 2, by omega⟩
        rw [slots_eq_live (by omega), hlive]
        exact fun hj => hbc (mem_of_getElem? hj)
    · rw [size_erase ha]
      omega
    · rw [size_erase ha]
      omega
  have hbody := herase s a h
  rw [rangeFor, hsize, rangeFrom, hfirst]
  exact rangeFrom_skips herase hstep 1 _ one_pos (by omega) (hbody ▸ hbehind) (hstep s a h hne)

end

end RawVector
