import Mathlib.Data.List.Basic
import Mathlib.Tactic

/-!
# Parsers

Parsers that read a value at the front of a string and leave what follows. `Reads` says that a
parser reads a string back whatever follows it. Items are read one after the other up to a symbol
that ends them (`items`); records of one width are cut out by position (`records`).
-/

namespace Parsing

open List

variable {α β : Type*}

/-- The value at the front of a string, and what follows it. -/
abbrev Parser (β α : Type*) := List β → Option (α × List β)

/-- The parser reads the string as the value, whatever follows. -/
def Reads (p : Parser β α) (w : List β) (a : α) : Prop :=
  ∀ rest, p (w ++ rest) = some (a, rest)

section

universe u

variable {α β γ : Type u} {p : StateT (List β) Option α}

theorem Reads.bind {f : α → StateT (List β) Option γ} {w w' : List β}
    {a : α} {b : γ} (hp : Reads p w a) (hf : Reads (f a) w' b) :
    Reads (p >>= f : StateT (List β) Option γ) (w ++ w') b := by
  intro rest
  change (p ((w ++ w') ++ rest)).bind (fun x => f x.1 x.2) = some (b, rest)
  rw [append_assoc, hp]
  exact hf rest

theorem Reads.pure (a : α) : Reads (Pure.pure a : StateT (List β) Option α) [] a :=
  fun _ => rfl

theorem Reads.map {w : List β} {a : α} (hp : Reads p w a)
    (f : α → γ) : Reads (f <$> p : StateT (List β) Option γ) w (f a) := by
  intro rest
  change (p (w ++ rest)).bind (fun x => some (f x.1, x.2)) = some (f a, rest)
  rw [hp]
  rfl

end

theorem length_le_flatMap {enc : α → List β} {as : List α} (has : ∀ a ∈ as, enc a ≠ []) :
    as.length ≤ (as.flatMap enc).length := by
  induction as with
  | nil => exact le_rfl
  | cons a as ih =>
    have ha := length_pos_of_ne_nil (has a (.head _))
    have hrest := ih fun c hc => has c (.tail _ hc)
    rw [flatMap_cons, length_append, length_cons]
    omega

section

variable [DecidableEq β]

/-- At most `n` items up to the symbol that ends them. -/
def items (item : Parser β α) (stop : β) : ℕ → Parser β (List α)
  | 0, _ => none
  | _ + 1, [] => none
  | n + 1, b :: w =>
    if b = stop then some ([], w)
    else
      match item (b :: w) with
      | none => none
      | some (a, w₁) =>
        match items item stop n w₁ with
        | none => none
        | some (as, w₂) => some (a :: as, w₂)

variable {item : Parser β α} {as : List α} {enc : α → List β}

/-- **Items are read back one after the other.** -/
theorem items_append {stop : β}
    (has : ∀ a ∈ as, Reads item (enc a) a ∧ ∃ b w, enc a = b :: w ∧ b ≠ stop) {n : ℕ}
    (hn : as.length < n) (rest : List β) :
    items item stop n (as.flatMap enc ++ stop :: rest) = some (as, rest) := by
  induction as generalizing n with
  | nil =>
    obtain ⟨n, rfl⟩ := Nat.exists_eq_succ_of_ne_zero (by omega : n ≠ 0)
    simp [items]
  | cons a as ih =>
    obtain ⟨n, rfl⟩ := Nat.exists_eq_succ_of_ne_zero (by omega : n ≠ 0)
    obtain ⟨hreads, b, w, hw, hb⟩ := has a (.head _)
    have hitem := hreads (as.flatMap enc ++ stop :: rest)
    have hrest := ih (fun c hc => has c (.tail _ hc)) (Nat.lt_of_succ_lt_succ hn)
    rw [flatMap_cons]
    rw [hw, cons_append] at hitem ⊢
    simp [items, if_neg hb, hitem, hrest]

theorem items_reads (stop : β)
    (has : ∀ a ∈ as, Reads item (enc a) a ∧ ∃ b w, enc a = b :: w ∧ b ≠ stop) :
    Reads (fun w => items item stop w.length w) (as.flatMap enc ++ [stop]) as := by
  intro rest
  have hlength : as.length ≤ (as.flatMap enc).length := length_le_flatMap fun a ha => by
    obtain ⟨-, b, w, hw, -⟩ := has a ha
    simp [hw]
  rw [append_assoc]
  refine items_append has ?_ rest
  simp only [length_append, length_cons]
  omega

theorem exists_of_mem_items {stop : β} {n : ℕ} {w rest : List β}
    (h : items item stop n w = some (as, rest)) {a : α} (ha : a ∈ as) :
    ∃ w' rest', item w' = some (a, rest') := by
  induction n generalizing w as with
  | zero => cases h
  | succ n ih =>
    cases w with
    | nil => cases h
    | cons b w =>
      rw [items] at h
      split_ifs at h
      · cases h
        cases ha
      split at h
      · cases h
      rename_i a' w₁ hitem
      split at h
      · cases h
      · rename_i as' w₂ hrest
        cases h
        obtain rfl | ha := mem_cons.mp ha
        · exact ⟨b :: w, w₁, hitem⟩
        · exact ih hrest ha

end

/-! ## Records -/

/-- The records of a width, one after the other. -/
def records (width : ℕ) (w : List β) : List (List β) :=
  (List.range (w.length / width)).map fun i => (w.drop (i * width)).take width

/-- **Records are cut out as they were written.** -/
theorem records_flatMap {width : ℕ} (hwidth : 0 < width) (enc : α → List β) {as : List α}
    (has : ∀ a ∈ as, (enc a).length = width) : records width (as.flatMap enc) = as.map enc := by
  induction as with
  | nil => simp [records]
  | cons a as ih =>
    have ha := has a (.head _)
    have hrest := ih fun c hc => has c (.tail _ hc)
    have hcount : ((enc a ++ as.flatMap enc).length) / width =
        (as.flatMap enc).length / width + 1 := by
      rw [length_append, ha, Nat.add_div_left _ hwidth]
    rw [flatMap_cons, records, hcount, range_succ_eq_map, map_cons, map_map, map_cons, Nat.zero_mul,
      drop_zero, take_left' ha, ← hrest]
    refine congrArg _ (map_congr_left fun i _ => ?_)
    have hskip : (i + 1) * width = (enc a).length + i * width := by rw [ha]; ring
    rw [Function.comp_apply, hskip, drop_length_add_append]

end Parsing
