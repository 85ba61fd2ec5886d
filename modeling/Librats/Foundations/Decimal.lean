import Mathlib.Data.Nat.Digits.Lemmas
import Mathlib.Tactic

/-!
# Decimal numbers in byte strings

Natural numbers as decimal digits in ASCII (`encode`), and the loop that reads digits as long as
there are some and checks before each one that the number will fit (`scan`).
-/

namespace Decimal

open List

def isDigit (b : UInt8) : Bool := 48 ≤ b && b ≤ 57

def digit (b : UInt8) : ℕ := b.toNat - 48

/-- The number that a string of digits appends to `n`. -/
def value (n : ℕ) (l : List UInt8) : ℕ := l.foldl (fun n b => n * 10 + digit b) n

/-- The decimal digits of a number. -/
def encode (n : ℕ) : List UInt8 :=
  if n = 0 then [48] else (Nat.digits 10 n).reverse.map fun d => UInt8.ofNat (48 + d)

/-- Read digits as long as there are some; `fits` is asked before each. -/
def scan (fits : ℕ → ℕ → Bool) : ℕ → List UInt8 → Option (ℕ × List UInt8)
  | n, [] => some (n, [])
  | n, b :: l =>
    if isDigit b then
      if fits n (digit b) then scan fits (n * 10 + digit b) l else none
    else some (n, b :: l)

theorem toNat_ofDigit {d : ℕ} (h : d < 10) : (UInt8.ofNat (48 + d)).toNat = 48 + d := by
  rw [UInt8.toNat_ofNat']
  omega

theorem isDigit_ofDigit {d : ℕ} (h : d < 10) : isDigit (UInt8.ofNat (48 + d)) = true := by
  simp only [isDigit, Bool.and_eq_true, decide_eq_true_eq, UInt8.le_iff_toNat_le, toNat_ofDigit h]
  exact ⟨Nat.le_add_right 48 d, show 48 + d ≤ 57 by omega⟩

theorem isDigit_encode (n : ℕ) : ∀ b ∈ encode n, isDigit b = true := by
  intro b hb
  unfold encode at hb
  split_ifs at hb with hn
  · rw [mem_singleton.mp hb]
    rfl
  · obtain ⟨d, hd, rfl⟩ := mem_map.mp hb
    exact isDigit_ofDigit (Nat.digits_lt_base (by norm_num) (mem_reverse.mp hd))

variable {n : ℕ}

theorem encode_of_pos (h : n ≠ 0) : ∃ b l, encode n = b :: l ∧ b ≠ 48 ∧ isDigit b = true := by
  have hne : Nat.digits 10 n ≠ [] := Nat.digits_ne_nil_iff_ne_zero.mpr h
  obtain ⟨ds, d, hds⟩ := eq_nil_or_concat' (Nat.digits 10 n) |>.resolve_left hne
  have hd : d < 10 := Nat.digits_lt_base (by norm_num) (by rw [hds]; simp)
  have hpos : d ≠ 0 := by
    have := Nat.getLast_digit_ne_zero 10 h
    simpa [hds] using this
  refine ⟨UInt8.ofNat (48 + d), ds.reverse.map fun d => UInt8.ofNat (48 + d), ?_, ?_,
    isDigit_ofDigit hd⟩
  · rw [encode, if_neg h, hds]
    simp
  · intro heq
    have := congrArg UInt8.toNat heq
    rw [toNat_ofDigit hd] at this
    exact hpos (Nat.add_left_cancel this)

theorem value_encode (n : ℕ) : value 0 (encode n) = n := by
  unfold encode
  split_ifs with h
  · exact h.symm
  have hdigit : ∀ d ∈ Nat.digits 10 n, digit (UInt8.ofNat (48 + d)) = d := by
    intro d hd
    rw [digit, toNat_ofDigit (Nat.digits_lt_base (by norm_num) hd)]
    exact Nat.add_sub_cancel_left 48 d
  rw [value, map_reverse, foldl_reverse, foldr_map]
  conv_rhs => rw [← Nat.ofDigits_digits 10 n, Nat.ofDigits_eq_foldr]
  refine foldr_ext _ _ 0 fun d hd m => ?_
  rw [hdigit d hd]
  push_cast
  ring

theorem le_value (n : ℕ) (l : List UInt8) : n ≤ value n l := by
  induction l generalizing n with
  | nil => exact le_rfl
  | cons b l ih => exact le_trans (by omega) (ih (n * 10 + digit b))

section

variable {fits : ℕ → ℕ → Bool} {limit : ℕ}
  (hfits : ∀ n d, d < 10 → n * 10 + d ≤ limit → fits n d = true)

include hfits

theorem scan_append {l rest : List UInt8}
    (hl : ∀ b ∈ l, isDigit b = true) (hrest : ∀ b ∈ rest.head?, isDigit b = false)
    (hvalue : value n l ≤ limit) : scan fits n (l ++ rest) = some (value n l, rest) := by
  induction l generalizing n with
  | nil =>
    cases rest with
    | nil => rfl
    | cons b rest => simp [scan, value, hrest b rfl]
  | cons b l ih =>
    have hb := hl b (.head _)
    have hdigit : digit b < 10 := by
      simp only [isDigit, Bool.and_eq_true, decide_eq_true_eq] at hb
      have : b.toNat ≤ 57 := hb.2
      rw [digit]
      omega
    have hstep := hfits n (digit b) hdigit (le_trans (le_value _ l) hvalue)
    rw [cons_append, scan, if_pos hb, if_pos hstep]
    exact ih (fun c hc => hl c (.tail _ hc)) hvalue

theorem scan_encode (hn : n ≤ limit)
    {rest : List UInt8} (hrest : ∀ b ∈ rest.head?, isDigit b = false) :
    scan fits 0 (encode n ++ rest) = some (n, rest) := by
  have h := scan_append hfits (isDigit_encode n) hrest (by rwa [value_encode])
  rwa [value_encode] at h

end

end Decimal
