import Mathlib.Data.List.Basic
import Mathlib.Tactic

/-!
# Big-endian numbers in byte strings

Numbers as big-endian byte strings of a fixed width (`encode`, `decode`), reads at a position of a
buffer that fail beyond its end (`readNat`, `readBytes`), and the rules by which what was written
field after field is read back (`Rest`).
-/

namespace BigEndian

open List

/-- The `w` low bytes of a number, most significant first. -/
def encode : (w : ℕ) → ℕ → List UInt8
  | 0, _ => []
  | w + 1, n => UInt8.ofNat (n / 256 ^ w) :: encode w n

/-- The number a byte string stands for. -/
def decode (l : List UInt8) : ℕ :=
  l.foldl (fun n b => n * 256 + b.toNat) 0

@[simp] theorem length_encode (w n : ℕ) : (encode w n).length = w := by
  induction w with
  | zero => rfl
  | succ w ih => rw [encode, length_cons, ih]

theorem foldl_encode (w n m : ℕ) :
    (encode w n).foldl (fun n b => n * 256 + b.toNat) m = m * 256 ^ w + n % 256 ^ w := by
  induction w generalizing m with
  | zero => simp [encode, Nat.mod_one]
  | succ w ih =>
    rw [encode, foldl_cons, ih, UInt8.toNat_ofNat', Nat.mod_pow_succ (k := w)]
    ring

variable {w n pos : ℕ} {buf rest field : List UInt8}

theorem decode_encode (h : n < 256 ^ w) : decode (encode w n) = n := by
  rw [decode, foldl_encode, Nat.zero_mul, Nat.zero_add, Nat.mod_eq_of_lt h]

theorem foldl_lt (l : List UInt8) (m : ℕ) :
    l.foldl (fun n b => n * 256 + b.toNat) m < (m + 1) * 256 ^ l.length := by
  induction l generalizing m with
  | nil => simp
  | cons b l ih =>
    have hb := b.toNat_lt
    calc (b :: l).foldl (fun n b => n * 256 + b.toNat) m
        < (m * 256 + b.toNat + 1) * 256 ^ l.length := ih _
      _ ≤ ((m + 1) * 256) * 256 ^ l.length := Nat.mul_le_mul_right _ (by omega)
      _ = (m + 1) * 256 ^ (b :: l).length := by rw [length_cons]; ring

theorem foldl_inj {l l' : List UInt8} {m m' : ℕ} (hlen : l.length = l'.length)
    (h : l.foldl (fun n b => n * 256 + b.toNat) m = l'.foldl (fun n b => n * 256 + b.toNat) m') :
    m = m' ∧ l = l' := by
  induction l generalizing l' m m' with
  | nil =>
    cases l' with
    | nil => exact ⟨h, rfl⟩
    | cons => cases hlen
  | cons b l ih =>
    cases l' with
    | nil => cases hlen
    | cons b' l' =>
      obtain ⟨hm, rfl⟩ := ih (Nat.succ.inj hlen) h
      dsimp only at hm
      have hb := b.toNat_lt
      have hb' := b'.toNat_lt
      obtain rfl : b = b' := UInt8.toNat_inj.mp (by omega)
      exact ⟨by omega, rfl⟩

/-! ## Reading at a position -/

/-- The `n` bytes at a position, if the buffer has them. -/
def readBytes (buf : List UInt8) (pos n : ℕ) : Option (List UInt8) :=
  if pos + n ≤ buf.length then some ((buf.drop pos).take n) else none

/-- The number in the `w` bytes at a position, if the buffer has them. -/
def readNat (buf : List UInt8) (pos w : ℕ) : Option ℕ :=
  (readBytes buf pos w).map decode

theorem length_of_readBytes {b : List UInt8} (h : readBytes buf pos n = some b) : b.length = n := by
  unfold readBytes at h
  split_ifs at h with hn
  rw [← Option.some_inj.mp h, length_take, length_drop]
  omega

theorem lt_of_readNat (h : readNat buf pos w = some n) : n < 256 ^ w := by
  rw [readNat, Option.map_eq_some_iff] at h
  obtain ⟨b, hb, rfl⟩ := h
  rw [← length_of_readBytes hb]
  simpa [decode] using foldl_lt b 0

theorem readBytes_take {m : ℕ} (h : pos + n ≤ m) :
    readBytes (buf.take m) pos n = readBytes buf pos n := by
  simp only [readBytes, length_take, le_min_iff, h, true_and, drop_take, take_take]
  rw [min_eq_left (by omega)]

theorem readNat_take {m : ℕ} (h : pos + w ≤ m) : readNat (buf.take m) pos w = readNat buf pos w := by
  rw [readNat, readBytes_take h, readNat]

/-- From `pos` on the buffer holds `rest`. -/
def Rest (buf : List UInt8) (pos : ℕ) (rest : List UInt8) : Prop :=
  ∃ before, buf = before ++ rest ∧ before.length = pos

theorem Rest.append_left (before rest : List UInt8) : Rest (before ++ rest) before.length rest :=
  ⟨before, rfl, rfl⟩

theorem Rest.skip (h : Rest buf pos (field ++ rest)) (hn : field.length = n) :
    Rest buf (pos + n) rest := by
  obtain ⟨before, rfl, rfl⟩ := h
  exact ⟨before ++ field, (append_assoc ..).symm, by rw [length_append, hn]⟩

theorem Rest.length_le (h : Rest buf pos rest) : pos + rest.length = buf.length := by
  obtain ⟨before, rfl, rfl⟩ := h
  rw [length_append]

theorem Rest.readBytes_eq (h : Rest buf pos (field ++ rest))
    (hn : field.length = n) : readBytes buf pos n = some field := by
  have hl := h.length_le
  obtain ⟨before, rfl, rfl⟩ := h
  rw [length_append] at hl
  rw [readBytes, if_pos (by omega), drop_left, ← hn, take_left]

theorem Rest.readNat_eq (h : Rest buf pos (encode w n ++ rest)) (hn : n < 256 ^ w) :
    readNat buf pos w = some n := by
  rw [readNat, h.readBytes_eq (length_encode w n), Option.map_some, decode_encode hn]

end BigEndian
