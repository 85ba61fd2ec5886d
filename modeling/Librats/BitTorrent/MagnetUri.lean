import Librats.Core.Types
import Librats.Foundations.BigEndian

/-!
# Base32 info-hashes

`base32_to_info_hash` (`bittorrent/magnet_uri.cpp`) against the base32 of RFC 4648: the 20 bytes of
an info-hash are a number, and its 32 digits in base 32 are the text.
-/

namespace Librats.BitTorrent.MagnetUri

open List

/-- `std::toupper` in the C locale. -/
def toUpper (c : UInt8) : UInt8 := if 97 ≤ c ∧ c ≤ 122 then c - 32 else c

/-- The value of an upper-case base32 character. -/
def digit (c : UInt8) : Option ℕ :=
  if 65 ≤ c ∧ c ≤ 90 then some (c - 65).toNat
  else if 50 ≤ c ∧ c ≤ 55 then some (c - 50 + 26).toNat
  else none

/-- The loop of `base32_to_info_hash`; `out` are the bytes written so far. -/
def decodeBase32 : Bytes → UInt32 → ℕ → Bytes → Option Bytes
  | [], _, _, out => some out
  | c :: rest, bits, bitCount, out => do
    let v ← digit (toUpper c)
    let bits := bits <<< 5 ||| UInt32.ofNat v
    let bitCount := bitCount + 5
    if 8 ≤ bitCount then
      let bitCount := bitCount - 8
      decodeBase32 rest bits bitCount (out ++ [(bits >>> UInt32.ofNat bitCount).toUInt8])
    else decodeBase32 rest bits bitCount out

def base32ToInfoHash (text : Bytes) : Option Bytes :=
  if text.length ≠ 32 then none else decodeBase32 text 0 0 []

/-- The character of a digit in the alphabet of RFC 4648. -/
def character (d : ℕ) : UInt8 := UInt8.ofNat (if d < 26 then 65 + d else 24 + d)

/-- The `w` low digits of a number in base 32, most significant first. -/
def base32 : (w : ℕ) → ℕ → Bytes
  | 0, _ => []
  | w + 1, n => character (n / 32 ^ w % 32) :: base32 w n

/-- The number whose digits are those of `n` and then those of an upper-case text. -/
def number (text : Bytes) (n : ℕ) : ℕ :=
  text.foldl (fun n c => n * 32 + (digit c).getD 0) n

theorem digit_character : ∀ d < 32, digit (character d) = some d := by decide

theorem exists_of_digit {c : UInt8} (h : (digit c).isSome) : ∃ d < 32, c = character d := by
  have hall : ∀ n < 256, (digit (.ofNat n)).isSome → ∃ d < 32, .ofNat n = character d := by
    decide +kernel
  simpa using hall c.toNat c.toNat_lt (by simpa using h)

theorem number_base32 (w n m : ℕ) : number (base32 w n) m = m * 32 ^ w + n % 32 ^ w := by
  induction w generalizing m with
  | zero => simp [base32, number, Nat.mod_one]
  | succ w ih =>
    rw [base32, number, foldl_cons, digit_character _ (Nat.mod_lt _ (by decide)), ← number, ih,
      Nat.mod_pow_succ, Option.getD_some]
    ring

theorem toNat_shift {bits : UInt32} {n d : ℕ} (hbits : bits.toNat = n % 2 ^ 32) (hd : d < 32) :
    (bits <<< 5 ||| UInt32.ofNat d).toNat = (n * 32 + d) % 2 ^ 32 := by
  have hshift : (bits <<< 5).toNat = 2 ^ 5 * (n % 2 ^ 27) := by
    rw [UInt32.toNat_shiftLeft, hbits]
    simp [Nat.shiftLeft_eq]
    omega
  rw [UInt32.toNat_or, hshift, UInt32.toNat_ofNat', Nat.mod_eq_of_lt (hd.trans (by decide)),
    ← Nat.two_pow_add_eq_or_of_lt hd]
  omega

/-- The loop has written the bytes of the number read so far, up to the bits that are left. -/
theorem decodeBase32_eq {text out : Bytes} {bits : UInt32} {bitCount n total : ℕ}
    (h : ∀ c ∈ text, ∃ d < 32, toUpper c = character d) (hbits : bits.toNat = n % 2 ^ 32)
    (hcount : bitCount < 8) (htotal : 8 * out.length + bitCount + 5 * text.length = total)
    (hout : BigEndian.decode out = n / 2 ^ bitCount) : ∃ left out',
      decodeBase32 text bits bitCount out = some out' ∧ left < 8 ∧ 8 * out'.length + left = total ∧
      BigEndian.decode out' = number (text.map toUpper) n / 2 ^ left := by
  induction text generalizing bits bitCount n out with
  | nil => exact ⟨bitCount, out, rfl, hcount, htotal, hout⟩
  | cons c text ih =>
    obtain ⟨d, hd, hc⟩ := h c (.head _)
    have hdigit := digit_character d hd
    have hnext := toNat_shift hbits hd
    have hnumber : number ((c :: text).map toUpper) n = number (text.map toUpper) (n * 32 + d) := by
      rw [map_cons, hc, number, foldl_cons, hdigit, Option.getD_some, number]
    have htext := fun c hc => h c (.tail _ hc)
    rw [decodeBase32, hc, hdigit, hnumber]
    simp only [Option.bind_eq_bind, Option.bind_some]
    rw [length_cons] at htotal
    split_ifs with hfull
    · refine ih htext hnext (by omega) (by simp; omega) ?_
      rw [BigEndian.decode, foldl_append, ← BigEndian.decode, hout]
      simp only [foldl_cons, foldl_nil, UInt32.toNat_toUInt8, UInt32.toNat_shiftRight, hnext]
      interval_cases bitCount <;> simp [Nat.shiftRight_eq_div_pow] <;> omega
    · refine ih htext hnext (by omega) (by omega) ?_
      rw [hout, pow_add, mul_comm (2 ^ bitCount), ← Nat.div_div_eq_div_mul]
      congr 1
      omega

theorem digit_of_decodeBase32 {text out out' : Bytes} {bits : UInt32} {bitCount : ℕ}
    (h : decodeBase32 text bits bitCount out = some out') :
    ∀ c ∈ text, (digit (toUpper c)).isSome := by
  induction text generalizing bits bitCount out with
  | nil => simp
  | cons c text ih =>
    obtain ⟨v, hv, h⟩ := Option.bind_eq_some_iff.mp h
    refine forall_mem_cons.mpr ⟨hv ▸ rfl, ?_⟩
    dsimp only at h
    split_ifs at h
    · exact ih h
    · exact ih h

theorem mem_base32 {w n : ℕ} : ∀ c ∈ base32 w n, ∃ d < 32, c = character d := by
  induction w with
  | zero => simp [base32]
  | succ w ih => exact forall_mem_cons.mpr ⟨⟨_, Nat.mod_lt _ (by decide), rfl⟩, ih⟩

@[simp] theorem length_base32 (w n : ℕ) : (base32 w n).length = w := by
  induction w with
  | zero => rfl
  | succ w ih => rw [base32, length_cons, ih]

/-- **The base32 of an info-hash is decoded**, in whatever case its letters are, and nothing but 32
base32 characters is. -/
theorem base32_decoded (text : Bytes) : (∀ infoHash : Bytes, infoHash.length = 20 →
      text.map toUpper = base32 32 (BigEndian.decode infoHash) →
      base32ToInfoHash text = some infoHash) ∧
    (¬ (text.length = 32 ∧ ∀ c ∈ text, ∃ d < 32, toUpper c = character d) →
      base32ToInfoHash text = none) := by
  constructor
  · intro infoHash hhash h
    have hlength : text.length = 32 := by simpa using congrArg length h
    have htext (c : UInt8) (hc : c ∈ text) : ∃ d < 32, toUpper c = character d :=
      mem_base32 _ (h ▸ mem_map_of_mem hc)
    have hstart : (0 : UInt32).toNat = 0 % 2 ^ 32 ∧ BigEndian.decode [] = 0 / 2 ^ 0 := ⟨rfl, rfl⟩
    obtain ⟨left, out, hout, hleft, hcount, hdecode⟩ :=
      decodeBase32_eq htext hstart.1 (by decide) rfl hstart.2
    rw [length_nil, hlength] at hcount
    obtain ⟨rfl, hbytes⟩ : left = 0 ∧ out.length = infoHash.length := by omega
    have hlt : BigEndian.decode infoHash < 32 ^ 32 :=
      (BigEndian.foldl_lt infoHash 0).trans_eq (by rw [hhash]; norm_num)
    rw [h, number_base32, Nat.mod_eq_of_lt hlt, zero_mul, zero_add, pow_zero, Nat.div_one] at hdecode
    rw [base32ToInfoHash, if_neg (not_not.mpr hlength), hout, (BigEndian.foldl_inj hbytes hdecode).2]
  · intro h
    by_contra hsome
    obtain ⟨out, hout⟩ := Option.ne_none_iff_exists'.mp hsome
    unfold base32ToInfoHash at hout
    split_ifs at hout with hlength
    exact h ⟨not_not.mp hlength, fun c hc => exists_of_digit (digit_of_decodeBase32 hout c hc)⟩

end Librats.BitTorrent.MagnetUri
