import Librats.BitTorrent.ResumeData

/-!
# Metadata messages

`encode_metadata_data` and `decode_metadata` (`bittorrent/extensions.cpp`): a bencoded header, the
end of which a scanner finds, with the block behind it.
-/

namespace Librats.BitTorrent.Extensions

open List BencodeValue Bencode

/-- `MetadataMessage`; the type of a data message is 1. -/
structure MetadataMessage where
  type : UInt8
  piece : UInt32
  totalSize : UInt32 := 0
  block : Bytes := []

/-- The length of a string as it is computed, with 64 bits. -/
def stringLength (digits : Bytes) : ℕ :=
  digits.foldl (fun len b => (len * 10 + b.toNat + (2 ^ 64 - 48)) % 2 ^ 64) 0

mutual

/-- `bencode_value_length`, 0 for what is malformed, with a bound on the steps. -/
def valueLength (d : Bytes) : ℕ → ℕ → ℕ
  | 0, _ => 0
  | fuel + 1, pos =>
    match d.drop pos with
    | [] => 0
    | c :: rest =>
      if c = 105 then if 101 ∈ rest then rest.idxOf 101 + 2 else 0
      else if c = 108 ∨ c = 100 then
        match itemsEnd d fuel (pos + 1) with
        | some p => if p < d.length then p + 1 - pos else 0
        | none => 0
      else if Decimal.isDigit c ∧ 58 ∈ rest then
        let digits := (c :: rest).takeWhile (· ≠ 58)
        let total := (digits.length + 1 + stringLength digits) % 2 ^ 64
        if (pos + total) % 2 ^ 64 ≤ d.length then total else 0
      else 0

/-- The loop over items, up to an `e` or the end of the data. -/
def itemsEnd (d : Bytes) : ℕ → ℕ → Option ℕ
  | 0, _ => none
  | fuel + 1, p =>
    if d[p]? = none ∨ d[p]? = some 101 then some p
    else
      let len := valueLength d fuel p
      if len = 0 then none else itemsEnd d fuel ((p + len) % 2 ^ 64)

end

def metadataHeader (piece totalSize : UInt32) : BencodeValue :=
  dictionary <| BencodeDict.insertKey (ascii "total_size") (.integer totalSize.toUInt64.toInt64) <|
    .insertKey (ascii "piece") (.integer piece.toUInt64.toInt64) <|
    .insertKey (ascii "msg_type") (.integer 1) []

def encodeMetadataData (piece totalSize : UInt32) (block : Bytes) : Bytes :=
  (metadataHeader piece totalSize).encode ++ block

def decodeMetadata (fuel : ℕ) (payload : Bytes) : Option MetadataMessage := do
  let headerLen := valueLength payload fuel 0
  if headerLen = 0 then none
  else
    let d ← decode (payload.take headerLen)
    let findInt key := ((d.find (ascii key)).bind asInteger).map Int64.toUInt64
    let type ← findInt "msg_type"
    let piece ← findInt "piece"
    if type.toUInt8 = 1 then
      let totalSize := (findInt "total_size").getD 0
      return ⟨1, piece.toUInt32, totalSize.toUInt32, payload.drop headerLen⟩
    else return { type := type.toUInt8, piece := piece.toUInt32 }

/-- The scanner finds the end of the item, wherever it stands. -/
def Measured (x : Bytes) : Prop :=
  (∃ b l, x = b :: l ∧ b ≠ 101) ∧ ∀ d fuel p rest, d.drop p = x ++ rest →
    p + x.length < 2 ^ 64 → valueLength d (fuel + 1) p = x.length

theorem measured_appendStr {s : Bytes} (h : stringLength (Decimal.encode s.length) = s.length) :
    Measured (appendStr s) := by
  obtain ⟨c, digits, heq, hc⟩ := head?_encode s.length
  have hdigit := Decimal.isDigit_encode s.length
  rw [heq] at h hdigit
  have hne {b : UInt8} (hb : Decimal.isDigit b = false) : c ≠ b := by
    rintro rfl
    cases hc.symm.trans hb
  rw [appendStr, heq, cons_append]
  refine ⟨⟨_, _, rfl, hne rfl⟩, fun d fuel p rest hd hp => ?_⟩
  have htake : (c :: (digits ++ 58 :: s ++ rest)).takeWhile (· ≠ 58) = c :: digits := by
    rw [append_assoc, ← cons_append, takeWhile_append_of_pos]
    · simp
    · exact fun b hb => decide_eq_true fun h58 => by cases h58 ▸ hdigit b hb
  have hlength := congrArg length hd
  rw [valueLength, hd, cons_append]
  simp only [hne (b := 105) rfl, hne (b := 108) rfl, hne (b := 100) rfl, htake, h, hc, or_self,
    if_false]
  simp only [length_cons, length_append, length_drop] at hlength hp ⊢
  rw [if_pos ⟨trivial, by simp⟩, Nat.mod_eq_of_lt (by omega), Nat.mod_eq_of_lt (by omega),
    if_pos (by omega)]
  omega

theorem itemsEnd_eq (d : Bytes) {p : ℕ} {rest : Bytes} (fuel : ℕ) {items : List Bytes}
    (h : ∀ x ∈ items, Measured x) (hd : d.drop p = items.flatten ++ 101 :: rest)
    (hp : p + items.flatten.length < 2 ^ 64) :
    itemsEnd d (fuel + items.length + 1) p = some (p + items.flatten.length) := by
  have hget : d[p]? = (d.drop p)[0]? := by rw [getElem?_drop, add_zero]
  induction items generalizing p with
  | nil => simp [itemsEnd, hget, hd]
  | cons x items ih =>
    -- the first item is measured whatever follows it
    obtain ⟨⟨b, l, hx, hb⟩, hmeasured⟩ := h x (.head _)
    rw [flatten_cons, append_assoc] at hd
    rw [flatten_cons, length_append, ← add_assoc] at hp ⊢
    have hrest : d.drop (p + x.length) = items.flatten ++ 101 :: rest := by
      rw [← drop_drop, hd, drop_left]
    rw [length_cons, ← add_assoc, itemsEnd, if_neg (by simp [hget, hd, hx, hb]),
      hmeasured d _ p _ hd (by omega), if_neg (by simp [hx]), Nat.mod_eq_of_lt (by omega)]
    exact ih (fun y hy => h y (.tail _ hy)) hrest hp (by rw [getElem?_drop, add_zero])

theorem toText_eq (x : UInt32) : toText x.toUInt64.toInt64 = Decimal.encode x.toNat := by
  have hlt := x.toNat_lt
  rw [toText, ResumeData.toInt_toInt64 (by simp; omega)]
  simp

theorem length_encode_le (n : ℕ) : (Decimal.encode n).length ≤ n + 1 := by
  unfold Decimal.encode
  split_ifs with hn
  · simp
  · rw [length_map, length_reverse, Nat.length_digits 10 n (by decide) hn]
    exact Nat.succ_le_succ (Nat.log_le_self 10 n)

theorem measured_integer (x : UInt32) : Measured (integer x.toUInt64.toInt64).encode := by
  rw [encode, toText_eq]
  refine ⟨⟨_, _, rfl, by decide⟩, fun d fuel p rest hd _ => ?_⟩
  have hdigits : 101 ∉ Decimal.encode x.toNat := fun h => by cases Decimal.isDigit_encode _ _ h
  rw [valueLength, hd]
  simp [idxOf_append, hdigits]

variable (piece totalSize : UInt32) (block : Bytes) (fuel : ℕ)

/-- What stands between the `d` and the `e` of a header. -/
def headerItems : List Bytes :=
  [appendStr (ascii "msg_type"), (integer 1).encode,
    appendStr (ascii "piece"), (integer piece.toUInt64.toInt64).encode,
    appendStr (ascii "total_size"), (integer totalSize.toUInt64.toInt64).encode]

theorem encode_metadataHeader : (metadataHeader piece totalSize).encode =
    100 :: ((headerItems piece totalSize).flatten ++ [101]) := by
  simp +decide [metadataHeader, BencodeDict.insertKey, encode, encodeEntries, headerItems]

theorem measured_headerItems : ∀ x ∈ headerItems piece totalSize, Measured x := by
  simp only [headerItems, forall_mem_cons]
  refine ⟨measured_appendStr ?_, measured_integer 1, measured_appendStr ?_, measured_integer piece,
    measured_appendStr ?_, measured_integer totalSize, nofun⟩
  all_goals simp [ascii, Decimal.encode, stringLength]

theorem length_headerItems : (headerItems piece totalSize).flatten.length < 2 ^ 63 := by
  have hpiece := (length_encode_le piece.toNat).trans_lt (Nat.succ_lt_succ piece.toNat_lt)
  have htotal := (length_encode_le totalSize.toNat).trans_lt (Nat.succ_lt_succ totalSize.toNat_lt)
  simp only [headerItems, encode, toText_eq, flatten_cons, length_append, length_cons]
  generalize Decimal.encode piece.toNat = a at *
  generalize Decimal.encode totalSize.toNat = b at *
  simp [appendStr, ascii, toText, Decimal.encode]
  omega

theorem valueLength_header : valueLength (encodeMetadataData piece totalSize block) (fuel + 8) 0 =
    (metadataHeader piece totalSize).encode.length := by
  have hsmall := length_headerItems piece totalSize
  have hitems : itemsEnd (100 :: (_ ++ 101 :: block)) (fuel + 7) 1 = some (1 + _) :=
    itemsEnd_eq _ fuel (measured_headerItems piece totalSize) rfl (by omega)
  rw [encodeMetadataData, encode_metadataHeader, cons_append, append_assoc, singleton_append,
    valueLength, drop_zero]
  generalize (headerItems piece totalSize).flatten = l at *
  simp [hitems]
  rw [if_pos (by omega), add_comm 1]

/-- **Metadata messages come back**, whatever the block. -/
theorem metadata_round_trip : decodeMetadata (fuel + 8) (encodeMetadataData piece totalSize block) =
    some ⟨1, piece, totalSize, block⟩ := by
  have hcanonical : Canonical kMaxDepth (metadataHeader piece totalSize) :=
    canonical_empty 99 |>.insertKey (canonical_integer 99 _) _
      |>.insertKey (canonical_integer 99 _) _ |>.insertKey (canonical_integer 99 _) _
  rw [decodeMetadata, valueLength_header, encodeMetadataData, take_left, drop_left,
    decode_encode hcanonical]
  simp +decide [metadataHeader, encode]

end Librats.BitTorrent.Extensions
