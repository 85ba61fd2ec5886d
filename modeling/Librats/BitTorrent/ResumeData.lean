import Librats.BitTorrent.Bencode

/-!
# Resume data

The record of `bittorrent/resume_data.cpp` by which a torrent picks up where it left off, and the
`Bitfield` in it (`bittorrent/bitfield.cpp`). The number of bits is written as a signed number and
compared with the number of bytes when it is read.
-/

namespace Librats.BitTorrent

open BencodeValue Bencode

/-- `Bitfield::clear_trailing_bits`, on the bytes of a bitfield. -/
def clearTrailingBits (bits : UInt64) (bytes : Bytes) : Bytes :=
  if bits &&& 7 = 0 then bytes
  else bytes.modify (bytes.length - 1) (· &&& UInt8.ofNat (0xFF <<< (8 - (bits &&& 7).toNat)))

/-- `Bitfield`: as many bytes as the bits take, with zero spare bits in the last one. -/
structure Bitfield where
  bytes : Bytes
  bits : UInt64
  length_bytes : bytes.length = ((bits + 7) / 8).toNat
  spare : clearTrailingBits bits bytes = bytes

theorem length_clearTrailingBits (bits : UInt64) (bytes : Bytes) :
    (clearTrailingBits bits bytes).length = bytes.length := by
  unfold clearTrailingBits
  split_ifs
  · rfl
  · exact List.length_modify ..

namespace Bitfield

def empty : Bitfield := ⟨[], 0, rfl, rfl⟩

def assign (data : Bytes) (bits : UInt64) : Bitfield where
  bytes := clearTrailingBits bits (data.takeD ((bits + 7) / 8).toNat 0)
  bits := bits
  length_bytes := by rw [length_clearTrailingBits, List.takeD_length]
  spare := by
    unfold clearTrailingBits
    split_ifs
    · rfl
    · rw [List.length_modify, List.modify_modify_eq]
      congr 1
      funext b
      exact (UInt8.and_assoc _ _ _).trans (by rw [UInt8.and_self])

theorem assign_bytes (b : Bitfield) : assign b.bytes b.bits = b := by
  obtain ⟨bytes, bits, hlength, hspare⟩ := b
  have hall : bytes.takeD ((bits + 7) / 8).toNat 0 = bytes := by
    rw [List.takeD_eq_take _ hlength.ge, List.take_of_length_le hlength.le]
  simp only [assign, hall, hspare]

end Bitfield

structure ResumeData where
  infoHash : Vector UInt8 20 := .replicate 20 0
  name : Bytes := []
  savePath : Bytes := []
  have_ : Bitfield := .empty
  totalUploaded : UInt64 := 0
  totalDownloaded : UInt64 := 0
  infoDict : Bytes := []

namespace ResumeData

def kFormatTag : Bytes := ascii "librats resume"

/-- The dictionary of a record. -/
def dict (rd : ResumeData) : BencodeDict :=
  BencodeDict.insertWhen (rd.infoDict ≠ []) (ascii "info") (.string rd.infoDict) <|
  .insertKey (ascii "downloaded") (.integer rd.totalDownloaded.toInt64) <|
  .insertKey (ascii "uploaded") (.integer rd.totalUploaded.toInt64) <|
  .insertKey (ascii "pieces") (.string rd.have_.bytes) <|
  .insertKey (ascii "num-pieces") (.integer rd.have_.bits.toInt64) <|
  .insertKey (ascii "save-path") (.string rd.savePath) <|
  .insertKey (ascii "name") (.string rd.name) <|
  .insertKey (ascii "info-hash") (.string rd.infoHash.toList) <|
  .insertKey (ascii "version") (.integer 1) <|
  .insertKey (ascii "format") (.string kFormatTag) []

def encode (rd : ResumeData) : Bytes := (dictionary rd.dict).encode

/-- The bitfield of a record, whose size has to be that of its bytes. -/
def readHave (d : BencodeValue) : Option Bitfield :=
  let numPieces := (((d.find (ascii "num-pieces")).bind asInteger).filter (0 ≤ ·)).getD 0
  match (d.find (ascii "pieces")).bind asString with
  | none => some .empty
  | some bytes =>
    if ((numPieces + 7) / 8).toUInt64.toNat ≠ bytes.length then none
    else some (.assign bytes numPieces.toUInt64)

/-- `ResumeData::decode`. What is no dictionary has no format. -/
def decode (data : Bytes) : Option ResumeData := do
  let d ← Bencode.decode data
  let string key := (d.find (ascii key)).bind asString
  let counter key := (((d.find (ascii key)).bind asInteger).map Int64.toUInt64).getD 0
  if string "format" ≠ some kFormatTag then none
  else
    let have_ ← readHave d
    let hash := (string "info-hash").getD []
    return {
      infoHash := if h : hash.length = 20 then ⟨hash.toArray, h⟩ else .replicate 20 0
      name := (string "name").getD []
      savePath := (string "save-path").getD []
      have_
      totalUploaded := counter "uploaded"
      totalDownloaded := counter "downloaded"
      infoDict := (string "info").getD [] }

theorem decode_encode_dict (rd : ResumeData) :
    Bencode.decode rd.encode = some (dictionary rd.dict) := by
  refine decode_encode (.insertWhen ?_ (canonical_string 99 _) _ _)
  have hs := canonical_string 99
  have hi := canonical_integer 99
  exact canonical_empty 99 |>.insertKey (hs _) _ |>.insertKey (hi _) _ |>.insertKey (hs _) _
    |>.insertKey (hs _) _ |>.insertKey (hs _) _ |>.insertKey (hi _) _ |>.insertKey (hs _) _
    |>.insertKey (hi _) _ |>.insertKey (hi _) _

theorem toInt_toInt64 {x : UInt64} (h : x.toNat < 2 ^ 63) : x.toInt64.toInt = x.toNat := by
  rw [← Int64.toInt_toBitVec, UInt64.toBitVec_toInt64]
  exact BitVec.toInt_eq_toNat_of_lt (by simp; omega)

theorem bytes_toInt64 {x : UInt64} (h : x.toNat + 7 < 2 ^ 63) :
    (0 : Int64) ≤ x.toInt64 ∧ (x.toInt64 + 7) / 8 = ((x + 7) / 8).toInt64 := by
  have hint : x.toInt64.toInt = x.toNat := toInt_toInt64 (by omega)
  refine ⟨Int64.le_iff_toInt_le.mpr (hint ▸ Int.natCast_nonneg _), Int64.toInt_inj.mp ?_⟩
  have hsum : (x + 7).toNat = x.toNat + 7 := Nat.mod_eq_of_lt (by simp; omega)
  have hquot : ((x + 7) / 8).toNat = (x.toNat + 7) / 8 := by
    rw [UInt64.toNat_div, hsum]
    rfl
  rw [toInt_toInt64 (by omega), Int64.toInt_div, Int64.toInt_add, hint, hquot]
  change (((x.toNat + 7 : ℤ).bmod (2 ^ 64)).tdiv 8).bmod (2 ^ 64) = _
  rw [Int.bmod_eq_of_le (n := x.toNat + 7) (by omega) (by omega),
    Int.tdiv_eq_ediv_of_nonneg (by omega), Int.bmod_eq_of_le (by omega) (by omega)]
  rfl

theorem readHave_dict {rd : ResumeData} (h : rd.have_.bits.toNat + 7 < 2 ^ 63) :
    readHave (dictionary rd.dict) = some rd.have_ := by
  obtain ⟨hpos, hbytes⟩ := bytes_toInt64 h
  simp +decide [readHave, dict, Option.filter, hpos, hbytes, rd.have_.length_bytes,
    Bitfield.assign_bytes]

/-- **Resume data comes back** as it was written, if its bitfield has a size that fits. -/
theorem resumeData_round_trip (rd : ResumeData) (h : rd.have_.bits.toNat + 7 < 2 ^ 63) :
    decode rd.encode = some rd := by
  have hdict : ((if rd.infoDict = [] then none
      else some (string rd.infoDict)).bind asString).getD [] = rd.infoDict := by
    split_ifs with hnil
    · exact hnil.symm
    · rfl
  simp only [decode, decode_encode_dict, readHave_dict h, Option.bind_eq_bind, Option.bind_some]
  simp +decide [dict, hdict]
  rfl

/-- The first and the third of three pieces, with counters that are negative numbers in bencode. -/
def twoPieces : ResumeData where
  name := ascii "a"
  savePath := ascii "/tmp"
  have_ := .assign [0xA0] 3
  totalUploaded := 0x8000000000000001
  totalDownloaded := -1
  infoDict := ascii "d4:name1:ae"

theorem resumeData_round_trip_twoPieces : decode twoPieces.encode = some twoPieces :=
  resumeData_round_trip twoPieces (by decide)

/-- The number of bytes of so many bits wraps to none, and the bits are read as none. -/
def oversized : ResumeData := { have_ := ⟨[], -1, rfl, rfl⟩ }

theorem oversized_lost : (decode oversized.encode).map (·.have_.bits) = some 0 ∧
    oversized.have_.bits = 18446744073709551615 := by
  refine ⟨?_, rfl⟩
  simp only [decode, decode_encode_dict, Option.bind_eq_bind, Option.bind_some]
  decide +kernel

end ResumeData

end Librats.BitTorrent
