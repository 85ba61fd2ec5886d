import Mathlib.Data.List.Lex
import Mathlib.Data.Prod.Lex
import Librats.Foundations.BigEndian

/-!
# Entries of the store

`StorageEntry` (`storage/storage.cpp`) with its checksum, its wire format and the Last-Write-Wins
comparison `winsOver`, which is that of the stamps `(timestampMs, originPeerId)` in a linear order
(`winsOver_iff_stamp_lt`).
-/

namespace Librats.Storage

open BigEndian List Option

/-- The bytes of a `std::string` or a `std::vector<uint8_t>`. -/
abbrev Bytes := List UInt8

/-! ## The checksum -/

/-- One round of `CRC32::init_table`. -/
def crc32Round (crc : UInt32) : UInt32 :=
  if crc &&& 1 ≠ 0 then (crc >>> 1) ^^^ 0xEDB88320 else crc >>> 1

/-- The entry of the table `CRC32::table_` for a byte. -/
def crc32Table (i : UInt32) : UInt32 :=
  crc32Round^[8] i

/-- `CRC32::update` for one byte. -/
def crc32Update (crc : UInt32) (byte : UInt8) : UInt32 :=
  (crc >>> 8) ^^^ crc32Table ((crc ^^^ byte.toUInt32) &&& 0xFF)

/-- `CRC32::calculate`. -/
def crc32 (data : Bytes) : UInt32 :=
  data.foldl crc32Update 0xFFFFFFFF ^^^ 0xFFFFFFFF

/-! ## Entries -/

/-- `StorageEntry`. The type is the byte of the wire: `deserialize` casts any byte. -/
structure StorageEntry where
  key : Bytes
  type : UInt8
  data : Bytes
  timestampMs : UInt64
  originPeerId : Bytes
  checksum : UInt32
  deleted : Bool
  deriving DecidableEq, Repr

namespace StorageEntry

variable (e : StorageEntry)

/-- The byte of the flag `deleted`. -/
def deletedByte : UInt8 := if e.deleted then 1 else 0

/-- What `calculate_checksum` runs the CRC over. -/
def checksumInput : Bytes :=
  e.key ++ [e.type] ++ e.data ++ encode 8 e.timestampMs.toNat ++ e.originPeerId ++ [e.deletedByte]

def calculateChecksum : StorageEntry :=
  { e with checksum := crc32 e.checksumInput }

def verifyChecksum : Bool :=
  e.calculateChecksum.checksum == e.checksum

/-- The constructor of a live entry. -/
def new (key : Bytes) (type : UInt8) (data : Bytes) (timestampMs : UInt64) (originPeerId : Bytes) :
    StorageEntry :=
  calculateChecksum ⟨key, type, data, timestampMs, originPeerId, 0, false⟩

@[simp] theorem verifyChecksum_calculateChecksum : e.calculateChecksum.verifyChecksum = true :=
  beq_self_eq_true _

/-! ## Last-Write-Wins -/

/-- `StorageEntry::wins_over`; strings are compared byte by byte. -/
def winsOver (e other : StorageEntry) : Bool :=
  if e.timestampMs ≠ other.timestampMs then decide (other.timestampMs < e.timestampMs)
  else decide (other.originPeerId < e.originPeerId)

/-- The pair `winsOver` compares, as an element of a linear order. -/
def stamp : ℕ ×ₗ List ℕ :=
  toLex (e.timestampMs.toNat, e.originPeerId.map UInt8.toNat)

theorem bytes_lt_iff (a b : Bytes) : a < b ↔ a.map UInt8.toNat < b.map UInt8.toNat := by
  induction a generalizing b with
  | nil => cases b <;> simp
  | cons x a ih =>
    cases b with
    | nil => simp
    | cons y b => simp [cons_lt_cons_iff, ih, UInt8.lt_iff_toNat_lt, UInt8.toNat_inj]

theorem winsOver_iff_stamp_lt (e other : StorageEntry) :
    e.winsOver other = true ↔ other.stamp < e.stamp := by
  rw [winsOver, stamp, stamp, Prod.Lex.toLex_lt_toLex, ← bytes_lt_iff]
  split_ifs with h
  · simp [UInt64.lt_iff_toNat_lt, UInt64.toNat_inj, Ne.symm h]
  · rw [not_not] at h
    simp [h]

/-! ## The wire format -/

/-- The field `total_len` of `serialize`, in 32-bit arithmetic. -/
def totalLen : UInt32 :=
  4 + e.key.length.toUInt32 + 1 + 1 + 8 + 4 + e.originPeerId.length.toUInt32 + 4 +
    e.data.length.toUInt32 + 4

def serialize : Bytes :=
  encode 4 e.totalLen.toNat ++ (encode 4 e.key.length.toUInt32.toNat ++ (e.key ++ ([e.type] ++
    ([e.deletedByte] ++ (encode 8 e.timestampMs.toNat ++
    (encode 4 e.originPeerId.length.toUInt32.toNat ++ (e.originPeerId ++
    (encode 4 e.data.length.toUInt32.toNat ++ (e.data ++ encode 4 e.checksum.toNat)))))))))

/-- `StorageEntry::deserialize`: the entry at an offset and the bytes read. -/
def deserialize (buffer : Bytes) (offset : ℕ) : Option (StorageEntry × ℕ) := do
  let totalLen ← readNat buffer offset 4
  if buffer.length < offset + 4 + totalLen then none else
  let pos := offset + 4
  let keyLen ← readNat buffer pos 4
  let pos := pos + 4
  let key ← readBytes buffer pos keyLen
  let pos := pos + keyLen
  let type ← readNat buffer pos 1
  let pos := pos + 1
  let deleted ← readNat buffer pos 1
  let pos := pos + 1
  let timestampMs ← readNat buffer pos 8
  let pos := pos + 8
  let peerIdLen ← readNat buffer pos 4
  let pos := pos + 4
  let originPeerId ← readBytes buffer pos peerIdLen
  let pos := pos + peerIdLen
  let dataLen ← readNat buffer pos 4
  let pos := pos + 4
  let data ← readBytes buffer pos dataLen
  let pos := pos + dataLen
  let checksum ← readNat buffer pos 4
  let pos := pos + 4
  return ({ key := key, type := UInt8.ofNat type, data := data,
            timestampMs := UInt64.ofNat timestampMs, originPeerId := originPeerId,
            checksum := UInt32.ofNat checksum, deleted := deleted ≠ 0 }, pos - offset)

/-- The length of an encoded entry without its first field, as a number. -/
def encodedLength : ℕ :=
  26 + e.key.length + e.originPeerId.length + e.data.length

/-- The length fields of the wire format do not wrap. -/
def Fits : Prop := e.encodedLength < 2 ^ 32

instance (e : StorageEntry) : Decidable e.Fits :=
  inferInstanceAs (Decidable (_ < _))

/-- What the three length fields at an offset add up to with the fields of fixed size, all as they
stand in the buffer. -/
def fieldsLength (buffer : Bytes) (offset : ℕ) : Option ℕ := do
  let keyLen ← readNat buffer (offset + 4) 4
  let peerIdLen ← readNat buffer (offset + 4 + 4 + keyLen + 1 + 1 + 8) 4
  let dataLen ← readNat buffer (offset + 4 + 4 + keyLen + 1 + 1 + 8 + 4 + peerIdLen) 4
  return 26 + keyLen + peerIdLen + dataLen

theorem toNat_toUInt32 {n : ℕ} (h : n < 2 ^ 32) : n.toUInt32.toNat = n :=
  UInt32.toNat_ofNat_of_lt' h

/-- The lengths of the three fields of variable size do not wrap. -/
structure LengthsFit (e : StorageEntry) : Prop where
  key : e.key.length < 2 ^ 32
  originPeerId : e.originPeerId.length < 2 ^ 32
  data : e.data.length < 2 ^ 32

instance (e : StorageEntry) : Decidable e.LengthsFit :=
  decidable_of_iff (e.key.length < 2 ^ 32 ∧ e.originPeerId.length < 2 ^ 32 ∧ e.data.length < 2 ^ 32)
    ⟨fun h => ⟨h.1, h.2.1, h.2.2⟩, fun h => ⟨h.key, h.originPeerId, h.data⟩⟩

variable {e : StorageEntry} {buf : Bytes} {pos : ℕ}

theorem Fits.lengthsFit (h : e.Fits) : e.LengthsFit := by
  simp only [Fits, encodedLength] at h
  exact ⟨by omega, by omega, by omega⟩

/-- `total_len` may wrap, but then it is only smaller. -/
theorem LengthsFit.totalLen_le (h : e.LengthsFit) : e.totalLen.toNat ≤ e.encodedLength := by
  simp only [totalLen, encodedLength, UInt32.toNat_add, UInt32.reduceToNat, toNat_toUInt32 h.key,
    toNat_toUInt32 h.originPeerId, toNat_toUInt32 h.data]
  omega

theorem length_serialize (e : StorageEntry) : e.serialize.length = 4 + e.encodedLength := by
  simp only [serialize, encodedLength, length_append, length_encode, length_cons, length_nil]
  omega

theorem readNat_byte {rest : Bytes} {b : UInt8} (h : Rest buf pos ([b] ++ rest)) :
    readNat buf pos 1 = some b.toNat := by
  rw [readNat, h.readBytes_eq (show [b].length = 1 from rfl)]
  simp [decode]

theorem deletedByte_ne_zero (e : StorageEntry) : decide (e.deletedByte.toNat ≠ 0) = e.deleted := by
  rw [deletedByte]
  cases e.deleted <;> rfl

/-- **A serialized entry is read back**, at any position of any buffer. -/
theorem LengthsFit.deserialize_eq (h : e.LengthsFit) {rest : Bytes}
    (r₀ : Rest buf pos (e.serialize ++ rest)) :
    deserialize buf pos = some (e, e.serialize.length) := by
  have hlen := r₀.length_le
  rw [length_append, length_serialize] at hlen
  have htotal := h.totalLen_le
  simp only [serialize, append_assoc, toNat_toUInt32 h.key, toNat_toUInt32 h.originPeerId,
    toNat_toUInt32 h.data] at r₀
  have r₁ := r₀.skip (length_encode ..)
  have r₂ := r₁.skip (length_encode ..)
  have r₃ := r₂.skip rfl
  have r₄ := r₃.skip (n := 1) rfl
  have r₅ := r₄.skip (n := 1) rfl
  have r₆ := r₅.skip (length_encode ..)
  have r₇ := r₆.skip (length_encode ..)
  have r₈ := r₇.skip rfl
  have r₉ := r₈.skip (length_encode ..)
  have r₁₀ := r₉.skip rfl
  have ht : ¬ buf.length < pos + 4 + e.totalLen.toNat := by omega
  simp only [deserialize, r₀.readNat_eq (show _ < 256 ^ 4 from e.totalLen.toNat_lt),
    r₁.readNat_eq (show _ < 256 ^ 4 from h.key), r₂.readBytes_eq rfl, readNat_byte r₃,
    readNat_byte r₄, r₅.readNat_eq (show _ < 256 ^ 8 from e.timestampMs.toNat_lt),
    r₆.readNat_eq (show _ < 256 ^ 4 from h.originPeerId), r₇.readBytes_eq rfl,
    r₈.readNat_eq (show _ < 256 ^ 4 from h.data), r₉.readBytes_eq rfl,
    r₁₀.readNat_eq (show _ < 256 ^ 4 from e.checksum.toNat_lt), bind_eq_bind,
    Option.bind_some, if_neg ht, Option.pure_def, UInt8.ofNat_toNat, UInt64.ofNat_toNat,
    UInt32.ofNat_toNat, deletedByte_ne_zero]
  rw [length_serialize, encodedLength]
  congr 2
  omega

/-- Whatever is read has lengths that fit, since they come from fields of four bytes; its fields
stand one after the other, and what follows them or the declared end does not matter. -/
theorem deserialize_spec {n : ℕ} (h : deserialize buf pos = some (e, n)) :
    e.LengthsFit ∧ n = 4 + e.encodedLength ∧ fieldsLength buf pos = some e.encodedLength ∧
      ∀ total m, readNat buf pos 4 = some total →
      pos + 4 + total ≤ m → pos + n ≤ m → deserialize (buf.take m) pos = some (e, n) := by
  obtain ⟨total, htotal, h⟩ := bind_eq_some_iff.mp h
  by_cases hlen : buf.length < pos + 4 + total
  · rw [if_pos hlen] at h
    cases h
  rw [if_neg hlen] at h
  obtain ⟨keyLen, hkeyLen, h⟩ := bind_eq_some_iff.mp h
  obtain ⟨key, hkey, h⟩ := bind_eq_some_iff.mp h
  obtain ⟨type, htype, h⟩ := bind_eq_some_iff.mp h
  obtain ⟨deleted, hdeleted, h⟩ := bind_eq_some_iff.mp h
  obtain ⟨timestamp, htimestamp, h⟩ := bind_eq_some_iff.mp h
  obtain ⟨peerLen, hpeerLen, h⟩ := bind_eq_some_iff.mp h
  obtain ⟨peer, hpeer, h⟩ := bind_eq_some_iff.mp h
  obtain ⟨dataLen, hdataLen, h⟩ := bind_eq_some_iff.mp h
  obtain ⟨data, hdata, h⟩ := bind_eq_some_iff.mp h
  obtain ⟨checksum, hchecksum, heq⟩ := bind_eq_some_iff.mp h
  obtain ⟨rfl, rfl⟩ := Prod.mk.inj (some_inj.mp heq)
  have hk := length_of_readBytes hkey
  have hp := length_of_readBytes hpeer
  have hd := length_of_readBytes hdata
  refine ⟨⟨hk ▸ lt_of_readNat hkeyLen, hp ▸ lt_of_readNat hpeerLen, hd ▸ lt_of_readNat hdataLen⟩,
    ?_, ?_, fun total' m htotal' hm hn => ?_⟩
  · simp only [encodedLength]
    omega
  · simp only [fieldsLength, hkeyLen, hpeerLen, hdataLen, bind_eq_bind, bind_some, encodedLength,
      hk, hp, hd]
    rfl
  · obtain rfl := mem_unique htotal htotal'
    have hlen' : ¬(buf.take m).length < pos + 4 + total := by
      rw [length_take]
      omega
    simp only [deserialize, bind_eq_bind]
    rw [readNat_take (by omega), htotal, bind_some, if_neg hlen', readNat_take (by omega),
      hkeyLen, bind_some, readBytes_take (by omega), hkey, bind_some,
      readNat_take (by omega), htype, bind_some, readNat_take (by omega), hdeleted,
      bind_some, readNat_take (by omega), htimestamp, bind_some,
      readNat_take (by omega), hpeerLen, bind_some, readBytes_take (by omega), hpeer,
      bind_some, readNat_take (by omega), hdataLen, bind_some,
      readBytes_take (by omega), hdata, bind_some, readNat_take (by omega), hchecksum,
      Option.bind_some, Option.pure_def]

theorem deserialize_serialize (h : e.Fits) (before after : Bytes) :
    deserialize (before ++ (e.serialize ++ after)) before.length = some (e, e.serialize.length) :=
  h.lengthsFit.deserialize_eq (Rest.append_left before _)

/-! ## Framing -/

/-- An entry ends where its first field says. -/
structure Framed (buffer : Bytes) (offset total : ℕ) (e : StorageEntry) (n : ℕ) : Prop where
  bytesRead : n = 4 + total
  within : deserialize (buffer.take (offset + 4 + total)) offset = some (e, n)

/-- **What is read of an entry agrees with its declared length exactly if the length fields in the
buffer add up to it.** -/
theorem framed_iff {n total : ℕ} (h : deserialize buf pos = some (e, n))
    (htotal : readNat buf pos 4 = some total) :
    Framed buf pos total e n ↔ fieldsLength buf pos = some total := by
  obtain ⟨-, hn, hfields, htake⟩ := deserialize_spec h
  rw [hfields, some_inj]
  constructor
  · intro hframed
    have := hframed.bytesRead
    omega
  · intro heq
    exact ⟨by omega, htake total _ htotal le_rfl (by omega)⟩

theorem framed_iff_oneByte : let e : StorageEntry := ⟨[107], 2, [118], 1, [], 0, false⟩
    Framed e.serialize 0 28 e 32 :=
  (framed_iff (by decide) (by decide)).mpr (by decide)

/-- **An entry that declares no bytes takes the 26 bytes behind it.** -/
theorem overrun : ∃ e n, deserialize (List.replicate 30 0) 0 = some (e, n) ∧
    readNat (List.replicate 30 0) 0 4 = some 0 ∧ ¬ Framed (List.replicate 30 0) 0 0 e n :=
  ⟨⟨[], 0, [], 0, [], 0, false⟩, 30, by decide, by decide, fun h => absurd h.bytesRead (by decide)⟩

end StorageEntry

end Librats.Storage
