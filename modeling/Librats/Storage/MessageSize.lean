import Librats.Security.NoiseSecurity
import Librats.Storage.Mesh
import Librats.Storage.WellFormed
import Librats.Transport.Outbound

/-!
# Messages of the store on a connection

The store limits the size of a value to `max_value_size`; the connection limits the memory of its
send queue. With the default limits the store accepts values that close every connection they are
sent on (`largeValue_closes`).
-/

namespace Librats.Storage

open Framer Outbound List StorageManager

/-- The header `Node::send` gives to the messages of the store. -/
def storageHeader : FrameHeader := ⟨.storage, 0, 0⟩

theorem plaintext_seals (localId : ℕ) (proto : Bytes) (session : ℕ) :
    Seals (Plaintext.security localId proto).encrypt session 0 :=
  fun plain => ⟨plain, session, rfl, rfl⟩

/-- The length of the `ENTRY` message of an entry. -/
def entryLength (e : StorageEntry) : ℕ := 1 + 4 + e.encodedLength

/-- The length of the `SYNC_RESPONSE` message of a store. -/
def snapshotLength (s : Entries) : ℕ :=
  1 + 4 + (s.entries.map fun p => 4 + p.2.encodedLength).sum

theorem length_entryMessage (e : StorageEntry) : (entryMessage e).length = entryLength e := by
  rw [entryMessage, length_cons, StorageEntry.length_serialize, entryLength]
  omega

theorem length_snapshotMessage (s : Entries) : (snapshotMessage s).length = snapshotLength s := by
  simp only [snapshotMessage, snapshotLength, cons_append, length_cons,
    length_append, BigEndian.length_encode, length_flatten, map_map,
    Function.comp_def, StorageEntry.length_serialize]
  omega

section

variable {S V : Type} {A : Allocator} {encrypt : S → Bytes → Option Bytes × S} {c : Outbound S}
  {overhead : ℕ} {outcomes : List WriteOutcome}

/-- **What the connections carry.** With the default high-water mark and an empty queue, an entry
and a snapshot keep an established connection open exactly if their block is small enough. -/
theorem replication_keptOpen_iff (hstate : c.state = .established)
    (hmark : c.sendHighWater = kDefaultSendHighWater) (hempty : c.tx.empty = true)
    (hseals : Seals encrypt c.session overhead) (herr : .error ∉ outcomes) :
    (∀ (m : StorageManager V) (key : Bytes) (value : StorageManager.Value) (clock : UInt64),
      (m.put key value clock).1 = true →
      let e := m.newEntry key value.type value.serialize 0 [] clock
      (c.KeptOpen (c.send A encrypt storageHeader (entryMessage e) outcomes) ↔
        blockMemory A c.tx.recycled (kHeaderSize + entryLength e + overhead) ≤ kDefaultSendHighWater)) ∧
    ∀ s : Entries,
      (c.KeptOpen (c.send A encrypt storageHeader (snapshotMessage s) outcomes) ↔
        blockMemory A c.tx.recycled (kHeaderSize + snapshotLength s + overhead) ≤
          kDefaultSendHighWater) := by
  have hiff := @keptOpen_send_iff S A encrypt c hstate hempty overhead hseals outcomes herr
    storageHeader
  rw [hmark] at hiff
  constructor
  · intro m key value clock _ e
    rw [← length_entryMessage]
    exact hiff _
  · intro s
    rw [← length_snapshotMessage]
    exact hiff _

end

/-- A plaintext connection that was just established. -/
def plaintextConnection : Outbound ℕ := .new 0

/-- A value of 8 MiB, half of the default `max_value_size`. -/
def largeValue : StorageManager.Value := .binary (List.replicate 8388608 0)

theorem largeValue_accepted : ((created ℕ {}).put [107] largeValue 1000).1 = true := by
  obtain ⟨-, hno⟩ | ⟨-, -, -, event, hput⟩ := (created ℕ {}).put_cases [107] largeValue 1000
  · have hsize : largeValue.serialize.length ≤ 16 * 1024 * 1024 := by
      rw [largeValue, StorageManager.Value.serialize]
      norm_num
    exact absurd (hno (by decide) hsize) (by simp [loses, created])
  · rw [hput]

/-- The entry that is put. -/
def largeEntry : StorageEntry :=
  (created ℕ {}).newEntry [107] largeValue.type largeValue.serialize 0 [] 1000

/-- The connection is closed by an entry that the store accepts. -/
theorem largeValue_closes : ((created ℕ {}).put [107] largeValue 1000).1 = true ∧
      plaintextConnection.state = .established ∧
      plaintextConnection.sendHighWater = kDefaultSendHighWater ∧
      plaintextConnection.tx.empty = true ∧
      ¬ plaintextConnection.KeptOpen (plaintextConnection.send .exact
        (Plaintext.security 0 []).encrypt storageHeader (entryMessage largeEntry) []) := by
  refine ⟨largeValue_accepted, rfl, rfl, rfl, fun hopen => ?_⟩
  have hle := (keptOpen_send_iff rfl rfl (plaintext_seals 0 [] 0) not_mem_nil storageHeader
    _).mp hopen
  have hdata : largeEntry.data.length = 8388608 := length_replicate
  rw [length_entryMessage, entryLength, StorageEntry.encodedLength, hdata] at hle
  exact absurd hle (by decide)

/-- The message of a short entry keeps the connection open. -/
theorem replication_keptOpen_iff_short :
    plaintextConnection.KeptOpen (plaintextConnection.send .exact
      (Plaintext.security 0 []).encrypt storageHeader (entryMessage
        ((created ℕ {}).newEntry [107] 2 [118] 0 [] 1000)) []) :=
  ((replication_keptOpen_iff rfl rfl rfl (plaintext_seals 0 [] 0) not_mem_nil).1
    (created ℕ {}) [107] (.string [118]) 1000 (by decide)).mpr (by decide)

end Librats.Storage
