import Librats.Foundations.AssocList
import Librats.Storage.Entry

/-!
# The storage manager

`StorageManager` (`storage/storage.cpp`). A call returns the manager and its trace: in order the
writes to `entries_`, what is handed to the network and the callbacks. The clock is an argument. The
fields of the statistics that no function here changes are left out.
-/

namespace Librats.Storage

open BigEndian

/-- `StorageConfig`, as far as these functions read it. -/
structure StorageConfig where
  enableSync : Bool := true
  maxValueSize : ℕ := 16 * 1024 * 1024
  deriving DecidableEq, Repr

inductive StorageOperation
  | opPut
  | opDelete
  deriving DecidableEq, Repr

inductive StorageSyncStatus
  | notStarted
  | inProgress
  | completed
  | failed
  deriving DecidableEq, Repr

/-- `StorageChangeEvent`; `remove` leaves the type unset. -/
structure StorageChangeEvent where
  operation : StorageOperation
  key : Bytes
  type : Option UInt8
  oldData : Bytes
  newData : Bytes
  timestampMs : UInt64
  originPeerId : Bytes
  isRemote : Bool
  deriving DecidableEq, Repr

/-- The counters of `StorageStatistics` that replication moves. -/
structure StorageStatistics where
  entriesSynced : ℕ := 0
  entriesSent : ℕ := 0
  syncRequestsReceived : ℕ := 0
  syncRequestsSent : ℕ := 0
  deriving DecidableEq, Repr

/-- What the manager sees of its `PeerNetwork`, for peers named by `V`. -/
structure PeerNetwork (V : Type) where
  localId : Bytes
  connectedPeers : List V

/-- What a call does besides changing the manager. -/
inductive Event (V : Type)
  /-- A write to `entries_`, with the entry it replaces. -/
  | stored (key : Bytes) (old : Option StorageEntry) (new : StorageEntry)
  | broadcast (payload : Bytes)
  | send (peer : V) (payload : Bytes)
  | notified (event : StorageChangeEvent)
  | syncCompleted (success : Bool)

/-- The map `entries_`. -/
abbrev Entries := AList (fun _ : Bytes => StorageEntry)

structure StorageManager (V : Type) where
  network : Option (PeerNetwork V)
  config : StorageConfig
  entries : Entries
  syncStatus : StorageSyncStatus
  initialSyncComplete : Bool
  stats : StorageStatistics
  dirty : Bool

def opEntry : UInt8 := 1

def opSyncRequest : UInt8 := 2

def opSyncResponse : UInt8 := 3

namespace StorageManager

variable {V : Type} (m : StorageManager V)

def getOurPeerId : Bytes :=
  match m.network with
  | none => []
  | some net => net.localId

variable (key : Bytes) (entry : StorageEntry)

/-- The assignment `entries_[key] = entry`. -/
def write : StorageManager V × List (Event V) :=
  ({ m with entries := m.entries.insert key entry }, [.stored key (m.entries.lookup key) entry])

def markDirty : StorageManager V := { m with dirty := true }

/-- The payload of an `ENTRY` message. -/
def entryMessage : Bytes := opEntry :: entry.serialize

/-! ## Network operations -/

def broadcastEntry : StorageManager V × List (Event V) :=
  match m.network with
  | none => (m, [])
  | some _ =>
    ({ m with stats := { m.stats with entriesSent := m.stats.entriesSent + 1 } },
      [.broadcast (entryMessage entry)])

def forwardEntry [DecidableEq V] (except : V) : List (Event V) :=
  match m.network with
  | none => []
  | some net =>
    (net.connectedPeers.filter (· ≠ except)).map fun peer => .send peer (entryMessage entry)

def sendSyncResponse (peer : V) : List (Event V) :=
  match m.network with
  | none => []
  | some _ =>
    let blob := (m.entries.entries.map fun p => p.2.serialize).flatten
    [.send peer (opSyncResponse :: encode 4 m.entries.entries.length.toUInt32.toNat ++ blob)]

def sendSyncRequest (peer : V) : StorageManager V × List (Event V) :=
  match m.network with
  | none => (m, [])
  | some _ =>
    ({ m with stats := { m.stats with syncRequestsSent := m.stats.syncRequestsSent + 1 } },
      [.send peer [opSyncRequest]])

def onPeerConnected (peer : V) : StorageManager V × List (Event V) :=
  if m.config.enableSync then
    let m := if m.syncStatus = .notStarted then { m with syncStatus := .inProgress } else m
    m.sendSyncRequest peer
  else (m, [])

def requestSync : Bool × StorageManager V × List (Event V) :=
  match m.network with
  | none => (false, m, [])
  | some net =>
    if m.config.enableSync then
      match net.connectedPeers with
      | [] => (false, m, [])
      | peer :: _ => (true, { m with syncStatus := .inProgress }.sendSyncRequest peer)
    else (false, m, [])

/-- `StorageManager::attach`, as far as the manager itself changes. -/
def attach (network : PeerNetwork V) : StorageManager V :=
  { m with network := some network }

def setConfig (config : StorageConfig) : StorageManager V :=
  { m with config := config }

/-! ## Local writes -/

/-- The values of the overloads of `put` and of `put_json`; a double is its bits, a document the
text `dump` returns. -/
inductive Value
  | binary (value : Bytes)
  | string (value : Bytes)
  | int64 (value : UInt64)
  | double (bits : UInt64)
  | json (text : Bytes)

/-- The `StorageValueType` of a value. -/
def Value.type : Value → UInt8
  | .binary _ => 0x01
  | .string _ => 0x02
  | .int64 _ => 0x03
  | .double _ => 0x04
  | .json _ => 0x05

/-- `StorageManager::serialize_value`. -/
def Value.serialize : Value → Bytes
  | .binary value => value
  | .string value => value
  | .int64 value => encode 8 value.toNat
  | .double bits => encode 8 bits.toNat
  | .json text => text

/-- What `put_internal` and `remove` do: store the entry, broadcast it and notify. -/
def commit (broadcast : Bool) (event : StorageChangeEvent) : StorageManager V × List (Event V) :=
  let w := m.write key entry
  let m := w.1.markDirty
  let b := if broadcast then m.broadcastEntry entry else (m, [])
  (b.1, w.2 ++ b.2 ++ [.notified event])

/-- The entry `put_internal` builds; a timestamp `0` and an empty origin stand for the clock and
the own id. -/
def newEntry (type : UInt8) (data : Bytes)
    (timestampMs : UInt64) (originPeerId : Bytes) (clock : UInt64) : StorageEntry :=
  StorageEntry.new key type data (if timestampMs = 0 then clock else timestampMs)
    (if originPeerId = [] then m.getOurPeerId else originPeerId)

/-- An entry loses if it does not win over the one stored under the key. -/
def loses : Bool :=
  (m.entries.lookup key).any fun old => !entry.winsOver old

def putInternal (type : UInt8) (data : Bytes)
    (timestampMs : UInt64) (originPeerId : Bytes) (broadcast : Bool) (clock : UInt64) :
    Bool × StorageManager V × List (Event V) :=
  let entry := m.newEntry key type data timestampMs originPeerId clock
  if key = [] then (false, m, [])
  else if m.config.maxValueSize < data.length then (false, m, [])
  else if m.loses key entry then (false, m, [])
  else
    (true, m.commit key entry (broadcast && m.config.enableSync)
      { operation := .opPut, key := key, type := some type,
        oldData := (m.entries.lookup key).elim [] (·.data), newData := data,
        timestampMs := entry.timestampMs, originPeerId := entry.originPeerId,
        isRemote := originPeerId ≠ [] ∧ originPeerId ≠ m.getOurPeerId })

/-- `StorageManager::put` and `StorageManager::put_json`. -/
def put (value : Value) (clock : UInt64) : Bool × StorageManager V × List (Event V) :=
  m.putInternal key value.type value.serialize 0 [] true clock

/-- The tombstone `remove` turns an entry into. -/
def tombstone (e : StorageEntry) (timestampMs : UInt64) (ourPeerId : Bytes) : StorageEntry :=
  StorageEntry.calculateChecksum
    { e with deleted := true, timestampMs := timestampMs, originPeerId := ourPeerId, data := [] }

def remove (clock : UInt64) : Bool × StorageManager V × List (Event V) :=
  match m.entries.lookup key with
  | none => (false, m, [])
  | some e =>
    if e.deleted then (false, m, [])
    else
      (true, m.commit key (tombstone e clock m.getOurPeerId) m.config.enableSync
        { operation := .opDelete, key := key, type := none, oldData := e.data, newData := [],
          timestampMs := clock, originPeerId := m.getOurPeerId, isRemote := false })

/-- The loop of `clear`; every `remove` reads the clock anew. -/
def removeAll (m : StorageManager V) : List Bytes → (Bytes → UInt64) →
    StorageManager V × List (Event V)
  | [], _ => (m, [])
  | key :: keys, clock =>
    let r := m.remove key (clock key)
    let rest := r.2.1.removeAll keys clock
    (rest.1, r.2.2 ++ rest.2)

/-- The keys `clear` collects. -/
def liveKeys : List Bytes :=
  (m.entries.entries.filter fun p => !p.2.deleted).map (·.1)

/-- `StorageManager::clear`; `clock key` is the reading of the `remove` of `key`. -/
def clear (clock : Bytes → UInt64) : StorageManager V × List (Event V) :=
  m.removeAll m.liveKeys clock

/-- `StorageManager::compact`, with the number of tombstones removed. -/
def compact : ℕ × StorageManager V :=
  let removed := (m.entries.entries.filter fun p => p.2.deleted).length
  let m := { m with entries := AssocList.filter m.entries fun e => !e.deleted }
  (removed, if 0 < removed then m.markDirty else m)

def has : Bool :=
  (m.entries.lookup key).any fun e => !e.deleted

/-! ## Messages from peers -/

/-- `StorageManager::apply_remote_entry`; `none` is an entry that loses. -/
def applyRemoteEntry : Option (StorageManager V × List (Event V) × StorageChangeEvent) :=
  let event : StorageChangeEvent :=
    { operation := if entry.deleted then .opDelete else .opPut, key := entry.key,
      type := some entry.type, oldData := (m.entries.lookup entry.key).elim [] (·.data),
      newData := entry.data, timestampMs := entry.timestampMs, originPeerId := entry.originPeerId,
      isRemote := true }
  if m.loses entry.key entry then none
  else
    let w := m.write entry.key entry
    some (w.1, w.2, event)

/-- The branch `OP_ENTRY` of `on_storage_message`. -/
def onEntry [DecidableEq V] (sender : V) (buf : Bytes) : StorageManager V × List (Event V) :=
  match StorageEntry.deserialize buf 0 with
  | none => (m, [])
  | some (entry, _) =>
    if entry.verifyChecksum then
      match m.applyRemoteEntry entry with
      | none => (m, [])
      | some (m, trace, event) =>
        let m := { m with stats := { m.stats with entriesSynced := m.stats.entriesSynced + 1 } }
        (m.markDirty, trace ++ [.notified event] ++ m.forwardEntry entry sender)
    else (m, [])

/-- The loop of `OP_SYNC_RESPONSE`: the number of entries applied, the manager and the trace. -/
def applySnapshot (m : StorageManager V) (buf : Bytes) : (count offset : ℕ) →
    ℕ × StorageManager V × List (Event V)
  | 0, _ => (0, m, [])
  | count + 1, offset =>
    if buf.length ≤ offset then (0, m, [])
    else
      match StorageEntry.deserialize buf offset with
      | none => (0, m, [])
      | some (entry, bytesRead) =>
        if entry.verifyChecksum then
          match m.applyRemoteEntry entry with
          | none => m.applySnapshot buf count (offset + bytesRead)
          | some (m, trace, event) =>
            let rest := m.applySnapshot buf count (offset + bytesRead)
            (rest.1 + 1, rest.2.1, trace ++ [.notified event] ++ rest.2.2)
        else m.applySnapshot buf count (offset + bytesRead)

/-- The branch `OP_SYNC_RESPONSE` of `on_storage_message`. -/
def onSyncResponse (payload : Bytes) : StorageManager V × List (Event V) :=
  match readNat payload 1 4 with
  | none => (m, [])
  | some count =>
    let r := m.applySnapshot (payload.drop 5) count 0
    let m := r.2.1
    let m := { m with
      syncStatus := .completed
      initialSyncComplete := true
      stats := { m.stats with entriesSynced := m.stats.entriesSynced + r.1 } }
    (if 0 < r.1 then m.markDirty else m, r.2.2 ++ [.syncCompleted true])

def onStorageMessage [DecidableEq V] (sender : V) (payload : Bytes) :
    StorageManager V × List (Event V) :=
  match payload with
  | [] => (m, [])
  | op :: buf =>
    if op = opEntry then m.onEntry sender buf
    else if op = opSyncRequest then
      let m := { m with
        stats := { m.stats with syncRequestsReceived := m.stats.syncRequestsReceived + 1 } }
      (m, m.sendSyncResponse sender)
    else if op = opSyncResponse then m.onSyncResponse payload
    else (m, [])

/-! ## The cases of a write -/

@[simp] theorem broadcastEntry_entries (e : StorageEntry) :
    (m.broadcastEntry e).1.entries = m.entries := by
  unfold broadcastEntry
  split <;> rfl

@[simp] theorem broadcastEntry_network (e : StorageEntry) :
    (m.broadcastEntry e).1.network = m.network := by
  unfold broadcastEntry
  split <;> rfl

@[simp] theorem broadcastEntry_config (e : StorageEntry) :
    (m.broadcastEntry e).1.config = m.config := by
  unfold broadcastEntry
  split <;> rfl

section

variable (m : StorageManager V) (key : Bytes) (e : StorageEntry) (broadcast : Bool)
  (event : StorageChangeEvent)

@[simp] theorem commit_entries :
    (m.commit key e broadcast event).1.entries = m.entries.insert key e := by
  cases broadcast <;> simp [commit, write, markDirty]

@[simp] theorem commit_network : (m.commit key e broadcast event).1.network = m.network := by
  cases broadcast <;> simp [commit, write, markDirty]

@[simp] theorem commit_config : (m.commit key e broadcast event).1.config = m.config := by
  cases broadcast <;> simp [commit, write, markDirty]

end

variable (m : StorageManager V) (key : Bytes)

/-- A put is refused and changes nothing, or its entry is committed; with an allowed key and value
it is refused only if its entry loses. -/
theorem put_cases (value : Value) (clock : UInt64) :
    let e := m.newEntry key value.type value.serialize 0 [] clock
    m.put key value clock = (false, m, []) ∧ (key ≠ [] →
      value.serialize.length ≤ m.config.maxValueSize → m.loses key e = true) ∨
    key ≠ [] ∧ value.serialize.length ≤ m.config.maxValueSize ∧ m.loses key e = false ∧
      ∃ event, m.put key value clock = (true, m.commit key e m.config.enableSync event) := by
  simp only [put, putInternal]
  split_ifs with hkey hsize hlww
  · exact .inl ⟨rfl, fun h => absurd hkey h⟩
  · exact .inl ⟨rfl, fun _ h => absurd hsize (not_lt.mpr h)⟩
  · exact .inl ⟨rfl, fun _ _ => hlww⟩
  · exact .inr ⟨hkey, not_lt.mp hsize, Bool.eq_false_iff.mpr hlww, _, rfl⟩

variable (clock : UInt64)

/-- A delete finds no live entry and changes nothing, or commits a tombstone. -/
theorem remove_cases : m.remove key clock = (false, m, []) ∧
      (∀ e, m.entries.lookup key = some e → e.deleted = true) ∨
    ∃ e event, m.entries.lookup key = some e ∧ e.deleted = false ∧ m.remove key clock =
      (true, m.commit key (tombstone e clock m.getOurPeerId) m.config.enableSync event) := by
  unfold remove
  cases hl : m.entries.lookup key with
  | none => exact .inl ⟨rfl, nofun⟩
  | some e =>
    cases hd : e.deleted with
    | true =>
      refine .inl ⟨by simp [hd], fun x hx => ?_⟩
      rw [← Option.some_inj.mp hx, hd]
    | false =>
      simp only [hd]
      exact .inr ⟨e, _, rfl, hd, rfl⟩

@[simp] theorem remove_network : (m.remove key clock).2.1.network = m.network := by
  obtain ⟨hr, -⟩ | ⟨old, event, -, -, hr⟩ := m.remove_cases key clock
  · rw [hr]
  · rw [hr, commit_network]

@[simp] theorem remove_config : (m.remove key clock).2.1.config = m.config := by
  obtain ⟨hr, -⟩ | ⟨old, event, -, -, hr⟩ := m.remove_cases key clock
  · rw [hr]
  · rw [hr, commit_config]

@[simp] theorem removeAll_config (keys : List Bytes)
    (clock : Bytes → UInt64) : (m.removeAll keys clock).1.config = m.config := by
  induction keys generalizing m with
  | nil => rfl
  | cons key keys ih => exact (ih _).trans (m.remove_config key (clock key))

@[simp] theorem put_config (value : Value) (clock : UInt64) :
    (m.put key value clock).2.1.config = m.config := by
  obtain ⟨hp, -⟩ | ⟨-, -, -, event, hp⟩ := m.put_cases key value clock
  · rw [hp]
  · rw [hp, commit_config]

@[simp] theorem compact_config : m.compact.2.config = m.config := by
  unfold compact
  dsimp only
  split_ifs <;> rfl

@[simp] theorem compact_network : m.compact.2.network = m.network := by
  unfold compact
  dsimp only
  split_ifs <;> rfl

@[simp] theorem compact_lookup (k : Bytes) :
    m.compact.2.entries.lookup k = (m.entries.lookup k).filter fun e => !e.deleted := by
  unfold compact
  dsimp only
  split_ifs
  · exact AssocList.lookup_filter ..
  · exact AssocList.lookup_filter ..

theorem lookup_compact_cases {m : StorageManager V} {k : Bytes} {e : StorageEntry}
    (h : m.compact.2.entries.lookup k = some e) :
    m.entries.lookup k = some e ∧ e.deleted = false := by
  simpa using h

variable (peer : V)

theorem sendSyncRequest_spec : (m.sendSyncRequest peer).1.entries = m.entries ∧
      (m.sendSyncRequest peer).1.config = m.config ∧
      (m.sendSyncRequest peer).1.network = m.network := by
  unfold sendSyncRequest
  split <;> exact ⟨rfl, rfl, rfl⟩

theorem onPeerConnected_spec : (m.onPeerConnected peer).1.entries = m.entries ∧
      (m.onPeerConnected peer).1.config = m.config ∧
      (m.onPeerConnected peer).1.network = m.network := by
  unfold onPeerConnected
  split_ifs with hsync hstatus
  · exact sendSyncRequest_spec { m with syncStatus := .inProgress } peer
  · exact sendSyncRequest_spec m peer
  · exact ⟨rfl, rfl, rfl⟩

theorem sendSyncRequest_trace : (m.sendSyncRequest peer).2 =
    if m.network.isSome then [.send peer [opSyncRequest]] else [] := by
  unfold sendSyncRequest
  cases m.network <;> rfl

theorem onPeerConnected_trace : (m.onPeerConnected peer).2 =
    if m.config.enableSync && m.network.isSome then [.send peer [opSyncRequest]] else [] := by
  unfold onPeerConnected
  cases m.config.enableSync with
  | false => rfl
  | true =>
    simp only [if_true, Bool.true_and]
    split_ifs with hstatus hnet hnet
    · rw [sendSyncRequest_trace, if_pos hnet]
    · rw [sendSyncRequest_trace, if_neg hnet]
    · rw [sendSyncRequest_trace, if_pos hnet]
    · rw [sendSyncRequest_trace, if_neg hnet]

theorem requestSync_spec :
    m.requestSync.2.1.entries = m.entries ∧ m.requestSync.2.1.config = m.config := by
  unfold requestSync
  split
  · exact ⟨rfl, rfl⟩
  split_ifs
  · split
    · exact ⟨rfl, rfl⟩
    · obtain ⟨he, hc, -⟩ := sendSyncRequest_spec { m with syncStatus := .inProgress } ‹V›
      exact ⟨he, hc⟩
  · exact ⟨rfl, rfl⟩

theorem applyRemoteEntry_cases (e : StorageEntry) :
    m.loses e.key e = true ∧ m.applyRemoteEntry e = none ∨
    m.loses e.key e = false ∧ ∃ event, m.applyRemoteEntry e =
      some ({ m with entries := m.entries.insert e.key e },
        [.stored e.key (m.entries.lookup e.key) e], event) := by
  by_cases hlww : m.loses e.key e = true
  · exact .inl ⟨hlww, if_pos hlww⟩
  · exact .inr ⟨Bool.eq_false_iff.mpr hlww, _, if_neg hlww⟩

theorem loses_eq_false {m : StorageManager V} {key : Bytes} {e : StorageEntry} :
    m.loses key e = false ↔ ∀ old, m.entries.lookup key = some old → e.winsOver old = true := by
  rw [loses]
  cases m.entries.lookup key <;> simp

end StorageManager

end Librats.Storage
