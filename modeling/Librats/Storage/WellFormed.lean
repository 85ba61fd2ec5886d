import Librats.Storage.Persistence

/-!
# Well-formed stores

Runs of every call of a manager, with any bytes from peers. `put` and `remove` check the key and the
size; `apply_remote_entry` and `read_data_file` compare stamps and checksums only.
-/

namespace Librats.Storage

open StorageEntry

variable {V : Type}

/-! ## The invariant -/

/-- An entry that may be stored by a manager with the given limit. -/
structure Admissible (maxValueSize : ℕ) (e : StorageEntry) : Prop where
  key_ne_nil : e.key ≠ []
  size : e.data.length ≤ maxValueSize
  tombstone : e.deleted = true → e.data = []

/-- An entry lies under its own key, with the right checksum. -/
structure Filed (k : Bytes) (e : StorageEntry) : Prop where
  key : e.key = k
  checksum : e.verifyChecksum = true

/-- Every entry is filed and admissible. -/
def WellFormed (m : StorageManager V) : Prop :=
  ∀ k e, m.entries.lookup k = some e → Filed k e ∧ Admissible m.config.maxValueSize e

/-! ## Calls -/

namespace StorageManager

/-- A call of the manager. Loading brings the data file along. -/
inductive AnyCall (V : Type)
  | put (key : Bytes) (value : Value) (clock : UInt64)
  | remove (key : Bytes) (clock : UInt64)
  | clear (clock : Bytes → UInt64)
  | compact
  | load (persistToDisk : Bool) (data : Option Bytes) (readable : Bool)
  | setConfig (config : StorageConfig)
  | attach (network : PeerNetwork V)
  | peerConnected (peer : V)
  | requestSync
  | message (sender : V) (payload : Bytes)

variable [DecidableEq V]

/-- The manager after a call. -/
def afterCall (m : StorageManager V) : AnyCall V → StorageManager V
  | .put key value clock => (m.put key value clock).2.1
  | .remove key clock => (m.remove key clock).2.1
  | .clear clock => (m.clear clock).1
  | .compact => m.compact.2
  | .load persistToDisk data readable =>
    { m with entries := (load persistToDisk data readable m.entries).2 }
  | .setConfig config => m.setConfig config
  | .attach network => m.attach network
  | .peerConnected peer => (m.onPeerConnected peer).1
  | .requestSync => m.requestSync.2.1
  | .message sender payload => (m.onStorageMessage sender payload).1

/-- The manager after a run of calls. -/
def afterRun (m : StorageManager V) (cs : List (AnyCall V)) : StorageManager V :=
  cs.foldl afterCall m

/-- A manager before its constructor loads the data file. -/
def created (V : Type) (config : StorageConfig) : StorageManager V :=
  ⟨none, config, ∅, .notStarted, false, {}, false⟩

/-! ## Where stored entries come from -/

section

variable {m : StorageManager V} {k : Bytes} {e : StorageEntry} {clock : UInt64}

omit [DecidableEq V]

/-- `e` is the tombstone of the live entry stored under `k`. -/
def Buried (m : StorageManager V) (k : Bytes) (e : StorageEntry) : Prop :=
  ∃ old clock, m.entries.lookup k = some old ∧ old.deleted = false ∧
    e = tombstone old clock m.getOurPeerId

theorem lookup_put_cases {key : Bytes} {value : Value}
    (h : (m.put key value clock).2.1.entries.lookup k = some e) : m.entries.lookup k = some e ∨
      k = key ∧ key ≠ [] ∧ value.serialize.length ≤ m.config.maxValueSize ∧
        e = m.newEntry key value.type value.serialize 0 [] clock := by
  obtain ⟨hp, -⟩ | ⟨hkey, hsize, -, event, hp⟩ := m.put_cases key value clock
  · rw [hp] at h
    exact .inl h
  · rw [hp, commit_entries] at h
    obtain ⟨rfl, rfl⟩ | ⟨-, h⟩ := AssocList.lookup_of_insert h
    · exact .inr ⟨rfl, hkey, hsize, rfl⟩
    · exact .inl h

theorem lookup_remove_cases {key : Bytes} (h : (m.remove key clock).2.1.entries.lookup k = some e) :
    m.entries.lookup k = some e ∨ m.Buried k e := by
  obtain ⟨hr, -⟩ | ⟨old, event, hl, hd, hr⟩ := m.remove_cases key clock
  · rw [hr] at h
    exact .inl h
  · rw [hr, commit_entries] at h
    obtain ⟨rfl, rfl⟩ | ⟨-, h⟩ := AssocList.lookup_of_insert h
    · exact .inr ⟨old, clock, hl, hd, rfl⟩
    · exact .inl h

theorem lookup_removeAll_cases {keys : List Bytes} {clock : Bytes → UInt64}
    (h : (m.removeAll keys clock).1.entries.lookup k = some e) :
    m.entries.lookup k = some e ∨ m.Buried k e := by
  induction keys generalizing m with
  | nil => exact .inl h
  | cons key keys ih =>
    rcases ih h with h | ⟨old, c, hold, hd, he⟩
    · exact lookup_remove_cases h
    · rcases lookup_remove_cases hold with hold | ⟨_, _, _, _, rfl⟩
      · exact .inr ⟨old, c, hold, hd, by rw [he, getOurPeerId, remove_network]; rfl⟩
      · -- a tombstone is not deleted again
        exact absurd hd (by simp [tombstone, calculateChecksum])

end

/-! ## Runs -/

/-- What a call may bring into the store: admissible entries, and a new configuration with room for
all that is stored. -/
def CallAdmissible (m : StorageManager V) : AnyCall V → Prop
  | .put _ _ _ => True
  | .remove _ _ => True
  | .clear _ => True
  | .compact => True
  | .load persistToDisk data readable => persistToDisk = true → readable = true →
      ∀ e ∈ fileEntries data, Admissible m.config.maxValueSize e
  | .setConfig config => ∀ k e, m.entries.lookup k = some e → e.data.length ≤ config.maxValueSize
  | .attach _ => True
  | .peerConnected _ => True
  | .requestSync => True
  | .message _ payload => ∀ e ∈ carried payload, Admissible m.config.maxValueSize e

/-- Every call of a run is admissible, in the state it is made in. -/
def RunAdmissible (m : StorageManager V) : List (AnyCall V) → Prop
  | [] => True
  | c :: cs => m.CallAdmissible c ∧ (m.afterCall c).RunAdmissible cs

/-- How an entry comes to be stored under a key after a call. -/
inductive Origin (m : StorageManager V) : AnyCall V → Bytes → StorageEntry → Prop
  | kept (c : AnyCall V) (k : Bytes) (e : StorageEntry) (h : m.entries.lookup k = some e) :
      Origin m c k e
  | buried (c : AnyCall V) (k : Bytes) (e : StorageEntry) (h : m.Buried k e) : Origin m c k e
  | put (key : Bytes) (value : Value) (clock : UInt64) (hkey : key ≠ [])
      (hsize : value.serialize.length ≤ m.config.maxValueSize) :
      Origin m (.put key value clock) key (m.newEntry key value.type value.serialize 0 [] clock)
  | loaded (data : Option Bytes) (e : StorageEntry) (h : e ∈ fileEntries data) :
      Origin m (.load true data true) e.key e
  | received (sender : V) (payload : Bytes) (e : StorageEntry) (h : e ∈ carried payload) :
      Origin m (.message sender payload) e.key e

variable {m : StorageManager V} {c : AnyCall V}

theorem origin_of_lookup {k : Bytes} {e : StorageEntry}
    (h : (m.afterCall c).entries.lookup k = some e) : m.Origin c k e := by
  cases c with
  | put key value clock =>
    rcases lookup_put_cases h with h | ⟨rfl, hkey, hsize, rfl⟩
    · exact .kept _ k e h
    · exact .put k value clock hkey hsize
  | remove key clock => exact (lookup_remove_cases h).elim (.kept _ k e) (.buried _ k e)
  | clear clock => exact (lookup_removeAll_cases h).elim (.kept _ k e) (.buried _ k e)
  | compact => exact .kept _ k e (lookup_compact_cases h).1
  | load persistToDisk data readable =>
    rcases lookup_load_cases h with h | ⟨rfl, rfl, hmem, rfl⟩
    · exact .kept _ k e h
    · exact .loaded data e hmem
  | setConfig config | attach network => exact .kept _ k e h
  | peerConnected peer =>
    rw [afterCall, (m.onPeerConnected_spec peer).1] at h
    exact .kept _ k e h
  | requestSync =>
    rw [afterCall, m.requestSync_spec.1] at h
    exact .kept _ k e h
  | message sender payload =>
    rw [afterCall, (m.onStorageMessage_spec sender payload).1] at h
    exact forall_lookup_foldl_absorb (.kept _) (.received sender payload) k e h

theorem afterCall_filed (hm : ∀ k e, m.entries.lookup k = some e → Filed k e) (c : AnyCall V) :
    ∀ k e, (m.afterCall c).entries.lookup k = some e → Filed k e := by
  intro k e h
  cases origin_of_lookup h with
  | kept _ _ _ h => exact hm k e h
  | buried _ _ _ h =>
    obtain ⟨old, clock, hold, -, rfl⟩ := h
    exact ⟨(hm k old hold).key, verifyChecksum_calculateChecksum _⟩
  | put _ value clock hkey hsize => exact ⟨rfl, verifyChecksum_calculateChecksum _⟩
  | loaded data _ hmem => exact ⟨rfl, (readable_of_mem_fileEntries hmem).checksum⟩
  | received sender payload _ hmem => exact ⟨rfl, (readable_of_mem_carried hmem).checksum⟩

theorem afterCall_config (m : StorageManager V) (c : AnyCall V) :
    (m.afterCall c).config = m.config ∨
      ∃ config, c = .setConfig config ∧ (m.afterCall c).config = config := by
  cases c with
  | put key value clock => exact .inl (m.put_config key value clock)
  | remove key clock => exact .inl (m.remove_config key clock)
  | clear clock => exact .inl (m.removeAll_config m.liveKeys clock)
  | compact => exact .inl m.compact_config
  | load persistToDisk data readable => exact .inl rfl
  | setConfig config => exact .inr ⟨config, rfl, rfl⟩
  | attach network => exact .inl rfl
  | peerConnected peer => exact .inl (m.onPeerConnected_spec peer).2.1
  | requestSync => exact .inl m.requestSync_spec.2
  | message sender payload => exact .inl (m.onStorageMessage_spec sender payload).2.2

theorem afterCall_admissible
    (hm : ∀ k e, m.entries.lookup k = some e → Admissible m.config.maxValueSize e)
    (hc : m.CallAdmissible c) : ∀ k e, (m.afterCall c).entries.lookup k = some e →
      Admissible (m.afterCall c).config.maxValueSize e := by
  intro k e h
  rcases m.afterCall_config c with hcfg | ⟨config, rfl, hcfg⟩
  · rw [hcfg]
    cases origin_of_lookup h with
    | kept _ _ _ h => exact hm k e h
    | buried _ _ _ h =>
      obtain ⟨old, clock, hold, -, rfl⟩ := h
      exact ⟨(hm k old hold).key_ne_nil, Nat.zero_le _, fun _ => rfl⟩
    | put _ value clock hkey hsize => exact ⟨hkey, hsize, fun hd => absurd hd Bool.false_ne_true⟩
    | loaded data _ hmem => exact hc rfl rfl e hmem
    | received sender payload _ hmem => exact hc e hmem
  · rw [hcfg]
    have he := hm k e h
    exact ⟨he.key_ne_nil, hc k e h, he.tombstone⟩

theorem run_wellFormed (hm : WellFormed m) {cs : List (AnyCall V)} (h : m.RunAdmissible cs) :
    WellFormed (m.afterRun cs) := by
  induction cs generalizing m with
  | nil => exact hm
  | cons c cs ih =>
    refine ih (fun k e he => ?_) h.2
    exact ⟨afterCall_filed (fun k e h => (hm k e h).1) c k e he,
      afterCall_admissible (fun k e h => (hm k e h).2) h.1 k e he⟩

/-- **Well-formed stores.** If the entries from peers and from the data file are admissible, and no
new configuration is too small for what is stored, the store is well formed. -/
theorem created_run_wellFormed (config : StorageConfig) (cs : List (AnyCall V))
    (h : (created V config).RunAdmissible cs) : WellFormed ((created V config).afterRun cs) := by
  refine run_wellFormed (fun k e he => ?_) h
  simp [created] at he

/-- The message of a peer with an entry whose key is empty. -/
def emptyKeyMessage : Bytes := entryMessage (new [] 2 [118] 1000 [112])

/-- An entry with an empty key is taken from a peer. -/
theorem emptyKey_not_wellFormed :
    ¬ WellFormed ((created ℕ {}).afterRun [.message 1 emptyKeyMessage]) := by
  intro h
  have hstored : ((created ℕ {}).afterRun [.message 1 emptyKeyMessage]).entries.lookup [] =
      some (new [] 2 [118] 1000 [112]) := by decide +kernel
  exact (h _ _ hstored).2.key_ne_nil rfl

/-- A peer's admissible entry, between a local put and a delete. -/
def admissibleCalls : List (AnyCall ℕ) :=
  [.put [107] (.string [118]) 1000,
    .message 1 (entryMessage (new [113] 2 [119] 1001 [112])), .remove [107] 1002]

theorem created_run_wellFormed_admissibleCalls : (created ℕ {}).RunAdmissible admissibleCalls ∧
      WellFormed ((created ℕ {}).afterRun admissibleCalls) := by
  have hcarried : carried (entryMessage (new [113] 2 [119] 1001 [112])) =
      [new [113] 2 [119] 1001 [112]] := by decide +kernel
  have hrun : (created ℕ {}).RunAdmissible admissibleCalls := by
    refine ⟨trivial, fun e he => ?_, trivial, trivial⟩
    rw [hcarried, List.mem_singleton] at he
    subst he
    exact ⟨by decide, by decide, by decide⟩
  exact ⟨hrun, created_run_wellFormed {} admissibleCalls hrun⟩

end StorageManager

end Librats.Storage
