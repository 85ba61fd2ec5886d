import Librats.Storage.Mesh
import Librats.Storage.WellFormed

/-!
# Stored entries come back

A store that was saved is loaded as it was, and a manager that has nothing takes a snapshot of it as
it is (`entries_survive`). Both formats put the number of entries into 32 bits. From 2³² entries on
it wraps, and fewer of them come back (`count_wraps`).
-/

namespace Librats.Storage

open BigEndian List StorageEntry

variable {V : Type}

theorem foldl_absorb_eq_insert {l : List (Sigma fun _ : Bytes => StorageEntry)}
    (hnodup : l.NodupKeys) (hkey : ∀ p ∈ l, p.2.key = p.1) {s : Entries}
    (hnew : ∀ p ∈ l, s.lookup p.1 = none) :
    (l.map (·.2)).foldl absorb s = (l.map (·.2)).foldl (fun s e => s.insert e.key e) s := by
  induction l generalizing s with
  | nil => rfl
  | cons p l ih =>
    obtain ⟨hp, hnodup⟩ := nodupKeys_cons.mp hnodup
    have hpk := hkey p (.head _)
    have habsorb : absorb s p.2 = s.insert p.2.key p.2 := by
      rw [absorb, hpk, hnew p (.head _)]
      rfl
    rw [map_cons, foldl_cons, habsorb]
    refine ih hnodup (fun q hq => hkey q (.tail _ hq)) fun q hq => ?_
    have hne : q.1 ≠ p.2.key := by
      rw [hpk]
      rintro heq
      exact hp (heq ▸ mem_keys_of_mem hq)
    rw [AList.lookup_insert_ne hne]
    exact hnew q (.tail _ hq)

/-- **Stored entries survive serialization**: an entry is read back wherever it stands, and so are
all entries after a complete save and from a snapshot. -/
theorem entries_survive {s : Entries} (hcount : s.entries.length < 2 ^ 32)
    (hs : ∀ p ∈ s.entries, p.2.key = p.1 ∧ p.2.verifyChecksum = true ∧ p.2.Fits) :
    (∀ e : StorageEntry, e.Fits → ∀ before after : Bytes, deserialize
      (before ++ (e.serialize ++ after)) before.length = some (e, e.serialize.length)) ∧
    (∀ (o : Outcomes) (f : Files) (stop : ℕ) (old : Entries), o.Complete (fileChunks s) →
      (save true s o f stop).point = .returned true →
      (load true (save true s o f stop).files.data true old).1 = true ∧
        ∀ k, (load true (save true s o f stop).files.data true old).2.lookup k = s.lookup k) ∧
    ∀ m : StorageManager V, m.entries = ∅ → ∀ k,
      (m.onSyncResponse (snapshotMessage s)).1.entries.lookup k = s.lookup k := by
  have hkey : ∀ p ∈ s.entries, p.2.key = p.1 := fun p hp => (hs p hp).1
  have hreadable : ∀ p ∈ s.entries, Readable p.2 := fun p hp =>
    ⟨(hs p hp).2.2.lengthsFit, (hs p hp).2.1⟩
  refine ⟨fun e he => deserialize_serialize he, fun o f stop old ho hsaved => ?_,
    fun m hm k => ?_⟩
  · have hdata : (save true s o f stop).files.data = some (dataFile s) := by
      rw [save, if_pos rfl] at hsaved ⊢
      rw [(Reached.run stop).data_of_saved hsaved, (closed_written_eq_iff o _).mpr ho]
      rfl
    rw [hdata]
    exact readDataFile_dataFile hcount hkey hreadable old
  · have hcarried := carried_snapshotMessage hreadable
    rw [Nat.mod_eq_of_lt hcount, take_of_length_le (length_map ..).le] at hcarried
    rw [snapshotMessage, cons_append, (m.onSyncResponse_spec _).1, ← cons_append, ← snapshotMessage,
      hcarried, hm, foldl_absorb_eq_insert s.nodupKeys hkey fun _ _ => rfl,
      lookup_foldl_insert _ s.nodupKeys hkey]
    simp [AList.lookup]

/-- Two entries after a save that succeeds, and from a snapshot. -/
theorem entries_survive_two :
    let s := (AList.singleton [7] (.new [7] 2 [1] 5 [9])).insert [8] (.new [8] 2 [2] 6 [9])
    let saved := save true s ⟨true, fun _ => false, fun _ => 64, none, true, true, true, true⟩
      ⟨none, none⟩ 9
    saved.point = .returned true ∧
      (∀ k, (load true saved.files.data true ∅).2.lookup k = s.lookup k) ∧
      ∀ k, ((StorageManager.created ℕ {}).onSyncResponse (snapshotMessage s)).1.entries.lookup k =
        s.lookup k := by
  intro s saved
  have hsaved : saved.point = .returned true := by decide +kernel
  have hchunks : ∀ chunk ∈ fileChunks s, chunk.length ≤ 64 := by decide +kernel
  obtain ⟨-, hload, hsnapshot⟩ := entries_survive (s := s) (V := ℕ) (by decide) (by decide +kernel)
  exact ⟨hsaved, (hload _ _ _ ∅ ⟨fun _ _ h => hchunks _ (mem_of_getElem? h), by rintro _ ⟨⟩⟩
    hsaved).2, hsnapshot (.created ℕ {}) rfl⟩

theorem exists_store {n : ℕ} (hn : n ≤ 256 ^ 4) : ∃ s : Entries, s.entries.length = n ∧
    ∀ p ∈ s.entries, p.2.key = p.1 ∧ p.2.verifyChecksum = true ∧ p.2.Fits := by
  let entry (i : ℕ) : Sigma fun _ : Bytes => StorageEntry := ⟨encode 4 i, .new (encode 4 i) 2 [] 0 []⟩
  have hnodup : ((range n).map entry).NodupKeys := by
    rw [NodupKeys, keys, map_map]
    refine nodup_range.map_on fun i hi j hj hij => ?_
    rw [← decode_encode ((mem_range.mp hi).trans_le hn),
      ← decode_encode ((mem_range.mp hj).trans_le hn)]
    exact congrArg decode hij
  refine ⟨⟨_, hnodup⟩, by simp, fun p hp => ?_⟩
  obtain ⟨i, -, rfl⟩ := mem_map.mp hp
  refine ⟨rfl, verifyChecksum_calculateChecksum _, ?_⟩
  simp [entry, StorageEntry.Fits, encodedLength, new, calculateChecksum]

/-- With 2³² entries the counts are 0: nothing is loaded or taken from the snapshot. -/
theorem count_wraps : ∃ s : Entries, s.entries.length = 2 ^ 32 ∧
    (∀ p ∈ s.entries, p.2.key = p.1 ∧ p.2.verifyChecksum = true ∧ p.2.Fits) ∧
      (∀ old, load true (some (dataFile s)) true old = (true, ∅)) ∧
      carried (snapshotMessage s) = [] := by
  obtain ⟨s, hlength, hs⟩ := exists_store (n := 2 ^ 32) (by norm_num)
  have hcount : s.entries.length % 2 ^ 32 = 0 := by
    rw [hlength, Nat.mod_self]
  refine ⟨s, hlength, hs, fun old => ?_, ?_⟩
  · change readDataFile (some (dataFile s)) old = _
    rw [readDataFile, entryCount_dataFile, hcount]
    rfl
  · rw [carried_snapshotMessage fun p hp => ⟨(hs p hp).2.2.lengthsFit, (hs p hp).2.1⟩, hcount]
    rfl

end Librats.Storage
