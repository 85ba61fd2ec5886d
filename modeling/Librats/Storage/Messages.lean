import Librats.Storage.Manager

/-!
# What a message does to a store

Every payload, well formed or not, carries a list of entries (`carried`): those that `deserialize`
reads from it and whose checksum is right. All that `on_storage_message` does to the store is to
absorb these one after the other (`onStorageMessage_entries`).
-/

namespace Librats.Storage

open BigEndian List StorageEntry

/-! ## Absorbing entries -/

/-- An entry takes the place of what is stored under its key, if it wins. -/
def absorb (s : Entries) (e : StorageEntry) : Entries :=
  if (s.lookup e.key).any fun old => !e.winsOver old then s else s.insert e.key e

variable {s : Entries} {e : StorageEntry} {l : List StorageEntry}

theorem lookup_absorb_cases {x : StorageEntry} {k : Bytes} (h : (absorb s e).lookup k = some x) :
    s.lookup k = some x ∨ k = e.key ∧ x = e ∧ ∀ old, s.lookup k = some old → e.winsOver old = true := by
  unfold absorb at h
  split_ifs at h with hlww
  · exact .inl h
  obtain ⟨rfl, rfl⟩ | ⟨-, h⟩ := AssocList.lookup_of_insert h
  · refine .inr ⟨rfl, rfl, fun old hold => ?_⟩
    simpa [hold] using hlww
  · exact .inl h

theorem foldl_absorb_of_loses
    (h : ∀ e ∈ l, (s.lookup e.key).any (fun old => !e.winsOver old) = true) :
    l.foldl absorb s = s := by
  induction l with
  | nil => rfl
  | cons e l ih =>
    have he : absorb s e = s := if_pos (h e (.head _))
    rw [foldl_cons, he]
    exact ih fun x hx => h x (.tail _ hx)

theorem forall_lookup_foldl_absorb {P : Bytes → StorageEntry → Prop}
    (hs : ∀ k e, s.lookup k = some e → P k e) (hl : ∀ e ∈ l, P e.key e) :
    ∀ k e, (l.foldl absorb s).lookup k = some e → P k e := by
  induction l generalizing s with
  | nil => exact hs
  | cons a l ih =>
    refine ih (fun k e h => ?_) fun e he => hl e (.tail _ he)
    rcases lookup_absorb_cases h with h | ⟨rfl, rfl, -⟩
    · exact hs k e h
    · exact hl e (.head _)

/-! ## The entries of a payload -/

/-- The entries that stand in a row in a buffer: at most `count`, up to the first unreadable one,
and without those whose checksum is wrong. -/
def listedEntries (buf : Bytes) : (count offset : ℕ) → List StorageEntry
  | 0, _ => []
  | count + 1, offset =>
    if buf.length ≤ offset then []
    else
      match deserialize buf offset with
      | none => []
      | some (entry, bytesRead) =>
        if entry.verifyChecksum then entry :: listedEntries buf count (offset + bytesRead)
        else listedEntries buf count (offset + bytesRead)

/-- The entries a payload carries. -/
def carried (payload : Bytes) : List StorageEntry :=
  match payload with
  | [] => []
  | op :: buf =>
    if op = opEntry then
      match deserialize buf 0 with
      | none => []
      | some (entry, _) => if entry.verifyChecksum then [entry] else []
    else if op = opSyncResponse then
      match readNat payload 1 4 with
      | none => []
      | some count => listedEntries (payload.drop 5) count 0
    else []

/-- An entry that whoever gets it reads and takes. -/
structure Readable (e : StorageEntry) : Prop where
  lengths : e.LengthsFit
  checksum : e.verifyChecksum = true

theorem listedEntries_eq {buf : Bytes} (l : List StorageEntry) {count pos : ℕ} {rest : Bytes}
    (hrest : Rest buf pos ((l.map (·.serialize)).flatten ++ rest)) (hl : ∀ e ∈ l, Readable e)
    (hcount : count ≤ l.length) : listedEntries buf count pos = l.take count := by
  induction l generalizing count pos with
  | nil =>
    obtain rfl : count = 0 := by simpa using hcount
    rfl
  | cons e l ih =>
    cases count with
    | zero => rfl
    | succ count =>
      have he := hl e (.head _)
      simp only [map_cons, flatten_cons, append_assoc] at hrest
      have hlen := hrest.length_le
      rw [length_append, length_serialize] at hlen
      have hlt : ¬ buf.length ≤ pos := by omega
      rw [listedEntries, if_neg hlt, he.lengths.deserialize_eq hrest]
      simp only [he.checksum, if_true, take_succ_cons, List.cons.injEq, true_and]
      exact ih (hrest.skip rfl) (fun x hx => hl x (.tail _ hx)) (Nat.le_of_succ_le_succ hcount)

theorem carried_entry (buf : Bytes) : carried (opEntry :: buf) =
    match deserialize buf 0 with
    | none => []
    | some (entry, _) => if entry.verifyChecksum then [entry] else [] := by
  simp [carried]

theorem carried_syncResponse (buf : Bytes) : carried (opSyncResponse :: buf) =
    match readNat (opSyncResponse :: buf) 1 4 with
    | none => []
    | some count => listedEntries (buf.drop 4) count 0 := by
  have hne : opSyncResponse ≠ opEntry := by decide
  simp [carried, if_neg hne]

theorem carried_syncRequest : carried [opSyncRequest] = [] := by decide

theorem readable_of_mem_listedEntries {buf : Bytes} {count offset : ℕ}
    (h : e ∈ listedEntries buf count offset) : Readable e := by
  induction count generalizing offset with
  | zero => exact absurd h not_mem_nil
  | succ count ih =>
    unfold listedEntries at h
    split_ifs at h with hend
    · exact absurd h not_mem_nil
    split at h
    · exact absurd h not_mem_nil
    · rename_i hd
      split_ifs at h with hsum
      · rcases mem_cons.mp h with rfl | h
        · exact ⟨(deserialize_spec hd).1, hsum⟩
        · exact ih h
      · exact ih h

theorem readable_of_mem_carried {payload : Bytes} (h : e ∈ carried payload) : Readable e := by
  unfold carried at h
  split at h
  · exact absurd h not_mem_nil
  split_ifs at h with hentry hresponse
  · split at h
    · exact absurd h not_mem_nil
    · rename_i hd
      split_ifs at h with hsum
      · rw [mem_singleton] at h
        subst h
        exact ⟨(deserialize_spec hd).1, hsum⟩
      · exact absurd h not_mem_nil
  · split at h
    · exact absurd h not_mem_nil
    · exact readable_of_mem_listedEntries h
  · exact absurd h not_mem_nil

theorem carried_entryMessage (h : Readable e) : carried (StorageManager.entryMessage e) = [e] := by
  have r₀ : Rest e.serialize 0 (e.serialize ++ []) := ⟨[], by simp, rfl⟩
  have hd := h.lengths.deserialize_eq r₀
  rw [StorageManager.entryMessage, carried_entry, hd]
  simp [h.checksum]

namespace StorageManager

variable {V : Type}

/-! ## The store after a message -/

theorem absorb_of_wins {m : StorageManager V} {e : StorageEntry} (h : m.loses e.key e = false) :
    absorb m.entries e = m.entries.insert e.key e :=
  if_neg (Bool.eq_false_iff.mp h)

variable (m : StorageManager V)

theorem applyRemoteEntry_absorb (e : StorageEntry) :
    m.applyRemoteEntry e = none ∧ absorb m.entries e = m.entries ∨
    ∃ event, m.applyRemoteEntry e = some ({ m with entries := absorb m.entries e },
      [.stored e.key (m.entries.lookup e.key) e], event) := by
  obtain ⟨hl, ha⟩ | ⟨hl, event, ha⟩ := m.applyRemoteEntry_cases e
  · exact .inl ⟨ha, if_pos hl⟩
  · exact .inr ⟨event, by rw [ha, absorb_of_wins hl]⟩

theorem applySnapshot_entries (buf : Bytes) (count offset : ℕ) :
    (m.applySnapshot buf count offset).2.1 =
      { m with entries := (listedEntries buf count offset).foldl absorb m.entries } := by
  induction count generalizing m offset with
  | zero => rfl
  | succ count ih =>
    unfold applySnapshot listedEntries
    split_ifs with hend
    · rfl
    cases hd : deserialize buf offset with
    | none => rfl
    | some p =>
      obtain ⟨e, n⟩ := p
      dsimp only
      split_ifs with hsum
      · obtain ⟨ha, habs⟩ | ⟨event, ha⟩ := m.applyRemoteEntry_absorb e
        · simp only [ha, foldl_cons, habs]
          exact ih m _
        · simp only [ha]
          exact ih _ _
      · exact ih m _

theorem onEntry_spec [DecidableEq V] (u : V) (buf : Bytes) :
    (m.onEntry u buf).1.entries = (carried (opEntry :: buf)).foldl absorb m.entries ∧
      (m.onEntry u buf).1.network = m.network ∧ (m.onEntry u buf).1.config = m.config := by
  rw [carried_entry]
  unfold onEntry
  cases hd : deserialize buf 0 with
  | none => exact ⟨rfl, rfl, rfl⟩
  | some p =>
    obtain ⟨e, n⟩ := p
    dsimp only
    split_ifs with hsum
    · obtain ⟨ha, habs⟩ | ⟨event, ha⟩ := m.applyRemoteEntry_absorb e
      · simp [ha, habs]
      · simp [ha, markDirty]
    · exact ⟨rfl, rfl, rfl⟩

theorem onSyncResponse_spec (buf : Bytes) : (m.onSyncResponse (opSyncResponse :: buf)).1.entries =
      (carried (opSyncResponse :: buf)).foldl absorb m.entries ∧
    (m.onSyncResponse (opSyncResponse :: buf)).1.network = m.network ∧
    (m.onSyncResponse (opSyncResponse :: buf)).1.config = m.config := by
  rw [carried_syncResponse]
  unfold onSyncResponse
  cases hc : readNat (opSyncResponse :: buf) 1 4 with
  | none => exact ⟨rfl, rfl, rfl⟩
  | some count =>
    simp only [applySnapshot_entries]
    split_ifs
    · exact ⟨rfl, rfl, rfl⟩
    · exact ⟨rfl, rfl, rfl⟩

/-- **A message absorbs the entries it carries**, and changes nothing else but statistics and flags.
-/
theorem onStorageMessage_spec [DecidableEq V] (u : V) (payload : Bytes) :
    (m.onStorageMessage u payload).1.entries = (carried payload).foldl absorb m.entries ∧
      (m.onStorageMessage u payload).1.network = m.network ∧
      (m.onStorageMessage u payload).1.config = m.config := by
  cases payload with
  | nil => exact ⟨rfl, rfl, rfl⟩
  | cons op buf =>
    simp only [onStorageMessage]
    split_ifs with hentry hrequest hresponse
    · subst hentry
      exact m.onEntry_spec u buf
    · subst hrequest
      exact ⟨rfl, rfl, rfl⟩
    · subst hresponse
      exact m.onSyncResponse_spec buf
    · simp [carried, hentry, hresponse]

end StorageManager

end Librats.Storage
