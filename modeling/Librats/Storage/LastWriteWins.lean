import Librats.Storage.Manager

/-!
# When a change wins over the entry it replaces

`remove` stamps the stored entry with the clock and compares nothing, so every change wins over the
entry it replaces exactly if every delete of a live entry finds a stamp below `(clock, own id)`
(`run_replacesWin_iff`).
-/

namespace Librats.Storage

open StorageManager List

variable {V : Type}

/-! ## Writes of a trace -/

/-- A trace without writes. -/
def NoWrite (trace : List (Event V)) : Prop :=
  ∀ key old new, Event.stored key old new ∉ trace

/-- Every write of a trace that replaces an entry wins over it. -/
def ReplacesWin (trace : List (Event V)) : Prop :=
  ∀ key old new, Event.stored key (some old) new ∈ trace → new.winsOver old = true

/-- The writes of `trace` lead from the store `s` to the store `s'`, and each shows the entry it
replaces. -/
inductive Writes : Entries → List (Event V) → Entries → Prop
  | nil (s : Entries) : Writes s [] s
  | stored {s s' : Entries} {key : Bytes} {e : StorageEntry} {trace : List (Event V)}
      (h : Writes (s.insert key e) trace s') : Writes s (.stored key (s.lookup key) e :: trace) s'
  | other {s s' : Entries} {event : Event V} {trace : List (Event V)}
      (hn : NoWrite [event]) (h : Writes s trace s') : Writes s (event :: trace) s'

/-- The writes of `trace` lead from `s` to `s'`, and win over what they replace. -/
structure WinningWrites (s : Entries) (trace : List (Event V)) (s' : Entries) : Prop where
  writes : Writes s trace s'
  wins : ReplacesWin trace

theorem noWrite_notified (event : StorageChangeEvent) :
    NoWrite [(Event.notified event : Event V)] := by
  intro k o n hm
  simp at hm

theorem noWrite_syncCompleted (success : Bool) :
    NoWrite [(Event.syncCompleted success : Event V)] := by
  intro k o n hm
  simp at hm

@[simp] theorem replacesWin_nil : ReplacesWin ([] : List (Event V)) :=
  nofun

@[simp] theorem replacesWin_append (s t : List (Event V)) :
    ReplacesWin (s ++ t) ↔ ReplacesWin s ∧ ReplacesWin t := by
  constructor
  · intro h
    exact ⟨fun k o n hm => h k o n (mem_append_left _ hm),
      fun k o n hm => h k o n (mem_append_right _ hm)⟩
  · rintro ⟨hs, ht⟩ k o n hm
    rcases mem_append.mp hm with hm | hm
    · exact hs k o n hm
    · exact ht k o n hm

theorem replacesWin_stored (key : Bytes) (old : Option StorageEntry) (new : StorageEntry) :
    ReplacesWin [(Event.stored key old new : Event V)] ↔
      ∀ e, old = some e → new.winsOver e = true := by
  constructor
  · rintro h e rfl
    exact h key e new (mem_singleton_self _)
  · intro h k o n hm
    obtain ⟨rfl, ho, rfl⟩ : k = key ∧ some o = old ∧ n = new := by simpa using hm
    exact h o ho.symm

theorem Writes.append {s s' s'' : Entries} {t t' : List (Event V)} (h : Writes s t s')
    (h' : Writes s' t' s'') : Writes s (t ++ t') s'' := by
  induction h with
  | nil => exact h'
  | stored _ ih => exact .stored (ih h')
  | other hn _ ih => exact .other hn (ih h')

theorem NoWrite.winningWrites {t : List (Event V)} (h : NoWrite t) (s : Entries) :
    WinningWrites s t s := by
  refine ⟨?_, fun k o n hm => absurd hm (h k (some o) n)⟩
  induction t with
  | nil => exact .nil s
  | cons event t ih =>
    refine .other (fun k o n hm => ?_) (ih fun k o n hm => h k o n (.tail _ hm))
    rw [mem_singleton] at hm
    exact h k o n (hm ▸ .head _)

namespace WinningWrites

theorem nil (s : Entries) : WinningWrites (V := V) s [] s := ⟨.nil s, replacesWin_nil⟩

theorem append {s s' s'' : Entries} {t t' : List (Event V)} (h : WinningWrites s t s')
    (h' : WinningWrites s' t' s'') : WinningWrites s (t ++ t') s'' :=
  ⟨h.writes.append h'.writes, (replacesWin_append ..).mpr ⟨h.wins, h'.wins⟩⟩

end WinningWrites

namespace StorageManager

variable (m : StorageManager V)

theorem broadcastEntry_noWrite (e : StorageEntry) : NoWrite (m.broadcastEntry e).2 := by
  intro k o n hm
  unfold broadcastEntry at hm
  split at hm <;> simp at hm

theorem forwardEntry_noWrite [DecidableEq V] (e : StorageEntry) (v : V) :
    NoWrite (m.forwardEntry e v) := by
  intro k o n hm
  unfold forwardEntry at hm
  split at hm <;> simp at hm

theorem sendSyncResponse_noWrite (v : V) : NoWrite (m.sendSyncResponse v) := by
  intro k o n hm
  unfold sendSyncResponse at hm
  split at hm <;> simp at hm

/-! ## Puts and messages -/

variable (key : Bytes)

section

variable (e : StorageEntry) (broadcast : Bool) (event : StorageChangeEvent)

theorem commit_eq : ∃ t, NoWrite t ∧
      (m.commit key e broadcast event).2 = .stored key (m.entries.lookup key) e :: t := by
  refine ⟨_, fun k o n hm => ?_, rfl⟩
  rcases mem_append.mp hm with hm | hm
  · cases broadcast
    · simp at hm
    · exact broadcastEntry_noWrite _ _ k o n hm
  · exact noWrite_notified event k o n hm

theorem commit_writes : Writes m.entries (m.commit key e broadcast event).2
      (m.commit key e broadcast event).1.entries := by
  obtain ⟨t, ht, h⟩ := m.commit_eq key e broadcast event
  rw [h, commit_entries]
  exact .stored (ht.winningWrites _).writes

theorem commit_replacesWin_iff : ReplacesWin (m.commit key e broadcast event).2 ↔
      ∀ old, m.entries.lookup key = some old → e.winsOver old = true := by
  obtain ⟨t, ht, h⟩ := m.commit_eq key e broadcast event
  rw [h, ← singleton_append, replacesWin_append, replacesWin_stored]
  exact and_iff_left (ht.winningWrites m.entries).wins

end

theorem put_winningWrites (value : Value) (clock : UInt64) : WinningWrites m.entries
    (m.put key value clock).2.2 (m.put key value clock).2.1.entries := by
  obtain ⟨h, -⟩ | ⟨-, -, hlww, event, h⟩ := m.put_cases key value clock
  · rw [h]
    exact .nil _
  · rw [h]
    exact ⟨m.commit_writes .., (commit_replacesWin_iff ..).mpr (loses_eq_false.mp hlww)⟩

theorem applyRemoteEntry_winningWrites {m m' : StorageManager V} {e : StorageEntry}
    {trace : List (Event V)} {event : StorageChangeEvent}
    (h : m.applyRemoteEntry e = some (m', trace, event)) :
    WinningWrites m.entries (trace ++ [.notified event]) m'.entries := by
  obtain ⟨-, h'⟩ | ⟨hlww, event', h'⟩ := m.applyRemoteEntry_cases e
  · simp [h'] at h
  · obtain ⟨rfl, rfl, rfl⟩ : _ = m' ∧ _ = trace ∧ _ = event := by
      simpa [h', Option.some_inj] using h
    exact .append ⟨.stored (.nil _), (replacesWin_stored ..).mpr (loses_eq_false.mp hlww)⟩
      ((noWrite_notified _).winningWrites _)

theorem applySnapshot_winningWrites (buf : Bytes) (count offset : ℕ) :
    WinningWrites m.entries (m.applySnapshot buf count offset).2.2
      (m.applySnapshot buf count offset).2.1.entries := by
  induction count generalizing m offset with
  | zero => exact .nil _
  | succ count ih =>
    unfold applySnapshot
    split_ifs with hend
    · exact .nil _
    split
    · exact .nil _
    split_ifs with hsum
    · split
      · exact ih _ _
      · rename_i happ
        exact (applyRemoteEntry_winningWrites happ).append (ih _ _)
    · exact ih _ _

theorem onEntry_winningWrites [DecidableEq V] (sender : V) (buf : Bytes) :
    WinningWrites m.entries (m.onEntry sender buf).2 (m.onEntry sender buf).1.entries := by
  unfold onEntry
  split
  · exact .nil _
  split_ifs with hsum
  · split
    · exact .nil _
    · rename_i happ
      exact (applyRemoteEntry_winningWrites happ).append
        ((forwardEntry_noWrite _ _ _).winningWrites _)
  · exact .nil _

theorem onSyncResponse_winningWrites (payload : Bytes) :
    WinningWrites m.entries (m.onSyncResponse payload).2 (m.onSyncResponse payload).1.entries := by
  unfold onSyncResponse
  split
  · exact .nil _
  · rename_i count _
    have h := (m.applySnapshot_winningWrites (payload.drop 5) count 0).append
      ((noWrite_syncCompleted true).winningWrites _)
    by_cases happ : 0 < (m.applySnapshot (payload.drop 5) count 0).1
    · simpa [if_pos happ, markDirty] using h
    · simpa [if_neg happ] using h

theorem onStorageMessage_winningWrites [DecidableEq V] (sender : V)
    (payload : Bytes) : WinningWrites m.entries (m.onStorageMessage sender payload).2
      (m.onStorageMessage sender payload).1.entries := by
  unfold onStorageMessage
  split
  · exact .nil _
  split_ifs with hentry hrequest hresponse
  · exact m.onEntry_winningWrites _ _
  · exact (sendSyncResponse_noWrite _ _).winningWrites _
  · exact m.onSyncResponse_winningWrites _
  · exact .nil _

/-! ## Deletes -/

/-- The stamp of a delete of `key` at `clock` lies above that of the live entry. -/
def Advances (clock : UInt64) : Prop :=
  ∀ e, m.entries.lookup key = some e → e.deleted = false →
    e.stamp < toLex (clock.toNat, m.getOurPeerId.map UInt8.toNat)

theorem remove_replacesWin_iff (clock : UInt64) :
    ReplacesWin (m.remove key clock).2.2 ↔ m.Advances key clock := by
  cases hl : m.entries.lookup key with
  | none => simp [remove, Advances, hl]
  | some e =>
    cases hd : e.deleted with
    | true => simp [remove, Advances, hl, hd]
    | false =>
      simp only [remove, hl, hd, Bool.false_eq_true, if_false, commit_replacesWin_iff, Advances,
        Option.some_inj, forall_eq', true_imp_iff, StorageEntry.winsOver_iff_stamp_lt]
      rfl

theorem remove_lookup_ne {key k : Bytes} (h : k ≠ key) (clock : UInt64) :
    (m.remove key clock).2.1.entries.lookup k = m.entries.lookup k := by
  unfold remove
  split
  · rfl
  split_ifs
  · rfl
  · rw [commit_entries, AList.lookup_insert_ne h]

theorem removeAll_replacesWin_iff {keys : List Bytes} (hkeys : keys.Nodup)
    (clock : Bytes → UInt64) :
    ReplacesWin (m.removeAll keys clock).2 ↔ ∀ k ∈ keys, m.Advances k (clock k) := by
  induction keys generalizing m with
  | nil => simp [removeAll]
  | cons key keys ih =>
    obtain ⟨hkey, hkeys⟩ := nodup_cons.mp hkeys
    rw [removeAll, replacesWin_append, remove_replacesWin_iff, ih _ hkeys, forall_mem_cons]
    refine and_congr_right fun _ => forall₂_congr fun k hk => ?_
    simp [Advances, remove_lookup_ne m (ne_of_mem_of_not_mem hk hkey), getOurPeerId, remove_network]

/-! ## Runs -/

/-- A call of the manager. -/
inductive Call (V : Type)
  | put (key : Bytes) (value : Value) (clock : UInt64)
  | remove (key : Bytes) (clock : UInt64)
  | clear (clock : Bytes → UInt64)
  | message (sender : V) (payload : Bytes)

variable [DecidableEq V]

/-- A call and its trace. -/
def call : Call V → StorageManager V × List (Event V)
  | .put key value clock => (m.put key value clock).2
  | .remove key clock => (m.remove key clock).2
  | .clear clock => m.clear clock
  | .message sender payload => m.onStorageMessage sender payload

/-- A run of calls and its trace. -/
def run (m : StorageManager V) : List (Call V) → StorageManager V × List (Event V)
  | [] => (m, [])
  | c :: cs =>
    let r := m.call c
    let rest := r.1.run cs
    (rest.1, r.2 ++ rest.2)

/-- Every delete of a call advances the stamp of the live entry it finds. -/
def CallAdvances : Call V → Prop
  | .put _ _ _ => True
  | .remove key clock => m.Advances key clock
  | .clear clock => ∀ key ∈ m.liveKeys, m.Advances key (clock key)
  | .message _ _ => True

/-- Every call of a run advances, in the state it is made in. -/
def RunAdvances (m : StorageManager V) : List (Call V) → Prop
  | [] => True
  | c :: cs => m.CallAdvances c ∧ (m.call c).1.RunAdvances cs

theorem call_replacesWin_iff (c : Call V) : ReplacesWin (m.call c).2 ↔ m.CallAdvances c := by
  cases c with
  | put key value clock => exact iff_true_intro (m.put_winningWrites ..).wins
  | remove key clock => exact m.remove_replacesWin_iff key clock
  | clear clock => exact m.removeAll_replacesWin_iff (m.entries.nodupKeys.sublist filter_sublist) clock
  | message sender payload => exact iff_true_intro (m.onStorageMessage_winningWrites ..).wins

/-- **Last-Write-Wins in a run**: every change of a stored entry wins over the old one exactly if
every delete of a live entry is stamped above it. -/
theorem run_replacesWin_iff (cs : List (Call V)) : ReplacesWin (m.run cs).2 ↔ m.RunAdvances cs := by
  induction cs generalizing m with
  | nil => simp [run, RunAdvances]
  | cons c cs ih => rw [run, replacesWin_append, call_replacesWin_iff, ih, RunAdvances]

/-- A manager that is not attached to a network and has nothing stored. -/
def fresh : StorageManager ℕ := ⟨none, {}, ∅, .notStarted, false, {}, false⟩

/-- A key put and deleted within one millisecond: the tombstone carries the stamp of the entry it
replaces. -/
theorem put_remove_not_replacesWin : ¬ ReplacesWin
    (fresh.run [.put [107] (.string [118]) 1000, .remove [107] 1000]).2 := by
  intro h
  have hwins := h [107] (StorageEntry.new [107] 2 [118] 1000 [])
    (tombstone (StorageEntry.new [107] 2 [118] 1000 []) 1000 []) (.tail _ (.tail _ (.head _)))
  revert hwins
  decide

end StorageManager

end Librats.Storage
