import Librats.Storage.Messages

/-!
# The data file

`StorageManager::save` and `load` (`storage/storage.cpp`). `write_data_file` makes one step on the
file system at a time, so that the process may stop after any of them. The results of `fwrite` and
`fclose` are not looked at, and the data file is deleted before the rename.
-/

namespace Librats.Storage

open BigEndian List

/-! ## The file format -/

/-- The bytes `RATS`. -/
def magic : Bytes := [82, 65, 84, 83]

/-- The arguments of the calls of `fwrite`, in their order. -/
def fileChunks (entries : Entries) : List Bytes :=
  magic :: encode 4 1 :: encode 4 entries.entries.length.toUInt32.toNat ::
    entries.entries.map fun p => p.2.serialize

/-- The complete data file of a store. -/
def dataFile (entries : Entries) : Bytes := (fileChunks entries).flatten

/-! ## Saving -/

/-- The files at `data_path` and at `temp_path`. -/
structure Files where
  data : Option Bytes
  temp : Option Bytes
  deriving DecidableEq

/-- What the steps of a save come to. -/
structure Outcomes where
  /-- `fopen` returns a file. -/
  opens : Bool
  /-- `serialize` of the entry written by the `i`-th `fwrite` throws. -/
  throws : ℕ → Bool
  /-- The `i`-th `fwrite` writes at most this many bytes. -/
  writes : ℕ → ℕ
  /-- `fclose` fails and leaves only this many bytes in the file. -/
  closes : Option ℕ
  /-- `file_exists` can read the directory. -/
  stats : Bool
  /-- `delete_file` of the data file succeeds. -/
  deletes : Bool
  /-- `rename_file` succeeds. -/
  renames : Bool
  /-- `delete_file` of the temporary file succeeds. -/
  cleans : Bool

/-- Where a save is. `writing i` is before the `i`-th `fwrite`, or before `fclose`; `cleaning` is
before the temporary file is deleted. -/
inductive SavePoint
  | opening
  | writing (i : ℕ)
  | deleting
  | renaming
  | cleaning
  | returned (result : Bool)
  deriving DecidableEq

structure SaveState where
  files : Files
  point : SavePoint
  deriving DecidableEq

variable (o : Outcomes)

/-- The bytes of a stream that are in the file after `fclose`. -/
def Outcomes.closed (stream : Bytes) : Bytes :=
  match o.closes with
  | none => stream
  | some n => stream.take n

/-- The data file is seen and deleted. -/
def Outcomes.removes (data : Option Bytes) : Bool :=
  data.isSome && o.stats && o.deletes

/-- The data file after `if (file_exists(data_path)) delete_file(data_path)`. -/
def Outcomes.kept (data : Option Bytes) : Option Bytes :=
  if o.removes data then none else data

variable (chunks : List Bytes)

/-- One step of `write_data_file`. -/
def saveStep (s : SaveState) : SaveState :=
  let f := s.files
  match s.point with
  | .opening =>
    if o.opens then ⟨{ f with temp := some [] }, .writing 0⟩ else ⟨f, .returned false⟩
  | .writing i =>
    match chunks[i]? with
    | none => ⟨{ f with temp := f.temp.map o.closed }, .deleting⟩
    | some chunk =>
      -- only the chunks of the entries are built by `serialize`
      if 3 ≤ i ∧ o.throws i = true then ⟨f, .cleaning⟩
      else ⟨{ f with temp := f.temp.map (· ++ chunk.take (o.writes i)) }, .writing (i + 1)⟩
  | .deleting => ⟨{ f with data := o.kept f.data }, .renaming⟩
  | .renaming =>
    if o.renames then ⟨⟨f.temp, none⟩, .returned true⟩ else ⟨f, .cleaning⟩
  | .cleaning => ⟨if o.cleans then { f with temp := none } else f, .returned false⟩
  | .returned result => ⟨f, .returned result⟩

/-- `StorageManager::save` after `stop` steps on the file system, or when it returns if that is
earlier. -/
def save (persistToDisk : Bool) (entries : Entries) (o : Outcomes) (f : Files) (stop : ℕ) :
    SaveState :=
  if persistToDisk then (saveStep o (fileChunks entries))^[stop] ⟨f, .opening⟩
  else ⟨f, .returned true⟩

/-! ## What is written -/

/-- What the calls of `fwrite` leave of the chunks. -/
def Outcomes.written : Bytes :=
  (chunks.mapIdx fun i chunk => chunk.take (o.writes i)).flatten

/-- Every `fwrite` writes all its bytes, and `fclose` loses none. -/
structure Outcomes.Complete (o : Outcomes) (chunks : List Bytes) : Prop where
  writes : ∀ i chunk, chunks[i]? = some chunk → chunk.length ≤ o.writes i
  closes : ∀ n, o.closes = some n → chunks.flatten.length ≤ n

@[simp] theorem written_nil : o.written [] = [] := rfl

theorem written_concat (chunk : Bytes) :
    o.written (chunks ++ [chunk]) = o.written chunks ++ chunk.take (o.writes chunks.length) := by
  simp [Outcomes.written, mapIdx_concat]

theorem length_written_le : (o.written chunks).length ≤ chunks.flatten.length := by
  induction chunks using List.reverseRecOn with
  | nil => simp
  | append_singleton chunks chunk ih =>
    rw [written_concat, flatten_concat, length_append, length_append, length_take]
    omega

theorem written_eq_iff : o.written chunks = chunks.flatten ↔
      ∀ i chunk, chunks[i]? = some chunk → chunk.length ≤ o.writes i := by
  induction chunks using List.reverseRecOn with
  | nil => simp
  | append_singleton chunks chunk ih =>
    have hle := length_written_le o chunks
    constructor
    · intro h i c hc
      rw [written_concat, flatten_concat] at h
      have hlen := congrArg List.length h
      rw [length_append, length_append, length_take] at hlen
      obtain ⟨hinit, hlast⟩ := append_inj h (by omega)
      by_cases hi : i < chunks.length
      · rw [getElem?_append_left hi] at hc
        exact ih.mp hinit i c hc
      have hi' : i = chunks.length := by
        have := (List.getElem?_eq_some_iff.mp hc).1
        rw [length_append, length_singleton] at this
        omega
      subst hi'
      rw [getElem?_concat_length, Option.some_inj] at hc
      subst hc
      omega
    · intro h
      have hinit : o.written chunks = chunks.flatten := by
        refine ih.mpr fun i c hc => h i c ?_
        rw [List.getElem?_append_left (List.getElem?_eq_some_iff.mp hc).1, hc]
      rw [written_concat, flatten_concat, hinit,
        take_of_length_le (h chunks.length chunk getElem?_concat_length)]

/-- The temporary file is complete iff no call wrote less than asked. -/
theorem closed_written_eq_iff :
    o.closed (o.written chunks) = chunks.flatten ↔ o.Complete chunks := by
  have hle := length_written_le o chunks
  unfold Outcomes.closed
  cases hc : o.closes with
  | none =>
    rw [written_eq_iff]
    exact ⟨fun h => ⟨h, fun n hn => by simp [hc] at hn⟩, fun h => h.writes⟩
  | some n =>
    constructor
    · intro h
      change (o.written chunks).take n = chunks.flatten at h
      have hlen := congrArg List.length h
      rw [length_take] at hlen
      have hall : o.written chunks = chunks.flatten := by
        rw [← h, take_of_length_le (by omega)]
      refine ⟨(written_eq_iff o chunks).mp hall, fun m hm => ?_⟩
      rw [hc, Option.some_inj] at hm
      omega
    · intro h
      have hn := h.closes n hc
      show (o.written chunks).take n = chunks.flatten
      rw [(written_eq_iff o chunks).mpr h.writes, take_of_length_le hn]

/-! ## Runs of a save -/

section

variable (o : Outcomes) (chunks : List Bytes) (f : Files)

/-- Building one of the entries throws. -/
def Outcomes.Throws : Prop := ∃ i, 3 ≤ i ∧ i < chunks.length ∧ o.throws i = true

/-- What a save that started with the files `f` may be after some steps. -/
inductive Reached : ℕ → SaveState → Prop
  | opening : Reached 0 ⟨f, .opening⟩
  | refused (n : ℕ) (hopen : o.opens = false) : Reached (n + 1) ⟨f, .returned false⟩
  | writing (i : ℕ) (hopen : o.opens = true) (hi : i ≤ chunks.length)
      (hok : ∀ j < i, 3 ≤ j → o.throws j = false) :
      Reached (i + 1) ⟨⟨f.data, some (o.written (chunks.take i))⟩, .writing i⟩
  | threw (n : ℕ) (s : SaveState) (hthrows : o.Throws chunks)
      (hpoint : s.point = .cleaning ∨ s.point = .returned false) (hdata : s.files.data = f.data) :
      Reached n s
  | closed (hopen : o.opens = true) (hok : ¬ o.Throws chunks) :
      Reached (chunks.length + 2) ⟨⟨f.data, some (o.closed (o.written chunks))⟩, .deleting⟩
  | deleted (hopen : o.opens = true) (hok : ¬ o.Throws chunks) :
      Reached (chunks.length + 3) ⟨⟨o.kept f.data, some (o.closed (o.written chunks))⟩, .renaming⟩
  | renamed (n : ℕ) (hopen : o.opens = true) (hok : ¬ o.Throws chunks) (hren : o.renames = true) :
      Reached (chunks.length + 4 + n) ⟨⟨some (o.closed (o.written chunks)), none⟩, .returned true⟩
  | notRenamed (n : ℕ) (s : SaveState) (hopen : o.opens = true) (hok : ¬ o.Throws chunks)
      (hren : o.renames = false) (hpoint : s.point = .cleaning ∨ s.point = .returned false)
      (hdata : s.files.data = o.kept f.data) : Reached (chunks.length + 4 + n) s

variable {o chunks f}

theorem saveStep_failed {s : SaveState} (h : s.point = .cleaning ∨ s.point = .returned false) :
    (saveStep o chunks s).point = .returned false ∧
      (saveStep o chunks s).files.data = s.files.data := by
  rcases h with h | h
  · simp only [saveStep, h, true_and]
    split <;> rfl
  · simp [saveStep, h]

theorem saveStep_writing {i : ℕ} (hopen : o.opens = true) (hi : i ≤ chunks.length)
    (hok : ∀ j < i, 3 ≤ j → o.throws j = false) : Reached o chunks f (i + 2)
      (saveStep o chunks ⟨⟨f.data, some (o.written (chunks.take i))⟩, .writing i⟩) := by
  rcases hi.lt_or_eq with hlt | rfl
  · simp only [saveStep, getElem?_eq_getElem hlt]
    split_ifs with hthrow
    · exact .threw _ _ ⟨i, hthrow.1, hlt, hthrow.2⟩ (.inl rfl) rfl
    have hnext : ∀ j < i + 1, 3 ≤ j → o.throws j = false := by
      intro j hj h3
      rcases Nat.lt_succ_iff_lt_or_eq.mp hj with hj | rfl
      · exact hok j hj h3
      · exact Bool.eq_false_iff.mpr fun ht => hthrow ⟨h3, ht⟩
    have := Reached.writing (f := f) (i + 1) hopen hlt hnext
    rw [take_succ_eq_append_getElem hlt, written_concat, length_take, min_eq_left hlt.le] at this
    exact this
  · have hno : ¬ o.Throws chunks := by
      rintro ⟨j, h3, hj, ht⟩
      rw [hok j hj h3] at ht
      exact Bool.false_ne_true ht
    simp only [saveStep, getElem?_eq_none le_rfl, take_length]
    exact .closed hopen hno

theorem Reached.step {n : ℕ} {s : SaveState} (h : Reached o chunks f n s) :
    Reached o chunks f (n + 1) (saveStep o chunks s) := by
  cases h with
  | opening =>
    cases hopen : o.opens with
    | false => simpa [saveStep, hopen] using .refused 0 hopen
    | true =>
      simpa [saveStep, hopen] using @Reached.writing o chunks f 0 hopen (Nat.zero_le _) (by simp)
  | refused n hopen => exact .refused (n + 1) hopen
  | writing i hopen hi hok => exact saveStep_writing hopen hi hok
  | threw n s hthrows hpoint hdata =>
    obtain ⟨hp, hd⟩ := @saveStep_failed o chunks _ hpoint
    exact .threw _ _ hthrows (.inr hp) (hd.trans hdata)
  | closed hopen hok => exact .deleted hopen hok
  | deleted hopen hok =>
    cases hren : o.renames with
    | false => simpa [saveStep, hren] using .notRenamed 0 _ hopen hok hren (.inl rfl) rfl
    | true => simpa [saveStep, hren] using .renamed 0 hopen hok hren
  | renamed n hopen hok hren => exact .renamed (n + 1) hopen hok hren
  | notRenamed n s hopen hok hren hpoint hdata =>
    obtain ⟨hp, hd⟩ := @saveStep_failed o chunks _ hpoint
    exact .notRenamed (n + 1) _ hopen hok hren (.inr hp) (hd.trans hdata)

theorem Reached.data_of_saved {n : ℕ} {s : SaveState} (h : Reached o chunks f n s)
    (hsaved : s.point = .returned true) : s.files.data = some (o.closed (o.written chunks)) := by
  cases h with
  | renamed => rfl
  | threw _ _ _ hpoint | notRenamed _ _ _ _ _ hpoint =>
    rcases hpoint with h | h <;> cases h.symm.trans hsaved
  | _ => cases hsaved

theorem Reached.run (stop : ℕ) :
    Reached o chunks f stop ((saveStep o chunks)^[stop] ⟨f, .opening⟩) := by
  induction stop with
  | zero => exact .opening
  | succ stop ih =>
    rw [Function.iterate_succ_apply']
    exact ih.step

end

/-! ## Atomic saves -/

/-- What a save over the data file `old` is to leave at `data_path`: the complete old file or the
complete new one, the latter if it returned `true`. -/
structure Atomic (old : Option Bytes) (entries : Entries) (s : SaveState) : Prop where
  oldOrNew : s.files.data = old ∨ s.files.data = some (dataFile entries)
  saved : s.point = .returned true → s.files.data = some (dataFile entries)

/-- The save comes to delete the data file: the temporary file is opened, no entry throws, and the
steps up to the deletion are made. -/
structure Outcomes.Deletes (o : Outcomes) (chunks : List Bytes) (stop : ℕ) : Prop where
  opens : o.opens = true
  noThrow : ¬ o.Throws chunks
  steps : chunks.length + 3 ≤ stop

/-- The rename is made. -/
structure Outcomes.Renames (o : Outcomes) (chunks : List Bytes) (stop : ℕ) : Prop
    extends o.Deletes chunks stop where
  renames : o.renames = true
  rename_steps : chunks.length + 4 ≤ stop

/-- If the data file is deleted the rename is made too, and a rename is made only of a complete
temporary file. -/
structure Outcomes.Safe (o : Outcomes) (chunks : List Bytes) (data : Option Bytes) (stop : ℕ) :
    Prop where
  renames : o.Deletes chunks stop → o.removes data = true → o.Renames chunks stop
  complete : o.Renames chunks stop → o.Complete chunks

variable {o : Outcomes} {entries : Entries} {s : SaveState} {e : StorageEntry} {data : Option Bytes}

theorem atomic_of_kept {f : Files} (hdata : s.files.data = o.kept f.data)
    (hpoint : s.point ≠ .returned true) : Atomic f.data entries s ↔ o.removes f.data = false := by
  cases hr : o.removes f.data with
  | false =>
    refine iff_of_true ⟨.inl ?_, fun h => absurd h hpoint⟩ rfl
    rw [hdata, Outcomes.kept, hr]
    rfl
  | true =>
    refine iff_of_false (fun h => ?_) Bool.noConfusion
    have hnone : s.files.data = none := by
      rw [hdata, Outcomes.kept, hr]
      rfl
    have hsome : f.data.isSome = true := by
      simp only [Outcomes.removes, Bool.and_eq_true] at hr
      exact hr.1.1
    rcases h.oldOrNew with h | h
    · rw [← h, hnone] at hsome
      exact Bool.false_ne_true hsome
    · rw [hnone] at h
      exact absurd h nofun

theorem atomic_of_unchanged {chunks : List Bytes} {old : Option Bytes} {stop : ℕ}
    (hdata : s.files.data = old) (hpoint : s.point ≠ .returned true)
    (hd : ¬ o.Deletes chunks stop) : Atomic old entries s ↔ o.Safe chunks old stop :=
  iff_of_true ⟨.inl hdata, fun h => absurd h hpoint⟩
    ⟨fun h => absurd h hd, fun h => absurd h.toDeletes hd⟩

theorem atomic_iff_of_reached {f : Files} {stop : ℕ} (h : Reached o (fileChunks entries) f stop s) :
    Atomic f.data entries s ↔ o.Safe (fileChunks entries) f.data stop := by
  cases h with
  | refused n hopen =>
    exact atomic_of_unchanged rfl (by simp) fun h => Bool.false_ne_true (hopen.symm.trans h.opens)
  | opening | writing i hopen hi hok | closed hopen hok =>
    exact atomic_of_unchanged rfl (by simp) fun h => absurd h.steps (by omega)
  | threw n s hthrows hpoint hdata =>
    exact atomic_of_unchanged hdata (by rcases hpoint with h | h <;> simp [h])
      fun h => h.noThrow hthrows
  | deleted hopen hok =>
    have hren : ¬ o.Renames (fileChunks entries) ((fileChunks entries).length + 3) :=
      fun h => absurd h.rename_steps (by omega)
    rw [atomic_of_kept rfl (by simp)]
    constructor
    · intro hr
      exact ⟨fun _ h => by simp [hr] at h, fun h => absurd h hren⟩
    · intro hsafe
      exact Bool.eq_false_iff.mpr fun hr => hren (hsafe.renames ⟨hopen, hok, le_rfl⟩ hr)
  | renamed n hopen hok hren =>
    have hd : o.Renames (fileChunks entries) ((fileChunks entries).length + 4 + n) :=
      ⟨⟨hopen, hok, by omega⟩, hren, by omega⟩
    constructor
    · intro h
      have hdata := Option.some_inj.mp (h.saved rfl)
      exact ⟨fun _ _ => hd, fun _ => (closed_written_eq_iff o _).mp hdata⟩
    · intro hsafe
      have hdata : some (o.closed (o.written (fileChunks entries))) = some (dataFile entries) :=
        congrArg some ((closed_written_eq_iff o _).mpr (hsafe.complete hd))
      exact ⟨.inr hdata, fun _ => hdata⟩
  | notRenamed n s hopen hok hren hpoint hdata =>
    have hnot : ¬ o.Renames (fileChunks entries) ((fileChunks entries).length + 4 + n) :=
      fun h => Bool.false_ne_true (hren.symm.trans h.renames)
    rw [atomic_of_kept hdata (by rcases hpoint with h | h <;> simp [h])]
    constructor
    · intro hr
      exact ⟨fun _ h => by simp [hr] at h, fun h => absurd h hnot⟩
    · intro hsafe
      exact Bool.eq_false_iff.mpr fun hr => hnot (hsafe.renames ⟨hopen, hok, by omega⟩ hr)

/-- **When a save is atomic.** Wherever the process stops, the old file or the new one is complete
at `data_path`, the new one if `save` returned `true`, exactly if the data file is not deleted
without a replacement and no incomplete file is renamed. -/
theorem save_atomic_iff (persistToDisk : Bool) (entries : Entries) (o : Outcomes) (f : Files)
    (stop : ℕ) : Atomic f.data entries (save persistToDisk entries o f stop) ↔
      (persistToDisk = true → o.Safe (fileChunks entries) f.data stop) ∧
      (persistToDisk = false → f.data = some (dataFile entries)) := by
  cases persistToDisk with
  | true =>
    simp only [true_imp_iff, Bool.true_eq_false, false_imp_iff, and_true]
    exact atomic_iff_of_reached (.run stop)
  | false =>
    simp only [Bool.false_eq_true, false_imp_iff, true_imp_iff, true_and]
    exact ⟨fun h => h.saved rfl, fun h => ⟨.inl rfl, fun _ => h⟩⟩

/-- Every step succeeds. -/
def Outcomes.allGood : Outcomes := ⟨true, fun _ => false, fun _ => 4, none, true, true, true, true⟩

/-- The process stops between the deletion and the rename: no data file is left. -/
theorem save_stopped_not_atomic :
    ¬ Atomic (some [1]) ∅ (save true ∅ .allGood ⟨some [1], none⟩ 6) := by
  intro h
  have := h.oldOrNew
  revert this
  decide

/-! ## Loading -/

/-- The loop of `read_data_file`: the result and the entries left. An entry with a wrong checksum is
skipped. -/
def readEntries (buffer : Bytes) : (count offset : ℕ) → Entries → Bool × Entries
  | 0, _, entries => (true, entries)
  | count + 1, offset, entries =>
    if buffer.length ≤ offset then (true, entries)
    else
      match StorageEntry.deserialize buffer offset with
      | none => (false, entries)
      | some (entry, bytesRead) =>
        readEntries buffer count (offset + bytesRead)
          (if entry.verifyChecksum then entries.insert entry.key entry else entries)

/-- The number of entries in the header of a data file, if the header is accepted. -/
def entryCount (buffer : Bytes) : Option ℕ :=
  if buffer.length < 12 then none
  else if buffer.take 4 ≠ magic then none
  else if readNat buffer 4 4 ≠ some 1 then none
  else readNat buffer 8 4

/-- `StorageManager::read_data_file`; `none` is a file that cannot be read. Once the header is
accepted the old entries are gone, also if the rest of the file is refused. -/
def readDataFile (buffer : Option Bytes) (entries : Entries) : Bool × Entries :=
  match buffer with
  | none => (false, entries)
  | some buffer =>
    match entryCount buffer with
    | none => (false, entries)
    | some count => readEntries buffer count 12 ∅

/-- `StorageManager::load` of the file `data`; `readable` says whether `read_file_binary` gets its
contents. -/
def load (persistToDisk : Bool) (data : Option Bytes) (readable : Bool) (entries : Entries) :
    Bool × Entries :=
  if persistToDisk then
    match data with
    | none => (true, entries)
    | some buffer => readDataFile (if readable then some buffer else none) entries
  else (true, entries)

/-- The entries of a data file. -/
def fileEntries (data : Option Bytes) : List StorageEntry :=
  match data with
  | none => []
  | some buffer =>
    match entryCount buffer with
    | none => []
    | some count => listedEntries buffer count 12

theorem readEntries_snd (buffer : Bytes) (count offset : ℕ) (s : Entries) :
    (readEntries buffer count offset s).2 =
      (listedEntries buffer count offset).foldl (fun s e => s.insert e.key e) s := by
  induction count generalizing offset s with
  | zero => rfl
  | succ count ih =>
    unfold readEntries listedEntries
    split_ifs with hend
    · rfl
    cases hd : StorageEntry.deserialize buffer offset with
    | none => rfl
    | some p =>
      dsimp only
      split_ifs with hsum
      · exact ih _ _
      · exact ih _ _

/-- Of the entries inserted under a key the last one stays. -/
theorem lookup_foldl_insert_eq (l : List StorageEntry) (s : Entries) (k : Bytes) :
    (l.foldl (fun s e => s.insert e.key e) s).lookup k =
      (l.reverse.find? (·.key = k)).or (s.lookup k) := by
  induction l using reverseRecOn with
  | nil => rfl
  | append_singleton l e ih =>
    rw [foldl_concat, reverse_concat, find?_cons]
    by_cases hk : e.key = k
    · subst hk
      simp
    · rw [AList.lookup_insert_ne (Ne.symm hk), ih]
      simp [hk]

theorem lookup_load_cases {persistToDisk readable : Bool} {s : Entries}
    {k : Bytes} (h : (load persistToDisk data readable s).2.lookup k = some e) :
    s.lookup k = some e ∨
      persistToDisk = true ∧ readable = true ∧ e ∈ fileEntries data ∧ e.key = k := by
  cases persistToDisk with
  | false => exact .inl h
  | true =>
    cases data with
    | none => exact .inl h
    | some buffer =>
      cases readable with
      | false => exact .inl h
      | true =>
        simp only [load, if_true, readDataFile] at h
        cases hc : entryCount buffer with
        | none =>
          rw [hc] at h
          exact .inl h
        | some count =>
          simp only [hc, readEntries_snd, lookup_foldl_insert_eq, Option.or_eq_some_iff] at h
          simp only [fileEntries, hc]
          obtain h | ⟨-, h⟩ := h
          · exact .inr ⟨trivial, trivial, mem_reverse.mp (mem_of_find?_eq_some h),
              by simpa using find?_some h⟩
          · simp at h

/-- **When a load that fails changes nothing**: the file cannot be read, its header is refused, or
the store has under each key the last entry with that key in the file, up to the refused one. -/
theorem failed_load_keeps_iff {persistToDisk readable : Bool} {s : Entries}
    (h : (load persistToDisk data readable s).1 = false) :
    (∀ k, (load persistToDisk data readable s).2.lookup k = s.lookup k) ↔
      readable = false ∨ data.bind entryCount = none ∨
        ∀ k, (fileEntries data).reverse.find? (·.key = k) = s.lookup k := by
  cases persistToDisk with
  | false => cases h
  | true =>
    cases data with
    | none => cases h
    | some buffer =>
      cases readable with
      | false => simp [load, readDataFile]
      | true =>
        cases hc : entryCount buffer with
        | none => simp [load, readDataFile, hc]
        | some count =>
          simp [load, readDataFile, hc, readEntries_snd, lookup_foldl_insert_eq, fileEntries]

/-- An entry that is stored, and a file that has it and ends within the next. -/
def storedTwice : StorageEntry × Bytes :=
  let e := .new [107] 2 [118] 1 []
  (e, magic ++ [0, 0, 0, 1, 0, 0, 0, 2] ++ e.serialize ++ [0])

theorem failed_load_keeps_iff_storedTwice : let s := (∅ : Entries).insert [107] storedTwice.1
    (load true (some storedTwice.2) true s).1 = false ∧
      ∀ k, (load true (some storedTwice.2) true s).2.lookup k = s.lookup k := by
  intro s
  have hfails : (load true (some storedTwice.2) true s).1 = false := by decide +kernel
  have hentries : fileEntries (some storedTwice.2) = [storedTwice.1] := by decide +kernel
  refine ⟨hfails, (failed_load_keeps_iff hfails).mpr (.inr (.inr fun k => ?_))⟩
  rw [hentries]
  exact Option.or_none.symm.trans (lookup_foldl_insert_eq [storedTwice.1] ∅ k).symm

/-- **A file that ends within its first entry empties the store.** -/
theorem truncated_load_clears : let file := magic ++ [0, 0, 0, 1, 0, 0, 0, 1, 0]
    let s : Entries := .singleton [107] ⟨[107], 2, [118], 1, [], 0, false⟩
    (load true (some file) true s).1 = false ∧ (s.lookup [107]).isSome ∧
      (load true (some file) true s).2.lookup [107] = none := by
  decide

theorem readable_of_mem_fileEntries (h : e ∈ fileEntries data) : Readable e := by
  unfold fileEntries at h
  split at h
  · exact absurd h not_mem_nil
  split at h
  · exact absurd h not_mem_nil
  · exact readable_of_mem_listedEntries h

theorem readEntries_eq {buffer : Bytes} (l : List StorageEntry) {pos : ℕ} {rest : Bytes}
    (hrest : Rest buffer pos ((l.map (·.serialize)).flatten ++ rest))
    (hl : ∀ e ∈ l, Readable e) (entries : Entries) : readEntries buffer l.length pos entries =
      (true, l.foldl (fun s e => s.insert e.key e) entries) := by
  induction l generalizing pos entries with
  | nil => rfl
  | cons e l ih =>
    have he := hl e (.head _)
    simp only [map_cons, flatten_cons, append_assoc] at hrest
    have hlen := hrest.length_le
    rw [length_append, StorageEntry.length_serialize] at hlen
    have hlt : ¬ buffer.length ≤ pos := by omega
    rw [length_cons, readEntries, if_neg hlt, he.lengths.deserialize_eq hrest]
    simp only [he.checksum]
    exact ih (hrest.skip rfl) (fun x hx => hl x (.tail _ hx)) _

theorem lookup_foldl_insert (l : List (Sigma fun _ : Bytes => StorageEntry)) (hnodup : l.NodupKeys)
    (hkey : ∀ p ∈ l, p.2.key = p.1) (s : Entries) (k : Bytes) :
    ((l.map (·.2)).foldl (fun s e => s.insert e.key e) s).lookup k =
      ((l.dlookup k).or (s.lookup k)) := by
  induction l generalizing s with
  | nil => simp
  | cons p l ih =>
    obtain ⟨hp, hnodup⟩ := nodupKeys_cons.mp hnodup
    have hpk := hkey p (.head _)
    rw [map_cons, foldl_cons, ih hnodup fun q hq => hkey q (.tail _ hq)]
    by_cases hk : k = p.1
    · subst hk
      rw [dlookup_cons_eq, dlookup_eq_none.mpr hp, hpk]
      simp
    · rw [dlookup_cons_ne _ _ hk, AList.lookup_insert_ne (by rw [hpk]; exact hk)]

theorem rest_dataFile (entries : Entries) : Rest (dataFile entries) 0 (magic ++ (encode 4 1 ++
      (encode 4 (entries.entries.length % 2 ^ 32) ++
        (((entries.entries.map (·.2)).map (·.serialize)).flatten ++ [])))) := by
  refine ⟨[], ?_, rfl⟩
  simp [dataFile, fileChunks, Function.comp_def]

theorem entryCount_dataFile (entries : Entries) :
    entryCount (dataFile entries) = some (entries.entries.length % 2 ^ 32) := by
  have r₀ := rest_dataFile entries
  have r₁ := r₀.skip (show magic.length = 4 from rfl)
  have r₂ := r₁.skip (length_encode ..)
  have hlen := (r₂.skip (length_encode ..)).length_le
  have hmagic : (dataFile entries).take 4 = magic := by
    obtain ⟨before, heq, hbefore⟩ := r₀
    rfl
  rw [entryCount, if_neg (by omega), if_neg (not_not.mpr hmagic),
    if_neg (not_not.mpr (r₁.readNat_eq (by norm_num))),
    r₂.readNat_eq (Nat.mod_lt _ (by norm_num))]

theorem readDataFile_dataFile (hcount : entries.entries.length < 2 ^ 32)
    (hkey : ∀ p ∈ entries.entries, p.2.key = p.1) (hsound : ∀ p ∈ entries.entries, Readable p.2)
    (old : Entries) : (readDataFile (some (dataFile entries)) old).1 = true ∧
      ∀ k, (readDataFile (some (dataFile entries)) old).2.lookup k = entries.lookup k := by
  have r₃ := (((rest_dataFile entries).skip (show magic.length = 4 from rfl)).skip
    (length_encode ..)).skip (length_encode ..)
  have hread := readEntries_eq (entries.entries.map (·.2)) r₃
    (by simpa using fun e k hp => hsound ⟨k, e⟩ hp) ∅
  rw [length_map] at hread
  have heq : readDataFile (some (dataFile entries)) old =
      (true, (entries.entries.map (·.2)).foldl (fun s e => s.insert e.key e) ∅) := by
    rwa [readDataFile, entryCount_dataFile, Nat.mod_eq_of_lt hcount]
  rw [heq]
  refine ⟨rfl, fun k => ?_⟩
  rw [lookup_foldl_insert _ entries.nodupKeys hkey]
  simp [AList.lookup]

end Librats.Storage
