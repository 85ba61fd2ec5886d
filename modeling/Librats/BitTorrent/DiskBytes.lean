import Librats.BitTorrent.DiskWorkers

/-!
# The bytes of a `ThreadedDiskIo`

What becomes of a single byte: in the overlay of the parked blocks (`Store.foldl_copyBlock`), when a
chunk is read or written, and when a file is made longer. `Stored` says that a byte of the payload
is on the disk.
-/

namespace Librats.BitTorrent.ThreadedDiskIo

open List Option Function

/-! ## The overlay -/

namespace Store

/-- A block has a byte of the piece. -/
def Has (block : ℕ × Bytes) (pos : ℕ) (v : UInt8) : Prop :=
  ∃ j, pos = block.1 + j ∧ block.2[j]? = some v

section

variable {offset k : ℕ} {out : Bytes} {block : ℕ × Bytes} {v : UInt8}

@[simp] theorem length_copyBlock (offset : ℕ) (out : Bytes) (block : ℕ × Bytes) :
    (copyBlock offset out block).length = out.length := by
  simp only [copyBlock]
  split_ifs
  · rfl
  · simp only [length_patch, length_take]
    omega

theorem copyBlock_of_has (hk : k < out.length) (h : Has block (offset + k) v) :
    (copyBlock offset out block)[k]? = some v := by
  obtain ⟨j, hj, hv⟩ := h
  have hlt := lt_of_getElem? hv
  simp only [copyBlock]
  rw [if_neg (by omega)]
  obtain ⟨i, hi⟩ : ∃ i, k = max offset block.1 - offset + i :=
    ⟨k - (max offset block.1 - offset), by omega⟩
  rw [hi, getElem?_patch_add (by simp only [length_take, length_drop]; omega),
    getElem?_take_of_lt (by omega), getElem?_drop, ← hv]
  congr 1
  omega

theorem copyBlock_of_not_has (hout : out[k]? = some v) (h : ∀ v, ¬Has block (offset + k) v) :
    (copyBlock offset out block)[k]? = some v := by
  have houtside : offset + k < block.1 ∨ block.1 + block.2.length ≤ offset + k := by
    by_contra hinside
    have hlt : offset + k - block.1 < block.2.length := by omega
    exact h _ ⟨offset + k - block.1, by omega, getElem?_eq_getElem hlt⟩
  simp only [copyBlock]
  split_ifs
  · exact hout
  · refine getElem?_patch_of_some hout ?_
    simp only [length_take]
    omega

/-- A byte after the overlay, if all blocks that have it agree about it. -/
theorem foldl_copyBlock {blocks : List (ℕ × Bytes)} (hk : k < out.length)
    (hsame : ∀ block ∈ blocks, ∀ u, Has block (offset + k) u → u = v)
    (h : out[k]? = some v ∨ ∃ block ∈ blocks, Has block (offset + k) v) :
    (blocks.foldl (copyBlock offset) out)[k]? = some v := by
  induction blocks generalizing out with
  | nil =>
    obtain hout | ⟨_, hmem, _⟩ := h
    · exact hout
    · exact absurd hmem not_mem_nil
  | cons block blocks ih =>
    obtain ⟨hfirst, hrest⟩ := forall_mem_cons.mp hsame
    refine ih (by simpa using hk) hrest ?_
    by_cases hhas : ∃ u, Has block (offset + k) u
    · obtain ⟨u, hu⟩ := hhas
      obtain rfl := hfirst u hu
      exact .inl (copyBlock_of_has hk hu)
    · push Not at hhas
      obtain hout | ⟨block', hmem, hv⟩ := h
      · exact .inl (copyBlock_of_not_has hout hhas)
      · obtain rfl | hmem := mem_cons.mp hmem
        · exact absurd hv (hhas v)
        · exact .inr ⟨block', hmem, hv⟩

theorem mem_ofPiece {store : Store} {piece : ℕ} :
    block ∈ store.ofPiece piece ↔ store.lookup (piece, block.1) = some block.2 := by
  rw [ofPiece, List.mem_insertionSort, List.mem_map, ← Option.mem_def, AList.mem_lookup_iff]
  constructor
  · rintro ⟨⟨⟨p, o⟩, data⟩, hfilter, rfl⟩
    obtain ⟨hmem, hpiece⟩ := mem_filter.mp hfilter
    have heq : p = piece := of_decide_eq_true hpiece
    rwa [heq] at hmem
  · exact fun hmem => ⟨_, mem_filter.mpr ⟨hmem, decide_eq_true rfl⟩, rfl⟩

@[simp] theorem length_overlay (store : Store) (piece offset : ℕ) (out : Bytes) :
    (store.overlay piece offset out).length = out.length := by
  rw [overlay]
  induction store.ofPiece piece generalizing out with
  | nil => rfl
  | cons block blocks ih => rw [foldl_cons, ih, length_copyBlock]

end

end Store

/-! ## Bytes on the disk -/

section

variable {P : Type} {fs : FileStorage} {filePath : ℕ → P} {disk : Disk P} {abs : ℕ} {v : UInt8}

/-- The byte of the payload is on the disk. -/
def Stored (fs : FileStorage) (filePath : ℕ → P) (disk : Disk P) (abs : ℕ) (v : UInt8) : Prop :=
  ∃ file offset content, fs.At abs file offset ∧ disk (filePath file) = some content ∧
    content[offset]? = some v

variable {slice : FileSlice} {start : ℕ} {bytes : Bytes}

theorem Stored.readChunk {i : ℕ} (h : Stored fs filePath disk (start + i) v)
    (hat : fs.At (start + i) slice.fileIndex (slice.offset + i)) (hi : i < slice.size)
    (hread : readChunk disk (filePath slice.fileIndex) slice.offset slice.size = some bytes) :
    bytes[i]? = some v := by
  obtain ⟨file, offset, content, hplace, hdisk, hv⟩ := h
  obtain ⟨rfl, rfl⟩ := hplace.unique hat
  rw [ThreadedDiskIo.readChunk, hdisk] at hread
  obtain ⟨-, hread⟩ := ite_none_right_eq_some.mp hread
  cases hread
  rw [getElem?_take_of_lt hi, getElem?_drop, hv]

theorem length_of_readChunk {path : P} {offset size : ℕ}
    (h : readChunk disk path offset size = some bytes) : bytes.length = size := by
  obtain ⟨content, -, hread⟩ := bind_eq_some_iff.mp h
  obtain ⟨hle, hread⟩ := ite_none_right_eq_some.mp hread
  cases hread
  simp only [length_take, length_drop]
  omega

/-- No two files have the same path. -/
def DistinctPaths (fs : FileStorage) (filePath : ℕ → P) : Prop :=
  ∀ f < fs.files.length, ∀ g < fs.files.length, filePath f = filePath g → f = g

variable [DecidableEq P]

theorem stored_writeChunk {i : ℕ} {data : Bytes}
    (hat : fs.At (start + i) slice.fileIndex (slice.offset + i)) (hv : data[i]? = some v) :
    Stored fs filePath (writeChunk disk (filePath slice.fileIndex) slice.offset data) (start + i) v :=
  ⟨_, _, _, hat, update_self .., by
    rw [getElem?_patch_add (lt_of_getElem? hv), hv]⟩

theorem Stored.writeChunk (hpaths : DistinctPaths fs filePath) {data : Bytes}
    (hsize : data.length ≤ slice.size) (hpos : 0 < slice.size)
    (hat : ∀ i < slice.size, fs.At (start + i) slice.fileIndex (slice.offset + i))
    (h : Stored fs filePath disk abs v) (habs : abs < start ∨ start + slice.size ≤ abs) :
    Stored fs filePath (writeChunk disk (filePath slice.fileIndex) slice.offset data) abs v := by
  obtain ⟨file, offset, content, hplace, hdisk, hv⟩ := h
  have hfile := hplace.index_lt
  have hindex := (hat 0 hpos).index_lt
  by_cases hpath : filePath file = filePath slice.fileIndex
  · obtain rfl := hpaths file hfile slice.fileIndex hindex hpath
    refine ⟨slice.fileIndex, offset, _, hplace, update_self .., ?_⟩
    rw [hdisk]
    refine getElem?_patch_of_some hv ?_
    by_contra hinside
    have heq := (hat (offset - slice.offset) (by omega)).injective
      (show fs.At abs slice.fileIndex (slice.offset + (offset - slice.offset)) by
        rwa [show slice.offset + (offset - slice.offset) = offset by omega])
    omega
  · exact ⟨file, offset, content, hplace, (update_of_ne hpath ..).trans hdisk, hv⟩

theorem sizeFile_of_ne (disk : Disk P) (size : ℕ) {path path' : P} (h : path' ≠ path) :
    sizeFile disk path size path' = disk path' := by
  unfold sizeFile
  cases disk path with
  | none => exact update_of_ne h ..
  | some content =>
    simp only
    split_ifs
    · exact update_of_ne h ..
    · rfl

theorem Stored.ensureFile {s : State P} (h : Stored fs filePath s.disk abs v) (i : ℕ) :
    Stored fs filePath (ensureFile fs filePath s i).disk abs v := by
  rw [ThreadedDiskIo.ensureFile]
  split_ifs
  · exact h
  split
  · exact h
  obtain ⟨file, offset, content, hplace, hdisk, hv⟩ := h
  by_cases hpath : filePath file = filePath i
  · rw [hpath] at hdisk
    have hlt := lt_of_getElem? hv
    simp only [sizeFile, hdisk]
    split_ifs with hshort
    · refine ⟨file, offset, _, hplace, by rw [hpath]; exact update_self .., ?_⟩
      rw [hdisk]
      exact getElem?_patch_of_some hv (.inl (by omega))
    · exact ⟨file, offset, content, hplace, hpath ▸ hdisk, hv⟩
  · exact ⟨file, offset, content, hplace, (sizeFile_of_ne _ _ hpath).trans hdisk, hv⟩

end

end Librats.BitTorrent.ThreadedDiskIo
