import Librats.Core.Types

/-!
# The files of a torrent

The `FileStorage` of `bittorrent/file_storage.cpp`: the files lie one after the other in one space
of bytes. `FileStorage.At` is the place of a byte.
-/

namespace Librats.BitTorrent

open List

structure FileEntry where
  path : Bytes
  size : ℕ
  offset : ℕ
  deriving DecidableEq

open FileEntry

structure FileSlice where
  fileIndex : ℕ
  offset : ℕ
  size : ℕ
  deriving DecidableEq

/-- The files lie one after the other, from an offset on. -/
def Consecutive : ℕ → List FileEntry → Prop
  | _, [] => True
  | offset, e :: es => e.offset = offset ∧ Consecutive (offset + e.size) es

variable {es : List FileEntry}

theorem Consecutive.concat {offset : ℕ} (h : Consecutive offset es) (path : Bytes) (size : ℕ) :
    Consecutive offset (es ++ [⟨path, size, offset + (es.map FileEntry.size).sum⟩]) := by
  induction es generalizing offset with
  | nil => exact ⟨rfl, trivial⟩
  | cons e es ih =>
    refine ⟨h.1, ?_⟩
    have hrest := ih h.2
    rwa [Nat.add_assoc] at hrest

theorem Consecutive.le {start i j : ℕ} (h : Consecutive start es) {a b : FileEntry}
    (ha : es[i]? = some a) (hb : es[j]? = some b) (hij : i < j) : a.offset + a.size ≤ b.offset := by
  have hfirst {start j : ℕ} {es : List FileEntry} {b : FileEntry} (h : Consecutive start es)
      (hb : es[j]? = some b) : start ≤ b.offset := by
    induction es generalizing start j with
    | nil => simp at hb
    | cons e es ih =>
      cases j with
      | zero =>
        cases hb
        exact h.1.ge
      | succ j => exact (Nat.le_add_right ..).trans (ih h.2 hb)
  induction es generalizing start i j with
  | nil => simp at ha
  | cons e es ih =>
    obtain ⟨j, rfl⟩ : ∃ n, j = n + 1 := ⟨j - 1, by omega⟩
    cases i with
    | zero =>
      cases ha
      rw [h.1]
      exact hfirst h.2 hb
    | succ i => exact ih h.2 ha hb (by omega)

theorem Consecutive.drop {start : ℕ} (h : Consecutive start es) (n : ℕ) :
    Consecutive (start + ((es.take n).map size).sum) (es.drop n) := by
  induction n generalizing start es with
  | zero => exact h
  | succ n ih =>
    cases es with
    | nil => exact h
    | cons e es =>
      have hrest := ih h.2
      rwa [Nat.add_assoc] at hrest

structure FileStorage where
  pieceLength : ℕ
  files : List FileEntry
  consecutive : Consecutive 0 files

namespace FileStorage

def empty (pieceLength : ℕ) : FileStorage := ⟨pieceLength, [], trivial⟩

variable (fs : FileStorage)

def totalSize : ℕ := (fs.files.map size).sum

def addFile (path : Bytes) (size : ℤ) : Option FileStorage :=
  if size < 0 ∨ 2 ^ 63 - 1 - (fs.totalSize : ℤ) < size then none
  else
    some { fs with
      files := fs.files ++ [⟨path, size.toNat, fs.totalSize⟩]
      consecutive := by
        simpa [totalSize] using fs.consecutive.concat path size.toNat }

def numPieces : ℕ :=
  if fs.pieceLength = 0 then 0
  else (fs.totalSize + fs.pieceLength - 1) / fs.pieceLength % 2 ^ 32

def pieceSize (piece : ℕ) : ℕ :=
  if (piece + 1) % 2 ^ 32 < fs.numPieces then fs.pieceLength
  else min (fs.totalSize - piece * fs.pieceLength) fs.pieceLength

/-- The loop of `map_block`, from the file with the index on. -/
def sliceFrom : List FileEntry → (index abs remaining : ℕ) → List FileSlice
  | [], _, _, _ => []
  | e :: es, index, abs, remaining =>
    if remaining = 0 then []
    else if e.size ≤ abs - e.offset then sliceFrom es (index + 1) abs remaining
    else
      let take := min remaining (e.size - (abs - e.offset))
      ⟨index, abs - e.offset, take⟩ :: sliceFrom es (index + 1) (abs + take) (remaining - take)

/-- The file to start at: the last one that does not begin behind `abs`. -/
def startIndex (abs : ℕ) : ℕ :=
  fs.files.findIdx (fun e => decide (abs < e.offset)) - 1

def mapBlock (piece offset size : ℕ) : List FileSlice :=
  let abs := piece * fs.pieceLength + offset
  if size = 0 ∨ fs.totalSize ≤ abs then []
  else
    let index := fs.startIndex abs
    sliceFrom (fs.files.drop index) index abs (min size (fs.totalSize - abs))

/-! ## Pieces -/

section

variable {fs : FileStorage} (hlength : 0 < fs.pieceLength)
  (htotal : fs.totalSize ≤ (2 ^ 32 - 1) * fs.pieceLength)
include hlength htotal

theorem numPieces_eq : fs.numPieces = (fs.totalSize + fs.pieceLength - 1) / fs.pieceLength := by
  rw [numPieces, if_neg hlength.ne', Nat.mod_eq_of_lt]
  rw [Nat.div_lt_iff_lt_mul hlength]
  omega

theorem numPieces_spec : fs.totalSize ≤ fs.numPieces * fs.pieceLength ∧
      fs.numPieces * fs.pieceLength < fs.totalSize + fs.pieceLength := by
  rw [numPieces_eq hlength htotal]
  have hmod := Nat.mod_lt (fs.totalSize + fs.pieceLength - 1) hlength
  have hdiv := Nat.div_add_mod' (fs.totalSize + fs.pieceLength - 1) fs.pieceLength
  omega

omit htotal in
theorem numPieces_lt : fs.numPieces < 2 ^ 32 := by
  rw [numPieces, if_neg hlength.ne']
  exact Nat.mod_lt _ (by norm_num)

theorem sum_pieceSize_range {k : ℕ} (hk : k ≤ fs.numPieces) :
    ((List.range k).map fs.pieceSize).sum = min (k * fs.pieceLength) fs.totalSize := by
  obtain ⟨hcover, htight⟩ := numPieces_spec hlength htotal
  have hwidth := numPieces_lt hlength
  induction k with
  | zero => simp
  | succ k ih =>
    have hwrap : (k + 1) % 2 ^ 32 = k + 1 := Nat.mod_eq_of_lt (by omega)
    rw [range_succ, map_append, sum_append, ih (by omega), map_singleton,
      sum_singleton, pieceSize, hwrap, Nat.succ_mul]
    split_ifs with hlast
    · -- a whole piece: there is a further one behind it
      have hfurther : (k + 2) * fs.pieceLength ≤ fs.numPieces * fs.pieceLength :=
        Nat.mul_le_mul_right _ (by omega)
      rw [Nat.add_mul] at hfurther
      omega
    · omega

theorem sum_pieceSize : ((List.range fs.numPieces).map fs.pieceSize).sum = fs.totalSize := by
  rw [sum_pieceSize_range hlength htotal le_rfl]
  exact min_eq_right (numPieces_spec hlength htotal).1

end

/-! ## Places -/

/-- The place of a byte of the payload: a file, and an offset in it. -/
def At (fs : FileStorage) (abs file offset : ℕ) : Prop :=
  ∃ e, fs.files[file]? = some e ∧ offset < e.size ∧ abs = e.offset + offset

variable {fs : FileStorage} {abs f o : ℕ}

theorem At.index_lt (h : fs.At abs f o) : f < fs.files.length := by
  obtain ⟨e, he, -⟩ := h
  exact (List.getElem?_eq_some_iff.mp he).1

theorem At.lt_totalSize (h : fs.At abs f o) : abs < fs.totalSize := by
  obtain ⟨e, he, ho, rfl⟩ := h
  obtain ⟨hf, rfl⟩ := List.getElem?_eq_some_iff.mp he
  have hconsecutive := fs.consecutive.drop f
  have htotal : fs.totalSize = ((fs.files.take f).map size).sum +
      ((fs.files.drop f).map size).sum := by
    rw [← sum_append, ← map_append, take_append_drop]
    rfl
  rw [drop_eq_getElem_cons hf] at hconsecutive htotal
  rw [hconsecutive.1]
  simp only [map_cons, sum_cons] at htotal
  omega

theorem At.unique {f' o' : ℕ} (h : fs.At abs f o) (h' : fs.At abs f' o') : f = f' ∧ o = o' := by
  obtain ⟨e, he, ho, heq⟩ := h
  obtain ⟨e', he', ho', heq'⟩ := h'
  obtain hlt | rfl | hlt := lt_trichotomy f f'
  · have hle := fs.consecutive.le he he' hlt
    omega
  · obtain rfl := Option.mem_unique he he'
    exact ⟨rfl, by omega⟩
  · have hle := fs.consecutive.le he' he hlt
    omega

theorem At.injective {abs' : ℕ} (h : fs.At abs f o) (h' : fs.At abs' f o) : abs = abs' := by
  obtain ⟨e, he, -, rfl⟩ := h
  obtain ⟨e', he', -, rfl⟩ := h'
  rw [Option.mem_unique he he']

/-- The slices are not empty, and are the places of the bytes from `abs` on. -/
def Covers (fs : FileStorage) : ℕ → List FileSlice → Prop
  | _, [] => True
  | abs, s :: slices =>
    0 < s.size ∧ (∀ i < s.size, fs.At (abs + i) s.fileIndex (s.offset + i)) ∧
      fs.Covers (abs + s.size) slices

/-- How many bytes the slices have. -/
def sliceSizes (slices : List FileSlice) : ℕ := (slices.map FileSlice.size).sum

theorem covers_sliceFrom {es : List FileEntry} {index start remaining : ℕ}
    (hes : fs.files.drop index = es) (hconsecutive : Consecutive start es)
    (hstart : 0 < remaining → start ≤ abs)
    (hend : 0 < remaining → abs + remaining ≤ start + (es.map size).sum) :
    fs.Covers abs (sliceFrom es index abs remaining) ∧
      sliceSizes (sliceFrom es index abs remaining) = remaining := by
  induction es generalizing index start abs remaining with
  | nil =>
    refine ⟨trivial, ?_⟩
    simp only [map_nil, sum_nil] at hend
    have hzero : remaining = 0 := by omega
    exact hzero.symm
  | cons e es ih =>
    have hnext : fs.files.drop (index + 1) = es := by
      rw [← drop_drop, hes]
      rfl
    have hfile : fs.files[index]? = some e := by
      rw [← Nat.add_zero index, ← getElem?_drop, hes]
      rfl
    have hoffset : e.offset = start := hconsecutive.1
    simp only [map_cons, sum_cons] at hend
    rw [sliceFrom]
    split_ifs with hzero hpast
    · exact ⟨trivial, hzero.symm⟩
    · have hpos : 0 < remaining := Nat.pos_of_ne_zero hzero
      exact ih hnext hconsecutive.2 (fun _ => by omega) (fun _ => by omega)
    set take := min remaining (e.size - (abs - e.offset)) with htake
    obtain ⟨hcovers, hsizes⟩ :
        fs.Covers (abs + take) (sliceFrom es (index + 1) (abs + take) (remaining - take)) ∧
          sliceSizes (sliceFrom es (index + 1) (abs + take) (remaining - take)) = remaining - take :=
      ih hnext hconsecutive.2 (fun _ => by omega) (fun _ => by omega)
    refine ⟨⟨?_, fun i hi => ⟨e, hfile, ?_, ?_⟩, hcovers⟩, ?_⟩
    · simp only
      omega
    · simp only at hi ⊢
      omega
    · simp only at hi ⊢
      omega
    · simp only [sliceSizes, map_cons, sum_cons] at hsizes ⊢
      omega

theorem startIndex_spec (fs : FileStorage) (abs : ℕ) :
    ∃ start ≤ abs, Consecutive start (fs.files.drop (fs.startIndex abs)) ∧
      start + ((fs.files.drop (fs.startIndex abs)).map size).sum = fs.totalSize := by
  set n := fs.startIndex abs with hn
  have hconsecutive := fs.consecutive.drop n
  have htotal : ((fs.files.take n).map size).sum +
      ((fs.files.drop n).map size).sum = fs.totalSize := by
    rw [← sum_append, ← map_append, take_append_drop]
    rfl
  rw [Nat.zero_add] at hconsecutive
  refine ⟨_, ?_, hconsecutive, htotal⟩
  obtain hzero | hpos := Nat.eq_zero_or_pos n
  · rw [hzero]
    exact Nat.zero_le abs
  -- the file is in front of the first one that begins behind `abs`
  have hlt : n < fs.files.findIdx (fun e => decide (abs < e.offset)) := by
    rw [startIndex] at hn
    omega
  have hlength : n < fs.files.length := hlt.trans_le findIdx_le_length
  have hnot := not_of_lt_findIdx hlt
  rw [drop_eq_getElem_cons hlength] at hconsecutive
  rw [← hconsecutive.1]
  simpa using hnot

/-- **The slices of a range are the places of its bytes** within the payload. -/
theorem covers_mapBlock (fs : FileStorage) (piece offset size : ℕ) :
    fs.Covers (piece * fs.pieceLength + offset) (fs.mapBlock piece offset size) ∧
      sliceSizes (fs.mapBlock piece offset size) =
        min size (fs.totalSize - (piece * fs.pieceLength + offset)) := by
  simp only [mapBlock]
  split_ifs with hnone
  · refine ⟨trivial, ?_⟩
    simp only [sliceSizes, map_nil, sum_nil]
    omega
  · obtain ⟨start, hle, hconsecutive, htotal⟩ :=
      fs.startIndex_spec (piece * fs.pieceLength + offset)
    exact covers_sliceFrom rfl hconsecutive (fun _ => hle) fun _ => by omega

/-! ## The partition of a range -/

/-- `map_block` with a signed position of 64 bits: `none` if that overflows. -/
def mapBlockChecked (fs : FileStorage) (piece offset size : ℕ) : Option (List FileSlice) :=
  if size = 0 ∨ fs.files = [] then some []
  else if 2 ^ 63 ≤ piece * fs.pieceLength + offset then none
  else some (fs.mapBlock piece offset size)

/-- The slices are the bytes from `abs` to `stop`, cut where a file ends. -/
structure Partition (fs : FileStorage) (abs stop : ℕ) (slices : List FileSlice) : Prop where
  increasing : slices.Pairwise fun s s' => s.fileIndex < s'.fileIndex
  covers : fs.Covers abs slices
  sizes : sliceSizes slices = stop - abs

theorem sliceFrom_increasing (es : List FileEntry) (index abs remaining : ℕ) :
    (∀ s ∈ sliceFrom es index abs remaining, index ≤ s.fileIndex) ∧
      (sliceFrom es index abs remaining).Pairwise fun s s' => s.fileIndex < s'.fileIndex := by
  induction es generalizing index abs remaining with
  | nil => simp [sliceFrom]
  | cons e es ih =>
    rw [sliceFrom]
    split_ifs
    · simp
    · obtain ⟨hle, hpairwise⟩ := ih (index + 1) abs remaining
      exact ⟨fun s hs => Nat.le_of_succ_le (hle s hs), hpairwise⟩
    · obtain ⟨hle, hpairwise⟩ := ih (index + 1) (abs + min remaining (e.size - (abs - e.offset)))
        (remaining - min remaining (e.size - (abs - e.offset)))
      refine ⟨fun s hs => ?_, pairwise_cons.mpr ⟨hle, hpairwise⟩⟩
      obtain rfl | hs := mem_cons.mp hs
      · exact le_rfl
      · exact Nat.le_of_succ_le (hle s hs)

/-- **A range is cut into its parts of the files iff its position does not overflow.** -/
theorem partitioned_iff (fs : FileStorage) (piece offset : ℕ) {size : ℕ} (hsize : 0 < size) :
    (∃ slices ∈ fs.mapBlockChecked piece offset size, fs.Partition (piece * fs.pieceLength + offset)
        (min (piece * fs.pieceLength + offset + size) fs.totalSize) slices) ↔
      fs.files = [] ∨ piece * fs.pieceLength + offset < 2 ^ 63 := by
  have hpartition : fs.Partition (piece * fs.pieceLength + offset)
      (min (piece * fs.pieceLength + offset + size) fs.totalSize)
      (fs.mapBlock piece offset size) := by
    obtain ⟨hcovers, hsizes⟩ := fs.covers_mapBlock piece offset size
    refine ⟨?_, hcovers, by omega⟩
    simp only [mapBlock]
    split_ifs
    · exact .nil
    · exact (sliceFrom_increasing ..).2
  simp only [mapBlockChecked, hsize.ne', false_or]
  split_ifs with hfiles hoverflow
  · have htotal : fs.totalSize = 0 := by simp [totalSize, hfiles]
    exact iff_of_true ⟨[], rfl, .nil, trivial, by simp [sliceSizes, htotal]⟩ (.inl hfiles)
  · simp only [hfiles, false_or, not_lt.mpr hoverflow, iff_false]
    exact fun ⟨_, hnone, _⟩ => nomatch hnone
  · exact iff_of_true ⟨_, rfl, hpartition⟩ (.inr (not_le.mp hoverflow))

/-- Three bytes over two files, with an empty one between them. -/
theorem partitioned_iff_emptyFile : ∃ slices ∈ FileStorage.mapBlockChecked
    ⟨4, [⟨[97], 2, 0⟩, ⟨[98], 0, 2⟩, ⟨[99], 5, 2⟩], by simp [Consecutive]⟩ 0 1 3,
      FileStorage.Partition ⟨4, [⟨[97], 2, 0⟩, ⟨[98], 0, 2⟩, ⟨[99], 5, 2⟩], by simp [Consecutive]⟩
        (0 * 4 + 1) (min (0 * 4 + 1 + 3) 7) slices :=
  (partitioned_iff _ 0 1 (by decide)).mpr (.inr (by decide))

/-- **The position of the last of pieces of almost 4 GiB overflows.** -/
theorem position_overflows :
    let fs : FileStorage := ⟨2 ^ 32 - 1, [⟨[97], 1, 0⟩], by simp [Consecutive]⟩
    let start := (2 ^ 32 - 1) * fs.pieceLength
    ¬∃ slices ∈ fs.mapBlockChecked (2 ^ 32 - 1) 0 1,
      fs.Partition start (min (start + 1) fs.totalSize) slices := by
  rintro fs start ⟨slices, hslices, -⟩
  cases hslices

end FileStorage

end Librats.BitTorrent
