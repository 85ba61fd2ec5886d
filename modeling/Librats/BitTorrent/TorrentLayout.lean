import Librats.BitTorrent.TorrentInfo
import Librats.Core.Paths

/-!
# The layout of accepted torrents

The number of pieces is narrowed to 32 bits before the number of hashes is compared with it
(`sound_geometry_iff`), and paths are never compared with one another (`places_apart_iff`).
-/

namespace Librats.BitTorrent

open List Option Bencode BencodeDict FileStorage

namespace TorrentInfo

/-! ## What a dictionary lists -/

/-- The components of the path and the length of an entry. -/
def listed (entry : BencodeValue) : List Bytes × ℕ :=
  (strings ((findList entry "path").getD []), ((findInt entry "length").getD 0).toInt.toNat)

variable (info : BencodeValue)

/-- The files a dictionary lists, with the components of their paths below the name. -/
def listing : List (List Bytes × ℕ) :=
  match findList info "files" with
  | some entries => entries.map listed
  | none => [([], ((findInt info "length").getD 0).toInt.toNat)]

/-- The sum of the lengths a dictionary lists. -/
def listedLength : ℕ := ((listing info).map Prod.snd).sum

def listedPieceLength : ℕ := ((findInt info "piece length").getD 0).toInt.toNat

/-- Components behind a name. -/
def joined (name : Bytes) (comps : List Bytes) : Bytes := name ++ comps.flatMap (47 :: ·)

/-- The path and the size of a file as they are listed. -/
def placed (name : Bytes) (file : List Bytes × ℕ) : Bytes × ℕ := (joined name file.1, file.2)

/-- The paths and the sizes of the files of a layout. -/
def outline (files : FileStorage) : List (Bytes × ℕ) := files.files.map fun e => (e.path, e.size)

theorem totalSize_eq (files : FileStorage) :
    files.totalSize = ((outline files).map Prod.snd).sum := by
  rw [outline, List.map_map]
  rfl

/-! ## What is accepted -/

theorem joinPath_spec {rel path : Bytes} {comps : List BencodeValue}
    (h : joinPath rel comps = .ok path) :
    path = joined rel (strings comps) ∧ ∀ c ∈ strings comps, safeComponent c = true := by
  induction comps generalizing rel with
  | nil =>
    cases h
    exact ⟨(append_nil _).symm, nofun⟩
  | cons comp comps ih =>
    rw [joinPath] at h
    split at h
    · rename_i c hc
      split_ifs at h with hsafe
      · obtain ⟨rfl, hrest⟩ := ih h
        have hstrings : strings (comp :: comps) = c :: strings comps :=
          filterMap_cons_some hc
        rw [hstrings]
        refine ⟨by simp [joined], fun c' hc' => ?_⟩
        obtain rfl | hc' := mem_cons.mp hc'
        · exact hsafe
        · exact hrest c' hc'
      · cases h
    · cases h

variable {files : FileStorage} {name rest : Bytes} {info : BencodeValue} {ti : Metainfo}
    {cs ds : List Bytes} {r : Except TorrentParseError Metainfo} {files' : FileStorage}

theorem addFile_spec {path : Bytes} {length : Int64} (h : addFile files path length = .ok files') :
    files'.pieceLength = files.pieceLength ∧
      outline files' = outline files ++ [(path, length.toInt.toNat)] := by
  rw [addFile, FileStorage.addFile] at h
  split_ifs at h
  · cases h
  · cases h
    exact ⟨rfl, by rw [outline, map_append]; rfl⟩

theorem addEntries_spec {entries : List BencodeValue}
    (h : addEntries name files entries = .ok files') : files'.pieceLength = files.pieceLength ∧
      outline files' = outline files ++ (entries.map listed).map (placed name) ∧
      ∀ file ∈ entries.map listed, ∀ c ∈ file.1, safeComponent c = true := by
  induction entries generalizing files with
  | nil =>
    cases h
    exact ⟨rfl, (append_nil _).symm, nofun⟩
  | cons entry entries ih =>
    rw [addEntries] at h
    split at h
    · rename_i length path hlength hpath
      split_ifs at h
      · cases h
      cases hjoin : joinPath name path with
      | error e => simp [hjoin, bind, Except.bind] at h
      | ok rel =>
        cases hadd : addFile files rel length with
        | error e => simp [hjoin, hadd, bind, Except.bind] at h
        | ok files₁ =>
          simp only [hjoin, hadd, bind, Except.bind] at h
          obtain ⟨rfl, hsafe⟩ := joinPath_spec hjoin
          obtain ⟨hpl, hfirst⟩ := addFile_spec hadd
          obtain ⟨hpl', hrest, hsafe'⟩ := ih h
          have hlisted : listed entry = (strings path, length.toInt.toNat) := by
            rw [listed, hlength, hpath]
            rfl
          refine ⟨hpl'.trans hpl, ?_, ?_⟩
          · rw [hrest, hfirst, append_assoc, map_cons, hlisted]
            rfl
          · rw [map_cons, hlisted]
            intro file hfile
            obtain rfl | hfile := mem_cons.mp hfile
            · exact hsafe
            · exact hsafe' file hfile
    · cases h

theorem parseFiles_spec {pieceLength : ℕ}
    (h : parseFiles info name (.empty pieceLength) = .ok files) :
    files.pieceLength = pieceLength ∧ outline files = (listing info).map (placed name) ∧
      ∀ file ∈ listing info, ∀ c ∈ file.1, safeComponent c = true := by
  rw [parseFiles] at h
  rw [listing]
  cases hentries : findList info "files" with
  | some entries =>
    rw [hentries] at h
    exact addEntries_spec h
  | none =>
    rw [hentries] at h
    cases hlength : findInt info "length" with
    | none => simp [hlength, fail] at h
    | some length =>
      simp only [hlength] at h
      split_ifs at h
      · cases h
      · obtain ⟨hpl, houtline⟩ := addFile_spec h
        refine ⟨hpl, ?_, fun file hfile c hc => ?_⟩
        · rw [houtline]
          simp [outline, empty, placed, joined]
        · rw [mem_singleton.mp hfile] at hc
          cases hc

/-! ### Outcomes without a message -/

theorem joinPath_ne_overflow (rel : Bytes) (comps : List BencodeValue) :
    joinPath rel comps ≠ .error .overflow := by
  induction comps generalizing rel with
  | nil => exact nofun
  | cons comp comps ih =>
    rw [joinPath]
    split
    · split_ifs
      · exact ih _
      · exact nofun
    · exact nofun

theorem addFile_ne_overflow (files : FileStorage) (path : Bytes) (length : Int64) :
    addFile files path length ≠ .error .overflow := by
  rw [addFile]
  split <;> exact nofun

theorem addEntries_ne_overflow (name : Bytes) (files : FileStorage) (entries : List BencodeValue) :
    addEntries name files entries ≠ .error .overflow := by
  induction entries generalizing files with
  | nil => exact nofun
  | cons entry entries ih =>
    rw [addEntries]
    split
    · rename_i length path hlength hpath
      split_ifs
      · exact nofun
      have hjoin := joinPath_ne_overflow name path
      cases hrel : joinPath name path with
      | error e => simpa [hrel, bind, Except.bind] using hjoin
      | ok rel =>
        have hadd := addFile_ne_overflow files rel length
        cases hfiles : addFile files rel length with
        | error e => simpa [hfiles, bind, Except.bind] using hadd
        | ok files => simpa [hfiles, bind, Except.bind] using ih files
    · exact nofun

theorem parseFiles_ne_overflow (info : BencodeValue) (name : Bytes) (files : FileStorage) :
    parseFiles info name files ≠ .error .overflow := by
  rw [parseFiles]
  split
  · exact addEntries_ne_overflow name files _
  · split
    · split_ifs
      · exact nofun
      · exact addFile_ne_overflow files name _
    · exact nofun

/-- The parser does not give up with a message. -/
def Unrejected {α : Type} (r : Except TorrentParseError α) : Prop :=
  ∀ m, r ≠ .error (.message m)

/-- What is known of a dictionary that is not rejected. -/
structure Listed (info : BencodeValue) (name : Bytes) (files : FileStorage) : Prop where
  pieceLength : files.pieceLength = listedPieceLength info
  pieceLength_pos : 0 < files.pieceLength
  pieceLength_le : files.pieceLength ≤ 2 ^ 30
  safeName : safeComponent name = true
  outline : outline files = (listing info).map (placed name)
  safe : ∀ file ∈ listing info, ∀ c ∈ file.1, safeComponent c = true

theorem Listed.totalSize (h : Listed info name files) : files.totalSize = listedLength info := by
  rw [totalSize_eq, h.outline, List.map_map]
  rfl

/-- **How a dictionary that is not rejected is taken**: the layout is the listed one, and either the
number of pieces cannot be computed, or there are as many hashes as it says. -/
theorem parseInfoDict_cases (h : Unrejected (parseInfoDict info)) :
    ∃ name files, Listed info name files ∧
      (parseInfoDict info = .error .overflow ∧ 2 ^ 63 ≤ files.totalSize + files.pieceLength ∨
        ∃ ti, parseInfoDict info = .ok ti ∧ ti.files = files ∧
          files.totalSize + files.pieceLength < 2 ^ 63 ∧
          ti.pieceHashes.length = kInfoHashSize * files.numPieces) := by
  unfold parseInfoDict at h ⊢
  split at h
  · rename_i name pieceLength pieces hname hlength hpieces
    split_ifs at h with hbounds hmultiple hsafe
    · exact absurd rfl (h _)
    · exact absurd rfl (h _)
    · exact absurd rfl (h _)
    cases hfiles : parseFiles info name (.empty pieceLength.toInt.toNat) with
    | error e =>
      cases e with
      | message m =>
        rw [hfiles] at h
        exact absurd rfl (h m)
      | overflow => exact absurd hfiles (parseFiles_ne_overflow _ _ _)
    | ok files =>
      obtain ⟨hpl, houtline, hcomps⟩ := parseFiles_spec hfiles
      obtain ⟨hpos, hle⟩ : 0 < pieceLength.toInt ∧ pieceLength.toInt ≤ 2 ^ 30 := by
        rw [not_or, Int64.le_iff_toInt_le, Int64.lt_iff_toInt_lt] at hbounds
        exact ⟨not_le.mp hbounds.1, not_lt.mp hbounds.2⟩
      have hlisted : Listed info name files := by
        refine ⟨?_, by omega, by omega, by simpa using hsafe, houtline, hcomps⟩
        rw [hpl, listedPieceLength, hlength]
        rfl
      rw [hfiles] at h
      refine ⟨name, files, hlisted, ?_⟩
      simp only [bind, Except.bind] at h ⊢
      split_ifs at h ⊢ with hoverflow hcount
      · exact .inl ⟨rfl, hoverflow⟩
      · exact absurd rfl (h _)
      · refine .inr ⟨_, rfl, rfl, not_le.mp hoverflow, ?_⟩
        have hdiv := Nat.div_add_mod pieces.length kInfoHashSize
        rw [not_not.mp hmultiple, not_not.mp hcount] at hdiv
        exact hdiv.symm
  · exact absurd rfl (h _)

/-- The outcome for a torrent is that for its dictionary, up to the fields beside the layout and the
hashes. -/
def Follows (info : BencodeValue) (r : Except TorrentParseError Metainfo) : Prop :=
  parseInfoDict info = .error .overflow ∧ r = .error .overflow ∨
    ∃ ti ti', parseInfoDict info = .ok ti ∧ r = .ok ti' ∧ ti'.files = ti.files ∧
      ti'.pieceHashes = ti.pieceHashes

theorem Follows.unrejected (h : Follows info r) : Unrejected (parseInfoDict info) := by
  intro m hm
  obtain ⟨hover, -⟩ | ⟨ti, ti', hok, -⟩ := h
  · cases hm.symm.trans hover
  · cases hm.symm.trans hok

/-- The info dictionary of a torrent file. -/
def infoIn (data : Bytes) : Option BencodeValue :=
  (decode data).bind (·.find (ascii "info"))

variable {sha1 : Bytes → InfoHash}

theorem fromInfoDict_cases {bytes : Bytes} {expected : InfoHash}
    (h : Unrejected (fromInfoDict sha1 bytes expected)) :
    ∃ info, decode bytes = some info ∧ Follows info (fromInfoDict sha1 bytes expected) := by
  unfold fromInfoDict at h ⊢
  split at h
  · exact absurd rfl (h _)
  rename_i info hinfo
  refine ⟨info, hinfo, ?_⟩
  cases hparse : parseInfoDict info with
  | error e =>
    cases e with
    | message m =>
      rw [hparse] at h
      exact absurd rfl (h m)
    | overflow => exact .inl ⟨hparse, rfl⟩
  | ok ti =>
    rw [hparse] at h
    split_ifs at h ⊢ with hhash
    · exact absurd rfl (h _)
    · exact .inr ⟨ti, _, hparse, rfl, rfl, rfl⟩

theorem fromBytes_cases {data : Bytes} (h : Unrejected (fromBytes sha1 data)) :
    ∃ info, infoIn data = some info ∧ Follows info (fromBytes sha1 data) := by
  unfold fromBytes at h ⊢
  split at h
  · exact absurd rfl (h _)
  · rename_i d hd
    split at h
    · rename_i span info hspan hinfo
      refine ⟨info, by rw [infoIn, hd, bind_some, hinfo], ?_⟩
      cases hparse : parseInfoDict info with
      | error e =>
        cases e with
        | message m =>
          rw [hparse] at h
          exact absurd rfl (h m)
        | overflow => exact .inl ⟨hparse, rfl⟩
      | ok ti => exact .inr ⟨ti, _, hparse, rfl, rfl, rfl⟩
    · exact absurd rfl (h _)
  · exact absurd rfl (h _)

/-! ## Geometry -/

/-- The pieces of a torrent are those of the payload its dictionary lists. -/
structure SoundGeometry (info : BencodeValue) (ti : Metainfo) : Prop where
  total : ti.files.totalSize = listedLength info
  pieces : 0 < ti.files.totalSize →
    (ti.files.numPieces - 1) * ti.files.pieceLength < ti.files.totalSize ∧
      ti.files.totalSize ≤ ti.files.numPieces * ti.files.pieceLength
  hashes : ti.pieceHashes.length = kInfoHashSize * ti.files.numPieces
  sizes : ((range ti.files.numPieces).map ti.files.pieceSize).sum = ti.files.totalSize

theorem le_of_soundGeometry (h : SoundGeometry info ti) (hpos : 0 < ti.files.pieceLength) :
    listedLength info ≤ (2 ^ 32 - 1) * ti.files.pieceLength := by
  rw [← h.total]
  obtain hzero | htotal := Nat.eq_zero_or_pos ti.files.totalSize
  · rw [hzero]
    exact Nat.zero_le _
  · have hlt := numPieces_lt hpos
    exact (h.pieces htotal).2.trans (Nat.mul_le_mul_right _ (by omega))

theorem soundGeometry_of_le (hlisted : Listed info name ti.files)
    (hhashes : ti.pieceHashes.length = kInfoHashSize * ti.files.numPieces)
    (hle : listedLength info ≤ (2 ^ 32 - 1) * listedPieceLength info) : SoundGeometry info ti := by
  have htotal := hlisted.totalSize
  rw [← htotal, ← hlisted.pieceLength] at hle
  have hpos := hlisted.pieceLength_pos
  refine ⟨htotal, fun h => ?_, hhashes, sum_pieceSize hpos hle⟩
  obtain ⟨hcover, htight⟩ := numPieces_spec hpos hle
  refine ⟨?_, hcover⟩
  rw [Nat.sub_mul]
  omega

theorem follows_sound_iff (h : Follows info r) : (∃ ti, r = .ok ti ∧ SoundGeometry info ti) ↔
      listedLength info ≤ (2 ^ 32 - 1) * listedPieceLength info := by
  obtain ⟨name, files, hlisted, hcases⟩ := parseInfoDict_cases h.unrejected
  have hpos := hlisted.pieceLength_pos
  have hbound := hlisted.pieceLength_le
  obtain ⟨hover, rfl⟩ | ⟨ti, ti', hok, rfl, hfiles, hhashes⟩ := h
  · -- a total that overflows is beyond all pieces of the largest length
    obtain ⟨-, hlarge⟩ | ⟨ti, hok, -⟩ := hcases
    · refine ⟨fun ⟨_, hti, _⟩ => (nomatch hti), fun hle => ?_⟩
      rw [← hlisted.totalSize, ← hlisted.pieceLength] at hle
      omega
    · cases hover.symm.trans hok
  obtain ⟨hover, -⟩ | ⟨ti₀, hok₀, rfl, -, hcount⟩ := hcases
  · cases hok.symm.trans hover
  obtain rfl := Except.ok.inj (hok.symm.trans hok₀)
  rw [← hfiles] at hlisted hpos
  constructor
  · rintro ⟨ti'', hti, hsound⟩
    obtain rfl := Except.ok.inj hti
    rw [← hlisted.pieceLength]
    exact le_of_soundGeometry hsound hpos
  · intro hle
    exact ⟨ti', rfl, soundGeometry_of_le hlisted (by rw [hhashes, hfiles, hcount]) hle⟩

/-- **A torrent that is not rejected is accepted with a sound geometry just if its dictionary lists
at most `2 ^ 32 - 1` pieces**, as a torrent file and as a bare dictionary. -/
theorem sound_geometry_iff (sha1 : Bytes → InfoHash) :
    (∀ data, Unrejected (fromBytes sha1 data) → ∃ info, infoIn data = some info ∧
      ((∃ ti, fromBytes sha1 data = .ok ti ∧ SoundGeometry info ti) ↔
        listedLength info ≤ (2 ^ 32 - 1) * listedPieceLength info)) ∧
    ∀ bytes expected, Unrejected (fromInfoDict sha1 bytes expected) →
      ∃ info, decode bytes = some info ∧
        ((∃ ti, fromInfoDict sha1 bytes expected = .ok ti ∧ SoundGeometry info ti) ↔
          listedLength info ≤ (2 ^ 32 - 1) * listedPieceLength info) := by
  refine ⟨fun data h => ?_, fun bytes expected h => ?_⟩
  · obtain ⟨info, hinfo, hfollows⟩ := fromBytes_cases h
    exact ⟨info, hinfo, follows_sound_iff hfollows⟩
  · obtain ⟨info, hinfo, hfollows⟩ := fromInfoDict_cases h
    exact ⟨info, hinfo, follows_sound_iff hfollows⟩

/-- The dictionary of one file. -/
def singleFile (length pieceLength : Int64) (pieces : Bytes) : BencodeValue :=
  .dictionary <| insertKey (ascii "length") (.integer length) <|
    insertKey (ascii "name") (.string (ascii "a")) <|
    insertKey (ascii "piece length") (.integer pieceLength) <|
    insertKey (ascii "pieces") (.string pieces) []

theorem decode_singleFile (length pieceLength : Int64) (pieces : Bytes) :
    decode (singleFile length pieceLength pieces).encode =
      some (singleFile length pieceLength pieces) :=
  decode_encode <| ((((canonical_empty 99).insertKey (canonical_string 99 _) _).insertKey
      (canonical_integer 99 _) _).insertKey (canonical_string 99 _) _).insertKey
      (canonical_integer 99 _) _

/-- One byte, one piece, one hash. -/
theorem sound_geometry_iff_oneByte :
    ∃ ti, fromInfoDict (fun _ => []) (singleFile 1 1 (replicate 20 0)).encode [] = .ok ti ∧
      SoundGeometry (singleFile 1 1 (replicate 20 0)) ti := by
  have hok : (fromInfoDict (fun _ => []) (singleFile 1 1 (replicate 20 0)).encode []).isOk := by
    rw [fromInfoDict, decode_singleFile]
    decide +kernel
  have hunrejected : Unrejected
      (fromInfoDict (fun _ => []) (singleFile 1 1 (replicate 20 0)).encode []) := by
    intro m hm
    rw [hm] at hok
    cases hok
  obtain ⟨info, hinfo, hiff⟩ := (sound_geometry_iff fun _ => []).2 _ _ hunrejected
  rw [decode_singleFile] at hinfo
  cases hinfo
  exact hiff.mpr (by decide +kernel)

/-- A payload of `2 ^ 32` pieces is accepted with no piece and no hash, and for the largest payload
the number of pieces is computed with an overflow. -/
theorem unsound_accepted :
    (∃ ti, fromInfoDict (fun _ => []) (singleFile 4294967296 1 []).encode [] = .ok ti ∧
      ti.files.totalSize = 2 ^ 32 ∧ ti.files.numPieces = 0 ∧
      ¬SoundGeometry (singleFile 4294967296 1 []) ti) ∧
    fromInfoDict (fun _ => []) (singleFile Int64.maxValue 1 []).encode [] = .error .overflow := by
  constructor
  · have hok : ∃ ti, fromInfoDict (fun _ => []) (singleFile 4294967296 1 []).encode [] = .ok ti ∧
        ti.files.totalSize = 2 ^ 32 ∧ ti.files.numPieces = 0 := by
      rw [fromInfoDict, decode_singleFile]
      exact ⟨_, rfl, by decide +kernel, by decide +kernel⟩
    obtain ⟨ti, hti, htotal, hpieces⟩ := hok
    refine ⟨ti, hti, htotal, hpieces, fun hsound => ?_⟩
    have hcover := (hsound.pieces (by omega)).2
    rw [hpieces] at hcover
    omega
  · rw [fromInfoDict, decode_singleFile]
    rfl

/-! ## Places on disk -/

/-- `ThreadedDiskIo::file_path`. -/
def filePath (savePath : Bytes) (files : FileStorage) (index : ℕ) : Bytes :=
  combinePaths savePath ((files.files[index]?.map FileEntry.path).getD [])

/-- Where a byte of the payload is on disk: the path and offset `map_block` gives, for a piece index
of any size. -/
def place (savePath : Bytes) (files : FileStorage) (abs : ℕ) : Option (Bytes × ℕ) :=
  (files.mapBlock (abs / files.pieceLength) (abs % files.pieceLength) 1).head?.map
    fun s => (filePath savePath files s.fileIndex, s.offset)

/-- No two bytes of the payload have one place, and no file is a directory for another. -/
structure PlacesApart (savePath : Bytes) (files : FileStorage) : Prop where
  injective : ∀ abs < files.totalSize, ∀ abs' < files.totalSize,
    place savePath files abs = place savePath files abs' → abs = abs'
  nested : ∀ i < files.files.length, ∀ j < files.files.length, ∀ rest,
    filePath savePath files j ≠ filePath savePath files i ++ 47 :: rest

/-- No path is listed twice for non-empty files, and none is a proper part of another. -/
def PathsApart (files : List (List Bytes × ℕ)) : Prop :=
  files.Pairwise (fun f g => f.1 = g.1 → f.2 = 0 ∨ g.2 = 0) ∧
    ∀ f ∈ files, ∀ g ∈ files, f.1 <+: g.1 → f.1 = g.1

instance (files : List (List Bytes × ℕ)) : Decidable (PathsApart files) :=
  inferInstanceAs (Decidable (_ ∧ _))

theorem PathsApart.empty {files : List (List Bytes × ℕ)} (h : PathsApart files) {i j : ℕ}
    {f g : List Bytes × ℕ} (hij : i < j) (hf : files[i]? = some f) (hg : files[j]? = some g)
    (hpath : f.1 = g.1) : f.2 = 0 ∨ g.2 = 0 := by
  obtain ⟨hi, rfl⟩ := List.getElem?_eq_some_iff.mp hf
  obtain ⟨hj, rfl⟩ := List.getElem?_eq_some_iff.mp hg
  exact pairwise_iff_getElem.mp h.1 i j hi hj hij hpath

/-! ### Joined components -/

theorem takeWhile_component {c : Bytes} (hc : 47 ∉ c) (hrest : rest = [] ∨ rest.head? = some 47) :
    (c ++ rest).takeWhile (· != 47) = c := by
  rw [takeWhile_append_of_pos fun b hb => by
    simpa using fun h : b = 47 => hc (h ▸ hb)]
  obtain rfl | hhead := hrest
  · simp
  · obtain ⟨l, rfl⟩ : ∃ l, rest = 47 :: l := ⟨_, eq_cons_of_mem_head? hhead⟩
    simp

theorem flatMap_slash (cs : List Bytes) :
    cs.flatMap (47 :: ·) = [] ∨ (cs.flatMap (47 :: ·)).head? = some 47 := by
  cases cs with
  | nil => exact .inl rfl
  | cons c cs => exact .inr rfl

theorem exists_of_flatMap_append (hcs : ∀ c ∈ cs, 47 ∉ c) (hds : ∀ d ∈ ds, 47 ∉ d)
    (hrest : rest = [] ∨ rest.head? = some 47)
    (h : ds.flatMap (47 :: ·) = cs.flatMap (47 :: ·) ++ rest) :
    ∃ es, ds = cs ++ es ∧ rest = es.flatMap (47 :: ·) := by
  induction cs generalizing ds with
  | nil => exact ⟨ds, rfl, h.symm⟩
  | cons c cs ih =>
    cases ds with
    | nil => cases h
    | cons d ds =>
      simp only [flatMap_cons, cons_append, cons.injEq, true_and, append_assoc] at h
      have hc := hcs c (.head _)
      have hd := hds d (.head _)
      have htail : cs.flatMap (47 :: ·) ++ rest = [] ∨
          (cs.flatMap (47 :: ·) ++ rest).head? = some 47 := by
        cases cs with
        | nil => exact hrest
        | cons c' cs => exact .inr rfl
      have hcd : d = c := by
        rw [← takeWhile_component hd (flatMap_slash ds), h, takeWhile_component hc htail]
      subst hcd
      obtain ⟨es, rfl, hes⟩ := ih (fun c hc => hcs c (.tail _ hc))
        (fun d hd => hds d (.tail _ hd)) (append_cancel_left h)
      exact ⟨es, rfl, hes⟩

theorem safeComponent_spec {c : Bytes} (h : safeComponent c = true) : c ≠ [] ∧ 47 ∉ c ∧ 92 ∉ c := by
  simp only [safeComponent, Bool.and_eq_true, Bool.not_eq_true', Bool.or_eq_false_iff,
    isEmpty_eq_false_iff, contains_eq_mem, decide_eq_false_iff_not] at h
  exact ⟨h.1.1.1.1.1, h.1.1.2, h.1.2⟩

theorem joined_eq_append_iff (hcs : ∀ c ∈ cs, 47 ∉ c)
    (hds : ∀ d ∈ ds, 47 ∉ d) (hrest : rest = [] ∨ rest.head? = some 47) :
    joined name ds = joined name cs ++ rest ↔ ∃ es, ds = cs ++ es ∧ rest = es.flatMap (47 :: ·) := by
  constructor
  · intro h
    rw [joined, joined, append_assoc] at h
    exact exists_of_flatMap_append hcs hds hrest (append_cancel_left h)
  · rintro ⟨es, rfl, rfl⟩
    rw [joined, joined, flatMap_append, append_assoc]

theorem joined_inj (hcs : ∀ c ∈ cs, 47 ∉ c) (hds : ∀ d ∈ ds, 47 ∉ d)
    (h : joined name ds = joined name cs) : ds = cs := by
  have happend : joined name ds = joined name cs ++ [] := by rw [h, append_nil]
  obtain ⟨es, rfl, hes⟩ := (joined_eq_append_iff hcs hds (.inl rfl)).mp happend
  cases es with
  | nil => exact append_nil cs
  | cons e es => cases hes

theorem joined_plain {comps : List Bytes} (hname : safeComponent name = true)
    (hcomps : ∀ c ∈ comps, safeComponent c = true) :
    joined name comps ≠ [] ∧ (joined name comps).head?.any isSeparator = false ∧
      92 ∉ joined name comps := by
  obtain ⟨hne, hslash, hback⟩ := safeComponent_spec hname
  obtain ⟨b, l, rfl⟩ := exists_cons_of_ne_nil hne
  refine ⟨by simp [joined], ?_, ?_⟩
  · have hb : b ≠ 47 ∧ b ≠ 92 :=
      ⟨fun h => hslash (h ▸ (.head _)), fun h => hback (h ▸ (.head _))⟩
    simp [joined, isSeparator, hb]
  · rw [joined, mem_append, not_or]
    refine ⟨hback, fun hmem => ?_⟩
    obtain ⟨c, hc, hin⟩ := mem_flatMap.mp hmem
    obtain heq | hin := mem_cons.mp hin
    · exact absurd heq (by decide)
    · exact (safeComponent_spec (hcomps c hc)).2.2 hin

/-! ### The places of an accepted torrent -/

namespace Listed

variable {info : BencodeValue} {name : Bytes} {files : FileStorage} (h : Listed info name files)
  {f : List Bytes × ℕ}
include h

theorem getElem? (i : ℕ) :
    files.files[i]?.map (fun e => (e.path, e.size)) = (listing info)[i]?.map (placed name) := by
  rw [← getElem?_map, ← getElem?_map, ← h.outline]
  rfl

theorem exists_listed {i : ℕ} {e : FileEntry} (he : files.files[i]? = some e) :
    ∃ f, (listing info)[i]? = some f ∧ e.path = joined name f.1 ∧ e.size = f.2 := by
  have hlisted := h.getElem? i
  rw [he] at hlisted
  obtain ⟨f, hf, hplaced⟩ := map_eq_some_iff.mp hlisted.symm
  exact ⟨f, hf, (congrArg Prod.fst hplaced).symm, (congrArg Prod.snd hplaced).symm⟩

theorem exists_file {i : ℕ} (hf : (listing info)[i]? = some f) :
    ∃ e, files.files[i]? = some e ∧ e.path = joined name f.1 ∧ e.size = f.2 := by
  have hlisted := h.getElem? i
  rw [hf] at hlisted
  obtain ⟨e, he, hplaced⟩ := map_eq_some_iff.mp hlisted
  exact ⟨e, he, congrArg Prod.fst hplaced, congrArg Prod.snd hplaced⟩

theorem slash (hf : f ∈ listing info) : ∀ c ∈ f.1, 47 ∉ c :=
  fun c hc => (safeComponent_spec (h.safe f hf c hc)).2.1

theorem filePath_eq (savePath : Bytes) : ∃ front, ∀ i f, (listing info)[i]? = some f →
      filePath savePath files i = front ++ joined name f.1 := by
  obtain ⟨front, hfront⟩ := exists_combinePaths_eq savePath
  refine ⟨front, fun i f hf => ?_⟩
  obtain ⟨e, he, hpath, -⟩ := h.exists_file hf
  obtain ⟨hne, hhead, hback⟩ := joined_plain h.safeName (h.safe f (mem_of_getElem? hf))
  rw [filePath, he, map_some, getD_some, hpath, hfront _ hne hhead hback]

end Listed

theorem place_of_lt (savePath : Bytes) {abs : ℕ} (h : abs < files.totalSize) :
    ∃ i o, files.At abs i o ∧ place savePath files abs = some (filePath savePath files i, o) := by
  obtain ⟨hcovers, hsizes⟩ :=
    files.covers_mapBlock (abs / files.pieceLength) (abs % files.pieceLength) 1
  rw [Nat.div_add_mod'] at hcovers hsizes
  rw [place]
  cases hslices : files.mapBlock (abs / files.pieceLength) (abs % files.pieceLength) 1 with
  | nil =>
    rw [hslices] at hsizes
    simp only [sliceSizes, map_nil, sum_nil] at hsizes
    omega
  | cons s slices =>
    rw [hslices] at hcovers
    obtain ⟨hpos, hat, -⟩ := hcovers
    exact ⟨s.fileIndex, s.offset, hat 0 hpos, rfl⟩

theorem placesApart_of_pathsApart (h : Listed info name files) (savePath : Bytes)
    (hapart : PathsApart (listing info)) : PlacesApart savePath files := by
  obtain ⟨front, hfront⟩ := h.filePath_eq savePath
  constructor
  · intro abs hlt abs' hlt' heq
    obtain ⟨i, o, hat, hplace⟩ := place_of_lt savePath hlt
    obtain ⟨j, o', hat', hplace'⟩ := place_of_lt savePath hlt'
    rw [hplace, hplace', Option.some.injEq, Prod.mk.injEq] at heq
    obtain ⟨hpath, rfl⟩ := heq
    obtain ⟨e, he, hsize, -⟩ := id hat
    obtain ⟨e', he', hsize', -⟩ := id hat'
    obtain ⟨f, hf, -, hef⟩ := h.exists_listed he
    obtain ⟨g, hg, -, heg⟩ := h.exists_listed he'
    rw [hfront i f hf, hfront j g hg] at hpath
    have hcomps : f.1 = g.1 := joined_inj (h.slash (mem_of_getElem? hg))
      (h.slash (mem_of_getElem? hf)) (append_cancel_left hpath)
    -- both files hold a byte, so that they are one
    have hij : i = j := by
      by_contra hne
      have hempty : f.2 = 0 ∨ g.2 = 0 := by
        obtain hlt | hgt := Nat.lt_or_gt_of_ne hne
        · exact hapart.empty hlt hf hg hcomps
        · exact (hapart.empty hgt hg hf hcomps.symm).symm
      omega
    subst hij
    exact hat.injective hat'
  intro i hi j hj rest heq
  obtain ⟨f, hf, -, -⟩ := h.exists_listed (getElem?_eq_getElem hi)
  obtain ⟨g, hg, -, -⟩ := h.exists_listed (getElem?_eq_getElem hj)
  rw [hfront i f hf, hfront j g hg, append_assoc] at heq
  obtain ⟨es, hes, hrest⟩ := (joined_eq_append_iff (h.slash (mem_of_getElem? hf))
    (h.slash (mem_of_getElem? hg)) (.inr rfl)).mp (append_cancel_left heq)
  have hsame := hapart.2 f (mem_of_getElem? hf) g (mem_of_getElem? hg) ⟨es, hes.symm⟩
  rw [hsame] at hes
  have hcancel : g.1 ++ es = g.1 ++ [] := by rw [← hes, append_nil]
  obtain rfl := append_cancel_left hcancel
  cases hrest

theorem place_of_at {abs i o : ℕ} (savePath : Bytes) (h : files.At abs i o) :
    place savePath files abs = some (filePath savePath files i, o) := by
  obtain ⟨i', o', hat, hplace⟩ := place_of_lt savePath h.lt_totalSize
  obtain ⟨rfl, rfl⟩ := hat.unique h
  exact hplace

theorem pathsApart_of_placesApart (h : Listed info name files) {savePath : Bytes}
    (hapart : PlacesApart savePath files) : PathsApart (listing info) := by
  obtain ⟨front, hfront⟩ := h.filePath_eq savePath
  constructor
  · refine pairwise_iff_getElem.mpr fun i j hi hj hij hcomps => ?_
    have hf := getElem?_eq_getElem hi
    have hg := getElem?_eq_getElem hj
    obtain ⟨e, he, -, hsize⟩ := h.exists_file hf
    obtain ⟨e', he', -, hsize'⟩ := h.exists_file hg
    by_contra hfull
    -- the first bytes of the two files
    have hat : files.At (e.offset + 0) i 0 := ⟨e, he, by omega, rfl⟩
    have hat' : files.At (e'.offset + 0) j 0 := ⟨e', he', by omega, rfl⟩
    have hsame := hapart.injective _ hat.lt_totalSize _ hat'.lt_totalSize (by
      rw [place_of_at savePath hat, place_of_at savePath hat', hfront i _ hf, hfront j _ hg, hcomps])
    have hle := files.consecutive.le he he' hij
    omega
  rintro f hf g hg ⟨es, hes⟩
  cases es with
  | nil => rw [← hes, append_nil]
  | cons c es =>
    obtain ⟨i, hi⟩ := mem_iff_getElem?.mp hf
    obtain ⟨j, hj⟩ := mem_iff_getElem?.mp hg
    obtain ⟨e, he, -⟩ := h.exists_file hi
    obtain ⟨e', he', -⟩ := h.exists_file hj
    refine absurd ?_ (hapart.nested i (List.getElem?_eq_some_iff.mp he).1 j
      (List.getElem?_eq_some_iff.mp he').1 (c ++ es.flatMap (47 :: ·)))
    rw [hfront i f hi, hfront j g hj, append_assoc]
    exact congrArg _ ((joined_eq_append_iff (h.slash hf) (h.slash hg) (.inr rfl)).mpr
      ⟨c :: es, hes.symm, rfl⟩)

theorem follows_places_iff (h : Follows info (.ok ti)) (savePath : Bytes) :
    PlacesApart savePath ti.files ↔ PathsApart (listing info) := by
  obtain ⟨name, files, hlisted, hcases⟩ := parseInfoDict_cases h.unrejected
  obtain ⟨-, hover⟩ | ⟨ti₁, ti₂, hok, hti, hfiles, -⟩ := h
  · cases hover
  · obtain rfl := Except.ok.inj hti
    obtain ⟨hover, -⟩ | ⟨ti₀, hok₀, rfl, -⟩ := hcases
    · cases hok.symm.trans hover
    · obtain rfl := Except.ok.inj (hok.symm.trans hok₀)
      rw [hfiles]
      exact ⟨pathsApart_of_placesApart hlisted, placesApart_of_pathsApart hlisted savePath⟩

theorem unrejected_ok {α : Type} (a : α) : Unrejected (.ok a) := nofun

/-- **The bytes of an accepted torrent have places of their own just if its dictionary lists no path
twice for files that are not empty, and none that is a proper part of another.** -/
theorem places_apart_iff (sha1 : Bytes → InfoHash) (savePath : Bytes) :
    (∀ data ti, fromBytes sha1 data = .ok ti → ∃ info, infoIn data = some info ∧
      (PlacesApart savePath ti.files ↔ PathsApart (listing info))) ∧
    ∀ bytes expected ti, fromInfoDict sha1 bytes expected = .ok ti →
      ∃ info, decode bytes = some info ∧
        (PlacesApart savePath ti.files ↔ PathsApart (listing info)) := by
  refine ⟨fun data ti h => ?_, fun bytes expected ti h => ?_⟩
  · obtain ⟨info, hinfo, hfollows⟩ := fromBytes_cases (h ▸ unrejected_ok ti)
    exact ⟨info, hinfo, follows_places_iff (h ▸ hfollows) savePath⟩
  · obtain ⟨info, hinfo, hfollows⟩ := fromInfoDict_cases (h ▸ unrejected_ok ti)
    exact ⟨info, hinfo, follows_places_iff (h ▸ hfollows) savePath⟩

/-- The entry of a file of one byte. -/
def byteFile (comps : List Bytes) : BencodeValue :=
  .dictionary <| insertKey (ascii "length") (.integer 1) <|
    insertKey (ascii "path") (.list (comps.map .string)) []

/-- The dictionary of two files of one byte each, in one piece. -/
def twoFiles (comps comps' : List Bytes) : BencodeValue :=
  .dictionary <| insertKey (ascii "files") (.list [byteFile comps, byteFile comps']) <|
    insertKey (ascii "name") (.string (ascii "a")) <|
    insertKey (ascii "piece length") (.integer 2) <|
    insertKey (ascii "pieces") (.string (replicate 20 0)) []

theorem decode_twoFiles (comps comps' : List Bytes) :
    decode (twoFiles comps comps').encode = some (twoFiles comps comps') := by
  have hfile (comps : List Bytes) : Bencode.Canonical 98 (byteFile comps) :=
    ((canonical_empty 97).insertKey (canonical_strings 96 _) _).insertKey (canonical_integer 97 _) _
  have hfiles : Bencode.Canonical 99 (.list [byteFile comps, byteFile comps']) := by
    intro v hv
    simp only [mem_cons, not_mem_nil, or_false] at hv
    obtain rfl | rfl := hv <;> exact hfile _
  exact decode_encode <| ((((canonical_empty 99).insertKey (canonical_string 99 _) _).insertKey
      (canonical_integer 99 _) _).insertKey (canonical_string 99 _) _).insertKey hfiles _

/-- Two files of different names. -/
theorem places_apart_iff_twoFiles :
    ∃ ti, fromInfoDict (fun _ => []) (twoFiles [ascii "x"] [ascii "y"]).encode [] = .ok ti ∧
      PlacesApart (ascii "s") ti.files := by
  have hok : ∃ ti, fromInfoDict (fun _ => []) (twoFiles [ascii "x"] [ascii "y"]).encode [] = .ok ti := by
    rw [fromInfoDict, decode_twoFiles]
    exact ⟨_, rfl⟩
  obtain ⟨ti, hti⟩ := hok
  obtain ⟨info, hinfo, hiff⟩ := (places_apart_iff (fun _ => []) (ascii "s")).2 _ _ ti hti
  rw [decode_twoFiles] at hinfo
  cases hinfo
  exact ⟨ti, hti, hiff.mpr (by decide +kernel)⟩

/-- Two files of one name are accepted, with one place for their bytes; so are a file and another
below it. -/
theorem colliding_accepted :
    (∃ ti, fromInfoDict (fun _ => []) (twoFiles [ascii "x"] [ascii "x"]).encode [] = .ok ti ∧
      place (ascii "s") ti.files 0 = some (ascii "s/a/x", 0) ∧
      place (ascii "s") ti.files 1 = some (ascii "s/a/x", 0) ∧ ¬PlacesApart (ascii "s") ti.files) ∧
    ∃ ti, fromInfoDict (fun _ => []) (twoFiles [ascii "x"] [ascii "x", ascii "y"]).encode [] = .ok ti ∧
      filePath (ascii "s") ti.files 0 = ascii "s/a/x" ∧
      filePath (ascii "s") ti.files 1 = ascii "s/a/x/y" ∧ ¬PlacesApart (ascii "s") ti.files := by
  constructor
  · have hok : ∃ ti, fromInfoDict (fun _ => []) (twoFiles [ascii "x"] [ascii "x"]).encode [] = .ok ti ∧
        ti.files.totalSize = 2 ∧ place (ascii "s") ti.files 0 = some (ascii "s/a/x", 0) ∧
        place (ascii "s") ti.files 1 = some (ascii "s/a/x", 0) := by
      rw [fromInfoDict, decode_twoFiles]
      exact ⟨_, rfl, by decide +kernel, by decide +kernel, by decide +kernel⟩
    obtain ⟨ti, hti, htotal, h₀, h₁⟩ := hok
    refine ⟨ti, hti, h₀, h₁, fun hapart => ?_⟩
    exact absurd (hapart.injective 0 (by omega) 1 (by omega) (h₀.trans h₁.symm)) (by decide)
  have hok : ∃ ti, fromInfoDict (fun _ => [])
        (twoFiles [ascii "x"] [ascii "x", ascii "y"]).encode [] = .ok ti ∧
      ti.files.files.length = 2 ∧ filePath (ascii "s") ti.files 0 = ascii "s/a/x" ∧
      filePath (ascii "s") ti.files 1 = ascii "s/a/x/y" := by
    rw [fromInfoDict, decode_twoFiles]
    exact ⟨_, rfl, by decide +kernel, by decide +kernel, by decide +kernel⟩
  obtain ⟨ti, hti, hlength, h₀, h₁⟩ := hok
  refine ⟨ti, hti, h₀, h₁, fun hapart => ?_⟩
  refine absurd ?_ (hapart.nested 0 (by omega) 1 (by omega) (ascii "y"))
  rw [h₀, h₁]
  decide +kernel

end TorrentInfo

end Librats.BitTorrent
