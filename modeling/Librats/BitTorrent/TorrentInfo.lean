import Librats.BitTorrent.Bencode
import Librats.BitTorrent.FileStorage

/-!
# Torrent files

What `bittorrent/torrent_info.cpp` accepts: a torrent file (`from_bytes`) or the bare dictionary
that a magnet link is completed with (`from_info_dict`). A total size that makes the signed sum in
`num_pieces` overflow has no defined outcome (`TorrentParseError.overflow`).
-/

namespace Librats.BitTorrent

open Parsing

/-! ## The info dictionary -/

/-- How parsing ends without a torrent: with a message, or in an undefined overflow. -/
inductive TorrentParseError
  | message (m : String)
  | overflow
  deriving DecidableEq

abbrev InfoHash := Bytes

def kInfoHashSize : ℕ := 20

def isAllZero (h : InfoHash) : Bool := h.all (· == 0)

/-- The fields of `TorrentInfo`. -/
structure Metainfo where
  files : FileStorage
  name : Bytes
  pieceHashes : Bytes
  isPrivate : Bool
  hasMetadata : Bool
  infoDictBytes : Bytes
  infoHash : InfoHash
  announce : Bytes
  comment : Bytes
  createdBy : Bytes
  creationDate : Int64
  announceList : List (List Bytes)
  webSeeds : List Bytes
  dhtNodes : List (Bytes × ℕ)

/-- A `TorrentInfo` as it is constructed. -/
def Metainfo.blank : Metainfo where
  files := .empty 0
  name := []
  pieceHashes := []
  isPrivate := false
  hasMetadata := false
  infoDictBytes := []
  infoHash := List.replicate kInfoHashSize 0
  announce := []
  comment := []
  createdBy := []
  creationDate := 0
  announceList := []
  webSeeds := []
  dhtNodes := []

namespace TorrentInfo

variable (dict : BencodeValue)

def findString (key : String) : Option Bytes :=
  (dict.find (ascii key)).bind BencodeValue.asString

def findInt (key : String) : Option Int64 :=
  (dict.find (ascii key)).bind BencodeValue.asInteger

/-- An entry of a dictionary that is a list. -/
def findList (key : String) : Option (List BencodeValue) :=
  (dict.find (ascii key)).bind BencodeValue.asList

def safeComponent (c : Bytes) : Bool :=
  !(c.isEmpty || c == [46] || c == [46, 46]) && !c.contains 47 && !c.contains 92 && !c.contains 0

def fail {α : Type} (m : String) : Except TorrentParseError α := .error (.message m)

/-- The components of a path, each behind a slash, appended to `rel`. -/
def joinPath (rel : Bytes) : List BencodeValue → Except TorrentParseError Bytes
  | [] => .ok rel
  | comp :: comps =>
    match comp.asString with
    | some c => if safeComponent c then joinPath (rel ++ 47 :: c) comps else fail "unsafe file path"
    | none => fail "unsafe file path"

def addFile (files : FileStorage) (path : Bytes) (length : Int64) :
    Except TorrentParseError FileStorage :=
  match files.addFile path length.toInt with
  | some files => .ok files
  | none => fail "file size overflow"

/-- The loop over the entries of a torrent of several files. -/
def addEntries (name : Bytes) : FileStorage → List BencodeValue → Except TorrentParseError FileStorage
  | files, [] => .ok files
  | files, entry :: entries =>
    match findInt entry "length", findList entry "path" with
    | some length, some path =>
      if length < 0 then fail "bad file entry"
      else do
        let rel ← joinPath name path
        let files ← addFile files rel length
        addEntries name files entries
    | _, _ => fail "bad file entry"

/-- The files an info dictionary lists. -/
def parseFiles (info : BencodeValue) (name : Bytes) (files : FileStorage) :
    Except TorrentParseError FileStorage :=
  match findList info "files" with
  | some entries => addEntries name files entries
  | none =>
    match findInt info "length" with
    | some length =>
      if length < 0 then fail "single-file torrent missing length" else addFile files name length
    | none => fail "single-file torrent missing length"

/-- `parse_info_dict`, on a `TorrentInfo` just constructed. -/
def parseInfoDict (info : BencodeValue) : Except TorrentParseError Metainfo :=
  match findString info "name", findInt info "piece length", findString info "pieces" with
  | some name, some pieceLength, some pieces =>
    if pieceLength ≤ 0 ∨ 2 ^ 30 < pieceLength then fail "invalid piece length"
    else if pieces.length % kInfoHashSize ≠ 0 then fail "pieces string not a multiple of 20"
    else if !safeComponent name then fail "unsafe torrent name"
    else do
      let files ← parseFiles info name (.empty pieceLength.toInt.toNat)
      if 2 ^ 63 ≤ files.totalSize + files.pieceLength then .error .overflow
      else if pieces.length / kInfoHashSize ≠ files.numPieces then fail "piece count mismatch"
      else
        .ok { Metainfo.blank with
          files := files
          name := name
          pieceHashes := pieces
          isPrivate := (findInt info "private").getD 0 == 1
          hasMetadata := true }
  | _, _, _ => fail "info dict missing name/piece length/pieces"

/-! ## The span of the info dictionary -/

/-- `read_bstring` in a buffer of `n` bytes. -/
def readBstring (n : ℕ) (p : Bytes) : Option (Bytes × Bytes) :=
  let digits := p.takeWhile (· != 58)
  if digits = [] ∨ ¬digits.all Decimal.isDigit then none
  else
    match p.dropWhile (· != 58), Decimal.scan (fun len d => ¬n < len * 10 + d) 0 digits with
    | _ :: rest, some (len, _) =>
      if rest.length < len then none else some (rest.take len, rest.drop len)
    | _, _ => none

/-- `skip_value`. Each level takes a byte, so that the length of the buffer bounds their number. -/
def skipValue (n : ℕ) : ℕ → Parser UInt8 Unit
  | 0, _ => none
  | _ + 1, [] => none
  | levels + 1, c :: p =>
    if c = 105 then
      match p.dropWhile (· != 101) with
      | _ :: rest => some ((), rest)
      | [] => none
    else if c = 108 ∨ c = 100 then
      (items (skipValue n levels) 101 p.length p).map fun (_, rest) => ((), rest)
    else if Decimal.isDigit c then (readBstring n (c :: p)).map fun (_, rest) => ((), rest)
    else none

/-- The loop of `find_info_span`: the bytes of the value of `info`. -/
def findInfo (n : ℕ) : ℕ → Bytes → Option Bytes
  | 0, _ => none
  | entries + 1, p =>
    if p = [] ∨ p.head? = some 101 then none
    else
      match readBstring n p with
      | none => none
      | some (key, value) =>
        match skipValue n n value with
        | none => none
        | some (_, rest) =>
          if key = ascii "info" then some (value.take (value.length - rest.length))
          else findInfo n entries rest

/-- `find_info_span`, and the bytes it delimits. -/
def findInfoSpan (buf : Bytes) : Option Bytes :=
  if buf.head? = some 100 then findInfo buf.length buf.length buf.tail else none

/-! ## Torrents -/

variable (sha1 : Bytes → InfoHash)

def fromInfoDict (bytes : Bytes) (expected : InfoHash) : Except TorrentParseError Metainfo :=
  match Bencode.decode bytes with
  | none => fail "Invalid bencode data"
  | some info => do
    let ti ← parseInfoDict info
    if !isAllZero expected ∧ sha1 bytes ≠ expected then fail "info-hash mismatch"
    else .ok { ti with infoDictBytes := bytes, infoHash := sha1 bytes }

/-- The strings among the items of a list. -/
def strings (l : List BencodeValue) : List Bytes := l.filterMap BencodeValue.asString

/-- `announce-list`, without what is not a list and tiers without an address. -/
def tiers (root : BencodeValue) : List (List Bytes) :=
  ((((findList root "announce-list").getD []).filterMap BencodeValue.asList).map strings).filter
    (· ≠ [])

/-- `url-list`, a string or a list of them. -/
def urls (root : BencodeValue) : List Bytes :=
  match root.find (ascii "url-list") with
  | some (.string s) => [s]
  | some (.list l) => strings l
  | _ => []

/-- `nodes`, pairs of a host and a port of 16 bits. -/
def nodes (root : BencodeValue) : List (Bytes × ℕ) :=
  ((findList root "nodes").getD []).filterMap fun node =>
    match node with
    | .list [.string host, .integer port] => some (host, (port.toInt % 2 ^ 16).toNat)
    | _ => none

def fromBytes (data : Bytes) : Except TorrentParseError Metainfo :=
  match Bencode.decode data with
  | none => fail "Invalid bencode data"
  | some (.dictionary d) =>
    match findInfoSpan data, (BencodeValue.dictionary d).find (ascii "info") with
    | some span, some info => do
      let ti ← parseInfoDict info
      let root := BencodeValue.dictionary d
      .ok { ti with
        infoDictBytes := span
        infoHash := sha1 span
        announce := (findString root "announce").getD []
        comment := (findString root "comment").getD []
        createdBy := (findString root "created by").getD []
        creationDate := (findInt root "creation date").getD 0
        announceList := tiers root
        webSeeds := urls root
        dhtNodes := nodes root }
    | _, _ => fail "missing info dict"
  | some _ => fail "torrent is not a dict"

end TorrentInfo

end Librats.BitTorrent
