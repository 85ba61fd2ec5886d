import Librats.Core.Types
import Librats.Foundations.Decimal
import Librats.Foundations.Parsing

/-!
# Bencode

The value tree, the encoder and the parser of `bittorrent/bencode.cpp`. Entries of a dictionary are
parsed in any order, sorted, and refused if a key occurs twice.
-/

namespace Librats

open List

/-- The bytes of a text literal. -/
def ascii (s : String) : Bytes := s.toList.map fun c => c.val.toUInt8

inductive BencodeValue
  | integer (v : Int64)
  | string (s : Bytes)
  | list (l : List BencodeValue)
  | dictionary (d : List (Bytes × BencodeValue))

open BencodeValue

abbrev BencodeDict := List (Bytes × BencodeValue)

namespace BencodeValue

/-! ## Access -/

def asInteger : BencodeValue → Option Int64
  | .integer v => some v
  | _ => none

def asString : BencodeValue → Option Bytes
  | .string s => some s
  | _ => none

def asList : BencodeValue → Option (List BencodeValue)
  | .list l => some l
  | _ => none

@[simp] theorem asInteger_integer (v : Int64) : (integer v).asInteger = some v := rfl

@[simp] theorem asString_string (s : Bytes) : (string s).asString = some s := rfl

/-- `find`: the entry at the lower bound of the key, if it has the key. -/
def find : BencodeValue → Bytes → Option BencodeValue
  | .dictionary d, key =>
    match d.dropWhile (fun e => e.1 < key) with
    | e :: _ => if e.1 = key then some e.2 else none
    | [] => none
  | _, _ => none

end BencodeValue

/-- `operator[]` for writing: the entry at the lower bound of the key is replaced if it has the key,
else a new one is put before it. -/
def BencodeDict.insertKey (key : Bytes) (v : BencodeValue) : BencodeDict → BencodeDict
  | [] => [(key, v)]
  | e :: d =>
    if e.1 < key then e :: insertKey key v d
    else if e.1 = key then (key, v) :: d
    else (key, v) :: e :: d

/-- A key that is written only under a condition. -/
def BencodeDict.insertWhen (c : Bool) (key : Bytes) (v : BencodeValue) (d : BencodeDict) :
    BencodeDict :=
  if c then d.insertKey key v else d

/-! ## Encoding -/

/-- `std::to_string` of a signed number. -/
def toText (v : Int64) : Bytes :=
  if v.toInt < 0 then 45 :: Decimal.encode v.toInt.natAbs else Decimal.encode v.toInt.toNat

def appendStr (s : Bytes) : Bytes := Decimal.encode s.length ++ 58 :: s

namespace BencodeValue

mutual

/-- `encode_to`. -/
def encode : BencodeValue → Bytes
  | .integer v => 105 :: (toText v ++ [101])
  | .string s => appendStr s
  | .list l => 108 :: (encodeItems l ++ [101])
  | .dictionary d => 100 :: (encodeEntries d ++ [101])

def encodeItems : List BencodeValue → Bytes
  | [] => []
  | v :: l => encode v ++ encodeItems l

def encodeEntries : List (Bytes × BencodeValue) → Bytes
  | [] => []
  | (key, v) :: d => appendStr key ++ encode v ++ encodeEntries d

end

end BencodeValue

/-! ## Parsing -/

namespace Bencode

open Parsing

def kMaxDepth : ℕ := 100

/-- The magnitude of the smallest number. -/
def kMaxMag : ℕ := 9223372036854775808

/-- Another digit does not take a magnitude beyond the largest one. -/
def fits (mag d : ℕ) : Bool := ¬(kMaxMag - d) / 10 < mag

/-- `parse_raw_int` past the sign: no leading zeros or negative zero, within 64 bits. -/
def parseMagnitude (term : UInt8) (negative : Bool) : Bytes → Option (Int64 × Bytes)
  | [] => none
  | b :: p =>
    if ¬Decimal.isDigit b then none
    else if b = 48 then
      if negative then none
      else
        match p with
        | [] => none
        | c :: p => if c = term then some (0, p) else none
    else
      match Decimal.scan fits 0 (b :: p) with
      | none | some (_, []) => none
      | some (mag, c :: p) =>
        if c ≠ term then none
        else if negative then
          some (if mag = kMaxMag then Int64.minValue else -Int64.ofNat mag, p)
        else if kMaxMag ≤ mag then none
        else some (Int64.ofNat mag, p)

def parseRawInt (term : UInt8) (p : Bytes) : Option (Int64 × Bytes) :=
  if p.head? = some 45 then parseMagnitude term true p.tail else parseMagnitude term false p

/-- `parse_raw_string`: the length cannot exceed what is left of the input. -/
def parseRawString (p : Bytes) : Option (Bytes × Bytes) :=
  if ¬p.head?.any Decimal.isDigit then none
  else
    match Decimal.scan (fun len d => ¬p.length < len * 10 + d) 0 p with
    | none | some (_, []) => none
    | some (len, c :: rest) =>
      if c ≠ 58 then none
      else if rest.length < len then none
      else some (rest.take len, rest.drop len)

/-- One entry of a dictionary. -/
def parseEntry (value : Parser UInt8 BencodeValue) (p : Bytes) :
    Option ((Bytes × BencodeValue) × Bytes) :=
  match parseRawString p with
  | none => none
  | some (key, p) =>
    match value p with
    | none => none
    | some (v, p) => some ((key, v), p)

/-- The entries of a dictionary sorted by their keys, unless two are the same. -/
def sortEntries (entries : BencodeDict) : Option BencodeDict :=
  let sorted := entries.mergeSort fun a b => ¬b.1 < a.1
  if sorted.IsChain fun a b => a.1 ≠ b.1 then some sorted else none

/-- `Parser::parse`, with the number of levels that may still be entered. Every item and entry takes
a byte, so that the loops end with the input. -/
def parse : ℕ → Parser UInt8 BencodeValue
  | 0, _ => none
  | _ + 1, [] => none
  | n + 1, c :: p =>
    if c = 105 then (parseRawInt 101 p).map fun (v, p) => (.integer v, p)
    else if c = 108 then (items (parse n) 101 p.length p).map fun (l, p) => (.list l, p)
    else if c = 100 then
      match items (parseEntry (parse n)) 101 p.length p with
      | none => none
      | some (entries, p) => (sortEntries entries).map fun d => (.dictionary d, p)
    else if Decimal.isDigit c then
      (parseRawString (c :: p)).map fun (s, p) => (.string s, p)
    else none

/-- `decode`: one value that spans the input. -/
def decode (data : Bytes) : Option BencodeValue :=
  match parse (kMaxDepth + 1) data with
  | some (v, []) => some v
  | _ => none

end Bencode

/-! ## Dictionaries -/

theorem lt_of_not_lt {a b : Bytes} (h : ¬a < b) (hne : a ≠ b) : b < a := by
  by_contra hba
  exact hne (List.le_antisymm hba h)

/-- The keys are in strictly ascending order. -/
def BencodeDict.Sorted (d : BencodeDict) : Prop := d.Pairwise fun a b => a.1 < b.1

namespace BencodeDict

@[simp] theorem sorted_nil : Sorted [] := List.Pairwise.nil

theorem mem_insertKey {key : Bytes} {v : BencodeValue} {d : BencodeDict} {e : Bytes × BencodeValue}
    (h : e ∈ d.insertKey key v) : e = (key, v) ∨ e ∈ d := by
  induction d with
  | nil => exact .inl (mem_singleton.mp h)
  | cons e' d ih =>
    unfold insertKey at h
    split_ifs at h
    · obtain rfl | h := mem_cons.mp h
      · exact .inr (.head _)
      · exact (ih h).imp_right (mem_cons_of_mem e')
    · exact (mem_cons.mp h).imp_right (mem_cons_of_mem e')
    · exact mem_cons.mp h

theorem Sorted.insertKey {d : BencodeDict} (h : d.Sorted) (key : Bytes) (v : BencodeValue) :
    (d.insertKey key v).Sorted := by
  induction d with
  | nil => exact pairwise_singleton _ _
  | cons e d ih =>
    obtain ⟨he, hd⟩ := pairwise_cons.mp h
    unfold BencodeDict.insertKey
    split_ifs with hlt heq
    · refine pairwise_cons.mpr ⟨fun x hx => ?_, ih hd⟩
      obtain rfl | hx := mem_insertKey hx
      · exact hlt
      · exact he x hx
    · exact pairwise_cons.mpr ⟨fun x hx => heq ▸ he x hx, hd⟩
    · have hkey : key < e.1 := lt_of_not_lt hlt heq
      refine pairwise_cons.mpr ⟨fun x hx => ?_, h⟩
      obtain rfl | hx := mem_cons.mp hx
      · exact hkey
      · exact List.lt_trans hkey (he x hx)

theorem find_cons (d : BencodeDict) (e : Bytes × BencodeValue) (key : Bytes) :
    (dictionary (e :: d)).find key = if e.1 < key then (dictionary d).find key
      else if e.1 = key then some e.2 else none := by
  by_cases hlt : e.1 < key
  · simp [find, hlt]
  · simp [find, hlt]

@[simp] theorem find_nil (key : Bytes) : (dictionary []).find key = none := rfl

@[simp] theorem find_insertKey (d : BencodeDict) (key key' : Bytes) (v : BencodeValue) :
    (dictionary (d.insertKey key v)).find key' =
      if key = key' then some v else (dictionary d).find key' := by
  have hself : ¬key' < key' := List.lt_irrefl key'
  induction d with
  | nil =>
    rw [insertKey, find_cons]
    by_cases heq : key = key'
    · simp [heq, hself]
    · simp [heq]
  | cons e d ih =>
    by_cases heq : key = key'
    · subst heq
      rw [if_pos rfl] at ih ⊢
      unfold insertKey
      split_ifs with hlt hkey
      · rw [find_cons, if_pos hlt, ih]
      · rw [find_cons, if_neg hself, if_pos rfl]
      · rw [find_cons, if_neg hself, if_pos rfl]
    rw [if_neg heq] at ih ⊢
    unfold insertKey
    split_ifs with hlt hkey
    · rw [find_cons, find_cons, ih]
    · rw [find_cons, find_cons, hkey, if_neg heq, if_neg heq]
    rw [find_cons _ (key, v)]
    split_ifs with hbefore
    · rfl
    · -- both keys of the two entries at the front are above the one looked for
      have hafter : key' < e.1 :=
        List.lt_trans (lt_of_not_lt hbefore heq) (lt_of_not_lt hlt hkey)
      have hne : e.1 ≠ key' := fun h => hself (h ▸ hafter)
      rw [find_cons, if_neg (List.lt_asymm hafter), if_neg hne]

@[simp] theorem find_insertWhen (c : Bool) (d : BencodeDict) (key key' : Bytes) (v : BencodeValue) :
    (dictionary (d.insertWhen c key v)).find key' =
      if c = true ∧ key = key' then some v else (dictionary d).find key' := by
  cases c <;> simp [insertWhen]

end BencodeDict

/-! ## Reading back -/

namespace Bencode

open Parsing BencodeValue

theorem head?_encode (n : ℕ) : ∃ b l, Decimal.encode n = b :: l ∧ Decimal.isDigit b = true := by
  obtain rfl | hn := eq_or_ne n 0
  · exact ⟨48, [], rfl, rfl⟩
  · obtain ⟨b, l, heq, -, hb⟩ := Decimal.encode_of_pos hn
    exact ⟨b, l, heq, hb⟩

theorem head?_appendStr (s : Bytes) : ∃ b l, appendStr s = b :: l ∧ Decimal.isDigit b = true := by
  obtain ⟨b, l, heq, hb⟩ := head?_encode s.length
  exact ⟨b, l ++ 58 :: s, by rw [appendStr, heq, cons_append], hb⟩

theorem parseRawString_reads (s : Bytes) : Reads parseRawString (appendStr s) s := by
  intro rest
  have hhead : ¬¬(appendStr s ++ rest).head?.any Decimal.isDigit := by
    obtain ⟨b, l, heq, hb⟩ := head?_appendStr s
    simp [heq, hb]
  have hscan : Decimal.scan (fun len d => ¬(appendStr s ++ rest).length < len * 10 + d) 0
      (appendStr s ++ rest) = some (s.length, 58 :: (s ++ rest)) := by
    have hassoc : appendStr s ++ rest = Decimal.encode s.length ++ 58 :: (s ++ rest) := by
      simp [appendStr]
    have hlength : s.length ≤ (appendStr s ++ rest).length := by
      simp only [appendStr, length_append, length_cons]
      omega
    conv_lhs => arg 3; rw [hassoc]
    refine Decimal.scan_encode (fun n d _ hfits => ?_) hlength (fun b hb => ?_)
    · simpa using hfits
    · cases hb
      rfl
  simp only [parseRawString, if_neg hhead, hscan]
  simp

variable {n : ℕ} {d : BencodeDict} {v : BencodeValue} {p rest : Bytes}
  {value : Parser UInt8 BencodeValue} {e : Bytes × BencodeValue}

theorem scan_magnitude (hn : n ≤ kMaxMag) (rest : Bytes) :
    Decimal.scan fits 0 (Decimal.encode n ++ 101 :: rest) = some (n, 101 :: rest) := by
  refine Decimal.scan_encode (fun m d hd hfits => ?_) hn fun b hb => ?_
  · have : m ≤ (kMaxMag - d) / 10 := by
      omega
    simpa [fits] using this
  · cases hb
    rfl

theorem parseMagnitude_reads (hpos : n ≠ 0) (hn : n ≤ kMaxMag) (negative : Bool)
    (hrange : negative = false → n < kMaxMag) :
    Reads (parseMagnitude 101 negative) (Decimal.encode n ++ [101])
      (if negative then if n = kMaxMag then Int64.minValue else -Int64.ofNat n
        else Int64.ofNat n) := by
  intro rest
  have hscan := scan_magnitude hn rest
  obtain ⟨b, l, heq, hb, hdigit⟩ := Decimal.encode_of_pos hpos
  rw [heq, cons_append] at hscan ⊢
  cases negative with
  | false =>
    have : ¬kMaxMag ≤ n := Nat.not_le.mpr (hrange rfl)
    simp [parseMagnitude, hdigit, hb, hscan, this]
  | true => simp [parseMagnitude, hdigit, hb, hscan]

theorem parseRawInt_reads (v : Int64) : Reads (parseRawInt 101) (toText v ++ [101]) v := by
  intro rest
  have hmin : -2 ^ 63 ≤ v.toInt := v.le_toInt
  have hmax : v.toInt < 2 ^ 63 := v.toInt_lt
  have hmag : (kMaxMag : ℤ) = 2 ^ 63 := rfl
  unfold toText
  split_ifs with hneg
  · have hread := parseMagnitude_reads (n := v.toInt.natAbs) (by omega) (by omega) true nofun rest
    have hvalue : (if v.toInt.natAbs = kMaxMag then Int64.minValue
        else -Int64.ofNat v.toInt.natAbs) = v := by
      apply Int64.toInt_inj.mp
      split_ifs with h
      · rw [Int64.toInt_minValue]
        omega
      · rw [Int64.toInt_neg, Int64.toInt_ofNat_of_lt (by omega),
          Int.bmod_eq_of_le (by omega) (by omega)]
        omega
    simp only [hvalue] at hread
    simpa [parseRawInt] using hread
  obtain hzero | hpos := eq_or_ne v.toInt.toNat 0
  · have hv : v = 0 := Int64.toInt_inj.mp (by rw [Int64.toInt_zero]; omega)
    subst hv
    rfl
  have hread := parseMagnitude_reads hpos (by omega) false (fun _ => by omega) rest
  have hvalue : Int64.ofNat v.toInt.toNat = v := by
    apply Int64.toInt_inj.mp
    rw [Int64.toInt_ofNat_of_lt (by omega)]
    omega
  have hsign : (Decimal.encode v.toInt.toNat ++ [101] ++ rest).head? ≠ some 45 := by
    obtain ⟨b, l, heq, hb⟩ := head?_encode v.toInt.toNat
    rw [heq]
    rintro h
    cases h
    exact absurd hb (by decide)
  rw [parseRawInt, if_neg hsign, hread]
  rw [if_neg Bool.false_ne_true, hvalue]

theorem sortEntries_of_sorted (h : d.Sorted) : sortEntries d = some d := by
  have hsorted : d.mergeSort (fun a b => ¬b.1 < a.1) = d :=
    List.mergeSort_of_pairwise (h.imp fun hab => by simpa using List.lt_asymm hab)
  have hchain : d.IsChain fun a b => a.1 ≠ b.1 := by
    refine (List.Pairwise.imp ?_ h).isChain
    intro a b hab heq
    exact List.lt_irrefl b.1 (heq ▸ hab)
  simp only [sortEntries, hsorted, if_pos hchain]

/-- The dictionaries are sorted, and at most `n` levels are below the value. -/
def Canonical : ℕ → BencodeValue → Prop
  | _, .integer _ | _, .string _ => True
  | 0, .list l => l = []
  | n + 1, .list l => ∀ v ∈ l, Canonical n v
  | 0, .dictionary d => d = []
  | n + 1, .dictionary d => BencodeDict.Sorted d ∧ ∀ e ∈ d, Canonical n e.2

theorem Canonical.insertKey (hd : Canonical (n + 1) (.dictionary d)) (hv : Canonical n v)
    (key : Bytes) : Canonical (n + 1) (.dictionary (d.insertKey key v)) := by
  refine ⟨hd.1.insertKey key v, fun e he => ?_⟩
  obtain rfl | he := BencodeDict.mem_insertKey he
  · exact hv
  · exact hd.2 e he

theorem Canonical.insertWhen (hd : Canonical (n + 1) (.dictionary d)) (hv : Canonical n v)
    (c : Bool) (key : Bytes) : Canonical (n + 1) (.dictionary (d.insertWhen c key v)) := by
  cases c with
  | false => exact hd
  | true => exact hd.insertKey hv key

theorem canonical_empty (n : ℕ) : Canonical (n + 1) (.dictionary []) :=
  ⟨BencodeDict.sorted_nil, nofun⟩

theorem canonical_string (n : ℕ) (s : Bytes) : Canonical n (.string s) := by
  cases n <;> trivial

theorem canonical_integer (n : ℕ) (v : Int64) : Canonical n (.integer v) := by
  cases n <;> trivial

theorem canonical_strings (n : ℕ) (l : List Bytes) : Canonical (n + 1) (.list (l.map .string)) := by
  intro v hv
  obtain ⟨s, -, rfl⟩ := mem_map.mp hv
  exact canonical_string n s

theorem encodeItems_eq (l : List BencodeValue) : encodeItems l = l.flatMap encode := by
  induction l with
  | nil => rfl
  | cons v l ih => rw [encodeItems, ih, flatMap_cons]

theorem encodeEntries_eq (d : BencodeDict) :
    encodeEntries d = d.flatMap fun e => appendStr e.1 ++ encode e.2 := by
  induction d with
  | nil => rfl
  | cons e d ih => rw [encodeEntries, ih, flatMap_cons]

theorem head?_encode_value (v : BencodeValue) : ∃ b l, v.encode = b :: l ∧ b ≠ 101 := by
  cases v with
  | integer v => exact ⟨105, toText v ++ [101], by rw [encode], by decide⟩
  | string s =>
    obtain ⟨b, l, heq, hb⟩ := head?_appendStr s
    exact ⟨b, l, by rw [encode, heq], fun h => absurd (h ▸ hb) (by decide)⟩
  | list l => exact ⟨108, encodeItems l ++ [101], by rw [encode], by decide⟩
  | dictionary d => exact ⟨100, encodeEntries d ++ [101], by rw [encode], by decide⟩

theorem parseEntry_reads (h : Reads value e.2.encode e.2) :
    Reads (parseEntry value) (appendStr e.1 ++ e.2.encode) e := by
  intro rest
  simp [parseEntry, parseRawString_reads e.1 _, h rest]

theorem parse_integer (n : ℕ) (v : Int64) :
    Reads (parse (n + 1)) (integer v).encode (.integer v) := by
  intro rest
  rw [encode, cons_append]
  simp only [parse, parseRawInt_reads v rest]
  rfl

theorem parse_string (n : ℕ) (s : Bytes) : Reads (parse (n + 1)) (string s).encode (.string s) := by
  intro rest
  have hread := parseRawString_reads s rest
  obtain ⟨b, l, heq, hb⟩ := head?_appendStr s
  have hne {c : UInt8} (hc : Decimal.isDigit c = false) : b ≠ c := by
    rintro rfl
    cases hb.symm.trans hc
  rw [encode]
  rw [heq, cons_append] at hread ⊢
  simp only [parse, if_neg (hne (c := 105) rfl), if_neg (hne (c := 108) rfl),
    if_neg (hne (c := 100) rfl), if_pos hb, hread]
  rfl

theorem parse_list {l : List BencodeValue} (h : ∀ v ∈ l, Reads (parse n) v.encode v) :
    Reads (parse (n + 1)) (list l).encode (.list l) := by
  intro rest
  have hitems := items_reads 101 (fun v hv => ⟨h v hv, head?_encode_value v⟩) rest
  rw [encode, encodeItems_eq, cons_append]
  simp only [parse, hitems]
  rfl

theorem parse_dictionary (hsorted : d.Sorted) (h : ∀ e ∈ d, Reads (parse n) e.2.encode e.2) :
    Reads (parse (n + 1)) (dictionary d).encode (.dictionary d) := by
  intro rest
  have hentry (e : Bytes × BencodeValue) : ∃ b l, appendStr e.1 ++ encode e.2 = b :: l ∧ b ≠ 101 := by
    obtain ⟨b, l, heq, hb⟩ := head?_appendStr e.1
    exact ⟨b, l ++ encode e.2, by rw [heq, cons_append], fun h => absurd (h ▸ hb) (by decide)⟩
  have hitems := items_reads 101 (fun e he => ⟨parseEntry_reads (h e he), hentry e⟩) rest
  rw [encode, encodeEntries_eq, cons_append]
  simp only [parse, hitems, sortEntries_of_sorted hsorted]
  rfl

theorem parse_encode (h : Canonical n v) : Reads (parse (n + 1)) v.encode v := by
  induction n generalizing v with
  | zero =>
    cases v with
    | integer v => exact parse_integer 0 v
    | string s => exact parse_string 0 s
    | list l =>
      obtain rfl : l = [] := h
      exact parse_list nofun
    | dictionary d =>
      obtain rfl : d = [] := h
      exact parse_dictionary BencodeDict.sorted_nil nofun
  | succ n ih =>
    cases v with
    | integer v => exact parse_integer (n + 1) v
    | string s => exact parse_string (n + 1) s
    | list l => exact parse_list fun v hv => ih (h v hv)
    | dictionary d => exact parse_dictionary h.1 fun e he => ih (h.2 e he)

theorem decode_encode (h : Canonical kMaxDepth v) : decode v.encode = some v := by
  have hparse := parse_encode h []
  rw [append_nil] at hparse
  rw [decode, hparse]

/-! ## What is accepted -/

/-- Entries that are sorted are those that were read, in strictly ascending order. -/
theorem sortEntries_spec {entries : BencodeDict} (h : sortEntries entries = some d) :
    d.Sorted ∧ ∀ e ∈ d, e ∈ entries := by
  simp only [sortEntries] at h
  split_ifs at h with hchain
  cases h
  have hle : (entries.mergeSort fun a b => ¬b.1 < a.1).Pairwise fun a b => ¬b.1 < a.1 := by
    refine (pairwise_mergeSort (fun a b c hab hbc => ?_) (fun a b => ?_) entries).imp ?_
    · have hab : a.1 ≤ b.1 := by simpa using hab
      have hbc : b.1 ≤ c.1 := by simpa using hbc
      simpa using List.le_trans hab hbc
    · simpa using (List.le_total a.1 b.1)
    · intro a b hab
      simpa using hab
  -- neighbours differ, so that each is below the next and hence below all that follow
  have hlt : (entries.mergeSort fun a b => ¬b.1 < a.1).IsChain fun a b => a.1 < b.1 :=
    isChain_iff_getElem.mpr fun i hi =>
      lt_of_not_lt (isChain_iff_getElem.mp hle.isChain i hi)
        (Ne.symm (isChain_iff_getElem.mp hchain i hi))
  refine ⟨?_, fun e he => mem_mergeSort.mp he⟩
  exact hlt.pairwise

theorem exists_of_parseEntry
    (h : parseEntry value p = some (e, rest)) : ∃ p', value p' = some (e.2, rest) := by
  rw [parseEntry] at h
  split at h
  · cases h
  · rename_i key p' hkey
    split at h
    · cases h
    · rename_i v p'' hv
      cases h
      exact ⟨p', hv⟩

/-- What is read is a number or a string, or made of values that were read one level further down.
-/
theorem parse_cases (h : parse (n + 1) p = some (v, rest)) :
    (∃ i, v = .integer i) ∨ (∃ s, v = .string s) ∨
      (∃ l, v = .list l ∧ ∀ x ∈ l, ∃ p' rest', parse n p' = some (x, rest')) ∨
      ∃ d : BencodeDict, v = .dictionary d ∧ d.Sorted ∧
        ∀ e ∈ d, ∃ p' rest', parse n p' = some (e.2, rest') := by
  cases p with
  | nil => cases h
  | cons c p =>
    rw [parse] at h
    split_ifs at h
    · obtain ⟨⟨i, p'⟩, -, heq⟩ := Option.map_eq_some_iff.mp h
      cases heq
      exact .inl ⟨i, rfl⟩
    · obtain ⟨⟨l, p'⟩, hitems, heq⟩ := Option.map_eq_some_iff.mp h
      cases heq
      exact .inr (.inr (.inl ⟨l, rfl, fun x hx => exists_of_mem_items hitems hx⟩))
    · split at h
      · cases h
      rename_i entries p' hitems
      obtain ⟨d, hd, heq⟩ := Option.map_eq_some_iff.mp h
      cases heq
      obtain ⟨hsorted, hmem⟩ := sortEntries_spec hd
      refine .inr (.inr (.inr ⟨d, rfl, hsorted, fun e he => ?_⟩))
      obtain ⟨w, rest', hentry⟩ := exists_of_mem_items hitems (hmem e he)
      obtain ⟨p', hp'⟩ := exists_of_parseEntry hentry
      exact ⟨p', rest', hp'⟩
    · obtain ⟨⟨s, p'⟩, -, heq⟩ := Option.map_eq_some_iff.mp h
      cases heq
      exact .inr (.inl ⟨s, rfl⟩)

theorem canonical_of_parse (h : parse (n + 1) p = some (v, rest)) : Canonical n v := by
  induction n generalizing v p rest with
  | zero =>
    -- no value is read at level zero, so that what is inside a list or a dictionary is nothing
    obtain ⟨i, rfl⟩ | ⟨s, rfl⟩ | ⟨l, rfl, hl⟩ | ⟨d, rfl, -, hd⟩ := parse_cases h
    · trivial
    · trivial
    · refine eq_nil_iff_forall_not_mem.mpr fun x hx => ?_
      obtain ⟨p', rest', hp'⟩ := hl x hx
      cases hp'
    · refine eq_nil_iff_forall_not_mem.mpr fun e he => ?_
      obtain ⟨p', rest', hp'⟩ := hd e he
      cases hp'
  | succ n ih =>
    obtain ⟨i, rfl⟩ | ⟨s, rfl⟩ | ⟨l, rfl, hl⟩ | ⟨d, rfl, hsorted, hd⟩ := parse_cases h
    · trivial
    · trivial
    · intro x hx
      obtain ⟨p', rest', hp'⟩ := hl x hx
      exact ih hp'
    · refine ⟨hsorted, fun e he => ?_⟩
      obtain ⟨p', rest', hp'⟩ := hd e he
      exact ih hp'

theorem canonical_of_decode {data : Bytes} (h : decode data = some v) : Canonical kMaxDepth v := by
  rw [decode] at h
  split at h
  · rename_i v' hparse
    cases h
    exact canonical_of_parse hparse
  · cases h

/-- **Encoding and decoding are inverse on canonical values, and only these are decoded**: those
nested at most `kMaxDepth` levels below the root whose dictionaries are sorted without duplicates.
-/
theorem decode_encode_canonical (v : BencodeValue) (data : Bytes) :
    (Canonical kMaxDepth v → decode v.encode = some v) ∧
      (decode data = some v → Canonical kMaxDepth v ∧ decode v.encode = decode data) := by
  refine ⟨decode_encode, fun h => ?_⟩
  have hcanonical := canonical_of_decode h
  exact ⟨hcanonical, (decode_encode hcanonical).trans h.symm⟩

/-- The smallest number, under the empty key. -/
theorem decode_encode_canonical_minValue :
    Canonical kMaxDepth (.dictionary [([], .integer Int64.minValue)]) ∧
      decode (dictionary [([], .integer Int64.minValue)]).encode =
        some (.dictionary [([], .integer Int64.minValue)]) := by
  have h : Canonical kMaxDepth (.dictionary [([], .integer Int64.minValue)]) :=
    (canonical_empty 99).insertKey (canonical_integer 99 _) []
  exact ⟨h, (decode_encode_canonical _ []).1 h⟩

end Bencode

end Librats
