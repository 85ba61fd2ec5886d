import Librats.Core.Types
import Librats.Foundations.AssocList

/-!
# The peer table

`PeerTable` (`peer/peer_table.cpp`). What it does for one peer depends on its entry alone
(`resolve`, `lookup_add`, `lookup_remove`).
-/

namespace Librats

open Option AList

/-- `PeerRoute`: the reactor that owns a connection, and its id there. -/
structure PeerRoute where
  reactor : ℕ
  conn : ConnId
  deriving DecidableEq

structure PeerInfo (I : Type) where
  id : I
  addresses : List Address
  direction : ConnRole
  deriving DecidableEq

namespace PeerTable

structure Entry (I : Type) where
  info : PeerInfo I
  route : PeerRoute
  deriving DecidableEq

inductive AddResult
  | newPeer
  | updated
  | replaced
  | rejected
  deriving DecidableEq

structure AddOutcome where
  result : AddResult
  close : Option PeerRoute
  deriving DecidableEq

/-- The role of the connection that survives a cross-connect. -/
def survivor (preferOutbound : Bool) : ConnRole := if preferOutbound then .outbound else .inbound

/-- Whether a second connection replaces the registered one. -/
def keepNew {I : Type} (cur : Entry I) (info : PeerInfo I) (preferOutbound : Bool) : Bool :=
  if cur.info.direction ≠ info.direction then info.direction = survivor preferOutbound else true

def kMaxAddressesPerPeer : ℕ := 32

/-- The loop of `add_addresses`: the addresses known then and those added. -/
def mergeAddresses (known : List Address) : List Address → List Address × List Address
  | [] => (known, [])
  | addr :: rest =>
    if kMaxAddressesPerPeer ≤ known.length then (known, [])
    else if addr ∈ known then mergeAddresses known rest
    else
      let (known, added) := mergeAddresses (known ++ [addr]) rest
      (known, addr :: added)

end PeerTable

open PeerTable

/-- `PeerTable`; `count_` is the number of entries. -/
structure PeerTable (I : Type) where
  peers : AList (fun _ : I => Entry I)
  count : ℕ
  count_eq : count = peers.entries.length

namespace PeerTable

variable {I : Type}

/-- The table of a node that has just started. -/
def empty : PeerTable I := ⟨∅, 0, List.length_nil.symm⟩

variable (t : PeerTable I)

def size : ℕ := t.count

variable [DecidableEq I]

/-- An entry that is there, overwritten. -/
def set (id : I) (e : Entry I) (h : id ∈ t.peers) : PeerTable I :=
  ⟨t.peers.insert id e, t.count, t.count_eq.trans (AssocList.length_insert h e).symm⟩

def contains (id : I) : Bool := (t.peers.lookup id).isSome

def route (id : I) : Option PeerRoute := (t.peers.lookup id).map Entry.route

variable {t : PeerTable I} {id : I} {route : PeerRoute}

theorem mem_of_lookup {e : Entry I} (h : t.peers.lookup id = some e) : id ∈ t.peers := by
  rw [← lookup_isSome, h]
  rfl

theorem contains_of_route (h : t.route id = some route) : t.contains id = true := by
  obtain ⟨e, he, -⟩ := map_eq_some_iff.mp h
  rw [contains, he, isSome_some]

def add (t : PeerTable I) (info : PeerInfo I) (route : PeerRoute) (preferOutbound : Bool) :
    PeerTable I × AddOutcome :=
  match h : t.peers.lookup info.id with
  | none =>
    (⟨t.peers.insert info.id ⟨info, route⟩, t.count + 1, by
        rw [entries_insert_of_notMem (lookup_eq_none.mp h), List.length_cons, t.count_eq]⟩,
      ⟨.newPeer, none⟩)
  | some cur =>
    if cur.route = route then
      (t.set info.id ⟨info, cur.route⟩ (mem_of_lookup h), ⟨.updated, none⟩)
    else if keepNew cur info preferOutbound then
      (t.set info.id ⟨info, route⟩ (mem_of_lookup h), ⟨.replaced, some cur.route⟩)
    else (t, ⟨.rejected, some route⟩)

/-- `PeerTable::add_addresses`: the table and the addresses that are new. -/
def addAddresses (t : PeerTable I) (id : I) (route : PeerRoute) (addresses : List Address) :
    PeerTable I × List Address :=
  match h : t.peers.lookup id with
  | none => (t, [])
  | some cur =>
    if cur.route ≠ route then (t, [])
    else
      let merged := mergeAddresses cur.info.addresses addresses
      (t.set id { cur with info := { cur.info with addresses := merged.1 } } (mem_of_lookup h),
        merged.2)

/-- `PeerTable::remove`: the table and whether an entry was dropped. -/
def remove (t : PeerTable I) (id : I) (route : PeerRoute) : PeerTable I × Bool :=
  match h : t.peers.lookup id with
  | none => (t, false)
  | some cur =>
    if cur.route ≠ route then (t, false)
    else
      (⟨t.peers.erase id, t.count - 1, by
          have := AssocList.length_erase (mem_of_lookup h)
          have := t.count_eq
          omega⟩,
        true)

/-! ## One peer -/

/-- What `add` makes of the entry of the peer, and its outcome. -/
def resolve (cur : Option (Entry I)) (info : PeerInfo I) (route : PeerRoute)
    (preferOutbound : Bool) : Entry I × AddOutcome :=
  match cur with
  | none => (⟨info, route⟩, ⟨.newPeer, none⟩)
  | some cur =>
    if cur.route = route then (⟨info, cur.route⟩, ⟨.updated, none⟩)
    else if keepNew cur info preferOutbound then (⟨info, route⟩, ⟨.replaced, some cur.route⟩)
    else (cur, ⟨.rejected, some route⟩)

variable (t : PeerTable I) (info : PeerInfo I) (route : PeerRoute) (pref : Bool)

theorem outcome_add :
    (t.add info route pref).2 = (resolve (t.peers.lookup info.id) info route pref).2 := by
  unfold add resolve
  split <;> rename_i h <;> simp only [h]
  split_ifs <;> rfl

theorem lookup_set (e : Entry I) (h : id ∈ t.peers) (i : I) :
    (t.set id e h).peers.lookup i = if i = id then some e else t.peers.lookup i := by
  split_ifs with hi
  · rw [hi]
    exact lookup_insert _
  · exact lookup_insert_ne hi

theorem lookup_add (i : I) : (t.add info route pref).1.peers.lookup i =
      if i = info.id then some (resolve (t.peers.lookup info.id) info route pref).1
      else t.peers.lookup i := by
  unfold add resolve
  split <;> rename_i h <;> simp only [h]
  · by_cases hi : i = info.id
    · rw [if_pos hi, hi, lookup_insert]
    · rw [if_neg hi, lookup_insert_ne hi]
  rename_i cur
  by_cases hr : cur.route = route
  · simp [hr, lookup_set]
  · by_cases hk : keepNew cur info pref = true
    · simp [hr, hk, lookup_set]
    · simp only [hk, Bool.false_eq_true, if_false]
      split_ifs with hi
      · rw [hi, h]
      · rfl

theorem map_lookup_addAddresses {β : Type} {f : Entry I → β}
    (hf : ∀ e addresses, f { e with info := { e.info with addresses := addresses } } = f e)
    (t : PeerTable I) (id : I) (route : PeerRoute) (addresses : List Address) (i : I) :
    ((t.addAddresses id route addresses).1.peers.lookup i).map f = (t.peers.lookup i).map f := by
  unfold addAddresses
  split
  · rfl
  · rename_i cur h
    split_ifs
    · rfl
    · rw [lookup_set]
      split_ifs with hi
      · rw [hi, h, map_some, map_some, hf]
      · rfl

theorem lookup_remove (id : I) (route : PeerRoute) (i : I) : (t.remove id route).1.peers.lookup i =
      if i = id ∧ t.route id = some route then none else t.peers.lookup i := by
  unfold remove PeerTable.route
  split <;> rename_i h <;> simp only [h]
  · simp
  · rename_i cur
    by_cases hr : cur.route = route
    · by_cases hi : i = id
      · subst hi
        simp [hr]
      · simp [hr, hi]
    · simp [hr]

theorem remove_iff (id : I) (route : PeerRoute) :
    (t.remove id route).2 = true ↔ t.route id = some route := by
  unfold remove PeerTable.route
  split <;> rename_i h <;> simp only [h]
  · simp
  · split_ifs with hr <;> simp_all

variable {t route} in
theorem remove_eq_of_ne (h : t.route id ≠ some route) : t.remove id route = (t, false) := by
  unfold PeerTable.route at h
  unfold remove
  split
  · rfl
  · rename_i hcur
    rw [hcur, map_some, Ne, some_inj] at h
    rw [if_pos h]

theorem contains_add (i : I) :
    (t.add info route pref).1.contains i = true ↔ i = info.id ∨ t.contains i = true := by
  unfold contains
  rw [lookup_add]
  split_ifs with hi
  · simp [hi]
  · simp [hi]

theorem contains_remove (id : I) (route : PeerRoute) (i : I) :
    (t.remove id route).1.contains i = true ↔
      t.contains i = true ∧ ¬(i = id ∧ t.route id = some route) := by
  unfold contains
  rw [lookup_remove]
  split_ifs with hi
  · simp [hi]
  · simp [hi]

/-- `add` reports a new peer exactly if the peer was not there. -/
theorem add_newPeer_iff :
    (t.add info route pref).2.result = .newPeer ↔ t.contains info.id = false := by
  rw [outcome_add, contains]
  cases t.peers.lookup info.id with
  | none => simp [resolve]
  | some cur =>
    simp only [resolve, isSome_some, Bool.true_eq_false, iff_false]
    split_ifs <;> exact nofun

end PeerTable

end Librats
