import Librats.Dht.Id
import Librats.Foundations.AssocList

/-!
# The routing table

The Kademlia table of `dht/routing_table.cpp`, and its contacts (`dht/node_entry.h`).

`addNode` calls itself after a split; it is given a bound on the depth here. The buckets it works on
are recorded with the number of buckets at that moment (`accesses`), since the source indexes
without a check. Here a bucket that does not exist reads as empty, and a change of it has no effect.
-/

namespace Librats.Dht

open CountIndex

/-! ## Contacts -/

/-- A reading of the steady clock. -/
abbrev TimePoint := ℤ

def kRttUnknown : ℕ := 0xffff

def kNeverPinged : ℕ := 0xff

structure NodeEntry where
  id : NodeId
  endpoint : Address
  lastSeen : TimePoint
  rtt : ℕ
  failCount : ℕ
  verified : Bool
  deriving DecidableEq

namespace NodeEntry

/-- A contact that was only heard about. -/
def new (id : NodeId) (endpoint : Address) : NodeEntry :=
  ⟨id, endpoint, -2 ^ 63, kRttUnknown, kNeverPinged, false⟩

variable (e : NodeEntry)

def pinged : Bool := e.failCount != kNeverPinged

def confirmed : Bool := e.failCount == 0

def updateRtt (sample : ℕ) : NodeEntry :=
  if sample = kRttUnknown then e
  else if e.rtt = kRttUnknown then { e with rtt := sample }
  else { e with rtt := (e.rtt * 2 / 3 + sample / 3) % 2 ^ 16 }

def recordSuccess (now : TimePoint) (sample : ℕ) : NodeEntry :=
  { e with failCount := 0, lastSeen := now }.updateRtt sample

def recordFailure : NodeEntry :=
  if e.pinged && e.failCount < kNeverPinged - 1 then { e with failCount := e.failCount + 1 } else e

/-- More failures, then unverified, then a higher round-trip time. -/
def isWorseThan (e other : NodeEntry) : Bool :=
  if e.failCount ≠ other.failCount then other.failCount < e.failCount
  else if e.verified ≠ other.verified then !e.verified
  else other.rtt < e.rtt

end NodeEntry

/-! ## Choosing among contacts -/

variable (prefers : NodeEntry → NodeEntry → Bool)

/-- One step of a scan: the next contact, if preferred to the best so far. -/
def preferred (best : Option (NodeEntry × ℕ)) (x : NodeEntry × ℕ) : Option (NodeEntry × ℕ) :=
  match best with
  | none => some x
  | some b => if prefers x.1 b.1 then some x else some b

/-- The contact a scan ends with. -/
def pick (l : List (NodeEntry × ℕ)) : Option (NodeEntry × ℕ) :=
  l.foldl (preferred prefers) none

variable (v : List NodeEntry)

def findById (id : NodeId) : Option (NodeEntry × ℕ) :=
  v.zipIdx.find? fun x => x.1.id = id

def worstOf : Option (NodeEntry × ℕ) := pick NodeEntry.isWorseThan v.zipIdx

/-- The contact no other one is better than. -/
def bestOf : Option (NodeEntry × ℕ) :=
  pick (fun n best => best.isWorseThan n) v.zipIdx

/-- `prefix_bits_for`, for the sizes buckets have. -/
def bitsFor (bucketSize : ℕ) : ℕ := Nat.clog 2 bucketSize

def kMaxSlots : ℕ := 2 ^ bitsFor (kBucketSize * 16)

/-- `classify_prefix`: the bits after the shared ones. -/
def classify (bucketIdx : ℕ) (lastBucket : Bool) (bucketSize : ℕ) (id : NodeId) : ℕ :=
  bitsAt id (bucketIdx + if lastBucket then 0 else 1) (bitsFor bucketSize) % 2 ^ 8

def allOnSameSide (live : List NodeEntry) (id : NodeId) (idx : ℕ) : Bool :=
  live.all fun n => n.id.getMsbD idx == id.getMsbD idx

/-- The contact that `replace_for_spread` gives up for a new one, if any. -/
def spreadVictim (index : ℕ) (last : Bool) (limit : ℕ) (live : List NodeEntry) (e : NodeEntry) :
    Option (NodeEntry × ℕ) :=
  let failing := live.zipIdx.filter fun x => x.1.pinged && 0 < x.1.failCount
  match pick (fun n stale => stale.failCount < n.failCount) failing with
  | some stale => some stale
  | none =>
    let slot (s : ℕ) := live.zipIdx.filter fun x => classify index last limit x.1.id = s
    match pick NodeEntry.isWorseThan (slot (classify index last limit e.id)) with
    | some worst => if worst.1.isWorseThan e then some worst else none
    | none =>
      -- the worst contact of a slot with others in it
      pick NodeEntry.isWorseThan
        ((List.range kMaxSlots).flatMap fun s => if 1 < (slot s).length then slot s else [])

/-! ## Buckets -/

structure Bucket where
  live : List NodeEntry
  replacements : List NodeEntry

namespace Bucket

def empty : Bucket := ⟨[], []⟩

/-- The live contacts and the standbys. -/
def contacts (b : Bucket) : List NodeEntry := b.live ++ b.replacements

/-- The loop of `fill_from_replacements`, which ends when no standby is left. -/
def fill (limit : ℕ) : ℕ → Bucket → Bucket
  | 0, b => b
  | n + 1, b =>
    if b.live.length < limit then
      match bestOf b.replacements with
      | some (best, i) => fill limit n ⟨b.live ++ [best], b.replacements.eraseIdx i⟩
      | none => b
    else b

/-- The first loop of `trim_to_limit`. -/
def spill (limit : ℕ) : ℕ → Bucket → Bucket
  | 0, b => b
  | n + 1, b =>
    if limit < b.live.length then
      match worstOf b.live with
      | some (worst, i) => spill limit n ⟨b.live.eraseIdx i, b.replacements ++ [worst]⟩
      | none => b
    else b

end Bucket

/-! ## The table -/

/-- A bucket is worked on while there are so many buckets. -/
structure Access where
  index : ℕ
  count : ℕ
  deriving DecidableEq

structure RoutingTable where
  self : NodeId
  extended : Bool
  buckets : List Bucket
  ipCount : Index IpAddress
  /-- What was worked on so far; this is not a field of the source. -/
  accesses : List Access

def kMaxFailCount : ℕ := 5

/-- Where `find_by_endpoint` finds a contact. -/
structure Located where
  bucket : ℕ
  live : Bool
  index : ℕ
  entry : NodeEntry

namespace RoutingTable

def new (self : NodeId) (extended : Bool) : RoutingTable := ⟨self, extended, [.empty], ∅, []⟩

variable (t : RoutingTable)

def bucketIndex (id : NodeId) : ℕ :=
  min (sharedPrefixBits t.self id) (t.buckets.length - 1)

def bucketLimit (index : ℕ) : ℕ :=
  if !t.extended then kBucketSize
  else kBucketSize * (if index < 4 then 2 ^ (4 - index) else 1)

/-- The contacts, bucket after bucket. -/
def contacts : List NodeEntry := t.buckets.flatMap Bucket.contacts

/-- The bucket at an index. -/
def bucket (i : ℕ) : Bucket := t.buckets[i]?.getD .empty

def setBucket (i : ℕ) (b : Bucket) : RoutingTable :=
  { t with buckets := t.buckets.set i b }

def touch (i : ℕ) : RoutingTable :=
  { t with accesses := t.accesses ++ [⟨i, t.buckets.length⟩] }

def ipTrack (ip : IpAddress) : RoutingTable :=
  if ip.isPublic then { t with ipCount := track t.ipCount ip } else t

def ipUntrack (ip : IpAddress) : RoutingTable :=
  if ip.isPublic then { t with ipCount := untrack t.ipCount ip } else t

def pruneEmptyBack : RoutingTable :=
  let kept := t.buckets.reverse.dropWhile fun b => b.live.isEmpty && b.replacements.isEmpty
  { t with buckets := if kept.isEmpty then t.buckets.take 1 else kept.reverse }

def fillFromReplacements (index : ℕ) : RoutingTable :=
  let t := t.touch index
  let b := t.bucket index
  t.setBucket index (b.fill (t.bucketLimit index) b.replacements.length)

/-- The second loop of `trim_to_limit`. -/
def dropOverflow (index : ℕ) : ℕ → RoutingTable → RoutingTable
  | 0, t => t
  | n + 1, t =>
    let b := t.bucket index
    if kBucketSize < b.replacements.length then
      match worstOf b.replacements with
      | some (worst, i) =>
        dropOverflow index n ((t.ipUntrack worst.endpoint.ip).setBucket index
          { b with replacements := b.replacements.eraseIdx i })
      | none => t
    else t

def trimToLimit (index : ℕ) : RoutingTable :=
  let t := t.touch index
  let b := t.bucket index
  let spilled := b.spill (t.bucketLimit index) b.live.length
  (t.setBucket index spilled).dropOverflow index spilled.replacements.length

def splitBucket : RoutingTable :=
  let last := t.buckets.length - 1
  let moved := t.bucket last
  let stays (n : NodeEntry) : Bool := sharedPrefixBits t.self n.id ≤ last
  let here : Bucket := ⟨moved.live.filter stays, moved.replacements.filter stays⟩
  let deeper : Bucket :=
    ⟨moved.live.filter fun n => !stays n, moved.replacements.filter fun n => !stays n⟩
  let t := { t with buckets := t.buckets.set last here ++ [deeper] }
  (((t.touch last).touch (last + 1)).trimToLimit last).trimToLimit (last + 1)

def canSplit (index : ℕ) (e : NodeEntry) : Bool :=
  index + 1 == t.buckets.length && t.buckets.length < kBucketCount - 1 && e.confirmed &&
    (index == 0 || 1 < (t.bucket (index - 1)).live.length) &&
    !allOnSameSide (t.bucket index).live e.id index

/-- The buckets `can_split` looks at. -/
def splitReads (index : ℕ) : RoutingTable :=
  if index + 1 = t.buckets.length then
    if index = 0 then t.touch index else (t.touch (index - 1)).touch index
  else t

section

variable (idx : ℕ) (old : NodeEntry × ℕ) (e : NodeEntry)

/-- `assign`, for a slot of the live contacts. -/
def assignLive : RoutingTable :=
  let b := t.bucket idx
  ((t.ipUntrack old.1.endpoint.ip).setBucket idx { b with live := b.live.set old.2 e }).ipTrack
    e.endpoint.ip

/-- `assign`, for a slot of the standbys. -/
def assignReplacement : RoutingTable :=
  let b := t.bucket idx
  ((t.ipUntrack old.1.endpoint.ip).setBucket idx
    { b with replacements := b.replacements.set old.2 e }).ipTrack e.endpoint.ip

end

def stashReplacement (idx : ℕ) (entry : NodeEntry) : RoutingTable :=
  let b := t.bucket idx
  match findById b.replacements entry.id with
  | some old => t.assignReplacement idx old entry
  | none =>
    if b.replacements.length < kBucketSize then
      (t.setBucket idx { b with replacements := b.replacements ++ [entry] }).ipTrack
        entry.endpoint.ip
    else
      match worstOf b.replacements with
      | some worst => if worst.1.isWorseThan entry then t.assignReplacement idx worst entry else t
      | none => t

def findByEndpoint (ep : Address) : Option Located :=
  t.buckets.zipIdx.findSome? fun (b, i) =>
    match b.live.zipIdx.find? fun x => x.1.endpoint = ep with
    | some (n, j) => some ⟨i, true, j, n⟩
    | none =>
      (b.replacements.zipIdx.find? fun x => x.1.endpoint = ep).map fun (n, j) => ⟨i, false, j, n⟩

/-- A contact leaves the table. -/
def remove (at_ : Located) : RoutingTable :=
  let b := t.bucket at_.bucket
  (t.ipUntrack at_.entry.endpoint.ip).setBucket at_.bucket
    (if at_.live then { b with live := b.live.eraseIdx at_.index }
    else { b with replacements := b.replacements.eraseIdx at_.index })

/-- A contact whose endpoint answers under another id is dropped. -/
def evict (found : Located) : RoutingTable :=
  let t := (t.touch found.bucket).remove found
  (if found.live then t.fillFromReplacements found.bucket else t).pruneEmptyBack

/-- `passes_ip_diversity`; a confirmed contact at an endpoint held under another id evicts its
holder. -/
def passesIpDiversity (idx : ℕ) (e : NodeEntry) : RoutingTable × Bool :=
  let ip := e.endpoint.ip
  if !ip.isPublic then (t, true)
  else if (t.ipCount.lookup ip).isSome then
    match t.findByEndpoint e.endpoint with
    | none => (t, false)
    | some found =>
      if !e.pinged then (t, false) else (t.evict found, false)
  else
    let b := t.bucket idx
    (t, !(b.live.any fun n => n.endpoint.ip.tooClose ip) &&
      !(b.replacements.any fun n => n.endpoint.ip.tooClose ip))

variable (now : TimePoint)

/-- A sighting of a live contact. -/
def refresh (idx : ℕ) (old : NodeEntry × ℕ) (e : NodeEntry) : RoutingTable :=
  let b := t.bucket idx
  let n := { old.1 with verified := old.1.verified || e.verified }
  if e.pinged then
    let t := if old.1.endpoint.ip ≠ e.endpoint.ip then
        (t.ipUntrack old.1.endpoint.ip).ipTrack e.endpoint.ip
      else t
    t.setBucket idx { b with
      live := b.live.set old.2 ({ n with endpoint := e.endpoint }.recordSuccess now e.rtt) }
  else t.setBucket idx { b with live := b.live.set old.2 n }

/-- A standby that is seen, with what is known of it. -/
def carried (old e : NodeEntry) : NodeEntry :=
  { old with endpoint := e.endpoint, verified := old.verified || e.verified }.recordSuccess now e.rtt

/-- The end of `add_node`: the contact enters its bucket; `again` is the call after a split. -/
def insert (again : RoutingTable → NodeEntry → Option (RoutingTable × Bool)) (t : RoutingTable)
    (idx : ℕ) (e : NodeEntry) : Option (RoutingTable × Bool) :=
  let b := t.bucket idx
  let limit := t.bucketLimit idx
  if b.live.length < limit then
    some ((t.setBucket idx { b with live := b.live ++ [e] }).ipTrack e.endpoint.ip, true)
  else if e.confirmed then
    let t := t.splitReads idx
    if t.canSplit idx e then
      (again t.splitBucket e).map fun (t, added) =>
        ((t.fillFromReplacements idx).fillFromReplacements (idx + 1), added)
    else
      match spreadVictim idx (idx + 1 == t.buckets.length) limit b.live e with
      | some victim => some (t.assignLive idx victim e, true)
      | none => some (t.stashReplacement idx e, false)
  else some (t.stashReplacement idx e, false)

def addNode (now : TimePoint) : ℕ → RoutingTable → NodeEntry → Option (RoutingTable × Bool)
  | 0, _, _ => none
  | depth + 1, t, e =>
    if e.id = t.self then some (t, false)
    else
      let idx := t.bucketIndex e.id
      let t := t.touch idx
      let b := t.bucket idx
      match findById b.live e.id with
      | some old => some (t.refresh now idx old e, true)
      | none =>
        match findById b.replacements e.id with
        | some old =>
          if e.pinged then
            (t.remove ⟨idx, false, old.2, old.1⟩).insert (addNode now depth) idx
              (carried now old.1 e)
          else some (t, false)
        | none =>
          match t.passesIpDiversity idx e with
          | (t, true) => t.insert (addNode now depth) idx e
          | (t, false) => some (t, false)

/-- `add_node` with a bound that is enough. -/
def add (e : NodeEntry) : Option RoutingTable :=
  (addNode now kBucketCount t e).map Prod.fst

def loadContacts (contacts : List NodeEntry) : Option RoutingTable :=
  contacts.foldlM (fun t e => t.add now e) t

def heardAbout (id : NodeId) (endpoint : Address) (verified : Bool) : Option RoutingTable :=
  if id = t.self then some t else t.add now { NodeEntry.new id endpoint with verified := verified }

def nodeSeen (id : NodeId) (endpoint : Address) (rtt : ℕ) (verified : Bool) : Option RoutingTable :=
  if id = t.self then some t
  else t.add now ({ NodeEntry.new id endpoint with verified := verified }.recordSuccess now rtt)

/-- `set_self`: the contacts are put into a new table one by one. -/
def setSelf (id : NodeId) : Option RoutingTable :=
  if id = t.self then some t
  else
    { t with self := id, buckets := [.empty], ipCount := ∅ }.loadContacts now t.contacts

def nodeFailed (id : NodeId) (endpoint : Address) : RoutingTable :=
  let idx := t.bucketIndex id
  let b := t.bucket idx
  match findById b.live id with
  | none =>
    match findById b.replacements id with
    | none => t
    | some (r, j) =>
      if r.endpoint = endpoint then
        let r := r.recordFailure
        if !r.pinged || kMaxFailCount ≤ r.failCount then t.remove ⟨idx, false, j, r⟩
        else t.setBucket idx { b with replacements := b.replacements.set j r }
      else t
  | some (n, j) =>
    if n.endpoint = endpoint then
      let n := n.recordFailure
      if b.replacements ≠ [] then
        ((t.remove ⟨idx, true, j, n⟩).fillFromReplacements idx).pruneEmptyBack
      else if !n.pinged || kMaxFailCount ≤ n.failCount then
        (t.remove ⟨idx, true, j, n⟩).pruneEmptyBack
      else (t.setBucket idx { b with live := b.live.set j n }).pruneEmptyBack
    else t

def ipIndexConsistent : Bool :=
  let expected := (t.contacts.map (·.endpoint.ip)).filter IpAddress.isPublic |>.foldl track ∅
  decide (expected.entries.Perm t.ipCount.entries)

end RoutingTable

/-! ## Runs -/

/-- What the owner of a table calls. -/
inductive TableCall
  | heardAbout (id : NodeId) (endpoint : Address) (verified : Bool)
  | nodeSeen (id : NodeId) (endpoint : Address) (rtt : ℕ) (verified : Bool)
  | nodeFailed (id : NodeId) (endpoint : Address)
  | setSelf (id : NodeId)
  | loadContacts (contacts : List NodeEntry)

namespace RoutingTable

/-- A call at a time. -/
def call (t : RoutingTable) (now : TimePoint) : TableCall → Option RoutingTable
  | .heardAbout id endpoint verified => t.heardAbout now id endpoint verified
  | .nodeSeen id endpoint rtt verified => t.nodeSeen now id endpoint rtt verified
  | .nodeFailed id endpoint => some (t.nodeFailed id endpoint)
  | .setSelf id => t.setSelf now id
  | .loadContacts contacts => t.loadContacts now contacts

end RoutingTable

end Librats.Dht
