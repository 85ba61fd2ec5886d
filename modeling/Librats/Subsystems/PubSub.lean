import Librats.Foundations.Recent
import Librats.Subsystems.GossipWire
import Mathlib.Data.List.AList

/-!
# Publish and subscribe

The `PubSub` of `subsystems/pubsub.cpp` on an attached node. A set of peers has no order, and what
`random_sample` returns is any subset of the size asked for (`Sampler`). A topic without an entry in
`topics_` has empty sets. `Effect` is what a call does outside, with notes of what it does inside.
-/

namespace Librats.PubSub

open Recent List

inductive ValidationResult
  | accept
  | reject
  | ignore
  deriving DecidableEq

abbrev Validator := PeerId → Bytes → Bytes → ValidationResult

/-- `PubSub::Config`, with times in milliseconds. -/
structure Config where
  meshTarget : ℤ := 6
  meshLow : ℤ := 4
  meshHigh : ℤ := 12
  fanoutSize : ℤ := 6
  gossipFactor : ℤ := 6
  fanoutTtl : ℤ := 60000
  historyLength : ℤ := 5
  historyGossip : ℤ := 3
  seenLimit : ℕ := 8192

structure Topic where
  subscribers : Finset PeerId := ∅
  mesh : Finset PeerId := ∅
  fanout : Finset PeerId := ∅
  lastFanout : ℤ := 0
  deriving DecidableEq

structure CachedMessage where
  topic : Bytes
  frame : Bytes
  deriving DecidableEq

/-- A choice of as many peers as are asked for. -/
structure Sampler where
  pick : Finset PeerId → ℕ → Finset PeerId
  subset : ∀ s n, pick s n ⊆ s
  card : ∀ s n, n ≤ s.card → (pick s n).card = n

/-- The choice of the smallest ids. -/
def Sampler.smallest : Sampler where
  pick s n := ((s.sort (· ≤ ·)).take n).toFinset
  subset s n p hp := (Finset.mem_sort _).mp (mem_of_mem_take (mem_toFinset.mp hp))
  card s n hn := by
    rw [toFinset_card_of_nodup ((Finset.sort_nodup s _).sublist (take_sublist ..)),
      length_take, Finset.length_sort, min_eq_left hn]

def randomSample (r : Sampler) (s : Finset PeerId) (n : ℤ) : Finset PeerId :=
  if n ≤ 0 then ∅ else if (s.card : ℤ) ≤ n then s else r.pick s n.toNat

/-- `PubSub`. A validator that was set can be an empty function, which accepts all. -/
structure State where
  config : Config
  localId : PeerId
  seqno : UInt64
  subscriptions : Finset Bytes
  topics : Bytes → Topic
  validators : Bytes → Option (Option Validator)
  globalValidator : Option Validator
  mcache : AList fun _ : Bytes => CachedMessage
  history : List (List Bytes)
  seen : Seen Bytes

/-- What a call does outside, and what is noted of it. A `round` is a `PUBLISH` sent along the mesh
or the fanout, with its sender; `maintained` is a topic right after `maintain_mesh_locked`. -/
inductive Effect
  | send (targets : Finset PeerId) (frame : Bytes)
  | broadcast (frame : Bytes)
  | deliver (id : Bytes) (origin : PeerId) (topic data : Bytes)
  | round (id : Bytes) (from_ : Option PeerId) (targets : Finset PeerId) (frame : Bytes)
  | marked (id : Bytes)
  | taken (seqno : UInt64)
  | maintained (t : Topic)
  deriving DecidableEq

/-- A `PubSub` of a node, with its first sequence number. -/
def State.new (config : Config) (localId : PeerId) (seqno : UInt64) : State where
  config := config
  localId := localId
  seqno := seqno
  subscriptions := ∅
  topics := fun _ => {}
  validators := fun _ => none
  globalValidator := none
  mcache := ∅
  history := [[]]
  seen := .empty

namespace State

variable (s : State)

def setTopic (topic : Bytes) (t : Topic) : State :=
  { s with topics := Function.update s.topics topic t }

/-! ## The mesh -/

/-- `maintain_mesh_locked`: the topic, whom to graft and whom to prune. -/
def maintainMesh (c : Config) (r : Sampler) (t : Topic) : Topic × Finset PeerId × Finset PeerId :=
  if (t.mesh.card : ℤ) < c.meshLow then
    let picked := randomSample r (t.subscribers \ t.mesh) (c.meshTarget - t.mesh.card)
    ({ t with mesh := t.mesh ∪ picked }, picked, ∅)
  else if c.meshHigh < (t.mesh.card : ℤ) then
    let picked := randomSample r t.mesh (t.mesh.card - c.meshTarget)
    ({ t with mesh := t.mesh \ picked }, ∅, picked)
  else (t, ∅, ∅)

/-- The frames of a `maintain_mesh_locked`. -/
def ctrlFrames (topic : Bytes) (grafts prunes : Finset PeerId) : List Effect :=
  [.send grafts (buildCtrl .graft topic), .send prunes (buildCtrl .prune topic)]

def maintainMeshLocked (r : Sampler) (topic : Bytes) : State × List Effect :=
  if topic ∈ s.subscriptions then
    let (t, grafts, prunes) := maintainMesh s.config r (s.topics topic)
    (s.setTopic topic t, .maintained t :: ctrlFrames topic grafts prunes)
  else (s, [])

def subscribe (r : Sampler) (topic : Bytes) : State × List Effect :=
  if topic ∈ s.subscriptions then (s, [])
  else
    let (s', effects) :=
      { s with subscriptions := insert topic s.subscriptions }.maintainMeshLocked r topic
    (s', .broadcast (buildCtrl .subscribe topic) :: effects)

def unsubscribe (topic : Bytes) : State × List Effect :=
  if topic ∈ s.subscriptions then
    let t := s.topics topic
    ({ s with subscriptions := s.subscriptions.erase topic }.setTopic topic { t with mesh := ∅ },
      [.broadcast (buildCtrl .unsubscribe topic), .send t.mesh (buildCtrl .prune topic)])
  else (s, [])

def recvSubscription (r : Sampler) (from_ : PeerId) (topic : Bytes) (subscribe : Bool) :
    State × List Effect :=
  let t := s.topics topic
  if subscribe then
    (s.setTopic topic { t with subscribers := insert from_ t.subscribers }).maintainMeshLocked r topic
  else
    (s.setTopic topic { t with
      subscribers := t.subscribers.erase from_
      mesh := t.mesh.erase from_
      fanout := t.fanout.erase from_ }, [])

def recvGraft (from_ : PeerId) (topic : Bytes) : State × List Effect :=
  let t := s.topics topic
  if topic ∈ s.subscriptions then
    (s.setTopic topic { t with
      subscribers := insert from_ t.subscribers
      mesh := insert from_ t.mesh }, [])
  else (s, [.send {from_} (buildCtrl .prune topic)])

def recvPrune (from_ : PeerId) (topic : Bytes) : State × List Effect :=
  let t := s.topics topic
  (s.setTopic topic { t with mesh := t.mesh.erase from_ }, [])

def onPeerGone (id : PeerId) : State × List Effect :=
  ({ s with topics := fun topic =>
      let t := s.topics topic
      { t with
        subscribers := t.subscribers.erase id
        mesh := t.mesh.erase id
        fanout := t.fanout.erase id } }, [])

/-! ## Messages -/

/-- `mark_seen`: whether the id was not seen before. -/
def markSeen (id : Bytes) : Bool × State :=
  match s.seen.mark s.config.seenLimit id with
  | none => (false, s)
  | some seen => (true, { s with seen })

/-- `cache_message`: kept in the current window, unless there already. -/
def cacheMessage (id topic frame : Bytes) : State :=
  if id ∈ s.mcache then s
  else
    { s with
      mcache := s.mcache.insert id ⟨topic, frame⟩
      history := match s.history with
        | [] => [[id]]
        | window :: windows => (window ++ [id]) :: windows }

/-- `deliver_local`: the handler is called, if there is one. -/
def deliverLocal (id : Bytes) (origin : PeerId) (topic data : Bytes) : List Effect :=
  if topic ∈ s.subscriptions then [.deliver id origin topic data] else []

def validate (origin : PeerId) (topic data : Bytes) : ValidationResult :=
  match (s.validators topic).getD s.globalValidator with
  | some v => v origin topic data
  | none => .accept

/-- The peers a message of ours goes to: the mesh of a topic we subscribe to, or else the fanout,
topped up first. -/
def publishTargets (r : Sampler) (topic : Bytes) (now : ℤ) : State × Finset PeerId :=
  let t := s.topics topic
  if topic ∈ s.subscriptions then (s, t.mesh)
  else
    let fanout :=
      if (t.fanout.card : ℤ) < s.config.fanoutSize then
        t.fanout ∪ randomSample r (t.subscribers \ t.fanout) (s.config.fanoutSize - t.fanout.card)
      else t.fanout
    (s.setTopic topic { t with fanout, lastFanout := now }, fanout)

def publish (r : Sampler) (topic data : Bytes) (now : ℤ) : State × List Effect :=
  let seqno := s.seqno
  let (s, targets) := { s with seqno := seqno + 1 }.publishTargets r topic now
  let id := makeId s.localId seqno
  let frame := buildPublish s.localId seqno topic data
  let (fresh, s) := s.markSeen id
  let s := s.cacheMessage id topic frame
  (s, [.taken seqno] ++ (if fresh then [.marked id] else []) ++ s.deliverLocal id s.localId topic
    data ++ [.round id none targets frame])

def recvPublish (from_ : PeerId) (frame : Bytes) (origin : PeerId) (seqno : UInt64)
    (topic data : Bytes) : State × List Effect :=
  let id := makeId origin seqno
  let (fresh, s) := s.markSeen id
  if ¬fresh then (s, [])
  else if s.validate origin topic data ≠ .accept then (s, [.marked id])
  else
    let s := s.cacheMessage id topic frame
    (s, [.marked id] ++ s.deliverLocal id origin topic data ++ if topic ∈ s.subscriptions then
        [.round id (some from_) ((s.topics topic).mesh.erase from_) frame]
      else [])

def recvIhave (from_ : PeerId) (ids : List Bytes) : State × List Effect :=
  let wanted := ids.filter fun id => id.length = kIdSize ∧ id ∉ s.seen.seen
  (s, if wanted = [] then [] else [.send {from_} (buildIwant wanted)])

def recvIwant (from_ : PeerId) (ids : List Bytes) : State × List Effect :=
  (s, (ids.filterMap s.mcache.lookup).map fun m => .send {from_} m.frame)

def onGossip (r : Sampler) (from_ : PeerId) (payload : Bytes) : State × List Effect :=
  match parse payload with
  | none => (s, [])
  | some (.ctrl .subscribe topic) => s.recvSubscription r from_ topic true
  | some (.ctrl .unsubscribe topic) => s.recvSubscription r from_ topic false
  | some (.ctrl .graft topic) => s.recvGraft from_ topic
  | some (.ctrl .prune topic) => s.recvPrune from_ topic
  | some (.ihave _ ids) => s.recvIhave from_ ids
  | some (.iwant ids) => s.recvIwant from_ ids
  | some (.publish origin seqno topic data) => s.recvPublish from_ payload origin seqno topic data

/-- `on_new_peer`: the new peer learns what we subscribe to. -/
def onNewPeer (peer : PeerId) (order : List Bytes) : State × List Effect :=
  (s, order.map fun topic => .send {peer} (buildCtrl .subscribe topic))

def setValidator (topic : Bytes) (v : Option Validator) : State :=
  if topic = [] then { s with globalValidator := v }
  else { s with validators := Function.update s.validators topic (some v) }

/-! ## Heartbeats -/

/-- The ids of a topic that recent windows hold. -/
def gossipIds (topic : Bytes) : List Bytes :=
  ((s.history.take s.config.historyGossip.toNat).flatten).filter fun id =>
    (s.mcache.lookup id).any fun m => m.topic = topic

/-- A heartbeat at a topic we subscribe to: its mesh is maintained, and peers beyond it are told
what we hold. -/
def heartbeatTopic (gossip : Bytes → List Bytes) (r : Bytes → Sampler × Sampler)
    (x : State × List Effect) (topic : Bytes) : State × List Effect :=
  let (s, effects) := x.1.maintainMeshLocked (r topic).1 topic
  let t := s.topics topic
  let plan := randomSample (r topic).2 (t.subscribers \ t.mesh) s.config.gossipFactor
  (s, x.2 ++ effects ++
    if gossip topic = [] ∨ plan = ∅ then [] else [.send plan (buildIhave topic (gossip topic))])

/-- Idle fanouts of topics we do not subscribe to are dropped. -/
def expireFanout (now : ℤ) : State :=
  { s with topics := fun topic =>
      let t := s.topics topic
      if topic ∉ s.subscriptions ∧ s.config.fanoutTtl ≤ now - t.lastFanout then
        { t with fanout := ∅ }
      else t }

/-- A new window is opened, and messages of windows too old are forgotten. With a negative length
the source would go on popping an empty list; here no window is kept then. -/
def shiftHistory : State :=
  let history := [] :: s.history
  let kept := s.config.historyLength.toNat
  { s with
    history := history.take kept
    mcache := (history.drop kept).flatten.foldl (fun m id => m.erase id) s.mcache }

/-- `do_heartbeat`, with the order of the subscriptions. -/
def doHeartbeat (order : List Bytes) (r : Bytes → Sampler × Sampler) (now : ℤ) :
    State × List Effect :=
  let (s', effects) := order.foldl (heartbeatTopic s.gossipIds r) (s, [])
  ((s'.expireFanout now).shiftHistory, effects)

end State

/-! ## Runs -/

/-- A call of the application, a frame, a change of the peers, or a heartbeat. -/
inductive Call
  | subscribe (topic : Bytes) (r : Sampler)
  | unsubscribe (topic : Bytes)
  | publish (topic data : Bytes) (r : Sampler) (now : ℤ)
  | setValidator (topic : Bytes) (v : Option Validator)
  | gossip (from_ : PeerId) (payload : Bytes) (r : Sampler)
  | newPeer (peer : PeerId) (order : List Bytes)
  | peerGone (peer : PeerId)
  | heartbeat (order : List Bytes) (r : Bytes → Sampler × Sampler) (now : ℤ)

namespace State

/-- The list goes through the subscriptions. -/
def Lists (s : State) (order : List Bytes) : Prop := order.Nodup ∧ order.toFinset = s.subscriptions

instance (s : State) (order : List Bytes) : Decidable (s.Lists order) :=
  inferInstanceAs (Decidable (_ ∧ _))

/-- One call, if it is possible. -/
def call (s : State) : Call → Option (State × List Effect)
  | .subscribe topic r => some (s.subscribe r topic)
  | .unsubscribe topic => some (s.unsubscribe topic)
  | .publish topic data r now => some (s.publish r topic data now)
  | .setValidator topic v => some (s.setValidator topic v, [])
  | .gossip from_ payload r => some (s.onGossip r from_ payload)
  | .newPeer peer order => if s.Lists order then some (s.onNewPeer peer order) else none
  | .peerGone peer => some (s.onPeerGone peer)
  | .heartbeat order r now => if s.Lists order then some (s.doHeartbeat order r now) else none

/-- The calls one after the other, and what they do. -/
def run (s : State) : List Call → Option (State × List Effect)
  | [] => some (s, [])
  | c :: calls =>
    match s.call c with
    | none => none
    | some (s', effects) =>
      match s'.run calls with
      | none => none
      | some (s'', more) => some (s'', effects ++ more)

variable {y : State × List Effect}

theorem run_cons {s : State} {x : Call} {calls : List Call}
    (h : s.run (x :: calls) = some y) : ∃ s' first more, s.call x = some (s', first) ∧
      s'.run calls = some (y.1, more) ∧ y.2 = first ++ more := by
  simp only [run] at h
  split at h
  · cases h
  · next s' first hcall =>
    split at h
    · cases h
    · next s'' more hrest =>
      cases h
      exact ⟨s', first, more, hcall, hrest, rfl⟩

theorem run_append {s : State} {before after : List Call}
    (h : s.run (before ++ after) = some y) : ∃ s' first more, s.run before = some (s', first) ∧
      s'.run after = some (y.1, more) ∧ y.2 = first ++ more := by
  induction before generalizing s y with
  | nil => exact ⟨s, [], y.2, rfl, h, rfl⟩
  | cons x before ih =>
    obtain ⟨s₁, first, more, hcall, hrest, hy⟩ := run_cons h
    obtain ⟨s₂, middle, last, hbefore, hafter, heq⟩ := ih hrest
    refine ⟨s₂, first ++ middle, last, ?_, hafter, ?_⟩
    · simp [run, hcall, hbefore]
    · rw [hy, append_assoc, ← heq]

end State

end Librats.PubSub
