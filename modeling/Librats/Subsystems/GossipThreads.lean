import Librats.Foundations.Interleaving
import Librats.Subsystems.PubSub

/-!
# Messages on their way through a `PubSub`

`publish` and `recv_publish` lock and unlock several times, and call the application in between. So
a message on its way is a thread here (`Point`), whose sections interleave freely. Other calls are
one step each, since they do not touch what is seen.
-/

namespace Librats.PubSub

open Interleaving

/-- Where a message comes from: `publish`, with the peers it goes to, or a peer. -/
inductive Source
  | own (targets : Finset PeerId)
  | peer (from_ : PeerId)

/-- A message on its way. -/
structure Job where
  origin : PeerId
  seqno : UInt64
  topic : Bytes
  data : Bytes
  frame : Bytes
  source : Source

def Job.id (j : Job) : Bytes := makeId j.origin j.seqno

/-- What is to be done next with a message. -/
inductive Stage
  | marking
  | validating
  | caching
  | delivering
  | forwarding
  deriving DecidableEq

structure Point where
  stage : Stage
  job : Job

/-- What a section leaves. -/
abbrev Done := Interleaving.Outcome State Point Effect

/-- A node, the messages on their way, and what was done so far. -/
abbrev Snapshot := Interleaving.Config State Point Effect

namespace State

variable (s : State)

/-- What `validate` answers if a validator gives the verdict. -/
def verdictOn (topic : Bytes) (verdict : ValidationResult) : ValidationResult :=
  if ((s.validators topic).getD s.globalValidator).isSome then verdict else .accept

/-- The round of a message: along the targets chosen, or along the mesh. -/
def roundOf (j : Job) : List Effect :=
  match j.source with
  | .own targets => [.round j.id none targets j.frame]
  | .peer from_ =>
    if j.topic ∈ s.subscriptions then
      [.round j.id (some from_) ((s.topics j.topic).mesh.erase from_) j.frame]
    else []

/-- The stage after a message was marked, or had been seen: a message of our own goes on in any
case. -/
def afterMark (j : Job) (fresh : Bool) : List Point :=
  match j.source with
  | .own _ => [⟨.caching, j⟩]
  | .peer _ => if fresh then [⟨.validating, j⟩] else []

/-- One section. -/
def exec (th : Point) (verdict : ValidationResult) : Done :=
  let j := th.job
  match th.stage with
  | .marking =>
    let (fresh, s') := s.markSeen j.id
    ⟨s', if fresh then [.marked j.id] else [], afterMark j fresh⟩
  | .validating =>
    ⟨s, [], if s.verdictOn j.topic verdict = .accept then [⟨.caching, j⟩] else []⟩
  | .caching => ⟨s.cacheMessage j.id j.topic j.frame, [], [⟨.delivering, j⟩]⟩
  | .delivering => ⟨s, s.deliverLocal j.id j.origin j.topic j.data, [⟨.forwarding, j⟩]⟩
  | .forwarding => ⟨s, s.roundOf j, []⟩

/-- The first section of `publish`: the sequence number and the targets. -/
def beginPublish (r : Sampler) (topic data : Bytes) (now : ℤ) : Done :=
  let seqno := s.seqno
  let (s', targets) := { s with seqno := seqno + 1 }.publishTargets r topic now
  let frame := buildPublish s.localId seqno topic data
  ⟨s', [.taken seqno], [⟨.marking, ⟨s.localId, seqno, topic, data, frame, .own targets⟩⟩]⟩

/-- A call: `publish` and a `PUBLISH` frame set a message on its way. -/
def enter : Call → Option Done
  | .publish topic data r now => some (s.beginPublish r topic data now)
  | .gossip from_ payload r =>
    match parse payload with
    | some (.publish origin seqno topic data) =>
      some ⟨s, [], [⟨.marking, ⟨origin, seqno, topic, data, payload, .peer from_⟩⟩]⟩
    | _ => some ⟨(s.onGossip r from_ payload).1, (s.onGossip r from_ payload).2, []⟩
  | x => (s.call x).map fun y => ⟨y.1, y.2, []⟩

end State

/-- The program of the messages and the calls. -/
def program : Program State Point ValidationResult Call Effect where
  exec s th verdict := some (s.exec th verdict)
  call s _ x := s.enter x

/-- A new node with its first sequence number. -/
def start (c : Config) (localId : PeerId) (seqno : UInt64) : Snapshot :=
  ⟨.new c localId seqno, [], []⟩

end Librats.PubSub
