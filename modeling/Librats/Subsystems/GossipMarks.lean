import Librats.Subsystems.GossipThreads

/-!
# The messages a `PubSub` has marked

What is noted of a run (`marks`, `published`, `Act.done`), what each section and each call does to
it (`Ran`, `Entered`), and what therefore holds (`Sound`).
-/

namespace Librats.PubSub

open Interleaving Recent List State BigEndian

/-! ## What is noted of a run -/

/-- The id that an entry marks. -/
def Effect.markedId : Effect → Option Bytes
  | .marked id => some id
  | _ => none

/-- The sequence number that an entry takes. -/
def Effect.takenSeqno : Effect → Option UInt64
  | .taken seqno => some seqno
  | _ => none

/-- What is done with a message: it is handled locally, or makes a round. -/
inductive Act
  | deliver
  | forward
  deriving DecidableEq

open Act

/-- The id of the message with which it is done. -/
def Act.of : Act → Effect → Option Bytes
  | .deliver, .deliver id _ _ _ => some id
  | .forward, .round id _ _ _ => some id
  | _, _ => none

/-- Whether it is still to be done with a message that was marked. -/
def Act.awaits : Act → Stage → Bool
  | _, .marking => false
  | .deliver, .forwarding => false
  | _, _ => true

variable (a : Act)

/-- The id of a message with which it is still to be done. -/
def Act.awaited (th : Point) : Option Bytes :=
  if a.awaits th.stage then some th.job.id else none

/-- The ids newly marked, in order. -/
def marks (trace : List Effect) : List Bytes := trace.filterMap Effect.markedId

/-- The sequence numbers taken, in order: one for each call of `publish`. -/
def published (trace : List Effect) : List UInt64 := trace.filterMap Effect.takenSeqno

/-- The ids of the messages with which it was done, in order. -/
def Act.done (trace : List Effect) : List Bytes := trace.filterMap a.of

/-- The ids of the messages with which it is still to be done. -/
def Act.pending (threads : List Point) : List Bytes := threads.filterMap a.awaited

variable (l l' : List Effect)

theorem marks_append : marks (l ++ l') = marks l ++ marks l' :=
  filterMap_append

theorem published_append : published (l ++ l') = published l ++ published l' :=
  filterMap_append

theorem Act.done_append : a.done (l ++ l') = a.done l ++ a.done l' :=
  filterMap_append

theorem Act.pending_append (l l' : List Point) :
    a.pending (l ++ l') = a.pending l ++ a.pending l' :=
  filterMap_append

/-! ## Other calls -/

/-- Nothing of a message. -/
structure Effect.Idle (e : Effect) : Prop where
  marked : e.markedId = none
  taken : e.takenSeqno = none
  acts : ∀ a : Act, a.of e = none

theorem idle_send (targets : Finset PeerId) (frame : Bytes) : (Effect.send targets frame).Idle :=
  ⟨rfl, rfl, fun a => by cases a <;> rfl⟩

theorem idle_broadcast (frame : Bytes) : (Effect.broadcast frame).Idle :=
  ⟨rfl, rfl, fun a => by cases a <;> rfl⟩

theorem idle_maintained (t : Topic) : (Effect.maintained t).Idle :=
  ⟨rfl, rfl, fun a => by cases a <;> rfl⟩

/-- A step leaves alone what the marks depend on. -/
structure SameNumbers (s s' : State) : Prop where
  seen : s'.seen = s.seen
  seqno : s'.seqno = s.seqno
  localId : s'.localId = s.localId
  config : s'.config = s.config

theorem SameNumbers.trans {a b c : State} (h : SameNumbers a b) (h' : SameNumbers b c) :
    SameNumbers a c :=
  ⟨h'.seen.trans h.seen, h'.seqno.trans h.seqno, h'.localId.trans h.localId, h'.config.trans h.config⟩

/-- A call has nothing to do with messages. -/
structure Idle (s : State) (y : State × List Effect) : Prop where
  same : SameNumbers s y.1
  effects : ∀ e ∈ y.2, e.Idle

section

variable {s : State} {y : State × List Effect}

theorem Idle.marks (h : Idle s y) : marks y.2 = [] :=
  filterMap_eq_nil_iff.mpr fun e he => (h.effects e he).marked

theorem Idle.published (h : Idle s y) : published y.2 = [] :=
  filterMap_eq_nil_iff.mpr fun e he => (h.effects e he).taken

theorem Idle.done (h : Idle s y) (a : Act) : a.done y.2 = [] :=
  filterMap_eq_nil_iff.mpr fun e he => (h.effects e he).acts a

theorem idle_nil {s' : State} (h : SameNumbers s s') : Idle s (s', []) :=
  ⟨h, nofun⟩

theorem idle_maintain (s : State) (r : Sampler) (topic : Bytes) :
    Idle s (s.maintainMeshLocked r topic) := by
  unfold maintainMeshLocked
  split_ifs
  · refine ⟨⟨rfl, rfl, rfl, rfl⟩, ?_⟩
    simp only [ctrlFrames, forall_mem_cons]
    exact ⟨idle_maintained _, idle_send _ _, idle_send _ _, nofun⟩
  · exact idle_nil ⟨rfl, rfl, rfl, rfl⟩

theorem idle_subscribe (s : State) (r : Sampler) (topic : Bytes) : Idle s (s.subscribe r topic) := by
  unfold subscribe
  split_ifs
  · exact idle_nil ⟨rfl, rfl, rfl, rfl⟩
  · have hsame : SameNumbers s { s with subscriptions := insert topic s.subscriptions } :=
      ⟨rfl, rfl, rfl, rfl⟩
    have hmaintain := idle_maintain { s with subscriptions := insert topic s.subscriptions } r topic
    exact ⟨hsame.trans hmaintain.same, forall_mem_cons.mpr ⟨idle_broadcast _, hmaintain.effects⟩⟩

theorem idle_unsubscribe (s : State) (topic : Bytes) : Idle s (s.unsubscribe topic) := by
  unfold unsubscribe
  split_ifs
  · refine ⟨⟨rfl, rfl, rfl, rfl⟩, ?_⟩
    simp only [forall_mem_cons]
    exact ⟨idle_broadcast _, idle_send _ _, nofun⟩
  · exact idle_nil ⟨rfl, rfl, rfl, rfl⟩

theorem idle_recvSubscription (s : State) (r : Sampler) (from_ : PeerId) (topic : Bytes)
    (subscribe : Bool) : Idle s (s.recvSubscription r from_ topic subscribe) := by
  cases subscribe with
  | true =>
    set t : Topic := { s.topics topic with subscribers := insert from_ (s.topics topic).subscribers }
    have hsame : SameNumbers s (s.setTopic topic t) := ⟨rfl, rfl, rfl, rfl⟩
    have hmaintain := idle_maintain (s.setTopic topic t) r topic
    exact ⟨hsame.trans hmaintain.same, hmaintain.effects⟩
  | false => exact idle_nil ⟨rfl, rfl, rfl, rfl⟩

theorem idle_onGossip (s : State) (r : Sampler) (from_ : PeerId) {payload : Bytes}
    (hparse : ∀ origin seqno topic data, parse payload ≠ some (.publish origin seqno topic data)) :
    Idle s (s.onGossip r from_ payload) := by
  unfold onGossip
  split
  · exact idle_nil ⟨rfl, rfl, rfl, rfl⟩
  · exact idle_recvSubscription s r from_ _ true
  · exact idle_recvSubscription s r from_ _ false
  · unfold recvGraft
    split_ifs
    · exact idle_nil ⟨rfl, rfl, rfl, rfl⟩
    · exact ⟨⟨rfl, rfl, rfl, rfl⟩, forall_mem_singleton.mpr (idle_send _ _)⟩
  · exact idle_nil ⟨rfl, rfl, rfl, rfl⟩
  · refine ⟨⟨rfl, rfl, rfl, rfl⟩, ?_⟩
    simp only [recvIhave]
    split_ifs
    · exact nofun
    · exact forall_mem_singleton.mpr (idle_send _ _)
  · exact ⟨⟨rfl, rfl, rfl, rfl⟩, forall_mem_map.mpr fun _ _ => idle_send _ _⟩
  · next hpublish => exact absurd hpublish (hparse _ _ _ _)

theorem idle_heartbeatTopic {x : State × List Effect} (h : Idle s x) (gossip : Bytes → List Bytes)
    (r : Bytes → Sampler × Sampler) (topic : Bytes) : Idle s (heartbeatTopic gossip r x topic) := by
  have hmaintain := idle_maintain x.1 (r topic).1 topic
  refine ⟨h.same.trans hmaintain.same, fun e he => ?_⟩
  simp only [heartbeatTopic, mem_append] at he
  obtain (he | he) | he := he
  · exact h.effects e he
  · exact hmaintain.effects e he
  · split_ifs at he
    · exact absurd he not_mem_nil
    · rw [mem_singleton.mp he]
      exact idle_send _ _

theorem idle_doHeartbeat (s : State) (order : List Bytes) (r : Bytes → Sampler × Sampler)
    (now : ℤ) : Idle s (s.doHeartbeat order r now) := by
  have htopics (x : State × List Effect) (hx : Idle s x) :
      Idle s (order.foldl (heartbeatTopic s.gossipIds r) x) := by
    induction order generalizing x with
    | nil => exact hx
    | cons topic order ih => exact ih _ (idle_heartbeatTopic hx ..)
  have h := htopics (s, []) (idle_nil ⟨rfl, rfl, rfl, rfl⟩)
  exact ⟨⟨h.same.seen, h.same.seqno, h.same.localId, h.same.config⟩, h.effects⟩

theorem idle_setValidator (s : State) (topic : Bytes) (v : Option Validator) :
    Idle s (s.setValidator topic v, []) := by
  refine idle_nil ?_
  unfold setValidator
  split_ifs <;> exact ⟨rfl, rfl, rfl, rfl⟩

/-- What a call comes to: `publish` takes a number, a `PUBLISH` frame starts on its way, and
anything else is idle. -/
inductive Entered (s : State) : Call → Done → Prop
  | publish (topic data : Bytes) (r : Sampler) (now : ℤ) :
    Entered s (.publish topic data r now) (s.beginPublish r topic data now)
  | frame {from_ : PeerId} {payload : Bytes} {r : Sampler} {origin : PeerId} {seqno : UInt64}
      {topic data : Bytes} (hparse : parse payload = some (.publish origin seqno topic data)) :
    Entered s (.gossip from_ payload r)
      ⟨s, [], [⟨.marking, ⟨origin, seqno, topic, data, payload, .peer from_⟩⟩]⟩
  | idle {x : Call} {y : State × List Effect} (h : Idle s y) : Entered s x ⟨y.1, y.2, []⟩

theorem entered_of_enter {x : Call} {o : Done} (h : s.enter x = some o) : Entered s x o := by
  cases x with
  | publish topic data r now =>
    cases h
    exact .publish topic data r now
  | gossip from_ payload r =>
    simp only [enter] at h
    split at h
    · next hparse =>
      cases h
      exact .frame hparse
    · next hparse =>
      cases h
      exact .idle (idle_onGossip s r from_ hparse)
  | subscribe topic r =>
    cases h
    exact .idle (idle_subscribe s r topic)
  | unsubscribe topic =>
    cases h
    exact .idle (idle_unsubscribe s topic)
  | setValidator topic v =>
    cases h
    exact .idle (idle_setValidator s topic v)
  | newPeer peer order =>
    obtain ⟨y, hy, rfl⟩ := Option.map_eq_some_iff.mp h
    obtain ⟨-, hy⟩ := Option.ite_none_right_eq_some.mp hy
    cases hy
    exact .idle ⟨⟨rfl, rfl, rfl, rfl⟩, forall_mem_map.mpr fun _ _ => idle_send _ _⟩
  | peerGone peer =>
    cases h
    exact .idle (idle_nil ⟨rfl, rfl, rfl, rfl⟩)
  | heartbeat order r now =>
    obtain ⟨y, hy, rfl⟩ := Option.map_eq_some_iff.mp h
    obtain ⟨-, hy⟩ := Option.ite_none_right_eq_some.mp hy
    cases hy
    exact .idle (idle_doHeartbeat s order r now)

end

/-! ## Sections -/

/-- A round that does not go back to where the message came from. -/
def Effect.Onward (e : Effect) : Prop :=
  ∀ id p targets frame, e = .round id (some p) targets frame → p ∉ targets

/-- A section of a marked message: it does at most one of the things that are to be done with it. -/
structure Later (s : State) (th : Point) (o : Done) : Prop where
  same : SameNumbers s o.shared
  marks : marks o.effects = []
  published : published o.effects = []
  single : o.effects = [] ∨ ∃ e, o.effects = [e]
  lone : o.next.length ≤ 1
  onward : ∀ e ∈ o.effects, e.Onward
  acts : ∀ e ∈ o.effects, ∀ (a : Act) id, a.of e = some id → id = th.job.id ∧ a.awaits th.stage = true
  next : ∀ th' ∈ o.next, th'.job = th.job ∧ th'.stage ≠ .marking ∧
    ∀ a : Act, a.awaits th'.stage = true → a.awaits th.stage = true ∧ a.done o.effects = []
  counts : ∀ (a : Act) id,
    (a.done o.effects).count id + (a.pending o.next).count id ≤ (a.pending [th]).count id

/-- What a section does. -/
inductive Ran (s : State) (th : Point) : Done → Prop
  /-- The message is newly marked. -/
  | marked {seen : Seen Bytes} {stage : Stage} (hmarking : th.stage = .marking)
      (hmark : s.seen.mark s.config.seenLimit th.job.id = some seen)
      (hstage : stage = .validating ∨ stage = .caching) :
    Ran s th ⟨{ s with seen }, [.marked th.job.id], [⟨stage, th.job⟩]⟩
  /-- A message of a peer had been seen. -/
  | known (hmarking : th.stage = .marking) : Ran s th ⟨s, [], []⟩
  /-- A message of ours had been seen. -/
  | ownKnown {targets : Finset PeerId} (hmarking : th.stage = .marking)
      (hown : th.job.source = .own targets) (hseen : th.job.id ∈ s.seen.seen) :
    Ran s th ⟨s, [], [⟨.caching, th.job⟩]⟩
  | later {o : Done} (hmarked : th.stage ≠ .marking) (h : Later s th o) :
    Ran s th o

theorem mem_of_mark_eq_none {limit : ℕ} {r : Seen Bytes} {id : Bytes} (h : r.mark limit id = none) :
    id ∈ r.seen := by
  by_contra hfresh
  simp only [Seen.mark, if_neg hfresh] at h
  split at h
  · cases h
  · split_ifs at h

theorem ran_marking (s : State) (j : Job) (verdict : ValidationResult) :
    Ran s ⟨.marking, j⟩ (s.exec ⟨.marking, j⟩ verdict) := by
  cases hmark : s.seen.mark s.config.seenLimit j.id with
  | none =>
    have hseen : s.markSeen j.id = (false, s) := by simp [markSeen, hmark]
    simp only [exec, hseen, afterMark]
    cases hsource : j.source with
    | own targets => exact .ownKnown rfl hsource (mem_of_mark_eq_none hmark)
    | peer from_ => exact .known rfl
  | some seen =>
    have hfresh : s.markSeen j.id = (true, { s with seen }) := by simp [markSeen, hmark]
    simp only [exec, hfresh, afterMark]
    cases hsource : j.source with
    | own targets => exact .marked rfl hmark (.inr rfl)
    | peer from_ => exact .marked rfl hmark (.inl rfl)

theorem sameNumbers_cacheMessage (s : State) (id topic frame : Bytes) :
    SameNumbers s (s.cacheMessage id topic frame) := by
  unfold cacheMessage
  split <;> exact ⟨rfl, rfl, rfl, rfl⟩

theorem later_silent {s s' : State} {th : Point} {next : List Point} (hsame : SameNumbers s s')
    (hnext : next = [] ∨ ∃ stage, next = [⟨stage, th.job⟩] ∧ stage ≠ .marking ∧
      ∀ a : Act, a.awaits stage = true → a.awaits th.stage = true) : Later s th ⟨s', [], next⟩ := by
  refine ⟨hsame, rfl, rfl, .inl rfl, ?_, nofun,
    nofun, ?_, ?_⟩
  · obtain rfl | ⟨stage, rfl, -⟩ := hnext
    · exact Nat.zero_le 1
    · exact le_refl 1
  · rintro th' hth'
    obtain rfl | ⟨stage, rfl, hstage, hawaits⟩ := hnext
    · exact absurd hth' not_mem_nil
    · obtain rfl := mem_singleton.mp hth'
      exact ⟨rfl, hstage, fun a ha => ⟨hawaits a ha, rfl⟩⟩
  intro a id
  obtain rfl | ⟨stage, rfl, -, hawaits⟩ := hnext
  · exact Nat.zero_le _
  · simp only [done, filterMap_nil, count_nil, Nat.zero_add, pending, awaited, filterMap_cons]
    cases ha : a.awaits stage with
    | false => exact Nat.zero_le _
    | true => simp [hawaits a ha]

theorem later_act {s : State} {th : Point} {next : List Point} {e : Effect} (a : Act)
    (hof : ∀ b : Act, b.of e = if b = a then some th.job.id else none) (hmarked : e.markedId = none)
    (htaken : e.takenSeqno = none) (honward : e.Onward) (hawaits : a.awaits th.stage = true)
    (hnext : next = [] ∨ ∃ stage, next = [⟨stage, th.job⟩] ∧ stage ≠ .marking ∧
      a.awaits stage = false ∧ ∀ b : Act, b.awaits stage = true → b.awaits th.stage = true) :
    Later s th ⟨s, [e], next⟩ := by
  have hdone (b : Act) : b.done [e] = if b = a then [th.job.id] else [] := by
    simp only [done, filterMap_cons, hof b]
    split_ifs <;> rfl
  refine ⟨⟨rfl, rfl, rfl, rfl⟩, by simp [marks, hmarked], by simp [published, htaken], .inr ⟨e, rfl⟩,
    ?_, forall_mem_singleton.mpr honward, forall_mem_singleton.mpr fun b id hb => ?_, ?_, ?_⟩
  · obtain rfl | ⟨stage, rfl, -⟩ := hnext
    · exact Nat.zero_le 1
    · exact le_refl 1
  · rw [hof b] at hb
    split_ifs at hb with heq
    exact ⟨(Option.some.inj hb).symm, heq ▸ hawaits⟩
  · intro th' hth'
    obtain rfl | ⟨stage, rfl, hstage, hdid, hothers⟩ := hnext
    · exact absurd hth' not_mem_nil
    · obtain rfl := mem_singleton.mp hth'
      refine ⟨rfl, hstage, fun b hb => ⟨hothers b hb, ?_⟩⟩
      rw [hdone b, if_neg]
      rintro rfl
      exact absurd hb (by simp [hdid])
  intro b id
  have hrest : (b.pending next).count id ≤ if b = a then 0 else (b.pending [th]).count id := by
    obtain rfl | ⟨stage, rfl, -, hdid, hothers⟩ := hnext
    · exact Nat.zero_le _
    · cases hb : b.awaits stage with
      | false => simp [pending, awaited, hb]
      | true =>
        rw [if_neg (by rintro rfl; simp [hb] at hdid)]
        simp [pending, awaited, hb, hothers b hb]
  rw [hdone b]
  split_ifs at hrest ⊢ with heq
  · subst heq
    simp only [Nat.le_zero.mp hrest]
    simp [pending, awaited, hawaits]
  · simpa using hrest

theorem ran_exec (s : State) (th : Point) (verdict : ValidationResult) :
    Ran s th (s.exec th verdict) := by
  obtain ⟨stage, j⟩ := th
  cases stage with
  | marking => exact ran_marking s j verdict
  | validating =>
    refine .later nofun (later_silent ⟨rfl, rfl, rfl, rfl⟩ ?_)
    split_ifs
    · exact .inr ⟨.caching, rfl, nofun, fun a _ => by cases a <;> rfl⟩
    · exact .inl rfl
  | caching =>
    exact .later nofun (later_silent (sameNumbers_cacheMessage ..)
      (.inr ⟨.delivering, rfl, nofun, fun a _ => by cases a <;> rfl⟩))
  | delivering =>
    refine .later nofun ?_
    simp only [exec, deliverLocal]
    have hnext (b : Act) : b.awaits .forwarding = true → b.awaits .delivering = true := by
      cases b <;> exact fun _ => rfl
    split_ifs
    · exact later_act .deliver (fun b => by cases b <;> rfl) rfl rfl nofun rfl
        (.inr ⟨.forwarding, rfl, nofun, rfl, hnext⟩)
    · exact later_silent ⟨rfl, rfl, rfl, rfl⟩ (.inr ⟨.forwarding, rfl, nofun, hnext⟩)
  | forwarding =>
    refine .later nofun ?_
    simp only [exec, roundOf]
    cases hsource : j.source with
    | own targets =>
      exact later_act .forward (fun b => by cases b <;> rfl) rfl rfl nofun rfl (.inl rfl)
    | peer from_ =>
      split_ifs
      · refine later_act .forward (fun b => by cases b <;> rfl) rfl rfl ?_ rfl (.inl rfl)
        rintro id p targets frame heq
        obtain ⟨-, hp, rfl, -⟩ := Effect.round.inj heq
        rw [Option.some.inj hp]
        exact Finset.notMem_erase _ _
      · exact later_silent ⟨rfl, rfl, rfl, rfl⟩ (.inl rfl)

/-! ## The invariant -/

/-- The sequence number of a message of ours that is to be marked. -/
def Point.unmarked (th : Point) : Option UInt64 :=
  match th.stage, th.job.source with
  | .marking, .own _ => some th.job.seqno
  | _, _ => none

/-- The sequence numbers of the messages of ours that are to be marked. -/
def unmarked (threads : List Point) : List UInt64 := threads.filterMap Point.unmarked

theorem unmarked_append (l l' : List Point) : unmarked (l ++ l') = unmarked l ++ unmarked l' :=
  filterMap_append

theorem makeId_injective {p q : PeerId} {m n : UInt64} (h : makeId p m = makeId q n) :
    p = q ∧ m = n := by
  obtain ⟨horigin, hseqno⟩ := append_inj h (by simp [PeerId.bytes])
  have hp := congrArg decode horigin
  have hm := congrArg decode hseqno
  rw [PeerId.bytes, PeerId.bytes, decode_encode (p.isLt), decode_encode (q.isLt)] at hp
  rw [decode_encode (m.toNat_lt), decode_encode (n.toNat_lt)] at hm
  exact ⟨BitVec.eq_of_toNat_eq hp, UInt64.toNat_inj.mp hm⟩

/-- A frame with our own id as its origin carries a number that `publish` has come to mark. -/
def OwnFramesKnown (c : Snapshot) : Move ValidationResult Call → Prop
  | .call (.gossip _ payload _) =>
    match parse payload with
    | some (.publish origin seqno _ _) =>
      origin = c.shared.localId → makeId origin seqno ∈ marks c.trace
    | _ => True
  | _ => True

/-- What holds throughout a run of a node with this configuration, id and first sequence number. -/
structure Sound (cfg : Config) (me : PeerId) (first : UInt64) (c : Snapshot) : Prop where
  config : c.shared.config = cfg
  localId : c.shared.localId = me
  tracks : Tracks cfg.seenLimit (marks c.trace) c.shared.seen
  seqno : c.shared.seqno = first + UInt64.ofNat (published c.trace).length
  numbers : ∀ q ∈ published c.trace, ∃ i < (published c.trace).length, q = first + UInt64.ofNat i
  origin : ∀ th ∈ c.threads, ∀ q, th.unmarked = some q → th.job.origin = me ∧ th.job.seqno = q
  nodup : (unmarked c.threads).Nodup
  taken : ∀ q ∈ unmarked c.threads, q ∈ published c.trace
  own : ∀ q, makeId me q ∈ marks c.trace → q ∈ published c.trace ∧ q ∉ unmarked c.threads
  frames : ∀ th ∈ c.threads, th.stage = .marking → th.unmarked = none → th.job.origin = me →
    th.job.id ∈ marks c.trace
  counts : ∀ (a : Act) id,
    (a.done c.trace).count id + (a.pending c.threads).count id ≤ (marks c.trace).count id

section

variable {cfg : Config} {me : PeerId} {first : UInt64} {s s' : State}
  {threads rest next : List Point} {trace effects : List Effect} {th : Point}

theorem sound_start (cfg : Config) (me : PeerId) (first : UInt64) :
    Sound cfg me first (start cfg me first) where
  config := rfl
  localId := rfl
  tracks := ⟨drop_nil.symm, nodup_nil, rfl⟩
  seqno := (UInt64.add_zero first).symm
  numbers _ h := absurd h not_mem_nil
  origin _ h := absurd h not_mem_nil
  nodup := nodup_nil
  taken _ h := absurd h not_mem_nil
  own _ h := absurd h not_mem_nil
  frames _ h := absurd h not_mem_nil
  counts _ _ := le_refl 0

theorem Point.unmarked_of_ne (h : th.stage ≠ .marking) : th.unmarked = none := by
  unfold Point.unmarked
  split
  · next hstage _ => exact absurd hstage h
  · rfl

variable (h : Sound cfg me first ⟨s, threads, trace⟩) {targets : Finset PeerId}

include h

theorem Sound.perm {threads' : List Point}
    (hperm : threads.Perm threads') : Sound cfg me first ⟨s, threads', trace⟩ := by
  have hunmarked : (unmarked threads).Perm (unmarked threads') := hperm.filterMap _
  refine ⟨h.config, h.localId, h.tracks, h.seqno, h.numbers,
    fun th hth => h.origin th (hperm.mem_iff.mpr hth), hunmarked.nodup_iff.mp h.nodup,
    fun q hq => h.taken q (hunmarked.mem_iff.mpr hq),
    fun q hq => ⟨(h.own q hq).1, fun hmem => (h.own q hq).2 (hunmarked.mem_iff.mpr hmem)⟩,
    fun th hth => h.frames th (hperm.mem_iff.mpr hth), fun a id => ?_⟩
  have hpending : (a.pending threads).Perm (a.pending threads') := hperm.filterMap _
  rw [← hpending.count_eq id]
  exact h.counts a id

omit h in
theorem unmarked_append_marked (rest : List Point) (hnext : ∀ th ∈ next, th.stage ≠ .marking) :
    unmarked (rest ++ next) = unmarked rest := by
  have hnil : unmarked next = [] :=
    filterMap_eq_nil_iff.mpr fun th hth => Point.unmarked_of_ne (hnext th hth)
  rw [unmarked_append, hnil, append_nil]

omit h in
theorem Sound.goOn (gone : List Point) (h : Sound cfg me first ⟨s, gone ++ rest, trace⟩)
    (hsame : SameNumbers s s') (hmarks : marks effects = []) (hpublished : published effects = [])
    (hnext : ∀ th ∈ next, th.stage ≠ .marking) (hcounts : ∀ (a : Act) id,
      (a.done effects).count id + (a.pending next).count id ≤ (a.pending gone).count id) :
    Sound cfg me first ⟨s', rest ++ next, trace ++ effects⟩ := by
  have hunmarked := unmarked_append_marked rest hnext
  have hsub : (unmarked rest).Sublist (unmarked (gone ++ rest)) :=
    (sublist_append_right ..).filterMap _
  have hm : marks (trace ++ effects) = marks trace := by rw [marks_append, hmarks, append_nil]
  have hp : published (trace ++ effects) = published trace := by
    rw [published_append, hpublished, append_nil]
  refine ⟨hsame.config.trans h.config, hsame.localId.trans h.localId, ?_, ?_, ?_, fun th hth => ?_,
    ?_, ?_, ?_, fun th hth hstage => ?_, fun a id => ?_⟩
  · simp only [hm, hsame.seen]
    exact h.tracks
  · simp only [hp, hsame.seqno]
    exact h.seqno
  · simp only [hp]
    exact h.numbers
  · obtain hth | hth := mem_append.mp hth
    · exact h.origin th (mem_append_right _ hth)
    · rw [Point.unmarked_of_ne (hnext th hth)]
      exact fun _ => nofun
  · simp only [hunmarked]
    exact h.nodup.sublist hsub
  · simp only [hp, hunmarked]
    exact fun q hq => h.taken q (hsub.subset hq)
  · simp only [hm, hp, hunmarked]
    exact fun q hq => ⟨(h.own q hq).1, fun hmem => (h.own q hq).2 (hsub.subset hmem)⟩
  · simp only [hm]
    obtain hth | hth := mem_append.mp hth
    · exact h.frames th (mem_append_right _ hth) hstage
    · exact absurd hstage (hnext th hth)
  · have hbefore := h.counts a id
    have hstep := hcounts a id
    simp only [hm, pending_append, done_append, count_append] at hbefore ⊢
    omega

omit h in
theorem Sound.mark (h : Sound cfg me first ⟨s, th :: rest, trace⟩) (hstage : th.stage = .marking)
    {seen : Seen Bytes} (hmark : s.seen.mark s.config.seenLimit th.job.id = some seen) {stage : Stage}
    (hnext : stage = .validating ∨ stage = .caching) : Sound cfg me first
      ⟨{ s with seen }, rest ++ [⟨stage, th.job⟩], trace ++ [.marked th.job.id]⟩ := by
  have hm : marks (trace ++ [.marked th.job.id]) = marks trace ++ [th.job.id] := marks_append ..
  have hp : published (trace ++ [.marked th.job.id]) = published trace := by
    rw [published_append]
    exact append_nil _
  have hnew : stage ≠ .marking := by obtain rfl | rfl := hnext <;> nofun
  have hunmarked := unmarked_append_marked rest
    (forall_mem_singleton.mpr (show (⟨stage, th.job⟩ : Point).stage ≠ .marking from hnew))
  have hsub : (unmarked rest).Sublist (unmarked (th :: rest)) :=
    (sublist_cons_self th rest).filterMap _
  refine ⟨h.config, h.localId, ?_, ?_, ?_, fun th' hth' => ?_, ?_, ?_, fun q hq => ?_,
    fun th' hth' hstage' => ?_, fun a id => ?_⟩
  · simp only [hm]
    have hconfig : s.config = cfg := h.config
    exact h.tracks.mark (hconfig ▸ hmark)
  · simp only [hp]
    exact h.seqno
  · simp only [hp]
    exact h.numbers
  · obtain hth' | hth' := mem_append.mp hth'
    · exact h.origin th' (.tail _ hth')
    · obtain rfl := mem_singleton.mp hth'
      rw [Point.unmarked_of_ne hnew]
      exact fun _ => nofun
  · simp only [hunmarked]
    exact h.nodup.sublist hsub
  · simp only [hp, hunmarked]
    exact fun q hq => h.taken q (hsub.subset hq)
  · simp only [hm, hp, hunmarked] at hq ⊢
    have hold (hq : makeId me q ∈ marks trace) : q ∈ published trace ∧ q ∉ unmarked rest :=
      ⟨(h.own q hq).1, fun hmem => (h.own q hq).2 (hsub.subset hmem)⟩
    obtain hq | hq := mem_append.mp hq
    · exact hold hq
    -- the message has an id of ours: either it is ours, or it was marked before
    have hid : makeId me q = th.job.id := mem_singleton.mp hq
    obtain ⟨horigin, hseqno⟩ := makeId_injective hid
    cases hours : th.unmarked with
    | none => exact hold (hid ▸ h.frames th (.head _) hstage hours horigin.symm)
    | some q' =>
      have heq : q = q' := hseqno.trans (h.origin th (.head _) q' hours).2
      have hcons : unmarked (th :: rest) = q :: unmarked rest := by
        rw [unmarked, filterMap_cons_some hours, heq]
        rfl
      have hnodup := hcons ▸ h.nodup
      exact ⟨h.taken q (hcons ▸ (.head _)), (nodup_cons.mp hnodup).1⟩
  · simp only [hm]
    obtain hth' | hth' := mem_append.mp hth'
    · exact fun hnone horigin => mem_append_left _
        (h.frames th' (.tail _ hth') hstage' hnone horigin)
    · obtain rfl := mem_singleton.mp hth'
      exact absurd hstage' hnew
  have hbefore := h.counts a id
  have hwaiting : a.pending (th :: rest) = a.pending rest := by
    refine filterMap_cons_none ?_
    rw [awaited, hstage]
    cases a <;> rfl
  have hnow : (a.pending [⟨stage, th.job⟩]).count id ≤ [th.job.id].count id := by
    rw [pending, filterMap_cons, awaited]
    split_ifs
    · exact le_refl _
    · exact Nat.zero_le _
  have hdone : a.done (trace ++ [.marked th.job.id]) = a.done trace := by
    rw [done_append]
    cases a <;> exact append_nil _
  simp only [hwaiting] at hbefore
  simp only [hm, hdone, pending_append, count_append]
  omega

theorem Sound.fresh (hth : th ∈ threads) (hstage : th.stage = .marking)
    (hown : th.job.source = .own targets) : th.job.id ∉ s.seen.seen := by
  intro hseen
  have hours : th.unmarked = some th.job.seqno := by simp [Point.unmarked, hstage, hown]
  have hmarked : th.job.id ∈ marks trace := by
    rw [h.tracks.seen, mem_toFinset, h.tracks.order] at hseen
    exact mem_of_mem_drop hseen
  have hid : th.job.id = makeId me th.job.seqno := by
    rw [Job.id, (h.origin th hth _ hours).1]
  exact (h.own _ (hid ▸ hmarked)).2 (mem_filterMap.mpr ⟨th, hth, hours⟩)

omit h in
theorem Act.pending_append_marking (a : Act) (threads : List Point) (j : Job) :
    a.pending (threads ++ [⟨.marking, j⟩]) = a.pending threads := by
  rw [pending_append]
  cases a <;> exact append_nil _

theorem Sound.seqno_fresh
    (hfew : (published trace).length < 2 ^ 64) : s.seqno ∉ published trace := by
  intro hmem
  obtain ⟨i, hi, heq⟩ := h.numbers _ hmem
  have hsame : UInt64.ofNat (published trace).length = UInt64.ofNat i :=
    (UInt64.add_right_inj first).mp (h.seqno.symm.trans heq)
  have hnat := congrArg UInt64.toNat hsame
  simp only at hi
  rw [UInt64.toNat_ofNat_of_lt' hfew, UInt64.toNat_ofNat_of_lt' (hi.trans hfew)] at hnat
  omega

omit h in
theorem sameNumbers_publishTargets (s : State) (r : Sampler) (topic : Bytes) (now : ℤ) :
    SameNumbers s (s.publishTargets r topic now).1 := by
  unfold publishTargets
  split_ifs <;> exact ⟨rfl, rfl, rfl, rfl⟩

theorem Sound.publish
    (hfew : (published trace).length < 2 ^ 64) (hsame : SameNumbers { s with seqno := s.seqno + 1 } s')
    {j : Job} (horigin : j.origin = s.localId) (hseqno : j.seqno = s.seqno)
    (hsource : j.source = .own targets) :
    Sound cfg me first ⟨s', threads ++ [⟨.marking, j⟩], trace ++ [.taken s.seqno]⟩ := by
  have hfresh := h.seqno_fresh hfew
  have hm : marks (trace ++ [.taken s.seqno]) = marks trace := by
    rw [marks_append]
    exact append_nil _
  have hp : published (trace ++ [.taken s.seqno]) = published trace ++ [s.seqno] := published_append ..
  have hours : (⟨.marking, j⟩ : Point).unmarked = some s.seqno := by
    simp [Point.unmarked, hsource, hseqno]
  have hunmarked : unmarked (threads ++ [⟨.marking, j⟩]) = unmarked threads ++ [s.seqno] := by
    rw [unmarked_append]
    exact congrArg _ (filterMap_cons_some hours)
  refine ⟨hsame.config.trans h.config, hsame.localId.trans h.localId, ?_, ?_, fun q hq => ?_,
    fun th hth q hq => ?_, ?_, fun q hq => ?_, fun q hq => ?_, fun th hth hstage hnone => ?_,
    fun a id => ?_⟩
  · simp only [hm, hsame.seen]
    exact h.tracks
  · have hnow : s.seqno = first + UInt64.ofNat (published trace).length := h.seqno
    simp only [hp, hsame.seqno, length_append]
    rw [hnow, UInt64.ofNat_add, UInt64.add_assoc]
    rfl
  · simp only [hp, length_append, mem_append] at hq ⊢
    obtain hq | hq := hq
    · obtain ⟨i, hi, heq⟩ := h.numbers q hq
      exact ⟨i, Nat.lt_succ_of_lt hi, heq⟩
    · exact ⟨_, Nat.lt_succ_self _, (mem_singleton.mp hq).trans h.seqno⟩
  · obtain hth | hth := mem_append.mp hth
    · exact h.origin th hth q hq
    · obtain rfl := mem_singleton.mp hth
      exact ⟨horigin.trans h.localId, hseqno.trans (Option.mem_unique hours hq)⟩
  · simp only [hunmarked]
    rw [← concat_eq_append]
    exact h.nodup.concat fun hmem => hfresh (h.taken _ hmem)
  · simp only [hp, hunmarked, mem_append] at hq ⊢
    exact hq.imp_left (h.taken q)
  · simp only [hm, hp, hunmarked, mem_append, mem_singleton] at hq ⊢
    obtain ⟨htaken, hmarked⟩ := h.own q hq
    refine ⟨.inl htaken, ?_⟩
    rintro (hmem | rfl)
    · exact hmarked hmem
    · exact hfresh htaken
  · simp only [hm]
    obtain hth | hth := mem_append.mp hth
    · exact h.frames th hth hstage hnone
    · obtain rfl := mem_singleton.mp hth
      exact absurd (hours.symm.trans hnone) nofun
  · have hdone : a.done (trace ++ [.taken s.seqno]) = a.done trace := by
      rw [done_append]
      cases a <;> exact append_nil _
    simp only [hm, hdone, pending_append_marking]
    exact h.counts a id

theorem Sound.frame {j : Job} {from_ : PeerId}
    (hsource : j.source = .peer from_) (hknown : j.origin = me → j.id ∈ marks trace) :
    Sound cfg me first ⟨s, threads ++ [⟨.marking, j⟩], trace⟩ := by
  have hnone : (⟨.marking, j⟩ : Point).unmarked = none := by simp [Point.unmarked, hsource]
  have hunmarked : unmarked (threads ++ [⟨.marking, j⟩]) = unmarked threads := by
    rw [unmarked_append]
    exact (congrArg _ (filterMap_cons_none hnone)).trans (append_nil _)
  refine ⟨h.config, h.localId, h.tracks, h.seqno, h.numbers, fun th hth q hq => ?_, ?_, ?_, ?_,
    fun th hth => ?_, fun a id => ?_⟩
  · obtain hth | hth := mem_append.mp hth
    · exact h.origin th hth q hq
    · obtain rfl := mem_singleton.mp hth
      exact absurd (hnone.symm.trans hq) nofun
  · simp only [hunmarked]
    exact h.nodup
  · simp only [hunmarked]
    exact h.taken
  · simp only [hunmarked]
    exact h.own
  · obtain hth | hth := mem_append.mp hth
    · exact h.frames th hth
    · obtain rfl := mem_singleton.mp hth
      exact fun _ _ => hknown
  · simp only [pending_append_marking]
    exact h.counts a id

theorem Sound.entered {x : Call}
    (hok : OwnFramesKnown ⟨s, threads, trace⟩ (.call x)) (hfew : (published trace).length < 2 ^ 64)
    {o : Done} (ho : Entered s x o) :
    Sound cfg me first ⟨o.shared, threads ++ o.next, trace ++ o.effects⟩ := by
  cases ho with
  | publish topic data r now =>
    exact h.publish hfew (sameNumbers_publishTargets ..) rfl rfl rfl
  | frame hparse =>
    simp only [OwnFramesKnown, hparse] at hok
    rw [append_nil]
    exact h.frame rfl fun horigin => hok (horigin.trans h.localId.symm)
  | idle hidle =>
    exact Sound.goOn [] h hidle.same hidle.marks hidle.published
      nofun fun a id => by rw [hidle.done a]; exact le_refl 0

omit h

theorem Sound.ran (h : Sound cfg me first ⟨s, th :: rest, trace⟩) {o : Done}
    (ho : Ran s th o) : Sound cfg me first ⟨o.shared, rest ++ o.next, trace ++ o.effects⟩ := by
  cases ho with
  | marked hmarking hmark hstage => exact h.mark hmarking hmark hstage
  | known hmarking =>
    exact Sound.goOn [th] h ⟨rfl, rfl, rfl, rfl⟩ rfl rfl nofun fun a id => Nat.zero_le _
  | ownKnown hmarking hown hseen =>
    exact absurd hseen (h.fresh (.head _) hmarking hown)
  | later hmarked hlater =>
    exact Sound.goOn [th] h hlater.same hlater.marks hlater.published
      (fun th' hth' => (hlater.next th' hth').2.1) hlater.counts

end

end Librats.PubSub
