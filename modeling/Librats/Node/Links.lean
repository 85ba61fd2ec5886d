import Librats.Node.Node
import Mathlib.Logic.Relation

/-!
# Two nodes and the links between them

Two nodes without peer limit that share connections (links), each dialed by one of them, and nothing
that fails. Each end of a link becomes established once; an end that was asked to close, or whose
other end is closed, is closed in its turn. All this happens in any order.
-/

namespace Librats

open PeerTable Node Option Function

/-- The two nodes. -/
inductive Side
  | left
  | right
  deriving DecidableEq

/-- The node at the other end. -/
def Side.other : Side → Side
  | .left => .right
  | .right => .left

@[simp] theorem Side.other_other (s : Side) : s.other.other = s := by cases s <;> rfl

theorem Side.eq_or_eq_other (s s' : Side) : s' = s ∨ s' = s.other := by
  cases s <;> cases s' <;> simp [Side.other]

/-- One end of a link. -/
inductive EndState
  | awaiting
  | established
  | closed
  deriving DecidableEq

/-- The connections a list of calls closes. -/
def closes (actions : List Action) : List PeerRoute :=
  actions.filterMap fun
    | .close reactor id _ => some ⟨reactor, id⟩
    | .send _ _ _ => none

theorem closes_append (a b : List Action) : closes (a ++ b) = closes a ++ closes b :=
  List.filterMap_append ..

/-- Two nodes, the links `0, 1, …` they share and who dials which. A link has an end at each node,
on one of its reactors. -/
structure Meeting (H S I : Type) where
  config : Side → Config I
  distinct : ∀ s, (config s.other).identity ≠ (config s).identity
  unlimited : ∀ s, (config s).maxPeers = 0
  /-- The applications close nothing. -/
  passive : ∀ s past, closes ((config s).app past) = []
  links : ℕ
  dialer : ℕ → Side
  reactor : Side → ℕ → ℕ
  /-- The end of a link, once established. -/
  connection : Side → ℕ → Connection H S I
  role_eq : ∀ s c, (connection s c).role = if dialer c = s then .outbound else .inbound
  remote_eq : ∀ s c, (connection s c).remoteId = (config s.other).identity
  route_inj : ∀ s c c', reactor s c = reactor s c' →
    (connection s c).id = (connection s c').id → c = c'

/-- The nodes and the ends of their links. `order` is a ghost: the links as they became established
at a node, the last one first. -/
structure Pair (I : Type) where
  node : Side → Node I
  ends : Side → ℕ → EndState
  marked : Side → ℕ → Bool
  order : Side → List ℕ

/-- Nothing is established yet. -/
def Pair.start {I : Type} : Pair I :=
  ⟨fun _ => ⟨.empty, []⟩, fun _ _ => .awaiting, fun _ _ => false, fun _ => []⟩

namespace Meeting

variable {H S I : Type} (m : Meeting H S I)

/-- The id of a node. -/
def id (s : Side) : I := (m.config s).identity

/-- The configuration of a node as an end of its links sees it. -/
def configAt (s : Side) (c : ℕ) : Config I := (m.config s).on (m.reactor s c)

def route (s : Side) (c : ℕ) : PeerRoute := routeOf (m.configAt s c) (m.connection s c)

/-- The end of a link as `on_closed` sees it, without an id if not established. -/
def closing [Zero I] (p : Pair I) (s : Side) (c : ℕ) : Connection H S I :=
  if p.ends s c = .established then m.connection s c else { m.connection s c with remoteId := 0 }

def role (s : Side) (c : ℕ) : ConnRole := (m.connection s c).role

/-- The route and the direction of the end of a link. -/
def face (s : Side) (c : ℕ) : PeerRoute × ConnRole := (m.route s c, m.role s c)

section

variable {m} {s : Side} {c c' : ℕ}

theorem infoOf_id : (infoOf (m.configAt s c) (m.connection s c)).id = m.id s.other :=
  m.remote_eq s c

theorem route_injective : m.route s c' = m.route s c ↔ c' = c := by
  refine ⟨fun h => ?_, fun h => by rw [h]⟩
  obtain ⟨hreactor, hid⟩ := PeerRoute.mk.inj h
  exact m.route_inj s c' c hreactor hid

theorem face_injective : m.face s c' = m.face s c ↔ c' = c :=
  ⟨fun h => route_injective.mp (Prod.mk.inj h).1, fun h => by rw [h]⟩

end

/-- Nothing is in flight. -/
structure Quiescent (p : Pair I) : Prop where
  settled : ∀ s c, c < m.links → p.ends s c ≠ .awaiting
  executed : ∀ s c, c < m.links → p.marked s c = true → p.ends s c = .closed
  delivered : ∀ s c, c < m.links → p.ends s.other c = .closed → p.ends s c = .closed

section

variable {m} {p : Pair I} (hq : m.Quiescent p) {c : ℕ} (hc : c < m.links)
include hq hc

theorem Quiescent.established {s : Side} (hopen : p.ends s c ≠ .closed) :
    p.ends s c = .established := by
  cases hend : p.ends s c with
  | awaiting => exact absurd hend (hq.settled s c hc)
  | established => rfl
  | closed => exact absurd hend hopen

theorem Quiescent.closed {s : Side} (hclosed : p.ends s c = .closed) (s' : Side) :
    p.ends s' c = .closed := by
  rcases Side.eq_or_eq_other s s' with rfl | rfl
  · exact hclosed
  · refine hq.delivered s.other c hc ?_
    rwa [Side.other_other]

end

variable [LinearOrder I]

section

variable (p : Pair I) (s : Side) (c : ℕ)

/-- What a callback of a node leaves: the node, and a mark on every end it closes that is there. -/
def after (p : Pair I) (s : Side) (result : Node I × List Action) : Pair I :=
  { p with
    node := Function.update p.node s result.1
    marked := fun s' c' => p.marked s' c' ||
      (s' = s ∧ p.ends s c' ≠ .closed ∧ m.route s c' ∈ closes result.2) }

/-- A link becomes established at a node. -/
def establish : Pair I :=
  { m.after p s ((p.node s).onEstablished (m.configAt s c) (m.connection s c)) with
    ends := Function.update p.ends s (Function.update (p.ends s) c .established)
    order := Function.update p.order s (c :: p.order s) }

/-- A frame arrives at a node. -/
def frame (f : Frame) : Pair I :=
  m.after p s ((p.node s).onFrame (m.configAt s c) (m.connection s c) f)

end

section

variable [Zero I]

/-- The end of a link at a node is removed. -/
def finish (p : Pair I) (s : Side) (c : ℕ) (reason : CloseReason) : Pair I :=
  { m.after p s ((p.node s).onClosed (m.configAt s c) (m.closing p s c) reason) with
    ends := Function.update p.ends s (Function.update (p.ends s) c .closed) }

/-- What can happen next. -/
inductive Step : Pair I → Pair I → Prop
  | establish {p s c} (hc : c < m.links) (h : p.ends s c = .awaiting) : Step p (m.establish p s c)
  | frame {p s c f} (hc : c < m.links) (h : p.ends s c = .established) : Step p (m.frame p s c f)
  /-- A close the node asked for. -/
  | close {p s c} (hc : c < m.links) (h : p.marked s c = true) (hopen : p.ends s c ≠ .closed) :
    Step p (m.finish p s c .duplicateConn)
  /-- The other end is closed. -/
  | fin {p s c} (hc : c < m.links) (h : p.ends s.other c = .closed) (hopen : p.ends s c ≠ .closed) :
    Step p (m.finish p s c .peerClosed)

/-- The states two nodes can reach. -/
def Reachable (p : Pair I) : Prop := Relation.ReflTransGen m.Step .start p

variable {m} {p : Pair I}

section

variable (h : m.Reachable p) (s : Side) (c : ℕ)

include h

theorem Reachable.establish (hc : c < m.links) (hawait : p.ends s c = .awaiting) :
    m.Reachable (m.establish p s c) :=
  .tail h (.establish hc hawait)

theorem Reachable.close (hc : c < m.links) (hmark : p.marked s c = true)
    (hopen : p.ends s c ≠ .closed) : m.Reachable (m.finish p s c .duplicateConn) :=
  .tail h (.close hc hmark hopen)

theorem Reachable.fin (hc : c < m.links) (hother : p.ends s.other c = .closed)
    (hopen : p.ends s c ≠ .closed) : m.Reachable (m.finish p s c .peerClosed) :=
  .tail h (.fin hc hother hopen)

end

end

variable {p : Pair I} {m} {s : Side} {c : ℕ}

theorem admits (n : Node I) : (m.connection s c).remoteId ≠ (m.configAt s c).identity ∧
    ¬beyondLimit (m.configAt s c) n (m.connection s c) = true := by
  refine ⟨?_, by simp [beyondLimit, configAt, Config.on, m.unlimited s]⟩
  rw [m.remote_eq]
  exact m.distinct s

/-! ## One end -/

variable (m)

/-- The route and the direction a node has registered for the other. -/
def current (p : Pair I) (s : Side) : Option (PeerRoute × ConnRole) :=
  ((p.node s).peers.peers.lookup (m.id s.other)).map fun e => (e.route, e.info.direction)

/-- What `peers_.add` registers, and what it wants closed. -/
def resolved (p : Pair I) (s : Side) (c : ℕ) : (PeerRoute × ConnRole) × Option PeerRoute :=
  let r := resolve ((p.node s).peers.peers.lookup (m.id s.other))
    (infoOf (m.configAt s c) (m.connection s c)) (m.route s c) (m.id s < m.id s.other)
  ((r.1.route, r.1.info.direction), r.2.close)

variable {m}

theorem route_other : (p.node s).peers.route (m.id s.other) = (m.current p s).map Prod.fst := by
  rw [current, map_map]
  rfl

theorem register_eq : register (m.configAt s c) (p.node s) (m.connection s c) =
    (p.node s).peers.add (infoOf (m.configAt s c) (m.connection s c)) (m.route s c)
      (m.id s < m.id s.other) := by
  rw [register, m.remote_eq]
  rfl

theorem peers_onEstablished :
    ((p.node s).onEstablished (m.configAt s c) (m.connection s c)).1.peers =
      (register (m.configAt s c) (p.node s) (m.connection s c)).1 := by
  obtain ⟨hself, hlimit⟩ := admits (p.node s)
  rw [onEstablished, if_neg hself, if_neg hlimit]
  dsimp only
  split <;> rfl

theorem current_establish (s' : Side) : m.current (m.establish p s c) s' =
    if s' = s then some (m.resolved p s c).1 else m.current p s' := by
  simp only [current, establish, after]
  split_ifs with hs
  · subst hs
    rw [update_self, peers_onEstablished, register_eq, lookup_add, infoOf_id, if_pos rfl]
    rfl
  · rw [update_of_ne hs]

omit [LinearOrder I] in
theorem closes_fire (n : Node I) (e : NodeEvent I) : closes (fire (m.configAt s c) n e).2 = [] :=
  m.passive s _

/-- The calls of `on_established` close the loser of the race and nothing else. -/
theorem closes_onEstablished :
    closes ((p.node s).onEstablished (m.configAt s c) (m.connection s c)).2 =
      (m.resolved p s c).2.toList := by
  have hloser : (register (m.configAt s c) (p.node s) (m.connection s c)).2.close =
      (m.resolved p s c).2 := by
    rw [register_eq, outcome_add, infoOf_id]
    rfl
  have hclose : closes (closeLoser (register (m.configAt s c) (p.node s) (m.connection s c)).2) =
      (m.resolved p s c).2.toList := by
    rw [← hloser, closeLoser]
    cases (register (m.configAt s c) (p.node s) (m.connection s c)).2.close <;> rfl
  obtain ⟨hself, hlimit⟩ := admits (p.node s)
  rw [onEstablished, if_neg hself, if_neg hlimit]
  dsimp only
  split
  · exact hclose
  · rw [closes_append, closes_append, hclose]
    rw [closes_fire, List.append_nil]
    exact List.append_nil _
  all_goals rw [closes_append, hclose]; exact List.append_nil _

theorem marked_establish (s' : Side) (c' : ℕ) : (m.establish p s c).marked s' c' = true ↔
    p.marked s' c' = true ∨ s' = s ∧ p.ends s c' ≠ .closed ∧
      (m.resolved p s c).2 = some (m.route s c') := by
  simp only [establish, after, closes_onEstablished, Bool.or_eq_true, decide_eq_true_iff, mem_toList]

omit [LinearOrder I] in
theorem marked_after {result : Node I × List Action} (h : closes result.2 = []) :
    (m.after p s result).marked = p.marked := by
  funext s' c'
  simp [after, h]

theorem marked_frame (f : Frame) : (m.frame p s c f).marked = p.marked := by
  refine marked_after ?_
  unfold onFrame
  split_ifs <;> exact closes_fire ..

theorem marked_finish [Zero I] (reason : CloseReason) :
    (m.finish p s c reason).marked = p.marked := by
  have hcloses : closes ((p.node s).onClosed (m.configAt s c) (m.closing p s c) reason).2 = [] := by
    unfold onClosed
    split_ifs
    · exact closes_fire ..
    · rfl
    split
    · rfl
    · exact closes_fire ..
  exact (marked_after hcloses :)

theorem current_frame (f : Frame) (s' : Side) :
    m.current (m.frame p s c f) s' = m.current p s' := by
  simp only [current, frame, after]
  by_cases hs : s' = s
  · subst hs
    rw [update_self, onFrame]
    split_ifs
    · exact map_lookup_addAddresses (fun _ _ => rfl) ..
    · rfl
  · rw [update_of_ne hs]

theorem peers_onClosed [Zero I] {H S : Type} (cfg : Config I) (n : Node I) (c : Connection H S I)
    (reason : CloseReason) : (n.onClosed cfg c reason).1.peers =
      if c.remoteId = 0 then n.peers else (n.peers.remove c.remoteId (routeOf cfg c)).1 := by
  unfold onClosed
  split_ifs
  · rfl
  · rfl
  split <;> rename_i hr
  · have hroute : n.peers.route c.remoteId ≠ some (routeOf cfg c) := fun heq => by
      rw [← remove_iff, hr] at heq
      cases heq
    rw [remove_eq_of_ne hroute]
  · rw [hr]
    rfl

theorem current_finish [Zero I] (reason : CloseReason) (s' : Side) :
    m.current (m.finish p s c reason) s' =
      if s' = s ∧ p.ends s c = .established ∧ m.id s.other ≠ 0 ∧
        (m.current p s).map Prod.fst = some (m.route s c) then none else m.current p s' := by
  have hremote : (m.connection s c).remoteId = m.id s.other := m.remote_eq s c
  rw [← route_other]
  by_cases hs : s' = s
  · subst hs
    simp only [current, finish, after, update_self, peers_onClosed, closing]
    by_cases hest : p.ends s' c = .established
    · simp only [hest, if_true, hremote]
      by_cases hzero : m.id s'.other = 0
      · simp [hzero]
      · rw [if_neg hzero, lookup_remove]
        simp only [true_and, hzero, ne_eq, not_false_eq_true]
        exact apply_ite (Option.map _) _ _ _
    · simp [hest]
  · simp [current, finish, after, hs]

theorem ends_establish (s' : Side) (c' : ℕ) : (m.establish p s c).ends s' c' =
    if s' = s ∧ c' = c then .established else p.ends s' c' := by
  simp only [establish, update_apply]
  split_ifs <;> simp_all

theorem ends_finish [Zero I] (reason : CloseReason) (s' : Side) (c' : ℕ) :
    (m.finish p s c reason).ends s' c' = if s' = s ∧ c' = c then .closed else p.ends s' c' := by
  simp only [finish, update_apply]
  split_ifs <;> simp_all

variable {c' : ℕ}

/-- A newcomer replaces the registered end: of two links dialed from opposite ends the one dialed by
the smaller id stays, of two from the same end the newcomer. -/
def Supersedes (m : Meeting H S I) (s : Side) (c' c : ℕ) : Prop :=
  m.role s c' ≠ m.role s c → m.role s c = survivor (m.id s < m.id s.other)

theorem keepNew_iff {e : Entry I} (h : e.info.direction = m.role s c') :
    keepNew e (infoOf (m.configAt s c) (m.connection s c)) (m.id s < m.id s.other) = true ↔
      m.Supersedes s c' c := by
  have hdir : (infoOf (m.configAt s c) (m.connection s c)).direction = m.role s c := rfl
  rw [keepNew, h, hdir]
  by_cases hrole : m.role s c' = m.role s c
  · rw [if_neg (not_not.mpr hrole)]
    exact iff_of_true rfl fun hne => absurd hrole hne
  · rw [if_pos hrole, decide_eq_true_eq]
    exact ⟨fun hs _ => hs, fun hs => hs hrole⟩

theorem resolved_none (h : m.current p s = none) : m.resolved p s c = (m.face s c, none) := by
  rw [resolved, map_eq_none_iff.mp h]
  rfl

theorem resolved_self (h : m.current p s = some (m.face s c)) :
    m.resolved p s c = (m.face s c, none) := by
  obtain ⟨e, he, hface⟩ := map_eq_some_iff.mp h
  obtain ⟨hroute, -⟩ := Prod.mk.inj hface
  rw [resolved, he, resolve, if_pos hroute, hroute]
  rfl

theorem resolved_replaced (h : m.current p s = some (m.face s c')) (hne : c' ≠ c)
    (hsup : m.Supersedes s c' c) : m.resolved p s c = (m.face s c, some (m.route s c')) := by
  obtain ⟨e, he, hface⟩ := map_eq_some_iff.mp h
  obtain ⟨hroute, hdir⟩ := Prod.mk.inj hface
  rw [resolved, he, resolve, if_neg (by rwa [hroute, route_injective]),
    if_pos ((keepNew_iff hdir).mpr hsup), hroute]
  rfl

theorem resolved_rejected (h : m.current p s = some (m.face s c')) (hne : c' ≠ c)
    (hsup : ¬m.Supersedes s c' c) : m.resolved p s c = (m.face s c', some (m.route s c)) := by
  obtain ⟨e, he, hface⟩ := map_eq_some_iff.mp h
  obtain ⟨hroute, hdir⟩ := Prod.mk.inj hface
  rw [resolved, he, resolve, if_neg (by rwa [hroute, route_injective]),
    if_neg (mt (keepNew_iff hdir).mp hsup)]
  exact Prod.ext hface rfl

/-! ## Two small nodes -/

/-- The nodes 1 and 2. The node 1 has two reactors and takes turns with them, the node 2 has one; a
node keeps the address it dialed. -/
def twoNodes (links : ℕ) (dialer : ℕ → Side) : Meeting Unit Unit ℕ where
  config
    | .left => ⟨1, 0, 0, some, [1], fun _ => [], fun _ => []⟩
    | .right => ⟨2, 0, 0, some, [2], fun _ => [], fun _ => []⟩
  distinct s := by cases s <;> decide
  unlimited s := by cases s <;> rfl
  passive s _ := by cases s <;> rfl
  links := links
  dialer := dialer
  reactor
    | .left, c => c % 2
    | .right, _ => 0
  connection
    | .left, c => ⟨1 + c / 2, if dialer c = .left then .outbound else .inbound, .established,
        .peerClosed, none, some (), 2, [], none, [127, 0, 0, 1],
        if dialer c = .left then 80 else 0⟩
    | .right, c => ⟨1 + c, if dialer c = .right then .outbound else .inbound, .established,
        .peerClosed, none, some (), 1, [], none, [127, 0, 0, 1],
        if dialer c = .right then 80 else 0⟩
  role_eq s c := by cases s <;> rfl
  remote_eq s c := by cases s <;> rfl
  route_inj s c c' hreactor hid := by
    cases s with
    | left =>
      change c % 2 = c' % 2 at hreactor
      change 1 + c / 2 = 1 + c' / 2 at hid
      omega
    | right => exact Nat.add_left_cancel hid

end Meeting

end Librats
