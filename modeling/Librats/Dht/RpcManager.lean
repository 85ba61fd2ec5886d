import Librats.Dht.Krpc
import Librats.Dht.RoutingTable
import Librats.Foundations.Lists

/-!
# Outstanding queries

The `RpcManager` of `dht/rpc_manager.cpp`. An observer is known by a number; its callbacks can
invoke and cancel any observers and set their flags. `tick` collects the overdue observers and then
calls them, also those that a callback has cancelled meanwhile (`called_after_cancel`).
-/

namespace Librats.Dht

open List AList

/-- An observer, by its identity. -/
abbrev ObserverId := ℕ

/-- A query in flight. -/
structure Pending where
  obs : ObserverId
  endpoint : Address
  sent : TimePoint
  deriving DecidableEq

/-- `RpcManager`, with the field `txn_` of the observers, which only it uses. -/
structure RpcManager where
  pending : AList fun _ : UInt16 => Pending
  txn : ObserverId → UInt16

open RpcManager

/-- What `handle_response` calls. -/
inductive Outcome
  | response (rtt : ℕ)
  | timeout
  deriving DecidableEq

/-- A millisecond, in ticks of the clock. -/
def msec : ℤ := 1000000

def kShortTimeout : ℤ := 2000 * msec

def kFullTimeout : ℤ := 15000 * msec

def txnToString (t : UInt16) : Bytes := [(t >>> 8).toUInt8, t.toUInt8]

def stringToTxn : Bytes → Option UInt16
  | [a, b] => some (a.toUInt16 <<< 8 ||| b.toUInt16)
  | _ => none

namespace RpcManager

def empty : RpcManager := ⟨∅, fun _ => 0⟩

/-- `next_txn`: the first of `n` draws not in use, or else one more draw. -/
def nextTxn (r : RpcManager) : ℕ → (ℕ → UInt16) → UInt16
  | 0, draws => draws 0
  | n + 1, draws => if draws 0 ∈ r.pending then r.nextTxn n fun k => draws (k + 1) else draws 0

/-- `invoke`: the transaction id that was drawn and the manager that awaits the reply, or nothing if
the message cannot be encoded. -/
def invoke (r : RpcManager) (draws : ℕ → UInt16) (msg : KrpcMessage) (to_ : Address)
    (obs : ObserverId) (now : TimePoint) : Option (UInt16 × RpcManager) :=
  let t := r.nextTxn 65536 draws
  if Krpc.encodeMessage { msg with transactionId := txnToString t } = [] then none
  else some (t, ⟨r.pending.insert t ⟨obs, to_, now⟩, Function.update r.txn obs t⟩)

/-- The round trip in milliseconds, as far as 16 bits hold it. -/
def rttOf (p : Pending) (now : TimePoint) : ℕ :=
  let elapsed := (now - p.sent).tdiv msec
  if elapsed < 0 then 0 else min elapsed.toNat 0xfffe

/-- `handle_response`: the observer that is called, and how. -/
def handleResponse (r : RpcManager) (msg : KrpcMessage) (from_ : Address) (now : TimePoint) :
    Option (RpcManager × ObserverId × Outcome) :=
  match stringToTxn msg.transactionId with
  | none => none
  | some t =>
    match r.pending.lookup t with
    | none => none
    | some p =>
      if p.endpoint ≠ from_ then none
      else
        some ({ r with pending := r.pending.erase t }, p.obs,
          if msg.type = .error then .timeout else .response (rttOf p now))

def cancel (r : RpcManager) (obs : ObserverId) : RpcManager :=
  match r.pending.lookup (r.txn obs) with
  | some p => if p.obs = obs then { r with pending := r.pending.erase (r.txn obs) } else r
  | none => r

/-- The queries of a list that have been out for the full timeout. -/
def fulls (now : TimePoint) (l : List Pending) : List ObserverId :=
  (l.filter fun p => kFullTimeout ≤ now - p.sent).map (·.obs)

/-- The queries that have been out for the short timeout only, and were not told so. -/
def shorts (now : TimePoint) (flagged : ObserverId → Bool) (l : List Pending) : List ObserverId :=
  (l.filter fun p => ¬kFullTimeout ≤ now - p.sent ∧ kShortTimeout ≤ now - p.sent ∧
    ¬flagged p.obs).map (·.obs)

end RpcManager

/-! ## Runs -/

/-- What is done with observers. -/
inductive Event
  | invoked (obs : ObserverId) (t : UInt16) (to_ : Address)
  | cancelled (obs : ObserverId)
  | response (obs : ObserverId) (msg : KrpcMessage) (from_ : Address)
  | timeout (obs : ObserverId)
  | shortTimeout (obs : ObserverId)
  deriving DecidableEq

namespace Event

/-- The observer that is called back. -/
def calls : Event → Option ObserverId
  | .response obs _ _ | .timeout obs | .shortTimeout obs => some obs
  | .invoked _ _ _ | .cancelled _ => none

/-- The observer whose query is resolved. -/
def resolves : Event → Option ObserverId
  | .response obs _ _ | .timeout obs => some obs
  | _ => none

/-- The observer that is invoked. -/
def invokes : Event → Option ObserverId
  | .invoked obs _ _ => some obs
  | _ => none

end Event

/-- A manager between two steps: the flags `kShortTimeout`, the observers a `tick` in progress has
yet to call, and what was done. -/
structure Queries where
  rpc : RpcManager
  flagged : ObserverId → Bool
  shorts : List ObserverId
  fulls : List ObserverId
  log : List Event

open Queries

/-- A step of a run. The first three are the owner's, between two calls of the manager or inside a
callback; `next` is the next callback of a `tick`, which goes through the map in any order. -/
inductive QueryStep
  | invoke (draws : ℕ → UInt16) (msg : KrpcMessage) (to_ : Address) (obs : ObserverId)
      (now : TimePoint)
  | cancel (obs : ObserverId)
  | flag (obs : ObserverId)
  | reply (msg : KrpcMessage) (from_ : Address) (now : TimePoint)
  | tick (now : TimePoint) (order : List Pending)
  | next

namespace Queries

def new : Queries := ⟨.empty, fun _ => false, [], [], []⟩

variable (s : Queries)

/-- The observers that a `tick` in progress has yet to call. -/
def waiting : List ObserverId := s.shorts ++ s.fulls

/-- The queries in flight. -/
def inFlight : List Pending := s.rpc.pending.entries.map (·.2)

/-- One step, if it is possible. -/
def step : QueryStep → Option Queries
  | .invoke draws msg to_ obs now =>
    match s.rpc.invoke draws msg to_ obs now with
    | none => some s
    | some (t, rpc) => some { s with rpc, log := s.log ++ [.invoked obs t to_] }
  | .cancel obs =>
    some { s with rpc := s.rpc.cancel obs, log := s.log ++ [.cancelled obs] }
  | .flag obs => some { s with flagged := Function.update s.flagged obs true }
  | .reply msg from_ now =>
    if s.waiting ≠ [] then none
    else
      match s.rpc.handleResponse msg from_ now with
      | none => some s
      | some (rpc, obs, .timeout) => some { s with rpc, log := s.log ++ [.timeout obs] }
      | some (rpc, obs, .response _) => some { s with rpc, log := s.log ++ [.response obs msg from_] }
  | .tick now order =>
    if s.waiting = [] ∧ order.Perm s.inFlight then
      some { s with
        shorts := RpcManager.shorts now s.flagged order
        fulls := RpcManager.fulls now order }
    else none
  | .next =>
    match s.shorts, s.fulls with
    | obs :: shorts, _ => some { s with shorts, log := s.log ++ [.shortTimeout obs] }
    | [], obs :: fulls =>
      some { s with rpc := s.rpc.cancel obs, fulls, log := s.log ++ [.timeout obs] }
    | [], [] => none

/-- The steps one after the other. -/
def run (steps : List QueryStep) : Option Queries := steps.foldlM step s

end Queries

/-! ## What holds of a run -/

/-- The query of an observer was sent, and neither cancelled since nor resolved. -/
def InFlight (log : List Event) (obs : ObserverId) (t : UInt16) (to_ : Address) : Prop :=
  (∀ e ∈ log, e.resolves ≠ some obs) ∧
    ∃ before after, log = before ++ .invoked obs t to_ :: after ∧ .cancelled obs ∉ after

/-- A callback is made while the query is in flight, and a response has the transaction id and comes
from the endpoint of the query. -/
def Justified (log : List Event) (e : Event) : Prop :=
  ∀ obs, e.calls = some obs → ∃ t to_, InFlight log obs t to_ ∧
    ∀ msg from_, e = .response obs msg from_ → stringToTxn msg.transactionId = some t ∧ from_ = to_

/-- No observer is invoked twice, and none is cancelled that a `tick` in progress has yet to call.
-/
def Orderly (s : Queries) : QueryStep → Prop
  | .invoke _ _ _ obs _ => ∀ e ∈ s.log, e.invokes ≠ some obs
  | .cancel obs => obs ∉ s.waiting
  | _ => True

instance (s : Queries) (a : QueryStep) : Decidable (Orderly s a) :=
  match a with
  | .invoke _ _ _ _ _ => inferInstanceAs (Decidable (∀ e ∈ s.log, _))
  | .cancel obs => inferInstanceAs (Decidable (obs ∉ s.waiting))
  | .flag _ | .reply _ _ _ | .tick _ _ | .next => isTrue trivial

/-- The invariant. -/
structure Tidy (s : Queries) : Prop where
  pending : ∀ t p, s.rpc.pending.lookup t = some p →
    InFlight s.log p.obs t p.endpoint ∧ s.rpc.txn p.obs = t
  waiting : ∀ obs ∈ s.waiting, ∃ t to_, InFlight s.log obs t to_
  nodup : s.waiting.Nodup
  invoked : ∀ obs, (∀ e ∈ s.log, e.invokes ≠ some obs) → ∀ e ∈ s.log, e.resolves ≠ some obs
  resolved : ∀ obs, s.log.countP (fun e => e.resolves = some obs) ≤ 1
  justified : Chronicle Justified s.log

section

variable {s s' : Queries} {log : List Event} {e : Event} {obs : ObserverId} {t : UInt16}
  {to_ : Address} {p : Pending}

theorem Event.calls_of_resolves (h : e.resolves = some obs) : e.calls = some obs := by
  cases e <;> first | exact h | cases h

theorem InFlight.mem (h : InFlight log obs t to_) : .invoked obs t to_ ∈ log := by
  obtain ⟨-, before, after, rfl, -⟩ := h
  simp

theorem InFlight.concat (h : InFlight log obs t to_) (hresolves : e.resolves ≠ some obs)
    (hcancelled : e ≠ .cancelled obs) : InFlight (log ++ [e]) obs t to_ := by
  obtain ⟨hopen, before, after, rfl, hafter⟩ := h
  refine ⟨fun x hx => ?_, before, after ++ [e], by simp, ?_⟩
  · obtain hx | hx := mem_append.mp hx
    · exact hopen x hx
    · rwa [mem_singleton.mp hx]
  · simp only [mem_append, mem_singleton, not_or]
    exact ⟨hafter, hcancelled.symm⟩

theorem InFlight.start (h : ∀ e ∈ log, e.resolves ≠ some obs) (t : UInt16) (to_ : Address) :
    InFlight (log ++ [.invoked obs t to_]) obs t to_ := by
  refine ⟨fun x hx => ?_, log, [], rfl, not_mem_nil⟩
  obtain hx | hx := mem_append.mp hx
  · exact h x hx
  · rw [mem_singleton.mp hx]
    exact Option.some_ne_none obs |>.symm

variable {rpc : RpcManager} {msg : KrpcMessage} {now : TimePoint} {from_ : Address} {out : Outcome}

theorem Tidy.concat (h : Tidy s) {flagged : ObserverId → Bool} {shorts fulls : List ObserverId}
    (hjustified : Justified s.log e) (hpending : ∀ t p, rpc.pending.lookup t = some p →
      InFlight (s.log ++ [e]) p.obs t p.endpoint ∧ rpc.txn p.obs = t)
    (hwaiting : ∀ obs ∈ shorts ++ fulls, ∃ t to_, InFlight (s.log ++ [e]) obs t to_)
    (hnodup : (shorts ++ fulls).Nodup) : Tidy ⟨rpc, flagged, shorts, fulls, s.log ++ [e]⟩ := by
  refine ⟨hpending, hwaiting, hnodup, fun obs hobs x hx => ?_, fun obs => ?_,
    h.justified.concat hjustified⟩
  · simp only [mem_append, mem_singleton] at hobs hx
    obtain hx | rfl := hx
    · exact h.invoked obs (fun y hy => hobs y (.inl hy)) x hx
    · intro hresolves
      obtain ⟨t, to_, hflight, -⟩ := hjustified obs (Event.calls_of_resolves hresolves)
      exact hobs _ (.inl hflight.mem) rfl
  · rw [countP_append]
    by_cases hresolves : e.resolves = some obs
    · obtain ⟨t, to_, hflight, -⟩ := hjustified obs (Event.calls_of_resolves hresolves)
      rw [countP_eq_zero.mpr fun x hx => by simpa using hflight.1 x hx, Nat.zero_add]
      exact countP_le_length
    · simpa [hresolves] using h.resolved obs

theorem Tidy.lookup_cancel (h : Tidy s) (hp : (s.rpc.cancel obs).pending.lookup t = some p) :
    s.rpc.pending.lookup t = some p ∧ p.obs ≠ obs := by
  unfold cancel at hp
  cases hfound : s.rpc.pending.lookup (s.rpc.txn obs) with
  | none =>
    simp only [hfound] at hp
    refine ⟨hp, fun heq => ?_⟩
    have htxn := (h.pending t p hp).2
    rw [heq] at htxn
    rw [htxn, hp] at hfound
    cases hfound
  | some q =>
    simp only [hfound] at hp
    split_ifs at hp with hq
    · obtain ⟨hne, hp⟩ := AssocList.lookup_of_erase hp
      refine ⟨hp, fun heq => hne ?_⟩
      rw [← heq]
      exact (h.pending t p hp).2.symm
    · refine ⟨hp, fun heq => hq ?_⟩
      have htxn := (h.pending t p hp).2
      rw [heq] at htxn
      rw [htxn, hp] at hfound
      rw [← Option.some.inj hfound, heq]

theorem RpcManager.cancel_txn (r : RpcManager) (obs : ObserverId) : (r.cancel obs).txn = r.txn := by
  unfold cancel
  split
  · split_ifs <;> rfl
  · rfl

theorem Tidy.invoke (h : Tidy s) {draws : ℕ → UInt16} (hfresh : ∀ e ∈ s.log, e.invokes ≠ some obs)
    (heq : s.rpc.invoke draws msg to_ obs now = some (t, rpc)) :
    Tidy { s with rpc, log := s.log ++ [.invoked obs t to_] } := by
  simp only [RpcManager.invoke] at heq
  split_ifs at heq
  obtain ⟨rfl, rfl⟩ := Prod.mk.inj (Option.some.inj heq)
  have hother {obs' : ObserverId} {t' : UInt16} {to' : Address} (hflight : InFlight s.log obs' t' to') :
      InFlight (s.log ++ [.invoked obs (s.rpc.nextTxn 65536 draws) to_]) obs' t' to' :=
    hflight.concat nofun nofun
  refine h.concat nofun (fun t' p hp => ?_) (fun obs' hobs' => ?_) h.nodup
  · obtain ⟨rfl, rfl⟩ | ⟨-, hp⟩ := AssocList.lookup_of_insert hp
    · exact ⟨.start (h.invoked obs hfresh) _ to_, Function.update_self ..⟩
    · obtain ⟨hflight, htxn⟩ := h.pending t' p hp
      have hne : p.obs ≠ obs := fun heq => hfresh _ hflight.mem (congrArg some heq)
      exact ⟨hother hflight, (Function.update_of_ne hne ..).trans htxn⟩
  · obtain ⟨t', to', hflight⟩ := h.waiting obs' hobs'
    exact ⟨t', to', hother hflight⟩

theorem Tidy.cancel (h : Tidy s) {fulls : List ObserverId} (hjustified : Justified s.log e)
    (hevent : ∀ obs', obs' ≠ obs → e.resolves ≠ some obs' ∧ e ≠ .cancelled obs')
    (hfulls : ∀ obs' ∈ s.shorts ++ fulls, obs' ∈ s.waiting ∧ obs' ≠ obs)
    (hnodup : (s.shorts ++ fulls).Nodup) :
    Tidy { s with rpc := s.rpc.cancel obs, fulls, log := s.log ++ [e] } := by
  refine h.concat hjustified (fun t p hp => ?_) (fun obs' hobs' => ?_) hnodup
  · obtain ⟨hp, hne⟩ := h.lookup_cancel hp
    obtain ⟨hflight, htxn⟩ := h.pending t p hp
    obtain ⟨hresolves, hcancelled⟩ := hevent p.obs hne
    exact ⟨hflight.concat hresolves hcancelled, by rwa [cancel_txn]⟩
  · obtain ⟨hmem, hne⟩ := hfulls obs' hobs'
    obtain ⟨t, to_, hflight⟩ := h.waiting obs' hmem
    obtain ⟨hresolves, hcancelled⟩ := hevent obs' hne
    exact ⟨t, to_, hflight.concat hresolves hcancelled⟩

theorem handleResponse_spec {r : RpcManager}
    (heq : r.handleResponse msg from_ now = some (rpc, obs, out)) :
    ∃ t p, stringToTxn msg.transactionId = some t ∧ r.pending.lookup t = some p ∧ p.obs = obs ∧
      p.endpoint = from_ ∧ rpc = { r with pending := r.pending.erase t } := by
  unfold handleResponse at heq
  split at heq
  · cases heq
  rename_i t ht
  split at heq
  · cases heq
  · rename_i p hp
    by_cases hfrom : p.endpoint = from_
    · rw [if_neg (not_not.mpr hfrom), Option.some.injEq, Prod.mk.injEq, Prod.mk.injEq] at heq
      exact ⟨t, p, ht, hp, heq.2.1, hfrom, heq.1.symm⟩
    · rw [if_pos hfrom] at heq
      cases heq

theorem Tidy.reply (h : Tidy s) (hidle : s.waiting = [])
    (heq : s.rpc.handleResponse msg from_ now = some (rpc, obs, out))
    (hevent : e = .timeout obs ∨ e = .response obs msg from_) :
    Tidy { s with rpc, log := s.log ++ [e] } := by
  obtain ⟨t, p, ht, hp, rfl, rfl, rfl⟩ := handleResponse_spec heq
  obtain ⟨hflight, htxn⟩ := h.pending t p hp
  have hresolves : e.resolves = some p.obs := by
    obtain rfl | rfl := hevent <;> rfl
  refine h.concat (fun obs hcalls => ?_) (fun t' p' hp' => ?_) (fun obs hobs => ?_) h.nodup
  · obtain rfl : p.obs = obs := by
      rw [Event.calls_of_resolves hresolves] at hcalls
      exact Option.some.inj hcalls
    refine ⟨t, p.endpoint, hflight, fun msg' from' hresponse => ?_⟩
    obtain rfl | rfl := hevent
    · cases hresponse
    · obtain ⟨-, rfl, rfl⟩ := Event.response.inj hresponse
      exact ⟨ht, rfl⟩
  · obtain ⟨hne, hp'⟩ := AssocList.lookup_of_erase hp'
    obtain ⟨hflight', htxn'⟩ := h.pending t' p' hp'
    have hobs : p.obs ≠ p'.obs := fun heq => hne (by rw [← htxn', ← heq, htxn])
    refine ⟨hflight'.concat (by rw [hresolves]; simpa using hobs) ?_, htxn'⟩
    obtain rfl | rfl := hevent <;> exact nofun
  · rw [Queries.waiting] at hidle
    rw [hidle] at hobs
    cases hobs

theorem mem_inFlight (hp : p ∈ s.inFlight) : ∃ t, s.rpc.pending.lookup t = some p := by
  obtain ⟨⟨t, q⟩, hq, rfl⟩ := mem_map.mp hp
  exact ⟨t, mem_lookup_iff.mpr hq⟩

theorem Tidy.nodup_inFlight (h : Tidy s) : (s.inFlight.map (·.obs)).Nodup := by
  rw [inFlight, map_map]
  refine List.Nodup.map_on (fun x hx y hy heq => ?_) s.rpc.pending.nodupKeys.nodup
  obtain ⟨t, p⟩ := x
  obtain ⟨t', p'⟩ := y
  have hlookup := mem_lookup_iff.mpr hx
  have htxn := (h.pending t p hlookup).2
  have htxn' := (h.pending t' p' (mem_lookup_iff.mpr hy)).2
  obtain rfl : t = t' := by
    rw [← htxn, ← htxn']
    exact congrArg s.rpc.txn heq
  have hlookup' := mem_lookup_iff.mpr hy
  rw [Option.mem_unique hlookup hlookup']

theorem nodup_shorts_fulls {l : List Pending} (h : (l.map (·.obs)).Nodup) (now : TimePoint)
    (flagged : ObserverId → Bool) : (shorts now flagged l ++ fulls now l).Nodup := by
  refine (h.sublist (filter_sublist.map _)).append (h.sublist (filter_sublist.map _)) ?_
  rintro obs hshort hfull
  obtain ⟨p, hp, rfl⟩ := mem_map.mp hshort
  obtain ⟨q, hq, heq⟩ := mem_map.mp hfull
  obtain ⟨hq, hlate⟩ := mem_filter.mp hq
  obtain ⟨hp, hearly⟩ := mem_filter.mp hp
  obtain rfl := inj_on_of_nodup_map h hq hp heq
  exact (of_decide_eq_true hearly).1 (of_decide_eq_true hlate)

theorem Tidy.tick (h : Tidy s) {order : List Pending} (horder : order.Perm s.inFlight) :
    Tidy { s with
      shorts := shorts now s.flagged order
      fulls := fulls now order } := by
  have hnodup : (order.map (·.obs)).Nodup :=
    (horder.map _).nodup_iff.mpr h.nodup_inFlight
  refine ⟨h.pending, fun obs hobs => ?_, nodup_shorts_fulls hnodup now s.flagged, h.invoked,
    h.resolved, h.justified⟩
  have hmem : ∃ p ∈ order, p.obs = obs := by
    obtain hobs | hobs := mem_append.mp hobs
    all_goals
      obtain ⟨p, hp, heq⟩ := mem_map.mp hobs
      exact ⟨p, (mem_filter.mp hp).1, heq⟩
  obtain ⟨p, hp, rfl⟩ := hmem
  obtain ⟨t, ht⟩ := mem_inFlight (horder.mem_iff.mp hp)
  exact ⟨t, p.endpoint, (h.pending t p ht).1⟩

theorem Tidy.next (h : Tidy s) (heq : s.step .next = some s') : Tidy s' := by
  have hcall (obs : ObserverId) (hobs : obs ∈ s.waiting) {e : Event}
      (hresponse : ∀ msg from_, e ≠ .response obs msg from_) (hcalls : e.calls = some obs) :
      Justified s.log e := by
    intro obs' hobs'
    obtain rfl := Option.mem_unique hcalls hobs'
    obtain ⟨t, to_, hflight⟩ := h.waiting obs hobs
    exact ⟨t, to_, hflight, fun msg from_ he => absurd he (hresponse msg from_)⟩
  have hnodup := h.nodup
  simp only [step] at heq
  split at heq
  · rename_i obs shorts hshorts
    cases heq
    have hwaiting : s.waiting = obs :: (shorts ++ s.fulls) := by rw [Queries.waiting, hshorts]; rfl
    rw [hwaiting] at hnodup
    refine h.concat (hcall obs (by simp [hwaiting]) (fun _ _ => nofun) rfl)
      (fun t p hp => ?_) (fun obs' hobs' => ?_) (nodup_cons.mp hnodup).2
    · obtain ⟨hflight, htxn⟩ := h.pending t p hp
      exact ⟨hflight.concat nofun nofun, htxn⟩
    · obtain ⟨t, to_, hflight⟩ := h.waiting obs' (by rw [hwaiting]; exact .tail _ hobs')
      exact ⟨t, to_, hflight.concat nofun nofun⟩
  · rename_i obs fulls hshorts hfulls
    cases heq
    have hwaiting : s.waiting = obs :: fulls := by rw [Queries.waiting, hshorts, hfulls]; rfl
    rw [hwaiting] at hnodup
    obtain ⟨hobs, hnodup⟩ := nodup_cons.mp hnodup
    refine h.cancel (hcall obs (by simp [hwaiting]) (fun _ _ => nofun) rfl)
      (fun obs' hne => ⟨fun hr => hne (Option.some.inj hr).symm, nofun⟩)
      (fun obs' hobs' => ?_) (by rwa [hshorts])
    rw [hshorts] at hobs'
    exact ⟨by rw [hwaiting]; exact .tail _ hobs', fun heq => hobs (heq ▸ hobs')⟩
  · cases heq

theorem Tidy.step (h : Tidy s) {a : QueryStep} (horderly : Orderly s a)
    (heq : s.step a = some s') : Tidy s' := by
  cases a with
  | invoke draws msg to_ obs now =>
    simp only [Queries.step] at heq
    split at heq
    · exact Option.some.inj heq ▸ h
    · rename_i t rpc hinvoke
      exact Option.some.inj heq ▸ h.invoke horderly hinvoke
  | cancel obs =>
    cases heq
    refine h.cancel nofun (fun obs' hne => ⟨nofun, ?_⟩)
      (fun obs' hobs' => ⟨hobs', fun heq => horderly (heq ▸ hobs')⟩) h.nodup
    exact fun hc => hne (Event.cancelled.inj hc).symm
  | flag obs =>
    cases heq
    exact ⟨h.pending, h.waiting, h.nodup, h.invoked, h.resolved, h.justified⟩
  | reply msg from_ now =>
    simp only [Queries.step] at heq
    split at heq
    · cases heq
    · rename_i hidle
      split at heq
      · exact Option.some.inj heq ▸ h
      · rename_i hresponse
        exact Option.some.inj heq ▸ h.reply (not_not.mp hidle) hresponse (.inl rfl)
      · rename_i hresponse
        exact Option.some.inj heq ▸ h.reply (not_not.mp hidle) hresponse (.inr rfl)
  | tick now order =>
    simp only [Queries.step] at heq
    split_ifs at heq with htick
    exact Option.some.inj heq ▸ h.tick htick.2
  | next => exact h.next heq

end

theorem tidy_new : Tidy .new := by
  refine ⟨?_, ?_, nodup_nil, ?_, fun _ => Nat.zero_le 1, Chronicle.nil⟩
  · exact fun _ _ => nofun
  · exact fun _ => nofun
  · exact fun _ _ _ => nofun

namespace Queries

/-- All steps of a run are orderly. -/
def OrderlyRun : Queries → List QueryStep → Prop
  | _, [] => True
  | s, a :: steps => Orderly s a ∧ ∀ s' ∈ s.step a, OrderlyRun s' steps

instance decidableOrderlyRun :
    (s : Queries) → (steps : List QueryStep) → Decidable (s.OrderlyRun steps)
  | _, [] => isTrue trivial
  | _, _ :: steps =>
    have (s' : Queries) : Decidable (s'.OrderlyRun steps) := decidableOrderlyRun s' steps
    inferInstanceAs (Decidable (_ ∧ _))

theorem tidy_run {s s' : Queries} {steps : List QueryStep} (h : Tidy s)
    (horderly : s.OrderlyRun steps) (heq : s.run steps = some s') : Tidy s' := by
  induction steps generalizing s with
  | nil => exact Option.some.inj heq ▸ h
  | cons a steps ih =>
    obtain ⟨s₁, hstep, hrest⟩ := Option.bind_eq_some_iff.mp heq
    exact ih (h.step horderly.1 hstep) (horderly.2 s₁ hstep) hrest

/-- **Each query resolves at most once**, by a response with its transaction id from its endpoint or
by a timeout, and no cancelled or resolved observer is called, if none is invoked twice or cancelled
that a `tick` in progress has yet to call. -/
theorem resolves_once {s : Queries} {steps : List QueryStep} (horderly : new.OrderlyRun steps)
    (hrun : new.run steps = some s) : (∀ obs, s.log.countP (fun e => e.resolves = some obs) ≤ 1) ∧
      (∀ before obs msg from_ after, s.log = before ++ .response obs msg from_ :: after →
        ∃ t, stringToTxn msg.transactionId = some t ∧ .invoked obs t from_ ∈ before) ∧
      ∀ before e after obs, s.log = before ++ e :: after → e.calls = some obs →
        ∃ t to_, InFlight before obs t to_ := by
  have htidy := tidy_run tidy_new horderly hrun
  refine ⟨htidy.resolved, fun before obs msg from_ after heq => ?_,
    fun before e after obs heq hcalls => ?_⟩
  · obtain ⟨t, to_, hflight, hresponse⟩ := htidy.justified before _ after heq obs rfl
    obtain ⟨ht, rfl⟩ := hresponse msg from_ rfl
    exact ⟨t, ht, hflight.mem⟩
  · obtain ⟨t, to_, hflight, -⟩ := htidy.justified before e after heq obs hcalls
    exact ⟨t, to_, hflight⟩

/-- A node of a test network. -/
def node (port : UInt16) : Address := ⟨.v4 0x08080808, port⟩

/-- Two queries are both out for the short timeout when a `tick` starts. -/
def overdue : List QueryStep :=
  [.invoke (fun _ => 1) {} (node 1) 1 0, .invoke (fun _ => 2) {} (node 2) 2 0,
    .tick kShortTimeout [⟨1, node 1, 0⟩, ⟨2, node 2, 0⟩]]

/-- Both observers are told, the first query is answered, the second times out. -/
theorem resolves_once_overdue : ∃ s, new.run (overdue ++ [.next, .flag 1, .next, .flag 2,
        .reply { type := .response, transactionId := [0, 1] } (node 1) kShortTimeout,
        .tick kFullTimeout [⟨2, node 2, 0⟩], .next]) = some s ∧
      ∀ obs, s.log.countP (fun e => e.resolves = some obs) ≤ 1 := by
  have hrun : (new.run (overdue ++ [.next, .flag 1, .next, .flag 2,
        .reply { type := .response, transactionId := [0, 1] } (node 1) kShortTimeout,
        .tick kFullTimeout [⟨2, node 2, 0⟩], .next])).isSome := by decide +kernel
  obtain ⟨s, hs⟩ := Option.isSome_iff_exists.mp hrun
  exact ⟨s, hs, (resolves_once (by decide +kernel) hs).1⟩

/-- **A callback after a cancellation**: the callback of the first observer cancels the second one,
which `tick` then calls all the same. -/
theorem called_after_cancel : (new.run (overdue ++ [.next, .cancel 2, .next])).map (·.log) =
      some [.invoked 1 1 (node 1), .invoked 2 2 (node 2), .shortTimeout 1, .cancelled 2,
        .shortTimeout 2] := by
  decide +kernel

end Queries

end Librats.Dht
