import Librats.Dht.RoutingTable

/-!
# Announced peers

`PeerStore` (`dht/storage.cpp`): the peers that announced themselves for an info-hash, in the order
they came. A peer that announces itself again stays where it is, and the first one is dropped when
there are too many. A hash without peers has the empty list.
-/

namespace Librats.Dht

open List

/-- `PeerStore::Entry`. -/
structure PeerEntry where
  peer : Address
  added : TimePoint
deriving DecidableEq

abbrev PeerStore := NodeId → List PeerEntry

namespace PeerStore

/-- `kPeerTtl`, in nanoseconds. -/
def kPeerTtl : ℤ := 30 * 60 * 10 ^ 9

def kMaxPeersPerHash : ℕ := 128

variable (peer : Address) (now : TimePoint)

/-- The body of the loop of `store`, which ends at a known peer. -/
def refresh (e : PeerEntry) : Option PeerEntry :=
  if e.peer = peer then some { e with added := now } else none

/-- What `store` does to the peers of its hash. -/
def announce (l : List PeerEntry) : List PeerEntry :=
  if l.any (·.peer = peer) then l.replaceF (refresh peer now)
  else
    let l' := l ++ [PeerEntry.mk peer now]
    if kMaxPeersPerHash < l'.length then l'.tail else l'

def store (s : PeerStore) (infoHash : NodeId) : PeerStore :=
  Function.update s infoHash (announce peer now (s infoHash))

def expire (s : PeerStore) : PeerStore := fun infoHash =>
  (s infoHash).filter fun e => now - e.added ≤ kPeerTtl

inductive Call
  | store (infoHash : NodeId) (peer : Address)
  | expire

def call (s : PeerStore) : TimePoint × Call → PeerStore
  | (now, .store infoHash peer) => s.store peer now infoHash
  | (now, .expire) => s.expire now

def run (calls : List (TimePoint × Call)) : PeerStore := calls.foldl call fun _ => []

/-- A known peer stays in its place; a new one goes to the end, and the first may be dropped. -/
theorem announce_cases (l : List PeerEntry) :
    (∃ a e b, l = a ++ e :: b ∧ e.peer = peer ∧ announce peer now l = a ++ ⟨peer, now⟩ :: b) ∨
    (∀ e ∈ l, e.peer ≠ peer) ∧ ∃ n ≤ 1, (kMaxPeersPerHash ≤ l.length → n = 1) ∧
      announce peer now l = drop n (l ++ [⟨peer, now⟩]) := by
  dsimp only [announce]
  split_ifs with hany hfull
  · obtain ⟨e, he, hpeer⟩ := any_eq_true.mp hany
    have hknown : refresh peer now e = some { e with added := now } :=
      if_pos (of_decide_eq_true hpeer)
    obtain ⟨e, e', a, b, -, he, hl, heq⟩ := exists_of_replaceF he hknown
    unfold refresh at he
    split_ifs at he with hpeer
    exact .inl ⟨a, e, b, hl, hpeer, by rw [heq, ← Option.some.inj he, hpeer]⟩
  all_goals
    have hne : ∀ e ∈ l, e.peer ≠ peer := by simpa using hany
    rw [length_append, length_singleton] at hfull
  · exact .inr ⟨hne, 1, le_rfl, fun _ => rfl, drop_one.symm⟩
  · exact .inr ⟨hne, 0, zero_le_one, fun h => absurd (Nat.lt_succ_of_le h) hfull, rfl⟩

variable {peer now} {l : List PeerEntry}

/-- The peers are distinct and not too many. -/
def Bounded (l : List PeerEntry) : Prop := (l.map (·.peer)).Nodup ∧ l.length ≤ kMaxPeersPerHash

theorem Bounded.announce (h : Bounded l) : Bounded (announce peer now l) := by
  obtain ⟨hnodup, hlength⟩ := h
  obtain ⟨a, e, b, rfl, rfl, heq⟩ | ⟨hne, n, -, hfull, heq⟩ := announce_cases peer now l
  · exact heq ▸ ⟨by simpa using hnodup, by simpa using hlength⟩
  · have hpush : ((l ++ [PeerEntry.mk peer now]).map (·.peer)).Nodup := by
      rw [map_append, nodup_append]
      exact ⟨hnodup, nodup_singleton _, by simpa using hne⟩
    refine heq ▸ ⟨hpush.sublist ((drop_sublist n _).map _), ?_⟩
    rw [length_drop, length_append, length_singleton]
    omega

theorem Bounded.sublist {l' : List PeerEntry} (h : Bounded l) (hl : l' <+ l) : Bounded l' :=
  ⟨h.1.sublist (hl.map _), hl.length_le.trans h.2⟩

theorem dropped_eq_head {e : PeerEntry} (he : e ∈ l)
    (hdropped : ∀ e' ∈ announce peer now l, e'.peer ≠ e.peer) : l.head? = some e := by
  obtain ⟨a, e', b, rfl, rfl, heq⟩ | ⟨-, n, hn, -, heq⟩ := announce_cases peer now l
  all_goals rw [heq] at hdropped
  · obtain he | rfl | he := by simpa using he
    · exact absurd rfl (hdropped e (by simp [he]))
    · exact absurd rfl (hdropped ⟨e.peer, now⟩ (by simp))
    · exact absurd rfl (hdropped e (by simp [he]))
  · obtain rfl | rfl := Nat.le_one_iff_eq_zero_or_eq_one.mp hn
    · exact absurd rfl (hdropped e (mem_append_left _ he))
    · cases he with
      | head => rfl
      | tail _ he => exact absurd rfl (hdropped e (mem_append_left _ he))

/-- The peers are in the order of their last announces, none after a time. -/
def InOrder (t : TimePoint) (l : List PeerEntry) : Prop :=
  l.Pairwise (·.added ≤ ·.added) ∧ ∀ e ∈ l, e.added ≤ t

theorem InOrder.sublist {l' : List PeerEntry} (h : InOrder now l) (hl : l' <+ l) : InOrder now l' :=
  ⟨h.1.sublist hl, fun e he => h.2 e (hl.subset he)⟩

theorem InOrder.push (h : InOrder now l) (peer : Address) : InOrder now (l ++ [⟨peer, now⟩]) := by
  refine ⟨pairwise_append.mpr ⟨h.1, pairwise_singleton _ _, fun x hx y hy => ?_⟩,
    forall_mem_append.mpr ⟨h.2, by simp⟩⟩
  rw [mem_singleton.mp hy]
  exact h.2 x hx

theorem InOrder.announce (h : InOrder now l) (hlast : ∀ e ∈ l.dropLast, e.peer ≠ peer) :
    InOrder now (announce peer now l) := by
  obtain ⟨a, e, b, rfl, he, heq⟩ | ⟨-, n, -, -, heq⟩ := announce_cases peer now l
  all_goals rw [heq]
  · cases b with
    | nil => exact (h.sublist (sublist_append_left a [e])).push peer
    | cons c b => exact absurd he (hlast e (by simp))
  · exact (h.push peer).sublist (drop_sublist n _)

theorem call_rec {P : List PeerEntry → Prop} {s : PeerStore} {c : TimePoint × Call}
    (hs : ∀ infoHash, P (s infoHash))
    (hstore : ∀ infoHash peer, c.2 = .store infoHash peer → P (announce peer c.1 (s infoHash)))
    (hexpire : ∀ l l', P l → l' <+ l → P l') (infoHash : NodeId) : P (s.call c infoHash) := by
  obtain ⟨now, _ | _⟩ := c
  · rw [call, store, Function.update_apply]
    split_ifs
    · exact hstore _ _ rfl
    · exact hs infoHash
  · exact hexpire _ _ (hs infoHash) filter_sublist

/-- A peer announces itself again only while it is the last in the list. -/
def Orderly (calls : List (TimePoint × Call)) : Prop :=
  ∀ earlier now infoHash peer, earlier ++ [(now, .store infoHash peer)] <+: calls →
    ∀ e ∈ (run earlier infoHash).dropLast, e.peer ≠ peer

theorem kept_run {calls : List (TimePoint × Call)} (hcalls : calls.Pairwise (·.1 ≤ ·.1))
    (hnow : ∀ c ∈ calls, c.1 ≤ now) (infoHash : NodeId) : Bounded (run calls infoHash) ∧
      (Orderly calls → InOrder now (run calls infoHash)) := by
  induction calls using reverseRecOn generalizing now infoHash with
  | nil => exact ⟨⟨nodup_nil, Nat.zero_le _⟩, fun _ => ⟨Pairwise.nil, nofun⟩⟩
  | append_singleton calls c ih =>
    obtain ⟨hcalls, -, hc⟩ := pairwise_append.mp hcalls
    have hbefore := ih hcalls fun c' hc' => hc c' hc' c (mem_singleton_self c)
    have horderly (ho : Orderly (calls ++ [c])) : Orderly calls := fun a t i p h =>
      ho a t i p (h.trans (prefix_append _ _))
    rw [run, foldl_concat]
    have hafter := call_rec (P := fun l => Bounded l ∧ (Orderly (calls ++ [c]) → InOrder c.1 l))
      (fun i => (hbefore i).imp_right fun h ho => h (horderly ho))
      (fun i p h => ⟨(hbefore i).1.announce, fun ho => ((hbefore i).2 (horderly ho)).announce
        (ho calls c.1 i p (h ▸ prefix_rfl))⟩)
      (fun _ _ h hl => ⟨h.1.sublist hl, fun ho => (h.2 ho).sublist hl⟩) infoHash
    refine hafter.imp_right fun h ho => ⟨(h ho).1, fun e he => ?_⟩
    exact ((h ho).2 e he).trans (hnow c (by simp))

/-- **An info-hash keeps at most `kMaxPeersPerHash` distinct peers, and as long as no peer but the
last one announces itself again, the one that `store` drops has the oldest announce.** -/
theorem oldest_dropped (calls : List (TimePoint × Call)) (now : TimePoint) (infoHash : NodeId)
    (peer : Address) (htimes : (calls ++ [(now, Call.store infoHash peer)]).Pairwise (·.1 ≤ ·.1)) :
    Bounded (run calls infoHash) ∧ (Orderly calls → ∀ e ∈ run calls infoHash,
      (∀ e' ∈ run (calls ++ [(now, .store infoHash peer)]) infoHash, e'.peer ≠ e.peer) →
      ∀ e' ∈ run calls infoHash, e.added ≤ e'.added) := by
  obtain ⟨hcalls, -, hnow⟩ := pairwise_append.mp htimes
  have hkept := kept_run hcalls (fun c hc => hnow c hc _ (mem_singleton_self _)) infoHash
  refine ⟨hkept.1, fun horderly e he hdropped => ?_⟩
  have hsorted := (hkept.2 horderly).1
  have hafter : run (calls ++ [(now, .store infoHash peer)]) infoHash =
      announce peer now (run calls infoHash) := by
    rw [run, foldl_concat]
    exact Function.update_self ..
  have hhead := dropped_eq_head he (hafter ▸ hdropped)
  obtain ⟨l, hl⟩ := head?_eq_some_iff.mp hhead
  rw [hl] at hsorted ⊢
  exact forall_mem_cons.mpr ⟨le_rfl, (pairwise_cons.mp hsorted).1⟩

theorem mem_run {calls : List (TimePoint × Call)} {infoHash : NodeId} {e : PeerEntry}
    (he : e ∈ run calls infoHash) : Call.store infoHash e.peer ∈ calls.map Prod.snd := by
  induction calls using reverseRecOn generalizing e with
  | nil => cases he
  | append_singleton calls c ih =>
    obtain ⟨now, _ | _⟩ := c
    all_goals
      rw [run, foldl_concat] at he
      rw [map_append, mem_append]
    · rename_i hash peer
      by_cases hhash : infoHash = hash
      · subst hhash
        rw [call, store, Function.update_self] at he
        obtain ⟨x, y, z, hl, -, heq⟩ | ⟨-, n, -, -, heq⟩ :=
          announce_cases peer now (run calls infoHash)
        all_goals rw [← run, heq] at he
        · obtain he | rfl | he := by simpa using he
          · exact .inl (ih (by simp [hl, he]))
          · exact .inr (.head _)
          · exact .inl (ih (by simp [hl, he]))
        · obtain he | rfl := by simpa using mem_of_mem_drop he
          · exact .inl (ih he)
          · exact .inr (.head _)
      · rw [call, store, Function.update_of_ne hhash] at he
        exact .inl (ih he)
    · exact .inl (ih (mem_of_mem_filter he))

theorem orderly_of_nodup {calls : List (TimePoint × Call)} (h : (calls.map Prod.snd).Nodup) :
    Orderly calls := by
  rintro earlier now infoHash _ ⟨later, rfl⟩ e he rfl
  rw [map_append, map_append] at h
  have hnew := (nodup_append.mp (nodup_append.mp h).1).2.2
  exact hnew _ (mem_run (mem_of_mem_dropLast he)) _ (.head _) rfl

/-- The peers 0, 1, … announce themselves one after the other. -/
def announces (n : ℕ) : TimePoint × Call := (n, .store 0 ⟨.v4 0x08080808, .ofNat n⟩)

/-- The 129th peer drops the first, the one with the oldest announce. -/
theorem oldest_dropped_first : let calls := (range 128).map announces
    let first : PeerEntry := ⟨⟨.v4 0x08080808, 0⟩, 0⟩
    first ∈ run calls 0 ∧ (∀ e ∈ run (calls ++ [announces 128]) 0, e.peer ≠ first.peer) ∧
      Bounded (run calls 0) ∧ ∀ e ∈ run calls 0, first.added ≤ e.added := by
  intro calls first
  have hin : first ∈ run calls 0 := by decide +kernel
  have hout : ∀ e ∈ run (calls ++ [announces 128]) 0, e.peer ≠ first.peer := by decide +kernel
  have horderly : Orderly calls := by
    refine orderly_of_nodup ?_
    rw [map_map]
    refine nodup_range.map_on fun m hm n hn heq => ?_
    have hport : m % 2 ^ 16 = n % 2 ^ 16 :=
      congrArg (·.port.toNat) (Call.store.inj heq).2
    rw [mem_range] at hm hn
    omega
  obtain ⟨hbounded, holdest⟩ :=
    oldest_dropped calls 128 0 ⟨.v4 0x08080808, 128⟩ (by decide +kernel)
  exact ⟨hin, hout, hbounded, holdest horderly first hin hout⟩

/-- When 128 peers are held and the first announces itself again, it is still the next to go. -/
theorem refreshed_dropped : let peer (port : ℕ) : Address := ⟨.v4 0x08080808, .ofNat port⟩
    let stores (n : ℕ) : TimePoint × Call := (n, .store 0 (peer (n % 128)))
    let calls := (range 129).map stores
    let after := calls ++ [(129, .store 0 (peer 128))]
    after.Pairwise (·.1 ≤ ·.1) ∧ ⟨peer 0, 128⟩ ∈ run calls 0 ∧ ⟨peer 1, 1⟩ ∈ run calls 0 ∧
      ∀ e ∈ run after 0, e.peer ≠ peer 0 := by
  decide +kernel

end PeerStore

end Librats.Dht
