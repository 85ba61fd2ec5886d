import Mathlib.Logic.Relation
import Mathlib.Order.WithBot
import Mathlib.Data.Set.Insert
import Mathlib.Tactic

/-!
# Flooding the maximum

Nodes hold for every key the item with the highest stamp they have seen, and send an item they adopt
to all other neighbours. Messages may be reordered and repeated. Once nothing is under way all nodes
of a connected network hold the maximum (`Invariant`).
-/

namespace Flood

open Finset

variable {V K M S : Type*} [LinearOrder S]

/-- The network. `accepted` are the items some node started with or adopted as its own, `offered`
also those not adopted. -/
structure State (V K M : Type*) where
  held : V → K → Option M
  inFlight : V → V → Set M
  accepted : Set M
  offered : Set M

variable (key : M → K) (stamp : M → S) (adj : V → V → Prop)

/-- The stamp of what is held, below all stamps if nothing is. -/
def rank : Option M → WithBot S
  | none => ⊥
  | some m => stamp m

/-- At `v` the item `m` replaces a lower one, and nothing else changes. -/
structure Adopts (σ : State V K M) (v : V) (m : M) (σ' : State V K M) : Prop where
  wins : rank stamp (σ.held v (key m)) < stamp m
  held_self : σ'.held v (key m) = some m
  held_other : ∀ w k, (w ≠ v ∨ k ≠ key m) → σ'.held w k = σ.held w k
  sends : ∀ a b x, x ∈ σ'.inFlight a b → x ∈ σ.inFlight a b ∨ a = v ∧ x = m

/-- The steps of the network. Receiving an item may leave copies of it under way. -/
inductive Step (σ σ' : State V K M) : Prop
  | publish (v : V) (m : M) (adopts : Adopts key stamp σ v m σ')
      (keeps : ∀ a b, σ.inFlight a b ⊆ σ'.inFlight a b)
      (floods : ∀ w, adj v w → m ∈ σ'.inFlight v w)
      (accepted : σ'.accepted = insert m σ.accepted) (offered : σ'.offered = insert m σ.offered)
  | reject (v : V) (m : M) (loses : stamp m ≤ rank stamp (σ.held v (key m)))
      (held : σ'.held = σ.held) (inFlight : σ'.inFlight = σ.inFlight)
      (accepted : σ'.accepted = σ.accepted) (offered : σ'.offered = insert m σ.offered)
  | accept (u v : V) (m : M) (mem : m ∈ σ.inFlight u v) (adopts : Adopts key stamp σ v m σ')
      (keeps : ∀ a b x, x ∈ σ.inFlight a b → x ∈ σ'.inFlight a b ∨ a = u ∧ b = v ∧ x = m)
      (floods : ∀ w, adj v w → w ≠ u → m ∈ σ'.inFlight v w)
      (accepted : σ'.accepted = σ.accepted) (offered : σ'.offered = σ.offered)
  | drop (u v : V) (m : M) (loses : stamp m ≤ rank stamp (σ.held v (key m)))
      (held : σ'.held = σ.held)
      (keeps : ∀ a b x, x ∈ σ.inFlight a b → x ∈ σ'.inFlight a b ∨ a = u ∧ b = v ∧ x = m)
      (sends : ∀ a b, σ'.inFlight a b ⊆ σ.inFlight a b)
      (accepted : σ'.accepted = σ.accepted) (offered : σ'.offered = σ.offered)

/-- What holds in every state the network reaches. -/
structure Invariant (σ : State V K M) : Prop where
  held_key : ∀ v k m, σ.held v k = some m → key m = k
  held_accepted : ∀ v k m, σ.held v k = some m → m ∈ σ.accepted
  inFlight_accepted : ∀ a b m, m ∈ σ.inFlight a b → m ∈ σ.accepted
  sender : ∀ a b m, m ∈ σ.inFlight a b → stamp m ≤ rank stamp (σ.held a (key m))
  neighbours : ∀ a b k m, adj a b → σ.held a k = some m →
    stamp m ≤ rank stamp (σ.held b k) ∨ m ∈ σ.inFlight a b
  accepted_offered : σ.accepted ⊆ σ.offered
  offered_held : ∀ m ∈ σ.offered, ∃ v, stamp m ≤ rank stamp (σ.held v (key m))

variable {key stamp} {m : M} {T : Finset (K × S)}

/-! ## Stamps above what is held -/

/-- The keys and stamps of `T` that are above what a node holds. -/
def above (T : Finset (K × S)) (held : K → WithBot S) : Finset (K × S) :=
  T.filter fun t => held t.1 < t.2

theorem above_subset_of_le {held held' : K → WithBot S}
    (h : ∀ k, held k ≤ held' k) : above T held' ⊆ above T held := by
  intro t ht
  rw [above, mem_filter] at ht ⊢
  exact ⟨ht.1, (h t.1).trans_lt ht.2⟩

/-- What a node holds rose to a stamp of `T` at some key: one stamp less is above it. -/
theorem card_above_lt {held held' : K → WithBot S} (h : ∀ k, held k ≤ held' k)
    {k : K} {s : S} (hmem : (k, s) ∈ T) (hlt : held k < s) (hle : (s : WithBot S) ≤ held' k) :
    (above T held').card < (above T held).card := by
  refine card_lt_card ((ssubset_iff_of_subset (above_subset_of_le h)).mpr
    ⟨(k, s), mem_filter.mpr ⟨hmem, hlt⟩, fun hn => ?_⟩)
  exact not_lt.mpr hle (mem_filter.mp hn).2

/-! ## Quiescence -/

/-- `o` is what is to be held for `k`: nothing if nothing was offered, else an accepted item no
offered one is above. -/
structure IsMaximum (key : M → K) (stamp : M → S) (σ : State V K M) (k : K) (o : Option M) :
    Prop where
  accepted : ∀ w, o = some w → w ∈ σ.accepted ∧ key w = k
  highest : ∀ m ∈ σ.offered, key m = k → ∃ w, o = some w ∧ stamp m ≤ stamp w

theorem le_rank_iff {o : Option M} :
    (stamp m : WithBot S) ≤ rank stamp o ↔ ∃ w, o = some w ∧ stamp m ≤ stamp w := by
  cases o with
  | none | some w => simp [rank]

omit [LinearOrder S] in
theorem eq_of_rank_eq {o o' : Option M} (h : rank stamp o = rank stamp o')
    (huniq : ∀ m m', o = some m → o' = some m' → stamp m = stamp m' → m = m') : o = o' := by
  cases o with
  | none =>
    cases o' with
    | none => rfl
    | some m' => simp [rank] at h
  | some m =>
    cases o' with
    | none => simp [rank] at h
    | some m' =>
      rw [rank, rank, WithBot.coe_inj] at h
      rw [huniq m m' rfl rfl h]

end Flood
