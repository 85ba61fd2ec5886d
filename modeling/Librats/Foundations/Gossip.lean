import Librats.Foundations.Flood

/-!
# Gossip over links that come up late

As in `Flood`, but when a link comes up, both ends ask the other for all it holds. What one end of a
link holds is not higher than what the other holds, or is under way, or a request for it is
(`Invariant.covered`).
-/

namespace Gossip

open Flood (rank)

variable {V K M S : Type*} [LinearOrder S]

/-- The network. `wanted a b` says that the request of `a` to `b` is under way; `accepted` are the
items some node started with or published. -/
structure State (V K M : Type*) where
  held : V → K → Option M
  inFlight : V → V → Set M
  wanted : V → V → Prop
  adj : V → V → Prop
  accepted : Set M

variable (key : M → K) (stamp : M → S)

/-- The steps of the network. -/
inductive Step (σ σ' : State V K M) : Prop
  | publish (v : V) (m : M) (wins : rank stamp (σ.held v (key m)) < stamp m)
      (held_self : σ'.held v (key m) = some m)
      (held_other : ∀ w k, (w ≠ v ∨ k ≠ key m) → σ'.held w k = σ.held w k)
      (keeps : ∀ a b, σ.inFlight a b ⊆ σ'.inFlight a b)
      (sends : ∀ a b x, x ∈ σ'.inFlight a b → x ∈ σ.inFlight a b ∨ a = v ∧ x = m)
      (floods : ∀ w, σ.adj v w → m ∈ σ'.inFlight v w)
      (wanted : σ'.wanted = σ.wanted) (adj : σ'.adj = σ.adj)
      (accepted : σ'.accepted = insert m σ.accepted)
  | receive (u v : V) (held_other : ∀ w, w ≠ v → σ'.held w = σ.held w)
      (held_self : ∀ k, σ'.held v k = σ.held v k ∨ ∃ m ∈ σ.inFlight u v, key m = k ∧
        rank stamp (σ.held v k) < stamp m ∧ σ'.held v k = some m ∧ ∀ w, σ.adj v w → w ≠ u →
          m ∈ σ'.inFlight v w ∨ stamp m ≤ rank stamp (σ.held w k) ∨ σ.wanted w v)
      (keeps : ∀ a b x, x ∈ σ.inFlight a b →
        x ∈ σ'.inFlight a b ∨ a = u ∧ b = v ∧ stamp x ≤ rank stamp (σ'.held v (key x)))
      (sends : ∀ a b x, x ∈ σ'.inFlight a b →
        x ∈ σ.inFlight a b ∨ a = v ∧ σ'.held v (key x) = some x)
      (wanted : σ'.wanted = σ.wanted) (adj : σ'.adj = σ.adj) (accepted : σ'.accepted = σ.accepted)
  | connect (u v : V) (held : σ'.held = σ.held) (inFlight : σ'.inFlight = σ.inFlight)
      (wanted : ∀ a b, σ.wanted a b → σ'.wanted a b) (wanted_left : σ'.wanted u v)
      (wanted_right : σ'.wanted v u)
      (adj : ∀ a b, σ'.adj a b → σ.adj a b ∨ a = u ∧ b = v ∨ a = v ∧ b = u)
      (accepted : σ'.accepted = σ.accepted)
  | answer (u v : V) (held : σ'.held = σ.held)
      (keeps : ∀ a b, σ.inFlight a b ⊆ σ'.inFlight a b) (sends : ∀ a b x, x ∈ σ'.inFlight a b →
        x ∈ σ.inFlight a b ∨ a = v ∧ σ.held v (key x) = some x)
      (answers : ∀ k m, σ.held v k = some m → m ∈ σ'.inFlight v u)
      (wanted : ∀ a b, σ.wanted a b → σ'.wanted a b ∨ a = u ∧ b = v) (adj : σ'.adj = σ.adj)
      (accepted : σ'.accepted = σ.accepted)

/-- What holds in every state the network reaches. -/
structure Invariant (σ : State V K M) : Prop where
  held_key : ∀ v k m, σ.held v k = some m → key m = k
  held_accepted : ∀ v k m, σ.held v k = some m → m ∈ σ.accepted
  inFlight_accepted : ∀ a b m, m ∈ σ.inFlight a b → m ∈ σ.accepted
  sender : ∀ a b m, m ∈ σ.inFlight a b → stamp m ≤ rank stamp (σ.held a (key m))
  covered : ∀ a b k m, σ.adj a b → σ.held a k = some m →
    stamp m ≤ rank stamp (σ.held b k) ∨ m ∈ σ.inFlight a b ∨ σ.wanted b a

variable {key stamp} {σ σ' : State V K M} (h : Step key stamp σ σ')

include h

theorem Step.rank_le (w : V) (k : K) : rank stamp (σ.held w k) ≤ rank stamp (σ'.held w k) := by
  cases h with
  | publish v m wins held_self held_other =>
    by_cases hw : w = v ∧ k = key m
    · obtain ⟨rfl, rfl⟩ := hw
      rw [held_self]
      exact wins.le
    · rw [held_other w k (not_and_or.mp hw)]
  | receive u v held_other held_self =>
    by_cases hw : w = v
    · subst hw
      rcases held_self k with heq | ⟨m, -, -, hlt, heq, -⟩
      · rw [heq]
      · rw [heq]
        exact hlt.le
    · rw [held_other w hw]
  | connect u v held | answer u v held => rw [held]

variable {k : K} {x : M} {a b : V} (inv : Invariant key stamp σ)

include inv

theorem Step.held_cases {w : V}
    (hx : σ'.held w k = some x) : σ.held w k = some x ∨ key x = k ∧ x ∈ σ'.accepted := by
  cases h with
  | publish v m wins held_self held_other keeps sends floods hwanted hadj haccepted =>
    by_cases hw : w = v ∧ k = key m
    · obtain ⟨rfl, rfl⟩ := hw
      rw [held_self, Option.some_inj] at hx
      subst hx
      exact .inr ⟨rfl, haccepted ▸ Set.mem_insert _ _⟩
    · rw [held_other w k (not_and_or.mp hw)] at hx
      exact .inl hx
  | receive u v held_other held_self keeps sends hwanted hadj haccepted =>
    by_cases hw : w = v
    · subst hw
      rcases held_self k with heq | ⟨m, hmem, hk, -, heq, -⟩
      · exact .inl (heq ▸ hx)
      · rw [heq, Option.some_inj] at hx
        subst hx
        exact .inr ⟨hk, haccepted ▸ inv.inFlight_accepted u w m hmem⟩
    · exact .inl (held_other w hw ▸ hx)
  | connect u v hheld | answer u v hheld => exact .inl (hheld ▸ hx)

omit inv in
theorem Step.accepted_subset : σ.accepted ⊆ σ'.accepted := by
  cases h with
  | publish v m _ _ _ _ _ _ _ _ haccepted => exact haccepted ▸ Set.subset_insert _ _
  | receive u v _ _ _ _ _ _ haccepted | connect u v _ _ _ _ _ _ haccepted => exact haccepted.ge
  | answer u v _ _ _ _ _ _ haccepted => exact haccepted.ge

omit inv in
theorem Step.inFlight_cases (hx : x ∈ σ'.inFlight a b) :
    x ∈ σ.inFlight a b ∨ σ'.held a (key x) = some x := by
  cases h with
  | publish v m wins held_self held_other keeps sends =>
    rcases sends a b x hx with hx | ⟨rfl, rfl⟩
    · exact .inl hx
    · exact .inr held_self
  | receive u v held_other held_self keeps sends =>
    rcases sends a b x hx with hx | ⟨rfl, hx⟩
    · exact .inl hx
    · exact .inr hx
  | connect u v hheld hflight => exact .inl (hflight ▸ hx)
  | answer u v hheld keeps sends =>
    rcases sends a b x hx with hx | ⟨rfl, hx⟩
    · exact .inl hx
    · exact .inr (hheld ▸ hx)

/-- What was held stays covered on the links there were: the other end gains at least what it takes
off the link. -/
theorem Step.covered_of_held (hab : σ.adj a b) (hx : σ.held a k = some x) :
    stamp x ≤ rank stamp (σ'.held b k) ∨ x ∈ σ'.inFlight a b ∨ σ'.wanted b a := by
  have hrank := h.rank_le b k
  rcases inv.covered a b k x hab hx with hle | hmem | hw
  · exact .inl (hle.trans hrank)
  · cases h with
    | publish v m wins held_self held_other keeps => exact .inr (.inl (keeps a b hmem))
    | receive u v held_other held_self keeps =>
      rcases keeps a b x hmem with hmem | ⟨rfl, rfl, hle⟩
      · exact .inr (.inl hmem)
      · exact .inl (inv.held_key _ k x hx ▸ hle)
    | connect u v hheld hflight => exact .inr (.inl (hflight ▸ hmem))
    | answer u v hheld keeps => exact .inr (.inl (keeps a b hmem))
  cases h with
  | publish v m wins held_self held_other keeps sends floods hwanted =>
    exact .inr (.inr (hwanted ▸ hw))
  | receive u v held_other held_self keeps sends hwanted => exact .inr (.inr (hwanted ▸ hw))
  | connect u v hheld hflight wanted => exact .inr (.inr (wanted b a hw))
  | answer u v hheld keeps sends answers wanted =>
    rcases wanted b a hw with hw | ⟨rfl, rfl⟩
    · exact .inr (.inr hw)
    · exact .inr (.inl (answers k x hx))

theorem Step.covered (hab : σ'.adj a b) (hx : σ'.held a k = some x) :
    stamp x ≤ rank stamp (σ'.held b k) ∨ x ∈ σ'.inFlight a b ∨ σ'.wanted b a := by
  have hrank := h.rank_le
  have hold := h.covered_of_held inv (a := a) (b := b) (k := k) (x := x)
  cases h with
  | publish v m wins held_self held_other keeps sends floods hwanted hadj haccepted =>
    rw [hadj] at hab
    by_cases hw : a = v ∧ k = key m
    · obtain ⟨rfl, rfl⟩ := hw
      rw [held_self, Option.some_inj] at hx
      exact .inr (.inl (hx ▸ floods b hab))
    · exact hold hab (held_other a k (not_and_or.mp hw) ▸ hx)
  | receive u v held_other held_self keeps sends hwanted hadj haccepted =>
    rw [hadj] at hab
    by_cases ha : a = v
    · subst ha
      rcases held_self k with heq | ⟨m, hmem, rfl, -, heq, htold⟩
      · exact hold hab (heq ▸ hx)
      obtain rfl : m = x := Option.mem_unique heq hx
      by_cases hb : b = u
      · -- the node the item came from holds it or better
        subst hb
        exact .inl ((inv.sender b a m hmem).trans (hrank b _))
      · rcases htold b hab hb with hmem | hle | hw
        · exact .inr (.inl hmem)
        · exact .inl (hle.trans (hrank b _))
        · exact .inr (.inr (hwanted ▸ hw))
    · exact hold hab (held_other a ha ▸ hx)
  | connect u v hheld hflight wanted wanted_left wanted_right adj haccepted =>
    rcases adj a b hab with hab | ⟨rfl, rfl⟩ | ⟨rfl, rfl⟩
    · exact hold hab (hheld ▸ hx)
    · exact .inr (.inr wanted_right)
    · exact .inr (.inr wanted_left)
  | answer u v hheld keeps sends answers wanted hadj haccepted =>
    exact hold (hadj ▸ hab) (hheld ▸ hx)

theorem Step.invariant : Invariant key stamp σ' where
  held_key w k x hx := by
    rcases h.held_cases inv hx with hx | hx
    · exact inv.held_key w k x hx
    · exact hx.1
  held_accepted w k x hx := by
    rcases h.held_cases inv hx with hx | hx
    · exact h.accepted_subset (inv.held_accepted w k x hx)
    · exact hx.2
  inFlight_accepted a b x hx := by
    rcases h.inFlight_cases hx with hx | hx
    · exact h.accepted_subset (inv.inFlight_accepted a b x hx)
    · rcases h.held_cases inv hx with hx | hx
      · exact h.accepted_subset (inv.held_accepted a _ x hx)
      · exact hx.2
  sender a b x hx := by
    rcases h.inFlight_cases hx with hx | hx
    · exact (inv.sender a b x hx).trans (h.rank_le a _)
    · rw [hx]
      exact le_rfl
  covered a b k x hab hx := h.covered inv hab hx

omit h

theorem Invariant.run
    (h : Relation.ReflTransGen (Step key stamp) σ σ') : Invariant key stamp σ' := by
  induction h with
  | refl => exact inv
  | tail _ hstep ih => exact hstep.invariant ih

omit inv in
theorem rank_le_of_run (h : Relation.ReflTransGen (Step key stamp) σ σ') (w : V) (k : K) :
    rank stamp (σ.held w k) ≤ rank stamp (σ'.held w k) := by
  induction h with
  | refl => exact le_rfl
  | tail _ hstep ih => exact ih.trans (hstep.rank_le w k)

/-! ## Quiescence -/

section

variable (hq : ∀ a b, σ.inFlight a b = ∅) (hw : ∀ a b, ¬ σ.wanted a b)

include hq hw

/-- Along a path over which nothing is under way, what is held only rises. -/
theorem Invariant.rank_le_of_path (h : Relation.ReflTransGen σ.adj a b) (k : K) :
    rank stamp (σ.held a k) ≤ rank stamp (σ.held b k) := by
  induction h with
  | refl => exact le_rfl
  | @tail b c _ hbc ih =>
    refine ih.trans ?_
    cases hm : σ.held b k with
    | none => exact bot_le
    | some m =>
      rcases inv.covered b c k m hbc hm with hle | hmem | hwant
      · exact hle
      · rw [hq] at hmem
        exact absurd hmem (Set.notMem_empty m)
      · exact absurd hwant (hw c b)

/-- **Nodes with paths to each other agree once nothing is under way**, if key and stamp tell items
apart. -/
theorem Invariant.quiescent
    (huniq : ∀ m ∈ σ.accepted, ∀ m' ∈ σ.accepted, key m = key m' → stamp m = stamp m' → m = m')
    (h : Relation.ReflTransGen σ.adj a b) (hback : Relation.ReflTransGen σ.adj b a) (k : K) :
    σ.held a k = σ.held b k := by
  have hrank : rank stamp (σ.held a k) = rank stamp (σ.held b k) :=
    le_antisymm (inv.rank_le_of_path hq hw h k) (inv.rank_le_of_path hq hw hback k)
  exact Flood.eq_of_rank_eq hrank fun m m' hm hm' hst =>
    huniq m (inv.held_accepted a k m hm) m' (inv.held_accepted b k m' hm')
      ((inv.held_key a k m hm).trans (inv.held_key b k m' hm').symm) hst

end

end Gossip

namespace Flood

/-! ## Links that are there from the start -/

variable {V K M S : Type*} [LinearOrder S] {key : M → K} {stamp : M → S} {adj : V → V → Prop}
  {σ σ' : State V K M}

/-- A flood is gossip without requests. -/
def State.gossip (σ : State V K M) (adj : V → V → Prop) : Gossip.State V K M :=
  ⟨σ.held, σ.inFlight, fun _ _ => False, adj, σ.accepted⟩

theorem Step.gossip (h : Step key stamp adj σ σ') :
    Relation.ReflTransGen (Gossip.Step key stamp) (σ.gossip adj) (σ'.gossip adj) := by
  cases h with
  | publish v m adopts keeps floods hacc hoff =>
    exact .single (.publish v m adopts.wins adopts.held_self adopts.held_other keeps adopts.sends
      floods rfl rfl hacc)
  | reject v m loses hheld hfl hacc hoff =>
    rw [State.gossip, State.gossip, hheld, hfl, hacc]
  | accept u v m mem adopts keeps floods hacc hoff =>
    refine .single (.receive u v (fun w hw => funext fun k => adopts.held_other w k (.inl hw))
      (fun k => ?_) (fun a b x hx => ?_) (fun a b x hx => ?_) rfl rfl hacc)
    · by_cases hk : k = key m
      · subst hk
        exact .inr ⟨m, mem, rfl, adopts.wins, adopts.held_self,
          fun w hvw hw => .inl (floods w hvw hw)⟩
      · exact .inl (adopts.held_other v k (.inr hk))
    · rcases keeps a b x hx with hx | ⟨ha, hb, rfl⟩
      · exact .inl hx
      · exact .inr ⟨ha, hb, (congrArg (rank stamp) adopts.held_self).ge⟩
    · rcases adopts.sends a b x hx with hx | ⟨rfl, rfl⟩
      · exact .inl hx
      · exact .inr ⟨rfl, adopts.held_self⟩
  | drop u v m loses hheld keeps sends hacc hoff =>
    refine .single (.receive u v (fun w _ => congrFun hheld w)
      (fun k => .inl (congrFun (congrFun hheld v) k)) (fun a b x hx => ?_)
      (fun a b x hx => .inl (sends a b hx)) rfl rfl hacc)
    rcases keeps a b x hx with hx | ⟨ha, hb, rfl⟩
    · exact .inl hx
    · exact .inr ⟨ha, hb, loses.trans (congrArg (rank stamp) (congrFun (congrFun hheld v) _)).ge⟩

theorem Invariant.gossip (inv : Invariant key stamp adj σ) :
    Gossip.Invariant key stamp (σ.gossip adj) :=
  ⟨inv.held_key, inv.held_accepted, inv.inFlight_accepted, inv.sender,
    fun a b k m hab hm => (inv.neighbours a b k m hab hm).imp_right .inl⟩

theorem Step.offered_cases (h : Step key stamp adj σ σ') (inv : Invariant key stamp adj σ) :
    σ'.accepted ⊆ σ'.offered ∧ ∀ m ∈ σ'.offered,
      m ∈ σ.offered ∨ ∃ v, stamp m ≤ rank stamp (σ'.held v (key m)) := by
  cases h with
  | publish v m adopts keeps floods hacc hoff =>
    rw [hacc, hoff]
    refine ⟨Set.insert_subset_insert inv.accepted_offered, fun x hx => ?_⟩
    rcases Set.mem_insert_iff.mp hx with rfl | hx
    · exact .inr ⟨v, (congrArg (rank stamp) adopts.held_self).ge⟩
    · exact .inl hx
  | reject v m loses hheld hfl hacc hoff =>
    rw [hacc, hoff]
    refine ⟨inv.accepted_offered.trans (Set.subset_insert _ _), fun x hx => ?_⟩
    rcases Set.mem_insert_iff.mp hx with rfl | hx
    · exact .inr ⟨v, hheld ▸ loses⟩
    · exact .inl hx
  | accept u v m mem adopts keeps floods hacc hoff | drop u v m loses hheld keeps sends hacc hoff =>
    rw [hacc, hoff]
    exact ⟨inv.accepted_offered, fun x hx => .inl hx⟩

theorem rank_le_of_run (h : Relation.ReflTransGen (Step key stamp adj) σ σ') (v : V) (k : K) :
    rank stamp (σ.held v k) ≤ rank stamp (σ'.held v k) := by
  induction h with
  | refl => exact le_rfl
  | tail _ hstep ih => exact ih.trans (Gossip.rank_le_of_run hstep.gossip v k)

theorem Invariant.run (inv : Invariant key stamp adj σ)
    (h : Relation.ReflTransGen (Step key stamp adj) σ σ') : Invariant key stamp adj σ' := by
  induction h with
  | refl => exact inv
  | @tail σ σ' _ hstep ih =>
    have hgossip := ih.gossip.run hstep.gossip
    obtain ⟨haccepted, hoffered⟩ := hstep.offered_cases ih
    refine ⟨hgossip.held_key, hgossip.held_accepted, hgossip.inFlight_accepted, hgossip.sender,
      fun a b k m hab hm => (hgossip.covered a b k m hab hm).imp_right fun h => h.resolve_right id,
      haccepted, fun m hm => ?_⟩
    rcases hoffered m hm with hm | hm
    · obtain ⟨v, hv⟩ := ih.offered_held m hm
      exact ⟨v, hv.trans (Gossip.rank_le_of_run hstep.gossip v (key m))⟩
    · exact hm

/-- **A connected network in which nothing is under way agrees on the maximum**, if key and stamp
tell items apart. -/
theorem Invariant.quiescent [Nonempty V] (inv : Invariant key stamp adj σ)
    (hq : ∀ a b, σ.inFlight a b = ∅) (hadj : ∀ a b, Relation.ReflTransGen adj a b)
    (huniq : ∀ m ∈ σ.accepted, ∀ m' ∈ σ.accepted, key m = key m' → stamp m = stamp m' → m = m')
    (k : K) : ∃ o, (∀ v, σ.held v k = o) ∧ IsMaximum key stamp σ k o := by
  obtain ⟨v₀⟩ := ‹Nonempty V›
  have hsame (v : V) : σ.held v k = σ.held v₀ k :=
    inv.gossip.quiescent hq (fun _ _ => id) huniq (hadj v v₀) (hadj v₀ v) k
  refine ⟨σ.held v₀ k, hsame, fun w hw => ⟨inv.held_accepted v₀ k w hw, inv.held_key v₀ k w hw⟩, ?_⟩
  rintro m hm rfl
  obtain ⟨v, hv⟩ := inv.offered_held m hm
  rw [hsame] at hv
  exact le_rank_iff.mp hv

end Flood
