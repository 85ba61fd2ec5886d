import Librats.Node.Links

/-!
# Nodes that dial each other

Two nodes dial each other at the same time, and each decides alone which connection it keeps; the
shared rule, that the link dialed by the smaller id stays, makes them keep the same one. Such a link
is registered as soon as it is established and never given up (`Kept`).
-/

namespace Librats

open PeerTable Option

namespace Meeting

variable {H S I : Type} [LinearOrder I] {m : Meeting H S I} {p : Pair I}

/-- The node with the smaller id. -/
def smaller (m : Meeting H S I) : Side := if m.id .left < m.id .right then .left else .right

theorem smaller_iff (s : Side) : m.smaller = s ↔ m.id s < m.id s.other := by
  have hne := m.distinct .left
  unfold smaller
  cases s <;> simp only [Side.other] at hne ⊢ <;> split_ifs with h
  · simp [h]
  · simp [h]
  · simp [h.le]
  · simp only [true_iff]
    exact lt_of_le_of_ne (not_lt.mp h) hne

theorem role_eq_survivor_iff (s : Side) (c : ℕ) :
    m.role s c = survivor (m.id s < m.id s.other) ↔ m.dialer c = m.smaller := by
  have hlt := smaller_iff (m := m) s
  by_cases h : m.id s < m.id s.other
  · rw [← hlt] at h
    subst h
    simp [role, m.role_eq, survivor, hlt.mp rfl]
  · have hs : m.smaller = s.other := by
      rw [← hlt] at h
      revert h
      cases s <;> cases m.smaller <;> simp [Side.other]
    rw [hs]
    simp only [role, m.role_eq, survivor, h]
    cases s <;> cases m.dialer c <;> simp [Side.other]

/-- The link `w` is not given up. -/
structure Kept (m : Meeting H S I) (w : ℕ) (p : Pair I) : Prop where
  registered : ∀ s f, m.current p s = some f → ∃ c < m.links, f = m.face s c
  kept : ∀ s, p.ends s w = .established → m.current p s = some (m.face s w)
  unmarked : ∀ s, p.marked s w = false
  opened : ∀ s, p.ends s w ≠ .closed

/-- What the rule of the nodes says about the link `w`. -/
structure Preferred (m : Meeting H S I) (w : ℕ) : Prop where
  dialed : m.dialer w = m.smaller
  unique : ∀ c < m.links, m.dialer c = m.smaller → c = w

variable {w : ℕ} {c : ℕ}

theorem Preferred.not_supersedes (hw : m.Preferred w) (s : Side) (hc : c < m.links) (hne : c ≠ w) :
    ¬m.Supersedes s w c := by
  have hlose : m.role s c ≠ survivor (m.id s < m.id s.other) := fun h =>
    hne (hw.unique c hc ((role_eq_survivor_iff s c).mp h))
  intro hsup
  refine hlose (hsup fun heq => hlose ?_)
  rw [← heq]
  exact (role_eq_survivor_iff s w).mpr hw.dialed

/-- A link becomes established: if it is `w`, or `w` was there before, `w` is registered; and `w`
does not have to go. -/
theorem Kept.resolved (h : m.Kept w p) (hw : m.Preferred w) (s : Side) (hc : c < m.links) :
    ∃ c' < m.links, (m.resolved p s c).1 = m.face s c' ∧
      (c = w ∨ p.ends s w = .established → c' = w) ∧ (m.resolved p s c).2 ≠ some (m.route s w) := by
  cases hcur : m.current p s with
  | none =>
    rw [resolved_none hcur]
    refine ⟨c, hc, rfl, ?_, nofun⟩
    rintro (rfl | hest)
    · rfl
    · rw [h.kept s hest] at hcur
      cases hcur
  | some f =>
    obtain ⟨c₀, hc₀, rfl⟩ := h.registered s f hcur
    have hest : p.ends s w = .established → c₀ = w := fun hest =>
      face_injective.mp (mem_unique hcur (h.kept s hest))
    by_cases hne : c₀ = c
    · subst hne
      rw [resolved_self hcur]
      exact ⟨c₀, hc, rfl, fun hor => hor.elim (fun hcw => hcw) hest, nofun⟩
    by_cases hsup : m.Supersedes s c₀ c
    · rw [resolved_replaced hcur hne hsup]
      have hgo : c₀ ≠ w := by
        rintro rfl
        exact hw.not_supersedes s hc (Ne.symm hne) hsup
      refine ⟨c, hc, rfl, fun hor => hor.elim (fun hcw => hcw) fun he => absurd (hest he) hgo, ?_⟩
      rwa [Ne, some_inj, route_injective]
    · rw [resolved_rejected hcur hne hsup]
      have hgo : c ≠ w := by
        rintro rfl
        exact hsup fun _ => (role_eq_survivor_iff s _).mpr hw.dialed
      refine ⟨c₀, hc₀, rfl, fun hor => hor.elim (absurd · hgo) hest, ?_⟩
      rwa [Ne, some_inj, route_injective]

theorem Kept.establish (h : m.Kept w p) (hw : m.Preferred w) (s : Side) (hc : c < m.links) :
    m.Kept w (m.establish p s c) := by
  obtain ⟨c', hc', hface, hkept, hclose⟩ := h.resolved hw s hc
  refine ⟨fun s' f hf => ?_, fun s' hest => ?_, fun s' => ?_, fun s' => ?_⟩
  · rw [current_establish] at hf
    split_ifs at hf with hs
    · rw [← some_inj.mp hf, hface, hs]
      exact ⟨c', hc', rfl⟩
    · exact h.registered s' f hf
  · rw [current_establish]
    rw [ends_establish] at hest
    by_cases hs : s' = s
    · subst hs
      rw [if_pos rfl, hface, hkept]
      by_cases hcw : c = w
      · exact .inl hcw
      · rw [if_neg fun hcon => hcw hcon.2.symm] at hest
        exact .inr hest
    · rw [if_neg fun hcon => hs hcon.1] at hest
      rw [if_neg hs]
      exact h.kept s' hest
  · rw [← Bool.not_eq_true, marked_establish, not_or, h.unmarked]
    exact ⟨nofun, fun hcon => hclose hcon.2.2⟩
  · rw [ends_establish]
    split_ifs
    · exact nofun
    · exact h.opened s'

theorem Kept.finish [Zero I] (h : m.Kept w p) {s : Side} (hne : c ≠ w) (reason : CloseReason) :
    m.Kept w (m.finish p s c reason) := by
  have hends : ∀ s', (m.finish p s c reason).ends s' w = p.ends s' w := fun s' => by
    rw [ends_finish, if_neg fun hcon => hne hcon.2.symm]
  refine ⟨fun s' f hf => ?_, fun s' hest => ?_, fun s' => ?_, fun s' => ?_⟩
  · rw [current_finish] at hf
    split_ifs at hf
    exact h.registered s' f hf
  · rw [hends] at hest
    rw [current_finish, if_neg, h.kept s' hest]
    rintro ⟨rfl, -, -, hroute⟩
    rw [h.kept s' hest] at hroute
    exact hne (route_injective.mp (some_inj.mp hroute)).symm
  · rw [marked_finish, h.unmarked]
  · rw [hends]
    exact h.opened s'

theorem Kept.frame (h : m.Kept w p) (s : Side) (c : ℕ) (f : Frame) :
    m.Kept w (m.frame p s c f) := by
  refine ⟨fun s' => ?_, fun s' => ?_, fun s' => ?_, h.opened⟩
  · rw [current_frame]
    exact h.registered s'
  · rw [current_frame]
    exact h.kept s'
  · rw [marked_frame, h.unmarked]

theorem Reachable.kept [Zero I] (h : m.Reachable p) (hw : m.Preferred w) : m.Kept w p := by
  induction h with
  | refl =>
    exact ⟨fun s f hf => (nomatch hf), fun s hest => (nomatch hest), fun _ => rfl, fun _ => nofun⟩
  | tail _ hs ih =>
    cases hs with
    | establish hc _ => exact ih.establish hw _ hc
    | frame _ _ => exact ih.frame _ _ _
    | close _ hmark _ =>
      refine ih.finish ?_ _
      rintro rfl
      rw [ih.unmarked] at hmark
      cases hmark
    | fin _ hother _ =>
      refine ih.finish ?_ _
      rintro rfl
      exact ih.opened _ hother

/-- Two nodes that dial each other once. -/
structure Cross (m : Meeting H S I) : Prop where
  links : m.links = 2
  dialers : m.dialer 0 ≠ m.dialer 1

theorem Cross.preferred (hm : m.Cross) (hw : w < 2) (hdial : m.dialer w = m.smaller) :
    m.Preferred w := by
  refine ⟨hdial, fun c hc hcd => ?_⟩
  rw [hm.links] at hc
  have heq : m.dialer c = m.dialer w := hcd.trans hdial.symm
  by_contra hne
  have hpair : c = 0 ∧ w = 1 ∨ c = 1 ∧ w = 0 := by omega
  rcases hpair with ⟨rfl, rfl⟩ | ⟨rfl, rfl⟩
  · exact hm.dialers heq
  · exact hm.dialers heq.symm

variable [Zero I]

/-- **Two nodes that dial each other keep the link dialed by the smaller id: neither ever closes it,
and when nothing is in flight both tables have it for the other node.** -/
theorem cross_connect_converges (hm : m.Cross) (h : m.Reachable p) (hw : w < 2)
    (hdial : m.dialer w = m.smaller) : (∀ s, p.marked s w = false ∧ p.ends s w ≠ .closed) ∧
      (m.Quiescent p → ∀ s, (p.node s).peers.route (m.id s.other) = some (m.route s w)) := by
  have hkept := h.kept (hm.preferred hw hdial)
  refine ⟨fun s => ⟨hkept.unmarked s, hkept.opened s⟩, fun hq s => ?_⟩
  have hest := hq.established (hm.links ▸ hw) (hkept.opened s)
  rw [route_other, hkept.kept s hest]
  rfl

/-- Two nodes, each dialing the other. -/
def mutualDial : Meeting Unit Unit ℕ := twoNodes 2 fun c => if c = 0 then .left else .right

/-- The node on the left sees its own dial first, the one on the right its own; then both close the
dial of the right. -/
def mutualDialed : Pair ℕ :=
  let p := mutualDial.establish .start .left 0
  let p := mutualDial.establish p .right 1
  let p := mutualDial.establish p .left 1
  let p := mutualDial.establish p .right 0
  let p := mutualDial.finish p .left 1 .duplicateConn
  mutualDial.finish p .right 1 .peerClosed

theorem mutualDialed_reachable : mutualDial.Reachable mutualDialed := by
  have h : mutualDial.Reachable .start := .refl
  have h := h.establish .left 0 (by decide) rfl
  have h := h.establish .right 1 (by decide) rfl
  have h := h.establish .left 1 (by decide) rfl
  have h := h.establish .right 0 (by decide) rfl
  have h := h.close .left 1 (by decide) (by decide +kernel) (by decide +kernel)
  exact h.fin .right 1 (by decide) (by decide +kernel) (by decide +kernel)

theorem mutualDialed_quiescent : mutualDial.Quiescent mutualDialed := by
  constructor <;> intro s c (hc : c < 2) <;> cases s <;> interval_cases c <;> decide +kernel

theorem cross_connect_converges_mutualDialed :
    (mutualDialed.node .left).peers.route 2 = some ⟨0, 1⟩ ∧
      (mutualDialed.node .right).peers.route 1 = some ⟨0, 1⟩ :=
  have h := (cross_connect_converges (w := 0) ⟨rfl, by decide⟩ mutualDialed_reachable (by decide)
    (by decide +kernel)).2 mutualDialed_quiescent
  ⟨h .left, h .right⟩

end Meeting

end Librats
