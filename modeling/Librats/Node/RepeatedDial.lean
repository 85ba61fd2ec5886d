import Librats.Node.Links

/-!
# A node that dials the same peer repeatedly

Several connections between two nodes, all dialed by the same one: a newcomer takes the place of
what is registered, so a node keeps what became established last *there* (`Latest`). If the last
ones differ, the nodes are left with none.
-/

namespace Librats

open PeerTable List Option

namespace Meeting

variable {H S I : Type} [LinearOrder I] {m : Meeting H S I} {p : Pair I} {a : Side}

/-- All links are dialed by one node, and there are at least two. -/
structure Repeated (m : Meeting H S I) (a : Side) : Prop where
  many : 2 ≤ m.links
  dialed : ∀ c < m.links, m.dialer c = a

omit [LinearOrder I] in
theorem Repeated.role_eq (hm : m.Repeated a) (s : Side) {c c' : ℕ} (hc : c < m.links)
    (hc' : c' < m.links) : m.role s c' = m.role s c := by
  rw [role, role, m.role_eq, m.role_eq, hm.dialed c hc, hm.dialed c' hc']

/-- A node has registered the link established last there, and gives up those before it. -/
structure LatestAt (m : Meeting H S I) (p : Pair I) (s : Side) : Prop where
  registered : ∀ f, m.current p s = some f →
    ∃ x < m.links, f = m.face s x ∧ (p.order s).head? = some x
  held : ∀ x, (p.order s).head? = some x → p.ends s x = .established →
    m.current p s = some (m.face s x)
  nodup : (p.order s).Nodup
  bound : ∀ c ∈ p.order s, c < m.links
  seen : ∀ c ∈ p.order s, p.ends s c ≠ .awaiting
  listed : ∀ c, p.ends s c = .established → c ∈ p.order s
  marks : ∀ c, p.marked s c = true → c ∈ (p.order s).tail
  given : ∀ c ∈ (p.order s).tail, p.marked s c = true ∨ p.ends s c = .closed

/-- Both nodes do, and only what one of them gave up is closed. -/
structure Latest (m : Meeting H S I) (p : Pair I) : Prop where
  latest : ∀ s, m.LatestAt p s
  gone : ∀ s c, p.ends s c = .closed → ∃ s', c ∈ (p.order s').tail

variable {s : Side} {c : ℕ}

theorem LatestAt.frame {q : Pair I} (h : m.LatestAt p s) (hcurrent : m.current q s = m.current p s)
    (hends : q.ends s = p.ends s) (hmarked : q.marked s = p.marked s)
    (horder : q.order s = p.order s) : m.LatestAt q s := by
  constructor <;> rw [horder]
  · rw [hcurrent]
    exact h.registered
  · rw [hcurrent, hends]
    exact h.held
  · exact h.nodup
  · exact h.bound
  · rw [hends]
    exact h.seen
  · rw [hends]
    exact h.listed
  · rw [hmarked]
    exact h.marks
  · rw [hmarked, hends]
    exact h.given

theorem LatestAt.head?_of_current (h : m.LatestAt p s)
    (hroute : (m.current p s).map Prod.fst = some (m.route s c)) : (p.order s).head? = some c := by
  obtain ⟨f, hf, hfst⟩ := map_eq_some_iff.mp hroute
  obtain ⟨x, -, rfl, hhead⟩ := h.registered f hf
  rwa [route_injective.mp hfst] at hhead

theorem LatestAt.resolved (h : m.LatestAt p s) (hm : m.Repeated a) (hc : c < m.links)
    (hnew : c ∉ p.order s) : m.resolved p s c = (m.face s c, (m.current p s).map Prod.fst) := by
  cases hcur : m.current p s with
  | none => exact resolved_none hcur
  | some f =>
    obtain ⟨x, hx, rfl, hhead⟩ := h.registered f hcur
    have hne : x ≠ c := by
      rintro rfl
      exact hnew (mem_of_mem_head? hhead)
    exact resolved_replaced hcur hne fun hrole => absurd (hm.role_eq s hc hx) hrole

theorem order_establish (s' : Side) : (m.establish p s c).order s' =
    if s' = s then c :: p.order s else p.order s' := by
  simp [Meeting.establish, Function.update_apply]

theorem tail_establish (s' : Side) {x : ℕ} (hx : x ∈ (p.order s').tail) :
    x ∈ ((m.establish p s c).order s').tail := by
  rw [order_establish]
  split_ifs with hs
  · subst hs
    exact mem_of_mem_tail hx
  · exact hx

theorem LatestAt.given_establish (h : m.LatestAt p s) (hm : m.Repeated a) (hc : c < m.links)
    (hnew : c ∉ p.order s) {x : ℕ} (hx : x ∈ p.order s) :
    (m.establish p s c).marked s x = true ∨ p.ends s x = .closed := by
  rw [marked_establish, h.resolved hm hc hnew]
  cases horder : p.order s with
  | nil =>
    rw [horder] at hx
    cases hx
  | cons y rest =>
    have hgiven := h.given x
    rw [horder] at hgiven
    rw [horder] at hx
    rcases mem_cons.mp hx with rfl | hx
    · cases hend : p.ends s x with
      | awaiting => exact absurd hend (h.seen x (horder ▸ (.head _)))
      | closed => exact .inr rfl
      | established =>
        rw [h.held x (by rw [horder]; rfl) hend]
        exact .inl (.inr ⟨rfl, nofun, rfl⟩)
    · exact (hgiven hx).imp_left .inl

theorem LatestAt.establish (h : m.LatestAt p s) (hm : m.Repeated a) (hc : c < m.links)
    (hnew : c ∉ p.order s) : m.LatestAt (m.establish p s c) s := by
  have hresolved := h.resolved hm hc hnew
  have hends : ∀ x ∈ p.order s, (m.establish p s c).ends s x = p.ends s x := fun x hx => by
    rw [ends_establish, if_neg]
    rintro ⟨-, rfl⟩
    exact hnew hx
  constructor <;> rw [order_establish, if_pos rfl]
  · rw [current_establish, if_pos rfl, hresolved]
    intro f hf
    exact ⟨c, hc, (some_inj.mp hf).symm, rfl⟩
  · rw [current_establish, if_pos rfl, hresolved]
    intro x hx _
    rw [some_inj.mp hx]
  · exact nodup_cons.mpr ⟨hnew, h.nodup⟩
  · exact forall_mem_cons.mpr ⟨hc, h.bound⟩
  · intro x hx
    rcases mem_cons.mp hx with rfl | hx
    · rw [ends_establish, if_pos ⟨rfl, rfl⟩]
      exact nofun
    · rw [hends x hx]
      exact h.seen x hx
  · intro x hest
    rw [ends_establish] at hest
    split_ifs at hest with hcon
    · exact hcon.2 ▸ (.head _)
    · exact .tail _ (h.listed x hest)
  · intro x hmark
    rw [marked_establish, hresolved] at hmark
    rcases hmark with hmark | ⟨-, -, hroute⟩
    · exact mem_of_mem_tail (h.marks x hmark)
    · exact mem_of_mem_head? (h.head?_of_current hroute)
  · intro x hx
    rw [hends x hx]
    exact h.given_establish hm hc hnew hx

theorem Latest.establish (h : m.Latest p) (hm : m.Repeated a) (hc : c < m.links)
    (hawait : p.ends s c = .awaiting) : m.Latest (m.establish p s c) := by
  have hnew : c ∉ p.order s := fun hmem => (h.latest s).seen c hmem hawait
  refine ⟨fun s' => ?_, fun s' x hgone => ?_⟩
  · by_cases hs : s' = s
    · subst hs
      exact (h.latest s').establish hm hc hnew
    · refine (h.latest s').frame ?_ ?_ ?_ ?_
      · rw [current_establish, if_neg hs]
      · funext x
        rw [ends_establish, if_neg fun hcon => hs hcon.1]
      · funext x
        rw [Bool.eq_iff_iff, marked_establish, or_iff_left fun hcon => hs hcon.1]
      · rw [order_establish, if_neg hs]
  · rw [ends_establish] at hgone
    split_ifs at hgone
    obtain ⟨s'', hx⟩ := h.gone s' x hgone
    exact ⟨s'', tail_establish s'' hx⟩

theorem LatestAt.finish [Zero I] (h : m.LatestAt p s) (reason : CloseReason) :
    m.LatestAt (m.finish p s c reason) s := by
  have hstay : ∀ x, (m.finish p s c reason).ends s x = .established →
      x ≠ c ∧ p.ends s x = .established := fun x hest => by
    rw [ends_finish] at hest
    split_ifs at hest with hcon
    exact ⟨fun hxc => hcon ⟨rfl, hxc⟩, hest⟩
  refine ⟨fun f hf => ?_, fun x hx hest => ?_, h.nodup, h.bound, fun x hx => ?_, fun x hest => ?_,
    fun x => ?_, fun x hx => ?_⟩
  · rw [current_finish] at hf
    split_ifs at hf
    exact h.registered f hf
  · obtain ⟨hne, hest⟩ := hstay x hest
    have hcur := h.held x hx hest
    rw [current_finish, if_neg, hcur]
    rintro ⟨-, -, -, hroute⟩
    rw [hcur] at hroute
    exact hne (route_injective.mp (some_inj.mp hroute))
  · rw [ends_finish]
    split_ifs
    · exact nofun
    · exact h.seen x hx
  · exact h.listed x (hstay x hest).2
  · rw [marked_finish]
    exact h.marks x
  · rw [marked_finish]
    refine (h.given x hx).imp_right fun hclosed => ?_
    rw [ends_finish, hclosed, ite_self]

theorem Latest.finish [Zero I] (h : m.Latest p) (reason : CloseReason)
    (hgiven : ∃ s', c ∈ (p.order s').tail) : m.Latest (m.finish p s c reason) := by
  refine ⟨fun s' => ?_, fun s' x hgone => ?_⟩
  · by_cases hs : s' = s
    · subst hs
      exact (h.latest s').finish reason
    · refine (h.latest s').frame ?_ ?_ (by rw [marked_finish]) rfl
      · rw [current_finish, if_neg fun hcon => hs hcon.1]
      · funext x
        rw [ends_finish, if_neg fun hcon => hs hcon.1]
  · rw [ends_finish] at hgone
    split_ifs at hgone with hcon
    · exact hcon.2 ▸ hgiven
    · exact h.gone s' x hgone

theorem Latest.frame (h : m.Latest p) (s : Side) (c : ℕ) (f : Frame) : m.Latest (m.frame p s c f) :=
  ⟨fun s' => (h.latest s').frame (current_frame f s') rfl (by rw [marked_frame]) rfl, h.gone⟩

theorem Reachable.latest [Zero I] (h : m.Reachable p) (hm : m.Repeated a) : m.Latest p := by
  induction h with
  | refl =>
    refine ⟨fun s => ?_, fun s c hgone => (nomatch hgone)⟩
    exact ⟨fun f hf => (nomatch hf), fun x hx => (nomatch hx), nodup_nil, nofun, nofun,
      fun c hest => (nomatch hest), fun c hmark => (nomatch hmark), nofun⟩
  | tail _ hs ih =>
    cases hs with
    | establish hc hawait => exact ih.establish hm hc hawait
    | frame _ _ => exact ih.frame _ _ _
    | @close s c _ hmark _ => exact ih.finish _ ⟨s, (ih.latest s).marks c hmark⟩
    | fin _ hother _ => exact ih.finish _ (ih.gone _ _ hother)

/-! ## At rest -/

theorem head?_or_mem_tail {l : List ℕ} (h : c ∈ l) : l.head? = some c ∨ c ∈ l.tail := by
  cases l with
  | nil => cases h
  | cons y rest => exact (mem_cons.mp h).imp_left fun hcy => congrArg some hcy.symm

theorem not_mem_tail {l : List ℕ} (hn : l.Nodup) (h : l.head? = some c) : c ∉ l.tail := by
  cases l with
  | nil => exact not_mem_nil
  | cons y rest => exact some_inj.mp h ▸ (nodup_cons.mp hn).1

/-- **When nothing is in flight, a link is open iff it became established last at both nodes.** -/
theorem Latest.established_iff_last (h : m.Latest p) (hq : m.Quiescent p) (hc : c < m.links)
    (s : Side) : p.ends s c = .established ↔ ∀ s', (p.order s').head? = some c := by
  constructor
  · intro hest s'
    have hopen : p.ends s' c ≠ .closed := fun hgone =>
      nomatch hest.symm.trans (hq.closed hc hgone s)
    have hmem := (h.latest s').listed c (hq.established hc hopen)
    refine (head?_or_mem_tail hmem).resolve_right fun htail => hopen ?_
    exact ((h.latest s').given c htail).elim (hq.executed s' c hc) fun hgone => hgone
  · intro hlast
    refine hq.established hc fun hgone => ?_
    obtain ⟨s', htail⟩ := h.gone s c hgone
    exact not_mem_tail (h.latest s').nodup (hlast s') htail

theorem Latest.exists_seen (h : m.Latest p) (hq : m.Quiescent p) (hc : c < m.links) :
    ∃ s, p.order s ≠ [] := by
  by_cases hclosed : p.ends .left c = .closed
  · obtain ⟨s, htail⟩ := h.gone .left c hclosed
    exact ⟨s, ne_nil_of_mem (mem_of_mem_tail htail)⟩
  · exact ⟨.left, ne_nil_of_mem ((h.latest .left).listed c (hq.established hc hclosed))⟩

variable [Zero I]

/-- **Of repeated dials one and the same connection stays open at both nodes exactly if the one that
became established last is the same at both.** -/
theorem repeated_dial_keeps_iff (hm : m.Repeated a) (h : m.Reachable p) (hq : m.Quiescent p) :
    (∃ x, ∀ s, (p.node s).peers.route (m.id s.other) = some (m.route s x) ∧
      p.ends s x = .established) ↔ (p.order .left).head? = (p.order .right).head? := by
  have hlatest := h.latest hm
  constructor
  · rintro ⟨x, hx⟩
    have hlast : ∀ s, (p.order s).head? = some x := fun s =>
      (hlatest.latest s).head?_of_current (route_other.symm.trans (hx s).1)
    exact (hlast .left).trans (hlast .right).symm
  intro heads
  have hsame : ∀ s, (p.order s).head? = (p.order .left).head? := fun s => by
    cases s with
    | left => rfl
    | right => exact heads.symm
  obtain ⟨s₀, hs₀⟩ := hlatest.exists_seen hq (Nat.lt_of_lt_of_le Nat.zero_lt_two hm.many)
  obtain ⟨x, rest, horder⟩ := exists_cons_of_ne_nil hs₀
  have hlast : ∀ s, (p.order s).head? = some x := fun s => by
    rw [hsame s, ← hsame s₀, horder]
    rfl
  have hbound := (hlatest.latest s₀).bound x (horder ▸ (.head _))
  refine ⟨x, fun s => ?_⟩
  have hest := (hlatest.established_iff_last hq hbound s).mpr hlast
  rw [route_other, (hlatest.latest s).held x (hlast s) hest]
  exact ⟨rfl, hest⟩

/-- Two dials from the left. -/
def twoDials : Meeting Unit Unit ℕ := twoNodes 2 fun _ => .left

theorem twoDials_repeated : twoDials.Repeated .left := ⟨le_rfl, fun _ _ => rfl⟩

/-- Both nodes see the second dial last; the left closes the first. -/
def sameOrder : Pair ℕ :=
  let p := twoDials.establish .start .left 0
  let p := twoDials.establish p .right 0
  let p := twoDials.establish p .left 1
  let p := twoDials.establish p .right 1
  let p := twoDials.finish p .left 0 .duplicateConn
  twoDials.finish p .right 0 .peerClosed

theorem sameOrder_reachable : twoDials.Reachable sameOrder := by
  have h : twoDials.Reachable .start := .refl
  have h := h.establish .left 0 (by decide) rfl
  have h := h.establish .right 0 (by decide) rfl
  have h := h.establish .left 1 (by decide) rfl
  have h := h.establish .right 1 (by decide) rfl
  have h := h.close .left 0 (by decide) (by decide +kernel) (by decide +kernel)
  exact h.fin .right 0 (by decide) (by decide +kernel) (by decide +kernel)

theorem sameOrder_quiescent : twoDials.Quiescent sameOrder := by
  constructor <;> intro s c (hc : c < 2) <;> cases s <;> interval_cases c <;> decide +kernel

theorem repeated_dial_keeps_sameOrder : ∃ x, ∀ s,
      (sameOrder.node s).peers.route (twoDials.id s.other) = some (twoDials.route s x) ∧
        sameOrder.ends s x = .established :=
  (repeated_dial_keeps_iff twoDials_repeated sameOrder_reachable sameOrder_quiescent).mpr rfl

/-- The left sees the second dial last, the right the first one. Each closes the other's, and the
closes cross. -/
def oppositeOrder : Pair ℕ :=
  let p := twoDials.establish .start .left 0
  let p := twoDials.establish p .left 1
  let p := twoDials.establish p .right 1
  let p := twoDials.establish p .right 0
  let p := twoDials.finish p .left 0 .duplicateConn
  let p := twoDials.finish p .right 1 .duplicateConn
  let p := twoDials.finish p .right 0 .peerClosed
  twoDials.finish p .left 1 .peerClosed

theorem oppositeOrder_reachable : twoDials.Reachable oppositeOrder := by
  have h : twoDials.Reachable .start := .refl
  have h := h.establish .left 0 (by decide) rfl
  have h := h.establish .left 1 (by decide) rfl
  have h := h.establish .right 1 (by decide) rfl
  have h := h.establish .right 0 (by decide) rfl
  have h := h.close .left 0 (by decide) (by decide +kernel) (by decide +kernel)
  have h := h.close .right 1 (by decide) (by decide +kernel) (by decide +kernel)
  have h := h.fin .right 0 (by decide) (by decide +kernel) (by decide +kernel)
  exact h.fin .left 1 (by decide) (by decide +kernel) (by decide +kernel)

theorem oppositeOrder_quiescent : twoDials.Quiescent oppositeOrder := by
  constructor <;> intro s c (hc : c < 2) <;> cases s <;> interval_cases c <;> decide +kernel

theorem repeated_dial_loses_oppositeOrder :
    (twoDials.Repeated .left ∧ twoDials.Reachable oppositeOrder ∧
      twoDials.Quiescent oppositeOrder) ∧ ¬∃ x, ∀ s,
        (oppositeOrder.node s).peers.route (twoDials.id s.other) = some (twoDials.route s x) ∧
          oppositeOrder.ends s x = .established := by
  refine ⟨⟨twoDials_repeated, oppositeOrder_reachable, oppositeOrder_quiescent⟩, ?_⟩
  have hempty : (oppositeOrder.node .left).peers.route (twoDials.id .right) = none := by
    decide +kernel
  rintro ⟨x, hx⟩
  exact nomatch hempty.symm.trans (hx .left).1

end Meeting

end Librats
