import Librats.Foundations.Lists
import Librats.Subsystems.GossipMarks

/-!
# No message twice

A message is delivered and sent on at most once for each time it was newly marked as seen, and
between two marks of one id at least `seen_limit` others are marked. Between two deliveries there
need not be so many (`rounds_close`).
-/

namespace Librats.PubSub

open Interleaving Recent List

/-! ## Every entry -/

/-- What holds of an entry and those before it. -/
structure Entry (limit : ℕ) (before : List Effect) (e : Effect) : Prop where
  /-- Between two marks of an id there are enough others. -/
  spaced : ∀ id, e = .marked id → ∀ x y, before = x ++ .marked id :: y →
    limit ≤ ((marks y).toFinset.erase id).card
  /-- With a message nothing is done more often than it was marked. -/
  justified : ∀ (a : Act) id, a.of e = some id → (a.done before).count id < (marks before).count id
  onward : e.Onward

theorem Effect.Idle.entry {e : Effect} (h : e.Idle) (limit : ℕ) (before : List Effect) :
    Entry limit before e := by
  refine ⟨?_, fun a id ha => absurd ((h.acts a).symm.trans ha) nofun, ?_⟩
  · rintro id rfl
    exact absurd h.marked nofun
  · rintro id p targets frame rfl
    exact absurd (h.acts .forward) nofun

variable {cfg : Config} {me : PeerId} {first : UInt64}

section

variable {s : State} {rest : List Point} {trace : List Effect} {th : Point} {o : Done}

theorem entries_entered (h : Chronicle (Entry cfg.seenLimit) trace) {x : Call}
    (ho : Entered s x o) : Chronicle (Entry cfg.seenLimit) (trace ++ o.effects) := by
  cases ho with
  | publish topic data r now => exact h.concat ⟨nofun, fun a => by cases a <;> nofun, nofun⟩
  | frame hparse => exact (append_nil trace).symm ▸ h
  | idle hidle =>
    refine h.append fun before e after heq => (hidle.effects e ?_).entry _ _
    simp only at heq
    rw [heq]
    exact mem_append_right _ (.head _)

theorem Sound.entries_ran (hsound : Sound cfg me first ⟨s, th :: rest, trace⟩)
    (h : Chronicle (Entry cfg.seenLimit) trace) (ho : Ran s th o) :
    Chronicle (Entry cfg.seenLimit) (trace ++ o.effects) := by
  cases ho with
  | marked hmarking hmark hstage =>
    refine h.concat ⟨?_, fun a => by cases a <;> nofun, nofun⟩
    rintro id heq x y rfl
    obtain rfl := Effect.marked.inj heq
    have hmarks : marks (x ++ .marked th.job.id :: y) = marks x ++ th.job.id :: marks y :=
      marks_append x _
    exact hsound.tracks.spacing (not_mem_of_mark hmark) hmarks
  | known hmarking | ownKnown hmarking hown hseen => exact (append_nil trace).symm ▸ h
  | later hmarked hlater =>
    obtain hnil | ⟨e, hsingle⟩ := hlater.single
    · rwa [hnil, append_nil]
    have hmem : e ∈ o.effects := hsingle ▸ mem_singleton_self e
    rw [hsingle]
    refine h.concat ⟨?_, fun a id ha => ?_, hlater.onward e hmem⟩
    · rintro id rfl
      exact absurd (hsingle ▸ hlater.marks) nofun
    -- the message was among those with which this is still to be done
    obtain ⟨rfl, hawaits⟩ := hlater.acts e hmem a id ha
    have hpending : th.job.id ∈ a.pending (th :: rest) :=
      mem_filterMap.mpr ⟨th, (.head _), if_pos hawaits⟩
    have hcounts := hsound.counts a th.job.id
    have hpos := count_pos_iff.mpr hpending
    simp only at hcounts
    omega

end

/-! ## Messages that do not overtake each other -/

/-- A message is marked only if all others are at the end of their calls or yet to be marked. -/
def Alone (c : Snapshot) : Move ValidationResult Call → Prop
  | .exec k _ => (∃ th, c.threads[k]? = some th ∧ th.stage = .marking) →
    ∀ th ∈ c.threads, th.stage = .marking
  | .call _ => True

/-- The last mark is that of a message with which this was not done since. -/
def LastMarked (a : Act) (id : Bytes) (trace : List Effect) : Prop :=
  ∃ x y, trace = x ++ .marked id :: y ∧ marks y = [] ∧ a.done y = []

theorem LastMarked.append {a : Act} {id : Bytes} {trace effects : List Effect}
    (h : LastMarked a id trace) (hmarks : marks effects = []) (hdone : a.done effects = []) :
    LastMarked a id (trace ++ effects) := by
  obtain ⟨x, y, rfl, hy, hy'⟩ := h
  refine ⟨x, y ++ effects, by simp, ?_, ?_⟩
  · rw [marks_append, hy, hmarks, append_nil]
  · rw [Act.done_append, hy', hdone, append_nil]

/-- The message was marked. -/
def Point.isMarked (th : Point) : Bool := th.stage ≠ .marking

/-- What holds when messages do not overtake each other. -/
structure OneByOne (c : Snapshot) : Prop where
  lone : c.threads.countP Point.isMarked ≤ 1
  recent : ∀ th ∈ c.threads, ∀ a : Act, a.awaits th.stage = true → LastMarked a th.job.id c.trace
  entries : Chronicle (fun before e => ∀ (a : Act) id, a.of e = some id → LastMarked a id before) c.trace

theorem oneByOne_start (cfg : Config) (me : PeerId) (first : UInt64) :
    OneByOne (start cfg me first) where
  lone := Nat.zero_le 1
  recent _ hth := absurd hth not_mem_nil
  entries := Chronicle.nil

section

variable {s : State} {threads rest : List Point}
    {trace : List Effect} {th : Point} {o : Done} {a : Act} {e : Effect} {id : Bytes}

theorem isMarked_of_awaits (h : a.awaits th.stage = true) : th.isMarked = true := by
  refine decide_eq_true fun hstage => ?_
  rw [hstage] at h
  cases a <;> cases h

theorem OneByOne.perm {threads' : List Point} (h : OneByOne ⟨s, threads, trace⟩)
    (hperm : threads.Perm threads') : OneByOne ⟨s, threads', trace⟩ :=
  ⟨hperm.countP_eq _ ▸ h.lone, fun th hth => h.recent th (hperm.mem_iff.mpr hth), h.entries⟩

theorem OneByOne.entered (h : OneByOne ⟨s, threads, trace⟩) {x : Call} (ho : Entered s x o) :
    OneByOne ⟨o.shared, threads ++ o.next, trace ++ o.effects⟩ := by
  have hquiet : marks o.effects = [] ∧ ∀ a : Act, a.done o.effects = [] := by
    cases ho with
    | publish topic data r now => exact ⟨rfl, fun a => by cases a <;> rfl⟩
    | frame hparse => exact ⟨rfl, fun a => rfl⟩
    | idle hidle => exact ⟨hidle.marks, hidle.done⟩
  have hnext : ∀ th ∈ o.next, th.stage = .marking := by
    cases ho with
    | publish topic data r now | frame hparse => exact forall_mem_singleton.mpr rfl
    | idle hidle => exact nofun
  refine ⟨?_, fun th hth a ha => ?_, h.entries.append fun before e after heq a id ha => ?_⟩
  · have hzero : o.next.countP Point.isMarked = 0 :=
      countP_eq_zero.mpr fun th hth => by simp [Point.isMarked, hnext th hth]
    simp only [countP_append, hzero]
    exact h.lone
  · obtain hth | hth := mem_append.mp hth
    · exact (h.recent th hth a ha).append hquiet.1 (hquiet.2 a)
    · exact absurd (hnext th hth) (of_decide_eq_true (isMarked_of_awaits ha))
  · have hmem : id ∈ a.done o.effects :=
      mem_filterMap.mpr ⟨e, heq ▸ mem_append_right _ (.head _), ha⟩
    rw [hquiet.2 a] at hmem
    exact absurd hmem not_mem_nil

theorem OneByOne.ran (hsound : Sound cfg me first ⟨s, th :: rest, trace⟩)
    (h : OneByOne ⟨s, th :: rest, trace⟩)
    (halone : th.stage = .marking → ∀ th' ∈ rest, th'.stage = .marking) (ho : Ran s th o) :
    OneByOne ⟨o.shared, rest ++ o.next, trace ++ o.effects⟩ := by
  -- the other messages are to be marked
  have hrest : rest.countP Point.isMarked = 0 := by
    by_cases hstage : th.stage = .marking
    · exact countP_eq_zero.mpr fun th' hth' => by simp [Point.isMarked, halone hstage th' hth']
    · have hlone := h.lone
      simp only [countP_cons_of_pos (show th.isMarked = true from decide_eq_true hstage)] at hlone
      omega
  have hlone (hnext : o.next.length ≤ 1) : (rest ++ o.next).countP Point.isMarked ≤ 1 := by
    have hle := countP_le_length (p := Point.isMarked) (l := o.next)
    rw [countP_append]
    omega
  have hothers {th' : Point} (hth' : th' ∈ rest) (a : Act) (ha : a.awaits th'.stage = true) :
      LastMarked a th'.job.id (trace ++ o.effects) :=
    absurd (isMarked_of_awaits ha) (countP_eq_zero.mp hrest th' hth')
  cases ho with
  | marked hmarking hmark hstage =>
    refine ⟨hlone (le_refl 1), fun th' hth' a ha => ?_,
      h.entries.concat fun a id ha => by cases a <;> exact nomatch ha⟩
    obtain hth' | hth' := mem_append.mp hth'
    · exact hothers hth' a ha
    · obtain rfl := mem_singleton.mp hth'
      exact ⟨trace, [], rfl, rfl, rfl⟩
  | known hmarking =>
    refine ⟨hlone (Nat.zero_le 1), fun th' hth' => ?_, (append_nil trace).symm ▸ h.entries⟩
    exact hothers ((append_nil rest) ▸ hth')
  | ownKnown hmarking hown hseen =>
    exact absurd hseen (hsound.fresh (.head _) hmarking hown)
  | later hmarked hlater =>
    refine ⟨hlone hlater.lone, fun th' hth' a ha => ?_, ?_⟩
    · obtain hth' | hth' := mem_append.mp hth'
      · exact hothers hth' a ha
      · obtain ⟨hjob, -, hawaits⟩ := hlater.next th' hth'
        rw [hjob]
        exact (h.recent th (.head _) a (hawaits a ha).1).append hlater.marks (hawaits a ha).2
    · obtain hnil | ⟨e, hsingle⟩ := hlater.single
      · simp only [hnil, append_nil]
        exact h.entries
      · simp only [hsingle]
        refine h.entries.concat fun a id ha => ?_
        obtain ⟨rfl, hawaits⟩ := hlater.acts e (hsingle ▸ mem_singleton_self e) a id ha
        exact h.recent th (.head _) a hawaits

theorem markedId_of_act (h : a.of e = some id) : e.markedId = none := by
  cases e with
  | marked id => cases a <;> cases h
  | _ => rfl

theorem LastMarked.between {before between : List Effect}
    (h : LastMarked a id (before ++ e :: between)) (he : a.of e = some id) :
    ∃ z y, between = z ++ .marked id :: y := by
  have hne : e ≠ .marked id := by
    rintro rfl
    exact absurd (markedId_of_act he) nofun
  obtain ⟨x, y, heq, -, hdone⟩ := h
  obtain ⟨z, -, hz⟩ | ⟨z, -, hz⟩ := append_eq_append_iff.mp heq
  · cases z with
    | nil => exact absurd (List.cons.inj hz).1 hne
    | cons _ z => exact ⟨z, y, (List.cons.inj hz).2⟩
  cases z with
  | nil => exact absurd (List.cons.inj hz).1.symm hne
  | cons _ z =>
    have hmem : id ∈ a.done y := by
      rw [(List.cons.inj hz).2]
      exact mem_filterMap.mpr ⟨e, mem_append_right _ (.head _), he⟩
    rw [hdone] at hmem
    exact absurd hmem not_mem_nil

/-- Two deliveries, or rounds, of a message are as far apart as its marks. -/
theorem OneByOne.apart {c : Snapshot} (h : OneByOne c) {limit : ℕ}
    (hentries : Chronicle (Entry limit) c.trace) {before between after : List Effect}
    {e' : Effect} (htrace : c.trace = before ++ e :: (between ++ e' :: after))
    (he : a.of e = some id) (he' : a.of e' = some id) :
    limit ≤ ((marks between).toFinset.erase id).card := by
  obtain ⟨x, y, rfl, hy, -⟩ := h.entries before e (between ++ e' :: after) htrace a id he
  obtain ⟨z, y', rfl⟩ := (h.entries (x ++ .marked id :: y ++ e :: between) e' after
    (by simp [htrace]) a id he').between he
  have hspaced := (hentries (x ++ .marked id :: (y ++ e :: z)) (.marked id) (y' ++ e' :: after)
    (by simp [htrace])).spaced id rfl x (y ++ e :: z) rfl
  have hbetween : marks (y ++ e :: z) = marks z := by
    rw [marks_append, hy]
    exact filterMap_cons_none (markedId_of_act he)
  rw [hbetween] at hspaced
  refine hspaced.trans (Finset.card_le_card (Finset.erase_subset_erase id ?_))
  rw [marks_append, toFinset_append]
  exact Finset.subset_union_left

end

/-! ## Runs -/

section

variable {c c' : Snapshot} {m : Move ValidationResult Call}

/-- What is known of the marks and of the entries. -/
structure Orderly (cfg : Config) (me : PeerId) (first : UInt64) (c : Snapshot) : Prop where
  sound : Sound cfg me first c
  entries : Chronicle (Entry cfg.seenLimit) c.trace

theorem Orderly.step (h : Orderly cfg me first c) (hfew : (published c.trace).length < 2 ^ 64)
    (hok : OwnFramesKnown c m) (hstep : program.step c m = some c') : Orderly cfg me first c' := by
  obtain ⟨k, th, verdict, rest, o, rfl, -, hperm, ho, rfl⟩ | ⟨x, o, rfl, ho, rfl⟩ :=
    Program.step_cases hstep
  · cases ho
    have hran := ran_exec c.shared th verdict
    have hsound := h.sound.perm hperm
    exact ⟨hsound.ran hran, hsound.entries_ran h.entries hran⟩
  · have hentered := entered_of_enter ho
    exact ⟨h.sound.entered hok hfew hentered, entries_entered h.entries hentered⟩

theorem OneByOne.step (h : OneByOne c) (hsound : Sound cfg me first c) (halone : Alone c m)
    (hstep : program.step c m = some c') : OneByOne c' := by
  obtain ⟨k, th, verdict, rest, o, rfl, hth, hperm, ho, rfl⟩ | ⟨x, o, rfl, ho, rfl⟩ :=
    Program.step_cases hstep
  · cases ho
    refine OneByOne.ran (hsound.perm hperm) (h.perm hperm) (fun hstage th' hth' => ?_)
      (ran_exec c.shared th verdict)
    exact halone ⟨th, hth, hstage⟩ th' (hperm.mem_iff.mpr (.tail _ hth'))
  · exact h.entered (entered_of_enter ho)

theorem published_le_of_step (hstep : program.step c m = some c') :
    (published c.trace).length ≤ (published c'.trace).length := by
  obtain ⟨_, _, _, _, o, -, -, -, -, rfl⟩ | ⟨_, o, -, -, rfl⟩ := Program.step_cases hstep
  all_goals
    simp only [published_append, length_append]
    omega

theorem orderly_of_reach (h : Reach program OwnFramesKnown (start cfg me first) c)
    (hfew : (published c.trace).length < 2 ^ 64) : Orderly cfg me first c := by
  refine h.invariant (I := fun c => (published c.trace).length < 2 ^ 64 → Orderly cfg me first c)
    (fun _ => ⟨sound_start cfg me first, Chronicle.nil⟩) (fun c m c' ih hok hstep hfew => ?_) hfew
  have hbefore := (published_le_of_step hstep).trans_lt hfew
  exact (ih hbefore).step hbefore hok hstep

theorem oneByOne_of_reach
    (h : Reach program (fun c m => OwnFramesKnown c m ∧ Alone c m) (start cfg me first) c)
    (hfew : (published c.trace).length < 2 ^ 64) : OneByOne c := by
  have hboth := h.invariant
    (I := fun c => (published c.trace).length < 2 ^ 64 → Orderly cfg me first c ∧ OneByOne c)
    (fun _ => ⟨⟨sound_start cfg me first, Chronicle.nil⟩, oneByOne_start cfg me first⟩)
    (fun c m c' ih hok hstep hfew => ?_) hfew
  · exact hboth.2
  · have hbefore := (published_le_of_step hstep).trans_lt hfew
    obtain ⟨horderly, hone⟩ := ih hbefore
    exact ⟨horderly.step hbefore hok.1 hstep, hone.step horderly.sound hok.2 hstep⟩

end

/-! ## Results -/

/-- What holds of every run, with the limit of the node. -/
structure Deduplicated (limit : ℕ) (c : Snapshot) : Prop where
  seen : c.shared.seen.seen = c.shared.seen.order.toFinset
  nodup : c.shared.seen.order.Nodup
  bounded : c.shared.seen.order.length ≤ limit
  /-- A message is not sent back to where it came from. -/
  onward : ∀ id p targets frame, .round id (some p) targets frame ∈ c.trace → p ∉ targets
  /-- A message is delivered, and makes a round, less often than it was marked before. -/
  justified : ∀ (a : Act) id before e after, c.trace = before ++ e :: after → a.of e = some id →
    (a.done before).count id < (marks before).count id
  /-- Between two marks of an id enough others are marked. -/
  spaced : ∀ id before between after,
    c.trace = before ++ .marked id :: (between ++ .marked id :: after) →
    limit ≤ ((marks between).toFinset.erase id).card

/-- Between two deliveries of an id, or two rounds, enough others are marked. -/
def Apart (limit : ℕ) (trace : List Effect) : Prop :=
  ∀ (a : Act) id before e between e' after, trace = before ++ e :: (between ++ e' :: after) →
    a.of e = some id → a.of e' = some id → limit ≤ ((marks between).toFinset.erase id).card

/-- **A message is not handled twice** before `seen_limit` others are marked. -/
theorem messages_deduplicated (cfg : Config) (me : PeerId) (first : UInt64) (c : Snapshot)
    (h : Reach program OwnFramesKnown (start cfg me first) c)
    (hfew : (published c.trace).length < 2 ^ 64) : Deduplicated cfg.seenLimit c ∧
      (Reach program (fun c m => OwnFramesKnown c m ∧ Alone c m) (start cfg me first) c →
        Apart cfg.seenLimit c.trace) := by
  obtain ⟨hsound, hentries⟩ := orderly_of_reach h hfew
  refine ⟨⟨hsound.tracks.seen, hsound.tracks.nodup, hsound.tracks.length_le, ?_, ?_, ?_⟩, ?_⟩
  · intro id p targets frame hmem
    obtain ⟨before, after, htrace⟩ := append_of_mem hmem
    exact (hentries before _ after htrace).onward id p targets frame rfl
  · intro a id before e after htrace
    exact (hentries before e after htrace).justified a id
  · intro id before between after htrace
    exact (hentries (before ++ .marked id :: between) (.marked id) after (by simp [htrace])).spaced
      id rfl before between rfl
  · intro hreach a id before e between e' after htrace he he'
    exact (oneByOne_of_reach hreach hfew).apart hentries htrace he he'

instance (c : Snapshot) (m : Move ValidationResult Call) : Decidable (OwnFramesKnown c m) := by
  unfold OwnFramesKnown
  split
  · split <;> infer_instance
  · infer_instance

/-- A frame comes from two peers; it is handled, sent on, and known from then on. -/
theorem messages_deduplicated_twice : ∃ c,
    Reach program OwnFramesKnown (start {} 0 0) c ∧ Deduplicated 8192 c ∧
      Act.forward.done c.trace = [makeId 7 1] := by
  obtain ⟨c, hreach, hround, hfew⟩ : ∃ c, Reach program OwnFramesKnown (start {} 0 0) c ∧
      Act.forward.done c.trace = [makeId 7 1] ∧ (published c.trace).length < 2 ^ 64 :=
    Reach.exists_of_moves
      [.call (.subscribe [97] .smallest), .call (.gossip 8 (buildCtrl .graft [97]) .smallest),
        .call (.gossip 5 (buildPublish 7 1 [97] [1]) .smallest), .exec 0 .accept, .exec 0 .accept,
        .exec 0 .accept, .exec 0 .accept, .exec 0 .accept,
        .call (.gossip 6 (buildPublish 7 1 [97] [1]) .smallest), .exec 0 .accept]
      (by decide +kernel)
  exact ⟨c, hreach, (messages_deduplicated {} 0 0 c hreach hfew).1, hround⟩

/-- A node that knows one id only: a message is delivered; the handler publishes another; the first
is sent on, comes again, and is sent on again. -/
def forgetful : List (Move ValidationResult Call) :=
  [.call (.subscribe [97] .smallest), .call (.gossip 8 (buildCtrl .graft [97]) .smallest),
    .call (.gossip 5 (buildPublish 7 1 [97] [1]) .smallest),
    .exec 0 .accept, .exec 0 .accept, .exec 0 .accept, .exec 0 .accept,
    .call (.publish [98] [2] .smallest 0), .exec 1 .accept, .exec 1 .accept, .exec 1 .accept,
    .exec 1 .accept, .exec 0 .accept,
    .call (.gossip 6 (buildPublish 7 1 [97] [1]) .smallest),
    .exec 0 .accept, .exec 0 .accept, .exec 0 .accept, .exec 0 .accept, .exec 0 .accept]

/-- **Two rounds can be close to each other.** -/
theorem rounds_close : ∃ c, Reach program OwnFramesKnown (start { seenLimit := 1 } 0 0) c ∧
    (published c.trace).length < 2 ^ 64 ∧ ∃ before between after,
      c.trace = before ++ .round (makeId 7 1) (some 5) {8} (buildPublish 7 1 [97] [1]) ::
        (between ++ .round (makeId 7 1) (some 6) {8} (buildPublish 7 1 [97] [1]) :: after) ∧
      ((marks between).toFinset.erase (makeId 7 1)).card < 1 := by
  obtain ⟨c, hreach, hfew, htrace, hmarks⟩ : ∃ c,
      Reach program OwnFramesKnown (start { seenLimit := 1 } 0 0) c ∧
      (published c.trace).length < 2 ^ 64 ∧
      c.trace = c.trace.take 9 ++ .round (makeId 7 1) (some 5) {8} (buildPublish 7 1 [97] [1]) ::
        ((c.trace.drop 10).take 2 ++
          .round (makeId 7 1) (some 6) {8} (buildPublish 7 1 [97] [1]) :: c.trace.drop 13) ∧
      ((marks ((c.trace.drop 10).take 2)).toFinset.erase (makeId 7 1)).card < 1 :=
    Reach.exists_of_moves forgetful (by decide +kernel)
  exact ⟨c, hreach, hfew, _, _, _, htrace, hmarks⟩

end Librats.PubSub
