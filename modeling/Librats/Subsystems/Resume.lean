import Librats.Subsystems.Uploads

/-!
# Paused uploads that go on

A worker that finds its upload paused leaves `run_send` and clears `worker_active` in a second
critical section; an id queued in between is dropped (`resume_lost`).
-/

namespace Librats.FileTransfer

open Objects Interleaving List Multiset

variable {P : Type}

namespace Upload.Section

/-- The sections of the worker that has set `worker_active`. -/
def Owner : Section → Bool
  | .look | .sendEmpty _ | .countEmpty | .read _ _ _ | .count _ _ _ | .sendEnd _ _ | .emit | .window
  | .release => true
  | .finish _ back | .unlist _ back | .report _ back => back
  | _ => false

/-- A worker inside `run_send` that looks at the transfer again. -/
def LooksAgain : Section → Prop
  | .look | .sendEmpty _ | .countEmpty | .read _ _ _ | .count _ _ _ | .sendEnd _ _ | .emit
  | .window => True
  | .finish _ back => back = true
  | _ => False

/-- A thread that looks at the transfer again, or is about to queue or claim it. -/
def Attends (sec : Section) : Prop := sec.LooksAgain ∨ sec = .queueSend ∨ sec = .claim

theorem looksAgain_of_owner {sec : Section} (h : sec.Owner = true) :
    sec.LooksAgain ∨ sec.Closing = true ∨ sec = .release := by
  cases sec <;> simp_all [Owner, LooksAgain, Closing]

theorem owner_of_entry {sec : Section} (h : sec.Entry) : sec.Owner = false := by
  cases sec <;> simp_all [Owner, Entry]

end Upload.Section

/-- There is something to send, and nothing keeps it from being sent. -/
structure Upload.Ready (x : Upload P) : Prop where
  active : x.t.status = .active
  unfinished : x.t.finished = false
  unsent : x.t.curFile < x.t.files.length

instance (x : Upload P) : Decidable x.Ready :=
  decidable_of_iff (x.t.status = .active ∧ x.t.finished = false ∧ x.t.curFile < x.t.files.length)
    ⟨fun h => ⟨h.1, h.2.1, h.2.2⟩, fun h => ⟨h.active, h.unfinished, h.unsent⟩⟩

namespace Sender

variable {cfg : Config} {sha256 : Bytes → Bytes} {sec : Upload.Section} {i : Upload.Reading}
    {rest : Multiset Upload.Section}

variable (cfg sha256) in
theorem sect_owner (r : ℕ) (x : Upload P) (g : Sender) (i : Upload.Reading)
    (h : sec.Owner = true → x.workerActive = true) :
    (sect cfg sha256 r x g i sec).next.countP Upload.Section.Owner + x.workerActive.toNat =
      sec.Owner.toNat + (sect cfg sha256 r x g i sec).object.workerActive.toNat := by
  cases sec with
  | claim =>
    simp only [sect, Upload.exec]
    split_ifs with hw <;> simp [Upload.Section.Owner, hw]
  | release => simp [sect, Upload.exec, h rfl, Upload.Section.Owner]
  | finish success back =>
    simp only [sect, Upload.exec, Upload.finish]
    split_ifs <;> cases back <;> simp [Upload.leave, Upload.Section.Owner, add_comm]
  | report success back | unlist success back =>
    cases back <;> simp [sect, Upload.exec, Upload.leave, Upload.Section.Owner, add_comm]
  | _ =>
    simp only [sect, Upload.exec, Upload.look, Upload.read, Upload.count]
    repeat' split
    all_goals simp [Upload.Section.Owner, add_comm]

theorem looksAgain_next {r : ℕ} {x : Upload P} {g : Sender} (hsec : sec.LooksAgain)
    (h : (sect cfg sha256 r x g i sec).object.Ready) :
    ∃ sec' ∈ (sect cfg sha256 r x g i sec).next, sec'.LooksAgain := by
  obtain ⟨hactive, hunfinished, hunsent⟩ := h
  cases sec with
  | finish success back =>
    simp only [sect, Upload.exec, Upload.finish] at hunfinished
    split_ifs at hunfinished with hf
    cases hf.symm.trans hunfinished
  | look =>
    by_cases hst : x.t.status = .active
    · cases hf : x.t.files[x.t.curFile]? with
      | none =>
        simp only [sect, Upload.exec, Upload.look, hst, hf]
          at hunsent
        exact absurd hunsent (getElem?_eq_none_iff.mp hf).not_gt
      | some f =>
        simp only [sect, Upload.exec, Upload.look, hst, hf]
        refine ⟨_, List.mem_singleton.mpr rfl, ?_⟩
        split_ifs <;> trivial
    · simp only [sect, Upload.exec, Upload.look, ne_eq, hst, not_false_eq_true, if_true] at hactive
  | sendEmpty fidx | countEmpty | sendEnd fidx digest | emit =>
    exact ⟨_, List.mem_singleton.mpr rfl, trivial⟩
  | read fidx offset size =>
    simp only [sect, Upload.exec, Upload.read]
    repeat' split
    all_goals exact ⟨_, List.mem_singleton.mpr rfl, by simp [Upload.Section.LooksAgain]⟩
  | count fidx size data =>
    simp only [sect, Upload.exec, Upload.count]
    split_ifs
    all_goals exact ⟨_, List.mem_singleton.mpr rfl, trivial⟩
  | window =>
    simp only [sect, Upload.exec]
    split_ifs
    all_goals exact ⟨_, List.mem_singleton.mpr rfl, trivial⟩
  | _ => exact hsec.elim

/-- Any other section that leaves something to send queues the transfer, or there was something
before. -/
theorem ready_or_queues {r : ℕ} {x : Upload P} {g : Sender} (hsec : ¬sec.LooksAgain)
    (h : (sect cfg sha256 r x g i sec).object.Ready) :
    x.Ready ∨ .queueSend ∈ (sect cfg sha256 r x g i sec).next := by
  obtain ⟨hactive, hunfinished, hunsent⟩ := h
  cases sec with
  | response => exact .inr (List.mem_singleton.mpr rfl)
  | peerResume | resume =>
    simp only [sect, Upload.exec] at hactive hunfinished hunsent ⊢
    split_ifs at hactive hunfinished hunsent ⊢ with hp
    · exact .inr (List.mem_singleton.mpr rfl)
    · exact .inl ⟨hactive, hunfinished, hunsent⟩
  | peerCancel => cases hactive
  | peerPause | pause | cancel =>
    simp only [sect, Upload.exec] at hactive hunfinished hunsent
    split_ifs at hactive hunfinished hunsent
    exact .inl ⟨hactive, hunfinished, hunsent⟩
  | expire | claim =>
    simp only [sect, Upload.exec] at hactive hunfinished hunsent
    split_ifs at hactive hunfinished hunsent
    all_goals exact .inl ⟨hactive, hunfinished, hunsent⟩
  | finish success back =>
    simp only [sect, Upload.exec, Upload.finish] at hunfinished
    split_ifs at hunfinished with hf
    cases hf.symm.trans hunfinished
  | offer _ | progress _ | queueSend | unlist _ _ | report _ _ | release =>
    exact .inl ⟨hactive, hunfinished, hunsent⟩
  | _ => exact absurd trivial hsec

/-! ## Runs -/

variable [DecidableEq P] {c c' : Snapshot P} {m : Move P} {r : ℕ}
  {v v' : Objects.View (Upload P) Sender Upload.Section (Upload.Note P)}

/-- A worker that has taken the id of a transfer finds it owned and drops the id, while the owner
has left `run_send` and is about to say so. -/
def drops (c : Snapshot P) : Move P → Bool
  | .exec k _ =>
    match c.threads[k]? with
    | some (.on r .claim) =>
      c.shared.objects[r]?.any (·.workerActive) && .release ∈ sectionsOn r c.threads
    | _ => false
  | .call _ => false

/-- The id is queued or with a worker, or a thread attends to the transfer. -/
def Attended (c : Snapshot P)
    (v : Objects.View (Upload P) Sender Upload.Section (Upload.Note P)) : Prop :=
  v.object.t.id ∈ v.globals.queue ∨ (∃ sec ∈ v.sections, sec.Attends) ∨
    .free (.find v.object.t.id .claim) ∈ c.threads

/-- The owner is the only one, and what is to be sent is attended to. -/
structure Resumable (c : Snapshot P)
    (v : Objects.View (Upload P) Sender Upload.Section (Upload.Note P)) : Prop where
  owner : tally Upload.Section.Owner v.sections = v.object.workerActive.toNat
  attended : v.object.Ready → Attended c v

theorem Attended.own {k : ℕ} (h : Attended c v) (hsec : ¬sec.Attends)
    (hstep : (program cfg sha256).step c (.exec k i) = some c')
    (hk : c.threads[k]? = some (.on r sec)) (hrest : v.sections = sec ::ₘ rest) :
    Attended c' (v.exec (code cfg sha256) r i sec rest) := by
  have hid : (v.exec (code cfg sha256) r i sec rest).object.t.id = v.object.t.id :=
    sect_id cfg sha256 r v.object v.globals i sec
  rw [Attended, hid]
  obtain hqueue | ⟨sec', hmem, hattends⟩ | hfree := h
  · left
    simp only [View.exec, code]
    obtain hg | ⟨-, hg⟩ | ⟨_, _, -, hg⟩ := sect_globals cfg sha256 r v.object v.globals i sec
    · rwa [hg]
    · rw [hg]
      exact mem_append_left _ hqueue
    · rwa [hg]
  · rw [hrest, Multiset.mem_cons] at hmem
    obtain rfl | hmem := hmem
    · exact absurd hattends hsec
    · exact .inr (.inl ⟨sec', mem_add.mpr (.inl hmem), hattends⟩)
  · refine .inr (.inr (Code.mem_threads hstep hfree fun k' i' hm hk' => ?_))
    obtain ⟨rfl, -⟩ := Move.exec.inj hm
    cases hk.symm.trans hk'

omit [DecidableEq P] in
/-- A worker that finds the transfer owned leaves it to one that looks again. -/
theorem exists_looksAgain (hacc : Accounted r v)
    (howner : tally Upload.Section.Owner v.sections = v.object.workerActive.toNat)
    (hactive : v.object.workerActive = true) (hrest : v.sections = .claim ::ₘ rest)
    (hunfinished : v.object.t.finished = false) (hrelease : .release ∉ v.sections) :
    ∃ sec ∈ rest, sec.LooksAgain := by
  rw [hrest, tally_cons, hactive] at howner
  have hpos : 0 < tally Upload.Section.Owner rest := by
    simp only [Upload.Section.Owner, Bool.toNat_false, Bool.toNat_true] at howner
    omega
  obtain ⟨sec, hmem, hsec⟩ := tally_pos.mp hpos
  have hmem' : sec ∈ v.sections := hrest ▸ mem_cons_of_mem hmem
  obtain hlooks | hclosing | rfl := Upload.Section.looksAgain_of_owner hsec
  · exact ⟨sec, hmem, hlooks⟩
  · cases (hacc.finished hmem' hclosing).symm.trans hunfinished
  · exact absurd hmem' hrelease

theorem Resumable.own {k : ℕ} (hI : Resumable c v) (hacc : Accounted r v)
    (hok : drops c (.exec k i) = false)
    (hstep : (program cfg sha256).step c (.exec k i) = some c') (hv : view c r = some v)
    (hk : c.threads[k]? = some (.on r sec)) (hsec : v.sections = sec ::ₘ rest) :
    Resumable c' (v.exec (code cfg sha256) r i sec rest) := by
  have hone := hI.owner
  rw [hsec, tally_cons] at hone
  refine ⟨?_, fun hready => ?_⟩
  · have howner : sec.Owner = true → v.object.workerActive = true := by
      intro h
      cases hw : v.object.workerActive with
      | true => rfl
      | false =>
        rw [h, hw] at hone
        simp at hone
    have hnext := sect_owner cfg sha256 r v.object v.globals i howner
    simp only [View.exec, code, tally_add, tally_coe]
    omega
  have goes_on {sec' : Upload.Section}
      (hnext : sec' ∈ (sect cfg sha256 r v.object v.globals i sec).next) (h : sec'.Attends) :
      Attended c' (v.exec (code cfg sha256) r i sec rest) :=
    .inr (.inl ⟨sec', mem_add.mpr (.inr hnext), h⟩)
  by_cases hlooks : sec.LooksAgain
  · obtain ⟨sec', hnext, hsec'⟩ := looksAgain_next hlooks hready
    exact goes_on hnext (.inl hsec')
  obtain hbefore | hqueues := ready_or_queues hlooks hready
  · by_cases hqueue : sec = .queueSend
    · subst hqueue
      exact .inl (List.mem_append_right _ (List.mem_singleton.mpr rfl))
    by_cases hclaim : sec = .claim
    · subst hclaim
      cases hw : v.object.workerActive with
      | true =>
        obtain ⟨hobj, -, hsecs, -⟩ := view_eq_some.mp hv
        have hrelease : .release ∉ v.sections := by
          simpa [drops, hk, hobj, hw, hsecs] using hok
        obtain ⟨sec', hmem, hsec'⟩ :=
          exists_looksAgain hacc hI.owner hw hsec hbefore.unfinished hrelease
        exact .inr (.inl ⟨sec', mem_add.mpr (.inl hmem), .inl hsec'⟩)
      | false =>
        have hlook : .look ∈ (sect cfg sha256 r v.object v.globals i .claim).next := by
          simp [sect, Upload.exec, hw]
        exact goes_on hlook (.inl trivial)
    · have hnot : ¬sec.Attends := fun h => h.elim hlooks fun h => h.elim hqueue hclaim
      exact (hI.attended hbefore).own hnot hstep hk hsec
  · exact goes_on hqueues (.inr (.inl rfl))

/-- What attends to a transfer stays at a step elsewhere; a worker that has taken the id finds the
transfer. -/
theorem Attended.elsewhere (h : Attended c v) (hlisted :
      v.globals.outgoing.lookup v.object.t.id = some r)
    (hstep : (program cfg sha256).step c m = some c') (hv : view c r = some v)
    (hv' : view c' r = some v') (he : Elsewhere c' r v v') : Attended c' v' := by
  obtain ⟨-, hglob, -, -⟩ := view_eq_some.mp hv
  obtain ⟨-, -, hsecs', -⟩ := view_eq_some.mp hv'
  obtain ⟨secs, hsecs, -⟩ := he.sections
  rw [Attended, he.object]
  obtain hqueue | ⟨sec, hmem, hattends⟩ | hfree := h
  · exact (he.queued hqueue).elim .inl fun h => .inr (.inr h)
  · exact .inr (.inl ⟨sec, hsecs ▸ mem_add.mpr (.inl hmem), hattends⟩)
  by_cases hmove : ∃ k i, m = .exec k i ∧ c.threads[k]? = some (.free (.find v.object.t.id .claim))
  · obtain ⟨k, i, rfl, hk⟩ := hmove
    have hthreads := (Code.after_free hstep hk rfl).2
    rw [hglob, hlisted] at hthreads
    have hclaim : .on r .claim ∈ c'.threads :=
      hthreads ▸ List.mem_append_right _ (List.mem_singleton.mpr rfl)
    exact .inr (.inl ⟨.claim, hsecs' ▸ mem_sectionsOn.mpr hclaim, .inr (.inr rfl)⟩)
  · exact .inr (.inr (Code.mem_threads hstep hfree fun k i hm hk => hmove ⟨k, i, hm, hk⟩))

theorem resumable_of_reach (h : Reach (program cfg sha256) (fun c m => drops c m = false) start c)
    (hv : view c r = some v) : Resumable c v := by
  refine upload_invariant (I := fun c _ v => Resumable c v) h ?_ ?_ ?_ hv
  · intro c r v hfresh
    obtain ⟨message, hsec⟩ := hfresh.sections
    refine ⟨?_, fun hready => ?_⟩
    · rw [hsec, hfresh.idle]
      rfl
    · cases hfresh.status.symm.trans hready.active
  · intro c k i c' r v sec rest hreach hok hstep hv hk hsec hI
    exact hI.own (accounted_of_reach hreach hv) hok hstep hv hk hsec
  intro c m c' r v v' hreach _ hstep hv hv' he hI
  obtain ⟨secs, hsecs, hentry⟩ := he.sections
  refine ⟨?_, fun hready => ?_⟩
  · have hnone : tally Upload.Section.Owner secs = 0 :=
      tally_eq_zero fun sec hsec => Upload.Section.owner_of_entry (hentry sec hsec)
    rw [hsecs, tally_add, hnone, he.object]
    exact hI.owner
  · rw [he.object] at hready
    have hlisted := (accounted_of_reach hreach hv).listed hready.unfinished
    exact (hI.attended hready).elsewhere hlisted hstep hv hv' he

/-- **No lost resume**: if no worker drops an id while the owner of the transfer is on its way out,
an active transfer with something to send is queued, or a worker looks at it again, or a thread is
about to queue or claim it. -/
theorem resume_kept (h : Reach (program cfg sha256) (fun c m => drops c m = false) start c)
    {x : Upload P} (hx : c.shared.objects[r]? = some x) (hactive : x.t.status = .active)
    (hunfinished : x.t.finished = false) (hunsent : x.t.curFile < x.t.files.length) :
    x.t.id ∈ c.shared.globals.queue ∨ (∃ sec, .on r sec ∈ c.threads ∧ sec.LooksAgain) ∨
    .on r .queueSend ∈ c.threads ∨ .on r .claim ∈ c.threads ∨
      .free (.find x.t.id .claim) ∈ c.threads := by
  have hv : view c r = some ⟨x, c.shared.globals, sectionsOn r c.threads, notesOn r c.trace⟩ :=
    view_eq_some.mpr ⟨hx, rfl, rfl, rfl⟩
  have hready : x.Ready := ⟨hactive, hunfinished, hunsent⟩
  obtain hqueue | ⟨sec, hmem, hlooks | rfl | rfl⟩ | hfree := (resumable_of_reach h hv).attended hready
  · exact .inl hqueue
  · exact .inr (.inl ⟨sec, mem_sectionsOn.mp hmem, hlooks⟩)
  · exact .inr (.inr (.inl (mem_sectionsOn.mp hmem)))
  · exact .inr (.inr (.inr (.inl (mem_sectionsOn.mp hmem))))
  · exact .inr (.inr (.inr (.inr hfree)))

/-- The transfer is paused under a worker, which leaves; then it is resumed. -/
def pausedThenResumed : List (Move ℕ) :=
  .call .take :: goesOn 0 2 ++ .call (.pause 1) :: goesOn 1 2 ++ goesOn 0 2 ++
    .call (.resume 1) :: goesOn 0 3

theorem resume_kept_pausedThenResumed : ∃ c x,
    runFrom (fun c m => !drops c m) pausedThenResumed = some c ∧
      c.shared.objects[0]? = some x ∧ x.Ready ∧ (x.t.id ∈ c.shared.globals.queue ∨
        (∃ sec, .on 0 sec ∈ c.threads ∧ sec.LooksAgain) ∨
        .on 0 .queueSend ∈ c.threads ∨ .on 0 .claim ∈ c.threads ∨
          .free (.find x.t.id .claim) ∈ c.threads) := by
  obtain ⟨c, hc, x, hx, hready⟩ : ∃ c,
      runFrom (fun c m => !drops c m) pausedThenResumed = some c ∧
        ∃ x ∈ c.shared.objects[0]?, x.Ready :=
    Program.exists_run (by decide +kernel)
  have hreach := (Reach.of_run hc).mono fun c m (h : (!drops c m) = true) =>
    (Bool.not_eq_true' _).mp h
  exact ⟨c, x, hc, hx, hready,
    resume_kept hreach hx hready.active hready.unfinished hready.unsent⟩

/-- The worker has seen the pause and leaves; the resume queues the id, and a second worker takes it
before `worker_active` is cleared. -/
def resumedOnTheWayOut : List (Move ℕ) :=
  .call .take :: goesOn 0 2 ++ .call (.pause 1) :: goesOn 1 2 ++ goesOn 0 1 ++
    .call (.resume 1) :: goesOn 1 3 ++ .call .take :: goesOn 1 2 ++ goesOn 0 1

/-- **A resume is lost**: there is something to send, the queue is empty and no thread is left. -/
theorem resume_lost : ∃ c, runFrom (fun _ _ => true) resumedOnTheWayOut = some c ∧
    (∃ x ∈ c.shared.objects[0]?, x.Ready) ∧ c.shared.globals.queue = [] ∧ c.threads = [] :=
  Program.exists_run (by decide +kernel)

end Sender

end Librats.FileTransfer
