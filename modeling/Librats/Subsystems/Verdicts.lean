import Librats.Subsystems.OneTransfer
import Librats.Subsystems.Uploads

/-!
# One verdict for each transfer

`finish_incoming` and `finish_outgoing` set `finished` under a lock and go on only if it was not
set. `reject` reports a failure without the flag, so an accepted transfer that is rejected while a
disk worker has a job for it can be reported twice (`rejected_then_completed`).
-/

namespace Librats.FileTransfer

open Objects Interleaving List Multiset Note Sender

variable {P : Type}

/-- What `complete_handler_` is told. -/
def Note.verdict : Note P → Option Bool
  | .completed _ success _ => some success
  | _ => none

/-- What is left of `finish_incoming` once the transfer is finished. -/
def Section.Closing : Section → Bool
  | .unlist _ _ _ | .report _ _ _ => true
  | _ => false

/-- The steps of `reject` on a transfer. -/
def Section.Rejecting : Section → Prop
  | .withdraw | .refuse => True
  | _ => False

variable {sec : Section}

theorem Section.closing_of_entry (h : sec.Entry) : sec.Closing = false := by
  cases sec <;> first | rfl | exact h.elim

theorem Section.not_rejecting_of_inner (h : sec.Inner) : ¬sec.Rejecting := by
  cases sec <;> first | exact id | exact h.elim

theorem Section.eq_withdraw_of_entry (h : sec.Entry) (hr : sec.Rejecting) : sec = .withdraw := by
  cases sec <;> first | rfl | exact hr.elim | exact h.elim

/-- At most one verdict, and in particular no success after a failure. -/
def OneVerdict (verdicts : List Bool) : Prop :=
  verdicts.length ≤ 1 ∧ ¬[false, true].Sublist verdicts

theorem OneVerdict.of_length {verdicts : List Bool} (h : verdicts.length ≤ 1) :
    OneVerdict verdicts :=
  ⟨h, fun hsub => absurd (hsub.length_le.trans h) (by simp)⟩

/-! ## Incoming transfers -/

namespace Transfer

variable (cfg : Config) (sha256 : Bytes → Bytes) (hex : P → Bytes)

omit cfg sha256 hex in
@[simp] theorem countP_closing_resumeDrain (back : Bool) :
    (resumeDrain back).countP Section.Closing = 0 := by
  cases back <;> rfl

omit cfg sha256 hex in
@[simp] theorem countP_closing_waking (x : Transfer P) : x.waking.countP Section.Closing = 0 := by
  unfold waking
  split_ifs <;> rfl

/-- A section other than those of `reject` hands on the verdict it owes. -/
theorem exec_verdicts (x : Transfer P) (disk : Disk) (a : Answer) {sec : Section}
    (hlocal : sec.Local) (hsec : ¬sec.Rejecting) :
    (x.exec cfg sha256 hex disk a sec).notes.countP (·.verdict.isSome) +
        (x.exec cfg sha256 hex disk a sec).next.countP Section.Closing + x.t.finished.toNat =
      sec.Closing.toNat + (x.exec cfg sha256 hex disk a sec).transfer.t.finished.toNat := by
  have hqueues := x.exec_queues cfg sha256 hex disk a sec
  cases sec with
  | chunk | fileEnd =>
    obtain h | ⟨e, h⟩ | ⟨t, hq, h⟩ := hqueues _ rfl
    · simp [h, Section.Closing]
    · simp [h, refusal, verdict, Section.Closing]
    · simp [h, hq.finished, verdict, Section.Closing]
  | finish success error back =>
    simp only [exec, finish]
    split_ifs with hf
    · simp [verdict, Section.Closing]
    · simp [verdict, Section.Closing, hf]
  | report success dest back => simp [exec, verdict, Section.Closing]
  | unlist _ _ _ | schedule | withdraw => exact hlocal.elim
  | refuse => exact absurd trivial hsec
  | _ =>
    simp only [exec, accept, respond, drainWrites, processData, openTemp, write, record,
      processFileEnd, closeTemp, clear, create, discard, rename, copy, placed, failed]
    repeat' split
    all_goals simp [verdict, Section.Closing, Writer.closing]

end Transfer

/-- How many verdicts have been given. -/
def verdicts (notes : List (Note P)) : ℕ := notes.countP (·.verdict.isSome)

@[simp] theorem verdicts_append (l l' : List (Note P)) :
    verdicts (l ++ l') = verdicts l + verdicts l' := countP_append

theorem verdicts_destroy (x : Transfer P) (disk : Disk) (ok : Bool) :
    verdicts (x.destroy disk ok).notes = 0 := by
  simp [verdicts, Transfer.destroy, Writer.closing, verdict]

/-- What is settled about the verdict of a transfer. -/
inductive Phase (v : View P) : Prop
  /-- Nobody has rejected it; the verdict is due or given once it is finished. -/
  | live (unrejected : ∀ sec ∈ v.sections, ¬sec.Rejecting)
      (account : verdicts v.notes + tally Section.Closing v.sections = v.transfer.t.finished.toNat)
  /-- `reject` has found it and is alone with it. -/
  | rejecting (sections : v.sections = {.withdraw}) (unready : v.ready = 0)
      (unjudged : verdicts v.notes = 0)
  /-- `reject` has taken it off the map. -/
  | refusing (sections : v.sections = {.refuse}) (unready : v.ready = 0) (unlisted : ¬v.listed)
      (unjudged : verdicts v.notes = 0)
  | rejected (sections : v.sections = 0) (unready : v.ready = 0) (unlisted : ¬v.listed)
      (judged : verdicts v.notes = 1)

namespace Phase

variable {cfg : Config} {sha256 : Bytes → Bytes} {hex : P → Bytes} {v v' : View P} {act : Act}

theorem verdicts_le_one (h : Phase v) : verdicts v.notes ≤ 1 := by
  cases h with
  | live _ account =>
    have := v.transfer.t.finished.toNat_le
    omega
  | rejecting _ _ unjudged => omega
  | refusing _ _ _ unjudged => omega
  | rejected _ _ _ judged => omega

/-- A step on a transfer that nobody has rejected: when `reject` finds it, nothing else is under way
for it and it is not finished. -/
theorem of_live (unrejected : ∀ sec ∈ v.sections, ¬sec.Rejecting)
    (account : verdicts v.notes + tally Section.Closing v.sections = v.transfer.t.finished.toNat)
    (hs : v.Step cfg sha256 hex act v')
    (halone : ∀ secs touched, act = .found secs touched → .withdraw ∈ secs →
      secs = [.withdraw] ∧ v.sections = 0 ∧ v.ready = 0 ∧ v.transfer.t.finished = false) :
    Phase v' := by
  have hrest {sec : Section} {rest : Multiset Section} (hsec : v.sections = sec ::ₘ rest) :
      ∀ sec' ∈ rest, ¬sec'.Rejecting := fun sec' h =>
    unrejected sec' (hsec ▸ mem_cons_of_mem h)
  cases hs with
  | @own sec a rest hsec hlocal =>
    have hnot := unrejected sec (hsec ▸ mem_cons_self _ _)
    have hone := v.transfer.exec_verdicts cfg sha256 hex v.disk a hlocal hnot
    rw [hsec, tally_cons] at account
    refine .live (fun sec' h => ?_) ?_
    · obtain h | h := mem_add.mp h
      · exact hrest hsec sec' h
      · have hinner := v.transfer.exec_next cfg sha256 hex v.disk a sec sec' h
        exact Section.not_rejecting_of_inner hinner
    · simp only [View.exec, verdicts_append, tally_add, tally_coe]
      rw [← verdicts] at hone
      omega
  | @schedule a rest hsec =>
    rw [hsec] at account
    refine .live (hrest hsec) ?_
    simpa [Section.Closing] using account
  | @unlist a rest success back dest hsec =>
    rw [hsec] at account
    refine .live (fun sec' h => ?_) ?_
    · obtain rfl | h := mem_cons.mp h
      · exact id
      · exact hrest hsec sec' h
    · simpa [tally_cons, Section.Closing] using account
  | withdraw hsec => exact absurd trivial (unrejected .withdraw (by rw [hsec]; simp))
  | take hready =>
    refine .live (fun sec' h => ?_) ?_
    · obtain rfl | h := mem_cons.mp h
      · exact id
      · exact unrejected sec' h
    · simpa [Section.Closing] using account
  | @found secs touched listed disk hlisted hentry hstill helse =>
    by_cases hw : .withdraw ∈ secs
    · obtain ⟨rfl, hsec, hready, hfin⟩ := halone secs touched rfl hw
      refine .rejecting (by simp [hsec]) hready ?_
      rw [hfin] at account
      exact Nat.eq_zero_of_add_eq_zero_right account
    · have hnone : tally Section.Closing (secs : Multiset Section) = 0 :=
        tally_eq_zero fun sec h => Section.closing_of_entry (hentry sec h)
      refine .live (fun sec' h => ?_) ?_
      · obtain h | h := mem_add.mp h
        · exact unrejected sec' h
        · exact fun hr => hw (Section.eq_withdraw_of_entry (hentry sec' h) hr ▸ h)
      · simpa [tally_add, hnone] using account
  | destroy hidle hready hlisted =>
    refine .live unrejected ?_
    simp only [View.destroyed, verdicts_append, verdicts_destroy]
    exact account

/-- A step on a transfer that `reject` has yet to take off the map: no other thread finds it. -/
theorem of_rejecting (sections : v.sections = {.withdraw}) (unready : v.ready = 0)
    (unjudged : verdicts v.notes = 0) (hs : v.Step cfg sha256 hex act v')
    (hunseen : ∀ secs touched, act = .found secs touched → secs = []) : Phase v' := by
  have hmem {sec : Section} {rest : Multiset Section} (hsec : v.sections = sec ::ₘ rest) :
      .withdraw = sec ∧ rest = 0 :=
    (singleton_eq_cons_iff _).mp (sections ▸ hsec)
  cases hs with
  | own hsec hlocal =>
    obtain ⟨rfl, -⟩ := hmem hsec
    exact hlocal.elim
  | schedule hsec | unlist hsec => cases (hmem hsec).1
  | withdraw hsec =>
    obtain ⟨-, rfl⟩ := hmem hsec
    refine .refusing rfl unready id ?_
    rw [verdicts_append, unjudged]
    rfl
  | take hready => omega
  | @found secs touched listed disk hlisted hentry hstill helse =>
    obtain rfl := hunseen secs touched rfl
    exact .rejecting (by simpa using sections) unready unjudged
  | destroy hidle => simp [sections] at hidle

theorem of_refusing (sections : v.sections = {.refuse}) (unready : v.ready = 0)
    (unlisted : ¬v.listed) (unjudged : verdicts v.notes = 0) (hs : v.Step cfg sha256 hex act v') :
    Phase v' := by
  have hmem {sec : Section} {rest : Multiset Section} (hsec : v.sections = sec ::ₘ rest) :
      .refuse = sec ∧ rest = 0 :=
    (singleton_eq_cons_iff _).mp (sections ▸ hsec)
  cases hs with
  | own hsec hlocal =>
    obtain ⟨rfl, rfl⟩ := hmem hsec
    refine .rejected rfl unready unlisted ?_
    simp only [View.exec, verdicts_append, unjudged]
    rfl
  | schedule hsec | unlist hsec | withdraw hsec => cases (hmem hsec).1
  | take hready => omega
  | @found secs touched listed disk hlisted hentry hstill helse =>
    obtain rfl : secs = [] := by_contra fun hne => unlisted (hlisted hne)
    exact .refusing (by simpa using sections) unready (fun h => unlisted (hstill h)) unjudged
  | destroy hidle => simp [sections] at hidle

theorem of_rejected (sections : v.sections = 0) (unready : v.ready = 0)
    (unlisted : ¬v.listed) (judged : verdicts v.notes = 1) (hs : v.Step cfg sha256 hex act v') :
    Phase v' := by
  cases hs with
  | own hsec | schedule hsec | unlist hsec | withdraw hsec => simp [sections] at hsec
  | take hready => omega
  | @found secs touched listed disk hlisted hentry hstill helse =>
    obtain rfl : secs = [] := by_contra fun hne => unlisted (hlisted hne)
    exact .rejected (by simpa using sections) unready (fun h => unlisted (hstill h)) judged
  | destroy =>
    refine .rejected sections unready unlisted ?_
    simp [View.destroyed, verdicts_append, verdicts_destroy, judged]

end Phase

namespace Receiver

variable [DecidableEq P] {cfg : Config} {sha256 : Bytes → Bytes} {hex : P → Bytes}

/-- The step of a thread or a call that finds the transfer in the map. -/
def Finding (c : Snapshot P) (m : Move P) (r : ℕ) : Prop :=
  (∃ k a th sec, m = .exec k a ∧ c.threads[k]? = some (.free th) ∧ th.Finds c.shared.globals r sec) ∨
    ∃ x sec, m = .call x ∧ x.Finds c.shared.globals r sec

/-- The application rejects a transfer only while no thread is at it, no worker is due and it is not
finished; until it is off the map no other thread finds it. -/
structure RejectsAlone (c : Snapshot P) (m : Move P) : Prop where
  alone : ∀ k a peer id r x, m = .exec k a → c.threads[k]? = some (.free (.reject peer id)) →
    c.shared.globals.incoming.lookup (peer, id) = some r → c.shared.objects[r]? = some x →
    sectionsOn r c.threads = 0 ∧ r ∉ c.shared.globals.ready ∧ x.t.finished = false
  unseen : ∀ r, .on r .withdraw ∈ c.threads → ¬Finding c m r

theorem phase_of_reach {disk : Disk} {hasOfferHandler : Bool} {c : Snapshot P}
    (h : Reach (program cfg sha256 hex) RejectsAlone (start disk hasOfferHandler) c) {r : ℕ}
    {v : View P} (hv : view c r = some v) : Phase v := by
  refine view_invariant (I := fun _ _ v => Phase v) h ?_ ?_ hv
  · rintro c r v - - hnew
    obtain ⟨peer, id, isDirectory, name, files, now, htransfer, hnotes⟩ := hnew.transfer
    refine .live (by simp [hnew.sections]) ?_
    obtain hnotes | ⟨size, hnotes⟩ := hnotes
    all_goals
      rw [hnotes, hnew.sections, htransfer]
      rfl
  rintro c m c' r v act v' - hok - hv hlink hs hphase
  have hsecs := sections_of_view hv
  cases hphase with
  | live unrejected account =>
    refine .of_live unrejected account hs ?_
    rintro secs touched rfl hw
    obtain ⟨hfinds, hsingle, -⟩ := hlink
    obtain ⟨k, th, a, rfl, hk, hbegun, hth⟩ | ⟨x, -, hx⟩ := hfinds _ hw
    · cases th with
      | reject peer id =>
        obtain ⟨hnone, hready, hfin⟩ :=
          hok.alone k a peer id r _ rfl hk hth.2 (objects_of_view hv)
        refine ⟨hsingle hw, hsecs ▸ hnone, ?_, hfin⟩
        rwa [← ready_of_view hv, List.count_eq_zero]
      | find peer id sec => exact absurd hth.1 hbegun.2
      | _ => exact hth.elim
    · exact absurd hx x.not_finds_withdraw
  | rejecting sections unready unjudged =>
    refine .of_rejecting sections unready unjudged hs ?_
    rintro secs touched rfl
    obtain ⟨hfinds, -, -⟩ := hlink
    have hmem : .on r .withdraw ∈ c.threads :=
      mem_sectionsOn.mp (hsecs ▸ sections ▸ Multiset.mem_singleton_self _)
    refine eq_nil_iff_forall_not_mem.mpr fun sec hsec => hok.unseen r hmem ?_
    obtain ⟨k, th, a, hm, hk, -, hth⟩ | ⟨x, hm, hx⟩ := hfinds sec hsec
    · exact .inl ⟨k, a, th, sec, hm, hk, hth⟩
    · exact .inr ⟨x, sec, hm, hx⟩
  | refusing sections unready unlisted unjudged =>
    exact .of_refusing sections unready unlisted unjudged hs
  | rejected sections unready unlisted judged =>
    exact .of_rejected sections unready unlisted judged hs

end Receiver

/-! ## Both directions -/

/-- **One verdict for each transfer**: an incoming transfer that is rejected only while no other
thread is at it, and every outgoing transfer, is reported at most once, and never as successful
after it was reported as failed. -/
theorem one_verdict [DecidableEq P] (cfg : Config) (sha256 : Bytes → Bytes) (hex : P → Bytes) :
    (∀ {disk : Disk} {hasOfferHandler : Bool} {c : Receiver.Snapshot P} {r : ℕ} {x : Transfer P},
      Reach (Receiver.program cfg sha256 hex) Receiver.RejectsAlone
        (Receiver.start disk hasOfferHandler) c → c.shared.objects[r]? = some x →
      OneVerdict ((notesOn r c.trace).filterMap verdict)) ∧
    ∀ {c : Sender.Snapshot P} {r : ℕ} {x : Upload P},
      Reach (program cfg sha256) (fun _ _ => True) start c → c.shared.objects[r]? = some x →
      OneVerdict ((notesOn r c.trace).filterMap Upload.Note.verdict) := by
  constructor
  · intro disk hasOfferHandler c r x h hx
    refine .of_length ?_
    rw [length_filterMap_eq_countP]
    exact (Receiver.phase_of_reach h (Receiver.view_eq_some hx)).verdicts_le_one
  intro c r x h hx
  refine .of_length ?_
  have haccount := (accounted_of_reach h
    (v := ⟨x, c.shared.globals, sectionsOn r c.threads, notesOn r c.trace⟩)
    (view_eq_some.mpr ⟨hx, rfl, rfl, rfl⟩)).verdicts
  have hle := x.t.finished.toNat_le
  rw [length_filterMap_eq_countP]
  simp only at haccount
  omega

namespace Receiver

/-- At most one thread is under way, no worker due and nothing finished. -/
def quiet (c : Snapshot ℕ) (m : Move ℕ) : Bool :=
  c.threads.length ≤ 1 && c.shared.globals.ready.isEmpty &&
    c.shared.objects.all (fun x => !x.t.finished) && match m with
      | .exec _ _ => true
      | .call _ => c.threads.isEmpty

theorem rejectsAlone_of_quiet {c : Snapshot ℕ} {m : Move ℕ} (h : quiet c m = true) :
    RejectsAlone c m := by
  simp only [quiet, Bool.and_eq_true, decide_eq_true_eq, List.isEmpty_iff, List.all_eq_true,
    Bool.not_eq_true'] at h
  obtain ⟨⟨⟨hlength, hready⟩, hfin⟩, hcall⟩ := h
  refine ⟨fun k a peer id r x _ hk _ hx => ?_, fun r hmem hfinding => ?_⟩
  · have hthreads := eq_singleton_of_mem hlength (mem_of_getElem? hk)
    exact ⟨by rw [hthreads]; rfl, by simp [hready], hfin x (List.mem_of_getElem? hx)⟩
  · have hthreads := eq_singleton_of_mem hlength hmem
    obtain ⟨k, a, th, sec, -, hk, -⟩ | ⟨x, sec, rfl, -⟩ := hfinding
    · have hfree := mem_of_getElem? hk
      simp [hthreads] at hfree
    · simp [hthreads] at hcall

/-- An offer that the application rejects, and an upload that it cancels. -/
theorem one_verdict_withdrawn : (∃ c, runFrom quiet
        (handled (oneFile 5) 2 ++ .call (.reject 9 1) :: List.replicate 3 (.exec 0 fine)) = some c ∧
      (notesOn 0 c.trace).filterMap Note.verdict = [false] ∧
      OneVerdict ((notesOn 0 c.trace).filterMap Note.verdict)) ∧
    ∃ c, Sender.runFrom (fun _ _ => true) (.call (.cancel 1) :: Sender.goesOn 0 5) = some c ∧
      (notesOn 0 c.trace).filterMap Upload.Note.verdict = [false] ∧
      OneVerdict ((notesOn 0 c.trace).filterMap Upload.Note.verdict) := by
  constructor
  · obtain ⟨c, hc, hsome, hverdict⟩ : ∃ c, runFrom quiet
        (handled (oneFile 5) 2 ++ .call (.reject 9 1) :: List.replicate 3 (.exec 0 fine)) = some c ∧
        (c.shared.objects[0]?).isSome = true ∧
        (notesOn 0 c.trace).filterMap Note.verdict = [false] :=
      Program.exists_run (by decide +kernel)
    obtain ⟨x, hx⟩ := Option.isSome_iff_exists.mp hsome
    have hreach := (Reach.of_run hc).mono fun _ _ => rejectsAlone_of_quiet
    exact ⟨c, hc, hverdict, (one_verdict _ _ _).1 hreach hx⟩
  obtain ⟨c, hc, hsome, hverdict⟩ : ∃ c,
      Sender.runFrom (fun _ _ => true) (.call (.cancel 1) :: Sender.goesOn 0 5) = some c ∧
      (c.shared.objects[0]?).isSome = true ∧
      (notesOn 0 c.trace).filterMap Upload.Note.verdict = [false] :=
    Program.exists_run (by decide +kernel)
  obtain ⟨x, hx⟩ := Option.isSome_iff_exists.mp hsome
  have hreach := (Reach.of_run hc).mono fun _ _ _ => trivial
  exact ⟨c, hc, hverdict, (one_verdict _ _ fun _ => [97]).2 hreach hx⟩

/-- **Reported as failed and then as completed**: the only file of an accepted transfer is complete
and queued for the disk, and the application rejects the transfer before a disk worker takes it. -/
theorem rejected_then_completed : ∃ c, runFrom (fun _ _ => true)
    (handled (oneFile 0) 2 ++ .call (.accept 9 1 [100]) :: replicate 3 (.exec 0 fine) ++
      handled (fileEndMessage 1 0 (replicate 32 0)) 3 ++
      .call (.reject 9 1) :: replicate 3 (.exec 0 fine) ++
      .call .take :: replicate 10 (.exec 0 fine)) = some c ∧
    (notesOn 0 c.trace).filterMap verdict = [false, true] :=
  Program.exists_run (by decide +kernel)

end Receiver

end Librats.FileTransfer
