import Librats.Subsystems.OneTransfer

/-!
# Nothing happens before consent

For an offer that was not accepted no job is queued and no file is touched, and it only ends by a
reject, a cancel or a disconnect, as long as no `FILE_END` is handled for it
(`nothing_before_consent`): `handle_file_end` does not look at the status of the transfer.
-/

namespace Librats.FileTransfer

open List Multiset View Transfer Interleaving.Program

variable {P : Type}

/-- What may be seen of a transfer that is not accepted. -/
def Note.BeforeConsent : Note P → Prop
  | .sent _ _ | .offered _ | .progressed _ => True
  | .finishing success _ => success = false
  | .ended success cancelled error =>
    success = false ∧ (cancelled = true ∨ error = "peer disconnected")
  | .completed _ success _ => success = false
  | .accepted | .queued _ | .file _ | .moved _ _ _ => False

/-- The transfer was rejected, or `finish_incoming` has ended it. -/
def Ended (t : Incoming P) (notes : List (Note P)) : Prop :=
  .sent t.peer (responseMessage t.id 0) ∈ notes ∨
    ∃ cancelled error, .ended false cancelled error ∈ notes

/-- Where threads can be on a transfer that is not accepted. -/
def Section.BeforeConsent (t : Incoming P) (notes : List (Note P)) : Section → Prop
  | .chunk _ _ _ | .fileEnd _ _ | .peerCancel | .peerPause | .peerResume | .accept _ | .cancel
  | .pause | .resume | .expire | .withdraw => True
  | .finish success error back =>
    success = false ∧ back = false ∧ (t.status = .cancelled ∨ error = "peer disconnected")
  | .unlist success _ back | .report success _ back =>
    success = false ∧ back = false ∧ Ended t notes
  | .refuse => Ended t notes
  | _ => False

/-- A transfer that is not accepted. -/
structure Unaccepted (v : View P) : Prop where
  status : v.transfer.t.status = .pending ∨ v.transfer.t.status = .cancelled ∨
    v.transfer.t.finished = true ∧ v.transfer.t.status = .failed
  wq : v.transfer.t.wq = []
  scheduled : v.transfer.t.scheduled = false
  temps : ∀ f ∈ v.transfer.t.files, f.tempCreated = false
  writer : v.transfer.w = .new
  ready : v.ready = 0
  sections : ∀ sec ∈ v.sections, sec.BeforeConsent v.transfer.t v.notes
  notes : ∀ n ∈ v.notes, n.BeforeConsent
  reported : ∀ id success path, .completed id success path ∈ v.notes → Ended v.transfer.t v.notes

theorem Ended.mono {t t' : Incoming P} {l l' : List (Note P)} (h : Ended t l)
    (hpeer : t'.peer = t.peer) (hid : t'.id = t.id) (hl : ∀ n ∈ l, n ∈ l') : Ended t' l' := by
  obtain h | ⟨cancelled, error, h⟩ := h
  · exact .inl (by rw [hpeer, hid]; exact hl _ h)
  · exact .inr ⟨cancelled, error, hl _ h⟩

theorem Section.BeforeConsent.mono {t t' : Incoming P} {l l' : List (Note P)} {sec : Section}
    (h : sec.BeforeConsent t l) (hpeer : t'.peer = t.peer) (hid : t'.id = t.id)
    (hstatus : t.status = .cancelled → t'.status = .cancelled) (hl : ∀ n ∈ l, n ∈ l') :
    sec.BeforeConsent t' l' := by
  cases sec with
  | finish success error back => exact ⟨h.1, h.2.1, h.2.2.imp_left hstatus⟩
  | unlist success dest back | report success dest back =>
    exact ⟨h.1, h.2.1, h.2.2.mono hpeer hid hl⟩
  | refuse => exact Ended.mono h hpeer hid hl
  | _ => exact h

namespace Unaccepted

variable {v v' : View P} {notes : List (Note P)}

theorem next (h : Unaccepted v) {t : Incoming P}
    (htransfer : v'.transfer = { v.transfer with t := t }) (hnotes : v'.notes = v.notes ++ notes)
    (hready : v'.ready = 0) (hsame : v.transfer.t.Same t)
    (hstatus : t.status = .pending ∨ t.status = .cancelled ∨ t.finished = true ∧ t.status = .failed)
    (hcancelled : v.transfer.t.status = .cancelled → t.status = .cancelled)
    (hqueue : t.wq = v.transfer.t.wq ∧ t.scheduled = v.transfer.t.scheduled ∧
      t.files = v.transfer.t.files)
    (hsections : ∀ sec ∈ v'.sections, sec ∈ v.sections ∨ sec.BeforeConsent t (v.notes ++ notes))
    (hbefore : ∀ n ∈ notes, n.BeforeConsent)
    (hreported : ∀ id success path, .completed id success path ∈ notes →
      Ended t (v.notes ++ notes)) : Unaccepted v' := by
  obtain ⟨hwq, hscheduled, hfiles⟩ := hqueue
  have hl (n : Note P) (hn : n ∈ v.notes) : n ∈ v.notes ++ notes := mem_append_left _ hn
  obtain ⟨transfer, sections, ready, listed, notes', disk⟩ := v'
  obtain rfl : transfer = _ := htransfer
  obtain rfl : notes' = _ := hnotes
  constructor
  · exact hstatus
  · exact hwq.trans h.wq
  · exact hscheduled.trans h.scheduled
  · rw [hfiles]
    exact h.temps
  · exact h.writer
  · exact hready
  · intro sec hsec
    obtain hsec | hsec := hsections sec hsec
    · exact (h.sections sec hsec).mono hsame.peer hsame.id hcancelled hl
    · exact hsec
  · exact fun n hn => (mem_append.mp hn).elim (h.notes n) (hbefore n)
  · intro id success path hmem
    obtain hmem | hmem := mem_append.mp hmem
    · exact (h.reported id success path hmem).mono hsame.peer hsame.id hl
    · exact hreported id success path hmem

theorem keep (h : Unaccepted v) (htransfer : v'.transfer = v.transfer)
    (hnotes : v'.notes = v.notes ++ notes) (hready : v'.ready = 0)
    (hsections : ∀ sec ∈ v'.sections, sec ∈ v.sections ∨
      sec.BeforeConsent v.transfer.t (v.notes ++ notes)) (hbefore : ∀ n ∈ notes, n.BeforeConsent)
    (hreported : ∀ id success path, .completed id success path ∈ notes →
      Ended v.transfer.t (v.notes ++ notes)) : Unaccepted v' :=
  h.next htransfer hnotes hready (.refl _) h.status id ⟨rfl, rfl, rfl⟩ hsections hbefore hreported

variable {cfg : Config} {sha256 : Bytes → Bytes} {hex : P → Bytes}

theorem exec (h : Unaccepted v) {sec : Section} {rest : Multiset Section}
    (hsec : v.sections = sec ::ₘ rest) {a : Answer} (hlocal : sec.Local)
    (hend : ∀ fidx sha, sec = .fileEnd fidx sha → v.transfer.t.finished = false →
      fidx < v.transfer.t.files.length →
      v.transfer.t.status = .active ∨ v.transfer.t.status = .paused)
    (hn : .accepted ∉ (v.exec cfg sha256 hex a sec rest).notes) :
    Unaccepted (v.exec cfg sha256 hex a sec rest) := by
  have hidle : v.transfer.t.status ≠ .active ∧ v.transfer.t.status ≠ .paused := by
    obtain hst | hst | ⟨-, hst⟩ := h.status <;> rw [hst] <;> decide
  have hbefore := h.sections sec (hsec ▸ mem_cons_self sec rest)
  have hnext {t : Incoming P} {notes : List (Note P)} (next : List Section)
      (hnext : ∀ s ∈ next, s.BeforeConsent t notes) (s : Section) (hs : s ∈ rest + ↑next) :
      s ∈ v.sections ∨ s.BeforeConsent t notes := by
    rw [hsec]
    exact (mem_add.mp hs).imp mem_cons_of_mem (hnext s)
  -- nothing happens at all
  have hstay : Unaccepted { v with sections := rest + ↑([] : List Section), notes := v.notes ++ [] } :=
    h.keep rfl rfl h.ready (hnext [] (by simp)) (by simp) (by simp)
  have hcancel (notes : List (Note P)) (error : String) (hnotes : ∀ n ∈ notes, n.BeforeConsent)
      (hreported : ∀ id success path, .completed id success path ∉ notes) : Unaccepted { v with
        transfer := { v.transfer with t := { v.transfer.t with status := .cancelled } }
        sections := rest + ↑[Section.finish false error false], notes := v.notes ++ notes } :=
    h.next rfl rfl h.ready ⟨rfl, rfl, rfl, rfl⟩ (.inr (.inl rfl)) (fun _ => rfl) ⟨rfl, rfl, rfl⟩
      (hnext _ (by simp [Section.BeforeConsent])) hnotes fun id success path hmem =>
        absurd hmem (hreported id success path)
  cases sec with
  | chunk fidx offset data =>
    obtain heq | ⟨-, hst, -⟩ := v.transfer.exec_chunk cfg sha256 hex v.disk a fidx offset data
    · rwa [View.exec, heq]
    · exact absurd hst (not_or.mpr hidle)
  | fileEnd fidx sha =>
    obtain heq | ⟨hfin, hlt, -⟩ := v.transfer.exec_fileEnd cfg sha256 hex v.disk a fidx sha
    · rwa [View.exec, heq]
    · exact absurd (hend fidx sha rfl hfin hlt) (not_or.mpr hidle)
  | peerCancel => exact hcancel [] _ (by simp) (by simp)
  | peerPause | pause =>
    simp only [View.exec, Transfer.exec, if_neg hidle.1]
    exact hstay
  | peerResume | resume =>
    simp only [View.exec, Transfer.exec, if_neg hidle.2]
    exact hstay
  | accept dest =>
    simp only [View.exec, Transfer.exec, Transfer.accept] at hn ⊢
    split_ifs at hn ⊢
    · exact absurd (mem_append_right _ (.head _)) hn
    · exact hstay
  | cancel =>
    simp only [View.exec, Transfer.exec]
    split_ifs
    · exact hstay
    · exact hcancel [_] _ (by simp [Note.BeforeConsent]) (by simp)
  | expire =>
    simp only [View.exec, Transfer.exec]
    split_ifs with hstale
    · -- a transfer that is quiet and not pending has been cancelled
      have hst : v.transfer.t.status = .cancelled := by
        have hst := h.status
        simp only [Bool.and_eq_true, Bool.not_eq_true', decide_eq_true_eq] at hstale
        obtain ⟨⟨⟨hfin, -⟩, hpending⟩, -⟩ := hstale
        simpa [hfin, hpending] using hst
      exact h.keep rfl rfl h.ready (hnext _ (by simp [Section.BeforeConsent, hst]))
        (by simp [Note.BeforeConsent]) (by simp)
    · exact hstay
  | finish success error back =>
    obtain ⟨rfl, rfl, hwhy⟩ := hbefore
    simp only [View.exec, Transfer.exec, Transfer.finish]
    split_ifs with hfin
    · exact h.keep rfl rfl h.ready (hnext _ (by simp [resumeDrain])) (by simp [Note.BeforeConsent])
        (by simp)
    refine h.next rfl rfl h.ready ⟨rfl, rfl, rfl, rfl⟩ ?_ ?_ ⟨rfl, rfl, rfl⟩ (hnext _ ?_) ?_ (by simp)
    · obtain hst | hst | ⟨hfin', -⟩ := h.status
      · exact .inr (.inr ⟨rfl, by simp [State.finalStatus, hst]⟩)
      · exact .inr (.inl (by simp [State.finalStatus, hst]))
      · exact absurd hfin' hfin
    · intro hst
      simp [State.finalStatus, hst]
    · simp only [List.mem_singleton, forall_eq]
      exact ⟨rfl, rfl, .inr ⟨_, _, List.mem_append_right _ (.tail _ (.head _))⟩⟩
    · simpa [Note.BeforeConsent] using hwhy
  | report success dest back =>
    obtain ⟨rfl, rfl, hended⟩ := hbefore
    simp only [View.exec, Transfer.exec]
    refine h.keep rfl rfl h.ready (hnext _ (by simp [resumeDrain])) (by simp [Note.BeforeConsent])
      fun _ _ _ _ => ?_
    exact hended.mono rfl rfl fun n hn => mem_append_left _ hn
  | refuse =>
    simp only [View.exec, Transfer.exec]
    refine h.keep rfl rfl h.ready (hnext [] (by simp)) (by simp [Note.BeforeConsent])
      fun _ _ _ _ => ?_
    exact Ended.mono hbefore rfl rfl fun n hn => mem_append_left _ hn
  | unlist success dest back | withdraw => exact hlocal.elim
  | _ => exact hbefore.elim

theorem step {act : Act} (h : Unaccepted v) (hs : v.Step cfg sha256 hex act v')
    (hend : ∀ fidx sha a, act = .own (.fileEnd fidx sha) a → v.transfer.t.finished = false →
      fidx < v.transfer.t.files.length →
      v.transfer.t.status = .active ∨ v.transfer.t.status = .paused) (hn : .accepted ∉ v'.notes) :
    Unaccepted v' := by
  cases hs with
  | own hsec hlocal =>
    exact h.exec hsec hlocal (fun fidx sha heq => hend fidx sha _ (by rw [heq])) hn
  | schedule hsec => exact (h.sections .schedule (by simp [hsec])).elim
  | unlist hsec =>
    have hbefore := h.sections _ (hsec ▸ mem_cons_self _ _)
    refine h.keep rfl (append_nil _).symm h.ready ?_ (by simp) (by simp)
    intro sec hmem
    obtain rfl | hmem := mem_cons.mp hmem
    · exact .inr ⟨hbefore.1, hbefore.2.1, by simpa using hbefore.2.2⟩
    · exact .inl (by simp [hsec, hmem])
  | withdraw hsec =>
    refine h.keep rfl rfl h.ready ?_ (by simp [Note.BeforeConsent]) (by simp)
    intro sec hmem
    obtain rfl | hmem := mem_cons.mp hmem
    · exact .inr (.inl (by simp))
    · exact .inl (by simp [hsec, hmem])
  | take hready => exact absurd (h.ready.symm.trans hready) (by simp)
  | found _ hentry _ _ =>
    refine h.keep rfl (append_nil _).symm h.ready ?_ (by simp) (by simp)
    intro sec hmem
    obtain hmem | hmem := mem_add.mp hmem
    · exact .inl hmem
    · have := hentry sec hmem
      cases sec with
      | finish success error back => exact .inr ⟨this.1, this.2.2, .inr this.2.1⟩
      | _ => first | exact .inr trivial | exact this.elim
  | destroy _ _ _ =>
    -- there is no temp file
    have hnone (ok : Bool) : (v.transfer.destroy v.disk ok).notes = [] := by
      simpa [destroy, leftovers, Writer.closing, h.writer, Writer.new] using
        fun f hf hcreated => absurd hcreated (by simp [h.temps f hf])
    exact h.keep rfl rfl h.ready (fun sec hmem => .inl hmem) (by simp [hnone]) (by simp [hnone])

end Unaccepted

namespace Receiver

open Objects

variable [DecidableEq P] {cfg : Config} {sha256 : Bytes → Bytes} {hex : P → Bytes}

/-- A `FILE_END` for a file of an unfinished transfer is handled only after the consent: the check
that `handle_chunk` makes. -/
def FileEndsAfterConsent (c : Snapshot P) (m : Move P) : Prop :=
  ∀ k a r fidx sha x, m = .exec k a → c.threads[k]? = some (.on r (.fileEnd fidx sha)) →
    c.shared.objects[r]? = some x → x.t.finished = false → fidx < x.t.files.length →
    x.t.status = .active ∨ x.t.status = .paused

theorem unaccepted_of_reach {disk : Disk} {hasOfferHandler : Bool} {c : Snapshot P}
    (h : Interleaving.Reach (program cfg sha256 hex) FileEndsAfterConsent
      (start disk hasOfferHandler) c)
    {r : ℕ} {v : View P} (hv : view c r = some v) (hn : .accepted ∉ v.notes) : Unaccepted v := by
  refine view_invariant (I := fun _ _ v => .accepted ∉ v.notes → Unaccepted v) h ?_ ?_ hv hn
  · rintro - - v - - ⟨⟨peer, id, isDirectory, name, files, now, htransfer, hnotes⟩, hsec, hready⟩ -
    refine ⟨?_, ?_, ?_, ?_, ?_, hready, by simp [hsec], ?_, ?_⟩
    all_goals try simp [htransfer, State.newIncoming]
    all_goals obtain hnotes | ⟨size, hnotes⟩ := hnotes <;> simp [hnotes, Note.BeforeConsent]
  · rintro c m c' r v act v' - hok - hv hlink hs ih hn
    refine (ih fun hmem => hn (hs.mem_notes hmem)).step hs (fun fidx sha a hact hfin hlt => ?_) hn
    subst hact
    obtain ⟨k, rfl, hk⟩ := hlink
    exact hok k a r fidx sha _ rfl hk (objects_of_view hv) hfin hlt

/-- **Nothing happens before consent.** For a transfer that is not accepted no job is queued and no
file operation made; it ends only as rejected, cancelled or disconnected, and is reported only then.
-/
theorem nothing_before_consent {disk : Disk} {hasOfferHandler : Bool} {c : Snapshot P}
    (h : Interleaving.Reach (program cfg sha256 hex) FileEndsAfterConsent
      (start disk hasOfferHandler) c) {r : ℕ} {x : Transfer P} (hx : c.shared.objects[r]? = some x)
    (hn : .accepted ∉ notesOn r c.trace) :
    x.t.wq = [] ∧ (∀ n ∈ notesOn r c.trace, n.BeforeConsent) ∧
      ∀ id success path, .completed id success path ∈ notesOn r c.trace →
        Ended x.t (notesOn r c.trace) := by
  have hu := unaccepted_of_reach h (view_eq_some hx) hn
  exact ⟨hu.wq, hu.notes, hu.reported⟩

/-! ## Runs -/

/-- No thread is about to handle a `FILE_END`. -/
def noFileEnd (c : Snapshot ℕ) (_ : Move ℕ) : Bool :=
  c.threads.all fun
    | .on _ (.fileEnd _ _) => false
    | _ => true

theorem fileEndsAfterConsent_of_noFileEnd {c : Snapshot ℕ} {m : Move ℕ} (h : noFileEnd c m = true) :
    FileEndsAfterConsent c m := by
  intro k a r fidx sha x _ hk
  exact absurd (all_eq_true.mp h _ (mem_of_getElem? hk)) (by simp)

/-- An offer, and the peer takes it back. -/
theorem nothing_before_consent_withdrawn : ∃ c x,
    runFrom noFileEnd (handled (oneFile 5) 2 ++ handled (simpleMessage 7 1) 5) = some c ∧
      c.shared.objects[0]? = some x ∧ .completed 1 false [] ∈ notesOn 0 c.trace ∧
        x.t.wq = [] ∧ (∀ n ∈ notesOn 0 c.trace, n.BeforeConsent) ∧
          Ended x.t (notesOn 0 c.trace) := by
  obtain ⟨c, hc, hsome, hcompleted, hn⟩ : ∃ c,
      runFrom noFileEnd (handled (oneFile 5) 2 ++ handled (simpleMessage 7 1) 5) = some c ∧
        (c.shared.objects[0]?).isSome = true ∧ .completed 1 false [] ∈ notesOn 0 c.trace ∧
          .accepted ∉ notesOn 0 c.trace :=
    exists_run (by decide +kernel)
  obtain ⟨x, hx⟩ := Option.isSome_iff_exists.mp hsome
  have hreach := (Interleaving.Reach.of_run hc).mono fun _ _ => fileEndsAfterConsent_of_noFileEnd
  obtain ⟨hwq, hnotes, hended⟩ := nothing_before_consent hreach hx hn
  exact ⟨c, x, hc, hx, hcompleted, hwq, hnotes, hended _ _ _ hcompleted⟩

/-- **A `FILE_END` fails an offer that nobody has accepted, or queues a job for it.** -/
theorem file_end_before_consent : (∃ c, runFrom (fun _ _ => true)
        (handled (oneFile 5) 2 ++ handled (fileEndMessage 1 0 (List.replicate 32 0)) 5) = some c ∧
      .accepted ∉ notesOn 0 c.trace ∧
      .ended false false "file-end before all data" ∈ notesOn 0 c.trace ∧
      .completed 1 false [] ∈ notesOn 0 c.trace) ∧ ∃ c, runFrom (fun _ _ => true)
        (handled (oneFile 0) 2 ++ handled (fileEndMessage 1 0 (List.replicate 32 0)) 2) = some c ∧
      .accepted ∉ notesOn 0 c.trace ∧
      .queued (endJob 0 (List.replicate 32 0)) ∈ notesOn 0 c.trace :=
  ⟨exists_run (by decide +kernel),
    exists_run (by decide +kernel)⟩

end Receiver

end Librats.FileTransfer
