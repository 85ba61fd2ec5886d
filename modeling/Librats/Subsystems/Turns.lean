import Librats.Subsystems.Jobs
import Librats.Subsystems.OneTransfer

/-!
# One writer at a time

The flag `scheduled` of an incoming transfer is a turn that is handed on, from the reactor that
queues a job to `disk_ready_`, to the worker that takes the transfer from there, and back. So at
most one worker is at a transfer (`turn_of_reach`).
-/

namespace Librats.FileTransfer

open Objects Interleaving List Multiset

variable {P : Type} {cfg : Config} {sha256 : Bytes → Bytes} {hex : P → Bytes}

/-! ## Whose turn it is -/

/-- The sections of the thread that has the turn. -/
def Section.Holds : Section → Bool
  | .schedule | .drain | .data _ | .openTemp _ _ | .write _ | .record _ | .endFile _ | .close _ _ _ _
  | .clear _ _ _ _ | .create _ _ _ | .discard _ _ _ | .rename _ _ _ | .copy _ _ _ | .remove _ _
  | .placed _ => true
  | .finish _ _ back | .unlist _ _ back | .report _ _ back => back
  | _ => false

theorem Section.holds_of_entry {sec : Section} (h : sec.Entry) : sec.Holds = false := by
  cases sec with
  | finish success error back => exact h.2.2
  | _ => first | rfl | exact h.elim

/-- The turn is at one place. -/
def Turn (v : View P) : Prop :=
  tally Section.Holds v.sections + v.ready = v.transfer.t.scheduled.toNat

namespace Transfer

variable (cfg sha256 hex)

theorem exec_holds (x : Transfer P) (disk : Disk) (a : Answer) {sec : Section} (hlocal : sec.Local)
    (hsec : sec.Holds = true → x.t.scheduled = true) :
    (x.exec cfg sha256 hex disk a sec).next.countP Section.Holds + x.t.scheduled.toNat =
      sec.Holds.toNat + (x.exec cfg sha256 hex disk a sec).transfer.t.scheduled.toNat := by
  have hqueues := x.exec_queues cfg sha256 hex disk a sec
  cases sec with
  | chunk | fileEnd =>
    obtain h | ⟨e, h⟩ | ⟨t, hq, h⟩ := hqueues _ rfl
    · simp [h, Section.Holds]
    · simp [h, refusal, Section.Holds]
    · cases hs : x.t.scheduled <;> simp [h, hq.scheduled, waking, Section.Holds, hs]
  | drain =>
    simp only [exec, drainWrites, hsec rfl]
    split_ifs
    · rfl
    · split
      · rfl
      · split_ifs <;> simp [Section.Holds]
  | finish success error back =>
    simp only [exec, finish]
    split_ifs <;> cases back <;> simp [resumeDrain, Section.Holds, add_comm]
  | report success dest back =>
    cases back <;> simp [exec, resumeDrain, Section.Holds, add_comm]
  | unlist _ _ _ | schedule | withdraw => exact hlocal.elim
  | _ =>
    simp only [exec, accept, respond, processData, openTemp, write, record, processFileEnd,
      closeTemp, clear, create, discard, rename, copy, placed, failed]
    repeat' split
    all_goals simp [Section.Holds, add_comm]

end Transfer

namespace Turn

variable {v v' : View P} {act : Act} {rest : Multiset Section} {sec : Section}

theorem scheduled (h : Turn v) (hsec : v.sections = sec ::ₘ rest) (hholds : sec.Holds = true) :
    v.transfer.t.scheduled = true := by
  rw [Turn, hsec, tally_cons, hholds] at h
  cases hs : v.transfer.t.scheduled with
  | true => rfl
  | false =>
    rw [hs] at h
    simp at h

/-- While one thread has the turn, no other has it and the transfer is not queued. -/
theorem alone (h : Turn v) (hsec : v.sections = sec ::ₘ rest) (hholds : sec.Holds = true) :
    (∀ sec' ∈ rest, sec'.Holds = false) ∧ v.ready = 0 := by
  have hle := v.transfer.t.scheduled.toNat_le
  rw [Turn, hsec, tally_cons, hholds, Bool.toNat_true] at h
  refine ⟨fun sec' hmem => ?_, by omega⟩
  by_contra hne
  have hpos : 0 < tally Section.Holds rest :=
    tally_pos.mpr ⟨sec', hmem, Bool.not_eq_false _ ▸ hne⟩
  omega

theorem queued (h : Turn v) (hready : 0 < v.ready) : ∀ sec ∈ v.sections, sec.Holds = false := by
  have hle := v.transfer.t.scheduled.toNat_le
  intro sec hmem
  by_contra hne
  have hpos : 0 < tally Section.Holds v.sections :=
    tally_pos.mpr ⟨sec, hmem, Bool.not_eq_false _ ▸ hne⟩
  rw [Turn] at h
  omega

theorem step (h : Turn v) (hs : v.Step cfg sha256 hex act v') : Turn v' := by
  cases hs with
  | @own sec a rest hsec hlocal =>
    have hone := v.transfer.exec_holds cfg sha256 hex v.disk a hlocal (h.scheduled hsec)
    rw [Turn, hsec, tally_cons] at h
    simp only [Turn, View.exec, tally_add, tally_coe]
    omega
  | schedule hsec =>
    rw [Turn, hsec, tally_cons, Section.Holds, Bool.toNat_true] at h
    simp only [Turn]
    omega
  | unlist hsec | withdraw hsec =>
    rw [Turn, hsec] at h
    simpa [Turn, tally_cons, Section.Holds] using h
  | take hready =>
    rw [Turn] at h
    simp only [Turn, tally_cons, Section.Holds, Bool.toNat_true]
    omega
  | @found secs _ _ _ _ hentry _ _ =>
    have hnone : tally Section.Holds (secs : Multiset Section) = 0 :=
      tally_eq_zero fun sec hsec => Section.holds_of_entry (hentry sec hsec)
    simpa [Turn, tally_add, hnone] using h
  | destroy => exact h

end Turn

/-! ## What is queued -/

/-- The job that is queued. -/
def Note.job : Note P → Option WriteJob
  | .queued job => some job
  | _ => none

/-- The jobs that were queued. -/
def jobs (notes : List (Note P)) : List WriteJob := notes.filterMap Note.job

@[simp] theorem jobs_append (l l' : List (Note P)) : jobs (l ++ l') = jobs l ++ jobs l' :=
  filterMap_append

/-- The sizes of the files in the manifest. -/
def Incoming.sizes (t : Incoming P) : List ℕ := t.files.map (·.size)

theorem Incoming.Same.sizes {t t' : Incoming P} (h : t.Same t') : t'.sizes = t.sizes := by
  have := congrArg (List.map Prod.snd) h.manifest
  simpa [Incoming.sizes, Function.comp_def] using this

/-- What the reactor has queued, and what it keeps to check the next message. -/
structure Queue (v : View P) : Prop where
  admitted : AllAdmitted v.transfer.t.sizes (jobs v.notes)
  recvFile : v.transfer.t.recvFile = ends (jobs v.notes)
  enqueued : ∀ i f, v.transfer.t.files[i]? = some f →
    f.enqueued = (dataOf i (jobs v.notes)).length % 2 ^ 64
  chunks : ∀ fidx offset data, .chunk fidx offset data ∈ v.sections →
    data.length ≤ Framer.kMaxBlockSize

namespace Transfer

variable (cfg sha256 hex)

/-- Only `handle_chunk` and `handle_file_end` queue jobs. -/
theorem exec_queue (x : Transfer P) (disk : Disk) (a : Answer) (sec : Section)
    (hchunk : ∀ fidx offset data, sec ≠ .chunk fidx offset data)
    (hend : ∀ fidx sha, sec ≠ .fileEnd fidx sha) :
    jobs (x.exec cfg sha256 hex disk a sec).notes = [] ∧
    (x.exec cfg sha256 hex disk a sec).transfer.t.recvFile = x.t.recvFile ∧
    (x.exec cfg sha256 hex disk a sec).transfer.t.files.map (·.enqueued) =
      x.t.files.map (·.enqueued) := by
  have of_modify (i : ℕ) (g : IncomingFile → IncomingFile) (hg : ∀ f, (g f).enqueued = f.enqueued) :
      (x.t.files.modify i g).map (·.enqueued) = x.t.files.map (·.enqueued) := map_modify_of_eq hg _ _
  cases sec with
  | chunk fidx offset data => exact absurd rfl (hchunk fidx offset data)
  | fileEnd fidx sha => exact absurd rfl (hend fidx sha)
  | accept dest =>
    have hplaced : (x.placedIn cfg hex dest).map (·.enqueued) = x.t.files.map (·.enqueued) := by
      refine ext_getElem? fun i => ?_
      simp [placedIn, Function.comp_def]
    simp only [exec, accept]
    split_ifs
    · exact ⟨rfl, rfl, hplaced⟩
    · simp [jobs]
  | openTemp job path =>
    simp only [exec, openTemp, failed]
    split_ifs
    · exact ⟨by simp [jobs, Note.job, Writer.closing], rfl, of_modify _ _ fun _ => rfl⟩
    · simp [jobs, Note.job, Writer.closing]
  | record job =>
    simp only [exec, record]
    exact ⟨by split_ifs <;> rfl, trivial, of_modify _ _ fun _ => rfl⟩
  | placed i =>
    simp only [exec, placed]
    split_ifs <;> exact ⟨rfl, rfl, of_modify _ _ fun _ => rfl⟩
  | _ =>
    simp only [exec, respond, finish, drainWrites, processData, write, processFileEnd, closeTemp,
      clear, create, discard, rename, copy, failed]
    repeat' split
    all_goals simp [jobs, Note.job, Writer.closing]

end Transfer

namespace Queue

variable {v v' : View P} {act : Act} {f : IncomingFile}

theorem keep (h : Queue v) (hsame : v.transfer.t.Same v'.transfer.t)
    (hjobs : jobs v'.notes = jobs v.notes) (hrecv : v'.transfer.t.recvFile = v.transfer.t.recvFile)
    (henqueued : v'.transfer.t.files.map (·.enqueued) = v.transfer.t.files.map (·.enqueued))
    (hchunks : ∀ fidx offset data, .chunk fidx offset data ∈ v'.sections →
      data.length ≤ Framer.kMaxBlockSize) : Queue v' := by
  refine ⟨?_, by rw [hrecv, hjobs, h.recvFile], fun i f hf => ?_, hchunks⟩
  · rw [hjobs, hsame.sizes]
    exact h.admitted
  · have hget := congrArg (·[i]?) henqueued
    simp only [getElem?_map, hf, Option.map_some] at hget
    obtain ⟨f', hf', heq⟩ := Option.map_eq_some_iff.mp hget.symm
    rw [hjobs, ← heq]
    exact h.enqueued i f' hf'

theorem chunk (h : Queue v) (now : ℕ) {offset : ℕ} {data : Bytes}
    (hf : v.transfer.t.files[v.transfer.t.recvFile]? = some f) (hoffset : offset = f.enqueued)
    (hfits : (offset + data.length) % 2 ^ 64 ≤ f.size) (hbound : data.length ≤ Framer.kMaxBlockSize)
    (htransfer : v'.transfer =
      v.transfer.withChunk f (dataJob v.transfer.t.recvFile offset data) now)
    (hjobs : jobs v'.notes = jobs v.notes ++ [dataJob v.transfer.t.recvFile offset data])
    (hchunks : ∀ fidx offset data, .chunk fidx offset data ∈ v'.sections →
      data.length ≤ Framer.kMaxBlockSize) : Queue v' := by
  have henqueued := h.enqueued _ f hf
  have hsizes : v'.transfer.t.sizes = v.transfer.t.sizes := by
    rw [htransfer]
    exact (Transfer.withChunk_same hf).sizes
  refine ⟨?_, ?_, fun i g hg => ?_, hchunks⟩
  · rw [hjobs, hsizes]
    refine h.admitted.concat ⟨h.recvFile, ⟨f.size, ?_, fun hend => ?_, fun _ => ?_⟩, ?_⟩
    · simp [Incoming.sizes, dataJob, hf]
    · cases hend
    · exact ⟨hoffset.trans henqueued, hfits⟩
    · exact hbound
  · rw [htransfer, hjobs, ends_append]
    exact h.recvFile
  rw [hjobs, dataOf_append, dataOf_singleton]
  rw [htransfer] at hg
  by_cases hi : v.transfer.t.recvFile = i
  · subst hi
    have hlt := lt_of_getElem? hf
    simp only [Transfer.withChunk, dataJob, getElem?_set_self hlt, Option.some.injEq] at hg
    rw [← hg]
    simp [dataJob, henqueued]
  · simp only [Transfer.withChunk, dataJob, getElem?_set_ne hi] at hg
    rw [if_neg fun hc => hi hc.2, append_nil]
    exact h.enqueued i g hg

theorem fileEnd (h : Queue v) (sha : Bytes)
    (hf : v.transfer.t.files[v.transfer.t.recvFile]? = some f) (hfull : f.enqueued = f.size)
    (htransfer : v'.transfer = v.transfer.withFileEnd (endJob v.transfer.t.recvFile sha))
    (hjobs : jobs v'.notes = jobs v.notes ++ [endJob v.transfer.t.recvFile sha])
    (hchunks : ∀ fidx offset data, .chunk fidx offset data ∈ v'.sections →
      data.length ≤ Framer.kMaxBlockSize) : Queue v' := by
  have henqueued := h.enqueued _ f hf
  refine ⟨?_, ?_, fun i g hg => ?_, hchunks⟩
  · rw [hjobs, htransfer]
    refine h.admitted.concat ⟨h.recvFile, ⟨f.size, ?_, fun _ => ?_, fun hend => ?_⟩, ?_⟩
    · simp [Incoming.sizes, endJob, hf]
    · exact henqueued.symm.trans hfull
    · cases hend
    · exact Nat.zero_le _
  · rw [htransfer, hjobs, ends_append, ← h.recvFile]
    rfl
  · rw [htransfer] at hg
    rw [hjobs, dataOf_append, dataOf_singleton, if_neg fun hc => (by cases hc.1), append_nil]
    exact h.enqueued i g hg

theorem step (h : Queue v) (hs : v.Step cfg sha256 hex act v') : Queue v' := by
  cases hs with
  | @own sec a rest hsec hlocal =>
    have hchunks (fidx offset : ℕ) (data : Bytes)
        (hmem : .chunk fidx offset data ∈ (v.exec cfg sha256 hex a sec rest).sections) :
        data.length ≤ Framer.kMaxBlockSize := by
      obtain hmem | hmem := mem_add.mp hmem
      · exact h.chunks fidx offset data (hsec ▸ mem_cons_of_mem hmem)
      · exact (v.transfer.exec_next cfg sha256 hex v.disk a sec _ hmem).elim
    have hself : sec ∈ v.sections := hsec ▸ mem_cons_self _ _
    have hkeep (hjobs : jobs (v.transfer.exec cfg sha256 hex v.disk a sec).notes = [])
        (hrecv : (v.transfer.exec cfg sha256 hex v.disk a sec).transfer.t.recvFile =
          v.transfer.t.recvFile)
        (henqueued : (v.transfer.exec cfg sha256 hex v.disk a sec).transfer.t.files.map (·.enqueued) =
          v.transfer.t.files.map (·.enqueued)) : Queue (v.exec cfg sha256 hex a sec rest) :=
      h.keep (v.transfer.exec_same cfg sha256 hex v.disk a sec)
        (by simp [View.exec, jobs_append, hjobs]) hrecv henqueued hchunks
    by_cases hchunk : ∃ fidx offset data, sec = .chunk fidx offset data
    · obtain ⟨fidx, offset, data, rfl⟩ := hchunk
      obtain hx | ⟨-, -, ⟨e, hx⟩ | ⟨f, hf, rfl, hoffset, hfits, hx⟩⟩ :=
        v.transfer.exec_chunk cfg sha256 hex v.disk a fidx offset data
      · exact hkeep (by rw [hx]; rfl) (by rw [hx]) (by rw [hx])
      · exact hkeep (by rw [hx]; rfl) (by rw [hx]; rfl) (by rw [hx]; rfl)
      · refine h.chunk a.now hf hoffset hfits (h.chunks _ _ _ hself) ?_ ?_ hchunks
        · rw [View.exec, hx]
        · simp only [View.exec, hx, jobs_append]
          rfl
    by_cases hend : ∃ fidx sha, sec = .fileEnd fidx sha
    · obtain ⟨fidx, sha, rfl⟩ := hend
      obtain hx | ⟨-, -, ⟨e, hx⟩ | ⟨f, hf, rfl, hfull, hx⟩⟩ :=
        v.transfer.exec_fileEnd cfg sha256 hex v.disk a fidx sha
      · exact hkeep (by rw [hx]; rfl) (by rw [hx]) (by rw [hx])
      · exact hkeep (by rw [hx]; rfl) (by rw [hx]; rfl) (by rw [hx]; rfl)
      · refine h.fileEnd sha hf hfull ?_ ?_ hchunks
        · rw [View.exec, hx]
        · simp only [View.exec, hx, jobs_append]
          rfl
    obtain ⟨hjobs, hrecv, henqueued⟩ := v.transfer.exec_queue cfg sha256 hex v.disk a sec
      (fun fidx offset data heq => hchunk ⟨fidx, offset, data, heq⟩)
      (fun fidx sha heq => hend ⟨fidx, sha, heq⟩)
    exact hkeep hjobs hrecv henqueued
  | schedule hsec =>
    refine h.keep (.refl _) rfl rfl rfl fun fidx offset data hmem => ?_
    exact h.chunks fidx offset data (hsec ▸ mem_cons_of_mem hmem)
  | unlist hsec =>
    refine h.keep (.refl _) rfl rfl rfl fun fidx offset data hmem => ?_
    obtain hmem := (mem_cons.mp hmem).resolve_left (by simp)
    exact h.chunks fidx offset data (hsec ▸ mem_cons_of_mem hmem)
  | withdraw hsec =>
    refine h.keep (.refl _) (by simp [jobs, Note.job]) rfl rfl fun fidx offset data hmem => ?_
    obtain hmem := (mem_cons.mp hmem).resolve_left (by simp)
    exact h.chunks fidx offset data (hsec ▸ mem_cons_of_mem hmem)
  | take =>
    refine h.keep (.refl _) rfl rfl rfl fun fidx offset data hmem => ?_
    exact h.chunks fidx offset data ((mem_cons.mp hmem).resolve_left (by simp))
  | found _ hentry _ _ =>
    refine h.keep (.refl _) rfl rfl rfl fun fidx offset data hmem => ?_
    obtain hmem | hmem := mem_add.mp hmem
    · exact h.chunks fidx offset data hmem
    · exact hentry _ hmem
  | destroy =>
    refine h.keep (.refl _) ?_ rfl rfl h.chunks
    simp [View.destroyed, Transfer.destroy, jobs, Note.job, Writer.closing]

end Queue

/-! ## Runs -/

namespace Receiver

variable [DecidableEq P] {cfg : Config} {sha256 : Bytes → Bytes} {hex : P → Bytes}
  {ok : Snapshot P → Move P → Prop} {disk : Disk} {hasOfferHandler : Bool} {c : Snapshot P} {r : ℕ}
  {v : View P}

section

variable (h : Reach (program cfg sha256 hex) ok (start disk hasOfferHandler) c)
  (hv : view c r = some v)

include h hv

/-- **At most one thread has the turn.** -/
theorem turn_of_reach : Turn v := by
  refine view_invariant (I := fun _ _ v => Turn v) h ?_ ?_ hv
  · intro c r v _ _ hnew
    obtain ⟨peer, id, isDirectory, name, files, now, htransfer, -⟩ := hnew.transfer
    rw [Turn, hnew.sections, hnew.ready, htransfer]
    rfl
  · exact fun c m c' r v act v' _ _ _ _ _ hs hturn => hturn.step hs

/-- **What the reactor has queued is in order.** -/
theorem queue_of_reach : Queue v := by
  refine view_invariant (I := fun _ _ v => Queue v) h ?_ ?_ hv
  · intro c r v _ _ hnew
    obtain ⟨peer, id, isDirectory, name, files, now, htransfer, hnotes⟩ := hnew.transfer
    have hjobs : jobs v.notes = [] := by
      obtain hnotes | ⟨size, hnotes⟩ := hnotes
      · rw [hnotes]
        rfl
      · rw [hnotes]
        rfl
    refine ⟨hjobs ▸ .nil, ?_, fun i f hf => ?_, fun fidx offset data hmem => ?_⟩
    · rw [hjobs, htransfer]
      rfl
    · rw [htransfer] at hf
      simp only [State.newIncoming, getElem?_map] at hf
      obtain ⟨_, -, rfl⟩ := Option.map_eq_some_iff.mp hf
      rw [hjobs]
      rfl
    · simp [hnew.sections] at hmem
  · exact fun c m c' r v act v' _ _ _ _ _ hs hqueue => hqueue.step hs

end

end Receiver

end Librats.FileTransfer
