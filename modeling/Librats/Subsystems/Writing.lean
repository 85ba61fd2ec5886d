import Librats.Subsystems.Turns

/-!
# What the disk writer has done

The writer of an incoming transfer takes the queued jobs in order, and what it has written and moved
is a function of the jobs done (`Working`). `clean` says that nobody else touches the temp files,
that no destination is one of them, and that closing a file loses nothing.
-/

namespace Librats.FileTransfer

open Objects Interleaving List

variable {P : Type}

/-! ## What is seen of the writer -/

/-- The bytes of a chunk that are written to the temp file. -/
def Note.written : Note P → ℕ
  | .file (.write _ _ data) => data.length
  | _ => 0

/-- The bytes of chunks that were written to temp files. -/
def written (notes : List (Note P)) : ℕ := (notes.map Note.written).sum

@[simp] theorem written_append (l l' : List (Note P)) : written (l ++ l') = written l + written l' := by
  simp [written]

/-- File `i` was moved to its final place. -/
def Moved (i : ℕ) (notes : List (Note P)) : Prop := ∃ path content, .moved i path content ∈ notes

theorem Moved.mono {i : ℕ} {l l' : List (Note P)} (h : Moved i l) (hl : ∀ n ∈ l, n ∈ l') :
    Moved i l' := by
  obtain ⟨path, content, hmem⟩ := h
  exact ⟨path, content, hl _ hmem⟩

/-- All files were moved to their final places. -/
def AllMoved (v : View P) : Prop := ∀ i < v.transfer.t.files.length, Moved i v.notes

/-! ## What the writer has done -/

/-- The jobs that are done, those in hand, and those in the queue. -/
structure Ledger (v : View P) (done hand : List WriteJob) : Prop where
  queue : jobs v.notes = done ++ hand ++ v.transfer.t.wq
  writable : Writable done
  written : written v.notes = payload done
  finalized : ∀ i f, v.transfer.t.files[i]? = some f → f.finalized = true → i < ends done

/-- The writer has the end of file `i` in hand. -/
structure Ending (v : View P) (done : List WriteJob) (job : WriteJob) (i : ℕ) : Prop where
  ledger : Ledger v done [job]
  isEnd : job.isFileEnd = true
  fidx : job.fidx = i
  inRange : i < v.transfer.t.files.length

section Files

variable (cfg : Config) (sha256 : Bytes → Bytes) (clean : Prop) (temp : ℕ → Bytes) (v : View P)

/-- The temp files from file `k` on do not exist. -/
def Unused (k : ℕ) : Prop :=
  ∀ i, k ≤ i → i < v.transfer.t.files.length → v.disk (temp i) = none

/-- File `k` has not been begun, and no stream is open. -/
structure Unopened (v : View P) (k : ℕ) : Prop where
  out : v.transfer.w.out = none
  outIdx : v.transfer.w.outIdx = none
  unused : Unused temp v k

/-- The stream of file `k` is open with the given content. -/
structure Opened (v : View P) (k : ℕ) (content : Bytes) : Prop where
  out : v.transfer.w.out = some ⟨temp k, content⟩
  outIdx : v.transfer.w.outIdx = some k
  path : ∃ f, v.transfer.t.files[k]? = some f ∧ f.tempPath = temp k
  unused : Unused temp v (k + 1)

/-- The hash has taken in the data of the current file. -/
def Hashing (k : ℕ) (content : Bytes) : Prop :=
  v.transfer.w.hashingFile = none ∧ content = [] ∨
    v.transfer.w.hashingFile = some k ∧ v.transfer.w.hashed = content

/-- Between two jobs: the current file has not been begun, or is open with what the jobs done have
brought. -/
def Between (done : List WriteJob) : Prop :=
  (Unopened temp v (ends done) ∧ dataOf (ends done) done = [] ∧ v.transfer.w.hashingFile = none) ∨
  (Opened temp v (ends done) (dataOf (ends done) done) ∧
    v.transfer.w.hashingFile = some (ends done) ∧ v.transfer.w.hashed = dataOf (ends done) done)

/-- File `i` is complete and closed. -/
structure Sealed (v : View P) (done : List WriteJob) (job : WriteJob) (i : ℕ) : Prop where
  out : v.transfer.w.out = none
  outIdx : v.transfer.w.outIdx = none
  hashingFile : v.transfer.w.hashingFile = none
  verified : cfg.verifyIntegrity = true → sha256 (dataOf i done) = job.sha
  unused : Unused temp v (i + 1)

/-- The paths the writer has read: the destination is no temp file, and the temp path is that of
file `i` or was not set yet. -/
structure Paths (v : View P) (i : ℕ) (final path : Bytes) : Prop where
  final : ∀ j < v.transfer.t.files.length, final ≠ temp j
  path : path = [] ∨ path = temp i

/-- The writer rests between two jobs. -/
def Resting : Prop := ∃ done, Ledger v done [] ∧ (clean → Between temp v done)

/-- The writer rests, or the transfer has ended and nothing more is written. -/
def Idle : Prop := v.transfer.t.finished = true ∨ Resting clean temp v

/-- What is known when a thread is at a section. -/
def Working : Section → Prop
  | .schedule | .drain => Idle clean temp v
  | .record _ => Resting clean temp v
  | .data job =>
    ∃ done, Ledger v done [job] ∧ job.isFileEnd = false ∧ (clean → Between temp v done)
  | .openTemp job path =>
    ∃ done, Ledger v done [job] ∧ job.isFileEnd = false ∧
      (clean → Unopened temp v (ends done) ∧ dataOf (ends done) done = [] ∧
        v.transfer.w.hashingFile = none ∧ (path ≠ [] → path = temp (ends done) ∧
          ∃ f, v.transfer.t.files[ends done]? = some f ∧ f.tempPath = temp (ends done)))
  | .write job =>
    ∃ done, Ledger v done [job] ∧ job.isFileEnd = false ∧
      (clean → Opened temp v (ends done) (dataOf (ends done) done) ∧
        Hashing v (ends done) (dataOf (ends done) done))
  | .endFile job =>
    ∃ done, Ledger v done [job] ∧ job.isFileEnd = true ∧ (clean → Between temp v done)
  | .close i final path size =>
    ∃ done job, Ending v done job i ∧ (clean → (Unopened temp v i ∧ dataOf i done = [] ∨
          Opened temp v i (dataOf i done) ∧ path = temp i) ∧
        v.transfer.w.hashingFile = none ∧ size = (dataOf i done).length ∧
        (cfg.verifyIntegrity = true → sha256 (dataOf i done) = job.sha) ∧ Paths temp v i final path)
  | .clear i final path size =>
    ∃ done job, Ending v done job i ∧
      (clean → Sealed cfg sha256 temp v done job i ∧ size = (dataOf i done).length ∧
        Paths temp v i final path ∧
        (size ≠ 0 → path = temp i ∧ v.disk (temp i) = some (dataOf i done)))
  | .create i final path =>
    ∃ done job, Ending v done job i ∧
      (clean → Sealed cfg sha256 temp v done job i ∧ dataOf i done = [] ∧ Paths temp v i final path)
  | .rename i final path | .copy i final path =>
    ∃ done job, Ending v done job i ∧
      (clean → Sealed cfg sha256 temp v done job i ∧ Paths temp v i final path ∧ path = temp i ∧
        v.disk (temp i) = some (dataOf i done))
  | .discard i path created =>
    ∃ done job, Ending v done job i ∧ (created = true → Moved i v.notes) ∧
      (clean → Sealed cfg sha256 temp v done job i ∧ (path = [] ∨ path = temp i))
  | .remove i path =>
    ∃ done job, Ending v done job i ∧ Moved i v.notes ∧
      (clean → Sealed cfg sha256 temp v done job i ∧ path = temp i)
  | .placed i =>
    ∃ done job, Ending v done job i ∧ Moved i v.notes ∧
      (clean → Sealed cfg sha256 temp v done job i)
  | .finish success _ _ => success = true → AllMoved v
  | .unlist _ _ _ | .report _ _ _ => v.transfer.t.finished = true
  | _ => True

end Files

/-! ## Steps that leave the writer alone -/

section Kept

variable {cfg : Config} {sha256 : Bytes → Bytes} {clean : Prop} {temp : ℕ → Bytes} {v v' : View P}
  {done hand : List WriteJob} {job : WriteJob} {i k : ℕ}

/-- The stream, the hash and the temp files are the same; paths may have been set. -/
structure Still (clean : Prop) (temp : ℕ → Bytes) (v v' : View P) : Prop where
  out : v'.transfer.w.out = v.transfer.w.out
  outIdx : v'.transfer.w.outIdx = v.transfer.w.outIdx
  hashingFile : v'.transfer.w.hashingFile = v.transfer.w.hashingFile
  hashed : v'.transfer.w.hashed = v.transfer.w.hashed
  disk : clean → ∀ i < v.transfer.t.files.length, v'.disk (temp i) = v.disk (temp i)
  length : v'.transfer.t.files.length = v.transfer.t.files.length
  files : ∀ i f, v.transfer.t.files[i]? = some f → ∃ f', v'.transfer.t.files[i]? = some f' ∧
    f'.finalized = f.finalized ∧ (f.tempPath = temp i → f'.tempPath = temp i)

namespace Still

variable (h : Still clean temp v v')

include h

theorem unused (hclean : clean) (hu : Unused temp v k) : Unused temp v' k := fun i hk hi =>
  (h.disk hclean i (h.length ▸ hi)).trans (hu i hk (h.length ▸ hi))

theorem unopened (hclean : clean) (hu : Unopened temp v k) : Unopened temp v' k :=
  ⟨h.out.trans hu.out, h.outIdx.trans hu.outIdx, h.unused hclean hu.unused⟩

theorem path (hp : ∃ f, v.transfer.t.files[k]? = some f ∧ f.tempPath = temp k) :
    ∃ f, v'.transfer.t.files[k]? = some f ∧ f.tempPath = temp k := by
  obtain ⟨f, hf, htemp⟩ := hp
  obtain ⟨f', hf', -, htemp'⟩ := h.files k f hf
  exact ⟨f', hf', htemp' htemp⟩

theorem file {f' : IncomingFile} (hf' : v'.transfer.t.files[i]? = some f') :
    ∃ f, v.transfer.t.files[i]? = some f ∧ f'.finalized = f.finalized := by
  have hlt := lt_of_getElem? hf'
  rw [h.length] at hlt
  obtain ⟨f'', hf'', heq, -⟩ := h.files i _ (getElem?_eq_getElem hlt)
  obtain rfl : f' = f'' := Option.mem_unique hf' hf''
  exact ⟨_, getElem?_eq_getElem hlt, heq⟩

theorem opened (hclean : clean) {content : Bytes} (ho : Opened temp v k content) :
    Opened temp v' k content :=
  ⟨h.out.trans ho.out, h.outIdx.trans ho.outIdx, h.path ho.path, h.unused hclean ho.unused⟩

theorem between (hclean : clean) (hb : Between temp v done) : Between temp v' done := by
  rw [Between, h.hashingFile, h.hashed]
  exact hb.imp (.imp_left (h.unopened hclean)) (.imp_left (h.opened hclean))

theorem isSealed (hclean : clean) (hs : Sealed cfg sha256 temp v done job i) :
    Sealed cfg sha256 temp v' done job i :=
  ⟨h.out.trans hs.out, h.outIdx.trans hs.outIdx, h.hashingFile.trans hs.hashingFile, hs.verified,
    h.unused hclean hs.unused⟩

theorem paths {final path : Bytes} (hp : Paths temp v i final path) : Paths temp v' i final path :=
  ⟨h.length ▸ hp.final, hp.path⟩

end Still

/-- The writer's part is as it was, and jobs may have been queued. -/
structure Kept (clean : Prop) (temp : ℕ → Bytes) (v v' : View P) : Prop
    extends Still clean temp v v' where
  queue : ∃ new, jobs v'.notes = jobs v.notes ++ new ∧ v'.transfer.t.wq = v.transfer.t.wq ++ new
  written : written v'.notes = written v.notes
  notes : ∀ n ∈ v.notes, n ∈ v'.notes
  finished : v.transfer.t.finished = true → v'.transfer.t.finished = true

namespace Kept

variable (h : Kept clean temp v v') {sec : Section}

include h

theorem ledger (hl : Ledger v done hand) : Ledger v' done hand := by
  obtain ⟨new, hjobs, hwq⟩ := h.queue
  refine ⟨?_, hl.writable, h.written.trans hl.written, fun i f' hf' hfin => ?_⟩
  · rw [hjobs, hwq, hl.queue, append_assoc _ _ new]
  · obtain ⟨f, hf, heq⟩ := h.toStill.file hf'
    exact hl.finalized i f hf (heq.symm.trans hfin)

theorem ending (he : Ending v done job i) : Ending v' done job i :=
  ⟨h.ledger he.ledger, he.isEnd, he.fidx, h.length ▸ he.inRange⟩

theorem resting (hr : Resting clean temp v) : Resting clean temp v' := by
  obtain ⟨done, hl, hb⟩ := hr
  exact ⟨done, h.ledger hl, fun hclean => h.toStill.between hclean (hb hclean)⟩

theorem idle (hi : Idle clean temp v) : Idle clean temp v' := hi.imp h.finished h.resting

theorem allMoved (hm : AllMoved v) : AllMoved v' := fun i hi => (hm i (h.length ▸ hi)).mono h.notes

theorem working (hw : Working cfg sha256 clean temp v sec) :
    Working cfg sha256 clean temp v' sec := by
  cases sec with
  | schedule | drain => exact h.idle hw
  | record job => exact h.resting hw
  | data job | endFile job =>
    obtain ⟨done, hl, hdata, hb⟩ := hw
    exact ⟨done, h.ledger hl, hdata, fun hclean => h.toStill.between hclean (hb hclean)⟩
  | openTemp job path =>
    obtain ⟨done, hl, hdata, hb⟩ := hw
    refine ⟨done, h.ledger hl, hdata, fun hclean => ?_⟩
    obtain ⟨hu, hnil, hhash, hpath⟩ := hb hclean
    refine ⟨h.toStill.unopened hclean hu, hnil, h.hashingFile.trans hhash, fun hne => ?_⟩
    exact ⟨(hpath hne).1, h.toStill.path (hpath hne).2⟩
  | write job =>
    obtain ⟨done, hl, hdata, hb⟩ := hw
    refine ⟨done, h.ledger hl, hdata, fun hclean => ?_⟩
    rw [Hashing, h.hashingFile, h.hashed]
    exact ⟨h.toStill.opened hclean (hb hclean).1, (hb hclean).2⟩
  | close i final path size =>
    obtain ⟨done, job, he, hb⟩ := hw
    refine ⟨done, job, h.ending he, fun hclean => ?_⟩
    obtain ⟨hopen, hhash, hsize, hsha, hp⟩ := hb hclean
    refine ⟨?_, h.hashingFile.trans hhash, hsize, hsha, h.toStill.paths hp⟩
    exact hopen.imp (.imp_left (h.toStill.unopened hclean)) (.imp_left (h.toStill.opened hclean))
  | clear i final path size =>
    obtain ⟨done, job, he, hb⟩ := hw
    refine ⟨done, job, h.ending he, fun hclean => ?_⟩
    obtain ⟨hs, hsize, hp, hdisk⟩ := hb hclean
    refine ⟨h.toStill.isSealed hclean hs, hsize, h.toStill.paths hp, fun hne => ?_⟩
    exact ⟨(hdisk hne).1, (h.disk hclean i he.inRange).trans (hdisk hne).2⟩
  | create i final path =>
    obtain ⟨done, job, he, hb⟩ := hw
    refine ⟨done, job, h.ending he, fun hclean => ?_⟩
    obtain ⟨hs, hnil, hp⟩ := hb hclean
    exact ⟨h.toStill.isSealed hclean hs, hnil, h.toStill.paths hp⟩
  | rename i final path | copy i final path =>
    obtain ⟨done, job, he, hb⟩ := hw
    refine ⟨done, job, h.ending he, fun hclean => ?_⟩
    obtain ⟨hs, hp, hpath, hdisk⟩ := hb hclean
    exact ⟨h.toStill.isSealed hclean hs, h.toStill.paths hp, hpath,
      (h.disk hclean i he.inRange).trans hdisk⟩
  | discard i path created =>
    obtain ⟨done, job, he, hmoved, hb⟩ := hw
    refine ⟨done, job, h.ending he, fun hc => (hmoved hc).mono h.notes, fun hclean => ?_⟩
    exact ⟨h.toStill.isSealed hclean (hb hclean).1, (hb hclean).2⟩
  | remove i path =>
    obtain ⟨done, job, he, hmoved, hb⟩ := hw
    refine ⟨done, job, h.ending he, hmoved.mono h.notes, fun hclean => ?_⟩
    exact ⟨h.toStill.isSealed hclean (hb hclean).1, (hb hclean).2⟩
  | placed i =>
    obtain ⟨done, job, he, hmoved, hb⟩ := hw
    exact ⟨done, job, h.ending he, hmoved.mono h.notes,
      fun hclean => h.toStill.isSealed hclean (hb hclean)⟩
  | finish success error back => exact fun hs => h.allMoved (hw hs)
  | unlist _ _ _ | report _ _ _ => exact h.finished hw
  | _ => trivial

omit h in
theorem of_files (hw : v'.transfer.w = v.transfer.w)
    (hfiles : v'.transfer.t.files = v.transfer.t.files) (hwq : v'.transfer.t.wq = v.transfer.t.wq)
    (hfin : v.transfer.t.finished = true → v'.transfer.t.finished = true)
    (hdisk : clean → ∀ i < v.transfer.t.files.length, v'.disk (temp i) = v.disk (temp i))
    {notes : List (Note P)} (hnotes : v'.notes = v.notes ++ notes) (hjobs : jobs notes = [])
    (hwritten : FileTransfer.written notes = 0) : Kept clean temp v v' where
  out := by rw [hw]
  outIdx := by rw [hw]
  hashingFile := by rw [hw]
  hashed := by rw [hw]
  disk := hdisk
  length := by rw [hfiles]
  files i f hf := ⟨f, by rw [hfiles, hf], rfl, id⟩
  queue := ⟨[], by rw [hnotes, jobs_append, hjobs], by rw [hwq, append_nil]⟩
  written := by rw [hnotes, written_append, hwritten, add_zero]
  notes n hn := hnotes ▸ mem_append_left _ hn
  finished := hfin

omit h in
theorem queued {t : Incoming P} (hq : v.transfer.t.Queued job t)
    (htransfer : v'.transfer = { v.transfer with t := t }) (hdisk : v'.disk = v.disk)
    (hnotes : v'.notes = v.notes ++ [.queued job]) : Kept clean temp v v' where
  out := by rw [htransfer]
  outIdx := by rw [htransfer]
  hashingFile := by rw [htransfer]
  hashed := by rw [htransfer]
  disk _ i _ := by rw [hdisk]
  length := by
    rw [htransfer]
    simpa using congrArg length (hq.files (·.size) fun _ _ => rfl)
  files i f hf := by
    have hget := congrArg (·[i]?) (hq.files (fun f => (f.finalized, f.tempPath)) fun _ _ => rfl)
    simp only [getElem?_map, hf, Option.map_some] at hget
    obtain ⟨f', hf', heq⟩ := Option.map_eq_some_iff.mp hget
    obtain ⟨hfin, htemp⟩ := Prod.mk.inj heq
    exact ⟨f', by rw [htransfer, hf'], hfin, htemp.trans⟩
  queue := ⟨[job], by rw [hnotes, jobs_append]; rfl, by rw [htransfer, hq.wq]⟩
  written := by rw [hnotes, written_append]; rfl
  notes n hn := hnotes ▸ mem_append_left _ hn
  finished := by rw [htransfer, hq.finished]; exact id

omit h in
theorem accept {cfg : Config} {hex : P → Bytes} {disk : Disk} {dest : Bytes} {now : ℕ}
    (htemp : ∀ i, tempPath cfg (hex v.transfer.t.peer) v.transfer.t.id i = temp i)
    (htransfer : v'.transfer = (v.transfer.accept cfg hex disk dest now).transfer)
    (hdisk : v'.disk = v.disk)
    (hnotes : v'.notes = v.notes ++ (v.transfer.accept cfg hex disk dest now).notes) :
    Kept clean temp v v' := by
  simp only [Transfer.accept] at htransfer hnotes
  split_ifs at htransfer hnotes
  · refine ⟨⟨by rw [htransfer], by rw [htransfer], by rw [htransfer], by rw [htransfer],
      fun _ i _ => by rw [hdisk], ?_, fun i f hf => ?_⟩, ⟨[], ?_, ?_⟩, ?_,
      fun n hn => hnotes ▸ mem_append_left _ hn, ?_⟩
    · rw [htransfer, Transfer.placedIn, length_mapIdx]
    · rw [htransfer]
      exact ⟨_, Transfer.getElem?_placedIn cfg hex hf dest, rfl, fun _ => htemp i⟩
    · rw [hnotes, jobs_append]
      rfl
    · rw [htransfer, append_nil]
    · rw [hnotes, written_append]
      rfl
    · rw [htransfer]
      exact id
  · refine .of_files ?_ ?_ ?_ ?_ (fun _ i _ => by rw [hdisk]) hnotes rfl rfl
    all_goals rw [htransfer]
    exact id

omit h in
theorem of_exec (cfg : Config) (sha256 : Bytes → Bytes) (hex : P → Bytes)
    (hlocal : sec.Local) (hholds : sec.Holds = false)
    (htemp : ∀ i, tempPath cfg (hex v.transfer.t.peer) v.transfer.t.id i = temp i) (a : Answer)
    (rest : Multiset Section) : Kept clean temp v (v.exec cfg sha256 hex a sec rest) := by
  have hqueues := v.transfer.exec_queues cfg sha256 hex v.disk a sec
  cases sec with
  | chunk | fileEnd =>
    obtain hx | ⟨e, hx⟩ | ⟨t, hq, hx⟩ := hqueues _ rfl
    · refine .of_files ?_ ?_ ?_ ?_ ?_ rfl ?_ ?_
      all_goals simp [View.exec, hx, jobs, FileTransfer.written]
    · refine .of_files ?_ ?_ ?_ ?_ ?_ rfl ?_ ?_
      all_goals simp [View.exec, hx, jobs, FileTransfer.written, Transfer.refusal, Note.job, Note.written]
    · exact .queued hq (by rw [View.exec, hx]) (by rw [View.exec, hx]) (by rw [View.exec, hx])
  | accept dest =>
    refine .accept htemp rfl ?_ rfl
    simp only [View.exec, Transfer.exec, Transfer.accept]
    split_ifs <;> rfl
  | schedule | withdraw | unlist _ _ _ => exact hlocal.elim
  | peerCancel | peerPause | peerResume | respond | cancel | pause | resume | expire | refuse
  | finish _ _ _ | report _ _ _ =>
    refine .of_files ?_ ?_ ?_ ?_ ?_ rfl ?_ ?_
    all_goals
      simp only [View.exec, Transfer.exec, Transfer.respond, Transfer.finish]
      repeat' split
      all_goals simp [jobs, FileTransfer.written, Note.job, Note.written]
  | _ => cases hholds

end Kept

end Kept

end Librats.FileTransfer
