import Librats.Subsystems.Writing

/-!
# The steps of the disk writer

One lemma a section of the thread that has the turn: from what is known there (`Working`) to what is
known at the sections that follow (`Advance`). They are put together with the steps that leave the
writer alone in `Writing.step`.
-/

namespace Librats.FileTransfer

open Objects Interleaving List Option Transfer Writer Disk

variable {P : Type}

/-! ## The invariant -/

/-- What a note says is right: a file that is moved holds all the data of its chunks, with the
digest its end has brought, and a transfer succeeds when all files were moved. -/
def Note.Justified (cfg : Config) (sha256 : Bytes → Bytes) (clean : Prop) (sizes : List ℕ)
    (before : List (Note P)) : Note P → Prop
  | .moved i _ content => clean →
    content = dataOf i (jobs before) ∧ sizes[i]? = some content.length ∧
      (cfg.verifyIntegrity = true → ∃ job, .queued job ∈ before ∧ job.isFileEnd = true ∧
        job.fidx = i ∧ sha256 content = job.sha)
  | .finishing success _ => success = true → ∀ i < sizes.length, Moved i before
  | _ => True

/-- What is known of a transfer at every point of a run. -/
structure Writing (cfg : Config) (sha256 : Bytes → Bytes) (clean : Prop) (temp : ℕ → Bytes)
    (v : View P) : Prop where
  paths : clean → ∀ i f, v.transfer.t.files[i]? = some f → Paths temp v i f.finalPath f.tempPath
  finalized : ∀ i f, v.transfer.t.files[i]? = some f → f.finalized = true → Moved i v.notes
  bound : written v.notes ≤ v.transfer.t.sizes.sum
  justified : Chronicle (Note.Justified cfg sha256 clean v.transfer.t.sizes) v.notes
  idle : (∀ sec ∈ v.sections, sec.Holds = false) → Idle clean temp v
  working : ∀ sec ∈ v.sections, Working cfg sha256 clean temp v sec

/-- What the step of the thread that has the turn establishes. -/
structure Advance (cfg : Config) (sha256 : Bytes → Bytes) (clean : Prop) (temp : ℕ → Bytes)
    (v v' : View P) (next : List Section) : Prop where
  paths : ∀ (i : ℕ) (f' : IncomingFile), v'.transfer.t.files[i]? = some f' →
    ∃ f : IncomingFile, v.transfer.t.files[i]? = some f ∧ f'.finalPath = f.finalPath ∧
      f'.tempPath = f.tempPath
  finalized : ∀ i f, v'.transfer.t.files[i]? = some f → f.finalized = true → Moved i v'.notes
  bound : written v'.notes ≤ v.transfer.t.sizes.sum
  justified : Chronicle (Note.Justified cfg sha256 clean v.transfer.t.sizes) v'.notes
  follow : ∀ sec ∈ next, Working cfg sha256 clean temp v' sec
  stop : next = [] → Idle clean temp v'

/-- A note that says of no file that it was moved, and of no transfer that it ended. -/
def Note.Quiet : Note P → Prop
  | .moved _ _ _ | .finishing _ _ => False
  | _ => True

/-- A note that says nothing of the files and the queue. -/
def Note.Plain : Note P → Prop
  | .moved _ _ _ | .finishing _ _ | .queued _ | .file (.write _ _ _) => False
  | _ => True

/-- The files of the transfer with other flags and counts. -/
structure FilesKept (files files' : List IncomingFile) : Prop where
  length : files'.length = files.length
  file : ∀ (i : ℕ) (f' : IncomingFile), files'[i]? = some f' →
    ∃ f : IncomingFile, files[i]? = some f ∧ f'.finalPath = f.finalPath ∧
      f'.tempPath = f.tempPath ∧ f'.finalized = f.finalized

theorem FilesKept.refl (files : List IncomingFile) : FilesKept files files :=
  ⟨rfl, fun _ f hf => ⟨f, hf, rfl, rfl, rfl⟩⟩

theorem FilesKept.modify (files : List IncomingFile) (k : ℕ) {g : IncomingFile → IncomingFile}
    (hg : ∀ f, (g f).finalPath = f.finalPath ∧ (g f).tempPath = f.tempPath ∧
      (g f).finalized = f.finalized) : FilesKept files (files.modify k g) := by
  refine ⟨length_modify _ _ _, fun i f' hf' => ?_⟩
  rw [getElem?_modify] at hf'
  obtain ⟨f, hf, rfl⟩ := map_eq_some_iff.mp hf'
  refine ⟨f, hf, ?_⟩
  split_ifs
  · exact hg f
  · exact ⟨rfl, rfl, rfl⟩

theorem FilesKept.symm_file {files files' : List IncomingFile} (h : FilesKept files files') {i : ℕ}
    {f : IncomingFile} (hf : files[i]? = some f) : ∃ f', files'[i]? = some f' ∧
      f'.finalPath = f.finalPath ∧ f'.tempPath = f.tempPath ∧ f'.finalized = f.finalized := by
  have hlt := lt_of_getElem? hf
  rw [← h.length] at hlt
  obtain ⟨f₀, hf₀, heq⟩ := h.file i _ (getElem?_eq_getElem hlt)
  obtain rfl : f = f₀ := Option.mem_unique hf hf₀
  exact ⟨_, getElem?_eq_getElem hlt, heq⟩

variable {notes : List (Note P)}

theorem jobs_of_plain (h : ∀ n ∈ notes, n.Plain) : jobs notes = [] := by
  refine filterMap_eq_nil_iff.mpr fun n hn => ?_
  have := h n hn
  cases n <;> first | rfl | exact this.elim

theorem written_of_plain (h : ∀ n ∈ notes, n.Plain) : written notes = 0 := by
  refine sum_eq_zero fun k hk => ?_
  obtain ⟨n, hn, rfl⟩ := mem_map.mp hk
  have := h n hn
  cases n with
  | file op => cases op <;> first | rfl | exact this.elim
  | _ => rfl

theorem quiet_of_plain {n : Note P} (h : n.Plain) : n.Quiet := by
  cases n <;> trivial

theorem justified_of_quiet {cfg : Config} {sha256 : Bytes → Bytes} {clean : Prop} {sizes : List ℕ}
    {before after : List (Note P)} {n : Note P} (h : ∀ n ∈ notes, n.Quiet) {l : List (Note P)}
    (heq : notes = before ++ n :: after) : n.Justified cfg sha256 clean sizes (l ++ before) := by
  have hn : n.Quiet := h n (heq ▸ mem_append_right _ (.head _))
  cases n <;> trivial

section

variable {cfg : Config} {sha256 : Bytes → Bytes} {clean : Prop} {temp : ℕ → Bytes} {v v' : View P}
  {done hand : List WriteJob} {job : WriteJob} {i k : ℕ} {notes : List (Note P)}
  {next : List Section}

section

variable (h : Writing cfg sha256 clean temp v)
  (hfiles : FilesKept v.transfer.t.files v'.transfer.t.files) (hnotes : v'.notes = v.notes ++ notes)

include h hfiles hnotes

theorem Advance.of_files (hbound : written v.notes + written notes ≤ v.transfer.t.sizes.sum)
    (hjust : ∀ before n after, notes = before ++ n :: after →
      n.Justified cfg sha256 clean v.transfer.t.sizes (v.notes ++ before))
    (hnext : ∀ sec ∈ next, Working cfg sha256 clean temp v' sec)
    (hstop : next = [] → Idle clean temp v') : Advance cfg sha256 clean temp v v' next where
  paths i f' hf' := by
    obtain ⟨f, hf, hfinal, htemp, -⟩ := hfiles.file i f' hf'
    exact ⟨f, hf, hfinal, htemp⟩
  finalized i f' hf' hfin := by
    obtain ⟨f, hf, -, -, heq⟩ := hfiles.file i f' hf'
    refine (h.finalized i f hf (heq.symm.trans hfin)).mono fun n hn => ?_
    exact hnotes ▸ mem_append_left _ hn
  bound := by rwa [hnotes, written_append]
  justified := hnotes ▸ h.justified.append hjust
  follow := hnext
  stop := hstop

theorem Advance.plain (hplain : ∀ n ∈ notes, n.Plain)
    (hnext : ∀ sec ∈ next, Working cfg sha256 clean temp v' sec)
    (hstop : next = [] → Idle clean temp v') : Advance cfg sha256 clean temp v v' next := by
  refine .of_files h hfiles hnotes ?_ (fun before n after heq => ?_) hnext hstop
  · rw [written_of_plain hplain]
    exact h.bound
  · exact justified_of_quiet (fun n hn => quiet_of_plain (hplain n hn)) heq

end

theorem Ledger.plain (hl : Ledger v done hand)
    (hfiles : FilesKept v.transfer.t.files v'.transfer.t.files)
    (hnotes : v'.notes = v.notes ++ notes) (hplain : ∀ n ∈ notes, n.Plain) {hand' : List WriteJob}
    (hqueue : hand' ++ v'.transfer.t.wq = hand ++ v.transfer.t.wq) : Ledger v' done hand' where
  queue := by
    rw [hnotes, jobs_append, jobs_of_plain hplain, append_nil, hl.queue, append_assoc,
      append_assoc, hqueue]
  writable := hl.writable
  written := by rw [hnotes, written_append, written_of_plain hplain, add_zero, hl.written]
  finalized i f' hf' hfin := by
    obtain ⟨f, hf, -, -, heq⟩ := hfiles.file i f' hf'
    exact hl.finalized i f hf (heq.symm.trans hfin)

theorem Queue.inHand (hq : Queue v) (hl : Ledger v done [job]) :
    Admitted v.transfer.t.sizes done job := by
  refine hq.admitted done job v.transfer.t.wq ?_
  rw [hl.queue, append_assoc]
  rfl

theorem Queue.file (hq : Queue v) (hl : Ledger v done [job]) :
    ∃ f, v.transfer.t.files[job.fidx]? = some f := by
  obtain ⟨size, hsize, -⟩ := (hq.inHand hl).file
  simp only [Incoming.sizes, getElem?_map] at hsize
  obtain ⟨f, hf, -⟩ := map_eq_some_iff.mp hsize
  exact ⟨f, hf⟩

/-- The view after a section has left `d`. -/
structure After (v v' : View P) (d : Done P) : Prop where
  transfer : v'.transfer = d.transfer
  disk : v'.disk = d.disk
  notes : v'.notes = v.notes ++ d.notes

variable {d : Done P} {error : String} {path content final : Bytes} {a : Answer} {ok success : Bool}

theorem After.kept (ha : After v v' d) (hw : d.transfer.w = v.transfer.w)
    (hfiles : d.transfer.t.files = v.transfer.t.files) (hwq : d.transfer.t.wq = v.transfer.t.wq)
    (hfin : v.transfer.t.finished = true → d.transfer.t.finished = true)
    (hdisk : clean → ∀ i < v.transfer.t.files.length, d.disk (temp i) = v.disk (temp i))
    (hplain : ∀ n ∈ d.notes, n.Plain) : Kept clean temp v v' := by
  refine .of_files ?_ ?_ ?_ ?_ ?_ ha.notes (jobs_of_plain hplain) (written_of_plain hplain)
  · rw [ha.transfer, hw]
  · rw [ha.transfer, hfiles]
  · rw [ha.transfer, hwq]
  · rwa [ha.transfer]
  · rwa [ha.disk]

theorem After.filesKept (ha : After v v' d)
    (hfiles : FilesKept v.transfer.t.files d.transfer.t.files) :
    FilesKept v.transfer.t.files v'.transfer.t.files := by
  rwa [ha.transfer]

theorem After.still (ha : After v v' d) (hout : d.transfer.w.out = v.transfer.w.out)
    (houtIdx : d.transfer.w.outIdx = v.transfer.w.outIdx)
    (hhashing : d.transfer.w.hashingFile = v.transfer.w.hashingFile)
    (hhashed : d.transfer.w.hashed = v.transfer.w.hashed)
    (hfiles : FilesKept v.transfer.t.files d.transfer.t.files)
    (hdisk : clean → ∀ i < v.transfer.t.files.length, d.disk (temp i) = v.disk (temp i)) :
    Still clean temp v v' := by
  refine ⟨?_, ?_, ?_, ?_, ?_, ?_, fun i f hf => ?_⟩
  · rw [ha.transfer, hout]
  · rw [ha.transfer, houtIdx]
  · rw [ha.transfer, hhashing]
  · rw [ha.transfer, hhashed]
  · rwa [ha.disk]
  · rw [ha.transfer, hfiles.length]
  · obtain ⟨f', hf', -, htemp, hfin⟩ := hfiles.symm_file hf
    exact ⟨f', by rw [ha.transfer, hf'], hfin, fun h => htemp.trans h⟩

section

variable (h : Writing cfg sha256 clean temp v) {sec : Section}

include h

theorem Advance.one (ha : After v v' d) (hfiles : FilesKept v.transfer.t.files d.transfer.t.files)
    (hplain : ∀ n ∈ d.notes, n.Plain) (hnext : d.next = [sec])
    (hw : Working cfg sha256 clean temp v' sec) :
    Advance cfg sha256 clean temp v v' d.next := by
  refine .plain h (ha.filesKept hfiles) ha.notes hplain (fun sec' hsec => ?_) ?_
  · rw [hnext, mem_singleton] at hsec
    exact hsec ▸ hw
  · simp [hnext]

theorem Advance.same
    (ha : After v v' ⟨v.transfer, v.disk, notes, [sec]⟩) (hplain : ∀ n ∈ notes, n.Plain)
    (hw : Working cfg sha256 clean temp v sec) : Advance cfg sha256 clean temp v v' [sec] := by
  have hkept : Kept clean temp v v' := ha.kept rfl rfl rfl id (fun _ _ _ => rfl) hplain
  exact .one h ha (.refl _) hplain rfl (hkept.working hw)

theorem Advance.failed {x : Transfer P} {disk : Disk}
    (ha : After v v' (x.failed disk notes error)) (hx : x.t = v.transfer.t)
    (hplain : ∀ n ∈ notes, n.Plain) :
    Advance cfg sha256 clean temp v v' (x.failed disk notes error).next := by
  refine .one h ha (by rw [Transfer.failed, hx]; exact .refl _) (fun n hn => ?_) rfl nofun
  obtain hn | hn := mem_append.mp hn
  · exact hplain n hn
  · obtain rfl := mem_singleton.mp hn
    trivial

end

variable (w : Writer)

theorem plain_closing : ∀ n ∈ (w.closing : List (Note P)), n.Plain := by
  simp [closing, Note.Plain]

variable (cfg sha256 clean temp v v') in
/-- The lemma of a section that leaves `d`. -/
def Advances (sec : Section) (d : Done P) : Prop :=
  Writing cfg sha256 clean temp v → Queue v → Working cfg sha256 clean temp v sec →
    After v v' d → Advance cfg sha256 clean temp v v' d.next

variable (x : Transfer P) (disk : Disk)

theorem drainWrites_cases : (x.t.finished = true ∧ x.drainWrites disk =
      ⟨{ x with t := { x.t with wq := [], queuedBytes := 0, scheduled := false } }, disk, [], []⟩) ∨
    x.t.finished = false ∧
      (x.drainWrites disk = ⟨{ x with t := { x.t with scheduled := false } }, disk, [], []⟩ ∨
      ∃ job rest, x.t.wq = job :: rest ∧ x.drainWrites disk =
        ⟨{ x with t := { x.t with wq := rest } }, disk, [],
          [if job.isFileEnd then .endFile job else .data job]⟩) := by
  unfold drainWrites
  split_ifs with hfin
  · exact .inl ⟨hfin, rfl⟩
  · refine .inr ⟨by simpa using hfin, ?_⟩
    split
    · exact .inl rfl
    · next job rest hwq => exact .inr ⟨job, rest, hwq, rfl⟩

theorem advance_drain :
    Advances cfg sha256 clean temp v v' .drain (v.transfer.drainWrites v.disk) := by
  intro h _ hw ha
  have hfiles : v'.transfer.t.files = v.transfer.t.files := by
    rw [ha.transfer]
    obtain ⟨-, hd⟩ | ⟨-, hd | ⟨_, _, -, hd⟩⟩ := drainWrites_cases v.transfer v.disk
    all_goals rw [hd]
  have hkept : FilesKept v.transfer.t.files v'.transfer.t.files := hfiles ▸ .refl _
  obtain ⟨hfin, hd⟩ | ⟨hfin, hd⟩ := drainWrites_cases v.transfer v.disk
  · rw [hd] at ha ⊢
    refine .plain h hkept ha.notes (by simp) (by simp) fun _ => .inl ?_
    rwa [ha.transfer]
  obtain ⟨done, hl, hb⟩ := hw.resolve_left (by simp [hfin])
  obtain hd | ⟨job, rest, hwq, hd⟩ := hd
  · rw [hd] at ha ⊢
    have hsame : Kept clean temp v v' := ha.kept rfl rfl rfl id (fun _ _ _ => rfl) (by simp)
    exact .plain h hkept ha.notes (by simp) (by simp) fun _ => hsame.idle (.inr ⟨done, hl, hb⟩)
  rw [hd] at ha ⊢
  have hl' : Ledger v' done [job] := hl.plain hkept ha.notes (by simp) (by rw [ha.transfer, hwq]; rfl)
  have hstill : Still clean temp v v' := ha.still rfl rfl rfl rfl (.refl _) fun _ _ _ => rfl
  have hb' (hclean : clean) := hstill.between hclean (hb hclean)
  refine .plain h hkept ha.notes (by simp) (fun sec hsec => ?_) (by simp)
  obtain rfl := mem_singleton.mp hsec
  split_ifs with hend
  · exact ⟨done, hl', hend, hb'⟩
  · exact ⟨done, hl', by simpa using hend, hb'⟩

/-- `process_data`, up to opening the file. -/
theorem advance_data :
    Advances cfg sha256 clean temp v v' (.data job) (v.transfer.processData v.disk job) := by
  rintro h hq ⟨done, hl, hdata, hb⟩ ha
  obtain ⟨f, hf⟩ := hq.file hl
  have hfidx := (hq.inHand hl).fidx
  simp only [processData, hf] at ha ⊢
  split_ifs at ha ⊢ with hfin hidx
  · exact .one h ha (.refl _) (by simp) rfl (.inl (by rw [ha.transfer]; exact hfin))
  · refine .same h ha (by simp) ⟨done, hl, hdata, fun hclean => ?_⟩
    obtain ⟨hu, -, -⟩ | ⟨ho, hhash⟩ := hb hclean
    · cases hu.outIdx.symm.trans hidx
    · exact ⟨ho, .inr hhash⟩
  refine .same h ha (by simp) ⟨done, hl, hdata, fun hclean => ?_⟩
  obtain ⟨hu, hnil, hhash⟩ | ⟨ho, -⟩ := hb hclean
  · refine ⟨hu, hnil, hhash, fun hne => ?_⟩
    have htemp := (h.paths hclean _ f hf).path.resolve_left hne
    rw [hfidx] at htemp hf
    exact ⟨htemp, f, hf, htemp⟩
  · exact absurd (ho.outIdx.trans (by rw [hfidx])) hidx

theorem advance_openTemp (hinj : Function.Injective temp) :
    Advances cfg sha256 clean temp v v' (.openTemp job path)
      (v.transfer.openTemp v.disk job path a) := by
  rintro h hq ⟨done, hl, hdata, hb⟩ ha
  have hfidx := (hq.inHand hl).fidx
  unfold openTemp at ha ⊢
  simp only at ha ⊢
  split_ifs at ha ⊢ with hok
  · have hfiles := FilesKept.modify v.transfer.t.files job.fidx
      (g := fun f => { f with tempCreated := true }) fun f => ⟨rfl, rfl, rfl⟩
    have hplain : ∀ n ∈ v.transfer.w.closing ++ [Note.file (P := P) (.openWrite path)], n.Plain :=
      fun n hn => (mem_append.mp hn).elim (plain_closing _ n)
        fun hn => by obtain rfl := mem_singleton.mp hn; trivial
    have hkept := ha.filesKept hfiles
    refine .one h ha hfiles hplain rfl ?_
    refine ⟨done, hl.plain hkept ha.notes hplain (by rw [ha.transfer]), hdata, fun hclean => ?_⟩
    obtain ⟨hu, hnil, hhash, hpath⟩ := hb hclean
    obtain ⟨rfl, f, hf, htemp⟩ := hpath hok.2
    -- no stream was open and the file is new
    have hflush : v.transfer.w.flush v.disk a.lost = v.disk := by
      rw [flush, hu.out]
    have hnone : v.disk (temp (ends done)) = none :=
      hu.unused _ le_rfl (lt_of_getElem? hf)
    rw [hflush, hnone, getD_none] at ha
    obtain ⟨f', hf', -, htemp', -⟩ := hkept.symm_file hf
    rw [hnil]
    refine ⟨⟨?_, ?_, ⟨f', hf', htemp'.trans htemp⟩, fun i hi hlt => ?_⟩, .inl ⟨?_, rfl⟩⟩
    · rw [ha.transfer]
    · rw [ha.transfer, hfidx]
    · rw [hkept.length] at hlt
      have hne : temp i ≠ temp (ends done) := fun heq => absurd (hinj heq) (by omega)
      rw [ha.disk]
      exact (put_of_ne hne).trans (hu.unused i (by omega) hlt)
    · rwa [ha.transfer]
  · exact .failed h ha rfl (plain_closing _)

theorem overwrite_append (content data : Bytes) :
    overwrite content content.length data = content ++ data := by
  unfold overwrite
  split_ifs with hdata
  · rw [hdata, append_nil]
  · simp

theorem Ledger.wrote (hl : Ledger v done [job]) (hdata : job.isFileEnd = false)
    (hoffset : job.offset < 2 ^ 63) {offset : ℕ}
    (hfiles : FilesKept v.transfer.t.files v'.transfer.t.files)
    (hnotes : v'.notes = v.notes ++ [.file (.write path offset job.data)])
    (hwq : v'.transfer.t.wq = v.transfer.t.wq) : Ledger v' (done ++ [job]) [] where
  queue := by
    rw [hnotes, jobs_append, hl.queue, hwq, append_nil]
    exact append_nil _
  writable job' hjob' hdata' := by
    obtain hjob' | hjob' := mem_append.mp hjob'
    · exact hl.writable job' hjob' hdata'
    · exact mem_singleton.mp hjob' ▸ hoffset
  written := by
    rw [hnotes, written_append, hl.written, payload_append, payload_singleton, hdata]
    rfl
  finalized i f' hf' hfin := by
    obtain ⟨f, hf, -, -, heq⟩ := hfiles.file i f' hf'
    have := hl.finalized i f hf (heq.symm.trans hfin)
    rw [ends_append]
    omega

theorem Queue.payload_le (hq : Queue v) (hl : Ledger v done [job]) (hoffset : job.offset < 2 ^ 63) :
    payload (done ++ [job]) ≤ v.transfer.t.sizes.sum := by
  have hall := hq.admitted
  rw [hl.queue] at hall
  refine AllAdmitted.payload_le hall.left fun job' hjob' hdata => ?_
  obtain hjob' | hjob' := mem_append.mp hjob'
  · exact hl.writable job' hjob' hdata
  · exact mem_singleton.mp hjob' ▸ hoffset

theorem Queue.offset_eq (hq : Queue v) (hl : Ledger v done [job]) (hdata : job.isFileEnd = false) :
    job.offset = (dataOf (ends done) done).length := by
  have hadmitted := hq.inHand hl
  have hall := hq.admitted
  rw [hl.queue, append_assoc] at hall
  obtain ⟨size, -, -, hoffset⟩ := hadmitted.file
  rw [(hoffset hdata).1, hadmitted.fidx,
    Nat.mod_eq_of_lt (AllAdmitted.length_dataOf_lt hall.left hl.writable _)]

@[simp] theorem rehash_out (k : ℕ) : (w.rehash k).out = w.out := by
  unfold rehash
  split_ifs <;> rfl

@[simp] theorem rehash_outIdx (k : ℕ) : (w.rehash k).outIdx = w.outIdx := by
  unfold rehash
  split_ifs <;> rfl

@[simp] theorem rehash_hashingFile (k : ℕ) : (w.rehash k).hashingFile = some k := by
  unfold rehash
  split_ifs with h
  · exact h
  · rfl

theorem Hashing.rehash (h : Hashing v k content) : (v.transfer.w.rehash k).hashed = content := by
  unfold Writer.rehash
  obtain ⟨hnone, rfl⟩ | ⟨hsome, hhashed⟩ := h
  · rw [if_neg (by simp [hnone])]
  · rw [if_pos hsome, hhashed]

theorem write_cases (job : WriteJob) (a : Answer) :
    (∃ w error, x.write disk job a = { x with w := w }.failed disk [] error) ∨
    ∃ stream, x.w.out = some stream ∧ job.offset < 2 ^ 63 ∧
      (x.write disk job a = ⟨{ x with w := { x.w.rehash job.fidx with
          out := some { stream with view := overwrite stream.view job.offset job.data }
          hashed := (x.w.rehash job.fidx).hashed ++ job.data } }, disk,
        [.file (.write stream.path job.offset job.data)], [.record job]⟩ ∨
      ∃ w error, x.write disk job a = { x with w := w }.failed disk
        [.file (.write stream.path job.offset job.data)] error) := by
  unfold write
  simp only [rehash_out]
  split
  · exact .inl ⟨_, _, rfl⟩
  · next stream hout =>
    split_ifs with hoffset
    · exact .inl ⟨_, _, rfl⟩
    · exact .inr ⟨stream, hout, not_le.mp hoffset, .inl rfl⟩
    · exact .inr ⟨stream, hout, not_le.mp hoffset, .inr ⟨_, _, rfl⟩⟩

/-- `FileStream::write_at` and the hash. -/
theorem advance_write :
    Advances cfg sha256 clean temp v v' (.write job) (v.transfer.write v.disk job a) := by
  rintro h hq ⟨done, hl, hdata, hb⟩ ha
  have hfidx := (hq.inHand hl).fidx
  obtain ⟨w, error, hd⟩ | ⟨stream, hout, hoffset, hd⟩ := write_cases v.transfer v.disk job a
  · rw [hd] at ha ⊢
    exact .failed h ha rfl (by simp)
  have hbound : written v.notes + job.data.length ≤ v.transfer.t.sizes.sum := by
    have := hq.payload_le hl hoffset
    rwa [payload_append, payload_singleton, hdata, ← hl.written] at this
  obtain hd | ⟨w, error, hd⟩ := hd
  · rw [hd] at ha ⊢
    have hkept := ha.filesKept (.refl _)
    have hl' : Ledger v' (done ++ [job]) [] :=
      hl.wrote hdata hoffset hkept ha.notes (by rw [ha.transfer])
    refine .of_files h hkept ha.notes hbound
      (fun _ _ _ heq => justified_of_quiet (by simp [Note.Quiet]) heq) (fun sec hsec => ?_) (by simp)
    obtain rfl := mem_singleton.mp hsec
    refine ⟨done ++ [job], hl', fun hclean => .inr ?_⟩
    obtain ⟨ho, hhash⟩ := hb hclean
    obtain rfl : stream = ⟨temp (ends done), dataOf (ends done) done⟩ :=
      Option.mem_unique hout ho.out
    have hends : ends (done ++ [job]) = ends done := by
      rw [ends_append, ends_singleton, hdata]
      rfl
    have hcontent : dataOf (ends done) (done ++ [job]) = dataOf (ends done) done ++ job.data := by
      rw [dataOf_append, dataOf_singleton, if_pos ⟨hdata, hfidx⟩]
    have hstill : ∃ f, v'.transfer.t.files[ends done]? = some f ∧ f.tempPath = temp (ends done) := by
      rw [ha.transfer]
      exact ho.path
    rw [hends, hcontent]
    refine ⟨⟨?_, ?_, hstill, ?_⟩, ?_, ?_⟩
    · rw [ha.transfer, hq.offset_eq hl hdata, overwrite_append]
    · rw [ha.transfer]
      exact (rehash_outIdx _ _).trans ho.outIdx
    · rw [Unused, ha.transfer, ha.disk]
      exact ho.unused
    · rw [ha.transfer, ← hfidx]
      exact rehash_hashingFile _ _
    · rw [ha.transfer, hfidx, hhash.rehash]
  · rw [hd] at ha ⊢
    refine .of_files h (ha.filesKept (.refl _)) ha.notes hbound
      (fun _ _ _ heq => justified_of_quiet (by simp [Note.Quiet, failed]) heq)
      (fun sec hsec => ?_) (by simp [failed])
    obtain rfl := mem_singleton.mp hsec
    rintro ⟨⟩

/-- The second critical section of `process_data`. -/
theorem advance_record {now : ℕ} :
    Advances cfg sha256 clean temp v v' (.record job) (v.transfer.record cfg v.disk job now) := by
  rintro h - ⟨done, hl, hb⟩ ha
  have hfiles := FilesKept.modify v.transfer.t.files job.fidx
    (g := fun f => { f with received := (f.received + job.data.length) % 2 ^ 64 })
    fun f => ⟨rfl, rfl, rfl⟩
  have hplain : ∀ n ∈ (v.transfer.record cfg v.disk job now).notes, n.Plain := by
    unfold record
    simp only
    split_ifs <;> simp [Note.Plain]
  have hstill : Still clean temp v v' := by
    refine ha.still ?_ ?_ ?_ ?_ hfiles fun _ _ _ => rfl
    all_goals
      unfold record
      simp only
      split_ifs <;> rfl
  have hkept := ha.filesKept hfiles
  refine .one h ha hfiles hplain rfl (.inr ⟨done, ?_, fun hclean => hstill.between hclean (hb hclean)⟩)
  exact hl.plain hkept ha.notes hplain (by rw [ha.transfer]; rfl)

/-- `process_file_end`, up to the comparison of the hashes. -/
theorem advance_endFile : Advances cfg sha256 clean temp v v' (.endFile job)
      (v.transfer.processFileEnd cfg sha256 v.disk job) := by
  rintro h hq ⟨done, hl, hend, hb⟩ ha
  obtain ⟨f, hf⟩ := hq.file hl
  have hfidx := (hq.inHand hl).fidx
  have hunfinalized : f.finalized = false := by
    cases hfin : f.finalized with
    | false => rfl
    | true => exact absurd (hl.finalized _ f hf hfin) (by omega)
  simp only [processFileEnd, hf, hunfinalized, Bool.or_false] at ha ⊢
  split_ifs at ha ⊢ with hfin hsha
  · exact .one h ha (.refl _) (by simp) rfl (.inl (by rw [ha.transfer]; exact hfin))
  · exact .failed h ha rfl (by simp)
  have hkept := ha.filesKept (.refl _)
  have hlength := hkept.length
  have hending : Ending v' done job job.fidx :=
    ⟨hl.plain hkept ha.notes (by simp) (by rw [ha.transfer]), hend, rfl,
      hlength ▸ lt_of_getElem? hf⟩
  refine .one h ha (.refl _) (by simp) rfl ⟨done, job, hending, fun hclean => ?_⟩
  have hsize : f.size = (dataOf job.fidx done).length := by
    have hall := hq.admitted
    rw [hl.queue, append_assoc] at hall
    have heq := AllAdmitted.length_dataOf_eq hall hl.writable hend
    simpa [Incoming.sizes, hf] using heq
  have hout : v'.transfer.w.out = v.transfer.w.out := by
    rw [ha.transfer]
    exact rehash_out _ _
  have houtIdx : v'.transfer.w.outIdx = v.transfer.w.outIdx := by
    rw [ha.transfer]
    exact rehash_outIdx _ _
  have hunused (k : ℕ) (hu : Unused temp v k) : Unused temp v' k := by
    rwa [Unused, hlength, ha.disk]
  have hpaths := h.paths hclean _ f hf
  have hhash : Hashing v (ends done) (dataOf (ends done) done) :=
    (hb hclean).imp (fun h => ⟨h.2.2, h.2.1⟩) And.right
  rw [not_and, not_not] at hsha
  refine ⟨?_, by rw [ha.transfer], hsize, fun hv => ?_, ⟨by rw [hlength]; exact hpaths.final,
    hpaths.path⟩⟩
  · rw [hfidx] at hf ⊢
    obtain ⟨hu, hnil, -⟩ | ⟨ho, -⟩ := hb hclean
    · exact .inl ⟨⟨hout.trans hu.out, houtIdx.trans hu.outIdx, hunused _ hu.unused⟩, hnil⟩
    · obtain ⟨f', hf', htemp⟩ := ho.path
      obtain rfl : f = f' := Option.mem_unique hf hf'
      refine .inr ⟨⟨hout.trans ho.out, houtIdx.trans ho.outIdx, ?_, hunused _ ho.unused⟩, htemp⟩
      rw [ha.transfer]
      exact ⟨f, hf, htemp⟩
  · have heq := hsha hv
    rwa [hfidx, hhash.rehash, ← hfidx] at heq

theorem advance_close (hinj : Function.Injective temp) {size : ℕ} {lost : Option Bytes}
    (hlost : clean → lost = none) : Advances cfg sha256 clean temp v v' (.close i final path size)
      (v.transfer.closeTemp v.disk i final path size lost) := by
  rintro h - ⟨done, job, he, hb⟩ ha
  simp only [closeTemp] at ha ⊢
  split_ifs at ha ⊢ with hidx
  · have hkept := ha.filesKept (.refl _)
    have hlength := hkept.length
    have hending : Ending v' done job i :=
      ⟨he.ledger.plain hkept ha.notes (plain_closing _) (by rw [ha.transfer]), he.isEnd, he.fidx,
        hlength ▸ he.inRange⟩
    refine .one h ha (.refl _) (plain_closing _) rfl ⟨done, job, hending, fun hclean => ?_⟩
    obtain ⟨⟨hu, -⟩ | ⟨ho, hpath⟩, hhash, hsize, hsha, hp⟩ := hb hclean
    · cases hu.outIdx.symm.trans hidx
    have hdisk : v'.disk = v.disk.put (temp i) (dataOf i done) := by
      rw [ha.disk, flush, ho.out, hlost hclean]
      rfl
    refine ⟨⟨by rw [ha.transfer], by rw [ha.transfer], ?_, hsha, fun j hj hlt => ?_⟩, hsize,
      ⟨by rw [hlength]; exact hp.final, hp.path⟩, fun _ => ⟨hpath, ?_⟩⟩
    · rwa [ha.transfer]
    · have hne : temp j ≠ temp i := fun heq => absurd (hinj heq) (by omega)
      rw [hdisk, put_of_ne hne]
      exact ho.unused j hj (hlength ▸ hlt)
    · rw [hdisk, put, Function.update_self]
  refine .same h ha (by simp) ⟨done, job, he, fun hclean => ?_⟩
  obtain ⟨⟨hu, hnil⟩ | ⟨ho, -⟩, hhash, hsize, hsha, hp⟩ := hb hclean
  · refine ⟨⟨hu.out, hu.outIdx, hhash, hsha, fun j hj hlt => hu.unused j (by omega) hlt⟩, hsize, hp,
      fun hne => ?_⟩
    rw [hsize, hnil] at hne
    exact absurd rfl hne
  · exact absurd ho.outIdx hidx

/-! ## Putting a file in its place -/

theorem mem_of_mem_jobs (h : job ∈ jobs notes) : .queued job ∈ notes := by
  obtain ⟨n, hn, hjob⟩ := mem_filterMap.mp h
  cases n with
  | queued _ => exact Option.some.inj hjob ▸ hn
  | _ => cases hjob

theorem Ending.after (he : Ending v done job i) (ha : After v v' d) (hx : d.transfer = v.transfer)
    (hjobs : jobs d.notes = []) (hwritten : written d.notes = 0) : Ending v' done job i := by
  have htransfer := ha.transfer.trans hx
  refine ⟨⟨?_, he.ledger.writable, ?_, ?_⟩, he.isEnd, he.fidx, ?_⟩
  · rw [ha.notes, jobs_append, hjobs, append_nil, htransfer, he.ledger.queue]
  · rw [ha.notes, written_append, hwritten, he.ledger.written, add_zero]
  · rw [htransfer]
    exact he.ledger.finalized
  · rw [htransfer]
    exact he.inRange

theorem Sealed.after (hs : Sealed cfg sha256 temp v done job i) (ha : After v v' d)
    (hx : d.transfer = v.transfer)
    (hdisk : ∀ j, i < j → j < v.transfer.t.files.length → d.disk (temp j) = v.disk (temp j)) :
    Sealed cfg sha256 temp v' done job i := by
  have htransfer := ha.transfer.trans hx
  refine ⟨?_, ?_, ?_, hs.verified, fun j hj hlt => ?_⟩
  · rw [htransfer, hs.out]
  · rw [htransfer, hs.outIdx]
  · rw [htransfer, hs.hashingFile]
  · rw [htransfer] at hlt
    rw [ha.disk, hdisk j hj hlt, hs.unused j hj hlt]

/-- What is put in the final place is the data of the chunks, with the sender's digest. -/
theorem Ending.justified (hq : Queue v) (he : Ending v done job i) {op : FileOp}
    (hcontent : clean → content = dataOf i done)
    (hsha : clean → cfg.verifyIntegrity = true → sha256 (dataOf i done) = job.sha) :
    (Note.moved i final content).Justified cfg sha256 clean v.transfer.t.sizes
      (v.notes ++ [.file op]) := by
  intro hclean
  obtain rfl := he.fidx
  have hall := hq.admitted
  have hjobs : jobs v.notes = done ++ job :: v.transfer.t.wq := by
    rw [he.ledger.queue, append_assoc]
    rfl
  rw [hjobs] at hall
  have hbefore : jobs (v.notes ++ [.file op]) = done ++ job :: v.transfer.t.wq := by
    rw [jobs_append, hjobs]
    exact append_nil _
  have hmem : .queued job ∈ v.notes := mem_of_mem_jobs (by simp [hjobs])
  rw [hcontent hclean, hbefore]
  refine ⟨(hall.dataOf_of_end he.isEnd).symm, hall.length_dataOf_eq he.ledger.writable he.isEnd,
    fun hv => ⟨job, mem_append_left _ hmem, he.isEnd, rfl, hsha hclean hv⟩⟩

theorem Advance.placing (h : Writing cfg sha256 clean temp v) (hq : Queue v)
    (he : Ending v done job i) (ha : After v v' d) (hx : d.transfer = v.transfer) {op : FileOp}
    (hnotes : d.notes = [.file op, .moved i final content]) (hop : (Note.file (P := P) op).Plain)
    (hcontent : clean → content = dataOf i done)
    (hsha : clean → cfg.verifyIntegrity = true → sha256 (dataOf i done) = job.sha) {sec : Section}
    (hnext : d.next = [sec])
    (hw : Ending v' done job i → Moved i v'.notes → Working cfg sha256 clean temp v' sec) :
    Advance cfg sha256 clean temp v v' d.next := by
  have hwritten : written d.notes = 0 := by
    have hfile : ∀ n ∈ [Note.file (P := P) op], n.Plain := by simpa using hop
    have := written_of_plain hfile
    rw [hnotes]
    simpa [written, Note.written] using this
  have hkept : FilesKept v.transfer.t.files v'.transfer.t.files := by
    rw [ha.transfer, hx]
    exact .refl _
  refine .of_files h hkept ha.notes (by rw [hwritten]; exact h.bound) (fun before n after heq => ?_)
    (fun sec' hsec => ?_) (by simp [hnext])
  · rw [hnotes] at heq
    obtain _ | ⟨_, _ | ⟨_, before⟩⟩ := before
    · obtain rfl := (List.cons.inj heq).1
      trivial
    · obtain ⟨rfl, hrest⟩ := List.cons.inj heq
      obtain rfl := (List.cons.inj hrest).1
      exact he.justified hq hcontent hsha
    · simp at heq
  · rw [hnext, mem_singleton] at hsec
    refine hsec ▸ hw (he.after ha hx ?_ hwritten) ⟨final, content, ?_⟩
    · rw [hnotes]
      rfl
    · rw [ha.notes, hnotes]
      simp

theorem clear_spec (i : ℕ) (final path : Bytes) (size : ℕ) (ok : Bool) :
    ∃ disk' notes, x.clear disk i final path size ok =
        ⟨x, disk', notes, [if size = 0 then .create i final path else .rename i final path]⟩ ∧
      (∀ n ∈ notes, n.Plain) ∧ ∀ p, p ≠ final → disk' p = disk p := by
  unfold clear
  split_ifs
  all_goals first
    | exact ⟨_, _, rfl, by simp [Note.Plain], fun p hp => delete_of_ne hp⟩
    | exact ⟨_, _, rfl, by simp [Note.Plain], fun p _ => rfl⟩

theorem advance_clear {size : ℕ} : Advances cfg sha256 clean temp v v' (.clear i final path size)
      (v.transfer.clear v.disk i final path size ok) := by
  rintro h - ⟨done, job, he, hb⟩ ha
  obtain ⟨disk', notes, hd, hplain, hdisk⟩ := clear_spec v.transfer v.disk i final path size ok
  rw [hd] at ha ⊢
  have hkept : Kept clean temp v v' := by
    refine ha.kept rfl rfl rfl id (fun hclean j hj => ?_) hplain
    obtain ⟨-, -, hp, -⟩ := hb hclean
    exact hdisk _ (hp.final j hj).symm
  refine .one h ha (.refl _) hplain rfl (hkept.working ?_)
  split_ifs with hsize
  · refine ⟨done, job, he, fun hclean => ?_⟩
    obtain ⟨hs, hlength, hp, -⟩ := hb hclean
    exact ⟨hs, length_eq_zero_iff.mp (hlength.symm.trans hsize), hp⟩
  · refine ⟨done, job, he, fun hclean => ?_⟩
    obtain ⟨hs, -, hp, hcontent⟩ := hb hclean
    exact ⟨hs, hp, hcontent hsize⟩

theorem advance_create : Advances cfg sha256 clean temp v v' (.create i final path)
      (v.transfer.create v.disk i final path ok) := by
  rintro h hq ⟨done, job, he, hb⟩ ha
  unfold create at ha ⊢
  split_ifs at ha ⊢
  · refine .placing h hq he ha rfl rfl trivial (fun hclean => (hb hclean).2.1.symm)
      (fun hclean => (hb hclean).1.verified) rfl fun he' hm => ⟨done, job, he', fun _ => hm, ?_⟩
    intro hclean
    obtain ⟨hs, -, hp⟩ := hb hclean
    exact ⟨hs.after ha rfl fun j _ hj => put_of_ne (hp.final j hj).symm, hp.path⟩
  · refine .same h ha (by simp [Note.Plain]) ⟨done, job, he, by simp, fun hclean => ?_⟩
    exact ⟨(hb hclean).1, (hb hclean).2.2.path⟩

theorem advance_discard (hinj : Function.Injective temp) (hne : ∀ i, temp i ≠ []) {created : Bool} :
    Advances cfg sha256 clean temp v v' (.discard i path created)
      (v.transfer.discard v.disk i path created ok) := by
  rintro h - ⟨done, job, he, hmoved, hb⟩ ha
  have hplain : ∀ n ∈ if (v.disk path).isSome then [Note.file (P := P) (.delete path)] else [],
      n.Plain := by
    split_ifs <;> simp [Note.Plain]
  cases created with
  | false => exact .failed h ha rfl hplain
  | true =>
    refine .one h ha (.refl _) hplain rfl ⟨done, job, ?_, ?_, fun hclean => ?_⟩
    · exact he.after ha rfl (jobs_of_plain hplain) (written_of_plain hplain)
    · exact (hmoved rfl).mono fun n hn => ha.notes ▸ mem_append_left _ hn
    obtain ⟨hs, hpath⟩ := hb hclean
    refine hs.after ha rfl fun j hj _ => ?_
    have hother : temp j ≠ path := by
      obtain rfl | rfl := hpath
      · exact hne j
      · exact fun heq => absurd (hinj heq) (by omega)
    cases ok with
    | true => exact delete_of_ne hother
    | false => rfl

theorem advance_rename (hinj : Function.Injective temp) :
    Advances cfg sha256 clean temp v v' (.rename i final path)
      (v.transfer.rename v.disk i final path ok) := by
  rintro h hq ⟨done, job, he, hb⟩ ha
  have hcopy {v' : View P} (ha : After v v' ⟨v.transfer, v.disk, [.file (.rename path final)],
      [.copy i final path]⟩) : Advance cfg sha256 clean temp v v' [.copy i final path] := by
    exact .same h ha (by simp [Note.Plain]) ⟨done, job, he, hb⟩
  unfold rename at ha ⊢
  split at ha
  · exact hcopy ha
  next content hcontent =>
  split_ifs at ha ⊢
  · refine .placing h hq he ha rfl rfl trivial (fun hclean => ?_)
      (fun hclean => (hb hclean).1.verified) rfl fun he' hm => ⟨done, job, he', hm, ?_⟩
    · obtain ⟨-, -, rfl, hdisk⟩ := hb hclean
      exact Option.mem_unique hcontent hdisk
    · intro hclean
      obtain ⟨hs, hp, rfl, -⟩ := hb hclean
      refine hs.after ha rfl fun j hj hlt => ?_
      have hother : temp j ≠ temp i := fun heq => absurd (hinj heq) (by omega)
      exact (put_of_ne (hp.final j hlt).symm).trans (delete_of_ne hother)
  · exact hcopy ha

theorem advance_copy (hlost : clean → a.lost = none) :
    Advances cfg sha256 clean temp v v' (.copy i final path)
      (v.transfer.copy v.disk i final path a) := by
  rintro h hq ⟨done, job, he, hb⟩ ha
  unfold copy at ha ⊢
  split at ha
  · exact .failed h ha rfl (by simp [Note.Plain])
  next content hcontent =>
  split_ifs at ha ⊢
  · refine .placing h hq he ha rfl rfl trivial (fun hclean => ?_)
      (fun hclean => (hb hclean).1.verified) rfl fun he' hm => ⟨done, job, he', hm, ?_⟩
    · obtain ⟨-, -, rfl, hdisk⟩ := hb hclean
      rw [hlost hclean]
      exact Option.mem_unique hcontent hdisk
    · intro hclean
      obtain ⟨hs, hp, hpath, -⟩ := hb hclean
      exact ⟨hs.after ha rfl fun j _ hj => put_of_ne (hp.final j hj).symm, hpath⟩
  all_goals exact .failed h ha rfl (by simp [Note.Plain])

theorem advance_remove (hinj : Function.Injective temp) :
    Advances cfg sha256 clean temp v v' (.remove i path) ⟨v.transfer,
      if ok then v.disk.delete path else v.disk, [.file (.delete path)], [.placed i]⟩ := by
  rintro h - ⟨done, job, he, hmoved, hb⟩ ha
  have hplain : ∀ n ∈ [Note.file (P := P) (.delete path)], n.Plain := by simp [Note.Plain]
  refine .one h ha (.refl _) hplain rfl ⟨done, job, ?_, ?_, fun hclean => ?_⟩
  · exact he.after ha rfl (jobs_of_plain hplain) (written_of_plain hplain)
  · exact hmoved.mono fun n hn => ha.notes ▸ mem_append_left _ hn
  · obtain ⟨hs, rfl⟩ := hb hclean
    refine hs.after ha rfl fun j hj _ => ?_
    have hother : temp j ≠ temp i := fun heq => absurd (hinj heq) (by omega)
    split_ifs
    · exact delete_of_ne hother
    · rfl

theorem Ending.placed (hq : Queue v) (he : Ending v done job i)
    (hfiles : v'.transfer.t.files = v.transfer.t.files.modify i fun f => { f with finalized := true })
    (hwq : v'.transfer.t.wq = v.transfer.t.wq) (hnotes : v'.notes = v.notes ++ notes)
    (hplain : ∀ n ∈ notes, n.Plain) : Ledger v' (done ++ [job]) [] where
  queue := by
    rw [hnotes, jobs_append, jobs_of_plain hplain, append_nil, append_nil, hwq, he.ledger.queue]
  writable job' hjob' hdata := by
    obtain hjob' | hjob' := mem_append.mp hjob'
    · exact he.ledger.writable job' hjob' hdata
    · rw [mem_singleton.mp hjob', he.isEnd] at hdata
      cases hdata
  written := by
    rw [hnotes, written_append, written_of_plain hplain, he.ledger.written, payload_append,
      payload_singleton, he.isEnd]
    rfl
  finalized j f' hf' hfin := by
    have hfidx := (hq.inHand he.ledger).fidx
    rw [he.fidx] at hfidx
    rw [ends_append, ends_singleton, he.isEnd, Bool.toNat_true]
    rw [hfiles, getElem?_modify] at hf'
    obtain ⟨f, hf, rfl⟩ := map_eq_some_iff.mp hf'
    split_ifs at hfin with hij
    · omega
    · have := he.ledger.finalized j f hf hfin
      omega

theorem placed_spec (i : ℕ) :
    ∃ t notes sec, x.placed disk i = ⟨{ x with t := t }, disk, notes, [sec]⟩ ∧
      t.files = x.t.files.modify i (fun f => { f with finalized := true }) ∧ t.wq = x.t.wq ∧
      (∀ n ∈ notes, n.Plain) ∧
      (sec = .drain ∨ sec = .finish true "" true ∧ t.files.all (·.finalized) = true) := by
  unfold placed
  simp only
  split_ifs with hall
  · exact ⟨_, _, _, rfl, rfl, rfl, by simp [Note.Plain], .inr ⟨rfl, hall⟩⟩
  · exact ⟨_, _, _, rfl, rfl, rfl, by simp [Note.Plain], .inl rfl⟩

theorem Sealed.between (hq : Queue v) (he : Ending v done job i)
    (hs : Sealed cfg sha256 temp v done job i) (hwriter : v'.transfer.w = v.transfer.w)
    (hlength : v'.transfer.t.files.length = v.transfer.t.files.length) (hdisk : v'.disk = v.disk) :
    Between temp v' (done ++ [job]) := by
  have hfidx := (hq.inHand he.ledger).fidx
  rw [he.fidx] at hfidx
  have hends : ends (done ++ [job]) = i + 1 := by
    rw [ends_append, ends_singleton, he.isEnd, hfidx]
    rfl
  have hall := hq.admitted
  rw [he.ledger.queue, append_assoc] at hall
  have hnil : dataOf (i + 1) (done ++ [job]) = [] := by
    rw [dataOf_append, dataOf_singleton, if_neg (by simp [he.isEnd]), append_nil]
    exact AllAdmitted.dataOf_eq_nil hall.left (by omega)
  rw [Between, hends, hwriter]
  refine .inl ⟨⟨hwriter ▸ hs.out, hwriter ▸ hs.outIdx, ?_⟩, hnil, hs.hashingFile⟩
  rw [Unused, hlength, hdisk]
  exact hs.unused

/-- The second critical section of `process_file_end`. -/
theorem advance_placed :
    Advances cfg sha256 clean temp v v' (.placed i) (v.transfer.placed v.disk i) := by
  rintro h hq ⟨done, job, he, hmoved, hb⟩ ha
  obtain ⟨t, notes, sec, hd, hfiles, hwq, hplain, hsec⟩ := placed_spec v.transfer v.disk i
  rw [hd] at ha ⊢
  have htransfer : v'.transfer.t = t := by rw [ha.transfer]
  rw [← htransfer] at hfiles hwq hsec
  have hnotes : ∀ n ∈ v.notes, n ∈ v'.notes := fun n hn => ha.notes ▸ mem_append_left _ hn
  have hfile (j : ℕ) (f' : IncomingFile) (hf' : v'.transfer.t.files[j]? = some f') :
      ∃ f : IncomingFile, v.transfer.t.files[j]? = some f ∧ f'.finalPath = f.finalPath ∧
        f'.tempPath = f.tempPath ∧ (f'.finalized = true → i = j ∨ f.finalized = true) := by
    rw [hfiles, getElem?_modify] at hf'
    obtain ⟨f, hf, rfl⟩ := map_eq_some_iff.mp hf'
    refine ⟨f, hf, ?_⟩
    split_ifs with hij <;> simp [hij]
  have hfinalized (j : ℕ) (f' : IncomingFile) (hf' : v'.transfer.t.files[j]? = some f')
      (hfin : f'.finalized = true) : Moved j v'.notes := by
    obtain ⟨f, hf, -, -, hor⟩ := hfile j f' hf'
    obtain rfl | hfin := hor hfin
    · exact hmoved.mono hnotes
    · exact (h.finalized j f hf hfin).mono hnotes
  refine ⟨fun j f' hf' => ?_, hfinalized, ?_, ?_, fun sec' hsec' => ?_, by simp⟩
  · obtain ⟨f, hf, hfinal, htemp, -⟩ := hfile j f' hf'
    exact ⟨f, hf, hfinal, htemp⟩
  · rw [ha.notes, written_append, written_of_plain hplain]
    exact h.bound
  · rw [ha.notes]
    refine h.justified.append fun before n after heq => ?_
    exact justified_of_quiet (fun n hn => quiet_of_plain (hplain n hn)) heq
  obtain rfl := mem_singleton.mp hsec'
  obtain rfl | ⟨rfl, hall⟩ := hsec
  · refine .inr ⟨done ++ [job], he.placed hq hfiles hwq ha.notes hplain, fun hclean => ?_⟩
    refine (hb hclean).between hq he (by rw [ha.transfer]) ?_ ha.disk
    rw [hfiles, length_modify]
  · intro _ j hj
    rw [List.all_eq_true] at hall
    exact hfinalized j _ (getElem?_eq_getElem hj) (hall _ (getElem_mem hj))

theorem finish_spec (success : Bool) (error : String) (back : Bool) :
    ∃ t notes next, x.finish disk success error back =
        ⟨{ x with t := t }, disk, .finishing success error :: notes, next⟩ ∧
      t.finished = true ∧ t.files = x.t.files ∧ (∀ n ∈ notes, n.Plain) ∧
      (next = resumeDrain back ∨ ∃ dest, next = [.unlist success dest back]) := by
  unfold finish
  split_ifs with hfin
  · exact ⟨_, _, _, rfl, hfin, rfl, by simp, .inl rfl⟩
  · exact ⟨_, _, _, rfl, rfl, rfl, by simp [Note.Plain], .inr ⟨_, rfl⟩⟩

/-- The effects of `finish_incoming` are right. -/
theorem finishing_justified (hw : success = true → AllMoved v) (hplain : ∀ n ∈ notes, n.Plain)
    {before after : List (Note P)} {n : Note P}
    (heq : .finishing success error :: notes = before ++ n :: after) :
    n.Justified cfg sha256 clean v.transfer.t.sizes (v.notes ++ before) := by
  cases before with
  | nil =>
    obtain rfl := (List.cons.inj heq).1
    intro hsuccess j hj
    rw [Incoming.sizes, length_map] at hj
    exact (hw hsuccess j hj).mono fun n hn => mem_append_left _ hn
  | cons _ before =>
    have hnotes := (List.cons.inj heq).2
    have hn : n ∈ notes := by simp [hnotes]
    have := quiet_of_plain (hplain n hn)
    cases n <;> trivial

theorem advance_finish {back : Bool} :
    Advances cfg sha256 clean temp v v' (.finish success error back)
      (v.transfer.finish v.disk success error back) := by
  intro h _ hw ha
  obtain ⟨t, notes, next, hd, hfin, hfiles, hplain, hnext⟩ :=
    finish_spec v.transfer v.disk success error back
  rw [hd] at ha ⊢
  have htransfer : v'.transfer.t = t := by rw [ha.transfer]
  rw [← htransfer] at hfin hfiles
  have hwritten : written (Note.finishing success error :: notes) = 0 := by
    simpa [written, Note.written] using written_of_plain hplain
  refine .of_files h (hfiles ▸ .refl _) ha.notes (by rw [hwritten]; exact h.bound)
    (fun before n after heq => finishing_justified hw hplain heq) (fun sec hsec => ?_)
    fun _ => .inl hfin
  obtain rfl | ⟨dest, rfl⟩ := hnext
  · cases back with
    | false => cases hsec
    | true =>
      obtain rfl := mem_singleton.mp hsec
      exact .inl hfin
  · obtain rfl := mem_singleton.mp hsec
    exact hfin

theorem advance_report {back : Bool} {dest : Bytes} {progress : Progress P} :
    Advances cfg sha256 clean temp v v' (.report success dest back) ⟨v.transfer, v.disk,
      [.progressed progress, .completed v.transfer.t.id success dest], resumeDrain back⟩ := by
  intro h _ hw ha
  have hfin : v'.transfer.t.finished = true := by
    rwa [ha.transfer]
  refine .plain h (ha.filesKept (.refl _)) ha.notes (by simp [Note.Plain])
    (fun sec hsec => ?_) fun _ => .inl hfin
  cases back with
  | false => cases hsec
  | true =>
    obtain rfl := mem_singleton.mp hsec
    exact .inl hfin

end

end Librats.FileTransfer
