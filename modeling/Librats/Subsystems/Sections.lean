import Librats.Subsystems.Receiving

/-!
# What a section leaves alone

Sections on an incoming transfer, one lemma a kind: what they come to, where threads go on, what
none changes of a transfer, and that the files change only at the paths of the operations that are
seen.
-/

namespace Librats.FileTransfer

open List Function FileOp

variable {P : Type}

/-- The paths of an operation. -/
def FileOp.paths : FileOp → List Bytes
  | .makeDirectories path | .makeParents path | .openWrite path | .write path _ _ | .close path
  | .delete path | .create path | .changed path => [path]
  | .rename source target | .copy source target _ => [source, target]

def Note.paths : Note P → List Bytes
  | .file op => op.paths
  | _ => []

/-- A thread is there in the course of something, not with a message or call. -/
def Section.Inner : Section → Prop
  | .chunk _ _ _ | .fileEnd _ _ | .peerCancel | .peerPause | .peerResume | .accept _ | .cancel
  | .pause | .resume | .expire | .withdraw | .refuse => False
  | _ => True

/-- What a transfer keeps from the offer to the end. -/
structure Incoming.Same (t t' : Incoming P) : Prop where
  peer : t'.peer = t.peer
  id : t'.id = t.id
  isDirectory : t'.isDirectory = t.isDirectory
  manifest : t'.files.map (fun f => (f.relativePath, f.size)) =
    t.files.map fun f => (f.relativePath, f.size)

theorem Incoming.Same.refl (t : Incoming P) : t.Same t := ⟨rfl, rfl, rfl, rfl⟩

theorem map_modify_of_eq {α β : Type} {f : α → β} {g : α → α} (h : ∀ a, f (g a) = f a) (l : List α)
    (i : ℕ) : (l.modify i g).map f = l.map f := by
  induction l generalizing i with
  | nil => cases i <;> rfl
  | cons a l ih =>
    cases i with
    | zero => simp [h]
    | succ i => simp [ih]

theorem map_set_of_eq {α β : Type} {f : α → β} {l : List α} {i : ℕ} {a b : α} (ha : l[i]? = some a)
    (h : f b = f a) : (l.set i b).map f = l.map f := by
  obtain ⟨hlt, rfl⟩ := List.getElem?_eq_some_iff.mp ha
  exact ext_getElem? fun j => by grind

/-- The job a message queues. -/
def Section.job : Section → Option WriteJob
  | .chunk fidx offset bytes => some (dataJob fidx offset bytes)
  | .fileEnd fidx sha => some (endJob fidx sha)
  | _ => none

/-- What a queued job leaves of a transfer: of the files, only `enqueued` changes. -/
structure Incoming.Queued (t : Incoming P) (job : WriteJob) (t' : Incoming P) : Prop where
  same : t.Same t'
  files : ∀ {β : Type} (g : IncomingFile → β), (∀ f n, g { f with enqueued := n } = g f) →
    t'.files.map g = t.files.map g
  wq : t'.wq = t.wq ++ [job]
  scheduled : t'.scheduled = true
  finished : t'.finished = t.finished

namespace Transfer

variable (cfg : Config) (sha256 : Bytes → Bytes) (hex : P → Bytes) (x : Transfer P)
  {f : IncomingFile}

/-- What a chunk leaves of a transfer it is queued for. -/
def withChunk (f : IncomingFile) (job : WriteJob) (now : ℕ) : Transfer P :=
  { x with t := { x.t with
      files := x.t.files.set job.fidx { f with enqueued := (f.enqueued + job.data.length) % 2 ^ 64 }
      queuedBytes := (x.t.queuedBytes + job.data.length) % 2 ^ 64
      lastActivity := now, wq := x.t.wq ++ [job], scheduled := true } }

/-- What a file end leaves of a transfer it is queued for. -/
def withFileEnd (job : WriteJob) : Transfer P :=
  { x with t := { x.t with
      wq := x.t.wq ++ [job], recvFile := x.t.recvFile + 1, scheduled := true } }

/-- A transfer that fails while a message is handled. -/
def refusal (disk : Disk) (error : String) : Done P :=
  ⟨x, disk, [.sent x.t.peer (completeMessage x.t.id false)], [.finish false error false]⟩

variable (disk : Disk) (a : Answer)

theorem exec_chunk (fidx offset : ℕ) (data : Bytes) :
    x.exec cfg sha256 hex disk a (.chunk fidx offset data) = ⟨x, disk, [], []⟩ ∨
    x.t.finished = false ∧ (x.t.status = .active ∨ x.t.status = .paused) ∧
      ((∃ e, x.exec cfg sha256 hex disk a (.chunk fidx offset data) = x.refusal disk e) ∨
      ∃ f, x.t.files[fidx]? = some f ∧ fidx = x.t.recvFile ∧ offset = f.enqueued ∧
        (offset + data.length) % 2 ^ 64 ≤ f.size ∧
        x.exec cfg sha256 hex disk a (.chunk fidx offset data) =
          ⟨x.withChunk f (dataJob fidx offset data) a.now, disk,
            [.queued (dataJob fidx offset data)], x.waking⟩) := by
  simp only [exec]
  split_ifs with hfin hst
  · exact .inl rfl
  · exact .inl rfl
  refine .inr ⟨by simpa using hfin, by simpa [or_iff_not_imp_left] using hst, ?_⟩
  unfold State.queueChunk
  split
  · exact .inl ⟨_, rfl⟩
  · rename_i f hf
    split_ifs with h₁ h₂ h₃
    · exact .inl ⟨_, rfl⟩
    · exact .inl ⟨_, rfl⟩
    · exact .inl ⟨_, rfl⟩
    · exact .inr ⟨f, hf, not_not.mp h₁, not_not.mp h₂, not_lt.mp h₃, rfl⟩

theorem exec_fileEnd (fidx : ℕ) (sha : Bytes) :
    x.exec cfg sha256 hex disk a (.fileEnd fidx sha) = ⟨x, disk, [], []⟩ ∨
    x.t.finished = false ∧ fidx < x.t.files.length ∧
      ((∃ e, x.exec cfg sha256 hex disk a (.fileEnd fidx sha) = x.refusal disk e) ∨
      ∃ f, x.t.files[fidx]? = some f ∧ fidx = x.t.recvFile ∧ f.enqueued = f.size ∧
        x.exec cfg sha256 hex disk a (.fileEnd fidx sha) =
          ⟨x.withFileEnd (endJob fidx sha), disk, [.queued (endJob fidx sha)], x.waking⟩) := by
  simp only [exec]
  split_ifs with hfin
  · exact .inl rfl
  rw [Bool.or_eq_true, not_or, decide_eq_true_eq, not_le] at hfin
  refine .inr ⟨by simpa using hfin.1, hfin.2, ?_⟩
  unfold State.queueFileEnd
  split_ifs with h₁
  · exact .inl ⟨_, rfl⟩
  · split
    · exact .inl ⟨_, rfl⟩
    · rename_i f hf
      split_ifs with h₂
      · exact .inl ⟨_, rfl⟩
      · exact .inr ⟨f, hf, not_not.mp h₁, not_not.mp h₂, rfl⟩

theorem withChunk_same {x : Transfer P} {job : WriteJob} {now : ℕ}
    (hf : x.t.files[job.fidx]? = some f) : x.t.Same (x.withChunk f job now).t := by
  exact ⟨rfl, rfl, rfl, map_set_of_eq hf rfl⟩

variable (sec : Section)

/-- A message with a job is ignored, fails the transfer, or queues the job. -/
theorem exec_queues : ∀ job, sec.job = some job →
    x.exec cfg sha256 hex disk a sec = ⟨x, disk, [], []⟩ ∨
      (∃ e, x.exec cfg sha256 hex disk a sec = x.refusal disk e) ∨ ∃ t, x.t.Queued job t ∧
        x.exec cfg sha256 hex disk a sec = ⟨{ x with t := t }, disk, [.queued job], x.waking⟩ := by
  intro job h
  cases sec with
  | chunk fidx offset data =>
    obtain rfl := Option.some.inj h
    obtain hx | ⟨-, -, hx | ⟨f, hf, -, -, -, hx⟩⟩ :=
      x.exec_chunk cfg sha256 hex disk a fidx offset data
    · exact .inl hx
    · exact .inr (.inl hx)
    · exact .inr (.inr ⟨_, ⟨withChunk_same hf, fun g hg => map_set_of_eq hf (hg _ _), rfl, rfl, rfl⟩,
        hx⟩)
  | fileEnd fidx sha =>
    obtain rfl := Option.some.inj h
    obtain hx | ⟨-, -, hx | ⟨f, -, -, -, hx⟩⟩ := x.exec_fileEnd cfg sha256 hex disk a fidx sha
    · exact .inl hx
    · exact .inr (.inl hx)
    · exact .inr (.inr ⟨(x.withFileEnd (endJob fidx sha)).t,
        ⟨⟨rfl, rfl, rfl, rfl⟩, fun _ _ => rfl, rfl, rfl, rfl⟩, hx⟩)
  | _ => cases h

theorem getElem?_placedIn {x : Transfer P} {i : ℕ} (hf : x.t.files[i]? = some f)
    (dest : Bytes) : (x.placedIn cfg hex dest)[i]? = some { f with
      finalPath := cfg.resolve (if x.t.isDirectory then combinePaths dest f.relativePath else dest)
      tempPath := tempPath cfg (hex x.t.peer) x.t.id i } := by
  simp [placedIn, hf]

theorem exec_next : ∀ sec' ∈ (x.exec cfg sha256 hex disk a sec).next, sec'.Inner := by
  have hwaking : ∀ sec' ∈ x.waking, sec'.Inner := by
    unfold waking
    split_ifs <;> simp [Section.Inner]
  have hqueues := x.exec_queues cfg sha256 hex disk a sec
  cases sec with
  | chunk | fileEnd =>
    obtain h | ⟨e, h⟩ | ⟨t, -, h⟩ := hqueues _ rfl
    · simp [h]
    · simp [h, refusal, Section.Inner]
    · rwa [h]
  | _ =>
    simp only [exec, accept, respond, finish, drainWrites, processData, openTemp, write, record,
      processFileEnd, closeTemp, clear, create, discard, rename, copy, placed, failed, resumeDrain]
    repeat' split
    all_goals simp [Section.Inner]

theorem exec_same : x.t.Same (x.exec cfg sha256 hex disk a sec).transfer.t := by
  have of_modify (t : Incoming P) (i : ℕ) (g : IncomingFile → IncomingFile)
      (hp : t.peer = x.t.peer) (hi : t.id = x.t.id) (hd : t.isDirectory = x.t.isDirectory)
      (hf : t.files = x.t.files.modify i g)
      (hg : ∀ f, ((g f).relativePath, (g f).size) = (f.relativePath, f.size)) : x.t.Same t :=
    ⟨hp, hi, hd, by rw [hf, map_modify_of_eq hg]⟩
  have hqueues := x.exec_queues cfg sha256 hex disk a sec
  cases sec with
  | chunk | fileEnd =>
    obtain h | ⟨e, h⟩ | ⟨t, hq, h⟩ := hqueues _ rfl
    · rw [h]
      exact .refl _
    · rw [h]
      exact .refl _
    · rw [h]
      exact hq.same
  | accept dest =>
    simp only [exec, accept]
    split_ifs
    · exact ⟨rfl, rfl, rfl, ext_getElem? fun i => by simp [placedIn, comp_def]⟩
    · exact .refl _
  | openTemp job path =>
    simp only [exec, openTemp]
    split_ifs
    · exact of_modify _ job.fidx _ rfl rfl rfl rfl fun f => rfl
    · exact .refl _
  | record job => exact of_modify _ job.fidx _ rfl rfl rfl rfl fun f => rfl
  | placed i =>
    simp only [exec, placed]
    split_ifs <;> exact of_modify _ i _ rfl rfl rfl rfl fun f => rfl
  | _ =>
    simp only [exec, respond, finish, drainWrites, processData, write, processFileEnd,
      closeTemp, clear, create, discard, rename, copy, failed]
    repeat' split
    all_goals exact ⟨rfl, rfl, rfl, rfl⟩

end Transfer

namespace Disk

theorem put_of_ne {d : Disk} {path path' content : Bytes} (h : path' ≠ path) :
    d.put path content path' = d path' := update_of_ne h _ _

theorem delete_of_ne {d : Disk} {path path' : Bytes} (h : path' ≠ path) :
    d.delete path path' = d path' := update_of_ne h _ _

theorem delete_self (d : Disk) (path : Bytes) : d.delete path path = none :=
  update_self _ _ _

end Disk

open Disk

/-- The notes name no such path. -/
def Unnamed (path : Bytes) (notes : List (Note P)) : Prop := ∀ n ∈ notes, path ∉ n.paths

variable {path : Bytes}

theorem Unnamed.append {l l' : List (Note P)} :
    Unnamed path (l ++ l') ↔ Unnamed path l ∧ Unnamed path l' := forall_mem_append

theorem Unnamed.file {op : FileOp} {l : List (Note P)} :
    Unnamed path (.file op :: l) ↔ path ∉ op.paths ∧ Unnamed path l := forall_mem_cons

theorem Writer.flush_of_unnamed {w : Writer} (h : Unnamed path (w.closing : List (Note P)))
    (disk : Disk) (lost : Option Bytes) : w.flush disk lost path = disk path := by
  unfold flush
  cases hout : w.out with
  | none => rfl
  | some stream =>
    refine put_of_ne ?_
    simpa [Writer.closing, hout, Unnamed, Note.paths, paths] using h

namespace Transfer

variable (cfg : Config) (sha256 : Bytes → Bytes) (hex : P → Bytes)

theorem exec_disk (x : Transfer P) (disk : Disk) (a : Answer) (sec : Section) {path : Bytes}
    (h : Unnamed path (x.exec cfg sha256 hex disk a sec).notes) :
    (x.exec cfg sha256 hex disk a sec).disk path = disk path := by
  have hqueues := x.exec_queues cfg sha256 hex disk a sec
  cases sec with
  | chunk | fileEnd =>
    obtain h | ⟨e, h⟩ | ⟨t, -, h⟩ := hqueues _ rfl
    all_goals exact congrFun (congrArg Done.disk h) path
  | openTemp job temp =>
    simp only [exec, openTemp] at h ⊢
    split_ifs at h ⊢
    · rw [Unnamed.append, Unnamed.file] at h
      exact (put_of_ne (by simpa [paths] using h.2.1)).trans
        (Writer.flush_of_unnamed h.1 _ _)
    · exact Writer.flush_of_unnamed (Unnamed.append.mp h).1 _ _
  | close i final temp size =>
    simp only [exec, closeTemp] at h ⊢
    split_ifs at h ⊢
    · exact Writer.flush_of_unnamed h _ _
    · rfl
  | clear i final temp size =>
    simp only [exec, clear] at h ⊢
    by_cases hsome : (disk final).isSome = true
    · simp only [if_pos hsome, Unnamed.file, paths, mem_singleton] at h ⊢
      split_ifs
      · exact delete_of_ne h.2.1
      · rfl
    · simp [if_neg hsome]
  | create i final temp =>
    simp only [exec, create] at h ⊢
    split_ifs at h ⊢
    · exact put_of_ne (by simpa [Unnamed, Note.paths, paths] using h)
    · rfl
  | discard i temp created =>
    have hd : (if a.ok then disk.delete temp else disk) path = disk path := by
      split_ifs
      · by_cases hp : path = temp
        · -- a file that does not exist is not deleted
          subst hp
          cases hd : disk path with
          | none => exact delete_self _ _
          | some content =>
            have hin : Note.file (.delete path) ∈
                (x.exec cfg sha256 hex disk a (.discard i path created)).notes := by
              cases created <;> simp [exec, discard, failed, hd]
            exact absurd (.head _) (h _ hin)
        · exact delete_of_ne hp
      · rfl
    cases created <;> exact hd
  | rename i final temp =>
    simp only [exec, rename] at h ⊢
    split at h
    · rfl
    · split_ifs at h ⊢
      · simp only [Unnamed.file, paths, mem_cons, not_or] at h
        exact (put_of_ne h.1.2.1).trans (delete_of_ne h.1.1)
      · rfl
  | copy i final temp =>
    simp only [exec, copy, failed] at h ⊢
    split at h
    · rfl
    · split_ifs at h ⊢
      · simp only [Unnamed.file, paths, mem_cons, not_or] at h
        exact put_of_ne h.1.2.1
      · simp only [cons_append, Unnamed.file, paths, mem_cons, not_or] at h
        exact delete_of_ne h.1.2.1
      · rfl
  | remove i temp =>
    simp only [exec] at h ⊢
    split_ifs
    · exact delete_of_ne (by simpa [Unnamed, Note.paths, paths] using h)
    · rfl
  | _ =>
    simp only [exec, accept, respond, finish, drainWrites, processData, write, record,
      processFileEnd, placed, failed]
    repeat' split
    all_goals rfl

theorem destroy_disk (x : Transfer P) (disk : Disk) (ok : Bool) {path : Bytes}
    (h : Unnamed path (x.destroy disk ok).notes) : (x.destroy disk ok).disk path = disk path := by
  obtain ⟨hclose, hleft⟩ := Unnamed.append.mp h
  have hdel (l : List Bytes) (hl : path ∉ l) (d : Disk) : l.foldl delete d path = d path := by
    induction l generalizing d with
    | nil => rfl
    | cons p l ih =>
      rw [mem_cons, not_or] at hl
      exact (ih hl.2 _).trans (delete_of_ne hl.1)
  simp only [destroy]
  split_ifs
  · refine (hdel _ (fun hmem => ?_) _).trans (Writer.flush_of_unnamed hclose _ _)
    exact hleft _ (mem_map_of_mem hmem) (.head _)
  · exact Writer.flush_of_unnamed hclose _ _

end Transfer

end Librats.FileTransfer
