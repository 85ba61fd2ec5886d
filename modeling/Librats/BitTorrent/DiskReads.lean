import Librats.BitTorrent.DiskInvariant

/-!
# Reads see earlier writes

A read takes its bytes from the disk first, and then looks for parked blocks; a block may be removed
from the store buffer between these two (`stale_reads`). `Fresh` says that a read has the bytes of
the last write made before it.
-/

namespace Librats.BitTorrent.ThreadedDiskIo

open Interleaving List

/-! ## Runs -/

section

variable {P H : Type} {fs : FileStorage} {filePath : ℕ → P} {sha1 : Bytes → H}
  {workers : ℕ} {B : ℕ → ℕ → ℕ → Prop} {c c' : Snapshot P H} {m : Move Bool Call}

/-- A block is written only while it is not parked, the files can be written, and a block leaves the
store buffer only when no worker has read bytes of it without having looked there since. -/
def Careful (B : ℕ → ℕ → ℕ → Prop) (c : Snapshot P H) : Move Bool Call → Prop
  | .call (.write w) => B w.piece w.offset w.data.length ∧ c.shared.store.lookup w.key = none
  | .call _ => True
  | .exec k ok => ∀ th ∈ c.threads[k]?, th.Careful c.threads ok

variable {th : Point} {trace : List (Effect H)}

theorem Point.Careful.mono {threads rest : List Point} {ok : Bool} (h : th.Careful threads ok)
    (hsub : rest ⊆ threads) : th.Careful rest ok := by
  cases th with
  | drop w written => exact fun th' hth' => h th' (hsub hth')
  | push w pos slices ensured => exact h
  | _ => trivial

theorem Consistent.called (hB : Blocks fs B) (h : Consistent fs filePath B c.shared c.threads c.trace)
    {x : Call} (hcareful : Careful B c (.call x)) {o : Done P H}
    (ho : call fs workers c.shared c.threads x = some o) :
    Consistent fs filePath B o.shared (c.threads ++ o.next) (c.trace ++ o.effects) := by
  have hasked {r : Request} (hr : r.ticket = c.shared.tickets)
      (ho : ThreadedDiskIo.ask c.shared r = some o) :
      Consistent fs filePath B o.shared (c.threads ++ o.next) (c.trace ++ o.effects) := by
    rw [ThreadedDiskIo.ask] at ho
    split_ifs at ho
    cases ho
    rw [append_nil]
    exact h.ask hr
  cases x with
  | read piece offset length | hash piece => exact hasked rfl ho
  | write w =>
    rw [call] at ho
    split_ifs at ho with hidle
    cases ho
    rw [append_nil]
    exact h.write (by simpa using hidle) hcareful.1 hcareful.2
  | enqueue =>
    obtain ⟨w, hw, rfl⟩ := Option.map_eq_some_iff.mp ho
    rw [append_nil]
    exact h.enqueue hw
  | pop =>
    rw [call] at ho
    split at ho
    · cases ho
    · next job jobs hjobs =>
      split_ifs at ho
      cases ho
      exact h.pop hB hjobs
  | stop =>
    cases ho
    rw [append_nil, append_nil]
    exact ⟨h.blocks, h.parked, h.safe, h.pending, h.nodup, h.tickets, h.asked, h.points⟩

/-- An answer has what was written before. -/
def AnswerOk (sha1 : Bytes → H) (before : List (Effect H)) (e : Effect H) : Prop :=
  (∀ r out, e = .returned r (some out) → out.length = r.length ∧ Fresh before r out) ∧
    ∀ r digest, e = .hashed r (some digest) → ∃ out, digest = sha1 out ∧
      out.length = r.length ∧ Fresh before r out

theorem answerOk_call {s : State P} {threads : List Point} {x : Call}
    {o : Done P H} (ho : call fs workers s threads x = some o)
    (h : Chronicle (AnswerOk sha1) trace) : Chronicle (AnswerOk sha1) (trace ++ o.effects) := by
  have hasked {r : Request} (ho : ask s r = some o) :
      Chronicle (AnswerOk sha1) (trace ++ o.effects) := by
    rw [ask] at ho
    split_ifs at ho
    cases ho
    exact h.concat ⟨nofun, nofun⟩
  have hnil : Chronicle (AnswerOk sha1) (trace ++ []) := (append_nil trace).symm ▸ h
  cases x with
  | read piece offset length | hash piece => exact hasked ho
  | write w =>
    rw [call] at ho
    split_ifs at ho
    cases ho
    exact h.concat ⟨nofun, nofun⟩
  | enqueue =>
    obtain ⟨w, -, rfl⟩ := Option.map_eq_some_iff.mp ho
    exact hnil
  | pop =>
    rw [call] at ho
    split at ho
    · cases ho
    · split_ifs at ho
      cases ho
      exact hnil
  | stop =>
    cases ho
    exact hnil

variable [DecidableEq P]

theorem effects_exec (s : State P) (ok : Bool) (hth : ∀ r out, th ≠ .answer r out)
    (hreport : ∀ w written, th ≠ .report w written) :
    (exec fs filePath sha1 s th ok).effects = [] := by
  cases th with
  | pull r got slices =>
    cases slices with
    | nil => rfl
    | cons slice slices =>
      simp only [exec]
      split <;> rfl
  | answer r out => exact absurd rfl (hth r out)
  | push w pos slices ensured =>
    cases slices with
    | nil => rfl
    | cons slice slices => cases ensured <;> cases ok <;> rfl
  | drop w written => rfl
  | report w written => exact absurd rfl (hreport w written)

theorem answerOk_exec {s : State P} {ok : Bool}
    (hth : PointOk fs filePath s.disk s.store trace th) (h : Chronicle (AnswerOk sha1) trace) :
    Chronicle (AnswerOk sha1) (trace ++ (exec fs filePath sha1 s th ok).effects) := by
  by_cases hanswer : ∃ r out, th = .answer r out
  · obtain ⟨r, out, rfl⟩ := hanswer
    refine h.concat ⟨fun r' out' heq => ?_, fun r' digest heq => ?_⟩
    · simp only [answerOf] at heq
      split_ifs at heq
      obtain ⟨rfl, rfl⟩ := Effect.returned.inj heq
      exact hth out' rfl
    · simp only [answerOf] at heq
      split_ifs at heq
      obtain ⟨rfl, hdigest⟩ := Effect.hashed.inj heq
      obtain ⟨bytes, rfl, rfl⟩ := Option.map_eq_some_iff.mp hdigest
      exact ⟨bytes, rfl, hth bytes rfl⟩
  · push Not at hanswer
    by_cases hreport : ∃ w written, th = .report w written
    · obtain ⟨w, written, rfl⟩ := hreport
      exact h.concat ⟨(by simp), (by simp)⟩
    · push Not at hreport
      rwa [effects_exec s ok hanswer hreport, append_nil]

/-- What is so at any point of a run. -/
structure Orderly (fs : FileStorage) (filePath : ℕ → P) (B : ℕ → ℕ → ℕ → Prop) (sha1 : Bytes → H)
    (c : Snapshot P H) : Prop where
  consistent : Consistent fs filePath B c.shared c.threads c.trace
  answers : Chronicle (AnswerOk sha1) c.trace

theorem Orderly.step (hpaths : DistinctPaths fs filePath) (hB : Blocks fs B)
    (h : Orderly fs filePath B sha1 c) (hcareful : Careful B c m)
    (hstep : (program fs filePath sha1 workers).step c m = some c') :
    Orderly fs filePath B sha1 c' := by
  obtain ⟨k, th, ok, rest, o, rfl, hth, hperm, ho, rfl⟩ | ⟨x, o, rfl, ho, rfl⟩ :=
    Program.step_cases hstep
  · cases ho
    have hconsistent := h.consistent.perm hperm
    have hsub : rest ⊆ c.threads := fun th' hth' => hperm.mem_iff.mpr (.tail _ hth')
    exact ⟨hconsistent.ran hpaths hB sha1 ((hcareful th hth).mono hsub),
      answerOk_exec (hconsistent.points th (.head _)) h.answers⟩
  · exact ⟨h.consistent.called hB hcareful ho, answerOk_call ho h.answers⟩

end

/-! ## Results -/

/-- **Reads and hashes see earlier writes**, if a block is written only while it is not parked and
does not leave the store buffer between a reader's two looks at it. -/
theorem reads_see_writes {P H : Type} [DecidableEq P] (fs : FileStorage) (filePath : ℕ → P)
    (hpaths : DistinctPaths fs filePath) (sha1 : Bytes → H) (workers : ℕ) (B : ℕ → ℕ → ℕ → Prop)
    (hB : Blocks fs B) (disk : Disk P) (c : Snapshot P H)
    (h : Reach (program fs filePath sha1 workers) (Careful B) (start disk) c) :
    (∀ before after r out, c.trace = before ++ .returned r (some out) :: after →
      out.length = r.length ∧ Fresh before r out) ∧
    ∀ before after r digest, c.trace = before ++ .hashed r (some digest) :: after →
      ∃ out, digest = sha1 out ∧ out.length = r.length ∧ Fresh before r out := by
  have horderly := h.invariant (I := Orderly fs filePath B sha1) ⟨consistent_start disk, Chronicle.nil⟩
    fun c m c' hc hcareful hstep => hc.step hpaths hB hcareful hstep
  exact ⟨fun before after r out htrace => (horderly.answers before _ after htrace).1 r out rfl,
    fun before after r digest htrace => (horderly.answers before _ after htrace).2 r digest rfl⟩

instance (w : Write) (th : Point) : Decidable (th.HasRead w) := by
  cases th <;> unfold Point.HasRead <;> infer_instance

instance (th : Point) (threads : List Point) (ok : Bool) : Decidable (th.Careful threads ok) := by
  cases th <;> unfold Point.Careful <;> infer_instance

instance {P H : Type} (B : ℕ → ℕ → ℕ → Prop) [∀ p o n, Decidable (B p o n)]
    (c : Snapshot P H) (m : Move Bool Call) : Decidable (Careful B c m) := by
  cases m with
  | exec k ok => unfold Careful; infer_instance
  | call x => cases x <;> unfold Careful <;> infer_instance

/-- A torrent with one file of four bytes, which is one piece. -/
def tiny : FileStorage := ⟨4, [⟨[97], 4, 0⟩], rfl, trivial⟩

/-- The two halves of the piece. -/
def Half (p o n : ℕ) : Prop := p = 0 ∧ (o = 0 ∨ o = 2) ∧ n = 2

instance (p o n : ℕ) : Decidable (Half p o n) := by unfold Half; infer_instance

theorem blocks_half : Blocks tiny Half := by
  refine ⟨?_, ?_, ?_, ?_⟩
  · rintro p o n ⟨-, ho, rfl⟩
    show o + 2 ≤ 4
    omega
  · rintro p o n ⟨rfl, ho, rfl⟩
    show 0 * 4 + o + 2 ≤ 4
    omega
  · rintro p o n ⟨-, -, rfl⟩
    decide
  · rintro p o n o' n' ⟨-, ho, rfl⟩ ⟨-, ho', rfl⟩ hlt hlt'
    omega

/-- A half is written while the piece is read. -/
theorem reads_see_writes_half : ∃ c : Snapshot ℕ Bytes,
    Reach (program tiny id id 2) (Careful Half) (start fun _ => none) c ∧
    ∃ before after, c.trace = before ++ .returned ⟨0, 0, 0, 4, false⟩ (some [1, 2, 0, 0]) :: after ∧
      Fresh before ⟨0, 0, 0, 4, false⟩ [1, 2, 0, 0] := by
  obtain ⟨c, hreach, htrace⟩ : ∃ c : Snapshot ℕ Bytes,
      Reach (program tiny id id 2) (Careful Half) (start fun _ => none) c ∧
      c.trace = [.wrote ⟨0, 0, [1, 2]⟩, .asked ⟨0, 0, 0, 4, false⟩] ++
        .returned ⟨0, 0, 0, 4, false⟩ (some [1, 2, 0, 0]) :: [] :=
    Reach.exists_of_moves [.call (.write ⟨0, 0, [1, 2]⟩), .call .enqueue, .call (.read 0 0 4),
      .call .pop, .call .pop, .exec 0 true, .exec 1 true, .exec 1 true, .exec 1 true, .exec 0 true,
      .exec 1 true, .exec 1 true] (by decide +kernel)
  have hfresh := (reads_see_writes tiny id (fun _ _ _ _ h => h) id 2 Half blocks_half _ c hreach).1
  exact ⟨c, hreach, _, _, htrace, (hfresh _ _ _ _ htrace).2⟩

/-- Only blocks are written, and the accesses to files succeed. -/
def Succeeding (B : ℕ → ℕ → ℕ → Prop) : Move Bool Call → Prop
  | .call (.write w) => B w.piece w.offset w.data.length
  | .call _ => True
  | .exec _ ok => ok = true

instance (B : ℕ → ℕ → ℕ → Prop) [∀ p o n, Decidable (B p o n)] (m : Move Bool Call) :
    Decidable (Succeeding B m) := by
  cases m with
  | exec k ok => unfold Succeeding; infer_instance
  | call x => cases x <;> unfold Succeeding <;> infer_instance

theorem not_fresh_of_byte {r : Request} {w : Write} {before : List (Effect Bytes)} {out : Bytes}
    (hbefore : before = before.take (before.length - 1) ++ [.asked r])
    (hlast : lastWrite w.key (before.take (before.length - 1)) = some w.data)
    (hkey : r.piece = w.piece ∧ r.offset = w.offset) (hlength : 0 < r.length)
    {v : UInt8} (hv : w.data[0]? = some v) (hout : out[0]? ≠ some v) : ¬Fresh before r out := by
  intro hfresh
  have hsettled : Settled before r (r.piece, w.offset) w.data := by
    refine ⟨_, [], hbefore, rfl, ?_⟩
    rwa [hkey.1]
  exact hout (hfresh w.offset w.data hsettled 0 0 v hlength (by rw [hkey.2]) hv)

/-- **Reads can be stale**: a worker reads old bytes from the disk, and the block is written and
leaves the store buffer before it looks there; or the end of a block's first write removes the bytes
of its second. -/
theorem stale_reads : (∃ c : Snapshot ℕ Bytes,
      Reach (program tiny id id 2) (fun _ m => Succeeding Half m) (start fun _ => some [9, 9, 9, 9]) c ∧
      c.trace = [.wrote ⟨0, 0, [1, 2]⟩, .asked ⟨0, 0, 0, 4, false⟩] ++
        .returned ⟨0, 0, 0, 4, false⟩ (some [9, 9, 9, 9]) :: [] ∧
      ¬Fresh ([.wrote ⟨0, 0, [1, 2]⟩, .asked ⟨0, 0, 0, 4, false⟩] : List (Effect Bytes))
        ⟨0, 0, 0, 4, false⟩ [9, 9, 9, 9]) ∧ ∃ c : Snapshot ℕ Bytes,
      Reach (program tiny id id 2) (fun _ m => Succeeding Half m) (start fun _ => some [9, 9, 9, 9]) c ∧
      c.trace = [.wrote ⟨0, 0, [1, 2]⟩, .wrote ⟨0, 0, [3, 4]⟩, .written ⟨0, 0, [1, 2]⟩ true,
        .asked ⟨0, 0, 0, 4, false⟩] ++ .returned ⟨0, 0, 0, 4, false⟩ (some [1, 2, 9, 9]) :: [] ∧
      ¬Fresh ([.wrote ⟨0, 0, [1, 2]⟩, .wrote ⟨0, 0, [3, 4]⟩, .written ⟨0, 0, [1, 2]⟩ true,
        .asked ⟨0, 0, 0, 4, false⟩] : List (Effect Bytes)) ⟨0, 0, 0, 4, false⟩ [1, 2, 9, 9] := by
  constructor
  · refine (Reach.exists_of_moves [.call (.write ⟨0, 0, [1, 2]⟩), .call .enqueue, .call (.read 0 0 4),
      .call .pop, .call .pop, .exec 1 true, .exec 0 true, .exec 1 true, .exec 1 true, .exec 1 true,
      .exec 0 true, .exec 1 true] (by decide +kernel)).imp fun c hc => ⟨hc.1, hc.2, ?_⟩
    exact not_fresh_of_byte (w := ⟨0, 0, [1, 2]⟩) rfl rfl ⟨rfl, rfl⟩ (by decide) rfl (by decide)
  · refine (Reach.exists_of_moves [.call (.write ⟨0, 0, [1, 2]⟩), .call .enqueue,
      .call (.write ⟨0, 0, [3, 4]⟩), .call .enqueue, .call .pop, .call .pop, .exec 0 true,
      .exec 1 true, .exec 1 true, .exec 1 true, .exec 1 true, .call (.read 0 0 4), .call .pop,
      .exec 1 true, .exec 1 true, .exec 1 true] (by decide +kernel)).imp fun c hc =>
        ⟨hc.1, hc.2, ?_⟩
    exact not_fresh_of_byte (w := ⟨0, 0, [3, 4]⟩) rfl rfl ⟨rfl, rfl⟩ (by decide) rfl (by decide)

/-- **No write is lost**: at any point of such a run, what was written last to a block is in the
store buffer or on the disk, and the store buffer holds nothing older. -/
theorem writes_kept {P H : Type} [DecidableEq P] (fs : FileStorage) (filePath : ℕ → P)
    (hpaths : DistinctPaths fs filePath) (sha1 : Bytes → H) (workers : ℕ) (B : ℕ → ℕ → ℕ → Prop)
    (hB : Blocks fs B) (disk : Disk P) (c : Snapshot P H)
    (h : Reach (program fs filePath sha1 workers) (Careful B) (start disk) c) (key : ℕ × ℕ)
    (d : Bytes) : (c.shared.store.lookup key = some d → lastWrite key c.trace = some d) ∧
      (lastWrite key c.trace = some d → c.shared.store.lookup key = some d ∨
        OnDisk fs filePath c.shared.disk key d) := by
  have horderly := h.invariant (I := Orderly fs filePath B sha1) ⟨consistent_start disk, Chronicle.nil⟩
    fun c m c' hc hcareful hstep => hc.step hpaths hB hcareful hstep
  exact ⟨horderly.consistent.parked key d, horderly.consistent.safe key d⟩

/-- Half a piece is written, and reaches the disk. -/
theorem writes_kept_half : ∃ c : Snapshot ℕ Bytes,
    Reach (program tiny id id 2) (Careful Half) (start fun _ => none) c ∧
      OnDisk tiny id c.shared.disk (0, 0) [1, 2] := by
  obtain ⟨c, hreach, hlast, hgone⟩ : ∃ c : Snapshot ℕ Bytes,
      Reach (program tiny id id 2) (Careful Half) (start fun _ => none) c ∧
      lastWrite (0, 0) c.trace = some [1, 2] ∧ c.shared.store.lookup (0, 0) = none :=
    Reach.exists_of_moves [.call (.write ⟨0, 0, [1, 2]⟩), .call .enqueue, .call .pop, .exec 0 true,
      .exec 0 true, .exec 0 true, .exec 0 true] (by decide +kernel)
  have hkept := (writes_kept tiny id (fun _ _ _ _ h => h) id 2 Half blocks_half _ c hreach (0, 0)
    [1, 2]).2 hlast
  exact ⟨c, hreach, hkept.resolve_left (by simp [hgone])⟩

end Librats.BitTorrent.ThreadedDiskIo
