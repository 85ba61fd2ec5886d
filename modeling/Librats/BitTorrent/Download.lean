import Librats.BitTorrent.Verified
import Librats.Foundations.Runs

/-!
# The progress of a torrent

What a torrent reports of itself while its disk works: its state, the bytes it counts as verified,
and whether it has called back that it is complete. The messages of a connection come after its one
handshake and while it is open. The metadata, once known, stays known.
-/

namespace Librats.BitTorrent

open List Option Librats.BitTorrent.System PiecePicker

inductive State
  | stopped
  | metadata
  | checking
  | downloading
  | seeding
  deriving DecidableEq

/-- The size of the pieces `has` holds of. -/
def Layout.bytesOf (g : Layout) (has : ℕ → Bool) : ℕ :=
  ∑ p ∈ Finset.range g.numPieces, if has p then g.pieceSize p else 0

structure Download {H : Type} (info : TorrentInfo H) (Peer : Type) where
  system : System info Peer
  /-- The torrent file holds the metadata. -/
  known : Bool
  hasMetadata : Bool
  state : State
  completedAnnounced : Bool
  verifiedBytes : ℕ
  /-- How often the torrent has called back that it is complete. -/
  completions : ℕ
  /-- The connections that have completed a handshake. -/
  met : Peer → Bool

variable {H : Type} {info : TorrentInfo H} {Peer : Type}

namespace Download

/-- A torrent before its first start, with or without metadata. -/
def init (known : Bool) (conns : Peer → PeerConnection) (content : Content) :
    Download info Peer where
  system := .init conns content
  known := known
  hasMetadata := false
  state := .stopped
  completedAnnounced := false
  verifiedBytes := 0
  completions := 0
  met _ := false

def torrent (d : Download info Peer) : Torrent info Peer := d.system.torrent

variable (d : Download info Peer)

/-- The field `left` of a tracker request. -/
def left : ℕ :=
  if d.hasMetadata ∧ d.verifiedBytes < info.totalSize then info.totalSize - d.verifiedBytes else 0

/-- The events that can come. -/
def allowed : Event Peer → Bool
  | .handshake pc _ | .unanswered pc _ => !d.met pc
  | .message pc _ => d.met pc && !(d.torrent.conns pc).closed
  | .drop pc => d.met pc
  | .start hasMetadata => hasMetadata == d.known
  | .promote => !d.known
  | _ => true

variable [DecidableEq Peer]

/-- The share of an event's handler. -/
def track : Event Peer → Download info Peer
  | .handshake pc _ | .unanswered pc _ => { d with met := Function.update d.met pc true }
  | .start hasMetadata =>
    if d.torrent.running then d
    else { d with hasMetadata := hasMetadata, state := if hasMetadata then .checking else .metadata }
  | .promote => { d with known := true, hasMetadata := true, state := .downloading }
  | .stop => if d.torrent.running then { d with state := .stopped } else d
  | _ => d

/-- A piece has been verified. -/
def pieceVerified (piece : ℕ) (finished : Bool) : Download info Peer :=
  let d := { d with verifiedBytes := d.verifiedBytes + info.pieceSize piece }
  if finished && !d.completedAnnounced then
    { d with completedAnnounced := true, state := .seeding, completions := d.completions + 1 }
  else d

/-- The files have been checked, with what was found taken up by the picker. -/
def filesChecked (picker : PiecePicker info.toLayout Peer) : Download info Peer :=
  let d := { d with verifiedBytes := d.verifiedBytes + info.bytesOf picker.havePiece }
  if picker.isFinished then { d with state := .seeding, completedAnnounced := true }
  else { d with state := .downloading }

variable [DecidableEq H]

/-- The share of a completion's handler; `t` is the torrent after its other work. -/
def account (t : Torrent info Peer) : Completion H → Download info Peer
  | .written _ _ => d
  | .hashed piece ok hash =>
    if !d.torrent.running || d.torrent.picker.isNone || !ok || hash != info.pieceHash piece then d
    else d.pieceVerified piece (t.picker.any (·.isFinished))
  | .checked bits =>
    match d.torrent.picker with
    | none => d
    | some picker => if !d.torrent.running then d else d.filesChecked (picker.setHaveBitfield bits)

variable [Inhabited H] (sha1 : Bytes → H)

/-- A step of the system, with what its handler reports. -/
def step (d : Download info Peer) (a : Action info.toLayout Peer) : Option (Download info Peer) :=
  match a with
  | .handle _ e =>
    if d.allowed e then (d.system.step sha1 a).map fun s => { d.track e with system := s } else none
  | .deliver _ i =>
    match d.system.posted[i]?, d.system.step sha1 a with
    | some c, some s => some { d.account s.torrent c with system := s }
    | _, _ => none
  | _ => (d.system.step sha1 a).map fun s => { d with system := s }

def run (d : Download info Peer) (actions : List (Action info.toLayout Peer)) :
    Option (Download info Peer) :=
  Runs.run (step sha1) d actions

end Download

/-! ## Steps -/

namespace System

variable {H : Type} [DecidableEq H] [Inhabited H] {sha1 : Bytes → H} {info : TorrentInfo H}
  {Peer : Type} [DecidableEq Peer] {s s' : System info Peer} {a : Action info.toLayout Peer}

theorem tickets_of_work (hs : s.step sha1 a = some s')
    (ha : (∃ i n, a = .write i n) ∨ (∃ i n, a = .read i n) ∨ ∃ i ok, a = .finish i ok) :
    s'.torrent = s.torrent ∧ s'.tickets = s.tickets := by
  rcases ha with ⟨i, n, rfl⟩ | ⟨i, n, rfl⟩ | ⟨i, ok, rfl⟩
  · rw [step, write] at hs
    split at hs
    · rename_i p offset data done hi
      split_ifs at hs
      cases hs
      exact ⟨rfl, tickets_setWorker (.write p offset data (done + n)) hi rfl⟩
    · cases hs
  · rw [step, read] at hs
    split at hs
    · rename_i piece buf hi
      obtain ⟨buf', -, rfl⟩ := map_eq_some_iff.mp hs
      exact ⟨rfl, tickets_setWorker _ hi rfl⟩
    · rename_i bits buf hi
      split_ifs at hs
      obtain ⟨buf', -, rfl⟩ := map_eq_some_iff.mp hs
      exact ⟨rfl, tickets_setWorker _ hi rfl⟩
    · cases hs
  rw [step, finish] at hs
  split at hs
  · rename_i p offset data done hi
    split_ifs at hs
    cases hs
    exact ⟨rfl, tickets_setWorker (.post (.written ⟨p, offset / kBlockSize⟩ ok)) hi rfl⟩
  · rename_i piece buf hi
    split_ifs at hs
    all_goals
      cases hs
      exact ⟨rfl, tickets_setWorker _ hi rfl⟩
  · rename_i bits buf hi
    split_ifs at hs
    all_goals
      cases hs
      exact ⟨rfl, tickets_setWorker _ hi rfl⟩
  · cases hs

/-- The steps of the system: the reactor handles an event or a report, or a worker, which leaves the
torrent alone, goes on with a job. -/
theorem step_cases (hs : s.step sha1 a = some s') :
    (∃ w e, a = .handle w e ∧ s.enabled e = true ∧ s' = s.absorb (s.torrent.handle w e)) ∨
    (∃ w i c, a = .deliver w i ∧ s.posted[i]? = some c ∧
      s' = { s with posted := s.posted.eraseIdx i }.absorb (complete w s.torrent c)) ∨
    (∀ w e, a ≠ .handle w e) ∧ (∀ w i, a ≠ .deliver w i) ∧ s'.torrent = s.torrent ∧
      ∀ x ∈ s'.tickets, x ∈ s.tickets := by
  cases a with
  | handle w e =>
    rw [step] at hs
    split_ifs at hs with henabled
    exact .inl ⟨w, e, rfl, henabled, (Option.some.inj hs).symm⟩
  | deliver w i =>
    rw [step] at hs
    split at hs
    · rename_i c hi
      exact .inr (.inl ⟨w, i, c, rfl, hi, (Option.some.inj hs).symm⟩)
    · cases hs
  | take =>
    rw [step] at hs
    split at hs
    · rename_i job rest hjobs
      split_ifs at hs
      cases hs
      refine .inr (.inr ⟨(by simp), (by simp), rfl, fun x hx => ?_⟩)
      simp only [tickets, map_append, map_cons, map_nil, mem_append,
        mem_cons, not_mem_nil, or_false, hjobs, DiskJob.ticket_task] at hx ⊢
      tauto
    · cases hs
  | write i n =>
    obtain ⟨htorrent, htickets⟩ := tickets_of_work hs (.inl ⟨i, n, rfl⟩)
    exact .inr (.inr ⟨(by simp), (by simp), htorrent, fun x hx => htickets ▸ hx⟩)
  | read i n =>
    obtain ⟨htorrent, htickets⟩ := tickets_of_work hs (.inr (.inl ⟨i, n, rfl⟩))
    exact .inr (.inr ⟨(by simp), (by simp), htorrent, fun x hx => htickets ▸ hx⟩)
  | finish i ok =>
    obtain ⟨htorrent, htickets⟩ := tickets_of_work hs (.inr (.inr ⟨i, ok, rfl⟩))
    exact .inr (.inr ⟨(by simp), (by simp), htorrent, fun x hx => htickets ▸ hx⟩)
  | post i =>
    rw [step] at hs
    split at hs
    · rename_i c hi
      cases hs
      have hc : c.ticket ∈ s.workers.map Task.ticket :=
        mem_map.mpr ⟨_, mem_of_getElem? hi, rfl⟩
      refine .inr (.inr ⟨(by simp), (by simp), rfl, fun x hx => ?_⟩)
      simp only [tickets, map_append, map_cons, map_nil, mem_append, mem_singleton] at hx ⊢
      rcases hx with hx | hx | hx | rfl
      · exact .inl hx
      · exact .inr (.inl (((eraseIdx_sublist ..).map _).subset hx))
      · exact .inr (.inr hx)
      · exact .inr (.inl hc)
    · cases hs
  | extend grown =>
    cases hs
    exact .inr (.inr ⟨(by simp), (by simp), rfl, fun _ => id⟩)

omit [DecidableEq H] [Inhabited H] [DecidableEq Peer] in
theorem mem_tickets_absorb {t : Torrent info Peer} {x : Ticket} (hx : x ∈ (s.absorb t).tickets) :
    x ∈ s.tickets ∨ ∃ job ∈ t.submitted, job.ticket = x := by
  simp only [tickets, absorb, map_append, mem_append] at hx ⊢
  rcases hx with (hx | hx) | hx
  · exact .inl (.inl hx)
  · exact .inr (mem_map.mp hx)
  · exact .inl (.inr hx)

end System

namespace Download

variable {H : Type} [DecidableEq H] [Inhabited H] {sha1 : Bytes → H} {info : TorrentInfo H}
  {Peer : Type} [DecidableEq Peer] {d d' : Download info Peer}

theorem step_cases {a : Action info.toLayout Peer} (hd : d.step sha1 a = some d') :
    (∃ w e, a = .handle w e ∧ d.allowed e = true ∧ d.system.enabled e = true ∧
      d' = { d.track e with system := d.system.absorb (d.torrent.handle w e) }) ∨
    (∃ w i c, a = .deliver w i ∧ d.system.posted[i]? = some c ∧
      d' = { d.account (complete w d.torrent c) c with
        system := { d.system with posted := d.system.posted.eraseIdx i }.absorb
          (complete w d.torrent c) }) ∨
    ∃ s, d' = { d with system := s } ∧ d'.torrent = d.torrent ∧
      (∀ x ∈ s.tickets, x ∈ d.system.tickets) ∧ ∀ w e, a ≠ .handle w e := by
  cases a with
  | handle w e =>
    rw [step] at hd
    split_ifs at hd with hallowed
    obtain ⟨s, hs, rfl⟩ := map_eq_some_iff.mp hd
    rw [System.step] at hs
    split_ifs at hs with henabled
    cases hs
    exact .inl ⟨w, e, rfl, hallowed, henabled, rfl⟩
  | deliver w i =>
    rw [step] at hd
    split at hd
    · rename_i c s hi hs
      rw [System.step, hi] at hs
      cases hs
      cases hd
      exact .inr (.inl ⟨w, i, c, rfl, hi, rfl⟩)
    · cases hd
  | take | write | read | finish | post | extend =>
    simp only [step, map_eq_some_iff] at hd
    obtain ⟨s, hs, rfl⟩ := hd
    rcases step_cases hs with
      ⟨w, e, ha, -⟩ | ⟨w, i, c, ha, -⟩ | ⟨-, -, htorrent, htickets⟩
    · cases ha
    · cases ha
    · exact .inr (.inr ⟨s, rfl, htorrent, htickets, (by simp)⟩)

end Download

/-! ## What the handlers do to the pieces that are there -/

/-- The ticket is about a piece below `n`. -/
def Ticket.Within (n : ℕ) : Ticket → Prop
  | .write b => b.piece < n
  | .hash piece => piece < n
  | .check => True

namespace Torrent

/-- The pieces that are there stay; new jobs are about pieces of the torrent. -/
structure Keeps (t t' : Torrent info Peer) : Prop where
  running : t'.running = t.running
  has : t'.has = t.has
  isSome : t'.picker.isSome = t.picker.isSome
  priority : t'.picker.map (·.priority) = t.picker.map (·.priority)
  jobs : ∀ job ∈ t'.submitted, job ∈ t.submitted ∨ job.ticket.Within info.numPieces

namespace Keeps

variable {t t' t'' : Torrent info Peer}

theorem refl (t : Torrent info Peer) : Keeps t t := ⟨rfl, rfl, rfl, rfl, fun _ => .inl⟩

theorem trans (h : Keeps t t') (h' : Keeps t' t'') : Keeps t t'' :=
  ⟨h'.running.trans h.running, h'.has.trans h.has, h'.isSome.trans h.isSome,
    h'.priority.trans h.priority, fun job hjob => (h'.jobs job hjob).elim (h.jobs job) .inr⟩

theorem submit (t : Torrent info Peer) (job : DiskJob) (hjob : job.ticket.Within info.numPieces) :
    Keeps t (t.submit job) := by
  refine ⟨rfl, rfl, rfl, rfl, fun job' hjob' => ?_⟩
  rcases mem_append.mp hjob' with hold | hnew
  · exact .inl hold
  · rw [mem_singleton.mp hnew]
    exact .inr hjob

theorem picker_eq_none (h : Keeps t t') (hp : t.picker = none) : t'.picker = none := by
  rw [← isNone_iff_eq_none, ← not_isSome, h.isSome, hp]
  rfl

end Keeps

theorem Quiet.keeps {t t' : Torrent info Peer} (h : Quiet t t') : Keeps t t' :=
  ⟨h.running, h.has, h.isSome, h.priority, fun _ hjob => .inl (h.submitted ▸ hjob)⟩

variable {picker : PiecePicker info.toLayout Peer} {b : PieceBlock}

theorem keeps_settle (t : Torrent info Peer) (hp : t.picker = some picker)
    (hb : b.piece < info.numPieces) : Keeps t (t.settle picker b) := by
  have hmarked : Keeps t (t.setPicker (picker.markFinished b).2) := by
    refine ⟨rfl, ?_, ?_, ?_, fun _ => .inl⟩
    · funext p
      rw [has, has, hp]
      rfl
    · rw [hp]
      rfl
    · rw [hp]
      rfl
  rw [settle]
  split_ifs
  · exact hmarked.trans (.submit _ _ hb)
  · exact hmarked

variable [DecidableEq Peer] (w : World info.toLayout Peer) (t : Torrent info Peer)

/-- Only a start, the arrival of the metadata and a stop touch the pieces that are there. -/
theorem handle_cases (e : Event Peer) : Keeps t (t.handle w e) ∨
    (e = .start true ∧ t.running = false ∧
      Keeps ({ t with running := true }.setPicker .new) (t.handle w e)) ∨
    (e = .start false ∧ t.running = false ∧ t.handle w e = { t with running := true }) ∨
    (e = .promote ∧ Keeps (t.setPicker .new) (t.handle w e)) ∨
    (e = .stop ∧ (t.handle w e).picker = none ∧ (t.handle w e).submitted = t.submitted) := by
  cases e with
  | handshake pc numPieces =>
    have hquiet : Quiet t (t.handle w (.handshake pc numPieces)) :=
      (quiet_onHandshake _ pc).after rfl rfl rfl
    exact .inl hquiet.keeps
  | unanswered pc numPieces =>
    have hquiet : Quiet t (t.handle w (.unanswered pc numPieces)) :=
      ((quiet_close _ pc).trans (quiet_onHandshake _ pc)).after rfl rfl rfl
    exact .inl hquiet.keeps
  | message pc m =>
    by_cases hm : ∃ piece offset data, m = .piece piece offset data
    · obtain ⟨piece, offset, data, rfl⟩ := hm
      rcases t.onPiece_cases w pc piece offset data with ⟨hquiet, -⟩ | ⟨⟨-, hwf, -⟩, t₁, h₁, h₂⟩
      · exact .inl hquiet.keeps
      · exact .inl ((h₁.keeps.trans (.submit t₁ (.write piece offset data) hwf.1)).trans h₂.keeps)
    · exact .inl (quiet_dispatch w t pc fun piece offset data e => hm ⟨piece, offset, data, e⟩).keeps
  | drop pc => exact .inl (quiet_close t pc).keeps
  | breaks pc => exact .inl ⟨rfl, rfl, rfl, rfl, fun _ => .inl⟩
  | timeouts stalled => exact .inl (quiet_checkRequestTimeouts w t stalled).keeps
  | pause => exact .inl (quiet_pause t).keeps
  | resume => exact .inl (quiet_resume t).keeps
  | start hasMetadata =>
    cases hrunning : t.running with
    | true =>
      left
      rw [handle, start, if_pos hrunning]
      exact .refl t
    | false =>
      right
      cases hasMetadata with
      | true =>
        refine .inl ⟨rfl, rfl, ?_⟩
        rw [handle, start, hrunning]
        exact .submit _ _ trivial
      | false =>
        refine .inr (.inl ⟨rfl, rfl, ?_⟩)
        rw [handle, start, hrunning, if_neg Bool.false_ne_true, if_neg Bool.false_ne_true]
  | promote =>
    obtain ⟨t₁, hquiet, heq⟩ := quiet_promote w t
    refine .inr (.inr (.inr (.inl ⟨rfl, ?_⟩)))
    rw [handle, heq]
    exact hquiet.keeps.trans (.submit t₁ _ trivial)
  | stop =>
    rw [handle, stop]
    split_ifs
    · exact .inl (.refl t)
    · exact .inr (.inr (.inr (.inr ⟨rfl, rfl, (quiet_dropPeers _).submitted⟩)))

theorem keeps_handle {e : Event Peer}
    (he : (∀ hasMetadata, e ≠ .start hasMetadata) ∧ e ≠ .promote ∧ e ≠ .stop) :
    Keeps t (t.handle w e) := by
  rcases t.handle_cases w e with h | ⟨h, -⟩ | ⟨h, -⟩ | ⟨h, -⟩ | ⟨h, -⟩
  · exact h
  · exact absurd h (he.1 true)
  · exact absurd h (he.1 false)
  · exact absurd h he.2.1
  · exact absurd h he.2.2

theorem keeps_onBlockWritten (hb : b.piece < info.numPieces) (ok : Bool) :
    Keeps t (t.onBlockWritten w b ok) := by
  rcases t.onBlockWritten_cases w b ok with hquiet | ⟨picker, hp, hquiet⟩
  · exact hquiet.keeps
  · exact (keeps_settle t hp hb).trans hquiet.keeps

end Torrent

/-! ## What every run keeps -/

namespace Download

/-- What holds of a torrent and its reports at all times. -/
structure Sane (d : Download info Peer) : Prop where
  stopped : d.torrent.running = false → d.torrent.picker = none
  drained : d.torrent.submitted = []
  tickets : ∀ x ∈ d.system.tickets, x.Within info.numPieces
  has : ∀ p, d.torrent.has p = true → p < info.numPieces
  unknown : d.known = false → d.torrent.picker = none ∧ d.verifiedBytes = 0
  hasMetadata : d.torrent.picker.isSome = true → d.hasMetadata = true
  normal : ∀ priority ∈ d.torrent.picker.map (·.priority), ∀ p, priority p = .normal

theorem Sane.init (known : Bool) (conns : Peer → PeerConnection) (content : Content) :
    Sane (init known conns content : Download info Peer) where
  stopped _ := rfl
  drained := rfl
  tickets _ h := nomatch h
  has _ h := nomatch h
  unknown _ := ⟨rfl, rfl⟩
  hasMetadata h := nomatch h
  normal _ h := nomatch h

variable {d d' : Download info Peer}

theorem Sane.of_keeps (h : Sane d) {t₀ t : Torrent info Peer} (hkeeps : t₀.Keeps t)
    (htorrent : d'.torrent = { t with submitted := [] })
    (htickets : ∀ x ∈ d'.system.tickets, x ∈ d.system.tickets ∨ ∃ job ∈ t.submitted, job.ticket = x)
    (hstopped : t₀.running = false → t₀.picker = none) (hdrained : t₀.submitted = [])
    (hhas : ∀ p, t₀.has p = true → p < info.numPieces)
    (hunknown : d'.known = false → t₀.picker = none ∧ d'.verifiedBytes = 0)
    (hmetadata : t₀.picker.isSome = true → d'.hasMetadata = true)
    (hnormal : ∀ priority ∈ t₀.picker.map (·.priority), ∀ p, priority p = .normal) : Sane d' where
  stopped hr := by
    rw [htorrent] at hr ⊢
    exact hkeeps.picker_eq_none (hstopped (hkeeps.running.symm.trans hr))
  drained := by rw [htorrent]
  tickets x hx := by
    rcases htickets x hx with hold | ⟨job, hjob, rfl⟩
    · exact h.tickets x hold
    · rcases hkeeps.jobs job hjob with hnil | hwithin
      · rw [hdrained] at hnil
        cases hnil
      · exact hwithin
  has p hp := by
    rw [htorrent] at hp
    exact hhas p ((congrFun hkeeps.has p).symm.trans hp)
  unknown hknown := by
    obtain ⟨hnone, hzero⟩ := hunknown hknown
    rw [htorrent]
    exact ⟨hkeeps.picker_eq_none hnone, hzero⟩
  hasMetadata hsome := by
    rw [htorrent] at hsome
    exact hmetadata (hkeeps.isSome.symm.trans hsome)
  normal := by
    rw [htorrent]
    exact hkeeps.priority ▸ hnormal

theorem Sane.known (h : Sane d) (hsome : d.torrent.picker.isSome = true) : d.known = true := by
  by_contra hknown
  rw [(h.unknown (Bool.not_eq_true _ ▸ hknown)).1] at hsome
  cases hsome

theorem pieceVerified_fields (d : Download info Peer) (piece : ℕ) (finished : Bool) :
    (d.pieceVerified piece finished).known = d.known ∧
      (d.pieceVerified piece finished).hasMetadata = d.hasMetadata ∧
      (d.pieceVerified piece finished).verifiedBytes = d.verifiedBytes + info.pieceSize piece := by
  rw [pieceVerified]
  split_ifs <;> exact ⟨rfl, rfl, rfl⟩

theorem filesChecked_fields (d : Download info Peer) (picker : PiecePicker info.toLayout Peer) :
    (d.filesChecked picker).known = d.known ∧ (d.filesChecked picker).hasMetadata = d.hasMetadata ∧
      (d.filesChecked picker).verifiedBytes = d.verifiedBytes + info.bytesOf picker.havePiece := by
  rw [filesChecked]
  split_ifs <;> exact ⟨rfl, rfl, rfl⟩

theorem isFinished_of_has {t : Torrent info Peer} (hsome : t.picker.isSome = true)
    (hall : ∀ p < info.numPieces, t.has p = true) : t.picker.any (·.isFinished) = true := by
  obtain ⟨picker, hp⟩ := isSome_iff_exists.mp hsome
  rw [hp, any_some, isFinished, List.all_eq_true]
  intro p hpn
  have hhas := hall p (List.mem_range.mp hpn)
  rw [Torrent.has, hp, any_some] at hhas
  rw [wanted, show picker.haveBits p = true from hhas]
  rfl

theorem pieceVerified_reports (h : d.completions = if d.completedAnnounced then 1 else 0)
    (piece : ℕ) (finished : Bool) : ((d.pieceVerified piece finished).completions =
      if (d.pieceVerified piece finished).completedAnnounced then 1 else 0) ∧
    (finished = true → (d.pieceVerified piece finished).completedAnnounced = true) := by
  rw [pieceVerified]
  cases finished <;> cases hannounced : d.completedAnnounced <;> simp_all

theorem filesChecked_reports {picker : PiecePicker info.toLayout Peer} {p : ℕ}
    (hp : p < info.numPieces) (hhave : picker.haveBits p = false)
    (hpriority : picker.priority p = .normal) :
    (d.filesChecked picker).completions = d.completions ∧
      (d.filesChecked picker).completedAnnounced = d.completedAnnounced := by
  have hunfinished : picker.isFinished = false := by
    rw [← Bool.not_eq_true, isFinished, List.all_eq_true]
    intro hall
    have hwanted := hall p (List.mem_range.mpr hp)
    rw [wanted, hhave, hpriority] at hwanted
    cases hwanted
  rw [filesChecked, hunfinished]
  exact ⟨rfl, rfl⟩

theorem Sane.setPicker (h : Sane d) {t : Torrent info Peer} (hrunning : d.torrent.running = true)
    {picker picker' : PiecePicker info.toLayout Peer} (hp : d.torrent.picker = some picker)
    (hpriority : picker'.priority = picker.priority)
    (hhave : ∀ p, picker'.haveBits p = true → picker.haveBits p = true ∨ p < info.numPieces)
    (hkeeps : (d.torrent.setPicker picker').Keeps t)
    (htorrent : d'.torrent = { t with submitted := [] })
    (htickets : ∀ x ∈ d'.system.tickets, x ∈ d.system.tickets ∨ ∃ job ∈ t.submitted, job.ticket = x)
    (hknown : d'.known = d.known) (hmetadata : d'.hasMetadata = d.hasMetadata) : Sane d' := by
  have hsome : d.torrent.picker.isSome = true := by
    rw [hp]
    rfl
  refine h.of_keeps hkeeps htorrent htickets (fun hr => ?_) h.drained (fun p hp' => ?_)
    (fun hfalse => ?_) (fun _ => hmetadata.trans (h.hasMetadata hsome)) ?_
  · cases hrunning.symm.trans hr
  · refine (hhave p hp').elim (fun hold => h.has p ?_) id
    rwa [Torrent.has, hp]
  · cases (h.known hsome).symm.trans (hknown.symm.trans hfalse)
  · rintro _ ⟨⟩ p
    change picker'.priority p = .normal
    rw [hpriority]
    exact h.normal _ (by rw [hp]; rfl) p

variable [DecidableEq Peer]

theorem track_counts (d : Download info Peer) (e : Event Peer) :
    (d.track e).verifiedBytes = d.verifiedBytes ∧ (d.track e).completions = d.completions ∧
      (d.track e).completedAnnounced = d.completedAnnounced := by
  cases e
  case start | stop =>
    rw [track]
    split_ifs <;> exact ⟨rfl, rfl, rfl⟩
  all_goals exact ⟨rfl, rfl, rfl⟩

variable {e : Event Peer}

theorem known_track (h : (d.track e).known = false) : d.known = false := by
  cases e
  case start | stop =>
    rw [track] at h
    split_ifs at h <;> exact h
  case promote => cases h
  all_goals exact h

theorem hasMetadata_track (hallowed : d.allowed e = true) (hknown : d.known = true)
    (h : d.hasMetadata = true) : (d.track e).hasMetadata = true := by
  cases e
  case start hasMetadata =>
    by_cases hrunning : d.torrent.running = true
    · rwa [track, if_pos hrunning]
    · rw [track, if_neg hrunning]
      exact (beq_iff_eq.mp hallowed).trans hknown
  case stop =>
    rw [track]
    split_ifs <;> exact h
  case promote => rfl
  all_goals exact h

theorem Sane.handle (h : Sane d) (w : World info.toLayout Peer) (hallowed : d.allowed e = true)
    (henabled : d.system.enabled e = true) :
    Sane { d.track e with system := d.system.absorb (d.torrent.handle w e) } := by
  have htickets (x : Ticket) (hx : x ∈ (d.system.absorb (d.torrent.handle w e)).tickets) :=
    mem_tickets_absorb hx
  have hunknown (hknown : (d.track e).known = false) :
      d.torrent.picker = none ∧ (d.track e).verifiedBytes = 0 := by
    rw [(d.track_counts e).1]
    exact h.unknown (known_track hknown)
  rcases d.torrent.handle_cases w e with
    hkeeps | ⟨rfl, hrunning, hkeeps⟩ | ⟨rfl, hrunning, heq⟩ | ⟨rfl, hkeeps⟩ | ⟨rfl, hnone, hsubmitted⟩
  · exact h.of_keeps hkeeps rfl htickets h.stopped h.drained h.has hunknown
      (fun hsome => hasMetadata_track hallowed (h.known hsome) (h.hasMetadata hsome)) h.normal
  · refine h.of_keeps hkeeps rfl htickets (by rintro ⟨⟩) h.drained (by rintro _ ⟨⟩)
      (fun hknown => ?_) (fun _ => ?_) ?_
    · have htrue : true = d.known := beq_iff_eq.mp hallowed
      exact absurd (htrue.trans (known_track hknown)) (by decide)
    · rw [track, hrunning]
      rfl
    · rintro _ ⟨⟩ p
      rfl
  · have hnone : d.torrent.picker = none :=
      (h.unknown (beq_iff_eq.mp hallowed).symm).1
    refine h.of_keeps (.refl _) rfl htickets ?_ ?_ ?_ (fun hknown => ?_) (fun hsome => ?_) ?_
    all_goals rw [heq]
    · simp
    · exact h.drained
    · exact h.has
    · exact hunknown hknown
    · rw [heq, hnone] at hsome
      cases hsome
    · exact h.normal
  · rw [enabled, Bool.and_eq_true] at henabled
    refine h.of_keeps hkeeps rfl htickets (fun hr => ?_) h.drained (by rintro _ ⟨⟩)
      (by rintro ⟨⟩) (fun _ => rfl) ?_
    · cases henabled.1.symm.trans hr
    · rintro _ ⟨⟩ p
      rfl
  refine h.of_keeps (.refl _) rfl htickets (fun _ => hnone) (hsubmitted.trans h.drained) (fun p hp => ?_)
    (fun hknown => ⟨hnone, (hunknown hknown).2⟩) (fun hsome => ?_) (fun priority hp => ?_)
  · rw [Torrent.has, hnone] at hp
    cases hp
  · rw [hnone] at hsome
    cases hsome
  · rw [hnone] at hp
    cases hp

variable [DecidableEq H] {c : Completion H}

theorem account_cases (d : Download info Peer) (w : World info.toLayout Peer)
    (hc : c.ticket.Within info.numPieces) : (d.torrent.Keeps (complete w d.torrent c) ∧
      d.account (complete w d.torrent c) c = d) ∨
    (∃ picker piece, d.torrent.running = true ∧ d.torrent.picker = some picker ∧
      c = .hashed piece true (info.pieceHash piece) ∧
      (d.torrent.setPicker (picker.weHave piece)).Keeps (complete w d.torrent c) ∧
      d.account (complete w d.torrent c) c =
        d.pieceVerified piece ((complete w d.torrent c).picker.any (·.isFinished))) ∨
    ∃ picker bits, d.torrent.running = true ∧ d.torrent.picker = some picker ∧ c = .checked bits ∧
      (d.torrent.setPicker (picker.setHaveBitfield bits)).Keeps (complete w d.torrent c) ∧
      d.account (complete w d.torrent c) c = d.filesChecked (picker.setHaveBitfield bits) := by
  cases c with
  | written b ok => exact .inl ⟨Torrent.keeps_onBlockWritten w d.torrent hc ok, rfl⟩
  | hashed piece ok hash =>
    rcases d.torrent.onPieceHashed_cases w piece ok hash with
      ⟨hbad, hquiet⟩ | ⟨picker, hrunning, hp, rfl, rfl, hquiet⟩
    · exact .inl ⟨hquiet.keeps, if_pos hbad⟩
    · exact .inr (.inl ⟨picker, piece, hrunning, hp, rfl, hquiet.keeps,
        if_neg (by simp [hrunning, hp])⟩)
  | checked bits =>
    rcases d.torrent.onCheckComplete_cases w bits with
      ⟨hidle, heq⟩ | ⟨picker, hp, hrunning, hquiet⟩
    · refine .inl ⟨by rw [complete, heq]; exact .refl _, ?_⟩
      rw [account]
      rcases hidle with hp | hrunning
      · rw [hp]
      · split
        · rfl
        · exact if_pos (by rw [hrunning]; rfl)
    · refine .inr (.inr ⟨picker, bits, hrunning, hp, rfl, hquiet.keeps, ?_⟩)
      rw [account, hp]
      exact if_neg (by simp [hrunning])

omit [DecidableEq Peer] in
theorem met_account (d : Download info Peer) (t : Torrent info Peer) (c : Completion H) :
    (d.account t c).met = d.met := by
  cases c with
  | written b ok => rfl
  | hashed piece ok hash =>
    simp only [account, pieceVerified]
    split_ifs <;> rfl
  | checked bits =>
    rw [account]
    split
    · rfl
    · simp only [filesChecked]
      split_ifs <;> rfl

theorem Sane.deliver (h : Sane d) (w : World info.toLayout Peer) {i : ℕ}
    (hi : d.system.posted[i]? = some c) : Sane { d.account (complete w d.torrent c) c with
      system := { d.system with posted := d.system.posted.eraseIdx i }.absorb
        (complete w d.torrent c) } := by
  have hperm := tickets_unpost hi
  have hc : c.ticket.Within info.numPieces := h.tickets _ (hperm.symm.subset (.head _))
  have htickets (x : Ticket)
      (hx : x ∈ ({ d.system with posted := d.system.posted.eraseIdx i }.absorb
        (complete w d.torrent c)).tickets) :
      x ∈ d.system.tickets ∨ ∃ job ∈ (complete w d.torrent c).submitted, job.ticket = x :=
    (mem_tickets_absorb hx).imp_left fun hold =>
      hperm.symm.subset (.tail _ hold)
  rcases d.account_cases w hc with
    ⟨hkeeps, heq⟩ | ⟨picker, piece, hrunning, hp, rfl, hkeeps, heq⟩ |
    ⟨picker, bits, hrunning, hp, rfl, hkeeps, heq⟩
  · rw [heq]
    exact h.of_keeps hkeeps rfl htickets h.stopped h.drained h.has h.unknown h.hasMetadata h.normal
  · rw [heq]
    obtain ⟨hknown, hmetadata, -⟩ := d.pieceVerified_fields piece
      ((complete w d.torrent (.hashed piece true (info.pieceHash piece))).picker.any (·.isFinished))
    refine h.setPicker hrunning hp (priority_weHave piece) (fun p hp' => ?_) hkeeps rfl htickets
      hknown hmetadata
    rw [haveBits_weHave, Bool.or_eq_true, decide_eq_true_iff] at hp'
    rcases hp' with hold | rfl
    · exact .inl hold
    · exact .inr hc
  · rw [heq]
    obtain ⟨hknown, hmetadata, -⟩ := d.filesChecked_fields (picker.setHaveBitfield bits)
    refine h.setPicker hrunning hp (priority_setHaveBitfield bits) (fun p hp' => ?_) hkeeps rfl
      htickets hknown hmetadata
    rw [haveBits_setHaveBitfield_eq, Bool.or_eq_true, Bool.and_eq_true, decide_eq_true_iff] at hp'
    exact hp'.imp_right And.left

variable [Inhabited H] {sha1 : Bytes → H}

theorem Sane.step (h : Sane d) {a : Action info.toLayout Peer} (hd : d.step sha1 a = some d') :
    Sane d' := by
  rcases step_cases hd with
    ⟨w, e, -, hallowed, henabled, rfl⟩ | ⟨w, i, c, -, hi, rfl⟩ | ⟨s, rfl, htorrent, htickets, -⟩
  · exact h.handle w hallowed henabled
  · exact h.deliver w hi
  refine ⟨?_, ?_, fun x hx => h.tickets x (htickets x hx), ?_, ?_, ?_, ?_⟩
  all_goals rw [htorrent]
  · exact h.stopped
  · exact h.drained
  · exact h.has
  · exact h.unknown
  · exact h.hasMetadata
  · exact h.normal

end Download

end Librats.BitTorrent
