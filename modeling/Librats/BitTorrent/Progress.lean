import Librats.BitTorrent.Download

/-!
# Verified bytes and completion

Nothing is ever taken off the count of verified bytes, so it can become too large (`counted_twice`,
`verifiedBytes_eq`). Completion is called back when a hash completes the torrent, and never if the
check of the files does.
-/

namespace Librats.BitTorrent

open Option Finset Librats.BitTorrent.System Torrent

/-! ## The size of the pieces that are there -/

namespace Layout

variable {g : Layout}

theorem bytesOf_eq_zero {has : ℕ → Bool} (h : ∀ p < g.numPieces, has p = false) :
    g.bytesOf has = 0 :=
  sum_eq_zero fun p hp => by
    rw [h p (mem_range.mp hp)]
    rfl

theorem bytesOf_insert {has has' : ℕ → Bool} {piece : ℕ} (hpiece : piece < g.numPieces)
    (hnew : has piece = false) (h : ∀ p, has' p = (has p || decide (p = piece))) :
    g.bytesOf has' = g.bytesOf has + g.pieceSize piece := by
  have hterm (p : ℕ) : (if has' p then g.pieceSize p else 0) =
      (if has p then g.pieceSize p else 0) + if p = piece then g.pieceSize piece else 0 := by
    rw [h p]
    by_cases hp : p = piece
    · subst hp
      simp [hnew]
    · simp [hp]
  rw [bytesOf, sum_congr rfl fun p _ => hterm p, sum_add_distrib,
    sum_ite_eq' (Finset.range g.numPieces), if_pos (mem_range.mpr hpiece)]
  rfl

end Layout

namespace Download

variable {H : Type} [DecidableEq H] {info : TorrentInfo H} {Peer : Type} [DecidableEq Peer]
  {d d' : Download info Peer} {w : World info.toLayout Peer}

/-! ## Verified bytes -/

/-- The step counts nothing that is counted already: a torrent is not started again with a count, a
hash is not that of a piece that is there, and the files are checked while no piece is there. -/
def countsOnce (d : Download info Peer) : Action info.toLayout Peer → Bool
  | .handle _ (.start true) => d.torrent.running || d.verifiedBytes == 0
  | .deliver _ i =>
    d.system.posted[i]?.all fun
      | .written _ _ => true
      | .hashed piece ok hash =>
        !d.torrent.running || !ok || hash != info.pieceHash piece || !d.torrent.has piece
      | .checked _ =>
        !d.torrent.running || (List.range info.numPieces).all fun p => !d.torrent.has p
  | _ => true

/-- The count is the size of the pieces that are there. -/
structure Counted (d : Download info Peer) : Prop extends Sane d where
  verifiedBytes : d.torrent.picker.isSome = true → d.verifiedBytes = info.bytesOf d.torrent.has

theorem Counted.handle (h : Counted d) {e : Event Peer}
    (hallowed : d.allowed e = true) (henabled : d.system.enabled e = true)
    (honce : d.countsOnce (.handle w e) = true) :
    Counted { d.track e with system := d.system.absorb (d.torrent.handle w e) } := by
  refine ⟨h.toSane.handle w hallowed henabled, fun hsome => ?_⟩
  change (d.torrent.handle w e).picker.isSome = true at hsome
  change (d.track e).verifiedBytes = info.bytesOf (d.torrent.handle w e).has
  rw [(d.track_counts e).1]
  -- a new picker has nothing
  have hnew {t : Torrent info Peer} (hkeeps : (t.setPicker .new).Keeps (d.torrent.handle w e)) :
      info.bytesOf (d.torrent.handle w e).has = 0 :=
    Layout.bytesOf_eq_zero fun p _ => congrFun hkeeps.has p
  rcases d.torrent.handle_cases w e with
    hkeeps | ⟨rfl, hrunning, hkeeps⟩ | ⟨rfl, hrunning, heq⟩ | ⟨rfl, hkeeps⟩ | ⟨rfl, hnone, -⟩
  · rw [hkeeps.has]
    exact h.verifiedBytes (hkeeps.isSome.symm.trans hsome)
  · rw [hnew hkeeps]
    rw [countsOnce, hrunning] at honce
    exact beq_iff_eq.mp honce
  · rw [heq] at hsome ⊢
    exact h.verifiedBytes hsome
  · rw [hnew hkeeps]
    exact (h.unknown (Bool.not_eq_true' _ ▸ hallowed)).2
  · rw [hnone] at hsome
    cases hsome

theorem Counted.deliver (h : Counted d) {i : ℕ} {c : Completion H}
    (hi : d.system.posted[i]? = some c) (honce : d.countsOnce (.deliver w i) = true) :
    Counted { d.account (complete w d.torrent c) c with
      system := { d.system with posted := d.system.posted.eraseIdx i }.absorb
        (complete w d.torrent c) } := by
  have hsane := h.toSane.deliver w hi
  have hc : c.ticket.Within info.numPieces :=
    h.tickets _ ((tickets_unpost hi).symm.subset (.head _))
  rw [countsOnce, hi] at honce
  refine ⟨hsane, fun hsome => ?_⟩
  change (d.account (complete w d.torrent c) c).verifiedBytes =
    info.bytesOf (complete w d.torrent c).has
  rcases d.account_cases w hc with
    ⟨hkeeps, heq⟩ | ⟨picker, piece, hrunning, hp, rfl, hkeeps, heq⟩ |
    ⟨picker, bits, hrunning, hp, rfl, hkeeps, heq⟩
  · rw [heq, hkeeps.has]
    exact h.verifiedBytes (hkeeps.isSome.symm.trans hsome)
  · have hhad : d.torrent.has = picker.haveBits := by
      funext p
      rw [has, hp]
      rfl
    have hfree : d.torrent.has piece = false := by
      simpa [hrunning] using honce
    rw [heq, (d.pieceVerified_fields piece _).2.2, h.verifiedBytes (by rw [hp]; rfl), hkeeps.has]
    refine (Layout.bytesOf_insert hc hfree fun p => ?_).symm
    rw [hhad]
    exact PiecePicker.haveBits_weHave piece p
  · have hnone : ∀ p < info.numPieces, d.torrent.has p = false := by
      simpa [hrunning] using honce
    rw [heq, (d.filesChecked_fields _).2.2, h.verifiedBytes (by rw [hp]; rfl),
      Layout.bytesOf_eq_zero hnone, Nat.zero_add, hkeeps.has]
    rfl

variable [Inhabited H] {sha1 : Bytes → H} {a : Action info.toLayout Peer}

theorem Counted.step (h : Counted d) (honce : d.countsOnce a = true)
    (hd : d.step sha1 a = some d') : Counted d' := by
  have hsane := h.toSane.step hd
  rcases step_cases hd with
    ⟨w, e, rfl, hallowed, henabled, rfl⟩ | ⟨w, i, c, rfl, hi, rfl⟩ | ⟨s, rfl, htorrent, -⟩
  · exact h.handle hallowed henabled honce
  · exact h.deliver hi honce
  · refine ⟨hsane, ?_⟩
    rw [htorrent]
    exact h.verifiedBytes

/-- **In every run that counts nothing twice the verified bytes are the size of the pieces the
picker has**, and the rest is what trackers are told is left. -/
theorem verifiedBytes_eq (known : Bool) (conns : Peer → PeerConnection) (content : Content)
    {actions : List (Action info.toLayout Peer)} {d : Download info Peer}
    (hrun : (init known conns content).run sha1 actions = some d)
    (honce : Runs.AllMeet (Download.step sha1)
      (fun (d : Download info Peer) a => d.countsOnce a = true) (init known conns content) actions)
    {picker : PiecePicker info.toLayout Peer} (hp : d.torrent.picker = some picker) :
    d.verifiedBytes = info.bytesOf picker.havePiece ∧
      d.left = info.totalSize - info.bytesOf picker.havePiece := by
  have hinit : Counted (init known conns content : Download info Peer) :=
    ⟨.init known conns content, nofun⟩
  have hcounted : Counted d :=
    Runs.run_induction (fun _ _ _ hc ho hs => hc.step ho hs) hinit honce hrun
  have hsome : d.torrent.picker.isSome = true := by
    rw [hp]
    rfl
  have hhas : d.torrent.has = picker.havePiece := by
    funext p
    rw [has, hp]
    rfl
  have hbytes := hcounted.verifiedBytes hsome
  rw [hhas] at hbytes
  refine ⟨hbytes, ?_⟩
  rw [left, hcounted.hasMetadata hsome, hbytes]
  split_ifs with hlt
  · rfl
  · have hle := not_lt.mp fun h => hlt ⟨rfl, h⟩
    exact (Nat.sub_eq_zero_of_le hle).symm

/-- A torrent of one byte that is not on disk. -/
def bare : Download oneByte ℕ := init true (fun _ => .new 1) fun _ => none

/-- The same torrent with its byte on disk. -/
def full : Download oneByte ℕ :=
  init true (fun _ => .new 1) fun x => if x.2 = 0 then some 7 else none

/-- The byte has been downloaded and verified. -/
def done : Download oneByte ℕ :=
  (bare.run id (begins ++ [.deliver plain 0])).get (by decide +kernel)

theorem verifiedBytes_eq_done : ∃ picker, done.torrent.picker = some picker ∧
      done.verifiedBytes = oneByte.bytesOf picker.havePiece ∧
      done.left = 1 - oneByte.bytesOf picker.havePiece := by
  have hp : done.torrent.picker = some (done.torrent.picker.get (by decide +kernel)) :=
    (some_get _).symm
  exact ⟨_, hp, verifiedBytes_eq true (fun _ => .new 1) (fun _ => none) (some_get _).symm
    (by decide +kernel) hp⟩

/-- The files are checked, and the torrent is stopped and started again. -/
def restarted : List (Action oneByte.toLayout ℕ) :=
  [.handle plain (.start true), .take, .read 0 1, .finish 0 true, .finish 0 true, .post 0,
    .deliver plain 0, .handle plain .stop, .handle plain (.start true)]

/-- The block comes a second time before the hash of its piece is acted on. -/
def repeated : List (Action oneByte.toLayout ℕ) :=
  begins ++
    [.handle plain (.message 0 (.piece 0 0 [7])), .take, .write 0 1, .finish 0 true, .post 0,
      .deliver plain 1, .deliver plain 0, .take, .read 0 1, .finish 0 true, .post 0,
      .deliver plain 0]

/-- The check of the files reads the block that is written while it runs, and is done first. -/
def overtaken : List (Action oneByte.toLayout ℕ) :=
  [.handle plain (.start true), .handle plain (.handshake 0 1),
    .handle plain (.message 0 (.bitfield [128])), .handle plain (.message 0 .unchoke),
    .handle plain (.message 0 (.piece 0 0 [7])), .take, .take, .write 1 1, .read 0 1,
    .finish 0 true, .finish 0 true, .post 0, .deliver plain 0, .finish 0 true, .post 0,
    .deliver plain 0, .take, .read 0 1, .finish 0 true, .post 0, .deliver plain 0]

/-- The count is off after a second start, a repeated block, and a check beside a download. -/
theorem counted_twice : (full.run id restarted).any (fun d => d.torrent.picker.isSome &&
      d.verifiedBytes == 1 && oneByte.bytesOf d.torrent.has == 0) = true ∧
    (bare.run id repeated).any (fun d => d.torrent.picker.isSome &&
      d.verifiedBytes == 2 && oneByte.bytesOf d.torrent.has == 1) = true ∧
    (bare.run id overtaken).any (fun d => d.torrent.picker.isSome &&
      d.verifiedBytes == 2 && oneByte.bytesOf d.torrent.has == 1) = true := by
  decide +kernel

/-! ## Completion -/

section

omit [Inhabited H]

/-- Every check of the files leaves a piece that is neither there nor found. -/
def leavesOne (d : Download info Peer) : Action info.toLayout Peer → Bool
  | .deliver _ i =>
    d.system.posted[i]?.all fun
      | .checked bits =>
        !d.torrent.running || (List.range info.numPieces).any fun p =>
          !d.torrent.has p && !hasBit bits p
      | _ => true
  | _ => true

/-- The torrent has called back once iff it has said so, and has said so if it is complete. -/
structure Reported (d : Download info Peer) : Prop extends Sane d where
  completions : d.completions = if d.completedAnnounced then 1 else 0
  complete : d.torrent.picker.isSome = true →
    (∀ p < info.numPieces, d.torrent.has p = true) → d.completedAnnounced = true

omit [DecidableEq H] in
theorem Reported.handle (h : Reported d) (hpos : 0 < info.numPieces) {w : World info.toLayout Peer}
    {e : Event Peer} (hallowed : d.allowed e = true) (henabled : d.system.enabled e = true) :
    Reported { d.track e with system := d.system.absorb (d.torrent.handle w e) } := by
  obtain ⟨-, hcompletions, hannounced⟩ := d.track_counts e
  refine ⟨h.toSane.handle w hallowed henabled, ?_, fun hsome hall => ?_⟩
  · change (d.track e).completions = if (d.track e).completedAnnounced then 1 else 0
    rw [hcompletions, hannounced]
    exact h.completions
  change (d.torrent.handle w e).picker.isSome = true at hsome
  change ∀ p < info.numPieces, (d.torrent.handle w e).has p = true at hall
  refine hannounced.trans ?_
  -- a new picker is not complete
  have hnew {t : Torrent info Peer} (hkeeps : (t.setPicker .new).Keeps (d.torrent.handle w e)) :
      False := by
    have hzero := hall 0 hpos
    rw [hkeeps.has] at hzero
    cases hzero
  rcases d.torrent.handle_cases w e with
    hkeeps | ⟨rfl, -, hkeeps⟩ | ⟨rfl, -, heq⟩ | ⟨rfl, hkeeps⟩ | ⟨rfl, hnone, -⟩
  · rw [hkeeps.has] at hall
    exact h.complete (hkeeps.isSome.symm.trans hsome) hall
  · exact (hnew hkeeps).elim
  · rw [heq] at hsome hall
    exact h.complete hsome hall
  · exact (hnew hkeeps).elim
  · rw [hnone] at hsome
    cases hsome

theorem Reported.deliver (h : Reported d) {w : World info.toLayout Peer} {i : ℕ} {c : Completion H}
    (hi : d.system.posted[i]? = some c) (hleaves : d.leavesOne (.deliver w i) = true) :
    Reported { d.account (System.complete w d.torrent c) c with
      system := { d.system with posted := d.system.posted.eraseIdx i }.absorb
        (System.complete w d.torrent c) } := by
  have hsane := h.toSane.deliver w hi
  have hc : c.ticket.Within info.numPieces :=
    h.tickets _ ((tickets_unpost hi).symm.subset (.head _))
  rw [leavesOne, hi] at hleaves
  rcases d.account_cases w hc with
    ⟨hkeeps, heq⟩ | ⟨picker, piece, -, -, rfl, hkeeps, heq⟩ |
    ⟨picker, bits, hrunning, hp, rfl, hkeeps, heq⟩
  · rw [heq] at hsane ⊢
    refine ⟨hsane, h.completions, fun hsome hall => h.complete (hkeeps.isSome.symm.trans hsome) ?_⟩
    exact hkeeps.has ▸ hall
  · rw [heq] at hsane ⊢
    obtain ⟨hcompletions, hannounced⟩ := pieceVerified_reports h.completions piece
      ((System.complete w d.torrent (.hashed piece true (info.pieceHash piece))).picker.any
        (·.isFinished))
    exact ⟨hsane, hcompletions, fun hsome hall => hannounced (isFinished_of_has hsome hall)⟩
  obtain ⟨p, hpn, hhas, hbit⟩ : ∃ p < info.numPieces, d.torrent.has p = false ∧
      hasBit bits p = false := by
    simpa [hrunning] using hleaves
  have hhave : (picker.setHaveBitfield bits).haveBits p = false := by
    rw [PiecePicker.haveBits_setHaveBitfield_eq, hbit, Bool.and_false, Bool.or_false]
    rwa [has, hp] at hhas
  have hpriority : (picker.setHaveBitfield bits).priority p = .normal := by
    rw [PiecePicker.priority_setHaveBitfield]
    exact h.normal _ (by rw [hp]; rfl) p
  obtain ⟨hcompletions, hannounced⟩ := d.filesChecked_reports hpn hhave hpriority
  rw [heq] at hsane ⊢
  refine ⟨hsane, ?_, fun _ hall => ?_⟩
  · dsimp only
    rw [hcompletions, hannounced]
    exact h.completions
  · have hfound : (System.complete w d.torrent (.checked bits)).has p = true := hall p hpn
    rw [hkeeps.has] at hfound
    cases hhave.symm.trans hfound

end

theorem Reported.step (h : Reported d) (hpos : 0 < info.numPieces)
    (hleaves : d.leavesOne a = true) (hd : d.step sha1 a = some d') : Reported d' := by
  have hsane := h.toSane.step hd
  rcases step_cases hd with
    ⟨w, e, rfl, hallowed, henabled, rfl⟩ | ⟨w, i, c, rfl, hi, rfl⟩ | ⟨s, rfl, htorrent, -⟩
  · exact h.handle hpos hallowed henabled
  · exact h.deliver hi hleaves
  · refine ⟨hsane, h.completions, ?_⟩
    rw [htorrent]
    exact h.complete

/-- **If every check of the files leaves a piece to be found, a torrent with all its pieces has
called back once that it is complete**, and never more than once. -/
theorem completions_eq_one (hpos : 0 < info.numPieces) (known : Bool)
    (conns : Peer → PeerConnection) (content : Content)
    {actions : List (Action info.toLayout Peer)} {d : Download info Peer}
    (hrun : (init known conns content).run sha1 actions = some d)
    (hleaves : Runs.AllMeet (Download.step sha1)
      (fun (d : Download info Peer) a => d.leavesOne a = true) (init known conns content) actions) :
    d.completions ≤ 1 ∧
      (d.torrent.picker.isSome = true → (∀ p < info.numPieces, d.torrent.has p = true) →
        d.completions = 1) := by
  have hinit : Reported (init known conns content : Download info Peer) :=
    ⟨.init known conns content, rfl, nofun⟩
  have hreported : Reported d :=
    Runs.run_induction (fun _ _ _ hr hl hs => hr.step hpos hl hs) hinit hleaves hrun
  have hcompletions := hreported.completions
  refine ⟨?_, fun hsome hall => ?_⟩
  · rw [hcompletions]
    split_ifs <;> decide
  · rw [hcompletions, hreported.complete hsome hall]
    rfl

theorem completions_eq_one_done : done.torrent.has 0 = true ∧ done.completions = 1 :=
  ⟨by decide +kernel, (completions_eq_one (by decide) true (fun _ => .new 1) (fun _ => none)
    (some_get _).symm (by decide +kernel)).2 (by decide +kernel) (by decide +kernel)⟩

/-- The byte was not on disk at first and is there at the end, with nothing left to do for the disk;
the torrent has not called back. -/
theorem never_called_back : bare.system.content.byte oneByte 0 0 = none ∧
    (bare.run id overtaken).any (fun d => d.torrent.has 0 && d.system.tickets == [] &&
      d.completedAnnounced && d.completions == 0) = true := by
  decide +kernel

end Download

end Librats.BitTorrent
