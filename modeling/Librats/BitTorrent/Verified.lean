import Librats.BitTorrent.DiskIo

/-!
# Verified pieces

A piece counts as there once its hash has come back right; an unrequested block may be written in
between (`stale_hash_verifies`). Without that (`Tame`) the pieces that count as there are right on
disk. Every job that is not over holds a ticket, and a piece that is hashed has no blocks with
tickets (`Inv`).
-/

namespace Librats.BitTorrent

open List Option Torrent

/-! ## Tickets -/

/-- What a job queued, under way or reported but not acted on is about. -/
inductive Ticket
  | write (b : PieceBlock)
  | hash (piece : ℕ)
  | check
  deriving DecidableEq

def DiskJob.ticket : DiskJob → Ticket
  | .write piece offset _ => .write ⟨piece, offset / kBlockSize⟩
  | .hash piece => .hash piece
  | .check => .check

def Completion.ticket {H : Type} : Completion H → Ticket
  | .written b _ => .write b
  | .hashed piece _ _ => .hash piece
  | .checked _ => .check

def Task.ticket {H : Type} : Task H → Ticket
  | .write piece offset _ _ => .write ⟨piece, offset / kBlockSize⟩
  | .hash piece _ => .hash piece
  | .check _ _ => .check
  | .post c => c.ticket

theorem DiskJob.ticket_task {H : Type} (job : DiskJob) : (job.task : Task H).ticket = job.ticket := by
  cases job <;> rfl

/-- How the tickets of a torrent's jobs go together. -/
structure Ordered (g : Layout) (finished : PieceBlock → Bool) (tickets : List Ticket) : Prop where
  once : ∀ b, tickets.count (.write b) ≤ 1
  inRange : ∀ b, .write b ∈ tickets → b.block < g.blocksInPiece b.piece
  unfinished : ∀ b, .write b ∈ tickets → finished b = false
  apart : ∀ p, .hash p ∈ tickets → ∀ b, .write b ∈ tickets → b.piece ≠ p

namespace Ordered

variable {g : Layout} {finished finished' : PieceBlock → Bool} {tickets tickets' : List Ticket}

theorem nil : Ordered g finished [] :=
  ⟨fun _ => Nat.zero_le _, fun _ => nofun, fun _ => nofun, fun _ => nofun⟩

variable (h : Ordered g finished tickets)

include h

theorem mono (hsub : tickets'.Subperm tickets)
    (hfin : ∀ b, finished' b = true → finished b = true) : Ordered g finished' tickets' where
  once b := (hsub.count_le _).trans (h.once b)
  inRange b hb := h.inRange b (hsub.subset hb)
  unfinished b hb := by
    have hold := h.unfinished b (hsub.subset hb)
    cases hnew : finished' b with
    | false => rfl
    | true => rw [hfin b hnew] at hold; cases hold
  apart p hp b hb := h.apart p (hsub.subset hp) b (hsub.subset hb)

theorem giveUp (hfin : ∀ b, finished' b = true → finished b = true) : Ordered g finished' tickets :=
  h.mono (List.Subperm.refl _) hfin

theorem perm (hperm : tickets'.Perm tickets) : Ordered g finished tickets' :=
  h.mono hperm.subperm fun _ => id

/-- A block gets a ticket if it has none and neither it nor its piece is done with, a piece if none
of its blocks has. -/
theorem cons {k : Ticket}
    (hwrite : ∀ b, k = .write b → b.block < g.blocksInPiece b.piece ∧ finished b = false ∧
      .write b ∉ tickets ∧ .hash b.piece ∉ tickets)
    (hhash : ∀ p, k = .hash p → ∀ b, .write b ∈ tickets → b.piece ≠ p) :
    Ordered g finished (k :: tickets) where
  once b := by
    by_cases hb : k = .write b
    · rw [hb, count_cons_self, count_eq_zero.mpr (hwrite b hb).2.2.1]
    · rw [count_cons_of_ne hb]
      exact h.once b
  inRange b hb := (mem_cons.mp hb).elim (fun e => (hwrite b e.symm).1) (h.inRange b)
  unfinished b hb := (mem_cons.mp hb).elim (fun e => (hwrite b e.symm).2.1) (h.unfinished b)
  apart p hp b hb := by
    rcases mem_cons.mp hp with rfl | hold
    · exact hhash p rfl b (by simpa using hb)
    rcases mem_cons.mp hb with rfl | hb
    · rintro rfl
      exact (hwrite b rfl).2.2.2 hold
    · exact h.apart p hold b hb

omit h

theorem of_cons_write {b : PieceBlock} (h : Ordered g finished (.write b :: tickets))
    (hfin : ∀ b', finished' b' = true → finished b' = true ∨ b' = b) :
    Ordered g finished' tickets := by
  have hgone : Ticket.write b ∉ tickets := by
    have hcount := h.once b
    rw [count_cons_self] at hcount
    exact count_eq_zero.mp (by omega)
  have hrest := h.mono (sublist_cons_self _ _).subperm fun _ => id
  refine ⟨hrest.once, hrest.inRange, fun b' hb' => ?_, hrest.apart⟩
  rw [← Bool.not_eq_true]
  intro hnew
  rcases hfin b' hnew with hold | rfl
  · rw [hrest.unfinished b' hb'] at hold
    cases hold
  · exact hgone hb'

end Ordered

/-- The piece, the offset and the data of a PIECE message. -/
def Action.piece? {g : Layout} {Peer : Type} : Action g Peer → Option (ℕ × ℕ × Bytes)
  | .handle _ (.message _ (.piece piece offset data)) => some (piece, offset, data)
  | _ => none

/-! ## What is on disk -/

namespace Content

variable {H : Type} (info : TorrentInfo H)

/-- The files hold `l` at the start of the piece. -/
def Holds (content : Content) (piece : ℕ) (l : Bytes) : Prop :=
  ∀ k < l.length, content.byte info piece k = l[k]?

/-- What the files hold of the piece stays. -/
def Keeps (content content' : Content) (piece : ℕ) : Prop :=
  ∀ k byte, content.byte info piece k = some byte → content'.byte info piece k = some byte

variable {info} {content content' : Content} {piece : ℕ} {l : Bytes}

theorem Holds.keeps (h : content.Holds info piece l) (hkeeps : content.Keeps info content' piece) :
    content'.Holds info piece l := by
  intro k hk
  rw [getElem?_eq_getElem hk]
  exact hkeeps k _ (by rw [h k hk, getElem?_eq_getElem hk])

theorem holds_nil : content.Holds info piece [] := nofun

/-- What is written for one piece is in no place of another. -/
theorem keeps_write (hapart : info.PiecesApart) {p : ℕ} (hp : piece ≠ p) (offset : ℕ)
    (bytes : Bytes) : content.Keeps info (content.write info p offset bytes) piece := by
  induction bytes generalizing content offset with
  | nil => exact fun _ _ h => h
  | cons b bytes ih =>
    intro k byte hk
    rw [write]
    split
    · rename_i x hx
      refine ih (offset + 1) k byte ?_
      obtain ⟨y, hy, hbyte⟩ := bind_eq_some_iff.mp hk
      have hne : y ≠ x := by
        rintro rfl
        exact hp (hapart _ _ _ _ _ hy hx)
      exact bind_eq_some_iff.mpr ⟨y, hy, (Function.update_of_ne hne ..).trans hbyte⟩
    · exact ih (offset + 1) k byte hk

theorem getElem?_of_read {offset n : ℕ} (h : content.read info piece offset n = some l) :
    ∀ k < l.length, content.byte info piece (offset + k) = l[k]? := by
  induction n generalizing offset l with
  | zero =>
    rw [read, Option.some.injEq] at h
    exact h ▸ nofun
  | succ n ih =>
    rw [read] at h
    split at h
    · rename_i byte bytes hbyte hbytes
      cases h
      intro k hk
      cases k with
      | zero => exact hbyte
      | succ k =>
        rw [getElem?_cons_succ, ← ih hbytes k (by simpa using hk)]
        congr 1
        omega
    · cases h

theorem Holds.append_read {buf bytes : Bytes} (h : content.Holds info piece buf) {n : ℕ}
    (hread : content.read info piece buf.length n = some bytes) :
    content.Holds info piece (buf ++ bytes) := by
  intro k hk
  rw [getElem?_append]
  split_ifs with hlt
  · exact h k hlt
  · rw [length_append] at hk
    rw [← getElem?_of_read hread (k - buf.length) (by omega)]
    congr 1
    omega

end Content

section

variable {H : Type} (sha1 : Bytes → H) (info : TorrentInfo H)

/-- The files hold the piece, with digest `digest`. -/
def Content.Digest (content : Content) (piece : ℕ) (digest : H) : Prop :=
  ∃ l : Bytes, l.length = info.pieceSize piece ∧ content.Holds info piece l ∧ sha1 l = digest

/-- The files hold the piece the torrent file describes. -/
def Content.Good (content : Content) (piece : ℕ) : Prop :=
  content.Digest sha1 info piece (info.pieceHash piece)

variable {content content' : Content}

variable {sha1 info} in
theorem Content.Digest.keeps {piece : ℕ} {digest : H} (h : content.Digest sha1 info piece digest)
    (hkeeps : content.Keeps info content' piece) : content'.Digest sha1 info piece digest := by
  obtain ⟨l, hlen, hholds, hdigest⟩ := h
  exact ⟨l, hlen, hholds.keeps hkeeps, hdigest⟩

/-- The report is right about the files. -/
def Completion.Sound (content : Content) : Completion H → Prop
  | .written _ _ => True
  | .hashed piece ok digest => ok = true → content.Digest sha1 info piece digest
  | .checked bits => ∀ p, hasBit bits p = true → content.Good sha1 info p

/-- What the worker has read so far is what the files hold. -/
def Task.Sound (content : Content) : Task H → Prop
  | .write _ _ _ _ => True
  | .hash piece buf => content.Holds info piece buf
  | .check bits buf =>
    (∀ p, hasBit bits p = true → content.Good sha1 info p) ∧ content.Holds info bits.length buf
  | .post c => c.Sound sha1 info content

variable {sha1 info}

theorem Completion.Sound.keeps {c : Completion H} (h : c.Sound sha1 info content)
    (hhash : ∀ p, c.ticket = .hash p → content.Keeps info content' p)
    (hcheck : c.ticket = .check → ∀ p, content.Keeps info content' p) : c.Sound sha1 info content' := by
  cases c with
  | written b ok => trivial
  | hashed piece ok digest => exact fun hok => (h hok).keeps (hhash piece rfl)
  | checked bits => exact fun p hp => (h p hp).keeps (hcheck rfl p)

theorem Task.Sound.keeps {task : Task H} (h : task.Sound sha1 info content)
    (hhash : ∀ p, task.ticket = .hash p → content.Keeps info content' p)
    (hcheck : task.ticket = .check → ∀ p, content.Keeps info content' p) :
    task.Sound sha1 info content' := by
  cases task with
  | write piece offset data done => trivial
  | hash piece buf => exact Content.Holds.keeps h (hhash piece rfl)
  | check bits buf =>
    exact ⟨fun p hp => (h.1 p hp).keeps (hcheck rfl p), h.2.keeps (hcheck rfl _)⟩
  | post c => exact Completion.Sound.keeps h hhash hcheck

theorem DiskJob.sound_task (content : Content) (job : DiskJob) :
    (job.task : Task H).Sound sha1 info content := by
  cases job with
  | write piece offset data => trivial
  | hash piece => exact Content.holds_nil
  | check => exact ⟨fun p hp => by simp [hasBit] at hp, Content.holds_nil⟩

end

/-! ## The invariant -/

namespace System

variable {H : Type} {sha1 : Bytes → H} {info : TorrentInfo H} {Peer : Type}

/-- The tickets of the jobs queued, under way, or reported and not acted on. -/
def tickets (s : System info Peer) : List Ticket :=
  s.jobs.map DiskJob.ticket ++ (s.workers.map Task.ticket ++ s.posted.map Completion.ticket)

/-- A write to the piece at the offset is queued or under way. -/
def Writing (s : System info Peer) (piece offset : ℕ) : Prop :=
  (∃ data, .write piece offset data ∈ s.jobs) ∨
    ∃ data done, .write piece offset data done ∈ s.workers

variable {s s' : System info Peer} {piece offset i p n : ℕ} {old : Task H} {buf : Bytes}
    {job : DiskJob} {t : Torrent info Peer}

theorem Writing.ticket (h : s.Writing piece offset) :
    .write ⟨piece, offset / kBlockSize⟩ ∈ s.tickets := by
  rw [tickets, mem_append, mem_append]
  rcases h with ⟨data, hmem⟩ | ⟨data, done, hmem⟩
  · exact .inl (mem_map_of_mem hmem)
  · exact .inr (.inl (mem_map_of_mem hmem))

theorem ticket_mem_of_worker {task : Task H} (h : task ∈ s.workers) : task.ticket ∈ s.tickets := by
  simp only [tickets, mem_append]
  exact .inr (.inl (mem_map_of_mem h))

/-- What holds of a torrent and its disk at all times, if blocks are handed over with care. -/
structure Inv (sha1 : Bytes → H) (s : System info Peer) : Prop where
  drained : s.torrent.submitted = []
  stopped : s.torrent.running = false → s.torrent.picker = none
  idle : s.torrent.picker = none → s.jobs = [] ∧ s.workers = []
  ordered : Ordered info.toLayout s.torrent.finished s.tickets
  checking : .check ∈ s.tickets → ∀ p offset, ¬s.Writing p offset
  parked : ∀ p offset, s.store p offset ≠ none → s.Writing p offset
  tasks : ∀ task ∈ s.workers, task.Sound sha1 info s.content
  reports : ∀ c ∈ s.posted, c.Sound sha1 info s.content
  verified : ∀ p, s.torrent.has p = true →
    s.content.Good sha1 info p ∧ ∀ offset, ¬s.Writing p offset

theorem Inv.init (conns : Peer → PeerConnection) (content : Content) :
    Inv sha1 (System.init conns content : System info Peer) where
  drained := rfl
  stopped _ := rfl
  idle _ := ⟨rfl, rfl⟩
  ordered := Ordered.nil
  checking h := nomatch h
  parked _ _ h := absurd rfl h
  tasks _ h := nomatch h
  reports _ h := nomatch h
  verified _ h := nomatch h

/-! ### Steps of the workers -/

theorem Inv.setContent (h : Inv sha1 s) {content : Content}
    (hkeeps : ∀ p, (∀ offset, ¬s.Writing p offset) → s.content.Keeps info content p) :
    Inv sha1 { s with content := content } := by
  have hhash : ∀ p, Ticket.hash p ∈ s.tickets → s.content.Keeps info content p := fun p hp =>
    hkeeps p fun _ hw => h.ordered.apart p hp _ hw.ticket rfl
  have hcheck : Ticket.check ∈ s.tickets → ∀ p, s.content.Keeps info content p := fun hc p =>
    hkeeps p (h.checking hc p)
  refine { h with tasks := fun task ht => ?_, reports := fun c hc => ?_, verified := fun p hp => ?_ }
  · have hmem := ticket_mem_of_worker ht
    exact (h.tasks task ht).keeps (fun p e => hhash p (e ▸ hmem)) fun e => hcheck (e ▸ hmem)
  · have hmem : c.ticket ∈ s.tickets := by
      simp only [tickets, mem_append]
      exact .inr (.inr (mem_map_of_mem hc))
    exact (h.reports c hc).keeps (fun p e => hhash p (e ▸ hmem)) fun e => hcheck (e ▸ hmem)
  · obtain ⟨hgood, hnone⟩ := h.verified p hp
    exact ⟨hgood.keeps (hkeeps p hnone), hnone⟩

variable (new : Task H)

theorem tickets_setWorker (hi : s.workers[i]? = some old)
    (hticket : new.ticket = old.ticket) : (s.setWorker i new).tickets = s.tickets := by
  have hset : (s.workers.set i new).map Task.ticket = s.workers.map Task.ticket := by
    refine ext_getElem? fun k => ?_
    rw [getElem?_map, getElem?_map, getElem?_set]
    split_ifs with hk hlen
    · subst hk
      rw [hi, map_some, map_some, hticket]
    · subst hk
      rw [getElem?_eq_none (not_lt.mp hlen)]
    · rfl
  simp [tickets, setWorker, hset]

variable (h : Inv sha1 s) {store : StoreBuffer} {bits : List Bool} {c : Completion H}

include h

theorem Inv.setWorker (hi : s.workers[i]? = some old)
    (hticket : new.ticket = old.ticket) (hsound : new.Sound sha1 info s.content)
    (hnew : ∀ p offset data done, new = .write p offset data done → s.Writing p offset)
    (hstore : ∀ p offset, store p offset ≠ none → (s.setWorker i new).Writing p offset) :
    Inv sha1 { s.setWorker i new with store := store } := by
  have htickets := tickets_setWorker new hi hticket
  have hwriting : ∀ p offset, (s.setWorker i new).Writing p offset → s.Writing p offset := by
    rintro p offset (hjob | ⟨data, done, hmem⟩)
    · exact .inl hjob
    · rcases mem_or_eq_of_mem_set hmem with hold | hold
      · exact .inr ⟨data, done, hold⟩
      · exact hnew p offset data done hold.symm
  exact {
    drained := h.drained
    stopped := h.stopped
    idle := fun hp => ⟨(h.idle hp).1, by
      have hempty := (h.idle hp).2
      rw [hempty] at hi
      cases hi⟩
    ordered := (htickets ▸ h.ordered : Ordered _ _ (s.setWorker i new).tickets)
    checking := fun hc p offset hw =>
      h.checking (htickets ▸ hc) p offset (hwriting p offset hw)
    parked := hstore
    tasks := fun task ht => (mem_or_eq_of_mem_set ht).elim (h.tasks task) fun e => e ▸ hsound
    reports := h.reports
    verified := fun p hp => ⟨(h.verified p hp).1, fun offset hw =>
      (h.verified p hp).2 offset (hwriting p offset hw)⟩ }

omit h in
theorem Writing.setWorker {new : Task H} (h : s.Writing p offset) (hi : s.workers[i]? = some old)
    (hkeep : ∀ data done, old = .write p offset data done →
      ∃ data' done', new = .write p offset data' done') : (s.setWorker i new).Writing p offset := by
  rcases h with hjob | ⟨data, done, hmem⟩
  · exact .inl hjob
  right
  obtain ⟨j, hj⟩ := mem_iff_getElem?.mp hmem
  by_cases hij : i = j
  · subst hij
    obtain ⟨data', done', hnew⟩ := hkeep data done (Option.mem_unique hi hj)
    have hlen : i < s.workers.length := (List.getElem?_eq_some_iff.mp hi).1
    exact ⟨data', done', hnew ▸ mem_set hlen _⟩
  · refine ⟨data, done, mem_iff_getElem?.mpr ⟨j, ?_⟩⟩
    rwa [System.setWorker, getElem?_set_ne hij]

theorem Inv.write (hapart : info.PiecesApart) (hs : s.write i n = some s') : Inv sha1 s' := by
  rw [System.write] at hs
  split at hs
  · rename_i p offset data done hi
    split_ifs at hs
    cases hs
    have hw : s.Writing p offset := .inr ⟨data, done, mem_of_getElem? hi⟩
    have hkeeps (q : ℕ) (hq : ∀ offset, ¬s.Writing q offset) :
        s.content.Keeps info (s.content.write info p (offset + done) ((data.drop done).take n)) q := by
      refine Content.keeps_write hapart ?_ _ _
      rintro rfl
      exact hq offset hw
    refine (h.setContent hkeeps).setWorker (.write p offset data (done + n)) hi rfl trivial ?_
      fun q o hq => ?_
    · intro q o data' done' hnew
      cases hnew
      exact hw
    · refine Writing.setWorker (h.parked q o hq) hi fun data' done' hold => ?_
      cases hold
      exact ⟨data, done + n, rfl⟩
  · cases hs

theorem Inv.setReader (hi : s.workers[i]? = some old)
    (hticket : new.ticket = old.ticket) (hsound : new.Sound sha1 info s.content)
    (hold : ∀ p offset data done, old ≠ .write p offset data done)
    (hnew : ∀ p offset data done, new ≠ .write p offset data done) : Inv sha1 (s.setWorker i new) :=
  h.setWorker new hi hticket hsound (fun p offset data done e => absurd e (hnew p offset data done))
    fun p offset hp => (h.parked p offset hp).setWorker hi fun data done e =>
      absurd e (hold p offset data done)

omit h in
theorem holds_readMore {buf' : Bytes} (h : s.content.Holds info piece buf)
    (hread : s.readMore piece buf n = some buf') : s.content.Holds info piece buf' := by
  rw [readMore] at hread
  split_ifs at hread
  obtain ⟨bytes, hbytes, rfl⟩ := map_eq_some_iff.mp hread
  exact h.append_read hbytes

theorem Inv.read (hs : s.read i n = some s') : Inv sha1 s' := by
  rw [System.read] at hs
  split at hs
  · rename_i piece buf hi
    obtain ⟨buf', hbuf', rfl⟩ := map_eq_some_iff.mp hs
    have hsound := h.tasks _ (mem_of_getElem? hi)
    exact h.setReader (.hash piece buf') hi rfl (holds_readMore hsound hbuf') (by simp) (by simp)
  · rename_i bits buf hi
    split_ifs at hs
    obtain ⟨buf', hbuf', rfl⟩ := map_eq_some_iff.mp hs
    have hsound := h.tasks _ (mem_of_getElem? hi)
    exact h.setReader (.check bits buf') hi rfl ⟨hsound.1, holds_readMore hsound.2 hbuf'⟩ (by simp)
      (by simp)
  · cases hs

omit h in
theorem overlay_eq_self (h : ∀ offset, store piece offset = none)
    (buf : Bytes) : store.overlay piece buf = buf := by
  refine ext_getElem? fun k => ?_
  simp [StoreBuffer.overlay, h]

theorem Inv.store_eq_none (hhash : Ticket.hash piece ∈ s.tickets) (offset : ℕ) :
    s.store piece offset = none := by
  by_contra hne
  exact h.ordered.apart piece hhash _ (h.parked piece offset hne).ticket rfl

omit h in
theorem hasBit_append_singleton {bit : Bool} (h : hasBit (bits ++ [bit]) p = true) :
    hasBit bits p = true ∨ p = bits.length ∧ bit = true := by
  rw [hasBit, getElem?_append] at h
  split_ifs at h with hlt
  · exact .inl h
  · by_cases hp : p = bits.length
    · exact .inr ⟨hp, by simpa [hp] using h⟩
    · rw [getElem?_eq_none (by simp; omega)] at h
      cases h

theorem Inv.move {jobs : List DiskJob} {workers : List (Task H)} {posted : List (Completion H)}
    (hperm : { s with jobs := jobs, workers := workers, posted := posted }.tickets.Perm s.tickets)
    (hwriting : ∀ p offset,
      { s with jobs := jobs, workers := workers, posted := posted }.Writing p offset ↔
        s.Writing p offset) (hidle : s.torrent.picker ≠ none)
    (htasks : ∀ task ∈ workers, task.Sound sha1 info s.content)
    (hreports : ∀ c ∈ posted, c.Sound sha1 info s.content) :
    Inv sha1 { s with jobs := jobs, workers := workers, posted := posted } where
  drained := h.drained
  stopped := h.stopped
  idle hp := absurd hp hidle
  ordered := h.ordered.perm hperm
  checking hc p offset hw := h.checking (hperm.subset hc) p offset ((hwriting p offset).mp hw)
  parked p offset hp := (hwriting p offset).mpr (h.parked p offset hp)
  tasks := htasks
  reports := hreports
  verified p hp :=
    ⟨(h.verified p hp).1, fun offset hw => (h.verified p hp).2 offset ((hwriting p offset).mp hw)⟩

theorem Inv.take {rest : List DiskJob} (hjobs : s.jobs = job :: rest) :
    Inv sha1 { s with jobs := rest, workers := s.workers ++ [job.task] } := by
  refine h.move (perm_iff_count.mpr fun a => ?_) (fun p offset => ?_) (fun hp => ?_)
    (fun task ht => ?_) h.reports
  · simp only [tickets, hjobs, map_cons, map_append, map_nil, count_append,
      count_cons, count_nil, DiskJob.ticket_task]
    omega
  · simp only [Writing, hjobs, mem_cons, mem_append, not_mem_nil, or_false]
    constructor
    · rintro (⟨data, hmem⟩ | ⟨data, done, hmem | htask⟩)
      · exact .inl ⟨data, .inr hmem⟩
      · exact .inr ⟨data, done, hmem⟩
      · cases job with
        | write => cases htask; exact .inl ⟨data, .inl rfl⟩
        | hash | check => cases htask
    · rintro (⟨data, rfl | hmem⟩ | ⟨data, done, hmem⟩)
      · exact .inr ⟨data, 0, .inr rfl⟩
      · exact .inl ⟨data, hmem⟩
      · exact .inr ⟨data, done, .inl hmem⟩
  · rw [(h.idle hp).1] at hjobs
    cases hjobs
  · rcases mem_append.mp ht with ht | ht
    · exact h.tasks task ht
    · rw [mem_singleton.mp ht]
      exact job.sound_task s.content

theorem Inv.post (hi : s.workers[i]? = some (.post c)) :
    Inv sha1 { s with workers := s.workers.eraseIdx i, posted := s.posted ++ [c] } := by
  obtain ⟨hlen, hget⟩ := List.getElem?_eq_some_iff.mp hi
  have hperm : s.workers.Perm (.post c :: s.workers.eraseIdx i) := by
    rw [← hget]
    exact (getElem_cons_eraseIdx_perm hlen).symm
  refine h.move (perm_iff_count.mpr fun a => ?_) (fun p offset => ?_) (fun hp => ?_)
    (fun task ht => h.tasks task (mem_of_mem_eraseIdx ht)) (fun c' hc' => ?_)
  · have hcount := (hperm.map Task.ticket).count_eq a
    simp only [map_cons, Task.ticket] at hcount
    simp only [tickets, map_append, map_cons, map_nil, count_append, count_cons, count_nil, hcount]
    omega
  · have hmem (data : Bytes) (done : ℕ) : .write p offset data done ∈ s.workers.eraseIdx i ↔
        .write p offset data done ∈ s.workers := by
      rw [hperm.mem_iff, mem_cons, or_iff_right (by simp)]
    simp [Writing, hmem]
  · rw [(h.idle hp).2] at hi
    cases hi
  · rcases mem_append.mp hc' with hc' | hc'
    · exact h.reports c' hc'
    · rw [mem_singleton.mp hc']
      exact h.tasks _ (mem_of_getElem? hi)

theorem Inv.finishWrite {done : ℕ} {data : Bytes}
    (hi : s.workers[i]? = some (.write p offset data done)) (ok : Bool) :
    Inv sha1 { s.setWorker i (.post (.written ⟨p, offset / kBlockSize⟩ ok)) with
      store := s.store.erase p offset } := by
  refine h.setWorker (.post (.written ⟨p, offset / kBlockSize⟩ ok)) hi rfl trivial (by simp)
    fun q o hq => ?_
  obtain ⟨hold, hne⟩ := StoreBuffer.of_erase_ne_none hq
  refine (h.parked q o hold).setWorker hi fun data' done' e => ?_
  cases e
  exact absurd ⟨rfl, rfl⟩ hne

/-- Nothing is parked for the piece, so the digest is the one of the files. -/
theorem Inv.finishHash (hi : s.workers[i]? = some (.hash piece buf))
    (hlen : buf.length = info.pieceSize piece) :
    Inv sha1 (s.setWorker i (.post (.hashed piece true (sha1 (s.store.overlay piece buf))))) := by
  have hholds : s.content.Holds info piece buf := h.tasks _ (mem_of_getElem? hi)
  refine h.setReader (.post (.hashed piece true _)) hi rfl (fun _ => ⟨buf, hlen, hholds, ?_⟩)
    (by simp) (by simp)
  rw [overlay_eq_self (h.store_eq_none (ticket_mem_of_worker (mem_of_getElem? hi)))]

theorem Inv.finishPiece (hi : s.workers[i]? = some (.check bits buf)) {bit : Bool}
    (hbit : bit = true → s.content.Good sha1 info bits.length) :
    Inv sha1 (s.setWorker i (.check (bits ++ [bit]) [])) := by
  have hsound := h.tasks _ (mem_of_getElem? hi)
  refine h.setReader (.check (bits ++ [bit]) []) hi rfl ⟨fun p hp => ?_, Content.holds_nil⟩
    (by simp) (by simp)
  rcases hasBit_append_singleton hp with hold | ⟨rfl, hnew⟩
  · exact hsound.1 p hold
  · exact hbit hnew

theorem Inv.finish [DecidableEq H] [Inhabited H] {ok : Bool}
    (hs : s.finish sha1 i ok = some s') : Inv sha1 s' := by
  rw [System.finish] at hs
  split at hs
  · rename_i p offset data done hi
    split_ifs at hs
    cases hs
    exact h.finishWrite hi ok
  · rename_i piece buf hi
    split_ifs at hs with hok hlen
    · cases hs
      exact h.setReader (.post (.hashed piece false default)) hi rfl nofun (by simp) (by simp)
    · cases hs
      exact h.finishHash hi hlen
  · rename_i bits buf hi
    have hsound := h.tasks _ (mem_of_getElem? hi)
    split_ifs at hs with hdone hok hlen
    · cases hs
      exact h.setReader (.post (.checked bits)) hi rfl hsound.1 (by simp) (by simp)
    · cases hs
      exact h.finishPiece hi nofun
    · cases hs
      exact h.finishPiece hi fun hhash => ⟨buf, hlen, hsound.2, beq_iff_eq.mp hhash⟩
  · cases hs

/-! ### Steps of the torrent -/

theorem Inv.setTorrent (hdrained : t.submitted = [])
    (hstopped : t.running = false → t.picker = none)
    (hidle : t.picker = none → s.jobs = [] ∧ s.workers = [])
    (hordered : Ordered info.toLayout t.finished s.tickets)
    (hhas : ∀ p, t.has p = true → s.torrent.has p = true ∨
      s.content.Good sha1 info p ∧ ∀ offset, ¬s.Writing p offset) :
    Inv sha1 { s with torrent := t } where
  drained := hdrained
  stopped := hstopped
  idle := hidle
  ordered := hordered
  checking := h.checking
  parked := h.parked
  tasks := h.tasks
  reports := h.reports
  verified p hp := (hhas p hp).elim (h.verified p) id

omit h

/-- A job is handed to the disk. -/
def enqueue (s : System info Peer) (job : DiskJob) : System info Peer :=
  { s with jobs := s.jobs ++ [job], store := s.store.park job }

theorem tickets_enqueue (s : System info Peer) (job : DiskJob) :
    (s.enqueue job).tickets.Perm (job.ticket :: s.tickets) := by
  refine perm_iff_count.mpr fun a => ?_
  simp only [tickets, enqueue, map_append, map_cons, map_nil, count_append, count_cons, count_nil]
  omega

theorem writing_enqueue :
    (s.enqueue job).Writing p offset ↔ s.Writing p offset ∨ ∃ data, job = .write p offset data := by
  simp only [Writing, enqueue, mem_append, mem_singleton, exists_or]
  constructor
  · rintro ((hmem | ⟨data, rfl⟩) | hmem)
    · exact .inl (.inl hmem)
    · exact .inr ⟨data, rfl⟩
    · exact .inl (.inr hmem)
  · rintro ((hmem | hmem) | ⟨data, rfl⟩)
    · exact .inl (.inl hmem)
    · exact .inr hmem
    · exact .inl (.inr ⟨data, rfl⟩)

/-- A job may be queued if its ticket goes with the others and it writes nothing that is checked or
there. -/
theorem Inv.enqueue (h : Inv sha1 s) (hsome : s.torrent.picker ≠ none)
    (hordered : Ordered info.toLayout s.torrent.finished (job.ticket :: s.tickets))
    (hcheck : job = .check → ∀ p offset, ¬s.Writing p offset)
    (hwrite : ∀ p offset data, job = .write p offset data →
      .check ∉ s.tickets ∧ s.torrent.has p = false) : Inv sha1 (s.enqueue job) where
  drained := h.drained
  stopped := h.stopped
  idle hp := absurd hp hsome
  ordered := hordered.perm (tickets_enqueue s job)
  checking hc p offset hw := by
    rcases writing_enqueue.mp hw with hold | ⟨data, rfl⟩
    · rcases mem_cons.mp ((tickets_enqueue s job).subset hc) with hjob | hc
      · cases job with
        | write | hash => cases hjob
        | check => exact hcheck rfl p offset hold
      · exact h.checking hc p offset hold
    · have hold : Ticket.check ∈ s.tickets := by
        simpa [DiskJob.ticket] using (tickets_enqueue s _).subset hc
      exact (hwrite p offset data rfl).1 hold
  parked p offset hp := by
    rw [writing_enqueue]
    cases job with
    | write p' offset' data =>
      rcases StoreBuffer.of_insert_ne_none hp with hold | ⟨rfl, rfl⟩
      · exact .inl (h.parked p offset hold)
      · exact .inr ⟨data, rfl⟩
    | hash | check => exact .inl (h.parked p offset hp)
  tasks := h.tasks
  reports := h.reports
  verified p hp := by
    obtain ⟨hgood, hnone⟩ := h.verified p hp
    refine ⟨hgood, fun offset hw => ?_⟩
    rcases writing_enqueue.mp hw with hold | ⟨data, rfl⟩
    · exact hnone offset hold
    · cases hp.symm.trans (hwrite p offset data rfl).2

theorem drain_eq (h : t.submitted = []) : { t with submitted := [] } = t := by
  cases t
  cases h
  rfl

theorem foldl_enqueue (l : List DiskJob) (s : System info Peer) :
    l.foldl enqueue s = { s with jobs := s.jobs ++ l, store := l.foldl StoreBuffer.park s.store } := by
  induction l generalizing s with
  | nil => simp
  | cons job l ih =>
    rw [foldl_cons, ih]
    simp [System.enqueue]

section

variable (hsome : t.picker.isSome = true)

include hsome

theorem absorb_eq :
    s.absorb t = t.submitted.foldl enqueue { s with torrent := { t with submitted := [] } } := by
  rw [foldl_enqueue, absorb, if_pos hsome]

theorem absorb_of_nil (hnil : t.submitted = []) : s.absorb t = { s with torrent := t } := by
  rw [absorb_eq hsome, hnil, foldl_nil, drain_eq hnil]

theorem absorb_submit (hnil : t.submitted = []) :
    s.absorb (t.submit job) = { s with torrent := t }.enqueue job := by
  have hsubmit : (t.submit job).submitted = [job] := by
    rw [submit, hnil]
    rfl
  have hsome' : (t.submit job).picker.isSome = true := hsome
  have htorrent : { t.submit job with submitted := [] } = t := drain_eq hnil
  rw [absorb_eq hsome', hsubmit, foldl_cons, foldl_nil, htorrent]

end

theorem Inv.absorb_of_none (h : Inv sha1 { s with torrent := t }) (hnone : t.picker = none)
    (hnil : t.submitted = []) : Inv sha1 (s.absorb t) := by
  have heq : s.absorb t = { s with torrent := t, store := .empty } := by
    rw [absorb, drain_eq hnil, hnil, append_nil, if_neg (by simp [hnone])]
  rw [heq]
  exact { h with parked := fun p offset hne => absurd rfl hne }

theorem Inv.absorb_quiet {t' : Torrent info Peer} (h : Inv sha1 (s.absorb t))
    (hquiet : t.Quiet t') : Inv sha1 (s.absorb t') := by
  have hnone : t'.picker = none ↔ t.picker = none := by
    rw [← isNone_iff_eq_none, ← isNone_iff_eq_none, ← not_isSome, ← not_isSome, hquiet.isSome]
  have heq : s.absorb t' = { s.absorb t with torrent := { t' with submitted := [] } } := by
    simp [absorb, hquiet.isSome, hquiet.submitted]
  rw [heq]
  refine h.setTorrent rfl (fun hr => hnone.mpr (h.stopped ?_)) (fun hp => h.idle (hnone.mp hp))
    (h.ordered.giveUp hquiet.finished) (fun p hp => .inl ?_)
  · exact hquiet.running.symm.trans hr
  · exact (congrFun hquiet.has p).symm.trans hp

theorem Inv.quiet (h : Inv sha1 s) (hquiet : s.torrent.Quiet t) : Inv sha1 (s.absorb t) := by
  refine Inv.absorb_quiet ?_ hquiet
  cases hp : s.torrent.picker with
  | some picker =>
    rwa [absorb_of_nil (by rw [hp]; rfl) h.drained]
  | none => exact Inv.absorb_of_none h hp h.drained

/-! ### Acting on a report -/

theorem Inv.unpost (h : Inv sha1 s) (i : ℕ) :
    Inv sha1 { s with posted := s.posted.eraseIdx i } := by
  have hsub : { s with posted := s.posted.eraseIdx i }.tickets.Sublist s.tickets :=
    (((eraseIdx_sublist ..).map _).append_left _).append_left _
  exact { h with
    ordered := h.ordered.mono hsub.subperm fun _ => id
    checking := fun hc => h.checking (hsub.subset hc)
    reports := fun c hc => h.reports c (mem_of_mem_eraseIdx hc) }

theorem tickets_unpost (hi : s.posted[i]? = some c) :
    s.tickets.Perm (c.ticket :: { s with posted := s.posted.eraseIdx i }.tickets) := by
  obtain ⟨hlen, hget⟩ := List.getElem?_eq_some_iff.mp hi
  have hperm : (c :: s.posted.eraseIdx i).Perm s.posted := hget ▸ getElem_cons_eraseIdx_perm hlen
  refine perm_iff_count.mpr fun a => ?_
  have hcount := (hperm.map Completion.ticket).count_eq a
  simp only [map_cons] at hcount
  simp only [tickets, count_append, count_cons, ← hcount]
  omega

/-- The block of a write gets finished, and its piece hashed if it was the last. -/
theorem Inv.settle (h : Inv sha1 s) {b : PieceBlock}
    (hordered : Ordered info.toLayout s.torrent.finished (.write b :: s.tickets))
    {picker : PiecePicker info.toLayout Peer} (hp : s.torrent.picker = some picker) :
    Inv sha1 (s.absorb (s.torrent.settle picker b)) := by
  have hmarked : Inv sha1 { s with torrent := s.torrent.setPicker (picker.markFinished b).2 } := by
    refine h.setTorrent h.drained (fun hr => ?_) (by rintro ⟨⟩)
      (hordered.of_cons_write fun b' hb' => ?_) fun p hp' => .inl ?_
    · rw [h.stopped hr] at hp
      cases hp
    · rw [finished, hp]
      exact PiecePicker.finished_markFinished hb'
    · rwa [has, hp]
  rw [Torrent.settle]
  split_ifs with hcomplete
  · rw [absorb_submit (t := s.torrent.setPicker (picker.markFinished b).2) rfl h.drained]
    refine hmarked.enqueue (by rintro ⟨⟩) (hmarked.ordered.cons (by rintro _ ⟨⟩) fun p hp => ?_)
      (by simp) (by simp)
    obtain rfl := Ticket.hash.inj hp
    -- every block of the piece is finished, so none has a ticket
    rintro b' hb' hpiece
    have hrange := hmarked.ordered.inRange b' hb'
    have hunfinished := hmarked.ordered.unfinished b' hb'
    rw [hpiece] at hrange
    have hfinished := PiecePicker.finished_of_markFinished hcomplete hrange
    rw [← hpiece] at hfinished
    cases hunfinished.symm.trans hfinished
  · rwa [absorb_of_nil (t := s.torrent.setPicker (picker.markFinished b).2) rfl h.drained]

theorem Inv.setHave (h : Inv sha1 s) {picker picker' : PiecePicker info.toLayout Peer}
    (hp : s.torrent.picker = some picker)
    (hfin : ∀ b, picker'.finished b = true → picker.finished b = true)
    (hhave : ∀ p, picker'.havePiece p = true → picker.havePiece p = true ∨
      s.content.Good sha1 info p ∧ ∀ offset, ¬s.Writing p offset) :
    Inv sha1 (s.absorb (s.torrent.setPicker picker')) := by
  rw [absorb_of_nil (t := s.torrent.setPicker picker') rfl h.drained]
  refine h.setTorrent h.drained (fun hr => ?_) nofun (h.ordered.giveUp fun b hb => ?_)
    fun p hp' => ?_
  · rw [h.stopped hr] at hp
    cases hp
  · rw [finished, hp]
    exact hfin b hb
  · rw [has, hp]
    exact hhave p hp'

section

variable [DecidableEq Peer] (w : World info.toLayout Peer)

theorem Inv.written (h : Inv sha1 s) {b : PieceBlock}
    (hordered : Ordered info.toLayout s.torrent.finished (.write b :: s.tickets)) (ok : Bool) :
    Inv sha1 (s.absorb (s.torrent.onBlockWritten w b ok)) := by
  rcases s.torrent.onBlockWritten_cases w b ok with hquiet | ⟨picker, hp, hquiet⟩
  · exact h.quiet hquiet
  · exact (h.settle hordered hp).absorb_quiet hquiet

theorem Inv.hashed [DecidableEq H] (h : Inv sha1 s) {piece : ℕ} {ok : Bool} {hash : H}
    (hsound : ok = true → s.content.Digest sha1 info piece hash)
    (hnone : ∀ offset, ¬s.Writing piece offset) :
    Inv sha1 (s.absorb (s.torrent.onPieceHashed w piece ok hash)) := by
  rcases s.torrent.onPieceHashed_cases w piece ok hash with
    ⟨-, hquiet⟩ | ⟨picker, -, hp, hok, hhash, hquiet⟩
  · exact h.quiet hquiet
  refine (h.setHave hp (fun b hb => PiecePicker.finished_weHave hb) fun p hhave => ?_).absorb_quiet
    hquiet
  rw [PiecePicker.havePiece, PiecePicker.haveBits_weHave, Bool.or_eq_true,
    decide_eq_true_iff] at hhave
  refine hhave.imp_right ?_
  rintro rfl
  refine ⟨?_, hnone⟩
  rw [Content.Good, ← hhash]
  exact hsound hok

theorem Inv.checked (h : Inv sha1 s) {bits : List Bool}
    (hsound : ∀ p, hasBit bits p = true → s.content.Good sha1 info p)
    (hnone : ∀ p offset, ¬s.Writing p offset) :
    Inv sha1 (s.absorb (s.torrent.onCheckComplete w bits)) := by
  rcases s.torrent.onCheckComplete_cases w bits with ⟨-, heq⟩ | ⟨picker, hp, -, hquiet⟩
  · rw [heq]
    exact h.quiet (.refl _)
  · refine (h.setHave hp (fun b hb => PiecePicker.finished_setHaveBitfield hb) fun p hhave =>
      ?_).absorb_quiet hquiet
    exact (PiecePicker.haveBits_setHaveBitfield hhave).imp_right fun hbit =>
      ⟨hsound p hbit, hnone p⟩

theorem Inv.deliver [DecidableEq H] (h : Inv sha1 s) {i : ℕ} {c : Completion H}
    (hi : s.posted[i]? = some c) :
    Inv sha1 ({ s with posted := s.posted.eraseIdx i }.absorb (complete w s.torrent c)) := by
  have hperm := tickets_unpost hi
  have hticket : c.ticket ∈ s.tickets := hperm.symm.subset (.head _)
  have hsound := h.reports c (mem_of_getElem? hi)
  cases c with
  | written b ok => exact (h.unpost i).written w (h.ordered.perm hperm.symm) ok
  | hashed piece ok hash =>
    exact (h.unpost i).hashed w hsound fun offset hw =>
      h.ordered.apart piece hticket _ (Writing.ticket hw) rfl
  | checked bits => exact (h.unpost i).checked w hsound (h.checking hticket)

end

/-! ### Events -/

/-- A block is handed to the disk only if no file check is going on, its piece is not being hashed,
no write of it is outstanding and it is not finished. -/
def Tame (s : System info Peer) (a : Action info.toLayout Peer) : Prop :=
  ∀ m ∈ a.piece?, s.torrent.picker.isSome = true → Torrent.WellFormed info m.1 m.2.1 m.2.2 →
    s.torrent.has m.1 = false → .check ∉ s.tickets ∧ .hash m.1 ∉ s.tickets ∧
        .write ⟨m.1, m.2.1 / kBlockSize⟩ ∉ s.tickets ∧
        s.torrent.finished ⟨m.1, m.2.1 / kBlockSize⟩ = false

instance (s : System info Peer) (a : Action info.toLayout Peer) : Decidable (s.Tame a) :=
  inferInstanceAs (Decidable (∀ m ∈ a.piece?, _))

theorem Inv.check (h : Inv sha1 s) {t₁ : Torrent info Peer} (hnone : s.torrent.picker = none)
    (hnil : t.submitted = []) (hrunning : t.running = true) (hquiet : (t.setPicker .new).Quiet t₁) :
    Inv sha1 (s.absorb (t₁.submit .check)) := by
  have hnew : Inv sha1 { s with torrent := t.setPicker .new } := by
    refine h.setTorrent hnil (fun hr => ?_) nofun (h.ordered.giveUp nofun) nofun
    cases hr.symm.trans hrunning
  have hwriting (p offset : ℕ) : ¬s.Writing p offset := by
    simp [Writing, h.idle hnone]
  have hsome₁ : t₁.picker.isSome = true := hquiet.isSome
  have hnil₁ : t₁.submitted = [] := hquiet.submitted.trans hnil
  rw [← absorb_of_nil (t := t.setPicker .new) rfl hnil] at hnew
  have h₁ : Inv sha1 { s with torrent := t₁ } := absorb_of_nil hsome₁ hnil₁ ▸ hnew.absorb_quiet hquiet
  rw [absorb_submit hsome₁ hnil₁]
  exact h₁.enqueue (isSome_iff_ne_none.mp hsome₁) (h₁.ordered.cons nofun nofun)
    (fun _ => hwriting) (by simp)

theorem Inv.start (h : Inv sha1 s) (hasMetadata : Bool) :
    Inv sha1 (s.absorb (s.torrent.start hasMetadata)) := by
  rw [Torrent.start]
  split_ifs with hrunning hmeta
  · exact h.quiet (.refl _)
  · have hnone := h.stopped (Bool.not_eq_true _ ▸ hrunning)
    exact h.check (t := { s.torrent with running := true }) hnone h.drained rfl (.refl _)
  · have hnone := h.stopped (Bool.not_eq_true _ ▸ hrunning)
    refine Inv.absorb_of_none (h.setTorrent h.drained (fun _ => hnone) h.idle h.ordered
      fun p hp => .inl hp) hnone h.drained

section

variable [DecidableEq Peer] (w : World info.toLayout Peer)

theorem Inv.onPiece (h : Inv sha1 s) {pc : Peer} {piece offset : ℕ} {data : Bytes}
    (htame : s.Tame (.handle w (.message pc (.piece piece offset data)))) :
    Inv sha1 (s.absorb (s.torrent.onPiece w pc piece offset data)) := by
  rcases s.torrent.onPiece_cases w pc piece offset data with
    ⟨hquiet, -⟩ | ⟨⟨hsome, hwf, hhas⟩, t₁, hquiet₁, hquiet₂⟩
  · exact h.quiet hquiet
  obtain ⟨hcheck, hhash, hfree, hfin⟩ := htame (piece, offset, data) rfl hsome hwf hhas
  have hsome₁ : t₁.picker.isSome = true := hquiet₁.isSome.trans hsome
  have hnil₁ : t₁.submitted = [] := hquiet₁.submitted.trans h.drained
  have h₁ : Inv sha1 { s with torrent := t₁ } := absorb_of_nil hsome₁ hnil₁ ▸ h.quiet hquiet₁
  have hfin₁ : t₁.finished ⟨piece, offset / kBlockSize⟩ = false := by
    rw [← Bool.not_eq_true]
    intro hnew
    cases hfin.symm.trans (hquiet₁.finished _ hnew)
  refine Inv.absorb_quiet ?_ hquiet₂
  rw [absorb_submit hsome₁ hnil₁]
  refine h₁.enqueue (isSome_iff_ne_none.mp hsome₁) (h₁.ordered.cons (fun b hb => ?_) nofun)
    (by simp) fun p o d hjob => ?_
  · cases hb
    exact ⟨Layout.div_lt_blocksInPiece hwf.2.2.1, hfin₁, hfree, hhash⟩
  · cases hjob
    exact ⟨hcheck, (congrFun hquiet₁.has piece).trans hhas⟩

theorem Inv.stop (h : Inv sha1 s) (hjobs : s.jobs = []) (hworkers : s.workers = []) :
    Inv sha1 (s.absorb s.torrent.stop) := by
  rw [Torrent.stop]
  split_ifs with hrunning
  · exact h.quiet (.refl _)
  · have hnil : ({ s.torrent with running := false, paused := false }.dropPeers).submitted = [] :=
      (quiet_dropPeers _).submitted.trans h.drained
    refine Inv.absorb_of_none (h.setTorrent hnil (fun _ => rfl) (fun _ => ⟨hjobs, hworkers⟩)
      (h.ordered.giveUp nofun) nofun) rfl hnil

theorem Inv.handle (h : Inv sha1 s) {e : Event Peer} (henabled : s.enabled e = true)
    (htame : s.Tame (.handle w e)) : Inv sha1 (s.absorb (s.torrent.handle w e)) := by
  cases e with
  | handshake pc numPieces => exact h.quiet ((quiet_onHandshake _ pc).after rfl rfl rfl)
  | unanswered pc numPieces =>
    exact h.quiet (((quiet_close _ pc).trans (quiet_onHandshake _ pc)).after rfl rfl rfl)
  | message pc m =>
    by_cases hm : ∃ piece offset data, m = .piece piece offset data
    · obtain ⟨piece, offset, data, rfl⟩ := hm
      exact h.onPiece w htame
    · refine h.quiet (quiet_dispatch w _ pc fun piece offset data e => ?_)
      exact hm ⟨piece, offset, data, e⟩
  | drop pc => exact h.quiet (quiet_close _ pc)
  | breaks pc => exact h.quiet (.of_eq rfl rfl rfl)
  | timeouts stalled => exact h.quiet (quiet_checkRequestTimeouts w _ stalled)
  | pause => exact h.quiet (quiet_pause _)
  | resume => exact h.quiet (quiet_resume _)
  | start hasMetadata => exact h.start hasMetadata
  | promote =>
    rw [enabled, Bool.and_eq_true, isNone_iff_eq_none] at henabled
    obtain ⟨t₁, hquiet, heq⟩ := quiet_promote w s.torrent
    rw [Torrent.handle, heq]
    exact h.check henabled.2 h.drained henabled.1 hquiet
  | stop =>
    rw [enabled, Bool.and_eq_true, List.isEmpty_iff, List.isEmpty_iff] at henabled
    exact h.stop henabled.1 henabled.2

end

/-! ## Runs -/

section

variable [DecidableEq Peer] [DecidableEq H] [Inhabited H]

theorem Inv.step {s s' : System info Peer} (h : Inv sha1 s) {a : Action info.toLayout Peer}
    (hapart : info.PiecesApart) (htame : s.Tame a) (hs : s.step sha1 a = some s') : Inv sha1 s' := by
  cases a with
  | handle w e =>
    rw [System.step] at hs
    split_ifs at hs with henabled
    cases hs
    exact h.handle w henabled htame
  | deliver w i =>
    rw [System.step] at hs
    split at hs
    · rename_i c hi
      cases hs
      exact h.deliver w hi
    · cases hs
  | take =>
    rw [System.step] at hs
    split at hs
    · rename_i job rest hjobs
      split_ifs at hs
      cases hs
      exact h.take hjobs
    · cases hs
  | write i n => exact h.write hapart hs
  | read i n => exact h.read hs
  | finish i ok => exact h.finish hs
  | post i =>
    rw [System.step] at hs
    split at hs
    · rename_i c hi
      cases hs
      exact h.post hi
    · cases hs
  | extend grown =>
    cases hs
    refine h.setContent fun p _ k byte hk => ?_
    obtain ⟨x, hx, hbyte⟩ := bind_eq_some_iff.mp hk
    exact bind_eq_some_iff.mpr ⟨x, hx, by simp [Content.extend, hbyte]⟩

/-- Every step of the run hands over blocks with care. -/
def AllTame (sha1 : Bytes → H) (s : System info Peer) : List (Action info.toLayout Peer) → Prop
  | [] => True
  | a :: actions => s.Tame a ∧ ∀ s' ∈ s.step sha1 a, AllTame sha1 s' actions

instance decidableAllTame : ∀ (s : System info Peer) (actions : List (Action info.toLayout Peer)),
    Decidable (s.AllTame sha1 actions)
  | _, [] => inferInstanceAs (Decidable True)
  | _, _ :: actions =>
    have : DecidablePred fun s' : System info Peer => s'.AllTame sha1 actions :=
      fun s' => decidableAllTame s' actions
    inferInstanceAs (Decidable (_ ∧ _))

theorem Inv.run {s s' : System info Peer} {actions : List (Action info.toLayout Peer)}
    (h : Inv sha1 s) (hapart : info.PiecesApart) (htame : s.AllTame sha1 actions)
    (hs : s.run sha1 actions = some s') : Inv sha1 s' := by
  induction actions generalizing s with
  | nil =>
    cases hs
    exact h
  | cons a actions ih =>
    obtain ⟨s₁, hs₁, hs⟩ := bind_eq_some_iff.mp hs
    exact ih (h.step hapart htame.1 hs₁) (htame.2 s₁ hs₁) hs

/-- **In every run that hands over blocks with care, a piece that counts as there is right on
disk**, whatever the files held at the start, if no two pieces have a place in common. -/
theorem verified_of_tame (hapart : info.PiecesApart) (conns : Peer → PeerConnection)
    (content : Content)
    {actions : List (Action info.toLayout Peer)} {s : System info Peer}
    (hrun : (System.init conns content).run sha1 actions = some s)
    (htame : (System.init conns content : System info Peer).AllTame sha1 actions) {piece : ℕ}
    (hhas : s.torrent.has piece = true) : s.content.Good sha1 info piece :=
  (((Inv.init conns content).run hapart htame hrun).verified piece hhas).1

end

/-! ## A block that comes too late -/

/-- The block is requested from whoever may be asked, as long as it is free. -/
def plain : World oneByte.toLayout ℕ where
  pickBlocks _ picker _ _ _ := if picker.blockState ⟨0, 0⟩ = .none then [⟨0, 0⟩] else []
  overHighWater _ := false

theorem oneByte_apart : oneByte.PiecesApart := by
  intro p k q l x hp hq
  simp only [oneByte] at hp hq
  split_ifs at hp hq with hzero hzero'
  rw [hzero.1, hzero'.1]

/-- A torrent without files, and the jobs of a block until its piece has been hashed. -/
def fresh : System oneByte ℕ := System.init (fun _ => .new 1) fun _ => none

def begins : List (Action oneByte.toLayout ℕ) :=
  [.handle plain (.start true), .take, .finish 0 false, .finish 0 true, .post 0, .deliver plain 0,
    .handle plain (.handshake 0 1), .handle plain (.message 0 (.bitfield [128])),
    .handle plain (.message 0 .unchoke), .handle plain (.message 0 (.piece 0 0 [7])),
    .take, .write 0 1, .finish 0 true, .post 0, .deliver plain 0,
    .take, .read 0 1, .finish 0 true, .post 0]

theorem verified_of_tame_oneByte :
    (((fresh.run id (begins ++ [.deliver plain 0])).get (by decide +kernel)).content).Good id
      oneByte 0 :=
  verified_of_tame oneByte_apart (fun _ => .new 1) (fun _ => none) (some_get _).symm
    (by decide +kernel) (by decide +kernel)

/-- The piece has been hashed when the peer sends the block again, with other data; it is found
verified before the second write is done. -/
def lateBlock : List (Action oneByte.toLayout ℕ) :=
  begins ++ [.handle plain (.message 0 (.piece 0 0 [9])), .deliver plain 0,
      .take, .write 0 1, .finish 0 true, .post 0, .deliver plain 0,
      .take, .read 0 1, .finish 0 true, .post 0, .deliver plain 0]

/-- A piece counts as there, nothing is pending, and the files hold something else. -/
theorem stale_hash_verifies :
    ∃ s, fresh.run id lateBlock = some s ∧ s.torrent.has 0 = true ∧ s.tickets = [] ∧
      ¬s.content.Good id oneByte 0 := by
  have hrun : (fresh.run id lateBlock).any (fun s =>
      s.torrent.has 0 && s.tickets == [] && s.content.byte oneByte 0 0 == some 9) = true := by
    decide +kernel
  obtain ⟨s, hs⟩ : ∃ s, fresh.run id lateBlock = some s :=
    isSome_iff_exists.mp (by decide +kernel)
  rw [hs, any_some] at hrun
  simp only [Bool.and_eq_true, beq_iff_eq] at hrun
  refine ⟨s, hs, hrun.1.1, hrun.1.2, ?_⟩
  rintro ⟨l, -, hholds, hl⟩
  have hseven : s.content.byte oneByte 0 0 = some 7 := by
    rw [show l = [7] from hl] at hholds
    exact hholds 0 (by decide)
  cases hseven.symm.trans hrun.2

end System

end Librats.BitTorrent
