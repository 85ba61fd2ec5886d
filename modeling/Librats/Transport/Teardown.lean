import Librats.Transport.Reactor

/-!
# Which connections the reactor tears down

A connection is removed because its socket is marked in `pending_close_`. The marks go by socket
number: one that stays behind when the socket is closed hits the newcomer that gets the number
(`stale_mark_removes_newcomer`). `Sound` is the invariant of the runs without that.
-/

namespace Librats

open List Option AList Reactor

/-- The connection an event is a reason to close. -/
def Event.cause : Event → Option ConnId
  | .closeCalled id | .handlerFailed id | .timerFired id => some id
  | .adopted _ _ | .removed _ => none

/-- There was a reason to close `id` since it was adopted. -/
def HasCause (id : ConnId) : List Event → Prop
  | [] => False
  | .adopted i _ :: past => i ≠ id ∧ HasCause id past
  | e :: past => e.cause = some id ∨ HasCause id past

/-- Every removal had a reason. -/
def RemovalsCaused : List Event → Prop
  | [] => True
  | .removed id :: past => HasCause id past ∧ RemovalsCaused past
  | _ :: past => RemovalsCaused past

variable {e : Event} {past : List Event}

theorem HasCause.of_cause {id : ConnId} (h : e.cause = some id) (past : List Event) :
    HasCause id (e :: past) := by
  cases e with
  | adopted | removed => cases h
  | closeCalled | handlerFailed | timerFired => exact .inl h

theorem HasCause.cons {id : ConnId} (h : HasCause id past)
    (he : ∀ sock, e ≠ .adopted id sock) : HasCause id (e :: past) := by
  cases e with
  | adopted i sock => exact ⟨fun hi => he sock (by rw [hi]), h⟩
  | closeCalled | handlerFailed | timerFired | removed => exact .inr h

theorem RemovalsCaused.cons (h : RemovalsCaused past)
    (he : ∀ id, e = .removed id → HasCause id past) : RemovalsCaused (e :: past) := by
  cases e with
  | removed id => exact ⟨he id rfl, h⟩
  | adopted | closeCalled | handlerFailed | timerFired => exact h

namespace Reactor

variable {σ H S I : Type}

/-- The invariant, with the sockets that are still to be removed in the running batch. -/
structure Sound (batch : List Socket) (r : Reactor σ H S I) : Prop where
  ids : ∀ id sock, r.idToSocket.lookup id = some sock →
    ∃ c, r.conns.lookup sock = some c ∧ c.id = id
  fresh : ∀ sock c, r.conns.lookup sock = some c → c.id < r.nextConnId
  timers : ∀ tid t, r.timers.lookup tid = some t →
    ∃ c, r.conns.lookup t.sock = some c ∧ c.id = t.owner ∧ c.establishTimer = some tid
  marks : ∀ sock c, r.conns.lookup sock = some c → sock ∈ r.pendingClose ∨ sock ∈ batch →
    HasCause c.id r.log
  removals : RemovalsCaused r.log

variable {batch : List Socket} {r : Reactor σ H S I}

theorem Sound.new (d : σ) : Sound [] (new d : Reactor σ H S I) where
  ids _ _ h := nomatch h
  fresh _ _ h := nomatch h
  timers _ _ h := nomatch h
  marks _ _ h := nomatch h
  removals := trivial

/-! ## Moves within an iteration -/

section

variable (h : Sound batch r) (sock : Socket) {f : Connection H S I → Connection H S I}

include h

theorem Sound.modifyConn_timers (hid : ∀ c, (f c).id = c.id)
    {timers : AList fun _ : TimerId => EstablishTimer}
    (htimers : ∀ tid t, timers.lookup tid = some t → r.timers.lookup tid = some t ∧
      (t.sock = sock → ∀ c, r.conns.lookup sock = some c →
        (f c).establishTimer = c.establishTimer)) :
    Sound batch { r.modifyConn sock f with timers := timers } := by
  have hback : ∀ s c', (r.modifyConn sock f).conns.lookup s = some c' →
      ∃ c, r.conns.lookup s = some c ∧ c.id = c'.id := by
    intro s c' hc'
    rw [lookup_modifyConn] at hc'
    split_ifs at hc' with hs
    · obtain ⟨c, hc, rfl⟩ := map_eq_some_iff.mp hc'
      exact ⟨c, hs ▸ hc, (hid c).symm⟩
    · exact ⟨c', hc', rfl⟩
  have hforth : ∀ s c, r.conns.lookup s = some c →
      (r.modifyConn sock f).conns.lookup s = some (if s = sock then f c else c) := by
    intro s c hc
    rw [lookup_modifyConn]
    split_ifs with hs
    · rw [← hs, hc, map_some]
    · exact hc
  have hsame : ∀ s c, (if s = sock then f c else c).id = c.id := by
    intro s c
    split_ifs
    · exact hid c
    · rfl
  rw [modifyConn_eq]
  refine ⟨fun id s hs => ?_, fun s c' hc' => ?_, fun tid t ht => ?_, fun s c' hc' hm => ?_,
    h.removals⟩
  · obtain ⟨c, hc, rfl⟩ := h.ids id s hs
    exact ⟨_, hforth s c hc, hsame s c⟩
  · obtain ⟨c, hc, heq⟩ := hback s c' hc'
    exact heq ▸ h.fresh s c hc
  · obtain ⟨ht', hkeep⟩ := htimers tid t ht
    obtain ⟨c, hc, hown, htid⟩ := h.timers tid t ht'
    refine ⟨_, hforth t.sock c hc, (hsame _ c).trans hown, ?_⟩
    split_ifs with hs
    · exact (hkeep hs c (hs ▸ hc)).trans htid
    · exact htid
  · obtain ⟨c, hc, heq⟩ := hback s c' hc'
    exact heq ▸ h.marks s c hc hm

theorem Sound.modifyConn (hf : ∀ c, (f c).id = c.id ∧ (f c).establishTimer = c.establishTimer) :
    Sound batch (r.modifyConn sock f) := by
  have hall : Sound batch { r.modifyConn sock f with timers := r.timers } :=
    h.modifyConn_timers sock (fun c => (hf c).1) fun _ _ ht => ⟨ht, fun _ c _ => (hf c).2⟩
  rwa [modifyConn_eq] at hall ⊢

end

theorem Sound.record (h : Sound batch r) {e : Event} {id : ConnId} (he : e.cause = some id) :
    Sound batch (r.record e) where
  ids := h.ids
  fresh := h.fresh
  timers := h.timers
  marks sock c hc hm := (h.marks sock c hc hm).cons fun s heq => by
    rw [heq] at he
    cases he
  removals := h.removals.cons fun i heq => by
    rw [heq] at he
    cases he

variable {sock : Socket}

section

variable (h : Sound batch r)

include h

theorem Sound.markForClose (reason : CloseReason)
    (hcause : ∀ c, r.conns.lookup sock = some c → HasCause c.id r.log) :
    Sound batch (r.markForClose sock reason) := by
  unfold Reactor.markForClose
  split_ifs with hin
  · exact h
  refine ⟨h.ids, h.fresh, h.timers, fun s c hc hm => ?_, h.removals⟩
  by_cases hs : s = sock
  · exact hcause c (hs ▸ hc)
  · refine h.marks s c hc (hm.imp_left fun hmem => ?_)
    simpa [mem_insert, hs] using hmem

theorem Sound.close (id : ConnId) (reason : CloseReason) : Sound batch (r.close id reason) := by
  unfold Reactor.close
  have hrec := h.record (e := .closeCalled id) rfl
  cases hid : r.idToSocket.lookup id with
  | none => exact hrec
  | some sock =>
    refine hrec.markForClose reason fun c hc => ?_
    obtain ⟨c', hc', hid'⟩ := h.ids id sock hid
    obtain rfl : c' = c := mem_unique hc' hc
    exact .of_cause (hid' ▸ rfl) r.log

variable (sock : Socket)

theorem Sound.cancelEstablishTimer : Sound batch (r.cancelEstablishTimer sock) := by
  unfold Reactor.cancelEstablishTimer
  cases htid : (r.conns.lookup sock).bind (·.establishTimer) with
  | none => exact h
  | some tid =>
    obtain ⟨c, hc, hct⟩ := bind_eq_some_iff.mp htid
    refine h.modifyConn_timers sock (f := fun c => { c with establishTimer := none }) (fun _ => rfl)
      fun tid' t ht => ?_
    have hne : tid' ≠ tid := by
      rintro rfl
      rw [lookup_erase] at ht
      cases ht
    rw [lookup_erase_ne hne] at ht
    refine ⟨ht, fun hsock => absurd ?_ hne⟩
    obtain ⟨c', hc', -, hct'⟩ := h.timers tid' t ht
    obtain rfl : c = c' := mem_unique hc (hsock ▸ hc')
    exact mem_unique hct' hct

theorem Sound.of_eq (d : σ) (n : ℕ) :
    Sound batch { r with delegate := d, writes := n } :=
  ⟨h.ids, h.fresh, h.timers, h.marks, h.removals⟩

theorem Sound.fail (reason : CloseReason) : Sound batch (r.fail sock reason) :=
  h.modifyConn sock fun _ => ⟨rfl, rfl⟩

theorem Sound.setRx (rx : Bytes) : Sound batch (r.setRx sock rx) :=
  h.modifyConn sock fun _ => ⟨rfl, rfl⟩

end

variable (w : Setup σ H S I) (h : Sound batch r)

include h

theorem Sound.flush (sock : Socket) : Sound batch (r.flush w sock).1 := by
  unfold Reactor.flush
  split_ifs
  · exact (h.of_eq r.delegate (r.writes + 1)).fail sock .peerReset
  · exact h.of_eq r.delegate (r.writes + 1)

theorem Sound.flushOut (sock : Socket) (out : Bytes) : Sound batch (r.flushOut w sock out).1 := by
  unfold Reactor.flushOut
  split_ifs
  · exact h
  · exact h.flush w sock

theorem Sound.send (id : ConnId) (header : FrameHeader) (payload : Bytes) :
    Sound batch (r.send w id header payload) := by
  unfold Reactor.send
  split
  · exact h
  rename_i sock _
  split
  · exact h
  split
  · exact h
  split_ifs
  · exact h
  split
  · exact .close (h.modifyConn sock (by exact fun _ => ⟨rfl, rfl⟩)) id _
  rename_i s _
  have hs := h.modifyConn sock (f := fun c => { c with session := some s }) fun _ => ⟨rfl, rfl⟩
  dsimp only
  split_ifs
  · exact ((hs.of_eq _ _).fail sock _).close id _
  have hflush := hs.flush w sock
  split <;> rename_i hr <;> rw [hr] at hflush
  · exact hflush
  · exact hflush.close id _

theorem Sound.perform (actions : List Action) : Sound batch (r.perform w actions) := by
  induction actions generalizing r with
  | nil => exact h
  | cons a actions ih =>
    cases a with
    | close k id reason =>
      refine ih ?_
      obtain heq | heq := r.act_close id reason w k <;> rw [heq]
      · exact h.close id reason
      · exact h
    | send id header payload => exact ih (h.send w id header payload)

theorem Sound.callback (f : σ → σ × List Action) : Sound batch (r.callback w f) :=
  (h.of_eq _ r.writes).perform w _

section

variable (sock : Socket)

theorem Sound.beginHandshake : Sound batch (r.beginHandshake w sock) := by
  unfold Reactor.beginHandshake
  split
  · exact h
  split
  · exact .close (h.modifyConn sock (by exact fun _ => ⟨rfl, rfl⟩)) _ _
  rename_i out hk _
  have hout := (h.modifyConn sock
    (f := fun c => { c with state := .handshaking, handshaker := some hk })
    fun _ => ⟨rfl, rfl⟩).flushOut w sock out
  split <;> rename_i hr <;> rw [hr] at hout
  · exact hout
  · exact hout.close _ _

theorem Sound.completeEstablished : Sound batch (r.completeEstablished w sock) := by
  unfold Reactor.completeEstablished
  have hest := (h.modifyConn sock (f := fun c => { c with state := .established })
    fun _ => ⟨rfl, rfl⟩).cancelEstablishTimer sock
  dsimp only
  split
  · exact hest
  · exact hest.callback w _

theorem Sound.driveHandshake (hk : H) (body : Bytes) :
    Sound batch (r.driveHandshake w sock hk body).1 := by
  unfold Reactor.driveHandshake
  split
  · exact .fail (h.modifyConn sock (by exact fun _ => ⟨rfl, rfl⟩)) sock _
  · exact .flushOut w (h.modifyConn sock (by exact fun _ => ⟨rfl, rfl⟩)) sock _
  rename_i s remote out hk _
  have hout := (h.modifyConn sock (f := fun c => { c with handshaker := some hk })
    fun _ => ⟨rfl, rfl⟩).flushOut w sock out
  split <;> rename_i hr <;> rw [hr] at hout
  · exact hout
  · exact .completeEstablished w (hout.modifyConn sock (by exact fun _ => ⟨rfl, rfl⟩)) sock

theorem Sound.deliverFrame (c : Connection H S I)
    (body : Bytes) : Sound batch (r.deliverFrame w sock c body).1 := by
  unfold Reactor.deliverFrame
  split
  · exact h.fail sock _
  split
  · exact .fail (h.modifyConn sock (by exact fun _ => ⟨rfl, rfl⟩)) sock _
  split
  · exact .fail (h.modifyConn sock (by exact fun _ => ⟨rfl, rfl⟩)) sock _
  · dsimp only
    refine Sound.callback w ?_ _
    exact h.modifyConn sock fun _ => ⟨rfl, rfl⟩

theorem Sound.processBlock (c : Connection H S I)
    (body : Bytes) : Sound batch (r.processBlock w sock c body).1 := by
  unfold Reactor.processBlock
  split
  · exact h.driveHandshake w sock _ body
  · exact h.deliverFrame w sock c body

theorem Sound.processBlocks (rx : Bytes) : Sound batch (r.processBlocks w sock rx).1 := by
  fun_induction Reactor.processBlocks w r sock rx with
  | case1 r rx needed hblock => exact h.setRx sock rx
  | case2 r rx hblock => exact (h.fail sock _).setRx sock rx
  | case3 r rx n body hblock hnone => exact h
  | case4 r rx n body hblock c hc r' hp | case5 r rx n body hblock c hc r' hp hclosing =>
    have hp' := h.processBlock w sock c body
    rw [hp] at hp'
    exact hp'.setRx sock _
  | case6 r rx n body hblock c hc r' hp hclosing ih =>
    have hp' := h.processBlock w sock c body
    rw [hp] at hp'
    exact ih hp'

theorem Sound.onReadable (recvs : List Recv) : Sound batch (r.onReadable w sock recvs).1 := by
  induction recvs generalizing r with
  | nil => exact h
  | cons recv rest ih =>
    cases recv with
    | data bytes =>
      unfold onReadable
      split
      · exact h
      rename_i c _
      have hblocks := h.processBlocks w sock (c.rx ++ bytes)
      split <;> rename_i hr <;> rw [hr] at hblocks
      · exact hblocks
      · exact ih hblocks
    | eof =>
      unfold onReadable
      split
      · exact h
      rename_i c _
      have hblocks := h.processBlocks w sock c.rx
      split <;> rename_i hr <;> rw [hr] at hblocks
      · exact hblocks
      · exact hblocks.fail sock _
    | error => exact h.fail sock _

theorem Sound.onWritable (connected : Bool) : Sound batch (r.onWritable w sock connected).1 := by
  unfold Reactor.onWritable
  have hbegin := h.beginHandshake w sock
  split
  · exact h
  dsimp only
  split_ifs
  · exact h.flush w sock
  · exact h.fail sock _
  · exact hbegin
  · exact hbegin.flush w sock

theorem Sound.runHandlers (ev : PollResult) : Sound batch (r.runHandlers w sock ev).1 := by
  unfold Reactor.runHandlers
  split_ifs
  · exact h.fail sock _
  have hread : Sound batch (r.readIfReady w sock ev.readable).1 := by
    cases ev.readable with
    | none => exact h
    | some recvs => exact h.onReadable w sock recvs
  split <;> rename_i hr <;> rw [hr] at hread
  · exact hread
  split
  · exact hread
  · exact hread.onWritable w sock _

theorem Sound.handleEvent (ev : PollResult) : Sound batch (r.handleEvent w sock ev) := by
  unfold Reactor.handleEvent
  split
  · exact h
  split_ifs
  · exact h
  have hrun := h.runHandlers w sock ev
  split <;> rename_i hr <;> rw [hr] at hrun
  · exact hrun
  split
  · exact hrun
  rename_i c hc
  refine (hrun.record rfl).markForClose _ fun c' hc' => ?_
  obtain rfl : c = c' := mem_unique hc hc'
  exact .of_cause rfl _

end

omit h

/-! ## Adoption, timers and teardown -/

omit w in
theorem Sound.fireTimer (h : Sound batch r) (tid : TimerId) : Sound batch (r.fireTimer tid) := by
  unfold Reactor.fireTimer
  split
  · exact h
  rename_i timer htimer
  have herase : Sound batch ({ r with timers := r.timers.erase tid } : Reactor σ H S I) := by
    refine ⟨h.ids, h.fresh, fun tid' t ht => ?_, h.marks, h.removals⟩
    by_cases hne : tid' = tid
    · rw [hne, lookup_erase] at ht
      cases ht
    · rw [lookup_erase_ne hne] at ht
      exact h.timers tid' t ht
  have hrec := herase.record (e := .timerFired timer.owner) rfl
  -- the closure captured the socket; the connection there is still the one that set the timer
  have hcause : ∀ c, r.conns.lookup timer.sock = some c →
      HasCause c.id (.timerFired timer.owner :: r.log) := by
    intro c hc
    obtain ⟨c', hc', hown, -⟩ := h.timers tid timer htimer
    obtain rfl : c' = c := mem_unique hc' hc
    exact .of_cause (by rw [hown]; rfl) _
  dsimp only
  split
  · exact hrec
  split
  · exact hrec.markForClose _ hcause
  · exact hrec.markForClose _ hcause
  · exact hrec

theorem Sound.remove (h : Sound (sock :: batch) r) (reason : CloseReason) :
    Sound batch (r.remove w sock reason) := by
  unfold Reactor.remove
  split
  · rename_i hnone
    refine ⟨h.ids, h.fresh, h.timers, fun s c hc hm => ?_, h.removals⟩
    exact h.marks s c hc (hm.imp_right (mem_cons_of_mem _))
  rename_i c hc
  obtain ⟨hc₁, hlog⟩ := lookup_cancelEstablishTimer hc
  have h₁ := h.cancelEstablishTimer sock
  have hcause : HasCause c.id r.log := h.marks sock c hc (.inr (.head _))
  refine Sound.callback w ⟨fun id s hid => ?_, fun s c' hc' => ?_, fun tid t ht => ?_,
    fun s c' hc' hm => ?_, ?_⟩ _
  · by_cases hid' : id = c.id
    · rw [hid', lookup_erase] at hid
      cases hid
    rw [lookup_erase_ne hid'] at hid
    obtain ⟨c', hc', rfl⟩ := h₁.ids id s hid
    refine ⟨c', (lookup_erase_ne ?_).trans hc', rfl⟩
    rintro rfl
    rw [hc₁, some_inj] at hc'
    exact hid' (hc' ▸ rfl)
  · exact h₁.fresh s c' (AssocList.lookup_of_erase hc').2
  · obtain ⟨c', hc', hown, htid⟩ := h₁.timers tid t ht
    refine ⟨c', (lookup_erase_ne ?_).trans hc', hown, htid⟩
    intro hs
    rw [hs, hc₁, some_inj] at hc'
    rw [← hc'] at htid
    cases htid
  · obtain ⟨hs, hc'⟩ := AssocList.lookup_of_erase hc'
    have := h₁.marks s c' hc' (hm.imp_right (mem_cons_of_mem _))
    exact this.cons (by simp)
  · rw [hlog]
    exact h.removals.cons fun id heq => by rwa [← Event.removed.inj heq]

theorem Sound.processPendingClose (h : Sound [] r) {marks : List (Socket × CloseReason)}
    (hperm : marks.Perm (r.pendingClose.entries.map fun m => (m.1, m.2))) :
    Sound [] (r.processPendingClose w marks) := by
  have hbatch : Sound (marks.map Prod.fst) { r with pendingClose := ∅ } := by
    refine ⟨h.ids, h.fresh, h.timers, fun s c hc hm => h.marks s c hc (.inl ?_), h.removals⟩
    obtain hm | hm := hm
    · cases hm
    · obtain ⟨m, hmem, rfl⟩ := mem_map.mp hm
      obtain ⟨e, he, rfl⟩ := mem_map.mp (hperm.mem_iff.mp hmem)
      exact mem_keys_of_mem he
  unfold Reactor.processPendingClose
  clear h hperm
  revert hbatch
  generalize ({ r with pendingClose := ∅ } : Reactor σ H S I) = r'
  induction marks generalizing r' with
  | nil => exact id
  | cons m marks ih => exact fun h => ih _ (h.remove w m.2)

variable [Zero I]

omit w in
theorem Sound.adopt (h : Sound [] r) (hfree : sock ∉ r.conns) (hmark : sock ∉ r.pendingClose)
    (role : ConnRole) (host : Bytes) (port : ℕ) : Sound [] (r.adopt sock role host port) := by
  have hnone : r.conns.lookup sock = none := lookup_eq_none.mpr hfree
  have hold : ∀ s c, r.conns.lookup s = some c → s ≠ sock := by
    rintro s c hc rfl
    cases hnone.symm.trans hc
  refine ⟨fun id s hid => ?_, fun s c hc => ?_, fun tid t ht => ?_, fun s c hc hm => ?_, ?_⟩
  · simp only [Reactor.adopt] at hid ⊢
    obtain ⟨rfl, rfl⟩ | ⟨-, hid⟩ := AssocList.lookup_of_insert hid
    · exact ⟨_, lookup_insert _, rfl⟩
    · obtain ⟨c, hc, hcid⟩ := h.ids id s hid
      exact ⟨c, (lookup_insert_ne (hold s c hc)).trans hc, hcid⟩
  · simp only [Reactor.adopt] at hc ⊢
    obtain ⟨-, rfl⟩ | ⟨-, hc⟩ := AssocList.lookup_of_insert hc
    · exact Nat.lt_succ_self _
    · exact (h.fresh s c hc).trans (Nat.lt_succ_self _)
  · simp only [Reactor.adopt] at ht ⊢
    obtain ⟨rfl, rfl⟩ | ⟨-, ht⟩ := AssocList.lookup_of_insert ht
    · exact ⟨_, lookup_insert _, rfl, rfl⟩
    · obtain ⟨c, hc, hown⟩ := h.timers tid t ht
      exact ⟨c, (lookup_insert_ne (hold _ c hc)).trans hc, hown⟩
  · simp only [Reactor.adopt] at hc hm ⊢
    have hs : s ≠ sock := by
      rintro rfl
      exact hm.elim hmark nofun
    rw [lookup_insert_ne hs] at hc
    refine (h.marks s c hc hm).cons fun _ heq => ?_
    exact (h.fresh s c hc).ne (Event.adopted.inj heq).1.symm
  · exact h.removals.cons nofun

theorem Sound.doAccept (h : Sound [] r) (hfree : sock ∉ r.conns) (hmark : sock ∉ r.pendingClose) :
    Sound [] (r.doAccept w sock) := by
  unfold Reactor.doAccept
  split_ifs
  · exact (h.adopt hfree hmark .inbound [] 0).beginHandshake w sock
  · exact h

/-! ## Runs -/

/-- A socket number that is handed out carries no mark of its last connection. -/
def Unmarked (r : Reactor σ H S I) : Input → Prop
  | .connect sock _ _ | .accept sock => sock ∉ r.pendingClose
  | .task _ | .event _ _ | .timer _ | .closePending _ => True

instance (r : Reactor σ H S I) (i : Input) : Decidable (Unmarked r i) := by
  cases i <;> unfold Unmarked <;> infer_instance

theorem Step.sound {r r' : Reactor σ H S I} {i : Input} (hs : Step w r i r') (h : Sound [] r)
    (hi : Unmarked r i) : Sound [] r' := by
  cases hs with
  | connect hfree => exact h.adopt hfree hi _ _ _
  | accept hfree => exact h.doAccept w hfree hi
  | task => exact h.perform w _
  | event => exact h.handleEvent w _ _
  | timer => exact h.fireTimer _
  | closePending hperm => exact h.processPendingClose w hperm

theorem Reachable.sound {r₀ r : Reactor σ H S I} (h : Reachable w Unmarked r₀ r)
    (h₀ : Sound [] r₀) : Sound [] r := by
  induction h with
  | refl => exact h₀
  | step _ hok hs ih => exact hs.sound w ih hok

/-- **If no socket number is handed out while still marked, every removed connection was closed,
failed in its own event handler or ran into its own establish timer.** -/
theorem removals_caused {d : σ} {r : Reactor σ H S I} (h : Reachable w Unmarked (.new d) r) :
    RemovalsCaused r.log :=
  (h.sound w (Sound.new d)).removals

/-! ## A stale mark -/

/-- A delegate that closes connection 2 when connection 1 is gone. -/
def pairSetup : Setup Unit Unit Unit ℕ where
  index := 0
  security :=
    { create := fun _ _ => ()
      start := fun _ => (some [], ())
      consume := fun _ _ => ((.needMore, []), ())
      encrypt := fun _ plain => (some plain, ())
      decrypt := fun _ cipher => (some cipher, ()) }
  delegate :=
    { admitInbound := fun _ => true
      onEstablished := fun _ _ => ((), [])
      onFrame := fun _ _ _ => ((), [])
      onClosed := fun _ c _ => ((), if c.id = 1 then [.close 0 2 .localClose] else []) }
  kernel _ := .queued

/-- Connections 1 and 2 are dialed on sockets 10 and 11 and closed in one iteration. -/
def pairClosed : Reactor Unit Unit Unit ℕ :=
  ((((new ()).adopt 10 .outbound [] 1).adopt 11 .outbound [] 1).perform pairSetup
    [.close 0 1 .localClose, .close 0 2 .localClose]).processPendingClose pairSetup
      [(10, .localClose), (11, .localClose)]

theorem pairClosed_reachable {ok : Reactor Unit Unit Unit ℕ → Input → Prop}
    (h₁ : ok (.new ()) (.connect 10 [] 1))
    (h₂ : ok ((new ()).adopt 10 .outbound [] 1) (.connect 11 [] 1))
    (htask : ∀ r acts, ok r (.task acts)) (hclose : ∀ r batch, ok r (.closePending batch)) :
    Reachable pairSetup ok (.new ()) pairClosed :=
  .step (.step (.step (.step .refl h₁ (.connect (by decide))) h₂ (.connect (by decide)))
    (htask _ _) .task) (hclose _ _) (.closePending (by decide))

/-- Both have a cause, though connection 2 was closed again while it was removed. -/
theorem removals_caused_pairClosed :
    RemovalsCaused pairClosed.log ∧ .removed 2 ∈ pairClosed.log ∧ 11 ∈ pairClosed.pendingClose :=
  ⟨removals_caused pairSetup (pairClosed_reachable (by decide) (by decide)
    (fun _ _ => trivial) fun _ _ => trivial), by decide, by decide⟩

/-- The next connection gets socket 11. -/
def numberReused : Reactor Unit Unit Unit ℕ :=
  (pairClosed.adopt 11 .outbound [] 1).processPendingClose pairSetup [(11, .localClose)]

/-- It is removed by the mark that connection 2 left behind. -/
theorem stale_mark_removes_newcomer : ∃ r, Reachable pairSetup (fun _ _ => True) (.new ()) r ∧
    ¬RemovalsCaused r.log := by
  refine ⟨numberReused, .step (.step (pairClosed_reachable trivial trivial (fun _ _ => trivial)
    fun _ _ => trivial) trivial (.connect (by decide))) trivial (.closePending (by decide)), ?_⟩
  intro h
  exact h.1.1 rfl

end Reactor

end Librats
