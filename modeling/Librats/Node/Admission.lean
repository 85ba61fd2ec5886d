import Librats.Node.Node

/-!
# Which connections reach the handlers

`on_established` refuses a connection by asking the reactor to close it, which only marks its
socket: a frame that arrives together with the last handshake message is still dispatched
(`refused_frame_dispatched`). `Quiet` says that there is none.
-/

namespace Librats

open Framer Option

variable {H S I : Type}

/-- Every frame that was handled came over a connection admitted before. -/
def OnlyAdmitted : List (NodeEvent I) → Prop
  | [] => True
  | .identified conn _ :: past | .dispatched conn _ :: past =>
    .admitted conn ∈ past ∧ OnlyAdmitted past
  | _ :: past => OnlyAdmitted past

/-- The stream starts with a block that the session turns into a frame. -/
def StartsWithFrame (sec : SecurityProvider H S I) (s : S) (stream : Bytes) : Prop :=
  ∃ n body plain s' frame, tryTakeBlock stream = .ok n body ∧
    sec.decrypt s body = (some plain, s') ∧ parseMessage plain = some frame

/-- Where a handshake ends in a stream: its session, identity, and what follows. -/
def handshakeEnd (sec : SecurityProvider H S I) (hk : H) (stream : Bytes) :
    Option (S × I × Bytes) :=
  match _h : tryTakeBlock stream with
  | .incomplete _ | .error => none
  | .ok n body =>
    match sec.consume hk body with
    | ((.failed, _), _) => none
    | ((.needMore, _), hk) => handshakeEnd sec hk (stream.drop n)
    | ((.done s remote, _), _) => some (s, remote, stream.drop n)
termination_by stream.length
decreasing_by
  have := tryTakeBlock_bounds ‹_›
  rw [List.length_drop]
  omega

section

variable {sec : SecurityProvider H S I} {hk : H} {stream body : Bytes}

theorem handshakeEnd_ok {n : ℕ} (h : tryTakeBlock stream = .ok n body) :
    handshakeEnd sec hk stream = match sec.consume hk body with
      | ((.failed, _), _) => none
      | ((.needMore, _), hk) => handshakeEnd sec hk (stream.drop n)
      | ((.done s remote, _), _) => some (s, remote, stream.drop n) := by
  rw [handshakeEnd]
  split
  · simp_all
  · simp_all
  · rename_i n' body' h'
    obtain ⟨rfl, rfl⟩ := Block.ok.inj (h.symm.trans h')
    rfl

end

namespace Node

variable [LinearOrder I] (cfg : Config I)

/-! ## The callbacks -/

variable {n : Node I} {c : Connection H S I}

theorem onEstablished_onlyAdmitted (h : OnlyAdmitted n.log) (c : Connection H S I) :
    OnlyAdmitted (n.onEstablished cfg c).1.log := by
  unfold onEstablished
  dsimp only
  split_ifs
  · exact h
  · exact h
  split
  · exact h
  · exact h
  · exact h
  · exact h

theorem onEstablished_admits (h : ¬Refuses cfg n c) :
    .admitted c.id ∈ (n.onEstablished cfg c).1.log := by
  simp only [Refuses, not_or] at h
  obtain ⟨hself, hlimit, hdup⟩ := h
  rw [onEstablished, if_neg hself, if_neg hlimit]
  dsimp only
  split
  · contradiction
  · exact .tail _ (.head _)
  · exact .head _
  · exact .head _

theorem onEstablished_refuses (h : Refuses cfg n c) :
    ∀ a ∈ (n.onEstablished cfg c).2, ∃ k id reason, a = .close k id reason := by
  unfold onEstablished
  split_ifs with hself hlimit
  · simp
  · simp
  have hdup : (register cfg n c).2.result = .rejected := (h.resolve_left hself).resolve_left hlimit
  simp [hdup, closeLoser]

theorem onFrame_onlyAdmitted (h : OnlyAdmitted n.log) (hc : .admitted c.id ∈ n.log)
    (frame : Frame) : OnlyAdmitted (n.onFrame cfg c frame).1.log := by
  unfold onFrame
  split_ifs
  · exact ⟨hc, h⟩
  · exact ⟨hc, h⟩

theorem mem_log_onFrame {e : NodeEvent I} (h : e ∈ n.log) (c : Connection H S I) (frame : Frame) :
    e ∈ (n.onFrame cfg c frame).1.log := by
  unfold onFrame
  split_ifs
  · exact .tail _ h
  · exact .tail _ h

theorem onClosed_onlyAdmitted [Zero I] (h : OnlyAdmitted n.log) (c : Connection H S I)
    (reason : CloseReason) : OnlyAdmitted (n.onClosed cfg c reason).1.log := by
  unfold onClosed
  split_ifs
  · exact h
  · exact h
  split
  · exact h
  · exact h

end Node

/-! ## Connections under the calls of a callback -/

namespace Reactor

variable {σ : Type} (w : Setup σ H S I)

/-- What writes and closes do to a connection. -/
structure Aged (c c' : Connection H S I) : Prop where
  id : c'.id = c.id
  handshaker : c'.handshaker = c.handshaker
  state : c'.state = c.state ∨ c'.state = .closing

theorem Aged.refl (c : Connection H S I) : Aged c c := ⟨rfl, rfl, .inl rfl⟩

theorem Aged.trans {a b c : Connection H S I} (hab : Aged a b) (hbc : Aged b c) : Aged a c where
  id := hbc.id.trans hab.id
  handshaker := hbc.handshaker.trans hab.handshaker
  state := hbc.state.elim (fun h => h ▸ hab.state) .inr

/-- The connections of a reactor that some calls have changed. -/
def AgedFrom (r r' : Reactor σ H S I) : Prop :=
  ∀ sock c', r'.conns.lookup sock = some c' → ∃ c, r.conns.lookup sock = some c ∧ Aged c c'

variable (r : Reactor σ H S I)

theorem AgedFrom.refl : AgedFrom r r := fun _ c hc => ⟨c, hc, .refl c⟩

theorem AgedFrom.trans {a b c : Reactor σ H S I} (hab : AgedFrom a b) (hbc : AgedFrom b c) :
    AgedFrom a c := by
  intro sock x hx
  obtain ⟨y, hy, hyx⟩ := hbc sock x hx
  obtain ⟨z, hz, hzy⟩ := hab sock y hy
  exact ⟨z, hz, hzy.trans hyx⟩

theorem AgedFrom.of_conns {r r' : Reactor σ H S I} (h : r'.conns = r.conns) : AgedFrom r r' :=
  fun _ c hc => ⟨c, h ▸ hc, .refl c⟩

theorem AgedFrom.modifyConn (sock : Socket)
    {f : Connection H S I → Connection H S I} (hf : ∀ c, Aged c (f c)) :
    AgedFrom r (r.modifyConn sock f) := by
  intro s c' hc'
  rw [lookup_modifyConn] at hc'
  split_ifs at hc' with hs
  · obtain ⟨c, hc, rfl⟩ := map_eq_some_iff.mp hc'
    exact ⟨c, hs ▸ hc, hf c⟩
  · exact ⟨c', hc', .refl c'⟩

theorem AgedFrom.flush (sock : Socket) : AgedFrom r (r.flush w sock).1 := by
  unfold Reactor.flush
  split_ifs
  · exact .modifyConn { r with writes := r.writes + 1 } sock fun _ => ⟨rfl, rfl, .inr rfl⟩
  · exact .of_conns rfl

theorem AgedFrom.send (id : ConnId) (header : FrameHeader)
    (payload : Bytes) : AgedFrom r (r.send w id header payload) := by
  unfold Reactor.send
  split
  · exact .refl r
  rename_i sock _
  split
  · exact .refl r
  split
  · exact .refl r
  split_ifs
  · exact .refl r
  split
  · refine AgedFrom.trans (.modifyConn r sock ?_) (.of_conns (conns_close ..))
    exact fun _ => ⟨rfl, rfl, .inl rfl⟩
  rename_i s _
  have hs : AgedFrom r (r.modifyConn sock fun c => { c with session := some s }) :=
    .modifyConn r sock fun _ => ⟨rfl, rfl, .inl rfl⟩
  dsimp only
  split_ifs
  · refine hs.trans (AgedFrom.trans ?_ (.of_conns (conns_close ..)))
    exact .modifyConn _ sock fun _ => ⟨rfl, rfl, .inr rfl⟩
  have hflush := hs.trans (.flush w _ sock)
  split <;> rename_i hr <;> rw [hr] at hflush
  · exact hflush
  · exact hflush.trans (.of_conns (conns_close ..))

theorem AgedFrom.perform (actions : List Action) : AgedFrom r (r.perform w actions) := by
  induction actions generalizing r with
  | nil => exact .refl r
  | cons a actions ih =>
    refine AgedFrom.trans ?_ (ih (r.act w a))
    cases a with
    | close k id reason => exact .of_conns (conns_act_close ..)
    | send id header payload => exact .send w r id header payload

theorem conns_perform_closes {actions : List Action}
    (h : ∀ a ∈ actions, ∃ k id reason, a = .close k id reason) (r : Reactor σ H S I) :
    (r.perform w actions).conns = r.conns := by
  unfold Reactor.perform
  induction actions generalizing r with
  | nil => rfl
  | cons a actions ih =>
    obtain ⟨k, id, reason, rfl⟩ := h a (.head _)
    rw [List.foldl_cons, ih (fun b hb => h b (.tail _ hb))]
    exact conns_act_close ..

end Reactor

/-! ## Blocks, buffers and reads -/

namespace Node

variable [LinearOrder I] (cfg : Config I) (sec : SecurityProvider H S I)

/-- The bytes still to be processed bring no frame unless the connection is admitted: no handshake
ends in a refusal with a frame behind it, and a session belongs to an admitted connection or has no
frame before it. -/
def Quiet (n : Node I) (c : Connection H S I) (stream : Bytes) : Prop :=
  match c.state, c.handshaker with
  | .handshaking, some hk => ∀ s remote rest, handshakeEnd sec hk stream = some (s, remote, rest) →
    Refuses cfg n { c with remoteId := remote } → ¬StartsWithFrame sec s rest
  | _, _ => ∀ s, c.session = some s → .admitted c.id ∈ n.log ∨ ¬StartsWithFrame sec s stream

theorem quiet_iff_of_not_handshaking {n : Node I} {c : Connection H S I}
    (h : c.state ≠ .handshaking ∨ c.handshaker = none) (stream : Bytes) : Quiet cfg sec n c stream ↔
      ∀ s, c.session = some s → .admitted c.id ∈ n.log ∨ ¬StartsWithFrame sec s stream := by
  unfold Quiet
  split
  · rename_i hk hstate hhk
    obtain h | h := h
    · exact absurd hstate h
    · cases h.symm.trans hhk
  · rfl

end Node

namespace Reactor

open Node

variable [LinearOrder I] [Zero I] (cfg : Config I) (sec : SecurityProvider H S I)
  (kernel : ℕ → WriteResult)

/-- A reactor whose delegate is a node. -/
def nodeSetup : Setup (Node I) H S I := ⟨cfg.reactor, sec, Node.delegate cfg, kernel⟩

variable (w : Setup (Node I) H S I)

/-- `Quiet`, of the connection on a socket. -/
def QuietOn (r : Reactor (Node I) H S I) (sock : Socket) (stream : Bytes) : Prop :=
  ∀ c, r.conns.lookup sock = some c → Quiet cfg sec r.delegate c stream

variable {r r' : Reactor (Node I) H S I} {sock : Socket} {c : Connection H S I}
    {stream body : Bytes} {n : ℕ} {keep : Bool}

section

variable (h : OnlyAdmitted r.delegate.log) (hc : r.conns.lookup sock = some c)

include h hc

omit [Zero I] in
theorem established_quiet {s : S} {rest : Bytes} (hhk : c.handshaker = none)
    (hs : c.session = some s) (hq : Refuses cfg r.delegate c → ¬StartsWithFrame sec s rest) :
    OnlyAdmitted (r.callback w fun n => n.onEstablished cfg c).delegate.log ∧
      QuietOn cfg sec (r.callback w fun n => n.onEstablished cfg c) sock rest := by
  rw [QuietOn, delegate_callback]
  refine ⟨onEstablished_onlyAdmitted cfg h c, fun c' hc' => ?_⟩
  by_cases href : Refuses cfg r.delegate c
  · -- a refused connection is as it was: its session faces the rest of the stream
    rw [callback, conns_perform_closes w (onEstablished_refuses cfg href)] at hc'
    obtain rfl := mem_unique hc hc'
    rw [quiet_iff_of_not_handshaking cfg sec (.inr hhk)]
    exact fun s' hs' => .inr (mem_unique hs hs' ▸ hq href)
  · obtain ⟨c₁, hc₁, hage⟩ := AgedFrom.perform w _ _ sock c' hc'
    obtain rfl := mem_unique hc hc₁
    rw [quiet_iff_of_not_handshaking cfg sec (.inr (hage.handshaker.trans hhk)), hage.id]
    exact fun _ _ => .inl (onEstablished_admits cfg href)

theorem completeEstablished_quiet {s : S} {rest : Bytes} (hhk : c.handshaker = none)
    (hs : c.session = some s) (hq : Refuses cfg r.delegate c → ¬StartsWithFrame sec s rest) :
    OnlyAdmitted (r.completeEstablished (nodeSetup cfg sec kernel) sock).delegate.log ∧
      QuietOn cfg sec (r.completeEstablished (nodeSetup cfg sec kernel) sock) sock rest := by
  have hest := (lookup_cancelEstablishTimer (lookup_modifyConn_self hc fun c =>
    { c with state := .established })).1
  have hdel : ((r.modifyConn sock fun c => { c with state := .established }).cancelEstablishTimer
      sock).delegate = r.delegate := by
    rw [delegate_cancelEstablishTimer, delegate_modifyConn]
  simp only [completeEstablished, hest]
  exact established_quiet cfg sec _ (hdel ▸ h) hest hhk hs (hdel ▸ hq)

theorem driveHandshake_quiet {hk : H} (hstate : c.state = .handshaking)
    (hhk : c.handshaker = some hk) (hq : Quiet cfg sec r.delegate c stream)
    (hblock : tryTakeBlock stream = .ok n body)
    (hr : r.driveHandshake (nodeSetup cfg sec kernel) sock hk body = (r', keep)) :
    OnlyAdmitted r'.delegate.log ∧ (keep = true → QuietOn cfg sec r' sock (stream.drop n)) := by
  simp only [Quiet, hstate, hhk] at hq
  have hmod (hk' : H) := lookup_modifyConn_self hc fun c => { c with handshaker := some hk' }
  unfold driveHandshake at hr
  split at hr
  · cases hr
    simpa using h
  · rename_i out hk' hcons
    have hdel : r'.delegate = r.delegate := by
      have := delegate_flushOut (nodeSetup cfg sec kernel)
        (r.modifyConn sock fun c => { c with handshaker := some hk' }) sock out
      rwa [hr, delegate_modifyConn] at this
    have hend : handshakeEnd sec hk stream = handshakeEnd sec hk' (stream.drop n) := by
      rw [handshakeEnd_ok hblock, show sec.consume hk body = _ from hcons]
    refine ⟨hdel ▸ h, fun hkeep c' hc' => ?_⟩
    subst hkeep
    rw [conns_flushOut _ hr, hmod, some_inj] at hc'
    subst hc'
    simp only [Quiet, hstate, hdel, ← hend]
    exact hq
  rename_i s remote out hk' hcons
  have hdel := delegate_flushOut (nodeSetup cfg sec kernel)
    (r.modifyConn sock fun c => { c with handshaker := some hk' }) sock out
  split at hr <;> rename_i r₁ hflush <;> rw [hflush, delegate_modifyConn] at hdel <;> cases hr
  · exact ⟨hdel ▸ h, (by simp)⟩
  have hc₁ := lookup_modifyConn_self (by rw [conns_flushOut _ hflush, hmod]) fun c =>
    { c with session := some s, remoteId := remote, handshaker := none }
  have hrest := hq s remote (stream.drop n) (by
    rw [handshakeEnd_ok hblock, show sec.consume hk body = _ from hcons])
  obtain ⟨hlog, hquiet⟩ := completeEstablished_quiet cfg sec kernel
    (by rw [delegate_modifyConn, hdel]; exact h) hc₁ rfl rfl
    (by rw [delegate_modifyConn, hdel]; exact hrest)
  exact ⟨hlog, fun _ => hquiet⟩

omit [Zero I] in
theorem frame_quiet (hstate : c.state ≠ .handshaking ∨ c.handshaker = none)
    (hadm : .admitted c.id ∈ r.delegate.log) (frame : Frame) (stream : Bytes) :
    OnlyAdmitted (r.callback w fun n => n.onFrame cfg c frame).delegate.log ∧
      QuietOn cfg sec (r.callback w fun n => n.onFrame cfg c frame) sock stream := by
  rw [QuietOn, delegate_callback]
  refine ⟨onFrame_onlyAdmitted cfg h hadm frame, fun c' hc' => ?_⟩
  obtain ⟨c₁, hc₁, hage⟩ := AgedFrom.perform w _ _ sock c' hc'
  obtain rfl := mem_unique hc hc₁
  have hstate' : c'.state ≠ .handshaking ∨ c'.handshaker = none := by
    refine hstate.imp (fun hne => ?_) fun hn => hage.handshaker.trans hn
    obtain hs | hs := hage.state
    · rwa [hs]
    · rw [hs]
      exact nofun
  rw [quiet_iff_of_not_handshaking cfg sec hstate', hage.id]
  exact fun _ _ => .inl (mem_log_onFrame cfg hadm c frame)

theorem deliverFrame_quiet (hstate : c.state ≠ .handshaking ∨ c.handshaker = none)
    (hq : Quiet cfg sec r.delegate c stream) (hblock : tryTakeBlock stream = .ok n body)
    (hr : r.deliverFrame (nodeSetup cfg sec kernel) sock c body = (r', keep)) :
    OnlyAdmitted r'.delegate.log ∧ (keep = true → QuietOn cfg sec r' sock (stream.drop n)) := by
  rw [quiet_iff_of_not_handshaking cfg sec hstate] at hq
  unfold deliverFrame at hr
  split at hr
  · cases hr
    simpa using h
  rename_i s hs
  split at hr
  · cases hr
    simpa using h
  rename_i plain s' hdec
  split at hr
  · cases hr
    simpa using h
  rename_i frame hframe
  cases hr
  -- the block is a frame, so the connection must have been admitted
  have hadm : .admitted c.id ∈ r.delegate.log :=
    (hq s hs).resolve_right (not_not.mpr ⟨n, body, plain, s', frame, hblock, hdec, hframe⟩)
  have hmod := lookup_modifyConn_self hc fun c => { c with session := some s' }
  have hdel := delegate_modifyConn r sock fun c => { c with session := some s' }
  obtain ⟨hlog, hquiet⟩ := frame_quiet cfg sec (nodeSetup cfg sec kernel) (hdel ▸ h) hmod hstate
    (hdel ▸ hadm) frame (stream.drop n)
  exact ⟨hlog, fun _ => hquiet⟩

theorem processBlock_quiet (hq : Quiet cfg sec r.delegate c stream)
    (hblock : tryTakeBlock stream = .ok n body)
    (hr : r.processBlock (nodeSetup cfg sec kernel) sock c body = (r', keep)) :
    OnlyAdmitted r'.delegate.log ∧ (keep = true → QuietOn cfg sec r' sock (stream.drop n)) := by
  unfold processBlock at hr
  split at hr
  · rename_i hk hstate hhk
    exact driveHandshake_quiet cfg sec kernel h hc hstate hhk hq hblock hr
  · rename_i hnot
    refine deliverFrame_quiet cfg sec kernel h hc ?_ hq hblock hr
    by_contra hcon
    rw [not_or, not_not] at hcon
    obtain ⟨hk, hhk⟩ := ne_none_iff_exists'.mp hcon.2
    exact hnot hk hcon.1 hhk

end

theorem processBlocks_quiet {rx : Bytes} (future : Bytes) (h : OnlyAdmitted r.delegate.log)
    (hq : QuietOn cfg sec r sock (rx ++ future))
    (hr : r.processBlocks (nodeSetup cfg sec kernel) sock rx = (r', keep)) :
    OnlyAdmitted r'.delegate.log ∧ (keep = true → ∀ c, r'.conns.lookup sock = some c →
      Quiet cfg sec r'.delegate c (c.rx ++ future)) := by
  fun_induction Reactor.processBlocks (nodeSetup cfg sec kernel) r sock rx with
  | case1 r rx needed hblock =>
    cases hr
    rw [delegate_setRx]
    refine ⟨h, fun _ c hc => ?_⟩
    rw [setRx, lookup_modifyConn, if_pos rfl] at hc
    obtain ⟨c₀, hc₀, rfl⟩ := map_eq_some_iff.mp hc
    exact hq c₀ hc₀
  | case2 r rx hblock =>
    cases hr
    simpa using h
  | case3 r rx n body hblock hnone =>
    cases hr
    exact ⟨h, nofun⟩
  | case4 r rx n body hblock c hc r₁ hp | case5 r rx n body hblock c hc r₁ hp hclosing =>
    cases hr
    have hp' :=
      processBlock_quiet cfg sec kernel h hc (hq c hc) (tryTakeBlock_append hblock future) hp
    simpa using hp'.1
  | case6 r rx n body hblock c hc r₁ hp hclosing ih =>
    obtain ⟨hlog, hquiet⟩ :=
      processBlock_quiet cfg sec kernel h hc (hq c hc) (tryTakeBlock_append hblock future) hp
    have hquiet := hquiet rfl
    rw [List.drop_append_of_le_length (tryTakeBlock_bounds hblock).2] at hquiet
    exact ih hlog hquiet hr

/-- The bytes of a read. -/
def received : List Recv → Bytes
  | .data bytes :: rest => bytes ++ received rest
  | .eof :: _ | .error :: _ | [] => []

theorem onReadable_onlyAdmitted {recvs : List Recv} (h : OnlyAdmitted r.delegate.log)
    (hq : ∀ c, r.conns.lookup sock = some c → Quiet cfg sec r.delegate c (c.rx ++ received recvs)) :
    OnlyAdmitted (r.onReadable (nodeSetup cfg sec kernel) sock recvs).1.delegate.log := by
  induction recvs generalizing r with
  | nil => exact h
  | cons recv rest ih =>
    cases recv with
    | data bytes =>
      unfold onReadable
      split
      · exact h
      rename_i c hc
      have hstart : QuietOn cfg sec r sock (c.rx ++ bytes ++ received rest) := by
        intro c' hc'
        obtain rfl := mem_unique hc hc'
        rw [List.append_assoc]
        exact hq c hc
      split <;> rename_i hr
      · exact (processBlocks_quiet cfg sec kernel _ h hstart hr).1
      · obtain ⟨hlog, hquiet⟩ := processBlocks_quiet cfg sec kernel _ h hstart hr
        exact ih hlog (hquiet rfl)
    | eof =>
      unfold onReadable
      split
      · exact h
      rename_i c hc
      have hstart : QuietOn cfg sec r sock (c.rx ++ []) := by
        intro c' hc'
        obtain rfl := mem_unique hc hc'
        exact hq c hc
      split <;> rename_i hr
      · exact (processBlocks_quiet cfg sec kernel _ h hstart hr).1
      · simpa using (processBlocks_quiet cfg sec kernel _ h hstart hr).1
    | error => simpa [onReadable] using h

/-! ## Runs -/

/-- An event brings no frame behind a handshake that ends in a refusal. -/
def Silent (r : Reactor (Node I) H S I) : Input → Prop
  | .event sock ev => ∀ recvs, ev.readable = some recvs → ∀ c, r.conns.lookup sock = some c →
    Quiet cfg sec r.delegate c (c.rx ++ received recvs)
  | .connect _ _ _ | .accept _ | .task _ | .timer _ | .closePending _ => True

variable (h : OnlyAdmitted r.delegate.log)

include h

theorem handleEvent_onlyAdmitted {ev : PollResult} (hq : Silent cfg sec r (.event sock ev)) :
    OnlyAdmitted (r.handleEvent (nodeSetup cfg sec kernel) sock ev).delegate.log := by
  have hread : OnlyAdmitted
      (r.readIfReady (nodeSetup cfg sec kernel) sock ev.readable).1.delegate.log := by
    cases hev : ev.readable with
    | none => exact h
    | some recvs => exact onReadable_onlyAdmitted cfg sec kernel h (hq recvs hev)
  have hrun : OnlyAdmitted (r.runHandlers (nodeSetup cfg sec kernel) sock ev).1.delegate.log := by
    unfold runHandlers
    split_ifs
    · simpa using h
    split <;> rename_i hr <;> rw [hr] at hread
    · exact hread
    split
    · exact hread
    · rwa [delegate_onWritable]
  unfold handleEvent
  split
  · exact h
  split_ifs
  · exact h
  split <;> rename_i hr <;> rw [hr] at hrun
  · exact hrun
  split
  · exact hrun
  · rwa [delegate_markForClose]

theorem remove_onlyAdmitted (sock : Socket) (reason : CloseReason) :
    OnlyAdmitted (r.remove (nodeSetup cfg sec kernel) sock reason).delegate.log := by
  unfold remove
  split
  · exact h
  rename_i c _
  rw [delegate_callback]
  refine onClosed_onlyAdmitted cfg ?_ c reason
  rwa [delegate_cancelEstablishTimer]

theorem processPendingClose_onlyAdmitted (batch : List (Socket × CloseReason)) :
    OnlyAdmitted (r.processPendingClose (nodeSetup cfg sec kernel) batch).delegate.log := by
  have hfold : ∀ r₀ : Reactor (Node I) H S I, OnlyAdmitted r₀.delegate.log → OnlyAdmitted
      (batch.foldl (fun r m => r.remove (nodeSetup cfg sec kernel) m.1 m.2) r₀).delegate.log := by
    induction batch with
    | nil => exact fun _ h => h
    | cons m batch ih => exact fun r₀ h => ih _ (remove_onlyAdmitted cfg sec kernel h m.1 m.2)
  exact hfold _ h

omit h

theorem Step.onlyAdmitted {i : Input} (hs : Step (nodeSetup cfg sec kernel) r i r')
    (h : OnlyAdmitted r.delegate.log) (hi : Silent cfg sec r i) : OnlyAdmitted r'.delegate.log := by
  cases hs with
  | connect => exact h
  | accept | task => simpa using h
  | event => exact handleEvent_onlyAdmitted cfg sec kernel h hi
  | timer => simpa using h
  | closePending => exact processPendingClose_onlyAdmitted cfg sec kernel h _

/-- **If no refused connection has a frame behind its handshake, only admitted connections reach the
router and the identify handler.** -/
theorem only_admitted {peers : PeerTable I} {r : Reactor (Node I) H S I}
    (h : Reachable (nodeSetup cfg sec kernel) (Silent cfg sec) (.new ⟨peers, []⟩) r) :
    OnlyAdmitted r.delegate.log := by
  induction h with
  | refl => trivial
  | step _ hok hs ih => exact hs.onlyAdmitted cfg sec kernel ih hok

/-! ## A node that is dialed -/

/-- A node with id 7 and no peer limit. -/
def soloConfig : Config ℕ := ⟨7, 0, 0, fun _ => none, [], fun _ => [], fun _ => []⟩

/-- The node speaks plaintext. -/
def soloSetup : Setup (Node ℕ) Plaintext.PlaintextHandshaker ℕ ℕ :=
  nodeSetup soloConfig (Plaintext.security 7 []) fun _ => .queued

/-- An application frame without payload. -/
def emptyFrame : Frame := ⟨⟨.app, 0, 0⟩, []⟩

/-- The handshake message of a peer and a frame, in one piece. -/
def greetingAndFrame (peer : ℕ) : Bytes :=
  encodeBlock (Plaintext.PlaintextHandshaker.message ⟨peer, [], true⟩) ++
    encodeBlock (encodeMessage emptyFrame.header emptyFrame.payload)

/-- The node has accepted a connection. -/
def soloAccepted : Reactor (Node ℕ) Plaintext.PlaintextHandshaker ℕ ℕ :=
  (Reactor.new ⟨.empty, []⟩).doAccept soloSetup 10

/-- It reads the greeting and the frame. -/
def soloGreeted (peer : ℕ) : Reactor (Node ℕ) Plaintext.PlaintextHandshaker ℕ ℕ :=
  soloAccepted.handleEvent soloSetup 10 ⟨false, some [.data (greetingAndFrame peer)], none⟩

theorem soloConfig_not_refuses {c : Connection H S ℕ} (hc : c.remoteId ≠ 7)
    (log : List (NodeEvent ℕ)) : ¬Refuses soloConfig ⟨.empty, log⟩ c := by
  rintro (h | h | h)
  · exact hc h
  · simp [beyondLimit, soloConfig] at h
  · rw [register] at h
    cases h

theorem soloAccepted_silent : Silent soloConfig (Plaintext.security 7 []) soloAccepted
    (.event 10 ⟨false, some [.data (greetingAndFrame 3)], none⟩) := by
  intro recvs hrecvs c hc
  cases hrecvs
  obtain rfl : c = ⟨1, .inbound, .handshaking, .peerClosed, some ⟨7, [], false⟩, none, 0, [],
      some 1, [], 0⟩ := mem_unique hc (by decide +kernel)
  intro s remote rest hend href
  have hid : (handshakeEnd (Plaintext.security 7 []) ⟨7, [], false⟩
      ([] ++ received [.data (greetingAndFrame 3)])).map (·.2.1) = some 3 := by decide +kernel
  rw [hend, map_some, some_inj] at hid
  exact absurd href (soloConfig_not_refuses (by rw [show remote = 3 from hid]; decide) _)

/-- A peer that is admitted may send its first frame along with the handshake. -/
theorem only_admitted_soloGreeted : OnlyAdmitted (soloGreeted 3).delegate.log ∧
    .dispatched 1 emptyFrame ∈ (soloGreeted 3).delegate.log :=
  ⟨only_admitted soloConfig (Plaintext.security 7 []) (fun _ => .queued)
    (.step (.step (i := .accept 10) .refl trivial (.accept (by decide)))
      soloAccepted_silent .event), by decide +kernel⟩

/-- A peer that claims the node's own id is refused, and its frame is dispatched. -/
theorem refused_frame_dispatched : ∃ r, Reachable soloSetup (fun _ _ => True)
    (.new ⟨.empty, []⟩) r ∧ ¬OnlyAdmitted r.delegate.log := by
  refine ⟨soloGreeted 7, .step (.step .refl trivial (.accept (by decide))) trivial .event, ?_⟩
  have hlog : (soloGreeted 7).delegate.log = [.dispatched 1 emptyFrame, .refused 1] := by
    decide +kernel
  rw [hlog]
  intro h
  exact absurd h.1 (by decide)

end Reactor

end Librats
