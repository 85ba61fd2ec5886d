import Librats.Subsystems.FileTransfer

/-!
# Which transfers a message can reach

Incoming transfers are looked up by the peer a message came from (`incomingPart_frame`), outgoing
ones by their id alone, whoever sent the message.
-/

namespace Librats.FileTransfer

open List Option AList

namespace State

variable {P : Type}

/-- The map `outgoing_` refers to objects with the id they are filed under. -/
def OutgoingWf (s : State P) : Prop :=
  ∀ id r, s.outgoing.lookup id = some r → ∃ t, s.outs[r]? = some t ∧ t.id = id

/-! ## The incoming side -/

/-- A trace in which no transfer completes. -/
def NoCompletion (events : List (Event P)) : Prop :=
  ∀ dir ref id ok path, Event.completed dir ref id ok path ∉ events

theorem noCompletion_nil : NoCompletion ([] : List (Event P)) := nofun

variable [DecidableEq P]

/-- `incoming_` refers to objects with the peer and the id they are filed under. -/
def IncomingWf (s : State P) : Prop :=
  ∀ peer id r, s.incoming.lookup (peer, id) = some r →
    ∃ t, s.ins[r]? = some t ∧ t.peer = peer ∧ t.id = id

/-- An object that changed, but not its peer or its id. -/
def SameOwner (t t' : Incoming P) : Prop := t'.peer = t.peer ∧ t'.id = t.id

/-- A handler left the outgoing side and other peers' incoming transfers alone. -/
structure InFrame (s : State P) (sender : P) (r : State P × List (Event P)) : Prop where
  outs : r.1.outs = s.outs
  outgoing : r.1.outgoing = s.outgoing
  ins : ∀ (ref : ℕ) (t : Incoming P), s.ins[ref]? = some t → t.peer ≠ sender →
    r.1.ins[ref]? = some t
  incoming : ∀ (ref : ℕ) (t : Incoming P), s.ins[ref]? = some t → t.peer ≠ sender → ∀ key,
    r.1.incoming.lookup key = some ref ↔ s.incoming.lookup key = some ref
  completed : ∀ dir ref id ok path, Event.completed dir ref id ok path ∈ r.2 →
    dir = .receiving ∧ ∀ t, s.ins[ref]? = some t → t.peer = sender
  wf : s.IncomingWf → r.1.IncomingWf

variable {r id : ℕ} {t t' : Incoming P} {s : State P} {sender : P} {events : List (Event P)}

omit [DecidableEq P] in
theorem SameOwner.set {ins : List (Incoming P)} (ht : ins[r]? = some t) (h : SameOwner t t')
    (ref : ℕ) (x : Incoming P) (hx : ins[ref]? = some x) :
    ∃ x', (ins.set r t')[ref]? = some x' ∧ SameOwner x x' := by
  by_cases hr : r = ref
  · subst hr
    obtain rfl := mem_unique ht hx
    exact ⟨t', by rw [List.getElem?_set_self (List.getElem?_eq_some_iff.mp ht).1], h⟩
  · exact ⟨x, (getElem?_set_ne hr).trans hx, rfl, rfl⟩

/-- Dropping entries and changing objects under their owner keeps the map well formed. -/
theorem IncomingWf.of_sub {s' : State P} (hw : s.IncomingWf)
    (hmap : ∀ key r, s'.incoming.lookup key = some r → s.incoming.lookup key = some r)
    (hobj : ∀ (ref : ℕ) (t : Incoming P), s.ins[ref]? = some t →
      ∃ t', s'.ins[ref]? = some t' ∧ SameOwner t t') : s'.IncomingWf := by
  intro peer id r h
  obtain ⟨t, ht, hpeer, hid⟩ := hw peer id r (hmap _ r h)
  obtain ⟨t', ht', hpeer', hid'⟩ := hobj r t ht
  exact ⟨t', ht', hpeer'.trans hpeer, hid'.trans hid⟩

theorem InFrame.of_set {ref : ℕ} (ht : s.ins[ref]? = some t) (hpeer : t.peer = sender)
    (hown : SameOwner t t') (hev : NoCompletion events) :
    s.InFrame sender ({ s with ins := s.ins.set ref t' }, events) where
  outs := rfl
  outgoing := rfl
  ins ref' x hx hne := by
    have hne' : ref ≠ ref' := by
      rintro rfl
      exact hne (mem_unique ht hx ▸ hpeer)
    exact (getElem?_set_ne hne').trans hx
  incoming _ _ _ _ _ := Iff.rfl
  completed dir ref id ok path h := absurd h (hev dir ref id ok path)
  wf hw := hw.of_sub (fun _ _ h => h) (SameOwner.set ht hown)

omit [DecidableEq P] in
theorem modifyIn_eq (ht : s.ins[r]? = some t) (f : Incoming P → Incoming P) :
    s.modifyIn r f = { s with ins := s.ins.set r (f t) } := by
  simp [modifyIn, modify_eq_set_getElem?, ht]

theorem InFrame.of_modify (ht : s.ins[r]? = some t) (hpeer : t.peer = sender)
    {f : Incoming P → Incoming P} (hown : SameOwner t (f t)) (hev : NoCompletion events) :
    s.InFrame sender (s.modifyIn r f, events) := by
  rw [modifyIn_eq ht]
  exact .of_set ht hpeer hown hev

theorem InFrame.refl (s : State P) (sender : P) (hev : NoCompletion events) :
    s.InFrame sender (s, events) where
  outs := rfl
  outgoing := rfl
  ins _ _ hx _ := hx
  incoming _ _ _ _ _ := Iff.rfl
  completed dir ref id ok path h := absurd h (hev dir ref id ok path)
  wf := id

theorem InFrame.same : s.InFrame sender (s, []) := .refl s sender noCompletion_nil

theorem InFrame.trans {a b : State P × List (Event P)} (ha : s.InFrame sender a)
    (hb : a.1.InFrame sender b) : s.InFrame sender (b.1, a.2 ++ b.2) where
  outs := hb.outs.trans ha.outs
  outgoing := hb.outgoing.trans ha.outgoing
  ins ref t ht hne := hb.ins ref t (ha.ins ref t ht hne) hne
  incoming ref t ht hne key :=
    (hb.incoming ref t (ha.ins ref t ht hne) hne key).trans (ha.incoming ref t ht hne key)
  completed dir ref id ok path h := by
    rcases mem_append.mp h with h | h
    · exact ha.completed dir ref id ok path h
    · obtain ⟨hdir, hpeer⟩ := hb.completed dir ref id ok path h
      refine ⟨hdir, fun t ht => ?_⟩
      by_contra hne
      exact hne (hpeer t (ha.ins ref t ht hne))
  wf hw := hb.wf (ha.wf hw)

theorem IncomingWf.find (hw : s.IncomingWf) (h : s.findIncoming sender id = some r) :
    ∃ t, s.ins[r]? = some t ∧ t.peer = sender := by
  obtain ⟨t, ht, hpeer, -⟩ := hw sender id r h
  exact ⟨t, ht, hpeer⟩

theorem IncomingWf.peer_eq (hw : s.IncomingWf) (h : s.findIncoming sender id = some r)
    (t : Incoming P) (ht : s.ins[r]? = some t) : t.peer = sender := by
  obtain ⟨t', ht', hpeer⟩ := hw.find h
  exact mem_unique ht ht' ▸ hpeer

theorem lookup_erase_incoming (hw : s.IncomingWf) {ref : ℕ} (ht : s.ins[ref]? = some t)
    (hne : t.peer ≠ sender) (id : ℕ) (key : P × ℕ) :
    (s.incoming.erase (sender, id)).lookup key = some ref ↔ s.incoming.lookup key = some ref := by
  by_cases hkey : key = (sender, id)
  · subst hkey
    rw [lookup_erase]
    exact ⟨nofun, fun h => absurd (hw.peer_eq h t ht) hne⟩
  · rw [lookup_erase_ne hkey]

theorem finishIncoming_frame (hw : s.IncomingWf) (hr : ∀ t, s.ins[r]? = some t → t.peer = sender)
    (success : Bool) (error : String) : s.InFrame sender (s.finishIncoming r success error) := by
  unfold finishIncoming
  split
  · exact .same
  rename_i t ht
  have hpeer := hr t ht
  split_ifs with hfin
  · exact .same
  refine ⟨rfl, rfl, fun ref x hx hne => ?_, fun ref x hx hne key => ?_,
    fun dir ref id ok path h => ?_, fun hw => ?_⟩
  · have hne' : r ≠ ref := by
      rintro rfl
      exact hne (hr x hx)
    exact (getElem?_set_ne hne').trans hx
  · have := lookup_erase_incoming hw hx hne t.id key
    rwa [← hpeer] at this
  · simp only [mem_cons, Event.completed.injEq, reduceCtorEq, not_mem_nil, or_false, false_or] at h
    obtain ⟨rfl, rfl, -⟩ := h
    exact ⟨rfl, hr⟩
  · exact hw.of_sub (fun _ _ h => (AssocList.lookup_of_erase h).2) (SameOwner.set ht ⟨rfl, rfl⟩)

theorem settle_frame (hw : s.IncomingWf) (hr : s.findIncoming sender id = some r)
    (ht : s.ins[r]? = some t) {a : Accepts P} (hown : ∀ t', a = .ok t' → SameOwner t t') :
    s.InFrame sender (s.settle sender id r t a) := by
  cases a with
  | error fail =>
    have hsent : NoCompletion [Event.sent sender (completeMessage id false)] := by
      simp [NoCompletion]
    exact (InFrame.refl s sender hsent).trans (finishIncoming_frame hw (hw.peer_eq hr) false fail)
  | ok t' =>
    have hev : NoCompletion (if t.scheduled then [] else [(Event.scheduled r : Event P)]) := by
      split_ifs <;> simp [NoCompletion]
    exact .of_modify ht (hw.peer_eq hr t ht) (hown t' rfl) hev

omit [DecidableEq P] in
theorem queueChunk_sameOwner {fidx offset : ℕ} {data : Bytes} {now : ℕ}
    (h : queueChunk t fidx offset data now = .ok t') : SameOwner t t' := by
  unfold queueChunk at h
  split at h
  · cases h
  · split_ifs at h
    cases h
    exact ⟨rfl, rfl⟩

omit [DecidableEq P] in
theorem queueFileEnd_sameOwner {fidx : ℕ} {sha : Bytes} (h : queueFileEnd t fidx sha = .ok t') :
    SameOwner t t' := by
  unfold queueFileEnd at h
  split_ifs at h
  split at h
  · cases h
  · split_ifs at h
    cases h
    exact ⟨rfl, rfl⟩

variable (hw : s.IncomingWf)

include hw

theorem handleChunk_frame (sender : P) (id fidx offset : ℕ) (data : Bytes)
    (now : ℕ) : s.InFrame sender (s.handleChunk sender id fidx offset data now) := by
  unfold handleChunk
  split
  · exact .same
  rename_i r hr
  split
  · exact .same
  rename_i t ht
  split_ifs
  · exact .same
  · exact .same
  · exact settle_frame hw hr ht fun _ => queueChunk_sameOwner

theorem handleFileEnd_frame (sender : P) (id fidx : ℕ) (sha : Bytes) :
    s.InFrame sender (s.handleFileEnd sender id fidx sha) := by
  unfold handleFileEnd
  split
  · exact .same
  rename_i r hr
  split
  · exact .same
  rename_i t ht
  split_ifs
  · exact .same
  · exact settle_frame hw hr ht fun _ => queueFileEnd_sameOwner

theorem reject_frame (sender : P) (id : ℕ) : s.InFrame sender (s.reject sender id) where
  outs := rfl
  outgoing := rfl
  ins _ _ hx _ := hx
  incoming ref t ht hne key := lookup_erase_incoming hw ht hne id key
  completed dir ref i ok path h := by
    unfold reject at h
    split at h
    · simp at h
    · rename_i r hr
      simp only [mem_cons, Event.completed.injEq, reduceCtorEq, not_mem_nil, or_false,
        false_or] at h
      obtain ⟨rfl, rfl, -⟩ := h
      exact ⟨rfl, hw.peer_eq hr⟩
  wf hw := hw.of_sub (fun _ _ h => (AssocList.lookup_of_erase h).2) fun _ t ht => ⟨t, ht, rfl, rfl⟩

theorem insert_incomingWf (hpeer : t.peer = sender) (hid : t.id = id) : IncomingWf { s with
      ins := s.ins ++ [t]
      incoming := s.incoming.insert (sender, id) s.ins.length } := by
  intro peer i r h
  obtain ⟨hkey, rfl⟩ | ⟨-, h⟩ := AssocList.lookup_of_insert h
  · obtain ⟨rfl, rfl⟩ := Prod.mk.inj hkey
    exact ⟨t, by simp, hpeer, hid⟩
  · obtain ⟨x, hx, hp⟩ := hw peer i r h
    exact ⟨x, by rw [List.getElem?_append_left (List.getElem?_eq_some_iff.mp hx).1]; exact hx, hp⟩

omit hw in
theorem insert_frame (hid : s.findIncoming sender id = none) (ht : t.peer = sender ∧ t.id = id)
    (hev : NoCompletion events) : s.InFrame sender ({ s with
      ins := s.ins ++ [t]
      incoming := s.incoming.insert (sender, id) s.ins.length }, events) where
  outs := rfl
  outgoing := rfl
  ins ref x hx _ := by
    rwa [List.getElem?_append_left (List.getElem?_eq_some_iff.mp hx).1]
  incoming ref x hx hne key := by
    have hlt := (List.getElem?_eq_some_iff.mp hx).1
    by_cases hkey : key = (sender, id)
    · subst hkey
      rw [lookup_insert, some_inj]
      refine ⟨fun h => absurd h hlt.ne', fun h => ?_⟩
      rw [findIncoming, h] at hid
      cases hid
    · rw [lookup_insert_ne hkey]
  completed dir ref i ok path h := absurd h (hev dir ref i ok path)
  wf hw := insert_incomingWf hw ht.1 ht.2

theorem handleOffer_frame (sender : P) (id : ℕ) (isDir : Bool) (total : ℕ)
    (name : Bytes) (files : List FileEntry) (now : ℕ) :
    s.InFrame sender (s.handleOffer sender id isDir total name files now) := by
  unfold handleOffer
  split_ifs with hdup hsafe
  · exact .same
  · exact .refl s sender (by simp [NoCompletion])
  rw [Bool.not_eq_true, isSome_eq_false_iff, isNone_iff_eq_none] at hdup
  have hnew := insert_frame hdup (t := newIncoming sender id isDir name files now) ⟨rfl, rfl⟩
    noCompletion_nil
  by_cases hh : s.hasOfferHandler = true
  · exact (congrArg (s.InFrame sender) (if_pos hh)).mpr
      (insert_frame hdup ⟨rfl, rfl⟩ (by simp [NoCompletion]))
  · exact (congrArg (s.InFrame sender) (if_neg hh)).mpr
      (hnew.trans (reject_frame (hnew.wf hw) sender id))

/-- **A message never reaches an incoming transfer of another peer.** -/
theorem incomingPart_frame (sender : P) (m : Message) (now : ℕ) :
    s.InFrame sender (s.incomingPart sender m now) := by
  cases m with
  | offer id isDir total name files => exact handleOffer_frame hw ..
  | chunk id fidx offset data => exact handleChunk_frame hw ..
  | fileEnd id fidx sha => exact handleFileEnd_frame hw ..
  | response | progress | complete => exact .same
  | cancel id =>
    simp only [incomingPart]
    split
    · exact .same
    rename_i r hr
    obtain ⟨t, ht, hpeer⟩ := hw.find hr
    have hmod := InFrame.of_modify ht hpeer (f := fun t => { t with status := .cancelled })
      ⟨rfl, rfl⟩ noCompletion_nil
    exact hmod.trans
      (finishIncoming_frame (hmod.wf hw) ((hmod.wf hw).peer_eq hr) false "cancelled by peer")
  | pause id | resume id =>
    simp only [incomingPart]
    split
    · exact .same
    rename_i r hr
    obtain ⟨t, ht, hpeer⟩ := hw.find hr
    exact .of_modify ht hpeer (by split_ifs <;> exact ⟨rfl, rfl⟩) noCompletion_nil

omit hw

/-! ## The outgoing side -/

omit [DecidableEq P]

/-- The outgoing transfer `r`, once `t`, is `t'` now, and the rest of the state is as it was. -/
structure OutFrame (s : State P) (r : ℕ) (t t' : Outgoing P) (res : State P × List (Event P)) :
    Prop where
  self : res.1.outs[r]? = some t'
  outs : ∀ ref, ref ≠ r → res.1.outs[ref]? = s.outs[ref]?
  outgoing : ∀ ref, ref ≠ r → ∀ key,
    res.1.outgoing.lookup key = some ref ↔ s.outgoing.lookup key = some ref
  ins : res.1.ins = s.ins
  incoming : res.1.incoming = s.incoming
  completed : ∀ dir ref id ok path, Event.completed dir ref id ok path ∈ res.2 →
    dir = .sending ∧ ref = r
  running : t'.finished = t.finished → res.1.outgoing = s.outgoing ∧ NoCompletion res.2
  wf : t'.id = t.id ∧ (s.OutgoingWf → res.1.OutgoingWf)

theorem OutgoingWf.of_sub {s' : State P} (hw : s.OutgoingWf)
    (hmap : ∀ id r, s'.outgoing.lookup id = some r → s.outgoing.lookup id = some r)
    {t t' : Outgoing P} (ht : s.outs[r]? = some t) (ht' : s'.outs[r]? = some t')
    (houts : ∀ ref, ref ≠ r → s'.outs[ref]? = s.outs[ref]?) (hid : t'.id = t.id) :
    s'.OutgoingWf := by
  intro id ref h
  obtain ⟨x, hx, hxid⟩ := hw id ref (hmap id ref h)
  by_cases href : ref = r
  · subst href
    exact ⟨t', ht', by rw [hid, mem_unique ht hx, hxid]⟩
  · exact ⟨x, (houts ref href).trans hx, hxid⟩

theorem OutFrame.of_modify {t : Outgoing P} (ht : s.outs[r]? = some t)
    {f : Outgoing P → Outgoing P} (hid : (f t).id = t.id) (hev : NoCompletion events) :
    s.OutFrame r t (f t) (s.modifyOut r f, events) := by
  have hself : (s.modifyOut r f).outs[r]? = some (f t) := by simp [modifyOut, ht]
  have houts : ∀ ref, ref ≠ r → (s.modifyOut r f).outs[ref]? = s.outs[ref]? := fun ref h =>
    getElem?_modify_ne _ _ h.symm
  exact {
    self := hself
    outs := houts
    outgoing _ _ _ := Iff.rfl
    ins := rfl
    incoming := rfl
    completed dir ref id ok path h := absurd h (hev dir ref id ok path)
    running _ := ⟨rfl, hev⟩
    wf := ⟨hid, fun hw => hw.of_sub (fun _ _ h => h) ht hself houts hid⟩ }

/-- An outgoing transfer after `finish_outgoing`. -/
def concluded (t : Outgoing P) (success : Bool) : Outgoing P :=
  if t.finished then t else { t with finished := true, status := finalStatus t.status success }

theorem OutFrame.finishOutgoing {t : Outgoing P} (ht : s.outs[r]? = some t)
    (hr : s.outgoing.lookup t.id = some r) (success : Bool) :
    s.OutFrame r t (concluded t success) (s.finishOutgoing r success) := by
  simp only [State.finishOutgoing, ht, concluded]
  cases hfin : t.finished with
  | true =>
    exact ⟨ht, fun _ _ => rfl, fun _ _ _ => Iff.rfl, rfl, rfl, fun _ _ _ _ _ h => (nomatch h),
      fun _ => ⟨rfl, noCompletion_nil⟩, rfl, id⟩
  | false =>
    simp only [Bool.false_eq_true, if_false]
    have hself := List.getElem?_set_self (List.getElem?_eq_some_iff.mp ht).1
      (a := { t with finished := true, status := finalStatus t.status success })
    refine ⟨hself, fun ref h => getElem?_set_ne h.symm, fun ref href key => ?_, rfl, rfl,
      fun dir ref id ok path h => ?_, fun h => ?_, rfl, fun hw => hw.of_sub
        (fun _ _ h => (AssocList.lookup_of_erase h).2) ht hself
        (fun ref h => getElem?_set_ne h.symm) rfl⟩
    · refine ⟨fun h => (AssocList.lookup_of_erase h).2, fun h => ?_⟩
      have hkey : key ≠ t.id := by
        rintro rfl
        exact href (mem_unique h hr)
      exact (lookup_erase_ne hkey).trans h
    · simp only [mem_cons, Event.completed.injEq, reduceCtorEq, not_mem_nil, or_false,
        false_or] at h
      exact ⟨h.1, h.2.1⟩
    · rw [hfin] at h
      cases h

theorem OutFrame.trans {t t' t'' : Outgoing P} {a b : State P × List (Event P)}
    (ha : s.OutFrame r t t' a) (hb : a.1.OutFrame r t' t'' b) (hfin : t'.finished = t.finished) :
    s.OutFrame r t t'' (b.1, a.2 ++ b.2) where
  self := hb.self
  outs ref h := (hb.outs ref h).trans (ha.outs ref h)
  outgoing ref h key := (hb.outgoing ref h key).trans (ha.outgoing ref h key)
  ins := hb.ins.trans ha.ins
  incoming := hb.incoming.trans ha.incoming
  completed dir ref id ok path h :=
    (mem_append.mp h).elim (ha.completed dir ref id ok path) (hb.completed dir ref id ok path)
  running h := by
    obtain ⟨hga, hca⟩ := ha.running hfin
    obtain ⟨hgb, hcb⟩ := hb.running (h.trans hfin.symm)
    refine ⟨hgb.trans hga, fun dir ref id ok path h => ?_⟩
    exact (mem_append.mp h).elim (hca dir ref id ok path) (hcb dir ref id ok path)
  wf := ⟨hb.wf.1.trans ha.wf.1, fun hw => hb.wf.2 (ha.wf.2 hw)⟩

end State

open State

variable {P : Type}

/-- The id under which a message looks for an outgoing transfer. -/
def Message.outgoingId : Message → Option ℕ
  | .response id _ | .progress id _ | .complete id _ | .cancel id | .pause id | .resume id => some id
  | .offer .. | .chunk .. | .fileEnd .. => none

/-- What a message makes of the outgoing transfer it finds. -/
def Message.updated (m : Message) (now : ℕ) (t : Outgoing P) : Outgoing P :=
  match m with
  | .response _ accepted =>
    if accepted = 0 then concluded t false
    else { t with
      status := if t.status = .pending then .active else t.status
      lastActivity := now }
  | .progress _ received => { t with acked := received, lastActivity := now }
  | .complete _ ok => concluded t (ok ≠ 0)
  | .cancel _ => concluded { t with status := .cancelled } false
  | .pause _ => if t.status = .active then { t with status := .paused } else t
  | .resume _ => if t.status = .paused then { t with status := .active, lastActivity := now } else t
  | .offer .. | .chunk .. | .fileEnd .. => t

/-- The message changes more of the outgoing transfer than its activity time. -/
def Message.Affects (m : Message) (t : Outgoing P) : Prop :=
  match m with
  | .response _ accepted => if accepted = 0 then t.finished = false else t.status = .pending
  | .progress _ received => received ≠ t.acked
  | .complete _ _ => t.finished = false
  | .cancel _ => t.finished = false ∨ t.status ≠ .cancelled
  | .pause _ => t.status = .active
  | .resume _ => t.status = .paused
  | .offer .. | .chunk .. | .fileEnd .. => False

/-- A transfer that differs from `t` at most in its activity time. -/
def SameTransfer (t t' : Outgoing P) : Prop := ∃ a, t' = { t with lastActivity := a }

variable (t : Outgoing P)

theorem SameTransfer.refl : SameTransfer t t := ⟨t.lastActivity, rfl⟩

theorem sameTransfer_concluded (success : Bool) :
    SameTransfer t (concluded t success) ↔ t.finished = true := by
  unfold concluded
  constructor
  · rintro ⟨a, ha⟩
    by_contra hfin
    rw [if_neg hfin] at ha
    exact hfin (congrArg Outgoing.finished ha).symm
  · intro hfin
    rw [if_pos hfin]
    exact .refl t

theorem sameTransfer_status (status : Status) (a : ℕ) :
    SameTransfer t { t with status := status, lastActivity := a } ↔ t.status = status := by
  constructor
  · rintro ⟨a', h⟩
    exact (congrArg Outgoing.status h).symm
  · rintro rfl
    exact ⟨a, rfl⟩

/-- `Affects` is exactly that: a change of something other than the activity time. -/
theorem sameTransfer_updated (m : Message) (now : ℕ) (t : Outgoing P) :
    SameTransfer t (m.updated now t) ↔ ¬m.Affects t := by
  cases m with
  | response id accepted =>
    simp only [Message.updated, Message.Affects]
    by_cases ha : accepted = 0
    · rw [if_pos ha, if_pos ha, sameTransfer_concluded, Bool.not_eq_false]
    · rw [if_neg ha, sameTransfer_status]
      split_ifs with hp
      · simp [hp]
      · exact iff_of_true rfl hp
  | progress id received =>
    simp only [Message.Affects, not_not]
    constructor
    · rintro ⟨a, h⟩
      exact congrArg Outgoing.acked h
    · rintro rfl
      exact ⟨now, rfl⟩
  | complete id ok =>
    simp only [Message.updated, Message.Affects]
    rw [sameTransfer_concluded, Bool.not_eq_false]
  | cancel id =>
    simp only [Message.updated, Message.Affects, not_or, Bool.not_eq_false, not_not]
    constructor
    · rintro ⟨a, h⟩
      have hf := congrArg Outgoing.finished h
      have hs := congrArg Outgoing.status h
      simp only [concluded] at hf hs
      split_ifs at hf hs with hfin
      · exact ⟨hfin, hs.symm⟩
      · exact absurd hf.symm hfin
    · rintro ⟨hfin, hs⟩
      refine ⟨t.lastActivity, ?_⟩
      rw [concluded, if_pos hfin, ← hs]
  | pause id | resume id =>
    simp only [Message.updated, Message.Affects]
    split_ifs with hs
    · refine (sameTransfer_status t _ _).trans ?_
      simp [hs]
    · exact iff_of_true (.refl t) hs
  | offer | chunk | fileEnd => exact iff_of_true (.refl t) not_false

namespace State

variable {s : State P}

theorem outgoingPart_of_none {m : Message} (h : m.outgoingId.bind s.findOutgoing = none) (now : ℕ) :
    s.outgoingPart m now = (s, []) := by
  cases m <;> simp only [Message.outgoingId, bind_some] at h <;> simp [outgoingPart, h]

theorem OutgoingWf.find (hw : s.OutgoingWf) {m : Message} {r : ℕ}
    (hm : m.outgoingId.bind s.findOutgoing = some r) :
    ∃ t, s.outs[r]? = some t ∧ s.outgoing.lookup t.id = some r := by
  obtain ⟨id, -, hr⟩ := bind_eq_some_iff.mp hm
  obtain ⟨t, ht, rfl⟩ := hw id r hr
  exact ⟨t, ht, hr⟩

/-- **A control message reaches the outgoing transfer of its id and nothing else.** -/
theorem outgoingPart_frame (hw : s.OutgoingWf) {m : Message} {r : ℕ} {t : Outgoing P}
    (hm : m.outgoingId.bind s.findOutgoing = some r) (ht : s.outs[r]? = some t) (now : ℕ) :
    s.OutFrame r t (m.updated now t) (s.outgoingPart m now) := by
  obtain ⟨id, hid, hr⟩ := bind_eq_some_iff.mp hm
  have hrid : s.outgoing.lookup t.id = some r := by
    obtain ⟨t', ht', hlookup⟩ := hw.find hm
    rwa [mem_unique ht ht']
  cases m with
  | response i accepted =>
    cases hid
    simp only [outgoingPart, hr, Message.updated]
    by_cases ha : accepted = 0
    · rw [if_pos ha, if_pos ha]
      exact .finishOutgoing ht hrid false
    · rw [if_neg ha, if_neg ha]
      exact .of_modify ht (f := fun t => { t with
        status := if t.status = .pending then .active else t.status
        lastActivity := now }) rfl (by simp [NoCompletion])
  | progress i received =>
    cases hid
    simp only [outgoingPart, hr]
    exact .of_modify ht rfl noCompletion_nil
  | complete i ok =>
    cases hid
    simp only [outgoingPart, hr]
    exact .finishOutgoing ht hrid _
  | cancel i =>
    cases hid
    simp only [outgoingPart, hr]
    have hmod := OutFrame.of_modify ht (f := fun t => { t with status := .cancelled }) rfl
      noCompletion_nil
    exact hmod.trans (.finishOutgoing hmod.self hrid false) rfl
  | pause i =>
    cases hid
    simp only [outgoingPart, hr]
    exact .of_modify ht
      (f := fun t => if t.status = .active then { t with status := .paused } else t)
      (by split_ifs <;> rfl) noCompletion_nil
  | resume i =>
    cases hid
    simp only [outgoingPart, hr]
    exact .of_modify ht (f := fun t =>
        if t.status = .paused then { t with status := .active, lastActivity := now } else t)
      (by split_ifs <;> rfl) (by split_ifs <;> simp [NoCompletion])
  | offer | chunk | fileEnd => cases hid

/-! ## Isolation -/

variable [DecidableEq P]

/-- The transfers of peers other than the sender are as they were: the objects, their places in the
maps and the completion callbacks. -/
structure Isolated (s : State P) (sender : P) (res : State P × List (Event P)) : Prop where
  outs : ∀ (ref : ℕ) (t : Outgoing P), s.outs[ref]? = some t → t.peer ≠ sender →
    ∃ t', res.1.outs[ref]? = some t' ∧ SameTransfer t t'
  outgoing : ∀ (ref : ℕ) (t : Outgoing P), s.outs[ref]? = some t → t.peer ≠ sender → ∀ key,
    res.1.outgoing.lookup key = some ref ↔ s.outgoing.lookup key = some ref
  sent : ∀ (ref : ℕ) (t : Outgoing P), s.outs[ref]? = some t → t.peer ≠ sender →
    ∀ id ok path, Event.completed .sending ref id ok path ∉ res.2
  ins : ∀ (ref : ℕ) (t : Incoming P), s.ins[ref]? = some t → t.peer ≠ sender →
    res.1.ins[ref]? = some t
  incoming : ∀ (ref : ℕ) (t : Incoming P), s.ins[ref]? = some t → t.peer ≠ sender → ∀ key,
    res.1.incoming.lookup key = some ref ↔ s.incoming.lookup key = some ref
  received : ∀ (ref : ℕ) (t : Incoming P), s.ins[ref]? = some t → t.peer ≠ sender →
    ∀ id ok path, Event.completed .receiving ref id ok path ∉ res.2

/-- The message finds no outgoing transfer to another peer, or does not affect it. -/
def LeavesOthers (s : State P) (sender : P) (m : Message) : Prop :=
  ∀ (r : ℕ) (t : Outgoing P), m.outgoingId.bind s.findOutgoing = some r → s.outs[r]? = some t →
    t.peer ≠ sender → ¬m.Affects t

/-- The incoming half of a message, after an outgoing half that kept the others' transfers. -/
theorem Isolated.of_parts {sender : P} {o i : State P × List (Event P)}
    (hi : o.1.InFrame sender i) (hins : o.1.ins = s.ins) (hinc : o.1.incoming = s.incoming)
    (hdir : ∀ dir ref id ok path, Event.completed dir ref id ok path ∈ o.2 → dir = .sending)
    (houts : ∀ (ref : ℕ) (t : Outgoing P), s.outs[ref]? = some t → t.peer ≠ sender →
      (∃ t', o.1.outs[ref]? = some t' ∧ SameTransfer t t') ∧
      (∀ key, o.1.outgoing.lookup key = some ref ↔ s.outgoing.lookup key = some ref) ∧
      ∀ id ok path, Event.completed .sending ref id ok path ∉ o.2) :
    s.Isolated sender (i.1, o.2 ++ i.2) where
  outs ref t ht hne := by
    rw [hi.outs]
    exact (houts ref t ht hne).1
  outgoing ref t ht hne key := by
    rw [hi.outgoing]
    exact (houts ref t ht hne).2.1 key
  sent ref t ht hne id ok path h := by
    rcases mem_append.mp h with h | h
    · exact (houts ref t ht hne).2.2 id ok path h
    · exact nomatch (hi.completed _ ref id ok path h).1
  ins ref t ht hne := hi.ins ref t (hins ▸ ht) hne
  incoming ref t ht hne key := hinc ▸ hi.incoming ref t (hins ▸ ht) hne key
  received ref t ht hne id ok path h := by
    rcases mem_append.mp h with h | h
    · exact nomatch hdir _ ref id ok path h
    · exact hne ((hi.completed _ ref id ok path h).2 t (hins ▸ ht))

theorem handle_isolated_iff (ho : s.OutgoingWf) (hi : s.IncomingWf) (sender : P) (m : Message)
    (now : ℕ) : s.Isolated sender (((s.outgoingPart m now).1.incomingPart sender m now).1,
      (s.outgoingPart m now).2 ++ ((s.outgoingPart m now).1.incomingPart sender m now).2) ↔
    s.LeavesOthers sender m := by
  cases hr : m.outgoingId.bind s.findOutgoing with
  | none =>
    rw [outgoingPart_of_none hr]
    refine iff_of_true (.of_parts (incomingPart_frame hi sender m now) rfl rfl ?_ ?_) ?_
    · exact nofun
    · exact fun ref t ht _ => ⟨⟨t, ht, .refl t⟩, fun _ => Iff.rfl, nofun⟩
    · intro r t h
      cases hr.symm.trans h
  | some r =>
    obtain ⟨t, ht, -⟩ := ho.find hr
    have hout := outgoingPart_frame ho hr ht now
    have hin : (s.outgoingPart m now).1.InFrame sender _ :=
      incomingPart_frame (by rw [IncomingWf, hout.ins, hout.incoming]; exact hi) sender m now
    constructor
    · intro h r' t' hr' ht' hne haff
      obtain rfl : r = r' := mem_unique hr hr'
      obtain rfl : t = t' := mem_unique ht ht'
      obtain ⟨u, hu, hsame⟩ := h.outs r t ht hne
      rw [hin.outs, hout.self, some_inj] at hu
      exact (sameTransfer_updated m now t).mp (hu ▸ hsame) haff
    intro h
    refine .of_parts hin hout.ins hout.incoming
      (fun dir ref id ok path h => (hout.completed dir ref id ok path h).1) fun ref u hu hne => ?_
    by_cases href : ref = r
    · subst href
      obtain rfl : t = u := mem_unique ht hu
      have hsame := (sameTransfer_updated m now t).mpr (h ref t hr ht hne)
      obtain ⟨hmap, hev⟩ := hout.running (by obtain ⟨a, ha⟩ := hsame; rw [ha])
      exact ⟨⟨_, hout.self, hsame⟩, fun key => by rw [hmap], fun id ok path => hev _ ref id ok path⟩
    · exact ⟨⟨u, (hout.outs ref href).trans hu, .refl u⟩, hout.outgoing ref href,
        fun id ok path h => href (hout.completed _ ref id ok path h).2⟩

/-- The maps stay well formed, so that `onMessage_isolated_iff` applies after any run. -/
theorem onMessage_wf (ho : s.OutgoingWf) (hi : s.IncomingWf) (sender : P) (payload : Bytes)
    (now : ℕ) : (s.onMessage sender payload now).1.OutgoingWf ∧
      (s.onMessage sender payload now).1.IncomingWf := by
  unfold onMessage
  split
  · exact ⟨ho, hi⟩
  rename_i m _
  obtain ⟨ho', hi'⟩ :
      (s.outgoingPart m now).1.OutgoingWf ∧ (s.outgoingPart m now).1.IncomingWf := by
    cases hr : m.outgoingId.bind s.findOutgoing with
    | none =>
      rw [outgoingPart_of_none hr]
      exact ⟨ho, hi⟩
    | some r =>
      obtain ⟨t, ht, -⟩ := ho.find hr
      have hout := outgoingPart_frame ho hr ht now
      refine ⟨hout.wf.2 ho, ?_⟩
      rwa [IncomingWf, hout.ins, hout.incoming]
  have hin := incomingPart_frame hi' sender m now
  refine ⟨?_, hin.wf hi'⟩
  rwa [OutgoingWf, hin.outs, hin.outgoing]

/-- **A message leaves the transfers of other peers alone exactly if it does not name, by its id,
an outgoing transfer to another peer that it affects.** -/
theorem onMessage_isolated_iff {s : State P} (ho : s.OutgoingWf) (hi : s.IncomingWf) (sender : P)
    (payload : Bytes) (now : ℕ) : s.Isolated sender (s.onMessage sender payload now) ↔
      ∀ m, parse payload = some m → s.LeavesOthers sender m := by
  unfold onMessage
  split
  · rename_i hnone
    refine iff_of_true ⟨fun ref t ht _ => ⟨t, ht, .refl t⟩, fun _ _ _ _ _ => Iff.rfl,
      fun _ _ _ _ _ _ _ h => (nomatch h), fun _ _ ht _ => ht, fun _ _ _ _ _ => Iff.rfl,
      fun _ _ _ _ _ _ _ h => (nomatch h)⟩ fun m hm => ?_
    cases hnone.symm.trans hm
  · rename_i m hm
    refine (handle_isolated_iff ho hi sender m now).trans ⟨fun h m' hm' => ?_, fun h => h m hm⟩
    obtain rfl : m = m' := mem_unique hm hm'
    exact h

/-- One active transfer, to peer 1. -/
def oneTransfer : State ℕ where
  outs := [⟨1, 1, [], [], 10, 0, 0, 0, 0, 0, .active, false, 0⟩]
  ins := []
  outgoing := AList.singleton 1 0
  incoming := ∅
  hasOfferHandler := false
  completed := 0
  failed := 0

/-- `CANCEL` of transfer 1. -/
def cancelOne : Bytes := [7, 0, 0, 0, 0, 0, 0, 0, 1]

theorem oneTransfer_wf : oneTransfer.OutgoingWf ∧ oneTransfer.IncomingWf := by
  refine ⟨fun id r h => ?_, nofun⟩
  have hid : id = 1 := by
    by_contra hid
    rw [oneTransfer, AList.lookup_eq_none.mpr (by simpa [AList.mem_keys] using hid)]
      at h
    cases h
  subst hid
  cases h
  exact ⟨_, rfl, rfl⟩

/-- The receiver of the transfer may cancel it. -/
theorem cancelOne_isolated_receiver :
    oneTransfer.Isolated 1 (oneTransfer.onMessage 1 cancelOne 5) :=
  (onMessage_isolated_iff oneTransfer_wf.1 oneTransfer_wf.2 1 cancelOne 5).mpr
    fun _ _ _ t _ ht hne => by
      have hmem := mem_of_getElem? ht
      simp only [oneTransfer, mem_singleton] at hmem
      exact absurd (congrArg Outgoing.peer hmem) hne

/-- So may any other peer that guesses the id. -/
theorem cancelOne_not_isolated_stranger :
    ¬oneTransfer.Isolated 2 (oneTransfer.onMessage 2 cancelOne 5) := by
  intro h
  obtain ⟨t, ht, a, rfl⟩ := h.outs 0 _ rfl (by decide)
  have hstatus : (oneTransfer.onMessage 2 cancelOne 5).1.outs[0]?.map Outgoing.status =
      some .active := congrArg (Option.map Outgoing.status) ht
  exact absurd hstatus (by decide)

end State

end Librats.FileTransfer
