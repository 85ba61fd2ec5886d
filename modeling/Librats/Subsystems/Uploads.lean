import Librats.Subsystems.Sending

/-!
# One upload among the others

The references of the sending side: ids are given once, the map `outgoing_` refers to each transfer
under its id (`sound`). What a step elsewhere does to the map and the queue.
-/

namespace Librats.FileTransfer

open Objects List AList

variable {P : Type}

/-- What a thread can begin with on a transfer it finds. -/
def Upload.Section.Entry : Upload.Section → Prop
  | .response | .progress _ | .peerCancel | .peerPause | .peerResume | .cancel | .pause | .resume
  | .expire | .claim => True
  | .finish _ back => back = false
  | _ => False

/-- A step on the object alone. -/
def Upload.Section.Local : Upload.Section → Prop
  | .queueSend | .unlist _ _ => False
  | _ => True

/-- What is left of `finish_outgoing` once the transfer is finished. -/
def Upload.Section.Closing : Upload.Section → Bool
  | .unlist _ _ | .report _ _ => true
  | _ => false

/-- What `complete_handler_` is told. -/
def Upload.Note.verdict : Upload.Note P → Option Bool
  | .completed _ success _ => some success
  | _ => none

theorem Upload.Section.closing_of_entry {sec : Upload.Section} (h : sec.Entry) :
    sec.Closing = false := by
  cases sec <;> first | rfl | exact h.elim

namespace Sender

def Seeker.Begun : Seeker → Prop
  | .find _ sec => sec.Entry

/-- Ids are given once, and the map refers to each transfer under its id. -/
structure Good (st : Store (Upload P) Sender) : Prop where
  outgoing : ∀ id r, st.globals.outgoing.lookup id = some r →
    ∃ x, st.objects[r]? = some x ∧ x.t.id = id
  fresh : ∀ (r : ℕ) (x : Upload P), st.objects[r]? = some x → x.t.id < st.globals.nextId
  unique : ∀ (r r' : ℕ) (x x' : Upload P), st.objects[r]? = some x → st.objects[r']? = some x' →
    x.t.id = x'.t.id → r = r'

section

variable (cfg : Config) (sha256 : Bytes → Bytes) {sec : Upload.Section}

theorem sect_of_local (h : sec.Local) (r : ℕ) (x : Upload P) (g : Sender) (i : Upload.Reading) :
    sect cfg sha256 r x g i sec = ⟨(x.exec cfg sha256 i sec).upload, g,
      (x.exec cfg sha256 i sec).notes, (x.exec cfg sha256 i sec).next⟩ := by
  cases sec <;> first | rfl | exact h.elim

omit cfg sha256 in
theorem notLocal_cases (h : ¬sec.Local) :
    sec = .queueSend ∨ ∃ success back, sec = .unlist success back := by
  cases sec <;> simp [Upload.Section.Local] at h ⊢

theorem exec_id (x : Upload P) (i : Upload.Reading) (sec : Upload.Section) :
    (x.exec cfg sha256 i sec).upload.t.id = x.t.id ∧
      (x.exec cfg sha256 i sec).upload.t.files = x.t.files := by
  cases sec with
  | _ =>
    simp only [Upload.exec, Upload.finish, Upload.look, Upload.read, Upload.count]
    repeat' split
    all_goals simp

theorem sect_id (r : ℕ) (x : Upload P) (g : Sender) (i : Upload.Reading) (sec : Upload.Section) :
    (sect cfg sha256 r x g i sec).object.t.id = x.t.id := by
  by_cases hl : sec.Local
  · rw [sect_of_local cfg sha256 hl]
    exact (exec_id cfg sha256 x i sec).1
  · obtain rfl | ⟨success, back, rfl⟩ := notLocal_cases hl
    · rfl
    · rfl

theorem sect_globals (r : ℕ) (x : Upload P) (g : Sender) (i : Upload.Reading)
    (sec : Upload.Section) : (sect cfg sha256 r x g i sec).globals = g ∨ (sec = .queueSend ∧
      (sect cfg sha256 r x g i sec).globals = { g with queue := g.queue ++ [x.t.id] }) ∨
    ∃ success back, sec = .unlist success back ∧
      (sect cfg sha256 r x g i sec).globals = { g with outgoing := g.outgoing.erase x.t.id } := by
  by_cases hl : sec.Local
  · exact .inl (by rw [sect_of_local cfg sha256 hl])
  · obtain rfl | ⟨success, back, rfl⟩ := notLocal_cases hl
    · exact .inr (.inl ⟨rfl, rfl⟩)
    · exact .inr (.inr ⟨success, back, rfl, rfl⟩)

variable {st : Store (Upload P) Sender} {x : Upload P} {f : Outcome P}

theorem good_set (hst : Good st) {r : ℕ} {y : Upload P} (hx : st.objects[r]? = some x)
    (hid : y.t.id = x.t.id) {g : Sender} (hnext : g.nextId = st.globals.nextId)
    (hout : ∀ id r, g.outgoing.lookup id = some r → st.globals.outgoing.lookup id = some r) :
    Good ⟨st.objects.set r y, g⟩ := by
  have hr := lt_of_getElem? hx
  -- an object of the new store has the id of the object in its place
  have hback (r' : ℕ) (z : Upload P) (hz : (st.objects.set r y)[r']? = some z) :
      ∃ z', st.objects[r']? = some z' ∧ z'.t.id = z.t.id := by
    by_cases heq : r = r'
    · subst heq
      rw [getElem?_set_self hr] at hz
      exact ⟨x, hx, by rw [← Option.some.inj hz, hid]⟩
    · rw [getElem?_set_ne heq] at hz
      exact ⟨z, hz, rfl⟩
  refine ⟨fun id r' h => ?_, fun r' z hz => ?_, fun r₁ r₂ z₁ z₂ h₁ h₂ heq => ?_⟩
  · obtain ⟨z, hz, rfl⟩ := hst.outgoing id r' (hout id r' h)
    by_cases heq : r = r'
    · subst heq
      obtain rfl : x = z := Option.mem_unique hx hz
      exact ⟨y, getElem?_set_self hr, hid⟩
    · exact ⟨z, (getElem?_set_ne heq).trans hz, rfl⟩
  · obtain ⟨z', hz', hid'⟩ := hback r' z hz
    rw [hnext, ← hid']
    exact hst.fresh r' z' hz'
  · obtain ⟨z₁', hz₁, hid₁⟩ := hback r₁ z₁ h₁
    obtain ⟨z₂', hz₂, hid₂⟩ := hback r₂ z₂ h₂
    exact hst.unique r₁ r₂ z₁' z₂' hz₁ hz₂ (by rw [hid₁, hid₂, heq])

theorem good_sect (hst : Good st) {r : ℕ} (hx : st.objects[r]? = some x) (i : Upload.Reading)
    (sec : Upload.Section) : Good ⟨st.objects.set r (sect cfg sha256 r x st.globals i sec).object,
      (sect cfg sha256 r x st.globals i sec).globals⟩ := by
  have hid := sect_id cfg sha256 r x st.globals i sec
  obtain hg | ⟨-, hg⟩ | ⟨success, back, -, hg⟩ := sect_globals cfg sha256 r x st.globals i sec
  · rw [hg]
    exact good_set hst hx hid rfl fun _ _ h => h
  · rw [hg]
    exact good_set hst hx hid rfl fun _ _ h => h
  · rw [hg]
    exact good_set hst hx hid rfl fun _ _ h => (AssocList.lookup_of_erase h).2

theorem good_send (hst : Good st) (hid : x.t.id = st.globals.nextId) {queue : List ℕ} :
    Good ⟨st.objects ++ [x], ⟨st.globals.outgoing.insert st.globals.nextId st.objects.length, queue,
      st.globals.nextId + 1⟩⟩ := by
  have hcases (r : ℕ) (y : Upload P) (hy : (st.objects ++ [x])[r]? = some y) :
      st.objects[r]? = some y ∧ y.t.id < st.globals.nextId ∨ r = st.objects.length ∧ x = y := by
    by_cases hr : r < st.objects.length
    · rw [getElem?_append_left hr] at hy
      exact .inl ⟨hy, hst.fresh r y hy⟩
    · have hlt := lt_of_getElem? hy
      obtain rfl : r = st.objects.length := by
        rw [length_append, length_singleton] at hlt
        omega
      rw [getElem?_concat_length] at hy
      exact .inr ⟨rfl, Option.some.inj hy⟩
  refine ⟨fun id r h => ?_, fun r y hy => ?_, fun r₁ r₂ y₁ y₂ h₁ h₂ heq => ?_⟩
  · obtain ⟨rfl, rfl⟩ | ⟨-, h⟩ := AssocList.lookup_of_insert h
    · exact ⟨x, getElem?_concat_length, hid⟩
    · obtain ⟨y, hy, rfl⟩ := hst.outgoing id r h
      exact ⟨y, (List.getElem?_append_left (lt_of_getElem? hy)).trans hy, rfl⟩
  · obtain ⟨-, hlt⟩ | ⟨-, rfl⟩ := hcases r y hy
    · exact Nat.lt_succ_of_lt hlt
    · exact hid ▸ Nat.lt_succ_self _
  · obtain ⟨h₁, hlt₁⟩ | ⟨rfl, rfl⟩ := hcases r₁ y₁ h₁
    · obtain ⟨h₂, -⟩ | ⟨rfl, rfl⟩ := hcases r₂ y₂ h₂
      · exact hst.unique r₁ r₂ y₁ y₂ h₁ h₂ heq
      · omega
    · obtain ⟨-, hlt₂⟩ | ⟨rfl, -⟩ := hcases r₂ y₂ h₂
      · omega
      · rfl

variable [DecidableEq P] {l : List Thread}

omit cfg sha256 [DecidableEq P] in
theorem messageThreads_entry (m : Message) :
    ∀ th ∈ messageThreads m, ∃ id sec, th = .free (.find id sec) ∧ sec.Entry := by
  cases m with
  | response id accepted =>
    intro th hth
    obtain rfl := mem_singleton.mp hth
    refine ⟨id, _, rfl, ?_⟩
    split <;> trivial
  | progress _ _ | complete _ _ | cancel _ | pause _ | resume _ =>
    intro th hth
    obtain rfl := mem_singleton.mp hth
    exact ⟨_, _, rfl, by simp [Upload.Section.Entry]⟩
  | offer _ _ _ _ _ | chunk _ _ _ _ | fileEnd _ _ _ => simp [messageThreads]

omit cfg sha256 in
/-- What comes from outside: a new transfer, a worker that takes an id, or threads that look for
transfers or have found them in the map. -/
theorem call_cases {x : Call P} (h : call st l x = some f) :
    (∃ (y : Upload P) (message : Bytes), y.t.id = st.globals.nextId ∧ y.t.status = .pending ∧
      y.t.finished = false ∧ y.workerActive = false ∧ f = ⟨{ st.globals with
          outgoing := st.globals.outgoing.insert st.globals.nextId st.objects.length
          nextId := st.globals.nextId + 1 }, [y], [], [.on st.objects.length (.offer message)]⟩) ∨
    (∃ id rest, st.globals.queue = id :: rest ∧
      f = ⟨{ st.globals with queue := rest }, [], [], [.free (.find id .claim)]⟩) ∨
    f.globals = st.globals ∧ f.created = [] ∧ f.effects = [] ∧
      ∀ th ∈ f.next, (∃ id sec, th = .free (.find id sec) ∧ sec.Entry) ∨
        ∃ id r sec, th = .on r sec ∧ sec.Entry ∧ st.globals.outgoing.lookup id = some r := by
  cases x with
  | send peer root name isDirectory files now =>
    left
    simp only [call] at h
    split_ifs at h
    cases h
    exact ⟨⟨newOutgoing _ peer root files now, false, []⟩, _, rfl, rfl, rfl, rfl, rfl⟩
  | message payload =>
    cases h
    refine .inr (.inr ⟨rfl, rfl, rfl, fun th hth => .inl ?_⟩)
    cases hp : parse payload with
    | none =>
      rw [hp] at hth
      exact absurd hth not_mem_nil
    | some m =>
      rw [hp] at hth
      exact messageThreads_entry m th hth
  | cancel id | pause id | resume id =>
    cases h
    refine .inr (.inr ⟨rfl, rfl, rfl, fun th hth => .inl ?_⟩)
    obtain rfl := mem_singleton.mp hth
    exact ⟨id, _, rfl, trivial⟩
  | disconnect peer =>
    cases h
    refine .inr (.inr ⟨rfl, rfl, rfl, fun th hth => .inr ?_⟩)
    obtain ⟨e, he, rfl⟩ := mem_map.mp hth
    exact ⟨e.1, e.2, _, rfl, rfl, mem_lookup_iff.mpr (mem_of_mem_filter he)⟩
  | maintain =>
    cases h
    refine .inr (.inr ⟨rfl, rfl, rfl, fun th hth => .inr ?_⟩)
    obtain ⟨e, he, rfl⟩ := mem_map.mp hth
    exact ⟨e.1, e.2, _, rfl, trivial, mem_lookup_iff.mpr he⟩
  | take =>
    simp only [call] at h
    split at h
    · cases h
    · next id rest hq =>
      exact .inr (.inl ⟨id, rest, hq, (Option.some.inj h).symm⟩)

omit cfg sha256 in
theorem admissible_call {x : Call P} (hst : Good st) (h : call st l x = some f) :
    f.Admissible Good Seeker.Begun st := by
  obtain ⟨y, message, hid, -, -, -, rfl⟩ | ⟨id, rest, -, rfl⟩ | ⟨hg, hcreated, heffects, hnext⟩ :=
    call_cases h
  · refine ⟨good_send hst hid, fun r sec hmem => ?_, fun th hmem => ?_, fun e he => ?_⟩
    · obtain ⟨rfl, -⟩ := Point.on.inj (mem_singleton.mp hmem)
      simp
    · cases mem_singleton.mp hmem
    · cases he
  · refine ⟨?_, fun r sec hmem => ?_, fun th hmem => ?_, fun e he => ?_⟩
    · rw [append_nil]
      exact ⟨hst.outgoing, hst.fresh, hst.unique⟩
    · cases mem_singleton.mp hmem
    · obtain rfl := Point.free.inj (mem_singleton.mp hmem)
      trivial
    · cases he
  refine ⟨?_, fun r sec hmem => ?_, fun th hmem => ?_, fun e he => ?_⟩
  · rwa [hcreated, hg, append_nil]
  · obtain ⟨_, _, heq, -⟩ | ⟨id, r', _, heq, -, hr⟩ := hnext _ hmem
    · cases heq
    · obtain ⟨rfl, -⟩ := Point.on.inj heq
      obtain ⟨x, hx, -⟩ := hst.outgoing id r hr
      exact Nat.lt_add_right _ (lt_of_getElem? hx)
  · obtain ⟨id, sec, heq, hsec⟩ | ⟨_, _, _, heq, -⟩ := hnext _ hmem
    · obtain rfl := Point.free.inj heq
      exact hsec
    · cases heq
  · rw [heffects] at he
    cases he

omit cfg sha256 [DecidableEq P] in
theorem admissible_seek {th : Seeker} {i : Upload.Reading} (hst : Good st)
    (h : seek st th i = some f) : f.Admissible Good Seeker.Begun st := by
  obtain ⟨id, sec⟩ := th
  cases h
  refine ⟨?_, fun r sec' hmem => ?_, fun th hmem => ?_, fun e he => ?_⟩
  · rwa [append_nil]
  · obtain ⟨r', hr, heq⟩ := mem_map.mp hmem
    obtain ⟨rfl, -⟩ := Point.on.inj heq
    obtain ⟨x, hx, -⟩ := hst.outgoing id r' (Option.mem_toList.mp hr)
    exact Nat.lt_add_right _ (lt_of_getElem? hx)
  · obtain ⟨_, -, heq⟩ := mem_map.mp hmem
    cases heq
  · cases he

theorem sound : (code (P := P) cfg sha256).Sound Good Seeker.Begun where
  sect hst hx := good_sect cfg sha256 hst hx _ _
  free {_ _ i _} hst _ h := admissible_seek (i := i) hst h
  call {_ l _ _} hst h := admissible_call (l := l) hst h

omit cfg sha256 [DecidableEq P] in
theorem valid_start : Valid Good Seeker.Begun (start : Snapshot P) where
  good := ⟨fun id r h => by simp [start] at h, fun r x h => by simp [start] at h,
    fun r r' x x' h => by simp [start] at h⟩
  threads r sec h := by simp [start] at h
  begun th h := by simp [start] at h
  trace e h := by simp [start] at h

end

/-! ## Steps, seen from one upload -/

section

variable [DecidableEq P] {cfg : Config} {sha256 : Bytes → Bytes} {c c' : Snapshot P} {m : Move P}
  {r : ℕ} {v v' : Objects.View (Upload P) Sender Upload.Section (Upload.Note P)}

/-- A step that is not a section on the upload: it stays as it is and where it is; threads can find
it; and if its id leaves the queue, a worker has it. -/
structure Elsewhere (c' : Snapshot P) (r : ℕ)
    (v v' : Objects.View (Upload P) Sender Upload.Section (Upload.Note P)) : Prop where
  object : v'.object = v.object
  notes : v'.notes = v.notes
  sections : ∃ secs : Multiset Upload.Section, v'.sections = v.sections + secs ∧
    ∀ sec ∈ secs, sec.Entry
  listed : v.globals.outgoing.lookup v.object.t.id = some r →
    v'.globals.outgoing.lookup v.object.t.id = some r
  queued : v.object.t.id ∈ v.globals.queue →
    v.object.t.id ∈ v'.globals.queue ∨ .free (.find v.object.t.id .claim) ∈ c'.threads

omit [DecidableEq P] in
theorem elsewhere_other (hst : Good c.shared) (hv : view c r = some v) {r' : ℕ} {x : Upload P}
    (hne : r' ≠ r) (hx : c.shared.objects[r']? = some x) (i : Upload.Reading)
    (sec : Upload.Section) :
    Elsewhere c' r v { v with globals := (sect cfg sha256 r' x v.globals i sec).globals } := by
  obtain ⟨hobj, hglob, -, -⟩ := view_eq_some.mp hv
  have hid : v.object.t.id ≠ x.t.id := fun h => hne (hst.unique r' r x v.object hx hobj h.symm)
  refine ⟨rfl, rfl, ⟨0, (Multiset.add_zero _).symm, by simp⟩, fun h => ?_, fun h => .inl ?_⟩
  · obtain hg | ⟨-, hg⟩ | ⟨_, _, -, hg⟩ := sect_globals cfg sha256 r' x v.globals i sec
    · rwa [hg]
    · rwa [hg]
    · rw [hg]
      exact (lookup_erase_ne hid).trans h
  · obtain hg | ⟨-, hg⟩ | ⟨_, _, -, hg⟩ := sect_globals cfg sha256 r' x v.globals i sec
    · rwa [hg]
    · rw [hg]
      exact mem_append_left _ h
    · rwa [hg]

variable {f : Outcome P} {ok : Snapshot P → Move P → Prop}

omit [DecidableEq P] in
theorem elsewhere_seek (hv : view c r = some v) {th : Seeker} (hth : th.Begun)
    {i : Upload.Reading} (hf : seek c.shared th i = some f) : Elsewhere c' r v (v.after r f) := by
  obtain ⟨-, hglob, -, -⟩ := view_eq_some.mp hv
  obtain ⟨id, sec⟩ := th
  cases hf
  refine ⟨rfl, append_nil _, ⟨_, rfl, fun sec' hsec => ?_⟩, fun h => ?_, fun h => .inl ?_⟩
  · obtain ⟨r', -, heq⟩ := mem_map.mp (mem_sectionsOn.mp hsec)
    obtain ⟨-, rfl⟩ := Point.on.inj heq
    exact hth
  · exact hglob ▸ h
  · exact hglob ▸ h

theorem elsewhere_call (hst : Good c.shared) (hv : view c r = some v) {x : Call P}
    (hstep : (program cfg sha256).step c (.call x) = some c')
    (hf : call c.shared c.threads x = some f) : Elsewhere c' r v (v.after r f) := by
  obtain ⟨hobj, hglob, -, -⟩ := view_eq_some.mp hv
  have hr := lt_of_getElem? hobj
  obtain ⟨y, message, -, -, -, -, rfl⟩ | ⟨id, rest, hq, rfl⟩ | ⟨hg, -, he, hnext⟩ := call_cases hf
  · have hnone := sectionsOn_map_on_ne (τ := Seeker) hr.ne' [Upload.Section.offer message]
    refine ⟨rfl, append_nil _, ⟨0, ?_, by simp⟩, fun h => ?_, fun h => .inl ?_⟩
    · exact congrArg (v.sections + ·) hnone
    · have hid : v.object.t.id ≠ c.shared.globals.nextId := (hst.fresh r _ hobj).ne
      exact (lookup_insert_ne hid).trans (hglob ▸ h)
    · exact hglob ▸ h
  · refine ⟨rfl, append_nil _, ⟨0, ?_, by simp⟩, fun h => ?_, fun h => ?_⟩
    · rfl
    · exact hglob ▸ h
    · rw [← hglob, hq] at h
      obtain hid | hmem := mem_cons.mp h
      · right
        rw [(Code.after_call hstep hf).2, hid]
        exact mem_append_right _ (mem_singleton.mpr rfl)
      · exact .inl hmem
  have hsame : (v.after r f).globals = v.globals := hg.trans hglob
  refine ⟨rfl, ?_, ⟨_, rfl, fun sec hsec => ?_⟩, fun h => ?_, fun h => .inl ?_⟩
  · simp [View.after, he, notesOn]
  · obtain ⟨_, _, heq, -⟩ | ⟨_, _, _, heq, hentry, -⟩ := hnext _ (mem_sectionsOn.mp hsec)
    · cases heq
    · obtain ⟨-, rfl⟩ := Point.on.inj heq
      exact hentry
  · rwa [hsame]
  · rwa [hsame]

theorem step_upload (hc : Valid Good Seeker.Begun c)
    (hstep : (program cfg sha256).step c m = some c') (hv : view c r = some v)
    (hact : v.Step (code cfg sha256) c r m v') :
    (∃ k i sec rest, m = .exec k i ∧ c.threads[k]? = some (.on r sec) ∧
      v.sections = sec ::ₘ rest ∧ v' = v.exec (code cfg sha256) r i sec rest) ∨
    Elsewhere c' r v v' := by
  cases hact with
  | own hk hsec => exact .inl ⟨_, _, _, _, rfl, hk, hsec, rfl⟩
  | other hk hne hx => exact .inr (elsewhere_other hc.good hv hne hx _ _)
  | @free _ i _ _ _ hk hf =>
    exact .inr (elsewhere_seek (i := i) hv (hc.begun _ (mem_of_getElem? hk)) hf)
  | call hf => exact .inr (elsewhere_call hc.good hv hstep hf)

/-- An upload that has just been created. -/
structure Fresh (r : ℕ) (v : Objects.View (Upload P) Sender Upload.Section (Upload.Note P)) :
    Prop where
  status : v.object.t.status = .pending
  unfinished : v.object.t.finished = false
  idle : v.object.workerActive = false
  notes : v.notes = []
  sections : ∃ message, v.sections = {.offer message}
  listed : v.globals.outgoing.lookup v.object.t.id = some r

theorem fresh_of_new (h : v.New (code cfg sha256) c m r f) : Fresh r v := by
  obtain ⟨hdoes, hfresh, hobj, hglob, hsec, hnotes⟩ := h
  obtain ⟨_, _, ⟨id, sec⟩, -, -, hf⟩ | ⟨x, -, hf⟩ := hdoes
  · cases hf
    simp at hobj
  obtain ⟨y, message, hid, hst, hfin, hidle, rfl⟩ | ⟨_, _, -, rfl⟩ | ⟨-, hnone, -⟩ :=
    call_cases (l := c.threads) hf
  · obtain ⟨hlt, heq⟩ := List.getElem?_eq_some_iff.mp hobj
    obtain rfl : r = c.shared.objects.length := by
      rw [length_singleton] at hlt
      omega
    obtain rfl : y = v.object := by simpa using heq
    refine ⟨hst, hfin, hidle, hnotes, ⟨message, ?_⟩, ?_⟩
    · exact hsec.trans (sectionsOn_map_on _ [Upload.Section.offer message])
    · rw [hglob, hid]
      exact lookup_insert _
  · simp at hobj
  · simp [hnone] at hobj

/-- **The induction over runs for a property of one upload**: a new upload has it, and sections on
it and steps elsewhere keep it. -/
theorem upload_invariant
    {I : Snapshot P → ℕ → Objects.View (Upload P) Sender Upload.Section (Upload.Note P) → Prop}
    (h : Interleaving.Reach (program cfg sha256) ok start c) (hnew : ∀ c r v, Fresh r v → I c r v)
    (hown : ∀ c k i c' r v sec rest, Interleaving.Reach (program cfg sha256) ok start c →
      ok c (.exec k i) → (program cfg sha256).step c (.exec k i) = some c' → view c r = some v →
      c.threads[k]? = some (.on r sec) → v.sections = sec ::ₘ rest → I c r v →
      I c' r (v.exec (code cfg sha256) r i sec rest))
    (helse : ∀ c m c' r v v', Interleaving.Reach (program cfg sha256) ok start c → ok c m →
      (program cfg sha256).step c m = some c' → view c r = some v → view c' r = some v' →
      Elsewhere c' r v v' → I c r v → I c' r v') (hv : view c r = some v) : I c r v := by
  refine (sound cfg sha256).view_invariant h valid_start rfl ?_ ?_ hv
  · intro c m c' r v f _ _ _ hn
    exact hnew c' r v (fresh_of_new hn)
  · intro c m c' r v v' hc hreach hok hstep hv hv' hact hI
    obtain ⟨k, i, sec, rest, rfl, hk, hsec, rfl⟩ | he := step_upload hc hstep hv hact
    · exact hown c k i c' r v sec rest hreach hok hstep hv hk hsec hI
    · exact helse c m c' r v v' hreach hok hstep hv hv' he hI

/-! ## The verdict of an upload -/

/-- The verdict is due or given once the upload is finished; until then it is in the map. -/
structure Accounted (r : ℕ) (v : Objects.View (Upload P) Sender Upload.Section (Upload.Note P)) :
    Prop where
  verdicts : v.notes.countP (·.verdict.isSome) + tally Upload.Section.Closing v.sections =
    v.object.t.finished.toNat
  listed : v.object.t.finished = false → v.globals.outgoing.lookup v.object.t.id = some r

omit [DecidableEq P] in
theorem Accounted.finished {r : ℕ}
    {v : Objects.View (Upload P) Sender Upload.Section (Upload.Note P)} (h : Accounted r v)
    {sec : Upload.Section} (hsec : sec ∈ v.sections) (hclosing : sec.Closing = true) :
    v.object.t.finished = true := by
  have hpos : 0 < tally Upload.Section.Closing v.sections := tally_pos.mpr ⟨sec, hsec, hclosing⟩
  have := h.verdicts
  cases hf : v.object.t.finished with
  | true => rfl
  | false =>
    rw [hf, Bool.toNat_false] at this
    omega

variable (cfg sha256) in
omit [DecidableEq P] in
theorem sect_verdicts (r : ℕ) (x : Upload P) (g : Sender) (i : Upload.Reading)
    (sec : Upload.Section) : (sect cfg sha256 r x g i sec).notes.countP (·.verdict.isSome) +
        (sect cfg sha256 r x g i sec).next.countP Upload.Section.Closing + x.t.finished.toNat =
      sec.Closing.toNat + (sect cfg sha256 r x g i sec).object.t.finished.toNat := by
  cases sec with
  | finish success back =>
    simp only [sect, Upload.exec, Upload.finish]
    split_ifs with hf
    · cases back <;> simp [Upload.leave, Upload.Section.Closing]
    · simp [Upload.Note.verdict, Upload.Section.Closing, hf]
  | unlist success back => simp [sect, Upload.Section.Closing]
  | report success back =>
    cases back <;>
      simp [sect, Upload.exec, Upload.leave, Upload.Note.verdict, Upload.Section.Closing]
  | _ =>
    simp only [sect, Upload.exec, Upload.look, Upload.read, Upload.count]
    repeat' split
    all_goals simp [Upload.Note.verdict, Upload.Section.Closing]

variable (cfg sha256) in
omit [DecidableEq P] in
theorem sect_finished (r : ℕ) {x : Upload P} (g : Sender) (i : Upload.Reading)
    (sec : Upload.Section) (h : x.t.finished = true) :
    (sect cfg sha256 r x g i sec).object.t.finished = true := by
  cases sec with
  | _ =>
    simp only [sect, Upload.exec, Upload.finish, Upload.look, Upload.read, Upload.count]
    repeat' split
    all_goals exact h

theorem accounted_of_reach
    (h : Interleaving.Reach (program cfg sha256) ok start c) (hv : view c r = some v) :
    Accounted r v := by
  refine upload_invariant (I := fun _ r v => Accounted r v) h ?_ ?_ ?_ hv
  · intro c r v hfresh
    obtain ⟨message, hsec⟩ := hfresh.sections
    refine ⟨?_, fun _ => hfresh.listed⟩
    rw [hfresh.notes, hsec, hfresh.unfinished]
    rfl
  · intro c k i c' r v sec rest _ _ _ _ _ hsec hI
    refine ⟨?_, fun hf => ?_⟩
    · have hone := sect_verdicts cfg sha256 r v.object v.globals i sec
      have hall := hI.verdicts
      rw [hsec, tally_cons] at hall
      simp only [View.exec, code, countP_append, tally_add, tally_coe]
      omega
    have hbefore : v.object.t.finished = false := by
      by_contra hne
      have := sect_finished cfg sha256 r v.globals i sec (Bool.not_eq_false _ ▸ hne)
      cases this.symm.trans hf
    have hid := sect_id cfg sha256 r v.object v.globals i sec
    obtain hg | ⟨-, hg⟩ | ⟨success, back, rfl, -⟩ :=
      sect_globals cfg sha256 r v.object v.globals i sec
    · simp only [View.exec, code, hg]
      rw [hid]
      exact hI.listed hbefore
    · simp only [View.exec, code, hg]
      rw [hid]
      exact hI.listed hbefore
    · have hmem : .unlist success back ∈ v.sections := hsec ▸ Multiset.mem_cons_self _ _
      cases (hI.finished hmem rfl).symm.trans hbefore
  intro c m c' r v v' _ _ _ _ _ he hI
  obtain ⟨secs, hsecs, hentry⟩ := he.sections
  have hnone : tally Upload.Section.Closing secs = 0 :=
    tally_eq_zero fun sec hsec => Upload.Section.closing_of_entry (hentry sec hsec)
  refine ⟨?_, fun hf => ?_⟩
  · rw [he.notes, he.object, hsecs, tally_add, hnone]
    exact hI.verdicts
  · rw [he.object] at hf ⊢
    exact he.listed (hI.listed hf)

end

end Sender

end Librats.FileTransfer
