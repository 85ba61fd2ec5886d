import Librats.Subsystems.Sections

/-!
# One transfer among the others

The receiving side seen from one transfer: the object, the points threads have reached on it, its
places in `disk_ready_` and `incoming_`, what has been seen of it, and the files. Other transfers
change the files only at the paths of their own operations.
-/

namespace Librats.FileTransfer

open List Option Multiset AList Objects.View

variable {P : Type}

/-! ## What concerns one transfer -/

namespace Section

/-- What a thread can begin with on a transfer it finds. -/
def Entry : Section → Prop
  | .chunk _ _ bytes => bytes.length ≤ Framer.kMaxBlockSize
  | .finish success error back => success = false ∧ error = "peer disconnected" ∧ back = false
  | .fileEnd _ _ | .peerCancel | .peerPause | .peerResume | .accept _ | .cancel | .pause | .resume
  | .expire | .withdraw => True
  | _ => False

/-- A step on the object and the files alone. -/
def Local : Section → Prop
  | .schedule | .withdraw | .unlist _ _ _ => False
  | _ => True

end Section

/-- What concerns one transfer. -/
structure View (P : Type) where
  transfer : Transfer P
  sections : Multiset Section
  /-- How often it stands in `disk_ready_`. -/
  ready : ℕ
  /-- It is in `incoming_`. -/
  listed : Prop
  notes : List (Note P)
  disk : Disk

/-- What a step is for one transfer. -/
inductive Act
  | own (sec : Section) (a : Answer)
  | take
  /-- Threads find the transfer, if any, and the files change at some paths. -/
  | found (secs : List Section) (touched : List Bytes)
  | destroy (ok : Bool)

namespace View

variable (cfg : Config) (sha256 : Bytes → Bytes) (hex : P → Bytes)

/-- A section on the object and the files. -/
def exec (v : View P) (a : Answer) (sec : Section) (rest : Multiset Section) : View P :=
  let d := v.transfer.exec cfg sha256 hex v.disk a sec
  { v with
    transfer := d.transfer, sections := rest + ↑d.next, notes := v.notes ++ d.notes, disk := d.disk }

/-- `~Incoming`. -/
def destroyed (v : View P) (ok : Bool) : View P :=
  { v with
    disk := (v.transfer.destroy v.disk ok).disk
    notes := v.notes ++ (v.transfer.destroy v.disk ok).notes }

/-- What a step can do to one transfer. -/
inductive Step : View P → Act → View P → Prop
  | own {v : View P} {sec : Section} {a : Answer} {rest : Multiset Section}
      (at_ : v.sections = sec ::ₘ rest) (isLocal : sec.Local) :
      Step v (.own sec a) (v.exec cfg sha256 hex a sec rest)
  | schedule {v : View P} {a : Answer} {rest : Multiset Section}
      (at_ : v.sections = .schedule ::ₘ rest) :
      Step v (.own .schedule a) { v with sections := rest, ready := v.ready + 1 }
  | unlist {v : View P} {a : Answer} {rest : Multiset Section} {success back : Bool} {dest : Bytes}
      (at_ : v.sections = .unlist success dest back ::ₘ rest) :
      Step v (.own (.unlist success dest back) a)
        { v with sections := .report success dest back ::ₘ rest, listed := False }
  | withdraw {v : View P} {a : Answer} {rest : Multiset Section}
      (at_ : v.sections = .withdraw ::ₘ rest) : Step v (.own .withdraw a) { v with
          sections := .refuse ::ₘ rest, listed := False
          notes := v.notes ++ [.sent v.transfer.t.peer (responseMessage v.transfer.t.id 0)] }
  | take {v : View P} {n : ℕ} (ready : v.ready = n + 1) :
      Step v .take { v with ready := n, sections := .drain ::ₘ v.sections }
  | found {v : View P} {secs : List Section} {touched : List Bytes} {listed : Prop} {disk : Disk}
      (wasListed : secs ≠ [] → v.listed) (entry : ∀ sec ∈ secs, sec.Entry)
      (still : listed → v.listed) (elsewhere : ∀ path ∉ touched, disk path = v.disk path) :
      Step v (.found secs touched)
        { v with sections := v.sections + ↑secs, listed := listed, disk := disk }
  | destroy {v : View P} {ok : Bool} (idle : v.sections = 0) (unready : v.ready = 0)
      (unlisted : ¬v.listed) : Step v (.destroy ok) (v.destroyed ok)

variable {cfg sha256 hex} {v v' : View P} {act : Act}

section

variable (h : v.Step cfg sha256 hex act v')

include h

theorem Step.mem_notes {n : Note P} (hn : n ∈ v.notes) : n ∈ v'.notes := by
  cases h with
  | own | withdraw | destroy => exact mem_append_left _ hn
  | _ => exact hn

theorem Step.same : v.transfer.t.Same v'.transfer.t := by
  cases h with
  | @own sec a rest _ _ => exact v.transfer.exec_same cfg sha256 hex v.disk a sec
  | _ => exact .refl _

end

/-- The view of a transfer that is new. -/
structure New (v : View P) : Prop where
  transfer : ∃ peer id isDirectory name files now,
    v.transfer = ⟨State.newIncoming peer id isDirectory name files now, .new⟩ ∧
      (v.notes = [] ∨ ∃ size, v.notes = [.offered ⟨peer, id, name, size, isDirectory, files⟩])
  sections : v.sections = 0
  ready : v.ready = 0

end View

/-! ## References -/

/-- The thread finds the transfer in the map, and goes on with the section. -/
def Seeker.Finds [DecidableEq P] (g : Receiver P) (r : ℕ) (sec : Section) : Seeker P → Prop
  | .find peer id sec' => sec' = sec ∧ g.incoming.lookup (peer, id) = some r
  | .reject peer id => sec = .withdraw ∧ g.incoming.lookup (peer, id) = some r
  | _ => False

/-- The call finds the transfer in the map, and goes on with the section. -/
def Call.Finds [DecidableEq P] (g : Receiver P) (r : ℕ) (sec : Section) : Call P → Prop
  | .disconnect peer =>
    sec = .finish false "peer disconnected" false ∧ ∃ id, g.incoming.lookup (peer, id) = some r
  | .maintain => sec = .expire ∧ ∃ key, g.incoming.lookup key = some r
  | _ => False

variable {g : Receiver P} {r : ℕ} {sec : Section}

theorem Seeker.Finds.listed [DecidableEq P] {th : Seeker P} (h : th.Finds g r sec) :
    ∃ key, g.incoming.lookup key = some r := by
  cases th with
  | find peer id sec' | reject peer id => exact ⟨_, h.2⟩
  | _ => exact h.elim

theorem Call.Finds.listed [DecidableEq P] {x : Call P} (h : x.Finds g r sec) :
    ∃ key, g.incoming.lookup key = some r := by
  cases x with
  | disconnect peer =>
    obtain ⟨-, id, hid⟩ := h
    exact ⟨_, hid⟩
  | maintain => exact h.2
  | _ => exact h.elim

theorem Call.not_finds_withdraw [DecidableEq P] (x : Call P) : ¬x.Finds g r .withdraw := by
  cases x <;> simp [Call.Finds]

/-- A thread that looks for a transfer begins there as threads begin. -/
def Seeker.Begun : Seeker P → Prop
  | .find _ _ sec => sec.Entry ∧ sec ≠ .withdraw
  | _ => True

namespace Receiver

open Objects

variable [DecidableEq P]

/-- The queue and the map refer to existing transfers, the map under their own names. -/
structure Good (st : Store (Transfer P) (Receiver P)) : Prop where
  ready : ∀ r ∈ st.globals.ready, r < st.objects.length
  incoming : ∀ key r, st.globals.incoming.lookup key = some r →
    ∃ x, st.objects[r]? = some x ∧ key = (x.t.peer, x.t.id)

variable {c : Snapshot P} {v : View P} {key : P × ℕ}

theorem Good.listed {st : Store (Transfer P) (Receiver P)} (h : Good st)
    (hkey : st.globals.incoming.lookup key = some r) : r < st.objects.length := by
  obtain ⟨x, hx, -⟩ := h.incoming key r hkey
  exact lt_of_getElem? hx

theorem lookup_emplace {g : Receiver P} {o : Offer P} {n : ℕ}
    (h : (g.emplace o n).incoming.lookup key = some r) :
    g.incoming.lookup key = some r ∨ key = (o.sender, o.id) ∧ r = n := by
  simp only [emplace] at h
  split_ifs at h
  · exact .inl h
  · obtain ⟨hk, rfl⟩ | ⟨-, h⟩ := AssocList.lookup_of_insert h
    · exact .inr ⟨hk, rfl⟩
    · exact .inl h

@[simp] theorem emplace_ready (g : Receiver P) (o : Offer P) (n : ℕ) :
    (g.emplace o n).ready = g.ready := by
  unfold emplace
  split_ifs <;> rfl

@[simp] theorem emplace_disk (g : Receiver P) (o : Offer P) (n : ℕ) :
    (g.emplace o n).disk = g.disk := by
  unfold emplace
  split_ifs <;> rfl

section

variable (cfg : Config) (sha256 : Bytes → Bytes) (hex : P → Bytes)

theorem sect_of_local {sec : Section} (h : sec.Local) (r : ℕ) (x : Transfer P) (g : Receiver P)
    (a : Answer) : sect cfg sha256 hex r x g a sec = ⟨(x.exec cfg sha256 hex g.disk a sec).transfer,
        { g with disk := (x.exec cfg sha256 hex g.disk a sec).disk },
        (x.exec cfg sha256 hex g.disk a sec).notes, (x.exec cfg sha256 hex g.disk a sec).next⟩ := by
  cases sec <;> first | rfl | exact h.elim

omit [DecidableEq P] cfg sha256 hex in
theorem notLocal_cases {sec : Section} (h : ¬sec.Local) :
    sec = .schedule ∨ sec = .withdraw ∨ ∃ success dest back, sec = .unlist success dest back := by
  cases sec <;> simp [Section.Local] at h ⊢

variable {st : Store (Transfer P) (Receiver P)} {th : Seeker P}

theorem good_sect (hst : Good st) {r : ℕ} {x : Transfer P} (hx : st.objects[r]? = some x)
    (a : Answer) (sec : Section) :
    Good ⟨st.objects.set r (sect cfg sha256 hex r x st.globals a sec).object,
      (sect cfg sha256 hex r x st.globals a sec).globals⟩ := by
  have hr := lt_of_getElem? hx
  -- the transfer keeps its name
  have hset (y : Transfer P) (hpeer : y.t.peer = x.t.peer) (hid : y.t.id = x.t.id) (key : P × ℕ)
      (r' : ℕ) (hkey : st.globals.incoming.lookup key = some r') :
      ∃ z, (st.objects.set r y)[r']? = some z ∧ key = (z.t.peer, z.t.id) := by
    obtain ⟨z, hz, rfl⟩ := hst.incoming key r' hkey
    by_cases heq : r = r'
    · subst heq
      obtain rfl : x = z := Option.mem_unique hx hz
      exact ⟨y, getElem?_set_self hr, by rw [hpeer, hid]⟩
    · exact ⟨z, (getElem?_set_ne heq).trans hz, rfl⟩
  have hready (y : Transfer P) (r' : ℕ) (hr' : r' ∈ st.globals.ready) :
      r' < (st.objects.set r y).length := by
    rw [length_set]
    exact hst.ready r' hr'
  by_cases hl : sec.Local
  · rw [sect_of_local cfg sha256 hex hl]
    have hsame := x.exec_same cfg sha256 hex st.globals.disk a sec
    exact ⟨hready _, hset _ hsame.peer hsame.id⟩
  obtain rfl | rfl | ⟨success, dest, back, rfl⟩ := notLocal_cases hl
  · refine ⟨fun r' hr' => ?_, hset x rfl rfl⟩
    obtain hr' | hr' := mem_append.mp hr'
    · exact hready x r' hr'
    · rwa [List.length_set, List.mem_singleton.mp hr']
  all_goals
    exact ⟨hready x, fun key r' hkey => hset x rfl rfl key r' (AssocList.lookup_of_erase hkey).2⟩

theorem admissible_of_same (hst : Good st) {g : Receiver P} (hready : g.ready = st.globals.ready)
    (hincoming : g.incoming = st.globals.incoming) {effects : List (Effect (Note P))}
    {next : List (Thread P)} (hnext : ∀ r sec, .on r sec ∈ next → r < st.objects.length)
    (hbegun : ∀ th, .free th ∈ next → th.Begun)
    (heffects : ∀ e ∈ effects, ∀ r, e.ref = some r → r < st.objects.length) :
    Free.Admissible Good Seeker.Begun st ⟨g, [], effects, next⟩ :=
  ⟨by simpa using ⟨by rw [hready]; exact hst.ready, by rw [hincoming]; exact hst.incoming⟩, hnext,
    hbegun, heffects⟩

theorem admissible_seek (hst : Good st) (hth : th.Begun) {a : Answer}
    {f : Outcome P} (h : seek st th a = some f) : f.Admissible Good Seeker.Begun st := by
  cases th with
  | find peer id sec =>
    cases h
    refine admissible_of_same hst rfl rfl (fun r sec' hmem => ?_) (fun th hmem => ?_) (by simp)
    · obtain ⟨r', hr', heq⟩ := mem_map.mp hmem
      obtain ⟨rfl, -⟩ := Point.on.inj heq
      exact hst.listed (mem_toList.mp hr')
    · obtain ⟨r', -, heq⟩ := mem_map.mp hmem
      cases heq
  | checkOffer offer =>
    simp only [seek] at h
    split_ifs at h
    all_goals
      cases h
      exact admissible_of_same hst rfl rfl (by simp) (by simp [Seeker.Begun]) (by simp)
  | emplace offer =>
    have hgood (t : Transfer P) (hpeer : t.t.peer = offer.sender) (hid : t.t.id = offer.id) :
        Good ⟨st.objects ++ [t], st.globals.emplace offer st.objects.length⟩ := by
      refine ⟨fun r hr => ?_, fun key r hkey => ?_⟩
      · rw [emplace_ready] at hr
        exact (hst.ready r hr).trans_le (by simp)
      · obtain hkey | ⟨rfl, rfl⟩ := lookup_emplace hkey
        · obtain ⟨x, hx, rfl⟩ := hst.incoming key r hkey
          exact ⟨x, (getElem?_append_left (hst.listed hkey)).trans hx, rfl⟩
        · exact ⟨t, getElem?_concat_length, by rw [hpeer, hid]⟩
    simp only [seek] at h
    split_ifs at h
    all_goals
      cases h
      exact ⟨hgood _ rfl rfl, by simp, by simp [Seeker.Begun], by simp⟩
  | reject peer id =>
    cases h
    cases hlook : st.globals.incoming.lookup (peer, id) with
    | none => exact admissible_of_same hst rfl rfl (by simp) (by simp [Seeker.Begun]) (by simp)
    | some r' =>
      exact admissible_of_same hst rfl rfl (by simpa using hst.listed hlook) (by simp) (by simp)
  | rejecting peer id =>
    cases h
    refine ⟨⟨by simpa using hst.ready, fun key r hkey => ?_⟩, by simp, by simp, by simp⟩
    simpa using hst.incoming key r (AssocList.lookup_of_erase hkey).2

omit [DecidableEq P] in
theorem messageThreads_begun {sender : P} {payload : Bytes} {m : Message}
    (hlen : payload.length ≤ Framer.kMaxBlockSize) (h : parse payload = some m)
    (hth : .free th ∈ messageThreads sender m) : th.Begun := by
  cases m with
  | chunk id fidx offset data =>
    obtain rfl := Point.free.inj (List.mem_singleton.mp hth)
    exact ⟨(parse_chunk_length h).trans hlen, nofun⟩
  | response | progress | complete => cases hth
  | _ =>
    obtain rfl := Point.free.inj (List.mem_singleton.mp hth)
    first | trivial | exact ⟨trivial, nofun⟩

omit [DecidableEq P] in
theorem sectionsOn_messageThreads (sender : P) (m : Message) (r : ℕ) :
    sectionsOn r (messageThreads sender m) = 0 := by
  cases m <;> rfl

theorem admissible_call (hst : Good st) {threads : List (Thread P)} {x : Call P} {f : Outcome P}
    (h : call st threads x = some f) : f.Admissible Good Seeker.Begun st := by
  have hentries (e : Sigma fun _ : P × ℕ => ℕ) (he : e ∈ st.globals.incoming.entries) :
      e.2 < st.objects.length := hst.listed (mem_lookup_iff.mpr he)
  cases x with
  | message sender payload =>
    simp only [call] at h
    split_ifs at h with hlen
    cases h
    cases hp : parse payload with
    | none => exact admissible_of_same hst rfl rfl (by simp) (by simp) (by simp)
    | some m =>
      refine admissible_of_same hst rfl rfl (fun r sec hmem => ?_)
        (fun th hmem => messageThreads_begun hlen hp hmem) (by simp)
      have hzero := sectionsOn_messageThreads sender m r
      exact absurd (mem_sectionsOn.mpr hmem) (by simp [hzero])
  | disconnect peer =>
    cases h
    refine admissible_of_same hst rfl rfl (fun r sec hmem => ?_) (by simp) (by simp)
    obtain ⟨e, he, heq⟩ := mem_map.mp hmem
    obtain ⟨rfl, -⟩ := Point.on.inj heq
    exact hentries e (mem_filter.mp he).1
  | maintain =>
    cases h
    refine admissible_of_same hst rfl rfl (fun r sec hmem => ?_) (by simp) (by simp)
    obtain ⟨e, he, heq⟩ := mem_map.mp hmem
    obtain ⟨rfl, -⟩ := Point.on.inj heq
    exact hentries e he
  | take =>
    simp only [call] at h
    split at h
    · cases h
    · rename_i r rest hready
      cases h
      have hmem (r' : ℕ) (hr : r' ∈ r :: rest) : r' < st.objects.length := hst.ready r' (hready ▸ hr)
      refine ⟨⟨?_, ?_⟩, ?_, by simp, by simp⟩
      · simpa using fun r' hr => hmem r' (mem_cons_of_mem r hr)
      · simpa using hst.incoming
      · simpa using hmem r (.head _)
  | destroy r ok =>
    simp only [call] at h
    split at h
    · cases h
    rename_i x hx
    split_ifs at h
    cases h
    refine admissible_of_same hst ?_ ?_ (by simp) (by simp) (fun e he r' hr' => ?_)
    · rfl
    · rfl
    · obtain ⟨n, -, rfl⟩ := mem_map.mp he
      cases hr'
      exact lt_of_getElem? hx
  | _ =>
    cases h
    apply admissible_of_same hst
    all_goals simp [Seeker.Begun, Section.Entry]

@[simp] theorem code_sect : (code cfg sha256 hex).sect = sect cfg sha256 hex := rfl

@[simp] theorem code_free : (code cfg sha256 hex).free = seek := rfl

theorem sound : (code cfg sha256 hex).Sound Good Seeker.Begun :=
  ⟨fun hst hx => good_sect cfg sha256 hex hst hx _ _, fun hst hth h => admissible_seek hst hth h,
    fun hst h => admissible_call hst h⟩

omit cfg sha256 hex in
theorem valid_start (disk : Disk) (hasOfferHandler : Bool) :
    Valid Good Seeker.Begun (start disk hasOfferHandler : Snapshot P) :=
  ⟨⟨by simp [start], by simp [start]⟩, by simp [start], by simp [start], by simp [start]⟩

end

/-! ## Steps -/

/-- What of the view of an object matters for a transfer. -/
def abstract (r : ℕ) (v : Objects.View (Transfer P) (Receiver P) Section (Note P)) : View P :=
  ⟨v.object, v.sections, v.globals.ready.count r, ∃ key, v.globals.incoming.lookup key = some r,
    v.notes, v.globals.disk⟩

def view (c : Snapshot P) (r : ℕ) : Option (View P) := (Objects.view c r).map (abstract r)

theorem view_eq_some {x : Transfer P} (hx : c.shared.objects[r]? = some x) :
    view c r = some ⟨x, sectionsOn r c.threads, c.shared.globals.ready.count r,
      ∃ key, c.shared.globals.incoming.lookup key = some r, notesOn r c.trace,
      c.shared.globals.disk⟩ := by
  simp [view, Objects.view, hx, abstract]

theorem objects_of_view (h : view c r = some v) : c.shared.objects[r]? = some v.transfer := by
  obtain ⟨v, hv, rfl⟩ := map_eq_some_iff.mp h
  exact (Objects.view_eq_some.mp hv).1

theorem sections_of_view (h : view c r = some v) : sectionsOn r c.threads = v.sections := by
  obtain ⟨v, hv, rfl⟩ := map_eq_some_iff.mp h
  exact (Objects.view_eq_some.mp hv).2.2.1

theorem ready_of_view (h : view c r = some v) : c.shared.globals.ready.count r = v.ready := by
  obtain ⟨v, hv, rfl⟩ := map_eq_some_iff.mp h
  rw [(Objects.view_eq_some.mp hv).2.1]
  rfl

/-- How a step of the whole and what it is for one transfer go together. -/
def Link (c : Snapshot P) (m : Move P) (c' : Snapshot P) (r : ℕ) : Act → Prop
  | .own sec a => ∃ k, m = .exec k a ∧ c.threads[k]? = some (.on r sec)
  | .take => m = .call .take
  | .found secs touched =>
    (∀ sec ∈ secs,
      (∃ k th a, m = .exec k a ∧ c.threads[k]? = some (.free th) ∧ th.Begun ∧
        th.Finds c.shared.globals r sec) ∨
      ∃ x, m = .call x ∧ x.Finds c.shared.globals r sec) ∧
    (.withdraw ∈ secs → secs = [.withdraw]) ∧
    ∀ path ∈ touched, ∃ e ∈ c'.trace, e.ref ≠ some r ∧ path ∈ e.note.paths
  | .destroy ok => m = .call (.destroy r ok)

section

variable {cfg : Config} {sha256 : Bytes → Bytes} {hex : P → Bytes}

/-- The globals after a step that concerns the transfer only in that threads find it. -/
structure Elsewhere (r : ℕ) (g g' : Receiver P) (notes : List (Note P)) : Prop where
  ready : g'.ready.count r = g.ready.count r
  listed : ∀ key, g'.incoming.lookup key = some r → g.incoming.lookup key = some r
  disk : ∀ path, Unnamed path notes → g'.disk path = g.disk path

variable {v : Objects.View (Transfer P) (Receiver P) Section (Note P)}
    {st : Store (Transfer P) (Receiver P)} {f : Outcome P} {threads : List (Thread P)}
  {notes : List (Note P)}

theorem Elsewhere.step {g : Receiver P} (h : Elsewhere r v.globals g notes) (secs : List Section)
    (hfound : ∀ sec ∈ secs, sec.Entry ∧ ∃ key, v.globals.incoming.lookup key = some r) :
    (abstract r v).Step cfg sha256 hex (.found secs (notes.flatMap (·.paths)))
      (abstract r { v with globals := g, sections := v.sections + ↑secs }) := by
  simp only [abstract, h.ready]
  refine .found ?_ (fun sec hsec => (hfound sec hsec).1) ?_ ?_
  · intro hne
    obtain ⟨sec, hsec⟩ := exists_mem_of_ne_nil _ hne
    exact (hfound sec hsec).2
  · rintro ⟨key, hkey⟩
    exact ⟨key, h.listed key hkey⟩
  · intro path hpath
    exact h.disk path fun n hn hmem => hpath (mem_flatMap.mpr ⟨n, hn, hmem⟩)

theorem Elsewhere.of_erase {g : Receiver P} {key : P × ℕ} :
    Elsewhere r g { g with incoming := g.incoming.erase key } notes :=
  ⟨rfl, fun _ hk => (AssocList.lookup_of_erase hk).2, fun _ _ => rfl⟩

theorem Elsewhere.refl (r : ℕ) (g : Receiver P) (notes : List (Note P)) : Elsewhere r g g notes :=
  ⟨rfl, fun _ hk => hk, fun _ _ => rfl⟩

theorem elsewhere_sect {r' : ℕ} (hr : r' ≠ r) (x : Transfer P) (g : Receiver P) (a : Answer)
    (sec : Section) : Elsewhere r g (sect cfg sha256 hex r' x g a sec).globals
      (sect cfg sha256 hex r' x g a sec).notes := by
  by_cases hl : sec.Local
  · rw [sect_of_local cfg sha256 hex hl]
    exact ⟨rfl, fun _ hk => hk, fun path hpath => x.exec_disk cfg sha256 hex g.disk a sec hpath⟩
  · obtain rfl | rfl | ⟨success, dest, back, rfl⟩ := notLocal_cases hl
    · exact ⟨by simp [sect, hr], fun _ hk => hk, fun _ _ => rfl⟩
    · exact .of_erase
    · exact .of_erase

/-- A step that is no section and concerns the transfer only in that threads find it. -/
structure FreeElsewhere (r : ℕ) (g : Receiver P) (f : Outcome P) (Finds : Section → Prop) :
    Prop where
  globals : Elsewhere r g f.globals (f.effects.map (·.note))
  effects : ∀ e ∈ f.effects, e.ref ≠ some r
  found : ∀ sec, .on r sec ∈ f.next → sec.Entry ∧ Finds sec

theorem elsewhere_seek (hr : r < st.objects.length) {th : Seeker P} (hth : th.Begun) {a : Answer}
    (h : seek st th a = some f) : FreeElsewhere r st.globals f (th.Finds st.globals r) := by
  cases th with
  | find peer id sec =>
    cases h
    refine ⟨.refl _ _ _, by simp, fun sec' hmem => ?_⟩
    obtain ⟨r', hr', heq⟩ := mem_map.mp hmem
    obtain ⟨rfl, rfl⟩ := Point.on.inj heq
    exact ⟨hth.1, rfl, mem_toList.mp hr'⟩
  | checkOffer offer =>
    simp only [seek] at h
    split_ifs at h
    all_goals
      cases h
      exact ⟨.refl _ _ _, by simp, by simp⟩
  | emplace offer =>
    have helse (notes : List (Note P)) :
        Elsewhere r st.globals (st.globals.emplace offer st.objects.length) notes := by
      refine ⟨by rw [emplace_ready], fun key hkey => ?_, fun _ _ => by rw [emplace_disk]⟩
      obtain hkey | ⟨-, rfl⟩ := lookup_emplace hkey
      · exact hkey
      · exact absurd hr (lt_irrefl _)
    simp only [seek] at h
    split_ifs at h
    all_goals
      cases h
    · exact ⟨helse _, by simpa using hr.ne', by simp⟩
    · exact ⟨helse _, by simp, by simp⟩
  | reject peer id =>
    cases h
    refine ⟨.refl _ _ _, by simp, fun sec hmem => ?_⟩
    cases hlook : st.globals.incoming.lookup (peer, id) with
    | none => simp [hlook] at hmem
    | some r' =>
      simp only [hlook, List.mem_singleton] at hmem
      obtain ⟨rfl, rfl⟩ := hmem
      exact ⟨trivial, rfl, hlook⟩
  | rejecting peer id =>
    cases h
    exact ⟨.of_erase, by simp, by simp⟩

/-- A call can find transfers; a disk worker that takes the transfer and its destruction are told
apart. -/
theorem elsewhere_call {x : Call P} (htake : x = .take → st.globals.ready.head? ≠ some r)
    (hdestroy : ∀ ok, x ≠ .destroy r ok) (h : call st threads x = some f) :
    FreeElsewhere r st.globals f (x.Finds st.globals r) := by
  cases x with
  | message sender payload =>
    simp only [call] at h
    split_ifs at h
    cases h
    refine ⟨.refl _ _ _, by simp, fun sec hmem => ?_⟩
    cases hp : parse payload with
    | none => simp [hp] at hmem
    | some m =>
      simp only [hp] at hmem
      have hzero := sectionsOn_messageThreads sender m r
      exact absurd (mem_sectionsOn.mpr hmem) (by simp [hzero])
  | disconnect peer =>
    cases h
    refine ⟨.refl _ _ _, by simp, fun sec hmem => ?_⟩
    obtain ⟨⟨⟨peer', id⟩, r'⟩, he, heq⟩ := mem_map.mp hmem
    obtain ⟨rfl, rfl⟩ := Point.on.inj heq
    obtain ⟨hentry, hp⟩ := mem_filter.mp he
    obtain rfl : peer' = peer := of_decide_eq_true hp
    exact ⟨⟨rfl, rfl, rfl⟩, rfl, id, mem_lookup_iff.mpr hentry⟩
  | maintain =>
    cases h
    refine ⟨.refl _ _ _, by simp, fun sec hmem => ?_⟩
    obtain ⟨⟨key, r'⟩, he, heq⟩ := mem_map.mp hmem
    obtain ⟨rfl, rfl⟩ := Point.on.inj heq
    exact ⟨trivial, rfl, key, mem_lookup_iff.mpr he⟩
  | take =>
    have hhead := htake rfl
    simp only [call] at h
    split at h
    · cases h
    · rename_i r' rest hready
      cases h
      have hr : r' ≠ r := by simpa [hready] using hhead
      refine ⟨⟨by simp [hready, hr], fun _ hk => hk, fun _ _ => rfl⟩, by simp, ?_⟩
      simp [hr.symm]
  | destroy r' ok =>
    have hr : r' ≠ r := fun heq => hdestroy ok (by rw [heq])
    simp only [call] at h
    split at h
    · cases h
    · rename_i y hy
      split_ifs at h
      cases h
      refine ⟨⟨rfl, fun _ hk => hk, fun path hpath => ?_⟩, fun e he => ?_, by simp⟩
      · exact y.destroy_disk _ ok (by simpa [List.map_map, Function.comp_def] using hpath)
      · obtain ⟨n, -, rfl⟩ := mem_map.mp he
        simpa using hr
  | external path content =>
    cases h
    refine ⟨⟨rfl, fun _ hk => hk, fun path' hpath => ?_⟩, by simp, by simp⟩
    exact Function.update_of_ne (by simpa [Unnamed, Note.paths, FileOp.paths] using hpath) _ _
  | _ =>
    cases h
    exact ⟨.refl _ _ _, by simp, by simp⟩

theorem own_step (hst : Good st) (hx : st.objects[r]? = some v.object)
    (hg : st.globals = v.globals) {sec : Section} {rest : Multiset Section}
    (hsec : v.sections = sec ::ₘ rest) (a : Answer) :
    (abstract r v).Step cfg sha256 hex (.own sec a)
      (abstract r (v.exec (code cfg sha256 hex) r a sec rest)) := by
  -- the map refers to the transfer under no other name
  have hgone : (∃ key, (v.globals.incoming.erase (v.object.t.peer, v.object.t.id)).lookup key =
      some r) = False := by
    refine eq_false ?_
    rintro ⟨key, hkey⟩
    obtain ⟨hne, hkey⟩ := AssocList.lookup_of_erase hkey
    obtain ⟨y, hy, rfl⟩ := hst.incoming key r (hg ▸ hkey)
    obtain rfl : v.object = y := Option.mem_unique hx hy
    exact hne rfl
  by_cases hl : sec.Local
  · simp only [exec, code, sect_of_local cfg sha256 hex hl]
    exact .own hsec hl
  obtain rfl | rfl | ⟨success, dest, back, rfl⟩ := notLocal_cases hl
  · simp only [abstract, exec, code, sect, List.count_append, List.count_singleton_self,
      coe_nil, add_zero, append_nil]
    exact .schedule hsec
  · simp only [abstract, exec, code, sect, hgone, coe_singleton, add_comm rest, singleton_add]
    exact .withdraw hsec
  · simp only [abstract, exec, code, sect, hgone, coe_singleton,
      add_comm rest, singleton_add, append_nil]
    exact .unlist hsec

omit [DecidableEq P] in
theorem sectionsOn_eq_zero (h : threads.any (holds r) = false) : sectionsOn r threads = 0 := by
  refine eq_zero_of_forall_notMem fun sec hsec => ?_
  exact any_eq_false.mp h _ (mem_sectionsOn.mp hsec) (by simp [holds])

theorem destroy_step {ok : Bool} (h : call c.shared c.threads (.destroy r ok) = some f)
    (hv : Objects.view c r = some v) :
    (abstract r v).Step cfg sha256 hex (.destroy ok) (abstract r (v.after r f)) := by
  obtain ⟨x, hx, rfl⟩ := map_eq_some_iff.mp hv
  simp only [call, hx] at h
  split_ifs at h with hfree
  cases h
  simp only [Bool.or_eq_true, decide_eq_true_eq, not_or, Bool.not_eq_true] at hfree
  obtain ⟨⟨hth, hready⟩, hmap⟩ := hfree
  have hstep : View.Step cfg sha256 hex _ (.destroy ok) _ := View.Step.destroy
    (v := abstract r ⟨x, c.shared.globals, sectionsOn r c.threads, notesOn r c.trace⟩)
    (sectionsOn_eq_zero hth) (count_eq_zero.mpr hready) (by
      rintro ⟨key, hkey⟩
      exact any_eq_false.mp hmap _ (mem_lookup_iff.mp hkey) (by simp))
  simpa [abstract, View.destroyed, Objects.View.after, sectionsOn] using hstep

omit [DecidableEq P] in
theorem eq_singleton_of_mem {α : Type} {l : List α} {a : α} (hlength : l.length ≤ 1)
    (hmem : a ∈ l) : l = [a] := by
  obtain ⟨b, rfl⟩ := length_eq_one_iff.mp (hlength.antisymm (length_pos_of_mem hmem))
  rw [List.mem_singleton.mp hmem]

theorem seek_next {th : Seeker P} {a : Answer} (h : seek st th a = some f) : f.next.length ≤ 1 := by
  cases th with
  | find peer id sec =>
    cases h
    cases st.globals.incoming.lookup (peer, id) <;> simp
  | checkOffer offer | emplace offer =>
    simp only [seek] at h
    split_ifs at h
    all_goals
      cases h
      simp
  | reject peer id | rejecting peer id =>
    cases h
    simp

/-- **What a step of the whole is for one transfer.** -/
theorem step_view {c' : Snapshot P} {m : Move P} (hc : Valid Good Seeker.Begun c)
    (hs : (program cfg sha256 hex).step c m = some c')
    {v' : Objects.View (Transfer P) (Receiver P) Section (Note P)}
    (hv : Objects.view c r = some v) (h : v.Step (code cfg sha256 hex) c r m v') :
    ∃ act, (abstract r v).Step cfg sha256 hex act (abstract r v') ∧ Link c m c' r act := by
  obtain ⟨hx, hg, -, -⟩ := Objects.view_eq_some.mp hv
  have hr := lt_of_getElem? hx
  have htouched {effects : List (Effect (Note P))} (htrace : c'.trace = c.trace ++ effects)
      (heff : ∀ e ∈ effects, e.ref ≠ some r) (path : Bytes)
      (hpath : path ∈ (effects.map (·.note)).flatMap (·.paths)) :
      ∃ e ∈ c'.trace, e.ref ≠ some r ∧ path ∈ e.note.paths := by
    obtain ⟨n, hn, hp⟩ := mem_flatMap.mp hpath
    obtain ⟨e, he, rfl⟩ := mem_map.mp hn
    exact ⟨e, htrace ▸ mem_append_right _ he, heff e he, hp⟩
  have hfree {f : Outcome P} {Finds : Section → Prop} (hf : FreeElsewhere r c.shared.globals f Finds)
      (hlisted : ∀ sec, Finds sec → ∃ key, c.shared.globals.incoming.lookup key = some r) :
      (abstract r v).Step cfg sha256 hex
        (.found (f.next.filterMap (Point.sectionOn r)) ((f.effects.map (·.note)).flatMap (·.paths)))
        (abstract r (v.after r f)) := by
    simp only [Objects.View.after, notesOn_eq_nil hf.effects, append_nil]
    refine Elsewhere.step (hg ▸ hf.globals) _ fun sec hsec => ?_
    have hmem := hf.found sec (mem_sectionsOn.mp (mem_coe.mpr hsec))
    exact ⟨hmem.1, hg ▸ hlisted sec hmem.2⟩
  have hfound {f : Outcome P} {Finds : Section → Prop} (hf : FreeElsewhere r c.shared.globals f Finds)
      (sec : Section) (hsec : sec ∈ f.next.filterMap (Point.sectionOn r)) : Finds sec :=
    (hf.found sec (mem_sectionsOn.mp (mem_coe.mpr hsec))).2
  cases h with
  | own hk hsec => exact ⟨_, own_step hc.good hx hg hsec _, _, rfl, hk⟩
  | @other k a r' sec y _ hk hne hy =>
    have helse : Elsewhere r v.globals (sect cfg sha256 hex r' y v.globals a sec).globals
        (sect cfg sha256 hex r' y v.globals a sec).notes := elsewhere_sect hne y v.globals a sec
    refine ⟨.found [] ((sect cfg sha256 hex r' y v.globals a sec).notes.flatMap (·.paths)), ?_,
      by simp, by simp, fun path hpath => ?_⟩
    · simpa using helse.step [] (by simp)
    · refine htouched (Code.trace_on hs hk hy) (by simpa using fun _ _ => hne) path ?_
      rw [hg]
      simpa [List.map_map, Function.comp_def] using hpath
  | free hk hf =>
    have hbegun := hc.begun _ (mem_of_getElem? hk)
    have helse := elsewhere_seek hr hbegun hf
    refine ⟨_, hfree helse fun _ h => h.listed, fun sec hsec => ?_,
      eq_singleton_of_mem ((length_filterMap_le _ _).trans (seek_next hf)),
      htouched (Code.after_free hs hk hf).1 helse.effects⟩
    exact .inl ⟨_, _, _, rfl, hk, hbegun, hfound helse sec hsec⟩
  | @call x f _ hf =>
    by_cases hdestroy : ∃ ok, x = .destroy r ok
    · obtain ⟨ok, rfl⟩ := hdestroy
      exact ⟨_, destroy_step hf hv, rfl⟩
    by_cases htake : x = .take ∧ c.shared.globals.ready.head? = some r
    · obtain ⟨rfl, hhead⟩ := htake
      obtain ⟨rest, hready⟩ := head?_eq_some_iff.mp hhead
      simp only [code, call, hready] at hf
      cases hf
      refine ⟨.take, ?_, rfl⟩
      have hsec : v.sections + sectionsOn r [(.on r .drain : Thread P)] = .drain ::ₘ v.sections := by
        rw [add_comm, sectionsOn_cons_on]
        exact singleton_add _ _
      simp only [Objects.View.after, hsec, hg, notesOn, filterMap_nil, append_nil]
      exact .take (by simp [abstract, show v.globals.ready = _ from hg ▸ hready])
    · have helse := elsewhere_call (fun hx hr => htake ⟨hx, hr⟩) (fun ok hx => hdestroy ⟨ok, hx⟩) hf
      refine ⟨_, hfree helse fun _ h => h.listed, fun sec hsec => ?_, fun hmem => ?_,
        htouched (Code.after_call hs hf).1 helse.effects⟩
      · exact .inr ⟨x, rfl, hfound helse sec hsec⟩
      · exact absurd (hfound helse _ hmem) x.not_finds_withdraw

theorem call_created {x : Call P} (h : call st threads x = some f) : f.created = [] := by
  cases x with
  | message sender payload =>
    simp only [call] at h
    split_ifs at h
    cases h
    rfl
  | take =>
    simp only [call] at h
    split at h
    · cases h
    · cases h
      rfl
  | destroy r ok =>
    simp only [call] at h
    split at h
    · cases h
    · split_ifs at h
      cases h
      rfl
  | _ =>
    cases h
    rfl

theorem new_of_created {m : Move P} (hc : Valid Good Seeker.Begun c)
    (h : v.New (code cfg sha256 hex) c m r f) : (abstract r v).New := by
  have hcreated : f.created ≠ [] := fun hnil => by simpa [hnil] using h.object
  obtain ⟨k, a, th, -, -, hf⟩ | ⟨x, -, hf⟩ := h.does
  · cases th with
    | emplace offer =>
      have hr : r = c.shared.objects.length := by
        have hlt := lt_of_getElem? h.object
        have hle := h.fresh
        simp only [code_free, seek] at hf
        split_ifs at hf
        all_goals
          cases hf
          simp only [length_singleton] at hlt
          omega
      subst hr
      have hready : (c.shared.globals.emplace offer c.shared.objects.length).ready.count
          c.shared.objects.length = 0 := by
        rw [emplace_ready]
        exact count_eq_zero.mpr fun hmem => lt_irrefl _ (hc.good.ready _ hmem)
      have hobject := h.object
      have hglobals := h.globals
      have hnotes := h.notes
      simp only [code_free, seek] at hf
      split_ifs at hf
      all_goals
        cases hf
        rw [Nat.sub_self, getElem?_cons_zero, Option.some.injEq] at hobject
        refine ⟨⟨_, _, _, _, _, _, hobject.symm, ?_⟩, h.sections.trans rfl, ?_⟩
      · exact .inr ⟨offer.size, by simp [abstract, hnotes, notesOn, Effect.noteOn]⟩
      · simpa [abstract, hglobals] using hready
      · exact .inl (by simp [abstract, hnotes, notesOn])
      · simpa [abstract, hglobals] using hready
    | checkOffer offer =>
      simp only [code_free, seek] at hf
      split_ifs at hf
      all_goals
        cases hf
        exact absurd rfl hcreated
    | _ =>
      cases hf
      exact absurd rfl hcreated
  · exact absurd (call_created hf) hcreated

/-- **The induction over runs for a property of one transfer.** -/
theorem view_invariant {ok : Snapshot P → Move P → Prop} {disk : Disk} {hasOfferHandler : Bool}
    {I : Snapshot P → ℕ → View P → Prop}
    (h : Interleaving.Reach (program cfg sha256 hex) ok (start disk hasOfferHandler) c)
    (hnew : ∀ c r v, Interleaving.Reach (program cfg sha256 hex) ok (start disk hasOfferHandler) c →
      view c r = some v → v.New → I c r v) (hstep : ∀ c m c' r v act v',
      Interleaving.Reach (program cfg sha256 hex) ok (start disk hasOfferHandler) c → ok c m →
      (program cfg sha256 hex).step c m = some c' → view c r = some v → Link c m c' r act →
      v.Step cfg sha256 hex act v' → I c r v → I c' r v') {v : View P} (hv : view c r = some v) :
    I c r v := by
  obtain ⟨v, hview, rfl⟩ := map_eq_some_iff.mp hv
  refine (sound cfg sha256 hex).view_invariant (I := fun c r v => I c r (abstract r v)) h
    (valid_start disk hasOfferHandler) rfl ?_ ?_ hview
  · intro c m c' r v' f hc hreach hv' hn
    exact hnew c' r _ hreach (by rw [view, hv', map_some]) (new_of_created hc hn)
  · intro c m c' r v v' hc hreach hok hs hv _ hstep' hI
    obtain ⟨act, hact, hlink⟩ := step_view hc hs hv hstep'
    exact hstep c m c' r _ act _ hreach hok hs (by rw [view, hv, map_some]) hlink hact hI

end

end Receiver

end Librats.FileTransfer
