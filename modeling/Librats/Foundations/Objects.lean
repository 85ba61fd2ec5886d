import Librats.Foundations.Interleaving
import Mathlib.Data.Multiset.Filter
import Mathlib.Data.Multiset.MapFold

/-!
# Threads on a store of objects

Programs whose shared state is a store of objects and some globals. A section works on its object
and the globals; a thread that holds no object and a call from outside read the whole store and can
create objects. `step_view` says what a step is for one object (`View`).
-/

namespace Librats.Objects

open Interleaving List Option

variable {α γ s τ ι κ ν : Type*}

/-- The point of a thread: a section of an object, or one at which it holds none. -/
inductive Point (s τ : Type*)
  | on (r : ℕ) (sec : s)
  | free (th : τ)

/-- The objects, in the order of their creation, and the rest of the shared state. -/
structure Store (α γ : Type*) where
  objects : List α
  globals : γ

/-- What is seen, and of which object. -/
structure Effect (ν : Type*) where
  ref : Option ℕ
  note : ν

/-- What a section leaves: its object, the globals, what is seen of it, and the sections at which
threads go on. -/
structure Done (α γ s ν : Type*) where
  object : α
  globals : γ
  notes : List ν
  next : List s

/-- What any other step leaves. -/
structure Free (α γ s τ ν : Type*) where
  globals : γ
  created : List α
  effects : List (Effect ν)
  next : List (Point s τ)

/-- A program on a store of objects. -/
structure Code (α γ s τ ι κ ν : Type*) where
  sect : ℕ → α → γ → ι → s → Done α γ s ν
  free : Store α γ → τ → ι → Option (Free α γ s τ ν)
  call : Store α γ → List (Point s τ) → κ → Option (Free α γ s τ ν)

def Free.outcome (st : Store α γ) (f : Free α γ s τ ν) :
    Outcome (Store α γ) (Point s τ) (Effect ν) :=
  ⟨⟨st.objects ++ f.created, f.globals⟩, f.effects, f.next⟩

def Done.outcome (st : Store α γ) (r : ℕ) (d : Done α γ s ν) :
    Outcome (Store α γ) (Point s τ) (Effect ν) :=
  ⟨⟨st.objects.set r d.object, d.globals⟩, d.notes.map fun n => ⟨some r, n⟩, d.next.map (.on r)⟩

/-- The program as one of threads over a shared state. -/
def Code.program (code : Code α γ s τ ι κ ν) : Program (Store α γ) (Point s τ) ι κ (Effect ν) where
  exec st th i :=
    match th with
    | .on r sec => st.objects[r]?.map fun x => (code.sect r x st.globals i sec).outcome st r
    | .free th => (code.free st th i).map (·.outcome st)
  call st threads x := (code.call st threads x).map (·.outcome st)

/-- The store with its threads and what has been seen so far. -/
abbrev Snapshot (α γ s τ ν : Type*) := Config (Store α γ) (Point s τ) (Effect ν)

/-! ## What concerns one object -/

variable (r : ℕ)

def Point.sectionOn : Point s τ → Option s
  | .on r' sec => if r' = r then some sec else none
  | .free _ => none

/-- The sections of an object threads are at. -/
def sectionsOn (threads : List (Point s τ)) : Multiset s :=
  ↑(threads.filterMap (Point.sectionOn r))

def Effect.noteOn (e : Effect ν) : Option ν := if e.ref = some r then some e.note else none

/-- What has been seen of an object. -/
def notesOn (trace : List (Effect ν)) : List ν := trace.filterMap (Effect.noteOn r)

@[simp] theorem sectionsOn_append (l l' : List (Point s τ)) :
    sectionsOn r (l ++ l') = sectionsOn r l + sectionsOn r l' := by
  simp [sectionsOn]

variable {r k : ℕ} {c c' : Snapshot α γ s τ ν} {m : Move ι κ} {f : Free α γ s τ ν}
    {rest : List (Point s τ)} {i : ι} {th : Point s τ}

theorem sectionsOn_perm {l l' : List (Point s τ)} (h : l.Perm l') :
    sectionsOn r l = sectionsOn r l' :=
  Multiset.coe_eq_coe.mpr (h.filterMap _)

@[simp] theorem sectionsOn_map_on (r : ℕ) (secs : List s) :
    sectionsOn r (secs.map (.on r) : List (Point s τ)) = ↑secs := by
  simp [sectionsOn, filterMap_map, Function.comp_def, Point.sectionOn]

theorem sectionsOn_map_on_ne {r' : ℕ} (h : r' ≠ r) (secs : List s) :
    sectionsOn r (secs.map (.on r') : List (Point s τ)) = 0 := by
  simp [sectionsOn, filterMap_map, Function.comp_def, Point.sectionOn, h]

theorem sectionsOn_cons_on (r : ℕ) (sec : s) (l : List (Point s τ)) :
    sectionsOn r (.on r sec :: l) = sec ::ₘ sectionsOn r l := by
  simp [sectionsOn, Point.sectionOn]

theorem sectionsOn_cons_of_none (h : th.sectionOn r = none)
    (l : List (Point s τ)) : sectionsOn r (th :: l) = sectionsOn r l := by
  simp [sectionsOn, h]

theorem mem_sectionsOn {sec : s} {l : List (Point s τ)} : sec ∈ sectionsOn r l ↔ .on r sec ∈ l := by
  simp only [sectionsOn, Multiset.mem_coe, mem_filterMap]
  constructor
  · rintro ⟨th, hth, hsec⟩
    cases th with
    | on r' sec' =>
      simp only [Point.sectionOn, ite_none_right_eq_some, some.injEq] at hsec
      obtain ⟨rfl, rfl⟩ := hsec
      exact hth
    | free th => cases hsec
  · exact fun h => ⟨_, h, if_pos rfl⟩

variable (p : s → Bool) {secs : Multiset s}

/-- How many of the sections threads are at satisfy a test. -/
def tally (secs : Multiset s) : ℕ := secs.countP (fun sec => p sec = true)

@[simp] theorem tally_cons (sec : s) (secs : Multiset s) :
    tally p (sec ::ₘ secs) = (p sec).toNat + tally p secs := by
  cases h : p sec <;> simp [tally, h, Nat.add_comm]

@[simp] theorem tally_add (secs secs' : Multiset s) :
    tally p (secs + secs') = tally p secs + tally p secs' := Multiset.countP_add _ _ _

@[simp] theorem tally_coe (secs : List s) : tally p (secs : Multiset s) = secs.countP p := by
  simp [tally, Multiset.coe_countP]

theorem tally_eq_zero {p : s → Bool} (h : ∀ sec ∈ secs, p sec = false) : tally p secs = 0 :=
  Multiset.countP_eq_zero.mpr fun sec hsec => Bool.not_eq_true _ ▸ h sec hsec

theorem tally_pos {p : s → Bool} :
    0 < tally p secs ↔ ∃ sec ∈ secs, p sec = true := Multiset.countP_pos

@[simp] theorem notesOn_append (r : ℕ) (l l' : List (Effect ν)) :
    notesOn r (l ++ l') = notesOn r l ++ notesOn r l' := filterMap_append

@[simp] theorem notesOn_map_some (r : ℕ) (notes : List ν) :
    notesOn r (notes.map fun n => ⟨some r, n⟩) = notes := by
  simp [notesOn, filterMap_map, Function.comp_def, Effect.noteOn]

theorem notesOn_map_some_ne {r' : ℕ} (h : r' ≠ r) (notes : List ν) :
    notesOn r (notes.map fun n => ⟨some r', n⟩) = [] := by
  simp [notesOn, filterMap_map, Function.comp_def, Effect.noteOn, h]

theorem notesOn_eq_nil {l : List (Effect ν)} (h : ∀ e ∈ l, e.ref ≠ some r) : notesOn r l = [] := by
  simpa [notesOn, Effect.noteOn] using h

/-- All that concerns one object. -/
structure View (α γ s ν : Type*) where
  object : α
  globals : γ
  sections : Multiset s
  notes : List ν

def view (c : Snapshot α γ s τ ν) (r : ℕ) : Option (View α γ s ν) :=
  c.shared.objects[r]?.map fun x => ⟨x, c.shared.globals, sectionsOn r c.threads, notesOn r c.trace⟩

theorem view_eq_some {v : View α γ s ν} :
    view c r = some v ↔ c.shared.objects[r]? = some v.object ∧ c.shared.globals = v.globals ∧
      sectionsOn r c.threads = v.sections ∧ notesOn r c.trace = v.notes := by
  constructor
  · intro h
    obtain ⟨x, hx, rfl⟩ := map_eq_some_iff.mp h
    exact ⟨hx, rfl, rfl, rfl⟩
  · rintro ⟨hx, hg, hs, hn⟩
    exact map_eq_some_iff.mpr ⟨_, hx, by rw [hg, hs, hn]⟩

/-! ## References

Every reference is to an object that exists. A program says so of its globals by a property `Good`
of the store, and of what its threads hold by a property `Begun` of those that hold no object. -/

section

variable (Good : Store α γ → Prop) (Begun : τ → Prop)

/-- A step that keeps the store good and refers to objects that exist. -/
structure Free.Admissible (st : Store α γ) (f : Free α γ s τ ν) : Prop where
  good : Good ⟨st.objects ++ f.created, f.globals⟩
  next : ∀ r sec, .on r sec ∈ f.next → r < st.objects.length + f.created.length
  begun : ∀ th, .free th ∈ f.next → Begun th
  effects : ∀ e ∈ f.effects, ∀ r, e.ref = some r → r < st.objects.length + f.created.length

/-- Every step keeps the store good and refers to objects that exist. -/
structure Code.Sound (code : Code α γ s τ ι κ ν) : Prop where
  sect : ∀ {st : Store α γ} {r x i sec}, Good st → st.objects[r]? = some x →
    Good ⟨st.objects.set r (code.sect r x st.globals i sec).object,
      (code.sect r x st.globals i sec).globals⟩
  free : ∀ {st th i f}, Good st → Begun th → code.free st th i = some f → f.Admissible Good Begun st
  call : ∀ {st threads x f}, Good st → code.call st threads x = some f → f.Admissible Good Begun st

/-- The store is good and every reference is to an object that exists. -/
structure Valid (c : Snapshot α γ s τ ν) : Prop where
  good : Good c.shared
  threads : ∀ r sec, .on r sec ∈ c.threads → r < c.shared.objects.length
  begun : ∀ th, .free th ∈ c.threads → Begun th
  trace : ∀ e ∈ c.trace, ∀ r, e.ref = some r → r < c.shared.objects.length

end

variable {code : Code α γ s τ ι κ ν} {Good : Store α γ → Prop} {Begun : τ → Prop}
  {ok : Snapshot α γ s τ ν → Move ι κ → Prop} {c₀ : Snapshot α γ s τ ν}

theorem Code.step_cases (h : code.program.step c m = some c') :
    (∃ k i r sec x rest, m = .exec k i ∧ c.threads[k]? = some (.on r sec) ∧
      c.threads.Perm (.on r sec :: rest) ∧ c.shared.objects[r]? = some x ∧
      c' = ⟨⟨c.shared.objects.set r (code.sect r x c.shared.globals i sec).object,
          (code.sect r x c.shared.globals i sec).globals⟩,
        rest ++ (code.sect r x c.shared.globals i sec).next.map (.on r),
        c.trace ++ (code.sect r x c.shared.globals i sec).notes.map fun n => ⟨some r, n⟩⟩) ∨
    ∃ f rest, c' = ⟨⟨c.shared.objects ++ f.created, f.globals⟩, rest ++ f.next,
        c.trace ++ f.effects⟩ ∧ ((∃ k i th, m = .exec k i ∧ c.threads[k]? = some (.free th) ∧
        c.threads.Perm (.free th :: rest) ∧ code.free c.shared th i = some f) ∨
      ∃ x, m = .call x ∧ rest = c.threads ∧ code.call c.shared c.threads x = some f) := by
  obtain ⟨k, th, i, rest, o, rfl, hk, hperm, ho, rfl⟩ | ⟨x, o, rfl, ho, rfl⟩ := Program.step_cases h
  · cases th with
    | on r sec =>
      obtain ⟨x, hx, rfl⟩ := map_eq_some_iff.mp ho
      exact .inl ⟨k, i, r, sec, x, rest, rfl, hk, hperm, hx, rfl⟩
    | free th =>
      obtain ⟨f, hf, rfl⟩ := map_eq_some_iff.mp ho
      exact .inr ⟨f, rest, rfl, .inl ⟨k, i, th, rfl, hk, hperm, hf⟩⟩
  · obtain ⟨f, hf, rfl⟩ := map_eq_some_iff.mp ho
    exact .inr ⟨f, c.threads, rfl, .inr ⟨x, rfl, rfl, hf⟩⟩

theorem Valid.after (hc : Valid Good Begun c) (hf : f.Admissible Good Begun c.shared)
    (hrest : ∀ th ∈ rest, th ∈ c.threads) :
    Valid Good Begun ⟨⟨c.shared.objects ++ f.created, f.globals⟩, rest ++ f.next,
      c.trace ++ f.effects⟩ := by
  have hlen : (c.shared.objects ++ f.created).length =
      c.shared.objects.length + f.created.length := length_append
  refine ⟨hf.good, fun r sec h => ?_, fun th h => ?_, fun e he r hr => ?_⟩
  · rw [hlen]
    obtain h | h := mem_append.mp h
    · exact Nat.lt_add_right _ (hc.threads r sec (hrest _ h))
    · exact hf.next r sec h
  · exact (mem_append.mp h).elim (fun h => hc.begun th (hrest _ h)) (hf.begun th)
  · rw [hlen]
    obtain he | he := mem_append.mp he
    · exact Nat.lt_add_right _ (hc.trace e he r hr)
    · exact hf.effects e he r hr

theorem Code.Sound.step (sound : code.Sound Good Begun) (hc : Valid Good Begun c)
    (h : code.program.step c m = some c') : Valid Good Begun c' := by
  obtain ⟨k, i, r, sec, x, rest, rfl, hk, hperm, hx, rfl⟩ | ⟨f, rest, rfl, hdoes⟩ :=
    code.step_cases h
  · have hr := lt_of_getElem? hx
    have hrest (th : Point s τ) (h : th ∈ rest) : th ∈ c.threads := hperm.mem_iff.mpr (.tail _ h)
    refine ⟨sound.sect hc.good hx, fun r' sec' h => ?_, fun th h => ?_, fun e he r' hr' => ?_⟩
    · rw [length_set]
      obtain h | h := mem_append.mp h
      · exact hc.threads r' sec' (hrest _ h)
      · obtain ⟨_, -, heq⟩ := mem_map.mp h
        obtain ⟨rfl, -⟩ := Point.on.inj heq
        exact hr
    · obtain h | h := mem_append.mp h
      · exact hc.begun th (hrest _ h)
      · obtain ⟨_, -, heq⟩ := mem_map.mp h
        cases heq
    · rw [length_set]
      obtain he | he := mem_append.mp he
      · exact hc.trace e he r' hr'
      · obtain ⟨_, -, rfl⟩ := mem_map.mp he
        exact some.inj hr' ▸ hr
  · obtain ⟨k, i, th, rfl, hk, hperm, hf⟩ | ⟨x, rfl, rfl, hf⟩ := hdoes
    · refine hc.after (sound.free hc.good (hc.begun th (mem_of_getElem? hk)) hf) fun th h => ?_
      exact hperm.mem_iff.mpr (.tail _ h)
    · exact hc.after (sound.call hc.good hf) fun _ h => h

theorem Code.Sound.reach (sound : code.Sound Good Begun)
    (h : Reach code.program ok c₀ c) (hstart : Valid Good Begun c₀) : Valid Good Begun c :=
  h.invariant hstart fun _ _ _ hc _ hs => sound.step hc hs

theorem Code.mem_threads (h : code.program.step c m = some c')
    (hth : th ∈ c.threads) (hne : ∀ k i, m = .exec k i → c.threads[k]? ≠ some th) :
    th ∈ c'.threads := by
  have hrest {k : ℕ} {i : ι} {th' : Point s τ} {rest : List (Point s τ)} (hm : m = .exec k i)
      (hk : c.threads[k]? = some th') (hperm : c.threads.Perm (th' :: rest)) : th ∈ rest := by
    obtain rfl | hmem := mem_cons.mp (hperm.mem_iff.mp hth)
    · exact absurd hk (hne k i hm)
    · exact hmem
  obtain ⟨k, i, r, sec, x, rest, hm, hk, hperm, -, rfl⟩ | ⟨f, rest, rfl, hdoes⟩ := code.step_cases h
  · exact mem_append_left _ (hrest hm hk hperm)
  · obtain ⟨k, i, th', hm, hk, hperm, -⟩ | ⟨x, -, rfl, -⟩ := hdoes
    · exact mem_append_left _ (hrest hm hk hperm)
    · exact mem_append_left _ hth

theorem Code.mem_trace (h : code.program.step c m = some c') {e : Effect ν} (he : e ∈ c.trace) :
    e ∈ c'.trace := by
  obtain ⟨k, i, r, sec, x, rest, -, -, -, -, rfl⟩ | ⟨f, rest, rfl, -⟩ := code.step_cases h
  · exact mem_append_left _ he
  · exact mem_append_left _ he

theorem Code.trace_on {sec : s} {x : α}
    (h : code.program.step c (.exec k i) = some c') (hk : c.threads[k]? = some (.on r sec))
    (hx : c.shared.objects[r]? = some x) :
    c'.trace = c.trace ++ (code.sect r x c.shared.globals i sec).notes.map fun n => ⟨some r, n⟩ := by
  simp only [Program.step, hk, bind_some, Code.program, hx, map_some, some.injEq] at h
  rw [← h]
  rfl

theorem Code.after_free {th : τ} (h : code.program.step c (.exec k i) = some c')
    (hk : c.threads[k]? = some (.free th)) (hf : code.free c.shared th i = some f) :
    c'.trace = c.trace ++ f.effects ∧ c'.threads = c.threads.eraseIdx k ++ f.next := by
  simp only [Program.step, hk, bind_some, Code.program, hf, map_some, Option.some.injEq] at h
  rw [← h]
  exact ⟨rfl, rfl⟩

theorem Code.after_call {x : κ} (h : code.program.step c (.call x) = some c')
    (hf : code.call c.shared c.threads x = some f) :
    c'.trace = c.trace ++ f.effects ∧ c'.threads = c.threads ++ f.next := by
  simp only [Program.step, Code.program, hf, map_some, Option.some.injEq] at h
  rw [← h]
  exact ⟨rfl, rfl⟩

/-! ## Steps, seen from one object -/

/-- The view after a section on the object. -/
def View.exec (code : Code α γ s τ ι κ ν) (r : ℕ) (v : View α γ s ν) (i : ι) (sec : s)
    (rest : Multiset s) : View α γ s ν :=
  let d := code.sect r v.object v.globals i sec
  ⟨d.object, d.globals, rest + ↑d.next, v.notes ++ d.notes⟩

/-- The view after a step that is not a section. -/
def View.after (r : ℕ) (v : View α γ s ν) (f : Free α γ s τ ν) : View α γ s ν :=
  { v with
    globals := f.globals
    sections := v.sections + sectionsOn r f.next
    notes := v.notes ++ notesOn r f.effects }

/-- What a step can be for an object. -/
inductive View.Step (code : Code α γ s τ ι κ ν) (c : Snapshot α γ s τ ν) (r : ℕ) :
    View α γ s ν → Move ι κ → View α γ s ν → Prop
  | own {k : ℕ} {i : ι} {sec : s} {rest : Multiset s} {v : View α γ s ν}
      (point : c.threads[k]? = some (.on r sec)) (sections : v.sections = sec ::ₘ rest) :
      Step code c r v (.exec k i) (v.exec code r i sec rest)
  | other {k : ℕ} {i : ι} {r' : ℕ} {sec : s} {x : α} {v : View α γ s ν}
      (point : c.threads[k]? = some (.on r' sec)) (ne : r' ≠ r)
      (object : c.shared.objects[r']? = some x) :
      Step code c r v (.exec k i) { v with globals := (code.sect r' x v.globals i sec).globals }
  | free {k : ℕ} {i : ι} {th : τ} {f : Free α γ s τ ν} {v : View α γ s ν}
      (point : c.threads[k]? = some (.free th)) (does : code.free c.shared th i = some f) :
      Step code c r v (.exec k i) (v.after r f)
  | call {x : κ} {f : Free α γ s τ ν} {v : View α γ s ν}
      (does : code.call c.shared c.threads x = some f) : Step code c r v (.call x) (v.after r f)

/-- The view of an object that a step creates. -/
structure View.New (code : Code α γ s τ ι κ ν) (c : Snapshot α γ s τ ν) (m : Move ι κ) (r : ℕ)
    (v : View α γ s ν) (f : Free α γ s τ ν) : Prop where
  does : (∃ k i th, m = .exec k i ∧ c.threads[k]? = some (.free th) ∧
    code.free c.shared th i = some f) ∨ ∃ x, m = .call x ∧ code.call c.shared c.threads x = some f
  fresh : c.shared.objects.length ≤ r
  object : f.created[r - c.shared.objects.length]? = some v.object
  globals : v.globals = f.globals
  sections : v.sections = sectionsOn r f.next
  notes : v.notes = notesOn r f.effects

variable {v' : View α γ s ν}

theorem view_after (hr : r < c.shared.objects.length)
    (hrest : sectionsOn r rest = sectionsOn r c.threads)
    (hv : view ⟨⟨c.shared.objects ++ f.created, f.globals⟩, rest ++ f.next, c.trace ++ f.effects⟩
      r = some v') : ∃ v, view c r = some v ∧ v' = v.after r f := by
  obtain ⟨x, hx, rfl⟩ := map_eq_some_iff.mp hv
  rw [getElem?_append_left hr] at hx
  refine ⟨_, map_eq_some_iff.mpr ⟨x, hx, rfl⟩, ?_⟩
  simp [View.after, sectionsOn_append, notesOn_append, hrest]

theorem view_created (hc : Valid Good Begun c) (hrest : ∀ th ∈ rest, th ∈ c.threads)
    (hr : c.shared.objects.length ≤ r)
    (hdoes : (∃ k i th, m = .exec k i ∧ c.threads[k]? = some (.free th) ∧
      code.free c.shared th i = some f) ∨
      ∃ x, m = .call x ∧ code.call c.shared c.threads x = some f)
    (hv : view ⟨⟨c.shared.objects ++ f.created, f.globals⟩, rest ++ f.next, c.trace ++ f.effects⟩
      r = some v') : v'.New code c m r f := by
  obtain ⟨x, hx, rfl⟩ := map_eq_some_iff.mp hv
  rw [getElem?_append_right hr] at hx
  have hold : notesOn r c.trace = [] :=
    notesOn_eq_nil fun e he heq => (hc.trace e he r heq).not_ge hr
  have hnone : sectionsOn r rest = 0 := Multiset.eq_zero_of_forall_notMem fun sec hsec =>
    (hc.threads r sec (hrest _ (mem_sectionsOn.mp hsec))).not_ge hr
  refine ⟨hdoes, hr, hx, rfl, ?_, ?_⟩
  · simp [sectionsOn_append, hnone]
  · simp [notesOn_append, hold]

/-- **What a step of the whole is for one object.** -/
theorem Code.step_view (hc : Valid Good Begun c) (h : code.program.step c m = some c')
    (hv : view c' r = some v') :
    (∃ v, view c r = some v ∧ v.Step code c r m v') ∨ ∃ f, v'.New code c m r f := by
  obtain ⟨k, i, r', sec, x, rest, rfl, hk, hperm, hx, rfl⟩ | ⟨f, rest, rfl, hdoes⟩ :=
    code.step_cases h
  · left
    obtain ⟨y, hy, rfl⟩ := map_eq_some_iff.mp hv
    by_cases hr : r' = r
    · subst hr
      obtain rfl : (code.sect r' x c.shared.globals i sec).object = y := by
        simpa [lt_of_getElem? hx] using hy
      refine ⟨_, map_eq_some_iff.mpr ⟨x, hx, rfl⟩, ?_⟩
      have hsec : sectionsOn r' c.threads = sec ::ₘ sectionsOn r' rest :=
        (sectionsOn_perm hperm).trans (sectionsOn_cons_on _ _ _)
      simp only [sectionsOn_append, sectionsOn_map_on, notesOn_append, notesOn_map_some]
      exact .own hk hsec
    rw [getElem?_set_ne hr] at hy
    refine ⟨_, map_eq_some_iff.mpr ⟨y, hy, rfl⟩, ?_⟩
    have hsec : sectionsOn r c.threads = sectionsOn r rest :=
      (sectionsOn_perm hperm).trans (sectionsOn_cons_of_none (by simp [Point.sectionOn, hr]) _)
    simp only [sectionsOn_append, sectionsOn_map_on_ne hr, notesOn_append, notesOn_map_some_ne hr,
      append_nil, Multiset.add_zero, ← hsec]
    exact .other hk hr hx
  obtain ⟨k, i, th, rfl, hk, hperm, hf⟩ | ⟨x, rfl, rfl, hf⟩ := hdoes
  · by_cases hr : r < c.shared.objects.length
    · have hrest : sectionsOn r rest = sectionsOn r c.threads :=
        ((sectionsOn_perm hperm).trans (sectionsOn_cons_of_none rfl _)).symm
      obtain ⟨v, hold, rfl⟩ := view_after hr hrest hv
      exact .inl ⟨v, hold, .free hk hf⟩
    · refine .inr ⟨f, view_created hc (fun th h => ?_) (not_lt.mp hr)
        (.inl ⟨k, i, th, rfl, hk, hf⟩) hv⟩
      exact hperm.mem_iff.mpr (.tail _ h)
  · by_cases hr : r < c.shared.objects.length
    · obtain ⟨v, hold, rfl⟩ := view_after hr rfl hv
      exact .inl ⟨v, hold, .call hf⟩
    · exact .inr ⟨f, view_created hc (fun _ h => h) (not_lt.mp hr) (.inr ⟨x, rfl, hf⟩) hv⟩

/-- **The induction over runs for a property of one object**: it holds of a new object, and every
step keeps it. -/
theorem Code.Sound.view_invariant (sound : code.Sound Good Begun)
    {I : Snapshot α γ s τ ν → ℕ → View α γ s ν → Prop} (h : Reach code.program ok c₀ c)
    (hstart : Valid Good Begun c₀) (hempty : c₀.shared.objects = [])
    (hnew : ∀ c m c' r v' f, Valid Good Begun c → Reach code.program ok c₀ c' →
      view c' r = some v' → v'.New code c m r f → I c' r v')
    (hstep : ∀ c m c' r v v', Valid Good Begun c → Reach code.program ok c₀ c → ok c m →
      code.program.step c m = some c' → view c r = some v → view c' r = some v' →
      v.Step code c r m v' → I c r v → I c' r v') {v : View α γ s ν} (hv : view c r = some v) :
    I c r v := by
  suffices hall : ∀ r v, view c r = some v → I c r v from hall r v hv
  clear hv
  induction h with
  | refl => simp [view, hempty]
  | step hreach meets hs ih =>
    intro r v' hv'
    have hc := sound.reach hreach hstart
    obtain ⟨v, hv, hact⟩ | ⟨f, hn⟩ := code.step_view hc hs hv'
    · exact hstep _ _ _ r v v' hc hreach meets hs hv hv' hact (ih r v hv)
    · exact hnew _ _ _ r v' f hc (.step hreach meets hs) hv' hn

end Librats.Objects
