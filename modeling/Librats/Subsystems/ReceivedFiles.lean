import Librats.Subsystems.WriterSteps

/-!
# Received files

A file at its final place holds the data of the chunks that were accepted for it, as long as closing
a file loses nothing and no destination is a temp path of the same transfer. What is written is
never more than the sizes in the manifest, which need not agree with the size the application is
shown.
-/

namespace Librats.FileTransfer

open Objects Interleaving List Option Multiset Transfer

variable {P : Type}

/-! ## Temp paths -/

theorem forwardSlash_digit {c : Char} (hc : c.isDigit = true) :
    forwardSlash c.toNat.toUInt8 = c.toNat.toUInt8 ∧ c.toNat.toUInt8.toNat = c.toNat := by
  have hle : c.toNat ≤ 57 := (Char.isDigit_iff_toNat.mp hc).2
  have htoNat : c.toNat.toUInt8.toNat = c.toNat := UInt8.toNat_ofNat_of_lt' (by
    show c.toNat < 256
    omega)
  refine ⟨if_neg fun heq => ?_, htoNat⟩
  have h92 : c.toNat = 92 := htoNat.symm.trans (congrArg UInt8.toNat heq)
  omega

theorem map_forwardSlash_decimal (n : ℕ) : (decimal n).map forwardSlash = decimal n := by
  simp only [decimal, List.map_map]
  refine List.map_congr_left fun c hc => (forwardSlash_digit ?_).1
  exact Nat.isDigit_of_mem_toDigits (by norm_num) (by norm_num) hc

theorem decimal_injective : Function.Injective decimal := by
  have hchars (n : ℕ) : (decimal n).map (fun b => Char.ofNat b.toNat) = Nat.toDigits 10 n := by
    simp only [decimal, List.map_map]
    refine (List.map_congr_left fun c hc => ?_).trans (List.map_id _)
    have hdigit := Nat.isDigit_of_mem_toDigits (by norm_num) (by norm_num) hc
    rw [Function.comp_apply, (forwardSlash_digit hdigit).2, Char.ofNat_toNat]
    rfl
  intro i j h
  have hdigits : Nat.toDigits 10 i = Nat.toDigits 10 j := by rw [← hchars, ← hchars, h]
  rw [← Nat.ofDigitChars_toDigits (b := 10) (n := i) (by norm_num) (by norm_num), hdigits,
    Nat.ofDigitChars_toDigits (by norm_num) (by norm_num)]

theorem exists_combinePaths (base : Bytes) {front : Bytes} (hfront : front ≠ []) :
    ∃ front' g, (g = id ∨ g = forwardSlash) ∧
      ∀ rear, combinePaths base (front ++ rear) = front' ++ rear.map g := by
  obtain ⟨b, front, rfl⟩ := exists_cons_of_ne_nil hfront
  by_cases hbase : base = []
  · exact ⟨b :: front, id, .inl rfl, fun rear => by simp [combinePaths, hbase]⟩
  · refine ⟨(if (base.map forwardSlash).getLast? = some 47 then base.map forwardSlash
        else base.map forwardSlash ++ [47]) ++
      (if isSeparator b then front else b :: front).map forwardSlash, forwardSlash, .inr rfl,
      fun rear => ?_⟩
    simp only [combinePaths, if_neg hbase, cons_append, reduceCtorEq, if_false, head?_cons,
      any_some, tail_cons, append_assoc]
    by_cases hsep : isSeparator b = true <;> simp [hsep]

variable (cfg : Config)

theorem tempPath_eq (hex : Bytes) (tid : ℕ) :
    ∃ front g, (g = id ∨ g = forwardSlash) ∧ ∀ i, tempPath cfg hex tid i =
      front ++ ((decimal i).map g ++ ([46, 112, 97, 114, 116] : Bytes).map g) := by
  have hfront : hex ++ [46] ++ decimal tid ++ [46] ≠ [] := by simp
  obtain ⟨front, g, hg, heq⟩ := exists_combinePaths (cfg.resolve cfg.tempDirectory) hfront
  refine ⟨front, g, hg, fun i => ?_⟩
  rw [tempPath, append_assoc _ (decimal i), heq, map_append]

theorem tempPath_injective (hex : Bytes) (tid : ℕ) : Function.Injective (tempPath cfg hex tid) := by
  obtain ⟨front, g, hg, heq⟩ := tempPath_eq cfg hex tid
  intro i j h
  rw [heq, heq] at h
  have hdecimal := append_cancel_right (append_cancel_left h)
  refine decimal_injective ?_
  obtain rfl | rfl := hg
  · simpa using hdecimal
  · rwa [map_forwardSlash_decimal, map_forwardSlash_decimal] at hdecimal

theorem tempPath_ne_nil (hex : Bytes) (tid i : ℕ) : tempPath cfg hex tid i ≠ [] := by
  obtain ⟨front, g, -, heq⟩ := tempPath_eq cfg hex tid
  simp [heq]

/-! ## Steps -/

/-- Closing a file loses nothing, and no destination leads to a temp file. -/
def Transfer.careful (hex : P → Bytes) (x : Transfer P) (a : Answer) : Section → Bool
  | .close _ _ _ _ | .copy _ _ _ => a.lost.isNone
  | .accept dest =>
    x.t.files.all fun f => (List.range x.t.files.length).all fun i =>
      cfg.resolve (if x.t.isDirectory then combinePaths dest f.relativePath else dest) !=
        tempPath cfg (hex x.t.peer) x.t.id i
  | _ => true

section

variable {cfg : Config} {sha256 : Bytes → Bytes} {hex : P → Bytes} {clean : Prop} {temp : ℕ → Bytes}
  {v v' : View P} {notes : List (Note P)}

theorem Transfer.exec_finished (cfg : Config) (sha256 : Bytes → Bytes) (hex : P → Bytes)
    (x : Transfer P) (disk : Disk) (a : Answer) (sec : Section) (h : x.t.finished = true) :
    (x.exec cfg sha256 hex disk a sec).transfer.t.finished = true := by
  cases sec with
  | chunk fidx offset data | fileEnd fidx sha => simp [exec, h]
  | _ =>
    simp only [exec, accept, respond, finish, drainWrites, processData, openTemp, write, record,
      processFileEnd, closeTemp, clear, create, discard, rename, copy, placed, failed]
    repeat' split
    all_goals exact h

variable {sec : Section} {a : Answer} {rest : Multiset Section}

theorem Transfer.exec_holds_next (cfg : Config) (sha256 : Bytes → Bytes) (hex : P → Bytes)
    (x : Transfer P) (disk : Disk) (a : Answer) (h : sec.Holds = true) :
    ∀ sec' ∈ (x.exec cfg sha256 hex disk a sec).next, sec'.Holds = true := by
  cases sec with
  | finish _ _ back | unlist _ _ back | report _ _ back =>
    obtain rfl : back = true := h
    simp only [exec, finish, resumeDrain]
    repeat' split
    all_goals simp [Section.Holds]
  | chunk | fileEnd | peerCancel | peerPause | peerResume | accept | respond | cancel | pause | resume
  | expire | withdraw | refuse => cases h
  | _ =>
    simp only [exec, drainWrites, processData, openTemp, write, record, processFileEnd, closeTemp,
      clear, create, discard, rename, copy, placed, failed]
    repeat' split
    all_goals simp [Section.Holds]

theorem advance (hinj : Function.Injective temp) (hne : ∀ i, temp i ≠ [])
    (h : Writing cfg sha256 clean temp v) (hq : Queue v) (hsec : v.sections = sec ::ₘ rest)
    (hholds : sec.Holds = true) (hlocal : sec.Local)
    (hcareful : clean → v.transfer.careful cfg hex a sec = true) :
    Advance cfg sha256 clean temp v (v.exec cfg sha256 hex a sec rest)
      (v.transfer.exec cfg sha256 hex v.disk a sec).next := by
  have hw := h.working sec (hsec ▸ mem_cons_self _ _)
  have ha : After v (v.exec cfg sha256 hex a sec rest)
      (v.transfer.exec cfg sha256 hex v.disk a sec) := ⟨rfl, rfl, rfl⟩
  cases sec with
  | drain => exact advance_drain h hq hw ha
  | data job => exact advance_data h hq hw ha
  | openTemp job path => exact advance_openTemp hinj h hq hw ha
  | write job => exact advance_write h hq hw ha
  | record job => exact advance_record h hq hw ha
  | endFile job => exact advance_endFile h hq hw ha
  | close i final path size =>
    exact advance_close hinj (fun hclean => isNone_iff_eq_none.mp (hcareful hclean)) h hq hw ha
  | clear i final path size => exact advance_clear h hq hw ha
  | create i final path => exact advance_create h hq hw ha
  | discard i path created => exact advance_discard hinj hne h hq hw ha
  | rename i final path => exact advance_rename hinj h hq hw ha
  | copy i final path =>
    exact advance_copy (fun hclean => isNone_iff_eq_none.mp (hcareful hclean)) h hq hw ha
  | remove i path => exact advance_remove hinj h hq hw ha
  | placed i => exact advance_placed h hq hw ha
  | finish success error back => exact advance_finish h hq hw ha
  | report success dest back => exact advance_report h hq hw ha
  | schedule | unlist | withdraw => exact hlocal.elim
  | _ => cases hholds

theorem Working.aside (hw : Working cfg sha256 clean temp v sec) (hholds : sec.Holds = false)
    (hlength : v'.transfer.t.files.length = v.transfer.t.files.length)
    (hnotes : ∀ n ∈ v.notes, n ∈ v'.notes)
    (hfin : v.transfer.t.finished = true → v'.transfer.t.finished = true) :
    Working cfg sha256 clean temp v' sec := by
  cases sec with
  | finish success error back =>
    exact fun hs i hi => (hw hs i (hlength ▸ hi)).mono hnotes
  | unlist success dest back | report success dest back => exact hfin hw
  | chunk | fileEnd | peerCancel | peerPause | peerResume | accept | respond | cancel | pause | resume
  | expire | withdraw | refuse => trivial
  | _ => cases hholds

theorem Writing.turn (hinj : Function.Injective temp) (hne : ∀ i, temp i ≠ [])
    (h : Writing cfg sha256 clean temp v) (hturn : Turn v) (hq : Queue v)
    (hsec : v.sections = sec ::ₘ rest) (hholds : sec.Holds = true) (hlocal : sec.Local)
    (hcareful : clean → v.transfer.careful cfg hex a sec = true) :
    Writing cfg sha256 clean temp (v.exec cfg sha256 hex a sec rest) := by
  have hadv := advance hinj hne h hq hsec hholds hlocal hcareful
  have hsizes := (v.transfer.exec_same cfg sha256 hex v.disk a sec).sizes
  have hlength := congrArg List.length hsizes
  simp only [Incoming.sizes, length_map] at hlength
  have hrest := (hturn.alone hsec hholds).1
  have hnext := v.transfer.exec_holds_next cfg sha256 hex v.disk a hholds
  constructor
  · intro hclean i f' hf'
    obtain ⟨f, hf, hfinal, htemp⟩ := hadv.paths i f' hf'
    obtain ⟨hother, hpath⟩ := h.paths hclean i f hf
    rw [hfinal, htemp]
    exact ⟨fun j hj => hother j (hlength ▸ hj), hpath⟩
  · exact hadv.finalized
  · exact hadv.bound.trans_eq (congrArg List.sum hsizes.symm)
  · have hjust := hadv.justified
    rw [← hsizes] at hjust
    exact hjust
  · intro hnone
    refine hadv.stop (eq_nil_iff_forall_not_mem.mpr fun sec' hmem => ?_)
    have := hnone sec' (mem_add.mpr (.inr hmem))
    rw [hnext sec' hmem] at this
    cases this
  · intro sec' hmem
    obtain hmem | hmem := mem_add.mp hmem
    · refine (h.working sec' (hsec ▸ mem_cons_of_mem hmem)).aside (hrest sec' hmem) hlength
        (fun n hn => mem_append_left _ hn) ?_
      exact v.transfer.exec_finished cfg sha256 hex v.disk a sec
    · exact hadv.follow sec' hmem

variable (h : Writing cfg sha256 clean temp v)

include h

theorem Writing.kept (hk : Kept clean temp v v')
    (hpaths : clean → ∀ i f, v'.transfer.t.files[i]? = some f →
      Paths temp v' i f.finalPath f.tempPath)
    (hsizes : v'.transfer.t.sizes = v.transfer.t.sizes) (hnotes : v'.notes = v.notes ++ notes)
    (hjust : ∀ before n after, notes = before ++ n :: after →
      n.Justified cfg sha256 clean v.transfer.t.sizes (v.notes ++ before))
    (hidle : (∀ sec ∈ v'.sections, sec.Holds = false) → Idle clean temp v')
    (hsections : ∀ sec ∈ v'.sections, sec ∈ v.sections ∨ Working cfg sha256 clean temp v' sec) :
    Writing cfg sha256 clean temp v' where
  paths := hpaths
  finalized i f' hf' hfin := by
    obtain ⟨f, hf, heq⟩ := hk.toStill.file hf'
    exact (h.finalized i f hf (heq.symm.trans hfin)).mono hk.notes
  bound := by
    rw [hk.written, hsizes]
    exact h.bound
  justified := by
    rw [hnotes, hsizes]
    exact h.justified.append hjust
  idle := hidle
  working sec hsec := (hsections sec hsec).elim (fun hmem => hk.working (h.working sec hmem)) id

theorem Writing.paths_of_map (hmap : v'.transfer.t.files.map (fun f => (f.finalPath, f.tempPath)) =
      v.transfer.t.files.map fun f => (f.finalPath, f.tempPath)) (hclean : clean) (i : ℕ)
    (f' : IncomingFile) (hf' : v'.transfer.t.files[i]? = some f') :
    Paths temp v' i f'.finalPath f'.tempPath := by
  have hlength := congrArg length hmap
  have hget := congrArg (·[i]?) hmap
  simp only [length_map] at hlength
  simp only [getElem?_map, hf'] at hget
  obtain ⟨f, hf, heq⟩ := map_eq_some_iff.mp hget.symm
  obtain ⟨hfinal, htemp⟩ := Prod.mk.inj heq
  obtain ⟨hother, hpath⟩ := h.paths hclean i f hf
  rw [← hfinal, ← htemp]
  exact ⟨fun j hj => hother j (hlength ▸ hj), hpath⟩

omit h in
theorem Transfer.exec_paths (cfg : Config) (sha256 : Bytes → Bytes) (hex : P → Bytes)
    (x : Transfer P) (disk : Disk) (a : Answer) (hholds : sec.Holds = false)
    (haccept : ∀ dest, sec ≠ .accept dest) :
    (x.exec cfg sha256 hex disk a sec).transfer.t.files.map (fun f => (f.finalPath, f.tempPath)) =
      x.t.files.map fun f => (f.finalPath, f.tempPath) := by
  have hqueues := x.exec_queues cfg sha256 hex disk a sec
  cases sec with
  | chunk | fileEnd =>
    obtain h | ⟨e, h⟩ | ⟨t, hq, h⟩ := hqueues _ rfl
    · rw [h]
    · rw [h]
      rfl
    · rw [h]
      exact hq.files _ fun _ _ => rfl
  | accept dest => exact absurd rfl (haccept dest)
  | peerCancel | peerPause | peerResume | respond | cancel | pause | resume | expire | refuse
  | finish _ _ _ | report _ _ _ | unlist _ _ _ | withdraw =>
    simp only [exec, respond, finish]
    repeat' split
    all_goals rfl
  | _ => cases hholds

omit h in
theorem Turn.none (h : Turn v) (hs : v.transfer.t.scheduled = false) :
    ∀ sec ∈ v.sections, sec.Holds = false := by
  intro sec hmem
  by_contra hne
  have hpos : 0 < tally Section.Holds v.sections :=
    tally_pos.mpr ⟨sec, hmem, Bool.not_eq_false _ ▸ hne⟩
  rw [Turn, hs, Bool.toNat_false] at h
  omega

theorem Writing.waking (hturn : Turn v)
    (hk : Kept clean temp v v') : ∀ sec ∈ v.transfer.waking, Working cfg sha256 clean temp v' sec := by
  intro sec hsec
  unfold Transfer.waking at hsec
  split_ifs at hsec with hs
  · cases hsec
  · obtain rfl := List.mem_singleton.mp hsec
    exact hk.idle (h.idle (hturn.none (by simpa using hs)))

theorem Writing.follow (hturn : Turn v)
    (hholds : sec.Holds = false) (hk : Kept clean temp v (v.exec cfg sha256 hex a sec rest)) :
    ∀ sec' ∈ (v.transfer.exec cfg sha256 hex v.disk a sec).next,
      Working cfg sha256 clean temp (v.exec cfg sha256 hex a sec rest) sec' := by
  have hfail (error : String) (back : Bool) :
      Working cfg sha256 clean temp (v.exec cfg sha256 hex a sec rest) (.finish false error back) :=
    nofun
  have hqueues := v.transfer.exec_queues cfg sha256 hex v.disk a sec
  cases sec with
  | chunk | fileEnd =>
    obtain hx | ⟨e, hx⟩ | ⟨t, -, hx⟩ := hqueues _ rfl
    · simp [hx]
    · rw [hx]
      exact forall_mem_singleton.mpr (hfail e false)
    · rw [hx]
      exact h.waking hturn hk
  | respond =>
    intro sec' hmem
    simp only [exec, respond] at hmem
    split_ifs at hmem with hfiles
    · obtain rfl := List.mem_singleton.mp hmem
      intro _ i hi
      rw [hk.length, hfiles] at hi
      cases hi
    · cases hmem
  | finish success error back =>
    obtain rfl : back = false := hholds
    intro sec' hmem
    obtain ⟨t, notes, next, hd, hfin, -, -, rfl | ⟨dest, rfl⟩⟩ :=
      finish_spec v.transfer v.disk success error false
    · simp [exec, hd, resumeDrain] at hmem
    · simp only [exec, hd, List.mem_singleton] at hmem
      subst hmem
      simpa [Working, View.exec, exec, hd] using hfin
  | report success dest back =>
    obtain rfl : back = false := hholds
    simp [exec, resumeDrain]
  | accept dest =>
    simp only [exec, accept]
    split_ifs <;> simp [Working]
  | peerCancel => exact forall_mem_singleton.mpr (hfail _ _)
  | cancel =>
    intro sec' hmem
    simp only [exec] at hmem
    split_ifs at hmem
    · cases hmem
    · exact List.mem_singleton.mp hmem ▸ hfail _ _
  | expire =>
    intro sec' hmem
    simp only [exec] at hmem
    split_ifs at hmem
    · exact List.mem_singleton.mp hmem ▸ hfail _ _
    · cases hmem
  | peerPause | peerResume | refuse | withdraw | unlist _ _ _ => simp [exec]
  | pause | resume =>
    simp only [exec]
    split_ifs <;> simp
  | _ => cases hholds

theorem Writing.exec_justified
    (hsec : v.sections = sec ::ₘ rest) (hholds : sec.Holds = false) {before after : List (Note P)}
    {n : Note P}
    (heq : (v.transfer.exec cfg sha256 hex v.disk a sec).notes = before ++ n :: after) :
    n.Justified cfg sha256 clean v.transfer.t.sizes (v.notes ++ before) := by
  have hw := h.working sec (hsec ▸ mem_cons_self _ _)
  have hqueues := v.transfer.exec_queues cfg sha256 hex v.disk a sec
  cases sec with
  | finish success error back =>
    obtain ⟨t, notes, next, hd, -, -, hplain, -⟩ :=
      finish_spec v.transfer v.disk success error back
    simp only [exec, hd] at heq
    exact finishing_justified hw hplain heq
  | chunk | fileEnd =>
    obtain hx | ⟨e, hx⟩ | ⟨t, -, hx⟩ := hqueues _ rfl
    all_goals
      rw [hx] at heq
      exact justified_of_quiet (by simp [Note.Quiet, refusal]) heq
  | peerCancel | peerPause | peerResume | accept _ | respond | cancel | pause | resume | expire
  | refuse | report _ _ _ | unlist _ _ _ | withdraw =>
    refine justified_of_quiet ?_ heq
    simp only [exec, accept, respond]
    repeat' split
    all_goals simp [Note.Quiet]
  | _ => cases hholds

omit h in
theorem paths_accept (htemp : ∀ i, tempPath cfg (hex v.transfer.t.peer) v.transfer.t.id i = temp i)
    (h : Writing cfg sha256 clean temp v) {dest : Bytes}
    (hcareful : clean → v.transfer.careful cfg hex a (.accept dest) = true) (hclean : clean)
    (i : ℕ) (f' : IncomingFile)
    (hf' : (v.exec cfg sha256 hex a (.accept dest) rest).transfer.t.files[i]? = some f') :
    Paths temp (v.exec cfg sha256 hex a (.accept dest) rest) i f'.finalPath f'.tempPath := by
  have hlength := (v.transfer.exec_same cfg sha256 hex v.disk a (.accept dest)).sizes
  replace hlength := congrArg List.length hlength
  simp only [Incoming.sizes, length_map] at hlength
  have hother := hcareful hclean
  simp only [careful, List.all_eq_true, List.mem_range, bne_iff_ne, htemp] at hother
  simp only [View.exec, exec, accept] at hf'
  split_ifs at hf' with hpending
  · have hlt : i < v.transfer.t.files.length := by
      have := lt_of_getElem? hf'
      rwa [placedIn, length_mapIdx] at this
    obtain rfl := Option.some.inj
      ((getElem?_placedIn cfg hex (getElem?_eq_getElem hlt) dest).symm.trans hf')
    refine ⟨fun j hj => ?_, .inr (htemp i)⟩
    exact hother _ (List.getElem_mem hlt) j (hlength ▸ hj)
  · obtain ⟨hfinal, hpath⟩ := h.paths hclean i f' hf'
    exact ⟨fun j hj => hfinal j (hlength ▸ hj), hpath⟩

theorem Writing.aside (hturn : Turn v)
    (htemp : ∀ i, tempPath cfg (hex v.transfer.t.peer) v.transfer.t.id i = temp i)
    (hsec : v.sections = sec ::ₘ rest) (hholds : sec.Holds = false) (hlocal : sec.Local)
    (hcareful : clean → v.transfer.careful cfg hex a sec = true) :
    Writing cfg sha256 clean temp (v.exec cfg sha256 hex a sec rest) := by
  have hk : Kept clean temp v (v.exec cfg sha256 hex a sec rest) :=
    .of_exec cfg sha256 hex hlocal hholds htemp a rest
  refine h.kept hk ?_ (v.transfer.exec_same cfg sha256 hex v.disk a sec).sizes rfl
    (fun before n after heq => h.exec_justified hsec hholds heq) (fun hnone => ?_) fun sec' hmem => ?_
  · by_cases haccept : ∃ dest, sec = .accept dest
    · obtain ⟨dest, rfl⟩ := haccept
      exact paths_accept htemp h hcareful
    · refine h.paths_of_map (v.transfer.exec_paths cfg sha256 hex v.disk a hholds fun dest heq => ?_)
      exact haccept ⟨dest, heq⟩
  · refine hk.idle (h.idle fun sec' hmem => ?_)
    rw [hsec] at hmem
    obtain rfl | hmem := mem_cons.mp hmem
    · exact hholds
    · exact hnone sec' (mem_add.mpr (.inl hmem))
  · obtain hmem | hmem := mem_add.mp hmem
    · exact .inl (hsec ▸ mem_cons_of_mem hmem)
    · exact .inr (h.follow hturn hholds hk sec' hmem)

omit h in
theorem foldl_delete_eq_none (l : List Bytes) {disk : Disk} {path : Bytes} (h : disk path = none) :
    l.foldl Disk.delete disk path = none := by
  induction l generalizing disk with
  | nil => exact h
  | cons p l ih =>
    refine ih ?_
    by_cases hp : path = p
    · rw [hp, Disk.delete_self]
    · rw [Disk.delete_of_ne hp, h]

omit h in
theorem destroyed_eq_none {path : Bytes} (h : v.transfer.w.flush v.disk none path = none)
    (ok : Bool) : (v.destroyed ok).disk path = none := by
  simp only [View.destroyed, destroy]
  split_ifs
  · exact foldl_delete_eq_none _ h
  · exact h

omit h in
/-- `~Incoming` closes the stream and deletes temp files. -/
theorem Between.destroyed {done : List WriteJob} (hinj : Function.Injective temp)
    (h : Between temp v done) (ok : Bool) : Between temp (v.destroyed ok) done := by
  obtain ⟨hu, hnil, hhash⟩ | ⟨ho, hhash⟩ := h
  · refine .inl ⟨⟨hu.out, hu.outIdx, fun i hi hlt => destroyed_eq_none ?_ ok⟩, hnil, hhash⟩
    rw [Writer.flush, hu.out]
    exact hu.unused i hi hlt
  · refine .inr ⟨⟨ho.out, ho.outIdx, ho.path, fun i hi hlt => destroyed_eq_none ?_ ok⟩, hhash⟩
    have hne : temp i ≠ temp (ends done) := fun heq => absurd (hinj heq) (by omega)
    rw [Writer.flush, ho.out]
    exact (Disk.put_of_ne hne).trans (ho.unused i hi hlt)

omit h in
theorem Writing.destroyed (hinj : Function.Injective temp) (h : Writing cfg sha256 clean temp v)
    (hsections : v.sections = 0) (ok : Bool) : Writing cfg sha256 clean temp (v.destroyed ok) := by
  have hplain : ∀ n ∈ (v.transfer.destroy v.disk ok).notes, n.Plain := by
    intro n hn
    obtain hn | hn := mem_append.mp hn
    · exact plain_closing _ n hn
    · obtain ⟨path, -, rfl⟩ := mem_map.mp hn
      trivial
  have hnotes : (v.destroyed ok).notes = v.notes ++ (v.transfer.destroy v.disk ok).notes := rfl
  constructor
  · exact h.paths_of_map rfl
  · intro i f hf hfin
    exact (h.finalized i f hf hfin).mono fun n hn => mem_append_left _ hn
  · rw [hnotes, written_append, written_of_plain hplain]
    exact h.bound
  · rw [hnotes]
    refine h.justified.append fun before n after heq => ?_
    exact justified_of_quiet (fun n hn => quiet_of_plain (hplain n hn)) heq
  · intro hnone
    refine (h.idle hnone).imp_right fun hresting => ?_
    obtain ⟨done, hl, hb⟩ := hresting
    have hfiles : FilesKept v.transfer.t.files (v.destroyed ok).transfer.t.files := .refl _
    have hl' : Ledger (v.destroyed ok) done [] := hl.plain hfiles hnotes hplain rfl
    exact ⟨done, hl', fun hclean => (hb hclean).destroyed hinj ok⟩
  · intro sec hmem
    change sec ∈ v.sections at hmem
    rw [hsections] at hmem
    simp at hmem

theorem Writing.same (htransfer : v'.transfer = v.transfer)
    (hdisk : clean → ∀ i < v.transfer.t.files.length, v'.disk (temp i) = v.disk (temp i))
    (hnotes : v'.notes = v.notes ++ notes) (hplain : ∀ n ∈ notes, n.Plain)
    (hidle : (∀ sec ∈ v'.sections, sec.Holds = false) → Idle clean temp v)
    (hsections : ∀ sec ∈ v'.sections, sec ∈ v.sections ∨ Working cfg sha256 clean temp v sec) :
    Writing cfg sha256 clean temp v' := by
  have hk : Kept clean temp v v' := by
    refine .of_files ?_ ?_ ?_ ?_ hdisk hnotes (jobs_of_plain hplain) (written_of_plain hplain)
    all_goals rw [htransfer]
    exact id
  refine h.kept hk (h.paths_of_map (by rw [htransfer])) (by rw [htransfer]) hnotes ?_
    (fun hnone => hk.idle (hidle hnone)) fun sec hmem => (hsections sec hmem).imp_right hk.working
  exact fun _ _ _ heq => justified_of_quiet (fun n hn => quiet_of_plain (hplain n hn)) heq

omit h

/-- What a step must keep to. -/
def Act.careful (cfg : Config) (hex : P → Bytes) (x : Transfer P) : Act → Bool
  | .own sec a => x.careful cfg hex a sec
  | _ => true

/-- **What a step of a transfer does to its files.** -/
theorem Writing.step (hinj : Function.Injective temp) (hne : ∀ i, temp i ≠ [])
    (h : Writing cfg sha256 clean temp v) (hturn : Turn v) (hq : Queue v)
    (htemp : ∀ i, tempPath cfg (hex v.transfer.t.peer) v.transfer.t.id i = temp i) {act : Act}
    (hs : v.Step cfg sha256 hex act v') (hcareful : clean → act.careful cfg hex v.transfer = true)
    (halone : ∀ secs touched, act = .found secs touched → clean →
      ∀ i < v.transfer.t.files.length, temp i ∉ touched) : Writing cfg sha256 clean temp v' := by
  cases hs with
  | @own sec a rest hsec hlocal =>
    cases hholds : sec.Holds with
    | true => exact h.turn hinj hne hturn hq hsec hholds hlocal hcareful
    | false => exact h.aside hturn htemp hsec hholds hlocal hcareful
  | schedule hsec =>
    have hw := h.working _ (hsec ▸ mem_cons_self _ _)
    refine h.same rfl (fun _ _ _ => rfl) (append_nil _).symm (by simp) (fun _ => hw) ?_
    exact fun sec hmem => .inl (hsec ▸ mem_cons_of_mem hmem)
  | unlist hsec =>
    have hw := h.working _ (hsec ▸ mem_cons_self _ _)
    refine h.same rfl (fun _ _ _ => rfl) (append_nil _).symm (by simp) (fun hnone => ?_)
      fun sec hmem => ?_
    · refine h.idle fun sec hmem => ?_
      rw [hsec] at hmem
      obtain rfl | hmem := mem_cons.mp hmem
      · exact hnone (.report _ _ _) (mem_cons_self _ _)
      · exact hnone sec (mem_cons_of_mem hmem)
    · obtain rfl | hmem := mem_cons.mp hmem
      · exact .inr hw
      · exact .inl (hsec ▸ mem_cons_of_mem hmem)
  | withdraw hsec =>
    refine h.same rfl (fun _ _ _ => rfl) rfl (by simp [Note.Plain]) (fun hnone => ?_)
      fun sec hmem => ?_
    · refine h.idle fun sec hmem => ?_
      rw [hsec] at hmem
      obtain rfl | hmem := mem_cons.mp hmem
      · rfl
      · exact hnone sec (mem_cons_of_mem hmem)
    · obtain rfl | hmem := mem_cons.mp hmem
      · exact .inr trivial
      · exact .inl (hsec ▸ mem_cons_of_mem hmem)
  | take hready =>
    have hidle := h.idle (hturn.queued (by omega))
    refine h.same rfl (fun _ _ _ => rfl) (append_nil _).symm (by simp) (fun _ => hidle)
      fun sec hmem => ?_
    obtain rfl | hmem := mem_cons.mp hmem
    · exact .inr hidle
    · exact .inl hmem
  | found _ hentry _ helse =>
    refine h.same rfl (fun hclean i hi => helse _ (halone _ _ rfl hclean i hi))
      (append_nil _).symm (by simp) (fun hnone => ?_) fun sec hmem => ?_
    · exact h.idle fun sec hmem => hnone sec (mem_add.mpr (.inl hmem))
    obtain hmem | hmem := mem_add.mp hmem
    · exact .inl hmem
    · have hbegins := hentry sec hmem
      cases sec with
      | finish success error back =>
        obtain rfl : success = false := hbegins.1
        exact .inr (by rintro ⟨⟩)
      | _ => first | exact .inr trivial | exact hbegins.elim
  | destroy hidle => exact h.destroyed hinj hidle _

end

/-! ## Runs -/

namespace Receiver

variable [DecidableEq P] {cfg : Config} {sha256 : Bytes → Bytes} {hex : P → Bytes}
  {ok : Snapshot P → Move P → Prop} {disk : Disk} {hasOfferHandler : Bool} {c : Snapshot P} {r : ℕ}
  {v : View P} {st : Store (Transfer P) (Receiver P)} {f : Outcome P}

theorem seek_disk {th : Seeker P} {a : Answer}
    (h : seek st th a = some f) : f.globals.disk = st.globals.disk := by
  cases th with
  | checkOffer offer =>
    simp only [seek] at h
    split_ifs at h
    all_goals
      cases h
      rfl
  | emplace offer =>
    simp only [seek] at h
    split_ifs at h
    all_goals
      cases h
      exact emplace_disk _ _ _
  | _ =>
    cases h
    rfl

theorem call_disk {threads : List (Thread P)} {x : Call P} (h : call st threads x = some f) {path : Bytes}
    (hpath : ∀ e ∈ f.effects, path ∉ e.note.paths) : f.globals.disk path = st.globals.disk path := by
  cases x with
  | message sender payload =>
    simp only [call] at h
    split_ifs at h
    cases h
    rfl
  | take =>
    simp only [call] at h
    split at h
    · cases h
    · cases h
      rfl
  | destroy r' ok =>
    simp only [call] at h
    split at h
    · cases h
    · next y hy =>
      split_ifs at h
      cases h
      refine y.destroy_disk _ ok fun n hn => ?_
      exact hpath ⟨some r', n⟩ (mem_map_of_mem hn)
  | external path' content =>
    cases h
    refine Function.update_of_ne ?_ _ _
    simpa [Note.paths, FileOp.paths] using hpath
  | _ =>
    cases h
    rfl

theorem disk_of_reach (h : Reach (program cfg sha256 hex) ok (start disk hasOfferHandler) c)
    {path : Bytes} (hpath : ∀ e ∈ c.trace, path ∉ e.note.paths) :
    c.shared.globals.disk path = disk path := by
  refine h.invariant
    (I := fun c => (∀ e ∈ c.trace, path ∉ e.note.paths) → c.shared.globals.disk path = disk path)
    (fun _ => rfl) (fun c m c' ih _ hs hpath => ?_) hpath
  obtain ⟨k, a, r, sec, x, rest, -, -, -, -, rfl⟩ | ⟨f, rest, rfl, hdoes⟩ := Code.step_cases hs
  · obtain ⟨hold, hnew⟩ := forall_mem_append.mp hpath
    have hsect : Elsewhere (r + 1) c.shared.globals
        (sect cfg sha256 hex r x c.shared.globals a sec).globals
        (sect cfg sha256 hex r x c.shared.globals a sec).notes :=
      elsewhere_sect (by omega) x c.shared.globals a sec
    refine (hsect.disk path fun n hn => ?_).trans (ih hold)
    exact hnew ⟨some r, n⟩ (mem_map_of_mem hn)
  · obtain ⟨hold, hnew⟩ := forall_mem_append.mp hpath
    obtain ⟨k, a, th, -, -, -, hf⟩ | ⟨x, -, -, hf⟩ := hdoes
    · exact (congrFun (seek_disk hf) path).trans (ih hold)
    · exact (call_disk hf hnew).trans (ih hold)

/-- Closing a file of transfer `r` loses nothing, and no destination of it leads to its temp files. -/
def careful (cfg : Config) (hex : P → Bytes) (r : ℕ) (c : Snapshot P) : Move P → Bool
  | .exec k a =>
    match c.threads[k]?, c.shared.objects[r]? with
    | some (.on r' sec), some x => r' != r || x.careful cfg hex a sec
    | _, _ => true
  | .call _ => true

/-- The temp files of transfer `r` do not exist at first, and nobody else touches them. -/
structure Alone (cfg : Config) (hex : P → Bytes) (disk : Disk) (c : Snapshot P) (r : ℕ)
    (t : Incoming P) : Prop where
  absent : ∀ i < t.files.length, disk (tempPath cfg (hex t.peer) t.id i) = none
  untouched : ∀ e ∈ c.trace, e.ref ≠ some r → ∀ i < t.files.length,
    tempPath cfg (hex t.peer) t.id i ∉ e.note.paths

section

variable (h : Reach (program cfg sha256 hex) ok (start disk hasOfferHandler) c)
  (hv : view c r = some v)

include h hv

theorem writing_new (hnew : v.New) {clean : Prop}
    (halone : clean → Alone cfg hex disk c r v.transfer.t) :
    Writing cfg sha256 clean (tempPath cfg (hex v.transfer.t.peer) v.transfer.t.id) v := by
  have hview := Option.mem_unique hv (view_eq_some (objects_of_view hv))
  have hdisk : v.disk = c.shared.globals.disk := congrArg View.disk hview
  have htrace : v.notes = notesOn r c.trace := congrArg View.notes hview
  obtain ⟨peer, id, isDirectory, name, files, now, htransfer, hnotes⟩ := hnew.transfer
  have hplain : ∀ n ∈ v.notes, n.Plain ∧ n.paths = [] := by
    obtain hnotes | ⟨size, hnotes⟩ := hnotes <;> simp [hnotes, Note.Plain, Note.paths]
  have hwritten := written_of_plain fun n hn => (hplain n hn).1
  have hfile (i : ℕ) (f : IncomingFile) (hf : v.transfer.t.files[i]? = some f) :
      f.finalPath = [] ∧ f.tempPath = [] ∧ f.finalized = false := by
    rw [htransfer] at hf
    simp only [State.newIncoming, getElem?_map] at hf
    obtain ⟨_, -, rfl⟩ := map_eq_some_iff.mp hf
    exact ⟨rfl, rfl, rfl⟩
  have hw : v.transfer.w = .new := by rw [htransfer]
  constructor
  · intro _ i f hf
    obtain ⟨hfinal, htemp, -⟩ := hfile i f hf
    rw [hfinal, htemp]
    exact ⟨fun j _ => (tempPath_ne_nil _ _ _ j).symm, .inl rfl⟩
  · intro i f hf hfin
    rw [(hfile i f hf).2.2] at hfin
    cases hfin
  · rw [hwritten]
    exact Nat.zero_le _
  · intro before n after heq
    have hn : n ∈ v.notes := heq ▸ mem_append_right _ (.head _)
    have := quiet_of_plain (hplain n hn).1
    cases n <;> trivial
  · refine fun _ => .inr ⟨[], ⟨?_, by simp [Writable], hwritten, fun i f hf hfin => ?_⟩, fun hclean => ?_⟩
    · rw [jobs_of_plain fun n hn => (hplain n hn).1, htransfer]
      rfl
    · rw [(hfile i f hf).2.2] at hfin
      cases hfin
    refine .inl ⟨⟨by rw [hw]; rfl, by rw [hw]; rfl, fun i _ hi => ?_⟩, rfl, by rw [hw]; rfl⟩
    -- nobody has touched the temp file, and of the transfer no operation was seen yet
    obtain ⟨habsent, huntouched⟩ := halone hclean
    rw [hdisk, disk_of_reach h fun e he => ?_, habsent i hi]
    by_cases href : e.ref = some r
    · have hn : e.note ∈ v.notes := by
        rw [htrace]
        exact mem_filterMap.mpr ⟨e, he, by simp [Effect.noteOn, href]⟩
      rw [(hplain _ hn).2]
      exact not_mem_nil
    · exact huntouched e he href i hi
  · intro sec hmem
    simp [hnew.sections] at hmem

/-- **What is known of a transfer at every point of a run.** -/
theorem writing_of_reach (clean : Prop)
    (hcareful : clean → ∀ c m, ok c m → careful cfg hex r c m = true)
    (halone : clean → Alone cfg hex disk c r v.transfer.t) :
    Writing cfg sha256 clean (tempPath cfg (hex v.transfer.t.peer) v.transfer.t.id) v := by
  refine view_invariant (I := fun c r' v => r' = r → (clean → Alone cfg hex disk c r v.transfer.t) →
      Writing cfg sha256 clean (tempPath cfg (hex v.transfer.t.peer) v.transfer.t.id) v)
    h ?_ ?_ hv rfl halone
  · rintro c _ v hreach hview hnew rfl halone
    exact writing_new hreach hview hnew halone
  rintro c m c' _ v act v' hreach hok hs hview hlink hstep ih rfl halone
  have hsame := hstep.same
  have hlength : v'.transfer.t.files.length = v.transfer.t.files.length := by
    simpa [Incoming.sizes] using congrArg List.length hsame.sizes
  rw [hsame.peer, hsame.id]
  have hw := ih rfl fun hclean => by
    obtain ⟨habsent, huntouched⟩ := halone hclean
    rw [hsame.peer, hsame.id, hlength] at habsent huntouched
    exact ⟨habsent, fun e he => huntouched e (Code.mem_trace hs he)⟩
  refine hw.step (tempPath_injective _ _ _) (tempPath_ne_nil _ _ _) (turn_of_reach hreach hview)
    (queue_of_reach hreach hview) (fun _ => rfl) hstep (fun hclean => ?_) ?_
  · cases act with
    | own sec a =>
      obtain ⟨k, rfl, hk⟩ := hlink
      simpa [careful, Act.careful, hk, objects_of_view hview] using hcareful hclean _ _ hok
    | _ => rfl
  · rintro secs touched rfl hclean i hi hmem
    obtain ⟨e, he, href, hpath⟩ := hlink.2.2 _ hmem
    have huntouched := (halone hclean).untouched e he href i (hlength ▸ hi)
    rw [hsame.peer, hsame.id] at huntouched
    exact huntouched hpath

end

/-- **Received files are what was sent.** A file at its final place holds the data of the chunks
accepted for it, in order, has the declared size and, if verified, the digest of its `FILE_END`;
success is reported only when all files were moved. -/
theorem received_files (h : Reach (program cfg sha256 hex) (fun c m => careful cfg hex r c m = true)
      (start disk hasOfferHandler) c)
    {x : Transfer P} (hx : c.shared.objects[r]? = some x) (halone : Alone cfg hex disk c r x.t) :
    (∀ before i path content after, notesOn r c.trace = before ++ .moved i path content :: after →
      content = dataOf i (jobs before) ∧ x.t.sizes[i]? = some content.length ∧
        (cfg.verifyIntegrity = true → ∃ job, .queued job ∈ before ∧ job.isFileEnd = true ∧
          job.fidx = i ∧ sha256 content = job.sha)) ∧
    ∀ before error after, notesOn r c.trace = before ++ .finishing true error :: after →
      ∀ i < x.t.files.length, Moved i before := by
  have hw := writing_of_reach h (view_eq_some hx) True (fun _ _ _ hok => hok) fun _ => halone
  refine ⟨fun before i path content after heq => ?_, fun before error after heq i hi => ?_⟩
  · exact hw.justified before _ after heq trivial
  · refine hw.justified before _ after heq rfl i ?_
    rwa [Incoming.sizes, length_map]

/-- The application accepts, and the call comes to its end. -/
def accepting (dest : Bytes) : List (Move ℕ) :=
  .call (.accept 9 1 dest) :: replicate 3 (.exec 0 fine)

/-- The only chunk of a file, and its end. -/
def sending (fidx : ℕ) (data : Bytes) (steps : ℕ) : List (Move ℕ) :=
  handled (chunkMessage 1 fidx 0 data) steps ++
    handled (fileEndMessage 1 fidx (replicate 32 0)) 2

/-- A disk worker takes the transfer. -/
def working (answers : List Answer) : List (Move ℕ) := .call .take :: answers.map (.exec 0)

/-- One file of two bytes, received in full. -/
def twoBytes : List (Move ℕ) :=
  handled (oneFile 2) 2 ++ accepting [100] ++ sending 0 [1, 2] 3 ++ working (replicate 15 fine)

/-- Whatever is done with files is done by the transfer. -/
def undisturbed (c : Snapshot ℕ) : Prop := ∀ e ∈ c.trace, e.ref = some 0 ∨ e.note.paths = []

instance (c : Snapshot ℕ) : Decidable (undisturbed c) :=
  inferInstanceAs (Decidable (∀ e ∈ c.trace, _))

theorem alone_of_undisturbed {cfg : Config} {hex : ℕ → Bytes} {c : Snapshot ℕ} (h : undisturbed c)
    (t : Incoming ℕ) : Alone cfg hex (fun _ => none) c 0 t :=
  ⟨fun _ _ => rfl, fun e he href i _ => by simp [(h e he).resolve_left href]⟩

theorem received_files_twoBytes : ∃ c x before after,
    runFrom (careful .plain (fun _ => [97]) 0) twoBytes = some c ∧ undisturbed c ∧
      c.shared.objects[0]? = some x ∧ notesOn 0 c.trace = before ++ .moved 0 [100] [1, 2] :: after ∧
      [1, 2] = dataOf 0 (jobs before) ∧ x.t.sizes[0]? = some 2 := by
  obtain ⟨c, hc, hsome, hund, hmoved⟩ : ∃ c,
      runFrom (careful .plain (fun _ => [97]) 0) twoBytes = some c ∧
        (c.shared.objects[0]?).isSome = true ∧ undisturbed c ∧
          .moved 0 [100] [1, 2] ∈ notesOn 0 c.trace :=
    Interleaving.Program.exists_run (by decide +kernel)
  obtain ⟨x, hx⟩ := isSome_iff_exists.mp hsome
  obtain ⟨before, after, heq⟩ := append_of_mem hmoved
  have hfiles := received_files (Interleaving.Reach.of_run hc) hx (alone_of_undisturbed hund x.t)
  obtain ⟨hdata, hsize, -⟩ := hfiles.1 before 0 [100] [1, 2] after heq
  exact ⟨c, x, before, after, hc, hund, hx, heq, hdata, hsize⟩

/-- **One thread at a time writes for a transfer**, and none while the transfer waits for one. -/
theorem one_writer (h : Reach (program cfg sha256 hex) ok (start disk hasOfferHandler) c)
    {x : Transfer P} (hx : c.shared.objects[r]? = some x) :
    tally Section.Holds (sectionsOn r c.threads) + c.shared.globals.ready.count r ≤ 1 :=
  (turn_of_reach h (view_eq_some hx)).trans_le (Bool.toNat_le _)

/-- While two bytes are written. -/
theorem one_writer_twoBytes : ∃ c, runFrom (fun _ _ => true) (twoBytes.take 20) = some c ∧
    0 < tally Section.Holds (sectionsOn 0 c.threads) ∧
      tally Section.Holds (sectionsOn 0 c.threads) + c.shared.globals.ready.count 0 ≤ 1 := by
  obtain ⟨c, hc, hsome, hwriter⟩ : ∃ c, runFrom (fun _ _ => true) (twoBytes.take 20) = some c ∧
      (c.shared.objects[0]?).isSome = true ∧ 0 < tally Section.Holds (sectionsOn 0 c.threads) :=
    Program.exists_run (by decide +kernel)
  obtain ⟨x, hx⟩ := isSome_iff_exists.mp hsome
  exact ⟨c, hc, hwriter, one_writer (Reach.of_run hc) hx⟩

/-- Closing the temp file loses everything, and nobody notices. -/
def lossy : List (Move ℕ) :=
  handled (oneFile 2) 2 ++ accepting [100] ++ sending 0 [1, 2] 3 ++
    working (List.replicate 7 fine ++ ⟨true, some [], 0⟩ :: List.replicate 7 fine)

/-- `./a.1.1.part`, the temp path of file 1, is the destination of file 0. -/
def crossed : List (Move ℕ) :=
  handled (offerMessage 1 true 4 [102]
    [⟨[97, 46, 49, 46, 49, 46, 112, 97, 114, 116], 3⟩, ⟨[98], 1⟩]) 2 ++ accepting [46] ++
    sending 0 [1, 2, 3] 3 ++ sending 1 [9] 2 ++ working (replicate 26 fine)

/-- **A file can be moved without the data that was accepted for it, or with what another file has
left at its temp path.** -/
theorem received_wrong : (∃ c, runFrom (fun _ _ => true) lossy = some c ∧ undisturbed c ∧
      dataOf 0 (jobs (notesOn 0 c.trace)) = [1, 2] ∧ .moved 0 [100] [] ∈ notesOn 0 c.trace ∧
      .finishing true "" ∈ notesOn 0 c.trace) ∧
    ∃ c, runFrom (fun _ _ => true) crossed = some c ∧ undisturbed c ∧
      dataOf 1 (jobs (notesOn 0 c.trace)) = [9] ∧ .moved 1 [46, 47, 98] [9, 2, 3] ∈ notesOn 0 c.trace ∧
      .finishing true "" ∈ notesOn 0 c.trace :=
  ⟨Interleaving.Program.exists_run (by decide +kernel),
    Interleaving.Program.exists_run (by decide +kernel)⟩

omit [DecidableEq P] in
theorem offered_notMem_exec (cfg : Config) (sha256 : Bytes → Bytes) (hex : P → Bytes)
    (x : Transfer P) (disk : Disk) (a : Answer) (sec : Section) (o : Offer P) :
    .offered o ∉ (x.exec cfg sha256 hex disk a sec).notes := by
  have hqueues := x.exec_queues cfg sha256 hex disk a sec
  cases sec with
  | chunk | fileEnd =>
    obtain h | ⟨e, h⟩ | ⟨t, -, h⟩ := hqueues _ rfl
    all_goals simp [h, Transfer.refusal]
  | _ =>
    simp only [Transfer.exec, Transfer.accept, Transfer.respond, Transfer.finish,
      Transfer.drainWrites, Transfer.processData, Transfer.openTemp, Transfer.write, Transfer.record,
      Transfer.processFileEnd, Transfer.closeTemp, Transfer.clear, Transfer.create, Transfer.discard,
      Transfer.rename, Transfer.copy, Transfer.placed, Transfer.failed]
    repeat' split
    all_goals simp [Writer.closing]

theorem sizes_of_offered (h : Reach (program cfg sha256 hex) ok (start disk hasOfferHandler) c)
    (hv : view c r = some v) {o : Offer P} (ho : .offered o ∈ v.notes) :
    v.transfer.t.sizes = o.files.map (·.size) := by
  refine view_invariant
    (I := fun _ _ v => .offered o ∈ v.notes → v.transfer.t.sizes = o.files.map (·.size)) h ?_ ?_ hv ho
  · intro c r v _ _ hnew ho
    obtain ⟨peer, id, isDirectory, name, files, now, htransfer, hnotes | ⟨size, hnotes⟩⟩ :=
      hnew.transfer
    · simp [hnotes] at ho
    · rw [hnotes, List.mem_singleton, Note.offered.injEq] at ho
      simp [htransfer, ho, Incoming.sizes, State.newIncoming]
  intro c m c' r v act v' _ _ _ _ _ hs ih ho
  rw [hs.same.sizes]
  refine ih ?_
  cases hs with
  | @own sec a rest _ _ =>
    exact (mem_append.mp ho).resolve_right (offered_notMem_exec cfg sha256 hex _ _ a sec o)
  | withdraw => simpa using ho
  | destroy =>
    refine (mem_append.mp ho).resolve_right ?_
    simp [destroy, Writer.closing]
  | _ => exact ho

/-- **What is written is within the offer**, if the sizes of the files add up to no more than the
size shown. -/
theorem written_within_offer (h : Reach (program cfg sha256 hex) ok (start disk hasOfferHandler) c)
    {x : Transfer P} (hx : c.shared.objects[r]? = some x) {o : Offer P}
    (ho : .offered o ∈ notesOn r c.trace) (hsize : (o.files.map (·.size)).sum ≤ o.size) :
    written (notesOn r c.trace) ≤ o.size := by
  have hw := writing_of_reach h (view_eq_some hx) False False.elim False.elim
  have hsizes : x.t.sizes = o.files.map (·.size) := sizes_of_offered h (view_eq_some hx) ho
  have hbound : written (notesOn r c.trace) ≤ x.t.sizes.sum := hw.bound
  rw [hsizes] at hbound
  exact hbound.trans hsize

theorem written_within_offer_twoBytes : ∃ c x,
    runFrom (fun _ _ => true) twoBytes = some c ∧ c.shared.objects[0]? = some x ∧
      .offered ⟨9, 1, [102], 2, false, [⟨[102], 2⟩]⟩ ∈ notesOn 0 c.trace ∧
      written (notesOn 0 c.trace) ≤ 2 := by
  obtain ⟨c, hc, hsome, hoffered⟩ : ∃ c, runFrom (fun _ _ => true) twoBytes = some c ∧
      (c.shared.objects[0]?).isSome = true ∧
        .offered ⟨9, 1, [102], 2, false, [⟨[102], 2⟩]⟩ ∈ notesOn 0 c.trace :=
    Interleaving.Program.exists_run (by decide +kernel)
  obtain ⟨x, hx⟩ := isSome_iff_exists.mp hsome
  have hle := written_within_offer (Interleaving.Reach.of_run hc) hx hoffered (by decide)
  exact ⟨c, x, hc, hx, hoffered, hle⟩

/-- **An offer of one byte, and five are written.** -/
theorem offer_understated : ∃ c,
    runFrom (fun _ _ => true) (handled (offerMessage 1 false 1 [102] [⟨[102], 5⟩]) 2 ++
      accepting [100] ++ handled (chunkMessage 1 0 0 [1, 2, 3, 4, 5]) 3 ++
        working (replicate 5 fine)) = some c ∧
      .offered ⟨9, 1, [102], 1, false, [⟨[102], 5⟩]⟩ ∈ notesOn 0 c.trace ∧
      written (notesOn 0 c.trace) = 5 :=
  Interleaving.Program.exists_run (by decide +kernel)

end Receiver

end Librats.FileTransfer
