import Librats.BitTorrent.DiskBytes

/-!
# The invariant of the disk workers

What was written last to a block is parked in the store buffer or on the disk, and a reader has got
it or will find it parked (`Consistent`).
-/

namespace Librats.BitTorrent.ThreadedDiskIo

open Interleaving List AList FileStorage List.Perm Option

/-! ## What is noted of a run -/

section

variable {H : Type} {key : ℕ × ℕ} {d : Bytes} {r : Request} {trace effects : List (Effect H)} {w : Write}

section

variable (key : ℕ × ℕ)

/-- The bytes that an entry gives to a block. -/
def Effect.dataFor : Effect H → Option Bytes
  | .wrote w => if w.key = key then some w.data else none
  | _ => none

/-- What was given to a block, in order. -/
def writes (trace : List (Effect H)) : List Bytes := trace.filterMap (Effect.dataFor key)

/-- What was given to a block last. -/
def lastWrite (trace : List (Effect H)) : Option Bytes := (writes key trace).getLast?

theorem writes_append (l l' : List (Effect H)) :
    writes key (l ++ l') = writes key l ++ writes key l' :=
  filterMap_append

end

theorem lastWrite_append (h : writes key effects = []) :
    lastWrite key (trace ++ effects) = lastWrite key trace := by
  rw [lastWrite, writes_append, h, append_nil]
  rfl

theorem lastWrite_wrote (trace : List (Effect H)) (w : Write) :
    lastWrite w.key (trace ++ [.wrote w]) = some w.data := by
  have hlast : writes w.key [(.wrote w : Effect H)] = [w.data] :=
    filterMap_cons_some (if_pos rfl)
  rw [lastWrite, writes_append, hlast, getLast?_concat]

/-- The block was given the bytes last when the request was made, and no others since. -/
def Settled (trace : List (Effect H)) (r : Request) (key : ℕ × ℕ) (d : Bytes) : Prop :=
  ∃ before since, trace = before ++ .asked r :: since ∧ writes key since = [] ∧
    lastWrite key before = some d

theorem Settled.lastWrite (h : Settled trace r key d) : lastWrite key trace = some d := by
  obtain ⟨before, since, rfl, hsince, hbefore⟩ := h
  have hnone : writes key ((.asked r : Effect H) :: since) = [] :=
    (filterMap_cons_none rfl).trans hsince
  rw [lastWrite_append hnone, hbefore]

/-- What is settled after some entries was so before them, and they give the block nothing. -/
theorem Settled.of_append (h : Settled (trace ++ effects) r key d) (hasked : .asked r ∉ effects) :
    Settled trace r key d ∧ writes key effects = [] := by
  obtain ⟨before, since, heq, hsince, hbefore⟩ := h
  obtain ⟨z, rfl, hz⟩ | ⟨z, rfl, hz⟩ := append_eq_append_iff.mp heq
  · exact absurd (hz ▸ mem_append_right _ (.head _)) hasked
  cases z with
  | nil =>
    rw [nil_append] at hz
    exact absurd (hz ▸ (.head _)) hasked
  | cons e z =>
    rw [cons_append] at hz
    obtain ⟨rfl, rfl⟩ := List.cons.inj hz
    rw [writes_append, append_eq_nil_iff] at hsince
    exact ⟨⟨before, z, rfl, hsince.1, hbefore⟩, hsince.2⟩

end

/-! ## Blocks -/

/-- The blocks of a torrent: they lie within their pieces and within the payload and do not overlap.
-/
structure Blocks (fs : FileStorage) (B : ℕ → ℕ → ℕ → Prop) : Prop where
  inPiece : ∀ {p o n}, B p o n → o + n ≤ fs.pieceLength
  inPayload : ∀ {p o n}, B p o n → p * fs.pieceLength + o + n ≤ fs.totalSize
  nonempty : ∀ {p o n}, B p o n → 0 < n
  apart : ∀ {p o n o' n'}, B p o n → B p o' n' → o < o' + n' → o' < o + n → o = o' ∧ n = n'

theorem Blocks.eq_of_mem {fs : FileStorage} {B : ℕ → ℕ → ℕ → Prop} (h : Blocks fs B)
    {p o n p' o' n' j j' : ℕ} (hb : B p o n) (hb' : B p' o' n') (hj : j < n) (hj' : j' < n')
    (heq : p * fs.pieceLength + o + j = p' * fs.pieceLength + o' + j') : p = p' ∧ o = o' := by
  have hin := h.inPiece hb
  have hin' := h.inPiece hb'
  obtain rfl : p = p' := by
    obtain hlt | rfl | hlt := lt_trichotomy p p'
    · have := Nat.mul_le_mul_right fs.pieceLength hlt
      rw [Nat.succ_mul] at this
      omega
    · rfl
    · have := Nat.mul_le_mul_right fs.pieceLength hlt
      rw [Nat.succ_mul] at this
      omega
  exact ⟨rfl, (h.apart hb hb' (by omega) (by omega)).1⟩

/-! ## The invariant -/

section

variable {P H : Type} (fs : FileStorage) (filePath : ℕ → P) (B : ℕ → ℕ → ℕ → Prop)

/-- Where a block begins in the payload. -/
def blockStart (key : ℕ × ℕ) : ℕ := key.1 * fs.pieceLength + key.2

/-- The block is on the disk. -/
def OnDisk (disk : Disk P) (key : ℕ × ℕ) (d : Bytes) : Prop :=
  ∀ j v, d[j]? = some v → Stored fs filePath disk (blockStart fs key + j) v

/-- The write a job is. -/
def Job.writeOf : Job → Option Write
  | .write w => some w
  | .request _ => none

/-- The write whose block has not been removed from the store buffer yet. -/
def Point.writeOf : Point → Option Write
  | .push w _ _ _ => some w
  | .drop w _ => some w
  | _ => none

/-- The request a worker has not answered yet. -/
def Point.requestOf : Point → Option Request
  | .pull r _ _ => some r
  | .answer r _ => some r
  | _ => none

/-- The bytes of a request are those of the blocks that are settled. -/
def Fresh (trace : List (Effect H)) (r : Request) (out : Bytes) : Prop :=
  ∀ o d, Settled trace r (r.piece, o) d → ∀ k j v, k < r.length → r.offset + k = o + j →
    d[j]? = some v → out[k]? = some v

/-- What is so of a worker. -/
def PointOk (disk : Disk P) (store : Store) (trace : List (Effect H)) : Point → Prop
  | .pull r got rest =>
    fs.Covers (r.piece * fs.pieceLength + r.offset + got.length) rest ∧
      got.length + sliceSizes rest =
        min r.length (fs.totalSize - (r.piece * fs.pieceLength + r.offset)) ∧
      -- a byte of a block that is settled was read as it is, or the block is still parked
      ∀ o d, Settled trace r (r.piece, o) d → ∀ k j v, k < got.length → r.offset + k = o + j →
        d[j]? = some v → got[k]? = some v ∨ store.lookup (r.piece, o) = some d
  | .answer r out => ∀ bytes, out = some bytes → bytes.length = r.length ∧ Fresh trace r bytes
  | .push w pos rest _ =>
    fs.Covers (blockStart fs w.key + pos) rest ∧ pos + sliceSizes rest = w.data.length ∧
      ∀ j < pos, ∀ v, w.data[j]? = some v → Stored fs filePath disk (blockStart fs w.key + j) v
  | .drop w _ => OnDisk fs filePath disk w.key w.data
  | .report _ _ => True

/-- The writes whose blocks are to be removed from the store buffer. -/
def pendingWrites (s : State P) (threads : List Point) : List Write :=
  s.entering.toList ++ s.jobs.filterMap Job.writeOf ++ threads.filterMap Point.writeOf

/-- What holds throughout. -/
structure Consistent (s : State P) (threads : List Point) (trace : List (Effect H)) : Prop where
  /-- Only blocks are written. -/
  blocks : ∀ key d, lastWrite key trace = some d → B key.1 key.2 d.length
  /-- What is parked was written last. -/
  parked : ∀ key d, s.store.lookup key = some d → lastWrite key trace = some d
  /-- What was written last is parked, or on the disk. -/
  safe : ∀ key d, lastWrite key trace = some d →
    s.store.lookup key = some d ∨ OnDisk fs filePath s.disk key d
  pending : ∀ w ∈ pendingWrites s threads, s.store.lookup w.key = some w.data
  nodup : ((pendingWrites s threads).map Write.key).Nodup
  tickets : ∀ r, .asked r ∈ trace → r.ticket < s.tickets
  asked : ∀ r, .request r ∈ s.jobs ∨ (∃ th ∈ threads, th.requestOf = some r) → .asked r ∈ trace
  points : ∀ th ∈ threads, PointOk fs filePath s.disk s.store trace th

variable {fs filePath B} {s : State P} {th : Point} {threads rest next : List Point}
  {trace effects : List (Effect H)} {disk disk' : Disk P} {store store' : Store}

/-- Neither a request nor a write is made. -/
def Effect.Quiet : Effect H → Prop
  | .asked _ => False
  | .wrote _ => False
  | _ => True

theorem writes_eq_nil (h : ∀ e ∈ effects, e.Quiet) (key : ℕ × ℕ) : writes key effects = [] := by
  refine filterMap_eq_nil_iff.mpr fun e he => ?_
  cases e with
  | wrote w => exact (h _ he).elim
  | _ => rfl

theorem not_asked (h : ∀ e ∈ effects, e.Quiet) (r : Request) : .asked r ∉ effects := fun he => h _ he

/-- The worker has read bytes of the block, and has not seen the store buffer yet. -/
def Point.HasRead (w : Write) : Point → Prop
  | .pull r got _ => r.piece = w.piece ∧ r.offset < w.offset + w.data.length ∧
    w.offset < r.offset + got.length
  | _ => False

/-- A worker is not affected by others that leave the bytes it has written, and the blocks it has
read in the store buffer. -/
theorem PointOk.mono (h : PointOk fs filePath disk store trace th)
    (hasked : ∀ r, th.requestOf = some r → .asked r ∉ effects)
    (hstored : ∀ w, th.writeOf = some w → ∀ j v, w.data[j]? = some v →
      Stored fs filePath disk (blockStart fs w.key + j) v →
      Stored fs filePath disk' (blockStart fs w.key + j) v)
    (hstore : ∀ r, th.requestOf = some r → ∀ o d, store.lookup (r.piece, o) = some d →
      store'.lookup (r.piece, o) = some d ∨ ¬th.HasRead ⟨r.piece, o, d⟩) :
    PointOk fs filePath disk' store' (trace ++ effects) th := by
  cases th with
  | pull r got rest =>
    obtain ⟨hcovers, hsizes, hgot⟩ := h
    refine ⟨hcovers, hsizes, fun o d hsettled k j v hk hkj hv => ?_⟩
    obtain ⟨hbefore, -⟩ := hsettled.of_append (hasked r rfl)
    obtain hread | hparked := hgot o d hbefore k j v hk hkj hv
    · exact .inl hread
    · refine .inr ((hstore r rfl o d hparked).resolve_right fun hnot => hnot ⟨rfl, ?_, ?_⟩)
      · have hlt : j < d.length := lt_of_getElem? hv
        simp only
        omega
      · simp only
        omega
  | answer r out =>
    refine fun bytes hbytes => ⟨(h bytes hbytes).1, fun o d hsettled => ?_⟩
    exact (h bytes hbytes).2 o d (hsettled.of_append (hasked r rfl)).1
  | push w pos rest ensured =>
    exact ⟨h.1, h.2.1, fun j hj v hv => hstored w rfl j v hv (h.2.2 j hj v hv)⟩
  | drop w ok => exact fun j v hv => hstored w rfl j v hv (h j v hv)
  | report w ok => trivial

variable {w : Write} {r : Request}

theorem Consistent.lastWrite_of_pending (h : Consistent fs filePath B s threads trace)
    (hw : w ∈ pendingWrites s threads) : lastWrite w.key trace = some w.data :=
  h.parked w.key w.data (h.pending w hw)

theorem mem_pendingWrites_of_thread (s : State P) (hth : th ∈ threads) (hw : th.writeOf = some w) :
    w ∈ pendingWrites s threads :=
  mem_append_right _ (mem_filterMap.mpr ⟨th, hth, hw⟩)

theorem Consistent.key_ne (h : Consistent fs filePath B s (th :: rest) trace) {th' : Point}
    {w' : Write} (hth' : th' ∈ rest) (hw : th.writeOf = some w) (hw' : th'.writeOf = some w') :
    w.key ≠ w'.key := by
  have hnodup := h.nodup
  rw [pendingWrites, filterMap_cons_some hw, map_append] at hnodup
  have hcons := (nodup_append.mp hnodup).2.1
  refine fun heq => (nodup_cons.mp hcons).1 ?_
  rw [heq]
  exact mem_map_of_mem (mem_filterMap.mpr ⟨th', hth', hw'⟩)

theorem pendingWrites_perm (s : State P) (rest : List Point) (disk' : Disk P)
    (hwrites : next.filterMap Point.writeOf = [th].filterMap Point.writeOf) :
    (pendingWrites s (th :: rest)).Perm (pendingWrites { s with disk := disk' } (rest ++ next)) := by
  rw [pendingWrites, pendingWrites, filterMap_append, hwrites]
  refine append_left _ ?_
  rw [← singleton_append, filterMap_append]
  exact perm_append_comm

/-- A worker leaves the blocks on the disk alone that it does not write. -/
def LeavesOthers (fs : FileStorage) (filePath : ℕ → P) (B : ℕ → ℕ → ℕ → Prop) (th : Point)
    (disk disk' : Disk P) : Prop :=
  ∀ (key : ℕ × ℕ) (d : Bytes) (j : ℕ) (v : UInt8), B key.1 key.2 d.length →
    (∀ w, th.writeOf = some w → w.key ≠ key) → d[j]? = some v →
    Stored fs filePath disk (blockStart fs key + j) v → Stored fs filePath disk' (blockStart fs key + j) v

theorem leavesOthers_refl (disk : Disk P) : LeavesOthers fs filePath B th disk disk :=
  fun _ _ _ _ _ _ _ hstored => hstored

theorem Consistent.advance (h : Consistent fs filePath B s (th :: rest) trace)
    (hquiet : ∀ e ∈ effects, e.Quiet)
    (hnext : ∀ th' ∈ next, PointOk fs filePath disk' s.store (trace ++ effects) th')
    (hwrites : next.filterMap Point.writeOf = [th].filterMap Point.writeOf)
    (hrequests : ∀ th' ∈ next, ∀ r, th'.requestOf = some r → th.requestOf = some r)
    (hkeep : LeavesOthers fs filePath B th s.disk disk') :
    Consistent fs filePath B { s with disk := disk' } (rest ++ next) (trace ++ effects) := by
  have hlast (key : ℕ × ℕ) : lastWrite key (trace ++ effects) = lastWrite key trace :=
    lastWrite_append (writes_eq_nil hquiet key)
  have hperm := pendingWrites_perm s rest disk' hwrites
  refine ⟨fun key d hd => ?_, fun key d hd => ?_, fun key d hd => ?_, fun w hw => ?_, ?_,
    fun r hr => ?_, fun r hr => ?_, fun th' hth' => ?_⟩
  · exact h.blocks key d (hlast key ▸ hd)
  · rw [hlast key]
    exact h.parked key d hd
  · rw [hlast key] at hd
    by_cases hown : ∃ w, th.writeOf = some w ∧ w.key = key
    · obtain ⟨w, hw, rfl⟩ := hown
      have hpending := mem_pendingWrites_of_thread s (mem_cons_self (l := rest)) hw
      obtain rfl := some.inj ((h.lastWrite_of_pending hpending).symm.trans hd)
      exact .inl (h.pending w hpending)
    · push Not at hown
      exact (h.safe key d hd).imp_right fun hdisk j v hv =>
        hkeep key d j v (h.blocks key d hd) hown hv (hdisk j v hv)
  · exact h.pending w (hperm.mem_iff.mpr hw)
  · exact (hperm.map Write.key).nodup_iff.mp h.nodup
  · exact h.tickets r ((mem_append.mp hr).resolve_right (not_asked hquiet r))
  · refine mem_append_left _ (h.asked r ?_)
    refine hr.imp_right fun ⟨th', hth', hrequest⟩ => ?_
    obtain hth' | hth' := mem_append.mp hth'
    · exact ⟨th', .tail _ hth', hrequest⟩
    · exact ⟨th, (.head _), hrequests th' hth' r hrequest⟩
  · obtain hth' | hth' := mem_append.mp hth'
    · refine (h.points th' (.tail _ hth')).mono (fun r _ => not_asked hquiet r)
        (fun w' hw' j v hv => ?_) fun _ _ _ _ hparked => .inl hparked
      have hpending := mem_pendingWrites_of_thread s (mem_cons_of_mem th hth') hw'
      exact hkeep w'.key w'.data j v (h.blocks _ _ (h.lastWrite_of_pending hpending))
        (fun w hw => h.key_ne hth' hw hw') hv
    · exact hnext th' hth'

theorem consistent_start (disk : Disk P) : Consistent fs filePath B
    (start disk : Snapshot P H).shared [] ([] : List (Effect H)) where
  blocks _ _ h := nomatch h
  parked _ _ h := nomatch h
  safe _ _ h := nomatch h
  pending _ h := absurd h not_mem_nil
  nodup := nodup_nil
  tickets _ h := absurd h not_mem_nil
  asked _ h := by
    obtain h | ⟨_, h, _⟩ := h
    · exact absurd h not_mem_nil
    · exact absurd h not_mem_nil
  points _ h := absurd h not_mem_nil

variable (h : Consistent fs filePath B s threads trace) {threads' : List Point}

include h

theorem Consistent.perm (hperm : threads.Perm threads') :
    Consistent fs filePath B s threads' trace := by
  have hpending : (pendingWrites s threads).Perm (pendingWrites s threads') :=
    append_left _ (hperm.filterMap _)
  refine ⟨h.blocks, h.parked, h.safe, fun w hw => h.pending w (hpending.mem_iff.mpr hw),
    (hpending.map _).nodup_iff.mp h.nodup, h.tickets, fun r hr => h.asked r ?_,
    fun th hth => h.points th (hperm.mem_iff.mpr hth)⟩
  exact hr.imp_right fun ⟨th, hth, hrequest⟩ => ⟨th, hperm.mem_iff.mpr hth, hrequest⟩

/-! ## Readers -/

/-- A parked block that shares a byte with a written block is that block. -/
theorem Consistent.parked_unique (hB : Blocks fs B)
    {piece o pos : ℕ} {d : Bytes} {v u : UInt8} {block : ℕ × Bytes}
    (hlast : lastWrite (piece, o) trace = some d) (hv : Store.Has (o, d) pos v)
    (hblock : block ∈ s.store.ofPiece piece) (hu : Store.Has block pos u) : u = v := by
  obtain ⟨o', d'⟩ := block
  have hparked : lastWrite (piece, o') trace = some d' := h.parked _ _ (Store.mem_ofPiece.mp hblock)
  obtain ⟨j, rfl, hj⟩ := hv
  obtain ⟨j', hpos, hj'⟩ := hu
  simp only at hpos hj hj'
  have hlt := lt_of_getElem? hj
  have hlt' := lt_of_getElem? hj'
  have hb : B piece o d.length := h.blocks _ _ hlast
  have hb' : B piece o' d'.length := h.blocks _ _ hparked
  obtain ⟨rfl, -⟩ := hB.apart hb hb' (by omega) (by omega)
  obtain rfl := mem_unique hparked hlast
  obtain rfl : j' = j := by omega
  exact mem_unique hj' hj

theorem Consistent.lt_totalSize (hB : Blocks fs B)
    {key : ℕ × ℕ} {d : Bytes} {j : ℕ} {v : UInt8} (hlast : lastWrite key trace = some d)
    (hv : d[j]? = some v) : blockStart fs key + j < fs.totalSize := by
  have hin := hB.inPayload (h.blocks key d hlast)
  have hlt := lt_of_getElem? hv
  rw [blockStart]
  omega

/-- **A reader that has read everything** sees the parked blocks in their places. -/
theorem Consistent.fresh_overlay (hB : Blocks fs B)
    {got : Bytes} (hok : PointOk fs filePath s.disk s.store trace (.pull r got [])) :
    PointOk fs filePath s.disk s.store trace (.answer r (some (s.store.overlay r.piece r.offset
      (got ++ List.replicate (r.length - got.length) 0)))) := by
  obtain ⟨-, hsizes, hgot⟩ := hok
  simp only [sliceSizes, map_nil, sum_nil] at hsizes
  rintro bytes hbytes
  cases hbytes
  have hlength : (got ++ List.replicate (r.length - got.length) 0).length = r.length := by
    simp only [length_append, length_replicate]
    omega
  refine ⟨by rw [Store.length_overlay, hlength], fun o d hsettled k j v hk hkj hv => ?_⟩
  have hhas : Store.Has (o, d) (r.offset + k) v := ⟨j, hkj, hv⟩
  refine Store.foldl_copyBlock (by rw [hlength]; exact hk)
    (fun block hblock u hu => h.parked_unique hB hsettled.lastWrite hhas hblock hu) ?_
  have hpayload := h.lt_totalSize hB hsettled.lastWrite hv
  have hread : k < got.length := by
    simp only [blockStart] at hpayload
    omega
  obtain hbyte | hparked := hgot o d hsettled k j v hread hkj hv
  · exact .inl ((getElem?_append_left hread).trans hbyte)
  · exact .inr ⟨(o, d), Store.mem_ofPiece.mpr hparked, hhas⟩

theorem Consistent.pull_slice {got bytes : Bytes} {slice : FileSlice} {rest : List FileSlice}
    (hok : PointOk fs filePath s.disk s.store trace (.pull r got (slice :: rest)))
    (hread : readChunk s.disk (filePath slice.fileIndex) slice.offset slice.size = some bytes) :
    PointOk fs filePath s.disk s.store trace (.pull r (got ++ bytes) rest) := by
  obtain ⟨⟨hpos, hat, hcovers⟩, hsizes, hgot⟩ := hok
  have hlength := length_of_readChunk hread
  refine ⟨?_, ?_, fun o d hsettled k j v hk hkj hv => ?_⟩
  · rwa [length_append, hlength, ← Nat.add_assoc]
  · simp only [sliceSizes, map_cons, sum_cons] at hsizes ⊢
    rw [length_append]
    omega
  by_cases hold : k < got.length
  · rw [getElem?_append_left hold]
    exact hgot o d hsettled k j v hold hkj hv
  rw [length_append] at hk
  obtain ⟨i, rfl⟩ : ∃ i, k = got.length + i := ⟨k - got.length, by omega⟩
  refine (h.safe _ _ hsettled.lastWrite).symm.imp_left fun hdisk => ?_
  have hplace : blockStart fs (r.piece, o) + j =
      r.piece * fs.pieceLength + r.offset + got.length + i := by
    simp only [blockStart]
    omega
  have hstored := hdisk j v hv
  rw [hplace] at hstored
  have hi : i < slice.size := by omega
  rw [getElem?_append_right (by omega), Nat.add_sub_cancel_left]
  exact hstored.readChunk (hat i hi) hi hread

/-! ## Writers -/

theorem Consistent.congr_ensured (ensured : Finset ℕ) :
    Consistent fs filePath B { s with ensured } threads trace :=
  ⟨h.blocks, h.parked, h.safe, h.pending, h.nodup, h.tickets, h.asked, h.points⟩

omit h

/-- A block on the disk is removed from the store buffer when no reader needs it there. -/
theorem Consistent.drop {ok : Bool} (h : Consistent fs filePath B s (.drop w ok :: rest) trace)
    (hneeded : ∀ th ∈ rest, ¬th.HasRead w) :
    Consistent fs filePath B { s with store := s.store.erase w.key } (rest ++ [.report w ok]) trace := by
  have hpending : w ∈ pendingWrites s (.drop w ok :: rest) :=
    mem_pendingWrites_of_thread s (.head _) rfl
  have hperm : (pendingWrites s (.drop w ok :: rest)).Perm
      (w :: pendingWrites s (rest ++ [.report w ok])) := by
    simp only [pendingWrites, filterMap_append, filterMap_cons, Point.writeOf,
      filterMap_nil, append_nil]
    exact perm_middle
  have hkeys := nodup_cons.mp ((hperm.map Write.key).nodup_iff.mp h.nodup)
  refine ⟨h.blocks, fun key d hd => ?_, fun key d hd => ?_, fun w' hw' => ?_, hkeys.2, h.tickets,
    fun r hr => ?_, fun th hth => ?_⟩
  · by_cases hkey : key = w.key
    · rw [hkey, lookup_erase] at hd
      cases hd
    · exact h.parked key d (lookup_erase_ne hkey ▸ hd)
  · by_cases hkey : key = w.key
    · subst hkey
      obtain rfl := some.inj ((h.lastWrite_of_pending hpending).symm.trans hd)
      exact .inr (h.points _ (.head _))
    · simp only [lookup_erase_ne hkey]
      exact h.safe key d hd
  · have hne : w'.key ≠ w.key := fun heq => hkeys.1 (heq ▸ mem_map_of_mem hw')
    simp only [lookup_erase_ne hne]
    exact h.pending w' (hperm.mem_iff.mpr (.tail _ hw'))
  · refine h.asked r (hr.imp_right fun ⟨th, hth, hrequest⟩ => ?_)
    obtain hth | hth := mem_append.mp hth
    · exact ⟨th, .tail _ hth, hrequest⟩
    · obtain rfl := mem_singleton.mp hth
      cases hrequest
  obtain hth | hth := mem_append.mp hth
  · have hstill : PointOk fs filePath s.disk (s.store.erase w.key) (trace ++ []) th := by
      refine (h.points th (.tail _ hth)).mono (fun r _ => not_mem_nil)
        (fun _ _ _ _ _ hstored => hstored) fun r _ o d hparked => ?_
      by_cases hkey : (r.piece, o) = w.key
      · -- it is this block, which the reader has not read
        rw [hkey, h.pending w hpending] at hparked
        cases hparked
        obtain ⟨hpiece, hoffset⟩ := Prod.mk.inj hkey
        rw [hpiece, hoffset]
        exact .inr (hneeded th hth)
      · exact .inl ((lookup_erase_ne hkey).trans hparked)
    rwa [append_nil] at hstill
  · obtain rfl := mem_singleton.mp hth
    trivial

section

variable [DecidableEq P] {w : Write} {pos : ℕ} {slice : FileSlice} {slices : List FileSlice}
  {ensured : Bool}

theorem push_slice (hpaths : DistinctPaths fs filePath)
    (hok : PointOk fs filePath disk store trace (.push w pos (slice :: slices) ensured)) :
    PointOk fs filePath (writeChunk disk (filePath slice.fileIndex) slice.offset
      ((w.data.drop pos).take slice.size)) store trace (.push w (pos + slice.size) slices false) := by
  obtain ⟨⟨hpos, hat, hcovers⟩, hsizes, hstored⟩ := hok
  refine ⟨?_, ?_, fun j hj v hv => ?_⟩
  · rwa [← Nat.add_assoc]
  · simp only [sliceSizes, map_cons, sum_cons] at hsizes ⊢
    omega
  · by_cases hold : j < pos
    · exact (hstored j hold v hv).writeChunk hpaths (length_take_le ..) hpos hat (.inl (by omega))
    · obtain ⟨i, rfl⟩ : ∃ i, j = pos + i := ⟨j - pos, by omega⟩
      have hi : i < slice.size := by omega
      rw [← Nat.add_assoc]
      refine stored_writeChunk (hat i hi) ?_
      rw [getElem?_take_of_lt hi, getElem?_drop, hv]

theorem leavesOthers_push (hpaths : DistinctPaths fs filePath) (hB : Blocks fs B)
    (hb : B w.piece w.offset w.data.length)
    (hok : PointOk fs filePath disk store trace (.push w pos (slice :: slices) ensured)) :
    LeavesOthers fs filePath B (.push w pos (slice :: slices) ensured) disk
      (writeChunk disk (filePath slice.fileIndex) slice.offset
        ((w.data.drop pos).take slice.size)) := by
  obtain ⟨⟨hpos, hat, -⟩, hsizes, -⟩ := hok
  simp only [sliceSizes, map_cons, sum_cons] at hsizes
  intro key d j v hkey hne hv hstored
  refine hstored.writeChunk hpaths (length_take_le ..) hpos hat ?_
  by_contra hinside
  have hlt := lt_of_getElem? hv
  obtain ⟨i, hi, heq⟩ : ∃ i < slice.size,
      blockStart fs key + j = blockStart fs w.key + (pos + i) :=
    ⟨blockStart fs key + j - (blockStart fs w.key + pos), by omega, by omega⟩
  obtain ⟨hpiece, hoffset⟩ := hB.eq_of_mem hkey hb hlt (by omega : pos + i < w.data.length) heq
  exact hne w rfl (Prod.ext hpiece.symm hoffset.symm)

theorem ensureFile_eq (s : State P) (i : ℕ) : ensureFile fs filePath s i = { s with
      disk := (ensureFile fs filePath s i).disk, ensured := (ensureFile fs filePath s i).ensured } := by
  unfold ensureFile
  split_ifs
  · rfl
  · split <;> rfl

/-- What a worker's step needs: the files can be written, and no block leaves the store buffer that
a reader needs there. -/
def Point.Careful (th : Point) (threads : List Point) (ok : Bool) : Prop :=
  match th with
  | .push _ _ _ _ => ok = true
  | .drop w _ => ∀ th' ∈ threads, ¬th'.HasRead w
  | _ => True

theorem Consistent.ran (hpaths : DistinctPaths fs filePath) (hB : Blocks fs B) (sha1 : Bytes → H)
    (h : Consistent fs filePath B s (th :: rest) trace) {ok : Bool}
    (hcareful : th.Careful rest ok) :
    Consistent fs filePath B (exec fs filePath sha1 s th ok).shared
      (rest ++ (exec fs filePath sha1 s th ok).next)
      (trace ++ (exec fs filePath sha1 s th ok).effects) := by
  have hok := h.points th (.head _)
  have hnone : ∀ e ∈ ([] : List (Effect H)), e.Quiet := (by simp)
  -- the worker goes on at one point
  have hone {th' : Point} {disk' : Disk P} (hth' : PointOk fs filePath disk' s.store trace th')
      (hwrite : th'.writeOf = th.writeOf) (hrequest : ∀ r, th'.requestOf = some r → th.requestOf = some r)
      (hkeep : LeavesOthers fs filePath B th s.disk disk') :
      Consistent fs filePath B { s with disk := disk' } (rest ++ [th']) (trace ++ []) := by
    refine h.advance hnone (forall_mem_singleton.mpr ?_) ?_
      (forall_mem_singleton.mpr hrequest) hkeep
    · rwa [append_nil]
    · simp [filterMap_cons, hwrite]
  cases th with
  | pull r got slices =>
    cases slices with
    | nil => exact hone (h.fresh_overlay hB hok) rfl (fun _ hr => hr) (leavesOthers_refl _)
    | cons slice slices =>
      simp only [exec]
      split
      · exact hone (by rintro _ ⟨⟩) rfl (fun _ hr => hr) (leavesOthers_refl _)
      · next bytes hread =>
        obtain ⟨-, hread⟩ := ite_none_right_eq_some.mp hread
        exact hone (h.pull_slice hok hread) rfl (fun _ hr => hr) (leavesOthers_refl _)
  | answer r out =>
    refine h.advance (forall_mem_singleton.mpr ?_) (by rintro _ ⟨⟩) rfl
      (by rintro _ ⟨⟩) (leavesOthers_refl _)
    simp only [answerOf]
    split_ifs <;> trivial
  | push w pos slices ensured =>
    obtain rfl : ok = true := hcareful
    have hb := h.blocks w.key w.data
      (h.lastWrite_of_pending (mem_pendingWrites_of_thread s (mem_cons_self) rfl))
    cases slices with
    | nil =>
      refine hone (fun j v hv => hok.2.2 j ?_ v hv) rfl (by rintro _ ⟨⟩) (leavesOthers_refl _)
      have hlt := lt_of_getElem? hv
      have hsizes := hok.2.1
      simp only [sliceSizes, map_nil, sum_nil] at hsizes
      omega
    | cons slice slices =>
      cases ensured with
      | false =>
        have hpoint : PointOk fs filePath (ensureFile fs filePath s slice.fileIndex).disk s.store
            trace (.push w pos (slice :: slices) true) :=
          ⟨hok.1, hok.2.1, fun j hj v hv => (hok.2.2 j hj v hv).ensureFile slice.fileIndex⟩
        have hensured := hone hpoint rfl (by rintro _ ⟨⟩) fun _ _ _ _ _ _ _ hstored =>
          hstored.ensureFile slice.fileIndex
        simp only [exec]
        rw [ensureFile_eq]
        exact hensured.congr_ensured _
      | true =>
        exact hone (push_slice hpaths hok) rfl (by rintro _ ⟨⟩) (leavesOthers_push hpaths hB hb hok)
  | drop w written =>
    have hdropped := h.drop hcareful
    simp only [exec, append_nil]
    exact hdropped
  | report w written =>
    exact h.advance (forall_mem_singleton.mpr trivial) (by rintro _ ⟨⟩) rfl
      (by rintro _ ⟨⟩) (leavesOthers_refl _)

end

/-! ## Calls -/

variable (h : Consistent fs filePath B s threads trace)

include h

theorem Consistent.requeue {s' : State P} (hdisk : s'.disk = s.disk)
    (hstore : s'.store = s.store) (htickets : s.tickets ≤ s'.tickets)
    (hpending : (pendingWrites s' threads').Subperm (pendingWrites s threads))
    (hwrites : ∀ key, writes key effects = [])
    (hnew : ∀ r, .asked r ∈ effects → s.tickets ≤ r.ticket ∧ r.ticket < s'.tickets)
    (hasked : ∀ r, .request r ∈ s'.jobs ∨ (∃ th ∈ threads', th.requestOf = some r) →
      .asked r ∈ trace ++ effects)
    (hpoints : ∀ th ∈ threads', th ∈ threads ∨ PointOk fs filePath s.disk s.store (trace ++ effects) th) :
    Consistent fs filePath B s' threads' (trace ++ effects) := by
  have hlast (key : ℕ × ℕ) : lastWrite key (trace ++ effects) = lastWrite key trace :=
    lastWrite_append (hwrites key)
  refine ⟨fun key d => ?_, fun key d => ?_, fun key d => ?_, fun w hw => ?_, ?_, fun r hr => ?_,
    hasked, fun th hth => ?_⟩
  · rw [hlast]
    exact h.blocks key d
  · rw [hlast, hstore]
    exact h.parked key d
  · rw [hlast, hstore, hdisk]
    exact h.safe key d
  · rw [hstore]
    exact h.pending w (hpending.subset hw)
  · obtain ⟨l, hperm, hsub⟩ := hpending
    exact (hperm.map Write.key).nodup_iff.mp (h.nodup.sublist (hsub.map Write.key))
  · obtain hr | hr := mem_append.mp hr
    · exact (h.tickets r hr).trans_le htickets
    · exact (hnew r hr).2
  rw [hstore, hdisk]
  obtain hth | hth := hpoints th hth
  · refine (h.points th hth).mono (fun r hr hmem => ?_) (fun _ _ _ _ _ hstored => hstored)
      fun _ _ _ _ hparked => .inl hparked
    have hold := h.tickets r (h.asked r (.inr ⟨th, hth, hr⟩))
    have hlater := (hnew r hmem).1
    omega
  · exact hth

theorem Consistent.ask (hr : r.ticket = s.tickets) :
    Consistent fs filePath B (enqueue { s with tickets := s.tickets + 1 } (.request r)) threads
      (trace ++ [.asked r]) := by
  have hnew : ∀ r', (.asked r' : Effect H) ∈ [.asked r] → s.tickets ≤ r'.ticket ∧
      r'.ticket < s.tickets + 1 := by
    intro r' hr'
    obtain rfl := Effect.asked.inj (mem_singleton.mp hr')
    omega
  have hold (r' : Request) (hr' : .request r' ∈ s.jobs ∨ ∃ th ∈ threads, th.requestOf = some r') :
      .asked r' ∈ trace ++ [.asked r] := mem_append_left _ (h.asked r' hr')
  unfold enqueue
  split_ifs
  · exact h.requeue rfl rfl (Nat.le_succ _) (List.Subperm.refl _) (fun _ => rfl) hnew hold
      fun th hth => .inl hth
  refine h.requeue rfl rfl (Nat.le_succ _) (subperm (.of_eq ?_)) (fun _ => rfl) hnew
    (fun r' hr' => ?_) fun th hth => .inl hth
  · simp [pendingWrites, filterMap_cons, Job.writeOf]
  · obtain hr' | hr' := hr'
    · obtain hjob | hjob := mem_append.mp hr'
      · exact hold r' (.inl hjob)
      · rw [Job.request.inj (mem_singleton.mp hjob)]
        exact mem_append_right _ (mem_singleton_self _)
    · exact hold r' (.inr hr')

theorem Consistent.enqueue (hw : s.entering = some w) :
    Consistent fs filePath B (enqueue { s with entering := none } (.write w)) threads (trace ++ []) := by
  have hnew : ∀ r, (.asked r : Effect H) ∈ [] → s.tickets ≤ r.ticket ∧ r.ticket < s.tickets :=
    nofun
  unfold ThreadedDiskIo.enqueue
  split_ifs
  · refine h.requeue rfl rfl le_rfl (List.Sublist.subperm ?_) (fun _ => rfl) hnew
      (fun r hr => mem_append_left _ (h.asked r hr)) fun th hth => .inl hth
    exact (sublist_append_right ..).append_right _
  refine h.requeue rfl rfl le_rfl (subperm ?_) (fun _ => rfl) hnew
    (fun r hr => mem_append_left _ (h.asked r ?_)) fun th hth => .inl hth
  · simp only [pendingWrites, hw, filterMap_append, filterMap_cons, Job.writeOf,
      filterMap_nil, toList_none, toList_some, nil_append]
    exact append_right _ perm_append_comm
  · refine hr.imp_left fun hjob => ?_
    obtain hjob | hjob := mem_append.mp hjob
    · exact hjob
    · exact nomatch mem_singleton.mp hjob

omit h in
theorem Consistent.firstPoint_ok (hB : Blocks fs B) (h : Consistent fs filePath B s threads trace)
    {job : Job} (hjob : job ∈ s.jobs) :
    PointOk fs filePath s.disk s.store trace (firstPoint fs job) := by
  cases job with
  | request r =>
    obtain ⟨hcovers, hsizes⟩ := fs.covers_mapBlock r.piece r.offset r.length
    exact ⟨hcovers, (Nat.zero_add _).trans hsizes, fun o d _ k j v hk => absurd hk (Nat.not_lt_zero k)⟩
  | write w =>
    have hpending : w ∈ pendingWrites s threads :=
      mem_append_left _ (mem_append_right _ (mem_filterMap.mpr ⟨_, hjob, rfl⟩))
    have hin := hB.inPayload (h.blocks _ _ (h.lastWrite_of_pending hpending))
    obtain ⟨hcovers, hsizes⟩ := fs.covers_mapBlock w.piece w.offset w.data.length
    refine ⟨hcovers, ?_, fun j hj => absurd hj (Nat.not_lt_zero j)⟩
    simp only [Write.key] at hin
    rw [Nat.zero_add, hsizes]
    omega

omit h in
theorem Consistent.pop (hB : Blocks fs B) {job : Job} {jobs : List Job}
    (h : Consistent fs filePath B s threads trace) (hjobs : s.jobs = job :: jobs) :
    Consistent fs filePath B { s with jobs } (threads ++ [firstPoint fs job]) (trace ++ []) := by
  have hmem : job ∈ s.jobs := hjobs ▸ (.head _)
  have hnew : ∀ r, (.asked r : Effect H) ∈ [] → s.tickets ≤ r.ticket ∧ r.ticket < s.tickets :=
    nofun
  refine h.requeue rfl rfl le_rfl (subperm ?_) (fun _ => rfl) hnew
    (fun r hr => mem_append_left _ (h.asked r ?_)) fun th hth => ?_
  · have hwrite : [firstPoint fs job].filterMap Point.writeOf = [job].filterMap Job.writeOf := by
      cases job <;> rfl
    have hjob : (job :: jobs).filterMap Job.writeOf =
        [job].filterMap Job.writeOf ++ jobs.filterMap Job.writeOf := filterMap_append (l := [job])
    simp only [pendingWrites, hjobs, hjob, hwrite, filterMap_append, append_assoc]
    refine append_left _ ?_
    rw [← append_assoc]
    exact perm_append_comm
  · obtain hr | ⟨th, hth, hr⟩ := hr
    · exact .inl (hjobs ▸ .tail _ hr)
    obtain hth | hth := mem_append.mp hth
    · exact .inr ⟨th, hth, hr⟩
    · obtain rfl := mem_singleton.mp hth
      cases job with
      | request r' =>
        cases hr
        exact .inl hmem
      | write w => cases hr
  · rw [append_nil]
    obtain hth | hth := mem_append.mp hth
    · exact .inl hth
    · rw [mem_singleton.mp hth]
      exact .inr (h.firstPoint_ok hB hmem)

theorem Consistent.write (hidle : s.entering = none) (hb : B w.piece w.offset w.data.length)
    (hnew : s.store.lookup w.key = none) :
    Consistent fs filePath B { s with store := s.store.insert w.key w.data, entering := some w }
      threads (trace ++ [.wrote w]) := by
  have hlast {key : ℕ × ℕ} (hkey : key ≠ w.key) :
      lastWrite key (trace ++ [.wrote w]) = lastWrite key trace :=
    lastWrite_append (filterMap_cons_none (if_neg hkey.symm))
  have hother {w' : Write} (hw' : w' ∈ pendingWrites s threads) : w'.key ≠ w.key := by
    intro heq
    have hparked := h.pending w' hw'
    rw [heq, hnew] at hparked
    cases hparked
  have hpending : pendingWrites { s with store := s.store.insert w.key w.data, entering := some w }
      threads = w :: pendingWrites s threads := by
    simp only [pendingWrites, hidle]
    rfl
  refine ⟨fun key d hd => ?_, fun key d hd => ?_, fun key d hd => ?_, fun w' hw' => ?_, ?_,
    fun r hr => ?_, fun r hr => mem_append_left _ (h.asked r hr), fun th hth => ?_⟩
  · by_cases hkey : key = w.key
    · rw [hkey, lastWrite_wrote] at hd
      rwa [hkey, ← some.inj hd]
    · exact h.blocks key d (hlast hkey ▸ hd)
  · by_cases hkey : key = w.key
    · rw [hkey, lookup_insert] at hd
      rw [hkey, lastWrite_wrote, hd]
    · rw [hlast hkey]
      exact h.parked key d (lookup_insert_ne hkey ▸ hd)
  · by_cases hkey : key = w.key
    · rw [hkey, lastWrite_wrote] at hd
      rw [hkey, ← hd]
      exact .inl (lookup_insert _)
    · rw [hlast hkey] at hd
      simp only [lookup_insert_ne hkey]
      exact h.safe key d hd
  · rw [hpending] at hw'
    obtain rfl | hw' := mem_cons.mp hw'
    · exact lookup_insert _
    · simp only [lookup_insert_ne (hother hw')]
      exact h.pending w' hw'
  · rw [hpending, map_cons, nodup_cons]
    refine ⟨fun hmem => ?_, h.nodup⟩
    obtain ⟨w', hw', heq⟩ := mem_map.mp hmem
    exact hother hw' heq
  · obtain hr | hr := mem_append.mp hr
    · exact h.tickets r hr
    · exact nomatch mem_singleton.mp hr
  · refine (h.points th hth).mono (fun r _ hmem => nomatch mem_singleton.mp hmem)
      (fun _ _ _ _ _ hstored => hstored) fun r _ o d hparked => ?_
    have hkey : (r.piece, o) ≠ w.key := by
      rintro heq
      rw [heq, hnew] at hparked
      cases hparked
    exact .inl ((lookup_insert_ne hkey).trans hparked)

end

end Librats.BitTorrent.ThreadedDiskIo
