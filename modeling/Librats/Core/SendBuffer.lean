import Librats.Core.Types

/-!
# The send queue

`ChainedSendBuffer` (`core/chained_send_buffer.cpp`), twice: as the list of its live chunks, and
with the slots of `chunks_` and `head_` as they are laid out (`SlotBuffer`), where drained slots
stay until they are swept. Every call does the same to both (`calls_lay`). What the queue stands for
is the byte string that still has to go out (`contents`). Of `recycled_`, which is empty, only the
capacity is there, and of the array of `chunks_` no capacity.
-/

namespace Librats

open List

/-- The capacity an empty `std::vector` gets that is made to hold `n` bytes; the standard only
promises that they fit. -/
structure Allocator where
  capacity : ℕ → ℕ
  le_capacity : ∀ n, n ≤ capacity n

/-- Vectors that hold exactly what they are asked to hold. -/
def Allocator.exact : Allocator := ⟨id, fun _ => le_rfl⟩

/-- `Bytes` as an object: a vector with its allocation. -/
structure ByteVector where
  bytes : Bytes
  capacity : ℕ
  fits : bytes.length ≤ capacity
  deriving DecidableEq

/-- An empty vector that was made to hold some bytes. -/
def ByteVector.of (A : Allocator) (bytes : Bytes) : ByteVector :=
  ⟨bytes, A.capacity bytes.length, A.le_capacity _⟩

/-- `ChainedSendBuffer::Chunk`, with something left to send in the chain. -/
structure Chunk where
  data : ByteVector
  sent : ℕ
  live : sent < data.bytes.length
  deriving DecidableEq

namespace Chunk

variable (c : Chunk)

def remaining : ℕ := c.data.bytes.length - c.sent

/-- The bytes from `Chunk::head` on. -/
def rest : Bytes := c.data.bytes.drop c.sent

@[simp] theorem length_rest : c.rest.length = c.remaining := length_drop ..

theorem remaining_pos : 0 < c.remaining := Nat.sub_pos_of_lt c.live

/-- Bytes inserted at the end, within the capacity. -/
def pack (bytes : Bytes) (h : bytes.length ≤ c.data.capacity - c.data.bytes.length) : Chunk where
  data := ⟨c.data.bytes ++ bytes, c.data.capacity, by
    have := c.data.fits
    rw [length_append]
    omega⟩
  sent := c.sent
  live := by
    have := c.live
    simp only [length_append]
    omega

section

variable {bytes : Bytes} (h : bytes.length ≤ c.data.capacity - c.data.bytes.length)

include h

theorem rest_pack : (c.pack bytes h).rest = c.rest ++ bytes :=
  drop_append_of_le_length c.live.le

theorem remaining_pack : (c.pack bytes h).remaining = c.remaining + bytes.length := by
  rw [← length_rest, rest_pack, length_append, length_rest]

end

/-- The cursor moved by a partial send. -/
def advance (n : ℕ) (h : n < c.remaining) : Chunk where
  data := c.data
  sent := c.sent + n
  live := by
    unfold remaining at h
    omega

theorem rest_advance {n : ℕ} (h : n < c.remaining) : (c.advance n h).rest = c.rest.drop n := by
  rw [rest, rest, drop_drop]
  rfl

theorem remaining_advance {n : ℕ} (h : n < c.remaining) :
    (c.advance n h).remaining = c.remaining - n := by
  rw [← length_rest, rest_advance, length_drop, length_rest]

end Chunk

/-- `ChainedSendBuffer`, with what its counters count. -/
structure ChainedSendBuffer where
  chunks : List Chunk
  pending : ℕ
  allocatedChunks : ℕ
  recycled : ℕ
  pending_eq : pending = (chunks.map Chunk.remaining).sum
  allocated_eq : allocatedChunks = (chunks.map (·.data.capacity)).sum
  deriving DecidableEq

namespace ChainedSendBuffer

def kScratchCapacity : ℕ := 1024

def kMaxRecycledCapacity : ℕ := 4 * 1024

def kMaxGatherBytes : ℕ := 1024 * 1024

/-- A queue that was never used. -/
def new : ChainedSendBuffer := ⟨[], 0, 0, 0, rfl, rfl⟩

variable (b : ChainedSendBuffer)

def empty : Bool := b.pending = 0

def allocated : ℕ := b.allocatedChunks + b.recycled

/-- The bytes that still have to go out. -/
def contents : Bytes := b.chunks.flatMap Chunk.rest

theorem length_contents : b.contents.length = b.pending := by
  rw [b.pending_eq, contents]
  simp

theorem empty_iff : b.empty = true ↔ b.contents = [] := by
  rw [empty, decide_eq_true_iff, ← b.length_contents, length_eq_zero_iff]

variable {b : ChainedSendBuffer} {bytes : Bytes}

theorem chunks_eq_nil (h : b.empty = true) : b.chunks = [] := by
  rw [empty, decide_eq_true_iff, b.pending_eq] at h
  rcases hc : b.chunks with _ | ⟨c, cs⟩
  · rfl
  · have := c.remaining_pos
    rw [hc, map_cons, sum_cons] at h
    omega

/-! ## Queueing -/

/-- `ChainedSendBuffer::append(Bytes)`: the vector becomes a chunk of its own. -/
def appendOwned (b : ChainedSendBuffer) (data : ByteVector) : ChainedSendBuffer :=
  if h : data.bytes = [] then b
  else
    { b with
      chunks := b.chunks ++ [⟨data, 0, length_pos_iff.mpr h⟩]
      pending := b.pending + data.bytes.length
      allocatedChunks := b.allocatedChunks + data.capacity
      pending_eq := by simp [b.pending_eq, Chunk.remaining]
      allocated_eq := by simp [b.allocated_eq] }

theorem contents_appendOwned (b : ChainedSendBuffer) (data : ByteVector) :
    (b.appendOwned data).contents = b.contents ++ data.bytes := by
  unfold appendOwned
  split_ifs with h
  · rw [h, append_nil]
  · simp [contents, Chunk.rest]

theorem allocated_appendOwned (b : ChainedSendBuffer) {data : ByteVector} (h : data.bytes ≠ []) :
    (b.appendOwned data).allocated = b.allocated + data.capacity := by
  rw [appendOwned, dif_neg h]
  exact Nat.add_right_comm ..

/-- `coalescable_tail` with the insertion: some bytes packed into the spare capacity of the last
chunk. -/
def packTail (bytes : Bytes) (cs : List Chunk) : Option (List Chunk) :=
  match cs.getLast? with
  | some c =>
    if h : bytes.length ≤ c.data.capacity - c.data.bytes.length then
      some (cs.dropLast ++ [c.pack bytes h])
    else none
  | none => none

theorem packTail_spec {cs cs' : List Chunk} (h : packTail bytes cs = some cs') :
    cs'.flatMap Chunk.rest = cs.flatMap Chunk.rest ++ bytes ∧
      (cs'.map Chunk.remaining).sum = (cs.map Chunk.remaining).sum + bytes.length ∧
      (cs'.map (·.data.capacity)).sum = (cs.map (·.data.capacity)).sum := by
  rcases eq_nil_or_concat cs with rfl | ⟨cs, c, rfl⟩
  · cases h
  · rw [concat_eq_append, packTail, getLast?_concat, dropLast_concat] at h
    dsimp only at h
    split_ifs at h with hfits
    cases h
    have hcap : (c.pack bytes hfits).data.capacity = c.data.capacity := rfl
    simp [c.rest_pack hfits, c.remaining_pack hfits, hcap, Nat.add_assoc]

variable (A : Allocator)

section

variable (bytes : Bytes)

/-- `ChainedSendBuffer::take_chunk`, filled: the recycled chunk if it is large enough, otherwise a
new one with room for what follows. -/
def takeChunk (recycled : ℕ) : ByteVector × ℕ :=
  if h : bytes.length ≤ recycled then (⟨bytes, recycled, h⟩, 0)
  else
    (⟨bytes, A.capacity (max bytes.length kScratchCapacity),
      (le_max_left ..).trans (A.le_capacity _)⟩, recycled)

variable (b : ChainedSendBuffer)

/-- `ChainedSendBuffer::append(ByteView)`: small copies share a chunk. -/
def append : ChainedSendBuffer :=
  if bytes = [] then b
  else
    match h : packTail bytes b.chunks with
    | some chunks =>
      { b with
        chunks := chunks
        pending := b.pending + bytes.length
        pending_eq := by rw [(packTail_spec h).2.1, b.pending_eq]
        allocated_eq := by rw [(packTail_spec h).2.2, b.allocated_eq] }
    | none =>
      let (data, recycled) := takeChunk A bytes b.recycled
      { b with recycled := recycled }.appendOwned data

theorem contents_append : (b.append A bytes).contents = b.contents ++ bytes := by
  unfold append
  split_ifs with hnil
  · rw [hnil, append_nil]
  · split
    · rename_i chunks h
      exact (packTail_spec h).1
    · rw [contents_appendOwned]
      unfold takeChunk
      split_ifs <;> rfl

end

theorem allocated_append_of_packed {chunks : List Chunk}
    (h : packTail bytes b.chunks = some chunks) :
    (b.append A bytes).allocated = b.allocated ∧ (b.append A bytes).recycled = b.recycled := by
  unfold append
  split_ifs
  · exact ⟨rfl, rfl⟩
  · split
    · exact ⟨rfl, rfl⟩
    · rename_i hnone
      cases h.symm.trans hnone

/-- Bytes that are not packed go into the recycled chunk if they fit, else into a new one. -/
theorem append_of_not_packed (hbytes : bytes ≠ []) (h : packTail bytes b.chunks = none) :
    b.append A bytes = { b with recycled := (takeChunk A bytes b.recycled).2 }.appendOwned
      (takeChunk A bytes b.recycled).1 := by
  rw [append, if_neg hbytes]
  split
  · rename_i hsome
    cases h.symm.trans hsome
  · rfl

theorem bytes_takeChunk (bytes : Bytes) (recycled : ℕ) :
    (takeChunk A bytes recycled).1.bytes = bytes := by
  unfold takeChunk
  split_ifs <;> rfl

theorem allocated_append_of_not_packed (hbytes : bytes ≠ []) (h : packTail bytes b.chunks = none) :
    (b.append A bytes).allocated = if bytes.length ≤ b.recycled then b.allocated
      else b.allocated + A.capacity (max bytes.length kScratchCapacity) := by
  rw [append_of_not_packed A hbytes h, allocated_appendOwned _ (by rwa [bytes_takeChunk])]
  unfold takeChunk
  split_ifs
  · simp [allocated]
  · rfl

/-! ## Draining -/

/-- `ChainedSendBuffer::recycle`: the capacity kept of a drained chunk. -/
def recycle (recycled capacity : ℕ) : ℕ :=
  if kMaxRecycledCapacity < capacity then recycled
  else if capacity ≤ recycled then recycled
  else capacity

/-- The loop of `pop_front`: `n` bytes from at most `fuel` chunks. -/
def popChunks : (fuel : ℕ) → ChainedSendBuffer → (n : ℕ) → ChainedSendBuffer
  | 0, b, _ => b
  | fuel + 1, b, n =>
    if n = 0 then b
    else
      match hc : b.chunks with
      | [] => b
      | c :: cs =>
        if h : n < c.remaining then
          { b with
            chunks := c.advance n h :: cs
            pending := b.pending - n
            pending_eq := by
              rw [b.pending_eq, hc, map_cons, sum_cons, map_cons, sum_cons, c.remaining_advance h]
              omega
            allocated_eq := by
              rw [b.allocated_eq, hc]
              rfl }
        else
          popChunks fuel
            { chunks := cs
              pending := b.pending - c.remaining
              allocatedChunks := b.allocatedChunks - c.data.capacity
              recycled := recycle b.recycled c.data.capacity
              pending_eq := by
                rw [b.pending_eq, hc, map_cons, sum_cons, Nat.add_sub_cancel_left]
              allocated_eq := by
                rw [b.allocated_eq, hc, map_cons, sum_cons, Nat.add_sub_cancel_left] }
            (n - c.remaining)

def popFront (b : ChainedSendBuffer) (n : ℕ) : ChainedSendBuffer := popChunks b.chunks.length b n

theorem contents_popChunks {fuel : ℕ} (h : b.chunks.length ≤ fuel) (n : ℕ) :
    (popChunks fuel b n).contents = b.contents.drop n := by
  induction fuel generalizing b n with
  | zero =>
    have hc : b.chunks = [] := length_eq_zero_iff.mp (Nat.le_zero.mp h)
    simp [popChunks, contents, hc]
  | succ fuel ih =>
    rw [popChunks]
    split_ifs with hn
    · rw [hn, drop_zero]
    split
    · rename_i hc
      simp [contents, hc]
    rename_i c cs hc
    have hcontents : b.contents = c.rest ++ cs.flatMap Chunk.rest := by
      rw [contents, hc, flatMap_cons]
    split_ifs with hlt
    · rw [hcontents, drop_append_of_le_length (by rw [c.length_rest]; exact hlt.le)]
      simp [contents, c.rest_advance hlt]
    · have hlen : cs.length ≤ fuel := by
        rw [hc, length_cons] at h
        omega
      have hdrop : c.rest.drop n = [] :=
        drop_eq_nil_of_le (by rw [c.length_rest]; omega)
      rw [ih hlen, hcontents, drop_append, c.length_rest, hdrop]
      rfl

theorem contents_popFront (b : ChainedSendBuffer) (n : ℕ) :
    (b.popFront n).contents = b.contents.drop n :=
  contents_popChunks le_rfl n

/-- The slices of `gather` from a chunk on, with `bytes` covered already. -/
def gatherFrom (maxBytes : ℕ) : (maxSlices : ℕ) → List Chunk → (bytes : ℕ) → List Bytes
  | 0, _, _ => []
  | _ + 1, [], _ => []
  | k + 1, c :: cs, bytes =>
    if maxBytes ≤ bytes + c.remaining then [c.rest]
    else c.rest :: gatherFrom maxBytes k cs (bytes + c.remaining)

def gather (b : ChainedSendBuffer) (maxSlices : ℕ) : List Bytes :=
  gatherFrom kMaxGatherBytes maxSlices b.chunks 0

theorem flatten_gatherFrom (maxBytes maxSlices : ℕ) (cs : List Chunk) (bytes : ℕ) :
    (gatherFrom maxBytes maxSlices cs bytes).flatten <+: cs.flatMap Chunk.rest := by
  induction maxSlices generalizing cs bytes with
  | zero => exact nil_prefix
  | succ k ih =>
    cases cs with
    | nil => exact nil_prefix
    | cons c cs =>
      rw [gatherFrom]
      split_ifs
      · simp
      · rw [flatten_cons]
        exact (prefix_append_right_inj _).mpr (ih cs _)

theorem flatten_gather (b : ChainedSendBuffer) (maxSlices : ℕ) :
    (b.gather maxSlices).flatten <+: b.contents :=
  flatten_gatherFrom ..

/-! ## Runs -/

def clear (_ : ChainedSendBuffer) : ChainedSendBuffer := new

/-- The calls that change a queue. -/
inductive Call
  | appendOwned (data : ByteVector)
  | append (bytes : Bytes)
  | popFront (n : ℕ)
  | clear

/-- A call on the queue. -/
def call (b : ChainedSendBuffer) : Call → ChainedSendBuffer
  | .appendOwned data => b.appendOwned data
  | .append bytes => b.append A bytes
  | .popFront n => b.popFront n
  | .clear => b.clear

/-- The same call on a byte string: in at its end, out at its front. -/
def Call.onBytes (q : Bytes) : Call → Bytes
  | .appendOwned data => q ++ data.bytes
  | .append bytes => q ++ bytes
  | .popFront n => q.drop n
  | .clear => []

theorem contents_call (b : ChainedSendBuffer) (o : Call) :
    (b.call A o).contents = o.onBytes b.contents := by
  cases o with
  | appendOwned data => exact contents_appendOwned ..
  | append bytes => exact contents_append ..
  | popFront n => exact contents_popFront ..
  | clear => rfl

theorem contents_calls (b : ChainedSendBuffer) (calls : List Call) :
    (calls.foldl (call A) b).contents = calls.foldl Call.onBytes b.contents := by
  induction calls generalizing b with
  | nil => rfl
  | cons o calls ih => rw [foldl_cons, foldl_cons, ih, contents_call]

theorem ne_nil_of_mem_gatherFrom {maxBytes maxSlices bytes : ℕ} {cs : List Chunk} {slice : Bytes}
    (h : slice ∈ gatherFrom maxBytes maxSlices cs bytes) : slice ≠ [] := by
  induction maxSlices generalizing cs bytes with
  | zero => cases h
  | succ k ih =>
    cases cs with
    | nil => cases h
    | cons c cs =>
      have hc : c.rest ≠ [] := ne_nil_of_length_pos (by rw [c.length_rest]; exact c.remaining_pos)
      rw [gatherFrom] at h
      split_ifs at h
      · rwa [mem_singleton.mp h]
      · obtain rfl | h := mem_cons.mp h
        · exact hc
        · exact ih h

end ChainedSendBuffer

/-! ## The slots -/

/-- `ChainedSendBuffer` as it is laid out; a slot whose chunk was drained is `none`. -/
structure SlotBuffer where
  slots : List (Option Chunk)
  head : ℕ
  pending : ℕ
  allocatedChunks : ℕ
  recycled : ℕ

namespace SlotBuffer

open ChainedSendBuffer

variable (q : SlotBuffer) (A : Allocator)

def new : SlotBuffer := ⟨[], 0, 0, 0, 0⟩

/-- The chunks from `head_` on. -/
def live : List Chunk := (q.slots.drop q.head).filterMap id

def contents : Bytes := q.live.flatMap Chunk.rest

def appendOwned (data : ByteVector) : SlotBuffer :=
  if h : data.bytes = [] then q
  else
    { q with
      slots := q.slots ++ [some ⟨data, 0, length_pos_iff.mpr h⟩]
      pending := q.pending + data.bytes.length
      allocatedChunks := q.allocatedChunks + data.capacity }

/-- `coalescable_tail` with the insertion. -/
def packTail (bytes : Bytes) : Option (List (Option Chunk)) :=
  if q.head = q.slots.length then none
  else
    match q.slots.getLast? with
    | some (some c) =>
      if h : bytes.length ≤ c.data.capacity - c.data.bytes.length then
        some (q.slots.dropLast ++ [some (c.pack bytes h)])
      else none
    | _ => none

def append (bytes : Bytes) : SlotBuffer :=
  if bytes = [] then q
  else
    match q.packTail bytes with
    | some slots => { q with slots := slots, pending := q.pending + bytes.length }
    | none =>
      let (data, recycled) := takeChunk A bytes q.recycled
      { q with recycled := recycled }.appendOwned data

/-- The loop of `pop_front`: `n` bytes from at most `fuel` slots. -/
def popSlots : (fuel : ℕ) → SlotBuffer → (n : ℕ) → SlotBuffer
  | 0, q, _ => q
  | fuel + 1, q, n =>
    if n = 0 then q
    else
      match q.slots[q.head]? with
      | some (some c) =>
        if h : n < c.remaining then
          { q with slots := q.slots.set q.head (some (c.advance n h)), pending := q.pending - n }
        else
          popSlots fuel
            { slots := q.slots.set q.head none
              head := q.head + 1
              pending := q.pending - c.remaining
              allocatedChunks := q.allocatedChunks - c.data.capacity
              recycled := recycle q.recycled c.data.capacity } (n - c.remaining)
      | _ => q

/-- The drained slots are erased when nothing else is there, or when they are half of all. -/
def reclaimDrainedSlots : SlotBuffer :=
  if q.head = 0 then q
  else if q.head = q.slots.length then { q with slots := [], head := 0 }
  else if q.slots.length ≤ q.head * 2 then { q with slots := q.slots.drop q.head, head := 0 }
  else q

def popFront (n : ℕ) : SlotBuffer :=
  (popSlots (q.slots.length - q.head) q n).reclaimDrainedSlots

def call : Call → SlotBuffer
  | .appendOwned data => q.appendOwned data
  | .append bytes => q.append A bytes
  | .popFront n => q.popFront n
  | .clear => new

/-- The slots of a queue behind some drained ones. -/
def lay (dead : List (Option Chunk)) (b : ChainedSendBuffer) : SlotBuffer :=
  ⟨dead ++ b.chunks.map some, dead.length, b.pending, b.allocatedChunks, b.recycled⟩

variable {A} {dead : List (Option Chunk)} {b : ChainedSendBuffer} {bytes : Bytes}

theorem live_lay : (lay dead b).live = b.chunks := by
  simp [live, lay]

theorem appendOwned_lay (data : ByteVector) :
    (lay dead b).appendOwned data = lay dead (b.appendOwned data) := by
  unfold appendOwned ChainedSendBuffer.appendOwned
  split_ifs
  · rfl
  · simp [lay]

theorem packTail_lay : (lay dead b).packTail bytes =
    (ChainedSendBuffer.packTail bytes b.chunks).map (dead ++ ·.map some) := by
  rcases eq_nil_or_concat b.chunks with hc | ⟨cs, c, hc⟩
  · simp [packTail, lay, hc, ChainedSendBuffer.packTail]
  · have hlast : (lay dead b).slots = dead ++ cs.map some ++ [some c] := by simp [lay, hc]
    have hlen : (lay dead b).head ≠ (lay dead b).slots.length := by simp [lay, hc]
    rw [packTail, if_neg hlen, hlast, getLast?_concat, dropLast_concat, hc, concat_eq_append,
      ChainedSendBuffer.packTail, getLast?_concat, dropLast_concat]
    dsimp only
    split_ifs <;> simp

theorem append_lay : (lay dead b).append A bytes = lay dead (b.append A bytes) := by
  by_cases hnil : bytes = []
  · rw [append, ChainedSendBuffer.append, if_pos hnil, if_pos hnil]
  rw [append, if_neg hnil, packTail_lay]
  cases hpack : ChainedSendBuffer.packTail bytes b.chunks with
  | none =>
    rw [append_of_not_packed A hnil hpack, ← appendOwned_lay]
    rfl
  | some chunks =>
    rw [ChainedSendBuffer.append, if_neg hnil]
    dsimp only [Option.map_some]
    split <;> rename_i heq <;> cases hpack.symm.trans heq
    rfl

variable (dead b)

/-- The slots of the chunks that are drained stay. -/
theorem popSlots_lay (fuel n : ℕ) :
    ∃ dead', popSlots fuel (lay dead b) n = lay dead' (popChunks fuel b n) := by
  induction fuel generalizing dead b n with
  | zero => exact ⟨dead, rfl⟩
  | succ fuel ih =>
    rw [popSlots, popChunks]
    split_ifs with hn
    · exact ⟨dead, rfl⟩
    obtain ⟨_ | ⟨c, cs⟩, pending, allocated, recycled, hpending, hallocated⟩ := b
    · exact ⟨dead, by simp [lay]⟩
    have hget : (dead ++ (c :: cs).map some)[dead.length]? = some (some c) := by simp
    dsimp only [lay]
    rw [hget]
    dsimp only
    split_ifs with hlt
    · exact ⟨dead, by simp⟩
    · have hset : (dead ++ (c :: cs).map some).set dead.length none =
          dead ++ [none] ++ cs.map some := by simp
      have hhead : dead.length + 1 = (dead ++ [none]).length := by simp
      rw [hset, hhead]
      exact ih (dead ++ [none]) ⟨cs, _, _, _, _, _⟩ _

theorem reclaimDrainedSlots_lay : ∃ dead', (lay dead b).reclaimDrainedSlots = lay dead' b := by
  unfold reclaimDrainedSlots
  split_ifs with hzero hall hhalf
  · exact ⟨dead, rfl⟩
  · have hc : b.chunks = [] := by simpa [lay] using hall
    exact ⟨[], by simp [lay, hc]⟩
  · exact ⟨[], by simp [lay]⟩
  · exact ⟨dead, rfl⟩

/-- **One call** does to the slots what it does to the list of chunks. -/
theorem call_lay (o : Call) : ∃ dead', (lay dead b).call A o = lay dead' (b.call A o) := by
  cases o with
  | appendOwned data => exact ⟨dead, appendOwned_lay data⟩
  | append bytes => exact ⟨dead, append_lay⟩
  | popFront n =>
    have hfuel : (lay dead b).slots.length - (lay dead b).head = b.chunks.length := by simp [lay]
    obtain ⟨dead₁, hpop⟩ := popSlots_lay dead b b.chunks.length n
    obtain ⟨dead₂, hreclaim⟩ := reclaimDrainedSlots_lay dead₁ (b.popFront n)
    refine ⟨dead₂, ?_⟩
    rw [call, popFront, hfuel, hpop]
    exact hreclaim
  | clear => exact ⟨[], rfl⟩

omit dead b in
theorem calls_lay (calls : List Call) :
    ∃ dead, calls.foldl (call · A) new = lay dead (calls.foldl (ChainedSendBuffer.call A) .new) := by
  induction calls using reverseRecOn with
  | nil => exact ⟨[], rfl⟩
  | append_singleton calls o ih =>
    obtain ⟨dead, ih⟩ := ih
    rw [foldl_concat, foldl_concat, ih]
    exact call_lay dead _ o

variable (A)

/-- **The send buffer is a byte queue**: whatever is called, the slots from `head_` on hold the
bytes of the queue in chunks with something left to send, the counters count bytes and memory, and
`gather` describes a front part by slices that are not empty. -/
theorem fifo (calls : List Call) : ∃ q, q = calls.foldl (call · A) new ∧
    q.slots.drop q.head = q.live.map some ∧ q.contents = calls.foldl Call.onBytes [] ∧
      q.pending = q.contents.length ∧ q.allocatedChunks = (q.live.map (·.data.capacity)).sum ∧
      (∀ c ∈ q.live, c.sent < c.data.bytes.length) ∧ ∀ maxSlices maxBytes, ∃ slices,
        slices = gatherFrom maxBytes maxSlices q.live 0 ∧ (∀ s ∈ slices, s ≠ []) ∧
          slices.flatten <+: q.contents ∧ (0 < maxSlices → q.contents ≠ [] → slices ≠ []) := by
  obtain ⟨dead, hlay⟩ := calls_lay (A := A) calls
  obtain ⟨b, hb⟩ : ∃ b, b = calls.foldl (ChainedSendBuffer.call A) .new := ⟨_, rfl⟩
  have hcontents : (lay dead b).contents = b.contents := by rw [contents, live_lay]; rfl
  refine ⟨lay dead b, by rw [hlay, hb], by rw [live_lay]; simp [lay], ?_⟩
  rw [hcontents, live_lay]
  refine ⟨hb ▸ contents_calls A .new calls, (length_contents _).symm, b.allocated_eq,
    fun c _ => c.live, fun maxSlices maxBytes => ⟨_, rfl, fun _ => ne_nil_of_mem_gatherFrom,
      flatten_gatherFrom .., fun hpos hne => ?_⟩⟩
  obtain ⟨k, rfl⟩ := Nat.exists_eq_succ_of_ne_zero hpos.ne'
  -- something is pending, so that there is a chunk
  cases hc : b.chunks with
  | nil => exact absurd (by rw [ChainedSendBuffer.contents, hc]; rfl) hne
  | cons c cs =>
    rw [gatherFrom]
    split_ifs <;> exact cons_ne_nil _ _

end SlotBuffer

end Librats
