import Librats.Core.Types

/-!
# The receive buffer

The part of `ReceiveBuffer` (`core/receive_buffer.cpp`) that gives memory back: each idle tick
(`decay`) ages the demand the buffer remembers, and moves the live bytes into a smaller allocation
when the one there has become more than twice as large.
-/

namespace Librats

open List

/-- `ReceiveBuffer`, with the cursors in order. -/
structure ReceiveBuffer where
  buf : ℕ → UInt8
  cap : ℕ
  start : ℕ
  end_ : ℕ
  peak : ℕ
  watermark : ℕ
  receivedSinceDecay : Bool
  start_le : start ≤ end_
  end_le : end_ ≤ cap

namespace ReceiveBuffer

def kMinCapacity : ℕ := 1024

def kAllocGranularity : ℕ := 256

/-- `round_up` to the granularity of the allocations. -/
def roundUp (n : ℕ) : ℕ := (n + kAllocGranularity - 1) / kAllocGranularity * kAllocGranularity

-- what is in memory that was just allocated
variable (fresh : ℕ → UInt8) (b : ReceiveBuffer)

def size : ℕ := b.end_ - b.start

/-- `ReceiveBuffer::view`: the live bytes. -/
def view : Bytes := (range b.size).map fun i => b.buf (b.start + i)

/-- `ReceiveBuffer::reallocate`: the live bytes go to a new allocation. -/
def reallocate (newCapacity : ℕ) (h : b.size ≤ newCapacity) : ReceiveBuffer :=
  { b with
    buf := fun i => if i < b.size then b.buf (b.start + i) else fresh i
    cap := newCapacity
    start := 0
    end_ := b.size
    start_le := Nat.zero_le _
    end_le := h }

/-- The capacity `maybe_shrink` aims at. -/
def target : ℕ := roundUp (max (max kMinCapacity b.size) b.watermark)

theorem size_le_target : b.size ≤ b.target := by
  simp only [target, roundUp, kAllocGranularity]
  omega

def maybeShrink : ReceiveBuffer :=
  if b.cap ≤ kMinCapacity ∨ b.cap / 2 ≤ b.watermark then b
  else if b.target < b.cap then b.reallocate fresh b.target b.size_le_target
  else b

def decay : ReceiveBuffer :=
  if b.cap ≤ kMinCapacity then b
  else if b.receivedSinceDecay then { b with receivedSinceDecay := false }
  else if b.cap < b.size * 2 then b
  else maybeShrink fresh { b with watermark := b.watermark / 2 }

theorem view_decay : (b.decay fresh).view = b.view := by
  have hmove (b : ReceiveBuffer) (n : ℕ) (h : b.size ≤ n) : (b.reallocate fresh n h).view = b.view := by
    refine map_congr_left fun i hi => ?_
    have hi : i < b.size := mem_range.mp hi
    simp [reallocate, hi]
  unfold decay maybeShrink
  split_ifs <;> first | rfl | exact hmove ..

/-- Idle ticks change nothing more, and the buffer is small or more than half full. -/
def Settled : Prop := b.decay fresh = b ∧ (b.cap ≤ kMinCapacity ∨ b.cap < 2 * b.size)

/-- What idle ticks use up. -/
def slack : ℕ := b.cap + b.watermark + b.receivedSinceDecay.toNat

/-- **One idle tick** finds nothing to give back, or uses up some of the slack. -/
theorem decay_cases : b.Settled fresh ∨ (b.decay fresh).slack < b.slack := by
  unfold Settled
  unfold decay
  split_ifs with hmin hreceived hlive
  · exact .inl ⟨rfl, .inl hmin⟩
  · exact .inr (by simp [slack, hreceived])
  · exact .inl ⟨rfl, .inr (by omega)⟩
  right
  simp only [maybeShrink]
  simp only [kMinCapacity] at hmin
  split_ifs with hkeep hless
  · -- the demand is still remembered
    simp only [kMinCapacity] at hkeep
    simp only [slack]
    omega
  · simp only [slack, reallocate]
    omega
  · -- neither the floor, nor the live bytes, nor the demand keep the allocation
    simp only [target, roundUp, kAllocGranularity, kMinCapacity, size, not_or] at hkeep hless hlive
    omega

/-- **Idle buffers shrink**: a buffer comes to rest after some idle ticks, and its live bytes stay
as they are. -/
theorem idle_shrinks : (∃ n, ((decay fresh)^[n] b).Settled fresh) ∧
    ∀ k, ((decay fresh)^[k] b).view = b.view := by
  constructor
  · induction hs : b.slack using Nat.strong_induction_on generalizing b with
    | _ s ih =>
      obtain hrest | hless := b.decay_cases fresh
      · exact ⟨0, hrest⟩
      · obtain ⟨n, hn⟩ := ih _ (hs ▸ hless) _ rfl
        exact ⟨n + 1, hn⟩
  · intro k
    induction k with
    | zero => rfl
    | succ k ih => rw [Function.iterate_succ_apply', view_decay, ih]

end ReceiveBuffer

end Librats
