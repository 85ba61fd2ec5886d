import Mathlib.Algebra.Order.Group.Int
import Mathlib.Logic.Function.Iterate

/-!
# Waking the reconnection loop

The thread of `ReconnectionService::loop` (`subsystems/reconnection.cpp`), with its passes over
`targets_` counted and the clock in milliseconds. A `wait_for` that is woken goes on waiting as long
as its predicate does not hold, here that the service was stopped.
-/

namespace Librats.Reconnection

/-- Where the loop is: at its head, behind a pass, in `wait_for`, or left. -/
inductive Point
  | head
  | passed
  | waiting (deadline : ℤ)
  | left
deriving DecidableEq

structure State where
  clock : ℤ := 0
  running : Bool := true
  point : Point := .head
  notified : Bool := false
  passes : ℕ := 0

/-- `wake_.notify_all()`, or a spurious wake-up. -/
def State.notifyAll (s : State) : State := { s with notified := true }

variable (tick : ℤ)

/-- A step of `ReconnectionService::loop`, none if blocked in `wait_for`. -/
def loop (s : State) : State :=
  match s.point with
  | .head =>
    if s.running then { s with point := .passed, passes := s.passes + 1 }
    else { s with point := .left }
  | .passed =>
    -- the predicate is looked at before the first wait, and a signal from before is lost
    if s.running then { s with point := .waiting (s.clock + tick), notified := false }
    else { s with point := .head }
  | .waiting deadline =>
    if deadline ≤ s.clock then { s with point := .head }
    else if s.notified then
      if s.running then { s with notified := false } else { s with point := .head }
    else s
  | .left => s

inductive Act
  | loop
  | elapse (ms : ℕ)
  | onDisconnected
  /-- `add`, which notifies if the address was not known and found room. -/
  | add (inserted : Bool)
  | spuriousWakeup
  | stop

def step (s : State) : Act → State
  | .loop => loop tick s
  | .elapse ms => { s with clock := s.clock + ms }
  | .onDisconnected | .add true | .spuriousWakeup => s.notifyAll
  | .add false => s
  | .stop => { s with running := false }.notifyAll

def run (acts : List Act) : State := acts.foldl (step tick) {}

/-- The loop passes over the targets again before any time goes by. -/
def PassesAtOnce (s : State) : Prop := ∃ n, s.passes < ((loop tick)^[n] s).passes

/-- The wait is over anyway, or will be as soon as it begins. -/
def Due (s : State) : Prop :=
  (s.point = .passed ∧ tick ≤ 0) ∨ ∃ deadline, s.point = .waiting deadline ∧ deadline ≤ s.clock

/-- The loop is waiting, or about to, and time has to go by. -/
def Held (s : State) : Prop :=
  s.running = true ∧
    ((s.point = .passed ∧ 0 < tick) ∨ ∃ deadline, s.point = .waiting deadline ∧ s.clock < deadline)

variable {tick} {s : State}

theorem Held.loop (h : Held tick s) : Held tick (loop tick s) ∧ (loop tick s).passes = s.passes := by
  obtain ⟨clock, running, point, notified, passes⟩ := s
  obtain ⟨rfl, ⟨rfl, htick⟩ | ⟨deadline, rfl, hclock⟩⟩ := h
  · exact ⟨⟨rfl, .inr ⟨_, rfl, lt_add_of_pos_right clock htick⟩⟩, rfl⟩
  · simp only [Reconnection.loop, if_neg (not_le.mpr hclock), if_true]
    split_ifs
    all_goals exact ⟨⟨rfl, .inr ⟨deadline, rfl, hclock⟩⟩, rfl⟩

theorem Held.iterate (h : Held tick s) (n : ℕ) :
    ((Reconnection.loop tick)^[n] s).passes = s.passes := by
  induction n generalizing s with
  | zero => rfl
  | succ n ih => exact (ih h.loop.1).trans h.loop.2

/-- **When the loop waits or is about to, a disconnect or a new target makes it pass over the
targets at once only if its wait is over anyway.** -/
theorem woken_iff (tick : ℤ) (acts : List Act) (hrunning : (run tick acts).running = true)
    (hwaits : (run tick acts).point = .passed ∨ ∃ d, (run tick acts).point = .waiting d) :
    PassesAtOnce tick (run tick (acts ++ [.onDisconnected])) ∧
      PassesAtOnce tick (run tick (acts ++ [.add true])) ↔ Due tick (run tick acts) := by
  have hrun (act : Act) : run tick (acts ++ [act]) = step tick (run tick acts) act :=
    List.foldl_append
  rw [hrun, hrun, step, step, and_self_iff]
  generalize run tick acts = s at *
  constructor
  · rintro ⟨n, hn⟩
    by_contra hdue
    have hheld : Held tick s.notifyAll := by
      refine ⟨hrunning, hwaits.imp (fun h => ⟨h, ?_⟩) fun ⟨d, h⟩ => ⟨d, h, ?_⟩⟩
      · exact not_le.mp fun htick => hdue (.inl ⟨h, htick⟩)
      · exact not_le.mp fun hd => hdue (.inr ⟨d, h, hd⟩)
    exact hn.ne' (hheld.iterate n)
  · rintro (⟨hpoint, htick⟩ | ⟨d, hpoint, hd⟩)
    · exact ⟨3, by simp [loop, State.notifyAll, hpoint, hrunning, htick]⟩
    · exact ⟨2, by simp [loop, State.notifyAll, hpoint, hrunning, hd]⟩

theorem woken_of_no_tick : PassesAtOnce 0 (run 0 [.loop, .loop, .onDisconnected]) ∧
      PassesAtOnce 0 (run 0 [.loop, .loop, .add true]) :=
  (woken_iff 0 [.loop, .loop] rfl (.inr ⟨0, rfl⟩)).mpr (.inr ⟨0, rfl, le_rfl⟩)

/-- With the default tick the loop that waits is not woken by a disconnect. -/
theorem disconnect_unheard : (run 1000 [.loop, .loop]).point = .waiting 1000 ∧
    ¬PassesAtOnce 1000 (run 1000 [.loop, .loop, .onDisconnected]) := by
  have hheld : Held 1000 (run 1000 [.loop, .loop, .onDisconnected]) :=
    ⟨rfl, .inr ⟨1000, rfl, by decide⟩⟩
  exact ⟨rfl, fun ⟨n, hn⟩ => hn.ne' (hheld.iterate n)⟩

end Librats.Reconnection
