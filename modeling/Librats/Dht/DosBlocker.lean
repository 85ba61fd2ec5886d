import Librats.Dht.RoutingTable

/-!
# The rate limit

`dht/dos_blocker.cpp`: the packets of each address are counted over a window, and an address that
sends too many is banned for a while. The table is swept only by a packet that is let through, and
only of entries that are neither banned nor in their window.
-/

namespace Librats.Dht

open List

/-- `DosBlocker::Entry`. No ban ends before the epoch of the clock. -/
structure DosEntry where
  count : ℕ := 0
  windowStart : TimePoint := 0
  bannedUntil : TimePoint := 0
  bannedUntil_nonneg : 0 ≤ bannedUntil := by decide

abbrev DosBlocker := AList fun _ : IpAddress => DosEntry

namespace DosBlocker

def kMaxPerWindow : ℕ := 50

/-- `kWindow`, in nanoseconds. -/
def kWindow : ℤ := 10 * 10 ^ 9

/-- `kBanDuration`, in nanoseconds. -/
def kBanDuration : ℤ := 5 * 60 * 10 ^ 9

def kMaxTracked : ℕ := 2000

variable (b : DosBlocker) (ip : IpAddress) (now : TimePoint)

def tracked : ℕ := b.entries.length

def prune : DosBlocker :=
  AssocList.filter b fun e => !(e.bannedUntil ≤ now && kWindow ≤ now - e.windowStart)

/-- The entry with one more packet, the first if its window is over. -/
def counted (e : DosEntry) : DosEntry :=
  if kWindow ≤ now - e.windowStart then { e with windowStart := now, count := 1 }
  else { e with count := e.count + 1 }

def allow : Bool × DosBlocker :=
  let e := (b.lookup ip).getD {}
  if h : now < e.bannedUntil then (false, b.insert ip e)
  else if kMaxPerWindow < (counted now e).count then
    (false, b.insert ip { counted now e with
        bannedUntil := now + kBanDuration
        bannedUntil_nonneg := by
          have := e.bannedUntil_nonneg.trans (not_lt.mp h)
          exact Int.add_nonneg this (by decide) })
  else
    let b := b.insert ip (counted now e)
    (true, if kMaxTracked < tracked b then prune b now else b)

/-- The table after some packets. -/
def run (calls : List (IpAddress × TimePoint)) : DosBlocker :=
  calls.foldl (fun b c => (allow b c.1 c.2).2) ∅

theorem run_concat (calls : List (IpAddress × TimePoint)) :
    run (calls ++ [(ip, now)]) = (allow (run calls) ip now).2 :=
  foldl_concat ..

/-- The entries of other addresses that are banned or in their window. -/
def othersInUse : ℕ := tracked (prune (b.erase ip) now)

variable {b ip now}

theorem tracked_insert (e : DosEntry) : tracked (b.insert ip e) = tracked (b.erase ip) + 1 := rfl

theorem prune_insert (e : DosEntry) : tracked (prune (b.insert ip e) now) =
    othersInUse b ip now + if e.bannedUntil ≤ now ∧ kWindow ≤ now - e.windowStart then 0 else 1 := by
  simp only [tracked, othersInUse, prune, AssocList.filter, AList.entries_insert, filter_cons]
  split_ifs <;> simp_all <;> rfl

/-- The entry of a packet that is counted is in its window. -/
theorem windowStart_counted (e : DosEntry) : now - (counted now e).windowStart < kWindow := by
  unfold counted
  split_ifs with h
  · simp [kWindow]
  · exact not_le.mp h

/-- After a packet the table has an entry for its address and all others in use. -/
theorem othersInUse_lt : othersInUse b ip now < tracked (allow b ip now).2 := by
  have hle : othersInUse b ip now ≤ tracked (b.erase ip) := length_filter_le ..
  simp only [allow]
  split_ifs with hban hcount hfull
  · exact Nat.lt_succ_of_le hle
  · exact Nat.lt_succ_of_le hle
  · rw [prune_insert, if_neg fun h => (windowStart_counted _).not_ge h.2]
    exact Nat.lt_succ_self _
  · exact Nat.lt_succ_of_le hle

/-- **One packet**: a table within the bound stays so if few other entries are in use. -/
theorem tracked_allow (hb : tracked b ≤ kMaxTracked + 1)
    (hothers : othersInUse b ip now ≤ kMaxTracked) : tracked (allow b ip now).2 ≤ kMaxTracked + 1 := by
  have hold (hip : ip ∈ b) (e : DosEntry) : tracked (b.insert ip e) ≤ kMaxTracked + 1 :=
    (AssocList.length_insert hip e).trans_le hb
  simp only [allow]
  split_ifs with hban hcount hfull
  · by_cases hip : ip ∈ b
    · exact hold hip _
    -- a new entry is not banned, unless no ban is over yet
    rw [AList.lookup_eq_none.mpr hip] at hban
    have hall : prune (b.erase ip) now = b.erase ip := AList.ext (filter_eq_self.mpr fun x _ => by
      have := hban.trans_le x.2.bannedUntil_nonneg
      simp [this])
    rw [tracked_insert, ← hall]
    exact Nat.succ_le_succ hothers
  · refine hold (by_contra fun hip => ?_) _
    rw [AList.lookup_eq_none.mpr hip, Option.getD_none, counted] at hcount
    split_ifs at hcount <;> simp [kMaxPerWindow] at hcount
  · rw [prune_insert]
    split_ifs <;> omega
  · exact (not_lt.mp hfull).trans (Nat.le_succ _)

/-- **The table is bounded exactly when few entries are in use**: it never has more than
`kMaxTracked + 1` entries iff before each packet at most `kMaxTracked` entries of other addresses
are banned or in their window. -/
theorem tracked_le_iff (calls : List (IpAddress × TimePoint)) :
    (∀ l, l <+: calls → tracked (run l) ≤ kMaxTracked + 1) ↔
      ∀ l ip now, l ++ [(ip, now)] <+: calls → othersInUse (run l) ip now ≤ kMaxTracked := by
  constructor
  · intro h l ip now hl
    have hafter := h _ hl
    rw [run_concat] at hafter
    exact Nat.le_of_lt_succ (othersInUse_lt.trans_le hafter)
  · intro h l hl
    induction l using reverseRecOn with
    | nil => exact Nat.zero_le _
    | append_singleton l c ih =>
      rw [run_concat]
      exact tracked_allow (ih ((prefix_append ..).trans hl)) (h l c.1 c.2 hl)

/-- The first packets of so many addresses, all at one time. -/
def flood (n : ℕ) : List (IpAddress × TimePoint) :=
  (range n).map fun i => (.v4 (.ofNat 32 i), 0)

theorem entries_flood {n : ℕ} (hn : n ≤ 2 ^ 32) : (run (flood n)).entries =
    ((range n).map fun i => ⟨.v4 (.ofNat 32 i), { count := 1 }⟩).reverse := by
  induction n with
  | zero => rfl
  | succ n ih =>
    have ih := ih (Nat.le_of_succ_le hn)
    have hnew : IpAddress.v4 (.ofNat 32 n) ∉ run (flood n) := by
      rw [AList.mem_keys, AList.keys, ih, List.keys, map_reverse, mem_reverse, map_map, mem_map]
      rintro ⟨i, hi, heq⟩
      rw [mem_range] at hi
      have := IpAddress.v4.inj heq
      bv_omega
    have hflood : flood (n + 1) = flood n ++ [(.v4 (.ofNat 32 n), 0)] := by
      simp [flood, range_succ]
    have hone : counted 0 {} = { count := 1 } := if_neg (by decide)
    have hins : ((run (flood n)).insert (.v4 (.ofNat 32 n)) { count := 1 }).entries =
        ((range (n + 1)).map fun i => ⟨.v4 (.ofNat 32 i), { count := 1 }⟩).reverse := by
      rw [AList.entries_insert_of_notMem hnew, ih, range_succ]
      simp
    rw [hflood, run_concat]
    simp only [allow, AList.lookup_eq_none.mpr hnew, Option.getD_none, hone, lt_irrefl, dite_false]
    rw [if_neg (by decide)]
    split_ifs
    · -- no window is over
      refine (filter_eq_self.mpr fun x hx => ?_).trans hins
      rw [hins, mem_reverse, mem_map] at hx
      obtain ⟨i, -, rfl⟩ := hx
      rfl
    · exact hins

/-- **The table has no bound**: addresses that send one packet each are all kept. -/
theorem flood_tracked : ¬ ∀ calls : List (IpAddress × TimePoint),
    (calls.map Prod.snd).Pairwise (· ≤ ·) → tracked (run calls) ≤ kMaxTracked + 1 := by
  intro h
  have hle := h (flood 2002) (pairwise_map.mpr (pairwise_map.mpr (pairwise_of_forall fun _ _ => le_rfl)))
  rw [tracked, entries_flood (by norm_num), length_reverse, length_map, length_range] at hle
  exact absurd hle (by decide)

end DosBlocker

end Librats.Dht
