import Librats.Dht.KrpcRoundTrip
import Librats.Dht.RoutingTable

/-!
# Write tokens

The tokens of `dht/storage.cpp`: a hash of a secret, the address and the info-hash, accepted under
the current secret and the one before. SHA-1 is an arbitrary function, and the random device gives
each call a secret to use if it needs one.
-/

namespace Librats.Dht

open Krpc

/-- `kRotateInterval`, in nanoseconds. -/
def kRotateInterval : ℤ := 5 * 60 * 10 ^ 9

abbrev Secret := Vector UInt8 16

structure TokenManager where
  secret : Secret
  prevSecret : Secret
  rotatedAt : TimePoint
  initialized : Bool

namespace TokenManager

def new : TokenManager := ⟨.replicate 16 0, .replicate 16 0, 0, false⟩

/-- A call at this time draws a secret. -/
def due (m : TokenManager) (now : TimePoint) : Bool :=
  !m.initialized || kRotateInterval ≤ now - m.rotatedAt

def maybeRotate (m : TokenManager) (fresh : Secret) (now : TimePoint) : TokenManager :=
  if !m.initialized then ⟨fresh, fresh, now, true⟩
  else if kRotateInterval ≤ now - m.rotatedAt then ⟨fresh, m.secret, now, true⟩
  else m

variable (sha1 : Bytes → Bytes)

/-- The port of the querier does not count. -/
def compute (ip : IpAddress) (infoHash : NodeId) (secret : Secret) : Bytes :=
  sha1 (secret.toList ++ (ip.bytes ++ nodeIdToString infoHash))

section

variable (m : TokenManager) (fresh : Secret) (querier : Address)

def generate (infoHash : NodeId) (now : TimePoint) : Bytes × TokenManager :=
  let m := m.maybeRotate fresh now
  (compute sha1 querier.ip infoHash m.secret, m)

def verify (infoHash : NodeId) (token : Bytes) (now : TimePoint) : Bool × TokenManager :=
  if token = [] then (false, m)
  else
    let m := m.maybeRotate fresh now
    (token == compute sha1 querier.ip infoHash m.secret ||
      token == compute sha1 querier.ip infoHash m.prevSecret, m)

end

end TokenManager

/-! ## Runs -/

open List TokenManager

inductive TokenCall
  | generate (querier : Address) (infoHash : NodeId)
  | verify (querier : Address) (infoHash : NodeId) (token : Bytes)

/-- A token that was handed out. -/
structure Issue where
  ip : IpAddress
  infoHash : NodeId
  token : Bytes
  time : TimePoint
  deriving DecidableEq

/-- A token manager with the time, the secrets drawn so far, the latest first, and the tokens handed
out. -/
structure TokenRun where
  clock : TimePoint
  manager : TokenManager
  drawn : List (Secret × TimePoint)
  issued : List Issue

namespace TokenRun

def init (clock : TimePoint) : TokenRun := ⟨clock, .new, [], []⟩

variable (sha1 : Bytes → Bytes)

/-- A call some time after the last one. -/
def step (r : TokenRun) : ℕ × Secret × TokenCall → TokenRun
  | (wait, fresh, .generate querier infoHash) =>
    let now := r.clock + wait
    let (token, m) := r.manager.generate sha1 fresh querier infoHash now
    ⟨now, m, if r.manager.due now then (fresh, now) :: r.drawn else r.drawn,
      ⟨querier.ip, infoHash, token, now⟩ :: r.issued⟩
  | (wait, fresh, .verify querier infoHash token) =>
    let now := r.clock + wait
    ⟨now, (r.manager.verify sha1 fresh querier infoHash token now).2,
      if token ≠ [] ∧ r.manager.due now then (fresh, now) :: r.drawn else r.drawn, r.issued⟩

def run (clock : TimePoint) (calls : List (ℕ × Secret × TokenCall)) : TokenRun :=
  calls.foldl (step sha1) (init clock)

/-- The manager works with the last secrets drawn, and the tokens were made with secrets drawn by
then. -/
structure Kept (r : TokenRun) : Prop where
  current : r.manager.initialized = true →
    ∃ rest, r.drawn = (r.manager.secret, r.manager.rotatedAt) :: rest ∧
      (r.manager.prevSecret = r.manager.secret ∨
        ∃ time, rest[0]? = some (r.manager.prevSecret, time))
  past : ∀ d ∈ r.drawn, d.2 ≤ r.clock
  issued : ∀ i ∈ r.issued, ∃ d ∈ r.drawn, d.2 ≤ i.time ∧ i.token = compute sha1 i.ip i.infoHash d.1

variable {sha1} {r : TokenRun} {wait : ℕ} {fresh : Secret}

theorem Kept.rotate (h : Kept sha1 r) (wait : ℕ) (fresh : Secret) :
    (r.manager.maybeRotate fresh (r.clock + wait)).initialized = true ∧
    Kept sha1 ⟨r.clock + wait, r.manager.maybeRotate fresh (r.clock + wait),
      if r.manager.due (r.clock + wait) then (fresh, r.clock + wait) :: r.drawn else r.drawn,
      r.issued⟩ := by
  have hpast : ∀ d ∈ r.drawn, d.2 ≤ r.clock + wait := fun d hd => (h.past d hd).trans (by simp)
  have hlater : ∀ i ∈ r.issued, ∃ d ∈ (fresh, r.clock + wait) :: r.drawn, d.2 ≤ i.time ∧
      i.token = compute sha1 i.ip i.infoHash d.1 := fun i hi => by
    obtain ⟨d, hd, hissue⟩ := h.issued i hi
    exact ⟨d, .tail _ hd, hissue⟩
  rw [maybeRotate, due]
  cases hinit : r.manager.initialized with
  | false =>
    exact ⟨rfl, fun _ => ⟨_, rfl, .inl rfl⟩, forall_mem_cons.mpr ⟨le_rfl, hpast⟩, hlater⟩
  | true =>
    obtain ⟨rest, hdrawn, -⟩ := h.current hinit
    simp only [Bool.not_true, Bool.false_eq_true, if_false, Bool.false_or, decide_eq_true_iff]
    split_ifs
    · exact ⟨rfl, fun _ => ⟨_, rfl, .inr ⟨r.manager.rotatedAt, by rw [hdrawn]; rfl⟩⟩,
        forall_mem_cons.mpr ⟨le_rfl, hpast⟩, hlater⟩
    · exact ⟨hinit, h.current, hpast, h.issued⟩

theorem Kept.step (h : Kept sha1 r) (c : ℕ × Secret × TokenCall) : Kept sha1 (r.step sha1 c) := by
  obtain ⟨wait, fresh, call⟩ := c
  obtain ⟨hinit, hkept⟩ := h.rotate wait fresh
  cases call with
  | generate querier infoHash =>
    obtain ⟨rest, hdrawn, -⟩ := hkept.current hinit
    refine ⟨hkept.current, hkept.past, forall_mem_cons.mpr ⟨?_, hkept.issued⟩⟩
    have hmem := hdrawn ▸ List.mem_cons_self
    exact ⟨_, hmem, hkept.past _ hmem, rfl⟩
  | verify querier infoHash token =>
    rw [TokenRun.step, verify]
    by_cases htoken : token = []
    · simp only [htoken]
      exact ⟨h.current, fun d hd => (h.past d hd).trans (by simp), h.issued⟩
    · simp only [htoken, ne_eq, not_false_eq_true, true_and]
      exact hkept

theorem kept_run (clock : TimePoint) (calls : List (ℕ × Secret × TokenCall)) :
    Kept sha1 (run sha1 clock calls) :=
  foldlRecOn calls _ ⟨nofun, nofun, nofun⟩ fun _ h c _ => h.step c

theorem bytes_injective : Function.Injective IpAddress.bytes := by
  intro a b h
  have hread := congrArg IpAddress.fromBytes h
  have hlength := congrArg length h
  cases a <;> cases b <;> simp [IpAddress.bytes] at hlength
  · rfl
  all_goals simpa [IpAddress.bytes, IpAddress.fromBytes, ofNat_decode] using hread

theorem compute_inj (hsha1 : Function.Injective sha1) {ip ip' : IpAddress}
    {infoHash infoHash' : NodeId} {secret secret' : Secret}
    (h : compute sha1 ip infoHash secret = compute sha1 ip' infoHash' secret') :
    ip = ip' ∧ infoHash = infoHash' ∧ secret = secret' := by
  obtain ⟨hsecret, hrest⟩ := append_inj (hsha1 h) (by simp)
  obtain ⟨hip, hhash⟩ := append_inj' hrest (by simp [length_nodeIdToString])
  refine ⟨bytes_injective hip, ?_, Vector.toList_inj.mp hsecret⟩
  rw [← stringToNodeId_nodeIdToString infoHash, hhash, stringToNodeId_nodeIdToString]

theorem recent_maybeRotate (m : TokenManager) (fresh : Secret) (now : TimePoint) :
    now - (m.maybeRotate fresh now).rotatedAt ≤ 2 * kRotateInterval := by
  have hpos : 0 ≤ kRotateInterval := by decide
  rw [maybeRotate]
  split_ifs
  · simp [hpos]
  · simp [hpos]
  · linarith

/-- **Tokens expire, if the previous secret is not too old**: an accepted token that was handed out
was so for the same address and info-hash, at most two intervals ago if the previous secret was
drawn since then. -/
theorem issued_of_verify (hsha1 : Function.Injective sha1) (clock : TimePoint)
    (calls : List (ℕ × Secret × TokenCall)) (wait : ℕ) (fresh : Secret) (querier : Address)
    (infoHash : NodeId) (token : Bytes) {r r' : TokenRun} (hr : r = run sha1 clock calls)
    (hr' : r' = r.step sha1 (wait, fresh, .verify querier infoHash token))
    (hdistinct : (r'.drawn.map Prod.fst).Nodup) (hissued : ∃ i ∈ r.issued, i.token = token)
    (hrecent : ∀ d ∈ r'.drawn[1]?, r'.clock - d.2 ≤ 2 * kRotateInterval)
    (hverify : (r.manager.verify sha1 fresh querier infoHash token r'.clock).1 = true) :
    ∃ i ∈ r.issued, i.ip = querier.ip ∧ i.infoHash = infoHash ∧ i.token = token ∧
      r'.clock - i.time ≤ 2 * kRotateInterval := by
  obtain ⟨hinit, hkept⟩ := (hr ▸ kept_run clock calls : Kept sha1 r).rotate wait fresh
  rw [verify] at hverify
  split_ifs at hverify with htoken
  rw [TokenRun.step] at hr'
  simp only [ne_eq, htoken, not_false_eq_true, true_and] at hr'
  subst hr'
  obtain ⟨rest, hdrawn, hprev⟩ := hkept.current hinit
  dsimp only at hdrawn hprev hverify hrecent
  obtain ⟨i, hi, rfl⟩ := hissued
  obtain ⟨d, hd, hbefore, hmade⟩ := hkept.issued i hi
  -- the secret the token was made with is the one it is accepted under
  have hsecret (s : Secret) (time : TimePoint)
      (hs : (s, time) ∈ if r.manager.due (r.clock + wait) then
        (fresh, r.clock + wait) :: r.drawn else r.drawn)
      (htime : r.clock + wait - time ≤ 2 * kRotateInterval)
      (heq : i.token = compute sha1 querier.ip infoHash s) :
      ∃ i' ∈ r.issued, i'.ip = querier.ip ∧ i'.infoHash = infoHash ∧ i'.token = i.token ∧
        r.clock + wait - i'.time ≤ 2 * kRotateInterval := by
    obtain ⟨hip, hhash, hsame⟩ := compute_inj hsha1 (hmade.symm.trans heq)
    obtain rfl := inj_on_of_nodup_map hdistinct hd hs hsame
    exact ⟨i, hi, hip, hhash, rfl, (sub_le_sub_left hbefore _).trans htime⟩
  have hcurrent := hsecret _ _ (hdrawn ▸ List.mem_cons_self) (recent_maybeRotate _ _ _)
  rw [Bool.or_eq_true, beq_iff_eq, beq_iff_eq] at hverify
  rcases hverify with heq | heq
  · exact hcurrent heq
  · rcases hprev with hsame | ⟨time, htime⟩
    · exact hcurrent (hsame ▸ heq)
    · rw [hdrawn] at hrecent
      exact hsecret _ time (hdrawn ▸ .tail _ (mem_of_getElem? htime)) (hrecent _ htime) heq

/-- A querier, and the token it is given under the first secret of a run. -/
def alice : Address := ⟨.v4 1, 1⟩

def firstToken : Bytes := compute id alice.ip 0 (.replicate 16 1)

/-- Alice is given a token, and comes back with it after some time. -/
def asked : TokenRun := run id 0 [(0, .replicate 16 1, .generate alice 0)]

def back (wait : ℕ) : TokenRun :=
  asked.step id (wait, .replicate 16 2, .verify alice 0 firstToken)

/-- After six minutes, when the secret has been rotated. -/
theorem issued_of_verify_alice : ∃ i ∈ asked.issued, i.ip = alice.ip ∧ i.infoHash = 0 ∧
    i.token = firstToken ∧ (back (6 * 60 * 10 ^ 9)).clock - i.time ≤ 2 * kRotateInterval :=
  issued_of_verify Function.injective_id 0 _ _ _ alice 0 firstToken rfl rfl (by decide +kernel)
    (by decide +kernel) (by decide +kernel) (by decide +kernel)

/-- **A token stays good as long as nobody asks**: the first call in eleven minutes accepts it. -/
theorem stale_token_accepted : ((back (11 * 60 * 10 ^ 9)).drawn.map Prod.fst).Nodup ∧
    (asked.manager.verify id (.replicate 16 2) alice 0 firstToken
      (back (11 * 60 * 10 ^ 9)).clock).1 = true ∧
    ∀ i ∈ asked.issued, 2 * kRotateInterval < (back (11 * 60 * 10 ^ 9)).clock - i.time := by
  decide +kernel

/-! ## Tokens that are good -/

/-- A token is good under the current secret, or under the previous one if it was handed out before
the last rotation, or an interval has passed. -/
structure Honoured (sha1 : Bytes → Bytes) (m : TokenManager) (now : TimePoint) (i : Issue) :
    Prop where
  initialized : m.initialized = true
  past : i.time ≤ now
  good : i.token = compute sha1 i.ip i.infoHash m.secret ∨
    i.token = compute sha1 i.ip i.infoHash m.prevSecret ∧ i.time ≤ m.rotatedAt ∨
    i.time + kRotateInterval ≤ now

variable {m : TokenManager} {now : TimePoint} {i : Issue}

theorem Honoured.later (h : Honoured sha1 m now i) (wait : ℕ) : Honoured sha1 m (now + wait) i :=
  ⟨h.initialized, h.past.trans (by simp), h.good.imp_right (.imp_right fun h => h.trans (by simp))⟩

theorem Honoured.rotate (h : Honoured sha1 m now i) (wait : ℕ) (fresh : Secret) :
    Honoured sha1 (m.maybeRotate fresh (now + wait)) (now + wait) i := by
  have hlater := h.later wait
  simp only [maybeRotate, h.initialized, Bool.not_true, Bool.false_eq_true, if_false]
  split_ifs with hdue
  · refine ⟨rfl, hlater.past, .inr ?_⟩
    rcases hlater.good with hcurrent | ⟨-, hprev⟩ | hexpired
    · exact .inl ⟨hcurrent, hlater.past⟩
    -- the previous secret is given up, an interval after it was replaced
    · exact .inr (by linarith)
    · exact .inr hexpired
  · exact hlater

theorem honoured_step (h : ∀ i ∈ r.issued, Honoured sha1 r.manager r.clock i)
    (c : ℕ × Secret × TokenCall) : ∀ i ∈ (r.step sha1 c).issued,
      Honoured sha1 (r.step sha1 c).manager (r.step sha1 c).clock i := by
  obtain ⟨wait, fresh, call⟩ := c
  have hrotate := fun i hi => (h i hi).rotate wait fresh
  cases call with
  | generate querier infoHash =>
    have hinit : (r.manager.maybeRotate fresh (r.clock + wait)).initialized = true := by
      grind [maybeRotate]
    exact forall_mem_cons.mpr ⟨⟨hinit, le_rfl, .inl rfl⟩, hrotate⟩
  | verify querier infoHash token =>
    rw [TokenRun.step, verify]
    by_cases htoken : token = []
    · rw [if_pos htoken]
      exact fun i hi => (h i hi).later wait
    · rw [if_neg htoken]
      exact hrotate

theorem honoured_run (clock : TimePoint) (calls : List (ℕ × Secret × TokenCall)) :
    ∀ i ∈ (run sha1 clock calls).issued,
      Honoured sha1 (run sha1 clock calls).manager (run sha1 clock calls).clock i := by
  induction calls using reverseRecOn with
  | nil => simp [run, init]
  | append_singleton calls c ih =>
    rw [run, foldl_append]
    exact honoured_step ih c

/-- **A token is good for an interval**: whatever calls are made in between, it is accepted from its
address for its info-hash. -/
theorem verify_of_issued (hsha1 : ∀ b, sha1 b ≠ []) (clock : TimePoint)
    (calls : List (ℕ × Secret × TokenCall)) (hr : r = run sha1 clock calls) (hi : i ∈ r.issued)
    (wait : ℕ) (hrecent : r.clock + wait < i.time + kRotateInterval) (fresh : Secret)
    (port : UInt16) :
    (r.manager.verify sha1 fresh ⟨i.ip, port⟩ i.infoHash i.token (r.clock + wait)).1 = true := by
  have hnow := hr ▸ honoured_run clock calls i (hr ▸ hi)
  have hgood : i.token = compute sha1 i.ip i.infoHash _ ∨
      i.token = compute sha1 i.ip i.infoHash _ :=
    (hnow.rotate wait fresh).good.imp_right fun h => (h.resolve_right (not_le.mpr hrecent)).1
  have htoken : i.token ≠ [] := by
    rcases hgood with h | h
    all_goals exact h ▸ hsha1 _
  rw [verify, if_neg htoken, Bool.or_eq_true, beq_iff_eq, beq_iff_eq]
  exact hgood

/-- A token handed out four minutes after the first one, and shown after the next rotation. -/
theorem verify_of_issued_alice : ∃ r, r = run (cons 0) 0 [(0, .replicate 16 1, .generate alice 0),
    (240 * 10 ^ 9, .replicate 16 2, .generate alice 0)] ∧ (r.manager.verify (cons 0)
      (.replicate 16 3) alice 0 (0 :: firstToken) (r.clock + (120 * 10 ^ 9 : ℕ))).1 = true :=
  ⟨_, rfl, verify_of_issued (i := ⟨alice.ip, 0, 0 :: firstToken, 240 * 10 ^ 9⟩) (by simp) 0 _ rfl
    (by decide +kernel) _ (by decide +kernel) _ 1⟩

end TokenRun

end Librats.Dht
