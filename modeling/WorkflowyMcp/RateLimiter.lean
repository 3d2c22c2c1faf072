import Mathlib.Algebra.Order.Field.Rat
import Mathlib.Data.Rat.Floor
import Mathlib.Tactic.Linarith
import Mathlib.Tactic.NormNum
import Mathlib.Tactic.Positivity
import Mathlib.Tactic.Ring
import WorkflowyMcp.Lib.Runs

/-! The token bucket that paces requests. Tokens, rates and instants are rationals, the latter
in seconds; a call carries the instant it reads. A wait is a `Duration`, in whole nanoseconds. -/
namespace WorkflowyMcp

def RATE_LIMIT_RPS : Nat := 10
def RATE_LIMIT_BURST : Nat := 20

structure RateLimitConfig where
  requestsPerSecond : Nat := RATE_LIMIT_RPS
  burstSize : Nat := RATE_LIMIT_BURST
deriving DecidableEq, Repr

def MIN_WAIT : Nat := 500000
def CANCEL_POLL_INTERVAL : Nat := 50000000

def AIMD_DECREASE_FACTOR : ℚ := 1/2
def AIMD_RECOVERY_STEP : ℚ := 1/10
def AIMD_MIN_RATE : ℚ := 1

structure TokenBucket where
  tokens : ℚ
  capacity : ℚ
  refillRate : ℚ
  configuredRate : ℚ
  lastRefill : ℚ
deriving DecidableEq, Repr

namespace TokenBucket

def new (config : RateLimitConfig) (now : ℚ) : TokenBucket :=
  ⟨config.burstSize,config.burstSize,config.requestsPerSecond,config.requestsPerSecond,now⟩

/- An instant before the last refill counts as no time passed. -/
def refill (b : TokenBucket) (now : ℚ) : TokenBucket :=
  { b with
    tokens := min (b.tokens+max 0 (now-b.lastRefill)*b.refillRate) b.capacity
    lastRefill := now }

/-- To the nearest natural number, and to the even one of two. -/
def roundEven (x : ℚ) : Nat :=
  if 1/2 < x-⌊x⌋₊ ∨ x-⌊x⌋₊ = 1/2 ∧ ⌊x⌋₊%2 = 1 then ⌊x⌋₊+1 else ⌊x⌋₊

/- `Duration::from_secs_f64`, which rounds to whole nanoseconds. -/
def fromSecs (seconds : ℚ) : Nat := roundEven (seconds*10^9)

/-- A token is taken, or the wait for the next one is told. -/
def tryConsumeOrWait (b : TokenBucket) (now : ℚ) : Except Nat Unit × TokenBucket :=
  let b := b.refill now
  if 1 ≤ b.tokens then (.ok (),{ b with tokens := b.tokens-1 })
  else (.error (fromSecs ((1-b.tokens)/b.refillRate)),b)

/-- What `acquire` sleeps before it tries again. -/
def acquireSleep (wait : Nat) : Nat := max wait MIN_WAIT

/-- What `acquire_cancellable` sleeps before it tries again. -/
def acquireCancellableSleep (wait : Nat) : Nat := min (max wait MIN_WAIT) CANCEL_POLL_INTERVAL

def drain (b : TokenBucket) (now : ℚ) : TokenBucket :=
  { b with
    tokens := 0
    lastRefill := now
    refillRate := max (b.refillRate*AIMD_DECREASE_FACTOR) AIMD_MIN_RATE }

def reward (b : TokenBucket) : TokenBucket :=
  if b.refillRate<b.configuredRate
  then { b with refillRate := min (b.refillRate+AIMD_RECOVERY_STEP) b.configuredRate }
  else b

inductive LimiterOp where
  | tryConsumeOrWait
  | drain
  | reward
deriving DecidableEq, Repr

structure LimiterCall where
  time : ℚ
  op : LimiterOp
deriving DecidableEq, Repr

def step (b : TokenBucket) (c : LimiterCall) : TokenBucket :=
  match c.op with
  | .tryConsumeOrWait => (b.tryConsumeOrWait c.time).2
  | .drain => b.drain c.time
  | .reward => b.reward

def grants (b : TokenBucket) (c : LimiterCall) : Bool :=
  match c.op with
  | .tryConsumeOrWait => (b.tryConsumeOrWait c.time).1.isOk
  | .drain | .reward => false

/-- The clock never goes back. -/
def Chronological : ℚ → List LimiterCall → Prop
  | _, [] => True
  | now, c::calls => now ≤ c.time ∧ Chronological c.time calls

instance Chronological.decidable : (now : ℚ) → (calls : List LimiterCall) →
    Decidable (Chronological now calls)
  | _, [] => .isTrue trivial
  | _, c::calls => @instDecidableAnd _ _ inferInstance (Chronological.decidable c.time calls)

/-- The tokens taken at instants that satisfy `p`. -/
def acquired (p : ℚ → Bool) : TokenBucket → List LimiterCall → Nat
  | _, [] => 0
  | b, c::calls => (b.grants c && p c.time).toNat+acquired p (b.step c) calls

def between (t₁ t₂ : ℚ) (t : ℚ) : Bool := t₁ ≤ t ∧ t ≤ t₂

/-- What every call keeps. -/
structure Sound (config : RateLimitConfig) (b : TokenBucket) : Prop where
  capacity : b.capacity = config.burstSize
  configuredRate : b.configuredRate = config.requestsPerSecond
  tokens_nonneg : 0 ≤ b.tokens
  tokens_le : b.tokens ≤ config.burstSize
  one_le_rate : 1 ≤ b.refillRate
  rate_le : b.refillRate ≤ config.requestsPerSecond

variable {config : RateLimitConfig} {b : TokenBucket}

theorem Sound.new (hrate : 1 ≤ config.requestsPerSecond) (now : ℚ) :
    Sound config (new config now) where
  capacity := rfl
  configuredRate := rfl
  tokens_nonneg := Nat.cast_nonneg _
  tokens_le := le_refl _
  one_le_rate := Nat.one_le_cast.mpr hrate
  rate_le := le_refl _

theorem Sound.refill (h : Sound config b) (now : ℚ) : Sound config (b.refill now) where
  capacity := h.capacity
  configuredRate := h.configuredRate
  tokens_nonneg := by
    have hrate := h.one_le_rate
    have htokens := h.tokens_nonneg
    refine le_min ?_ (h.capacity ▸ Nat.cast_nonneg _)
    have hadd : 0 ≤ max 0 (now-b.lastRefill)*b.refillRate :=
      mul_nonneg (le_max_left _ _) (by linarith)
    linarith
  tokens_le := h.capacity ▸ min_le_right _ _
  one_le_rate := h.one_le_rate
  rate_le := h.rate_le

theorem Sound.tryConsumeOrWait (h : Sound config b) (now : ℚ) :
    Sound config (b.tryConsumeOrWait now).2 := by
  have hr := h.refill now
  unfold TokenBucket.tryConsumeOrWait
  dsimp only
  split
  · rename_i hone
    refine ⟨hr.capacity,hr.configuredRate,?_,?_,hr.one_le_rate,hr.rate_le⟩
    · exact sub_nonneg.mpr hone
    · have hle := hr.tokens_le
      show (b.refill now).tokens-1 ≤ config.burstSize
      linarith
  · exact hr

theorem Sound.drain (h : Sound config b) (now : ℚ) : Sound config (b.drain now) where
  capacity := h.capacity
  configuredRate := h.configuredRate
  tokens_nonneg := le_refl _
  tokens_le := Nat.cast_nonneg _
  one_le_rate := le_max_right _ _
  rate_le := by
    have hone := h.one_le_rate
    have hrate := h.rate_le
    refine max_le ?_ (hone.trans hrate)
    show b.refillRate*(1/2) ≤ config.requestsPerSecond
    linarith

theorem Sound.reward (h : Sound config b) : Sound config b.reward := by
  unfold TokenBucket.reward
  split
  · refine ⟨h.capacity,h.configuredRate,h.tokens_nonneg,h.tokens_le,?_,?_⟩
    · have hone := h.one_le_rate
      have hrate := h.rate_le
      refine le_min ?_ (h.configuredRate ▸ hone.trans hrate)
      show 1 ≤ b.refillRate+1/10
      linarith
    · exact h.configuredRate ▸ min_le_right _ _
  · exact h

theorem Sound.step (h : Sound config b) (c : LimiterCall) : Sound config (b.step c) := by
  unfold TokenBucket.step
  split
  · exact h.tryConsumeOrWait c.time
  · exact h.drain c.time
  · exact h.reward

theorem Sound.run (h : Sound config b) (calls : List LimiterCall) :
    Sound config (Runs.run TokenBucket.step b calls) :=
  Runs.run_keeps (fun _ c h => h.step c) h calls

theorem roundEven_le {x : ℚ} (h : 0 ≤ x) : (roundEven x : ℚ) ≤ x+1/2 := by
  have hfloor := Nat.floor_le h
  unfold roundEven
  split
  · rename_i hup
    push_cast
    rcases hup with hup | ⟨hup,-⟩ <;> linarith
  · linarith

theorem le_roundEven {x : ℚ} : x-1/2 ≤ (roundEven x : ℚ) := by
  have hfloor := Nat.lt_floor_add_one x
  unfold roundEven
  split
  · push_cast
    linarith
  · rename_i hdown
    have hrest := not_lt.mp (not_or.mp hdown).1
    linarith

/-- A refused caller lacks a part of a token that comes within a second. -/
theorem wait_eq (h : Sound config b) {now : ℚ} {wait : Nat}
    (hw : (b.tryConsumeOrWait now).1 = .error wait) :
    ∃ missing : ℚ, 0 < missing ∧ missing ≤ 1 ∧
      (b.refill now).tokens+missing*(b.refill now).refillRate = 1 ∧ wait = fromSecs missing := by
  have hr := h.refill now
  unfold TokenBucket.tryConsumeOrWait at hw
  dsimp only at hw
  split at hw
  · cases hw
  · rename_i hless
    obtain rfl := Except.error.inj hw
    have hone := hr.one_le_rate
    have htokens := hr.tokens_nonneg
    have hpos : 0<(b.refill now).refillRate := by linarith
    have hlack : 0<1-(b.refill now).tokens := by linarith
    refine ⟨_,div_pos hlack hpos,(div_le_one hpos).mpr (by linarith),?_,rfl⟩
    rw [div_mul_cancel₀ _ hpos.ne']
    ring

/-- It is told that time to within half a nanosecond, and sleeps for some time in any case. -/
theorem wait_bounds (h : Sound config b) {now : ℚ} {wait : Nat}
    (hw : (b.tryConsumeOrWait now).1 = .error wait) :
    (∃ missing : ℚ, 0 < missing ∧ missing ≤ 1 ∧
      (b.refill now).tokens+missing*(b.refill now).refillRate = 1 ∧
      |(wait : ℚ)-missing*10^9| ≤ 1/2) ∧ wait ≤ 10^9 ∧
    MIN_WAIT ≤ acquireSleep wait ∧ MIN_WAIT ≤ acquireCancellableSleep wait := by
  obtain ⟨missing,hpos,hle,hfill,rfl⟩ := wait_eq h hw
  have hup : (fromSecs missing : ℚ) ≤ missing*10^9+1/2 := roundEven_le (by positivity)
  have hdown : missing*10^9-1/2 ≤ (fromSecs missing : ℚ) := le_roundEven
  refine ⟨⟨missing,hpos,hle,hfill,abs_le.mpr ⟨by linarith,by linarith⟩⟩,?_,le_max_right _ _,
    le_min (le_max_right _ _) (by decide)⟩
  have hlt : (fromSecs missing : ℚ) < ((10^9+1 : Nat) : ℚ) := by
    push_cast
    linarith
  exact Nat.lt_succ_iff.mp (by exact_mod_cast hlt)

theorem lastRefill_tryConsumeOrWait (now : ℚ) :
    (b.tryConsumeOrWait now).2.lastRefill = now := by
  unfold tryConsumeOrWait
  dsimp only
  split <;> rfl

theorem lastRefill_step (c : LimiterCall) :
    (b.step c).lastRefill = c.time ∨ (b.step c).lastRefill = b.lastRefill := by
  unfold step
  split
  · exact .inl (lastRefill_tryConsumeOrWait c.time)
  · exact .inl rfl
  · right
    unfold reward
    split <;> rfl

theorem lastRefill_le {now : ℚ} {c : LimiterCall} (hl : b.lastRefill ≤ now) (hc : now ≤ c.time) :
    (b.step c).lastRefill ≤ c.time := by
  rcases lastRefill_step (b := b) c with h | h
  · exact h.le
  · exact h ▸ hl.trans hc

/-- What the bucket may have handed out by `t` at the configured rate. -/
def allowance (config : RateLimitConfig) (b : TokenBucket) (t : ℚ) : ℚ :=
  b.tokens+config.requestsPerSecond*(t-b.lastRefill)

theorem tokens_tryConsumeOrWait (now : ℚ) :
    ((b.tryConsumeOrWait now).1.isOk.toNat : ℚ)+(b.tryConsumeOrWait now).2.tokens =
      (b.refill now).tokens := by
  unfold TokenBucket.tryConsumeOrWait
  dsimp only
  split
  · show ((1 : Nat) : ℚ)+((b.refill now).tokens-1) = _
    push_cast
    ring
  · show ((0 : Nat) : ℚ)+(b.refill now).tokens = _
    push_cast
    ring

theorem tokens_refill_le (h : Sound config b) {now : ℚ} (hl : b.lastRefill ≤ now) :
    (b.refill now).tokens ≤ b.tokens+config.requestsPerSecond*(now-b.lastRefill) := by
  have hrate := h.rate_le
  have helapsed : max 0 (now-b.lastRefill) = now-b.lastRefill :=
    max_eq_right (sub_nonneg.mpr hl)
  have hmul : (now-b.lastRefill)*b.refillRate ≤ config.requestsPerSecond*(now-b.lastRefill) := by
    rw [mul_comm]
    exact mul_le_mul_of_nonneg_right hrate (sub_nonneg.mpr hl)
  refine (min_le_left _ _).trans ?_
  rw [helapsed]
  linarith

/-- A call pays for its token out of the allowance. -/
theorem allowance_step (h : Sound config b) {now t : ℚ} {c : LimiterCall}
    (hl : b.lastRefill ≤ now) (hc : now ≤ c.time) :
    ((b.grants c).toNat : ℚ)+(b.step c).allowance config t ≤ b.allowance config t := by
  have hlc : b.lastRefill ≤ c.time := hl.trans hc
  obtain ⟨time,op⟩ := c
  cases op with
  | tryConsumeOrWait =>
    have hpaid := tokens_tryConsumeOrWait (b := b) time
    have hfill := tokens_refill_le h hlc
    simp only [allowance,grants,step,lastRefill_tryConsumeOrWait]
    simp only at hfill
    linarith
  | drain =>
    have htokens := h.tokens_nonneg
    have hmul : (0 : ℚ) ≤ config.requestsPerSecond*(time-b.lastRefill) :=
      mul_nonneg (Nat.cast_nonneg _) (sub_nonneg.mpr hlc)
    simp only [allowance,grants,step,drain,Bool.toNat_false,Nat.cast_zero]
    linarith
  | reward =>
    simp only [allowance,grants,step,reward,Bool.toNat_false,Nat.cast_zero,zero_add]
    split <;> rfl

theorem acquired_eq_zero {p : ℚ → Bool} {calls : List LimiterCall}
    (h : ∀ c∈calls, p c.time = false) : acquired p b calls = 0 := by
  induction calls generalizing b with
  | nil => rfl
  | cons c calls ih =>
    obtain ⟨hc,hcalls⟩ := List.forall_mem_cons.mp h
    simp [acquired,hc,ih hcalls]

theorem Chronological.le {now : ℚ} {calls : List LimiterCall} (h : Chronological now calls) :
    ∀ c∈calls, now ≤ c.time := by
  induction calls generalizing now with
  | nil => simp
  | cons c calls ih =>
    exact List.forall_mem_cons.mpr ⟨h.1,fun d hd => h.1.trans (ih h.2 d hd)⟩

theorem acquired_after {now t₂ : ℚ} {calls : List LimiterCall} (h : Chronological now calls)
    (ht : t₂<now) (t₁ : ℚ) : acquired (between t₁ t₂) b calls = 0 :=
  acquired_eq_zero fun c hc => by
    have hnow := h.le c hc
    have hlate : ¬c.time ≤ t₂ := by linarith
    simp [between,hlate]

/-- The tokens taken by `t₂` are within the allowance for `t₂`. -/
theorem acquired_le_allowance (h : Sound config b) (t₁ : ℚ) {now t₂ : ℚ} {calls : List LimiterCall}
    (hcalls : Chronological now calls) (hl : b.lastRefill ≤ now) (ht : now ≤ t₂) :
    (acquired (between t₁ t₂) b calls : ℚ) ≤ b.allowance config t₂ := by
  induction calls generalizing b now with
  | nil =>
    have htokens := h.tokens_nonneg
    have hmul : (0 : ℚ) ≤ config.requestsPerSecond*(t₂-b.lastRefill) :=
      mul_nonneg (Nat.cast_nonneg _) (sub_nonneg.mpr (hl.trans ht))
    simp only [acquired,Nat.cast_zero,allowance]
    linarith
  | cons c calls ih =>
    obtain ⟨hc,hrest⟩ := hcalls
    have hpaid := allowance_step h (t := t₂) hl hc
    have hhit : ((b.grants c && between t₁ t₂ c.time).toNat : ℚ) ≤ (b.grants c).toNat := by
      cases b.grants c <;> cases between t₁ t₂ c.time <;> simp
    by_cases hct : c.time ≤ t₂
    · have hih := ih (h.step c) hrest (lastRefill_le hl hc) hct
      simp only [acquired,Nat.cast_add]
      linarith
    · have hlate : between t₁ t₂ c.time = false := by simp [between,hct]
      have hnone := acquired_after (b := b.step c) hrest (not_le.mp hct) t₁
      have htokens := h.tokens_nonneg
      have hmul : (0 : ℚ) ≤ config.requestsPerSecond*(t₂-b.lastRefill) :=
        mul_nonneg (Nat.cast_nonneg _) (sub_nonneg.mpr (hl.trans ht))
      simp only [acquired,hlate,hnone,Bool.and_false,Bool.toNat_false,Nat.cast_zero,add_zero,
        allowance]
      linarith

/-- In any interval at most a full bucket and the configured rate are handed out. -/
theorem acquired_le (h : Sound config b) {now t₁ t₂ : ℚ} {calls : List LimiterCall}
    (hcalls : Chronological now calls) (hl : b.lastRefill ≤ now) (ht : t₁ ≤ t₂) :
    (acquired (between t₁ t₂) b calls : ℚ) ≤
      config.burstSize+config.requestsPerSecond*(t₂-t₁) := by
  have hroom : (0 : ℚ) ≤ config.requestsPerSecond*(t₂-t₁) :=
    mul_nonneg (Nat.cast_nonneg _) (sub_nonneg.mpr ht)
  have hcap : (0 : ℚ) ≤ config.burstSize := Nat.cast_nonneg _
  induction calls generalizing b now with
  | nil =>
    simp only [acquired,Nat.cast_zero]
    linarith
  | cons c calls ih =>
    obtain ⟨hc,hrest⟩ := hcalls
    have hih := ih (h.step c) hrest (lastRefill_le hl hc)
    by_cases hhit : (b.grants c && between t₁ t₂ c.time) = true
    · -- the first token of the interval leaves at most a full bucket behind
      obtain ⟨time,op⟩ := c
      obtain ⟨hgrant,hin⟩ := Bool.and_eq_true_iff.mp hhit
      obtain ⟨h₁,h₂⟩ : t₁ ≤ time ∧ time ≤ t₂ := by simpa [between] using hin
      cases op with
      | drain | reward => cases hgrant
      | tryConsumeOrWait =>
        have hpaid := tokens_tryConsumeOrWait (b := b) time
        have hfull := (h.refill time).tokens_le
        have hrest' := acquired_le_allowance (h.step _) t₁ hrest
          (lastRefill_le hl hc) h₂
        have hgrant : (b.tryConsumeOrWait time).1.isOk = true := hgrant
        have hlater : (config.requestsPerSecond : ℚ)*(t₂-time) ≤
            config.requestsPerSecond*(t₂-t₁) :=
          mul_le_mul_of_nonneg_left (by linarith) (Nat.cast_nonneg _)
        simp only [acquired,hhit,Bool.toNat_true,Nat.cast_add,Nat.cast_one]
        simp only [allowance,step,lastRefill_tryConsumeOrWait] at hrest' ⊢
        simp only [hgrant,Bool.toNat_true,Nat.cast_one] at hpaid
        linarith
    · rw [Bool.not_eq_true] at hhit
      simpa only [acquired,hhit,Bool.toNat_false,zero_add] using hih

/-- At every moment of a run the bucket is within its bounds, and a refused caller is told to
within half a nanosecond how long the missing part of a token takes and sleeps for half a
millisecond at least; in every interval the tokens handed out are bounded. -/
theorem limiter_bounded (config : RateLimitConfig) (start : ℚ) (calls : List LimiterCall)
    (hrate : 1 ≤ config.requestsPerSecond) (hclock : Chronological start calls) :
    Runs.Always step (fun b => (0 ≤ b.tokens ∧ b.tokens ≤ config.burstSize) ∧
        (1 ≤ b.refillRate ∧ b.refillRate ≤ config.requestsPerSecond) ∧
        ∀ now wait, (b.tryConsumeOrWait now).1 = .error wait →
          (∃ missing : ℚ, 0 < missing ∧ missing ≤ 1 ∧
            (b.refill now).tokens+missing*(b.refill now).refillRate = 1 ∧
            |(wait : ℚ)-missing*10^9| ≤ 1/2) ∧ wait ≤ 10^9 ∧
          MIN_WAIT ≤ acquireSleep wait ∧ MIN_WAIT ≤ acquireCancellableSleep wait)
      (new config start) calls ∧
    ∀ t₁ t₂, t₁ ≤ t₂ → (acquired (between t₁ t₂) (new config start) calls : ℚ) ≤
      config.burstSize+config.requestsPerSecond*(t₂-t₁) := by
  have h := Sound.new hrate start
  refine ⟨fun pre _ => ?_,fun t₁ t₂ ht => acquired_le h hclock (le_refl start) ht⟩
  have hs := h.run pre
  exact ⟨⟨hs.tokens_nonneg,hs.tokens_le⟩,⟨hs.one_le_rate,hs.rate_le⟩,
    fun now wait hw => wait_bounds hs hw⟩

/-- A third of a nanosecond before the next token the caller is told to wait for no time. -/
theorem refused_without_wait :
    let b := (new ⟨3,1⟩ 0).step ⟨0,.tryConsumeOrWait⟩
    (new ⟨3,1⟩ 0).grants ⟨0,.tryConsumeOrWait⟩ = true ∧
      (b.tryConsumeOrWait (333333333/10^9)).1 = .error 0 := by
  constructor <;> decide +kernel

theorem limiter_bounded_burst :
    let calls := [⟨0,.tryConsumeOrWait⟩,⟨0,.tryConsumeOrWait⟩,⟨1,.drain⟩,⟨2,.tryConsumeOrWait⟩]
    acquired (between 0 2) (new ⟨2,1⟩ 0) calls = 2 ∧
      ((2 : Nat) : ℚ) ≤ ((1 : Nat) : ℚ)+((2 : Nat) : ℚ)*(2-0) := by
  intro calls
  have hcount : acquired (between 0 2) (new ⟨2,1⟩ 0) calls = 2 := by decide +kernel
  have hbound := (limiter_bounded ⟨2,1⟩ 0 calls (by decide) (by decide +kernel)).2 0 2
    (by norm_num)
  rw [hcount] at hbound
  exact ⟨hcount,hbound⟩

/-- Enough successes bring the rate back to the configured one. -/
theorem rewards_restore (h : Sound config b) (now : ℚ) :
    Runs.run step b (List.replicate (10*config.requestsPerSecond) ⟨now,.reward⟩) =
      { b with refillRate := config.requestsPerSecond } := by
  have hsteps (n : Nat) : Runs.run step b (List.replicate n ⟨now,.reward⟩) =
      { b with refillRate := min (b.refillRate+n/10) config.requestsPerSecond } := by
    induction n with
    | zero => simp [h.rate_le]
    | succ n ih =>
      rw [List.replicate_succ',Runs.run_concat,ih]
      have hc := h.configuredRate
      simp only [step,reward,hc]
      split
      · rename_i hless
        have hx : b.refillRate+n/10<config.requestsPerSecond := by simpa using hless
        have hnext : b.refillRate+n/10+AIMD_RECOVERY_STEP = b.refillRate+((n+1 : Nat) : ℚ)/10 := by
          rw [AIMD_RECOVERY_STEP]
          push_cast
          ring
        rw [min_eq_left hx.le,hnext]
      · rename_i hfull
        rw [min_eq_right (by simpa using hfull),min_eq_right]
        have hle : (config.requestsPerSecond : ℚ) ≤ b.refillRate+n/10 := by simpa using hfull
        push_cast
        linarith
  rw [hsteps,min_eq_right]
  have hone := h.one_le_rate
  push_cast
  linarith

theorem grants_tryConsumeOrWait (b : TokenBucket) (now : ℚ) (h : 1 ≤ (b.refill now).tokens) :
    b.grants ⟨now,.tryConsumeOrWait⟩ = true ∧
      b.step ⟨now,.tryConsumeOrWait⟩ = { b.refill now with tokens := (b.refill now).tokens-1 } := by
  simp [grants,step,tryConsumeOrWait,h,Except.isOk,Except.toBool]

theorem chronological_replicate {now : ℚ} {op : LimiterOp} (n : Nat) {calls : List LimiterCall}
    (h : Chronological now calls) :
    Chronological now (List.replicate n ⟨now,op⟩++calls) := by
  induction n with
  | zero => exact h
  | succ n ih => exact ⟨le_refl now,ih⟩

theorem acquired_rewards (p : ℚ → Bool) (now : ℚ) (n : Nat) (calls : List LimiterCall) :
    acquired p b (List.replicate n ⟨now,.reward⟩++calls) =
      acquired p (Runs.run step b (List.replicate n ⟨now,.reward⟩)) calls := by
  induction n generalizing b with
  | zero => rfl
  | succ n ih =>
    simp only [List.replicate_succ,List.cons_append,acquired,Runs.run_cons,grants,Bool.false_and,
      Bool.toNat_false,zero_add]
    exact ih

/-- The traffic that may follow a 429 with its retry window: rewards for requests in flight, then
two tokens at once. -/
def resumption (config : RateLimitConfig) (clear resume : ℚ) : List LimiterCall :=
  List.replicate (10*config.requestsPerSecond) ⟨clear,.reward⟩++
    [⟨resume,.tryConsumeOrWait⟩,⟨resume,.tryConsumeOrWait⟩]

theorem acquired_resumption (h : Sound config b) (t clear resume : ℚ) {p : ℚ → Bool}
    (hresume : t ≤ resume) (hburst : 2 ≤ config.burstSize)
    (hfill : 2 ≤ (resume-t)*config.requestsPerSecond) (hp : p resume = true) :
    acquired p (b.drain t) (resumption config clear resume) = 2 := by
  have hburst : (2 : ℚ) ≤ config.burstSize := by exact_mod_cast hburst
  rw [resumption,acquired_rewards,rewards_restore (h.drain t)]
  set r : TokenBucket := { b.drain t with refillRate := config.requestsPerSecond } with hr
  have htokens : 2 ≤ (r.refill resume).tokens := by
    refine le_min ?_ (h.capacity ▸ hburst)
    show 2 ≤ 0+max 0 (resume-t)*config.requestsPerSecond
    rw [max_eq_right (sub_nonneg.mpr hresume),zero_add]
    exact hfill
  obtain ⟨hfirst,hnext⟩ := grants_tryConsumeOrWait r resume (by linarith)
  set s : TokenBucket := { r.refill resume with tokens := (r.refill resume).tokens-1 } with hs
  have hleft : 1 ≤ (s.refill resume).tokens := by
    have hone : 1 ≤ (r.refill resume).tokens-1 := by linarith
    have hcap : 1 ≤ b.capacity := by
      rw [h.capacity]
      linarith
    refine le_min ?_ hcap
    show 1 ≤ (r.refill resume).tokens-1+max 0 (resume-resume)*config.requestsPerSecond
    rw [sub_self,max_self,zero_mul,add_zero]
    exact hone
  obtain ⟨hsecond,-⟩ := grants_tryConsumeOrWait s resume hleft
  simp only [acquired,hfirst,hnext,hsecond,hp,Bool.and_true,Bool.toNat_true]

theorem chronological_resumption (config : RateLimitConfig) {t clear resume : ℚ}
    (hrate : 1 ≤ config.requestsPerSecond) (hclear : t ≤ clear) (hresume : clear ≤ resume) :
    Chronological t (resumption config clear resume) := by
  have hend : Chronological clear (resumption config clear resume) :=
    chronological_replicate _ ⟨hresume,le_refl _,trivial⟩
  rw [resumption] at hend ⊢
  cases hn : 10*config.requestsPerSecond with
  | zero => omega
  | succ n =>
    rw [hn] at hend
    exact ⟨hclear,hend.2⟩

theorem acquired_resumption_early (config : RateLimitConfig) {clear resume : ℚ}
    (hresume : clear ≤ resume) :
    acquired (fun time => time<clear) b (resumption config clear resume) = 0 := by
  refine acquired_eq_zero fun c hc => ?_
  rcases List.mem_append.mp hc with hc | hc
  · rw [List.eq_of_mem_replicate hc]
    simp
  · have htime : c.time = resume := by
      simp only [List.mem_cons,List.not_mem_nil,or_false,or_self] at hc
      rw [hc]
    simp [htime,hresume]

/-- There is an instant at which two tokens are there, but which is before the rate would hand out
a second one. -/
theorem exists_two_early {rate R : ℚ} (hrate : 0<rate) (hfast : 1<rate*R) :
    ∃ δ : ℚ, 0 ≤ δ ∧ 2 ≤ rate*(R+δ) ∧ rate*δ<1 := by
  rcases le_total 2 (rate*R) with htwo | htwo
  · exact ⟨0,le_refl 0,by linarith,by linarith⟩
  · have hδ : rate*((2-rate*R)/rate) = 2-rate*R := mul_div_cancel₀ _ hrate.ne'
    refine ⟨(2-rate*R)/rate,div_nonneg (by linarith) hrate.le,?_,?_⟩
    · rw [mul_add,hδ]
      linarith
    · rw [hδ]
      linarith

/-- After a 429 at `t` with retry window `R`, traffic resumes at the configured rate whatever the
calls are, if and only if the bucket holds one token at most or cannot gain a second one within
the window. -/
theorem resumes_sustained_iff (config : RateLimitConfig) (start t R : ℚ)
    (calls : List LimiterCall) (hrate : 1 ≤ config.requestsPerSecond) (hR : 0 ≤ R) :
    let b := (Runs.run step (new config start) calls).drain t
    (∀ later δ, 0 ≤ δ → Chronological t later →
        acquired (fun time => time<t+R) b later = 0 →
        (acquired (between (t+R) (t+R+δ)) b later : ℚ) ≤ 1+config.requestsPerSecond*δ) ↔
      config.burstSize ≤ 1 ∨ config.requestsPerSecond*R ≤ 1 := by
  intro b
  have h := (Sound.new hrate start).run calls
  have hb : Sound config b := h.drain t
  have hpos : (0 : ℚ)<config.requestsPerSecond := by exact_mod_cast hrate
  constructor
  · intro hall
    by_contra hno
    obtain ⟨hburst,hfast⟩ := not_or.mp hno
    obtain ⟨δ,hδ,hfill,hsoon⟩ := exists_two_early hpos (not_le.mp hfast)
    have hresume : t+R ≤ t+R+δ := le_add_of_nonneg_right hδ
    have hcalls := chronological_resumption config hrate (le_add_of_nonneg_right hR) hresume
    have hquiet := acquired_resumption_early (b := b) config hresume
    have htwo := acquired_resumption h t (t+R) (t+R+δ)
      (p := between (t+R) (t+R+δ)) (by linarith) (by omega)
      (by rw [show t+R+δ-t = R+δ by ring,mul_comm]; exact hfill) (by simp [between,hδ])
    have hle := hall _ δ hδ hcalls hquiet
    rw [htwo] at hle
    push_cast at hle
    linarith
  · rintro (hburst | hslow) later δ hδ hlater -
    · have hle := acquired_le hb hlater (le_refl t) (show t+R ≤ t+R+δ by linarith)
      have hone : (config.burstSize : ℚ) ≤ 1 := by exact_mod_cast hburst
      rw [show t+R+δ-(t+R) = δ by ring] at hle
      linarith
    · have hle := acquired_le_allowance hb (t+R) hlater (le_refl t)
        (show t ≤ t+R+δ by linarith)
      have hroom : b.allowance config (t+R+δ) =
          config.requestsPerSecond*R+config.requestsPerSecond*δ := by
        show 0+config.requestsPerSecond*(t+R+δ-t) = _
        ring
      linarith

theorem resumes_sustained_unit_burst :
    acquired (between 3 4) ((new ⟨5,1⟩ 0).drain 1)
      [⟨3,.tryConsumeOrWait⟩,⟨3,.tryConsumeOrWait⟩,⟨4,.tryConsumeOrWait⟩] = 2 ∧
    ((2 : Nat) : ℚ) ≤ 1+((5 : Nat) : ℚ)*1 := by
  have hcount : acquired (between 3 4) ((new ⟨5,1⟩ 0).drain 1)
      [⟨3,.tryConsumeOrWait⟩,⟨3,.tryConsumeOrWait⟩,⟨4,.tryConsumeOrWait⟩] = 2 := by
    decide +kernel
  have hbound := (resumes_sustained_iff ⟨5,1⟩ 0 1 2 [] (by decide) (by norm_num)).mpr
    (.inl (le_refl 1)) [⟨3,.tryConsumeOrWait⟩,⟨3,.tryConsumeOrWait⟩,⟨4,.tryConsumeOrWait⟩] 1
    (by norm_num) (by decide +kernel) (by decide +kernel)
  have hend : (1 : ℚ)+2+1 = 4 := by norm_num
  have hstart : (1 : ℚ)+2 = 3 := by norm_num
  rw [hend,hstart] at hbound
  exact ⟨hcount,hcount ▸ hbound⟩

/-- By default: after a 429 with a window of 26 seconds the whole burst goes out at once. -/
theorem burst_after_window :
    let b := (new {} 0).drain 0
    let later := List.replicate 20 (LimiterCall.mk 26 .tryConsumeOrWait)
    Chronological 0 later ∧ acquired (fun time => time<0+26) b later = 0 ∧
      acquired (between (0+26) (0+26+0)) b later = 20 ∧
      ¬((20 : Nat) : ℚ) ≤ 1+(RATE_LIMIT_RPS : ℚ)*0 := by
  decide +kernel

end TokenBucket
end WorkflowyMcp
