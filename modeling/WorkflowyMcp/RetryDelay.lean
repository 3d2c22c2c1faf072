import WorkflowyMcp.Aggregation
import WorkflowyMcp.Lib.Rounding
import WorkflowyMcp.Traffic

/-! The delays between two attempts in machine integers: the seconds that a 429 asks for and the
exponential backoff. A result is missing where the computation panics. -/
namespace WorkflowyMcp

namespace Profile

/-- The result of an operation on an unsigned type of this width. -/
def unsigned (p : Profile) (bits : Nat) (x : Int) : Option Nat :=
  match p with
  | .dev => if 0≤x ∧ x < 2^bits then some x.toNat else none
  | .release => some (x%2^bits).toNat

theorem unsigned_eq (p : Profile) {bits n : Nat} {x : Int} (hx : x = n) (h : n < 2^bits) :
    p.unsigned bits x = some n := by
  have h₀ : 0≤x := by omega
  have hlt : x < 2^bits := by rw [hx]; exact_mod_cast h
  have hn : x.toNat = n := by omega
  cases p with
  | dev => rw [unsigned,if_pos ⟨h₀,hlt⟩,hn]
  | release => rw [unsigned,Int.emod_eq_of_lt h₀ hlt,hn]

theorem unsigned_dev {bits n : Nat} {x : Int} (h : Profile.dev.unsigned bits x = some n) :
    x = n ∧ n < 2^bits := by
  obtain ⟨⟨h₀,hlt⟩,hn⟩ := Option.ite_none_right_eq_some.mp h
  obtain rfl := Option.some.inj hn
  have hx := Int.toNat_of_nonneg h₀
  exact ⟨hx.symm,by exact_mod_cast hx ▸ hlt⟩

end Profile

/-- Within the range of `i64`. -/
def InI64 (x : Int) : Prop := -2^63≤x ∧ x < 2^63

instance (x : Int) : Decidable (InI64 x) := inferInstanceAs (Decidable (_ ∧ _))

/-- `as i64` -/
def asI64 (x : Int) : Int := x.bmod (2^64)

theorem asI64_eq {x : Int} : asI64 x = x ↔ InI64 x := by
  rw [asI64,Int.bmod_eq_iff (by decide)]
  simp only [InI64]
  omega

theorem asI64_of_le {x : Int} (hle : 2^63≤x) (hlt : x < 2^64) : asI64 x = x-2^64 := by
  rw [asI64,Int.bmod_eq_iff (by decide)]
  omega

theorem Profile.i64_eq (p : Profile) {x : Int} (h : InI64 x) : p.i64 x = some x := by
  cases p with
  | dev => exact if_pos h
  | release => exact congrArg some (asI64_eq.mpr h)

theorem Profile.i64_dev {x y : Int} (h : Profile.dev.i64 x = some y) : y = x ∧ InI64 x := by
  obtain ⟨hx,hy⟩ := Option.ite_none_right_eq_some.mp h
  exact ⟨(Option.some.inj hy).symm,hx⟩

/-- What a tenth is as an `f64`, in units of two to the minus fifty-five. -/
def tenth : Nat := 3602879701896397

/-- `(capped as f64 * 0.1) as u64`; the number and the product are both rounded to an `f64`. -/
def jitter (capped : Nat) : Nat := roundTo 53 (roundTo 53 capped*tenth)/2^55

/-- The rounding agrees with the one of the language at the ends of the type. -/
example : [0,9,10,9999,10000,2^53+1,2^63-1,2^64-1].map jitter =
    [0,9,10,9999,10000,2^53+1,2^63-1,2^64-1].map fun n =>
      ((UInt64.ofNat n).toFloat*0.1).toUInt64.toNat := by decide +kernel

theorem jitter_le (capped : Nat) : 8*jitter capped ≤ capped := by
  have hcapped := roundTo_error (by decide : 0 < 53) (n := capped)
  have hproduct := roundTo_error (by decide : 0 < 53) (n := roundTo 53 capped*tenth)
  unfold jitter
  unfold tenth at *
  omega

theorem jitter_mono {n m : Nat} (h : n ≤ m) : jitter n ≤ jitter m :=
  Nat.div_le_div_right (roundTo_mono (by decide)
    (Nat.mul_le_mul_right tenth (roundTo_mono (by decide) h)))

/-- The largest delay that is an `i64` together with its tenth. -/
def MAX_CAPPED : Nat := 8384883669867977983

theorem jittered_lt_iff {capped : Nat} : capped+jitter capped < 2^63 ↔ capped ≤ MAX_CAPPED := by
  have hmax : MAX_CAPPED+jitter MAX_CAPPED = 2^63-1 := by decide +kernel
  have hnext : MAX_CAPPED+1+jitter (MAX_CAPPED+1) = 2^63 := by decide +kernel
  constructor
  · intro h
    by_contra hlt
    have hmono := jitter_mono (show MAX_CAPPED+1 ≤ capped by omega)
    omega
  · intro h
    have hmono := jitter_mono h
    omega

/-- Below that size it is a tenth, rounded down. -/
theorem jitter_eq {capped : Nat} (h : capped < 2^51) : jitter capped = capped/10 := by
  have hcapped : roundTo 53 capped = capped := roundTo_eq (by decide) (by omega)
  have herror := roundTo_error (by decide : 0 < 53) (n := capped*tenth)
  have hlog : (capped*tenth).log2 < 103 := by
    by_cases hz : capped*tenth = 0
    · simp [hz]
    · exact (Nat.log2_lt hz).mpr (by unfold tenth; omega)
  have hdvd : ulp 53 (capped*tenth) ∣ capped/10*2^55 :=
    Nat.dvd_mul_left_of_dvd (Nat.pow_dvd_pow 2 (by omega)) _
  have hle := le_roundTo (by unfold tenth; omega) hdvd
  unfold jitter
  rw [hcapped]
  unfold tenth at *
  omega

namespace RetryDelay

/-- `secs.max(1) * 1000` -/
def parseRetryAfter (p : Profile) (retryAfterSecs : String → Option Nat) (body : String) :
    Option (Option Nat) :=
  match retryAfterSecs body with
  | none => some none
  | some secs => (p.unsigned 64 (max secs 1*1000 : Nat)).map some

/-- The seconds of the body are exact in milliseconds if and only if these are a `u64`. -/
theorem parseRetryAfter_iff (retryAfterSecs : String → Option Nat) (body : String) :
    (∀ p, parseRetryAfter p retryAfterSecs body =
      some (Traffic.parseRetryAfter retryAfterSecs body)) ↔
      ∀ secs∈retryAfterSecs body, secs*1000 < 2^64 := by
  unfold parseRetryAfter Traffic.parseRetryAfter
  cases retryAfterSecs body with
  | none => simp
  | some secs =>
    simp only [Option.map_some,Option.mem_def,Option.some.injEq,forall_eq']
    constructor
    · intro h
      obtain ⟨ms,hms,-⟩ := Option.map_eq_some_iff.mp (h .dev)
      obtain ⟨hms,hlt⟩ := Profile.unsigned_dev hms
      omega
    · intro h p
      have hlt : max secs 1*1000 < 2^64 := by
        obtain hmax | hmax := max_choice secs 1 <;> rw [hmax]
        · exact h
        · decide
      rw [p.unsigned_eq rfl hlt,Option.map_some]

/-- From the jitter on. -/
def addJitter (p : Profile) (capped random : Nat) : Option Nat := do
  let twice ← p.unsigned 64 (2*jitter capped)
  let span ← p.unsigned 64 (twice+1)
  let jitterFactor ← p.i64 (asI64 (random%span : Nat)-asI64 (jitter capped))
  let delay ← p.i64 (asI64 capped+jitterFactor)
  return (max delay 0).toNat

/-- The attempts are a `u32`, the delays are `u64`s. -/
def calculateBackoff (p : Profile) (config : RetryConfig) (attempt random : Nat) : Option Nat := do
  let exponent ← p.unsigned 32 (attempt-1)
  let power ← p.unsigned 64 (2^exponent)
  let exponential ← p.unsigned 64 (config.baseDelayMs*power)
  addJitter p (min exponential config.maxDelayMs) random

/-- The cap on the exponential delay. -/
def capped (config : RetryConfig) (attempt : Nat) : Nat :=
  min (config.baseDelayMs*2^(attempt-1)) config.maxDelayMs

/-- The delay with its jitter, in numbers that do not overflow. -/
def jittered (capped random : Nat) : Nat := capped+random%(2*jitter capped+1)-jitter capped

/-- The power and the exponential delay are in their types, and so is the delay with any jitter. -/
structure Representable (config : RetryConfig) (attempt : Nat) : Prop where
  counted : 1 ≤ attempt
  power : attempt ≤ 64
  exponential : config.baseDelayMs*2^(attempt-1) < 2^64
  jittered : capped config attempt ≤ MAX_CAPPED

theorem addJitter_eq (p : Profile) {capped : Nat} (random : Nat) (h : capped+jitter capped < 2^63) :
    addJitter p capped random = some (jittered capped random) := by
  have hle := jitter_le capped
  have hmod := Nat.mod_lt random (show 0 < 2*jitter capped+1 by omega)
  have htwice : p.unsigned 64 (2*jitter capped) = some (2*jitter capped) :=
    p.unsigned_eq (by push_cast; rfl) (by omega)
  have hspan : p.unsigned 64 ((2*jitter capped : Nat)+1) = some (2*jitter capped+1) :=
    p.unsigned_eq (by push_cast; rfl) (by omega)
  have hrandom : asI64 (random%(2*jitter capped+1) : Nat) = (random%(2*jitter capped+1) : Nat) :=
    asI64_eq.mpr ⟨by omega,by omega⟩
  have hjitter : asI64 (jitter capped) = jitter capped := asI64_eq.mpr ⟨by omega,by omega⟩
  have hcapped : asI64 capped = capped := asI64_eq.mpr ⟨by omega,by omega⟩
  simp only [addJitter,htwice,hspan,hrandom,hjitter,hcapped,Option.bind_eq_bind,Option.bind_some]
  rw [p.i64_eq ⟨by omega,by omega⟩,Option.bind_some,p.i64_eq ⟨by omega,by omega⟩,Option.bind_some,
    jittered]
  exact congrArg some (by omega)

/-- The cast makes a negative number of a cap that is too large, and of the delay with it. -/
theorem lt_of_delay {capped j : Nat} (hcapped : capped < 2^64)
    (hlt : asI64 capped+j < 2^63) (hd : (max (asI64 capped+j) 0).toNat = capped+j) :
    capped+j < 2^63 := by
  by_cases hc : capped < 2^63
  · rw [asI64_eq.mpr ⟨by omega,by omega⟩] at hlt
    omega
  · rw [asI64_of_le (by omega) (by omega)] at hd
    obtain hmax | hmax := max_choice ((capped : Int)-2^64+j) 0 <;> rw [hmax] at hd <;> omega

/-- A debug build takes the largest jitter only if the sum is in the range of `i64`. -/
theorem lt_of_addJitter {capped : Nat} (hcapped : capped < 2^64)
    (h : addJitter .dev capped (2*jitter capped) = some (jittered capped (2*jitter capped))) :
    capped+jitter capped < 2^63 := by
  have hle := jitter_le capped
  simp only [addJitter,jittered,Option.bind_eq_bind,Option.bind_eq_some_iff,Option.pure_def,
    Option.some.injEq] at h
  generalize jitter capped = j at h hle ⊢
  have hsum : capped+2*j-j = capped+j := by omega
  obtain ⟨twice,htwice,span,hspan,factor,hfactor,delay,hdelay,hd⟩ := h
  obtain ⟨htwice,-⟩ := Profile.unsigned_dev htwice
  obtain ⟨hspan,-⟩ := Profile.unsigned_dev hspan
  obtain rfl : span = 2*j+1 := by omega
  have hmod : 2*j%(2*j+1) = 2*j := Nat.mod_eq_of_lt (by omega)
  have hrandom : asI64 (2*j : Nat) = (2*j : Nat) := asI64_eq.mpr ⟨by omega,by omega⟩
  have hjitter : asI64 j = j := asI64_eq.mpr ⟨by omega,by omega⟩
  have hdiff : ((2*j : Nat) : Int)-j = j := by omega
  obtain ⟨hfactor,-⟩ := Profile.i64_dev hfactor
  rw [hmod,hrandom,hjitter,hdiff] at hfactor
  obtain ⟨hdelay,-,hlt⟩ := Profile.i64_dev hdelay
  rw [hfactor] at hdelay hlt
  rw [hdelay,hmod,hsum] at hd
  exact lt_of_delay hcapped hlt hd

variable {config : RetryConfig} {attempt : Nat}

theorem calculateBackoff_dev {random d : Nat}
    (h : calculateBackoff .dev config attempt random = some d) :
    1 ≤ attempt ∧ attempt ≤ 64 ∧ config.baseDelayMs*2^(attempt-1) < 2^64 ∧
      addJitter .dev (capped config attempt) random = some d := by
  simp only [calculateBackoff,Option.bind_eq_bind,Option.bind_eq_some_iff] at h
  obtain ⟨exponent,hexponent,power,hpower,exponential,hexponential,h⟩ := h
  obtain ⟨hexponent,-⟩ := Profile.unsigned_dev hexponent
  obtain ⟨hpower,hlt⟩ := Profile.unsigned_dev hpower
  obtain ⟨hexponential,hexp⟩ := Profile.unsigned_dev hexponential
  obtain rfl : exponent = attempt-1 := by omega
  obtain rfl : power = 2^(attempt-1) := by exact_mod_cast hpower.symm
  obtain rfl : exponential = config.baseDelayMs*2^(attempt-1) := by exact_mod_cast hexponential.symm
  have hpow := (Nat.pow_lt_pow_iff_right (by decide : 1 < 2)).mp hlt
  exact ⟨by omega,by omega,hexp,h⟩

/-- No operation overflows in any build if and only if the attempt is representable. -/
theorem backoff_iff (config : RetryConfig) (attempt : Nat) :
    (∀ p, ∀ random < 2^64, calculateBackoff p config attempt random =
      some (jittered (capped config attempt) random)) ↔ Representable config attempt := by
  constructor
  · intro h
    obtain ⟨hcounted,hpower,hexp,-⟩ := calculateBackoff_dev (h .dev 0 (by decide))
    have hle := jitter_le (capped config attempt)
    have hcapped : capped config attempt < 2^64 := Nat.lt_of_le_of_lt (Nat.min_le_left _ _) hexp
    obtain ⟨-,-,-,hjitter⟩ := calculateBackoff_dev
      (h .dev (2*jitter (capped config attempt)) (by omega))
    exact ⟨hcounted,hpower,hexp,jittered_lt_iff.mp (lt_of_addJitter hcapped hjitter)⟩
  · rintro ⟨hcounted,hpower,hexp,hjit⟩ p random -
    have hpow : 2^(attempt-1) < 2^64 := Nat.pow_lt_pow_right (by decide) (by omega)
    have hexponent : p.unsigned 32 ((attempt : Int)-1) = some (attempt-1) :=
      p.unsigned_eq (by omega) (by omega)
    have hpower : p.unsigned 64 ((2 : Int)^(attempt-1)) = some (2^(attempt-1)) :=
      p.unsigned_eq (by push_cast; rfl) hpow
    have hexponential : p.unsigned 64 (config.baseDelayMs*(2^(attempt-1) : Nat)) =
        some (config.baseDelayMs*2^(attempt-1)) := p.unsigned_eq (by push_cast; rfl) hexp
    simp only [calculateBackoff,hexponent,hpower,hexponential,Option.bind_eq_bind,Option.bind_some]
    exact addJitter_eq p random (jittered_lt_iff.mpr hjit)

/-- Below that cap the delay is the one of the concurrent calls. -/
theorem jittered_eq (random : Nat) (h : config.maxDelayMs < 2^51) :
    jittered (capped config attempt) random =
      WorkflowyMcp.calculateBackoff config attempt random := by
  have hcapped : capped config attempt < 2^51 := Nat.lt_of_le_of_lt (Nat.min_le_right _ _) h
  rw [jittered,jitter_eq hcapped]
  rfl

/-- The default configuration overflows at the fifty-sixth attempt, and makes five. -/
theorem representable_default (attempt : Nat) :
    Representable {} attempt ↔ 1 ≤ attempt ∧ attempt ≤ 55 := by
  constructor
  · rintro ⟨hcounted,-,hexp,-⟩
    refine ⟨hcounted,?_⟩
    by_contra hlate
    have hpow : 2^55 ≤ 2^(attempt-1) := Nat.pow_le_pow_right (by decide) (by omega)
    have hbase : RETRY_BASE_DELAY_MS = 1000 := rfl
    simp only [hbase] at hexp
    omega
  · rintro ⟨hcounted,hle⟩
    have hpow : 2^(attempt-1) ≤ 2^54 := Nat.pow_le_pow_right (by decide) (by omega)
    have hcapped : capped {} attempt ≤ 10000 := Nat.min_le_right _ _
    have hbase : RETRY_BASE_DELAY_MS = 1000 := rfl
    exact ⟨hcounted,by omega,by simp only [hbase]; omega,hcapped.trans (by decide)⟩

end RetryDelay
end WorkflowyMcp
