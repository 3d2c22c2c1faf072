import Mathlib.Algebra.Ring.Nat
import Mathlib.Tactic.Linarith
import Mathlib.Tactic.Ring

/-! Natural numbers rounded to their leading binary digits: to the nearest, and to the even one of
two. -/
namespace WorkflowyMcp

/-- What the last of the digits that are kept counts. -/
def ulp (bits n : Nat) : Nat := 2^(n.log2+1-bits)

def roundTo (bits n : Nat) : Nat :=
  let q := n/ulp bits n
  let r := n%ulp bits n
  if ulp bits n < 2*r ∨ 2*r = ulp bits n ∧ q%2 = 1 then (q+1)*ulp bits n else q*ulp bits n

variable {bits n m : Nat}

theorem ulp_pos : 0 < ulp bits n := Nat.two_pow_pos _

theorem roundTo_le : 2*roundTo bits n ≤ 2*n+ulp bits n := by
  have hn := Nat.div_add_mod' n (ulp bits n)
  unfold roundTo
  simp only
  split
  · rw [Nat.add_mul,Nat.one_mul]
    omega
  · omega

theorem le_roundTo (h : m ≤ n) (hm : ulp bits n ∣ m) : m ≤ roundTo bits n := by
  obtain ⟨k,rfl⟩ := hm
  have hq : k ≤ n/ulp bits n := (Nat.le_div_iff_mul_le ulp_pos).mpr (by rwa [Nat.mul_comm])
  have hle : ulp bits n*k ≤ n/ulp bits n*ulp bits n := by
    rw [Nat.mul_comm]
    exact Nat.mul_le_mul_right _ hq
  unfold roundTo
  simp only
  split
  · rw [Nat.add_mul]
    omega
  · exact hle

theorem roundTo_le_of_dvd (h : n ≤ m) (hm : ulp bits n ∣ m) : roundTo bits n ≤ m := by
  obtain ⟨k,rfl⟩ := hm
  have hn := Nat.div_add_mod' n (ulp bits n)
  have hpos : 0 < ulp bits n := ulp_pos
  rw [Nat.mul_comm] at h ⊢
  unfold roundTo
  simp only
  split
  · rename_i hup
    have hlt : n/ulp bits n < k := by
      refine Nat.lt_of_mul_lt_mul_right (a := ulp bits n) ?_
      omega
    exact Nat.mul_le_mul_right _ hlt
  · omega

/-- Rounding keeps the order. -/
theorem roundTo_mono (hbits : 0 < bits) (h : n ≤ m) : roundTo bits n ≤ roundTo bits m := by
  by_cases hn : n = 0
  · simp [hn,roundTo,ulp]
  have hm : m≠0 := by omega
  have hlog : n.log2 ≤ m.log2 := (Nat.le_log2 hm).mpr ((Nat.log2_self_le hn).trans h)
  rcases Nat.lt_or_eq_of_le hlog with hlt | heq
  · -- a power of two is between them
    have hdown : ulp bits n ∣ 2^m.log2 := Nat.pow_dvd_pow 2 (by omega)
    have hup : ulp bits m ∣ 2^m.log2 := Nat.pow_dvd_pow 2 (by omega)
    have hle : n ≤ 2^m.log2 := ((Nat.log2_lt hn).mp hlt).le
    exact (roundTo_le_of_dvd hle hdown).trans (le_roundTo (Nat.log2_self_le hm) hup)
  · have hulp : ulp bits n = ulp bits m := by rw [ulp,ulp,heq]
    have hnm := Nat.div_add_mod' n (ulp bits n)
    have hmm := Nat.div_add_mod' m (ulp bits n)
    rcases Nat.lt_or_eq_of_le (Nat.div_le_div_right h : n/ulp bits n ≤ m/ulp bits n) with hq | hq
    · have hmid : n ≤ m/ulp bits n*ulp bits n := by
        have hmul := Nat.mul_le_mul_right (ulp bits n) (Nat.succ_le_of_lt hq)
        have hmod := Nat.mod_lt n (ulp_pos : 0 < ulp bits n)
        rw [Nat.succ_mul] at hmul
        omega
      exact (roundTo_le_of_dvd hmid (Nat.dvd_mul_left ..)).trans
        (le_roundTo (by omega) (hulp ▸ Nat.dvd_mul_left ..))
    · rw [hq] at hnm
      unfold roundTo
      simp only [← hulp,hq]
      split <;> split <;> exact Nat.mul_le_mul_right _ (by omega)

/-- A number of that many digits is left as it is. -/
theorem roundTo_eq (hbits : 0 < bits) (h : n < 2^bits) : roundTo bits n = n := by
  have hulp : ulp bits n = 1 := by
    by_cases hn : n = 0
    · rw [hn,ulp,Nat.log2_zero,Nat.sub_eq_zero_of_le hbits,Nat.pow_zero]
    · have hlog := (Nat.log2_lt hn).mpr h
      rw [ulp,Nat.sub_eq_zero_of_le (by omega),Nat.pow_zero]
  simp [roundTo,hulp,Nat.mod_one]

/-- The error is half a unit of the last digit at most. -/
theorem roundTo_error (hbits : 0 < bits) : 2^bits*roundTo bits n ≤ (2^bits+1)*n := by
  by_cases h : n < 2^bits
  · rw [roundTo_eq hbits h]
    exact Nat.mul_le_mul_right n (Nat.le_succ _)
  · have hn : n≠0 := by
      rintro rfl
      exact h (Nat.two_pow_pos bits)
    have hlog : bits ≤ n.log2 := (Nat.le_log2 hn).mpr (Nat.not_lt.mp h)
    have hulp : 2^(bits-1)*ulp bits n ≤ n := by
      rw [ulp,← Nat.pow_add,show bits-1+(n.log2+1-bits) = n.log2 by omega]
      exact Nat.log2_self_le hn
    have hpow : 2^bits = 2*2^(bits-1) := by
      rw [← Nat.pow_succ',Nat.succ_eq_add_one,Nat.sub_add_cancel hbits]
    have hle := Nat.mul_le_mul_left (2^(bits-1)) (roundTo_le : 2*roundTo bits n ≤ 2*n+ulp bits n)
    calc 2^bits*roundTo bits n
      _ = 2^(bits-1)*(2*roundTo bits n) := by rw [hpow]; ring
      _ ≤ 2^(bits-1)*(2*n+ulp bits n) := hle
      _ ≤ (2^bits+1)*n := by rw [hpow]; linarith

end WorkflowyMcp
