import Mathlib.Analysis.Complex.Exponential
import Mathlib.Analysis.Complex.Trigonometric
import Mathlib.Tactic

/-! Integral parts of multiples of `|sin k|` for natural numbers `k`, from powers of an
approximation of `exp I`. -/
namespace Sines

open Complex

/-- The powers of `x + y·I`, by their real and imaginary parts. -/
def power (x y : ℤ) : ℕ → ℤ × ℤ
  | 0 => (1,0)
  | k+1 =>
    let p := power x y k
    (p.1*x - p.2*y,p.1*y + p.2*x)

theorem cast_power (x y : ℤ) (k : ℕ) :
    ((power x y k).1 + (power x y k).2*I : ℂ) = (x + y*I)^k := by
  induction k with
  | zero => simp [power]
  | succ k ih =>
    rw [pow_succ,← ih]
    simp only [power]
    push_cast
    ring_nf
    rw [I_sq]
    ring

/-- Powers in the unit disk move apart no faster than linearly. -/
theorem norm_pow_sub_pow_le {w z : ℂ} {ε : ℝ} (hw : ‖w‖ ≤ 1) (hz : ‖z‖ ≤ 1) (h : ‖w-z‖ ≤ ε)
    (k : ℕ) : ‖w^k - z^k‖ ≤ k*ε := by
  induction k with
  | zero => simp
  | succ k ih =>
    have hsplit : w^(k+1) - z^(k+1) = w^k*(w-z) + (w^k-z^k)*z := by ring
    have hpow : ‖w^k‖ ≤ 1 := by
      rw [norm_pow]
      exact pow_le_one₀ (norm_nonneg w) hw
    calc ‖w^(k+1) - z^(k+1)‖ ≤ ‖w^k‖*‖w-z‖ + ‖w^k-z^k‖*‖z‖ := by
          rw [hsplit,← norm_mul,← norm_mul]
          exact norm_add_le _ _
      _ ≤ 1*ε + k*ε*1 := by
          have hpos : 0 ≤ k*ε := (norm_nonneg _).trans ih
          gcongr
      _ = (k+1 : ℕ)*ε := by push_cast; ring

/-- The sum of the first 20 terms of the series of `exp I` is `(re + im·I)/denominator`. -/
def re : ℤ := 65725128248453315

def im : ℤ := 102360822438075317

def denominator : ℕ := 121645100408832000

theorem sum_eq : ∑ m ∈ Finset.range 20, I^m/(m.factorial : ℂ) = (re + im*I)/denominator := by
  have heven (m : ℕ) : I^(m+2) = -I^m := by rw [pow_add,I_sq]; ring
  simp only [Finset.sum_range_succ,Finset.sum_range_zero,Nat.factorial,heven,pow_zero,pow_one,
    re,im,denominator]
  push_cast
  ring

/-- `exp I` up to the rest of its series. -/
theorem norm_sub_exp_le : ‖((re + im*I)/denominator : ℂ) - exp I‖ ≤ 1/2^60 := by
  have hI : ‖I‖ ≤ 1 := norm_I.le
  have hbound := exp_bound hI (n:=20) (by norm_num)
  rw [sum_eq,norm_I,norm_sub_rev] at hbound
  refine hbound.trans ?_
  norm_num [Nat.factorial]

theorem norm_le_one : ‖((re + im*I)/denominator : ℂ)‖ ≤ 1 := by
  have hsq : re^2 + im^2 ≤ (denominator : ℤ)^2 := by decide
  have hd : (0 : ℝ) < denominator := by norm_num [denominator]
  have hnorm : ‖(re + im*I : ℂ)‖^2 = (re : ℝ)^2 + (im : ℝ)^2 := by
    rw [← normSq_eq_norm_sq,normSq_apply]
    simp [sq]
  have hle : ‖(re + im*I : ℂ)‖^2 ≤ (denominator : ℝ)^2 := by
    rw [hnorm]
    exact_mod_cast hsq
  rw [norm_div,norm_natCast,div_le_one hd]
  exact le_of_sq_le_sq hle hd.le

/-- How far the imaginary parts of the powers are from the sines. -/
theorem abs_im_sub_sin_le (k : ℕ) :
    |((power re im k).2 : ℝ)/denominator^k - Real.sin k| ≤ k/2^60 := by
  have hexp : ‖exp I‖ ≤ 1 := by
    have hh := norm_exp_ofReal_mul_I 1
    rw [ofReal_one,one_mul] at hh
    exact hh.le
  have hpow := norm_pow_sub_pow_le norm_le_one hexp norm_sub_exp_le k
  have him : (((re + im*I)/denominator : ℂ)^k - exp I^k).im =
      ((power re im k).2 : ℝ)/denominator^k - Real.sin k := by
    have hsin : (exp I^k).im = Real.sin k := by
      rw [← exp_nat_mul,← exp_ofReal_mul_I_im]
      simp
    have hdiv : ((re + im*I)/denominator : ℂ)^k =
        (((power re im k).1 : ℝ) + ((power re im k).2 : ℝ)*I)/((denominator^k : ℕ) : ℝ) := by
      rw [div_pow,← cast_power]
      push_cast
      rfl
    rw [sub_im,hsin,hdiv,div_ofReal_im]
    simp
  rw [← him]
  calc _ ≤ ‖((re + im*I)/denominator : ℂ)^k - exp I^k‖ := abs_im_le_norm _
    _ ≤ k*(1/2^60) := hpow
    _ = k/2^60 := by ring

/-- The approximation of `2^32·|sin k|` is between `t` and `t+1`, with room for its error. -/
def Between (k t : ℕ) : Prop :=
  2^28*(t*denominator^k) + k*denominator^k ≤ 2^60*(power re im k).2.natAbs ∧
    2^60*(power re im k).2.natAbs + k*denominator^k < 2^28*((t+1)*denominator^k)

instance (k t : ℕ) : Decidable (Between k t) := inferInstanceAs (Decidable (_ ∧ _))

theorem floor_abs_sin {k t : ℕ} (h : Between k t) : ⌊2^32*|Real.sin k|⌋₊ = t := by
  have hd : (0 : ℝ) < (denominator : ℝ)^k := pow_pos (by norm_num [denominator]) k
  have hle : (2:ℝ)^28*(t*denominator^k) + k*denominator^k ≤ 2^60*|((power re im k).2 : ℝ)| := by
    rw [← Int.cast_abs,← Nat.cast_natAbs]
    exact_mod_cast h.1
  have hlt : (2:ℝ)^60*|((power re im k).2 : ℝ)| + k*denominator^k < 2^28*((t+1)*denominator^k) := by
    rw [← Int.cast_abs,← Nat.cast_natAbs]
    exact_mod_cast h.2
  have habs : |(|((power re im k).2 : ℝ)|/denominator^k - |Real.sin k|)| ≤ k/2^60 := by
    have hh := abs_abs_sub_abs_le (((power re im k).2 : ℝ)/denominator^k) (Real.sin k)
    rw [abs_div,abs_of_pos hd] at hh
    exact hh.trans (abs_im_sub_sin_le k)
  set y := |((power re im k).2 : ℝ)|/denominator^k with hy
  have hmul : |((power re im k).2 : ℝ)| = y*denominator^k := by
    rw [hy]
    field_simp
  rw [hmul] at hle hlt
  have hlow : (2:ℝ)^28*t + k ≤ 2^60*y := by
    apply le_of_mul_le_mul_right _ hd
    linarith
  have hhigh : (2:ℝ)^60*y + k < 2^28*(t+1) := by
    apply lt_of_mul_lt_mul_right _ hd.le
    linarith
  have hboth := abs_le.mp habs
  rw [Nat.floor_eq_iff (by positivity)]
  constructor
  · linarith [hboth.2]
  · linarith [hboth.1]

end Sines
