import Mathlib.Algebra.BigOperators.Fin
import Mathlib.Algebra.Order.Chebyshev
import Mathlib.Tactic.FieldSimp
import Mathlib.Tactic.Linarith

/-!
# Samuelson's inequality

One value of a sample of `m + 1` is no further from the mean than `√m` standard
deviations, with the variance read as the mean of the squares less the square of
the mean.
-/
namespace SmartQuant.Samuelson

variable {R : Type*} [Field R]

def mean (xs : List R) : R := xs.sum / xs.length

/-- The population variance. -/
def variance (xs : List R) : R :=
  (xs.map fun x => x * x).sum / xs.length - mean xs * mean xs

theorem sum_sub_mul_self (m : R) (xs : List R) :
    (xs.map fun x => (x - m) * (x - m)).sum =
      (xs.map fun x => x * x).sum - 2 * m * xs.sum + xs.length * (m * m) := by
  induction xs with
  | nil => simp
  | cons x xs ih =>
    simp only [List.map_cons, List.sum_cons, List.length_cons, Nat.cast_add, Nat.cast_one]
    rw [ih]
    ring

variable [LinearOrder R] [IsStrictOrderedRing R]

/-- The variance is the mean of the squared deviations from the mean. -/
theorem variance_eq_mean {xs : List R} (h : xs ≠ []) :
    variance xs = mean (xs.map fun x => (x - mean xs) * (x - mean xs)) := by
  have hlen : (xs.length : R) ≠ 0 := by
    rw [Nat.cast_ne_zero]
    exact List.length_pos_iff.mpr h |>.ne'
  have hsum : mean xs * xs.length = xs.sum := div_mul_cancel₀ _ hlen
  rw [mean.eq_1 (xs.map _), sum_sub_mul_self, ← hsum, List.length_map, variance]
  field_simp
  ring

theorem variance_nonneg {xs : List R} (h : xs ≠ []) : 0 ≤ variance xs := by
  rw [variance_eq_mean h]
  refine div_nonneg (List.sum_nonneg fun y hy => ?_) (Nat.cast_nonneg _)
  obtain ⟨x, -, rfl⟩ := List.mem_map.mp hy
  exact mul_self_nonneg _

theorem sum_mul_sum_le (xs : List R) :
    xs.sum * xs.sum ≤ xs.length * (xs.map fun x => x * x).sum := by
  have h := sq_sum_le_card_mul_sum_sq (s := Finset.univ) (f := fun i : Fin xs.length => xs[i])
  simpa only [sq, Finset.card_univ, Fintype.card_fin, Fin.getElem_fin,
    Fin.sum_univ_fun_getElem xs fun x => x * x, Fin.sum_univ_getElem] using h

theorem sq_sub_mean_le (c : R) (xs : List R) :
    (c - mean (c :: xs)) * (c - mean (c :: xs)) ≤ xs.length * variance (c :: xs) := by
  have hcs := sum_mul_sum_le xs
  have hn : (0 : R) < xs.length + 1 := by positivity
  rw [variance, mean]
  simp only [List.sum_cons, List.map_cons, List.length_cons, Nat.cast_add, Nat.cast_one]
  generalize hs : xs.sum = s at *
  generalize hq : (xs.map fun x => x * x).sum = q at *
  generalize (xs.length : R) = m at *
  have hdiff : m * ((c * c + q) / (m + 1) - (c + s) / (m + 1) * ((c + s) / (m + 1))) -
      (c - (c + s) / (m + 1)) * (c - (c + s) / (m + 1)) = (m * q - s * s) / (m + 1) := by
    field_simp
    ring
  have hnn : 0 ≤ (m * q - s * s) / (m + 1) := div_nonneg (by linarith) hn.le
  linarith

end SmartQuant.Samuelson
