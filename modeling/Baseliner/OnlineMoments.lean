import Mathlib.Algebra.BigOperators.Group.List.Basic
import Mathlib.Algebra.CharZero.Defs
import Mathlib.Algebra.Field.Basic
import Mathlib.Tactic.FieldSimp
import Mathlib.Tactic.Ring

/-! The mean of a list and the sum of its squared deviations, taken one sample at a time. The
new mean moves from the old one by the deviation over the count; the sum of squares grows by
the product of the deviations from the two means. -/

namespace Baseliner.OnlineMoments

variable {K : Type*} [Field K]

def mean (l : List K) : K := l.sum / l.length

def deviationsFrom (c : K) (l : List K) : K := (l.map fun x => (x - c) ^ 2).sum

def squaredDeviations (l : List K) : K := deviationsFrom (mean l) l

theorem deviationsFrom_concat (c x : K) (l : List K) :
    deviationsFrom c (l ++ [x]) = deviationsFrom c l + (x - c) ^ 2 := by
  simp [deviationsFrom]

theorem deviationsFrom_add (c d : K) (l : List K) :
    deviationsFrom (c + d) l =
      deviationsFrom c l - 2 * d * (l.sum - l.length * c) + l.length * d ^ 2 := by
  induction l with
  | nil => simp [deviationsFrom]
  | cons x l ih =>
      have cons (c : K) : deviationsFrom c (x :: l) = (x - c) ^ 2 + deviationsFrom c l := by
        simp [deviationsFrom]
      rw [cons, cons, ih, List.sum_cons, List.length_cons]
      push_cast
      ring

variable [CharZero K]

theorem length_mul_mean (l : List K) : l.length * mean l = l.sum := by
  cases l with
  | nil => simp [mean]
  | cons x l =>
      have count : ((x :: l).length : K) ≠ 0 := Nat.cast_ne_zero.mpr (Nat.succ_ne_zero _)
      rw [mean]
      field_simp

theorem mean_concat (x : K) (l : List K) :
    mean (l ++ [x]) = mean l + (x - mean l) / (l.length + 1) := by
  have count : (l.length : K) + 1 ≠ 0 := Nat.cast_add_one_ne_zero l.length
  have total := length_mul_mean l
  rw [mean, List.sum_append, List.sum_singleton, List.length_append, List.length_singleton,
    Nat.cast_add, Nat.cast_one, ← total]
  field_simp
  ring

/-- The update between the two deltas: one from the old mean, one from the new. -/
theorem squaredDeviations_concat (x : K) (l : List K) :
    squaredDeviations (l ++ [x]) =
      squaredDeviations l + (x - mean l) * (x - mean (l ++ [x])) := by
  have count : (l.length : K) + 1 ≠ 0 := Nat.cast_add_one_ne_zero l.length
  rw [squaredDeviations, deviationsFrom_concat, mean_concat, deviationsFrom_add,
    length_mul_mean, sub_self, mul_zero, sub_zero, squaredDeviations]
  field_simp
  ring

end Baseliner.OnlineMoments
