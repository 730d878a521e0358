import Mathlib.Tactic.Linarith
import Mathlib.Data.Nat.Sqrt
import Mathlib.Tactic.Ring

/-! Newton's iteration for the integer square root. From any start above the
root it descends to the root, and the step from the root itself stays there
unless the number is one below a square. A loop that stops at the first step
that does not descend, and returns this step, is off by one there. -/

namespace Baseliner.NewtonRoot

def next (a x : ℕ) : ℕ := (x + a / x) / 2

theorem add_div_le {a x : ℕ} (pos : 0 < x) (le : x ≤ a) : x + a / x ≤ a + 1 := by
  have product := Nat.div_mul_le_self a x
  have one : 1 ≤ a / x := (Nat.one_le_div_iff pos).mpr le
  nlinarith

theorem sqrt_le_next (a : ℕ) {x : ℕ} (pos : 0 < x) : a.sqrt ≤ next a x := by
  have square : a.sqrt * a.sqrt ≤ a := Nat.sqrt_le a
  have twice : 2 * a.sqrt ≤ x + a / x := by
    by_contra short
    have low : a / x < 2 * a.sqrt - x := by omega
    have bound : a < (2 * a.sqrt - x) * x := (Nat.div_lt_iff_lt_mul pos).mp low
    have room : x ≤ 2 * a.sqrt := by
      have more := Nat.le_add_right x (a / x)
      omega
    obtain ⟨d, sum⟩ := Nat.exists_eq_add_of_le room
    rw [sum, Nat.add_sub_cancel_left] at bound
    nlinarith [sq_nonneg ((x : ℤ) - d)]
  unfold next
  omega

theorem next_lt {a x : ℕ} (above : a.sqrt < x) : next a x < x := by
  have square : a < x * x := Nat.sqrt_lt.mp above
  have quotient : a / x < x := Nat.div_lt_of_lt_mul square
  unfold next
  omega

/-- The quotient by the root exceeds it by at most 2, and by 2 only just below
the next square. -/
theorem next_sqrt {a : ℕ} (pos : 0 < a) :
    next a a.sqrt = if a + 1 = (a.sqrt + 1) * (a.sqrt + 1) then a.sqrt + 1 else a.sqrt := by
  have low : a.sqrt * a.sqrt ≤ a := Nat.sqrt_le a
  have high : a < (a.sqrt + 1) * (a.sqrt + 1) := Nat.lt_succ_sqrt a
  have root : 0 < a.sqrt := Nat.sqrt_pos.mpr pos
  generalize a.sqrt = r at low high root ⊢
  have floor : r ≤ a / r := (Nat.le_div_iff_mul_le root).mpr low
  unfold next
  split
  · rename_i last
    have two : r + 2 ≤ a / r := by
      apply (Nat.le_div_iff_mul_le root).mpr
      nlinarith
    have three : a / r < r + 3 := by
      apply (Nat.div_lt_iff_lt_mul root).mpr
      nlinarith
    omega
  · rename_i inner
    have two : a / r < r + 2 := by
      apply (Nat.div_lt_iff_lt_mul root).mpr
      have below : a + 1 < (r + 1) * (r + 1) := by omega
      nlinarith
    omega

def descend (a prev x : ℕ) : ℕ := if x < prev then descend a x (next a x) else x
termination_by prev

theorem descend_eq {a prev x : ℕ} (pos : 0 < a) (above : a.sqrt ≤ x) (first : x < prev) :
    descend a prev x = next a a.sqrt := by
  induction x using Nat.strong_induction_on generalizing prev with
  | _ x ih =>
      have root : 0 < x := lt_of_lt_of_le (Nat.sqrt_pos.mpr pos) above
      have next_above := sqrt_le_next a root
      rw [descend, if_pos first]
      rcases Nat.lt_or_ge a.sqrt x with higher | reached
      · exact ih (next a x) (next_lt higher) next_above (next_lt higher)
      · have here : x = a.sqrt := Nat.le_antisymm reached above
        rw [descend, if_neg (by rw [here] at next_above ⊢; omega), here]

end Baseliner.NewtonRoot
