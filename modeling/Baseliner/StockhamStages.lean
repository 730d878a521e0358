import Mathlib.Algebra.BigOperators.Intervals
import Mathlib.RingTheory.RootsOfUnity.PrimitiveRoots
import Mathlib.Tactic.Ring

/-! The sums between the stages of a Stockham transform. Behind the stage that made blocks of
`length` entries, entry `k` of block `i` is the part of coefficient `k` that comes from the
entries of the input whose indices are `i` modulo the number of blocks. -/

namespace Baseliner.StockhamStages

variable {R : Type*} [CommRing R] {w : R}

/-- Entry `k` of block `i`. -/
def partialSum (w : R) (blocks length : ℕ) (x : ℕ → R) (i k : ℕ) : R :=
  ∑ t ∈ Finset.range length, x (i + t * blocks) * w ^ ((i + t * blocks) * k)

def dft (w : R) (n : ℕ) (x : ℕ → R) (k : ℕ) : R :=
  ∑ l ∈ Finset.range n, x l * w ^ (k * l)

section Stages

theorem partialSum_one (w : R) (n : ℕ) (x : ℕ → R) (i : ℕ) : partialSum w n 1 x i 0 = x i := by
  rw [partialSum, Finset.sum_range_one, Nat.zero_mul, Nat.add_zero, Nat.mul_zero, pow_zero, mul_one]

theorem partialSum_all (w : R) (n : ℕ) (x : ℕ → R) (k : ℕ) :
    partialSum w 1 n x 0 k = dft w n x k := by
  refine Finset.sum_congr rfl ?_
  intro t _
  rw [Nat.zero_add, Nat.mul_one, Nat.mul_comm]

theorem sum_range_two_mul (f : ℕ → R) (n : ℕ) :
    ∑ t ∈ Finset.range (2 * n), f t = ∑ s ∈ Finset.range n, (f (2 * s) + f (2 * s + 1)) := by
  induction n with
  | zero => rfl
  | succ n ih =>
      rw [Nat.mul_succ, Finset.sum_range_succ, Finset.sum_range_succ, ih, Finset.sum_range_succ,
        add_assoc]

theorem partialSum_add (w : R) (blocks length : ℕ) (x : ℕ → R) (i k : ℕ) :
    partialSum w blocks (2 * length) x i k =
      partialSum w (2 * blocks) length x i k +
        partialSum w (2 * blocks) length x (i + blocks) k := by
  rw [partialSum, sum_range_two_mul, Finset.sum_add_distrib]
  refine congrArg₂ (· + ·) (Finset.sum_congr rfl fun s _ => ?_) (Finset.sum_congr rfl fun s _ => ?_)
  · rw [show i + 2 * s * blocks = i + s * (2 * blocks) by ring]
  · rw [show i + (2 * s + 1) * blocks = i + blocks + s * (2 * blocks) by ring]

theorem partialSum_sub {blocks length : ℕ} (half : w ^ (blocks * length) = -1) (x : ℕ → R)
    (i k : ℕ) :
    partialSum w blocks (2 * length) x i (length + k) =
      w ^ (i * length) * (partialSum w (2 * blocks) length x i k -
        partialSum w (2 * blocks) length x (i + blocks) k) := by
  have sign (s : ℕ) : w ^ (s * (2 * blocks) * length) = 1 := by
    rw [show s * (2 * blocks) * length = blocks * length * 2 * s by ring, pow_mul, pow_mul, half,
      neg_one_sq, one_pow]
  rw [partialSum, sum_range_two_mul, Finset.sum_add_distrib, mul_sub, partialSum, partialSum,
    Finset.mul_sum, Finset.mul_sum, sub_eq_add_neg, ← Finset.sum_neg_distrib]
  refine congrArg₂ (· + ·) (Finset.sum_congr rfl fun s _ => ?_) (Finset.sum_congr rfl fun s _ => ?_)
  · rw [show (i + 2 * s * blocks) * (length + k) =
        i * length + s * (2 * blocks) * length + (i + s * (2 * blocks)) * k by ring,
      show i + 2 * s * blocks = i + s * (2 * blocks) by ring, pow_add, pow_add, sign]
    ring
  · rw [show (i + (2 * s + 1) * blocks) * (length + k) = i * length + s * (2 * blocks) * length +
        blocks * length + (i + blocks + s * (2 * blocks)) * k by ring,
      show i + (2 * s + 1) * blocks = i + blocks + s * (2 * blocks) by ring, pow_add, pow_add,
      pow_add, sign, half]
    ring

end Stages

section Inverse

variable [IsDomain R] {w' : R} {n : ℕ}

theorem sum_pow_eq_zero {z : R} (other : z ≠ 1) (root : z ^ n = 1) :
    ∑ k ∈ Finset.range n, z ^ k = 0 := by
  have product := geom_sum_mul z n
  rw [root, sub_self] at product
  exact (mul_eq_zero.mp product).resolve_right (sub_ne_zero.mpr other)

theorem dft_dft (primitive : IsPrimitiveRoot w n) (inverse : w * w' = 1) (x : ℕ → R) {p : ℕ}
    (inside : p < n) : dft w' n (dft w n x) p = n * x p := by
  have unit : w' ^ n = 1 := by
    have both : (w * w') ^ n = 1 := by rw [inverse, one_pow]
    rwa [mul_pow, primitive.pow_eq_one, one_mul] at both
  have inner (l : ℕ) (small : l < n) :
      ∑ k ∈ Finset.range n, (w ^ l * w' ^ p) ^ k = if l = p then (n : R) else 0 := by
    by_cases same : l = p
    · subst same
      rw [if_pos rfl, ← mul_pow, inverse, one_pow]
      simp
    · rw [if_neg same]
      refine sum_pow_eq_zero ?_ ?_
      · intro one
        refine same (primitive.pow_inj small inside ?_)
        have shifted := congrArg (· * w ^ p) one
        rwa [mul_assoc, ← mul_pow, mul_comm w' w, inverse, one_pow, mul_one, one_mul] at shifted
      · rw [mul_pow, ← pow_mul, ← pow_mul, mul_comm l, mul_comm p, pow_mul, pow_mul,
          primitive.pow_eq_one, unit, one_pow, one_pow, mul_one]
  calc dft w' n (dft w n x) p
      = ∑ k ∈ Finset.range n, ∑ l ∈ Finset.range n, x l * (w ^ l * w' ^ p) ^ k := by
        refine Finset.sum_congr rfl fun k _ => ?_
        rw [dft, Finset.sum_mul]
        refine Finset.sum_congr rfl fun l _ => ?_
        ring
    _ = ∑ l ∈ Finset.range n, x l * ∑ k ∈ Finset.range n, (w ^ l * w' ^ p) ^ k := by
        rw [Finset.sum_comm]
        simp only [Finset.mul_sum]
    _ = ∑ l ∈ Finset.range n, x l * if l = p then (n : R) else 0 := by
        refine Finset.sum_congr rfl fun l member => ?_
        rw [inner l (Finset.mem_range.mp member)]
    _ = n * x p := by
        simp [inside, mul_comm]

end Inverse

end Baseliner.StockhamStages
