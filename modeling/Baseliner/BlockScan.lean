import Mathlib.Algebra.BigOperators.Intervals

/-! Running sums by doubling. The entries `1, ..., last` are cut into blocks of equal length,
the last of which may be short; a level joins two neighbouring blocks by adding the last sum
of the first to all sums of the second. -/

namespace Baseliner.BlockScan

variable {M : Type*} [AddCommMonoid M] {last n : ℕ} {start f g : ℕ → M}

def Doubles (last n : ℕ) (f g : ℕ → M) : Prop :=
  ∀ b r, 1 ≤ r → r ≤ n * 2 → b * (n * 2) + r ≤ last →
    g (b * (n * 2) + r) =
      if n < r then f (b * (n * 2) + r) + f (b * (n * 2) + n) else f (b * (n * 2) + r)

def BlockSums (last n : ℕ) (start f : ℕ → M) : Prop :=
  ∀ b r, 1 ≤ r → r ≤ n → b * n + r ≤ last →
    f (b * n + r) = ∑ y ∈ Finset.Ico (b * n + 1) (b * n + r + 1), start y

theorem blockSums_one (last : ℕ) (f : ℕ → M) : BlockSums last 1 f f := by
  intro b r low high _
  obtain rfl : r = 1 := by omega
  simp

theorem BlockSums.double (h : BlockSums last n start f) (pos : 1 ≤ n)
    (level : Doubles last n f g) : BlockSums last (n * 2) start g := by
  intro b r low high inside
  have first : b * (n * 2) = b * 2 * n := by rw [Nat.mul_comm n 2, Nat.mul_assoc]
  rw [level b r low high inside, first]
  rw [first] at inside
  split_ifs with second
  · have next : (b * 2 + 1) * n = b * 2 * n + n := Nat.succ_mul ..
    have upper := h (b * 2 + 1) (r - n) (by omega) (by omega) (by omega)
    have lower := h (b * 2) n pos le_rfl (by omega)
    rw [next, show b * 2 * n + n + (r - n) = b * 2 * n + r by omega] at upper
    rw [upper, lower, add_comm, Finset.sum_Ico_consecutive _ (by omega) (by omega)]
  · exact h (b * 2) r low (by omega) inside

theorem BlockSums.sum_upTo (h : BlockSums last n start f) (long : last ≤ n) {x : ℕ}
    (low : 1 ≤ x) (high : x ≤ last) : f x = ∑ y ∈ Finset.Ico 1 (x + 1), start y := by
  have whole := h 0 x low (high.trans long) (by omega)
  rwa [Nat.zero_mul, Nat.zero_add, Nat.zero_add] at whole

end Baseliner.BlockScan
