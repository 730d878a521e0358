import Mathlib.LinearAlgebra.Dimension.Finite
import Mathlib.LinearAlgebra.SesquilinearForm.Basic
import Mathlib.Tactic.FieldSimp
import Mathlib.Tactic.Ring

/-! The method of conjugate gradients over an arbitrary field, for an operator that is symmetric
with respect to a symmetric bilinear form. A turn is regular when it divides by nothing that is
zero. Up to the first turn that is not, the residuals are orthogonal and the directions are
conjugate. -/

namespace Baseliner.ConjugateGradient

variable {F V : Type*} [Field F] [AddCommGroup V] [Module F V]

/-- The solution so far, its residual, and the direction to go next. -/
@[ext] structure Iterate (V : Type*) where
  z : V
  r : V
  p : V

variable (B : LinearMap.BilinForm F V) (A : V →ₗ[F] V)

def start (x : V) : Iterate V := ⟨0, x, x⟩

def alpha (s : Iterate V) : F := B s.r s.r / B s.p (A s.p)

def turn (s : Iterate V) : Iterate V :=
  let r := s.r - alpha B A s • A s.p
  ⟨s.z + alpha B A s • s.p, r, r + (B r r / B s.r s.r) • s.p⟩

def iterate (x : V) (k : ℕ) : Iterate V := (turn B A)^[k] (start x)

/-- The turns before turn `k` do not divide by zero. -/
def Regular (x : V) (k : ℕ) : Prop := ∀ i < k,
  B (iterate B A x i).r (iterate B A x i).r ≠ 0 ∧
  B (iterate B A x i).p (A (iterate B A x i).p) ≠ 0

variable {B A} {x : V} {k : ℕ}

theorem iterate_succ (x : V) (k : ℕ) : iterate B A x (k + 1) = turn B A (iterate B A x k) :=
  Function.iterate_succ_apply' ..

theorem Regular.mono (h : Regular B A x k) {l : ℕ} (le : l ≤ k) : Regular B A x l :=
  fun i lt => h i (lt.trans_le le)

theorem residual (x : V) (k : ℕ) : (iterate B A x k).r = x - A (iterate B A x k).z := by
  induction k with
  | zero => simp [iterate, start]
  | succ k ih =>
    rw [iterate_succ, turn]
    simp only [ih, map_add, map_smul]
    abel

theorem iterate_r (x : V) (k : ℕ) : (iterate B A x (k + 1)).r =
    (iterate B A x k).r - alpha B A (iterate B A x k) • A (iterate B A x k).p := by
  rw [iterate_succ, turn]

theorem iterate_p (x : V) (k : ℕ) : (iterate B A x (k + 1)).p = (iterate B A x (k + 1)).r +
    (B (iterate B A x (k + 1)).r (iterate B A x (k + 1)).r /
      B (iterate B A x k).r (iterate B A x k).r) • (iterate B A x k).p := by
  rw [iterate_succ, turn]

/-- What holds behind `k` turns, with `s i` for what holds behind `i` of them. -/
structure Inv (B : LinearMap.BilinForm F V) (A : V →ₗ[F] V) (s : ℕ → Iterate V) (k : ℕ) :
    Prop where
  own : B (s k).p (s k).r = B (s k).r (s k).r
  ahead : ∀ i < k, B (s i).p (s k).r = 0
  orthogonal : ∀ i < k, B (s i).r (s k).r = 0
  conjugate : ∀ i < k, B (s i).p (A (s k).p) = 0

section symmetric

variable (adjoint : ∀ u v, B (A u) v = B u (A v))

include adjoint

theorem alpha_mul_apply (x : V) (i : ℕ) (v : V) :
    alpha B A (iterate B A x i) * B (iterate B A x i).p (A v) =
      B (iterate B A x i).r v - B (iterate B A x (i + 1)).r v := by
  rw [iterate_r, ← adjoint, map_sub, map_smul, LinearMap.sub_apply, LinearMap.smul_apply,
    smul_eq_mul, sub_sub_cancel]

theorem Inv.succ (inv : Inv B A (iterate B A x) k) (regular : Regular B A x (k + 1)) :
    Inv B A (iterate B A x) (k + 1) := by
  have residual_ne (i : ℕ) (le : i ≤ k) := (regular i (Nat.lt_succ_of_le le)).1
  have direction_ne (i : ℕ) (le : i ≤ k) := (regular i (Nat.lt_succ_of_le le)).2
  have alpha_ne (i : ℕ) (le : i ≤ k) : alpha B A (iterate B A x i) ≠ 0 :=
    div_ne_zero (residual_ne i le) (direction_ne i le)
  have ahead (i : ℕ) (le : i ≤ k) : B (iterate B A x i).p (iterate B A x (k + 1)).r = 0 := by
    rw [iterate_r, map_sub, map_smul, smul_eq_mul]
    obtain less | rfl := lt_or_eq_of_le le
    · rw [inv.ahead i less, inv.conjugate i less, mul_zero, sub_zero]
    · rw [inv.own, alpha, div_mul_cancel₀ _ (direction_ne i le_rfl), sub_self]
  have orthogonal (i : ℕ) (le : i ≤ k) :
      B (iterate B A x i).r (iterate B A x (k + 1)).r = 0 := by
    cases i with
    | zero => exact ahead 0 le
    | succ i =>
      have own := ahead (i + 1) le
      rwa [iterate_p, map_add, map_smul, LinearMap.add_apply, LinearMap.smul_apply,
        ahead i (Nat.le_of_succ_le le), smul_zero, add_zero] at own
  refine ⟨?_, fun i lt => ahead i (Nat.le_of_lt_succ lt),
    fun i lt => orthogonal i (Nat.le_of_lt_succ lt), fun i lt => ?_⟩
  · rw [iterate_p x k, map_add, map_smul, LinearMap.add_apply, LinearMap.smul_apply,
      ahead k le_rfl, smul_zero, add_zero]
  · have le : i ≤ k := Nat.le_of_lt_succ lt
    have through := alpha_mul_apply adjoint x i (iterate B A x (k + 1)).r
    rw [orthogonal i le, zero_sub] at through
    rw [iterate_p x k, map_add, map_smul, map_add, map_smul, smul_eq_mul]
    obtain less | rfl := lt_or_eq_of_le le
    · rw [orthogonal (i + 1) less, neg_zero] at through
      rw [inv.conjugate i less, mul_zero, add_zero]
      exact (mul_eq_zero.mp through).resolve_left (alpha_ne i le)
    · -- the new direction is chosen to make up for what the residual has of the last one
      refine (mul_eq_zero.mp ?_).resolve_left (alpha_ne i le)
      rw [mul_add, through, alpha]
      field_simp [residual_ne i le, direction_ne i le]
      ring

theorem inv_iterate (regular : Regular B A x k) : Inv B A (iterate B A x) k := by
  induction k with
  | zero => exact ⟨rfl, by simp, by simp, by simp⟩
  | succ k ih => exact (ih (regular.mono k.le_succ)).succ adjoint regular

variable (symm : ∀ u v, B u v = B v u)

include symm

theorem linearIndependent_residuals (regular : Regular B A x k) :
    LinearIndependent F fun i : Fin k => (iterate B A x i).r := by
  have before {i j : ℕ} (less : i < j) (lt : j < k) :
      B (iterate B A x i).r (iterate B A x j).r = 0 :=
    (inv_iterate adjoint (regular.mono lt.le)).orthogonal i less
  refine LinearMap.linearIndependent_of_isOrthoᵢ (B := B) ?_ fun i => (regular i i.isLt).1
  intro i j ne
  obtain less | more := lt_or_gt_of_ne ne
  · exact before less j.isLt
  · exact (symm _ _).trans (before more i.isLt)

theorem exists_last [Module.Finite F V] (x : V) : ∃ k ≤ Module.finrank F V, Regular B A x k ∧
    (B (iterate B A x k).r (iterate B A x k).r = 0 ∨
      B (iterate B A x k).p (A (iterate B A x k).p) = 0) := by
  by_contra! always
  have regular (k : ℕ) (le : k ≤ Module.finrank F V + 1) : Regular B A x k := by
    induction k with
    | zero => exact fun i none => absurd none (Nat.not_lt_zero i)
    | succ k ih =>
      have before := ih (Nat.le_of_succ_le le)
      intro i lt
      obtain less | rfl := Nat.lt_succ_iff_lt_or_eq.mp lt
      · exact before i less
      · exact always i (Nat.le_of_succ_le_succ le) before
  have card := (linearIndependent_residuals adjoint symm (regular _ le_rfl)).fintype_card_le_finrank
  rw [Fintype.card_fin] at card
  omega

end symmetric

end Baseliner.ConjugateGradient
