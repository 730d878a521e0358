import Mathlib.Analysis.CStarAlgebra.Classes
import Mathlib.Analysis.InnerProductSpace.Basic
import Mathlib.Analysis.SpecialFunctions.ExpDeriv
import Mathlib.Analysis.SpecialFunctions.Trigonometric.Basic

/-! Solutions of the heat equation on a torus that are finite sums of waves. -/

namespace Baseliner.SpectralHeat
open Complex

abbrev Frequency := ℤ × ℤ × ℤ
abbrev Position := ℝ × ℝ × ℝ

noncomputable section

def square (f : Frequency) : ℤ := f.1 ^ 2 + (f.2.1 ^ 2 + f.2.2 ^ 2)

def turn (k : ℤ) : ℂ := -((2 : ℕ) * Real.pi * k * I)

def phase (f : Frequency) (x : Position) : ℂ :=
  turn f.1 * x.1 + turn f.2.1 * x.2.1 + turn f.2.2 * x.2.2

/-- Waves with frequencies `f` and amplitudes `A`, a time `t` after the start. -/
def solution {ι : Type*} (alpha : ℝ) (S : Finset ι) (f : ι → Frequency) (A : ι → ℂ) (t : ℝ)
    (x : Position) : ℂ :=
  ∑ i ∈ S, A i * exp (-(4 : ℕ) * alpha * Real.pi ^ 2 * square (f i) * t) * exp (phase (f i) x)

def laplacian (u : Position → ℂ) (x : Position) : ℂ :=
  deriv (deriv fun s => u (s, x.2.1, x.2.2)) x.1 + deriv (deriv fun s => u (x.1, s, x.2.2)) x.2.1 +
    deriv (deriv fun s => u (x.1, x.2.1, s)) x.2.2

theorem deriv_deriv_waves {ι : Type*} (S : Finset ι) (c k b : ι → ℂ) (s : ℝ) :
    deriv (deriv fun s : ℝ => ∑ i ∈ S, c i * exp (k i * s + b i)) s =
      ∑ i ∈ S, k i ^ 2 * (c i * exp (k i * s + b i)) := by
  have wave (k b : ℂ) (s : ℝ) :
      HasDerivAt (fun s : ℝ => exp (k * s + b)) (exp (k * s + b) * k) s := by
    have phase : HasDerivAt (fun s : ℝ => k * s + b) k s := by
      simpa using ((ofRealCLM.hasDerivAt (x := s)).const_mul k).add_const b
    exact phase.cexp
  have once : (deriv fun s : ℝ => ∑ i ∈ S, c i * exp (k i * s + b i)) =
      fun s : ℝ => ∑ i ∈ S, c i * k i * exp (k i * s + b i) := by
    funext s
    refine (HasDerivAt.fun_sum fun i _ => (wave (k i) (b i) s).const_mul (c i)).deriv.trans ?_
    exact Finset.sum_congr rfl fun i _ => by ring
  rw [once]
  refine (HasDerivAt.fun_sum fun i _ => (wave (k i) (b i) s).const_mul (c i * k i)).deriv.trans ?_
  exact Finset.sum_congr rfl fun i _ => by ring

theorem turn_sq (f : Frequency) : turn f.1 ^ 2 + turn f.2.1 ^ 2 + turn f.2.2 ^ 2 =
    -(4 : ℕ) * Real.pi ^ 2 * square f := by
  simp only [turn, square]
  push_cast
  ring_nf
  rw [I_sq]
  ring

variable {ι : Type*} (alpha : ℝ) (S : Finset ι) (f : ι → Frequency) (A : ι → ℂ)

theorem laplacian_solution (t : ℝ) (x : Position) : laplacian (solution alpha S f A t) x =
    ∑ i ∈ S, -(4 : ℕ) * Real.pi ^ 2 * square (f i) *
      (A i * exp (-(4 : ℕ) * alpha * Real.pi ^ 2 * square (f i) * t) * exp (phase (f i) x)) := by
  obtain ⟨x, y, z⟩ := x
  let c (i : ι) : ℂ := A i * exp (-(4 : ℕ) * alpha * Real.pi ^ 2 * square (f i) * t)
  have overX := deriv_deriv_waves S c (fun i => turn (f i).1)
    (fun i => turn (f i).2.1 * y + turn (f i).2.2 * z) x
  have overY := deriv_deriv_waves S c (fun i => turn (f i).2.1)
    (fun i => turn (f i).1 * x + turn (f i).2.2 * z) y
  have overZ := deriv_deriv_waves S c (fun i => turn (f i).2.2)
    (fun i => turn (f i).1 * x + turn (f i).2.1 * y) z
  have alignX (f : Frequency) (s : ℝ) : phase f (s, y, z) =
      turn f.1 * s + (turn f.2.1 * y + turn f.2.2 * z) := add_assoc ..
  have alignY (f : Frequency) (s : ℝ) : phase f (x, s, z) =
      turn f.2.1 * s + (turn f.1 * x + turn f.2.2 * z) := by
    rw [phase]
    ring
  have alignZ (f : Frequency) (s : ℝ) : phase f (x, y, s) =
      turn f.2.2 * s + (turn f.1 * x + turn f.2.1 * y) := add_comm ..
  simp only [← alignX, ← alignY, ← alignZ] at overX overY overZ
  refine (congrArg₂ (· + ·) (congrArg₂ (· + ·) overX overY) overZ).trans ?_
  rw [← Finset.sum_add_distrib, ← Finset.sum_add_distrib]
  refine Finset.sum_congr rfl fun i _ => ?_
  rw [← turn_sq]
  ring

theorem hasDerivAt_solution (t : ℝ) (x : Position) :
    HasDerivAt (fun t => solution alpha S f A t x)
      (alpha * laplacian (solution alpha S f A t) x) t := by
  have wave (k c b : ℂ) : HasDerivAt (fun s : ℝ => c * exp (k * s) * b)
      (k * (c * exp (k * t) * b)) t := by
    have exponent : HasDerivAt (fun s : ℝ => k * s) k t := by
      simpa using (ofRealCLM.hasDerivAt (x := t)).const_mul k
    refine ((exponent.cexp.const_mul c).mul_const b).congr_deriv ?_
    ring
  refine (HasDerivAt.fun_sum fun i _ => wave (-(4 : ℕ) * alpha * Real.pi ^ 2 * square (f i)) (A i)
    (exp (phase (f i) x))).congr_deriv ?_
  rw [laplacian_solution, Finset.mul_sum]
  exact Finset.sum_congr rfl fun i _ => by ring

end

end Baseliner.SpectralHeat
