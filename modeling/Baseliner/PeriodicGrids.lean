import Mathlib.Algebra.BigOperators.Intervals
import Mathlib.Algebra.BigOperators.Pi
import Mathlib.Algebra.BigOperators.Ring.Finset
import Mathlib.Algebra.Group.Submonoid.BigOperators
import Mathlib.Algebra.Module.Equiv.Basic
import Mathlib.Algebra.Module.Pi
import Mathlib.Algebra.Module.Submodule.LinearMap
import Mathlib.Data.Finset.Prod
import Mathlib.GroupTheory.GroupAction.Ring
import Mathlib.Tactic.Ring

/-! Functions on the points of space that are periodic in the three directions, stencils of 27
points, and the transfer between grids of which one has twice the period of the other. -/

namespace Baseliner.PeriodicGrids
open scoped BigOperators

abbrev Point := ℤ × ℤ × ℤ
abbrev Periods := ℕ × ℕ × ℕ

variable {F : Type*} [Field F]

def periodic (F : Type*) [Field F] (N : Periods) : Submodule F (Point → F) where
  carrier := {g | ∀ x y z, g (x + N.1, y, z) = g (x, y, z) ∧ g (x, y + N.2.1, z) = g (x, y, z) ∧
    g (x, y, z + N.2.2) = g (x, y, z)}
  zero_mem' _ _ _ := ⟨rfl, rfl, rfl⟩
  add_mem' hf hg x y z :=
    ⟨congrArg₂ (· + ·) (hf x y z).1 (hg x y z).1,
      congrArg₂ (· + ·) (hf x y z).2.1 (hg x y z).2.1,
      congrArg₂ (· + ·) (hf x y z).2.2 (hg x y z).2.2⟩
  smul_mem' c _ hf x y z := ⟨congrArg (c * ·) (hf x y z).1, congrArg (c * ·) (hf x y z).2.1,
    congrArg (c * ·) (hf x y z).2.2⟩

/-! ### Stencils -/

def steps : Finset ℤ := {-1, 0, 1}

def shift (d : Point) : (Point → F) →ₗ[F] (Point → F) where
  toFun g p := g (p + d)
  map_add' _ _ := rfl
  map_smul' _ _ := rfl

/-- The sum over the 27 points around a point, weighted by the number of steps to them. -/
def around (w : ℕ → F) : (Point → F) →ₗ[F] (Point → F) :=
  ∑ d ∈ steps ×ˢ steps ×ˢ steps, w (d.1.natAbs + d.2.1.natAbs + d.2.2.natAbs) • shift d

theorem around_apply (w : ℕ → F) (g : Point → F) (x y z : ℤ) : around w g (x, y, z) =
    w 0 * g (x, y, z) +
    w 1 * (g (x - 1, y, z) + g (x + 1, y, z) + (g (x, y - 1, z) + g (x, y + 1, z) +
      g (x, y, z - 1) + g (x, y, z + 1))) +
    w 2 * (g (x, y - 1, z - 1) + g (x, y + 1, z - 1) + g (x, y - 1, z + 1) + g (x, y + 1, z + 1) +
      (g (x - 1, y - 1, z) + g (x - 1, y + 1, z) + g (x - 1, y, z - 1) + g (x - 1, y, z + 1)) +
      (g (x + 1, y - 1, z) + g (x + 1, y + 1, z) + g (x + 1, y, z - 1) + g (x + 1, y, z + 1))) +
    w 3 * (g (x - 1, y - 1, z - 1) + g (x - 1, y + 1, z - 1) + g (x - 1, y - 1, z + 1) +
      g (x - 1, y + 1, z + 1) + (g (x + 1, y - 1, z - 1) + g (x + 1, y + 1, z - 1) +
      g (x + 1, y - 1, z + 1) + g (x + 1, y + 1, z + 1))) := by
  have three (f : ℤ → F) : ∑ a ∈ steps, f a = f (-1) + f 0 + f 1 := by
    rw [steps, Finset.sum_insert (by decide), Finset.sum_pair (by decide), add_assoc]
  simp only [around, LinearMap.sum_apply, LinearMap.smul_apply, Finset.sum_apply, Pi.smul_apply,
    shift, LinearMap.coe_mk, AddHom.coe_mk, Finset.sum_product, three, smul_eq_mul,
    Prod.mk_add_mk, Int.natAbs_neg, Int.natAbs_one, Int.natAbs_zero, add_zero, zero_add,
    ← sub_eq_add_neg]
  ring

theorem shift_mem {N : Periods} {g : Point → F} (h : g ∈ periodic F N) (d : Point) :
    shift d g ∈ periodic F N := by
  obtain ⟨a, b, c⟩ := d
  intro x y z
  simp only [shift, LinearMap.coe_mk, AddHom.coe_mk, Prod.mk_add_mk, add_right_comm _ (N.1 : ℤ),
    add_right_comm _ (N.2.1 : ℤ), add_right_comm _ (N.2.2 : ℤ)]
  exact h (x + a) (y + b) (z + c)

theorem around_mem {N : Periods} (w : ℕ → F) {g : Point → F} (h : g ∈ periodic F N) :
    around w g ∈ periodic F N := by
  rw [around, LinearMap.sum_apply]
  exact sum_mem fun d _ => Submodule.smul_mem _ _ (shift_mem h d)

/-! ### Grids of half the width -/

def double (N : Periods) : Periods := (2 * N.1, 2 * N.2.1, 2 * N.2.2)

/-- Interpolation along a line. The coarse point `c` is the fine point `2 * c - 1`. -/
def prolongLine : (ℤ → F) →ₗ[F] (ℤ → F) where
  toFun f x := if x % 2 = 0 then ((2 : ℕ) : F)⁻¹ * (f (x / 2) + f (x / 2 + 1)) else f ((x + 1) / 2)
  map_add' f g := by
    funext x
    simp only [Pi.add_apply]
    split_ifs
    · ring
    · rfl
  map_smul' c f := by
    funext x
    simp only [Pi.smul_apply, smul_eq_mul, RingHom.id_apply]
    split_ifs
    · ring
    · rfl

def gatherLine : (ℤ → F) →ₗ[F] (ℤ → F) where
  toFun f c := f (2 * c - 1) + ((2 : ℕ) : F)⁻¹ * (f (2 * c - 2) + f (2 * c))
  map_add' f g := by
    funext c
    simp only [Pi.add_apply]
    ring
  map_smul' a f := by
    funext c
    simp only [Pi.smul_apply, smul_eq_mul, RingHom.id_apply]
    ring

section lines

variable (T : (ℤ → F) →ₗ[F] (ℤ → F))

def alongX : (Point → F) →ₗ[F] (Point → F) where
  toFun g p := T (fun t => g (t, p.2.1, p.2.2)) p.1
  map_add' f g := funext fun p =>
    congrFun (T.map_add (fun t => f (t, p.2.1, p.2.2)) fun t => g (t, p.2.1, p.2.2)) p.1
  map_smul' c g := funext fun p => congrFun (T.map_smul c fun t => g (t, p.2.1, p.2.2)) p.1

def alongY : (Point → F) →ₗ[F] (Point → F) where
  toFun g p := T (fun t => g (p.1, t, p.2.2)) p.2.1
  map_add' f g := funext fun p =>
    congrFun (T.map_add (fun t => f (p.1, t, p.2.2)) fun t => g (p.1, t, p.2.2)) p.2.1
  map_smul' c g := funext fun p => congrFun (T.map_smul c fun t => g (p.1, t, p.2.2)) p.2.1

def alongZ : (Point → F) →ₗ[F] (Point → F) where
  toFun g p := T (fun t => g (p.1, p.2.1, t)) p.2.2
  map_add' f g := funext fun p =>
    congrFun (T.map_add (fun t => f (p.1, p.2.1, t)) fun t => g (p.1, p.2.1, t)) p.2.2
  map_smul' c g := funext fun p => congrFun (T.map_smul c fun t => g (p.1, p.2.1, t)) p.2.2

variable {T} {n m a b : ℕ} {g : Point → F}

/-- The lines of period `n` are taken to lines of period `m`. -/
def Carries (T : (ℤ → F) →ₗ[F] (ℤ → F)) (n m : ℕ) : Prop :=
  ∀ f : ℤ → F, (∀ t, f (t + n) = f t) → ∀ t, T f (t + m) = T f t

theorem alongX_mem (carries : Carries T n m) (h : g ∈ periodic F (n, a, b)) :
    alongX T g ∈ periodic F (m, a, b) := by
  intro x y z
  refine ⟨carries _ (fun t => (h t y z).1) x, ?_, ?_⟩
  · exact congrArg (T · x) (funext fun t => (h t y z).2.1)
  · exact congrArg (T · x) (funext fun t => (h t y z).2.2)

theorem alongY_mem (carries : Carries T n m) (h : g ∈ periodic F (a, n, b)) :
    alongY T g ∈ periodic F (a, m, b) := by
  intro x y z
  refine ⟨?_, carries _ (fun t => (h x t z).2.1) y, ?_⟩
  · exact congrArg (T · y) (funext fun t => (h x t z).1)
  · exact congrArg (T · y) (funext fun t => (h x t z).2.2)

theorem alongZ_mem (carries : Carries T n m) (h : g ∈ periodic F (a, b, n)) :
    alongZ T g ∈ periodic F (a, b, m) := by
  intro x y z
  refine ⟨?_, ?_, carries _ (fun t => (h x y t).2.2) z⟩
  · exact congrArg (T · z) (funext fun t => (h x y t).1)
  · exact congrArg (T · z) (funext fun t => (h x y t).2.1)

end lines

theorem carries_prolongLine (n : ℕ) : Carries (prolongLine : (ℤ → F) →ₗ[F] (ℤ → F)) n (2 * n) := by
  intro f h t
  have half : (t + (2 * n : ℕ)) / 2 = t / 2 + n := by omega
  have upper : (t + (2 * n : ℕ) + 1) / 2 = (t + 1) / 2 + n := by omega
  have parity : (t + (2 * n : ℕ)) % 2 = t % 2 := by omega
  simp only [prolongLine, LinearMap.coe_mk, AddHom.coe_mk, half, upper, parity, h,
    add_right_comm _ (n : ℤ)]

theorem carries_gatherLine (n : ℕ) : Carries (gatherLine : (ℤ → F) →ₗ[F] (ℤ → F)) (2 * n) n := by
  intro f h c
  have back (u v : ℤ) (same : u = v + (2 * n : ℕ)) : f u = f v := same ▸ h v
  change f (2 * (c + n) - 1) + _ * (f (2 * (c + n) - 2) + f (2 * (c + n))) = _
  rw [back (2 * (c + n) - 1) (2 * c - 1) (by push_cast; ring),
    back (2 * (c + n) - 2) (2 * c - 2) (by push_cast; ring),
    back (2 * (c + n)) (2 * c) (by push_cast; ring)]
  rfl

def interpolate : (Point → F) →ₗ[F] (Point → F) :=
  alongX prolongLine ∘ₗ alongY prolongLine ∘ₗ alongZ prolongLine

def weigh : (Point → F) →ₗ[F] (Point → F) :=
  ((2 : ℕ) : F)⁻¹ • alongZ gatherLine ∘ₗ alongY gatherLine ∘ₗ alongX gatherLine

def prolong (N : Periods) : periodic F N →ₗ[F] periodic F (double N) :=
  interpolate.restrict fun _ h => alongX_mem (carries_prolongLine N.1)
    (alongY_mem (carries_prolongLine N.2.1) (alongZ_mem (carries_prolongLine N.2.2) h))

def project (N : Periods) : periodic F (double N) →ₗ[F] periodic F N :=
  weigh.restrict fun _ h => Submodule.smul_mem _ _ (alongZ_mem (carries_gatherLine N.2.2)
    (alongY_mem (carries_gatherLine N.2.1) (alongX_mem (carries_gatherLine N.1) h)))

theorem prolongLine_odd (f : ℤ → F) (c : ℤ) : prolongLine f (2 * c - 1) = f c := by
  have odd : (2 * c - 1) % 2 ≠ 0 := by omega
  change (if (2 * c - 1) % 2 = 0 then _ else f ((2 * c - 1 + 1) / 2)) = f c
  rw [if_neg odd, show (2 * c - 1 + 1) / 2 = c by omega]

theorem prolongLine_even (f : ℤ → F) (c : ℤ) :
    prolongLine f (2 * c) = ((2 : ℕ) : F)⁻¹ * (f c + f (c + 1)) := by
  change (if 2 * c % 2 = 0 then _ * (f (2 * c / 2) + f (2 * c / 2 + 1)) else _) = _
  rw [if_pos (by omega), show 2 * c / 2 = c by omega]

theorem gatherLine_apply (f : ℤ → F) (c : ℤ) :
    gatherLine f c = f (2 * c - 1) + ((2 : ℕ) : F)⁻¹ * (f (2 * c - 2) + f (2 * c)) := rfl

theorem weigh_apply (g : Point → F) (x y z : ℤ) : weigh g (x, y, z) =
    around (fun d => ((2 : ℕ) : F)⁻¹ ^ (d + 1)) g (2 * x - 1, 2 * y - 1, 2 * z - 1) := by
  have back (t : ℤ) : 2 * t - 1 - 1 = 2 * t - 2 := by ring
  simp only [weigh, LinearMap.smul_apply, LinearMap.comp_apply, Pi.smul_apply, smul_eq_mul, alongX,
    alongY, alongZ, LinearMap.coe_mk, AddHom.coe_mk, gatherLine_apply, around_apply, back,
    sub_add_cancel]
  ring

/-! ### The two transfers are adjoint -/

def lineSum (n : ℕ) (f g : ℤ → F) : F := ∑ i ∈ Finset.range n, f (i + 2) * g (i + 2)

def gridSum (N : Periods) (f g : Point → F) : F :=
  ∑ i ∈ Finset.range N.1, ∑ j ∈ Finset.range N.2.1, ∑ k ∈ Finset.range N.2.2,
    f (i + 2, j + 2, k + 2) * g (i + 2, j + 2, k + 2)

theorem sum_range_double (n : ℕ) (h : ℕ → F) :
    ∑ x ∈ Finset.range (2 * n), h x = ∑ c ∈ Finset.range n, (h (2 * c) + h (2 * c + 1)) := by
  induction n with
  | zero => rfl
  | succ n ih =>
    rw [Finset.sum_range_succ, ← ih, show 2 * (n + 1) = 2 * n + 1 + 1 by ring,
      Finset.sum_range_succ, Finset.sum_range_succ, add_assoc]

theorem lineSum_prolongLine {n : ℕ} {r z : ℤ → F} (hr : ∀ t, r (t + (2 * n : ℕ)) = r t)
    (hz : ∀ t, z (t + n) = z t) :
    lineSum (2 * n) r (prolongLine z) = lineSum n (gatherLine r) z := by
  let shared (c : ℕ) : F := r (2 * c + 2) * z (c + 1)
  have round : ∑ c ∈ Finset.range n, shared c = ∑ c ∈ Finset.range n, shared (c + 1) := by
    have ends : shared n = shared 0 := by
      have right : (2 * n + 2 : ℤ) = 2 * (0 : ℕ) + 2 + (2 * n : ℕ) := by push_cast; ring
      have left : (n + 1 : ℤ) = (0 : ℕ) + 1 + n := by push_cast; ring
      simp only [shared]
      rw [right, left, hr, hz]
    have := Finset.sum_range_succ shared n
    rw [Finset.sum_range_succ', ends] at this
    exact (add_right_cancel this).symm
  have even (c : ℕ) : prolongLine z ((2 * c : ℕ) + 2) =
      ((2 : ℕ) : F)⁻¹ * (z (c + 1) + z (c + 2)) := by
    rw [show ((2 * c : ℕ) + 2 : ℤ) = 2 * (c + 1) by push_cast; ring, prolongLine_even,
      show (c + 1 + 1 : ℤ) = c + 2 by ring]
  have odd (c : ℕ) : prolongLine z ((2 * c + 1 : ℕ) + 2) = z (c + 2) := by
    rw [show ((2 * c + 1 : ℕ) + 2 : ℤ) = 2 * (c + 2) - 1 by push_cast; ring, prolongLine_odd]
  have gather (c : ℕ) : gatherLine r (c + 2) = r ((2 * c + 1 : ℕ) + 2) +
      ((2 : ℕ) : F)⁻¹ * (r ((2 * c : ℕ) + 2) + r (2 * (c + 1 : ℕ) + 2)) := by
    change r (2 * (c + 2) - 1) + _ * (r (2 * (c + 2) - 2) + r (2 * (c + 2))) = _
    rw [show (2 * (c + 2) - 1 : ℤ) = (2 * c + 1 : ℕ) + 2 by push_cast; ring,
      show (2 * (c + 2) - 2 : ℤ) = (2 * c : ℕ) + 2 by push_cast; ring,
      show (2 * (c + 2) : ℤ) = 2 * (c + 1 : ℕ) + 2 by push_cast; ring]
  have fine : lineSum (2 * n) r (prolongLine z) = ∑ c ∈ Finset.range n,
      ((r ((2 * c + 1 : ℕ) + 2) + ((2 : ℕ) : F)⁻¹ * r ((2 * c : ℕ) + 2)) * z (c + 2) +
        ((2 : ℕ) : F)⁻¹ * shared c) := by
    rw [lineSum, sum_range_double]
    refine Finset.sum_congr rfl fun c _ => ?_
    rw [even, odd]
    simp only [shared]
    push_cast
    ring
  have coarse : lineSum n (gatherLine r) z = ∑ c ∈ Finset.range n,
      ((r ((2 * c + 1 : ℕ) + 2) + ((2 : ℕ) : F)⁻¹ * r ((2 * c : ℕ) + 2)) * z (c + 2) +
        ((2 : ℕ) : F)⁻¹ * shared (c + 1)) := by
    refine Finset.sum_congr rfl fun c _ => ?_
    rw [gather]
    simp only [shared]
    push_cast
    rw [show (c + 1 + 1 : ℤ) = c + 2 by ring]
    ring
  rw [fine, coarse, Finset.sum_add_distrib, Finset.sum_add_distrib, ← Finset.mul_sum,
    ← Finset.mul_sum, round]

section grids

variable {n a b : ℕ} {r z : Point → F}

theorem gridSum_alongX (hr : r ∈ periodic F (2 * n, a, b)) (hz : z ∈ periodic F (n, a, b)) :
    gridSum (2 * n, a, b) r (alongX prolongLine z) =
      gridSum (n, a, b) (alongX gatherLine r) z := by
  have inner (m : ℕ) (f g : Point → F) : gridSum (m, a, b) f g =
      ∑ j ∈ Finset.range a, ∑ k ∈ Finset.range b,
        lineSum m (fun t => f (t, j + 2, k + 2)) fun t => g (t, j + 2, k + 2) := by
    rw [gridSum, Finset.sum_comm]
    exact Finset.sum_congr rfl fun j _ => Finset.sum_comm
  rw [inner, inner]
  exact Finset.sum_congr rfl fun j _ => Finset.sum_congr rfl fun k _ =>
    lineSum_prolongLine (r := fun t => r (t, j + 2, k + 2)) (z := fun t => z (t, j + 2, k + 2))
      (fun t => (hr t _ _).1) fun t => (hz t _ _).1

theorem gridSum_alongY (hr : r ∈ periodic F (a, 2 * n, b)) (hz : z ∈ periodic F (a, n, b)) :
    gridSum (a, 2 * n, b) r (alongY prolongLine z) =
      gridSum (a, n, b) (alongY gatherLine r) z := by
  have inner (m : ℕ) (f g : Point → F) : gridSum (a, m, b) f g =
      ∑ i ∈ Finset.range a, ∑ k ∈ Finset.range b,
        lineSum m (fun t => f (i + 2, t, k + 2)) fun t => g (i + 2, t, k + 2) :=
    Finset.sum_congr rfl fun i _ => Finset.sum_comm
  rw [inner, inner]
  exact Finset.sum_congr rfl fun i _ => Finset.sum_congr rfl fun k _ =>
    lineSum_prolongLine (r := fun t => r (i + 2, t, k + 2)) (z := fun t => z (i + 2, t, k + 2))
      (fun t => (hr _ t _).2.1) fun t => (hz _ t _).2.1

theorem gridSum_alongZ (hr : r ∈ periodic F (a, b, 2 * n)) (hz : z ∈ periodic F (a, b, n)) :
    gridSum (a, b, 2 * n) r (alongZ prolongLine z) =
      gridSum (a, b, n) (alongZ gatherLine r) z :=
  Finset.sum_congr rfl fun i _ => Finset.sum_congr rfl fun j _ =>
    lineSum_prolongLine (r := fun t => r (i + 2, j + 2, t)) (z := fun t => z (i + 2, j + 2, t))
      (fun t => (hr _ _ t).2.2) fun t => (hz _ _ t).2.2

end grids

theorem gridSum_weigh {N : Periods} {r z : Point → F} (hr : r ∈ periodic F (double N))
    (hz : z ∈ periodic F N) :
    gridSum N (weigh r) z = ((2 : ℕ) : F)⁻¹ * gridSum (double N) r (interpolate z) := by
  have scale (f : Point → F) (c : F) : gridSum N (c • f) z = c * gridSum N f z := by
    simp only [gridSum, Finset.mul_sum, Pi.smul_apply, smul_eq_mul, mul_assoc]
  have hx := alongX_mem (carries_gatherLine N.1) hr
  have hy := alongY_mem (carries_gatherLine N.2.1) hx
  have hz' := alongZ_mem (carries_prolongLine N.2.2) hz
  have hy' := alongY_mem (carries_prolongLine N.2.1) hz'
  refine (scale _ _).trans (congrArg _ ?_)
  exact ((gridSum_alongX hr hy').trans ((gridSum_alongY hx hz').trans
    (gridSum_alongZ hy hz))).symm

end Baseliner.PeriodicGrids
