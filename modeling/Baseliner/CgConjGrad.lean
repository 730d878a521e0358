import Baseliner.CgMatrix
import Baseliner.ConjugateGradient
import Baseliner.OwnEntries
import Mathlib.LinearAlgebra.Dimension.Constructions
import Mathlib.LinearAlgebra.Matrix.DotProduct
import Mathlib.LinearAlgebra.Matrix.ToLin
import Mathlib.Algebra.Order.Field.Basic

/-! The solver of the CG benchmark, over an arbitrary field, on the matrix that `sparse` makes.
The loops of `conj_grad` are those of the method of conjugate gradients, and the norm that is
computed at the end from the solution is the one that the loop carries along. -/

namespace Baseliner.CgConjGrad
open Matrix

variable {K : Type*} [Field K]

/-- The arrays of `conj_grad`, and `rho`. -/
structure Vectors (K : Type*) where
  z : ℕ → K
  p : ℕ → K
  q : ℕ → K
  r : ℕ → K
  rho : K

section loops

variable (n : ℕ) (M : CgSparse.Matrix K)

def rows : List ℕ := List.range' 1 n

def rowTimes (v : ℕ → K) (j : ℕ) : K :=
  (List.range' (M.rowstr j) (M.rowstr (j + 1) - M.rowstr j)).foldl
    (fun suml k => suml + M.a k * v (M.colidx k)) 0

def dot (u v : ℕ → K) : K := (rows n).foldl (fun sum j => sum + u j * v j) 0

/-- The arrays before the loop. They have one entry more than the matrix has rows. -/
def start (x : ℕ → K) (old : Vectors K) : Vectors K :=
  let all := List.range' 1 (n + 1)
  let r := OwnEntries.sweep all (fun j _ => x j) old.r
  { z := OwnEntries.sweep all (fun _ _ => 0) old.z
    p := OwnEntries.sweep all (fun j _ => r j) old.p
    q := OwnEntries.sweep all (fun _ _ => 0) old.q
    r := r
    rho := dot n r r }

/-- The loop that goes on with `z` and `r` and sums up the squares of the new `r`. -/
def advance (alpha : K) (s : Vectors K) : Vectors K :=
  (rows n).foldl (fun s j =>
    let r := s.r j - alpha * s.q j
    { s with
      z := Function.update s.z j (s.z j + alpha * s.p j)
      r := Function.update s.r j r
      rho := s.rho + r * r }) { s with rho := 0 }

/-- One turn of the loop over `cgit`. -/
def turn (s : Vectors K) : Vectors K :=
  let rho0 := s.rho
  let q := OwnEntries.sweep (rows n) (fun j _ => rowTimes M s.p j) s.q
  let d := dot n s.p q
  let alpha := rho0 / d
  let s := advance n alpha { s with q := q }
  let beta := s.rho / rho0
  { s with p := OwnEntries.sweep (rows n) (fun j v => s.r j + beta * v) s.p }

def turns (x : ℕ → K) (old : Vectors K) (cgit : ℕ) : Vectors K :=
  (turn n M)^[cgit] (start n x old)

def cgitmax : ℕ := 25

/-- The arrays that `conj_grad` leaves, and the square of `rnorm`. -/
def conjGrad (x : ℕ → K) (old : Vectors K) : Vectors K × K :=
  let s := turns n M x old cgitmax
  let r := OwnEntries.sweep (rows n) (fun j _ => rowTimes M s.z j) s.r
  ({ s with r := r }, (rows n).foldl (fun sum j => sum + (x j - r j) * (x j - r j)) 0)

end loops

/-! ### Arrays as vectors -/

variable {n : ℕ}

def vec (n : ℕ) (v : ℕ → K) : Fin n → K := fun j => v (j + 1)

omit [Field K] in
theorem mem_rows (j : Fin n) : (j : ℕ) + 1 ∈ rows n := List.mem_range'_1.mpr (by omega)

theorem foldl_range' (f : ℕ → K) (low m : ℕ) :
    (List.range' low m).foldl (fun sum k => sum + f k) 0 = ∑ k ∈ Finset.Ico low (low + m), f k := by
  have split : ((List.range' low m).map f).sum =
      (List.range' low m).foldl (fun sum k => sum + f k) 0 := by
    rw [List.sum_eq_foldl, List.foldl_map]
  rw [← split, List.range'_eq_map_range, List.map_map, Finset.sum_Ico_eq_sum_range,
    Nat.add_sub_cancel_left]
  rfl

theorem foldl_rows (f : ℕ → K) : (rows n).foldl (fun sum j => sum + f j) 0 =
    ∑ j : Fin n, f (j + 1) := by
  rw [rows, foldl_range', Finset.sum_Ico_eq_sum_range, Nat.add_sub_cancel_left, Finset.sum_range]
  simp only [Nat.add_comm 1]

theorem dot_eq (u v : ℕ → K) : dot n u v = vec n u ⬝ᵥ vec n v := foldl_rows fun j => u j * v j

theorem foldl_advance (alpha : K) {entries : List ℕ} (once : entries.Nodup) (s : Vectors K) :
    entries.foldl (fun s j =>
      let r := s.r j - alpha * s.q j
      { s with
        z := Function.update s.z j (s.z j + alpha * s.p j)
        r := Function.update s.r j r
        rho := s.rho + r * r }) s =
    { s with
      z := OwnEntries.sweep entries (fun j v => v + alpha * s.p j) s.z
      r := OwnEntries.sweep entries (fun j v => v - alpha * s.q j) s.r
      rho := entries.foldl (fun sum j =>
        sum + (s.r j - alpha * s.q j) * (s.r j - alpha * s.q j)) s.rho } := by
  induction entries generalizing s with
  | nil => rfl
  | cons e entries ih =>
    obtain ⟨fresh, once⟩ := List.nodup_cons.mp once
    rw [List.foldl_cons, ih once]
    simp only [Vectors.mk.injEq, true_and]
    refine ⟨rfl, rfl, List.foldl_ext _ _ _ fun sum j mem => ?_⟩
    rw [Function.update_of_ne (ne_of_mem_of_not_mem mem fresh)]

/-! ### The matrix -/

section matrix

variable (p : CgSparse.Problem K)

/-- What the lists come to in row `j` and column `c`. -/
def coefficient (j c : ℕ) : K :=
  (∑ i ∈ (Finset.Icc 1 p.n).filter fun i => p.Has i j ∧ p.Has i c,
    p.ratio ^ (i - 1) * p.elt i j * p.elt i c) + if c = j then p.rcond - p.shift else 0

def system : Matrix (Fin p.n) (Fin p.n) K := fun i j => coefficient p (i + 1) (j + 1)

theorem coefficient_comm (j c : ℕ) : coefficient p j c = coefficient p c j := by
  simp only [coefficient, and_comm (a := p.Has _ j), mul_right_comm _ (p.elt _ j), eq_comm (a := c)]

theorem system_transpose : (system p)ᵀ = system p := by
  ext i j
  exact coefficient_comm p _ _

theorem coefficient_eq_zero {j c : ℕ} (low : 1 ≤ j) (high : j ≤ p.n)
    (none : ¬∃ i, 1 ≤ i ∧ i ≤ p.n ∧ p.Has i j ∧ p.Has i c) : coefficient p j c = 0 := by
  have other : c ≠ j := by
    rintro rfl
    exact none ⟨c, low, high, p.own c low high, p.own c low high⟩
  rw [coefficient, if_neg other, add_zero]
  refine Finset.sum_eq_zero fun i mem => ?_
  obtain ⟨range, has⟩ := Finset.mem_filter.mp mem
  exact absurd ⟨i, (Finset.mem_Icc.mp range).1, (Finset.mem_Icc.mp range).2, has⟩ none

variable {p} {M : CgSparse.Matrix K}

theorem rowTimes_eq (assembled : p.Assembled M) (v : ℕ → K) (i : Fin p.n) :
    rowTimes M v (i + 1) = (system p *ᵥ vec p.n v) i := by
  have low : 1 ≤ (i : ℕ) + 1 := by omega
  have high : (i : ℕ) + 1 ≤ p.n := i.isLt
  have row := assembled.columns (i + 1) low high
  have loop : rowTimes M v (i + 1) =
      ∑ k ∈ Finset.Ico (M.rowstr (i + 1)) (M.rowstr (i + 1 + 1)), M.a k * v (M.colidx k) := by
    rw [rowTimes, foldl_range' fun k => M.a k * v (M.colidx k),
      Nat.add_sub_cancel' (assembled.ordered _ low high)]
  have columns : (system p *ᵥ vec p.n v) i =
      ∑ c ∈ Finset.Ico 1 (p.n + 1), coefficient p (i + 1) c * v c := by
    rw [Finset.sum_Ico_eq_sum_range, Nat.add_sub_cancel, Finset.sum_range]
    simp only [Nat.add_comm 1]
    rfl
  rw [loop, columns]
  refine Finset.sum_of_injOn M.colidx ?_ ?_ ?_ ?_
  · intro k mem l mem' same
    have inside := Finset.mem_Ico.mp mem
    have inside' := Finset.mem_Ico.mp mem'
    obtain less | eq | more := lt_trichotomy k l
    · have := assembled.ascending _ low high k l inside.1 less inside'.2
      omega
    · exact eq
    · have := assembled.ascending _ low high l k inside'.1 more inside.2
      omega
  · intro k mem
    have inside := Finset.mem_Ico.mp mem
    obtain ⟨l, above, below, -, has⟩ := (row (M.colidx k)).mp ⟨k, inside.1, inside.2, rfl⟩
    obtain ⟨e, listed, same⟩ := List.mem_map.mp has
    have bounds := p.inside l above below e listed
    exact Finset.mem_coe.mpr (Finset.mem_Ico.mpr (by omega))
  · intro c _ absent
    rw [coefficient_eq_zero p low high, zero_mul]
    rintro present
    obtain ⟨k, above, below, same⟩ := (row c).mpr present
    exact absent ⟨k, Finset.mem_coe.mpr (Finset.mem_Ico.mpr ⟨above, below⟩), same⟩
  · intro k mem
    have inside := Finset.mem_Ico.mp mem
    rw [assembled.values _ low high k inside.1 inside.2, coefficient]

end matrix

/-! ### The turns -/

section turns

variable {p : CgSparse.Problem K} {M : CgSparse.Matrix K}

def form (n : ℕ) : LinearMap.BilinForm K (Fin n → K) :=
  LinearMap.mk₂ K (· ⬝ᵥ ·) add_dotProduct smul_dotProduct dotProduct_add
    fun c u v => dotProduct_smul c u v

theorem form_apply (u v : Fin n → K) : form n u v = u ⬝ᵥ v := rfl

theorem form_symm (u v : Fin n → K) : form n u v = form n v u := dotProduct_comm u v

theorem form_adjoint (p : CgSparse.Problem K) (u v : Fin p.n → K) :
    form p.n ((system p).mulVecLin u) v = form p.n u ((system p).mulVecLin v) := by
  rw [form_apply, form_apply, mulVecLin_apply, mulVecLin_apply, dotProduct_mulVec,
    ← mulVec_transpose, system_transpose]

def toIterate (n : ℕ) (s : Vectors K) : ConjugateGradient.Iterate (Fin n → K) :=
  ⟨vec n s.z, vec n s.r, vec n s.p⟩

omit [Field K] in
theorem vec_sweep {entries : List ℕ} (once : entries.Nodup)
    (all : ∀ j : Fin n, (j : ℕ) + 1 ∈ entries) (f : ℕ → K → K) (v : ℕ → K) :
    vec n (OwnEntries.sweep entries f v) = fun j : Fin n => f (j + 1) (vec n v j) := by
  funext j
  rw [vec, OwnEntries.sweep_apply once, if_pos (all j)]
  rfl

theorem nodup_rows (n : ℕ) : (rows n).Nodup := List.nodup_range' ..

theorem toIterate_start (n : ℕ) (x : ℕ → K) (old : Vectors K) :
    toIterate n (start n x old) = ConjugateGradient.start (vec n x) ∧
      (start n x old).rho = form n (vec n x) (vec n x) := by
  have once : (List.range' 1 (n + 1)).Nodup := List.nodup_range' ..
  have all (j : Fin n) : (j : ℕ) + 1 ∈ List.range' 1 (n + 1) :=
    List.mem_range'_1.mpr (by omega)
  have r : vec n (start n x old).r = vec n x := by
    simp only [start]
    exact vec_sweep once all _ _
  have z : vec n (start n x old).z = 0 := by
    simp only [start]
    exact vec_sweep once all _ _
  have p : vec n (start n x old).p = vec n (start n x old).r := by
    simp only [start]
    exact vec_sweep once all _ _
  refine ⟨?_, ?_⟩
  · rw [toIterate, p, r, z]
    rfl
  · rw [← r]
    exact dot_eq ..

theorem toIterate_turn (assembled : p.Assembled M) (s : Vectors K)
    (rho : s.rho = form p.n (vec p.n s.r) (vec p.n s.r)) :
    toIterate p.n (turn p.n M s) =
      ConjugateGradient.turn (form p.n) (system p).mulVecLin (toIterate p.n s) ∧
    (turn p.n M s).rho = form p.n (vec p.n (turn p.n M s).r) (vec p.n (turn p.n M s).r) := by
  have once := nodup_rows p.n
  have all : ∀ j : Fin p.n, (j : ℕ) + 1 ∈ rows p.n := mem_rows
  have q : vec p.n (turn p.n M s).q = system p *ᵥ vec p.n s.p := by
    simp only [turn, advance, foldl_advance _ once]
    exact (vec_sweep once all _ _).trans (funext fun i => rowTimes_eq assembled s.p i)
  have d : dot p.n s.p (turn p.n M s).q = form p.n (vec p.n s.p) (system p *ᵥ vec p.n s.p) := by
    rw [dot_eq, q]
    rfl
  have alpha : s.rho / dot p.n s.p (turn p.n M s).q =
      ConjugateGradient.alpha (form p.n) (system p).mulVecLin (toIterate p.n s) := by
    rw [d, rho]
    rfl
  have z : vec p.n (turn p.n M s).z = vec p.n s.z +
      (s.rho / dot p.n s.p (turn p.n M s).q) • vec p.n s.p := by
    simp only [turn, advance, foldl_advance _ once]
    exact vec_sweep once all _ _
  have r : vec p.n (turn p.n M s).r = vec p.n s.r -
      (s.rho / dot p.n s.p (turn p.n M s).q) • vec p.n (turn p.n M s).q := by
    simp only [turn, advance, foldl_advance _ once]
    exact vec_sweep once all _ _
  have square : (turn p.n M s).rho =
      form p.n (vec p.n (turn p.n M s).r) (vec p.n (turn p.n M s).r) := by
    rw [r]
    simp only [turn, advance, foldl_advance _ once]
    exact foldl_rows _
  have direction : vec p.n (turn p.n M s).p = vec p.n (turn p.n M s).r +
      ((turn p.n M s).rho / s.rho) • vec p.n s.p := by
    simp only [turn, advance, foldl_advance _ once]
    exact vec_sweep once all _ _
  refine ⟨?_, square⟩
  rw [q, alpha] at r
  rw [alpha] at z
  rw [square, rho, r] at direction
  rw [toIterate, z, r, direction]
  rfl

theorem toIterate_turns (assembled : p.Assembled M) (x : ℕ → K) (old : Vectors K) (k : ℕ) :
    toIterate p.n (turns p.n M x old k) =
      ConjugateGradient.iterate (form p.n) (system p).mulVecLin (vec p.n x) k ∧
    (turns p.n M x old k).rho =
      form p.n (vec p.n (turns p.n M x old k).r) (vec p.n (turns p.n M x old k).r) := by
  induction k with
  | zero =>
    obtain ⟨first, rho⟩ := toIterate_start p.n x old
    have r : vec p.n (start p.n x old).r = vec p.n x := congrArg ConjugateGradient.Iterate.r first
    refine ⟨first, rho.trans ?_⟩
    rw [← r]
    rfl
  | succ k ih =>
    obtain ⟨same, rho⟩ := ih
    have step := toIterate_turn assembled _ rho
    rw [turns, Function.iterate_succ_apply', ← turns]
    refine ⟨?_, step.2⟩
    rw [step.1, same, ConjugateGradient.iterate_succ]

def Regular (n : ℕ) (M : CgSparse.Matrix K) (x : ℕ → K) (old : Vectors K) (k : ℕ) : Prop :=
  ∀ i < k, (turns n M x old i).rho ≠ 0 ∧
    dot n (turns n M x old i).p (turns n M x old (i + 1)).q ≠ 0

section

variable (assembled : p.Assembled M) (x : ℕ → K) (old : Vectors K)

include assembled

theorem vec_q (i : ℕ) : vec p.n (turns p.n M x old (i + 1)).q =
    system p *ᵥ vec p.n (turns p.n M x old i).p := by
  rw [turns, Function.iterate_succ_apply', ← turns]
  simp only [turn, advance, foldl_advance _ (nodup_rows p.n)]
  exact (vec_sweep (nodup_rows p.n) mem_rows _ _).trans
    (funext fun j => rowTimes_eq assembled _ j)

theorem iterate_eq (i : ℕ) : ConjugateGradient.iterate (form p.n) (system p).mulVecLin
    (vec p.n x) i = toIterate p.n (turns p.n M x old i) :=
  (toIterate_turns assembled x old i).1.symm

theorem d_eq (i : ℕ) : dot p.n (turns p.n M x old i).p (turns p.n M x old (i + 1)).q =
    form p.n (vec p.n (turns p.n M x old i).p)
      ((system p).mulVecLin (vec p.n (turns p.n M x old i).p)) := by
  rw [dot_eq, vec_q assembled]
  rfl

theorem regular_iff (k : ℕ) : Regular p.n M x old k ↔
    ConjugateGradient.Regular (form p.n) (system p).mulVecLin (vec p.n x) k := by
  refine forall_congr' fun i => imp_congr_right fun _ => ?_
  rw [iterate_eq assembled x old, (toIterate_turns assembled x old i).2, d_eq assembled]
  rfl

theorem residual (k : ℕ) {j : ℕ} (mem : j ∈ rows p.n) : (turns p.n M x old k).r j =
    x j - rowTimes M (turns p.n M x old k).z j := by
  have carried := ConjugateGradient.residual (B := form p.n) (A := (system p).mulVecLin)
    (vec p.n x) k
  rw [iterate_eq assembled x old] at carried
  obtain ⟨low, high⟩ := List.mem_range'_1.mp mem
  obtain ⟨i, rfl⟩ : ∃ i : Fin p.n, j = i + 1 := ⟨⟨j - 1, by omega⟩, by simp; omega⟩
  rw [rowTimes_eq assembled]
  exact congrFun carried i

end

/-- The loop carries the residual of its solution along, so the norm that is computed at the end
is the square root of the last `rho`; and as long as no turn divides by zero, the residuals are
orthogonal and the directions conjugate. -/
theorem conj_grad_turns (p : CgSparse.Problem K) (M : CgSparse.Matrix K)
    (assembled : p.Assembled M) (x : ℕ → K) (old : Vectors K) :
    (conjGrad p.n M x old).2 = (turns p.n M x old cgitmax).rho ∧
    ∀ k,
      (∀ j ∈ rows p.n, (turns p.n M x old k).r j =
        x j - rowTimes M (turns p.n M x old k).z j) ∧
      (turns p.n M x old k).rho = dot p.n (turns p.n M x old k).r (turns p.n M x old k).r ∧
      (Regular p.n M x old k → ∀ i < k,
        dot p.n (turns p.n M x old i).r (turns p.n M x old k).r = 0 ∧
        dot p.n (turns p.n M x old i).p (turns p.n M x old (k + 1)).q = 0) := by
  have carried (k : ℕ) : (turns p.n M x old k).rho =
      dot p.n (turns p.n M x old k).r (turns p.n M x old k).r :=
    (toIterate_turns assembled x old k).2.trans (dot_eq ..).symm
  refine ⟨?_, fun k => ⟨fun j => residual assembled x old k, carried k, fun regular i lt => ?_⟩⟩
  · rw [carried, conjGrad, dot]
    refine List.foldl_ext _ _ _ fun sum j mem => ?_
    rw [OwnEntries.sweep_apply (nodup_rows p.n), if_pos mem, residual assembled x old _ mem]
  · have inv := ConjugateGradient.inv_iterate (form_adjoint p)
      ((regular_iff assembled x old k).mp regular)
    have orthogonal := inv.orthogonal i lt
    have conjugate := inv.conjugate i lt
    rw [iterate_eq assembled x old, iterate_eq assembled x old] at orthogonal conjugate
    rw [dot_eq, dot_eq, vec_q assembled]
    exact ⟨orthogonal, conjugate⟩

/-- Within as many turns as the matrix has rows, the solution is exact or `alpha` is a division
by zero. -/
theorem conj_grad_ends [LinearOrder K] [IsStrictOrderedRing K] (p : CgSparse.Problem K)
    (M : CgSparse.Matrix K) (assembled : p.Assembled M) (x : ℕ → K) (old : Vectors K) :
    ∃ k ≤ p.n, Regular p.n M x old k ∧
      ((∀ j ∈ rows p.n, rowTimes M (turns p.n M x old k).z j = x j) ∨
        dot p.n (turns p.n M x old k).p (turns p.n M x old (k + 1)).q = 0) := by
  obtain ⟨k, le, regular, last⟩ := ConjugateGradient.exists_last (form_adjoint p) form_symm
    (vec p.n x)
  rw [iterate_eq assembled x old] at last
  refine ⟨k, le.trans_eq (Module.finrank_fin_fun K),
    (regular_iff assembled x old k).mpr regular, last.imp (fun zero j mem => ?_) fun zero => ?_⟩
  · have none : vec p.n (turns p.n M x old k).r = 0 := dotProduct_self_eq_zero.mp zero
    obtain ⟨low, high⟩ := List.mem_range'_1.mp mem
    have entry : (turns p.n M x old k).r j = 0 := by
      have := congrFun none ⟨j - 1, by omega⟩
      rwa [vec, Nat.sub_add_cancel low] at this
    have own := residual assembled x old k mem
    rw [entry, eq_comm, sub_eq_zero] at own
    exact own.symm
  · exact (d_eq assembled x old k).trans zero

end turns

def twoRows : CgSparse.Problem ℚ where
  n := 2
  nz := 5
  rcond := 1/10
  shift := 10
  ratio := 1/3
  entries i := if i = 1 then [(2, 5), (1, 1/2)] else [(2, 1/2)]
  positive := Nat.two_pos
  distinct i low high := by
    interval_cases i
    · decide
    · decide
  inside i low high := by
    interval_cases i
    · decide +kernel
    · decide +kernel
  own i low high := by
    interval_cases i
    · decide
    · decide

theorem conj_grad_turns_twoRows :
    (conjGrad 2 twoRows.matrix (fun _ => 1) ⟨0, 0, 0, 0, 0⟩).2 =
      (turns 2 twoRows.matrix (fun _ => 1) ⟨0, 0, 0, 0, 0⟩ cgitmax).rho :=
  (conj_grad_turns twoRows twoRows.matrix (CgMatrix.assembled_matrix twoRows) (fun _ => 1)
    ⟨0, 0, 0, 0, 0⟩).1

theorem conj_grad_ends_twoRows : ∃ k ≤ 2,
    Regular 2 twoRows.matrix (fun _ => 1) ⟨0, 0, 0, 0, 0⟩ k ∧
      ((∀ j ∈ rows 2, rowTimes twoRows.matrix
          (turns 2 twoRows.matrix (fun _ => 1) ⟨0, 0, 0, 0, 0⟩ k).z j = 1) ∨
        dot 2 (turns 2 twoRows.matrix (fun _ => 1) ⟨0, 0, 0, 0, 0⟩ k).p
          (turns 2 twoRows.matrix (fun _ => 1) ⟨0, 0, 0, 0, 0⟩ (k + 1)).q = 0) :=
  conj_grad_ends twoRows twoRows.matrix (CgMatrix.assembled_matrix twoRows) (fun _ => 1)
    ⟨0, 0, 0, 0, 0⟩

end Baseliner.CgConjGrad
