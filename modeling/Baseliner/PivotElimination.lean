import Mathlib.Algebra.BigOperators.Ring.Finset
import Mathlib.Algebra.Module.BigOperators
import Mathlib.Algebra.Module.LinearMap.Defs
import Mathlib.Algebra.Module.Torsion.Field
import Mathlib.Algebra.Field.Basic
import Mathlib.Data.List.FinRange
import Mathlib.Order.Fin.Basic
import Mathlib.Tactic.FieldSimp

/-! Elimination without row exchange. The columns are taken from left to right, and a step
writes only what lies to the right of its own column: an entry that it would turn to zero or
one is left as it was, and later steps know better than to read it. -/

namespace Baseliner.PivotElimination
open scoped BigOperators

variable {F M N : Type*} [Field F] [AddCommGroup M] [Module F M] [AddCommGroup N] [Module F N]
variable {n : ℕ}

@[ext] structure Rows (n : ℕ) (F M : Type*) where
  lhs : Fin n → Fin n → F
  rhs : Fin n → M

namespace Rows

def Solves (s : Rows n F M) (u : Fin n → M) : Prop := ∀ i, ∑ j, s.lhs i j • u j = s.rhs i

/-- Row `p` is divided by its pivot. -/
def scale (p : Fin n) (s : Rows n F M) : Rows n F M where
  lhs := Function.update s.lhs p fun j =>
    if p < j then s.lhs p j * (1 / s.lhs p p) else s.lhs p j
  rhs := Function.update s.rhs p ((1 / s.lhs p p) • s.rhs p)

/-- A multiple of row `p` is taken off row `i`. -/
def subtract (p i : Fin n) (c : F) (s : Rows n F M) : Rows n F M where
  lhs := Function.update s.lhs i fun j =>
    if p < j then s.lhs i j - c * s.lhs p j else s.lhs i j
  rhs := Function.update s.rhs i (s.rhs i - c • s.rhs p)

/-- Row `p` is taken off the listed rows; `c` finds the factor from the pivot and from the entry
in the pivot's column. -/
def eliminate (c : F → F → F) (p : Fin n) (rows : List (Fin n)) (s : Rows n F M) : Rows n F M :=
  rows.foldl (fun s i => s.subtract p i (c (s.lhs p p) (s.lhs i p))) s

theorem eliminate_entries (c : F → F → F) {p : Fin n} {rows : List (Fin n)}
    (once : rows.Nodup) (other : p ∉ rows) (s : Rows n F M) (i : Fin n) :
    ((∀ j, (s.eliminate c p rows).lhs i j =
        if i ∈ rows ∧ p < j then s.lhs i j - c (s.lhs p p) (s.lhs i p) * s.lhs p j
        else s.lhs i j) ∧
      (s.eliminate c p rows).rhs i =
        if i ∈ rows then s.rhs i - c (s.lhs p p) (s.lhs i p) • s.rhs p else s.rhs i) := by
  induction rows generalizing s with
  | nil => simp [eliminate]
  | cons r rows ih =>
    obtain ⟨fresh, once⟩ := List.nodup_cons.mp once
    obtain ⟨ne, other⟩ := not_or.mp (mt List.mem_cons.mpr other)
    have step := ih once other (s.subtract p r (c (s.lhs p p) (s.lhs r p)))
    have pivotRow : (s.subtract p r (c (s.lhs p p) (s.lhs r p))).lhs p = s.lhs p :=
      Function.update_of_ne ne _ _
    have pivotRhs : (s.subtract p r (c (s.lhs p p) (s.lhs r p))).rhs p = s.rhs p :=
      Function.update_of_ne ne _ _
    rw [pivotRow, pivotRhs] at step
    change (∀ j, ((s.subtract p r _).eliminate c p rows).lhs i j = _) ∧
      ((s.subtract p r _).eliminate c p rows).rhs i = _
    by_cases same : i = r
    · subst same
      refine ⟨fun j => ?_, ?_⟩
      · rw [step.1]
        simp [fresh, subtract]
      · rw [step.2]
        simp [fresh, subtract]
    · refine ⟨fun j => ?_, ?_⟩
      · rw [step.1]
        simp [same, subtract]
      · rw [step.2]
        simp [same, subtract]

theorem solves_iff_of_rows {a b : Rows n F M} (p : Fin n) {d : F} (nonzero : d ≠ 0)
    (pivotRow : ∀ j, b.lhs p j = d * a.lhs p j) (pivotRhs : b.rhs p = d • a.rhs p)
    (others : ∀ i, i ≠ p → ∃ c : F,
      (∀ j, b.lhs i j = a.lhs i j - c * b.lhs p j) ∧ b.rhs i = a.rhs i - c • b.rhs p)
    (u : Fin n → M) : a.Solves u ↔ b.Solves u := by
  have pivotSum : ∑ j, b.lhs p j • u j = d • ∑ j, a.lhs p j • u j := by
    simp only [pivotRow, mul_smul, Finset.smul_sum]
  have otherSum (i : Fin n) (c : F) (row : ∀ j, b.lhs i j = a.lhs i j - c * b.lhs p j) :
      ∑ j, b.lhs i j • u j = ∑ j, a.lhs i j • u j - c • ∑ j, b.lhs p j • u j := by
    simp only [row, sub_smul, mul_smul, Finset.sum_sub_distrib, Finset.smul_sum]
  constructor
  · intro holds i
    have atPivot : ∑ j, b.lhs p j • u j = b.rhs p := by rw [pivotSum, holds p, pivotRhs]
    by_cases same : i = p
    · rw [same, atPivot]
    · obtain ⟨c, row, right⟩ := others i same
      rw [otherSum i c row, holds i, atPivot, right]
  · intro holds i
    have atPivot : ∑ j, a.lhs p j • u j = a.rhs p := by
      have scaled := holds p
      rw [pivotSum, pivotRhs] at scaled
      exact smul_right_injective M nonzero scaled
    by_cases same : i = p
    · rw [same, atPivot]
    · obtain ⟨c, row, right⟩ := others i same
      have taken := holds i
      rw [otherSum i c row, holds p, right] at taken
      exact sub_left_injective taken

/-! ### Clearing whole columns -/

/-- The step for column `p`: afterwards the column counts as a column of the identity. -/
def pivotStep (p : Fin n) (s : Rows n F M) : Rows n F M :=
  (s.scale p).eliminate (fun _ entry => entry) p ((List.finRange n).filter (· ≠ p))

def reduceUpTo (k : ℕ) (s : Rows n F M) : Rows n F M :=
  ((List.finRange n).take k).foldl (fun s p => s.pivotStep p) s

def reduce (s : Rows n F M) : Rows n F M := (List.finRange n).foldl (fun s p => s.pivotStep p) s

def Regular (s : Rows n F M) : Prop := ∀ p : Fin n, (s.reduceUpTo p).lhs p p ≠ 0

/-- What the rows stand for when the first `k` columns are done. -/
def reduced (k : ℕ) (s : Rows n F M) : Rows n F M where
  lhs := fun i j => if j.val < k then if i = j then 1 else 0 else s.lhs i j
  rhs := s.rhs

omit [AddCommGroup M] [Module F M] in
theorem reduced_lhs {k : ℕ} {j : Fin n} (h : k ≤ j.val) (s : Rows n F M) (i : Fin n) :
    (s.reduced k).lhs i j = s.lhs i j := if_neg (not_lt.mpr h)

omit [AddCommGroup M] [Module F M] in
theorem reduced_done {k : ℕ} {j : Fin n} (h : j.val < k) (s : Rows n F M) (i : Fin n) :
    (s.reduced k).lhs i j = if i = j then 1 else 0 := if_pos h

theorem reduceUpTo_succ {k : ℕ} (h : k < n) (s : Rows n F M) :
    s.reduceUpTo (k + 1) = (s.reduceUpTo k).pivotStep ⟨k, h⟩ := by
  have inside : k < (List.finRange n).length := by simpa using h
  rw [reduceUpTo, ← List.take_append_getElem inside, List.foldl_append]
  simp [reduceUpTo]

theorem reduceUpTo_self (s : Rows n F M) : s.reduceUpTo n = s.reduce := by
  rw [reduceUpTo, List.take_of_length_le (by simp), reduce]

theorem pivotStep_solves (p : Fin n) (s : Rows n F M) (nonzero : s.lhs p p ≠ 0)
    (u : Fin n → M) :
    (s.reduced p).Solves u ↔ ((s.pivotStep p).reduced (p + 1)).Solves u := by
  have entries (i : Fin n) := eliminate_entries (fun _ entry : F => entry) (p := p)
    ((List.nodup_finRange n).filter (· ≠ p)) (by simp) (s.scale p) i
  have pivotRow (j : Fin n) (right : p < j) :
      (s.pivotStep p).lhs p j = s.lhs p j * (1 / s.lhs p p) := by
    rw [pivotStep, (entries p).1]
    simp [scale, right]
  have otherRow (i : Fin n) (ne : i ≠ p) (j : Fin n) (right : p < j) :
      (s.pivotStep p).lhs i j = s.lhs i j - s.lhs i p * (s.pivotStep p).lhs p j := by
    rw [pivotRow j right, pivotStep, (entries i).1]
    simp [scale, right, ne]
  have pivotRhs : (s.pivotStep p).rhs p = (1 / s.lhs p p) • s.rhs p := by
    rw [pivotStep, (entries p).2]
    simp [scale]
  refine solves_iff_of_rows (a := s.reduced p) (b := (s.pivotStep p).reduced (p + 1)) p
    (one_div_ne_zero nonzero) (fun j => ?_) pivotRhs
    (fun i ne => ⟨s.lhs i p, fun j => ?_, ?_⟩) u
  · obtain left | rfl | right := lt_trichotomy j p
    · rw [reduced_done left, reduced_done (Nat.lt_succ_of_lt left), if_neg left.ne', mul_zero]
    · rw [reduced_lhs le_rfl, reduced_done (Nat.lt_succ_self _), if_pos rfl,
        one_div_mul_cancel nonzero]
    · rw [reduced_lhs right.le, reduced_lhs right, pivotRow j right, mul_comm]
  · obtain left | rfl | right := lt_trichotomy j p
    · have settled := Nat.lt_succ_of_lt left
      rw [reduced_done left, reduced_done settled, reduced_done settled, if_neg left.ne',
        mul_zero, sub_zero]
    · have settled := Nat.lt_succ_self j.val
      rw [reduced_lhs le_rfl, reduced_done settled, reduced_done settled, if_neg ne, if_pos rfl,
        mul_one, sub_self]
    · rw [reduced_lhs right.le, reduced_lhs right, reduced_lhs right]
      exact otherRow i ne j right
  · change (s.pivotStep p).rhs i = s.rhs i - s.lhs i p • (s.pivotStep p).rhs p
    rw [pivotRhs, pivotStep, (entries i).2]
    simp [scale, ne]

theorem reduceUpTo_solves {s : Rows n F M} (regular : s.Regular) (u : Fin n → M) {k : ℕ}
    (h : k ≤ n) : s.Solves u ↔ ((s.reduceUpTo k).reduced k).Solves u := by
  induction k with
  | zero => rfl
  | succ k ih =>
    rw [ih (by omega), reduceUpTo_succ h]
    exact pivotStep_solves ⟨k, h⟩ _ (regular ⟨k, h⟩) u

theorem solves_iff_reduce {s : Rows n F M} (regular : s.Regular) (u : Fin n → M) :
    s.Solves u ↔ u = s.reduce.rhs := by
  rw [reduceUpTo_solves regular u le_rfl, reduceUpTo_self, funext_iff]
  refine forall_congr' fun i => ?_
  simp [reduced]

/-! ### Right-hand sides under a linear map -/

def map (f : M →ₗ[F] N) (s : Rows n F M) : Rows n F N := ⟨s.lhs, fun i => f (s.rhs i)⟩

theorem map_scale (f : M →ₗ[F] N) (p : Fin n) (s : Rows n F M) :
    (s.scale p).map f = (s.map f).scale p := by
  refine Rows.ext rfl (funext fun i => ?_)
  simp only [map, scale, Function.update_apply]
  split_ifs <;> simp

theorem map_subtract (f : M →ₗ[F] N) (p i : Fin n) (c : F) (s : Rows n F M) :
    (s.subtract p i c).map f = (s.map f).subtract p i c := by
  refine Rows.ext rfl (funext fun j => ?_)
  simp only [map, subtract, Function.update_apply]
  split_ifs <;> simp

theorem map_pivotStep (f : M →ₗ[F] N) (p : Fin n) (s : Rows n F M) :
    (s.pivotStep p).map f = (s.map f).pivotStep p := by
  unfold pivotStep eliminate
  rw [← map_scale, List.foldl_hom (map f) fun s i => (map_subtract f p i _ s).symm]
  rfl

theorem map_reduceUpTo (f : M →ₗ[F] N) (k : ℕ) (s : Rows n F M) :
    (s.reduceUpTo k).map f = (s.map f).reduceUpTo k :=
  (List.foldl_hom (map f) fun s p => (map_pivotStep f p s).symm).symm

theorem Regular.map {s : Rows n F M} (regular : s.Regular) (f : M →ₗ[F] N) :
    (s.map f).Regular := fun p => by
  rw [← map_reduceUpTo]
  exact regular p

theorem map_solves_iff {s : Rows n F M} (regular : s.Regular) (f : M →ₗ[F] N)
    (u : Fin n → N) : (s.map f).Solves u ↔ ∀ i, u i = f (s.reduce.rhs i) := by
  rw [solves_iff_reduce (regular.map f), ← reduceUpTo_self, ← map_reduceUpTo, reduceUpTo_self,
    funext_iff]
  rfl

/-! ### Clearing below the pivots -/

/-- The step for column `p` when only the rows below its pivot are written. -/
def lowerStep (p : Fin n) (s : Rows n F M) : Rows n F M :=
  s.eliminate (fun pivot entry => 1 / pivot * entry) p ((List.finRange n).filter (p < ·))

def triangulateUpTo (k : ℕ) (s : Rows n F M) : Rows n F M :=
  ((List.finRange n).take k).foldl (fun s p => s.lowerStep p) s

def triangulate (s : Rows n F M) : Rows n F M :=
  (List.finRange n).foldl (fun s p => s.lowerStep p) s

/-- No pivot that the triangulation and the substitution divide by is zero. -/
def Pivotal (s : Rows n F M) : Prop := ∀ p : Fin n, (s.triangulateUpTo p).lhs p p ≠ 0

/-- What the rows stand for when the first `k` columns are done. -/
def lowered (k : ℕ) (s : Rows n F M) : Rows n F M where
  lhs := fun i j => if j.val < k ∧ j < i then 0 else s.lhs i j
  rhs := s.rhs

theorem triangulateUpTo_succ {k : ℕ} (h : k < n) (s : Rows n F M) :
    s.triangulateUpTo (k + 1) = (s.triangulateUpTo k).lowerStep ⟨k, h⟩ := by
  have inside : k < (List.finRange n).length := by simpa using h
  rw [triangulateUpTo, ← List.take_append_getElem inside, List.foldl_append]
  simp [triangulateUpTo]

theorem triangulateUpTo_self (s : Rows n F M) : s.triangulateUpTo n = s.triangulate := by
  rw [triangulateUpTo, List.take_of_length_le (by simp), triangulate]

theorem lowerStep_entries (p : Fin n) (s : Rows n F M) (i : Fin n) :
    (∀ j, (s.lowerStep p).lhs i j =
        if p < i ∧ p < j then s.lhs i j - 1 / s.lhs p p * s.lhs i p * s.lhs p j
        else s.lhs i j) ∧
      (s.lowerStep p).rhs i =
        if p < i then s.rhs i - (1 / s.lhs p p * s.lhs i p) • s.rhs p else s.rhs i := by
  have entries := eliminate_entries (fun pivot entry : F => 1 / pivot * entry) (p := p)
    ((List.nodup_finRange n).filter (p < ·)) (by simp) s i
  simpa [lowerStep] using entries

theorem lowerStep_solves (p : Fin n) (s : Rows n F M) (nonzero : s.lhs p p ≠ 0)
    (u : Fin n → M) :
    (s.lowered p).Solves u ↔ ((s.lowerStep p).lowered (p + 1)).Solves u := by
  have pivotRow : (s.lowerStep p).lhs p = s.lhs p := by
    funext j
    simp [(lowerStep_entries p s p).1]
  refine solves_iff_of_rows (a := s.lowered p) (b := (s.lowerStep p).lowered (p + 1)) p
    one_ne_zero (fun j => ?_) ?_ (fun i ne => ?_) u
  · have same : j.val < p + 1 ∧ j < p ↔ j.val < p ∧ j < p := by omega
    simp only [lowered, pivotRow, same, one_mul]
  · simp [lowered, (lowerStep_entries p s p).2]
  · by_cases below : p < i
    · refine ⟨1 / s.lhs p p * s.lhs i p, fun j => ?_, ?_⟩
      · simp only [lowered, pivotRow, (lowerStep_entries p s i).1, below, true_and]
        obtain left | rfl | right := lt_trichotomy j p
        · simp [left, Nat.lt_succ_of_lt left, left.trans below]
        · have cancel : (s.lhs j j)⁻¹ * s.lhs i j * s.lhs j j = s.lhs i j := by field_simp
          simp [below, cancel]
        · simp [right, not_lt.mpr right.le, not_lt.mpr (Nat.succ_le_of_lt right)]
      · simp [lowered, below, (lowerStep_entries p s i).2, (lowerStep_entries p s p).2]
    · have above : i < p := lt_of_le_of_ne (not_lt.mp below) ne
      refine ⟨0, fun j => ?_, ?_⟩
      · have same : j.val < p + 1 ∧ j < i ↔ j.val < p ∧ j < i := by omega
        simp only [lowered, (lowerStep_entries p s i).1, below, false_and, same, if_false,
          zero_mul, sub_zero]
      · simp [lowered, below, (lowerStep_entries p s i).2]

theorem triangulateUpTo_solves {s : Rows n F M} (pivotal : s.Pivotal) (u : Fin n → M) {k : ℕ}
    (h : k ≤ n) : s.Solves u ↔ ((s.triangulateUpTo k).lowered k).Solves u := by
  induction k with
  | zero => simp [lowered, triangulateUpTo]
  | succ k ih =>
    rw [ih (by omega), triangulateUpTo_succ h]
    exact lowerStep_solves ⟨k, h⟩ _ (pivotal ⟨k, h⟩) u

/-- A row keeps its entries from the step of its own column on. -/
theorem triangulateUpTo_row (s : Rows n F M) {k : ℕ} (h : k ≤ n) (i j : Fin n) (own : i.val ≤ k) :
    (s.triangulateUpTo k).lhs i j = (s.triangulateUpTo i).lhs i j := by
  induction k, own using Nat.le_induction with
  | base => rfl
  | succ k le ih =>
    rw [triangulateUpTo_succ h, (lowerStep_entries _ _ i).1, if_neg (by simp [Fin.lt_def, le])]
    exact ih (by omega)

theorem Pivotal.diagonal {s : Rows n F M} (pivotal : s.Pivotal) (i : Fin n) :
    s.triangulate.lhs i i ≠ 0 := by
  rw [← triangulateUpTo_self, triangulateUpTo_row s le_rfl i i i.isLt.le]
  exact pivotal i

/-! ### Back substitution -/

/-- What an upper triangular row gives for its own unknown, the later ones being known. -/
def unknown (s : Rows n F M) (x : Fin n → M) (m : Fin n) : M :=
  (1 / s.lhs m m) • (s.rhs m - ∑ j with m < j, s.lhs m j • x j)

def backSubstitute (s : Rows n F M) (x : Fin n → M) : Fin n → M :=
  (List.finRange n).foldr (fun m x => Function.update x m (s.unknown x m)) x

theorem unknown_update (s : Rows n F M) (x : Fin n → M) {m i : Fin n} (le : i ≤ m) (v : M) :
    s.unknown (Function.update x i v) m = s.unknown x m := by
  unfold unknown
  congr 2
  refine Finset.sum_congr rfl fun j later => ?_
  rw [Function.update_of_ne (le.trans_lt (Finset.mem_filter.mp later).2).ne']

theorem backSubstitute_eq (s : Rows n F M) (x : Fin n → M) (m : Fin n) :
    s.backSubstitute x m = s.unknown (s.backSubstitute x) m := by
  have settled (rows : List (Fin n)) (ascending : rows.Pairwise (· < ·)) :
      ∀ m ∈ rows,
        (rows.foldr (fun m x => Function.update x m (s.unknown x m)) x) m =
          s.unknown (rows.foldr (fun m x => Function.update x m (s.unknown x m)) x) m := by
    induction rows with
    | nil => simp
    | cons i rows ih =>
      obtain ⟨first, ascending⟩ := List.pairwise_cons.mp ascending
      intro m mem
      rw [List.foldr_cons]
      obtain rfl | later := List.mem_cons.mp mem
      · rw [Function.update_self, unknown_update s _ le_rfl]
      · rw [Function.update_of_ne (first m later).ne', unknown_update s _ (first m later).le]
        exact ih ascending m later
  exact settled _ (List.pairwise_lt_finRange n) m (List.mem_finRange m)

theorem unknown_unique {s : Rows n F M} {x y : Fin n → M} (hx : ∀ m, x m = s.unknown x m)
    (hy : ∀ m, y m = s.unknown y m) : x = y := by
  funext m
  induction m using WellFoundedGT.induction with
  | ind m later =>
    rw [hx m, hy m]
    unfold unknown
    congr 2
    exact Finset.sum_congr rfl fun j mem => by rw [later j (Finset.mem_filter.mp mem).2]

theorem lowered_solves_iff {s : Rows n F M} (nonzero : ∀ i, s.lhs i i ≠ 0) (u : Fin n → M) :
    (s.lowered n).Solves u ↔ ∀ m, u m = s.unknown u m := by
  refine forall_congr' fun m => ?_
  have row : ∑ j, (s.lowered n).lhs m j • u j =
      s.lhs m m • u m + ∑ j with m < j, s.lhs m j • u j := by
    have split (j : Fin n) : (s.lowered n).lhs m j • u j =
        (if j = m then s.lhs m m • u m else 0) + if m < j then s.lhs m j • u j else 0 := by
      obtain left | rfl | right := lt_trichotomy j m
      · simp [lowered, left, left.ne, not_lt.mpr left.le]
      · simp [lowered]
      · simp [lowered, right, right.ne', not_lt.mpr right.le]
    rw [Finset.sum_congr rfl fun j _ => split j, Finset.sum_add_distrib, Finset.sum_ite_eq',
      if_pos (Finset.mem_univ m), Finset.sum_filter]
  rw [row, ← eq_sub_iff_add_eq, unknown, one_div, eq_inv_smul_iff₀ (nonzero m)]
  rfl

theorem map_lowerStep (f : M →ₗ[F] N) (p : Fin n) (s : Rows n F M) :
    (s.lowerStep p).map f = (s.map f).lowerStep p := by
  unfold lowerStep eliminate
  rw [List.foldl_hom (map f) fun s i => (map_subtract f p i _ s).symm]
  rfl

theorem map_triangulateUpTo (f : M →ₗ[F] N) (k : ℕ) (s : Rows n F M) :
    (s.triangulateUpTo k).map f = (s.map f).triangulateUpTo k :=
  (List.foldl_hom (map f) fun s p => (map_lowerStep f p s).symm).symm

theorem pivotal_iff_lhs (s : Rows n F M) : s.Pivotal ↔ (Rows.mk s.lhs (0 : Fin n → F)).Pivotal := by
  refine forall_congr' fun p => ?_
  have same := congrArg (fun t : Rows n F F => t.lhs p p)
    (map_triangulateUpTo (0 : M →ₗ[F] F) p s)
  exact not_congr (iff_of_eq (congrArg (· = 0) same))

theorem solves_iff_backSubstitute {s : Rows n F M} (pivotal : s.Pivotal) (x u : Fin n → M) :
    s.Solves u ↔ u = s.triangulate.backSubstitute x := by
  rw [triangulateUpTo_solves pivotal u le_rfl, triangulateUpTo_self,
    lowered_solves_iff pivotal.diagonal]
  constructor
  · exact fun holds => unknown_unique holds (backSubstitute_eq _ x)
  · rintro rfl
    exact backSubstitute_eq _ x

end Rows
end Baseliner.PivotElimination
