import Baseliner.NpbLines
import Baseliner.OwnEntries
import Baseliner.PivotElimination
import Mathlib.Algebra.Module.Prod
import Mathlib.Algebra.Module.Pi
import Mathlib.Data.Matrix.Mul
import Mathlib.LinearAlgebra.Matrix.RowCol
import Mathlib.Tactic.Abel
import Mathlib.Tactic.Ring

/-! The line solver of the block-tridiagonal benchmark, over an arbitrary field. Along a line
the cells are coupled with their neighbours by blocks of five rows; the blocks are eliminated
from the first cell to the last and the unknowns found from the last to the first. -/

namespace Baseliner.BtLineSolve
open PivotElimination NpbLines Matrix
open scoped BigOperators

variable {F : Type*} [Field F]

abbrev Vec (F : Type*) := Fin 5 → F
abbrev Block (F : Type*) := Matrix (Fin 5) (Fin 5) F

def matvecSub (ablock : Block F) (avec bvec : Vec F) : Vec F := fun i =>
  bvec i - ∑ j, ablock i j * avec j

def matmulSub (ablock bblock cblock : Block F) : Block F := fun i j =>
  cblock i j - ∑ l, ablock i l * bblock l j

/-! ### One cell -/

/-- What the block inversion works on: the diagonal block, the block to its right and the
right-hand side. -/
@[ext] structure Cell (F : Type*) where
  lhs : Block F
  c : Block F
  r : Vec F

namespace Cell

def scalePivot (p : Fin 5) (s : Cell F) : Cell F :=
  let pivot := 1 / s.lhs p p
  { lhs := s.lhs.updateRow p fun j => if p < j then s.lhs p j * pivot else s.lhs p j
    c := s.c.updateRow p fun j => s.c p j * pivot
    r := Function.update s.r p (s.r p * pivot) }

def clearRow (p i : Fin 5) (s : Cell F) : Cell F :=
  let coeff := s.lhs i p
  { lhs := s.lhs.updateRow i fun j =>
      if p < j then s.lhs i j - coeff * s.lhs p j else s.lhs i j
    c := s.c.updateRow i fun j => s.c i j - coeff * s.c p j
    r := Function.update s.r i (s.r i - coeff * s.r p) }

def pivotStep (p : Fin 5) (s : Cell F) : Cell F :=
  ((List.finRange 5).filter (· ≠ p)).foldl (fun s i => s.clearRow p i) (s.scalePivot p)

/-- The first `k` of the five unrolled passes. -/
def passes (k : ℕ) (s : Cell F) : Cell F :=
  ((List.finRange 5).take k).foldl (fun s p => s.pivotStep p) s

def Pivots (s : Cell F) : Prop := ∀ p : Fin 5, (s.passes p).lhs p p ≠ 0

instance [DecidableEq F] (s : Cell F) : Decidable s.Pivots :=
  inferInstanceAs (Decidable (∀ _ : Fin 5, _))

def toRows (s : Cell F) : Rows 5 F (Vec F × F) := ⟨s.lhs, fun i => (s.c i, s.r i)⟩

theorem toRows_scalePivot (p : Fin 5) (s : Cell F) :
    (s.scalePivot p).toRows = s.toRows.scale p := by
  refine Rows.ext rfl (funext fun i => ?_)
  obtain rfl | other := eq_or_ne i p
  · simp only [toRows, scalePivot, Rows.scale, Function.update_self, updateRow_self]
    exact Prod.ext (funext fun j => mul_comm _ _) (mul_comm _ _)
  · simp only [toRows, scalePivot, Rows.scale, Function.update_of_ne other, updateRow_ne other]

theorem toRows_clearRow (p i : Fin 5) (s : Cell F) :
    (s.clearRow p i).toRows = s.toRows.subtract p i (s.lhs i p) := by
  refine Rows.ext rfl (funext fun j => ?_)
  obtain rfl | other := eq_or_ne j i
  · simp only [toRows, clearRow, Rows.subtract, Function.update_self, updateRow_self]
    rfl
  · simp only [toRows, clearRow, Rows.subtract, Function.update_of_ne other, updateRow_ne other]

theorem toRows_pivotStep (p : Fin 5) (s : Cell F) :
    (s.pivotStep p).toRows = s.toRows.pivotStep p := by
  unfold pivotStep Rows.pivotStep Rows.eliminate
  rw [← toRows_scalePivot, List.foldl_hom toRows fun s i => (toRows_clearRow p i s).symm]

theorem toRows_passes (k : ℕ) (s : Cell F) : (s.passes k).toRows = s.toRows.reduceUpTo k :=
  (List.foldl_hom toRows fun s p => (toRows_pivotStep p s).symm).symm

end Cell

def binvcrhs (s : Cell F) : Cell F := (List.finRange 5).foldl (fun s p => s.pivotStep p) s

def binvrhs (lhs : Block F) (r : Vec F) : Cell F := binvcrhs ⟨lhs, 0, r⟩

/-- What a row says about its own cell once the neighbour on the right is known. -/
def rightOf (y : Vec F) : (Vec F × F) →ₗ[F] F where
  toFun row := row.2 - ∑ j, row.1 j * y j
  map_add' a b := by
    simp only [Prod.snd_add, Prod.fst_add, Pi.add_apply, add_mul, Finset.sum_add_distrib]
    abel
  map_smul' a b := by
    simp only [Prod.smul_snd, Prod.smul_fst, Pi.smul_apply, smul_eq_mul, mul_assoc,
      RingHom.id_apply, ← Finset.mul_sum, mul_sub]

theorem binvcrhs_solves {s : Cell F} (pivots : s.Pivots) (x y : Vec F) :
    s.lhs *ᵥ x + s.c *ᵥ y = s.r ↔ x + (binvcrhs s).c *ᵥ y = (binvcrhs s).r := by
  have regular : s.toRows.Regular := fun p => by
    rw [← Cell.toRows_passes]
    exact pivots p
  have reduced : s.toRows.reduce = (binvcrhs s).toRows := by
    rw [← Rows.reduceUpTo_self, ← Cell.toRows_passes]
    rfl
  have whole := Rows.map_solves_iff regular (rightOf y) x
  rw [reduced] at whole
  rw [← eq_sub_iff_add_eq, ← eq_sub_iff_add_eq, funext_iff, funext_iff]
  exact whole

/-! ### One line -/

/-- The blocks of a line, left to right within a row: `aa`, `bb`, `cc`; and its unknowns. -/
structure Line (F : Type*) where
  aa : ℕ → Block F
  bb : ℕ → Block F
  cc : ℕ → Block F
  rhs : ℕ → Vec F

namespace Line

/-- `matvec_sub` and `matmul_sub` for cell `i`. -/
def subtractLeft (i : ℕ) (s : Line F) : Line F :=
  { s with
    rhs := Function.update s.rhs i (matvecSub (s.aa i) (s.rhs (i - 1)) (s.rhs i))
    bb := Function.update s.bb i (matmulSub (s.aa i) (s.cc (i - 1)) (s.bb i)) }

/-- `binvcrhs` for cell `i`. -/
def invert (i : ℕ) (s : Line F) : Line F :=
  let out := binvcrhs ⟨s.bb i, s.cc i, s.rhs i⟩
  { s with
    bb := Function.update s.bb i out.lhs
    cc := Function.update s.cc i out.c
    rhs := Function.update s.rhs i out.r }

/-- `binvrhs` for cell `i`. -/
def invertLast (i : ℕ) (s : Line F) : Line F :=
  let out := binvrhs (s.bb i) (s.rhs i)
  { s with
    bb := Function.update s.bb i out.lhs
    rhs := Function.update s.rhs i out.r }

def firstCell (s : Line F) : Line F := s.invert 0

def middleCells (isize : ℕ) (s : Line F) : Line F :=
  (List.range' 1 (isize - 1)).foldl (fun s i => (s.subtractLeft i).invert i) s

def lastCell (isize : ℕ) (s : Line F) : Line F := (s.subtractLeft isize).invertLast isize

def backCell (i : ℕ) (s : Line F) : Line F :=
  { s with rhs := Function.update s.rhs i (matvecSub (s.cc i) (s.rhs (i + 1)) (s.rhs i)) }

/-- Cells `isize - 1` down to `0`. -/
def backSubstitute (isize : ℕ) (s : Line F) : Line F :=
  (List.range isize).foldr (fun i s => s.backCell i) s

def solve (isize : ℕ) (s : Line F) : Line F :=
  (((s.firstCell).middleCells isize).lastCell isize).backSubstitute isize

/-- The line when the cells up to `k` have been inverted. -/
def forward : ℕ → Line F → Line F
  | 0, s => s.invert 0
  | k + 1, s => ((s.forward k).subtractLeft (k + 1)).invert (k + 1)

/-- What the inversion of cell `i` starts from. -/
def met : ℕ → Line F → Line F
  | 0, s => s
  | k + 1, s => (s.forward k).subtractLeft (k + 1)

def Pivots (isize : ℕ) (s : Line F) : Prop :=
  (∀ i < isize, (Cell.mk ((s.met i).bb i) ((s.met i).cc i) ((s.met i).rhs i)).Pivots) ∧
    (Cell.mk ((s.met isize).bb isize) 0 ((s.met isize).rhs isize)).Pivots

instance [DecidableEq F] (isize : ℕ) (s : Line F) : Decidable (s.Pivots isize) :=
  inferInstanceAs (Decidable (_ ∧ _))

/-- The block row of cell `i`. -/
def Row (isize : ℕ) (s : Line F) (x : ℕ → Vec F) (i : ℕ) : Prop :=
  (if i = 0 then 0 else s.aa i *ᵥ x (i - 1)) + s.bb i *ᵥ x i +
    (if i = isize then 0 else s.cc i *ᵥ x (i + 1)) = s.rhs i

def Known (s : Line F) (x : ℕ → Vec F) (i : ℕ) : Prop := x i + s.cc i *ᵥ x (i + 1) = s.rhs i

/-- What a line stands for when the cells before `k` have been inverted. -/
def Partly (isize k : ℕ) (s : Line F) (x : ℕ → Vec F) : Prop :=
  (∀ i < k, s.Known x i) ∧ ∀ i, k ≤ i → i ≤ isize → s.Row isize x i

end Line

theorem matvecSub_eq (ablock : Block F) (avec bvec : Vec F) :
    matvecSub ablock avec bvec = bvec - ablock *ᵥ avec := rfl

theorem matmulSub_eq (ablock bblock cblock : Block F) :
    matmulSub ablock bblock cblock = cblock - ablock * bblock := rfl

namespace Line

variable {isize k i : ℕ} {s : Line F} {x : ℕ → Vec F}

@[simp] theorem subtractLeft_aa (i : ℕ) (s : Line F) : (s.subtractLeft i).aa = s.aa := rfl
@[simp] theorem subtractLeft_cc (i : ℕ) (s : Line F) : (s.subtractLeft i).cc = s.cc := rfl
@[simp] theorem invert_aa (i : ℕ) (s : Line F) : (s.invert i).aa = s.aa := rfl
@[simp] theorem invertLast_cc (i : ℕ) (s : Line F) : (s.invertLast i).cc = s.cc := rfl

theorem row_congr {s t : Line F} (i : ℕ) (aa : t.aa i = s.aa i) (bb : t.bb i = s.bb i)
    (cc : t.cc i = s.cc i) (rhs : t.rhs i = s.rhs i) : t.Row isize x i ↔ s.Row isize x i := by
  unfold Row
  rw [aa, bb, cc, rhs]

theorem known_congr {s t : Line F} (i : ℕ) (cc : t.cc i = s.cc i) (rhs : t.rhs i = s.rhs i) :
    t.Known x i ↔ s.Known x i := by
  unfold Known
  rw [cc, rhs]

theorem row_subtractLeft (left : s.Known x k) :
    s.Row isize x (k + 1) ↔
      (s.subtractLeft (k + 1)).bb (k + 1) *ᵥ x (k + 1) +
        (if k + 1 = isize then 0 else s.cc (k + 1) *ᵥ x (k + 2)) =
      (s.subtractLeft (k + 1)).rhs (k + 1) := by
  have before : x k = s.rhs k - s.cc k *ᵥ x (k + 1) := eq_sub_of_add_eq left
  unfold Row
  simp only [subtractLeft, Function.update_self, matvecSub_eq, matmulSub_eq, Nat.succ_ne_zero,
    if_false, Nat.add_sub_cancel, sub_mulVec, ← mulVec_mulVec]
  rw [before, mulVec_sub, eq_sub_iff_add_eq, ← sub_eq_zero, ← sub_eq_zero (b := s.rhs (k + 1))]
  refine iff_of_eq (congrArg (· = 0) ?_)
  abel

theorem known_invert (pivots : (Cell.mk (s.bb k) (s.cc k) (s.rhs k)).Pivots) :
    s.bb k *ᵥ x k + s.cc k *ᵥ x (k + 1) = s.rhs k ↔ (s.invert k).Known x k := by
  rw [binvcrhs_solves pivots]
  simp only [Known, invert, Function.update_self]

theorem known_other (i : ℕ) (other : i ≠ k) : (s.invert k).Known x i ↔ s.Known x i :=
  known_congr i (Function.update_of_ne other ..) (Function.update_of_ne other ..)

theorem row_other (i : ℕ) (other : i ≠ k) :
    (s.invert k).Row isize x i ↔ s.Row isize x i :=
  row_congr i rfl (Function.update_of_ne other ..) (Function.update_of_ne other ..)
    (Function.update_of_ne other ..)

theorem known_subtractLeft (i : ℕ) (other : i ≠ k) :
    (s.subtractLeft k).Known x i ↔ s.Known x i :=
  known_congr i rfl (Function.update_of_ne other ..)

theorem row_subtractLeft_other (i : ℕ) (other : i ≠ k) :
    (s.subtractLeft k).Row isize x i ↔ s.Row isize x i :=
  row_congr i rfl (Function.update_of_ne other ..) rfl (Function.update_of_ne other ..)

theorem partly_split (le : k ≤ isize) :
    s.Partly isize k x ↔
      (∀ i < k, s.Known x i) ∧ s.Row isize x k ∧ ∀ i, k < i → i ≤ isize → s.Row isize x i := by
  refine and_congr_right fun _ => ⟨fun rows => ⟨rows k le_rfl le, fun i lt => rows i lt.le⟩,
    fun rows i low high => ?_⟩
  obtain lt | rfl := lt_or_eq_of_le low
  · exact rows.2 i lt high
  · exact rows.1

theorem partly_known (t : Line F) (lt : k < isize) (row : t.Row isize x k ↔ s.Known x k)
    (before : ∀ i < k, t.Known x i ↔ s.Known x i)
    (after : ∀ i, k < i → (t.Row isize x i ↔ s.Row isize x i)) :
    t.Partly isize k x ↔ s.Partly isize (k + 1) x := by
  rw [partly_split lt.le, row, ← and_assoc]
  refine and_congr ⟨fun known i le => ?_, fun known => ?_⟩
    (forall_congr' fun i => imp_congr_right fun low => imp_congr_right fun _ => after i low)
  · obtain less | rfl := Nat.lt_succ_iff_lt_or_eq.mp le
    · exact (before i less).mp (known.1 i less)
    · exact known.2
  · exact ⟨fun i less => (before i less).mpr (known i (Nat.lt_succ_of_lt less)),
      known k (Nat.lt_succ_self k)⟩

theorem partly_first (lt : 0 < isize)
    (pivots : (Cell.mk (s.bb 0) (s.cc 0) (s.rhs 0)).Pivots) :
    s.Partly isize 0 x ↔ (s.invert 0).Partly isize 1 x := by
  refine partly_known s lt ?_ (by simp) fun i low => (row_other i low.ne').symm
  rw [← known_invert pivots, Row, if_pos rfl, if_neg lt.ne, zero_add]

theorem partly_next (lt : k + 1 < isize)
    (pivots : (Cell.mk ((s.subtractLeft (k + 1)).bb (k + 1)) ((s.subtractLeft (k + 1)).cc (k + 1))
      ((s.subtractLeft (k + 1)).rhs (k + 1))).Pivots) :
    s.Partly isize (k + 1) x ↔
      ((s.subtractLeft (k + 1)).invert (k + 1)).Partly isize (k + 2) x := by
  by_cases left : s.Known x k
  · refine partly_known s lt ?_ (fun i less => ?_) fun i low => ?_
    · rw [row_subtractLeft left, ← known_invert pivots, if_neg lt.ne, subtractLeft_cc]
    · rw [known_other i less.ne, known_subtractLeft i less.ne]
    · rw [row_other i low.ne', row_subtractLeft_other i low.ne']
  · have near : k ≠ k + 1 := (Nat.lt_succ_self k).ne
    refine iff_of_false (fun h => left (h.1 k (Nat.lt_succ_self k))) fun h => left ?_
    rw [← known_subtractLeft k near, ← known_other k near]
    exact h.1 k (by omega)

theorem partly_forward (pivots : s.Pivots isize) (lt : k < isize) :
    s.Partly isize 0 x ↔ (s.forward k).Partly isize (k + 1) x := by
  induction k with
  | zero => exact partly_first lt (pivots.1 0 lt)
  | succ k ih => exact (ih (by omega)).trans (partly_next lt (pivots.1 (k + 1) lt))

theorem partly_last (pivots : (Cell.mk ((s.subtractLeft (k + 1)).bb (k + 1)) 0
      ((s.subtractLeft (k + 1)).rhs (k + 1))).Pivots) :
    s.Partly (k + 1) (k + 1) x ↔
      (∀ i < k + 1, (s.lastCell (k + 1)).Known x i) ∧
        x (k + 1) = (s.lastCell (k + 1)).rhs (k + 1) := by
  have known (i : ℕ) (less : i < k + 1) : s.Known x i ↔ (s.lastCell (k + 1)).Known x i :=
    (known_subtractLeft i less.ne).symm.trans
      (known_congr (s := s.lastCell (k + 1)) i rfl (Function.update_of_ne less.ne ..).symm)
  rw [partly_split le_rfl, ← and_assoc, and_iff_left fun i low high => absurd high low.not_ge,
    forall_congr' fun i => imp_congr_right fun less => known i less]
  refine and_congr_right fun before => ?_
  rw [row_subtractLeft ((known k (Nat.lt_succ_self k)).mpr (before k (Nat.lt_succ_self k))),
    if_pos rfl]
  have solved := binvcrhs_solves pivots (x (k + 1)) 0
  simp only [mulVec_zero, add_zero] at solved ⊢
  rw [solved]
  simp only [lastCell, invertLast, Function.update_self, binvrhs]

theorem middleCells_eq (k : ℕ) (s : Line F) : s.firstCell.middleCells (k + 1) = s.forward k := by
  rw [middleCells, Nat.add_sub_cancel]
  induction k with
  | zero => rfl
  | succ k ih =>
    rw [List.range'_1_concat, List.foldl_append, ih, Nat.add_comm 1 k]
    rfl

theorem backCell_self (i : ℕ) (s : Line F) :
    (s.backCell i).rhs i = s.rhs i - s.cc i *ᵥ s.rhs (i + 1) := Function.update_self ..

theorem backCell_ne {i m : ℕ} (ne : m ≠ i) (s : Line F) : (s.backCell i).rhs m = s.rhs m :=
  Function.update_of_ne ne ..

theorem backCells_spec {cells : List ℕ} (ascending : cells.Pairwise (· < ·)) (s : Line F) :
    (cells.foldr (fun i s => s.backCell i) s).cc = s.cc ∧
      (∀ m ∉ cells, (cells.foldr (fun i s => s.backCell i) s).rhs m = s.rhs m) ∧
      ∀ m ∈ cells, (cells.foldr (fun i s => s.backCell i) s).rhs m =
        s.rhs m - s.cc m *ᵥ (cells.foldr (fun i s => s.backCell i) s).rhs (m + 1) := by
  induction cells with
  | nil => exact ⟨rfl, fun _ _ => rfl, by simp⟩
  | cons i cells ih =>
    obtain ⟨first, ascending⟩ := List.pairwise_cons.mp ascending
    obtain ⟨cc, others, known⟩ := ih ascending
    have own : i ∉ cells := fun mem => lt_irrefl i (first i mem)
    refine ⟨cc, fun m out => ?_, fun m mem => ?_⟩
    · obtain ⟨ne, out⟩ := not_or.mp (mt List.mem_cons.mpr out)
      rw [List.foldr_cons, backCell_ne ne, others m out]
    · rw [List.foldr_cons]
      obtain rfl | later := List.mem_cons.mp mem
      · rw [backCell_self, backCell_ne (Nat.succ_ne_self m), cc, others m own]
      · have after := first m later
        rw [backCell_ne after.ne', backCell_ne (by omega), known m later]

theorem backSubstitute_spec (s : Line F) :
    ((∀ i < isize, s.Known x i) ∧ x isize = s.rhs isize) ↔
      ∀ i ≤ isize, x i = (s.backSubstitute isize).rhs i := by
  obtain ⟨-, others, known⟩ := backCells_spec (List.pairwise_lt_range (n := isize)) s
  have last := others isize (by simp)
  constructor
  · rintro ⟨rows, atEnd⟩ i le
    induction le using Nat.decreasingInduction with
    | self => exact atEnd.trans last.symm
    | of_succ k lt ih =>
      rw [backSubstitute, known k (List.mem_range.mpr lt), eq_sub_of_add_eq (rows k lt), ih]
      rfl
  · refine fun holds => ⟨fun i lt => ?_, (holds isize le_rfl).trans last⟩
    rw [Known, holds i lt.le, holds (i + 1) lt, ← eq_sub_iff_add_eq]
    exact known i (List.mem_range.mpr lt)

theorem solve_spec (long : 1 ≤ isize) (pivots : s.Pivots isize) :
    (∀ i ≤ isize, s.Row isize x i) ↔ ∀ i ≤ isize, x i = (s.solve isize).rhs i := by
  obtain ⟨k, rfl⟩ := Nat.exists_eq_add_of_le' long
  have whole : (∀ i ≤ k + 1, s.Row (k + 1) x i) ↔ s.Partly (k + 1) 0 x := by simp [Partly]
  rw [whole, partly_forward pivots (Nat.lt_succ_self k), partly_last pivots.2,
    backSubstitute_spec, ← middleCells_eq]
  rfl

end Line

/-! ### The rows of the three directions -/

/-- What the rows of a line are made of: the difference weights `dt*t1` and `dt*t2`, the
dissipation of the five components, and the two Jacobians of every cell. -/
structure Terms (F : Type*) where
  tmp1 : F
  tmp2 : F
  dissipation : Vec F
  fjac : ℕ → Block F
  njac : ℕ → Block F

namespace Terms

/-- `lhsinit` at the two ends, and between them the blocks formed from the Jacobians. -/
def line (d : Terms F) (isize : ℕ) (rhs : ℕ → Vec F) : Line F where
  aa i := if i = 0 ∨ i = isize then 0 else
    -(d.tmp2 • d.fjac (i - 1)) - d.tmp1 • d.njac (i - 1) - diagonal (d.tmp1 • d.dissipation)
  bb i := if i = 0 ∨ i = isize then 1 else
    1 + (d.tmp1 * (2 : ℕ)) • d.njac i + diagonal ((d.tmp1 * (2 : ℕ)) • d.dissipation)
  cc i := if i = 0 ∨ i = isize then 0 else
    d.tmp2 • d.fjac (i + 1) - d.tmp1 • d.njac (i + 1) - diagonal (d.tmp1 • d.dissipation)
  rhs := rhs

/-- The implicit operator of the direction: the identity at the ends, and inside the line one
plus the central difference of the flux less the second differences of the viscous terms and of
the unknown itself. -/
def operator (d : Terms F) (isize : ℕ) (x : ℕ → Vec F) (i : ℕ) : Vec F :=
  if i = 0 ∨ i = isize then x i else
    x i + d.tmp2 • (d.fjac (i + 1) *ᵥ x (i + 1) - d.fjac (i - 1) *ᵥ x (i - 1)) -
      d.tmp1 • (d.njac (i + 1) *ᵥ x (i + 1) - ((2 : ℕ) : F) • d.njac i *ᵥ x i +
        d.njac (i - 1) *ᵥ x (i - 1)) -
      d.tmp1 • (d.dissipation * (x (i + 1) - ((2 : ℕ) : F) • x i + x (i - 1)))

theorem row_iff (d : Terms F) {isize i : ℕ} (rhs x : ℕ → Vec F) :
    (d.line isize rhs).Row isize x i ↔ d.operator isize x i = rhs i := by
  unfold Line.Row operator line
  by_cases ends : i = 0 ∨ i = isize
  · simp only [if_pos ends, zero_mulVec, one_mulVec, ite_self, zero_add, add_zero]
  · obtain ⟨first, last⟩ := not_or.mp ends
    simp only [if_neg ends, if_neg first, if_neg last]
    refine iff_of_eq (congrArg (· = rhs i) ?_)
    funext m
    simp only [add_mulVec, sub_mulVec, neg_mulVec, smul_mulVec, one_mulVec, mulVec_diagonal,
      Pi.add_apply, Pi.sub_apply, Pi.neg_apply, Pi.smul_apply, Pi.mul_apply, smul_eq_mul]
    ring

theorem solve_operator (d : Terms F) {isize : ℕ} (long : 1 ≤ isize) {rhs : ℕ → Vec F}
    (pivots : (d.line isize rhs).Pivots isize) (x : ℕ → Vec F) :
    (∀ i ≤ isize, d.operator isize x i = rhs i) ↔
      ∀ i ≤ isize, x i = ((d.line isize rhs).solve isize).rhs i := by
  rw [← Line.solve_spec long pivots]
  exact forall_congr' fun i => imp_congr_right fun _ => (row_iff d rhs x).symm

end Terms

/-! ### The grid -/

abbrev Grid (F : Type*) := ℕ × ℕ × ℕ → Vec F

/-- `x_solve`, `y_solve`, `z_solve`: line after line. -/
def lineSolve (axis : Axis) (gridPoints : ℕ × ℕ × ℕ) (terms : ℕ × ℕ → Terms F) (g : Grid F) :
    Grid F := fun c =>
  let isize := axis.size gridPoints
  OwnEntries.sweep (axis.planes gridPoints).flatten
    (fun l rhs => (((terms l).line isize rhs).solve isize).rhs)
    (fun l p => g (axis.cell (l, p))) (axis.place c).1 (axis.place c).2

/-- The loops that the vector version runs over all lines of a plane: in the direction of `x` a
line is still eliminated in one go, in the others the cells are in the outer loop. -/
def stages (isize : ℕ) : Axis → List (Line F → Line F)
  | .x => [Line.firstCell, Line.middleCells isize, Line.lastCell isize,
      Line.backSubstitute isize]
  | _ => Line.firstCell ::
      (List.range' 1 (isize - 1)).map (fun i s => (s.subtractLeft i).invert i) ++
      Line.lastCell isize :: (List.range isize).reverse.map fun i s => s.backCell i

def planeSolve (axis : Axis) (isize : ℕ) (terms : ℕ × ℕ → Terms F) (plane : List (ℕ × ℕ))
    (rhs : ℕ × ℕ → ℕ → Vec F) : ℕ × ℕ → ℕ → Vec F := fun l =>
  ((stages isize axis).foldl (fun st stage => OwnEntries.sweep plane (fun _ => stage) st)
    (fun l => (terms l).line isize (rhs l)) l).rhs

def lineSolveVec (axis : Axis) (gridPoints : ℕ × ℕ × ℕ) (terms : ℕ × ℕ → Terms F)
    (g : Grid F) : Grid F := fun c =>
  (axis.planes gridPoints).foldl
    (fun rhs plane => planeSolve axis (axis.size gridPoints) terms plane rhs)
    (fun l p => g (axis.cell (l, p))) (axis.place c).1 (axis.place c).2

theorem stages_solve (axis : Axis) (isize : ℕ) (s : Line F) :
    (stages isize axis).foldl (fun s stage => stage s) s = s.solve isize := by
  have spread : (stages isize .y).foldl (fun s stage => stage s) s = s.solve isize := by
    simp only [stages, List.foldl_append, List.foldl_cons, List.foldl_map, List.foldl_reverse]
    rfl
  cases axis
  · rfl
  · exact spread
  · exact spread

theorem planeSolve_eq (axis : Axis) (isize : ℕ) (terms : ℕ × ℕ → Terms F)
    {plane : List (ℕ × ℕ)} (once : plane.Nodup) (rhs : ℕ × ℕ → ℕ → Vec F) :
    planeSolve axis isize terms plane rhs =
      OwnEntries.sweep plane (fun l rhs => (((terms l).line isize rhs).solve isize).rhs) rhs := by
  funext l
  have loops := OwnEntries.sweeps_apply once ((stages isize axis).map fun stage _ => stage)
    (fun l => (terms l).line isize (rhs l)) l
  rw [List.foldl_map, List.foldl_map, stages_solve] at loops
  rw [planeSolve, loops, OwnEntries.sweep_apply once]
  split_ifs <;> rfl

/-- The vector version leaves what the plain solver leaves. -/
theorem lineSolveVec_eq_lineSolve (axis : Axis) (gridPoints : ℕ × ℕ × ℕ)
    (terms : ℕ × ℕ → Terms F) (g : Grid F) :
    lineSolveVec axis gridPoints terms g = lineSolve axis gridPoints terms g := by
  funext c
  have once (plane : List (ℕ × ℕ)) (mem : plane ∈ axis.planes gridPoints) : plane.Nodup :=
    (List.nodup_flatten.mp (axis.nodup_planes gridPoints)).1 plane mem
  rw [lineSolveVec, lineSolve, OwnEntries.sweep_flatten]
  exact congrArg (· (axis.place c).1 (axis.place c).2) (List.foldl_ext _ _ _ fun rhs plane mem =>
    planeSolve_eq axis (axis.size gridPoints) terms (once plane mem) rhs)

/-- On every interior line the solver inverts the implicit operator of the direction; the other
lines keep their values. -/
theorem blockLines_inverted (axis : Axis) (gridPoints : ℕ × ℕ × ℕ) (terms : ℕ × ℕ → Terms F)
    (g : Grid F) (long : 1 ≤ axis.size gridPoints)
    (pivots : ∀ l ∈ (axis.planes gridPoints).flatten,
      ((terms l).line (axis.size gridPoints) fun p => g (axis.cell (l, p))).Pivots
        (axis.size gridPoints)) :
    (∀ l ∈ (axis.planes gridPoints).flatten, ∀ x : ℕ → Vec F,
      (∀ p ≤ axis.size gridPoints,
        (terms l).operator (axis.size gridPoints) x p = g (axis.cell (l, p))) ↔
      ∀ p ≤ axis.size gridPoints,
        x p = lineSolve axis gridPoints terms g (axis.cell (l, p))) ∧
    ∀ c, (axis.place c).1 ∉ (axis.planes gridPoints).flatten →
      lineSolve axis gridPoints terms g c = g c := by
  refine ⟨fun l mem x => ?_, fun c out => ?_⟩
  · rw [(terms l).solve_operator long (pivots l mem)]
    refine forall_congr' fun p => imp_congr_right fun _ => ?_
    rw [lineSolve, Axis.place_cell, OwnEntries.sweep_apply (axis.nodup_planes gridPoints),
      if_pos mem]
  · rw [lineSolve, OwnEntries.sweep_apply (axis.nodup_planes gridPoints), if_neg out,
      Prod.mk.eta, Axis.cell_place]

def sample : Terms ℚ := ⟨1, 1, fun _ => 1, fun _ => 1, fun _ => 0⟩

theorem blockLines_inverted_sample : sample.operator 2 (fun p =>
    lineSolve .x (3, 3, 3) (fun _ => sample) (fun c _ => c.1) (p, 1, 1)) 1 =
      fun _ => ((1 : ℕ) : ℚ) :=
  (((blockLines_inverted .x (3, 3, 3) (fun _ => sample) (fun c _ => c.1) (by decide)
    (by decide +kernel)).1 (1, 1) (by decide) _).mpr fun _ _ => rfl) 1 (by decide)

end Baseliner.BtLineSolve
