import Mathlib.Data.List.Range
import Mathlib.Data.List.Nodup

/-! The lines of a three-dimensional grid along which the block-tridiagonal and the pentadiagonal
benchmarks solve, in the order of their loops. The outermost cells of the two other directions
have no line of their own. -/

namespace Baseliner.NpbLines

inductive Axis
  | x | y | z

def Axis.place : Axis → ℕ × ℕ × ℕ → (ℕ × ℕ) × ℕ
  | .x, (i, j, k) => ((j, k), i)
  | .y, (i, j, k) => ((i, k), j)
  | .z, (i, j, k) => ((i, j), k)

def Axis.cell : Axis → (ℕ × ℕ) × ℕ → ℕ × ℕ × ℕ
  | .x, ((j, k), i) => (i, j, k)
  | .y, ((i, k), j) => (i, j, k)
  | .z, ((i, j), k) => (i, j, k)

def Axis.size (gridPoints : ℕ × ℕ × ℕ) : Axis → ℕ
  | .x => gridPoints.1 - 1
  | .y => gridPoints.2.1 - 1
  | .z => gridPoints.2.2 - 1

def interior (n : ℕ) : List ℕ := List.range' 1 (n - 2)

def rows (inner outer : List ℕ) : List (List (ℕ × ℕ)) :=
  outer.map fun b => inner.map fun a => (a, b)

def Axis.planes (gridPoints : ℕ × ℕ × ℕ) : Axis → List (List (ℕ × ℕ))
  | .x => rows (interior gridPoints.2.1) (interior gridPoints.2.2)
  | .y => rows (interior gridPoints.1) (interior gridPoints.2.2)
  | .z => rows (interior gridPoints.1) (interior gridPoints.2.1)

theorem Axis.place_cell (axis : Axis) (l : ℕ × ℕ) (p : ℕ) :
    axis.place (axis.cell (l, p)) = (l, p) := by
  cases axis <;> rfl

theorem Axis.cell_place (axis : Axis) (c : ℕ × ℕ × ℕ) : axis.cell (axis.place c) = c := by
  cases axis <;> rfl

theorem nodup_rows {inner outer : List ℕ} (first : inner.Nodup) (second : outer.Nodup) :
    (rows inner outer).flatten.Nodup := by
  rw [rows, List.nodup_flatten]
  constructor
  · simp only [List.mem_map, forall_exists_index, and_imp, forall_apply_eq_imp_iff₂]
    exact fun b _ => first.map fun a a' same => (Prod.mk.inj same).1
  · refine List.pairwise_map.mpr (second.imp fun {b b'} ne l mem mem' => ne ?_)
    obtain ⟨a, -, rfl⟩ := List.mem_map.mp mem
    obtain ⟨a', -, same⟩ := List.mem_map.mp mem'
    exact (Prod.mk.inj same).2.symm

theorem Axis.nodup_planes (axis : Axis) (gridPoints : ℕ × ℕ × ℕ) :
    (axis.planes gridPoints).flatten.Nodup := by
  cases axis <;> exact nodup_rows List.nodup_range' List.nodup_range'

end Baseliner.NpbLines
