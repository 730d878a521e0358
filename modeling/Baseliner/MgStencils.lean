import Baseliner.OwnEntries
import Baseliner.PeriodicGrids

/-! The four operators of the MG benchmark on its grids, over an arbitrary field. A grid has a
layer of points around it, which `comm3` fills from the opposite side; the loops over a line keep
sums of the neighbours that the points of the line share. What a work array holds when a line is
begun is left open, since the lines of a plane may have been dealt out to threads in any way. -/

namespace Baseliner.MgStencils
open PeriodicGrids

variable {F : Type*} [Field F]

/-- A place `(i1, i2, i3)` of an array. -/
abbrev Place := ℕ × ℕ × ℕ
abbrev Grid (F : Type*) := Place → F

/-- What the work arrays of a thread hold when it begins a line. -/
abbrev Scratch (F : Type*) := ℕ × ℕ → ℕ → ℕ → F

section loops

def columnMoves (n : Place) (i3 : ℕ) : List (Place × Place) :=
  (List.range' 2 (n.2.1 - 2)).flatMap fun i2 =>
    [((1, i2, i3), (n.1 - 1, i2, i3)), ((n.1, i2, i3), (2, i2, i3))]

def rowMoves (n : Place) (i3 : ℕ) : List (Place × Place) :=
  (List.range' 1 n.1).flatMap fun i1 =>
    [((i1, 1, i3), (i1, n.2.1 - 1, i3)), ((i1, n.2.1, i3), (i1, 2, i3))]

def planeMoves (n : Place) : List (Place × Place) :=
  (List.range' 1 n.2.1).flatMap fun i2 => (List.range' 1 n.1).flatMap fun i1 =>
    [((i1, i2, 1), (i1, i2, n.2.2 - 1)), ((i1, i2, n.2.2), (i1, i2, 2))]

/-- The copies of `comm3` in their order. -/
def comm3Moves (n : Place) : List (Place × Place) :=
  ((List.range' 2 (n.2.2 - 2)).flatMap fun i3 => columnMoves n i3 ++ rowMoves n i3) ++
    planeMoves n

def comm3 (n : Place) (u : Grid F) : Grid F := OwnEntries.copy (comm3Moves n) u

/-- The lines of a grid, as the outer two loops go through them. -/
def lines (n : Place) : List (ℕ × ℕ) :=
  (List.range' 2 (n.2.2 - 2)).flatMap fun i3 => (List.range' 2 (n.2.1 - 2)).map fun i2 => (i2, i3)

def cells (n : Place) (line : ℕ × ℕ) : List Place :=
  (List.range' 2 (n.1 - 2)).map fun i1 => (i1, line)

/-- The neighbours of a point across its line, those in one step and those in two. -/
def cross (r : Grid F) (line : ℕ × ℕ) (i1 : ℕ) : F :=
  r (i1, line.1 - 1, line.2) + r (i1, line.1 + 1, line.2) +
    r (i1, line.1, line.2 - 1) + r (i1, line.1, line.2 + 1)

def corners (r : Grid F) (line : ℕ × ℕ) (i1 : ℕ) : F :=
  r (i1, line.1 - 1, line.2 - 1) + r (i1, line.1 + 1, line.2 - 1) +
    r (i1, line.1 - 1, line.2 + 1) + r (i1, line.1 + 1, line.2 + 1)

def psinvLine (n : Place) (c : ℕ → F) (work : ℕ → ℕ → F) (r : Grid F) (line : ℕ × ℕ)
    (u : Grid F) : Grid F :=
  let r1 := OwnEntries.sweep (List.range' 1 n.1) (fun i1 _ => cross r line i1) (work 1)
  let r2 := OwnEntries.sweep (List.range' 1 n.1) (fun i1 _ => corners r line i1) (work 2)
  OwnEntries.sweep (cells n line) (fun p u =>
    u + c 0 * r p + c 1 * (r (p.1 - 1, p.2) + r (p.1 + 1, p.2) + r1 p.1) +
      c 2 * (r2 p.1 + r1 (p.1 - 1) + r1 (p.1 + 1))) u

def psinv (n : Place) (c : ℕ → F) (work : Scratch F) (r u : Grid F) : Grid F :=
  comm3 n ((lines n).foldl (fun u line => psinvLine n c (work line) r line u) u)

/-- `v` is read where `r` is stored, and may be the same array. -/
def residLine (n : Place) (a : ℕ → F) (work : ℕ → ℕ → F) (u : Grid F) (v : Place → F → F)
    (line : ℕ × ℕ) (r : Grid F) : Grid F :=
  let u1 := OwnEntries.sweep (List.range' 1 n.1) (fun i1 _ => cross u line i1) (work 1)
  let u2 := OwnEntries.sweep (List.range' 1 n.1) (fun i1 _ => corners u line i1) (work 2)
  OwnEntries.sweep (cells n line) (fun p r =>
    v p r - a 0 * u p - a 2 * (u2 p.1 + u1 (p.1 - 1) + u1 (p.1 + 1)) -
      a 3 * (u2 (p.1 - 1) + u2 (p.1 + 1))) r

def residLoops (n : Place) (a : ℕ → F) (work : Scratch F) (u : Grid F) (v : Place → F → F)
    (r : Grid F) : Grid F :=
  comm3 n ((lines n).foldl (fun r line => residLine n a (work line) u v line r) r)

def resid (n : Place) (a : ℕ → F) (work : Scratch F) (u v r : Grid F) : Grid F :=
  residLoops n a work u (fun p _ => v p) r

/-- `resid` with one array for `v` and `r`. -/
def residSame (n : Place) (a : ℕ → F) (work : Scratch F) (u r : Grid F) : Grid F :=
  residLoops n a work u (fun _ r => r) r

/-- The distance of the first fine point from its coarse point, for `m` fine points. -/
def offset (m : ℕ) : ℕ := if m = 3 then 2 else 1

def rprj3Line (mk mj : Place) (work : ℕ → ℕ → F) (r : Grid F) (line : ℕ × ℕ) (s : Grid F) :
    Grid F :=
  let d1 := offset mk.1
  let i2 := 2 * line.1 - offset mk.2.1
  let i3 := 2 * line.2 - offset mk.2.2
  let before := (List.range' 2 (mj.1 - 1)).map fun j1 => 2 * j1 - d1 - 1
  let x1 := OwnEntries.sweep before (fun i _ =>
    r (i, i2 - 1, i3) + r (i, i2 + 1, i3) + r (i, i2, i3 - 1) + r (i, i2, i3 + 1)) (work 1)
  let y1 := OwnEntries.sweep before (fun i _ =>
    r (i, i2 - 1, i3 - 1) + r (i, i2 - 1, i3 + 1) +
      r (i, i2 + 1, i3 - 1) + r (i, i2 + 1, i3 + 1)) (work 2)
  OwnEntries.sweep (cells mj line) (fun p _ =>
    let i1 := 2 * p.1 - d1
    let y2 := r (i1, i2 - 1, i3 - 1) + r (i1, i2 - 1, i3 + 1) +
      r (i1, i2 + 1, i3 - 1) + r (i1, i2 + 1, i3 + 1)
    let x2 := r (i1, i2 - 1, i3) + r (i1, i2 + 1, i3) + r (i1, i2, i3 - 1) + r (i1, i2, i3 + 1)
    ((2 : ℕ) : F)⁻¹ * r (i1, i2, i3) +
      ((4 : ℕ) : F)⁻¹ * (r (i1 - 1, i2, i3) + r (i1 + 1, i2, i3) + x2) +
      ((8 : ℕ) : F)⁻¹ * (x1 (i1 - 1) + x1 (i1 + 1) + y2) +
      ((16 : ℕ) : F)⁻¹ * (y1 (i1 - 1) + y1 (i1 + 1))) s

/-- The projection of `r` on a grid with `mk` points to `s` on one with `mj`. -/
def rprj3 (mk mj : Place) (work : Scratch F) (r s : Grid F) : Grid F :=
  comm3 mj ((lines mj).foldl (fun s line => rprj3Line mk mj (work line) r line s) s)

/-- What a line of coarse points adds to the fine points around it. -/
def interpLine (mm : Place) (work : ℕ → ℕ → F) (z : Grid F) (line : ℕ × ℕ) : List (Place × F) :=
  let i2 := line.1
  let i3 := line.2
  let z1 := OwnEntries.sweep (List.range' 1 mm.1)
    (fun i1 _ => z (i1, i2 + 1, i3) + z (i1, i2, i3)) (work 1)
  let z2 := OwnEntries.sweep (List.range' 1 mm.1)
    (fun i1 _ => z (i1, i2, i3 + 1) + z (i1, i2, i3)) (work 2)
  let z3 := OwnEntries.sweep (List.range' 1 mm.1)
    (fun i1 _ => z (i1, i2 + 1, i3 + 1) + z (i1, i2, i3 + 1) + z1 i1) (work 3)
  ((List.range' 1 (mm.1 - 1)).flatMap fun i1 =>
    [((2 * i1 - 1, 2 * i2 - 1, 2 * i3 - 1), z (i1, i2, i3)),
      ((2 * i1, 2 * i2 - 1, 2 * i3 - 1),
        ((2 : ℕ) : F)⁻¹ * (z (i1 + 1, i2, i3) + z (i1, i2, i3)))]) ++
  ((List.range' 1 (mm.1 - 1)).flatMap fun i1 =>
    [((2 * i1 - 1, 2 * i2, 2 * i3 - 1), ((2 : ℕ) : F)⁻¹ * z1 i1),
      ((2 * i1, 2 * i2, 2 * i3 - 1), ((4 : ℕ) : F)⁻¹ * (z1 i1 + z1 (i1 + 1)))]) ++
  ((List.range' 1 (mm.1 - 1)).flatMap fun i1 =>
    [((2 * i1 - 1, 2 * i2 - 1, 2 * i3), ((2 : ℕ) : F)⁻¹ * z2 i1),
      ((2 * i1, 2 * i2 - 1, 2 * i3), ((4 : ℕ) : F)⁻¹ * (z2 i1 + z2 (i1 + 1)))]) ++
  (List.range' 1 (mm.1 - 1)).flatMap fun i1 =>
    [((2 * i1 - 1, 2 * i2, 2 * i3), ((4 : ℕ) : F)⁻¹ * z3 i1),
      ((2 * i1, 2 * i2, 2 * i3), ((8 : ℕ) : F)⁻¹ * (z3 i1 + z3 (i1 + 1)))]

def coarseLines (mm : Place) : List (ℕ × ℕ) :=
  (List.range' 1 (mm.2.2 - 1)).flatMap fun i3 => (List.range' 1 (mm.2.1 - 1)).map fun i2 => (i2, i3)

/-- The interpolation of `z` on a grid with `mm` points is added to `u`, where `u` has more than
one point inside in each direction. -/
def interp (mm : Place) (work : Scratch F) (z u : Grid F) : Grid F :=
  (coarseLines mm).foldl (fun u line => OwnEntries.addTo (interpLine mm (work line) z line) u) u

/-- The points of an array, those of the layer included, in the order of `zero3`. -/
def all (n : Place) : List Place :=
  (List.range' 1 n.2.2).flatMap fun i3 => (List.range' 1 n.2.1).flatMap fun i2 =>
    (List.range' 1 n.1).map fun i1 => (i1, i2, i3)

def zero3 (n : Place) (z : Grid F) : Grid F := OwnEntries.sweep (all n) (fun _ _ => 0) z

end loops

/-! ### Grids with their layer -/

/-- The points of an array for these periods, and the function that it holds. -/
def points (N : Periods) : Place := (N.1 + 2, N.2.1 + 2, N.2.2 + 2)

def Inside (N : Periods) (p : Place) : Prop :=
  (2 ≤ p.1 ∧ p.1 ≤ N.1 + 1) ∧ (2 ≤ p.2.1 ∧ p.2.1 ≤ N.2.1 + 1) ∧ 2 ≤ p.2.2 ∧ p.2.2 ≤ N.2.2 + 1

def Within (N : Periods) (p : Place) : Prop :=
  (1 ≤ p.1 ∧ p.1 ≤ N.1 + 2) ∧ (1 ≤ p.2.1 ∧ p.2.1 ≤ N.2.1 + 2) ∧ 1 ≤ p.2.2 ∧ p.2.2 ≤ N.2.2 + 2

def toPoint (p : Place) : Point := (p.1, p.2.1, p.2.2)

def Holds (N : Periods) (u : Grid F) (g : Point → F) : Prop :=
  ∀ p, Within N p → u p = g (toPoint p)

structure Stores (N : Periods) (u : Grid F) (U : Point → F) : Prop where
  periodic : U ∈ periodic F N
  holds : Holds N u U

def Positive (N : Periods) : Prop := 0 < N.1 ∧ 0 < N.2.1 ∧ 0 < N.2.2

variable {N : Periods} {u r : Grid F} {U R : Point → F}

theorem comm3Moves_same (hU : U ∈ periodic F N) {m : Place × Place}
    (mem : m ∈ comm3Moves (points N)) : U (toPoint m.1) = U (toPoint m.2) := by
  have shift (x N : ℕ) : ((x + N : ℕ) : ℤ) = x + N := Nat.cast_add ..
  have low1 (y z : ℤ) : U ((1 : ℕ), y, z) = U ((1 + N.1 : ℕ), y, z) := by
    rw [shift]
    exact (hU _ y z).1.symm
  have high1 (y z : ℤ) : U ((2 + N.1 : ℕ), y, z) = U ((2 : ℕ), y, z) := by
    rw [shift]
    exact (hU _ y z).1
  have low2 (x z : ℤ) : U (x, (1 : ℕ), z) = U (x, (1 + N.2.1 : ℕ), z) := by
    rw [shift]
    exact (hU x _ z).2.1.symm
  have high2 (x z : ℤ) : U (x, (2 + N.2.1 : ℕ), z) = U (x, (2 : ℕ), z) := by
    rw [shift]
    exact (hU x _ z).2.1
  have low3 (x y : ℤ) : U (x, y, (1 : ℕ)) = U (x, y, (1 + N.2.2 : ℕ)) := by
    rw [shift]
    exact (hU x y _).2.2.symm
  have high3 (x y : ℤ) : U (x, y, (2 + N.2.2 : ℕ)) = U (x, y, (2 : ℕ)) := by
    rw [shift]
    exact (hU x y _).2.2
  simp only [comm3Moves, columnMoves, rowMoves, planeMoves, points, List.mem_append,
    List.mem_flatMap, List.mem_cons, List.not_mem_nil, or_false, Nat.add_comm _ 2,
    show ∀ k, 2 + k - 1 = 1 + k by omega] at mem
  obtain ⟨i3, -, ⟨i2, -, rfl | rfl⟩ | ⟨i1, -, rfl | rfl⟩⟩ | ⟨i2, -, i1, -, rfl | rfl⟩ := mem
  · exact low1 _ _
  · exact high1 _ _
  · exact low2 _ _
  · exact high2 _ _
  · exact low3 _ _
  · exact high3 _ _

theorem mem_range_le {low m i : ℕ} : i ∈ List.range' low m ↔ low ≤ i ∧ i < low + m :=
  List.mem_range'_1

theorem exists_columnMoves {p : Place} (ends : p.1 = 1 ∨ p.1 = N.1 + 2)
    (column : 2 ≤ p.2.1 ∧ p.2.1 ≤ N.2.1 + 1) : ∃ m ∈ columnMoves (points N) p.2.2, p = m.1 := by
  obtain ⟨i1, i2, i3⟩ := p
  have mem : i2 ∈ List.range' 2 ((points N).2.1 - 2) :=
    mem_range_le.mpr (by simp only [points] at *; omega)
  obtain rfl | rfl := ends
  · exact ⟨_, List.mem_flatMap.mpr ⟨i2, mem, List.mem_cons_self⟩, rfl⟩
  · exact ⟨_, List.mem_flatMap.mpr ⟨i2, mem, List.mem_cons_of_mem _ List.mem_cons_self⟩, rfl⟩

theorem exists_rowMoves {p : Place} (row : 1 ≤ p.1 ∧ p.1 ≤ N.1 + 2)
    (ends : p.2.1 = 1 ∨ p.2.1 = N.2.1 + 2) : ∃ m ∈ rowMoves (points N) p.2.2, p = m.1 := by
  obtain ⟨i1, i2, i3⟩ := p
  have mem : i1 ∈ List.range' 1 (points N).1 :=
    mem_range_le.mpr (by simp only [points] at *; omega)
  obtain rfl | rfl := ends
  · exact ⟨_, List.mem_flatMap.mpr ⟨i1, mem, List.mem_cons_self⟩, rfl⟩
  · exact ⟨_, List.mem_flatMap.mpr ⟨i1, mem, List.mem_cons_of_mem _ List.mem_cons_self⟩, rfl⟩

theorem exists_planeMoves {p : Place} (row : 1 ≤ p.1 ∧ p.1 ≤ N.1 + 2)
    (column : 1 ≤ p.2.1 ∧ p.2.1 ≤ N.2.1 + 2) (ends : p.2.2 = 1 ∨ p.2.2 = N.2.2 + 2) :
    ∃ m ∈ planeMoves (points N), p = m.1 := by
  obtain ⟨i1, i2, i3⟩ := p
  have mem1 : i1 ∈ List.range' 1 (points N).1 :=
    mem_range_le.mpr (by simp only [points] at *; omega)
  have mem2 : i2 ∈ List.range' 1 (points N).2.1 :=
    mem_range_le.mpr (by simp only [points] at *; omega)
  obtain rfl | rfl := ends
  · exact ⟨_, List.mem_flatMap.mpr ⟨i2, mem2, List.mem_flatMap.mpr ⟨i1, mem1,
      List.mem_cons_self⟩⟩, rfl⟩
  · exact ⟨_, List.mem_flatMap.mpr ⟨i2, mem2, List.mem_flatMap.mpr ⟨i1, mem1,
      List.mem_cons_of_mem _ List.mem_cons_self⟩⟩, rfl⟩

theorem reached_plane {p : Place} (row : 1 ≤ p.1 ∧ p.1 ≤ N.1 + 2)
    (column : 1 ≤ p.2.1 ∧ p.2.1 ≤ N.2.1 + 2) (plane : 2 ≤ p.2.2 ∧ p.2.2 ≤ N.2.2 + 1) :
    Inside N p ∨ ∃ m ∈ columnMoves (points N) p.2.2 ++ rowMoves (points N) p.2.2, p = m.1 := by
  by_cases ends2 : p.2.1 = 1 ∨ p.2.1 = N.2.1 + 2
  · obtain ⟨m, mem, same⟩ := exists_rowMoves row ends2
    exact .inr ⟨m, List.mem_append_right _ mem, same⟩
  · by_cases ends1 : p.1 = 1 ∨ p.1 = N.1 + 2
    · obtain ⟨m, mem, same⟩ := exists_columnMoves (N := N) ends1 (by omega)
      exact .inr ⟨m, List.mem_append_left _ mem, same⟩
    · exact .inl ⟨by omega, by omega, plane⟩

theorem supplied_planes (pos : Positive N) {i3 : ℕ} (plane : 2 ≤ i3 ∧ i3 ≤ N.2.2 + 1) :
    OwnEntries.Supplied (Inside N) (columnMoves (points N) i3 ++ rowMoves (points N) i3) := by
  obtain ⟨pos1, pos2, pos3⟩ := pos
  refine (OwnEntries.supplied_of_forall fun m mem => ?_).append
    (OwnEntries.supplied_of_forall fun m mem => ?_)
  · obtain ⟨i2, mem2, mem⟩ := List.mem_flatMap.mp mem
    have bound := mem_range_le.mp mem2
    simp only [List.mem_cons, List.not_mem_nil, or_false] at mem
    simp only [points] at bound mem
    obtain rfl | rfl := mem <;> simp only [Inside] <;> omega
  · -- the rows take over the ends of the columns
    obtain ⟨i1, mem1, mem⟩ := List.mem_flatMap.mp mem
    have bound := mem_range_le.mp mem1
    simp only [List.mem_cons, List.not_mem_nil, or_false] at mem
    simp only [points] at bound mem
    by_cases ends : i1 = 1 ∨ i1 = N.1 + 2
    · refine .inr ?_
      obtain rfl | rfl := mem
      · exact exists_columnMoves (p := (i1, N.2.1 + 2 - 1, i3)) ends (by simp only; omega)
      · exact exists_columnMoves (p := (i1, 2, i3)) ends (by simp only; omega)
    · refine .inl ?_
      obtain rfl | rfl := mem <;> simp only [Inside] <;> omega

theorem comm3Moves_supplied (pos : Positive N) :
    OwnEntries.Supplied (Inside N) (comm3Moves (points N)) := by
  refine OwnEntries.Supplied.append (OwnEntries.supplied_flatMap fun i3 mem => ?_)
    (OwnEntries.supplied_of_forall fun m mem => ?_)
  · have bound := mem_range_le.mp mem
    simp only [points] at bound
    exact supplied_planes pos (by omega)
  · obtain ⟨i2, mem2, mem⟩ := List.mem_flatMap.mp mem
    obtain ⟨i1, mem1, mem⟩ := List.mem_flatMap.mp mem
    have bound2 := mem_range_le.mp mem2
    have bound1 := mem_range_le.mp mem1
    simp only [points] at bound1 bound2
    -- the planes on both sides have been completed by then
    have known (i3 : ℕ) (plane : 2 ≤ i3 ∧ i3 ≤ N.2.2 + 1) : Inside N (i1, i2, i3) ∨
        ∃ m ∈ (List.range' 2 ((points N).2.2 - 2)).flatMap fun i3 =>
          columnMoves (points N) i3 ++ rowMoves (points N) i3, (i1, i2, i3) = m.1 := by
      refine (reached_plane (N := N) (p := (i1, i2, i3)) (by simp only; omega)
        (by simp only; omega) plane).imp_right fun ⟨m, mem, same⟩ =>
          ⟨m, List.mem_flatMap.mpr ⟨i3, mem_range_le.mpr ?_, mem⟩, same⟩
      simp only [points]
      omega
    obtain ⟨-, -, pos3⟩ := pos
    simp only [points, List.mem_cons, List.not_mem_nil, or_false] at mem
    obtain rfl | rfl := mem
    · exact known _ (by omega)
    · exact known _ (by omega)

theorem Stores.inside (h : Stores N u U) {p : Place} (inside : Inside N p) :
    u p = U (toPoint p) := by
  obtain ⟨row, column, plane⟩ := inside
  exact h.holds p ⟨by omega, by omega, by omega⟩

theorem comm3_stores (pos : Positive N) (hU : U ∈ periodic F N)
    (inside : ∀ p, Inside N p → u p = U (toPoint p)) : Stores N (comm3 (points N) u) U := by
  refine ⟨hU, fun p within => ?_⟩
  refine OwnEntries.copy_agrees (g := fun p => U (toPoint p)) (comm3Moves_supplied pos)
    (fun m => comm3Moves_same hU) inside ?_
  obtain ⟨row, column, plane⟩ := within
  by_cases ends : p.2.2 = 1 ∨ p.2.2 = N.2.2 + 2
  · obtain ⟨m, mem, same⟩ := exists_planeMoves row column ends
    exact .inr ⟨m, List.mem_append_right _ mem, same⟩
  · refine (reached_plane row column (by omega)).imp_right fun ⟨m, mem, same⟩ =>
      ⟨m, List.mem_append_left _ (List.mem_flatMap.mpr ⟨_, mem_range_le.mpr ?_, mem⟩), same⟩
    simp only [points]
    omega

/-! ### The loops over the points inside -/

theorem mem_lines {line : ℕ × ℕ} : line ∈ lines (points N) ↔
    (2 ≤ line.1 ∧ line.1 ≤ N.2.1 + 1) ∧ 2 ≤ line.2 ∧ line.2 ≤ N.2.2 + 1 := by
  obtain ⟨i2, i3⟩ := line
  simp only [lines, points, List.mem_flatMap, List.mem_map, mem_range_le, Prod.mk.injEq]
  constructor
  · rintro ⟨_, plane, _, column, rfl, rfl⟩
    omega
  · rintro ⟨column, plane⟩
    exact ⟨i3, by omega, i2, by omega, rfl, rfl⟩

theorem mem_cells {line : ℕ × ℕ} {p : Place} : p ∈ cells (points N) line ↔
    (2 ≤ p.1 ∧ p.1 ≤ N.1 + 1) ∧ p.2 = line := by
  obtain ⟨i1, i⟩ := p
  simp only [cells, points, List.mem_map, mem_range_le, Prod.mk.injEq]
  constructor
  · rintro ⟨_, row, rfl, rfl⟩
    exact ⟨by omega, rfl⟩
  · rintro ⟨row, rfl⟩
    exact ⟨i1, by omega, rfl, rfl⟩

theorem nodup_interior (n : Place) : ((lines n).flatMap (cells n)).Nodup := by
  refine OwnEntries.nodup_flatMap_of_key Prod.snd ?_ (fun line _ => ?_) fun line _ p mem => ?_
  · refine OwnEntries.nodup_flatMap_of_key Prod.snd List.nodup_range' (fun i3 _ => ?_)
      fun i3 _ line mem => ?_
    · exact List.Nodup.map (fun _ _ same => (Prod.mk.inj same).1) List.nodup_range'
    · obtain ⟨i2, -, rfl⟩ := List.mem_map.mp mem
      rfl
  · exact List.Nodup.map (fun _ _ same => (Prod.mk.inj same).1) List.nodup_range'
  · obtain ⟨i1, -, rfl⟩ := List.mem_map.mp mem
    rfl

omit [Field F] in
theorem foldl_lines {body : ℕ × ℕ → Grid F → Grid F} {f : Place → F → F}
    (h : ∀ line ∈ lines (points N), ∀ u, body line u = OwnEntries.sweep (cells (points N) line) f u)
    (u : Grid F) {p : Place} (inside : Inside N p) :
    (lines (points N)).foldl (fun u line => body line u) u p = f p (u p) := by
  have whole : (lines (points N)).foldl (fun u line => body line u) u =
      OwnEntries.sweep ((lines (points N)).flatMap (cells (points N))) f u := by
    rw [OwnEntries.sweep_flatMap]
    exact List.foldl_ext _ _ _ fun u line mem => h line mem u
  have mem : p ∈ (lines (points N)).flatMap (cells (points N)) :=
    List.mem_flatMap.mpr ⟨p.2, mem_lines.mpr inside.2, mem_cells.mpr ⟨inside.1, rfl⟩⟩
  rw [whole, OwnEntries.sweep_apply (nodup_interior _), if_pos mem]

omit [Field F] in
theorem sums_apply {n i : ℕ} (row : 1 ≤ i ∧ i ≤ n) (f : ℕ → F) (work : ℕ → F) :
    OwnEntries.sweep (List.range' 1 n) (fun i _ => f i) work i = f i := by
  rw [OwnEntries.sweep_apply List.nodup_range', if_pos (mem_range_le.mpr (by omega))]

theorem cast_pred {i : ℕ} (h : 1 ≤ i) : ((i - 1 : ℕ) : ℤ) = i - 1 := by omega

section stencils

variable {i j k : ℕ}

omit [Field F] in
theorem Holds.apply (h : Holds N r R) (row : 1 ≤ i ∧ i ≤ N.1 + 2) (column : 1 ≤ j ∧ j ≤ N.2.1 + 2)
    (plane : 1 ≤ k ∧ k ≤ N.2.2 + 2) : r (i, j, k) = R (i, j, k) :=
  h (i, j, k) ⟨row, column, plane⟩

theorem Holds.cross (h : Holds N r R) (row : 1 ≤ i ∧ i ≤ N.1 + 2)
    (column : 2 ≤ j ∧ j ≤ N.2.1 + 1) (plane : 2 ≤ k ∧ k ≤ N.2.2 + 1) : cross r (j, k) i =
      R (i, j - 1, k) + R (i, j + 1, k) + R (i, j, k - 1) + R (i, j, k + 1) := by
  rw [MgStencils.cross, h.apply row (by omega) (by omega), h.apply row (by omega) (by omega),
    h.apply row (by omega) (by omega), h.apply row (by omega) (by omega),
    cast_pred (by omega), cast_pred (by omega)]
  push_cast
  rfl

theorem Holds.corners (h : Holds N r R) (row : 1 ≤ i ∧ i ≤ N.1 + 2)
    (column : 2 ≤ j ∧ j ≤ N.2.1 + 1) (plane : 2 ≤ k ∧ k ≤ N.2.2 + 1) : corners r (j, k) i =
      R (i, j - 1, k - 1) + R (i, j + 1, k - 1) + R (i, j - 1, k + 1) +
        R (i, j + 1, k + 1) := by
  rw [MgStencils.corners, h.apply row (by omega) (by omega), h.apply row (by omega) (by omega),
    h.apply row (by omega) (by omega), h.apply row (by omega) (by omega),
    cast_pred (by omega), cast_pred (by omega)]
  push_cast
  rfl

end stencils

def smoother (c : ℕ → F) (d : ℕ) : F := if d = 3 then 0 else c d

def operator (a : ℕ → F) (d : ℕ) : F := if d = 1 then 0 else a d

theorem psinvLine_eq (c : ℕ → F) (work : ℕ → ℕ → F) (r : Grid F) (line : ℕ × ℕ) (u : Grid F) :
    psinvLine (points N) c work r line u = OwnEntries.sweep (cells (points N) line)
      (fun p u => u + c 0 * r p + c 1 * (r (p.1 - 1, p.2) + r (p.1 + 1, p.2) + cross r p.2 p.1) +
        c 2 * (corners r p.2 p.1 + cross r p.2 (p.1 - 1) + cross r p.2 (p.1 + 1))) u := by
  simp only [psinvLine]
  refine OwnEntries.sweep_congr (fun p mem a => ?_) u
  obtain ⟨row, rfl⟩ := mem_cells.mp mem
  rw [sums_apply, sums_apply, sums_apply, sums_apply] <;> simp only [points] <;> omega

theorem residLine_eq (a : ℕ → F) (work : ℕ → ℕ → F) (u : Grid F) (v : Place → F → F)
    (line : ℕ × ℕ) (r : Grid F) :
    residLine (points N) a work u v line r = OwnEntries.sweep (cells (points N) line)
      (fun p r => v p r - a 0 * u p -
        a 2 * (corners u p.2 p.1 + cross u p.2 (p.1 - 1) + cross u p.2 (p.1 + 1)) -
        a 3 * (corners u p.2 (p.1 - 1) + corners u p.2 (p.1 + 1))) r := by
  simp only [residLine]
  refine OwnEntries.sweep_congr (fun p mem b => ?_) r
  obtain ⟨row, rfl⟩ := mem_cells.mp mem
  rw [sums_apply, sums_apply, sums_apply, sums_apply, sums_apply] <;> simp only [points] <;> omega

theorem psinv_stores (pos : Positive N) {c : ℕ → F} (work : Scratch F) (hr : Stores N r R)
    (hu : Stores N u U) :
    Stores N (psinv (points N) c work r u) (U + around (smoother c) R) := by
  refine comm3_stores pos (add_mem hu.periodic (around_mem _ hr.periodic)) fun p inside => ?_
  refine (foldl_lines (fun line _ u => psinvLine_eq c (work line) r line u) u inside).trans ?_
  obtain ⟨i, j, k⟩ := p
  rw [hu.inside inside]
  obtain ⟨row, column, plane⟩ := inside
  simp only at row column plane
  have hr := hr.holds
  rw [hr.apply (by omega) (by omega) (by omega), hr.apply (by omega) (by omega) (by omega),
    hr.apply (by omega) (by omega) (by omega), hr.cross (by omega) column plane,
    hr.cross (by omega) column plane, hr.cross (by omega) column plane,
    hr.corners (by omega) column plane, cast_pred (by omega)]
  simp only [toPoint, Pi.add_apply, around_apply, smoother]
  push_cast
  simp
  ring

theorem residLoops_stores (pos : Positive N) {a : ℕ → F} (work : Scratch F)
    {v : Place → F → F} {V : Point → F} (hu : Stores N u U) (hV : V ∈ periodic F N)
    (hv : ∀ p, Inside N p → v p (r p) = V (toPoint p)) :
    Stores N (residLoops (points N) a work u v r) (V - around (operator a) U) := by
  refine comm3_stores pos (sub_mem hV (around_mem _ hu.periodic)) fun p inside => ?_
  refine (foldl_lines (fun line _ r => residLine_eq a (work line) u v line r) r inside).trans ?_
  obtain ⟨i, j, k⟩ := p
  rw [hv _ inside]
  obtain ⟨row, column, plane⟩ := inside
  simp only at row column plane
  have hu := hu.holds
  rw [hu.apply (by omega) (by omega) (by omega), hu.cross (by omega) column plane,
    hu.cross (by omega) column plane, hu.corners (by omega) column plane,
    hu.corners (by omega) column plane, hu.corners (by omega) column plane,
    cast_pred (by omega)]
  simp only [toPoint, Pi.sub_apply, around_apply, operator]
  push_cast
  simp
  ring

theorem resid_stores (pos : Positive N) {a : ℕ → F} (work : Scratch F) {v : Grid F}
    {V : Point → F} (hu : Stores N u U) (hV : V ∈ periodic F N)
    (hv : ∀ p, Inside N p → v p = V (toPoint p)) :
    Stores N (resid (points N) a work u v r) (V - around (operator a) U) :=
  residLoops_stores pos work hu hV hv

theorem residSame_stores (pos : Positive N) {a : ℕ → F} (work : Scratch F) (hu : Stores N u U)
    (hr : Stores N r R) :
    Stores N (residSame (points N) a work u r) (R - around (operator a) U) :=
  residLoops_stores pos work hu hr.periodic fun _ inside => hr.inside inside

/-! ### Projection -/

theorem four_inv : ((4 : ℕ) : F)⁻¹ = ((2 : ℕ) : F)⁻¹ ^ 2 := by
  rw [inv_pow, ← Nat.cast_pow]
  norm_num

theorem eight_inv : ((8 : ℕ) : F)⁻¹ = ((2 : ℕ) : F)⁻¹ ^ 3 := by
  rw [inv_pow, ← Nat.cast_pow]
  norm_num

theorem sixteen_inv : ((16 : ℕ) : F)⁻¹ = ((2 : ℕ) : F)⁻¹ ^ 4 := by
  rw [inv_pow, ← Nat.cast_pow]
  norm_num

def fine (p : Place) : Place := (2 * p.1 - 1, 2 * p.2.1 - 1, 2 * p.2.2 - 1)

theorem offset_double (n : ℕ) : offset (2 * n + 2) = 1 := if_neg (by omega)

omit [Field F] in
theorem everySecond_apply {n i : ℕ} (row : 2 ≤ i ∧ i ≤ n) (f : ℕ → F) (work : ℕ → F) :
    OwnEntries.sweep ((List.range' 2 (n - 1)).map fun j => 2 * j - 1 - 1) (fun i _ => f i) work
      (2 * i - 1 - 1) = f (2 * i - 1 - 1) := by
  have once : ((List.range' 2 (n - 1)).map fun j => 2 * j - 1 - 1).Nodup := by
    refine List.Nodup.map_on (fun j mem j' mem' same => ?_) List.nodup_range'
    have bound := mem_range_le.mp mem
    have bound' := mem_range_le.mp mem'
    omega
  rw [OwnEntries.sweep_apply once, if_pos]
  exact List.mem_map.mpr ⟨i, mem_range_le.mpr (by omega), rfl⟩

theorem rprj3Line_eq (work : ℕ → ℕ → F) (r : Grid F) (line : ℕ × ℕ) (s : Grid F) :
    rprj3Line (points (double N)) (points N) work r line s =
      OwnEntries.sweep (cells (points N) line) (fun p _ =>
        ((2 : ℕ) : F)⁻¹ * r (fine p) +
          ((4 : ℕ) : F)⁻¹ * (r ((fine p).1 - 1, (fine p).2) + r ((fine p).1 + 1, (fine p).2) +
            cross r (fine p).2 (fine p).1) +
          ((8 : ℕ) : F)⁻¹ * (cross r (fine p).2 ((fine p).1 - 1) +
            cross r (fine p).2 ((fine p).1 + 1) + corners r (fine p).2 (fine p).1) +
          ((16 : ℕ) : F)⁻¹ * (corners r (fine p).2 ((fine p).1 - 1) +
            corners r (fine p).2 ((fine p).1 + 1))) s := by
  simp only [rprj3Line, points, double, offset_double]
  refine OwnEntries.sweep_congr (fun p mem a => ?_) s
  obtain ⟨row, rfl⟩ := mem_cells.mp mem
  have after : 2 * p.1 - 1 + 1 = 2 * (p.1 + 1) - 1 - 1 := by omega
  rw [after, everySecond_apply (by omega), everySecond_apply (by omega),
    everySecond_apply (by omega), everySecond_apply (by omega), ← after]
  simp only [fine, cross, corners]
  ring

theorem rprj3_stores (pos : Positive N) (work : Scratch F) {s : Grid F}
    (hr : Stores (double N) r R) :
    Stores N (rprj3 (points (double N)) (points N) work r s) (weigh R) := by
  refine comm3_stores pos (project N ⟨R, hr.periodic⟩).2 fun p inside => ?_
  refine (foldl_lines (fun line _ s => rprj3Line_eq (work line) r line s) s inside).trans ?_
  obtain ⟨i, j, k⟩ := p
  obtain ⟨row, column, plane⟩ := inside
  simp only at row column plane
  simp only [fine]
  have hr := hr.holds
  have bounds (i n : ℕ) (h : 2 ≤ i ∧ i ≤ n + 1) : 2 ≤ 2 * i - 1 ∧ 2 * i - 1 ≤ 2 * n + 1 := by omega
  have row := bounds _ _ row
  have column := bounds _ _ column
  have plane := bounds _ _ plane
  have fits : (double N).1 = 2 * N.1 ∧ (double N).2.1 = 2 * N.2.1 ∧ (double N).2.2 = 2 * N.2.2 :=
    ⟨rfl, rfl, rfl⟩
  rw [hr.apply (by omega) (by omega) (by omega), hr.apply (by omega) (by omega) (by omega),
    hr.apply (by omega) (by omega) (by omega), hr.cross (by omega) (by omega) (by omega),
    hr.cross (by omega) (by omega) (by omega), hr.cross (by omega) (by omega) (by omega),
    hr.corners (by omega) (by omega) (by omega), hr.corners (by omega) (by omega) (by omega),
    hr.corners (by omega) (by omega) (by omega), cast_pred (i := 2 * i - 1) (by omega),
    four_inv, eight_inv, sixteen_inv]
  simp only [toPoint, weigh_apply, around_apply, Nat.cast_add, Nat.cast_one, Nat.cast_mul,
    Nat.cast_ofNat, cast_pred (by omega : 1 ≤ 2 * i), cast_pred (by omega : 1 ≤ 2 * j),
    cast_pred (by omega : 1 ≤ 2 * k)]
  ring

/-! ### Interpolation -/

/-- The fine points to which the line of coarse points adds, for each of the fine lines. -/
def destinations (m : ℕ) (line : ℕ × ℕ) : List Place :=
  [(0, 0), (1, 0), (0, 1), (1, 1)].flatMap fun h => (List.range' 1 (m - 1)).flatMap fun i1 =>
    [(2 * i1 - 1, 2 * line.1 - 1 + h.1, 2 * line.2 - 1 + h.2),
      (2 * i1, 2 * line.1 - 1 + h.1, 2 * line.2 - 1 + h.2)]

theorem mem_coarseLines {line : ℕ × ℕ} : line ∈ coarseLines (points N) ↔
    (1 ≤ line.1 ∧ line.1 ≤ N.2.1 + 1) ∧ 1 ≤ line.2 ∧ line.2 ≤ N.2.2 + 1 := by
  obtain ⟨i2, i3⟩ := line
  simp only [coarseLines, points, List.mem_flatMap, List.mem_map, mem_range_le, Prod.mk.injEq]
  constructor
  · rintro ⟨_, plane, _, column, rfl, rfl⟩
    omega
  · rintro ⟨column, plane⟩
    exact ⟨i3, by omega, i2, by omega, rfl, rfl⟩

theorem interpLine_fst {mm : Place} {line : ℕ × ℕ} (from1 : 1 ≤ line.1) (from2 : 1 ≤ line.2)
    (work : ℕ → ℕ → F) (z : Grid F) :
    (interpLine mm work z line).map Prod.fst = destinations mm.1 line := by
  have second (i : ℕ) (h : 1 ≤ i) : 2 * i - 1 + 1 = 2 * i := by omega
  simp only [interpLine, destinations, List.map_append, List.map_flatMap, List.map_cons,
    List.map_nil, List.flatMap_cons, List.flatMap_nil, List.append_nil, add_zero,
    second _ from1, second _ from2, List.append_assoc]

theorem interpLine_value {z : Grid F} {Z : Point → F} (hz : Holds N z Z) {line : ℕ × ℕ}
    (column : 1 ≤ line.1 ∧ line.1 ≤ N.2.1 + 1) (plane : 1 ≤ line.2 ∧ line.2 ≤ N.2.2 + 1)
    {work : ℕ → ℕ → F} {v : Place × F} (mem : v ∈ interpLine (points N) work z line) :
    v.2 = interpolate Z (toPoint v.1) := by
  obtain ⟨i2, i3⟩ := line
  simp only at column plane
  simp only [interpLine, points, List.mem_append, List.mem_flatMap, List.mem_cons,
    List.not_mem_nil, or_false, mem_range_le] at mem
  have two : ((2 : ℕ) : ℤ) = 2 := rfl
  -- one case for each parity of the three indices
  obtain ((⟨i1, row, rfl | rfl⟩ | ⟨i1, row, rfl | rfl⟩) | ⟨i1, row, rfl | rfl⟩) |
    ⟨i1, row, rfl | rfl⟩ := mem
  all_goals
    simp (disch := omega) only [sums_apply, hz.apply, toPoint, interpolate, LinearMap.comp_apply,
      alongX, alongY, alongZ, LinearMap.coe_mk, AddHom.coe_mk, cast_pred, Nat.cast_mul, two,
      prolongLine_odd, prolongLine_even, Nat.cast_add, Nat.cast_one, four_inv, eight_inv]
    try ring

theorem mem_destinations {p : Place} (within : Within (double N) p) :
    p ∈ (coarseLines (points N)).flatMap (destinations (points N).1) := by
  obtain ⟨x, y, z⟩ := p
  obtain ⟨row, column, plane⟩ := within
  simp only [double] at row column plane
  refine List.mem_flatMap.mpr ⟨((y + 1) / 2, (z + 1) / 2),
    mem_coarseLines.mpr ⟨by simp only; omega, by simp only; omega⟩, ?_⟩
  refine List.mem_flatMap.mpr ⟨((y + 1) % 2, (z + 1) % 2), ?_, ?_⟩
  · obtain h2 | h2 := Nat.mod_two_eq_zero_or_one (y + 1) <;>
      obtain h3 | h3 := Nat.mod_two_eq_zero_or_one (z + 1) <;> simp [h2, h3]
  · refine List.mem_flatMap.mpr ⟨(x + 1) / 2, mem_range_le.mpr ?_, ?_⟩
    · simp only [points]
      omega
    · simp only [List.mem_cons, List.not_mem_nil, or_false, Prod.mk.injEq]
      omega

theorem nodup_destinations (m : ℕ) (line : ℕ × ℕ) : (destinations m line).Nodup := by
  refine OwnEntries.nodup_flatMap_of_key
    (fun p => (p.2.1 - (2 * line.1 - 1), p.2.2 - (2 * line.2 - 1)))
    (by decide) (fun h _ => ?_) fun h _ p mem => ?_
  · refine OwnEntries.nodup_flatMap_of_key (fun p => (p.1 + 1) / 2) List.nodup_range'
      (fun i1 mem => ?_)
      fun i1 mem p mem' => ?_
    · have := mem_range_le.mp mem
      simp only [List.nodup_cons, List.mem_singleton, Prod.mk.injEq, List.not_mem_nil,
        not_false_eq_true, List.nodup_nil, and_true]
      omega
    · have := mem_range_le.mp mem
      simp only [List.mem_cons, List.not_mem_nil, or_false] at mem'
      obtain rfl | rfl := mem' <;> simp only <;> omega
  · simp only [List.mem_flatMap, List.mem_cons, List.not_mem_nil, or_false] at mem
    obtain ⟨i1, -, rfl | rfl⟩ := mem <;> exact Prod.ext (by simp only; omega) (by simp only; omega)

theorem nodup_allDestinations :
    ((coarseLines (points N)).flatMap (destinations (points N).1)).Nodup := by
  refine OwnEntries.nodup_flatMap_of_key (fun p => ((p.2.1 + 1) / 2, (p.2.2 + 1) / 2)) ?_
    (fun line _ => nodup_destinations _ line) fun line mem p mem' => ?_
  · refine OwnEntries.nodup_flatMap_of_key Prod.snd List.nodup_range' (fun i3 _ => ?_)
      fun i3 _ line mem => ?_
    · exact List.Nodup.map (fun _ _ same => (Prod.mk.inj same).1) List.nodup_range'
    · obtain ⟨i2, -, rfl⟩ := List.mem_map.mp mem
      rfl
  · have bounds := mem_coarseLines.mp mem
    obtain ⟨h, half, mem'⟩ := List.mem_flatMap.mp mem'
    have small : h.1 ≤ 1 ∧ h.2 ≤ 1 := by
      simp only [List.mem_cons, List.not_mem_nil, or_false] at half
      obtain rfl | rfl | rfl | rfl := half <;> decide
    simp only [List.mem_flatMap, List.mem_cons, List.not_mem_nil, or_false] at mem'
    obtain ⟨i1, -, rfl | rfl⟩ := mem' <;> exact Prod.ext (by simp only; omega) (by simp only; omega)

theorem interp_stores {z : Grid F} {Z : Point → F} (work : Scratch F) (hz : Stores N z Z)
    (hu : Stores (double N) u U) :
    Stores (double N) (interp (points N) work z u) (U + interpolate Z) := by
  refine ⟨add_mem hu.periodic (prolong N ⟨Z, hz.periodic⟩).2, fun p within => ?_⟩
  have lines : interp (points N) work z u = OwnEntries.addTo
      ((coarseLines (points N)).flatMap fun line => interpLine (points N) (work line) z line) u :=
    (OwnEntries.addTo_flatMap ..).symm
  have values : ∀ v ∈ (coarseLines (points N)).flatMap fun line =>
      interpLine (points N) (work line) z line, v.2 = interpolate Z (toPoint v.1) := by
    intro v mem
    obtain ⟨line, mem, mem'⟩ := List.mem_flatMap.mp mem
    have bounds := mem_coarseLines.mp mem
    exact interpLine_value hz.holds bounds.1 bounds.2 mem'
  have entries : ((coarseLines (points N)).flatMap fun line =>
      interpLine (points N) (work line) z line).map Prod.fst =
      (coarseLines (points N)).flatMap (destinations (points N).1) := by
    rw [List.map_flatMap]
    refine List.flatMap_congr fun line mem => ?_
    have bounds := mem_coarseLines.mp mem
    exact interpLine_fst bounds.1.1 bounds.2.1 _ _
  rw [lines, OwnEntries.addTo_eq_sweep (g := fun p => interpolate Z (toPoint p)) values, entries,
    OwnEntries.sweep_apply nodup_allDestinations, if_pos (mem_destinations within),
    hu.holds p within]
  rfl

/-! ### Clearing -/

theorem zero3_stores (z : Grid F) : Stores N (zero3 (points N) z) 0 := by
  refine ⟨zero_mem _, fun p within => ?_⟩
  obtain ⟨row, column, plane⟩ := within
  have once : (all (points N)).Nodup := by
    refine OwnEntries.nodup_flatMap_of_key (fun p => p.2.2) List.nodup_range' (fun i3 _ => ?_)
      fun i3 _ p mem => ?_
    · refine OwnEntries.nodup_flatMap_of_key (fun p => p.2.1) List.nodup_range' (fun i2 _ => ?_)
        fun i2 _ p mem => ?_
      · exact List.Nodup.map (fun _ _ same => (Prod.mk.inj same).1) List.nodup_range'
      · obtain ⟨i1, -, rfl⟩ := List.mem_map.mp mem
        rfl
    · obtain ⟨i2, -, mem⟩ := List.mem_flatMap.mp mem
      obtain ⟨i1, -, rfl⟩ := List.mem_map.mp mem
      rfl
  have mem : p ∈ all (points N) := by
    refine List.mem_flatMap.mpr ⟨p.2.2, mem_range_le.mpr (by simp only [points]; omega), ?_⟩
    refine List.mem_flatMap.mpr ⟨p.2.1, mem_range_le.mpr (by simp only [points]; omega), ?_⟩
    exact List.mem_map.mpr ⟨p.1, mem_range_le.mpr (by simp only [points]; omega), rfl⟩
  rw [zero3, OwnEntries.sweep_apply once, if_pos mem]
  rfl

/-! ### The function of an array -/

def extend (N : Periods) (v : Grid F) : Point → F := fun p =>
  v (((p.1 - 2) % N.1).toNat + 2, ((p.2.1 - 2) % N.2.1).toNat + 2, ((p.2.2 - 2) % N.2.2).toNat + 2)

theorem extend_mem (N : Periods) (v : Grid F) : extend N v ∈ periodic F N := by
  intro x y z
  simp only [extend, add_sub_right_comm, Int.add_emod_right, and_self]

omit [Field F] in
theorem extend_inside (v : Grid F) {p : Place} (inside : Inside N p) :
    extend N v (toPoint p) = v p := by
  have back {i n : ℕ} (h : 2 ≤ i ∧ i ≤ n + 1) : (((i : ℤ) - 2) % n).toNat + 2 = i := by
    rw [Int.emod_eq_of_lt (by omega) (by omega)]
    omega
  obtain ⟨row, column, plane⟩ := inside
  simp only [extend, toPoint, back row, back column, back plane]

theorem comm3_extend (pos : Positive N) (u : Grid F) :
    Stores N (comm3 (points N) u) (extend N u) :=
  comm3_stores pos (extend_mem N u) fun _ inside => (extend_inside u inside).symm

def total (N : Periods) (u w : Grid F) : F :=
  ∑ i ∈ Finset.range N.1, ∑ j ∈ Finset.range N.2.1, ∑ k ∈ Finset.range N.2.2,
    u (i + 2, j + 2, k + 2) * w (i + 2, j + 2, k + 2)

theorem total_eq_gridSum {w : Grid F} {W : Point → F} (hu : Stores N u U) (hw : Stores N w W) :
    total N u w = gridSum N U W := by
  refine Finset.sum_congr rfl fun i mem1 => Finset.sum_congr rfl fun j mem2 =>
    Finset.sum_congr rfl fun k mem3 => ?_
  have bound1 := Finset.mem_range.mp mem1
  have bound2 := Finset.mem_range.mp mem2
  have bound3 := Finset.mem_range.mp mem3
  rw [hu.holds.apply (by omega) (by omega) (by omega),
    hw.holds.apply (by omega) (by omega) (by omega)]
  push_cast
  rfl

/-- Projection is half the transpose of interpolation, on arrays whose layers have been filled. -/
theorem rprj3_transposes_interp (pos : Positive N) (wr wi : Scratch F) (r s z u : Grid F) :
    total N (rprj3 (points (double N)) (points N) wr (comm3 (points (double N)) r) s)
        (comm3 (points N) z) =
      ((2 : ℕ) : F)⁻¹ * total (double N) (comm3 (points (double N)) r)
        (interp (points N) wi (comm3 (points N) z) (zero3 (points (double N)) u)) := by
  have posFine : Positive (double N) := by
    obtain ⟨pos1, pos2, pos3⟩ := pos
    exact ⟨by simp [double, pos1], by simp [double, pos2], by simp [double, pos3]⟩
  have hr := comm3_extend posFine r
  have hz := comm3_extend pos z
  have moved := interp_stores wi hz (zero3_stores u)
  rw [zero_add] at moved
  rw [total_eq_gridSum (rprj3_stores pos wr hr) hz, total_eq_gridSum hr moved,
    gridSum_weigh hr.periodic hz.periodic]

theorem rprj3_transposes_interp_flat :
    total (2, 1, 3) (rprj3 (points (double (2, 1, 3))) (points (2, 1, 3)) (fun _ _ _ => 0)
        (comm3 (points (double (2, 1, 3))) fun p => (p.1 : ℚ)) 0)
        (comm3 (points (2, 1, 3)) fun p => (p.2.2 : ℚ)) =
      ((2 : ℕ) : ℚ)⁻¹ * total (double (2, 1, 3))
        (comm3 (points (double (2, 1, 3))) fun p => (p.1 : ℚ))
        (interp (points (2, 1, 3)) (fun _ _ _ => 0) (comm3 (points (2, 1, 3)) fun p => (p.2.2 : ℚ))
          (zero3 (points (double (2, 1, 3))) 0)) :=
  rprj3_transposes_interp ⟨by decide, by decide, by decide⟩ _ _ _ _ _ _

end Baseliner.MgStencils
