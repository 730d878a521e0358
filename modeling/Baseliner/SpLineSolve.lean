import Baseliner.NpbLines
import Baseliner.OwnEntries
import Baseliner.PentadiagonalElimination
import Mathlib.Algebra.Module.Pi
import Mathlib.Data.Fin.VecNotation

/-! The line solver of the pentadiagonal benchmark, over an arbitrary field. Along a line the
five components decouple into one system with three right-hand sides and two systems with one,
for the three characteristic speeds; a system couples a cell with two neighbours on each side. -/

namespace Baseliner.SpLineSolve
open PentadiagonalElimination NpbLines

variable {F : Type*} [Field F]

abbrev Vec (F : Type*) := Fin 5 → F

/-! ### The rows -/

/-- What the rows of a line are made of: `dttx1`, `dttx2` and `dtdssp` of the direction, the
velocity `cv`, the viscous weight `rhon` and the speed of sound at every cell. -/
structure Terms (F : Type*) where
  dtt1 : F
  dtt2 : F
  dtdssp : F
  cv : ℕ → F
  rhon : ℕ → F
  speed : ℕ → F

namespace Terms

/-- The fourth-order dissipation that is added to row `i` of `n`: to the first two rows, to
those between, and to the last two. -/
def dissipation (d : Terms F) (n i : ℕ) : Vec F :=
  let comz1 := d.dtdssp
  let comz4 := 4 * d.dtdssp
  let comz5 := 5 * d.dtdssp
  let comz6 := 6 * d.dtdssp
  (if i = 1 then ![0, 0, comz5, -comz4, comz1] else 0) +
    (if i = 2 then ![0, -comz4, comz6, -comz4, comz1] else 0) +
    (if 3 ≤ i ∧ i + 4 ≤ n then ![comz1, -comz4, comz6, -comz4, comz1] else 0) +
    (if i + 3 = n then ![comz1, -comz4, comz6, -comz4, 0] else 0) +
    if i + 2 = n then ![comz1, -comz4, comz5, 0, 0] else 0

/-- The row of a cell on the boundary, as `lhsinit` leaves it. -/
def unitRow : Vec F := ![0, 0, 1, 0, 0]

def lhs (d : Terms F) (n i : ℕ) : Vec F :=
  if i = 0 ∨ i + 1 = n then unitRow else
    ![0, -d.dtt2 * d.cv (i - 1) - d.dtt1 * d.rhon (i - 1), 1 + (2 : ℕ) * d.dtt1 * d.rhon i,
      d.dtt2 * d.cv (i + 1) - d.dtt1 * d.rhon (i + 1), 0] + d.dissipation n i

def lhsp (d : Terms F) (n i : ℕ) : Vec F :=
  if i = 0 ∨ i + 1 = n then unitRow else
    d.lhs n i + ![0, -d.dtt2 * d.speed (i - 1), 0, d.dtt2 * d.speed (i + 1), 0]

def lhsm (d : Terms F) (n i : ℕ) : Vec F :=
  if i = 0 ∨ i + 1 = n then unitRow else
    d.lhs n i + ![0, d.dtt2 * d.speed (i - 1), 0, -d.dtt2 * d.speed (i + 1), 0]

end Terms

def band {M : Type*} (rows : ℕ → Vec F) (rhs : ℕ → M) : Band F M :=
  ⟨(rows · 0), (rows · 1), (rows · 2), (rows · 3), (rows · 4), rhs⟩

namespace Terms

variable {M : Type*} [AddCommGroup M] [Module F M]

/-- The fourth difference, closed at both ends with the cells inside the boundary. -/
def fourth (F : Type*) [Field F] [Module F M] (n : ℕ) (x : ℕ → M) (i : ℕ) : M :=
  if i = 1 then (5 : F) • x i - (4 : F) • x (i + 1) + x (i + 2)
  else if i = 2 then -(4 : F) • x (i - 1) + (6 : F) • x i - (4 : F) • x (i + 1) + x (i + 2)
  else if i + 3 = n then x (i - 2) - (4 : F) • x (i - 1) + (6 : F) • x i - (4 : F) • x (i + 1)
  else if i + 2 = n then x (i - 2) - (4 : F) • x (i - 1) + (5 : F) • x i
  else x (i - 2) - (4 : F) • x (i - 1) + (6 : F) • x i - (4 : F) • x (i + 1) + x (i + 2)

/-- The implicit operator of a component that travels with speed `eigen`: the identity on the
boundary, and inside it one plus the central difference of the flux, less the second difference
of the viscous term, plus the fourth difference. -/
def operator (d : Terms F) (n : ℕ) (eigen : ℕ → F) (x : ℕ → M) (i : ℕ) : M :=
  if i = 0 ∨ i + 1 = n then x i else
    x i + d.dtt2 • (eigen (i + 1) • x (i + 1) - eigen (i - 1) • x (i - 1)) -
      d.dtt1 • (d.rhon (i + 1) • x (i + 1) - ((2 : ℕ) : F) • d.rhon i • x i +
        d.rhon (i - 1) • x (i - 1)) + d.dtdssp • fourth F n x i

/-- The rows of a component that travels with speed `eigen`. -/
def wave (d : Terms F) (n : ℕ) (eigen : ℕ → F) (i : ℕ) : Vec F :=
  if i = 0 ∨ i + 1 = n then unitRow else
    ![0, -d.dtt2 * eigen (i - 1) - d.dtt1 * d.rhon (i - 1), 1 + (2 : ℕ) * d.dtt1 * d.rhon i,
      d.dtt2 * eigen (i + 1) - d.dtt1 * d.rhon (i + 1), 0] + d.dissipation n i

theorem lhsp_eq_wave (d : Terms F) (n : ℕ) :
    d.lhsp n = d.wave n fun i => d.cv i + d.speed i := by
  funext i
  unfold lhsp wave lhs
  split_ifs
  · rfl
  · rw [add_right_comm]
    congr 1
    ext j
    fin_cases j <;> simp <;> ring

theorem lhsm_eq_wave (d : Terms F) (n : ℕ) :
    d.lhsm n = d.wave n fun i => d.cv i - d.speed i := by
  funext i
  unfold lhsm wave lhs
  split_ifs
  · rfl
  · rw [add_right_comm]
    congr 1
    ext j
    fin_cases j <;> simp <;> ring

theorem dissipation_sum (d : Terms F) {n t : ℕ} (large : 6 ≤ n) (low : 1 ≤ t) (high : t + 2 ≤ n)
    (x : ℕ → M) :
    d.dissipation n t 0 • Band.padded n x t + d.dissipation n t 1 • x (t - 1) +
      d.dissipation n t 2 • x t + d.dissipation n t 3 • x (t + 1) +
      d.dissipation n t 4 • Band.padded n x (t + 4) = d.dtdssp • fourth F n x t := by
  have second (inside : 2 ≤ t) : Band.padded n x t = x (t - 2) := by
    rw [← Band.padded_add_two x (show t - 2 < n by omega), Nat.sub_add_cancel inside]
  have beyond (inside : t + 2 < n) : Band.padded n x (t + 4) = x (t + 2) :=
    Band.padded_add_two x inside
  by_cases h1 : t = 1
  · have row : d.dissipation n t =
        ![0, 0, 5 * d.dtdssp, -(4 * d.dtdssp), d.dtdssp] := by
      simp [dissipation, h1, show ¬1 + 3 = n by omega, show ¬1 + 2 = n by omega]
    rw [row, fourth, if_pos h1, beyond (by omega)]
    simp
    module
  by_cases h2 : t = 2
  · have row : d.dissipation n t =
        ![0, -(4 * d.dtdssp), 6 * d.dtdssp, -(4 * d.dtdssp), d.dtdssp] := by
      simp [dissipation, h2, show ¬2 + 3 = n by omega, show ¬2 + 2 = n by omega]
    rw [row, fourth, if_neg h1, if_pos h2, beyond (by omega)]
    simp
    module
  by_cases h3 : t + 3 = n
  · have row : d.dissipation n t =
        ![d.dtdssp, -(4 * d.dtdssp), 6 * d.dtdssp, -(4 * d.dtdssp), 0] := by
      simp [dissipation, h1, h2, h3, show ¬t + 4 ≤ n by omega, show ¬t + 2 = n by omega]
    rw [row, fourth, if_neg h1, if_neg h2, if_pos h3, second (by omega)]
    simp
    module
  by_cases h4 : t + 2 = n
  · have row : d.dissipation n t = ![d.dtdssp, -(4 * d.dtdssp), 5 * d.dtdssp, 0, 0] := by
      simp [dissipation, h1, h2, h3, h4, show ¬t + 4 ≤ n by omega]
    rw [row, fourth, if_neg h1, if_neg h2, if_neg h3, if_pos h4, second (by omega)]
    simp
    module
  · have row : d.dissipation n t =
        ![d.dtdssp, -(4 * d.dtdssp), 6 * d.dtdssp, -(4 * d.dtdssp), d.dtdssp] := by
      simp [dissipation, h1, h2, h3, h4, show 3 ≤ t by omega, show t + 4 ≤ n by omega]
    rw [row, fourth, if_neg h1, if_neg h2, if_neg h3, if_neg h4, second (by omega),
      beyond (by omega)]
    simp
    module

theorem wave_solves (d : Terms F) {n : ℕ} (large : 6 ≤ n) (eigen : ℕ → F) (rhs x : ℕ → M) :
    (band (d.wave n eigen) rhs).Solves n x ↔ ∀ t < n, d.operator n eigen x t = rhs t := by
  refine forall_congr' fun t => imp_congr_right fun lt => ?_
  refine iff_of_eq (congrArg (· = rhs t) ?_)
  simp only [band, Band.padded_add_two x lt]
  by_cases ends : t = 0 ∨ t + 1 = n
  · simp only [wave, operator, if_pos ends, unitRow]
    simp
  obtain ⟨low, high⟩ : 1 ≤ t ∧ t + 2 ≤ n := by omega
  have left : Band.padded n x (t + 1) = x (t - 1) := by
    rw [← Band.padded_add_two x (show t - 1 < n by omega)]
    congr 1
    omega
  have right : Band.padded n x (t + 3) = x (t + 1) :=
    Band.padded_add_two x (show t + 1 < n by omega)
  simp only [wave, operator, if_neg ends, left, right, ← d.dissipation_sum large low high x]
  simp
  module

end Terms

/-! ### One line -/

/-- The three systems of a line: the first for components 1 to 3, the others for 4 and 5. -/
structure Line (F : Type*) where
  lhs : Band F (Fin 3 → F)
  lhsp : Band F F
  lhsm : Band F F

namespace Line

def stepFirst (i : ℕ) (s : Line F) : Line F := { s with lhs := s.lhs.step i }
def lastFirst (m : ℕ) (s : Line F) : Line F := { s with lhs := s.lhs.lastTwo m }

def stepOthers (i : ℕ) (s : Line F) : Line F :=
  { s with lhsp := s.lhsp.step i, lhsm := s.lhsm.step i }

def lastOthers (m : ℕ) (s : Line F) : Line F :=
  { s with lhsp := s.lhsp.lastTwo m, lhsm := s.lhsm.lastTwo m }

def backLast (m : ℕ) (s : Line F) : Line F :=
  ⟨s.lhs.backLast m, s.lhsp.backLast m, s.lhsm.backLast m⟩

def backStep (i : ℕ) (s : Line F) : Line F :=
  ⟨s.lhs.backStep i, s.lhsp.backStep i, s.lhsm.backStep i⟩

def values (s : Line F) (p : ℕ) : Vec F :=
  Fin.append (s.lhs.rhs p) ![s.lhsp.rhs p, s.lhsm.rhs p]

omit [Field F] in
theorem values_eq (s : Line F) (p : ℕ) : s.values p =
    ![s.lhs.rhs p 0, s.lhs.rhs p 1, s.lhs.rhs p 2, s.lhsp.rhs p, s.lhsm.rhs p] := by
  ext c
  fin_cases c <;> rfl

/-- The loops over the lines of a plane, for lines of `m + 2` cells. In the direction of `x` the
cells of a line are taken in an inner loop, in the others in an outer one. -/
def stages (m : ℕ) : Axis → List (Line F → Line F)
  | .x => [fun s => (List.range m).foldl (fun s i => s.stepFirst i) s, lastFirst m,
      fun s => (List.range m).foldl (fun s i => s.stepOthers i) s, lastOthers m, backLast m,
      fun s => (List.range m).foldr (fun i s => s.backStep i) s]
  | _ => (List.range m).map stepFirst ++ lastFirst m :: (List.range m).map stepOthers ++
      lastOthers m :: backLast m :: (List.range m).reverse.map backStep

def solve (m : ℕ) (s : Line F) : Line F := ⟨s.lhs.solve m, s.lhsp.solve m, s.lhsm.solve m⟩

theorem foldl_stepFirst (rows : List ℕ) (s : Line F) :
    rows.foldl (fun s i => s.stepFirst i) s =
      { s with lhs := rows.foldl (fun s i => s.step i) s.lhs } := by
  induction rows generalizing s with
  | nil => rfl
  | cons i rows ih => exact ih _

theorem foldl_stepOthers (rows : List ℕ) (s : Line F) :
    rows.foldl (fun s i => s.stepOthers i) s =
      { s with
        lhsp := rows.foldl (fun s i => s.step i) s.lhsp
        lhsm := rows.foldl (fun s i => s.step i) s.lhsm } := by
  induction rows generalizing s with
  | nil => rfl
  | cons i rows ih => exact ih _

theorem foldr_backStep (rows : List ℕ) (s : Line F) :
    rows.foldr (fun i s => s.backStep i) s =
      ⟨rows.foldr (fun i s => s.backStep i) s.lhs, rows.foldr (fun i s => s.backStep i) s.lhsp,
        rows.foldr (fun i s => s.backStep i) s.lhsm⟩ := by
  induction rows with
  | nil => rfl
  | cons i rows ih => rw [List.foldr_cons, ih]; rfl

theorem stages_solve (m : ℕ) (axis : Axis) (s : Line F) :
    (stages m axis).foldl (fun s stage => stage s) s = s.solve m := by
  have inner : (stages m .x).foldl (fun s stage => stage s) s = s.solve m := by
    simp only [stages, List.foldl_cons, List.foldl_nil, foldl_stepFirst, foldl_stepOthers,
      foldr_backStep]
    rfl
  have outer : (stages m .y).foldl (fun s stage => stage s) s = s.solve m := by
    rw [← inner]
    simp only [stages, List.foldl_append, List.foldl_cons, List.foldl_map, List.foldl_reverse,
      List.foldl_nil]
  cases axis
  · exact inner
  · exact outer
  · exact outer

end Line

/-! ### The grid -/

abbrev Grid (F : Type*) := ℕ × ℕ × ℕ → Vec F

def Terms.line (d : Terms F) (n : ℕ) (rhs : ℕ → Vec F) : Line F where
  lhs := band (d.lhs n) fun p => ![rhs p 0, rhs p 1, rhs p 2]
  lhsp := band (d.lhsp n) (rhs · 3)
  lhsm := band (d.lhsm n) (rhs · 4)

def Line.Pivots (m : ℕ) (s : Line F) : Prop :=
  s.lhs.Pivots m ∧ s.lhsp.Pivots m ∧ s.lhsm.Pivots m

instance [DecidableEq F] (m : ℕ) (s : Line F) : Decidable (s.Pivots m) :=
  inferInstanceAs (Decidable (_ ∧ _))

def Terms.eigenvalue (d : Terms F) : Fin 5 → ℕ → F :=
  ![d.cv, d.cv, d.cv, fun i => d.cv i + d.speed i, fun i => d.cv i - d.speed i]

def planeSolve (axis : Axis) (n : ℕ) (terms : ℕ × ℕ → Terms F) (plane : List (ℕ × ℕ))
    (rhs : ℕ × ℕ → ℕ → Vec F) : ℕ × ℕ → ℕ → Vec F := fun l =>
  ((Line.stages (n - 2) axis).foldl
    (fun st stage => OwnEntries.sweep plane (fun _ => stage) st)
    (fun l => (terms l).line n (rhs l)) l).values

/-- `x_solve`, `y_solve`, `z_solve` before the block-diagonal inversion: plane after plane. -/
def lineSolve (axis : Axis) (gridPoints : ℕ × ℕ × ℕ) (terms : ℕ × ℕ → Terms F)
    (g : Grid F) : Grid F := fun c =>
  (axis.planes gridPoints).foldl
    (fun rhs plane => planeSolve axis (axis.size gridPoints + 1) terms plane rhs)
    (fun l p => g (axis.cell (l, p))) (axis.place c).1 (axis.place c).2

theorem line_values (d : Terms F) (n : ℕ) (rhs : ℕ → Vec F) : (d.line n rhs).values = rhs := by
  funext p c
  fin_cases c <;> rfl

theorem planeSolve_eq (axis : Axis) (n : ℕ) (terms : ℕ × ℕ → Terms F)
    {plane : List (ℕ × ℕ)} (once : plane.Nodup) (rhs : ℕ × ℕ → ℕ → Vec F) :
    planeSolve axis n terms plane rhs =
      OwnEntries.sweep plane (fun l rhs => (((terms l).line n rhs).solve (n - 2)).values)
        rhs := by
  funext l
  have loops := OwnEntries.sweeps_apply once
    ((Line.stages (n - 2) axis).map fun stage _ => stage) (fun l => (terms l).line n (rhs l)) l
  rw [List.foldl_map, List.foldl_map, Line.stages_solve] at loops
  rw [planeSolve, loops, OwnEntries.sweep_apply once]
  split_ifs
  · rfl
  · exact line_values ..

theorem lineSolve_apply (axis : Axis) (gridPoints : ℕ × ℕ × ℕ) (terms : ℕ × ℕ → Terms F)
    (g : Grid F) (l : ℕ × ℕ) (p : ℕ) :
    lineSolve axis gridPoints terms g (axis.cell (l, p)) =
      if l ∈ (axis.planes gridPoints).flatten then
        (((terms l).line (axis.size gridPoints + 1) fun p => g (axis.cell (l, p))).solve
          (axis.size gridPoints - 1)).values p
      else g (axis.cell (l, p)) := by
  have once (plane : List (ℕ × ℕ)) (mem : plane ∈ axis.planes gridPoints) : plane.Nodup :=
    (List.nodup_flatten.mp (axis.nodup_planes gridPoints)).1 plane mem
  rw [lineSolve, Axis.place_cell, List.foldl_ext _ _ _ fun rhs plane mem =>
    planeSolve_eq axis (axis.size gridPoints + 1) terms (once plane mem) rhs,
    ← OwnEntries.sweep_flatten, OwnEntries.sweep_apply (axis.nodup_planes gridPoints)]
  split_ifs <;> rfl

theorem operator_apply (d : Terms F) (n : ℕ) (eigen : ℕ → F) (x : ℕ → Fin 3 → F) (i : ℕ)
    (c : Fin 3) : d.operator n eigen x i c = d.operator n eigen (fun q => x q c) i := by
  unfold Terms.operator Terms.fourth
  split_ifs <;> rfl

theorem line_solves (d : Terms F) {n : ℕ} (large : 6 ≤ n) (rhs x : ℕ → Vec F) :
    ((d.line n rhs).lhs.Solves n (fun p => ![x p 0, x p 1, x p 2]) ∧
      (d.line n rhs).lhsp.Solves n (x · 3) ∧ (d.line n rhs).lhsm.Solves n (x · 4)) ↔
      ∀ p < n, ∀ c, d.operator n (d.eigenvalue c) (fun q => x q c) p = rhs p c := by
  have first : (d.line n rhs).lhs = band (d.wave n d.cv) fun p => ![rhs p 0, rhs p 1, rhs p 2] :=
    rfl
  rw [first, Terms.line, d.lhsp_eq_wave, d.lhsm_eq_wave, d.wave_solves large,
    d.wave_solves large, d.wave_solves large]
  simp only [← forall_and]
  refine forall_congr' fun p => ?_
  simp only [Fin.forall_fin_succ, funext_iff, operator_apply]
  refine imp_congr_right fun _ => ?_
  simp [Terms.eigenvalue, and_assoc]

/-- On every interior line the solver inverts, component by component, the implicit operator for
the component's characteristic speed; the other lines keep their values. -/
theorem waveLines_inverted (axis : Axis) (gridPoints : ℕ × ℕ × ℕ) (terms : ℕ × ℕ → Terms F)
    (g : Grid F) (large : 6 ≤ axis.size gridPoints + 1)
    (pivots : ∀ l ∈ (axis.planes gridPoints).flatten,
      ((terms l).line (axis.size gridPoints + 1) fun p => g (axis.cell (l, p))).Pivots
        (axis.size gridPoints - 1)) :
    (∀ l ∈ (axis.planes gridPoints).flatten, ∀ x : ℕ → Vec F,
      (∀ p ≤ axis.size gridPoints, ∀ c, (terms l).operator (axis.size gridPoints + 1)
        ((terms l).eigenvalue c) (fun q => x q c) p = g (axis.cell (l, p)) c) ↔
      ∀ p ≤ axis.size gridPoints,
        x p = lineSolve axis gridPoints terms g (axis.cell (l, p))) ∧
    ∀ c, (axis.place c).1 ∉ (axis.planes gridPoints).flatten →
      lineSolve axis gridPoints terms g c = g c := by
  refine ⟨fun l mem x => ?_, fun c out => ?_⟩
  · obtain ⟨m, size⟩ : ∃ m, axis.size gridPoints = m + 1 :=
      ⟨_, (Nat.sub_add_cancel (by omega)).symm⟩
    obtain ⟨h1, h2, h3⟩ := pivots l mem
    simp only [lineSolve_apply, if_pos mem, ← Nat.lt_succ_iff]
    rw [← line_solves _ large]
    rw [size, Nat.add_sub_cancel] at h1 h2 h3 ⊢
    rw [Band.solve_spec h1, Band.solve_spec h2, Band.solve_spec h3]
    simp only [← forall_and]
    refine forall_congr' fun p => imp_congr_right fun _ => ?_
    simp only [Line.values_eq, Line.solve, funext_iff, Fin.forall_fin_succ]
    simp [and_assoc]
  · have own := lineSolve_apply axis gridPoints terms g (axis.place c).1 (axis.place c).2
    rwa [if_neg out, Prod.mk.eta, Axis.cell_place] at own

def sample : Terms ℚ := ⟨1, 1, 1, fun _ => 1, fun _ => 1, fun _ => 1⟩

theorem waveLines_inverted_sample : sample.operator 6 (sample.eigenvalue 3) (fun q =>
    lineSolve .y (3, 6, 3) (fun _ => sample) (fun c _ => c.2.1) (1, q, 1) 3) 2 = (2 : ℕ) :=
  (((waveLines_inverted .y (3, 6, 3) (fun _ => sample) (fun c _ => c.2.1) (by decide)
    (by decide +kernel)).1 (1, 1) (by decide) _).mpr fun _ _ => rfl) 2 (by decide) 3

end Baseliner.SpLineSolve
