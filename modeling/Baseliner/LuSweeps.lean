import Baseliner.PivotElimination
import Baseliner.PlaneSweeps
import Mathlib.Data.Matrix.Mul
import Mathlib.Tactic.Abel

/-! The two triangular sweeps of the symmetric successive over-relaxation benchmark, over an
arbitrary field. The lower sweep goes through the planes upwards and through a plane by rising
rows and columns, the upper sweep the other way. The vector versions go through a plane by its
diagonals. -/

namespace Baseliner.LuSweeps
open PivotElimination PlaneSweeps Matrix

variable {F : Type*} [Field F]

abbrev Vec (F : Type*) := Fin 5 → F
abbrev Block (F : Type*) := Matrix (Fin 5) (Fin 5) F

/-! ### The diagonal block -/

def invertDiagonal (d : Block F) (tv : Vec F) : Vec F :=
  let t := (Rows.mk d tv).triangulate
  t.backSubstitute t.rhs

def Pivots (d : Block F) : Prop :=
  ∀ p : Fin 5, ((Rows.mk d (0 : Vec F)).triangulateUpTo p).lhs p p ≠ 0

instance [DecidableEq F] (d : Block F) : Decidable (Pivots d) :=
  inferInstanceAs (Decidable (∀ _ : Fin 5, _))

theorem mulVec_eq_iff {d : Block F} (pivots : Pivots d) (x r : Vec F) :
    d *ᵥ x = r ↔ x = invertDiagonal d r := by
  have pivotal : (Rows.mk d r).Pivotal := (Rows.pivotal_iff_lhs _).mpr pivots
  rw [funext_iff]
  exact Rows.solves_iff_backSubstitute pivotal _ x

/-! ### Loops -/

structure Domain where
  nx : ℕ
  ny : ℕ
  nz : ℕ

namespace Domain

variable (g : Domain)

def planes : List ℕ := List.range' 2 (g.nz - 2)

/-- `i` runs inside `j`. -/
def cells : List (ℕ × ℕ) :=
  (List.range' 2 (g.ny - 2)).flatMap fun j => (List.range' 2 (g.nx - 2)).map fun i => (i, j)

def diagonal (l : ℕ) : List (ℕ × ℕ) :=
  let istp := max (l - (g.ny - 1)) 2
  let iendp := min (l - 2) (g.nx - 1)
  (List.range' istp (iendp + 1 - istp)).map fun i => (i, l - i)

def lst : ℕ := 2 + 2
def lend : ℕ := (g.nx - 1) + (g.ny - 1)

def diagonals : List ℕ := List.range' lst (g.lend + 1 - lst)

def inside (k : ℕ) (c : ℕ × ℕ) : Bool :=
  2 ≤ k ∧ k < g.nz ∧ 2 ≤ c.1 ∧ c.1 < g.nx ∧ 2 ≤ c.2 ∧ c.2 < g.ny

theorem mem_planes {k : ℕ} : k ∈ g.planes ↔ 2 ≤ k ∧ k < g.nz := by
  rw [planes, List.mem_range'_1]
  omega

theorem mem_cells {c : ℕ × ℕ} : c ∈ g.cells ↔ 2 ≤ c.1 ∧ c.1 < g.nx ∧ 2 ≤ c.2 ∧ c.2 < g.ny := by
  obtain ⟨i, j⟩ := c
  simp only [cells, List.mem_flatMap, List.mem_map, List.mem_range'_1, Prod.mk.injEq]
  constructor
  · rintro ⟨j, hj, i, hi, rfl, rfl⟩
    omega
  · exact fun h => ⟨j, by omega, i, by omega, rfl, rfl⟩

theorem inside_iff (k : ℕ) (c : ℕ × ℕ) : g.inside k c ↔ k ∈ g.planes ∧ c ∈ g.cells := by
  rw [mem_planes, mem_cells]
  simp only [inside, decide_eq_true_eq]
  omega

theorem cells_ordered :
    g.cells.Pairwise fun a b => a.2 < b.2 ∨ a.2 = b.2 ∧ a.1 < b.1 := by
  refine List.pairwise_flatMap.mpr ⟨fun j _ => ?_, ?_⟩
  · exact List.pairwise_map.mpr ((List.pairwise_lt_range' ..).imp fun less => .inr ⟨rfl, less⟩)
  · refine (List.pairwise_lt_range' ..).imp fun {j j'} less a mem b mem' => .inl ?_
    obtain ⟨i, -, rfl⟩ := List.mem_map.mp mem
    obtain ⟨i', -, rfl⟩ := List.mem_map.mp mem'
    exact less

theorem nodup_cells : g.cells.Nodup := g.cells_ordered.imp fun {a b} less same => by
  subst same
  omega

theorem mem_diagonal {l : ℕ} {c : ℕ × ℕ} (large : 4 ≤ l) :
    c ∈ g.diagonal l ↔ c ∈ g.cells ∧ c.1 + c.2 = l := by
  obtain ⟨i, j⟩ := c
  simp only [diagonal, mem_cells, List.mem_map, List.mem_range'_1, Prod.mk.injEq]
  constructor
  · rintro ⟨i, hi, rfl, rfl⟩
    omega
  · exact fun h => ⟨i, by omega, rfl, by omega⟩

theorem mem_diagonals {l : ℕ} : l ∈ g.diagonals ↔ 4 ≤ l ∧ l ≤ g.lend := by
  rw [diagonals, List.mem_range'_1, lst]
  omega

theorem nodup_diagonal (l : ℕ) : (g.diagonal l).Nodup :=
  (List.nodup_range' ..).map fun _ _ same => congrArg Prod.fst same

theorem perm_diagonals {ls : List ℕ} (perm : ls.Perm g.diagonals) :
    (ls.flatMap g.diagonal).Perm g.cells := by
  have large {l : ℕ} (mem : l ∈ ls) : 4 ≤ l := (g.mem_diagonals.mp (perm.mem_iff.mp mem)).1
  have once : ls.Nodup := perm.nodup_iff.mpr (List.nodup_range' ..)
  refine (List.perm_ext_iff_of_nodup ?_ g.nodup_cells).mpr fun c => ?_
  · refine List.nodup_flatMap.mpr ⟨fun l _ => g.nodup_diagonal l,
      (List.pairwise_iff_forall_sublist.mpr fun {l l'} sub c mem mem' => ?_)⟩
    have first := ((g.mem_diagonal (large (sub.subset (by simp)))).mp mem).2
    have second := ((g.mem_diagonal (large (sub.subset (by simp)))).mp mem').2
    have ne : l ≠ l' := List.pairwise_pair.mp (once.sublist sub)
    exact ne (first.symm.trans second)
  · rw [List.mem_flatMap]
    constructor
    · rintro ⟨l, mem, cell⟩
      exact ((g.mem_diagonal (large mem)).mp cell).1
    · intro cell
      have bounds := g.mem_cells.mp cell
      have mem : c.1 + c.2 ∈ ls := perm.mem_iff.mpr (g.mem_diagonals.mpr (by
        rw [lend]
        omega))
      exact ⟨c.1 + c.2, mem, (g.mem_diagonal (large mem)).mpr ⟨cell, rfl⟩⟩

end Domain

/-! ### The lower sweep -/

/-- The blocks of a cell: those towards the neighbours in the three directions, and the diagonal
block. -/
structure Coefs (F : Type*) where
  z : Block F
  y : Block F
  x : Block F
  d : Block F

variable (g : Domain) (omega : F) (jac : ℕ → ℕ × ℕ → Coefs F)

/-- `jacld` and `blts`: a cell takes up the plane below, and is then solved with the cells before
it in its column and in its row. -/
def lower : Sweep (ℕ × ℕ) (Coefs F) (Vec F) where
  inside := g.inside
  prev k := k - 1
  first c := (c.1, c.2 - 1)
  second c := (c.1 - 1, c.2)
  rank k c := k + (c.1 + c.2)
  coef := jac
  start a v below := (v - omega • a.z *ᵥ below, 0)
  finish a v _ south west := (invertDiagonal a.d (v - omega • (a.y *ᵥ south + a.x *ᵥ west)), 0)
  rank_prev k c h := by
    have bounds := (g.inside_iff k c).mp h
    rw [g.mem_planes] at bounds
    omega
  rank_first k c h := by
    have bounds := (g.inside_iff k c).mp h
    rw [g.mem_cells] at bounds
    dsimp only
    omega
  rank_second k c h := by
    have bounds := (g.inside_iff k c).mp h
    rw [g.mem_cells] at bounds
    dsimp only
    omega
  rank_inj k k' c _ _ same := by omega

/-- `jacu` and `buts`: the change of a cell is gathered in `tv` and then taken off. -/
def upper : Sweep (ℕ × ℕ) (Coefs F) (Vec F) where
  inside := g.inside
  prev k := k + 1
  first c := (c.1, c.2 + 1)
  second c := (c.1 + 1, c.2)
  rank k c := (g.nz - k) + ((g.nx - c.1) + (g.ny - c.2))
  coef := jac
  start a v above := (v, omega • a.z *ᵥ above)
  finish a v tv north east :=
    let t := invertDiagonal a.d (tv + omega • (a.y *ᵥ north + a.x *ᵥ east))
    (v - t, t)
  rank_prev k c h := by
    have bounds := (g.inside_iff k c).mp h
    rw [g.mem_planes] at bounds
    omega
  rank_first k c h := by
    have bounds := (g.inside_iff k c).mp h
    rw [g.mem_cells] at bounds
    dsimp only
    omega
  rank_second k c h := by
    have bounds := (g.inside_iff k c).mp h
    rw [g.mem_cells] at bounds
    dsimp only
    omega
  rank_inj k k' c h h' same := by
    have bounds := (g.inside_iff k c).mp h
    have bounds' := (g.inside_iff k' c).mp h'
    rw [g.mem_planes] at bounds bounds'
    omega

def lowerOrder : List (Visit (ℕ × ℕ)) := g.planes.flatMap (Sweep.planeVisits g.cells g.cells)

/-- The vector version of `blts` goes along the diagonals, from the first to the last. -/
def lowerOrderVec : List (Visit (ℕ × ℕ)) :=
  g.planes.flatMap (Sweep.planeVisits g.cells (g.diagonals.flatMap g.diagonal))

def upperOrder : List (Visit (ℕ × ℕ)) :=
  g.planes.reverse.flatMap (Sweep.planeVisits g.cells.reverse g.cells.reverse)

/-- The vector version of `buts` goes along the diagonals from the last to the first. -/
def upperOrderVec : List (Visit (ℕ × ℕ)) := g.planes.reverse.flatMap
  (Sweep.planeVisits g.cells.reverse (g.diagonals.reverse.flatMap g.diagonal))

theorem diagonals_ordered {ls : List ℕ} {R : ℕ → ℕ → Prop} (within : ∀ l ∈ ls, 4 ≤ l)
    (ordered : ls.Pairwise R) :
    (ls.flatMap g.diagonal).Pairwise fun a b =>
      a.1 + a.2 = b.1 + b.2 ∨ R (a.1 + a.2) (b.1 + b.2) := by
  refine List.pairwise_flatMap.mpr ⟨fun l mem => ?_, ?_⟩
  · refine List.pairwise_iff_forall_sublist.mpr fun {a b} sub => .inl ?_
    rw [((g.mem_diagonal (within l mem)).mp (sub.subset (by simp))).2,
      ((g.mem_diagonal (within l mem)).mp (sub.subset (by simp))).2]
  · refine ordered.imp_of_mem fun {l l'} mem mem' less a cell b cell' => .inr ?_
    rwa [((g.mem_diagonal (within l mem)).mp cell).2,
      ((g.mem_diagonal (within l' mem')).mp cell').2]

theorem planes_up : g.planes.Pairwise fun k k' =>
    ∀ c ∈ g.cells, (lower g omega jac).rank k c < (lower g omega jac).rank k' c :=
  (List.pairwise_lt_range' ..).imp fun less _ _ => Nat.add_lt_add_right less _

theorem planes_down : g.planes.reverse.Pairwise fun k k' =>
    ∀ c ∈ g.cells.reverse, (upper g omega jac).rank k c < (upper g omega jac).rank k' c := by
  refine List.pairwise_reverse.mpr ?_
  refine (List.pairwise_lt_range' ..).imp_of_mem fun {k k'} mem _ less c _ => ?_
  have bounds := g.mem_planes.mp mem
  exact Nat.add_lt_add_right (by omega) _

theorem complete_lower : (lower g omega jac).Complete (lowerOrder g) := by
  refine Sweep.complete_planes _ g.inside_iff g.nodup_cells (planes_up g omega jac)
    (List.nodup_range' ..) (List.Perm.refl _) ?_
  refine g.cells_ordered.imp_of_mem fun {a b} mem _ less => ⟨?_, ?_⟩ <;> rintro rfl <;>
    have bounds := g.mem_cells.mp mem <;> simp only [lower] at less <;> omega

theorem complete_lowerVec : (lower g omega jac).Complete (lowerOrderVec g) := by
  have perm := g.perm_diagonals (List.Perm.refl _)
  refine Sweep.complete_planes _ g.inside_iff g.nodup_cells (planes_up g omega jac)
    (List.nodup_range' ..) perm ?_
  refine (diagonals_ordered g (fun l mem => (g.mem_diagonals.mp mem).1)
    (List.pairwise_lt_range' ..)).imp_of_mem fun {a b} mem _ less => ⟨?_, ?_⟩ <;> rintro rfl <;>
    have bounds := g.mem_cells.mp (perm.mem_iff.mp mem) <;> simp only [lower] at less <;> omega

theorem complete_upper : (upper g omega jac).Complete (upperOrder g) := by
  refine Sweep.complete_planes _ (fun k c => ?_) (List.nodup_reverse.mpr g.nodup_cells)
    (planes_down g omega jac) (List.nodup_reverse.mpr (List.nodup_range' ..)) (List.Perm.refl _) ?_
  · rw [List.mem_reverse, List.mem_reverse]
    exact g.inside_iff k c
  · refine List.pairwise_reverse.mpr (g.cells_ordered.imp_of_mem fun {a b} mem _ less => ?_)
    refine ⟨?_, ?_⟩ <;> rintro rfl <;> simp only [upper] at less <;> omega

theorem complete_upperVec : (upper g omega jac).Complete (upperOrderVec g) := by
  have perm := (g.perm_diagonals (List.reverse_perm _)).trans (List.reverse_perm _).symm
  refine Sweep.complete_planes _ (fun k c => ?_) (List.nodup_reverse.mpr g.nodup_cells)
    (planes_down g omega jac) (List.nodup_reverse.mpr (List.nodup_range' ..)) perm ?_
  · rw [List.mem_reverse, List.mem_reverse]
    exact g.inside_iff k c
  · refine (diagonals_ordered g (R := fun l l' => l' < l)
      (fun l mem => (g.mem_diagonals.mp (List.mem_reverse.mp mem)).1)
      (List.pairwise_reverse.mpr (List.pairwise_lt_range' ..))).imp fun {a b} less => ?_
    refine ⟨?_, ?_⟩ <;> rintro rfl <;> simp only [upper] at less <;> omega

/-! ### What the sweeps solve -/

def lowerPart (x : ℕ → ℕ × ℕ → Vec F) (k : ℕ) (c : ℕ × ℕ) : Vec F :=
  (jac k c).d *ᵥ x k c + omega • ((jac k c).z *ᵥ x (k - 1) c +
    (jac k c).y *ᵥ x k (c.1, c.2 - 1) + (jac k c).x *ᵥ x k (c.1 - 1, c.2))

def upperPart (x : ℕ → ℕ × ℕ → Vec F) (k : ℕ) (c : ℕ × ℕ) : Vec F :=
  (jac k c).d *ᵥ x k c + omega • ((jac k c).z *ᵥ x (k + 1) c +
    (jac k c).y *ᵥ x k (c.1, c.2 + 1) + (jac k c).x *ᵥ x k (c.1 + 1, c.2))

def Satisfies (x v : ℕ → ℕ × ℕ → Vec F) (part : (ℕ → ℕ × ℕ → Vec F) → ℕ → ℕ × ℕ → Vec F)
    (right : ℕ → ℕ × ℕ → Vec F) : Prop :=
  (∀ k c, ¬g.inside k c → x k c = v k c) ∧ ∀ k c, g.inside k c → part x k c = right k c

variable {g omega jac}

theorem lower_combine {k : ℕ} {c : ℕ × ℕ} (pivots : Pivots (jac k c).d)
    (x v : ℕ → ℕ × ℕ → Vec F) :
    lowerPart omega jac x k c = v k c ↔
      x k c = (lower g omega jac).combine k c (v k c) (x (k - 1) c) (x k (c.1, c.2 - 1))
        (x k (c.1 - 1, c.2)) := by
  rw [Sweep.combine, lower, ← mulVec_eq_iff pivots, lowerPart, ← eq_sub_iff_add_eq]
  refine iff_of_eq (congrArg _ ?_)
  simp only [smul_add]
  abel

theorem upper_combine {k : ℕ} {c : ℕ × ℕ} (pivots : Pivots (jac k c).d)
    (x v : ℕ → ℕ × ℕ → Vec F) :
    upperPart omega jac x k c = (jac k c).d *ᵥ v k c ↔
      x k c = (upper g omega jac).combine k c (v k c) (x (k + 1) c) (x k (c.1, c.2 + 1))
        (x k (c.1 + 1, c.2)) := by
  have value : (upper g omega jac).combine k c (v k c) (x (k + 1) c) (x k (c.1, c.2 + 1))
      (x k (c.1 + 1, c.2)) = v k c - invertDiagonal (jac k c).d
        (omega • ((jac k c).z *ᵥ x (k + 1) c + (jac k c).y *ᵥ x k (c.1, c.2 + 1) +
          (jac k c).x *ᵥ x k (c.1 + 1, c.2))) := by
    rw [add_assoc, smul_add]
    rfl
  rw [value, eq_sub_iff_add_eq, ← eq_sub_iff_add_eq', eq_comm (b := v k c - x k c),
    ← mulVec_eq_iff pivots, mulVec_sub, sub_eq_iff_eq_add', eq_comm]
  rfl

theorem satisfies_lower_iff (pivots : ∀ k c, g.inside k c → Pivots (jac k c).d)
    (x v : ℕ → ℕ × ℕ → Vec F) :
    Satisfies g x v (lowerPart omega jac) v ↔ x = (lower g omega jac).result v := by
  constructor
  · rintro ⟨outside, inside⟩
    exact Sweep.result_unique _ outside fun k c h =>
      (lower_combine (pivots k c h) x v).mp (inside k c h)
  · rintro rfl
    exact ⟨fun k c => Sweep.result_outside (lower g omega jac) v, fun k c h =>
      (lower_combine (pivots k c h) _ v).mpr (Sweep.result_inside _ v h)⟩

theorem satisfies_upper_iff (pivots : ∀ k c, g.inside k c → Pivots (jac k c).d)
    (x v : ℕ → ℕ × ℕ → Vec F) :
    Satisfies g x v (upperPart omega jac) (fun k c => (jac k c).d *ᵥ v k c) ↔
      x = (upper g omega jac).result v := by
  constructor
  · rintro ⟨outside, inside⟩
    exact Sweep.result_unique _ outside fun k c h =>
      (upper_combine (pivots k c h) x v).mp (inside k c h)
  · rintro rfl
    exact ⟨fun k c => Sweep.result_outside (upper g omega jac) v, fun k c h =>
      (upper_combine (pivots k c h) _ v).mpr (Sweep.result_inside _ v h)⟩

/-- The relaxation of one time step: the lower sweep and then the upper one, which forms its
blocks in arrays of its own and gathers its changes in `tv`. -/
def relax (g : Domain) (omega : F) (jacld jacu : ℕ → ℕ × ℕ → Coefs F)
    (down up : List (Visit (ℕ × ℕ))) (m : Memory (ℕ × ℕ) (Coefs F) (Vec F))
    (blocks : ℕ × ℕ → Coefs F) (tv : ℕ × ℕ → Vec F) : ℕ → ℕ × ℕ → Vec F :=
  ((upper g omega jacu).run ⟨blocks, tv, ((lower g omega jacld).run m down).v⟩ up).v

theorem relax_eq {jacld jacu : ℕ → ℕ × ℕ → Coefs F} {down up : List (Visit (ℕ × ℕ))}
    (complete : (lower g omega jacld).Complete down) (complete' : (upper g omega jacu).Complete up)
    (m : Memory (ℕ × ℕ) (Coefs F) (Vec F)) (blocks : ℕ × ℕ → Coefs F) (tv : ℕ × ℕ → Vec F) :
    relax g omega jacld jacu down up m blocks tv =
      (upper g omega jacu).result ((lower g omega jacld).result m.v) := by
  rw [relax, Sweep.run_v _ complete', Sweep.run_v _ complete]

/-- The vector versions of the two sweeps change the grid as the plain ones do. -/
theorem relax_vec (g : Domain) (omega : F) (jacld jacu : ℕ → ℕ × ℕ → Coefs F)
    (m : Memory (ℕ × ℕ) (Coefs F) (Vec F)) (blocks : ℕ × ℕ → Coefs F) (tv : ℕ × ℕ → Vec F) :
    relax g omega jacld jacu (lowerOrderVec g) (upperOrderVec g) m blocks tv =
      relax g omega jacld jacu (lowerOrder g) (upperOrder g) m blocks tv := by
  rw [relax_eq (complete_lowerVec g omega jacld) (complete_upperVec g omega jacu),
    relax_eq (complete_lower g omega jacld) (complete_upper g omega jacu)]

/-- The relaxation leaves the only grid function whose upper triangular part is the diagonal
part of the only one whose lower triangular part is the right-hand side. -/
theorem relax_solves (g : Domain) (omega : F) (jacld jacu : ℕ → ℕ × ℕ → Coefs F)
    (pivotsLower : ∀ k c, g.inside k c → Pivots (jacld k c).d)
    (pivotsUpper : ∀ k c, g.inside k c → Pivots (jacu k c).d)
    (m : Memory (ℕ × ℕ) (Coefs F) (Vec F)) (blocks : ℕ × ℕ → Coefs F) (tv : ℕ × ℕ → Vec F)
    (x : ℕ → ℕ × ℕ → Vec F) :
    (∃ w, Satisfies g w m.v (lowerPart omega jacld) m.v ∧
      Satisfies g x w (upperPart omega jacu) fun k c => (jacu k c).d *ᵥ w k c) ↔
    x = relax g omega jacld jacu (lowerOrder g) (upperOrder g) m blocks tv := by
  rw [relax_eq (complete_lower g omega jacld) (complete_upper g omega jacu)]
  simp only [satisfies_lower_iff pivotsLower, satisfies_upper_iff pivotsUpper, exists_eq_left]

def sample : ℕ → ℕ × ℕ → Coefs ℚ := fun k c =>
  ⟨fun i _ => i.val + k, fun i j => i.val + j.val + c.1, fun _ j => j.val + c.2,
    fun i j => if i = j then 1 else 0⟩

theorem relax_solves_sample :
    let x := relax ⟨4, 4, 4⟩ (6/5) sample sample (lowerOrder ⟨4, 4, 4⟩) (upperOrder ⟨4, 4, 4⟩)
      ⟨sample 0, fun _ => 0, fun k _ _ => k⟩ (sample 0) fun _ => 0
    ∃ w, Satisfies ⟨4, 4, 4⟩ w (fun k _ _ => (k : ℚ)) (lowerPart (6/5) sample)
        (fun k _ _ => (k : ℚ)) ∧
      Satisfies ⟨4, 4, 4⟩ x w (upperPart (6/5) sample) fun k c => (sample k c).d *ᵥ w k c :=
  have pivots : Pivots (sample 0 0).d := by decide +kernel
  (relax_solves ⟨4, 4, 4⟩ (6/5) sample sample (fun _ _ _ => pivots) (fun _ _ _ => pivots)
    ⟨sample 0, fun _ => 0, fun k _ _ => k⟩ (sample 0) (fun _ => 0) _).mpr rfl

end Baseliner.LuSweeps
