import Mathlib.Algebra.Module.Torsion.Field
import Mathlib.Data.List.Range
import Mathlib.Tactic.Abel
import Mathlib.Tactic.Module

/-! Elimination on five diagonals without exchange. The rows are taken from the first to the
last; a row is divided by its pivot and taken off the two rows below it. Entries that have been
eliminated are not written. -/

namespace Baseliner.PentadiagonalElimination

variable {F M : Type*} [Field F] [AddCommGroup M] [Module F M]

/-- The five diagonals by row, from left to right, and the right-hand sides. -/
@[ext] structure Band (F M : Type*) where
  l1 : ℕ → F
  l2 : ℕ → F
  l3 : ℕ → F
  l4 : ℕ → F
  l5 : ℕ → F
  rhs : ℕ → M

namespace Band

/-- Row `i` is divided by its pivot. -/
def scale (i : ℕ) (s : Band F M) : Band F M :=
  let fac1 := 1 / s.l3 i
  { s with
    l4 := Function.update s.l4 i (fac1 * s.l4 i)
    l5 := Function.update s.l5 i (fac1 * s.l5 i)
    rhs := Function.update s.rhs i (fac1 • s.rhs i) }

/-- Row `i` is taken off the row below. -/
def clearNext (i : ℕ) (s : Band F M) : Band F M :=
  { s with
    l3 := Function.update s.l3 (i + 1) (s.l3 (i + 1) - s.l2 (i + 1) * s.l4 i)
    l4 := Function.update s.l4 (i + 1) (s.l4 (i + 1) - s.l2 (i + 1) * s.l5 i)
    rhs := Function.update s.rhs (i + 1) (s.rhs (i + 1) - s.l2 (i + 1) • s.rhs i) }

/-- Row `i` is taken off the second row below. -/
def clearSecond (i : ℕ) (s : Band F M) : Band F M :=
  { s with
    l2 := Function.update s.l2 (i + 2) (s.l2 (i + 2) - s.l1 (i + 2) * s.l4 i)
    l3 := Function.update s.l3 (i + 2) (s.l3 (i + 2) - s.l1 (i + 2) * s.l5 i)
    rhs := Function.update s.rhs (i + 2) (s.rhs (i + 2) - s.l1 (i + 2) • s.rhs i) }

def step (i : ℕ) (s : Band F M) : Band F M := ((s.scale i).clearNext i).clearSecond i

/-- The last two rows, `i` and `i + 1`; the last one is divided by its pivot at once. -/
def lastTwo (i : ℕ) (s : Band F M) : Band F M :=
  let t := (s.scale i).clearNext i
  { t with rhs := Function.update t.rhs (i + 1) ((1 / t.l3 (i + 1)) • t.rhs (i + 1)) }

def backLast (i : ℕ) (s : Band F M) : Band F M :=
  { s with rhs := Function.update s.rhs i (s.rhs i - s.l4 i • s.rhs (i + 1)) }

def backStep (i : ℕ) (s : Band F M) : Band F M :=
  { s with
    rhs := Function.update s.rhs i (s.rhs i - s.l4 i • s.rhs (i + 1) - s.l5 i • s.rhs (i + 2)) }

def forward (k : ℕ) (s : Band F M) : Band F M := (List.range k).foldl (fun s i => s.step i) s

/-- The system of `m + 2` rows is solved. -/
def solve (m : ℕ) (s : Band F M) : Band F M :=
  (List.range m).foldr (fun i s => s.backStep i) (((s.forward m).lastTwo m).backLast m)

def Pivots (m : ℕ) (s : Band F M) : Prop :=
  (∀ k ≤ m, (s.forward k).l3 k ≠ 0) ∧ (((s.forward m).scale m).clearNext m).l3 (m + 1) ≠ 0

instance [DecidableEq F] (m : ℕ) (s : Band F M) : Decidable (s.Pivots m) :=
  inferInstanceAs (Decidable (_ ∧ _))

/-- By how much a row is missed, the unknowns being counted from two places before the first. -/
def excess (s : Band F M) (y : ℕ → M) (t : ℕ) : M :=
  s.l1 t • y t + s.l2 t • y (t + 1) + s.l3 t • y (t + 2) + s.l4 t • y (t + 3) +
    s.l5 t • y (t + 4) - s.rhs t

/-- What the rows stand for when the first `k` have been eliminated. -/
def eliminated (k : ℕ) (s : Band F M) : Band F M :=
  { s with
    l1 := fun t => if t < k + 2 then 0 else s.l1 t
    l2 := fun t => if t < k + 1 then 0 else s.l2 t
    l3 := fun t => if t < k then 1 else s.l3 t }

/-- A system may be exchanged row by row, where one row justifies the others. -/
theorem rows_iff {n k : ℕ} {P Q : ℕ → Prop} (lt : k < n) (own : P k ↔ Q k)
    (others : ∀ t, t < n → t ≠ k → Q k → (P t ↔ Q t)) :
    (∀ t < n, P t) ↔ ∀ t < n, Q t := by
  constructor
  · intro rows t less
    by_cases same : t = k
    · exact same ▸ own.mp (rows k lt)
    · exact (others t less same (own.mp (rows k lt))).mp (rows t less)
  · intro rows t less
    by_cases same : t = k
    · exact same ▸ own.mpr (rows k lt)
    · exact (others t less same (rows k lt)).mpr (rows t less)

variable (k : ℕ) (s : Band F M) (y : ℕ → M)

theorem excess_own (nonzero : s.l3 k ≠ 0) :
    (((s.scale k).clearNext k).eliminated (k + 1)).excess y k =
      (1 / s.l3 k) • (s.eliminated k).excess y k := by
  have unit : (1 / s.l3 k) • s.l3 k • y (k + 2) = y (k + 2) := by
    rw [smul_smul, one_div_mul_cancel nonzero, one_smul]
  simp only [excess, eliminated, scale, clearNext, Function.update_self, Function.update_of_ne,
    ne_eq, Nat.left_eq_add, not_false_eq_true, one_ne_zero, lt_irrefl, if_false,
    if_pos (show k < k + 1 by omega), if_pos (show k < k + 2 by omega),
    if_pos (show k < k + 1 + 2 by omega), zero_smul, zero_add, one_smul, smul_sub, smul_add, unit,
    smul_smul]

theorem excess_next :
    (((s.scale k).clearNext k).eliminated (k + 1)).excess y (k + 1) =
      (s.eliminated k).excess y (k + 1) - s.l2 (k + 1) •
        (((s.scale k).clearNext k).eliminated (k + 1)).excess y k := by
  simp [excess, eliminated, scale, clearNext, Nat.add_assoc]
  module

theorem excess_clearSecond :
    (((s.clearSecond k).eliminated (k + 1)).excess y (k + 2)) =
      (s.eliminated k).excess y (k + 2) - s.l1 (k + 2) • (s.eliminated (k + 1)).excess y k := by
  simp [excess, eliminated, clearSecond, Nat.add_assoc]
  module

theorem excess_clearSecond_other {t : ℕ} (other : t ≠ k + 2) :
    ((s.clearSecond k).eliminated (k + 1)).excess y t = (s.eliminated (k + 1)).excess y t := by
  simp only [excess, eliminated, clearSecond, Function.update_of_ne other]

theorem excess_other (j : ℕ) {t : ℕ} (own : t ≠ k) (next : t ≠ k + 1) :
    (((s.scale k).clearNext k).eliminated j).excess y t = (s.eliminated j).excess y t := by
  simp only [excess, eliminated, scale, clearNext, Function.update_of_ne own,
    Function.update_of_ne next]

theorem excess_far {t : ℕ} (far : t < k ∨ k + 2 < t) :
    (s.eliminated (k + 1)).excess y t = (s.eliminated k).excess y t := by
  have first : t < k + 1 + 2 ↔ t < k + 2 := by omega
  have second : t < k + 1 + 1 ↔ t < k + 1 := by omega
  have third : t < k + 1 ↔ t < k := by omega
  simp only [excess, eliminated, first, second, third]

theorem step_solves {n : ℕ} (lt : k + 2 < n) (nonzero : s.l3 k ≠ 0) :
    (∀ t < n, (s.eliminated k).excess y t = 0) ↔
      ∀ t < n, ((s.step k).eliminated (k + 1)).excess y t = 0 := by
  have stepped {t : ℕ} (other : t ≠ k + 2) := excess_clearSecond_other k
    ((s.scale k).clearNext k) y other
  refine rows_iff (k := k) (by omega) ?_ fun t _ ne own => ?_
  · rw [step, stepped (by omega), excess_own k s y nonzero, smul_eq_zero_iff_right
      (one_div_ne_zero nonzero)]
  · rw [step, stepped (by omega)] at own
    by_cases next : t = k + 1
    · rw [next, step, stepped (by omega), excess_next, own, smul_zero, sub_zero]
    by_cases second : t = k + 2
    · rw [second, step, excess_clearSecond, own, smul_zero, sub_zero,
        excess_other k s y k (by omega) (by omega)]
    · rw [step, stepped second, excess_other k s y (k + 1) ne next, excess_far k s y (by omega)]

theorem lastTwo_solves (nonzero : s.l3 k ≠ 0) :
    (∀ t < k + 2, (s.eliminated k).excess y t = 0) ↔
      ∀ t < k + 2, (((s.scale k).clearNext k).eliminated (k + 1)).excess y t = 0 := by
  refine rows_iff (k := k) (by omega) ?_ fun t lt ne own => ?_
  · rw [excess_own k s y nonzero, smul_eq_zero_iff_right (one_div_ne_zero nonzero)]
  · by_cases next : t = k + 1
    · rw [next, excess_next, own, smul_zero, sub_zero]
    · rw [excess_other k s y (k + 1) ne next, excess_far k s y (by omega)]

theorem forward_succ : s.forward (k + 1) = (s.forward k).step k := by
  rw [forward, List.range_succ, List.foldl_append]
  rfl

theorem forward_solves {m : ℕ} {s : Band F M} (pivots : s.Pivots m) {k : ℕ} (le : k ≤ m) :
    (∀ t < m + 2, (s.eliminated 0).excess y t = 0) ↔
      ∀ t < m + 2, ((s.forward k).eliminated k).excess y t = 0 := by
  induction k with
  | zero => rfl
  | succ k ih =>
    rw [ih (by omega), forward_succ]
    exact step_solves k _ y (by omega) (pivots.1 k (by omega))

/-! ### Back substitution -/

theorem backStep_self (i : ℕ) (s : Band F M) :
    (s.backStep i).rhs i = s.rhs i - s.l4 i • s.rhs (i + 1) - s.l5 i • s.rhs (i + 2) :=
  Function.update_self ..

theorem backStep_ne {i j : ℕ} (ne : j ≠ i) (s : Band F M) : (s.backStep i).rhs j = s.rhs j :=
  Function.update_of_ne ne ..

theorem backSteps_spec {rows : List ℕ} (ascending : rows.Pairwise (· < ·)) (s : Band F M) :
    let t := rows.foldr (fun i s => s.backStep i) s
    (t.l4 = s.l4 ∧ t.l5 = s.l5) ∧ (∀ i ∉ rows, t.rhs i = s.rhs i) ∧
      ∀ i ∈ rows, t.rhs i = s.rhs i - s.l4 i • t.rhs (i + 1) - s.l5 i • t.rhs (i + 2) := by
  induction rows with
  | nil => exact ⟨⟨rfl, rfl⟩, fun _ _ => rfl, by simp⟩
  | cons r rows ih =>
    obtain ⟨first, ascending⟩ := List.pairwise_cons.mp ascending
    obtain ⟨⟨l4, l5⟩, others, known⟩ := ih ascending
    have fresh : r ∉ rows := fun mem => lt_irrefl r (first r mem)
    refine ⟨⟨l4, l5⟩, fun i out => ?_, fun i mem => ?_⟩
    · obtain ⟨ne, out⟩ := not_or.mp (mt List.mem_cons.mpr out)
      rw [List.foldr_cons, backStep_ne ne, others i out]
    · rw [List.foldr_cons]
      obtain rfl | later := List.mem_cons.mp mem
      · rw [backStep_self, backStep_ne (by omega), backStep_ne (by omega), l4, l5,
          others i fresh]
      · have after := first i later
        rw [backStep_ne after.ne', backStep_ne (by omega), backStep_ne (by omega), known i later]

/-- The unknowns of `n` rows counted from two places before the first, with zeros around them. -/
def padded (n : ℕ) (x : ℕ → M) (j : ℕ) : M := if 2 ≤ j ∧ j < n + 2 then x (j - 2) else 0

/-- The unknowns satisfy the first `n` rows. -/
def Solves (s : Band F M) (n : ℕ) (x : ℕ → M) : Prop := ∀ t < n,
  s.l1 t • padded n x t + s.l2 t • padded n x (t + 1) + s.l3 t • padded n x (t + 2) +
    s.l4 t • padded n x (t + 3) + s.l5 t • padded n x (t + 4) = s.rhs t

theorem padded_add_two {n t : ℕ} (x : ℕ → M) (lt : t < n) : padded n x (t + 2) = x t :=
  if_pos (by omega)

theorem padded_of_le {n j : ℕ} (x : ℕ → M) (le : n + 2 ≤ j) : padded n x j = 0 :=
  if_neg (by omega)

theorem solves_iff_excess (n : ℕ) (s : Band F M) (x : ℕ → M) :
    s.Solves n x ↔ ∀ t < n, (s.eliminated 0).excess (padded n x) t = 0 := by
  refine forall_congr' fun t => imp_congr_right fun _ => ?_
  have first : (if t < 0 + 2 then 0 else s.l1 t) • padded n x t = s.l1 t • padded n x t := by
    split_ifs with early
    · rw [padded, if_neg (by omega), smul_zero, smul_zero]
    · rfl
  have second : (if t < 0 + 1 then 0 else s.l2 t) • padded n x (t + 1) =
      s.l2 t • padded n x (t + 1) := by
    split_ifs with early
    · rw [padded, if_neg (by omega), smul_zero, smul_zero]
    · rfl
  rw [excess, sub_eq_zero]
  simp only [eliminated, first, second, Nat.not_lt_zero, if_false]

theorem padded_congr {n : ℕ} {x z : ℕ → M} {j : ℕ} (same : j - 2 < n → x (j - 2) = z (j - 2)) :
    padded n x j = padded n z j := by
  unfold padded
  split_ifs with inside
  · exact same (by omega)
  · rfl

def Known (m : ℕ) (s : Band F M) (x : ℕ → M) : Prop :=
  x (m + 1) = (1 / s.l3 (m + 1)) • s.rhs (m + 1) ∧ ∀ t ≤ m, x t =
    s.rhs t - s.l4 t • padded (m + 2) x (t + 3) - s.l5 t • padded (m + 2) x (t + 4)

theorem Known.unique {m : ℕ} {s : Band F M} {x z : ℕ → M} (hx : s.Known m x)
    (hz : s.Known m z) {t : ℕ} (lt : t < m + 2) : x t = z t := by
  have agree (d : ℕ) : ∀ t, t + d = m + 1 → x t = z t := by
    induction d using Nat.strong_induction_on with
    | h d later =>
      rintro t place
      obtain rfl | pos := Nat.eq_zero_or_pos d
      · obtain rfl : t = m + 1 := by omega
        rw [hx.1, hz.1]
      · have next : padded (m + 2) x (t + 3) = padded (m + 2) z (t + 3) :=
          padded_congr fun inside => later (d - 1) (by omega) _ (by omega)
        have second : padded (m + 2) x (t + 4) = padded (m + 2) z (t + 4) :=
          padded_congr fun inside => later (d - 2) (by omega) _ (by omega)
        rw [hx.2 t (by omega), hz.2 t (by omega), next, second]
  exact agree (m + 1 - t) t (by omega)

theorem Known.congr {m : ℕ} {s : Band F M} {x z : ℕ → M} (hz : s.Known m z)
    (same : ∀ t < m + 2, x t = z t) : s.Known m x := by
  have around (j : ℕ) : padded (m + 2) x j = padded (m + 2) z j := padded_congr (same _)
  refine ⟨(same _ (by omega)).trans hz.1, fun t le => ?_⟩
  rw [same t (by omega), around, around]
  exact hz.2 t le

theorem known_iff_excess {m : ℕ} {s : Band F M} (nonzero : s.l3 (m + 1) ≠ 0) (x : ℕ → M) :
    (∀ t < m + 2, (s.eliminated (m + 1)).excess (padded (m + 2) x) t = 0) ↔ s.Known m x := by
  have last : (s.eliminated (m + 1)).excess (padded (m + 2) x) (m + 1) =
      s.l3 (m + 1) • x (m + 1) - s.rhs (m + 1) := by
    simp only [excess, eliminated, lt_irrefl, if_false, if_pos (show m + 1 < m + 1 + 2 by omega),
      if_pos (show m + 1 < m + 1 + 1 by omega), zero_smul, zero_add,
      padded_add_two x (show m + 1 < m + 2 by omega), padded_of_le x (le_refl (m + 1 + 3)),
      padded_of_le x (show m + 2 + 2 ≤ m + 1 + 4 by omega), smul_zero, add_zero]
  have inner {t : ℕ} (le : t ≤ m) : (s.eliminated (m + 1)).excess (padded (m + 2) x) t =
      x t - (s.rhs t - s.l4 t • padded (m + 2) x (t + 3) - s.l5 t • padded (m + 2) x (t + 4)) := by
    simp only [excess, eliminated, if_pos (show t < m + 1 + 2 by omega),
      if_pos (show t < m + 1 + 1 by omega), if_pos (show t < m + 1 by omega), zero_smul, zero_add,
      one_smul, padded_add_two x (show t < m + 2 by omega)]
    abel
  have atEnd : s.l3 (m + 1) • x (m + 1) = s.rhs (m + 1) ↔
      x (m + 1) = (1 / s.l3 (m + 1)) • s.rhs (m + 1) := by
    rw [one_div, eq_inv_smul_iff₀ nonzero]
  constructor
  · refine fun rows => ⟨atEnd.mp (sub_eq_zero.mp ?_), fun t le => sub_eq_zero.mp ?_⟩
    · exact last ▸ rows (m + 1) (by omega)
    · exact inner le ▸ rows t (by omega)
  · rintro ⟨final, rows⟩ t lt
    obtain rfl | le : t = m + 1 ∨ t ≤ m := by omega
    · rw [last, atEnd.mpr final, sub_self]
    · rw [inner le, ← rows t le, sub_self]

theorem solve_known (m : ℕ) (s : Band F M) :
    (((s.forward m).scale m).clearNext m).Known m (s.solve m).rhs := by
  obtain ⟨-, others, known⟩ := backSteps_spec (List.pairwise_lt_range (n := m))
    (((s.forward m).lastTwo m).backLast m)
  have last : (s.solve m).rhs (m + 1) = ((s.forward m).lastTwo m).rhs (m + 1) :=
    (others (m + 1) (by simp)).trans (Function.update_of_ne (by omega) ..)
  have first : (s.solve m).rhs m = ((s.forward m).lastTwo m).rhs m -
      ((s.forward m).lastTwo m).l4 m • ((s.forward m).lastTwo m).rhs (m + 1) :=
    (others m (by simp)).trans (Function.update_self ..)
  refine ⟨last.trans (Function.update_self ..), fun t le => ?_⟩
  obtain rfl | lt := eq_or_lt_of_le le
  · rw [padded_add_two _ (by omega), padded_of_le _ le_rfl, smul_zero, sub_zero, last, first]
    exact congrArg (· - _) (Function.update_of_ne (by omega) ..)
  · rw [padded_add_two _ (by omega), padded_add_two _ (by omega)]
    have right : (((s.forward m).lastTwo m).backLast m).rhs t =
        (((s.forward m).scale m).clearNext m).rhs t :=
      (Function.update_of_ne lt.ne ..).trans (Function.update_of_ne (by omega) ..)
    exact (known t (List.mem_range.mpr lt)).trans (congrArg (· - _ - _) right)

theorem solve_spec {m : ℕ} {s : Band F M} (pivots : s.Pivots m) (x : ℕ → M) :
    s.Solves (m + 2) x ↔ ∀ t < m + 2, x t = (s.solve m).rhs t := by
  rw [solves_iff_excess, forward_solves _ pivots le_rfl,
    lastTwo_solves _ _ _ (pivots.1 m le_rfl), known_iff_excess pivots.2]
  exact ⟨fun holds t lt => holds.unique (solve_known m s) lt, (solve_known m s).congr⟩

end Band
end Baseliner.PentadiagonalElimination
