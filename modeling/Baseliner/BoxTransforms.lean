import Baseliner.StockhamStages

/-! Discrete Fourier transforms of functions on a box, one direction after another. -/

namespace Baseliner.BoxTransforms
open StockhamStages

abbrev Place := ℕ × ℕ × ℕ

inductive Axis
  | x
  | y
  | z

def Axis.get : Axis → Place → ℕ
  | x, p => p.1
  | y, p => p.2.1
  | z, p => p.2.2

def Axis.set : Axis → ℕ → Place → Place
  | x, i, p => (i, p.2.1, p.2.2)
  | y, i, p => (p.1, i, p.2.2)
  | z, i, p => (p.1, p.2.1, i)

@[simp] theorem Axis.get_set (axis : Axis) (i : ℕ) (p : Place) : axis.get (axis.set i p) = i := by
  cases axis <;> rfl

@[simp] theorem Axis.set_set (axis : Axis) (i j : ℕ) (p : Place) :
    axis.set i (axis.set j p) = axis.set i p := by
  cases axis <;> rfl

def Inside (n p : Place) : Prop := p.1 < n.1 ∧ p.2.1 < n.2.1 ∧ p.2.2 < n.2.2

theorem Inside.get {n p : Place} (inside : Inside n p) (axis : Axis) : axis.get p < axis.get n := by
  cases axis
  · exact inside.1
  · exact inside.2.1
  · exact inside.2.2

theorem Inside.set {n p : Place} (inside : Inside n p) {axis : Axis} {i : ℕ}
    (small : i < axis.get n) : Inside n (axis.set i p) := by
  cases axis
  · exact ⟨small, inside.2.1, inside.2.2⟩
  · exact ⟨inside.1, small, inside.2.2⟩
  · exact ⟨inside.1, inside.2.1, small⟩

variable {R : Type*} [CommRing R]

def along (axis : Axis) (w : R) (n : ℕ) (g : Place → R) : Place → R :=
  fun p => dft w n (fun l => g (axis.set l p)) (axis.get p)

def Agree (n : Place) (g h : Place → R) : Prop := ∀ p, Inside n p → g p = h p

omit [CommRing R] in
theorem Agree.trans {n : Place} {f g h : Place → R} (fg : Agree n f g) (gh : Agree n g h) :
    Agree n f h := fun p inside => (fg p inside).trans (gh p inside)

theorem Agree.along {n : Place} {g h : Place → R} (same : Agree n g h) (axis : Axis) (w : R) :
    Agree n (along axis w (axis.get n) g) (along axis w (axis.get n) h) :=
  fun _ inside => Finset.sum_congr rfl fun _ mem =>
    congrArg (· * _) (same _ (inside.set (Finset.mem_range.mp mem)))

def dft3 (w : Axis → R) (n : Place) (g : Place → R) : Place → R := fun p =>
  ∑ a ∈ Finset.range n.1, ∑ b ∈ Finset.range n.2.1, ∑ c ∈ Finset.range n.2.2,
    g (a, b, c) * (w .x ^ (p.1 * a) * w .y ^ (p.2.1 * b) * w .z ^ (p.2.2 * c))

theorem Agree.dft3 {n : Place} {g h : Place → R} (same : Agree n g h) (w : Axis → R) :
    dft3 w n g = dft3 w n h :=
  funext fun _ => Finset.sum_congr rfl fun a ha => Finset.sum_congr rfl fun b hb =>
    Finset.sum_congr rfl fun c hc => congrArg (· * _)
      (same (a, b, c) ⟨Finset.mem_range.mp ha, Finset.mem_range.mp hb, Finset.mem_range.mp hc⟩)

theorem along_zyx (w : Axis → R) (n : Place) (g : Place → R) :
    along .x (w .x) n.1 (along .y (w .y) n.2.1 (along .z (w .z) n.2.2 g)) = dft3 w n g := by
  funext p
  simp only [along, dft3, dft, Axis.set, Axis.get, Finset.sum_mul]
  refine Finset.sum_congr rfl fun a _ => Finset.sum_congr rfl fun b _ =>
    Finset.sum_congr rfl fun c _ => ?_
  ring

theorem along_xyz (w : Axis → R) (n : Place) (g : Place → R) :
    along .z (w .z) n.2.2 (along .y (w .y) n.2.1 (along .x (w .x) n.1 g)) = dft3 w n g := by
  funext p
  simp only [along, dft3, dft, Axis.set, Axis.get, Finset.sum_mul]
  calc
    _ = ∑ b ∈ Finset.range n.2.1, ∑ c ∈ Finset.range n.2.2, ∑ a ∈ Finset.range n.1, _ :=
      Finset.sum_comm
    _ = ∑ b ∈ Finset.range n.2.1, ∑ a ∈ Finset.range n.1, ∑ c ∈ Finset.range n.2.2, _ :=
      Finset.sum_congr rfl fun _ _ => Finset.sum_comm
    _ = ∑ a ∈ Finset.range n.1, ∑ b ∈ Finset.range n.2.1, ∑ c ∈ Finset.range n.2.2, _ :=
      Finset.sum_comm
    _ = _ := Finset.sum_congr rfl fun a _ => Finset.sum_congr rfl fun b _ =>
      Finset.sum_congr rfl fun c _ => by ring

/-! ### The inverse -/

theorem along_scale (axis : Axis) (w : R) (n : ℕ) (s : R) (g : Place → R) :
    along axis w n (fun p => s * g p) = fun p => s * along axis w n g p := by
  funext p
  simp only [along, dft, Finset.mul_sum, mul_assoc]

theorem along_along [IsDomain R] {axis : Axis} {n : Place} {w w' : R}
    (primitive : IsPrimitiveRoot w (axis.get n)) (inverse : w * w' = 1) (g : Place → R) :
    Agree n (along axis w' (axis.get n) (along axis w (axis.get n) g))
      fun p => (axis.get n : R) * g p := by
  intro p inside
  have line := dft_dft primitive inverse (fun l => g (axis.set l p)) (inside.get axis)
  cases axis <;> exact line

theorem dft3_dft3 [IsDomain R] {n : Place} {w w' : Axis → R}
    (primitive : ∀ axis, IsPrimitiveRoot (w axis) (axis.get n))
    (inverse : ∀ axis, w axis * w' axis = 1) (g : Place → R) :
    Agree n (dft3 w' n (dft3 w n g)) fun p => ((n.1 * n.2.1 * n.2.2 : ℕ) : R) * g p := by
  rw [← along_zyx w', ← along_xyz w]
  have overZ := along_along (primitive .z) (inverse .z) (along .y (w .y) n.2.1
    (along .x (w .x) n.1 g))
  have overY := along_along (primitive .y) (inverse .y) (along .x (w .x) n.1 g)
  have overX := along_along (primitive .x) (inverse .x) g
  refine ((overZ.along .y (w' .y)).along .x (w' .x)).trans ?_
  rw [along_scale, along_scale]
  intro p inside
  have plane := overY.along .x (w' .x) p inside
  rw [along_scale] at plane
  have line := overX p inside
  simp only [Axis.get] at plane line ⊢
  rw [plane, line]
  push_cast
  ring

end Baseliner.BoxTransforms
