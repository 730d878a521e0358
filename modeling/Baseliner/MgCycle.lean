import Baseliner.MgStencils

/-! The V-cycle of the MG benchmark on its chain of grids. The levels are numbered from one as in
the source, and each level has its own arrays here. -/

namespace Baseliner.MgCycle
open PeriodicGrids MgStencils

variable {F : Type*} [Field F]

/-! ### The grids -/

def halve (N : Periods) : Periods := (N.1 / 2, N.2.1 / 2, N.2.2 / 2)

/-- `setup`: the points inside at level `k`, where `nx` are those at level `lt`. -/
def ng (nx : Periods) (lt k : ℕ) : Periods := halve^[lt - k] nx

def size (base : Periods) : ℕ → Periods
  | 0 => base
  | k + 1 => double (size base k)

theorem halve_double (N : Periods) : halve (double N) = N := by
  obtain ⟨a, b, c⟩ := N
  simp [halve, double]

theorem ng_size (base : Periods) {n k : ℕ} (below : k ≤ n) :
    ng (size base n) (n + 1) (k + 1) = size base k := by
  obtain ⟨d, rfl⟩ := Nat.exists_eq_add_of_le below
  rw [ng, Nat.add_sub_add_right, Nat.add_sub_cancel_left]
  clear below
  induction d with
  | zero => rfl
  | succ d ih => rw [Function.iterate_succ_apply, ← Nat.add_assoc, size, halve_double, ih]

theorem positive_size {base : Periods} (pos : Positive base) (k : ℕ) : Positive (size base k) := by
  induction k with
  | zero => exact pos
  | succ k ih => exact ⟨by simp [size, double, ih.1], by simp [size, double, ih.2.1],
      by simp [size, double, ih.2.2]⟩

/-! ### The cycle on the arrays -/

inductive Routine
  | rprj3
  | interp
  | resid
  | psinv

abbrev Work (F : Type*) := Routine → ℕ → Scratch F

structure Arrays (F : Type*) where
  u : ℕ → Grid F
  r : ℕ → Grid F

section cycle

variable (m : ℕ → Place) (a c : ℕ → F) (work : Work F)

def restrict (k : ℕ) (s : Arrays F) : Arrays F :=
  let r := rprj3 (m k) (m (k - 1)) (work .rprj3 k) (s.r k) (s.r (k - 1))
  { s with r := Function.update s.r (k - 1) r }

def coarsest (lb : ℕ) (s : Arrays F) : Arrays F :=
  let u := psinv (m lb) c (work .psinv lb) (s.r lb) (zero3 (m lb) (s.u lb))
  { s with u := Function.update s.u lb u }

def ascend (k : ℕ) (s : Arrays F) : Arrays F :=
  let u := interp (m (k - 1)) (work .interp k) (s.u (k - 1)) (zero3 (m k) (s.u k))
  let r := residSame (m k) a (work .resid k) u (s.r k)
  { u := Function.update s.u k (psinv (m k) c (work .psinv k) r u)
    r := Function.update s.r k r }

def finest (lt : ℕ) (v : Grid F) (s : Arrays F) : Arrays F :=
  let u := interp (m (lt - 1)) (work .interp lt) (s.u (lt - 1)) (s.u lt)
  let r := resid (m lt) a (work .resid lt) u v (s.r lt)
  { u := Function.update s.u lt (psinv (m lt) c (work .psinv lt) r u)
    r := Function.update s.r lt r }

def mg3P (lt lb : ℕ) (v : Grid F) (s : Arrays F) : Arrays F :=
  let s := (List.range' (lb + 1) (lt - lb)).foldr (restrict m work) s
  let s := coarsest m c work lb s
  let s := (List.range' (lb + 1) (lt - 1 - lb)).foldl (fun s k => ascend m a c work k s) s
  finest m a c work lt v s

theorem finest_u (lt : ℕ) (v : Grid F) (s : Arrays F) : (finest m a c work lt v s).u lt =
    let u := interp (m (lt - 1)) (work .interp lt) (s.u (lt - 1)) (s.u lt)
    psinv (m lt) c (work .psinv lt) (resid (m lt) a (work .resid lt) u v (s.r lt)) u :=
  Function.update_self ..

end cycle

def pass (m : ℕ → Place) (a c : ℕ → F) (lt lb : ℕ) (v : Grid F) (work : Work F × Scratch F)
    (s : Arrays F) : Arrays F :=
  let s := mg3P m a c work.1 lt lb v s
  { s with r := Function.update s.r lt (resid (m lt) a work.2 (s.u lt) v (s.r lt)) }

def start (m : ℕ → Place) (a : ℕ → F) (lt : ℕ) (v : Grid F) (first : Scratch F) (s : Arrays F) :
    Arrays F :=
  let u := zero3 (m lt) (s.u lt)
  { u := Function.update s.u lt u
    r := Function.update s.r lt (resid (m lt) a first u v (s.r lt)) }

/-- The timed part of the main program, for one entry of `work` to a pass. -/
def solve (m : ℕ → Place) (a c : ℕ → F) (lt lb : ℕ) (v : Grid F) (first : Scratch F)
    (work : List (Work F × Scratch F)) (s : Arrays F) : Arrays F :=
  work.foldl (fun s w => pass m a c lt lb v w s) (start m a lt v first s)

/-! ### The cycle as an operator -/

/-- The correction with one more level, where `K` is the correction on the level under it. -/
def refined (a c : ℕ → F) (K : Module.End F (Point → F)) : Module.End F (Point → F) :=
  let Q : Module.End F (Point → F) := interpolate * K * weigh
  Q + around (smoother c) * (1 - around (operator a) * Q)

/-- The approximate inverse that a cycle applies to the residual, on a grid with `k` coarser ones
under it. -/
def cycle (a c : ℕ → F) (k : ℕ) : Module.End F (Point → F) :=
  (refined a c)^[k] (around (smoother c))

def leftover (a c : ℕ → F) (k : ℕ) : Module.End F (Point → F) :=
  1 - around (operator a) * cycle a c k

theorem cycle_zero (a c : ℕ → F) : cycle a c 0 = around (smoother c) := rfl

theorem cycle_succ_apply (a c : ℕ → F) (k : ℕ) (R : Point → F) : cycle a c (k + 1) R =
    interpolate (cycle a c k (weigh R)) + around (smoother c)
      (R - around (operator a) (interpolate (cycle a c k (weigh R)))) := by
  rw [cycle, Function.iterate_succ_apply', refined]
  simp only [LinearMap.add_apply, Module.End.mul_apply, LinearMap.sub_apply, Module.End.one_apply,
    cycle]

section run

variable {base : Periods} {n : ℕ} {m : ℕ → Place} {a c : ℕ → F} {work : Work F}
  {R U : Point → F} {s : Arrays F}

/-- The residuals of the levels from `j` up have been restricted from the finest one. -/
def Restricted (base : Periods) (n : ℕ) (R : Point → F) (j : ℕ) (s : Arrays F) : Prop :=
  ∀ k, j ≤ k → k ≤ n → Stores (size base k) (s.r (k + 1)) (weigh^[n - k] R)

theorem restrict_step (pos : Positive base) (fits : ∀ k ≤ n, m (k + 1) = points (size base k))
    {j : ℕ} (below : j + 1 ≤ n) (h : Restricted base n R (j + 1) s) :
    Restricted base n R j (restrict m work (j + 2) s) := by
  intro k from_j to_n
  obtain rfl | above := Nat.eq_or_lt_of_le from_j
  · have upper := h (j + 1) le_rfl below
    have less : n - j = (n - (j + 1)) + 1 := by omega
    change Stores _ (Function.update s.r (j + 1) (rprj3 (m (j + 1 + 1)) (m (j + 1)) _ _ _) _) _
    rw [Function.update_self, fits j to_n, fits (j + 1) below, less, Function.iterate_succ_apply']
    exact rprj3_stores (positive_size pos j) _ upper
  · have other : k + 1 ≠ j + 1 := by omega
    change Stores _ (Function.update s.r (j + 1) _ (k + 1)) _
    rw [Function.update_of_ne other]
    exact h k above to_n

theorem restricted_run (pos : Positive base) (work : Work F)
    (fits : ∀ k ≤ n, m (k + 1) = points (size base k))
    (d : ℕ) {j : ℕ} (levels : n = j + d) (h : Stores (size base n) (s.r (n + 1)) R) :
    Restricted base n R j ((List.range' (j + 2) d).foldr (restrict m work) s) ∧
      ((List.range' (j + 2) d).foldr (restrict m work) s).u = s.u := by
  induction d generalizing j with
  | zero =>
    refine ⟨fun k from_j to_n => ?_, rfl⟩
    obtain rfl : k = n := by omega
    rw [Nat.sub_self]
    exact h
  | succ d ih =>
    obtain ⟨restricted, same⟩ := ih (j := j + 1) (by omega)
    rw [List.range'_succ, List.foldr_cons]
    exact ⟨restrict_step pos fits (by omega) restricted, same⟩

structure Corrected (base : Periods) (n : ℕ) (a c : ℕ → F) (R : Point → F) (top : Grid F) (j : ℕ)
    (s : Arrays F) : Prop where
  stored : Stores (size base j) (s.u (j + 1)) (cycle a c j (weigh^[n - j] R))
  restricted : Restricted base n R (j + 1) s
  finest : s.u (n + 1) = top

theorem coarsest_corrected (pos : Positive base) (work : Work F)
    (fits : ∀ k ≤ n, m (k + 1) = points (size base k)) (two : 1 ≤ n)
    (h : Restricted base n R 0 s) :
    Corrected base n a c R (s.u (n + 1)) 0 (coarsest m c work 1 s) := by
  have lowest := h 0 le_rfl (Nat.zero_le _)
  refine ⟨?_, fun k _ => h k (Nat.zero_le _), Function.update_of_ne (by omega) ..⟩
  change Stores _ (Function.update s.u 1 (psinv (m 1) c _ _ (zero3 (m 1) _)) 1) _
  rw [Function.update_self, show m 1 = points base from fits 0 (Nat.zero_le _)]
  have stored := psinv_stores (c := c) pos (work .psinv 1) lowest (zero3_stores (s.u 1))
  rw [zero_add (around (smoother c) _)] at stored
  rw [cycle_zero]
  exact stored

theorem level_stores (pos : Positive base) (wi wp : Scratch F) {j : ℕ} {z u r : Grid F}
    (hz : Stores (size base j) z (cycle a c j (weigh R)))
    (hu : Stores (size base (j + 1)) u U)
    (hr : Stores (size base (j + 1)) r
      (R - around (operator a) (interpolate (cycle a c j (weigh R))))) :
    Stores (size base (j + 1)) (psinv (points (size base (j + 1))) c wp r
      (interp (points (size base j)) wi z u)) (U + cycle a c (j + 1) R) := by
  have stored := psinv_stores (c := c) (positive_size pos (j + 1)) wp hr
    (interp_stores wi hz hu)
  rw [cycle_succ_apply, ← add_assoc]
  exact stored

theorem ascend_corrected (pos : Positive base)
    (fits : ∀ k ≤ n, m (k + 1) = points (size base k)) {top : Grid F} {j : ℕ} (below : j + 2 ≤ n)
    (h : Corrected base n a c R top j s) :
    Corrected base n a c R top (j + 1) (ascend m a c work (j + 2) s) := by
  have own := h.restricted (j + 1) le_rfl (by omega)
  have lower := h.stored
  have more : n - j = n - (j + 1) + 1 := by omega
  rw [more, Function.iterate_succ_apply'] at lower
  refine ⟨?_, fun k above to_n => ?_, ?_⟩
  · have moved := interp_stores (work .interp (j + 2)) lower
      (zero3_stores (N := double (size base j)) (s.u (j + 2)))
    rw [zero_add] at moved
    have stored := level_stores pos (work .interp (j + 2)) (work .psinv (j + 2)) lower
      (zero3_stores (s.u (j + 2)))
      (residSame_stores (a := a) (positive_size pos (j + 1)) (work .resid (j + 2)) moved own)
    rw [zero_add] at stored
    change Stores _ (Function.update s.u (j + 1 + 1) (psinv (m (j + 1 + 1)) c _
      (residSame (m (j + 1 + 1)) a _ (interp (m (j + 1)) _ _ (zero3 (m (j + 1 + 1)) _)) _)
      (interp (m (j + 1)) _ _ (zero3 (m (j + 1 + 1)) _))) (j + 1 + 1)) _
    rw [Function.update_self, fits j (by omega), fits (j + 1) (by omega)]
    exact stored
  · change Stores _ (Function.update s.r (j + 2) _ (k + 1)) _
    rw [Function.update_of_ne (by omega)]
    exact h.restricted k (by omega) to_n
  · change Function.update s.u (j + 2) _ (n + 1) = top
    rw [Function.update_of_ne (by omega)]
    exact h.finest

theorem corrected_run (pos : Positive base) (work : Work F)
    (fits : ∀ k ≤ n, m (k + 1) = points (size base k)) {top : Grid F} (d : ℕ) (below : d + 1 ≤ n)
    (h : Corrected base n a c R top 0 s) :
    Corrected base n a c R top d
      ((List.range' 2 d).foldl (fun s k => ascend m a c work k s) s) := by
  induction d with
  | zero => exact h
  | succ d ih =>
    rw [List.range'_concat, List.foldl_append, Nat.one_mul, Nat.add_comm 2 d]
    exact ascend_corrected pos fits below (ih (by omega))

theorem finest_stores (pos : Positive base) {j : ℕ}
    (fits : ∀ k ≤ j + 1, m (k + 1) = points (size base k)) {top v : Grid F} {V : Point → F}
    (hV : V ∈ periodic F (size base (j + 1)))
    (hv : ∀ p, Inside (size base (j + 1)) p → v p = V (toPoint p))
    (hu : Stores (size base (j + 1)) top U)
    (h : Corrected base (j + 1) a c (V - around (operator a) U) top j s) :
    Stores (size base (j + 1)) ((finest m a c work (j + 2) v s).u (j + 2))
      (U + cycle a c (j + 1) (V - around (operator a) U)) := by
  have lower := h.stored
  rw [Nat.add_sub_cancel_left, Function.iterate_one] at lower
  rw [← h.finest] at hu
  have moved := interp_stores (work .interp (j + 2)) lower hu
  have residual := resid_stores (a := a) (r := s.r (j + 2)) (positive_size pos (j + 1))
    (work .resid (j + 2)) moved hV hv
  have split (Z : Point → F) : V - around (operator a) (U + Z) =
      V - around (operator a) U - around (operator a) Z := by
    rw [map_add, sub_sub]
  rw [split] at residual
  rw [finest_u, Nat.add_succ_sub_one, fits j (by omega), fits (j + 1) le_rfl]
  exact level_stores pos _ _ lower hu residual

theorem mg3P_stores (pos : Positive base) (work : Work F)
    (fits : ∀ k ≤ n, m (k + 1) = points (size base k))
    (two : 1 ≤ n) {v : Grid F} {V : Point → F} (hV : V ∈ periodic F (size base n))
    (hv : ∀ p, Inside (size base n) p → v p = V (toPoint p))
    (hu : Stores (size base n) (s.u (n + 1)) U)
    (hr : Stores (size base n) (s.r (n + 1)) (V - around (operator a) U)) :
    Stores (size base n) ((mg3P m a c work (n + 1) 1 v s).u (n + 1))
      (U + cycle a c n (V - around (operator a) U)) := by
  obtain ⟨j, rfl⟩ := Nat.exists_eq_add_of_le' two
  obtain ⟨restricted, same⟩ := restricted_run pos work fits (j + 1) (j := 0) (by omega) hr
  have up := corrected_run pos work fits j le_rfl
    (coarsest_corrected (c := c) (a := a) pos work fits two restricted)
  rw [same] at up
  exact finest_stores pos fits hV hv hu up

theorem pass_stores (pos : Positive base) (fits : ∀ k ≤ n, m (k + 1) = points (size base k))
    (two : 1 ≤ n) {v : Grid F} {V : Point → F} (hV : V ∈ periodic F (size base n))
    (hv : ∀ p, Inside (size base n) p → v p = V (toPoint p))
    (hu : Stores (size base n) (s.u (n + 1)) U)
    (hr : Stores (size base n) (s.r (n + 1)) (V - around (operator a) U))
    (work : Work F × Scratch F) :
    Stores (size base n) ((pass m a c (n + 1) 1 v work s).u (n + 1))
        (U + cycle a c n (V - around (operator a) U)) ∧
      Stores (size base n) ((pass m a c (n + 1) 1 v work s).r (n + 1))
        (V - around (operator a) (U + cycle a c n (V - around (operator a) U))) := by
  have corrected := mg3P_stores (c := c) pos work.1 fits two hV hv hu hr
  refine ⟨corrected, ?_⟩
  simp only [pass, Function.update_self, fits n le_rfl]
  exact resid_stores (positive_size pos n) work.2 corrected hV hv

def found (a c : ℕ → F) (n : ℕ) (V : Point → F) (t : ℕ) : Point → F :=
  ∑ i ∈ Finset.range t, cycle a c n ((leftover a c n ^ i) V)

theorem residual_found (a c : ℕ → F) (n : ℕ) (V : Point → F) (t : ℕ) :
    V - around (operator a) (found a c n V t) = (leftover a c n ^ t) V := by
  induction t with
  | zero => simp [found]
  | succ t ih =>
    rw [found, Finset.sum_range_succ, map_add, ← sub_sub]
    change V - around (operator a) (found a c n V t) - _ = _
    rw [ih, pow_succ', Module.End.mul_apply]
    rfl

theorem start_stores (pos : Positive base) (fits : ∀ k ≤ n, m (k + 1) = points (size base k))
    {v : Grid F} {V : Point → F} (hV : V ∈ periodic F (size base n))
    (hv : ∀ p, Inside (size base n) p → v p = V (toPoint p)) (first : Scratch F) :
    Stores (size base n) ((start m a (n + 1) v first s).u (n + 1)) 0 ∧
      Stores (size base n) ((start m a (n + 1) v first s).r (n + 1)) V := by
  have finest := fits n le_rfl
  have cleared : Stores (size base n) (zero3 (m (n + 1)) (s.u (n + 1))) 0 := by
    rw [finest]
    exact zero3_stores _
  have residual := resid_stores (a := a) (r := s.r (n + 1)) (positive_size pos n) first cleared
    hV hv
  rw [map_zero, sub_zero, ← finest] at residual
  simp only [start, Function.update_self]
  exact ⟨cleared, residual⟩

theorem passes_store (pos : Positive base) (fits : ∀ k ≤ n, m (k + 1) = points (size base k))
    (two : 1 ≤ n) {v : Grid F} {V : Point → F} (hV : V ∈ periodic F (size base n))
    (hv : ∀ p, Inside (size base n) p → v p = V (toPoint p)) (t : ℕ)
    (hu : Stores (size base n) (s.u (n + 1)) (found a c n V t))
    (hr : Stores (size base n) (s.r (n + 1)) ((leftover a c n ^ t) V))
    (work : List (Work F × Scratch F)) :
    let s' := work.foldl (fun s w => pass m a c (n + 1) 1 v w s) s
    Stores (size base n) (s'.u (n + 1)) (found a c n V (t + work.length)) ∧
      Stores (size base n) (s'.r (n + 1)) ((leftover a c n ^ (t + work.length)) V) := by
  induction work generalizing s t with
  | nil => exact ⟨hu, hr⟩
  | cons w work ih =>
    rw [← residual_found] at hr
    have after := pass_stores (c := c) pos fits two hV hv hu hr w
    have next : found a c n V t + cycle a c n (V - around (operator a) (found a c n V t)) =
        found a c n V (t + 1) := by
      rw [residual_found]
      exact (Finset.sum_range_succ ..).symm
    rw [next, residual_found] at after
    rw [List.length_cons, Nat.add_comm work.length, ← Nat.add_assoc]
    exact ih (t + 1) after.1 after.2

end run

/-- The program on grids that `setup` has found by halving, for any right-hand side and whatever
the arrays held: after every number of cycles the residual is what so many of them leave of the
right-hand side, and the solution is the sum of what they have added. -/
theorem solve_cycles {base : Periods} (pos : Positive base) (below : ℕ) (a c : ℕ → F) (v : Grid F)
    (first : Scratch F) (work : List (Work F × Scratch F)) (s : Arrays F) :
    let N := size base (below + 1)
    let s' := solve (fun k => points (ng N (below + 2) k)) a c (below + 2) 1 v first work s
    Holds N (s'.r (below + 2)) ((leftover a c (below + 1) ^ work.length) (extend N v)) ∧
      Holds N (s'.u (below + 2)) (found a c (below + 1) (extend N v) work.length) ∧
      ∀ p, Inside N p → s'.r (below + 2) p =
        v p - around (operator a) (found a c (below + 1) (extend N v) work.length) (toPoint p) := by
  intro N s'
  let m (k : ℕ) : Place := points (ng N (below + 2) k)
  have fits : ∀ k ≤ below + 1, m (k + 1) = points (size base k) :=
    fun k le => congrArg points (ng_size base le)
  have hV := extend_mem N v
  have hv : ∀ p, Inside N p → v p = extend N v (toPoint p) :=
    fun p inside => (extend_inside v inside).symm
  have started := start_stores (a := a) (s := s) pos fits hV hv first
  have run := passes_store (a := a) (c := c) pos fits (by omega) hV hv 0
    (by simpa [found] using started.1) (by simpa using started.2) work
  rw [Nat.zero_add] at run
  refine ⟨run.2.holds, run.1.holds, fun p inside => ?_⟩
  refine (run.2.inside inside).trans ?_
  rw [← residual_found, Pi.sub_apply, extend_inside v inside]

theorem solve_cycles_twoLevels :
    let N := size (1, 2, 3) (0 + 1)
    let s' := solve (fun k => points (ng N (0 + 2) k)) 1 1 (0 + 2) 1 (fun p => (p.1 : ℚ))
      (fun _ _ _ => 7) [(fun _ _ _ _ _ => 5, fun _ _ _ => 6)] ⟨fun _ _ => 3, fun _ _ => 4⟩
    Holds N (s'.r (0 + 2)) ((leftover 1 1 (0 + 1) ^ 1) (extend N fun p => (p.1 : ℚ))) ∧
      Holds N (s'.u (0 + 2)) (found 1 1 (0 + 1) (extend N fun p => (p.1 : ℚ)) 1) ∧
      ∀ p, Inside N p → s'.r (0 + 2) p = (p.1 : ℚ) -
        around (operator 1) (found 1 1 (0 + 1) (extend N fun p => (p.1 : ℚ)) 1) (toPoint p) :=
  solve_cycles (⟨by decide, by decide, by decide⟩ : Positive (1, 2, 3)) 0 1 1 (fun p => (p.1 : ℚ))
    (fun _ _ _ => 7) [(fun _ _ _ _ _ => 5, fun _ _ _ => 6)] ⟨fun _ _ => 3, fun _ _ => 4⟩

end Baseliner.MgCycle
