import Mathlib.Algebra.BigOperators.Ring.Finset
import Mathlib.Tactic.IntervalCases
import Baseliner.CgAssembly

/-! The matrix that `sparse` makes, in terms of the lists alone: in row `j` stand the columns
that share a list with `j`, and a value is the sum over these lists. -/

namespace Baseliner.CgSparse

open KeyedSums

variable {K : Type*} [CommRing K]

structure Matrix (K : Type*) where
  rowstr : ℕ → ℕ
  colidx : ℕ → ℕ
  a : ℕ → K

namespace Problem

variable (p : Problem K)

/-- List `i` contains column `c`. -/
def Has (i c : ℕ) : Prop := c ∈ (p.entries i).map Prod.fst

instance (i c : ℕ) : Decidable (p.Has i c) := inferInstanceAs (Decidable (c ∈ _))

/-- The element of list `i` for column `c`. -/
def elt (i c : ℕ) : K := ((p.entries i).lookup c).getD 0

structure Assembled (M : Matrix K) : Prop where
  first : M.rowstr 1 = 1
  ordered : ∀ j, 1 ≤ j → j ≤ p.n → M.rowstr j ≤ M.rowstr (j + 1)
  ascending : ∀ j, 1 ≤ j → j ≤ p.n → ∀ k l, M.rowstr j ≤ k → k < l → l < M.rowstr (j + 1) →
    M.colidx k < M.colidx l
  columns : ∀ j, 1 ≤ j → j ≤ p.n → ∀ c,
    (∃ k, M.rowstr j ≤ k ∧ k < M.rowstr (j + 1) ∧ M.colidx k = c) ↔
      ∃ i, 1 ≤ i ∧ i ≤ p.n ∧ p.Has i j ∧ p.Has i c
  values : ∀ j, 1 ≤ j → j ≤ p.n → ∀ k, M.rowstr j ≤ k → k < M.rowstr (j + 1) →
    M.a k = (∑ i ∈ (Finset.Icc 1 p.n).filter fun i => p.Has i j ∧ p.Has i (M.colidx k),
      p.ratio ^ (i - 1) * p.elt i j * p.elt i (M.colidx k)) +
      if M.colidx k = j then p.rcond - p.shift else 0

structure Same (M : Matrix K) (m : Mem K) : Prop where
  rowstr : ∀ x, 1 ≤ x → x ≤ p.n + 1 → m.rowstr x = M.rowstr x
  colidx : ∀ k, 1 ≤ k → k < M.rowstr (p.n + 1) → m.colidx k = M.colidx k
  a : ∀ k, 1 ≤ k → k < M.rowstr (p.n + 1) → m.a k = M.a k

def matrix : Matrix K where
  rowstr := p.final
  colidx k := (((List.range' 1 p.n).flatMap p.row).getD (k - 1) (0, 0)).1
  a k := (((List.range' 1 p.n).flatMap p.row).getD (k - 1) (0, 0)).2

end Problem

end Baseliner.CgSparse

namespace Baseliner.CgMatrix

open CgAssembly CgInsertion CgPointers CgSparse KeyedSums

variable {K : Type*} [CommRing K] {p : Problem K} {j : ℕ}

section Entries

theorem length_rows (x : ℕ) : ((List.range' 1 x).flatMap p.row).length + 1 = p.final (x + 1) := by
  induction x with
  | zero => rfl
  | succ x ih =>
      rw [List.range'_concat, List.flatMap_append, List.length_append, p.final_succ (by omega),
        ← ih, List.flatMap_singleton, Nat.one_mul, Nat.add_comm 1 x]
      omega

theorem matrix_entry (low : 1 ≤ j) (high : j ≤ p.n) {d : ℕ} (inside : d < (p.row j).length) :
    (p.matrix.colidx (p.final j + d), p.matrix.a (p.final j + d)) = (p.row j).getD d (0, 0) := by
  have before := length_rows (p := p) (j - 1)
  rw [show j - 1 + 1 = j by omega] at before
  have split : List.range' 1 p.n = List.range' 1 (j - 1) ++ j :: List.range' (j + 1) (p.n - j) := by
    have tail : j :: List.range' (j + 1) (p.n - j) = List.range' j (p.n - j + 1) := rfl
    have joined := List.range'_append_1 (s := 1) (m := j - 1) (n := p.n - j + 1)
    rw [show 1 + (j - 1) = j by omega, show j - 1 + (p.n - j + 1) = p.n by omega] at joined
    rw [tail, joined]
  have flat : ((List.range' 1 p.n).flatMap p.row).getD (p.final j + d - 1) (0, 0) =
      (p.row j).getD d (0, 0) := by
    rw [split, List.flatMap_append, List.flatMap_cons, getD_split, if_neg (by omega), getD_split,
      show p.final j + d - 1 - ((List.range' 1 (j - 1)).flatMap p.row).length = d by omega,
      if_pos inside]
  exact flat

theorem matrix_slot (low : 1 ≤ j) (high : j ≤ p.n) {k : ℕ} (above : p.final j ≤ k)
    (below : k < p.final (j + 1)) :
    ∃ d, k = p.final j + d ∧ ∃ inside : d < (p.row j).length,
      p.matrix.colidx k = ((p.row j).get ⟨d, inside⟩).1 ∧
        p.matrix.a k = ((p.row j).get ⟨d, inside⟩).2 := by
  have step := p.final_succ low
  have inside : k - p.final j < (p.row j).length := by omega
  have entry := matrix_entry low high inside
  rw [show p.final j + (k - p.final j) = k by omega, List.getD_eq_getElem _ _ inside] at entry
  exact ⟨k - p.final j, by omega, inside, congrArg Prod.fst entry, congrArg Prod.snd entry⟩

theorem slot_row {k : ℕ} (low : 1 ≤ k) (high : k < p.final (p.n + 1)) :
    ∃ j, 1 ≤ j ∧ j ≤ p.n ∧ p.final j ≤ k ∧ k < p.final (j + 1) := by
  have each (x : ℕ) (below : k < p.final (x + 1)) (range : x ≤ p.n) :
      ∃ j, 1 ≤ j ∧ j ≤ p.n ∧ p.final j ≤ k ∧ k < p.final (j + 1) := by
    induction x with
    | zero => exact absurd below (Nat.not_lt.mpr low)
    | succ x ih =>
        by_cases earlier : k < p.final (x + 1)
        · exact ih earlier (by omega)
        · exact ⟨x + 1, by omega, range, Nat.not_lt.mp earlier, below⟩
  exact each p.n high le_rfl

theorem same_of_finished {m : Mem K} (finished : Finished p m) : p.Same p.matrix m := by
  have each : ∀ k, 1 ≤ k → k < p.final (p.n + 1) →
      (m.colidx k, m.a k) = (p.matrix.colidx k, p.matrix.a k) := by
    intro k low high
    obtain ⟨j, low', high', above, below⟩ := slot_row low high
    obtain ⟨d, rfl, inside, -, -⟩ := matrix_slot low' high' above below
    rw [matrix_entry low' high' inside]
    exact finished.copied j low' high' d inside
  exact ⟨finished.pointers, fun k low high => congrArg Prod.fst (each k low high),
    fun k low high => congrArg Prod.snd (each k low high)⟩

end Entries

section Values

omit [CommRing K] in
theorem filter_key {l : List (ℕ × K)} (distinct : (l.map Prod.fst).Nodup) (c : ℕ) :
    (l.filter fun e => decide (e.1 = c)) = ((l.lookup c).map fun x => (c, x)).toList := by
  induction l with
  | nil => rfl
  | cons e l ih =>
      rw [List.map_cons, List.nodup_cons] at distinct
      by_cases here : e.1 = c
      · have others : (l.filter fun e => decide (e.1 = c)) = [] := by
          rw [List.filter_eq_nil_iff]
          intro x hx same
          refine distinct.1 ?_
          rw [here, ← of_decide_eq_true same]
          exact List.mem_map_of_mem hx
        rw [List.filter_cons_of_pos (p := fun e : ℕ × K => decide (e.1 = c))
          (decide_eq_true here), others, List.lookup_cons, ← here, beq_self_eq_true]
        rfl
      · have other : (c == e.1) = false := beq_eq_false_iff_ne.mpr (Ne.symm here)
        rw [List.filter_cons_of_neg (p := fun e : ℕ × K => decide (e.1 = c))
          (fun same => here (of_decide_eq_true same)), List.lookup_cons, other, ih distinct.2]

variable {i c : ℕ} {size : K}

theorem lookup_eq (low : 1 ≤ i) (high : i ≤ p.n) :
    (p.entries i).lookup c = if p.Has i c then some (p.elt i c) else none := by
  have found := filter_key (p.distinct i low high) c
  rw [Problem.elt]
  cases h : (p.entries i).lookup c with
  | none =>
      rw [h] at found
      have absent : ¬ p.Has i c := by
        intro has
        obtain ⟨e, he, rfl⟩ := List.mem_map.mp has
        exact (List.filter_eq_nil_iff.mp found) e he (decide_eq_true rfl)
      rw [if_neg absent]
  | some x =>
      rw [h] at found
      have member : (c, x) ∈ (p.entries i).filter fun e => decide (e.1 = c) := by
        rw [found]
        simp
      have has : p.Has i c := List.mem_map.mpr ⟨_, (List.mem_filter.mp member).1, rfl⟩
      rw [if_pos has]
      rfl

theorem mem_listElements :
    c ∈ (p.listElements j i size).map Prod.fst ↔ p.Has i j ∧ p.Has i c := by
  rw [Problem.listElements, Problem.Has, Problem.Has]
  simp only [List.mem_map, List.mem_flatMap, List.mem_filter, decide_eq_true_eq]
  constructor
  · rintro ⟨_, ⟨e, ⟨he, row⟩, x, hx, rfl⟩, rfl⟩
    exact ⟨⟨e, he, row⟩, x, hx, rfl⟩
  · rintro ⟨⟨e, he, row⟩, x, hx, rfl⟩
    exact ⟨_, ⟨e, ⟨he, row⟩, x, hx, rfl⟩, rfl⟩

def share (p : Problem K) (j c i : ℕ) (size : K) : K :=
  if p.Has i j ∧ p.Has i c then
    size * p.elt i j * p.elt i c + if c = j ∧ j = i then p.rcond - p.shift else 0
  else 0

theorem sum_listElements (low : 1 ≤ i) (high : i ≤ p.n) :
    sumOver (fun k => decide (k = c)) (p.listElements j i size) = share p j c i size := by
  have row := filter_key (p.distinct i low high) j
  have column := filter_key (p.distinct i low high) c
  rw [lookup_eq low high] at row column
  rw [Problem.listElements, row, share]
  by_cases hasRow : p.Has i j
  · have entries : sumOver (fun k => decide (k = c)) ((p.entries i).map fun e =>
        (e.1, p.element i j (size * p.elt i j) e)) =
        (((p.entries i).filter fun e => decide (e.1 = c)).map
          fun e => p.element i j (size * p.elt i j) e).sum := by
      rw [sumOver, List.filter_map, List.map_map]
      rfl
    rw [if_pos hasRow]
    simp only [Option.map_some, Option.toList_some, List.flatMap_singleton]
    rw [entries, column]
    by_cases hasColumn : p.Has i c
    · rw [if_pos hasColumn, if_pos ⟨hasRow, hasColumn⟩]
      simp only [Option.map_some, Option.toList_some, List.map_singleton, List.sum_singleton,
        Problem.element]
      split_ifs with diagonal
      · ring
      · ring
    · rw [if_neg hasColumn, if_neg fun both => hasColumn both.2]
      rfl
  · rw [if_neg hasRow, if_neg fun both => hasRow both.1]
    rfl

theorem mem_rowElements {left : ℕ} :
    c ∈ (p.rowElements j left i size).map Prod.fst ↔
      ∃ k, i ≤ k ∧ k < i + left ∧ p.Has k j ∧ p.Has k c := by
  induction left generalizing i size with
  | zero =>
      constructor
      · nofun
      · rintro ⟨k, above, below, -⟩
        omega
  | succ left ih =>
      rw [Problem.rowElements, List.map_append, List.mem_append, mem_listElements, ih]
      constructor
      · rintro (here | ⟨k, above, below, both⟩)
        · exact ⟨i, le_rfl, by omega, here⟩
        · exact ⟨k, by omega, by omega, both⟩
      · rintro ⟨k, above, below, both⟩
        by_cases first : k = i
        · subst first
          exact .inl both
        · exact .inr ⟨k, by omega, by omega, both⟩

theorem sum_rowElements {left : ℕ} (low : 1 ≤ i) (high : i + left ≤ p.n + 1) :
    sumOver (fun k => decide (k = c)) (p.rowElements j left i size) =
      ∑ d ∈ Finset.range left, share p j c (i + d) (size * p.ratio ^ d) := by
  induction left generalizing i size with
  | zero => rfl
  | succ left ih =>
      rw [Problem.rowElements, sumOver_append, sum_listElements low (by omega),
        ih (by omega) (by omega), Finset.sum_range_succ', add_comm, pow_zero, mul_one,
        Nat.add_zero]
      refine congrArg (· + share p j c i size) (Finset.sum_congr rfl fun d _ => ?_)
      rw [pow_succ', ← mul_assoc, Nat.add_assoc, Nat.add_comm 1 d]

theorem sum_row (low : 1 ≤ j) (high : j ≤ p.n) :
    sumOver (fun k => decide (k = c)) (p.rowElements j p.n 1 1) =
      (∑ i ∈ (Finset.Icc 1 p.n).filter fun i => p.Has i j ∧ p.Has i c,
        p.ratio ^ (i - 1) * p.elt i j * p.elt i c) + if c = j then p.rcond - p.shift else 0 := by
  have interval : Finset.Icc 1 p.n = Finset.Ico 1 (p.n + 1) := by
    ext i
    rw [Finset.mem_Icc, Finset.mem_Ico]
    omega
  have own : p.Has j j := p.own j low high
  have shifted : (∑ i ∈ (Finset.Icc 1 p.n).filter fun i => p.Has i j ∧ p.Has i c,
      if c = j ∧ j = i then p.rcond - p.shift else 0) =
      if c = j then p.rcond - p.shift else 0 := by
    by_cases diagonal : c = j
    · subst diagonal
      have member : c ∈ (Finset.Icc 1 p.n).filter fun i => p.Has i c ∧ p.Has i c :=
        Finset.mem_filter.mpr ⟨Finset.mem_Icc.mpr ⟨low, high⟩, own, own⟩
      simp only [true_and, if_true]
      rw [Finset.sum_ite_eq, if_pos member]
    · simp only [diagonal, false_and, if_false, Finset.sum_const_zero]
  rw [sum_rowElements le_rfl (by omega), ← shifted, ← Finset.sum_add_distrib, Finset.sum_filter,
    interval, Finset.sum_Ico_eq_sum_range, Nat.add_sub_cancel]
  refine Finset.sum_congr rfl fun d _ => ?_
  rw [share, one_mul, Nat.add_sub_cancel_left]

end Values

theorem assembled_matrix (p : Problem K) : p.Assembled p.matrix := by
  refine ⟨rfl, ?_, ?_, ?_, ?_⟩
  · intro j low _
    exact (p.final_succ low).ge.trans' (Nat.le_add_right ..)
  · intro j low high k l above order below
    obtain ⟨d, rfl, inside, first, -⟩ := matrix_slot low high above (order.trans below)
    obtain ⟨e, rfl, inside', second, -⟩ := matrix_slot low high (above.trans order.le) below
    have columns := List.pairwise_iff_get.mp (ascending_groupBy (p.rowElements j p.n 1 1))
      ⟨d, inside⟩ ⟨e, inside'⟩ (Nat.lt_of_add_lt_add_left order)
    rw [first, second]
    exact columns
  · intro j low high c
    have keys : c ∈ (p.row j).map Prod.fst ↔ ∃ i, 1 ≤ i ∧ i ≤ p.n ∧ p.Has i j ∧ p.Has i c := by
      rw [Problem.row, mem_groupBy_key, mem_rowElements]
      simp only [Nat.add_comm 1 p.n, Nat.lt_succ_iff]
    rw [← keys]
    constructor
    · rintro ⟨k, above, below, rfl⟩
      obtain ⟨d, rfl, inside, column, -⟩ := matrix_slot low high above below
      rw [column]
      exact List.mem_map_of_mem (List.get_mem _ _)
    · intro member
      obtain ⟨e, he, rfl⟩ := List.mem_map.mp member
      obtain ⟨⟨d, inside⟩, rfl⟩ := List.get_of_mem he
      have entry := matrix_entry low high inside
      rw [List.getD_eq_getElem _ _ inside] at entry
      have step := p.final_succ low
      exact ⟨p.final j + d, Nat.le_add_right .., by
        change p.final j + d < p.final (j + 1)
        omega, congrArg Prod.fst entry⟩
  · intro j low high k above below
    obtain ⟨d, rfl, inside, column, value⟩ := matrix_slot low high above below
    have sum := (ascending_groupBy (p.rowElements j p.n 1 1)).sumOver_eq
      (List.get_mem (p.row j) ⟨d, inside⟩)
    rw [(same_groupBy _).sums, sum_row low high] at sum
    rw [column, value]
    exact sum.symm

/-- The assembly does not depend on the number of threads or on the order of their steps: it
comes to the end, and to one matrix. -/
theorem sparse_assembles (p : Problem K) (fits : p.nza ≤ p.nz) :
    ∃ M : Matrix K, p.Assembled M ∧
      ∀ threads, 1 ≤ threads → threads ≤ 1024 → ∀ o : Orders, p.Complete threads o →
        ∀ m : Mem K, ∃ m', p.sparse threads o m = .ok m' ∧ p.Same M m' := by
  refine ⟨p.matrix, assembled_matrix p, fun threads low high o complete m => ?_⟩
  obtain ⟨m', run, finished⟩ := sparse_finished ⟨p.positive, low, high⟩ fits complete m
  exact ⟨m', run, same_of_finished finished⟩

/-- Two rows for three threads, so that the last thread has none; it comes first. -/
def twoLists : Problem ℤ where
  n := 2
  nz := 5
  rcond := 1
  shift := 10
  ratio := 3
  entries i := if i = 1 then [(2, 5), (1, 4)] else [(2, 7)]
  positive := by decide
  distinct i low high := by
    interval_cases i
    · decide
    · decide
  inside i low high := by
    interval_cases i
    · decide
    · decide
  own i low high := by
    interval_cases i
    · decide
    · decide

def lastFirst : Orders where
  countRows := [2, 1, 0].flatMap (List.replicate 9)
  shiftRows := [2, 1, 0].flatMap (List.replicate 9)
  assemble := [2, 1, 0].flatMap (List.replicate 9)
  countFree := [2, 1, 0].flatMap (List.replicate 9)
  shiftFree := [2, 1, 0].flatMap (List.replicate 9)
  compact := [2, 1]
  close := [3, 2]

theorem complete_lastFirst : twoLists.Complete 3 lastFirst where
  countRows := ⟨by decide, by decide⟩
  shiftRows := ⟨by decide, by decide⟩
  assemble := ⟨by decide, by decide⟩
  countFree := ⟨by decide, by decide⟩
  shiftFree := ⟨by decide, by decide⟩
  compact := by
    refine ⟨by decide, fun j range => ?_⟩
    obtain ⟨low, high⟩ : 1 ≤ j ∧ j ≤ 2 := range
    interval_cases j
    · decide
    · decide
  close := by
    refine ⟨by decide, fun j range => ?_⟩
    obtain ⟨low, high⟩ : 2 ≤ j ∧ j ≤ 3 := range
    interval_cases j
    · decide
    · decide

def noMem : Mem ℤ := ⟨fun _ => 8, fun _ => 8, fun _ => 8, ⟨fun _ => 8, fun _ => 8⟩, fun _ => 8,
  fun _ => 8, fun _ => 8⟩

theorem sparse_assembles_lastFirst :
    ∃ M : Matrix ℤ, twoLists.Assembled M ∧
      ∃ m', twoLists.sparse 3 lastFirst noMem = .ok m' ∧ twoLists.Same M m' := by
  obtain ⟨M, assembled, runs⟩ := sparse_assembles twoLists (by decide)
  exact ⟨M, assembled, runs 3 (by decide) (by decide) lastFirst complete_lastFirst noMem⟩

end Baseliner.CgMatrix
