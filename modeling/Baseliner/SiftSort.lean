import Mathlib.Logic.Equiv.Basic
import Mathlib.Data.List.Nodup
import Mathlib.Data.List.Sort
import Mathlib.Order.Defs.LinearOrder

/-! Heap sort of an array in place. Positions count from 1, so that the children of
`j` are `2 * j` and `2 * j + 1`; the records move as a whole and are compared by a key. -/

namespace Baseliner.SiftSort

variable {α β : Type*} [LinearOrder β] (key : α → β)

def swapAt (x : ℕ → α) (i j : ℕ) : ℕ → α := x ∘ Equiv.swap i j

/-- The larger child of `j` among the first `l` positions. -/
def largerChild (l j : ℕ) (x : ℕ → α) : ℕ :=
  if 2 * j < l ∧ key (x (2 * j)) < key (x (2 * j + 1)) then 2 * j + 1 else 2 * j

theorem largerChild_cases (l j : ℕ) (x : ℕ → α) :
    largerChild key l j x = 2 * j ∨ largerChild key l j x = 2 * j + 1 ∧ 2 * j < l := by
  unfold largerChild
  split_ifs with larger
  · exact .inr ⟨rfl, larger.1⟩
  · exact .inl rfl

/-- The record at `j` sinks until no child is larger. -/
def siftDown (l j : ℕ) (x : ℕ → α) : ℕ → α :=
  if 0 < j ∧ j ≤ l / 2 then
    let m := largerChild key l j x
    if key (x j) < key (x m) then siftDown l m (swapAt x m j) else x
  else x
termination_by l + 1 - j
decreasing_by
  have child := largerChild_cases key l j x
  omega

def buildHeap (l : ℕ) : ℕ → (ℕ → α) → ℕ → α
  | 0, x => x
  | i + 1, x => buildHeap l i (siftDown key l (i + 1) x)

/-- The largest record of the heap moves behind it, again and again. -/
def sortDown : ℕ → (ℕ → α) → ℕ → α
  | i + 2, x => sortDown (i + 1) (siftDown key (i + 1) 1 (swapAt x 1 (i + 2)))
  | _, x => x

def heapSort (n : ℕ) (x : ℕ → α) : ℕ → α := sortDown key n (buildHeap key n (n / 2) x)

def sorted [Inhabited α] (l : List α) : List α :=
  (List.range' 1 l.length).map (heapSort key l.length fun p => l.getD (p - 1) default)

section Rearranged

/-- The first `l` positions in another order, the others as they were. -/
def Rearranged (l : ℕ) (x y : ℕ → α) : Prop :=
  ∃ σ : Equiv.Perm ℕ, (∀ p, p = 0 ∨ l < p → σ p = p) ∧ y = x ∘ σ

variable {l : ℕ} {x y z : ℕ → α}

theorem Rearranged.refl (l : ℕ) (x : ℕ → α) : Rearranged l x x :=
  ⟨Equiv.refl ℕ, fun _ _ => rfl, rfl⟩

theorem Rearranged.trans (first : Rearranged l x y) (second : Rearranged l y z) :
    Rearranged l x z := by
  obtain ⟨σ, σfix, rfl⟩ := first
  obtain ⟨τ, τfix, rfl⟩ := second
  refine ⟨τ.trans σ, ?_, rfl⟩
  intro p outside
  rw [Equiv.trans_apply, τfix p outside, σfix p outside]

theorem Rearranged.mono {k : ℕ} (h : Rearranged l x y) (larger : l ≤ k) : Rearranged k x y := by
  obtain ⟨σ, fixed, rfl⟩ := h
  exact ⟨σ, fun p outside => fixed p (by omega), rfl⟩

theorem rearranged_swapAt {i j : ℕ} (hi : 1 ≤ i ∧ i ≤ l) (hj : 1 ≤ j ∧ j ≤ l) :
    Rearranged l x (swapAt x i j) := by
  refine ⟨Equiv.swap i j, ?_, rfl⟩
  intro p outside
  exact Equiv.swap_apply_of_ne_of_ne (by omega) (by omega)

theorem Rearranged.outside (h : Rearranged l x y) {p : ℕ} (far : l < p) : y p = x p := by
  obtain ⟨σ, fixed, rfl⟩ := h
  rw [Function.comp_apply, fixed p (.inr far)]

theorem inside_of_fixed {σ : Equiv.Perm ℕ} (fixed : ∀ p, p = 0 ∨ l < p → σ p = p) {p : ℕ}
    (inside : 1 ≤ p ∧ p ≤ l) : 1 ≤ σ p ∧ σ p ≤ l := by
  by_contra outside
  have same := fixed (σ p) (by omega)
  have := σ.injective same
  omega

theorem Rearranged.forall_inside (h : Rearranged l x y) {P : α → Prop}
    (all : ∀ p, 1 ≤ p → p ≤ l → P (x p)) {p : ℕ} (first : 1 ≤ p) (last : p ≤ l) : P (y p) := by
  obtain ⟨σ, fixed, rfl⟩ := h
  have inside := inside_of_fixed fixed ⟨first, last⟩
  exact all (σ p) inside.1 inside.2

theorem Rearranged.perm (h : Rearranged l x y) :
    ((List.range' 1 l).map y).Perm ((List.range' 1 l).map x) := by
  obtain ⟨σ, fixed, rfl⟩ := h
  have positions : ((List.range' 1 l).map σ).Perm (List.range' 1 l) := by
    have injective : ((List.range' 1 l).map σ).Nodup :=
      List.Nodup.map σ.injective List.nodup_range'
    refine (List.subperm_of_subset injective ?_).perm_of_length_le (by simp)
    intro q hq
    obtain ⟨p, hp, rfl⟩ := List.mem_map.mp hq
    rw [List.mem_range'_1] at hp ⊢
    have := inside_of_fixed fixed (show 1 ≤ p ∧ p ≤ l by omega)
    omega
  have images := positions.map x
  rwa [List.map_map] at images

end Rearranged

section Heap

/-- Every child from parent `f` on is at most its parent. -/
def HeapFrom (f l : ℕ) (x : ℕ → α) : Prop :=
  ∀ c ≤ l, f ≤ c / 2 → key (x c) ≤ key (x (c / 2))

/-- A heap but for the children of `j`, which are at most the parent of `j`. -/
structure HeapBut (f l j : ℕ) (x : ℕ → α) : Prop where
  other : ∀ c ≤ l, f ≤ c / 2 → c / 2 ≠ j → key (x c) ≤ key (x (c / 2))
  grand : ∀ c ≤ l, c / 2 = j → f ≤ j / 2 → key (x c) ≤ key (x (j / 2))

variable {key} {f l j : ℕ} {x : ℕ → α}

theorem swapAt_left (x : ℕ → α) (i j : ℕ) : swapAt x i j i = x j := by
  rw [swapAt, Function.comp_apply, Equiv.swap_apply_left]

theorem swapAt_right (x : ℕ → α) (i j : ℕ) : swapAt x i j j = x i := by
  rw [swapAt, Function.comp_apply, Equiv.swap_apply_right]

theorem swapAt_other (x : ℕ → α) {i j p : ℕ} (hi : p ≠ i) (hj : p ≠ j) :
    swapAt x i j p = x p := by
  rw [swapAt, Function.comp_apply, Equiv.swap_apply_of_ne_of_ne hi hj]

theorem le_largerChild {c : ℕ} (inside : c ≤ l) (child : c / 2 = j) :
    key (x c) ≤ key (x (largerChild key l j x)) := by
  unfold largerChild
  split_ifs with larger
  · by_cases even : c = 2 * j
    · rw [even]
      exact larger.2.le
    · rw [show c = 2 * j + 1 by omega]
  · by_cases even : c = 2 * j
    · rw [even]
    · have odd : c = 2 * j + 1 := by omega
      rw [odd]
      exact not_lt.mp fun less => larger ⟨by omega, less⟩

theorem HeapBut.sink (h : HeapBut key f l j x) (parent : 0 < j ∧ j ≤ l / 2)
    (less : key (x j) < key (x (largerChild key l j x))) :
    HeapBut key f l (largerChild key l j x) (swapAt x (largerChild key l j x) j) := by
  have cases := largerChild_cases key l j x
  have best : ∀ c ≤ l, c / 2 = j → key (x c) ≤ key (x (largerChild key l j x)) :=
    fun c inside child => le_largerChild inside child
  generalize largerChild key l j x = m at *
  constructor
  · intro c inside from_ below
    by_cases top : c = m
    · rw [top, show m / 2 = j by omega, swapAt_left, swapAt_right]
      exact less.le
    · by_cases hole : c = j
      · rw [hole, swapAt_right, swapAt_other x (by omega) (by omega)]
        exact h.grand m (by omega) (by omega) (by omega)
      · rw [swapAt_other x top hole]
        by_cases sibling : c / 2 = j
        · rw [sibling, swapAt_right]
          exact best c inside sibling
        · rw [swapAt_other x below sibling]
          exact h.other c inside from_ sibling
  · intro c inside child from_
    rw [show m / 2 = j by omega, swapAt_right, swapAt_other x (by omega) (by omega)]
    have := h.other c inside (by omega) (by omega)
    rwa [child] at this

theorem siftDown_spec (h : HeapBut key f l j x) (positive : 0 < j) :
    HeapFrom key f l (siftDown key l j x) ∧ Rearranged l x (siftDown key l j x) := by
  induction j, x using siftDown.induct key l with
  | case1 j x parent m less ih =>
      rw [siftDown, if_pos parent, if_pos less]
      have child := largerChild_cases key l j x
      obtain ⟨heap, order⟩ := ih (h.sink parent less) (by omega)
      refine ⟨heap, Rearranged.trans ?_ order⟩
      exact rearranged_swapAt (by omega) (by omega)
  | case2 j x parent m stop =>
      rw [siftDown, if_pos parent, if_neg stop]
      refine ⟨?_, .refl l x⟩
      intro c inside from_
      by_cases child : c / 2 = j
      · rw [child]
        exact (le_largerChild inside child).trans (not_lt.mp stop)
      · exact h.other c inside from_ child
  | case3 j x leaf =>
      rw [siftDown, if_neg leaf]
      refine ⟨?_, .refl l x⟩
      intro c inside from_
      exact h.other c inside from_ (by omega)

theorem HeapFrom.le_root (h : HeapFrom key 1 l x) (p : ℕ) (first : 1 ≤ p) (last : p ≤ l) :
    key (x p) ≤ key (x 1) := by
  induction p using Nat.strong_induction_on with
  | _ p ih =>
      by_cases root : p = 1
      · rw [root]
      · exact (h p last (by omega)).trans (ih (p / 2) (by omega) (by omega) (by omega))

theorem buildHeap_spec (i : ℕ) (h : HeapFrom key (i + 1) l x) :
    HeapFrom key 1 l (buildHeap key l i x) ∧ Rearranged l x (buildHeap key l i x) := by
  induction i generalizing x with
  | zero => exact ⟨h, .refl l x⟩
  | succ i ih =>
      have hole : HeapBut key (i + 1) l (i + 1) x :=
        ⟨fun c inside from_ other => h c inside (by omega), fun c _ _ from_ => by omega⟩
      obtain ⟨heap, order⟩ := siftDown_spec hole (Nat.succ_pos i)
      obtain ⟨whole, rest⟩ := ih heap
      exact ⟨whole, order.trans rest⟩

end Heap

section Sorted

variable {key} {n i : ℕ} {x : ℕ → α}

/-- A heap of the first `i` records, and the others sorted behind it. -/
structure Split (key : α → β) (n i : ℕ) (x : ℕ → α) : Prop where
  heap : HeapFrom key 1 i x
  behind : ∀ p q, i < p → p ≤ q → q ≤ n → key (x p) ≤ key (x q)
  between : ∀ p q, 1 ≤ p → p ≤ i → i < q → q ≤ n → key (x p) ≤ key (x q)

theorem Split.round (h : Split key n (i + 2) x) (fits : i + 2 ≤ n) :
    Split key n (i + 1) (siftDown key (i + 1) 1 (swapAt x 1 (i + 2))) ∧
      Rearranged n x (siftDown key (i + 1) 1 (swapAt x 1 (i + 2))) := by
  have hole : HeapBut key 1 (i + 1) 1 (swapAt x 1 (i + 2)) := by
    constructor
    · intro c inside from_ other
      rw [swapAt_other x (by omega) (by omega), swapAt_other x (by omega) (by omega)]
      exact h.heap c (by omega) from_
    · intro c _ _ from_
      omega
  obtain ⟨heap, order⟩ := siftDown_spec hole Nat.one_pos
  have swapped : Rearranged (i + 2) x (swapAt x 1 (i + 2)) :=
    rearranged_swapAt ⟨le_rfl, by omega⟩ ⟨by omega, le_rfl⟩
  -- no record of the heap is larger than the root, which now stands behind it
  have root : ∀ p, 1 ≤ p → p ≤ i + 2 → key (swapAt x 1 (i + 2) p) ≤ key (x 1) := by
    intro p first last
    exact swapped.forall_inside (P := fun r => key r ≤ key (x 1)) h.heap.le_root first last
  have last : swapAt x 1 (i + 2) (i + 2) = x 1 := swapAt_right x 1 (i + 2)
  have far {q : ℕ} (hq : i + 2 < q) : swapAt x 1 (i + 2) q = x q :=
    swapAt_other x (by omega) (by omega)
  have rootLe : ∀ q, i + 1 < q → q ≤ n → key (x 1) ≤ key (swapAt x 1 (i + 2) q) := by
    intro q above inside
    by_cases here : q = i + 2
    · rw [here, last]
    · rw [far (by omega)]
      exact h.between 1 q le_rfl (by omega) (by omega) inside
  refine ⟨⟨heap, ?_, ?_⟩, (swapped.mono fits).trans (order.mono (by omega))⟩
  · intro p q above ordered inside
    rw [order.outside above, order.outside (by omega)]
    by_cases here : p = i + 2
    · rw [here, last]
      exact rootLe q (by omega) inside
    · rw [far (by omega), far (by omega)]
      exact h.behind p q (by omega) ordered inside
  · intro p q first lastHeap above inside
    rw [order.outside above]
    refine le_trans ?_ (rootLe q above inside)
    exact order.forall_inside (P := fun r => key r ≤ key (x 1))
      (fun p first last => root p first (by omega)) first lastHeap

theorem sortDown_spec (h : Split key n i x) (fits : i ≤ n) :
    (∀ p q, 1 ≤ p → p ≤ q → q ≤ n → key (sortDown key i x p) ≤ key (sortDown key i x q)) ∧
      Rearranged n x (sortDown key i x) := by
  induction i, x using sortDown.induct key with
  | case1 i x ih =>
      obtain ⟨split, order⟩ := h.round fits
      obtain ⟨ascending, rest⟩ := ih split (by omega)
      exact ⟨ascending, order.trans rest⟩
  | case2 i x small =>
      have few : i ≤ 1 := by
        by_contra large
        exact small (i - 2) (by omega)
      have stays : sortDown key i x = x := by
        unfold sortDown
        split
        · omega
        · rfl
      rw [stays]
      refine ⟨?_, .refl n x⟩
      intro p q first ordered inside
      by_cases same : p = q
      · rw [same]
      · by_cases front : p ≤ i
        · exact h.between p q first front (by omega) inside
        · exact h.behind p q (by omega) ordered inside

theorem heapSort_spec (key : α → β) (n : ℕ) (x : ℕ → α) :
    (∀ p q, 1 ≤ p → p ≤ q → q ≤ n → key (heapSort key n x p) ≤ key (heapSort key n x q)) ∧
      Rearranged n x (heapSort key n x) := by
  have leaves : HeapFrom key (n / 2 + 1) n x := fun c inside from_ => by omega
  obtain ⟨heap, order⟩ := buildHeap_spec (n / 2) leaves
  have split : Split key n n (buildHeap key n (n / 2) x) :=
    ⟨heap, fun p q _ _ _ => by omega, fun p q _ _ _ _ => by omega⟩
  obtain ⟨ascending, rest⟩ := sortDown_spec split le_rfl
  exact ⟨ascending, order.trans rest⟩

theorem sorted_perm [Inhabited α] (l : List α) : (sorted key l).Perm l := by
  have order := (heapSort_spec key l.length fun p => l.getD (p - 1) default).2.perm
  have same : (List.range' 1 l.length).map (fun p => l.getD (p - 1) default) = l := by
    apply List.ext_getElem
    · simp
    · intro k h1 h2
      simp [List.getElem?_eq_getElem h2]
  rwa [same] at order

theorem sorted_pairwise [Inhabited α] (l : List α) :
    (sorted key l).Pairwise fun a b => key a ≤ key b := by
  have ascending := (heapSort_spec key l.length fun p => l.getD (p - 1) default).1
  rw [sorted, List.pairwise_map]
  refine List.Pairwise.imp_of_mem ?_ List.pairwise_lt_range'
  intro p q hp hq less
  rw [List.mem_range'_1] at hp hq
  exact ascending p q hp.1 less.le (by omega)

end Sorted

end Baseliner.SiftSort
