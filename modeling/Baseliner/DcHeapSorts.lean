import Baseliner.DcPartition

/-! The heap sorts of `jobcntl.c` on the array itself, with positions and counters as wide
as in the source. An access past the last element and a loop that does not end are `none`. -/

namespace Baseliner.DcHeapSorts

open SiftSort DcPartition

section Code

/-- A record of a key and a tuple, which are stored one at a time. -/
structure Fields (α : Type) where
  key : α → ℕ
  tuple : α → ℕ
  setKey : ℕ → α → α
  setTuple : ℕ → α → α
  tuple_setKey (k : ℕ) (a : α) : tuple (setKey k a) = tuple a
  whole (a b : α) : setTuple (tuple a) (setKey (key a) b) = a

def sizes : Fields TupleViewsize where
  key := TupleViewsize.viewsize
  tuple := TupleViewsize.tuple
  setKey k a := { a with viewsize := k }
  setTuple t a := { a with tuple := t }
  tuple_setKey _ _ := rfl
  whole _ _ := rfl

def ones : Fields TupleOnes where
  key := TupleOnes.nOnes
  tuple := TupleOnes.tuple
  setKey k a := { a with nOnes := k }
  setTuple t a := { a with tuple := t }
  tuple_setKey _ _ := rfl
  whole _ _ := rfl

variable {α : Type} (fields : Fields α)

/-- One field of `x[i]` written. -/
def store (write : α → α) (i : ℕ) (x : List α) : Option (List α) :=
  if i < x.length then some (x.modify i write) else none

/-- `x[i]` and `x[j]` exchanged, through `iW` and then through `iW64`. -/
def exchange (i j : ℕ) (x : List α) : Option (List α) := do
  let iW := fields.key (← x[i]?)
  let x ← store (fields.setKey (fields.key (← x[j]?))) i x
  let x ← store (fields.setKey iW) j x
  let iW64 := fields.tuple (← x[i]?)
  let x ← store (fields.setTuple (fields.tuple (← x[j]?))) i x
  store (fields.setTuple iW64) j x

/-- `m`, the position of the child to compare with; the right one is read only within `l`. -/
def pickChild (l tj : UInt32) (x : List α) : Option UInt32 :=
  if tj < l then do
    let left ← x[(tj - 1).toNat]?
    let right ← x[tj.toNat]?
    return if fields.key left < fields.key right then tj + 1 else tj
  else some tj

/-- The `while` loop, in at most so many rounds. -/
def restoreLoop (l hl : UInt32) : (rounds : ℕ) → (j : UInt32) → List α → Option (List α)
  | 0, _, _ => none
  | rounds + 1, j, x =>
    if j ≤ hl then do
      let m ← pickChild fields l (j * 2) x
      let mm1 := m - 1
      let jm1 := j - 1
      let child ← x[mm1.toNat]?
      let parent ← x[jm1.toNat]?
      if fields.key child > fields.key parent then
        restoreLoop l hl rounds m (← exchange fields mm1.toNat jm1.toNat x)
      else
        restoreLoop l hl rounds l x
    else some x

def restoreBy (f l : UInt32) (x : List α) : Option (List α) :=
  restoreLoop fields l (l >>> 1) (l.toNat + 1) f x

theorem toInt_pred {i : Int32} {low : ℕ} (inside : (low : ℤ) ≤ i.toInt) :
    (i - 1).toInt = i.toInt - 1 := by
  have least := i.le_toInt
  have most := i.toInt_lt
  rw [Int32.toInt_sub, show (1 : Int32).toInt = 1 from rfl]
  exact Int.bmod_eq_of_le (by omega) (by omega)

/-- `for (; i >= low; i--)`. -/
def countDown (low : ℕ) (body : Int32 → List α → Option (List α)) (i : Int32) (x : List α) :
    Option (List α) :=
  if h : (low : ℤ) ≤ i.toInt then do
    let x ← body i x
    countDown low body (i - 1) x
  else some x
termination_by (i.toInt + 1).toNat
decreasing_by
  rw [toInt_pred h]
  omega

def moveRoot (i : Int32) (x : List α) : Option (List α) := do
  let im1 := i - 1
  let x ← exchange fields 0 im1.toUInt32.toNat x
  restoreBy fields 1 im1.toUInt32 x

def heapsortBy (x : List α) (n : UInt32) : Option (List α) := do
  let x ← countDown 1 (fun i => restoreBy fields i.toUInt32 n) (n >>> 1).toInt32 x
  countDown 2 (moveRoot fields) n.toInt32 x

def restore : UInt32 → UInt32 → List TupleViewsize → Option (List TupleViewsize) := restoreBy sizes

def restoreo : UInt32 → UInt32 → List TupleOnes → Option (List TupleOnes) := restoreBy ones

def vszsort : List TupleViewsize → UInt32 → Option (List TupleViewsize) := heapsortBy sizes

def onessort : List TupleOnes → UInt32 → Option (List TupleOnes) := heapsortBy ones

end Code

section Arrays

variable {α : Type} (fields : Fields α) {x : List α} {f : ℕ → α}

/-- The array holds the records that `f` has at the positions from 1 on. -/
def Holds (x : List α) (f : ℕ → α) : Prop := ∀ i < x.length, x[i]? = some (f (i + 1))

theorem Holds.store (h : Holds x f) {i : ℕ} (inside : i < x.length) (write : α → α) :
    ∃ y, store write i x = some y ∧ y.length = x.length ∧
      Holds y (Function.update f (i + 1) (write (f (i + 1)))) := by
  refine ⟨x.modify i write, if_pos inside, List.length_modify .., ?_⟩
  intro k bound
  rw [List.length_modify] at bound
  rw [List.getElem?_modify, h k bound]
  by_cases here : i = k
  · simp [here]
  · rw [Function.update_of_ne (by omega)]
    simp [here]

/-- Whatever stood at `p` and `q` in between. -/
theorem update_swapAt (f : ℕ → α) (p q : ℕ) (a b : α) :
    Function.update (Function.update (Function.update (Function.update f p a) q b) p (f q))
      q (f p) = swapAt f p q := by
  funext r
  by_cases atq : r = q
  · rw [atq, Function.update_self, swapAt_right]
  · rw [Function.update_of_ne atq]
    by_cases atp : r = p
    · rw [atp, Function.update_self, swapAt_left]
    · rw [swapAt_other f atp atq, Function.update_of_ne atp, Function.update_of_ne atq,
        Function.update_of_ne atp]

theorem Holds.exchange (h : Holds x f) {i j : ℕ} (hi : i < x.length) (hj : j < x.length)
    (distinct : i ≠ j) :
    ∃ y, exchange fields i j x = some y ∧ y.length = x.length ∧
      Holds y (swapAt f (i + 1) (j + 1)) := by
  have apart : i + 1 ≠ j + 1 := by omega
  let a := fields.setKey (fields.key (f (j + 1))) (f (i + 1))
  let b := fields.setKey (fields.key (f (i + 1))) (f (j + 1))
  obtain ⟨x₁, run₁, size₁, h₁⟩ := h.store hi (fields.setKey (fields.key (f (j + 1))))
  obtain ⟨x₂, run₂, size₂, h₂⟩ :=
    h₁.store (i := j) (by omega) (fields.setKey (fields.key (f (i + 1))))
  rw [Function.update_of_ne apart.symm] at h₂
  have ri : x₂[i]? = some a := by
    rw [h₂ i (by omega), Function.update_of_ne apart, Function.update_self]
  have rj : x₂[j]? = some b := by
    rw [h₂ j (by omega), Function.update_self]
  obtain ⟨x₃, run₃, size₃, h₃⟩ := h₂.store (i := i) (by omega) (fields.setTuple (fields.tuple b))
  rw [Function.update_of_ne apart, Function.update_self, fields.tuple_setKey, fields.whole] at h₃
  obtain ⟨x₄, run₄, size₄, h₄⟩ := h₃.store (i := j) (by omega) (fields.setTuple (fields.tuple a))
  rw [Function.update_of_ne apart.symm, Function.update_self, fields.tuple_setKey, fields.whole,
    update_swapAt] at h₄
  refine ⟨x₄, ?_, by omega, h₄⟩
  simp only [DcHeapSorts.exchange, h i hi, h j hj, Option.bind_eq_bind, Option.bind_some, run₁,
    run₂, ri, rj, run₃, run₄]

theorem toNat_pred {u : UInt32} (positive : 0 < u.toNat) : (u - 1).toNat = u.toNat - 1 :=
  UInt32.toNat_sub_of_le u 1 (UInt32.le_iff_toNat_le.mpr positive)

theorem pickChild_eq (h : Holds x f) {l tj : UInt32} {j : ℕ} (twice : tj.toNat = 2 * j)
    (positive : 0 < j) (inside : l.toNat ≤ x.length) :
    ∃ m, pickChild fields l tj x = some m ∧ m.toNat = largerChild fields.key l.toNat j f := by
  unfold pickChild largerChild
  by_cases right : 2 * j < l.toNat
  · have less : tj < l := UInt32.lt_iff_toNat_lt.mpr (by omega)
    have width := l.toNat_lt
    have next : (tj + 1).toNat = 2 * j + 1 := by
      rw [UInt32.toNat_add, UInt32.toNat_one]
      omega
    have left : x[(tj - 1).toNat]? = some (f (2 * j)) := by
      rw [toNat_pred (by omega), h _ (by omega)]
      congr 2
      omega
    have other : x[tj.toNat]? = some (f (2 * j + 1)) := by
      rw [h _ (by omega), twice]
    rw [if_pos less, left, other]
    refine ⟨_, rfl, ?_⟩
    by_cases larger : fields.key (f (2 * j)) < fields.key (f (2 * j + 1))
    · rw [if_pos larger, if_pos ⟨right, larger⟩, next]
    · rw [if_neg larger, if_neg fun both => larger both.2, twice]
  · have last : ¬ tj < l := by
      rwa [UInt32.lt_iff_toNat_lt, twice]
    exact ⟨tj, if_neg last, by rw [if_neg fun both => right both.1, twice]⟩

theorem toNat_half (l : UInt32) : (l >>> 1).toNat = l.toNat / 2 := by
  rw [UInt32.toNat_shiftRight, UInt32.toNat_one, Nat.mod_eq_of_lt (by omega),
    Nat.shiftRight_eq_div_pow, pow_one]

theorem siftDown_of_leaf {l j : ℕ} (leaf : l / 2 < j) (f : ℕ → α) :
    siftDown fields.key l j f = f := by
  rw [siftDown, if_neg (by omega)]

theorem restoreLoop_round {l j : UInt32} (rounds : ℕ) (h : Holds x f) (positive : 0 < j.toNat)
    (parent : j.toNat ≤ l.toNat / 2) (inside : l.toNat ≤ x.length) :
    ∃ (next : UInt32) (y : List α) (g : ℕ → α),
      restoreLoop fields l (l >>> 1) (rounds + 1) j x =
        restoreLoop fields l (l >>> 1) rounds next y ∧
      j.toNat < next.toNat ∧ next.toNat ≤ l.toNat ∧ y.length = x.length ∧ Holds y g ∧
      siftDown fields.key l.toNat next.toNat g = siftDown fields.key l.toNat j.toNat f := by
  have half := toNat_half l
  have width := l.toNat_lt
  have twice : (j * 2).toNat = 2 * j.toNat := by
    rw [UInt32.toNat_mul, show (2 : UInt32).toNat = 2 from rfl]
    omega
  obtain ⟨m, pick, place⟩ := pickChild_eq fields h twice positive inside
  have cases := largerChild_cases fields.key l.toNat j.toNat f
  have mm1 : (m - 1).toNat + 1 = m.toNat := by
    rw [toNat_pred (by omega)]
    omega
  have jm1 : (j - 1).toNat + 1 = j.toNat := by
    rw [toNat_pred positive]
    omega
  have child := h (m - 1).toNat (by omega)
  have top := h (j - 1).toNat (by omega)
  rw [mm1] at child
  rw [jm1] at top
  have goesOn : j ≤ l >>> 1 := UInt32.le_iff_toNat_le.mpr (by omega)
  simp only [restoreLoop, if_pos goesOn, pick, child, top, Option.bind_eq_bind, Option.bind_some]
  by_cases less : fields.key (f j.toNat) < fields.key (f m.toNat)
  · obtain ⟨y, run, size, hy⟩ :=
      h.exchange fields (i := (m - 1).toNat) (j := (j - 1).toNat) (by omega) (by omega) (by omega)
    rw [mm1, jm1] at hy
    refine ⟨m, y, _, ?_, by omega, by omega, size, hy, ?_⟩
    · rw [if_pos less, run, Option.bind_some]
    · rw [siftDown.eq_def _ _ j.toNat, if_pos ⟨positive, parent⟩, ← place, if_pos less]
  · refine ⟨l, x, f, if_neg less, by omega, le_rfl, rfl, h, ?_⟩
    rw [siftDown_of_leaf fields (by omega), siftDown, if_pos ⟨positive, parent⟩,
      if_neg (by rwa [← place])]

theorem restoreLoop_eq {l j : UInt32} {rounds : ℕ} (h : Holds x f) (positive : 0 < j.toNat)
    (inside : l.toNat ≤ x.length) (enough : l.toNat + 1 - j.toNat ≤ rounds)
    (nonzero : 0 < rounds) :
    ∃ y, restoreLoop fields l (l >>> 1) rounds j x = some y ∧ y.length = x.length ∧
      Holds y (siftDown fields.key l.toNat j.toNat f) := by
  induction rounds generalizing j x f with
  | zero => omega
  | succ rounds ih =>
      by_cases parent : j.toNat ≤ l.toNat / 2
      · obtain ⟨next, y, g, round, later, last, size, hy, same⟩ :=
          restoreLoop_round fields rounds h positive parent inside
        rw [round, ← same, ← size]
        exact ih hy (by omega) (by omega) (by omega) (by omega)
      · have half := toNat_half l
        have ends : ¬ j ≤ l >>> 1 := by
          rwa [UInt32.le_iff_toNat_le, half]
        rw [siftDown_of_leaf fields (by omega)]
        exact ⟨x, if_neg ends, rfl, h⟩

theorem restoreBy_eq {j l : UInt32} (h : Holds x f) (positive : 0 < j.toNat)
    (inside : l.toNat ≤ x.length) :
    ∃ y, restoreBy fields j l x = some y ∧ y.length = x.length ∧
      Holds y (siftDown fields.key l.toNat j.toNat f) :=
  restoreLoop_eq fields h positive inside (by omega) (Nat.succ_pos _)

theorem restoreBy_heap {j l : UInt32} (h : Holds x f) (positive : 0 < j.toNat)
    (inside : l.toNat ≤ x.length) (behind : HeapFrom fields.key (j.toNat + 1) l.toNat f) :
    ∃ y g, restoreBy fields j l x = some y ∧ Holds y g ∧ Rearranged l.toNat f g ∧
      HeapFrom fields.key j.toNat l.toNat g := by
  have hole : HeapBut fields.key j.toNat l.toNat j.toNat f :=
    ⟨fun c last from_ other => behind c last (by omega), fun c _ _ from_ => by omega⟩
  obtain ⟨y, run, _, hy⟩ := restoreBy_eq fields h positive inside
  obtain ⟨heap, order⟩ := siftDown_spec hole positive
  exact ⟨y, _, run, hy, order, heap⟩

theorem restore_heap {j l : UInt32} {x : List TupleViewsize} {f : ℕ → TupleViewsize}
    (h : Holds x f) (positive : 0 < j.toNat) (inside : l.toNat ≤ x.length)
    (behind : HeapFrom TupleViewsize.viewsize (j.toNat + 1) l.toNat f) :
    ∃ y g, restore j l x = some y ∧ Holds y g ∧ Rearranged l.toNat f g ∧
      HeapFrom TupleViewsize.viewsize j.toNat l.toNat g :=
  restoreBy_heap sizes h positive inside behind

theorem restoreo_heap {j l : UInt32} {x : List TupleOnes} {f : ℕ → TupleOnes}
    (h : Holds x f) (positive : 0 < j.toNat) (inside : l.toNat ≤ x.length)
    (behind : HeapFrom TupleOnes.nOnes (j.toNat + 1) l.toNat f) :
    ∃ y g, restoreo j l x = some y ∧ Holds y g ∧ Rearranged l.toNat f g ∧
      HeapFrom TupleOnes.nOnes j.toNat l.toNat g :=
  restoreBy_heap ones h positive inside behind

end Arrays

section Counters

variable {α : Type} {i : Int32} {k : ℕ}

theorem toNat_toUInt32 (value : i.toInt = k) : i.toUInt32.toNat = k := by
  have nonneg : 0 ≤ i := Int32.le_iff_toInt_le.mpr (by rw [value]; exact Int.natCast_nonneg k)
  rw [Int32.toNat_toUInt32_of_le nonneg, Int32.toNatClampNeg, value, Int.toNat_natCast]

theorem toInt_toInt32 (n : UInt32) : n.toInt32.toInt = (n.toNat : ℤ).bmod (2 ^ 32) :=
  BitVec.toInt_eq_toNat_bmod n.toBitVec

theorem countDown_run {low : ℕ} {body : Int32 → List α → Option (List α)} (positive : 0 < low)
    (inv : ℕ → List α → Prop)
    (round : ∀ (i : Int32) (k : ℕ) (x : List α), i.toInt = (k + 1 : ℕ) → low ≤ k + 1 →
      inv (k + 1) x → ∃ y, body i x = some y ∧ inv k y)
    (value : i.toInt = k) {x : List α} (start : inv k x) :
    ∃ y, countDown low body i x = some y ∧ inv (min k (low - 1)) y := by
  induction k generalizing i x with
  | zero =>
      rw [countDown, dif_neg (by omega)]
      exact ⟨x, rfl, by rwa [Nat.zero_min]⟩
  | succ k ih =>
      by_cases more : low ≤ k + 1
      · obtain ⟨y, run, next⟩ := round i k x value more start
        have down : (i - 1).toInt = k := by
          rw [toInt_pred (show (low : ℤ) ≤ i.toInt by omega)]
          omega
        obtain ⟨z, rest, last⟩ := ih down next
        rw [countDown, dif_pos (by omega), run, Option.bind_eq_bind, Option.bind_some, rest]
        exact ⟨z, rfl, by rwa [show min (k + 1) (low - 1) = min k (low - 1) by omega]⟩
      · rw [countDown, dif_neg (by omega)]
        exact ⟨x, rfl, by rwa [show min (k + 1) (low - 1) = k + 1 by omega]⟩

end Counters

section Sorts

variable {α : Type} (fields : Fields α) {x : List α} {f : ℕ → α} {n : UInt32}

theorem buildLoop_eq (h : Holds x f) (size : x.length = n.toNat) :
    ∃ y, countDown 1 (fun i => restoreBy fields i.toUInt32 n) (n >>> 1).toInt32 x = some y ∧
      y.length = n.toNat ∧ Holds y (buildHeap fields.key n.toNat (n.toNat / 2) f) := by
  have width := n.toNat_lt
  have value : (n >>> 1).toInt32.toInt = (n.toNat / 2 : ℕ) := by
    rw [toInt_toInt32, toNat_half]
    exact Int.bmod_eq_of_le (by omega) (by omega)
  -- the records so far and the sinkings still to come are the whole loop
  let inv (k : ℕ) (y : List α) : Prop :=
    y.length = n.toNat ∧ ∃ g, Holds y g ∧
      buildHeap fields.key n.toNat k g = buildHeap fields.key n.toNat (n.toNat / 2) f
  have round (i : Int32) (k : ℕ) (y : List α) (value : i.toInt = (k + 1 : ℕ)) (_ : 1 ≤ k + 1)
      (now : inv (k + 1) y) : ∃ z, restoreBy fields i.toUInt32 n y = some z ∧ inv k z := by
    obtain ⟨length, g, hy, same⟩ := now
    have position := toNat_toUInt32 value
    obtain ⟨z, run, length', hz⟩ :=
      restoreBy_eq fields hy (j := i.toUInt32) (by omega) (l := n) (by omega)
    rw [position] at hz
    exact ⟨z, run, by omega, _, hz, same⟩
  obtain ⟨y, run, length, g, hy, same⟩ :=
    countDown_run Nat.one_pos inv round value ⟨size, f, h, rfl⟩
  rw [show min (n.toNat / 2) (1 - 1) = 0 by omega] at same
  exact ⟨y, run, length, same ▸ hy⟩

theorem sortDown_of_small {k : ℕ} (small : k ≤ 1) : sortDown fields.key k f = f := by
  obtain rfl | rfl : k = 0 ∨ k = 1 := by omega
  all_goals rfl

theorem sortLoop_eq (h : Holds x f) (size : x.length = n.toNat) (signed : n.toNat < 2 ^ 31) :
    ∃ y, countDown 2 (moveRoot fields) n.toInt32 x = some y ∧ y.length = n.toNat ∧
      Holds y (sortDown fields.key n.toNat f) := by
  have value : n.toInt32.toInt = n.toNat := by
    rw [toInt_toInt32]
    exact Int.bmod_eq_of_le (by omega) (by omega)
  let inv (k : ℕ) (y : List α) : Prop :=
    k ≤ n.toNat ∧ y.length = n.toNat ∧ ∃ g, Holds y g ∧
      sortDown fields.key k g = sortDown fields.key n.toNat f
  have round (i : Int32) (k : ℕ) (y : List α) (value : i.toInt = (k + 1 : ℕ)) (two : 2 ≤ k + 1)
      (now : inv (k + 1) y) : ∃ z, moveRoot fields i y = some z ∧ inv k z := by
    obtain ⟨inside, length, g, hy, same⟩ := now
    obtain ⟨k, rfl⟩ : ∃ j, k = j + 1 := ⟨k - 1, by omega⟩
    have down : (i - 1).toInt = (k + 1 : ℕ) := by
      rw [toInt_pred (show ((2 : ℕ) : ℤ) ≤ i.toInt by omega)]
      omega
    have position := toNat_toUInt32 down
    obtain ⟨z, swapped, length', hz⟩ :=
      hy.exchange fields (i := 0) (j := (i - 1).toUInt32.toNat) (by omega) (by omega)
        (by omega)
    obtain ⟨w, sunk, length'', hw⟩ :=
      restoreBy_eq fields hz (j := 1) (l := (i - 1).toUInt32) Nat.one_pos (by omega)
    rw [position] at hw
    refine ⟨w, ?_, by omega, by omega, _, hw, same⟩
    rw [moveRoot, swapped, Option.bind_eq_bind, Option.bind_some, sunk]
  obtain ⟨y, run, _, length, g, hy, same⟩ :=
    countDown_run Nat.two_pos inv round value ⟨le_rfl, size, f, h, rfl⟩
  rw [sortDown_of_small fields (by omega)] at same
  exact ⟨y, run, length, same ▸ hy⟩

/-- From `2 ^ 31` records on the counter of the second loop starts below zero. -/
theorem heapsortBy_eq (h : Holds x f) (size : x.length = n.toNat) :
    ∃ y, heapsortBy fields x n = some y ∧ y.length = n.toNat ∧
      Holds y (if n.toNat < 2 ^ 31 then heapSort fields.key n.toNat f
        else buildHeap fields.key n.toNat (n.toNat / 2) f) := by
  obtain ⟨y, built, length, hy⟩ := buildLoop_eq fields h size
  rw [heapsortBy, built, Option.bind_eq_bind, Option.bind_some]
  by_cases signed : n.toNat < 2 ^ 31
  · obtain ⟨z, sorted, length', hz⟩ := sortLoop_eq fields hy length signed
    rw [sorted, if_pos signed]
    exact ⟨z, rfl, length', hz⟩
  · have width := n.toNat_lt
    have wrapped : ((n.toNat : ℤ) - (2 ^ 32 : ℕ)).bmod (2 ^ 32) = (n.toNat : ℤ).bmod (2 ^ 32) :=
      Int.sub_bmod_right ..
    have negative : n.toInt32.toInt = n.toNat - (2 ^ 32 : ℕ) := by
      rw [toInt_toInt32, ← wrapped]
      exact Int.bmod_eq_of_le (by omega) (by omega)
    rw [countDown, dif_neg (by omega), if_neg signed]
    exact ⟨y, rfl, length, hy⟩

theorem Holds.eq_map (h : Holds x f) : x = (List.range' 1 x.length).map f := by
  apply List.ext_getElem
  · simp
  · intro i inside _
    have record := h i inside
    rw [List.getElem?_eq_getElem inside, Option.some_inj] at record
    simp [record, Nat.add_comm]

theorem Holds.perm {y : List α} {g : ℕ → α} (hx : Holds x f) (hy : Holds y g)
    (size : y.length = x.length) (order : Rearranged x.length f g) : y.Perm x := by
  have moved := order.perm
  rwa [← hx.eq_map, ← size, ← hy.eq_map] at moved

theorem holds_getD [Inhabited α] (x : List α) : Holds x fun p => x.getD (p - 1) default := by
  intro i inside
  simp [List.getElem?_eq_getElem inside]

theorem heapsortBy_sorted [Inhabited α] (size : x.length = n.toNat) (signed : n.toNat < 2 ^ 31) :
    heapsortBy fields x n = some (sorted fields.key x) := by
  obtain ⟨y, run, length, hy⟩ := heapsortBy_eq fields (holds_getD x) size
  rw [if_pos signed] at hy
  rw [run, hy.eq_map, length, sorted, size]

/-- With more it stays a heap, its largest record in front. -/
theorem heapsortBy_heap [Inhabited α] (size : x.length = n.toNat) (large : 2 ^ 31 ≤ n.toNat) :
    ∃ top rest, heapsortBy fields x n = some (top :: rest) ∧ (top :: rest).Perm x ∧
      ∀ a ∈ rest, fields.key a ≤ fields.key top := by
  obtain ⟨y, run, length, hy⟩ := heapsortBy_eq fields (holds_getD x) size
  rw [if_neg (by omega)] at hy
  have leaves : HeapFrom fields.key (n.toNat / 2 + 1) n.toNat fun p => x.getD (p - 1) default :=
    fun c inside from_ => by omega
  obtain ⟨heap, order⟩ := buildHeap_spec (n.toNat / 2) leaves
  have perm : y.Perm x := (holds_getD x).perm hy (by omega) (size ▸ order)
  obtain _ | ⟨top, rest⟩ := y
  · rw [List.length_nil] at length
    omega
  · refine ⟨top, rest, run, perm, ?_⟩
    intro a ha
    obtain ⟨i, bound, rfl⟩ := List.getElem_of_mem ha
    rw [List.length_cons] at length
    have first := hy 0 (by rw [List.length_cons]; omega)
    have record := hy (i + 1) (by rw [List.length_cons]; omega)
    rw [List.getElem?_cons_succ, List.getElem?_eq_getElem bound, Option.some_inj] at record
    rw [List.getElem?_cons_zero, Option.some_inj] at first
    rw [record, first]
    exact heap.le_root (i + 1 + 1) (by omega) (by omega)

theorem heapsortBy_spec [Inhabited α] (size : x.length = n.toNat) :
    ∃ y, heapsortBy fields x n = some y ∧ y.Perm x ∧
      ((y.Pairwise fun a b => fields.key a ≤ fields.key b) ↔
        n.toNat < 2 ^ 31 ∨ ∀ a ∈ x, ∀ b ∈ x, fields.key a = fields.key b) := by
  by_cases signed : n.toNat < 2 ^ 31
  · refine ⟨_, heapsortBy_sorted fields size signed, sorted_perm x, ?_⟩
    exact iff_of_true (sorted_pairwise x) (.inl signed)
  · obtain ⟨top, rest, run, perm, largest⟩ :=
      heapsortBy_heap fields size (not_lt.mp signed)
    refine ⟨_, run, perm, ?_⟩
    rw [or_iff_right signed]
    constructor
    · intro ascending
      have least := (List.pairwise_cons.mp ascending).1
      have same : ∀ a ∈ x, fields.key a = fields.key top := by
        intro a ha
        obtain rfl | later := List.mem_cons.mp (perm.mem_iff.mpr ha)
        · rfl
        · exact le_antisymm (largest a later) (least a later)
      intro a ha b hb
      rw [same a ha, same b hb]
    · intro same
      refine List.pairwise_of_forall_mem_list ?_
      intro a ha b hb
      exact (same a (perm.subset ha) b (perm.subset hb)).le

theorem vszsort_eq {x : List TupleViewsize} (size : x.length = n.toNat)
    (signed : n.toNat < 2 ^ 31) : vszsort x n = some (DcPartition.vszsort x) :=
  heapsortBy_sorted sizes size signed

theorem onessort_eq {x : List TupleOnes} (size : x.length = n.toNat)
    (signed : n.toNat < 2 ^ 31) : onessort x n = some (DcPartition.onessort x) :=
  heapsortBy_sorted ones size signed

/-- Both sorts end, read and write only the `n` records they are given and leave them in
another order. The keys ascend exactly if there are fewer than `2 ^ 31` records or they all
have one key. -/
theorem heap_sorts (n : UInt32) :
    (∀ x : List TupleViewsize, x.length = n.toNat →
      ∃ y, vszsort x n = some y ∧ y.Perm x ∧
        ((y.Pairwise fun a b => a.viewsize ≤ b.viewsize) ↔
          n.toNat < 2 ^ 31 ∨ ∀ a ∈ x, ∀ b ∈ x, a.viewsize = b.viewsize)) ∧
    ∀ x : List TupleOnes, x.length = n.toNat →
      ∃ y, onessort x n = some y ∧ y.Perm x ∧
        ((y.Pairwise fun a b => a.nOnes ≤ b.nOnes) ↔
          n.toNat < 2 ^ 31 ∨ ∀ a ∈ x, ∀ b ∈ x, a.nOnes = b.nOnes) :=
  ⟨fun _ size => heapsortBy_spec sizes size,
    fun _ size => heapsortBy_spec ones size⟩

theorem heap_sorts_three :
    (∃ y, vszsort [⟨3, 1⟩, ⟨1, 2⟩, ⟨2, 4⟩] 3 = some y ∧
      y.Perm [⟨3, 1⟩, ⟨1, 2⟩, ⟨2, 4⟩] ∧ y.Pairwise fun a b => a.viewsize ≤ b.viewsize) ∧
    ∃ y, onessort [⟨2, 3⟩, ⟨1, 4⟩, ⟨3, 7⟩] 3 = some y ∧
      y.Perm [⟨2, 3⟩, ⟨1, 4⟩, ⟨3, 7⟩] ∧ y.Pairwise fun a b => a.nOnes ≤ b.nOnes := by
  obtain ⟨views, perm, ascending⟩ := (heap_sorts 3).1 [⟨3, 1⟩, ⟨1, 2⟩, ⟨2, 4⟩] rfl
  obtain ⟨tuples, perm', ascending'⟩ := (heap_sorts 3).2 [⟨2, 3⟩, ⟨1, 4⟩, ⟨3, 7⟩] rfl
  exact ⟨⟨views, perm, ascending.1, ascending.2.mpr (.inl (by decide))⟩,
    ⟨tuples, perm', ascending'.1, ascending'.2.mpr (.inl (by decide))⟩⟩

/-- `2 ^ 31` views, of which the first is larger than the others, are not sorted. -/
theorem vszsort_large_unsorted :
    ¬ ∀ (n : UInt32) (x : List TupleViewsize), x.length = n.toNat →
      ∃ y, vszsort x n = some y ∧ y.Perm x ∧
        y.Pairwise fun a b => a.viewsize ≤ b.viewsize := by
  intro all
  let x : List TupleViewsize := ⟨1, 0⟩ :: List.replicate (2 ^ 31 - 1) ⟨0, 0⟩
  have size : x.length = (2147483648 : UInt32).toNat := by
    rw [List.length_cons, List.length_replicate]
    rfl
  obtain ⟨y, run, _, ascending⟩ := all 2147483648 x size
  obtain ⟨z, run', _, exactly⟩ := heapsortBy_spec sizes size
  obtain rfl : z = y := Option.some_inj.mp (run'.symm.trans run)
  obtain small | same := exactly.mp ascending
  · exact absurd small (by decide)
  · have differ := same ⟨1, 0⟩ List.mem_cons_self ⟨0, 0⟩
      (List.mem_cons_of_mem _ (List.mem_replicate.mpr ⟨by omega, rfl⟩))
    exact absurd differ (by decide)

end Sorts

end Baseliner.DcHeapSorts
