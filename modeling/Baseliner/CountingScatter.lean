import Mathlib.Algebra.BigOperators.Intervals
import Mathlib.Algebra.Order.BigOperators.Group.Finset
import Mathlib.Data.List.Count
import Baseliner.SharedWrites

/-! The loops of a counting sort on arrays of naturals: tallying, clearing, running
sums, and the scatter of elements to the positions that a pointer for each class
hands out. -/

namespace Baseliner.CountingScatter

open SharedWrites

def tally (f : Nat → Nat) (ks : List Nat) : Nat → Nat :=
  ks.foldl (fun f k => Function.update f k (f k + 1)) f

theorem tally_apply (f : Nat → Nat) (ks : List Nat) (k : Nat) :
    tally f ks k = f k + ks.count k := by
  induction ks generalizing f with
  | nil => rfl
  | cons first rest ih =>
      have step :
          tally f (first :: rest) = tally (Function.update f first (f first + 1)) rest := rfl
      rw [step, ih, List.count_cons]
      by_cases here : k = first
      · subst here
        simp
        omega
      · simp [here, Ne.symm here]

/-- Clears `n` entries from `start` on. -/
def clear (start n : Nat) (f : Nat → Nat) : Nat → Nat :=
  (List.range' start n).foldl (fun f k => Function.update f k 0) f

theorem clear_apply (start n : Nat) (f : Nat → Nat) (k : Nat) :
    clear start n f k = if start ≤ k ∧ k < start + n then 0 else f k := by
  induction n generalizing start f with
  | zero => simp [clear]
  | succ n ih =>
      have step : clear start (n + 1) f = clear (start + 1) n (Function.update f start 0) := by
        rw [clear, clear, List.range'_succ, List.foldl_cons]
      rw [step, ih]
      by_cases here : k = start
      · subst here
        simp
      · have same : (start + 1 ≤ k ∧ k < start + 1 + n) ↔ (start ≤ k ∧ k < start + (n + 1)) := by
          omega
        rw [Function.update_of_ne here]
        simp only [same]

/-- Adds `c` to `n` entries from `start` on. -/
def raise (start n c : Nat) (f : Nat → Nat) : Nat → Nat :=
  (List.range' start n).foldl (fun f k => Function.update f k (f k + c)) f

theorem raise_apply (start n c : Nat) (f : Nat → Nat) (k : Nat) :
    raise start n c f k = if start ≤ k ∧ k < start + n then f k + c else f k := by
  induction n generalizing start f with
  | zero =>
      rw [if_neg (by omega)]
      rfl
  | succ n ih =>
      have step : raise start (n + 1) c f =
          raise (start + 1) n c (Function.update f start (f start + c)) := by
        rw [raise, raise, List.range'_succ, List.foldl_cons]
      rw [step, ih]
      by_cases here : k = start
      · subst here
        rw [if_neg (by omega), if_pos (by omega), Function.update_self]
      · have same : (start + 1 ≤ k ∧ k < start + 1 + n) ↔ (start ≤ k ∧ k < start + (n + 1)) := by
          omega
        rw [Function.update_of_ne here]
        simp only [same]

/-- Adds to each of the `n` entries behind `start` the one before it. -/
def prefixSums (start n : Nat) (f : Nat → Nat) : Nat → Nat :=
  (List.range' (start + 1) n).foldl (fun f k => Function.update f k (f k + f (k - 1))) f

theorem prefixSums_succ (start n : Nat) (f : Nat → Nat) :
    prefixSums start (n + 1) f =
      Function.update (prefixSums start n f) (start + 1 + n)
        (prefixSums start n f (start + 1 + n) + prefixSums start n f (start + n)) := by
  have last : start + 1 + n - 1 = start + n := by omega
  rw [prefixSums, List.range'_concat, List.foldl_append, Nat.one_mul, List.foldl_cons,
    List.foldl_nil, last]
  rfl

theorem prefixSums_outside (start n : Nat) (f : Nat → Nat) {k : Nat}
    (outside : k ≤ start ∨ start + n < k) : prefixSums start n f k = f k := by
  induction n with
  | zero => rfl
  | succ n ih =>
      have other : k ≠ start + 1 + n := by omega
      rw [prefixSums_succ, Function.update_of_ne other, ih (by omega)]

theorem prefixSums_apply (start n : Nat) (f : Nat → Nat) {k : Nat} (low : start ≤ k)
    (high : k ≤ start + n) : prefixSums start n f k = ∑ j ∈ Finset.Ico start (k + 1), f j := by
  induction n generalizing k with
  | zero =>
      have here : k = start := by omega
      subst here
      rw [prefixSums_outside _ _ _ (.inl le_rfl)]
      simp
  | succ n ih =>
      rw [prefixSums_succ]
      by_cases last : k = start + 1 + n
      · subst last
        have before : start + n + 1 = start + 1 + n := by omega
        rw [Function.update_self, prefixSums_outside start n f (.inr (by omega)),
          ih (by omega) le_rfl, before, Finset.sum_Ico_succ_top (by omega), Nat.add_comm]
      · rw [Function.update_of_ne last, ih low (by omega)]

theorem sum_countP {α : Type*} (cls : α → Nat) (xs : List α) (low high : Nat) :
    ∑ b ∈ Finset.Ico low high, (xs.countP fun x => cls x = b) =
      xs.countP fun x => low ≤ cls x ∧ cls x < high := by
  induction xs with
  | nil => simp
  | cons x xs ih =>
      simp only [List.countP_cons, Finset.sum_add_distrib, ih, decide_eq_true_eq,
        Finset.sum_ite_eq, Finset.mem_Ico]

theorem sum_count (xs : List Nat) (low high : Nat) :
    ∑ j ∈ Finset.Ico low high, xs.count j = xs.countP fun x => low ≤ x ∧ x < high :=
  sum_countP id xs low high

theorem countP_lt_add (xs : List Nat) {low high : Nat} (h : low ≤ high) :
    (xs.countP fun x => x < low) + (xs.countP fun x => low ≤ x ∧ x < high) =
      xs.countP fun x => x < high := by
  have upTo (b : Nat) := sum_count xs 0 b
  simp only [Nat.zero_le, true_and] at upTo
  rw [← upTo, ← upTo, ← sum_count, Finset.sum_Ico_consecutive _ (Nat.zero_le _) h]

section Scatter

variable {α : Type*} {cls : α → Nat}

/-- Stores each element where the pointer of its class stands, and moves it. -/
def scatter (cls : α → Nat) : (Nat → Nat) → List α → List (Nat × α) × (Nat → Nat)
  | ptrs, [] => ([], ptrs)
  | ptrs, x :: xs =>
      let (writes, last) := scatter cls (Function.update ptrs (cls x) (ptrs (cls x) + 1)) xs
      ((ptrs (cls x), x) :: writes, last)

theorem scatter_snd (ptrs : Nat → Nat) (xs : List α) (b : Nat) :
    (scatter cls ptrs xs).2 b = ptrs b + xs.countP fun x => cls x = b := by
  induction xs generalizing ptrs with
  | nil => simp [scatter]
  | cons x xs ih =>
      rw [scatter, ih, List.countP_cons]
      by_cases here : cls x = b
      · subst here
        simp
        omega
      · simp [here, Ne.symm here]

theorem scatter_append (ptrs : Nat → Nat) (xs ys : List α) :
    scatter cls ptrs (xs ++ ys) =
      ((scatter cls ptrs xs).1 ++ (scatter cls (scatter cls ptrs xs).2 ys).1,
        (scatter cls (scatter cls ptrs xs).2 ys).2) := by
  induction xs generalizing ptrs with
  | nil => rfl
  | cons x xs ih => simp only [List.cons_append, scatter, ih]

theorem map_snd_scatter (cls : α → Nat) (ptrs : Nat → Nat) (xs : List α) :
    (scatter cls ptrs xs).1.map Prod.snd = xs := by
  induction xs generalizing ptrs with
  | nil => rfl
  | cons x xs ih => simp only [scatter, List.map_cons, ih]

theorem scatter_bounds {ptrs : Nat → Nat} {xs : List α} {w : Nat × α}
    (h : w ∈ (scatter cls ptrs xs).1) :
    ptrs (cls w.2) ≤ w.1 ∧ w.1 < ptrs (cls w.2) + xs.countP fun x => cls x = cls w.2 := by
  induction xs generalizing ptrs with
  | nil => simp [scatter] at h
  | cons x xs ih =>
      simp only [scatter, List.mem_cons] at h
      rw [List.countP_cons]
      rcases h with rfl | later
      · simp
      · have bounds := ih later
        by_cases here : cls w.2 = cls x
        · simp only [here, Function.update_self, decide_true, if_true] at bounds ⊢
          omega
        · simp only [ne_eq, here, not_false_eq_true, Function.update_of_ne, Ne.symm here,
            decide_false, Bool.false_eq_true, if_false] at bounds ⊢
          omega

theorem nodup_scatter {ptrs : Nat → Nat} {xs : List α}
    (apart : ∀ b c, b < c → ptrs b + (xs.countP fun x => cls x = b) ≤ ptrs c) :
    ((scatter cls ptrs xs).1.map Prod.fst).Nodup := by
  induction xs generalizing ptrs with
  | nil => simp [scatter]
  | cons x xs ih =>
      have rest : ∀ b c, b < c → Function.update ptrs (cls x) (ptrs (cls x) + 1) b +
          (xs.countP fun x => cls x = b) ≤ Function.update ptrs (cls x) (ptrs (cls x) + 1) c := by
        intro b c below
        have room := apart b c below
        rw [List.countP_cons] at room
        by_cases isB : b = cls x
        · subst isB
          have other : c ≠ cls x := by omega
          simp only [Function.update_self, Function.update_of_ne other, decide_true, if_true]
            at room ⊢
          omega
        · have notB : ¬ cls x = b := fun e => isB e.symm
          simp only [notB, decide_false, Bool.false_eq_true, if_false] at room
          rw [Function.update_of_ne isB]
          by_cases isC : c = cls x
          · subst isC
            rw [Function.update_self]
            omega
          · rw [Function.update_of_ne isC]
            exact room
      simp only [scatter, List.map_cons, List.nodup_cons]
      refine ⟨?_, ih rest⟩
      intro again
      obtain ⟨w, hw, same⟩ := List.mem_map.mp again
      have bounds := scatter_bounds hw
      by_cases here : cls w.2 = cls x
      · rw [here, Function.update_self] at bounds
        omega
      · rw [Function.update_of_ne here] at bounds
        rcases Nat.lt_or_gt_of_ne here with below | above
        · have room := apart _ _ below
          have notHere : ¬ cls x = cls w.2 := fun e => here e.symm
          rw [List.countP_cons] at room
          simp only [notHere, decide_false, Bool.false_eq_true, if_false] at room
          omega
        · have room := apart _ _ above
          rw [List.countP_cons] at room
          simp only [decide_true, if_true] at room
          omega

end Scatter

end Baseliner.CountingScatter
