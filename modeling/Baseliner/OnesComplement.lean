import Mathlib.Algebra.BigOperators.Group.List.Basic
import Mathlib.Algebra.Order.Ring.Int
import Mathlib.Data.Nat.Basic

/-! Sums of 16-bit words with the carry added back at the end. Folding keeps the residue modulo
65535, and of the two zeros it gives 0 for an empty sum only. -/

namespace Baseliner.OnesComplement

/-- The high half is added to the low half, and the carry of that once more. -/
def fold (x : ℕ) : ℕ :=
  let y := x / 65536 + x % 65536
  (y + y / 65536) % 65536

theorem fold_eq {x : ℕ} (small : x < 2 ^ 32) :
    fold x = if x = 0 then 0 else (x - 1) % 65535 + 1 := by
  obtain ⟨high, low, split, le, lt⟩ : ∃ high low, x = 65536 * high + low ∧ high ≤ 65535 ∧
      low < 65536 := ⟨x / 65536, x % 65536, by omega, by omega, by omega⟩
  have quotient : x / 65536 = high := by omega
  have rest : x % 65536 = low := by omega
  simp only [fold, quotient, rest]
  split_ifs with zero
  · omega
  · by_cases carry : high + low < 65536
    · have residue : (x - 1) % 65535 = high + low - 1 := by omega
      omega
    · have residue : (x - 1) % 65535 = high + low - 65536 := by omega
      omega

theorem fold_le {x : ℕ} (small : x < 2 ^ 32) : fold x ≤ 65535 := by
  rw [fold_eq small]
  split_ifs <;> omega

theorem fold_fold_add {x y : ℕ} (small : x + y < 2 ^ 31) : fold (fold x + y) = fold (x + y) := by
  have first := fold_eq (show x < 2 ^ 32 by omega)
  have le := fold_le (show x < 2 ^ 32 by omega)
  rw [fold_eq (show fold x + y < 2 ^ 32 by omega), fold_eq (show x + y < 2 ^ 32 by omega)]
  split_ifs at first ⊢ <;> omega

theorem fold_complement {x : ℕ} (small : x + 65535 < 2 ^ 32) :
    fold (x + (65535 - fold x)) = 65535 := by
  have own := fold_eq (show x < 2 ^ 32 by omega)
  rw [fold_eq (by omega)]
  split_ifs at own ⊢ <;> omega

theorem fold_full {x : ℕ} (small : x < 2 ^ 32) : fold x = 65535 ↔ x ≠ 0 ∧ x % 65535 = 0 := by
  rw [fold_eq small]
  split_ifs with zero
  · exact ⟨fun h => absurd h (by decide), fun h => absurd zero h.1⟩
  · constructor
    · intro h
      exact ⟨zero, by omega⟩
    · intro h
      omega

def onesAdd (x y : ℕ) : ℕ := if x + y < 65536 then x + y else x + y - 65535

def onesSum (words : List ℕ) : ℕ := words.foldl onesAdd 0

theorem onesAdd_eq_fold {x y : ℕ} (hx : x ≤ 65535) (hy : y ≤ 65535) :
    onesAdd x y = fold (x + y) := by
  rw [fold_eq (by omega), onesAdd]
  split_ifs <;> omega

theorem foldl_onesAdd (words : List ℕ) (acc : ℕ) (start : acc ≤ 65535)
    (small : ∀ w ∈ words, w ≤ 65535) (fits : acc + words.sum < 2 ^ 31) :
    words.foldl onesAdd acc = fold (acc + words.sum) := by
  induction words generalizing acc with
  | nil =>
      rw [List.foldl_nil, List.sum_nil, Nat.add_zero, fold_eq (by omega)]
      split_ifs <;> omega
  | cons w rest ih =>
      have le := small w List.mem_cons_self
      rw [List.sum_cons] at fits ⊢
      have carried := onesAdd_eq_fold start le
      have word := fold_le (show acc + w < 2 ^ 32 by omega)
      have total := fold_fold_add (x := acc + w) (y := rest.sum) (by omega)
      have grown : fold (acc + w) ≤ acc + w := by
        rw [fold_eq (by omega)]
        split_ifs <;> omega
      rw [List.foldl_cons, carried, ih (fold (acc + w)) word
        (fun v member => small v (List.mem_cons_of_mem w member)) (by omega), total, Nat.add_assoc]

theorem onesSum_eq_fold {words : List ℕ} (small : ∀ w ∈ words, w ≤ 65535)
    (fits : words.sum < 2 ^ 31) : onesSum words = fold words.sum := by
  rw [onesSum, foldl_onesAdd words 0 (by omega) small (by omega), Nat.zero_add]

end Baseliner.OnesComplement
