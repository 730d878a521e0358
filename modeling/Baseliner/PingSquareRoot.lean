import Baseliner.PingAverages

/-! `llsqrt` with the arithmetic of signed 64-bit numbers checked: an overflow and a division
by zero are `none`. -/

namespace Baseliner.PingSquareRoot

open PingAverages

section Code

/-- `x + y`, which must be representable. -/
def plus (x y : Int64) : Option Int64 :=
  if -2 ^ 63 ≤ x.toInt + y.toInt ∧ x.toInt + y.toInt < 2 ^ 63 then some (x + y) else none

/-- `x / y`; the least number by -1 would overflow. -/
def divide (x y : Int64) : Option Int64 :=
  if y = 0 ∨ x = Int64.minValue ∧ y = -1 then none else some (x / y)

def llsqrtLoop (a prev x : Int64) : Option Int64 :=
  if x < prev then do
    let quotient ← divide a x
    let sum ← plus x quotient
    let half ← divide sum 2
    llsqrtLoop a x half
  else some x
termination_by (prev.toInt + 2 ^ 63).toNat
decreasing_by
  have low := Int64.le_toInt x
  have less := Int64.lt_iff_toInt_lt.mp ‹x < prev›
  omega

def llsqrt (a : Int64) : Option Int64 :=
  if 0 < a then llsqrtLoop a Int64.maxValue a else some a

end Code

section Root

variable {a x : Int64} {A X : ℕ}

theorem divide_eq (a : Int64) (hx : x.toInt = X) (pos : 0 < X) :
    divide a x = some (a / x) := by
  have zero : x ≠ 0 := by
    rintro rfl
    rw [Int64.toInt_zero] at hx
    omega
  have minus : x ≠ -1 := by
    rintro rfl
    have low : (-1 : Int64).toInt = -1 := by decide
    omega
  rw [divide, if_neg]
  rintro (none | ⟨_, one⟩)
  · exact zero none
  · exact minus one

theorem plus_eq (ha : a.toInt = A) (hx : x.toInt = X) (fits : A + X < 2 ^ 63) :
    plus a x = some (a + x) :=
  if_pos ⟨by omega, by omega⟩

theorem llsqrtLoop_eq {prev : Int64} {P : ℕ} (ha : a.toInt = A) (hp : prev.toInt = P)
    (hx : x.toInt = X) (pos : 0 < X) (le : X ≤ A) (small : A ≤ 2 ^ 63 - 2) :
    llsqrtLoop a prev x = some (PingAverages.llsqrtLoop a prev x) := by
  induction P using Nat.strong_induction_on generalizing prev x X with
  | _ P ih =>
      have root : 0 < A.sqrt := Nat.sqrt_pos.mpr (lt_of_lt_of_le pos le)
      rw [llsqrtLoop, PingAverages.llsqrtLoop]
      by_cases less : x < prev
      · have below : X < P := by
          have := Int64.lt_iff_toInt_lt.mp less
          omega
        have bound := NewtonRoot.add_div_le pos le
        have two : (2 : Int64).toInt = (2 : ℕ) := by decide
        rw [if_pos less, if_pos less, divide_eq a hx pos, Option.bind_eq_bind, Option.bind_some,
          plus_eq hx (toInt_quotient ha hx) (by omega), Option.bind_some,
          divide_eq _ two (by omega), Option.bind_some]
        apply ih X below hx (toInt_newton ha hx pos le small)
        · exact lt_of_lt_of_le root (NewtonRoot.sqrt_le_next A pos)
        · have quotient : A / X ≤ A := Nat.div_le_self A X
          unfold NewtonRoot.next
          omega
      · rw [if_neg less, if_neg less]

theorem llsqrt_eq (ha : a.toInt = A) (small : A ≤ 2 ^ 63 - 2) :
    llsqrt a = some (PingAverages.llsqrt a) := by
  unfold llsqrt PingAverages.llsqrt
  by_cases pos : 0 < A
  · have positive : 0 < a := by
      rw [Int64.lt_iff_toInt_lt, ha, Int64.toInt_zero]
      omega
    have max : (Int64.maxValue).toInt = ((2 ^ 63 - 1 : ℕ) : Int) := by decide
    rw [if_pos positive, if_pos positive, llsqrtLoop_eq ha max ha pos le_rfl small]
  · have zero : ¬ 0 < a := by
      rw [Int64.lt_iff_toInt_lt, ha, Int64.toInt_zero]
      omega
    rw [if_neg zero, if_neg zero]

/-- The iteration ends within the range of `long long` at the root, or one above it for a
number one below a square. -/
theorem llsqrt_root (a : Int64) (nonneg : 0 ≤ a.toInt) (small : a.toInt ≤ 2 ^ 63 - 2) :
    ∃ r, llsqrt a = some r ∧ 0 ≤ r.toInt ∧
      (r.toInt * r.toInt ≤ a.toInt ∧ a.toInt < (r.toInt + 1) * (r.toInt + 1) ∨
        r.toInt * r.toInt = a.toInt + 1) := by
  obtain ⟨A, ha⟩ := Int.eq_ofNat_of_zero_le nonneg
  refine ⟨_, llsqrt_eq ha (by omega), ?_⟩
  rw [PingAverages.llsqrt_eq ha (by omega), ha]
  split_ifs with last
  · refine ⟨Int.natCast_nonneg _, .inr ?_⟩
    exact_mod_cast last.2.symm
  · refine ⟨Int.natCast_nonneg _, .inl ⟨?_, ?_⟩⟩
    · exact_mod_cast Nat.sqrt_le A
    · exact_mod_cast Nat.lt_succ_sqrt A

theorem llsqrt_root_eight : ∃ r, llsqrt 8 = some r ∧ 0 ≤ r.toInt ∧
    (r.toInt * r.toInt ≤ 8 ∧ 8 < (r.toInt + 1) * (r.toInt + 1) ∨ r.toInt * r.toInt = 8 + 1) :=
  llsqrt_root 8 (by decide) (by decide)

end Root

end Baseliner.PingSquareRoot
