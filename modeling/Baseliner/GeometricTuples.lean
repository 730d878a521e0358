import Mathlib.NumberTheory.LucasPrimality
import Mathlib.FieldTheory.Finite.Basic
import Mathlib.Data.Nat.Factorization.Basic

/-! Tuples of geometric sequences, each modulo a prime of its own. Two tuples agree
when the distance of their indices is a multiple of all orders, so as many of the
first ones are distinct as the least common multiple of the orders allows. -/

namespace Baseliner.GeometricTuples

section Period

variable {α : Type*} [DecidableEq α] {f : ℕ → α} {L : ℕ}

theorem card_image_range (positive : 0 < L) (period : ∀ s t, f s = f t ↔ s ≡ t [MOD L]) (n : ℕ) :
    ((Finset.range n).image f).card = min n L := by
  have first : (Finset.range n).image f = (Finset.range (min n L)).image f := by
    ext x
    simp only [Finset.mem_image, Finset.mem_range]
    constructor
    · rintro ⟨t, below, rfl⟩
      have reduced : t % L < L := Nat.mod_lt t positive
      have smaller : t % L ≤ t := Nat.mod_le t L
      exact ⟨t % L, by omega, (period _ _).mpr (Nat.mod_modEq t L)⟩
    · rintro ⟨t, below, rfl⟩
      exact ⟨t, by omega, rfl⟩
  rw [first, Finset.card_image_of_injOn, Finset.card_range]
  intro s hs t ht same
  simp only [Finset.coe_range, Set.mem_Iio] at hs ht
  have close := (period s t).mp same
  rwa [Nat.ModEq, Nat.mod_eq_of_lt (by omega), Nat.mod_eq_of_lt (by omega)] at close

end Period

section Orders

def lcmAll (orders : List ℕ) : ℕ := orders.foldl Nat.lcm 1

theorem foldl_lcm_dvd_iff (orders : List ℕ) (L m : ℕ) :
    orders.foldl Nat.lcm L ∣ m ↔ L ∣ m ∧ ∀ k ∈ orders, k ∣ m := by
  induction orders generalizing L with
  | nil => simp
  | cons k rest ih =>
      rw [List.foldl_cons, ih, Nat.lcm_dvd_iff, List.forall_mem_cons, and_assoc]

theorem lcmAll_dvd_iff {orders : List ℕ} {m : ℕ} : lcmAll orders ∣ m ↔ ∀ k ∈ orders, k ∣ m := by
  rw [lcmAll, foldl_lcm_dvd_iff]
  simp

theorem lcmAll_congr {first second : List ℕ} (same : ∀ k, k ∈ first ↔ k ∈ second) :
    lcmAll first = lcmAll second := by
  refine Nat.dvd_antisymm (lcmAll_dvd_iff.mpr ?_) (lcmAll_dvd_iff.mpr ?_)
  · intro k hk
    exact lcmAll_dvd_iff.mp dvd_rfl k ((same k).mp hk)
  · intro k hk
    exact lcmAll_dvd_iff.mp dvd_rfl k ((same k).mpr hk)

theorem foldl_lcm_pos {orders : List ℕ} {L : ℕ} (start : 0 < L) (positive : ∀ k ∈ orders, 0 < k) :
    0 < orders.foldl Nat.lcm L := by
  induction orders generalizing L with
  | nil => exact start
  | cons k rest ih =>
      rw [List.forall_mem_cons] at positive
      exact ih (Nat.lcm_pos start positive.1) positive.2

theorem lcmAll_pos {orders : List ℕ} (positive : ∀ k ∈ orders, 0 < k) : 0 < lcmAll orders :=
  foldl_lcm_pos Nat.one_pos positive

theorem modEq_lcmAll_iff {orders : List ℕ} {s t : ℕ} :
    s ≡ t [MOD lcmAll orders] ↔ ∀ k ∈ orders, s ≡ t [MOD k] := by
  simp only [Nat.modEq_iff_dvd, Int.natCast_dvd]
  exact lcmAll_dvd_iff

theorem prime_and_orderOf {p g : ℕ} (positive : 0 < p - 1) (whole : g ^ (p - 1) % p = 1 % p)
    (parts : ∀ q : ℕ, q.Prime → q ∣ p - 1 → g ^ ((p - 1) / q) % p ≠ 1 % p) :
    p.Prime ∧ orderOf (g : ZMod p) = p - 1 := by
  have power (k : ℕ) : (g : ZMod p) ^ k = 1 ↔ g ^ k % p = 1 % p := by
    have cast := ZMod.natCast_eq_natCast_iff (g ^ k) 1 p
    rwa [Nat.cast_pow, Nat.cast_one] at cast
  have one := (power (p - 1)).mpr whole
  have less : ∀ q : ℕ, q.Prime → q ∣ p - 1 → (g : ZMod p) ^ ((p - 1) / q) ≠ 1 := by
    intro q prime divides
    rw [Ne, power]
    exact parts q prime divides
  exact ⟨lucas_primality p g one less, orderOf_eq_of_pow_and_pow_div_prime positive one less⟩

theorem orderOf_power {p g e : ℕ} (order : orderOf (g : ZMod p) = p - 1) (some : e ≠ 0) :
    orderOf ((g ^ e : ℕ) : ZMod p) = (p - 1) / Nat.gcd (p - 1) e := by
  rw [Nat.cast_pow, orderOf_pow' _ some, order]

theorem geometric_eq_iff {p a g : ℕ} (prime : p.Prime) (start : (a : ZMod p) ≠ 0)
    (factor : (g : ZMod p) ≠ 0) (s t : ℕ) :
    a * g ^ s % p = a * g ^ t % p ↔ s ≡ t [MOD orderOf (g : ZMod p)] := by
  have : Fact p.Prime := ⟨prime⟩
  have cast := ZMod.natCast_eq_natCast_iff (a * g ^ s) (a * g ^ t) p
  have unit := @pow_eq_pow_iff_modEq _ _ (Units.mk0 (g : ZMod p) factor) t s
  rw [← orderOf_units, Units.ext_iff, Units.val_pow_eq_pow_val, Units.val_pow_eq_pow_val,
    Units.val_mk0] at unit
  rw [← Nat.ModEq, ← cast, Nat.cast_mul, Nat.cast_mul, Nat.cast_pow, Nat.cast_pow,
    mul_right_inj' start, ← unit]

end Orders

section Exponents

theorem prod_factorization {n bound : ℕ} (nonzero : n ≠ 0)
    (small : ∀ q : ℕ, q.Prime → q ∣ n → q < bound) :
    ((List.range bound).map fun q => q ^ n.factorization q).prod = n := by
  have support : n.factorization.support ⊆ Finset.range bound := by
    intro q hq
    rw [Nat.support_factorization, Nat.mem_primeFactors] at hq
    exact Finset.mem_range.mpr (small q hq.1 hq.2.1)
  calc ((List.range bound).map fun q => q ^ n.factorization q).prod
      = ∏ q ∈ Finset.range bound, q ^ n.factorization q := by
        rw [← List.toFinset_range, List.prod_toFinset _ List.nodup_range]
    _ = n.factorization.prod (· ^ ·) :=
        (Finsupp.prod_of_support_subset _ support _ (by intro q _; exact pow_zero q)).symm
    _ = n := Nat.prod_factorization_pow_eq_self nonzero

theorem factorization_div_gcd {m e : ℕ} (hm : m ≠ 0) (he : e ≠ 0) (q : ℕ) :
    (m / Nat.gcd m e).factorization q = m.factorization q - e.factorization q := by
  rw [Nat.factorization_div (Nat.gcd_dvd_left m e), Nat.factorization_gcd hm he,
    Finsupp.tsub_apply, Finsupp.inf_apply]
  omega

end Exponents

end Baseliner.GeometricTuples
