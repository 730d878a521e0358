import Mathlib.NumberTheory.Bertrand
import Mathlib.Data.Nat.Size
import Mathlib.Data.Nat.Factorization.Basic

/-! The table of factorizations of the DC benchmark: `ListFirstPrimes` finds the primes
by trial division, `GetFactorization` enters one number after the other, and
`ExtendFactors` takes the factors of a quotient over. -/

namespace Baseliner.AdcFactors

/-- The loop over the primes up to the root of a number, with the first that divides
it. A loop that runs past the listed primes divides by zero, which is `none`. -/
def trialDivisor (nmb : Nat) : List Nat → Option (Option Nat)
  | [] => none
  | pr :: prlist =>
      if pr * pr ≤ nmb then
        if nmb - pr * (nmb / pr) = 0 then some (some pr) else trialDivisor nmb prlist
      else some none

/-- One number of `ListFirstPrimes`. -/
def listStep (prlist : List Nat) (nmb : Nat) : Option (List Nat) :=
  (trialDivisor nmb prlist).map fun composed =>
    if composed.isNone then prlist ++ [nmb] else prlist

def listFirstPrimes (mpr : Nat) : Option (List Nat) :=
  (List.range' 8 (mpr - 8)).foldlM listStep [2, 3, 5, 7]

/-- `mlt` and `exp`, entry by entry; `dim` is the length. -/
abbrev Factorization := List (Nat × Nat)

/-- An assignment to an entry; at least one entry is allocated. -/
def store (fct : Factorization) (j : Nat) (entry : Nat × Nat) : Option Factorization :=
  if j < max fct.length 1 then some (fct.set j entry) else none

/-- The loop of `ExtendFactors` over the entries of `divfct` from `i` on. -/
def extendLoop (firstdiv : Nat) :
    Factorization → (i : Nat) → (fdivused : Bool) → (multnum : Nat) → Factorization →
      Option Factorization
  | [], _, _, _, nmbfct => some nmbfct
  | (mlt, exp) :: divfct, i, fdivused, multnum, nmbfct =>
      if mlt = 1 then
        if fdivused then some nmbfct else store nmbfct multnum (firstdiv, 1)
      else if mlt < firstdiv then
        (store nmbfct i (mlt, exp)).bind (extendLoop firstdiv divfct (i + 1) fdivused (multnum + 1))
      else if mlt = firstdiv then
        (store nmbfct i (mlt, exp + 1)).bind (extendLoop firstdiv divfct (i + 1) true multnum)
      else
        (store nmbfct (if fdivused then i else i + 1) (mlt, exp)).bind
          (extendLoop firstdiv divfct (i + 1) fdivused multnum)

def extendFactors (nmb firstdiv : Nat) (nmbfct : Factorization)
    (fctlist : Nat → Option Factorization) : Option Factorization :=
  (fctlist (nmb / firstdiv)).bind fun divfct => extendLoop firstdiv divfct 0 false 0 nmbfct

/-- The entry of number `i`; `dim` is its number of binary digits. -/
def factorize (prlist : List Nat) (fctlist : Nat → Option Factorization) (i : Nat) :
    Option Factorization :=
  let fct := List.replicate i.size (1, 0)
  match trialDivisor i prlist with
  | none => none
  | some none => store fct 0 (i, 1)
  | some (some firstdiv) =>
      if firstdiv * firstdiv = i then store fct 0 (firstdiv, 2)
      else extendFactors i firstdiv fct fctlist

def factorStep (prlist : List Nat) (fctlist : Nat → Option Factorization) (i : Nat) :
    Option (Nat → Option Factorization) :=
  (factorize prlist fctlist i).map fun fct => Function.update fctlist i (some fct)

/-- The entries of 2 and 3 are made first and made again by the loop. -/
def getFactorization (prlist : List Nat) : Option (Nat → Option Factorization) :=
  let fctlist : Nat → Option Factorization :=
    Function.update (fun _ => none) 2 (some [(2, 1), (1, 0)])
  let fctlist := Function.update fctlist 3 (some [(3, 1), (1, 0)])
  (List.range (prlist.getLastD 0)).foldlM (factorStep prlist) fctlist

section Primes

def primesBelow (n : Nat) : List Nat := (List.range n).filter fun q => q.Prime

theorem mem_primesBelow {n q : Nat} : q ∈ primesBelow n ↔ q < n ∧ q.Prime := by
  simp [primesBelow]

theorem primesBelow_succ (n : Nat) :
    primesBelow (n + 1) = if n.Prime then primesBelow n ++ [n] else primesBelow n := by
  rw [primesBelow, primesBelow, List.range_succ, List.filter_append]
  split_ifs with prime <;> simp [prime]

theorem sub_mul_div_eq_zero_iff {nmb pr : Nat} : nmb - pr * (nmb / pr) = 0 ↔ pr ∣ nmb := by
  have division := Nat.div_add_mod nmb pr
  rw [Nat.dvd_iff_mod_eq_zero]
  omega

theorem trialDivisor_eq {nmb : Nat} {prlist : List Nat} (ascending : prlist.Pairwise (· < ·))
    (beyond : ∃ pr ∈ prlist, nmb < pr * pr) :
    trialDivisor nmb prlist = some (prlist.find? fun pr => pr * pr ≤ nmb ∧ pr ∣ nmb) := by
  induction prlist with
  | nil => simp at beyond
  | cons pr rest ih =>
      rw [List.pairwise_cons] at ascending
      rw [trialDivisor]
      by_cases below : pr * pr ≤ nmb
      · have later : ∃ q ∈ rest, nmb < q * q := by
          obtain ⟨q, hq, large⟩ := beyond
          rcases List.mem_cons.mp hq with rfl | inRest
          · omega
          · exact ⟨q, inRest, large⟩
        by_cases divides : pr ∣ nmb
        · simp [below, divides, sub_mul_div_eq_zero_iff.mpr divides]
        · have other := mt sub_mul_div_eq_zero_iff.mp divides
          simp [below, divides, other, ih ascending.2 later]
      · have none : (pr :: rest).find? (fun q => q * q ≤ nmb ∧ q ∣ nmb) = none := by
          rw [List.find?_eq_none]
          intro q hq small
          simp only [decide_eq_true_eq] at small
          rcases List.mem_cons.mp hq with rfl | inRest
          · omega
          · have above := Nat.mul_le_mul (ascending.1 q inRest).le (ascending.1 q inRest).le
            omega
        rw [if_neg below, none]

theorem prime_of_find {nmb bound : Nat} (two : 2 ≤ nmb)
    (found : (primesBelow bound).find? (fun pr => pr * pr ≤ nmb ∧ pr ∣ nmb) = none)
    (enough : ∀ q, q.Prime → q * q ≤ nmb → q < bound) : nmb.Prime := by
  by_contra composite
  have prime := Nat.minFac_prime (show nmb ≠ 1 by omega)
  have small : nmb.minFac * nmb.minFac ≤ nmb := by
    have := Nat.minFac_sq_le_self (by omega) composite
    rwa [pow_two] at this
  rw [List.find?_eq_none] at found
  refine found nmb.minFac (mem_primesBelow.mpr ⟨enough _ prime small, prime⟩) ?_
  simp [small, Nat.minFac_dvd]

theorem primesBelow_ascending (n : Nat) : (primesBelow n).Pairwise (· < ·) :=
  List.pairwise_lt_range.filter _

theorem find_least {prlist : List Nat} (ascending : prlist.Pairwise (· < ·)) {P : Nat → Bool}
    {q r : Nat} (found : prlist.find? P = some q) (listed : r ∈ prlist) (fits : P r = true) :
    q ≤ r := by
  induction prlist with
  | nil => cases listed
  | cons pr rest ih =>
      rw [List.pairwise_cons] at ascending
      cases here : P pr with
      | true =>
          rw [List.find?_cons_of_pos here, Option.some.injEq] at found
          rcases List.mem_cons.mp listed with rfl | later
          · omega
          · have := ascending.1 r later
            omega
      | false =>
          rw [List.find?_cons_of_neg (by simp [here])] at found
          rcases List.mem_cons.mp listed with rfl | later
          · rw [here] at fits
            cases fits
          · exact ih ascending.2 found later

theorem exists_prime_past_root {n : Nat} (positive : 0 < n) :
    ∃ pr, pr.Prime ∧ n < pr * pr ∧ pr * pr ≤ 4 * n ∧ pr ≤ 2 * n.sqrt := by
  have root := Nat.sqrt_le n
  have past : n < (n.sqrt + 1) * (n.sqrt + 1) := Nat.lt_succ_sqrt n
  have one : 1 ≤ n.sqrt := Nat.le_sqrt.mpr (by omega)
  obtain ⟨pr, prime, above, twice⟩ := Nat.exists_prime_lt_and_le_two_mul n.sqrt (by omega)
  have larger : (n.sqrt + 1) * (n.sqrt + 1) ≤ pr * pr := Nat.mul_le_mul above above
  have smaller : pr * pr ≤ 2 * n.sqrt * (2 * n.sqrt) := Nat.mul_le_mul twice twice
  have four : 2 * n.sqrt * (2 * n.sqrt) = 4 * (n.sqrt * n.sqrt) := Nat.mul_mul_mul_comm ..
  exact ⟨pr, prime, by omega, by omega, twice⟩

theorem exists_listed_past_root {n : Nat} (eight : 8 ≤ n) :
    ∃ pr ∈ primesBelow n, n < pr * pr ∧ pr * pr ≤ 4 * n := by
  obtain ⟨pr, prime, above, below, twice⟩ := exists_prime_past_root (show 0 < n by omega)
  refine ⟨pr, mem_primesBelow.mpr ⟨?_, prime⟩, above, below⟩
  have root := Nat.sqrt_le n
  by_contra large
  by_cases three : n.sqrt ≤ 2
  · have square := Nat.lt_succ_sqrt n
    have nine := Nat.mul_le_mul (Nat.succ_le_succ three) (Nat.succ_le_succ three)
    omega
  · have product : 3 * n.sqrt ≤ n.sqrt * n.sqrt := Nat.mul_le_mul_right _ (by omega)
    omega

/-- The loop stops before it squares a prime that is large for the number. -/
theorem trialDivisor_squares {n bound : Nat} (eight : 8 ≤ n) (inside : n ≤ bound) :
    trialDivisor n ((primesBelow bound).filter fun pr => pr * pr ≤ 4 * n) =
      trialDivisor n (primesBelow bound) := by
  obtain ⟨pr, listed, above, below⟩ := exists_listed_past_root eight
  have prime := mem_primesBelow.mp listed
  have member : pr ∈ primesBelow bound := mem_primesBelow.mpr ⟨by omega, prime.2⟩
  have ascending := primesBelow_ascending bound
  rw [trialDivisor_eq ascending ⟨pr, member, above⟩,
    trialDivisor_eq (ascending.filter _) ⟨pr, List.mem_filter.mpr ⟨member, by simp [below]⟩, above⟩,
    List.find?_filter]
  congr 2
  funext q
  by_cases small : q * q ≤ n
  · simp [small, show q * q ≤ 4 * n by omega]
  · simp [small]

theorem listStep_primesBelow {n : Nat} (eight : 8 ≤ n) :
    listStep (primesBelow n) n = some (primesBelow (n + 1)) := by
  have beyond : ∃ pr ∈ primesBelow n, n < pr * pr := by
    obtain ⟨pr, listed, above, _⟩ := exists_listed_past_root eight
    exact ⟨pr, listed, above⟩
  rw [listStep, trialDivisor_eq (primesBelow_ascending n) beyond, primesBelow_succ, Option.map_some]
  congr 1
  cases found : (primesBelow n).find? (fun pr => pr * pr ≤ n ∧ pr ∣ n) with
  | none =>
      have prime : n.Prime := by
        refine prime_of_find (by omega) found ?_
        intro q hq small
        have := Nat.mul_le_mul_right q hq.two_le
        omega
      simp [prime]
  | some q =>
      have divisor := List.find?_some found
      have listed := mem_primesBelow.mp (List.mem_of_find?_eq_some found)
      simp only [decide_eq_true_eq] at divisor
      have composite : ¬ n.Prime := by
        intro prime
        rcases (Nat.dvd_prime prime).mp divisor.2 with one | whole
        · exact listed.2.one_lt.ne' one
        · omega
      simp [composite]

theorem listFirstPrimes_eq {mpr : Nat} (eight : 8 ≤ mpr) :
    listFirstPrimes mpr = some (primesBelow mpr) := by
  have first : primesBelow 8 = [2, 3, 5, 7] := by decide
  have run : ∀ n,
      (List.range' 8 n).foldlM listStep (primesBelow 8) = some (primesBelow (8 + n)) := by
    intro n
    induction n with
    | zero => rfl
    | succ n ih =>
        rw [List.range'_concat, List.foldlM_append, ih]
        simp [listStep_primesBelow (show 8 ≤ 8 + n by omega), Nat.add_assoc]
  rw [listFirstPrimes, ← first, run]
  congr 2
  omega

end Primes

section Factors

structure Lists (fs : Factorization) (n : Nat) : Prop where
  ascending : fs.Pairwise fun x y => x.1 < y.1
  mem_iff : ∀ q e, (q, e) ∈ fs ↔ q.Prime ∧ 0 < e ∧ n.factorization q = e

/-- An entry of the table: the factors of its number, and at least one filler. -/
def Factors (fct : Factorization) (n : Nat) : Prop :=
  ∃ fs k, fct = fs ++ List.replicate (k + 1) (1, 0) ∧ Lists fs n

namespace Lists

variable {fs : Factorization} {n : Nat}

theorem nodup (h : Lists fs n) : (fs.map Prod.fst).Nodup := by
  rw [List.Nodup, List.pairwise_map]
  exact h.ascending.imp Nat.ne_of_lt

theorem toFinset_eq (h : Lists fs n) (positive : n ≠ 0) :
    (fs.map Prod.fst).toFinset = n.primeFactors := by
  ext q
  simp only [List.mem_toFinset, List.mem_map, Prod.exists, exists_and_right, exists_eq_right,
    h.mem_iff, Nat.mem_primeFactors]
  constructor
  · rintro ⟨e, prime, some, rfl⟩
    exact ⟨prime, Nat.dvd_of_factorization_pos some.ne', positive⟩
  · rintro ⟨prime, divides, _⟩
    exact ⟨n.factorization q, prime, prime.factorization_pos_of_dvd positive divides, rfl⟩

theorem prod_eq (h : Lists fs n) (positive : n ≠ 0) : (fs.map fun x => x.1 ^ x.2).prod = n := by
  have powers : (fs.map fun x => x.1 ^ x.2) =
      (fs.map Prod.fst).map fun q => q ^ n.factorization q := by
    rw [List.map_map]
    refine List.map_congr_left ?_
    intro x hx
    rw [Function.comp_apply, ((h.mem_iff x.1 x.2).mp hx).2.2]
  rw [powers, ← List.prod_toFinset _ h.nodup, h.toFinset_eq positive]
  exact Nat.prod_factorization_pow_eq_self positive

theorem length_lt (h : Lists fs n) (positive : n ≠ 0) : fs.length < n.size := by
  have count : fs.length = n.primeFactors.card := by
    rw [← h.toFinset_eq positive, List.toFinset_card_of_nodup h.nodup, List.length_map]
  have powers : 2 ^ n.primeFactors.card ≤ ∏ q ∈ n.primeFactors, q := by
    refine Finset.pow_card_le_prod _ _ _ ?_
    intro q hq
    exact (Nat.prime_of_mem_primeFactors hq).two_le
  have product := Nat.le_of_dvd (Nat.pos_of_ne_zero positive) (Nat.prod_primeFactors_dvd n)
  rw [Nat.lt_size, count]
  omega

theorem prime_of_mem (h : Lists fs n) {x : Nat × Nat} (hx : x ∈ fs) : x.1.Prime :=
  ((h.mem_iff x.1 x.2).mp hx).1

theorem dvd_of_mem (h : Lists fs n) {x : Nat × Nat} (hx : x ∈ fs) : x.1 ∣ n := by
  have entry := (h.mem_iff x.1 x.2).mp hx
  exact Nat.dvd_of_factorization_pos (by omega)

end Lists

theorem lists_prime {p : Nat} (prime : p.Prime) : Lists [(p, 1)] p := by
  refine ⟨List.pairwise_singleton _ _, ?_⟩
  intro q e
  rw [List.mem_singleton, Prod.mk.injEq, prime.factorization, Finsupp.single_apply]
  by_cases same : p = q
  · subst same
    simp only [prime, true_and, if_true]
    omega
  · simp only [if_neg same]
    constructor
    · rintro ⟨rfl, _⟩
      exact absurd rfl same
    · omega

theorem lists_square {p : Nat} (prime : p.Prime) : Lists [(p, 2)] (p * p) := by
  refine ⟨List.pairwise_singleton _ _, ?_⟩
  intro q e
  rw [List.mem_singleton, Prod.mk.injEq, Nat.factorization_mul prime.ne_zero prime.ne_zero,
    prime.factorization, Finsupp.add_apply, Finsupp.single_apply]
  by_cases same : p = q
  · subst same
    simp only [prime, true_and, if_true]
    omega
  · simp only [if_neg same]
    constructor
    · rintro ⟨rfl, _⟩
      exact absurd rfl same
    · omega

theorem factorization_prime_mul {p m : Nat} (prime : p.Prime) (positive : m ≠ 0) (q : Nat) :
    (p * m).factorization q = m.factorization q + if p = q then 1 else 0 := by
  rw [Nat.factorization_mul prime.ne_zero positive, prime.factorization, Finsupp.add_apply,
    Finsupp.single_apply, Nat.add_comm]

theorem Lists.add_new {p m : Nat} {fs : Factorization} (h : Lists fs m) (prime : p.Prime)
    (positive : m ≠ 0) (first : ∀ x ∈ fs, p < x.1) : Lists ((p, 1) :: fs) (p * m) := by
  refine ⟨List.pairwise_cons.mpr ⟨first, h.ascending⟩, ?_⟩
  intro q e
  rw [List.mem_cons, h.mem_iff, factorization_prime_mul prime positive, Prod.mk.injEq]
  by_cases same : p = q
  · subst same
    have absent : m.factorization p = 0 := by
      by_contra present
      exact absurd (first (p, _) ((h.mem_iff p _).mpr ⟨prime, Nat.pos_of_ne_zero present, rfl⟩))
        (Nat.lt_irrefl p)
    simp only [prime, true_and, if_true, absent]
    omega
  · simp only [if_neg same, Nat.add_zero, Ne.symm same, false_and, false_or]

theorem Lists.add_known {p e m : Nat} {fs : Factorization} (h : Lists ((p, e) :: fs) m)
    (prime : p.Prime) (positive : m ≠ 0) : Lists ((p, e + 1) :: fs) (p * m) := by
  have ascending := List.pairwise_cons.mp h.ascending
  refine ⟨List.pairwise_cons.mpr ⟨ascending.1, ascending.2⟩, ?_⟩
  intro q k
  have known := (h.mem_iff p e).mp (List.mem_cons_self ..)
  have entries := h.mem_iff q k
  rw [List.mem_cons, Prod.mk.injEq] at entries
  rw [List.mem_cons, factorization_prime_mul prime positive, Prod.mk.injEq]
  by_cases same : p = q
  · subst same
    have others : (p, k) ∉ fs := fun mem => Nat.lt_irrefl p (ascending.1 _ mem)
    simp only [others, or_false, true_and, prime, if_true]
    omega
  · simp only [Ne.symm same, false_and, false_or] at entries ⊢
    rw [entries, if_neg same, Nat.add_zero]

theorem store_append (pre : Factorization) (k : Nat) (entry : Nat × Nat) :
    store (pre ++ List.replicate (k + 1) (1, 0)) pre.length entry =
      some (pre ++ [entry] ++ List.replicate k (1, 0)) := by
  have room : pre.length < max (pre ++ List.replicate (k + 1) ((1, 0) : Nat × Nat)).length 1 := by
    rw [List.length_append, List.length_replicate]
    omega
  rw [store, if_pos room, List.set_append_right _ _ (Nat.le_refl _), Nat.sub_self,
    List.replicate_succ, List.set_cons_zero, List.append_assoc]
  rfl

/-- Larger factors are taken over as they are, shifted by one entry as long as the
divisor itself has not been met. -/
theorem extendLoop_larger {firstdiv : Nat} (two : 2 ≤ firstdiv) {gs : Factorization}
    (larger : ∀ x ∈ gs, firstdiv < x.1) (fill : Factorization) (i : Nat) (used : Bool)
    (multnum : Nat) (pre : Factorization) (k : Nat)
    (place : pre.length = if used then i else i + 1) :
    extendLoop firstdiv (gs ++ (1, 0) :: fill) i used multnum
        (pre ++ List.replicate (gs.length + k) (1, 0)) =
      if used then some (pre ++ gs ++ List.replicate k (1, 0))
      else store (pre ++ gs ++ List.replicate k (1, 0)) multnum (firstdiv, 1) := by
  induction gs generalizing i pre with
  | nil => simp [extendLoop]
  | cons x gs ih =>
      obtain ⟨mlt, exp⟩ := x
      rw [List.forall_mem_cons] at larger
      have above : firstdiv < mlt := larger.1
      have room : (gs.length + 1) + k = (gs.length + k) + 1 := by omega
      rw [List.cons_append, extendLoop, if_neg (by omega), if_neg (by omega), if_neg (by omega),
        ← place, List.length_cons, room, store_append, Option.bind_some,
        ih larger.2 (i + 1) (pre ++ [(mlt, exp)])]
      · simp
      · rw [List.length_append, place]
        split_ifs <;> simp

theorem extendLoop_factors {firstdiv m : Nat} (prime : firstdiv.Prime) (positive : m ≠ 0)
    {divfct : Factorization} (h : Factors divfct m) (least : ∀ q, q.Prime → q ∣ m → firstdiv ≤ q) :
    ∃ fct, extendLoop firstdiv divfct 0 false 0
      (List.replicate (firstdiv * m).size (1, 0)) = some fct ∧ Factors fct (firstdiv * m) := by
  obtain ⟨fs, filled, rfl, factors⟩ := h
  rw [List.replicate_succ]
  by_cases known : ∃ e gs, fs = (firstdiv, e) :: gs
  · obtain ⟨e, gs, rfl⟩ := known
    have extended := factors.add_known prime positive
    have short := extended.length_lt (Nat.mul_ne_zero prime.ne_zero positive)
    obtain ⟨k, dim⟩ : ∃ k, (firstdiv * m).size = (gs.length + (k + 1)) + 1 :=
      ⟨(firstdiv * m).size - gs.length - 2, by rw [List.length_cons] at short; omega⟩
    have rest := extendLoop_larger prime.two_le (List.pairwise_cons.mp factors.ascending).1
      (List.replicate filled (1, 0)) 1 true 0 [(firstdiv, e + 1)] (k + 1) rfl
    have one : firstdiv ≠ 1 := prime.one_lt.ne'
    have first := store_append [] (gs.length + (k + 1)) (firstdiv, e + 1)
    simp only [List.nil_append, List.length_nil, List.singleton_append, if_true] at first rest
    refine ⟨_, ?_, _, k, rfl, extended⟩
    rw [List.cons_append, extendLoop, if_neg one, if_neg (Nat.lt_irrefl _), if_pos rfl, dim, first,
      Option.bind_some, rest]
  · have larger : ∀ x ∈ fs, firstdiv < x.1 := by
      intro x hx
      refine lt_of_le_of_ne (least _ (factors.prime_of_mem hx) (factors.dvd_of_mem hx)) ?_
      intro same
      cases fs with
      | nil => cases hx
      | cons y gs =>
          have head := least _ (factors.prime_of_mem (List.mem_cons_self ..))
            (factors.dvd_of_mem (List.mem_cons_self ..))
          rcases List.mem_cons.mp hx with rfl | later
          · exact known ⟨x.2, gs, by rw [same]⟩
          · have order := (List.pairwise_cons.mp factors.ascending).1 x later
            omega
    have extended := factors.add_new prime positive larger
    have short := extended.length_lt (Nat.mul_ne_zero prime.ne_zero positive)
    obtain ⟨k, dim⟩ : ∃ k, (firstdiv * m).size = (fs.length + (k + 1)) + 1 :=
      ⟨(firstdiv * m).size - fs.length - 2, by rw [List.length_cons] at short; omega⟩
    have rest := extendLoop_larger prime.two_le larger (List.replicate filled (1, 0)) 0 false 0
      [(1, 0)] (k + 1) rfl
    refine ⟨_, ?_, _, k, rfl, extended⟩
    rw [dim, List.replicate_succ]
    refine rest.trans ?_
    simp [store]

theorem factorize_factors {bound n : Nat} (two : 2 ≤ n)
    (beyond : ∃ pr ∈ primesBelow bound, n < pr * pr)
    {fctlist : Nat → Option Factorization}
    (known : ∀ m, 2 ≤ m → m < n → ∃ fct, fctlist m = some fct ∧ Factors fct m) :
    ∃ fct, factorize (primesBelow bound) fctlist n = some fct ∧ Factors fct n := by
  have enough : ∀ q, q.Prime → q * q ≤ n → q < bound := by
    obtain ⟨pr, listed, large⟩ := beyond
    intro q _ small
    have below : q < pr := Nat.mul_self_lt_mul_self_iff.mp (by omega)
    exact below.trans (mem_primesBelow.mp listed).1
  have single {p e : Nat} (h : Lists [(p, e)] n) :
      ∃ fct, store (List.replicate n.size (1, 0)) 0 (p, e) = some fct ∧ Factors fct n := by
    have short := h.length_lt (by omega)
    obtain ⟨k, dim⟩ : ∃ k, n.size = (k + 1) + 1 :=
      ⟨n.size - 2, by rw [List.length_singleton] at short; omega⟩
    rw [dim]
    exact ⟨_, store_append [] (k + 1) (p, e), _, k, rfl, h⟩
  rw [factorize, trialDivisor_eq (primesBelow_ascending bound) beyond]
  cases found : (primesBelow bound).find? (fun pr => pr * pr ≤ n ∧ pr ∣ n) with
  | none => exact single (lists_prime (prime_of_find two found enough))
  | some q =>
      have divisor := List.find?_some found
      have prime := (mem_primesBelow.mp (List.mem_of_find?_eq_some found)).2
      simp only [decide_eq_true_eq] at divisor
      dsimp only
      split_ifs with square
      · have factors := lists_square prime
        rw [square] at factors
        exact single factors
      · obtain ⟨m, rfl⟩ := divisor.2
        have large : q < m := by
          have := Nat.le_of_mul_le_mul_left divisor.1 prime.pos
          refine lt_of_le_of_ne this ?_
          intro same
          exact square (by rw [← same])
        have least : ∀ r, r.Prime → r ∣ m → q ≤ r := by
          intro r hr divides
          by_contra less
          have smaller : r * r ≤ q * m := Nat.mul_le_mul (by omega) (by omega)
          have listed := mem_primesBelow.mpr ⟨enough r hr smaller, hr⟩
          have := find_least (primesBelow_ascending bound) found listed
            (by simp [smaller, Dvd.dvd.mul_left divides q])
          omega
        have quotient : q * m / q = m := Nat.mul_div_cancel_left m prime.pos
        obtain ⟨divfct, entered, factors⟩ := known m (by have := prime.two_le; omega)
          (by have := Nat.mul_le_mul_right m prime.two_le; omega)
        rw [extendFactors, quotient, entered, Option.bind_some]
        exact extendLoop_factors prime (by omega) factors least

theorem getLastD_primesBelow {bound p : Nat} (listed : p ∈ primesBelow bound) :
    (primesBelow bound).getLastD 0 ∈ primesBelow bound ∧ p ≤ (primesBelow bound).getLastD 0 := by
  have some : primesBelow bound ≠ [] := List.ne_nil_of_mem listed
  rw [List.getLastD_eq_getLast?, List.getLast?_eq_some_getLast some, Option.getD_some]
  refine ⟨List.getLast_mem some, ?_⟩
  have ascending := primesBelow_ascending bound
  rw [← List.dropLast_append_getLast some, List.pairwise_append] at ascending
  rw [← List.dropLast_append_getLast some, List.mem_append, List.mem_singleton] at listed
  rcases listed with before | last
  · exact (ascending.2.2 p before _ (List.mem_singleton_self _)).le
  · exact last.le

theorem getFactorization_factors {bound p : Nat} (listed : p ∈ primesBelow bound) :
    ∃ fctlist, getFactorization (primesBelow bound) = some fctlist ∧
      ∀ n, 2 ≤ n → n < p → ∃ fct, fctlist n = some fct ∧ Factors fct n := by
  obtain ⟨listed, larger⟩ := getLastD_primesBelow listed
  rw [getFactorization]
  generalize (primesBelow bound).getLastD 0 = last at listed larger
  have prime := (mem_primesBelow.mp listed).2
  have beyond (n : Nat) (h : n ≤ last) : ∃ pr ∈ primesBelow bound, n < pr * pr := by
    have := Nat.mul_le_mul_right last prime.two_le
    have := prime.two_le
    exact ⟨last, listed, by omega⟩
  have run (start : Nat → Option Factorization) : ∀ k ≤ last, ∃ fctlist,
      (List.range k).foldlM (factorStep (primesBelow bound)) start = some fctlist ∧
        ∀ n, 2 ≤ n → n < k → ∃ fct, fctlist n = some fct ∧ Factors fct n := by
    intro k
    induction k with
    | zero => exact fun _ => ⟨start, rfl, by omega⟩
    | succ k ih =>
        intro inside
        obtain ⟨fctlist, built, known⟩ := ih (by omega)
        have entry : ∃ fct, factorize (primesBelow bound) fctlist k = some fct ∧
            (2 ≤ k → Factors fct k) := by
          by_cases two : 2 ≤ k
          · obtain ⟨fct, made, factors⟩ := factorize_factors two (beyond k (by omega)) known
            exact ⟨fct, made, fun _ => factors⟩
          · have nothing : (primesBelow bound).find? (fun pr => pr * pr ≤ k ∧ pr ∣ k) = none := by
              rw [List.find?_eq_none]
              intro q hq small
              simp only [decide_eq_true_eq] at small
              have := Nat.mul_le_mul (mem_primesBelow.mp hq).2.two_le
                (mem_primesBelow.mp hq).2.two_le
              omega
            refine ⟨(List.replicate k.size (1, 0)).set 0 (k, 1), ?_, fun h => absurd h two⟩
            rw [factorize, trialDivisor_eq (primesBelow_ascending bound) (beyond k (by omega)),
              nothing]
            simp only [store]
            rw [if_pos (by omega)]
        obtain ⟨fct, made, factors⟩ := entry
        refine ⟨Function.update fctlist k (some fct), ?_, ?_⟩
        · rw [List.range_succ, List.foldlM_append, built]
          simp [factorStep, made]
        · intro n two inRange
          by_cases new : n = k
          · subst new
            exact ⟨fct, Function.update_self .., factors two⟩
          · rw [Function.update_of_ne new]
            exact known n two (by omega)
  obtain ⟨fctlist, built, known⟩ := run _ last le_rfl
  exact ⟨fctlist, built, fun n two inside => known n two (by omega)⟩

end Factors

section Lengths

variable {fct fct' : Factorization}

theorem length_store {j : Nat} {entry : Nat × Nat} (h : store fct j entry = some fct') :
    fct'.length = fct.length := by
  have entered := (Option.ite_none_right_eq_some.mp h).2
  rw [← Option.some_inj.mp entered, List.length_set]

theorem length_extendLoop {firstdiv : Nat} (divfct : Factorization) (i : Nat) (used : Bool)
    (multnum : Nat) (h : extendLoop firstdiv divfct i used multnum fct = some fct') :
    fct'.length = fct.length := by
  induction divfct generalizing i used multnum fct with
  | nil =>
      rw [extendLoop, Option.some_inj] at h
      rw [h]
  | cons x divfct ih =>
      rw [extendLoop] at h
      split_ifs at h with one used' less same
      · rw [Option.some_inj] at h
        rw [h]
      · exact length_store h
      all_goals
        obtain ⟨next, stored, rest⟩ := Option.bind_eq_some_iff.mp h
        rw [ih _ _ _ rest, length_store stored]

theorem length_factorize {prlist : List Nat} {fctlist : Nat → Option Factorization} {i : Nat}
    (h : factorize prlist fctlist i = some fct) : fct.length = i.size := by
  have dim : (List.replicate i.size ((1, 0) : Nat × Nat)).length = i.size := List.length_replicate
  unfold factorize at h
  split at h
  · cases h
  · rw [length_store h, dim]
  · split_ifs at h with square
    · rw [length_store h, dim]
    · obtain ⟨divfct, _, extended⟩ := Option.bind_eq_some_iff.mp h
      rw [length_extendLoop _ _ _ _ extended, dim]

theorem length_factorSteps {prlist : List Nat} {fctlist table : Nat → Option Factorization}
    (numbers : List Nat) (built : numbers.foldlM (factorStep prlist) table = some fctlist)
    (before : ∀ n fct, table n = some fct → fct.length = n.size) :
    ∀ n fct, fctlist n = some fct → fct.length = n.size := by
  induction numbers generalizing table with
  | nil =>
      rw [List.foldlM_nil] at built
      cases built
      exact before
  | cons i numbers ih =>
      rw [List.foldlM_cons] at built
      obtain ⟨next, step, rest⟩ := Option.bind_eq_some_iff.mp built
      obtain ⟨made, entry, rfl⟩ := Option.map_eq_some_iff.mp step
      refine ih rest ?_
      intro n fct here
      by_cases new : n = i
      · rw [new, Function.update_self, Option.some_inj] at here
        rw [new, ← here, length_factorize entry]
      · rw [Function.update_of_ne new] at here
        exact before n fct here

theorem length_getFactorization {prlist : List Nat} {fctlist : Nat → Option Factorization}
    (built : getFactorization prlist = some fctlist) {n : Nat} (entry : fctlist n = some fct) :
    fct.length = n.size := by
  refine length_factorSteps _ built ?_ n fct entry
  intro m made first
  by_cases three : m = 3
  · rw [three, Function.update_self, Option.some_inj] at first
    rw [three, ← first]
    decide
  · rw [Function.update_of_ne three] at first
    by_cases two : m = 2
    · rw [two, Function.update_self, Option.some_inj] at first
      rw [two, ← first]
      decide
    · rw [Function.update_of_ne two] at first
      cases first

/-- The listed primes and the table made from them. -/
theorem prime_table {mpr : Nat} (eight : 8 ≤ mpr) :
    ∃ prlist, listFirstPrimes mpr = some prlist ∧
      prlist.Pairwise (· < ·) ∧ (∀ q, q ∈ prlist ↔ q < mpr ∧ q.Prime) ∧
      ∃ fctlist, getFactorization prlist = some fctlist ∧
        ∀ i, 2 ≤ i → i < prlist.getLastD 0 →
          ∃ fs rest, fctlist i = some (fs ++ rest) ∧ (fs ++ rest).length = i.size ∧
            (∀ x ∈ rest, x.1 = 1) ∧ (fs.Pairwise fun x y => x.1 < y.1) ∧
            (∀ x ∈ fs, x.1.Prime ∧ 0 < x.2) ∧ (fs.map fun x => x.1 ^ x.2).prod = i := by
  have two : 2 ∈ primesBelow mpr := mem_primesBelow.mpr ⟨by omega, Nat.prime_two⟩
  obtain ⟨fctlist, built, entries⟩ := getFactorization_factors (getLastD_primesBelow two).1
  refine ⟨primesBelow mpr, listFirstPrimes_eq eight, primesBelow_ascending mpr,
    fun q => mem_primesBelow, fctlist, built, ?_⟩
  intro i atLeast below
  obtain ⟨fct, entry, fs, k, rfl, factors⟩ := entries i atLeast below
  refine ⟨fs, _, entry, length_getFactorization built entry, ?_, factors.ascending, ?_,
    factors.prod_eq (by omega)⟩
  · intro x filler
    rw [List.eq_of_mem_replicate filler]
  · intro x hx
    have known := (factors.mem_iff x.1 x.2).mp hx
    exact ⟨known.1, known.2.1⟩

theorem prime_table_ten : ∃ fctlist, getFactorization [2, 3, 5, 7] = some fctlist ∧
    ∃ fs rest, fctlist 6 = some (fs ++ rest) ∧ (fs.map fun x => x.1 ^ x.2).prod = 6 := by
  obtain ⟨prlist, listed, _, _, fctlist, built, entries⟩ :=
    prime_table (show 8 ≤ 10 by decide)
  have primes : listFirstPrimes 10 = some [2, 3, 5, 7] := by decide
  obtain rfl : [2, 3, 5, 7] = prlist := Option.some_inj.mp (primes.symm.trans listed)
  obtain ⟨fs, rest, entry, _, _, _, _, product⟩ := entries 6 (by decide) (by decide)
  exact ⟨fctlist, built, fs, rest, entry, product⟩

end Lengths

end Baseliner.AdcFactors
