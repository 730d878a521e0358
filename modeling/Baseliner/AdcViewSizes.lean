import Mathlib.Data.Nat.BitIndices
import Baseliner.AdcFactors
import Baseliner.GeometricTuples

/-! The generator of the DC benchmark's input and the sizes it predicts for the views:
`GetNextTuple` draws every attribute from a geometric sequence modulo a prime, and
`CalculateVeiwSizes` writes how many distinct projections each set of attributes has. -/

namespace Baseliner.AdcViewSizes

open AdcFactors GeometricTuples

def adcprime : List Nat :=
  [421, 601, 631, 701, 883,
    419, 443, 647, 21737, 31769,
    1427, 18353, 22817, 34337, 98717,
    3527, 8693, 9677, 11093, 18233]

def adcgen : List Nat :=
  [2, 7, 3, 2, 2,
    2, 2, 5, 31, 7,
    2, 3, 3, 3, 2,
    5, 2, 2, 2, 3]

def adcexp : List Nat :=
  [11, 13, 17, 19, 23,
    23, 29, 31, 37, 41,
    41, 43, 47, 53, 59,
    3, 5, 7, 11, 13]

def adcexpS : List Nat := [11, 13, 17, 19, 23]

def adcexpW : List Nat :=
  [2*2, 2*2*2*5, 2*3, 2*2*5, 2*3*7,
    23, 29, 31, 2*2, 2*2*19]

def adcexpA : List Nat :=
  [2*2, 2*2*2*5, 2*3, 2*2*5, 2*3*7,
    2*19, 2*13, 2*19, 2*2*2*13*19, 2*2*2*19*19,
    2*23, 2*2*2*2, 2*2*2*2*2*23, 2*2*2*2*2, 2*2*23]

def adcexpB : List Nat :=
  [2*2*7, 2*2*2*5, 2*3*7, 2*2*5*7, 2*3*7*7,
    2*19, 2*13, 2*19, 2*2*2*13*19, 2*2*2*19*19,
    2*31, 2*2*2*2*31, 2*2*2*2*2*31, 2*2*2*2*2*29, 2*2*29,
    2*43, 2*2, 2*2, 2*2*47, 2*2*2*43]

def LARGE_NUM : Nat := 0x4FFFFFFFFFFFFFFF
def maxprmfctr : Nat := 59
def UpPrimeLim : Nat := 100000

section Lcm

/-- The exponent of `fct` behind the search through the factors of `genexp`. -/
def loweredExp (fct : Nat) (lexp : Int) : Factorization → Int
  | [] => lexp
  | (mlt, exp) :: rest =>
      if mlt = 1 then lexp
      else if fct ≠ mlt then loweredExp fct lexp rest
      else lexp - exp

/-- The loop over the factors of `pr-1`; an index past `maxprmfctr` is `none`. -/
def raiseExpons (gen : Factorization) : Factorization → (Nat → Int) → Option (Nat → Int)
  | [], expons => some expons
  | (fct, exp) :: rest, expons =>
      let lexp := loweredExp fct exp gen
      if fct ≤ maxprmfctr then
        raiseExpons gen rest (if expons fct < lexp then Function.update expons fct lexp else expons)
      else none

def maskExpons (fctlist : Nat → Option Factorization) (adcexpons : List Nat) (mask i : Nat)
    (expons : Nat → Int) : Option (Nat → Int) :=
  if mask = 0 then some expons
  else if mask = 2 * (mask / 2) then maskExpons fctlist adcexpons (mask >>> 1) (i + 1) expons
  else do
    let pr ← adcprime[i]?
    let genexp ← adcexpons[i]?
    let fct ← fctlist (pr - 1)
    let gen ← fctlist genexp
    let expons ← raiseExpons gen fct expons
    maskExpons fctlist adcexpons (mask >>> 1) (i + 1) expons
termination_by mask
decreasing_by all_goals omega

/-- The multiplications by `i`, with whether they returned early. A product that does
not fit 64 bits is `none`. -/
def multiplyExpon (i : Nat) : Nat → Nat → Option (Nat × Bool)
  | 0, lcm => some (lcm, false)
  | n + 1, lcm =>
      if 2 ^ 63 ≤ lcm * i then none
      else if LARGE_NUM / maxprmfctr < lcm * i then some (lcm * i, true)
      else multiplyExpon i n (lcm * i)

/-- The multiplications by all numbers, `expons` being how often. -/
def multiplyExpons (expons : Nat → Int) : List Nat → Nat → Option Nat
  | [], lcm => some lcm
  | i :: rest, lcm =>
      (multiplyExpon i (expons i).toNat lcm).bind fun (lcm, returned) =>
        if returned then some lcm else multiplyExpons expons rest lcm

def getLCM (mask : Nat) (fctlist : Nat → Option Factorization) (adcexpons : List Nat) :
    Option Nat :=
  (maskExpons fctlist adcexpons mask 0 fun _ => 0).bind fun expons =>
    multiplyExpons expons (List.range (maxprmfctr + 1)) 1

end Lcm

section Sizes

structure DcView where
  vsize : Nat
  vidx : Nat
deriving DecidableEq

/-- `CompareViewsBySize`, as an order. -/
def DcView.le (vw0 vw1 : DcView) : Bool :=
  vw0.vsize < vw1.vsize || (vw0.vsize == vw1.vsize && vw0.vidx ≤ vw1.vidx)

def viewLCM (clss : Char) (fctlist : Nat → Option Factorization) (mask : Nat) : Option Nat :=
  match clss with
  | 'U' => getLCM mask fctlist adcexp
  | 'S' => getLCM mask fctlist adcexpS
  | 'W' => getLCM mask fctlist adcexpW
  | 'A' => getLCM mask fctlist adcexpA
  | 'B' => getLCM mask fctlist adcexpB
  | _ => some 1

def dcview (clss : Char) (tnum : Nat) (fctlist : Nat → Option Factorization) (i : Nat) :
    Option DcView :=
  (viewLCM clss fctlist i).map fun lcm => ⟨if tnum < lcm then tnum else lcm, i⟩

def viewIncrement : Char → Nat
  | 'U' => 1 <<< 3
  | 'A' => 1 <<< 6
  | 'B' => 1 <<< 14
  | _ => 1

/-- The attributes of a mask, counted from 0. -/
def attributes (dcdim mask : Nat) : List Nat := (List.range dcdim).filter fun j => mask.testBit j

structure ViewLine where
  selection : List Nat
  size : Nat
deriving DecidableEq

structure ViewSizes where
  views : List ViewLine
  totalInBytes : Nat
  nCubeTuples : Nat

/-- The file for the sorted views: every `vinc`th from the second on. -/
def writeViews (dcdim vinc : Nat) (sorted : List DcView) : ViewSizes :=
  let places := (List.range (2 ^ dcdim)).filter fun i => 1 ≤ i ∧ (i - 1) % vinc = 0
  let written := places.filterMap fun i => sorted[i]?
  { views := written.map fun vw => ⟨(attributes dcdim vw.vidx).map (· + 1), vw.vsize⟩
    totalInBytes := (written.map fun vw =>
      (8 + 4 * (attributes dcdim vw.vidx).length) * vw.vsize).sum % 2 ^ 64
    nCubeTuples := (written.map fun vw => vw.vsize).sum % 2 ^ 64 }

def calculateVeiwSizes (clss : Char) (dcdim tnum : Nat) : Option ViewSizes := do
  let prlist ← listFirstPrimes UpPrimeLim
  let fctlist ← getFactorization prlist
  let views ← (List.range' 1 (2 ^ dcdim - 1)).mapM (dcview clss tnum fctlist)
  pure (writeViews dcdim (viewIncrement clss) ((⟨0, 0⟩ :: views).mergeSort DcView.le))

end Sizes

section Tuples

def measbound : Nat := 31415

/-- The static variables of `GetNextTuple`; behind the 20 seeds lies other memory. -/
structure Generator where
  tuplenum : Nat
  gens : Nat → Nat
  seed : Nat → Nat

def locexp : Char → List Nat
  | 'S' => adcexpS
  | 'W' => adcexpW
  | 'A' => adcexpA
  | 'B' => adcexpB
  | _ => adcexp

/-- `tmpgen` behind some multiplications. -/
def tmpgen (gen pr : Nat) : Nat → Nat
  | 0 => gen
  | j + 1 => tmpgen gen pr j * gen % pr

/-- The first call raises the generators and sets the seeds. -/
def Generator.start (g : Generator) (dcdim : Nat) (clss : Char) : Generator :=
  { g with
    gens := fun i => if i < dcdim then
      tmpgen (g.gens i) (adcprime.getD i 0) ((locexp clss).getD i 0 - 1) else g.gens i
    seed := fun i => if i < dcdim then (adcprime.getD i 0 + 1) / 2 else g.seed i }

def Generator.next (g : Generator) (dcdim : Nat) : Generator :=
  { g with
    tuplenum := g.tuplenum + 1
    seed := fun i => if i < dcdim then g.seed i * g.gens i % adcprime.getD i 0 else g.seed i }

structure Tuple where
  attr : List Nat
  meas : List Nat

/-- A call is refused for too many attributes or measures, and `none` too when the
class has no exponents for so many attributes. -/
def getNextTuple (dcdim measnum : Nat) (clss : Char) (g : Generator) :
    Option (Generator × Tuple) :=
  if 20 < dcdim then none
  else if measbound < measnum then none
  else if g.tuplenum = 0 ∧ (locexp clss).length < dcdim then none
  else
    let g := if g.tuplenum = 0 then g.start dcdim clss else g
    let g := g.next dcdim
    let attr := (List.range dcdim).map g.seed
    let maxattr := attr.foldl max 0
    some (g, ⟨attr, (List.range measnum).map fun i => g.seed i * maxattr % measbound⟩)

/-- The tuples `GenerateADC` writes. -/
def generateTuples (dcdim measnum : Nat) (clss : Char) : Nat → Generator → Option (List Tuple)
  | 0, _ => some []
  | n + 1, g =>
      (getNextTuple dcdim measnum clss g).bind fun (g, tuple) =>
        (generateTuples dcdim measnum clss n g).map (tuple :: ·)

def Generator.initial : Generator := ⟨0, fun i => adcgen.getD i 0, fun _ => 0⟩

/-- The values of a tuple for a selection, whose attributes count from 1. -/
def Tuple.project (selection : List Nat) (tuple : Tuple) : List Nat :=
  selection.map fun j => tuple.attr.getD (j - 1) 0

end Tuples

section Tables

def order (adcexpons : List Nat) (i : Nat) : Nat :=
  (adcprime.getD i 0 - 1) / Nat.gcd (adcprime.getD i 0 - 1) (adcexpons.getD i 0)

/-- The generators pass the test of Lucas; only numbers up to `maxprmfctr` divide. -/
theorem tables : ∀ i < 20,
    adcgen.getD i 0 ^ (adcprime.getD i 0 - 1) % adcprime.getD i 0 = 1 % adcprime.getD i 0 ∧
    (∀ q < 60, 2 ≤ q → q ∣ adcprime.getD i 0 - 1 →
      adcgen.getD i 0 ^ ((adcprime.getD i 0 - 1) / q) % adcprime.getD i 0 ≠
        1 % adcprime.getD i 0) ∧
    Nat.factorial 59 ^ 17 % (adcprime.getD i 0 - 1) = 0 ∧ 2 ≤ adcprime.getD i 0 - 1 ∧
    adcprime.getD i 0 ≤ 98717 := by
  decide +kernel

theorem le_of_dvd_prime_sub {i : Nat} (inside : i < 20) {q : Nat} (prime : q.Prime)
    (divides : q ∣ adcprime.getD i 0 - 1) : q ≤ maxprmfctr := by
  have multiple := Nat.dvd_of_mod_eq_zero (tables i inside).2.2.1
  have power := prime.dvd_of_dvd_pow (divides.trans multiple)
  exact (prime.dvd_factorial).mp power

theorem prime_and_order {i : Nat} (inside : i < 20) :
    (adcprime.getD i 0).Prime ∧
      orderOf (adcgen.getD i 0 : ZMod (adcprime.getD i 0)) = adcprime.getD i 0 - 1 := by
  have entry := tables i inside
  refine prime_and_orderOf (by omega) entry.1 ?_
  intro q prime divides
  have small : q ≤ 59 := le_of_dvd_prime_sub inside prime divides
  exact entry.2.1 q (by omega) prime.two_le divides

def classes : List Char := ['U', 'S', 'W', 'A', 'B']

theorem exponents : ∀ clss ∈ classes, (locexp clss).length ≤ 20 ∧
    ∀ i < (locexp clss).length, 2 ≤ (locexp clss).getD i 0 ∧ (locexp clss).getD i 0 < 98717 := by
  have bounds : (classes.all fun clss => decide ((locexp clss).length ≤ 20) &&
      (locexp clss).all fun e => decide (2 ≤ e) && decide (e < 98717)) = true := by decide +kernel
  intro clss known
  have entries := List.all_eq_true.mp bounds clss known
  rw [Bool.and_eq_true, decide_eq_true_iff] at entries
  refine ⟨entries.1, ?_⟩
  intro i inside
  have entry := List.all_eq_true.mp entries.2 _ (List.getElem_mem inside)
  rw [List.getD_eq_getElem _ _ inside]
  simpa using entry

theorem viewLCM_eq {clss : Char} (known : clss ∈ classes) (fctlist : Nat → Option Factorization)
    (mask : Nat) : viewLCM clss fctlist mask = getLCM mask fctlist (locexp clss) := by
  simp only [classes, List.mem_cons, List.not_mem_nil, or_false] at known
  rcases known with rfl | rfl | rfl | rfl | rfl <;> rfl

end Tables

section Exponents

theorem loweredExp_eq {gen : Factorization} {e : Nat} (h : Factors gen e) (q : Nat) (lexp : Int) :
    loweredExp q lexp gen = lexp - e.factorization q := by
  obtain ⟨fs, k, rfl, factors⟩ := h
  have search : ∀ gs : Factorization, (∀ x ∈ gs, x ∈ fs) →
      (∃ x, (q, x) ∈ gs ∧ loweredExp q lexp (gs ++ List.replicate (k + 1) (1, 0)) = lexp - x) ∨
        ((∀ x, (q, x) ∉ gs) ∧
          loweredExp q lexp (gs ++ List.replicate (k + 1) (1, 0)) = lexp) := by
    intro gs
    induction gs with
    | nil => exact fun _ => .inr ⟨by simp, rfl⟩
    | cons y gs ih =>
        intro listed
        rw [List.forall_mem_cons] at listed
        have one : y.1 ≠ 1 := (factors.prime_of_mem listed.1).one_lt.ne'
        rw [List.cons_append, loweredExp, if_neg one]
        by_cases here : q = y.1
        · exact .inl ⟨y.2, by simp [here], by rw [if_neg (not_not.mpr here)]⟩
        · rw [if_pos here]
          rcases ih listed.2 with ⟨x, mem, found⟩ | ⟨absent, found⟩
          · exact .inl ⟨x, List.mem_cons_of_mem y mem, found⟩
          · refine .inr ⟨?_, found⟩
            intro x mem
            rcases List.mem_cons.mp mem with rfl | later
            · exact here rfl
            · exact absent x later
  rcases search fs (fun x hx => hx) with ⟨x, mem, found⟩ | ⟨absent, found⟩
  · rw [found, ((factors.mem_iff q x).mp mem).2.2]
  · have zero : e.factorization q = 0 := by
      by_contra some
      have prime : q.Prime := by
        by_contra composite
        exact some (Nat.factorization_eq_zero_of_not_prime e composite)
      exact absent _ ((factors.mem_iff q _).mpr ⟨prime, Nat.pos_of_ne_zero some, rfl⟩)
    rw [found, zero]
    simp

theorem raiseExpons_fillers {gen : Factorization} {e : Nat} (h : Factors gen e) (k : Nat)
    {expons : Nat → Int} (one : 0 ≤ expons 1) :
    raiseExpons gen (List.replicate k (1, 0)) expons = some expons := by
  induction k with
  | zero => rfl
  | succ k ih =>
      have lexp : loweredExp 1 ((0 : Nat) : Int) gen = 0 := by
        rw [loweredExp_eq h, Nat.factorization_one_right]
        rfl
      rw [List.replicate_succ, raiseExpons]
      simp only [lexp]
      rw [if_pos (by decide), if_neg (by omega), ih]

theorem raiseExpons_le {gen : Factorization} {e : Nat} (h : Factors gen e) (k : Nat)
    {fs : Factorization} (prime : ∀ x ∈ fs, x.1.Prime) (small : ∀ x ∈ fs, x.1 ≤ maxprmfctr)
    {expons : Nat → Int} (one : 0 ≤ expons 1) :
    ∃ raised, raiseExpons gen (fs ++ List.replicate k (1, 0)) expons = some raised ∧
      ∀ q z, raised q ≤ z ↔
        expons q ≤ z ∧ ∀ x : Nat, (q, x) ∈ fs → (x : Int) - e.factorization q ≤ z := by
  induction fs generalizing expons with
  | nil => exact ⟨expons, raiseExpons_fillers h k one, by simp⟩
  | cons y fs ih =>
      obtain ⟨fct, exp⟩ := y
      rw [List.forall_mem_cons] at prime small
      have lexp := loweredExp_eq h fct exp
      have other : (1 : Nat) ≠ fct := prime.1.one_lt.ne
      rw [List.cons_append, raiseExpons]
      simp only [lexp, if_pos small.1]
      have kept : ∀ q z, (if expons fct < (exp : Int) - e.factorization fct then
          Function.update expons fct ((exp : Int) - e.factorization fct) else expons) q ≤ z ↔
            expons q ≤ z ∧ (q = fct → (exp : Int) - e.factorization q ≤ z) := by
        intro q z
        by_cases here : q = fct
        · subst here
          split_ifs with less
          · rw [Function.update_self]
            simp only [forall_const]
            omega
          · simp only [forall_const]
            omega
        · split_ifs with less
          · simp [here]
          · simp [here]
      have oneKept : 0 ≤ (if expons fct < (exp : Int) - e.factorization fct then
          Function.update expons fct ((exp : Int) - e.factorization fct) else expons) 1 := by
        split_ifs
        · rwa [Function.update_of_ne other]
        · exact one
      generalize (if expons fct < (exp : Int) - e.factorization fct then
        Function.update expons fct ((exp : Int) - e.factorization fct) else expons) = next
        at kept oneKept ⊢
      obtain ⟨raised, built, exact⟩ := ih prime.2 small.2 oneKept
      refine ⟨raised, built, ?_⟩
      intro q z
      rw [exact, kept, and_assoc]
      simp only [List.mem_cons, Prod.mk.injEq]
      constructor
      · rintro ⟨start, first, rest⟩
        refine ⟨start, ?_⟩
        rintro x (⟨rfl, rfl⟩ | later)
        · exact first rfl
        · exact rest x later
      · rintro ⟨start, all⟩
        exact ⟨start, fun here => all exp (.inl ⟨here, rfl⟩), fun x later => all x (.inr later)⟩

/-- The exponents of a number, as the table `expons` holds them. -/
def exponsOf (n : Nat) (q : Nat) : Int := n.factorization q

theorem raiseExpons_eq {gen fct : Factorization} {e m L : Nat} (he : Factors gen e)
    (hm : Factors fct m) (exponent : e ≠ 0) (positive : m ≠ 0) (start : L ≠ 0)
    (small : ∀ q : Nat, q.Prime → q ∣ m → q ≤ maxprmfctr) :
    raiseExpons gen fct (exponsOf L) = some (exponsOf (L.lcm (m / Nat.gcd m e))) := by
  obtain ⟨fs, k, rfl, factors⟩ := hm
  obtain ⟨raised, built, bounds⟩ := raiseExpons_le he (k + 1) (fun x => factors.prime_of_mem)
    (fun x hx => small _ (factors.prime_of_mem hx) (factors.dvd_of_mem hx))
    (show 0 ≤ exponsOf L 1 from Int.natCast_nonneg _)
  rw [built]
  congr 1
  funext q
  have divided : m / Nat.gcd m e ≠ 0 := by
    have := Nat.div_pos (Nat.gcd_le_left e (Nat.pos_of_ne_zero positive))
      (Nat.gcd_pos_of_pos_left e (Nat.pos_of_ne_zero positive))
    omega
  refine eq_of_forall_ge_iff ?_
  intro z
  rw [bounds, exponsOf, exponsOf, Nat.factorization_lcm start divided, Finsupp.sup_apply,
    factorization_div_gcd positive exponent]
  have largest : (∀ x : Nat, (q, x) ∈ fs → (x : Int) - e.factorization q ≤ z) ↔
      (m.factorization q ≠ 0 → (m.factorization q : Int) - e.factorization q ≤ z) := by
    constructor
    · intro all some
      have prime : q.Prime := by
        by_contra composite
        exact some (Nat.factorization_eq_zero_of_not_prime m composite)
      exact all _ ((factors.mem_iff q _).mpr ⟨prime, Nat.pos_of_ne_zero some, rfl⟩)
    · intro one x mem
      obtain ⟨_, present, rfl⟩ := (factors.mem_iff q x).mp mem
      exact one present.ne'
  rw [largest]
  omega

/-- A table with the factors of all numbers the benchmark looks up. -/
def Complete (fctlist : Nat → Option Factorization) : Prop :=
  ∀ n, 2 ≤ n → n < 98717 → ∃ fct, fctlist n = some fct ∧ Factors fct n

theorem order_pos {i : Nat} (inside : i < 20) (adcexpons : List Nat) : 0 < order adcexpons i := by
  have positive := (tables i inside).2.2.2.1
  exact Nat.div_pos (Nat.gcd_le_left _ (by omega)) (Nat.gcd_pos_of_pos_left _ (by omega))

theorem length_adcprime : adcprime.length = 20 := rfl

theorem maskExpons_eq {fctlist : Nat → Option Factorization} (complete : Complete fctlist)
    {clss : Char} (known : clss ∈ classes) (mask i L : Nat) (start : 0 < L)
    (inside : ∀ j ∈ mask.bitIndices, i + j < (locexp clss).length) :
    maskExpons fctlist (locexp clss) mask i (exponsOf L) =
      some (exponsOf ((mask.bitIndices.map fun j => order (locexp clss) (i + j)).foldl
        Nat.lcm L)) := by
  induction mask using Nat.strong_induction_on generalizing i L with
  | _ mask ih =>
      rw [maskExpons]
      have half : mask >>> 1 = mask / 2 := Nat.shiftRight_one mask
      have shifted (l : List Nat) : (l.map (· + 1)).map (fun j => order (locexp clss) (i + j)) =
          l.map fun j => order (locexp clss) (i + 1 + j) := by
        rw [List.map_map]
        refine List.map_congr_left ?_
        intro j _
        simp only [Function.comp_apply]
        congr 1
        omega
      by_cases zero : mask = 0
      · simp [zero]
      · rw [if_neg zero, half]
        by_cases even : mask = 2 * (mask / 2)
        · have bits : mask.bitIndices = ((mask / 2).bitIndices).map (· + 1) := by
            conv_lhs => rw [even]
            exact Nat.bitIndices_two_mul _
          rw [if_pos even, ih (mask / 2) (by omega) (i + 1) L start, bits, shifted]
          intro j hj
          have := inside (j + 1) (by rw [bits]; exact List.mem_map_of_mem hj)
          omega
        · have bits : mask.bitIndices = 0 :: ((mask / 2).bitIndices).map (· + 1) := by
            have odd : mask = 2 * (mask / 2) + 1 := by omega
            conv_lhs => rw [odd]
            exact Nat.bitIndices_two_mul_add_one _
          have here : i < (locexp clss).length := by
            have := inside 0 (by rw [bits]; exact List.mem_cons_self ..)
            omega
          have table := exponents clss known
          have exponent := table.2 i here
          have entry := tables i (by omega)
          have pr : adcprime[i]? = some (adcprime.getD i 0) := by
            rw [List.getD_eq_getElem?_getD,
              List.getElem?_eq_getElem (show i < adcprime.length by rw [length_adcprime]; omega)]
            rfl
          have genexp : (locexp clss)[i]? = some ((locexp clss).getD i 0) := by
            rw [List.getD_eq_getElem?_getD, List.getElem?_eq_getElem here]
            rfl
          obtain ⟨fct, prFound, prFactors⟩ := complete (adcprime.getD i 0 - 1) entry.2.2.2.1
            (by omega)
          obtain ⟨gen, genFound, genFactors⟩ := complete _ exponent.1 exponent.2
          have raised : raiseExpons gen fct (exponsOf L) =
              some (exponsOf (L.lcm (order (locexp clss) i))) :=
            raiseExpons_eq genFactors prFactors (by omega) (by omega) (by omega)
              (fun q => le_of_dvd_prime_sub (by omega))
          rw [if_neg even, pr, genexp]
          simp only [Option.bind_eq_bind, Option.bind_some, prFound, genFound, raised]
          have common := Nat.lcm_pos start (order_pos (show i < 20 by omega) (locexp clss))
          rw [ih (mask / 2) (by omega) (i + 1) _ common, bits, List.map_cons, shifted,
            List.foldl_cons]
          · rfl
          · intro j hj
            have := inside (j + 1) (by
              rw [bits]
              exact List.mem_cons_of_mem 0 (List.mem_map_of_mem hj))
            omega

end Exponents

section Product

/-- Multiplications stay within 64 bits: they are complete, or they stopped at a
divisor that is large already. -/
theorem multiplyExpon_spec {i : Nat} (small : i ≤ maxprmfctr) (n lcm : Nat)
    (room : lcm ≤ LARGE_NUM / maxprmfctr) :
    ∃ value returned, multiplyExpon i n lcm = some (value, returned) ∧
      (returned = false → value = lcm * i ^ n ∧ value ≤ LARGE_NUM / maxprmfctr) ∧
      (returned = true → LARGE_NUM / maxprmfctr < value ∧ value ∣ lcm * i ^ n) := by
  induction n generalizing lcm with
  | zero => exact ⟨lcm, false, rfl, fun _ => ⟨by simp, room⟩, by simp⟩
  | succ n ih =>
      have fits : lcm * i < 2 ^ 63 := by
        have product := Nat.mul_le_mul room small
        have bound : LARGE_NUM / maxprmfctr * maxprmfctr < 2 ^ 63 := by decide
        omega
      rw [multiplyExpon, if_neg (by omega)]
      by_cases large : LARGE_NUM / maxprmfctr < lcm * i
      · rw [if_pos large]
        refine ⟨lcm * i, true, rfl, by simp, fun _ => ⟨large, ?_⟩⟩
        exact ⟨i ^ n, by ring⟩
      · rw [if_neg large]
        obtain ⟨value, returned, built, whole, early⟩ := ih (lcm * i) (by omega)
        have product : lcm * i * i ^ n = lcm * i ^ (n + 1) := by ring
        rw [product] at whole early
        exact ⟨value, returned, built, whole, early⟩

theorem multiplyExpons_spec (expons : Nat → Int) (is : List Nat) (small : ∀ i ∈ is, i ≤ maxprmfctr)
    (lcm : Nat) (room : lcm ≤ LARGE_NUM / maxprmfctr) :
    ∃ value, multiplyExpons expons is lcm = some value ∧
      (value = lcm * (is.map fun i => i ^ (expons i).toNat).prod ∨
        LARGE_NUM / maxprmfctr < value ∧
          value ∣ lcm * (is.map fun i => i ^ (expons i).toNat).prod) := by
  induction is generalizing lcm with
  | nil => exact ⟨lcm, rfl, .inl (by simp)⟩
  | cons i is ih =>
      rw [List.forall_mem_cons] at small
      obtain ⟨value, returned, built, whole, early⟩ :=
        multiplyExpon_spec small.1 (expons i).toNat lcm room
      rw [multiplyExpons, built, Option.bind_some, List.map_cons, List.prod_cons, ← Nat.mul_assoc]
      cases returned with
      | true =>
          obtain ⟨large, divides⟩ := early rfl
          exact ⟨value, rfl, .inr ⟨large, Dvd.dvd.mul_right divides _⟩⟩
      | false =>
          obtain ⟨rfl, fits⟩ := whole rfl
          exact ih small.2 _ fits

def period (clss : Char) (mask : Nat) : Nat := lcmAll (mask.bitIndices.map (order (locexp clss)))

theorem period_pos {clss : Char} {mask : Nat} (inside : ∀ j ∈ mask.bitIndices, j < 20) :
    0 < period clss mask := by
  refine lcmAll_pos ?_
  intro k hk
  obtain ⟨j, hj, rfl⟩ := List.mem_map.mp hk
  exact order_pos (inside j hj) _

theorem getLCM_spec {fctlist : Nat → Option Factorization} (complete : Complete fctlist)
    {clss : Char} (known : clss ∈ classes) {mask : Nat}
    (inside : ∀ j ∈ mask.bitIndices, j < (locexp clss).length) :
    ∃ lcm, getLCM mask fctlist (locexp clss) = some lcm ∧
      (lcm = period clss mask ∨
        LARGE_NUM / maxprmfctr < lcm ∧ lcm ∣ period clss mask) := by
  have table := (exponents clss known).1
  have positive : 0 < period clss mask :=
    period_pos fun j hj => lt_of_lt_of_le (inside j hj) table
  have built := maskExpons_eq complete known mask 0 1 Nat.one_pos
    (by simpa only [Nat.zero_add] using inside)
  have zero : exponsOf 1 = fun _ => 0 := by
    funext q
    simp [exponsOf]
  simp only [Nat.zero_add] at built
  rw [zero] at built
  have small : ∀ q : Nat, q.Prime → q ∣ period clss mask → q < maxprmfctr + 1 := by
    intro q prime divides
    have multiple : period clss mask ∣
        (mask.bitIndices.map fun j => adcprime.getD j 0 - 1).prod := by
      refine lcmAll_dvd_iff.mpr ?_
      intro k hk
      obtain ⟨j, hj, rfl⟩ := List.mem_map.mp hk
      exact (Nat.div_dvd_of_dvd (Nat.gcd_dvd_left _ _)).trans
        (List.dvd_prod (List.mem_map_of_mem hj))
    obtain ⟨k, hk, part⟩ := (Prime.dvd_prod_iff prime.prime).mp (divides.trans multiple)
    obtain ⟨j, hj, rfl⟩ := List.mem_map.mp hk
    have := le_of_dvd_prime_sub (lt_of_lt_of_le (inside j hj) table) prime part
    omega
  have product := prod_factorization positive.ne' small
  obtain ⟨lcm, multiplied, spec⟩ := multiplyExpons_spec (exponsOf (period clss mask))
    (List.range (maxprmfctr + 1)) (by simp) 1 (by decide)
  have powers : (List.range (maxprmfctr + 1)).map (fun i =>
      i ^ (exponsOf (period clss mask) i).toNat) =
        (List.range (maxprmfctr + 1)).map fun q => q ^ (period clss mask).factorization q := rfl
  rw [powers, product, Nat.one_mul] at spec
  refine ⟨lcm, ?_, spec⟩
  rw [getLCM, built, Option.bind_some]
  exact multiplied

end Product

section Projections

variable {clss : Char} {dcdim : Nat}

def factor (clss : Char) (i : Nat) : Nat := adcgen.getD i 0 ^ (locexp clss).getD i 0

/-- The value of an attribute in tuple `t`, where 0 is the seed. -/
def attrAt (clss : Char) (t i : Nat) : Nat :=
  (adcprime.getD i 0 + 1) / 2 * factor clss i ^ t % adcprime.getD i 0

theorem tmpgen_mod (gen pr j : Nat) : tmpgen gen pr j % pr = gen ^ (j + 1) % pr := by
  induction j with
  | zero => rw [tmpgen, Nat.zero_add, pow_one]
  | succ j ih =>
      rw [tmpgen, Nat.mod_mod, Nat.mul_mod, ih, ← Nat.mul_mod, ← pow_succ]

/-- The state behind `t` tuples. -/
structure Ready (clss : Char) (dcdim t : Nat) (g : Generator) : Prop where
  gens : ∀ i < dcdim, g.gens i % adcprime.getD i 0 = factor clss i % adcprime.getD i 0
  seed : ∀ i < dcdim, g.seed i = attrAt clss t i

theorem ready_start (known : clss ∈ classes) (covered : dcdim ≤ (locexp clss).length)
    (g : Generator) (fresh : g.gens = fun i => adcgen.getD i 0) :
    Ready clss dcdim 0 (g.start dcdim clss) := by
  have table := exponents clss known
  constructor
  · intro i inside
    have exponent := table.2 i (by omega)
    simp only [Generator.start, if_pos inside, tmpgen_mod, fresh, factor]
    rw [Nat.sub_add_cancel (by omega)]
  · intro i inside
    have entry := tables i (by omega)
    simp only [Generator.start, if_pos inside, attrAt, pow_zero, mul_one]
    rw [Nat.mod_eq_of_lt (by omega)]

theorem Ready.next {t : Nat} {g : Generator} (h : Ready clss dcdim t g) :
    Ready clss dcdim (t + 1) (g.next dcdim) := by
  refine ⟨h.gens, ?_⟩
  intro i inside
  simp only [Generator.next, if_pos inside]
  rw [h.seed i inside, Nat.mul_mod, h.gens i inside, ← Nat.mul_mod, attrAt, attrAt, Nat.mod_mul_mod,
    Nat.mul_assoc, ← pow_succ]

/-- The attributes of tuple `t`. -/
def attrs (clss : Char) (dcdim t : Nat) : List Nat := (List.range dcdim).map (attrAt clss t)

theorem generateTuples_ready (measnum : Nat) (dims : dcdim ≤ 20) (few : measnum ≤ measbound)
    (n t : Nat) (g : Generator) (started : g.tuplenum ≠ 0) (h : Ready clss dcdim t g) :
    ∃ tuples, generateTuples dcdim measnum clss n g = some tuples ∧
      tuples.map Tuple.attr = (List.range' (t + 1) n).map (attrs clss dcdim) := by
  induction n generalizing t g with
  | zero => exact ⟨[], rfl, rfl⟩
  | succ n ih =>
      obtain ⟨tuples, drawn, values⟩ := ih (t + 1) (g.next dcdim) (by simp [Generator.next]) h.next
      have first : (List.range dcdim).map (g.next dcdim).seed = attrs clss dcdim (t + 1) := by
        refine List.map_congr_left ?_
        intro i hi
        exact h.next.seed i (List.mem_range.mp hi)
      rw [generateTuples, getNextTuple, if_neg (by omega), if_neg (by omega),
        if_neg (by omega), if_neg started]
      simp only [Option.bind_some, drawn, Option.map_some]
      refine ⟨_, rfl, ?_⟩
      rw [List.map_cons, values, first, List.range'_succ, List.map_cons]

theorem generateTuples_eq (known : clss ∈ classes) (covered : dcdim ≤ (locexp clss).length)
    {measnum : Nat} (few : measnum ≤ measbound) (n : Nat) :
    ∃ tuples, generateTuples dcdim measnum clss n .initial = some tuples ∧
      tuples.map Tuple.attr = (List.range' 1 n).map (attrs clss dcdim) := by
  have dims : dcdim ≤ 20 := covered.trans (exponents clss known).1
  cases n with
  | zero => exact ⟨[], rfl, rfl⟩
  | succ n =>
      have start := (ready_start known covered .initial rfl).next
      obtain ⟨tuples, drawn, values⟩ := generateTuples_ready measnum dims few n 1 _
        (by simp [Generator.next]) start
      have first : (List.range dcdim).map ((Generator.initial.start dcdim clss).next dcdim).seed =
          attrs clss dcdim 1 := by
        refine List.map_congr_left ?_
        intro i hi
        exact start.seed i (List.mem_range.mp hi)
      have zero : Generator.initial.tuplenum = 0 := rfl
      rw [generateTuples, getNextTuple, if_neg (by omega), if_neg (by omega), if_neg (by omega),
        if_pos zero]
      simp only [Option.bind_some, drawn, Option.map_some]
      refine ⟨_, rfl, ?_⟩
      rw [List.map_cons, values, first, List.range'_succ, List.map_cons]

theorem attrAt_eq_iff (known : clss ∈ classes) {i : Nat} (inside : i < (locexp clss).length)
    (s t : Nat) :
    attrAt clss s i = attrAt clss t i ↔ s ≡ t [MOD order (locexp clss) i] := by
  have table := exponents clss known
  have exponent := table.2 i inside
  obtain ⟨prime, primitive⟩ := prime_and_order (show i < 20 by omega)
  have entry := tables i (by omega)
  have : Fact (adcprime.getD i 0).Prime := ⟨prime⟩
  have power := orderOf_power primitive (show (locexp clss).getD i 0 ≠ 0 by omega)
  rw [← factor] at power
  -- a zero factor has no powers equal to one, so its order would be zero
  have nonzero : (factor clss i : ZMod (adcprime.getD i 0)) ≠ 0 := by
    intro zero
    have orders := order_pos (show i < 20 by omega) (locexp clss)
    rw [zero, orderOf_zero] at power
    rw [order] at orders
    omega
  have half : (((adcprime.getD i 0 + 1) / 2 : Nat) : ZMod (adcprime.getD i 0)) ≠ 0 := by
    rw [Ne, ZMod.natCast_eq_zero_iff]
    intro divides
    have := Nat.le_of_dvd (by omega) divides
    omega
  rw [attrAt, attrAt, geometric_eq_iff prime half nonzero, power]
  rfl

theorem mem_attributes {mask j : Nat} : j ∈ attributes dcdim mask ↔ j < dcdim ∧ mask.testBit j := by
  simp [attributes]

theorem lt_of_mem_bitIndices {mask j : Nat} (inside : mask < 2 ^ dcdim) (h : j ∈ mask.bitIndices) :
    j < dcdim :=
  (Nat.pow_lt_pow_iff_right (by decide)).mp
    (lt_of_le_of_lt (Nat.two_pow_le_of_mem_bitIndices h) inside)

theorem mem_attributes_iff {mask j : Nat} (inside : mask < 2 ^ dcdim) :
    j ∈ attributes dcdim mask ↔ j ∈ mask.bitIndices := by
  rw [mem_attributes, ← Nat.mem_bitIndices]
  exact ⟨fun h => h.2, fun h => ⟨lt_of_mem_bitIndices inside h, h⟩⟩

theorem project_eq_iff (known : clss ∈ classes) (covered : dcdim ≤ (locexp clss).length)
    {mask : Nat} (inside : mask < 2 ^ dcdim) (s t : Nat) :
    (attributes dcdim mask).map (attrAt clss s) = (attributes dcdim mask).map (attrAt clss t) ↔
      s ≡ t [MOD period clss mask] := by
  have same : period clss mask =
      lcmAll ((attributes dcdim mask).map (order (locexp clss))) := by
    refine lcmAll_congr ?_
    intro k
    simp only [List.mem_map, mem_attributes_iff inside]
  rw [List.map_inj_left, same, modEq_lcmAll_iff, List.forall_mem_map]
  refine forall₂_congr ?_
  intro j hj
  exact attrAt_eq_iff known (lt_of_lt_of_le (mem_attributes.mp hj).1 covered) s t

def distinct (selection : List Nat) (tuples : List Tuple) : Nat :=
  (tuples.map (Tuple.project selection)).dedup.length

theorem distinct_eq (known : clss ∈ classes) (covered : dcdim ≤ (locexp clss).length)
    {mask : Nat} (inside : mask < 2 ^ dcdim) {n : Nat} {tuples : List Tuple}
    (values : tuples.map Tuple.attr = (List.range' 1 n).map (attrs clss dcdim)) :
    distinct ((attributes dcdim mask).map (· + 1)) tuples = min n (period clss mask) := by
  have rows : tuples.map (Tuple.project ((attributes dcdim mask).map (· + 1))) =
      (List.range n).map fun t => (attributes dcdim mask).map (attrAt clss (t + 1)) := by
    have project : Tuple.project ((attributes dcdim mask).map (· + 1)) =
        (fun attr => (attributes dcdim mask).map fun j => attr.getD j 0) ∘ Tuple.attr := by
      funext tuple
      simp [Tuple.project, List.map_map, Function.comp_def]
    rw [project, ← List.map_map, values, List.range'_eq_map_range, List.map_map, List.map_map]
    refine List.map_congr_left ?_
    intro t _
    refine List.map_congr_left ?_
    intro j hj
    have small := (mem_attributes.mp hj).1
    simp [attrs, small, Nat.add_comm 1 t]
  have repeats (s t : Nat) : (attributes dcdim mask).map (attrAt clss (s + 1)) =
      (attributes dcdim mask).map (attrAt clss (t + 1)) ↔ s ≡ t [MOD period clss mask] := by
    rw [project_eq_iff known covered inside]
    exact ⟨Nat.ModEq.add_right_cancel' 1, Nat.ModEq.add_right 1⟩
  have dims : dcdim ≤ 20 := covered.trans (exponents clss known).1
  have positive : 0 < period clss mask :=
    period_pos fun j hj => lt_of_lt_of_le (lt_of_mem_bitIndices inside hj) dims
  rw [distinct, rows, ← List.card_toFinset, ← card_image_range positive repeats n]
  congr 1

end Projections

section Predicted

theorem mapM_eq_some {α β : Type} {f : α → Option β} {g : α → β} {l : List α}
    (h : ∀ x ∈ l, f x = some (g x)) : l.mapM f = some (l.map g) := by
  induction l with
  | nil => rfl
  | cons x l ih =>
      rw [List.forall_mem_cons] at h
      rw [List.mapM_cons, h.1, ih h.2]
      rfl

theorem DcView.le_trans (a b c : DcView) (hab : a.le b = true) (hbc : b.le c = true) :
    a.le c = true := by
  simp only [DcView.le, Bool.or_eq_true, Bool.and_eq_true, decide_eq_true_eq, beq_iff_eq] at *
  omega

theorem DcView.le_total (a b : DcView) : (a.le b || b.le a) = true := by
  simp only [DcView.le, Bool.or_eq_true, Bool.and_eq_true, decide_eq_true_eq, beq_iff_eq]
  omega

theorem DcView.eq_of_le_empty {first : DcView} (below : first.le ⟨0, 0⟩ = true) :
    first = ⟨0, 0⟩ := by
  obtain ⟨vsize, vidx⟩ := first
  simp only [DcView.le, Bool.or_eq_true, Bool.and_eq_true, decide_eq_true_eq, beq_iff_eq] at below
  simp only [DcView.mk.injEq]
  omega

theorem sorted_views (views : List DcView) : ∃ sorted,
    (⟨0, 0⟩ :: views).mergeSort DcView.le = ⟨0, 0⟩ :: sorted ∧
      sorted.Pairwise (fun a b => a.le b = true) ∧ sorted.Perm views := by
  have ordered := List.pairwise_mergeSort DcView.le_trans DcView.le_total (⟨0, 0⟩ :: views)
  have order := List.mergeSort_perm (⟨0, 0⟩ :: views) DcView.le
  generalize (⟨0, 0⟩ :: views).mergeSort DcView.le = all at *
  obtain ⟨first, sorted, rfl⟩ := List.exists_cons_of_ne_nil fun empty : all = [] => by
    rw [empty] at order
    exact absurd order.length_eq (by simp)
  rw [List.pairwise_cons] at ordered
  have empty : first = ⟨0, 0⟩ := by
    rcases List.mem_cons.mp (order.mem_iff.mpr List.mem_cons_self) with same | later
    · exact same.symm
    · exact DcView.eq_of_le_empty (ordered.1 _ later)
  subst empty
  exact ⟨sorted, rfl, ordered.2, (List.perm_cons _).mp order⟩

theorem filter_multiples {v : Nat} (positive : 0 < v) (m : Nat) :
    (List.range m).filter (fun i => i % v = 0) =
      (List.range ((m + v - 1) / v)).map fun k => k * v := by
  induction m with
  | zero => simp [Nat.div_eq_of_lt (show v - 1 < v by omega)]
  | succ m ih =>
      have above : (m + 1 + v - 1) / v = m / v + 1 := by
        rw [show m + 1 + v - 1 = m + v by omega, Nat.add_div_right m positive]
      have split := Nat.div_add_mod m v
      rw [List.range_succ, List.filter_append, ih, above]
      by_cases multiple : m % v = 0
      · have below : (m + v - 1) / v = m / v := by
          rw [Nat.div_eq_iff positive]
          rw [Nat.mul_comm] at split
          omega
        rw [below, List.range_succ, List.map_append]
        have whole : m / v * v = m := Nat.div_mul_cancel (Nat.dvd_of_mod_eq_zero multiple)
        simp [multiple, whole]
      · have less := Nat.mod_lt m positive
        have below : (m + v - 1) / v = m / v + 1 := by
          rw [Nat.div_eq_iff positive, Nat.add_mul]
          rw [Nat.mul_comm] at split
          omega
        simp [below, multiple]

theorem writePlaces_eq {v : Nat} (positive : 0 < v) (m : Nat) :
    (List.range (m + 1)).filter (fun i => 1 ≤ i ∧ (i - 1) % v = 0) =
      (List.range ((m + v - 1) / v)).map fun k => k * v + 1 := by
  have shifted : (fun i => decide (1 ≤ i ∧ (i - 1) % v = 0)) ∘ Nat.succ =
      fun i => decide (i % v = 0) := by
    funext i
    simp
  rw [List.range_succ_eq_map, List.filter_cons_of_neg (by simp), List.filter_map, shifted,
    filter_multiples positive, List.map_map]
  rfl

theorem viewIncrement_pos (clss : Char) : 0 < viewIncrement clss := by
  unfold viewIncrement
  split <;> decide

def lineOf (dcdim : Nat) (vw : DcView) : ViewLine :=
  ⟨(attributes dcdim vw.vidx).map (· + 1), vw.vsize⟩

theorem writeViews_getElem? {dcdim vinc : Nat} (positive : 0 < vinc) {sorted : List DcView}
    (length : sorted.length = 2 ^ dcdim - 1) (k : Nat) :
    (writeViews dcdim vinc (⟨0, 0⟩ :: sorted)).views[k]? =
      sorted[k * vinc]?.map (lineOf dcdim) := by
  have room : 2 ^ dcdim = sorted.length + 1 := by
    have := Nat.two_pow_pos dcdim
    omega
  have below (k : Nat) : k < (sorted.length + vinc - 1) / vinc ↔ k * vinc < sorted.length := by
    rw [Nat.lt_div_iff_mul_lt positive]
    omega
  have written : (List.range ((sorted.length + vinc - 1) / vinc)).filterMap
      (fun k => sorted[k * vinc]?) =
        (List.range ((sorted.length + vinc - 1) / vinc)).map
          fun k => sorted.getD (k * vinc) ⟨0, 0⟩ := by
    rw [← List.filterMap_eq_map]
    refine List.filterMap_congr ?_
    intro k hk
    have inside := (below k).mp (List.mem_range.mp hk)
    simp [inside]
  have places : (writeViews dcdim vinc (⟨0, 0⟩ :: sorted)).views =
      ((List.range ((sorted.length + vinc - 1) / vinc)).map
        fun k => sorted.getD (k * vinc) ⟨0, 0⟩).map (lineOf dcdim) := by
    rw [← written, writeViews, room, writePlaces_eq positive, List.filterMap_map]
    rfl
  rw [places, List.map_map, List.getElem?_map]
  by_cases inside : k * vinc < sorted.length
  · simp [(below k).mpr inside, inside]
  · have past : (List.range ((sorted.length + vinc - 1) / vinc))[k]? = none := by
      rw [List.getElem?_eq_none_iff, List.length_range]
      exact Nat.le_of_not_lt fun h => inside ((below k).mp h)
    rw [past, List.getElem?_eq_none_iff.mpr (Nat.le_of_not_lt inside)]
    rfl

/-- The file for the tuples: of the nonempty views, the smallest first, every `vinc`th with its
attributes and the number of distinct projections on them. -/
structure Predicts (dcdim vinc : Nat) (tuples : List Tuple) (file : ViewSizes) : Prop where
  views : ∃ sorted : List DcView, sorted.Pairwise (fun a b => a.le b = true) ∧
    sorted.Perm ((List.range' 1 (2 ^ dcdim - 1)).map fun mask =>
      ⟨distinct ((attributes dcdim mask).map (· + 1)) tuples, mask⟩) ∧
    ∀ k, file.views[k]? = sorted[k * vinc]?.map (lineOf dcdim)
  totalInBytes : file.totalInBytes =
    (file.views.map fun line => (8 + 4 * line.selection.length) * line.size).sum % 2 ^ 64
  nCubeTuples : file.nCubeTuples = (file.views.map ViewLine.size).sum % 2 ^ 64

theorem Predicts.line {dcdim vinc : Nat} {tuples : List Tuple} {file : ViewSizes}
    (h : Predicts dcdim vinc tuples file) {line : ViewLine} (listed : line ∈ file.views) :
    ∃ mask, 0 < mask ∧ mask < 2 ^ dcdim ∧
      line.selection = (attributes dcdim mask).map (· + 1) ∧
      line.size = distinct line.selection tuples := by
  obtain ⟨sorted, _, all, lines⟩ := h.views
  obtain ⟨k, here⟩ := List.mem_iff_getElem?.mp listed
  rw [lines, Option.map_eq_some_iff] at here
  obtain ⟨vw, found, rfl⟩ := here
  obtain ⟨mask, hm, rfl⟩ := List.mem_map.mp (all.mem_iff.mp (List.mem_of_getElem? found))
  rw [List.mem_range'_1] at hm
  exact ⟨mask, hm.1, by omega, rfl, rfl⟩

theorem writeViews_predicts (dcdim : Nat) {vinc : Nat} (positive : 0 < vinc) (tuples : List Tuple) :
    Predicts dcdim vinc tuples (writeViews dcdim vinc
      ((⟨0, 0⟩ :: (List.range' 1 (2 ^ dcdim - 1)).map fun mask =>
        ⟨distinct ((attributes dcdim mask).map (· + 1)) tuples, mask⟩).mergeSort DcView.le)) := by
  obtain ⟨sorted, all, ordered, order⟩ := sorted_views ((List.range' 1 (2 ^ dcdim - 1)).map
    fun mask => ⟨distinct ((attributes dcdim mask).map (· + 1)) tuples, mask⟩)
  have length : sorted.length = 2 ^ dcdim - 1 := by simp [order.length_eq]
  rw [all]
  refine ⟨⟨sorted, ordered, order, writeViews_getElem? positive length⟩, ?_, ?_⟩
  · simp [writeViews, Function.comp_def]
  · simp [writeViews, Function.comp_def]

variable {clss : Char} {dcdim : Nat}

theorem getFactorization_complete :
    ∃ fctlist, (listFirstPrimes UpPrimeLim).bind getFactorization = some fctlist ∧
      Complete fctlist := by
  have listed : 98717 ∈ primesBelow UpPrimeLim :=
    mem_primesBelow.mpr ⟨by decide, (prime_and_order (show 14 < 20 by decide)).1⟩
  rw [listFirstPrimes_eq (show 8 ≤ UpPrimeLim by decide), Option.bind_some]
  exact getFactorization_factors listed

theorem capped_lcm {fctlist : Nat → Option Factorization} (complete : Complete fctlist)
    (known : clss ∈ classes) (covered : dcdim ≤ (locexp clss).length) {mask : Nat}
    (inside : mask < 2 ^ dcdim) {n : Nat} (few : n < 2 ^ 31) :
    ∃ lcm, viewLCM clss fctlist mask = some lcm ∧ min n lcm = min n (period clss mask) := by
  have dims : dcdim ≤ 20 := covered.trans (exponents clss known).1
  have positive : 0 < period clss mask :=
    period_pos fun j hj => lt_of_lt_of_le (lt_of_mem_bitIndices inside hj) dims
  obtain ⟨lcm, built, whole | ⟨large, divides⟩⟩ := getLCM_spec complete known
    fun j hj => lt_of_lt_of_le (lt_of_mem_bitIndices inside hj) covered
  · exact ⟨lcm, by rw [viewLCM_eq known, built], by rw [whole]⟩
  · refine ⟨lcm, by rw [viewLCM_eq known, built], ?_⟩
    have bound : 2 ^ 31 ≤ LARGE_NUM / maxprmfctr := by decide
    have := Nat.le_of_dvd positive divides
    omega

/-- What `CalculateVeiwSizes` writes for a view is the number of distinct projections of
the tuples that `GetNextTuple` generates; `GetLCM` stays inside its table and within
64 bits. -/
theorem view_sizes_exact (clss : Char) (known : clss ∈ classes) (dcdim measnum n : Nat)
    (covered : dcdim ≤ (locexp clss).length) (measures : measnum ≤ measbound) (few : n < 2 ^ 31) :
    ∃ tuples, generateTuples dcdim measnum clss n .initial = some tuples ∧ tuples.length = n ∧
      (∃ fctlist, (listFirstPrimes UpPrimeLim).bind getFactorization = some fctlist ∧
        ∀ mask, 0 < mask → mask < 2 ^ dcdim → ∃ lcm, viewLCM clss fctlist mask = some lcm ∧
          min n lcm = distinct ((attributes dcdim mask).map (· + 1)) tuples) ∧
      ∃ file, calculateVeiwSizes clss dcdim n = some file ∧
        Predicts dcdim (viewIncrement clss) tuples file ∧
        ∀ line ∈ file.views, ∃ mask, 0 < mask ∧ mask < 2 ^ dcdim ∧
          line.selection = (attributes dcdim mask).map (· + 1) ∧
          line.size = distinct line.selection tuples := by
  obtain ⟨tuples, drawn, values⟩ := generateTuples_eq known covered measures n
  obtain ⟨fctlist, built, complete⟩ := getFactorization_complete
  have count : tuples.length = n := by
    have := congrArg List.length values
    simpa using this
  have counted {mask : Nat} (inside : mask < 2 ^ dcdim) := distinct_eq known covered inside values
  refine ⟨tuples, drawn, count, ⟨fctlist, built, ?_⟩, ?_⟩
  · intro mask _ inside
    obtain ⟨lcm, made, capped⟩ := capped_lcm complete known covered inside few
    exact ⟨lcm, made, by rw [capped, counted inside]⟩
  · have size : ∀ mask ∈ List.range' 1 (2 ^ dcdim - 1), dcview clss n fctlist mask =
        some ⟨distinct ((attributes dcdim mask).map (· + 1)) tuples, mask⟩ := by
      intro mask hm
      rw [List.mem_range'_1] at hm
      have inside : mask < 2 ^ dcdim := by omega
      obtain ⟨lcm, made, capped⟩ := capped_lcm complete known covered inside few
      have cut : (if n < lcm then n else lcm) = min n lcm := by
        split_ifs <;> omega
      rw [dcview, made, Option.map_some, cut, capped, counted inside]
    have predicts := writeViews_predicts dcdim (viewIncrement_pos clss) tuples
    refine ⟨_, ?_, predicts, fun line listed => predicts.line listed⟩
    rw [Option.bind_eq_some_iff] at built
    obtain ⟨prlist, primes, table⟩ := built
    simp only [calculateVeiwSizes, primes, Option.bind_eq_bind, Option.bind_some, table,
      mapM_eq_some size, Option.pure_def]

/-- Class U writes every eighth of the 31 views of five attributes. -/
theorem view_sizes_exact_twoTuples :
    ('U' ∈ classes ∧ 5 ≤ (locexp 'U').length ∧ 1 ≤ measbound ∧ 2 < 2 ^ 31) ∧
      ∃ file, calculateVeiwSizes 'U' 5 2 = some file ∧ file.views.length = 4 := by
  refine ⟨by decide, ?_⟩
  obtain ⟨_, _, _, _, file, made, predicts, _⟩ := view_sizes_exact 'U' (by decide) 5 1 2 (by decide)
    (by decide) (by decide)
  obtain ⟨sorted, _, all, lines⟩ := predicts.views
  have length : sorted.length = 31 := by simp [all.length_eq]
  have fourth := lines 3
  have fifth := lines 4
  have step : viewIncrement 'U' = 8 := by decide
  rw [step, List.getElem?_eq_getElem (show 3 * 8 < sorted.length by omega)] at fourth
  rw [step, List.getElem?_eq_none_iff.mpr (show sorted.length ≤ 4 * 8 by omega)] at fifth
  have more := (List.getElem?_eq_some_iff.mp fourth).1
  have most := List.getElem?_eq_none_iff.mp fifth
  exact ⟨file, made, by omega⟩

end Predicted

end Baseliner.AdcViewSizes
