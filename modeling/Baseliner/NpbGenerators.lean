import Mathlib.Data.List.Range
import Baseliner.NpbRandlc

/-! The other files that `RAND` can name. `vranlc` of `randdpvec.f` goes on with 64 seeds at
once, by the 64th power of the multiplier; `randi8_safe.f` multiplies the halves of 64-bit
integers, so that no product is cut off by the word. All of them draw one stream. -/

namespace Baseliner.NpbGenerators

open NpbStreams NpbRandlc RoundedSteps Steps

/-! ### `randdpvec.f` -/

/-- The parameters of `vranlc`; `randlc` has those of `randdp.f`. -/
def vecParameters : Constants where
  r23 := (2 ^ 23)⁻¹
  r46 := (2 ^ 23)⁻¹ * (2 ^ 23)⁻¹
  t23 := 2 ^ 23
  t46 := 2 ^ 23 * 2 ^ 23

def nv : ℕ := 64

/-- `n` entries of `xv`, by calls of `randlc` from the seed `t1` on. -/
def firstSeeds (a : ℚ) : ℕ → ℚ → Steps (List ℚ)
  | 0, _ => return []
  | n + 1, t1 => do
      let (t1, y) ← randlc t1 a
      let s ← result (vecParameters.t46 * y)
      let xv ← firstSeeds a n t1
      return s :: xv

/-- `n` calls of `randlc` that keep the last number in `t2`. -/
def lastNumber (a : ℚ) : ℕ → ℚ → ℚ → Steps ℚ
  | 0, _, t2 => return t2
  | n + 1, t1, _ => do
      let (t1, t2) ← randlc t1 a
      lastNumber a n t1 t2

/-- The multiplier `an` of a whole batch. -/
def batchMultiplier (a : ℚ) : Steps ℚ := do
  let t2 ← result (vecParameters.r46 * a)
  let t2 ← lastNumber a (nv - 1) a t2
  result (vecParameters.t46 * t2)

def multiply (k : Constants) (a1 a2 x : ℚ) : Steps ℚ := do
  let (x1, x2) ← split k x
  let p ← result (a1 * x2)
  let q ← result (a2 * x1)
  let t1 ← result (p + q)
  let s ← result (k.r23 * t1)
  let t2 ← whole s
  let p ← result (k.t23 * t2)
  let yy ← result (t1 - p)
  let p ← result (k.t23 * yy)
  let q ← result (a2 * x2)
  let t3 ← result (p + q)
  let s ← result (k.r46 * t3)
  let t4 ← whole s
  let p ← result (k.t46 * t4)
  result (t3 - p)

def each (f : ℚ → Steps ℚ) : List ℚ → Steps (List ℚ)
  | [] => return []
  | x :: xs => do
      let y ← f x
      let ys ← each f xs
      return y :: ys

/-- The entry `xv(i)`, none where nothing has been stored. -/
def entry (xv : List ℚ) : ℕ → Option ℚ
  | 0 => none
  | i + 1 => xv[i]?

/-- The loop over `j`, with `left` numbers still to come: the numbers, and the seed behind the
last. The seeds are not multiplied once all numbers are there. -/
def batches (a1 a2 : ℚ) (left : ℕ) (xv : List ℚ) : Steps (List ℚ × Option ℚ) := do
  let n1 := min nv left
  let y ← each (fun x => result (vecParameters.r46 * x)) (xv.take n1)
  if n1 = left then return (y, entry xv n1)
  else do
    let xv ← each (multiply vecParameters a1 a2) xv
    let (ys, x) ← batches a1 a2 (left - n1) xv
    return (y ++ ys, x)
termination_by left
decreasing_by
  simp only [nv] at *
  omega

/-- The two parts of the multiplier of a batch, where more than one batch is to come; else `a1` and
`a2` hold what they held before. -/
def batchParts (old : ℚ × ℚ) (n : ℕ) (a : ℚ) : Steps (ℚ × ℚ) :=
  if nv < n then do
    let an ← batchMultiplier a
    split vecParameters an
  else return old

/-- `vranlc` of `randdpvec.f`. -/
def vranlcVec (old : ℚ × ℚ) (n : ℕ) (x a : ℚ) : Steps (List ℚ × Option ℚ) := do
  let xv ← firstSeeds a (min n nv) x
  let (a1, a2) ← batchParts old n a
  batches a1 a2 n xv

/-- Calls for so many numbers each, every one from the seed that the one before has left. -/
def draws (old : ℚ × ℚ) (a : ℚ) : List ℕ → ℚ → Steps (List ℚ × Option ℚ)
  | [], x => return ([], some x)
  | n :: ns, x => do
      let (ys, last) ← vranlcVec old n x a
      match last with
      | none => return (ys, none)
      | some x => do
          let (zs, last) ← draws old a ns x
          return (ys ++ zs, last)

/-! ### `randi8_safe.f` -/

def ibits (i pos len : UInt64) : UInt64 := i >>> pos &&& (1 <<< len - 1)

def randi8Safe (x a : ℕ) : ℕ :=
  let lx := UInt64.ofNat x
  let la := UInt64.ofNat a
  let a1 := ibits la 23 23
  let a2 := ibits la 0 23
  let x1 := ibits lx 23 23
  let x2 := ibits lx 0 23
  let xa := ibits (a1 * x2 + a2 * x1) 0 23 <<< 23 + a2 * x2
  (ibits xa 0 46).toNat

/-! ### One batch after the other -/

theorem vecParameters_eq : vecParameters = parameters := by
  simp only [vecParameters, parameters, Constants.mk.injEq]
  norm_num

theorem advance_eq (k : Constants) (a1 a2 x : ℚ) :
    advance k a1 a2 x = do
      let x ← multiply k a1 a2 x
      let y ← result (k.r46 * x)
      return (x, y) := rfl

theorem multiply_exact (a1 a2 x : ℕ) :
    (multiply parameters a1 a2 x).exact = (product a1 a2 x : ℚ) := by
  have both := advance_exact a1 a2 x
  simp only [advance_eq, exact_bind, exact_result, exact_pure, Prod.mk.injEq] at both
  exact both.1

theorem multiply_always {a1 a2 x : ℕ} (h1 : a1 < T23) (h2 : a2 < T23) (hx : x < T46) :
    (multiply parameters a1 a2 x).Always Held FitsInt := by
  have both := advance_always h1 h2 hx
  rw [advance_eq, always_bind] at both
  exact both.1

/-- The seed behind `i + 1` calls. -/
def seed (a x i : ℕ) : ℕ := a ^ (i + 1) * x % T46

theorem seed_lt (a x i : ℕ) : seed a x i < T46 := Nat.mod_lt _ T46_pos

theorem pow_mul_mod (a m n x : ℕ) : a ^ m * (a ^ n * x % T46) % T46 = a ^ (m + n) * x % T46 := by
  rw [Nat.mul_mod, Nat.mod_mod, ← Nat.mul_mod, pow_add, Nat.mul_assoc]

theorem seed_next (a x n i : ℕ) : seed a (a ^ n * x % T46) i = seed a x (n + i) := by
  rw [seed, pow_mul_mod, seed]
  congr 3
  omega

theorem stream_eq (a n x : ℕ) : stream a n x =
    ((List.range n).map fun i => normalized (seed a x i), ((a ^ n * x % T46 : ℕ) : ℚ)) := rfl

theorem stream_add (a m n x : ℕ) : stream a (m + n) x =
    ((stream a m x).1 ++ (stream a n (a ^ m * x % T46)).1,
      (stream a n (a ^ m * x % T46)).2) := by
  simp only [stream_eq, List.range_add, List.map_append, List.map_map, Function.comp_def, seed_next,
    pow_mul_mod, Nat.add_comm n m]

theorem held_seed (a x i : ℕ) : Held (seed a x i) :=
  held_natCast ((seed_lt a x i).trans (by decide))

theorem t46_normalized (n : ℕ) : parameters.t46 * normalized n = n := by
  norm_num [normalized, parameters, T46]
  ring

theorem r46_normalized (n : ℕ) : parameters.r46 * n = normalized n := r46_mul n

theorem firstSeeds_spec {x a : ℕ} (hx : x < T46) (ha : a < T46) (n : ℕ) :
    (firstSeeds a n x).Always Held FitsInt ∧
      (firstSeeds a n x).exact = (List.range n).map fun i => (seed a x i : ℚ) := by
  induction n generalizing x with
  | zero => exact ⟨trivial, rfl⟩
  | succ n ih =>
    obtain ⟨always, exact⟩ := ih (Nat.mod_lt (a * x) T46_pos)
    have first : seed a x 0 = a * x % T46 := by rw [seed, zero_add, pow_one]
    have next (i : ℕ) : seed a (a * x % T46) i = seed a x (i + 1) := by
      have := seed_next a x 1 i
      rwa [pow_one, Nat.add_comm] at this
    simp only [firstSeeds, vecParameters_eq, always_bind, exact_bind, randlc_exact, always_result,
      exact_result, t46_normalized, always_pure, exact_pure, exact, next, and_true]
    refine ⟨⟨randlc_always hx ha, ?_, always⟩, ?_⟩
    · rw [← first]
      exact held_seed a x 0
    · rw [List.range_succ_eq_map, List.map_cons, List.map_map, first]
      rfl

theorem lastNumber_spec {x a : ℕ} (hx : x < T46) (ha : a < T46) (n : ℕ) :
    (lastNumber a n x (normalized x)).Always Held FitsInt ∧
      (lastNumber a n x (normalized x)).exact = normalized (a ^ n * x % T46) := by
  induction n generalizing x with
  | zero =>
    rw [pow_zero, Nat.one_mul, Nat.mod_eq_of_lt hx]
    exact ⟨trivial, rfl⟩
  | succ n ih =>
    obtain ⟨always, exact⟩ := ih (Nat.mod_lt (a * x) T46_pos)
    have next := pow_mul_mod a n 1 x
    rw [pow_one] at next
    simp only [lastNumber, always_bind, exact_bind, randlc_exact, exact, next]
    exact ⟨⟨randlc_always hx ha, always⟩, trivial⟩

theorem batchMultiplier_spec {a : ℕ} (ha : a < T46) :
    (batchMultiplier a).Always Held FitsInt ∧
      (batchMultiplier a).exact = ((a ^ nv % T46 : ℕ) : ℚ) := by
  obtain ⟨always, exact⟩ := lastNumber_spec ha ha (nv - 1)
  have power : a ^ (nv - 1) * a = a ^ nv := (pow_succ a (nv - 1)).symm
  simp only [batchMultiplier, vecParameters_eq, always_bind, exact_bind, always_result,
    exact_result, r46_normalized, t46_normalized, exact, power]
  refine ⟨⟨held_div_T46 (ha.trans (by decide)), always, ?_⟩, trivial⟩
  exact held_natCast ((Nat.mod_lt _ T46_pos).trans (by decide))

theorem each_spec {f : ℚ → Steps ℚ} {value : ℕ → ℕ} {entries : List ℕ} {g : ℕ → ℚ}
    (always : ∀ i ∈ entries, (f (value i)).Always Held FitsInt)
    (exact : ∀ i ∈ entries, (f (value i)).exact = g i) :
    (each f (entries.map fun i => (value i : ℚ))).Always Held FitsInt ∧
      (each f (entries.map fun i => (value i : ℚ))).exact = entries.map g := by
  induction entries with
  | nil => exact ⟨trivial, rfl⟩
  | cons i entries ih =>
    obtain ⟨rest, same⟩ := ih (fun j mem => always j (List.mem_cons_of_mem i mem))
      (fun j mem => exact j (List.mem_cons_of_mem i mem))
    have first := always i List.mem_cons_self
    simp only [List.map_cons, each, always_bind, exact_bind, exact i List.mem_cons_self, same,
      always_pure, exact_pure, and_true]
    exact ⟨first, rest⟩

theorem multiplier_seed (a x n i : ℕ) :
    a ^ n % T46 * seed a x i % T46 = seed a (a ^ n * x % T46) i := by
  rw [seed_next, seed, Nat.mul_mod, Nat.mod_mod, ← Nat.mul_mod, pow_mul_mod, seed, Nat.add_assoc]

theorem entry_seeds (a x : ℕ) {m n : ℕ} (some_ : 1 ≤ n) (enough : n ≤ m) :
    entry ((List.range m).map fun i => (seed a x i : ℚ)) n =
      some ((a ^ n * x % T46 : ℕ) : ℚ) := by
  obtain ⟨k, rfl⟩ := Nat.exists_eq_add_of_le' some_
  rw [entry, List.getElem?_map, List.getElem?_range (by omega), Option.map_some, seed]

theorem each_numbers (a x n : ℕ) :
    let numbers := each (fun x => result (parameters.r46 * x))
      ((List.range n).map fun i => (seed a x i : ℚ))
    numbers.Always Held FitsInt ∧ numbers.exact = (stream a n x).1 := by
  refine each_spec (fun i _ => ?_) (fun i _ => r46_normalized (seed a x i))
  rw [always_result, r46_normalized]
  exact held_div_T46 ((seed_lt a x i).trans (by decide))

theorem each_multiply (a x n m : ℕ) :
    let seeds := each (multiply parameters (a ^ n % T46 / T23 : ℕ) (a ^ n % T46 % T23 : ℕ))
      ((List.range m).map fun i => (seed a x i : ℚ))
    seeds.Always Held FitsInt ∧
      seeds.exact = (List.range m).map fun i => (seed a (a ^ n * x % T46) i : ℚ) := by
  have small : a ^ n % T46 < T46 := Nat.mod_lt _ T46_pos
  refine each_spec (fun i _ => ?_) (fun i _ => ?_)
  · exact multiply_always (Nat.div_lt_of_lt_mul small) (Nat.mod_lt _ (by decide)) (seed_lt a x i)
  · rw [multiply_exact, product_split, multiplier_seed]

/-- The loop from any batch of seeds on. The multiplier matters where more than one batch is to
come. -/
theorem batches_spec {a left x m : ℕ} {parts : ℚ × ℚ} (some_ : 1 ≤ left)
    (enough : min nv left ≤ m)
    (multiplier : nv < left → parts =
      (((a ^ nv % T46 / T23 : ℕ) : ℚ), ((a ^ nv % T46 % T23 : ℕ) : ℚ))) :
    let run := batches parts.1 parts.2 left ((List.range m).map fun i => (seed a x i : ℚ))
    run.Always Held FitsInt ∧ run.exact = ((stream a left x).1, some (stream a left x).2) := by
  induction left using Nat.strong_induction_on generalizing x with
  | _ left ih =>
    have taken : ((List.range m).map fun i => (seed a x i : ℚ)).take (min nv left) =
        (List.range (min nv left)).map fun i => (seed a x i : ℚ) := by
      rw [← List.map_take, List.take_range, Nat.min_eq_left enough]
    obtain ⟨held, numbers⟩ := each_numbers a x (min nv left)
    rw [batches]
    simp only [vecParameters_eq, always_bind, exact_bind, taken, held, numbers, true_and]
    by_cases last : min nv left = left
    · simp only [if_pos last, always_pure, exact_pure, true_and]
      rw [last] at enough ⊢
      rw [entry_seeds a x some_ enough]
      rfl
    · have whole : min nv left = nv := by omega
      have more : nv < left := by omega
      obtain rfl := multiplier more
      obtain ⟨further, seeds⟩ := each_multiply a x nv m
      obtain ⟨rest, same⟩ := ih (left - nv) (by simp only [nv] at *; omega)
        (x := a ^ nv * x % T46) (by omega) (by omega) (fun _ => rfl)
      simp only [if_neg last]
      simp only [whole, always_bind, exact_bind, further, seeds, rest, same, always_pure,
        exact_pure, true_and]
      have parts := stream_add a nv (left - nv) x
      rw [Nat.add_sub_cancel' more.le] at parts
      rw [parts]

theorem batchParts_spec {a n : ℕ} (ha : a < T46) (old : ℚ × ℚ) :
    (batchParts old n a).Always Held FitsInt ∧ (nv < n → (batchParts old n a).exact =
      (((a ^ nv % T46 / T23 : ℕ) : ℚ), ((a ^ nv % T46 % T23 : ℕ) : ℚ))) := by
  by_cases more : nv < n
  · obtain ⟨power, value⟩ := batchMultiplier_spec ha
    have small : a ^ nv % T46 < T46 := Nat.mod_lt _ T46_pos
    simp only [batchParts, if_pos more, always_bind, exact_bind, power, value, vecParameters_eq,
      split_exact, true_and]
    exact ⟨split_always small, fun _ => trivial⟩
  · rw [batchParts, if_neg more]
    exact ⟨trivial, fun many => absurd many more⟩

theorem vranlcVec_spec {x a n : ℕ} (hx : x < T46) (ha : a < T46) (old : ℚ × ℚ) (some_ : 1 ≤ n) :
    (vranlcVec old n x a).Always Held FitsInt ∧
      (vranlcVec old n x a).exact = ((stream a n x).1, some (stream a n x).2) := by
  obtain ⟨held, seeds⟩ := firstSeeds_spec hx ha (min n nv)
  obtain ⟨power, parts⟩ := batchParts_spec (n := n) ha old
  simp only [vranlcVec, always_bind, exact_bind, held, seeds, power, true_and]
  exact batches_spec some_ (Nat.min_comm nv n).le parts

theorem draws_spec {x a : ℕ} (hx : x < T46) (ha : a < T46) (old : ℚ × ℚ) {ns : List ℕ}
    (some_ : ∀ n ∈ ns, 1 ≤ n) :
    (draws old a ns x).Always Held FitsInt ∧
      (draws old a ns x).exact = ((stream a ns.sum x).1, some (stream a ns.sum x).2) := by
  induction ns generalizing x with
  | nil =>
    rw [List.sum_nil, stream_zero hx]
    exact ⟨trivial, rfl⟩
  | cons n ns ih =>
    obtain ⟨held, numbers⟩ := vranlcVec_spec hx ha old (some_ n List.mem_cons_self)
    obtain ⟨rest, same⟩ := ih (Nat.mod_lt (a ^ n * x) T46_pos) fun k mem =>
      some_ k (List.mem_cons_of_mem n mem)
    rw [List.sum_cons, stream_add]
    simp only [draws, always_bind, exact_bind, held, numbers, stream_eq a n x, rest, same,
      always_pure, exact_pure, true_and]

/-! ### The integer generators -/

theorem ibits_toNat (i : UInt64) {pos len : UInt64} {p l : ℕ} (low : pos.toNat % 64 = p)
    (mask : (1 <<< len - 1 : UInt64).toNat = 2 ^ l - 1) :
    (ibits i pos len).toNat = i.toNat / 2 ^ p % 2 ^ l := by
  rw [ibits, UInt64.toNat_and, mask, Nat.and_two_pow_sub_one_eq_mod, UInt64.toNat_shiftRight, low,
    Nat.shiftRight_eq_div_pow]

theorem ofNat_toNat_mod (n : ℕ) : (UInt64.ofNat n).toNat % T46 = n % T46 := by
  rw [UInt64.toNat_ofNat', Nat.mod_mod_of_dvd]
  exact Nat.pow_dvd_pow 2 (by decide)

theorem high_toNat (n : ℕ) : (ibits (UInt64.ofNat n) 23 23).toNat = n % T46 / T23 := by
  have square : T46 = 2 ^ 23 * 2 ^ 23 := by decide
  have bits : (ibits (UInt64.ofNat n) 23 23).toNat = (UInt64.ofNat n).toNat / 2 ^ 23 % 2 ^ 23 :=
    ibits_toNat _ (by decide) (by decide)
  rw [bits, ← ofNat_toNat_mod, square, T23, Nat.mod_mul_right_div_self]

theorem low_toNat (n : ℕ) : (ibits (UInt64.ofNat n) 0 23).toNat = n % T46 % T23 := by
  have bits : (ibits (UInt64.ofNat n) 0 23).toNat = (UInt64.ofNat n).toNat / 2 ^ 0 % 2 ^ 23 :=
    ibits_toNat _ (by decide) (by decide)
  rw [bits, ← ofNat_toNat_mod, pow_zero, Nat.div_one,
    Nat.mod_mod_of_dvd _ (by decide : T23 ∣ T46), T23]

theorem mul_toNat {u v : UInt64} (hu : u.toNat < T23) (hv : v.toNat < T23) :
    (u * v).toNat = u.toNat * v.toNat := by
  rw [UInt64.toNat_mul, Nat.mod_eq_of_lt ((mul_lt_T46 hu hv).trans (by decide))]

theorem safe_product {a1 a2 x1 x2 : UInt64} (h1 : a1.toNat < T23) (h2 : a2.toNat < T23)
    (g1 : x1.toNat < T23) (g2 : x2.toNat < T23) :
    (ibits (ibits (a1 * x2 + a2 * x1) 0 23 <<< 23 + a2 * x2) 0 46).toNat =
      (T23 * ((a1.toNat * x2.toNat + a2.toNat * x1.toNat) % T23) + a2.toNat * x2.toNat) % T46 := by
  have hp := mul_lt_T46 h1 g2
  have hq := mul_lt_T46 h2 g1
  have hr := mul_lt_T46 h2 g2
  have sum : (a1 * x2 + a2 * x1).toNat = a1.toNat * x2.toNat + a2.toNat * x1.toNat := by
    rw [UInt64.toNat_add, mul_toNat h1 g2, mul_toNat h2 g1, Nat.mod_eq_of_lt]
    simp only [T46] at hp hq
    omega
  have middle : (ibits (a1 * x2 + a2 * x1) 0 23).toNat =
      (a1.toNat * x2.toNat + a2.toNat * x1.toNat) % T23 := by
    have bits : (ibits (a1 * x2 + a2 * x1) 0 23).toNat =
        (a1 * x2 + a2 * x1).toNat / 2 ^ 0 % 2 ^ 23 := ibits_toNat _ (by decide) (by decide)
    rw [bits, sum, pow_zero, Nat.div_one, T23]
  have below := Nat.mod_lt (a1.toNat * x2.toNat + a2.toNat * x1.toNat) (show 0 < T23 by decide)
  have shifted : (ibits (a1 * x2 + a2 * x1) 0 23 <<< 23).toNat =
      T23 * ((a1.toNat * x2.toNat + a2.toNat * x1.toNat) % T23) := by
    rw [UInt64.toNat_shiftLeft, middle, show (23 : UInt64).toNat % 64 = 23 from by decide,
      Nat.shiftLeft_eq, Nat.mul_comm, Nat.mod_eq_of_lt, T23]
    simp only [T23] at below ⊢
    omega
  have all : (ibits (ibits (a1 * x2 + a2 * x1) 0 23 <<< 23 + a2 * x2) 0 46).toNat =
      (ibits (a1 * x2 + a2 * x1) 0 23 <<< 23 + a2 * x2).toNat / 2 ^ 0 % 2 ^ 46 :=
    ibits_toNat _ (by decide) (by decide)
  have divides : 2 ^ 46 ∣ 2 ^ 64 := Nat.pow_dvd_pow 2 (by decide)
  rw [all, pow_zero, Nat.div_one, UInt64.toNat_add, shifted, mul_toNat h2 g2,
    Nat.mod_mod_of_dvd _ divides, T46]

theorem randi8Safe_eq (x a : ℕ) : randi8Safe x a = x * a % T46 := by
  have high (n : ℕ) : n % T46 / T23 < T23 := Nat.div_lt_of_lt_mul (Nat.mod_lt n T46_pos)
  have low (n : ℕ) : n % T46 % T23 < T23 := Nat.mod_lt _ (by decide)
  have halves := product_split (x % T46) (a % T46)
  rw [product, ← Nat.mul_mod, Nat.mul_comm a x] at halves
  rw [randi8Safe, safe_product (high_toNat a ▸ high a) (low_toNat a ▸ low a)
    (high_toNat x ▸ high x) (low_toNat x ▸ low x), high_toNat, low_toNat, high_toNat, low_toNat]
  exact halves

def int8Safe : Generator := ⟨randi8Safe, randi8Safe_eq⟩

/-- The numbers that the integer generators make of their seeds, and the last seed. -/
def integerDraws (g : Generator) (a n x : ℕ) : List ℚ × ℚ :=
  ((NpbStreams.vranlc g a n x).1.map normalized, ((NpbStreams.vranlc g a n x).2 : ℚ))

theorem integerDraws_eq (g : Generator) {x : ℕ} (hx : x < T46) (a n : ℕ) :
    integerDraws g a n x = stream a n x := by
  simp only [integerDraws, vranlc_eq a n x hx, stream, List.map_map, Function.comp_def,
    Nat.mul_comm x]

/-! ### All files -/

/-- A call for no numbers reads an entry that is not there, and leaves no seed. -/
theorem vranlcVec_zero (rnd : ℚ → ℚ) (old : ℚ × ℚ) (x a : ℚ) :
    (vranlcVec old 0 x a).exec rnd = ([], none) := by
  obtain ⟨a1, a2⟩ := old
  have nothing : (batches a1 a2 0 []).exec rnd = ([], none) := by
    rw [batches]
    rfl
  exact nothing

/-- Whatever file a kernel is linked with, calls for at least one number each draw one stream. The
values of the batches are held by a double. -/
theorem rand_agrees {x a : ℕ} (hx : x < T46) (ha : a < T46) {rnd : ℚ → ℚ}
    (keeps : ∀ q, Held q → rnd q = q) (old : ℚ × ℚ) {ns : List ℕ} (some_ : ∀ n ∈ ns, 1 ≤ n) :
    (draws old a ns x).Always Held FitsInt ∧
      (draws old a ns x).exec rnd = ((stream a ns.sum x).1, some (stream a ns.sum x).2) ∧
      (calls a ns.sum x).exec rnd = stream a ns.sum x ∧
      (NpbRandlc.vranlc ns.sum x a).exec rnd = stream a ns.sum x ∧
      integerDraws .int8 a ns.sum x = stream a ns.sum x ∧
      integerDraws int8Safe a ns.sum x = stream a ns.sum x := by
  obtain ⟨held, numbers⟩ := draws_spec hx ha old some_
  obtain ⟨single, same⟩ := calls_spec hx ha ns.sum
  obtain ⟨loop, same'⟩ := vranlc_spec hx ha ns.sum
  rw [held.exec_eq keeps, single.exec_eq keeps, loop.exec_eq keeps]
  exact ⟨held, numbers, same, same', integerDraws_eq _ hx a _, integerDraws_eq _ hx a _⟩

theorem rand_agrees_ep :
    (draws (0, 0) (1220703125 : ℕ) [100, 3] (271828183 : ℕ)).exec id =
      ((stream 1220703125 [100, 3].sum 271828183).1,
        some (stream 1220703125 [100, 3].sum 271828183).2) :=
  (@rand_agrees 271828183 1220703125 (by decide) (by decide) id (fun _ _ => rfl) (0, 0) [100, 3]
    (by decide)).2.1

end Baseliner.NpbGenerators
