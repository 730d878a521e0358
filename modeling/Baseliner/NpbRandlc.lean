import Mathlib.Tactic.FieldSimp
import Baseliner.NpbStreams
import Baseliner.RoundedSteps

/-! The generator in floating point: `randlc` of IS and of `randdp.f`, and `vranlc`. The
three make the same steps; IS computes the powers of two in its first call. All values of
a call are integers below `2^53`, some of them scaled by `2^-23` or `2^-46`, so that a
double holds them. -/

namespace Baseliner.NpbRandlc

open NpbStreams RoundedSteps Steps

structure Constants where
  r23 : ℚ
  r46 : ℚ
  t23 : ℚ
  t46 : ℚ
  deriving DecidableEq

/-- The parameters of `randdp.f`. -/
def parameters : Constants where
  r23 := (1 / 2) ^ 23
  r46 := ((1 / 2) ^ 23) ^ 2
  t23 := 2 ^ 23
  t46 := (2 ^ 23) ^ 2

/-- `n` rounds of a loop that halves and doubles. -/
def powers : ℕ → ℚ × ℚ → Steps (ℚ × ℚ)
  | 0, v => pure v
  | n + 1, (r, t) => do
      let r ← result (1 / 2 * r)
      let t ← result (2 * t)
      powers n (r, t)

def initialize_ : Steps Constants := do
  let (r23, t23) ← powers 23 (1, 1)
  let (r46, t46) ← powers 46 (1, 1)
  return ⟨r23, r46, t23, t46⟩

/-- `a` in two parts. -/
def split (k : Constants) (a : ℚ) : Steps (ℚ × ℚ) := do
  let t1 ← result (k.r23 * a)
  let a1 ← whole t1
  let p ← result (k.t23 * a1)
  let a2 ← result (a - p)
  return (a1, a2)

/-- The steps with `x`, the multiplier being in two parts: the new seed and the number. -/
def advance (k : Constants) (a1 a2 x : ℚ) : Steps (ℚ × ℚ) := do
  let (x1, x2) ← split k x
  let p ← result (a1 * x2)
  let q ← result (a2 * x1)
  let t1 ← result (p + q)
  let s ← result (k.r23 * t1)
  let t2 ← whole s
  let p ← result (k.t23 * t2)
  let z ← result (t1 - p)
  let p ← result (k.t23 * z)
  let q ← result (a2 * x2)
  let t3 ← result (p + q)
  let s ← result (k.r46 * t3)
  let t4 ← whole s
  let p ← result (k.t46 * t4)
  let x ← result (t3 - p)
  let y ← result (k.r46 * x)
  return (x, y)

/-- `randlc` of `randdp.f`. -/
def randlc (x a : ℚ) : Steps (ℚ × ℚ) := do
  let (a1, a2) ← split parameters a
  advance parameters a1 a2 x

/-- `randlc` of IS; the static constants are none as long as `KS` is 0. -/
def randlcStatic (ks : Option Constants) (x a : ℚ) : Steps (Option Constants × ℚ × ℚ) := do
  let k ← match ks with
    | none => initialize_
    | some k => pure k
  let (a1, a2) ← split k a
  let y ← advance k a1 a2 x
  return (some k, y)

/-- The loop of `vranlc`. -/
def vranlcLoop (a1 a2 : ℚ) : ℕ → ℚ → Steps (List ℚ × ℚ)
  | 0, x => return ([], x)
  | n + 1, x => do
      let (x, y) ← advance parameters a1 a2 x
      let (ys, x) ← vranlcLoop a1 a2 n x
      return (y :: ys, x)

def vranlc (n : ℕ) (x a : ℚ) : Steps (List ℚ × ℚ) := do
  let (a1, a2) ← split parameters a
  vranlcLoop a1 a2 n x

/-- `n` calls of `randlc`, one after the other. -/
def calls (a : ℚ) : ℕ → ℚ → Steps (List ℚ × ℚ)
  | 0, x => return ([], x)
  | n + 1, x => do
      let (x, y) ← randlc x a
      let (ys, x) ← calls a n x
      return (y :: ys, x)

def callsStatic (a : ℚ) : ℕ → Option Constants → ℚ → Steps (List ℚ × ℚ)
  | 0, _, x => return ([], x)
  | n + 1, ks, x => do
      let (ks, x, y) ← randlcStatic ks x a
      let (ys, x) ← callsStatic a n ks x
      return (y :: ys, x)

/-- An integer below `2^53`, or one over `2^23` or `2^46`. -/
def Held (q : ℚ) : Prop := ∃ n : ℤ, ∃ e ∈ [0, 23, 46], |n| < 2 ^ 53 ∧ q = n / 2 ^ e

/-- An `int`, and an `integer`. -/
def FitsInt (j : ℤ) : Prop := -2 ^ 31 ≤ j ∧ j < 2 ^ 31

/-! ### The values of a call -/

theorem held_natCast {n : ℕ} (small : n < 2 ^ 53) : Held n := by
  refine ⟨n, 0, by decide, ?_, by norm_num⟩
  rw [Nat.abs_cast]
  exact_mod_cast small

theorem held_div_T23 {n : ℕ} (small : n < 2 ^ 53) : Held ((n : ℚ) / T23) := by
  refine ⟨n, 23, by decide, ?_, by norm_num [T23]⟩
  rw [Nat.abs_cast]
  exact_mod_cast small

theorem held_div_T46 {n : ℕ} (small : n < 2 ^ 53) : Held ((n : ℚ) / T46) := by
  refine ⟨n, 46, by decide, ?_, by norm_num [T46]⟩
  rw [Nat.abs_cast]
  exact_mod_cast small

theorem fitsInt_natCast {n : ℕ} (small : n < 2 ^ 31) : FitsInt n := by
  constructor
  · omega
  · omega

theorem r23_mul (n : ℕ) : parameters.r23 * n = (n : ℚ) / T23 := by
  norm_num [parameters, T23]
  ring

theorem r46_mul (n : ℕ) : parameters.r46 * n = (n : ℚ) / T46 := by
  norm_num [parameters, T46]
  ring

theorem t23_mul (n : ℕ) : parameters.t23 * n = ((T23 * n : ℕ) : ℚ) := by
  norm_num [parameters, T23]

theorem t46_mul (n : ℕ) : parameters.t46 * n = ((T46 * n : ℕ) : ℚ) := by
  norm_num [parameters, T46]

theorem sub_whole (n d : ℕ) : (n : ℚ) - ((d * (n / d) : ℕ) : ℚ) = ((n % d : ℕ) : ℚ) := by
  rw [← Nat.cast_sub (Nat.mul_div_le n d), sub_mul_div]

theorem split_exact (a : ℕ) :
    (split parameters a).exact = (((a / T23 : ℕ) : ℚ), ((a % T23 : ℕ) : ℚ)) := by
  simp only [split, exact_bind, exact_result, exact_whole, exact_pure, r23_mul, truncate_div,
    Int.cast_natCast, t23_mul, sub_whole]

theorem split_always {a : ℕ} (small : a < T46) : (split parameters a).Always Held FitsInt := by
  have whole := Nat.mul_div_le a T23
  have rest := Nat.mod_lt a (show 0 < T23 by decide)
  rw [T46] at small
  simp only [T23] at whole rest
  simp only [split, always_bind, always_result, always_whole, always_pure, exact_result,
    exact_whole, r23_mul, truncate_div, Int.cast_natCast, t23_mul, sub_whole, and_true]
  refine ⟨held_div_T23 (by omega), ⟨fitsInt_natCast ?_, held_natCast ?_⟩, held_natCast ?_,
    held_natCast ?_⟩ <;> simp only [T23] <;> omega

/-- The product from its parts, as `randlcSplit` makes it. -/
def product (a1 a2 x : ℕ) : ℕ :=
  (T23 * ((a1 * (x % T23) + a2 * (x / T23)) % T23) + a2 * (x % T23)) % T46

theorem advance_exact (a1 a2 x : ℕ) :
    (advance parameters a1 a2 x).exact =
      ((product a1 a2 x : ℚ), (product a1 a2 x : ℚ) / T46) := by
  simp only [advance, exact_bind, exact_result, exact_whole, exact_pure, split_exact, r23_mul,
    r46_mul, truncate_div, Int.cast_natCast, ← Nat.cast_mul, ← Nat.cast_add, t23_mul, t46_mul,
    sub_whole, product]

theorem mul_lt_T46 {m n : ℕ} (hm : m < T23) (hn : n < T23) : m * n < T46 := by
  have square : T46 = T23 * T23 := by decide
  rw [square]
  exact Nat.mul_lt_mul'' hm hn

theorem advance_always {a1 a2 x : ℕ} (h1 : a1 < T23) (h2 : a2 < T23) (hx : x < T46) :
    (advance parameters a1 a2 x).Always Held FitsInt := by
  have parts := split_always hx
  have high : x / T23 < T23 := Nat.div_lt_of_lt_mul hx
  have low : x % T23 < T23 := Nat.mod_lt x (by decide)
  have hp := mul_lt_T46 h1 low
  have hq := mul_lt_T46 h2 high
  have hr := mul_lt_T46 h2 low
  simp only [advance, always_bind, always_result, always_whole, always_pure, exact_result,
    exact_whole, split_exact, r23_mul, r46_mul, truncate_div, Int.cast_natCast, ← Nat.cast_mul,
    ← Nat.cast_add, t23_mul, t46_mul, sub_whole, and_true]
  generalize a1 * (x % T23) = p at *
  generalize a2 * (x / T23) = q at *
  generalize a2 * (x % T23) = r at *
  have cut := Nat.mul_div_le (p + q) T23
  have hz := Nat.mod_lt (p + q) (show 0 < T23 by decide)
  generalize (p + q) % T23 = z at *
  have cut' := Nat.mul_div_le (T23 * z + r) T46
  have hx' := Nat.mod_lt (T23 * z + r) T46_pos
  simp only [T46] at hp hq hr cut' hx'
  simp only [T23] at cut hz cut' hx'
  refine ⟨parts, held_natCast ?_, held_natCast ?_, held_natCast ?_, held_div_T23 ?_,
    ⟨fitsInt_natCast ?_, held_natCast ?_⟩, held_natCast ?_, held_natCast ?_, held_natCast ?_,
    held_natCast ?_, held_natCast ?_, held_div_T46 ?_, ⟨fitsInt_natCast ?_, held_natCast ?_⟩,
    held_natCast ?_, held_natCast ?_, held_div_T46 ?_⟩
  all_goals
    try simp only [T23, T46]
    omega

/-! ### The calls -/

theorem product_split (x a : ℕ) : product (a / T23) (a % T23) x = a * x % T46 := by
  have eq := randlcSplit_eq x a
  simp only [randlcSplit, sub_mul_div] at eq
  rw [product, eq, Nat.mul_comm]

theorem powers_exact (n i : ℕ) :
    (powers n ((1 / 2) ^ i, 2 ^ i)).exact = ((1 / 2) ^ (i + n), 2 ^ (i + n)) := by
  induction n generalizing i with
  | zero => rfl
  | succ n ih =>
      simp only [powers, exact_bind, exact_result, ← pow_succ']
      rw [ih (i + 1), Nat.add_right_comm, Nat.add_assoc]

theorem powers_always (n i : ℕ) (few : i + n ≤ 46) :
    (powers n ((1 / 2) ^ i, 2 ^ i)).Always Held FitsInt := by
  induction n generalizing i with
  | zero => exact trivial
  | succ n ih =>
      have half : Held ((1 / 2) ^ (i + 1)) := by
        have shifted : ((1 / 2 : ℚ)) ^ (i + 1) = ((2 ^ (46 - (i + 1)) : ℕ) : ℚ) / T46 := by
          have split : T46 = 2 ^ (46 - (i + 1)) * 2 ^ (i + 1) := by
            rw [← pow_add, Nat.sub_add_cancel (by omega), T46]
          rw [split]
          push_cast
          field_simp
          rw [← mul_pow]
          norm_num
        rw [shifted]
        exact held_div_T46 (Nat.pow_lt_pow_right (by decide) (by omega))
      have double : Held (2 ^ (i + 1)) := by
        have cast : (2 : ℚ) ^ (i + 1) = ((2 ^ (i + 1) : ℕ) : ℚ) := by push_cast; rfl
        rw [cast]
        exact held_natCast (Nat.pow_lt_pow_right (by decide) (by omega))
      simp only [powers, always_bind, always_result, exact_result, ← pow_succ']
      exact ⟨half, double, ih (i + 1) (by omega)⟩

theorem initialize_exact : initialize_.exact = parameters := by
  have first := powers_exact 23 0
  have second := powers_exact 46 0
  simp only [pow_zero, Nat.zero_add] at first second
  simp only [initialize_, exact_bind, first, second, exact_pure, parameters]
  norm_num

theorem initialize_always : initialize_.Always Held FitsInt := by
  have first := powers_always 23 0 (by decide)
  have second := powers_always 46 0 (by decide)
  simp only [pow_zero] at first second
  simp only [initialize_, always_bind, always_pure, and_true]
  exact ⟨first, second⟩

def normalized (x : ℕ) : ℚ := x / T46

theorem randlc_exact (x a : ℕ) :
    (randlc x a).exact = (((a * x % T46 : ℕ) : ℚ), normalized (a * x % T46)) := by
  simp only [randlc, exact_bind, split_exact, advance_exact, product_split, normalized]

theorem randlc_always {x a : ℕ} (hx : x < T46) (ha : a < T46) :
    (randlc x a).Always Held FitsInt := by
  simp only [randlc, always_bind, split_exact]
  exact ⟨split_always ha, advance_always (Nat.div_lt_of_lt_mul ha) (Nat.mod_lt a (by decide)) hx⟩

def Static (ks : Option Constants) : Prop := ks = none ∨ ks = some parameters

theorem randlcStatic_exact {ks : Option Constants} (static : Static ks) (x a : ℕ) :
    (randlcStatic ks x a).exact = (some parameters, (randlc x a).exact) := by
  rcases static with rfl | rfl
  · simp only [randlcStatic, randlc, exact_bind, initialize_exact, exact_pure]
  · simp only [randlcStatic, randlc, exact_bind, exact_pure]

theorem randlcStatic_always {ks : Option Constants} (static : Static ks) {x a : ℕ}
    (hx : x < T46) (ha : a < T46) : (randlcStatic ks x a).Always Held FitsInt := by
  have call := randlc_always hx ha
  simp only [randlc, always_bind] at call
  rcases static with rfl | rfl
  · simp only [randlcStatic, always_bind, initialize_exact, always_pure, and_true]
    exact ⟨initialize_always, call⟩
  · simp only [randlcStatic, always_bind, exact_pure, always_pure, and_true, true_and]
    exact call

/-! ### The stream -/

def stream (a n x : ℕ) : List ℚ × ℚ :=
  ((List.range n).map fun i => normalized (a ^ (i + 1) * x % T46), ((a ^ n * x % T46 : ℕ) : ℚ))

theorem stream_zero {x : ℕ} (hx : x < T46) (a : ℕ) : stream a 0 x = ([], (x : ℚ)) := by
  rw [stream, List.range_zero, List.map_nil, pow_zero, Nat.one_mul, Nat.mod_eq_of_lt hx]

theorem stream_succ (a n x : ℕ) :
    stream a (n + 1) x =
      (normalized (a * x % T46) :: (stream a n (a * x % T46)).1, (stream a n (a * x % T46)).2) := by
  have next (i : ℕ) : a ^ i * (a * x % T46) % T46 = a ^ (i + 1) * x % T46 := by
    rw [Nat.mul_mod, Nat.mod_mod, ← Nat.mul_mod, pow_succ, Nat.mul_assoc]
  simp only [stream, next, List.range_succ_eq_map, List.map_cons, List.map_map, zero_add, pow_one,
    Function.comp_def]

theorem calls_spec {x a : ℕ} (hx : x < T46) (ha : a < T46) (n : ℕ) :
    (calls a n x).Always Held FitsInt ∧ (calls a n x).exact = stream a n x := by
  induction n generalizing x with
  | zero => exact ⟨trivial, (stream_zero hx a).symm⟩
  | succ n ih =>
      obtain ⟨always, exact⟩ := ih (Nat.mod_lt (a * x) T46_pos)
      simp only [calls, always_bind, exact_bind, randlc_exact, always_pure, exact_pure, exact,
        and_true]
      exact ⟨⟨randlc_always hx ha, always⟩, (stream_succ a n x).symm⟩

theorem callsStatic_spec {ks : Option Constants} (static : Static ks) {x a : ℕ} (hx : x < T46)
    (ha : a < T46) (n : ℕ) :
    (callsStatic a n ks x).Always Held FitsInt ∧ (callsStatic a n ks x).exact = stream a n x := by
  induction n generalizing ks x with
  | zero => exact ⟨trivial, (stream_zero hx a).symm⟩
  | succ n ih =>
      obtain ⟨always, exact⟩ := ih (.inr rfl) (Nat.mod_lt (a * x) T46_pos)
      simp only [callsStatic, always_bind, exact_bind, randlcStatic_exact static, randlc_exact,
        always_pure, exact_pure, exact, and_true]
      exact ⟨⟨randlcStatic_always static hx ha, always⟩, (stream_succ a n x).symm⟩

theorem vranlcLoop_spec {x a : ℕ} (hx : x < T46) (ha : a < T46) (n : ℕ) :
    (vranlcLoop (a / T23 : ℕ) (a % T23 : ℕ) n x).Always Held FitsInt ∧
      (vranlcLoop (a / T23 : ℕ) (a % T23 : ℕ) n x).exact = stream a n x := by
  have high : a / T23 < T23 := Nat.div_lt_of_lt_mul ha
  have low : a % T23 < T23 := Nat.mod_lt a (by decide)
  induction n generalizing x with
  | zero => exact ⟨trivial, (stream_zero hx a).symm⟩
  | succ n ih =>
      obtain ⟨always, exact⟩ := ih (Nat.mod_lt (a * x) T46_pos)
      simp only [vranlcLoop, always_bind, exact_bind, advance_exact, product_split, always_pure,
        exact_pure, exact, and_true]
      exact ⟨⟨advance_always high low hx, always⟩, (stream_succ a n x).symm⟩

theorem vranlc_spec {x a : ℕ} (hx : x < T46) (ha : a < T46) (n : ℕ) :
    (vranlc n x a).Always Held FitsInt ∧ (vranlc n x a).exact = stream a n x := by
  obtain ⟨always, exact⟩ := vranlcLoop_spec hx ha n
  simp only [vranlc, always_bind, exact_bind, split_exact]
  exact ⟨⟨split_always ha, always⟩, exact⟩

/-- A call multiplies modulo `2^46`. Its values are held by a double, so any rounding that keeps
these gives the exact results, and the three routines give one stream. -/
theorem generators_exact {x a : ℕ} (hx : x < T46) (ha : a < T46) {rnd : ℚ → ℚ}
    (keeps : ∀ q, Held q → rnd q = q) :
    (∀ ks, Static ks →
      (randlcStatic ks x a).Always Held FitsInt ∧
        (randlcStatic ks x a).exec rnd = (some parameters, (randlc x a).exec rnd)) ∧
    ((randlc x a).Always Held FitsInt ∧
      (randlc x a).exec rnd = (((a * x % T46 : ℕ) : ℚ), normalized (a * x % T46))) ∧
    ∀ n, (vranlc n x a).Always Held FitsInt ∧
      (vranlc n x a).exec rnd = stream a n x ∧
      (calls a n x).exec rnd = stream a n x ∧
      (callsStatic a n none x).exec rnd = stream a n x := by
  have call := randlc_always hx ha
  refine ⟨fun ks static => ?_, ⟨call, ?_⟩, fun n => ?_⟩
  · have always := randlcStatic_always static hx ha
    rw [always.exec_eq keeps, call.exec_eq keeps]
    exact ⟨always, randlcStatic_exact static x a⟩
  · rw [call.exec_eq keeps, randlc_exact]
  · obtain ⟨vector, numbers⟩ := vranlc_spec hx ha n
    obtain ⟨single, same⟩ := calls_spec hx ha n
    obtain ⟨static, same'⟩ := callsStatic_spec (.inl rfl) hx ha n
    rw [vector.exec_eq keeps, single.exec_eq keeps, static.exec_eq keeps]
    exact ⟨vector, numbers, same, same'⟩

theorem generators_exact_is :
    (314159265 : ℕ) < T46 ∧ (1220703125 : ℕ) < T46 ∧
      (randlc (314159265 : ℕ) (1220703125 : ℕ)).exec id =
        (((1220703125 * 314159265 % T46 : ℕ) : ℚ), normalized (1220703125 * 314159265 % T46)) :=
  ⟨by decide, by decide,
    (@generators_exact 314159265 1220703125 (by decide) (by decide) id fun _ _ => rfl).2.1.2⟩

end Baseliner.NpbRandlc
