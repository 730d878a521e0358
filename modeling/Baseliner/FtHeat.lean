import Baseliner.FtTransform
import Baseliner.SpectralHeat

/-! The run of the FT benchmark: the transform of the initial values, then for every time step the
decay of its waves, the transform back and a checksum. -/

namespace Baseliner.FtHeat
open BoxTransforms FtFft FtTransform StockhamStages

section arrays

variable {R : Type*} [Field R]

def places (d : Place) : List Place :=
  (List.range' 1 d.2.2).flatMap fun k => (List.range' 1 d.2.1).flatMap fun j =>
    (List.range' 1 d.1).map fun i => (i, j, k)

/-- The frequency of an index: behind the middle they are negative. -/
def bar (n i : ℕ) : ℤ := ((i - 1 + n / 2) % n : ℕ) - (n / 2 : ℕ)

/-- `decay s` is `dexp(ap*dble(s))`. -/
def computeIndexmap (decay : ℤ → R) (d : Place) (twiddle : Grid R) : Grid R :=
  OwnEntries.sweep (places d) (fun p _ =>
    decay (bar d.1 p.1 ^ 2 + (bar d.2.1 p.2.1 ^ 2 + bar d.2.2 p.2.2 ^ 2))) twiddle

def evolve (d : Place) (twiddle : Grid R) (u : Grid R × Grid R) : Grid R × Grid R :=
  (places d).foldl (fun u p =>
    let a := u.1 p * twiddle p
    (Function.update u.1 p a, Function.update u.2 p a)) u

def samples (d : Place) : List Place :=
  (List.range' 1 1024).map fun j => (j % d.1 + 1, 3 * j % d.2.1 + 1, 5 * j % d.2.2 + 1)

def ntotal (d : Place) : ℕ := d.1 * d.2.1 * d.2.2

def checksum (d : Place) (u1 : Grid R) : R :=
  (samples d).foldl (fun chk p => chk + u1 p) 0 / (ntotal d : R)

end arrays

structure State (R : Type*) where
  u0 : Grid R
  u1 : Grid R
  sums : ℕ → R

section run

variable {R : Type*} [Field R] [StarRing R] (d : Place) (ny : ℕ) (roots : Roots R)
  (twiddle : Grid R) (work : ℕ → Axis → ℕ × ℕ → Scratch R)

def timeStep (s : State R) (iter : ℕ) : Option (State R) :=
  let u := evolve d twiddle (s.u0, s.u1)
  (fft (-1) d ny roots (work iter) u.2 none).map fun out =>
    { u0 := u.1, u1 := out.2, sums := Function.update s.sums iter (checksum d out.2) }

/-- The timed part of the program behind `compute_initial_conditions`, which has filled `u1`. -/
def main (root : ℕ → ℕ → R) (decay : ℤ → R) (niter : ℕ) (u : ℕ → R) (s : State R) :
    Option (State R) :=
  let twiddle := computeIndexmap decay d twiddle
  let roots := fftInit root u d.1
  (fft 1 d ny roots (work 0) s.u1 (some s.u0)).bind fun out =>
    (List.range' 1 niter).foldlM (timeStep d ny roots twiddle work)
      { u0 := out.2, u1 := out.1, sums := s.sums }

end run

/-! ### The loops over a grid -/

section loops

variable {R : Type*} [Field R] {d : Place}

theorem mem_places {p : Place} : up p ∈ places d ↔ Inside d p := by
  obtain ⟨i, j, k⟩ := p
  simp only [places, up, List.mem_flatMap, List.mem_map, List.mem_range'_1, Prod.mk.injEq, Inside]
  constructor
  · rintro ⟨_, hk, _, hj, _, hi, rfl, rfl, rfl⟩
    omega
  · rintro ⟨hi, hj, hk⟩
    exact ⟨k + 1, by omega, j + 1, by omega, i + 1, by omega, rfl, rfl, rfl⟩

theorem nodup_places (d : Place) : (places d).Nodup := by
  refine OwnEntries.nodup_flatMap_of_key (fun p => p.2.2) List.nodup_range' (fun k _ => ?_)
    fun k _ p mem => ?_
  · refine OwnEntries.nodup_flatMap_of_key (fun p => p.2.1) List.nodup_range' (fun j _ => ?_)
      fun j _ p mem => ?_
    · exact List.Nodup.map (fun _ _ same => (Prod.mk.inj same).1) List.nodup_range'
    · obtain ⟨i, -, rfl⟩ := List.mem_map.mp mem
      rfl
  · obtain ⟨j, -, mem⟩ := List.mem_flatMap.mp mem
    obtain ⟨i, -, rfl⟩ := List.mem_map.mp mem
    rfl

def damping (decay : ℤ → R) (d : Place) (p : Place) : R :=
  decay (bar d.1 (p.1 + 1) ^ 2 + (bar d.2.1 (p.2.1 + 1) ^ 2 + bar d.2.2 (p.2.2 + 1) ^ 2))

omit [Field R] in
theorem computeIndexmap_agree (decay : ℤ → R) (d : Place) (twiddle : Grid R) :
    Agree d (view (computeIndexmap decay d twiddle)) (damping decay d) := by
  intro p inside
  rw [view, computeIndexmap, OwnEntries.sweep_apply (nodup_places d),
    if_pos (mem_places.mpr inside)]
  rfl

theorem foldl_evolve (twiddle : Grid R) {entries : List Place} (once : entries.Nodup)
    (u : Grid R × Grid R) (e : Place) :
    let u' := entries.foldl (fun u p =>
      let a := u.1 p * twiddle p
      (Function.update u.1 p a, Function.update u.2 p a)) u
    (e ∈ entries → u'.1 e = u.1 e * twiddle e ∧ u'.2 e = u.1 e * twiddle e) ∧
      (e ∉ entries → u'.1 e = u.1 e ∧ u'.2 e = u.2 e) := by
  induction entries generalizing u with
  | nil => simp
  | cons p entries ih =>
    obtain ⟨fresh, once⟩ := List.nodup_cons.mp once
    obtain ⟨later, other⟩ := ih once
      (Function.update u.1 p (u.1 p * twiddle p), Function.update u.2 p (u.1 p * twiddle p))
    obtain rfl | ne := eq_or_ne e p
    · obtain ⟨first, second⟩ := other fresh
      simp only [Function.update_self] at first second
      exact ⟨fun _ => ⟨first, second⟩, fun absent => absurd List.mem_cons_self absent⟩
    · simp only [Function.update_of_ne ne] at later other
      exact ⟨fun mem => later ((List.mem_cons.mp mem).resolve_left ne),
        fun absent => other fun mem => absent (List.mem_cons_of_mem _ mem)⟩

theorem evolve_agree (twiddle : Grid R) (u : Grid R × Grid R) :
    Agree d (view (evolve d twiddle u).1) (fun p => view u.1 p * view twiddle p) ∧
      Agree d (view (evolve d twiddle u).2) fun p => view u.1 p * view twiddle p := by
  have fold (p : Place) (inside : Inside d p) :=
    (foldl_evolve twiddle (nodup_places d) u (up p)).1 (mem_places.mpr inside)
  exact ⟨fun p inside => (fold p inside).1, fun p inside => (fold p inside).2⟩

def sampled (d : Place) : List Place :=
  (List.range' 1 1024).map fun j => (j % d.1, 3 * j % d.2.1, 5 * j % d.2.2)

def sampleSum (d : Place) (g : Place → R) : R := ((sampled d).map g).sum / (ntotal d : R)

theorem checksum_eq (d : Place) (u1 : Grid R) : checksum d u1 = sampleSum d (view u1) := by
  rw [checksum, sampleSum, List.sum_eq_foldl, List.foldl_map, samples, List.foldl_map, sampled,
    List.foldl_map]
  rfl

theorem sampleSum_congr (pos : 0 < d.1 ∧ 0 < d.2.1 ∧ 0 < d.2.2) {g h : Place → R}
    (same : Agree d g h) : sampleSum d g = sampleSum d h := by
  rw [sampleSum, sampleSum, List.map_congr_left]
  intro p mem
  obtain ⟨j, -, rfl⟩ := List.mem_map.mp mem
  exact same _ ⟨Nat.mod_lt _ pos.1, Nat.mod_lt _ pos.2.1, Nat.mod_lt _ pos.2.2⟩

end loops

section steps

variable {R : Type*} [Field R] [StarRing R] {d : Place} {ny : ℕ} {roots : Roots R}
  {twiddle : Grid R} {w : Axis → R} {decay : ℤ → R} {H : Place → R}

/-- The waves after `t` time steps. -/
def decayed (decay : ℤ → R) (d : Place) (H : Place → R) (t : ℕ) : Place → R :=
  fun p => damping decay d p ^ t * H p

/-- The values after `t` time steps, not yet divided by the size of the grid. -/
def values (decay : ℤ → R) (d : Place) (w : Axis → R) (H : Place → R) (t : ℕ) : Place → R :=
  dft3 (fun axis => directed (-1) (w axis)) d (decayed decay d H t)

theorem timeStep_spec (fits : Fits d ny roots w)
    (table : Agree d (view twiddle) (damping decay d)) {t : ℕ} {s : State R}
    (h : Agree d (view s.u0) (decayed decay d H t)) (work : ℕ → Axis → ℕ × ℕ → Scratch R)
    (iter : ℕ) :
    ∃ s', timeStep d ny roots twiddle work s iter = some s' ∧
      Agree d (view s'.u0) (decayed decay d H (t + 1)) ∧
      Agree d (view s'.u1) (values decay d w H (t + 1)) ∧
      s'.sums = Function.update s.sums iter (checksum d s'.u1) := by
  have next : Agree d (fun p => view s.u0 p * view twiddle p) (decayed decay d H (t + 1)) := by
    intro p inside
    dsimp only
    rw [h p inside, table p inside, decayed, decayed]
    ring
  obtain ⟨waves, copies⟩ := evolve_agree (d := d) twiddle (s.u0, s.u1)
  obtain ⟨out, ran, agree⟩ := fft_spec fits (.inr rfl) (work iter)
    (evolve d twiddle (s.u0, s.u1)).2 none
  refine ⟨_, by rw [timeStep, ran]; rfl, waves.trans next, ?_, rfl⟩
  rw [(copies.trans next).dft3] at agree
  exact agree

theorem timeSteps_spec (fits : Fits d ny roots w) (sizes : 0 < d.1 ∧ 0 < d.2.1 ∧ 0 < d.2.2)
    (table : Agree d (view twiddle) (damping decay d)) {s : State R}
    (h : Agree d (view s.u0) H) (work : ℕ → Axis → ℕ × ℕ → Scratch R) (n : ℕ) :
    ∃ s', (List.range' 1 n).foldlM (timeStep d ny roots twiddle work) s = some s' ∧
      Agree d (view s'.u0) (decayed decay d H n) ∧
      (1 ≤ n → Agree d (view s'.u1) (values decay d w H n)) ∧
      ∀ t, 1 ≤ t → t ≤ n → s'.sums t = sampleSum d (values decay d w H t) := by
  induction n with
  | zero =>
    refine ⟨s, rfl, fun p inside => ?_, fun none => absurd none (by decide), fun t low high => ?_⟩
    · rw [h p inside, decayed, pow_zero, one_mul]
    · omega
  | succ n ih =>
    obtain ⟨s₁, ran, waves, -, sums⟩ := ih
    obtain ⟨s', step, waves', stored, sums'⟩ := timeStep_spec fits table waves work (1 + n)
    refine ⟨s', ?_, waves', fun _ => stored, fun t low high => ?_⟩
    · rw [List.range'_concat, List.foldlM_append, ran, Nat.one_mul]
      simp only [Option.bind_eq_bind, Option.bind_some, List.foldlM_cons, List.foldlM_nil, step]
      rfl
    · rw [sums']
      obtain rfl | other := eq_or_ne t (1 + n)
      · rw [Function.update_self, checksum_eq, sampleSum_congr sizes stored, Nat.add_comm]
      · rw [Function.update_of_ne other]
        exact sums t low (by omega)

end steps

noncomputable section exact

open Complex SpectralHeat

/-- `dexp(ap*dble(s))`, without rounding. -/
def heatDecay (alpha : ℝ) (s : ℤ) : ℂ := exp (-(4 : ℕ) * alpha * Real.pi ^ 2 * s)

def roots (d : Place) (axis : Axis) : ℂ := unityRoot (axis.get d)

def position (d : Place) (p : Place) : Position := (p.1 / d.1, p.2.1 / d.2.1, p.2.2 / d.2.2)

def frequency (d : Place) (p : Place) : Frequency :=
  (bar d.1 (p.1 + 1), bar d.2.1 (p.2.1 + 1), bar d.2.2 (p.2.2 + 1))

/-- The heat that begins with the values `U` on a grid. -/
def heat (alpha : ℝ) (d : Place) (U : Place → ℂ) : ℝ → Position → ℂ :=
  solution alpha (Finset.range d.1 ×ˢ Finset.range d.2.1 ×ˢ Finset.range d.2.2) (frequency d)
    fun p => dft3 (roots d) d U p / (ntotal d : ℂ)

variable {d : Place}

theorem exists_bar {n i : ℕ} (small : i < n) : ∃ e : ℤ, bar n (i + 1) = i - n * e := by
  rw [bar, Nat.add_sub_cancel]
  obtain low | high := Nat.lt_or_ge (i + n / 2) n
  · refine ⟨0, ?_⟩
    rw [Nat.mod_eq_of_lt low]
    omega
  · refine ⟨1, ?_⟩
    rw [Nat.mod_eq_sub_mod high, Nat.mod_eq_of_lt (by omega)]
    omega

theorem exp_turn {n i : ℕ} (small : i < n) (q : ℕ) :
    exp (turn (bar n (i + 1)) * (q / n : ℝ)) = directed (-1) (unityRoot n) ^ (q * i) := by
  obtain ⟨e, index⟩ := exists_bar small
  have some_ : (n : ℂ) ≠ 0 := Nat.cast_ne_zero.mpr (by omega)
  have split : turn (bar n (i + 1)) * (q / n : ℝ) =
      (q * i : ℕ) * -(2 * Real.pi * I / n) + (e * q : ℤ) * (2 * Real.pi * I) := by
    rw [turn, index]
    push_cast
    field_simp
    ring
  rw [split, exp_add, exp_int_mul_two_pi_mul_I, mul_one, exp_nat_mul, exp_neg, directed,
    if_neg (by decide), star_unityRoot, unityRoot]

theorem values_eq (alpha : ℝ) (d : Place) (sizes : 0 < d.1 ∧ 0 < d.2.1 ∧ 0 < d.2.2)
    (U : Place → ℂ) (t : ℕ) (p : Place) :
    values (heatDecay alpha) d (roots d) (dft3 (roots d) d U) t p =
      ntotal d * heat alpha d U t (position d p) := by
  have some_ : (ntotal d : ℂ) ≠ 0 :=
    Nat.cast_ne_zero.mpr (Nat.mul_pos (Nat.mul_pos sizes.1 sizes.2.1) sizes.2.2).ne'
  rw [values, dft3, heat, solution, Finset.mul_sum, Finset.sum_product]
  refine Finset.sum_congr rfl fun a ha => ?_
  rw [Finset.sum_product]
  refine Finset.sum_congr rfl fun b hb => Finset.sum_congr rfl fun c hc => ?_
  have wave : exp (phase (frequency d (a, b, c)) (position d p)) =
      directed (-1) (roots d .x) ^ (p.1 * a) * directed (-1) (roots d .y) ^ (p.2.1 * b) *
        directed (-1) (roots d .z) ^ (p.2.2 * c) := by
    rw [phase, exp_add, exp_add]
    exact congrArg₂ (· * ·) (congrArg₂ (· * ·) (exp_turn (Finset.mem_range.mp ha) _)
      (exp_turn (Finset.mem_range.mp hb) _)) (exp_turn (Finset.mem_range.mp hc) _)
  have decay : damping (heatDecay alpha) d (a, b, c) ^ t =
      exp (-(4 : ℕ) * alpha * Real.pi ^ 2 * square (frequency d (a, b, c)) * t) := by
    rw [damping, heatDecay, ← exp_nat_mul]
    congr 1
    rw [mul_comm]
    rfl
  rw [wave, decayed, decay, ofReal_natCast]
  field_simp

theorem roots_inverse (d : Place) (axis : Axis) :
    roots d axis * directed (-1) (roots d axis) = 1 := by
  rw [directed, if_neg (by decide), roots, star_unityRoot]
  exact mul_inv_cancel₀ (exp_ne_zero _)

theorem heat_zero (alpha : ℝ) (sizes : 0 < d.1 ∧ 0 < d.2.1 ∧ 0 < d.2.2)
    (primitive : ∀ axis, IsPrimitiveRoot (roots d axis) (axis.get d)) (U : Place → ℂ) {p : Place}
    (inside : Inside d p) : heat alpha d U 0 (position d p) = U p := by
  have nonzero : (ntotal d : ℂ) ≠ 0 :=
    Nat.cast_ne_zero.mpr (Nat.mul_pos (Nat.mul_pos sizes.1 sizes.2.1) sizes.2.2).ne'
  have start : decayed (heatDecay alpha) d (dft3 (roots d) d U) 0 = dft3 (roots d) d U := by
    funext p
    rw [decayed, pow_zero, one_mul]
  have now := values_eq alpha d sizes U 0 p
  rw [values, start, Nat.cast_zero] at now
  exact mul_left_cancel₀ nonzero
    (now.symm.trans (dft3_dft3 primitive (roots_inverse d) U p inside))

theorem sampleSum_values (alpha : ℝ) (sizes : 0 < d.1 ∧ 0 < d.2.1 ∧ 0 < d.2.2) (U : Place → ℂ)
    (t : ℕ) : sampleSum d (values (heatDecay alpha) d (roots d) (dft3 (roots d) d U) t) =
      ((sampled d).map fun p => heat alpha d U t (position d p)).sum := by
  have nonzero : (ntotal d : ℂ) ≠ 0 :=
    Nat.cast_ne_zero.mpr (Nat.mul_pos (Nat.mul_pos sizes.1 sizes.2.1) sizes.2.2).ne'
  rw [sampleSum, List.map_congr_left fun p _ => values_eq alpha d sizes U t p,
    List.sum_map_mul_left, mul_div_cancel_left₀ _ nonzero]

theorem main_spec (alpha : ℝ) {ny : ℕ} {old : ℕ → ℂ}
    (fits : Fits d ny (fftInit cosSin old d.1) (roots d))
    (sizes : 0 < d.1 ∧ 0 < d.2.1 ∧ 0 < d.2.2) (niter : ℕ) (twiddle : Grid ℂ)
    (work : ℕ → Axis → ℕ × ℕ → Scratch ℂ) (s : State ℂ) :
    ∃ s', main d ny twiddle work cosSin (heatDecay alpha) niter old s = some s' ∧
      (1 ≤ niter → ∀ p, Inside d p → s'.u1 (up p) =
        ntotal d * heat alpha d (view s.u1) niter (position d p)) ∧
      ∀ t : ℕ, 1 ≤ t → t ≤ niter → s'.sums t =
        ((sampled d).map fun p => heat alpha d (view s.u1) t (position d p)).sum := by
  obtain ⟨out, ran, forth⟩ := fft_spec fits (.inl rfl) (work 0) s.u1 (some s.u0)
  obtain ⟨s', steps, -, stored, sums⟩ := timeSteps_spec (s := ⟨out.2, out.1, s.sums⟩) fits sizes
    (computeIndexmap_agree (heatDecay alpha) d twiddle) forth work niter
  refine ⟨s', by rw [main, ran]; exact steps, fun some_ p inside => ?_, fun t low high => ?_⟩
  · exact (stored some_ p inside).trans (values_eq alpha d sizes (view s.u1) niter p)
  · exact (sums t low high).trans (sampleSum_values alpha sizes (view s.u1) t)

variable {a b c ny : ℕ}

theorem fits_roots (some_ : 1 ≤ a ∧ 1 ≤ b ∧ 1 ≤ c) (long : b ≤ a ∧ c ≤ a) (pos : 0 < ny)
    (even : ny ∣ 2 ^ a ∧ ny ∣ 2 ^ b) (old : ℕ → ℂ) :
    Fits (2 ^ a, 2 ^ b, 2 ^ c) ny (fftInit cosSin old (2 ^ a)) (roots (2 ^ a, 2 ^ b, 2 ^ c)) := by
  have ready (m : ℕ) (low : 1 ≤ m) (high : m ≤ a) :
      Ready (fftInit cosSin old (2 ^ a)) (unityRoot (2 ^ m)) m := by
    have inTable : m ≤ ilog2 (2 ^ a) := high.trans_eq (ilog2_two_pow a).symm
    exact ⟨low, inTable, tableOf_fftInit old inTable, unityRoot_half low⟩
  refine ⟨pos, even, fun axis => ?_⟩
  cases axis
  · exact ⟨a, rfl, ready a some_.1 le_rfl⟩
  · exact ⟨b, rfl, ready b some_.2.1 long.1⟩
  · exact ⟨c, rfl, ready c some_.2.2 long.2⟩

theorem primitive_roots (a b c : ℕ) (axis : Axis) :
    IsPrimitiveRoot (roots (2 ^ a, 2 ^ b, 2 ^ c) axis) (axis.get (2 ^ a, 2 ^ b, 2 ^ c)) := by
  cases axis
  · exact primitive_unityRoot a
  · exact primitive_unityRoot b
  · exact primitive_unityRoot c

/-- The transform of a box and back multiplies by its size, whatever the arrays and the work
arrays held. -/
theorem fft_back (some_ : 1 ≤ a ∧ 1 ≤ b ∧ 1 ≤ c) (long : b ≤ a ∧ c ≤ a) (pos : 0 < ny)
    (even : ny ∣ 2 ^ a ∧ ny ∣ 2 ^ b) (old : ℕ → ℂ) (work work' : Axis → ℕ × ℕ → Scratch ℂ)
    (x1 : Grid ℂ) (x2 x2' : Option (Grid ℂ)) :
    let d := (2 ^ a, 2 ^ b, 2 ^ c)
    let table := fftInit cosSin old (2 ^ a)
    ∃ out back, fft 1 d ny table work x1 x2 = some out ∧
      fft (-1) d ny table work' out.2 x2' = some back ∧
      ∀ p, Inside d p → back.2 (up p) = ntotal d * x1 (up p) := by
  intro d table
  have fits := fits_roots some_ long pos even old
  obtain ⟨out, ran, forth⟩ := fft_spec fits (.inl rfl) work x1 x2
  obtain ⟨back, ran', agree⟩ := fft_spec fits (.inr rfl) work' out.2 x2'
  refine ⟨out, back, ran, ran', fun p inside => ?_⟩
  refine (agree p inside).trans ?_
  rw [forth.dft3]
  exact dft3_dft3 (primitive_roots a b c) (roots_inverse _) (view x1) p inside

theorem fft_back_small : ∃ out back,
    fft 1 (2 ^ 6, 2 ^ 6, 2 ^ 6) 32 (fftInit cosSin (fun _ => 3) (2 ^ 6))
      (fun _ _ => (fun _ => 5, fun _ => 6)) (fun p => p.1) none = some out ∧
    fft (-1) (2 ^ 6, 2 ^ 6, 2 ^ 6) 32 (fftInit cosSin (fun _ => 3) (2 ^ 6))
      (fun _ _ => (fun _ => 7, fun _ => 8)) out.2 none = some back ∧
    ∀ p, Inside (2 ^ 6, 2 ^ 6, 2 ^ 6) p →
      back.2 (up p) = ntotal (2 ^ 6, 2 ^ 6, 2 ^ 6) * ((up p).1 : ℂ) :=
  fft_back (by decide) (by decide) (by decide) (by decide) (fun _ => 3) _ _ (fun p => p.1) none none

/-- A run of any length in exact arithmetic: the values that `fft` leaves after a time step are
those of the heat that began with the initial values, times the size of the grid, and its checksum
is the sum of that heat at the sampled places. -/
theorem main_heat (some_ : 1 ≤ a ∧ 1 ≤ b ∧ 1 ≤ c) (long : b ≤ a ∧ c ≤ a) (pos : 0 < ny)
    (even : ny ∣ 2 ^ a ∧ ny ∣ 2 ^ b) (alpha : ℝ) (niter : ℕ) (old : ℕ → ℂ) (twiddle : Grid ℂ)
    (work : ℕ → Axis → ℕ × ℕ → Scratch ℂ) (s : State ℂ) :
    let d := (2 ^ a, 2 ^ b, 2 ^ c)
    let u := heat alpha d (view s.u1)
    (∀ t x, HasDerivAt (fun t => u t x) (alpha * laplacian (u t) x) t) ∧
      (∀ p, Inside d p → u 0 (position d p) = s.u1 (up p)) ∧
      ∃ s', main d ny twiddle work cosSin (heatDecay alpha) niter old s = some s' ∧
        (1 ≤ niter → ∀ p, Inside d p → s'.u1 (up p) = ntotal d * u niter (position d p)) ∧
        ∀ t : ℕ, 1 ≤ t → t ≤ niter →
          s'.sums t = ((sampled d).map fun p => u t (position d p)).sum := by
  exact ⟨hasDerivAt_solution alpha _ _ _, fun p inside => heat_zero alpha
    ⟨Nat.two_pow_pos a, Nat.two_pow_pos b, Nat.two_pow_pos c⟩ (primitive_roots a b c) _ inside,
    main_spec alpha (fits_roots some_ long pos even old)
      ⟨Nat.two_pow_pos a, Nat.two_pow_pos b, Nat.two_pow_pos c⟩ niter twiddle work s⟩

theorem main_heat_small :
    let s : State ℂ := ⟨fun _ => 1, fun p => p.1, fun _ => 2⟩
    let u := heat (1 / 10) (2 ^ 6, 2 ^ 6, 2 ^ 6) (view s.u1)
    ∃ s', main (2 ^ 6, 2 ^ 6, 2 ^ 6) 32 (fun _ => 3) (fun _ _ _ => (fun _ => 5, fun _ => 6)) cosSin
        (heatDecay (1 / 10)) 6 (fun _ => 4) s = some s' ∧
      (1 ≤ 6 → ∀ p, Inside (2 ^ 6, 2 ^ 6, 2 ^ 6) p → s'.u1 (up p) =
        ntotal (2 ^ 6, 2 ^ 6, 2 ^ 6) * u (6 : ℕ) (position (2 ^ 6, 2 ^ 6, 2 ^ 6) p)) ∧
      ∀ t : ℕ, 1 ≤ t → t ≤ 6 → s'.sums t = ((sampled (2 ^ 6, 2 ^ 6, 2 ^ 6)).map fun p =>
        u t (position (2 ^ 6, 2 ^ 6, 2 ^ 6) p)).sum :=
  (main_heat (by decide) (by decide) (by decide) (by decide) (1 / 10) 6 (fun _ => 4) (fun _ => 3)
    (fun _ _ _ => (fun _ => 5, fun _ => 6)) ⟨fun _ => 1, fun p => p.1, fun _ => 2⟩).2.2

end exact

end Baseliner.FtHeat
