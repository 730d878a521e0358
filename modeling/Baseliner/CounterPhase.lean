import Mathlib.Algebra.Order.Ring.Int
import Mathlib.Data.Int.Basic
import Mathlib.Data.Nat.Basic
import Mathlib.Order.Basic

/-! Something done whenever a signed counter is a multiple of `m`. The counter goes up by one
and comes round from `h - 1` to `-h`. Before that it fires once in any `m` counts; around it
the last multiple below `h` and the first one above `-h` are `2 * (h % m)` counts apart. -/

namespace Baseliner.CounterPhase

variable {h m N : ℕ}

/-- The counter after `t` increments. -/
def counter (h t : ℕ) : Int := Int.bmod t (2 * h)

def OncePerWindow (m N : ℕ) (fires : ℕ → Prop) : Prop :=
  ∀ t, t + m ≤ N → ∃! k, (t ≤ k ∧ k < t + m) ∧ fires k

/-- How many counts it goes well, where it does not go well for ever. -/
def steady (h m : ℕ) : ℕ := h - h % m + min (2 * (h % m)) m

theorem counter_succ (h t : ℕ) : (counter h t + 1).bmod (2 * h) = counter h (t + 1) := by
  rw [counter, counter, Int.bmod_add_bmod]
  rfl

theorem counter_of_lt {t : ℕ} (below : t < h) : counter h t = t :=
  Int.bmod_eq_of_le_mul_two (by omega) (by omega)

theorem counter_of_le {t : ℕ} (low : h ≤ t) (high : t < 2 * h) :
    counter h t = (t : Int) - 2 * h := by
  have shift : (t : Int) - ((2 * h : ℕ) : Int) = (t : Int) - 2 * h := by omega
  rw [counter, ← Int.sub_bmod_right, shift]
  exact Int.bmod_eq_of_le_mul_two (by omega) (by omega)

/-- In the first round the counter is a multiple like the distance to the nearer end. -/
theorem dvd_counter_iff {t : ℕ} (high : t < 2 * h) :
    (m : Int) ∣ counter h t ↔ m ∣ if t < h then t else 2 * h - t := by
  split_ifs with below
  · rw [counter_of_lt below, Int.natCast_dvd_natCast]
  · have back : (t : Int) - 2 * h = -((2 * h - t : ℕ) : Int) := by omega
    rw [counter_of_le (not_lt.mp below) high, back, Int.dvd_neg, Int.natCast_dvd_natCast]

theorem dvd_counter_of_dvd (whole : m ∣ 2 * h) (t : ℕ) : (m : Int) ∣ counter h t ↔ m ∣ t := by
  have round : (m : Int) ∣ t - counter h t :=
    Int.dvd_trans (Int.natCast_dvd_natCast.mpr whole) Int.dvd_self_sub_bmod
  rw [← Int.natCast_dvd_natCast]
  constructor
  · intro value
    have sum := Int.dvd_add round value
    rwa [Int.sub_add_cancel] at sum
  · intro value
    have difference := Int.dvd_sub value round
    rwa [Int.sub_sub_self] at difference

theorem multiple_gap {x y : ℕ} (hx : m ∣ x) (hy : m ∣ y) (less : x < y) : x + m ≤ y := by
  have gap := Nat.le_of_dvd (by omega) (Nat.dvd_sub hy hx)
  omega

theorem existsUnique_multiple (pos : 0 < m) (t : ℕ) : ∃! k, (t ≤ k ∧ k < t + m) ∧ m ∣ k := by
  have split := Nat.div_add_mod (t + m - 1) m
  have rest := Nat.mod_lt (t + m - 1) pos
  refine ⟨m * ((t + m - 1) / m), ⟨by omega, Nat.dvd_mul_right ..⟩, ?_⟩
  rintro k ⟨⟨low, high⟩, multiple⟩
  rcases Nat.lt_trichotomy k (m * ((t + m - 1) / m)) with less | same | more
  · have gap := multiple_gap multiple (Nat.dvd_mul_right ..) less
    omega
  · exact same
  · have gap := multiple_gap (Nat.dvd_mul_right ..) multiple more
    omega

theorem OncePerWindow.congr {P Q : ℕ → Prop} (once : OncePerWindow m N Q)
    (same : ∀ k < N, P k ↔ Q k) : OncePerWindow m N P := by
  intro t fits
  obtain ⟨k, ⟨window, fired⟩, unique⟩ := once t fits
  refine ⟨k, ⟨window, (same k (by omega)).mpr fired⟩, ?_⟩
  rintro l ⟨inside, fired'⟩
  exact unique l ⟨inside, (same l (by omega)).mp fired'⟩

theorem oncePerWindow_congr {P Q : ℕ → Prop} (same : ∀ k < N, P k ↔ Q k) :
    OncePerWindow m N P ↔ OncePerWindow m N Q :=
  ⟨fun once => once.congr fun k lt => (same k lt).symm, fun once => once.congr same⟩

theorem oncePerWindow_of_multiples {fires : ℕ → Prop} (pos : 0 < m)
    (same : ∀ k < N, fires k ↔ m ∣ k) : OncePerWindow m N fires :=
  OncePerWindow.congr (fun t _ => existsUnique_multiple pos t) same

section Round

variable (pos : 0 < m) (le : m ≤ h)

include pos le

theorem dvd_counter_of_lt_steady {k : ℕ} (early : k < steady h m) :
    (m : Int) ∣ counter h k ↔ m ∣ k := by
  have rest := Nat.mod_lt h pos
  have part := Nat.mod_le h m
  have base : m ∣ h - h % m := Nat.dvd_sub_mod h
  unfold steady at early
  rw [dvd_counter_iff (by omega)]
  split_ifs with below
  · rfl
  · refine iff_of_false ?_ ?_
    · intro multiple
      have gap := multiple_gap base multiple (by omega)
      omega
    · intro multiple
      have gap := multiple_gap base multiple (by omega)
      omega

theorem not_oncePerWindow (broken : ¬ m ∣ 2 * h) (long : steady h m < N) :
    ¬ OncePerWindow m N fun k => (m : Int) ∣ counter h k := by
  have rest := Nat.mod_lt h pos
  have part := Nat.mod_le h m
  have base : m ∣ h - h % m := Nat.dvd_sub_mod h
  have double : 2 * (h - h % m) + 2 * (h % m) = 2 * h := by omega
  have odd : ¬ m ∣ 2 * (h % m) := by
    intro multiple
    apply broken
    rw [← double]
    exact Nat.dvd_add (Nat.dvd_mul_left_of_dvd base 2) multiple
  have nonzero : h % m ≠ 0 := fun zero => odd (by rw [zero]; exact Nat.dvd_zero m)
  have other : 2 * (h % m) ≠ m := fun same => odd ⟨1, by omega⟩
  unfold steady at long
  intro once
  rcases Nat.lt_or_gt_of_ne other with short | wide
  · -- the multiples `h - h % m` and `h + h % m` are less than `m` apart
    obtain ⟨k, _, unique⟩ := once (h + h % m + 1 - m) (by omega)
    have first := unique (h - h % m) ⟨by omega, by
      dsimp only
      rw [dvd_counter_iff (by omega), if_pos (by omega)]
      exact base⟩
    have second := unique (h + h % m) ⟨by omega, by
      dsimp only
      rw [dvd_counter_iff (by omega), if_neg (by omega)]
      rwa [show 2 * h - (h + h % m) = h - h % m by omega]⟩
    omega
  · -- between these two there is room for a window
    obtain ⟨k, ⟨window, fired⟩, _⟩ := once (h - h % m + 1) (by omega)
    rw [dvd_counter_iff (by omega)] at fired
    split_ifs at fired with below
    · have gap := multiple_gap base fired (by omega)
      omega
    · have gap := multiple_gap base fired (by omega)
      omega

theorem oncePerWindow_iff :
    OncePerWindow m N (fun k => (m : Int) ∣ counter h k) ↔ m ∣ 2 * h ∨ N ≤ steady h m := by
  constructor
  · intro once
    by_contra neither
    rw [not_or, not_le] at neither
    exact not_oncePerWindow pos le neither.1 neither.2 once
  · rintro (whole | early)
    · exact oncePerWindow_of_multiples pos fun k _ => dvd_counter_of_dvd whole k
    · exact oncePerWindow_of_multiples pos fun k lt =>
        dvd_counter_of_lt_steady pos le (Nat.lt_of_lt_of_le lt early)

end Round

end Baseliner.CounterPhase
