import Mathlib.Algebra.Star.Basic
import Mathlib.RingTheory.RootsOfUnity.Complex
import Baseliner.SharedWrites
import Baseliner.StockhamStages

/-! The transforms of the FT benchmark, over exact numbers. `fft_init` makes one table with the
roots of all stages, `fftz2` makes one stage from one array into the other, and `cfftz` makes
two stages at a time and copies the result back where their number is odd. -/

namespace Baseliner.FtFft

open SharedWrites StockhamStages

section Table

variable {R : Type*}

/-- The array `u`; its first entry is the number of the stages. -/
structure Roots (R : Type*) where
  mx : ℕ
  u : ℕ → R

def ilog2Loop (n : ℕ) : (fuel nn lg : ℕ) → ℕ
  | 0, _, lg => lg
  | fuel + 1, nn, lg => if nn < n then ilog2Loop n fuel (nn * 2) (lg + 1) else lg

def ilog2 (n : ℕ) : ℕ := if n = 1 then 0 else ilog2Loop n n 2 1

/-- One round of `fft_init`, from `u`, `ku` and `ln`; `root i ln` is `cos(i*pi/ln)` and
`sin(i*pi/ln)`. -/
def initRound (root : ℕ → ℕ → R) (s : (ℕ → R) × ℕ × ℕ) : (ℕ → R) × ℕ × ℕ :=
  (applyWrites s.1 ((List.range s.2.2).map fun i => (i + s.2.1, root i s.2.2)),
    s.2.1 + s.2.2, 2 * s.2.2)

/-- `fft_init`, in an array that held something else before. -/
def fftInit (root : ℕ → ℕ → R) (old : ℕ → R) (n : ℕ) : Roots R :=
  ⟨ilog2 n, (Nat.iterate (initRound root) (ilog2 n) (old, 2, 1)).1⟩

end Table

section Transform

variable {R : Type*} [CommRing R] [StarRing R]

def fftz2Writes (is : ℤ) (l m n ny : ℕ) (u : ℕ → R) (x : ℕ × ℕ → R) : List ((ℕ × ℕ) × R) :=
  let n1 := n / 2
  let lk := 2 ^ (l - 1)
  let li := 2 ^ (m - l)
  let lj := 2 * lk
  let ku := li + 1
  (List.range li).flatMap fun i =>
    let i11 := i * lk + 1
    let i12 := i11 + n1
    let i21 := i * lj + 1
    let i22 := i21 + lk
    let u1 := if is ≥ 1 then u (ku + i) else star (u (ku + i))
    (List.range lk).flatMap fun k => (List.range' 1 ny).flatMap fun j =>
      let x11 := x (j, i11 + k)
      let x21 := x (j, i12 + k)
      [((j, i21 + k), x11 + x21), ((j, i22 + k), u1 * (x11 - x21))]

def fftz2 (is : ℤ) (l m n ny : ℕ) (u : ℕ → R) (x y : ℕ × ℕ → R) : ℕ × ℕ → R :=
  applyWrites y (fftz2Writes is l m n ny u x)

def copyBlock (n ny : ℕ) (x y : ℕ × ℕ → R) : ℕ × ℕ → R :=
  applyWrites x ((List.range' 1 n).flatMap fun j => (List.range' 1 ny).map fun i =>
    ((i, j), y (i, j)))

def stages (is : ℤ) (m n ny : ℕ) (u : ℕ → R) :
    (trips l : ℕ) → (x y : ℕ × ℕ → R) → (ℕ × ℕ → R) × (ℕ × ℕ → R)
  | 0, _, x, y => (x, y)
  | trips + 1, l, x, y =>
      let y := fftz2 is l m n ny u x y
      if l = m then (copyBlock n ny x y, y)
      else
        let x := fftz2 is (l + 1) m n ny u y x
        stages is m n ny u trips (l + 2) x y

/-- `cfftz`, or none where it stops; `ny` is `fftblock`. -/
def cfftz (is : ℤ) (m n ny : ℕ) (roots : Roots R) (x y : ℕ × ℕ → R) :
    Option ((ℕ × ℕ → R) × (ℕ × ℕ → R)) :=
  if is ≠ 1 ∧ is ≠ -1 ∨ m < 1 ∨ m > roots.mx then none
  else some (stages is m n ny roots.u ((m + 1) / 2) 1 x y)

end Transform

section Stage

variable {R : Type*} [CommRing R] [StarRing R] {is : ℤ} {l m n ny : ℕ} {u : ℕ → R}
  {x y : ℕ × ℕ → R}

def blockRoot (is : ℤ) (l m : ℕ) (u : ℕ → R) (i : ℕ) : R :=
  if is ≥ 1 then u (2 ^ (m - l) + 1 + i) else star (u (2 ^ (m - l) + 1 + i))

theorem mem_fftz2Writes {w : (ℕ × ℕ) × R} :
    w ∈ fftz2Writes is l m n ny u x ↔
      ∃ i < 2 ^ (m - l), ∃ k < 2 ^ (l - 1), ∃ j ∈ List.range' 1 ny,
        w = ((j, i * (2 * 2 ^ (l - 1)) + 1 + k),
          x (j, i * 2 ^ (l - 1) + 1 + k) + x (j, i * 2 ^ (l - 1) + 1 + n / 2 + k)) ∨
        w = ((j, i * (2 * 2 ^ (l - 1)) + 1 + 2 ^ (l - 1) + k), blockRoot is l m u i *
          (x (j, i * 2 ^ (l - 1) + 1 + k) - x (j, i * 2 ^ (l - 1) + 1 + n / 2 + k))) := by
  simp only [fftz2Writes, blockRoot, List.mem_flatMap, List.mem_range, List.mem_cons,
    List.not_mem_nil, or_false]

def stageValue (is : ℤ) (l m n : ℕ) (u : ℕ → R) (x : ℕ × ℕ → R) (q : ℕ × ℕ) : R :=
  let i := (q.2 - 1) / (2 * 2 ^ (l - 1))
  let k := (q.2 - 1) % (2 * 2 ^ (l - 1))
  if k < 2 ^ (l - 1) then
    x (q.1, i * 2 ^ (l - 1) + 1 + k) + x (q.1, i * 2 ^ (l - 1) + 1 + n / 2 + k)
  else blockRoot is l m u i * (x (q.1, i * 2 ^ (l - 1) + 1 + (k - 2 ^ (l - 1))) -
    x (q.1, i * 2 ^ (l - 1) + 1 + n / 2 + (k - 2 ^ (l - 1))))

theorem div_mod_block {c i k : ℕ} (inside : k < c) :
    (i * c + 1 + k - 1) / c = i ∧ (i * c + 1 + k - 1) % c = k := by
  have place : i * c + 1 + k - 1 = c * i + k := by
    rw [Nat.mul_comm]
    omega
  rw [place, Nat.mul_add_div (by omega), Nat.mul_add_mod, Nat.div_eq_of_lt inside,
    Nat.mod_eq_of_lt inside]
  exact ⟨rfl, rfl⟩

theorem fftz2Writes_agree :
    ∀ w ∈ fftz2Writes is l m n ny u x, w.2 = stageValue is l m n u x w.1 := by
  intro w member
  obtain ⟨i, _, k, hk, j, _, rfl | rfl⟩ := mem_fftz2Writes.mp member
  · obtain ⟨block, entry⟩ := @div_mod_block (2 * 2 ^ (l - 1)) i k (by omega)
    simp only [stageValue, block, entry, if_pos hk]
  · obtain ⟨block, entry⟩ := @div_mod_block (2 * 2 ^ (l - 1)) i (2 ^ (l - 1) + k) (by omega)
    rw [← Nat.add_assoc] at block entry
    simp only [stageValue, block, entry, if_neg (show ¬ 2 ^ (l - 1) + k < 2 ^ (l - 1) by omega),
      Nat.add_sub_cancel_left]

/-- The two entries that a block gets from an entry and the one half the array behind it. -/
theorem fftz2_apply {i k j : ℕ} (hi : i < 2 ^ (m - l)) (hk : k < 2 ^ (l - 1))
    (hj : j ∈ List.range' 1 ny) :
    fftz2 is l m n ny u x y (j, i * (2 * 2 ^ (l - 1)) + 1 + k) =
        x (j, i * 2 ^ (l - 1) + 1 + k) + x (j, i * 2 ^ (l - 1) + 1 + n / 2 + k) ∧
      fftz2 is l m n ny u x y (j, i * (2 * 2 ^ (l - 1)) + 1 + 2 ^ (l - 1) + k) =
        blockRoot is l m u i *
          (x (j, i * 2 ^ (l - 1) + 1 + k) - x (j, i * 2 ^ (l - 1) + 1 + n / 2 + k)) := by
  have value {w : (ℕ × ℕ) × R} (member : w ∈ fftz2Writes is l m n ny u x) :
      fftz2 is l m n ny u x y w.1 = w.2 := by
    rw [fftz2, applyWrites_of_agree fftz2Writes_agree, if_pos (List.mem_map_of_mem member),
      fftz2Writes_agree w member]
  exact ⟨value (mem_fftz2Writes.mpr ⟨i, hi, k, hk, j, hj, .inl rfl⟩),
    value (mem_fftz2Writes.mpr ⟨i, hi, k, hk, j, hj, .inr rfl⟩)⟩

def InBlock (n ny : ℕ) (q : ℕ × ℕ) : Prop := q.1 ∈ List.range' 1 ny ∧ q.2 ∈ List.range' 1 n

theorem fftz2_outside (first : 1 ≤ l) (last : l ≤ m) {q : ℕ × ℕ}
    (outside : ¬ InBlock (2 ^ m) ny q) : fftz2 is l m (2 ^ m) ny u x y q = y q := by
  rw [fftz2, applyWrites_of_agree fftz2Writes_agree, if_neg]
  intro member
  obtain ⟨w, written, rfl⟩ := List.mem_map.mp member
  obtain ⟨i, hi, k, hk, j, hj, place⟩ := mem_fftz2Writes.mp written
  have size : 2 ^ (m - l) * (2 * 2 ^ (l - 1)) = 2 ^ m := by
    rw [← pow_succ', ← pow_add]
    congr 1
    omega
  have block : i * (2 * 2 ^ (l - 1)) + 2 * 2 ^ (l - 1) ≤ 2 ^ m := by
    rw [← size, ← Nat.succ_mul]
    exact Nat.mul_le_mul_right _ hi
  apply outside
  rcases place with rfl | rfl
  · exact ⟨hj, List.mem_range'_1.mpr ⟨by dsimp only; omega, by dsimp only; omega⟩⟩
  · exact ⟨hj, List.mem_range'_1.mpr ⟨by dsimp only; omega, by dsimp only; omega⟩⟩

omit [CommRing R] [StarRing R] in
theorem copyBlock_spec (n ny : ℕ) (x y : ℕ × ℕ → R) (q : ℕ × ℕ) :
    (InBlock n ny q → copyBlock n ny x y q = y q) ∧
      (¬ InBlock n ny q → copyBlock n ny x y q = x q) := by
  have agree : ∀ w ∈ (List.range' 1 n).flatMap fun j => (List.range' 1 ny).map fun i =>
      ((i, j), y (i, j)), w.2 = y w.1 := by
    intro w member
    simp only [List.mem_map, List.mem_flatMap] at member
    obtain ⟨j, _, i, _, rfl⟩ := member
    rfl
  rw [copyBlock, applyWrites_of_agree agree]
  constructor
  · rintro ⟨hi, hj⟩
    refine if_pos (List.mem_map.mpr ⟨(q, y q), ?_, rfl⟩)
    exact List.mem_flatMap.mpr ⟨q.2, hj, List.mem_map.mpr ⟨q.1, hi, rfl⟩⟩
  · intro outside
    refine if_neg fun member => outside ?_
    simp only [List.mem_map, List.mem_flatMap] at member
    obtain ⟨w, ⟨j, hj, i, hi, rfl⟩, rfl⟩ := member
    exact ⟨hi, hj⟩

end Stage

section Run

variable {R : Type*} [CommRing R] [StarRing R] {is : ℤ} {l m ny : ℕ} {u : ℕ → R} {w : R}
  {x x₀ y : ℕ × ℕ → R}

def TableOf (w : R) (m : ℕ) (u : ℕ → R) : Prop :=
  ∀ s < m, ∀ i < 2 ^ s, u (2 ^ s + 1 + i) = w ^ (i * 2 ^ (m - 1 - s))

def directed (is : ℤ) (w : R) : R := if is ≥ 1 then w else star w

theorem blockRoot_eq (table : TableOf w m u) (first : 1 ≤ l) (last : l ≤ m) {i : ℕ}
    (hi : i < 2 ^ (m - l)) : blockRoot is l m u i = directed is w ^ (i * 2 ^ (l - 1)) := by
  have power := table (m - l) (by omega) i hi
  rw [show m - 1 - (m - l) = l - 1 by omega] at power
  rw [blockRoot, directed, power]
  split_ifs
  · rfl
  · rw [star_pow]

theorem directed_pow (is : ℤ) {n : ℕ} (half : w ^ n = -1) : directed is w ^ n = -1 := by
  rw [directed]
  split_ifs
  · exact half
  · rw [← star_pow, half, star_neg, star_one]

def Holds (w : R) (l m ny : ℕ) (x₀ x : ℕ × ℕ → R) : Prop :=
  ∀ j ∈ List.range' 1 ny, ∀ i < 2 ^ (m - l), ∀ k < 2 ^ l,
    x (j, i * 2 ^ l + 1 + k) = partialSum w (2 ^ (m - l)) (2 ^ l) (fun p => x₀ (j, p + 1)) i k

omit [StarRing R] in
theorem holds_start (w : R) (m ny : ℕ) (x₀ : ℕ × ℕ → R) : Holds w 0 m ny x₀ x₀ := by
  intro j _ i _ k hk
  have zero : k = 0 := by
    rw [pow_zero] at hk
    omega
  rw [zero, pow_zero, partialSum_one, Nat.mul_one, Nat.add_zero]

theorem Holds.fftz2 (table : TableOf w m u) (half : w ^ 2 ^ (m - 1) = -1) (first : 1 ≤ l)
    (last : l ≤ m) (h : Holds (directed is w) (l - 1) m ny x₀ x) (y : ℕ × ℕ → R) :
    Holds (directed is w) l m ny x₀ (FtFft.fftz2 is l m (2 ^ m) ny u x y) := by
  intro j hj i hi k hk
  have blocks : 2 ^ (m - (l - 1)) = 2 * 2 ^ (m - l) := by
    rw [← pow_succ', show m - l + 1 = m - (l - 1) by omega]
  have length : 2 ^ l = 2 * 2 ^ (l - 1) := by
    rw [← pow_succ', Nat.sub_add_cancel first]
  have middle : 2 ^ m / 2 = 2 ^ (m - l) * 2 ^ (l - 1) := by
    rw [← pow_add, show m - l + (l - 1) = m - 1 by omega, Nat.div_eq_of_eq_mul_right (by decide)]
    rw [← pow_succ', Nat.sub_add_cancel (first.trans last)]
  have low (k : ℕ) (hk : k < 2 ^ (l - 1)) := h j hj i (by omega) k hk
  have high (k : ℕ) (hk : k < 2 ^ (l - 1)) := h j hj (i + 2 ^ (m - l)) (by omega) k hk
  have behind (k : ℕ) : i * 2 ^ (l - 1) + 1 + 2 ^ m / 2 + k =
      (i + 2 ^ (m - l)) * 2 ^ (l - 1) + 1 + k := by
    rw [middle, Nat.add_mul]
    omega
  rw [length]
  rw [blocks] at low high
  by_cases front : k < 2 ^ (l - 1)
  · rw [(fftz2_apply hi front hj).1, behind, low k front, high k front, partialSum_add]
  · obtain ⟨k', rfl⟩ := Nat.exists_eq_add_of_le (Nat.le_of_not_lt front)
    have hk' : k' < 2 ^ (l - 1) := by omega
    have sign : directed is w ^ (2 ^ (m - l) * 2 ^ (l - 1)) = -1 := by
      rw [← pow_add, show m - l + (l - 1) = m - 1 by omega]
      exact directed_pow is half
    rw [← Nat.add_assoc, (fftz2_apply hi hk' hj).2, behind, low k' hk', high k' hk',
      blockRoot_eq table first last hi, partialSum_sub sign]

theorem stages_spec (table : TableOf w m u) (half : w ^ 2 ^ (m - 1) = -1) (trips : ℕ)
    (first : 1 ≤ l) (last : l ≤ m + 1) (count : trips = (m + 2 - l) / 2)
    (h : Holds (directed is w) (l - 1) m ny x₀ x) :
    Holds (directed is w) m m ny x₀ (stages is m (2 ^ m) ny u trips l x y).1 ∧
      ∀ q, ¬ InBlock (2 ^ m) ny q → (stages is m (2 ^ m) ny u trips l x y).1 q = x q := by
  induction trips generalizing l x y with
  | zero =>
      have ended : l - 1 = m := by omega
      rw [ended] at h
      exact ⟨h, fun _ _ => rfl⟩
  | succ trips ih =>
      have inside : l ≤ m := by omega
      have one := h.fftz2 table half first inside y
      rw [stages]
      dsimp only
      by_cases odd : l = m
      · -- the last stage ended in `y`
        subst odd
        rw [if_pos rfl]
        have copied := copyBlock_spec (2 ^ l) ny x (fftz2 is l l (2 ^ l) ny u x y)
        refine ⟨fun j hj i hi k hk => ?_, fun q outside => (copied q).2 outside⟩
        rw [← one j hj i hi k hk]
        rw [Nat.sub_self, pow_zero, Nat.lt_one_iff] at hi
        refine (copied _).1 ⟨hj, List.mem_range'_1.mpr ?_⟩
        rw [hi]
        omega
      · rw [if_neg odd]
        have two := one.fftz2 table half (l := l + 1) (by omega) (by omega) x
        obtain ⟨holds, outside⟩ := @ih (l + 2) _ (fftz2 is l m (2 ^ m) ny u x y) (by omega)
          (by omega) (by omega) two
        refine ⟨holds, fun q other => ?_⟩
        rw [outside q other, fftz2_outside (by omega) (by omega) other]

theorem cfftz_spec {roots : Roots R} (sign : is = 1 ∨ is = -1) (stages_ : 1 ≤ m)
    (enough : m ≤ roots.mx) (table : TableOf w m roots.u) (half : w ^ 2 ^ (m - 1) = -1)
    (x y : ℕ × ℕ → R) :
    ∃ x' y', cfftz is m (2 ^ m) ny roots x y = some (x', y') ∧
      (∀ j ∈ List.range' 1 ny, ∀ k < 2 ^ m,
        x' (j, k + 1) = dft (directed is w) (2 ^ m) (fun p => x (j, p + 1)) k) ∧
      ∀ q, ¬ InBlock (2 ^ m) ny q → x' q = x q := by
  obtain ⟨holds, outside⟩ := @stages_spec R _ _ is 1 m ny roots.u w x x y table half ((m + 1) / 2)
    le_rfl (by omega) (by omega) (holds_start _ m ny x)
  refine ⟨_, (stages is m (2 ^ m) ny roots.u ((m + 1) / 2) 1 x y).2, ?_, fun j hj k hk => ?_,
    outside⟩
  · rw [cfftz, if_neg (by omega)]
  · have last := holds j hj 0 (Nat.two_pow_pos _) k hk
    rw [Nat.sub_self, pow_zero, partialSum_all, Nat.zero_mul, Nat.zero_add, Nat.add_comm 1] at last
    exact last

end Run

section Init

variable {R : Type*} {root : ℕ → ℕ → R}

theorem initRound_iterate (root : ℕ → ℕ → R) (old : ℕ → R) (rounds : ℕ) :
    ∃ u, (initRound root)^[rounds] (old, 2, 1) = (u, 2 ^ rounds + 1, 2 ^ rounds) ∧
      ∀ s < rounds, ∀ i < 2 ^ s, u (2 ^ s + 1 + i) = root i (2 ^ s) := by
  induction rounds with
  | zero => exact ⟨old, rfl, fun s none => absurd none (Nat.not_lt_zero s)⟩
  | succ rounds ih =>
      obtain ⟨u, state, filled⟩ := ih
      have agree : ∀ w ∈ (List.range (2 ^ rounds)).map fun i =>
          (i + (2 ^ rounds + 1), root i (2 ^ rounds)),
          w.2 = root (w.1 - (2 ^ rounds + 1)) (2 ^ rounds) := by
        intro w member
        obtain ⟨i, _, rfl⟩ := List.mem_map.mp member
        rw [Nat.add_sub_cancel]
      refine ⟨applyWrites u ((List.range (2 ^ rounds)).map fun i =>
        (i + (2 ^ rounds + 1), root i (2 ^ rounds))), ?_, fun s less i hi => ?_⟩
      · rw [Function.iterate_succ_apply', state, initRound]
        dsimp only
        rw [show 2 ^ rounds + 1 + 2 ^ rounds = 2 ^ (rounds + 1) + 1 by rw [pow_succ]; omega,
          ← pow_succ']
      · rw [@applyWrites_of_agree _ _ _ (fun p => root (p - (2 ^ rounds + 1)) (2 ^ rounds)) _ agree]
        rcases Nat.lt_succ_iff_lt_or_eq.mp less with before | rfl
        · -- the entries of earlier rounds are below
          have below : 2 ^ (s + 1) ≤ 2 ^ rounds := Nat.pow_le_pow_right (by decide) before
          rw [pow_succ] at below
          rw [if_neg, filled s before i hi]
          simp only [List.mem_map, List.mem_range, Prod.exists]
          rintro ⟨p, _, ⟨i', _, same⟩, here⟩
          have place := (Prod.mk.inj same).1
          omega
        · rw [if_pos, Nat.add_sub_cancel_left]
          refine List.mem_map.mpr ⟨(i + (2 ^ s + 1), root i (2 ^ s)), ?_, Nat.add_comm ..⟩
          exact List.mem_map.mpr ⟨i, List.mem_range.mpr hi, rfl⟩

theorem fftInit_u (root : ℕ → ℕ → R) (old : ℕ → R) (n : ℕ) :
    ∀ s < (fftInit root old n).mx, ∀ i < 2 ^ s,
      (fftInit root old n).u (2 ^ s + 1 + i) = root i (2 ^ s) := by
  obtain ⟨u, state, filled⟩ := initRound_iterate root old (ilog2 n)
  intro s less i hi
  have entry := filled s less i hi
  rw [fftInit]
  dsimp only
  rw [state]
  exact entry

theorem ilog2Loop_two_pow (d : ℕ) : ∀ fuel a lg, d ≤ fuel → 0 < a →
    ilog2Loop (a * 2 ^ d) fuel a lg = lg + d := by
  induction d with
  | zero =>
      intro fuel a lg _ _
      cases fuel with
      | zero => rfl
      | succ fuel => simp [ilog2Loop]
  | succ d ih =>
      intro fuel a lg enough some_
      obtain ⟨fuel, rfl⟩ := Nat.exists_eq_add_of_le' (show 1 ≤ fuel by omega)
      have more : a < a * 2 ^ (d + 1) :=
        (Nat.lt_mul_iff_one_lt_right some_).mpr (Nat.one_lt_two_pow (Nat.succ_ne_zero d))
      rw [ilog2Loop, if_pos more, show a * 2 ^ (d + 1) = a * 2 * 2 ^ d by ring,
        ih fuel (a * 2) (lg + 1) (by omega) (by omega)]
      omega

theorem ilog2_two_pow (m : ℕ) : ilog2 (2 ^ m) = m := by
  cases m with
  | zero => rfl
  | succ m =>
      have big : 2 ^ (m + 1) ≠ 1 := (Nat.one_lt_two_pow (Nat.succ_ne_zero m)).ne'
      have fuel : m ≤ 2 ^ (m + 1) := by
        have := Nat.lt_two_pow_self (n := m)
        rw [pow_succ]
        omega
      have doublings := ilog2Loop_two_pow m (2 ^ (m + 1)) 2 1 fuel (by decide)
      rw [ilog2, if_neg big]
      rw [show 2 * 2 ^ m = 2 ^ (m + 1) by ring] at doublings
      rw [doublings, Nat.add_comm]

end Init

section Complex

open Complex

/-- `dcmplx(cos(ti), sin(ti))`, without rounding. -/
noncomputable def cosSin (i ln : ℕ) : ℂ :=
  ⟨Real.cos (i * (Real.pi / ln)), Real.sin (i * (Real.pi / ln))⟩

noncomputable def unityRoot (n : ℕ) : ℂ := exp (2 * Real.pi * I / n)

theorem cosSin_eq (i ln : ℕ) : cosSin i ln = exp (i * (Real.pi / ln) * I) := by
  have angle : (i * (Real.pi / ln) : ℂ) = ((i * (Real.pi / ln) : ℝ) : ℂ) := by push_cast; rfl
  rw [angle]
  exact Complex.ext (exp_ofReal_mul_I_re _).symm (exp_ofReal_mul_I_im _).symm

theorem cosSin_two_pow {s m : ℕ} (less : s < m) (i : ℕ) :
    cosSin i (2 ^ s) = unityRoot (2 ^ m) ^ (i * 2 ^ (m - 1 - s)) := by
  have parts : (2 ^ m : ℕ) = 2 * 2 ^ s * 2 ^ (m - 1 - s) := by
    rw [← pow_succ', ← pow_add]
    congr 1
    omega
  rw [cosSin_eq, unityRoot, ← exp_nat_mul, parts]
  congr 1
  push_cast
  field_simp

theorem unityRoot_half {m : ℕ} (some_ : 1 ≤ m) : unityRoot (2 ^ m) ^ 2 ^ (m - 1) = -1 := by
  have whole : (2 ^ m : ℕ) = 2 * 2 ^ (m - 1) := by
    rw [← pow_succ', Nat.sub_add_cancel some_]
  rw [unityRoot, ← exp_nat_mul, whole, ← exp_pi_mul_I]
  congr 1
  push_cast
  field_simp

theorem primitive_unityRoot (m : ℕ) : IsPrimitiveRoot (unityRoot (2 ^ m)) (2 ^ m) :=
  isPrimitiveRoot_exp _ (Nat.two_pow_pos m).ne'

theorem star_unityRoot (n : ℕ) : star (unityRoot n) = (unityRoot n)⁻¹ := by
  rw [unityRoot, ← exp_neg]
  refine (exp_conj _).symm.trans (congrArg exp ?_)
  simp [neg_div, map_ofNat]

theorem tableOf_fftInit (old : ℕ → ℂ) {n m : ℕ} (inTable : m ≤ ilog2 n) :
    TableOf (unityRoot (2 ^ m)) m (fftInit cosSin old n).u := by
  intro s less i hi
  rw [fftInit_u cosSin old n s (less.trans_le inTable) i hi, cosSin_two_pow less]

theorem dft_directed {is : ℤ} (sign : is = 1 ∨ is = -1) (n : ℕ) (x : ℕ → ℂ) (k : ℕ) :
    dft (directed is (unityRoot n)) n x k =
      ∑ l ∈ Finset.range n, x l * exp (2 * Real.pi * I / n) ^ (is * k * l) := by
  rw [← unityRoot]
  refine Finset.sum_congr rfl fun l _ => congrArg (x l * ·) ?_
  rcases sign with rfl | rfl
  · rw [directed, if_pos (by decide), one_mul, ← Nat.cast_mul, zpow_natCast]
  · rw [directed, if_neg (by decide), star_unityRoot, neg_one_mul, neg_mul, ← Nat.cast_mul,
      zpow_neg, zpow_natCast, inv_pow]

/-- `cfftz` is the transform of every column of the block in both directions, and one direction
behind the other multiplies by the number of entries. -/
theorem cfftz_transforms (old : ℕ → ℂ) (n m ny : ℕ) (some_ : 1 ≤ m) (inTable : m ≤ ilog2 n) :
    (∀ is : ℤ, is = 1 ∨ is = -1 → ∀ x y, ∃ x' y',
      cfftz is m (2 ^ m) ny (fftInit cosSin old n) x y = some (x', y') ∧
      (∀ j ∈ List.range' 1 ny, ∀ k < 2 ^ m, x' (j, k + 1) =
        ∑ l ∈ Finset.range (2 ^ m),
          x (j, l + 1) * exp (2 * Real.pi * I / (2 ^ m : ℕ)) ^ (is * k * l)) ∧
      ∀ q, ¬ InBlock (2 ^ m) ny q → x' q = x q) ∧
    ∀ x y y₂, ∃ x₁ y₁ x₂ y₃,
      cfftz 1 m (2 ^ m) ny (fftInit cosSin old n) x y = some (x₁, y₁) ∧
      cfftz (-1) m (2 ^ m) ny (fftInit cosSin old n) x₁ y₂ = some (x₂, y₃) ∧
      ∀ j ∈ List.range' 1 ny, ∀ k < 2 ^ m, x₂ (j, k + 1) = 2 ^ m * x (j, k + 1) := by
  have run {is : ℤ} (sign : is = 1 ∨ is = -1) :=
    @cfftz_spec ℂ _ _ is m ny (unityRoot (2 ^ m)) (fftInit cosSin old n) sign some_ inTable
      (tableOf_fftInit old inTable) (unityRoot_half some_)
  constructor
  · intro is sign x y
    obtain ⟨x', y', ran, columns, outside⟩ := run sign x y
    refine ⟨x', y', ran, fun j hj k hk => ?_, outside⟩
    rw [columns j hj k hk, dft_directed sign]
  · intro x y y₂
    obtain ⟨x₁, y₁, ran, columns, _⟩ := run (.inl rfl) x y
    obtain ⟨x₂, y₃, ran', columns', _⟩ := run (.inr rfl) x₁ y₂
    refine ⟨x₁, y₁, x₂, y₃, ran, ran', fun j hj k hk => ?_⟩
    have inverse : unityRoot (2 ^ m) * star (unityRoot (2 ^ m)) = 1 := by
      rw [star_unityRoot]
      exact mul_inv_cancel₀ (exp_ne_zero _)
    have twice := dft_dft (primitive_unityRoot m) inverse (fun p => x (j, p + 1)) hk
    rw [columns' j hj k hk, directed, if_neg (by decide)]
    rw [Nat.cast_pow, Nat.cast_ofNat] at twice
    rw [← twice]
    refine Finset.sum_congr rfl fun l member => ?_
    dsimp only
    rw [columns j hj l (Finset.mem_range.mp member), directed, if_pos (by decide)]

theorem cfftz_transforms_eight : ∃ x' y',
    cfftz (-1) 3 (2 ^ 3) 2 (fftInit cosSin (fun _ => 0) (2 ^ 3)) (fun q => (q.1 * q.2 : ℕ))
      (fun _ => 5) = some (x', y') ∧
    ∀ j ∈ List.range' 1 2, ∀ k < 2 ^ 3, x' (j, k + 1) = ∑ l ∈ Finset.range (2 ^ 3),
      ((j * (l + 1) : ℕ) : ℂ) * exp (2 * Real.pi * I / (2 ^ 3 : ℕ)) ^ (-1 * (k : ℤ) * l) := by
  obtain ⟨x', y', ran, columns, _⟩ := (cfftz_transforms (fun _ => 0) (2 ^ 3) 3 2 (by decide)
    (ilog2_two_pow 3).ge).1 (-1) (.inr rfl) (fun q => (q.1 * q.2 : ℕ)) (fun _ => 5)
  exact ⟨x', y', ran, columns⟩

end Complex

end Baseliner.FtFft
