import Mathlib.Data.Nat.ModEq
import Mathlib.Tactic.Ring
import Baseliner.SharedWrites

/-! The generator `x ← a x mod 2^46` of the NAS kernels and the seeds that let
threads, batches and planes start in the middle of its sequence. IS, EP, FT and
MG each raise the multiplier to a power with a loop of their own. -/

namespace Baseliner.NpbStreams

open SharedWrites

def T46 : Nat := 2 ^ 46

def T23 : Nat := 2 ^ 23

theorem T46_pos : 0 < T46 := by decide

/-- `randlc` of IS and of `randdp`, which splits both factors at 23 bits. -/
def randlcSplit (x a : Nat) : Nat :=
  let a1 := a / T23
  let a2 := a - T23 * a1
  let x1 := x / T23
  let x2 := x - T23 * x1
  let t1 := a1 * x2 + a2 * x1
  let t2 := t1 / T23
  let z := t1 - T23 * t2
  let t3 := T23 * z + a2 * x2
  let t4 := t3 / T46
  t3 - T46 * t4

/-- `randlc` of `randi8`: a product in 64 bits, of which 46 are kept. -/
def randi8 (x a : Nat) : Nat :=
  (UInt64.ofNat x * UInt64.ofNat a &&& 0x00003FFFFFFFFFFF).toNat

theorem sub_mul_div (n m : Nat) : n - m * (n / m) = n % m := by
  have split := Nat.div_add_mod n m
  omega

theorem randlcSplit_eq (x a : Nat) : randlcSplit x a = x * a % T46 := by
  have splitA := Nat.div_add_mod a T23
  have splitX := Nat.div_add_mod x T23
  simp only [randlcSplit, sub_mul_div]
  generalize a / T23 = a1 at *
  generalize a % T23 = a2 at *
  generalize x / T23 = x1 at *
  generalize x % T23 = x2 at *
  have square : T46 = T23 * T23 := by decide
  have product : x * a = T46 * (x1 * a1) + (T23 * (a1 * x2 + a2 * x1) + a2 * x2) := by
    rw [← splitA, ← splitX, square]
    ring
  have middle : T23 * ((a1 * x2 + a2 * x1) % T23) ≡ T23 * (a1 * x2 + a2 * x1) [MOD T46] := by
    rw [square]
    exact Nat.ModEq.mul_left' T23 (Nat.mod_modEq _ _)
  rw [product, Nat.mul_add_mod]
  exact middle.add_right _

theorem randi8_eq (x a : Nat) : randi8 x a = x * a % T46 := by
  have mask : (0x00003FFFFFFFFFFF : UInt64).toNat = 2 ^ 46 - 1 := by decide
  have divides : 2 ^ 46 ∣ 2 ^ 64 := Nat.pow_dvd_pow 2 (by decide)
  rw [randi8, UInt64.toNat_and, mask, Nat.and_two_pow_sub_one_eq_mod, UInt64.toNat_mul,
    UInt64.toNat_ofNat', UInt64.toNat_ofNat', Nat.mod_mod_of_dvd _ divides, Nat.mul_mod,
    Nat.mod_mod_of_dvd _ divides, Nat.mod_mod_of_dvd _ divides, ← Nat.mul_mod]
  rfl

/-- A `randlc` that a kernel is linked with. -/
structure Generator where
  randlc : Nat → Nat → Nat
  exact_ : ∀ x a, randlc x a = x * a % T46

def Generator.split : Generator := ⟨randlcSplit, randlcSplit_eq⟩

def Generator.int8 : Generator := ⟨randi8, randi8_eq⟩

variable (g : Generator)

def vranlc (a : Nat) : Nat → Nat → List Nat × Nat
  | 0, x => ([], x)
  | n + 1, x =>
      let x := g.randlc x a
      let (ys, last) := vranlc a n x
      (x :: ys, last)

/-- The loop that IS and FT share: `kk` even squares the multiplier, odd multiplies
it in, and the last factor is multiplied in behind the loop. -/
def squareMultiply (t1 t2 kk : Nat) : Nat :=
  if 1 < kk then
    if 2 * (kk / 2) = kk then squareMultiply t1 (g.randlc t2 t2) (kk / 2)
    else squareMultiply (g.randlc t1 t2) t2 (kk - 1)
  else g.randlc t1 t2
termination_by kk

def findMySeed (kn np nn s a : Nat) : Nat :=
  if kn = 0 then s
  else
    let mq := (nn / 4 + np - 1) / np
    let nq := mq * 4 * kn
    squareMultiply g s a nq

def ipow46 (a exponent : Nat) : Nat :=
  if exponent = 0 then 1 else squareMultiply g 1 a exponent

def powerLoop (power aj nj : Nat) : Nat :=
  if nj = 0 then power
  else powerLoop (if nj % 2 = 1 then g.randlc power aj else power) (g.randlc aj aj) (nj / 2)
termination_by nj

def power (a n : Nat) : Nat := powerLoop g 1 a n

/-- Exponents of EP: `2^MK` pairs in a batch. -/
def MK : Nat := 16
def NK : Nat := 2 ^ MK

/-- `a^(2 nk)` as EP squares it up. -/
def epMultiplier (a : Nat) : Nat := (fun t1 => g.randlc t1 t1)^[MK + 1] a

def epSeedLoop : Nat → Nat → Nat → Nat → Nat
  | 0, t1, _, _ => t1
  | i + 1, t1, t2, kk =>
      let ik := kk / 2
      let t1 := if 2 * ik ≠ kk then g.randlc t1 t2 else t1
      if ik = 0 then t1 else epSeedLoop i t1 (g.randlc t2 t2) ik

def epSeed (s a kk : Nat) : Nat := epSeedLoop g 100 s (epMultiplier g a) kk

/-! Arrays filled from the sequence. -/

/-- The loop of `create_seq` from key `i` on, `n` keys from seed `s`: each key is
four numbers scaled to `k` and truncated. -/
def createKeys (a k : Nat) : Nat → Nat → Nat → List (Nat × Nat)
  | 0, _, _ => []
  | n + 1, i, s =>
      let (xs, s) := vranlc g a 4 s
      (i, k * xs.sum / T46) :: createKeys a k n (i + 1) s

def createSeq (numKeys maxKey seed a numProcs myid : Nat) : List (Nat × Nat) :=
  let mq := (numKeys + numProcs - 1) / numProcs
  let k1 := mq * myid
  let k2 := min (k1 + mq) numKeys
  let s := findMySeed g myid numProcs (4 * numKeys) seed a
  createKeys g a (maxKey / 4) (k2 - k1) k1 s

def rowWrites (k j : Nat) (ys : List Nat) : List ((Nat × Nat × Nat) × Nat) :=
  ys.zipIdx.map fun (y, i) => ((k, j, i), y)

def drawRows (a width k : Nat) : Nat → Nat → Nat → List ((Nat × Nat × Nat) × Nat) × Nat
  | 0, _, x => ([], x)
  | n + 1, j, x =>
      let (ys, x) := vranlc g a width x
      let (rest, last) := drawRows a width k n (j + 1) x
      (rowWrites k j ys ++ rest, last)

def drawPlanes (a width rows : Nat) : Nat → Nat → Nat → List ((Nat × Nat × Nat) × Nat)
  | 0, _, _ => []
  | n + 1, k, x =>
      let (plane, x) := drawRows g a width k rows 0 x
      plane ++ drawPlanes a width rows n (k + 1) x

def starts (an : Nat) : Nat → Nat → List Nat
  | 0, _ => []
  | n + 1, start => start :: starts an n (g.randlc start an)

def computeInitialConditions (nx ny nz seed a : Nat) : List (List ((Nat × Nat × Nat) × Nat)) :=
  let start := g.randlc seed (ipow46 g a 0)
  let an := ipow46 g a (2 * nx * ny)
  (starts g an nz start).zipIdx.map fun (x0, k) => (drawRows g a (2 * nx) k ny 0 x0).1

def zranRows (a a1 d1 k : Nat) : Nat → Nat → Nat → List ((Nat × Nat × Nat) × Nat)
  | 0, _, _ => []
  | n + 1, j, x1 =>
      rowWrites k j (vranlc g a d1 x1).1 ++ zranRows a a1 d1 k n (j + 1) (g.randlc x1 a1)

/-- The random grid of `zran3` in MG, whose grid runs from 2 to `1 + n` in every
direction: the writes of each plane. -/
def zran3 (nx ny nz seed a : Nat) : List (List ((Nat × Nat × Nat) × Nat)) :=
  let (is1, is2, is3) := (2, 2, 2)
  let (ie1, ie2, ie3) := (1 + nx, 1 + ny, 1 + nz)
  let a1 := power g a nx
  let a2 := power g a (nx * ny)
  let ai := power g a (is1 - 2 + nx * (is2 - 2 + ny * (is3 - 2)))
  let d1 := ie1 + 1 - is1
  let e2 := ie2 + 2 - is2
  let e3 := ie3 + 2 - is3
  let x0 := g.randlc seed ai
  (starts g a2 (e3 - 1) x0).zipIdx.map fun (x1, k) => zranRows g a a1 d1 k (e2 - 1) 0 x1

section Powers

variable {g}

theorem mul_mod_pow_mod (x y n m : Nat) : x * (y % m) ^ n % m = x * y ^ n % m := by
  rw [Nat.mul_mod, Nat.pow_mod, Nat.mod_mod, ← Nat.pow_mod, ← Nat.mul_mod]

theorem mod_mul_pow_mod (x y n m : Nat) : x % m * y ^ n % m = x * y ^ n % m := by
  rw [Nat.mul_mod, Nat.mod_mod, ← Nat.mul_mod]

theorem squareMultiply_eq (t1 t2 kk : Nat) (positive : 0 < kk) :
    squareMultiply g t1 t2 kk = t1 * t2 ^ kk % T46 := by
  fun_induction squareMultiply g t1 t2 kk with
  | case1 t1 t2 kk more even ih =>
      have half : t2 ^ kk = (t2 * t2) ^ (kk / 2) := by
        rw [← pow_two, ← pow_mul, even]
      rw [ih (by omega), g.exact_, mul_mod_pow_mod, half]
  | case2 t1 t2 kk more odd ih =>
      have one : t1 * t2 ^ kk = t1 * t2 * t2 ^ (kk - 1) := by
        rw [mul_assoc, ← pow_succ', Nat.sub_add_cancel (by omega)]
      rw [ih (by omega), g.exact_, mod_mul_pow_mod, one]
  | case3 t1 t2 kk last =>
      have one : kk = 1 := by omega
      rw [g.exact_, one, pow_one]

theorem digit_mod (t1 t2 kk : Nat) :
    (if kk % 2 = 1 then g.randlc t1 t2 else t1) * g.randlc t2 t2 ^ (kk / 2) % T46 =
      t1 * t2 ^ kk % T46 := by
  have split := Nat.div_add_mod kk 2
  rw [g.exact_ t2, mul_mod_pow_mod]
  by_cases odd : kk % 2 = 1
  · have whole : t1 * t2 ^ kk = t1 * t2 * (t2 * t2) ^ (kk / 2) := by
      rw [← pow_two, ← pow_mul, mul_assoc, ← pow_succ', ← odd, split]
    rw [if_pos odd, g.exact_, mod_mul_pow_mod, whole]
  · have whole : t2 ^ kk = (t2 * t2) ^ (kk / 2) := by
      rw [← pow_two, ← pow_mul]
      congr 1
      omega
    rw [if_neg odd, whole]

theorem randlc_lt (x a : Nat) : g.randlc x a < T46 := by
  rw [g.exact_]
  exact Nat.mod_lt _ T46_pos

theorem digit_lt {t1 : Nat} (small : t1 < T46) (t2 kk : Nat) :
    (if kk % 2 = 1 then g.randlc t1 t2 else t1) < T46 := by
  split_ifs
  · exact randlc_lt t1 t2
  · exact small

theorem powerLoop_eq (p aj nj : Nat) (small : p < T46) :
    powerLoop g p aj nj = p * aj ^ nj % T46 := by
  fun_induction powerLoop g p aj nj with
  | case1 p aj => simp [Nat.mod_eq_of_lt small]
  | case2 p aj nj more ih =>
      have digit := digit_mod (g := g) p aj nj
      rw [dite_eq_ite] at *
      rw [ih (digit_lt small aj nj), digit]

theorem epSeedLoop_eq (rounds t1 t2 kk : Nat) (small : t1 < T46) (enough : kk < 2 ^ rounds) :
    epSeedLoop g rounds t1 t2 kk = t1 * t2 ^ kk % T46 := by
  induction rounds generalizing t1 t2 kk with
  | zero =>
      have zero : kk = 0 := by omega
      simp [epSeedLoop, zero, Nat.mod_eq_of_lt small]
  | succ rounds ih =>
      have odd : 2 * (kk / 2) ≠ kk ↔ kk % 2 = 1 := by omega
      have digit := digit_mod (g := g) t1 t2 kk
      have bound := digit_lt (g := g) small t2 kk
      simp only [epSeedLoop, odd]
      by_cases last : kk / 2 = 0
      · rw [last, pow_zero, mul_one, Nat.mod_eq_of_lt bound] at digit
        rw [if_pos last, digit]
      · rw [pow_succ] at enough
        rw [if_neg last, ih _ _ _ bound (by omega), digit]

theorem epMultiplier_mod (a : Nat) (rounds : Nat) :
    (fun t1 => g.randlc t1 t1)^[rounds] a % T46 = a ^ 2 ^ rounds % T46 := by
  induction rounds with
  | zero => simp
  | succ rounds ih =>
      rw [Function.iterate_succ_apply', g.exact_, Nat.mod_mod, Nat.mul_mod, ih, ← Nat.mul_mod,
        ← pow_two, ← pow_mul, ← pow_succ]

theorem findMySeed_eq {kn np nn s a : Nat} (some : 1 ≤ np) (numbers : 4 ≤ nn) (seed : s < T46) :
    findMySeed g kn np nn s a = s * a ^ ((nn / 4 + np - 1) / np * 4 * kn) % T46 := by
  rw [findMySeed]
  by_cases first : kn = 0
  · simp [first, Nat.mod_eq_of_lt seed]
  · have share : 0 < (nn / 4 + np - 1) / np := Nat.div_pos (by omega) some
    rw [if_neg first, squareMultiply_eq]
    exact Nat.mul_pos (Nat.mul_pos share (by decide)) (Nat.pos_of_ne_zero first)

theorem epSeed_eq {s a kk : Nat} (seed : s < T46) (word : kk < 2 ^ 32) :
    epSeed g s a kk = s * a ^ (2 * NK * kk) % T46 := by
  have rounds : kk < 2 ^ 100 := word.trans_le (Nat.pow_le_pow_right (by decide) (by decide))
  have exponent : 2 ^ (MK + 1) = 2 * NK := by rw [NK, pow_succ, mul_comm]
  rw [epSeed, epSeedLoop_eq 100 s _ kk seed rounds, ← mul_mod_pow_mod, epMultiplier,
    epMultiplier_mod, mul_mod_pow_mod, ← pow_mul, exponent]

theorem ipow46_eq (a e : Nat) : ipow46 g a e = a ^ e % T46 := by
  rw [ipow46]
  by_cases zero : e = 0
  · simp [zero, T46]
  · rw [if_neg zero, squareMultiply_eq _ _ _ (Nat.pos_of_ne_zero zero), one_mul]

theorem power_eq (a e : Nat) : power g a e = a ^ e % T46 := by
  rw [power, powerLoop_eq 1 a e (by decide), one_mul]

theorem randlc_pow (s a e : Nat) : g.randlc s (a ^ e % T46) = s * a ^ e % T46 := by
  rw [g.exact_, Nat.mul_mod_mod]

theorem vranlc_eq (a n x : Nat) (small : x < T46) :
    vranlc g a n x = ((List.range n).map fun i => x * a ^ (i + 1) % T46, x * a ^ n % T46) := by
  induction n generalizing x with
  | zero => simp [vranlc, Nat.mod_eq_of_lt small]
  | succ n ih =>
      have next (i : Nat) : x * a % T46 * a ^ i % T46 = x * a ^ (i + 1) % T46 := by
        rw [mod_mul_pow_mod, mul_assoc, ← pow_succ']
      have tail := ih (x * a % T46) (Nat.mod_lt _ T46_pos)
      simp only [next] at tail
      simp [vranlc, g.exact_, tail, List.range_succ_eq_map, Function.comp_def]

end Powers

section Keys

variable {g}

/-- The key made of numbers `4 i + 1` to `4 i + 4` of the sequence. -/
def keyAt (a k s i : Nat) : Nat :=
  k * ((List.range 4).map fun j => s * a ^ (4 * i + j + 1) % T46).sum / T46

theorem seed_add (s a m n : Nat) : s * a ^ m % T46 * a ^ n % T46 = s * a ^ (m + n) % T46 := by
  rw [mod_mul_pow_mod, mul_assoc, ← pow_add]

theorem createKeys_eq (a k s n i : Nat) :
    createKeys g a k n i (s * a ^ (4 * i) % T46) =
      (List.range' i n).map fun i => (i, keyAt a k s i) := by
  induction n generalizing i with
  | zero => rfl
  | succ n ih =>
      have four := vranlc_eq (g := g) a 4 (s * a ^ (4 * i) % T46) (Nat.mod_lt _ T46_pos)
      simp only [seed_add] at four
      have next : 4 * i + 4 = 4 * (i + 1) := by omega
      rw [createKeys, four]
      dsimp only
      rw [next, ih, List.range'_succ, List.map_cons]
      simp only [keyAt, Nat.add_assoc]

theorem createSeq_eq {numKeys maxKey seed a numProcs myid : Nat} (threads : 1 ≤ numProcs)
    (small : seed < T46) :
    createSeq g numKeys maxKey seed a numProcs myid =
      let mq := (numKeys + numProcs - 1) / numProcs
      (List.range' (mq * myid) (min (mq * myid + mq) numKeys - mq * myid)).map fun i =>
        (i, keyAt a (maxKey / 4) seed i) := by
  dsimp only [createSeq]
  by_cases none : numKeys = 0
  · simp [none, createKeys]
  · have skipped := @findMySeed_eq g myid numProcs (4 * numKeys) seed a threads
      (by omega) small
    have quarter : 4 * numKeys / 4 = numKeys := Nat.mul_div_cancel_left _ (by decide)
    rw [quarter, Nat.mul_right_comm, Nat.mul_comm _ 4] at skipped
    rw [skipped, createKeys_eq]

theorem mem_createSeq {numKeys maxKey seed a numProcs i : Nat} (threads : 1 ≤ numProcs)
    (small : seed < T46) :
    (∃ t ∈ (List.range numProcs).map (createSeq g numKeys maxKey seed a numProcs),
      i ∈ t.map Prod.fst) ↔ i < numKeys := by
  simp only [List.mem_map, List.mem_range, exists_exists_and_eq_and, createSeq_eq threads small,
    List.mem_range'_1]
  generalize share : (numKeys + numProcs - 1) / numProcs = mq
  have covers : numKeys ≤ mq * numProcs := by
    have split := Nat.div_add_mod (numKeys + numProcs - 1) numProcs
    have rest := Nat.mod_lt (numKeys + numProcs - 1) threads
    rw [share, Nat.mul_comm] at split
    omega
  constructor
  · rintro ⟨myid, -, key, ⟨low, high⟩, rfl⟩
    omega
  · intro inside
    have positive : 0 < mq := Nat.pos_of_ne_zero (by rintro rfl; omega)
    have split := Nat.div_add_mod i mq
    have rest := Nat.mod_lt i positive
    exact ⟨i / mq, Nat.div_lt_of_lt_mul (inside.trans_le covers), i, ⟨by omega, by omega⟩, rfl⟩

theorem fills_createKeys (a k s n : Nat) (small : s < T46) :
    Fills (keyAt a k s) (· < n) (createKeys g a k n 0 s) := by
  have ordered := createKeys_eq (g := g) a k s n 0
  rw [Nat.mul_zero, pow_zero, mul_one, Nat.mod_eq_of_lt small] at ordered
  rw [ordered]
  constructor
  · intro w hw
    obtain ⟨i, -, rfl⟩ := List.mem_map.mp hw
    rfl
  · intro i
    simp [← List.range_eq_range']

theorem fills_createSeq {numKeys maxKey seed a numProcs : Nat} (threads : 1 ≤ numProcs)
    (small : seed < T46) {writes : List (Nat × Nat)}
    (order : writes.Perm
      ((List.range numProcs).map (createSeq g numKeys maxKey seed a numProcs)).flatten) :
    Fills (keyAt a (maxKey / 4) seed) (· < numKeys) writes := by
  refine Fills.interleaved ?_ (fun i => mem_createSeq threads small) order
  intro t ht w hw
  obtain ⟨myid, -, rfl⟩ := List.mem_map.mp ht
  rw [createSeq_eq threads small] at hw
  obtain ⟨i, -, rfl⟩ := List.mem_map.mp hw
  rfl

end Keys

section Grids

variable {g}

def cell (a width rows s : Nat) (index : Nat × Nat × Nat) : Nat :=
  s * a ^ ((index.1 * rows + index.2.1) * width + index.2.2 + 1) % T46

def rowSeed (a width rows s k j : Nat) : Nat := s * a ^ ((k * rows + j) * width) % T46

variable {a width rows s : Nat}

theorem rowSeed_lt (k j : Nat) : rowSeed a width rows s k j < T46 := Nat.mod_lt _ T46_pos

theorem vranlc_rowSeed (k j : Nat) :
    vranlc g a width (rowSeed a width rows s k j) =
      ((List.range width).map fun i => cell a width rows s (k, j, i),
        rowSeed a width rows s k (j + 1)) := by
  have next : (k * rows + j) * width + width = (k * rows + (j + 1)) * width := by ring
  rw [vranlc_eq _ _ _ (rowSeed_lt k j)]
  simp only [rowSeed, seed_add, next, cell, Nat.add_assoc]

theorem fills_rowWrites (k j : Nat) :
    Fills (cell a width rows s) (fun c => c.1 = k ∧ c.2.1 = j ∧ c.2.2 < width)
      (rowWrites k j ((List.range width).map fun i => cell a width rows s (k, j, i))) := by
  have row : rowWrites k j ((List.range width).map fun i => cell a width rows s (k, j, i)) =
      (List.range width).map fun i => ((k, j, i), cell a width rows s (k, j, i)) := by
    apply List.ext_getElem
    · simp [rowWrites]
    · intro n h1 h2
      simp [rowWrites]
  rw [row]
  constructor
  · intro w hw
    obtain ⟨i, -, rfl⟩ := List.mem_map.mp hw
    rfl
  · rintro ⟨x, y, z⟩
    simp only [List.map_map, Function.comp_def, List.mem_map, List.mem_range, Prod.mk.injEq]
    constructor
    · rintro ⟨i, hi, rfl, rfl, rfl⟩
      exact ⟨rfl, rfl, hi⟩
    · rintro ⟨rfl, rfl, hz⟩
      exact ⟨z, hz, rfl, rfl, rfl⟩

theorem fills_drawRows (k n j : Nat) :
    Fills (cell a width rows s) (fun c => c.1 = k ∧ j ≤ c.2.1 ∧ c.2.1 < j + n ∧ c.2.2 < width)
        (drawRows g a width k n j (rowSeed a width rows s k j)).1 ∧
      (drawRows g a width k n j (rowSeed a width rows s k j)).2 =
        rowSeed a width rows s k (j + n) := by
  induction n generalizing j with
  | zero => exact ⟨(Fills.nil _).congr (by intro c; simp; omega), rfl⟩
  | succ n ih =>
      obtain ⟨filled, last⟩ := ih (j + 1)
      simp only [drawRows, vranlc_rowSeed]
      refine ⟨((fills_rowWrites k j).append filled).congr ?_, ?_⟩
      · intro c
        omega
      · rw [last]
        congr 1
        omega

theorem fills_zranRows (k n j : Nat) :
    Fills (cell a width rows s) (fun c => c.1 = k ∧ j ≤ c.2.1 ∧ c.2.1 < j + n ∧ c.2.2 < width)
      (zranRows g a (power g a width) width k n j (rowSeed a width rows s k j)) := by
  induction n generalizing j with
  | zero => exact (Fills.nil _).congr (by intro c; simp; omega)
  | succ n ih =>
      have next : g.randlc (rowSeed a width rows s k j) (power g a width) =
          rowSeed a width rows s k (j + 1) := by
        have exponent : (k * rows + j) * width + width = (k * rows + (j + 1)) * width := by ring
        rw [power_eq, randlc_pow, rowSeed, seed_add, exponent, rowSeed]
      rw [zranRows, vranlc_rowSeed, next]
      refine ((fills_rowWrites k j).append (ih (j + 1))).congr ?_
      intro c
      omega

theorem fills_drawPlanes (n k : Nat) :
    Fills (cell a width rows s)
      (fun c => k ≤ c.1 ∧ c.1 < k + n ∧ c.2.1 < rows ∧ c.2.2 < width)
      (drawPlanes g a width rows n k (rowSeed a width rows s k 0)) := by
  induction n generalizing k with
  | zero => exact (Fills.nil _).congr (by intro c; simp; omega)
  | succ n ih =>
      obtain ⟨filled, last⟩ := @fills_drawRows g a width rows s k rows 0
      have next : rowSeed a width rows s k (0 + rows) = rowSeed a width rows s (k + 1) 0 := by
        have exponent : (k * rows + (0 + rows)) * width = ((k + 1) * rows + 0) * width := by ring
        rw [rowSeed, exponent, rowSeed]
      simp only [drawPlanes, last, next]
      refine (filled.append (ih (k + 1))).congr ?_
      intro c
      omega

theorem starts_eq (n k : Nat) :
    starts g (a ^ (width * rows) % T46) n (rowSeed a width rows s k 0) =
      (List.range' k n).map fun k => rowSeed a width rows s k 0 := by
  induction n generalizing k with
  | zero => rfl
  | succ n ih =>
      have next : g.randlc (rowSeed a width rows s k 0) (a ^ (width * rows) % T46) =
          rowSeed a width rows s (k + 1) 0 := by
        have exponent : (k * rows + 0) * width + width * rows = ((k + 1) * rows + 0) * width := by
          ring
        rw [randlc_pow, rowSeed, seed_add, exponent, rowSeed]
      rw [starts, next, ih, List.range'_succ, List.map_cons]

/-- Planes that are filled each from its own start, in any interleaving. -/
theorem fills_planes {n : Nat} (plane : Nat → Nat → List ((Nat × Nat × Nat) × Nat))
    (filled : ∀ k, Fills (cell a width rows s) (fun c => c.1 = k ∧ c.2.1 < rows ∧ c.2.2 < width)
      (plane (rowSeed a width rows s k 0) k))
    (small : s < T46) {writes : List ((Nat × Nat × Nat) × Nat)}
    (order : writes.Perm
      ((starts g (a ^ (width * rows) % T46) n s).zipIdx.map fun (x, k) => plane x k).flatten) :
    Fills (cell a width rows s) (fun c => c.1 < n ∧ c.2.1 < rows ∧ c.2.2 < width) writes := by
  have first : rowSeed a width rows s 0 0 = s := by
    simp [rowSeed, Nat.mod_eq_of_lt small]
  have planes : ((starts g (a ^ (width * rows) % T46) n s).zipIdx.map fun (x, k) => plane x k) =
      (List.range n).map fun k => plane (rowSeed a width rows s k 0) k := by
    have seeds := @starts_eq g a width rows s n 0
    rw [first, ← List.range_eq_range'] at seeds
    rw [seeds]
    apply List.ext_getElem
    · simp
    · intro k h1 h2
      simp
  rw [planes] at order
  refine Fills.interleaved ?_ ?_ order
  · intro t ht
    obtain ⟨k, -, rfl⟩ := List.mem_map.mp ht
    exact (filled k).agree
  · intro c
    simp only [List.mem_map, List.mem_range, exists_exists_and_eq_and]
    constructor
    · rintro ⟨k, hk, w, hw, rfl⟩
      have here := ((filled k).covers w.1).mp (List.mem_map_of_mem hw)
      exact ⟨here.1 ▸ hk, here.2⟩
    · rintro ⟨hk, here⟩
      obtain ⟨w, hw, same⟩ := List.mem_map.mp (((filled c.1).covers c).mpr ⟨rfl, here⟩)
      exact ⟨c.1, hk, w, hw, same⟩

theorem fills_computeInitialConditions {nx ny nz seed a : Nat} (small : seed < T46)
    {writes : List ((Nat × Nat × Nat) × Nat)}
    (order : writes.Perm (computeInitialConditions g nx ny nz seed a).flatten) :
    Fills (cell a (2 * nx) ny seed) (fun c => c.1 < nz ∧ c.2.1 < ny ∧ c.2.2 < 2 * nx) writes := by
  have start : g.randlc seed (ipow46 g a 0) = seed := by
    rw [ipow46_eq, randlc_pow, pow_zero, mul_one, Nat.mod_eq_of_lt small]
  rw [computeInitialConditions, start, ipow46_eq] at order
  refine fills_planes (fun x k => (drawRows g a (2 * nx) k ny 0 x).1) ?_ small order
  intro k
  refine (fills_drawRows k ny 0).1.congr ?_
  intro c
  omega

theorem fills_zran3 {nx ny nz seed a : Nat} (small : seed < T46)
    {writes : List ((Nat × Nat × Nat) × Nat)}
    (order : writes.Perm (zran3 g nx ny nz seed a).flatten) :
    Fills (cell a nx ny seed) (fun c => c.1 < nz ∧ c.2.1 < ny ∧ c.2.2 < nx) writes := by
  have d1 : 1 + nx + 1 - 2 = nx := by omega
  have e2 : 1 + ny + 2 - 2 - 1 = ny := by omega
  have e3 : 1 + nz + 2 - 2 - 1 = nz := by omega
  have start : g.randlc seed (power g a (2 - 2 + nx * (2 - 2 + ny * (2 - 2)))) = seed := by
    rw [power_eq, randlc_pow]
    simp [Nat.mod_eq_of_lt small]
  simp only [zran3, d1, e2, e3, start] at order
  rw [power_eq a (nx * ny)] at order
  refine fills_planes (fun x k => zranRows g a (power g a nx) nx k ny 0 x) ?_ small order
  intro k
  refine (fills_zranRows k ny 0).congr ?_
  intro c
  omega

end Grids

/-- Jump-ahead seeds are the seeds of the one sequence, and the arrays that threads
fill from them are those that one thread fills in order. -/
theorem jump_ahead_is_sequential (g : Generator) :
    (∀ s a, s < T46 → a < T46 →
      (∀ kn np nn, 1 ≤ np → kn < np → 4 ≤ nn →
        findMySeed g kn np nn s a = s * a ^ ((nn / 4 + np - 1) / np * 4 * kn) % T46) ∧
      (∀ kk, kk < 2 ^ 32 → epSeed g s a kk = s * a ^ (2 * NK * kk) % T46) ∧
      (∀ e, e < 2 ^ 32 → g.randlc s (ipow46 g a e) = s * a ^ e % T46) ∧
      (∀ e, e < 2 ^ 32 → g.randlc s (power g a e) = s * a ^ e % T46) ∧
      (∀ numKeys maxKey numProcs writes mem, 1 ≤ numProcs →
        writes.Perm ((List.range numProcs).map
          (createSeq g numKeys maxKey s a numProcs)).flatten →
        applyWrites mem writes = applyWrites mem (createKeys g a (maxKey / 4) numKeys 0 s)) ∧
      (∀ nx ny nz writes mem,
        writes.Perm (computeInitialConditions g nx ny nz s a).flatten →
        applyWrites mem writes = applyWrites mem (drawPlanes g a (2 * nx) ny nz 0 s)) ∧
      (∀ nx ny nz writes mem, writes.Perm (zran3 g nx ny nz s a).flatten →
        applyWrites mem writes = applyWrites mem (drawPlanes g a nx ny nz 0 s))) := by
  intro s a seed _
  have ordered (width rows n : Nat) : Fills (cell a width rows s)
      (fun c => c.1 < n ∧ c.2.1 < rows ∧ c.2.2 < width) (drawPlanes g a width rows n 0 s) := by
    have all := @fills_drawPlanes g a width rows s n 0
    have first : rowSeed a width rows s 0 0 = s := by
      simp [rowSeed, Nat.mod_eq_of_lt seed]
    rw [first] at all
    exact all.congr (by intro c; omega)
  refine ⟨?_, ?_, ?_, ?_, ?_, ?_, ?_⟩
  · intro kn np nn threads _ numbers
    exact findMySeed_eq threads numbers seed
  · intro kk word
    exact epSeed_eq seed word
  · intro e _
    rw [ipow46_eq, randlc_pow]
  · intro e _
    rw [power_eq, randlc_pow]
  · intro numKeys maxKey numProcs writes mem threads order
    exact (fills_createSeq threads seed order).applyWrites_eq
      (fills_createKeys a (maxKey / 4) s numKeys seed) mem
  · intro nx ny nz writes mem order
    exact (fills_computeInitialConditions seed order).applyWrites_eq (ordered (2 * nx) ny nz) mem
  · intro nx ny nz writes mem order
    exact (fills_zran3 seed order).applyWrites_eq (ordered nx ny nz) mem

theorem jump_ahead_three_threads :
    let g := Generator.split
    let s := 314159265
    let a := 1220703125
    findMySeed g 2 3 20 s a = s * a ^ 16 % T46 ∧
    epSeed g s a 5 = s * a ^ (2 * NK * 5) % T46 ∧
    g.randlc s (ipow46 g a 0) = s * a ^ 0 % T46 ∧ g.randlc s (power g a 7) = s * a ^ 7 % T46 ∧
    applyWrites (fun _ => 0) ((List.range 3).map (createSeq g 5 2048 s a 3)).flatten =
      applyWrites (fun _ => 0) (createKeys g a (2048 / 4) 5 0 s) ∧
    applyWrites (fun _ => 0) (computeInitialConditions g 2 3 2 s a).reverse.flatten =
      applyWrites (fun _ => 0) (drawPlanes g a (2 * 2) 3 2 0 s) ∧
    applyWrites (fun _ => 0) (zran3 g 2 3 2 s a).reverse.flatten =
      applyWrites (fun _ => 0) (drawPlanes g a 2 3 2 0 s) := by
  intro g s a
  obtain ⟨seed, batch, ft, mg, keys, field, grid⟩ :=
    jump_ahead_is_sequential g s a (by decide) (by decide)
  exact ⟨seed 2 3 20 (by decide) (by decide) (by decide), batch 5 (by decide), ft 0 (by decide),
    mg 7 (by decide), keys 5 2048 3 _ _ (by decide) (List.Perm.refl _),
    field 2 3 2 _ _ (List.reverse_perm _).flatten, grid 2 3 2 _ _ (List.reverse_perm _).flatten⟩

end Baseliner.NpbStreams
