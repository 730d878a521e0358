import Mathlib.Data.Rat.Cast.Order
import Mathlib.Order.Bounds.Basic
import Mathlib.Order.WithBot
import Mathlib.Tactic.Order
import Baseliner.OnlineMoments

/-! The timing loops of membench. Each turn takes a bandwidth from two clock readings and
updates the mean, the squared deviations and the extremes. `double` is exact here, and the
infinity the minimum starts at is the top of `WithTop`. -/

namespace Baseliner.MembenchTimeit

open OnlineMoments

def SIZE : ℕ := 2 ^ 30
def TIMES : ℕ := 5
def BYTES_PER_MB : ℕ := 1000000

def toBw (bytes : ℕ) (secs : ℚ) : ℚ := (bytes : ℚ) / BYTES_PER_MB / secs

structure Reading where
  before : ℚ
  after : ℚ

def total (r : Reading) : ℚ := toBw (SIZE * TIMES) (r.after - r.before)

structure Accum where
  min : WithTop ℚ := ⊤
  max : ℚ := 0
  mean : ℚ := 0
  delta : ℚ := 0
  delta2 : ℚ := 0
  M2 : ℚ := 0

/-- The body of the loop from the bandwidth on, in turn `i`. -/
def sample (i : ℕ) (total : ℚ) (s : Accum) : Accum :=
  let delta := total - s.mean
  let mean := s.mean + delta / (i + 1)
  let delta2 := total - mean
  { mean, delta, delta2, M2 := s.M2 + delta * delta2
    min := if (total : WithTop ℚ) < s.min then total else s.min
    max := if total > s.max then total else s.max }

def samples (i : ℕ) : List Reading → Accum → Accum
  | [], s => s
  | r :: rs, s => samples (i + 1) rs (sample i (total r) s)

/-- The loop of `timeit`, the readings being as many as there are samples. -/
def timeit (rs : List Reading) : Accum := samples 0 rs {}

/-- The loop of `timeitp`; the assertion is the first statement of each turn. -/
def timeitp (maxThreads : ℕ) (rs : List Reading) : Option Accum :=
  if rs ≠ [] ∧ SIZE % maxThreads ≠ 0 then none else some (samples 0 rs {})

structure Batch (xs : List ℚ) (s : Accum) : Prop where
  mean : s.mean = OnlineMoments.mean xs
  M2 : s.M2 = squaredDeviations xs
  min : xs = [] ∧ s.min = ⊤ ∨ ∃ m : ℚ, s.min = m ∧ IsLeast {x | x ∈ xs} m
  max : xs = [] ∧ s.max = 0 ∨ IsGreatest {x | x ∈ xs} s.max

variable {xs : List ℚ} {s : Accum} {x : ℚ}

theorem batch_nil : Batch [] {} :=
  ⟨by simp [OnlineMoments.mean], by simp [squaredDeviations, deviationsFrom], .inl ⟨rfl, rfl⟩,
    .inl ⟨rfl, rfl⟩⟩

theorem isLeast_concat {m : ℚ} (h : IsLeast {x | x ∈ xs} m) :
    IsLeast {y | y ∈ xs ++ [x]} (if x < m then x else m) := by
  constructor
  · split_ifs
    · simp
    · simpa using Or.inl h.1
  · intro y hy
    rcases List.mem_append.mp hy with old | new
    · have := h.2 old
      split_ifs <;> order
    · rw [List.mem_singleton.mp new]
      split_ifs <;> order

theorem isGreatest_concat {m : ℚ} (h : IsGreatest {x | x ∈ xs} m) :
    IsGreatest {y | y ∈ xs ++ [x]} (if x > m then x else m) := by
  constructor
  · split_ifs
    · simp
    · simpa using Or.inl h.1
  · intro y hy
    rcases List.mem_append.mp hy with old | new
    · have := h.2 old
      split_ifs <;> order
    · rw [List.mem_singleton.mp new]
      split_ifs <;> order

theorem sample_batch (h : Batch xs s) (positive : 0 < x) :
    Batch (xs ++ [x]) (sample xs.length x s) := by
  have mean : (sample xs.length x s).mean = OnlineMoments.mean (xs ++ [x]) := by
    rw [mean_concat, ← h.mean]
    rfl
  refine ⟨mean, ?_, .inr ?_, .inr ?_⟩
  · rw [squaredDeviations_concat, ← mean, ← h.M2, ← h.mean]
    rfl
  · rcases h.min with ⟨rfl, top⟩ | ⟨m, least, bound⟩
    · refine ⟨x, ?_, by simp [IsLeast, lowerBounds]⟩
      simp [sample, top]
    · refine ⟨_, ?_, isLeast_concat bound⟩
      rw [sample, least]
      simp only [WithTop.coe_lt_coe]
      split_ifs <;> rfl
  · rcases h.max with ⟨rfl, zero⟩ | bound
    · have larger : x > s.max := zero ▸ positive
      simp [sample, larger, IsGreatest, upperBounds]
    · exact isGreatest_concat bound

theorem samples_batch (rs : List Reading) (h : Batch xs s) (positive : ∀ r ∈ rs, 0 < total r) :
    Batch (xs ++ rs.map total) (samples xs.length rs s) := by
  induction rs generalizing xs s with
  | nil => simpa [samples] using h
  | cons r rs ih =>
      have next := ih (sample_batch h (positive r (List.mem_cons_self ..)))
        fun r' hr => positive r' (List.mem_cons_of_mem _ hr)
      rw [List.length_append, List.length_singleton, List.append_assoc] at next
      exact next

theorem timeit_batch (rs : List Reading) (positive : ∀ r ∈ rs, 0 < total r) :
    Batch (rs.map total) (timeit rs) :=
  samples_batch rs batch_nil positive

theorem timeitp_batch {maxThreads : ℕ} {rs : List Reading} (h : timeitp maxThreads rs = some s)
    (positive : ∀ r ∈ rs, 0 < total r) : Batch (rs.map total) s := by
  unfold timeitp at h
  split_ifs at h
  rw [← Option.some.inj h]
  exact samples_batch rs batch_nil positive

end Baseliner.MembenchTimeit
