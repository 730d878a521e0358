import Baseliner.PingAverages
import Baseliner.ProbedTime

/-! The time differences of SLANG-probed and of ping on `struct timespec` itself, with two
signed 64-bit fields that wrap around. What they compute is what the models of both programs
compute on integers, up to the width of the seconds. -/

namespace Baseliner.TimespecDifferences

section Code

structure Timespec where
  tvSec : Int64
  tvNsec : Int64
deriving DecidableEq

/-- `diff_ts`: what is stored in `r`, and `neg`. -/
def diffTs (a b : Timespec) : Timespec × Int :=
  if a.tvSec > b.tvSec then
    let tvSec := a.tvSec - b.tvSec
    if a.tvNsec > b.tvNsec then (⟨tvSec, a.tvNsec - b.tvNsec⟩, 0)
    else if a.tvNsec < b.tvNsec then (⟨tvSec - 1, 1000000000 + a.tvNsec - b.tvNsec⟩, 0)
    else (⟨tvSec, 0⟩, 0)
  else if a.tvSec < b.tvSec then
    let tvSec := b.tvSec - a.tvSec
    if a.tvNsec > b.tvNsec then (⟨tvSec - 1, b.tvNsec + 1000000000 - a.tvNsec⟩, 1)
    else if a.tvNsec < b.tvNsec then (⟨tvSec, b.tvNsec - a.tvNsec⟩, 1)
    else (⟨tvSec, 0⟩, 1)
  else
    if a.tvNsec > b.tvNsec then (⟨0, a.tvNsec - b.tvNsec⟩, 0)
    else if a.tvNsec < b.tvNsec then (⟨0, b.tvNsec - a.tvNsec⟩, 1)
    else (⟨0, 0⟩, 0)

def cmpTs (t1 t2 : Timespec) : Int :=
  if t1.tvSec < t2.tvSec then -1
  else if t1.tvSec > t2.tvSec then 1
  else if t1.tvNsec < t2.tvNsec then -1
  else if t1.tvNsec > t2.tvNsec then 1
  else 0

/-- `tvsub`: what `out` holds afterwards. -/
def tvsub (out inn : Timespec) : Timespec :=
  let tvNsec := out.tvNsec - inn.tvNsec
  if tvNsec < 0 then ⟨out.tvSec - 1 - inn.tvSec, tvNsec + 1000000000⟩
  else ⟨out.tvSec - inn.tvSec, tvNsec⟩

@[irreducible] def triptime (tv : Timespec) : Int64 := tv.tvSec * 1000000000 + tv.tvNsec

/-- Where the `restamp` loop is left: the time, `F_LATENCY` and the jumps back. -/
structure Restamped where
  triptime : Int64
  latency : Bool
  repeats : ℕ

/-- The `restamp` loop; `clock` has the readings of `clock_gettime`, one after the other. -/
def restamp (tmpTv : Timespec) (clock : ℕ → Timespec) (latency : Bool) (tv : Timespec)
    (repeats : ℕ) : Restamped :=
  if triptime (tvsub tv tmpTv) < 0 then
    if on : latency then ⟨0, true, repeats⟩
    else restamp tmpTv clock true (clock repeats) (repeats + 1)
  else ⟨triptime (tvsub tv tmpTv), latency, repeats⟩
termination_by if latency then 0 else 1
decreasing_by
  rw [if_pos trivial, if_neg on]
  exact Nat.one_pos

end Code

section Exact

namespace Timespec

def nanoseconds (t : Timespec) : Int := t.tvSec.toInt * 1000000000 + t.tvNsec.toInt

structure Normal (t : Timespec) : Prop where
  nonneg : 0 ≤ t.tvNsec.toInt
  lt : t.tvNsec.toInt < 1000000000

def ts (t : Timespec) : ProbedTime.Ts := ⟨t.tvSec.toInt, t.tvNsec.toInt⟩

def exact (t : Timespec) : PingStatistics.Timespec := ⟨t.tvSec.toInt, t.tvNsec.toInt⟩

end Timespec

theorem toInt_sub_of_fits {x y : Int64} (low : -2 ^ 63 ≤ x.toInt - y.toInt)
    (high : x.toInt - y.toInt < 2 ^ 63) : (x - y).toInt = x.toInt - y.toInt := by
  rw [Int64.toInt_sub]
  exact Int.bmod_eq_of_le (by omega) (by omega)

theorem toInt_add_of_fits {x y : Int64} (low : -2 ^ 63 ≤ x.toInt + y.toInt)
    (high : x.toInt + y.toInt < 2 ^ 63) : (x + y).toInt = x.toInt + y.toInt := by
  rw [Int64.toInt_add]
  exact Int.bmod_eq_of_le (by omega) (by omega)

theorem toInt_sub_one (x y : Int64) :
    (x - y - 1).toInt = (x.toInt - y.toInt - 1).bmod (2 ^ 64) := by
  rw [Int64.toInt_sub, Int64.toInt_sub, show (1 : Int64).toInt = 1 by decide, Int.bmod_sub_bmod]

theorem diffTs_exact {a b : Timespec} (ha : a.Normal) (hb : b.Normal) :
    let d := ProbedTime.diffTs a.ts b.ts
    (diffTs a b).1.tvSec.toInt = d.1.tvSec.bmod (2 ^ 64) ∧
      (diffTs a b).1.tvNsec.toInt = d.1.tvNsec ∧ (diffTs a b).2 = if d.2 then 1 else 0 := by
  obtain ⟨low, high⟩ := ha
  obtain ⟨low', high'⟩ := hb
  have billion : (1000000000 : Int64).toInt = 1000000000 := by decide
  have raised : (1000000000 + a.tvNsec).toInt = 1000000000 + a.tvNsec.toInt := by
    rw [toInt_add_of_fits (by omega) (by omega), billion]
  have raised' : (b.tvNsec + 1000000000).toInt = b.tvNsec.toInt + 1000000000 := by
    rw [toInt_add_of_fits (by omega) (by omega), billion]
  have above : (a.tvNsec - b.tvNsec).toInt = a.tvNsec.toInt - b.tvNsec.toInt :=
    toInt_sub_of_fits (by omega) (by omega)
  have below : (b.tvNsec - a.tvNsec).toInt = b.tvNsec.toInt - a.tvNsec.toInt :=
    toInt_sub_of_fits (by omega) (by omega)
  have borrowed : (1000000000 + a.tvNsec - b.tvNsec).toInt =
      1000000000 + a.tvNsec.toInt - b.tvNsec.toInt := by
    rw [toInt_sub_of_fits (by omega) (by omega), raised]
  have borrowed' : (b.tvNsec + 1000000000 - a.tvNsec).toInt =
      b.tvNsec.toInt + 1000000000 - a.tvNsec.toInt := by
    rw [toInt_sub_of_fits (by omega) (by omega), raised']
  simp only [diffTs, ProbedTime.diffTs, Timespec.ts, gt_iff_lt, Int64.lt_iff_toInt_lt]
  by_cases more : b.tvSec.toInt < a.tvSec.toInt
  · by_cases higher : b.tvNsec.toInt < a.tvNsec.toInt
    · simp only [more, higher, if_true]
      exact ⟨Int64.toInt_sub .., above, rfl⟩
    · by_cases lower : a.tvNsec.toInt < b.tvNsec.toInt
      · simp only [more, higher, lower, if_true, if_false]
        exact ⟨toInt_sub_one .., borrowed, rfl⟩
      · simp only [more, higher, lower, if_true, if_false]
        exact ⟨Int64.toInt_sub .., Int64.toInt_zero, rfl⟩
  · by_cases less : a.tvSec.toInt < b.tvSec.toInt
    · by_cases higher : b.tvNsec.toInt < a.tvNsec.toInt
      · simp only [more, less, higher, if_true, if_false]
        exact ⟨toInt_sub_one .., borrowed', trivial⟩
      · by_cases lower : a.tvNsec.toInt < b.tvNsec.toInt
        · simp only [more, less, higher, lower, if_true, if_false]
          exact ⟨Int64.toInt_sub .., below, trivial⟩
        · simp only [more, less, higher, lower, if_true, if_false]
          exact ⟨Int64.toInt_sub .., Int64.toInt_zero, trivial⟩
    · by_cases higher : b.tvNsec.toInt < a.tvNsec.toInt
      · simp only [more, less, higher, if_true, if_false]
        exact ⟨rfl, above, rfl⟩
      · by_cases lower : a.tvNsec.toInt < b.tvNsec.toInt
        · simp only [more, less, higher, lower, if_true, if_false]
          exact ⟨rfl, below, trivial⟩
        · simp only [more, less, higher, lower, if_false]
          exact ⟨rfl, Int64.toInt_zero, rfl⟩

theorem ts_normal {t : Timespec} (h : t.Normal) : t.ts.Normal := ⟨h.nonneg, h.lt⟩

theorem cmpTs_exact (a b : Timespec) : cmpTs a b = ProbedTime.cmpTs a.ts b.ts := by
  simp only [cmpTs, ProbedTime.cmpTs, Timespec.ts, gt_iff_lt, Int64.lt_iff_toInt_lt]

theorem tvsub_exact {out inn : Timespec} (hout : out.Normal) (hinn : inn.Normal) :
    let d := PingStatistics.tvsub out.exact inn.exact
    (tvsub out inn).tvSec.toInt = d.tvSec.bmod (2 ^ 64) ∧
      (tvsub out inn).tvNsec.toInt = d.tvNsec ∧ 0 ≤ d.tvNsec ∧ d.tvNsec < 1000000000 := by
  obtain ⟨low, high⟩ := hout
  obtain ⟨low', high'⟩ := hinn
  have billion : (1000000000 : Int64).toInt = 1000000000 := by decide
  have nsec : (out.tvNsec - inn.tvNsec).toInt = out.tvNsec.toInt - inn.tvNsec.toInt :=
    toInt_sub_of_fits (by omega) (by omega)
  simp only [tvsub, PingStatistics.tvsub, Timespec.exact, Int64.lt_iff_toInt_lt, nsec,
    Int64.toInt_zero]
  by_cases borrow : out.tvNsec.toInt - inn.tvNsec.toInt < 0
  · simp only [borrow, if_true]
    refine ⟨?_, ?_, by omega, by omega⟩
    · rw [Int64.toInt_sub, Int64.toInt_sub, show (1 : Int64).toInt = 1 by decide,
        Int.bmod_sub_bmod]
    · rw [toInt_add_of_fits (by omega) (by omega), nsec, billion]
  · simp only [borrow, if_false]
    exact ⟨Int64.toInt_sub .., nsec, by omega, by omega⟩

theorem eq_of_wrapped {r t : Timespec} (ht : t.Normal) {sec nsec : Int}
    (hsec : r.tvSec.toInt = sec.bmod (2 ^ 64)) (hnsec : r.tvNsec.toInt = nsec) (low : 0 ≤ nsec)
    (high : nsec < 1000000000) (value : sec * 1000000000 + nsec = t.nanoseconds) : r = t := by
  obtain ⟨low', high'⟩ := ht
  unfold Timespec.nanoseconds at value
  have same : sec = t.tvSec.toInt := by omega
  have least := t.tvSec.le_toInt
  have most := t.tvSec.toInt_lt
  have tvSec : r.tvSec = t.tvSec := by
    rw [← Int64.toInt_inj, hsec, same]
    exact Int.bmod_eq_of_le (by omega) (by omega)
  have tvNsec : r.tvNsec = t.tvNsec := by
    rw [← Int64.toInt_inj, hnsec]
    omega
  cases r
  cases t
  exact congrArg₂ Timespec.mk tvSec tvNsec

theorem diffTs_eq {a b t : Timespec} (ha : a.Normal) (hb : b.Normal) (ht : t.Normal)
    (value : t.nanoseconds = |a.nanoseconds - b.nanoseconds|) : (diffTs a b).1 = t := by
  obtain ⟨sec, nsec, _⟩ := diffTs_exact ha hb
  obtain ⟨normal, _, _, size⟩ := ProbedTime.diffTs_spec (ts_normal ha) (ts_normal hb)
  refine eq_of_wrapped ht sec nsec normal.nonneg normal.lt ?_
  rw [value]
  refine size.trans ?_
  change (if a.nanoseconds < b.nanoseconds then b.nanoseconds - a.nanoseconds
    else a.nanoseconds - b.nanoseconds) = _
  split_ifs with less
  · rw [abs_of_neg (by omega), neg_sub]
  · rw [abs_of_nonneg (by omega)]

theorem tvsub_eq {out inn t : Timespec} (hout : out.Normal) (hinn : inn.Normal) (ht : t.Normal)
    (value : t.nanoseconds = out.nanoseconds - inn.nanoseconds) : tvsub out inn = t := by
  obtain ⟨sec, nsec, low, high⟩ := tvsub_exact hout hinn
  refine eq_of_wrapped ht sec nsec low high ?_
  rw [value]
  exact PingStatistics.tvsub_nanoseconds out.exact inn.exact

theorem diffTs_neg {a b : Timespec} (ha : a.Normal) (hb : b.Normal) :
    (diffTs a b).2 = if cmpTs a b = -1 then 1 else 0 := by
  obtain ⟨_, _, sign⟩ := diffTs_exact ha hb
  have less := (ProbedTime.diffTs_spec (ts_normal ha) (ts_normal hb)).2.2.1
  have order := (ProbedTime.cmpTs_spec (ts_normal ha) (ts_normal hb)).1
  rw [sign, cmpTs_exact]
  simp only [less, order]

end Exact

section Restamp

theorem toInt_triptime (tv : Timespec) : (triptime tv).toInt = tv.nanoseconds.bmod (2 ^ 64) := by
  rw [triptime, Int64.toInt_add, Int64.toInt_mul, show (1000000000 : Int64).toInt = 1000000000 by
    decide, Int.bmod_add_bmod, Timespec.nanoseconds]

theorem triptime_tvsub (out inn : Timespec) :
    triptime (tvsub out inn) = triptime out - triptime inn := by
  simp only [triptime, tvsub]
  split_ifs
  · grind
  · grind

theorem triptime_exact (out inn : Timespec) :
    (triptime (tvsub out inn)).toInt =
      PingStatistics.triptime (PingStatistics.tvsub out.exact inn.exact) := by
  rw [triptime_tvsub, Int64.toInt_sub, toInt_triptime, toInt_triptime, PingStatistics.triptime,
    PingStatistics.tvsub_nanoseconds, ← Int.sub_bmod]
  rfl

theorem triptime_neg_iff (out inn : Timespec) :
    triptime (tvsub out inn) < 0 ↔
      PingStatistics.triptime (PingStatistics.tvsub out.exact inn.exact) < 0 := by
  rw [Int64.lt_iff_toInt_lt, triptime_exact, Int64.toInt_zero]

theorem restamp_latency (tmpTv : Timespec) (clock : ℕ → Timespec) (tv : Timespec) (repeats : ℕ)
    (now : PingStatistics.Timespec) :
    let r := restamp tmpTv clock true tv repeats
    r.repeats = repeats ∧
      (r.triptime.toInt, r.latency) = PingStatistics.restamp tmpTv.exact now true tv.exact := by
  rw [restamp, PingStatistics.restamp, dif_pos rfl, if_pos rfl]
  by_cases behind : triptime (tvsub tv tmpTv) < 0
  · rw [if_pos behind, if_pos ((triptime_neg_iff tv tmpTv).mp behind)]
    exact ⟨rfl, rfl⟩
  · rw [if_neg behind, if_neg (mt (triptime_neg_iff tv tmpTv).mpr behind), ← triptime_exact]
    exact ⟨rfl, rfl⟩

/-- Without it the loop may jump back once, and it is set then. The time and the option are
those of ping's model. -/
theorem restamp_spec (tmpTv : Timespec) (clock : ℕ → Timespec) (latency : Bool) (tv : Timespec)
    (repeats : ℕ) :
    let r := restamp tmpTv clock latency tv repeats
    r.repeats ≤ repeats + 1 ∧ (r.triptime.toInt, r.latency) =
      PingStatistics.restamp tmpTv.exact (clock repeats).exact latency tv.exact := by
  cases latency with
  | true =>
      obtain ⟨count, result⟩ := restamp_latency tmpTv clock tv repeats (clock repeats).exact
      exact ⟨count.le.trans (Nat.le_succ _), result⟩
  | false =>
      rw [restamp, PingStatistics.restamp, dif_neg Bool.false_ne_true, if_neg Bool.false_ne_true]
      by_cases behind : triptime (tvsub tv tmpTv) < 0
      · rw [if_pos behind, if_pos ((triptime_neg_iff tv tmpTv).mp behind)]
        obtain ⟨count, result⟩ := restamp_latency tmpTv clock (clock repeats) (repeats + 1)
          (clock repeats).exact
        exact ⟨count.le, result⟩
      · rw [if_neg behind, if_neg (mt (triptime_neg_iff tv tmpTv).mpr behind), ← triptime_exact]
        exact ⟨Nat.le_succ _, rfl⟩

theorem gatherStatistics_adds (st : PingStatistics.State) (reply : PingStatistics.Reply)
    (tmpTv : Timespec) (clock : ℕ → Timespec) (tv : Timespec) (stamp : reply.stamp = tmpTv.exact) :
    let r := restamp tmpTv clock st.options.latency tv 0
    let st' := (PingStatistics.gatherStatistics st reply tv.exact (clock 0).exact).1
    st'.times = st.times ∨ st'.times = st.times.add r.triptime.toInt := by
  intro r st'
  have result := (restamp_spec tmpTv clock st.options.latency tv 0).2
  have sums := PingAverages.times_gatherStatistics st reply tv.exact (clock 0).exact
  unfold PingAverages.added at sums
  split_ifs at sums
  · rw [stamp, ← result] at sums
    exact .inr sums
  · exact .inl sums

theorem restamp_nonneg (tmpTv : Timespec) (clock : ℕ → Timespec) (latency : Bool) (tv : Timespec)
    (repeats : ℕ) : 0 ≤ (restamp tmpTv clock latency tv repeats).triptime.toInt := by
  have nonneg := PingAverages.restamp_nonneg tmpTv.exact (clock repeats).exact tv.exact latency
  rwa [← (restamp_spec tmpTv clock latency tv repeats).2] at nonneg

end Restamp

/-- For normalised times `diff_ts` stores the absolute difference and returns its sign, and
`tvsub` leaves the difference, wherever a `struct timespec` can hold it. The `restamp` loop
jumps back once at most and adds no negative time, whatever the times are. -/
theorem time_differences :
    (∀ a b : Timespec, a.Normal → b.Normal →
      (diffTs a b).2 = (if cmpTs a b = -1 then 1 else 0) ∧ (diffTs a b).1.Normal ∧
        ∀ t : Timespec, t.Normal → t.nanoseconds = |a.nanoseconds - b.nanoseconds| →
          (diffTs a b).1 = t) ∧
    (∀ out inn : Timespec, out.Normal → inn.Normal →
      (tvsub out inn).Normal ∧
        ∀ t : Timespec, t.Normal → t.nanoseconds = out.nanoseconds - inn.nanoseconds →
          tvsub out inn = t) ∧
    ∀ (tmpTv : Timespec) (clock : ℕ → Timespec) (latency : Bool) (tv : Timespec),
      let r := restamp tmpTv clock latency tv 0
      r.repeats ≤ 1 ∧ 0 ≤ r.triptime.toInt ∧
        ∀ (st : PingStatistics.State) (reply : PingStatistics.Reply),
          st.options.latency = latency → reply.stamp = tmpTv.exact →
            let st' := (PingStatistics.gatherStatistics st reply tv.exact (clock 0).exact).1
            st'.times = st.times ∨ st'.times = st.times.add r.triptime.toInt := by
  refine ⟨?_, ?_, ?_⟩
  · intro a b ha hb
    obtain ⟨_, nsec, _⟩ := diffTs_exact ha hb
    have normal := (ProbedTime.diffTs_spec (ts_normal ha) (ts_normal hb)).1
    exact ⟨diffTs_neg ha hb, ⟨nsec ▸ normal.nonneg, nsec ▸ normal.lt⟩,
      fun t ht value => diffTs_eq ha hb ht value⟩
  · intro out inn hout hinn
    obtain ⟨_, nsec, low, high⟩ := tvsub_exact hout hinn
    exact ⟨⟨nsec ▸ low, nsec ▸ high⟩, fun t ht value => tvsub_eq hout hinn ht value⟩
  · intro tmpTv clock latency tv r
    refine ⟨(restamp_spec tmpTv clock latency tv 0).1, restamp_nonneg _ _ _ _ _, ?_⟩
    rintro st reply rfl stamp
    exact gatherStatistics_adds st reply tmpTv clock tv stamp

theorem time_differences_borrow :
    (diffTs ⟨5, 100000000⟩ ⟨4, 900000000⟩).1 = ⟨0, 200000000⟩ ∧
      tvsub ⟨4, 900000000⟩ ⟨5, 100000000⟩ = ⟨-1, 800000000⟩ ∧
      (restamp ⟨5, 100000000⟩ (fun _ => ⟨5, 0⟩) false ⟨4, 900000000⟩ 0).repeats ≤ 1 := by
  obtain ⟨differences, subtractions, repeats⟩ := time_differences
  have early : Timespec.Normal ⟨4, 900000000⟩ := ⟨by decide, by decide⟩
  have late : Timespec.Normal ⟨5, 100000000⟩ := ⟨by decide, by decide⟩
  exact ⟨(differences _ _ late early).2.2 ⟨0, 200000000⟩ ⟨by decide, by decide⟩ (by decide),
    (subtractions _ _ early late).2 ⟨-1, 800000000⟩ ⟨by decide, by decide⟩ (by decide),
    (repeats _ _ _ _).1⟩

/-- The seconds of a difference need not fit into 64 bits. -/
theorem time_difference_overflow :
    ¬ ((∀ a b : Timespec, a.Normal → b.Normal →
          (diffTs a b).1.nanoseconds = |a.nanoseconds - b.nanoseconds|) ∧
        ∀ out inn : Timespec, out.Normal → inn.Normal →
          (tvsub out inn).nanoseconds = out.nanoseconds - inn.nanoseconds) := by
  rintro ⟨all, _⟩
  have wrapped := all ⟨9223372036854775807, 0⟩ ⟨-1, 0⟩ ⟨by decide, by decide⟩
    ⟨by decide, by decide⟩
  revert wrapped
  decide

end Baseliner.TimespecDifferences
