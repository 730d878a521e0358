import Mathlib.Algebra.Order.BigOperators.Group.List
import Mathlib.Data.Int.Sqrt
import Mathlib.Order.Bounds.Basic
import Baseliner.NewtonRoot
import Baseliner.PingReplyAccounting

/-! The round-trip line of `finish`: the least, the average, the greatest time
and the deviation of the replies gathered. The run keeps the list of the times
that were added. The sums are divided by the number of good replies, the
deviation is taken by `llsqrt`, a Newton iteration on `long long`. -/

namespace Baseliner.PingAverages

open GuardedRuns PingStatistics PingSession
open PingReplyAccounting (Counts counts counts_gatherStatistics)

def llsqrtLoop (a prev x : Int64) : Int64 :=
  if x < prev then llsqrtLoop a x ((x + a / x) / 2) else x
termination_by (prev.toInt + 2 ^ 63).toNat
decreasing_by
  have low := Int64.le_toInt x
  have less := Int64.lt_iff_toInt_lt.mp ‹x < prev›
  omega

/-- `prev` starts as the greatest `long long`. -/
def llsqrt (a : Int64) : Int64 := if 0 < a then llsqrtLoop a Int64.maxValue a else a

def millis (x : Int) : Int × Int := (x.tdiv 1000000, x.tmod 1000000)

structure RttLine where
  least : Int × Int
  average : Int × Int
  greatest : Int × Int
  deviation : Int × Int

/-- The line that `finish` prints about the times. -/
def finishTimes (st : State) : Option RttLine :=
  if st.nreceived ≠ 0 ∧ st.timing then
    let n : Int := (st.nreceived : Int) + st.nrepeats
    let tsum := st.times.tsum / n
    let tsum2 := st.times.tsum2 / n
    let tmdev := llsqrt (Int64.ofInt (tsum2 - tsum * tsum))
    some ⟨millis st.times.tmin, millis tsum, millis st.times.tmax, millis tmdev.toInt⟩
  else none

/-! ### The square root -/

theorem toInt_quotient {a x : Int64} {A X : ℕ} (ha : a.toInt = A) (hx : x.toInt = X) :
    (a / x).toInt = ((A / X : ℕ) : Int) := by
  have other : x ≠ -1 := by
    rintro rfl
    have low : (-1 : Int64).toInt = -1 := by decide
    omega
  rw [Int64.toInt_div_of_ne_right a x other, ha, hx]
  exact (Int.ofNat_tdiv A X).symm

theorem toInt_sum {a x : Int64} {A X : ℕ} (ha : a.toInt = A) (hx : x.toInt = X)
    (pos : 0 < X) (le : X ≤ A) (small : A ≤ 2 ^ 63 - 2) :
    (x + a / x).toInt = ((X + A / X : ℕ) : Int) := by
  have bound := NewtonRoot.add_div_le pos le
  rw [Int64.toInt_add, hx, toInt_quotient ha hx]
  generalize A / X = q at bound ⊢
  apply Int.bmod_eq_of_le_mul_two
  · omega
  · omega

theorem toInt_newton {a x : Int64} {A X : ℕ} (ha : a.toInt = A) (hx : x.toInt = X)
    (pos : 0 < X) (le : X ≤ A) (small : A ≤ 2 ^ 63 - 2) :
    ((x + a / x) / 2).toInt = NewtonRoot.next A X :=
  toInt_quotient (toInt_sum ha hx pos le small) (by decide : (2 : Int64).toInt = (2 : ℕ))

theorem llsqrtLoop_eq {a prev x : Int64} {A P X : ℕ} (ha : a.toInt = A) (hp : prev.toInt = P)
    (hx : x.toInt = X) (pos : 0 < X) (le : X ≤ A) (small : A ≤ 2 ^ 63 - 2) :
    (llsqrtLoop a prev x).toInt = NewtonRoot.descend A P X := by
  induction P using Nat.strong_induction_on generalizing prev x X with
  | _ P ih =>
      have root : 0 < A.sqrt := Nat.sqrt_pos.mpr (lt_of_lt_of_le pos le)
      rw [llsqrtLoop, NewtonRoot.descend]
      by_cases less : X < P
      · rw [if_pos less, if_pos (by rw [Int64.lt_iff_toInt_lt, hx, hp]; omega)]
        apply ih X less hx (toInt_newton ha hx pos le small)
        · exact lt_of_lt_of_le root (NewtonRoot.sqrt_le_next A pos)
        · have quotient : A / X ≤ A := Nat.div_le_self A X
          unfold NewtonRoot.next
          omega
      · rw [if_neg less, if_neg (by rw [Int64.lt_iff_toInt_lt, hx, hp]; omega), hx]

/-- The root, or one more for a number one below a square. -/
theorem llsqrt_eq {a : Int64} {A : ℕ} (ha : a.toInt = A) (small : A ≤ 2 ^ 63 - 2) :
    (llsqrt a).toInt =
      if 0 < A ∧ A + 1 = (A.sqrt + 1) * (A.sqrt + 1) then ((A.sqrt + 1 : ℕ) : Int)
      else (A.sqrt : Int) := by
  unfold llsqrt
  by_cases pos : 0 < A
  · have max : (Int64.maxValue).toInt = ((2 ^ 63 - 1 : ℕ) : Int) := by decide
    have below : A < 2 ^ 63 - 1 := by omega
    rw [if_pos (by rw [Int64.lt_iff_toInt_lt, ha, Int64.toInt_zero]; omega),
      llsqrtLoop_eq ha max ha pos (le_refl A) small,
      NewtonRoot.descend_eq pos (Nat.sqrt_le_self A) below, NewtonRoot.next_sqrt pos]
    simp only [pos, true_and]
    split
    · rfl
    · rfl
  · have zero : A = 0 := by omega
    rw [if_neg (by rw [Int64.lt_iff_toInt_lt, ha, Int64.toInt_zero]; omega), ha, zero]
    simp

/-! ### The mean and the spread -/

def squares (trips : List Int) : Int := (trips.map fun t => t * t).sum

def average (trips : List Int) : Int := trips.sum / trips.length

/-- The mean of the squares, rounded down, less the square of the average. -/
def spread (trips : List Int) : Int :=
  squares trips / trips.length - average trips * average trips

theorem squares_cons (t : Int) (trips : List Int) :
    squares (t :: trips) = t * t + squares trips := by simp [squares]

theorem squares_nonneg (trips : List Int) : 0 ≤ squares trips := by
  induction trips with
  | nil => exact le_refl 0
  | cons t trips ih =>
      rw [squares_cons]
      exact add_nonneg (mul_self_nonneg t) ih

theorem distances_nonneg (t : Int) (trips : List Int) :
    2 * t * trips.sum ≤ trips.length * (t * t) + squares trips := by
  induction trips with
  | nil => simp [squares]
  | cons x trips ih =>
      have apart : 0 ≤ (t - x) * (t - x) := mul_self_nonneg (t - x)
      rw [squares_cons, List.sum_cons, List.length_cons]
      push_cast
      linarith

theorem sum_mul_sum_le (trips : List Int) :
    trips.sum * trips.sum ≤ trips.length * squares trips := by
  induction trips with
  | nil => simp [squares]
  | cons t trips ih =>
      have apart := distances_nonneg t trips
      rw [squares_cons, List.sum_cons, List.length_cons]
      push_cast
      linarith

theorem sum_le_squares {trips : List Int} (nonneg : ∀ t ∈ trips, 0 ≤ t) :
    trips.sum ≤ squares trips := by
  induction trips with
  | nil => exact le_refl 0
  | cons t trips ih =>
      have rest := ih fun x mem => nonneg x (List.mem_cons_of_mem t mem)
      have low := nonneg t List.mem_cons_self
      have self : t ≤ t * t := by nlinarith
      rw [squares_cons, List.sum_cons]
      exact add_le_add self rest

theorem average_nonneg {trips : List Int} (nonneg : ∀ t ∈ trips, 0 ≤ t) : 0 ≤ average trips :=
  Int.ediv_nonneg (List.sum_nonneg nonneg) (Int.natCast_nonneg trips.length)

theorem length_pos {trips : List Int} (some : trips ≠ []) : 0 < (trips.length : Int) := by
  have pos := List.length_pos_iff.mpr some
  omega

theorem average_mul_average_le {trips : List Int} (some : trips ≠ [])
    (nonneg : ∀ t ∈ trips, 0 ≤ t) :
    average trips * average trips ≤ squares trips / trips.length := by
  have length := length_pos some
  have below : average trips * trips.length ≤ trips.sum := Int.ediv_mul_le _ (ne_of_gt length)
  have low := average_nonneg nonneg
  apply (Int.le_ediv_iff_mul_le length).mpr
  apply le_of_mul_le_mul_right _ length
  calc
    average trips * average trips * trips.length * trips.length =
        average trips * trips.length * (average trips * trips.length) := by ring
    _ ≤ trips.sum * trips.sum := mul_self_le_mul_self (by positivity) below
    _ ≤ trips.length * squares trips := sum_mul_sum_le trips
    _ = squares trips * trips.length := mul_comm _ _

theorem squares_div_le {trips : List Int} (some : trips ≠ []) (fits : ∀ t ∈ trips, t * t < 2 ^ 63)
    (nonneg : ∀ t ∈ trips, 0 ≤ t) : squares trips / trips.length ≤ 3037000499 * 3037000499 := by
  have each : ∀ x ∈ trips.map fun t => t * t, x ≤ 3037000499 * 3037000499 := by
    intro x mem
    obtain ⟨t, here, rfl⟩ := List.mem_map.mp mem
    have short : t ≤ 3037000499 := by
      by_contra long
      have square := fits t here
      nlinarith
    have low := nonneg t here
    exact mul_self_le_mul_self low short
  have total := List.sum_le_card_nsmul _ _ each
  rw [List.length_map, nsmul_eq_mul] at total
  have bound : squares trips < (3037000499 * 3037000499 + 1) * trips.length := by
    have length := length_pos some
    unfold squares
    linarith
  exact Int.lt_add_one_iff.mp (Int.ediv_lt_of_lt_mul (length_pos some) bound)

theorem spread_nonneg {trips : List Int} (some : trips ≠ []) (nonneg : ∀ t ∈ trips, 0 ≤ t) :
    0 ≤ spread trips :=
  sub_nonneg.mpr (average_mul_average_le some nonneg)

/-! ### Runs -/

structure Gathered where
  st : State
  trips : List Int

/-- Between the replies `send_probe` clears the mark of the next probe, which is
counted unless the send fails. -/
inductive Event
  | probe (sent : Bool)
  | reply (reply : Reply) (tv now : Timespec)

def added (st : State) (reply : Reply) (tv now : Timespec) : Option Int :=
  if st.timing ∧ 8 + 16 ≤ reply.cc ∧ reply.csfailed = false then
    some (restamp reply.stamp now st.options.latency tv).1
  else none

def step (g : Gathered) : Event → Gathered
  | .probe sent =>
      let st := rcvdClear g.st (UInt16.ofNat (g.st.ntransmitted + 1))
      { g with st := if sent then advanceNtransmitted st else st }
  | .reply reply tv now =>
      ⟨(gatherStatistics g.st reply tv now).1, (added g.st reply tv now).toList ++ g.trips⟩

/-- A good reply carries a whole time stamp, the square of its time fits into a
`long long` and the sum of the squares into an `unsigned long long`. -/
def Sound (g : Gathered) : Event → Prop
  | .probe _ => True
  | .reply reply tv now =>
      g.st.timing = true → reply.csfailed = false →
        8 + 16 ≤ reply.cc ∧ ∀ t, added g.st reply tv now = some t →
          t * t < 2 ^ 63 ∧ squares (t :: g.trips) < 2 ^ 64

/-- The line, if it is printed, has the least, the mean and the greatest time
and the root of the spread. -/
def Averages (g : Gathered) : Prop :=
  ∀ line, finishTimes g.st = some line →
    ∃ least greatest, IsLeast {t | t ∈ g.trips} least ∧ IsGreatest {t | t ∈ g.trips} greatest ∧
      line = ⟨millis least, millis (average g.trips), millis greatest,
        millis (Int.sqrt (spread g.trips))⟩

/-! ### One step -/

theorem timing_gatherStatistics (st : State) (reply : Reply) (tv now : Timespec) :
    (gatherStatistics st reply tv now).1.timing = st.timing := by
  obtain ⟨_, _, note⟩ := noted_eq st reply
  obtain ⟨_, _, _, time⟩ := gatherTiming_eq (noted st reply) reply tv now
  obtain ⟨_, _, _, _, count⟩ := gatherCount_eq (gatherTiming (noted st reply) reply tv now).1 reply
  rw [gatherStatistics_state, count, time, note]
  rfl

theorem times_gatherTiming_failed (st : State) {reply : Reply} (tv now : Timespec)
    (failed : reply.csfailed = true) : (gatherTiming st reply tv now).1.times = st.times := by
  unfold gatherTiming
  split
  · rfl
  · rfl

theorem times_gatherStatistics (st : State) (reply : Reply) (tv now : Timespec) :
    (gatherStatistics st reply tv now).1.times =
      (added st reply tv now).elim st.times st.times.add := by
  unfold added
  by_cases counted : st.timing ∧ 8 + 16 ≤ reply.cc ∧ reply.csfailed = false
  · rw [if_pos counted, gatherStatistics_times tv now counted.1 counted.2.1 counted.2.2]
    rfl
  · rw [if_neg counted, gatherStatistics_state]
    change (gatherCount _ reply).1.times = st.times
    obtain ⟨_, _, note⟩ := noted_eq st reply
    rw [gatherCount_times, note]
    cases good : reply.csfailed with
    | true => exact times_gatherTiming_failed _ tv now good
    | false =>
        unfold gatherTiming
        rw [if_neg]
        rintro ⟨timing, complete⟩
        exact counted ⟨timing, complete, good⟩

theorem restamp_nonneg (tmpTv now tv : Timespec) (latency : Bool) :
    0 ≤ (restamp tmpTv now latency tv).1 := by
  by_cases ahead : triptime (tvsub tv tmpTv) < 0
  · cases latency with
    | true =>
        rw [restamp_latency]
        exact le_max_left 0 _
    | false =>
        rw [restamp_of_neg ahead]
        exact le_max_left 0 _
  · rw [restamp_of_nonneg latency (by omega)]
    exact not_lt.mp ahead

structure Tally (c : Counts) (times : Times) (trips : List Int) : Prop where
  count : c.nreceived + c.nrepeats = trips.length
  first : c.nreceived = 0 → c.nrepeats = 0 ∧ ∀ seq, c.rcvdTbl seq = false
  nonneg : ∀ t ∈ trips, 0 ≤ t
  fits : ∀ t ∈ trips, t * t < 2 ^ 63
  room : squares trips < 2 ^ 64
  tsum : times.tsum = trips.sum
  tsum2 : times.tsum2 = squares trips
  least : trips = [] ∧ times.tmin = 2 ^ 63 - 1 ∨ IsLeast {t | t ∈ trips} times.tmin
  greatest : trips = [] ∧ times.tmax = 0 ∨ IsGreatest {t | t ∈ trips} times.tmax

theorem mem_cons_eq_insert (t : Int) (trips : List Int) :
    {x | x ∈ t :: trips} = insert t {x | x ∈ trips} := by
  ext x
  exact List.mem_cons

theorem isLeast_cons {trips : List Int} {tmin : Int} (t : Int) (small : t < 2 ^ 63)
    (h : trips = [] ∧ tmin = 2 ^ 63 - 1 ∨ IsLeast {x | x ∈ trips} tmin) :
    IsLeast {x | x ∈ t :: trips} (if t < tmin then t else tmin) := by
  have less : (if t < tmin then t else tmin) = min t tmin := by
    split
    · omega
    · omega
  rw [less, mem_cons_eq_insert]
  rcases h with ⟨rfl, rfl⟩ | old
  · rw [min_eq_left (by omega)]
    simp
  · exact old.insert t

theorem isGreatest_cons {trips : List Int} {tmax : Int} (t : Int) (nonneg : 0 ≤ t)
    (h : trips = [] ∧ tmax = 0 ∨ IsGreatest {x | x ∈ trips} tmax) :
    IsGreatest {x | x ∈ t :: trips} (if t > tmax then t else tmax) := by
  have more : (if t > tmax then t else tmax) = max t tmax := by
    split
    · omega
    · omega
  rw [more, mem_cons_eq_insert]
  rcases h with ⟨rfl, rfl⟩ | old
  · rw [max_eq_left nonneg]
    simp
  · exact old.insert t

theorem gathered_good (c : Counts) (seq : UInt16) :
    (c.gathered seq false).nreceived + (c.gathered seq false).nrepeats =
      c.nreceived + c.nrepeats + 1 := by
  unfold Counts.gathered
  rw [if_neg Bool.false_ne_true]
  split
  · rfl
  · exact Nat.add_right_comm _ _ _

theorem gathered_received {c : Counts} (seq : UInt16)
    (first : c.nreceived = 0 → c.nrepeats = 0 ∧ ∀ seq, c.rcvdTbl seq = false) :
    (c.gathered seq false).nreceived ≠ 0 := by
  unfold Counts.gathered
  rw [if_neg Bool.false_ne_true]
  split
  · rename_i marked
    intro none
    rw [(first none).2 seq] at marked
    exact Bool.false_ne_true marked
  · exact Nat.succ_ne_zero _

theorem Tally.add {c : Counts} {times : Times} {trips : List Int} (h : Tally c times trips)
    {t : Int} (nonneg : 0 ≤ t) (fits : t * t < 2 ^ 63) (room : squares (t :: trips) < 2 ^ 64)
    (seq : UInt16) : Tally (c.gathered seq false) (times.add t) (t :: trips) where
  count := by rw [gathered_good, h.count, List.length_cons]
  first none := absurd none (gathered_received seq h.first)
  nonneg := List.forall_mem_cons.mpr ⟨nonneg, h.nonneg⟩
  fits := List.forall_mem_cons.mpr ⟨fits, h.fits⟩
  room := room
  tsum := by
    have nonnegs : ∀ x ∈ t :: trips, 0 ≤ x := List.forall_mem_cons.mpr ⟨nonneg, h.nonneg⟩
    have low : 0 ≤ (t :: trips).sum := List.sum_nonneg nonnegs
    have high := sum_le_squares nonnegs
    rw [List.sum_cons] at low high ⊢
    change (times.tsum + t) % 2 ^ 64 = _
    rw [h.tsum]
    omega
  tsum2 := by
    have low := squares_nonneg (t :: trips)
    rw [squares_cons] at low room ⊢
    change (times.tsum2 + t * t) % 2 ^ 64 = _
    rw [h.tsum2]
    omega
  least := by
    right
    have small : t < 2 ^ 63 := by nlinarith
    exact isLeast_cons t small h.least
  greatest := by
    right
    exact isGreatest_cons t nonneg h.greatest

theorem Tally.cleared {st : State} {trips : List Int} (h : Tally (counts st) st.times trips)
    (seq : UInt16) : Tally (counts (rcvdClear st seq)) st.times trips where
  count := h.count
  first none := by
    obtain ⟨repeats, unmarked⟩ := h.first none
    refine ⟨repeats, fun other => ?_⟩
    change (_ && (counts st).rcvdTbl other) = false
    rw [unmarked other, Bool.and_false]
  nonneg := h.nonneg
  fits := h.fits
  room := h.room
  tsum := h.tsum
  tsum2 := h.tsum2
  least := h.least
  greatest := h.greatest

def Gathered.tallied (g : Gathered) : Prop :=
  g.st.timing = true → Tally (counts g.st) g.st.times g.trips

theorem tallied_step (g : Gathered) (event : Event) (h : g.tallied) (sound : Sound g event) :
    (step g event).tallied := by
  intro timing
  cases event with
  | probe sent =>
      have old : g.st.timing = true := by
        cases sent with
        | true => exact timing
        | false => exact timing
      have cleared := (h old).cleared (UInt16.ofNat (g.st.ntransmitted + 1))
      cases sent with
      | true =>
          exact ⟨cleared.count, cleared.first, cleared.nonneg, cleared.fits, cleared.room,
            cleared.tsum, cleared.tsum2, cleared.least, cleared.greatest⟩
      | false => exact cleared
  | reply reply tv now =>
      have old : g.st.timing = true := (timing_gatherStatistics g.st reply tv now).symm.trans timing
      have before := h old
      simp only [step, counts_gatherStatistics]
      cases good : reply.csfailed with
      | true =>
          have none : added g.st reply tv now = none := by
            unfold added
            rw [if_neg]
            rintro ⟨-, -, ok⟩
            rw [good] at ok
            exact Bool.false_ne_true ok.symm
          rw [times_gatherStatistics, none]
          exact ⟨before.count, before.first, before.nonneg, before.fits, before.room,
            before.tsum, before.tsum2, before.least, before.greatest⟩
      | false =>
          obtain ⟨complete, small⟩ := sound old good
          have time : added g.st reply tv now =
              some (restamp reply.stamp now g.st.options.latency tv).1 :=
            if_pos ⟨old, complete, good⟩
          obtain ⟨fits, room⟩ := small _ time
          rw [times_gatherStatistics, time]
          exact before.add (restamp_nonneg _ _ _ _) fits room reply.seq

/-! ### The line -/

theorem millis_injective {x y : Int} (h : millis x = millis y) : x = y := by
  have quotient : x.tdiv 1000000 = y.tdiv 1000000 := congrArg Prod.fst h
  have rest : x.tmod 1000000 = y.tmod 1000000 := congrArg Prod.snd h
  calc
    x = 1000000 * x.tdiv 1000000 + x.tmod 1000000 := (Int.mul_tdiv_add_tmod x 1000000).symm
    _ = 1000000 * y.tdiv 1000000 + y.tmod 1000000 := by rw [quotient, rest]
    _ = y := Int.mul_tdiv_add_tmod y 1000000

/-- One below a square, and not 0. -/
def BelowSquare (a : Int) : Prop := 0 < a ∧ IsSquare (a + 1)

theorem belowSquare_iff (A : ℕ) :
    BelowSquare A ↔ 0 < A ∧ A + 1 = (A.sqrt + 1) * (A.sqrt + 1) := by
  constructor
  · rintro ⟨pos, square⟩
    have some : 0 < A := by omega
    have inner : IsSquare (A + 1) := Int.isSquare_natCast_iff.mp (by exact_mod_cast square)
    obtain ⟨k, eq⟩ := inner
    cases k with
    | zero => exact absurd eq (Nat.succ_ne_zero A)
    | succ k =>
        have low : k ≤ A.sqrt := Nat.le_sqrt.mpr (by nlinarith)
        have high : A.sqrt < k + 1 := Nat.sqrt_lt.mpr (by omega)
        rw [show A.sqrt = k by omega]
        exact ⟨some, eq⟩
  · rintro ⟨pos, square⟩
    refine ⟨by omega, (A.sqrt + 1 : ℕ), ?_⟩
    exact_mod_cast square

open Classical in
theorem llsqrt_spread {x : Int} (nonneg : 0 ≤ x) (small : x ≤ 2 ^ 63 - 2) :
    (llsqrt (Int64.ofInt x)).toInt = Int.sqrt x + if BelowSquare x then 1 else 0 := by
  obtain ⟨A, rfl⟩ := Int.eq_ofNat_of_zero_le nonneg
  have value : (Int64.ofInt (A : Int)).toInt = A := by
    apply Int64.toInt_ofInt_of_le
    · omega
    · omega
  rw [llsqrt_eq value (by omega), Int.sqrt, Int.toNat_natCast]
  by_cases below : 0 < A ∧ A + 1 = (A.sqrt + 1) * (A.sqrt + 1)
  · rw [if_pos below, if_pos ((belowSquare_iff A).mpr below)]
    push_cast
    rfl
  · rw [if_neg below, if_neg fun h => below ((belowSquare_iff A).mp h), add_zero]

open Classical in
theorem finishTimes_eq {st : State} {trips : List Int} (h : Tally (counts st) st.times trips)
    (some : trips ≠ []) (timing : st.timing = true) :
    finishTimes st = .some ⟨millis st.times.tmin, millis (average trips), millis st.times.tmax,
      millis (Int.sqrt (spread trips) + if BelowSquare (spread trips) then 1 else 0)⟩ := by
  have divisor : (st.nreceived : Int) + st.nrepeats = trips.length := by
    rw [← Nat.cast_add]
    exact congrArg Nat.cast h.count
  have received : st.nreceived ≠ 0 := by
    intro none
    apply some
    have count : st.nreceived + st.nrepeats = trips.length := h.count
    have repeats : st.nrepeats = 0 := (h.first none).1
    rw [none, repeats] at count
    exact List.length_eq_zero_iff.mp count.symm
  have bound : spread trips ≤ 2 ^ 63 - 2 := by
    have means := squares_div_le some h.fits h.nonneg
    have square := mul_self_nonneg (average trips)
    unfold spread
    omega
  have root := llsqrt_spread (spread_nonneg some h.nonneg) bound
  unfold finishTimes
  rw [if_pos ⟨received, timing⟩]
  simp only [divisor, h.tsum, h.tsum2]
  unfold spread average at root ⊢
  rw [root]

theorem finishTimes_none {st : State} {trips : List Int} (h : Tally (counts st) st.times trips)
    (none : trips = []) : finishTimes st = .none := by
  have count : st.nreceived + st.nrepeats = trips.length := h.count
  rw [none, List.length_nil] at count
  unfold finishTimes
  rw [if_neg]
  rintro ⟨received, -⟩
  omega

theorem averages_iff {g : Gathered} (h : g.tallied) :
    Averages g ↔ (g.st.timing = true → ¬ BelowSquare (spread g.trips)) := by
  unfold Averages
  by_cases timing : g.st.timing = true
  · have tally := h timing
    by_cases none : g.trips = []
    · have zero : spread g.trips = 0 := by
        rw [none]
        rfl
      rw [finishTimes_none tally none, zero]
      refine ⟨fun _ _ below => lt_irrefl 0 below.1, fun _ line printed => ?_⟩
      exact absurd printed (by simp)
    · rw [finishTimes_eq tally none timing]
      have least := tally.least.resolve_left fun empty => none empty.1
      have greatest := tally.greatest.resolve_left fun empty => none empty.1
      constructor
      · intro every _ below
        obtain ⟨_, _, _, _, same⟩ := every _ rfl
        have deviation := millis_injective (congrArg RttLine.deviation same)
        rw [if_pos below] at deviation
        omega
      · rintro exact line printed
        refine ⟨_, _, least, greatest, ?_⟩
        rw [if_neg (exact timing), add_zero] at printed
        exact (Option.some.inj printed).symm
  · have silent : finishTimes g.st = none := by
      unfold finishTimes
      rw [if_neg fun printed => timing printed.2]
    rw [silent]
    refine ⟨fun _ on => absurd on timing, fun _ line printed => ?_⟩
    exact absurd printed (by simp)

structure Fresh (st : State) : Prop where
  nreceived : st.nreceived = 0
  nrepeats : st.nrepeats = 0
  unmarked : ∀ seq, st.rcvdTbl seq = false
  tmin : st.times.tmin = 2 ^ 63 - 1
  tmax : st.times.tmax = 0
  tsum : st.times.tsum = 0
  tsum2 : st.times.tsum2 = 0

theorem Fresh.tallied {st : State} (h : Fresh st) : Gathered.tallied ⟨st, []⟩ := by
  intro _
  refine ⟨?_, fun _ => ⟨h.nrepeats, h.unmarked⟩, by simp, by simp, by simp [squares], h.tsum,
    h.tsum2, Or.inl ⟨rfl, h.tmin⟩, Or.inl ⟨rfl, h.tmax⟩⟩
  change st.nreceived + st.nrepeats = 0
  rw [h.nreceived, h.nrepeats]

/-- When every good reply is complete and the squares fit, the line is right
unless the spread is one below a square. -/
theorem averages_printed {st : State} (fresh : Fresh st) (events : List Event)
    (sound : Along step Sound ⟨st, []⟩ events) :
    let g := run step ⟨st, []⟩ events
    Averages g ↔ (g.st.timing = true → ¬ BelowSquare (spread g.trips)) :=
  averages_iff (run_of_along tallied_step fresh.tallied sound)

theorem initialState_fresh : Fresh initialState := ⟨rfl, rfl, fun _ => rfl, rfl, rfl, rfl, rfl⟩

theorem added_eq {st : State} {reply : Reply} {tv : Timespec} (now : Timespec) {t : Int}
    (counted : st.timing ∧ 8 + 16 ≤ reply.cc ∧ reply.csfailed = false)
    (time : tv.nanoseconds - reply.stamp.nanoseconds = t) (nonneg : 0 ≤ t) (small : t < 2 ^ 63) :
    added st reply tv now = some t := by
  have trip : triptime (tvsub tv reply.stamp) = t := by
    rw [triptime_tvsub, time]
    · omega
    · omega
  unfold added
  rw [if_pos counted, restamp_of_nonneg _ (by rw [trip]; exact nonneg), trip]

/-- A good reply of `cc` bytes to a probe sent after 1000 s. -/
def echo (seq : UInt16) (cc : Nat) : Reply where
  cc := cc
  seq := seq
  hops := 64
  csfailed := false
  stamp := ⟨1000, 0⟩
  data := []

/-- Two probes are sent and answered, the second one by `cc` bytes. -/
def answers (first second : Timespec) (cc : Nat) : List Event :=
  [.probe true, .probe true, .reply (echo 1 64) first first, .reply (echo 2 cc) second second]

def sent : Gathered := run step ⟨initialState, []⟩ [.probe true, .probe true]

def answered (first second : Timespec) (cc : Nat) : Gathered :=
  run step ⟨initialState, []⟩ (answers first second cc)

theorem answered_eq {first second : Timespec} {cc : Nat} {x : Int} {y : Option Int}
    (one : ∀ st : State, st.timing = true → added st (echo 1 64) first first = some x)
    (two : ∀ st : State, st.timing = true → added st (echo 2 cc) second second = y) :
    (answered first second cc).trips = y.toList ++ [x] ∧
      (answered first second cc).st.times =
        y.elim (initialState.times.add x) (initialState.times.add x).add ∧
      (answered first second cc).st.timing = true ∧
      (answered first second cc).st.nreceived = 2 ∧ (answered first second cc).st.nrepeats = 0 := by
  have timing := timing_gatherStatistics sent.st (echo 1 64) first first
  have early : added sent.st (echo 1 64) first first = some x := one sent.st rfl
  have late := two _ timing
  have times : (gatherStatistics sent.st (echo 1 64) first first).1.times =
      initialState.times.add x := by
    rw [times_gatherStatistics, early]
    rfl
  have counted := counts_gatherStatistics sent.st (echo 1 64) first first
  have last : answered first second cc =
      step ⟨(gatherStatistics sent.st (echo 1 64) first first).1,
        (added sent.st (echo 1 64) first first).toList ++ []⟩
        (.reply (echo 2 cc) second second) := rfl
  rw [last, early]
  generalize (gatherStatistics sent.st (echo 1 64) first first).1 = received at *
  have count := counts_gatherStatistics received (echo 2 cc) second second
  rw [counted] at count
  refine ⟨?_, ?_, ?_, ?_, ?_⟩
  · simp only [step, late]
    rfl
  · simp only [step, times_gatherStatistics, late, times]
  · simp only [step, timing_gatherStatistics, timing]
    rfl
  · simp only [step]
    exact congrArg Counts.nreceived count
  · simp only [step]
    exact congrArg Counts.nrepeats count

theorem answered_sound {first second : Timespec} {x y : Int}
    (one : ∀ st : State, st.timing = true → added st (echo 1 64) first first = some x)
    (two : ∀ st : State, st.timing = true → added st (echo 2 64) second second = some y)
    (fits : x * x < 2 ^ 63 ∧ y * y < 2 ^ 63) :
    Along step Sound ⟨initialState, []⟩ (answers first second 64) := by
  have early : added sent.st (echo 1 64) first first = some x := one sent.st rfl
  have whole : 8 + 16 ≤ 64 := by decide
  refine ⟨trivial, trivial, fun _ _ => ⟨whole, fun t time => ?_⟩,
    fun timing _ => ⟨whole, fun t time => ?_⟩, trivial⟩
  · change added sent.st (echo 1 64) first first = some t at time
    rw [early, Option.some.injEq] at time
    subst time
    refine ⟨fits.1, ?_⟩
    simp only [step, squares, List.map_cons, List.map_nil, List.sum_cons, List.sum_nil]
    omega
  · rw [two _ timing, Option.some.injEq] at time
    subst time
    refine ⟨fits.2, ?_⟩
    change squares (y :: ((added sent.st (echo 1 64) first first).toList ++ [])) < 2 ^ 64
    rw [early]
    simp only [squares, Option.toList_some, List.append_nil, List.map_cons, List.map_nil,
      List.sum_cons, List.sum_nil]
    omega

theorem added_echo (seq : UInt16) (tv : Timespec) {t : Int}
    (time : tv.nanoseconds - 1000000000000 = t) (nonneg : 0 ≤ t) (small : t < 2 ^ 63)
    (st : State) (timing : st.timing = true) : added st (echo seq 64) tv tv = some t :=
  added_eq tv ⟨timing, Nat.le_add_right 24 40, rfl⟩ time nonneg small

theorem averages_printed_two :
    Averages (answered ⟨1000, 5⟩ ⟨1000, 9⟩ 64) ↔
      ((answered ⟨1000, 5⟩ ⟨1000, 9⟩ 64).st.timing = true →
        ¬ BelowSquare (spread (answered ⟨1000, 5⟩ ⟨1000, 9⟩ 64).trips)) := by
  apply averages_printed initialState_fresh
  apply answered_sound
  · exact added_echo 1 ⟨1000, 5⟩ rfl (by decide) (by decide)
  · exact added_echo 2 ⟨1000, 9⟩ rfl (by decide) (by decide)
  · decide

theorem finishTimes_two {st : State} (timing : st.timing = true) (received : st.nreceived = 2)
    (repeats : st.nrepeats = 0) :
    finishTimes st = some ⟨millis st.times.tmin, millis (st.times.tsum / 2),
      millis st.times.tmax, millis (llsqrt (Int64.ofInt (st.times.tsum2 / 2 -
        st.times.tsum / 2 * (st.times.tsum / 2)))).toInt⟩ := by
  unfold finishTimes
  rw [if_pos ⟨by rw [received]; decide, timing⟩]
  simp only [received, repeats]
  rfl

/-- Squares of 3.1 s do not fit, 5 ns and 8 ns have the spread 8, and a short
reply is counted without a time. -/
theorem averages_wrong :
    ((answered ⟨1003, 100000000⟩ ⟨1003, 100000000⟩ 64).trips = [3100000000, 3100000000] ∧
      ¬ Averages (answered ⟨1003, 100000000⟩ ⟨1003, 100000000⟩ 64)) ∧
    ((answered ⟨1000, 5⟩ ⟨1000, 8⟩ 64).trips = [8, 5] ∧
      ¬ Averages (answered ⟨1000, 5⟩ ⟨1000, 8⟩ 64)) ∧
    (answered ⟨1000, 5⟩ ⟨1000, 5⟩ 8).trips = [5] ∧
      ¬ Averages (answered ⟨1000, 5⟩ ⟨1000, 5⟩ 8) := by
  refine ⟨?_, ?_, ?_⟩
  · obtain ⟨trips, times, timing, received, repeats⟩ := answered_eq
      (added_echo 1 ⟨1003, 100000000⟩ rfl (by decide) (by decide))
      (added_echo 2 ⟨1003, 100000000⟩ rfl (by decide) (by decide))
    refine ⟨trips, fun every => ?_⟩
    obtain ⟨_, _, _, _, line⟩ := every _ (finishTimes_two timing received repeats)
    have deviation := millis_injective (congrArg RttLine.deviation line)
    have negative : (llsqrt (Int64.ofInt (-9223372036854775808))).toInt < 0 := by
      unfold llsqrt
      rw [if_neg (by decide)]
      decide
    rw [times] at deviation
    change (llsqrt (Int64.ofInt (-9223372036854775808))).toInt = _ at deviation
    rw [deviation] at negative
    exact absurd negative (not_lt.mpr (Int.sqrt_nonneg _))
  · have one := added_echo 1 ⟨1000, 5⟩ rfl (by decide) (by decide)
    have two := added_echo 2 ⟨1000, 8⟩ rfl (by decide) (by decide)
    obtain ⟨trips, -, timing, -, -⟩ := answered_eq one two
    refine ⟨trips, fun every => ?_⟩
    have tallied : (answered ⟨1000, 5⟩ ⟨1000, 8⟩ 64).tallied :=
      run_of_along tallied_step initialState_fresh.tallied (answered_sound one two (by decide))
    apply (averages_iff tallied).mp every timing
    rw [trips]
    exact ⟨by decide, 3, by decide⟩
  · have short : ∀ st : State, st.timing = true →
        added st (echo 2 8) ⟨1000, 5⟩ ⟨1000, 5⟩ = none := by
      intro st _
      unfold added
      rw [if_neg]
      rintro ⟨-, complete, -⟩
      exact absurd complete (by decide)
    obtain ⟨trips, times, timing, received, repeats⟩ := answered_eq
      (added_echo 1 ⟨1000, 5⟩ rfl (by decide) (by decide)) short
    refine ⟨trips, fun every => ?_⟩
    obtain ⟨_, _, _, _, line⟩ := every _ (finishTimes_two timing received repeats)
    have average := millis_injective (congrArg RttLine.average line)
    rw [times, trips] at average
    exact absurd average (by decide)

end Baseliner.PingAverages
