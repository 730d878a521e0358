import Baseliner.PingStatistics

/-! The units of the adaptive interval and of the wait before the exit. The round-trip times
are nanoseconds; `update_interval` and `__schedule_exit` read them as microseconds, and the sum
of the first is an `int`. Each is compared with the value in the right unit. -/

namespace Baseliner.PingIntervalUnits

open PingStatistics

/-- The conversion to `unsigned long`. -/
def ulong (x : Int) : ℕ := (x % 2 ^ 64).toNat

/-- `next`, the static `waittime` and the value of the timer, if it is set. -/
structure ExitPlan where
  next : Int
  waittime : ℕ
  timer : Option (ℕ × ℕ)

def scheduleExit (lingertime : Int) (waittime : ℕ) (st : State) (next : Int) : ExitPlan :=
  if waittime ≠ 0 then ⟨next, waittime, none⟩
  else
    let least := ulong (wrap 32 (1000 * st.interval))
    let waittime :=
      if st.nreceived ≠ 0 then
        if ulong (2 * st.times.tmax) < least then least else ulong (2 * st.times.tmax)
      else ulong (wrap 32 (lingertime * 1000))
    { next :=
        if next < 0 ∨ next.toNat < waittime / 1000 then wrap 32 (waittime / 1000 : ℕ) else next
      waittime
      timer := some (waittime / 1000000, waittime % 1000000) }

def gather (st : State) (reply : Int × Int) : State :=
  addTriptime { st with rttAddend := reply.2 } reply.1

/-! ### The interval -/

def estimate (st : State) : Int := st.times.rtt / 8

/-- The average and the addend in milliseconds, rounded, and not below the least one a user
may have. -/
def rightInterval (st : State) : Int :=
  let millis := (estimate st + 1000 * st.rttAddend + 500000) / 1000000
  if st.uid ≠ 0 ∧ millis < MINUSERINTERVAL then MINUSERINTERVAL else millis

/-- The windows of the average and the addend: the sum is the right one up to `k` turns of an
`int` and the rest of a millisecond. Without a turn the average is 1000 nanoseconds at most; one
turn takes an average of about 4.3 seconds, two take one of about 8.6. -/
def AverageWindow (k average addend : Int) : Prop :=
  average + addend + 500 < 2 ^ 31 + k * 2 ^ 32 ∧
    k * 2 ^ 32 ≤ average - average / 1000 + (average / 1000 + addend + 500) % 1000 ∧
    average - average / 1000 + (average / 1000 + addend + 500) % 1000 < k * 2 ^ 32 + 1000

/-- The same with the interval in place of an average that is 0: it is 0, or about `k` turns of
microseconds. A sum just below a turn is rounded up. -/
def IntervalWindow (k interval addend : Int) : Prop :=
  1000 * interval + addend + 500 < 2 ^ 31 + k * 2 ^ 32 ∧
    (k * 2 ^ 32 ≤ 1000 * interval + (addend + 500) % 1000 ∧
        1000 * interval + (addend + 500) % 1000 < k * 2 ^ 32 + 1000 ∨
      addend < 500 ∧ k * 2 ^ 32 - 1000 < 1000 * interval + addend + 500 ∧
        1000 * interval + addend + 500 < k * 2 ^ 32)

/-- Either the user's least interval hides what is added too much, or it is one of the windows. -/
def IntervalCondition (st : State) : Prop :=
  if st.times.rtt = 0 then
    (st.uid ≠ 0 ∧ st.rttAddend < 200500 ∧ ∃ k, 0 ≤ k ∧
        k * 2 ^ 32 - 2 ^ 31 ≤ 1000 * st.interval + st.rttAddend + 500 ∧
        1000 * st.interval + st.rttAddend < k * 2 ^ 32 + 200500) ∨
      ∃ k, 0 ≤ k ∧ IntervalWindow k st.interval st.rttAddend
  else
    (st.uid ≠ 0 ∧ estimate st + st.rttAddend < 200500) ∨
      ∃ k, 0 ≤ k ∧ AverageWindow k (estimate st) st.rttAddend

structure Gathered (st : State) : Prop where
  rtt : 0 ≤ st.times.rtt ∧ st.times.rtt ≤ 80000000000
  tmax : 0 ≤ st.times.tmax ∧ st.times.tmax ≤ 10000000000
  interval : -2147483 ≤ st.interval ∧ st.interval < 2 ^ 31

variable {st : State}

theorem tdiv_of_neg {x : Int} (negative : x < 0) : x.tdiv 1000 = -(-x / 1000) := by
  rw [← Int.tdiv_eq_ediv_of_nonneg (by omega), Int.neg_tdiv, Int.neg_neg]

def summed (st : State) : Int :=
  (if st.times.rtt = 0 then 1000 * st.interval else estimate st) + st.rttAddend + 500

def rightSummed (st : State) : Int := estimate st / 1000 + st.rttAddend + 500

theorem estimate_nonneg (h : Gathered st) : 0 ≤ estimate st := Int.ediv_nonneg h.rtt.1 (by decide)

theorem estimate_zero (none_ : st.times.rtt = 0) : estimate st = 0 := by
  rw [estimate, none_]
  rfl

theorem updateInterval_interval (h : Gathered st) :
    (updateInterval st).interval =
      if st.uid ≠ 0 ∧ (wrap 32 (summed st)).tdiv 1000 < MINUSERINTERVAL then MINUSERINTERVAL
      else (wrap 32 (summed st)).tdiv 1000 := by
  have eighth : st.times.rtt.tdiv 8 = estimate st := Int.tdiv_eq_ediv_of_nonneg h.rtt.1
  have sum : wrap 32 ((if st.times.rtt = 0 then wrap 32 (st.interval * 1000)
      else wrap 32 (st.times.rtt.tdiv 8)) + st.rttAddend + 500) = wrap 32 (summed st) := by
    rw [summed, eighth, Int.mul_comm st.interval, Int.add_assoc, Int.add_assoc]
    split_ifs <;> exact Int.bmod_add_bmod
  simp only [updateInterval, sum]

theorem rightInterval_eq (st : State) :
    rightInterval st =
      if st.uid ≠ 0 ∧ rightSummed st / 1000 < MINUSERINTERVAL then MINUSERINTERVAL
      else rightSummed st / 1000 := by
  have millis : (estimate st + 1000 * st.rttAddend + 500000) / 1000000 =
      rightSummed st / 1000 := by
    rw [rightSummed]
    omega
  simp only [rightInterval, millis]

theorem turns_of_summed (h : Gathered st) (addend : 0 ≤ st.rttAddend) :
    ∃ k, 0 ≤ k ∧ wrap 32 (summed st) = summed st - k * 2 ^ 32 ∧
      -2 ^ 31 ≤ wrap 32 (summed st) ∧ wrap 32 (summed st) < 2 ^ 31 := by
  have average := estimate_nonneg h
  have interval := h.interval
  have low : -2147483000 ≤ summed st := by
    rw [summed]
    split_ifs <;> omega
  have least : -2 ^ 31 ≤ wrap 32 (summed st) := Int.le_bmod (by decide)
  have most : wrap 32 (summed st) < 2 ^ 31 := Int.bmod_lt (by decide)
  obtain ⟨k, round⟩ : (4294967296 : Int) ∣ summed st - wrap 32 (summed st) :=
    Int.dvd_self_sub_bmod
  exact ⟨k, by omega, by omega, least, most⟩

theorem millis_eq_iff_average (h : Gathered st) (addend : 0 ≤ st.rttAddend)
    (some_ : st.times.rtt ≠ 0) :
    (wrap 32 (summed st)).tdiv 1000 = rightSummed st / 1000 ↔
      ∃ k, 0 ≤ k ∧ AverageWindow k (estimate st) st.rttAddend := by
  obtain ⟨k, turns, sum, low, high⟩ := turns_of_summed h addend
  have average := estimate_nonneg h
  rw [summed, if_neg some_] at sum low high ⊢
  simp only [rightSummed, AverageWindow]
  constructor
  · intro same
    refine ⟨k, turns, ?_⟩
    by_cases negative : wrap 32 (estimate st + st.rttAddend + 500) < 0
    · rw [tdiv_of_neg negative] at same
      omega
    · rw [Int.tdiv_eq_ediv_of_nonneg (by omega)] at same
      omega
  · rintro ⟨k', turns', room, least, most⟩
    have same : k' = k := by omega
    rw [Int.tdiv_eq_ediv_of_nonneg (by omega)]
    omega

theorem millis_eq_iff_interval (h : Gathered st) (addend : 0 ≤ st.rttAddend)
    (none_ : st.times.rtt = 0) :
    (wrap 32 (summed st)).tdiv 1000 = rightSummed st / 1000 ↔
      ∃ k, 0 ≤ k ∧ IntervalWindow k st.interval st.rttAddend := by
  obtain ⟨k, turns, sum, low, high⟩ := turns_of_summed h addend
  rw [summed, if_pos none_] at sum low high ⊢
  simp only [rightSummed, estimate_zero none_, IntervalWindow]
  constructor
  · intro same
    refine ⟨k, turns, ?_⟩
    by_cases negative : wrap 32 (1000 * st.interval + st.rttAddend + 500) < 0
    · rw [tdiv_of_neg negative] at same
      omega
    · rw [Int.tdiv_eq_ediv_of_nonneg (by omega)] at same
      omega
  · rintro ⟨k', turns', room, window⟩
    have same : k' = k := by omega
    by_cases negative : wrap 32 (1000 * st.interval + st.rttAddend + 500) < 0
    · rw [tdiv_of_neg negative]
      omega
    · rw [Int.tdiv_eq_ediv_of_nonneg (by omega)]
      omega

theorem tdiv_le_iff {x : Int} : x.tdiv 1000 ≤ MINUSERINTERVAL ↔ x < 201000 := by
  rw [MINUSERINTERVAL]
  by_cases negative : x < 0
  · rw [tdiv_of_neg negative]
    omega
  · rw [Int.tdiv_eq_ediv_of_nonneg (by omega)]
    omega

theorem raised_eq_iff {raise : Prop} [Decidable raise] {x y : Int} :
    (if raise ∧ x < MINUSERINTERVAL then MINUSERINTERVAL else x) =
        (if raise ∧ y < MINUSERINTERVAL then MINUSERINTERVAL else y) ↔
      (raise ∧ x ≤ MINUSERINTERVAL ∧ y ≤ MINUSERINTERVAL) ∨ x = y := by
  by_cases h : raise
  · simp only [h, true_and]
    split_ifs <;> omega
  · simp only [h, false_and, if_false, false_or]

theorem updateInterval_right_iff (h : Gathered st) (addend : 0 ≤ st.rttAddend) :
    (updateInterval st).interval = rightInterval st ↔ IntervalCondition st := by
  have user : rightSummed st / 1000 ≤ MINUSERINTERVAL ↔ rightSummed st < 201000 := by
    rw [MINUSERINTERVAL]
    omega
  have average := estimate_nonneg h
  obtain ⟨k, turns, sum, low, high⟩ := turns_of_summed h addend
  rw [updateInterval_interval h, rightInterval_eq, raised_eq_iff, tdiv_le_iff, user,
    IntervalCondition]
  split_ifs with none_
  · rw [millis_eq_iff_interval h addend none_]
    refine or_congr_left (and_congr_right fun _ => ?_)
    rw [summed, if_pos none_] at sum low high ⊢
    rw [rightSummed, estimate_zero none_]
    constructor
    · rintro ⟨small, right⟩
      exact ⟨by omega, k, turns, by omega, by omega⟩
    · rintro ⟨right, k', turns', least, most⟩
      exact ⟨by omega, by omega⟩
  · rw [millis_eq_iff_average h addend none_]
    refine or_congr_left (and_congr_right fun _ => ?_)
    rw [summed, if_neg none_] at sum low high ⊢
    rw [rightSummed]
    omega

/-! ### The wait -/

/-- The timer is set to the duration in nanoseconds, but for less than a microsecond. -/
def ArmedFor (plan : ExitPlan) (nanos : Int) : Prop :=
  ∃ sec usec, plan.timer = some (sec, usec) ∧ usec < 1000000 ∧
    -1000 < 1000 * (1000000 * (sec : Int) + usec) - nanos ∧
    1000 * (1000000 * (sec : Int) + usec) - nanos < 1000

def rightWait (st : State) : Int := max (2 * st.times.tmax) (1000000 * st.interval)

/-- The interval decides, also with nanoseconds for microseconds; one whose product overflows
must be the very same. -/
def WaitCondition (st : State) : Prop :=
  1000 * st.interval % 2 ^ 32 < 2 ^ 31 ∧
    if 1000 * st.interval < 2 ^ 31 then 2 * st.times.tmax ≤ 1000 * st.interval
    else 2 * st.times.tmax = 1000 * st.interval

theorem armedFor_iff {plan : ExitPlan} {w : ℕ} {nanos : Int}
    (set : plan.timer = some (w / 1000000, w % 1000000)) :
    ArmedFor plan nanos ↔ -1000 < 1000 * (w : Int) - nanos ∧ 1000 * (w : Int) - nanos < 1000 := by
  constructor
  · rintro ⟨sec, usec, set', small, low, high⟩
    obtain ⟨rfl, rfl⟩ := Prod.mk.inj (Option.some.inj (set.symm.trans set'))
    omega
  · intro near
    exact ⟨w / 1000000, w % 1000000, set, by omega, by omega, by omega⟩

def waited (st : State) : ℕ :=
  if ulong (2 * st.times.tmax) < ulong (wrap 32 (1000 * st.interval)) then
    ulong (wrap 32 (1000 * st.interval))
  else ulong (2 * st.times.tmax)

theorem scheduleExit_timer (received : st.nreceived ≠ 0) (lingertime next : Int) :
    (scheduleExit lingertime 0 st next).timer =
      some (waited st / 1000000, waited st % 1000000) := by
  simp only [scheduleExit, ne_eq, not_true, if_false, received, not_false_eq_true, if_true]
  rfl

theorem ulong_of_nonneg {x : Int} (nonneg : 0 ≤ x) (small : x < 2 ^ 64) : (ulong x : Int) = x := by
  rw [ulong, Int.emod_eq_of_lt nonneg small, Int.toNat_of_nonneg nonneg]

theorem lower_half_iff (x : Int) : x % 2 ^ 32 < 2 ^ 31 ↔ 0 ≤ wrap 32 x := by
  have low : -2 ^ 31 ≤ wrap 32 x := Int.le_bmod (by decide)
  have high : wrap 32 x < 2 ^ 31 := Int.bmod_lt (by decide)
  have same : wrap 32 x % 2 ^ 32 = x % 2 ^ 32 := Int.bmod_emod
  omega

theorem scheduleExit_right_iff (h : Gathered st) (received : st.nreceived ≠ 0)
    (lingertime next : Int) :
    ArmedFor (scheduleExit lingertime 0 st next) (rightWait st) ↔ WaitCondition st := by
  have longest : (ulong (2 * st.times.tmax) : Int) = 2 * st.times.tmax :=
    ulong_of_nonneg (by have := h.tmax; omega) (by have := h.tmax; omega)
  have low : -2 ^ 31 ≤ wrap 32 (1000 * st.interval) := Int.le_bmod (by decide)
  have high : wrap 32 (1000 * st.interval) < 2 ^ 31 := Int.bmod_lt (by decide)
  have times := h.tmax
  have range := h.interval
  rw [armedFor_iff (scheduleExit_timer received lingertime next), waited, rightWait,
    WaitCondition, lower_half_iff]
  by_cases negative : wrap 32 (1000 * st.interval) < 0
  · -- a negative product is a huge unsigned number
    have huge : (ulong (wrap 32 (1000 * st.interval)) : Int) =
        2 ^ 64 + wrap 32 (1000 * st.interval) := by
      rw [ulong]
      omega
    rw [if_pos (by omega), huge]
    omega
  · have product := ulong_of_nonneg (x := wrap 32 (1000 * st.interval)) (by omega) (by omega)
    by_cases fits : 1000 * st.interval < 2 ^ 31
    · rw [wrap32_of_fits (by omega) fits] at product negative ⊢
      rw [if_pos fits]
      split_ifs <;> omega
    · -- a product that has come round is below the interval by the whole range
      obtain ⟨turns, round⟩ : (4294967296 : Int) ∣
          1000 * st.interval - wrap 32 (1000 * st.interval) := Int.dvd_self_sub_bmod
      rw [if_neg fits]
      split_ifs <;> omega

/-! ### Runs of replies -/

structure InRange (reply : Int × Int) : Prop where
  time : 0 ≤ reply.1 ∧ reply.1 ≤ 10000000000
  addend : 0 ≤ reply.2 ∧ reply.2 < 2 ^ 31

def timed (st : State) (reply : Int × Int) : State :=
  { st with rttAddend := reply.2, times := st.times.add reply.1 }

theorem gather_eq (st : State) (reply : Int × Int) :
    gather st reply =
      if st.options.adaptive then updateInterval (timed st reply) else timed st reply := rfl

theorem wrap64_of_small {x : Int} (low : 0 ≤ x) (high : x ≤ 80000000000) : wrap 64 x = x :=
  Int.bmod_eq_of_le_mul_two (by push_cast; omega) (by push_cast; omega)

theorem timed_gathered (h : Gathered st) {reply : Int × Int} (range : InRange reply) :
    Gathered (timed st reply) := by
  have time := range.time
  have rtt := h.rtt
  have tmax := h.tmax
  refine ⟨?_, ?_, h.interval⟩
  · change 0 ≤ (st.times.add reply.1).rtt ∧ (st.times.add reply.1).rtt ≤ _
    rw [Times.add]
    dsimp only
    split_ifs
    · rw [wrap64_of_small (by omega) (by omega)]
      omega
    · rw [Int.tdiv_eq_ediv_of_nonneg rtt.1, wrap64_of_small (by omega) (by omega)]
      omega
  · change 0 ≤ (st.times.add reply.1).tmax ∧ (st.times.add reply.1).tmax ≤ _
    rw [Times.add]
    dsimp only
    split_ifs <;> omega

theorem updateInterval_gathered (h : Gathered st) : Gathered (updateInterval st) := by
  refine ⟨h.rtt, h.tmax, ?_⟩
  have low : -2 ^ 31 ≤ wrap 32 (summed st) := Int.le_bmod (by decide)
  have high : wrap 32 (summed st) < 2 ^ 31 := Int.bmod_lt (by decide)
  have quotient : -2147483 ≤ (wrap 32 (summed st)).tdiv 1000 ∧
      (wrap 32 (summed st)).tdiv 1000 < 2 ^ 31 := by
    by_cases negative : wrap 32 (summed st) < 0
    · rw [tdiv_of_neg negative]
      omega
    · rw [Int.tdiv_eq_ediv_of_nonneg (by omega)]
      omega
  rw [updateInterval_interval h, MINUSERINTERVAL]
  split_ifs <;> omega

theorem gather_gathered (h : Gathered st) {reply : Int × Int} (range : InRange reply) :
    Gathered (gather st reply) := by
  rw [gather_eq]
  split_ifs
  · exact updateInterval_gathered (timed_gathered h range)
  · exact timed_gathered h range

structure Kept (st st' : State) : Prop where
  adaptive : st'.options.adaptive = st.options.adaptive
  nreceived : st'.nreceived = st.nreceived

theorem gather_kept (st : State) (reply : Int × Int) : Kept st (gather st reply) := by
  rw [gather_eq]
  split_ifs <;> exact ⟨rfl, rfl⟩

theorem gathers_spec (h : Gathered st) {replies : List (Int × Int)}
    (ranges : ∀ reply ∈ replies, InRange reply) :
    Gathered (replies.foldl gather st) ∧ Kept st (replies.foldl gather st) := by
  induction replies generalizing st with
  | nil => exact ⟨h, rfl, rfl⟩
  | cons reply replies ih =>
      rw [List.forall_mem_cons] at ranges
      have first := gather_kept st reply
      obtain ⟨bounds, kept⟩ := ih (gather_gathered h ranges.1) ranges.2
      exact ⟨bounds, kept.adaptive.trans first.adaptive, kept.nreceived.trans first.nreceived⟩

theorem rightInterval_nonneg (h : Gathered st) (addend : 0 ≤ st.rttAddend) :
    0 ≤ rightInterval st := by
  have average : 0 ≤ estimate st := Int.ediv_nonneg h.rtt.1 (by decide)
  rw [rightInterval, MINUSERINTERVAL]
  split_ifs <;> omega

/-- After any replies the interval is the right one, and the wait for the exit is, exactly under
their conditions on the state before. -/
theorem units_right_iff (st : State) (h : Gathered st) (replies : List (Int × Int))
    (reply : Int × Int) (ranges : ∀ r ∈ replies, InRange r) (range : InRange reply)
    (lingertime next : Int) :
    (st.options.adaptive = true →
      ((0 ≤ (gather (replies.foldl gather st) reply).interval ∧
          (gather (replies.foldl gather st) reply).interval =
            rightInterval (timed (replies.foldl gather st) reply)) ↔
        IntervalCondition (timed (replies.foldl gather st) reply))) ∧
    (st.nreceived ≠ 0 →
      (ArmedFor (scheduleExit lingertime 0 (gather (replies.foldl gather st) reply) next)
          (rightWait (gather (replies.foldl gather st) reply)) ↔
        WaitCondition (gather (replies.foldl gather st) reply))) := by
  obtain ⟨bounds, kept⟩ := gathers_spec h ranges
  have step := timed_gathered bounds range
  constructor
  · intro adaptive
    rw [gather_eq, if_pos (kept.adaptive.trans adaptive),
      ← updateInterval_right_iff step range.addend.1]
    refine and_iff_right_of_imp fun right => ?_
    rw [right]
    exact rightInterval_nonneg step range.addend.1
  · intro received
    refine scheduleExit_right_iff (gather_gathered bounds range) ?_ lingertime next
    rw [(gather_kept _ reply).nreceived, kept.nreceived]
    exact received

def adaptiveState (uid : ℕ) : State where
  options := ⟨false, true, false, false⟩
  uid := uid
  timing := true
  datalen := 56
  outpack := []
  ntransmitted := 1
  nreceived := 1
  nrepeats := 0
  nchecksum := 0
  acked := 1
  pipesize := 1
  rcvdTbl := fun _ => false
  times := ⟨2 ^ 63 - 1, 0, 0, 0, 0⟩
  rttAddend := 0
  interval := 1000
  confirm := 0
  confirmFlag := 0

theorem adaptiveState_gathered (uid : ℕ) : Gathered (adaptiveState uid) :=
  ⟨by simp [adaptiveState], by simp [adaptiveState], by simp [adaptiveState]⟩

/-- A time of 50 microseconds, for a user: an interval of 200 and a wait of 200 milliseconds. -/
theorem units_right_user :
    (gather (adaptiveState 1000) (50000, 0)).interval =
        rightInterval (timed (adaptiveState 1000) (50000, 0)) ∧
      ArmedFor (scheduleExit 10000 0 (gather (adaptiveState 1000) (50000, 0)) 10)
        (rightWait (gather (adaptiveState 1000) (50000, 0))) := by
  have both := units_right_iff (adaptiveState 1000) (adaptiveState_gathered 1000) [] (50000, 0)
    (fun _ none_ => nomatch none_) ⟨by decide, by decide⟩ 10000 10
  refine ⟨((both.1 rfl).mpr ?_).2, (both.2 (by decide)).mpr ⟨?_, ?_⟩⟩
  · rw [IntervalCondition, if_neg (by decide)]
    exact .inl (by decide)
  · decide
  · decide

/-- A time of 100 milliseconds: an interval of 100 seconds, and a wait of 200 seconds. -/
theorem nanoseconds_as_microseconds :
    (gather (adaptiveState 0) (100000000, 0)).interval = 100000 ∧
      rightInterval (timed (adaptiveState 0) (100000000, 0)) = 100 ∧
      (scheduleExit 10000 0 (gather (adaptiveState 0) (100000000, 0)) 10).timer =
        some (200, 0) ∧
      ¬ ArmedFor (scheduleExit 10000 0 (gather (adaptiveState 0) (100000000, 0)) 10)
        (rightWait (gather (adaptiveState 0) (100000000, 0))) := by
  refine ⟨by decide, by decide, by decide, ?_⟩
  rw [scheduleExit_right_iff (gather_gathered (adaptiveState_gathered 0) ⟨by decide, by decide⟩)
    (by decide)]
  rintro ⟨_, short⟩
  revert short
  decide

end Baseliner.PingIntervalUnits
