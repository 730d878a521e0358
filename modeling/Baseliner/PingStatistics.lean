import Mathlib.Data.List.Basic
import Mathlib.Algebra.Order.Ring.Int
import Mathlib.Tactic.SplitIfs

/-! Reply accounting of the nanosecond ping: `tvsub` and the sequence number
helpers of `ping.h`, `update_interval` and `gather_statistics` of
`ping_common.c`. `long` and `long long` have 64 bits, `int` has 32; signed
overflow wraps. The clock that `gather_statistics` may read is an input. -/

namespace Baseliner.PingStatistics

def wrap (w : Nat) (x : Int) : Int := x.bmod (2 ^ w)

structure Timespec where
  tvSec : Int
  tvNsec : Int
  deriving DecidableEq, Repr

def Timespec.nanoseconds (t : Timespec) : Int := t.tvSec * 1000000000 + t.tvNsec

/-- `out - in`, with a borrow from the seconds when the nanoseconds get negative. -/
def tvsub (out inn : Timespec) : Timespec :=
  if out.tvNsec - inn.tvNsec < 0 then
    ⟨out.tvSec - 1 - inn.tvSec, out.tvNsec - inn.tvNsec + 1000000000⟩
  else ⟨out.tvSec - inn.tvSec, out.tvNsec - inn.tvNsec⟩

/-- The bits of `options` that the accounting reads or sets. -/
structure Options where
  latency : Bool
  adaptive : Bool
  quiet : Bool
  flood : Bool
  deriving DecidableEq, Repr

structure Times where
  tmin : Int
  tmax : Int
  tsum : Int
  tsum2 : Int
  rtt : Int
  deriving DecidableEq, Repr

/-- The global variables. `outpack` is the part of the packet after the time
stamp, `rcvdTbl` the bitmap of received sequence numbers. -/
structure State where
  options : Options
  uid : Nat
  timing : Bool
  datalen : Nat
  outpack : List UInt8
  ntransmitted : Nat
  nreceived : Nat
  nrepeats : Nat
  nchecksum : Nat
  acked : UInt16
  pipesize : Int
  rcvdTbl : UInt16 → Bool
  times : Times
  rttAddend : Int
  interval : Int
  confirm : Nat
  confirmFlag : Nat

def rcvdTest (st : State) (seq : UInt16) : Bool := st.rcvdTbl seq

def rcvdSet (st : State) (seq : UInt16) : State :=
  { st with rcvdTbl := fun bit => bit = seq || st.rcvdTbl bit }

/-- The two differences of `ntransmitted` are different: the first is cut to 16
bits, the last is an `int`. -/
def acknowledge (st : State) (seq : UInt16) : State :=
  let diff : UInt16 := UInt16.ofNat st.ntransmitted - seq
  if diff ≤ 0x7FFF then
    { st with
      pipesize := if (diff.toNat : Int) + 1 > st.pipesize then diff.toNat + 1 else st.pipesize
      acked :=
        if 0 < (seq - st.acked).toInt16 ∨
            ((UInt16.ofNat st.ntransmitted).toNat : Int) - st.acked.toNat > 0x7FFF then seq
        else st.acked }
  else st

def MINUSERINTERVAL : Int := 200

def updateInterval (st : State) : State :=
  let est :=
    if st.times.rtt = 0 then wrap 32 (st.interval * 1000) else wrap 32 (st.times.rtt.tdiv 8)
  let interval := (wrap 32 (est + st.rttAddend + 500)).tdiv 1000
  { st with
    interval := if st.uid ≠ 0 ∧ interval < MINUSERINTERVAL then MINUSERINTERVAL else interval }

@[irreducible] def triptime (tv : Timespec) : Int := wrap 64 tv.nanoseconds

/-- The `restamp` loop: the round-trip time and the new `F_LATENCY`. A negative
time is counted as 0, but without `F_LATENCY` the clock is read into `tv` first
and the option is set before the jump back. -/
def restamp (tmpTv now : Timespec) (latency : Bool) (tv : Timespec) : Int × Bool :=
  if triptime (tvsub tv tmpTv) < 0 then
    if latency then (0, true) else restamp tmpTv now true now
  else (triptime (tvsub tv tmpTv), latency)
termination_by if latency then 0 else 1
decreasing_by simp_all

/-- The sums are unsigned, the extremes and the average are signed. -/
def Times.add (t : Times) (triptime : Int) : Times where
  tsum := (t.tsum + triptime) % 2 ^ 64
  tsum2 := (t.tsum2 + triptime * triptime) % 2 ^ 64
  tmin := if triptime < t.tmin then triptime else t.tmin
  tmax := if triptime > t.tmax then triptime else t.tmax
  rtt :=
    if t.rtt = 0 then wrap 64 (triptime * 8)
    else wrap 64 (t.rtt + (triptime - t.rtt.tdiv 8))

def addTriptime (st : State) (triptime : Int) : State :=
  let st := { st with times := st.times.add triptime }
  if st.options.adaptive then updateInterval st else st

/-- An echo reply. `stamp` is the first sixteen bytes of its payload read as a
`struct timespec`, `data` the bytes after them. -/
structure Reply where
  cc : Nat
  seq : UInt16
  hops : Int
  csfailed : Bool
  stamp : Timespec
  data : List UInt8
  deriving DecidableEq

def gatherTiming (st : State) (reply : Reply) (tv now : Timespec) : State × Int :=
  if st.timing ∧ 8 + 16 ≤ reply.cc then
    let (triptime, latency) := restamp reply.stamp now st.options.latency tv
    let st := { st with options := { st.options with latency := latency } }
    (if reply.csfailed then st else addTriptime st triptime, triptime)
  else (st, 0)

/-- The counting of the reply after the timing block, and its `dupflag`. -/
def gatherCount (st : State) (reply : Reply) : State × Bool :=
  if reply.csfailed then
    ({ st with nchecksum := st.nchecksum + 1, nreceived := st.nreceived - 1 }, false)
  else if rcvdTest st reply.seq then
    ({ st with nrepeats := st.nrepeats + 1, nreceived := st.nreceived - 1 }, true)
  else (rcvdSet st reply.seq, false)

/-- The first byte of the reply that differs from the one sent: its index, what
it should be and what it is. -/
def wrongData (st : State) (reply : Reply) : Option (Nat × UInt8 × UInt8) :=
  (((reply.data.zip st.outpack).take (st.datalen - 16)).zipIdx 16).findSome? fun ((cp, dp), i) =>
    if cp ≠ dp then some (i, dp, cp) else none

/-- What is printed for a reply, less its address and its kind. -/
inductive Report
  | quiet
  | flood (csfailed : Bool)
  | truncated (cc : Nat) (ttl : Option Int)
  | line (cc : Nat) (ttl : Option Int) (time : Option (Int × Int)) (dup csfailed : Bool)
      (wrong : Option (Nat × UInt8 × UInt8))
  deriving DecidableEq

def Report.value : Report → Nat
  | .quiet | .truncated .. => 1
  | .flood _ | .line .. => 0

def report (st : State) (reply : Reply) (triptime : Int) (dupflag : Bool) : Report :=
  let ttl := if reply.hops ≥ 0 then some reply.hops else none
  if st.options.quiet then .quiet
  else if st.options.flood then .flood reply.csfailed
  else if reply.cc < st.datalen + 8 then .truncated reply.cc ttl
  else .line reply.cc ttl
    (if st.timing then some (triptime.tdiv 1000000, triptime.tmod 1000000) else none)
    dupflag reply.csfailed (wrongData st reply)

def gatherStatistics (st : State) (reply : Reply) (tv now : Timespec) : State × Report :=
  let st := { st with nreceived := st.nreceived + 1 }
  let st := if reply.csfailed then st else acknowledge st reply.seq
  let (st, triptime) := gatherTiming st reply tv now
  let (st, dupflag) := gatherCount st reply
  let st := { st with confirm := st.confirmFlag }
  (st, report st reply triptime dupflag)

/-- The state before the timing block: `nreceived` is raised and a good reply
acknowledged. -/
def noted (st : State) (reply : Reply) : State :=
  if reply.csfailed then { st with nreceived := st.nreceived + 1 }
  else acknowledge { st with nreceived := st.nreceived + 1 } reply.seq

def confirmed (st : State) : State := { st with confirm := st.confirmFlag }

theorem gatherStatistics_state (st : State) (reply : Reply) (tv now : Timespec) :
    (gatherStatistics st reply tv now).1 =
      confirmed (gatherCount (gatherTiming (noted st reply) reply tv now).1 reply).1 := rfl

/-! ### The measured time -/

theorem wrap_eq_self {w : Nat} {x : Int} (low : -(2 ^ w) ≤ x * 2) (high : x * 2 < 2 ^ w) :
    wrap w x = x :=
  Int.bmod_eq_of_le_mul_two (by push_cast; omega) (by push_cast; omega)

theorem wrap32_of_fits {x : Int} (low : -2 ^ 31 ≤ x) (high : x < 2 ^ 31) : wrap 32 x = x :=
  wrap_eq_self (by omega) (by omega)

theorem tvsub_nanoseconds (out inn : Timespec) :
    (tvsub out inn).nanoseconds = out.nanoseconds - inn.nanoseconds := by
  unfold tvsub Timespec.nanoseconds
  split_ifs
  · dsimp only
    omega
  · dsimp only
    omega

theorem triptime_tvsub {out inn : Timespec}
    (low : -(2 ^ 63) ≤ out.nanoseconds - inn.nanoseconds)
    (high : out.nanoseconds - inn.nanoseconds < 2 ^ 63) :
    triptime (tvsub out inn) = out.nanoseconds - inn.nanoseconds := by
  rw [triptime, tvsub_nanoseconds]
  exact wrap_eq_self (by omega) (by omega)

theorem restamp_of_nonneg {tmpTv now tv : Timespec} (latency : Bool)
    (h : 0 ≤ triptime (tvsub tv tmpTv)) :
    restamp tmpTv now latency tv = (triptime (tvsub tv tmpTv), latency) := by
  rw [restamp, if_neg (by omega)]

theorem restamp_latency (tmpTv now tv : Timespec) :
    restamp tmpTv now true tv = (max 0 (triptime (tvsub tv tmpTv)), true) := by
  by_cases h : triptime (tvsub tv tmpTv) < 0
  · rw [restamp, if_pos h, Int.max_eq_left (by omega)]
    rfl
  · rw [restamp_of_nonneg true (by omega), Int.max_eq_right (by omega)]

/-- After a negative time the clock decides, and a clock that is behind too
counts as 0. -/
theorem restamp_of_neg {tmpTv now tv : Timespec} (h : triptime (tvsub tv tmpTv) < 0) :
    restamp tmpTv now false tv = (max 0 (triptime (tvsub now tmpTv)), true) := by
  rw [restamp, if_pos h, if_neg Bool.false_ne_true, restamp_latency]

/-! ### The statistics -/

/-! What each stage changes; the other variables stay. -/

theorem acknowledge_eq (st : State) (seq : UInt16) :
    ∃ pipesize acked, acknowledge st seq = { st with pipesize := pipesize, acked := acked } := by
  unfold acknowledge
  dsimp only
  split
  · exact ⟨_, _, rfl⟩
  · exact ⟨st.pipesize, st.acked, rfl⟩

theorem noted_eq (st : State) (reply : Reply) :
    ∃ pipesize acked, noted st reply =
      { st with nreceived := st.nreceived + 1, pipesize := pipesize, acked := acked } := by
  unfold noted
  split
  · exact ⟨st.pipesize, st.acked, rfl⟩
  · exact acknowledge_eq { st with nreceived := st.nreceived + 1 } reply.seq

theorem addTriptime_eq (st : State) (triptime : Int) :
    ∃ interval, addTriptime st triptime =
      { st with times := st.times.add triptime, interval := interval } := by
  unfold addTriptime updateInterval
  dsimp only
  split
  · exact ⟨_, rfl⟩
  · exact ⟨st.interval, rfl⟩

theorem gatherTiming_eq (st : State) (reply : Reply) (tv now : Timespec) :
    ∃ latency times interval, (gatherTiming st reply tv now).1 =
      { st with
        options := { st.options with latency := latency }
        times := times
        interval := interval } := by
  unfold gatherTiming
  split
  · dsimp only
    split
    · exact ⟨_, st.times, st.interval, rfl⟩
    · obtain ⟨interval, eq⟩ := addTriptime_eq { st with options := { st.options with
        latency := (restamp reply.stamp now st.options.latency tv).2 } }
        (restamp reply.stamp now st.options.latency tv).1
      exact ⟨_, _, interval, eq⟩
  · exact ⟨st.options.latency, st.times, st.interval, rfl⟩

theorem gatherCount_eq (st : State) (reply : Reply) :
    ∃ nreceived nrepeats nchecksum rcvdTbl, (gatherCount st reply).1 =
      { st with
        nreceived := nreceived
        nrepeats := nrepeats
        nchecksum := nchecksum
        rcvdTbl := rcvdTbl } := by
  unfold gatherCount
  split
  · exact ⟨_, st.nrepeats, _, st.rcvdTbl, rfl⟩
  · split
    · exact ⟨_, _, st.nchecksum, st.rcvdTbl, rfl⟩
    · exact ⟨st.nreceived, st.nrepeats, st.nchecksum, _, rfl⟩

theorem gatherCount_times (st : State) (reply : Reply) :
    (gatherCount st reply).1.times = st.times := by
  obtain ⟨_, _, _, _, eq⟩ := gatherCount_eq st reply
  rw [eq]

theorem gatherTiming_times {st : State} {reply : Reply} (tv now : Timespec)
    (timing : st.timing = true) (complete : 8 + 16 ≤ reply.cc) (good : reply.csfailed = false) :
    (gatherTiming st reply tv now).1.times =
      st.times.add (restamp reply.stamp now st.options.latency tv).1 := by
  unfold gatherTiming
  rw [if_pos ⟨timing, complete⟩]
  simp only [good, Bool.false_eq_true, if_false]
  obtain ⟨_, eq⟩ := addTriptime_eq { st with options := { st.options with
    latency := (restamp reply.stamp now st.options.latency tv).2 } }
    (restamp reply.stamp now st.options.latency tv).1
  rw [eq]

theorem gatherStatistics_times {st : State} {reply : Reply} (tv now : Timespec)
    (timing : st.timing = true) (complete : 8 + 16 ≤ reply.cc) (good : reply.csfailed = false) :
    (gatherStatistics st reply tv now).1.times =
      st.times.add (restamp reply.stamp now st.options.latency tv).1 := by
  obtain ⟨_, _, note⟩ := noted_eq st reply
  rw [gatherStatistics_state]
  change (gatherCount _ reply).1.times = _
  rw [gatherCount_times, note]
  exact gatherTiming_times tv now timing complete good

theorem eq_of_add_eq {t : Times} {x y : Int} (hx : 0 ≤ x) (hx' : x < 2 ^ 63) (hy : 0 ≤ y)
    (hy' : y < 2 ^ 63) (h : t.add x = t.add y) : x = y := by
  have sums : (t.tsum + x) % 2 ^ 64 = (t.tsum + y) % 2 ^ 64 := congrArg Times.tsum h
  omega

end Baseliner.PingStatistics
