import Baseliner.PingStatistics

/-! From a probe to its round-trip time. `ping4_send_probe` stores a `timespec`
in the probe and `build_echo` of ping6 a `timeval`; `main_loop` takes the time
of the reply from a `timespec` or, with `SIOCGSTAMP`, from a `timeval`.
`gather_statistics` reads both as `timespec`. -/

namespace Baseliner.PingRoundTrip
open PingStatistics

/-- An instant of the real-time clock, which counts nanoseconds in 63 bits. -/
structure Instant where
  ns : Nat
  representable : ns < 2 ^ 63
  deriving DecidableEq

structure Timeval where
  tvSec : Int
  tvUsec : Int
  deriving DecidableEq, Repr

/-- The two words of a `timeval`, read as a `timespec`. -/
def Timeval.asTimespec (v : Timeval) : Timespec := ⟨v.tvSec, v.tvUsec⟩

def subsecond (t : Instant) : Nat := t.ns % 1000000000

def clockGettime (t : Instant) : Timespec := ⟨(t.ns / 1000000000 : Nat), subsecond t⟩

/-- `gettimeofday`, and what `SIOCGSTAMP` stores. -/
def gettimeofday (t : Instant) : Timeval :=
  ⟨(t.ns / 1000000000 : Nat), (subsecond t / 1000 : Nat)⟩

/-! ### Senders and sources -/

/-- The stamp bytes of a probe of `ping4_send_probe`. Without `F_LATENCY` they
are zero for the checksum and are filled after it. -/
def ping4SendProbe (timing latency : Bool) (outpack : Timespec) (clock : Instant) : Timespec :=
  let outpack :=
    if timing then if latency then clockGettime clock else ⟨0, 0⟩ else outpack
  if timing && !latency then clockGettime clock else outpack

def buildEcho (timing : Bool) (outpack : Timespec) (clock : Instant) : Timespec :=
  if timing then (gettimeofday clock).asTimespec else outpack

inductive Sender
  | ping4 | ping6
  deriving DecidableEq, Repr

def probeStamp (sender : Sender) (timing latency : Bool) (outpack : Timespec) (clock : Instant) :
    Timespec :=
  match sender with
  | .ping4 => ping4SendProbe timing latency outpack clock
  | .ping6 => buildEcho timing outpack clock

/-- A control message; `timestampns` says that its level is `SOL_SOCKET` and
its type `SO_TIMESTAMPNS`. -/
structure Cmsg where
  timestampns : Bool
  cmsgLen : Nat
  data : Timespec
  deriving DecidableEq

/-- `CMSG_LEN(sizeof(struct timespec))`. -/
def CMSG_LEN : Nat := 32

def recvTimep (cmsgs : List Cmsg) : Option Timespec :=
  cmsgs.foldl (fun timep c =>
    if !c.timestampns then timep else if c.cmsgLen < CMSG_LEN then timep else some c.data) none

/-- What `main_loop` gets with a reply: the control messages, the answer of
`SIOCGSTAMP` if the call succeeds, and the clock. -/
structure Arrival where
  cmsgs : List Cmsg
  siocgstamp : Option Timeval
  clock : Instant

def recvTime (latency : Bool) (a : Arrival) : Timespec :=
  let recvTime :=
    if latency then clockGettime a.clock
    else match a.siocgstamp with
      | some v => v.asTimespec
      | none => clockGettime a.clock
  match recvTimep a.cmsgs with
  | some timep => if latency then recvTime else timep
  | none => recvTime

inductive Source
  | timestampns | siocgstamp | clock
  deriving DecidableEq, Repr

/-- The source that is used for a reply, with the instant that it reports. -/
inductive Supplies (latency : Bool) (a : Arrival) : Source → Instant → Prop
  | timestampns {r : Instant} (option : latency = false)
      (cmsg : recvTimep a.cmsgs = some (clockGettime r)) : Supplies latency a .timestampns r
  | siocgstamp {r : Instant} (option : latency = false) (cmsg : recvTimep a.cmsgs = none)
      (ioctl : a.siocgstamp = some (gettimeofday r)) : Supplies latency a .siocgstamp r
  | option (h : latency = true) : Supplies latency a .clock a.clock
  | fallback (cmsg : recvTimep a.cmsgs = none) (ioctl : a.siocgstamp = none) :
      Supplies latency a .clock a.clock

def resolution : Sender → Source → Nat
  | .ping4, .timestampns => 0
  | .ping4, .clock => 0
  | .ping4, .siocgstamp => 1000
  | .ping6, _ => 1000

/-- The statistics get one round-trip time that is `r - s` up to the resolution. -/
def Measures (st : State) (reply : Reply) (a : Arrival) (now : Instant) (tolerance : Nat)
    (s r : Instant) : Prop :=
  ∃ trip : Int, 0 ≤ trip ∧ trip < 2 ^ 63 ∧
    (gatherStatistics st reply (recvTime st.options.latency a) (clockGettime now)).1.times =
      st.times.add trip ∧
    (trip - ((r.ns : Int) - s.ns)).natAbs ≤ tolerance

/-! ### Misread stamps -/

def misread (t : Instant) : Nat := subsecond t - subsecond t / 1000

theorem clockGettime_nanoseconds (t : Instant) : (clockGettime t).nanoseconds = t.ns := by
  unfold clockGettime Timespec.nanoseconds subsecond
  dsimp only
  omega

theorem gettimeofday_nanoseconds (t : Instant) :
    (gettimeofday t).asTimespec.nanoseconds = t.ns - misread t := by
  unfold gettimeofday Timeval.asTimespec Timespec.nanoseconds misread subsecond
  dsimp only
  omega

theorem misread_le (t : Instant) : misread t ≤ t.ns := by
  unfold misread subsecond
  omega

theorem misread_mono {s r : Instant} (h : s.ns ≤ r.ns) :
    s.ns - misread s ≤ r.ns - misread r := by
  unfold misread subsecond
  omega

/-- The loss of the stamp of a probe, and of the time of a reply. -/
def sentLoss : Sender → Instant → Nat
  | .ping4, _ => 0
  | .ping6, s => misread s

def readLoss : Source → Instant → Nat
  | .siocgstamp, r => misread r
  | .timestampns, _ => 0
  | .clock, _ => 0

theorem probeStamp_nanoseconds (sender : Sender) (latency : Bool) (outpack : Timespec)
    (s : Instant) :
    (probeStamp sender true latency outpack s).nanoseconds = s.ns - sentLoss sender s := by
  cases sender with
  | ping4 =>
      have stamp : ping4SendProbe true latency outpack s = clockGettime s := by
        cases latency <;> rfl
      rw [probeStamp, stamp, clockGettime_nanoseconds, sentLoss]
      omega
  | ping6 => exact gettimeofday_nanoseconds s

theorem recvTime_nanoseconds {latency : Bool} {a : Arrival} {source : Source} {r : Instant}
    (h : Supplies latency a source r) :
    (recvTime latency a).nanoseconds = r.ns - readLoss source r := by
  have exact : ∀ t : Instant, (clockGettime t).nanoseconds = t.ns - (0 : Nat) := by
    intro t
    rw [clockGettime_nanoseconds]
    omega
  cases h with
  | timestampns option cmsg =>
      simp only [recvTime, option, cmsg, Bool.false_eq_true, if_false]
      exact exact r
  | siocgstamp option cmsg ioctl =>
      simp only [recvTime, option, cmsg, ioctl, Bool.false_eq_true, if_false]
      exact gettimeofday_nanoseconds r
  | option h =>
      have clock : recvTime latency a = clockGettime a.clock := by
        unfold recvTime
        cases recvTimep a.cmsgs <;> simp [h]
      rw [clock]
      exact exact a.clock
  | fallback cmsg ioctl =>
      have clock : recvTime latency a = clockGettime a.clock := by
        unfold recvTime
        simp [cmsg, ioctl]
      rw [clock]
      exact exact a.clock

/-! ### The measured time -/

def difference (sender : Sender) (source : Source) (s r : Instant) : Int :=
  ((r.ns : Int) - readLoss source r) - (s.ns - sentLoss sender s)

/-- The time added for a probe sent at `s` and a reply received at `r`, where
`now` is the clock when the reply is restamped. -/
def tripOf (sender : Sender) (source : Source) (s r now : Instant) : Int :=
  if 0 ≤ difference sender source s r then difference sender source s r
  else max 0 ((now.ns : Int) - (s.ns - sentLoss sender s))

theorem sentLoss_le (sender : Sender) (s : Instant) : sentLoss sender s ≤ s.ns := by
  cases sender with
  | ping4 => exact Nat.zero_le _
  | ping6 => exact misread_le s

theorem readLoss_le (source : Source) (r : Instant) : readLoss source r ≤ r.ns := by
  cases source with
  | siocgstamp => exact misread_le r
  | timestampns => exact Nat.zero_le _
  | clock => exact Nat.zero_le _

theorem tripOf_bounds (sender : Sender) (source : Source) (s r now : Instant) :
    0 ≤ tripOf sender source s r now ∧ tripOf sender source s r now < 2 ^ 63 := by
  have rBound := r.representable
  have nowBound := now.representable
  have sLoss := sentLoss_le sender s
  unfold tripOf difference
  split_ifs <;> omega

theorem difference_nonneg {sender : Sender} {source : Source} {s r : Instant}
    (order : s.ns ≤ r.ns) (nanoseconds : source ≠ .siocgstamp) :
    0 ≤ difference sender source s r := by
  have sLoss := sentLoss_le sender s
  unfold difference
  cases source with
  | siocgstamp => exact absurd rfl nanoseconds
  | timestampns | clock =>
      simp only [readLoss]
      omega

theorem restamp_eq {stamp tv : Timespec} {latency : Bool} {sender : Sender} {source : Source}
    {s r now : Instant} (hs : stamp.nanoseconds = s.ns - sentLoss sender s)
    (hr : tv.nanoseconds = r.ns - readLoss source r)
    (option : difference sender source s r < 0 → latency = false) :
    (restamp stamp (clockGettime now) latency tv).1 = tripOf sender source s r now := by
  have sBound := s.representable
  have rBound := r.representable
  have nowBound := now.representable
  have sLoss := sentLoss_le sender s
  have rLoss := readLoss_le source r
  have first : triptime (tvsub tv stamp) = difference sender source s r := by
    unfold difference
    rw [triptime_tvsub (by omega) (by omega), hs, hr]
  have second : triptime (tvsub (clockGettime now) stamp) =
      (now.ns : Int) - (s.ns - sentLoss sender s) := by
    have clock := clockGettime_nanoseconds now
    rw [triptime_tvsub (by omega) (by omega), hs, clock]
  unfold tripOf
  split_ifs with h
  · rw [restamp_of_nonneg latency (by omega), first]
  · rw [option (by omega), restamp_of_neg (by omega), second]

/-- When the misread fields do no harm. A loss of more than a microsecond shows,
unless both stamps lose about the same; and a reply whose misread time is before
its probe is given the time of the clock. -/
def Harmless : Sender → Source → Instant → Instant → Instant → Prop
  | .ping4, .timestampns, _, _, _ => True
  | .ping4, .clock, _, _, _ => True
  | .ping6, .timestampns, s, _, _ => misread s ≤ 1000
  | .ping6, .clock, s, _, _ => misread s ≤ 1000
  | .ping6, .siocgstamp, s, r, _ => ((misread s : Int) - misread r).natAbs ≤ 1000
  | .ping4, .siocgstamp, s, r, now =>
      if misread r ≤ r.ns - s.ns then misread r ≤ 1000
      else ((max s.ns now.ns : Nat) - (r.ns : Int)).natAbs ≤ 1000

theorem ping6_difference_nonneg (source : Source) {s r : Instant} (order : s.ns ≤ r.ns) :
    0 ≤ difference .ping6 source s r := by
  have sLoss := misread_le s
  have rLoss := misread_le r
  have mono := misread_mono order
  unfold difference
  cases source <;> simp only [readLoss, sentLoss] <;> omega

theorem ping4_siocgstamp_harmless_iff {s r now : Instant} (order : s.ns ≤ r.ns) :
    (tripOf .ping4 .siocgstamp s r now - ((r.ns : Int) - s.ns)).natAbs ≤ 1000 ↔
      Harmless .ping4 .siocgstamp s r now := by
  have value : difference .ping4 .siocgstamp s r = (r.ns : Int) - misread r - s.ns := by
    simp only [difference, readLoss, sentLoss]
    omega
  by_cases later : misread r ≤ r.ns - s.ns
  · have kept : tripOf .ping4 .siocgstamp s r now = difference .ping4 .siocgstamp s r :=
      if_pos (by omega)
    rw [kept, value, Harmless, if_pos later]
    omega
  · have clock : tripOf .ping4 .siocgstamp s r now =
        max 0 ((now.ns : Int) - (s.ns - sentLoss .ping4 s)) := if_neg (by omega)
    rw [clock, Harmless, if_neg later, sentLoss]
    omega

theorem tripOf_harmless_iff (sender : Sender) (source : Source) {s r now : Instant}
    (order : s.ns ≤ r.ns) :
    (tripOf sender source s r now - ((r.ns : Int) - s.ns)).natAbs ≤ resolution sender source ↔
      Harmless sender source s r now := by
  have kept (h : 0 ≤ difference sender source s r) :
      tripOf sender source s r now = difference sender source s r := if_pos h
  cases sender with
  | ping4 =>
      cases source with
      | siocgstamp => exact ping4_siocgstamp_harmless_iff order
      | timestampns | clock =>
          rw [kept (difference_nonneg order (by decide))]
          simp only [difference, readLoss, sentLoss, resolution, Harmless, iff_true]
          omega
  | ping6 =>
      rw [kept (ping6_difference_nonneg source order)]
      cases source with
      | siocgstamp | timestampns | clock =>
          simp only [difference, readLoss, sentLoss, resolution, Harmless]
          omega

section Exchange

variable {sender : Sender} {source : Source} {s r : Instant} {st : State} {a : Arrival}
  {latency : Bool} {outpack : Timespec} {reply : Reply}

theorem gathered_times (now : Instant) (order : s.ns ≤ r.ns) (timing : st.timing = true)
    (supplied : Supplies st.options.latency a source r) (complete : 8 + 16 ≤ reply.cc)
    (good : reply.csfailed = false)
    (echoed : reply.stamp = probeStamp sender st.timing latency outpack s) :
    (gatherStatistics st reply (recvTime st.options.latency a) (clockGettime now)).1.times =
      st.times.add (tripOf sender source s r now) := by
  have sent : reply.stamp.nanoseconds = s.ns - sentLoss sender s := by
    rw [echoed, timing, probeStamp_nanoseconds]
  have option : difference sender source s r < 0 → st.options.latency = false := by
    intro negative
    cases supplied with
    | siocgstamp option _ _ => exact option
    | timestampns | option | fallback =>
        exact absurd negative (Int.not_lt.mpr (difference_nonneg order (by decide)))
  rw [gatherStatistics_times _ _ timing complete good,
    restamp_eq sent (recvTime_nanoseconds supplied) option]

end Exchange

/-- The statistics get `r - s` up to the resolution exactly when the misread
fields do no harm. -/
theorem roundTrip_iff (sender : Sender) (source : Source) (s r now : Instant) (order : s.ns ≤ r.ns)
    (st : State) (timing : st.timing = true) (a : Arrival)
    (supplied : Supplies st.options.latency a source r) (latency : Bool) (outpack : Timespec)
    (reply : Reply) (complete : 8 + 16 ≤ reply.cc) (good : reply.csfailed = false)
    (echoed : reply.stamp = probeStamp sender st.timing latency outpack s) :
    Measures st reply a now (resolution sender source) s r ↔ Harmless sender source s r now := by
  have gathered := gathered_times now order timing supplied complete good echoed
  obtain ⟨nonneg, small⟩ := tripOf_bounds sender source s r now
  rw [← tripOf_harmless_iff sender source order]
  constructor
  · rintro ⟨trip, trip_nonneg, trip_small, added, close⟩
    -- no other time gives the same sum
    rw [eq_of_add_eq nonneg small trip_nonneg trip_small (gathered.symm.trans added)]
    exact close
  · intro close
    exact ⟨tripOf sender source s r now, nonneg, small, gathered, close⟩

/-! ### A reply after 100 microseconds, half a second past the second -/

def sampleState : State where
  options := ⟨false, false, false, false⟩
  uid := 0
  timing := true
  datalen := 56
  outpack := []
  ntransmitted := 1
  nreceived := 0
  nrepeats := 0
  nchecksum := 0
  acked := 0
  pipesize := -1
  rcvdTbl := fun _ => false
  times := ⟨2 ^ 63 - 1, 0, 0, 0, 0⟩
  rttAddend := 0
  interval := 1000
  confirm := 0
  confirmFlag := 0x800

def sentAt : Instant := ⟨1500000000, by decide⟩

def receivedAt : Instant := ⟨1500100000, by decide⟩

def stamped : Arrival where
  cmsgs := [⟨true, 32, clockGettime receivedAt⟩]
  siocgstamp := none
  clock := receivedAt

def echo (sender : Sender) : Reply where
  cc := 64
  seq := 1
  hops := 64
  csfailed := false
  stamp := probeStamp sender true false ⟨0, 0⟩ sentAt
  data := []

theorem ping4_measures :
    Measures sampleState (echo .ping4) stamped receivedAt 0 sentAt receivedAt :=
  (roundTrip_iff .ping4 .timestampns sentAt receivedAt receivedAt (by decide) sampleState rfl
    stamped (.timestampns rfl rfl) false ⟨0, 0⟩ (echo .ping4) (by decide) rfl rfl).mpr trivial

/-- ping6 stores 1 s and 500000 µs, which is read back as 500000 ns: 100
microseconds are counted as half a second. -/
theorem ping6_mismeasures :
    Supplies sampleState.options.latency stamped .timestampns receivedAt ∧
      ¬ Measures sampleState (echo .ping6) stamped receivedAt 1000 sentAt receivedAt := by
  have supplied : Supplies sampleState.options.latency stamped .timestampns receivedAt :=
    .timestampns rfl rfl
  have gathered := @gathered_times .ping6 .timestampns sentAt receivedAt sampleState stamped false
    ⟨0, 0⟩ (echo .ping6) receivedAt (by decide) rfl supplied (by decide) rfl rfl
  refine ⟨supplied, ?_⟩
  rintro ⟨trip, nonneg, small, added, close⟩
  have counted : tripOf .ping6 .timestampns sentAt receivedAt receivedAt = 499600000 := by decide
  rw [counted] at gathered
  have same : (499600000 : Int) = trip :=
    eq_of_add_eq (by decide) (by decide) nonneg small (gathered.symm.trans added)
  subst same
  exact absurd close (by decide)

end Baseliner.PingRoundTrip
