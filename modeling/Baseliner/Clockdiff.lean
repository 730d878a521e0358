import Mathlib.Algebra.Order.Ring.Int
import Baseliner.GuardedRuns

/-! `clockdiff`: the two measurements of the difference between two clocks, `measure` by ICMP
timestamps and `measure_opt` by the IP timestamp option. Times are milliseconds of the day. -/

namespace Baseliner.Clockdiff

open GuardedRuns

def RANGE : Int := 1
def MSGS : Nat := 50
def TRIALS : Int := 10

def HOSTDOWN : Int := 0x7fffffff

def BIASP : Int := 43199999
def BIASN : Int := -43200000
def MODULO : Int := 86400000
def PROCESSING_TIME : Int := 0

/-- The ways in which a measurement ends; the last two return -1. -/
inductive Outcome
  | good
  | unreachable
  | nonstdtime
  | hostdown
  | lost
  | wrongTimestamps
deriving DecidableEq

structure Timeval where
  sec : Nat
  usec : Nat
  valid : usec < 1000000

/-- `(tv_sec % (24*60*60)) * 1000 + tv_usec / 1000`. -/
def Timeval.ofDay (tv : Timeval) : Int := ((tv.sec % (24 * 60 * 60)) * 1000 + tv.usec / 1000 : Nat)

structure Sample where
  sendtime : Int
  histime : Int
  histime1 : Int
  recvtime : Int

/-- The wrap-around at midnight. -/
def wrapAround (delta : Int) : Int :=
  if delta < BIASN then delta + MODULO
  else if BIASP < delta then delta - MODULO
  else delta

namespace Sample

def diff (s : Sample) : Int := s.recvtime - s.sendtime

def delta1 (s : Sample) : Int := wrapAround (s.histime - s.sendtime)

def delta2 (s : Sample) : Int := wrapAround (s.recvtime - s.histime1)

end Sample

inductive Phase
  | top
  | waiting
  | ended (outcome : Outcome)
deriving DecidableEq

structure Meas where
  seqno : UInt16
  acked : UInt16
  msgcount : Nat
  min1 : Int
  min2 : Int
  rtt : Int
  rttSigma : Int
  minRtt : Int
  measureDelta : Int
  measureDelta1 : Int
  phase : Phase

def start : Meas where
  seqno := 0
  acked := 0
  msgcount := 0
  min1 := 0x7fffffff
  min2 := 0x7fffffff
  rtt := 1000
  rttSigma := 0
  minRtt := 0x7fffffff
  measureDelta := HOSTDOWN
  measureDelta1 := HOSTDOWN
  phase := .top

/-- `good_exit`. -/
def Meas.goodExit (w : Meas) : Meas :=
  { w with measureDelta := (w.min1 - w.min2).tdiv 2 + PROCESSING_TIME, phase := .ended .good }

def Meas.account (w : Meas) (s : Sample) : Meas :=
  let rtt := (w.rtt * 3 + s.diff).tdiv 4
  let delta1 := s.delta1
  let delta2 := s.delta2
  let next := { w with
    msgcount := w.msgcount + 1
    rtt
    rttSigma := (w.rttSigma * 3 + (s.diff - rtt).natAbs).tdiv 4
    min1 := if delta1 < w.min1 then delta1 else w.min1
    min2 := if delta2 < w.min2 then delta2 else w.min2
    minRtt := if delta1 + delta2 < w.minRtt then delta1 + delta2 else w.minRtt
    measureDelta1 :=
      if delta1 + delta2 < w.minRtt then (delta1 - delta2).tdiv 2 + PROCESSING_TIME
      else w.measureDelta1 }
  if s.diff < RANGE then { next with min1 := delta1, min2 := delta2 }.goodExit else next

inductive Verdict
  | skipped
  | nonstdtime
  | wrongTimestamps
  | taken (s : Sample)

def ICMP_ECHOREPLY : UInt8 := 0
def ICMP_TIMESTAMPREPLY : UInt8 := 14
def IPOPT_TIMESTAMP : UInt8 := 68
def IPOPT_TS_PRESPEC : UInt8 := 3

/-- The first message has sequence number 1. -/
def seqno0 : UInt16 := 0

structure TimestampReply where
  type : UInt8
  id : UInt16
  sequence : UInt16
  originate : UInt32
  receive : UInt32

/-- A reply in `measure`, received at `tv`; `none` when it is none to our messages. A reply in
another time format ends the measurement, after counts that nothing reads any more. -/
def measure (id seqno : UInt16) (tv : Timeval) (r : TimestampReply) : Option (UInt16 × Verdict) :=
  if r.type = ICMP_TIMESTAMPREPLY ∧ r.id = id ∧ seqno0 ≤ r.sequence ∧ r.sequence ≤ seqno then
    let s : Sample :=
      ⟨r.originate.toNat, r.receive.toNat, r.receive.toNat, tv.ofDay⟩
    some (r.sequence,
      if s.diff < 0 then .skipped
      else if r.receive &&& 0x80000000 ≠ 0 then .nonstdtime
      else .taken s)
  else none

/-- An echo reply with the option that starts at byte 20 of the packet: its type, pointer and
flags, and the time in each of the entries behind them. -/
structure OptionReply where
  type : UInt8
  id : UInt16
  sequence : UInt16
  option : UInt8
  pointer : UInt8
  flags : UInt8
  stamps : Nat → UInt32

/-- `sendtime`, `histime`, `histime1` and `recvtime` while the entries are read. -/
structure Stamps where
  sendtime : UInt32
  histime : UInt32
  histime1 : UInt32
  recvtime : UInt32
deriving DecidableEq

/-- `sendtime&histime&histime1&recvtime`. -/
def Stamps.bits (t : Stamps) : UInt32 := t.sendtime &&& t.histime &&& t.histime1 &&& t.recvtime

/-- Entry `i` of the option. -/
def Stamps.enter (ipOptLen : Nat) (i : Nat) (t : UInt32) (s : Stamps) : Stamps :=
  match i with
  | 0 => { s with sendtime := t }
  | 1 => { s with histime := t, histime1 := t }
  | 2 => if ipOptLen = 4 + 4 * 8 then { s with histime1 := t } else { s with recvtime := t }
  | 3 => { s with recvtime := t }
  | _ => s

/-- The loop over the entries behind `i` turns; `none` for a time in another format. -/
def readStamps (ipOptLen : Nat) (stamps : Nat → UInt32) : Nat → Option Stamps
  | 0 => some ⟨0, 0, 0, 0⟩
  | i + 1 =>
      (readStamps ipOptLen stamps i).bind fun s =>
        if stamps i &&& 0x80000000 ≠ 0 then none else some (s.enter ipOptLen i (stamps i))

def OptionReply.count (r : OptionReply) : Nat := (r.pointer.toNat - 5) / 8

/-- A reply in `measure_opt`. -/
def measureOpt (ipOptLen : Nat) (id seqno : UInt16) (_ : Timeval) (r : OptionReply) :
    Option (UInt16 × Verdict) :=
  if r.type = ICMP_ECHOREPLY ∧ r.option = IPOPT_TIMESTAMP ∧ r.id = id ∧ seqno0 ≤ r.sequence ∧
      r.sequence ≤ seqno then
    some (r.sequence,
      if r.flags &&& 0xf ≠ IPOPT_TS_PRESPEC then .nonstdtime
      else match readStamps ipOptLen r.stamps r.count with
        | none => .nonstdtime
        | some t =>
            let s : Sample :=
              ⟨t.sendtime.toNat, t.histime.toNat, t.histime1.toNat, t.recvtime.toNat⟩
            if t.bits = 0 then .wrongTimestamps
            else if s.diff < 0 then .skipped
            else .taken s)
  else none

/-- What happens next: a message is sent or fails to be, nothing arrives in time, receiving
fails, a packet arrives. -/
inductive Event (ρ : Type)
  | send (ok : Bool)
  | timeout
  | lost
  | reply (tv : Timeval) (r : ρ)

variable {ρ : Type}

/-- The loops of a measurement, with what it makes of a packet; an event that it does not wait
for changes nothing. -/
def step (receive : UInt16 → Timeval → ρ → Option (UInt16 × Verdict)) (w : Meas) :
    Event ρ → Meas
  | .send ok =>
      if w.phase = .top then
        if MSGS ≤ w.msgcount then w.goodExit
        else if TRIALS < (w.seqno.toNat : Int) - w.acked.toNat then
          { w with phase := .ended .hostdown }
        else { w with
          seqno := w.seqno + 1
          phase := if ok then .waiting else .ended .unreachable }
      else w
  | .timeout => if w.phase = .waiting then { w with phase := .top } else w
  | .lost => if w.phase = .waiting then { w with phase := .ended .lost } else w
  | .reply tv r =>
      if w.phase = .waiting then
        match receive w.seqno tv r with
        | none => w
        | some (sequence, verdict) =>
            let w := { w with acked := if w.acked < sequence then sequence else w.acked }
            match verdict with
            | .skipped => w
            | .nonstdtime => { w with phase := .ended .nonstdtime }
            | .wrongTimestamps => { w with phase := .ended .wrongTimestamps }
            | .taken s => w.account s
      else w

section Clocks

/-- A message and its reply: the difference between the clocks, the time of day at which the
message leaves, and how long it is on the way there, at the other host, and on the way back. -/
structure Exchange where
  theta : Int
  sentAt : Nat
  d1 : Nat
  stay : Nat
  d2 : Nat

def Exchange.Within (x : Exchange) : Prop := |x.theta| + x.d1 + x.d2 < 12 * 60 * 60 * 1000

def Exchange.sample (x : Exchange) : Sample where
  sendtime := x.sentAt % MODULO
  histime := (x.sentAt + x.d1 + x.theta) % MODULO
  histime1 := (x.sentAt + x.d1 + x.stay + x.theta) % MODULO
  recvtime := (x.sentAt + x.d1 + x.stay + x.d2) % MODULO

theorem wrapAround_eq {a b : Int} (low : -43200000 ≤ a - b) (high : a - b < 43200000) :
    wrapAround (a % MODULO - b % MODULO) = a - b := by
  unfold wrapAround BIASN BIASP MODULO
  split_ifs <;> omega

theorem Exchange.delta1_eq {x : Exchange} (within : x.Within) :
    x.sample.delta1 = x.theta + x.d1 := by
  have bounds : -43200000 ≤ x.theta + x.d1 ∧ x.theta + x.d1 < 43200000 := by
    unfold Within at within
    have low := neg_abs_le x.theta
    have high := le_abs_self x.theta
    omega
  have apart : (x.sentAt + x.d1 + x.theta : Int) - x.sentAt = x.theta + x.d1 := by omega
  rw [Sample.delta1, sample, wrapAround_eq (by omega) (by omega), apart]

theorem Exchange.delta2_eq {x : Exchange} (within : x.Within) :
    x.sample.delta2 = x.d2 - x.theta := by
  have bounds : -43200000 ≤ x.d2 - x.theta ∧ x.d2 - x.theta < 43200000 := by
    unfold Within at within
    have low := neg_abs_le x.theta
    have high := le_abs_self x.theta
    omega
  have apart : (x.sentAt + x.d1 + x.stay + x.d2 : Int) -
      (x.sentAt + x.d1 + x.stay + x.theta) = x.d2 - x.theta := by omega
  rw [Sample.delta2, sample, wrapAround_eq (by omega) (by omega), apart]

end Clocks

section Runs

variable {receive : UInt16 → Timeval → ρ → Option (UInt16 × Verdict)}

def takes (receive : UInt16 → Timeval → ρ → Option (UInt16 × Verdict)) (w : Meas) :
    Event ρ → List Sample
  | .reply tv r =>
      if w.phase = .waiting then
        match receive w.seqno tv r with
        | some (_, .taken s) => [s]
        | _ => []
      else []
  | .send _ => []
  | .timeout => []
  | .lost => []

def taken (receive : UInt16 → Timeval → ρ → Option (UInt16 × Verdict)) :
    Meas → List (Event ρ) → List Sample
  | _, [] => []
  | w, e :: es => takes receive w e ++ taken receive (step receive w e) es

def IsMin (f : Sample → Int) (l : List Sample) (m : Int) : Prop :=
  (∃ s ∈ l, f s = m) ∧ ∀ s ∈ l, m ≤ f s

/-- The difference that is reported for these replies: half of that between the two minima, or
of that of the last reply when it has come back within the range. -/
def Reported (l : List Sample) (delta : Int) : Prop :=
  (∃ s, l.getLast? = some s ∧ s.diff < RANGE ∧ delta = (s.delta1 - s.delta2).tdiv 2) ∨
    (∀ s ∈ l, ¬ s.diff < RANGE) ∧ ∃ m1 m2, IsMin Sample.delta1 l m1 ∧ IsMin Sample.delta2 l m2 ∧
      delta = (m1 - m2).tdiv 2

def MinSoFar (f : Sample → Int) (l : List Sample) (m : Int) : Prop :=
  l = [] ∧ m = 0x7fffffff ∨ IsMin f l m

theorem MinSoFar.next {f : Sample → Int} {l : List Sample} {m : Int} (h : MinSoFar f l m)
    {s : Sample} (bound : f s ≤ 0x7fffffff) :
    MinSoFar f (l ++ [s]) (if f s < m then f s else m) := by
  right
  rcases h with ⟨rfl, rfl⟩ | ⟨⟨s', member, attained⟩, least⟩
  · refine ⟨⟨s, by simp, ?_⟩, fun s' member => ?_⟩
    · split_ifs <;> omega
    · rw [List.nil_append, List.mem_singleton] at member
      rw [member]
      split_ifs <;> omega
  · refine ⟨?_, fun t member => ?_⟩
    · split_ifs
      · exact ⟨s, by simp, rfl⟩
      · exact ⟨s', List.mem_append_left _ member, attained⟩
    · rcases List.mem_append.mp member with old | new
      · have bound := least t old
        split_ifs <;> omega
      · rw [List.mem_singleton.mp new]
        split_ifs <;> omega

/-- What a run has of the replies `l`. -/
def Tracks (l : List Sample) (w : Meas) : Prop :=
  match w.phase with
  | .ended .good => Reported l w.measureDelta
  | .ended _ => True
  | _ => w.msgcount = l.length ∧ (∀ s ∈ l, ¬ s.diff < RANGE) ∧
      MinSoFar Sample.delta1 l w.min1 ∧ MinSoFar Sample.delta2 l w.min2

theorem goodExit_delta (w : Meas) : w.goodExit.measureDelta = (w.min1 - w.min2).tdiv 2 :=
  Int.add_zero _

theorem tracks_account {l : List Sample} {w : Meas} (waiting : w.phase = .waiting)
    (h : Tracks l w) {s : Sample} (bound : s.delta1 ≤ 0x7fffffff ∧ s.delta2 ≤ 0x7fffffff) :
    Tracks (l ++ [s]) (w.account s) := by
  rw [Tracks, waiting] at h
  obtain ⟨count, long, first, second⟩ := h
  rw [Meas.account]
  by_cases short : s.diff < RANGE
  · rw [if_pos short]
    exact .inl ⟨s, by simp, short, goodExit_delta _⟩
  · rw [if_neg short, Tracks, waiting]
    refine ⟨by simp [count], fun t member => ?_, first.next bound.1, second.next bound.2⟩
    rcases List.mem_append.mp member with old | new
    · exact long t old
    · rw [List.mem_singleton.mp new]
      exact short

theorem tracks_step (bounded : ∀ seqno tv r sequence s,
      receive seqno tv r = some (sequence, .taken s) →
        s.delta1 ≤ 0x7fffffff ∧ s.delta2 ≤ 0x7fffffff)
    {l : List Sample} {w : Meas} (h : Tracks l w) (e : Event ρ) :
    Tracks (l ++ takes receive w e) (step receive w e) := by
  cases e with
  | send ok =>
      rw [takes, List.append_nil, step]
      split_ifs with top enough hopeless sent
      · rw [Tracks, top] at h
        obtain ⟨count, long, first, second⟩ := h
        have some : l ≠ [] := by
          rintro rfl
          rw [count] at enough
          exact absurd enough (by decide)
        refine .inr ⟨long, _, _, first.resolve_left fun none => some none.1,
          second.resolve_left fun none => some none.1, goodExit_delta w⟩
      · trivial
      · rw [Tracks, top] at h
        exact h
      · trivial
      · exact h
  | timeout =>
      rw [takes, List.append_nil, step]
      split_ifs with waiting
      · rw [Tracks, waiting] at h
        exact h
      · exact h
  | lost =>
      rw [takes, List.append_nil, step]
      split_ifs with waiting
      · trivial
      · exact h
  | reply tv r =>
      rw [takes, step]
      by_cases waiting : w.phase = .waiting
      · rw [if_pos waiting, if_pos waiting]
        cases answer : receive w.seqno tv r with
        | none =>
            rw [List.append_nil]
            exact h
        | some found =>
            obtain ⟨sequence, verdict⟩ := found
            cases verdict with
            | skipped =>
                rw [List.append_nil]
                exact h
            | nonstdtime => trivial
            | wrongTimestamps => trivial
            | taken s =>
                refine tracks_account ?_ ?_ (bounded _ _ _ _ _ answer)
                · exact waiting
                · exact h
      · rw [if_neg waiting, if_neg waiting, List.append_nil]
        exact h

theorem tracks_run (bounded : ∀ seqno tv r sequence s,
      receive seqno tv r = some (sequence, .taken s) →
        s.delta1 ≤ 0x7fffffff ∧ s.delta2 ≤ 0x7fffffff)
    {l : List Sample} {w : Meas} (h : Tracks l w) (es : List (Event ρ)) :
    Tracks (l ++ taken receive w es) (run (step receive) w es) := by
  induction es generalizing l w with
  | nil =>
      rw [taken, List.append_nil]
      exact h
  | cons e es ih =>
      rw [taken, ← List.append_assoc]
      exact ih (tracks_step bounded h e)

end Runs

section Readings

theorem wrapAround_le {a : Int} (h : a ≤ 0x7fffffff) : wrapAround a ≤ 0x7fffffff := by
  unfold wrapAround BIASN BIASP MODULO
  split_ifs <;> omega

theorem toNat_lt_of_and {t : UInt32} (h : t &&& 0x80000000 = 0) : t.toNat < 2147483648 := by
  have bits : t.toNat &&& 2 ^ 31 = 0 := by
    have same := congrArg UInt32.toNat h
    rwa [UInt32.toNat_and] at same
  have bit : t.toNat.testBit 31 = false := by
    have both := congrArg (Nat.testBit · 31) bits
    simpa only [Nat.testBit_and, Nat.testBit_two_pow_self, Nat.zero_testBit, Bool.and_true]
      using both
  have all := t.toNat_lt
  rw [Nat.testBit_eq_decide_div_mod_eq, decide_eq_false_iff_not] at bit
  omega

theorem ofDay_bounds (tv : Timeval) : 0 ≤ tv.ofDay ∧ tv.ofDay < MODULO := by
  have valid := tv.valid
  unfold Timeval.ofDay MODULO
  omega

theorem measure_bounded {id seqno sequence : UInt16} {tv : Timeval} {r : TimestampReply}
    {s : Sample} (h : measure id seqno tv r = some (sequence, .taken s)) :
    s.delta1 ≤ 0x7fffffff ∧ s.delta2 ≤ 0x7fffffff := by
  rw [measure] at h
  by_cases ours : r.type = ICMP_TIMESTAMPREPLY ∧ r.id = id ∧ seqno0 ≤ r.sequence ∧
      r.sequence ≤ seqno
  case neg =>
    rw [if_neg ours] at h
    cases h
  rw [if_pos ours] at h
  simp only [Option.some.injEq, Prod.mk.injEq] at h
  obtain ⟨-, h⟩ := h
  split_ifs at h with early high
  obtain rfl := Verdict.taken.inj h
  have small := toNat_lt_of_and (not_not.mp high)
  have day := (ofDay_bounds tv).2
  unfold MODULO at day
  exact ⟨wrapAround_le (by simp only; omega), wrapAround_le (by simp only; omega)⟩

variable {ipOptLen : Nat} {stamps : Nat → UInt32}

def gathered (ipOptLen : Nat) (stamps : Nat → UInt32) : Nat → Stamps
  | 0 => ⟨0, 0, 0, 0⟩
  | i + 1 => (gathered ipOptLen stamps i).enter ipOptLen i (stamps i)

theorem readStamps_eq_some {c : Nat} {t : Stamps} : readStamps ipOptLen stamps c = some t ↔
    (∀ i < c, stamps i &&& 0x80000000 = 0) ∧ t = gathered ipOptLen stamps c := by
  induction c generalizing t with
  | zero =>
      rw [readStamps, Option.some.injEq]
      exact ⟨fun h => ⟨fun i no => absurd no (Nat.not_lt_zero i), h.symm⟩, fun h => h.2.symm⟩
  | succ c ih =>
      rw [readStamps, Option.bind_eq_some_iff]
      constructor
      · rintro ⟨s, before, here⟩
        obtain ⟨all, rfl⟩ := ih.mp before
        split_ifs at here with high
        refine ⟨fun i inside => ?_, (Option.some.inj here).symm⟩
        rcases Nat.lt_succ_iff_lt_or_eq.mp inside with old | rfl
        · exact all i old
        · exact not_not.mp high
      · rintro ⟨all, rfl⟩
        refine ⟨_, ih.mpr ⟨fun i inside => all i (Nat.lt_succ_of_lt inside), rfl⟩, ?_⟩
        rw [if_neg (not_not.mpr (all c (Nat.lt_succ_self c)))]
        rfl

theorem enter_small {s : Stamps} {i : Nat} {t : UInt32}
    (before : s.histime.toNat < 2147483648 ∧ s.recvtime.toNat < 2147483648)
    (here : t.toNat < 2147483648) :
    (s.enter ipOptLen i t).histime.toNat < 2147483648 ∧
      (s.enter ipOptLen i t).recvtime.toNat < 2147483648 := by
  rcases i with _ | _ | _ | _ | i
  · exact before
  · exact ⟨here, before.2⟩
  · rw [Stamps.enter]
    split_ifs
    · exact before
    · exact ⟨before.1, here⟩
  · exact ⟨before.1, here⟩
  · exact before

theorem gathered_small {c : Nat} (all : ∀ i < c, stamps i &&& 0x80000000 = 0) :
    (gathered ipOptLen stamps c).histime.toNat < 2147483648 ∧
      (gathered ipOptLen stamps c).recvtime.toNat < 2147483648 := by
  induction c with
  | zero => simp [gathered]
  | succ c ih =>
      exact enter_small (ih fun i inside => all i (Nat.lt_succ_of_lt inside))
        (toNat_lt_of_and (all c (Nat.lt_succ_self c)))

/-- The header test of `measure_opt`, and that all times are in the standard format. -/
def Readable (id seqno : UInt16) (r : OptionReply) : Prop :=
  (r.type = ICMP_ECHOREPLY ∧ r.option = IPOPT_TIMESTAMP ∧ r.id = id ∧ seqno0 ≤ r.sequence ∧
    r.sequence ≤ seqno) ∧ r.flags &&& 0xf = IPOPT_TS_PRESPEC ∧
    ∀ i < r.count, r.stamps i &&& 0x80000000 = 0

theorem measureOpt_bounded {id seqno sequence : UInt16} {tv : Timeval} {r : OptionReply}
    {s : Sample} (h : measureOpt ipOptLen id seqno tv r = some (sequence, .taken s)) :
    s.delta1 ≤ 0x7fffffff ∧ s.delta2 ≤ 0x7fffffff := by
  rw [measureOpt] at h
  by_cases ours : r.type = ICMP_ECHOREPLY ∧ r.option = IPOPT_TIMESTAMP ∧ r.id = id ∧
      seqno0 ≤ r.sequence ∧ r.sequence ≤ seqno
  case neg =>
    rw [if_neg ours] at h
    cases h
  rw [if_pos ours] at h
  simp only [Option.some.injEq, Prod.mk.injEq] at h
  obtain ⟨-, h⟩ := h
  by_cases flags : r.flags &&& 0xf ≠ IPOPT_TS_PRESPEC
  case pos =>
    rw [if_pos flags] at h
    cases h
  rw [if_neg flags] at h
  cases read : readStamps ipOptLen r.stamps r.count with
  | none =>
      rw [read] at h
      cases h
  | some t =>
      rw [read] at h
      simp only at h
      split_ifs at h with zero early
      obtain rfl := Verdict.taken.inj h
      obtain ⟨all, rfl⟩ := readStamps_eq_some.mp read
      have small := @gathered_small ipOptLen r.stamps r.count all
      exact ⟨wrapAround_le (by simp only; omega), wrapAround_le (by simp only; omega)⟩

theorem measureOpt_wrong {id seqno sequence : UInt16} {tv : Timeval} {r : OptionReply} :
    measureOpt ipOptLen id seqno tv r = some (sequence, .wrongTimestamps) ↔
      r.sequence = sequence ∧ Readable id seqno r ∧
        (gathered ipOptLen r.stamps r.count).bits = 0 := by
  rw [measureOpt, Readable]
  by_cases ours : r.type = ICMP_ECHOREPLY ∧ r.option = IPOPT_TIMESTAMP ∧ r.id = id ∧
      seqno0 ≤ r.sequence ∧ r.sequence ≤ seqno
  · rw [if_pos ours, Option.some.injEq, Prod.mk.injEq]
    refine and_congr Iff.rfl ?_
    by_cases flags : r.flags &&& 0xf = IPOPT_TS_PRESPEC
    · rw [if_neg (not_not.mpr flags)]
      cases read : readStamps ipOptLen r.stamps r.count with
      | none =>
          refine iff_of_false (by simp) fun h => ?_
          have some := (readStamps_eq_some (t := gathered ipOptLen r.stamps r.count)).mpr
            ⟨h.1.2.2, rfl⟩
          rw [read] at some
          cases some
      | some t =>
          obtain ⟨all, rfl⟩ := readStamps_eq_some.mp read
          simp only
          split_ifs with zero early
          · exact iff_of_true rfl ⟨⟨ours, flags, all⟩, zero⟩
          · exact iff_of_false (by simp) fun h => zero h.2
          · exact iff_of_false (by simp) fun h => zero h.2
    · rw [if_pos flags]
      exact iff_of_false (by simp) fun h => flags h.1.2.1
  · rw [if_neg ours]
    exact iff_of_false (by simp) fun h => ours h.2.1.1

def needed (ipOptLen : Nat) : Nat := if ipOptLen = 4 + 4 * 8 then 4 else 3

/-- The bits that all the times have which `measure_opt` uses. -/
def OptionReply.common (ipOptLen : Nat) (r : OptionReply) : UInt32 :=
  if ipOptLen = 4 + 4 * 8 then r.stamps 0 &&& r.stamps 1 &&& r.stamps 2 &&& r.stamps 3
  else r.stamps 0 &&& r.stamps 1 &&& if r.count = 3 then r.stamps 2 else r.stamps 3

theorem gathered_add (c : Nat) :
    gathered ipOptLen stamps (4 + c) = gathered ipOptLen stamps 4 := by
  induction c with
  | zero => rfl
  | succ c ih =>
      rw [← Nat.add_assoc, gathered, ih, Nat.add_comm 4 c]
      rfl

theorem gathered_common (r : OptionReply) :
    (gathered ipOptLen r.stamps r.count).bits = 0 ↔
      r.count < needed ipOptLen ∨ r.common ipOptLen = 0 := by
  rw [Stamps.bits, OptionReply.common, needed]
  generalize r.count = c
  generalize r.stamps = stamps
  have twice (a b d : UInt32) : a &&& b &&& b &&& d = a &&& b &&& d := by
    rw [UInt32.and_assoc a b b, UInt32.and_self]
  rcases Nat.lt_or_ge c 4 with few | many
  · by_cases four : ipOptLen = 4 + 4 * 8
    · rw [if_pos four, if_pos four]
      refine iff_of_true ?_ (.inl few)
      rcases c with _ | _ | _ | _ | c
      · exact UInt32.and_zero
      · exact UInt32.and_zero
      · exact UInt32.and_zero
      · simp only [gathered, Stamps.enter, if_pos four]
        exact UInt32.and_zero
      · omega
    · rw [if_neg four, if_neg four]
      rcases c with _ | _ | _ | _ | c
      · exact iff_of_true UInt32.and_zero (.inl (by decide))
      · exact iff_of_true UInt32.and_zero (.inl (by decide))
      · exact iff_of_true UInt32.and_zero (.inl (by decide))
      · simp only [gathered, Stamps.enter, if_neg four, twice]
        simp
      · omega
  · obtain ⟨c, rfl⟩ := Nat.exists_eq_add_of_le many
    rw [gathered_add]
    by_cases four : ipOptLen = 4 + 4 * 8
    · simp only [gathered, Stamps.enter, if_pos four]
      rw [or_iff_right (by omega)]
    · simp only [gathered, Stamps.enter, if_neg four, twice]
      rw [or_iff_right (by omega), if_neg (by omega)]

end Readings

section Measurements

/-- The replies that have been taken give the two differences of their exchange, and their
minima give what is reported. -/
def MeasuresRight (l : List Sample) (w : Meas) : Prop :=
  (∀ s ∈ l, ∀ x : Exchange, x.Within → s = x.sample →
    s.delta1 = x.theta + x.d1 ∧ s.delta2 = x.d2 - x.theta) ∧
  (w.phase = .ended .good → Reported l w.measureDelta)

/-- A reply is rejected for wrong timestamps only when the option lacks one. -/
def RejectsOnlyAbsent (ipOptLen : Nat) (id : UInt16) (w : Meas) (e : Event OptionReply) : Prop :=
  ∀ tv r, e = .reply tv r → w.phase = .waiting → ∀ sequence,
    measureOpt ipOptLen id w.seqno tv r = some (sequence, .wrongTimestamps) →
      r.count < needed ipOptLen

/-- The times of a reply have a bit in common, when they are all there. -/
def HaveCommonBit (ipOptLen : Nat) (id : UInt16) (w : Meas) (e : Event OptionReply) : Prop :=
  ∀ tv r, e = .reply tv r → w.phase = .waiting → Readable id w.seqno r →
    r.count < needed ipOptLen ∨ r.common ipOptLen ≠ 0

theorem rejectsOnlyAbsent_iff (ipOptLen : Nat) (id : UInt16) (w : Meas) (e : Event OptionReply) :
    RejectsOnlyAbsent ipOptLen id w e ↔ HaveCommonBit ipOptLen id w e := by
  refine forall_congr' fun tv => forall_congr' fun r => forall_congr' fun _ =>
    forall_congr' fun _ => ?_
  simp only [measureOpt_wrong, gathered_common]
  constructor
  · intro h readable
    by_cases absent : r.count < needed ipOptLen
    · exact .inl absent
    · exact .inr fun zero => absent (h _ ⟨rfl, readable, .inr zero⟩)
  · rintro h sequence ⟨-, readable, absent | zero⟩
    · exact absent
    · exact (h readable).resolve_right (not_not.mpr zero)

theorem measuresRight {receive : UInt16 → Timeval → ρ → Option (UInt16 × Verdict)}
    (bounded : ∀ seqno tv r sequence s, receive seqno tv r = some (sequence, .taken s) →
      s.delta1 ≤ 0x7fffffff ∧ s.delta2 ≤ 0x7fffffff) (es : List (Event ρ)) :
    MeasuresRight (taken receive start es) (run (step receive) start es) := by
  refine ⟨fun s _ x within same => ?_, fun good => ?_⟩
  · rw [same]
    exact ⟨x.delta1_eq within, x.delta2_eq within⟩
  · have none : Tracks [] start :=
      ⟨rfl, fun s no => absurd no List.not_mem_nil, .inl ⟨rfl, rfl⟩, .inl ⟨rfl, rfl⟩⟩
    have tracks := tracks_run bounded none es
    rw [Tracks, good] at tracks
    exact tracks

/-- Both measurements compute the differences that they should, and `measure_opt` rejects only
replies in which a timestamp is missing exactly when the timestamps of each reply it comes to
have a bit in common. -/
theorem clockdiff_measures_iff (id : UInt16) (ipOptLen : Nat) (es : List (Event TimestampReply))
    (es' : List (Event OptionReply)) :
    MeasuresRight (taken (measure id) start es) (run (step (measure id)) start es) ∧
      MeasuresRight (taken (measureOpt ipOptLen id) start es')
        (run (step (measureOpt ipOptLen id)) start es') ∧
      Along (step (measureOpt ipOptLen id)) (RejectsOnlyAbsent ipOptLen id) start es' ↔
    Along (step (measureOpt ipOptLen id)) (HaveCommonBit ipOptLen id) start es' := by
  have same : RejectsOnlyAbsent ipOptLen id = HaveCommonBit ipOptLen id := by
    funext w e
    exact propext (rejectsOnlyAbsent_iff ipOptLen id w e)
  rw [same]
  exact ⟨fun h => h.2.2, fun h =>
    ⟨measuresRight (fun _ _ _ _ _ => measure_bounded) es,
      measuresRight (fun _ _ _ _ _ => measureOpt_bounded) es', h⟩⟩

/-- A reply right behind midnight: sent at 1 ms, received there at 2 ms, back at 3 ms. -/
def midnightReply : OptionReply :=
  ⟨ICMP_ECHOREPLY, 7, 1, IPOPT_TIMESTAMP, 37, 3,
    fun i => if i = 0 then 1 else if i = 3 then 3 else 2⟩

theorem wrong_timestamps_present : needed 36 ≤ midnightReply.count ∧
    (run (step (measureOpt 36 7)) start
      [.send true, .reply ⟨0, 3000, by decide⟩ midnightReply]).phase =
        .ended .wrongTimestamps ∧
    ¬ Along (step (measureOpt 36 7)) (RejectsOnlyAbsent 36 7) start
      [.send true, .reply ⟨0, 3000, by decide⟩ midnightReply] := by
  refine ⟨by decide, by decide, fun along => ?_⟩
  exact absurd (along.2.1 _ _ rfl (by decide) 1 rfl) (by decide)

end Measurements

end Baseliner.Clockdiff
