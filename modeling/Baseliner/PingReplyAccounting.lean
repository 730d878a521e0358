import Mathlib.Data.Finset.Card
import Mathlib.Order.Interval.Finset.Nat
import Baseliner.GuardedRuns
import Baseliner.PingSession

/-! The counters of received, repeated and corrupted replies over runs of
`pinger` calls and gathered echo replies. The run keeps beside the program's
state how many replies were gathered and which probes were answered with a good
checksum. The table of received sequence numbers has one bit for all the probes
with the same low half, and `send_probe` clears it also when the send fails. -/

namespace Baseliner.PingReplyAccounting

open GuardedRuns PingStatistics PingSession

structure Counts where
  ntransmitted : Nat
  nreceived : Nat
  nrepeats : Nat
  nchecksum : Nat
  rcvdTbl : UInt16 → Bool

def counts (st : State) : Counts :=
  ⟨st.ntransmitted, st.nreceived, st.nrepeats, st.nchecksum, st.rcvdTbl⟩

def Counts.nextSeq (c : Counts) : UInt16 := UInt16.ofNat (c.ntransmitted + 1)

/-- After a `send_probe`, whether or not the packet was sent. -/
def Counts.attempted (c : Counts) : Counts :=
  { c with rcvdTbl := fun bit => bit ≠ c.nextSeq && c.rcvdTbl bit }

def Counts.gathered (c : Counts) (seq : UInt16) (csfailed : Bool) : Counts :=
  if csfailed then { c with nchecksum := c.nchecksum + 1 }
  else if c.rcvdTbl seq then { c with nrepeats := c.nrepeats + 1 }
  else { c with
    nreceived := c.nreceived + 1
    rcvdTbl := fun bit => bit = seq || c.rcvdTbl bit }

/-! ### The code on the counters -/

@[simp] theorem counts_gatherTiming (st : State) (reply : Reply) (tv now : Timespec) :
    counts (gatherTiming st reply tv now).1 = counts st := by
  obtain ⟨_, _, _, eq⟩ := gatherTiming_eq st reply tv now
  rw [eq]
  rfl

theorem counts_gatherCount (st : State) (reply : Reply) (n : Nat) (h : st.nreceived = n + 1) :
    counts (gatherCount st reply).1 =
      Counts.gathered { counts st with nreceived := n } reply.seq reply.csfailed := by
  unfold gatherCount Counts.gathered rcvdTest
  split
  · simp only [counts, h, Nat.add_sub_cancel]
  · change _ = if st.rcvdTbl reply.seq then _ else _
    split
    · simp only [counts, h, Nat.add_sub_cancel]
    · simp only [counts, rcvdSet, h]

theorem counts_noted (st : State) (reply : Reply) :
    counts (noted st reply) = { counts st with nreceived := st.nreceived + 1 } := by
  obtain ⟨_, _, eq⟩ := noted_eq st reply
  rw [eq]
  rfl

/-- The counter is raised first and corrected on two branches. -/
theorem counts_gatherStatistics (st : State) (reply : Reply) (tv now : Timespec) :
    counts (gatherStatistics st reply tv now).1 =
      (counts st).gathered reply.seq reply.csfailed := by
  have timed : counts (gatherTiming (noted st reply) reply tv now).1 =
      { counts st with nreceived := st.nreceived + 1 } := by
    rw [counts_gatherTiming, counts_noted]
  have count := counts_gatherCount _ reply st.nreceived (congrArg Counts.nreceived timed)
  rw [timed] at count
  rw [gatherStatistics_state]
  exact count

theorem counts_sendProbe (family : Family) (p : Ping) :
    counts (sendProbe family p).st = (counts p.st).attempted := by
  cases family with
  | inet => rfl
  | inet6 niquery => rfl

theorem counts_hardLocalError (p : Ping) (i : Int) (errno : Nat) :
    counts (hardLocalError p i errno).1.st =
      { counts p.st with ntransmitted := (counts p.st).ntransmitted + 1 } := by
  unfold hardLocalError
  dsimp only
  split
  · rfl
  · rfl

theorem counts_probeSent (p : Ping) :
    counts (probeSent p).1.st =
      { counts p.st with ntransmitted := (counts p.st).ntransmitted + 1 } := by
  unfold probeSent
  dsimp only
  split
  · rfl
  · rfl

theorem counts_slowdown (st : State) : counts (slowdown st) = counts st := by
  unfold slowdown updateInterval
  dsimp only
  split
  · rfl
  · rfl

theorem counts_noBuffers (p : Ping) (errno : Nat) :
    counts (noBuffers p errno).1.st = counts p.st ∨
      counts (noBuffers p errno).1.st =
        { counts p.st with ntransmitted := (counts p.st).ntransmitted + 1 } := by
  unfold noBuffers waitOrGiveUp
  split
  · left
    exact counts_slowdown p.st
  · right
    rw [counts_hardLocalError, counts_slowdown]

/-- A send that succeeds, or fails in a way after which it is retried. -/
def Retried : SendResult → Prop
  | .sent => True
  | .short => False
  | .failed errno _ _ => errno = EAGAIN ∨ errno = ENOBUFS

/-- What one call can do: nothing, a failed attempt, or a probe. -/
inductive Pinged (c : Counts) : Counts → Prop
  | waits : Pinged c c
  | failed : Pinged c c.attempted
  | sent : Pinged c { c.attempted with ntransmitted := c.ntransmitted + 1 }

theorem pinged_resend (family : Family) (p : Ping) (results : List SendResult)
    (retried : ∀ result ∈ results, Retried result) :
    Pinged (counts p.st) (counts (resend family p results).1.st) := by
  cases results with
  | nil => exact .waits
  | cons result rest =>
      have first := retried result List.mem_cons_self
      have attempt := counts_sendProbe family p
      cases result with
      | sent =>
          rw [resend, counts_probeSent, attempt]
          exact .sent
      | short => cases first
      | failed errno queue set =>
          rw [resend]
          dsimp only
          rcases first with rfl | rfl
          · rw [if_neg (by decide), if_pos rfl, attempt]
            exact .failed
          · rw [if_pos (Or.inl rfl)]
            rcases counts_noBuffers (sendProbe family p) ENOBUFS with same | more
            · rw [same, attempt]
              exact .failed
            · rw [more, attempt]
              exact .sent

theorem pinged_pinger (family : Family) (p : Ping) (tv : Timespec) (results : List SendResult)
    (retried : ∀ result ∈ results, Retried result) :
    Pinged (counts p.st) (counts (pinger family p tv results).1.st) := by
  unfold pinger
  split
  · exact .waits
  · split
    · exact .waits
    · rename_i q paced
      obtain ⟨tokens, rfl⟩ := pace_ok paced
      obtain ⟨out, noted⟩ := noteOutstanding_eq { p with curTime := tv, tokens := tokens }
      rw [noted]
      exact pinged_resend family { p with curTime := tv, tokens := tokens, out := out } results
        retried

/-! ### Runs -/

/-- `answered` are the probes with a good reply. `stale` tells that an attempt
at the next probe has failed and has taken the mark of an earlier one. -/
structure Account where
  p : Ping
  gathered : Nat
  answered : Finset Nat
  stale : Bool

inductive Event
  | pinger (tv : Timespec) (results : List SendResult)
  | reply (probe : Nat) (reply : Reply) (tv now : Timespec)

def Account.counts (a : Account) : Counts := PingReplyAccounting.counts a.p.st

def step (family : Family) (a : Account) : Event → Account
  | .pinger tv results =>
      let p := (pinger family a.p tv results).1
      let seq := a.counts.nextSeq
      { a with
        p := p
        stale :=
          if p.st.ntransmitted = a.p.st.ntransmitted then
            a.stale || rcvdTest a.p.st seq && !rcvdTest p.st seq
          else false }
  | .reply probe reply tv now =>
      { a with
        p := { a.p with st := (gatherStatistics a.p.st reply tv now).1 }
        gathered := a.gathered + 1
        answered := if reply.csfailed then a.answered else insert probe a.answered }

/-- A reply carries the sequence number of a probe that was transmitted. -/
def Valid (a : Account) : Event → Prop
  | .pinger _ results => ∀ result ∈ results, Retried result
  | .reply probe reply _ _ =>
      1 ≤ probe ∧ probe ≤ a.p.st.ntransmitted ∧ reply.seq = UInt16.ofNat probe

/-- No good reply has the number of the probe that is being retried, when the
failed attempt took the mark of an answered one. -/
def Timely (a : Account) : Event → Prop
  | .pinger _ _ => True
  | .reply _ reply _ _ =>
      a.stale = true → reply.csfailed = false → reply.seq ≠ a.counts.nextSeq

structure Fresh (p : Ping) : Prop where
  ntransmitted : p.st.ntransmitted = 0
  nreceived : p.st.nreceived = 0
  nrepeats : p.st.nrepeats = 0
  nchecksum : p.st.nchecksum = 0

theorem ofNat_inj {p q : Nat} (h : UInt16.ofNat p = UInt16.ofNat q) : p % 65536 = q % 65536 := by
  have same := congrArg UInt16.toNat h
  rw [UInt16.toNat_ofNat', UInt16.toNat_ofNat'] at same
  exact same

/-! ### The first 65535 probes -/

/-- As long as no number is used twice, the bits are the answered probes. -/
structure Exact (c : Counts) (answered : Finset Nat) : Prop where
  sent : ∀ p ∈ answered, 1 ≤ p ∧ p ≤ c.ntransmitted
  card : c.nreceived = answered.card
  marks : ∀ p, 1 ≤ p → p ≤ c.ntransmitted → (c.rcvdTbl (UInt16.ofNat p) = true ↔ p ∈ answered)

theorem Exact.attempted {c : Counts} {answered : Finset Nat} (h : Exact c answered)
    (few : c.ntransmitted ≤ 65535) : Exact c.attempted answered := by
  refine ⟨h.sent, h.card, fun p low high => ?_⟩
  have apart : UInt16.ofNat p ≠ c.nextSeq := fun same => by
    have low := ofNat_inj same
    change p ≤ c.ntransmitted at high
    omega
  simp only [Counts.attempted, apart, ne_eq, not_false_eq_true, decide_true, Bool.true_and]
  exact h.marks p low high

theorem Exact.advanced {c : Counts} {answered : Finset Nat} (h : Exact c answered)
    (few : c.ntransmitted + 1 ≤ 65535) :
    Exact { c.attempted with ntransmitted := c.ntransmitted + 1 } answered := by
  refine ⟨fun p mem => ?_, h.card, fun p low high => ?_⟩
  · have old := h.sent p mem
    exact ⟨old.1, by dsimp only; omega⟩
  · rcases Nat.lt_or_ge c.ntransmitted p with new | old
    · have last : p = c.ntransmitted + 1 := by
        dsimp only at high
        omega
      subst last
      have cleared : c.attempted.rcvdTbl (UInt16.ofNat (c.ntransmitted + 1)) = false := by
        simp [Counts.attempted, Counts.nextSeq]
      simp only [cleared, Bool.false_eq_true, false_iff]
      intro mem
      have old := h.sent _ mem
      omega
    · exact (h.attempted (by omega)).marks p low old

theorem Exact.gathered {c : Counts} {answered : Finset Nat} {probe : Nat} (h : Exact c answered)
    (few : c.ntransmitted ≤ 65535) (low : 1 ≤ probe) (high : probe ≤ c.ntransmitted)
    (csfailed : Bool) :
    Exact (c.gathered (UInt16.ofNat probe) csfailed)
      (if csfailed then answered else insert probe answered) := by
  have mark := h.marks probe low high
  unfold Counts.gathered
  cases csfailed with
  | true => exact ⟨h.sent, h.card, h.marks⟩
  | false =>
      simp only [Bool.false_eq_true, if_false]
      split
      · rename_i marked
        rw [Finset.insert_eq_of_mem (mark.mp marked)]
        exact ⟨h.sent, h.card, h.marks⟩
      · rename_i unmarked
        have fresh : probe ∉ answered := fun mem => unmarked (mark.mpr mem)
        refine ⟨fun p mem => ?_, ?_, fun p pos sent => ?_⟩
        · rcases Finset.mem_insert.mp mem with rfl | old
          · exact ⟨low, high⟩
          · exact h.sent p old
        · rw [Finset.card_insert_of_notMem fresh, ← h.card]
        · have same : UInt16.ofNat p = UInt16.ofNat probe ↔ p = probe := by
            refine ⟨fun eq => ?_, fun eq => by rw [eq]⟩
            have low := ofNat_inj eq
            change p ≤ c.ntransmitted at sent
            omega
          simp only [Bool.or_eq_true, decide_eq_true_eq, same, Finset.mem_insert]
          rw [h.marks p pos sent]

/-! ### Every counted reply has a probe of its own -/

/-- `owners` has one transmitted probe for each counted reply. The newest probe
with an unmarked number is not one of them, unless its mark was taken. -/
structure Owned (c : Counts) (stale : Bool) (owners : Finset Nat) : Prop where
  sent : ∀ p ∈ owners, 1 ≤ p ∧ p ≤ c.ntransmitted
  card : c.nreceived = owners.card
  free : ∀ p, 1 ≤ p → p ≤ c.ntransmitted → c.ntransmitted < p + 65536 →
    c.rcvdTbl (UInt16.ofNat p) = false →
      (stale = true → UInt16.ofNat p ≠ c.nextSeq) → p ∉ owners

theorem Owned.nreceived_le {c : Counts} {stale : Bool} {owners : Finset Nat}
    (h : Owned c stale owners) : c.nreceived ≤ c.ntransmitted := by
  have inside : owners ⊆ Finset.Icc 1 c.ntransmitted := by
    intro p mem
    exact Finset.mem_Icc.mpr (h.sent p mem)
  calc
    c.nreceived = owners.card := h.card
    _ ≤ (Finset.Icc 1 c.ntransmitted).card := Finset.card_le_card inside
    _ = c.ntransmitted := by rw [Nat.card_Icc, Nat.add_sub_cancel]

theorem Owned.attempted {c : Counts} {stale : Bool} {owners : Finset Nat}
    (h : Owned c stale owners) :
    Owned c.attempted (stale || c.rcvdTbl c.nextSeq) owners := by
  refine ⟨h.sent, h.card, fun p low high new unmarked exempt => ?_⟩
  by_cases next : UInt16.ofNat p = c.nextSeq
  · -- the bit was cleared before the attempt, or the attempt made the number stale
    have calm : stale = false ∧ c.rcvdTbl c.nextSeq = false := by
      rw [← Bool.or_eq_false_iff, Bool.eq_false_iff]
      exact fun was => exempt was next
    refine h.free p low high new ?_ ?_
    · rw [next]
      exact calm.2
    · intro was
      rw [calm.1] at was
      exact absurd was Bool.false_ne_true
  · refine h.free p low high new ?_ (fun _ => next)
    simpa [Counts.attempted, next] using unmarked

theorem Owned.advanced {c : Counts} {stale : Bool} {owners : Finset Nat}
    (h : Owned c stale owners) :
    Owned { c.attempted with ntransmitted := c.ntransmitted + 1 } false owners := by
  refine ⟨fun p mem => ?_, h.card, fun p low high new unmarked _ => ?_⟩
  · have old := h.sent p mem
    exact ⟨old.1, by dsimp only; omega⟩
  · dsimp only at high new unmarked
    rcases Nat.lt_or_ge c.ntransmitted p with last | old
    · intro mem
      have bound := h.sent p mem
      omega
    · have apart : UInt16.ofNat p ≠ c.nextSeq := fun same => by
        have low := ofNat_inj same
        omega
      refine h.free p low old (by omega) ?_ (fun _ => apart)
      simpa [Counts.attempted, apart] using unmarked

theorem exists_newest {probe sent : Nat} (high : probe ≤ sent) :
    ∃ p, probe ≤ p ∧ p ≤ sent ∧ sent < p + 65536 ∧ UInt16.ofNat p = UInt16.ofNat probe := by
  refine ⟨sent - (sent - probe) % 65536, ?_, ?_, ?_, ?_⟩
  · omega
  · omega
  · omega
  · apply UInt16.toNat_inj.mp
    rw [UInt16.toNat_ofNat', UInt16.toNat_ofNat']
    omega

theorem Owned.gathered {c : Counts} {stale : Bool} {owners : Finset Nat} {probe : Nat}
    (h : Owned c stale owners) (low : 1 ≤ probe) (high : probe ≤ c.ntransmitted)
    {csfailed : Bool}
    (timely : stale = true → csfailed = false → UInt16.ofNat probe ≠ c.nextSeq) :
    ∃ owners, Owned (c.gathered (UInt16.ofNat probe) csfailed) stale owners := by
  unfold Counts.gathered
  cases csfailed with
  | true => exact ⟨owners, h.sent, h.card, h.free⟩
  | false =>
      simp only [Bool.false_eq_true, if_false]
      split
      · exact ⟨owners, h.sent, h.card, h.free⟩
      · rename_i unmarked
        rw [Bool.not_eq_true] at unmarked
        obtain ⟨newest, after, sent, new, number⟩ := exists_newest high
        have fresh : newest ∉ owners := by
          apply h.free newest (by omega) sent new
          · rw [number]
            exact unmarked
          · rw [number]
            exact fun was => timely was rfl
        refine ⟨insert newest owners, fun p mem => ?_, ?_, fun p pos old last unset exempt => ?_⟩
        · rcases Finset.mem_insert.mp mem with rfl | old
          · exact ⟨by omega, sent⟩
          · exact h.sent p old
        · rw [Finset.card_insert_of_notMem fresh, ← h.card]
        · simp only [Bool.or_eq_false_iff, decide_eq_false_iff_not] at unset
          intro mem
          rcases Finset.mem_insert.mp mem with rfl | mem
          · exact unset.1 number
          · exact h.free p pos old last unset.2 exempt mem

/-! ### One step -/

def Account.balanced (a : Account) : Prop :=
  a.counts.nreceived + a.counts.nrepeats + a.counts.nchecksum = a.gathered ∧
    (a.counts.ntransmitted ≤ 65535 → Exact a.counts a.answered)

def Account.owned (a : Account) : Prop := ∃ owners, Owned a.counts a.stale owners

theorem gathered_sum (c : Counts) (seq : UInt16) (csfailed : Bool) :
    (c.gathered seq csfailed).nreceived + (c.gathered seq csfailed).nrepeats +
      (c.gathered seq csfailed).nchecksum = c.nreceived + c.nrepeats + c.nchecksum + 1 ∧
      (c.gathered seq csfailed).ntransmitted = c.ntransmitted := by
  unfold Counts.gathered
  split
  · exact ⟨by dsimp only; omega, rfl⟩
  · split
    · exact ⟨by dsimp only; omega, rfl⟩
    · exact ⟨by dsimp only; omega, rfl⟩

theorem counts_step_reply (family : Family) (a : Account) {probe : Nat} {reply : Reply}
    (seq : reply.seq = UInt16.ofNat probe) (tv now : Timespec) :
    (step family a (.reply probe reply tv now)).counts =
      a.counts.gathered (UInt16.ofNat probe) reply.csfailed := by
  rw [← seq]
  exact counts_gatherStatistics a.p.st reply tv now

theorem balanced_step (family : Family) (a : Account) (event : Event) (h : a.balanced)
    (valid : Valid a event) : (step family a event).balanced := by
  obtain ⟨sum, exact⟩ := h
  cases event with
  | pinger tv results =>
      have pinged : Pinged a.counts (step family a (.pinger tv results)).counts :=
        pinged_pinger family a.p tv results valid
      unfold Account.balanced
      generalize (step family a (.pinger tv results)).counts = after at pinged ⊢
      cases pinged with
      | waits => exact ⟨sum, exact⟩
      | failed => exact ⟨sum, fun few => (exact few).attempted few⟩
      | sent =>
          refine ⟨sum, fun few => ?_⟩
          change a.counts.ntransmitted + 1 ≤ 65535 at few
          exact (exact (by omega)).advanced few
  | reply probe reply tv now =>
      obtain ⟨low, high, seq⟩ := valid
      obtain ⟨total, sent⟩ := gathered_sum a.counts (UInt16.ofNat probe) reply.csfailed
      unfold Account.balanced
      rw [counts_step_reply family a seq tv now]
      refine ⟨?_, fun few => ?_⟩
      · rw [total, sum]
        rfl
      · rw [sent] at few
        exact (exact few).gathered few low high reply.csfailed

theorem owned_step (family : Family) (a : Account) (event : Event) (h : a.owned)
    (valid : Valid a event) (timely : Timely a event) : (step family a event).owned := by
  obtain ⟨owners, owned⟩ := h
  cases event with
  | pinger tv results =>
      have pinged : Pinged a.counts (step family a (.pinger tv results)).counts :=
        pinged_pinger family a.p tv results valid
      have stale : (step family a (.pinger tv results)).stale =
          if (step family a (.pinger tv results)).counts.ntransmitted = a.counts.ntransmitted then
            a.stale || a.counts.rcvdTbl a.counts.nextSeq &&
              !(step family a (.pinger tv results)).counts.rcvdTbl a.counts.nextSeq
          else false := rfl
      unfold Account.owned
      rw [stale]
      generalize (step family a (.pinger tv results)).counts = after at pinged ⊢
      refine ⟨owners, ?_⟩
      cases pinged with
      | waits =>
          rw [if_pos rfl, Bool.and_not_self, Bool.or_false]
          exact owned
      | failed =>
          have cleared : a.counts.attempted.rcvdTbl a.counts.nextSeq = false := by
            simp [Counts.attempted]
          have kept : a.counts.attempted.ntransmitted = a.counts.ntransmitted := rfl
          rw [if_pos kept, cleared, Bool.not_false, Bool.and_true]
          exact owned.attempted
      | sent =>
          rw [if_neg (by simp)]
          exact owned.advanced
  | reply probe reply tv now =>
      obtain ⟨low, high, seq⟩ := valid
      unfold Account.owned
      rw [counts_step_reply family a seq tv now]
      refine owned.gathered low high fun was good => ?_
      rw [← seq]
      exact timely was good

/-! ### Whole runs -/

def start (p : Ping) : Account := ⟨p, 0, ∅, false⟩

theorem Fresh.balanced {p : Ping} (h : Fresh p) : (start p).balanced := by
  refine ⟨?_, fun _ => ⟨by simp [start], ?_, fun q low high => ?_⟩⟩
  · simp [start, Account.counts, counts, h.nreceived, h.nrepeats, h.nchecksum]
  · simp [start, Account.counts, counts, h.nreceived]
  · simp only [start, Account.counts, counts, h.ntransmitted] at high
    omega

theorem Fresh.owned {p : Ping} (h : Fresh p) : (start p).owned := by
  refine ⟨∅, by simp, ?_, fun q low high => ?_⟩
  · simp [start, Account.counts, counts, h.nreceived]
  · simp only [start, Account.counts, counts, h.ntransmitted] at high
    omega

/-- The counters add up in every run, and are exact for the first 65535 probes;
they stay below the number of probes when no reply meets a taken mark. -/
theorem reply_accounting (family : Family) {p : Ping} (fresh : Fresh p) (events : List Event)
    (valid : Along (step family) Valid (start p) events) :
    let a := run (step family) (start p) events
    a.p.st.nreceived + a.p.st.nrepeats + a.p.st.nchecksum = a.gathered ∧
      (a.p.st.ntransmitted ≤ 65535 → a.p.st.nreceived = a.answered.card) ∧
      (Along (step family) Timely (start p) events → a.p.st.nreceived ≤ a.p.st.ntransmitted) := by
  intro a
  have balanced : a.balanced :=
    run_of_along (fun s e h v => balanced_step family s e h v) fresh.balanced valid
  refine ⟨balanced.1, fun few => (balanced.2 few).card, fun timely => ?_⟩
  have owned : a.owned :=
    run_of_along (fun s e h v => owned_step family s e h v.1 v.2) fresh.owned
      (along_and valid timely)
  obtain ⟨owners, owned⟩ := owned
  exact owned.nreceived_le

def echo (probe : Nat) : Reply where
  cc := 8
  seq := UInt16.ofNat probe
  hops := 64
  csfailed := false
  stamp := ⟨0, 0⟩
  data := []

def refused : SendResult := .failed EAGAIN .empty (by decide)

/-- A probe and its reply, a probe that cannot be sent, and the reply once more. -/
def duplicated : List Event :=
  [.pinger ⟨1000, 0⟩ [.sent], .reply 1 (echo 1) ⟨1000, 500⟩ ⟨1000, 500⟩,
    .pinger ⟨1001, 0⟩ [refused], .reply 1 (echo 1) ⟨1001, 500⟩ ⟨1001, 500⟩]

theorem reply_accounting_duplicate :
    let a := run (step .inet) (start initialPing) duplicated
    (a.p.st.ntransmitted = 1 ∧ a.p.st.nrepeats = 1 ∧ a.gathered = 2) ∧
      a.p.st.nreceived + a.p.st.nrepeats + a.p.st.nchecksum = a.gathered ∧
      a.p.st.nreceived = a.answered.card ∧ a.p.st.nreceived ≤ a.p.st.ntransmitted := by
  have valid : Along (step .inet) Valid (start initialPing) duplicated := by
    refine ⟨fun result mem => ?_, ⟨by decide, by decide, rfl⟩, fun result mem => ?_,
      ⟨by decide, by decide, rfl⟩, trivial⟩
    · rw [List.mem_singleton.mp mem]
      trivial
    · rw [List.mem_singleton.mp mem]
      exact .inl rfl
  obtain ⟨sum, card, low⟩ :=
    reply_accounting .inet (p := initialPing) ⟨rfl, rfl, rfl, rfl⟩ duplicated valid
  refine ⟨by decide, sum, card (by decide), low ⟨trivial, ?_, trivial, ?_, trivial⟩⟩
  · exact fun stale => absurd stale (by decide)
  · exact fun stale => absurd stale (by decide)

/-! ### A late duplicate meets a failed attempt -/

/-- The probe is sent a second after the last one and answered at once. -/
def answeredRound (k : Nat) : List Event :=
  [.pinger ⟨1000 + k, 0⟩ [.sent], .reply (k + 1) (echo (k + 1)) ⟨1000 + k, 500⟩ ⟨1000 + k, 500⟩]

@[irreducible] def answeredRounds (n : Nat) : List Event := (List.range n).flatMap answeredRound

/-- As `ping -s 0` starts: the packet has no room for a time stamp. -/
def untimedPing : Ping :=
  { initialPing with st := { initialState with timing := false, datalen := 0, outpack := [] } }

structure Steady (k : Nat) (a : Account) : Prop where
  ntransmitted : a.p.st.ntransmitted = k
  nreceived : a.p.st.nreceived = k
  timing : a.p.st.timing = false
  quiet : a.p.st.options = ⟨false, false, false, false⟩
  interval : a.p.st.interval = 1000
  gate : a.p.exiting = false ∧ a.p.npackets = 0 ∧ a.p.preload = 1 ∧ a.p.outstanding = false
  paced : a.p.curTime.tvSec = 0 ∨ a.p.curTime = ⟨999 + k, 0⟩ ∧ a.p.tokens = 0

theorem Steady.pace_eq {k : Nat} {a : Account} (h : Steady k a) :
    pace a.p ⟨1000 + k, 0⟩ = .ok { a.p with curTime := ⟨1000 + k, 0⟩, tokens := 0 } := by
  have preload := h.gate.2.2.1
  unfold pace
  dsimp only
  rw [h.interval, preload]
  rcases h.paced with first | ⟨last, none⟩
  · rw [if_pos first]
    rfl
  · rw [last, none, if_neg (by dsimp only; omega), if_neg (by omega)]
    have tokens : min (((1000 + k : Int) - (999 + k)) * 1000 + ((0 : Int) - 0).tdiv 1000000 + 0)
        (wrap 32 (1000 * 1)) = 1000 := by
      rw [show ((1000 + k : Int) - (999 + k)) = 1 by omega]
      decide
    dsimp only
    rw [tokens]
    rfl

theorem Steady.pinger_eq {k : Nat} {a : Account} (h : Steady k a) (result : SendResult) :
    pinger .inet a.p ⟨1000 + k, 0⟩ [result] =
      resend .inet { a.p with curTime := ⟨1000 + k, 0⟩, tokens := 0 } [result] := by
  obtain ⟨exiting, npackets, -, outstanding⟩ := h.gate
  unfold pinger
  rw [if_neg (by simp [exiting, npackets]), h.pace_eq]
  simp [noteOutstanding, outstanding]

def schedule (st : State) : Bool × Options × Int := (st.timing, st.options, st.interval)

theorem gatherTiming_untimed {st : State} (untimed : st.timing = false) (reply : Reply)
    (tv now : Timespec) : gatherTiming st reply tv now = (st, 0) := by
  unfold gatherTiming
  rw [if_neg]
  rintro ⟨timing, -⟩
  rw [untimed] at timing
  exact Bool.false_ne_true timing

theorem schedule_gatherStatistics {st : State} (untimed : st.timing = false) (reply : Reply)
    (tv now : Timespec) : schedule (gatherStatistics st reply tv now).1 = schedule st := by
  obtain ⟨_, _, note⟩ := noted_eq st reply
  have still : (noted st reply).timing = false := by
    rw [note]
    exact untimed
  rw [gatherStatistics_state, gatherTiming_untimed still reply tv now]
  obtain ⟨_, _, _, _, count⟩ := gatherCount_eq (noted st reply) reply
  rw [count, note]
  rfl

theorem Steady.round {k : Nat} {a : Account} (h : Steady k a) :
    Steady (k + 1) (run (step .inet) a (answeredRound k)) ∧
      Along (step .inet) Valid a (answeredRound k) := by
  let sent : State := advanceNtransmitted (rcvdClear a.p.st (UInt16.ofNat (k + 1)))
  have probe : (pinger .inet a.p ⟨1000 + k, 0⟩ [.sent]).1 =
      { a.p with st := sent, curTime := ⟨1000 + k, 0⟩, tokens := 0, oomCount := 0 } := by
    have silent : sent.options = ⟨false, false, false, false⟩ := h.quiet
    rw [h.pinger_eq]
    simp only [resend, sendProbe, probeSent, h.ntransmitted]
    rw [if_neg]
    rintro ⟨-, flood, -⟩
    change sent.options.flood = true at flood
    rw [silent] at flood
    exact Bool.false_ne_true flood
  have transmitted : sent.ntransmitted = k + 1 := congrArg (· + 1) h.ntransmitted
  have received : sent.nreceived = k := h.nreceived
  have unmarked : (counts sent).rcvdTbl (UInt16.ofNat (k + 1)) = false := by
    change (decide _ && _) = false
    rw [decide_eq_false (not_not_intro rfl), Bool.false_and]
  have gathered : counts (gatherStatistics sent (echo (k + 1)) ⟨1000 + k, 500⟩
      ⟨1000 + k, 500⟩).1 = (counts sent).gathered (UInt16.ofNat (k + 1)) false :=
    counts_gatherStatistics sent (echo (k + 1)) _ _
  have untimed : sent.timing = false := h.timing
  have plain := schedule_gatherStatistics untimed (echo (k + 1)) ⟨1000 + k, 500⟩ ⟨1000 + k, 500⟩
  unfold Counts.gathered at gathered
  rw [if_neg Bool.false_ne_true, unmarked, if_neg Bool.false_ne_true] at gathered
  constructor
  · simp only [answeredRound, run_cons, run_nil, step, probe]
    exact {
      ntransmitted := (congrArg Counts.ntransmitted gathered).trans transmitted
      nreceived := (congrArg Counts.nreceived gathered).trans (congrArg (· + 1) received)
      timing := (congrArg (·.1) plain).trans h.timing
      quiet := (congrArg (·.2.1) plain).trans h.quiet
      interval := (congrArg (·.2.2) plain).trans h.interval
      gate := h.gate
      paced := by
        right
        refine ⟨?_, rfl⟩
        simp only [Timespec.mk.injEq, and_true]
        omega }
  · refine ⟨?_, ⟨Nat.le_add_left 1 k, ?_, rfl⟩, trivial⟩
    · intro result mem
      rw [List.mem_singleton.mp mem]
      trivial
    · simp only [step, probe]
      exact le_of_eq transmitted.symm

theorem steady_rounds (n : Nat) :
    Steady n (run (step .inet) (start untimedPing) (answeredRounds n)) ∧
      Along (step .inet) Valid (start untimedPing) (answeredRounds n) := by
  induction n with
  | zero =>
      have none : answeredRounds 0 = [] := by simp [answeredRounds]
      rw [none]
      exact ⟨⟨rfl, rfl, rfl, rfl, rfl, ⟨rfl, rfl, rfl, rfl⟩, Or.inl rfl⟩, trivial⟩
  | succ n ih =>
      have more : answeredRounds (n + 1) = answeredRounds n ++ answeredRound n := by
        simp [answeredRounds, List.range_succ]
      rw [more, run_append]
      exact ⟨ih.1.round.1, along_append.mpr ⟨ih.2, ih.1.round.2⟩⟩

/-- All `n` probes are answered, the attempt at the next one fails, and a second
reply to the first probe comes in. -/
def lateDuplicate (n : Nat) : List Event :=
  answeredRounds n ++
    [.pinger ⟨1000 + n, 0⟩ [refused],
      .reply 1 (echo 1) ⟨1000 + n, 500⟩ ⟨1000 + n, 500⟩]

/-- When the next probe has the number of the first, the attempt clears its mark
and the duplicate is counted. -/
theorem counts_lateDuplicate {n : Nat} (some : 1 ≤ n)
    (turn : UInt16.ofNat (n + 1) = UInt16.ofNat 1) :
    Along (step .inet) Valid (start untimedPing) (lateDuplicate n) ∧
      (run (step .inet) (start untimedPing) (lateDuplicate n)).p.st.ntransmitted = n ∧
      (run (step .inet) (start untimedPing) (lateDuplicate n)).p.st.nreceived = n + 1 := by
  obtain ⟨steady, valid⟩ := steady_rounds n
  unfold lateDuplicate
  rw [run_append, along_append]
  generalize run (step .inet) (start untimedPing) (answeredRounds n) = a at steady
  have attempt : counts (pinger .inet a.p ⟨1000 + n, 0⟩ [refused]).1.st =
      (counts a.p.st).attempted := by
    rw [steady.pinger_eq refused]
    rfl
  have unmarked : (counts a.p.st).attempted.rcvdTbl (UInt16.ofNat 1) = false := by
    change (decide (UInt16.ofNat 1 ≠ UInt16.ofNat (a.p.st.ntransmitted + 1)) && _) = false
    rw [steady.ntransmitted, turn, decide_eq_false (not_not_intro rfl), Bool.false_and]
  have gathered : counts (gatherStatistics (pinger .inet a.p ⟨1000 + n, 0⟩ [refused]).1.st (echo 1)
      ⟨1000 + n, 500⟩ ⟨1000 + n, 500⟩).1 =
      Counts.gathered _ (UInt16.ofNat 1) false :=
    counts_gatherStatistics _ (echo 1) _ _
  unfold Counts.gathered at gathered
  rw [attempt, if_neg Bool.false_ne_true, unmarked, if_neg Bool.false_ne_true] at gathered
  refine ⟨⟨valid, ?_, ⟨le_refl 1, ?_, rfl⟩, trivial⟩, ?_, ?_⟩
  · intro result mem
    rw [List.mem_singleton.mp mem]
    exact Or.inl rfl
  · have kept := congrArg Counts.ntransmitted attempt
    exact le_of_le_of_eq some (kept.trans steady.ntransmitted).symm
  · simp only [run_cons, run_nil, step]
    exact (congrArg Counts.ntransmitted gathered).trans steady.ntransmitted
  · simp only [run_cons, run_nil, step]
    exact (congrArg Counts.nreceived gathered).trans (congrArg (· + 1) steady.nreceived)

theorem untimedPing_fresh : Fresh untimedPing := ⟨rfl, rfl, rfl, rfl⟩

theorem nreceived_gt_ntransmitted :
    Fresh untimedPing ∧
      Along (step .inet) Valid (start untimedPing) (lateDuplicate 65536) ∧
      (run (step .inet) (start untimedPing) (lateDuplicate 65536)).p.st.ntransmitted <
        (run (step .inet) (start untimedPing) (lateDuplicate 65536)).p.st.nreceived := by
  have late := counts_lateDuplicate (n := 65536) (by omega) (by decide)
  refine And.intro untimedPing_fresh (And.intro late.1 ?_)
  rw [late.2.1, late.2.2]
  exact Nat.lt_succ_self 65536

end Baseliner.PingReplyAccounting
