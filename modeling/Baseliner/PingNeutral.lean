import Baseliner.PingReceive

/-! What the accounting of ping does not read: `F_QUIET` (but for local errors),
the flags of the next `sendto`, the address and the identifier, and what was
printed. A step of a ping that is dressed otherwise ends in the same state
dressed otherwise. -/

namespace Baseliner.PingNeutral

open PingStatistics PingSession PingReceive

def touch (quiet : Bool) (confirm : Nat) (st : State) : State :=
  { st with options := { st.options with quiet := quiet }, confirm := confirm }

structure Setting where
  quiet : Bool
  whereto : List UInt8
  ident : UInt16

def dress (s : Setting) (confirm : Nat) (out : List Output) (p : Ping) : Ping :=
  { p with
    st := touch s.quiet confirm p.st
    whereto := s.whereto
    ident := s.ident
    out := out }

def setting (p : Ping) : Setting := ⟨p.st.options.quiet, p.whereto, p.ident⟩

/-- `q` is `p` with this setting, whatever they printed. -/
def Dressed (s : Setting) (p q : Ping) : Prop := ∃ confirm out, q = dress s confirm out p

theorem dressed_dress (s : Setting) (confirm : Nat) (out : List Output) (p : Ping) :
    Dressed s p (dress s confirm out p) := ⟨confirm, out, rfl⟩

theorem dressed_self (p : Ping) : Dressed (setting p) p p := ⟨p.st.confirm, p.out, rfl⟩

theorem Dressed.setting {s : Setting} {p q : Ping} (h : Dressed s p q) : setting q = s := by
  obtain ⟨confirm, out, rfl⟩ := h
  rfl

theorem Dressed.print_left {s : Setting} {p q : Ping} (h : Dressed s p q) (o : Output) :
    Dressed s (p.print o) q := h

theorem Dressed.print_right {s : Setting} {p q : Ping} (h : Dressed s p q) (o : Output) :
    Dressed s p (q.print o) := by
  obtain ⟨confirm, out, rfl⟩ := h
  exact ⟨confirm, o :: out, rfl⟩

theorem dressed_ite {α : Type} {s : Setting} {c d : Prop} [Decidable c] [Decidable d]
    (cond : c ↔ d) {x x' y y' : Ping × α} (pos : c → Dressed s x.1 x'.1)
    (neg : ¬ c → Dressed s y.1 y'.1) :
    Dressed s (if c then x else y).1 (if d then x' else y').1 := by
  by_cases h : c
  · rw [if_pos h, if_pos (cond.mp h)]
    exact pos h
  · rw [if_neg h, if_neg (mt cond.mpr h)]
    exact neg h

theorem dressed_print_left_ite {s : Setting} {c : Prop} [Decidable c] {p q : Ping}
    (h : Dressed s p q) (o : Output) : Dressed s (if c then p.print o else p) q := by
  split
  · exact h.print_left o
  · exact h

theorem dressed_print_right_ite {s : Setting} {c : Prop} [Decidable c] {p q : Ping}
    (h : Dressed s p q) (o : Output) : Dressed s p (if c then q.print o else q) := by
  split
  · exact h.print_right o
  · exact h

/-! ### The state -/

theorem acknowledge_touch (quiet : Bool) (confirm : Nat) (st : State) (seq : UInt16) :
    acknowledge (touch quiet confirm st) seq = touch quiet confirm (acknowledge st seq) := by
  unfold acknowledge
  dsimp only [touch]
  split
  · rfl
  · rfl

theorem addTriptime_touch (quiet : Bool) (confirm : Nat) (st : State) (triptime : Int) :
    addTriptime (touch quiet confirm st) triptime =
      touch quiet confirm (addTriptime st triptime) := by
  unfold addTriptime
  dsimp only [touch]
  split
  · rfl
  · rfl

theorem gatherTiming_touch (quiet : Bool) (confirm : Nat) (st : State) (reply : Reply)
    (tv now : Timespec) :
    gatherTiming (touch quiet confirm st) reply tv now =
      (touch quiet confirm (gatherTiming st reply tv now).1,
        (gatherTiming st reply tv now).2) := by
  unfold gatherTiming
  by_cases timed : st.timing ∧ 8 + 16 ≤ reply.cc
  · rw [if_pos timed, if_pos (show (touch quiet confirm st).timing ∧ 8 + 16 ≤ reply.cc from timed)]
    dsimp only
    rw [Prod.mk.injEq]
    refine ⟨?_, rfl⟩
    split
    · rfl
    · exact addTriptime_touch quiet confirm { st with options := { st.options with
        latency := (restamp reply.stamp now st.options.latency tv).2 } } _
  · rw [if_neg timed,
      if_neg (show ¬ ((touch quiet confirm st).timing ∧ 8 + 16 ≤ reply.cc) from timed)]

theorem gatherCount_touch (quiet : Bool) (confirm : Nat) (st : State) (reply : Reply) :
    gatherCount (touch quiet confirm st) reply =
      (touch quiet confirm (gatherCount st reply).1, (gatherCount st reply).2) := by
  unfold gatherCount rcvdTest
  by_cases bad : reply.csfailed = true
  · rw [if_pos bad, if_pos bad]
    rfl
  · rw [if_neg bad, if_neg bad]
    by_cases marked : st.rcvdTbl reply.seq = true
    · rw [if_pos marked,
        if_pos (show (touch quiet confirm st).rcvdTbl reply.seq = true from marked)]
      rfl
    · rw [if_neg marked,
        if_neg (show ¬ (touch quiet confirm st).rcvdTbl reply.seq = true from marked)]
      rfl

theorem noted_touch (quiet : Bool) (confirm : Nat) (st : State) (reply : Reply) :
    noted (touch quiet confirm st) reply = touch quiet confirm (noted st reply) := by
  unfold noted
  split
  · rfl
  · exact acknowledge_touch quiet confirm { st with nreceived := st.nreceived + 1 } reply.seq

theorem gatherStatistics_touch (quiet : Bool) (confirm : Nat) (st : State) (reply : Reply)
    (tv now : Timespec) :
    ∃ confirm', (gatherStatistics (touch quiet confirm st) reply tv now).1 =
      touch quiet confirm' (gatherStatistics st reply tv now).1 := by
  rw [gatherStatistics_state, gatherStatistics_state, noted_touch, gatherTiming_touch,
    gatherCount_touch]
  exact ⟨_, rfl⟩

theorem slowdown_touch (quiet : Bool) (confirm : Nat) (st : State) :
    slowdown (touch quiet confirm st) = touch quiet confirm (slowdown st) := by
  unfold slowdown
  dsimp only [touch]
  split
  · rfl
  · rfl

/-! ### Sending -/

theorem dressed_sendProbe (family : Family) {s : Setting} {p q : Ping} (h : Dressed s p q) :
    Dressed s (sendProbe family p) (sendProbe family q) := by
  obtain ⟨confirm, out, rfl⟩ := h
  cases family with
  | inet => exact ⟨confirm, out, rfl⟩
  | inet6 niquery => exact ⟨0, out, rfl⟩

theorem Dressed.of_eq {s : Setting} {p q p' q' : Ping} {f : Ping → Ping}
    (left : ∃ out, p' = { f p with out := out }) (right : ∃ out, q' = { f q with out := out })
    (h : Dressed s (f p) (f q)) : Dressed s p' q' := by
  obtain ⟨out, rfl⟩ := left
  obtain ⟨out', rfl⟩ := right
  obtain ⟨confirm, last, same⟩ := h
  rw [same]
  exact ⟨confirm, out', rfl⟩

theorem Dressed.hardLocalError {s : Setting} {p q : Ping} (h : Dressed s p q) (i : Int)
    (errno : Nat) : Dressed s (hardLocalError p i errno).1 (hardLocalError q i errno).1 := by
  apply Dressed.of_eq (f := fun p => { p with st := advanceNtransmitted p.st, tokens := 0 })
    (hardLocalError_eq p i errno) (hardLocalError_eq q i errno)
  obtain ⟨confirm, out, rfl⟩ := h
  exact ⟨confirm, out, rfl⟩

theorem Dressed.waitOrGiveUp {s : Setting} {p q : Ping} (h : Dressed s p q) (errno : Nat) :
    Dressed s (waitOrGiveUp p errno).1 (waitOrGiveUp q errno).1 := by
  have h' := h
  obtain ⟨confirm, out, rfl⟩ := h
  unfold PingSession.waitOrGiveUp
  exact dressed_ite Iff.rfl (fun _ => h') fun _ => h'.hardLocalError 0 errno

theorem Dressed.noBuffers {s : Setting} {p q : Ping} (h : Dressed s p q) (errno : Nat) :
    Dressed s (noBuffers p errno).1 (noBuffers q errno).1 := by
  obtain ⟨confirm, out, rfl⟩ := h
  have slow : slowdown (dress s confirm out p).st = touch s.quiet confirm (slowdown p.st) :=
    slowdown_touch s.quiet confirm p.st
  unfold PingSession.noBuffers
  apply Dressed.waitOrGiveUp
  rw [slow]
  exact ⟨confirm, out, rfl⟩

theorem Dressed.probeSent {s : Setting} {p q : Ping} (h : Dressed s p q) :
    Dressed s (probeSent p).1 (probeSent q).1 := by
  apply Dressed.of_eq (f := fun p => { p with oomCount := 0, st := advanceNtransmitted p.st })
    (probeSent_eq p) (probeSent_eq q)
  obtain ⟨confirm, out, rfl⟩ := h
  exact ⟨confirm, out, rfl⟩

theorem Dressed.icmpErrorReport {s : Setting} {p q : Ping} (h : Dressed s p q)
    (e e' : IcmpError) : Dressed s (icmpErrorReport p e) (icmpErrorReport q e') :=
  Dressed.of_eq (f := id) (icmpErrorReport_eq p e) (icmpErrorReport_eq q e') h

theorem Dressed.noteOutstanding {s : Setting} {p q : Ping} (h : Dressed s p q) :
    Dressed s (noteOutstanding p) (noteOutstanding q) :=
  Dressed.of_eq (f := id) (noteOutstanding_eq p) (noteOutstanding_eq q) h

theorem Dressed.confirmFlag {s : Setting} {p q : Ping} (h : Dressed s p q) :
    q.st.confirmFlag = p.st.confirmFlag := by
  obtain ⟨confirm, out, rfl⟩ := h
  rfl

theorem Dressed.aborted {s : Setting} {p q : Ping} (h : Dressed s p q) :
    q.aborted = p.aborted := by
  obtain ⟨confirm, out, rfl⟩ := h
  rfl

theorem Dressed.dropConfirm {s : Setting} {p q : Ping} (h : Dressed s p q) :
    Dressed s (dropConfirm p) (dropConfirm q) := by
  obtain ⟨confirm, out, rfl⟩ := h
  exact ⟨confirm, out, rfl⟩

/-! ### One turn of the loop -/

section Resend

variable {family family' : Family} {s : Setting} {p q : Ping} {rest rest' : List SendResult}
  {errno : Nat} {queue queue' : ErrQueue} {set : errno ≠ 0}

theorem Dressed.resend_sent (probe : Dressed s (sendProbe family p) (sendProbe family' q)) :
    Dressed s (resend family p (.sent :: rest)).1 (resend family' q (.sent :: rest')).1 := by
  rw [resend, resend]
  exact probe.probeSent

theorem Dressed.abort (h : Dressed s p q) :
    Dressed s { p with aborted := true } { q with aborted := true } := by
  obtain ⟨confirm, out, rfl⟩ := h
  exact ⟨confirm, out, rfl⟩

theorem Dressed.resend_short (probe : Dressed s (sendProbe family p) (sendProbe family' q)) :
    Dressed s (resend family p (.short :: rest)).1 (resend family' q (.short :: rest')).1 := by
  rw [resend, resend]
  exact probe.abort

theorem Dressed.resend_soft (probe : Dressed s (sendProbe family p) (sendProbe family' q))
    (soft : ¬ hardErrno errno) :
    Dressed s (resend family p (.failed errno queue set :: rest)).1
      (resend family' q (.failed errno queue' set :: rest')).1 := by
  rw [PingSession.resend_soft soft, PingSession.resend_soft soft]
  refine dressed_ite Iff.rfl (fun _ => probe.noBuffers errno) fun _ => ?_
  obtain ⟨confirm, out, same⟩ := probe
  rw [same]
  exact ⟨confirm, out, rfl⟩

theorem Dressed.resend_noExtended (probe : Dressed s (sendProbe family p) (sendProbe family' q))
    (hard : hardErrno errno) :
    Dressed s (resend family p (.failed errno .noExtended set :: rest)).1
      (resend family' q (.failed errno .noExtended set :: rest')).1 := by
  rw [PingSession.resend_noExtended hard, PingSession.resend_noExtended hard]
  exact probe.abort

theorem Dressed.resend_silent (probe : Dressed s (sendProbe family p) (sendProbe family' q))
    (hard : hardErrno errno) (h : Dressed s p q) (alive : p.aborted = false)
    (silent : queue = .empty ∨ queue = .otherOrigin)
    (again : (sendProbe family p).st.confirmFlag ≠ 0 ∧ errno = EINVAL →
      Dressed s (resend family (PingSession.dropConfirm (sendProbe family p)) rest).1
        (resend family' (PingSession.dropConfirm (sendProbe family' q)) rest').1) :
    Dressed s (resend family p (.failed errno queue set :: rest)).1
      (resend family' q (.failed errno queue set :: rest')).1 := by
  have alive' : q.aborted = false := h.aborted.trans alive
  rw [PingSession.resend_silent hard alive silent, PingSession.resend_silent hard alive' silent]
  exact dressed_ite (by rw [probe.confirmFlag]) again fun _ => probe.hardLocalError 0 errno

end Resend

def gained (p : Ping) (tv : Timespec) : Int :=
  (tv.tvSec - p.curTime.tvSec) * 1000 + (tv.tvNsec - p.curTime.tvNsec).tdiv 1000000

theorem pace_dress (s : Setting) (confirm : Nat) (out : List Output) (p : Ping) (tv : Timespec) :
    pace (dress s confirm out p) tv = (pace p tv).map (dress s confirm out) := by
  let q := dress s confirm out p
  unfold pace
  dsimp only
  by_cases first : p.curTime.tvSec = 0
  · rw [if_pos first, if_pos (show (dress s confirm out p).curTime.tvSec = 0 from first)]
    rfl
  · rw [if_neg first, if_neg (show ¬ (dress s confirm out p).curTime.tvSec = 0 from first)]
    by_cases flood : p.st.interval = 0 ∧ gained p tv < MININTERVAL ∧
        inFlight p.st p.nerrors ≥ p.preload
    · have flood' : q.st.interval = 0 ∧ gained q tv < MININTERVAL ∧
          inFlight q.st q.nerrors ≥ q.preload := flood
      unfold gained at flood flood'
      rw [if_pos flood, if_pos flood']
      rfl
    · have flood' : ¬ (q.st.interval = 0 ∧ gained q tv < MININTERVAL ∧
          inFlight q.st q.nerrors ≥ q.preload) := flood
      unfold gained at flood flood'
      rw [if_neg flood, if_neg flood']
      by_cases short : min (gained p tv + p.tokens) (wrap 32 (p.st.interval * p.preload)) <
          p.st.interval
      · have short' : min (gained q tv + q.tokens) (wrap 32 (q.st.interval * q.preload)) <
            q.st.interval := short
        unfold gained at short short'
        rw [if_pos short, if_pos short']
        rfl
      · have short' : ¬ min (gained q tv + q.tokens) (wrap 32 (q.st.interval * q.preload)) <
            q.st.interval := short
        unfold gained at short short'
        rw [if_neg short, if_neg short']
        rfl

theorem dressed_pinger (family family' : Family) {s : Setting} {p q : Ping} (h : Dressed s p q)
    (tv : Timespec) (results results' : List SendResult)
    (loop : ¬ (p.exiting ∨ p.npackets ≠ 0 ∧ p.npackets ≤ p.st.ntransmitted ∧ p.deadline = 0) →
      ∀ p' q', pace p tv = .ok p' → Dressed s (PingSession.noteOutstanding p') q' →
        Dressed s (resend family (PingSession.noteOutstanding p') results).1
          (resend family' q' results').1) :
    Dressed s (pinger family p tv results).1 (pinger family' q tv results').1 := by
  have h' := h
  obtain ⟨confirm, out, rfl⟩ := h
  unfold pinger
  refine dressed_ite Iff.rfl (fun _ => h') fun busy => ?_
  rw [pace_dress]
  cases paced : pace p tv with
  | error wait => exact h'
  | ok r =>
      apply loop busy r _ paced
      exact (dressed_dress s confirm out r).noteOutstanding

/-! ### Replies -/

theorem Dressed.gatherStatistics {s : Setting} {p q : Ping} (h : Dressed s p q) (reply : Reply)
    (tv now : Timespec) :
    Dressed s { p with st := (gatherStatistics p.st reply tv now).1 }
      { q with st := (gatherStatistics q.st reply tv now).1 } := by
  obtain ⟨confirm, out, rfl⟩ := h
  obtain ⟨confirm', same⟩ := gatherStatistics_touch s.quiet confirm p.st reply tv now
  have same' : (PingStatistics.gatherStatistics (dress s confirm out p).st reply tv now).1 =
      touch s.quiet confirm' (PingStatistics.gatherStatistics p.st reply tv now).1 := same
  rw [same']
  exact ⟨confirm', out, rfl⟩

theorem Dressed.gatherReply {s : Setting} {p q : Ping} (h : Dressed s p q) (reply : Reply)
    (tv now : Timespec) :
    Dressed s (gatherReply p reply tv now).1 (gatherReply q reply tv now).1 :=
  Dressed.of_eq
    (f := fun p => { p with st := (PingStatistics.gatherStatistics p.st reply tv now).1 })
    (gatherReply_eq p reply tv now) (gatherReply_eq q reply tv now)
    (h.gatherStatistics reply tv now)

theorem Dressed.endLine {s : Setting} {p q : Ping} (h : Dressed s p q) :
    Dressed s (endLine p) (endLine q) :=
  Dressed.of_eq (f := id) (endLine_eq p) (endLine_eq q) h

theorem Dressed.acknowledge {s : Setting} {p q : Ping} (h : Dressed s p q) (seq : UInt16) :
    Dressed s { p with st := acknowledge p.st seq } { q with st := acknowledge q.st seq } := by
  obtain ⟨confirm, out, rfl⟩ := h
  have same : PingStatistics.acknowledge (dress s confirm out p).st seq =
      touch s.quiet confirm (PingStatistics.acknowledge p.st seq) :=
    acknowledge_touch s.quiet confirm p.st seq
  rw [same]
  exact ⟨confirm, out, rfl⟩

theorem Dressed.creditError {s : Setting} {p q : Ping} (h : Dressed s p q) (family : Family)
    (e : IcmpError) : Dressed s (creditError family p e) (creditError family q e) := by
  cases family with
  | inet =>
      obtain ⟨confirm, out, same⟩ := h.acknowledge e.seq
      obtain ⟨confirm', out', rfl⟩ := h
      refine ⟨confirm, out, ?_⟩
      change { ({ dress s confirm' out' p with
        st := PingStatistics.acknowledge _ e.seq } : Ping) with nerrors := p.nerrors + 1 } = _
      rw [same]
      rfl
  | inet6 niquery =>
      obtain ⟨confirm, out, rfl⟩ := h
      exact ⟨confirm, out, rfl⟩

end Baseliner.PingNeutral
