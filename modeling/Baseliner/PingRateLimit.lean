import Mathlib.Tactic.Linarith
import Mathlib.Tactic.Ring
import Baseliner.GuardedRuns
import Baseliner.PingSession

/-! The token bucket of `pinger`, for an interval that stays. A call takes tokens for the
milliseconds since the last probe, pays an interval for the next one, and gives the tokens back
or loses them when the probe could not be sent. `cur_time` with second 0 stands for the first
call. -/

namespace Baseliner.PingRateLimit

open GuardedRuns PingStatistics PingSession

def INT_MAX : Int := 2 ^ 31 - 1

/-- The test of `setup` that ends with "illegal preload and/or interval". -/
def legalPreload (interval preload : Int) : Prop := ¬ interval ≥ INT_MAX.tdiv preload

/-- A sent probe, or one that fails with `EAGAIN`, `ENOBUFS` or a hard error; what else happens
between two calls leaves the pacing alone. -/
inductive Event
  | call (tv : Timespec) (results : List SendResult)
  | other (p : Ping)

structure Watch where
  ping : Ping
  readings : Option (Timespec × Timespec) := none

def Sleeps (p : Ping) : Prop :=
  p.exiting ∨ p.npackets ≠ 0 ∧ p.npackets ≤ p.st.ntransmitted ∧ p.deadline = 0

instance (p : Ping) : Decidable (Sleeps p) := inferInstanceAs (Decidable (_ ∨ _))

def step (family : Family) (w : Watch) : Event → Watch
  | .call tv results =>
      { ping := (pinger family w.ping tv results).1
        readings :=
          if Sleeps w.ping then w.readings
          else some ((w.readings.map Prod.fst).getD tv, tv) }
  | .other p => { w with ping := p }

structure Undisturbed (p q : Ping) : Prop where
  interval : q.st.interval = p.st.interval
  adaptive : q.st.options.adaptive = p.st.options.adaptive
  ntransmitted : q.st.ntransmitted = p.st.ntransmitted
  preload : q.preload = p.preload
  tokens : q.tokens = p.tokens
  curTime : q.curTime = p.curTime

/-- The clock does not go back, and between the calls only other things happen. -/
def Valid (w : Watch) : Event → Prop
  | .call tv _ =>
      (0 ≤ tv.tvNsec ∧ tv.tvNsec < 1000000000) ∧
        ∀ first last, w.readings = some (first, last) → last.nanoseconds ≤ tv.nanoseconds
  | .other p => Undisturbed w.ping p

/-- No call that looks at `cur_time`, other than the first, finds the second 0 in it. -/
def Dated (w : Watch) : Event → Prop
  | .call _ _ => ¬ Sleeps w.ping → w.readings ≠ none → w.ping.curTime.tvSec ≠ 0
  | .other _ => True

/-- The tokens are within the bucket, and what was sent beyond `preload` took its time; the
seconds are for the fractions that a division cuts off. -/
structure Limited (interval preload : Int) (w : Watch) : Prop where
  nonneg : 0 ≤ w.ping.tokens
  le : w.ping.tokens ≤ interval * preload
  sent : ∀ first last, w.readings = some (first, last) →
    ((w.ping.st.ntransmitted : Int) - preload) * interval * 1000000 ≤
      last.nanoseconds - first.nanoseconds + (last.tvSec - first.tvSec) * 1000000

/-! ### One call -/

theorem Undisturbed.refl (p : Ping) : Undisturbed p p := ⟨rfl, rfl, rfl, rfl, rfl, rfl⟩

theorem Undisturbed.trans {p q r : Ping} (h : Undisturbed p q) (k : Undisturbed q r) :
    Undisturbed p r :=
  ⟨k.interval.trans h.interval, k.adaptive.trans h.adaptive, k.ntransmitted.trans h.ntransmitted,
    k.preload.trans h.preload, k.tokens.trans h.tokens, k.curTime.trans h.curTime⟩

theorem sendProbe_undisturbed (family : Family) (p : Ping) :
    Undisturbed p (sendProbe family p) := by
  cases family with
  | inet => exact ⟨rfl, rfl, rfl, rfl, rfl, rfl⟩
  | inet6 niquery => exact ⟨rfl, rfl, rfl, rfl, rfl, rfl⟩

theorem acknowledge_undisturbed (p : Ping) (seq : UInt16) (n : ℕ) :
    Undisturbed p { p with st := acknowledge p.st seq, nerrors := n } := by
  unfold acknowledge
  dsimp only
  split_ifs <;> exact ⟨rfl, rfl, rfl, rfl, rfl, rfl⟩

theorem icmpErrorReport_undisturbed (p : Ping) (e : IcmpError) :
    Undisturbed p (icmpErrorReport p e) := by
  obtain ⟨out, eq⟩ := icmpErrorReport_eq p e
  rw [eq]
  exact ⟨rfl, rfl, rfl, rfl, rfl, rfl⟩

theorem localErrorMsg_undisturbed (p : Ping) (eeErrno eeInfo : ℕ) :
    Undisturbed p (localErrorMsg p eeErrno eeInfo) := by
  obtain ⟨out, eq⟩ := localErrorMsg_eq p eeErrno eeInfo
  rw [eq]
  exact ⟨rfl, rfl, rfl, rfl, rfl, rfl⟩

theorem creditError_undisturbed (family : Family) (p : Ping) (e : IcmpError) :
    Undisturbed p (creditError family p e) := by
  cases family with
  | inet => exact acknowledge_undisturbed p e.seq (p.nerrors + 1)
  | inet6 niquery => exact ⟨rfl, rfl, rfl, rfl, rfl, rfl⟩

theorem receiveErrorMsg_undisturbed (family : Family) (p : Ping) (queue : ErrQueue) (errno : ℕ) :
    Undisturbed p (receiveErrorMsg family p queue errno).1 := by
  cases queue with
  | icmpOrigin e =>
      rw [receiveErrorMsg_icmp]
      split_ifs
      · exact (creditError_undisturbed family p e).trans (icmpErrorReport_undisturbed _ e)
      · exact .refl p
  | localOrigin eeErrno eeInfo =>
      cases family <;> exact localErrorMsg_undisturbed p eeErrno eeInfo
  | empty => cases family <;> exact .refl p
  | otherOrigin => cases family <;> exact .refl p
  | noExtended => cases family <;> exact ⟨rfl, rfl, rfl, rfl, rfl, rfl⟩

/-- What sending does to the tokens and the count: the probe was paid for already, and the
tokens are kept, lost, or given back without a probe. -/
structure Settled (p q : Ping) : Prop where
  interval : q.st.interval = p.st.interval
  adaptive : q.st.options.adaptive = p.st.options.adaptive
  preload : q.preload = p.preload
  curTime : q.curTime = p.curTime
  outcome :
    (q.tokens = p.tokens ∨ q.tokens = 0) ∧
        (q.st.ntransmitted = p.st.ntransmitted ∨ q.st.ntransmitted = p.st.ntransmitted + 1) ∨
      q.tokens = wrap 32 (p.tokens + p.st.interval) ∧ q.st.ntransmitted = p.st.ntransmitted

theorem Undisturbed.settled {p q : Ping} (h : Undisturbed p q) : Settled p q :=
  ⟨h.interval, h.adaptive, h.preload, h.curTime, .inl ⟨.inl h.tokens, .inl h.ntransmitted⟩⟩

theorem Undisturbed.then {p q r : Ping} (h : Undisturbed p q) (k : Settled q r) : Settled p r := by
  refine ⟨k.interval.trans h.interval, k.adaptive.trans h.adaptive, k.preload.trans h.preload,
    k.curTime.trans h.curTime, ?_⟩
  rw [← h.tokens, ← h.ntransmitted, ← h.interval]
  exact k.outcome

theorem probeSent_settled (p : Ping) : Settled p (probeSent p).1 := by
  obtain ⟨out, eq⟩ := probeSent_eq p
  rw [eq]
  exact ⟨rfl, rfl, rfl, rfl, .inl ⟨.inl rfl, .inr rfl⟩⟩

theorem hardLocalError_settled (p : Ping) (i : Int) (errno : ℕ) :
    Settled p (hardLocalError p i errno).1 := by
  obtain ⟨out, eq⟩ := hardLocalError_eq p i errno
  rw [eq]
  exact ⟨rfl, rfl, rfl, rfl, .inl ⟨.inr rfl, .inr rfl⟩⟩

theorem noBuffers_settled {p : Ping} (fixed : p.st.options.adaptive = false) (errno : ℕ) :
    Settled p (noBuffers p errno).1 := by
  have slow : slowdown p.st = { p.st with rttAddend := (slowdown p.st).rttAddend } := by
    simp [slowdown, fixed]
  unfold noBuffers waitOrGiveUp
  rw [slow]
  split_ifs
  · exact ⟨rfl, rfl, rfl, rfl, .inl ⟨.inr rfl, .inl rfl⟩⟩
  · obtain ⟨out, eq⟩ := hardLocalError_eq { p with
      st := { p.st with rttAddend := (slowdown p.st).rttAddend }
      tokens := 0
      oomCount := wrap 32 (p.oomCount + 1) } 0 errno
    rw [eq]
    exact ⟨rfl, rfl, rfl, rfl, .inl ⟨.inr rfl, .inr rfl⟩⟩

theorem resend_settled (family : Family) (results : List SendResult) {p : Ping}
    (fixed : p.st.options.adaptive = false) : Settled p (resend family p results).1 := by
  induction results generalizing p with
  | nil => exact (Undisturbed.refl p).settled
  | cons result rest ih =>
      have tried := sendProbe_undisturbed family p
      have still := tried.adaptive.trans fixed
      refine tried.then ?_
      cases result with
      | sent => exact probeSent_settled _
      | short => exact ⟨rfl, rfl, rfl, rfl, .inl ⟨.inl rfl, .inl rfl⟩⟩
      | failed errno queue set =>
          simp only [resend]
          have error := receiveErrorMsg_undisturbed family (sendProbe family p) queue errno
          generalize receiveErrorMsg family (sendProbe family p) queue errno = received at error ⊢
          obtain ⟨q, i, errno'⟩ := received
          have confirmed : Undisturbed (sendProbe family p) (dropConfirm q) :=
            error.trans ⟨rfl, rfl, rfl, rfl, rfl, rfl⟩
          dsimp only
          split_ifs
          · exact noBuffers_settled still errno
          · exact ⟨rfl, rfl, rfl, rfl, .inr ⟨rfl, rfl⟩⟩
          · exact error.settled
          · exact error.then (hardLocalError_settled q 0 errno')
          · exact confirmed.then (ih (confirmed.adaptive.trans still))
          · exact error.then (ih (error.adaptive.trans still))
          · exact error.then (hardLocalError_settled q i errno')

/-! ### Tokens -/

section Tokens

variable {interval preload : Int}

theorem legalPreload.fits (legal : legalPreload interval preload) (one : 1 ≤ preload) :
    interval * preload < 2 ^ 31 := by
  have quotient := Int.ediv_mul_le INT_MAX (show preload ≠ 0 by omega)
  rw [legalPreload, Int.tdiv_eq_ediv_of_nonneg (by decide), ge_iff_le, not_le] at legal
  have product := mul_le_mul_of_nonneg_right legal.le (show 0 ≤ preload by omega)
  rw [INT_MAX] at quotient product
  omega

/-- The milliseconds of a refill, in nanoseconds: a negative fraction is cut off towards zero,
but then the seconds have gone up. -/
theorem refill_le {c tv : Timespec} (hc : 0 ≤ c.tvNsec ∧ c.tvNsec < 1000000000)
    (ht : 0 ≤ tv.tvNsec ∧ tv.tvNsec < 1000000000) (order : c.nanoseconds ≤ tv.nanoseconds) :
    ((tv.tvSec - c.tvSec) * 1000 + (tv.tvNsec - c.tvNsec).tdiv 1000000) * 1000000 ≤
      tv.nanoseconds - c.nanoseconds + (tv.tvSec - c.tvSec) * 1000000 := by
  rw [Timespec.nanoseconds, Timespec.nanoseconds] at *
  by_cases back : tv.tvNsec - c.tvNsec < 0
  · have cut : (tv.tvNsec - c.tvNsec).tdiv 1000000 = -(-(tv.tvNsec - c.tvNsec) / 1000000) := by
      rw [← Int.tdiv_eq_ediv_of_nonneg (by omega), Int.neg_tdiv, Int.neg_neg]
    rw [cut]
    omega
  · rw [Int.tdiv_eq_ediv_of_nonneg (by omega)]
    omega

structure Paid (interval preload : Int) (p q : Ping) (tv : Timespec) : Prop where
  nonneg : 0 ≤ q.tokens
  le : q.tokens + interval ≤ interval * preload
  refilled : p.curTime.tvSec ≠ 0 → q.tokens + interval ≤ p.tokens +
    ((tv.tvSec - p.curTime.tvSec) * 1000 + (tv.tvNsec - p.curTime.tvNsec).tdiv 1000000)
  state : ∃ tokens, q = { p with curTime := tv, tokens := tokens }

theorem pace_paid {p q : Ping} {tv : Timespec} (pos : 0 < interval) (one : 1 ≤ preload)
    (fits : interval * preload < 2 ^ 31) (own : p.st.interval = interval)
    (loaded : p.preload = preload) (ok : pace p tv = .ok q) : Paid interval preload p q tv := by
  have state := pace_ok ok
  have least : interval * (preload - 1) = interval * preload - interval := by ring
  have cap : interval ≤ interval * preload := le_mul_of_one_le_right pos.le one
  unfold pace at ok
  rw [own, loaded] at ok
  dsimp only at ok
  split_ifs at ok with first flood wait
  · obtain rfl := Except.ok.inj ok
    rw [least, wrap32_of_fits (by omega) (by omega)] at *
    exact ⟨by dsimp only; omega, by dsimp only; omega, fun later => absurd first later, state⟩
  · obtain rfl := Except.ok.inj ok
    rw [wrap32_of_fits (x := interval * preload) (by omega) fits] at *
    rw [wrap32_of_fits (by omega) (by omega)] at *
    exact ⟨by dsimp only; omega, by dsimp only; omega, fun _ => by dsimp only; omega, state⟩

/-- What was paid, with what is left, is covered by the bucket and the time up to `cur_time`. -/
structure Covered (interval preload : Int) (first : Timespec) (p : Ping) : Prop where
  normal : 0 ≤ p.curTime.tvNsec ∧ p.curTime.tvNsec < 1000000000
  spent : ((p.st.ntransmitted : Int) * interval + p.tokens) * 1000000 ≤
    interval * preload * 1000000 + (p.curTime.nanoseconds - first.nanoseconds) +
      (p.curTime.tvSec - first.tvSec) * 1000000

structure Paced (interval preload : Int) (w : Watch) : Prop where
  own : w.ping.st.interval = interval
  fixed : w.ping.st.options.adaptive = false
  loaded : w.ping.preload = preload
  nonneg : 0 ≤ w.ping.tokens
  le : w.ping.tokens ≤ interval * preload
  start : w.readings = none → w.ping.st.ntransmitted = 0 ∧ w.ping.curTime.tvSec = 0
  covered : ∀ first last, w.readings = some (first, last) →
    Covered interval preload first w.ping ∧
      (0 ≤ last.tvNsec ∧ last.tvNsec < 1000000000) ∧
      w.ping.curTime.nanoseconds ≤ last.nanoseconds

theorem Paced.limited {w : Watch} (h : Paced interval preload w) : Limited interval preload w := by
  refine ⟨h.nonneg, h.le, fun first last read => ?_⟩
  obtain ⟨⟨normal, spent⟩, within_, order⟩ := h.covered first last read
  have seconds : w.ping.curTime.tvSec ≤ last.tvSec := by
    rw [Timespec.nanoseconds, Timespec.nanoseconds] at order
    omega
  have nonneg := h.nonneg
  have split : ((w.ping.st.ntransmitted : Int) - preload) * interval * 1000000 =
      (w.ping.st.ntransmitted : Int) * interval * 1000000 - interval * preload * 1000000 := by
    ring
  have spent' : (w.ping.st.ntransmitted : Int) * interval * 1000000 + w.ping.tokens * 1000000 ≤
      interval * preload * 1000000 + (w.ping.curTime.nanoseconds - first.nanoseconds) +
        (w.ping.curTime.tvSec - first.tvSec) * 1000000 := by
    rw [← Int.add_mul]
    exact spent
  rw [split]
  omega

theorem Paced.undisturbed {w : Watch} {q : Ping} (h : Paced interval preload w)
    (same : Undisturbed w.ping q) : Paced interval preload { w with ping := q } := by
  obtain ⟨hInterval, hAdaptive, hSent, hPreload, hTokens, hTime⟩ := same
  refine ⟨hInterval.trans h.own, hAdaptive.trans h.fixed, hPreload.trans h.loaded,
    ?_, ?_, ?_, ?_⟩
  · exact hTokens ▸ h.nonneg
  · exact hTokens ▸ h.le
  · intro fresh
    exact hSent ▸ hTime ▸ h.start fresh
  · intro first last read
    obtain ⟨⟨normal, spent⟩, rest⟩ := h.covered first last read
    refine ⟨⟨?_, ?_⟩, ?_⟩
    · change 0 ≤ q.curTime.tvNsec ∧ q.curTime.tvNsec < 1000000000
      rw [hTime]
      exact normal
    · change ((q.st.ntransmitted : Int) * interval + q.tokens) * 1000000 ≤ interval * preload *
        1000000 + (q.curTime.nanoseconds - first.nanoseconds) +
          (q.curTime.tvSec - first.tvSec) * 1000000
      rw [hTime, hSent, hTokens]
      exact spent
    · change _ ∧ q.curTime.nanoseconds ≤ last.nanoseconds
      rw [hTime]
      exact rest

theorem covered_settled {first : Timespec} {q r : Ping} (pos : 0 < interval)
    (fits : interval * preload < 2 ^ 31) (own : q.st.interval = interval)
    (nonneg : 0 ≤ q.tokens) (le : q.tokens + interval ≤ interval * preload)
    (normal : 0 ≤ q.curTime.tvNsec ∧ q.curTime.tvNsec < 1000000000)
    (paid : (((q.st.ntransmitted : Int) + 1) * interval + q.tokens) * 1000000 ≤
      interval * preload * 1000000 + (q.curTime.nanoseconds - first.nanoseconds) +
        (q.curTime.tvSec - first.tvSec) * 1000000)
    (settled : Settled q r) :
    0 ≤ r.tokens ∧ r.tokens ≤ interval * preload ∧ Covered interval preload first r := by
  have count : ((q.st.ntransmitted : Int) + 1) * interval =
      (q.st.ntransmitted : Int) * interval + interval := by ring
  have back : wrap 32 (q.tokens + q.st.interval) = q.tokens + interval := by
    rw [own]
    exact wrap32_of_fits (by omega) (by omega)
  have outcome : r.tokens ≤ interval * preload ∧ 0 ≤ r.tokens ∧
      (r.st.ntransmitted : Int) * interval + r.tokens ≤
        ((q.st.ntransmitted : Int) + 1) * interval + q.tokens := by
    rw [count]
    rcases settled.outcome with ⟨tokens, sent⟩ | ⟨tokens, sent⟩
    · rcases sent with sent | sent
      · rw [sent]
        omega
      · rw [sent, Nat.cast_add, Nat.cast_one, count]
        omega
    · rw [tokens, back, sent]
      omega
  refine ⟨outcome.2.1, outcome.1, ?_, ?_⟩
  · rw [settled.curTime]
    exact normal
  · rw [settled.curTime]
    have scaled := mul_le_mul_of_nonneg_right outcome.2.2 (show (0 : Int) ≤ 1000000 by decide)
    exact scaled.trans paid

theorem paced_paid {w : Watch} {q r : Ping} {tv : Timespec} (h : Paced interval preload w)
    (pos : 0 < interval) (fits : interval * preload < 2 ^ 31)
    (normal : 0 ≤ tv.tvNsec ∧ tv.tvNsec < 1000000000)
    (order : ∀ first last, w.readings = some (first, last) → last.nanoseconds ≤ tv.nanoseconds)
    (dated : w.readings ≠ none → w.ping.curTime.tvSec ≠ 0)
    (paid : Paid interval preload w.ping q tv) (settled : Settled q r) :
    Paced interval preload ⟨r, some ((w.readings.map Prod.fst).getD tv, tv)⟩ := by
  obtain ⟨nonneg, le, refilled, tokens, rfl⟩ := paid
  have own := h.own
  have bought : ((((w.ping.st.ntransmitted : Int) + 1) * interval + tokens) * 1000000 ≤
      interval * preload * 1000000 +
        (tv.nanoseconds - ((w.readings.map Prod.fst).getD tv).nanoseconds) +
        (tv.tvSec - ((w.readings.map Prod.fst).getD tv).tvSec) * 1000000) := by
    cases read : w.readings with
    | none =>
        rw [(h.start read).1]
        simp only [Option.map_none, Option.getD_none] at le ⊢
        omega
    | some both =>
        obtain ⟨first, last⟩ := both
        obtain ⟨⟨ready, spent⟩, _, behind⟩ := h.covered first last read
        have refill := refill_le ready normal (behind.trans (order first last read))
        have more := refilled (dated (by simp [read]))
        have count : ((w.ping.st.ntransmitted : Int) + 1) * interval =
          (w.ping.st.ntransmitted : Int) * interval + interval := by ring
        simp only [Option.map_some, Option.getD_some] at more ⊢
        rw [count]
        omega
  obtain ⟨low, high, cover⟩ := covered_settled
    (q := { w.ping with curTime := tv, tokens := tokens })
    pos fits own nonneg le normal bought settled
  refine ⟨settled.interval.trans own, settled.adaptive.trans h.fixed,
    settled.preload.trans h.loaded, low, high, nofun, ?_⟩
  rintro first last read
  obtain ⟨rfl, rfl⟩ := Prod.mk.inj (Option.some.inj read)
  refine ⟨cover, normal, ?_⟩
  rw [settled.curTime]

theorem pinger_sleeps {family : Family} {p : Ping} {tv : Timespec} {results : List SendResult}
    (sleeps : Sleeps p) : pinger family p tv results = (p, some 1000) :=
  if_pos sleeps

theorem pinger_awake {family : Family} {p : Ping} {tv : Timespec} {results : List SendResult}
    (awake : ¬ Sleeps p) : pinger family p tv results =
      match pace p tv with
      | .error wait => (p, some wait)
      | .ok p => resend family (noteOutstanding p) results :=
  if_neg awake

theorem step_paced (family : Family) (pos : 0 < interval) (one : 1 ≤ preload)
    (fits : interval * preload < 2 ^ 31) (w : Watch) (e : Event) (h : Paced interval preload w)
    (valid : Valid w e ∧ Dated w e) : Paced interval preload (step family w e) := by
  cases e with
  | other p => exact h.undisturbed valid.1
  | call tv results =>
      obtain ⟨⟨normal, order⟩, dated⟩ := valid
      by_cases sleeps : Sleeps w.ping
      · have same : step family w (.call tv results) = w := by
          rw [step, if_pos sleeps, pinger_sleeps sleeps]
        rwa [same]
      · rw [step, if_neg sleeps, pinger_awake sleeps]
        cases ok : pace w.ping tv with
        | ok q =>
            have paid := pace_paid pos one fits h.own h.loaded ok
            have noted : Undisturbed q (noteOutstanding q) := by
              obtain ⟨out, eq⟩ := noteOutstanding_eq q
              rw [eq]
              exact ⟨rfl, rfl, rfl, rfl, rfl, rfl⟩
            have fixed : (noteOutstanding q).st.options.adaptive = false := by
              obtain ⟨tokens, state⟩ := paid.state
              rw [noted.adaptive, state]
              exact h.fixed
            exact paced_paid h pos fits normal order (dated sleeps) paid
              (noted.then (resend_settled family results fixed))
        | error wait =>
            -- only a call after the first is told to wait
            cases read : w.readings with
            | none =>
                unfold pace at ok
                rw [if_pos (h.start read).2] at ok
                cases ok
            | some both =>
                obtain ⟨first, last⟩ := both
                obtain ⟨cover, _, behind⟩ := h.covered first last read
                refine ⟨h.own, h.fixed, h.loaded, h.nonneg, h.le, nofun, ?_⟩
                rintro first' last' read'
                obtain ⟨rfl, rfl⟩ := Prod.mk.inj (Option.some.inj read')
                exact ⟨cover, normal, behind.trans (order first last read)⟩

end Tokens

structure Fresh (interval preload : Int) (p : Ping) : Prop where
  own : p.st.interval = interval
  fixed : p.st.options.adaptive = false
  loaded : p.preload = preload
  tokens : p.tokens = 0
  ntransmitted : p.st.ntransmitted = 0
  curTime : p.curTime.tvSec = 0

/-- In every run in which no later call looks at `cur_time` and finds the second 0 in it, the
tokens stay in the bucket and the probes stay within the rate. -/
theorem rate_limited (family : Family) (interval preload : Int) (pos : 0 < interval)
    (one : 1 ≤ preload) (legal : legalPreload interval preload) (p : Ping)
    (fresh : Fresh interval preload p) (events : List Event)
    (valid : Along (step family) Valid ⟨p, none⟩ events)
    (dated : Along (step family) Dated ⟨p, none⟩ events) :
    Limited interval preload (run (step family) ⟨p, none⟩ events) := by
  have cap : 0 ≤ interval * preload := Int.mul_nonneg pos.le (by omega)
  have start : Paced interval preload ⟨p, none⟩ :=
    ⟨fresh.own, fresh.fixed, fresh.loaded, fresh.tokens.ge, fresh.tokens.le.trans cap,
      fun _ => ⟨fresh.ntransmitted, fresh.curTime⟩, nofun⟩
  exact (run_of_along (step_paced family pos one (legal.fits one)) start
    (along_and valid dated)).limited

theorem initialPing_fresh : Fresh 1000 1 initialPing := ⟨rfl, rfl, rfl, rfl, rfl, rfl⟩

/-- A probe, a call that comes too early, and the next probe a second later. -/
def twoProbes : List Event :=
  [.call ⟨100, 0⟩ [.sent], .call ⟨100, 500000000⟩ [.sent], .call ⟨101, 1000⟩ [.sent]]

theorem twoProbes_valid : Along (step .inet) Valid ⟨initialPing, none⟩ twoProbes := by
  refine ⟨⟨by decide, nofun⟩, ⟨by decide, ?_⟩, ⟨by decide, ?_⟩, trivial⟩ <;>
    · intro first last read
      obtain ⟨rfl, rfl⟩ := Prod.mk.inj (Option.some.inj read)
      decide

theorem twoProbes_dated : Along (step .inet) Dated ⟨initialPing, none⟩ twoProbes :=
  ⟨fun _ later => absurd rfl later, fun _ _ => by decide, fun _ _ => by decide, trivial⟩

theorem rate_limited_twoProbes :
    Limited 1000 1 (run (step .inet) ⟨initialPing, none⟩ twoProbes) ∧
      (run (step .inet) ⟨initialPing, none⟩ twoProbes).ping.st.ntransmitted = 2 :=
  ⟨rate_limited .inet 1000 1 (by decide) (by decide)
    (by simp [legalPreload, INT_MAX]) initialPing initialPing_fresh twoProbes
    twoProbes_valid twoProbes_dated, rfl⟩

/-- Three calls in the second 0 of the clock: each takes itself for the first and sends. -/
def secondZero : List Event :=
  [.call ⟨0, 0⟩ [.sent], .call ⟨0, 1000000⟩ [.sent], .call ⟨0, 2000000⟩ [.sent]]

theorem second_zero_floods :
    Along (step .inet) Valid ⟨initialPing, none⟩ secondZero ∧
      ¬ Limited 1000 1 (run (step .inet) ⟨initialPing, none⟩ secondZero) := by
  constructor
  · refine ⟨⟨by decide, nofun⟩, ⟨by decide, ?_⟩, ⟨by decide, ?_⟩, trivial⟩ <;>
      · intro first last read
        obtain ⟨rfl, rfl⟩ := Prod.mk.inj (Option.some.inj read)
        decide
  · intro limited
    have bound := limited.sent ⟨0, 0⟩ ⟨0, 2000000⟩ rfl
    revert bound
    decide

end Baseliner.PingRateLimit
