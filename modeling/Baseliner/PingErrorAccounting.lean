import Baseliner.GuardedRuns
import Baseliner.PingNeutral

/-! ICMP errors about our own probes, in the two families. The handler of IPv4
acknowledges the quoted probe and counts an error, the one of IPv6 only counts
it. Both feed the same `main_loop`, so the accounting of two runs with the same
sends, replies and errors comes apart at the first error whose acknowledgement
would have changed something. -/

namespace Baseliner.PingErrorAccounting

open GuardedRuns PingStatistics PingSession PingNeutral

structure Accounting where
  ntransmitted : Nat
  nreceived : Nat
  nerrors : Nat
  acked : UInt16
  pipesize : Int
  deriving DecidableEq

def accounting (p : Ping) : Accounting :=
  ⟨p.st.ntransmitted, p.st.nreceived, p.nerrors, p.st.acked, p.st.pipesize⟩

/-- `acknowledge` of the quoted probe, and one error more. -/
def credited (p : Ping) (seq : UInt16) : Accounting :=
  accounting { p with st := acknowledge p.st seq, nerrors := p.nerrors + 1 }

/-- The probe is out of reach, or it is not newer than the last one acknowledged
and not further back than the deepest pipe seen. -/
def Stale (st : State) (seq : UInt16) : Prop :=
  ¬ UInt16.ofNat st.ntransmitted - seq ≤ 0x7FFF ∨
    ((UInt16.ofNat st.ntransmitted - seq).toNat : Int) + 1 ≤ st.pipesize ∧
      (seq = st.acked ∨
        ¬ (0 < (seq - st.acked).toInt16 ∨
          ((UInt16.ofNat st.ntransmitted).toNat : Int) - st.acked.toNat > 0x7FFF))

theorem acknowledge_of_stale {st : State} {seq : UInt16} (stale : Stale st seq) :
    acknowledge st seq = st := by
  unfold acknowledge
  dsimp only
  rcases stale with far | ⟨shallow, old⟩
  · rw [if_neg far]
  · have depth : ¬ ((UInt16.ofNat st.ntransmitted - seq).toNat : Int) + 1 > st.pipesize := by
      omega
    rw [if_neg depth]
    rcases old with rfl | old
    · simp only [ite_self]
    · rw [if_neg old]
      simp only [ite_self]

theorem stale_of_acknowledge {st : State} {seq : UInt16}
    (acked : (acknowledge st seq).acked = st.acked)
    (pipesize : (acknowledge st seq).pipesize = st.pipesize) : Stale st seq := by
  unfold acknowledge at acked pipesize
  dsimp only at acked pipesize
  by_cases near : UInt16.ofNat st.ntransmitted - seq ≤ 0x7FFF
  · right
    rw [if_pos near] at acked pipesize
    dsimp only at acked pipesize
    constructor
    · split at pipesize
      · omega
      · omega
    · by_cases new : 0 < (seq - st.acked).toInt16 ∨
          ((UInt16.ofNat st.ntransmitted).toNat : Int) - st.acked.toNat > 0x7FFF
      · rw [if_pos new] at acked
        exact Or.inl acked
      · exact Or.inr new
  · exact Or.inl near

/-! ### One error -/

theorem accounting_report (p : Ping) (e : IcmpError) :
    accounting (icmpErrorReport p e) = accounting p := by
  obtain ⟨out, same⟩ := icmpErrorReport_eq p e
  rw [same]
  rfl

theorem ping4_credits {p : Ping} {e : IcmpError} (ours : quotesOurs ICMP_ECHO p e = true)
    (errno : Nat) :
    accounting (ping4ReceiveErrorMsg p (.icmpOrigin e) errno).1 = credited p e.seq := by
  unfold ping4ReceiveErrorMsg
  dsimp only
  rw [if_pos ours]
  exact accounting_report _ e

theorem ping6_credits_iff {p : Ping} {e : IcmpError}
    (ours : quotesOurs ICMP6_ECHO_REQUEST p e = true) (errno : Nat) :
    accounting (ping6ReceiveErrorMsg p (.icmpOrigin e) errno).1 = credited p e.seq ↔
      Stale p.st e.seq := by
  have counted : accounting (ping6ReceiveErrorMsg p (.icmpOrigin e) errno).1 =
      accounting { p with nerrors := p.nerrors + 1 } := by
    unfold ping6ReceiveErrorMsg
    dsimp only
    rw [if_pos ours]
    exact accounting_report _ e
  rw [counted]
  constructor
  · intro same
    apply stale_of_acknowledge
    · exact (congrArg Accounting.acked same).symm
    · exact (congrArg Accounting.pipesize same).symm
  · intro stale
    unfold credited
    rw [acknowledge_of_stale stale]

/-! ### The same events in both families -/

inductive Message
  | empty
  | noExtended
  | otherOrigin
  | localOrigin (eeErrno eeInfo : Nat)
  | foreign
  | quoting (seq : UInt16) (offender : List UInt8) (eeType eeCode : UInt8) (eeInfo : Nat)

/-- The message in one family, for a process with this target and identifier. -/
def Message.queue (family : Family) (whereto : List UInt8) (ident : UInt16) : Message → ErrQueue
  | .empty => .empty
  | .noExtended => .noExtended
  | .otherOrigin => .otherOrigin
  | .localOrigin eeErrno eeInfo => .localOrigin eeErrno eeInfo
  | .foreign => .icmpOrigin ⟨0, [], 0, 0, 0, [], 0, 0, 0⟩
  | .quoting seq offender eeType eeCode eeInfo =>
      .icmpOrigin ⟨8, whereto, echoType family, ident, seq, offender, eeType, eeCode, eeInfo⟩

inductive Send
  | sent
  | short
  | failed (errno : Nat) (message : Message) (set : errno ≠ 0)

def Send.result (family : Family) (whereto : List UInt8) (ident : UInt16) : Send → SendResult
  | .sent => .sent
  | .short => .short
  | .failed errno message set => .failed errno (message.queue family whereto ident) set

inductive Event
  | pinger (tv : Timespec) (sends : List Send)
  | reply (reply : Reply) (tv now : Timespec)
  | errQueue (message : Message) (errno : Nat)

def step (family : Family) (p : Ping) (event : Event) : Ping :=
  if p.aborted then p
  else
    match event with
    | .pinger tv sends =>
        (pinger family p tv (sends.map (Send.result family p.whereto p.ident))).1
    | .reply reply tv now => { p with st := (gatherStatistics p.st reply tv now).1 }
    | .errQueue message errno =>
        (receiveErrorMsg family p (message.queue family p.whereto p.ident) errno).1

instance (errno : Nat) : Decidable (hardErrno errno) :=
  inferInstanceAs (Decidable (_ ∧ _ ∧ _))

/-- The number of the probe quoted by the error that the loop reads. -/
def quotedBySends (confirmFlag : Nat) : List Send → Option UInt16
  | .failed errno message _ :: rest =>
      if hardErrno errno then
        match message with
        | .quoting seq _ _ _ _ => some seq
        | .foreign => quotedBySends confirmFlag rest
        | .empty | .otherOrigin =>
            if confirmFlag ≠ 0 ∧ errno = EINVAL then quotedBySends 0 rest else none
        | .localOrigin _ _ | .noExtended => none
      else none
  | _ => none

/-- The number of the probe quoted by the error that the event reads. -/
def quoted (p : Ping) : Event → Option UInt16
  | .pinger tv sends =>
      if p.exiting ∨ p.npackets ≠ 0 ∧ p.npackets ≤ p.st.ntransmitted ∧ p.deadline = 0 then none
      else
        match pace p tv with
        | .error _ => none
        | .ok _ => quotedBySends p.st.confirmFlag sends
  | .errQueue (.quoting seq _ _ _ _) _ => some seq
  | _ => none

/-- An error about a probe is read only when the probe is stale. -/
def Harmless (p : Ping) (event : Event) : Prop :=
  p.aborted = false → ∀ seq, quoted p event = some seq → Stale p.st seq

/-! ### The loop in both families -/

def Echoing (family : Family) : Prop := family = .inet ∨ family = .inet6 false

theorem dressed_sendProbe_families {family : Family} (echoing : Echoing family) {s : Setting}
    {p q : Ping} (h : Dressed s p q) : Dressed s (sendProbe .inet p) (sendProbe family q) := by
  obtain ⟨confirm, out, rfl⟩ := h
  rcases echoing with rfl | rfl
  · exact ⟨confirm, out, rfl⟩
  · exact ⟨0, out, rfl⟩

theorem dressed_localErrorMsg {s : Setting} {p q : Ping} (h : Dressed s p q)
    (mode : s.quiet = p.st.options.quiet) (eeErrno eeInfo : Nat) :
    Dressed s (localErrorMsg p eeErrno eeInfo) (localErrorMsg q eeErrno eeInfo) := by
  apply Dressed.of_eq
    (f := fun p => { p with nerrors := p.nerrors + (if p.st.options.quiet then 0 else 1) })
    (localErrorMsg_eq p eeErrno eeInfo) (localErrorMsg_eq q eeErrno eeInfo)
  obtain ⟨confirm, out, rfl⟩ := h
  obtain ⟨quiet, whereto, ident⟩ := s
  dsimp only at mode
  subst mode
  exact ⟨confirm, out, rfl⟩

theorem dressed_creditError_families {family : Family} (echoing : Echoing family) {s : Setting}
    {p q : Ping} (h : Dressed s p q) {e f : IcmpError} (same : e.seq = f.seq)
    (stale : Stale p.st e.seq) :
    Dressed s (creditError .inet p e) (creditError family q f) := by
  rcases echoing with rfl | rfl
  · have credit := h.creditError .inet e
    unfold creditError at credit ⊢
    dsimp only at credit ⊢
    rw [← same]
    exact credit
  · unfold creditError
    dsimp only
    rw [acknowledge_of_stale stale]
    obtain ⟨confirm, out, rfl⟩ := h
    exact ⟨confirm, out, rfl⟩

theorem quotesOurs_quoting (family : Family) (p : Ping) (seq : UInt16) (offender : List UInt8)
    (eeType eeCode : UInt8) (eeInfo : Nat) :
    quotesOurs (echoType family) p
      ⟨8, p.whereto, echoType family, p.ident, seq, offender, eeType, eeCode, eeInfo⟩ = true := by
  simp [quotesOurs, isOurs]

theorem dressed_resend_quoting {family : Family} (echoing : Echoing family) {s : Setting}
    {p q : Ping} (h : Dressed s p q) (alive : p.aborted = false) {errno : Nat}
    (hard : hardErrno errno) {set : errno ≠ 0} {rest rest' : List SendResult} {seq : UInt16}
    (stale : Stale p.st seq) (offender : List UInt8) (eeType eeCode : UInt8) (eeInfo : Nat) :
    Dressed s
      (resend .inet p (.failed errno (.icmpOrigin ⟨8, p.whereto, echoType .inet, p.ident, seq,
        offender, eeType, eeCode, eeInfo⟩) set :: rest)).1
      (resend family q (.failed errno (.icmpOrigin ⟨8, s.whereto, echoType family, s.ident, seq,
        offender, eeType, eeCode, eeInfo⟩) set :: rest')).1 := by
  have probe := dressed_sendProbe_families echoing h
  have alive' : q.aborted = false := h.aborted.trans alive
  have ours4 : quotesOurs (echoType .inet) (sendProbe .inet p) ⟨8, p.whereto, echoType .inet,
      p.ident, seq, offender, eeType, eeCode, eeInfo⟩ = true :=
    quotesOurs_quoting .inet (sendProbe .inet p) _ _ _ _ _
  have ours6 : quotesOurs (echoType family) (sendProbe family q) ⟨8, s.whereto, echoType family,
      s.ident, seq, offender, eeType, eeCode, eeInfo⟩ = true := by
    rw [← probe.setting]
    exact quotesOurs_quoting family (sendProbe family q) _ _ _ _ _
  rw [resend_icmpOrigin hard alive, resend_icmpOrigin hard alive', if_pos ours4, if_pos ours6]
  apply Dressed.hardLocalError
  apply Dressed.icmpErrorReport
  exact dressed_creditError_families echoing probe rfl stale

theorem dressed_resend_families {family : Family} (echoing : Echoing family) {s : Setting}
    {p q : Ping} (h : Dressed s p q) (mode : s.quiet = p.st.options.quiet)
    (alive : p.aborted = false) (sends : List Send)
    (stale : ∀ seq, quotedBySends p.st.confirmFlag sends = some seq → Stale p.st seq) :
    Dressed s (resend .inet p (sends.map (Send.result .inet p.whereto p.ident))).1
      (resend family q (sends.map (Send.result family s.whereto s.ident))).1 := by
  induction sends generalizing p q with
  | nil => exact h
  | cons send rest ih =>
      have probe := dressed_sendProbe_families echoing h
      have alive' : q.aborted = false := h.aborted.trans alive
      rw [List.map_cons, List.map_cons]
      cases send with
      | sent => exact probe.resend_sent
      | short => exact probe.resend_short
      | failed errno message set =>
          rw [Send.result, Send.result]
          by_cases hard : hardErrno errno
          · rw [quotedBySends.eq_def] at stale
            dsimp only at stale
            rw [if_pos hard] at stale
            have silently {queue : ErrQueue} (silent : queue = .empty ∨ queue = .otherOrigin)
                (stale : ∀ seq, (if p.st.confirmFlag ≠ 0 ∧ errno = EINVAL then
                  quotedBySends 0 rest else none) = some seq → Stale p.st seq) :
                Dressed s
                  (resend .inet p (.failed errno queue set ::
                    rest.map (Send.result .inet p.whereto p.ident))).1
                  (resend family q (.failed errno queue set ::
                    rest.map (Send.result family s.whereto s.ident))).1 := by
              refine probe.resend_silent hard h alive silent fun old => ?_
              rw [if_pos (show p.st.confirmFlag ≠ 0 ∧ errno = EINVAL from old)] at stale
              exact ih probe.dropConfirm mode alive stale
            cases message with
            | empty => exact silently (Or.inl rfl) stale
            | otherOrigin => exact silently (Or.inr rfl) stale
            | noExtended => exact probe.resend_noExtended hard
            | localOrigin eeErrno eeInfo =>
                rw [Message.queue, Message.queue, resend_localOrigin hard alive,
                  resend_localOrigin hard alive']
                exact (dressed_localErrorMsg probe mode eeErrno eeInfo).hardLocalError (-1) errno
            | foreign =>
                rw [Message.queue, Message.queue, resend_icmpOrigin hard alive,
                  resend_icmpOrigin hard alive', if_neg (by simp [quotesOurs]),
                  if_neg (by simp [quotesOurs])]
                exact ih probe mode alive stale
            | quoting seq offender eeType eeCode eeInfo =>
                exact dressed_resend_quoting echoing h alive hard (stale seq rfl) offender eeType
                  eeCode eeInfo
          · exact probe.resend_soft hard

/-! ### Whole runs -/

structure Alike (p q : Ping) : Prop where
  dressed : Dressed ⟨p.st.options.quiet, q.whereto, q.ident⟩ p q

theorem Alike.accounting {p q : Ping} (h : Alike p q) :
    accounting q = accounting p ∧ inFlight q.st q.nerrors = inFlight p.st p.nerrors ∧
      exitTest q = exitTest p := by
  obtain ⟨confirm, out, same⟩ := h.dressed
  rw [same]
  exact ⟨rfl, rfl, rfl⟩

theorem dressed_receiveErrorMsg {family : Family} (echoing : Echoing family) {s : Setting}
    {p q : Ping} (h : Dressed s p q) (mode : s.quiet = p.st.options.quiet) (message : Message)
    (errno : Nat)
    (stale : ∀ seq, quoted p (.errQueue message errno) = some seq → Stale p.st seq) :
    Dressed s (receiveErrorMsg .inet p (message.queue .inet p.whereto p.ident) errno).1
      (receiveErrorMsg family q (message.queue family q.whereto q.ident)
        errno).1 := by
  have aborting : Dressed s { p with aborted := true } { q with aborted := true } := by
    obtain ⟨confirm, out, rfl⟩ := h
    exact ⟨confirm, out, rfl⟩
  have local' (eeErrno eeInfo : Nat) := dressed_localErrorMsg h mode eeErrno eeInfo
  cases message with
  | empty =>
      rcases echoing with rfl | rfl
      · exact h
      · exact h
  | otherOrigin =>
      rcases echoing with rfl | rfl
      · exact h
      · exact h
  | noExtended =>
      rcases echoing with rfl | rfl
      · exact aborting
      · exact aborting
  | localOrigin eeErrno eeInfo =>
      rcases echoing with rfl | rfl
      · exact local' eeErrno eeInfo
      · exact local' eeErrno eeInfo
  | foreign =>
      rcases echoing with rfl | rfl
      · exact h
      · exact h
  | quoting seq offender eeType eeCode eeInfo =>
      rw [Message.queue, Message.queue, receiveErrorMsg_icmp, receiveErrorMsg_icmp,
        if_pos (quotesOurs_quoting .inet p _ _ _ _ _),
        if_pos (quotesOurs_quoting family q _ _ _ _ _)]
      apply Dressed.icmpErrorReport
      apply dressed_creditError_families echoing h rfl
      exact stale seq rfl

theorem dressed_step {family : Family} (echoing : Echoing family) {s : Setting} {p q : Ping}
    (h : Dressed s p q) (mode : s.quiet = p.st.options.quiet) (event : Event)
    (harmless : Harmless p event) :
    Dressed s (step .inet p event) (step family q event) := by
  unfold step
  by_cases dead : p.aborted = true
  · rw [if_pos dead, if_pos (h.aborted.trans dead)]
    exact h
  · have alive : p.aborted = false := Bool.eq_false_iff.mpr dead
    have stale := harmless alive
    rw [if_neg dead, if_neg (by rw [h.aborted]; exact dead)]
    cases event with
    | reply reply tv now => exact h.gatherStatistics reply tv now
    | pinger tv sends =>
        refine dressed_pinger .inet family h tv _ _ fun busy p' q' paced dressed => ?_
        have target : q.whereto = s.whereto := congrArg Setting.whereto h.setting
        have ident : q.ident = s.ident := congrArg Setting.ident h.setting
        obtain ⟨tokens, out, noted⟩ := noteOutstanding_pace paced
        simp only [quoted, if_neg busy, paced] at stale
        rw [noted] at dressed ⊢
        rw [target, ident]
        exact dressed_resend_families echoing dressed mode alive sends stale
    | errQueue message errno => exact dressed_receiveErrorMsg echoing h mode message errno stale

theorem Alike.step {p q : Ping} (h : Alike p q) (event : Event) (harmless : Harmless p event) :
    Alike (step .inet p event) (step (.inet6 false) q event) := by
  have own := (dressed_step (Or.inl rfl) (dressed_self p) rfl event harmless).setting
  have other := dressed_step (Or.inr rfl) h.dressed rfl event harmless
  have quiet := congrArg Setting.quiet own
  have target := congrArg Setting.whereto other.setting
  have ident := congrArg Setting.ident other.setting
  dsimp only [setting] at quiet target ident
  refine ⟨?_⟩
  rw [quiet, target, ident]
  exact other

theorem alike_run {p q : Ping} (h : Alike p q) (events : List Event)
    (harmless : Along (step .inet) Harmless p events) :
    Alike (run (step .inet) p events) (run (step (.inet6 false)) q events) := by
  apply run_related (R := Alike) _ h harmless
  intro s t e alike harmless
  exact alike.step e harmless

/-- IPv4 credits every error about an own probe, IPv6 exactly those about stale
ones; and two runs agree as long as every such error is about a stale probe. -/
theorem error_accounting (p q : Ping) (e : IcmpError) (errno : Nat) (events : List Event) :
    (quotesOurs ICMP_ECHO p e = true →
      accounting (ping4ReceiveErrorMsg p (.icmpOrigin e) errno).1 = credited p e.seq) ∧
    (quotesOurs ICMP6_ECHO_REQUEST q e = true →
      (accounting (ping6ReceiveErrorMsg q (.icmpOrigin e) errno).1 = credited q e.seq ↔
        Stale q.st e.seq)) ∧
    (Alike p q → Along (step .inet) Harmless p events →
      let p' := run (step .inet) p events
      let q' := run (step (.inet6 false)) q events
      accounting q' = accounting p' ∧ inFlight q'.st q'.nerrors = inFlight p'.st p'.nerrors ∧
        exitTest q' = exitTest p') := by
  refine ⟨fun ours => ping4_credits ours errno, fun ours => ping6_credits_iff ours errno,
    fun alike harmless => ?_⟩
  exact (alike_run alike events harmless).accounting

/-- The same ping to `::1`. -/
def initialPing6 : Ping :=
  { initialPing with whereto := [0, 0, 0, 0, 0, 0, 0, 0, 0, 0, 0, 0, 0, 0, 0, 1] }

theorem initial_alike : Alike initialPing initialPing6 := ⟨0, [], rfl⟩

def unreachable : List Event :=
  [.pinger ⟨1000, 0⟩ [.sent], .pinger ⟨1001, 0⟩ [.sent], .errQueue (.quoting 2 [] 3 1 0) 113]

/-- Two probes, a reply to the first one and then an ICMP error about it. -/
def answeredAndQuoted : List Event :=
  [.pinger ⟨1000, 0⟩ [.sent], .pinger ⟨1001, 0⟩ [.sent],
    .reply ⟨8, 1, 64, false, ⟨0, 0⟩, []⟩ ⟨1001, 500⟩ ⟨1001, 500⟩,
    .errQueue (.quoting 1 [] 3 1 0) 113]

def firstProbe (echo : UInt8) (p : Ping) : IcmpError :=
  ⟨8, p.whereto, echo, p.ident, 1, [], 3, 1, 0⟩

theorem answeredAndQuoted_harmless :
    Along (step .inet) Harmless initialPing answeredAndQuoted := by
  have sent (tv : Timespec) (p : Ping) : Harmless p (.pinger tv [.sent]) := by
    intro _ seq read
    have none : quoted p (.pinger tv [.sent]) = none := by
      rw [quoted]
      split
      · rfl
      · split
        · rfl
        · rfl
    rw [none] at read
    cases read
  refine ⟨sent _ _, sent _ _, fun _ seq read => ?_, fun _ seq read => ?_, trivial⟩
  · cases read
  · cases read
    right
    exact ⟨by decide, Or.inl (by decide)⟩

theorem error_accounting_initial :
    accounting (ping4ReceiveErrorMsg initialPing
        (.icmpOrigin (firstProbe ICMP_ECHO initialPing)) 113).1 = credited initialPing 1 ∧
    (accounting (ping6ReceiveErrorMsg initialPing6
        (.icmpOrigin (firstProbe ICMP6_ECHO_REQUEST initialPing6)) 113).1 =
      credited initialPing6 1 ↔ Stale initialPing6.st 1) ∧
    (let p' := run (step .inet) initialPing answeredAndQuoted
    let q' := run (step (.inet6 false)) initialPing6 answeredAndQuoted
    accounting q' = accounting p' ∧ inFlight q'.st q'.nerrors = inFlight p'.st p'.nerrors ∧
      exitTest q' = exitTest p') := by
  refine ⟨?_, ?_, ?_⟩
  · exact (error_accounting initialPing initialPing6 (firstProbe ICMP_ECHO initialPing) 113
      answeredAndQuoted).1 (by decide)
  · exact (error_accounting initialPing initialPing6
      (firstProbe ICMP6_ECHO_REQUEST initialPing6) 113 answeredAndQuoted).2.1 (by decide)
  · exact (error_accounting initialPing initialPing6 (firstProbe ICMP_ECHO initialPing) 113
      answeredAndQuoted).2.2 initial_alike answeredAndQuoted_harmless

theorem error_accounting_differs :
    accounting (run (step (.inet6 false)) initialPing6 unreachable) ≠
        accounting (run (step .inet) initialPing unreachable) ∧
      inFlight (run (step .inet) initialPing unreachable).st 1 = 0 ∧
      inFlight (run (step (.inet6 false)) initialPing6 unreachable).st 1 = 2 := by
  decide

end Baseliner.PingErrorAccounting
