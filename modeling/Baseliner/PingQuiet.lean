import Baseliner.GuardedRuns
import Baseliner.PingNeutral

/-! A ping with `F_QUIET` and one without, driven by the same events. Two states
that differ only in the option and in what was printed go on to differ only in
these, unless a local error is read from the error queue: it is counted in one
of them only. -/

namespace Baseliner.PingQuiet

open GuardedRuns PingStatistics PingSession PingReceive PingNeutral

structure Measured where
  ntransmitted : Nat
  nreceived : Nat
  nrepeats : Nat
  nchecksum : Nat
  nerrors : Nat
  acked : UInt16
  pipesize : Int
  times : Times
  deriving DecidableEq

def measured (p : Ping) : Measured :=
  ⟨p.st.ntransmitted, p.st.nreceived, p.st.nrepeats, p.st.nchecksum, p.nerrors, p.st.acked,
    p.st.pipesize, p.st.times⟩

def Aligned (s : Setting) (p : Ping) : Prop := s.whereto = p.whereto ∧ s.ident = p.ident

theorem isOurs_dressed {s : Setting} {p q : Ping} (aligned : Aligned s p) (h : Dressed s p q)
    (id : UInt16) : isOurs q id = isOurs p id := by
  obtain ⟨confirm, out, rfl⟩ := h
  unfold isOurs
  rw [← aligned.2]
  rfl

theorem quotesOurs_dressed {s : Setting} {p q : Ping} (aligned : Aligned s p)
    (h : Dressed s p q) (echo : UInt8) (e : IcmpError) :
    quotesOurs echo q e = quotesOurs echo p e := by
  unfold quotesOurs
  rw [isOurs_dressed aligned h]
  obtain ⟨confirm, out, rfl⟩ := h
  rw [← aligned.1]
  rfl

/-! ### Sending -/

/-- The loop reads a message of local origin from the error queue. -/
def resendReadsLocal (family : Family) (p : Ping) : List SendResult → Prop
  | .failed errno queue _ :: rest =>
      hardErrno errno ∧
        match queue with
        | .localOrigin _ _ => True
        | .noExtended => False
        | .icmpOrigin e =>
            ¬ quotesOurs (echoType family) p e ∧ resendReadsLocal family (sendProbe family p) rest
        | .empty | .otherOrigin =>
            (p.st.confirmFlag ≠ 0 ∧ errno = EINVAL) ∧
              resendReadsLocal family (dropConfirm (sendProbe family p)) rest
  | _ => False

theorem quotesOurs_sendProbe (family : Family) (echo : UInt8) (p : Ping) (e : IcmpError) :
    quotesOurs echo (sendProbe family p) e = quotesOurs echo p e := by
  cases family with
  | inet => rfl
  | inet6 niquery => rfl

theorem confirmFlag_sendProbe (family : Family) (p : Ping) :
    (sendProbe family p).st.confirmFlag = p.st.confirmFlag := by
  cases family with
  | inet => rfl
  | inet6 niquery => rfl

theorem resendReadsLocal_silent {family : Family} {p : Ping} {errno : Nat} {queue : ErrQueue}
    {set : errno ≠ 0} {rest : List SendResult} (silent : queue = .empty ∨ queue = .otherOrigin) :
    resendReadsLocal family p (.failed errno queue set :: rest) ↔
      hardErrno errno ∧ (p.st.confirmFlag ≠ 0 ∧ errno = EINVAL) ∧
        resendReadsLocal family (dropConfirm (sendProbe family p)) rest := by
  rcases silent with rfl | rfl
  · exact Iff.rfl
  · exact Iff.rfl

theorem aligned_sendProbe {s : Setting} {p : Ping} (aligned : Aligned s p) (family : Family) :
    Aligned s (sendProbe family p) := by
  cases family with
  | inet => exact aligned
  | inet6 niquery => exact aligned

theorem dressed_resend (family : Family) {s : Setting} {p q : Ping} (aligned : Aligned s p)
    (h : Dressed s p q) (alive : p.aborted = false) (results : List SendResult)
    (remote : ¬ resendReadsLocal family p results) :
    Dressed s (resend family p results).1 (resend family q results).1 := by
  induction results generalizing p q with
  | nil => exact h
  | cons result rest ih =>
      have probe := dressed_sendProbe family h
      have alive' : q.aborted = false := h.aborted.trans alive
      have next : (sendProbe family p).aborted = false := (sendProbe_aborted family p).trans alive
      cases result with
      | sent => exact probe.resend_sent
      | short => exact probe.resend_short
      | failed errno queue set =>
          by_cases hard : hardErrno errno
          · have silently (silent : queue = .empty ∨ queue = .otherOrigin) :
                Dressed s (resend family p (.failed errno queue set :: rest)).1
                  (resend family q (.failed errno queue set :: rest)).1 := by
              rw [resendReadsLocal_silent silent] at remote
              refine probe.resend_silent hard h alive silent fun old => ?_
              apply ih (p := dropConfirm (sendProbe family p))
                (aligned_sendProbe aligned family) probe.dropConfirm next
              intro later
              rw [confirmFlag_sendProbe] at old
              exact remote ⟨hard, old, later⟩
            cases queue with
            | localOrigin eeErrno eeInfo => exact absurd ⟨hard, trivial⟩ remote
            | noExtended => exact probe.resend_noExtended hard
            | icmpOrigin e =>
                have ours := quotesOurs_dressed (aligned_sendProbe aligned family) probe
                  (echoType family) e
                rw [resend_icmpOrigin hard alive', resend_icmpOrigin hard alive]
                refine dressed_ite (by rw [ours]) (fun _ => ?_) fun foreign => ?_
                · exact ((probe.creditError family e).icmpErrorReport e e).hardLocalError 0 errno
                · apply ih (aligned_sendProbe aligned family) probe next
                  intro later
                  rw [quotesOurs_sendProbe] at foreign
                  exact remote ⟨hard, foreign, later⟩
            | empty => exact silently (Or.inl rfl)
            | otherOrigin => exact silently (Or.inr rfl)
          · exact probe.resend_soft hard

/-- The call gets to the loop, and the loop reads a local error. -/
def pingerReadsLocal (family : Family) (p : Ping) (tv : Timespec) (results : List SendResult) :
    Prop :=
  ¬ (p.exiting ∨ p.npackets ≠ 0 ∧ p.npackets ≤ p.st.ntransmitted ∧ p.deadline = 0) ∧
    ∃ q, pace p tv = .ok q ∧ resendReadsLocal family (noteOutstanding q) results

theorem dressed_pinger_remote (family : Family) {s : Setting} {p q : Ping}
    (aligned : Aligned s p) (h : Dressed s p q) (alive : p.aborted = false) (tv : Timespec)
    (results : List SendResult) (remote : ¬ pingerReadsLocal family p tv results) :
    Dressed s (pinger family p tv results).1 (pinger family q tv results).1 := by
  refine dressed_pinger family family h tv results results fun busy p' q' paced dressed => ?_
  obtain ⟨tokens, out, noted⟩ := noteOutstanding_pace paced
  apply dressed_resend family _ dressed
  · rw [noted]
    exact alive
  · exact fun reads => remote ⟨busy, p', paced, reads⟩
  · rw [noted]
    exact aligned

/-! ### Receiving -/

theorem Dressed.tested {s : Setting} {p q : Ping} (aligned : Aligned s p) (h : Dressed s p q) :
    q.whereto = p.whereto ∧ q.dgram = p.dgram ∧ q.verbose = p.verbose ∧ q.st.uid = p.st.uid ∧
      q.st.options.flood = p.st.options.flood ∧ q.st.datalen = p.st.datalen ∧
      q.st.outpack = p.st.outpack := by
  obtain ⟨confirm, out, rfl⟩ := h
  exact ⟨aligned.1, rfl, rfl, rfl, rfl, rfl, rfl⟩

theorem dressed_ping4Quoted {s : Setting} {p q : Ping} (aligned : Aligned s p)
    (h : Dressed s p q) (d : Datagram) (csfailed : Bool) :
    Dressed s (ping4Quoted p d csfailed).1 (ping4Quoted q d csfailed).1 := by
  have tested := Dressed.tested aligned h
  unfold ping4Quoted
  dsimp only
  refine dressed_ite Iff.rfl (fun _ => h) fun _ => ?_
  refine dressed_ite (by rw [tested.1, isOurs_dressed aligned h]) (fun _ => h) fun _ => ?_
  refine dressed_ite Iff.rfl (fun _ => h.acknowledge _) fun _ => ?_
  split
  · split
    · exact h
    · exact h.print_right _
  · split
    · exact h.print_left _
    · exact (h.print_left _).print_right _

theorem containsPattern_dressed {s : Setting} {p q : Ping} (aligned : Aligned s p)
    (h : Dressed s p q) (buf : Nat → UInt8) (payload : Nat) :
    containsPatternInPayload q.st buf payload = containsPatternInPayload p.st buf payload := by
  obtain ⟨-, -, -, -, -, datalen, outpack⟩ := Dressed.tested aligned h
  unfold containsPatternInPayload
  rw [datalen, outpack]

theorem replyAt_dressed {s : Setting} {p q : Ping} (aligned : Aligned s p) (h : Dressed s p q)
    (d : Datagram) (seq : UInt16) (hops : Int) (csfailed : Bool) :
    replyAt q.st d seq hops csfailed = replyAt p.st d seq hops csfailed := by
  obtain ⟨-, -, -, -, -, datalen, -⟩ := Dressed.tested aligned h
  unfold replyAt
  rw [datalen]

theorem dressed_echoReply {s : Setting} {p q : Ping} (aligned : Aligned s p) (h : Dressed s p q)
    (d : Datagram) (hops : Int) (csfailed : Bool) (tv now : Timespec) :
    Dressed s
      (if ¬ isOurs p (be16 d.buf 4) ∨ ¬ containsPatternInPayload p.st d.buf 8 then (p, 1)
        else gatherReply p (replyAt p.st d (be16 d.buf 6) hops csfailed) tv now).1
      (if ¬ isOurs q (be16 d.buf 4) ∨ ¬ containsPatternInPayload q.st d.buf 8 then (q, 1)
        else gatherReply q (replyAt q.st d (be16 d.buf 6) hops csfailed) tv now).1 := by
  rw [replyAt_dressed aligned h]
  refine dressed_ite ?_ (fun _ => h) fun _ => h.gatherReply _ tv now
  rw [isOurs_dressed aligned h, containsPattern_dressed aligned h]

theorem dressed_ping4ParseIcmp {s : Setting} {p q : Ping} (aligned : Aligned s p)
    (h : Dressed s p q) (d : Datagram) (ttl : Int) (tv now : Timespec) :
    Dressed s (ping4ParseIcmp p d ttl tv now).1 (ping4ParseIcmp q d ttl tv now).1 := by
  unfold ping4ParseIcmp
  dsimp only
  refine dressed_ite Iff.rfl (fun _ => dressed_echoReply aligned h d ttl _ tv now) fun _ => ?_
  refine dressed_ite Iff.rfl (fun _ => h) fun _ => ?_
  refine dressed_ite Iff.rfl (fun _ => dressed_ping4Quoted aligned h d _) fun _ => ?_
  exact Dressed.of_eq (f := id) (ping4Unexpected_eq p d _) (ping4Unexpected_eq q d _) h

theorem dressed_ping4ParseReply {s : Setting} {p q : Ping} (aligned : Aligned s p)
    (h : Dressed s p q) (d : Datagram) (tv now : Timespec) :
    Dressed s (ping4ParseReply p d tv now).1 (ping4ParseReply q d tv now).1 := by
  have tested := Dressed.tested aligned h
  unfold ping4ParseReply
  dsimp only
  refine dressed_ite (by rw [tested.2.1]) (fun _ => ?_) fun _ => ?_
  · exact dressed_ping4ParseIcmp aligned h d _ tv now
  · refine dressed_ite Iff.rfl (fun _ => ?_) fun _ => ?_
    · exact dressed_print_left_ite (dressed_print_right_ite h _) _
    · exact dressed_ping4ParseIcmp aligned h _ _ tv now

theorem dressed_ping6Quoted {s : Setting} {p q : Ping} (aligned : Aligned s p)
    (h : Dressed s p q) (d : Datagram) :
    Dressed s (ping6Quoted p d).1 (ping6Quoted q d).1 := by
  obtain ⟨whereto, -, verbose, uid, -⟩ := Dressed.tested aligned h
  unfold ping6Quoted
  dsimp only
  refine dressed_ite Iff.rfl (fun _ => h) fun _ => ?_
  refine dressed_ite (by rw [whereto]) (fun _ => h) fun _ => ?_
  refine dressed_ite Iff.rfl (fun _ => ?_) fun _ => ?_
  · refine dressed_ite (by rw [isOurs_dressed aligned h]) (fun _ => h) fun _ => ?_
    have credited (seq : UInt16) :
        Dressed s { p with st := acknowledge p.st seq, nerrors := p.nerrors + 1 }
          { q with st := acknowledge q.st seq, nerrors := q.nerrors + 1 } := by
      obtain ⟨confirm, out, rfl⟩ := h
      have same : acknowledge (dress s confirm out p).st seq =
          touch s.quiet confirm (acknowledge p.st seq) := acknowledge_touch s.quiet confirm p.st seq
      rw [same]
      exact ⟨confirm, out, rfl⟩
    have flood := (Dressed.tested (q := { q with st := acknowledge q.st _, nerrors := _ })
      (show Aligned s { p with st := acknowledge p.st _, nerrors := _ } from aligned)
      (credited (be16 d.buf ((if d.buf 14 = 44 then 56 else 48) + 6)))).2.2.2.2.1
    refine dressed_ite (by rw [flood]) (fun _ => ?_) fun _ => ?_
    · exact ((credited _).print_left _).print_right _
    · exact (((credited _).print_left _).print_right _).endLine
  · refine dressed_ite (by rw [verbose, uid]) (fun _ => h) fun _ => ?_
    exact ((h.print_left _).print_right _).endLine

theorem dressed_ping6ParseReply (checkNonce : List UInt8 → Option UInt16) {s : Setting}
    {p q : Ping} (aligned : Aligned s p) (h : Dressed s p q) (d : Datagram) (tv now : Timespec) :
    Dressed s (ping6ParseReply checkNonce p d tv now).1
      (ping6ParseReply checkNonce q d tv now).1 := by
  unfold ping6ParseReply
  dsimp only
  refine dressed_ite Iff.rfl (fun _ => ?_) fun _ => ?_
  · exact dressed_print_left_ite (dressed_print_right_ite h _) _
  · refine dressed_ite Iff.rfl (fun _ => dressed_echoReply aligned h d _ _ tv now) fun _ => ?_
    refine dressed_ite Iff.rfl (fun _ => ?_) fun _ => dressed_ping6Quoted aligned h d
    cases checkNonce (bytes d.buf 8 8) with
    | none => exact h
    | some seq =>
        dsimp only
        rw [replyAt_dressed aligned h]
        exact h.gatherReply _ tv now

theorem dressed_parseReply (checkNonce : List UInt8 → Option UInt16) (family : Family)
    {s : Setting} {p q : Ping} (aligned : Aligned s p) (h : Dressed s p q) (d : Datagram)
    (tv now : Timespec) :
    Dressed s (parseReply checkNonce family p d tv now).1
      (parseReply checkNonce family q d tv now).1 := by
  cases family with
  | inet => exact dressed_ping4ParseReply aligned h d tv now
  | inet6 niquery => exact dressed_ping6ParseReply checkNonce aligned h d tv now

/-! ### One event -/

theorem dressed_receiveErrorMsg (family : Family) {s : Setting} {p q : Ping}
    (aligned : Aligned s p) (h : Dressed s p q) (queue : ErrQueue) (errno : Nat)
    (remote : ∀ eeErrno eeInfo, queue ≠ .localOrigin eeErrno eeInfo) :
    Dressed s (receiveErrorMsg family p queue errno).1
      (receiveErrorMsg family q queue errno).1 := by
  have aborting : Dressed s { p with aborted := true } { q with aborted := true } := by
    obtain ⟨confirm, out, rfl⟩ := h
    exact ⟨confirm, out, rfl⟩
  cases queue with
  | localOrigin eeErrno eeInfo => exact absurd rfl (remote eeErrno eeInfo)
  | icmpOrigin e =>
      rw [receiveErrorMsg_icmp, receiveErrorMsg_icmp]
      refine dressed_ite (by rw [quotesOurs_dressed aligned h]) (fun _ => ?_) fun _ => h
      exact (h.creditError family e).icmpErrorReport e e
  | empty =>
      cases family with
      | inet => exact h
      | inet6 niquery => exact h
  | noExtended =>
      cases family with
      | inet => exact aborting
      | inet6 niquery => exact aborting
  | otherOrigin =>
      cases family with
      | inet => exact h
      | inet6 niquery => exact h

/-- The event takes a local error from the error queue. -/
def ReadsLocal (family : Family) (p : Ping) : Event → Prop
  | .pinger tv results => p.aborted = false ∧ pingerReadsLocal family p tv results
  | .packet _ _ _ => False
  | .errQueue queue _ => p.aborted = false ∧ ∃ eeErrno eeInfo, queue = .localOrigin eeErrno eeInfo

theorem dressed_step (checkNonce : List UInt8 → Option UInt16) (family : Family) {s : Setting}
    {p q : Ping} (aligned : Aligned s p) (h : Dressed s p q) (event : Event)
    (remote : ¬ ReadsLocal family p event) :
    Dressed s (step checkNonce family p event) (step checkNonce family q event) := by
  unfold step
  by_cases dead : p.aborted = true
  · rw [if_pos dead, if_pos (h.aborted.trans dead)]
    exact h
  · have alive : p.aborted = false := Bool.eq_false_iff.mpr dead
    rw [if_neg dead, if_neg (by rw [h.aborted]; exact dead)]
    cases event with
    | pinger tv results =>
        apply dressed_pinger_remote family aligned h alive
        exact fun reads => remote ⟨alive, reads⟩
    | packet d tv now => exact dressed_parseReply checkNonce family aligned h d tv now
    | errQueue queue errno =>
        apply dressed_receiveErrorMsg family aligned h
        intro eeErrno eeInfo same
        exact remote ⟨alive, eeErrno, eeInfo, same⟩

/-! ### A local error is counted in one mode only -/

def counted (p : Ping) : Nat := if p.st.options.quiet then 0 else 1

theorem nerrors_localErrorMsg (p : Ping) (eeErrno eeInfo : Nat) :
    (localErrorMsg p eeErrno eeInfo).nerrors = p.nerrors + counted p := by
  obtain ⟨out, same⟩ := localErrorMsg_eq p eeErrno eeInfo
  rw [same]
  rfl

theorem nerrors_hardLocalError (p : Ping) (i : Int) (errno : Nat) :
    (hardLocalError p i errno).1.nerrors = p.nerrors := by
  obtain ⟨out, same⟩ := hardLocalError_eq p i errno
  rw [same]

theorem nerrors_sendProbe (family : Family) (p : Ping) :
    (sendProbe family p).nerrors + counted (sendProbe family p) = p.nerrors + counted p := by
  cases family with
  | inet => rfl
  | inet6 niquery => rfl

theorem nerrors_resend (family : Family) (p : Ping) (alive : p.aborted = false)
    (results : List SendResult) (reads : resendReadsLocal family p results) :
    (resend family p results).1.nerrors = p.nerrors + counted p := by
  induction results generalizing p with
  | nil => exact reads.elim
  | cons result rest ih =>
      have next : (sendProbe family p).aborted = false := (sendProbe_aborted family p).trans alive
      cases result with
      | sent => exact reads.elim
      | short => exact reads.elim
      | failed errno queue set =>
          have hard : hardErrno errno := reads.1
          rw [← nerrors_sendProbe family p]
          have silently (silent : queue = .empty ∨ queue = .otherOrigin) :
              (resend family p (.failed errno queue set :: rest)).1.nerrors =
                (sendProbe family p).nerrors + counted (sendProbe family p) := by
            rw [resendReadsLocal_silent silent, ← confirmFlag_sendProbe family] at reads
            rw [resend_silent hard alive silent, if_pos reads.2.1]
            exact ih (dropConfirm (sendProbe family p)) next reads.2.2
          cases queue with
          | localOrigin eeErrno eeInfo =>
              rw [resend_localOrigin hard alive, nerrors_hardLocalError, nerrors_localErrorMsg]
          | noExtended => exact reads.2.elim
          | icmpOrigin e =>
              have foreign := reads.2.1
              rw [← quotesOurs_sendProbe family] at foreign
              rw [resend_icmpOrigin hard alive, if_neg foreign]
              exact ih (sendProbe family p) next reads.2.2
          | empty => exact silently (Or.inl rfl)
          | otherOrigin => exact silently (Or.inr rfl)

theorem nerrors_step_local (checkNonce : List UInt8 → Option UInt16) (family : Family) (p : Ping)
    (event : Event) (reads : ReadsLocal family p event) :
    (step checkNonce family p event).nerrors = p.nerrors + counted p := by
  unfold step
  cases event with
  | packet d tv now => exact reads.elim
  | pinger tv results =>
      obtain ⟨alive, busy, q, paced, reads⟩ := reads
      obtain ⟨tokens, out, noted⟩ := noteOutstanding_pace paced
      rw [if_neg (Bool.eq_false_iff.mp alive)]
      unfold pinger
      dsimp only
      rw [if_neg busy, paced]
      dsimp only
      rw [nerrors_resend family _ (by rw [noted]; exact alive) results reads, noted]
      rfl
  | errQueue queue errno =>
      obtain ⟨alive, eeErrno, eeInfo, rfl⟩ := reads
      rw [if_neg (Bool.eq_false_iff.mp alive)]
      cases family with
      | inet => exact nerrors_localErrorMsg p eeErrno eeInfo
      | inet6 niquery => exact nerrors_localErrorMsg p eeErrno eeInfo

theorem resendReadsLocal_dressed (family : Family) {s : Setting} {p q : Ping}
    (aligned : Aligned s p) (h : Dressed s p q) (results : List SendResult)
    (reads : resendReadsLocal family p results) : resendReadsLocal family q results := by
  induction results generalizing p q with
  | nil => exact reads
  | cons result rest ih =>
      have probe := dressed_sendProbe family h
      have aligned' := aligned_sendProbe aligned family
      cases result with
      | sent => exact reads
      | short => exact reads
      | failed errno queue set =>
          have silently (silent : queue = .empty ∨ queue = .otherOrigin) :
              resendReadsLocal family q (.failed errno queue set :: rest) := by
            rw [resendReadsLocal_silent silent] at reads ⊢
            rw [h.confirmFlag]
            exact ⟨reads.1, reads.2.1, ih (p := dropConfirm (sendProbe family p)) aligned'
              probe.dropConfirm reads.2.2⟩
          cases queue with
          | localOrigin eeErrno eeInfo => exact reads
          | noExtended => exact reads
          | icmpOrigin e =>
              refine ⟨reads.1, ?_, ih aligned' probe reads.2.2⟩
              rw [quotesOurs_dressed aligned h]
              exact reads.2.1
          | empty => exact silently (Or.inl rfl)
          | otherOrigin => exact silently (Or.inr rfl)

theorem readsLocal_dressed (family : Family) {s : Setting} {p q : Ping} (aligned : Aligned s p)
    (h : Dressed s p q) (event : Event) (reads : ReadsLocal family p event) :
    ReadsLocal family q event := by
  cases event with
  | packet d tv now => exact reads
  | errQueue queue errno => exact ⟨h.aborted.trans reads.1, reads.2⟩
  | pinger tv results =>
      obtain ⟨alive, busy, r, paced, reads⟩ := reads
      obtain ⟨tokens, last, noted⟩ := noteOutstanding_pace paced
      have dead := h.aborted
      obtain ⟨confirm, out, rfl⟩ := h
      refine ⟨dead.trans alive, busy, dress s confirm out r, ?_, ?_⟩
      · rw [pace_dress, paced]
        rfl
      · apply resendReadsLocal_dressed family _ (dressed_dress s confirm out r).noteOutstanding _
          reads
        rw [noted]
        exact aligned

/-! ### Whole runs -/

/-- The same ping started with `-q`. -/
def withQuiet (p : Ping) : Ping :=
  { p with st := { p.st with options := { p.st.options with quiet := true } } }

structure Twins (p q : Ping) : Prop where
  loud : p.st.options.quiet = false
  dressed : Dressed ⟨true, p.whereto, p.ident⟩ p q

theorem Twins.measured {p q : Ping} (h : Twins p q) :
    measured q = measured p ∧ exitTest q = exitTest p := by
  obtain ⟨confirm, out, rfl⟩ := h.dressed
  exact ⟨rfl, rfl⟩

theorem Twins.step {p q : Ping} (h : Twins p q) (checkNonce : List UInt8 → Option UInt16)
    (family : Family) (event : Event) (remote : ¬ ReadsLocal family p event) :
    Twins (step checkNonce family p event) (step checkNonce family q event) := by
  have own := (dressed_step checkNonce family ⟨rfl, rfl⟩ (dressed_self p) event remote).setting
  have kept := congrArg Setting.quiet own
  have target := congrArg Setting.whereto own
  have ident := congrArg Setting.ident own
  refine ⟨kept.trans h.loud, ?_⟩
  have dressed := dressed_step checkNonce family ⟨rfl, rfl⟩ h.dressed event remote
  dsimp only [setting] at target ident
  rw [target, ident]
  exact dressed

theorem Twins.nerrors {p q : Ping} (h : Twins p q) (checkNonce : List UInt8 → Option UInt16)
    (family : Family) (event : Event) (reads : ReadsLocal family p event) :
    (PingReceive.step checkNonce family p event).nerrors =
      (PingReceive.step checkNonce family q event).nerrors + 1 := by
  have reads' := readsLocal_dressed family ⟨rfl, rfl⟩ h.dressed event reads
  rw [nerrors_step_local checkNonce family p event reads,
    nerrors_step_local checkNonce family q event reads']
  obtain ⟨loud, confirm, out, rfl⟩ := h
  simp [counted, loud, dress, touch]

/-- Both modes measure the same and stop at the same events, exactly when no
event of the run reads a local error. -/
theorem quiet_measures_same_iff (checkNonce : List UInt8 → Option UInt16) (family : Family)
    {p : Ping} (loud : p.st.options.quiet = false) (events : List Event) :
    (∀ pre, pre <+: events →
        measured (run (step checkNonce family) (withQuiet p) pre) =
            measured (run (step checkNonce family) p pre) ∧
          exitTest (run (step checkNonce family) (withQuiet p) pre) =
            exitTest (run (step checkNonce family) p pre)) ↔
      Along (step checkNonce family) (fun p event => ¬ ReadsLocal family p event) p events := by
  have start : Twins p (withQuiet p) := ⟨loud, p.st.confirm, p.out, rfl⟩
  have both := @reached_iff_along (Ping × Ping) Event
    (fun s e => (step checkNonce family s.1 e, step checkNonce family s.2 e))
    (fun _ _ => True) (fun s e => ¬ ReadsLocal family s.1 e) (fun s => Twins s.1 s.2)
    (fun s => measured s.2 = measured s.1 ∧ exitTest s.2 = exitTest s.1)
    (fun s h => h.measured) (fun s e h _ remote => h.step checkNonce family e remote)
    (fun s e h _ same reads => ?_) (p, withQuiet p) events start (along_true _ events)
  · simp only [run_pair] at both
    rw [both]
    exact along_pair (C := fun p event => ¬ ReadsLocal family p event)
  · have more := h.nerrors checkNonce family e reads
    have equal : (step checkNonce family s.2 e).nerrors = (step checkNonce family s.1 e).nerrors :=
      congrArg Measured.nerrors same.1
    omega

/-- The reply to the first probe of process 4660, which left at second 1000, on a raw socket. -/
def firstReply : Datagram where
  buf i := (0x45 :: List.replicate 7 0 ++ [64] ++ List.replicate 11 0 ++
    [0, 0, 70, 244, 0x12, 0x34, 0, 1] ++ [232, 3] ++ List.replicate 14 0 ++
    (List.range 40).map fun k => UInt8.ofNat (16 + k)).getD i 0
  cc := 84
  hops := none

/-- Two probes, of which the first is answered and the second cannot be delivered. -/
def answered : List Event :=
  [.pinger ⟨1000, 0⟩ [.sent], .packet firstReply ⟨1000, 500⟩ ⟨1000, 500⟩,
    .pinger ⟨1001, 0⟩ [.sent],
    .errQueue (.icmpOrigin ⟨8, [127, 0, 0, 1], ICMP_ECHO, 4660, 2, [], 3, 1, 0⟩) 113]

theorem quiet_measures_same_iff_answered :
    (∀ pre, pre <+: answered →
        measured (run (step (fun _ => none) .inet) (withQuiet initialPing) pre) =
            measured (run (step (fun _ => none) .inet) initialPing pre) ∧
          exitTest (run (step (fun _ => none) .inet) (withQuiet initialPing) pre) =
            exitTest (run (step (fun _ => none) .inet) initialPing pre)) ∧
      let p := run (step (fun _ => none) .inet) initialPing answered
      p.st.nreceived = 1 ∧ p.st.nchecksum = 0 ∧ p.nerrors = 1 := by
  refine ⟨(quiet_measures_same_iff (fun _ => none) .inet rfl answered).mpr ?_, by decide +kernel⟩
  refine ⟨?_, id, ?_, ?_, trivial⟩
  · rintro ⟨-, -, q, -, none⟩
    exact none
  · rintro ⟨-, -, q, -, none⟩
    exact none
  · rintro ⟨-, eeErrno, eeInfo, queue⟩
    cases queue

/-- A message that is too long for the interface is an error with `ping -s 2000
-M do`, and none with `-q`. -/
theorem quiet_drops_local_error :
    initialPing.st.options.flood = false ∧
      measured (run (step (fun _ => none) .inet) (withQuiet initialPing)
          [.errQueue (.localOrigin EMSGSIZE 1500) EMSGSIZE]) ≠
        measured (run (step (fun _ => none) .inet) initialPing
          [.errQueue (.localOrigin EMSGSIZE 1500) EMSGSIZE]) := by
  refine ⟨rfl, fun same => ?_⟩
  have errors := congrArg Measured.nerrors same
  exact absurd errors (by decide)

end Baseliner.PingQuiet
