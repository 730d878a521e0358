import Baseliner.PingStatistics

/-! The sending side of ping and its error queue: the in-flight helpers of
`ping.h`, `pinger` of `ping_common.c` with the `send_probe` of both families,
`ping4_receive_error_msg`, `ping6_receive_error_msg` and the exit test of
`main_loop`. What the kernel answers to a system call is an input. Printed text
is kept as a list of records, without its time stamps. -/

namespace Baseliner.PingSession

open PingStatistics

def rcvdClear (st : State) (seq : UInt16) : State :=
  { st with rcvdTbl := fun bit => bit ≠ seq && st.rcvdTbl bit }

/-- The first difference is cut to 16 bits, the second is a `long` returned as an `int`. -/
def inFlight (st : State) (nerrors : Nat) : Int :=
  let diff : UInt16 := UInt16.ofNat st.ntransmitted - st.acked
  if diff ≤ 0x7FFF then diff.toNat
  else wrap 32 ((st.ntransmitted : Int) - st.nreceived - nerrors)

/-- The difference is an `int` here, so it is negative once the low half of
`ntransmitted` is below `acked`. -/
def advanceNtransmitted (st : State) : State :=
  let ntransmitted := st.ntransmitted + 1
  { st with
    ntransmitted := ntransmitted
    acked :=
      if ((UInt16.ofNat ntransmitted).toNat : Int) - st.acked.toNat > 0x7FFF then
        UInt16.ofNat ntransmitted + 1
      else st.acked }

/-- The variables as `setup` leaves them for a superuser with no options; the
packet is filled with the low bytes of the positions. -/
def initialState : State where
  options := ⟨false, false, false, false⟩
  uid := 0
  timing := true
  datalen := 56
  outpack := (List.range 40).map fun i => UInt8.ofNat (16 + i)
  ntransmitted := 0
  nreceived := 0
  nrepeats := 0
  nchecksum := 0
  acked := 0
  pipesize := -1
  rcvdTbl := fun _ => false
  times := ⟨2 ^ 63 - 1, 0, 0, 0, 0⟩
  rttAddend := 0
  interval := 1000
  confirm := 0
  confirmFlag := 0x800

inductive Output
  | noAnswerYet (seq : Nat)
  | dot
  | floodError
  | perror (errno : Nat)
  | localError (errno : Nat)
  | messageTooLong (mtu : Nat)
  | floodIcmpError
  | icmpError (sender : List UInt8) (seq : UInt16) (type code : UInt8) (info : Nat)
  | tooShort (cc : Nat)
  | reply (seq : UInt16) (report : Report)
  | other (csfailed : Bool)
  | quoted (seq : Option UInt16) (csfailed : Bool) (type code : UInt8) (info : Nat)
  | audible
  | newline
  deriving DecidableEq

/-- `dgram` is the type of the socket; a raw socket sees the packets of other
processes too. `out` is what has been printed, the last record first. -/
structure Ping where
  st : State
  nerrors : Nat
  npackets : Nat
  deadline : Nat
  exiting : Bool
  preload : Int
  lingertime : Int
  screenWidth : Int
  curTime : Timespec
  tokens : Int
  oomCount : Int
  dgram : Bool
  ident : UInt16
  whereto : List UInt8
  outstanding : Bool
  verbose : Bool
  audible : Bool
  aborted : Bool
  out : List Output

def initialPing : Ping where
  st := initialState
  nerrors := 0
  npackets := 0
  deadline := 0
  exiting := false
  preload := 1
  lingertime := 10000
  screenWidth := 2 ^ 31 - 1
  curTime := ⟨0, 0⟩
  tokens := 0
  oomCount := 0
  dgram := false
  ident := 4660
  whereto := [127, 0, 0, 1]
  outstanding := false
  verbose := false
  audible := false
  aborted := false
  out := []

def Ping.print (p : Ping) (o : Output) : Ping := { p with out := o :: p.out }

def isOurs (p : Ping) (id : UInt16) : Bool := p.dgram || id = p.ident

def ENOMEM : Nat := 12
def EAGAIN : Nat := 11
def EINVAL : Nat := 22
def EMSGSIZE : Nat := 90
def ENOBUFS : Nat := 105

def MININTERVAL : Int := 10

def SCHINT (a : Int) : Int := if a ≤ MININTERVAL then MININTERVAL else a

/-- An error of origin ICMP: the size and the head of the quoted packet, the
address it was sent to, and the extended error itself. -/
structure IcmpError where
  res : Nat
  target : List UInt8
  type : UInt8
  id : UInt16
  seq : UInt16
  offender : List UInt8
  eeType : UInt8
  eeCode : UInt8
  eeInfo : Nat
  deriving DecidableEq

/-- What `recvmsg` takes from the error queue. -/
inductive ErrQueue
  | empty
  | noExtended
  | localOrigin (eeErrno eeInfo : Nat)
  | icmpOrigin (e : IcmpError)
  | otherOrigin
  deriving DecidableEq

/-- The branch of a local error. A quiet ping leaves before `nerrors` is counted. -/
def localErrorMsg (p : Ping) (eeErrno eeInfo : Nat) : Ping :=
  if p.st.options.quiet then p
  else
    let p :=
      if p.st.options.flood then p.print .floodError
      else if eeErrno ≠ EMSGSIZE then p.print (.localError eeErrno)
      else p.print (.messageTooLong eeInfo)
    { p with nerrors := p.nerrors + 1 }

def icmpErrorReport (p : Ping) (e : IcmpError) : Ping :=
  if p.st.options.quiet then p
  else if p.st.options.flood then p.print .floodIcmpError
  else p.print (.icmpError e.offender e.seq e.eeType e.eeCode e.eeInfo)

/-- The quoted packet is a probe of type `echo` that this process sent. -/
def quotesOurs (echo : UInt8) (p : Ping) (e : IcmpError) : Bool :=
  8 ≤ e.res && e.target = p.whereto && e.type = echo && isOurs p e.id

def ICMP_ECHO : UInt8 := 8
def ICMP6_ECHO_REQUEST : UInt8 := 128

/-- The state, the value returned and `errno` afterwards. -/
def ping4ReceiveErrorMsg (p : Ping) (queue : ErrQueue) (savedErrno : Nat) : Ping × Int × Nat :=
  match queue with
  | .empty | .otherOrigin => (p, 0, savedErrno)
  | .noExtended => ({ p with aborted := true }, 0, savedErrno)
  | .localOrigin eeErrno eeInfo => (localErrorMsg p eeErrno eeInfo, -1, savedErrno)
  | .icmpOrigin e =>
      if quotesOurs ICMP_ECHO p e then
        let p := { p with st := acknowledge p.st e.seq, nerrors := p.nerrors + 1 }
        (icmpErrorReport p e, 1, savedErrno)
      else (p, 0, 0)

/-- As `ping4ReceiveErrorMsg`, but the quoted probe is not acknowledged. -/
def ping6ReceiveErrorMsg (p : Ping) (queue : ErrQueue) (savedErrno : Nat) : Ping × Int × Nat :=
  match queue with
  | .empty | .otherOrigin => (p, 0, savedErrno)
  | .noExtended => ({ p with aborted := true }, 0, savedErrno)
  | .localOrigin eeErrno eeInfo => (localErrorMsg p eeErrno eeInfo, -1, savedErrno)
  | .icmpOrigin e =>
      if quotesOurs ICMP6_ECHO_REQUEST p e then
        let p := { p with nerrors := p.nerrors + 1 }
        (icmpErrorReport p e, 1, savedErrno)
      else (p, 0, 0)

/-- The two function sets; the second one may send node information queries. -/
inductive Family
  | inet
  | inet6 (niquery : Bool)
  deriving DecidableEq

def sendProbe (family : Family) (p : Ping) : Ping :=
  let st := rcvdClear p.st (UInt16.ofNat (p.st.ntransmitted + 1))
  match family with
  | .inet => { p with st := st }
  | .inet6 niquery =>
      { p with st := { st with confirm := 0, datalen := if niquery then 0 else st.datalen } }

def receiveErrorMsg (family : Family) (p : Ping) (queue : ErrQueue) (savedErrno : Nat) :
    Ping × Int × Nat :=
  match family with
  | .inet => ping4ReceiveErrorMsg p queue savedErrno
  | .inet6 _ => ping6ReceiveErrorMsg p queue savedErrno

/-- The result of `sendto`. A failure sets `errno`, and the error queue may hold
a message then. -/
inductive SendResult
  | sent
  | short
  | failed (errno : Nat) (queue : ErrQueue) (set : errno ≠ 0)

def hardLocalError (p : Ping) (i : Int) (errno : Nat) : Ping × Option Int :=
  let p := { p with st := advanceNtransmitted p.st }
  let p :=
    if i = 0 ∧ ¬ p.st.options.quiet then
      p.print (if p.st.options.flood then .floodError else .perror errno)
    else p
  ({ p with tokens := 0 }, some (SCHINT p.st.interval))

/-- This works only in adaptive mode. -/
def slowdown (st : State) : State :=
  let addend := if st.times.rtt < 8 * 50000 then st.times.rtt.tdiv 8 else 50000
  let st := { st with rttAddend := wrap 32 (st.rttAddend + addend) }
  if st.options.adaptive then updateInterval st else st

def noresInterval (st : State) : Int := min (SCHINT (st.interval.tdiv 2)) 500

/-- The device queue was full again. After `lingertime` of such failures the
probe counts as sent. -/
def waitOrGiveUp (p : Ping) (errno : Nat) : Ping × Option Int :=
  if wrap 32 (p.oomCount * noresInterval p.st) < p.lingertime then (p, some (noresInterval p.st))
  else hardLocalError p 0 errno

def noBuffers (p : Ping) (errno : Nat) : Ping × Option Int :=
  waitOrGiveUp
    { p with st := slowdown p.st, tokens := 0, oomCount := wrap 32 (p.oomCount + 1) } errno

def probeSent (p : Ping) : Ping × Option Int :=
  let p := { p with oomCount := 0, st := advanceNtransmitted p.st }
  let width := p.screenWidth
  let p :=
    if ¬ p.st.options.quiet ∧ p.st.options.flood ∧
        (p.preload < width ∧ p.st.pipesize < width ∨ inFlight p.st p.nerrors < width) then
      p.print .dot
    else p
  (p, some (wrap 32 (p.st.interval - p.tokens)))

/-- For old kernels that refuse `MSG_CONFIRM`. -/
def dropConfirm (p : Ping) : Ping := { p with st := { p.st with confirmFlag := 0 } }

/-- The loop at the label `resend`, with what each `send_probe` meets. Without
a value the call has not come back: it aborted or goes on sending. -/
def resend (family : Family) (p : Ping) : List SendResult → Ping × Option Int
  | [] => (p, none)
  | result :: rest =>
      let p := sendProbe family p
      match result with
      | .sent => probeSent p
      | .short => ({ p with aborted := true }, none)
      | .failed errno queue _ =>
          if errno = ENOBUFS ∨ errno = ENOMEM then noBuffers p errno
          else if errno = EAGAIN then
            ({ p with tokens := wrap 32 (p.tokens + p.st.interval) }, some MININTERVAL)
          else
            match receiveErrorMsg family p queue errno with
            | (p, i, errno) =>
                if p.aborted then (p, none)
                else if i > 0 then hardLocalError p 0 errno
                else if i = 0 ∧ p.st.confirmFlag ≠ 0 ∧ errno = EINVAL then
                  resend family (dropConfirm p) rest
                else if errno = 0 then resend family p rest
                else hardLocalError p i errno

/-- Tokens for the time since the last probe: the time to wait, or the state in
which the probe is sent. -/
def pace (p : Ping) (tv : Timespec) : Except Int Ping :=
  let interval := p.st.interval
  if p.curTime.tvSec = 0 then
    .ok { p with curTime := tv, tokens := wrap 32 (interval * (p.preload - 1)) }
  else
    let ntokens := (tv.tvSec - p.curTime.tvSec) * 1000 +
      (tv.tvNsec - p.curTime.tvNsec).tdiv 1000000
    if interval = 0 ∧ ntokens < MININTERVAL ∧ inFlight p.st p.nerrors ≥ p.preload then
      .error (wrap 32 (MININTERVAL - ntokens))
    else
      let ntokens := min (ntokens + p.tokens) (wrap 32 (interval * p.preload))
      if ntokens < interval then .error (wrap 32 (interval - ntokens))
      else .ok { p with curTime := tv, tokens := wrap 32 (ntokens - interval) }

def noteOutstanding (p : Ping) : Ping :=
  if p.outstanding ∧ 0 < p.st.ntransmitted ∧
      ¬ rcvdTest p.st (UInt16.ofNat p.st.ntransmitted) then
    p.print (.noAnswerYet (p.st.ntransmitted % 0x10000))
  else p

def pinger (family : Family) (p : Ping) (tv : Timespec) (results : List SendResult) :
    Ping × Option Int :=
  if p.exiting ∨ p.npackets ≠ 0 ∧ p.npackets ≤ p.st.ntransmitted ∧ p.deadline = 0 then
    (p, some 1000)
  else
    match pace p tv with
    | .error wait => (p, some wait)
    | .ok p => resend family (noteOutstanding p) results

/-- The conditions under which `main_loop` leaves. -/
def exitTest (p : Ping) : Bool :=
  p.exiting || (p.npackets ≠ 0 && p.npackets ≤ p.st.nreceived + p.nerrors) ||
    (p.deadline ≠ 0 && p.nerrors ≠ 0)

theorem pace_ok {p q : Ping} {tv : Timespec} (h : pace p tv = .ok q) :
    ∃ tokens, q = { p with curTime := tv, tokens := tokens } := by
  unfold pace at h
  dsimp only at h
  split at h
  · cases h
    exact ⟨_, rfl⟩
  · split at h
    · cases h
    · split at h
      · cases h
      · cases h
        exact ⟨_, rfl⟩

/-! What the functions that print do to the rest of the state. -/

theorem hardLocalError_eq (p : Ping) (i : Int) (errno : Nat) :
    ∃ out, (hardLocalError p i errno).1 =
      { p with st := advanceNtransmitted p.st, tokens := 0, out := out } := by
  unfold hardLocalError
  dsimp only
  split
  · exact ⟨_, rfl⟩
  · exact ⟨_, rfl⟩

theorem probeSent_eq (p : Ping) :
    ∃ out, (probeSent p).1 =
      { p with oomCount := 0, st := advanceNtransmitted p.st, out := out } := by
  unfold probeSent
  dsimp only
  split
  · exact ⟨_, rfl⟩
  · exact ⟨_, rfl⟩

theorem icmpErrorReport_eq (p : Ping) (e : IcmpError) :
    ∃ out, icmpErrorReport p e = { p with out := out } := by
  unfold icmpErrorReport
  split
  · exact ⟨_, rfl⟩
  · split
    · exact ⟨_, rfl⟩
    · exact ⟨_, rfl⟩

theorem localErrorMsg_eq (p : Ping) (eeErrno eeInfo : Nat) :
    ∃ out, localErrorMsg p eeErrno eeInfo =
      { p with nerrors := p.nerrors + (if p.st.options.quiet then 0 else 1), out := out } := by
  unfold localErrorMsg
  split
  · exact ⟨_, rfl⟩
  · split
    · exact ⟨_, rfl⟩
    · split
      · exact ⟨_, rfl⟩
      · exact ⟨_, rfl⟩

theorem noteOutstanding_eq (p : Ping) : ∃ out, noteOutstanding p = { p with out := out } := by
  unfold noteOutstanding
  split
  · exact ⟨_, rfl⟩
  · exact ⟨_, rfl⟩

theorem noteOutstanding_pace {p q : Ping} {tv : Timespec} (h : pace p tv = .ok q) :
    ∃ tokens out, noteOutstanding q = { p with curTime := tv, tokens := tokens, out := out } := by
  obtain ⟨tokens, rfl⟩ := pace_ok h
  obtain ⟨out, noted⟩ := noteOutstanding_eq { p with curTime := tv, tokens := tokens }
  exact ⟨tokens, out, noted⟩

/-! ### One attempt of the loop -/

def echoType : Family → UInt8
  | .inet => ICMP_ECHO
  | .inet6 _ => ICMP6_ECHO_REQUEST

/-- What an ICMP error about one of our probes does to the accounting. -/
def creditError (family : Family) (p : Ping) (e : IcmpError) : Ping :=
  match family with
  | .inet => { p with st := acknowledge p.st e.seq, nerrors := p.nerrors + 1 }
  | .inet6 _ => { p with nerrors := p.nerrors + 1 }

theorem receiveErrorMsg_icmp (family : Family) (p : Ping) (e : IcmpError) (errno : Nat) :
    receiveErrorMsg family p (.icmpOrigin e) errno =
      if quotesOurs (echoType family) p e then
        (icmpErrorReport (creditError family p e) e, 1, errno)
      else (p, 0, 0) := by
  cases family with
  | inet => rfl
  | inet6 niquery => rfl

@[simp] theorem sendProbe_aborted (family : Family) (p : Ping) :
    (sendProbe family p).aborted = p.aborted := by
  cases family with
  | inet => rfl
  | inet6 niquery => rfl

@[simp] theorem creditError_aborted (family : Family) (p : Ping) (e : IcmpError) :
    (creditError family p e).aborted = p.aborted := by
  cases family with
  | inet => rfl
  | inet6 niquery => rfl

@[simp] theorem icmpErrorReport_aborted (p : Ping) (e : IcmpError) :
    (icmpErrorReport p e).aborted = p.aborted := by
  obtain ⟨out, same⟩ := icmpErrorReport_eq p e
  rw [same]

@[simp] theorem localErrorMsg_aborted (p : Ping) (eeErrno eeInfo : Nat) :
    (localErrorMsg p eeErrno eeInfo).aborted = p.aborted := by
  obtain ⟨out, same⟩ := localErrorMsg_eq p eeErrno eeInfo
  rw [same]

variable {family : Family} {p : Ping} {errno : Nat} {set : errno ≠ 0} {rest : List SendResult}

def hardErrno (errno : Nat) : Prop := errno ≠ ENOBUFS ∧ errno ≠ ENOMEM ∧ errno ≠ EAGAIN

theorem resend_hard (hard : hardErrno errno) (queue : ErrQueue) :
    resend family p (.failed errno queue set :: rest) =
      match receiveErrorMsg family (sendProbe family p) queue errno with
      | (p, i, errno) =>
          if p.aborted then (p, none)
          else if i > 0 then hardLocalError p 0 errno
          else if i = 0 ∧ p.st.confirmFlag ≠ 0 ∧ errno = EINVAL then
            resend family (dropConfirm p) rest
          else if errno = 0 then resend family p rest
          else hardLocalError p i errno := by
  obtain ⟨buffers, memory, again⟩ := hard
  rw [resend]
  dsimp only
  rw [if_neg (not_or.mpr ⟨buffers, memory⟩), if_neg again]

theorem resend_soft (soft : ¬ hardErrno errno) (queue : ErrQueue) :
    resend family p (.failed errno queue set :: rest) =
      if errno = ENOBUFS ∨ errno = ENOMEM then noBuffers (sendProbe family p) errno
      else
        ({ sendProbe family p with
            tokens := wrap 32 ((sendProbe family p).tokens + (sendProbe family p).st.interval) },
          some MININTERVAL) := by
  rw [resend]
  dsimp only
  by_cases buffers : errno = ENOBUFS ∨ errno = ENOMEM
  · rw [if_pos buffers, if_pos buffers]
  · have again : errno = EAGAIN := by
      by_contra other
      exact soft ⟨(not_or.mp buffers).1, (not_or.mp buffers).2, other⟩
    rw [if_neg buffers, if_neg buffers, if_pos again]

theorem resend_localOrigin (hard : hardErrno errno) (alive : p.aborted = false)
    (eeErrno eeInfo : Nat) :
    resend family p (.failed errno (.localOrigin eeErrno eeInfo) set :: rest) =
      hardLocalError (localErrorMsg (sendProbe family p) eeErrno eeInfo) (-1) errno := by
  have msg : receiveErrorMsg family (sendProbe family p) (.localOrigin eeErrno eeInfo) errno =
      (localErrorMsg (sendProbe family p) eeErrno eeInfo, -1, errno) := by
    cases family with
    | inet => rfl
    | inet6 niquery => rfl
  rw [resend_hard hard, msg]
  simp [alive, set]

theorem resend_noExtended (hard : hardErrno errno) :
    resend family p (.failed errno .noExtended set :: rest) =
      ({ sendProbe family p with aborted := true }, none) := by
  rw [resend_hard hard]
  cases family with
  | inet => rfl
  | inet6 niquery => rfl

theorem resend_icmpOrigin (hard : hardErrno errno) (alive : p.aborted = false) (e : IcmpError) :
    resend family p (.failed errno (.icmpOrigin e) set :: rest) =
      if quotesOurs (echoType family) (sendProbe family p) e then
        hardLocalError (icmpErrorReport (creditError family (sendProbe family p) e) e) 0 errno
      else resend family (sendProbe family p) rest := by
  have differs : (0 : Nat) ≠ EINVAL := by decide
  rw [resend_hard hard, receiveErrorMsg_icmp]
  by_cases ours : quotesOurs (echoType family) (sendProbe family p) e = true
  · rw [if_pos ours, if_pos ours]
    simp [alive]
  · rw [if_neg ours, if_neg ours]
    simp [alive, differs]

theorem resend_silent (hard : hardErrno errno) (alive : p.aborted = false) {queue : ErrQueue}
    (silent : queue = .empty ∨ queue = .otherOrigin) :
    resend family p (.failed errno queue set :: rest) =
      if (sendProbe family p).st.confirmFlag ≠ 0 ∧ errno = EINVAL then
        resend family (dropConfirm (sendProbe family p)) rest
      else hardLocalError (sendProbe family p) 0 errno := by
  have msg : receiveErrorMsg family (sendProbe family p) queue errno =
      (sendProbe family p, 0, errno) := by
    rcases silent with rfl | rfl
    · cases family with
      | inet => rfl
      | inet6 niquery => rfl
    · cases family with
      | inet => rfl
      | inet6 niquery => rfl
  rw [resend_hard hard, msg]
  simp [alive, set]

end Baseliner.PingSession
