import Baseliner.ByteOrder
import Baseliner.PingSession

/-! The receiving side of ping: `in_cksum`, `contains_pattern_in_payload`,
`ping4_parse_reply` and `ping6_parse_reply` on the bytes of a received packet,
and the session as a sequence of the three things `main_loop` does: it calls
`pinger`, it parses a packet, it reads the error queue. Addresses and IP options
in the printed lines are left out. -/

namespace Baseliner.PingReceive

open ByteOrder PingStatistics PingSession

/-- The buffer, with what earlier packets left behind the `cc` bytes received,
and the hop count of the control message. -/
structure Datagram where
  buf : Nat → UInt8
  cc : Nat
  hops : Option Int

def be16 (buf : Nat → UInt8) (i : Nat) : UInt16 := load .big (buf i) (buf (i + 1))

def be32 (buf : Nat → UInt8) (i : Nat) : Nat := (long (be16 buf i) (be16 buf (i + 2))).toNat

def bytes (buf : Nat → UInt8) (i n : Nat) : List UInt8 := (List.range n).map fun k => buf (i + k)

/-- A signed 64-bit number, low byte first. -/
def le64 (buf : Nat → UInt8) (i : Nat) : Int := wrap 64 (lowValue (bytes buf i 8) : Nat)

/-- The words are read low byte first; two folds are enough for the carries. -/
def inCksum (buf : Nat → UInt8) (len : Nat) (csum : UInt16) : UInt16 :=
  let words := (List.range (len / 2)).map fun k =>
    (buf (2 * k)).toNat + 256 * (buf (2 * k + 1)).toNat
  let sum := csum.toNat + words.sum + if len % 2 = 1 then (buf (len - 1)).toNat else 0
  let sum := sum / 65536 + sum % 65536
  let sum := sum + sum / 65536
  ~~~ UInt16.ofNat sum

def containsPatternInPayload (st : State) (buf : Nat → UInt8) (payload : Nat) : Bool :=
  (List.range (st.datalen - 16)).all fun i => buf (payload + 16 + i) = st.outpack.getD i 0

/-- The arguments of `gather_statistics` for an ICMP packet. -/
def replyAt (st : State) (d : Datagram) (seq : UInt16) (hops : Int) (csfailed : Bool) : Reply where
  cc := d.cc
  seq := seq
  hops := hops
  csfailed := csfailed
  stamp := ⟨le64 d.buf 8, le64 d.buf 16⟩
  data := bytes d.buf 24 (st.datalen - 16)

def Ping.printReport (p : Ping) (seq : UInt16) : Report → Ping
  | .quiet => p
  | report => p.print (.reply seq report)

def endLine (p : Ping) : Ping :=
  let p := if p.audible then p.print .audible else p
  if p.st.options.flood then p else p.print .newline

/-- `gather_statistics` and the end of `parse_reply`, with its value. -/
def gatherReply (p : Ping) (reply : Reply) (tv now : Timespec) : Ping × Nat :=
  match gatherStatistics p.st reply tv now with
  | (st, report) =>
      let p := Ping.printReport { p with st := st } reply.seq report
      (if report.value = 1 then p else endLine p, 0)

def ICMP_ECHOREPLY : UInt8 := 0
def ICMP_DEST_UNREACH : UInt8 := 3
def ICMP_SOURCE_QUENCH : UInt8 := 4
def ICMP_REDIRECT : UInt8 := 5
def ICMP_TIME_EXCEEDED : UInt8 := 11
def ICMP_PARAMETERPROB : UInt8 := 12

/-- A redirect, a source quench or an error, with the packet it is about. -/
def ping4Quoted (p : Ping) (d : Datagram) (csfailed : Bool) : Ping × Nat :=
  let type := d.buf 0
  let inner := 8 + (d.buf 8).toNat % 16 * 4
  let seq := be16 d.buf (inner + 6)
  if d.cc < 8 + 20 + 8 ∨ d.cc < inner + 8 then (p, 1)
  else if d.buf inner ≠ ICMP_ECHO ∨ bytes d.buf 24 4 ≠ p.whereto ∨
      ¬ isOurs p (be16 d.buf (inner + 4)) then (p, 1)
  else if type ≠ ICMP_REDIRECT ∧ type ≠ ICMP_SOURCE_QUENCH then
    ({ p with st := acknowledge p.st seq }, 0)
  else if p.st.options.quiet ∨ p.st.options.flood then (p, 1)
  else (p.print (.quoted (some seq) csfailed type (d.buf 1) (be32 d.buf 4)), 1)

def ping4Unexpected (p : Ping) (d : Datagram) (csfailed : Bool) : Ping × Nat :=
  if p.st.options.flood ∧ ¬ (p.verbose ∨ p.st.options.quiet) then (p.print (.other csfailed), 0)
  else if ¬ p.verbose ∨ p.st.uid ≠ 0 then (p, 0)
  else (p.print (.quoted none csfailed (d.buf 0) (d.buf 1) (be32 d.buf 4)), 0)

/-- The ICMP part; `d` begins behind the IP header. -/
def ping4ParseIcmp (p : Ping) (d : Datagram) (ttl : Int) (tv now : Timespec) : Ping × Nat :=
  let csfailed : Bool := inCksum d.buf d.cc 0 ≠ 0
  let type := d.buf 0
  if type = ICMP_ECHOREPLY then
    if ¬ isOurs p (be16 d.buf 4) ∨ ¬ containsPatternInPayload p.st d.buf 8 then (p, 1)
    else gatherReply p (replyAt p.st d (be16 d.buf 6) ttl csfailed) tv now
  else if type = ICMP_ECHO then (p, 1)
  else if type = ICMP_SOURCE_QUENCH ∨ type = ICMP_REDIRECT ∨ type = ICMP_DEST_UNREACH ∨
      type = ICMP_TIME_EXCEEDED ∨ type = ICMP_PARAMETERPROB then ping4Quoted p d csfailed
  else ping4Unexpected p d csfailed

def ping4ParseReply (p : Ping) (d : Datagram) (tv now : Timespec) : Ping × Nat :=
  if p.dgram then ping4ParseIcmp p d (d.hops.getD 0) tv now
  else
    let ihl := (d.buf 0).toNat % 16
    let hlen := ihl * 4
    if d.cc < hlen + 8 ∨ ihl < 5 then (if p.verbose then p.print (.tooShort d.cc) else p, 1)
    else
      ping4ParseIcmp p { d with buf := fun i => d.buf (hlen + i), cc := d.cc - hlen }
        (d.buf 8).toNat tv now

def ICMP6_ECHO_REPLY : UInt8 := 129
def ICMPV6_NI_REPLY : UInt8 := 140
def IPPROTO_ICMPV6 : UInt8 := 58

/-- An error with the packet it is about, behind at most one fragment header.
Its text is printed in quiet mode too. -/
def ping6Quoted (p : Ping) (d : Datagram) : Ping × Nat :=
  let fragment := d.buf 14 = 44
  let nexthdr := if fragment then d.buf 48 else d.buf 14
  let inner := if fragment then 56 else 48
  let seq := be16 d.buf (inner + 6)
  let quoted (seq : Option UInt16) : Output :=
    .quoted seq false (d.buf 0) (d.buf 1) (be32 d.buf 4)
  if d.cc < 8 + 40 + 8 then (p, 1)
  else if bytes d.buf 32 16 ≠ p.whereto then (p, 1)
  else if nexthdr = IPPROTO_ICMPV6 then
    if d.buf inner ≠ ICMP6_ECHO_REQUEST ∨ ¬ isOurs p (be16 d.buf (inner + 4)) then (p, 1)
    else
      let p := { p with st := acknowledge p.st seq, nerrors := p.nerrors + 1 }
      if p.st.options.flood then (p.print .floodIcmpError, 0)
      else (endLine (p.print (quoted (some seq))), 0)
  else if ¬ p.verbose ∨ p.st.uid ≠ 0 then (p, 1)
  else (endLine (p.print (quoted none)), 0)

/-- `checkNonce` is `niquery_check_nonce`: the number of the query with this nonce. -/
def ping6ParseReply (checkNonce : List UInt8 → Option UInt16) (p : Ping) (d : Datagram)
    (tv now : Timespec) : Ping × Nat :=
  let hops := d.hops.getD (-1)
  if d.cc < 8 then (if p.verbose then p.print (.tooShort d.cc) else p, 1)
  else if d.buf 0 = ICMP6_ECHO_REPLY then
    if ¬ isOurs p (be16 d.buf 4) ∨ ¬ containsPatternInPayload p.st d.buf 8 then (p, 1)
    else gatherReply p (replyAt p.st d (be16 d.buf 6) hops false) tv now
  else if d.buf 0 = ICMPV6_NI_REPLY then
    match checkNonce (bytes d.buf 8 8) with
    | none => (p, 1)
    | some seq => gatherReply p (replyAt p.st d seq hops false) tv now
  else ping6Quoted p d

def parseReply (checkNonce : List UInt8 → Option UInt16) (family : Family) (p : Ping)
    (d : Datagram) (tv now : Timespec) : Ping × Nat :=
  match family with
  | .inet => ping4ParseReply p d tv now
  | .inet6 _ => ping6ParseReply checkNonce p d tv now

inductive Event
  | pinger (tv : Timespec) (results : List SendResult)
  | packet (d : Datagram) (tv now : Timespec)
  | errQueue (queue : ErrQueue) (errno : Nat)

/-- One event of the session; after `abort` nothing happens any more. -/
def step (checkNonce : List UInt8 → Option UInt16) (family : Family) (p : Ping)
    (event : Event) : Ping :=
  if p.aborted then p
  else
    match event with
    | .pinger tv results => (pinger family p tv results).1
    | .packet d tv now => (parseReply checkNonce family p d tv now).1
    | .errQueue queue errno => (receiveErrorMsg family p queue errno).1

theorem endLine_eq (p : Ping) : ∃ out, endLine p = { p with out := out } := by
  unfold endLine
  dsimp only
  split
  · split
    · exact ⟨_, rfl⟩
    · exact ⟨_, rfl⟩
  · split
    · exact ⟨_, rfl⟩
    · exact ⟨_, rfl⟩

theorem gatherReply_eq (p : Ping) (reply : Reply) (tv now : Timespec) :
    ∃ out, (gatherReply p reply tv now).1 =
      { p with st := (gatherStatistics p.st reply tv now).1, out := out } := by
  have printed (report : Report) : ∃ out,
      Ping.printReport { p with st := (gatherStatistics p.st reply tv now).1 } reply.seq report =
        { p with st := (gatherStatistics p.st reply tv now).1, out := out } := by
    unfold Ping.printReport
    split
    · exact ⟨_, rfl⟩
    · exact ⟨_, rfl⟩
  obtain ⟨out, line⟩ := printed (gatherStatistics p.st reply tv now).2
  unfold gatherReply
  dsimp only
  rw [line]
  split
  · exact ⟨_, rfl⟩
  · exact endLine_eq _

theorem ping4Unexpected_eq (p : Ping) (d : Datagram) (csfailed : Bool) :
    ∃ out, (ping4Unexpected p d csfailed).1 = { p with out := out } := by
  unfold ping4Unexpected
  split
  · exact ⟨_, rfl⟩
  · split
    · exact ⟨_, rfl⟩
    · exact ⟨_, rfl⟩

end Baseliner.PingReceive
