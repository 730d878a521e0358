import Baseliner.PingReceive
import Baseliner.PrefixReads

/-! What becomes of a reply, with different bytes behind the `cc` that were
received: the buffer is used for every packet, and what earlier packets left in
it stays. `contains_pattern_in_payload` runs to `datalen` and not to `cc`, a
datagram socket has no minimal length, the nonce of a node information reply is
read from eight bytes that only its own length would promise, and a fragment
header in a quoted packet moves the reads behind the tested length. -/

namespace Baseliner.PingReceivedOnly

open PingStatistics PingSession PingReceive PrefixReads

/-- What is decided about a packet: the value returned, the counters, the table of
duplicates, `acked` and the sums of the times. -/
structure Verdict where
  value : Nat
  ntransmitted : Nat
  nreceived : Nat
  nrepeats : Nat
  nchecksum : Nat
  nerrors : Nat
  rcvdTbl : UInt16 → Bool
  acked : UInt16
  times : Times

def verdict (r : Ping × Nat) : Verdict where
  value := r.2
  ntransmitted := r.1.st.ntransmitted
  nreceived := r.1.st.nreceived
  nrepeats := r.1.st.nrepeats
  nchecksum := r.1.st.nchecksum
  nerrors := r.1.nerrors
  rcvdTbl := r.1.st.rcvdTbl
  acked := r.1.st.acked
  times := r.1.st.times

/-- The verdict is the same for any two buffers with the received bytes of `d`. -/
def ReceivedOnly (parse : Datagram → Ping × Nat) (d : Datagram) : Prop :=
  ∀ buf buf', Agree d.cc d.buf buf → Agree d.cc d.buf buf' →
    verdict (parse { d with buf := buf }) = verdict (parse { d with buf := buf' })

def MD5_DIGEST_LENGTH : Nat := 16
def NI_NONCE_SIZE : Nat := 8

abbrev Digest := { digest : List UInt8 // digest.length = MD5_DIGEST_LENGTH }

/-- `digest` is the sum of the secret of the process and the two bytes. -/
def niqueryCheckNonce (digest : List UInt8 → Digest) (nonce : List UInt8) : Option UInt16 :=
  if nonce.drop 2 = (digest (nonce.take 2)).1.take (NI_NONCE_SIZE - 2) then
    some (ByteOrder.load .big (nonce.getD 0 0) (nonce.getD 1 0))
  else none

/-! ### The conditions -/

/-- The received bytes do not rule out that the number at `i` is `s`. -/
def Possible (d : Datagram) (i : Nat) (s : UInt16) : Prop :=
  (i < d.cc → (d.buf i).toNat = s.toNat / 256) ∧
    (i + 1 < d.cc → (d.buf (i + 1)).toNat = s.toNat % 256)

/-- `acknowledge` would change `acked`. -/
def Advances (st : State) (seq : UInt16) : Prop :=
  UInt16.ofNat st.ntransmitted - seq ≤ 0x7FFF ∧ seq ≠ st.acked ∧
    (0 < (seq - st.acked).toInt16 ∨
      ((UInt16.ofNat st.ntransmitted).toNat : Int) - st.acked.toNat > 0x7FFF)

/-- The whole payload was received, or a received byte of it is wrong. -/
def PayloadDecided (st : State) (d : Datagram) : Prop :=
  st.datalen ≤ 16 ∨ st.datalen + 8 ≤ d.cc ∨
    ∃ i < st.datalen - 16, 24 + i < d.cc ∧ d.buf (24 + i) ≠ st.outpack.getD i 0

/-- The number was received, or the packet is not counted for it, or whatever it
is, it is a duplicate that acknowledges nothing. -/
def NumberDecided (st : State) (d : Datagram) (csfailed : Bool) : Prop :=
  8 ≤ d.cc ∨ csfailed = true ∨ ∀ s, Possible d 6 s → st.rcvdTbl s = true ∧ ¬ Advances st s

/-- For the ICMP part, which a raw socket passes on with eight bytes at least. -/
def Icmp4Decided (p : Ping) (d : Datagram) : Prop :=
  0 < d.cc ∧
    (d.buf 0 = ICMP_ECHOREPLY → isOurs p (be16 d.buf 4) = true →
      PayloadDecided p.st d ∧ NumberDecided p.st d (inCksum d.buf d.cc 0 ≠ 0))

def Ping4Decided (p : Ping) (d : Datagram) : Prop :=
  if p.dgram then Icmp4Decided p d
  else
    let hlen := (d.buf 0).toNat % 16 * 4
    20 ≤ hlen → hlen + 8 ≤ d.cc →
      Icmp4Decided p { d with buf := fun i => d.buf (hlen + i), cc := d.cc - hlen }

/-- The whole nonce was received, or a received byte of it is not from the digest. -/
def NonceDecided (digest : List UInt8 → Digest) (d : Datagram) : Prop :=
  16 ≤ d.cc ∨
    ∃ i < 6, 10 + i < d.cc ∧ d.buf (10 + i) ≠ (digest (bytes d.buf 8 2)).1.getD i 0

/-- An echo request behind a fragment header, of which fewer than eight bytes were
received: they rule out that it is ours, or it is ours and whatever its number is,
it acknowledges nothing. -/
def FragmentDecided (p : Ping) (d : Datagram) : Prop :=
  (56 < d.cc ∧ d.buf 56 ≠ ICMP6_ECHO_REQUEST) ∨ (p.dgram = false ∧ ¬ Possible d 60 p.ident) ∨
    (56 < d.cc ∧ (p.dgram = true ∨ 62 ≤ d.cc) ∧ ∀ s, Possible d 62 s → ¬ Advances p.st s)

def QuotedDecided (p : Ping) (d : Datagram) : Prop :=
  56 ≤ d.cc → d.cc < 64 → bytes d.buf 32 16 = p.whereto → d.buf 14 = 44 →
    d.buf 48 = IPPROTO_ICMPV6 → FragmentDecided p d

def Ping6Decided (digest : List UInt8 → Digest) (p : Ping) (d : Datagram) : Prop :=
  8 ≤ d.cc →
    if d.buf 0 = ICMP6_ECHO_REPLY then
      isOurs p (be16 d.buf 4) = true → PayloadDecided p.st d
    else if d.buf 0 = ICMPV6_NI_REPLY then NonceDecided digest d
    else QuotedDecided p d

/-! ### Reads of the received bytes -/

theorem be16_agree {cc i : Nat} {buf buf' : Nat → UInt8} (h : Agree cc buf buf')
    (received : i + 2 ≤ cc) : be16 buf' i = be16 buf i := by
  unfold be16
  rw [h i (by omega), h (i + 1) (by omega)]

theorem be32_agree {cc i : Nat} {buf buf' : Nat → UInt8} (h : Agree cc buf buf')
    (received : i + 4 ≤ cc) : be32 buf' i = be32 buf i := by
  unfold be32
  rw [be16_agree h (by omega), be16_agree h (by omega)]

theorem bytes_agree {cc i n : Nat} {buf buf' : Nat → UInt8} (h : Agree cc buf buf')
    (received : i + n ≤ cc) : bytes buf' i n = bytes buf i n := by
  refine List.map_congr_left fun k bound => ?_
  have bound := List.mem_range.mp bound
  exact (h (i + k) (by omega)).symm

theorem le64_agree {cc i : Nat} {buf buf' : Nat → UInt8} (h : Agree cc buf buf')
    (received : i + 8 ≤ cc) : le64 buf' i = le64 buf i := by
  rw [le64, le64, bytes_agree h received]

theorem inCksum_agree {cc : Nat} {buf buf' : Nat → UInt8} (h : Agree cc buf buf')
    (csum : UInt16) : inCksum buf' cc csum = inCksum buf cc csum := by
  have words : (List.range (cc / 2)).map (fun k => (buf' (2 * k)).toNat +
      256 * (buf' (2 * k + 1)).toNat) =
      (List.range (cc / 2)).map fun k => (buf (2 * k)).toNat + 256 * (buf (2 * k + 1)).toNat := by
    refine List.map_congr_left fun k bound => ?_
    have bound := List.mem_range.mp bound
    rw [h (2 * k) (by omega), h (2 * k + 1) (by omega)]
  unfold inCksum
  by_cases odd : cc % 2 = 1
  · rw [words, h (cc - 1) (by omega)]
  · simp only [words, if_neg odd]

theorem contains_iff (st : State) (buf : Nat → UInt8) :
    containsPatternInPayload st buf 8 = true ↔
      ∀ i < st.datalen - 16, buf (24 + i) = st.outpack.getD i 0 := by
  simp only [containsPatternInPayload, List.all_eq_true, List.mem_range, decide_eq_true_eq]

/-! ### The statistics of a reply -/

theorem gatherStatistics_congr (st : State) {reply reply' : Reply} (tv now : Timespec)
    (cc : reply'.cc = reply.cc) (csfailed : reply'.csfailed = reply.csfailed)
    (seq : reply.csfailed = false → reply'.seq = reply.seq)
    (stamp : 24 ≤ reply.cc → reply'.stamp = reply.stamp) :
    (gatherStatistics st reply' tv now).1 = (gatherStatistics st reply tv now).1 := by
  have note : noted st reply' = noted st reply := by
    unfold noted
    cases good : reply.csfailed with
    | true => rw [csfailed, good, if_pos rfl, if_pos rfl]
    | false => rw [csfailed, good, seq good]
  have timing (st : State) : gatherTiming st reply' tv now = gatherTiming st reply tv now := by
    by_cases complete : 24 ≤ reply.cc
    · unfold gatherTiming
      rw [cc, csfailed, stamp complete]
    · unfold gatherTiming
      rw [if_neg (by omega), if_neg (by omega)]
  have count (st : State) : gatherCount st reply' = gatherCount st reply := by
    unfold gatherCount
    cases good : reply.csfailed with
    | true => rw [csfailed, good, if_pos rfl, if_pos rfl]
    | false => rw [csfailed, good, seq good]
  rw [gatherStatistics_state, gatherStatistics_state, note, timing, count]

theorem verdict_gatherReply (p : Ping) (reply : Reply) (tv now : Timespec) :
    verdict (gatherReply p reply tv now) =
      verdict ({ p with st := (gatherStatistics p.st reply tv now).1 }, 0) := by
  obtain ⟨out, eq⟩ := gatherReply_eq p reply tv now
  have value : (gatherReply p reply tv now).2 = 0 := rfl
  rw [show gatherReply p reply tv now = ((gatherReply p reply tv now).1, 0) from
    Prod.ext rfl value, eq]
  rfl

theorem acknowledge_acked (st : State) (seq : UInt16) [Decidable (Advances st seq)] :
    (acknowledge st seq).acked = if Advances st seq then seq else st.acked := by
  unfold acknowledge Advances
  dsimp only
  by_cases near : UInt16.ofNat st.ntransmitted - seq ≤ 0x7FFF
  · by_cases same : seq = st.acked
    · subst same
      simp [near]
    · simp [near, same]
  · simp [near]

/-- Two numbers of which one advances `acked` are told apart by it. -/
theorem not_advances_of_acked {st : State} {s s' : UInt16} (differ : s ≠ s')
    (same : (acknowledge st s).acked = (acknowledge st s').acked) : ¬ Advances st s := by
  classical
  intro ahead
  rw [acknowledge_acked, acknowledge_acked, if_pos ahead] at same
  split_ifs at same with ahead'
  · exact differ same
  · exact ahead.2.1 same

theorem acked_of_not_advances {st : State} {s : UInt16} (h : ¬ Advances st s) :
    (acknowledge st s).acked = st.acked := by
  classical
  rw [acknowledge_acked, if_neg h]

/-! A good reply without a time stamp. -/

section Short

variable {st : State} {reply : Reply} {tv now : Timespec}

theorem gatherStatistics_short (short : reply.cc < 24) (good : reply.csfailed = false) :
    (gatherStatistics st reply tv now).1 =
      confirmed (gatherCount (acknowledge { st with nreceived := st.nreceived + 1 } reply.seq)
        reply).1 := by
  rw [gatherStatistics_state]
  unfold gatherTiming noted
  rw [if_neg (by omega), good, if_neg Bool.false_ne_true]

theorem acknowledge_rcvdTbl (st : State) (seq : UInt16) :
    (acknowledge st seq).rcvdTbl = st.rcvdTbl := by
  obtain ⟨_, _, eq⟩ := acknowledge_eq st seq
  rw [eq]

theorem acknowledge_nrepeats (st : State) (seq : UInt16) :
    (acknowledge st seq).nrepeats = st.nrepeats := by
  obtain ⟨_, _, eq⟩ := acknowledge_eq st seq
  rw [eq]

theorem gatherCount_of_duplicate (good : reply.csfailed = false)
    (seen : st.rcvdTbl reply.seq = true) : (gatherCount st reply).1 =
      { st with nrepeats := st.nrepeats + 1, nreceived := st.nreceived - 1 } := by
  unfold gatherCount rcvdTest
  rw [good, if_neg Bool.false_ne_true, if_pos seen]

theorem gatherCount_of_new (good : reply.csfailed = false)
    (fresh : ¬ st.rcvdTbl reply.seq = true) :
    (gatherCount st reply).1 = rcvdSet st reply.seq := by
  unfold gatherCount rcvdTest
  rw [good, if_neg Bool.false_ne_true, if_neg fresh]

theorem gatherCount_acked (st : State) (reply : Reply) :
    (gatherCount st reply).1.acked = st.acked := by
  obtain ⟨_, _, _, _, eq⟩ := gatherCount_eq st reply
  rw [eq]

theorem verdict_short {p : Ping} (short : reply.cc < 24) (good : reply.csfailed = false)
    (seen : p.st.rcvdTbl reply.seq = true) (behind : ¬ Advances p.st reply.seq) :
    verdict (gatherReply p reply tv now) =
      { verdict (p, 0) with nrepeats := p.st.nrepeats + 1 } := by
  have table : (acknowledge { p.st with nreceived := p.st.nreceived + 1 } reply.seq).rcvdTbl
      reply.seq = true := by
    rw [acknowledge_rcvdTbl]
    exact seen
  have acked : (acknowledge { p.st with nreceived := p.st.nreceived + 1 } reply.seq).acked =
      p.st.acked :=
    @acked_of_not_advances { p.st with nreceived := p.st.nreceived + 1 } _ behind
  rw [verdict_gatherReply, gatherStatistics_short short good, gatherCount_of_duplicate good table]
  obtain ⟨_, _, eq⟩ := acknowledge_eq { p.st with nreceived := p.st.nreceived + 1 } reply.seq
  rw [eq] at acked ⊢
  unfold verdict confirmed
  rw [acked]
  rfl

theorem duplicate_of_verdict {p : Ping} {reply' : Reply} (short : reply.cc < 24)
    (good : reply.csfailed = false) (short' : reply'.cc < 24) (good' : reply'.csfailed = false)
    (differ : reply.seq ≠ reply'.seq)
    (same : verdict (gatherReply p reply tv now) = verdict (gatherReply p reply' tv now)) :
    p.st.rcvdTbl reply.seq = true ∧ ¬ Advances p.st reply.seq := by
  rw [verdict_gatherReply, verdict_gatherReply, gatherStatistics_short short good,
    gatherStatistics_short short' good'] at same
  constructor
  · by_contra fresh
    have fresh' : ¬ (acknowledge { p.st with nreceived := p.st.nreceived + 1 }
        reply.seq).rcvdTbl reply.seq = true := by
      rw [acknowledge_rcvdTbl]
      exact fresh
    rw [gatherCount_of_new good fresh'] at same
    by_cases seen : (acknowledge { p.st with nreceived := p.st.nreceived + 1 }
        reply'.seq).rcvdTbl reply'.seq = true
    · have repeats := congrArg Verdict.nrepeats same
      rw [gatherCount_of_duplicate good' seen] at repeats
      change (acknowledge _ _).nrepeats = (acknowledge _ _).nrepeats + 1 at repeats
      rw [acknowledge_nrepeats, acknowledge_nrepeats] at repeats
      exact absurd repeats (Nat.ne_of_lt (Nat.lt_succ_self _))
    · have bit := congrFun (congrArg Verdict.rcvdTbl same) reply.seq
      rw [gatherCount_of_new good' seen] at bit
      change (decide (reply.seq = reply.seq) || (acknowledge _ _).rcvdTbl reply.seq) =
        (decide (reply.seq = reply'.seq) || (acknowledge _ _).rcvdTbl reply.seq) at bit
      rw [acknowledge_rcvdTbl, acknowledge_rcvdTbl] at bit
      simp only [decide_true, Bool.true_or, differ, decide_false, Bool.false_or] at bit
      exact fresh bit.symm
  · have acked := congrArg Verdict.acked same
    change (gatherCount _ reply).1.acked = (gatherCount _ reply').1.acked at acked
    rw [gatherCount_acked, gatherCount_acked] at acked
    exact @not_advances_of_acked { p.st with nreceived := p.st.nreceived + 1 } _ _ differ acked

end Short

/-! ### What the rest of the buffer decides -/

theorem receivedOnly_iff (parse : Datagram → Ping × Nat) (d : Datagram) :
    ReceivedOnly parse d ↔ Settled d.cc d.buf fun buf => verdict (parse { d with buf := buf }) :=
  Iff.rfl

theorem contains_agree {st : State} {d : Datagram} {buf : Nat → UInt8}
    (decided : PayloadDecided st d) (agree : Agree d.cc d.buf buf) :
    containsPatternInPayload st buf 8 = containsPatternInPayload st d.buf 8 := by
  rw [Bool.eq_iff_iff, contains_iff, contains_iff]
  rcases decided with empty | whole | ⟨i, bound, received, wrong⟩
  · constructor
    · intro _ i bound
      omega
    · intro _ i bound
      omega
  · have same (i : Nat) (bound : i < st.datalen - 16) : d.buf (24 + i) = buf (24 + i) :=
      agree (24 + i) (by omega)
    constructor
    · intro h i bound
      rw [same i bound, h i bound]
    · intro h i bound
      rw [← same i bound, h i bound]
  · constructor
    · intro h
      exact absurd ((agree (24 + i) received).trans (h i bound)) wrong
    · intro h
      exact absurd (h i bound) wrong

/-- The payload that was sent, and one that differs from it in every byte. -/
def sent (st : State) (i : Nat) : UInt8 := st.outpack.getD (i - 24) 0
def unsent (st : State) (i : Nat) : UInt8 := st.outpack.getD (i - 24) 0 + 1

theorem sent_of_undecided {st : State} {d : Datagram} (undecided : ¬ PayloadDecided st d) :
    containsPatternInPayload st (splice d.cc d.buf (sent st)) 8 = true := by
  rw [contains_iff]
  intro i bound
  by_cases received : 24 + i < d.cc
  · rw [splice_of_lt received]
    by_contra wrong
    exact undecided (.inr (.inr ⟨i, bound, received, wrong⟩))
  · rw [splice_of_le (by omega), sent, Nat.add_sub_cancel_left]

theorem unsent_of_undecided {st : State} {d : Datagram} (undecided : ¬ PayloadDecided st d) :
    containsPatternInPayload st (splice d.cc d.buf (unsent st)) 8 = false := by
  have long : 16 < st.datalen ∧ d.cc < st.datalen + 8 := by
    by_contra h
    rcases Nat.lt_or_ge 16 st.datalen with l | l
    · exact undecided (.inr (.inl (by omega)))
    · exact undecided (.inl l)
  rw [Bool.eq_false_iff, ne_eq, contains_iff]
  intro h
  have last := h (st.datalen - 17) (by omega)
  rw [splice_of_le (by omega), unsent, Nat.add_sub_cancel_left] at last
  simp at last

theorem be16_toNat (buf : Nat → UInt8) (i : Nat) :
    (be16 buf i).toNat = (buf i).toNat * 256 + (buf (i + 1)).toNat := by
  rw [be16, ByteOrder.toNat_load, ByteOrder.word, Nat.mul_comm]

theorem possible_be16 {d : Datagram} {buf : Nat → UInt8} (agree : Agree d.cc d.buf buf)
    (i : Nat) : Possible d i (be16 buf i) := by
  have low := (buf (i + 1)).toNat_lt
  constructor
  · intro received
    rw [be16_toNat, agree i received]
    omega
  · intro received
    rw [be16_toNat, agree (i + 1) received]
    omega

/-- The rest of a buffer that has `s` at `i`. -/
def number (i : Nat) (s : UInt16) (k : Nat) : UInt8 :=
  UInt8.ofNat (if k = i then s.toNat / 256 else s.toNat % 256)

theorem be16_splice {d : Datagram} {i : Nat} {s : UInt16} (possible : Possible d i s)
    {rest : Nat → UInt8} (high : rest i = number i s i)
    (low : rest (i + 1) = number i s (i + 1)) : be16 (splice d.cc d.buf rest) i = s := by
  have bound := s.toNat_lt
  have first : (splice d.cc d.buf rest i).toNat = s.toNat / 256 := by
    by_cases received : i < d.cc
    · rw [splice_of_lt received, possible.1 received]
    · rw [splice_of_le (by omega), high, number, if_pos rfl, UInt8.toNat_ofNat',
        Nat.mod_eq_of_lt (by omega)]
  have second : (splice d.cc d.buf rest (i + 1)).toNat = s.toNat % 256 := by
    by_cases received : i + 1 < d.cc
    · rw [splice_of_lt received, possible.2 received]
    · rw [splice_of_le (by omega), low, number, if_neg (by omega), UInt8.toNat_ofNat',
        Nat.mod_eq_of_lt (by omega)]
  apply UInt16.toNat_inj.mp
  rw [be16_toNat, first, second]
  omega

theorem possible_other {d : Datagram} {i : Nat} {s : UInt16} (possible : Possible d i s)
    (short : d.cc ≤ i + 1) : ∃ s', s ≠ s' ∧ Possible d i s' := by
  have bound := s.toNat_lt
  have value : (UInt16.ofNat (s.toNat / 256 * 256 + (s.toNat % 256 + 1) % 256)).toNat =
      s.toNat / 256 * 256 + (s.toNat % 256 + 1) % 256 := by
    rw [UInt16.toNat_ofNat', Nat.mod_eq_of_lt (by omega)]
  refine ⟨UInt16.ofNat (s.toNat / 256 * 256 + (s.toNat % 256 + 1) % 256), fun same => ?_,
    fun received => ?_, fun received => by omega⟩
  · have same := congrArg UInt16.toNat same
    omega
  · rw [value, possible.1 received]
    omega

/-! ### Echo replies -/

def echoReply (p : Ping) (d : Datagram) (hops : Int) (csfailed : Bool) (tv now : Timespec) :
    Ping × Nat :=
  if ¬ isOurs p (be16 d.buf 4) ∨ ¬ containsPatternInPayload p.st d.buf 8 then (p, 1)
  else gatherReply p (replyAt p.st d (be16 d.buf 6) hops csfailed) tv now

section Echo

variable {p : Ping} {d : Datagram} {hops : Int} {csfailed : Bool} {tv now : Timespec}

theorem echoReply_accepted (ours : isOurs p (be16 d.buf 4) = true)
    (matching : containsPatternInPayload p.st d.buf 8 = true) :
    echoReply p d hops csfailed tv now =
      gatherReply p (replyAt p.st d (be16 d.buf 6) hops csfailed) tv now := by
  rw [echoReply, if_neg]
  rintro (h | h)
  · exact h ours
  · exact h matching

theorem echoReply_rejected
    (h : ¬ (isOurs p (be16 d.buf 4) = true ∧ containsPatternInPayload p.st d.buf 8 = true)) :
    echoReply p d hops csfailed tv now = (p, 1) := by
  rw [echoReply, if_pos]
  exact not_and_or.mp h

theorem gatherReply_agree {buf : Nat → UInt8} (agree : Agree d.cc d.buf buf) {seq seq' : UInt16}
    (same : csfailed = false → seq' = seq) :
    verdict (gatherReply p (replyAt p.st { d with buf := buf } seq' hops csfailed) tv now) =
      verdict (gatherReply p (replyAt p.st d seq hops csfailed) tv now) := by
  have stamp (complete : 24 ≤ d.cc) :
      (⟨le64 buf 8, le64 buf 16⟩ : Timespec) = ⟨le64 d.buf 8, le64 d.buf 16⟩ := by
    rw [le64_agree agree (by omega), le64_agree agree (by omega)]
  rw [verdict_gatherReply, verdict_gatherReply]
  rw [@gatherStatistics_congr p.st (replyAt p.st d seq hops csfailed)
    (replyAt p.st { d with buf := buf } seq' hops csfailed) tv now rfl rfl same stamp]

theorem echo_payload (owned : ∀ buf, Agree d.cc d.buf buf → isOurs p (be16 buf 4) = true)
    (h : Settled d.cc d.buf fun buf =>
      verdict (echoReply p { d with buf := buf } hops csfailed tv now)) :
    PayloadDecided p.st d := by
  by_contra undecided
  have same := h _ _ (agree_splice d.cc d.buf (sent p.st)) (agree_splice d.cc d.buf (unsent p.st))
  dsimp only at same
  rw [echoReply_accepted (owned _ (agree_splice _ _ _)) (sent_of_undecided undecided),
    echoReply_rejected fun both =>
      Bool.false_ne_true ((unsent_of_undecided undecided).symm.trans both.2)] at same
  exact absurd (congrArg Verdict.value same) Nat.zero_ne_one

theorem echo_number (owned : ∀ buf, Agree d.cc d.buf buf → isOurs p (be16 buf 4) = true)
    (h : Settled d.cc d.buf fun buf =>
      verdict (echoReply p { d with buf := buf } hops csfailed tv now)) :
    NumberDecided p.st d csfailed := by
  by_cases whole : 8 ≤ d.cc
  · exact .inl whole
  cases bad : csfailed with
  | true => exact .inr (.inl rfl)
  | false =>
    subst bad
    refine .inr (.inr fun s possible => ?_)
    -- so short a reply is decided on only when nothing follows the time stamp
    have empty : p.st.datalen ≤ 16 := by
      rcases echo_payload owned h with empty | _ | ⟨_, _, _, _⟩
      · exact empty
      · omega
      · omega
    have matching (buf : Nat → UInt8) : containsPatternInPayload p.st buf 8 = true := by
      rw [contains_iff]
      intro i bound
      omega
    obtain ⟨s', differ, possible'⟩ := possible_other possible (by omega)
    have same := h _ _ (agree_splice d.cc d.buf (number 6 s))
      (agree_splice d.cc d.buf (number 6 s'))
    dsimp only at same
    rw [echoReply_accepted (owned _ (agree_splice _ _ _)) (matching _),
      echoReply_accepted (owned _ (agree_splice _ _ _)) (matching _)] at same
    dsimp only at same
    rw [be16_splice possible rfl rfl, be16_splice possible' rfl rfl] at same
    exact duplicate_of_verdict (show d.cc < 24 by omega) rfl (show d.cc < 24 by omega) rfl differ
      same

theorem echo_settled (owned : ∀ buf, Agree d.cc d.buf buf → isOurs p (be16 buf 4) = true)
    (payload : PayloadDecided p.st d) (numbers : NumberDecided p.st d csfailed) :
    Settled d.cc d.buf fun buf =>
      verdict (echoReply p { d with buf := buf } hops csfailed tv now) := by
  by_cases matching : containsPatternInPayload p.st d.buf 8 = true
  · have accepted (buf : Nat → UInt8) (agree : Agree d.cc d.buf buf) :
        echoReply p { d with buf := buf } hops csfailed tv now =
          gatherReply p (replyAt p.st { d with buf := buf } (be16 buf 6) hops csfailed) tv now :=
      echoReply_accepted (owned buf agree) ((contains_agree payload agree).trans matching)
    by_cases settled : 8 ≤ d.cc ∨ csfailed = true
    · refine settled_of_eq fun buf agree => ?_
      rw [accepted buf agree, accepted d.buf (Agree.refl _ _)]
      refine gatherReply_agree agree fun good => ?_
      rcases settled with whole | bad
      · exact be16_agree agree (by omega)
      · exact absurd (bad.symm.trans good) (by decide)
    · rw [not_or, Bool.not_eq_true] at settled
      rcases numbers with whole | bad | duplicates
      · exact absurd whole settled.1
      · exact absurd (bad.symm.trans settled.2) (by decide)
      refine settled_of_const { verdict (p, 0) with nrepeats := p.st.nrepeats + 1 }
        fun buf agree => ?_
      obtain ⟨seen, behind⟩ := duplicates _ (possible_be16 agree 6)
      rw [accepted buf agree]
      exact verdict_short (show d.cc < 24 by omega) settled.2 seen behind
  · refine settled_of_const (verdict (p, 1)) fun buf agree => ?_
    rw [@echoReply_rejected p { d with buf := buf } _ _ _ _ fun both =>
      matching ((contains_agree payload agree).symm.trans both.2)]

theorem echo_settled_iff
    (owned : ∀ buf, Agree d.cc d.buf buf → isOurs p (be16 buf 4) = isOurs p (be16 d.buf 4)) :
    (Settled d.cc d.buf fun buf =>
      verdict (echoReply p { d with buf := buf } hops csfailed tv now)) ↔
      (isOurs p (be16 d.buf 4) = true → PayloadDecided p.st d ∧ NumberDecided p.st d csfailed) := by
  by_cases ours : isOurs p (be16 d.buf 4) = true
  · have owned (buf : Nat → UInt8) (agree : Agree d.cc d.buf buf) :
        isOurs p (be16 buf 4) = true := (owned buf agree).trans ours
    constructor
    · exact fun h _ => ⟨echo_payload owned h, echo_number owned h⟩
    · exact fun h => echo_settled owned (h ours).1 (h ours).2
  · refine iff_of_true (settled_of_const (verdict (p, 1)) fun buf agree => ?_) fun h =>
      absurd h ours
    rw [@echoReply_rejected p { d with buf := buf } _ _ _ _ fun both =>
      ours ((owned buf agree).symm.trans both.1)]

end Echo

end Baseliner.PingReceivedOnly
