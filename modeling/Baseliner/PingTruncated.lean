import Baseliner.PingReceivedOnly

/-! When the bytes behind the received ones decide about a packet, for
`ping4_parse_reply` and for `ping6_parse_reply`. -/

namespace Baseliner.PingReceivedOnly

open PingStatistics PingSession PingReceive PrefixReads

/-! ### The packets of ping -/

section Ping4

variable {p : Ping} {d : Datagram} {ttl : Int} {tv now : Timespec}

theorem ping4Quoted_agree {buf : Nat → UInt8} (agree : Agree d.cc d.buf buf) (csfailed : Bool) :
    ping4Quoted p { d with buf := buf } csfailed = ping4Quoted p d csfailed := by
  unfold ping4Quoted
  dsimp only
  by_cases short : d.cc < 8 + 20 + 8
  · rw [if_pos (.inl short), if_pos (.inl short)]
  rw [← agree 8 (by omega)]
  by_cases cut : d.cc < 8 + (d.buf 8).toNat % 16 * 4 + 8
  · rw [if_pos (.inr cut), if_pos (.inr cut)]
  have inner := agree (8 + (d.buf 8).toNat % 16 * 4) (by omega)
  have type := agree 0 (by omega)
  rw [be16_agree agree (by omega), be16_agree agree (by omega), bytes_agree agree (by omega),
    be32_agree agree (by omega), ← agree 1 (by omega)]
  simp only [← inner, ← type]

theorem verdict_ping4Unexpected (p : Ping) (d : Datagram) (csfailed : Bool) :
    verdict (ping4Unexpected p d csfailed) = verdict (p, 0) := by
  obtain ⟨out, eq⟩ := ping4Unexpected_eq p d csfailed
  have value : (ping4Unexpected p d csfailed).2 = 0 := by
    unfold ping4Unexpected
    split_ifs
    · rfl
    · rfl
    · rfl
  rw [show ping4Unexpected p d csfailed = ({ p with out := out }, 0) from Prod.ext eq value]
  rfl

/-- Of an empty packet even the type is what an earlier one left. -/
theorem icmp4_empty (empty : d.cc = 0) : ¬ Settled d.cc d.buf fun buf =>
    verdict (ping4ParseIcmp p { d with buf := buf } ttl tv now) := by
  intro h
  rw [empty] at h
  have same := h (fun _ => ICMP_ECHO) (fun _ => 255) (fun _ bound => by omega)
    fun _ bound => by omega
  unfold ping4ParseIcmp at same
  dsimp only at same
  rw [if_neg (by decide), if_pos rfl, if_neg (by decide), if_neg (by decide), if_neg (by decide),
    verdict_ping4Unexpected] at same
  exact absurd (congrArg Verdict.value same) Nat.one_ne_zero

theorem icmp4_settled_iff (checked : p.dgram = true ∨ 8 ≤ d.cc) :
    (Settled d.cc d.buf fun buf =>
      verdict (ping4ParseIcmp p { d with buf := buf } ttl tv now)) ↔ Icmp4Decided p d := by
  rcases Nat.eq_zero_or_pos d.cc with empty | received
  · exact iff_of_false (icmp4_empty empty) fun h => by have := h.1; omega
  have type (buf : Nat → UInt8) (agree : Agree d.cc d.buf buf) : buf 0 = d.buf 0 :=
    (agree 0 received).symm
  by_cases reply : d.buf 0 = ICMP_ECHOREPLY
  · have owned (buf : Nat → UInt8) (agree : Agree d.cc d.buf buf) :
        isOurs p (be16 buf 4) = isOurs p (be16 d.buf 4) := by
      rcases checked with dgram | header
      · simp only [isOurs, dgram, Bool.true_or]
      · rw [be16_agree agree (by omega)]
    have echo (buf : Nat → UInt8) (agree : Agree d.cc d.buf buf) :
        verdict (ping4ParseIcmp p { d with buf := buf } ttl tv now) =
          verdict (echoReply p { d with buf := buf } ttl (inCksum d.buf d.cc 0 ≠ 0) tv now) := by
      unfold ping4ParseIcmp
      dsimp only
      rw [type buf agree, if_pos reply, inCksum_agree agree]
      rfl
    rw [settled_congr echo, echo_settled_iff owned]
    exact ⟨fun h => ⟨received, fun _ => h⟩, fun h => h.2 reply⟩
  · refine iff_of_true (settled_of_eq fun buf agree => ?_) ⟨received, fun h => absurd h reply⟩
    unfold ping4ParseIcmp
    dsimp only
    rw [type buf agree, if_neg reply, if_neg reply, inCksum_agree agree]
    split_ifs
    · rfl
    · rw [ping4Quoted_agree agree]
    · rw [verdict_ping4Unexpected, verdict_ping4Unexpected]

theorem verdict_tooShort (p : Ping) (cc : Nat) :
    verdict (if p.verbose then p.print (.tooShort cc) else p, 1) = verdict (p, 1) := by
  split
  · rfl
  · rfl

theorem ping4_receivedOnly_iff :
    ReceivedOnly (fun d => ping4ParseReply p d tv now) d ↔ Ping4Decided p d := by
  rw [receivedOnly_iff]
  unfold Ping4Decided
  cases dgram : p.dgram with
  | true =>
    have part (buf : Nat → UInt8) (_ : Agree d.cc d.buf buf) :
        verdict (ping4ParseReply p { d with buf := buf } tv now) =
          verdict (ping4ParseIcmp p { d with buf := buf } (d.hops.getD 0) tv now) := by
      rw [ping4ParseReply, if_pos dgram]
    rw [if_pos rfl, settled_congr part]
    exact icmp4_settled_iff (.inl dgram)
  | false =>
    rw [if_neg Bool.false_ne_true]
    by_cases whole : 20 ≤ (d.buf 0).toNat % 16 * 4 ∧ (d.buf 0).toNat % 16 * 4 + 8 ≤ d.cc
    · obtain ⟨header, room⟩ := whole
      have part (buf : Nat → UInt8) (agree : Agree d.cc d.buf buf) :
          verdict (ping4ParseReply p { d with buf := buf } tv now) =
            verdict (ping4ParseIcmp p
              { d with
                buf := fun i => buf ((d.buf 0).toNat % 16 * 4 + i)
                cc := d.cc - (d.buf 0).toNat % 16 * 4 }
              (d.buf 8).toNat tv now) := by
        unfold ping4ParseReply
        dsimp only
        rw [dgram, if_neg Bool.false_ne_true, ← agree 0 (by omega), ← agree 8 (by omega),
          if_neg (by omega)]
      have split : d.cc = (d.buf 0).toNat % 16 * 4 + (d.cc - (d.buf 0).toNat % 16 * 4) := by
        omega
      have shifted := @settled_shift _ _ (d.cc - (d.buf 0).toNat % 16 * 4) d.buf
        ((d.buf 0).toNat % 16 * 4) fun buf => verdict (ping4ParseIcmp p
          { d with buf := buf, cc := d.cc - (d.buf 0).toNat % 16 * 4 } (d.buf 8).toNat tv now)
      rw [← split] at shifted
      rw [settled_congr part, shifted]
      refine (icmp4_settled_iff (d := { d with
        buf := fun i => d.buf ((d.buf 0).toNat % 16 * 4 + i)
        cc := d.cc - (d.buf 0).toNat % 16 * 4 }) (.inr ?_)).trans ?_
      · show 8 ≤ d.cc - (d.buf 0).toNat % 16 * 4
        omega
      · exact ⟨fun h _ _ => h, fun h => h header room⟩
    · have rejected (buf : Nat → UInt8) (agree : Agree d.cc d.buf buf) :
          verdict (ping4ParseReply p { d with buf := buf } tv now) = verdict (p, 1) := by
        unfold ping4ParseReply
        dsimp only
        rw [dgram, if_neg Bool.false_ne_true, if_pos, verdict_tooShort]
        by_cases short : d.cc < 28
        · omega
        · rw [← agree 0 (by omega)]
          omega
      exact iff_of_true (settled_of_const _ rejected) fun header room => absurd ⟨header, room⟩ whole

end Ping4

/-! ### The packets of ping6 -/

section Ping6

variable {digest : List UInt8 → Digest} {p : Ping} {d : Datagram} {hops : Int} {tv now : Timespec}

def nodeReply (digest : List UInt8 → Digest) (p : Ping) (d : Datagram) (hops : Int)
    (tv now : Timespec) : Ping × Nat :=
  match niqueryCheckNonce digest (bytes d.buf 8 8) with
  | none => (p, 1)
  | some seq => gatherReply p (replyAt p.st d seq hops false) tv now

theorem bytes_add (buf : Nat → UInt8) (i m n : Nat) :
    bytes buf i (m + n) = bytes buf i m ++ bytes buf (i + m) n := by
  unfold bytes
  rw [List.range_add, List.map_append, List.map_map]
  congr 1
  refine List.map_congr_left fun k _ => ?_
  simp only [Function.comp_apply, Nat.add_assoc]

theorem bytes_length (buf : Nat → UInt8) (i n : Nat) : (bytes buf i n).length = n := by
  simp only [bytes, List.length_map, List.length_range]

theorem bytes_eq_take {buf : Nat → UInt8} {i n : Nat} {l : List UInt8} (size : n ≤ l.length) :
    bytes buf i n = l.take n ↔ ∀ k < n, buf (i + k) = l.getD k 0 := by
  constructor
  · intro h k bound
    have same : (bytes buf i n)[k]? = (l.take n)[k]? := by rw [h]
    rw [List.getElem?_take_of_lt bound] at same
    rw [List.getD_eq_getElem?_getD, ← same]
    simp only [bytes, List.getElem?_map, List.getElem?_range bound, Option.map_some,
      Option.getD_some]
  · intro h
    refine List.ext_getElem (by rw [bytes_length, List.length_take_of_le size]) fun k b b' => ?_
    rw [bytes_length] at b
    simp only [bytes, List.getElem_map, List.getElem_range, List.getElem_take]
    rw [h k b, List.getD_eq_getElem?_getD, List.getElem?_eq_getElem (by omega), Option.getD_some]

/-- The six bytes that `niquery_check_nonce` compares. -/
def Genuine (digest : List UInt8 → Digest) (buf : Nat → UInt8) : Prop :=
  ∀ i < 6, buf (10 + i) = (digest (bytes buf 8 2)).1.getD i 0

theorem genuine_iff (digest : List UInt8 → Digest) (buf : Nat → UInt8) :
    (bytes buf 8 8).drop 2 = (digest ((bytes buf 8 8).take 2)).1.take (NI_NONCE_SIZE - 2) ↔
      Genuine digest buf := by
  have halves : bytes buf 8 8 = bytes buf 8 2 ++ bytes buf 10 6 := bytes_add buf 8 2 6
  have size := (digest (bytes buf 8 2)).2
  unfold MD5_DIGEST_LENGTH at size
  rw [halves, List.take_left' (bytes_length _ _ _), List.drop_left' (bytes_length _ _ _)]
  exact bytes_eq_take (by omega)

theorem nodeReply_genuine (genuine : Genuine digest d.buf) :
    nodeReply digest p d hops tv now =
      gatherReply p (replyAt p.st d (be16 d.buf 8) hops false) tv now := by
  unfold nodeReply niqueryCheckNonce
  rw [if_pos ((genuine_iff digest d.buf).mpr genuine)]
  rfl

theorem nodeReply_forged (forged : ¬ Genuine digest d.buf) :
    nodeReply digest p d hops tv now = (p, 1) := by
  unfold nodeReply niqueryCheckNonce
  rw [if_neg fun h => forged ((genuine_iff digest d.buf).mp h)]

/-- The rest of a nonce that continues it with the digest, each byte plus `delta`. -/
def completed (digest : List UInt8 → Digest) (d : Datagram) (delta : UInt8) (i : Nat) : UInt8 :=
  if i < 10 then d.buf i else (digest (bytes d.buf 8 2)).1.getD (i - 10) 0 + delta

theorem bytes_completed (delta : UInt8) :
    bytes (splice d.cc d.buf (completed digest d delta)) 8 2 = bytes d.buf 8 2 := by
  refine List.map_congr_left fun k bound => ?_
  have bound := List.mem_range.mp bound
  by_cases received : 8 + k < d.cc
  · rw [splice_of_lt received]
  · rw [splice_of_le (by omega), completed, if_pos (by omega)]

theorem genuine_completed (undecided : ¬ NonceDecided digest d) :
    Genuine digest (splice d.cc d.buf (completed digest d 0)) := by
  intro i bound
  rw [bytes_completed]
  by_cases received : 10 + i < d.cc
  · rw [splice_of_lt received]
    by_contra wrong
    exact undecided (.inr ⟨i, bound, received, wrong⟩)
  · rw [splice_of_le (by omega), completed, if_neg (by omega), Nat.add_sub_cancel_left,
      UInt8.add_zero]

theorem forged_completed (undecided : ¬ NonceDecided digest d) :
    ¬ Genuine digest (splice d.cc d.buf (completed digest d 1)) := by
  intro genuine
  have short : d.cc < 16 := by
    by_contra whole
    exact undecided (.inl (by omega))
  have last := genuine 5 (by omega)
  rw [bytes_completed, splice_of_le (by omega), completed, if_neg (by omega)] at last
  simp at last

theorem forged_of_received {i : Nat} {buf : Nat → UInt8} (agree : Agree d.cc d.buf buf)
    (bound : i < 6) (received : 10 + i < d.cc)
    (wrong : d.buf (10 + i) ≠ (digest (bytes d.buf 8 2)).1.getD i 0) : ¬ Genuine digest buf := by
  intro genuine
  have same := genuine i bound
  rw [bytes_agree agree (by omega), ← agree (10 + i) received] at same
  exact wrong same

theorem node_settled_iff : (Settled d.cc d.buf fun buf =>
    verdict (nodeReply digest p { d with buf := buf } hops tv now)) ↔ NonceDecided digest d := by
  constructor
  · intro h
    by_contra undecided
    have same := h _ _ (agree_splice d.cc d.buf (completed digest d 0))
      (agree_splice d.cc d.buf (completed digest d 1))
    dsimp only at same
    rw [nodeReply_genuine (genuine_completed undecided),
      nodeReply_forged (forged_completed undecided)] at same
    exact absurd (congrArg Verdict.value same) Nat.zero_ne_one
  · rintro (whole | ⟨i, bound, received, wrong⟩)
    · refine settled_of_eq fun buf agree => ?_
      by_cases genuine : Genuine digest d.buf
      · have genuine' : Genuine digest buf := by
          intro i bound
          rw [bytes_agree agree (by omega), ← agree (10 + i) (by omega)]
          exact genuine i bound
        rw [nodeReply_genuine (d := { d with buf := buf }) genuine', nodeReply_genuine genuine]
        exact gatherReply_agree agree fun _ => be16_agree agree (by omega)
      · have forged : ¬ Genuine digest buf := by
          intro genuine'
          refine genuine fun i bound => ?_
          rw [← bytes_agree agree (by omega), agree (10 + i) (by omega)]
          exact genuine' i bound
        rw [nodeReply_forged (d := { d with buf := buf }) forged, nodeReply_forged genuine]
    · refine settled_of_const (verdict (p, 1)) fun buf agree => ?_
      rw [nodeReply_forged (d := { d with buf := buf })
        (forged_of_received agree bound received wrong)]

theorem ping6Quoted_agree {buf : Nat → UInt8} (agree : Agree d.cc d.buf buf)
    (whole : ¬ (56 ≤ d.cc ∧ d.cc < 64 ∧ bytes d.buf 32 16 = p.whereto ∧ d.buf 14 = 44 ∧
      d.buf 48 = IPPROTO_ICMPV6)) :
    ping6Quoted p { d with buf := buf } = ping6Quoted p d := by
  unfold ping6Quoted
  dsimp only
  by_cases short : d.cc < 8 + 40 + 8
  · rw [if_pos short, if_pos short]
  rw [if_neg short, if_neg short, bytes_agree agree (by omega)]
  by_cases target : bytes d.buf 32 16 ≠ p.whereto
  · rw [if_pos target, if_pos target]
  rw [not_not] at target
  rw [if_neg (not_not.mpr target), if_neg (not_not.mpr target), be32_agree agree (by omega),
    ← agree 0 (by omega), ← agree 1 (by omega)]
  simp only [← agree 14 (by omega), ← agree 48 (by omega)]
  by_cases fragment : d.buf 14 = 44
  · simp only [if_pos fragment]
    by_cases icmp : d.buf 48 = IPPROTO_ICMPV6
    · have room : 64 ≤ d.cc := by
        by_contra cut
        exact whole ⟨by omega, by omega, target, fragment, icmp⟩
      rw [be16_agree agree (by omega), be16_agree agree (by omega)]
      simp only [← agree 56 (by omega)]
    · simp only [if_neg icmp]
  · simp only [if_neg fragment, ← agree 48 (by omega)]
    rw [be16_agree agree (by omega), be16_agree agree (by omega)]

/-- What `ping6_parse_reply` does for an error about one of its own probes. -/
def counted (p : Ping) (seq : UInt16) : Ping × Nat :=
  ({ p with st := acknowledge p.st seq, nerrors := p.nerrors + 1 }, 0)

theorem verdict_counted {seq : UInt16} (behind : ¬ Advances p.st seq) :
    verdict (counted p seq) = { verdict (p, 0) with nerrors := p.nerrors + 1 } := by
  have acked := acked_of_not_advances behind
  obtain ⟨_, _, eq⟩ := acknowledge_eq p.st seq
  unfold counted
  rw [eq] at acked ⊢
  unfold verdict
  dsimp only at acked ⊢
  rw [acked]

theorem verdict_endLine (p : Ping) (out : Output) (value : Nat) :
    verdict (endLine (p.print out), value) = verdict (p, value) := by
  obtain ⟨out', eq⟩ := endLine_eq (p.print out)
  rw [eq]
  rfl

/-- The rest of a buffer with the header of an ICMPv6 packet at 56. -/
def quoting (type : UInt8) (id seq : UInt16) (k : Nat) : UInt8 :=
  if k = 56 then type else if k < 62 then number 60 id k else number 62 seq k

theorem be16_quoting_id {id : UInt16} (possible : Possible d 60 id) (type : UInt8)
    (seq : UInt16) : be16 (splice d.cc d.buf (quoting type id seq)) 60 = id :=
  be16_splice possible rfl rfl

theorem be16_quoting_seq {seq : UInt16} (possible : Possible d 62 seq) (type : UInt8)
    (id : UInt16) : be16 (splice d.cc d.buf (quoting type id seq)) 62 = seq :=
  be16_splice possible rfl rfl

theorem request_quoting (h : ¬ (56 < d.cc ∧ d.buf 56 ≠ ICMP6_ECHO_REQUEST)) (id seq : UInt16) :
    splice d.cc d.buf (quoting ICMP6_ECHO_REQUEST id seq) 56 = ICMP6_ECHO_REQUEST := by
  by_cases received : 56 < d.cc
  · rw [splice_of_lt received]
    by_contra wrong
    exact h ⟨received, wrong⟩
  · rw [splice_of_le (by omega), quoting, if_pos rfl]

theorem ours_quoting (h : ¬ (p.dgram = false ∧ ¬ Possible d 60 p.ident)) (type : UInt8)
    (seq : UInt16) :
    isOurs p (be16 (splice d.cc d.buf (quoting type p.ident seq)) 60) = true := by
  cases dgram : p.dgram with
  | true => simp only [isOurs, dgram, Bool.true_or]
  | false =>
      have possible : Possible d 60 p.ident := by
        by_contra impossible
        exact h ⟨dgram, impossible⟩
      rw [be16_quoting_id possible]
      simp only [isOurs, decide_true, Bool.or_true]

/-! An ICMPv6 packet that is quoted behind a fragment header. -/

section Fragment

variable (room : 56 ≤ d.cc) (target : bytes d.buf 32 16 = p.whereto) (fragment : d.buf 14 = 44)
  (icmp : d.buf 48 = IPPROTO_ICMPV6)

include room target fragment icmp

theorem fragment_eq {buf : Nat → UInt8} (agree : Agree d.cc d.buf buf) :
    verdict (ping6Quoted p { d with buf := buf }) =
      verdict (if buf 56 ≠ ICMP6_ECHO_REQUEST ∨ ¬ isOurs p (be16 buf 60) then (p, 1)
        else counted p (be16 buf 62)) := by
  have header : buf 14 = 44 := (agree 14 (by omega)).symm.trans fragment
  have next : buf 48 = IPPROTO_ICMPV6 := (agree 48 (by omega)).symm.trans icmp
  unfold ping6Quoted
  dsimp only
  rw [if_neg (by omega), bytes_agree agree (by omega), if_neg (not_not.mpr target)]
  simp only [if_pos header, if_pos next]
  split_ifs
  · rfl
  · rfl
  · exact verdict_endLine _ _ _

theorem fragment_rejected {buf : Nat → UInt8} (agree : Agree d.cc d.buf buf)
    (h : ¬ (buf 56 = ICMP6_ECHO_REQUEST ∧ isOurs p (be16 buf 60) = true)) :
    verdict (ping6Quoted p { d with buf := buf }) = verdict (p, 1) := by
  rw [fragment_eq room target fragment icmp agree, if_pos (not_and_or.mp h)]

theorem fragment_counted {buf : Nat → UInt8} (agree : Agree d.cc d.buf buf)
    (request : buf 56 = ICMP6_ECHO_REQUEST) (ours : isOurs p (be16 buf 60) = true) :
    verdict (ping6Quoted p { d with buf := buf }) = verdict (counted p (be16 buf 62)) := by
  rw [fragment_eq room target fragment icmp agree, if_neg]
  rintro (h | h)
  · exact h request
  · exact h ours

theorem fragment_decided (cut : d.cc < 64)
    (h : Settled d.cc d.buf fun buf => verdict (ping6Quoted p { d with buf := buf })) :
    FragmentDecided p d := by
  by_cases other : 56 < d.cc ∧ d.buf 56 ≠ ICMP6_ECHO_REQUEST
  · exact .inl other
  by_cases foreign : p.dgram = false ∧ ¬ Possible d 60 p.ident
  · exact .inr (.inl foreign)
  -- some rest makes the packet an own echo request with any possible number
  have accepted (seq : UInt16) :=
    fragment_counted room target fragment icmp (agree_splice d.cc d.buf _)
      (request_quoting other p.ident seq) (ours_quoting foreign ICMP6_ECHO_REQUEST seq)
  have clash (rest : Nat → UInt8)
      (rejected : ¬ (splice d.cc d.buf rest 56 = ICMP6_ECHO_REQUEST ∧
        isOurs p (be16 (splice d.cc d.buf rest) 60) = true)) : False := by
    have same := h _ _ (agree_splice d.cc d.buf (quoting ICMP6_ECHO_REQUEST p.ident 0))
      (agree_splice d.cc d.buf rest)
    dsimp only at same
    rw [accepted, fragment_rejected room target fragment icmp (agree_splice _ _ _) rejected] at same
    exact absurd (congrArg Verdict.value same) Nat.zero_ne_one
  have received : 56 < d.cc := by
    by_contra unknown
    refine clash (fun _ => 0) fun both => ?_
    have type := both.1
    rw [splice_of_le (by omega)] at type
    exact absurd type (by decide)
  have identified : p.dgram = true ∨ 62 ≤ d.cc := by
    by_contra unknown
    rw [not_or, Bool.not_eq_true] at unknown
    obtain ⟨raw, short⟩ := unknown
    have possible : Possible d 60 p.ident := by
      by_contra impossible
      exact foreign ⟨raw, impossible⟩
    obtain ⟨id, differ, possible'⟩ := possible_other possible (by omega)
    refine clash (quoting ICMP6_ECHO_REQUEST id 0) fun both => ?_
    have same := both.2
    rw [be16_quoting_id possible'] at same
    simp only [isOurs, raw, Bool.false_or, decide_eq_true_eq] at same
    exact differ same.symm
  refine .inr (.inr ⟨received, identified, fun s possible => ?_⟩)
  obtain ⟨s', differ, possible'⟩ := possible_other possible (by omega)
  have same := h _ _ (agree_splice d.cc d.buf (quoting ICMP6_ECHO_REQUEST p.ident s))
    (agree_splice d.cc d.buf (quoting ICMP6_ECHO_REQUEST p.ident s'))
  dsimp only at same
  rw [accepted, accepted, be16_quoting_seq possible, be16_quoting_seq possible'] at same
  exact not_advances_of_acked differ (congrArg Verdict.acked same)

theorem fragment_settled (decided : FragmentDecided p d) :
    Settled d.cc d.buf fun buf => verdict (ping6Quoted p { d with buf := buf }) := by
  rcases decided with ⟨received, other⟩ | ⟨raw, foreign⟩ | ⟨received, identified, behind⟩
  · have rejected (buf : Nat → UInt8) (agree : Agree d.cc d.buf buf) :=
      fragment_rejected room target fragment icmp agree fun both =>
        other ((agree 56 received).trans both.1)
    exact settled_of_const _ rejected
  · have rejected (buf : Nat → UInt8) (agree : Agree d.cc d.buf buf) :=
      fragment_rejected room target fragment icmp agree fun both => by
        have same := both.2
        simp only [isOurs, raw, Bool.false_or, decide_eq_true_eq] at same
        exact foreign (same ▸ possible_be16 agree 60)
    exact settled_of_const _ rejected
  · have owned (buf : Nat → UInt8) (agree : Agree d.cc d.buf buf) :
        isOurs p (be16 buf 60) = isOurs p (be16 d.buf 60) := by
      rcases identified with dgram | whole
      · simp only [isOurs, dgram, Bool.true_or]
      · rw [be16_agree agree (by omega)]
    by_cases ours : d.buf 56 = ICMP6_ECHO_REQUEST ∧ isOurs p (be16 d.buf 60) = true
    · have accepted (buf : Nat → UInt8) (agree : Agree d.cc d.buf buf) :
          verdict (ping6Quoted p { d with buf := buf }) =
            { verdict (p, 0) with nerrors := p.nerrors + 1 } := by
        rw [fragment_counted room target fragment icmp agree
          ((agree 56 received).symm.trans ours.1) ((owned buf agree).trans ours.2)]
        exact verdict_counted (behind _ (possible_be16 agree 62))
      exact settled_of_const _ accepted
    · have rejected (buf : Nat → UInt8) (agree : Agree d.cc d.buf buf) :=
        fragment_rejected room target fragment icmp agree fun both =>
          ours ⟨(agree 56 received).trans both.1, (owned buf agree).symm.trans both.2⟩
      exact settled_of_const _ rejected

end Fragment

theorem quoted_settled_iff : (Settled d.cc d.buf fun buf =>
    verdict (ping6Quoted p { d with buf := buf })) ↔ QuotedDecided p d := by
  by_cases cut : 56 ≤ d.cc ∧ d.cc < 64 ∧ bytes d.buf 32 16 = p.whereto ∧ d.buf 14 = 44 ∧
      d.buf 48 = IPPROTO_ICMPV6
  · obtain ⟨room, short, target, fragment, icmp⟩ := cut
    constructor
    · exact fun h _ _ _ _ _ => fragment_decided room target fragment icmp short h
    · exact fun h => fragment_settled room target fragment icmp (h room short target fragment icmp)
  · refine iff_of_true (settled_of_eq fun buf agree => ?_) fun room short target fragment icmp =>
      absurd ⟨room, short, target, fragment, icmp⟩ cut
    exact congrArg verdict (ping6Quoted_agree agree cut)

theorem ping6_receivedOnly_iff :
    ReceivedOnly (fun d => ping6ParseReply (niqueryCheckNonce digest) p d tv now) d ↔
      Ping6Decided digest p d := by
  rw [receivedOnly_iff]
  by_cases short : d.cc < 8
  · have rejected (buf : Nat → UInt8) :
        verdict (ping6ParseReply (niqueryCheckNonce digest) p { d with buf := buf } tv now) =
          verdict (p, 1) := by
      unfold ping6ParseReply
      dsimp only
      rw [if_pos short]
      exact verdict_tooShort p d.cc
    exact iff_of_true (settled_of_const _ fun buf _ => rejected buf) fun long => by omega
  have type (buf : Nat → UInt8) (agree : Agree d.cc d.buf buf) : buf 0 = d.buf 0 :=
    (agree 0 (by omega)).symm
  unfold Ping6Decided
  by_cases echo : d.buf 0 = ICMP6_ECHO_REPLY
  · have branch (buf : Nat → UInt8) (agree : Agree d.cc d.buf buf) :
        verdict (ping6ParseReply (niqueryCheckNonce digest) p { d with buf := buf } tv now) =
          verdict (echoReply p { d with buf := buf } (d.hops.getD (-1)) false tv now) := by
      unfold ping6ParseReply
      dsimp only
      rw [if_neg short, if_pos ((type buf agree).trans echo)]
      rfl
    rw [settled_congr branch, echo_settled_iff fun buf agree => by
      rw [be16_agree agree (by omega)]]
    simp only [if_pos echo]
    exact ⟨fun h _ ours => (h ours).1, fun h ours => ⟨h (by omega) ours, .inl (by omega)⟩⟩
  by_cases node : d.buf 0 = ICMPV6_NI_REPLY
  · have branch (buf : Nat → UInt8) (agree : Agree d.cc d.buf buf) :
        verdict (ping6ParseReply (niqueryCheckNonce digest) p { d with buf := buf } tv now) =
          verdict (nodeReply digest p { d with buf := buf } (d.hops.getD (-1)) tv now) := by
      unfold ping6ParseReply
      dsimp only
      rw [if_neg short, if_neg fun h => echo ((type buf agree).symm.trans h),
        if_pos ((type buf agree).trans node)]
      rfl
    rw [settled_congr branch, node_settled_iff]
    simp only [if_neg echo, if_pos node]
    exact ⟨fun h _ => h, fun h => h (by omega)⟩
  · have branch (buf : Nat → UInt8) (agree : Agree d.cc d.buf buf) :
        verdict (ping6ParseReply (niqueryCheckNonce digest) p { d with buf := buf } tv now) =
          verdict (ping6Quoted p { d with buf := buf }) := by
      unfold ping6ParseReply
      dsimp only
      rw [if_neg short, if_neg fun h => echo ((type buf agree).symm.trans h),
        if_neg fun h => node ((type buf agree).symm.trans h)]
    rw [settled_congr branch, quoted_settled_iff]
    simp only [if_neg echo, if_neg node]
    exact ⟨fun h _ => h, fun h => h (by omega)⟩

end Ping6

/-! ### The verdict on a packet -/

/-- The bytes behind the received ones are without effect exactly under the two
conditions, for every packet and in every state. -/
theorem receivedOnly_iff_decided (digest : List UInt8 → Digest) (p : Ping) (d : Datagram)
    (tv now : Timespec) :
    (ReceivedOnly (fun d => ping4ParseReply p d tv now) d ↔ Ping4Decided p d) ∧
      (ReceivedOnly (fun d => ping6ParseReply (niqueryCheckNonce digest) p d tv now) d ↔
        Ping6Decided digest p d) :=
  ⟨ping4_receivedOnly_iff, ping6_receivedOnly_iff⟩

/-- The two headers of an echo reply with the identifier 4660 and the number 1; of the
56 bytes of its payload none was received. -/
def truncatedReply : Datagram where
  buf := fun i => ([0x45, 0, 0, 28, 0, 0, 0, 0, 64, 1, 0, 0, 127, 0, 0, 1, 127, 0, 0, 1,
    0, 0, 0, 0, 0x12, 0x34, 0, 1] : List UInt8).getD i 0
  cc := 28
  hops := none

def truncatedReply6 : Datagram where
  buf := fun i => ([129, 0, 0, 0, 0x12, 0x34, 0, 1] : List UInt8).getD i 0
  cc := 8
  hops := none

/-- The reply is rejected with zeros behind it and accepted with the payload that an
earlier reply left there. -/
theorem truncatedReply_depends :
    ¬ ReceivedOnly (fun d => ping4ParseReply initialPing d ⟨1, 0⟩ ⟨1, 0⟩) truncatedReply ∧
      ¬ ReceivedOnly (fun d => ping6ParseReply
        (niqueryCheckNonce fun _ => ⟨List.replicate 16 0, rfl⟩) initialPing d ⟨1, 0⟩ ⟨1, 0⟩)
        truncatedReply6 := by
  constructor
  · intro h
    have same := congrArg Verdict.value (h truncatedReply.buf
      (splice 28 truncatedReply.buf fun i => initialState.outpack.getD (i - 44) 0)
      (Agree.refl _ _) (agree_splice _ _ _))
    exact absurd same (by decide +kernel)
  · intro h
    have same := congrArg Verdict.value (h truncatedReply6.buf
      (splice 8 truncatedReply6.buf (sent initialState)) (Agree.refl _ _) (agree_splice _ _ _))
    exact absurd same (by decide +kernel)

end Baseliner.PingReceivedOnly
