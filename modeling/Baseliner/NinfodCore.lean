import Baseliner.NinfodName

/-! `pr_nodeinfo`: a query is checked, answered and sent. The subject check may fill
the reply before the policy is asked; a querier that is not local is refused. -/

namespace Baseliner.Ninfod

open ByteOrder

/-- What a host answers from: its name and its address lists, `none` where they
cannot be read. -/
structure Host where
  utsNodename : List UInt8
  ifaddrs6 : Option (List (NiIfaddrs In6Addr))
  ifaddrs4 : Option (List (NiIfaddrs UInt32))

/-- What the system answers while one query is handled: rounds of the name
comparison, allocations during the check and during the filling of the reply,
`gettimeofday` in microseconds, `rand`, and whether a sender can be started and
`sendmsg` succeeds. -/
structure Answers where
  fuel : Nat
  checkHeap : Heap
  fillHeap : Heap
  now : Option Int
  randomDelay : Nat
  starts : Bool
  sends : Bool

inductive Handler
  | noop
  | suptypes
  | nodename
  | ipv6addr
  | ipv4addr
  | unknown
  | refused
  deriving DecidableEq, Repr

def prNodeinfoNoop (p : PacketContext) (subjlen : Nat) (flags : UInt32) (subjIf : Option Nat)
    (reply : Bool) : Checked :=
  if subjlen ≠ 0 then ⟨1, p, subjIf⟩
  else
    let p := if reply then
        { p with reply := { p.reply with
            niType := ICMP6_NI_REPLY, niCode := ICMP6_NI_SUCCESS, niCksum := 0,
            niQtype := ntohs NI_QTYPE_NOOP, niFlags := flags.toUInt16 } }
      else p
    ⟨0, p, subjIf.map fun _ => 0⟩

def supportedQtypes (enableSuptypes : Bool) : List UInt16 :=
  [NI_QTYPE_NOOP] ++ (if enableSuptypes then [NI_QTYPE_SUPTYPES] else []) ++
    [NI_QTYPE_DNSNAME, NI_QTYPE_NODEADDR, NI_QTYPE_IPV4ADDR]

def suptypes (enableSuptypes : Bool) : UInt32 :=
  (supportedQtypes enableSuptypes).foldl (fun w q => w ||| (1 : UInt32) <<< q.toUInt32) 0

def prNodeinfoSuptypes (enableSuptypes : Bool) (heap : Heap) (p : PacketContext) (subjlen : Nat)
    (flags : UInt32) (subjIf : Option Nat) (reply : Bool) : Checked :=
  if subjlen ≠ 0 then ⟨1, p, subjIf⟩
  else if reply then
    let filled := { p.reply with
      niType := ICMP6_NI_REPLY, niCode := ICMP6_NI_SUCCESS, niCksum := 0,
      niQtype := ntohs NI_QTYPE_SUPTYPES,
      niFlags := (flags &&& ~~~NI_SUPTYPE_FLAG_COMPRESS).toUInt16 }
    match heap.block 4 with
    | none => ⟨-1, { p with reply := filled, replydatalen := -1, replydata := none }, subjIf⟩
    | some block =>
        ⟨0, { p with
            reply := filled
            replydatalen := 4
            replydata := some (blit block 0 (storedLong (suptypes enableSuptypes))) }, subjIf⟩
  else ⟨0, p, subjIf⟩

def prNodeinfoEmpty (code : UInt8) (p : PacketContext) (flags : UInt32) (subjIf : Option Nat)
    (reply : Bool) : Checked :=
  if reply then
    ⟨0, { p with
        reply := { p.reply with
          niType := ICMP6_NI_REPLY, niCode := code, niCksum := 0, niFlags := flags.toUInt16 }
        replydata := none
        replydatalen := 0 }, subjIf⟩
  else ⟨-1, p, subjIf⟩

def prNodeinfoUnknown := prNodeinfoEmpty ICMP6_NI_UNKNOWN
def prNodeinfoRefused := prNodeinfoEmpty ICMP6_NI_REFUSED

/-- A call through the table; `none` when it does not return. -/
def Handler.call (enableSuptypes : Bool) (host : Host) (fuel : Nat) (heap : Heap)
    (p : PacketContext) (subject : Option Memory) (subjlen : Nat) (flags : UInt32)
    (subjIf : Option Nat) (reply : Bool) : Handler → Option Checked
  | .noop => some (prNodeinfoNoop p subjlen flags subjIf reply)
  | .suptypes => some (prNodeinfoSuptypes enableSuptypes heap p subjlen flags subjIf reply)
  | .nodename => prNodeinfoNodename fuel (Ninfod.nodename host.utsNodename) heap p subject subjlen
      flags subjIf reply
  | .ipv6addr => some (prNodeinfoIpv6addr host.ifaddrs6 heap p subject subjlen flags subjIf reply)
  | .ipv4addr => some (prNodeinfoIpv4addr host.ifaddrs4 heap p subject subjlen flags subjIf reply)
  | .unknown => some (prNodeinfoUnknown p flags subjIf reply)
  | .refused => some (prNodeinfoRefused p flags subjIf reply)

def subjinfoLookup (code : UInt8) : Option Handler :=
  if code = ICMP6_NI_SUBJ_IPV6 then some .ipv6addr
  else if code = ICMP6_NI_SUBJ_FQDN then some .nodename
  else if code = ICMP6_NI_SUBJ_IPV4 then some .ipv4addr
  else none

structure Qtypeinfo where
  getreply : Handler
  ratelimit : Bool
  deriving DecidableEq, Repr

def qtypeinfoLookup (enableSuptypes : Bool) (qtype : UInt16) : Qtypeinfo :=
  if qtype = NI_QTYPE_NOOP then ⟨.noop, false⟩
  else if qtype = NI_QTYPE_SUPTYPES ∧ enableSuptypes then ⟨.suptypes, false⟩
  else if qtype = NI_QTYPE_DNSNAME then ⟨.nodename, false⟩
  else if qtype = NI_QTYPE_NODEADDR then ⟨.ipv6addr, false⟩
  else if qtype = NI_QTYPE_IPV4ADDR then ⟨.ipv4addr, false⟩
  else ⟨.unknown, true⟩

/-- Positive to reply, zero to refuse, negative to discard. -/
def niPolicy (p : PacketContext) : Int :=
  if ¬ (p.addr.isLinklocal ∨ p.addr.isSitelocal ∨ p.addr.isLoopback) then 0 else 1

/-- `ni_ratelimit` with its static `last`: whether to drop, and the new `last`. -/
def niRatelimit (now : Option Int) (last : Int) : Bool × Int :=
  match now with
  | none => (true, last)
  | some tv =>
      if last = 0 then (false, tv)
      else if (tv - last) / 1000000 < 1 then (true, last)
      else (false, tv)

def PacketContext.queryHeader (p : PacketContext) : Nodeinfo where
  niType := p.query 0
  niCode := p.query 1
  niCksum := load16 p.query 2
  niQtype := load16 p.query 4
  niFlags := load16 p.query 6
  niNonce := (List.range 8).map fun k : Nat => p.query (8 + k)

/-- Steps 0 to 3: the length of the subject, the function that checks it and the
entry of the Qtype; `none` for a query that is discarded. -/
def screenQuery (enableSuptypes : Bool) (p : PacketContext) :
    Option (Nat × Handler × Qtypeinfo) :=
  if p.pktinfo.ipi6Addr.isMulticast ∧ ¬ p.pktinfo.ipi6Addr.isMcLinklocal then none
  else if p.querylen < NODEINFO_SIZE then none
  else
    let query := p.queryHeader
    let subjlen := p.querylen - NODEINFO_SIZE
    let qtype := ntohs query.niQtype
    let qtypeinfo := qtypeinfoLookup enableSuptypes qtype
    if qtype = NI_QTYPE_NOOP ∨ qtype = NI_QTYPE_SUPTYPES then
      some (if query.niCode ≠ ICMP6_NI_SUBJ_FQDN then 0 else subjlen, .noop, qtypeinfo)
    else match subjinfoLookup query.niCode with
      | none => none
      | some checksubj => some (subjlen, checksubj, qtypeinfo)

def answer (enableSuptypes : Bool) (host : Host) (a : Answers) (p : PacketContext) (subjlen : Nat)
    (checksubj : Handler) (qtypeinfo : Qtypeinfo) : Option (PacketContext × Bool) :=
  let flags := p.queryHeader.niFlags.toUInt32
  let subject : Memory := fun i => p.query (NODEINFO_SIZE + i)
  let replyonsubjcheck : Bool := qtypeinfo.getreply = checksubj
  match checksubj.call enableSuptypes host a.fuel a.checkHeap p (some subject) subjlen flags
      (if replyonsubjcheck then none else some 0) replyonsubjcheck with
  | none => none
  | some checked =>
      if checked.rc ≠ 0 then none
      else
        let rc := niPolicy checked.p
        if rc < 0 then none
        else
          let cleared := { checked.p with replydata := none, replydatalen := 0 }
          let p := if rc = 0 then cleared else checked.p
          let replyonsubjcheck := if rc = 0 then false else replyonsubjcheck
          let qtypeinfo := if rc = 0 then ⟨.refused, true⟩ else qtypeinfo
          if replyonsubjcheck then some (p, qtypeinfo.ratelimit)
          else
            match qtypeinfo.getreply.call enableSuptypes host a.fuel a.fillHeap p none 0 flags
                checked.subjIf true with
            | none => none
            | some filled => if filled.rc ≠ 0 then none else some (filled.p, qtypeinfo.ratelimit)

/-- `ni_send`: the bytes that are handed to `sendmsg`. -/
def niSend (p : PacketContext) : List UInt8 :=
  p.reply.bytes ++ match p.replydata with
    | none => []
    | some data => data.take p.replydatalen.toNat

def prNodeinfo (enableSuptypes : Bool) (host : Host) (a : Answers) (last : Int)
    (p : PacketContext) : Int × Option (List UInt8) :=
  match screenQuery enableSuptypes p with
  | none => (last, none)
  | some (subjlen, checksubj, qtypeinfo) =>
      match answer enableSuptypes host a p subjlen checksubj qtypeinfo with
      | none => (last, none)
      | some (filled, limited) =>
          let (drop, last) := if limited then niRatelimit a.now last else (false, last)
          if drop then (last, none)
          else
            let query := filled.queryHeader
            let named := { filled with reply := { filled.reply with
              niQtype := query.niQtype, niNonce := query.niNonce } }
            let sent := if named.pktinfo.ipi6Addr.isMulticast then
                { named with
                  pktinfo := { named.pktinfo with ipi6Addr := ⟨0, 0, 0, 0⟩ }
                  delay := a.randomDelay }
              else { named with delay := 0 }
            (last, if a.starts ∧ a.sends then some (niSend sent) else none)

def PacketContext.received (p : PacketContext) : In6Addr × Pktinfo × Memory × Nat :=
  (p.addr, p.pktinfo, p.query, p.querylen)

section Frame

variable (heap : Heap) (p : PacketContext) (subject : Option Memory) (subjlen : Nat)
  (flags : UInt32) (subjIf : Option Nat) (reply : Bool)

theorem received_noop : (prNodeinfoNoop p subjlen flags subjIf reply).p.received = p.received := by
  unfold prNodeinfoNoop
  split_ifs <;> rfl

theorem received_suptypes (enableSuptypes : Bool) :
    (prNodeinfoSuptypes enableSuptypes heap p subjlen flags subjIf reply).p.received =
      p.received := by
  unfold prNodeinfoSuptypes
  split_ifs
  · rfl
  · cases heap.block 4 <;> rfl
  · rfl

theorem received_empty (code : UInt8) :
    (prNodeinfoEmpty code p flags subjIf reply).p.received = p.received := by
  unfold prNodeinfoEmpty
  split_ifs <;> rfl

theorem received_ipv6addr (ifaddrs : Option (List (NiIfaddrs In6Addr))) :
    (prNodeinfoIpv6addr ifaddrs heap p subject subjlen flags subjIf reply).p.received =
      p.received := by
  unfold prNodeinfoIpv6addr
  cases ifaddrs with
  | none => split_ifs <;> rfl
  | some ifa0 => dsimp only; split_ifs <;> rfl

theorem received_ipv4addr (ifaddrs : Option (List (NiIfaddrs UInt32))) :
    (prNodeinfoIpv4addr ifaddrs heap p subject subjlen flags subjIf reply).p.received =
      p.received := by
  unfold prNodeinfoIpv4addr
  cases ifaddrs with
  | none => split_ifs <;> rfl
  | some ifa0 => dsimp only; split_ifs <;> rfl

theorem received_nodename {fuel : Nat} {nodename : List UInt8} {c : Checked}
    (h : prNodeinfoNodename fuel nodename heap p subject subjlen flags subjIf reply = some c) :
    c.p.received = p.received := by
  unfold prNodeinfoNodename at h
  cases reply <;> grind [PacketContext.received]

theorem Handler.received_call {enableSuptypes : Bool} {host : Host} {fuel : Nat}
    {handler : Handler} {c : Checked}
    (h : handler.call enableSuptypes host fuel heap p subject subjlen flags subjIf reply = some c) :
    c.p.received = p.received := by
  cases handler with
  | nodename => exact received_nodename heap p subject subjlen flags subjIf reply h
  | noop => exact Option.some.inj h ▸ received_noop p subjlen flags subjIf reply
  | suptypes =>
      exact Option.some.inj h ▸ received_suptypes heap p subjlen flags subjIf reply enableSuptypes
  | ipv6addr =>
      exact Option.some.inj h ▸ received_ipv6addr heap p subject subjlen flags subjIf reply _
  | ipv4addr =>
      exact Option.some.inj h ▸ received_ipv4addr heap p subject subjlen flags subjIf reply _
  | unknown => exact Option.some.inj h ▸ received_empty p flags subjIf reply ICMP6_NI_UNKNOWN
  | refused => exact Option.some.inj h ▸ received_empty p flags subjIf reply ICMP6_NI_REFUSED

end Frame

/-- A source that is neither link-local, site-local nor loopback. -/
def PacketContext.NotLocal (p : PacketContext) : Prop :=
  p.addr.isLinklocal = false ∧ p.addr.isSitelocal = false ∧ p.addr.isLoopback = false

def refusal (query : Nodeinfo) : Nodeinfo :=
  ⟨ICMP6_NI_REPLY, ICMP6_NI_REFUSED, 0, query.niQtype, query.niFlags, query.niNonce⟩

theorem length_refusal (p : PacketContext) :
    (refusal p.queryHeader).bytes.length = NODEINFO_SIZE := by
  simp [refusal, Nodeinfo.bytes, PacketContext.queryHeader, NODEINFO_SIZE]

theorem queryHeader_eq_of_received {p q : PacketContext} (h : p.received = q.received) :
    p.queryHeader = q.queryHeader := by
  have same : p.query = q.query := congrArg (fun r => r.2.2.1) h
  simp only [PacketContext.queryHeader, same]

theorem queryHeader_congr {p q : PacketContext}
    (byte : ∀ i : Nat, i < NODEINFO_SIZE → p.query i = q.query i) :
    p.queryHeader = q.queryHeader := by
  have load (i : Nat) (h : i + 1 < NODEINFO_SIZE) : load16 p.query i = load16 q.query i := by
    have next : p.query ((i : Int) + 1) = q.query ((i : Int) + 1) := byte (i + 1) h
    rw [load16, load16, byte i (by omega), next]
  have nonce : (List.range 8).map (fun k : Nat => p.query (8 + k)) =
      (List.range 8).map fun k : Nat => q.query (8 + k) := by
    refine List.map_congr_left ?_
    intro k hk
    have small := List.mem_range.mp hk
    have at_ := byte (8 + k) (by simp only [NODEINFO_SIZE]; omega)
    rwa [Int.natCast_add] at at_
  have type : p.query 0 = q.query 0 := byte 0 (by decide)
  have code : p.query 1 = q.query 1 := byte 1 (by decide)
  have cksum : load16 p.query 2 = load16 q.query 2 := load 2 (by decide)
  have qtype : load16 p.query 4 = load16 q.query 4 := load 4 (by decide)
  have flags : load16 p.query 6 = load16 q.query 6 := load 6 (by decide)
  simp only [PacketContext.queryHeader, type, code, cksum, qtype, flags, nonce]

theorem niPolicy_of_not_local {p q : PacketContext} (h : p.NotLocal)
    (same : q.received = p.received) :
    niPolicy q = 0 := by
  have addr : q.addr = p.addr := congrArg Prod.fst same
  simp [niPolicy, addr, h.1, h.2.1, h.2.2]

theorem answer_not_local {enableSuptypes : Bool} {host : Host} {a : Answers} {p q : PacketContext}
    {subjlen : Nat} {checksubj : Handler} {qtypeinfo : Qtypeinfo} {limited : Bool}
    (away : p.NotLocal)
    (h : answer enableSuptypes host a p subjlen checksubj qtypeinfo = some (q, limited)) :
    limited = true ∧ q.received = p.received ∧ q.replydata = none ∧
      { q.reply with niQtype := p.queryHeader.niQtype, niNonce := p.queryHeader.niNonce } =
        refusal p.queryHeader := by
  unfold answer at h
  dsimp only at h
  split at h
  · cases h
  next checked call =>
    have same := Handler.received_call _ _ _ _ _ _ _ call
    rw [niPolicy_of_not_local away same] at h
    simp only [ne_eq, if_false, if_true, Bool.false_eq_true, Handler.call,
      prNodeinfoRefused, prNodeinfoEmpty, not_true_eq_false] at h
    split_ifs at h
    simp only [Option.some.injEq, Prod.mk.injEq] at h
    obtain ⟨rfl, rfl⟩ := h
    refine ⟨rfl, same, rfl, ?_⟩
    simp [refusal]

theorem prNodeinfo_not_local {enableSuptypes : Bool} {host : Host} {a : Answers} {last : Int}
    {p : PacketContext} {bytes : List UInt8} (away : p.NotLocal)
    (h : (prNodeinfo enableSuptypes host a last p).2 = some bytes) :
    NODEINFO_SIZE ≤ p.querylen ∧ bytes = (refusal p.queryHeader).bytes := by
  unfold prNodeinfo at h
  split at h
  · cases h
  next subjlen checksubj qtypeinfo admitted =>
    have long : NODEINFO_SIZE ≤ p.querylen := by
      unfold screenQuery at admitted
      split_ifs at admitted with _ short
      all_goals exact Nat.not_lt.mp short
    refine ⟨long, ?_⟩
    split at h
    · cases h
    next filled limited answered =>
      obtain ⟨rfl, same, empty, reply⟩ := answer_not_local away answered
      have header := queryHeader_eq_of_received same
      dsimp only at h
      split_ifs at h
      all_goals
        simp only [niSend, empty, List.append_nil, Option.some.injEq] at h
        rw [← h, header, reply]

/-- A querier that is not local gets no reply or a bare refusal, and all hosts that
answer its query send the same bytes. -/
theorem not_local_query_refused (enableSuptypes : Bool) :
    (∀ (host : Host) (a : Answers) (last : Int) (p : PacketContext), p.NotLocal →
      (prNodeinfo enableSuptypes host a last p).2 = none ∨
      ∃ bytes, (prNodeinfo enableSuptypes host a last p).2 = some bytes ∧
        bytes[1]? = some ICMP6_NI_REFUSED ∧ bytes.drop NODEINFO_SIZE = []) ∧
    (∀ (host host' : Host) (a a' : Answers) (last last' : Int) (p p' : PacketContext)
      (bytes bytes' : List UInt8), p.NotLocal → p'.NotLocal → p.querylen = p'.querylen →
      (∀ i : Nat, i < p.querylen → p.query i = p'.query i) →
      (prNodeinfo enableSuptypes host a last p).2 = some bytes →
      (prNodeinfo enableSuptypes host' a' last' p').2 = some bytes' → bytes = bytes') := by
  constructor
  · intro host a last p away
    cases sent : (prNodeinfo enableSuptypes host a last p).2 with
    | none => exact .inl rfl
    | some bytes =>
        obtain ⟨-, rfl⟩ := prNodeinfo_not_local away sent
        refine .inr ⟨_, rfl, rfl, ?_⟩
        rw [← length_refusal p, List.drop_length]
  · intro host host' a a' last last' p p' bytes bytes' away away' _ query sent sent'
    obtain ⟨long, rfl⟩ := prNodeinfo_not_local away sent
    obtain ⟨-, rfl⟩ := prNodeinfo_not_local away' sent'
    have header : p.queryHeader = p'.queryHeader :=
      queryHeader_congr fun i h => query i (lt_of_lt_of_le h long)
    rw [header]

theorem two_hosts_same_refusal :
    let query : List UInt8 := [139, 0, 0, 0, 0, 2, 0, 0, 1, 2, 3, 4, 5, 6, 7, 8] ++
      (⟨0xff020000, 0, 0, 1⟩ : In6Addr).bytes
    let p : PacketContext :=
      ⟨⟨0x20010db8, 0, 0, 9⟩, ⟨⟨0xff020000, 0, 0, 1⟩, 1⟩, memoryOf query, 32,
        ⟨0, 0, 0, 0, 0, []⟩, none, 0, 0⟩
    let first : Host := ⟨[0x61], some [⟨1, 0, some ⟨0x20010db8, 0, 0, 1⟩⟩], some []⟩
    let second : Host := ⟨[0x62, 0x63], some [⟨1, 0, some ⟨0x20010db8, 0, 0, 2⟩⟩], none⟩
    let a : Answers := ⟨10, none, none, some 1, 0, true, true⟩
    ((prNodeinfo true first a 0 p).2 = none ∨
      ∃ bytes, (prNodeinfo true first a 0 p).2 = some bytes ∧
        bytes[1]? = some ICMP6_NI_REFUSED ∧ bytes.drop NODEINFO_SIZE = []) ∧
    ∃ bytes, (prNodeinfo true first a 0 p).2 = some bytes ∧
      (prNodeinfo true second a 0 p).2 = some bytes := by
  intro query p first second a
  have away : p.NotLocal := ⟨by decide, by decide, by decide⟩
  refine ⟨(not_local_query_refused true).1 first a 0 p away, ?_⟩
  have answered : (prNodeinfo true first a 0 p).2.isSome = true := by decide +kernel
  have answered' : (prNodeinfo true second a 0 p).2.isSome = true := by decide +kernel
  obtain ⟨bytes, sent⟩ := Option.isSome_iff_exists.mp answered
  obtain ⟨bytes', sent'⟩ := Option.isSome_iff_exists.mp answered'
  have same := (not_local_query_refused true).2 first second a a 0 0 p p bytes bytes' away away rfl
    (fun _ _ => rfl) sent sent'
  exact ⟨bytes, sent, same ▸ sent'⟩

end Baseliner.Ninfod
