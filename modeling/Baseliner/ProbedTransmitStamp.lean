import Mathlib.Data.List.Basic
import Mathlib.Tactic.IntervalCases
import Baseliner.GuardedRuns
import Baseliner.ProbedClient

/-! Transmit timestamps of SLANG-probed: `tstamp_extract`, `recv_w_ts`,
`tstamp_fetch_tx` and `send_w_ts` on the UDP socket.

The two queues of the socket are lists of messages. Clock readings, the results
of `sendto` and `select`, and what reaches the queues and when, are inputs. A
message on the error queue is the copy of one sent datagram, looped back with
that datagram's transmit timestamp. A wait whose inputs end before it does is
still going on. -/

namespace Baseliner.ProbedTransmitStamp
open GuardedRuns ProbedTime
open ProbedClient (Addr DATALEN)

inductive Tsmode
  | hardware | kernel | userland
  deriving DecidableEq, Repr

structure ScmTimestamping where
  systime : Ts
  hwtimesys : Ts
  hwtimeraw : Ts
  deriving DecidableEq, Repr

def ScmTimestamping.pick (mode : Tsmode) (t : ScmTimestamping) : Ts :=
  if mode = .hardware then t.hwtimeraw else t.systime

inductive Cmsg
  | timestamping (t : ScmTimestamping)
  | timestampns (t : Ts)
  | recverr (eeOrigin : UInt8)
  | ipTos (v : Int)
  | ipv6Tclass (v : Int)
  | other
  deriving DecidableEq, Repr

def SO_EE_ORIGIN_TIMESTAMPING : UInt8 := 4

def extractLoop (mode : Tsmode) (tx : Bool) : List Cmsg → Nat → Ts → Ts × Bool
  | [], _, ts => (ts, false)
  | .timestamping t :: rest, ok, ts =>
      if mode = .userland then extractLoop mode tx rest ok ts
      else if tx = false then (t.pick mode, true)
      else if ok ||| 1 = 3 then (t.pick mode, true)
      else extractLoop mode tx rest (ok ||| 1) (t.pick mode)
  | .timestampns t :: rest, ok, ts =>
      if mode = .userland then (t, true) else extractLoop mode tx rest ok ts
  | .recverr eeOrigin :: rest, ok, ts =>
      if tx = true ∧ eeOrigin = SO_EE_ORIGIN_TIMESTAMPING then
        if ok ||| 2 = 3 then (ts, true) else extractLoop mode tx rest (ok ||| 2) ts
      else extractLoop mode tx rest ok ts
  | _ :: rest, ok, ts => extractLoop mode tx rest ok ts

def tstampExtract (mode : Tsmode) (tx : Bool) (control : List Cmsg) : Ts × Bool :=
  extractLoop mode tx control 0 .zero

def dscpExtract : List Cmsg → UInt8
  | [] => 0
  | .ipTos v :: _ => UInt8.ofInt v >>> 2
  | .ipv6Tclass v :: _ => UInt8.ofInt v >>> 2
  | _ :: rest => dscpExtract rest

structure Message where
  addr : Addr
  data : List UInt8
  control : List Cmsg
  deriving DecidableEq

structure Pkt where
  addr : Addr
  dscp : UInt8
  data : List UInt8
  ts : Ts
  deriving DecidableEq

/-- A datagram looped back with its transmit timestamp, as `SO_TIMESTAMPING`
puts it on the error queue; `stamps` gives the timestamp of each datagram. -/
structure Looped (stamps : Nat → ScmTimestamping) where
  datagram : Nat
  message : Message
  whole : DATALEN ≤ message.data.length
  stamped : .timestamping (stamps datagram) ∈ message.control
  alone : ∀ t, .timestamping t ∈ message.control → t = stamps datagram
  origin : .recverr SO_EE_ORIGIN_TIMESTAMPING ∈ message.control

structure Socket (stamps : Nat → ScmTimestamping) where
  sent : Nat := 0
  errQueue : List (Looped stamps) := []
  rcvQueue : List Message := []

variable {stamps : Nat → ScmTimestamping}

/-- `recv_w_ts` with `MSG_ERRQUEUE`. The data goes to a buffer of its own, so
the packet's stays zero; its DSCP is not set and nothing reads it. -/
def recvWTsErr (mode : Tsmode) (s : Socket stamps) : Socket stamps × Option Pkt :=
  match s.errQueue with
  | [] => (s, none)
  | m :: rest =>
      let s := { s with errQueue := rest }
      if min m.message.data.length DATALEN ≠ DATALEN then (s, none)
      else match tstampExtract mode true m.message.control with
        | (_, false) => (s, none)
        | (ts, true) => (s, some ⟨m.message.addr, 0, List.replicate DATALEN 0, ts⟩)

def recvWTs (mode : Tsmode) (s : Socket stamps) : Socket stamps × Option Pkt :=
  match s.rcvQueue with
  | [] => (s, none)
  | m :: rest =>
      let s := { s with rcvQueue := rest }
      if min m.data.length DATALEN ≠ DATALEN then (s, none)
      else (s, some ⟨m.addr, dscpExtract m.control, m.data.take DATALEN,
        (tstampExtract mode false m.control).1⟩)

/-- One pass of the waiting loop: what reaches the error queue before `select`
returns, whether its result is positive, and the time since the start of the
wait in microseconds, read at the end of the pass. -/
structure Poll (stamps : Nat → ScmTimestamping) where
  arrivals : List (Looped stamps)
  select : Bool
  elapsed : Int

inductive Fetch
  | waiting
  | failed
  | ok (ts : Ts)
  deriving DecidableEq, Repr

def fetchLoop (mode : Tsmode) : List (Poll stamps) → Int → Socket stamps → Socket stamps × Fetch
  | [], tmp, s => (s, if tmp < 10000 then .waiting else .failed)
  | p :: ps, tmp, s =>
      if tmp < 10000 then
        let s := { s with errQueue := s.errQueue ++ p.arrivals }
        if p.select then
          match recvWTsErr mode s with
          | (s, some pkt) => (s, .ok pkt.ts)
          | (s, none) => fetchLoop mode ps p.elapsed s
        else fetchLoop mode ps p.elapsed s
      else (s, .failed)

/-- What a call of `send_w_ts` meets: the clock reading of userland mode,
whether `sendto` succeeds, the time between the two clock readings at the start
of the wait, and the passes of the wait. -/
structure Call (stamps : Nat → ScmTimestamping) where
  clock : Ts
  sendto : Bool
  entry : Int
  polls : List (Poll stamps)

/-- `send_w_ts`: the return value and `*ts`, or `none` while it waits. -/
def sendWTs (mode : Tsmode) (c : Call stamps) (s : Socket stamps) :
    Socket stamps × Option (Int × Ts) :=
  let ts := if mode = .userland then c.clock else .zero
  if c.sendto = false then (s, some (-1, ts))
  else
    let s := { s with sent := s.sent + 1 }
    if mode = .userland then (s, some (0, ts))
    else match fetchLoop mode c.polls c.entry s with
      | (s, .waiting) => (s, none)
      | (s, .failed) => (s, some (-1, .zero))
      | (s, .ok ts) => (s, some (0, ts))

/-! ### The process on the socket -/

structure Sent where
  datagram : Nat
  ret : Int
  ts : Ts
  deriving DecidableEq, Repr

structure Process (stamps : Nat → ScmTimestamping) where
  sock : Socket stamps := {}
  log : List Sent := []
  waiting : Bool := false

inductive Event (stamps : Nat → ScmTimestamping)
  /-- A timestamp reaches the error queue while no call waits for one. -/
  | arrive (m : Looped stamps)
  | packet (m : Message)
  | receive
  | send (c : Call stamps)

def handle (mode : Tsmode) (p : Process stamps) : Event stamps → Process stamps
  | .arrive m => { p with sock := { p.sock with errQueue := p.sock.errQueue ++ [m] } }
  | .packet m => { p with sock := { p.sock with rcvQueue := p.sock.rcvQueue ++ [m] } }
  | .receive => { p with sock := (recvWTs mode p.sock).1 }
  | .send c =>
      match sendWTs mode c p.sock with
      | (sock, none) => { p with sock, waiting := true }
      | (sock, some (ret, ts)) => { p with sock, log := p.log ++ [⟨p.sock.sent, ret, ts⟩] }

def step (mode : Tsmode) (p : Process stamps) (e : Event stamps) : Process stamps :=
  if p.waiting then p else handle mode p e

def start (stamps : Nat → ScmTimestamping) : Process stamps := {}

def OwnStamps (mode : Tsmode) (p : Process stamps) : Prop :=
  ∀ r ∈ p.log, r.ret = 0 → r.ts = (stamps r.datagram).pick mode

/-! ### The schedules of the kernel -/

def Event.arrivals : Event stamps → List (Looped stamps)
  | .arrive m => [m]
  | .send c => c.polls.flatMap (·.arrivals)
  | _ => []

def InSendOrder (es : List (Event stamps)) : Prop :=
  ((es.flatMap Event.arrivals).map (·.datagram)).Pairwise (· < ·)

def AfterSend (mode : Tsmode) (es : List (Event stamps)) : Prop :=
  Along (step mode) (fun p e => ∀ m ∈ e.arrivals,
    match e with
    | .send _ => m.datagram ≤ p.sock.sent
    | _ => m.datagram < p.sock.sent) (start stamps) es

/-- The timestamp of datagram `n` never arrives, or the wait of its own call
reads it: it arrives before the end of some pass `q` that is begun within 10 ms
and whose `select` is positive. -/
def Call.Punctual (n : Nat) (c : Call stamps) : Prop :=
  (∀ p ∈ c.polls, p.arrivals = []) ∨
    ∃ early q late m, c.polls = early ++ q :: late ∧
      (c.entry < 10000 ∧ ∀ p ∈ early, p.elapsed < 10000) ∧ q.select = true ∧
      (early ++ [q]).flatMap (·.arrivals) = [m] ∧ m.datagram = n

/-- No timestamp is late: none arrives outside the call of its datagram. -/
def OnTime (p : Process stamps) : Event stamps → Prop
  | .arrive _ => False
  | .send c => c.sendto = true → c.Punctual p.sock.sent
  | _ => True

/-! ### Reading one timestamp -/

/-- The two marks `ok` collects may come in any order; the timestamp is stored
with the first of them. -/
theorem extractLoop_looped {mode : Tsmode} (hmode : mode ≠ .userland) {t : ScmTimestamping}
    {l : List Cmsg} (alone : ∀ u, .timestamping u ∈ l → u = t) {ok : Nat} {ts : Ts} (small : ok < 3)
    (seen : ok = 1 → ts = t.pick mode) (stamped : ok = 1 ∨ .timestamping t ∈ l)
    (origin : ok = 2 ∨ .recverr SO_EE_ORIGIN_TIMESTAMPING ∈ l) :
    extractLoop mode true l ok ts = (t.pick mode, true) := by
  -- `ok` holds 1 once the timestamp is stored and 2 once the origin is seen
  induction l generalizing ok ts with
  | nil =>
      simp only [List.not_mem_nil, or_false] at stamped origin
      omega
  | cons c l ih =>
      have rest : ∀ u, .timestamping u ∈ l → u = t := fun u hu => alone u (by simp [hu])
      cases c with
      | timestamping u =>
          have own : u = t := alone u (by simp)
          subst own
          have later : ok = 2 ∨ .recverr SO_EE_ORIGIN_TIMESTAMPING ∈ l := by simpa using origin
          interval_cases ok
          · simpa [extractLoop, hmode] using
              ih rest (by omega) (fun _ => rfl) (Or.inl rfl) (Or.inr (by simpa using later))
          · simpa [extractLoop, hmode] using
              ih rest (by omega) (fun _ => rfl) (Or.inl rfl) (Or.inr (by simpa using later))
          · simp [extractLoop, hmode]
      | recverr o =>
          have later : ok = 1 ∨ .timestamping t ∈ l := by simpa using stamped
          by_cases ho : o = SO_EE_ORIGIN_TIMESTAMPING
          · interval_cases ok
            · simpa [extractLoop, ho] using
                ih rest (by omega) (by simp) (Or.inr (by simpa using later)) (Or.inl rfl)
            · simp [extractLoop, ho, seen]
            · simpa [extractLoop, ho] using
                ih rest (by omega) (by simp) (Or.inr (by simpa using later)) (Or.inl rfl)
          · have origin' : ok = 2 ∨ .recverr SO_EE_ORIGIN_TIMESTAMPING ∈ l := by
              simpa [Ne.symm ho] using origin
            simpa [extractLoop, ho] using ih rest small seen later origin'
      | timestampns u =>
          simpa [extractLoop, hmode] using
            ih rest small seen (by simpa using stamped) (by simpa using origin)
      | ipTos v =>
          exact ih rest small seen (by simpa using stamped) (by simpa using origin)
      | ipv6Tclass v =>
          exact ih rest small seen (by simpa using stamped) (by simpa using origin)
      | other =>
          exact ih rest small seen (by simpa using stamped) (by simpa using origin)

theorem recvWTsErr_cons {mode : Tsmode} (hmode : mode ≠ .userland) {s : Socket stamps}
    {m : Looped stamps} {rest : List (Looped stamps)} (h : s.errQueue = m :: rest) :
    ∃ pkt, recvWTsErr mode s = ({ s with errQueue := rest }, some pkt) ∧
      pkt.ts = (stamps m.datagram).pick mode := by
  have length : min m.message.data.length DATALEN = DATALEN := Nat.min_eq_right m.whole
  have extract : tstampExtract mode true m.message.control =
      ((stamps m.datagram).pick mode, true) :=
    extractLoop_looped hmode m.alone (by omega) (by simp) (Or.inr m.stamped) (Or.inr m.origin)
  refine ⟨⟨m.message.addr, 0, List.replicate DATALEN 0, (stamps m.datagram).pick mode⟩, ?_, rfl⟩
  simp only [recvWTsErr, h, length, ne_eq, not_true_eq_false, if_false, extract]

theorem recvWTsErr_nil (mode : Tsmode) {s : Socket stamps} (h : s.errQueue = []) :
    recvWTsErr mode s = (s, none) := by
  simp only [recvWTsErr, h]

theorem recvWTs_errQueue (mode : Tsmode) (s : Socket stamps) :
    (recvWTs mode s).1.errQueue = s.errQueue := by
  unfold recvWTs
  split
  · rfl
  · dsimp only
    split_ifs <;> rfl

/-! ### One wait -/

theorem fetchLoop_silent (mode : Tsmode) {ps : List (Poll stamps)}
    (silent : ∀ p ∈ ps, p.arrivals = []) (tmp : Int) {s : Socket stamps} (h : s.errQueue = []) :
    (fetchLoop mode ps tmp s).1.errQueue = [] ∧ ∀ ts, (fetchLoop mode ps tmp s).2 ≠ .ok ts := by
  induction ps generalizing tmp s with
  | nil =>
      refine ⟨h, fun ts => ?_⟩
      simp only [fetchLoop]
      split_ifs <;> simp
  | cons p ps ih =>
      have empty :
          ({ s with errQueue := s.errQueue ++ p.arrivals } : Socket stamps).errQueue = [] := by
        simp [h, silent p]
      have rest := ih (fun q hq => silent q (by simp [hq])) p.elapsed empty
      unfold fetchLoop
      split_ifs
      · simpa only [recvWTsErr_nil mode empty] using rest
      · exact rest
      · exact ⟨h, by simp⟩

/-- A wait that reaches a positive `select` with one message on the queue
returns its timestamp and leaves the queue empty. -/
theorem fetchLoop_single {mode : Tsmode} (hmode : mode ≠ .userland) {m : Looped stamps}
    {early late : List (Poll stamps)} {q : Poll stamps} (hq : q.select = true)
    (soon : ∀ p ∈ early, p.elapsed < 10000) {tmp : Int} (htmp : tmp < 10000) {s : Socket stamps}
    (arrives : s.errQueue ++ (early ++ [q]).flatMap (·.arrivals) = [m]) :
    (fetchLoop mode (early ++ q :: late) tmp s).1.errQueue = [] ∧
      (fetchLoop mode (early ++ q :: late) tmp s).2 = .ok ((stamps m.datagram).pick mode) := by
  induction early generalizing tmp s with
  | nil =>
      let s' : Socket stamps := { s with errQueue := s.errQueue ++ q.arrivals }
      have queue : s'.errQueue = [m] := by simpa using arrives
      obtain ⟨pkt, read, hts⟩ := recvWTsErr_cons hmode queue
      have result :
          fetchLoop mode (q :: late) tmp s = ({ s' with errQueue := [] }, .ok pkt.ts) := by
        simp only [fetchLoop, htmp, hq, if_true]
        rw [show recvWTsErr mode _ = _ from read]
      rw [List.nil_append, result, hts]
      exact ⟨rfl, rfl⟩
  | cons p early ih =>
      let s' : Socket stamps := { s with errQueue := s.errQueue ++ p.arrivals }
      have split : s'.errQueue ++ (early ++ [q]).flatMap (·.arrivals) = [m] := by
        simpa [s'] using arrives
      have rest := ih (fun p hp => soon p (by simp [hp])) (soon p (by simp)) split
      cases queue : s'.errQueue with
      | nil =>
          -- the message is still to come: a positive `select` here reads nothing
          have passed : fetchLoop mode (p :: early ++ q :: late) tmp s =
              fetchLoop mode (early ++ q :: late) p.elapsed s' := by
            simp only [List.cons_append, fetchLoop, htmp, if_true]
            rw [show recvWTsErr mode _ = _ from recvWTsErr_nil mode queue]
            split_ifs <;> rfl
          rwa [passed]
      | cons m' others =>
          rw [queue, List.cons_append, List.cons.injEq, List.append_eq_nil_iff] at split
          obtain ⟨rfl, rfl, -⟩ := split
          obtain ⟨pkt, read, hts⟩ := recvWTsErr_cons hmode queue
          by_cases hp : p.select = true
          · have result : fetchLoop mode (p :: early ++ q :: late) tmp s =
                ({ s' with errQueue := [] }, .ok pkt.ts) := by
              simp only [List.cons_append, fetchLoop, htmp, hp, if_true]
              rw [show recvWTsErr mode _ = _ from read]
            rw [result, hts]
            exact ⟨rfl, rfl⟩
          · have passed : fetchLoop mode (p :: early ++ q :: late) tmp s =
                fetchLoop mode (early ++ q :: late) p.elapsed s' := by
              simp only [List.cons_append, fetchLoop, htmp, hp, if_true]
              rfl
            rwa [passed]

theorem sendWTs_punctual {mode : Tsmode} (hmode : mode ≠ .userland) {s : Socket stamps}
    (h : s.errQueue = []) {c : Call stamps} (punctual : c.sendto = true → c.Punctual s.sent) :
    (sendWTs mode c s).1.errQueue = [] ∧
      ∀ ts, (sendWTs mode c s).2 = some (0, ts) → ts = (stamps s.sent).pick mode := by
  unfold sendWTs
  simp only [hmode, if_false]
  split_ifs with failed
  · exact ⟨h, by simp⟩
  have fetched : (fetchLoop mode c.polls c.entry { s with sent := s.sent + 1 }).1.errQueue = [] ∧
      ∀ ts, (fetchLoop mode c.polls c.entry { s with sent := s.sent + 1 }).2 = .ok ts →
        ts = (stamps s.sent).pick mode := by
    rcases punctual (by simpa using failed) with silent |
      ⟨early, q, late, m, polls, soon, hq, arrives, own⟩
    · have quiet := fetchLoop_silent mode silent c.entry
        (s := { s with sent := s.sent + 1 }) h
      exact ⟨quiet.1, fun ts hts => absurd hts (quiet.2 ts)⟩
    · rw [polls]
      have single := @fetchLoop_single stamps mode hmode m early late q hq soon.2 c.entry soon.1
        { s with sent := s.sent + 1 } (by rw [h]; exact arrives)
      refine ⟨single.1, fun ts hts => ?_⟩
      rw [single.2, Fetch.ok.injEq, own] at hts
      exact hts.symm
  revert fetched
  rcases fetchLoop mode c.polls c.entry { s with sent := s.sent + 1 } with ⟨s', outcome⟩
  rintro ⟨empty, own⟩
  cases outcome with
  | waiting => exact ⟨empty, by simp⟩
  | failed => exact ⟨empty, by simp⟩
  | ok ts => exact ⟨empty, fun ts' hts' => by simpa using own ts' (by simpa using hts')⟩

/-! ### Whole runs -/

/-- Between calls the error queue is empty, so no call can read a stale timestamp. -/
structure Paired (mode : Tsmode) (p : Process stamps) : Prop where
  empty : p.sock.errQueue = []
  own : OwnStamps mode p

theorem step_paired {mode : Tsmode} (hmode : mode ≠ .userland) (p : Process stamps)
    (e : Event stamps) (h : Paired mode p) (onTime : OnTime p e) : Paired mode (step mode p e) := by
  unfold step
  split_ifs
  · exact h
  cases e with
  | arrive m => exact onTime.elim
  | packet m => exact ⟨h.empty, h.own⟩
  | receive => exact ⟨(recvWTs_errQueue mode p.sock).trans h.empty, h.own⟩
  | send c =>
      obtain ⟨empty, own⟩ := sendWTs_punctual hmode h.empty onTime
      simp only [handle]
      revert empty own
      rcases sendWTs mode c p.sock with ⟨sock, _ | ⟨ret, ts⟩⟩
      · intro empty _
        exact ⟨empty, h.own⟩
      · intro empty own
        refine ⟨empty, ?_⟩
        intro r hr zero
        rcases List.mem_append.mp hr with old | new
        · exact h.own r old zero
        · rw [List.mem_singleton] at new
          subst new
          exact own ts (by rw [← zero])

/-- In every run in which no timestamp is late, every call that returns 0 has
stored the transmit timestamp of the datagram it sent itself. -/
theorem send_stamps_own {mode : Tsmode} (hmode : mode ≠ .userland) (es : List (Event stamps))
    (onTime : Along (step mode) OnTime (start stamps) es) :
    OwnStamps mode (run (step mode) (start stamps) es) := by
  have paired : Paired mode (run (step mode) (start stamps) es) :=
    run_of_along (step_paired hmode) ⟨rfl, by simp [OwnStamps, start]⟩ onTime
  exact paired.own

/-! ### Two sends

The timestamp of the first is read by its own call, or arrives after that call
has given up. -/

def sampleStamps (n : Nat) : ScmTimestamping := ⟨⟨100 + n, 0⟩, .zero, ⟨100 + n, 500⟩⟩

def sampleLooped (n : Nat) : Looped sampleStamps where
  datagram := n
  message := ⟨⟨1⟩, List.replicate DATALEN 0,
    [.timestamping (sampleStamps n), .recverr SO_EE_ORIGIN_TIMESTAMPING]⟩
  whole := by simp
  stamped := by simp
  alone := by simp
  origin := by simp

def answeredCall (n : Nat) : Call sampleStamps :=
  ⟨.zero, true, 0, [⟨[sampleLooped n], true, 120⟩]⟩

def givenUpCall : Call sampleStamps := ⟨.zero, true, 0, [⟨[], false, 10000⟩]⟩

theorem send_stamps_own_twice :
    OwnStamps .kernel
      (run (step .kernel) (start sampleStamps)
        [.send (answeredCall 0), .send (answeredCall 1)]) := by
  have punctual : ∀ n, (answeredCall n).Punctual n := fun n =>
    Or.inr ⟨[], _, [], sampleLooped n, rfl, ⟨by simp [answeredCall], by simp⟩, rfl, rfl, rfl⟩
  exact send_stamps_own (by decide) _ ⟨fun _ => punctual 0, fun _ => punctual 1, trivial⟩

/-- The first call gives up, its timestamp arrives, and the second call returns
0 with it. -/
theorem late_stamp_shifts :
    let es : List (Event sampleStamps) :=
      [.send givenUpCall, .arrive (sampleLooped 0), .send (answeredCall 1)]
    InSendOrder es ∧ AfterSend .kernel es ∧
      ¬ OwnStamps .kernel (run (step .kernel) (start sampleStamps) es) := by
  refine ⟨by simp [InSendOrder, Event.arrivals, givenUpCall, answeredCall, sampleLooped], ?_, ?_⟩
  · refine ⟨by simp [Event.arrivals, givenUpCall], ?_, ?_, trivial⟩
    · intro m hm
      rw [List.mem_singleton.mp hm]
      decide
    · intro m hm
      rw [List.mem_singleton.mp hm]
      decide
  · intro own
    have second := own ⟨1, 0, ⟨100, 0⟩⟩ (by decide) rfl
    exact absurd second (by decide)

end Baseliner.ProbedTransmitStamp
