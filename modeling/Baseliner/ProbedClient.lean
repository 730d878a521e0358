import Mathlib.Data.Rat.Defs
import Mathlib.Tactic.SplitIfs
import Baseliner.GuardedRuns
import Baseliner.ListSearch
import Baseliner.ProbedTime

/-! The client half of SLANG-probed: `client.c` and the client branches of
`loop_or_die`.

Sessions and results are lists in the order of the C queues (newest result
first). A result entry carries the number of the `malloc` that returned it, so
that entries with equal contents stay apart as the C pointers do. `malloc` is
taken to succeed. The `double` accumulators are exact rationals; counters are
unbounded integers. System calls are inputs: clock readings, the results of
`send_w_ts`, `fork` and `write`, the parsed configuration and `getaddrinfo`.
The port number, `timeout` and `last_tx_*`, which nothing reads, are left out. -/

namespace Baseliner.ProbedClient
open GuardedRuns ListSearch ProbedTime

abbrev NumT := UInt32
abbrev In6Addr := BitVec 128

/-- `addr_t`, of which only `sin6_addr` is compared. -/
structure Addr where
  sin6Addr : In6Addr
  deriving DecidableEq, Repr

inductive Opmode
  | help | server | client | daemon
  deriving DecidableEq, Repr

def DATALEN : Nat := 48
def TIMEOUT : Int := 10

def TYPE_PING : NumT := 1
def TYPE_PONG : NumT := 2
def TYPE_TIME : NumT := 3
def TYPE_HELO : NumT := 4

def MASK_PING : Nat := 1
def MASK_PONG : Nat := 2
def MASK_TIME : Nat := 4
def MASK_DONE : Nat := 7
def MASK_DSCP : Nat := 8

inductive State
  | success | dsErr | tsErr | pongloss | timeout | dup
  deriving DecidableEq, Repr

/-- `data_t`, the 48-byte record of PINGs, PONGs and TIME messages. -/
structure Data where
  type : NumT
  seq : NumT
  id : NumT
  t2 : Ts
  t3 : Ts
  deriving DecidableEq, Repr

/-- `struct res`, a pending probe; `t1` to `t4` are `ts[0]` to `ts[3]`. -/
structure Res where
  node : Nat
  created : Ts
  state : Nat
  addr : In6Addr
  id : NumT
  seq : NumT
  t1 : Ts
  t2 : Ts
  t3 : Ts
  t4 : Ts
  deriving DecidableEq, Repr

structure Msess where
  id : NumT
  res : List Res
  dst : Addr
  msecInterval : Int
  gotHello : Bool
  dscp : UInt8
  childPid : Int
  lastSeq : NumT
  deriving DecidableEq, Repr

/-- A session as `memset` leaves it; `res_head` reads as empty without
`TAILQ_INIT` too. -/
def Msess.zero : Msess := ⟨0, [], ⟨0⟩, 0, false, 0, 0, 0⟩

structure ResFifo where
  id : NumT
  seq : NumT
  state : State
  createdSec : UInt32
  createdNsec : UInt32
  rttSec : UInt32
  rttNsec : UInt32
  deriving DecidableEq, Repr

/-- A result as it is printed or written, with the freed entry it is about
(`none` for a DUP, which has no entry). -/
structure Report where
  node : Option Nat
  record : ResFifo
  deriving DecidableEq, Repr

structure Accum where
  mean : ℚ := 0
  delta : ℚ := 0
  delta2 : ℚ := 0
  m2 : ℚ := 0
  min : Ts := ⟨-1, 0⟩
  max : Ts := ⟨0, 0⟩
  deriving DecidableEq

structure Stats where
  resOk : Int := 0
  resTimeout : Int := 0
  resPongloss : Int := 0
  resTserror : Int := 0
  resDserror : Int := 0
  resDup : Int := 0
  resThold : Int := -1
  resNThold : Int := 0
  resRtt : Accum := {}
  totalRtt : Accum := {}
  kernelOH : Accum := {}
  deriving DecidableEq

/-- The FIFO of daemon mode: records it has taken, records queued in
`fifoq_head`, and the number of `write` calls made on it. -/
structure Fifo where
  written : List ResFifo := []
  queue : List ResFifo := []
  writes : Nat := 0
  countClientFifoq : Int := 0
  countClientFifoqMax : Int := 0
  deriving DecidableEq

inductive Sys
  | fork (pid : Int) (addr : In6Addr)
  | kill (pid : Int)
  deriving DecidableEq, Repr

/-- A live child of `client_fork` and the address it is connected to. -/
structure Child where
  pid : Int
  addr : In6Addr
  deriving DecidableEq, Repr

/-- The globals of `client.c`, with what the process has put out so far. -/
structure Client where
  op : Opmode
  msessHead : List Msess := []
  fifo : Fifo := {}
  stats : Stats := {}
  countClientSent : Int := 0
  countClientDone : Int := 0
  countClientFind : Int := 0
  nodes : Nat := 0
  reports : List Report := []
  sys : List Sys := []
  children : List Child := []
  exited : Bool := false
  deriving DecidableEq

def Client.setSession (i : Nat) (s : Msess) (c : Client) : Client :=
  { c with msessHead := c.msessHead.set i s }

def Client.putSession (pre : List Msess) (s : Msess) (post : List Msess) (c : Client) : Client :=
  { c with msessHead := pre ++ s :: post }

def Client.pending (c : Client) : List Res := c.msessHead.flatMap (·.res)

/-- What is fixed for a run: the arguments of `loop_or_die`, the outcome of
each `write` on the FIFO, and name resolution. -/
structure Env where
  npackets : Int
  thold : Int
  fifoWrite : Nat → Bool
  getaddrinfo : String → Option Addr

/-! ### The FIFO -/

/-- One `write` of a whole record; `false` stands for -1. -/
def Fifo.write (ok : Nat → Bool) (r : ResFifo) (f : Fifo) : Fifo × Bool :=
  if ok f.writes then ({ f with writes := f.writes + 1, written := f.written ++ [r] }, true)
  else ({ f with writes := f.writes + 1 }, false)

def flushFifo (ok : Nat → Bool) : List ResFifo → Fifo → Fifo
  | [], f => { f with queue := [] }
  | q :: qs, f =>
      match f.write ok q with
      | (f, false) => { f with queue := q :: qs }
      | (f, true) => flushFifo ok qs { f with countClientFifoq := f.countClientFifoq - 1 }

def clientWriteFifo (ok : Nat → Bool) (r : ResFifo) (f : Fifo) : Fifo :=
  match (flushFifo ok f.queue f).write ok r with
  | (f, true) => f
  | (f, false) =>
      { f with
        queue := f.queue ++ [r]
        countClientFifoq := f.countClientFifoq + 1
        countClientFifoqMax := max f.countClientFifoqMax (f.countClientFifoq + 1) }

/-! ### Results -/

/-- `client_res_insert`: the entry goes to the last session with the record's id. -/
def clientResInsert (a : Addr) (d : Data) (ts now : Ts) (c : Client) : Client :=
  match splitLast (fun s : Msess => s.id == d.id) c.msessHead with
  | none => c
  | some (pre, s, post) =>
      let r : Res :=
        { node := c.nodes, created := now, state := MASK_PING, addr := a.sin6Addr,
          id := d.id, seq := d.seq, t1 := ts, t2 := .zero, t3 := .zero, t4 := .zero }
      { c with
        nodes := c.nodes + 1
        msessHead := pre ++ { s with res := r :: s.res } :: post }

def matchesRes (a : Addr) (d : Data) (r : Res) : Bool :=
  r.id == d.id && r.seq == d.seq && r.addr == a.sin6Addr

def SameKey (q r : Res) : Prop := q.id = r.id ∧ q.seq = r.seq ∧ q.addr = r.addr

instance (q r : Res) : Decidable (SameKey q r) := inferInstanceAs (Decidable (_ ∧ _ ∧ _))

def IsFor (a : Addr) (r : Res) (d : Data) : Prop :=
  d.id = r.id ∧ d.seq = r.seq ∧ a.sin6Addr = r.addr

theorem SameKey.trans {p q r : Res} (h : SameKey p q) (k : SameKey q r) : SameKey p r :=
  ⟨h.1.trans k.1, h.2.1.trans k.2.1, h.2.2.trans k.2.2⟩

theorem matchesRes_eq {a : Addr} {d : Data} {r : Res} (h : IsFor a r d) :
    matchesRes a d = fun q => decide (SameKey q r) := by
  obtain ⟨hid, hseq, ha⟩ := h
  funext q
  rw [Bool.eq_iff_iff, decide_eq_true_iff]
  simp [matchesRes, SameKey, hid, hseq, ha, and_assoc]

def updateRes (s : Msess) (d : Data) (ts : Option Ts) (dscp : Int) (r : Res) : Res :=
  if d.type = TYPE_PONG then
    { r with
      state := (r.state ||| MASK_PONG) |||
        (if s.dscp ≠ UInt8.ofInt dscp then MASK_DSCP else 0)
      t4 := ts.getD r.t4 }
  else if d.type = TYPE_TIME then
    { r with state := r.state ||| MASK_TIME, t2 := d.t2, t3 := d.t3 }
  else r

@[simp] theorem updateRes_node (s : Msess) (d : Data) (ts : Option Ts) (dscp : Int) (r : Res) :
    (updateRes s d ts dscp r).node = r.node := by
  unfold updateRes
  split_ifs <;> rfl

theorem updateRes_key (s : Msess) (m : Data) (ts : Option Ts) (dscp : Int) (r : Res) :
    SameKey (updateRes s m ts dscp r) r := by
  unfold updateRes SameKey
  split_ifs <;> simp

def totalTime (r : Res) : Ts × Bool := diffTs r.t4 r.t1

/-- `now`, the time the server held the packet. -/
def serverTime (r : Res) : Ts × Bool := diffTs r.t3 r.t2

def rttTime (r : Res) : Ts × Bool := diffTs (totalTime r).1 (serverTime r).1

def rttSec (r : Res) : UInt32 := UInt32.ofInt (rttTime r).1.tvSec

/-- The status code of a completed entry, in the order of the C assignments. -/
def resultState (r : Res) : State :=
  let st := if r.state &&& MASK_DSCP ≠ 0 then State.dsErr else .success
  let st := if (totalTime r).2 || (serverTime r).2 || (rttTime r).2 then .tsErr else st
  let st := if r.t1.isZero || r.t2.isZero || r.t3.isZero || r.t4.isZero then .tsErr else st
  if st = .success ∧ rttSec r > 20 then .tsErr else st

theorem resultState_cases (r : Res) :
    resultState r = .success ∨ resultState r = .dsErr ∨ resultState r = .tsErr := by
  unfold resultState
  dsimp only
  split_ifs <;> simp

def resultRecord (r : Res) : ResFifo :=
  { id := r.id, seq := r.seq, state := resultState r,
    createdSec := UInt32.ofInt r.created.tvSec, createdNsec := UInt32.ofInt r.created.tvNsec,
    rttSec := rttSec r, rttNsec := UInt32.ofInt (rttTime r).1.tvNsec }

/-- The accumulator update for the sample `x`, `n` being the new `res_ok`. -/
def Accum.add (x : Ts) (n : Int) (a : Accum) : Accum :=
  let min := if a.min.tvSec = -1 then x else a.min
  let delta := (x.nanoseconds : ℚ) - a.mean
  let mean := a.mean + delta / n
  let delta2 := (x.nanoseconds : ℚ) - mean
  { mean, delta, delta2, m2 := a.m2 + delta * delta2
    max := if cmpTs a.max x = -1 then x else a.max
    min := if cmpTs min x = 1 then x else min }

def Stats.complete (thold : Int) (r : Res) (s : Stats) : Stats :=
  match resultState r with
  | .tsErr => { s with resTserror := s.resTserror + 1 }
  | .dsErr => { s with resDserror := s.resDserror + 1 }
  | _ =>
      let n := s.resOk + 1
      let limit := if s.resThold < 0 then thold else s.resThold
      { s with
        resOk := n
        resRtt := s.resRtt.add (rttTime r).1 n
        totalRtt := s.totalRtt.add (totalTime r).1 n
        kernelOH := s.kernelOH.add (serverTime r).1 n
        resThold := limit
        resNThold := s.resNThold + if (rttTime r).1.nanoseconds > limit then 1 else 0 }

/-- The completing branch of `client_res_update`, without the removal. -/
def completeRes (env : Env) (r : Res) (c : Client) : Client :=
  { c with
    countClientDone := c.countClientDone + 1
    fifo := if c.op = .daemon then clientWriteFifo env.fifoWrite (resultRecord r) c.fifo
      else c.fifo
    stats := if c.op = .client then c.stats.complete env.thold r else c.stats
    reports := c.reports ++ [⟨some r.node, resultRecord r⟩] }

/-- The test that keeps DUPs from the future out: some session with the
record's id and address has already sent this sequence number. -/
def dupKnown (a : Addr) (d : Data) (c : Client) : Bool :=
  c.msessHead.any fun s =>
    s.dst.sin6Addr == a.sin6Addr && d.type == TYPE_PONG && s.id == d.id &&
      decide (s.lastSeq ≥ d.seq)

def dupRecord (d : Data) (now : Ts) : ResFifo :=
  { id := d.id, seq := d.seq, state := .dup,
    createdSec := UInt32.ofInt now.tvSec, createdNsec := UInt32.ofInt now.tvNsec,
    rttSec := 0, rttNsec := 0 }

def reportDup (env : Env) (d : Data) (now : Ts) (c : Client) : Client :=
  { c with
    fifo := if c.op = .daemon then clientWriteFifo env.fifoWrite (dupRecord d now) c.fifo
      else c.fifo
    stats := if c.op = .client then { c.stats with resDup := c.stats.resDup + 1 } else c.stats
    reports := c.reports ++ [⟨none, dupRecord d now⟩] }

/-- `raise(SIGINT)` at the packet limit: the handler of client mode and the
default action both end the process. -/
def checkLimit (env : Env) (c : Client) : Client :=
  { c with exited := c.exited || decide (c.stats.resOk ≥ env.npackets) }

def clientResUpdate (env : Env) (a : Addr) (d : Data) (ts : Option Ts) (dscp : Int) (now : Ts)
    (c : Client) : Client :=
  match splitFirst (fun s : Msess => s.id == d.id) c.msessHead with
  | none => c
  | some (pre, s, post) =>
      match splitFirst (matchesRes a d) s.res with
      | some (newer, r, older) =>
          let r := updateRes s d ts dscp r
          let c := { c with countClientFind := newer.length + 1 }
          if r.state &&& MASK_DONE = MASK_DONE then
            checkLimit env
              ((completeRes env r c).putSession pre { s with res := newer ++ older } post)
          else checkLimit env (c.putSession pre { s with res := newer ++ r :: older } post)
      | none =>
          let c := { c with countClientFind := s.res.length }
          if dupKnown a d c then reportDup env d now c else c

section Update

variable {env : Env} {a : Addr} {d : Data} {ts : Option Ts} {dscp : Int} {now : Ts} {c : Client}
  {pre post : List Msess} {s : Msess} {newer older : List Res} {r : Res}

theorem clientResUpdate_done
    (session : splitFirst (fun s : Msess => s.id == d.id) c.msessHead = some (pre, s, post))
    (entry : splitFirst (matchesRes a d) s.res = some (newer, r, older))
    (done : (updateRes s d ts dscp r).state &&& MASK_DONE = MASK_DONE) :
    clientResUpdate env a d ts dscp now c =
      checkLimit env ((completeRes env (updateRes s d ts dscp r)
        { c with countClientFind := newer.length + 1 }).putSession pre
          { s with res := newer ++ older } post) := by
  simp only [clientResUpdate, session, entry, done, if_true]

theorem clientResUpdate_open
    (session : splitFirst (fun s : Msess => s.id == d.id) c.msessHead = some (pre, s, post))
    (entry : splitFirst (matchesRes a d) s.res = some (newer, r, older))
    (undone : (updateRes s d ts dscp r).state &&& MASK_DONE ≠ MASK_DONE) :
    clientResUpdate env a d ts dscp now c =
      checkLimit env (({ c with countClientFind := newer.length + 1 } : Client).putSession pre
        { s with res := newer ++ updateRes s d ts dscp r :: older } post) := by
  simp only [clientResUpdate, session, entry, undone, if_false]

theorem clientResUpdate_late
    (session : splitFirst (fun s : Msess => s.id == d.id) c.msessHead = some (pre, s, post))
    (entry : splitFirst (matchesRes a d) s.res = none) :
    clientResUpdate env a d ts dscp now c =
      if dupKnown a d { c with countClientFind := s.res.length } then
        reportDup env d now { c with countClientFind := s.res.length }
      else { c with countClientFind := s.res.length } := by
  simp only [clientResUpdate, session, entry]

theorem clientResUpdate_cases (env : Env) (a : Addr) (d : Data) (ts : Option Ts) (dscp : Int)
    (now : Ts) (c : Client) :
    clientResUpdate env a d ts dscp now c = c ∨
      ∃ pre s post, splitFirst (fun s : Msess => s.id == d.id) c.msessHead = some (pre, s, post) ∧
        ((∃ newer r older, splitFirst (matchesRes a d) s.res = some (newer, r, older) ∧
            clientResUpdate env a d ts dscp now c =
              checkLimit env ((completeRes env (updateRes s d ts dscp r)
                { c with countClientFind := newer.length + 1 }).putSession pre
                  { s with res := newer ++ older } post)) ∨
          (∃ newer r older, splitFirst (matchesRes a d) s.res = some (newer, r, older) ∧
            clientResUpdate env a d ts dscp now c =
              checkLimit env (({ c with countClientFind := newer.length + 1 } : Client).putSession
                pre { s with res := newer ++ updateRes s d ts dscp r :: older } post)) ∨
          clientResUpdate env a d ts dscp now c =
            reportDup env d now { c with countClientFind := s.res.length } ∨
          clientResUpdate env a d ts dscp now c = { c with countClientFind := s.res.length }) := by
  cases hs : splitFirst (fun s : Msess => s.id == d.id) c.msessHead with
  | none => exact Or.inl (by simp only [clientResUpdate, hs])
  | some found =>
      obtain ⟨pre, s, post⟩ := found
      refine Or.inr ⟨pre, s, post, rfl, ?_⟩
      cases hr : splitFirst (matchesRes a d) s.res with
      | some match_ =>
          obtain ⟨newer, r, older⟩ := match_
          by_cases done : (updateRes s d ts dscp r).state &&& MASK_DONE = MASK_DONE
          · exact Or.inl ⟨newer, r, older, rfl, clientResUpdate_done hs hr done⟩
          · exact Or.inr (Or.inl ⟨newer, r, older, rfl, clientResUpdate_open hs hr done⟩)
      | none =>
          rw [clientResUpdate_late hs hr]
          split_ifs
          · exact Or.inr (Or.inr (Or.inl rfl))
          · exact Or.inr (Or.inr (Or.inr rfl))

end Update

def timeoutState (r : Res) : State :=
  if r.state &&& MASK_TIME ≠ 0 then .pongloss
  else if r.state &&& MASK_PONG ≠ 0 then .tsErr
  else .timeout

theorem timeoutState_cases (r : Res) :
    timeoutState r = .pongloss ∨ timeoutState r = .tsErr ∨ timeoutState r = .timeout := by
  unfold timeoutState
  split_ifs <;> simp

def timeoutRecord (r : Res) : ResFifo :=
  { id := r.id, seq := r.seq, state := timeoutState r,
    createdSec := UInt32.ofInt r.created.tvSec, createdNsec := UInt32.ofInt r.created.tvNsec,
    rttSec := 0, rttNsec := 0 }

def Stats.expire (r : Res) (s : Stats) : Stats :=
  match timeoutState r with
  | .tsErr => { s with resTserror := s.resTserror + 1 }
  | .pongloss => { s with resPongloss := s.resPongloss + 1 }
  | .timeout => { s with resTimeout := s.resTimeout + 1 }
  | _ => s

def expireRes (env : Env) (r : Res) (c : Client) : Client :=
  { c with
    countClientDone := c.countClientDone + 1
    fifo := if c.op = .daemon then clientWriteFifo env.fifoWrite (timeoutRecord r) c.fifo
      else c.fifo
    stats := if c.op = .client then c.stats.expire r else c.stats
    reports := c.reports ++ [⟨some r.node, timeoutRecord r⟩] }

/-- The inner loop of `client_res_clear_timeouts`, on the entries from the
oldest: it stops at the first young one. -/
def clearRes (env : Env) (now : Ts) : List Res → Client → List Res × Client
  | [], c => ([], c)
  | r :: rs, c =>
      if (diffTs now r.created).1.tvSec ≤ TIMEOUT then (r :: rs, c)
      else clearRes env now rs (expireRes env r c)

def clearSessions (env : Env) (now : Ts) : List Msess → Client → List Msess × Client
  | [], c => ([], c)
  | s :: ss, c =>
      let cleared := clearRes env now s.res.reverse c
      let rest := clearSessions env now ss cleared.2
      ({ s with res := cleared.1.reverse } :: rest.1, rest.2)

def clientResClearTimeouts (env : Env) (now : Ts) (c : Client) : Client :=
  let cleared := clearSessions env now c.msessHead c
  { cleared.2 with msessHead := cleared.1 }

/-! ### Sessions -/

def clientMsessAdd (dst : Addr) (dscp : UInt8) (wait : Int) (id : NumT) (c : Client) : Client :=
  { c with
    msessHead := { Msess.zero with id, dscp, msecInterval := wait, dst } :: c.msessHead }

/-- What a send meets: the result of `send_w_ts` (`none` for -1) and the clock
reading of the insertion. -/
structure Send where
  result : Option Ts
  now : Ts

def transmitSession (sends : Int) (send : Nat → Send) (c : Client) (i : Nat) : Client :=
  match c.msessHead[i]? with
  | none => c
  | some s =>
      if s.gotHello = false then c
      else if s.msecInterval < 1 then c
      else if sends.tmod s.msecInterval = 0 then
        let s := { s with lastSeq := s.lastSeq + 1 }
        let tx : Data := ⟨TYPE_PING, s.lastSeq, s.id, .zero, .zero⟩
        let c := { c.setSession i s with countClientSent := c.countClientSent + 1 }
        match (send i).result with
        | none => c
        | some ts => clientResInsert s.dst tx ts (send i).now c
      else c

def clientMsessTransmit (sends : Int) (send : Nat → Send) (c : Client) : Client :=
  (List.range c.msessHead.length).foldl (transmitSession sends send) c

def clientMsessGothello (a : Addr) (c : Client) : Client :=
  { c with
    msessHead := c.msessHead.map fun s =>
      if a.sin6Addr = s.dst.sin6Addr then { s with gotHello := true } else s }

def clientMsessIsaddrtaken (a : Addr) (id : NumT) (sessions : List Msess) : Bool :=
  sessions.any fun s => s.id != id && s.childPid != 0 && a.sin6Addr == s.dst.sin6Addr

/-- `client_fork`, seen from the parent. -/
def clientFork (pid : Int) (dst : Addr) (c : Client) : Client :=
  { c with
    sys := c.sys ++ [.fork pid dst.sin6Addr]
    children := if pid > 0 then c.children ++ [⟨pid, dst.sin6Addr⟩] else c.children }

def forkSession (fork : Nat → Int) (c : Client) (i : Nat) : Client :=
  match c.msessHead[i]? with
  | none => c
  | some s =>
      if clientMsessIsaddrtaken s.dst s.id c.msessHead then c
      else clientFork (fork i) s.dst (c.setSession i { s with childPid := fork i })

def clientMsessForkall (fork : Nat → Int) (c : Client) : Client :=
  (List.range c.msessHead.length).foldl (forkSession fork) c

/-- `kill(pid, SIGKILL)`: a positive pid names one process, -1 names all. -/
def sysKill (pid : Int) (c : Client) : Client :=
  { c with
    sys := c.sys ++ [.kill pid]
    children :=
      if pid = -1 then [] else c.children.filter (·.pid ≠ pid) }

structure ConfigChild where
  element : Bool
  name : String
  content : String

/-- A child of the root element, with its `id` attribute. -/
structure ConfigNode where
  element : Bool
  name : String
  id : Option String
  children : List ConfigChild

/-- A parsed document: the children of its first node, if it has one. -/
structure Document where
  root : Option (List ConfigNode)

def skipBlank : List Char → List Char
  | c :: cs => if c.isWhitespace then skipBlank cs else c :: cs
  | [] => []

/-- `atoi`, on values that fit. -/
def atoi (s : String) : Int :=
  let digits (cs : List Char) : Nat :=
    (cs.takeWhile Char.isDigit).foldl (fun n c => 10 * n + (c.toNat - '0'.toNat)) 0
  match skipBlank s.toList with
  | '-' :: cs => -(digits cs : Int)
  | '+' :: cs => digits cs
  | cs => digits cs

/-- One child element: the session being filled and the `ok` flag. -/
def readChild (env : Env) (so : Msess × Bool) (k : ConfigChild) : Msess × Bool :=
  if k.element = false then so
  else if k.name = "interval" then ({ so.1 with msecInterval := atoi k.content }, so.2)
  else if k.name = "address" then
    match env.getaddrinfo k.content with
    | none => so
    | some dst => ({ so.1 with dst }, true)
  else if k.name = "dscp" then ({ so.1 with dscp := UInt8.ofInt (atoi k.content) }, so.2)
  else so

def readProbe (env : Env) (n : ConfigNode) : Option Msess :=
  if n.element = false then none
  else if "probe".toList.isPrefixOf n.name.toList = false then none
  else match n.id with
    | none => none
    | some id =>
        let s := { Msess.zero with id := UInt32.ofInt (atoi id), msecInterval := 1000 }
        match n.children.foldl (readChild env) (s, false) with
        | (s, true) => some s
        | (_, false) => none

/-- The populated list: each session is inserted at the head. -/
def readSessions (env : Env) (nodes : List ConfigNode) : List Msess :=
  nodes.foldl (fun l n => match readProbe env n with | none => l | some s => s :: l) []

def killSessions : List Msess → Client → Client
  | [], c => c
  | s :: ss, c => killSessions ss (if s.childPid ≠ 0 then sysKill s.childPid c else c)

/-- `client_msess_reconf` on the result of `xmlParseFile`. -/
def clientMsessReconf (env : Env) (cfgdoc : Option Document) (c : Client) : Client × Int :=
  if c.op ≠ .daemon then (c, -1)
  else match cfgdoc with
    | none => (c, -1)
    | some doc =>
        match doc.root with
        | none => (c, -1)
        | some nodes =>
            ({ killSessions c.msessHead c with msessHead := readSessions env nodes }, 0)

section Reload

variable {env : Env}

theorem readChild_blank (env : Env) (so : Msess × Bool) (k : ConfigChild) :
    (readChild env so k).1.res = so.1.res ∧ (readChild env so k).1.childPid = so.1.childPid := by
  unfold readChild
  split_ifs
  · exact ⟨rfl, rfl⟩
  · exact ⟨rfl, rfl⟩
  · split <;> exact ⟨rfl, rfl⟩
  · exact ⟨rfl, rfl⟩
  · exact ⟨rfl, rfl⟩

theorem readProbe_blank {n : ConfigNode} {s : Msess} (h : readProbe env n = some s) :
    s.res = [] ∧ s.childPid = 0 := by
  have children : ∀ (ks : List ConfigChild) (so : Msess × Bool),
      (ks.foldl (readChild env) so).1.res = so.1.res ∧
        (ks.foldl (readChild env) so).1.childPid = so.1.childPid := by
    intro ks so
    exact foldl_rel
      (R := fun x y : Msess × Bool => y.1.res = x.1.res ∧ y.1.childPid = x.1.childPid)
      (fun _ => ⟨rfl, rfl⟩) (fun h k => ⟨k.1.trans h.1, k.2.trans h.2⟩) (readChild_blank env) so ks
  unfold readProbe at h
  split_ifs at h
  split at h
  · simp at h
  · next id _ =>
      have read := children n.children
        ({ Msess.zero with id := UInt32.ofInt (atoi id), msecInterval := 1000 }, false)
      dsimp only at h
      split at h
      · next s' hs =>
          rw [Option.some.injEq] at h
          rw [hs] at read
          rw [← h]
          exact read
      · simp at h

theorem readSessions_blank (env : Env) (nodes : List ConfigNode) :
    ∀ s ∈ readSessions env nodes, s.res = [] ∧ s.childPid = 0 := by
  refine run_invariant (I := fun l : List Msess => ∀ s ∈ l, s.res = [] ∧ s.childPid = 0)
    ?_ (by simp) nodes
  intro l n h
  split
  · exact h
  · next s hs =>
      intro t ht
      rcases List.mem_cons.mp ht with rfl | ht
      · exact readProbe_blank hs
      · exact h t ht

theorem clientMsessReconf_cases (env : Env) (cfgdoc : Option Document) (c : Client) :
    (clientMsessReconf env cfgdoc c).1 = c ∧ (c.op = .daemon → cfgdoc.bind Document.root = none) ∨
      ∃ nodes, c.op = .daemon ∧ cfgdoc.bind Document.root = some nodes ∧
        (clientMsessReconf env cfgdoc c).1 =
          { killSessions c.msessHead c with msessHead := readSessions env nodes } := by
  unfold clientMsessReconf
  by_cases daemon : c.op = .daemon
  · rw [if_neg (by simpa using daemon)]
    cases cfgdoc with
    | none => exact Or.inl ⟨rfl, fun _ => rfl⟩
    | some doc =>
        cases root : doc.root with
        | none => exact Or.inl ⟨by simp only [root], fun _ => root⟩
        | some nodes => exact Or.inr ⟨nodes, daemon, root, by simp only [root]⟩
  · rw [if_pos daemon]
    exact Or.inl ⟨rfl, fun h => absurd h daemon⟩

end Reload

/-! ### The client branches of the main loop -/

inductive Event
  /-- The transmit timer, with the tick count. -/
  | transmit (sends : Int) (send : Nat → Send)
  /-- A packet on the UDP socket, with its receive timestamp and DSCP. -/
  | udp (a : Addr) (d : Data) (ts : Ts) (dscp : UInt8) (now : Ts)
  /-- A packet a child wrote to the pipe. -/
  | pipe (a : Addr) (d : Data) (now : Ts)
  | clearTimeouts (now : Ts)
  | reload (cfgdoc : Option Document) (fork : Nat → Int)
  /-- A child of `client_fork` ends by itself. -/
  | childExit (pid : Int)

def handle (env : Env) (c : Client) : Event → Client
  | .transmit sends send => clientMsessTransmit sends send c
  | .udp a d ts dscp now =>
      if d.type = TYPE_PONG then clientResUpdate env a d (some ts) dscp.toNat now c else c
  | .pipe a d now =>
      if d.type = TYPE_HELO then clientMsessGothello a c
      else if d.type = TYPE_TIME then clientResUpdate env a d none (-1) now c
      else c
  | .clearTimeouts now => clientResClearTimeouts env now c
  | .reload cfgdoc fork => clientMsessForkall fork (clientMsessReconf env cfgdoc c).1
  | .childExit pid => { c with children := c.children.filter (·.pid ≠ pid) }

/-- One event of the main loop; nothing happens once the process has ended. -/
def step (env : Env) (c : Client) (e : Event) : Client :=
  if c.exited then c else handle env c e

/-- Client mode as `main` starts it: one session with id 0 and DSCP 0. -/
def clientStart (dst : Addr) (wait : Int) : Client :=
  clientMsessAdd dst 0 wait 0 { op := .client }

/-- Daemon mode as `main` starts it: no session before the first reload. -/
def daemonStart : Client := { op := .daemon }

end Baseliner.ProbedClient
