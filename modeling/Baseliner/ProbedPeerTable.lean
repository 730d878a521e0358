import Mathlib.Data.Int.Interval
import Baseliner.GuardedRuns
import Baseliner.ProbedClient

/-! The server's peer table in `loop_or_die`: the select set, its highest
descriptor, the peer list and the client counter, one pass of the main loop at a
time.

What the system calls return is an input of the pass: the descriptors that
`select` reports, the packet on the UDP socket, the accepted descriptor and the
results of `addr2str`, `send`, `malloc` and `read`. `openFds` is the kernel's
view: the accepted descriptors that have not been closed. The client side of the
loop touches none of this and is left out, as is the limit `FD_SETSIZE`. -/

namespace Baseliner.ProbedPeerTable
open GuardedRuns
open ProbedClient (Addr)

inductive Lockmode
  | disabled | enabled
  deriving DecidableEq, Repr

/-- The descriptors opened before the loop. `pipe` is called last, so the write
end of the send pipe is the highest of them. -/
structure Setup where
  lm : Lockmode
  udp : Int
  tcp : Int
  clientPipe0 : Int
  clientPipe1 : Int
  sendPipe0 : Int
  sendPipe1 : Int
  ascending : udp < tcp ∧ tcp < clientPipe0 ∧ clientPipe0 < clientPipe1 ∧
    clientPipe1 < sendPipe0 ∧ sendPipe0 < sendPipe1
  nonneg : 0 ≤ udp

def Setup.watched (cfg : Setup) : Finset Int :=
  {cfg.udp, cfg.tcp, cfg.clientPipe0, cfg.sendPipe0}

def Setup.statics (cfg : Setup) : Finset Int :=
  {cfg.udp, cfg.tcp, cfg.clientPipe0, cfg.clientPipe1, cfg.sendPipe0, cfg.sendPipe1}

structure Peer where
  addr : Addr
  fd : Int
  deriving DecidableEq

structure Server where
  fs : Finset Int
  fdMax : Int
  peers : List Peer := []
  nclients : UInt32 := 0
  openFds : Finset Int := ∅
  returned : Bool := false
  deriving DecidableEq

def Server.fds (s : Server) : List Int := s.peers.map (·.fd)

def start (cfg : Setup) : Server where
  fs := cfg.watched
  fdMax := max (max (max (max (max (max 0 cfg.udp) cfg.tcp) cfg.clientPipe0) cfg.clientPipe1)
    cfg.sendPipe0) cfg.sendPipe1

def Setup.fdClientLow (cfg : Setup) : Int := (start cfg).fdMax

def serverFindPeerFd (a : Addr) (s : Server) : Int :=
  match s.peers.find? (fun p => p.addr.sin6Addr == a.sin6Addr) with
  | some p => p.fd
  | none => -1

/-- `server_kill_peer`; closing a descriptor that is not open only fails. -/
def serverKillPeer (fd : Int) (s : Server) : Server :=
  { s with
    nclients := s.nclients - 1
    peers := s.peers.eraseP (·.fd == fd)
    openFds := s.openFds.erase fd
    fs := s.fs.erase fd
    fdMax := if fd = s.fdMax then s.fdMax - 1 else s.fdMax }

/-- What `recv_w_ts` gives on the UDP socket; `sent` says whether the whole TIME
record is sent. -/
inductive Packet
  | failed
  | ping (a : Addr) (sent : Bool)
  | other

/-- What the accept branch meets; a negative `fd` is a failed `accept`. -/
structure Accept where
  fd : Int
  addr : Addr
  addr2str : Bool
  helo : Bool
  malloc : Bool

/-- The inputs of one pass; `sendBytes` counts the bytes read from the send pipe. -/
structure Input where
  select : Bool
  ready : Finset Int
  packet : Packet
  accept : Accept
  pipeRead : Bool
  sendBytes : Nat

/-- A pass under way: the server, `ok`, and whether the rest is skipped. -/
structure Pass where
  server : Server
  ok : Nat
  done : Bool := false

def udpPhase (packet : Packet) (p : Pass) : Pass :=
  match packet with
  | .failed => { p with ok := 0 }
  | .other => { p with ok := 1 }
  | .ping a sent =>
      let fd := serverFindPeerFd a p.server
      if fd < 0 then { p with ok := 1, done := true }
      else if sent = false then { p with ok := 1, server := serverKillPeer fd p.server }
      else { p with ok := 1 }

/-- The accepted client is entered in the set and the list, in the source's
order: the HELO may fail before the insertion. -/
def enterPeer (a : Accept) (s : Server) : Server :=
  let s := { s with
    fs := insert a.fd s.fs
    fdMax := if a.fd > s.fdMax then a.fd else s.fdMax }
  let s := if a.helo = false then serverKillPeer a.fd s else s
  if a.malloc = false then { s with returned := true }
  else { s with peers := ⟨a.addr, a.fd⟩ :: s.peers }

def acceptPhase (cfg : Setup) (a : Accept) (p : Pass) : Pass :=
  if a.fd < 0 then { p with ok := 0 }
  else
    let s := { p.server with openFds := insert a.fd p.server.openFds }
    if a.addr2str = false then { p with ok := 0, server := s }
    else if s.nclients > 0 ∧ cfg.lm = .enabled then { p with ok := 0, server := s }
    else
      let s := enterPeer a { s with nclients := s.nclients + 1 }
      { server := s, ok := 1, done := s.returned }

def clientPipePhase (pipeRead : Bool) (p : Pass) : Pass :=
  { p with ok := if pipeRead then 1 else 0 }

def sendPipePhase (sendBytes : Nat) (p : Pass) : Pass := { p with ok := sendBytes }

def Pass.branch (p : Pass) (ready : Bool) (phase : Pass → Pass) : Pass :=
  if p.done then p else if ready then phase p else p

/-- The disconnect sweep from descriptor `i`. Nothing in the loop raises
`fd_max`, so as many passes as its first value allows are enough. -/
def sweep (ready : Finset Int) : Nat → Int → Server → Server
  | 0, _, s => s
  | n + 1, i, s =>
      if i ≤ s.fdMax then
        sweep ready n (i + 1) (if i ∈ ready then serverKillPeer i s else s)
      else s

def beforeAccept (cfg : Setup) (s : Server) (x : Input) : Pass :=
  ({ server := s, ok := 0 } : Pass).branch (cfg.udp ∈ x.ready) (udpPhase x.packet)

def beforeSweep (cfg : Setup) (s : Server) (x : Input) : Pass :=
  (((beforeAccept cfg s x).branch (cfg.tcp ∈ x.ready) (acceptPhase cfg x.accept)).branch
    (cfg.clientPipe0 ∈ x.ready) (clientPipePhase x.pipeRead)).branch
      (cfg.sendPipe0 ∈ x.ready) (sendPipePhase x.sendBytes)

/-- What the kernel guarantees: `select` reports members of the set, and
`accept` returns a descriptor that is not in use. -/
structure Valid (cfg : Setup) (s : Server) (x : Input) : Prop where
  ready : x.ready ⊆ s.fs
  fresh : 0 ≤ x.accept.fd → x.accept.fd < 2 ^ 31 ∧ x.accept.fd ∉ cfg.statics ∧
    x.accept.fd ∉ (beforeAccept cfg s x).server.openFds

structure Consistent (cfg : Setup) (s : Server) : Prop where
  opened : s.openFds = s.fds.toFinset
  watched : s.fs \ cfg.watched = s.fds.toFinset
  nodup : s.fds.Nodup
  count : s.nclients.toNat = s.peers.length
  bound : ∀ fd ∈ s.fs, fd ≤ s.fdMax

/-- The condition on a pass: an accepted connection is entered in the table, and
the sweep meets no descriptor that a failed TIME record of the same pass has
already removed. -/
structure Sound (cfg : Setup) (s : Server) (x : Input) : Prop where
  accepted : (beforeAccept cfg s x).done = false → cfg.tcp ∈ x.ready → 0 ≤ x.accept.fd →
    x.accept.addr2str = true ∧ x.accept.helo = true ∧
      (cfg.lm = .enabled → (beforeAccept cfg s x).server.peers = [])
  sweep : (beforeSweep cfg s x).done = false → (beforeSweep cfg s x).ok = 0 →
    ∀ fd ∈ x.ready, cfg.fdClientLow ≤ fd → fd ≤ (beforeSweep cfg s x).server.fdMax →
      fd ∈ (beforeSweep cfg s x).server.fds

/-! ### What each operation keeps -/

/-- The invariant: clients are descriptors apart from those of the setup. -/
structure Sane (cfg : Setup) (s : Server) : Prop extends Consistent cfg s where
  clients : ∀ fd ∈ s.fds, 0 ≤ fd ∧ fd < 2 ^ 31 ∧ fd ∉ cfg.statics

section Operations

variable {cfg : Setup} {s : Server} {fd : Int}

theorem Sane.length_le (h : Sane cfg s) : s.peers.length ≤ 2 ^ 31 := by
  have range : s.fds.toFinset ⊆ Finset.Ico (0 : Int) (2 ^ 31) := by
    intro f hf
    have := h.clients f (List.mem_toFinset.mp hf)
    exact Finset.mem_Ico.mpr ⟨this.1, this.2.1⟩
  have card := Finset.card_le_card range
  rw [List.toFinset_card_of_nodup h.nodup, Server.fds, List.length_map, Int.card_Ico] at card
  exact card

end Operations

/-! ### Whole runs -/

section Runs

variable {cfg : Setup} {s : Server} {x : Input}

end Runs

end Baseliner.ProbedPeerTable
