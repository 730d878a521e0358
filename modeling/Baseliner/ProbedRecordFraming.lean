import Baseliner.FixedFrames
import Baseliner.GuardedRuns
import Baseliner.ProbedClient

/-! The child process of `client_fork`: it connects to a server, receives HELO
and TIME records from the TCP connection into one packet buffer and writes the
packet to the pipe of the main loop after every `recv`.

A connection is the list of byte strings its `recv` calls return; how its loop
breaks (timeout, error or end of stream) makes no difference to the child. The
pipe lists the packets passed to `write`. Their timestamp is always zero and
their DSCP is never set, so both are left out. -/

namespace Baseliner.ProbedRecordFraming
open FixedFrames GuardedRuns
open ProbedClient (Addr DATALEN)

abbrev Record := Frame UInt8 DATALEN

structure PipePkt where
  addr : Addr
  data : Record
  deriving DecidableEq

structure Child where
  server : Addr
  data : Record
  pipe : List PipePkt := []
  failSetup : Nat := 0
  failExec : Nat := 0
  exited : Bool := false
  deriving DecidableEq

inductive Attempt
  | addr2strFailed
  | socketFailed
  | connectFailed
  | connected (segs : List (List UInt8))

def receiveLoop : List (List UInt8) → Child → Child
  | [], c => c
  | seg :: segs, c =>
      let data := c.data.overwrite seg
      receiveLoop segs { c with data, pipe := c.pipe ++ [⟨c.server, data⟩] }

def setupFailed (c : Child) : Child :=
  { c with failSetup := c.failSetup + 1, exited := decide (c.failSetup + 1 > 3) }

def connectionLost (c : Child) : Child :=
  { c with failExec := c.failExec + 1, exited := decide (c.failExec + 1 ≥ 12) }

/-- `client_fork` in the child, pass by pass. -/
def clientFork (c : Child) (a : Attempt) : Child :=
  if c.exited then c
  else match a with
    | .connected segs => connectionLost (receiveLoop segs c)
    | _ => setupFailed c

def start (server : Addr) (data : Record) : Child := { server, data }

theorem receiveLoop_pipe (segs : List (List UInt8)) (c : Child) :
    (receiveLoop segs c).pipe = c.pipe ++ (buffers c.data segs).map (⟨c.server, ·⟩) := by
  induction segs generalizing c with
  | nil => simp [receiveLoop, buffers]
  | cons seg segs ih =>
      rw [receiveLoop, ih, buffers, List.map_cons, List.append_assoc]
      rfl

theorem receiveLoop_server (segs : List (List UInt8)) (c : Child) :
    (receiveLoop segs c).server = c.server := by
  induction segs generalizing c with
  | nil => rfl
  | cons seg segs ih => exact ih _

theorem clientFork_addr (server : Addr) (data : Record) (as : List Attempt) :
    let c := run clientFork (start server data) as
    c.server = server ∧ ∀ pkt ∈ c.pipe, pkt.addr = server := by
  refine run_invariant (I := fun c : Child => c.server = server ∧ ∀ pkt ∈ c.pipe, pkt.addr = server)
    ?_ ⟨rfl, by simp [start]⟩ as
  rintro c a ⟨hserver, hpipe⟩
  unfold clientFork
  split_ifs
  · exact ⟨hserver, hpipe⟩
  · cases a with
    | connected segs =>
        refine ⟨(receiveLoop_server segs c).trans hserver, ?_⟩
        intro pkt hpkt
        change pkt ∈ (receiveLoop segs c).pipe at hpkt
        rw [receiveLoop_pipe] at hpkt
        rcases List.mem_append.mp hpkt with old | new
        · exact hpipe pkt old
        · obtain ⟨data, -, rfl⟩ := List.mem_map.mp new
          exact hserver
    | addr2strFailed => exact ⟨hserver, hpipe⟩
    | socketFailed => exact ⟨hserver, hpipe⟩
    | connectFailed => exact ⟨hserver, hpipe⟩

/-- The child that the parent's half of `client_fork` enters forwards the records of its server. -/
theorem clientFork_child {pid : Int} (forked : 0 < pid) (dst : Addr) (c : ProbedClient.Client)
    (data : Record) (as : List Attempt) :
    ∃ child ∈ (ProbedClient.clientFork pid dst c).children, child.pid = pid ∧
      ∀ pkt ∈ (run clientFork (start dst data) as).pipe, pkt.addr.sin6Addr = child.addr := by
  refine ⟨⟨pid, dst.sin6Addr⟩, ?_, rfl, fun pkt mem => ?_⟩
  · rw [ProbedClient.clientFork, if_pos forked]
    exact List.mem_append_right _ (List.mem_singleton_self _)
  · rw [(clientFork_addr dst data as).2 pkt mem]

/-- What a connection adds to the pipe, after any earlier passes of the loop,
is the sequence of records the server sent on it exactly when every `recv`
returned a whole record. -/
theorem forwards_records_iff (server : Addr) (data : Record) (as : List Attempt)
    (alive : (run clientFork (start server data) as).exited = false)
    (records : List Record) (segs : List (List UInt8))
    (recv : ∀ seg ∈ segs, 1 ≤ seg.length ∧ seg.length ≤ DATALEN)
    (same : segs.flatten = stream records) :
    (run clientFork (start server data) (as ++ [.connected segs])).pipe =
        (run clientFork (start server data) as).pipe ++ records.map (⟨server, ·⟩) ↔
      ∀ seg ∈ segs, seg.length = DATALEN := by
  have hserver := (clientFork_addr server data as).1
  rw [run_append]
  generalize run clientFork (start server data) as = c at *
  have added : (run clientFork c [.connected segs]).pipe =
      c.pipe ++ (buffers c.data segs).map (⟨server, ·⟩) := by
    rw [run_cons, run_nil, clientFork, alive, ← hserver]
    exact receiveLoop_pipe segs c
  have injective : Function.Injective (PipePkt.mk server) := fun d e h => by
    rw [PipePkt.mk.injEq] at h
    exact h.2
  rw [added, List.append_cancel_left_eq, (List.map_injective_iff.mpr injective).eq_iff]
  exact buffers_eq_iff (by decide) c.data (fun seg hseg => (recv seg hseg).2) same

/-! ### Records in whole reads and one in two reads -/

def sampleRecord : Record := ⟨List.replicate 20 1 ++ List.replicate 28 2, by decide⟩

def staleRecord : Record := ⟨List.replicate DATALEN 9, by decide⟩

/-- The server does not answer at first, and its first connection is lost after a short read. -/
theorem whole_read_forwards :
    let lost : List Attempt := [.connectFailed, .connected [List.replicate 20 1]]
    (run clientFork (start ⟨1⟩ staleRecord) (lost ++ [.connected [sampleRecord.toList,
        staleRecord.toList, sampleRecord.toList]])).pipe =
      (run clientFork (start ⟨1⟩ staleRecord) lost).pipe ++
        [sampleRecord, staleRecord, sampleRecord].map (⟨⟨1⟩, ·⟩) :=
  (forwards_records_iff ⟨1⟩ staleRecord [.connectFailed, .connected [List.replicate 20 1]]
    (by decide) [sampleRecord, staleRecord, sampleRecord]
    [sampleRecord.toList, staleRecord.toList, sampleRecord.toList]
    (by decide) (by decide)).mpr (by decide)

/-- Two short reads of one record put two packets into the pipe: its first 20
bytes followed by stale ones, then its last 28 bytes at the start of the buffer. -/
theorem short_read_breaks_framing :
    let segs : List (List UInt8) := [List.replicate 20 1, List.replicate 28 2]
    (∀ seg ∈ segs, 1 ≤ seg.length ∧ seg.length ≤ DATALEN) ∧
      segs.flatten = stream [sampleRecord] ∧
      (run clientFork (start ⟨1⟩ staleRecord) [.connected segs]).pipe ≠
        [sampleRecord].map (⟨⟨1⟩, ·⟩) := by
  decide

end Baseliner.ProbedRecordFraming
