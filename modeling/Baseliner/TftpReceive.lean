import Baseliner.ByteOrder
import Baseliner.TftpTransfer

/-! `recvfile` of `tftpd` against any peer, byte by byte. A datagram is read over
what its buffer held, and the two header fields are brought into host order where
they stand, so a datagram of fewer than four bytes is judged by a header that is
partly older. The host keeps the low byte of a `short` first, as the machines of
the image do. Local reads and writes succeed. -/

namespace Baseliner.TftpReceive

open ByteOrder GuardedRuns TftpBuffers
open TftpTransfer (Status DATA ACK ERROR rexmtval maxtimeout)

def PKTSIZE : Nat := SEGSIZE + 4

/-! ### The bytes of a buffer -/

def memory (dp : Packet) : List UInt8 :=
  stored .little (UInt16.ofNat dp.thOpcode) ++ stored .little dp.thBlock.toUInt16 ++ dp.thData

def tftphdr (mem : List UInt8) : Packet where
  thOpcode := (load .little (mem.getD 0 0) (mem.getD 1 0)).toNat
  thBlock := (load .little (mem.getD 2 0) (mem.getD 3 0)).toInt16
  thData := mem.drop 4

/-- `recv (peer, dp, PKTSIZE, 0)`: the bytes behind those received stay. -/
def recvInto (dp : Packet) (datagram : List UInt8) : Packet :=
  tftphdr (datagram.take PKTSIZE ++ (memory dp).drop datagram.length)

def ntohHeader (dp : Packet) : Packet :=
  { dp with
    thOpcode := (ntohs (UInt16.ofNat dp.thOpcode)).toNat
    thBlock := (ntohs dp.thBlock.toUInt16).toInt16 }

def heard (dp : Packet) (datagram : List UInt8) : Packet := ntohHeader (recvInto dp datagram)

def recvSize (datagram : List UInt8) : Nat := min datagram.length PKTSIZE

/-! ### `recvfile` -/

/-- `ack` is the block number in `ackbuf`, and `queue` has the datagrams that the
socket holds. Beside them and the variables of the source, `sent` has what was
sent and `accepted` the data of the blocks that left the inner loop. -/
structure Upload where
  b : Buffers
  dst : Sink
  block : Nat
  ack : Int16
  timeout : Nat
  queue : List (List UInt8)
  sent : List Packet
  accepted : List (List UInt8)
  status : Status

def Upload.dp (u : Upload) : Packet := (u.b.bfs u.b.current).packet

def Upload.setDp (u : Upload) (dp : Packet) : Upload :=
  { u with b := u.b.set u.b.current { u.b.bfs u.b.current with packet := dp } }

def Upload.sendAck (convert : Bool) (u : Upload) : Upload :=
  let (b, dst) := writeBehind convert u.b u.dst
  { u with b := b, dst := dst, sent := u.sent ++ [⟨ACK, u.ack, []⟩] }

def Upload.nextAck (convert : Bool) (u : Upload) : Upload :=
  Upload.sendAck convert
    { u with timeout := 0, ack := Int16.ofNat u.block, block := u.block + 1 }

def Upload.finish (convert : Bool) (u : Upload) : Upload :=
  let (b, dst) := writeBehind convert u.b u.dst
  { u with
    b := b
    dst := dst
    ack := Int16.ofNat u.block
    sent := u.sent ++ [⟨ACK, Int16.ofNat u.block, []⟩]
    status := .finished }

/-- The block in the buffer is passed on, with the size `ct` that `recv` gave it. -/
def Upload.accept (convert : Bool) (u : Upload) (ct : Int) : Upload :=
  let (b, dst) := writeit convert u.b u.dst ct
  { u with b := b, dst := dst, accepted := u.accepted ++ [u.dp.thData.take ct.toNat] }

def Upload.fetch (u : Upload) (dp : Packet) (queue : List (List UInt8)) : Upload :=
  { u.setDp dp with queue := queue }

/-- `recv` waits for a datagram. One of another block makes `synchnet` empty the
socket. That `writeit` returns another size than `ct` does not happen. -/
def Upload.recv (convert : Bool) (u : Upload) : Upload :=
  match u.queue with
  | [] => u
  | datagram :: queue =>
      let u := u.fetch (heard u.dp datagram) queue
      if u.dp.thOpcode = ERROR then { u with status := .gone }
      else if u.dp.thOpcode = DATA then
        if u.dp.thBlock.toInt = u.block then
          let ct : Int := recvSize datagram - 4
          let u := u.accept convert ct
          if ct = SEGSIZE then u.nextAck convert else u.finish convert
        else
          let u : Upload := { u with queue := [] }
          if u.dp.thBlock.toInt = (u.block : Int) - 1 then u.sendAck convert else u
      else u

/-- `timer`: back to `send_ack`, or the end of the process. -/
def Upload.expire (convert : Bool) (u : Upload) : Upload :=
  let u := { u with timeout := u.timeout + rexmtval }
  if u.timeout ≥ maxtimeout then { u with status := .gone } else u.sendAck convert

/-- The alarm goes off in `recv`, or after it when it is `late`: the datagram is
in the buffer then, and nobody looks at it. -/
def Upload.timer (convert : Bool) (late : Bool) (u : Upload) : Upload :=
  match late, u.queue with
  | true, datagram :: queue => (u.fetch (recvInto u.dp datagram) queue).expire convert
  | _, _ => u.expire convert

inductive Event
  | arrive (datagram : List UInt8)
  | recv
  | timer (late : Bool)
  deriving DecidableEq

/-- A datagram comes in, or there is one turn of the inner loop. The loop is left
for good. -/
def step (convert : Bool) (u : Upload) : Event → Upload
  | .arrive datagram => { u with queue := u.queue ++ [datagram] }
  | .recv => if u.status = .running then u.recv convert else u
  | .timer late => if u.status = .running then u.timer convert late else u

def blank : Packet := ⟨0, 0, List.replicate SEGSIZE 0⟩

def init : Upload where
  b := ((rwInit false).set false ⟨BF_ALLOC, blank⟩).set true ⟨BF_FREE, blank⟩
  dst := ⟨none, [], 0⟩
  block := 0
  ack := 0
  timeout := 0
  queue := []
  sent := []
  accepted := []
  status := .running

def start (convert : Bool) : Upload := init.nextAck convert

def Upload.closingWait (u : Upload) (datagram : List UInt8) : List Packet :=
  if 4 ≤ recvSize datagram ∧ u.dp.thOpcode = DATA ∧ (u.block : Int) = u.dp.thBlock.toInt then
    [⟨ACK, u.ack, []⟩]
  else []

/-! ### The final acknowledgement -/

@[simp] theorem setDp_dp (u : Upload) (dp : Packet) : (u.setDp dp).dp = dp := by
  simp [Upload.setDp, Upload.dp]

def Upload.other (u : Upload) : Packet := (u.b.bfs (!u.b.current)).packet

@[simp] theorem fetch_dp (u : Upload) (dp : Packet) (queue : List (List UInt8)) :
    (u.fetch dp queue).dp = dp :=
  setDp_dp u dp

@[simp] theorem fetch_other (u : Upload) (dp : Packet) (queue : List (List UInt8)) :
    (u.fetch dp queue).other = u.other := by
  simp [Upload.fetch, Upload.setDp, Upload.other]

theorem sendAck_dp (convert : Bool) (u : Upload) : (u.sendAck convert).dp = u.dp := by
  change ((writeBehind convert u.b u.dst).1.bfs
    (writeBehind convert u.b u.dst).1.current).packet = _
  rw [writeBehind_current, writeBehind_packet]
  rfl

theorem sendAck_other (convert : Bool) (u : Upload) : (u.sendAck convert).other = u.other := by
  change ((writeBehind convert u.b u.dst).1.bfs
    (!(writeBehind convert u.b u.dst).1.current)).packet = _
  rw [writeBehind_current, writeBehind_packet]
  rfl

theorem finish_dp (convert : Bool) (u : Upload) : (u.finish convert).dp = u.dp :=
  sendAck_dp convert u

theorem accept_dp (convert : Bool) (u : Upload) (ct : Int) :
    (u.accept convert ct).dp = u.other := by
  change ((writeit convert u.b u.dst ct).1.bfs (writeit convert u.b u.dst ct).1.current).packet = _
  rw [writeit_current, writeit_packet]
  rfl

theorem accept_other (convert : Bool) (u : Upload) (ct : Int) :
    (u.accept convert ct).other = u.dp := by
  change ((writeit convert u.b u.dst ct).1.bfs
    (!(writeit convert u.b u.dst ct).1.current)).packet = _
  rw [writeit_current, writeit_packet, Bool.not_not]
  rfl

/-- A header that is of the block before `block` when it is of a block at all. -/
def Older (block : Nat) (dp : Packet) : Prop :=
  dp.thOpcode = DATA → dp.thBlock.toInt = (block : Int) - 1

/-- While a block is awaited, the buffer that is not in use holds the block before
it, or was never used. After the loop that buffer is the one that `dp` points to. -/
structure Rotated (u : Upload) : Prop where
  awaiting : u.status = .running → Older u.block u.other
  ended : u.status = .finished → Older u.block u.dp

theorem rotated_of_running {u : Upload} (run : u.status = .running) (old : Older u.block u.other) :
    Rotated u where
  awaiting _ := old
  ended stop := by
    rw [run] at stop
    cases stop

theorem rotated_of_gone {u : Upload} (gone : u.status = .gone) : Rotated u where
  awaiting run := by
    rw [gone] at run
    cases run
  ended stop := by
    rw [gone] at stop
    cases stop

theorem rotated_sendAck (convert : Bool) {u : Upload} (run : u.status = .running)
    (old : Older u.block u.other) : Rotated (u.sendAck convert) := by
  apply rotated_of_running
  · exact run
  · rw [sendAck_other]
    exact old

def Awaited (u : Upload) (dp : Packet) : Prop :=
  dp.thOpcode = DATA ∧ dp.thBlock.toInt = u.block

instance (u : Upload) (dp : Packet) : Decidable (Awaited u dp) :=
  inferInstanceAs (Decidable (_ ∧ _))

theorem recv_cons (convert : Bool) {u : Upload} {datagram : List UInt8}
    {queue : List (List UInt8)} (held : u.queue = datagram :: queue) :
    let dp := heard u.dp datagram
    let v := u.fetch dp queue
    let ct : Int := recvSize datagram - 4
    u.recv convert =
      if dp.thOpcode = ERROR then { v with status := .gone }
      else if dp.thOpcode = DATA then
        if dp.thBlock.toInt = u.block then
          if ct = SEGSIZE then (v.accept convert ct).nextAck convert
          else (v.accept convert ct).finish convert
        else if dp.thBlock.toInt = (u.block : Int) - 1 then
          Upload.sendAck convert { v with queue := [] }
        else { v with queue := [] }
      else v := by
  intro dp v ct
  have seen : v.dp = dp := fetch_dp u dp queue
  rw [← seen, Upload.recv, held]
  rfl

theorem recv_cases (convert : Bool) {u : Upload} {datagram : List UInt8}
    {queue : List (List UInt8)} (held : u.queue = datagram :: queue) :
    let dp := heard u.dp datagram
    let v := u.fetch dp queue
    let ct : Int := recvSize datagram - 4
    dp.thOpcode = ERROR ∧ u.recv convert = { v with status := .gone } ∨
      Awaited u dp ∧ ct = SEGSIZE ∧ u.recv convert = (v.accept convert ct).nextAck convert ∨
      Awaited u dp ∧ ct ≠ SEGSIZE ∧ u.recv convert = (v.accept convert ct).finish convert ∨
      dp.thOpcode = DATA ∧ ¬ Awaited u dp ∧
        (u.recv convert = Upload.sendAck convert { v with queue := [] } ∨
          u.recv convert = { v with queue := [] }) ∨
      dp.thOpcode ≠ ERROR ∧ dp.thOpcode ≠ DATA ∧ u.recv convert = v := by
  intro dp v ct
  have meaning := recv_cons convert held
  dsimp only at meaning
  by_cases error : dp.thOpcode = ERROR
  · rw [if_pos error] at meaning
    exact .inl ⟨error, meaning⟩
  rw [if_neg error] at meaning
  by_cases data : dp.thOpcode = DATA
  · rw [if_pos data] at meaning
    by_cases number : dp.thBlock.toInt = u.block
    · rw [if_pos number] at meaning
      by_cases full : ct = SEGSIZE
      · rw [if_pos full] at meaning
        exact .inr (.inl ⟨⟨data, number⟩, full, meaning⟩)
      · rw [if_neg full] at meaning
        exact .inr (.inr (.inl ⟨⟨data, number⟩, full, meaning⟩))
    · rw [if_neg number] at meaning
      refine .inr (.inr (.inr (.inl ⟨data, fun same => number same.2, ?_⟩)))
      split at meaning
      · exact .inl meaning
      · exact .inr meaning
  · rw [if_neg data] at meaning
    exact .inr (.inr (.inr (.inr ⟨error, data, meaning⟩)))

theorem recv_nil (convert : Bool) {u : Upload} (held : u.queue = []) : u.recv convert = u := by
  rw [Upload.recv, held]

theorem rotated_recv (convert : Bool) {u : Upload} (run : u.status = .running)
    (old : Older u.block u.other) : Rotated (u.recv convert) := by
  cases held : u.queue with
  | nil =>
      rw [recv_nil convert held]
      exact rotated_of_running run old
  | cons datagram queue =>
      have kept : Older u.block (u.fetch (heard u.dp datagram) queue).other := by
        rw [fetch_other]
        exact old
      obtain ⟨-, stop⟩ | ⟨awaited, -, more⟩ | ⟨-, -, last⟩ | ⟨-, -, ack | same⟩ | ⟨-, -, same⟩ :=
        recv_cases convert held
      · rw [stop]
        exact rotated_of_gone rfl
      · rw [more]
        refine rotated_sendAck convert run fun _ => ?_
        -- the block that was accepted is now the one before
        change ((u.fetch _ _).accept convert _).other.thBlock.toInt =
          ((u.block + 1 : Nat) : Int) - 1
        rw [accept_other, fetch_dp, awaited.2]
        omega
      · rw [last]
        constructor
        · intro again
          cases again
        · intro _
          rw [finish_dp, accept_dp]
          exact kept
      · rw [ack]
        exact rotated_sendAck convert run kept
      · rw [same]
        exact rotated_of_running run kept
      · rw [same]
        exact rotated_of_running run kept

theorem rotated_expire (convert : Bool) {u : Upload} (run : u.status = .running)
    (old : Older u.block u.other) : Rotated (u.expire convert) := by
  unfold Upload.expire
  dsimp only
  split
  · exact rotated_of_gone rfl
  · exact rotated_sendAck convert run old

theorem rotated_timer (convert : Bool) {u : Upload} (run : u.status = .running)
    (old : Older u.block u.other) (late : Bool) : Rotated (u.timer convert late) := by
  unfold Upload.timer
  split
  · rename_i datagram queue _
    refine rotated_expire convert (u := u.fetch (recvInto u.dp datagram) queue) run ?_
    rw [fetch_other]
    exact old
  · exact rotated_expire convert run old

theorem rotated_step (convert : Bool) (u : Upload) (event : Event) (h : Rotated u) :
    Rotated (step convert u event) := by
  cases event with
  | arrive datagram => exact ⟨h.awaiting, h.ended⟩
  | recv =>
      rw [step]
      split
      · rename_i run
        exact rotated_recv convert run (h.awaiting run)
      · exact h
  | timer late =>
      rw [step]
      split
      · rename_i run
        exact rotated_timer convert run (h.awaiting run) late
      · exact h

theorem rotated_start (convert : Bool) : Rotated (start convert) := by
  refine rotated_sendAck convert (u := { init with ack := 0, block := 1 }) rfl fun data => ?_
  exact absurd data (by decide)

theorem rotated_run (convert : Bool) (events : List Event) :
    Rotated (run (step convert) (start convert) events) :=
  run_invariant (rotated_step convert) (rotated_start convert) events

def dataDatagram (block : Nat) (content : List UInt8) : List UInt8 :=
  [0, UInt8.ofNat DATA, UInt8.ofNat (block / 256), UInt8.ofNat block] ++ content

def Retransmits (u : Upload) (datagram : List UInt8) : Prop :=
  ∃ content, content.length < SEGSIZE ∧ datagram = dataDatagram u.block content

structure AcknowledgesAgain (u : Upload) (datagram : List UInt8) : Prop where
  again : Retransmits u datagram → u.closingWait datagram = [⟨ACK, Int16.ofNat u.block, []⟩]
  otherwise : ¬ Retransmits u datagram → u.closingWait datagram = []

/-- Whatever led to the end of the loop, nothing is sent after it. -/
theorem closingWait_silent {u : Upload} (h : Rotated u) (ended : u.status = .finished)
    (datagram : List UInt8) : u.closingWait datagram = [] := by
  unfold Upload.closingWait
  rw [if_neg]
  rintro ⟨-, data, number⟩
  have old := h.ended ended data
  omega

/-- The final acknowledgement is right for every datagram but the one it is for. -/
theorem acknowledgesAgain_iff (convert : Bool) {events : List Event}
    (ended : (run (step convert) (start convert) events).status = .finished)
    (datagram : List UInt8) :
    AcknowledgesAgain (run (step convert) (start convert) events) datagram ↔
      ¬ Retransmits (run (step convert) (start convert) events) datagram := by
  have silent := closingWait_silent (rotated_run convert events) ended datagram
  constructor
  · intro right again
    have sent := right.again again
    rw [silent] at sent
    cases sent
  · intro other
    exact ⟨fun again => absurd again other, fun _ => silent⟩

theorem finalAck_lost :
    let u := run (step false) (start false) [.arrive (dataDatagram 1 [104, 105]), .recv]
    u.status = .finished ∧ ¬ AcknowledgesAgain u (dataDatagram 1 [104, 105]) := by
  intro u
  refine ⟨by decide +kernel, fun right => ?_⟩
  have sent := right.again ⟨[104, 105], by decide, rfl⟩
  have silent : u.closingWait (dataDatagram 1 [104, 105]) = [] := by decide +kernel
  rw [silent] at sent
  cases sent

theorem acknowledgesAgain_older :
    let full := dataDatagram 1 (List.replicate SEGSIZE 104)
    let u := run (step false) (start false) [.arrive full, .recv, .arrive full, .recv,
      .arrive (dataDatagram 2 [105]), .recv]
    AcknowledgesAgain u full ↔ ¬ Retransmits u full :=
  acknowledgesAgain_iff false (by decide +kernel) _

end Baseliner.TftpReceive
