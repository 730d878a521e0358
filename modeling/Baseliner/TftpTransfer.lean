import Baseliner.GuardedRuns
import Baseliner.TftpBuffers

/-! `sendfile` and `recvfile` of `tftpd` against each other, in octet mode. Each
side is stopped in its `recv`, with the datagrams that its socket holds. The
network remembers every datagram that was sent and may put any of them into the
other side's queue at any time: it loses, repeats, delays and reorders them.
Local reads and writes succeed. -/

namespace Baseliner.TftpTransfer

open GuardedRuns TftpBuffers

def DATA : Nat := 3
def ACK : Nat := 4
def ERROR : Nat := 5

def rexmtval : Nat := 5
def maxtimeout : Nat := 5 * rexmtval

/-- In the loop, after it, or given up. `recvfile` waits once more after its loop
before it is closed. -/
inductive Status
  | running
  | finished
  | closed
  | gone
  deriving DecidableEq, Repr

/-! ### `sendfile` -/

structure Sender where
  b : Buffers
  src : Source
  block : Nat
  timeout : Nat
  queue : List Packet
  status : Status

/-- At `send_data`: the block is sent and the next one read ahead. -/
def Sender.sendData (s : Sender) : Sender × List Packet :=
  let dp := (s.b.bfs s.b.current).packet
  let (b, src) := readAhead false s.b s.src
  ({ s with b := b, src := src }, [{ dp with thData := dp.thData.take s.b.size.toNat }])

/-- The top of the loop. The block number goes into a `short`. -/
def Sender.nextBlock (s : Sender) : Sender × List Packet :=
  let (b, src) := readit false s.b s.src
  let dp := { (b.bfs b.current).packet with thOpcode := DATA, thBlock := Int16.ofNat s.block }
  Sender.sendData { s with
    b := b.set b.current { b.bfs b.current with packet := dp }
    src := src
    timeout := 0 }

/-- A datagram is taken from the socket. An acknowledgement of another block
empties the socket, and that of the block before makes it send again. -/
def Sender.recv (s : Sender) : Sender × List Packet :=
  match s.queue with
  | [] => (s, [])
  | ap :: queue =>
      let s : Sender := { s with queue := queue }
      if ap.thOpcode = ERROR then ({ s with status := .gone }, [])
      else if ap.thOpcode = ACK then
        if ap.thBlock.toInt = s.block then
          let s : Sender := { s with block := s.block + 1 }
          if s.b.size = SEGSIZE then s.nextBlock else ({ s with status := .finished }, [])
        else
          let s : Sender := { s with queue := [] }
          if ap.thBlock.toInt = (s.block : Int) - 1 then s.sendData else (s, [])
      else (s, [])

/-- The alarm goes off in `recv`, or after it when it is `late`: the datagram that
was read is dropped then. -/
def Sender.timer (late : Bool) (s : Sender) : Sender × List Packet :=
  let s : Sender :=
    { s with queue := s.queue.drop late.toNat, timeout := s.timeout + rexmtval }
  if s.timeout ≥ maxtimeout then ({ s with status := .gone }, []) else s.sendData

def sendfile (content : List UInt8) : Sender × List Packet :=
  Sender.nextBlock ⟨rwInit true, ⟨false, none, content⟩, 1, 0, [], .running⟩

/-! ### `recvfile` -/

/-- `ack` is the block number in `ackbuf`. -/
structure Receiver where
  b : Buffers
  dst : Sink
  block : Nat
  ack : Int16
  timeout : Nat
  queue : List Packet
  status : Status

/-- At `send_ack`: the last block is acknowledged and then written. -/
def Receiver.sendAck (r : Receiver) : Receiver × List Packet :=
  let (b, dst) := writeBehind false r.b r.dst
  ({ r with b := b, dst := dst }, [⟨ACK, r.ack, []⟩])

def Receiver.nextAck (r : Receiver) : Receiver × List Packet :=
  Receiver.sendAck { r with timeout := 0, ack := Int16.ofNat r.block, block := r.block + 1 }

def Receiver.finish (r : Receiver) : Receiver × List Packet :=
  let (b, dst) := writeBehind false r.b r.dst
  ({ r with b := b, dst := dst, ack := Int16.ofNat r.block, status := .finished },
    [⟨ACK, Int16.ofNat r.block, []⟩])

/-- The last `recv` reads into another buffer than the one that is looked at. -/
def Receiver.dally (r : Receiver) : Receiver × List Packet :=
  let dp := (r.b.bfs r.b.current).packet
  ({ r with status := .closed },
    if dp.thOpcode = DATA ∧ (r.block : Int) = dp.thBlock.toInt then [⟨ACK, r.ack, []⟩] else [])

/-- A datagram is read into the buffer in use, as far as it fits. -/
def Receiver.fetch (r : Receiver) (p : Packet) (queue : List Packet) : Receiver :=
  let dp := { p with thData := p.thData.take SEGSIZE }
  { r with
    queue := queue
    b := r.b.set r.b.current { r.b.bfs r.b.current with packet := dp } }

def Receiver.recv (r : Receiver) : Receiver × List Packet :=
  match r.queue with
  | [] => (r, [])
  | p :: queue =>
      let r := r.fetch p queue
      let dp := (r.b.bfs r.b.current).packet
      if dp.thOpcode = ERROR then ({ r with status := .gone }, [])
      else if dp.thOpcode = DATA then
        if dp.thBlock.toInt = r.block then
          let (b, dst) := writeit false r.b r.dst dp.thData.length
          let r : Receiver := { r with b := b, dst := dst }
          if dp.thData.length = SEGSIZE then r.nextAck else r.finish
        else
          let r : Receiver := { r with queue := [] }
          if dp.thBlock.toInt = (r.block : Int) - 1 then r.sendAck else (r, [])
      else (r, [])

def Receiver.timer (late : Bool) (r : Receiver) : Receiver × List Packet :=
  let r : Receiver :=
    match late, r.queue with
    | true, p :: queue => r.fetch p queue
    | _, _ => r
  let r : Receiver := { r with timeout := r.timeout + rexmtval }
  if r.timeout ≥ maxtimeout then ({ r with status := .gone }, []) else r.sendAck

def recvfile : Receiver × List Packet :=
  Receiver.nextAck ⟨rwInit false, ⟨none, [], 0⟩, 0, 0, 0, [], .running⟩

/-! ### The two sides and the network -/

/-- `data` and `acks` are all the datagrams that were sent, each way. -/
structure World where
  sender : Sender
  receiver : Receiver
  data : List Packet
  acks : List Packet

inductive Event
  | deliverData (i : Nat)
  | deliverAck (i : Nat)
  | senderRecv
  | senderTimer (late : Bool)
  | receiverRecv
  | receiverTimer (late : Bool)

def World.sends (w : World) (turn : Sender × List Packet) : World :=
  { w with sender := turn.1, data := w.data ++ turn.2 }

def World.receives (w : World) (turn : Receiver × List Packet) : World :=
  { w with receiver := turn.1, acks := w.acks ++ turn.2 }

def step (w : World) : Event → World
  | .deliverData i =>
      let queue := w.receiver.queue ++ w.data[i]?.toList
      { w with receiver := { w.receiver with queue := queue } }
  | .deliverAck i =>
      let queue := w.sender.queue ++ w.acks[i]?.toList
      { w with sender := { w.sender with queue := queue } }
  | .senderRecv => if w.sender.status = .running then w.sends w.sender.recv else w
  | .senderTimer late =>
      if w.sender.status = .running then w.sends (w.sender.timer late) else w
  | .receiverRecv =>
      match w.receiver.status, w.receiver.queue with
      | .running, _ => w.receives w.receiver.recv
      | .finished, _ :: queue =>
          w.receives (Receiver.dally { w.receiver with queue := queue })
      | _, _ => w
  | .receiverTimer late =>
      match w.receiver.status with
      | .running => w.receives (w.receiver.timer late)
      | .finished => { w with receiver := { w.receiver with status := .closed } }
      | _ => w

def start (content : List UInt8) : World where
  sender := (sendfile content).1
  receiver := recvfile.1
  data := (sendfile content).2
  acks := recvfile.2

/-! ### The blocks of the file -/

def blockOf (content : List UInt8) (k : Nat) : List UInt8 :=
  (content.drop (SEGSIZE * (k - 1))).take SEGSIZE

/-- How many blocks there are, with the short one at the end. -/
def blockCount (content : List UInt8) : Nat := content.length / SEGSIZE + 1

/-- The datagram of block `k`. -/
def dataPacket (content : List UInt8) (k : Nat) : Packet :=
  ⟨DATA, Int16.ofNat k, blockOf content k⟩

def IsBlock (content : List UInt8) (p : Packet) : Prop :=
  ∃ k, 1 ≤ k ∧ k ≤ blockCount content ∧ p = dataPacket content k

theorem length_blockOf_le (content : List UInt8) (k : Nat) :
    (blockOf content k).length ≤ SEGSIZE :=
  List.length_take_le _ _

theorem take_append_blockOf (content : List UInt8) {k : Nat} (low : 1 ≤ k) :
    content.take (SEGSIZE * (k - 1)) ++ blockOf content k = content.take (SEGSIZE * k) := by
  have sum : SEGSIZE * k = SEGSIZE * (k - 1) + SEGSIZE := by
    unfold SEGSIZE
    omega
  rw [sum, List.take_add]
  rfl

theorem length_blockOf_eq_iff (content : List UInt8) {k : Nat} (low : 1 ≤ k) :
    (blockOf content k).length = SEGSIZE ↔ SEGSIZE * k ≤ content.length := by
  unfold blockOf
  rw [List.length_take, List.length_drop]
  unfold SEGSIZE
  omega

/-! ### The sender -/

structure Sending (content : List UInt8) (s : Sender) : Prop where
  low : 1 ≤ s.block
  high : s.block ≤ blockCount content
  packet : (s.b.bfs s.b.current).packet = dataPacket content s.block
  size : s.b.size = (blockOf content s.block).length
  reading : Reading false s.b s.src (content.drop (SEGSIZE * s.block))

theorem Sending.sendData {content : List UInt8} {s : Sender} (h : Sending content s) :
    Sending content s.sendData.1 ∧ s.sendData.2 = [dataPacket content s.block] := by
  obtain ⟨reading, current, kept⟩ := h.reading.readAhead
  have buffer : s.sendData.1.b.bfs s.sendData.1.b.current = s.b.bfs s.b.current := by
    change (readAhead false s.b s.src).1.bfs (readAhead false s.b s.src).1.current = _
    rw [current, kept]
  constructor
  · exact {
      low := h.low
      high := h.high
      packet := by rw [buffer]; exact h.packet
      size := by
        unfold Buffers.size
        rw [buffer]
        exact h.size
      reading := reading }
  · change [{ (s.b.bfs s.b.current).packet with
      thData := (s.b.bfs s.b.current).packet.thData.take s.b.size.toNat }] = _
    rw [h.packet, h.size, Int.toNat_natCast]
    simp only [dataPacket, List.take_length]

theorem sending_nextBlock {content : List UInt8} {s : Sender} (low : 1 ≤ s.block)
    (high : s.block ≤ blockCount content)
    (reading : Reading false s.b s.src (content.drop (SEGSIZE * (s.block - 1)))) :
    Sending content s.nextBlock.1 ∧ s.nextBlock.2 = [dataPacket content s.block] := by
  obtain ⟨ahead, size, data⟩ := reading.readit
  rw [List.drop_drop] at ahead
  have more : SEGSIZE * (s.block - 1) + SEGSIZE = SEGSIZE * s.block := by
    unfold SEGSIZE
    omega
  rw [more] at ahead
  unfold Sender.nextBlock
  generalize readit false s.b s.src = result at ahead size data ⊢
  obtain ⟨b, src⟩ := result
  dsimp only at ahead size data ⊢
  apply Sending.sendData
  exact {
    low := low
    high := high
    packet := by
      simp only [set_current, set_bfs_self, data]
      rfl
    size := by
      unfold Buffers.size at size ⊢
      rw [set_current, set_bfs_self]
      exact size
    reading := ahead.set _ }

def Sends (content : List UInt8) (turn : Sender × List Packet) : Prop :=
  (turn.1.status = .running → Sending content turn.1) ∧ ∀ p ∈ turn.2, IsBlock content p

theorem Sending.isBlock {content : List UInt8} {s : Sender} (h : Sending content s) :
    IsBlock content (dataPacket content s.block) :=
  ⟨s.block, h.low, h.high, rfl⟩

theorem sends_nothing {content : List UInt8} {s : Sender}
    (h : s.status = .running → Sending content s) : Sends content (s, []) := by
  refine ⟨h, fun p mem => ?_⟩
  exact absurd mem List.not_mem_nil

theorem Sending.sends_sendData {content : List UInt8} {s : Sender} (h : Sending content s) :
    Sends content s.sendData := by
  obtain ⟨sending, sent⟩ := h.sendData
  refine ⟨fun _ => sending, fun p mem => ?_⟩
  rw [sent, List.mem_singleton] at mem
  rw [mem]
  exact h.isBlock

theorem Sending.queued {content : List UInt8} {s : Sender} (h : Sending content s)
    (queue : List Packet) (timeout : Nat) :
    Sending content { s with queue := queue, timeout := timeout } :=
  ⟨h.low, h.high, h.packet, h.size, h.reading⟩

theorem Sending.recv {content : List UInt8} {s : Sender} (h : Sending content s) :
    Sends content s.recv := by
  unfold Sender.recv
  cases s.queue with
  | nil => exact sends_nothing fun _ => h
  | cons ap queue =>
      have taken := h.queued queue s.timeout
      dsimp only
      split
      · exact sends_nothing fun run => absurd run (by simp)
      · split
        · split
          · split
            · rename_i full
              have size : (blockOf content s.block).length = SEGSIZE := by
                have here := h.size
                rw [full] at here
                exact_mod_cast here.symm
              have more := (length_blockOf_eq_iff content h.low).mp size
              have high : s.block + 1 ≤ blockCount content := by
                unfold blockCount SEGSIZE at *
                omega
              obtain ⟨sending, sent⟩ := sending_nextBlock
                (s := { s with queue := queue, block := s.block + 1 }) (Nat.le_add_left 1 _) high
                h.reading
              refine ⟨fun _ => sending, fun p mem => ?_⟩
              rw [sent, List.mem_singleton] at mem
              exact ⟨s.block + 1, Nat.le_add_left 1 _, high, mem⟩
            · exact sends_nothing fun run => absurd run (by simp)
          · split
            · exact (taken.queued [] s.timeout).sends_sendData
            · exact sends_nothing fun _ => taken.queued [] s.timeout
        · exact sends_nothing fun _ => taken

theorem Sending.timer {content : List UInt8} {s : Sender} (h : Sending content s) (late : Bool) :
    Sends content (s.timer late) := by
  unfold Sender.timer
  dsimp only
  split
  · exact sends_nothing fun run => absurd run (by simp)
  · exact (h.queued _ _).sends_sendData

theorem sends_sendfile (content : List UInt8) : Sends content (sendfile content) := by
  have count : 1 ≤ blockCount content := Nat.le_add_left 1 _
  obtain ⟨sending, sent⟩ := sending_nextBlock
    (s := ⟨rwInit true, ⟨false, none, content⟩, 1, 0, [], .running⟩) (Nat.le_refl 1) count
    (reading_rwInit false content)
  refine ⟨fun _ => sending, fun p mem => ?_⟩
  change p ∈ (Sender.nextBlock _).2 at mem
  rw [sent, List.mem_singleton] at mem
  exact ⟨1, Nat.le_refl 1, count, mem⟩

/-! ### The receiver -/

/-- The blocks before the one that is awaited have been passed on. -/
structure Receiving (content : List UInt8) (r : Receiver) : Prop where
  low : 1 ≤ r.block
  full : SEGSIZE * (r.block - 1) ≤ content.length
  writing : Writing false r.b r.dst (content.take (SEGSIZE * (r.block - 1)))

structure Received (content : List UInt8) (r : Receiver) : Prop where
  running : r.status = .running → Receiving content r
  part : r.dst.file.bytes <+: content
  whole : r.status = .finished ∨ r.status = .closed → r.dst.file.bytes = content

theorem bytes_of_writing {b : Buffers} {dst : Sink} {passed content : List UInt8}
    (h : Writing false b dst passed) (cut : passed <+: content) :
    dst.file.bytes <+: content := by
  obtain ⟨flushed, first, file⟩ := h.exists_flushed
  rw [file, received_octet]
  exact first.trans cut

theorem Receiving.received {content : List UInt8} {r : Receiver} (h : Receiving content r)
    (run : r.status = .running ∨ r.status = .gone) : Received content r where
  running _ := h
  part := bytes_of_writing h.writing (List.take_prefix _ _)
  whole ended := by
    rcases run with run | run
    · rw [run] at ended
      exact absurd ended (by simp)
    · rw [run] at ended
      exact absurd ended (by simp)

theorem Receiving.sendAck {content : List UInt8} {r : Receiver} (h : Receiving content r) :
    Receiving content r.sendAck.1 :=
  ⟨h.low, h.full, h.writing.writeBehind.1⟩

theorem Receiving.fetch {content : List UInt8} {r : Receiver} (h : Receiving content r)
    (p : Packet) (queue : List Packet) : Receiving content (r.fetch p queue) :=
  ⟨h.low, h.full, h.writing.set _⟩

theorem Receiving.writeit {content : List UInt8} {r : Receiver} (h : Receiving content r)
    (packet : (r.b.bfs r.b.current).packet.thData = blockOf content r.block) :
    Writing false (writeit false r.b r.dst (blockOf content r.block).length).1
      (writeit false r.b r.dst (blockOf content r.block).length).2
      (content.take (SEGSIZE * r.block)) := by
  rw [← take_append_blockOf content h.low]
  exact h.writing.writeit packet

theorem receiving_nextAck {content : List UInt8} {r : Receiver}
    (full : SEGSIZE * r.block ≤ content.length)
    (writing : Writing false r.b r.dst (content.take (SEGSIZE * r.block))) :
    Receiving content r.nextAck.1 := by
  apply Receiving.sendAck
  exact ⟨Nat.le_add_left 1 _, full, writing⟩

theorem received_finish {content : List UInt8} {r : Receiver}
    (writing : Writing false r.b r.dst content) : Received content r.finish.1 := by
  have bytes : r.finish.1.dst.file.bytes = content := by
    change (writeBehind false r.b r.dst).2.file.bytes = content
    rw [writing.writeBehind.2, received_octet]
  refine ⟨fun run => ?_, ⟨[], ?_⟩, fun _ => bytes⟩
  · exact absurd run (by simp [Receiver.finish])
  · rw [List.append_nil, bytes]

/-- The receiver after `writeit` of what it has in its buffer. -/
def Receiver.passed (r : Receiver) (count : Nat) : Receiver :=
  { r with
    b := (TftpBuffers.writeit false r.b r.dst count).1
    dst := (TftpBuffers.writeit false r.b r.dst count).2 }

theorem fetch_packet (r : Receiver) (content : List UInt8) (k : Nat) (rest : List Packet) :
    ((r.fetch (dataPacket content k) rest).b.bfs
      (r.fetch (dataPacket content k) rest).b.current).packet = dataPacket content k := by
  have fits : (blockOf content k).take SEGSIZE = blockOf content k :=
    List.take_of_length_le (length_blockOf_le content k)
  simp only [Receiver.fetch, set_current, set_bfs_self, dataPacket, fits]

theorem recv_cons {r : Receiver} {p : Packet} {rest : List Packet} (held : r.queue = p :: rest) :
    let v := r.fetch p rest
    let count := (p.thData.take SEGSIZE).length
    r.recv =
      if p.thOpcode = ERROR then ({ v with status := .gone }, [])
      else if p.thOpcode = DATA then
        if p.thBlock.toInt = r.block then
          if count = SEGSIZE then (v.passed count).nextAck else (v.passed count).finish
        else if p.thBlock.toInt = (r.block : Int) - 1 then Receiver.sendAck { v with queue := [] }
        else ({ v with queue := [] }, [])
      else (v, []) := by
  intro v count
  have seen : (v.b.bfs v.b.current).packet = { p with thData := p.thData.take SEGSIZE } := by
    simp only [v, Receiver.fetch, set_current, set_bfs_self]
  unfold Receiver.recv
  rw [held]
  dsimp only
  rw [seen]
  rfl

theorem recv_dataPacket {r : Receiver} {content : List UInt8} {k : Nat} {rest : List Packet}
    (held : r.queue = dataPacket content k :: rest) :
    r.recv =
      if (Int16.ofNat k).toInt = r.block then
        if (blockOf content k).length = SEGSIZE then
          ((r.fetch (dataPacket content k) rest).passed (blockOf content k).length).nextAck
        else ((r.fetch (dataPacket content k) rest).passed (blockOf content k).length).finish
      else if (Int16.ofNat k).toInt = (r.block : Int) - 1 then
        Receiver.sendAck { r.fetch (dataPacket content k) rest with queue := [] }
      else ({ r.fetch (dataPacket content k) rest with queue := [] }, []) := by
  have fits : (dataPacket content k).thData.take SEGSIZE = blockOf content k :=
    List.take_of_length_le (length_blockOf_le content k)
  have other : (dataPacket content k).thOpcode ≠ ERROR := by
    change DATA ≠ ERROR
    decide
  have data : (dataPacket content k).thOpcode = DATA := rfl
  have turn := recv_cons held
  rw [fits] at turn
  dsimp only at turn
  rw [if_neg other, if_pos data] at turn
  exact turn

theorem Receiving.passed {content : List UInt8} {r : Receiver} (h : Receiving content r) {k : Nat}
    (block : r.block = k) (rest : List Packet) :
    Writing false ((r.fetch (dataPacket content k) rest).passed (blockOf content k).length).b
      ((r.fetch (dataPacket content k) rest).passed (blockOf content k).length).dst
      (content.take (SEGSIZE * k)) := by
  subst block
  exact (h.fetch _ rest).writeit (congrArg Packet.thData (fetch_packet r content r.block rest))

theorem Receiving.passed_nextAck {content : List UInt8} {r : Receiver} (h : Receiving content r)
    {k : Nat} (block : r.block = k) (rest : List Packet)
    (full : SEGSIZE * k ≤ content.length) :
    Receiving content
      ((r.fetch (dataPacket content k) rest).passed (blockOf content k).length).nextAck.1 := by
  have writing := h.passed block rest
  subst block
  exact receiving_nextAck full writing

theorem Receiving.passed_finish {content : List UInt8} {r : Receiver} (h : Receiving content r)
    {k : Nat} (block : r.block = k) (rest : List Packet)
    (last : content.length ≤ SEGSIZE * k) :
    Received content
      ((r.fetch (dataPacket content k) rest).passed (blockOf content k).length).finish.1 := by
  have writing := h.passed block rest
  rw [List.take_of_length_le last] at writing
  exact received_finish writing

theorem Receiving.recv {content : List UInt8} (few : blockCount content < 32767) {r : Receiver}
    (h : Receiving content r) (run : r.status = .running)
    (queue : ∀ p ∈ r.queue, IsBlock content p) : Received content r.recv.1 := by
  cases held : r.queue with
  | nil =>
      unfold Receiver.recv
      rw [held]
      exact h.received (Or.inl run)
  | cons p rest =>
      obtain ⟨k, low, high, rfl⟩ := queue p (by rw [held]; exact List.mem_cons_self)
      have number : (Int16.ofNat k).toInt = k := Int16.toInt_ofNat_of_lt (by omega)
      have fetched := h.fetch (dataPacket content k) rest
      have flushed : Receiving content { r.fetch (dataPacket content k) rest with queue := [] } :=
        ⟨fetched.low, fetched.full, fetched.writing⟩
      rw [recv_dataPacket held, number]
      split
      · rename_i awaited
        have same : k = r.block := Int.ofNat.inj awaited
        subst same
        split
        · rename_i size
          have full := (length_blockOf_eq_iff content h.low).mp size
          exact (h.passed_nextAck rfl rest full).received (Or.inl run)
        · rename_i size
          have short := mt (length_blockOf_eq_iff content h.low).mpr size
          exact h.passed_finish rfl rest (by omega)
      · split
        · exact flushed.sendAck.received (Or.inl run)
        · exact flushed.received (Or.inl run)

/-- Whenever the alarm goes off, nothing is lost but the datagram. -/
theorem Receiving.timer {content : List UInt8} {r : Receiver} (h : Receiving content r)
    (run : r.status = .running) (late : Bool) : Received content (r.timer late).1 := by
  have dropped : ∀ r : Receiver, Receiving content r → r.status = .running →
      Received content (if r.timeout + rexmtval ≥ maxtimeout then
        ({ r with timeout := r.timeout + rexmtval, status := .gone }, [])
        else Receiver.sendAck { r with timeout := r.timeout + rexmtval }).1 := by
    intro r h run
    have later : Receiving content { r with timeout := r.timeout + rexmtval } :=
      ⟨h.low, h.full, h.writing⟩
    split
    · have gone : Receiving content
          { r with timeout := r.timeout + rexmtval, status := .gone } :=
        ⟨h.low, h.full, h.writing⟩
      exact gone.received (Or.inr rfl)
    · exact later.sendAck.received (Or.inl run)
  unfold Receiver.timer
  cases late with
  | false => exact dropped r h run
  | true =>
      cases r.queue with
      | nil => exact dropped r h run
      | cons p queue => exact dropped _ (h.fetch p queue) run

theorem recv_queue (r : Receiver) : r.recv.1.queue ⊆ r.queue := by
  unfold Receiver.recv
  cases held : r.queue with
  | nil =>
      dsimp only
      rw [held]
      exact List.Subset.refl []
  | cons p rest =>
      have later : rest ⊆ p :: rest := List.subset_cons_self p rest
      have none : [] ⊆ p :: rest := List.nil_subset _
      dsimp only
      split
      · exact later
      · split
        · split
          · split
            · exact later
            · exact later
          · split
            · exact none
            · exact none
        · exact later

theorem timer_queue (r : Receiver) (late : Bool) : (r.timer late).1.queue ⊆ r.queue := by
  have dropped : ∀ r : Receiver, (if r.timeout + rexmtval ≥ maxtimeout then
      ({ r with timeout := r.timeout + rexmtval, status := .gone }, [])
      else Receiver.sendAck { r with timeout := r.timeout + rexmtval }).1.queue = r.queue := by
    intro r
    split
    · rfl
    · rfl
  unfold Receiver.timer
  cases late with
  | false =>
      dsimp only
      rw [dropped]
      exact List.Subset.refl _
  | true =>
      cases held : r.queue with
      | nil =>
          dsimp only
          rw [dropped, held]
          exact List.Subset.refl _
      | cons p rest =>
          dsimp only
          rw [dropped]
          exact List.subset_cons_self p rest

theorem received_recvfile (content : List UInt8) : Received content recvfile.1 := by
  have start : Receiving content recvfile.1 := by
    apply receiving_nextAck
    · exact Nat.zero_le _
    · exact writing_rwInit false
  exact start.received (Or.inl rfl)

/-! ### Any schedule -/

/-- Only blocks of the file are on their way to the receiver. -/
structure Loaded (content : List UInt8) (w : World) : Prop where
  sender : w.sender.status = .running → Sending content w.sender
  data : ∀ p ∈ w.data, IsBlock content p
  queue : ∀ p ∈ w.receiver.queue, IsBlock content p

theorem Loaded.sends {content : List UInt8} {w : World} (h : Loaded content w)
    {turn : Sender × List Packet} (sends : Sends content turn) : Loaded content (w.sends turn) where
  sender := sends.1
  data p mem := by
    rcases List.mem_append.mp mem with old | new
    · exact h.data p old
    · exact sends.2 p new
  queue := h.queue

theorem Loaded.receives {content : List UInt8} {w : World} (h : Loaded content w)
    {turn : Receiver × List Packet} (queue : turn.1.queue ⊆ w.receiver.queue) :
    Loaded content (w.receives turn) :=
  ⟨h.sender, h.data, fun p mem => h.queue p (queue mem)⟩

theorem loaded_step {content : List UInt8} (w : World) (event : Event) (h : Loaded content w) :
    Loaded content (step w event) := by
  cases event with
  | deliverData i =>
      refine ⟨h.sender, h.data, fun p mem => ?_⟩
      rcases List.mem_append.mp mem with old | new
      · exact h.queue p old
      · rw [Option.mem_toList] at new
        exact h.data p (List.mem_of_getElem? new)
  | deliverAck i => exact ⟨fun run => (h.sender run).queued _ _, h.data, h.queue⟩
  | senderRecv =>
      rw [step]
      split
      · rename_i run
        exact h.sends (h.sender run).recv
      · exact h
  | senderTimer late =>
      rw [step]
      split
      · rename_i run
        exact h.sends ((h.sender run).timer late)
      · exact h
  | receiverRecv =>
      rw [step.eq_def]
      dsimp only
      split
      · exact h.receives (recv_queue _)
      · rename_i queue
        refine h.receives ?_
        rw [queue]
        exact List.subset_cons_self _ _
      · exact h
  | receiverTimer late =>
      rw [step.eq_def]
      dsimp only
      split
      · exact h.receives (timer_queue _ late)
      · exact ⟨h.sender, h.data, h.queue⟩
      · exact h

theorem loaded_start (content : List UInt8) : Loaded content (start content) where
  sender := (sends_sendfile content).1
  data := (sends_sendfile content).2
  queue _ mem := absurd mem List.not_mem_nil

structure Safe (content : List UInt8) (w : World) : Prop where
  loaded : Loaded content w
  receiver : Received content w.receiver

theorem received_step {content : List UInt8} (few : blockCount content < 32767) {w : World}
    (event : Event) (h : Safe content w) : Received content (step w event).receiver := by
  cases event with
  | deliverData i =>
      exact ⟨fun run => ⟨(h.receiver.running run).low, (h.receiver.running run).full,
        (h.receiver.running run).writing⟩, h.receiver.part, h.receiver.whole⟩
  | deliverAck i => exact h.receiver
  | senderRecv =>
      rw [step]
      split <;> exact h.receiver
  | senderTimer late =>
      rw [step]
      split <;> exact h.receiver
  | receiverRecv =>
      rw [step.eq_def]
      dsimp only
      split
      · rename_i run
        exact (h.receiver.running run).recv few run h.loaded.queue
      · rename_i ended _
        exact ⟨fun run => absurd run (by simp [World.receives, Receiver.dally]), h.receiver.part,
          fun _ => h.receiver.whole (Or.inl ended)⟩
      · exact h.receiver
  | receiverTimer late =>
      rw [step.eq_def]
      dsimp only
      split
      · rename_i run
        exact (h.receiver.running run).timer run late
      · rename_i ended
        exact ⟨fun run => absurd run (by simp), h.receiver.part,
          fun _ => h.receiver.whole (Or.inl ended)⟩
      · exact h.receiver

/-- Whatever the network and the timers do, the file has a part of the content,
and all of it once the loop was left. -/
theorem transfer_safe {content : List UInt8} (few : blockCount content < 32767)
    (events : List Event) :
    let r := (run step (start content) events).receiver
    r.dst.file.bytes <+: content ∧
      (r.status = .finished ∨ r.status = .closed → r.dst.file.bytes = content) := by
  have safe := run_invariant (I := Safe content)
    (fun w event h => ⟨loaded_step w event h.loaded, received_step few event h⟩)
    ⟨loaded_start content, received_recvfile content⟩ events
  exact ⟨safe.receiver.part, safe.receiver.whole⟩

theorem transfer_safe_two :
    let r := (run step (start [104, 105]) [.deliverData 0, .receiverRecv]).receiver
    r.status = .finished ∧ r.dst.file.bytes <+: [104, 105] ∧ r.dst.file.bytes = [104, 105] := by
  have few : blockCount [104, 105] < 32767 := by decide
  have safe := transfer_safe few [.deliverData 0, .receiverRecv]
  refine ⟨by decide, safe.1, safe.2 (Or.inl (by decide))⟩

end Baseliner.TftpTransfer
