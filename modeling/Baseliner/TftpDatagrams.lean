import Baseliner.TftpShortDatagrams

/-! The receiver of a transfer, which hears packets, and an upload, which reads bytes. On the
datagrams that `sendfile` sends they take the same turns, so what is proved of the packets of a
transfer holds of its bytes. -/

namespace Baseliner.TftpDatagrams

open ByteOrder GuardedRuns TftpBuffers TftpReceive TftpShortDatagrams
open TftpTransfer (DATA ACK rexmtval maxtimeout Receiver World Loaded)

/-- A packet as it is sent. -/
def datagram (p : Packet) : List UInt8 :=
  stored .big (UInt16.ofNat p.thOpcode) ++ stored .big p.thBlock.toUInt16 ++ p.thData

/-! ### Reading a datagram -/

theorem recvSize_datagram (p : Packet) :
    recvSize (datagram p) = 4 + (p.thData.take SEGSIZE).length := by
  simp only [recvSize, datagram, List.length_append, stored_length, List.length_take, PKTSIZE]
  omega

theorem take_datagram (p : Packet) :
    (datagram p).take PKTSIZE =
      stored .big (UInt16.ofNat p.thOpcode) ++ stored .big p.thBlock.toUInt16 ++
        p.thData.take SEGSIZE := by
  have header : (stored .big (UInt16.ofNat p.thOpcode) ++ stored .big p.thBlock.toUInt16).length =
      4 := by rw [List.length_append, stored_length, stored_length]
  have room : PKTSIZE - 4 = SEGSIZE := rfl
  rw [datagram, List.take_append, header, room, List.take_of_length_le (by rw [header]; decide)]

theorem heard_datagram (dp : Packet) {p : Packet} (opcode : p.thOpcode < 65536) :
    (heard dp (datagram p)).thOpcode = p.thOpcode ∧
      (heard dp (datagram p)).thBlock = p.thBlock ∧
      (heard dp (datagram p)).thData.take (p.thData.take SEGSIZE).length =
        p.thData.take SEGSIZE := by
  obtain ⟨a, b, first, type⟩ := stored_eq .big (UInt16.ofNat p.thOpcode)
  obtain ⟨c, d, second, number⟩ := stored_eq .big p.thBlock.toUInt16
  have four : 4 ≤ (datagram p).length := by
    simp only [datagram, List.length_append, stored_length]
    omega
  obtain ⟨op, block, data⟩ := recvInto_long four dp
  have size := recvSize_datagram p
  rw [take_datagram, first, second] at op block data
  refine ⟨?_, ?_, ?_⟩
  · change (ntohs (UInt16.ofNat (recvInto dp (datagram p)).thOpcode)).toNat = p.thOpcode
    rw [op]
    change (ntohs (UInt16.ofNat (load .little a b).toNat)).toNat = p.thOpcode
    rw [UInt16.ofNat_toNat, ntohs_load, type, UInt16.toNat_ofNat']
    omega
  · change (ntohs (recvInto dp (datagram p)).thBlock.toUInt16).toInt16 = p.thBlock
    rw [block]
    change (ntohs (load .little c d)).toInt16 = p.thBlock
    rw [ntohs_load, number]
    rfl
  · rw [show recvSize (datagram p) - 4 = (p.thData.take SEGSIZE).length by omega] at data
    exact data

/-! ### The two receivers -/

def header (dp : Packet) : ℕ × Int16 := (dp.thOpcode, dp.thBlock)

def behind (b : Buffers) : Packet := (b.bfs (!b.current)).packet

/-- The receivers agree on all but the bytes of the buffers, which matter only behind the loop:
there `dp` points to the buffer that was not in use. -/
structure Same (r : Receiver) (u : Upload) : Prop where
  dst : u.dst = r.dst
  block : u.block = r.block
  ack : u.ack = r.ack
  timeout : u.timeout = r.timeout
  status : u.status = r.status
  stays : r.status ≠ .closed
  queue : u.queue = r.queue.map datagram
  settled : r.status = .running →
    Settled r.b ∧ Settled u.b ∧ header (behind u.b) = header (behind r.b)
  ended : r.status = .finished → header u.dp = header (r.b.bfs r.b.current).packet

section Turns

variable {r : Receiver} {u : Upload}

theorem Same.running (h : Same r u) (run : r.status = .running) : u.status = .running :=
  h.status.trans run

theorem Same.fetch (h : Same r u) (run : r.status = .running) (p : Packet) (rest : List Packet)
    (dp : Packet) : Same (r.fetch p rest) (u.fetch dp (rest.map datagram)) := by
  obtain ⟨first, second, other⟩ := h.settled run
  refine ⟨h.dst, h.block, h.ack, h.timeout, h.status, h.stays, rfl,
    fun _ => ⟨first.load _, second.load _, ?_⟩,
    fun ended => absurd (run.symm.trans ended) (by simp)⟩
  simpa [behind, Receiver.fetch, Upload.fetch, Upload.setDp] using other

theorem Same.gone (h : Same r u) : Same { r with status := .gone } { u with status := .gone } :=
  ⟨h.dst, h.block, h.ack, h.timeout, rfl, nofun, h.queue, nofun, nofun⟩

theorem Same.emptied (h : Same r u) (run : r.status = .running) :
    Same { r with queue := [] } { u with queue := [] } :=
  ⟨h.dst, h.block, h.ack, h.timeout, h.status, h.stays, rfl, h.settled,
    fun ended => absurd (run.symm.trans ended) (by simp)⟩

theorem Same.sendAck (h : Same r u) (run : r.status = .running) :
    Same r.sendAck.1 (u.sendAck false) ∧ (u.sendAck false).sent = u.sent ++ r.sendAck.2 := by
  obtain ⟨first, second, other⟩ := h.settled run
  unfold TftpTransfer.Receiver.sendAck Upload.sendAck
  rw [first.writeBehind, second.writeBehind]
  dsimp only
  rw [h.ack]
  exact ⟨⟨h.dst, h.block, rfl, h.timeout, h.status, h.stays, h.queue, h.settled, h.ended⟩, rfl⟩

theorem writeit_behind (b : Buffers) (dst : Sink) (ct : Int) :
    behind (writeit false b dst ct).1 = (b.bfs b.current).packet := by
  rw [behind, writeit_current, writeit_packet, Bool.not_not]

theorem writeBehind_behind (b : Buffers) (dst : Sink) :
    behind (writeBehind false b dst).1 = behind b := by
  rw [behind, writeBehind_current, writeBehind_packet, behind]

/-- A block is passed on by both with the same data, and its header is left behind. -/
theorem Same.passed (h : Same r u) (run : r.status = .running) (rest : List Packet) {p : Packet}
    {dp : Packet} {count : ℕ} (size : count = (p.thData.take SEGSIZE).length)
    (same : header dp = header p) (data : dp.thData.take count = p.thData.take SEGSIZE) :
    let v := (r.fetch p rest).passed count
    let w := (u.fetch dp (rest.map datagram)).accept false count
    (writeBehind false w.b w.dst).2 = (writeBehind false v.b v.dst).2 ∧
      Settled (writeBehind false v.b v.dst).1 ∧ Settled (writeBehind false w.b w.dst).1 ∧
      header (behind w.b) = header (behind v.b) := by
  intro v w
  have fetched := h.fetch run p rest dp
  obtain ⟨first, second, -⟩ := fetched.settled run
  have held : ((r.fetch p rest).b.bfs (r.fetch p rest).b.current).packet =
      { p with thData := p.thData.take SEGSIZE } := by
    simp only [Receiver.fetch, set_current, set_bfs_self]
  have held' : (u.fetch dp (rest.map datagram)).dp = dp := fetch_dp ..
  have low : -1 ≤ (count : Int) := by omega
  have v_eq := first.writeit false (r.fetch p rest).dst count
  have w_eq := second.writeit false (u.fetch dp (rest.map datagram)).dst count
  have left : behind v.b = ((r.fetch p rest).b.bfs (r.fetch p rest).b.current).packet :=
    writeit_behind _ _ _
  have left' : behind w.b = (u.fetch dp (rest.map datagram)).dp := writeit_behind _ _ _
  refine ⟨?_, ?_, ?_, ?_⟩
  · simp only [v, w, Receiver.passed, Upload.accept, v_eq, w_eq, first.flush, second.flush, held]
    change putbuf false u.dst ((u.fetch dp (rest.map datagram)).dp.thData.take _) =
      putbuf false r.dst _
    rw [held', Int.toNat_natCast, data, size, List.take_length, h.dst]
  · simp only [v, Receiver.passed, v_eq]
    exact first.settled_flush false _ low
  · simp only [w, Upload.accept, w_eq]
    exact second.settled_flush false _ low
  · rw [left, left', held, held']
    exact same

theorem Same.nextAck (h : Same r u) (run : r.status = .running) {p : Packet} {dp : Packet}
    {rest : List Packet} {count : ℕ} (size : count = (p.thData.take SEGSIZE).length)
    (same : header dp = header p) (data : dp.thData.take count = p.thData.take SEGSIZE) :
    let turn := ((r.fetch p rest).passed count).nextAck
    let v := ((u.fetch dp (rest.map datagram)).accept false count).nextAck false
    Same turn.1 v ∧ v.sent = u.sent ++ turn.2 := by
  obtain ⟨dst, first, second, other⟩ := h.passed run rest size same data
  intro turn v
  have number : Int16.ofNat u.block = Int16.ofNat r.block := congrArg Int16.ofNat h.block
  refine ⟨⟨dst, congrArg (· + 1) h.block, number, rfl, h.status, h.stays, rfl,
    fun _ => ⟨first, second, ?_⟩, fun ended => absurd (run.symm.trans ended) (by simp)⟩, ?_⟩
  · exact (congrArg header (writeBehind_behind _ _)).trans
      (other.trans (congrArg header (writeBehind_behind _ _)).symm)
  · exact congrArg (fun block => u.sent ++ [⟨ACK, block, []⟩]) number

theorem Same.finish (h : Same r u) (run : r.status = .running) {p : Packet} {dp : Packet}
    {rest : List Packet} {count : ℕ} (size : count = (p.thData.take SEGSIZE).length)
    (same : header dp = header p) (data : dp.thData.take count = p.thData.take SEGSIZE) :
    let turn := ((r.fetch p rest).passed count).finish
    let v := ((u.fetch dp (rest.map datagram)).accept false count).finish false
    Same turn.1 v ∧ v.sent = u.sent ++ turn.2 := by
  obtain ⟨dst, -, -, -⟩ := h.passed run rest size same data
  intro turn v
  have number : Int16.ofNat u.block = Int16.ofNat r.block := congrArg Int16.ofNat h.block
  refine ⟨⟨dst, h.block, number, h.timeout, rfl, nofun, rfl, nofun, fun _ => ?_⟩, ?_⟩
  · have own : v.dp = behind u.b := by
      simp only [v, finish_dp, accept_dp, fetch_other]
      rfl
    have own' : (turn.1.b.bfs turn.1.b.current).packet = behind r.b := by
      change ((writeBehind false (writeit false _ _ _).1 _).1.bfs
        (writeBehind false (writeit false _ _ _).1 _).1.current).packet = _
      rw [writeBehind_current, writeBehind_packet, writeit_current, writeit_packet]
      simp only [Receiver.fetch, set_current, set_bfs_other]
      rfl
    rw [own, own']
    exact (h.settled run).2.2
  · exact congrArg (fun block => u.sent ++ [⟨ACK, block, []⟩]) number

theorem Same.recv (h : Same r u) (run : r.status = .running)
    (opcodes : ∀ p ∈ r.queue, p.thOpcode < 65536) :
    Same r.recv.1 (u.recv false) ∧ (u.recv false).sent = u.sent ++ r.recv.2 := by
  have queue := h.queue
  cases held : r.queue with
  | nil =>
      rw [held] at queue
      have stays : r.recv = (r, []) := by rw [Receiver.recv, held]
      rw [recv_nil false queue, stays]
      exact ⟨h, (List.append_nil _).symm⟩
  | cons p rest =>
      rw [held] at queue
      obtain ⟨opcode, block, data⟩ :=
        heard_datagram u.dp (opcodes p (by rw [held]; exact List.mem_cons_self))
      have fetched := h.fetch run p rest (heard u.dp (datagram p))
      have size : (recvSize (datagram p) : Int) - 4 = ((p.thData.take SEGSIZE).length : ℕ) := by
        rw [recvSize_datagram]
        omega
      have same : header (heard u.dp (datagram p)) = header p := Prod.ext opcode block
      have turn := TftpTransfer.recv_cons held
      have turn' := TftpReceive.recv_cons false queue
      dsimp only at turn turn'
      rw [size, opcode, block, h.block] at turn'
      simp only [Int.natCast_inj] at turn'
      rw [turn, turn']
      split_ifs
      · exact ⟨fetched.gone, (List.append_nil _).symm⟩
      · exact h.nextAck run rfl same data
      · exact h.finish run rfl same data
      · exact (fetched.emptied run).sendAck run
      · exact ⟨fetched.emptied run, (List.append_nil _).symm⟩
      · exact ⟨fetched, (List.append_nil _).symm⟩

theorem Same.expire (h : Same r u) (run : r.status = .running) :
    let r' : Receiver := { r with timeout := r.timeout + rexmtval }
    let turn := if r'.timeout ≥ maxtimeout then ({ r' with status := .gone }, []) else r'.sendAck
    Same turn.1 (u.expire false) ∧ (u.expire false).sent = u.sent ++ turn.2 := by
  intro r' turn
  have later : Same r' { u with timeout := u.timeout + rexmtval } :=
    ⟨h.dst, h.block, h.ack, congrArg (· + rexmtval) h.timeout, h.status, h.stays, h.queue,
      h.settled, h.ended⟩
  unfold Upload.expire
  dsimp only
  by_cases expired : r.timeout + rexmtval ≥ maxtimeout
  · have ends : turn = ({ r' with status := .gone }, []) := if_pos expired
    rw [ends, if_pos (by rw [h.timeout]; exact expired)]
    exact ⟨later.gone, (List.append_nil _).symm⟩
  · have sends : turn = r'.sendAck := if_neg expired
    rw [sends, if_neg (by rw [h.timeout]; exact expired)]
    exact later.sendAck run

theorem Same.timer (h : Same r u) (run : r.status = .running) (late : Bool) :
    Same (r.timer late).1 (u.timer false late) ∧
      (u.timer false late).sent = u.sent ++ (r.timer late).2 := by
  have queue := h.queue
  unfold Receiver.timer Upload.timer
  cases late with
  | false => exact h.expire run
  | true =>
      cases held : r.queue with
      | nil =>
          rw [held] at queue
          rw [queue]
          exact h.expire run
      | cons p rest =>
          rw [held] at queue
          rw [queue]
          exact (h.fetch run p rest _).expire run

/-- In the closing wait both look at the buffer that was not read into. -/
theorem Same.dally (h : Same r u) (ended : r.status = .finished) (p : Packet) :
    r.dally.2 = u.closingWait (datagram p) := by
  have left := h.ended ended
  have opcode := congrArg Prod.fst left
  have number := congrArg Prod.snd left
  have long : 4 ≤ recvSize (datagram p) := by
    rw [recvSize_datagram]
    omega
  simp only [header] at opcode number
  simp only [Receiver.dally, Upload.closingWait, long, true_and, opcode, number, h.block, h.ack]

theorem Same.delivered (h : Same r u) (queue : List Packet) :
    Same { r with queue := r.queue ++ queue } { u with queue := u.queue ++ queue.map datagram } :=
  ⟨h.dst, h.block, h.ack, h.timeout, h.status, h.stays, by rw [h.queue, List.map_append],
    h.settled, h.ended⟩

end Turns

/-! ### Any schedule -/

/-- What an event of a transfer is to the upload. -/
def heardBy (w : World) : TftpTransfer.Event → Option Event
  | .deliverData i => w.data[i]?.map fun p => .arrive (datagram p)
  | .receiverRecv => some .recv
  | .receiverTimer late => some (.timer late)
  | .deliverAck _ | .senderRecv | .senderTimer _ => none

structure Linked (content : List UInt8) (w : World) (u : Upload) : Prop where
  loaded : Loaded content w
  dst : u.dst = w.receiver.dst
  before : w.receiver.status ≠ .closed → Same w.receiver u ∧ u.sent = w.acks
  after : w.receiver.status = .closed → u.status = .finished

theorem linked_start (content : List UInt8) :
    Linked content (TftpTransfer.start content) (start false) := by
  have settled : Settled (rwInit false) := ⟨rfl, rfl, rfl⟩
  have settled' : Settled init.b := ⟨rfl, rfl, rfl⟩
  have same : Same ⟨rwInit false, ⟨none, [], 0⟩, 1, 0, 0, [], .running⟩
      { init with ack := 0, block := 1 } :=
    ⟨rfl, rfl, rfl, rfl, rfl, nofun, rfl, fun _ => ⟨settled, settled', rfl⟩, nofun⟩
  obtain ⟨first, sent⟩ := same.sendAck rfl
  exact ⟨TftpTransfer.loaded_start content, first.dst, fun _ => ⟨first, sent⟩, nofun⟩

section Step

variable {content : List UInt8} {w : World} {u : Upload}

theorem Linked.opcodes (h : Linked content w u) : ∀ p ∈ w.receiver.queue, p.thOpcode < 65536 := by
  intro p mem
  obtain ⟨k, -, -, rfl⟩ := h.loaded.queue p mem
  change DATA < 65536
  decide

theorem Linked.turn (h : Linked content w u) (run : w.receiver.status = .running)
    {turn : Receiver × List Packet} {v : Upload} (loaded : Loaded content (w.receives turn))
    (same : Same turn.1 v ∧ v.sent = u.sent ++ turn.2) : Linked content (w.receives turn) v := by
  obtain ⟨same, sent⟩ := same
  have earlier := (h.before (by rw [run]; decide)).2
  refine ⟨loaded, same.dst, fun _ => ⟨same, ?_⟩, fun closed => absurd closed same.stays⟩
  rw [sent, earlier]
  rfl

theorem Linked.stopped (h : Linked content w u) (ended : w.receiver.status ≠ .running) :
    u.status ≠ .running := by
  by_cases closed : w.receiver.status = .closed
  · rw [h.after closed]
    decide
  · rw [(h.before closed).1.status]
    exact ended

theorem Linked.closes (h : Linked content w u) (ended : w.receiver.status = .finished) {w' : World}
    (loaded : Loaded content w') (dst : w'.receiver.dst = w.receiver.dst)
    (closed : w'.receiver.status = .closed) : Linked content w' u := by
  have same := (h.before (by rw [ended]; decide)).1
  exact ⟨loaded, h.dst.trans dst.symm, fun still => absurd closed still,
    fun _ => same.status.trans ended⟩

theorem linked_recv (h : Linked content w u) :
    Linked content (TftpTransfer.step w .receiverRecv) (step false u .recv) := by
  have loaded := TftpTransfer.loaded_step w .receiverRecv h.loaded
  by_cases run : w.receiver.status = .running
  · have same := (h.before (by rw [run]; decide)).1
    have turn : step false u .recv = u.recv false := if_pos (same.running run)
    have turn' : TftpTransfer.step w .receiverRecv = w.receives w.receiver.recv := by
      rw [TftpTransfer.step.eq_def]
      dsimp only
      rw [run]
    rw [turn'] at loaded
    rw [turn, turn']
    exact h.turn run loaded (same.recv run h.opcodes)
  · have idle : step false u .recv = u := if_neg (h.stopped run)
    rw [idle]
    rw [TftpTransfer.step.eq_def] at loaded ⊢
    dsimp only at loaded ⊢
    split at loaded
    · rename_i running
      exact absurd running run
    · rename_i ended _
      exact h.closes ended loaded rfl rfl
    · exact h

theorem linked_timer (h : Linked content w u) (late : Bool) :
    Linked content (TftpTransfer.step w (.receiverTimer late)) (step false u (.timer late)) := by
  have loaded := TftpTransfer.loaded_step w (.receiverTimer late) h.loaded
  by_cases run : w.receiver.status = .running
  · have same := (h.before (by rw [run]; decide)).1
    have turn : step false u (.timer late) = u.timer false late := if_pos (same.running run)
    have turn' : TftpTransfer.step w (.receiverTimer late) =
        w.receives (w.receiver.timer late) := by
      rw [TftpTransfer.step.eq_def]
      dsimp only
      rw [run]
    rw [turn'] at loaded
    rw [turn, turn']
    exact h.turn run loaded (same.timer run late)
  · have idle : step false u (.timer late) = u := if_neg (h.stopped run)
    rw [idle]
    rw [TftpTransfer.step.eq_def] at loaded ⊢
    dsimp only at loaded ⊢
    split at loaded
    · rename_i running
      exact absurd running run
    · rename_i ended
      exact h.closes ended loaded rfl rfl
    · exact h

theorem linked_step (h : Linked content w u) (event : TftpTransfer.Event) :
    Linked content (TftpTransfer.step w event) ((heardBy w event).elim u (step false u)) := by
  have loaded := TftpTransfer.loaded_step w event h.loaded
  cases event with
  | receiverRecv => exact linked_recv h
  | receiverTimer late => exact linked_timer h late
  | deliverAck i => exact ⟨loaded, h.dst, h.before, h.after⟩
  | senderRecv =>
      rw [TftpTransfer.step]
      split
      · exact ⟨h.loaded.sends (h.loaded.sender ‹_›).recv, h.dst, h.before, h.after⟩
      · exact h
  | senderTimer late =>
      rw [TftpTransfer.step]
      split
      · exact ⟨h.loaded.sends ((h.loaded.sender ‹_›).timer late), h.dst, h.before, h.after⟩
      · exact h
  | deliverData i =>
      have queued : (heardBy w (.deliverData i)).elim u (step false u) =
          { u with queue := u.queue ++ w.data[i]?.toList.map datagram } := by
        rw [heardBy]
        cases w.data[i]? with
        | none => simp
        | some p => rfl
      rw [queued]
      exact ⟨loaded, h.dst,
        fun still => ⟨(h.before still).1.delivered _, (h.before still).2⟩, h.after⟩

end Step

/-- In every run of a transfer the upload that reads its datagrams writes the same file, and until
it is closed it is in the same state, sends the same acknowledgements and answers a datagram of the
closing wait alike. -/
theorem upload_of_transfer (content : List UInt8) (events : List TftpTransfer.Event) :
    let w := run TftpTransfer.step (TftpTransfer.start content) events
    let u := run (step false) (start false)
      (translate TftpTransfer.step heardBy (TftpTransfer.start content) events)
    u.dst = w.receiver.dst ∧
      (w.receiver.status ≠ .closed → u.status = w.receiver.status ∧ u.sent = w.acks) ∧
      (w.receiver.status = .finished → ∀ p, w.receiver.dally.2 = u.closingWait (datagram p)) ∧
      (w.receiver.status = .closed → u.status = .finished) := by
  intro w u
  have linked : Linked content w u := by
    have both := @run_invariant (World × Upload) TftpTransfer.Event
      (fun s event => (TftpTransfer.step s.1 event, (heardBy s.1 event).elim s.2 (step false s.2)))
      (fun s => Linked content s.1 s.2) (fun _ event h => linked_step h event)
      (TftpTransfer.start content, start false) (linked_start content) events
    rw [run_translate] at both
    exact both
  refine ⟨linked.dst, fun still => ⟨(linked.before still).1.status, (linked.before still).2⟩,
    fun ended p => ?_, linked.after⟩
  exact (linked.before (by rw [ended]; decide)).1.dally ended p

end Baseliner.TftpDatagrams
