import Mathlib.Data.List.GetD
import Mathlib.Tactic.Common
import Baseliner.TftpReceive

/-! Datagrams of fewer than four bytes in the loop of `recvfile`. Between two
datagrams nothing waits in the buffers, so what an upload has come to is a
function of the headers that were seen, and a datagram that is too short does
nothing exactly when the header it leaves is neither an error nor of the awaited
block, and when it is of another block no datagram is lost for it. -/

namespace Baseliner.TftpShortDatagrams

open GuardedRuns TftpBuffers TftpReceive
open TftpTransfer (Status DATA ERROR rexmtval maxtimeout)

/-! ### Between two datagrams -/

structure Progress where
  dst : Sink
  block : Nat
  timeout : Nat
  accepted : List (List UInt8)
  status : Status

def progress (u : Upload) : Progress :=
  ⟨u.dst, u.block, u.timeout, u.accepted, u.status⟩

structure Settled (b : Buffers) : Prop where
  alloc : (b.bfs b.current).counter = BF_ALLOC
  other : (b.bfs (!b.current)).counter = BF_FREE
  next : b.nextone = b.current

theorem Settled.load {b : Buffers} (h : Settled b) (dp : Packet) :
    Settled (b.set b.current { b.bfs b.current with packet := dp }) := by
  constructor
  · simpa using h.alloc
  · simpa using h.other
  · exact h.next

theorem Settled.fetch {u : Upload} (h : Settled u.b) (dp : Packet) (queue : List (List UInt8)) :
    Settled (u.fetch dp queue).b :=
  h.load dp

theorem Settled.writeBehind {b : Buffers} (h : Settled b) (convert : Bool) (dst : Sink) :
    writeBehind convert b dst = (b, dst) := by
  unfold TftpBuffers.writeBehind
  dsimp only
  rw [if_pos]
  rw [h.next, h.alloc]
  decide

theorem Settled.sendAck {u : Upload} (h : Settled u.b) (convert : Bool) :
    progress (u.sendAck convert) = progress u ∧ (u.sendAck convert).b = u.b := by
  unfold Upload.sendAck
  rw [h.writeBehind]
  exact ⟨rfl, rfl⟩

theorem putbuf_nil (convert : Bool) (dst : Sink) : putbuf convert dst [] = dst := by
  cases convert with
  | true => rfl
  | false => simp [putbuf, OutFile.write]

/-- The buffers after `writeit`. -/
def passedOn (b : Buffers) (ct : Int) : Buffers :=
  Buffers.setCounter { b.setCounter b.current ct with current := !b.current } (!b.current) BF_ALLOC

theorem Settled.writeit {b : Buffers} (h : Settled b) (convert : Bool) (dst : Sink) (ct : Int) :
    writeit convert b dst ct = (passedOn b ct, dst) := by
  unfold TftpBuffers.writeit passedOn Buffers.setCounter
  dsimp only
  rw [if_neg (by simp [h.other])]

theorem Settled.flush {b : Buffers} (h : Settled b) (convert : Bool) (dst : Sink) (ct : Int) :
    (TftpBuffers.writeBehind convert (passedOn b ct) dst).2 =
      putbuf convert dst ((b.bfs b.current).packet.thData.take ct.toNat) := by
  have next : (passedOn b ct).nextone = b.current := h.next
  have size : ((passedOn b ct).bfs b.current).counter = ct := by
    simp [passedOn, Buffers.setCounter]
  have packet : ((passedOn b ct).bfs b.current).packet = (b.bfs b.current).packet := by
    simp [passedOn, Buffers.setCounter]
  have none : ct ≤ 0 →
      putbuf convert dst ((b.bfs b.current).packet.thData.take ct.toNat) = dst := by
    intro negative
    rw [Int.toNat_of_nonpos negative, List.take_zero, putbuf_nil]
  unfold TftpBuffers.writeBehind
  dsimp only
  rw [next, size, packet]
  split
  · rename_i flag
    exact (none (by omega)).symm
  · split
    · rename_i empty
      exact (none empty).symm
    · rfl

theorem Settled.settled_flush {b : Buffers} (h : Settled b) (convert : Bool) (dst : Sink) {ct : Int}
    (size : -1 ≤ ct) : Settled (TftpBuffers.writeBehind convert (passedOn b ct) dst).1 := by
  have next : (passedOn b ct).nextone = b.current := h.next
  have counter : ((passedOn b ct).bfs b.current).counter = ct := by
    simp [passedOn, Buffers.setCounter]
  unfold TftpBuffers.writeBehind
  dsimp only
  rw [next, counter, if_neg (by omega)]
  constructor
  · simp [passedOn, Buffers.setCounter]
  · simp [passedOn, Buffers.setCounter]
  · simp [passedOn, Buffers.setCounter]

/-! ### What one turn does -/

/-- A datagram whose header is that of `dp`. -/
def Progress.hear (convert : Bool) (p : Progress) (dp : Packet) (ct : Int) : Progress :=
  if dp.thOpcode = ERROR then { p with status := .gone }
  else if dp.thOpcode = DATA ∧ dp.thBlock.toInt = p.block then
    let data := dp.thData.take ct.toNat
    let p : Progress :=
      { p with dst := putbuf convert p.dst data, accepted := p.accepted ++ [data] }
    if ct = SEGSIZE then { p with block := p.block + 1, timeout := 0 }
    else { p with status := .finished }
  else p

def Progress.expire (p : Progress) : Progress :=
  let p : Progress := { p with timeout := p.timeout + rexmtval }
  if p.timeout ≥ maxtimeout then { p with status := .gone } else p

/-- While the loop runs, nothing waits to be written in front of a `recv`. -/
def Idle (u : Upload) : Prop := u.status = .running → Settled u.b

theorem accept_eq {u : Upload} (h : Settled u.b) (convert : Bool) (ct : Int) :
    u.accept convert ct =
      { u with
        b := passedOn u.b ct
        accepted := u.accepted ++ [u.dp.thData.take ct.toNat] } := by
  unfold Upload.accept
  rw [h.writeit]

theorem accept_nextAck {u : Upload} (h : Settled u.b) (convert : Bool) (ct : Int)
    (size : -1 ≤ ct) :
    Settled ((u.accept convert ct).nextAck convert).b ∧
      progress ((u.accept convert ct).nextAck convert) =
        { progress u with
          dst := putbuf convert u.dst (u.dp.thData.take ct.toNat)
          block := u.block + 1
          timeout := 0
          accepted := u.accepted ++ [u.dp.thData.take ct.toNat] } := by
  rw [accept_eq h]
  refine ⟨h.settled_flush convert u.dst size, ?_⟩
  rw [Upload.dp, ← h.flush convert u.dst ct]
  rfl

theorem accept_finish {u : Upload} (h : Settled u.b) (convert : Bool) (ct : Int) :
    progress ((u.accept convert ct).finish convert) =
      { progress u with
        dst := putbuf convert u.dst (u.dp.thData.take ct.toNat)
        accepted := u.accepted ++ [u.dp.thData.take ct.toNat]
        status := .finished } := by
  rw [accept_eq h, Upload.dp, ← h.flush convert u.dst ct]
  rfl

/-- The socket behind a datagram with the header `dp`. -/
def socketAfter (u : Upload) (dp : Packet) (queue : List (List UInt8)) : List (List UInt8) :=
  if dp.thOpcode = DATA ∧ ¬ Awaited u dp then [] else queue

theorem recv_progress {u : Upload} (h : Settled u.b) (convert : Bool) {datagram : List UInt8}
    {queue : List (List UInt8)} (held : u.queue = datagram :: queue) :
    Idle (u.recv convert) ∧
      progress (u.recv convert) =
        (progress u).hear convert (heard u.dp datagram) (recvSize datagram - 4) ∧
      (u.recv convert).queue = socketAfter u (heard u.dp datagram) queue := by
  have before := h.fetch (heard u.dp datagram) queue
  obtain ⟨error, stop⟩ | ⟨awaited, full, more⟩ | ⟨awaited, short, last⟩ |
    ⟨data, other, turn⟩ | ⟨fine, unknown, same⟩ := recv_cases convert held
  · have notData : ¬ ((heard u.dp datagram).thOpcode = DATA ∧
        ¬ Awaited u (heard u.dp datagram)) := by
      rw [error]
      exact fun h => absurd h.1 (by decide)
    rw [stop, Progress.hear, if_pos error, socketAfter, if_neg notData]
    exact ⟨fun run => absurd run (by simp), rfl, rfl⟩
  · obtain ⟨settled, after⟩ := accept_nextAck before convert (recvSize datagram - 4) (by
      rw [full]
      decide)
    rw [more, socketAfter, if_neg fun h => h.2 awaited]
    refine ⟨fun _ => settled, after.trans ?_, rfl⟩
    have same : (heard u.dp datagram).thOpcode = DATA ∧
        (heard u.dp datagram).thBlock.toInt = (progress u).block := awaited
    rw [Progress.hear, if_neg (by rw [awaited.1]; decide), if_pos same]
    dsimp only
    rw [if_pos full, fetch_dp]
    rfl
  · rw [last, socketAfter, if_neg fun h => h.2 awaited]
    refine ⟨fun run => absurd run (by simp [Upload.finish]), ?_, rfl⟩
    rw [accept_finish before convert]
    have same : (heard u.dp datagram).thOpcode = DATA ∧
        (heard u.dp datagram).thBlock.toInt = (progress u).block := awaited
    rw [Progress.hear, if_neg (by rw [awaited.1]; decide), if_pos same]
    dsimp only
    rw [if_neg short, fetch_dp]
    rfl
  · have nothing : (progress u).hear convert (heard u.dp datagram) (recvSize datagram - 4) =
        progress u := by
      rw [Progress.hear, if_neg (by rw [data]; decide)]
      exact if_neg other
    rw [nothing, socketAfter, if_pos ⟨data, other⟩]
    have empty : Settled ({ u.fetch (heard u.dp datagram) queue with queue := [] } : Upload).b :=
      before
    rcases turn with ack | same
    · obtain ⟨kept, buffers⟩ := Settled.sendAck empty convert
      rw [ack]
      refine ⟨fun _ => ?_, kept, rfl⟩
      rw [buffers]
      exact before
    · rw [same]
      exact ⟨fun _ => before, rfl, rfl⟩
  · have nothing : (progress u).hear convert (heard u.dp datagram) (recvSize datagram - 4) =
        progress u := by
      rw [Progress.hear, if_neg fine]
      exact if_neg fun awaited => unknown awaited.1
    rw [nothing, same, socketAfter, if_neg fun h => unknown h.1]
    exact ⟨fun _ => before, rfl, rfl⟩

theorem expire_progress {u : Upload} (h : Settled u.b) (convert : Bool) :
    Idle (u.expire convert) ∧ progress (u.expire convert) = (progress u).expire ∧
      (u.expire convert).queue = u.queue := by
  unfold Upload.expire Progress.expire
  dsimp only
  have same : (progress u).timeout = u.timeout := rfl
  rw [same]
  split
  · exact ⟨fun run => absurd run (by simp), rfl, rfl⟩
  · obtain ⟨kept, buffers⟩ := Settled.sendAck
      (u := { u with timeout := u.timeout + rexmtval }) h convert
    refine ⟨fun _ => ?_, kept, rfl⟩
    rw [buffers]
    exact h

theorem timer_progress {u : Upload} (h : Settled u.b) (convert late : Bool) :
    Idle (u.timer convert late) ∧ progress (u.timer convert late) = (progress u).expire ∧
      (u.timer convert late).queue = u.queue.drop late.toNat := by
  cases late with
  | false => exact expire_progress h convert
  | true =>
      unfold Upload.timer
      cases held : u.queue with
      | nil =>
          obtain ⟨idle, after, queue⟩ := expire_progress h convert
          exact ⟨idle, after, queue.trans held⟩
      | cons datagram queue =>
          exact expire_progress (u := u.fetch (recvInto u.dp datagram) queue) (h.fetch _ _) convert

/-! ### Datagrams of at least four bytes -/

theorem length_take_recvSize (datagram : List UInt8) :
    (datagram.take PKTSIZE).length = recvSize datagram := by
  rw [List.length_take, recvSize, Nat.min_comm]

theorem recvInto_long {datagram : List UInt8} (long : 4 ≤ datagram.length) (dp : Packet) :
    (recvInto dp datagram).thOpcode = (tftphdr (datagram.take PKTSIZE)).thOpcode ∧
      (recvInto dp datagram).thBlock = (tftphdr (datagram.take PKTSIZE)).thBlock ∧
      (recvInto dp datagram).thData.take (recvSize datagram - 4) =
        (datagram.take PKTSIZE).drop 4 := by
  have size := length_take_recvSize datagram
  have four : 4 ≤ recvSize datagram := Nat.le_min.mpr ⟨long, by decide⟩
  unfold recvInto
  generalize datagram.take PKTSIZE = bytes at size ⊢
  have byte : ∀ i < 4, (bytes ++ (memory dp).drop datagram.length).getD i 0 = bytes.getD i 0 :=
    fun i low => List.getD_append bytes _ 0 i (by omega)
  have data : ((bytes ++ (memory dp).drop datagram.length).drop 4).take (recvSize datagram - 4) =
      bytes.drop 4 := by
    rw [List.drop_append_of_le_length (by omega)]
    exact List.take_left' (by rw [List.length_drop, size])
  refine ⟨?_, ?_, data⟩
  · simp only [tftphdr]
    rw [byte 0 (by omega), byte 1 (by omega)]
  · simp only [tftphdr]
    rw [byte 2 (by omega), byte 3 (by omega)]

theorem hear_congr (convert : Bool) (p : Progress) {dp dp' : Packet} {ct : Int}
    (opcode : dp.thOpcode = dp'.thOpcode) (block : dp.thBlock = dp'.thBlock)
    (data : dp.thData.take ct.toNat = dp'.thData.take ct.toNat) :
    p.hear convert dp ct = p.hear convert dp' ct := by
  unfold Progress.hear
  rw [opcode, block, data]

theorem heard_long {datagram : List UInt8} (long : 4 ≤ datagram.length) (dp dp' : Packet) :
    (heard dp datagram).thOpcode = (heard dp' datagram).thOpcode ∧
      (heard dp datagram).thBlock = (heard dp' datagram).thBlock := by
  obtain ⟨opcode, block, -⟩ := recvInto_long long dp
  obtain ⟨opcode', block', -⟩ := recvInto_long long dp'
  constructor
  · simp only [heard, ntohHeader, opcode, opcode']
  · simp only [heard, ntohHeader, block, block']

theorem hear_long (convert : Bool) (p : Progress) {datagram : List UInt8}
    (long : 4 ≤ datagram.length) (dp dp' : Packet) :
    p.hear convert (heard dp datagram) (recvSize datagram - 4) =
      p.hear convert (heard dp' datagram) (recvSize datagram - 4) := by
  obtain ⟨opcode, block⟩ := heard_long long dp dp'
  obtain ⟨-, -, data⟩ := recvInto_long long dp
  obtain ⟨-, -, data'⟩ := recvInto_long long dp'
  have size : ((recvSize datagram : Int) - 4).toNat = recvSize datagram - 4 := by omega
  refine hear_congr convert p opcode block ?_
  rw [size]
  exact data.trans data'.symm

/-! ### Runs with and without the short datagrams -/

def long (datagram : List UInt8) : Bool := 4 ≤ datagram.length

def headShort (u : Upload) : Bool := u.queue.head?.any fun datagram => !long datagram

/-- What is left of an event when short datagrams are deleted, also the turn that reads one. -/
def whole (u : Upload) : Event → Option Event
  | .arrive datagram => if long datagram then some (.arrive datagram) else none
  | .recv => if headShort u then none else some .recv
  | .timer late => some (.timer (late && !headShort u))

def deleteShort (convert : Bool) (u : Upload) (events : List Event) : List Event :=
  translate (step convert) whole u events

/-- The blocks that were accepted, the file, and whether the loop has ended. -/
def outcome (u : Upload) : List (List UInt8) × List UInt8 × Status :=
  (u.accepted, u.dst.file.bytes, u.status)

def waiting (u : Upload) : List (List UInt8) := u.queue.filter long

/-- The header that a short datagram leaves is neither an error nor that of the awaited block, and
where it is of another block, only short datagrams wait behind it. -/
def Harmless (u : Upload) : Event → Prop
  | .recv => ∀ datagram queue, u.status = .running → u.queue = datagram :: queue →
      long datagram = false →
        (heard u.dp datagram).thOpcode ≠ ERROR ∧ ¬ Awaited u (heard u.dp datagram) ∧
          ((heard u.dp datagram).thOpcode = DATA → queue.filter long = [])
  | _ => True

structure Alike (u v : Upload) : Prop where
  progress : progress u = progress v
  first : Idle u
  second : Idle v
  queue : waiting u = v.queue

theorem alike_start (convert : Bool) : Alike (start convert) (start convert) := by
  have settled : Settled init.b := ⟨rfl, rfl, rfl⟩
  have idle : Idle (start convert) := by
    intro _
    have kept := Settled.sendAck (u := { init with ack := 0, block := 1 }) settled convert
    change Settled (Upload.sendAck convert { init with ack := 0, block := 1 }).b
    rw [kept.2]
    exact settled
  exact ⟨rfl, idle, idle, rfl⟩

theorem Alike.status {u v : Upload} (h : Alike u v) : u.status = v.status :=
  congrArg Progress.status h.progress

theorem Alike.block {u v : Upload} (h : Alike u v) : u.block = v.block :=
  congrArg Progress.block h.progress

theorem Alike.outcome {u v : Upload} (h : Alike u v) : outcome u = outcome v := by
  have file := congrArg (fun p => p.dst.file.bytes) h.progress
  have accepted := congrArg Progress.accepted h.progress
  exact Prod.ext accepted (Prod.ext file h.status)

/-- One event, with what is left of it in the other run. -/
def stepWhole (convert : Bool) (u v : Upload) (event : Event) : Upload :=
  (whole u event).elim v (step convert v)

theorem headShort_cons {u : Upload} {datagram : List UInt8} {queue : List (List UInt8)}
    (held : u.queue = datagram :: queue) : headShort u = !long datagram := by
  rw [headShort, held]
  rfl

theorem Alike.queue_long {u v : Upload} (h : Alike u v) {datagram : List UInt8}
    {queue : List (List UInt8)} (held : u.queue = datagram :: queue)
    (whole : long datagram = true) : v.queue = datagram :: queue.filter long := by
  rw [← h.queue, waiting, held, List.filter_cons_of_pos whole]

theorem Alike.queue_short {u v : Upload} (h : Alike u v) {datagram : List UInt8}
    {queue : List (List UInt8)} (held : u.queue = datagram :: queue)
    (short : long datagram = false) : v.queue = queue.filter long := by
  rw [← h.queue, waiting, held, List.filter_cons_of_neg (by rw [short]; decide)]

theorem alike_arrive (convert : Bool) {u v : Upload} (h : Alike u v) (datagram : List UInt8) :
    Alike (step convert u (.arrive datagram)) (stepWhole convert u v (.arrive datagram)) := by
  rw [stepWhole, whole]
  have queue : waiting (step convert u (.arrive datagram)) =
      v.queue ++ if long datagram then [datagram] else [] := by
    change (u.queue ++ [datagram]).filter long = _
    rw [List.filter_append, ← h.queue, waiting, List.filter_singleton, cond_eq_ite]
  split
  · rename_i some_
    rw [if_pos some_] at queue
    exact ⟨h.progress, h.first, h.second, queue⟩
  · rename_i none_
    rw [if_neg none_, List.append_nil] at queue
    exact ⟨h.progress, h.first, h.second, queue⟩

theorem alike_recv (convert : Bool) {u v : Upload} (h : Alike u v) (run : u.status = .running)
    (harmless : Harmless u .recv) :
    Alike (step convert u .recv) (stepWhole convert u v .recv) := by
  have run' : v.status = .running := h.status.symm.trans run
  have turn : step convert u .recv = u.recv convert := if_pos run
  have turn' : step convert v .recv = v.recv convert := if_pos run'
  rw [turn, stepWhole, whole]
  cases held : u.queue with
  | nil =>
      have none_ : headShort u = false := by rw [headShort, held]; rfl
      have empty : v.queue = [] := by rw [← h.queue, waiting, held]; rfl
      rw [none_, recv_nil convert held]
      change Alike u (step convert v .recv)
      rw [turn', recv_nil convert empty]
      exact h
  | cons datagram queue =>
      obtain ⟨idle, after, rest⟩ := recv_progress (h.first run) convert held
      cases size : long datagram with
      | false =>
          obtain ⟨fine, other, lost⟩ := harmless datagram queue run held size
          rw [headShort_cons held, size]
          refine ⟨after.trans ?_, idle, h.second, ?_⟩
          · rw [Progress.hear, if_neg fine]
            exact (if_neg other).trans h.progress
          · change (u.recv convert).queue.filter long = v.queue
            rw [rest, h.queue_short held size, socketAfter]
            split
            · rename_i data
              exact (lost data.1).symm
            · rfl
      | true =>
          have held' := h.queue_long held size
          have four : 4 ≤ datagram.length := of_decide_eq_true size
          obtain ⟨idle', after', rest'⟩ := recv_progress (h.second run') convert held'
          rw [headShort_cons held, size]
          change Alike (u.recv convert) (step convert v .recv)
          rw [turn']
          refine ⟨?_, idle, idle', ?_⟩
          · rw [after, after', h.progress]
            exact hear_long convert _ four u.dp v.dp
          · obtain ⟨opcode, block⟩ := heard_long four u.dp v.dp
            have same : Awaited u (heard u.dp datagram) ↔ Awaited v (heard v.dp datagram) := by
              unfold Awaited
              rw [opcode, block, h.block]
            rw [waiting, rest, rest', socketAfter, socketAfter]
            simp only [opcode, same]
            split
            · rfl
            · rfl

theorem alike_timer (convert : Bool) {u v : Upload} (h : Alike u v) (run : u.status = .running)
    (late : Bool) :
    Alike (step convert u (.timer late)) (stepWhole convert u v (.timer late)) := by
  have run' : v.status = .running := h.status.symm.trans run
  have turn : step convert u (.timer late) = u.timer convert late := if_pos run
  have turn' (late : Bool) : step convert v (.timer late) = v.timer convert late := if_pos run'
  obtain ⟨idle, after, rest⟩ := timer_progress (h.first run) convert late
  rw [turn, stepWhole, whole]
  change Alike _ (step convert v (.timer (late && !headShort u)))
  rw [turn']
  obtain ⟨idle', after', rest'⟩ :=
    timer_progress (h.second run') convert (late && !headShort u)
  refine ⟨by rw [after, after', h.progress], idle, idle', ?_⟩
  rw [waiting, rest, rest']
  cases late with
  | false => exact h.queue
  | true =>
      cases held : u.queue with
      | nil =>
          have empty : v.queue = [] := by rw [← h.queue, waiting, held]; rfl
          rw [empty, List.drop_nil, List.drop_nil]
          rfl
      | cons datagram queue =>
          rw [headShort_cons held]
          cases size : long datagram with
          | false => exact (h.queue_short held size).symm
          | true =>
              rw [h.queue_long held size]
              rfl

theorem alike_step (convert : Bool) {u v : Upload} {event : Event} (h : Alike u v)
    (harmless : Harmless u event) :
    Alike (step convert u event) (stepWhole convert u v event) := by
  cases event with
  | arrive datagram => exact alike_arrive convert h datagram
  | recv =>
      by_cases run : u.status = .running
      · exact alike_recv convert h run harmless
      · have stop : step convert u .recv = u := if_neg run
        have stop' : step convert v .recv = v := if_neg (by rw [← h.status]; exact run)
        rw [stop, stepWhole, whole]
        split
        · exact h
        · change Alike u (step convert v .recv)
          rw [stop']
          exact h
  | timer late =>
      by_cases run : u.status = .running
      · exact alike_timer convert h run late
      · have stop : step convert u (.timer late) = u := if_neg run
        have stop' (late : Bool) : step convert v (.timer late) = v :=
          if_neg (by rw [← h.status]; exact run)
        rw [stop, stepWhole, whole]
        change Alike u (step convert v (.timer (late && !headShort u)))
        rw [stop']
        exact h

/-- A short datagram that does harm is seen at once, or costs a datagram that waits. -/
theorem harmless_of_same (convert : Bool) {u v : Upload} {event : Event} (h : Alike u v)
    (same : outcome (step convert u event) = outcome (stepWhole convert u v event))
    (queue : waiting (step convert u event) = (stepWhole convert u v event).queue) :
    Harmless u event := by
  cases event with
  | arrive datagram => trivial
  | timer late => trivial
  | recv =>
      intro datagram rest run held short
      have turn : step convert u .recv = u.recv convert := if_pos run
      have skipped : stepWhole convert u v .recv = v := by
        rw [stepWhole, whole, headShort_cons held, short]
        rfl
      rw [turn, skipped] at same queue
      rw [← h.outcome] at same
      rw [h.queue_short held short] at queue
      have accepted : (u.recv convert).accepted = u.accepted := congrArg Prod.fst same
      have status : (u.recv convert).status = u.status := congrArg (fun o => o.2.2) same
      obtain ⟨-, stop⟩ | ⟨-, -, more⟩ | ⟨-, -, last⟩ | ⟨data, other, -⟩ |
        ⟨fine, unknown, -⟩ := recv_cases convert held
      · rw [stop, run] at status
        cases status
      · rw [more] at accepted
        exact absurd (List.append_right_eq_self.mp accepted) (List.cons_ne_nil _ _)
      · rw [last] at accepted
        exact absurd (List.append_right_eq_self.mp accepted) (List.cons_ne_nil _ _)
      · refine ⟨by rw [data]; decide, other, fun _ => ?_⟩
        rw [waiting, (recv_progress (h.first run) convert held).2.2, socketAfter,
          if_pos ⟨data, other⟩] at queue
        exact queue.symm
      · exact ⟨fine, fun awaited => unknown awaited.1, fun data => absurd data unknown⟩

/-- At every moment an upload has come as far as if it had received no short datagram, and the same
other datagrams wait for it, exactly when each short one that is read is harmless. -/
theorem shortDatagrams_harmless_iff (convert : Bool) (events : List Event) :
    (∀ seen, seen <+: events →
      let u := run (step convert) (start convert) seen
      let v := run (step convert) (start convert) (deleteShort convert (start convert) seen)
      outcome u = outcome v ∧ waiting u = v.queue) ↔
      Along (step convert) Harmless (start convert) events := by
  have pairs := @reached_iff_along (Upload × Upload) Event
    (fun s e => (step convert s.1 e, stepWhole convert s.1 s.2 e)) (fun _ _ => True)
    (fun s e => Harmless s.1 e) (fun s => Alike s.1 s.2)
    (fun s => outcome s.1 = outcome s.2 ∧ waiting s.1 = s.2.queue)
    (fun s h => ⟨h.outcome, h.queue⟩) (fun s e h _ harmless => alike_step convert h harmless)
    (fun s e h _ same => harmless_of_same convert h same.1 same.2)
    (start convert, start convert) events (alike_start convert) (along_true _ _)
  rw [along_pair] at pairs
  rw [← pairs]
  refine forall_congr' fun seen => imp_congr_right fun _ => ?_
  have both : run (fun s e => (step convert s.1 e, stepWhole convert s.1 s.2 e))
      (start convert, start convert) seen = _ :=
    run_translate (step convert) (step convert) whole (start convert) (start convert) seen
  rw [both]
  rfl

/-- The second datagram completes the bytes that the first one left, `7`, `0`, `0` and `1`, to the
header of block 1. When it makes them that of block 2, the real block 1 behind it is lost. -/
theorem shortDatagram_accepted :
    (let events : List Event := [.arrive [0, 7, 1, 0], .arrive [0, 3], .recv, .recv]
      let u := run (step false) (start false) events
      u.status = .finished ∧ u.accepted = [[]] ∧
        outcome u ≠
          outcome (run (step false) (start false) (deleteShort false (start false) events))) ∧
    let events : List Event := [.arrive [0, 7, 2, 0], .arrive [0, 3],
      .arrive (dataDatagram 1 [104, 105]), .recv, .recv, .recv]
    let u := run (step false) (start false) events
    u.status = .running ∧ u.accepted = [] ∧ u.queue = [] ∧
      outcome u ≠
        outcome (run (step false) (start false) (deleteShort false (start false) events)) := by
  decide +kernel

end Baseliner.TftpShortDatagrams
