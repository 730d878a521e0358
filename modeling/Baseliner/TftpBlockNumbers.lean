import Mathlib.Data.Nat.Init
import Mathlib.Logic.Function.Iterate
import Baseliner.TftpTransfer

/-! Transfers in octet mode over a network that delivers every datagram once and in order,
with a peer that counts blocks modulo 65536. The block counter of `sendfile` and
`recvfile` is an `int`, but the number in the header is read back as a `short`:
from block 32768 on the two differ. -/

namespace Baseliner.TftpBlockNumbers

open TftpBuffers TftpTransfer

/-- The 16 bits of the header for block `n`. -/
def wireBlock (n : Nat) : Int16 := Int16.ofNat (n % 65536)

/-- Every `DATA` that was sent is answered with its number. -/
def answered (turn : Sender × List Packet) : Sender :=
  { turn.1 with
    queue := turn.1.queue ++ turn.2.map fun _ => ⟨ACK, wireBlock turn.1.block, []⟩ }

/-- The next answer is read, or the alarm goes off when there is none. -/
def sendExchange (s : Sender) : Sender :=
  match s.status, s.queue with
  | .running, [] => answered (s.timer false)
  | .running, _ :: _ => answered s.recv
  | _, _ => s

def sendRun (content : List UInt8) (n : Nat) : Sender :=
  sendExchange^[n] (answered (sendfile content))

/-- The peer's block, under its number, goes to the receiver. The peer goes on to
the next one when it is acknowledged, and otherwise sends it again. -/
def recvExchange (content : List UInt8) (x : Receiver × Nat) : Receiver × Nat :=
  match x.1.status with
  | .running =>
      let turn := Receiver.recv
        { x.1 with queue := x.1.queue ++ [⟨DATA, wireBlock x.2, blockOf content x.2⟩] }
      (turn.1, if turn.2 = [⟨ACK, wireBlock x.2, []⟩] then x.2 + 1 else x.2)
  | _ => x

def recvRun (content : List UInt8) (n : Nat) : Receiver × Nat :=
  (recvExchange content)^[n] (recvfile.1, 1)

/-- Every answer is the one that is awaited, and the last block is reached. -/
structure SendCompletes (content : List UInt8) : Prop where
  accepts : ∀ n ap, (sendRun content n).status = .running →
    (sendRun content n).queue.head? = some ap → ap.thBlock.toInt = (sendRun content n).block
  finishes : ∃ n, (sendRun content n).status = .finished ∧
    (sendRun content n).block = blockCount content + 1

/-- Every block is the one that is awaited, and all of them are written. -/
structure RecvCompletes (content : List UInt8) : Prop where
  accepts : ∀ n, (recvRun content n).1.status = .running →
    (wireBlock (recvRun content n).2).toInt = (recvRun content n).1.block
  finishes : ∃ n, (recvRun content n).1.status = .finished ∧
    (recvRun content n).1.dst.file.bytes = content

/-! ### The comparison -/

theorem wireBlock_eq (n : Nat) : wireBlock n = Int16.ofNat n := by
  unfold wireBlock
  apply Int16.toBitVec_inj.mp
  rw [Int16.toBitVec_ofNat', Int16.toBitVec_ofNat']
  apply BitVec.eq_of_toNat_eq
  rw [BitVec.toNat_ofNat, BitVec.toNat_ofNat]
  omega

theorem toInt_wireBlock {n : Nat} (small : n ≤ 32767) : (wireBlock n).toInt = n := by
  rw [wireBlock_eq]
  exact Int16.toInt_ofNat_of_lt (by omega)

theorem toInt_wireBlock_stuck : (wireBlock 32768).toInt = -32768 := by decide

/-! ### The sender -/

theorem recv_ack {s : Sender} {number : Int16} {rest : List Packet}
    (held : s.queue = ⟨ACK, number, []⟩ :: rest) :
    s.recv =
      if number.toInt = s.block then
        if s.b.size = SEGSIZE then
          Sender.nextBlock { s with queue := rest, block := s.block + 1 }
        else ({ s with queue := rest, block := s.block + 1, status := .finished }, [])
      else if number.toInt = (s.block : Int) - 1 then Sender.sendData { s with queue := [] }
      else ({ s with queue := [] }, []) := by
  have other : ACK ≠ ERROR := by decide
  unfold Sender.recv
  rw [held]
  dsimp only
  rw [if_neg other, if_pos rfl]

/-- Block `n + 1` was sent and its answer is there. -/
structure InStep (content : List UInt8) (n : Nat) (s : Sender) : Prop where
  running : s.status = .running
  sending : Sending content s
  block : s.block = n + 1
  queue : s.queue = [⟨ACK, wireBlock (n + 1), []⟩]

theorem inStep_answered {content : List UInt8} {n : Nat} {s : Sender} (block : s.block = n + 1)
    (high : n + 1 ≤ blockCount content) (running : s.status = .running) (queue : s.queue = [])
    (reading : Reading false s.b s.src (content.drop (SEGSIZE * (s.block - 1)))) :
    InStep content n (answered s.nextBlock) := by
  obtain ⟨sending, sent⟩ := sending_nextBlock (by omega) (by omega) reading
  have kept : s.nextBlock.1.block = n + 1 := block
  have empty : s.nextBlock.1.queue = [] := queue
  refine ⟨running, sending.queued _ s.nextBlock.1.timeout, block, ?_⟩
  simp only [answered, sent, kept, empty, List.nil_append, List.map_cons, List.map_nil]

theorem inStep_zero (content : List UInt8) : InStep content 0 (sendRun content 0) :=
  inStep_answered rfl (Nat.le_add_left 1 _) rfl rfl (reading_rwInit false content)

theorem InStep.exchange {content : List UInt8} {n : Nat} {s : Sender} (h : InStep content n s) :
    sendExchange s = answered s.recv := by
  unfold sendExchange
  rw [h.running, h.queue]

theorem InStep.next {content : List UInt8} {n : Nat} {s : Sender} (h : InStep content n s)
    (small : n + 1 ≤ 32767) (more : n + 1 < blockCount content) :
    InStep content (n + 1) (sendExchange s) := by
  have number : (wireBlock (n + 1)).toInt = s.block := by rw [h.block, toInt_wireBlock small]
  have length : (blockOf content s.block).length = SEGSIZE := by
    apply (length_blockOf_eq_iff content h.sending.low).mpr
    rw [h.block]
    unfold blockCount SEGSIZE at *
    omega
  have size : s.b.size = SEGSIZE := by rw [h.sending.size, length]
  rw [h.exchange, recv_ack h.queue, if_pos number, if_pos size]
  have next : ({ s with queue := [], block := s.block + 1 } : Sender).block = n + 1 + 1 := by
    rw [← h.block]
  exact inStep_answered next more h.running rfl h.sending.reading

theorem InStep.last {content : List UInt8} {n : Nat} {s : Sender} (h : InStep content n s)
    (small : n + 1 ≤ 32767) (last : n + 1 = blockCount content) :
    (sendExchange s).status = .finished ∧ (sendExchange s).block = blockCount content + 1 := by
  have number : (wireBlock (n + 1)).toInt = s.block := by rw [h.block, toInt_wireBlock small]
  have short : (blockOf content s.block).length ≠ SEGSIZE := by
    rw [ne_eq, length_blockOf_eq_iff content h.sending.low, h.block]
    unfold blockCount SEGSIZE at *
    omega
  have size : ¬ s.b.size = SEGSIZE := by
    rw [h.sending.size]
    exact fun eq => short (by exact_mod_cast eq)
  rw [h.exchange, recv_ack h.queue, if_pos number, if_neg size]
  refine ⟨rfl, ?_⟩
  rw [← last, ← h.block]
  rfl

theorem sendRun_succ (content : List UInt8) (n : Nat) :
    sendRun content (n + 1) = sendExchange (sendRun content n) :=
  Function.iterate_succ_apply' sendExchange n _

theorem inStep_sendRun (content : List UInt8) {n : Nat} (more : n < blockCount content)
    (small : n ≤ 32767) : InStep content n (sendRun content n) := by
  induction n with
  | zero => exact inStep_zero content
  | succ n ih =>
      rw [sendRun_succ]
      exact (ih (by omega) (by omega)).next small more

theorem sendRun_finished {content : List UInt8} (few : blockCount content ≤ 32767) {n : Nat}
    (enough : blockCount content ≤ n) :
    (sendRun content n).status = .finished ∧
      (sendRun content n).block = blockCount content + 1 := by
  induction n, enough using Nat.le_induction with
  | base =>
      obtain ⟨n, count⟩ : ∃ n, blockCount content = n + 1 := ⟨_, rfl⟩
      have step := inStep_sendRun content (n := n) (by omega) (by omega)
      rw [count, sendRun_succ, ← count]
      exact step.last (by omega) count.symm
  | succ n enough ih =>
      have still : sendExchange (sendRun content n) = sendRun content n := by
        unfold sendExchange
        rw [ih.1]
      rw [sendRun_succ, still]
      exact ih

/-- Block 32768 was sent, and no answer to it is accepted. -/
structure Stuck (s : Sender) : Prop where
  unfinished : s.status ≠ .finished
  block : s.block = 32768
  queue : ∀ ap ∈ s.queue, ap = ⟨ACK, wireBlock 32768, []⟩

theorem stuck_answered {s : Sender} {sent : List Packet} (h : Stuck s) :
    Stuck (answered (s, sent)) := by
  refine ⟨h.unfinished, h.block, fun ap mem => ?_⟩
  rcases List.mem_append.mp mem with old | new
  · exact h.queue ap old
  · obtain ⟨p, -, rfl⟩ := List.mem_map.mp new
    simp only [h.block]

theorem Stuck.exchange {s : Sender} (h : Stuck s) : Stuck (sendExchange s) := by
  unfold sendExchange
  split
  · rename_i running empty
    unfold Sender.timer
    dsimp only
    split
    · exact stuck_answered ⟨by simp, h.block, by simp [empty]⟩
    · exact stuck_answered (s := (Sender.sendData _).1) ⟨h.unfinished, h.block, by
        intro ap mem
        exact h.queue ap mem⟩
  · rename_i ap rest running held
    have number : ap = ⟨ACK, wireBlock 32768, []⟩ := by
      apply h.queue
      rw [held]
      exact List.mem_cons_self
    subst number
    rw [recv_ack held, toInt_wireBlock_stuck, h.block, if_neg (by decide), if_neg (by decide)]
    exact stuck_answered ⟨h.unfinished, rfl, by simp⟩
  · exact h

theorem sendRun_unfinished {content : List UInt8} (many : 32767 < blockCount content) (n : Nat) :
    (sendRun content n).status ≠ .finished := by
  rcases Nat.lt_or_ge n 32767 with early | late
  · rw [(inStep_sendRun content (by omega) (by omega)).running]
    decide
  · have stuck : Stuck (sendRun content n) := by
      induction n, late using Nat.le_induction with
      | base =>
          have step := inStep_sendRun content many (Nat.le_refl 32767)
          refine ⟨by rw [step.running]; decide, step.block, fun ap mem => ?_⟩
          rw [step.queue, List.mem_singleton] at mem
          exact mem
      | succ n late ih =>
          rw [sendRun_succ]
          exact ih.exchange
    exact stuck.unfinished

theorem sendCompletes_iff (content : List UInt8) :
    SendCompletes content ↔ blockCount content ≤ 32767 := by
  constructor
  · intro completes
    by_contra many
    obtain ⟨n, finished, -⟩ := completes.finishes
    exact sendRun_unfinished (by omega) n finished
  · intro few
    refine ⟨fun n ap running first => ?_, blockCount content,
      sendRun_finished few (Nat.le_refl _)⟩
    rcases Nat.lt_or_ge n (blockCount content) with early | late
    · have step := inStep_sendRun content early (by omega)
      rw [step.queue, List.head?_cons, Option.some.injEq] at first
      rw [← first, step.block]
      exact toInt_wireBlock (by omega)
    · rw [(sendRun_finished few late).1] at running
      exact absurd running (by decide)

/-! ### The receiver -/

/-- The receiver and the peer are both at block `n + 1`. -/
structure RecvInStep (content : List UInt8) (n : Nat) (x : Receiver × Nat) : Prop where
  running : x.1.status = .running
  receiving : Receiving content x.1
  block : x.1.block = n + 1
  peer : x.2 = n + 1
  queue : x.1.queue = []

theorem recvRun_succ (content : List UInt8) (n : Nat) :
    recvRun content (n + 1) = recvExchange content (recvRun content n) :=
  Function.iterate_succ_apply' (recvExchange content) n _

theorem recvInStep_zero (content : List UInt8) : RecvInStep content 0 (recvRun content 0) :=
  ⟨rfl, (received_recvfile content).running rfl, rfl, rfl, rfl⟩

theorem RecvInStep.exchange {content : List UInt8} {n : Nat} {x : Receiver × Nat}
    (h : RecvInStep content n x) :
    recvExchange content x =
      let turn := Receiver.recv { x.1 with queue := [dataPacket content (n + 1)] }
      (turn.1, if turn.2 = [⟨ACK, Int16.ofNat (n + 1), []⟩] then n + 1 + 1 else n + 1) := by
  unfold recvExchange
  rw [h.running, h.peer, h.queue, wireBlock_eq]
  rfl

theorem RecvInStep.offered {content : List UInt8} {n : Nat} {x : Receiver × Nat}
    (h : RecvInStep content n x) :
    Receiving content { x.1 with queue := [dataPacket content (n + 1)] } :=
  ⟨h.receiving.low, h.receiving.full, h.receiving.writing⟩

theorem RecvInStep.next {content : List UInt8} {n : Nat} {x : Receiver × Nat}
    (h : RecvInStep content n x) (small : n + 1 ≤ 32767) (more : n + 1 < blockCount content) :
    RecvInStep content (n + 1) (recvExchange content x) := by
  have full : SEGSIZE * (n + 1) ≤ content.length := by
    unfold blockCount SEGSIZE at *
    omega
  have size : (blockOf content (n + 1)).length = SEGSIZE :=
    (length_blockOf_eq_iff content (Nat.le_add_left 1 n)).mpr full
  have number : (Int16.ofNat (n + 1)).toInt = x.1.block := by
    rw [h.block]
    exact Int16.toInt_ofNat_of_lt (by omega)
  have next := h.offered.passed_nextAck h.block [] full
  have ack : [(⟨ACK, Int16.ofNat x.1.block, []⟩ : Packet)] = [⟨ACK, Int16.ofNat (n + 1), []⟩] := by
    rw [h.block]
  rw [h.exchange]
  dsimp only
  rw [recv_dataPacket rfl, if_pos number, if_pos size]
  exact {
    running := h.running
    receiving := next
    block := congrArg (· + 1) h.block
    peer := if_pos ack
    queue := rfl }

theorem RecvInStep.last {content : List UInt8} {n : Nat} {x : Receiver × Nat}
    (h : RecvInStep content n x) (small : n + 1 ≤ 32767) (last : n + 1 = blockCount content) :
    (recvExchange content x).1.status = .finished ∧
      (recvExchange content x).1.dst.file.bytes = content := by
  have end_ : content.length < SEGSIZE * (n + 1) := by
    unfold blockCount SEGSIZE at *
    omega
  have size : ¬ (blockOf content (n + 1)).length = SEGSIZE := by
    rw [length_blockOf_eq_iff content (Nat.le_add_left 1 n)]
    omega
  have number : (Int16.ofNat (n + 1)).toInt = x.1.block := by
    rw [h.block]
    exact Int16.toInt_ofNat_of_lt (by omega)
  have received := h.offered.passed_finish h.block [] (Nat.le_of_lt end_)
  rw [h.exchange]
  dsimp only
  rw [recv_dataPacket rfl, if_pos number, if_neg size]
  exact ⟨rfl, received.whole (Or.inl rfl)⟩

theorem recvInStep_recvRun (content : List UInt8) {n : Nat} (more : n < blockCount content)
    (small : n ≤ 32767) : RecvInStep content n (recvRun content n) := by
  induction n with
  | zero => exact recvInStep_zero content
  | succ n ih =>
      rw [recvRun_succ]
      exact (ih (by omega) (by omega)).next small more

theorem recvRun_finished {content : List UInt8} (few : blockCount content ≤ 32767) {n : Nat}
    (enough : blockCount content ≤ n) :
    (recvRun content n).1.status = .finished ∧
      (recvRun content n).1.dst.file.bytes = content := by
  induction n, enough using Nat.le_induction with
  | base =>
      obtain ⟨n, count⟩ : ∃ n, blockCount content = n + 1 := ⟨_, rfl⟩
      have step := recvInStep_recvRun content (n := n) (by omega) (by omega)
      rw [count, recvRun_succ]
      exact step.last (by omega) count.symm
  | succ n enough ih =>
      have still : recvExchange content (recvRun content n) = recvRun content n := by
        unfold recvExchange
        rw [ih.1]
      rw [recvRun_succ, still]
      exact ih

/-- The receiver drops block 32768 each time it comes. -/
theorem RecvInStep.again {content : List UInt8} {x : Receiver × Nat}
    (h : RecvInStep content 32767 x) : RecvInStep content 32767 (recvExchange content x) := by
  have field : (Int16.ofNat (32767 + 1)).toInt = -32768 := by decide
  have number : ¬ (Int16.ofNat (32767 + 1)).toInt = x.1.block := by
    rw [field, h.block]
    omega
  have before : ¬ (Int16.ofNat (32767 + 1)).toInt = (x.1.block : Int) - 1 := by
    rw [field, h.block]
    omega
  have fetched := h.offered.fetch (dataPacket content (32767 + 1)) []
  rw [h.exchange]
  dsimp only
  rw [recv_dataPacket rfl, if_neg number, if_neg before]
  exact {
    running := h.running
    receiving := ⟨fetched.low, fetched.full, fetched.writing⟩
    block := h.block
    peer := by
      rw [if_neg]
      exact (List.cons_ne_nil _ _).symm
    queue := rfl }

theorem recvRun_unfinished {content : List UInt8} (many : 32767 < blockCount content) (n : Nat) :
    (recvRun content n).1.status ≠ .finished := by
  have running : (recvRun content n).1.status = .running := by
    rcases Nat.lt_or_ge n 32767 with early | late
    · exact (recvInStep_recvRun content (by omega) (by omega)).running
    · have stuck : RecvInStep content 32767 (recvRun content n) := by
        induction n, late using Nat.le_induction with
        | base => exact recvInStep_recvRun content many (Nat.le_refl 32767)
        | succ n late ih =>
            rw [recvRun_succ]
            exact ih.again
      exact stuck.running
  rw [running]
  decide

theorem recvCompletes_iff (content : List UInt8) :
    RecvCompletes content ↔ blockCount content ≤ 32767 := by
  constructor
  · intro completes
    by_contra many
    obtain ⟨n, finished, -⟩ := completes.finishes
    exact recvRun_unfinished (by omega) n finished
  · intro few
    refine ⟨fun n running => ?_, blockCount content, recvRun_finished few (Nat.le_refl _)⟩
    rcases Nat.lt_or_ge n (blockCount content) with early | late
    · have step := recvInStep_recvRun content early (by omega)
      rw [step.peer, step.block]
      exact toInt_wireBlock (by omega)
    · rw [(recvRun_finished few late).1] at running
      exact absurd running (by decide)

/-! ### Files of any size -/

/-- In octet mode both sides complete exactly the files of at most 32767 blocks. -/
theorem transfer_completes_iff (content : List UInt8) :
    (SendCompletes content ↔ blockCount content ≤ 32767) ∧
      (RecvCompletes content ↔ blockCount content ≤ 32767) :=
  ⟨sendCompletes_iff content, recvCompletes_iff content⟩

@[irreducible] def fullBlocks (n : Nat) : List UInt8 := List.replicate (SEGSIZE * n) 0

theorem blockCount_fullBlocks (n : Nat) : blockCount (fullBlocks n) = n + 1 := by
  unfold blockCount fullBlocks
  rw [List.length_replicate, Nat.mul_div_cancel_left n (by decide)]

/-- A file of 32767 full blocks is never sent and never received, however long one
waits. -/
theorem sixteen_megabytes_fail :
    ¬ SendCompletes (fullBlocks 32767) ∧ ¬ RecvCompletes (fullBlocks 32767) ∧
      (∀ n, (sendRun (fullBlocks 32767) n).status ≠ .finished) ∧
      ∀ n, (recvRun (fullBlocks 32767) n).1.status ≠ .finished := by
  have count := blockCount_fullBlocks 32767
  refine ⟨?_, ?_, ?_, ?_⟩
  · rw [sendCompletes_iff, count]
    omega
  · rw [recvCompletes_iff, count]
    omega
  · exact sendRun_unfinished (by omega)
  · exact recvRun_unfinished (by omega)

end Baseliner.TftpBlockNumbers
