import Baseliner.TftpBuffers

/-! Netascii from the file that is sent to the file that is received, block by
block. `sendfile` calls `readit` for each block and `read_ahead` each time the
block is sent; `recvfile` calls `writeit` for each block and `write_behind` each
time it is acknowledged. How often a block is sent again is arbitrary. -/

namespace Baseliner.TftpNetascii

open TftpBuffers

/-- The calls of `read_ahead` while a block is being sent. -/
def readAheads (convert : Bool) : Nat → Buffers × Source → Buffers × Source
  | 0, s => s
  | n + 1, s => readAheads convert n (readAhead convert s.1 s.2)

/-- The loop of `sendfile`: the blocks that are handed out. Nothing is returned
when `fuel` rounds are not enough. -/
def sendBlocks (convert : Bool) (sends : Nat → Nat) : Nat → Nat → Buffers × Source →
    Option (List (List UInt8))
  | 0, _, _ => none
  | fuel + 1, block, s =>
      let s := readit convert s.1 s.2
      let data := (s.1.bfs s.1.current).packet.thData.take s.1.size.toNat
      let s' := readAheads convert (sends block) s
      if s.1.size = SEGSIZE then
        (sendBlocks convert sends fuel (block + 1) s').map (data :: ·)
      else some [data]

def writeBehinds (convert : Bool) : Nat → Buffers × Sink → Buffers × Sink
  | 0, s => s
  | n + 1, s => writeBehinds convert n (writeBehind convert s.1 s.2)

/-- The loop of `recvfile` over the blocks that come in. -/
def recvBlocks (convert : Bool) (acks : Nat → Nat) : Nat → List (List UInt8) → Buffers × Sink →
    Buffers × Sink
  | _, [], s => s
  | block, data :: blocks, s =>
      let s := writeBehinds convert (acks block) s
      let packet := { (s.1.bfs s.1.current).packet with thData := data }
      let b := s.1.set s.1.current { s.1.bfs s.1.current with packet := packet }
      recvBlocks convert acks (block + 1) blocks (writeit convert b s.2 data.length)

def encodedBlocks (sends : Nat → Nat) (fuel : Nat) (content : List UInt8) :
    Option (List (List UInt8)) :=
  sendBlocks true sends fuel 1 (rwInit true, ⟨false, none, content⟩)

/-- The file that is written from the blocks, after the last `write_behind`. -/
def decodedFile (acks : Nat → Nat) (blocks : List (List UInt8)) : OutFile :=
  let s := recvBlocks true acks 1 blocks (rwInit false, ⟨none, [], 0⟩)
  (writeBehind true s.1 s.2).2.file

/-! ### The blocks -/

theorem reading_readAheads {convert : Bool} (n : Nat) {s : Buffers × Source}
    {stream : List UInt8} (h : Reading convert s.1 s.2 stream) :
    Reading convert (readAheads convert n s).1 (readAheads convert n s).2 stream := by
  induction n generalizing s with
  | zero => exact h
  | succ n ih => exact ih h.readAhead.1

structure Blocks (blocks : List (List UInt8)) (stream : List UInt8) : Prop where
  flatten : blocks.flatten = stream
  full : ∀ block ∈ blocks.dropLast, block.length = SEGSIZE
  short : ∃ last, blocks.getLast? = some last ∧ last.length < SEGSIZE

theorem blocks_singleton {stream : List UInt8} (short : stream.length < SEGSIZE) :
    Blocks [stream] stream where
  flatten := by simp
  full := by simp
  short := ⟨stream, rfl, short⟩

theorem Blocks.cons {blocks : List (List UInt8)} {data rest : List UInt8} (h : Blocks blocks rest)
    (size : data.length = SEGSIZE) : Blocks (data :: blocks) (data ++ rest) := by
  obtain ⟨last, shown, short⟩ := h.short
  have some : blocks ≠ [] := by
    rintro rfl
    cases shown
  refine ⟨?_, ?_, last, ?_, short⟩
  · rw [List.flatten_cons, h.flatten]
  · rw [List.dropLast_cons_of_ne_nil some]
    exact List.forall_mem_cons.mpr ⟨size, h.full⟩
  · rw [List.getLast?_cons, shown]
    rfl

theorem sendBlocks_eq {convert : Bool} (sends : Nat → Nat) (fuel block : Nat)
    {s : Buffers × Source} {stream : List UInt8} (h : Reading convert s.1 s.2 stream)
    (enough : stream.length / SEGSIZE < fuel) :
    ∃ blocks, sendBlocks convert sends fuel block s = some blocks ∧ Blocks blocks stream := by
  induction fuel generalizing block s stream with
  | zero => exact absurd enough (Nat.not_lt_zero _)
  | succ fuel ih =>
      obtain ⟨reading, size, data⟩ := h.readit
      have next := reading_readAheads (sends block) reading
      rw [sendBlocks, size, data, Int.toNat_natCast, List.take_length]
      by_cases full : SEGSIZE ≤ stream.length
      · have length : (stream.take SEGSIZE).length = SEGSIZE := List.length_take_of_le full
        have fewer : (stream.drop SEGSIZE).length / SEGSIZE < fuel := by
          rw [List.length_drop]
          unfold SEGSIZE at *
          omega
        obtain ⟨blocks, sent, spec⟩ := ih (block + 1) next fewer
        have whole := spec.cons length
        rw [List.take_append_drop] at whole
        rw [if_pos (congrArg Nat.cast length), sent]
        exact ⟨_, rfl, whole⟩
      · have all : stream.take SEGSIZE = stream := List.take_of_length_le (by omega)
        rw [all, if_neg (by omega)]
        exact ⟨_, rfl, blocks_singleton (by omega)⟩

/-! ### The file -/

theorem writing_writeBehinds {convert : Bool} (n : Nat) {s : Buffers × Sink}
    {passed : List UInt8} (h : Writing convert s.1 s.2 passed) :
    Writing convert (writeBehinds convert n s).1 (writeBehinds convert n s).2 passed := by
  induction n generalizing s with
  | zero => exact h
  | succ n ih => exact ih h.writeBehind.1

theorem writing_recvBlocks {convert : Bool} (acks : Nat → Nat) (block : Nat)
    (blocks : List (List UInt8)) {s : Buffers × Sink} {passed : List UInt8}
    (h : Writing convert s.1 s.2 passed) :
    Writing convert (recvBlocks convert acks block blocks s).1
      (recvBlocks convert acks block blocks s).2 (passed ++ blocks.flatten) := by
  induction blocks generalizing block s passed with
  | nil => simpa [recvBlocks] using h
  | cons data blocks ih =>
      have behind := writing_writeBehinds (acks block) h
      rw [recvBlocks, List.flatten_cons, ← List.append_assoc]
      apply ih
      apply (behind.set _).writeit
      simp

theorem foldl_put_encode (content bytes : List UInt8) (prevchar : Option UInt8)
    (between : prevchar ≠ some CR) :
    ∃ prevchar', prevchar' ≠ some CR ∧
      (encode content).foldl Sink.put ⟨prevchar, bytes, bytes.length⟩ =
        ⟨prevchar', bytes ++ content, (bytes ++ content).length⟩ := by
  induction content generalizing bytes prevchar with
  | nil => exact ⟨prevchar, between, by simp [encode]⟩
  | cons c content ih =>
      have more : bytes ++ c :: content = bytes ++ [c] ++ content := by simp
      rw [more]
      by_cases lf : c = LF
      · subst lf
        have pair : encode (LF :: content) = CR :: LF :: encode content := rfl
        have put : (Sink.put ⟨prevchar, bytes, bytes.length⟩ CR).put LF =
            ⟨some LF, bytes ++ [LF], (bytes ++ [LF]).length⟩ := by
          simp [Sink.put, between, OutFile.putc, OutFile.write, OutFile.back]
        rw [pair, List.foldl_cons, List.foldl_cons, put]
        exact ih (bytes ++ [LF]) (some LF) (by decide)
      · by_cases cr : c = CR
        · subst cr
          have pair : encode (CR :: content) = CR :: NUL :: encode content := rfl
          have put : (Sink.put ⟨prevchar, bytes, bytes.length⟩ CR).put NUL =
              ⟨some NUL, bytes ++ [CR], (bytes ++ [CR]).length⟩ := by
            have other : NUL ≠ LF := by decide
            simp [Sink.put, between, OutFile.putc, OutFile.write, other]
          rw [pair, List.foldl_cons, List.foldl_cons, put]
          exact ih (bytes ++ [CR]) (some NUL) (by decide)
        · have one : encode (c :: content) = c :: encode content := by simp [encode, lf, cr]
          have put : Sink.put ⟨prevchar, bytes, bytes.length⟩ c =
              ⟨some c, bytes ++ [c], (bytes ++ [c]).length⟩ := by
            simp [Sink.put, between, OutFile.putc, OutFile.write]
          rw [one, List.foldl_cons, put]
          exact ih (bytes ++ [c]) (some c) (by simpa using cr)

theorem received_encode (content : List UInt8) :
    (received true (encode content)).file = ⟨content, content.length⟩ := by
  obtain ⟨prevchar, -, put⟩ := foldl_put_encode content [] none (by simp)
  unfold received putbuf
  rw [if_pos rfl]
  exact congrArg Sink.file put

/-- The blocks give back the file, however often they are sent again, and only the
last one is short. -/
theorem netascii_round_trip (content : List UInt8) (sends acks : Nat → Nat) (extra : Nat) :
    ∃ blocks,
      encodedBlocks sends ((encode content).length / SEGSIZE + 1 + extra) content = some blocks ∧
        (decodedFile acks blocks).bytes = content ∧
        (∀ block ∈ blocks.dropLast, block.length = SEGSIZE) ∧
        ∃ last, blocks.getLast? = some last ∧ last.length < SEGSIZE := by
  have reading : Reading true (rwInit true) ⟨false, none, content⟩ (encode content) :=
    reading_rwInit true content
  obtain ⟨blocks, sent, spec⟩ := sendBlocks_eq sends
    ((encode content).length / SEGSIZE + 1 + extra) 1
    (s := (rwInit true, ⟨false, none, content⟩)) reading (by omega)
  refine ⟨blocks, sent, ?_, spec.full, spec.short⟩
  have written := (writing_recvBlocks acks 1 blocks
    (s := (rwInit false, ⟨none, [], 0⟩)) (writing_rwInit true)).writeBehind.2
  rw [List.nil_append, spec.flatten] at written
  unfold decodedFile
  dsimp only
  rw [written, received_encode]

end Baseliner.TftpNetascii
