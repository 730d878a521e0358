import Mathlib.Data.List.Basic
import Mathlib.Tactic.SplitIfs

/-! The two buffers of `tftpsubs.c`. `read_ahead` fills the buffer that is not
being sent, `write_behind` flushes the one that is not being received into, and
both translate from and to netascii when `convert` is set. Reads and writes
succeed; a read is short only at the end of the file. -/

namespace Baseliner.TftpBuffers

def SEGSIZE : Nat := 512

def NUL : UInt8 := 0
def LF : UInt8 := 10
def CR : UInt8 := 13

/-- A `struct tftphdr` in host byte order, with the data that follows it. -/
structure Packet where
  thOpcode : Nat
  thBlock : Int16
  thData : List UInt8
  deriving DecidableEq, Repr

/-- `counter` is the size of the data, or a flag. -/
structure Bf where
  counter : Int
  packet : Packet

def BF_ALLOC : Int := -3
def BF_FREE : Int := -2

structure Buffers where
  bfs : Bool → Bf
  nextone : Bool
  current : Bool

def Buffers.set (b : Buffers) (i : Bool) (bf : Bf) : Buffers :=
  { b with bfs := fun j => if j = i then bf else b.bfs j }

def Buffers.setCounter (b : Buffers) (i : Bool) (counter : Int) : Buffers :=
  b.set i { b.bfs i with counter := counter }

def Buffers.zero : Buffers := ⟨fun _ => ⟨0, 0, 0, []⟩, false, false⟩

def rwInit (x : Bool) : Buffers :=
  { (Buffers.zero.setCounter false BF_ALLOC).setCounter true BF_FREE with nextone := x }

/-! ### Reading -/

/-- The file that is read, with the flags of the expansion of line ends. -/
structure Source where
  newline : Bool
  prevchar : Option UInt8
  file : List UInt8

/-- The loop over the buffer, with room for `n` more bytes. -/
def fill : Nat → Source → List UInt8 × Source
  | 0, src => ([], src)
  | n + 1, src =>
      if src.newline then
        let c := if src.prevchar = some LF then LF else NUL
        let (rest, src) := fill n { src with newline := false }
        (c :: rest, src)
      else
        match src.file with
        | [] => ([], src)
        | c :: file =>
            if c = LF ∨ c = CR then
              let (rest, src) := fill n ⟨true, some c, file⟩
              (CR :: rest, src)
            else
              let (rest, src) := fill n { src with file := file }
              (c :: rest, src)

def read (src : Source) : List UInt8 × Source :=
  (src.file.take SEGSIZE, { src with file := src.file.drop SEGSIZE })

def fillbuf (convert : Bool) (src : Source) : List UInt8 × Source :=
  if convert then fill SEGSIZE src else read src

def readAhead (convert : Bool) (b : Buffers) (src : Source) : Buffers × Source :=
  let bf := b.bfs b.nextone
  if bf.counter ≠ BF_FREE then (b, src)
  else
    let (data, src) := fillbuf convert src
    ({ b.set b.nextone ⟨data.length, { bf.packet with thData := data }⟩ with
        nextone := !b.nextone }, src)

/-- Frees the buffer that was sent and goes to the other one. The size is its
`counter` afterwards. -/
def readit (convert : Bool) (b : Buffers) (src : Source) : Buffers × Source :=
  let b := { b.setCounter b.current BF_FREE with current := !b.current }
  if (b.bfs b.current).counter = BF_FREE then readAhead convert b src else (b, src)

def Buffers.size (b : Buffers) : Int := (b.bfs b.current).counter

/-! ### Writing -/

structure OutFile where
  bytes : List UInt8
  pos : Nat

def OutFile.write (file : OutFile) (data : List UInt8) : OutFile :=
  ⟨file.bytes.take file.pos ++ data ++ file.bytes.drop (file.pos + data.length),
    file.pos + data.length⟩

def OutFile.putc (file : OutFile) (c : UInt8) : OutFile := file.write [c]

/-- `fseek (file, -1, 1)`, which fails at the beginning. -/
def OutFile.back (file : OutFile) : OutFile := { file with pos := file.pos - 1 }

structure Sink where
  prevchar : Option UInt8
  file : OutFile

/-- A line feed goes on top of the carriage return before it, a zero byte after
one is dropped. -/
def Sink.put (dst : Sink) (c : UInt8) : Sink :=
  if dst.prevchar = some CR then
    if c = LF then ⟨some c, dst.file.back.putc c⟩
    else if c = NUL then { dst with prevchar := some c }
    else ⟨some c, dst.file.putc c⟩
  else ⟨some c, dst.file.putc c⟩

def putbuf (convert : Bool) (dst : Sink) (data : List UInt8) : Sink :=
  if convert then data.foldl Sink.put dst else { dst with file := dst.file.write data }

def writeBehind (convert : Bool) (b : Buffers) (dst : Sink) : Buffers × Sink :=
  let bf := b.bfs b.nextone
  if bf.counter < -1 then (b, dst)
  else
    ({ b.setCounter b.nextone BF_FREE with nextone := !b.nextone },
      if bf.counter ≤ 0 then dst
      else putbuf convert dst (bf.packet.thData.take bf.counter.toNat))

def writeit (convert : Bool) (b : Buffers) (dst : Sink) (ct : Int) : Buffers × Sink :=
  let b := { b.setCounter b.current ct with current := !b.current }
  let (b, dst) :=
    if (b.bfs b.current).counter ≠ BF_FREE then writeBehind convert b dst else (b, dst)
  (b.setCounter b.current BF_ALLOC, dst)

@[simp] theorem set_bfs_self (b : Buffers) (i : Bool) (bf : Bf) : (b.set i bf).bfs i = bf :=
  if_pos rfl

@[simp] theorem set_bfs_other (b : Buffers) (i : Bool) (bf : Bf) :
    (b.set i bf).bfs (!i) = b.bfs (!i) :=
  if_neg (by simp)

@[simp] theorem set_bfs_not (b : Buffers) (i : Bool) (bf : Bf) :
    (b.set (!i) bf).bfs i = b.bfs i :=
  if_neg (by simp)

@[simp] theorem set_nextone (b : Buffers) (i : Bool) (bf : Bf) :
    (b.set i bf).nextone = b.nextone := rfl

@[simp] theorem set_current (b : Buffers) (i : Bool) (bf : Bf) :
    (b.set i bf).current = b.current := rfl

/-! Which packets the buffers hold is left alone by all that is written from them. -/

@[simp] theorem setCounter_packet (b : Buffers) (i j : Bool) (counter : Int) :
    ((b.setCounter i counter).bfs j).packet = (b.bfs j).packet := by
  unfold Buffers.setCounter Buffers.set
  by_cases same : j = i
  · subst same
    simp
  · simp [same]

theorem writeBehind_current (convert : Bool) (b : Buffers) (dst : Sink) :
    (writeBehind convert b dst).1.current = b.current := by
  unfold writeBehind
  dsimp only
  split
  · rfl
  · rfl

theorem writeBehind_packet (convert : Bool) (b : Buffers) (dst : Sink) (i : Bool) :
    ((writeBehind convert b dst).1.bfs i).packet = (b.bfs i).packet := by
  unfold writeBehind
  dsimp only
  split
  · rfl
  · exact setCounter_packet b b.nextone i BF_FREE

theorem writeit_current (convert : Bool) (b : Buffers) (dst : Sink) (ct : Int) :
    (writeit convert b dst ct).1.current = !b.current := by
  unfold writeit
  dsimp only
  split
  · exact writeBehind_current convert _ dst
  · rfl

theorem writeit_packet (convert : Bool) (b : Buffers) (dst : Sink) (ct : Int) (i : Bool) :
    ((writeit convert b dst ct).1.bfs i).packet = (b.bfs i).packet := by
  unfold writeit
  dsimp only
  rw [setCounter_packet]
  split
  · rw [writeBehind_packet]
    exact setCounter_packet b b.current i ct
  · exact setCounter_packet b b.current i ct

/-! ### What is still to be read -/

/-- Netascii: a line feed becomes a carriage return and a line feed, a carriage
return one followed by a zero byte. -/
def encode (content : List UInt8) : List UInt8 :=
  content.flatMap fun c => if c = LF then [CR, LF] else if c = CR then [CR, NUL] else [c]

def Source.stream (convert : Bool) (src : Source) : List UInt8 :=
  if convert then
    (if src.newline then [if src.prevchar = some LF then LF else NUL] else []) ++ encode src.file
  else src.file

theorem fill_eq (n : Nat) (src : Source) :
    (fill n src).1 = (src.stream true).take n ∧
      (fill n src).2.stream true = (src.stream true).drop n := by
  induction n generalizing src with
  | zero => simp [fill]
  | succ n ih =>
      obtain ⟨newline, prevchar, file⟩ := src
      cases newline with
      | true =>
          obtain ⟨taken, left⟩ := ih ⟨false, prevchar, file⟩
          simp only [fill, if_true, Source.stream] at taken left ⊢
          simp [taken, left]
      | false =>
          cases file with
          | nil => simp [fill, Source.stream, encode]
          | cons c file =>
              by_cases ends : c = LF ∨ c = CR
              · obtain ⟨taken, left⟩ := ih ⟨true, some c, file⟩
                have pair : encode (c :: file) =
                    CR :: (if c = LF then LF else NUL) :: encode file := by
                  rcases ends with rfl | rfl
                  · rfl
                  · rfl
                simp only [fill, if_true, ends, Source.stream, pair] at taken left ⊢
                simp [taken, left]
              · obtain ⟨taken, left⟩ := ih ⟨false, prevchar, file⟩
                have one : encode (c :: file) = c :: encode file := by
                  rw [not_or] at ends
                  simp [encode, ends.1, ends.2]
                simp only [fill, ends, Source.stream, one] at taken left ⊢
                simp at taken left
                simp [taken, left]

theorem fillbuf_eq (convert : Bool) (src : Source) :
    (fillbuf convert src).1 = (src.stream convert).take SEGSIZE ∧
      (fillbuf convert src).2.stream convert = (src.stream convert).drop SEGSIZE := by
  cases convert with
  | true => exact fill_eq SEGSIZE src
  | false => exact ⟨rfl, rfl⟩

/-- The buffer in use is being sent, and `stream` comes after it: from the source
alone, or first from the other buffer. -/
inductive Reading (convert : Bool) (b : Buffers) (src : Source) (stream : List UInt8) : Prop
  | free (busy : (b.bfs b.current).counter ≠ BF_FREE)
      (other : (b.bfs (!b.current)).counter = BF_FREE) (next : b.nextone = !b.current)
      (rest : src.stream convert = stream)
  | filled (busy : (b.bfs b.current).counter ≠ BF_FREE)
      (other : (b.bfs (!b.current)).counter = (stream.take SEGSIZE).length)
      (data : (b.bfs (!b.current)).packet.thData = stream.take SEGSIZE)
      (next : b.nextone = b.current) (rest : src.stream convert = stream.drop SEGSIZE)

theorem reading_rwInit (convert : Bool) (content : List UInt8) :
    Reading convert (rwInit true) ⟨false, none, content⟩
      (if convert then encode content else content) := by
  refine .free (by decide) rfl rfl ?_
  cases convert with
  | true => rfl
  | false => rfl

theorem length_ne_free (data : List UInt8) : (data.length : Int) ≠ BF_FREE := by
  unfold BF_FREE
  omega

theorem Reading.readAhead {convert : Bool} {b : Buffers} {src : Source} {stream : List UInt8}
    (h : Reading convert b src stream) :
    Reading convert (readAhead convert b src).1 (readAhead convert b src).2 stream ∧
      (readAhead convert b src).1.current = b.current ∧
      (readAhead convert b src).1.bfs b.current = b.bfs b.current := by
  unfold TftpBuffers.readAhead
  cases h with
  | free busy other next rest =>
      obtain ⟨data, left⟩ := fillbuf_eq convert src
      rw [rest] at data left
      dsimp only
      rw [if_neg (by rw [next, other]; simp)]
      generalize fillbuf convert src = filled at data left ⊢
      obtain ⟨bytes, after⟩ := filled
      dsimp only at data left ⊢
      rw [next, data]
      refine ⟨.filled ?_ ?_ ?_ ?_ left, rfl, ?_⟩
      · simpa using busy
      · simp
      · simp
      · simp
      · simp
  | filled busy other data next rest =>
      dsimp only
      rw [if_pos (by rw [next]; exact busy)]
      exact ⟨.filled busy other data next rest, rfl, rfl⟩

theorem Reading.readit {convert : Bool} {b : Buffers} {src : Source} {stream : List UInt8}
    (h : Reading convert b src stream) :
    Reading convert (readit convert b src).1 (readit convert b src).2 (stream.drop SEGSIZE) ∧
      (readit convert b src).1.size = (stream.take SEGSIZE).length ∧
      ((readit convert b src).1.bfs (readit convert b src).1.current).packet.thData =
        stream.take SEGSIZE := by
  unfold TftpBuffers.readit Buffers.setCounter Buffers.size
  cases h with
  | free busy other next rest =>
      obtain ⟨data, left⟩ := fillbuf_eq convert src
      rw [rest] at data left
      dsimp only
      rw [if_pos (by simpa using other)]
      unfold TftpBuffers.readAhead
      dsimp only
      rw [if_neg (by simp [next, other])]
      generalize fillbuf convert src = filled at data left ⊢
      obtain ⟨bytes, after⟩ := filled
      dsimp only at data left ⊢
      rw [set_nextone, next, data]
      refine ⟨.free ?_ ?_ ?_ left, ?_, ?_⟩
      · simpa [-List.length_take] using length_ne_free (stream.take SEGSIZE)
      · simp
      · simp
      · simp
      · simp
  | filled busy other data next rest =>
      dsimp only
      have ready : (b.bfs (!b.current)).counter ≠ BF_FREE := by
        rw [other]
        exact length_ne_free _
      rw [if_neg (by simpa using ready)]
      refine ⟨.free ?_ ?_ ?_ rest, ?_, ?_⟩
      · simpa using ready
      · simp
      · simp [next]
      · simpa using other
      · simpa using data

theorem Reading.set {convert : Bool} {b : Buffers} {src : Source} {stream : List UInt8}
    (h : Reading convert b src stream) (packet : Packet) :
    Reading convert (b.set b.current { b.bfs b.current with packet := packet }) src stream := by
  cases h with
  | free busy other next rest =>
      exact .free (by simpa using busy) (by simpa using other) next rest
  | filled busy other data next rest =>
      exact .filled (by simpa using busy) (by simpa using other) (by simpa using data) next rest

/-! ### What has been written -/

/-- An empty file into which `data` was put. -/
def received (convert : Bool) (data : List UInt8) : Sink := putbuf convert ⟨none, [], 0⟩ data

theorem received_octet (data : List UInt8) :
    received false data = ⟨none, data, data.length⟩ := by
  simp [received, putbuf, OutFile.write]

theorem putbuf_received (convert : Bool) (first second : List UInt8) :
    putbuf convert (received convert first) second = received convert (first ++ second) := by
  cases convert with
  | true => simp [received, putbuf, List.foldl_append]
  | false =>
      rw [received_octet, received_octet]
      simp [putbuf, OutFile.write]

/-- The buffer in use is free to receive into. All of `passed` is in the file, or
the last part of it is still in the other buffer. -/
inductive Writing (convert : Bool) (b : Buffers) (dst : Sink) (passed : List UInt8) : Prop
  | clean (alloc : (b.bfs b.current).counter = BF_ALLOC)
      (other : (b.bfs (!b.current)).counter = BF_FREE) (next : b.nextone = b.current)
      (file : dst = received convert passed)
  | pending (alloc : (b.bfs b.current).counter = BF_ALLOC) (flushed data : List UInt8)
      (other : (b.bfs (!b.current)).counter = data.length)
      (held : (b.bfs (!b.current)).packet.thData = data) (next : b.nextone = !b.current)
      (file : dst = received convert flushed) (split : passed = flushed ++ data)

theorem writing_rwInit (convert : Bool) :
    Writing convert (rwInit false) ⟨none, [], 0⟩ [] := by
  refine .clean rfl rfl rfl ?_
  cases convert with
  | true => rfl
  | false => rfl

theorem writeBehind_eq {convert : Bool} {b : Buffers} {flushed : List UInt8} (data : List UInt8)
    (size : (b.bfs b.nextone).counter = data.length)
    (held : (b.bfs b.nextone).packet.thData = data) :
    writeBehind convert b (received convert flushed) =
      ({ b.setCounter b.nextone BF_FREE with nextone := !b.nextone },
        received convert (flushed ++ data)) := by
  have put : (if (data.length : Int) ≤ 0 then received convert flushed
      else putbuf convert (received convert flushed) (data.take (data.length : Int).toNat)) =
      received convert (flushed ++ data) := by
    split_ifs with empty
    · have none : data = [] := by
        apply List.length_eq_zero_iff.mp
        omega
      rw [none, List.append_nil]
    · rw [Int.toNat_natCast, List.take_length, putbuf_received]
  unfold writeBehind
  dsimp only
  rw [size, held, if_neg (by omega), put]

theorem Writing.writeBehind {convert : Bool} {b : Buffers} {dst : Sink} {passed : List UInt8}
    (h : Writing convert b dst passed) :
    Writing convert (writeBehind convert b dst).1 (writeBehind convert b dst).2 passed ∧
      (writeBehind convert b dst).2 = received convert passed := by
  cases h with
  | clean alloc other next file =>
      have idle : TftpBuffers.writeBehind convert b dst = (b, dst) := by
        unfold TftpBuffers.writeBehind
        rw [if_pos (by rw [next, alloc]; decide)]
      rw [idle]
      exact ⟨.clean alloc other next file, file⟩
  | pending alloc flushed data other held next file split =>
      rw [file, writeBehind_eq data (by rw [next, other]) (by rw [next, held]), ← split]
      unfold Buffers.setCounter
      rw [next]
      refine ⟨.clean ?_ ?_ ?_ rfl, rfl⟩
      · simpa using alloc
      · simp
      · simp

theorem Writing.writeit {convert : Bool} {b : Buffers} {dst : Sink} {passed : List UInt8}
    (h : Writing convert b dst passed) {data : List UInt8}
    (packet : (b.bfs b.current).packet.thData = data) :
    Writing convert (writeit convert b dst data.length).1 (writeit convert b dst data.length).2
      (passed ++ data) := by
  unfold TftpBuffers.writeit Buffers.setCounter
  cases h with
  | clean alloc other next file =>
      dsimp only
      rw [if_neg (by simp [other])]
      refine .pending ?_ passed data ?_ ?_ ?_ file rfl
      · simp
      · simp
      · simpa using packet
      · simpa using next
  | pending alloc flushed bytes other held next file split =>
      have busy : (b.bfs (!b.current)).counter ≠ BF_FREE := by
        rw [other]
        exact length_ne_free bytes
      dsimp only
      rw [if_pos (by simpa using busy), file, writeBehind_eq bytes ?_ ?_, ← split]
      · refine .pending ?_ passed data ?_ ?_ ?_ rfl rfl
        · simp
        · simp [next, Buffers.setCounter]
        · simpa [next, Buffers.setCounter] using packet
        · simp [next, Buffers.setCounter]
      · simpa [next] using other
      · simpa [next] using held

theorem Writing.set {convert : Bool} {b : Buffers} {dst : Sink} {passed : List UInt8}
    (h : Writing convert b dst passed) (packet : Packet) :
    Writing convert (b.set b.current { b.bfs b.current with packet := packet }) dst passed := by
  cases h with
  | clean alloc other next file =>
      exact .clean (by simpa using alloc) (by simpa using other) next file
  | pending alloc flushed data other held next file split =>
      exact .pending (by simpa using alloc) flushed data (by simpa using other)
        (by simpa using held) next file split

theorem Writing.exists_flushed {convert : Bool} {b : Buffers} {dst : Sink} {passed : List UInt8}
    (h : Writing convert b dst passed) :
    ∃ flushed, flushed <+: passed ∧ dst = received convert flushed := by
  cases h with
  | clean alloc other next file => exact ⟨passed, List.prefix_refl passed, file⟩
  | pending alloc flushed data other held next file split =>
      refine ⟨flushed, ?_, file⟩
      rw [split]
      exact List.prefix_append flushed data

end Baseliner.TftpBuffers
