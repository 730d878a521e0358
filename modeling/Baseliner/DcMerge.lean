import Mathlib.Algebra.Order.BigOperators.Group.List
import Baseliner.DcRuns
import Baseliner.RunMerge

/-! `MultiWayMerge` of the DC benchmark. Each chunk has its part of the pool, from which
its rows are taken and which is loaded again when it is empty. -/

namespace Baseliner.DcMerge

open PathTree KeyedSums RunMerge DcTree DcRuns

variable {nm : Nat}

section Merging

/-- The chunks and the buffer, which is the pool: `regSubChunkSize` slots for each chunk. -/
structure Merge (nm : Nat) where
  chunksParams : Nat → Chunk
  multiChunkBuffer : Nat → Row nm

variable (memoryLimit outRecSize numberOfChunks regSubChunkSize : Nat) (fileOfChunks : File nm)

def seekAndReadNextSubChunk (multiChunkBuffer : Nat → Row nm) (k inFileOffs subChunkNum : Nat) :
    Option (Nat → Row nm) :=
  if memoryLimit < (k + subChunkNum) * outRecSize then none
  else match seek fileOfChunks inFileOffs with
    | none => none
    | some file =>
        if file.length < subChunkNum then none
        else some fun slot =>
          if k ≤ slot ∧ slot < k + subChunkNum then file.getD (slot - k) default
          else multiChunkBuffer slot

/-- The next rows of a chunk; fewer than a full load go to the end of its slots. -/
def readSubChunk (iChunk : Nat) (m : Merge nm) : Outcome (Merge nm) :=
  let c := m.chunksParams iChunk
  if 0 < c.curChunkNum then
    if c.curChunkNum < regSubChunkSize then
      match seekAndReadNextSubChunk memoryLimit outRecSize fileOfChunks m.multiChunkBuffer
          (iChunk * regSubChunkSize + (regSubChunkSize - c.curChunkNum)) c.chunkOffset.toNat
          c.curChunkNum with
      | none => .undefined
      | some buffer => .ok ⟨Function.update m.chunksParams iChunk
          ⟨0, -1, regSubChunkSize - c.curChunkNum, c.curChunkNum⟩, buffer⟩
    else
      match seekAndReadNextSubChunk memoryLimit outRecSize fileOfChunks m.multiChunkBuffer
          (iChunk * regSubChunkSize) c.chunkOffset.toNat regSubChunkSize with
      | none => .undefined
      | some buffer => .ok ⟨Function.update m.chunksParams iChunk
          ⟨c.curChunkNum - regSubChunkSize, c.chunkOffset + ↑(regSubChunkSize * outRecSize), 0,
            regSubChunkSize⟩, buffer⟩
  else .ok m

def Merge.front (m : Merge nm) (iChunk : Nat) : Row nm :=
  m.multiChunkBuffer (iChunk * regSubChunkSize + (m.chunksParams iChunk).posSubChunk)

/-- `min_r_chunk`: the first chunk with rows, or a later one with a smaller key. -/
def Merge.minChunk (m : Merge nm) : Option Nat :=
  ((List.range numberOfChunks).find? fun i => 0 < (m.chunksParams i).curSubChunk).map fun first =>
    (List.range' first (numberOfChunks - first)).foldl
      (fun min i =>
        if 0 < (m.chunksParams i).curSubChunk ∧
            keyComp (m.front regSubChunkSize i).1 (m.front regSubChunkSize min).1 < 0 then i
        else min)
      first

def Merge.stepForward (m : Merge nm) (iChunk : Nat) : Merge nm :=
  let c := m.chunksParams iChunk
  if c.curSubChunk ≠ 0 then
    { m with
      chunksParams := Function.update m.chunksParams iChunk
        { c with curSubChunk := c.curSubChunk - 1, posSubChunk := c.posSubChunk + 1 } }
  else m

structure MergeOut (nm : Nat) where
  written : Written nm
  outputBuffer : Option (Row nm)

def MergeOut.put (out : MergeOut nm) (minBuf : Row nm) : MergeOut nm :=
  match out.outputBuffer with
  | none => { out with outputBuffer := some minBuf }
  | some buf =>
      if keyComp buf.1 minBuf.1 = 0 then
        { out with outputBuffer := some (buf.1, buf.2 + minBuf.2) }
      else ⟨out.written.mergeRow buf, some minBuf⟩

def Merge.allEmpty (m : Merge nm) : Prop :=
  ∀ i < numberOfChunks, (m.chunksParams i).curSubChunk = 0 ∧ (m.chunksParams i).curChunkNum = 0

instance (m : Merge nm) : Decidable (m.allEmpty numberOfChunks) :=
  inferInstanceAs (Decidable (∀ i < numberOfChunks, _))

/-- The loop takes a row each time; `fuel` is the number of rows. -/
def mergeLoop : (fuel : Nat) → Merge nm → MergeOut nm → Outcome (MergeOut nm)
  | 0, _, _ => .undefined
  | fuel + 1, m, out =>
      match m.minChunk numberOfChunks regSubChunkSize with
      | none => .undefined
      | some i =>
          if (m.stepForward i).allEmpty numberOfChunks then
            .ok (out.put (m.front regSubChunkSize i))
          else if ((m.stepForward i).chunksParams i).curSubChunk = 0 then
            (readSubChunk memoryLimit outRecSize regSubChunkSize fileOfChunks i
              (m.stepForward i)).bind fun m' =>
                mergeLoop fuel m' (out.put (m.front regSubChunkSize i))
          else mergeLoop fuel (m.stepForward i) (out.put (m.front regSubChunkSize i))

def readFirst : (n : Nat) → Merge nm → Outcome (Merge nm)
  | 0, m => .ok m
  | n + 1, m =>
      (readFirst n m).bind
        (readSubChunk memoryLimit outRecSize regSubChunkSize fileOfChunks n)

end Merging

/-- `MultiWayMerge`, behind what has been written before; it counts the rows anew. -/
def multiWayMerge (memoryLimit nv : Nat) (f : Formation nm) (w : Written nm) :
    Outcome (Written nm) :=
  let outRecSize := getRecSize nv nm
  let regSubChunkSize := memoryLimit / f.numberOfChunks / outRecSize
  if regSubChunkSize = 0 then .error ADC_INTERNAL_ERROR
  else
    (readFirst memoryLimit outRecSize regSubChunkSize f.fileOfChunks f.numberOfChunks
      ⟨f.chunksParams, fun _ => default⟩).bind fun m =>
    (mergeLoop memoryLimit outRecSize f.numberOfChunks regSubChunkSize f.fileOfChunks
      f.fileOfChunks.length m ⟨{ w with nViewRows := 0 }, none⟩).bind fun out =>
    match out.outputBuffer with
    | none => .undefined
    | some buf => .ok (out.written.mergeRow buf)

/-- A view from its rows, as `ComputeGivenGroupbys` makes it without `OPTIMIZATION`. -/
def plainView (memoryLimit nv : Nat) (rows : List (Row nm)) : Outcome (Written nm) :=
  (runFormation memoryLimit nv rows).bind fun f =>
    if f.numberOfChunks = 0 then
      .ok (writeViewToDiskCS f.tree.root (⟨[], f.tree.count, fun _ => 0⟩, 0)).1
    else multiWayMerge memoryLimit nv f ⟨[], 0, fun _ => 0⟩

section Slots

variable {memoryLimit nv numberOfChunks regSubChunkSize : Nat} {file : File nm}
  {runs : Nat → List (Row nm)} {m : Merge nm}

/-- The rows of a chunk that are still to come: those in its slots and those on the file. -/
structure Slot (nv regSubChunkSize : Nat) (file : File nm) (buffer : Nat → Row nm) (i : Nat)
    (c : Chunk) (onFile run : List (Row nm)) : Prop where
  fits : c.posSubChunk + c.curSubChunk ≤ regSubChunkSize
  rows : run = (List.range c.curSubChunk).map
    (fun k => buffer (i * regSubChunkSize + c.posSubChunk + k)) ++ onFile
  left : onFile.length = c.curChunkNum
  place : onFile ≠ [] → ∃ front back, file = front ++ (onFile ++ back) ∧
    c.chunkOffset = ↑(front.length * getRecSize nv nm)

theorem Slot.congr {buffer other : Nat → Row nm} {i : Nat} {c : Chunk} {onFile run : List (Row nm)}
    (h : Slot nv regSubChunkSize file buffer i c onFile run)
    (same : ∀ slot, i * regSubChunkSize ≤ slot → slot < (i + 1) * regSubChunkSize →
      other slot = buffer slot) : Slot nv regSubChunkSize file other i c onFile run where
  fits := h.fits
  rows := by
    rw [h.rows]
    refine congrArg (· ++ onFile) (List.map_congr_left ?_)
    intro k hk
    have fits := h.fits
    have := List.mem_range.mp hk
    refine (same _ (by omega) ?_).symm
    rw [Nat.add_mul]
    omega
  left := h.left
  place := h.place

def Loaded (nv numberOfChunks regSubChunkSize : Nat) (file : File nm) (runs : Nat → List (Row nm))
    (m : Merge nm) : Prop :=
  ∀ i < numberOfChunks, ∃ onFile,
    Slot nv regSubChunkSize file m.multiChunkBuffer i (m.chunksParams i) onFile (runs i)

theorem seekAndRead_spec (memoryLimit : Nat) (size : 0 < getRecSize nv nm)
    (keys : ∀ r ∈ file, r.1.length = nv)
    {front rows back : File nm} (split : file = front ++ (rows ++ back)) {k : Nat}
    (pool : (k + rows.length) * getRecSize nv nm ≤ memoryLimit) (buffer : Nat → Row nm) :
    ∃ buffer', seekAndReadNextSubChunk memoryLimit (getRecSize nv nm) file buffer k
        (front.length * getRecSize nv nm) rows.length = some buffer' ∧
      (List.range rows.length).map (fun j => buffer' (k + j)) = rows ∧
      ∀ slot, slot < k ∨ k + rows.length ≤ slot → buffer' slot = buffer slot := by
  have found : seek file (front.length * getRecSize nv nm) = some (rows ++ back) := by
    rw [split] at keys ⊢
    have before : ∀ r ∈ front, r.1.length = nv := fun r hr => keys r (List.mem_append_left _ hr)
    rw [← sum_recSize before]
    refine seek_append fun r hr => ?_
    rw [recSize, before r hr]
    exact size
  rw [seekAndReadNextSubChunk, if_neg (by omega), found]
  dsimp only
  rw [if_neg (by rw [List.length_append]; omega)]
  refine ⟨_, rfl, ?_, ?_⟩
  · refine List.ext_getElem (by simp) ?_
    intro j _ hj
    rw [List.getElem_map, List.getElem_range, if_pos ⟨by omega, by omega⟩,
      Nat.add_sub_cancel_left, List.getD_append _ _ _ _ hj, List.getD_eq_getElem _ _ hj]
  · intro slot outside
    rw [if_neg (by omega)]

theorem Loaded.update {i : Nat} (h : Loaded nv numberOfChunks regSubChunkSize file runs m)
    {c : Chunk} {run : List (Row nm)} {buffer : Nat → Row nm}
    (slot : ∃ onFile, Slot nv regSubChunkSize file buffer i c onFile run)
    (same : ∀ slot, slot < i * regSubChunkSize ∨ (i + 1) * regSubChunkSize ≤ slot →
      buffer slot = m.multiChunkBuffer slot) :
    Loaded nv numberOfChunks regSubChunkSize file (Function.update runs i run)
      ⟨Function.update m.chunksParams i c, buffer⟩ := by
  intro j hj
  dsimp only
  rcases eq_or_ne j i with rfl | other
  · rw [Function.update_self, Function.update_self]
    exact slot
  · obtain ⟨theirs, old⟩ := h j hj
    rw [Function.update_of_ne other, Function.update_of_ne other]
    refine ⟨theirs, old.congr ?_⟩
    intro k low high
    refine same k ?_
    rcases Nat.lt_or_gt_of_ne other with before | behind
    · have : (j + 1) * regSubChunkSize ≤ i * regSubChunkSize := Nat.mul_le_mul_right _ before
      omega
    · have : (i + 1) * regSubChunkSize ≤ j * regSubChunkSize := Nat.mul_le_mul_right _ behind
      omega

section Reads

variable {i : Nat} {front onFile back : File nm} (size : 0 < getRecSize nv nm)
  (keys : ∀ r ∈ file, r.1.length = nv)
  (room : (i + 1) * regSubChunkSize * getRecSize nv nm ≤ memoryLimit)
  (split : file = front ++ (onFile ++ back))

include size keys room split

theorem Slot.readLast (last : onFile.length < regSubChunkSize) (buffer : Nat → Row nm) :
    ∃ buffer', seekAndReadNextSubChunk memoryLimit (getRecSize nv nm) file buffer
        (i * regSubChunkSize + (regSubChunkSize - onFile.length))
        (front.length * getRecSize nv nm) onFile.length = some buffer' ∧
      Slot nv regSubChunkSize file buffer' i
        ⟨0, -1, regSubChunkSize - onFile.length, onFile.length⟩ [] onFile ∧
      ∀ slot, slot < i * regSubChunkSize ∨ (i + 1) * regSubChunkSize ≤ slot →
        buffer' slot = buffer slot := by
  obtain ⟨buffer', read, inside, outside⟩ := seekAndRead_spec memoryLimit size
    keys split (k := i * regSubChunkSize + (regSubChunkSize - onFile.length))
    (by convert room using 2; rw [Nat.add_mul]; omega) buffer
  refine ⟨buffer', read, ⟨(Nat.sub_add_cancel last.le).le, ?_, rfl, fun none => absurd rfl none⟩,
    fun k hk => ?_⟩
  · rw [List.append_nil]
    exact inside.symm
  · rw [Nat.add_mul] at hk
    exact outside k (by omega)

theorem Slot.readMore (enough : regSubChunkSize ≤ onFile.length) (buffer : Nat → Row nm) :
    ∃ buffer', seekAndReadNextSubChunk memoryLimit (getRecSize nv nm) file buffer
        (i * regSubChunkSize) (front.length * getRecSize nv nm) regSubChunkSize = some buffer' ∧
      Slot nv regSubChunkSize file buffer' i
        ⟨onFile.length - regSubChunkSize,
          ↑(front.length * getRecSize nv nm) + ↑(regSubChunkSize * getRecSize nv nm), 0,
          regSubChunkSize⟩ (onFile.drop regSubChunkSize) onFile ∧
      ∀ slot, slot < i * regSubChunkSize ∨ (i + 1) * regSubChunkSize ≤ slot →
        buffer' slot = buffer slot := by
  have length : (onFile.take regSubChunkSize).length = regSubChunkSize := by
    rw [List.length_take]
    omega
  have pieces : file = front ++ (onFile.take regSubChunkSize ++
      (onFile.drop regSubChunkSize ++ back)) := by
    rw [split, ← List.append_assoc (onFile.take _), List.take_append_drop]
  obtain ⟨buffer', read, inside, outside⟩ := seekAndRead_spec memoryLimit size
    keys pieces (k := i * regSubChunkSize)
    (by rw [length]; convert room using 2; rw [Nat.add_mul]; omega) buffer
  rw [length] at read inside outside
  refine ⟨buffer', read, ⟨(Nat.zero_add _).le, ?_, ?_, fun _ => ?_⟩, fun k hk => ?_⟩
  · rw [Nat.add_zero, inside, List.take_append_drop]
  · rw [List.length_drop]
  · refine ⟨front ++ onFile.take regSubChunkSize, back, ?_, ?_⟩
    · rw [pieces, List.append_assoc]
    · rw [List.length_append, length, Nat.add_mul]
      push_cast
      ring
  · rw [Nat.add_mul] at hk
    exact outside k (by omega)

end Reads

theorem Loaded.read {i : Nat} (size : 0 < getRecSize nv nm) (keys : ∀ r ∈ file, r.1.length = nv)
    (load : 0 < regSubChunkSize)
    (pool : numberOfChunks * regSubChunkSize * getRecSize nv nm ≤ memoryLimit)
    (h : Loaded nv numberOfChunks regSubChunkSize file runs m) (here : i < numberOfChunks)
    (empty : (m.chunksParams i).curSubChunk = 0) :
    ∃ m', readSubChunk memoryLimit (getRecSize nv nm) regSubChunkSize file i m = .ok m' ∧
      Loaded nv numberOfChunks regSubChunkSize file runs m' ∧
      ((m'.chunksParams i).curSubChunk = 0 → (m'.chunksParams i).curChunkNum = 0) ∧
      ∀ j ≠ i, m'.chunksParams j = m.chunksParams j := by
  obtain ⟨onFile, slot⟩ := h i here
  have rows := slot.rows
  rw [empty, List.range_zero, List.map_nil, List.nil_append] at rows
  have room : (i + 1) * regSubChunkSize * getRecSize nv nm ≤ memoryLimit :=
    (Nat.mul_le_mul_right _ (Nat.mul_le_mul_right _ here)).trans pool
  have unchanged : Function.update runs i onFile = runs := by
    rw [← rows]
    exact Function.update_eq_self i runs
  rw [readSubChunk]
  by_cases more : 0 < (m.chunksParams i).curChunkNum
  · rw [if_pos more]
    have some_ : onFile ≠ [] := by
      intro none
      rw [← slot.left, none] at more
      exact Nat.lt_irrefl 0 more
    obtain ⟨front, back, split, offset⟩ := slot.place some_
    rw [offset, Int.toNat_natCast]
    by_cases last : (m.chunksParams i).curChunkNum < regSubChunkSize
    · rw [if_pos last, ← slot.left]
      rw [← slot.left] at last
      obtain ⟨buffer, read, loaded, outside⟩ :=
        Slot.readLast size keys room split last m.multiChunkBuffer
      rw [read]
      refine ⟨_, rfl, ?_, fun _ => by simp, fun j other => Function.update_of_ne other ..⟩
      rw [← unchanged]
      exact h.update ⟨_, loaded⟩ outside
    · rw [if_neg last]
      rw [← slot.left] at last
      obtain ⟨buffer, read, loaded, outside⟩ :=
        Slot.readMore size keys room split (Nat.not_lt.mp last) m.multiChunkBuffer
      rw [slot.left] at loaded
      rw [read]
      refine ⟨_, rfl, ?_, fun zero => ?_, fun j other => Function.update_of_ne other ..⟩
      · rw [← unchanged]
        exact h.update ⟨_, loaded⟩ outside
      · simp only [Function.update_self] at zero
        omega
  · rw [if_neg more]
    exact ⟨m, rfl, h, fun _ => by omega, fun _ _ => rfl⟩

/-- The slots are empty only when the chunk is at its end. -/
def Filled (m : Merge nm) (i : Nat) : Prop :=
  (m.chunksParams i).curSubChunk = 0 → (m.chunksParams i).curChunkNum = 0

theorem Loaded.readFirst (size : 0 < getRecSize nv nm) (keys : ∀ r ∈ file, r.1.length = nv)
    (load : 0 < regSubChunkSize)
    (pool : numberOfChunks * regSubChunkSize * getRecSize nv nm ≤ memoryLimit)
    (h : Loaded nv numberOfChunks regSubChunkSize file runs m)
    (empty : ∀ i < numberOfChunks, (m.chunksParams i).curSubChunk = 0) (n : Nat)
    (upTo : n ≤ numberOfChunks) :
    ∃ m', readFirst memoryLimit (getRecSize nv nm) regSubChunkSize file n m = .ok m' ∧
      Loaded nv numberOfChunks regSubChunkSize file runs m' ∧ (∀ i < n, Filled m' i) ∧
      ∀ i ≥ n, m'.chunksParams i = m.chunksParams i := by
  induction n with
  | zero => exact ⟨m, rfl, h, fun i hi => absurd hi (Nat.not_lt_zero i), fun _ _ => rfl⟩
  | succ n ih =>
      obtain ⟨m', first, loaded, filled, others⟩ := ih (by omega)
      have next : (m'.chunksParams n).curSubChunk = 0 := by
        rw [others n le_rfl]
        exact empty n upTo
      obtain ⟨m'', read, loaded', full, same⟩ := loaded.read size keys load pool upTo next
      rw [DcMerge.readFirst, first, Outcome.bind]
      refine ⟨m'', read, loaded', ?_, ?_⟩
      · intro i hi
        rcases Nat.lt_succ_iff_lt_or_eq.mp hi with earlier | rfl
        · rw [Filled, same i (by omega)]
          exact filled i earlier
        · exact full
      · intro i hi
        rw [same i (by omega), others i (by omega)]

theorem Loaded.head {i : Nat} (h : Loaded nv numberOfChunks regSubChunkSize file runs m)
    (here : i < numberOfChunks) (some_ : 0 < (m.chunksParams i).curSubChunk) :
    ∃ rest, runs i = m.front regSubChunkSize i :: rest ∧
      Loaded nv numberOfChunks regSubChunkSize file (Function.update runs i rest)
        (m.stepForward i) := by
  obtain ⟨onFile, slot⟩ := h i here
  obtain ⟨cur, more⟩ : ∃ cur, (m.chunksParams i).curSubChunk = cur + 1 :=
    ⟨_, (Nat.sub_add_cancel some_).symm⟩
  have rows := slot.rows
  rw [more, List.range_succ_eq_map, List.map_cons, List.map_map, List.cons_append] at rows
  refine ⟨_, rows, ?_⟩
  rw [Merge.stepForward, if_pos (by omega)]
  refine h.update ⟨onFile, ?_, ?_, slot.left, slot.place⟩ fun _ _ => rfl
  · have := slot.fits
    dsimp only
    omega
  · dsimp only
    rw [more, Nat.add_sub_cancel]
    refine congrArg (· ++ onFile) (List.map_congr_left ?_)
    intro k _
    rw [Function.comp_apply]
    congr 1
    omega

theorem stepForward_other {i j : Nat} (other : j ≠ i) :
    (m.stepForward i).chunksParams j = m.chunksParams j := by
  rw [Merge.stepForward]
  split_ifs
  · exact Function.update_of_ne other ..
  · rfl

theorem Loaded.empty_iff {i : Nat} (h : Loaded nv numberOfChunks regSubChunkSize file runs m)
    (here : i < numberOfChunks) :
    runs i = [] ↔ (m.chunksParams i).curSubChunk = 0 ∧ (m.chunksParams i).curChunkNum = 0 := by
  obtain ⟨onFile, slot⟩ := h i here
  rw [slot.rows, List.append_eq_nil_iff, List.map_eq_nil_iff, List.range_eq_nil, ← slot.left,
    List.length_eq_zero_iff]

theorem foldl_minChunk (l : List Nat) (first : Nat) (some_ : 0 < (m.chunksParams first).curSubChunk)
    (keys : ∀ j ∈ first :: l, 0 < (m.chunksParams j).curSubChunk →
      (m.front regSubChunkSize j).1.length = nv) :
    ∃ i ∈ first :: l, l.foldl (fun min i =>
        if 0 < (m.chunksParams i).curSubChunk ∧
            keyComp (m.front regSubChunkSize i).1 (m.front regSubChunkSize min).1 < 0 then i
        else min) first = i ∧ 0 < (m.chunksParams i).curSubChunk ∧
      ∀ j ∈ first :: l, 0 < (m.chunksParams j).curSubChunk →
        (m.front regSubChunkSize i).1 ≤ (m.front regSubChunkSize j).1 := by
  induction l generalizing first with
  | nil =>
      refine ⟨first, List.mem_singleton_self _, rfl, some_, ?_⟩
      intro j hj _
      rw [List.mem_singleton.mp hj]
  | cons x l ih =>
      rw [List.foldl_cons]
      have own := keys first (List.mem_cons_self ..) some_
      split_ifs with smaller
      · have its := keys x (by simp) smaller.1
        have below := (keyComp_neg_iff (its.trans own.symm)).mp smaller.2
        obtain ⟨i, member, result, cur, least⟩ :=
          ih x smaller.1 fun j hj => keys j (List.mem_cons_of_mem _ hj)
        refine ⟨i, List.mem_cons_of_mem _ member, result, cur, ?_⟩
        intro j hj some_j
        rcases List.mem_cons.mp hj with rfl | later
        · exact (least x (List.mem_cons_self ..) smaller.1).trans below.le
        · exact least j later some_j
      · obtain ⟨i, member, result, cur, least⟩ := ih first some_ (by
          intro j hj
          refine keys j ?_
          simp only [List.mem_cons] at hj ⊢
          tauto)
        refine ⟨i, by simp only [List.mem_cons] at member ⊢; tauto, result, cur, ?_⟩
        intro j hj some_j
        simp only [List.mem_cons] at hj
        rcases hj with rfl | rfl | later
        · exact least j (List.mem_cons_self ..) some_j
        · have its := keys j (by simp) some_j
          have notBelow : ¬ (m.front regSubChunkSize j).1 < (m.front regSubChunkSize first).1 := by
            rw [← keyComp_neg_iff (its.trans own.symm)]
            exact fun below => smaller ⟨some_j, below⟩
          exact (least first (List.mem_cons_self ..) some_).trans (not_lt.mp notBelow)
        · exact least j (List.mem_cons_of_mem _ later) some_j

theorem Loaded.minChunk (h : Loaded nv numberOfChunks regSubChunkSize file runs m)
    (keys : ∀ j < numberOfChunks, ∀ x ∈ runs j, x.1.length = nv)
    (some_ : ∃ j < numberOfChunks, 0 < (m.chunksParams j).curSubChunk) :
    ∃ i < numberOfChunks, m.minChunk numberOfChunks regSubChunkSize = some i ∧
      0 < (m.chunksParams i).curSubChunk ∧
      ∀ j < numberOfChunks, 0 < (m.chunksParams j).curSubChunk →
        (m.front regSubChunkSize i).1 ≤ (m.front regSubChunkSize j).1 := by
  have lengths : ∀ j < numberOfChunks, 0 < (m.chunksParams j).curSubChunk →
      (m.front regSubChunkSize j).1.length = nv := by
    intro j hj cur
    obtain ⟨rest, rows, _⟩ := h.head hj cur
    exact keys j hj _ (by rw [rows]; exact List.mem_cons_self ..)
  cases found : (List.range numberOfChunks).find?
      fun i => decide (0 < (m.chunksParams i).curSubChunk) with
  | none =>
      obtain ⟨j, hj, cur⟩ := some_
      exact absurd (by simpa using cur) (List.find?_eq_none.mp found j (List.mem_range.mpr hj))
  | some first =>
      obtain ⟨cur, inRange, before⟩ := List.find?_range_eq_some.mp found
      have within := List.mem_range.mp inRange
      obtain ⟨i, member, result, some_i, least⟩ := foldl_minChunk
        (List.range' first (numberOfChunks - first)) first (of_decide_eq_true cur) (by
          intro j hj
          refine lengths j ?_
          simp only [List.mem_cons, List.mem_range'_1] at hj
          omega)
      simp only [List.mem_cons, List.mem_range'_1] at member least
      refine ⟨i, by omega, ?_, some_i, ?_⟩
      · rw [Merge.minChunk, found, Option.map_some, result]
      · intro j hj some_j
        refine least j ?_ some_j
        by_cases early : j < first
        · have := before j early
          simp only [Bool.not_eq_true', decide_eq_false_iff_not] at this
          exact absurd some_j this
        · omega

end Slots

section Loop

variable {memoryLimit nv numberOfChunks regSubChunkSize : Nat} {file : File nm}
  {runs : Nat → List (Row nm)} {m : Merge nm} {total : List (Row nm)} {w : Written nm}
  {o : Output (List Nat) (Fin nm → Int)} {out : MergeOut nm}

/-- The finished rows are written, and the last one is in the output buffer. -/
structure Puts (w : Written nm) (o : Output (List Nat) (Fin nm → Int)) (out : MergeOut nm) :
    Prop where
  written : out.written = o.done.foldl Written.mergeRow w
  buffer : out.outputBuffer = o.last

theorem Puts.put (h : Puts w o out) {r : Row nm} (keys : ∀ l ∈ o.last, l.1.length = r.1.length) :
    Puts w (o.put r) (out.put r) := by
  rw [Output.put, MergeOut.put, h.buffer]
  cases last : o.last with
  | none => exact ⟨h.written, rfl⟩
  | some l =>
      dsimp only
      have length := keys l last
      by_cases same : l.1 = r.1
      · rw [if_pos same, if_pos ((keyComp_eq_zero_iff length).mpr same)]
        exact ⟨h.written, rfl⟩
      · rw [if_neg same, if_neg fun zero => same ((keyComp_eq_zero_iff length).mp zero)]
        refine ⟨?_, rfl⟩
        rw [h.written, List.foldl_append]
        rfl

structure Underway (nv numberOfChunks regSubChunkSize : Nat) (file : File nm)
    (total : List (Row nm)) (w : Written nm) (runs : Nat → List (Row nm)) (m : Merge nm)
    (o : Output (List Nat) (Fin nm → Int)) (out : MergeOut nm) : Prop where
  loaded : Loaded nv numberOfChunks regSubChunkSize file runs m
  ascending : ∀ i < numberOfChunks, Ascending (runs i)
  keys : ∀ i < numberOfChunks, ∀ x ∈ runs i, x.1.length = nv
  merging : Merging total (pending numberOfChunks runs) o
  lastKey : ∀ l ∈ o.last, l.1.length = nv
  puts : Puts w o out

section Front

variable (h : Underway nv numberOfChunks regSubChunkSize file total w runs m o out)
  (filled : ∀ i < numberOfChunks, Filled m i)

include h filled

theorem Underway.some_loaded (some_ : pending numberOfChunks runs ≠ []) :
    ∃ j < numberOfChunks, 0 < (m.chunksParams j).curSubChunk := by
  by_contra none
  refine some_ (pending_eq_nil.mpr ?_)
  intro j hj
  have zero : (m.chunksParams j).curSubChunk = 0 := by
    by_contra positive
    exact none ⟨j, hj, Nat.pos_of_ne_zero positive⟩
  exact (h.loaded.empty_iff hj).mpr ⟨zero, filled j hj zero⟩

theorem Underway.front_le {i : Nat} (least : ∀ j < numberOfChunks,
      0 < (m.chunksParams j).curSubChunk →
        (m.front regSubChunkSize i).1 ≤ (m.front regSubChunkSize j).1) :
    ∀ x ∈ pending numberOfChunks runs, (m.front regSubChunkSize i).1 ≤ x.1 := by
  refine least_of_heads (fun j hj => (h.ascending j hj).imp le_of_lt) ?_
  intro j hj x hx
  by_cases some_j : 0 < (m.chunksParams j).curSubChunk
  · obtain ⟨tail, its, _⟩ := h.loaded.head hj some_j
    rw [its] at hx
    cases hx
    exact least j hj some_j
  · have zero : (m.chunksParams j).curSubChunk = 0 := by omega
    rw [(h.loaded.empty_iff hj).mpr ⟨zero, filled j hj zero⟩] at hx
    cases hx

end Front

theorem Underway.step
    (h : Underway nv numberOfChunks regSubChunkSize file total w runs m o out)
    (filled : ∀ i < numberOfChunks, Filled m i) (some_ : pending numberOfChunks runs ≠ []) :
    ∃ i < numberOfChunks, ∃ rest, m.minChunk numberOfChunks regSubChunkSize = some i ∧
      runs i = m.front regSubChunkSize i :: rest ∧
      Underway nv numberOfChunks regSubChunkSize file total w (Function.update runs i rest)
        (m.stepForward i) (o.put (m.front regSubChunkSize i))
        (out.put (m.front regSubChunkSize i)) ∧
      (o.put (m.front regSubChunkSize i)).last ≠ none := by
  obtain ⟨i, here, chosen, cur, least⟩ := h.loaded.minChunk h.keys (h.some_loaded filled some_)
  obtain ⟨rest, head, loaded⟩ := h.loaded.head here cur
  have order := perm_pending here head
  have ownKey : (m.front regSubChunkSize i).1.length = nv :=
    h.keys i here _ (by rw [head]; exact List.mem_cons_self ..)
  obtain ⟨a, last⟩ := o.last_put (m.front regSubChunkSize i)
  refine ⟨i, here, rest, chosen, head, ⟨loaded, ?_, ?_, ?_, ?_, ?_⟩, ?_⟩
  · intro j hj
    rcases eq_or_ne j i with rfl | other
    · have order := h.ascending j hj
      rw [head] at order
      rw [Function.update_self]
      exact (List.pairwise_cons.mp order).2
    · rw [Function.update_of_ne other]
      exact h.ascending j hj
  · intro j hj x hx
    rcases eq_or_ne j i with rfl | other
    · rw [Function.update_self] at hx
      exact h.keys j hj x (by rw [head]; exact List.mem_cons_of_mem _ hx)
    · rw [Function.update_of_ne other] at hx
      exact h.keys j hj x hx
  · refine (h.merging.perm order).put ?_
    intro x hx
    exact h.front_le filled least x (order.mem_iff.mpr (List.mem_cons_of_mem _ hx))
  · intro l hl
    rw [last] at hl
    cases hl
    exact ownKey
  · exact h.puts.put fun l hl => (h.lastKey l hl).trans ownKey.symm
  · rw [last]
    exact Option.some_ne_none _

theorem Underway.loop (size : 0 < getRecSize nv nm) (fileKeys : ∀ r ∈ file, r.1.length = nv)
    (load : 0 < regSubChunkSize)
    (pool : numberOfChunks * regSubChunkSize * getRecSize nv nm ≤ memoryLimit) (fuel : Nat)
    (h : Underway nv numberOfChunks regSubChunkSize file total w runs m o out)
    (filled : ∀ i < numberOfChunks, Filled m i) (some_ : pending numberOfChunks runs ≠ [])
    (enough : (pending numberOfChunks runs).length ≤ fuel) :
    ∃ o' out', mergeLoop memoryLimit (getRecSize nv nm) numberOfChunks regSubChunkSize file fuel m
        out = .ok out' ∧ Merging total [] o' ∧ Puts w o' out' ∧ o'.last ≠ none := by
  induction fuel generalizing runs m o out with
  | zero => exact absurd (List.length_eq_zero_iff.mp (Nat.le_zero.mp enough)) some_
  | succ fuel ih =>
      obtain ⟨i, here, rest, chosen, head, next, last⟩ := h.step filled some_
      have fewer : (pending numberOfChunks (Function.update runs i rest)).length ≤ fuel := by
        have := (perm_pending here head).length_eq
        rw [List.length_cons] at this
        omega
      have empty : (m.stepForward i).allEmpty numberOfChunks ↔
          pending numberOfChunks (Function.update runs i rest) = [] := by
        rw [pending_eq_nil, Merge.allEmpty]
        exact forall₂_congr fun j hj => (next.loaded.empty_iff hj).symm
      rw [mergeLoop, chosen]
      dsimp only
      by_cases ended : (m.stepForward i).allEmpty numberOfChunks
      · rw [if_pos ended]
        have merging := next.merging
        rw [empty.mp ended] at merging
        exact ⟨_, _, rfl, merging, next.puts, last⟩
      · have some_' := fun none => ended (empty.mpr none)
        have others : ∀ j < numberOfChunks, j ≠ i → Filled (m.stepForward i) j := by
          intro j hj other
          rw [Filled, stepForward_other other]
          exact filled j hj
        rw [if_neg ended]
        by_cases dry : ((m.stepForward i).chunksParams i).curSubChunk = 0
        · obtain ⟨m', read, loaded, full, same⟩ :=
            next.loaded.read size fileKeys load pool here dry
          rw [if_pos dry, read, Outcome.bind]
          refine ih ⟨loaded, next.ascending, next.keys, next.merging, next.lastKey, next.puts⟩ ?_
            some_' fewer
          intro j hj
          rcases eq_or_ne j i with rfl | other
          · exact full
          · rw [Filled, same j other]
            exact others j hj other
        · rw [if_neg dry]
          refine ih next ?_ some_' fewer
          intro j hj
          rcases eq_or_ne j i with rfl | other
          · exact fun zero => absurd zero dry
          · exact others j hj other

end Loop

section Views

variable {memoryLimit nv : Nat} {f : Formation nm} {chunks : List (List (Row nm))}
  {total : List (Row nm)}

theorem pending_getD (chunks : List (List (Row nm))) :
    pending chunks.length (fun i => chunks.getD i []) = chunks.flatten := by
  have all : (List.range chunks.length).map (fun i => chunks.getD i []) = chunks := by
    refine List.ext_getElem (by simp) ?_
    intro i _ hi
    rw [List.getElem_map, List.getElem_range, List.getD_eq_getElem _ _ hi]
  rw [pending, List.flatMap_def, all]

theorem loaded_start (regSubChunkSize : Nat) (h : Chunked nv chunks f) :
    Loaded nv f.numberOfChunks regSubChunkSize f.fileOfChunks (fun i => chunks.getD i [])
      ⟨f.chunksParams, fun _ => default⟩ := by
  intro i hi
  rw [h.number] at hi
  obtain ⟨num, offset, pos, cur⟩ := h.params i hi
  refine ⟨chunks.getD i [], ?_, ?_, num.symm, fun _ => ?_⟩
  · rw [pos, cur]
    exact Nat.zero_le _
  · rw [cur]
    rfl
  · refine ⟨(chunks.take i).flatten, (chunks.drop (i + 1)).flatten, ?_, offset⟩
    rw [h.file, List.getD_eq_getElem _ _ hi, ← List.flatten_cons, ← List.flatten_append,
      List.getElem_cons_drop, List.take_append_drop]

theorem pieces_le (memoryLimit numberOfChunks size : Nat) :
    numberOfChunks * (memoryLimit / numberOfChunks / size) * size ≤ memoryLimit := by
  calc numberOfChunks * (memoryLimit / numberOfChunks / size) * size
      = numberOfChunks * (memoryLimit / numberOfChunks / size * size) := Nat.mul_assoc ..
    _ ≤ numberOfChunks * (memoryLimit / numberOfChunks) :=
        Nat.mul_le_mul_left _ (Nat.div_mul_le_self ..)
    _ ≤ memoryLimit := Nat.mul_div_le ..

/-- `MultiWayMerge` writes the grouped rows, when the pool has room for a row of each chunk. -/
theorem multiWayMerge_spec (size : 0 < getRecSize nv nm) (h : Chunked nv chunks f)
    (some_ : chunks ≠ []) (same : Same chunks.flatten total) (w : Written nm) :
    (multiWayMerge memoryLimit nv f w = .error ADC_INTERNAL_ERROR ∧
      memoryLimit / f.numberOfChunks / getRecSize nv nm = 0) ∨
      multiWayMerge memoryLimit nv f w =
        .ok ((groupBy total).foldl Written.mergeRow { w with nViewRows := 0 }) := by
  rw [multiWayMerge]
  by_cases zero : memoryLimit / f.numberOfChunks / getRecSize nv nm = 0
  · exact .inl ⟨if_pos zero, zero⟩
  · right
    rw [if_neg zero]
    generalize load : memoryLimit / f.numberOfChunks / getRecSize nv nm = regSubChunkSize at zero ⊢
    have pool := pieces_le memoryLimit f.numberOfChunks (getRecSize nv nm)
    rw [load] at pool
    have keys : ∀ r ∈ f.fileOfChunks, r.1.length = nv := by
      rw [h.file]
      exact h.keys
    have rows := pending_getD chunks
    rw [← h.number] at rows
    have full : pending f.numberOfChunks (fun i => chunks.getD i []) ≠ [] := by
      rw [rows]
      cases chunks with
      | nil => exact absurd rfl some_
      | cons c chunks =>
          have := h.some_ c (List.mem_cons_self ..)
          simp [this]
    have member {i : Nat} (hi : i < f.numberOfChunks) : chunks.getD i [] ∈ chunks := by
      rw [h.number] at hi
      rw [List.getD_eq_getElem _ _ hi]
      exact List.getElem_mem hi
    have start := loaded_start regSubChunkSize h
    have empty : ∀ i < f.numberOfChunks, (f.chunksParams i).curSubChunk = 0 := by
      intro i hi
      rw [h.number] at hi
      exact (h.params i hi).2.2.2
    obtain ⟨m, read, loaded, filled, _⟩ := start.readFirst size keys (Nat.pos_of_ne_zero zero) pool
      empty f.numberOfChunks le_rfl
    have merging : Merging total (pending f.numberOfChunks fun i => chunks.getD i [])
        ⟨[], none⟩ := by
      rw [rows]
      exact ⟨List.Pairwise.nil, same, fun _ => rfl, by simp⟩
    have underway : Underway nv f.numberOfChunks regSubChunkSize f.fileOfChunks total
        { w with nViewRows := 0 } (fun i => chunks.getD i []) m ⟨[], none⟩
        ⟨{ w with nViewRows := 0 }, none⟩ := by
      refine ⟨loaded, ?_, ?_, merging, by simp, rfl, rfl⟩
      · intro i hi
        exact h.ascending _ (member hi)
      · intro i hi x hx
        exact h.keys x (List.mem_flatten.mpr ⟨_, member hi, hx⟩)
    obtain ⟨o, out, ends, merged, puts, last⟩ := underway.loop size keys (Nat.pos_of_ne_zero zero)
      pool f.fileOfChunks.length filled full (by rw [rows, h.file])
    rw [read, Outcome.bind, ends, Outcome.bind, puts.buffer]
    have grouped := merged.rows_eq
    rw [Output.rows] at grouped
    cases ending : o.last with
    | none => exact absurd ending last
    | some r =>
        rw [ending] at grouped
        dsimp only
        rw [← grouped, puts.written, Option.toList_some, List.foldl_append]
        rfl

/-- A view written from the tree, and one written by the merge. -/
def treeView (rows : List (Row nm)) : Written nm :=
  (rows.foldl writeRow (⟨[], rows.length, fun _ => 0⟩, 0)).1

def mergeView (rows : List (Row nm)) : Written nm :=
  rows.foldl Written.mergeRow ⟨[], 0, fun _ => 0⟩

/-- A pool too small for the rows: there are too many chunks, or not a row of each can be merged. -/
def Crowded (memoryLimit nv : Nat) (total : List (Row nm)) : Prop :=
  MAX_NUM_OF_CHUNKS * (memoryLimit / treeNodeSize nv nm) ≤ total.length ∨
    memoryLimit < MAX_NUM_OF_CHUNKS * getRecSize nv nm

/-- A view made the plain way has the grouped rows; only the writer differs. -/
theorem plainView_spec (limit : memoryLimit < 2 ^ 32) (size : 0 < getRecSize nv nm)
    (room : treeNodeSize nv nm ≤ memoryLimit) (keys : ∀ r ∈ total, r.1.length = nv)
    (short : total.length ≠ 2 ^ 32 - 1) :
    (plainView memoryLimit nv total = .error ADC_INTERNAL_ERROR ∧
      Crowded memoryLimit nv total) ∨
      (groupBy total).length < memoryLimit / treeNodeSize nv nm ∧
        plainView memoryLimit nv total = .ok (treeView (groupBy total)) ∨
      memoryLimit / treeNodeSize nv nm ≤ (groupBy total).length ∧
        plainView memoryLimit nv total = .ok (mergeView (groupBy total)) := by
  rw [plainView]
  rcases runFormation_spec limit room keys short with
    ⟨failed, many⟩ | ⟨f, formed, ending, fewChunks⟩
  · left
    rw [failed]
    exact ⟨rfl, .inl many⟩
  · rw [formed, Outcome.bind]
    cases ending with
    | tree number holds notFull =>
        refine .inr (.inl ⟨notFull, ?_⟩)
        rw [if_pos number, writeViewToDiskCS_eq, holds.entries, holds.count]
        rfl
    | chunks chunks some_ chunked same many =>
        have number : f.numberOfChunks ≠ 0 := by
          rw [chunked.number]
          exact fun none => some_ (List.length_eq_zero_iff.mp none)
        rw [if_neg number]
        rcases multiWayMerge_spec size chunked some_ same ⟨[], 0, fun _ => 0⟩ with
          ⟨failed, zero⟩ | merged
        · rw [Nat.div_div_eq_div_mul, Nat.div_eq_zero_iff_lt (Nat.mul_pos
            (Nat.pos_of_ne_zero number) size)] at zero
          exact .inl ⟨failed, .inr (zero.trans_le (Nat.mul_le_mul_right _ fewChunks))⟩
        · exact .inr (.inr ⟨many, merged⟩)

theorem plainView_nil (memoryLimit nv : Nat) :
    plainView memoryLimit nv ([] : List (Row nm)) = .ok (treeView []) := rfl

theorem plainView_overrun (limit : memoryLimit < 2 ^ 32) {first : Row nm} {rest : List (Row nm)}
    (key : first.1.length = nv) (room : memoryLimit < treeNodeSize nv nm) :
    plainView memoryLimit nv (first :: rest) = .undefined := by
  rw [plainView, runFormation_overrun limit key room]
  rfl

theorem plainView_endless (long : total.length = 2 ^ 32 - 1) (w : Written nm) :
    plainView memoryLimit nv total ≠ .ok w := by
  rw [plainView]
  cases formed : runFormation memoryLimit nv total with
  | ok f => exact absurd formed (runFormation_endless long f)
  | error retCode => exact fun h => nomatch h
  | undefined => exact fun h => nomatch h

theorem plainView_ok (limit : memoryLimit < 2 ^ 32) (size : 0 < getRecSize nv nm)
    (some_ : total ≠ []) (keys : ∀ r ∈ total, r.1.length = nv) {w : Written nm}
    (plain : plainView memoryLimit nv total = .ok w) :
    1 ≤ memoryLimit / treeNodeSize nv nm ∧ total.length ≠ 2 ^ 32 - 1 ∧
      ((groupBy total).length < memoryLimit / treeNodeSize nv nm ∧ w = treeView (groupBy total) ∨
        memoryLimit / treeNodeSize nv nm ≤ (groupBy total).length ∧
          w = mergeView (groupBy total)) := by
  have short : total.length ≠ 2 ^ 32 - 1 := fun long => plainView_endless long w plain
  have room : treeNodeSize nv nm ≤ memoryLimit := by
    by_contra less
    cases total with
    | nil => exact some_ rfl
    | cons first rest =>
        rw [plainView_overrun limit (keys first (List.mem_cons_self ..)) (by omega)] at plain
        cases plain
  have least := le_treeNodeSize nv nm
  refine ⟨Nat.div_pos room (by omega), short, ?_⟩
  rcases plainView_spec limit size room keys short with
    ⟨failed, _⟩ | ⟨few, made⟩ | ⟨many, made⟩
  · rw [failed] at plain
    cases plain
  · rw [made] at plain
    cases plain
    exact .inl ⟨few, rfl⟩
  · rw [made] at plain
    cases plain
    exact .inr ⟨many, rfl⟩

theorem writeRow_foldl (rows : List (Row nm)) (w : Written nm × Nat) :
    (rows.foldl writeRow w).1.rows = w.1.rows ++ rows ∧
      (rows.foldl writeRow w).1.nViewRows = w.1.nViewRows ∧
      (rows.foldl writeRow w).2 = w.2 + rows.length * nm := by
  induction rows generalizing w with
  | nil => simp
  | cons r rows ih =>
      obtain ⟨first, second, third⟩ := ih (writeRow w r)
      rw [List.foldl_cons, first, second, third]
      refine ⟨by simp [writeRow], rfl, ?_⟩
      simp only [writeRow, List.length_cons]
      ring

theorem foldl_writeRow_count (rows : List (Row nm)) (w : Written nm) (n k : Nat) :
    rows.foldl writeRow ({ w with nViewRows := k }, n) =
      ({ (rows.foldl writeRow (w, n)).1 with nViewRows := k },
        (rows.foldl writeRow (w, n)).2) := by
  induction rows generalizing w n with
  | nil => rfl
  | cons r rows ih => exact ih (writeRow (w, n) r).1 (n + nm)

theorem mergeRow_foldl (rows : List (Row nm)) (w : Written nm) :
    (rows.foldl Written.mergeRow w).rows = w.rows ++ rows ∧
      (rows.foldl Written.mergeRow w).nViewRows = w.nViewRows + rows.length := by
  induction rows generalizing w with
  | nil => simp
  | cons r rows ih =>
      obtain ⟨first, second⟩ := ih (w.mergeRow r)
      rw [List.foldl_cons, first, second]
      refine ⟨by simp [Written.mergeRow], ?_⟩
      simp only [Written.mergeRow, List.length_cons]
      omega

@[simp] theorem rows_treeView (rows : List (Row nm)) : (treeView rows).rows = rows :=
  (writeRow_foldl rows _).1

@[simp] theorem nViewRows_treeView (rows : List (Row nm)) :
    (treeView rows).nViewRows = rows.length :=
  (writeRow_foldl rows _).2.1

theorem foldl_writeRow_treeView (rows more : List (Row nm)) :
    more.foldl writeRow ({ treeView rows with nViewRows := rows.length + more.length },
      rows.length * nm) = (treeView (rows ++ more), (rows ++ more).length * nm) := by
  have first : rows.foldl writeRow (⟨[], (rows ++ more).length, fun _ => 0⟩, 0) =
      ({ treeView rows with nViewRows := rows.length + more.length }, rows.length * nm) := by
    have count := foldl_writeRow_count rows ⟨[], rows.length, fun _ => 0⟩ 0 (rows ++ more).length
    have ordinal := (writeRow_foldl rows (⟨[], rows.length, fun _ => 0⟩, 0)).2.2
    rw [ordinal] at count
    rw [count, List.length_append, treeView]
    simp
  have second := (writeRow_foldl (rows ++ more) (⟨[], (rows ++ more).length, fun _ => 0⟩, 0)).2.2
  rw [List.foldl_append, first] at second
  have whole : treeView (rows ++ more) = (more.foldl writeRow
      ({ treeView rows with nViewRows := rows.length + more.length }, rows.length * nm)).1 := by
    rw [treeView, List.foldl_append, first]
  exact Prod.ext whole.symm (second.trans (Nat.zero_add _))

@[simp] theorem rows_mergeView (rows : List (Row nm)) : (mergeView rows).rows = rows :=
  (mergeRow_foldl rows _).1

@[simp] theorem nViewRows_mergeView (rows : List (Row nm)) :
    (mergeView rows).nViewRows = rows.length :=
  (mergeRow_foldl rows _).2.trans (Nat.zero_add _)

end Views

section Weights

def Fitting (rows : List (Row nm)) : Prop :=
  ∀ j r, rows[j]? = some r → ∀ i : Fin nm, 0 ≤ r.2 i ∧ ↑(j * nm + i + 1) * r.2 i < (2 : Int) ^ 63

instance (rows : List (Row nm)) : Decidable (Fitting rows) :=
  decidable_of_iff (∀ j : Fin rows.length, ∀ i : Fin nm, 0 ≤ (rows.get j).2 i ∧
      ↑(j * nm + i + 1) * (rows.get j).2 i < (2 : Int) ^ 63) <| by
    constructor
    · intro h j r hr i
      obtain ⟨inside, rfl⟩ := List.getElem?_eq_some_iff.mp hr
      exact h ⟨j, inside⟩ i
    · intro h j i
      exact h j _ (List.getElem?_eq_getElem j.2) i

/-- The unsigned and the signed product of a measure leave the same rest. -/
theorem weight_eq {k : Nat} {m : Int} (nonneg : 0 ≤ m) (fits : ↑k * m < (2 : Int) ^ 63) :
    ↑k * m % 2 ^ 64 % measbound = ↑k * m % measbound := by
  have positive : 0 ≤ ↑k * m := Int.mul_nonneg (Int.natCast_nonneg _) nonneg
  rw [Int.emod_eq_of_lt positive (by omega)]

theorem checksums_foldl_writeRow (rows : List (Row nm)) (w : Written nm) (k : Nat) (i : Fin nm) :
    (rows.foldl writeRow (w, k * nm)).1.checksums i = w.checksums i +
      ((rows.zipIdx k).map fun x =>
        ↑(x.2 * nm + i + 1) * x.1.2 i % 2 ^ 64 % measbound).sum := by
  induction rows generalizing w k with
  | nil => simp
  | cons r rows ih =>
      rw [List.foldl_cons, writeRow]
      dsimp only
      rw [← Nat.succ_mul, ih, List.zipIdx_cons, List.map_cons, List.sum_cons, add_assoc]

theorem checksums_foldl_mergeRow (rows : List (Row nm)) (w : Written nm) (i : Fin nm) :
    (rows.foldl Written.mergeRow w).checksums i = w.checksums i +
      ((rows.zipIdx w.nViewRows).map fun x => (↑(x.2 + 1) * x.1.2 i).tmod measbound).sum := by
  induction rows generalizing w with
  | nil => simp
  | cons r rows ih =>
      rw [List.foldl_cons, ih, List.zipIdx_cons, List.map_cons, List.sum_cons, ← add_assoc]
      rfl

theorem Fitting.checksums_treeView {rows : List (Row nm)} (fitting : Fitting rows) (i : Fin nm) :
    (treeView rows).checksums i =
      (rows.zipIdx.map fun x => ↑(x.2 * nm + i + 1) * x.1.2 i % measbound).sum := by
  have sums := checksums_foldl_writeRow rows ⟨[], rows.length, fun _ => 0⟩ 0 i
  rw [Nat.zero_mul, zero_add] at sums
  rw [treeView, sums]
  refine congrArg List.sum (List.map_congr_left ?_)
  intro x hx
  have fits := fitting x.2 x.1 (List.mem_zipIdx_iff_getElem?.mp hx) i
  exact weight_eq fits.1 fits.2

theorem Fitting.checksums_mergeView {rows : List (Row nm)} (fitting : Fitting rows) (i : Fin nm) :
    (mergeView rows).checksums i =
      (rows.zipIdx.map fun x => ↑(x.2 + 1) * x.1.2 i % measbound).sum := by
  have sums := checksums_foldl_mergeRow rows ⟨[], 0, fun _ => 0⟩ i
  rw [zero_add] at sums
  rw [mergeView, sums]
  refine congrArg List.sum (List.map_congr_left ?_)
  intro x hx
  have fits := fitting x.2 x.1 (List.mem_zipIdx_iff_getElem?.mp hx) i
  exact Int.tmod_eq_emod_of_nonneg (Int.mul_nonneg (Int.natCast_nonneg _) fits.1)

/-- The tree weights a row of place `j` by `j * (nm - 1) + i` more than the merge; over the rows
of a view this goes away in whole multiples of `measbound`. -/
def EvenWeights (rows : List (Row nm)) : Prop :=
  ∀ i : Fin nm, (rows.zipIdx.map fun x => (↑(x.2 * (nm - 1) + i) : Int) * x.1.2 i).sum =
    (measbound : Int) * (rows.zipIdx.map fun x =>
      ↑(x.2 * nm + i + 1) * x.1.2 i / measbound - ↑(x.2 + 1) * x.1.2 i / measbound).sum

instance (rows : List (Row nm)) : Decidable (EvenWeights rows) :=
  inferInstanceAs (Decidable (∀ _ : Fin nm, _))

theorem sum_emod_sub {α : Type} (l : List α) (f g : α → Int) (b : Int) :
    (l.map fun x => f x % b).sum - (l.map fun x => g x % b).sum =
      (l.map fun x => f x - g x).sum - b * (l.map fun x => f x / b - g x / b).sum := by
  induction l with
  | nil => simp
  | cons x l ih =>
      simp only [List.map_cons, List.sum_cons, Int.emod_def, Int.mul_add, Int.mul_sub] at ih ⊢
      omega

theorem surplus_eq (j : Nat) (i : Fin nm) (m : Int) :
    ↑(j * nm + i + 1) * m - ↑(j + 1) * m = ↑(j * (nm - 1) + i) * m := by
  obtain ⟨k, rfl⟩ : ∃ k, nm = k + 1 := ⟨nm - 1, by have := i.2; omega⟩
  push_cast [Nat.add_sub_cancel]
  ring

theorem checksums_eq_iff {rows : List (Row nm)} (fitting : Fitting rows) :
    (treeView rows).checksums = (mergeView rows).checksums ↔ EvenWeights rows := by
  rw [funext_iff, EvenWeights]
  refine forall_congr' ?_
  intro i
  have difference := sum_emod_sub rows.zipIdx (fun x => ↑(x.2 * nm + i + 1) * x.1.2 i)
    (fun x => ↑(x.2 + 1) * x.1.2 i) measbound
  simp only [surplus_eq] at difference
  rw [fitting.checksums_treeView, fitting.checksums_mergeView]
  omega

theorem evenWeights_one (rows : List (Row 1)) : EvenWeights rows := by
  rw [EvenWeights]
  intro i
  simp

theorem sum_eq_zero_of_nonneg {l : List Int} (nonneg : ∀ x ∈ l, 0 ≤ x) :
    l.sum = 0 ↔ ∀ x ∈ l, x = 0 := by
  induction l with
  | nil => simp
  | cons x l ih =>
      rw [List.forall_mem_cons] at nonneg
      have rest := List.sum_nonneg nonneg.2
      rw [List.sum_cons, List.forall_mem_cons, ← ih nonneg.2]
      omega

theorem evenWeights_iff_of_small {rows : List (Row nm)} (fitting : Fitting rows)
    (small : ∀ j r, rows[j]? = some r → ∀ i : Fin nm, ↑(j * nm + i + 1) * r.2 i < measbound) :
    EvenWeights rows ↔ ∀ j r, rows[j]? = some r → ∀ i : Fin nm,
      j * (nm - 1) + i = 0 ∨ r.2 i = 0 := by
  have place {x : Row nm × Nat} (hx : x ∈ rows.zipIdx) : rows[x.2]? = some x.1 :=
    List.mem_zipIdx_iff_getElem?.mp hx
  have each (i : Fin nm) : (rows.zipIdx.map fun x =>
      ↑(x.2 * nm + i + 1) * x.1.2 i / measbound - ↑(x.2 + 1) * x.1.2 i / measbound).sum = 0 := by
    refine List.sum_eq_zero ?_
    intro y hy
    obtain ⟨x, hx, rfl⟩ := List.mem_map.mp hy
    have least := (fitting _ _ (place hx) i).1
    have below := small _ _ (place hx) i
    have surplus := surplus_eq x.2 i (x.1.2 i)
    have more : 0 ≤ ↑(x.2 * (nm - 1) + i) * x.1.2 i :=
      Int.mul_nonneg (Int.natCast_nonneg _) least
    have positive : 0 ≤ ↑(x.2 + 1) * x.1.2 i := Int.mul_nonneg (Int.natCast_nonneg _) least
    rw [Int.ediv_eq_zero_of_lt (by omega) below, Int.ediv_eq_zero_of_lt positive (by omega)]
    rfl
  rw [EvenWeights]
  constructor
  · intro even j r hr i
    have sum := even i
    rw [each, Int.mul_zero, sum_eq_zero_of_nonneg] at sum
    · have listed : (r, j) ∈ rows.zipIdx := List.mem_zipIdx_iff_getElem?.mpr hr
      have product := sum _ (List.mem_map_of_mem listed)
      exact (Int.mul_eq_zero.mp product).imp_left Int.natCast_eq_zero.mp
    · intro y hy
      obtain ⟨x, hx, rfl⟩ := List.mem_map.mp hy
      exact Int.mul_nonneg (Int.natCast_nonneg _) (fitting _ _ (place hx) i).1
  · intro zero i
    rw [each, Int.mul_zero]
    refine List.sum_eq_zero ?_
    intro y hy
    obtain ⟨x, hx, rfl⟩ := List.mem_map.mp hy
    rcases zero _ _ (place hx) i with none | none
    · rw [none]
      simp
    · rw [none, Int.mul_zero]

theorem treeView_eq_mergeView_iff {rows : List (Row nm)} (fitting : Fitting rows) :
    treeView rows = mergeView rows ↔ EvenWeights rows := by
  rw [← checksums_eq_iff fitting]
  refine ⟨congrArg Written.checksums, ?_⟩
  intro same
  refine Written.ext ?_ ?_ same
  · rw [rows_treeView, rows_mergeView]
  · rw [nViewRows_treeView, nViewRows_mergeView]

end Weights

end Baseliner.DcMerge
