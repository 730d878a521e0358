import Mathlib.Data.List.GetD
import Baseliner.DcTree

/-! The rows of a view of the DC benchmark. `RunFormation` enters them into the tree and
writes the tree out as a chunk each time the pool is full. When there was no chunk,
`WriteViewToDiskCS` writes the tree itself. -/

namespace Baseliner.DcRuns

open PathTree KeyedSums DcTree

/-- How a function ends; `undefined` stands for a write behind an array or the pool, for
rows that were never written, and for a loop without an end. -/
inductive Outcome (α : Type*) where
  | ok (a : α)
  | error (retCode : Nat)
  | undefined

def Outcome.bind {α β : Type*} (x : Outcome α) (f : α → Outcome β) : Outcome β :=
  match x with
  | .ok a => f a
  | .error retCode => .error retCode
  | .undefined => .undefined

def Outcome.isOk {α : Type*} : Outcome α → Bool
  | .ok _ => true
  | _ => false

def ADC_INTERNAL_ERROR : Nat := 2
def MAX_NUM_OF_CHUNKS : Nat := 1024
def measbound : Int := 31415

variable {nm : Nat}

section Files

/-- A file of records; each is as long as its attributes and measures. -/
abbrev File (nm : Nat) := List (Row nm)

def recSize (r : Row nm) : Nat := getRecSize r.1.length nm

/-- The rest of the file from a byte offset on, when a record begins there. -/
def seek : File nm → Nat → Option (File nm)
  | file, 0 => some file
  | [], _ => none
  | r :: file, offset + 1 =>
      if recSize r ≤ offset + 1 then seek file (offset + 1 - recSize r) else none

theorem seek_append {front file : File nm} (sizes : ∀ r ∈ front, 0 < recSize r) :
    seek (front ++ file) (front.map recSize).sum = some file := by
  induction front with
  | nil => cases file <;> simp [seek]
  | cons r front ih =>
      rw [List.forall_mem_cons] at sizes
      have offset : ((r :: front).map recSize).sum =
          ((front.map recSize).sum + (recSize r - 1)) + 1 := by
        rw [List.map_cons, List.sum_cons]
        omega
      rw [offset, List.cons_append, seek, if_pos (by omega)]
      convert ih sizes.2 using 2
      omega

theorem sum_recSize {nv : Nat} {rows : File nm} (keys : ∀ r ∈ rows, r.1.length = nv) :
    (rows.map recSize).sum = rows.length * getRecSize nv nm := by
  induction rows with
  | nil => simp
  | cons r rows ih =>
      rw [List.forall_mem_cons] at keys
      rw [List.map_cons, List.sum_cons, ih keys.2, recSize, keys.1, List.length_cons, Nat.add_mul]
      omega

end Files

section Formation

structure Chunk where
  curChunkNum : Nat
  chunkOffset : Int
  posSubChunk : Nat
  curSubChunk : Nat

/-- `RunFormation` in the course of its loop. An entry of `chunksParams` is written before
it is read. -/
structure Formation (nm : Nat) where
  tree : RBTree nm
  numberOfChunks : Nat
  chunksParams : Nat → Chunk
  chunkOffset : Nat
  fileOfChunks : File nm

def writeChunkToDisk : ColorTree (Row nm) → File nm → File nm
  | .nil, fileOfChunks => fileOfChunks
  | .node _ left entry right, fileOfChunks =>
      writeChunkToDisk right (writeChunkToDisk left fileOfChunks ++ [entry])

def Formation.addChunk (f : Formation nm) (outRecSize : Nat) : Formation nm :=
  { f with
    chunksParams := Function.update f.chunksParams f.numberOfChunks
      { f.chunksParams f.numberOfChunks with
        curChunkNum := f.tree.count
        chunkOffset := f.chunkOffset }
    numberOfChunks := f.numberOfChunks + 1
    chunkOffset := f.chunkOffset + f.tree.count * outRecSize
    fileOfChunks := writeChunkToDisk f.tree.root f.fileOfChunks }

def emptyTree (memoryLimit nv : Nat) : RBTree nm :=
  initializeTree (memoryLimit / treeNodeSize nv nm)

def Formation.checkFull (memoryLimit nv : Nat) (f : Formation nm) : Outcome (Formation nm) :=
  if f.tree.memoryIsFull then
    if MAX_NUM_OF_CHUNKS ≤ f.numberOfChunks + 1 then .error ADC_INTERNAL_ERROR
    else .ok { f.addChunk (getRecSize nv nm) with tree := emptyTree memoryLimit nv }
  else .ok f

def Formation.insert (memoryLimit nv : Nat) (f : Formation nm) (viewBuf : Row nm) :
    Outcome (Formation nm) :=
  match treeInsert memoryLimit (treeNodeSize nv nm) f.tree viewBuf with
  | none => .undefined
  | some tree => Formation.checkFull memoryLimit nv { f with tree := tree }

def Formation.insertAll (memoryLimit nv : Nat) : List (Row nm) → Formation nm →
    Outcome (Formation nm)
  | [], f => .ok f
  | viewBuf :: rows, f => (f.insert memoryLimit nv viewBuf).bind (insertAll memoryLimit nv rows)

def Formation.lastChunk (f : Formation nm) (outRecSize : Nat) : Formation nm :=
  if f.numberOfChunks ≠ 0 ∧ f.tree.count ≠ 0 then f.addChunk outRecSize else f

def startFormation (memoryLimit nv : Nat) : Formation nm :=
  ⟨emptyTree memoryLimit nv, 0, fun _ => ⟨0, 0, 0, 0⟩, 0, []⟩

/-- The counter of the loop is an unsigned `int`: up to the largest one it never ends. -/
def runFormation (memoryLimit nv : Nat) (rows : List (Row nm)) : Outcome (Formation nm) :=
  (Formation.insertAll memoryLimit nv rows (startFormation memoryLimit nv)).bind fun f =>
    if rows.length = 2 ^ 32 - 1 then .undefined else .ok (f.lastChunk (getRecSize nv nm))

end Formation

section Writing

@[ext]
structure Written (nm : Nat) where
  rows : List (Row nm)
  nViewRows : Nat
  checksums : Fin nm → Int

/-- A node's row; `ordern` goes up with each measure, and the product is unsigned. -/
def writeRow (w : Written nm × Nat) (r : Row nm) : Written nm × Nat :=
  ({ w.1 with
      rows := w.1.rows ++ [r]
      checksums := fun i =>
        w.1.checksums i + (↑(w.2 + i + 1) * r.2 i) % 2 ^ 64 % measbound },
    w.2 + nm)

def writeViewToDiskCS : ColorTree (Row nm) → Written nm × Nat → Written nm × Nat
  | .nil, w => w
  | .node _ left entry right, w =>
      writeViewToDiskCS right (writeRow (writeViewToDiskCS left w) entry)

/-- The row of the output buffer; the product is signed. -/
def Written.mergeRow (w : Written nm) (r : Row nm) : Written nm where
  rows := w.rows ++ [r]
  nViewRows := w.nViewRows + 1
  checksums := fun i => w.checksums i + (↑(w.nViewRows + 1) * r.2 i).tmod measbound

end Writing

theorem writeChunkToDisk_eq (t : ColorTree (Row nm)) (fileOfChunks : File nm) :
    writeChunkToDisk t fileOfChunks = fileOfChunks ++ t.toList := by
  induction t generalizing fileOfChunks with
  | nil => simp [writeChunkToDisk, ColorTree.toList]
  | node clr left entry right ihl ihr => simp [writeChunkToDisk, ColorTree.toList, ihl, ihr]

theorem writeViewToDiskCS_eq (t : ColorTree (Row nm)) (w : Written nm × Nat) :
    writeViewToDiskCS t w = t.toList.foldl writeRow w := by
  induction t generalizing w with
  | nil => rfl
  | node clr left entry right ihl ihr => simp [writeViewToDiskCS, ColorTree.toList, ihl, ihr]

section Formed

variable {memoryLimit nv : Nat} {f : Formation nm} {chunks : List (List (Row nm))}
  {done rows : List (Row nm)}

structure Chunked (nv : Nat) (chunks : List (List (Row nm))) (f : Formation nm) : Prop where
  number : f.numberOfChunks = chunks.length
  file : f.fileOfChunks = chunks.flatten
  offset : f.chunkOffset = chunks.flatten.length * getRecSize nv nm
  params : ∀ i < chunks.length, (f.chunksParams i).curChunkNum = (chunks.getD i []).length ∧
    (f.chunksParams i).chunkOffset = ↑((chunks.take i).flatten.length * getRecSize nv nm) ∧
    (f.chunksParams i).posSubChunk = 0 ∧ (f.chunksParams i).curSubChunk = 0
  unused : ∀ i ≥ chunks.length, f.chunksParams i = ⟨0, 0, 0, 0⟩
  ascending : ∀ c ∈ chunks, Ascending c
  some_ : ∀ c ∈ chunks, c ≠ []
  keys : ∀ x ∈ chunks.flatten, x.1.length = nv

theorem Chunked.setTree (h : Chunked nv chunks f) (tree : RBTree nm) :
    Chunked nv chunks { f with tree := tree } :=
  ⟨h.number, h.file, h.offset, h.params, h.unused, h.ascending, h.some_, h.keys⟩

theorem Chunked.addChunk (h : Chunked nv chunks f)
    (tree : Holds memoryLimit (treeNodeSize nv nm) nv f.tree rows) (some_ : rows ≠ []) :
    Chunked nv (chunks ++ [rows]) (f.addChunk (getRecSize nv nm)) where
  number := by simp [Formation.addChunk, h.number]
  file := by simp [Formation.addChunk, writeChunkToDisk_eq, h.file, tree.entries]
  offset := by
    simp only [Formation.addChunk, h.offset, tree.count, List.flatten_append, List.length_append,
      List.flatten_cons, List.flatten_nil, List.append_nil]
    ring
  params := by
    intro i hi
    rw [List.length_append, List.length_singleton] at hi
    rcases Nat.lt_succ_iff_lt_or_eq.mp hi with earlier | rfl
    · have other : i ≠ f.numberOfChunks := by
        rw [h.number]
        omega
      simp only [Formation.addChunk, Function.update_of_ne other,
        List.getD_append _ _ _ _ earlier, List.take_append_of_le_length earlier.le]
      exact h.params i earlier
    · have old := h.unused chunks.length le_rfl
      simp only [Formation.addChunk, h.number, Function.update_self, tree.count, old, h.offset]
      simp
  unused := by
    intro i hi
    rw [List.length_append, List.length_singleton] at hi
    have other : i ≠ f.numberOfChunks := by
      rw [h.number]
      omega
    simp only [Formation.addChunk, Function.update_of_ne other]
    exact h.unused i (by omega)
  ascending := by
    intro c hc
    rcases List.mem_append.mp hc with before | here
    · exact h.ascending c before
    · rw [List.mem_singleton.mp here]
      exact tree.ascending
  some_ := by
    intro c hc
    rcases List.mem_append.mp hc with before | here
    · exact h.some_ c before
    · rw [List.mem_singleton.mp here]
      exact some_
  keys := by
    intro x hx
    rw [List.flatten_append, List.mem_append] at hx
    rcases hx with before | here
    · exact h.keys x before
    · exact tree.keys x (by simpa using here)

/-- The loop of `RunFormation` behind the rows `done`: the last of them are in the tree,
which is not full, and the others in the chunks. -/
structure Formed (memoryLimit nv : Nat) (done : List (Row nm)) (chunks : List (List (Row nm)))
    (rows : List (Row nm)) (f : Formation nm) : Prop where
  chunked : Chunked nv chunks f
  few : chunks.length < MAX_NUM_OF_CHUNKS
  tree : Holds memoryLimit (treeNodeSize nv nm) nv f.tree rows
  notFull : rows.length < memoryLimit / treeNodeSize nv nm
  same : Same (chunks.flatten ++ rows) done
  many : chunks ≠ [] → memoryLimit / treeNodeSize nv nm ≤ (groupBy done).length

theorem chunked_start (memoryLimit nv : Nat) :
    Chunked nv [] (startFormation memoryLimit nv : Formation nm) := by
  constructor <;> simp [startFormation]

theorem formed_start (room : treeNodeSize nv nm ≤ memoryLimit) :
    Formed memoryLimit nv [] [] [] (startFormation memoryLimit nv : Formation nm) where
  chunked := chunked_start memoryLimit nv
  few := by simp [MAX_NUM_OF_CHUNKS]
  tree := holds_initializeTree ..
  notFull := by
    refine Nat.div_pos room ?_
    simp only [treeNodeSize]
    split_ifs <;> omega
  same := .refl _
  many := fun some_ => absurd rfl some_

theorem le_treeNodeSize (nv nm : Nat) : 32 ≤ treeNodeSize nv nm := by
  simp only [treeNodeSize]
  split_ifs <;> omega

def filled (memoryLimit nv : Nat) (chunks : List (List (Row nm))) (rows : List (Row nm)) : Nat :=
  chunks.length * (memoryLimit / treeNodeSize nv nm) + rows.length

theorem Formed.same_insert (h : Formed memoryLimit nv done chunks rows f) (viewBuf : Row nm) :
    Same (chunks.flatten ++ insertRow viewBuf rows) (done ++ [viewBuf]) := by
  refine ((Same.refl _).append (same_insertRow viewBuf rows)).trans ?_
  refine (Same.of_perm ?_).trans (h.same.append (.refl [viewBuf]))
  have swapped : (viewBuf :: rows).Perm (rows ++ [viewBuf]) :=
    (List.perm_append_singleton viewBuf rows).symm
  rw [List.append_assoc]
  exact swapped.append_left _

theorem length_groupBy_le (done : List (Row nm)) (viewBuf : Row nm) :
    (groupBy done).length ≤ (groupBy (done ++ [viewBuf])).length := by
  refine (ascending_groupBy done).length_le_groupBy ?_
  intro r hr
  have old := mem_groupBy_key.mp (List.mem_map_of_mem hr)
  rw [List.map_append]
  exact List.mem_append_left _ old

/-- One row: it stays in the tree, or the tree becomes a chunk, or there are too many. -/
theorem Formed.insert (limit : memoryLimit < 2 ^ 32)
    (h : Formed memoryLimit nv done chunks rows f) {viewBuf : Row nm}
    (key : viewBuf.1.length = nv) :
    (f.insert memoryLimit nv viewBuf = .error ADC_INTERNAL_ERROR ∧
      MAX_NUM_OF_CHUNKS * (memoryLimit / treeNodeSize nv nm) ≤
        filled memoryLimit nv chunks rows + 1) ∨
      ∃ f' chunks' rows', f.insert memoryLimit nv viewBuf = .ok f' ∧
        Formed memoryLimit nv (done ++ [viewBuf]) chunks' rows' f' ∧
        filled memoryLimit nv chunks' rows' ≤ filled memoryLimit nv chunks rows + 1 := by
  obtain ⟨tree, inserted, holds⟩ := h.tree.insert limit (le_treeNodeSize nv nm) key
    ((length_insertRow_le viewBuf rows).trans h.notFull)
  have same := h.same_insert viewBuf
  have more := length_groupBy_le done viewBuf
  have longer := length_insertRow_le viewBuf rows
  rw [Formation.insert, inserted]
  dsimp only
  rw [Formation.checkFull]
  by_cases full : tree.memoryIsFull = true
  · rw [if_pos full]
    obtain ⟨some_, length⟩ := holds.full.mp full
    by_cases many : MAX_NUM_OF_CHUNKS ≤ f.numberOfChunks + 1
    · left
      rw [if_pos many]
      rw [h.chunked.number] at many
      have all := Nat.mul_le_mul_right (memoryLimit / treeNodeSize nv nm) many
      rw [Nat.succ_mul] at all
      exact ⟨rfl, by rw [filled]; omega⟩
    · right
      rw [if_neg many]
      refine ⟨_, chunks ++ [insertRow viewBuf rows], [], rfl, ⟨?_, ?_, ?_, ?_, ?_, ?_⟩, ?_⟩
      · exact ((h.chunked.setTree tree).addChunk holds some_).setTree _
      · rw [h.chunked.number] at many
        rw [List.length_append, List.length_singleton]
        omega
      · exact holds_initializeTree ..
      · exact Nat.zero_lt_of_lt h.notFull
      · simpa using same
      · intro _
        rw [← length]
        refine holds.ascending.length_le_groupBy ?_
        intro r hr
        refine (same.keys r.1).mp (List.mem_map_of_mem ?_)
        exact List.mem_append_right _ hr
      · rw [filled, filled, List.length_append, List.length_singleton, List.length_nil,
          Nat.succ_mul]
        omega
  · right
    rw [if_neg full]
    refine ⟨_, chunks, insertRow viewBuf rows, rfl, ⟨h.chunked.setTree tree, h.few, holds, ?_, same,
      fun some_ => (h.many some_).trans more⟩, by rw [filled, filled]; omega⟩
    have new : insertRow viewBuf rows ≠ [] := by
      intro none
      have here : viewBuf.1 ∈ (insertRow viewBuf rows).map Prod.fst :=
        mem_insertRow_key.mpr (.inl rfl)
      rw [none] at here
      cases here
    refine lt_of_le_of_ne holds.room fun length => full (holds.full.mpr ⟨new, length⟩)

theorem Formed.insertAll (limit : memoryLimit < 2 ^ 32) (more : List (Row nm))
    (h : Formed memoryLimit nv done chunks rows f) (keys : ∀ r ∈ more, r.1.length = nv) :
    (Formation.insertAll memoryLimit nv more f = .error ADC_INTERNAL_ERROR ∧
      MAX_NUM_OF_CHUNKS * (memoryLimit / treeNodeSize nv nm) ≤
        filled memoryLimit nv chunks rows + more.length) ∨
      ∃ f' chunks' rows', Formation.insertAll memoryLimit nv more f = .ok f' ∧
        Formed memoryLimit nv (done ++ more) chunks' rows' f' := by
  induction more generalizing done chunks rows f with
  | nil => exact .inr ⟨f, chunks, rows, rfl, by rwa [List.append_nil]⟩
  | cons viewBuf more ih =>
      rw [List.forall_mem_cons] at keys
      rw [Formation.insertAll]
      rcases h.insert limit keys.1 with
        ⟨failed, room⟩ | ⟨f', chunks', rows', inserted, formed, less⟩
      · left
        rw [failed, List.length_cons]
        exact ⟨rfl, by omega⟩
      · rw [inserted, Outcome.bind]
        rcases ih formed keys.2 with ⟨failed, room⟩ | done'
        · exact .inl ⟨failed, by rw [List.length_cons]; omega⟩
        · rw [List.append_assoc] at done'
          exact .inr done'

/-- How `RunFormation` ends: with all rows in the tree or with all rows in chunks. -/
inductive Ending (memoryLimit nv : Nat) (total : List (Row nm)) (f : Formation nm) : Prop
  | tree (number : f.numberOfChunks = 0)
      (holds : Holds memoryLimit (treeNodeSize nv nm) nv f.tree (groupBy total))
      (notFull : (groupBy total).length < memoryLimit / treeNodeSize nv nm)
  | chunks (chunks : List (List (Row nm))) (some_ : chunks ≠ []) (chunked : Chunked nv chunks f)
      (same : Same chunks.flatten total)
      (many : memoryLimit / treeNodeSize nv nm ≤ (groupBy total).length)

theorem Formed.lastChunk (h : Formed memoryLimit nv done chunks rows f) :
    Ending memoryLimit nv done (f.lastChunk (getRecSize nv nm)) := by
  rw [Formation.lastChunk, h.chunked.number, h.tree.count]
  by_cases none : chunks = []
  · rw [if_neg (by simp [none])]
    have same := h.same
    rw [none, List.flatten_nil, List.nil_append] at same
    have grouped := eq_groupBy h.tree.ascending same
    refine .tree (by rw [h.chunked.number, none]; rfl) ?_ ?_
    · rw [← grouped]
      exact h.tree
    · rw [← grouped]
      exact h.notFull
  · by_cases empty : rows = []
    · rw [if_neg (by simp [empty])]
      refine .chunks chunks none h.chunked ?_ (h.many none)
      simpa [empty] using h.same
    · rw [if_pos (by simp [none, empty])]
      refine .chunks (chunks ++ [rows]) (by simp) (h.chunked.addChunk h.tree empty) ?_ (h.many none)
      simpa using h.same

theorem runFormation_spec (limit : memoryLimit < 2 ^ 32) {total : List (Row nm)}
    (room : treeNodeSize nv nm ≤ memoryLimit) (keys : ∀ r ∈ total, r.1.length = nv)
    (short : total.length ≠ 2 ^ 32 - 1) :
    (runFormation memoryLimit nv total = .error ADC_INTERNAL_ERROR ∧
      MAX_NUM_OF_CHUNKS * (memoryLimit / treeNodeSize nv nm) ≤ total.length) ∨
      ∃ f, runFormation memoryLimit nv total = .ok f ∧ Ending memoryLimit nv total f ∧
        f.numberOfChunks ≤ MAX_NUM_OF_CHUNKS := by
  rw [runFormation]
  rcases (formed_start room).insertAll limit total keys with
    ⟨failed, many⟩ | ⟨f, chunks, rows, all, formed⟩
  · left
    rw [failed]
    refine ⟨rfl, ?_⟩
    simpa [filled] using many
  · right
    rw [all, Outcome.bind, if_neg short]
    refine ⟨_, rfl, formed.lastChunk, ?_⟩
    have few := formed.few
    rw [← formed.chunked.number] at few
    rw [Formation.lastChunk]
    split_ifs
    · exact few
    · exact few.le

/-- Without room for a node the first row is written behind the pool. -/
theorem runFormation_overrun (limit : memoryLimit < 2 ^ 32) {first : Row nm}
    {total : List (Row nm)} (key : first.1.length = nv)
    (room : memoryLimit < treeNodeSize nv nm) :
    runFormation memoryLimit nv (first :: total) = .undefined := by
  have none : memoryLimit / treeNodeSize nv nm = 0 := Nat.div_eq_of_lt room
  have start : Holds memoryLimit (treeNodeSize nv nm) nv
      (initializeTree (memoryLimit / treeNodeSize nv nm) : RBTree nm) [] :=
    holds_initializeTree ..
  have behind := start.overrun limit (le_treeNodeSize nv nm) key
    (by rw [none]; exact Nat.zero_lt_one)
  rw [runFormation, Formation.insertAll, Formation.insert, startFormation, emptyTree, behind]
  rfl

/-- The loop over the most rows that can be told has no end. -/
theorem runFormation_endless {total : List (Row nm)} (long : total.length = 2 ^ 32 - 1)
    (f : Formation nm) : runFormation memoryLimit nv total ≠ .ok f := by
  rw [runFormation]
  cases Formation.insertAll memoryLimit nv total (startFormation memoryLimit nv) with
  | ok g =>
      rw [Outcome.bind, if_pos long]
      exact fun h => nomatch h
  | error retCode => exact fun h => nomatch h
  | undefined => exact fun h => nomatch h

end Formed

end Baseliner.DcRuns
