import Mathlib.Algebra.Order.Ring.Int
import Baseliner.DcTree

/-! Calls of `TreeInsert` behind `InitializeTree`, as long as the memory is not full. The sizes
are computed in 32 bits and the measures of a node are added in 64. -/

namespace Baseliner.DcTreeRuns

open PathTree KeyedSums DcTree

/-- `treeNodeSize` as `InitializeTree` stores it, an `unsigned int`. -/
def storedNodeSize (nd nm : ℕ) : ℕ :=
  let size := (32 + DIM_FSZ * (nd - 1) % 2 ^ 32 + MSR_FSZ * nm % 2 ^ 32) % 2 ^ 32
  if size % 8 ≠ 0 then (size + 4) % 2 ^ 32 else size

def nNodesLimit (memoryLimit nd nm : ℕ) : ℕ := memoryLimit / storedNodeSize nd nm

variable {nm : ℕ}

def wrap64 (x : ℤ) : ℤ := x.bmod (2 ^ 64)

def wrapMeasures (m : Fin nm → ℤ) : Fin nm → ℤ := fun i => wrap64 (m i)

def wrapRow (r : Row nm) : Row nm := (r.1, wrapMeasures r.2)

/-- `TreeInsert` of a record with the key and the measures `attrs`; the sums of the node that it
leaves are those of 64 bits. -/
def insert (memoryLimit nd : ℕ) (tree : RBTree nm) (attrs : Row nm) : Option (RBTree nm) :=
  (treeInsert memoryLimit (storedNodeSize nd nm) tree attrs).map fun tree =>
    { tree with root := tree.root.map wrapRow }

def insertAll (memoryLimit nd : ℕ) : RBTree nm → List (Row nm) → Option (RBTree nm)
  | tree, [] => some tree
  | tree, attrs :: records =>
      match insert memoryLimit nd tree attrs with
      | none => none
      | some tree => insertAll memoryLimit nd tree records

/-- The calls stop at the latest when the memory is full. -/
def StopsWhenFull (memoryLimit nd : ℕ) : RBTree nm → List (Row nm) → Prop
  | _, [] => True
  | tree, attrs :: records =>
      tree.memoryIsFull = false ∧
        ∀ next, insert memoryLimit nd tree attrs = some next →
          StopsWhenFull memoryLimit nd next records

theorem wrap64_again (x : ℤ) : wrap64 (wrap64 x) = wrap64 x := Int.bmod_bmod

theorem wrap64_add (x y : ℤ) : wrap64 (wrap64 x + y) = wrap64 (x + y) := Int.bmod_add_bmod

theorem wrapRow_insertRow (attrs : Row nm) (rows : List (Row nm)) :
    (insertRow attrs (rows.map wrapRow)).map wrapRow = (insertRow attrs rows).map wrapRow :=
  map_insertRow wrapMeasures (fun x y => funext fun i => wrap64_add (x i) (y i))
    (fun x => funext fun i => wrap64_again (x i)) attrs rows

/-- No size wraps when a node fits in the pool. -/
theorem storedNodeSize_eq {memoryLimit nd : ℕ} (limit : memoryLimit < 2 ^ 32)
    (room : treeNodeSize nd nm ≤ memoryLimit) : storedNodeSize nd nm = treeNodeSize nd nm := by
  simp only [treeNodeSize, storedNodeSize] at room ⊢
  split_ifs at room ⊢ <;> omega

theorem record_le_treeNodeSize (nd nm : ℕ) (dims : 1 ≤ nd) :
    24 + getRecSize nd nm ≤ treeNodeSize nd nm ∧ 32 ≤ treeNodeSize nd nm := by
  simp only [treeNodeSize, getRecSize]
  split_ifs <;> simp only [DIM_FSZ, MSR_FSZ] at * <;> omega

theorem holds_wrapRow {limit size nv : ℕ} {tree : RBTree nm} {rows : List (Row nm)}
    (h : Holds limit size nv tree rows) :
    Holds limit size nv { tree with root := tree.root.map wrapRow } (rows.map wrapRow) where
  entries := by rw [ColorTree.toList_map, h.entries]
  ascending := by
    rw [Ascending, List.pairwise_map]
    exact h.ascending
  keys := by
    intro x member
    obtain ⟨r, old, rfl⟩ := List.mem_map.mp member
    exact h.keys r old
  balanced := by
    obtain ⟨n, balanced⟩ := h.balanced
    exact ⟨n, balanced.map wrapRow⟩
  count := by rw [List.length_map, h.count]
  memaddr := by rw [List.length_map, h.memaddr]
  room := by
    rw [List.length_map]
    exact h.room
  free := by rw [List.length_map, h.free]
  full := by
    rw [List.length_map, h.full, ne_eq, ne_eq, List.map_eq_nil_iff]

section Runs

variable {memoryLimit nd : ℕ}

theorem insert_holds (limit : memoryLimit < 2 ^ 32) (dims : 1 ≤ nd)
    (room : treeNodeSize nd nm ≤ memoryLimit) {tree : RBTree nm} {records : List (Row nm)}
    (h : Holds memoryLimit (storedNodeSize nd nm) nd tree ((groupBy records).map wrapRow))
    (notFull : tree.memoryIsFull = false) {attrs : Row nm} (key : attrs.1.length = nd) :
    ∃ next, insert memoryLimit nd tree attrs = some next ∧
      Holds memoryLimit (storedNodeSize nd nm) nd next
        ((groupBy (records ++ [attrs])).map wrapRow) := by
  have size : 32 ≤ storedNodeSize nd nm := by
    rw [storedNodeSize_eq limit room]
    exact (record_le_treeNodeSize nd nm dims).2
  have nodes : 1 ≤ memoryLimit / storedNodeSize nd nm := by
    rw [storedNodeSize_eq limit room] at size ⊢
    exact (Nat.le_div_iff_mul_le (by omega)).mpr (by omega)
  have free : (insertRow attrs ((groupBy records).map wrapRow)).length ≤
      memoryLimit / storedNodeSize nd nm := by
    have grown := length_insertRow_le attrs ((groupBy records).map wrapRow)
    have within := h.room
    have full := h.full
    rw [notFull] at full
    by_cases empty : (groupBy records).map wrapRow = []
    · rw [empty] at grown ⊢
      exact grown.trans nodes
    · have below : ((groupBy records).map wrapRow).length ≠ memoryLimit / storedNodeSize nd nm :=
        fun same => Bool.false_ne_true (full.mpr ⟨empty, same⟩)
      omega
  obtain ⟨next, entered, holds⟩ := h.insert limit size key free
  refine ⟨_, by rw [insert, entered]; rfl, ?_⟩
  rw [groupBy_concat, ← wrapRow_insertRow]
  exact holds_wrapRow holds

theorem insertAll_holds (limit : memoryLimit < 2 ^ 32) (dims : 1 ≤ nd)
    (room : treeNodeSize nd nm ≤ memoryLimit) (more : List (Row nm))
    (keys : ∀ attrs ∈ more, attrs.1.length = nd) {tree : RBTree nm} {records : List (Row nm)}
    (h : Holds memoryLimit (storedNodeSize nd nm) nd tree ((groupBy records).map wrapRow))
    (stops : StopsWhenFull memoryLimit nd tree more) :
    ∃ last, insertAll memoryLimit nd tree more = some last ∧
      Holds memoryLimit (storedNodeSize nd nm) nd last
        ((groupBy (records ++ more)).map wrapRow) := by
  induction more generalizing tree records with
  | nil => exact ⟨tree, rfl, by rw [List.append_nil]; exact h⟩
  | cons attrs more ih =>
      obtain ⟨notFull, later⟩ := stops
      obtain ⟨next, entered, holds⟩ := insert_holds limit dims room h notFull
        (keys attrs List.mem_cons_self)
      obtain ⟨last, ran, final⟩ := ih (fun r member => keys r (List.mem_cons_of_mem attrs member))
        holds (later next entered)
      refine ⟨last, ?_, ?_⟩
      · rw [insertAll, entered]
        exact ran
      · rw [List.append_assoc] at final
        exact final

end Runs

/-- A sequence of calls that stops at the latest when the memory is full never fails: no store
of a way down overruns the arrays of the path and no node lies behind the pool. It leaves a
balanced search tree with a black root that holds the records summed by key, and the flag is set
exactly when the nodes are used up. -/
theorem tree_aggregates (memoryLimit nd : ℕ) (limit : memoryLimit < 2 ^ 32) (dims : 1 ≤ nd)
    (room : treeNodeSize nd nm ≤ memoryLimit) (records : List (Row nm))
    (keys : ∀ attrs ∈ records, attrs.1.length = nd)
    (stops : StopsWhenFull memoryLimit nd (initializeTree (nNodesLimit memoryLimit nd nm))
      records) :
    ∃ tree, insertAll memoryLimit nd (initializeTree (nNodesLimit memoryLimit nd nm)) records =
        some tree ∧
      (tree.root.toList.map Prod.fst).Pairwise (fun a b => keyComp a b < 0) ∧
      (∃ height, Balanced .black height tree.root) ∧
      tree.root.toList = (groupBy records).map wrapRow ∧
      tree.count = (records.map Prod.fst).dedup.length ∧
      (tree.memoryIsFull = true ↔ tree.count = nNodesLimit memoryLimit nd nm) ∧
      tree.memaddr = tree.count * treeNodeSize nd nm ∧ tree.memaddr ≤ memoryLimit ∧
      24 + getRecSize nd nm ≤ treeNodeSize nd nm ∧
      ∀ attrs, (descend attrs tree.root []).2.length ≤ MAX_TREE_HEIGHT - 1 := by
  have start : Holds memoryLimit (storedNodeSize nd nm) nd
      (initializeTree (nNodesLimit memoryLimit nd nm))
      ((groupBy ([] : List (Row nm))).map wrapRow) := holds_initializeTree ..
  obtain ⟨tree, ran, h⟩ := insertAll_holds limit dims room records keys start stops
  have rows := h.entries
  have size := storedNodeSize_eq limit room
  have node := record_le_treeNodeSize nd nm dims
  rw [List.nil_append] at h rows
  have count : tree.count = (groupBy records).length := by rw [h.count, List.length_map]
  refine ⟨tree, ran, ?_, h.balanced, rows, by rw [count, length_groupBy], ?_, ?_, ?_, node.1,
    fun attrs => ?_⟩
  · rw [List.pairwise_map, rows]
    refine h.ascending.imp_of_mem ?_
    intro a b ha hb less
    exact (keyComp_neg_iff (by rw [h.keys a ha, h.keys b hb])).mpr less
  · rw [h.full, h.count, nNodesLimit]
    refine ⟨And.right, fun all => ⟨?_, all⟩⟩
    intro empty
    rw [empty, List.length_nil, size] at all
    have := (Nat.le_div_iff_mul_le (by omega)).mpr
      (show 1 * treeNodeSize nd nm ≤ memoryLimit by omega)
    omega
  · rw [h.memaddr, h.count, size]
  · rw [h.memaddr]
    exact (Nat.mul_le_mul_right _ h.room).trans (Nat.div_mul_le_self ..)
  · have short := h.short limit (by rw [size]; exact node.2) attrs
    omega

theorem tree_aggregates_two :
    ∃ tree, insertAll 80 1 (initializeTree (nNodesLimit 80 1 1) : RBTree 1)
        [([2], fun _ => 5), ([2], fun _ => 7), ([1], fun _ => 1)] = some tree ∧
      tree.count = 2 ∧ tree.memoryIsFull = true := by
  have stops : StopsWhenFull 80 1 (initializeTree (nNodesLimit 80 1 1) : RBTree 1)
      [([2], fun _ => 5), ([2], fun _ => 7), ([1], fun _ => 1)] := by
    refine ⟨rfl, fun first entered => ?_⟩
    obtain rfl := Option.some.inj entered
    refine ⟨by decide +kernel, fun second added => ?_⟩
    obtain rfl := Option.some.inj added
    exact ⟨by decide +kernel, fun _ _ => trivial⟩
  obtain ⟨tree, ran, _, _, _, count, full, _⟩ := tree_aggregates 80 1 (by decide) (by decide)
    (by decide) [([2], fun _ => 5), ([2], fun _ => 7), ([1], fun _ => 1)] (by simp) stops
  have two : tree.count = 2 := by rw [count]; decide
  exact ⟨tree, ran, two, full.mpr (by rw [two]; decide)⟩

end Baseliner.DcTreeRuns
