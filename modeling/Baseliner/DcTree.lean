import Mathlib.Data.List.Lex
import Mathlib.Algebra.Group.Int.Defs
import Mathlib.Algebra.Group.Pi.Basic
import Baseliner.KeyedSums
import Baseliner.PathTree

/-! The tree of the DC benchmark. `TreeInsert` enters a row or adds its measures to the
row with the same key; its nodes come from the memory pool, and the path to the new
node is kept in an array. -/

namespace Baseliner.DcTree

open PathTree KeyedSums

abbrev Row (nm : Nat) := List Nat × (Fin nm → Int)

def DIM_FSZ : Nat := 4
def MSR_FSZ : Nat := 8
def MAX_TREE_HEIGHT : Nat := 64

/-- `GetRecSize` -/
def getRecSize (nd nm : Nat) : Nat := DIM_FSZ * nd + MSR_FSZ * nm

/-- `KeyComp` of two keys of one length. -/
def keyComp : List Nat → List Nat → Int
  | a :: as, b :: bs => if a < b then -1 else if a > b then 1 else keyComp as bs
  | _, _ => 0

/-- The size of a node; `struct treeNode` has 32 bytes. -/
def treeNodeSize (nd nm : Nat) : Nat :=
  let size := 32 + DIM_FSZ * (nd - 1) + MSR_FSZ * nm
  if size % 8 ≠ 0 then size + 4 else size

structure RBTree (nm : Nat) where
  root : ColorTree (Row nm)
  count : Nat
  memaddr : Nat
  freeNodeCounter : Nat
  memoryIsFull : Bool

/-- `InitializeTree`, which sets `nNodesLimit` too. -/
def initializeTree {nm : Nat} (nNodesLimit : Nat) : RBTree nm := ⟨.nil, 0, 0, nNodesLimit, false⟩

variable {nm : Nat}

/-- The way down to a row's place: the subtree there and the path to it. -/
def descend (attrs : Row nm) : ColorTree (Row nm) → List (Frame (Row nm)) →
    ColorTree (Row nm) × List (Frame (Row nm))
  | .nil, path => (.nil, path)
  | .node clr left entry right, path =>
      if keyComp attrs.1 entry.1 < 0 then descend attrs left (⟨false, clr, entry, right⟩ :: path)
      else if keyComp attrs.1 entry.1 > 0 then
        descend attrs right (⟨true, clr, entry, left⟩ :: path)
      else (.node clr left entry right, path)

/-- `none` is a path that overruns its array, or a node behind the pool. The counter of
free nodes is an unsigned `int` and wraps. -/
def treeInsert (memoryLimit nodeSize : Nat) (tree : RBTree nm) (attrs : Row nm) :
    Option (RBTree nm) :=
  match descend attrs tree.root [] with
  | (place, path) =>
      if MAX_TREE_HEIGHT ≤ path.length then none
      else match place with
        | .node clr left entry right =>
            some { tree with
              root := plugAll (.node clr left (entry.1, entry.2 + attrs.2) right) path }
        | .nil =>
            if memoryLimit < tree.memaddr + nodeSize then none
            else
              let free := (tree.freeNodeCounter + 2 ^ 32 - 1) % 2 ^ 32
              some
                { root := (fixup .nil attrs .nil path).blacken
                  count := tree.count + 1
                  memaddr := tree.memaddr + nodeSize
                  freeNodeCounter := free
                  memoryIsFull := tree.memoryIsFull || free = 0 }

section Keys

theorem keyComp_neg_iff {a b : List Nat} (same : a.length = b.length) :
    keyComp a b < 0 ↔ a < b := by
  induction a, b using keyComp.induct with
  | case1 a as b bs less => simp [keyComp, less, List.cons_lt_cons_iff]
  | case2 a as b bs other more =>
      simp only [keyComp, if_neg other, if_pos more, List.cons_lt_cons_iff]
      omega
  | case3 a as b bs other equal ih =>
      have eq : a = b := by omega
      simp only [keyComp, List.cons_lt_cons_iff, eq, lt_irrefl, false_or, true_and]
      exact ih (by simpa using same)
  | case4 a b short =>
      have none : a = [] ∧ b = [] := by
        cases a with
        | nil => exact ⟨rfl, List.length_eq_zero_iff.mp same.symm⟩
        | cons x xs =>
            cases b with
            | nil => cases same
            | cons y ys => exact absurd rfl (short x xs y ys rfl)
      rw [none.1, none.2]
      simp [keyComp]

theorem keyComp_pos_iff {a b : List Nat} (same : a.length = b.length) :
    keyComp a b > 0 ↔ b < a := by
  have swapped : ∀ a b, keyComp a b = - keyComp b a := by
    intro a b
    induction a, b using keyComp.induct with
    | case1 a as b bs less => simp [keyComp, less, Nat.not_lt.mpr less.le]
    | case2 a as b bs other more =>
        have more : b < a := more
        simp [keyComp, other, more]
    | case3 a as b bs other equal ih =>
        have equal : ¬ b < a := equal
        simp [keyComp, other, equal, ih]
    | case4 a b short =>
        cases a with
        | nil => cases b <;> simp [keyComp]
        | cons x xs =>
            cases b with
            | nil => simp [keyComp]
            | cons y ys => exact absurd rfl (short x xs y ys rfl)
  rw [← keyComp_neg_iff same.symm, swapped]
  omega

theorem keyComp_eq_zero_iff {a b : List Nat} (same : a.length = b.length) :
    keyComp a b = 0 ↔ a = b := by
  have less := keyComp_neg_iff same
  have more := keyComp_pos_iff same
  constructor
  · intro zero
    rw [zero] at less more
    have notLess : ¬ a < b := fun below => absurd (less.mpr below) (lt_irrefl 0)
    have notMore : ¬ b < a := fun above => absurd (more.mpr above) (lt_irrefl 0)
    exact le_antisymm (not_lt.mp notMore) (not_lt.mp notLess)
  · intro equal
    rw [equal] at less more ⊢
    have notLess : ¬ keyComp b b < 0 := fun below => lt_irrefl b (less.mp below)
    have notMore : ¬ keyComp b b > 0 := fun above => lt_irrefl b (more.mp above)
    omega

theorem keyComp_eq_one_iff {a b : List Nat} (same : a.length = b.length) :
    keyComp a b = 1 ↔ b < a := by
  have most : ∀ a b, keyComp a b ≤ 1 := by
    intro a b
    induction a, b using keyComp.induct with
    | case1 a as b bs less => simp [keyComp, less]
    | case2 a as b bs other more => simp [keyComp, other, more]
    | case3 a as b bs other equal ih => simpa [keyComp, other, equal] using ih
    | case4 a b short =>
        cases a with
        | nil => cases b <;> simp [keyComp]
        | cons x xs =>
            cases b with
            | nil => simp [keyComp]
            | cons y ys => exact absurd rfl (short x xs y ys rfl)
  have := most a b
  rw [← keyComp_pos_iff same]
  omega

end Keys

section Places

variable {attrs : Row nm} {t : ColorTree (Row nm)} {path : List (Frame (Row nm))}

theorem insertRow_between {K M : Type*} [LinearOrder K] [AddCommMonoid M] {r : K × M}
    {front back : List (K × M)} (first : ∀ x ∈ front, x.1 < r.1) :
    insertRow r (front ++ back) = front ++ insertRow r back := by
  induction front with
  | nil => rfl
  | cons x front ih =>
      rw [List.forall_mem_cons] at first
      rw [List.cons_append, insertRow, if_neg (lt_asymm first.1), if_pos first.1, ih first.2,
        List.cons_append]

theorem insertRow_front {K M : Type*} [LinearOrder K] [AddCommMonoid M] {r : K × M}
    {back : List (K × M)} (last : ∀ x ∈ back, r.1 < x.1) : insertRow r back = r :: back := by
  cases back with
  | nil => rfl
  | cons x back =>
      rw [List.forall_mem_cons] at last
      rw [insertRow, if_pos last.1]

/-- What is true of the place that `descend` finds. -/
structure Found (attrs : Row nm) (root place : ColorTree (Row nm)) (path : List (Frame (Row nm))) :
    Prop where
  whole : plugAll place path = root
  first : ∀ x ∈ before path, x.1 < attrs.1
  last : ∀ x ∈ behind path, attrs.1 < x.1
  open_ : ∃ c h, Balanced c h place ∧ Open c h path

theorem Found.entries {root : ColorTree (Row nm)} (h : Found attrs root t path) :
    before path ++ t.toList ++ behind path = root.toList := by
  rw [← toList_plugAll, h.whole]

section Turn

variable {root left right : ColorTree (Row nm)} {clr : Color} {entry : Row nm}
  (ascending : Ascending root.toList) (h : Found attrs root (.node clr left entry right) path)

include h

theorem Found.mem : entry ∈ root.toList := by
  rw [← h.entries, ColorTree.toList]
  simp

include ascending

theorem Found.sides :
    (∀ x ∈ left.toList, x.1 < entry.1) ∧ ∀ x ∈ right.toList, entry.1 < x.1 := by
  have order := ascending
  rw [← h.entries, ColorTree.toList, Ascending, List.append_assoc, List.append_assoc,
    List.pairwise_append, List.pairwise_append, List.cons_append, List.pairwise_cons] at order
  exact ⟨fun x hx => order.2.1.2.2 x hx entry (List.mem_cons_self ..),
    fun x hx => order.2.1.2.1.1 x (List.mem_append_left _ hx)⟩

theorem Found.toLeft (below : attrs.1 < entry.1) :
    Found attrs root left (⟨false, clr, entry, right⟩ :: path) := by
  obtain ⟨-, above⟩ := h.sides ascending
  refine ⟨h.whole, ?_, ?_, ?_⟩
  · rw [before_cons]
    simpa using h.first
  · rw [behind_cons]
    intro x hx
    simp only [Bool.false_eq_true, if_false, List.cons_append, List.mem_cons,
      List.mem_append] at hx
    rcases hx with rfl | inRight | far
    · exact below
    · exact below.trans (above x inRight)
    · exact h.last x far
  · obtain ⟨c, n, tree, hole⟩ := h.open_
    cases tree with
    | red hl hr => exact ⟨_, _, hl, .red rfl hr hole⟩
    | black hl hr => exact ⟨_, _, hl, .black rfl hr hole⟩

theorem Found.toRight (above : entry.1 < attrs.1) :
    Found attrs root right (⟨true, clr, entry, left⟩ :: path) := by
  obtain ⟨below, -⟩ := h.sides ascending
  refine ⟨h.whole, ?_, ?_, ?_⟩
  · rw [before_cons]
    intro x hx
    simp only [if_true, List.mem_append, List.mem_singleton] at hx
    rcases hx with far | inLeft | rfl
    · exact h.first x far
    · exact (below x inLeft).trans above
    · exact above
  · rw [behind_cons]
    simpa using h.last
  · obtain ⟨c, n, tree, hole⟩ := h.open_
    cases tree with
    | red hl hr => exact ⟨_, _, hr, .red rfl hl hole⟩
    | black hl hr => exact ⟨_, _, hr, .black rfl hl hole⟩

end Turn

theorem descend_spec {root : ColorTree (Row nm)}
    (keys : ∀ x ∈ root.toList, x.1.length = attrs.1.length) (ascending : Ascending root.toList)
    (h : Found attrs root t path) :
    Found attrs root (descend attrs t path).1 (descend attrs t path).2 ∧
      ∀ clr left entry right, (descend attrs t path).1 = .node clr left entry right →
        entry.1 = attrs.1 := by
  induction t, path using descend.induct attrs with
  | case1 path => exact ⟨h, by simp [descend]⟩
  | case2 clr left entry right path less ih =>
      rw [descend, if_pos less]
      exact ih (h.toLeft ascending ((keyComp_neg_iff (keys entry h.mem).symm).mp less))
  | case3 clr left entry right path other more ih =>
      rw [descend, if_neg other, if_pos more]
      exact ih (h.toRight ascending ((keyComp_pos_iff (keys entry h.mem).symm).mp more))
  | case4 clr left entry right path other equal =>
      rw [descend, if_neg other, if_neg equal]
      refine ⟨h, ?_⟩
      intro clr' left' entry' right' same
      cases same
      have length := (keys entry h.mem).symm
      rw [keyComp_neg_iff length] at other
      rw [keyComp_pos_iff length] at equal
      exact le_antisymm (not_lt.mp other) (not_lt.mp equal)

theorem length_descend (attrs : Row nm) {c : Color} {h : Nat} (tree : Balanced c h t)
    (path : List (Frame (Row nm))) :
    (descend attrs t path).2.length ≤ path.length + 2 * h + 1 ∧
      (c = .black → (descend attrs t path).2.length ≤ path.length + 2 * h) := by
  induction tree generalizing path with
  | nil => simp [descend]
  | @red h left right entry hl hr ihl ihr =>
      have first := (ihl (⟨false, .red, entry, right⟩ :: path)).2 rfl
      have second := (ihr (⟨true, .red, entry, left⟩ :: path)).2 rfl
      rw [List.length_cons] at first second
      refine ⟨?_, fun black => by cases black⟩
      rw [descend]
      split_ifs
      · omega
      · omega
      · dsimp only
        omega
  | @black h c d left right entry hl hr ihl ihr =>
      have first := (ihl (⟨false, .black, entry, right⟩ :: path)).1
      have second := (ihr (⟨true, .black, entry, left⟩ :: path)).1
      rw [List.length_cons] at first second
      rw [descend]
      split_ifs
      · exact ⟨by omega, fun _ => by omega⟩
      · exact ⟨by omega, fun _ => by omega⟩
      · dsimp only
        exact ⟨by omega, fun _ => by omega⟩

end Places

section Insertion

variable {attrs : Row nm} {root left right : ColorTree (Row nm)} {path : List (Frame (Row nm))}

theorem Found.insertRow_new (h : Found attrs root .nil path) :
    insertRow attrs root.toList = before path ++ attrs :: behind path := by
  rw [← h.entries, ColorTree.toList, List.append_nil, insertRow_between h.first,
    insertRow_front h.last]

theorem Found.length_insertRow_new (h : Found attrs root .nil path) :
    (insertRow attrs root.toList).length = root.toList.length + 1 := by
  rw [h.insertRow_new, ← h.entries, ColorTree.toList]
  simp
  omega

theorem Found.insertRow_same {clr : Color} {entry : Row nm}
    (h : Found attrs root (.node clr left entry right) path) (key : entry.1 = attrs.1)
    (ascending : Ascending root.toList) :
    insertRow attrs root.toList =
      before path ++ left.toList ++ (entry.1, entry.2 + attrs.2) ::
        (right.toList ++ behind path) := by
  have all : root.toList =
      (before path ++ left.toList) ++ entry :: (right.toList ++ behind path) := by
    rw [← h.entries, ColorTree.toList]
    simp
  rw [all, Ascending, List.pairwise_append] at ascending
  rw [all, insertRow_between, insertRow, if_neg (by rw [key]; exact lt_irrefl _),
    if_neg (by rw [key]; exact lt_irrefl _)]
  intro y hy
  rw [← key]
  exact ascending.2.2 y hy entry (List.mem_cons_self ..)

theorem Found.length_insertRow_same {clr : Color} {entry : Row nm}
    (h : Found attrs root (.node clr left entry right) path) (key : entry.1 = attrs.1)
    (ascending : Ascending root.toList) :
    (insertRow attrs root.toList).length = root.toList.length := by
  rw [h.insertRow_same key ascending, ← h.entries, ColorTree.toList]
  simp

variable {memoryLimit nodeSize nv : Nat} {tree : RBTree nm} {rows : List (Row nm)}

/-- The tree holds these rows, in nodes from the front of the pool. -/
structure Holds (memoryLimit nodeSize nv : Nat) (tree : RBTree nm) (rows : List (Row nm)) :
    Prop where
  entries : tree.root.toList = rows
  ascending : Ascending rows
  keys : ∀ x ∈ rows, x.1.length = nv
  balanced : ∃ h, Balanced .black h tree.root
  count : tree.count = rows.length
  memaddr : tree.memaddr = rows.length * nodeSize
  room : rows.length ≤ memoryLimit / nodeSize
  free : tree.freeNodeCounter = memoryLimit / nodeSize - rows.length
  full : tree.memoryIsFull = true ↔ rows ≠ [] ∧ rows.length = memoryLimit / nodeSize

theorem holds_initializeTree (memoryLimit nodeSize nv : Nat) :
    Holds memoryLimit nodeSize nv (initializeTree (memoryLimit / nodeSize) : RBTree nm) [] where
  entries := rfl
  ascending := List.Pairwise.nil
  keys := by simp
  balanced := ⟨0, .nil⟩
  count := rfl
  memaddr := by simp [initializeTree]
  room := Nat.zero_le _
  free := rfl
  full := by simp [initializeTree]

theorem Holds.found (h : Holds memoryLimit nodeSize nv tree rows) {attrs : Row nm}
    (key : attrs.1.length = nv) :
    Found attrs tree.root (descend attrs tree.root []).1 (descend attrs tree.root []).2 ∧
      ∀ clr left entry right, (descend attrs tree.root []).1 = .node clr left entry right →
        entry.1 = attrs.1 := by
  obtain ⟨n, balanced⟩ := h.balanced
  have keys : ∀ x ∈ tree.root.toList, x.1.length = attrs.1.length := by
    intro x hx
    rw [h.entries] at hx
    rw [h.keys x hx, key]
  refine descend_spec keys (by rw [h.entries]; exact h.ascending) ⟨rfl, ?_, ?_, ?_⟩
  · simp [before]
  · simp [behind]
  · exact ⟨.black, n, balanced, .top⟩

/-- The path stays within its array: there is no room for more than `2 ^ 27` nodes. -/
theorem Holds.short (h : Holds memoryLimit nodeSize nv tree rows) (limit : memoryLimit < 2 ^ 32)
    (size : 32 ≤ nodeSize) (attrs : Row nm) :
    (descend attrs tree.root []).2.length < MAX_TREE_HEIGHT := by
  obtain ⟨n, balanced⟩ := h.balanced
  have path := (length_descend attrs balanced []).2 rfl
  have many := balanced.two_pow_le
  rw [h.entries] at many
  have nodes : rows.length < 2 ^ 27 := by
    have step : memoryLimit / nodeSize ≤ memoryLimit / 32 := Nat.div_le_div_left size (by omega)
    have := h.room
    omega
  have height : n ≤ 27 := by
    by_contra more
    have : 2 ^ 28 ≤ 2 ^ n := Nat.pow_le_pow_right (by omega) (by omega)
    omega
  rw [List.length_nil] at path
  have bound : MAX_TREE_HEIGHT = 64 := rfl
  omega

theorem Holds.ascending_toList (h : Holds memoryLimit nodeSize nv tree rows) :
    Ascending tree.root.toList := by
  rw [h.entries]
  exact h.ascending

theorem Holds.treeInsert_cases (h : Holds memoryLimit nodeSize nv tree rows)
    (limit : memoryLimit < 2 ^ 32) (size : 32 ≤ nodeSize) {attrs : Row nm}
    (key : attrs.1.length = nv) :
    (∃ clr left entry right path, Found attrs tree.root (.node clr left entry right) path ∧
      entry.1 = attrs.1 ∧ treeInsert memoryLimit nodeSize tree attrs = some { tree with
        root := plugAll (.node clr left (entry.1, entry.2 + attrs.2) right) path }) ∨
    ∃ path, Found attrs tree.root .nil path ∧ treeInsert memoryLimit nodeSize tree attrs =
      if memoryLimit < tree.memaddr + nodeSize then none
      else some
        { root := (fixup .nil attrs .nil path).blacken
          count := tree.count + 1
          memaddr := tree.memaddr + nodeSize
          freeNodeCounter := (tree.freeNodeCounter + 2 ^ 32 - 1) % 2 ^ 32
          memoryIsFull :=
            tree.memoryIsFull || (tree.freeNodeCounter + 2 ^ 32 - 1) % 2 ^ 32 = 0 } := by
  obtain ⟨found, same⟩ := h.found key
  have short := h.short limit size attrs
  rw [treeInsert]
  revert found same short
  generalize descend attrs tree.root [] = way
  obtain ⟨place, path⟩ := way
  intro found same short
  dsimp only at found same short ⊢
  rw [if_neg (by omega)]
  cases place with
  | node clr left entry right =>
      exact .inl ⟨clr, left, entry, right, path, found, same clr left entry right rfl, rfl⟩
  | nil => exact .inr ⟨path, found, rfl⟩

theorem Holds.keys_insertRow (h : Holds memoryLimit nodeSize nv tree rows) {attrs : Row nm}
    (key : attrs.1.length = nv) : ∀ x ∈ insertRow attrs rows, x.1.length = nv := by
  intro x hx
  rcases mem_insertRow_key.mp (List.mem_map_of_mem hx) with new | old
  · rw [new, key]
  · obtain ⟨y, hy, eq⟩ := List.mem_map.mp old
    rw [← eq, h.keys y hy]

theorem Holds.insert (h : Holds memoryLimit nodeSize nv tree rows)
    (limit : memoryLimit < 2 ^ 32) (size : 32 ≤ nodeSize) {attrs : Row nm}
    (key : attrs.1.length = nv)
    (room : (insertRow attrs rows).length ≤ memoryLimit / nodeSize) :
    ∃ tree', treeInsert memoryLimit nodeSize tree attrs = some tree' ∧
      Holds memoryLimit nodeSize nv tree' (insertRow attrs rows) := by
  have keys := h.keys_insertRow key
  have ascending := ascending_insertRow attrs h.ascending
  rcases h.treeInsert_cases limit size key with
    ⟨clr, left, entry, right, path, found, equal, result⟩ | ⟨path, found, result⟩
  · have grown := found.insertRow_same equal h.ascending_toList
    have length := found.length_insertRow_same equal h.ascending_toList
    rw [h.entries] at grown length
    obtain ⟨c, n, balanced, hole⟩ := found.open_
    refine ⟨_, result, ?_, ascending, keys, ?_, ?_, ?_, room, ?_, ?_⟩
    · rw [grown, toList_plugAll, ColorTree.toList]
      simp
    · obtain ⟨m, root⟩ := h.balanced
      rw [← found.whole] at root
      exact balanced.replace hole root
    · rw [length, h.count]
    · rw [length, h.memaddr]
    · rw [length, h.free]
    · have some : rows ≠ [] ↔ insertRow attrs rows ≠ [] := by
        rw [← List.length_pos_iff, ← List.length_pos_iff, length]
      rw [length, h.full, some]
  · have grown := found.insertRow_new
    have length := found.length_insertRow_new
    rw [h.entries] at grown length
    rw [length] at room
    have pool : (rows.length + 1) * nodeSize ≤ memoryLimit :=
      (Nat.le_div_iff_mul_le (by omega)).mp room
    have below : memoryLimit / nodeSize ≤ memoryLimit := Nat.div_le_self ..
    have counter : (tree.freeNodeCounter + 2 ^ 32 - 1) % 2 ^ 32 =
        memoryLimit / nodeSize - (rows.length + 1) := by
      rw [h.free]
      omega
    have empty : tree.memoryIsFull = false := by
      rw [Bool.eq_false_iff]
      intro full
      have := (h.full.mp full).2
      omega
    obtain ⟨c, n, balanced, hole⟩ := found.open_
    cases balanced
    rw [if_neg (by rw [h.memaddr]; rw [Nat.add_mul] at pool; omega), counter, empty] at result
    refine ⟨_, result, ?_, ascending, keys, ?_, ?_, ?_, ?_, ?_, ?_⟩
    · rw [grown, ColorTree.toList_blacken, toList_fixup]
      simp [ColorTree.toList]
    · exact balanced_fixup .nil .nil hole
    · rw [length, h.count]
    · rw [length, h.memaddr, Nat.add_mul, Nat.one_mul]
    · rw [length]
      exact room
    · rw [length]
    · have some : insertRow attrs rows ≠ [] := by simp [grown]
      simp only [Bool.false_or, decide_eq_true_eq, length, ne_eq, some, not_false_eq_true,
        true_and]
      omega

theorem Holds.overrun (h : Holds memoryLimit nodeSize nv tree rows) (limit : memoryLimit < 2 ^ 32)
    (size : 32 ≤ nodeSize) {attrs : Row nm} (key : attrs.1.length = nv)
    (room : memoryLimit / nodeSize < (insertRow attrs rows).length) :
    treeInsert memoryLimit nodeSize tree attrs = none := by
  rcases h.treeInsert_cases limit size key with
    ⟨clr, left, entry, right, path, found, equal, -⟩ | ⟨path, found, result⟩
  · have length := found.length_insertRow_same equal h.ascending_toList
    have := h.room
    rw [h.entries] at length
    omega
  · have length := found.length_insertRow_new
    rw [h.entries] at length
    have pool : memoryLimit < (rows.length + 1) * nodeSize := by
      rw [length] at room
      exact (Nat.div_lt_iff_lt_mul (by omega)).mp room
    rw [Nat.add_mul] at pool
    rw [result, if_pos (by rw [h.memaddr]; omega)]

end Insertion

end Baseliner.DcTree
