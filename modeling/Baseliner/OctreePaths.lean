import Mathlib.Algebra.Order.Ring.Int
import Mathlib.Data.Fin.VecNotation
import Mathlib.Data.List.FinRange
import Mathlib.Data.List.Infix

/-! Cells of an octree. A cell is the path of child numbers that leads to it, the last one in
front; bit `a` of a child number says on which side along axis `a` the child lies. Face `2 * a`
of a cell is the upper one along axis `a`, and face `2 * a + 1` the lower one. -/

namespace Baseliner.OctreePaths

abbrev Child := Fin 8

abbrev Face := Fin 6

abbrev Path := List Child

scoped instance childCount : NeZero 8 := ⟨by decide⟩

scoped instance faceCount : NeZero 6 := ⟨by decide⟩

def opposite : Face → Face := ![1, 0, 3, 2, 5, 4]

def onFace : Face → Fin 4 → Child :=
  ![![1, 3, 5, 7], ![0, 2, 4, 6], ![2, 3, 6, 7], ![0, 1, 4, 5], ![4, 5, 6, 7], ![0, 1, 2, 3]]

def outer (f : Face) (c : Child) : Bool := c.val.testBit (f.val / 2) == (f.val % 2 == 0)

/-- The child on the other side along the axis of a face. -/
def across (f : Face) (c : Child) : Child := Fin.ofNat 8 (c.val ^^^ 1 <<< (f.val / 2))

section Tables

variable (f : Face) (c : Child) (k : Fin 4)

@[simp] theorem opposite_opposite : opposite (opposite f) = f := by
  revert f
  decide

theorem opposite_ne : opposite f ≠ f := by
  revert f
  decide

@[simp] theorem across_across : across f (across f c) = c := by
  revert f c
  decide

@[simp] theorem across_opposite : across (opposite f) c = across f c := by
  revert f c
  decide

@[simp] theorem outer_across : outer f (across f c) = !outer f c := by
  revert f c
  decide

@[simp] theorem outer_opposite : outer (opposite f) c = !outer f c := by
  revert f c
  decide

@[simp] theorem outer_onFace : outer f (onFace f k) = true := by
  revert f k
  decide

theorem outer_opposite_onFace : outer f (onFace (opposite f) k) = false := by
  revert f k
  decide

@[simp] theorem across_onFace : across f (onFace f k) = onFace (opposite f) k := by
  revert f k
  decide

variable {f c}

theorem exists_onFace (h : outer f c = true) : ∃ k, c = onFace f k := by
  revert f c
  decide

theorem onFace_injective {k l : Fin 4} (h : onFace f k = onFace f l) : k = l := by
  revert f k l
  decide

end Tables

/-- The cell of the same size across a face, unless the face is on the boundary. -/
def neighbor (f : Face) : Path → Option Path
  | [] => none
  | c :: p =>
      if outer f c = true then (neighbor f p).map (across f c :: ·) else some (across f c :: p)

section Neighbor

variable {f : Face} {c : Child} {p q : Path}

theorem neighbor_cons_outer (h : outer f c = true) :
    neighbor f (c :: p) = (neighbor f p).map (across f c :: ·) := if_pos h

theorem neighbor_cons_inner (h : outer f c = false) :
    neighbor f (c :: p) = some (across f c :: p) := by
  rw [neighbor, h]
  rfl

theorem neighbor_onFace (k : Fin 4) :
    neighbor f (onFace f k :: p) = (neighbor f p).map (onFace (opposite f) k :: ·) := by
  rw [neighbor_cons_outer (outer_onFace f k), across_onFace]

theorem neighbor_symm (h : neighbor f p = some q) : neighbor (opposite f) q = some p := by
  induction p generalizing q with
  | nil => cases h
  | cons c p ih =>
      cases side : outer f c with
      | true =>
          rw [neighbor_cons_outer side, Option.map_eq_some_iff] at h
          obtain ⟨r, found, rfl⟩ := h
          have there : outer (opposite f) (across f c) = true := by simp [side]
          rw [neighbor_cons_outer there, ih found, across_opposite, across_across]
          rfl
      | false =>
          rw [neighbor_cons_inner side] at h
          cases h
          have there : outer (opposite f) (across f c) = false := by simp [side]
          rw [neighbor_cons_inner there, across_opposite, across_across]

theorem neighbor_symm_iff : neighbor f p = some q ↔ neighbor (opposite f) q = some p := by
  constructor
  · exact neighbor_symm
  · intro h
    have back := neighbor_symm h
    rwa [opposite_opposite] at back

/-- A face is on the boundary when it is outer all the way up. -/
theorem neighbor_eq_none : neighbor f p = none ↔ ∀ c ∈ p, outer f c = true := by
  induction p with
  | nil => simp [neighbor]
  | cons c p ih =>
      cases side : outer f c with
      | true => simp [neighbor_cons_outer side, side, ih]
      | false => simp [neighbor_cons_inner side, side]

end Neighbor

/-- The lower corner of a cell along an axis, in cells of its size. -/
def corner (axis : ℕ) : Path → ℕ
  | [] => 0
  | c :: p => 2 * corner axis p + (c.val.testBit axis).toNat

def OnBoundary (f : Face) (p : Path) : Prop :=
  if f.val % 2 = 0 then corner (f.val / 2) p + 1 = 2 ^ p.length else corner (f.val / 2) p = 0

section Boundary

theorem corner_lt (axis : ℕ) (p : Path) : corner axis p < 2 ^ p.length := by
  induction p with
  | nil => exact Nat.one_pos
  | cons c p ih =>
      have bit := Bool.toNat_le (c.val.testBit axis)
      rw [corner, List.length_cons, pow_succ]
      omega

theorem neighbor_eq_none_iff {f : Face} {p : Path} : neighbor f p = none ↔ OnBoundary f p := by
  rw [neighbor_eq_none]
  induction p with
  | nil => simp [OnBoundary, corner]
  | cons c p ih =>
      have bit : (c.val.testBit (f.val / 2)).toNat = 0 ∨ (c.val.testBit (f.val / 2)).toNat = 1 := by
        cases c.val.testBit (f.val / 2) with
        | false => exact .inl rfl
        | true => exact .inr rfl
      have below := corner_lt (f.val / 2) p
      rw [List.forall_mem_cons, ih, OnBoundary, OnBoundary, corner, List.length_cons, pow_succ]
      by_cases upper : f.val % 2 = 0
      · have side : outer f c = true ↔ (c.val.testBit (f.val / 2)).toNat = 1 := by
          simp [outer, upper]
        rw [side, if_pos upper, if_pos upper]
        omega
      · have side : outer f c = true ↔ (c.val.testBit (f.val / 2)).toNat = 0 := by
          have odd : f.val % 2 = 1 := by omega
          simp [outer, odd]
        rw [side, if_neg upper, if_neg upper]
        omega

end Boundary

inductive Octree
  | leaf
  | node (sub : Child → Octree)

namespace Octree

def leaves : Octree → Path → List Path
  | leaf, p => [p]
  | node sub, p => (List.finRange 8).flatMap fun c => (sub c).leaves (c :: p)

/-- Marked leaves are cut into eight. -/
def split (marked : Path → Bool) : Octree → Path → Octree
  | leaf, p => if marked p then node fun _ => leaf else leaf
  | node sub, p => node fun c => (sub c).split marked (c :: p)

def merge (marked : Path → Bool) : Octree → Path → Octree
  | leaf, _ => leaf
  | node sub, p => if marked p then leaf else node fun c => (sub c).merge marked (c :: p)

variable {t : Octree} {p q r : Path} {marked : Path → Bool}

theorem length_leaves_pos (t : Octree) (p : Path) : 1 ≤ (t.leaves p).length := by
  induction t generalizing p with
  | leaf => exact Nat.le_refl 1
  | node sub ih =>
      obtain ⟨q, member⟩ := List.exists_mem_of_length_pos (ih 0 (0 :: p))
      exact List.length_pos_of_mem (List.mem_flatMap.mpr ⟨0, List.mem_finRange 0, member⟩)

theorem suffix_of_mem (h : q ∈ t.leaves p) : p <:+ q := by
  induction t generalizing p with
  | leaf => rw [List.mem_singleton.mp h]
  | node sub ih =>
      obtain ⟨c, -, below⟩ := List.mem_flatMap.mp h
      exact (List.suffix_cons c p).trans (ih c below)

theorem child_eq {c d : Child} (first : c :: p <:+ q) (second : d :: p <:+ q) : c = d := by
  have same : c :: p = d :: p :=
    (List.suffix_of_suffix_length_le first second le_rfl).eq_of_length rfl
  exact (List.cons.inj same).1

theorem eq_of_suffix (hq : q ∈ t.leaves p) (hr : r ∈ t.leaves p) (below : q <:+ r) : q = r := by
  induction t generalizing p with
  | leaf => rw [List.mem_singleton.mp hq, List.mem_singleton.mp hr]
  | node sub ih =>
      obtain ⟨c, -, inC⟩ := List.mem_flatMap.mp hq
      obtain ⟨d, -, inD⟩ := List.mem_flatMap.mp hr
      have same : c = d := child_eq ((suffix_of_mem inC).trans below) (suffix_of_mem inD)
      subst same
      exact ih c inC inD

theorem nodup_leaves (t : Octree) (p : Path) : (t.leaves p).Nodup := by
  induction t generalizing p with
  | leaf => exact List.nodup_singleton p
  | node sub ih =>
      refine List.nodup_flatMap.mpr ⟨fun c _ => ih c (c :: p), ?_⟩
      refine (List.nodup_finRange 8).imp fun {c d} apart => ?_
      intro q inC inD
      exact apart (child_eq (suffix_of_mem inC) (suffix_of_mem inD))

theorem leaves_split (t : Octree) (p : Path) :
    (t.split marked p).leaves p =
      (t.leaves p).flatMap fun q => if marked q then (List.finRange 8).map (· :: q) else [q] := by
  induction t generalizing p with
  | leaf =>
      rw [split, leaves, List.flatMap_singleton]
      cases marked p with
      | true =>
          simp only [if_true, leaves]
          exact (List.map_eq_flatMap ..).symm
      | false => rfl
  | node sub ih =>
      rw [split, leaves, leaves, List.flatMap_assoc]
      exact List.flatMap_congr fun c _ => ih c (c :: p)

theorem eq_leaf_of_mem (h : p ∈ t.leaves p) : t = leaf := by
  cases t with
  | leaf => rfl
  | node sub =>
      obtain ⟨c, -, below⟩ := List.mem_flatMap.mp h
      have longer := (suffix_of_mem below).length_le
      rw [List.length_cons] at longer
      omega

theorem sub_eq_leaf {sub : Child → Octree} {c : Child} (h : c :: p ∈ (node sub).leaves p) :
    sub c = leaf := by
  obtain ⟨d, -, below⟩ := List.mem_flatMap.mp h
  have same : d = c := child_eq (suffix_of_mem below) (List.suffix_refl _)
  subst same
  exact eq_leaf_of_mem below

theorem siblings_together (below : p <:+ q) (all : ∀ c, c :: q ∈ t.leaves p) :
    ∃ a b, t.leaves p = a ++ (List.finRange 8).map (· :: q) ++ b := by
  induction t generalizing p with
  | leaf =>
      have path : 0 :: q = p := List.mem_singleton.mp (all 0)
      have longer := below.length_le
      rw [← path, List.length_cons] at longer
      omega
  | node sub ih =>
      obtain ⟨s, rfl⟩ := below
      rcases List.eq_nil_or_concat' s with rfl | ⟨s, d, rfl⟩
      · refine ⟨[], [], ?_⟩
        rw [List.nil_append] at all ⊢
        simp only [leaves, fun c => sub_eq_leaf (all c), List.append_nil, List.nil_append]
        exact (List.map_eq_flatMap ..).symm
      · have down : d :: p <:+ (s ++ [d]) ++ p := ⟨s, by simp⟩
        obtain ⟨first, last, split⟩ := List.append_of_mem (List.mem_finRange d)
        obtain ⟨a, b, found⟩ := ih d down (by
          intro c
          obtain ⟨e, -, member⟩ := List.mem_flatMap.mp (all c)
          have same : e = d :=
            child_eq (suffix_of_mem member) (down.trans (List.suffix_cons c _))
          subst same
          exact member)
        refine ⟨first.flatMap (fun c => (sub c).leaves (c :: p)) ++ a,
          b ++ last.flatMap fun c => (sub c).leaves (c :: p), ?_⟩
        rw [leaves, split, List.flatMap_append, List.flatMap_cons, found]
        simp only [List.append_assoc, List.cons_append, List.nil_append, ← split]

/-- What is left of a leaf when the children of marked cells are merged. -/
def remains (marked : Path → Bool) : Path → List Path
  | [] => [[]]
  | c :: q => if marked q then if c = 0 then [q] else [] else [c :: q]

theorem leaves_merge (t : Octree) (p : Path) (above : ∀ c q, p = c :: q → marked q = false)
    (all : ∀ q c, marked q = true → p <:+ q → c :: q ∈ t.leaves p) :
    (t.merge marked p).leaves p = (t.leaves p).flatMap (remains marked) := by
  induction t generalizing p with
  | leaf =>
      rw [merge, leaves, List.flatMap_singleton]
      cases p with
      | nil => rfl
      | cons c q => rw [remains, above c q rfl]; rfl
  | node sub ih =>
      rw [merge, leaves]
      cases here : marked p with
      | true =>
          have leafs : ∀ c, sub c = leaf :=
            fun c => sub_eq_leaf (all p c here (List.suffix_refl p))
          simp only [leafs, leaves, if_true]
          rw [List.flatMap_assoc]
          simp only [List.flatMap_singleton, remains, here, if_true]
          rfl
      | false =>
          simp only [Bool.false_eq_true, if_false]
          rw [leaves, List.flatMap_assoc]
          refine List.flatMap_congr fun c _ => ih c (c :: p) ?_ ?_
          · intro d q same
            rw [← (List.cons.inj same).2]
            exact here
          · intro q d gone below
            obtain ⟨e, -, member⟩ :=
              List.mem_flatMap.mp (all q d gone ((List.suffix_cons c p).trans below))
            have same : c = e :=
              child_eq (below.trans (List.suffix_cons d q)) (suffix_of_mem member)
            subst same
            exact member

end Octree

end Baseliner.OctreePaths
