import Mathlib.Data.Nat.Log
import Mathlib.Tactic.Ring

/-! Red-black trees with the path from a place up to the root, and the repair along
that path behind the insertion of a red node. A frame of the path is a node with the
direction taken at it and the subtree on the other side. -/

namespace Baseliner.PathTree

variable {α : Type*}

inductive Color where
  | black
  | red
deriving DecidableEq

inductive ColorTree (α : Type*) where
  | nil
  | node (clr : Color) (left : ColorTree α) (entry : α) (right : ColorTree α)

/-- A node on the path, without the subtree the path goes on in. -/
structure Frame (α : Type*) where
  right : Bool
  clr : Color
  entry : α
  sibling : ColorTree α

namespace ColorTree

def toList : ColorTree α → List α
  | nil => []
  | node _ left entry right => left.toList ++ entry :: right.toList

def isRed : ColorTree α → Bool
  | node .red _ _ _ => true
  | _ => false

def blacken : ColorTree α → ColorTree α
  | node _ left entry right => node .black left entry right
  | nil => nil

def map {β : Type*} (f : α → β) : ColorTree α → ColorTree β
  | nil => nil
  | node clr left entry right => node clr (left.map f) (f entry) (right.map f)

@[simp] theorem toList_map {β : Type*} (f : α → β) (t : ColorTree α) :
    (t.map f).toList = t.toList.map f := by
  induction t with
  | nil => rfl
  | node clr left entry right ihl ihr => simp [map, toList, ihl, ihr]

@[simp] theorem toList_blacken (t : ColorTree α) : t.blacken.toList = t.toList := by
  cases t <;> rfl

end ColorTree

open ColorTree

def Frame.plug (t : ColorTree α) (f : Frame α) : ColorTree α :=
  if f.right then .node f.clr f.sibling f.entry t else .node f.clr t f.entry f.sibling

def plugAll (t : ColorTree α) (path : List (Frame α)) : ColorTree α := path.foldl Frame.plug t

/-- The rotations at the grandparent `g` of a red node with the red parent `p`. -/
def rotate (left : ColorTree α) (entry : α) (right : ColorTree α) (p g : Frame α) : ColorTree α :=
  match g.right, p.right with
  | false, true =>
      .node .black (.node .red p.sibling p.entry left) entry
        (.node .red right g.entry g.sibling)
  | false, false =>
      .node .black (.node .red left entry right) p.entry
        (.node .red p.sibling g.entry g.sibling)
  | true, false =>
      .node .black (.node .red g.sibling g.entry left) entry
        (.node .red right p.entry p.sibling)
  | true, true =>
      .node .black (.node .red g.sibling g.entry p.sibling) p.entry
        (.node .red left entry right)

/-- The repair of a red node, up the path as long as its parent is red. -/
def fixup (left : ColorTree α) (entry : α) (right : ColorTree α) : List (Frame α) → ColorTree α
  | p :: g :: path =>
      if p.clr ≠ .red then plugAll (.node .red left entry right) (p :: g :: path)
      else if g.sibling.isRed then
        if g.right then
          fixup g.sibling.blacken g.entry (p.plug (.node .red left entry right)).blacken path
        else fixup (p.plug (.node .red left entry right)).blacken g.entry g.sibling.blacken path
      else plugAll (rotate left entry right p g) path
  | path => plugAll (.node .red left entry right) path

section Entries

def before (path : List (Frame α)) : List α :=
  path.foldl (fun l f => if f.right then f.sibling.toList ++ f.entry :: l else l) []

def behind (path : List (Frame α)) : List α :=
  path.foldl (fun l f => if f.right then l else l ++ f.entry :: f.sibling.toList) []

theorem before_cons (f : Frame α) (path : List (Frame α)) :
    before (f :: path) =
      before path ++ if f.right then f.sibling.toList ++ [f.entry] else [] := by
  have fold : ∀ l, path.foldl (fun l f =>
      if f.right then f.sibling.toList ++ f.entry :: l else l) l = before path ++ l := by
    induction path with
    | nil => intro l; rfl
    | cons g path ih =>
        intro l
        rw [before, List.foldl_cons, List.foldl_cons, ih, ih]
        split_ifs <;> simp
  rw [before, List.foldl_cons, fold]

theorem behind_cons (f : Frame α) (path : List (Frame α)) :
    behind (f :: path) =
      (if f.right then [] else f.entry :: f.sibling.toList) ++ behind path := by
  have fold : ∀ l, path.foldl (fun l f =>
      if f.right then l else l ++ f.entry :: f.sibling.toList) l = l ++ behind path := by
    induction path with
    | nil => intro l; simp [behind]
    | cons g path ih =>
        intro l
        rw [behind, List.foldl_cons, List.foldl_cons, ih, ih]
        split_ifs <;> simp
  rw [behind, List.foldl_cons, fold]
  split_ifs <;> simp

theorem toList_plug (t : ColorTree α) (f : Frame α) :
    (f.plug t).toList = (if f.right then f.sibling.toList ++ [f.entry] else []) ++ t.toList ++
      if f.right then [] else f.entry :: f.sibling.toList := by
  rw [Frame.plug]
  split_ifs <;> simp [toList]

theorem toList_plugAll (t : ColorTree α) (path : List (Frame α)) :
    (plugAll t path).toList = before path ++ t.toList ++ behind path := by
  induction path generalizing t with
  | nil => simp [plugAll, before, behind]
  | cons f path ih =>
      rw [plugAll, List.foldl_cons, ← plugAll, ih, toList_plug, before_cons, behind_cons]
      simp

theorem toList_rotate (left : ColorTree α) (entry : α) (right : ColorTree α) (p g : Frame α) :
    (rotate left entry right p g).toList =
      (g.plug (p.plug (.node .red left entry right))).toList := by
  unfold rotate Frame.plug
  split <;> rename_i gr pr <;> simp [gr, pr, toList]

theorem toList_fixup (left : ColorTree α) (entry : α) (right : ColorTree α)
    (path : List (Frame α)) :
    (fixup left entry right path).toList =
      before path ++ (left.toList ++ entry :: right.toList) ++ behind path := by
  induction left, entry, right, path using fixup.induct with
  | case1 left entry right p g path other =>
      rw [fixup, if_pos other, toList_plugAll, toList]
  | case2 left entry right p g path parent uncle side ih =>
      rw [fixup, if_neg parent, if_pos uncle, if_pos side, ih, toList_blacken, toList_blacken,
        toList_plug, before_cons, before_cons, behind_cons, behind_cons]
      simp [side, toList]
  | case3 left entry right p g path parent uncle side ih =>
      rw [fixup, if_neg parent, if_pos uncle, if_neg side, ih, toList_blacken, toList_blacken,
        toList_plug, before_cons, before_cons, behind_cons, behind_cons]
      simp [side, toList]
  | case4 left entry right p g path parent uncle =>
      rw [fixup, if_neg parent, if_neg uncle, toList_plugAll, toList_rotate, toList_plug,
        toList_plug, before_cons, before_cons, behind_cons, behind_cons]
      simp [toList]
  | case5 left entry right path short =>
      rw [fixup, toList_plugAll, toList]
      exact short

end Entries

section Balance

inductive Balanced : Color → Nat → ColorTree α → Prop
  | nil : Balanced .black 0 .nil
  | red {h : Nat} {left right : ColorTree α} {entry : α} (hl : Balanced .black h left)
      (hr : Balanced .black h right) : Balanced .red h (.node .red left entry right)
  | black {h : Nat} {c d : Color} {left right : ColorTree α} {entry : α} (hl : Balanced c h left)
      (hr : Balanced d h right) : Balanced .black (h + 1) (.node .black left entry right)

/-- A path on which a tree of some color and black height is missing. -/
inductive Open : Color → Nat → List (Frame α) → Prop
  | top {c : Color} {h : Nat} : Open c h []
  | red {h : Nat} {f : Frame α} {path : List (Frame α)} (clr : f.clr = .red)
      (sibling : Balanced .black h f.sibling) (rest : Open .red h path) : Open .black h (f :: path)
  | black {c d : Color} {h : Nat} {f : Frame α} {path : List (Frame α)} (clr : f.clr = .black)
      (sibling : Balanced d h f.sibling) (rest : Open .black (h + 1) path) : Open c h (f :: path)

variable {t : ColorTree α} {path : List (Frame α)} {c : Color} {h : Nat}

theorem Open.plugAll (hole : Open c h path) :
    ∃ d n, ∀ t : ColorTree α, Balanced c h t → Balanced d n (plugAll t path) := by
  induction hole with
  | top => exact ⟨_, _, fun _ tree => tree⟩
  | red clr sibling rest ih =>
      obtain ⟨d, n, whole⟩ := ih
      refine ⟨d, n, fun t tree => ?_⟩
      rw [PathTree.plugAll, List.foldl_cons, ← PathTree.plugAll]
      refine whole _ ?_
      rw [Frame.plug, clr]
      split_ifs
      · exact .red sibling tree
      · exact .red tree sibling
  | black clr sibling rest ih =>
      obtain ⟨d, n, whole⟩ := ih
      refine ⟨d, n, fun t tree => ?_⟩
      rw [PathTree.plugAll, List.foldl_cons, ← PathTree.plugAll]
      refine whole _ ?_
      rw [Frame.plug, clr]
      split_ifs
      · exact .black sibling tree
      · exact .black tree sibling

theorem Balanced.plugAll (tree : Balanced c h t) (hole : Open c h path) :
    ∃ d n, Balanced d n (plugAll t path) := by
  obtain ⟨d, n, whole⟩ := hole.plugAll
  exact ⟨d, n, whole t tree⟩

theorem Balanced.color_eq {d : Color} {n : Nat} (first : Balanced c h t)
    (second : Balanced d n t) : c = d := by
  cases first with
  | nil => cases second; rfl
  | red hl hr => cases second; rfl
  | black hl hr => cases second; rfl

theorem Balanced.replace {left right : ColorTree α} {clr : Color} {entry other : α} {d : Color}
    {n : Nat}
    (tree : Balanced c h (.node clr left entry right)) (hole : Open c h path)
    (root : Balanced d n (PathTree.plugAll (.node clr left entry right) path)) :
    ∃ m, Balanced d m (PathTree.plugAll (.node clr left other right) path) := by
  obtain ⟨e, m, whole⟩ := hole.plugAll
  rw [root.color_eq (whole _ tree)]
  refine ⟨m, whole _ ?_⟩
  cases tree with
  | red hl hr => exact .red hl hr
  | black hl hr => exact .black hl hr

theorem Balanced.blacken (tree : Balanced c h t) (red : t.isRed = true) :
    Balanced .black (h + 1) t.blacken := by
  cases tree with
  | nil => cases red
  | red hl hr => exact .black hl hr
  | black hl hr => cases red

theorem Balanced.black_of_not_red (tree : Balanced c h t) (other : ¬ t.isRed = true) :
    Balanced .black h t := by
  cases tree with
  | nil => exact .nil
  | red hl hr => exact absurd rfl other
  | black hl hr => exact .black hl hr

theorem exists_balanced_blacken {d : Color} {n : Nat} (tree : Balanced d n t) :
    ∃ m, Balanced .black m t.blacken := by
  cases tree with
  | nil => exact ⟨0, .nil⟩
  | red hl hr => exact ⟨_, .black hl hr⟩
  | black hl hr => exact ⟨_, .black hl hr⟩

theorem balanced_parent {left right : ColorTree α} {entry : α} {p : Frame α}
    (hl : Balanced .black h left) (hr : Balanced .black h right)
    (sibling : Balanced .black h p.sibling) :
    Balanced .black (h + 1) (p.plug (.node .red left entry right)).blacken := by
  rw [Frame.plug]
  split_ifs
  · exact .black sibling (.red hl hr)
  · exact .black (.red hl hr) sibling

theorem balanced_fixup {left right : ColorTree α} {entry : α} (hl : Balanced .black h left)
    (hr : Balanced .black h right) (hole : Open .black h path) :
    ∃ n, Balanced .black n (fixup left entry right path).blacken := by
  induction left, entry, right, path using fixup.induct generalizing h with
  | case1 left entry right p g path other =>
      rw [fixup, if_pos other]
      cases hole with
      | red clr sibling rest => exact absurd clr other
      | black clr sibling rest =>
          obtain ⟨d, n, whole⟩ := Balanced.plugAll (.red hl hr) (.black clr sibling rest)
          exact exists_balanced_blacken whole
  | case2 left entry right p g path parent uncle side ih =>
      rw [fixup, if_neg parent, if_pos uncle, if_pos side]
      cases hole with
      | black clr sibling rest => exact absurd (by rw [clr]; decide) parent
      | red clr sibling rest =>
          cases rest with
          | black gclr gsibling grest =>
              exact ih (gsibling.blacken uncle) (balanced_parent hl hr sibling) grest
  | case3 left entry right p g path parent uncle side ih =>
      rw [fixup, if_neg parent, if_pos uncle, if_neg side]
      cases hole with
      | black clr sibling rest => exact absurd (by rw [clr]; decide) parent
      | red clr sibling rest =>
          cases rest with
          | black gclr gsibling grest =>
              exact ih (balanced_parent hl hr sibling) (gsibling.blacken uncle) grest
  | case4 left entry right p g path parent uncle =>
      rw [fixup, if_neg parent, if_neg uncle]
      cases hole with
      | black clr sibling rest => exact absurd (by rw [clr]; decide) parent
      | red clr sibling rest =>
          cases rest with
          | black gclr gsibling grest =>
              have uncleBlack := gsibling.black_of_not_red uncle
              have top : Balanced .black (h + 1) (rotate left entry right p g) := by
                unfold rotate
                split
                · exact .black (.red sibling hl) (.red hr uncleBlack)
                · exact .black (.red hl hr) (.red sibling uncleBlack)
                · exact .black (.red uncleBlack hl) (.red hr sibling)
                · exact .black (.red uncleBlack sibling) (.red hl hr)
              obtain ⟨d, n, whole⟩ := Balanced.plugAll top grest
              exact exists_balanced_blacken whole
  | case5 left entry right path short =>
      rw [fixup.eq_2 left entry right path short]
      cases path with
      | nil => exact exists_balanced_blacken (.red hl hr)
      | cons p path =>
          cases path with
          | cons g path => exact absurd rfl (short p g path)
          | nil =>
              cases hole with
              | black clr sibling rest =>
                  obtain ⟨d, n, whole⟩ := Balanced.plugAll (.red hl hr) (.black clr sibling rest)
                  exact exists_balanced_blacken whole
              | red clr sibling rest =>
                  exact ⟨h + 1, balanced_parent hl hr sibling⟩

theorem Balanced.map {β : Type*} (f : α → β) (tree : Balanced c h t) :
    Balanced c h (t.map f) := by
  induction tree with
  | nil => exact .nil
  | red hl hr ihl ihr => exact .red ihl ihr
  | black hl hr ihl ihr => exact .black ihl ihr

theorem Balanced.two_pow_le (tree : Balanced c h t) : 2 ^ h ≤ t.toList.length + 1 := by
  induction tree with
  | nil => simp [toList]
  | red hl hr ihl ihr =>
      rw [toList, List.length_append, List.length_cons]
      omega
  | black hl hr ihl ihr =>
      rw [toList, List.length_append, List.length_cons, pow_succ]
      omega

end Balance

end Baseliner.PathTree
