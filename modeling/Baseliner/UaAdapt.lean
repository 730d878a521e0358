import Baseliner.CountingScatter
import Baseliner.OctreePaths
import Baseliner.UaParallelOrders

/-! The mesh of the UA benchmark and the passes of `adaptation` that change it: `do_refine`,
`find_coarsen`, `do_coarsen` and `move`. Faces are numbered from 0. A face of an element has
its type `cbc`, the neighbours `sje` and the position `ijel` on a larger neighbour. -/

namespace Baseliner.UaAdapt

open CountingScatter OctreePaths UaParallelOrders

structure FaceEntry where
  cbc : ℕ
  sje : ℕ → ℕ → ℕ
  ijel : ℕ × ℕ

abbrev Tables := ℕ → Face → FaceEntry

structure Mesh where
  nelt : ℕ
  tree : ℕ → ℕ
  mtToId : ℕ → ℕ
  idToMt : ℕ → ℕ
  face : Tables
  ich : ℕ → ℕ
  skip : ℕ → Bool
  neltold : ℕ

section Constants

def jjface : Face → Face := ![1, 0, 3, 2, 5, 4]

def leArr : Fin 3 → Fin 2 → Fin 4 → ℕ :=
  ![![![8, 2, 4, 6], ![1, 3, 5, 7]], ![![8, 1, 4, 5], ![2, 3, 6, 7]],
    ![![8, 1, 2, 3], ![4, 5, 6, 7]]]

def children : Face → Fin 4 → ℕ :=
  ![![2, 4, 6, 8], ![1, 3, 5, 7], ![3, 4, 7, 8], ![1, 2, 5, 6], ![5, 6, 7, 8], ![1, 2, 3, 4]]

def iijj : Fin 4 → ℕ × ℕ := ![(1, 1), (1, 2), (2, 1), (2, 2)]

/-- `f_c`, the three faces that share a vertex. -/
def fC : Fin 8 → Fin 3 → Face :=
  ![![1, 3, 5], ![0, 3, 5], ![1, 2, 5], ![0, 2, 5], ![1, 3, 4], ![0, 3, 4], ![1, 2, 4],
    ![0, 2, 4]]

end Constants

section Entries

def FaceEntry.setSje (at_ : ℕ × ℕ) (n : ℕ) (e : FaceEntry) : FaceEntry :=
  { e with sje := fun a b => if (a, b) = at_ then n else e.sje a b }

def FaceEntry.zero : FaceEntry := ⟨0, fun _ _ => 0, (0, 0)⟩

def setFace (iel : ℕ) (i : Face) (change : FaceEntry → FaceEntry) (T : Tables) : Tables :=
  fun e f => if e = iel ∧ f = i then change (T e f) else T e f

end Entries

section Refine

/-- The face on the other side of the children of `iel`, among them `iel` and the elements from
`nelt + 1` on. -/
def le (iel nelt : ℕ) (i : Face) (k : Fin 4) : ℕ :=
  if i.val % 2 = 0 ∧ k = 0 then iel
  else leArr ⟨i.val / 2, by omega⟩ ⟨i.val % 2, by omega⟩ k + nelt

def ne (iel nelt : ℕ) (i : Face) (k : Fin 4) : ℕ :=
  if i.val % 2 = 1 ∧ k = 0 then iel
  else leArr ⟨i.val / 2, by omega⟩ ⟨1 - i.val % 2, by omega⟩ k + nelt

def n2 (refFrontId : ℕ → ℕ) (ntemp : ℕ) (i : Face) (k : Fin 4) : ℕ :=
  let n2 := refFrontId ntemp + leArr ⟨i.val / 2, by omega⟩ ⟨i.val % 2, by omega⟩ k
  if n2 = refFrontId ntemp + 8 then ntemp else n2

/-- The neighbours of the children at face `i` of their parent, whose faces were `temp`. -/
def refineFace (ich refFrontId : ℕ → ℕ) (iel nelt : ℕ) (temp : Face → FaceEntry) (T : Tables)
    (i : Face) : Tables :=
  let jface := jjface i
  let le := le iel nelt i
  let ne := ne iel nelt i
  let T := (List.finRange 4).foldl (fun T k =>
    setFace (le k) i (fun e => { e.setSje (1, 1) (ne k) with cbc := 2, ijel := (1, 1) }) T) T
  match (temp i).cbc with
  | 2 =>
      let ntemp := (temp i).sje 1 1
      if ich ntemp ≠ 4 then
        (List.finRange 4).foldl (fun T k =>
          setFace ntemp jface (FaceEntry.setSje (iijj k) (ne k)) (setFace (ne k) i
            (fun e => { e.setSje (1, 1) ntemp with cbc := 1, ijel := iijj k }) T))
          (setFace ntemp jface (fun e => { e with cbc := 3, ijel := (1, 1) }) T)
      else
        (List.finRange 4).foldl (fun T k =>
          setFace (ne k) i (fun e =>
            { e.setSje (1, 1) (n2 refFrontId ntemp i k) with cbc := 2, ijel := (1, e.ijel.2) }) T) T
  | 3 =>
      (List.finRange 4).foldl (fun T k =>
        let ntemp := (temp i).sje (iijj k).1 (iijj k).2
        setFace ntemp jface (fun e => { e.setSje (1, 1) (ne k) with cbc := 2, ijel := (1, 1) })
          (setFace (ne k) i
            (fun e => { e.setSje (1, 1) ntemp with cbc := 2, ijel := (1, 1) }) T)) T
  | 0 =>
      (List.finRange 4).foldl (fun T k => setFace (ne k) i (fun e => { e with cbc := 0 }) T) T
  | _ => T

def zeroFaces (iel nelt : ℕ) (T : Tables) : Tables := fun e f =>
  if e = iel ∨ nelt + 1 ≤ e ∧ e ≤ nelt + 7 then .zero else T e f

def shiftTree (tree : ℕ) : ℕ := tree * 8 % 2 ^ 32

structure RefinePlan where
  old : ℕ → ℕ
  front : ℕ → ℕ
  action : ℕ → ℕ
  refFrontId : ℕ → ℕ
  nelttemp : ℕ

def refineOne (plan : RefinePlan) (m : Mesh) (index : ℕ) : Mesh :=
  let miel := plan.action index
  let mielnew := miel + (plan.front miel - 1) * 7
  let iel := plan.old miel
  let nelt := plan.nelttemp + (plan.front miel - 1) * 7
  let ntemp := shiftTree (m.tree iel)
  { m with
    mtToId := (List.range' 1 7).foldl (fun f j => Function.update f (mielnew + j) (nelt + j))
      m.mtToId
    tree := (List.range' 1 7).foldl (fun f j => Function.update f (nelt + j) (ntemp + j % 8))
      (Function.update m.tree iel ntemp)
    face := (List.finRange 6).foldl (refineFace m.ich plan.refFrontId iel nelt (m.face iel))
      (zeroFaces iel nelt m.face) }

def refinedIndex (m : Mesh) (front : ℕ → ℕ) (miel : ℕ) : ℕ :=
  miel + if m.ich (m.mtToId miel) = 4 then (front miel - 1) * 7 else front miel * 7

def refinePlan (m : Mesh) : RefinePlan :=
  let front := parallelAdd (Schedule.sequential m.nelt) fun miel =>
    if m.ich (m.mtToId miel) ≠ 4 then 0 else 1
  { old := m.mtToId
    front := front
    action := (List.range' 1 m.nelt).foldl (fun f miel =>
      if m.ich (m.mtToId miel) = 4 then Function.update f (front miel) miel else f) fun _ => 0
    refFrontId := (List.range' 1 m.nelt).foldl (fun f miel =>
      Function.update f (m.mtToId miel) (m.nelt + (refinedIndex m front miel - miel))) fun _ => 0
    nelttemp := m.nelt }

def doRefine (m : Mesh) : Mesh :=
  let plan := refinePlan m
  let numRefine := plan.front m.nelt
  let mtToId := (List.range' 1 m.nelt).foldl (fun f miel =>
    Function.update f (refinedIndex m plan.front miel) (m.mtToId miel)) (clear 1 m.nelt m.mtToId)
  let refined := (List.range' 1 numRefine).foldl (refineOne plan) { m with mtToId := mtToId }
  { refined with nelt := m.nelt + numRefine * 7 }

end Refine

section Coarsen

/-- `ntp`: an element that is a first child, and its siblings as its faces name them. -/
def siblings (T : Tables) (iel : ℕ) : Child → ℕ :=
  let next (i : Face) (e : ℕ) : ℕ := (T e i).sje 1 1
  let ntp3 := next 2 iel
  let ntp5 := next 4 iel
  let ntp7 := next 2 ntp5
  ![iel, next 0 iel, ntp3, next 0 ntp3, ntp5, next 0 ntp5, ntp7, next 0 ntp7]

def icheck (T : Tables) (ie : ℕ) (n : Child) : Bool :=
  let n1 := fC n 0
  let n2 := fC n 1
  let n3 := fC n 2
  if (T ie n1).cbc = 3 ∨ (T ie n2).cbc = 3 ∨ (T ie n3).cbc = 3 then false
  else
    let cb (from_ at_ : Face) : ℕ :=
      if (T ie from_).sje 1 1 ≠ 0 then (T ((T ie from_).sje 1 1) at_).cbc else 0
    !decide (((T ie n1).cbc = 2 ∧ (cb n1 n2 = 3 ∨ cb n1 n3 = 3)) ∨
      ((T ie n2).cbc = 2 ∧ (cb n2 n3 = 3 ∨ cb n2 n1 = 3)) ∨
      ((T ie n3).cbc = 2 ∧ (cb n3 n1 = 3 ∨ cb n3 n2 = 3)))

/-- A first child whose siblings are all marked and may be merged with it. -/
def mergeable (m : Mesh) (iel : ℕ) : Bool :=
  let ntp := siblings m.face iel
  decide (m.ich iel = 2) && decide (m.tree iel % 8 = 0) &&
    (List.finRange 8).all (fun c => decide (m.tree (ntp c) / 8 = m.tree iel / 8)) &&
    (List.finRange 8).all (fun c => decide (m.ich (ntp c) = 2)) &&
    (List.finRange 8).all fun c => icheck m.face (ntp c) c

/-- `merging` at face `i`, with the children as `iela` has them, from 1 on. -/
def mergeFace (ifcoaId : ℕ → Bool) (iela : ℕ → ℕ) (T : Tables) (i : Face) : Tables :=
  let ielnew := iela 1
  let jface := jjface i
  let ielold := iela (children i 0)
  let ntempa (ii : Fin 4) := iela (children i ii)
  match (T ielold i).cbc with
  | 2 =>
      if ifcoaId ((T ielold i).sje 1 1) then
        let ntemp :=
          if i.val % 2 = 1 then (T ((T (ntempa 0) i).sje 1 1) i).sje 1 1
          else (T (ntempa 0) i).sje 1 1
        setFace ielnew i (fun e => { e.setSje (1, 1) ntemp with cbc := 2, ijel := (1, 1) }) T
      else
        let T := (List.finRange 4).foldl (fun T ii =>
          let ntema := (T (ntempa ii) i).sje 1 1
          setFace ielnew i (fun e => { e.setSje (iijj ii) ntema with ijel := (1, 1) })
            (setFace ntema jface
              (fun e => { e.setSje (1, 1) ielnew with cbc := 1, ijel := iijj ii }) T)) T
        setFace ielnew i (fun e => { e with cbc := 3 }) T
  | 1 =>
      let ntemp := (T ielold i).sje 1 1
      setFace ielnew i (fun e => { e.setSje (1, 1) ntemp with cbc := 2, ijel := (1, 1) })
        (setFace ntemp jface (fun _ =>
          ⟨2, fun a b => if (a, b) = (1, 1) then ielnew else 0, (1, 1)⟩) T)
  | 0 => setFace ielnew i (fun e => { e with cbc := 0, sje := fun _ _ => 0 }) T
  | _ => T

def merging (ifcoaId : ℕ → Bool) (iela : ℕ → ℕ) (m : Mesh) : Mesh :=
  { m with
    tree := Function.update m.tree (iela 1) (m.tree (iela 1) / 8)
    face := (List.finRange 6).foldl (mergeFace ifcoaId iela) m.face }

def numbered (ntp : Child → ℕ) (n : ℕ) : ℕ := if h : n - 1 < 8 then ntp ⟨n - 1, h⟩ else 0

structure CoarsenPlan where
  old : ℕ → ℕ
  front : ℕ → ℕ
  action : ℕ → ℕ
  ifcoaId : ℕ → Bool

/-- A mark for all siblings of the mergeable elements, or for all but the first. -/
def markSiblings (m : Mesh) (cs : List Child) (marks : ℕ → Bool) : ℕ → Bool :=
  (List.range' 1 m.nelt).foldl (fun marks miel =>
    if mergeable m (m.mtToId miel) then
      cs.foldl (fun marks c =>
        Function.update marks (siblings m.face (m.mtToId miel) c) true) marks
    else marks) marks

def coarsenPlan (m : Mesh) : CoarsenPlan :=
  let front := parallelAdd (Schedule.sequential m.nelt) fun miel =>
    if mergeable m (m.mtToId miel) then 1 else 0
  { old := m.mtToId
    front := front
    action := (List.range' 1 m.nelt).foldl (fun f miel =>
      if mergeable m (m.mtToId miel) then Function.update f (front miel) miel else f) fun _ => 0
    ifcoaId := markSiblings m (List.finRange 8) fun _ => false }

def coarsenedIndex (m : Mesh) (front : ℕ → ℕ) (miel : ℕ) : ℕ :=
  miel - if mergeable m (m.mtToId miel) then (front miel - 1) * 7 else front miel * 7

def coarsenOne (plan : CoarsenPlan) (m : Mesh) (index : ℕ) : Mesh :=
  merging plan.ifcoaId (numbered (siblings m.face (plan.old (plan.action index)))) m

def doCoarsen (m : Mesh) : Mesh :=
  let plan := coarsenPlan m
  let numCoarsen := plan.front m.nelt
  let skip := markSiblings m (List.finRange 8).tail m.skip
  let mtToId := (List.range' 1 m.nelt).foldl (fun f miel =>
    if skip (m.mtToId miel) then f
    else Function.update f (coarsenedIndex m plan.front miel) (m.mtToId miel))
    (clear 1 m.nelt m.mtToId)
  let merged := (List.range' 1 numCoarsen).foldl (coarsenOne plan)
    { m with mtToId := mtToId, skip := skip }
  { merged with nelt := m.nelt - numCoarsen * 7 }

/-- `find_coarsen`, for elements that the heat source touches. -/
def findCoarsen (iftouch : ℕ → Bool) (m : Mesh) : Mesh :=
  { m with
    ich := (List.range' 1 m.neltold).foldl (fun ich iel =>
      if m.skip iel then ich
      else if iftouch iel then Function.update ich iel 0
      else if (List.finRange 6).any fun i => decide ((m.face iel i).cbc = 3) then
        Function.update ich iel 0
      else Function.update ich iel 2) m.ich }

def beginCoarsen (m : Mesh) : Mesh :=
  { m with
    skip := (List.range' 1 m.nelt).foldl (fun f iel => Function.update f iel false) m.skip
    neltold := m.nelt }

end Coarsen

section Move

def movedFace (idToMt : ℕ → ℕ) (e : FaceEntry) : FaceEntry :=
  match e.cbc with
  | 2 => { FaceEntry.zero.setSje (1, 1) (idToMt (e.sje 1 1)) with cbc := 2, ijel := (1, 1) }
  | 1 => { FaceEntry.zero.setSje (1, 1) (idToMt (e.sje 1 1)) with cbc := 1, ijel := e.ijel }
  | 3 =>
      { (List.finRange 4).foldl (fun new k =>
          new.setSje (iijj k) (idToMt (e.sje (iijj k).1 (iijj k).2))) FaceEntry.zero with
        cbc := 3, ijel := (1, 1) }
  | cb => { FaceEntry.zero with cbc := cb }

def indexElements (m : Mesh) : Mesh :=
  { m with
    idToMt := (List.range' 1 m.nelt).foldl
      (fun f miel => Function.update f (m.mtToId miel) miel) m.idToMt }

def move (m : Mesh) : Mesh :=
  { m with
    tree := fun iel => if 1 ≤ iel ∧ iel ≤ m.nelt then m.tree (m.mtToId iel) else m.tree iel
    face := fun iel i =>
      if 1 ≤ iel ∧ iel ≤ m.nelt then movedFace m.idToMt (m.face (m.mtToId iel) i)
      else m.face iel i
    mtToId := fun iel => if 1 ≤ iel ∧ iel ≤ m.nelt then iel else m.mtToId iel
    idToMt := fun iel => if 1 ≤ iel ∧ iel ≤ m.nelt then iel else m.idToMt iel }

end Move

/-- `create_initial_grid`, over whatever the arrays hold. -/
def createInitialGrid (m : Mesh) : Mesh :=
  { m with
    nelt := 1
    tree := Function.update m.tree 1 1
    mtToId := Function.update m.mtToId 1 1
    face := fun e f => if e = 1 then { m.face e f with cbc := 0 } else m.face e f }

end Baseliner.UaAdapt
