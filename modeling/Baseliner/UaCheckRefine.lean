import Baseliner.OctreeGrading
import Baseliner.RepeatedSweeps
import Baseliner.UaLeaves

/-! `check_refine` takes the mark off elements that have a larger neighbour and marks the larger
ones instead. Neighbours across an edge are found through the tables of a face neighbour; `ifcor`
compares vertices to tell whether two elements meet in an edge. -/

namespace Baseliner.UaCheckRefine

open OctreeGrading OctreePaths RepeatedSweeps UaAdapt UaLeaves

section Vertices

structure Corners (C : Type*) where
  xc : ℕ → ℕ → C
  yc : ℕ → ℕ → C
  zc : ℕ → ℕ → C

/-- The vertices of one element on the edge where two elements meet, and those of the other one:
by the face `iface` of the neighbour between them and the face `i` of the first one. -/
def e1v1 (iface i : Face) : ℕ :=
  ![![0, 0, 4, 2, 6, 2], ![0, 0, 3, 1, 5, 1], ![4, 3, 0, 0, 7, 3], ![2, 1, 0, 0, 5, 1],
    ![6, 5, 7, 5, 0, 0], ![2, 1, 3, 1, 0, 0]] i iface

def e2v1 (iface i : Face) : ℕ :=
  ![![0, 0, 1, 3, 1, 5], ![0, 0, 2, 4, 2, 6], ![1, 2, 0, 0, 1, 5], ![3, 4, 0, 0, 3, 7],
    ![1, 2, 1, 3, 0, 0], ![5, 6, 5, 7, 0, 0]] i iface

def e1v2 (iface i : Face) : ℕ :=
  ![![0, 0, 8, 6, 8, 4], ![0, 0, 7, 5, 7, 3], ![8, 7, 0, 0, 8, 4], ![6, 5, 0, 0, 6, 2],
    ![8, 7, 8, 6, 0, 0], ![4, 3, 4, 2, 0, 0]] i iface

def e2v2 (iface i : Face) : ℕ :=
  ![![0, 0, 5, 7, 3, 7], ![0, 0, 6, 8, 4, 8], ![5, 6, 0, 0, 2, 6], ![7, 8, 0, 0, 4, 8],
    ![3, 4, 2, 4, 0, 0], ![7, 8, 6, 8, 0, 0]] i iface

variable {C : Type*} [BEq C] (v : Corners C)

def ifsame (ntemp j iel i : ℕ) : Bool :=
  if ntemp = 0 ∨ iel = 0 then false
  else v.xc i iel == v.xc j ntemp && v.yc i iel == v.yc j ntemp && v.zc i iel == v.zc j ntemp

def ifcor (n1 n2 : ℕ) (i iface : Face) : Bool :=
  ifsame v n1 (e1v1 iface i) n2 (e2v1 iface i) || ifsame v n1 (e1v2 iface i) n2 (e2v2 iface i)

end Vertices

section Check

structure Check where
  ich : ℕ → ℕ
  ifrepeat : Bool

/-- The faces that meet face `i` in an edge. -/
def ifaces (i : Face) : List Face :=
  (List.finRange 6).filter fun iface => iface ≠ i ∧ iface ≠ jjface i

variable {C : Type*} [BEq C] (v : Corners C) (T : Tables) (iel ntemp : ℕ) (i : Face)

/-- Behind the larger neighbour `ntemp` across face `i`: a neighbour of it across an edge. -/
def markEdge (s : Check) (iface : Face) : Check :=
  if (T ntemp iface).cbc = 2 then
    let nntemp := (T ntemp iface).sje 1 1
    if s.ich nntemp ≠ 4 ∧ ifcor v iel nntemp i iface then
      { s with ich := Function.update s.ich nntemp 4 }
    else s
  else s

/-- Behind the neighbour `ntemp` of the same size: a larger one across an edge. -/
def yieldEdge (s : Check) (iface : Face) : Check :=
  if (T ntemp iface).cbc = 1 then
    let nntemp := (T ntemp iface).sje 1 1
    { ich := Function.update (Function.update s.ich nntemp 4) iel 0, ifrepeat := true }
  else s

def markFace (s : Check) : Check :=
  if s.ich ntemp ≠ 4 then { ich := Function.update s.ich ntemp 4, ifrepeat := true } else s

def checkFace (s : Check) (i : Face) : Check :=
  let ntemp := (T iel i).sje 1 1
  if (T iel i).cbc = 1 then
    (ifaces i).foldl (markEdge v T iel ntemp i)
      (markFace ntemp { s with ich := Function.update s.ich iel 0 })
  else if (T iel i).cbc = 2 then (ifaces i).foldl (yieldEdge T iel ntemp) s
  else s

def checkElement (s : Check) (iel : ℕ) : Check :=
  if s.ich iel = 4 then (List.finRange 6).foldl (checkFace v T iel) s else s

def checkRefine (order : List ℕ) (ich : ℕ → ℕ) : Check :=
  order.foldl (checkElement v T) ⟨ich, false⟩

end Check

section Neighbors

def Hard (T : Tables) (iel : ℕ) (i : Face) : Prop := (T iel i).cbc = 1

/-- A larger one across an edge, seen from a neighbour of the same size. -/
def Soft (T : Tables) (iel : ℕ) (i : Face) : Prop :=
  (T iel i).cbc = 2 ∧ ∃ iface ∈ ifaces i, (T ((T iel i).sje 1 1) iface).cbc = 1

theorem mem_ifaces {i iface : Face} : iface ∈ ifaces i ↔ iface ≠ i ∧ iface ≠ opposite i := by
  rw [ifaces, List.mem_filter, decide_eq_true_eq]
  exact and_iff_right (List.mem_finRange iface)

variable {l : Leaves} {T : Tables} (mesh : IsMesh l)
  (faces : ∀ x ∈ l, ∀ f, FaceOk l x.2 f (T x.1 f)) {n e : ℕ} {p q r d : Path} {f g : Face}

include faces

theorem larger_of_one (hn : (n, p) ∈ l) (one : (T n f).cbc = 1) :
    ∃ k q r, p = onFace f k :: q ∧ neighbor f q = some r ∧ ((T n f).sje 1 1, r) ∈ l ∧
      r.length + 1 = p.length ∧ Larger p r := by
  obtain ⟨k, q, r, rfl, found, there, -⟩ := (faceOk_one one).mp (faces _ hn f)
  have next : neighbor f (onFace f k :: q) = some (onFace (opposite f) k :: r) := by
    rw [neighbor_onFace, found]
    rfl
  have size : r.length + 1 = (onFace f k :: q).length := by
    rw [List.length_cons, length_neighbor found]
  exact ⟨k, q, r, rfl, found, there, size, _, .face f next, List.suffix_cons _ r, by omega⟩

include mesh

theorem one_of_larger (hn : (n, p) ∈ l) (next : neighbor f p = some d) (he : (e, r) ∈ l)
    (inside : r <:+ d) (shorter : r.length < p.length) : (T n f).cbc = 1 := by
  have ok : FaceOk l p f (T n f) := faces _ hn f
  have size := length_neighbor next
  rcases ok.types with zero | one | two | three
  · rw [(faceOk_zero zero).mp ok] at next
    cases next
  · exact one
  · obtain ⟨q, found, there⟩ := (faceOk_two two).mp ok
    rw [next] at found
    cases found
    have same := congrArg (fun x => x.2.length) (mesh.eq_of_suffix he there inside)
    simp only at same
    omega
  · obtain ⟨q, found, there⟩ := (faceOk_three three).mp ok
    rw [next] at found
    cases found
    have same := congrArg (fun x => x.2.length)
      (mesh.eq_of_suffix he (there 0) (inside.trans (List.suffix_cons _ _)))
    simp only [List.length_cons] at same
    omega

theorem graded_face (hn : (n, p) ∈ l) (next : neighbor f p = some d) (he : (e, r) ∈ l)
    (inside : r <:+ d) : p.length ≤ r.length + 1 := by
  by_cases shorter : r.length < p.length
  · have one := one_of_larger mesh faces hn next he inside shorter
    obtain ⟨k, q, r', rfl, found, there, size, -⟩ := larger_of_one faces hn one
    rw [neighbor_onFace, found] at next
    cases next
    have below : r <:+ r' := suffix_of_shorter inside (by rw [List.length_cons]; omega)
    have same := congrArg (fun x => x.2.length) (mesh.eq_of_suffix he there below)
    simp only at same
    omega
  · omega

/-- A larger neighbour across an edge is seen through one face of the edge, unless there is a
larger one across that face: elements smaller than the cell would lie two levels below it. -/
theorem soft_of_edge (hn : (n, p) ∈ l) (first : neighbor f p = some q)
    (other : g ≠ f) (meet : g ≠ opposite f) (second : neighbor g q = some d) (he : (e, r) ∈ l)
    (inside : r <:+ d) (shorter : r.length < p.length) (small : (T n f).cbc ≠ 1) :
    Soft T n f := by
  have ok : FaceOk l p f (T n f) := faces _ hn f
  have size := length_neighbor first
  rcases ok.types with zero | one | two | three
  · rw [(faceOk_zero zero).mp ok] at first
    cases first
  · exact (small one).elim
  · obtain ⟨q', found, there⟩ := (faceOk_two two).mp ok
    rw [first] at found
    cases found
    refine ⟨two, g, mem_ifaces.mpr ⟨other, meet⟩, ?_⟩
    exact one_of_larger mesh faces there second he inside (by omega)
  · obtain ⟨q', found, smaller⟩ := (faceOk_three three).mp ok
    rw [first] at found
    cases found
    -- a child of the neighbour that lies next to the larger element
    obtain ⟨k, side⟩ := exists_onFace_outer (f := g) (g := f) (Ne.symm other) (by
      intro same
      rw [same, opposite_opposite] at meet
      exact meet rfl)
    have far : neighbor g (onFace (opposite f) k :: q) =
        some (across g (onFace (opposite f) k) :: d) := by
      rw [neighbor_cons_outer side, second]
      rfl
    have near := graded_face mesh faces (smaller k) far he (inside.trans (List.suffix_cons _ _))
    rw [List.length_cons] at near
    omega

/-- With a larger neighbour across a face, a sibling of the element lies at that neighbour too. -/
theorem soft_of_hard (hn : (n, p) ∈ l) (hard : Hard T n f) : ∃ i, Soft T n i := by
  obtain ⟨k, q, r, rfl, found, there, size, -⟩ := larger_of_one faces hn hard
  obtain ⟨g, other, meet, inner⟩ := exists_inner f (onFace f k)
  have side : outer f (across g (onFace f k)) = true := by
    rw [outer_across_of_meet other meet, outer_onFace]
  have second : neighbor f (across g (onFace f k) :: q) =
      some (across f (across g (onFace f k)) :: r) := by
    rw [neighbor_cons_outer side, found]
    rfl
  refine ⟨g, soft_of_edge mesh faces hn (neighbor_cons_inner inner) (Ne.symm other) ?_ second there
    (List.suffix_cons _ r) (by omega) ?_⟩
  · intro same
    rw [same, opposite_opposite] at meet
    exact meet rfl
  · intro one
    obtain ⟨k', q', r', same, -⟩ := larger_of_one faces hn one
    rw [(List.cons.inj same).1, outer_onFace] at inner
    cases inner

theorem soft_of_larger (hn : (n, p) ∈ l) (he : (e, r) ∈ l) (larger : Larger p r) :
    ∃ i, Soft T n i := by
  obtain ⟨d, around, inside, shorter⟩ := larger
  cases around with
  | face f next =>
      exact soft_of_hard mesh faces hn (one_of_larger mesh faces hn next he inside shorter)
  | edge f g other meet first second =>
      by_cases hard : Hard T n f
      · exact soft_of_hard mesh faces hn hard
      · exact ⟨f, soft_of_edge mesh faces hn first other meet second he inside shorter hard⟩

omit mesh

theorem larger_of_edge (hn : (n, p) ∈ l) (two : (T n f).cbc = 2) (member : g ∈ ifaces f)
    (one : (T ((T n f).sje 1 1) g).cbc = 1) :
    ∃ r, ((T ((T n f).sje 1 1) g).sje 1 1, r) ∈ l ∧ r.length + 1 = p.length ∧ Larger p r := by
  obtain ⟨other, meet⟩ := mem_ifaces.mp member
  have ok : FaceOk l p f (T n f) := faces _ hn f
  obtain ⟨q, first, there⟩ := (faceOk_two two).mp ok
  obtain ⟨k, q', r, rfl, found, larger, size, -⟩ := larger_of_one faces there one
  have second : neighbor g (onFace g k :: q') = some (onFace (opposite g) k :: r) := by
    rw [neighbor_onFace, found]
    rfl
  rw [length_neighbor first] at size
  exact ⟨r, larger, size, _, .edge f g other meet first second, List.suffix_cons _ r, by omega⟩

theorem larger_behind (hn : (n, p) ∈ l) (one : (T n f).cbc = 1)
    (two : (T ((T n f).sje 1 1) g).cbc = 2) :
    ∃ r, ((T ((T n f).sje 1 1) g).sje 1 1, r) ∈ l ∧ r.length + 1 = p.length := by
  obtain ⟨k, q, r, rfl, -, there, size, -⟩ := larger_of_one faces hn one
  obtain ⟨r', next, behind⟩ := (faceOk_two two).mp (faces _ there g)
  exact ⟨r', behind, by rw [length_neighbor next, size]⟩

end Neighbors

section Marks

variable (l : Leaves) (x : ℕ × Path)

/-- What the turn for `x` does to the marks: others keep theirs, only larger elements get one. -/
structure Passed (s t : Check) : Prop where
  repeats : s.ifrepeat = true → t.ifrepeat = true
  kept : ∀ e, e ≠ x.1 → s.ich e = 4 → t.ich e = 4
  off : s.ich x.1 ≠ 4 → t.ich x.1 ≠ 4
  lower : ∀ y ∈ l, t.ich y.1 = 4 → s.ich y.1 = 4 ∨ y.2.length < x.2.length

/-- The mark of `x` is handed to a larger element. -/
structure Yielded (t : Check) : Prop where
  repeats : t.ifrepeat = true
  off : t.ich x.1 ≠ 4
  heir : ∃ y ∈ l, y.2.length < x.2.length ∧ t.ich y.1 = 4

variable {l x} {s t u : Check}

theorem Passed.refl (l : Leaves) (x : ℕ × Path) (s : Check) : Passed l x s s :=
  ⟨id, fun _ _ => id, id, fun _ _ => .inl⟩

theorem Passed.trans (first : Passed l x s t) (second : Passed l x t u) : Passed l x s u where
  repeats h := second.repeats (first.repeats h)
  kept e other marked := second.kept e other (first.kept e other marked)
  off h := second.off (first.off h)
  lower y hy marked := by
    rcases second.lower y hy marked with before | less
    · exact first.lower y hy before
    · exact .inr less

theorem Passed.foldl {β : Type*} {step : Check → β → Check} {todo : List β}
    (each : ∀ b ∈ todo, ∀ s, Passed l x s (step s b)) (s : Check) :
    Passed l x s (todo.foldl step s) :=
  List.foldlRecOn todo step (Passed.refl l x s) fun t passed b member =>
    passed.trans (each b member t)

variable (mesh : IsMesh l)

include mesh

theorem Yielded.passed (hx : x ∈ l) (yielded : Yielded l x s) (passed : Passed l x s t) :
    Yielded l x t := by
  obtain ⟨y, hy, larger, marked⟩ := yielded.heir
  refine ⟨passed.repeats yielded.repeats, passed.off yielded.off, y, hy, larger, ?_⟩
  refine passed.kept y.1 (fun same => ?_) marked
  have path : y.2 = x.2 := mesh.eq_of_id (a := x.1) (by rw [← same]; exact hy) hx
  rw [path] at larger
  exact lt_irrefl _ larger

variable {e : ℕ} {r : Path}

theorem passed_mark (he : (e, r) ∈ l) (hx : x ∈ l) (larger : r.length < x.2.length)
    {again : Bool} (repeats : s.ifrepeat = true → again = true) :
    Passed l x s ⟨Function.update s.ich e 4, again⟩ where
  repeats := repeats
  kept e' _ marked := by
    simp only [Function.update_apply]
    split_ifs
    · rfl
    · exact marked
  off h := by
    have other : x.1 ≠ e := by
      intro same
      have path : r = x.2 := mesh.eq_of_id he (by rw [← same]; exact hx)
      rw [path] at larger
      exact lt_irrefl _ larger
    simp only [Function.update_of_ne other]
    exact h
  lower y hy marked := by
    simp only [Function.update_apply] at marked
    split_ifs at marked with same
    · have path : y.2 = r := mesh.eq_of_id (a := e) (by rw [← same]; exact hy) he
      rw [path]
      exact .inr larger
    · exact .inl marked

omit mesh

theorem passed_unmark (s : Check) :
    Passed l x s { s with ich := Function.update s.ich x.1 0 } where
  repeats := id
  kept e other marked := by
    simp only [Function.update_of_ne other]
    exact marked
  off _ := by
    simp only [Function.update_self]
    decide
  lower y _ marked := by
    simp only [Function.update_apply] at marked
    split_ifs at marked
    exact .inl marked

end Marks

section Turn

variable {C : Type*} [BEq C] (v : Corners C) {l : Leaves} {T : Tables} (mesh : IsMesh l)
  (faces : ∀ x ∈ l, ∀ f, FaceOk l x.2 f (T x.1 f)) {x : ℕ × Path} (hx : x ∈ l) {i : Face}

include mesh faces hx

theorem yieldEdge_passed (two : (T x.1 i).cbc = 2) {iface : Face} (member : iface ∈ ifaces i)
    (s : Check) : Passed l x s (yieldEdge T x.1 ((T x.1 i).sje 1 1) s iface) := by
  rw [yieldEdge]
  split_ifs with one
  · obtain ⟨r, there, size, -⟩ := larger_of_edge faces hx two member one
    exact (passed_mark mesh there hx (by omega) fun _ => rfl).trans (passed_unmark _)
  · exact Passed.refl l x s

theorem yieldEdge_yielded (two : (T x.1 i).cbc = 2) {iface : Face} (member : iface ∈ ifaces i)
    (one : (T ((T x.1 i).sje 1 1) iface).cbc = 1) (s : Check) :
    Yielded l x (yieldEdge T x.1 ((T x.1 i).sje 1 1) s iface) := by
  obtain ⟨r, there, size, -⟩ := larger_of_edge faces hx two member one
  have other : (T ((T x.1 i).sje 1 1) iface).sje 1 1 ≠ x.1 := by
    intro same
    have path : r = x.2 := mesh.eq_of_id there (by rw [same]; exact hx)
    rw [path] at size
    omega
  rw [yieldEdge, if_pos one]
  refine ⟨rfl, ?_, _, there, show r.length < x.2.length by omega, ?_⟩
  · simp only [Function.update_self]
    decide
  · simp only [Function.update_of_ne other, Function.update_self]

theorem markEdge_passed (one : (T x.1 i).cbc = 1) (iface : Face) (s : Check) :
    Passed l x s (markEdge v T x.1 ((T x.1 i).sje 1 1) i s iface) := by
  rw [markEdge]
  dsimp only
  split_ifs with two
  · obtain ⟨r, there, size⟩ := larger_behind faces hx one two
    exact passed_mark mesh there hx (by omega) id
  · exact Passed.refl l x s
  · exact Passed.refl l x s

theorem markFace_passed (one : (T x.1 i).cbc = 1) (s : Check) :
    Passed l x s (markFace ((T x.1 i).sje 1 1) s) := by
  rw [markFace]
  split_ifs
  · obtain ⟨k, q, r, -, -, there, size, -⟩ := larger_of_one faces hx one
    exact passed_mark mesh there hx (by omega) fun _ => rfl
  · exact Passed.refl l x s

theorem checkFace_passed (i : Face) (s : Check) : Passed l x s (checkFace v T x.1 s i) := by
  rw [checkFace]
  split_ifs with one two
  · exact ((passed_unmark s).trans (markFace_passed mesh faces hx one _)).trans
      (Passed.foldl (fun iface _ => markEdge_passed v mesh faces hx one iface) _)
  · exact Passed.foldl (fun iface member => yieldEdge_passed mesh faces hx two member) s
  · exact Passed.refl l x s

theorem checkFace_yielded (soft : Soft T x.1 i) (s : Check) :
    Yielded l x (checkFace v T x.1 s i) := by
  obtain ⟨two, iface, member, one⟩ := soft
  have small : (T x.1 i).cbc ≠ 1 := by
    rw [two]
    decide
  simp only [checkFace, if_neg small, if_pos two]
  exact foldl_reaches (fun g hg s yielded =>
      yielded.passed mesh hx (yieldEdge_passed mesh faces hx two hg s)) member
    (yieldEdge_yielded mesh faces hx two member one) s

omit mesh faces hx in
theorem checkFace_rests (hard : ¬ Hard T x.1 i) (soft : ¬ Soft T x.1 i) (s : Check) :
    checkFace v T x.1 s i = s := by
  have small : ¬ (T x.1 i).cbc = 1 := hard
  simp only [checkFace, if_neg small]
  split_ifs with two
  · refine foldl_rests fun iface member => ?_
    rw [yieldEdge, if_neg fun one => soft ⟨two, iface, member, one⟩]
  · rfl

def Blocked (l : Leaves) (p : Path) : Prop := ∃ y ∈ l, Larger p y.2

theorem checkElement_cases (s : Check) :
    checkElement v T s x.1 = s ∧ ¬ (s.ich x.1 = 4 ∧ Blocked l x.2) ∨
      s.ich x.1 = 4 ∧ Passed l x s (checkElement v T s x.1) ∧
        Yielded l x (checkElement v T s x.1) := by
  rw [checkElement]
  split_ifs with marked
  · by_cases blocked : Blocked l x.2
    · obtain ⟨y, hy, larger⟩ := blocked
      obtain ⟨i, soft⟩ := soft_of_larger mesh faces hx hy larger
      refine .inr ⟨marked, Passed.foldl (fun i _ => checkFace_passed v mesh faces hx i) s, ?_⟩
      exact foldl_reaches (fun j _ s yielded =>
          yielded.passed mesh hx (checkFace_passed v mesh faces hx j s)) (List.mem_finRange i)
        (checkFace_yielded v mesh faces hx soft) s
    · refine .inl ⟨?_, fun both => blocked both.2⟩
      refine foldl_rests fun i _ => ?_
      refine checkFace_rests v (fun hard => blocked ?_) (fun soft => blocked ?_) s
      · obtain ⟨k, q, r, -, -, there, -, larger⟩ := larger_of_one faces hx hard
        exact ⟨_, there, larger⟩
      · obtain ⟨two, iface, member, one⟩ := soft
        obtain ⟨r, there, -, larger⟩ := larger_of_edge faces hx two member one
        exact ⟨_, there, larger⟩
  · exact .inl ⟨rfl, fun both => marked both.1⟩

end Turn

end Baseliner.UaCheckRefine
