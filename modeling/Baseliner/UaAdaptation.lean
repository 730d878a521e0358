import Baseliner.UaCoarsenPass

/-! The mesh over whole runs of `adaptation`: from the initial grid, through any passes that
refine and coarsen it and any moves into Morton order, the tables stay consistent. -/

namespace Baseliner.UaAdaptation

open LoopEntries OctreePaths UaAdapt UaLeaves UaRefine UaRefinePass UaCoarsen UaCoarsenPass

inductive Phase
  | refining
  | coarsening
deriving DecidableEq

/-- An element that is there: while the mesh is coarsened some are skipped. -/
def Live (phase : Phase) (m : Mesh) (e : ℕ) : Prop :=
  match phase with
  | .refining => 1 ≤ e ∧ e ≤ m.nelt
  | .coarsening => 1 ≤ e ∧ e ≤ m.neltold ∧ m.skip e = false

structure Consistent (phase : Phase) (m : Mesh) : Prop where
  listed : ∀ miel, 1 ≤ miel → miel ≤ m.nelt → Live phase m (m.mtToId miel)
  once : ∀ e, Live phase m e → ∃! miel, (1 ≤ miel ∧ miel ≤ m.nelt) ∧ m.mtToId miel = e
  morton : ∃ t : Octree,
    (List.range' 1 m.nelt).map (fun miel => m.tree (m.mtToId miel)) = (t.leaves []).map code
  types : ∀ e, Live phase m e → ∀ f, (m.face e f).cbc ≤ 3
  same : ∀ e, Live phase m e → ∀ f, (m.face e f).cbc = 2 →
    Live phase m ((m.face e f).sje 1 1) ∧
      (m.face ((m.face e f).sje 1 1) (jjface f)).cbc = 2 ∧
      (m.face ((m.face e f).sje 1 1) (jjface f)).sje 1 1 = e
  larger : ∀ e, Live phase m e → ∀ f, (m.face e f).cbc = 1 →
    Live phase m ((m.face e f).sje 1 1) ∧
      (m.face ((m.face e f).sje 1 1) (jjface f)).cbc = 3 ∧
      (∃ k, (m.face e f).ijel = iijj k) ∧
      (m.face ((m.face e f).sje 1 1) (jjface f)).sje (m.face e f).ijel.1 (m.face e f).ijel.2 = e
  smaller : ∀ e, Live phase m e → ∀ f, (m.face e f).cbc = 3 → ∀ k,
    Live phase m ((m.face e f).sje (iijj k).1 (iijj k).2) ∧
      (m.face ((m.face e f).sje (iijj k).1 (iijj k).2) (jjface f)).cbc = 1 ∧
      (m.face ((m.face e f).sje (iijj k).1 (iijj k).2) (jjface f)).sje 1 1 = e ∧
      (m.face ((m.face e f).sje (iijj k).1 (iijj k).2) (jjface f)).ijel = iijj k
  boundary : ∀ e, Live phase m e → ∃ p, m.tree e = code p ∧
    ∀ f, (m.face e f).cbc = 0 ↔ OnBoundary f p

section Tables

variable {phase : Phase} {m : Mesh} {l : Leaves}

theorem consistent_of_mapped (h : Mapped m l)
    (live : ∀ e, (∃ p, (e, p) ∈ l) ↔ Live phase m e) : Consistent phase m where
  listed miel low high := (live _).mp ⟨(leafAt l miel).2, by
    rw [← h.leafAt_fst low high]
    exact h.leafAt_mem low high⟩
  once e there := by
    obtain ⟨p, member⟩ := (live e).mpr there
    obtain ⟨miel, low, high, place⟩ := h.exists_leafAt member
    have id := h.leafAt_fst low high
    rw [place] at id
    refine ⟨miel, ⟨⟨low, high⟩, id.symm⟩, ?_⟩
    rintro other ⟨⟨low', high'⟩, id'⟩
    exact h.mtToId_injective low' high' low high (id'.trans id)
  morton := by
    obtain ⟨t, leaves⟩ := h.mesh.octree
    refine ⟨t, ?_⟩
    have codes : l.map (fun x => m.tree x.1) = (l.map Prod.snd).map code := by
      rw [List.map_map]
      exact List.map_congr_left h.tree
    rw [leaves, ← codes]
    have order := congrArg (List.map m.tree) h.order
    rw [List.map_map, List.map_map] at order
    exact order
  types e there f := by
    obtain ⟨p, member⟩ := (live e).mpr there
    have ok : FaceOk l p f (m.face e f) := h.faces _ member f
    have types := ok.types
    omega
  same e there f two := by
    obtain ⟨p, member⟩ := (live e).mpr there
    obtain ⟨q, found, next⟩ := (faceOk_two two).mp (h.faces _ member f)
    exact ⟨(live _).mp ⟨q, next⟩,
      face_same h.mesh (h.faces _ next (opposite f)) (neighbor_symm found) member⟩
  larger e there f one := by
    obtain ⟨p, member⟩ := (live e).mpr there
    obtain ⟨k, q, r, path, found, next, position⟩ := (faceOk_one one).mp (h.faces _ member f)
    have small : (e, onFace (opposite (opposite f)) k :: q) ∈ l := by
      rw [opposite_opposite]
      exact path ▸ member
    obtain ⟨three, id⟩ :=
      face_smaller h.mesh (h.faces _ next (opposite f)) (neighbor_symm found) small
    refine ⟨(live _).mp ⟨r, next⟩, three, ⟨k, position⟩, ?_⟩
    rw [position]
    exact id
  smaller e there f three k := by
    obtain ⟨p, member⟩ := (live e).mpr there
    obtain ⟨q, found, next⟩ := (faceOk_three three).mp (h.faces _ member f)
    exact ⟨(live _).mp ⟨_, next k⟩,
      face_larger h.mesh (h.faces _ (next k) (opposite f)) (neighbor_symm found) member⟩
  boundary e there := by
    obtain ⟨p, member⟩ := (live e).mpr there
    refine ⟨p, h.tree _ member, fun f => ?_⟩
    rw [← neighbor_eq_none_iff]
    exact ⟨fun zero => (faceOk_zero zero).mp (h.faces _ member f),
      face_none (h.faces _ member f)⟩

theorem live_of_known (h : Mapped m l) (known : ∀ x ∈ l, 1 ≤ x.1 ∧ x.1 ≤ m.nelt) (e : ℕ) :
    (∃ p, (e, p) ∈ l) ↔ 1 ≤ e ∧ e ≤ m.nelt := live_of_count h.mesh.ids h.length_eq known e

end Tables

section Passes

variable {m : Mesh} {l : Leaves}

theorem createInitialGrid_mapped (m : Mesh) : Mapped (createInitialGrid m) [(1, [])] where
  mesh := ⟨⟨.leaf, rfl⟩, List.nodup_singleton 1⟩
  order := by simp [createInitialGrid]
  tree x hx := by
    rw [List.mem_singleton.mp hx]
    exact Function.update_self 1 1 m.tree
  faces x hx f := by
    rw [List.mem_singleton.mp hx]
    have zero : ((createInitialGrid m).face 1 f).cbc = 0 := rfl
    exact (faceOk_zero zero).mpr rfl

theorem findCoarsen_mapped (touch : ℕ → Bool) (h : Mapped m l) :
    Mapped (findCoarsen touch m) l := ⟨h.mesh, h.order, h.tree, h.faces⟩

theorem findCoarsen_quiet (touch : ℕ → Bool) {e : ℕ} (low : 1 ≤ e) (high : e ≤ m.neltold)
    (there : m.skip e = false) (marked : (findCoarsen touch m).ich e = 2) (f : Face) :
    (m.face e f).cbc ≠ 3 := by
  have own : (findCoarsen touch m).ich e =
      if touch e then 0
      else if (List.finRange 6).any fun i => decide ((m.face e i).cbc = 3) then 0 else 2 := by
    refine (view_owner (fun ich : ℕ → ℕ => ich e)
      (S := fun iel ich => if m.skip iel then ich
        else if touch iel then Function.update ich iel 0
        else if (List.finRange 6).any fun i => decide ((m.face iel i).cbc = 3) then
          Function.update ich iel 0
        else Function.update ich iel 2) List.nodup_range'
      (show e ∈ List.range' 1 m.neltold from List.mem_range'_1.mpr ⟨low, by omega⟩)
      ?_ ?_ m.ich).trans ?_
    · intro T T' _
      simp only [there, Bool.false_eq_true, if_false]
      split_ifs
      · rw [Function.update_self, Function.update_self]
      · rw [Function.update_self, Function.update_self]
      · rw [Function.update_self, Function.update_self]
    · intro j _ other T
      split_ifs
      · rfl
      · exact Function.update_of_ne (Ne.symm other) ..
      · exact Function.update_of_ne (Ne.symm other) ..
      · exact Function.update_of_ne (Ne.symm other) ..
    · simp only [there, Bool.false_eq_true, if_false]
      split_ifs
      · exact Function.update_self ..
      · exact Function.update_self ..
      · exact Function.update_self ..
  rw [own] at marked
  split_ifs at marked with touched smaller
  intro three
  exact smaller (List.any_eq_true.mpr ⟨f, List.mem_finRange f, decide_eq_true three⟩)

theorem beginCoarsen_skip {e : ℕ} (low : 1 ≤ e) (high : e ≤ m.nelt) :
    (beginCoarsen m).skip e = false :=
  foldl_update_self (fun iel => iel) (fun _ => false) m.skip List.nodup_range'
    (List.mem_range'_1.mpr ⟨low, by omega⟩) fun _ _ same => same

end Passes

section Move

variable {m : Mesh} {l : Leaves}

def movedLeaves (idToMt : ℕ → ℕ) (l : Leaves) : Leaves := l.map fun x => (idToMt x.1, x.2)

theorem movedFace_ok {p : Path} {f : Face} {e : FaceEntry} (idToMt : ℕ → ℕ)
    (ok : FaceOk l p f e) : FaceOk (movedLeaves idToMt l) p f (movedFace idToMt e) := by
  have renamed {n : ℕ} {q : Path} (there : (n, q) ∈ l) :
      (idToMt n, q) ∈ movedLeaves idToMt l :=
    List.mem_map_of_mem (f := fun x : ℕ × Path => (idToMt x.1, x.2)) there
  rcases ok.types with zero | one | two | three
  · have face : movedFace idToMt e = { FaceEntry.zero with cbc := 0 } := by
      rw [movedFace, zero]
      rfl
    rw [face, faceOk_zero rfl]
    exact (faceOk_zero zero).mp ok
  · have face : movedFace idToMt e =
        { FaceEntry.zero.setSje (1, 1) (idToMt (e.sje 1 1)) with cbc := 1, ijel := e.ijel } := by
      rw [movedFace, one]
      rfl
    obtain ⟨k, q, r, path, found, there, position⟩ := (faceOk_one one).mp ok
    rw [face, faceOk_one rfl]
    exact ⟨k, q, r, path, found, renamed there, position⟩
  · have face : movedFace idToMt e =
        { FaceEntry.zero.setSje (1, 1) (idToMt (e.sje 1 1)) with cbc := 2, ijel := (1, 1) } := by
      rw [movedFace, two]
      rfl
    obtain ⟨q, found, there⟩ := (faceOk_two two).mp ok
    rw [face, faceOk_two rfl]
    exact ⟨q, found, renamed there⟩
  · have face : movedFace idToMt e =
        { (List.finRange 4).foldl (fun new k =>
            new.setSje (iijj k) (idToMt (e.sje (iijj k).1 (iijj k).2))) FaceEntry.zero with
          cbc := 3, ijel := (1, 1) } := by
      rw [movedFace, three]
      rfl
    obtain ⟨q, found, smaller⟩ := (faceOk_three three).mp ok
    rw [face, faceOk_three rfl]
    refine ⟨q, found, fun k => ?_⟩
    rw [(foldl_setSje (fun k => idToMt (e.sje (iijj k).1 (iijj k).2)) FaceEntry.zero).2 k]
    exact renamed (smaller k)

variable (h : Mapped m l)

include h

theorem indexElements_apply {miel : ℕ} (low : 1 ≤ miel) (high : miel ≤ m.nelt) :
    (indexElements m).idToMt (m.mtToId miel) = miel := by
  refine foldl_update_self (fun miel => m.mtToId miel) (fun miel => miel) m.idToMt
    List.nodup_range' (List.mem_range'_1.mpr ⟨low, by omega⟩) fun j range same => ?_
  obtain ⟨low', high'⟩ := List.mem_range'_1.mp range
  exact h.mtToId_injective low' (by omega) low high same

theorem moved_ids : (movedLeaves (indexElements m).idToMt l).map Prod.fst =
    List.range' 1 m.nelt := by
  have ids : (movedLeaves (indexElements m).idToMt l).map Prod.fst =
      (l.map Prod.fst).map (indexElements m).idToMt := by
    rw [movedLeaves, List.map_map, List.map_map]
    rfl
  rw [ids, ← h.order, List.map_map]
  refine (List.map_congr_left fun miel range => ?_).trans (List.map_id _)
  obtain ⟨low, high⟩ := List.mem_range'_1.mp range
  exact indexElements_apply h low (by omega)

theorem move_mapped :
    Mapped (move (indexElements m)) (movedLeaves (indexElements m).idToMt l) := by
  -- where an element of the moved mesh comes from
  have source : ∀ x ∈ l, ∃ miel, 1 ≤ miel ∧ miel ≤ m.nelt ∧ m.mtToId miel = x.1 ∧
      (indexElements m).idToMt x.1 = miel := by
    intro x hx
    obtain ⟨miel, low, high, rfl⟩ := h.exists_leafAt hx
    have id := h.leafAt_fst low high
    exact ⟨miel, low, high, id.symm, by rw [id]; exact indexElements_apply h low high⟩
  refine ⟨⟨?_, ?_⟩, ?_, ?_, ?_⟩
  · obtain ⟨t, leaves⟩ := h.mesh.octree
    refine ⟨t, ?_⟩
    rw [leaves, movedLeaves, List.map_map]
    rfl
  · rw [moved_ids h]
    exact List.nodup_range'
  · have same : (move (indexElements m)).nelt = m.nelt := rfl
    rw [moved_ids h, same]
    refine (List.map_congr_left fun miel range => ?_).trans (List.map_id _)
    obtain ⟨low, high⟩ := List.mem_range'_1.mp range
    have inside : miel ≤ m.nelt := by omega
    exact if_pos ⟨low, inside⟩
  · intro y hy
    obtain ⟨x, hx, rfl⟩ := List.mem_map.mp hy
    obtain ⟨miel, low, high, id, place⟩ := source x hx
    have tree : (move (indexElements m)).tree miel = m.tree (m.mtToId miel) :=
      if_pos ⟨low, high⟩
    simp only [place]
    rw [tree, id, h.tree x hx]
  · intro y hy f
    obtain ⟨x, hx, rfl⟩ := List.mem_map.mp hy
    obtain ⟨miel, low, high, id, place⟩ := source x hx
    have face : (move (indexElements m)).face miel f =
        movedFace (indexElements m).idToMt (m.face (m.mtToId miel) f) := if_pos ⟨low, high⟩
    simp only [place]
    rw [face, id]
    exact movedFace_ok _ (h.faces x hx f)

end Move

section Runs

/-- The marks that a pass may be called with: no marked element has a larger neighbour, and the
arrays have room for the new elements. -/
def Permitted (lelt : ℕ) (m : Mesh) : Prop :=
  (∀ miel, 1 ≤ miel → miel ≤ m.nelt → m.ich (m.mtToId miel) = 4 →
    ∀ f, (m.face (m.mtToId miel) f).cbc ≠ 1) ∧ (doRefine m).nelt ≤ lelt

/-- The tree codes of the marked elements have room for another digit. -/
def CodesFit (m : Mesh) : Prop :=
  ∀ miel, 1 ≤ miel → miel ≤ m.nelt → m.ich (m.mtToId miel) = 4 → m.tree (m.mtToId miel) * 8 < 2 ^ 32

/-- The meshes of all runs: a step of `adaptation` refines in passes with any marks that are
permitted, coarsens in passes for elements that the heat source touches, and moves. -/
inductive Reached (permitted : Mesh → Prop) : Phase → Mesh → Prop
  | initial (m : Mesh) : Reached permitted .refining (createInitialGrid m)
  | refine (m : Mesh) (ich : ℕ → ℕ) (before : Reached permitted .refining m)
      (marks : permitted { m with ich := ich }) :
      Reached permitted .refining (doRefine { m with ich := ich })
  | begin_ (m : Mesh) (before : Reached permitted .refining m) :
      Reached permitted .coarsening (beginCoarsen m)
  | coarsen (m : Mesh) (touch : ℕ → Bool) (before : Reached permitted .coarsening m) :
      Reached permitted .coarsening (doCoarsen (findCoarsen touch m))
  | finish (m : Mesh) (before : Reached permitted .coarsening m) :
      Reached permitted .refining (move (indexElements m))

def Grown (phase : Phase) (m : Mesh) : Prop :=
  ∃ l, Mapped m l ∧ ∀ e, (∃ p, (e, p) ∈ l) ↔ Live phase m e

variable {permitted : Mesh → Prop} {phase : Phase} {m : Mesh}

theorem grown_refine (grown : Grown .refining m) {lelt : ℕ} (marks : Permitted lelt m)
    (fits : CodesFit m) : Grown .refining (doRefine m) := by
  obtain ⟨l, h, live⟩ := grown
  have known : ∀ x ∈ l, 1 ≤ x.1 ∧ x.1 ≤ m.nelt := fun x hx => (live x.1).mp ⟨x.2, hx⟩
  have placed : ∀ x ∈ l, ∃ miel, 1 ≤ miel ∧ miel ≤ m.nelt ∧ m.mtToId miel = x.1 := by
    intro x hx
    obtain ⟨miel, low, high, rfl⟩ := h.exists_leafAt hx
    exact ⟨miel, low, high, (h.leafAt_fst low high).symm⟩
  have next := doRefine_mapped h known
    (fun x hx marked => by
      obtain ⟨miel, low, high, id⟩ := placed x hx
      rw [← id] at marked ⊢
      exact marks.1 miel low high marked)
    (fun x hx marked => by
      obtain ⟨miel, low, high, id⟩ := placed x hx
      rw [← id] at marked ⊢
      exact fits miel low high marked)
  exact ⟨_, next, live_of_known next (refined_known h known)⟩

theorem grown_coarsen (grown : Grown .coarsening m) (touch : ℕ → Bool) :
    Grown .coarsening (doCoarsen (findCoarsen touch m)) := by
  obtain ⟨l, h, live⟩ := grown
  have there : ∀ x ∈ l, 1 ≤ x.1 ∧ x.1 ≤ m.neltold ∧ m.skip x.1 = false :=
    fun x hx => (live x.1).mp ⟨x.2, hx⟩
  have found := findCoarsen_mapped touch h
  have quiet : ∀ x ∈ l, (findCoarsen touch m).ich x.1 = 2 →
      ∀ f, ((findCoarsen touch m).face x.1 f).cbc ≠ 3 := by
    intro x hx marked
    obtain ⟨low, high, skip⟩ := there x hx
    exact findCoarsen_quiet (m := m) touch low high skip marked
  have old : (doCoarsen (findCoarsen touch m)).neltold = m.neltold := by
    rw [doCoarsen_eq found, foldl_coarsenAt]
    rfl
  refine ⟨_, doCoarsen_mapped found quiet fun x hx => (there x hx).2.2, fun e => ?_⟩
  rw [coarsened_live found quiet live e, Live, old]

theorem grown_of_reached {lelt : ℕ}
    (run : Reached (fun m => Permitted lelt m ∧ CodesFit m) phase m) : Grown phase m := by
  induction run with
  | initial m =>
      refine ⟨_, createInitialGrid_mapped m, live_of_known (createInitialGrid_mapped m) ?_⟩
      intro x hx
      rw [List.mem_singleton.mp hx]
      exact ⟨le_rfl, le_rfl⟩
  | refine m ich before marks grown =>
      have start : Grown .refining { m with ich := ich } := by
        obtain ⟨l, h, live⟩ := grown
        exact ⟨l, ⟨h.mesh, h.order, h.tree, h.faces⟩, live⟩
      exact grown_refine start marks.1 marks.2
  | begin_ m before grown =>
      obtain ⟨l, h, live⟩ := grown
      refine ⟨l, ⟨h.mesh, h.order, h.tree, h.faces⟩, fun e => (live e).trans ?_⟩
      constructor
      · rintro ⟨low, high⟩
        exact ⟨low, high, beginCoarsen_skip low high⟩
      · rintro ⟨low, high, -⟩
        exact ⟨low, high⟩
  | coarsen m touch before grown => exact grown_coarsen grown touch
  | finish m before grown =>
      obtain ⟨l, h, -⟩ := grown
      have moved := move_mapped h
      refine ⟨_, moved, live_of_known moved fun x hx => ?_⟩
      have member := List.mem_map_of_mem (f := Prod.fst) hx
      rw [moved_ids h] at member
      obtain ⟨low, high⟩ := List.mem_range'_1.mp member
      have inside : x.1 ≤ m.nelt := by omega
      exact ⟨low, inside⟩

end Runs

section Depth

def blank : Mesh where
  nelt := 0
  tree := fun _ => 0
  mtToId := fun _ => 0
  idToMt := fun _ => 0
  face := fun _ _ => .zero
  ich := fun _ => 0
  skip := fun _ => false
  neltold := 0

/-- The first element is cut once more. -/
def deepen (m : Mesh) : Mesh := { m with ich := fun e => if e = 1 then 4 else 0 }

def deepMesh : ℕ → Mesh
  | 0 => createInitialGrid blank
  | depth + 1 => doRefine (deepen (deepMesh depth))

variable {m : Mesh} {l : Leaves}

theorem deepen_mapped (h : Mapped m l) : Mapped (deepen m) l :=
  ⟨h.mesh, h.order, h.tree, h.faces⟩

theorem deepen_marked {e : ℕ} (marked : (deepen m).ich e = 4) : e = 1 := by
  by_contra other
  have unmarked : (deepen m).ich e = 0 := if_neg other
  rw [unmarked] at marked
  cases marked

theorem code_corner (depth : ℕ) : code (List.replicate depth 0) = 8 ^ depth := by
  induction depth with
  | zero => rfl
  | succ depth ih =>
      rw [List.replicate_succ, code, ih, pow_succ', Fin.val_zero, Nat.add_zero]

theorem corner_face {depth : ℕ} {f : Face} {e : FaceEntry}
    (ok : FaceOk l (List.replicate depth 0) f e) : e.cbc ≠ 1 := by
  intro one
  obtain ⟨k, q, r, path, found, -⟩ := (faceOk_one one).mp ok
  have zero : ∀ c ∈ onFace f k :: q, c = 0 := by
    rw [← path]
    exact fun c member => List.eq_of_mem_replicate member
  have side : ∀ (f : Face) (k : Fin 4), onFace f k = 0 → outer f 0 = true := by decide
  have lower := side f k (zero _ (List.mem_cons_self ..))
  have none : neighbor f q = none := by
    rw [neighbor_eq_none]
    intro c member
    rw [zero c (List.mem_cons_of_mem _ member)]
    exact lower
  rw [none] at found
  cases found

theorem deepen_nelt (h : Mapped m l) : m.nelt ≤ (doRefine (deepen m)).nelt ∧
    (doRefine (deepen m)).nelt ≤ m.nelt + 7 := by
  have count : upTo (refined (deepen m)) m.nelt ≤ 1 := by
    have ids : ((List.range' 1 m.nelt).map m.mtToId).Nodup := by
      rw [h.order]
      exact h.mesh.ids
    have once := List.nodup_iff_count_le_one.mp ids 1
    rw [List.count, List.countP_map] at once
    refine (List.countP_mono_left fun miel _ marked => ?_).trans once
    exact beq_iff_eq.mpr (deepen_marked (m := m) (of_decide_eq_true marked))
  have total : (doRefine (deepen m)).nelt =
      m.nelt + upTo (refined (deepen m)) m.nelt * 7 := by
    rw [doRefine_eq (deepen_mapped h)]
    rfl
  omega

theorem deepen_permitted (h : Mapped m l) {depth : ℕ} (first : (1, List.replicate depth 0) ∈ l)
    {lelt : ℕ} (room : m.nelt + 7 ≤ lelt) : Permitted lelt (deepen m) := by
  refine ⟨fun miel low high marked f => ?_, (deepen_nelt h).2.trans room⟩
  have id : (deepen m).mtToId miel = 1 := deepen_marked (m := m) marked
  rw [id]
  exact corner_face (h.faces _ first f)

theorem deepen_allowed (h : Mapped m l) {depth : ℕ} (first : (1, List.replicate depth 0) ∈ l) :
    ∀ x ∈ l, (deepen m).ich x.1 = 4 →
      x = (1, List.replicate depth 0) ∧ ∀ f, ((deepen m).face x.1 f).cbc ≠ 1 := by
  intro x hx four
  have same : x = (1, List.replicate depth 0) :=
    List.inj_on_of_nodup_map h.mesh.ids hx first (deepen_marked four)
  refine ⟨same, fun f => ?_⟩
  rw [same]
  exact corner_face (h.faces _ first f)

theorem deepen_tree (h : Mapped m l) (known : ∀ x ∈ l, 1 ≤ x.1 ∧ x.1 ≤ m.nelt) {depth : ℕ}
    (first : (1, List.replicate depth 0) ∈ l) :
    (doRefine (deepen m)).tree 1 = shiftTree (8 ^ depth) := by
  have start := deepen_mapped h
  have child := refined_code start known
    (fun x hx four => (deepen_allowed h first x hx four).2) first rfl 0
  have tree := start.tree _ first
  rw [code_corner] at tree
  rw [kid_zero, tree] at child
  exact child

theorem deepMesh_mapped (depth : ℕ) (shallow : depth ≤ 10) : ∃ l, Mapped (deepMesh depth) l ∧
    (∀ x ∈ l, 1 ≤ x.1 ∧ x.1 ≤ (deepMesh depth).nelt) ∧ (1, List.replicate depth 0) ∈ l ∧
    (deepMesh depth).nelt ≤ 1 + 7 * depth := by
  induction depth with
  | zero =>
      refine ⟨[(1, [])], createInitialGrid_mapped blank, fun x hx => ?_,
        List.mem_singleton_self _, le_rfl⟩
      rw [List.mem_singleton.mp hx]
      exact ⟨le_rfl, le_rfl⟩
  | succ depth ih =>
      obtain ⟨l, h, known, first, count⟩ := ih (by omega)
      have start := deepen_mapped h
      have marked := deepen_allowed h first
      have fits : ∀ x ∈ l, (deepen (deepMesh depth)).ich x.1 = 4 →
          (deepen (deepMesh depth)).tree x.1 * 8 < 2 ^ 32 := by
        intro x hx four
        have room : ∀ d < 10, 8 ^ d * 8 < 2 ^ 32 := by decide
        rw [start.tree x hx, (marked x hx four).1, code_corner]
        exact room depth (by omega)
      have step := (deepen_nelt h).2
      refine ⟨_, doRefine_mapped start known (fun x hx four => (marked x hx four).2) fits,
        refined_known start known, ?_, ?_⟩
      · have child := kid_mem (R := (refinePlan (deepen (deepMesh depth))).refFrontId) first
          (show (deepen (deepMesh depth)).ich 1 = 4 from rfl) 0
        rwa [kid_zero] at child
      · change (doRefine (deepen (deepMesh depth))).nelt ≤ _
        omega

theorem deepMesh_reached (depth : ℕ) (shallow : depth ≤ 11) :
    Reached (Permitted 250) .refining (deepMesh depth) := by
  induction depth with
  | zero => exact .initial blank
  | succ depth ih =>
      obtain ⟨l, h, -, first, count⟩ := deepMesh_mapped depth (by omega)
      exact .refine (deepMesh depth) _ (ih (by omega)) (deepen_permitted h first (by omega))

/-- At the eleventh time the code of the first element is shifted out of its 32 bits. -/
theorem deepMesh_tree : (deepMesh 11).tree 1 = 0 ∧ 1 ≤ (deepMesh 11).nelt := by
  obtain ⟨l, h, known, first, -⟩ := deepMesh_mapped 10 le_rfl
  have shifted : shiftTree (8 ^ 10) = 0 := by decide
  rw [deepMesh, deepen_tree h known first, shifted]
  exact ⟨rfl, h.nelt_pos.trans (deepen_nelt h).1⟩

end Depth

/-- In every run the mesh stays consistent, as long as no code runs out of digits. -/
theorem adaptation_consistent (lelt : ℕ) (phase : Phase) (m : Mesh)
    (run : Reached (fun m => Permitted lelt m ∧ CodesFit m) phase m) : Consistent phase m := by
  obtain ⟨l, h, live⟩ := grown_of_reached run
  exact consistent_of_mapped h live

theorem adaptation_consistent_step : Consistent .refining (move (indexElements (doCoarsen
    (findCoarsen (fun _ => false) (beginCoarsen (doRefine
      (deepen (createInitialGrid blank)))))))) := by
  have fits : CodesFit (deepen (createInitialGrid blank)) := by
    intro miel low high _
    have one : miel = 1 := Nat.le_antisymm high low
    subst one
    decide
  have marks : Permitted 250 (deepen (createInitialGrid blank)) :=
    deepen_permitted (createInitialGrid_mapped blank) (show (1, List.replicate 0 0) ∈ [(1, [])] from
      List.mem_singleton_self _) (by decide)
  exact adaptation_consistent 250 .refining _
    (.finish _ (.coarsen _ _ (.begin_ _ (.refine _ _ (.initial blank) ⟨marks, fits⟩))))

/-- Marks that are only kept from larger neighbours can cut too deep. -/
theorem adaptation_too_deep : ¬ ∀ (lelt : ℕ) (phase : Phase) (m : Mesh),
    Reached (Permitted lelt) phase m → Consistent phase m := by
  intro always
  obtain ⟨zero, low⟩ := deepMesh_tree
  have mesh := always 250 .refining (deepMesh 11) (deepMesh_reached 11 le_rfl)
  obtain ⟨p, tree, -⟩ := mesh.boundary 1 ⟨le_rfl, low⟩
  have pos := code_pos p
  rw [zero] at tree
  omega

end Baseliner.UaAdaptation
