import Mathlib.Data.List.GetD
import Baseliner.UaAdapt

/-! What the face tables say about the leaves of the octree: each leaf is an element with its
path, and a face has type 0 at the boundary, 2 towards a leaf of the same size, 1 towards a
larger one and 3 towards four smaller ones. -/

namespace Baseliner.UaLeaves

open OctreePaths UaAdapt

/-- The code of a cell in `tree`. -/
def code : Path → ℕ
  | [] => 1
  | c :: p => 8 * code p + c

theorem code_pos (p : Path) : 1 ≤ code p := by
  induction p with
  | nil => exact le_rfl
  | cons c p ih =>
      rw [code]
      omega

abbrev Leaves := List (ℕ × Path)

/-- They are the leaves of an octree, with an element for each. -/
structure IsMesh (l : Leaves) : Prop where
  octree : ∃ t : Octree, t.leaves [] = l.map Prod.snd
  ids : (l.map Prod.fst).Nodup

def FaceOk (l : Leaves) (p : Path) (f : Face) (e : FaceEntry) : Prop :=
  match e.cbc with
  | 0 => neighbor f p = none
  | 1 => ∃ k q r, p = onFace f k :: q ∧ neighbor f q = some r ∧ (e.sje 1 1, r) ∈ l ∧
      e.ijel = iijj k
  | 2 => ∃ q, neighbor f p = some q ∧ (e.sje 1 1, q) ∈ l
  | 3 => ∃ q, neighbor f p = some q ∧
      ∀ k, (e.sje (iijj k).1 (iijj k).2, onFace (opposite f) k :: q) ∈ l
  | _ => False

section Faces

variable {l : Leaves} {p q r : Path} {f : Face} {e : FaceEntry} {n : ℕ}

theorem faceOk_zero (cb : e.cbc = 0) : FaceOk l p f e ↔ neighbor f p = none := by
  simp only [FaceOk, cb]

theorem faceOk_one (cb : e.cbc = 1) : FaceOk l p f e ↔ ∃ k q r, p = onFace f k :: q ∧
    neighbor f q = some r ∧ (e.sje 1 1, r) ∈ l ∧ e.ijel = iijj k := by
  simp only [FaceOk, cb]

theorem faceOk_two (cb : e.cbc = 2) :
    FaceOk l p f e ↔ ∃ q, neighbor f p = some q ∧ (e.sje 1 1, q) ∈ l := by
  simp only [FaceOk, cb]

theorem faceOk_three (cb : e.cbc = 3) : FaceOk l p f e ↔ ∃ q, neighbor f p = some q ∧
    ∀ k, (e.sje (iijj k).1 (iijj k).2, onFace (opposite f) k :: q) ∈ l := by
  simp only [FaceOk, cb]

theorem FaceOk.types (h : FaceOk l p f e) : e.cbc = 0 ∨ e.cbc = 1 ∨ e.cbc = 2 ∨ e.cbc = 3 := by
  rw [FaceOk] at h
  split at h
  · exact .inl ‹_›
  · exact .inr (.inl ‹_›)
  · exact .inr (.inr (.inl ‹_›))
  · exact .inr (.inr (.inr ‹_›))
  · exact h.elim

theorem IsMesh.eq_of_suffix (h : IsMesh l) {x y : ℕ × Path} (hx : x ∈ l) (hy : y ∈ l)
    (below : x.2 <:+ y.2) : x = y := by
  obtain ⟨t, leaves⟩ := h.octree
  have same : x.2 = y.2 := Octree.eq_of_suffix (t := t) (p := [])
    (by rw [leaves]; exact List.mem_map_of_mem hx) (by rw [leaves]; exact List.mem_map_of_mem hy)
    below
  have once : (l.map Prod.snd).Nodup := by
    rw [← leaves]
    exact t.nodup_leaves []
  exact List.inj_on_of_nodup_map once hx hy same

theorem IsMesh.eq_of_path (h : IsMesh l) {a b : ℕ} (ha : (a, p) ∈ l) (hb : (b, p) ∈ l) : a = b :=
  (Prod.mk.inj (h.eq_of_suffix ha hb (List.suffix_refl p))).1

theorem IsMesh.eq_of_id (h : IsMesh l) {a : ℕ} (hp : (a, p) ∈ l) (hq : (a, q) ∈ l) : p = q :=
  (Prod.mk.inj (List.inj_on_of_nodup_map h.ids hp hq rfl)).2

theorem IsMesh.not_below (h : IsMesh l) {a b : ℕ} {c : Child} (ha : (a, q) ∈ l)
    (hb : (b, c :: q) ∈ l) : False := by
  have same := congrArg List.length (Prod.mk.inj (h.eq_of_suffix ha hb (List.suffix_cons c q))).2
  rw [List.length_cons] at same
  omega

theorem IsMesh.not_far_below (h : IsMesh l) {a b : ℕ} {c d : Child} (ha : (a, q) ∈ l)
    (hb : (b, c :: d :: q) ∈ l) : False := by
  have below : q <:+ c :: d :: q := (List.suffix_cons d q).trans (List.suffix_cons c _)
  have same := congrArg List.length (Prod.mk.inj (h.eq_of_suffix ha hb below)).2
  simp only [List.length_cons] at same
  omega

theorem face_none (ok : FaceOk l p f e) (h : neighbor f p = none) : e.cbc = 0 := by
  rcases ok.types with zero | one | two | three
  · exact zero
  · obtain ⟨k, q, r, rfl, found, -⟩ := (faceOk_one one).mp ok
    rw [neighbor_onFace, found] at h
    cases h
  · obtain ⟨q, found, -⟩ := (faceOk_two two).mp ok
    rw [found] at h
    cases h
  · obtain ⟨q, found, -⟩ := (faceOk_three three).mp ok
    rw [found] at h
    cases h

theorem face_same (mesh : IsMesh l) (ok : FaceOk l p f e) (found : neighbor f p = some q)
    (there : (n, q) ∈ l) : e.cbc = 2 ∧ e.sje 1 1 = n := by
  rcases ok.types with zero | one | two | three
  · rw [(faceOk_zero zero).mp ok] at found
    cases found
  · obtain ⟨k, q', r, rfl, across, larger, -⟩ := (faceOk_one one).mp ok
    rw [neighbor_onFace, across] at found
    cases found
    exact (mesh.not_below larger there).elim
  · obtain ⟨q', across, here⟩ := (faceOk_two two).mp ok
    rw [across] at found
    cases found
    exact ⟨two, mesh.eq_of_path here there⟩
  · obtain ⟨q', across, smaller⟩ := (faceOk_three three).mp ok
    rw [across] at found
    cases found
    exact (mesh.not_below there (smaller 0)).elim

theorem face_larger (mesh : IsMesh l) {k : Fin 4} (ok : FaceOk l (onFace f k :: p) f e)
    (found : neighbor f p = some r) (there : (n, r) ∈ l) :
    e.cbc = 1 ∧ e.sje 1 1 = n ∧ e.ijel = iijj k := by
  have next : neighbor f (onFace f k :: p) = some (onFace (opposite f) k :: r) := by
    rw [neighbor_onFace, found]
    rfl
  rcases ok.types with zero | one | two | three
  · rw [(faceOk_zero zero).mp ok] at next
    cases next
  · obtain ⟨k', q', r', same, across, larger, position⟩ := (faceOk_one one).mp ok
    obtain ⟨head, rfl⟩ := List.cons.inj same
    rw [across] at found
    cases found
    rw [onFace_injective head]
    exact ⟨one, mesh.eq_of_path larger there, position⟩
  · obtain ⟨q', across, here⟩ := (faceOk_two two).mp ok
    rw [across] at next
    cases next
    exact (mesh.not_below there here).elim
  · obtain ⟨q', across, smaller⟩ := (faceOk_three three).mp ok
    rw [across] at next
    cases next
    exact (mesh.not_far_below there (smaller 0)).elim

theorem face_smaller (mesh : IsMesh l) {k : Fin 4} (ok : FaceOk l p f e)
    (found : neighbor f p = some q) (there : (n, onFace (opposite f) k :: q) ∈ l) :
    e.cbc = 3 ∧ e.sje (iijj k).1 (iijj k).2 = n := by
  rcases ok.types with zero | one | two | three
  · rw [(faceOk_zero zero).mp ok] at found
    cases found
  · obtain ⟨k', q', r, rfl, across, larger, -⟩ := (faceOk_one one).mp ok
    rw [neighbor_onFace, across] at found
    cases found
    exact (mesh.not_far_below larger there).elim
  · obtain ⟨q', across, here⟩ := (faceOk_two two).mp ok
    rw [across] at found
    cases found
    exact (mesh.not_below here there).elim
  · obtain ⟨q', across, smaller⟩ := (faceOk_three three).mp ok
    rw [across] at found
    cases found
    exact ⟨three, mesh.eq_of_path (smaller k) there⟩

end Faces

/-- The leaf at a place of the Morton order, from 1 on. -/
def leafAt (l : Leaves) (miel : ℕ) : ℕ × Path := l.getD (miel - 1) (0, [])

theorem map_leafAt (l : Leaves) : (List.range' 1 l.length).map (leafAt l) = l := by
  refine List.ext_getElem (by simp) fun j h h' => ?_
  simp only [List.getElem_map, List.getElem_range', Nat.one_mul, leafAt]
  rw [Nat.add_sub_cancel_left, List.getD_eq_getElem l (0, []) h']

theorem live_of_count {l : Leaves} {nelt : ℕ} (once : (l.map Prod.fst).Nodup)
    (count : l.length = nelt) (known : ∀ x ∈ l, 1 ≤ x.1 ∧ x.1 ≤ nelt) (e : ℕ) :
    (∃ p, (e, p) ∈ l) ↔ 1 ≤ e ∧ e ≤ nelt := by
  have inside : l.map Prod.fst ⊆ List.range' 1 nelt := by
    intro e member
    obtain ⟨x, hx, rfl⟩ := List.mem_map.mp member
    have range := known x hx
    exact List.mem_range'_1.mpr ⟨range.1, by omega⟩
  have all : (l.map Prod.fst).Perm (List.range' 1 nelt) :=
    (List.subperm_of_subset once inside).perm_of_length_le (by
      rw [List.length_map, List.length_range', count])
  have members := all.mem_iff (a := e)
  rw [List.mem_map, List.mem_range'_1] at members
  constructor
  · rintro ⟨p, there⟩
    exact known _ there
  · rintro ⟨low, high⟩
    obtain ⟨x, hx, rfl⟩ := members.mpr ⟨low, by omega⟩
    exact ⟨x.2, hx⟩

/-- A mesh whose elements, in the order of `mt_to_id`, are the leaves of an octree. -/
structure Mapped (m : Mesh) (l : Leaves) : Prop where
  mesh : IsMesh l
  order : (List.range' 1 m.nelt).map m.mtToId = l.map Prod.fst
  tree : ∀ x ∈ l, m.tree x.1 = code x.2
  faces : ∀ x ∈ l, ∀ f, FaceOk l x.2 f (m.face x.1 f)

namespace Mapped

variable {m : Mesh} {l : Leaves} (h : Mapped m l)

include h

theorem length_eq : l.length = m.nelt := by
  have lengths := congrArg List.length h.order
  rw [List.length_map, List.length_map, List.length_range'] at lengths
  exact lengths.symm

theorem nelt_pos : 1 ≤ m.nelt := by
  obtain ⟨t, leaves⟩ := h.mesh.octree
  rw [← h.length_eq, ← List.length_map Prod.snd, ← leaves]
  exact t.length_leaves_pos []

theorem map_leafAt_eq : (List.range' 1 m.nelt).map (leafAt l) = l := by
  rw [← h.length_eq]
  exact map_leafAt l

variable {miel : ℕ} (low : 1 ≤ miel) (high : miel ≤ m.nelt)

include low high

theorem leafAt_mem : leafAt l miel ∈ l := by
  have inside : miel - 1 < l.length := by
    rw [h.length_eq]
    omega
  rw [leafAt, List.getD_eq_getElem l (0, []) inside]
  exact List.getElem_mem inside

theorem leafAt_fst : (leafAt l miel).1 = m.mtToId miel := by
  have both : (List.range' 1 m.nelt).map (Prod.fst ∘ leafAt l) =
      (List.range' 1 m.nelt).map m.mtToId := by
    rw [h.order, ← List.map_map, h.map_leafAt_eq]
  exact List.map_inj_left.mp both miel (List.mem_range'_1.mpr ⟨low, by omega⟩)

omit low high in
theorem exists_leafAt {x : ℕ × Path} (hx : x ∈ l) :
    ∃ miel, 1 ≤ miel ∧ miel ≤ m.nelt ∧ leafAt l miel = x := by
  rw [← h.map_leafAt_eq] at hx
  obtain ⟨miel, range, rfl⟩ := List.mem_map.mp hx
  obtain ⟨low, high⟩ := List.mem_range'_1.mp range
  exact ⟨miel, low, by omega, rfl⟩

theorem mtToId_injective {other : ℕ} (low' : 1 ≤ other) (high' : other ≤ m.nelt)
    (same : m.mtToId miel = m.mtToId other) : miel = other := by
  have once : ((List.range' 1 m.nelt).map m.mtToId).Nodup := by
    rw [h.order]
    exact h.mesh.ids
  exact List.inj_on_of_nodup_map once (List.mem_range'_1.mpr ⟨low, by omega⟩)
    (List.mem_range'_1.mpr ⟨low', by omega⟩) same

end Mapped

end Baseliner.UaLeaves
