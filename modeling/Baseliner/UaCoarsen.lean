import Baseliner.UaRefine

/-! `do_coarsen` on the face tables. Eight siblings become one element, under the number of the
first; a turn of `merging` stores to one face of it and to the faces that look at that face. -/

namespace Baseliner.UaCoarsen

open LoopEntries OctreePaths UaAdapt UaLeaves UaRefine

section Turn

variable {coa : ℕ → Bool} {M : Child → ℕ} {T : Tables} {i : Face}

theorem numbered_children (M : Child → ℕ) (i : Face) (k : Fin 4) :
    numbered M (children i k) = M (onFace i k) := by
  have table : ∀ (i : Face) (k : Fin 4), children i k = (onFace i k).val + 1 := by decide
  have inside := (onFace i k).isLt
  rw [table, numbered, Nat.add_sub_cancel, dif_pos inside]

theorem numbered_one (M : Child → ℕ) : numbered M 1 = M 0 := rfl

theorem onFace_eq_zero {k : Fin 4} (h : onFace i k = 0) : k = 0 := by
  revert i k
  decide

theorem mergeFace_zero (cb : (T (M (onFace i 0)) i).cbc = 0) :
    mergeFace coa (numbered M) T i =
      setFace (M 0) i (fun e => { e with cbc := 0, sje := fun _ _ => 0 }) T := by
  simp only [mergeFace, numbered_children, cb]
  rfl

theorem mergeFace_one (cb : (T (M (onFace i 0)) i).cbc = 1) :
    mergeFace coa (numbered M) T i =
      setFace (M 0) i (fun e =>
        { e.setSje (1, 1) ((T (M (onFace i 0)) i).sje 1 1) with cbc := 2, ijel := (1, 1) })
        (setFace ((T (M (onFace i 0)) i).sje 1 1) (opposite i) (fun _ =>
          ⟨2, fun a b => if (a, b) = (1, 1) then M 0 else 0, (1, 1)⟩) T) := by
  simp only [mergeFace, numbered_children, cb]
  rfl

theorem mergeFace_both (cb : (T (M (onFace i 0)) i).cbc = 2)
    (merged : coa ((T (M (onFace i 0)) i).sje 1 1) = true) :
    mergeFace coa (numbered M) T i =
      setFace (M 0) i (fun e =>
        { e.setSje (1, 1)
            (if i.val % 2 = 1 then (T ((T (M (onFace i 0)) i).sje 1 1) i).sje 1 1
              else (T (M (onFace i 0)) i).sje 1 1) with
          cbc := 2, ijel := (1, 1) }) T := by
  simp only [mergeFace, numbered_children, cb, merged, if_true]
  rfl

/-- What the turn towards elements that stay does for one of them. -/
def mergeStays (ielnew : ℕ) (n : Fin 4 → ℕ) (i : Face) (T : Tables) (k : Fin 4) : Tables :=
  setFace ielnew i (fun e => { e.setSje (iijj k) (n k) with ijel := (1, 1) })
    (setFace (n k) (opposite i)
      (fun e => { e.setSje (1, 1) ielnew with cbc := 1, ijel := iijj k }) T)

theorem mergeFace_two (injective : ∀ c, M c = M 0 → c = 0)
    (cb : (T (M (onFace i 0)) i).cbc = 2)
    (stays : coa ((T (M (onFace i 0)) i).sje 1 1) = false) :
    mergeFace coa (numbered M) T i =
      setFace (M 0) i (fun e => { e with cbc := 3 })
        ((List.finRange 4).foldl
          (mergeStays (M 0) (fun k => (T (M (onFace i k)) i).sje 1 1) i) T) := by
  have read (k : Fin 4) (other : k ≠ 0) (g g' : FaceEntry → FaceEntry) (n : ℕ) (T : Tables) :
      setFace (M 0) i g (setFace n (opposite i) g' T) (M (onFace i k)) i =
        T (M (onFace i k)) i := by
    rw [setFace_other _ fun h => other (onFace_eq_zero (injective _ h.1)),
      setFace_other _ fun h => opposite_ne i h.2.symm]
  have four : List.finRange 4 = [0, 1, 2, 3] := rfl
  simp only [mergeFace, numbered_children, numbered_one, cb, stays, Bool.false_eq_true, if_false,
    four, List.foldl_cons, List.foldl_nil, mergeStays, jjface_eq]
  simp only [read 1 (by decide), read 2 (by decide), read 3 (by decide)]

variable {ielnew : ℕ} {n : Fin 4 → ℕ}

theorem mergeStays_first :
    setFace ielnew i (fun e => { e with cbc := 3 })
        ((List.finRange 4).foldl (mergeStays ielnew n i) T) ielnew i =
      { (List.finRange 4).foldl (fun e k =>
          { e.setSje (iijj k) (n k) with ijel := (1, 1) }) (T ielnew i) with cbc := 3 } := by
  have side (k : Fin 4) : ¬ (ielnew = n k ∧ i = opposite i) := fun h => opposite_ne i h.2.symm
  rw [setFace_same, foldl_accumulate
    (fun k (e : FaceEntry) => { e.setSje (iijj k) (n k) with ijel := (1, 1) })
    (S := fun k T => mergeStays ielnew n i T k)]
  intro k _ T
  rw [mergeStays, setFace_same, setFace_other _ (side k)]

theorem mergeStays_neighbor (injective : ∀ j k, n j = n k → j = k) (k : Fin 4) :
    setFace ielnew i (fun e => { e with cbc := 3 })
        ((List.finRange 4).foldl (mergeStays ielnew n i) T) (n k) (opposite i) =
      { (T (n k) (opposite i)).setSje (1, 1) ielnew with cbc := 1, ijel := iijj k } := by
  have side : ¬ (n k = ielnew ∧ opposite i = i) := fun h => opposite_ne i h.2
  rw [setFace_other _ side]
  refine (foldl_owner (S := fun k T => mergeStays ielnew n i T k) (List.nodup_finRange 4)
    (List.mem_finRange k) ?_ ?_).trans ?_
  · intro T T' same
    exact setFace_congr _ (setFace_congr _ same)
  · intro j _ other T
    exact (setFace_other _ side).trans (setFace_other _ fun h => other (injective j k h.1.symm))
  · exact (setFace_other _ side).trans (setFace_same _)

theorem mergeStays_other {e : ℕ} {f : Face} (first : ¬ (e = ielnew ∧ f = i))
    (nbrs : ∀ k, ¬ (e = n k ∧ f = opposite i)) :
    setFace ielnew i (fun e => { e with cbc := 3 })
        ((List.finRange 4).foldl (mergeStays ielnew n i) T) e f = T e f := by
  rw [setFace_other _ first]
  exact foldl_untouched (S := fun k T => mergeStays ielnew n i T k)
    fun k _ _ => (setFace_other _ first).trans (setFace_other _ (nbrs k))

theorem foldl_setSje_ijel (e : FaceEntry) (k : Fin 4) :
    ((List.finRange 4).foldl (fun (e : FaceEntry) k =>
      { e.setSje (iijj k) (n k) with ijel := (1, 1) }) e).sje (iijj k).1 (iijj k).2 = n k := by
  fin_cases k
  · rfl
  · rfl
  · rfl
  · rfl

end Turn

section Cells

variable (l : Leaves) (merged : Path → Bool)

def idOf (p : Path) : ℕ := ((l.find? fun x => decide (x.2 = p)).map Prod.fst).getD 0

def coarseLeaves : Leaves :=
  l.flatMap fun x => (Octree.remains merged x.2).map fun p => (x.1, p)

def Stays (p : Path) : Prop := ∀ c q, p = c :: q → merged q = false

/-- A cell that looks with a face at a cell of its size or at a larger one. -/
def Beside (f : Face) (p q : Path) : Prop :=
  neighbor f p = some q ∨ ∃ k r, p = onFace f k :: r ∧ neighbor f r = some q

variable {l merged}

theorem idOf_eq (mesh : IsMesh l) {n : ℕ} {p : Path} (there : (n, p) ∈ l) : idOf l p = n := by
  rw [idOf]
  cases found : l.find? fun x => decide (x.2 = p) with
  | none =>
      have missing := List.find?_eq_none.mp found _ there
      simp at missing
  | some y =>
      have member := List.mem_of_find?_eq_some found
      have test := List.find?_some found
      have path : y.2 = p := of_decide_eq_true test
      exact mesh.eq_of_path (show (y.1, p) ∈ l by rw [← path]; exact member) there

theorem mem_coarseLeaves {y : ℕ × Path} : y ∈ coarseLeaves l merged ↔
    (merged y.2 = true ∧ (y.1, 0 :: y.2) ∈ l) ∨ (y ∈ l ∧ Stays merged y.2) := by
  rw [coarseLeaves, List.mem_flatMap]
  constructor
  · rintro ⟨⟨e, p⟩, hx, member⟩
    obtain ⟨q, left, rfl⟩ := List.mem_map.mp member
    cases p with
    | nil =>
        obtain rfl := List.mem_singleton.mp left
        exact .inr ⟨hx, fun c q same => by cases same⟩
    | cons c p =>
        rw [Octree.remains] at left
        split_ifs at left with gone first
        · obtain rfl := List.mem_singleton.mp left
          subst first
          exact .inl ⟨gone, hx⟩
        · cases left
        · obtain rfl := List.mem_singleton.mp left
          refine .inr ⟨hx, fun d q same => ?_⟩
          obtain ⟨-, rfl⟩ := List.cons.inj same
          exact Bool.eq_false_iff.mpr gone
  · rintro (⟨gone, there⟩ | ⟨hy, stays⟩)
    · refine ⟨_, there, List.mem_map.mpr ⟨y.2, ?_, rfl⟩⟩
      simp only [Octree.remains, gone, if_true, List.mem_singleton]
    · refine ⟨y, hy, List.mem_map.mpr ⟨y.2, ?_, rfl⟩⟩
      cases path : y.2 with
      | nil => exact List.mem_singleton_self _
      | cons c q =>
          rw [Octree.remains, stays c q path]
          exact List.mem_singleton_self _

theorem beside_of_neighbor {f : Face} {p q : Path} {c : Child} (stays : Stays merged p)
    (gone : merged q = true) (found : neighbor f p = some (c :: q)) : Beside f p q := by
  have back := neighbor_symm found
  cases side : outer (opposite f) c with
  | false =>
      rw [neighbor_cons_inner side] at back
      have kept := stays _ q (Option.some.inj back).symm
      rw [gone] at kept
      cases kept
  | true =>
      obtain ⟨k, rfl⟩ := exists_onFace side
      rw [neighbor_onFace, opposite_opposite, Option.map_eq_some_iff] at back
      obtain ⟨r, across, path⟩ := back
      have there := neighbor_symm across
      rw [opposite_opposite] at there
      exact .inr ⟨k, r, path.symm, there⟩

theorem beside_opposite {i : Face} {p q : Path} : Beside (opposite i) p q ↔
    ∃ r, neighbor i q = some r ∧ (p = r ∨ ∃ k, p = onFace (opposite i) k :: r) := by
  constructor
  · rintro (found | ⟨k, r, path, found⟩)
    · exact ⟨p, neighbor_symm_iff.mpr found, .inl rfl⟩
    · exact ⟨r, neighbor_symm_iff.mpr found, .inr ⟨k, path⟩⟩
  · rintro ⟨r, found, rfl | ⟨k, path⟩⟩
    · exact .inl (neighbor_symm found)
    · exact .inr ⟨k, r, path, neighbor_symm found⟩

end Cells

/-- What `merging` is called for: cells whose children are all there, none of which has smaller
neighbours. -/
structure Groups (l : Leaves) (merged : Path → Bool) (coa : ℕ → Bool) (T : Tables) : Prop where
  mesh : IsMesh l
  faces : ∀ x ∈ l, ∀ f, FaceOk l x.2 f (T x.1 f)
  members : ∀ q, merged q = true → ∀ c, (idOf l (c :: q), c :: q) ∈ l
  quiet : ∀ q, merged q = true → ∀ c f, (T (idOf l (c :: q)) f).cbc ≠ 3
  marked : ∀ x ∈ l, coa x.1 = true ↔ ¬ Stays merged x.2

inductive Across (l : Leaves) (merged : Path → Bool) (T : Tables) (q : Path) (i : Face) : Prop
  | boundary (none : neighbor i q = none) (cb : (T (idOf l (onFace i 0 :: q)) i).cbc = 0)
  | larger (r : Path) (found : neighbor i q = some r)
      (cb : (T (idOf l (onFace i 0 :: q)) i).cbc = 1)
      (there : ((T (idOf l (onFace i 0 :: q)) i).sje 1 1, r) ∈ l) (stays : Stays merged r)
  | both (r : Path) (found : neighbor i q = some r)
      (cb : (T (idOf l (onFace i 0 :: q)) i).cbc = 2)
      (id : (T (idOf l (onFace i 0 :: q)) i).sje 1 1 = idOf l (onFace (opposite i) 0 :: r))
      (gone : merged r = true)
  | same (r : Path) (found : neighbor i q = some r)
      (cb : (T (idOf l (onFace i 0 :: q)) i).cbc = 2)
      (there : ∀ k, ((T (idOf l (onFace i k :: q)) i).sje 1 1, onFace (opposite i) k :: r) ∈ l)
      (stays : merged r = false)

namespace Groups

variable {l : Leaves} {merged : Path → Bool} {coa : ℕ → Bool} {T₀ : Tables}
  (h : Groups l merged coa T₀) {p q r : Path} {i f : Face}

include h

theorem stays_of_smaller {n : ℕ} (there : (n, p) ∈ l) (cb : (T₀ n f).cbc = 3) :
    Stays merged p := by
  intro c q path
  rw [Bool.eq_false_iff]
  intro gone
  rw [path] at there
  have id := idOf_eq h.mesh there
  have quiet := h.quiet q gone c f
  rw [id] at quiet
  exact quiet cb

theorem across (gone : merged q = true) (i : Face) : Across l merged T₀ q i := by
  have ok (k : Fin 4) := h.faces _ (h.members q gone (onFace i k)) i
  have quiet (k : Fin 4) := h.quiet q gone (onFace i k) i
  rcases (ok 0).types with zero | one | two | three
  · have none := (faceOk_zero zero).mp (ok 0)
    rw [neighbor_onFace, Option.map_eq_none_iff] at none
    exact .boundary none zero
  · obtain ⟨k, q', r, path, found, there, -⟩ := (faceOk_one one).mp (ok 0)
    obtain ⟨-, rfl⟩ := List.cons.inj path
    have mine := h.members q gone (onFace i 0)
    refine .larger r found one there (h.stays_of_smaller there (f := opposite i) ?_)
    have small : (idOf l (onFace i 0 :: q), onFace (opposite (opposite i)) 0 :: q) ∈ l := by
      rw [opposite_opposite]
      exact mine
    exact (face_smaller h.mesh (h.faces _ there (opposite i)) (neighbor_symm found) small).1
  · obtain ⟨p', found, there⟩ := (faceOk_two two).mp (ok 0)
    rw [neighbor_onFace, Option.map_eq_some_iff] at found
    obtain ⟨r, found, rfl⟩ := found
    cases gone' : merged r with
    | true => exact .both r found two (idOf_eq h.mesh there).symm gone'
    | false =>
        refine .same r found two (fun k => ?_) gone'
        rcases (ok k).types with zero | one | two' | three
        · have none := (faceOk_zero zero).mp (ok k)
          rw [neighbor_onFace, found] at none
          cases none
        · obtain ⟨k', q', r', path, found', larger, -⟩ := (faceOk_one one).mp (ok k)
          obtain ⟨-, rfl⟩ := List.cons.inj path
          rw [found] at found'
          cases found'
          exact (h.mesh.not_below larger there).elim
        · obtain ⟨p', found', there'⟩ := (faceOk_two two').mp (ok k)
          rw [neighbor_onFace, found] at found'
          cases found'
          exact there'
        · exact absurd three (quiet k)
  · exact absurd three (quiet 0)

theorem first_mem (gone : merged q = true) :
    (idOf l (0 :: q), q) ∈ coarseLeaves l merged :=
  mem_coarseLeaves.mpr (.inl ⟨gone, h.members q gone 0⟩)

omit h in
theorem stays_mem {n : ℕ} (there : (n, p) ∈ l) (stays : Stays merged p) :
    (n, p) ∈ coarseLeaves l merged := mem_coarseLeaves.mpr (.inr ⟨there, stays⟩)

omit h in
theorem stays_child {c : Child} (kept : merged r = false) : Stays merged (c :: r) := by
  intro d q path
  obtain ⟨-, rfl⟩ := List.cons.inj path
  exact kept

theorem id_injective (gone : merged q = true) {c d : Child}
    (same : idOf l (c :: q) = idOf l (d :: q)) : c = d := by
  have first := h.members q gone c
  rw [same] at first
  exact (List.cons.inj (h.mesh.eq_of_id first (h.members q gone d))).1

end Groups

/-- A turn of `merging` for a cell. -/
def mergeTurn (l : Leaves) (coa : ℕ → Bool) (q : Path) (i : Face) (T : Tables) : Tables :=
  mergeFace coa (numbered fun c => idOf l (c :: q)) T i

section Effect

variable {l : Leaves} {merged : Path → Bool} {coa : ℕ → Bool} {T₀ T : Tables}
  (h : Groups l merged coa T₀) {q : Path} {i : Face} (gone : merged q = true)
  (same : ∀ c, T (idOf l (c :: q)) i = T₀ (idOf l (c :: q)) i)

include h gone same

theorem mergeTurn_cases :
    (neighbor i q = none ∧ mergeTurn l coa q i T =
      setFace (idOf l (0 :: q)) i (fun e => { e with cbc := 0, sje := fun _ _ => 0 }) T) ∨
    (∃ r n, neighbor i q = some r ∧ (n, r) ∈ l ∧ Stays merged r ∧ mergeTurn l coa q i T =
      setFace (idOf l (0 :: q)) i (fun e => { e.setSje (1, 1) n with cbc := 2, ijel := (1, 1) })
        (setFace n (opposite i) (fun _ =>
          ⟨2, fun a b => if (a, b) = (1, 1) then idOf l (0 :: q) else 0, (1, 1)⟩) T)) ∨
    (∃ r, neighbor i q = some r ∧ merged r = true ∧ mergeTurn l coa q i T =
      setFace (idOf l (0 :: q)) i (fun e =>
        { e.setSje (1, 1)
            (if i.val % 2 = 1 then (T (idOf l (onFace (opposite i) 0 :: r)) i).sje 1 1
              else idOf l (onFace (opposite i) 0 :: r)) with cbc := 2, ijel := (1, 1) }) T) ∨
    ∃ r n, neighbor i q = some r ∧ merged r = false ∧
      (∀ k, (n k, onFace (opposite i) k :: r) ∈ l) ∧ mergeTurn l coa q i T =
      setFace (idOf l (0 :: q)) i (fun e => { e with cbc := 3 })
        ((List.finRange 4).foldl (mergeStays (idOf l (0 :: q)) n i) T) := by
  have first := same (onFace i 0)
  cases h.across gone i with
  | boundary none cb =>
      rw [← first] at cb
      exact .inl ⟨none, mergeFace_zero cb⟩
  | larger r found cb there stays =>
      rw [← first] at cb there
      exact .inr (.inl ⟨r, _, found, there, stays, mergeFace_one cb⟩)
  | both r found cb id gone' =>
      have member := h.members r gone' (onFace (opposite i) 0)
      have marked : coa (idOf l (onFace (opposite i) 0 :: r)) = true := by
        refine (h.marked _ member).mpr fun stays => ?_
        have kept := stays _ r rfl
        rw [gone'] at kept
        cases kept
      rw [← first] at cb id
      have turn := mergeFace_both (M := fun c => idOf l (c :: q)) cb
        (show coa _ = true by rw [id]; exact marked)
      simp only [id] at turn
      exact .inr (.inr (.inl ⟨r, found, gone', turn⟩))
  | same r found cb there stays =>
      have unmarked : coa ((T₀ (idOf l (onFace i 0 :: q)) i).sje 1 1) = false := by
        rw [Bool.eq_false_iff]
        intro yes
        exact (h.marked _ (there 0)).mp yes (Groups.stays_child stays)
      rw [← first] at cb unmarked
      refine .inr (.inr (.inr ⟨r, _, found, stays, there, ?_⟩))
      have turn := mergeFace_two (M := fun c => idOf l (c :: q))
        (fun c id => h.id_injective gone id) cb unmarked
      simp only [same] at turn
      exact turn

theorem mergeTurn_first
    (inner : ∀ r, merged r = true → i.val % 2 = 1 →
      T (idOf l (onFace (opposite i) 0 :: r)) i = T₀ (idOf l (onFace (opposite i) 0 :: r)) i) :
    FaceOk (coarseLeaves l merged) q i (mergeTurn l coa q i T (idOf l (0 :: q)) i) := by
  rcases mergeTurn_cases h gone same with ⟨none, turn⟩ | ⟨r, n, found, there, stays, turn⟩ |
    ⟨r, found, gone', turn⟩ | ⟨r, n, found, kept, there, turn⟩
  · rw [turn, setFace_same, faceOk_zero rfl]
    exact none
  · rw [turn, setFace_same, faceOk_two rfl]
    exact ⟨r, found, Groups.stays_mem there stays⟩
  · rw [turn, setFace_same, faceOk_two rfl]
    refine ⟨r, found, ?_⟩
    have zero : ∀ i : Face, i.val % 2 = 0 → onFace (opposite i) 0 = 0 := by decide
    have step : ∀ i : Face, i.val % 2 = 1 → across i (onFace (opposite i) 0) = 0 := by decide
    have first := h.first_mem gone'
    by_cases side : i.val % 2 = 1
    · -- one more step along the same axis leads to the first child
      have member := h.members r gone' (onFace (opposite i) 0)
      have next : neighbor i (onFace (opposite i) 0 :: r) = some (0 :: r) := by
        rw [neighbor_cons_inner (outer_opposite_onFace i 0), step i side]
      have back := (face_same h.mesh (h.faces _ member i) next (h.members r gone' 0)).2
      simp only [if_pos side, inner r gone' side]
      change ((T₀ (idOf l (onFace (opposite i) 0 :: r)) i).sje 1 1, r) ∈ _
      rw [back]
      exact first
    · simp only [if_neg side, zero i (by omega)]
      exact first
  · rw [turn, mergeStays_first, faceOk_three rfl]
    refine ⟨r, found, fun k => ?_⟩
    rw [foldl_setSje_ijel]
    exact Groups.stays_mem (there k) (Groups.stays_child kept)

theorem mergeTurn_beside {y : ℕ × Path} (hy : y ∈ l) (stays : Stays merged y.2)
    (beside : Beside (opposite i) y.2 q) :
    FaceOk (coarseLeaves l merged) y.2 (opposite i)
      (mergeTurn l coa q i T y.1 (opposite i)) := by
  obtain ⟨r, found, place⟩ := beside_opposite.mp beside
  have side (n : ℕ) : ¬ (y.1 = n ∧ opposite i = i) := fun h => opposite_ne i h.2
  rcases mergeTurn_cases h gone same with ⟨none, -⟩ | ⟨r', n, found', there, -, turn⟩ |
    ⟨r', found', gone', -⟩ | ⟨r', n, found', -, there, turn⟩
  · rw [none] at found
    cases found
  · rw [found] at found'
    cases found'
    rcases place with path | ⟨k, path⟩
    · have id : y.1 = n := h.mesh.eq_of_path (show (y.1, r) ∈ l by rw [← path]; exact hy) there
      rw [turn, setFace_other _ (side _), id, setFace_same, faceOk_two rfl, path]
      exact ⟨q, neighbor_symm found, h.first_mem gone⟩
    · exact (h.mesh.not_below there (show (y.1, _ :: r) ∈ l by rw [← path]; exact hy)).elim
  · rw [found] at found'
    cases found'
    rcases place with path | ⟨k, path⟩
    · exact (h.mesh.not_below (show (y.1, r) ∈ l by rw [← path]; exact hy)
        (h.members r gone' 0)).elim
    · have kept := stays _ r path
      rw [gone'] at kept
      cases kept
  · rw [found] at found'
    cases found'
    rcases place with path | ⟨k, path⟩
    · exact (h.mesh.not_below (show (y.1, r) ∈ l by rw [← path]; exact hy) (there 0)).elim
    · have id : y.1 = n k := h.mesh.eq_of_path
        (show (y.1, onFace (opposite i) k :: r) ∈ l by rw [← path]; exact hy) (there k)
      have injective : ∀ j k, n j = n k → j = k := by
        intro j k equal
        have first := there j
        rw [equal] at first
        exact onFace_injective (List.cons.inj (h.mesh.eq_of_id first (there k))).1
      rw [turn, id, mergeStays_neighbor injective, faceOk_one rfl, path]
      exact ⟨k, r, q, rfl, neighbor_symm found, h.first_mem gone, rfl⟩

theorem mergeTurn_other {y : ℕ × Path} (hy : y ∈ l) {f : Face}
    (first : ¬ (y.1 = idOf l (0 :: q) ∧ f = i))
    (apart : f = opposite i → Stays merged y.2 → ¬ Beside f y.2 q) :
    mergeTurn l coa q i T y.1 f = T y.1 f := by
  rcases mergeTurn_cases h gone same with ⟨-, turn⟩ | ⟨r, n, found, there, stays, turn⟩ |
    ⟨r, -, -, turn⟩ | ⟨r, n, found, kept, there, turn⟩
  · rw [turn, setFace_other _ first]
  · rw [turn, setFace_other _ first, setFace_other]
    rintro ⟨id, rfl⟩
    have path : y.2 = r := h.mesh.eq_of_id (show (n, y.2) ∈ l by rw [← id]; exact hy) there
    rw [path] at apart
    exact apart rfl stays (beside_opposite.mpr ⟨r, found, .inl rfl⟩)
  · rw [turn, setFace_other _ first]
  · rw [turn, mergeStays_other first]
    rintro k ⟨id, rfl⟩
    have path : y.2 = onFace (opposite i) k :: r :=
      h.mesh.eq_of_id (show (n k, y.2) ∈ l by rw [← id]; exact hy) (there k)
    rw [path] at apart
    exact apart rfl (Groups.stays_child kept) (beside_opposite.mpr ⟨r, found, .inr ⟨k, rfl⟩⟩)

end Effect

/-- The loop over the merged cells and their faces behind the turns `D`: the faces of the merged
elements and those that look at them are the ones of the coarsened mesh, all others are as
before. -/
structure Merging (l : Leaves) (merged : Path → Bool) (T₀ : Tables) (D : List (Path × Face))
    (T : Tables) : Prop where
  firsts : ∀ q, merged q = true → ∀ i, (q, i) ∈ D →
    FaceOk (coarseLeaves l merged) q i (T (idOf l (0 :: q)) i)
  waiting : ∀ q, merged q = true → ∀ i, (q, i) ∉ D →
    T (idOf l (0 :: q)) i = T₀ (idOf l (0 :: q)) i
  members : ∀ q, merged q = true → ∀ c, c ≠ 0 → ∀ i,
    T (idOf l (c :: q)) i = T₀ (idOf l (c :: q)) i
  looking : ∀ y ∈ l, Stays merged y.2 → ∀ f q, (q, opposite f) ∈ D → Beside f y.2 q →
    FaceOk (coarseLeaves l merged) y.2 f (T y.1 f)
  others : ∀ y ∈ l, Stays merged y.2 → ∀ f, (∀ q, (q, opposite f) ∈ D → ¬ Beside f y.2 q) →
    T y.1 f = T₀ y.1 f

section Run

variable {l : Leaves} {merged : Path → Bool} {coa : ℕ → Bool} {T₀ T : Tables}
  (h : Groups l merged coa T₀) {q : Path} {i : Face} {D : List (Path × Face)}

include h

theorem Merging.step (r : Merging l merged T₀ D T) (gone : merged q = true) (new : (q, i) ∉ D) :
    Merging l merged T₀ ((q, i) :: D) (mergeTurn l coa q i T) := by
  have same : ∀ c, T (idOf l (c :: q)) i = T₀ (idOf l (c :: q)) i := by
    intro c
    by_cases first : c = 0
    · rw [first]
      exact r.waiting q gone i new
    · exact r.members q gone c first i
  have inner : ∀ r', merged r' = true → i.val % 2 = 1 →
      T (idOf l (onFace (opposite i) 0 :: r')) i =
        T₀ (idOf l (onFace (opposite i) 0 :: r')) i := by
    intro r' gone' side
    have other : ∀ i : Face, i.val % 2 = 1 → onFace (opposite i) 0 ≠ 0 := by decide
    exact r.members r' gone' _ (other i side) i
  -- children of merged cells are stored to at their own turn only
  have unmoved : ∀ q', merged q' = true → ∀ c f, ¬ (c :: q' = 0 :: q ∧ f = i) →
      mergeTurn l coa q i T (idOf l (c :: q')) f = T (idOf l (c :: q')) f := by
    intro q' gone' c f other
    refine mergeTurn_other h gone same (h.members q' gone' c) ?_ ?_
    · rintro ⟨id, face⟩
      have there := h.members q' gone' c
      simp only at id
      rw [id] at there
      exact other ⟨h.mesh.eq_of_id there (h.members q gone 0), face⟩
    · intro _ stays
      have kept := stays c q' rfl
      rw [gone'] at kept
      cases kept
  have notFirst : ∀ y ∈ l, Stays merged y.2 → ∀ f, ¬ (y.1 = idOf l (0 :: q) ∧ f = i) := by
    rintro y hy stays f ⟨id, -⟩
    have path : y.2 = 0 :: q :=
      h.mesh.eq_of_id (show (idOf l (0 :: q), y.2) ∈ l by rw [← id]; exact hy)
        (h.members q gone 0)
    have kept := stays 0 q path
    rw [gone] at kept
    cases kept
  refine ⟨?_, ?_, ?_, ?_, ?_⟩
  · intro q' gone' j turn
    by_cases here : (q', j) = (q, i)
    · obtain ⟨rfl, rfl⟩ := Prod.mk.inj here
      exact mergeTurn_first h gone same inner
    · rw [unmoved q' gone' 0 j fun both => here
        (Prod.ext (List.cons.inj both.1).2 both.2)]
      exact r.firsts q' gone' j ((List.mem_cons.mp turn).resolve_left here)
  · intro q' gone' j turn
    rw [List.mem_cons, not_or] at turn
    rw [unmoved q' gone' 0 j fun both => turn.1 (Prod.ext (List.cons.inj both.1).2 both.2)]
    exact r.waiting q' gone' j turn.2
  · intro q' gone' c other j
    rw [unmoved q' gone' c j fun both => other (List.cons.inj both.1).1]
    exact r.members q' gone' c other j
  · intro y hy stays f q' turn beside
    by_cases here : f = opposite i ∧ Beside f y.2 q
    · obtain ⟨rfl, looks⟩ := here
      exact mergeTurn_beside h gone same hy stays looks
    · rw [mergeTurn_other h gone same hy (notFirst y hy stays f)
        fun face _ looks => here ⟨face, looks⟩]
      refine r.looking y hy stays f q' ((List.mem_cons.mp turn).resolve_left fun equal => ?_) beside
      obtain ⟨rfl, rfl⟩ := Prod.mk.inj equal
      exact here ⟨(opposite_opposite f).symm, beside⟩
  · intro y hy stays f apart
    rw [mergeTurn_other h gone same hy (notFirst y hy stays f)]
    · exact r.others y hy stays f fun q' turn => apart q' (List.mem_cons_of_mem _ turn)
    · rintro rfl -
      refine apart q ?_
      rw [opposite_opposite]
      exact List.mem_cons_self ..

theorem merging_foldl (turns : List (Path × Face)) (once : turns.Nodup)
    (among : ∀ t ∈ turns, merged t.1 = true ∧ t ∉ D) (r : Merging l merged T₀ D T) :
    Merging l merged T₀ (turns.reverse ++ D)
      (turns.foldl (fun T t => mergeTurn l coa t.1 t.2 T) T) := by
  induction turns generalizing D T with
  | nil => exact r
  | cons t turns ih =>
      obtain ⟨gone, new⟩ := among t (List.mem_cons_self ..)
      rw [List.nodup_cons] at once
      rw [List.foldl_cons, List.reverse_cons, List.append_assoc]
      refine ih once.2 ?_ (r.step h gone new)
      intro t' ht'
      obtain ⟨gone', later⟩ := among t' (List.mem_cons_of_mem _ ht')
      refine ⟨gone', fun member => ?_⟩
      rcases List.mem_cons.mp member with rfl | old
      · exact once.1 ht'
      · exact later old

theorem Groups.sje_member (gone : merged q = true) {c : Child} {f : Face}
    (inner : outer f c = false) :
    (T₀ (idOf l (c :: q)) f).sje 1 1 = idOf l (OctreePaths.across f c :: q) :=
  (face_same h.mesh (h.faces _ (h.members q gone c) f) (neighbor_cons_inner inner)
    (h.members q gone _)).2

/-- The siblings are found as long as their faces are as before. -/
theorem Groups.siblings_eq (gone : merged q = true)
    (same : ∀ c f, T (idOf l (c :: q)) f = T₀ (idOf l (c :: q)) f) :
    siblings T (idOf l (0 :: q)) = fun c => idOf l (c :: q) := by
  have next {c : Child} {f : Face} (d : Child) (inner : outer f c = false)
      (step : OctreePaths.across f c = d) :
      (T (idOf l (c :: q)) f).sje 1 1 = idOf l (d :: q) := by
    rw [same, h.sje_member gone inner, step]
  have two := next (c := 0) (f := 2) 2 (by decide) (by decide)
  have four := next (c := 0) (f := 4) 4 (by decide) (by decide)
  have six := next (c := 4) (f := 2) 6 (by decide) (by decide)
  funext c
  simp only [siblings, two, four, six]
  fin_cases c
  · rfl
  · exact next 1 (by decide) (by decide)
  · rfl
  · exact next 3 (by decide) (by decide)
  · rfl
  · exact next 5 (by decide) (by decide)
  · rfl
  · exact next 7 (by decide) (by decide)

/-- The faces behind one call of `merging`. -/
def mergeTables (coa : ℕ → Bool) (iel : ℕ) (T : Tables) : Tables :=
  (List.finRange 6).foldl (mergeFace coa (numbered (siblings T iel))) T

theorem merging_groups (cells : List Path) (once : cells.Nodup)
    (among : ∀ q ∈ cells, merged q = true ∧ ∀ i, (q, i) ∉ D) (r : Merging l merged T₀ D T) :
    ∃ D', (∀ q i, (q, i) ∈ D' ↔ (q, i) ∈ D ∨ q ∈ cells) ∧ Merging l merged T₀ D'
      (cells.foldl (fun T q => mergeTables coa (idOf l (0 :: q)) T) T) := by
  induction cells generalizing D T with
  | nil => exact ⟨D, by simp, r⟩
  | cons q cells ih =>
      obtain ⟨gone, new⟩ := among q (List.mem_cons_self ..)
      rw [List.nodup_cons] at once
      have same : ∀ c f, T (idOf l (c :: q)) f = T₀ (idOf l (c :: q)) f := by
        intro c f
        by_cases first : c = 0
        · rw [first]
          exact r.waiting q gone f (new f)
        · exact r.members q gone c first f
      have turns : mergeTables coa (idOf l (0 :: q)) T =
          ((List.finRange 6).map fun i => (q, i)).foldl
            (fun T t => mergeTurn l coa t.1 t.2 T) T := by
        rw [mergeTables, h.siblings_eq gone same, List.foldl_map]
        rfl
      have group := merging_foldl h ((List.finRange 6).map fun i => (q, i))
        ((List.nodup_finRange 6).map fun i j equal => (Prod.mk.inj equal).2) (by
          intro t member
          obtain ⟨i, -, rfl⟩ := List.mem_map.mp member
          exact ⟨gone, new i⟩) r
      rw [← turns] at group
      have inGroup : ∀ q' i, (q', i) ∈ ((List.finRange 6).map fun i => (q, i)).reverse ++ D ↔
          q' = q ∨ (q', i) ∈ D := by
        intro q' i
        rw [List.mem_append, List.mem_reverse, List.mem_map]
        refine or_congr_left ⟨?_, ?_⟩
        · rintro ⟨j, -, equal⟩
          exact (Prod.mk.inj equal).1.symm
        · rintro rfl
          exact ⟨i, List.mem_finRange i, rfl⟩
      obtain ⟨D', member, rest⟩ := ih once.2 (by
        intro q' hq'
        obtain ⟨gone', later⟩ := among q' (List.mem_cons_of_mem _ hq')
        refine ⟨gone', fun i done => ?_⟩
        rcases (inGroup q' i).mp done with rfl | old
        · exact once.1 hq'
        · exact later i old) group
      refine ⟨D', fun q' i => ?_, rest⟩
      rw [member, inGroup, List.mem_cons, or_comm (a := q' = q), or_assoc]

theorem faces_of_merged (r : Merging l merged T₀ D T)
    (all : ∀ q, merged q = true → ∀ i, (q, i) ∈ D) (only : ∀ q i, (q, i) ∈ D → merged q = true) :
    ∀ x ∈ coarseLeaves l merged, ∀ f, FaceOk (coarseLeaves l merged) x.2 f (T x.1 f) := by
  intro y hy f
  rcases mem_coarseLeaves.mp hy with ⟨gone, there⟩ | ⟨hy', stays⟩
  · have ok := r.firsts y.2 gone f (all y.2 gone f)
    rwa [idOf_eq h.mesh there] at ok
  · by_cases looks : ∃ q, merged q = true ∧ Beside f y.2 q
    · obtain ⟨q, gone, beside⟩ := looks
      exact r.looking y hy' stays f q (all q gone (opposite f)) beside
    · have ok := h.faces y hy' f
      rw [r.others y hy' stays f fun q turn beside => looks ⟨q, only q _ turn, beside⟩]
      rcases ok.types with zero | one | two | three
      · rw [faceOk_zero zero] at ok ⊢
        exact ok
      · rw [faceOk_one one] at ok ⊢
        obtain ⟨k, q, r', path, found, there, position⟩ := ok
        have small : (y.1, onFace (opposite (opposite f)) k :: q) ∈ l := by
          rw [opposite_opposite, ← path]
          exact hy'
        have three := (face_smaller h.mesh (h.faces _ there (opposite f)) (neighbor_symm found)
          small).1
        exact ⟨k, q, r', path, found, Groups.stays_mem there (h.stays_of_smaller there three),
          position⟩
      · rw [faceOk_two two] at ok ⊢
        obtain ⟨q, found, there⟩ := ok
        refine ⟨q, found, Groups.stays_mem there fun c q' path => ?_⟩
        rw [Bool.eq_false_iff]
        intro gone
        rw [path] at found
        exact looks ⟨q', gone, beside_of_neighbor stays gone found⟩
      · rw [faceOk_three three] at ok ⊢
        obtain ⟨q, found, smaller⟩ := ok
        refine ⟨q, found, fun k => Groups.stays_mem (smaller k) (Groups.stays_child ?_)⟩
        rw [Bool.eq_false_iff]
        intro gone
        exact looks ⟨q, gone, .inl found⟩

end Run

end Baseliner.UaCoarsen
