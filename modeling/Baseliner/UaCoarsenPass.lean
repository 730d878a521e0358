import Baseliner.UaCoarsen
import Baseliner.UaRefinePass

/-! `do_coarsen` as a whole: which siblings are merged, where the elements stand in the Morton
order behind the pass, their tree codes and their faces. -/

namespace Baseliner.UaCoarsenPass

open LoopEntries OctreePaths UaAdapt UaLeaves UaParallelOrders UaRefine UaCoarsen

section Groups

variable {m : Mesh} {l : Leaves} (h : Mapped m l)
  (quiet : ∀ x ∈ l, m.ich x.1 = 2 → ∀ f, (m.face x.1 f).cbc ≠ 3)

def mergedCell (m : Mesh) (l : Leaves) (q : Path) : Bool :=
  l.any fun x => decide (x.2 = 0 :: q) && mergeable m x.1

theorem mergedCell_iff {q : Path} :
    mergedCell m l q = true ↔ ∃ e, (e, 0 :: q) ∈ l ∧ mergeable m e = true := by
  simp only [mergedCell, List.any_eq_true, Bool.and_eq_true, decide_eq_true_eq]
  constructor
  · rintro ⟨⟨e, p⟩, hx, rfl, yes⟩
    exact ⟨e, hx, yes⟩
  · rintro ⟨e, hx, yes⟩
    exact ⟨(e, 0 :: q), hx, rfl, yes⟩

theorem mergeable_marks {e : ℕ} (yes : mergeable m e = true) :
    m.tree e % 8 = 0 ∧ ∀ c, m.ich (siblings m.face e c) = 2 := by
  simp only [mergeable, Bool.and_eq_true, decide_eq_true_eq, List.all_eq_true] at yes
  exact ⟨yes.1.1.1.2, fun c => yes.1.2 c (List.mem_finRange c)⟩

theorem markSiblings_mono {cs : List Child} {marks : ℕ → Bool} {e : ℕ} (yes : marks e = true) :
    markSiblings m cs marks e = true := by
  have each (s : ℕ) (cs : List Child) (marks : ℕ → Bool) (yes : marks e = true) :
      cs.foldl (fun marks c => Function.update marks (siblings m.face s c) true) marks e =
        true := by
    induction cs generalizing marks with
    | nil => exact yes
    | cons c cs ih =>
        refine ih _ ?_
        simp only [Function.update_apply]
        split_ifs
        · rfl
        · exact yes
  rw [markSiblings]
  generalize List.range' 1 m.nelt = ys
  induction ys generalizing marks with
  | nil => exact yes
  | cons y ys ih =>
      refine ih ?_
      beta_reduce
      split_ifs
      · exact each _ cs marks yes
      · exact yes

include h quiet

theorem sibling_step {n : ℕ} {c : Child} {q : Path} {f : Face} (there : (n, c :: q) ∈ l)
    (marked : m.ich n = 2) (inner : outer f c = false) :
    ((m.face n f).sje 1 1, across f c :: q) ∈ l := by
  have ok := h.faces _ there f
  have next := neighbor_cons_inner (p := q) inner
  rcases ok.types with zero | one | two | three
  · rw [(faceOk_zero zero).mp ok] at next
    cases next
  · obtain ⟨k, q', r, path, -⟩ := (faceOk_one one).mp ok
    obtain ⟨rfl, -⟩ := List.cons.inj path
    rw [outer_onFace] at inner
    cases inner
  · obtain ⟨p, found, member⟩ := (faceOk_two two).mp ok
    rw [found] at next
    cases next
    exact member
  · exact absurd three (quiet _ there marked f)

theorem mergeable_siblings {e : ℕ} {p : Path} (there : (e, p) ∈ l)
    (yes : mergeable m e = true) :
    ∃ q, p = 0 :: q ∧ ∀ c, (siblings m.face e c, c :: q) ∈ l ∧ m.ich (siblings m.face e c) = 2 := by
  obtain ⟨eighth, marks⟩ := mergeable_marks yes
  have value : m.tree e = code p := h.tree _ there
  rw [value] at eighth
  cases p with
  | nil => cases eighth
  | cons d q =>
      have first : d = 0 := Fin.ext (by
        have less := d.isLt
        rw [code] at eighth
        simp only [Fin.val_zero]
        omega)
      subst first
      have one := sibling_step h quiet there (marks 0) (f := 0) rfl
      have two := sibling_step h quiet there (marks 0) (f := 2) rfl
      have three := sibling_step h quiet two (marks 2) (f := 0) rfl
      have four := sibling_step h quiet there (marks 0) (f := 4) rfl
      have five := sibling_step h quiet four (marks 4) (f := 0) rfl
      have six := sibling_step h quiet four (marks 4) (f := 2) rfl
      have seven := sibling_step h quiet six (marks 6) (f := 0) rfl
      refine ⟨q, rfl, fun c => ⟨?_, marks c⟩⟩
      fin_cases c
      · exact there
      · exact one
      · exact two
      · exact three
      · exact four
      · exact five
      · exact six
      · exact seven

theorem mergedCell_members {q : Path} (gone : mergedCell m l q = true) (c : Child) :
    (idOf l (c :: q), c :: q) ∈ l ∧ m.ich (idOf l (c :: q)) = 2 := by
  obtain ⟨e, there, yes⟩ := mergedCell_iff.mp gone
  obtain ⟨q', path, members⟩ := mergeable_siblings h quiet there yes
  obtain ⟨-, rfl⟩ := List.cons.inj path
  obtain ⟨member, mark⟩ := members c
  rw [idOf_eq h.mesh member]
  exact ⟨member, mark⟩

theorem siblings_idOf {e : ℕ} {q : Path} (there : (e, 0 :: q) ∈ l)
    (yes : mergeable m e = true) (c : Child) : siblings m.face e c = idOf l (c :: q) := by
  obtain ⟨q', path, members⟩ := mergeable_siblings h quiet there yes
  obtain ⟨-, rfl⟩ := List.cons.inj path
  exact (idOf_eq h.mesh (members c).1).symm

omit quiet in
theorem mergeable_place {miel : ℕ} (low : 1 ≤ miel) (high : miel ≤ m.nelt) {q : Path}
    (path : (leafAt l miel).2 = 0 :: q) :
    mergeable m (m.mtToId miel) = true ↔ mergedCell m l q = true := by
  have there : (m.mtToId miel, 0 :: q) ∈ l := by
    rw [← h.leafAt_fst low high, ← path]
    exact h.leafAt_mem low high
  rw [mergedCell_iff]
  constructor
  · intro yes
    exact ⟨_, there, yes⟩
  · rintro ⟨e, there', yes⟩
    rwa [h.mesh.eq_of_path there there']

theorem markSiblings_iff (cs : List Child) (marks : ℕ → Bool) {x : ℕ × Path} (hx : x ∈ l) :
    markSiblings m cs marks x.1 = true ↔ marks x.1 = true ∨
      ∃ c ∈ cs, ∃ q, x.2 = c :: q ∧ mergedCell m l q = true := by
  have inner (e : ℕ) (cs : List Child) (marks : ℕ → Bool) :
      cs.foldl (fun marks c => Function.update marks (siblings m.face e c) true) marks x.1 =
        true ↔ marks x.1 = true ∨ ∃ c ∈ cs, siblings m.face e c = x.1 := by
    induction cs generalizing marks with
    | nil => simp
    | cons c cs ih =>
        rw [List.foldl_cons, ih]
        by_cases here : x.1 = siblings m.face e c
        · simp [here]
        · rw [Function.update_of_ne here]
          simp [Ne.symm here]
  have outer (ys : List ℕ) (marks : ℕ → Bool) :
      ys.foldl (fun marks miel => if mergeable m (m.mtToId miel) then
          cs.foldl (fun marks c =>
            Function.update marks (siblings m.face (m.mtToId miel) c) true) marks
        else marks) marks x.1 = true ↔ marks x.1 = true ∨
        ∃ miel ∈ ys, mergeable m (m.mtToId miel) = true ∧
          ∃ c ∈ cs, siblings m.face (m.mtToId miel) c = x.1 := by
    induction ys generalizing marks with
    | nil => simp
    | cons y ys ih =>
        rw [List.foldl_cons, ih]
        by_cases here : mergeable m (m.mtToId y) = true
        · rw [if_pos here, inner]
          simp only [List.mem_cons, exists_eq_or_imp, here, true_and, or_assoc]
        · rw [if_neg here]
          simp only [List.mem_cons, exists_eq_or_imp, here, false_and, false_or,
            Bool.false_eq_true]
  rw [markSiblings, outer]
  refine or_congr_right ⟨?_, ?_⟩
  · rintro ⟨miel, range, yes, c, hc, id⟩
    obtain ⟨low, high⟩ := List.mem_range'_1.mp range
    have there := h.leafAt_mem low (show miel ≤ m.nelt by omega)
    have first := h.leafAt_fst low (show miel ≤ m.nelt by omega)
    rw [← first] at yes id
    obtain ⟨q, path, members⟩ := mergeable_siblings h quiet
      (show ((leafAt l miel).1, (leafAt l miel).2) ∈ l from there) yes
    have member := (members c).1
    rw [id] at member
    refine ⟨c, hc, q, h.mesh.eq_of_id hx member, mergedCell_iff.mpr ⟨_, ?_, yes⟩⟩
    rw [← path]
    exact there
  · rintro ⟨c, hc, q, path, gone⟩
    obtain ⟨e, there, yes⟩ := mergedCell_iff.mp gone
    obtain ⟨miel, low, high, place⟩ := h.exists_leafAt there
    have first := h.leafAt_fst low high
    rw [place] at first
    refine ⟨miel, List.mem_range'_1.mpr ⟨low, by omega⟩, by rw [← first]; exact yes, c, hc, ?_⟩
    rw [← first, siblings_idOf h quiet there yes, ← path]
    exact idOf_eq h.mesh hx

theorem groups_of_mapped :
    UaCoarsen.Groups l (mergedCell m l) (coarsenPlan m).ifcoaId m.face where
  mesh := h.mesh
  faces := h.faces
  members q gone c := (mergedCell_members h quiet gone c).1
  quiet q gone c f := by
    obtain ⟨there, mark⟩ := mergedCell_members h quiet gone c
    exact quiet _ there mark f
  marked x hx := by
    rw [coarsenPlan, markSiblings_iff h quiet _ _ hx]
    constructor
    · rintro (none | ⟨c, -, q, path, gone⟩) stays
      · cases none
      · rw [stays c q path] at gone
        cases gone
    · intro moved
      right
      by_contra none
      refine moved fun c q path => ?_
      rw [Bool.eq_false_iff]
      intro gone
      exact none ⟨c, List.mem_finRange c, q, path, gone⟩

end Groups

section Turns

variable {m : Mesh} {l : Leaves} (h : Mapped m l)
  (quiet : ∀ x ∈ l, m.ich x.1 = 2 → ∀ f, (m.face x.1 f).cbc ≠ 3)

def first (m : Mesh) (miel : ℕ) : Bool := mergeable m (m.mtToId miel)

theorem front_eq {miel : ℕ} (low : 1 ≤ miel) (high : miel ≤ m.nelt) :
    (coarsenPlan m).front miel = upTo (first m) miel := parallelAdd_upTo _ _ low high

def firsts (m : Mesh) : List ℕ := (List.range' 1 m.nelt).filter (first m)

theorem mem_firsts {miel : ℕ} :
    miel ∈ firsts m ↔ 1 ≤ miel ∧ miel ≤ m.nelt ∧ mergeable m (m.mtToId miel) = true := by
  rw [firsts, List.mem_filter, List.mem_range'_1, first, and_assoc]
  exact and_congr_right fun _ => and_congr_left fun _ => by omega

theorem map_action_eq (pos : 1 ≤ m.nelt) :
    (List.range' 1 ((coarsenPlan m).front m.nelt)).map (coarsenPlan m).action = firsts m := by
  rw [front_eq pos le_rfl]
  exact map_foldl_action (first m) (coarsenPlan m).front _ _ fun x low high => front_eq low high

def skipped (m : Mesh) : ℕ → Bool := markSiblings m (List.finRange 8).tail m.skip

def kept (m : Mesh) : ℕ → ℕ :=
  (List.range' 1 m.nelt).foldl (fun f miel =>
    if skipped m (m.mtToId miel) then f
    else Function.update f (coarsenedIndex m (coarsenPlan m).front miel) (m.mtToId miel))
    (CountingScatter.clear 1 m.nelt m.mtToId)

def coarsenAt (plan : CoarsenPlan) (m : Mesh) (miel : ℕ) : Mesh :=
  merging plan.ifcoaId (numbered (siblings m.face (plan.old miel))) m

theorem coarsenPlan_old (miel : ℕ) : (coarsenPlan m).old miel = m.mtToId miel := rfl

theorem siblings_zero (T : Tables) (iel : ℕ) : siblings T iel 0 = iel := rfl

theorem coarsenAt_eq (s : Mesh) (miel : ℕ) :
    coarsenAt (coarsenPlan m) s miel =
      { s with
        tree := Function.update s.tree (m.mtToId miel) (s.tree (m.mtToId miel) / 8)
        face := mergeTables (coarsenPlan m).ifcoaId (m.mtToId miel) s.face } := by
  rw [coarsenAt, merging, coarsenPlan_old, numbered_one, siblings_zero, mergeTables]

theorem foldl_coarsenAt (s : Mesh) (ys : List ℕ) :
    ys.foldl (coarsenAt (coarsenPlan m)) s =
      { s with
        tree := ys.foldl (fun tree miel =>
          Function.update tree (m.mtToId miel) (tree (m.mtToId miel) / 8)) s.tree
        face := ys.foldl (fun T miel =>
          mergeTables (coarsenPlan m).ifcoaId (m.mtToId miel) T) s.face } := by
  induction ys generalizing s with
  | nil => rfl
  | cons y ys ih =>
      rw [List.foldl_cons, ih, coarsenAt_eq, List.foldl_cons, List.foldl_cons]

include h

theorem doCoarsen_eq : doCoarsen m =
    { (firsts m).foldl (coarsenAt (coarsenPlan m))
        { m with mtToId := kept m, skip := skipped m } with
      nelt := m.nelt - upTo (first m) m.nelt * 7 } := by
  have turns : (List.range' 1 ((coarsenPlan m).front m.nelt)).foldl
      (coarsenOne (coarsenPlan m)) { m with mtToId := kept m, skip := skipped m } =
      (firsts m).foldl (coarsenAt (coarsenPlan m))
        { m with mtToId := kept m, skip := skipped m } := by
    rw [← map_action_eq h.nelt_pos, List.foldl_map]
    rfl
  rw [← turns, ← front_eq h.nelt_pos le_rfl]
  rfl

def cells (m : Mesh) (l : Leaves) : List Path := (firsts m).map fun miel => (leafAt l miel).2.tail

include quiet

theorem first_path {miel : ℕ} (member : miel ∈ firsts m) :
    (leafAt l miel).2 = 0 :: (leafAt l miel).2.tail ∧
      mergedCell m l (leafAt l miel).2.tail = true ∧
      m.mtToId miel = idOf l (0 :: (leafAt l miel).2.tail) := by
  obtain ⟨low, high, yes⟩ := mem_firsts.mp member
  have there := h.leafAt_mem low high
  have id := h.leafAt_fst low high
  obtain ⟨q, path, -⟩ := mergeable_siblings h quiet
    (show ((leafAt l miel).1, (leafAt l miel).2) ∈ l from there) (by rw [id]; exact yes)
  rw [path]
  refine ⟨rfl, (mergeable_place h low high path).mp yes, ?_⟩
  rw [← id]
  refine (idOf_eq h.mesh ?_).symm
  rw [List.tail_cons, ← path]
  exact there

theorem nodup_cells : (cells m l).Nodup := by
  refine List.Nodup.map_on (fun x hx y hy same => ?_) (List.Nodup.filter _ List.nodup_range')
  obtain ⟨low, high, -⟩ := mem_firsts.mp hx
  obtain ⟨low', high', -⟩ := mem_firsts.mp hy
  have first := (first_path h quiet hx).2.2
  rw [same, ← (first_path h quiet hy).2.2] at first
  exact h.mtToId_injective low high low' high' first

theorem mem_cells {q : Path} : q ∈ cells m l ↔ mergedCell m l q = true := by
  rw [cells, List.mem_map]
  constructor
  · rintro ⟨miel, member, rfl⟩
    exact (first_path h quiet member).2.1
  · intro gone
    obtain ⟨e, there, yes⟩ := mergedCell_iff.mp gone
    obtain ⟨miel, low, high, place⟩ := h.exists_leafAt there
    refine ⟨miel, mem_firsts.mpr ⟨low, high, ?_⟩, by rw [place]; rfl⟩
    rw [← h.leafAt_fst low high, place]
    exact yes

theorem coarsened_faces : ∀ x ∈ coarseLeaves l (mergedCell m l), ∀ f,
    FaceOk (coarseLeaves l (mergedCell m l)) x.2 f ((doCoarsen m).face x.1 f) := by
  have given := groups_of_mapped h quiet
  have start : Merging l (mergedCell m l) m.face [] m.face :=
    ⟨fun _ _ _ turn => (List.not_mem_nil turn).elim, fun _ _ _ _ => rfl, fun _ _ _ _ _ => rfl,
      fun _ _ _ _ _ turn => (List.not_mem_nil turn).elim, fun _ _ _ _ _ => rfl⟩
  obtain ⟨D, member, run⟩ := merging_groups given (cells m l) (nodup_cells h quiet)
    (fun q hq => ⟨(mem_cells h quiet).mp hq, fun _ => List.not_mem_nil⟩) start
  have faces : (doCoarsen m).face = (cells m l).foldl (fun T q =>
      mergeTables (coarsenPlan m).ifcoaId (idOf l (0 :: q)) T) m.face := by
    rw [doCoarsen_eq h, foldl_coarsenAt, cells, List.foldl_map]
    refine List.foldl_ext _ _ _ fun T miel place => ?_
    rw [(first_path h quiet place).2.2]
  rw [faces]
  refine faces_of_merged given run (fun q gone i => ?_) fun q i turn => ?_
  · exact (member q i).mpr (.inr ((mem_cells h quiet).mpr gone))
  · rcases (member q i).mp turn with none | cell
    · exact (List.not_mem_nil none).elim
    · exact (mem_cells h quiet).mp cell

theorem coarsened_tree :
    ∀ x ∈ coarseLeaves l (mergedCell m l), (doCoarsen m).tree x.1 = code x.2 := by
  intro y hy
  have tree : (doCoarsen m).tree = (firsts m).foldl (fun tree miel =>
      Function.update tree (m.mtToId miel) (tree (m.mtToId miel) / 8)) m.tree := by
    rw [doCoarsen_eq h, foldl_coarsenAt]
  rw [tree]
  rcases mem_coarseLeaves.mp hy with ⟨gone, there⟩ | ⟨hy', stays⟩
  · obtain ⟨miel, low, high, place⟩ := h.exists_leafAt there
    have id := h.leafAt_fst low high
    rw [place] at id
    have yes := (mergeable_place h low high (q := y.2) (by rw [place])).mpr gone
    have own := view_owner (fun tree : ℕ → ℕ => tree y.1) (l := firsts m)
      (S := fun miel tree => Function.update tree (m.mtToId miel) (tree (m.mtToId miel) / 8))
      (List.Nodup.filter _ List.nodup_range') (mem_firsts.mpr ⟨low, high, yes⟩) ?_ ?_ m.tree
    · refine own.trans ?_
      simp only at id ⊢
      rw [← id, Function.update_self, h.tree _ there, code, Fin.val_zero]
      omega
    · intro T T' same
      simp only at id same ⊢
      rw [← id, Function.update_self, Function.update_self, same]
    · intro j hj other T
      obtain ⟨low', high', -⟩ := mem_firsts.mp hj
      simp only at id ⊢
      rw [id]
      refine Function.update_of_ne (fun same => other ?_) ..
      exact (h.mtToId_injective low high low' high' same).symm
  · rw [← h.tree y hy']
    refine view_untouched (fun tree : ℕ → ℕ => tree y.1) (fun j hj tree => ?_) m.tree
    refine Function.update_of_ne ?_ ..
    obtain ⟨low', high', -⟩ := mem_firsts.mp hj
    obtain ⟨path, gone, -⟩ := first_path h quiet hj
    rw [← h.leafAt_fst low' high']
    intro same
    have whole : y = leafAt l j :=
      List.inj_on_of_nodup_map h.mesh.ids hy' (h.leafAt_mem low' high') same
    have left := stays 0 _ (by rw [whole]; exact path)
    rw [gone] at left
    cases left

end Turns

section Order

variable {m : Mesh} {l : Leaves} (h : Mapped m l)
  (quiet : ∀ x ∈ l, m.ich x.1 = 2 → ∀ f, (m.face x.1 f).cbc ≠ 3)

def Gone (m : Mesh) (l : Leaves) (miel : ℕ) : Prop :=
  ∃ c q, (leafAt l miel).2 = c :: q ∧ c ≠ 0 ∧ mergedCell m l q = true

def coarsenedBlock (m : Mesh) (l : Leaves) (miel : ℕ) : List ℕ :=
  (Octree.remains (mergedCell m l) (leafAt l miel).2).map fun _ => m.mtToId miel

theorem coarsenedBlock_gone {miel : ℕ} (moved : Gone m l miel) : coarsenedBlock m l miel = [] := by
  obtain ⟨c, q, path, other, gone⟩ := moved
  rw [coarsenedBlock, path, Octree.remains, if_pos gone, if_neg other]
  rfl

theorem coarsenedBlock_kept {miel : ℕ} (stays : ¬ Gone m l miel) :
    coarsenedBlock m l miel = [m.mtToId miel] := by
  rw [coarsenedBlock]
  cases path : (leafAt l miel).2 with
  | nil => rfl
  | cons c q =>
      rw [Octree.remains]
      split_ifs with gone zero
      · rfl
      · exact (stays ⟨c, q, path, zero, gone⟩).elim
      · rfl

include h

theorem blocks_coarsenedBlock :
    blocks (coarsenedBlock m l) m.nelt = (coarseLeaves l (mergedCell m l)).map Prod.fst := by
  suffices any : ∀ merged : Path → Bool,
      blocks (fun miel => (Octree.remains merged (leafAt l miel).2).map fun _ => m.mtToId miel)
        m.nelt = (coarseLeaves l merged).map Prod.fst from any (mergedCell m l)
  intro merged
  rw [coarseLeaves, List.map_flatMap]
  conv_rhs => rw [← h.map_leafAt_eq]
  rw [List.flatMap_map, blocks]
  refine List.flatMap_congr fun miel range => ?_
  obtain ⟨low, high⟩ := List.mem_range'_1.mp range
  rw [List.map_map, ← h.leafAt_fst low (by omega)]
  rfl

theorem place_injective {x y : ℕ} (low : 1 ≤ x) (high : x ≤ m.nelt) (low' : 1 ≤ y)
    (high' : y ≤ m.nelt) (same : (leafAt l x).2 = (leafAt l y).2) : x = y := by
  refine h.mtToId_injective low high low' high' ?_
  rw [← h.leafAt_fst low high, ← h.leafAt_fst low' high',
    h.mesh.eq_of_suffix (h.leafAt_mem low high) (h.leafAt_mem low' high') (by rw [same])]

theorem first_iff {miel : ℕ} (low : 1 ≤ miel) (high : miel ≤ m.nelt) {c : Child} {q : Path}
    (path : (leafAt l miel).2 = c :: q) (gone : mergedCell m l q = true) :
    first m miel = true ↔ c = 0 := by
  constructor
  · intro yes
    have eighth := (mergeable_marks yes).1
    rw [← h.leafAt_fst low high, h.tree _ (h.leafAt_mem low high), path, code] at eighth
    have less := c.isLt
    exact Fin.ext (by simp only [Fin.val_zero]; omega)
  · rintro rfl
    exact (mergeable_place h low high path).mpr gone

omit h in
theorem not_gone_first {s : ℕ} {q : Path}
    (place : (leafAt l (s + (0 : Child))).2 = 0 :: q) : ¬ Gone m l s := by
  rintro ⟨d, q', path, nonzero, -⟩
  rw [Fin.val_zero, Nat.add_zero, path] at place
  exact nonzero (List.cons.inj place).1

theorem group_counts {s : ℕ} {q : Path} (gone : mergedCell m l q = true) (low : 1 ≤ s)
    (last : s + 7 ≤ m.nelt) (places : ∀ c : Child, (leafAt l (s + c)).2 = c :: q) (j : ℕ)
    (below : j ≤ 7) :
    (blocks (coarsenedBlock m l) (s + j)).length =
        (blocks (coarsenedBlock m l) (s - 1)).length + 1 ∧
      upTo (first m) (s + j) = upTo (first m) (s - 1) + 1 := by
  induction j with
  | zero =>
      have stays : ¬ Gone m l s := not_gone_first (places 0)
      have yes : first m s = true := (first_iff h low (by omega) (places 0) gone).mpr rfl
      obtain ⟨k, rfl⟩ : ∃ k, s = k + 1 := ⟨s - 1, by omega⟩
      rw [Nat.add_zero, Nat.add_sub_cancel, blocks_succ, upTo_succ, List.length_append,
        coarsenedBlock_kept stays, if_pos yes]
      exact ⟨rfl, rfl⟩
  | succ j ih =>
      obtain ⟨length, count⟩ := ih (by omega)
      have path := places ⟨j + 1, by omega⟩
      have nonzero : (⟨j + 1, by omega⟩ : Child) ≠ 0 := by
        rw [Ne, Fin.ext_iff]
        simp only [Fin.val_zero]
        omega
      have no : ¬ first m (s + (j + 1)) = true := fun yes =>
        nonzero ((first_iff h (by omega) (by omega) path gone).mp yes)
      have moved : Gone m l (s + j + 1) := ⟨_, q, path, nonzero, gone⟩
      rw [← Nat.add_assoc] at no ⊢
      rw [blocks_succ, upTo_succ, List.length_append, if_neg no, coarsenedBlock_gone moved,
        length, count]
      exact ⟨rfl, rfl⟩

include quiet

theorem group_places {q : Path} (gone : mergedCell m l q = true) :
    ∃ s, 1 ≤ s ∧ s + 7 ≤ m.nelt ∧ ∀ c : Child, (leafAt l (s + c)).2 = c :: q := by
  obtain ⟨t, leaves⟩ := h.mesh.octree
  obtain ⟨a, b, found⟩ := t.siblings_together (p := []) (List.nil_suffix) fun c => by
    rw [leaves]
    exact List.mem_map_of_mem (f := Prod.snd) (mergedCell_members h quiet gone c).1
  rw [leaves] at found
  have count := congrArg List.length found
  simp only [List.length_map, List.length_append, List.length_finRange, h.length_eq] at count
  refine ⟨a.length + 1, by omega, by omega, fun c => ?_⟩
  have less := c.isLt
  have inside : a.length + c < l.length := by
    rw [h.length_eq]
    omega
  have place : a.length + 1 + c - 1 = a.length + c := by omega
  rw [leafAt, place, List.getD_eq_getElem l (0, []) inside]
  have entry : (l.map Prod.snd)[a.length + c]? = some (c :: q) := by
    rw [found, List.append_assoc, List.getElem?_append_right (by omega), Nat.add_sub_cancel_left,
      List.getElem?_append_left (by simp), List.getElem?_map, List.getElem?_eq_getElem (by simp),
      List.getElem_finRange]
    rfl
  rw [List.getElem?_map, List.getElem?_eq_getElem inside] at entry
  exact Option.some.inj entry

theorem length_blocks (n : ℕ) (high : n ≤ m.nelt) (whole : n = m.nelt ∨ ¬ Gone m l (n + 1)) :
    (blocks (coarsenedBlock m l) n).length + upTo (first m) n * 7 = n := by
  induction n using Nat.strong_induction_on with
  | _ n ih =>
    by_cases zero : n = 0
    · subst zero
      rfl
    obtain ⟨k, rfl⟩ : ∃ k, n = k + 1 := ⟨n - 1, by omega⟩
    by_cases moved : Gone m l (k + 1)
    · obtain ⟨c, q, path, other, gone⟩ := moved
      obtain ⟨s, low, last, places⟩ := group_places h quiet gone
      have less := c.isLt
      have here : k + 1 = s + c := place_injective h (by omega) high (by omega) (by omega)
        (by rw [path, places c])
      -- the group ends here
      have final : c.val = 7 := by
        by_contra inner
        rcases whole with all | next
        · omega
        · refine next ⟨⟨c + 1, by omega⟩, q, ?_, ?_, gone⟩
          · rw [here, Nat.add_assoc]
            exact places ⟨c + 1, by omega⟩
          · rw [Ne, Fin.ext_iff]
            simp only [Fin.val_zero]
            omega
      have before := ih (s - 1) (by omega) (by omega) (.inr (by
        rw [Nat.sub_add_cancel low]
        exact not_gone_first (places 0)))
      obtain ⟨length, count⟩ := group_counts h gone low last places 7 le_rfl
      rw [here, final, length, count]
      omega
    · have no : ¬ first m (k + 1) = true := by
        intro yes
        have id := h.leafAt_fst (show 1 ≤ k + 1 by omega) high
        have there : ((leafAt l (k + 1)).1, (leafAt l (k + 1)).2) ∈ l :=
          h.leafAt_mem (by omega) high
        obtain ⟨q, path, -⟩ := mergeable_siblings h quiet there (by rw [id]; exact yes)
        have gone := (mergeable_place h (by omega) high path).mp yes
        obtain ⟨s, low, last, places⟩ := group_places h quiet gone
        have here : k + 1 = s + (0 : Child) :=
          place_injective h (by omega) high (by rw [Fin.val_zero]; omega)
            (by rw [Fin.val_zero]; omega) (by rw [path, places 0])
        rw [Fin.val_zero, Nat.add_zero] at here
        rcases whole with all | next
        · omega
        · exact next ⟨1, q, by rw [here]; exact places 1, by decide, gone⟩
      have before := ih k (by omega) (by omega) (.inr moved)
      rw [blocks_succ, upTo_succ, List.length_append, coarsenedBlock_kept moved, if_neg no,
        List.length_singleton]
      omega

theorem coarsenedIndex_eq {miel : ℕ} (low : 1 ≤ miel) (high : miel ≤ m.nelt)
    (stays : ¬ Gone m l miel) : coarsenedIndex m (coarsenPlan m).front miel =
      1 + (blocks (coarsenedBlock m l) (miel - 1)).length := by
  obtain ⟨k, rfl⟩ : ∃ k, miel = k + 1 := ⟨miel - 1, by omega⟩
  have length := length_blocks h quiet k (by omega) (.inr stays)
  rw [coarsenedIndex, front_eq low high, upTo_succ, Nat.add_sub_cancel]
  cases yes : first m (k + 1) with
  | true =>
      rw [if_pos (show mergeable m (m.mtToId (k + 1)) = true from yes), if_pos rfl]
      omega
  | false =>
      have no : ¬ mergeable m (m.mtToId (k + 1)) = true := by
        rw [show mergeable m (m.mtToId (k + 1)) = false from yes]
        exact Bool.false_ne_true
      rw [if_neg no, if_neg Bool.false_ne_true]
      omega

theorem coarsenedIndex_lt {x y : ℕ} (low : 1 ≤ x) (before : x < y) (high : y ≤ m.nelt)
    (stays : ¬ Gone m l x) (stays' : ¬ Gone m l y) :
    coarsenedIndex m (coarsenPlan m).front x < coarsenedIndex m (coarsenPlan m).front y := by
  rw [coarsenedIndex_eq h quiet low (by omega) stays,
    coarsenedIndex_eq h quiet (by omega) high stays']
  obtain ⟨k, rfl⟩ : ∃ k, x = k + 1 := ⟨x - 1, by omega⟩
  have mono := length_blocks_mono (coarsenedBlock m l) (show k + 1 ≤ y - 1 by omega)
  rw [blocks_succ, List.length_append, coarsenedBlock_kept stays, List.length_singleton] at mono
  rw [Nat.add_sub_cancel]
  omega

variable (live : ∀ x ∈ l, m.skip x.1 = false)

include live

theorem skipped_iff {miel : ℕ} (low : 1 ≤ miel) (high : miel ≤ m.nelt) :
    skipped m (m.mtToId miel) = true ↔ Gone m l miel := by
  have member := h.leafAt_mem low high
  have tail : ∀ c : Child, c ∈ (List.finRange 8).tail ↔ c ≠ 0 := by decide
  rw [skipped, ← h.leafAt_fst low high, markSiblings_iff h quiet _ _ member, live _ member]
  constructor
  · rintro (none | ⟨c, other, q, path, gone⟩)
    · cases none
    · exact ⟨c, q, path, (tail c).mp other, gone⟩
  · rintro ⟨c, q, path, other, gone⟩
    exact .inr ⟨c, (tail c).mpr other, q, path, gone⟩

theorem kept_place {miel : ℕ} (low : 1 ≤ miel) (high : miel ≤ m.nelt) (stays : ¬ Gone m l miel) :
    kept m (coarsenedIndex m (coarsenPlan m).front miel) = m.mtToId miel := by
  have here : ¬ skipped m (m.mtToId miel) = true := fun yes =>
    stays ((skipped_iff h quiet live low high).mp yes)
  refine (view_owner (fun f : ℕ → ℕ => f (coarsenedIndex m (coarsenPlan m).front miel))
    (S := fun miel f => if skipped m (m.mtToId miel) then f
      else Function.update f (coarsenedIndex m (coarsenPlan m).front miel) (m.mtToId miel))
    List.nodup_range' (show miel ∈ List.range' 1 m.nelt from List.mem_range'_1.mpr ⟨low, by omega⟩)
    ?_ ?_ _).trans ?_
  · intro T T' _
    rw [if_neg here, if_neg here, Function.update_self, Function.update_self]
  · intro j hj other T
    obtain ⟨low', high'⟩ := List.mem_range'_1.mp hj
    split_ifs with gone
    · rfl
    · have stays' : ¬ Gone m l j := fun moved =>
        gone ((skipped_iff h quiet live low' (by omega)).mpr moved)
      refine Function.update_of_ne ?_ ..
      rcases Nat.lt_or_gt_of_ne other with before | behind
      · exact (coarsenedIndex_lt h quiet low' before high stays' stays).ne'
      · exact (coarsenedIndex_lt h quiet low behind (by omega) stays stays').ne
  · simp only [if_neg here, Function.update_self]

theorem coarsened_order : (List.range' 1 (doCoarsen m).nelt).map (doCoarsen m).mtToId =
    (coarseLeaves l (mergedCell m l)).map Prod.fst := by
  have length := length_blocks h quiet m.nelt le_rfl (.inl rfl)
  have count : (doCoarsen m).nelt = (blocks (coarsenedBlock m l) m.nelt).length := by
    rw [doCoarsen_eq h]
    simp only
    omega
  have order : (doCoarsen m).mtToId = kept m := by rw [doCoarsen_eq h, foldl_coarsenAt]
  rw [count, order, ← blocks_coarsenedBlock h]
  refine map_range'_blocks _ _ _ fun x hx j id found => ?_
  by_cases moved : Gone m l (x + 1)
  · rw [coarsenedBlock_gone moved] at found
    cases found
  · rw [coarsenedBlock_kept moved, List.getElem?_singleton] at found
    split_ifs at found with zero
    obtain rfl := Option.some.inj found
    have place := kept_place h quiet live (by omega) (show x + 1 ≤ m.nelt by omega) moved
    rw [coarsenedIndex_eq h quiet (by omega) (by omega) moved, Nat.add_sub_cancel] at place
    rw [zero, Nat.add_zero, place]

end Order

section Pass

variable {m : Mesh} {l : Leaves} (h : Mapped m l)
  (quiet : ∀ x ∈ l, m.ich x.1 = 2 → ∀ f, (m.face x.1 f).cbc ≠ 3)

include h quiet

theorem coarsened_mesh : IsMesh (coarseLeaves l (mergedCell m l)) where
  octree := by
    obtain ⟨t, leaves⟩ := h.mesh.octree
    refine ⟨t.merge (mergedCell m l) [], ?_⟩
    rw [Octree.leaves_merge, leaves, List.flatMap_map, coarseLeaves, List.map_flatMap]
    · refine List.flatMap_congr fun x _ => ?_
      rw [List.map_map]
      exact (List.map_id _).symm
    · intro c q path
      cases path
    · intro q c gone _
      rw [leaves]
      exact List.mem_map_of_mem (f := Prod.snd) (mergedCell_members h quiet gone c).1
  ids := by
    have sub : ∀ (merged : Path → Bool) (l : Leaves),
        ((coarseLeaves l merged).map Prod.fst).Sublist (l.map Prod.fst) := by
      intro merged l
      induction l with
      | nil => exact List.Sublist.refl _
      | cons x l ih =>
          have one : ((Octree.remains merged x.2).map fun _ => x.1).Sublist [x.1] := by
            cases x.2 with
            | nil => exact List.Sublist.refl _
            | cons c q =>
                rw [Octree.remains]
                split_ifs
                · exact List.Sublist.refl _
                · exact List.nil_sublist _
                · exact List.Sublist.refl _
          rw [coarseLeaves, List.flatMap_cons, List.map_append, List.map_map, List.map_cons]
          exact one.append ih
    exact (sub _ l).nodup h.mesh.ids

theorem coarsened_live {neltold : ℕ}
    (live : ∀ e, (∃ p, (e, p) ∈ l) ↔ 1 ≤ e ∧ e ≤ neltold ∧ m.skip e = false) (e : ℕ) :
    (∃ p, (e, p) ∈ coarseLeaves l (mergedCell m l)) ↔
      1 ≤ e ∧ e ≤ neltold ∧ (doCoarsen m).skip e = false := by
  have marks : (doCoarsen m).skip = skipped m := by rw [doCoarsen_eq h, foldl_coarsenAt]
  have tail : ∀ c : Child, c ∈ (List.finRange 8).tail ↔ c ≠ 0 := by decide
  rw [marks]
  constructor
  · rintro ⟨p, member⟩
    obtain ⟨q, there, stays⟩ : ∃ q, (e, q) ∈ l ∧
        ¬ ∃ c ∈ (List.finRange 8).tail, ∃ r, q = c :: r ∧ mergedCell m l r = true := by
      rcases mem_coarseLeaves.mp member with ⟨gone, there⟩ | ⟨there, stays⟩
      · refine ⟨_, there, ?_⟩
        rintro ⟨c, other, r, path, -⟩
        exact (tail c).mp other (List.cons.inj path).1.symm
      · refine ⟨_, there, ?_⟩
        rintro ⟨c, -, r, path, gone⟩
        rw [stays c r path] at gone
        cases gone
    obtain ⟨low, high, before⟩ := (live e).mp ⟨q, there⟩
    refine ⟨low, high, Bool.eq_false_iff.mpr fun yes => ?_⟩
    rcases (markSiblings_iff h quiet _ _ there).mp yes with old | moved
    · rw [before] at old
      cases old
    · exact stays moved
  · rintro ⟨low, high, not⟩
    have before : m.skip e = false := by
      rw [Bool.eq_false_iff] at not ⊢
      exact fun yes => not (markSiblings_mono yes)
    obtain ⟨p, there⟩ := (live e).mpr ⟨low, high, before⟩
    by_cases stays : Stays (mergedCell m l) p
    · exact ⟨p, mem_coarseLeaves.mpr (.inr ⟨there, stays⟩)⟩
    · simp only [Stays, not_forall] at stays
      obtain ⟨c, q, path, gone⟩ := stays
      rw [Bool.not_eq_false] at gone
      by_cases zero : c = 0
      · refine ⟨q, mem_coarseLeaves.mpr (.inl ⟨gone, ?_⟩)⟩
        rw [← zero, ← path]
        exact there
      · exfalso
        rw [skipped, Bool.eq_false_iff] at not
        exact not ((markSiblings_iff h quiet _ _ there).mpr
          (.inr ⟨c, (tail c).mpr zero, q, path, gone⟩))

theorem doCoarsen_mapped (live : ∀ x ∈ l, m.skip x.1 = false) :
    Mapped (doCoarsen m) (coarseLeaves l (mergedCell m l)) where
  mesh := coarsened_mesh h quiet
  order := coarsened_order h quiet live
  tree := coarsened_tree h quiet
  faces := coarsened_faces h quiet

end Pass

end Baseliner.UaCoarsenPass
