import Baseliner.UaRefine

/-! `do_refine` as a whole: the numbers of the new elements, their places in the Morton order,
their tree codes, and the faces that the main loop leaves behind. -/

namespace Baseliner.UaRefinePass

open LoopEntries OctreePaths UaAdapt UaLeaves UaParallelOrders UaRefine

def refined (m : Mesh) (miel : ℕ) : Bool := decide (m.ich (m.mtToId miel) = 4)

section Plan

variable {m : Mesh} {miel : ℕ}

theorem front_eq (low : 1 ≤ miel) (high : miel ≤ m.nelt) :
    (refinePlan m).front miel = upTo (refined m) miel := by
  have start : (fun miel => if m.ich (m.mtToId miel) ≠ 4 then 0 else 1) =
      fun miel => if refined m miel then 1 else 0 := by
    funext miel
    by_cases marked : m.ich (m.mtToId miel) = 4
    · simp [refined, marked]
    · simp [refined, marked]
  rw [refinePlan]
  simp only [start]
  exact parallelAdd_upTo _ _ low high

theorem upTo_here (low : 1 ≤ miel) :
    upTo (refined m) miel =
      upTo (refined m) (miel - 1) + if m.ich (m.mtToId miel) = 4 then 1 else 0 := by
  obtain ⟨k, rfl⟩ : ∃ k, miel = k + 1 := ⟨miel - 1, by omega⟩
  rw [upTo_succ, Nat.add_sub_cancel]
  simp only [refined, decide_eq_true_eq]

theorem refinedIndex_eq (low : 1 ≤ miel) (high : miel ≤ m.nelt) :
    refinedIndex m (refinePlan m).front miel = miel + upTo (refined m) (miel - 1) * 7 := by
  have here := upTo_here (m := m) low
  rw [refinedIndex, front_eq low high]
  split_ifs at here ⊢ with marked
  · rw [here, Nat.add_sub_cancel]
  · rw [here, Nat.add_zero]

theorem refinedIndex_lt {other : ℕ} (low : 1 ≤ miel) (before : miel < other)
    (high : other ≤ m.nelt) :
    refinedIndex m (refinePlan m).front miel +
        (if m.ich (m.mtToId miel) = 4 then 7 else 0) <
      refinedIndex m (refinePlan m).front other := by
  have here := upTo_here (m := m) low
  have mono := upTo_mono (refined m) (show miel ≤ other - 1 by omega)
  rw [refinedIndex_eq low (by omega), refinedIndex_eq (by omega) high]
  split_ifs at here ⊢ with marked
  · omega
  · omega

theorem map_action_eq (pos : 1 ≤ m.nelt) :
    (List.range' 1 ((refinePlan m).front m.nelt)).map (refinePlan m).action =
      (List.range' 1 m.nelt).filter (refined m) := by
  have stored : (refinePlan m).action = (List.range' 1 m.nelt).foldl (fun f miel =>
      if refined m miel then
        Function.update f ((refinePlan m).front miel) miel else f) fun _ => 0 := by
    simp only [refined, decide_eq_true_eq]
    rfl
  rw [front_eq pos le_rfl, stored]
  exact map_foldl_action _ _ _ _ fun x low high => front_eq low high

end Plan

section Numbers

variable {m : Mesh} {l : Leaves} (h : Mapped m l) {miel : ℕ}

include h

theorem refFrontId_eq (low : 1 ≤ miel) (high : miel ≤ m.nelt) :
    (refinePlan m).refFrontId (m.mtToId miel) = m.nelt + upTo (refined m) (miel - 1) * 7 := by
  have stored : (refinePlan m).refFrontId = (List.range' 1 m.nelt).foldl (fun f miel =>
      Function.update f (m.mtToId miel)
        (m.nelt + (refinedIndex m (refinePlan m).front miel - miel))) fun _ => 0 := rfl
  rw [stored, foldl_update_self _ _ _ List.nodup_range'
    (List.mem_range'_1.mpr ⟨low, by omega⟩), refinedIndex_eq low high, Nat.add_sub_cancel_left]
  intro j hj same
  obtain ⟨low', high'⟩ := List.mem_range'_1.mp hj
  exact h.mtToId_injective low' (by omega) low high same

theorem marked_leaf {x : ℕ × Path} (hx : x ∈ l) : ∃ miel, 1 ≤ miel ∧ miel ≤ m.nelt ∧
    leafAt l miel = x ∧ m.mtToId miel = x.1 ∧
    (refinePlan m).refFrontId x.1 = m.nelt + upTo (refined m) (miel - 1) * 7 := by
  obtain ⟨miel, low, high, rfl⟩ := h.exists_leafAt hx
  refine ⟨miel, low, high, rfl, (h.leafAt_fst low high).symm, ?_⟩
  rw [h.leafAt_fst low high, refFrontId_eq h low high]

theorem marked_of_mapped (known : ∀ x ∈ l, x.1 ≤ m.nelt)
    (allowed : ∀ x ∈ l, m.ich x.1 = 4 → ∀ f, (m.face x.1 f).cbc ≠ 1) :
    Marked l m.ich (refinePlan m).refFrontId m.nelt m.face := by
  refine ⟨h.mesh, h.faces, allowed, known, ?_, ?_⟩
  · intro x hx _
    obtain ⟨miel, -, -, -, -, number⟩ := marked_leaf h hx
    rw [number]
    exact Nat.le_add_right ..
  · intro x hx y hy marked marked' other c d first second
    have pos : 0 < c.val := Fin.pos_iff_ne_zero.mpr first
    have pos' : 0 < d.val := Fin.pos_iff_ne_zero.mpr second
    obtain ⟨i, low, high, rfl, id, number⟩ := marked_leaf h hx
    obtain ⟨j, low', high', rfl, id', number'⟩ := marked_leaf h hy
    have here := upTo_here (m := m) low
    have there := upTo_here (m := m) low'
    rw [id, if_pos marked] at here
    rw [id', if_pos marked'] at there
    rw [number, number']
    have apart : i ≠ j := fun same => other (congrArg (leafAt l) same)
    rcases Nat.lt_or_gt_of_ne apart with before | behind
    · have mono := upTo_mono (refined m) (show i ≤ j - 1 by omega)
      omega
    · have mono := upTo_mono (refined m) (show j ≤ i - 1 by omega)
      omega

end Numbers

section Loop

def refineAt (plan : RefinePlan) (m : Mesh) (miel : ℕ) : Mesh :=
  let iel := plan.old miel
  let nelt := plan.nelttemp + (plan.front miel - 1) * 7
  { m with
    mtToId := (List.range' 1 7).foldl (fun f j =>
      Function.update f (miel + (plan.front miel - 1) * 7 + j) (nelt + j)) m.mtToId
    tree := (List.range' 1 7).foldl (fun f j =>
      Function.update f (nelt + j) (shiftTree (m.tree iel) + j % 8))
      (Function.update m.tree iel (shiftTree (m.tree iel)))
    face := (List.finRange 6).foldl (refineFace m.ich plan.refFrontId iel nelt (m.face iel))
      (zeroFaces iel nelt m.face) }

def refineTree (R : ℕ → ℕ) (iel : ℕ) (tree : ℕ → ℕ) : ℕ → ℕ :=
  (List.range' 1 7).foldl (fun f j =>
    Function.update f (R iel + j) (shiftTree (tree iel) + j % 8))
    (Function.update tree iel (shiftTree (tree iel)))

variable {R : ℕ → ℕ} {iel : ℕ} {tree : ℕ → ℕ}

theorem refineTree_kid (below : iel ≤ R iel) (c : Child) :
    refineTree R iel tree (kid R iel c) = shiftTree (tree iel) + c := by
  by_cases first : c = 0
  · subst first
    rw [kid_zero, refineTree, foldl_update_other, Function.update_self]
    · rfl
    · intro j hj
      obtain ⟨low, -⟩ := List.mem_range'_1.mp hj
      omega
  · have pos : 0 < c.val := Fin.pos_iff_ne_zero.mpr first
    have less := c.isLt
    have own := foldl_update_self (fun j => R iel + j) (fun j => shiftTree (tree iel) + j % 8)
      (Function.update tree iel (shiftTree (tree iel)))
      List.nodup_range' (List.mem_range'_1.mpr ⟨pos, by omega⟩ : c.val ∈ List.range' 1 7)
      fun j _ same => by omega
    rw [kid_of_ne first, refineTree, own, Nat.mod_eq_of_lt less]

theorem refineTree_other {e : ℕ} (other : ∀ c, e ≠ kid R iel c) :
    refineTree R iel tree e = tree e := by
  rw [refineTree, foldl_update_other, Function.update_of_ne]
  · have first := other 0
    rwa [kid_zero] at first
  · intro j hj
    obtain ⟨low, high⟩ := List.mem_range'_1.mp hj
    have next := other ⟨j, by omega⟩
    rwa [kid_of_ne (by rw [Ne, Fin.ext_iff]; simp only [Fin.val_zero]; omega)] at next

end Loop

section Turns

variable {m : Mesh} {l : Leaves} (h : Mapped m l)

def marks (m : Mesh) : List ℕ := (List.range' 1 m.nelt).filter (refined m)

theorem mem_marks {m : Mesh} {miel : ℕ} :
    miel ∈ marks m ↔ 1 ≤ miel ∧ miel ≤ m.nelt ∧ m.ich (m.mtToId miel) = 4 := by
  rw [marks, List.mem_filter, List.mem_range'_1, refined, decide_eq_true_eq]
  omega

def placed (m : Mesh) : ℕ → ℕ :=
  (List.range' 1 m.nelt).foldl (fun f miel =>
    Function.update f (refinedIndex m (refinePlan m).front miel) (m.mtToId miel))
    (CountingScatter.clear 1 m.nelt m.mtToId)

include h

theorem doRefine_eq : doRefine m =
    { (marks m).foldl (refineAt (refinePlan m)) { m with mtToId := placed m } with
      nelt := m.nelt + upTo (refined m) m.nelt * 7 } := by
  have turns : (List.range' 1 ((refinePlan m).front m.nelt)).foldl (refineOne (refinePlan m))
      { m with mtToId := placed m } =
      (marks m).foldl (refineAt (refinePlan m)) { m with mtToId := placed m } := by
    rw [marks, ← map_action_eq h.nelt_pos, List.foldl_map]
    rfl
  rw [← turns, ← front_eq h.nelt_pos le_rfl]
  rfl

theorem number_eq {miel : ℕ} (member : miel ∈ marks m) :
    m.nelt + ((refinePlan m).front miel - 1) * 7 =
        (refinePlan m).refFrontId (m.mtToId miel) ∧
      miel + ((refinePlan m).front miel - 1) * 7 =
        refinedIndex m (refinePlan m).front miel := by
  obtain ⟨low, high, marked⟩ := mem_marks.mp member
  have here := upTo_here (m := m) low
  rw [if_pos marked] at here
  rw [refFrontId_eq h low high, refinedIndex_eq low high, front_eq low high, here,
    Nat.add_sub_cancel]
  exact ⟨rfl, rfl⟩

theorem foldl_refineAt (s : Mesh) (same : s.ich = m.ich) {ys : List ℕ}
    (among : ∀ miel ∈ ys, miel ∈ marks m) :
    (ys.foldl (refineAt (refinePlan m)) s).face = ys.foldl (fun T miel =>
        refineTables m.ich (refinePlan m).refFrontId (m.mtToId miel) T) s.face ∧
      (ys.foldl (refineAt (refinePlan m)) s).tree = ys.foldl (fun tree miel =>
        refineTree (refinePlan m).refFrontId (m.mtToId miel) tree) s.tree ∧
      (ys.foldl (refineAt (refinePlan m)) s).mtToId = ys.foldl (fun f miel =>
        (List.range' 1 7).foldl (fun f j => Function.update f
          (refinedIndex m (refinePlan m).front miel + j)
          ((refinePlan m).refFrontId (m.mtToId miel) + j)) f) s.mtToId := by
  induction ys generalizing s with
  | nil => exact ⟨rfl, rfl, rfl⟩
  | cons miel ys ih =>
      obtain ⟨number, place⟩ := number_eq h (among miel (List.mem_cons_self ..))
      obtain ⟨faces, tree, order⟩ := ih (refineAt (refinePlan m) s miel) same
        fun y hy => among y (List.mem_cons_of_mem _ hy)
      have old : (refinePlan m).old miel = m.mtToId miel := rfl
      have temp : (refinePlan m).nelttemp = m.nelt := rfl
      simp only [List.foldl_cons]
      rw [faces, tree, order]
      refine ⟨?_, ?_, ?_⟩
      · simp only [refineAt, old, temp, number, same]
        rfl
      · simp only [refineAt, old, temp, number]
        rfl
      · simp only [refineAt, old, temp, number, place]

end Turns

section Result

variable {m : Mesh} {l : Leaves} (h : Mapped m l) (known : ∀ x ∈ l, 1 ≤ x.1 ∧ x.1 ≤ m.nelt)
  (allowed : ∀ x ∈ l, m.ich x.1 = 4 → ∀ f, (m.face x.1 f).cbc ≠ 1)

def refinedLeaves (m : Mesh) (l : Leaves) : Leaves := newLeaves l m.ich (refinePlan m).refFrontId

include h

theorem map_leafAt_marks :
    (marks m).map (leafAt l) = l.filter fun x => decide (m.ich x.1 = 4) := by
  have same : marks m =
      (List.range' 1 m.nelt).filter ((fun x => decide (m.ich x.1 = 4)) ∘ leafAt l) := by
    refine List.filter_congr fun miel range => ?_
    obtain ⟨low, high⟩ := List.mem_range'_1.mp range
    rw [Function.comp_apply, h.leafAt_fst low (by omega)]
    rfl
  rw [same, ← List.filter_map, h.map_leafAt_eq]

theorem foldl_marks {σ : Type*} (S : σ → ℕ → σ) (s : σ) :
    (marks m).foldl (fun s miel => S s (m.mtToId miel)) s =
      (l.filter fun x => decide (m.ich x.1 = 4)).foldl (fun s x => S s x.1) s := by
  rw [← map_leafAt_marks h, List.foldl_map]
  refine List.foldl_ext _ _ _ fun s miel member => ?_
  obtain ⟨low, high, -⟩ := mem_marks.mp member
  rw [h.leafAt_fst low high]

theorem doRefine_face : (doRefine m).face =
    (l.filter fun x => decide (m.ich x.1 = 4)).foldl (fun T x =>
      refineTables m.ich (refinePlan m).refFrontId x.1 T) m.face := by
  rw [doRefine_eq h, ← foldl_marks h
    (fun T iel => refineTables m.ich (refinePlan m).refFrontId iel T)]
  exact (foldl_refineAt h { m with mtToId := placed m } rfl fun _ member => member).1

theorem doRefine_tree : (doRefine m).tree =
    (l.filter fun x => decide (m.ich x.1 = 4)).foldl (fun tree x =>
      refineTree (refinePlan m).refFrontId x.1 tree) m.tree := by
  rw [doRefine_eq h, ← foldl_marks h
    (fun tree iel => refineTree (refinePlan m).refFrontId iel tree)]
  exact (foldl_refineAt h { m with mtToId := placed m } rfl fun _ member => member).2.1

include known allowed

theorem refined_faces : ∀ x ∈ refinedLeaves m l, ∀ f,
    FaceOk (refinedLeaves m l) x.2 f ((doRefine m).face x.1 f) := by
  have given := marked_of_mapped h (fun x hx => (known x hx).2) allowed
  have start : Refining l m.ich (refinePlan m).refFrontId m.face [] m.face := by
    refine ⟨fun x hx => (List.not_mem_nil hx).elim, fun _ _ _ _ _ => rfl,
      fun x hx => (List.not_mem_nil hx).elim, ?_, fun _ _ _ _ _ => rfl⟩
    rintro x - - f ⟨-, y, hy, -⟩
    exact (List.not_mem_nil hy).elim
  have once : l.Nodup := List.Nodup.of_map _ h.mesh.ids
  have run := refining_foldl given _ (once.filter fun x => decide (m.ich x.1 = 4)) (D := [])
    (fun x hx => by
      obtain ⟨hx, marked⟩ := List.mem_filter.mp hx
      exact ⟨hx, of_decide_eq_true marked, List.not_mem_nil⟩) start
  rw [← doRefine_face h] at run
  refine faces_of_refined given run fun x hx marked => ?_
  rw [List.append_nil, List.mem_reverse, List.mem_filter]
  exact ⟨hx, decide_eq_true marked⟩

theorem refined_code {x : ℕ × Path} (hx : x ∈ l) (marked : m.ich x.1 = 4) (c : Child) :
    (doRefine m).tree (kid (refinePlan m).refFrontId x.1 c) = shiftTree (m.tree x.1) + c := by
  have given := marked_of_mapped h (fun x hx => (known x hx).2) allowed
  have once : (l.filter fun x => decide (m.ich x.1 = 4)).Nodup :=
    (List.Nodup.of_map _ h.mesh.ids).filter _
  have below : x.1 ≤ (refinePlan m).refFrontId x.1 :=
    (known x hx).2.trans (given.fresh x hx marked)
  have own := view_owner
    (fun (tree : ℕ → ℕ) c => tree (kid (refinePlan m).refFrontId x.1 c)) once
    (S := fun x tree => refineTree (refinePlan m).refFrontId x.1 tree)
    (List.mem_filter.mpr ⟨hx, decide_eq_true marked⟩) (fun tree tree' same => ?_)
    (fun z hz other tree => ?_) m.tree
  · rw [doRefine_tree h]
    exact (congrFun own c).trans (refineTree_kid below c)
  · funext d
    have parent := congrFun same 0
    simp only [kid_zero] at parent
    rw [refineTree_kid below, refineTree_kid below, parent]
  · funext d
    obtain ⟨hz, marked'⟩ := List.mem_filter.mp hz
    exact refineTree_other
      fun e => given.kid_ne_kid hz (of_decide_eq_true marked') hx marked other e d

theorem refined_tree (fits : ∀ x ∈ l, m.ich x.1 = 4 → m.tree x.1 * 8 < 2 ^ 32) :
    ∀ x ∈ refinedLeaves m l, (doRefine m).tree x.1 = code x.2 := by
  have given := marked_of_mapped h (fun x hx => (known x hx).2) allowed
  intro y hy
  rcases mem_newLeaves.mp hy with ⟨x, hx, marked, c, rfl⟩ | ⟨hy', stays⟩
  · rw [refined_code h known allowed hx marked, shiftTree, Nat.mod_eq_of_lt (fits x hx marked),
      h.tree x hx, code, Nat.mul_comm]
  · rw [doRefine_tree h, ← h.tree y hy']
    refine view_untouched (fun tree : ℕ → ℕ => tree y.1) (fun z hz tree => ?_) m.tree
    obtain ⟨hz, marked⟩ := List.mem_filter.mp hz
    refine refineTree_other fun c => given.kid_ne hz (of_decide_eq_true marked) hy' ?_ c
    rintro rfl
    exact stays (of_decide_eq_true marked)

end Result

section Order

variable {m : Mesh} {l : Leaves} (h : Mapped m l)

include h

theorem doRefine_mtToId : (doRefine m).mtToId = (marks m).foldl (fun f miel =>
    (List.range' 1 7).foldl (fun f j => Function.update f
      (refinedIndex m (refinePlan m).front miel + j)
      ((refinePlan m).refFrontId (m.mtToId miel) + j)) f) (placed m) := by
  rw [doRefine_eq h]
  exact (foldl_refineAt h { m with mtToId := placed m } rfl fun _ member => member).2.2

variable {miel : ℕ} (low : 1 ≤ miel) (high : miel ≤ m.nelt)

include low high

omit h in
theorem place_ne {other i j : ℕ} (member : other ∈ marks m) (apart : other ≠ miel)
    (children : m.ich (m.mtToId miel) = 4 ∨ i = 0) (hi : i ≤ 7) (hj : 1 ≤ j ∧ j < 1 + 7) :
    refinedIndex m (refinePlan m).front miel + i ≠
      refinedIndex m (refinePlan m).front other + j := by
  obtain ⟨low', high', marked⟩ := mem_marks.mp member
  rcases Nat.lt_or_gt_of_ne apart with before | behind
  · have less := refinedIndex_lt low' before high
    rw [if_pos marked] at less
    omega
  · have less := refinedIndex_lt low behind high'
    rcases children with marked' | rfl
    · rw [if_pos marked'] at less
      omega
    · omega

theorem refined_place :
    (doRefine m).mtToId (refinedIndex m (refinePlan m).front miel) = m.mtToId miel := by
  have kept : (doRefine m).mtToId (refinedIndex m (refinePlan m).front miel) =
      placed m (refinedIndex m (refinePlan m).front miel) := by
    rw [doRefine_mtToId h]
    refine view_untouched
      (fun f : ℕ → ℕ => f (refinedIndex m (refinePlan m).front miel)) (fun y hy f => ?_) _
    refine foldl_update_other fun j hj => ?_
    obtain ⟨first, last⟩ := List.mem_range'_1.mp hj
    by_cases same : y = miel
    · subst same
      omega
    · exact place_ne low high hy same (.inr rfl) (Nat.zero_le 7) ⟨first, last⟩
  rw [kept, placed]
  refine foldl_update_self _ _ _ List.nodup_range'
    (List.mem_range'_1.mpr ⟨low, by omega⟩) fun y hy same => ?_
  obtain ⟨low', high'⟩ := List.mem_range'_1.mp hy
  rcases Nat.lt_trichotomy y miel with before | here | behind
  · have less := refinedIndex_lt low' before high
    omega
  · exact here
  · have less := refinedIndex_lt low behind (show y ≤ m.nelt by omega)
    omega

theorem refined_child (marked : m.ich (m.mtToId miel) = 4) {j : ℕ} (first : 1 ≤ j) (last : j ≤ 7) :
    (doRefine m).mtToId (refinedIndex m (refinePlan m).front miel + j) =
      (refinePlan m).refFrontId (m.mtToId miel) + j := by
  have member : miel ∈ marks m := mem_marks.mpr ⟨low, high, marked⟩
  have stored (f : ℕ → ℕ) : (List.range' 1 7).foldl (fun f j => Function.update f
      (refinedIndex m (refinePlan m).front miel + j)
      ((refinePlan m).refFrontId (m.mtToId miel) + j)) f
      (refinedIndex m (refinePlan m).front miel + j) =
        (refinePlan m).refFrontId (m.mtToId miel) + j :=
    foldl_update_self _ _ f List.nodup_range' (List.mem_range'_1.mpr ⟨first, by omega⟩)
      fun i _ same => Nat.add_left_cancel same
  rw [doRefine_mtToId h]
  refine (view_owner (fun f : ℕ → ℕ => f (refinedIndex m (refinePlan m).front miel + j))
    (List.Nodup.filter _ List.nodup_range') member ?_ ?_ (placed m)).trans (stored _)
  · intro f f' _
    rw [stored, stored]
  · intro y hy other f
    refine foldl_update_other fun i hi => ?_
    obtain ⟨low', high'⟩ := List.mem_range'_1.mp hi
    exact place_ne low high hy other (.inl marked) last ⟨low', high'⟩

omit low high

def refinedBlock (m : Mesh) (miel : ℕ) : List ℕ :=
  if m.ich (m.mtToId miel) = 4 then
    (List.finRange 8).map (kid (refinePlan m).refFrontId (m.mtToId miel))
  else [m.mtToId miel]

omit h in
theorem length_refinedBlocks (n : ℕ) :
    (blocks (refinedBlock m) n).length = n + upTo (refined m) n * 7 := by
  induction n with
  | zero => rfl
  | succ n ih =>
      have here := upTo_here (m := m) (show 1 ≤ n + 1 by omega)
      rw [Nat.add_sub_cancel] at here
      rw [blocks_succ, List.length_append, ih, here, refinedBlock]
      split_ifs with marked
      · rw [List.length_map, List.length_finRange]
        omega
      · rw [List.length_singleton]
        omega

theorem blocks_refinedBlock :
    blocks (refinedBlock m) m.nelt = (refinedLeaves m l).map Prod.fst := by
  rw [refinedLeaves, newLeaves, List.map_flatMap]
  conv_rhs => rw [← h.map_leafAt_eq]
  rw [List.flatMap_map, blocks]
  refine List.flatMap_congr fun miel range => ?_
  obtain ⟨low, high⟩ := List.mem_range'_1.mp range
  rw [h.leafAt_fst low (by omega), refinedBlock]
  split_ifs with marked
  · rw [List.map_map]
    rfl
  · rw [List.map_singleton, h.leafAt_fst low (by omega)]

theorem refined_order : (List.range' 1 (doRefine m).nelt).map (doRefine m).mtToId =
    (refinedLeaves m l).map Prod.fst := by
  have count : (doRefine m).nelt = (blocks (refinedBlock m) m.nelt).length := by
    rw [length_refinedBlocks, doRefine_eq h]
  rw [count, ← blocks_refinedBlock h]
  refine map_range'_blocks _ _ _ fun x hx j id found => ?_
  have place : 1 + (blocks (refinedBlock m) x).length =
      refinedIndex m (refinePlan m).front (x + 1) := by
    rw [length_refinedBlocks, refinedIndex_eq (by omega) (by omega), Nat.add_sub_cancel]
    omega
  rw [place]
  by_cases marked : m.ich (m.mtToId (x + 1)) = 4
  · rw [refinedBlock, if_pos marked, List.getElem?_map, Option.map_eq_some_iff] at found
    obtain ⟨c, found, rfl⟩ := found
    obtain ⟨inside, rfl⟩ := List.getElem?_eq_some_iff.mp found
    rw [List.getElem_finRange]
    rw [List.length_finRange] at inside
    rcases Nat.eq_zero_or_pos j with rfl | pos
    · exact (refined_place h (by omega) (by omega)).trans kid_zero.symm
    · have other : (⟨j, inside⟩ : Child) ≠ 0 := fun zero => pos.ne' (Fin.ext_iff.mp zero)
      rw [refined_child h (by omega) (by omega) marked pos (by omega)]
      exact (kid_of_ne other).symm
  · rw [refinedBlock, if_neg marked, List.getElem?_singleton] at found
    split_ifs at found with first
    obtain rfl := Option.some.inj found
    subst first
    exact refined_place h (by omega) (by omega)

end Order

section Pass

variable {m : Mesh} {l : Leaves} (h : Mapped m l) (known : ∀ x ∈ l, 1 ≤ x.1 ∧ x.1 ≤ m.nelt)
  (allowed : ∀ x ∈ l, m.ich x.1 = 4 → ∀ f, (m.face x.1 f).cbc ≠ 1)

include h

theorem refined_octree : ∃ t : Octree, t.leaves [] = (refinedLeaves m l).map Prod.snd := by
  obtain ⟨t, leaves⟩ := h.mesh.octree
  let marked (p : Path) : Bool := l.any fun x => decide (x.2 = p ∧ m.ich x.1 = 4)
  have marked_iff : ∀ x ∈ l, marked x.2 = true ↔ m.ich x.1 = 4 := by
    intro x hx
    simp only [marked, List.any_eq_true, decide_eq_true_eq]
    constructor
    · rintro ⟨y, hy, path, four⟩
      rwa [← h.mesh.eq_of_suffix hy hx (by rw [path])]
    · intro four
      exact ⟨x, hx, rfl, four⟩
  refine ⟨t.split marked [], ?_⟩
  rw [Octree.leaves_split, leaves, List.flatMap_map, refinedLeaves, newLeaves, List.map_flatMap]
  refine List.flatMap_congr fun x hx => ?_
  by_cases four : m.ich x.1 = 4
  · rw [if_pos ((marked_iff x hx).mpr four), if_pos four, List.map_map]
    rfl
  · rw [if_neg fun yes => four ((marked_iff x hx).mp yes), if_neg four]
    rfl

include known allowed

theorem refined_ids : ((refinedLeaves m l).map Prod.fst).Nodup := by
  have given := marked_of_mapped h (fun x hx => (known x hx).2) allowed
  rw [refinedLeaves, newLeaves, List.map_flatMap, List.nodup_flatMap]
  refine ⟨fun x hx => ?_, ?_⟩
  · by_cases marked : m.ich x.1 = 4
    · rw [if_pos marked, List.map_map]
      refine List.Nodup.map (fun c d same => ?_) (List.nodup_finRange 8)
      exact kid_injective ((known x hx).2.trans (given.fresh x hx marked)) same
    · rw [if_neg marked]
      exact List.nodup_singleton _
  · refine (List.Nodup.of_map _ h.mesh.ids).pairwise_of_forall_ne fun x hx y hy other => ?_
    intro id first second
    simp only at first second
    by_cases marked : m.ich x.1 = 4
    · rw [if_pos marked, List.map_map] at first
      obtain ⟨c, -, rfl⟩ := List.mem_map.mp first
      by_cases marked' : m.ich y.1 = 4
      · rw [if_pos marked', List.map_map] at second
        obtain ⟨d, -, same⟩ := List.mem_map.mp second
        exact given.kid_ne_kid hx marked hy marked' other c d same
      · rw [if_neg marked', List.map_singleton, List.mem_singleton] at second
        exact given.kid_ne hx marked hy other c second.symm
    · rw [if_neg marked, List.map_singleton, List.mem_singleton] at first
      subst first
      by_cases marked' : m.ich y.1 = 4
      · rw [if_pos marked', List.map_map] at second
        obtain ⟨d, -, same⟩ := List.mem_map.mp second
        exact given.kid_ne hy marked' hx (Ne.symm other) d same.symm
      · rw [if_neg marked', List.map_singleton, List.mem_singleton] at second
        exact other (List.inj_on_of_nodup_map h.mesh.ids hx hy second)

omit allowed in
theorem refined_known :
    ∀ x ∈ refinedLeaves m l, 1 ≤ x.1 ∧ x.1 ≤ (doRefine m).nelt := by
  intro y hy
  have count : (doRefine m).nelt = m.nelt + upTo (refined m) m.nelt * 7 := by rw [doRefine_eq h]
  rw [count]
  rcases mem_newLeaves.mp hy with ⟨x, hx, marked, c, rfl⟩ | ⟨hy', -⟩
  · obtain ⟨miel, low, high, -, id, number⟩ := marked_leaf h hx
    have here := upTo_here (m := m) low
    have mono := upTo_mono (refined m) high
    have range := known x hx
    rw [id, if_pos marked] at here
    simp only [kid]
    split_ifs
    · omega
    · rw [number]
      omega
  · have range := known y hy'
    omega

theorem doRefine_mapped (fits : ∀ x ∈ l, m.ich x.1 = 4 → m.tree x.1 * 8 < 2 ^ 32) :
    Mapped (doRefine m) (refinedLeaves m l) where
  mesh := ⟨refined_octree h, refined_ids h known allowed⟩
  order := refined_order h
  tree := refined_tree h known allowed fits
  faces := refined_faces h known allowed

end Pass

end Baseliner.UaRefinePass
