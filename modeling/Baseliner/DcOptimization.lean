import Baseliner.DcCube
import Baseliner.DcFastPaths

/-! `ComputeGivenGroupbys` of the DC benchmark with `OPTIMIZATION`, next to the build
without. `GetParent` promises an order of the parent's rows, which the two fast paths
rely on; with it they agree with the plain path as long as their buffers hold. -/

namespace Baseliner.DcOptimization

open KeyedSums DcPartition DcTree DcRuns DcMerge DcCube DcFastPaths

variable {nm : Nat}

/-- The build with `OPTIMIZATION`; `left` is the tree of an earlier view, which is only looked at
for a parent without rows. -/
def optimizedMake (memoryLimit : Nat) (left : RBTree nm) : Make nm := fun parent nv rows =>
  match parent with
  | some .prefixedParent => prefixedAggregate memoryLimit nv rows
  | some .sharedSortParent => sharedSortAggregate memoryLimit nv left rows
  | _ => plainView memoryLimit nv rows

section Order

variable {nTopDims : Nat}

theorem testBit_setLeadingOnes32 {n i : Nat} (few : n ≤ 32) (inside : i < 32) :
    (setLeadingOnes32 n).testBit (31 - i) = decide (i < n) := by
  have all : ∀ n < 33, ∀ i < 32, (setLeadingOnes32 n).testBit (31 - i) = decide (i < n) := by
    decide +kernel
  exact all n (by omega) i inside

theorem bit_eq (mask : Nat) {i : Nat} (inside : i < 32) :
    decide (mask &&& (MLB32 >>> i) ≠ 0) = mask.testBit (31 - i) := by
  rw [Bool.eq_iff_iff, decide_eq_true_iff]
  exact and_shiftRight_ne_zero mask (Nat.le_of_lt_succ inside)

theorem filter_below {l : List Nat} (ascending : l.Pairwise (· < ·)) (p : Nat → Bool) (n : Nat) :
    l.filter p = l.filter (fun i => p i && decide (i < n)) ++
      l.filter fun i => p i && decide (n ≤ i) := by
  induction l with
  | nil => rfl
  | cons a l ih =>
      rw [List.pairwise_cons] at ascending
      by_cases below : a < n
      · have above : ¬ n ≤ a := by omega
        by_cases kept : p a = true
        · simp [below, above, kept, ih ascending.2]
        · simp [kept, ih ascending.2]
      · have none : (a :: l).filter (fun i => p i && decide (i < n)) = [] := by
          refine List.filter_eq_nil_iff.mpr ?_
          intro i hi
          have : a ≤ i := by
            rcases List.mem_cons.mp hi with rfl | later
            · exact le_rfl
            · exact (ascending.1 i later).le
          simp
          omega
        rw [none, List.nil_append]
        refine List.filter_congr ?_
        intro i hi
        have : n ≤ i := by
          rcases List.mem_cons.mp hi with rfl | later
          · omega
          · have := ascending.1 i later
            omega
        simp [this]

theorem prefixed_dims (few : nTopDims ≤ 32) {groupby grpb : Nat}
    (promised : grpb &&& setLeadingOnes32 (mro32 groupby) = groupby) :
    ∃ rest, getRegTupleFromBin32 grpb nTopDims =
      getRegTupleFromBin32 groupby nTopDims ++ rest := by
  have bound : mro32 groupby ≤ 32 := Nat.sub_le ..
  have view : (List.range nTopDims).filter (fun i => groupby &&& (MLB32 >>> i) ≠ 0) =
      (List.range nTopDims).filter fun i =>
        decide (grpb &&& (MLB32 >>> i) ≠ 0) && decide (i < mro32 groupby) := by
    refine List.filter_congr ?_
    intro i hi
    have inside : i < 32 := (List.mem_range.mp hi).trans_le few
    rw [bit_eq groupby inside, bit_eq grpb inside]
    generalize mro32 groupby = n at promised bound ⊢
    rw [← promised, Nat.testBit_and, testBit_setLeadingOnes32 bound inside]
  rw [getRegTupleFromBin32, getRegTupleFromBin32, view,
    filter_below List.pairwise_lt_range _ (mro32 groupby), List.map_append]
  exact ⟨_, rfl⟩

theorem head?_dims {mask m : Nat} (inside : m < nTopDims) (set : mask &&& (MLB32 >>> m) ≠ 0)
    (first : ∀ i < m, mask &&& (MLB32 >>> i) = 0) :
    (getRegTupleFromBin32 mask nTopDims).head? = some (m + 1) := by
  rw [getRegTupleFromBin32, List.head?_map, List.head?_filter,
    List.find?_range_eq_some.mpr ⟨by simpa using set, List.mem_range.mpr inside, ?_⟩]
  · rfl
  · intro j less
    simpa using first j less

theorem sharedSort_head (few : nTopDims ≤ 32) {groupby grpb : Nat}
    (some_ : getRegTupleFromBin32 groupby nTopDims ≠ [])
    (promised : grpb &&& setOneBit32 0 (mlo32 groupby) ≠ 0 ∧
      grpb &&& setLeadingOnes32 (mlo32 groupby) = 0) :
    (getRegTupleFromBin32 grpb nTopDims).head? =
      (getRegTupleFromBin32 groupby nTopDims).head? := by
  obtain ⟨a, member⟩ := List.exists_mem_of_ne_nil _ some_
  obtain ⟨i, listed, _⟩ := List.mem_map.mp member
  obtain ⟨range, bit⟩ := List.mem_filter.mp listed
  have inside := List.mem_range.mp range
  -- `mlo32` finds the first attribute of the view
  have found : mlo32 groupby ≤ i := by
    rw [mlo32]
    by_contra later
    have none := List.not_of_lt_findIdx (Nat.lt_of_not_le later)
    rw [List.getElem_range] at none
    rw [none] at bit
    cases bit
  have length : mlo32 groupby < (List.range 32).length := by
    rw [List.length_range]
    omega
  obtain ⟨here, earlier⟩ := (List.findIdx_eq length).mp (Eq.refl (mlo32 groupby))
  rw [List.getElem_range] at here
  have before : ∀ j < mlo32 groupby, groupby &&& (MLB32 >>> j) = 0 := by
    intro j less
    have none := earlier j less
    rw [List.getElem_range] at none
    simpa using none
  have own : grpb &&& (MLB32 >>> mlo32 groupby) ≠ 0 := by
    have bits := promised.1
    rwa [setOneBit32, Nat.zero_or] at bits
  have ownBefore : ∀ j < mlo32 groupby, grpb &&& (MLB32 >>> j) = 0 := by
    intro j less
    have low : j < 32 := by omega
    by_contra set
    have bit := (bit_eq grpb low).symm.trans (decide_eq_true set)
    have both : (grpb &&& setLeadingOnes32 (mlo32 groupby)).testBit (31 - j) = true := by
      rw [Nat.testBit_and, bit, testBit_setLeadingOnes32 (by omega) low]
      simpa using less
    rw [promised.2, Nat.zero_testBit] at both
    cases both
  rw [head?_dims (found.trans_lt inside) own ownBefore,
    head?_dims (found.trans_lt inside) (of_decide_eq_true here) before]

theorem lt_of_take_lt {a b : List Nat} {n : Nat} (less : a.take n < b.take n)
    (length : a.length = b.length) : a < b := by
  induction n generalizing a b with
  | zero => exact absurd less (by simp)
  | succ n ih =>
      cases a with
      | nil =>
          rw [List.length_eq_zero_iff.mp length.symm] at less
          exact absurd less (lt_irrefl _)
      | cons x xs =>
          cases b with
          | nil => cases length
          | cons y ys =>
              rw [List.take_succ_cons, List.take_succ_cons] at less
              rw [List.cons_lt_cons_iff] at less ⊢
              exact less.imp_right fun ⟨same, rest⟩ => ⟨same, ih rest (Nat.succ.inj length)⟩

theorem headD_le_headD {a b : List Nat} (a_some : a ≠ []) (b_some : b ≠ []) (le : a ≤ b) :
    a.headD 0 ≤ b.headD 0 := by
  by_contra less
  exact absurd le (not_le_of_gt (lt_of_headD_lt b_some a_some (Nat.lt_of_not_le less)))

variable {input : List (Row nm)} {made : List Nat} {cube : Cube nm}

theorem exists_attributes {sel : List Nat} {r : Row nm} (member : r ∈ viewOf input sel) :
    ∃ f : Nat → Nat, r.1 = sel.map f := by
  obtain ⟨y, hy, key⟩ := List.mem_map.mp (mem_groupBy_key.mp (List.mem_map_of_mem member))
  obtain ⟨x, _, rfl⟩ := List.mem_map.mp hy
  exact ⟨_, key.symm⟩

theorem ordered_of_parent (few : nTopDims ≤ 32) {bin : Nat} {job : Job} {parent : Parent}
    (some_ : getRegTupleFromBin64 bin nTopDims ≠ [])
    (covers : groupbyMask nTopDims bin &&& job.grpb = groupbyMask nTopDims bin)
    (promised : Promised (groupbyMask nTopDims bin) job parent) {rows : List (Row nm)}
    (own : rows = (viewOf input (getRegTupleFromBin32 job.grpb nTopDims)).map
      (selectToView (getRegTupleFromParent bin job.grpb nTopDims))) :
    (parent = .prefixedParent → rows.Pairwise fun x y => x.1 ≤ y.1) ∧
      (parent = .sharedSortParent → rows.Pairwise fun x y => x.1.headD 0 ≤ y.1.headD 0) := by
  have places := getRegTupleFromParent_spec few covers
  have view := getRegTupleFromBin32_groupbyMask bin few
  have ascending : (viewOf input (getRegTupleFromBin32 job.grpb nTopDims)).Pairwise
      fun x y => x.1 < y.1 := ascending_groupBy _
  -- the key of a row in the view, from the attributes of the parent's row
  have cut {r : Row nm} {f : Nat → Nat}
      (attributes : r.1 = (getRegTupleFromBin32 job.grpb nTopDims).map f) :
      (selectToView (getRegTupleFromParent bin job.grpb nTopDims) r).1 =
        (getRegTupleFromBin64 bin nTopDims).map f := by
    rw [selectToView, attributes]
    exact places f
  subst own
  rw [List.pairwise_map, List.pairwise_map]
  constructor
  · rintro rfl
    obtain ⟨rest, dims⟩ := prefixed_dims few promised
    rw [view] at dims
    have front {r : Row nm} (member : r ∈ viewOf input (getRegTupleFromBin32 job.grpb nTopDims)) :
        (selectToView (getRegTupleFromParent bin job.grpb nTopDims) r).1 =
          r.1.take (getRegTupleFromBin64 bin nTopDims).length := by
      obtain ⟨f, attributes⟩ := exists_attributes member
      rw [cut attributes, attributes, dims, List.map_append,
        List.take_left' (by rw [List.length_map])]
    refine ascending.imp_of_mem ?_
    intro x y hx hy less
    rw [front hx, front hy]
    by_contra more
    have length : y.1.length = x.1.length := by rw [key_viewOf hx, key_viewOf hy]
    exact lt_asymm less (lt_of_take_lt (lt_of_not_ge more) length)
  · rintro rfl
    have first := sharedSort_head few (by rw [view]; exact some_) promised
    rw [view] at first
    have dims : getRegTupleFromBin32 job.grpb nTopDims ≠ [] := by
      intro none
      rw [none] at first
      exact some_ (List.head?_eq_none_iff.mp first.symm)
    have front {r : Row nm} (member : r ∈ viewOf input (getRegTupleFromBin32 job.grpb nTopDims)) :
        (selectToView (getRegTupleFromParent bin job.grpb nTopDims) r).1.headD 0 =
          r.1.headD 0 ∧ r.1 ≠ [] := by
      obtain ⟨f, attributes⟩ := exists_attributes member
      rw [cut attributes, attributes, List.headD_eq_head?_getD, List.headD_eq_head?_getD,
        List.head?_map, List.head?_map, first]
      exact ⟨rfl, fun none => dims (List.map_eq_nil_iff.mp none)⟩
    refine ascending.imp_of_mem ?_
    intro x y hx hy less
    rw [(front hx).1, (front hy).1]
    exact headD_le_headD (front hx).2 (front hy).2 less.le

/-- The rows of a prefixed or a shared-sort parent come in the order the fast paths need. -/
theorem ordered_sourceRows (few : nTopDims ≤ 32) (size : 0 < nm)
    (h : Built nTopDims input made cube) {bin : Nat} {parent : Option Parent}
    {rows : List (Row nm)} (some_ : getRegTupleFromBin64 bin nTopDims ≠ [])
    (source : sourceRows nTopDims input cube bin = some (parent, rows)) :
    (parent = some .prefixedParent → rows.Pairwise fun x y => x.1 ≤ y.1) ∧
      (parent = some .sharedSortParent →
        rows.Pairwise fun x y => x.1.headD 0 ≤ y.1.headD 0) := by
  cases found : getParent nTopDims cube.jpp (groupbyMask nTopDims bin) with
  | none =>
      rw [sourceRows, found] at source
      cases source
      constructor <;> rintro ⟨⟩
  | some choice =>
      obtain ⟨kind, level, job⟩ := choice
      obtain ⟨_, covers, promised, own⟩ := h.parentRows size found
      rw [own] at source
      obtain ⟨rfl, rows⟩ := Prod.mk.inj (Option.some.inj source)
      have order := ordered_of_parent few some_ covers promised rows.symm
      exact ⟨fun same => order.1 (Option.some.inj same),
        fun same => order.2 (Option.some.inj same)⟩

end Order

section Runs

variable {nTopDims memoryLimit : Nat} {input : List (Row nm)} {made : List Nat} {cube : Cube nm}
  {left : RBTree nm}

/-- A round of a run: the kind of the parent, and the rows cut to the view's attributes. -/
structure Step (nm : Nat) where
  parent : Option Parent
  nv : Nat
  rows : List (Row nm)

def steps (make : Make nm) (nTopDims : Nat) (input : List (Row nm)) :
    (groupbyFile : List (List Nat)) → Cube nm → List (Step nm)
  | [], _ => []
  | record :: groupbyFile, cube =>
      match sourceRows nTopDims input cube (binRepTuple record) with
      | none => []
      | some (parent, rows) =>
          let nv := (getRegTupleFromBin64 (binRepTuple record) nTopDims).length
          ⟨parent, nv, rows⟩ ::
            match make parent nv rows with
            | .ok w => steps make nTopDims input groupbyFile
                (cube.addView nTopDims (binRepTuple record) w)
            | _ => []

def Step.Fine (memoryLimit : Nat) (left : RBTree nm) (step : Step nm) : Prop :=
  match step.parent with
  | some .prefixedParent => PrefixedFine memoryLimit step.nv step.rows
  | some .sharedSortParent => SharedSortFine memoryLimit step.nv left step.rows
  | _ => True

instance (memoryLimit : Nat) (left : RBTree nm) (step : Step nm) :
    Decidable (step.Fine memoryLimit left) :=
  match step with
  | ⟨none, _, _⟩ => isTrue trivial
  | ⟨some .smallestParent, _, _⟩ => isTrue trivial
  | ⟨some .prefixedParent, nv, rows⟩ =>
      inferInstanceAs (Decidable (PrefixedFine memoryLimit nv rows))
  | ⟨some .sharedSortParent, nv, rows⟩ =>
      inferInstanceAs (Decidable (SharedSortFine memoryLimit nv left rows))

def Step.Agrees (memoryLimit : Nat) (left : RBTree nm) (step : Step nm) : Prop :=
  ∃ w : Written nm, optimizedMake memoryLimit left step.parent step.nv step.rows = .ok w ∧
    plainMake memoryLimit step.parent step.nv step.rows = .ok w

theorem Step.Fine.agrees (limit : memoryLimit < 2 ^ 32) (size : 0 < nm) {step : Step nm}
    (dims : 0 < step.nv) (fine : step.Fine memoryLimit left)
    (keys : ∀ r ∈ step.rows, r.1.length = step.nv)
    (order : (step.parent = some .prefixedParent → step.rows.Pairwise fun x y => x.1 ≤ y.1) ∧
      (step.parent = some .sharedSortParent →
        step.rows.Pairwise fun x y => x.1.headD 0 ≤ y.1.headD 0))
    {w v : Written nm} (plain : plainView memoryLimit step.nv step.rows = .ok w)
    (optimized : optimizedMake memoryLimit left step.parent step.nv step.rows = .ok v) : v = w := by
  have record : 0 < getRecSize step.nv nm := by
    simp only [getRecSize, DIM_FSZ, MSR_FSZ]
    omega
  obtain ⟨parent, nv, rows⟩ := step
  dsimp only at dims keys order plain optimized record
  have same (made : plainView memoryLimit nv rows = .ok v) : v = w := by
    rw [plain] at made
    cases made
    rfl
  cases parent with
  | none => exact same optimized
  | some kind =>
      cases kind with
      | smallestParent => exact same optimized
      | prefixedParent =>
          have made : prefixedAggregate memoryLimit nv rows = .ok v := optimized
          rw [prefixed_agrees limit record keys (order.1 rfl) fine plain] at made
          cases made
          rfl
      | sharedSortParent =>
          exact sharedSort_agrees dims limit record keys (order.2 rfl) fine plain optimized

theorem plainView_right (limit : memoryLimit < 2 ^ 32) {nv : Nat} (size : 0 < getRecSize nv nm)
    {rows : List (Row nm)} (keys : ∀ r ∈ rows, r.1.length = nv) {w : Written nm}
    (plain : plainView memoryLimit nv rows = .ok w) :
    w.rows = groupBy rows ∧ w.nViewRows = w.rows.length := by
  by_cases none : rows = []
  · rw [none, plainView_nil] at plain
    cases plain
    rw [none]
    simp [groupBy]
  · obtain ⟨_, _, ⟨_, rfl⟩ | ⟨_, rfl⟩⟩ := plainView_ok limit size none keys plain
    · simp
    · simp

theorem agrees_run (few : nTopDims ≤ 20) (size : 0 < nm) (limit : memoryLimit < 2 ^ 32)
    (left : RBTree nm) (file : List (List Nat)) (h : Built nTopDims input made cube)
    (pending : Pending nTopDims input made (masks nTopDims file))
    (fine : ∀ step ∈ steps (optimizedMake memoryLimit left) nTopDims input file cube,
      step.Fine memoryLimit left) {plain optimized : Cube nm}
    (ran : computeGivenGroupbys (plainMake memoryLimit) nTopDims input file cube = .ok plain)
    (ran' : computeGivenGroupbys (optimizedMake memoryLimit left) nTopDims input file cube =
      .ok optimized) :
    (∀ step ∈ steps (optimizedMake memoryLimit left) nTopDims input file cube,
      step.Agrees memoryLimit left) ∧ optimized = plain := by
  induction file generalizing made cube with
  | nil =>
      cases ran
      cases ran'
      exact ⟨by simp [steps], rfl⟩
  | cons record file ih =>
      rw [masks, List.map_cons, ← masks] at pending
      have most : nm ≤ MAX_NUM_OF_MEAS := by
        by_contra more
        rw [computeGivenGroupbys, computeGroupby, if_pos (by omega)] at ran
        cases ran
      obtain ⟨parent, rows, source, spec, round, next⟩ :=
        h.computeGroupby few size most pending (plainMake memoryLimit)
      obtain ⟨_, _, source', _, round', _⟩ :=
        h.computeGroupby few size most pending (optimizedMake memoryLimit left)
      rw [source] at source'
      cases source'
      rw [computeGivenGroupbys, round] at ran
      rw [computeGivenGroupbys, round'] at ran'
      rw [steps, source] at fine ⊢
      dsimp only at fine ⊢
      rw [List.forall_mem_cons] at fine
      have dims := pending.some_ _ (List.mem_append_right _ (List.mem_cons_self ..))
      rw [getRegTupleFromBin32_groupbyMask _ (show nTopDims ≤ 32 by omega)] at dims
      have order := ordered_sourceRows (show nTopDims ≤ 32 by omega) size h dims source
      generalize binRepTuple record = bin at *
      have record : 0 < getRecSize (getRegTupleFromBin64 bin nTopDims).length nm := by
        simp only [getRecSize, DIM_FSZ, MSR_FSZ]
        omega
      cases view : plainMake memoryLimit parent (getRegTupleFromBin64 bin nTopDims).length
          rows with
      | error retCode =>
          rw [view] at ran
          cases ran
      | undefined =>
          rw [view] at ran
          cases ran
      | ok w =>
          cases view' : optimizedMake memoryLimit left parent
              (getRegTupleFromBin64 bin nTopDims).length rows with
          | error retCode =>
              rw [view'] at ran'
              cases ran'
          | undefined =>
              rw [view'] at ran'
              cases ran'
          | ok v =>
              rw [view] at ran
              rw [view'] at ran' fine
              have same : v = w := fine.1.agrees limit size (List.length_pos_iff.mpr dims) spec.keys
                order view view'
              subst same
              obtain ⟨grouped, count⟩ := plainView_right limit record spec.keys view
              obtain ⟨agree, equal⟩ := ih (next v grouped count) pending.next fine.2 ran ran'
              refine ⟨?_, equal⟩
              rw [List.forall_mem_cons]
              exact ⟨⟨v, view', view⟩, agree⟩

/-- When both builds finish, and every round of the fast paths is one whose buffer holds, each
view is the one the plain path makes from the same parent, and so is the whole cube. -/
theorem optimized_views_agree (measures : 1 ≤ nm) (few : nTopDims ≤ 20)
    (input : List (Row nm)) (limit : memoryLimit < 2 ^ 32) (groupbyFile : List (List Nat))
    (distinct : (readGroupbys nTopDims groupbyFile).Nodup)
    (some_ : ∀ sel ∈ readGroupbys nTopDims groupbyFile, sel ≠ [])
    (small : ∀ sel ∈ readGroupbys nTopDims groupbyFile,
      (viewOf input sel).length * getRecSize sel.length nm < 2 ^ 32)
    (left : RBTree nm) {plain optimized : Cube nm}
    (ran : computeGivenGroupbys (plainMake memoryLimit) nTopDims input groupbyFile (newCube nm) =
      .ok plain)
    (ran' : computeGivenGroupbys (optimizedMake memoryLimit left) nTopDims input groupbyFile
      (newCube nm) = .ok optimized)
    (fine : ∀ step ∈ steps (optimizedMake memoryLimit left) nTopDims input groupbyFile
      (newCube nm), step.Fine memoryLimit left) :
    (∀ step ∈ steps (optimizedMake memoryLimit left) nTopDims input groupbyFile (newCube nm),
      step.Agrees memoryLimit left) ∧ optimized = plain :=
  agrees_run few measures limit left groupbyFile (built_new nTopDims input)
    (pending_start few distinct some_ small) fine ran ran'

end Runs

section Inputs

def oneHead : List (Row 1) :=
  [([1, 2, 1], fun _ => 1), ([1, 1, 1], fun _ => 1), ([1, 3, 2], fun _ => 1)]

def threeViews : List (List Nat) :=
  [groupbyRecord [1, 2, 3], groupbyRecord [1, 2], groupbyRecord [1, 3]]

theorem exists_ok {α : Type*} {x : Outcome α} (ends : x.isOk = true) : ∃ a, x = .ok a := by
  cases x with
  | ok a => exact ⟨a, rfl⟩
  | error retCode => cases ends
  | undefined => cases ends

theorem optimized_views_agree_oneHead :
    ∃ cube, computeGivenGroupbys (plainMake 112) 3 oneHead threeViews (newCube 1) = .ok cube ∧
      computeGivenGroupbys (optimizedMake 112 (emptyTree 112 3)) 3 oneHead threeViews
        (newCube 1) = .ok cube ∧
      (steps (optimizedMake 112 (emptyTree 112 3)) 3 oneHead threeViews (newCube 1)).map
        Step.parent = [none, some .prefixedParent, some .sharedSortParent] ∧
      ∀ step ∈ steps (optimizedMake 112 (emptyTree 112 3)) 3 oneHead threeViews (newCube 1),
        step.Agrees 112 (emptyTree 112 3) := by
  obtain ⟨plain, ran⟩ := exists_ok (show (computeGivenGroupbys (plainMake 112) 3 oneHead threeViews
    (newCube 1)).isOk = true by decide +kernel)
  obtain ⟨optimized, ran'⟩ := exists_ok (show (computeGivenGroupbys
    (optimizedMake 112 (emptyTree 112 3)) 3 oneHead threeViews (newCube 1)).isOk = true by
      decide +kernel)
  obtain ⟨agree, same⟩ := optimized_views_agree (by decide) (by decide) oneHead (by decide)
    threeViews (by decide +kernel) (by decide +kernel) (by decide +kernel) (emptyTree 112 3) ran
    ran' (by decide +kernel)
  rw [same] at ran'
  exact ⟨plain, ran, ran', by decide +kernel, agree⟩

def summary (made : Outcome (Written nm)) : Option (Nat × (Fin nm → Int)) :=
  match made with
  | .ok w => some (w.nViewRows, w.checksums)
  | _ => none

theorem not_agrees_of_summary {memoryLimit : Nat} {left : RBTree nm} {step : Step nm}
    (differ : summary (optimizedMake memoryLimit left step.parent step.nv step.rows) ≠
      summary (plainMake memoryLimit step.parent step.nv step.rows)) :
    ¬ step.Agrees memoryLimit left := by
  rintro ⟨w, optimized, plain⟩
  exact differ (by rw [optimized, plain])

def nineRows : List (Row 1) := (List.range 9).map fun i => ([i, 0], fun _ => 1)

def twoHeads : List (Row 1) :=
  [([1, 1, 1], fun _ => 1), ([2, 1, 1], fun _ => 1), ([2, 1, 2], fun _ => 1)]

/-- The ninth row of a prefixed view is weighted as the first, and a shared-sort view counts
only the rows of its last part; in both runs both builds finish. -/
theorem full_buffers_differ :
    ((computeGivenGroupbys (plainMake 96) 2 nineRows [groupbyRecord [1, 2], groupbyRecord [1]]
        (newCube 1)).isOk = true ∧
      (computeGivenGroupbys (optimizedMake 96 (emptyTree 96 2)) 2 nineRows
        [groupbyRecord [1, 2], groupbyRecord [1]] (newCube 1)).isOk = true ∧
      ¬ ∀ step ∈ steps (optimizedMake 96 (emptyTree 96 2)) 2 nineRows
        [groupbyRecord [1, 2], groupbyRecord [1]] (newCube 1),
          step.Agrees 96 (emptyTree 96 2)) ∧
    (computeGivenGroupbys (plainMake 112) 3 twoHeads
        [groupbyRecord [1, 2, 3], groupbyRecord [1, 3]] (newCube 1)).isOk = true ∧
      (computeGivenGroupbys (optimizedMake 112 (emptyTree 112 3)) 3 twoHeads
        [groupbyRecord [1, 2, 3], groupbyRecord [1, 3]] (newCube 1)).isOk = true ∧
      ¬ ∀ step ∈ steps (optimizedMake 112 (emptyTree 112 3)) 3 twoHeads
        [groupbyRecord [1, 2, 3], groupbyRecord [1, 3]] (newCube 1),
          step.Agrees 112 (emptyTree 112 3) := by
  have first : ∃ step ∈ steps (optimizedMake 96 (emptyTree 96 2)) 2 nineRows
      [groupbyRecord [1, 2], groupbyRecord [1]] (newCube 1),
      summary (optimizedMake 96 (emptyTree 96 2) step.parent step.nv step.rows) ≠
        summary (plainMake 96 step.parent step.nv step.rows) := by decide +kernel
  have second : ∃ step ∈ steps (optimizedMake 112 (emptyTree 112 3)) 3 twoHeads
      [groupbyRecord [1, 2, 3], groupbyRecord [1, 3]] (newCube 1),
      summary (optimizedMake 112 (emptyTree 112 3) step.parent step.nv step.rows) ≠
        summary (plainMake 112 step.parent step.nv step.rows) := by decide +kernel
  refine ⟨⟨by decide +kernel, by decide +kernel, ?_⟩, by decide +kernel, by decide +kernel, ?_⟩
  · obtain ⟨step, member, differ⟩ := first
    exact fun all => not_agrees_of_summary differ (all step member)
  · obtain ⟨step, member, differ⟩ := second
    exact fun all => not_agrees_of_summary differ (all step member)

end Inputs

end Baseliner.DcOptimization
