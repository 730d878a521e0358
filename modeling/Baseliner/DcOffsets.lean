import Baseliner.DcCube

/-! The byte offsets of the views in the job pool of the DC benchmark. Every round of
`ComputeGivenGroupbys` appends a view to the view file, records it in a slot of its layer with
the offset counted up so far, and adds the size of the view, a product of two `unsigned int`s,
to that offset. -/

namespace Baseliner.DcOffsets

open LayeredPool KeyedSums DcTree DcRuns DcMerge DcPartition DcCube

variable {nm nTopDims : ℕ}

/-- A view that a round made: its `binRepTuple` and what was written. -/
abbrev Made (nm : ℕ) := ℕ × Written nm

/-- `nv` of a view. -/
def nvOf (nTopDims : ℕ) (v : Made nm) : ℕ := (getRegTupleFromBin64 v.1 nTopDims).length

def rounds (nTopDims : ℕ) : Cube nm → List (Made nm) → Cube nm
  | cube, [] => cube
  | cube, v :: views => rounds nTopDims (cube.addView nTopDims v.1 v.2) views

/-- The rows of a view have its attributes, and their number is an `unsigned int`. -/
structure Finished (nTopDims : ℕ) (v : Made nm) : Prop where
  count : v.2.nViewRows = v.2.rows.length
  small : v.2.rows.length < 2 ^ 32
  keys : ∀ r ∈ v.2.rows, r.1.length = nvOf nTopDims v

def bytesOf (v : Made nm) : ℕ := (v.2.rows.map recSize).sum

/-- The views have different selections, none of them empty. -/
structure Distinct (nTopDims : ℕ) (views : List (Made nm)) : Prop where
  nodup : (views.map fun v => getRegTupleFromBin64 v.1 nTopDims).Nodup
  some_ : ∀ v ∈ views, getRegTupleFromBin64 v.1 nTopDims ≠ []

/-- The slot of view `k`: behind the first of its layer as many as there were views before. -/
def slot (nTopDims : ℕ) (views : List (Made nm)) (k : ℕ) : ℕ :=
  match views[k]? with
  | none => 0
  | some v => layerIndex nTopDims (nvOf nTopDims v) +
      (rounds nTopDims (newCube nm) (views.take k)).jpp.population (nvOf nTopDims v)

/-- The byte of the view file at which view `k` begins. -/
def position (views : List (Made nm)) (k : ℕ) : ℕ := ((views.take k).map bytesOf).sum

/-- The job pool is right behind the rounds: no two views share a slot, and every view's slot has
its mask, its number of rows and the offset of its first row, where its rows are read again. -/
structure RightOffsets (nTopDims : ℕ) (views : List (Made nm)) : Prop where
  apart : ∀ i < views.length, ∀ j < views.length,
    slot nTopDims views i = slot nTopDims views j → i = j
  jobs : ∀ k v, views[k]? = some v →
    let cube := rounds nTopDims (newCube nm) views
    let job := cube.jpp.slots (slot nTopDims views k)
    job.grpb = groupbyMask nTopDims v.1 ∧ job.nRows = v.2.rows.length ∧
      job.viewOffset = position views k ∧
      readRows cube.viewFile job.viewOffset job.nv job.nRows = some v.2.rows

section Rounds

theorem rounds_append (cube : Cube nm) (views more : List (Made nm)) :
    rounds nTopDims cube (views ++ more) = rounds nTopDims (rounds nTopDims cube views) more := by
  induction views generalizing cube with
  | nil => rfl
  | cons v views ih => exact ih _

theorem rounds_concat (cube : Cube nm) (views : List (Made nm)) (v : Made nm) :
    rounds nTopDims cube (views ++ [v]) =
      (rounds nTopDims cube views).addView nTopDims v.1 v.2 := rounds_append cube views [v]

def countedBytes (nTopDims : ℕ) (v : Made nm) : ℕ :=
  v.2.nViewRows * getRecSize (nvOf nTopDims v) nm % 2 ^ 32

theorem rounds_spec (views : List (Made nm)) :
    (rounds nTopDims (newCube nm) views).viewFile = views.flatMap (fun v => v.2.rows) ∧
      (rounds nTopDims (newCube nm) views).accViewFileOffset =
        (views.map (countedBytes nTopDims)).sum ∧
      ∀ l, (rounds nTopDims (newCube nm) views).jpp.population l =
        views.countP fun v => nvOf nTopDims v = l := by
  induction views using List.reverseRecOn with
  | nil => exact ⟨rfl, rfl, fun _ => rfl⟩
  | append_singleton views v ih =>
      obtain ⟨file, offset, population⟩ := ih
      rw [rounds_concat]
      refine ⟨?_, ?_, fun l => ?_⟩
      · simp [Cube.addView, file]
      · simp [Cube.addView, offset, countedBytes, nvOf]
      · rw [List.countP_append, ← population l]
        by_cases own : nvOf nTopDims v = l
        · subst own
          simp [Cube.addView, Pool.push, nvOf]
        · have other : l ≠ (getRegTupleFromBin64 v.1 nTopDims).length := Ne.symm own
          simp [Cube.addView, Pool.push, other, own]

theorem slot_eq {views : List (Made nm)} {k : ℕ} {v : Made nm} (here : views[k]? = some v) :
    slot nTopDims views k = layerIndex nTopDims (nvOf nTopDims v) +
      (views.take k).countP fun u => nvOf nTopDims u = nvOf nTopDims v := by
  rw [slot, here]
  dsimp only
  rw [(rounds_spec (views.take k)).2.2]

theorem countP_take_lt {views : List (Made nm)} {i j : ℕ} {u : Made nm} (here : views[i]? = some u)
    (less : i < j) {p : Made nm → Bool} (own : p u = true) :
    (views.take i).countP p < (views.take j).countP p := by
  have split : views.take (i + 1) = views.take i ++ [u] := by
    rw [List.take_add_one, here]
    rfl
  have more : (views.take (i + 1)).countP p ≤ (views.take j).countP p :=
    (List.take_sublist_take_left (show i + 1 ≤ j by omega)).countP_le
  rw [split, List.countP_append, List.countP_singleton, if_pos own] at more
  omega

theorem Distinct.take {views : List (Made nm)} (h : Distinct nTopDims views) (k : ℕ) :
    Distinct nTopDims (views.take k) where
  nodup := by
    rw [List.map_take]
    exact h.nodup.sublist (List.take_sublist _ _)
  some_ := fun v member => h.some_ v (List.mem_of_mem_take member)

theorem Distinct.countP_le {views : List (Made nm)} (few : nTopDims ≤ 20)
    (h : Distinct nTopDims views) (l : ℕ) :
    (views.countP fun v => nvOf nTopDims v = l) ≤ layerQuantityLimit nTopDims l := by
  have room := length_le_layer h.nodup (by
    intro sel member
    obtain ⟨v, _, rfl⟩ := List.mem_map.mp member
    rw [← getRegTupleFromBin32_groupbyMask v.1 (by omega)]
    exact getRegTupleFromBin32_sublist _ _) (by
    intro sel member
    obtain ⟨v, listed, rfl⟩ := List.mem_map.mp member
    exact h.some_ v listed) l
  rw [List.filter_map, List.length_map] at room
  rw [List.countP_eq_length_filter]
  exact room

theorem Distinct.slot_injective {views : List (Made nm)} (few : nTopDims ≤ 20)
    (h : Distinct nTopDims views) {i j : ℕ} {u v : Made nm} (less : i < j)
    (first : views[i]? = some u) (second : views[j]? = some v) :
    slot nTopDims views i ≠ slot nTopDims views j := by
  rw [slot_eq first, slot_eq second]
  have apart := @apart_layers nTopDims few
  have inside {k l : ℕ} {w : Made nm} (here : views[k]? = some w) (level : nvOf nTopDims w = l) :
      ((views.take k).countP fun x => nvOf nTopDims x = l) < layerQuantityLimit nTopDims l := by
    have more := @countP_take_lt nm views k (k + 1) w here (by omega)
      (fun x => nvOf nTopDims x = l) (by simpa using level)
    have room := (h.take (k + 1)).countP_le few l
    omega
  rcases lt_trichotomy (nvOf nTopDims u) (nvOf nTopDims v) with below | same | above
  · have := apart _ _ below
    have := inside first rfl
    omega
  · rw [same]
    have := countP_take_lt (p := fun x => nvOf nTopDims x = nvOf nTopDims v) first less
      (by simpa using same)
    omega
  · have := apart _ _ above
    have := inside second rfl
    omega

theorem Distinct.slots {views : List (Made nm)} (few : nTopDims ≤ 20)
    (h : Distinct nTopDims views) {k : ℕ} {v : Made nm} (here : views[k]? = some v) :
    (rounds nTopDims (newCube nm) views).jpp.slots (slot nTopDims views k) =
      ⟨groupbyMask nTopDims v.1, nvOf nTopDims v, v.2.nViewRows,
        ((views.take k).map (countedBytes nTopDims)).sum⟩ := by
  induction views using List.reverseRecOn with
  | nil => cases here
  | append_singleton views w ih =>
      have inside : k < (views ++ [w]).length := (List.getElem?_eq_some_iff.mp here).1
      rw [List.length_append, List.length_singleton] at inside
      have last : (views ++ [w])[views.length]? = some w := by simp
      have own : slot nTopDims (views ++ [w]) views.length =
          layerIndex nTopDims (nvOf nTopDims w) +
            (rounds nTopDims (newCube nm) views).jpp.population (nvOf nTopDims w) := by
        rw [slot, last]
        dsimp only
        rw [List.take_left]
      rcases Nat.lt_succ_iff_lt_or_eq.mp inside with earlier | rfl
      · have old : views[k]? = some v := by rwa [List.getElem?_append_left earlier] at here
        have front : Distinct nTopDims views := by
          have part := h.take views.length
          rwa [List.take_left] at part
        have kept : slot nTopDims (views ++ [w]) k = slot nTopDims views k := by
          rw [slot_eq here, slot_eq old, List.take_append_of_le_length earlier.le]
        have differ := h.slot_injective few earlier here last
        rw [own, kept] at differ
        rw [kept, rounds_concat, List.take_append_of_le_length earlier.le, ← ih front old]
        exact Function.update_of_ne differ ..
      · rw [here] at last
        obtain rfl := Option.some.inj last
        rw [own, rounds_concat, List.take_left]
        simp only [Cube.addView, Pool.push, nvOf, Function.update_self]
        rw [(rounds_spec views).2.1]

end Rounds

section Offsets

theorem sum_mod_eq_iff {b : ℕ} (some_ : 0 < b) (l : List ℕ) :
    (l.map (· % b)).sum = l.sum ↔ ∀ x ∈ l, x < b := by
  have less (l : List ℕ) : (l.map (· % b)).sum ≤ l.sum := by
    induction l with
    | nil => rfl
    | cons x l ih =>
        have := Nat.mod_le x b
        rw [List.map_cons, List.sum_cons, List.sum_cons]
        omega
  induction l with
  | nil => simp
  | cons x l ih =>
      have rest := less l
      have first := Nat.mod_le x b
      rw [List.forall_mem_cons, List.map_cons, List.sum_cons, List.sum_cons]
      constructor
      · intro sum
        have same : x % b = x := by omega
        refine ⟨?_, ih.mp (by omega)⟩
        rw [← same]
        exact Nat.mod_lt _ some_
      · rintro ⟨small, others⟩
        rw [Nat.mod_eq_of_lt small, ih.mpr others]

theorem Finished.countedBytes_eq {v : Made nm} (h : Finished nTopDims v) :
    countedBytes nTopDims v = bytesOf v % 2 ^ 32 := by
  rw [countedBytes, bytesOf, sum_recSize h.keys, h.count]

theorem counted_iff {views : List (Made nm)} (finished : ∀ v ∈ views, Finished nTopDims v) :
    (∀ k < views.length,
        ((views.take k).map (countedBytes nTopDims)).sum = position views k) ↔
      ∀ v ∈ views.dropLast, bytesOf v < 2 ^ 32 := by
  have counted (k : ℕ) : (views.take k).map (countedBytes nTopDims) =
      ((views.take k).map bytesOf).map (· % 2 ^ 32) := by
    rw [List.map_map]
    exact List.map_congr_left fun v member =>
      (finished v (List.mem_of_mem_take member)).countedBytes_eq
  simp only [counted, position]
  constructor
  · intro all v member
    have some_ : 0 < views.length := by
      cases views with
      | nil => cases member
      | cons => exact Nat.zero_lt_succ _
    have last := (sum_mod_eq_iff (by decide) _).mp (all (views.length - 1) (by omega))
    rw [← List.dropLast_eq_take] at last
    exact last _ (List.mem_map_of_mem member)
  · intro small k inside
    refine (sum_mod_eq_iff (by decide) _).mpr ?_
    intro x member
    obtain ⟨v, early, rfl⟩ := List.mem_map.mp member
    refine small v ?_
    rw [List.dropLast_eq_take]
    exact (List.take_sublist_take_left (show k ≤ views.length - 1 by omega)).subset early

theorem readRows_position (size : 0 < nm) {views : List (Made nm)}
    (finished : ∀ v ∈ views, Finished nTopDims v) {k : ℕ} {v : Made nm}
    (here : views[k]? = some v) :
    readRows (views.flatMap fun v => v.2.rows) (position views k) (nvOf nTopDims v)
      v.2.rows.length = some v.2.rows := by
  obtain ⟨inside, rfl⟩ := List.getElem?_eq_some_iff.mp here
  have front : position views k =
      (((views.take k).flatMap fun v => v.2.rows).map recSize).sum := by
    rw [position]
    induction views.take k with
    | nil => rfl
    | cons u front ih =>
        rw [List.map_cons, List.sum_cons, ih, List.flatMap_cons, List.map_append, List.sum_append,
          bytesOf]
  have pieces : views.flatMap (fun v => v.2.rows) =
      (views.take k).flatMap (fun v => v.2.rows) ++
        (views[k].2.rows ++ (views.drop (k + 1)).flatMap fun v => v.2.rows) := by
    rw [← List.flatMap_cons (f := fun v : Made nm => v.2.rows), ← List.flatMap_append,
      List.getElem_cons_drop, List.take_append_drop]
  have sizes : ∀ r ∈ (views.take k).flatMap (fun v => v.2.rows), 0 < recSize r := by
    intro r _
    simp only [recSize, getRecSize, DIM_FSZ, MSR_FSZ]
    omega
  have keys := (finished _ (List.getElem_mem inside)).keys
  rw [readRows, front, pieces, seek_append sizes]
  dsimp only
  rw [List.take_left, if_pos ⟨by rw [List.length_append]; omega, keys⟩]

theorem rightOffsets_iff (size : 0 < nm) (few : nTopDims ≤ 20) {views : List (Made nm)}
    (finished : ∀ v ∈ views, Finished nTopDims v) (distinct : Distinct nTopDims views) :
    RightOffsets nTopDims views ↔ ∀ v ∈ views.dropLast, bytesOf v < 2 ^ 32 := by
  rw [← counted_iff finished]
  constructor
  · intro right k inside
    obtain ⟨_, _, offset, _⟩ := right.jobs k _ (List.getElem?_eq_getElem inside)
    rwa [distinct.slots few (List.getElem?_eq_getElem inside)] at offset
  · intro counted
    refine ⟨?_, ?_⟩
    · intro i hi j hj same
      have first := List.getElem?_eq_getElem hi
      have second := List.getElem?_eq_getElem hj
      rcases lt_trichotomy i j with before | here | behind
      · exact absurd same (distinct.slot_injective few before first second)
      · exact here
      · exact absurd same.symm (distinct.slot_injective few behind second first)
    · intro k v here
      obtain ⟨inside, rfl⟩ := List.getElem?_eq_some_iff.mp here
      have count := (finished _ (List.getElem_mem inside)).count
      dsimp only
      rw [distinct.slots few here, (rounds_spec views).1]
      refine ⟨rfl, count, counted k inside, ?_⟩
      dsimp only
      rw [counted k inside, count]
      exact readRows_position size finished here

end Offsets

section Making

variable {make : Make nm} {input : List (Row nm)} {cube cube' : Cube nm}

def madeViews (make : Make nm) (nTopDims : ℕ) (input : List (Row nm)) :
    (groupbyFile : List (List ℕ)) → Cube nm → List (Made nm)
  | [], _ => []
  | record :: groupbyFile, cube =>
      let bin := binRepTuple record
      match sourceRows nTopDims input cube bin with
      | none => []
      | some (parent, rows) =>
          match make parent (getRegTupleFromBin64 bin nTopDims).length rows with
          | .ok w => (bin, w) :: madeViews make nTopDims input groupbyFile
              (cube.addView nTopDims bin w)
          | _ => []

theorem round_of_run {record : List ℕ} {file : List (List ℕ)}
    (run : computeGivenGroupbys make nTopDims input (record :: file) cube = .ok cube') :
    ∃ parent rows w, sourceRows nTopDims input cube (binRepTuple record) = some (parent, rows) ∧
      make parent (nvOf nTopDims (binRepTuple record, w)) rows = .ok w ∧
      computeGivenGroupbys make nTopDims input file
        (cube.addView nTopDims (binRepTuple record) w) = .ok cube' ∧
      madeViews make nTopDims input (record :: file) cube = (binRepTuple record, w) ::
        madeViews make nTopDims input file (cube.addView nTopDims (binRepTuple record) w) := by
  rw [computeGivenGroupbys, computeGroupby] at run
  by_cases most : MAX_NUM_OF_MEAS < nm
  · rw [if_pos most] at run
    cases run
  · rw [if_neg most] at run
    cases source : sourceRows nTopDims input cube (binRepTuple record) with
    | none =>
        rw [source] at run
        cases run
    | some found =>
        obtain ⟨parent, rows⟩ := found
        rw [source] at run
        dsimp only at run
        cases view : make parent (getRegTupleFromBin64 (binRepTuple record) nTopDims).length
            rows with
        | ok w =>
            rw [view] at run
            exact ⟨parent, rows, w, rfl, view, run, by simp only [madeViews, source, view]⟩
        | error retCode =>
            rw [view] at run
            cases run
        | undefined =>
            rw [view] at run
            cases run

theorem rounds_madeViews {file : List (List ℕ)}
    (run : computeGivenGroupbys make nTopDims input file cube = .ok cube') :
    cube' = rounds nTopDims cube (madeViews make nTopDims input file cube) ∧
      (madeViews make nTopDims input file cube).map Prod.fst = file.map binRepTuple := by
  induction file generalizing cube with
  | nil =>
      cases run
      exact ⟨rfl, rfl⟩
  | cons record file ih =>
      obtain ⟨parent, rows, w, _, _, rest, views⟩ := round_of_run run
      obtain ⟨ends, names⟩ := ih rest
      rw [views, List.map_cons, names]
      exact ⟨ends, rfl⟩

/-- The rows that a view is made from, when no job has more than an `unsigned int` of them. -/
theorem source_rows (few : nTopDims ≤ 32) (nInputRecs : input.length < 2 ^ 32)
    (small : ∀ s, (cube.jpp.slots s).nRows < 2 ^ 32) {bin : ℕ} {parent : Option Parent}
    {rows : List (Row nm)} (source : sourceRows nTopDims input cube bin = some (parent, rows)) :
    rows.length < 2 ^ 32 ∧ ∀ r ∈ rows, r.1.length = (getRegTupleFromBin64 bin nTopDims).length := by
  rw [sourceRows] at source
  cases found : getParent nTopDims cube.jpp (groupbyMask nTopDims bin) with
  | none =>
      rw [found] at source
      cases source
      refine ⟨by rwa [List.length_map], fun r member => ?_⟩
      obtain ⟨x, _, rfl⟩ := List.mem_map.mp member
      exact List.length_map _
  | some choice =>
      obtain ⟨kind, level, job⟩ := choice
      rw [found] at source
      obtain ⟨read, seen, same⟩ := Option.map_eq_some_iff.mp source
      cases same
      obtain ⟨⟨listed, covers⟩, _⟩ := getParent_spec found
      obtain ⟨k, _, rfl⟩ := List.mem_map.mp listed
      have most := small (layerIndex nTopDims level + k)
      have taken : read.length ≤
          (cube.jpp.slots (layerIndex nTopDims level + k)).nRows := by
        rw [readRows] at seen
        split at seen
        · cases seen
        · split_ifs at seen
          cases seen
          exact List.length_take_le ..
      refine ⟨by rw [List.length_map]; omega, fun r member => ?_⟩
      obtain ⟨x, _, rfl⟩ := List.mem_map.mp member
      rw [selectToView, List.length_map, getRegTupleFromParent_eq few covers, List.length_map]

theorem plainView_rows {memoryLimit nv : ℕ} {rows : List (Row nm)} {w : Written nm}
    (limit : memoryLimit < 2 ^ 32) (size : 0 < getRecSize nv nm)
    (keys : ∀ r ∈ rows, r.1.length = nv) (view : plainView memoryLimit nv rows = .ok w) :
    w.rows = groupBy rows ∧ w.nViewRows = w.rows.length := by
  by_cases none : rows = []
  · rw [none, plainView_nil] at view
    cases view
    rw [none]
    exact ⟨rows_treeView [], by simp⟩
  · obtain ⟨_, _, ⟨_, rfl⟩ | ⟨_, rfl⟩⟩ := plainView_ok limit size none keys view
    · simp
    · simp

theorem finished_of_plain {memoryLimit bin : ℕ} {rows : List (Row nm)} {w : Written nm}
    (limit : memoryLimit < 2 ^ 32) (size : 0 < nm) (short : rows.length < 2 ^ 32)
    (keys : ∀ r ∈ rows, r.1.length = nvOf nTopDims (bin, w))
    (view : plainView memoryLimit (nvOf nTopDims (bin, w)) rows = .ok w) :
    Finished nTopDims (bin, w) := by
  have some_ : 0 < getRecSize (nvOf nTopDims (bin, w)) nm := by
    simp only [getRecSize, DIM_FSZ, MSR_FSZ]
    omega
  obtain ⟨grouped, count⟩ := plainView_rows limit some_ keys view
  have among {r : Row nm} (member : r ∈ w.rows) : r.1 ∈ rows.map Prod.fst := by
    rw [grouped] at member
    exact mem_groupBy_key.mp (List.mem_map_of_mem member)
  refine ⟨count, ?_, fun r member => ?_⟩
  · dsimp only
    refine lt_of_le_of_lt ?_ short
    rw [grouped] at among ⊢
    exact (ascending_groupBy rows).length_le fun r => among
  · obtain ⟨x, listed, same⟩ := List.mem_map.mp (among member)
    rw [← same]
    exact keys x listed

theorem finished_of_run {memoryLimit : ℕ} (limit : memoryLimit < 2 ^ 32) (size : 0 < nm)
    (few : nTopDims ≤ 32) (nInputRecs : input.length < 2 ^ 32) {file : List (List ℕ)}
    (small : ∀ s, (cube.jpp.slots s).nRows < 2 ^ 32)
    (run : computeGivenGroupbys (plainMake memoryLimit) nTopDims input file cube = .ok cube') :
    ∀ v ∈ madeViews (plainMake memoryLimit) nTopDims input file cube, Finished nTopDims v := by
  induction file generalizing cube with
  | nil => exact fun v member => nomatch member
  | cons record file ih =>
      obtain ⟨parent, rows, w, source, view, rest, views⟩ := round_of_run run
      obtain ⟨short, keys⟩ := source_rows few nInputRecs small source
      have own : Finished nTopDims (binRepTuple record, w) :=
        finished_of_plain limit size short keys view
      rw [views, List.forall_mem_cons]
      refine ⟨own, ih (fun s => ?_) rest⟩
      simp only [Cube.addView, Pool.push, Function.update_apply]
      split_ifs
      · rw [own.count]
        exact own.small
      · exact small s

/-- Of the views still to come none is empty and none made before. -/
structure Coming (nTopDims : ℕ) (made more : List ℕ) : Prop where
  distinct : ((made ++ more).map (getRegTupleFromBin32 · nTopDims)).Nodup
  some_ : ∀ mask ∈ made ++ more, getRegTupleFromBin32 mask nTopDims ≠ []

theorem Coming.fresh {made more : List ℕ} {mask : ℕ} (h : Coming nTopDims made (mask :: more)) :
    getRegTupleFromBin32 mask nTopDims ∉ made.map (getRegTupleFromBin32 · nTopDims) := by
  have distinct := h.distinct
  rw [List.map_append, List.nodup_append] at distinct
  intro old
  exact distinct.2.2 _ old _ (by simp) rfl

theorem Coming.next {made more : List ℕ} {mask : ℕ} (h : Coming nTopDims made (mask :: more)) :
    Coming nTopDims (made ++ [mask]) more := by
  have all : made ++ [mask] ++ more = made ++ mask :: more := by simp
  refine ⟨?_, ?_⟩
  · rw [all]
    exact h.distinct
  · rw [all]
    exact h.some_

theorem bytesOf_right {made : List ℕ} {memoryLimit bin : ℕ} (limit : memoryLimit < 2 ^ 32)
    (size : 0 < nm) (few : nTopDims ≤ 20) (h : Built nTopDims input made cube)
    (small : ∀ mask ∈ made, viewBytes nTopDims input mask < 2 ^ 32) {parent : Option Parent}
    {rows : List (Row nm)} (source : sourceRows nTopDims input cube bin = some (parent, rows))
    {w : Written nm} (view : plainMake memoryLimit parent (nvOf nTopDims (bin, w)) rows = .ok w) :
    (w.rows = viewOf input (getRegTupleFromBin32 (groupbyMask nTopDims bin) nTopDims) ∧
      w.nViewRows = w.rows.length) ∧
      bytesOf (bin, w) = viewBytes nTopDims input (groupbyMask nTopDims bin) := by
  obtain ⟨parent', rows', source', spec⟩ := h.source few size small bin
  rw [source] at source'
  cases source'
  have some_ : 0 < getRecSize (nvOf nTopDims (bin, w)) nm := by
    simp only [getRecSize, DIM_FSZ, MSR_FSZ]
    omega
  obtain ⟨grouped, count⟩ := plainView_rows limit some_ spec.keys view
  rw [spec.groupBy_eq, ← getRegTupleFromBin32_groupbyMask bin (by omega)] at grouped
  refine ⟨⟨grouped, count⟩, ?_⟩
  rw [bytesOf, viewBytes_eq, grouped]

theorem small_iff {memoryLimit : ℕ} (limit : memoryLimit < 2 ^ 32) (size : 0 < nm)
    (few : nTopDims ≤ 20) {made : List ℕ} {file : List (List ℕ)}
    (h : Built nTopDims input made cube)
    (small : ∀ mask ∈ made, viewBytes nTopDims input mask < 2 ^ 32)
    (coming : Coming nTopDims made (masks nTopDims file))
    (run : computeGivenGroupbys (plainMake memoryLimit) nTopDims input file cube = .ok cube') :
    (∀ v ∈ (madeViews (plainMake memoryLimit) nTopDims input file cube).dropLast,
        bytesOf v < 2 ^ 32) ↔
      ∀ mask ∈ (masks nTopDims file).dropLast, viewBytes nTopDims input mask < 2 ^ 32 := by
  induction file generalizing made cube with
  | nil => simp [madeViews, masks]
  | cons record file ih =>
      obtain ⟨parent, rows, w, source, view, rest, views⟩ := round_of_run run
      rw [views]
      cases file with
      | nil => simp [madeViews, masks]
      | cons next file =>
          obtain ⟨right, bytes⟩ := bytesOf_right limit size few h small source view
          have more : madeViews (plainMake memoryLimit) nTopDims input (next :: file)
              (cube.addView nTopDims (binRepTuple record) w) ≠ [] := by
            intro none
            have names := (rounds_madeViews rest).2
            rw [none] at names
            cases names
          rw [List.dropLast_cons_of_ne_nil more, List.forall_mem_cons, bytes]
          rw [masks, List.map_cons, List.map_cons, List.dropLast_cons_cons, List.forall_mem_cons,
            ← List.map_cons (f := fun record => groupbyMask nTopDims (binRepTuple record)), ← masks]
          refine and_congr_right fun first => ?_
          rw [masks, List.map_cons, ← masks] at coming
          have built := h.addView few rfl coming.fresh (coming.some_ _ (by simp)) first right.1
            right.2
          refine ih built ?_ coming.next rest
          intro mask member
          rcases List.mem_append.mp member with before | own
          · exact small mask before
          · rw [List.mem_singleton.mp own]
            exact first

end Making

section Runs

variable {memoryLimit : ℕ}

theorem views_of_run (size : 0 < nm) (few : nTopDims ≤ 20) (limit : memoryLimit < 2 ^ 32)
    {input : List (Row nm)} (nInputRecs : input.length < 2 ^ 32) {groupbyFile : List (List ℕ)}
    (distinct : (readGroupbys nTopDims groupbyFile).Nodup)
    (some_ : ∀ sel ∈ readGroupbys nTopDims groupbyFile, sel ≠ []) {cube : Cube nm}
    (run : computeGivenGroupbys (plainMake memoryLimit) nTopDims input groupbyFile (newCube nm) =
      .ok cube) :
    (∀ v ∈ madeViews (plainMake memoryLimit) nTopDims input groupbyFile (newCube nm),
        Finished nTopDims v) ∧
      Distinct nTopDims (madeViews (plainMake memoryLimit) nTopDims input groupbyFile
        (newCube nm)) := by
  have selections : (madeViews (plainMake memoryLimit) nTopDims input groupbyFile
      (newCube nm)).map (fun v => getRegTupleFromBin64 v.1 nTopDims) =
        readGroupbys nTopDims groupbyFile := by
    have names := congrArg (List.map fun bin => getRegTupleFromBin64 bin nTopDims)
      (rounds_madeViews run).2
    rwa [List.map_map, List.map_map] at names
  refine ⟨finished_of_run limit size (by omega) nInputRecs (fun _ => Nat.zero_lt_succ _) run, ?_,
    fun v member => some_ _ ?_⟩
  · rw [selections]
    exact distinct
  · rw [← selections]
    exact List.mem_map_of_mem member

theorem rightOffsets_of_run (size : 0 < nm) (few : nTopDims ≤ 20) (limit : memoryLimit < 2 ^ 32)
    {input : List (Row nm)} (nInputRecs : input.length < 2 ^ 32) {groupbyFile : List (List ℕ)}
    (distinct : (readGroupbys nTopDims groupbyFile).Nodup)
    (some_ : ∀ sel ∈ readGroupbys nTopDims groupbyFile, sel ≠ []) {cube : Cube nm}
    (run : computeGivenGroupbys (plainMake memoryLimit) nTopDims input groupbyFile (newCube nm) =
      .ok cube) :
    RightOffsets nTopDims (madeViews (plainMake memoryLimit) nTopDims input groupbyFile
        (newCube nm)) ↔
      ∀ sel ∈ (readGroupbys nTopDims groupbyFile).dropLast,
        (viewOf input sel).length * getRecSize sel.length nm < 2 ^ 32 := by
  obtain ⟨finished, apart⟩ := views_of_run size few limit nInputRecs distinct some_ run
  have masked := selections_masks few groupbyFile
  have coming : Coming nTopDims [] (masks nTopDims groupbyFile) := by
    refine ⟨by rw [List.nil_append, masked]; exact distinct, fun mask member => some_ _ ?_⟩
    rw [← masked]
    exact List.mem_map_of_mem member
  rw [rightOffsets_iff size few finished apart,
    small_iff limit size few (built_new nTopDims input) (by simp) coming run, ← masked,
    ← List.map_dropLast, List.forall_mem_map]
  rfl

/-- The offsets are right behind a run exactly when every view but the last has less than 2^32
bytes. -/
theorem offsets_right_iff (measures : 1 ≤ nm) (few : nTopDims ≤ 20) (limit : memoryLimit < 2 ^ 32)
    (input : List (Row nm)) (nInputRecs : input.length < 2 ^ 32) (groupbyFile : List (List ℕ))
    (distinct : (readGroupbys nTopDims groupbyFile).Nodup)
    (some_ : ∀ sel ∈ readGroupbys nTopDims groupbyFile, sel ≠ []) (cube : Cube nm)
    (run : computeGivenGroupbys (plainMake memoryLimit) nTopDims input groupbyFile (newCube nm) =
      .ok cube) :
    let views := madeViews (plainMake memoryLimit) nTopDims input groupbyFile (newCube nm)
    (cube = rounds nTopDims (newCube nm) views ∧
      views.map Prod.fst = groupbyFile.map binRepTuple) ∧
      (RightOffsets nTopDims views ↔
        ∀ sel ∈ (readGroupbys nTopDims groupbyFile).dropLast,
          (viewOf input sel).length * getRecSize sel.length nm < 2 ^ 32) :=
  ⟨rounds_madeViews run, rightOffsets_of_run measures few limit nInputRecs distinct some_ run⟩

theorem offsets_right_twoViews : ∃ cube,
    computeGivenGroupbys (plainMake 96) 2 threeRows [groupbyRecord [1, 2], groupbyRecord [1]]
      (newCube 1) = .ok cube ∧
    RightOffsets 2 (madeViews (plainMake 96) 2 threeRows
      [groupbyRecord [1, 2], groupbyRecord [1]] (newCube 1)) := by
  have ends : (computeGivenGroupbys (plainMake 96) 2 threeRows
      [groupbyRecord [1, 2], groupbyRecord [1]] (newCube 1)).isOk = true := by decide +kernel
  cases run : computeGivenGroupbys (plainMake 96) 2 threeRows
      [groupbyRecord [1, 2], groupbyRecord [1]] (newCube 1) with
  | ok cube =>
      exact ⟨cube, rfl, (offsets_right_iff (by decide) (by decide) (by decide) threeRows
        (by decide) _ (by decide +kernel) (by decide +kernel) cube run).2.mpr (by decide +kernel)⟩
  | error retCode =>
      rw [run] at ends
      cases ends
  | undefined =>
      rw [run] at ends
      cases ends

end Runs

section Wrapped

theorem plainView_runs {memoryLimit nv : ℕ} {rows : List (Row nm)} (limit : memoryLimit < 2 ^ 32)
    (size : 0 < getRecSize nv nm) (room : treeNodeSize nv nm ≤ memoryLimit)
    (keys : ∀ r ∈ rows, r.1.length = nv) (short : rows.length ≠ 2 ^ 32 - 1)
    (enough : ¬ Crowded memoryLimit nv rows) : ∃ w, plainView memoryLimit nv rows = .ok w := by
  rcases plainView_spec limit size room keys short with ⟨_, crowded⟩ | ⟨_, tree⟩ | ⟨_, merge⟩
  · exact absurd crowded enough
  · exact ⟨_, tree⟩
  · exact ⟨_, merge⟩

theorem getParent_second {bin groupby : ℕ} (w : Written nm) (some_ : groupby ≠ 0)
    (apart : groupby &&& groupbyMask nTopDims bin ≠ groupby) :
    getParent nTopDims ((newCube nm).addView nTopDims bin w).jpp groupby = none := by
  cases found : getParent nTopDims ((newCube nm).addView nTopDims bin w).jpp groupby with
  | none => rfl
  | some choice =>
      obtain ⟨parent, level, job⟩ := choice
      obtain ⟨⟨listed, covers⟩, _⟩ := getParent_spec found
      obtain ⟨k, _, rfl⟩ := List.mem_map.mp listed
      simp only [Cube.addView, Pool.push, Function.update_apply] at covers
      split_ifs at covers
      · exact absurd covers apart
      · exact absurd (covers.symm.trans (Nat.and_zero groupby)) some_

theorem computeGroupby_input {memoryLimit bin : ℕ} {input : List (Row nm)} {cube : Cube nm}
    (limit : memoryLimit < 2 ^ 32) (most : nm ≤ MAX_NUM_OF_MEAS)
    (first : getParent nTopDims cube.jpp (groupbyMask nTopDims bin) = none) {sel : List ℕ}
    (own : getRegTupleFromBin64 bin nTopDims = sel) (size : 0 < getRecSize sel.length nm)
    (room : treeNodeSize sel.length nm ≤ memoryLimit) (short : input.length ≠ 2 ^ 32 - 1)
    (enough : ¬ Crowded memoryLimit sel.length input) :
    ∃ w, computeGroupby (plainMake memoryLimit) nTopDims input cube bin =
      .ok (cube.addView nTopDims bin w) := by
  have keys : ∀ r ∈ input.map (selectToView sel), r.1.length = sel.length := by
    intro r member
    obtain ⟨x, _, rfl⟩ := List.mem_map.mp member
    exact List.length_map _
  have length : (input.map (selectToView sel)).length = input.length := List.length_map _
  obtain ⟨w, view⟩ := plainView_runs limit size room keys (by rwa [length]) (by
    rwa [Crowded, length])
  refine ⟨w, ?_⟩
  rw [computeGroupby, if_neg (Nat.not_lt.mpr most), sourceRows, first]
  dsimp only
  rw [own, plainMake, view]
  rfl

def countingRows (n : ℕ) : List (Row 1) :=
  (List.range n).map fun i => ([i, 0, 0], fun _ => 1)

theorem viewOf_countingRows (n : ℕ) : (viewOf (countingRows n) [1, 2]).length = n := by
  have ascending : Ascending ((countingRows n).map (selectToView [1, 2])) := by
    rw [countingRows, List.map_map, Ascending, List.pairwise_map]
    refine List.pairwise_lt_range.imp ?_
    intro i j less
    exact List.Lex.rel less
  rw [viewOf, ← eq_groupBy ascending (.refl _), List.length_map, countingRows, List.length_map,
    List.length_range]

/-- A view of the first two attributes and one of the third. -/
def largeFile : List (List ℕ) := [groupbyRecord [1, 2], groupbyRecord [3]]

/-- 2^28 rows of 16 bytes count as none: the second view gets the offset of the first. -/
theorem largeView_offset :
    (((readGroupbys 3 largeFile).Nodup ∧ ∀ sel ∈ readGroupbys 3 largeFile, sel ≠ []) ∧
      (countingRows (2 ^ 28)).length < 2 ^ 32) ∧
    ∃ cube, computeGivenGroupbys (plainMake (2 ^ 32 - 1)) 3 (countingRows (2 ^ 28)) largeFile
        (newCube 1) = .ok cube ∧
      ¬ RightOffsets 3 (madeViews (plainMake (2 ^ 32 - 1)) 3 (countingRows (2 ^ 28)) largeFile
        (newCube 1)) := by
  have length : (countingRows (2 ^ 28)).length = 2 ^ 28 := by
    rw [countingRows, List.length_map, List.length_range]
  have distinct : (readGroupbys 3 largeFile).Nodup := by decide +kernel
  have some_ : ∀ sel ∈ readGroupbys 3 largeFile, sel ≠ [] := by decide +kernel
  have bytes := viewOf_countingRows (2 ^ 28)
  generalize countingRows (2 ^ 28) = input at length bytes ⊢
  have crowded (nv : ℕ) (some_ : ¬ (1024 * ((2 ^ 32 - 1) / treeNodeSize nv 1) ≤ 2 ^ 28 ∨
      2 ^ 32 - 1 < 1024 * getRecSize nv 1)) : ¬ Crowded (2 ^ 32 - 1) nv input := by
    rwa [Crowded, length]
  obtain ⟨v, first⟩ := @computeGroupby_input 1 3 (2 ^ 32 - 1) _ input (newCube 1) (by decide)
    (by decide) (getParent_new 3 _) [1, 2]
    (show getRegTupleFromBin64 (binRepTuple (groupbyRecord [1, 2])) 3 = [1, 2] by decide +kernel)
    (by decide) (by decide) (by rw [length]; decide) (crowded _ (by decide))
  obtain ⟨w, second⟩ := @computeGroupby_input 1 3 (2 ^ 32 - 1) _ input _ (by decide) (by decide)
    (@getParent_second 1 3 (binRepTuple (groupbyRecord [1, 2]))
      (groupbyMask 3 (binRepTuple (groupbyRecord [3]))) v (by decide +kernel) (by decide +kernel))
    [3] (by decide +kernel) (by decide) (by decide) (by rw [length]; decide)
    (crowded _ (by decide))
  have run : computeGivenGroupbys (plainMake (2 ^ 32 - 1)) 3 input largeFile (newCube 1) =
      .ok (((newCube 1).addView 3 (binRepTuple (groupbyRecord [1, 2])) v).addView 3
        (binRepTuple (groupbyRecord [3])) w) := by
    rw [largeFile, computeGivenGroupbys, first, Outcome.bind, computeGivenGroupbys, second,
      Outcome.bind, computeGivenGroupbys]
  refine ⟨⟨⟨distinct, some_⟩, by rw [length]; decide⟩, _, run, ?_⟩
  rw [rightOffsets_of_run (by decide) (by decide) (by decide) (by rw [length]; decide) distinct
    some_ run]
  intro small
  have less := small [1, 2] (by decide +kernel)
  rw [bytes] at less
  exact absurd less (by decide)

end Wrapped

end Baseliner.DcOffsets
