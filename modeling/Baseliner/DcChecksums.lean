import Mathlib.Algebra.Order.BigOperators.Group.List
import Mathlib.Data.Finset.Sort
import Baseliner.DcCube

/-! The checksums of the DC benchmark. A view's checksum weights each row by its place:
`WriteViewToDiskCS` counts up with every measure, `MultiWayMerge` with every row, and the memory
decides which of them writes the view. -/

namespace Baseliner.DcChecksums

open KeyedSums DcPartition DcTree DcRuns DcMerge DcCube

variable {nm : Nat}

/-- One task of `DC`. -/
def dcTask (c : Control) (input : List (Row nm)) (viewSizes : List Word) (taskNumber : Nat) :
    Outcome (Cube nm) :=
  match partitionCube c taskNumber viewSizes with
  | none => .undefined
  | some groupbyFile =>
      computeGivenGroupbys (plainMake c.memoryLimit) c.nTopDims input groupbyFile (newCube nm)

def total (nTasks : Nat) (cubes : Nat → Cube nm) (i : Fin nm) : Int :=
  ((List.range nTasks).map fun t => (cubes t).totchs i).sum

section Workloads

variable {nTopDims : Nat} {input : List (Row nm)} {entries : List Entry} {c d : Control}

/-- A relation and a set of views; the measures are not negative and fit with their weights. -/
structure Workload (nTopDims : Nat) (input : List (Row nm)) (entries : List Entry) : Prop where
  few : nTopDims ≤ 20
  short : input.length < 2 ^ 32 - 1
  nonneg : ∀ r ∈ input, ∀ i, 0 ≤ r.2 i
  inside : ∀ e ∈ entries, e.selection ≠ [] ∧ ∀ a ∈ e.selection, 1 ≤ a ∧ a ≤ nTopDims
  ascending : ∀ e ∈ entries, e.selection.Pairwise (· < ·)
  distinct : (entries.map Entry.selection).Nodup
  bytes : ∀ e ∈ entries,
    (viewOf input e.selection).length * getRecSize e.selection.length nm < 2 ^ 32
  products : ∀ e ∈ entries, ∀ j r, (viewOf input e.selection)[j]? = some r →
    ∀ i : Fin nm, ↑(j * nm + i + 1) * r.2 i < (2 : Int) ^ 63

structure Setup (nTopDims : Nat) (c : Control) : Prop where
  dims : c.nTopDims = nTopDims
  tasks : 1 ≤ c.nTasks
  most : c.nTasks ≤ MAX_NUMBER_OF_TASKS
  limit : c.memoryLimit < 2 ^ 32

/-- The pool has room for a task's groupbys and for a node of every view. -/
structure Room (input : List (Row nm)) (entries : List Entry) (c : Control) : Prop where
  pool : 8 * ((entries.length + c.nTasks - 1) / c.nTasks) ≤ c.memoryLimit
  nodes : input = [] ∨ ∀ e ∈ entries, treeNodeSize e.selection.length nm ≤ c.memoryLimit

theorem Workload.fits (h : Workload nTopDims input entries) (setup : Setup nTopDims c) :
    Fits c entries := by
  intro e he
  have inside := (h.inside e he).2
  refine ⟨?_, by rw [setup.dims]; exact inside⟩
  have among : e.selection ⊆ (List.range (nTopDims + 1)) := by
    intro a ha
    have := inside a ha
    exact List.mem_range.mpr (by omega)
  have count := (List.subperm_of_subset ((h.ascending e he).imp ne_of_lt) among).length_le
  rw [List.length_range] at count
  have := h.few
  omega

theorem Workload.sets_nodup (h : Workload nTopDims input entries) :
    (entries.map fun e => e.selection.toFinset).Nodup := by
  have sorted : (entries.map fun e => e.selection.toFinset).map (·.sort (· ≤ ·)) =
      entries.map Entry.selection := by
    rw [List.map_map]
    refine List.map_congr_left ?_
    intro e he
    exact sort_toFinset (h.ascending e he)
  refine List.Nodup.of_map (·.sort (· ≤ ·)) ?_
  rw [sorted]
  exact h.distinct

theorem Workload.length_le (h : Workload nTopDims input entries) :
    entries.length ≤ 2 ^ nTopDims - 1 := by
  have among : entries.map (fun e => e.selection.toFinset) ⊆
      ((Finset.Icc 1 nTopDims).powerset.erase ∅).toList := by
    intro s hs
    obtain ⟨e, he, rfl⟩ := List.mem_map.mp hs
    obtain ⟨some_, inside⟩ := h.inside e he
    rw [Finset.mem_toList, Finset.mem_erase, Finset.mem_powerset]
    refine ⟨fun none => some_ (List.toFinset_eq_empty_iff _ |>.mp none), ?_⟩
    intro a ha
    exact Finset.mem_Icc.mpr (inside a (List.mem_toFinset.mp ha))
  have count := (List.subperm_of_subset h.sets_nodup among).length_le
  rwa [List.length_map, Finset.length_toList, Finset.card_erase_of_mem (by simp),
    Finset.card_powerset, Nat.card_Icc, Nat.add_sub_cancel] at count

theorem Workload.readViews (h : Workload nTopDims input entries) (setup : Setup nTopDims c)
    (totalInBytes nCubeTuples : Nat) :
    DcPartition.readViews c (viewSizesFile entries totalInBytes nCubeTuples) false [] [] =
      if entries.length ≤ c.nViewLimit then some (entries.map (record c)) else none :=
  readViews_entries (by rw [setup.dims]; exact h.few) entries (h.fits setup) ..

theorem Workload.partition (h : Workload nTopDims input entries) (setup : Setup nTopDims c)
    (pool : 8 * ((entries.length + c.nTasks - 1) / c.nTasks) ≤ c.memoryLimit)
    (totalInBytes nCubeTuples : Nat) :
    ∃ files : Nat → List (List Nat),
      (∀ t < c.nTasks, partitionCube c t (viewSizesFile entries totalInBytes nCubeTuples) =
        some (files t)) ∧
      ((List.range c.nTasks).flatMap fun t => readGroupbys nTopDims (files t)).Perm
        (entries.map Entry.selection) := by
  have few : c.nTopDims ≤ 20 := by
    rw [setup.dims]
    exact h.few
  have read := h.readViews setup totalInBytes nCubeTuples
  rw [if_pos (by
    rw [Control.nViewLimit, setup.dims]
    exact h.length_le)] at read
  obtain ⟨files, made, all⟩ := selections_of_room setup.tasks setup.most few (h.fits setup)
    h.ascending read pool
  rw [setup.dims] at all
  exact ⟨files, made, all⟩

end Workloads

section Tasks

variable {nTopDims : Nat} {input : List (Row nm)} {entries : List Entry} {c d : Control}
  {totalInBytes nCubeTuples : Nat} {cubes others : Nat → Cube nm}

theorem dcTask_eq {viewSizes : List Word} {t : Nat} {file : List (List Nat)}
    (read : partitionCube c t viewSizes = some file) :
    dcTask c input viewSizes t =
      computeGivenGroupbys (plainMake c.memoryLimit) c.nTopDims input file (newCube nm) := by
  rw [dcTask, read]

theorem Workload.fitting (h : Workload nTopDims input entries) {e : Entry} (he : e ∈ entries) :
    Fitting (viewOf input e.selection) := by
  intro j r hr i
  refine ⟨?_, h.products e he j r hr i⟩
  rw [(isView_viewOf input e.selection).sums r (List.mem_of_getElem? hr) i]
  refine List.sum_nonneg ?_
  intro m hm
  obtain ⟨x, member, rfl⟩ := List.mem_map.mp hm
  exact h.nonneg x (List.mem_of_mem_filter member) i

/-- The groupby file of a task: some of the views, each once. -/
structure Share (nTopDims : Nat) (entries : List Entry) (file : List (List Nat)) : Prop where
  among : ∀ sel ∈ readGroupbys nTopDims file, ∃ e ∈ entries, e.selection = sel
  distinct : (readGroupbys nTopDims file).Nodup

theorem Share.pending (h : Workload nTopDims input entries) {file : List (List Nat)}
    (share : Share nTopDims entries file) : Pending nTopDims input [] (masks nTopDims file) := by
  refine pending_start h.few share.distinct ?_ ?_
  · intro sel hs
    obtain ⟨e, he, rfl⟩ := share.among sel hs
    exact (h.inside e he).1
  · intro sel hs
    obtain ⟨e, he, rfl⟩ := share.among sel hs
    exact h.bytes e he

theorem share_of_order (h : Workload nTopDims input entries) {files : Nat → List (List Nat)}
    (order : ((List.range c.nTasks).flatMap fun t => readGroupbys nTopDims (files t)).Perm
      (entries.map Entry.selection)) {t : Nat} (ht : t < c.nTasks) :
    Share nTopDims entries (files t) := by
  refine ⟨?_, (List.nodup_flatMap.mp (order.nodup_iff.mpr h.distinct)).1 t
    (List.mem_range.mpr ht)⟩
  intro sel hs
  exact List.mem_map.mp
    (order.mem_iff.mp (List.mem_flatMap.mpr ⟨t, List.mem_range.mpr ht, hs⟩))

theorem Workload.run (h : Workload nTopDims input entries) (setup : Setup nTopDims c)
    (size : 1 ≤ nm) (most : nm ≤ MAX_NUM_OF_MEAS) (room : Room input entries c)
    {file : List (List Nat)} (share : Share nTopDims entries file) :
    computeGivenGroupbys (plainMake c.memoryLimit) nTopDims input file (newCube nm) =
        .error ADC_INTERNAL_ERROR ∨
      ∃ cube, computeGivenGroupbys (plainMake c.memoryLimit) nTopDims input file (newCube nm) =
          .ok cube ∧
        cube.log = (masks nTopDims file).map (viewLog nTopDims c.memoryLimit input) ∧
        ∀ i, cube.totchs i = ((readGroupbys nTopDims file).map fun sel =>
          (writtenView c.memoryLimit input sel).checksums i).sum := by
  have nodes : input = [] ∨ ∀ sel ∈ readGroupbys nTopDims file,
      treeNodeSize sel.length nm ≤ c.memoryLimit := by
    refine room.nodes.imp_right ?_
    intro all sel hs
    obtain ⟨e, he, rfl⟩ := share.among sel hs
    exact all e he
  rcases (built_new nTopDims input).plain_run h.few size most setup.limit h.short file
      (share.pending h) nodes with failed | ⟨cube, ran, _, log, totals⟩
  · exact .inl failed
  · refine .inr ⟨cube, ran, log, ?_⟩
    intro i
    rw [totals, newCube]
    exact Int.zero_add _

/-- All tasks together tell the views, each as it is written with this much memory. -/
structure Told (nTopDims : Nat) (input : List (Row nm)) (entries : List Entry) (c : Control)
    (cubes : Nat → Cube nm) : Prop where
  logged : ∀ t < c.nTasks, ∀ v ∈ (cubes t).log, ∃ e ∈ entries,
    getRegTupleFromBin32 v.groupby nTopDims = e.selection ∧
      v.checksums = (writtenView c.memoryLimit input e.selection).checksums
  all : ∀ e ∈ entries, ∃ t < c.nTasks, ∃ v ∈ (cubes t).log, ∃ bin,
    v.groupby = groupbyMask nTopDims bin ∧ getRegTupleFromBin64 bin nTopDims = e.selection
  totals : ∀ i, total c.nTasks cubes i =
    (entries.map fun e => (writtenView c.memoryLimit input e.selection).checksums i).sum

theorem told_of_runs (h : Workload nTopDims input entries) {files : Nat → List (List Nat)}
    (order : ((List.range c.nTasks).flatMap fun t => readGroupbys nTopDims (files t)).Perm
      (entries.map Entry.selection))
    (runs : ∀ t < c.nTasks,
      (cubes t).log = (masks nTopDims (files t)).map (viewLog nTopDims c.memoryLimit input) ∧
      ∀ i, (cubes t).totchs i = ((readGroupbys nTopDims (files t)).map fun sel =>
        (writtenView c.memoryLimit input sel).checksums i).sum) :
    Told nTopDims input entries c cubes := by
  have few : nTopDims ≤ 32 := h.few.trans (by decide)
  refine ⟨?_, ?_, ?_⟩
  · intro t ht v hv
    rw [(runs t ht).1] at hv
    obtain ⟨mask, hm, rfl⟩ := List.mem_map.mp hv
    have listed : getRegTupleFromBin32 mask nTopDims ∈
        (masks nTopDims (files t)).map (getRegTupleFromBin32 · nTopDims) := List.mem_map_of_mem hm
    rw [selections_masks h.few] at listed
    obtain ⟨e, he, same⟩ := (share_of_order h order ht).among _ listed
    refine ⟨e, he, same.symm, ?_⟩
    rw [viewLog, same]
  · intro e he
    have listed := order.mem_iff.mpr (List.mem_map_of_mem he)
    obtain ⟨t, ht, member⟩ := List.mem_flatMap.mp listed
    have inside := List.mem_range.mp ht
    obtain ⟨record, hr, selection⟩ := List.mem_map.mp member
    refine ⟨t, inside, viewLog nTopDims c.memoryLimit input
      (groupbyMask nTopDims (binRepTuple record)), ?_, binRepTuple record, rfl, selection⟩
    rw [(runs t inside).1]
    exact List.mem_map_of_mem (List.mem_map_of_mem hr)
  · intro i
    have sums : (List.range c.nTasks).map (fun t => (cubes t).totchs i) =
        (List.range c.nTasks).map fun t => ((readGroupbys nTopDims (files t)).map fun sel =>
          (writtenView c.memoryLimit input sel).checksums i).sum := by
      refine List.map_congr_left ?_
      intro t ht
      exact (runs t (List.mem_range.mp ht)).2 i
    have whole := (order.map fun sel =>
      (writtenView c.memoryLimit input sel).checksums i).sum_eq
    rw [List.map_map, List.map_flatMap, List.flatMap_def, List.sum_flatten, List.map_map] at whole
    rw [total, sums]
    exact whole

theorem Workload.ends (h : Workload nTopDims input entries) (setup : Setup nTopDims c)
    (size : 1 ≤ nm) (most : nm ≤ MAX_NUM_OF_MEAS) (room : Room input entries c)
    (noError : ∀ t < c.nTasks, ∀ retCode,
      dcTask c input (viewSizesFile entries totalInBytes nCubeTuples) t ≠ .error retCode) :
    ∃ cubes : Nat → Cube nm, ∀ t < c.nTasks,
      dcTask c input (viewSizesFile entries totalInBytes nCubeTuples) t = .ok (cubes t) := by
  obtain ⟨files, written, order⟩ := h.partition setup room.pool totalInBytes nCubeTuples
  have each : ∀ t, ∃ cube : Cube nm, t < c.nTasks →
      dcTask c input (viewSizesFile entries totalInBytes nCubeTuples) t = .ok cube := by
    intro t
    by_cases ht : t < c.nTasks
    · have ran := noError t ht
      rw [dcTask_eq (written t ht), setup.dims] at ran ⊢
      rcases h.run setup size most room (share_of_order h order ht) with failed | ⟨cube, run, _⟩
      · exact absurd failed (ran _)
      · exact ⟨cube, fun _ => run⟩
    · exact ⟨newCube nm, fun inside => absurd inside ht⟩
  choose cubes spec using each
  exact ⟨cubes, spec⟩

theorem Workload.told (h : Workload nTopDims input entries) (setup : Setup nTopDims c)
    (size : 1 ≤ nm) (most : nm ≤ MAX_NUM_OF_MEAS) (room : Room input entries c)
    (ran : ∀ t < c.nTasks, dcTask c input (viewSizesFile entries totalInBytes nCubeTuples) t =
      .ok (cubes t)) :
    Told nTopDims input entries c cubes := by
  obtain ⟨files, written, order⟩ := h.partition setup room.pool totalInBytes nCubeTuples
  refine told_of_runs h order ?_
  intro t ht
  have ended := ran t ht
  rw [dcTask_eq (written t ht), setup.dims] at ended
  rcases h.run setup size most room (share_of_order h order ht) with failed | ⟨cube, run, told⟩
  · rw [failed] at ended
    cases ended
  · rw [run] at ended
    cases ended
    exact told

theorem Workload.ends_nil (h : Workload nTopDims input []) (setup : Setup nTopDims c) :
    ∀ t < c.nTasks, dcTask c input (viewSizesFile [] totalInBytes nCubeTuples) t =
      .ok (newCube nm) := by
  obtain ⟨files, written, order⟩ := h.partition setup (by
    have tasks := setup.tasks
    rw [List.length_nil, Nat.zero_add, Nat.div_eq_of_lt (by omega)]
    exact Nat.zero_le _) totalInBytes nCubeTuples
  intro t ht
  have none := List.flatMap_eq_nil_iff.mp (List.perm_nil.mp order) t (List.mem_range.mpr ht)
  rw [dcTask_eq (written t ht), List.map_eq_nil_iff.mp none]
  rfl

theorem Workload.room_of_ends (h : Workload nTopDims input entries) (setup : Setup nTopDims c)
    (size : 1 ≤ nm) (some_ : entries ≠ [])
    (ran : ∀ t < c.nTasks, dcTask c input (viewSizesFile entries totalInBytes nCubeTuples) t =
      .ok (cubes t)) :
    nm ≤ MAX_NUM_OF_MEAS ∧ Room input entries c := by
  have pool := (room_of_writes setup.tasks setup.most (by rw [setup.dims]; exact h.few)
    (h.readViews setup totalInBytes nCubeTuples) (by
      intro t ht
      have ended := ran t ht
      rw [dcTask] at ended
      cases read : partitionCube c t (viewSizesFile entries totalInBytes nCubeTuples) with
      | none =>
          rw [read] at ended
          cases ended
      | some file => rfl)).2
  obtain ⟨files, written, order⟩ := h.partition setup pool totalInBytes nCubeTuples
  have run : ∀ t < c.nTasks, computeGivenGroupbys (plainMake c.memoryLimit) nTopDims input
      (files t) (newCube nm) = .ok (cubes t) := by
    intro t ht
    rw [← ran t ht, dcTask_eq (written t ht), setup.dims]
  have place (e : Entry) (he : e ∈ entries) : ∃ t < c.nTasks,
      e.selection ∈ readGroupbys nTopDims (files t) := by
    obtain ⟨t, ht, member⟩ :=
      List.mem_flatMap.mp (order.mem_iff.mpr (List.mem_map_of_mem he))
    exact ⟨t, List.mem_range.mp ht, member⟩
  have most : nm ≤ MAX_NUM_OF_MEAS := by
    by_contra more
    obtain ⟨e, he⟩ := List.exists_mem_of_ne_nil entries some_
    obtain ⟨t, ht, member⟩ := place e he
    have ended := run t ht
    cases file : files t with
    | nil =>
        rw [file] at member
        cases member
    | cons record rest =>
        rw [file, computeGivenGroupbys, computeGroupby, if_pos (by omega)] at ended
        cases ended
  refine ⟨most, pool, ?_⟩
  by_cases none : input = []
  · exact .inl none
  · right
    intro e he
    obtain ⟨t, ht, member⟩ := place e he
    exact (built_new nTopDims input).room_of_run h.few size most setup.limit h.short none (files t)
      ((share_of_order h order ht).pending h) (run t ht) _ member

end Tasks

section Fixed

variable {nTopDims : Nat} {input : List (Row nm)} {entries : List Entry} {c d : Control}
  {totalInBytes nCubeTuples : Nat} {cubes others : Nat → Cube nm}

/-- Two ways to run the benchmark tell the same checksums, for every view and in total. -/
def Agree (c d : Control) (input : List (Row nm)) (viewSizes : List Word) : Prop :=
  ∃ cubes others : Nat → Cube nm,
    (∀ t < c.nTasks, dcTask c input viewSizes t = .ok (cubes t)) ∧
    (∀ u < d.nTasks, dcTask d input viewSizes u = .ok (others u)) ∧
    (∀ t < c.nTasks, ∀ u < d.nTasks, ∀ v ∈ (cubes t).log, ∀ w ∈ (others u).log,
      v.groupby = w.groupby → v.checksums = w.checksums) ∧
    ∀ i, total c.nTasks cubes i = total d.nTasks others i

def NoError (c : Control) (input : List (Row nm)) (viewSizes : List Word) : Prop :=
  ∀ t < c.nTasks, ∀ retCode, dcTask c input viewSizes t ≠ .error retCode

/-- The rows of a view leave a node free in both pools or in none, so that the same function
writes it. -/
def SameWriter (c d : Control) (input : List (Row nm)) (sel : List Nat) : Prop :=
  (viewOf input sel).length < c.memoryLimit / treeNodeSize sel.length nm ↔
    (viewOf input sel).length < d.memoryLimit / treeNodeSize sel.length nm

theorem writtenView_eq_iff {memoryLimit memoryLimit' : Nat} {sel : List Nat}
    (fitting : Fitting (viewOf input sel)) :
    (writtenView memoryLimit input sel).checksums =
        (writtenView memoryLimit' input sel).checksums ↔
      ((viewOf input sel).length < memoryLimit / treeNodeSize sel.length nm ↔
        (viewOf input sel).length < memoryLimit' / treeNodeSize sel.length nm) ∨
      EvenWeights (viewOf input sel) := by
  rw [← checksums_eq_iff fitting, writtenView, writtenView]
  split_ifs with left right right
  · simp [left, right]
  · simp [left, right]
  · simp [left, right, eq_comm]
  · simp [left, right]

theorem told_eq_iff (h : Workload nTopDims input entries)
    (told : Told nTopDims input entries c cubes) (told' : Told nTopDims input entries d others) :
    ((∀ t < c.nTasks, ∀ u < d.nTasks, ∀ v ∈ (cubes t).log, ∀ w ∈ (others u).log,
        v.groupby = w.groupby → v.checksums = w.checksums) ∧
      ∀ i, total c.nTasks cubes i = total d.nTasks others i) ↔
      ∀ e ∈ entries, SameWriter c d input e.selection ∨ EvenWeights (viewOf input e.selection) := by
  constructor
  · rintro ⟨views, _⟩ e he
    obtain ⟨t, ht, v, hv, bin, groupby, selection⟩ := told.all e he
    obtain ⟨u, hu, w, hw, bin', groupby', selection'⟩ := told'.all e he
    have few : nTopDims ≤ 32 := h.few.trans (by decide)
    have same : v.groupby = w.groupby := by
      rw [groupby, groupby', groupbyMask_inj few (selection.trans selection'.symm)]
    have checksums := views t ht u hu v hv w hw same
    obtain ⟨x, _, own, value⟩ := told.logged t ht v hv
    obtain ⟨y, _, own', value'⟩ := told'.logged u hu w hw
    have selects : x.selection = e.selection := by
      rw [← own, groupby, getRegTupleFromBin32_groupbyMask bin few, selection]
    have selects' : y.selection = e.selection := by
      rw [← own', groupby', getRegTupleFromBin32_groupbyMask bin' few, selection']
    rw [value, value', selects, selects'] at checksums
    exact (writtenView_eq_iff (h.fitting he)).mp checksums
  · intro each
    have writes (e : Entry) (he : e ∈ entries) :=
      (writtenView_eq_iff (h.fitting he)).mpr (each e he)
    refine ⟨?_, ?_⟩
    · intro t ht u hu v hv w hw same
      obtain ⟨x, hx, own, value⟩ := told.logged t ht v hv
      obtain ⟨y, _, own', value'⟩ := told'.logged u hu w hw
      have selects : y.selection = x.selection := by rw [← own, ← own', same]
      rw [value, value', selects]
      exact writes x hx
    · intro i
      rw [told.totals, told'.totals]
      refine congrArg List.sum (List.map_congr_left ?_)
      intro e he
      rw [writes e he]

/-- Two runs without an error tell the same checksums exactly when there is no view, or both had
room for everything and every view has the same writer or even weights. -/
theorem checksums_fixed_iff (measures : 1 ≤ nm) (nTopDims : Nat) (input : List (Row nm))
    (entries : List Entry) (h : Workload nTopDims input entries) (c d : Control)
    (setup : Setup nTopDims c) (setup' : Setup nTopDims d) (totalInBytes nCubeTuples : Nat)
    (noError : NoError c input (viewSizesFile entries totalInBytes nCubeTuples))
    (noError' : NoError d input (viewSizesFile entries totalInBytes nCubeTuples)) :
    Agree c d input (viewSizesFile entries totalInBytes nCubeTuples) ↔
      entries = [] ∨ nm ≤ MAX_NUM_OF_MEAS ∧ Room input entries c ∧ Room input entries d ∧
        ∀ e ∈ entries, SameWriter c d input e.selection ∨
          EvenWeights (viewOf input e.selection) := by
  constructor
  · rintro ⟨cubes, others, ran, ran', same⟩
    by_cases none : entries = []
    · exact .inl none
    · obtain ⟨most, room⟩ := h.room_of_ends setup measures none ran
      obtain ⟨_, room'⟩ := h.room_of_ends setup' measures none ran'
      exact .inr ⟨most, room, room', (told_eq_iff h (h.told setup measures most room ran)
        (h.told setup' measures most room' ran')).mp same⟩
  · rintro (rfl | ⟨most, room, room', each⟩)
    · refine ⟨fun _ => newCube nm, fun _ => newCube nm, h.ends_nil setup, h.ends_nil setup', ?_, ?_⟩
      · intro t _ u _ v hv
        cases hv
      · intro i
        simp [total, newCube]
    · obtain ⟨cubes, ends⟩ := h.ends setup measures most room noError
      obtain ⟨others, ends'⟩ := h.ends setup' measures most room' noError'
      exact ⟨cubes, others, ends, ends', (told_eq_iff h (h.told setup measures most room ends)
        (h.told setup' measures most room' ends')).mpr each⟩

def twoViews : List Entry := [⟨[1], 2⟩, ⟨[1, 2], 3⟩]

theorem workload_threeRows : Workload 2 threeRows twoViews := by
  refine ⟨by decide, by decide, by decide, by decide, by decide, by decide, by decide +kernel, ?_⟩
  intro e he j r hr i
  have small : ∀ e ∈ twoViews, (viewOf threeRows e.selection).length ≤ 3 := by decide +kernel
  have values : ∀ e ∈ twoViews, ∀ r ∈ viewOf threeRows e.selection, ∀ i, r.2 i ≤ 12 := by
    decide +kernel
  have place := (List.getElem?_eq_some_iff.mp hr).1
  have few := small e he
  have value := values e he r (List.mem_of_getElem? hr) i
  have weight : ((j * 1 + i + 1 : Nat) : Int) * r.2 i ≤ ((j * 1 + i + 1 : Nat) : Int) * 12 :=
    Int.mul_le_mul_of_nonneg_left value (Int.natCast_nonneg _)
  omega

/-- Two rows of one attribute with two measures, and the view of it. -/
def twoRows : List (Row 2) := [([1], fun _ => 1), ([2], fun _ => 1)]

def oneView : List Entry := [⟨[1], 2⟩]

theorem workload_twoRows : Workload 1 twoRows oneView := by
  refine ⟨by decide, by decide, by decide, by decide, by decide, by decide, by decide +kernel, ?_⟩
  have fitting : Fitting (viewOf twoRows [1]) := by decide +kernel
  simp only [oneView, List.forall_mem_singleton]
  exact fun j r hr i => (fitting j r hr i).2

theorem noError_of_isOk {c : Control} {input : List (Row nm)} {viewSizes : List Word}
    (ends : ∀ t < c.nTasks, (dcTask c input viewSizes t).isOk = true) :
    NoError c input viewSizes := by
  intro t ht retCode failed
  have ended := ends t ht
  rw [failed] at ended
  cases ended

/-- One measure, where a pool of two nodes merges and a larger one does not; and two measures in
pools of three and four nodes, which both write the tree. -/
theorem checksums_fixed_threeRows :
    ((NoError ⟨1, 2, 3, 96⟩ threeRows (viewSizesFile twoViews 92 5) ∧
      NoError ⟨2, 2, 3, 1000⟩ threeRows (viewSizesFile twoViews 92 5)) ∧
    Agree ⟨1, 2, 3, 96⟩ ⟨2, 2, 3, 1000⟩ threeRows (viewSizesFile twoViews 92 5)) ∧
    Agree ⟨1, 1, 2, 144⟩ ⟨2, 1, 2, 192⟩ twoRows (viewSizesFile oneView 0 0) := by
  have noError : NoError ⟨1, 2, 3, 96⟩ threeRows (viewSizesFile twoViews 92 5) :=
    noError_of_isOk (by decide +kernel)
  have noError' : NoError ⟨2, 2, 3, 1000⟩ threeRows (viewSizesFile twoViews 92 5) :=
    noError_of_isOk (by decide +kernel)
  refine ⟨⟨⟨noError, noError'⟩, ?_⟩, ?_⟩
  · refine (checksums_fixed_iff (by decide) 2 threeRows twoViews workload_threeRows _ _
      ⟨rfl, by decide, by decide, by decide⟩ ⟨rfl, by decide, by decide, by decide⟩ 92 5 noError
      noError').mpr (.inr ⟨by decide, ⟨by decide, .inr (by decide)⟩,
        ⟨by decide, .inr (by decide)⟩, ?_⟩)
    exact fun e _ => .inr (evenWeights_one _)
  · refine (checksums_fixed_iff (by decide) 1 twoRows oneView workload_twoRows _ _
      ⟨rfl, by decide, by decide, by decide⟩ ⟨rfl, by decide, by decide, by decide⟩ 0 0
      (noError_of_isOk (by decide +kernel)) (noError_of_isOk (by decide +kernel))).mpr
      (.inr ⟨by decide, ⟨by decide, .inr (by decide)⟩, ⟨by decide, .inr (by decide)⟩, ?_⟩)
    simp only [oneView, List.forall_mem_singleton, SameWriter]
    exact .inl (by decide +kernel)

def totalOf (task : Outcome (Cube nm)) : Option (Fin nm → Int) :=
  match task with
  | .ok cube => some cube.totchs
  | _ => none

theorem not_agree_of_totals {c d : Control} {input : List (Row nm)} {viewSizes : List Word}
    {sums others : Fin nm → Int} (single : c.nTasks = 1) (single' : d.nTasks = 1)
    (first : totalOf (dcTask c input viewSizes 0) = some sums)
    (second : totalOf (dcTask d input viewSizes 0) = some others) (differ : sums ≠ others) :
    ¬ Agree c d input viewSizes := by
  rintro ⟨cubes, cubes', ran, ran', _, totals⟩
  rw [ran 0 (by omega)] at first
  rw [ran' 0 (by omega)] at second
  refine differ ?_
  funext i
  have same := totals i
  rw [single, single', total, total] at same
  cases first
  cases second
  simpa using same

/-- Two measures: the checksum of two rows is 3 when they are merged and 4 when not. -/
theorem two_measures_differ :
    (Workload 1 twoRows oneView ∧
      (Setup 1 ⟨1, 1, 2, 96⟩ ∧ Room twoRows oneView ⟨1, 1, 2, 96⟩) ∧
      (Setup 1 ⟨1, 1, 2, 144⟩ ∧ Room twoRows oneView ⟨1, 1, 2, 144⟩) ∧
      NoError ⟨1, 1, 2, 96⟩ twoRows (viewSizesFile oneView 0 0) ∧
      NoError ⟨1, 1, 2, 144⟩ twoRows (viewSizesFile oneView 0 0)) ∧
    ¬ Agree ⟨1, 1, 2, 96⟩ ⟨1, 1, 2, 144⟩ twoRows (viewSizesFile oneView 0 0) := by
  have merged : totalOf (dcTask ⟨1, 1, 2, 96⟩ twoRows (viewSizesFile oneView 0 0) 0) =
      some (fun _ => 3) := by decide +kernel
  have tree : totalOf (dcTask ⟨1, 1, 2, 144⟩ twoRows (viewSizesFile oneView 0 0) 0) =
      some (fun i => if i = 0 then 4 else 6) := by decide +kernel
  refine ⟨⟨workload_twoRows,
    ⟨⟨rfl, by decide, by decide, by decide⟩, by decide, .inr (by decide)⟩,
    ⟨⟨rfl, by decide, by decide, by decide⟩, by decide, .inr (by decide)⟩,
    noError_of_isOk (by decide +kernel), noError_of_isOk (by decide +kernel)⟩,
    not_agree_of_totals rfl rfl merged tree ?_⟩
  intro same
  exact absurd (congrFun same 0) (by decide)

end Fixed

end Baseliner.DcChecksums
