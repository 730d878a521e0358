import Mathlib.Algebra.BigOperators.Pi
import Mathlib.Data.Nat.Choose.Bounds
import Mathlib.Data.List.Sublists
import Baseliner.LayeredPool
import Baseliner.DcPartition
import Baseliner.DcMerge

/-! `ComputeGivenGroupbys` of the DC benchmark. The views of a task are made one behind
the other; a view that has all attributes of a later one may be its parent and takes the
place of the input. -/

namespace Baseliner.DcCube

open KeyedSums LayeredPool DcPartition DcTree DcRuns DcMerge

section Masks

def MLB32 : Nat := 0x80000000

def setOneBit32 (s pos : Nat) : Nat := s ||| (MLB32 >>> pos)

def mlo32 (x : Nat) : Nat := (List.range 32).findIdx fun i => x &&& (MLB32 >>> i) ≠ 0

def mro32 (x : Nat) : Nat := 32 - (List.range 32).findIdx fun i => x &&& (1 <<< i) ≠ 0

/-- The shift of a negative `int` keeps the sign bit. -/
def setLeadingOnes32 (n : Nat) : Nat :=
  ((List.range n).foldl (fun x _ => (x.1 ||| x.2, (x.2 >>> 1) ||| (x.2 &&& MLB32)))
    (0, MLB32)).1

def numberOfOnes (s : Nat) : Nat := (List.range 64).countP fun i => s &&& (MLB >>> i) ≠ 0

def getRegTupleFromBin32 (binRepTuple numDims : Nat) : List Nat :=
  ((List.range numDims).filter fun i => binRepTuple &&& (MLB32 >>> i) ≠ 0).map (· + 1)

/-- `ut32` of a record of the groupby file. -/
def groupbyMask (nTopDims binRepTuple : Nat) : Nat :=
  ((binRepTuple >>> (64 - nTopDims)) % 2 ^ 32) <<< (32 - nTopDims) % 2 ^ 32

def getRegTupleFromParent (bin64RepTuple bin32RepTuple nd : Nat) : List Nat :=
  ((List.range nd).foldl (fun x i =>
    let k := if bin32RepTuple &&& (MLB32 >>> i) ≠ 0 then x.1 + 1 else x.1
    if bin32RepTuple &&& (MLB32 >>> i) ≠ 0 ∧ groupbyMask nd bin64RepTuple &&& (MLB32 >>> i) ≠ 0
    then (k, x.2 ++ [k]) else (k, x.2)) (0, [])).2

end Masks

section Pool

structure Job where
  grpb : Nat
  nv : Nat
  nRows : Nat
  viewOffset : Nat
deriving Inhabited

def numOfCombsFromNbyK (n k : Nat) : Nat :=
  if n < k then 0
  else (List.range k).foldl (fun combsNbyK l => combsNbyK * (n - l) % 2 ^ 32 / (l + 1)) 1

/-- `layerIndex` of the layers, of which the first is 1. -/
def layerIndex (nTopDims l : Nat) : Nat :=
  1 + ((List.range (l - 1)).map fun i => numOfCombsFromNbyK nTopDims (i + 1)).sum

inductive Parent where
  | smallestParent
  | prefixedParent
  | sharedSortParent
deriving DecidableEq

structure Candidates where
  smallest : Option Job
  prefixed : Option Job
  sharedSort : Option Job

def fewerRows (best : Option Job) (job : Job) : Option Job :=
  match best with
  | none => some job
  | some b => if b.nRows > job.nRows then some job else some b

def Candidates.consider (groupby : Nat) (found : Candidates) (job : Job) : Candidates :=
  let pfm := setLeadingOnes32 (mro32 groupby)
  let mlo := setOneBit32 0 (mlo32 groupby)
  let lom := setLeadingOnes32 (mlo32 groupby)
  if groupby &&& job.grpb = groupby then
    { smallest := fewerRows found.smallest job
      prefixed := if job.grpb &&& pfm = groupby then fewerRows found.prefixed job
        else found.prefixed
      sharedSort := if job.grpb &&& mlo ≠ 0 ∧ job.grpb &&& lom = 0
        then fewerRows found.sharedSort job else found.sharedSort }
  else found

def Candidates.choice (found : Candidates) : Option (Parent × Job) :=
  match found.prefixed, found.sharedSort, found.smallest with
  | some job, _, _ => some (.prefixedParent, job)
  | none, some job, _ => some (.sharedSortParent, job)
  | none, none, some job => some (.smallestParent, job)
  | none, none, none => none

/-- The parent with its level, or none when the view is made from the input. -/
def getParent (nTopDims : Nat) (jpp : Pool Job) (groupby : Nat) : Option (Parent × Nat × Job) :=
  (List.range' (numberOfOnes groupby) (nTopDims + 1 - numberOfOnes groupby)).findSome?
    fun level =>
      ((jpp.layer (layerIndex nTopDims) level).foldl (Candidates.consider groupby)
        ⟨none, none, none⟩).choice.map fun found => (found.1, level, found.2)

end Pool

section Views

def MAX_NUM_OF_MEAS : Nat := 4

variable {nm : Nat}

def selectToView (ix : List Nat) (ib : Row nm) : Row nm :=
  (ix.map fun i => ib.1.getD (i - 1) 0, ib.2)

structure ViewLog (nm : Nat) where
  groupby : Nat
  nViewRows : Nat
  checksums : Fin nm → Int

structure Cube (nm : Nat) where
  viewFile : File nm
  jpp : Pool Job
  accViewFileOffset : Nat
  totchs : Fin nm → Int
  log : List (ViewLog nm)

def newCube (nm : Nat) : Cube nm := ⟨[], ⟨fun _ => ⟨0, 0, 0, 0⟩, fun _ => 0⟩, 0, fun _ => 0, []⟩

/-- `n` records of the view file from an offset on, as long as they are of the parent. -/
def readRows (viewFile : File nm) (viewOffset nd n : Nat) : Option (List (Row nm)) :=
  match seek viewFile viewOffset with
  | none => none
  | some file =>
      if n ≤ file.length ∧ ∀ r ∈ file.take n, r.1.length = nd then some (file.take n) else none

/-- The rows a view is made from, cut to its attributes. -/
def sourceRows (nTopDims : Nat) (input : List (Row nm)) (cube : Cube nm) (binRepTuple : Nat) :
    Option (Option Parent × List (Row nm)) :=
  match getParent nTopDims cube.jpp (groupbyMask nTopDims binRepTuple) with
  | none => some (none, input.map (selectToView (getRegTupleFromBin64 binRepTuple nTopDims)))
  | some (parent, level, job) =>
      (readRows cube.viewFile job.viewOffset level job.nRows).map fun rows =>
        (some parent, rows.map (selectToView (getRegTupleFromParent binRepTuple job.grpb nTopDims)))

/-- The end of a round; the size of the view is an unsigned `int`. -/
def Cube.addView (cube : Cube nm) (nTopDims binRepTuple : Nat) (w : Written nm) : Cube nm :=
  let groupby := groupbyMask nTopDims binRepTuple
  let nv := (getRegTupleFromBin64 binRepTuple nTopDims).length
  { viewFile := cube.viewFile ++ w.rows
    jpp := cube.jpp.push (layerIndex nTopDims) nv
      ⟨groupby, nv, w.nViewRows, cube.accViewFileOffset⟩
    accViewFileOffset := cube.accViewFileOffset + w.nViewRows * getRecSize nv nm % 2 ^ 32
    totchs := fun i => cube.totchs i + w.checksums i
    log := cube.log ++ [⟨groupby, w.nViewRows, w.checksums⟩] }

/-- How a view is made from its rows, by the kind of its parent. -/
abbrev Make (nm : Nat) := Option Parent → (nv : Nat) → List (Row nm) → Outcome (Written nm)

/-- `binRepTuple` of a record of the groupby file. -/
def binRepTuple (record : List Nat) : Nat := Nat.ofDigits 256 (swap8 record)

/-- One round of `ComputeGivenGroupbys`; the sums of the measures are arrays. -/
def computeGroupby (make : Make nm) (nTopDims : Nat) (input : List (Row nm)) (cube : Cube nm)
    (bin : Nat) : Outcome (Cube nm) :=
  if MAX_NUM_OF_MEAS < nm then .undefined
  else match sourceRows nTopDims input cube bin with
    | none => .undefined
    | some (parent, rows) =>
        (make parent (getRegTupleFromBin64 bin nTopDims).length rows).bind fun w =>
          .ok (cube.addView nTopDims bin w)

def computeGivenGroupbys (make : Make nm) (nTopDims : Nat) (input : List (Row nm)) :
    (groupbyFile : List (List Nat)) → Cube nm → Outcome (Cube nm)
  | [], cube => .ok cube
  | record :: groupbyFile, cube =>
      (computeGroupby make nTopDims input cube (binRepTuple record)).bind
        (computeGivenGroupbys make nTopDims input groupbyFile)

/-- The build without `OPTIMIZATION` makes all views in the same way. -/
def plainMake (memoryLimit : Nat) : Make nm := fun _ nv rows => plainView memoryLimit nv rows

end Views

section Bits

theorem and_shiftRight_ne_zero {w i : Nat} (x : Nat) (inside : i ≤ w) :
    x &&& (2 ^ w >>> i) ≠ 0 ↔ x.testBit (w - i) = true := by
  rw [Nat.shiftRight_eq_div_pow, Nat.pow_div inside (by decide), Nat.and_two_pow]
  cases x.testBit (w - i) <;> simp

variable {nTopDims : Nat}

theorem testBit_groupbyMask (bin : Nat) (few : nTopDims ≤ 32) {i : Nat} (inside : i < nTopDims) :
    (groupbyMask nTopDims bin).testBit (31 - i) = bin.testBit (63 - i) := by
  have low : 31 - i < 32 := by omega
  have high : 31 - i ≥ 32 - nTopDims := by omega
  have small : 31 - i - (32 - nTopDims) < 32 := by omega
  rw [groupbyMask, Nat.testBit_mod_two_pow, Nat.testBit_shiftLeft, Nat.testBit_mod_two_pow,
    Nat.testBit_shiftRight]
  simp only [low, high, small, decide_true, Bool.true_and]
  by_cases wide : nTopDims ≤ 64
  · rw [show 64 - nTopDims + (31 - i - (32 - nTopDims)) = 63 - i by omega]
  · omega

theorem getRegTupleFromBin32_groupbyMask (bin : Nat) (few : nTopDims ≤ 32) :
    getRegTupleFromBin32 (groupbyMask nTopDims bin) nTopDims =
      getRegTupleFromBin64 bin nTopDims := by
  rw [getRegTupleFromBin32, getRegTupleFromBin64]
  refine congrArg (List.map (· + 1)) (List.filter_congr ?_)
  intro i hi
  have inside := List.mem_range.mp hi
  rw [decide_eq_decide, show MLB32 = 2 ^ 31 from rfl, show MLB = 2 ^ 63 from rfl,
    and_shiftRight_ne_zero _ (by omega), and_shiftRight_ne_zero _ (by omega),
    testBit_groupbyMask bin few inside]

theorem mem_getRegTupleFromBin64 {bin n i : Nat} (few : n ≤ 64) (inside : i < n) :
    i + 1 ∈ getRegTupleFromBin64 bin n ↔ bin.testBit (63 - i) = true := by
  rw [← and_shiftRight_ne_zero bin (show i ≤ 63 by omega)]
  simp only [getRegTupleFromBin64, List.mem_map, List.mem_filter, List.mem_range,
    Nat.add_right_cancel_iff, exists_eq_right, inside, true_and]
  exact decide_eq_true_iff

theorem groupbyMask_inj {bin bin' : Nat} (few : nTopDims ≤ 32)
    (same : getRegTupleFromBin64 bin nTopDims = getRegTupleFromBin64 bin' nTopDims) :
    groupbyMask nTopDims bin = groupbyMask nTopDims bin' := by
  refine Nat.eq_of_testBit_eq ?_
  intro k
  by_cases among : 32 - nTopDims ≤ k ∧ k < 32
  · have inside : 31 - k < nTopDims := by omega
    rw [show k = 31 - (31 - k) by omega, testBit_groupbyMask bin few inside,
      testBit_groupbyMask bin' few inside, Bool.eq_iff_iff,
      ← mem_getRegTupleFromBin64 (by omega) inside, ← mem_getRegTupleFromBin64 (by omega) inside,
      same]
  · simp only [groupbyMask, Nat.testBit_mod_two_pow, Nat.testBit_shiftLeft]
    by_cases low : k < 32
    · have below : ¬ k ≥ 32 - nTopDims := by omega
      simp [below]
    · simp [low]

theorem bit_of_parent {groupby grpb : Nat} (covers : groupby &&& grpb = groupby) {i : Nat}
    (inside : i < 32) (set : groupby &&& (MLB32 >>> i) ≠ 0) : grpb &&& (MLB32 >>> i) ≠ 0 := by
  rw [show MLB32 = 2 ^ 31 from rfl, and_shiftRight_ne_zero _ (by omega)] at set ⊢
  rw [← covers, Nat.testBit_and, Bool.and_eq_true] at set
  exact set.2

theorem getRegTupleFromBin32_succ (mask n : Nat) :
    getRegTupleFromBin32 mask (n + 1) = getRegTupleFromBin32 mask n ++
      if mask &&& (MLB32 >>> n) ≠ 0 then [n + 1] else [] := by
  rw [getRegTupleFromBin32, List.range_succ, List.filter_append, List.map_append]
  refine congrArg (getRegTupleFromBin32 mask n ++ ·) ?_
  by_cases set : mask &&& (MLB32 >>> n) ≠ 0 <;> simp [set]

theorem mem_getRegTupleFromBin32 {mask n d : Nat} :
    d ∈ getRegTupleFromBin32 mask n ↔ 1 ≤ d ∧ d ≤ n ∧ mask &&& (MLB32 >>> (d - 1)) ≠ 0 := by
  simp only [getRegTupleFromBin32, List.mem_map, List.mem_filter, List.mem_range,
    decide_eq_true_eq]
  constructor
  · rintro ⟨i, ⟨inside, set⟩, rfl⟩
    exact ⟨by omega, by omega, set⟩
  · rintro ⟨positive, inside, set⟩
    exact ⟨d - 1, ⟨by omega, set⟩, by omega⟩

theorem getRegTupleFromParent_eq {bin grpb : Nat} (few : nTopDims ≤ 32)
    (covers : groupbyMask nTopDims bin &&& grpb = groupbyMask nTopDims bin) :
    getRegTupleFromParent bin grpb nTopDims =
      (getRegTupleFromBin64 bin nTopDims).map fun d =>
        (getRegTupleFromBin32 grpb nTopDims).idxOf d + 1 := by
  rw [← getRegTupleFromBin32_groupbyMask bin few, getRegTupleFromParent]
  generalize groupbyMask nTopDims bin = groupby at covers ⊢
  -- the invariant is about the first `n` attributes
  have fold : ∀ n ≤ nTopDims, (List.range n).foldl (fun x i =>
      let k := if grpb &&& (MLB32 >>> i) ≠ 0 then x.1 + 1 else x.1
      if grpb &&& (MLB32 >>> i) ≠ 0 ∧ groupby &&& (MLB32 >>> i) ≠ 0
      then (k, x.2 ++ [k]) else (k, x.2)) (0, []) =
        ((getRegTupleFromBin32 grpb n).length, (getRegTupleFromBin32 groupby n).map fun d =>
          (getRegTupleFromBin32 grpb n).idxOf d + 1) := by
    intro n
    induction n with
    | zero => exact fun _ => rfl
    | succ n ih =>
        intro upTo
        -- places found before stay
        have kept : (getRegTupleFromBin32 groupby n).map (fun d =>
            (getRegTupleFromBin32 grpb (n + 1)).idxOf d + 1) =
              (getRegTupleFromBin32 groupby n).map fun d =>
                (getRegTupleFromBin32 grpb n).idxOf d + 1 := by
          refine List.map_congr_left ?_
          intro d hd
          obtain ⟨positive, inside, set⟩ := mem_getRegTupleFromBin32.mp hd
          have parent := bit_of_parent covers (by omega) set
          rw [getRegTupleFromBin32_succ, List.idxOf_append_of_mem
            (mem_getRegTupleFromBin32.mpr ⟨positive, inside, parent⟩)]
        have new : n + 1 ∉ getRegTupleFromBin32 grpb n := fun member => by
          have := (mem_getRegTupleFromBin32.mp member).2.1
          omega
        rw [List.range_succ, List.foldl_append, ih (by omega), List.foldl_cons, List.foldl_nil]
        dsimp only
        rw [getRegTupleFromBin32_succ groupby, List.map_append, kept, getRegTupleFromBin32_succ]
        by_cases parent : grpb &&& (MLB32 >>> n) ≠ 0
        · have place : (getRegTupleFromBin32 grpb n ++ [n + 1]).idxOf (n + 1) =
              (getRegTupleFromBin32 grpb n).length := by
            rw [List.idxOf_append_of_notMem new, List.idxOf_cons_self, Nat.add_zero]
          by_cases view : groupby &&& (MLB32 >>> n) ≠ 0
          · rw [if_pos parent, if_pos ⟨parent, view⟩, if_pos parent, if_pos view,
              List.map_singleton, place, List.length_append, List.length_singleton]
          · rw [if_pos parent, if_neg (fun both => view both.2), if_pos parent, if_neg view,
              List.map_nil, List.append_nil, List.length_append, List.length_singleton]
        · have view : ¬ groupby &&& (MLB32 >>> n) ≠ 0 :=
            fun set => parent (bit_of_parent covers (by omega) set)
          rw [if_neg parent, if_neg (fun both => view both.2), if_neg parent, if_neg view,
            List.map_nil, List.append_nil, List.append_nil]
  rw [fold nTopDims le_rfl]

theorem getRegTupleFromParent_spec {bin grpb : Nat} (few : nTopDims ≤ 32)
    (covers : groupbyMask nTopDims bin &&& grpb = groupbyMask nTopDims bin) (f : Nat → Nat) :
    (getRegTupleFromParent bin grpb nTopDims).map
        (fun k => ((getRegTupleFromBin32 grpb nTopDims).map f).getD (k - 1) 0) =
      (getRegTupleFromBin64 bin nTopDims).map f := by
  rw [getRegTupleFromParent_eq few covers, List.map_map, ← getRegTupleFromBin32_groupbyMask bin few]
  refine List.map_congr_left ?_
  intro d hd
  obtain ⟨positive, inside, set⟩ := mem_getRegTupleFromBin32.mp hd
  have parent := bit_of_parent covers (by omega) set
  have place := List.idxOf_lt_length_of_mem
    (mem_getRegTupleFromBin32.mpr ⟨positive, inside, parent⟩)
  rw [Function.comp_apply, Nat.add_sub_cancel, List.getD_eq_getElem _ _ (by simpa using place),
    List.getElem_map, List.getElem_idxOf]

end Bits

section Layers

variable {nTopDims : Nat}

theorem numOfCombsFromNbyK_eq (few : nTopDims ≤ 20) (k : Nat) :
    numOfCombsFromNbyK nTopDims k = nTopDims.choose k := by
  rw [numOfCombsFromNbyK]
  by_cases more : nTopDims < k
  · rw [if_pos more, Nat.choose_eq_zero_of_lt more]
  · rw [if_neg more]
    have fold : ∀ j, (List.range j).foldl
        (fun combsNbyK l => combsNbyK * (nTopDims - l) % 2 ^ 32 / (l + 1)) 1 =
          nTopDims.choose j := by
      intro j
      induction j with
      | zero => simp
      | succ j ih =>
          have bound : nTopDims.choose j ≤ 2 ^ 20 :=
            (Nat.choose_le_two_pow ..).trans (Nat.pow_le_pow_right (by decide) few)
          have small : nTopDims.choose j * (nTopDims - j) < 2 ^ 32 :=
            lt_of_le_of_lt (Nat.mul_le_mul bound (show nTopDims - j ≤ 20 by omega)) (by decide)
          rw [List.range_succ, List.foldl_append, ih, List.foldl_cons, List.foldl_nil,
            Nat.mod_eq_of_lt small, ← Nat.choose_succ_right_eq, Nat.mul_div_cancel _ (by omega)]
    exact fold k

def layerQuantityLimit (nTopDims l : Nat) : Nat := if l = 0 then 0 else nTopDims.choose l

theorem apart_layers (few : nTopDims ≤ 20) :
    Apart (layerIndex nTopDims) (layerQuantityLimit nTopDims) := by
  have step (l : Nat) :
      layerIndex nTopDims l + layerQuantityLimit nTopDims l = layerIndex nTopDims (l + 1) := by
    cases l with
    | zero => rfl
    | succ l =>
        rw [layerIndex, layerIndex, layerQuantityLimit, if_neg (by omega), Nat.add_sub_cancel,
          Nat.add_sub_cancel, List.range_succ, List.map_append, List.sum_append,
          List.map_singleton, List.sum_singleton, numOfCombsFromNbyK_eq few]
        omega
  intro i j less
  induction j with
  | zero => exact absurd less (Nat.not_lt_zero i)
  | succ j ih =>
      rcases Nat.lt_succ_iff_lt_or_eq.mp less with before | rfl
      · have := step j
        have := ih before
        omega
      · exact (step i).le

theorem getRegTupleFromBin32_sublist (mask nTopDims : Nat) :
    List.Sublist (getRegTupleFromBin32 mask nTopDims) ((List.range nTopDims).map (· + 1)) :=
  List.filter_sublist.map _

theorem length_le_layer {sels : List (List Nat)} (distinct : sels.Nodup)
    (subsets : ∀ sel ∈ sels, List.Sublist sel ((List.range nTopDims).map (· + 1)))
    (some_ : ∀ sel ∈ sels, sel ≠ []) (l : Nat) :
    (sels.filter fun sel => sel.length = l).length ≤ layerQuantityLimit nTopDims l := by
  rw [layerQuantityLimit]
  split_ifs with zero
  · refine Nat.le_zero.mpr (List.length_eq_zero_iff.mpr (List.filter_eq_nil_iff.mpr ?_))
    intro sel member length
    rw [zero] at length
    exact some_ sel member (List.length_eq_zero_iff.mp (of_decide_eq_true length))
  · have inside : sels.filter (fun sel => sel.length = l) ⊆
        ((List.range nTopDims).map (· + 1)).sublistsLen l := by
      intro sel member
      obtain ⟨here, length⟩ := List.mem_filter.mp member
      exact List.mem_sublistsLen.mpr ⟨subsets sel here, of_decide_eq_true length⟩
    have count := (List.subperm_of_subset (distinct.filter _) inside).length_le
    rwa [List.length_sublistsLen, List.length_map, List.length_range] at count

end Layers

section Parents

variable {groupby : Nat}

structure Candidates.Sound (groupby : Nat) (jobs : List Job) (found : Candidates) : Prop where
  smallest : ∀ job ∈ found.smallest, job ∈ jobs ∧ groupby &&& job.grpb = groupby
  prefixed : ∀ job ∈ found.prefixed, (job ∈ jobs ∧ groupby &&& job.grpb = groupby) ∧
    job.grpb &&& setLeadingOnes32 (mro32 groupby) = groupby
  sharedSort : ∀ job ∈ found.sharedSort, (job ∈ jobs ∧ groupby &&& job.grpb = groupby) ∧
    job.grpb &&& setOneBit32 0 (mlo32 groupby) ≠ 0 ∧
    job.grpb &&& setLeadingOnes32 (mlo32 groupby) = 0

theorem forall_fewerRows {P : Job → Prop} {best : Option Job} {job : Job}
    (h : ∀ x ∈ best, P x) (own : P job) : ∀ x ∈ fewerRows best job, P x := by
  intro x hx
  cases best with
  | none =>
      cases hx
      exact own
  | some b =>
      rw [fewerRows] at hx
      split_ifs at hx
      · cases hx
        exact own
      · exact h x hx

theorem Candidates.Sound.consider {found : Candidates} {jobs : List Job} {job : Job}
    (h : found.Sound groupby jobs) (here : job ∈ jobs) :
    (found.consider groupby job).Sound groupby jobs := by
  rw [Candidates.consider]
  by_cases covers : groupby &&& job.grpb = groupby
  · rw [if_pos covers]
    refine ⟨forall_fewerRows h.smallest ⟨here, covers⟩, ?_, ?_⟩
    · dsimp only
      split_ifs with first
      · exact forall_fewerRows h.prefixed ⟨⟨here, covers⟩, first⟩
      · exact h.prefixed
    · dsimp only
      split_ifs with first
      · exact forall_fewerRows h.sharedSort ⟨⟨here, covers⟩, first⟩
      · exact h.sharedSort
  · rw [if_neg covers]
    exact h

theorem Candidates.Sound.foldl {found : Candidates} {jobs : List Job}
    (h : found.Sound groupby jobs) (more : List Job) (among : ∀ job ∈ more, job ∈ jobs) :
    (more.foldl (Candidates.consider groupby) found).Sound groupby jobs := by
  induction more generalizing found with
  | nil => exact h
  | cons job more ih =>
      rw [List.forall_mem_cons] at among
      exact ih (h.consider among.1) among.2

/-- What `GetParent` promises of each kind of parent. -/
def Promised (groupby : Nat) (job : Job) : Parent → Prop
  | .smallestParent => True
  | .prefixedParent => job.grpb &&& setLeadingOnes32 (mro32 groupby) = groupby
  | .sharedSortParent => job.grpb &&& setOneBit32 0 (mlo32 groupby) ≠ 0 ∧
      job.grpb &&& setLeadingOnes32 (mlo32 groupby) = 0

theorem Candidates.Sound.choice {found : Candidates} {jobs : List Job} {parent : Parent}
    {job : Job} (h : found.Sound groupby jobs) (chosen : found.choice = some (parent, job)) :
    (job ∈ jobs ∧ groupby &&& job.grpb = groupby) ∧ Promised groupby job parent := by
  rw [Candidates.choice] at chosen
  split at chosen
  · rename_i first
    cases chosen
    exact h.prefixed job first
  · rename_i _ second
    cases chosen
    exact h.sharedSort job second
  · rename_i _ _ third
    cases chosen
    exact ⟨h.smallest job third, trivial⟩
  · cases chosen

theorem getParent_spec {nTopDims : Nat} {jpp : Pool Job} {parent : Parent} {level : Nat} {job : Job}
    (found : getParent nTopDims jpp groupby = some (parent, level, job)) :
    (job ∈ jpp.layer (layerIndex nTopDims) level ∧ groupby &&& job.grpb = groupby) ∧
      Promised groupby job parent := by
  obtain ⟨l, _, chosen⟩ := List.exists_of_findSome?_eq_some found
  obtain ⟨⟨kind, best⟩, choice, same⟩ := Option.map_eq_some_iff.mp chosen
  cases same
  have start : (⟨none, none, none⟩ : Candidates).Sound groupby
      (jpp.layer (layerIndex nTopDims) level) := by
    constructor <;> simp
  exact (start.foldl _ fun _ h => h).choice choice

end Parents

section Built

variable {nm nTopDims : Nat} {input : List (Row nm)} {made : List Nat} {cube : Cube nm}

def viewOf (input : List (Row nm)) (sel : List Nat) : List (Row nm) :=
  groupBy (input.map (selectToView sel))

theorem key_viewOf {sel : List Nat} {r : Row nm} (member : r ∈ viewOf input sel) :
    r.1.length = sel.length := by
  have key := mem_groupBy_key.mp (List.mem_map_of_mem member)
  simp only [List.map_map, List.mem_map, Function.comp_apply] at key
  obtain ⟨x, _, same⟩ := key
  rw [← same]
  exact List.length_map _

def viewBytes (nTopDims : Nat) (input : List (Row nm)) (mask : Nat) : Nat :=
  (viewOf input (getRegTupleFromBin32 mask nTopDims)).length *
    getRecSize (getRegTupleFromBin32 mask nTopDims).length nm

theorem viewBytes_eq (nTopDims : Nat) (input : List (Row nm)) (mask : Nat) :
    viewBytes nTopDims input mask =
      ((viewOf input (getRegTupleFromBin32 mask nTopDims)).map recSize).sum :=
  (sum_recSize fun _ hr => key_viewOf hr).symm

/-- The jobs of the views made, of which the first is at an offset. -/
def jobsFrom (nTopDims : Nat) (input : List (Row nm)) : Nat → List Nat → List Job
  | _, [] => []
  | offset, mask :: made =>
      ⟨mask, (getRegTupleFromBin32 mask nTopDims).length,
        (viewOf input (getRegTupleFromBin32 mask nTopDims)).length, offset⟩ ::
      jobsFrom nTopDims input (offset + viewBytes nTopDims input mask) made

theorem jobsFrom_append (offset : Nat) (made : List Nat) (mask : Nat) :
    jobsFrom nTopDims input offset (made ++ [mask]) = jobsFrom nTopDims input offset made ++
      [⟨mask, (getRegTupleFromBin32 mask nTopDims).length,
        (viewOf input (getRegTupleFromBin32 mask nTopDims)).length,
        offset + (made.map (viewBytes nTopDims input)).sum⟩] := by
  induction made generalizing offset with
  | nil => simp [jobsFrom]
  | cons m made ih =>
      rw [List.cons_append, jobsFrom, ih, jobsFrom, List.map_cons, List.sum_cons, Nat.add_assoc,
        List.cons_append]

theorem mem_jobsFrom {job : Job} {offset : Nat}
    (member : job ∈ jobsFrom nTopDims input offset made) :
    ∃ front mask back, made = front ++ mask :: back ∧
      job = ⟨mask, (getRegTupleFromBin32 mask nTopDims).length,
        (viewOf input (getRegTupleFromBin32 mask nTopDims)).length,
        offset + (front.map (viewBytes nTopDims input)).sum⟩ := by
  induction made generalizing offset with
  | nil => cases member
  | cons m made ih =>
      rw [jobsFrom] at member
      rcases List.mem_cons.mp member with rfl | later
      · exact ⟨[], m, made, rfl, rfl⟩
      · obtain ⟨front, mask, back, rfl, rfl⟩ := ih later
        refine ⟨m :: front, mask, back, rfl, ?_⟩
        rw [List.map_cons, List.sum_cons, Nat.add_assoc]

theorem length_jobsFrom_level (offset l : Nat) (made : List Nat) :
    ((jobsFrom nTopDims input offset made).filter fun job => job.nv = l).length =
      ((made.map (getRegTupleFromBin32 · nTopDims)).filter fun sel => sel.length = l).length := by
  induction made generalizing offset with
  | nil => rfl
  | cons m made ih =>
      rw [jobsFrom, List.map_cons, List.filter_cons, List.filter_cons]
      dsimp only
      split_ifs
      · rw [List.length_cons, List.length_cons, ih]
      · exact ih _

structure Built (nTopDims : Nat) (input : List (Row nm)) (made : List Nat) (cube : Cube nm) :
    Prop where
  distinct : (made.map (getRegTupleFromBin32 · nTopDims)).Nodup
  some_ : ∀ mask ∈ made, getRegTupleFromBin32 mask nTopDims ≠ []
  file : cube.viewFile =
    (made.map fun mask => viewOf input (getRegTupleFromBin32 mask nTopDims)).flatten
  offset : cube.accViewFileOffset = (made.map (viewBytes nTopDims input)).sum
  pool : ∀ l, cube.jpp.layer (layerIndex nTopDims) l =
    (jobsFrom nTopDims input 0 made).filter fun job => job.nv = l
  log : cube.log.map (fun v => (v.groupby, v.nViewRows)) =
    made.map fun mask => (mask, (viewOf input (getRegTupleFromBin32 mask nTopDims)).length)

theorem built_new (nTopDims : Nat) (input : List (Row nm)) :
    Built nTopDims input [] (newCube nm) where
  distinct := List.nodup_nil
  some_ := by simp
  file := rfl
  offset := rfl
  pool := fun _ => rfl
  log := rfl

theorem getParent_new (nTopDims groupby : Nat) :
    getParent nTopDims (newCube nm).jpp groupby = none :=
  List.findSome?_eq_none_iff.mpr fun _ _ => rfl

theorem Built.population_eq (h : Built nTopDims input made cube) (l : Nat) :
    cube.jpp.population l =
      ((made.map (getRegTupleFromBin32 · nTopDims)).filter fun sel => sel.length = l).length := by
  rw [← Pool.length_layer (layerIndex nTopDims), h.pool, length_jobsFrom_level]

theorem length_level_le (distinct : (made.map (getRegTupleFromBin32 · nTopDims)).Nodup)
    (some_ : ∀ mask ∈ made, getRegTupleFromBin32 mask nTopDims ≠ []) (l : Nat) :
    ((made.map (getRegTupleFromBin32 · nTopDims)).filter fun sel => sel.length = l).length ≤
      layerQuantityLimit nTopDims l := by
  refine length_le_layer distinct ?_ ?_ l
  · intro sel member
    obtain ⟨mask, _, rfl⟩ := List.mem_map.mp member
    exact getRegTupleFromBin32_sublist mask nTopDims
  · intro sel member
    obtain ⟨mask, here, rfl⟩ := List.mem_map.mp member
    exact some_ mask here

theorem Built.addView (few : nTopDims ≤ 20) (h : Built nTopDims input made cube) {bin mask : Nat}
    (own : groupbyMask nTopDims bin = mask)
    (fresh : getRegTupleFromBin32 mask nTopDims ∉ made.map (getRegTupleFromBin32 · nTopDims))
    (some_ : getRegTupleFromBin32 mask nTopDims ≠ [])
    (small : viewBytes nTopDims input mask < 2 ^ 32) {w : Written nm}
    (rows : w.rows = viewOf input (getRegTupleFromBin32 mask nTopDims))
    (count : w.nViewRows = w.rows.length) :
    Built nTopDims input (made ++ [mask]) (cube.addView nTopDims bin w) := by
  have distinct : ((made ++ [mask]).map (getRegTupleFromBin32 · nTopDims)).Nodup := by
    rw [List.map_append, List.map_singleton, ← List.concat_eq_append]
    exact h.distinct.concat fresh
  have all : ∀ m ∈ made ++ [mask], getRegTupleFromBin32 m nTopDims ≠ [] := by
    intro m hm
    rcases List.mem_append.mp hm with before | here
    · exact h.some_ m before
    · rw [List.mem_singleton.mp here]
      exact some_
  have room : cube.jpp.population (getRegTupleFromBin32 mask nTopDims).length <
      layerQuantityLimit nTopDims (getRegTupleFromBin32 mask nTopDims).length := by
    have count := length_level_le distinct all (getRegTupleFromBin32 mask nTopDims).length
    rw [List.map_append, List.filter_append, List.length_append, ← h.population_eq] at count
    simpa using count
  have others (l : Nat) : cube.jpp.population l ≤ layerQuantityLimit nTopDims l := by
    rw [h.population_eq]
    exact length_level_le h.distinct h.some_ l
  have selection := getRegTupleFromBin32_groupbyMask bin (show nTopDims ≤ 32 by omega)
  rw [own] at selection
  rw [Cube.addView, own, ← selection]
  refine ⟨distinct, all, ?_, ?_, ?_, ?_⟩
  · rw [h.file, rows, List.map_append, List.flatten_append]
    simp
  · rw [h.offset, count, rows, List.map_append, List.sum_append, List.map_singleton,
      List.sum_singleton]
    dsimp only
    rw [← viewBytes, Nat.mod_eq_of_lt small]
  · intro l
    rw [jobsFrom_append, List.filter_append, Nat.zero_add, ← h.pool]
    rcases eq_or_ne l (getRegTupleFromBin32 mask nTopDims).length with rfl | other
    · rw [layer_push, count, rows, h.offset]
      simp
    · rw [layer_push_other (apart_layers few) others room other]
      simp [other.symm]
  · rw [List.map_append, h.log, List.map_append, count, rows]
    rfl

/-- The rows a view is made from: they sum up to those of the input. -/
structure Source (input : List (Row nm)) (sel : List Nat) (rows : List (Row nm)) : Prop where
  same : Same rows (input.map (selectToView sel))
  keys : ∀ r ∈ rows, r.1.length = sel.length
  length : rows.length = input.length ∨ rows.length < 2 ^ 32 - 1

theorem Source.groupBy_eq {sel : List Nat} {rows : List (Row nm)} (h : Source input sel rows) :
    groupBy rows = viewOf input sel :=
  eq_groupBy (ascending_groupBy rows) ((same_groupBy rows).trans h.same)

theorem Source.nil_iff {sel : List Nat} {rows : List (Row nm)} (h : Source input sel rows) :
    rows = [] ↔ input = [] := by
  rw [h.same.nil_iff, List.map_eq_nil_iff]

theorem Built.readRows (size : 0 < nm) (h : Built nTopDims input made cube) {front back : List Nat}
    {mask : Nat} (split : made = front ++ mask :: back) :
    readRows cube.viewFile (front.map (viewBytes nTopDims input)).sum
      (getRegTupleFromBin32 mask nTopDims).length
      (viewOf input (getRegTupleFromBin32 mask nTopDims)).length =
        some (viewOf input (getRegTupleFromBin32 mask nTopDims)) := by
  have bytes : (front.map (viewBytes nTopDims input)).sum =
      (((front.map fun m => viewOf input (getRegTupleFromBin32 m nTopDims)).flatten).map
        recSize).sum := by
    clear split
    induction front with
    | nil => rfl
    | cons m front ih =>
        rw [List.map_cons, List.sum_cons, ih, List.map_cons, List.flatten_cons, List.map_append,
          List.sum_append, viewBytes_eq]
  have pieces : cube.viewFile =
      (front.map fun m => viewOf input (getRegTupleFromBin32 m nTopDims)).flatten ++
      (viewOf input (getRegTupleFromBin32 mask nTopDims) ++
        (back.map fun m => viewOf input (getRegTupleFromBin32 m nTopDims)).flatten) := by
    rw [h.file, split]
    simp
  have sizes : ∀ r ∈ (front.map fun m => viewOf input (getRegTupleFromBin32 m nTopDims)).flatten,
      0 < recSize r := by
    intro r _
    simp only [recSize, getRecSize, DIM_FSZ, MSR_FSZ]
    omega
  rw [DcCube.readRows, bytes, pieces, seek_append sizes]
  dsimp only
  rw [List.take_left, if_pos ⟨by rw [List.length_append]; omega, fun r hr => key_viewOf hr⟩]

theorem Built.parentRows (size : 0 < nm) (h : Built nTopDims input made cube) {bin level : Nat}
    {parent : Parent} {job : Job}
    (found : getParent nTopDims cube.jpp (groupbyMask nTopDims bin) = some (parent, level, job)) :
    job.grpb ∈ made ∧ groupbyMask nTopDims bin &&& job.grpb = groupbyMask nTopDims bin ∧
      Promised (groupbyMask nTopDims bin) job parent ∧
      sourceRows nTopDims input cube bin =
        some (some parent, (viewOf input (getRegTupleFromBin32 job.grpb nTopDims)).map
          (selectToView (getRegTupleFromParent bin job.grpb nTopDims))) := by
  obtain ⟨⟨member, covers⟩, promised⟩ := getParent_spec found
  rw [h.pool] at member
  obtain ⟨listed, nv⟩ := List.mem_filter.mp member
  obtain ⟨front, mask, back, split, rfl⟩ := mem_jobsFrom listed
  have level : (getRegTupleFromBin32 mask nTopDims).length = level := of_decide_eq_true nv
  refine ⟨by rw [split]; simp, covers, promised, ?_⟩
  rw [sourceRows, found]
  dsimp only
  rw [Nat.zero_add, ← level, h.readRows size split, Option.map_some]

theorem Built.source (few : nTopDims ≤ 20) (size : 0 < nm) (h : Built nTopDims input made cube)
    (small : ∀ mask ∈ made, viewBytes nTopDims input mask < 2 ^ 32) (bin : Nat) :
    ∃ parent rows, sourceRows nTopDims input cube bin = some (parent, rows) ∧
      Source input (getRegTupleFromBin64 bin nTopDims) rows := by
  cases found : getParent nTopDims cube.jpp (groupbyMask nTopDims bin) with
  | none =>
      rw [sourceRows, found]
      refine ⟨_, _, rfl, .refl _, ?_, .inl (List.length_map _)⟩
      intro r hr
      obtain ⟨x, _, rfl⟩ := List.mem_map.mp hr
      exact List.length_map _
  | some choice =>
      obtain ⟨parent, level, job⟩ := choice
      obtain ⟨member, covers, _, rows⟩ := h.parentRows size found
      rw [rows]
      have places := getRegTupleFromParent_spec (show nTopDims ≤ 32 by omega) covers
      generalize job.grpb = mask at member places ⊢
      refine ⟨_, _, rfl, ?_, ?_, .inr ?_⟩
      · have again : (input.map (selectToView (getRegTupleFromBin32 mask nTopDims))).map
            (selectToView (getRegTupleFromParent bin mask nTopDims)) =
              input.map (selectToView (getRegTupleFromBin64 bin nTopDims)) := by
          rw [List.map_map]
          refine List.map_congr_left ?_
          intro r _
          exact Prod.ext (places fun i => r.1.getD (i - 1) 0) rfl
        rw [← again]
        exact (same_groupBy (input.map (selectToView (getRegTupleFromBin32 mask nTopDims)))).map
          fun key => (getRegTupleFromParent bin mask nTopDims).map fun i => key.getD (i - 1) 0
      · intro r hr
        obtain ⟨x, _, rfl⟩ := List.mem_map.mp hr
        have length := congrArg List.length (places id)
        rw [List.length_map, List.length_map] at length
        rw [selectToView, List.length_map, length]
      · have bytes := small mask member
        have most : (viewOf input (getRegTupleFromBin32 mask nTopDims)).length * 8 ≤
            viewBytes nTopDims input mask := by
          refine Nat.mul_le_mul_left _ ?_
          simp only [getRecSize, DIM_FSZ, MSR_FSZ]
          omega
        rw [List.length_map]
        omega

end Built

section Runs

variable {nm nTopDims : Nat} {input : List (Row nm)} {made : List Nat} {cube : Cube nm}

def masks (nTopDims : Nat) (groupbyFile : List (List Nat)) : List Nat :=
  groupbyFile.map fun record => groupbyMask nTopDims (binRepTuple record)

theorem selections_masks (few : nTopDims ≤ 20) (groupbyFile : List (List Nat)) :
    (masks nTopDims groupbyFile).map (getRegTupleFromBin32 · nTopDims) =
      readGroupbys nTopDims groupbyFile := by
  rw [masks, List.map_map, readGroupbys]
  refine List.map_congr_left ?_
  intro record _
  exact getRegTupleFromBin32_groupbyMask _ (by omega)

theorem readGroupbys_cons (nTopDims : Nat) (record : List Nat) (file : List (List Nat)) :
    readGroupbys nTopDims (record :: file) =
      getRegTupleFromBin64 (binRepTuple record) nTopDims :: readGroupbys nTopDims file := rfl

structure Pending (nTopDims : Nat) (input : List (Row nm)) (made more : List Nat) : Prop where
  distinct : ((made ++ more).map (getRegTupleFromBin32 · nTopDims)).Nodup
  some_ : ∀ mask ∈ made ++ more, getRegTupleFromBin32 mask nTopDims ≠ []
  small : ∀ mask ∈ made ++ more, viewBytes nTopDims input mask < 2 ^ 32

theorem pending_start (few : nTopDims ≤ 20) {groupbyFile : List (List Nat)}
    (distinct : (readGroupbys nTopDims groupbyFile).Nodup)
    (some_ : ∀ sel ∈ readGroupbys nTopDims groupbyFile, sel ≠ [])
    (small : ∀ sel ∈ readGroupbys nTopDims groupbyFile,
      (viewOf input sel).length * getRecSize sel.length nm < 2 ^ 32) :
    Pending nTopDims input [] (masks nTopDims groupbyFile) := by
  have selections := selections_masks few groupbyFile
  have member {mask : Nat} (hm : mask ∈ masks nTopDims groupbyFile) :
      getRegTupleFromBin32 mask nTopDims ∈ readGroupbys nTopDims groupbyFile := by
    rw [← selections]
    exact List.mem_map_of_mem hm
  refine ⟨?_, fun mask hm => some_ _ (member hm), fun mask hm => small _ (member hm)⟩
  rw [List.nil_append, selections]
  exact distinct

theorem Pending.next {mask : Nat} {more : List Nat}
    (h : Pending nTopDims input made (mask :: more)) :
    Pending nTopDims input (made ++ [mask]) more := by
  have all : made ++ [mask] ++ more = made ++ mask :: more := by simp
  refine ⟨?_, ?_, ?_⟩
  · rw [all]
    exact h.distinct
  · rw [all]
    exact h.some_
  · rw [all]
    exact h.small

theorem Pending.fresh {mask : Nat} {more : List Nat}
    (h : Pending nTopDims input made (mask :: more)) :
    getRegTupleFromBin32 mask nTopDims ∉ made.map (getRegTupleFromBin32 · nTopDims) := by
  have distinct := h.distinct
  rw [List.map_append, List.nodup_append] at distinct
  intro old
  exact distinct.2.2 _ old _ (by simp) rfl

theorem Built.computeGroupby (few : nTopDims ≤ 20) (size : 0 < nm) (most : nm ≤ MAX_NUM_OF_MEAS)
    (h : Built nTopDims input made cube) {bin : Nat} {more : List Nat}
    (pending : Pending nTopDims input made (groupbyMask nTopDims bin :: more)) (make : Make nm) :
    ∃ parent rows, sourceRows nTopDims input cube bin = some (parent, rows) ∧
      Source input (getRegTupleFromBin64 bin nTopDims) rows ∧
      DcCube.computeGroupby make nTopDims input cube bin =
        (make parent (getRegTupleFromBin64 bin nTopDims).length rows).bind
          (fun w => .ok (cube.addView nTopDims bin w)) ∧
      ∀ w : Written nm, w.rows = groupBy rows → w.nViewRows = w.rows.length →
        Built nTopDims input (made ++ [groupbyMask nTopDims bin])
          (cube.addView nTopDims bin w) := by
  have small : ∀ mask ∈ made, viewBytes nTopDims input mask < 2 ^ 32 :=
    fun mask hm => pending.small mask (List.mem_append_left _ hm)
  obtain ⟨parent, rows, source, spec⟩ := h.source few size small bin
  refine ⟨parent, rows, source, spec, ?_, ?_⟩
  · rw [DcCube.computeGroupby, if_neg (Nat.not_lt.mpr most), source]
  · intro w grouped count
    rw [spec.groupBy_eq, ← getRegTupleFromBin32_groupbyMask _ (show nTopDims ≤ 32 by omega)]
      at grouped
    exact h.addView few rfl pending.fresh (pending.some_ _ (by simp)) (pending.small _ (by simp))
      grouped count

variable {memoryLimit : Nat}

/-- A view as the plain build writes it: from the tree when the rows leave a node free. -/
def writtenView (memoryLimit : Nat) (input : List (Row nm)) (sel : List Nat) : Written nm :=
  if (viewOf input sel).length < memoryLimit / treeNodeSize sel.length nm
  then treeView (viewOf input sel) else mergeView (viewOf input sel)

theorem writtenView_right (memoryLimit : Nat) (input : List (Row nm)) (sel : List Nat) :
    (writtenView memoryLimit input sel).rows = viewOf input sel ∧
      (writtenView memoryLimit input sel).nViewRows =
        (writtenView memoryLimit input sel).rows.length := by
  rw [writtenView]
  split_ifs <;> simp

theorem writtenView_nil (memoryLimit : Nat) (sel : List Nat) :
    writtenView memoryLimit ([] : List (Row nm)) sel = treeView [] := by
  rw [writtenView]
  split_ifs <;> rfl

theorem plainMake_spec (limit : memoryLimit < 2 ^ 32) (size : 0 < nm) (parent : Option Parent)
    {sel : List Nat} {rows : List (Row nm)} (source : Source input sel rows)
    (short : input.length < 2 ^ 32 - 1)
    (room : input = [] ∨ treeNodeSize sel.length nm ≤ memoryLimit) :
    plainMake memoryLimit parent sel.length rows = .error ADC_INTERNAL_ERROR ∨
      plainMake memoryLimit parent sel.length rows = .ok (writtenView memoryLimit input sel) := by
  have some_ : 0 < getRecSize sel.length nm := by
    simp only [getRecSize, DIM_FSZ, MSR_FSZ]
    omega
  have few : rows.length ≠ 2 ^ 32 - 1 := by
    rcases source.length with same | less
    · omega
    · omega
  rw [plainMake]
  rcases room with rfl | room
  · rw [source.nil_iff.mpr rfl, plainView_nil, writtenView_nil]
    exact .inr rfl
  · rcases plainView_spec limit some_ room source.keys few with
      ⟨failed, _⟩ | ⟨less, made⟩ | ⟨more, made⟩
    · exact .inl failed
    · rw [source.groupBy_eq] at less made
      exact .inr (by rw [made, writtenView, if_pos less])
    · rw [source.groupBy_eq] at more made
      exact .inr (by rw [made, writtenView, if_neg (Nat.not_lt.mpr more)])

def viewLog (nTopDims memoryLimit : Nat) (input : List (Row nm)) (mask : Nat) : ViewLog nm :=
  ⟨mask, (writtenView memoryLimit input (getRegTupleFromBin32 mask nTopDims)).nViewRows,
    (writtenView memoryLimit input (getRegTupleFromBin32 mask nTopDims)).checksums⟩

theorem Built.plain_run (few : nTopDims ≤ 20) (size : 0 < nm) (most : nm ≤ MAX_NUM_OF_MEAS)
    (limit : memoryLimit < 2 ^ 32) (short : input.length < 2 ^ 32 - 1) (file : List (List Nat))
    (h : Built nTopDims input made cube)
    (pending : Pending nTopDims input made (masks nTopDims file))
    (room : input = [] ∨ ∀ sel ∈ readGroupbys nTopDims file,
      treeNodeSize sel.length nm ≤ memoryLimit) :
    computeGivenGroupbys (plainMake memoryLimit) nTopDims input file cube =
        .error ADC_INTERNAL_ERROR ∨
      ∃ cube',
        computeGivenGroupbys (plainMake memoryLimit) nTopDims input file cube = .ok cube' ∧
        Built nTopDims input (made ++ masks nTopDims file) cube' ∧
        cube'.log = cube.log ++ (masks nTopDims file).map (viewLog nTopDims memoryLimit input) ∧
        cube'.totchs = fun i => cube.totchs i + ((readGroupbys nTopDims file).map fun sel =>
          (writtenView memoryLimit input sel).checksums i).sum := by
  induction file generalizing made cube with
  | nil =>
      refine .inr ⟨cube, rfl, ?_, ?_, ?_⟩
      · rwa [masks, List.map_nil, List.append_nil]
      · simp [masks]
      · simp [readGroupbys]
  | cons record file ih =>
      rw [masks, List.map_cons, ← masks] at pending ⊢
      obtain ⟨parent, rows, _, source, round, next⟩ :=
        h.computeGroupby few size most pending (plainMake memoryLimit)
      rw [readGroupbys_cons] at room ⊢
      rw [List.forall_mem_cons] at room
      rw [computeGivenGroupbys, round]
      rcases plainMake_spec limit size parent source short (room.imp_right And.left) with
        failed | made'
      · left
        rw [failed]
        rfl
      · rw [made', Outcome.bind, Outcome.bind]
        have view := writtenView_right memoryLimit input
          (getRegTupleFromBin64 (binRepTuple record) nTopDims)
        have built := next _ (by rw [view.1, source.groupBy_eq]) view.2
        rcases ih built pending.next (room.imp_right And.right) with
          failed | ⟨cube', run, built', log, totals⟩
        · exact .inl failed
        · refine .inr ⟨cube', run, by simpa using built', ?_, ?_⟩
          · rw [log, List.map_cons, viewLog,
              getRegTupleFromBin32_groupbyMask _ (show nTopDims ≤ 32 by omega), Cube.addView,
              List.append_assoc]
            rfl
          · rw [totals]
            funext i
            simp only [Cube.addView, List.map_cons, List.sum_cons]
            ring

theorem Built.room_of_run (few : nTopDims ≤ 20) (size : 0 < nm) (most : nm ≤ MAX_NUM_OF_MEAS)
    (limit : memoryLimit < 2 ^ 32) (short : input.length < 2 ^ 32 - 1) (some_ : input ≠ [])
    (file : List (List Nat)) (h : Built nTopDims input made cube)
    (pending : Pending nTopDims input made (masks nTopDims file)) {cube' : Cube nm}
    (run : computeGivenGroupbys (plainMake memoryLimit) nTopDims input file cube = .ok cube') :
    ∀ sel ∈ readGroupbys nTopDims file, treeNodeSize sel.length nm ≤ memoryLimit := by
  induction file generalizing made cube with
  | nil => simp [readGroupbys]
  | cons record file ih =>
      rw [masks, List.map_cons, ← masks] at pending
      obtain ⟨parent, rows, _, source, round, next⟩ :=
        h.computeGroupby few size most pending (plainMake memoryLimit)
      rw [computeGivenGroupbys, round] at run
      rw [readGroupbys_cons, List.forall_mem_cons]
      have room : treeNodeSize (getRegTupleFromBin64 (binRepTuple record) nTopDims).length nm ≤
          memoryLimit := by
        by_contra less
        cases rows with
        | nil => exact some_ (source.nil_iff.mp rfl)
        | cons first rest =>
            rw [plainMake, plainView_overrun limit (source.keys first (List.mem_cons_self ..))
              (by omega)] at run
            cases run
      refine ⟨room, ?_⟩
      rcases plainMake_spec limit size parent source short (.inr room) with failed | made'
      · rw [failed] at run
        cases run
      · rw [made', Outcome.bind, Outcome.bind] at run
        have view := writtenView_right memoryLimit input
          (getRegTupleFromBin64 (binRepTuple record) nTopDims)
        have built := next _ (by rw [view.1, source.groupBy_eq]) view.2
        exact ih built pending.next run

end Runs

section Cube

variable {nm : Nat}

/-- What a view is: a row for every key there is, in ascending order, with the sums of the
measures. -/
structure IsView (input : List (Row nm)) (sel : List Nat) (rows : List (Row nm)) : Prop where
  ascending : rows.Pairwise fun x y => x.1 < y.1
  keys : ∀ key, key ∈ rows.map Prod.fst ↔ ∃ x ∈ input, (selectToView sel x).1 = key
  sums : ∀ r ∈ rows, ∀ i,
    r.2 i = ((input.filter fun x => (selectToView sel x).1 = r.1).map fun x => x.2 i).sum

theorem isView_viewOf (input : List (Row nm)) (sel : List Nat) :
    IsView input sel (viewOf input sel) where
  ascending := ascending_groupBy _
  keys := by
    intro key
    rw [viewOf, mem_groupBy_key]
    simp
  sums := by
    intro r hr i
    have ascending : Ascending (viewOf input sel) := ascending_groupBy _
    rw [← ascending.sumOver_eq hr, viewOf, (same_groupBy _).sums, sumOver, List.filter_map,
      List.map_map, Pi.list_sum_apply, List.map_map]
    exact congrArg (fun l => (l.map fun x : Row nm => x.2 i).sum)
      (List.filter_congr fun x _ => decide_eq_decide.mpr Iff.rfl)

/-- The view file has the right views, and every view's number of rows is told. -/
structure RightCube (nTopDims : Nat) (input : List (Row nm)) (groupbyFile : List (List Nat))
    (cube : Cube nm) : Prop where
  file : cube.viewFile = ((readGroupbys nTopDims groupbyFile).map (viewOf input)).flatten
  nViewRows : cube.log.map ViewLog.nViewRows =
    (readGroupbys nTopDims groupbyFile).map fun sel => (viewOf input sel).length
  views : ∀ sel ∈ readGroupbys nTopDims groupbyFile, IsView input sel (viewOf input sel)

theorem Built.rightCube {nTopDims : Nat} {input : List (Row nm)} {groupbyFile : List (List Nat)}
    {cube : Cube nm} (few : nTopDims ≤ 20)
    (h : Built nTopDims input (masks nTopDims groupbyFile) cube) :
    RightCube nTopDims input groupbyFile cube where
  file := by
    rw [h.file, ← selections_masks few, List.map_map]
    rfl
  nViewRows := by
    have log := congrArg (List.map Prod.snd) h.log
    rw [List.map_map, List.map_map] at log
    rw [← selections_masks few, List.map_map]
    exact log
  views := fun sel _ => isView_viewOf input sel

/-- Every view is right exactly when there are no more measures than the arrays have
entries, the rows can be counted, and the pool has room for a node of every view. -/
theorem views_right_iff {nTopDims memoryLimit : Nat} (measures : 1 ≤ nm) (few : nTopDims ≤ 20)
    (input : List (Row nm)) (nInputRecs : input.length < 2 ^ 32) (limit : memoryLimit < 2 ^ 32)
    (groupbyFile : List (List Nat)) (distinct : (readGroupbys nTopDims groupbyFile).Nodup)
    (some_ : ∀ sel ∈ readGroupbys nTopDims groupbyFile, sel ≠ [])
    (small : ∀ sel ∈ readGroupbys nTopDims groupbyFile,
      (viewOf input sel).length * getRecSize sel.length nm < 2 ^ 32)
    (noError : ∀ retCode, computeGivenGroupbys (plainMake memoryLimit) nTopDims input groupbyFile
      (newCube nm) ≠ .error retCode) :
    (∃ cube, computeGivenGroupbys (plainMake memoryLimit) nTopDims input groupbyFile
        (newCube nm) = .ok cube ∧ RightCube nTopDims input groupbyFile cube) ↔
      groupbyFile = [] ∨ nm ≤ MAX_NUM_OF_MEAS ∧ input.length < 2 ^ 32 - 1 ∧
        (input = [] ∨ ∀ sel ∈ readGroupbys nTopDims groupbyFile,
          treeNodeSize sel.length nm ≤ memoryLimit) := by
  have pending := pending_start few distinct some_ small
  have start := built_new nTopDims input
  constructor
  · rintro ⟨cube, run, _⟩
    cases groupbyFile with
    | nil => exact .inl rfl
    | cons record file =>
        right
        have most : nm ≤ MAX_NUM_OF_MEAS := by
          by_contra more
          rw [computeGivenGroupbys, computeGroupby, if_pos (by omega)] at run
          cases run
        have short : input.length < 2 ^ 32 - 1 := by
          by_contra long
          rw [computeGivenGroupbys, computeGroupby, if_neg (Nat.not_lt.mpr most), sourceRows,
            getParent_new] at run
          dsimp only at run
          cases view : plainMake memoryLimit none
              (getRegTupleFromBin64 (binRepTuple record) nTopDims).length
              (input.map (selectToView (getRegTupleFromBin64 (binRepTuple record) nTopDims))) with
          | ok w => exact plainView_endless (by rw [List.length_map]; omega) w view
          | error retCode =>
              rw [view] at run
              cases run
          | undefined =>
              rw [view] at run
              cases run
        refine ⟨most, short, ?_⟩
        by_cases none : input = []
        · exact .inl none
        · exact .inr (start.room_of_run few measures most limit short none _ pending run)
  · rintro (rfl | ⟨most, short, room⟩)
    · exact ⟨newCube nm, rfl, start.rightCube few⟩
    · rcases start.plain_run few measures most limit short groupbyFile pending room with
        failed | ⟨cube, run, built, _⟩
      · exact absurd failed (noError _)
      · exact ⟨cube, run, built.rightCube few⟩

def groupbyRecord (sel : List Nat) : List Nat := swap8 (bytes (createBinTuple sel))

/-- Three rows of two attributes, two of them with the same first attribute. -/
def threeRows : List (Row 1) := [([2, 1], fun _ => 3), ([1, 5], fun _ => 4), ([2, 4], fun _ => 5)]

theorem views_right_twoNodes :
    (∀ retCode, computeGivenGroupbys (plainMake 96) 2 threeRows
      [groupbyRecord [1, 2], groupbyRecord [1]] (newCube 1) ≠ .error retCode) ∧
    ∃ cube, computeGivenGroupbys (plainMake 96) 2 threeRows
        [groupbyRecord [1, 2], groupbyRecord [1]] (newCube 1) = .ok cube ∧
      RightCube 2 threeRows [groupbyRecord [1, 2], groupbyRecord [1]] cube := by
  have ends : (computeGivenGroupbys (plainMake 96) 2 threeRows
      [groupbyRecord [1, 2], groupbyRecord [1]] (newCube 1)).isOk = true := by decide +kernel
  have noError (retCode : Nat) : computeGivenGroupbys (plainMake 96) 2 threeRows
      [groupbyRecord [1, 2], groupbyRecord [1]] (newCube 1) ≠ .error retCode := by
    intro failed
    rw [failed] at ends
    cases ends
  exact ⟨noError, (views_right_iff (by decide) (by decide) threeRows (by decide) (by decide)
    [groupbyRecord [1, 2], groupbyRecord [1]] (by decide +kernel) (by decide +kernel)
    (by decide +kernel) noError).mpr (.inr ⟨by decide, by decide, .inr (by decide +kernel)⟩)⟩

/-- A pool of 40 bytes has no room for a node of two attributes, and nothing tells so. -/
theorem small_pool_first_row :
    ((readGroupbys 2 [groupbyRecord [1, 2]]).Nodup ∧
      (∀ sel ∈ readGroupbys 2 [groupbyRecord [1, 2]], sel ≠ [] ∧
        (viewOf threeRows sel).length * getRecSize sel.length 1 < 2 ^ 32) ∧
      ∀ retCode, computeGivenGroupbys (plainMake 40) 2 threeRows [groupbyRecord [1, 2]]
        (newCube 1) ≠ .error retCode) ∧
    ¬ ∃ cube, computeGivenGroupbys (plainMake 40) 2 threeRows [groupbyRecord [1, 2]]
        (newCube 1) = .ok cube ∧ RightCube 2 threeRows [groupbyRecord [1, 2]] cube := by
  have run : computeGivenGroupbys (plainMake 40) 2 threeRows [groupbyRecord [1, 2]]
      (newCube 1) = .undefined := by rfl
  rw [run]
  exact ⟨⟨by decide +kernel, by decide +kernel, fun _ h => nomatch h⟩, fun ⟨_, h, _⟩ => nomatch h⟩

end Cube

end Baseliner.DcCube
