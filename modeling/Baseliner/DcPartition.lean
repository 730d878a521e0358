import Mathlib.Data.Nat.Digits.Lemmas
import Mathlib.Data.Finset.Card
import Mathlib.Data.Finset.Sort
import Mathlib.Data.Nat.Bitwise
import Baseliner.SiftSort

/-! `PartitionCube` of the DC benchmark. Every task reads the whole view size file,
sorts the views by size, deals them out to all tasks and keeps its own, which it
writes to its groupby file, those with more attributes first. -/

namespace Baseliner.DcPartition

open SiftSort

/-- The fields of `ADC_VIEW_CNTL` that count here. -/
structure Control where
  nTasks : Nat
  nTopDims : Nat
  nInputRecs : Nat
  memoryLimit : Nat

def Control.nViewLimit (c : Control) : Nat := 2 ^ c.nTopDims - 1

/-- Tuples are 64-bit masks with the first attribute in the highest bit. -/
structure TupleViewsize where
  viewsize : Nat
  tuple : Nat
deriving Inhabited

structure TupleOnes where
  nOnes : Nat
  tuple : Nat
deriving Inhabited

section Reading

def MLB : Nat := 0x8000000000000000

def setOneBit (s pos : Nat) : Nat := s ||| (MLB >>> pos)

def createBinTuple (selTuple : List Nat) : Nat :=
  selTuple.foldl (fun s d => setOneBit s (d - 1)) 0

/-- The words of the view size file that `fscanf` tells apart, and all others. -/
inductive Word where
  | selection
  | view
  | size
  | number (n : Nat)
  | other
deriving DecidableEq

/-- `atoi` of the C library: `strtol`, cut to an `int`. -/
def Word.atoi : Word → Int
  | .number n => if 2 ^ 63 ≤ n then -1 else Int.bmod n (2 ^ 32)
  | _ => 0

/-- One entry of `tuplesAndSizes`, when there is room for it. -/
def enterView (c : Control) (sel : List Nat) (inps : Word) (tuplesAndSizes : List TupleViewsize) :
    Option (List TupleViewsize) :=
  let sz := (inps.atoi % 2 ^ 64).toNat
  if tuplesAndSizes.length < c.nViewLimit then
    some (tuplesAndSizes ++ [⟨if c.nInputRecs < sz then c.nInputRecs else sz, createBinTuple sel⟩])
  else none

/-- The loop over the words of the file; `inside` says whether the inner loop over a
selection is running. That loop has no end but the word `View`, and `sel` has 64
entries. -/
def readViews (c : Control) :
    List Word → (inside : Bool) → (sel : List Nat) → List TupleViewsize →
      Option (List TupleViewsize)
  | [], inside, _, views => if inside then none else some views
  | word :: words, true, sel, views =>
      if word = .view then readViews c words false sel views
      else if sel.length < 64 then
        readViews c words true (sel ++ [(word.atoi % 2 ^ 32).toNat]) views
      else none
  | .size :: inps :: words, false, sel, views =>
      (enterView c sel inps views).bind (readViews c words false [])
  | [.size], false, sel, views => enterView c sel .size views
  | word :: words, false, sel, views => readViews c words (word = .selection) sel views

end Reading

section Dealing

/-- Both sorts are heap sorts; `restore` and `restoreo` are `siftDown` by their keys. -/
def vszsort (x : List TupleViewsize) : List TupleViewsize := sorted TupleViewsize.viewsize x

def onessort (x : List TupleOnes) : List TupleOnes := sorted TupleOnes.nOnes x

def countTupleOnes (binRepTuple numDims : Nat) : Nat :=
  (List.range numDims).countP fun i => binRepTuple.testBit i

structure Jobs where
  pn : Nat
  direction : Bool
  gbuf : List Nat
  nGroupbys : Nat → Nat

/-- The move to the next task, with a stop at either end. -/
def Jobs.turn (jobs : Jobs) (nTasks : Nat) : Jobs :=
  let last := jobs.direction = false ∧ jobs.pn = nTasks - 1
  let direction := if last then true else jobs.direction
  let first := direction = true ∧ jobs.pn = 0
  if first then { jobs with direction := false }
  else if last then { jobs with direction := true }
  else { jobs with pn := if direction then jobs.pn - 1 else jobs.pn + 1 }

/-- A view for task `pn`; `gbuf` lies in the memory pool. -/
def assignViews (c : Control) (taskNumber : Nat) : List TupleViewsize → Jobs → Option Jobs
  | [], jobs => some jobs
  | view :: views, jobs =>
      let mine := jobs.pn = taskNumber
      if mine ∧ c.memoryLimit < 8 * (jobs.gbuf.length + 1) then none
      else
        let jobs := { jobs with
          gbuf := if mine then jobs.gbuf ++ [view.tuple] else jobs.gbuf
          nGroupbys := Function.update jobs.nGroupbys jobs.pn (jobs.nGroupbys jobs.pn + 1) }
        assignViews c taskNumber views (jobs.turn c.nTasks)

/-- The eight bytes of a number in memory, and `swap8` of them. -/
def bytes (n : Nat) : List Nat := (List.range 8).map fun i => n / 256 ^ i % 256

def swap8 (num : List Nat) : List Nat := num.reverse

def MAX_NUMBER_OF_TASKS : Nat := 256

/-- The groupby file of a task, record by record; the counters of the tasks are an array. -/
def multiFileProcJobs (c : Control) (taskNumber : Nat) (tuplesAndSizes : List TupleViewsize) :
    Option (List (List Nat)) :=
  if MAX_NUMBER_OF_TASKS < c.nTasks then none else
  (assignViews c taskNumber tuplesAndSizes.reverse ⟨0, false, [], fun _ => 0⟩).map fun jobs =>
    let toptr := (List.range (jobs.nGroupbys taskNumber)).map fun j =>
      (⟨countTupleOnes (jobs.gbuf.getD j 0) c.nTopDims, jobs.gbuf.getD j 0⟩ : TupleOnes)
    (onessort toptr).reverse.map fun x =>
      swap8 (bytes (x.tuple <<< (64 - c.nTopDims) % 2 ^ 64))

def partitionCube (c : Control) (taskNumber : Nat) (file : List Word) :
    Option (List (List Nat)) :=
  (readViews c file false [] []).bind fun tuplesAndSizes =>
    multiFileProcJobs c taskNumber ((vszsort tuplesAndSizes).map fun x =>
      { x with tuple := x.tuple >>> (64 - c.nTopDims) })

end Dealing

section Groupbys

def getRegTupleFromBin64 (binRepTuple numDims : Nat) : List Nat :=
  ((List.range numDims).filter fun i => binRepTuple &&& (MLB >>> i) ≠ 0).map (· + 1)

/-- The selections of a groupby file, as `ComputeGivenGroupbys` reads them. -/
def readGroupbys (nTopDims : Nat) (file : List (List Nat)) : List (List Nat) :=
  file.map fun record => getRegTupleFromBin64 (Nat.ofDigits 256 (swap8 record)) nTopDims

end Groupbys

structure Entry where
  selection : List Nat
  size : Nat

def Entry.words (e : Entry) : List Word :=
  .selection :: e.selection.map .number ++ [.view, .size, .number e.size]

/-- The view size file; its last line is `Total in bytes: .. Number of tuples: ..`. -/
def viewSizesFile (entries : List Entry) (totalInBytes nCubeTuples : Nat) : List Word :=
  entries.flatMap Entry.words ++ [.other, .other, .other, .number totalInBytes, .other, .other,
    .other, .number nCubeTuples]

section Read

variable {c : Control}

theorem readViews_selection (sel acc : List Nat) (rest : List Word) (views : List TupleViewsize)
    (room : acc.length + sel.length ≤ 64) (small : ∀ d ∈ sel, d < 2 ^ 31) :
    readViews c (sel.map .number ++ .view :: rest) true acc views =
      readViews c rest false (acc ++ sel) views := by
  induction sel generalizing acc with
  | nil => simp [readViews]
  | cons d sel ih =>
      rw [List.forall_mem_cons] at small
      rw [List.length_cons] at room
      have value : ((Word.number d).atoi % 2 ^ 32).toNat = d := by
        have cut : (Int.bmod (d : Int) (2 ^ 32)) = d := Int.bmod_eq_of_le (by omega) (by omega)
        rw [Word.atoi, if_neg (by omega), cut]
        omega
      rw [List.map_cons, List.cons_append, readViews, if_neg (by simp), if_pos (by omega), value,
        ih _ (by rw [List.length_append]; simp; omega) small.2]
      simp

/-- The entry of `tuplesAndSizes` for an entry of the file. -/
def record (c : Control) (e : Entry) : TupleViewsize :=
  let sz := ((Word.number e.size).atoi % 2 ^ 64).toNat
  ⟨if c.nInputRecs < sz then c.nInputRecs else sz, createBinTuple e.selection⟩

/-- Selections within the attributes, with room in `sel`. -/
def Fits (c : Control) (entries : List Entry) : Prop :=
  ∀ e ∈ entries, e.selection.length ≤ 64 ∧ ∀ d ∈ e.selection, 1 ≤ d ∧ d ≤ c.nTopDims

theorem readViews_idle {tail : List Word} (idle : ∀ w ∈ tail, w ≠ .selection ∧ w ≠ .size)
    (sel : List Nat) (views : List TupleViewsize) :
    readViews c tail false sel views = some views := by
  induction tail with
  | nil => simp [readViews]
  | cons w tail ih =>
      rw [List.forall_mem_cons] at idle
      have rest := ih idle.2
      cases w with
      | selection => exact absurd rfl idle.1.1
      | size => exact absurd rfl idle.1.2
      | view => simpa [readViews] using rest
      | number n => simpa [readViews] using rest
      | other => simpa [readViews] using rest

theorem readViews_words (dims : c.nTopDims ≤ 20) (entries : List Entry) (fits : Fits c entries)
    {tail : List Word} (idle : ∀ w ∈ tail, w ≠ .selection ∧ w ≠ .size)
    (views : List TupleViewsize) (room : views.length ≤ c.nViewLimit) :
    readViews c (entries.flatMap Entry.words ++ tail) false [] views =
      if views.length + entries.length ≤ c.nViewLimit then some (views ++ entries.map (record c))
      else none := by
  induction entries generalizing views with
  | nil => simp [readViews_idle idle, room]
  | cons e entries ih =>
      rw [Fits, List.forall_mem_cons] at fits
      have words : (e :: entries).flatMap Entry.words ++ tail =
          .selection :: (e.selection.map .number ++ .view :: .size :: .number e.size ::
            (entries.flatMap Entry.words ++ tail)) := by
        simp [Entry.words]
      have opened (rest : List Word) : readViews c (.selection :: rest) false [] views =
          readViews c rest true [] views := by
        simp [readViews]
      rw [words, opened, readViews_selection _ _ _ _ (by simpa using fits.1.1)
        (fun d hd => by have := fits.1.2 d hd; omega), readViews, enterView, List.nil_append]
      by_cases more : views.length < c.nViewLimit
      · rw [if_pos more, Option.bind_some, ih fits.2 _ (by rw [List.length_append]; simp; omega)]
        simp only [List.length_append, List.length_cons, List.length_nil, List.map_cons, record,
          List.append_assoc, List.singleton_append]
        split_ifs <;> first | rfl | omega
      · rw [if_neg more, if_neg (by rw [List.length_cons]; omega)]
        rfl

theorem readViews_entries (dims : c.nTopDims ≤ 20) (entries : List Entry)
    (fits : Fits c entries) (totalInBytes nCubeTuples : Nat) :
    readViews c (viewSizesFile entries totalInBytes nCubeTuples) false [] [] =
      if entries.length ≤ c.nViewLimit then some (entries.map (record c)) else none := by
  rw [viewSizesFile, readViews_words dims entries fits (by simp) [] (Nat.zero_le _)]
  simp

end Read

section Masks

theorem testBit_createBinTuple {sel : List Nat} (small : ∀ d ∈ sel, 1 ≤ d ∧ d ≤ 64) (b : Nat) :
    (createBinTuple sel).testBit b ↔ ∃ d ∈ sel, b + d = 64 := by
  have fold : ∀ s, (sel.foldl (fun s d => setOneBit s (d - 1)) s).testBit b ↔
      s.testBit b ∨ ∃ d ∈ sel, b + d = 64 := by
    induction sel with
    | nil => simp
    | cons d sel ih =>
        intro s
        rw [List.forall_mem_cons] at small
        have mask : MLB >>> (d - 1) = 2 ^ (64 - d) := by
          have power : MLB = 2 ^ 63 := rfl
          rw [power, Nat.shiftRight_eq_div_pow, Nat.pow_div (by omega) (by decide)]
          congr 1
          omega
        rw [List.foldl_cons, ih small.2, setOneBit, mask, Nat.testBit_or, Nat.testBit_two_pow]
        simp only [Bool.or_eq_true, decide_eq_true_eq, List.mem_cons, exists_eq_or_imp]
        have : 64 - d = b ↔ b + d = 64 := by omega
        rw [this, or_assoc]
  simpa [createBinTuple] using fold 0

def low (nTopDims : Nat) (sel : List Nat) : Nat := createBinTuple sel >>> (64 - nTopDims)

def dims (nTopDims tuple : Nat) : Finset Nat :=
  (Finset.Icc 1 nTopDims).filter fun d => tuple.testBit (nTopDims - d)

variable {nTopDims : Nat}

theorem testBit_low {sel : List Nat} (few : nTopDims ≤ 20)
    (small : ∀ d ∈ sel, 1 ≤ d ∧ d ≤ nTopDims) (b : Nat) :
    (low nTopDims sel).testBit b ↔ ∃ d ∈ sel, b + d = nTopDims := by
  rw [low, Nat.testBit_shiftRight,
    testBit_createBinTuple fun d hd => by have := small d hd; omega]
  refine exists_congr ?_
  intro d
  refine and_congr_right ?_
  intro hd
  have := small d hd
  omega

theorem dims_low {sel : List Nat} (few : nTopDims ≤ 20)
    (small : ∀ d ∈ sel, 1 ≤ d ∧ d ≤ nTopDims) :
    dims nTopDims (low nTopDims sel) = sel.toFinset := by
  ext d
  rw [dims, Finset.mem_filter, Finset.mem_Icc, testBit_low few small, List.mem_toFinset]
  constructor
  · rintro ⟨inside, e, he, same⟩
    rwa [show d = e by omega]
  · intro hd
    exact ⟨small d hd, d, hd, by have := small d hd; omega⟩

theorem ofDigits_bytes (n k : Nat) :
    Nat.ofDigits 256 ((List.range k).map fun i => n / 256 ^ i % 256) = n % 256 ^ k := by
  induction k with
  | zero => simp [Nat.mod_one]
  | succ k ih =>
      rw [List.range_succ, List.map_append, Nat.ofDigits_append, ih, List.length_map,
        List.length_range, List.map_singleton, Nat.ofDigits_singleton, Nat.mod_pow_succ]

theorem read_record (tuple : Nat) (few : nTopDims ≤ 20) :
    (getRegTupleFromBin64 (Nat.ofDigits 256 (swap8 (swap8 (bytes
      (tuple <<< (64 - nTopDims) % 2 ^ 64))))) nTopDims).toFinset = dims nTopDims tuple := by
  have value : Nat.ofDigits 256 (swap8 (swap8 (bytes (tuple <<< (64 - nTopDims) % 2 ^ 64)))) =
      tuple <<< (64 - nTopDims) % 2 ^ 64 := by
    rw [swap8, swap8, List.reverse_reverse, bytes, ofDigits_bytes]
    exact Nat.mod_mod _ _
  have mask (i : Nat) (inside : i < nTopDims) : MLB >>> i = 2 ^ (63 - i) := by
    have power : MLB = 2 ^ 63 := rfl
    rw [power, Nat.shiftRight_eq_div_pow, Nat.pow_div (by omega) (by decide)]
  have bit (i : Nat) (inside : i < nTopDims) :
      (tuple <<< (64 - nTopDims) % 2 ^ 64 &&& (MLB >>> i) ≠ 0) ↔
        tuple.testBit (nTopDims - (i + 1)) := by
    rw [mask i inside, Nat.and_two_pow, Nat.testBit_mod_two_pow, Nat.testBit_shiftLeft,
      show 63 - i - (64 - nTopDims) = nTopDims - (i + 1) by omega]
    have low : 63 - i < 64 := by omega
    have high : 63 - i ≥ 64 - nTopDims := by omega
    cases tuple.testBit (nTopDims - (i + 1)) <;> simp [low, high]
  rw [value]
  ext d
  simp only [getRegTupleFromBin64, List.mem_toFinset, List.mem_map, List.mem_filter,
    List.mem_range, decide_eq_true_eq, dims, Finset.mem_filter, Finset.mem_Icc]
  constructor
  · rintro ⟨i, ⟨inside, set⟩, rfl⟩
    exact ⟨by omega, (bit i inside).mp set⟩
  · rintro ⟨inside, set⟩
    refine ⟨d - 1, ⟨by omega, (bit (d - 1) (by omega)).mpr ?_⟩, by omega⟩
    rwa [show nTopDims - (d - 1 + 1) = nTopDims - d by omega]

theorem countTupleOnes_lt {a b : Nat} (less : dims nTopDims a ⊂ dims nTopDims b) :
    countTupleOnes a nTopDims < countTupleOnes b nTopDims := by
  have card (t : Nat) : countTupleOnes t nTopDims = (dims nTopDims t).card := by
    rw [countTupleOnes, List.countP_eq_length_filter,
      ← List.toFinset_card_of_nodup (List.nodup_range.filter _)]
    refine Finset.card_bij (fun i _ => nTopDims - i) ?_ ?_ ?_
    · intro i hi
      simp only [List.toFinset_filter, List.toFinset_range, Finset.mem_filter, Finset.mem_range]
        at hi
      simp only [dims, Finset.mem_filter, Finset.mem_Icc]
      rw [show nTopDims - (nTopDims - i) = i by omega]
      exact ⟨by omega, hi.2⟩
    · intro i hi j hj same
      simp only [List.toFinset_filter, List.toFinset_range, Finset.mem_filter, Finset.mem_range]
        at hi hj
      omega
    · intro d hd
      simp only [dims, Finset.mem_filter, Finset.mem_Icc] at hd
      refine ⟨nTopDims - d, ?_, by omega⟩
      simp only [List.toFinset_filter, List.toFinset_range, Finset.mem_filter, Finset.mem_range]
      exact ⟨by omega, hd.2⟩
  rw [card, card]
  exact Finset.card_lt_card less

end Masks

section Shares

/-- The task of view `k`: up to the last task and down again. -/
def taskAt (n k : Nat) : Nat := if k % (2 * n) < n then k % (2 * n) else 2 * n - 1 - k % (2 * n)

theorem taskAt_lt {n : Nat} (positive : 0 < n) (k : Nat) : taskAt n k < n := by
  have := Nat.mod_lt k (show 0 < 2 * n by omega)
  unfold taskAt
  split_ifs <;> omega

/-- The views from `k` on that task `t` gets. -/
def share {α : Type} (n t : Nat) : Nat → List α → List α
  | _, [] => []
  | k, view :: views => if taskAt n k = t then view :: share n t (k + 1) views
      else share n t (k + 1) views

variable {α : Type} {n : Nat}

theorem length_share (t k : Nat) (views : List α) :
    (share n t k views).length = (List.range' k views.length).countP fun i => taskAt n i = t := by
  induction views generalizing k with
  | nil => rfl
  | cons view views ih =>
      rw [share, List.length_cons, List.range'_succ, List.countP_cons, ← ih]
      split_ifs <;> simp_all

theorem map_share {β : Type} (f : α → β) (t k : Nat) (views : List α) :
    (share n t k views).map f = share n t k (views.map f) := by
  induction views generalizing k with
  | nil => rfl
  | cons view views ih =>
      rw [share, List.map_cons, share, ← ih]
      split_ifs <;> rfl

theorem flatMap_deal {tasks : List Nat} (distinct : tasks.Nodup) {a : Nat} (task : a ∈ tasks)
    (view : α) (s : Nat → List α) :
    (tasks.flatMap fun t => if a = t then view :: s t else s t).Perm
      (view :: tasks.flatMap s) := by
  induction tasks with
  | nil => cases task
  | cons b tasks ih =>
      rw [List.nodup_cons] at distinct
      rw [List.flatMap_cons, List.flatMap_cons]
      by_cases here : a = b
      · have others : (tasks.flatMap fun t => if a = t then view :: s t else s t) =
            tasks.flatMap s := by
          refine List.flatMap_congr ?_
          intro t ht
          rw [if_neg]
          rintro rfl
          exact distinct.1 (here ▸ ht)
        rw [if_pos here, others, List.cons_append]
      · have later : a ∈ tasks := by
          rcases List.mem_cons.mp task with same | later
          · exact absurd same here
          · exact later
        rw [if_neg here]
        exact ((ih distinct.2 later).append_left (s b)).trans List.perm_middle

theorem flatMap_share (positive : 0 < n) (k : Nat) (views : List α) :
    ((List.range n).flatMap fun t => share n t k views).Perm views := by
  induction views generalizing k with
  | nil => simp [share]
  | cons view views ih =>
      have deal := flatMap_deal List.nodup_range (List.mem_range.mpr (taskAt_lt positive k)) view
        fun t => share n t (k + 1) views
      exact deal.trans ((ih (k + 1)).cons view)

theorem countP_round {t : Nat} (task : t < n) (b r : Nat) (part : r ≤ n) :
    ((List.range' (b * n) r).countP fun i => taskAt n i = t) ≤ 1 ∧
      (r = n → ((List.range' (b * n) r).countP fun i => taskAt n i = t) = 1) := by
  have place : ∃ j < n, ∀ i < n, taskAt n (b * n + i) = t ↔ i = j := by
    have split : b * n % (2 * n) = if b % 2 = 0 then 0 else n := by
      rw [Nat.mul_mod_mul_right]
      split_ifs with even
      · rw [even, Nat.zero_mul]
      · rw [show b % 2 = 1 by omega, Nat.one_mul]
    by_cases even : b % 2 = 0
    · refine ⟨t, task, ?_⟩
      intro i inside
      have index : (b * n + i) % (2 * n) = i := by
        rw [Nat.add_mod, split, if_pos even, Nat.zero_add, Nat.mod_mod,
          Nat.mod_eq_of_lt (by omega)]
      rw [taskAt, index, if_pos inside]
    · refine ⟨n - 1 - t, by omega, ?_⟩
      intro i inside
      have index : (b * n + i) % (2 * n) = n + i := by
        rw [Nat.add_mod, split, if_neg even, Nat.mod_eq_of_lt (show i < 2 * n by omega),
          Nat.mod_eq_of_lt (by omega)]
      rw [taskAt, index, if_neg (by omega)]
      omega
  obtain ⟨j, inside, only⟩ := place
  have count : ((List.range' (b * n) r).countP fun i => taskAt n i = t) =
      (List.range' (b * n) r).count (b * n + j) := by
    rw [List.count]
    refine List.countP_congr ?_
    intro i hi
    rw [List.mem_range'_1] at hi
    have here := only (i - b * n) (by omega)
    rw [show b * n + (i - b * n) = i by omega] at here
    rw [decide_eq_true_eq, here, beq_iff_eq]
    omega
  rw [count]
  refine ⟨List.nodup_iff_count_le_one.mp List.nodup_range' _, ?_⟩
  rintro rfl
  refine List.count_eq_one_of_mem List.nodup_range' ?_
  rw [List.mem_range'_1]
  omega

theorem countP_share {t : Nat} (task : t < n) (count : Nat) :
    count / n ≤ ((List.range' 0 count).countP fun i => taskAt n i = t) ∧
      ((List.range' 0 count).countP fun i => taskAt n i = t) ≤ (count + n - 1) / n := by
  have rounds : ∀ q, ((List.range' 0 (q * n)).countP fun i => taskAt n i = t) = q := by
    intro q
    induction q with
    | zero => simp
    | succ q ih =>
        have joined := List.range'_append_1 (s := 0) (m := q * n) (n := n)
        rw [Nat.zero_add] at joined
        rw [Nat.succ_mul, ← joined, List.countP_append, ih, (countP_round task q n le_rfl).2 rfl]
  have joined := List.range'_append_1 (s := 0) (m := count / n * n) (n := count % n)
  have whole : count / n * n + count % n = count := by
    rw [Nat.mul_comm]
    exact Nat.div_add_mod count n
  have less := Nat.mod_lt count (show 0 < n by omega)
  have rest := countP_round task (count / n) (count % n) less.le
  rw [Nat.zero_add, whole] at joined
  rw [← joined, List.countP_append, rounds]
  refine ⟨by omega, ?_⟩
  rw [Nat.le_div_iff_mul_le (by omega)]
  by_cases none : count % n = 0
  · rw [none]
    simp only [List.range'_zero, List.countP_nil, Nat.add_zero]
    omega
  · have := Nat.mul_le_mul_right n rest.1
    rw [Nat.add_mul]
    omega

theorem countP_share_last {count : Nat} (positive : 0 < n) (some : 0 < count) :
    ((List.range' 0 count).countP fun i => taskAt n i = taskAt n (count - 1)) =
      (count + n - 1) / n := by
  have task := taskAt_lt positive (count - 1)
  refine le_antisymm (countP_share task count).2 ?_
  have before := (countP_share task (count - 1)).1
  have last : List.range' 0 count = List.range' 0 (count - 1) ++ [count - 1] := by
    have joined := List.range'_append_1 (s := 0) (m := count - 1) (n := 1)
    rw [Nat.sub_add_cancel some] at joined
    simpa using joined.symm
  have ceiling : (count + n - 1) / n = (count - 1) / n + 1 := by
    rw [← Nat.add_div_right _ positive]
    congr 1
    omega
  rw [last, List.countP_append, ceiling]
  simp only [List.countP_singleton, decide_true, if_true]
  omega

end Shares

section Dealt

variable {c : Control} {taskNumber : Nat}

/-- The loop variables at view `k`. With one task the direction never changes. -/
structure At (n k : Nat) (jobs : Jobs) : Prop where
  pn : jobs.pn = taskAt n k
  direction : n ≠ 1 → (jobs.direction = true ↔ n ≤ k % (2 * n))
  single : n = 1 → jobs.direction = false

section Turn

variable {jobs : Jobs} {n : Nat}

theorem turn_top (up : jobs.direction = false) (last : jobs.pn = n - 1) (more : n - 1 ≠ 0) :
    jobs.turn n = { jobs with direction := true } := by
  simp [Jobs.turn, up, last, more]

theorem turn_up (up : jobs.direction = false) (inner : jobs.pn ≠ n - 1) :
    jobs.turn n = { jobs with pn := jobs.pn + 1 } := by
  simp [Jobs.turn, up, inner]

theorem turn_bottom (first : jobs.pn = 0) (down : jobs.direction = true ∨ n - 1 = 0) :
    jobs.turn n = { jobs with direction := false } := by
  cases up : jobs.direction <;> simp_all [Jobs.turn]

theorem turn_down (down : jobs.direction = true) (inner : jobs.pn ≠ 0) :
    jobs.turn n = { jobs with pn := jobs.pn - 1 } := by
  simp [Jobs.turn, down, inner]

theorem turn_keeps (jobs : Jobs) (n : Nat) :
    (jobs.turn n).gbuf = jobs.gbuf ∧ (jobs.turn n).nGroupbys = jobs.nGroupbys := by
  unfold Jobs.turn
  dsimp only
  split_ifs <;> exact ⟨rfl, rfl⟩

/-- The way up takes the first `n` of `2 * n` views and the way down the others. -/
theorem At.of_phase {k : Nat} (more : n ≠ 1)
    (up : k % (2 * n) < n → jobs.pn = k % (2 * n) ∧ jobs.direction = false)
    (down : n ≤ k % (2 * n) → jobs.pn = 2 * n - 1 - k % (2 * n) ∧ jobs.direction = true) :
    At n k jobs := by
  by_cases low : k % (2 * n) < n
  · obtain ⟨pn, direction⟩ := up low
    refine ⟨by rw [taskAt, if_pos low, pn], fun _ => ?_, fun one => absurd one more⟩
    simp only [direction, Bool.false_eq_true, false_iff]
    omega
  · obtain ⟨pn, direction⟩ := down (not_lt.mp low)
    refine ⟨by rw [taskAt, if_neg low, pn], fun _ => ?_, fun one => absurd one more⟩
    simp only [direction, true_iff]
    omega

theorem phase_succ (positive : 0 < n) (k : Nat) :
    k % (2 * n) + 1 = 2 * n ∧ (k + 1) % (2 * n) = 0 ∨
      k % (2 * n) + 1 < 2 * n ∧ (k + 1) % (2 * n) = k % (2 * n) + 1 := by
  have bound := Nat.mod_lt k (show 0 < 2 * n by omega)
  have next : (k + 1) % (2 * n) = (k % (2 * n) + 1) % (2 * n) := by
    rw [Nat.add_mod, Nat.mod_eq_of_lt (show 1 < 2 * n by omega)]
  rcases Nat.lt_or_eq_of_le (Nat.succ_le_of_lt bound) with inner | last
  · exact .inr ⟨inner, next.trans (Nat.mod_eq_of_lt inner)⟩
  · refine .inl ⟨last, ?_⟩
    rw [next, show k % (2 * n) + 1 = 2 * n from last, Nat.mod_self]

theorem At.turn {k : Nat} (positive : 0 < n) (h : At n k jobs) : At n (k + 1) (jobs.turn n) := by
  obtain ⟨pn, direction, single⟩ := h
  by_cases one : n = 1
  · subst one
    have here : jobs.pn = 0 := by
      have := taskAt_lt positive k
      omega
    rw [turn_bottom here (.inr rfl)]
    refine ⟨?_, fun h => absurd rfl h, fun _ => rfl⟩
    have := taskAt_lt positive (k + 1)
    dsimp only
    omega
  · have direction := direction one
    have next := phase_succ positive k
    unfold taskAt at pn
    cases up : jobs.direction with
    | false =>
        rw [up] at direction
        simp only [Bool.false_eq_true, false_iff, not_le] at direction
        rw [if_pos direction] at pn
        by_cases last : jobs.pn = n - 1
        · rw [turn_top up last (by omega)]
          refine .of_phase one (fun low => by omega) fun _ => ⟨?_, rfl⟩
          dsimp only
          omega
        · rw [turn_up up last]
          refine .of_phase one (fun _ => ⟨?_, up⟩) fun high => by omega
          dsimp only
          omega
    | true =>
        rw [up] at direction
        simp only [true_iff] at direction
        rw [if_neg (by omega)] at pn
        by_cases first : jobs.pn = 0
        · rw [turn_bottom first (.inl up)]
          refine .of_phase one (fun _ => ⟨?_, rfl⟩) fun high => by omega
          dsimp only
          omega
        · rw [turn_down up first]
          refine .of_phase one (fun low => by omega) fun _ => ⟨?_, up⟩
          dsimp only
          omega

end Turn

theorem assignViews_eq (positive : 0 < c.nTasks) (views : List TupleViewsize) (k : Nat)
    (jobs : Jobs) (h : At c.nTasks k jobs) (count : jobs.nGroupbys taskNumber = jobs.gbuf.length)
    (room : 8 * jobs.gbuf.length ≤ c.memoryLimit) :
    let kept := jobs.gbuf ++ (share c.nTasks taskNumber k views).map TupleViewsize.tuple
    (8 * kept.length ≤ c.memoryLimit → ∃ done, assignViews c taskNumber views jobs = some done ∧
      done.gbuf = kept ∧ done.nGroupbys taskNumber = kept.length) ∧
    (c.memoryLimit < 8 * kept.length → assignViews c taskNumber views jobs = none) := by
  induction views generalizing k jobs with
  | nil =>
      simp only [share, List.map_nil, List.append_nil]
      exact ⟨fun _ => ⟨jobs, rfl, rfl, count⟩, fun full => by omega⟩
  | cons view views ih =>
      -- what the loop does to the variables before it turns
      obtain ⟨next, dealt⟩ : ∃ next : Jobs, next = { jobs with
          gbuf := if jobs.pn = taskNumber then jobs.gbuf ++ [view.tuple] else jobs.gbuf
          nGroupbys := Function.update jobs.nGroupbys jobs.pn (jobs.nGroupbys jobs.pn + 1) } :=
        ⟨_, rfl⟩
      have unfolded : assignViews c taskNumber (view :: views) jobs =
          if jobs.pn = taskNumber ∧ c.memoryLimit < 8 * (jobs.gbuf.length + 1) then none
          else assignViews c taskNumber views (next.turn c.nTasks) := by
        rw [assignViews, dealt]
      have here : At c.nTasks k next := by
        rw [dealt]
        exact ⟨h.pn, h.direction, h.single⟩
      have keeps := turn_keeps next c.nTasks
      have step := ih (k + 1) (next.turn c.nTasks) (here.turn positive)
      rw [keeps.1, keeps.2] at step
      rw [unfolded, share, ← h.pn]
      by_cases mine : jobs.pn = taskNumber
      · have buffer : next.gbuf = jobs.gbuf ++ [view.tuple] := by
          rw [dealt]
          exact if_pos mine
        have counted : next.nGroupbys taskNumber = next.gbuf.length := by
          rw [dealt, mine]
          simp [count]
        rw [if_pos mine, List.map_cons]
        by_cases full : c.memoryLimit < 8 * (jobs.gbuf.length + 1)
        · rw [if_pos ⟨mine, full⟩]
          refine ⟨?_, fun _ => rfl⟩
          intro fits
          rw [List.length_append, List.length_cons] at fits
          omega
        · have fits : 8 * next.gbuf.length ≤ c.memoryLimit := by
            rw [buffer, List.length_append, List.length_singleton]
            omega
          have result := step counted fits
          rw [buffer, List.append_assoc, List.singleton_append] at result
          rw [if_neg (fun both => full both.2)]
          exact result
      · have buffer : next.gbuf = jobs.gbuf := by
          rw [dealt]
          exact if_neg mine
        have counted : next.nGroupbys taskNumber = next.gbuf.length := by
          rw [buffer, ← count, dealt]
          exact Function.update_of_ne (Ne.symm mine) _ _
        have result := step counted (by rw [buffer]; exact room)
        rw [buffer] at result
        rw [if_neg mine, if_neg (fun both => mine both.1)]
        exact result

/-- A task's file holds the selections of its share, in an order without supersets behind. -/
theorem multiFileProcJobs_eq (positive : 0 < c.nTasks) (most : c.nTasks ≤ MAX_NUMBER_OF_TASKS)
    (few : c.nTopDims ≤ 20) (views : List TupleViewsize) :
    let mine := share c.nTasks taskNumber 0 views.reverse
    (8 * mine.length ≤ c.memoryLimit → ∃ file, multiFileProcJobs c taskNumber views = some file ∧
      ((readGroupbys c.nTopDims file).map List.toFinset).Perm
        (mine.map fun x => dims c.nTopDims x.tuple) ∧
      ((readGroupbys c.nTopDims file).map List.toFinset).Pairwise fun a b => ¬ a ⊂ b) ∧
    (c.memoryLimit < 8 * mine.length → multiFileProcJobs c taskNumber views = none) := by
  have start : At c.nTasks 0 ⟨0, false, [], fun _ => 0⟩ := by
    refine ⟨?_, ?_, fun _ => rfl⟩
    · simp [taskAt, positive]
    · intro _
      simp only [Bool.false_eq_true, false_iff, Nat.zero_mod]
      omega
  have dealt := @assignViews_eq c taskNumber positive views.reverse 0 _ start rfl (Nat.zero_le _)
  simp only [List.nil_append, List.length_map] at dealt
  refine ⟨?_, ?_⟩
  · intro room
    obtain ⟨done, made, buffer, counted⟩ := dealt.1 room
    have toptr : (List.range (done.nGroupbys taskNumber)).map (fun j =>
        (⟨countTupleOnes (done.gbuf.getD j 0) c.nTopDims, done.gbuf.getD j 0⟩ : TupleOnes)) =
          done.gbuf.map fun t => ⟨countTupleOnes t c.nTopDims, t⟩ := by
      rw [counted, buffer]
      apply List.ext_getElem
      · simp
      · intro j h1 h2
        simp only [List.length_map] at h2
        simp [List.getElem?_eq_getElem h2]
    refine ⟨_, by rw [multiFileProcJobs, if_neg (by omega), made, Option.map_some, toptr], ?_⟩
    have read (file : List TupleOnes) : (readGroupbys c.nTopDims (file.map fun x =>
        swap8 (bytes (x.tuple <<< (64 - c.nTopDims) % 2 ^ 64)))).map List.toFinset =
          file.map fun x => dims c.nTopDims x.tuple := by
      rw [readGroupbys, List.map_map, List.map_map]
      refine List.map_congr_left ?_
      intro x _
      exact read_record x.tuple few
    have order : (onessort (done.gbuf.map fun t => ⟨countTupleOnes t c.nTopDims, t⟩)).Perm
        (done.gbuf.map fun t => ⟨countTupleOnes t c.nTopDims, t⟩) := sorted_perm _
    rw [read]
    refine ⟨?_, ?_⟩
    · refine (((List.reverse_perm _).trans order).map _).trans ?_
      rw [buffer, List.map_map, List.map_map]
      exact .refl _
    · rw [List.pairwise_map, List.pairwise_reverse]
      refine List.Pairwise.imp_of_mem ?_ (sorted_pairwise _)
      intro a b ha hb ones superset
      obtain ⟨s, _, rfl⟩ := List.mem_map.mp (order.mem_iff.mp ha)
      obtain ⟨t, _, rfl⟩ := List.mem_map.mp (order.mem_iff.mp hb)
      have more := countTupleOnes_lt superset
      dsimp only at ones more
      omega
  · intro full
    rw [multiFileProcJobs, if_neg (by omega), dealt.2 full]
    rfl

end Dealt

section Partition

variable {c : Control}

/-- The partition the tasks make, from what can be read in their groupby files. -/
structure Partitioned (c : Control) (entries : List Entry) (sels : Nat → List (Finset Nat)) :
    Prop where
  once : ∀ e ∈ entries, ∃! t, t < c.nTasks ∧ e.selection.toFinset ∈ sels t
  all : ((List.range c.nTasks).flatMap sels).Perm (entries.map fun e => e.selection.toFinset)
  balanced : ∀ t < c.nTasks, ∀ u < c.nTasks, (sels t).length ≤ (sels u).length + 1
  supersetsFirst : ∀ t < c.nTasks, (sels t).Pairwise fun a b => ¬ a ⊂ b

/-- What a run of `PartitionCube` in every task leaves in the groupby files. -/
def Writes (c : Control) (file : List Word) (sels : Nat → List (Finset Nat)) : Prop :=
  ∀ t < c.nTasks, (partitionCube c t file).map (fun groupbys =>
    (readGroupbys c.nTopDims groupbys).map List.toFinset) = some (sels t)

theorem unique_part {α : Type} {n : Nat} {sels : Nat → List α}
    (distinct : ((List.range n).flatMap sels).Nodup) {t u : Nat} (ht : t < n) (hu : u < n) {x : α}
    (first : x ∈ sels t) (second : x ∈ sels u) : t = u := by
  rw [List.nodup_flatMap, List.pairwise_iff_getElem] at distinct
  have apart {a b : Nat} (less : a < b) (hb : b < n) (ha : x ∈ sels a) : x ∉ sels b := by
    have disjoint := distinct.2 a b (by rw [List.length_range]; omega)
      (by rw [List.length_range]; omega) less
    simp only [List.getElem_range] at disjoint
    exact disjoint ha
  rcases Nat.lt_trichotomy t u with less | same | more
  · exact absurd second (apart less hu first)
  · exact same
  · exact absurd first (apart more ht second)

def dealtViews (c : Control) (entries : List Entry) : List TupleViewsize :=
  ((vszsort (entries.map (record c))).map fun x =>
    { x with tuple := x.tuple >>> (64 - c.nTopDims) }).reverse

theorem length_dealtViews (entries : List Entry) :
    (dealtViews c entries).length = entries.length := by
  have order : (vszsort (entries.map (record c))).Perm (entries.map (record c)) := sorted_perm _
  rw [dealtViews, List.length_reverse, List.length_map, order.length_eq, List.length_map]

theorem dims_dealtViews (few : c.nTopDims ≤ 20) {entries : List Entry} (fits : Fits c entries) :
    ((dealtViews c entries).map fun x => dims c.nTopDims x.tuple).Perm
      (entries.map fun e => e.selection.toFinset) := by
  have order : (vszsort (entries.map (record c))).Perm (entries.map (record c)) := sorted_perm _
  have same : ((entries.map (record c)).map fun x =>
      dims c.nTopDims (x.tuple >>> (64 - c.nTopDims))) =
        entries.map fun e => e.selection.toFinset := by
    rw [List.map_map]
    refine List.map_congr_left ?_
    intro e he
    exact dims_low few (fits e he).2
  have mapped := order.map fun x => dims c.nTopDims (x.tuple >>> (64 - c.nTopDims))
  rw [same] at mapped
  rw [dealtViews, List.map_reverse, List.map_map]
  exact (List.reverse_perm _).trans mapped

theorem written_of_room (tasks : 0 < c.nTasks) (most : c.nTasks ≤ MAX_NUMBER_OF_TASKS)
    (few : c.nTopDims ≤ 20) {entries : List Entry} (fits : Fits c entries) {file : List Word}
    (read : readViews c file false [] [] = some (entries.map (record c)))
    (pool : 8 * ((entries.length + c.nTasks - 1) / c.nTasks) ≤ c.memoryLimit) :
    ∃ groupbys : Nat → List (List Nat),
      (∀ t < c.nTasks, partitionCube c t file = some (groupbys t)) ∧
      (∀ t < c.nTasks, (groupbys t).length =
        (List.range' 0 entries.length).countP fun i => taskAt c.nTasks i = t) ∧
      (∀ t < c.nTasks,
        ((readGroupbys c.nTopDims (groupbys t)).map List.toFinset).Pairwise fun a b => ¬ a ⊂ b) ∧
      ((List.range c.nTasks).flatMap fun t =>
        (readGroupbys c.nTopDims (groupbys t)).map List.toFinset).Perm
          (entries.map fun e => e.selection.toFinset) := by
  have count (t : Nat) : (share c.nTasks t 0 (dealtViews c entries)).length =
      (List.range' 0 entries.length).countP fun i => taskAt c.nTasks i = t := by
    rw [length_share, length_dealtViews]
  have written (t : Nat) (ht : t < c.nTasks) : ∃ groupbys,
      partitionCube c t file = some groupbys ∧
      ((readGroupbys c.nTopDims groupbys).map List.toFinset).Perm
        ((share c.nTasks t 0 (dealtViews c entries)).map fun x => dims c.nTopDims x.tuple) ∧
      ((readGroupbys c.nTopDims groupbys).map List.toFinset).Pairwise fun a b => ¬ a ⊂ b := by
    have bound := (countP_share ht entries.length).2
    rw [partitionCube, read, Option.bind_some]
    refine (multiFileProcJobs_eq tasks most few _).1 ?_
    rw [← dealtViews, count]
    omega
  choose! groupbys made perm first using written
  refine ⟨groupbys, made, ?_, first, ?_⟩
  · intro t ht
    have length := (perm t ht).length_eq
    rwa [List.length_map, readGroupbys, List.length_map, List.length_map, count] at length
  · have shares : ((List.range c.nTasks).flatMap fun t =>
        (share c.nTasks t 0 (dealtViews c entries)).map fun x => dims c.nTopDims x.tuple) =
          (List.range c.nTasks).flatMap fun t => share c.nTasks t 0
            ((dealtViews c entries).map fun x => dims c.nTopDims x.tuple) := by
      refine List.flatMap_congr ?_
      intro t _
      exact map_share _ t 0 _
    refine List.Perm.trans ?_ ((flatMap_share tasks 0 _).trans (dims_dealtViews few fits))
    rw [← shares]
    exact List.Perm.flatMap_left _ fun t ht => perm t (List.mem_range.mp ht)

theorem sort_toFinset {sel : List Nat} (ascending : sel.Pairwise (· < ·)) :
    sel.toFinset.sort (· ≤ ·) = sel :=
  (List.toFinset_sort _ (ascending.imp ne_of_lt)).mpr (ascending.imp le_of_lt)

theorem ascending_readGroupbys {nTopDims : Nat} {groupbyFile : List (List Nat)}
    {sel : List Nat}
    (member : sel ∈ readGroupbys nTopDims groupbyFile) : sel.Pairwise (· < ·) := by
  obtain ⟨record, _, rfl⟩ := List.mem_map.mp member
  rw [getRegTupleFromBin64, List.pairwise_map]
  exact (List.pairwise_lt_range.filter _).imp fun less => Nat.add_lt_add_right less 1

theorem selections_of_room (tasks : 0 < c.nTasks) (most : c.nTasks ≤ MAX_NUMBER_OF_TASKS)
    (few : c.nTopDims ≤ 20) {entries : List Entry} (fits : Fits c entries)
    (ascending : ∀ e ∈ entries, e.selection.Pairwise (· < ·)) {file : List Word}
    (read : readViews c file false [] [] = some (entries.map (record c)))
    (pool : 8 * ((entries.length + c.nTasks - 1) / c.nTasks) ≤ c.memoryLimit) :
    ∃ groupbys : Nat → List (List Nat),
      (∀ t < c.nTasks, partitionCube c t file = some (groupbys t)) ∧
      ((List.range c.nTasks).flatMap fun t => readGroupbys c.nTopDims (groupbys t)).Perm
        (entries.map Entry.selection) := by
  obtain ⟨groupbys, made, _, _, all⟩ := written_of_room tasks most few fits read pool
  refine ⟨groupbys, made, ?_⟩
  have order := all.map (·.sort (· ≤ ·))
  rw [List.map_flatMap, List.map_map] at order
  have left : ((List.range c.nTasks).flatMap fun t =>
      ((readGroupbys c.nTopDims (groupbys t)).map List.toFinset).map (·.sort (· ≤ ·))) =
        (List.range c.nTasks).flatMap fun t => readGroupbys c.nTopDims (groupbys t) := by
    refine List.flatMap_congr ?_
    intro t _
    rw [List.map_map]
    refine (List.map_congr_left ?_).trans (List.map_id _)
    intro sel member
    exact sort_toFinset (ascending_readGroupbys member)
  have right : entries.map ((·.sort (· ≤ ·)) ∘ fun e => e.selection.toFinset) =
      entries.map Entry.selection := by
    refine List.map_congr_left ?_
    intro e he
    exact sort_toFinset (ascending e he)
  rwa [left, right] at order

theorem partitioned_of_room (tasks : 0 < c.nTasks) (most : c.nTasks ≤ MAX_NUMBER_OF_TASKS)
    (few : c.nTopDims ≤ 20) {entries : List Entry} (fits : Fits c entries)
    (distinct : (entries.map fun e => e.selection.toFinset).Nodup) {file : List Word}
    (read : readViews c file false [] [] = some (entries.map (record c)))
    (pool : 8 * ((entries.length + c.nTasks - 1) / c.nTasks) ≤ c.memoryLimit) :
    ∃ sels, Writes c file sels ∧ Partitioned c entries sels := by
  obtain ⟨groupbys, made, count, first, all⟩ := written_of_room tasks most few fits read pool
  refine ⟨fun t => (readGroupbys c.nTopDims (groupbys t)).map List.toFinset, ?_, ?_, all, ?_, first⟩
  · intro t ht
    rw [made t ht]
    rfl
  · intro e he
    have member : e.selection.toFinset ∈ (List.range c.nTasks).flatMap fun t =>
        (readGroupbys c.nTopDims (groupbys t)).map List.toFinset :=
      all.mem_iff.mpr (List.mem_map_of_mem he)
    obtain ⟨t, ht, here⟩ := List.mem_flatMap.mp member
    refine ⟨t, ⟨List.mem_range.mp ht, here⟩, ?_⟩
    rintro u ⟨hu, there⟩
    exact unique_part (all.nodup_iff.mpr distinct) hu (List.mem_range.mp ht) there here
  · intro t ht u hu
    have above := (countP_share ht entries.length).2
    have below := (countP_share hu entries.length).1
    have ceiling :
        (entries.length + c.nTasks - 1) / c.nTasks ≤ entries.length / c.nTasks + 1 := by
      rw [← Nat.add_div_right _ tasks]
      exact Nat.div_le_div_right (by omega)
    rw [List.length_map, List.length_map, readGroupbys, readGroupbys, List.length_map,
      List.length_map, count t ht, count u hu]
    omega

theorem room_of_writes (tasks : 0 < c.nTasks) (most : c.nTasks ≤ MAX_NUMBER_OF_TASKS)
    (few : c.nTopDims ≤ 20) {entries : List Entry} {file : List Word}
    (read : readViews c file false [] [] =
      if entries.length ≤ c.nViewLimit then some (entries.map (record c)) else none)
    (writes : ∀ t < c.nTasks, (partitionCube c t file).isSome) :
    entries.length ≤ c.nViewLimit ∧
      8 * ((entries.length + c.nTasks - 1) / c.nTasks) ≤ c.memoryLimit := by
  by_cases listed : entries.length ≤ c.nViewLimit
  · refine ⟨listed, ?_⟩
    by_contra pool
    have some : 0 < entries.length := by
      by_contra none
      have zero : entries.length = 0 := by omega
      rw [zero, Nat.zero_add, Nat.div_eq_of_lt (by omega)] at pool
      omega
    -- the task of the last view runs out of the pool
    have task := taskAt_lt tasks (entries.length - 1)
    have kept : (share c.nTasks (taskAt c.nTasks (entries.length - 1)) 0
        (dealtViews c entries)).length = (entries.length + c.nTasks - 1) / c.nTasks := by
      rw [length_share, length_dealtViews, countP_share_last tasks some]
    have full := (@multiFileProcJobs_eq c (taskAt c.nTasks (entries.length - 1)) tasks most few
      ((vszsort (entries.map (record c))).map fun x =>
        { x with tuple := x.tuple >>> (64 - c.nTopDims) })).2
    rw [← dealtViews, kept] at full
    have written := writes _ task
    rw [partitionCube, read, if_pos listed, Option.bind_some, full (by omega)] at written
    cases written
  · have written := writes 0 tasks
    rw [partitionCube, read, if_neg listed] at written
    cases written

theorem Writes.isSome {file : List Word} {sels : Nat → List (Finset Nat)}
    (writes : Writes c file sels) {t : Nat} (ht : t < c.nTasks) :
    (partitionCube c t file).isSome := by
  have written := congrArg Option.isSome (writes t ht)
  rwa [Option.isSome_map] at written

/-- The tasks partition the cube exactly when the views have room: `tuplesAndSizes` has
`nViewLimit` entries, and every task keeps its groupbys in the memory pool. -/
theorem partition_right_iff (c : Control) (tasks : 1 ≤ c.nTasks)
    (most : c.nTasks ≤ MAX_NUMBER_OF_TASKS) (few : c.nTopDims ≤ 20) (entries : List Entry)
    (fits : Fits c entries) (distinct : (entries.map fun e => e.selection.toFinset).Nodup)
    (totalInBytes nCubeTuples : Nat) :
    (∃ sels, Writes c (viewSizesFile entries totalInBytes nCubeTuples) sels ∧
      Partitioned c entries sels) ↔
    entries.length ≤ c.nViewLimit ∧
      8 * ((entries.length + c.nTasks - 1) / c.nTasks) ≤ c.memoryLimit := by
  constructor
  · rintro ⟨sels, writes, _⟩
    exact room_of_writes tasks most few
      (readViews_entries few entries fits totalInBytes nCubeTuples) fun t ht => writes.isSome ht
  · rintro ⟨listed, pool⟩
    have read := readViews_entries few entries fits totalInBytes nCubeTuples
    rw [if_pos listed] at read
    exact partitioned_of_room tasks most few fits distinct read pool

def twoAttributes : List Entry := [⟨[1], 3⟩, ⟨[2], 4⟩, ⟨[1, 2], 5⟩]

theorem partition_right_twoTasks :
    (Fits ⟨2, 2, 5, 16⟩ twoAttributes ∧
      (twoAttributes.map fun e => e.selection.toFinset).Nodup) ∧
    ∃ sels, Writes ⟨2, 2, 5, 16⟩ (viewSizesFile twoAttributes 148 12) sels ∧
      Partitioned ⟨2, 2, 5, 16⟩ twoAttributes sels := by
  have fits : Fits ⟨2, 2, 5, 16⟩ twoAttributes := by
    simp [Fits, twoAttributes]
  have distinct : (twoAttributes.map fun e => e.selection.toFinset).Nodup := by decide
  exact ⟨⟨fits, distinct⟩, (partition_right_iff ⟨2, 2, 5, 16⟩ (by decide) (by decide) (by decide)
    twoAttributes fits distinct 148 12).mpr (by decide)⟩

/-- A pool of 16 bytes has no room for the three groupbys of a single task. -/
theorem small_pool_overrun :
    (Fits ⟨1, 2, 5, 16⟩ twoAttributes ∧
      (twoAttributes.map fun e => e.selection.toFinset).Nodup) ∧
    ¬ ∃ sels, Writes ⟨1, 2, 5, 16⟩ (viewSizesFile twoAttributes 148 12) sels ∧
      Partitioned ⟨1, 2, 5, 16⟩ twoAttributes sels := by
  have fits : Fits ⟨1, 2, 5, 16⟩ twoAttributes := by
    simp [Fits, twoAttributes]
  refine ⟨⟨fits, by decide⟩, ?_⟩
  rintro ⟨sels, writes, _⟩
  have room := room_of_writes (by decide) (by decide) (by decide)
    (readViews_entries (by decide) twoAttributes fits 148 12) fun t ht => writes.isSome ht
  exact absurd room (by decide)

end Partition

end Baseliner.DcPartition
