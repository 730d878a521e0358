import Mathlib.Data.List.TakeDrop
import Mathlib.Algebra.BigOperators.Group.List.Basic
import Baseliner.CountingScatter

/-! `rank` of the IS benchmark. With buckets, each thread counts its keys by bucket,
works out from all counts where its keys go, scatters them, and the buckets are
then ranked one by one; without buckets the threads count into arrays of their
own, which are added up. The threads' parts of the keys are lists in order. -/

namespace Baseliner.IsRank

open CountingScatter SharedWrites

section Buckets

variable (shift : Nat)

/-- `work_buff` of a thread after it has counted its keys. -/
def bucketSize (part : List Nat) : Nat → Nat := tally (fun _ => 0) (part.map (· >>> shift))

/-- `bucket_ptrs` of a thread before it moves keys. -/
def bucketPtrs (sizes : List (Nat → Nat)) (myid : Nat) : Nat → Nat
  | 0 => ((sizes.take myid).map fun size => size 0).sum
  | i + 1 =>
      bucketPtrs sizes myid i + ((sizes.take myid).map fun size => size (i + 1)).sum +
        ((sizes.drop myid).map fun size => size i).sum

/-- The moves of a thread: its writes to `key_buff2`, and its pointers behind them. -/
def sortThread (parts : List (List Nat)) (myid : Nat) : List (Nat × Nat) × (Nat → Nat) :=
  scatter (· >>> shift) (bucketPtrs (parts.map (bucketSize shift)) myid) (parts.getD myid [])

/-- `bucket_ptrs` of a thread when the buckets are ranked. -/
def finalPtrs (parts : List (List Nat)) (myid : Nat) (i : Nat) : Nat :=
  (sortThread shift parts myid).2 i +
    if myid < parts.length - 1 then
      (((parts.map (bucketSize shift)).drop (myid + 1)).map fun size => size i).sum
    else 0

/-- The ranking of bucket `i`. -/
def rankBucket (keyBuff2 ptrs : Nat → Nat) (i : Nat) (keyBuff1 : Nat → Nat) : Nat → Nat :=
  let numBucketKeys := 1 <<< shift
  let k1 := i * numBucketKeys
  let m := if 0 < i then ptrs (i - 1) else 0
  let buff := clear k1 numBucketKeys keyBuff1
  let buff := tally buff ((List.range' m (ptrs i - m)).map keyBuff2)
  let buff := Function.update buff k1 (buff k1 + m)
  prefixSums k1 (numBucketKeys - 1) buff

/-- All buckets, in the order in which they come to be ranked and each by the thread
it falls to. -/
def rankBuckets (parts : List (List Nat)) (keyBuff2 : Nat → Nat) (owner : Nat → Nat)
    (order : List Nat) (keyBuff1 : Nat → Nat) : Nat → Nat :=
  order.foldl (fun buff i => rankBucket shift keyBuff2 (finalPtrs shift parts (owner i)) i buff)
    keyBuff1

end Buckets

/-- `key_buff1_aptr[myid]` without buckets: the ranks of a thread's keys among
themselves, in an array that held something else before. -/
def workBuff (maxKey : Nat) (stale : Nat → Nat) (part : List Nat) : Nat → Nat :=
  prefixSums 0 (maxKey - 1) (tally (clear 0 maxKey stale) part)

/-- The ranks of all threads added to those of the first, entry by entry in some
order. -/
def accumulate (maxKey : Nat) (stale : Nat → Nat → Nat) (parts : List (List Nat))
    (adds : List (Nat × Nat)) : Nat → Nat :=
  adds.foldl
    (fun buff (k, i) =>
      Function.update buff i (buff i + workBuff maxKey (stale k) (parts.getD k []) i))
    (workBuff maxKey (stale 0) (parts.getD 0 []))

def additions (maxKey numProcs : Nat) : List (Nat × Nat) :=
  (List.range' 1 (numProcs - 1)).flatMap fun k => (List.range maxKey).map fun i => (k, i)

section Positions

variable {shift : Nat}

theorem bucketSize_apply (part : List Nat) (b : Nat) :
    bucketSize shift part b = part.countP fun k => k >>> shift = b := by
  rw [bucketSize, tally_apply, Nat.zero_add, List.count, List.countP_map]
  rfl

theorem sum_bucketSize (parts : List (List Nat)) (b : Nat) :
    ((parts.map (bucketSize shift)).map fun size => size b).sum =
      parts.flatten.countP fun k => k >>> shift = b := by
  rw [List.countP_flatten, List.map_map]
  congr 1
  refine List.map_congr_left ?_
  intro part _
  exact bucketSize_apply part b

/-- Where bucket `i` starts. -/
def startOf (shift : Nat) (keys : List Nat) (i : Nat) : Nat := keys.countP fun k => k >>> shift < i

theorem startOf_succ (keys : List Nat) (i : Nat) :
    startOf shift keys (i + 1) =
      startOf shift keys i + keys.countP fun k => k >>> shift = i := by
  have upTo (i : Nat) := sum_countP (fun k => k >>> shift) keys 0 i
  simp only [Nat.zero_le, true_and] at upTo
  rw [startOf, startOf, ← upTo, ← upTo, Finset.sum_Ico_succ_top (Nat.zero_le i)]

theorem startOf_mono (shift : Nat) (keys : List Nat) {i j : Nat} (h : i ≤ j) :
    startOf shift keys i ≤ startOf shift keys j := by
  refine List.countP_mono_left ?_
  intro k _ below
  simp only [decide_eq_true_eq] at below ⊢
  omega

/-- A thread's pointer: behind all smaller buckets, and behind the keys of the bucket
that earlier threads have. -/
theorem bucketPtrs_eq (parts : List (List Nat)) (myid i : Nat) :
    bucketPtrs (parts.map (bucketSize shift)) myid i =
      startOf shift parts.flatten i +
        (parts.take myid).flatten.countP fun k => k >>> shift = i := by
  have taken (b : Nat) : (((parts.map (bucketSize shift)).take myid).map fun size => size b).sum =
      (parts.take myid).flatten.countP fun k => k >>> shift = b := by
    rw [← List.map_take]
    exact sum_bucketSize _ b
  have rest (b : Nat) : (((parts.map (bucketSize shift)).drop myid).map fun size => size b).sum =
      (parts.drop myid).flatten.countP fun k => k >>> shift = b := by
    rw [← List.map_drop]
    exact sum_bucketSize _ b
  induction i with
  | zero =>
      have none : startOf shift parts.flatten 0 = 0 := by
        rw [startOf, List.countP_eq_zero]
        simp
      rw [bucketPtrs, taken, none, Nat.zero_add]
  | succ i ih =>
      have whole : (parts.flatten.countP fun k => k >>> shift = i) =
          ((parts.take myid).flatten.countP fun k => k >>> shift = i) +
            (parts.drop myid).flatten.countP fun k => k >>> shift = i := by
        rw [← List.countP_append, ← List.flatten_append, List.take_append_drop]
      rw [bucketPtrs, ih, taken, rest, startOf_succ, whole]
      omega

theorem bucketPtrs_eq_scatter (parts : List (List Nat)) (myid : Nat) :
    bucketPtrs (parts.map (bucketSize shift)) myid =
      (scatter (· >>> shift) (startOf shift parts.flatten) (parts.take myid).flatten).2 := by
  funext i
  rw [bucketPtrs_eq, scatter_snd]

theorem flatten_sortThread (parts : List (List Nat)) :
    ((List.range parts.length).map fun t => (sortThread shift parts t).1).flatten =
      (scatter (· >>> shift) (startOf shift parts.flatten) parts.flatten).1 := by
  have upTo : ∀ n, n ≤ parts.length →
      ((List.range n).map fun t => (sortThread shift parts t).1).flatten =
        (scatter (· >>> shift) (startOf shift parts.flatten) (parts.take n).flatten).1 := by
    intro n
    induction n with
    | zero => intro _; rfl
    | succ n ih =>
        intro inside
        have here : parts.take (n + 1) = parts.take n ++ [parts.getD n []] := by
          rw [List.take_add_one, List.getElem?_eq_getElem (by omega)]
          simp [List.getElem?_eq_getElem (show n < parts.length by omega)]
        rw [List.range_succ, List.map_append, List.flatten_append, ih (by omega), here,
          List.flatten_append, scatter_append]
        simp [sortThread, bucketPtrs_eq_scatter]
  simpa using upTo parts.length le_rfl

theorem finalPtrs_eq (parts : List (List Nat)) {t : Nat} (inside : t < parts.length) (i : Nat) :
    finalPtrs shift parts t i = startOf shift parts.flatten (i + 1) := by
  have here : parts.take (t + 1) = parts.take t ++ [parts.getD t []] := by
    rw [List.take_add_one]
    simp [List.getElem?_eq_getElem inside]
  have moved : (sortThread shift parts t).2 i = startOf shift parts.flatten i +
      (parts.take (t + 1)).flatten.countP fun k => k >>> shift = i := by
    rw [sortThread, scatter_snd, bucketPtrs_eq, here, List.flatten_append, List.countP_append]
    simp
    omega
  have later : (if t < parts.length - 1 then
      (((parts.map (bucketSize shift)).drop (t + 1)).map fun size => size i).sum else 0) =
        (parts.drop (t + 1)).flatten.countP fun k => k >>> shift = i := by
    rw [← List.map_drop, sum_bucketSize]
    split_ifs with more
    · rfl
    · rw [List.drop_eq_nil_of_le (by omega)]
      rfl
  have whole : (parts.flatten.countP fun k => k >>> shift = i) =
      ((parts.take (t + 1)).flatten.countP fun k => k >>> shift = i) +
        (parts.drop (t + 1)).flatten.countP fun k => k >>> shift = i := by
    rw [← List.countP_append, ← List.flatten_append, List.take_append_drop]
  rw [finalPtrs, moved, later, startOf_succ, whole]
  omega

end Positions

section Sorted

variable {shift : Nat} {keys : List Nat}

def moves (shift : Nat) (keys : List Nat) : List (Nat × Nat) :=
  (scatter (· >>> shift) (startOf shift keys) keys).1

theorem moves_bounds {w : Nat × Nat} (h : w ∈ moves shift keys) :
    startOf shift keys (w.2 >>> shift) ≤ w.1 ∧ w.1 < startOf shift keys (w.2 >>> shift + 1) := by
  rw [startOf_succ]
  exact scatter_bounds h

theorem nodup_moves : ((moves shift keys).map Prod.fst).Nodup := by
  refine nodup_scatter ?_
  intro b c below
  rw [← startOf_succ]
  exact startOf_mono shift keys below

theorem length_moves : (moves shift keys).length = keys.length := by
  have values := congrArg List.length
    (map_snd_scatter (· >>> shift) (startOf shift keys) keys)
  rwa [List.length_map] at values

theorem perm_moves : ((moves shift keys).map Prod.fst).Perm (List.range keys.length) := by
  have inside : (moves shift keys).map Prod.fst ⊆ List.range keys.length := by
    intro p hp
    obtain ⟨w, hw, rfl⟩ := List.mem_map.mp hp
    have bounds := moves_bounds hw
    have total : startOf shift keys (w.2 >>> shift + 1) ≤ keys.length := List.countP_le_length
    rw [List.mem_range]
    omega
  refine (List.subperm_of_subset nodup_moves inside).perm_of_length_le ?_
  rw [List.length_range, List.length_map, length_moves]

/-- What `key_buff2` holds: the keys, each inside its bucket. -/
structure Scattered (shift : Nat) (keys : List Nat) (keyBuff2 : Nat → Nat) : Prop where
  perm : ((List.range keys.length).map keyBuff2).Perm keys
  inBucket : ∀ p, p < keys.length → startOf shift keys (keyBuff2 p >>> shift) ≤ p ∧
    p < startOf shift keys (keyBuff2 p >>> shift + 1)

theorem scattered_moves {writes : List (Nat × Nat)} (order : writes.Perm (moves shift keys))
    (mem : Nat → Nat) : Scattered shift keys (applyWrites mem writes) := by
  have once : (writes.map Prod.fst).Nodup := (order.map Prod.fst).nodup_iff.mpr nodup_moves
  have holds : ∀ w ∈ moves shift keys, applyWrites mem writes w.1 = w.2 := by
    intro w hw
    exact applyWrites_of_nodup once mem (order.mem_iff.mpr hw)
  constructor
  · have image : ((moves shift keys).map Prod.fst).map (applyWrites mem writes) = keys := by
      rw [List.map_map]
      refine Eq.trans ?_ (map_snd_scatter (· >>> shift) (startOf shift keys) keys)
      exact List.map_congr_left holds
    have mapped := (@perm_moves shift keys).symm.map (applyWrites mem writes)
    rwa [image] at mapped
  · intro p hp
    have written : p ∈ (moves shift keys).map Prod.fst := by
      rw [perm_moves.mem_iff, List.mem_range]
      exact hp
    obtain ⟨w, hw, rfl⟩ := List.mem_map.mp written
    rw [holds w hw]
    exact moves_bounds hw

namespace Scattered

variable {buff : Nat → Nat}

theorem bucket_iff (h : Scattered shift keys buff) {p i : Nat} (hp : p < keys.length) :
    buff p >>> shift = i ↔ startOf shift keys i ≤ p ∧ p < startOf shift keys (i + 1) := by
  have bounds := h.inBucket p hp
  constructor
  · rintro rfl
    exact bounds
  · intro here
    by_contra other
    rcases Nat.lt_or_gt_of_ne other with below | above
    · have := startOf_mono shift keys (show buff p >>> shift + 1 ≤ i from below)
      omega
    · have := startOf_mono shift keys (show i + 1 ≤ buff p >>> shift from above)
      omega

theorem grouped (h : Scattered shift keys buff) {p q : Nat} (hpq : p ≤ q) (hq : q < keys.length) :
    buff p >>> shift ≤ buff q >>> shift := by
  by_contra later
  have first := h.inBucket p (by omega)
  have second := h.inBucket q hq
  have := startOf_mono shift keys (show buff q >>> shift + 1 ≤ buff p >>> shift by omega)
  omega

theorem count_bucket (h : Scattered shift keys buff) (i k : Nat) :
    ((List.range' (startOf shift keys i) (startOf shift keys (i + 1) - startOf shift keys i)).map
      buff).count k = if k >>> shift = i then keys.count k else 0 := by
  have step : startOf shift keys i ≤ startOf shift keys (i + 1) :=
    startOf_mono shift keys (Nat.le_succ i)
  have total : startOf shift keys (i + 1) ≤ keys.length := List.countP_le_length
  have absent : ∀ a n, a + n ≤ keys.length →
      (∀ p, a ≤ p → p < a + n → ¬ (startOf shift keys i ≤ p ∧ p < startOf shift keys (i + 1))) →
      k >>> shift = i → ((List.range' a n).map buff).count k = 0 := by
    intro a n inside outside here
    rw [List.count_eq_zero]
    intro mem
    obtain ⟨p, hp, rfl⟩ := List.mem_map.mp mem
    rw [List.mem_range'_1] at hp
    exact outside p hp.1 hp.2 ((h.bucket_iff (by omega)).mp here)
  split_ifs with here
  · -- the positions before and behind the bucket hold no key of it
    generalize hm : startOf shift keys i = m at *
    generalize hE : startOf shift keys (i + 1) = E at *
    have front := absent 0 m (by omega) (by intro p _ _; omega) here
    have back := absent E (keys.length - E) (by omega) (by intro p _ _; omega) here
    have split : List.range keys.length =
        List.range' 0 m ++ (List.range' m (E - m) ++ List.range' E (keys.length - E)) := by
      have second := List.range'_append_1 (s := m) (m := E - m) (n := keys.length - E)
      have first := List.range'_append_1 (s := 0) (m := m) (n := E - m + (keys.length - E))
      rw [Nat.add_sub_cancel' step] at second
      rw [Nat.zero_add] at first
      rw [second, first, List.range_eq_range']
      congr 1
      omega
    have whole := h.perm.count_eq k
    rw [split, List.map_append, List.map_append, List.count_append, List.count_append, front, back]
      at whole
    omega
  · rw [List.count_eq_zero]
    intro mem
    obtain ⟨p, hp, rfl⟩ := List.mem_map.mp mem
    rw [List.mem_range'_1] at hp
    exact here ((h.bucket_iff (by omega)).mpr (by omega))

end Scattered

theorem bucket_bounds (i k : Nat) :
    k >>> shift = i ↔ i * 2 ^ shift ≤ k ∧ k < i * 2 ^ shift + 2 ^ shift := by
  have positive := Nat.two_pow_pos shift
  rw [Nat.shiftRight_eq_div_pow, Nat.div_eq_iff positive]
  omega

theorem startOf_eq (i : Nat) : startOf shift keys i = keys.countP fun k => k < i * 2 ^ shift := by
  refine List.countP_congr ?_
  intro k _
  simp only [Nat.shiftRight_eq_div_pow, decide_eq_true_eq]
  exact Nat.div_lt_iff_lt_mul (Nat.two_pow_pos shift)

theorem rankBucket_apply {buff ptrs : Nat → Nat} (h : Scattered shift keys buff)
    (ends : ∀ i, ptrs i = startOf shift keys (i + 1)) (i : Nat) (f : Nat → Nat) (k : Nat) :
    rankBucket shift buff ptrs i f k =
      if k >>> shift = i then keys.countP fun x => x ≤ k else f k := by
  have size : 1 <<< shift = 2 ^ shift := Nat.one_shiftLeft shift
  have positive := Nat.two_pow_pos shift
  have first : (if 0 < i then ptrs (i - 1) else 0) = startOf shift keys i := by
    split_ifs with more
    · rw [ends, Nat.sub_add_cancel more]
    · have zero : i = 0 := by omega
      rw [zero, startOf, eq_comm, List.countP_eq_zero]
      simp
  have entry (j : Nat) :
      tally (clear (i * 2 ^ shift) (2 ^ shift) f)
          ((List.range' (startOf shift keys i) (ptrs i - startOf shift keys i)).map buff) j =
        if j >>> shift = i then keys.count j else f j := by
    rw [tally_apply, ends, h.count_bucket, clear_apply]
    simp only [bucket_bounds]
    split_ifs <;> omega
  simp only [rankBucket, size, first]
  generalize tally (clear (i * 2 ^ shift) (2 ^ shift) f)
    ((List.range' (startOf shift keys i) (ptrs i - startOf shift keys i)).map buff) = g at entry ⊢
  split_ifs with here
  · have bounds := (bucket_bounds i k).mp here
    have others : ∑ j ∈ Finset.Ico (i * 2 ^ shift + 1) (k + 1),
        Function.update g (i * 2 ^ shift) (g (i * 2 ^ shift) + startOf shift keys i) j =
          ∑ j ∈ Finset.Ico (i * 2 ^ shift + 1) (k + 1), keys.count j := by
      refine Finset.sum_congr rfl ?_
      intro j hj
      rw [Finset.mem_Ico] at hj
      rw [Function.update_of_ne (by omega), entry, if_pos ((bucket_bounds i j).mpr (by omega))]
    have below := countP_lt_add keys (show i * 2 ^ shift ≤ k + 1 by omega)
    rw [← sum_count, Finset.sum_eq_sum_Ico_succ_bot (by omega), ← startOf_eq] at below
    have ranked : (keys.countP fun x => x < k + 1) = keys.countP fun x => x ≤ k :=
      List.countP_congr (by intro x _; simp only [decide_eq_true_eq]; omega)
    rw [prefixSums_apply _ _ _ bounds.1 (by omega), Finset.sum_eq_sum_Ico_succ_bot (by omega),
      others, Function.update_self, entry, if_pos ((bucket_bounds i _).mpr (by omega)), ← ranked]
    omega
  · have outside : ¬ (i * 2 ^ shift ≤ k ∧ k < i * 2 ^ shift + 2 ^ shift) :=
      fun inside => here ((bucket_bounds i k).mpr inside)
    rw [prefixSums_outside _ _ _ (by omega), Function.update_of_ne (by omega), entry,
      if_neg here]

theorem foldl_rankBucket {buff : Nat → Nat} {ptrs : Nat → Nat → Nat}
    (h : Scattered shift keys buff) (order : List Nat)
    (ends : ∀ i ∈ order, ∀ j, ptrs i j = startOf shift keys (j + 1)) (f : Nat → Nat) (k : Nat) :
    order.foldl (fun f i => rankBucket shift buff (ptrs i) i f) f k =
      if k >>> shift ∈ order then keys.countP fun x => x ≤ k else f k := by
  induction order generalizing f with
  | nil => rfl
  | cons i rest ih =>
      simp only [List.mem_cons, forall_eq_or_imp] at ends
      rw [List.foldl_cons, ih ends.2, rankBucket_apply h ends.1]
      by_cases later : k >>> shift ∈ rest
      · simp [later]
      · simp [later]

end Sorted

section Plain

variable {maxKey : Nat}

theorem workBuff_apply (stale : Nat → Nat) (part : List Nat) {k : Nat} (inside : k < maxKey) :
    workBuff maxKey stale part k = part.countP fun x => x ≤ k := by
  have entries : ∑ j ∈ Finset.Ico 0 (k + 1), tally (clear 0 maxKey stale) part j =
      ∑ j ∈ Finset.Ico 0 (k + 1), part.count j := by
    refine Finset.sum_congr rfl ?_
    intro j hj
    rw [Finset.mem_Ico] at hj
    rw [tally_apply, clear_apply, if_pos (by omega), Nat.zero_add]
  rw [workBuff, prefixSums_apply _ _ _ (Nat.zero_le k) (by omega), entries, sum_count]
  refine List.countP_congr ?_
  intro x _
  simp only [decide_eq_true_eq]
  omega

theorem foldl_additions (w : Nat → Nat → Nat) (adds : List (Nat × Nat)) (f : Nat → Nat) (i : Nat) :
    adds.foldl (fun f (x : Nat × Nat) => Function.update f x.2 (f x.2 + w x.1 x.2)) f i =
      f i + (adds.map fun x => if x.2 = i then w x.1 i else 0).sum := by
  induction adds generalizing f with
  | nil => rfl
  | cons x rest ih =>
      rw [List.foldl_cons, ih, List.map_cons, List.sum_cons]
      by_cases here : x.2 = i
      · subst here
        simp only [Function.update_self, if_true]
        omega
      · rw [Function.update_of_ne (Ne.symm here), if_neg here, Nat.zero_add]

theorem sum_ite_count (l : List Nat) (i c : Nat) :
    (l.map fun j => if j = i then c else 0).sum = l.count i * c := by
  induction l with
  | nil => simp
  | cons j l ih =>
      rw [List.map_cons, List.sum_cons, ih, List.count_cons]
      by_cases here : j = i
      · simp [here, Nat.add_mul, Nat.add_comm]
      · simp [here]

theorem sum_additions (numProcs : Nat) (w : Nat → Nat → Nat) {i : Nat} (inside : i < maxKey) :
    ((additions maxKey numProcs).map fun x => if x.2 = i then w x.1 i else 0).sum =
      ((List.range' 1 (numProcs - 1)).map fun k => w k i).sum := by
  have row (k : Nat) :
      ((List.range maxKey).map fun j => if j = i then w k i else 0).sum = w k i := by
    have once : (List.range maxKey).count i = 1 :=
      List.count_eq_one_of_mem List.nodup_range (List.mem_range.mpr inside)
    rw [sum_ite_count, once, Nat.one_mul]
  rw [additions, List.map_flatMap, List.flatMap_def, List.sum_flatten, List.map_map]
  congr 1
  refine List.map_congr_left ?_
  intro k _
  rw [Function.comp_apply, List.map_map]
  exact row k

theorem accumulate_apply (stale : Nat → Nat → Nat) {parts : List (List Nat)} (threads : parts ≠ [])
    {adds : List (Nat × Nat)} (order : adds.Perm (additions maxKey parts.length)) {k : Nat}
    (inside : k < maxKey) :
    accumulate maxKey stale parts adds k = parts.flatten.countP fun x => x ≤ k := by
  have counted (t : Nat) : workBuff maxKey (stale t) (parts.getD t []) k =
      (parts.getD t []).countP fun x => x ≤ k := workBuff_apply (stale t) _ inside
  have added := foldl_additions (fun t i => workBuff maxKey (stale t) (parts.getD t []) i) adds
    (workBuff maxKey (stale 0) (parts.getD 0 [])) k
  rw [(order.map _).sum_eq, sum_additions parts.length
    (fun t i => workBuff maxKey (stale t) (parts.getD t []) i) inside] at added
  simp only [counted] at added
  rw [accumulate, added, List.countP_flatten]
  cases parts with
  | nil => exact absurd rfl threads
  | cons first rest =>
      have others : (List.range' 1 (rest.length + 1 - 1)).map (fun t => (first :: rest).getD t []) =
          rest := by
        apply List.ext_getElem
        · simp
        · intro n h1 h2
          simp [Nat.add_comm 1 n, List.getElem?_eq_getElem h2]
      have summed := congrArg (fun l => (l.map (List.countP fun x => x ≤ k)).sum) others
      rw [List.map_map] at summed
      rw [List.map_cons, List.sum_cons, ← summed]
      rfl

end Plain

def threadWrites (shift : Nat) (parts : List (List Nat)) : List (Nat × Nat) :=
  ((List.range parts.length).map fun t => (sortThread shift parts t).1).flatten

theorem shiftRight_lt_iff (shift numBuckets k : Nat) :
    k >>> shift < numBuckets ↔ k < numBuckets * 2 ^ shift := by
  rw [Nat.shiftRight_eq_div_pow]
  exact Nat.div_lt_iff_lt_mul (Nat.two_pow_pos shift)

theorem scattered_threadWrites {shift : Nat} {parts : List (List Nat)}
    {writes : List (Nat × Nat)} (interleaved : writes.Perm (threadWrites shift parts))
    (buff2 : Nat → Nat) : Scattered shift parts.flatten (applyWrites buff2 writes) := by
  rw [threadWrites, flatten_sortThread] at interleaved
  exact scattered_moves interleaved buff2

theorem rankBuckets_apply {shift numBuckets : Nat} {parts : List (List Nat)}
    {buff owner : Nat → Nat} {order : List Nat} (h : Scattered shift parts.flatten buff)
    (buckets : order.Perm (List.range numBuckets))
    (assigned : ∀ i < numBuckets, owner i < parts.length) (buff1 : Nat → Nat) {k : Nat}
    (inRange : k < numBuckets * 2 ^ shift) :
    rankBuckets shift parts buff owner order buff1 k = parts.flatten.countP fun x => x ≤ k := by
  have ends : ∀ i ∈ order, ∀ j,
      finalPtrs shift parts (owner i) j = startOf shift parts.flatten (j + 1) := by
    intro i hi j
    rw [buckets.mem_iff, List.mem_range] at hi
    exact finalPtrs_eq parts (assigned i hi) j
  have ranked : k >>> shift ∈ order := by
    rw [buckets.mem_iff, List.mem_range]
    exact (shiftRight_lt_iff shift numBuckets k).mpr inRange
  have fold := foldl_rankBucket h order ends buff1 k
  rwa [if_pos ranked] at fold

/-- Both builds rank all keys, whatever the threads' order. With buckets the writes of the
threads may interleave in any way, and any thread may rank any bucket. -/
theorem rank_counts_keys (shift numBuckets : Nat) (parts : List (List Nat)) (threads : parts ≠ [])
    (inRange : ∀ k ∈ parts.flatten, k < numBuckets * 2 ^ shift) :
    (∀ (writes : List (Nat × Nat)) (buff2 buff1 owner : Nat → Nat) (order : List Nat),
      writes.Perm (threadWrites shift parts) → order.Perm (List.range numBuckets) →
      (∀ i < numBuckets, owner i < parts.length) →
        (writes.map Prod.fst).Nodup ∧
        ((List.range parts.flatten.length).map (applyWrites buff2 writes)).Perm parts.flatten ∧
        (∀ p q, p ≤ q → q < parts.flatten.length →
          applyWrites buff2 writes p >>> shift ≤ applyWrites buff2 writes q >>> shift) ∧
        (∀ t < parts.length, ∀ i,
          finalPtrs shift parts t i = parts.flatten.countP fun k => k >>> shift ≤ i) ∧
        (∀ t < parts.length, finalPtrs shift parts t (numBuckets - 1) = parts.flatten.length) ∧
        ∀ k < numBuckets * 2 ^ shift,
          rankBuckets shift parts (applyWrites buff2 writes) owner order buff1 k =
            parts.flatten.countP fun x => x ≤ k) ∧
    ∀ (stale : Nat → Nat → Nat) (adds : List (Nat × Nat)),
      adds.Perm (additions (numBuckets * 2 ^ shift) parts.length) →
      ∀ k < numBuckets * 2 ^ shift,
        accumulate (numBuckets * 2 ^ shift) stale parts adds k =
          parts.flatten.countP fun x => x ≤ k := by
  refine ⟨?_, ?_⟩
  · intro writes buff2 buff1 owner order interleaved buckets assigned
    have scattered := scattered_threadWrites interleaved buff2
    rw [threadWrites, flatten_sortThread] at interleaved
    have upTo (i : Nat) : startOf shift parts.flatten (i + 1) =
        parts.flatten.countP fun k => k >>> shift ≤ i := by
      simp only [startOf, Nat.lt_succ_iff]
    refine ⟨?_, scattered.perm, ?_, ?_, ?_, ?_⟩
    · exact (interleaved.map Prod.fst).nodup_iff.mpr nodup_moves
    · intro p q hpq hq
      exact scattered.grouped hpq hq
    · intro t inside i
      rw [finalPtrs_eq parts inside, upTo]
    · intro t inside
      rw [finalPtrs_eq parts inside, startOf, List.countP_eq_length]
      intro k hk
      have := (shiftRight_lt_iff shift numBuckets k).mpr (inRange k hk)
      simp only [decide_eq_true_eq]
      omega
    · intro k hk
      exact rankBuckets_apply scattered buckets assigned buff1 hk
  · intro stale adds order k hk
    exact accumulate_apply stale threads order hk

theorem rank_counts_keys_three :
    (∀ k ∈ ([[5, 0, 3], [], [5, 2]] : List (List Nat)).flatten, k < 2 * 2 ^ 2) ∧
    (∀ k < 2 * 2 ^ 2, rankBuckets 2 [[5, 0, 3], [], [5, 2]]
      (applyWrites (fun _ => 9) (threadWrites 2 [[5, 0, 3], [], [5, 2]]).reverse) (fun i => 2 * i)
      [1, 0] (fun _ => 7) k = ([5, 0, 3, 5, 2] : List Nat).countP fun x => x ≤ k) := by
  refine ⟨by decide, ?_⟩
  have both := rank_counts_keys 2 2 [[5, 0, 3], [], [5, 2]] (by decide) (by decide)
  exact (both.1 _ (fun _ => 9) (fun _ => 7) (fun i => 2 * i) [1, 0] (List.reverse_perm _)
    (by decide) (by decide)).2.2.2.2.2

end Baseliner.IsRank
