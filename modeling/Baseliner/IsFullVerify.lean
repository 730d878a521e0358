import Mathlib.Data.List.GetD
import Baseliner.OwnedCounters
import Baseliner.IsRank

/-! `full_verify` of the IS benchmark. With buckets each thread takes whole buckets, without
them a range of key values; either way it takes the ranks that `rank` left, one less for each
key, and writes the key to the place it got. -/

namespace Baseliner.IsFullVerify

open CountingScatter SharedWrites IsRank OwnedCounters

section Sorting

/-- The keys of bucket `j`, by the pointers of the thread it falls to. -/
def bucketKeys (keyBuff2 ptrs : ℕ → ℕ) (j : ℕ) : List ℕ :=
  let k1 := if 0 < j then ptrs (j - 1) else 0
  (List.range' k1 (ptrs j - k1)).map keyBuff2

/-- The keys a thread has with buckets, one bucket behind the other. -/
def threadBuckets (shift : ℕ) (parts : List (List ℕ)) (keyBuff2 : ℕ → ℕ)
    (schedule : List (List ℕ)) (t : ℕ) : List ℕ :=
  (schedule.getD t []).flatMap (bucketKeys keyBuff2 (finalPtrs shift parts t))

def threadRange (maxKey numThreads numKeys : ℕ) (keyBuff2 : ℕ → ℕ) (t : ℕ) : List ℕ :=
  if t < numThreads then
    let j := (maxKey + numThreads - 1) / numThreads
    let k1 := j * t
    let k2 := if k1 + j > maxKey then maxKey else k1 + j
    ((List.range numKeys).map keyBuff2).filter fun key => key ≥ k1 ∧ key < k2
  else []

def sortKeys (keyBuff1 : ℕ → ℕ) (keys : ℕ → List ℕ) (steps : List ℕ) : List (ℕ × ℕ) :=
  ((start keyBuff1 keys).run steps).writes

def outOfSort (keyArray : ℕ → ℕ) (chunks : List (List ℕ)) : ℕ :=
  (chunks.map fun chunk => chunk.countP fun i => keyArray (i - 1) > keyArray i).sum

end Sorting

/-- `key_array` is sorted: every place was written once, and the threads find no pair out of
sort however they share the iterations. -/
structure Verified (keys : List ℕ) (writes : List (ℕ × ℕ)) (keyArray : ℕ → ℕ) : Prop where
  once : (writes.map Prod.fst).Perm (List.range keys.length)
  perm : ((List.range keys.length).map keyArray).Perm keys
  sorted : ((List.range keys.length).map keyArray).Pairwise (· ≤ ·)
  zero : ∀ chunks : List (List ℕ), chunks.flatten.Perm (List.range' 1 (keys.length - 1)) →
    outOfSort keyArray chunks = 0

section Ranks

variable {keys : List ℕ} {writes : List (ℕ × ℕ)}

theorem countP_le_eq (keys : List ℕ) (v : ℕ) :
    (keys.countP fun k => k ≤ v) = (keys.countP fun k => k < v) + keys.count v := by
  induction keys with
  | nil => rfl
  | cons k keys ih =>
      simp only [List.countP_cons, List.count_cons, ih, decide_eq_true_eq, beq_iff_eq]
      split_ifs <;> omega

/-- Every key's places are those of its ranks. -/
def Ranked (keys : List ℕ) (writes : List (ℕ × ℕ)) : Prop :=
  ∀ v, placesOf v writes = places (keys.countP fun k => k ≤ v) (keys.count v)

theorem Ranked.bounds (h : Ranked keys writes) {w : ℕ × ℕ} (member : w ∈ writes) :
    (keys.countP fun k => k < w.2) ≤ w.1 ∧ w.1 < keys.countP fun k => k ≤ w.2 := by
  have listed : w.1 ∈ placesOf w.2 writes := mem_placesOf.mpr member
  have total := countP_le_eq keys w.2
  rw [h] at listed
  obtain ⟨i, inside, place⟩ := List.mem_map.mp listed
  rw [List.mem_range] at inside
  omega

theorem Ranked.lt_of_lt (h : Ranked keys writes) {w w' : ℕ × ℕ} (first : w ∈ writes)
    (second : w' ∈ writes) (less : w.2 < w'.2) : w.1 < w'.1 := by
  have before := (h.bounds first).2
  have behind := (h.bounds second).1
  have between : (keys.countP fun k => k ≤ w.2) ≤ keys.countP fun k => k < w'.2 := by
    refine List.countP_mono_left ?_
    intro k _ upTo
    simp only [decide_eq_true_eq] at upTo ⊢
    omega
  omega

theorem Ranked.nodup (h : Ranked keys writes) : (writes.map Prod.fst).Nodup := by
  refine nodup_writes (fun v => ?_) fun w hw w' hw' different => ?_
  · rw [h]
    exact nodup_places (by rw [countP_le_eq]; omega)
  · rcases Nat.lt_or_gt_of_ne different with less | more
    · exact (h.lt_of_lt hw hw' less).ne
    · exact (h.lt_of_lt hw' hw more).ne'

theorem Ranked.perm_keys (h : Ranked keys writes) : (writes.map Prod.snd).Perm keys := by
  rw [List.perm_iff_count]
  intro v
  have length := congrArg List.length (h v)
  rw [placesOf, List.length_map, places, List.length_map, List.length_range,
    ← List.countP_eq_length_filter] at length
  rw [← length, List.count, List.countP_map]
  refine List.countP_congr ?_
  intro w _
  simp

theorem Ranked.perm_places (h : Ranked keys writes) :
    (writes.map Prod.fst).Perm (List.range keys.length) := by
  have inside : writes.map Prod.fst ⊆ List.range keys.length := by
    intro p hp
    obtain ⟨w, member, rfl⟩ := List.mem_map.mp hp
    rw [List.mem_range]
    exact (h.bounds member).2.trans_le List.countP_le_length
  refine (List.subperm_of_subset h.nodup inside).perm_of_length_le ?_
  have length := h.perm_keys.length_eq
  rw [List.length_map] at length
  rw [List.length_range, List.length_map, length]

theorem Ranked.verified (h : Ranked keys writes) (keyArray : ℕ → ℕ) :
    Verified keys writes (applyWrites keyArray writes) := by
  have holds : ∀ w ∈ writes, applyWrites keyArray writes w.1 = w.2 :=
    fun w member => applyWrites_of_nodup h.nodup keyArray member
  have written {p : ℕ} (inside : p < keys.length) :
      (p, applyWrites keyArray writes p) ∈ writes := by
    rw [← List.mem_range, ← h.perm_places.mem_iff] at inside
    obtain ⟨w, member, rfl⟩ := List.mem_map.mp inside
    rw [holds w member]
    exact member
  have ordered {p q : ℕ} (less : p < q) (inside : q < keys.length) :
      applyWrites keyArray writes p ≤ applyWrites keyArray writes q := by
    by_contra more
    exact absurd (h.lt_of_lt (written inside) (written (less.trans inside)) (by omega))
      (by dsimp only; omega)
  refine ⟨h.perm_places, ?_, ?_, ?_⟩
  · have image : (writes.map Prod.fst).map (applyWrites keyArray writes) = writes.map Prod.snd := by
      rw [List.map_map]
      exact List.map_congr_left holds
    have mapped := h.perm_places.symm.map (applyWrites keyArray writes)
    rw [image] at mapped
    exact mapped.trans h.perm_keys
  · rw [List.pairwise_map]
    refine List.pairwise_lt_range.imp_of_mem ?_
    intro p q _ hq less
    exact ordered less (List.mem_range.mp hq)
  · intro chunks all
    rw [outOfSort, ← List.countP_flatten, List.countP_eq_zero]
    intro i member
    obtain ⟨positive, inside⟩ := List.mem_range'_1.mp (all.mem_iff.mp member)
    have := ordered (show i - 1 < i by omega) (show i < keys.length by omega)
    simpa using this

theorem ranked_sortKeys {rank : ℕ → ℕ} {threads : ℕ → List ℕ} {steps : List ℕ}
    (owned : Owned threads) (finishes : Finishes threads steps)
    (whole : ∀ t, ∀ v ∈ threads t, (threads t).count v = keys.count v)
    (covered : ∀ v ∈ keys, ∃ t, v ∈ threads t)
    (ranks : ∀ v ∈ keys, rank v = keys.countP fun k => k ≤ v) :
    Ranked keys (sortKeys rank threads steps) := by
  obtain ⟨taken, only⟩ := places_of_run owned rank finishes
  intro v
  by_cases member : v ∈ keys
  · obtain ⟨t, here⟩ := covered v member
    rw [sortKeys, taken t v here, whole t v here, ranks v member]
  · have none : placesOf v (sortKeys rank threads steps) = [] := by
      rw [List.eq_nil_iff_forall_not_mem]
      intro p listed
      obtain ⟨t, here⟩ := only _ (mem_placesOf.mp listed)
      have some_ := List.count_pos_iff.mpr here
      rw [whole t v here] at some_
      exact member (List.count_pos_iff.mp some_)
    rw [none, List.count_eq_zero_of_not_mem member]
    rfl

end Ranks

section Buckets

variable {shift : ℕ} {parts : List (List ℕ)} {keyBuff2 : ℕ → ℕ}

theorem count_bucketKeys (h : Scattered shift parts.flatten keyBuff2) {t : ℕ}
    (inside : t < parts.length) (j v : ℕ) :
    (bucketKeys keyBuff2 (finalPtrs shift parts t) j).count v =
      if v >>> shift = j then parts.flatten.count v else 0 := by
  have first : (if 0 < j then finalPtrs shift parts t (j - 1) else 0) =
      startOf shift parts.flatten j := by
    split_ifs with more
    · rw [finalPtrs_eq parts inside, Nat.sub_add_cancel more]
    · have zero : j = 0 := by omega
      rw [zero, startOf, eq_comm, List.countP_eq_zero]
      simp
  rw [bucketKeys, first, finalPtrs_eq parts inside]
  exact h.count_bucket j v

theorem eq_of_mem_getD {schedule : List (List ℕ)} (once : schedule.flatten.Nodup) {t u j : ℕ}
    (first : j ∈ schedule.getD t []) (second : j ∈ schedule.getD u []) : t = u := by
  have inside {t : ℕ} (member : j ∈ schedule.getD t []) : t < schedule.length := by
    by_contra outside
    rw [List.getD_eq_default _ _ (by omega)] at member
    cases member
  have ht := inside first
  have hu := inside second
  rw [List.getD_eq_getElem _ _ ht] at first
  rw [List.getD_eq_getElem _ _ hu] at second
  have apart := List.pairwise_iff_getElem.mp (List.nodup_flatten.mp once).2
  rcases lt_trichotomy t u with before | here | behind
  · exact absurd second (apart t u ht hu before first)
  · exact here
  · exact absurd first (apart u t hu ht behind second)

variable {numBuckets : ℕ} {schedule : List (List ℕ)}

theorem count_threadBuckets (h : Scattered shift parts.flatten keyBuff2)
    (threads : schedule.length = parts.length) (once : schedule.flatten.Nodup) (t v : ℕ) :
    (threadBuckets shift parts keyBuff2 schedule t).count v =
      if v >>> shift ∈ schedule.getD t [] then parts.flatten.count v else 0 := by
  by_cases inside : t < parts.length
  · have single : (schedule.getD t []).Nodup := by
      rw [List.getD_eq_getElem _ _ (by omega)]
      exact (List.nodup_flatten.mp once).1 _ (List.getElem_mem _)
    have each : (schedule.getD t []).map (List.count v ∘ bucketKeys keyBuff2
        (finalPtrs shift parts t)) = (schedule.getD t []).map fun j =>
          if j = v >>> shift then parts.flatten.count v else 0 := by
      refine List.map_congr_left ?_
      intro j _
      rw [Function.comp_apply, count_bucketKeys h inside]
      simp only [eq_comm]
    rw [threadBuckets, List.count_flatMap, each, sum_ite_count]
    split_ifs with here
    · rw [List.count_eq_one_of_mem single here, Nat.one_mul]
    · rw [List.count_eq_zero_of_not_mem here, Nat.zero_mul]
  · rw [threadBuckets, List.getD_eq_default _ _ (by omega)]
    simp

theorem ranked_threadBuckets (h : Scattered shift parts.flatten keyBuff2)
    (inRange : ∀ k ∈ parts.flatten, k < numBuckets * 2 ^ shift)
    (threads : schedule.length = parts.length)
    (all : schedule.flatten.Perm (List.range numBuckets)) {rank : ℕ → ℕ}
    (ranks : ∀ v < numBuckets * 2 ^ shift, rank v = parts.flatten.countP fun k => k ≤ v)
    {steps : List ℕ} (finishes : Finishes (threadBuckets shift parts keyBuff2 schedule) steps) :
    Ranked parts.flatten (sortKeys rank (threadBuckets shift parts keyBuff2 schedule) steps) := by
  have once : schedule.flatten.Nodup := all.nodup_iff.mpr List.nodup_range
  have count := count_threadBuckets h threads once
  have bucket {t v : ℕ} (member : v ∈ threadBuckets shift parts keyBuff2 schedule t) :
      v >>> shift ∈ schedule.getD t [] := by
    by_contra other
    have some_ := List.count_pos_iff.mpr member
    rw [count, if_neg other] at some_
    exact Nat.lt_irrefl 0 some_
  refine ranked_sortKeys ?_ finishes ?_ ?_ fun v member => ranks v (inRange v member)
  · intro t u different v first second
    exact different (eq_of_mem_getD once (bucket first) (bucket second))
  · intro t v member
    rw [count, if_pos (bucket member)]
  · intro v member
    have below := (shiftRight_lt_iff shift numBuckets v).mpr (inRange v member)
    obtain ⟨buckets, listed, here⟩ := List.mem_flatten.mp
      (all.mem_iff.mpr (List.mem_range.mpr below))
    obtain ⟨t, inside, rfl⟩ := List.getElem_of_mem listed
    refine ⟨t, List.count_pos_iff.mp ?_⟩
    rw [count, List.getD_eq_getElem _ _ inside, if_pos here]
    exact List.count_pos_iff.mpr member

end Buckets

section Ranges

variable {maxKey numThreads : ℕ}

theorem mem_threadRange {numKeys : ℕ} {keyBuff2 : ℕ → ℕ} {t v : ℕ} :
    v ∈ threadRange maxKey numThreads numKeys keyBuff2 t ↔
      t < numThreads ∧ v ∈ (List.range numKeys).map keyBuff2 ∧
        (maxKey + numThreads - 1) / numThreads * t ≤ v ∧
        v < (maxKey + numThreads - 1) / numThreads * t + (maxKey + numThreads - 1) / numThreads ∧
        v < maxKey := by
  rw [threadRange]
  generalize (maxKey + numThreads - 1) / numThreads = j
  by_cases inside : t < numThreads
  · rw [if_pos inside, List.mem_filter, decide_eq_true_eq]
    constructor
    · rintro ⟨listed, low, high⟩
      refine ⟨inside, listed, low, ?_⟩
      split_ifs at high <;> omega
    · rintro ⟨_, listed, low, high, most⟩
      refine ⟨listed, low, ?_⟩
      split_ifs <;> omega
  · rw [if_neg inside]
    simp [inside]

theorem lt_ranges {v : ℕ} (threads : 0 < numThreads) (inRange : v < maxKey) :
    v < (maxKey + numThreads - 1) / numThreads * numThreads := by
  have := Nat.div_add_mod (maxKey + numThreads - 1) numThreads
  have := Nat.mod_lt (maxKey + numThreads - 1) threads
  rw [Nat.mul_comm]
  omega

theorem ranked_threadRange {keys : List ℕ} {keyBuff2 : ℕ → ℕ}
    (copied : (List.range keys.length).map keyBuff2 = keys) (inRange : ∀ k ∈ keys, k < maxKey)
    (threads : 0 < numThreads) {rank : ℕ → ℕ}
    (ranks : ∀ v < maxKey, rank v = keys.countP fun k => k ≤ v) {steps : List ℕ}
    (finishes : Finishes (threadRange maxKey numThreads keys.length keyBuff2) steps) :
    Ranked keys (sortKeys rank (threadRange maxKey numThreads keys.length keyBuff2) steps) := by
  refine ranked_sortKeys ?_ finishes ?_ ?_ fun v member => ranks v (inRange v member)
  · intro t u different v first second
    obtain ⟨_, _, low, high, _⟩ := mem_threadRange.mp first
    obtain ⟨_, _, low', high', _⟩ := mem_threadRange.mp second
    rw [← Nat.mul_succ] at high high'
    have before := Nat.lt_of_mul_lt_mul_left (low.trans_lt high')
    have behind := Nat.lt_of_mul_lt_mul_left (low'.trans_lt high)
    omega
  · intro t v member
    have parts := mem_threadRange.mp member
    rw [threadRange, if_pos parts.1] at member ⊢
    refine Eq.trans (List.count_filter ?_) (congrArg (List.count v) copied)
    exact (List.mem_filter.mp member).2
  · intro v member
    have most := inRange v member
    have upTo := lt_ranges threads most
    have some_ : 0 < (maxKey + numThreads - 1) / numThreads := by
      by_contra none
      rw [Nat.eq_zero_of_not_pos none, Nat.zero_mul] at upTo
      exact Nat.not_lt_zero v upTo
    refine ⟨v / ((maxKey + numThreads - 1) / numThreads),
      mem_threadRange.mpr ⟨?_, ?_, ?_, ?_, most⟩⟩
    · exact (Nat.div_lt_iff_lt_mul some_).mpr (by rwa [Nat.mul_comm])
    · rwa [copied]
    · exact Nat.mul_div_le ..
    · exact Nat.lt_mul_div_succ v some_

end Ranges

/-- `full_verify` sorts the keys behind every `rank`, with buckets and without, whatever thread
gets which bucket, in whatever order the threads come to their steps. -/
theorem full_verify_sorts (shift numBuckets : ℕ) (parts : List (List ℕ)) (threads : parts ≠ [])
    (inRange : ∀ k ∈ parts.flatten, k < numBuckets * 2 ^ shift) :
    (∀ (writes : List (ℕ × ℕ)) (buff2 buff1 owner : ℕ → ℕ) (order : List ℕ),
      writes.Perm (threadWrites shift parts) → order.Perm (List.range numBuckets) →
      (∀ i < numBuckets, owner i < parts.length) →
      ∀ (schedule : List (List ℕ)) (steps : List ℕ) (keyArray : ℕ → ℕ),
        schedule.length = parts.length → schedule.flatten.Perm (List.range numBuckets) →
        let keyBuff2 := applyWrites buff2 writes
        let keyBuff1 := rankBuckets shift parts keyBuff2 owner order buff1
        let keys := threadBuckets shift parts keyBuff2 schedule
        Finishes keys steps → Verified parts.flatten (sortKeys keyBuff1 keys steps)
          (applyWrites keyArray (sortKeys keyBuff1 keys steps))) ∧
    ∀ (stale : ℕ → ℕ → ℕ) (adds : List (ℕ × ℕ)),
      adds.Perm (additions (numBuckets * 2 ^ shift) parts.length) →
      ∀ (keyArray buff2 : ℕ → ℕ) (copies : List (ℕ × ℕ)) (numThreads : ℕ) (steps : List ℕ),
        (List.range parts.flatten.length).map keyArray = parts.flatten →
        copies.Perm ((List.range parts.flatten.length).map fun i => (i, keyArray i)) →
        0 < numThreads →
        let keyBuff1 := accumulate (numBuckets * 2 ^ shift) stale parts adds
        let keys := threadRange (numBuckets * 2 ^ shift) numThreads parts.flatten.length
          (applyWrites buff2 copies)
        Finishes keys steps → Verified parts.flatten (sortKeys keyBuff1 keys steps)
          (applyWrites keyArray (sortKeys keyBuff1 keys steps)) := by
  refine ⟨?_, ?_⟩
  · intro writes buff2 buff1 owner order interleaved buckets assigned schedule steps keyArray
      teams all keyBuff2 keyBuff1 keys finishes
    have scattered := scattered_threadWrites interleaved buff2
    have ranks := fun v => @rankBuckets_apply shift numBuckets parts keyBuff2 owner order scattered
      buckets assigned buff1 v
    exact (ranked_threadBuckets scattered inRange teams all ranks finishes).verified keyArray
  · intro stale adds added keyArray buff2 copies numThreads steps held copied team keyBuff1 keys
      finishes
    have ranks := fun v => @accumulate_apply (numBuckets * 2 ^ shift) stale parts threads adds
      added v
    have same : (List.range parts.flatten.length).map (applyWrites buff2 copies) =
        parts.flatten := by
      have places : (copies.map Prod.fst).Perm (List.range parts.flatten.length) := by
        have fst := copied.map Prod.fst
        rwa [List.map_map, show (Prod.fst ∘ fun i => (i, keyArray i)) = id from rfl, List.map_id]
          at fst
      refine Eq.trans (List.map_congr_left ?_) held
      intro i member
      exact applyWrites_of_nodup (places.nodup_iff.mpr List.nodup_range) buff2
        (copied.mem_iff.mpr (List.mem_map.mpr ⟨i, member, rfl⟩))
    exact (ranked_threadRange same inRange team ranks finishes).verified keyArray

def threeParts : List (List ℕ) := [[5, 0, 3], [], [5, 2]]

def threeBuffer : ℕ → ℕ := applyWrites (fun _ => 9) (threadWrites 2 threeParts).reverse

def threeRanks : ℕ → ℕ :=
  rankBuckets 2 threeParts threeBuffer (fun i => 2 * i) [1, 0] (fun _ => 7)

def threeWrites : List (ℕ × ℕ) :=
  sortKeys threeRanks (threadBuckets 2 threeParts threeBuffer [[1], [], [0]])
    (List.replicate 15 [2, 0, 1]).flatten

theorem full_verify_sorts_three :
    Verified threeParts.flatten threeWrites (applyWrites (fun _ => 8) threeWrites) := by
  refine (full_verify_sorts 2 2 threeParts (by decide) (by decide)).1 _ (fun _ => 9) (fun _ => 7)
    (fun i => 2 * i) [1, 0] (List.reverse_perm _) (by decide) (by decide) [[1], [], [0]]
    (List.replicate 15 [2, 0, 1]).flatten (fun _ => 8) rfl (by decide) ?_
  have enough : ∀ t < 3, 3 * (threadBuckets 2 threeParts threeBuffer [[1], [], [0]] t).length ≤
      (List.replicate 15 [2, 0, 1]).flatten.count t := by decide
  intro t
  by_cases inside : t < 3
  · exact enough t inside
  · have none : threadBuckets 2 threeParts threeBuffer [[1], [], [0]] t = [] := by
      rw [threadBuckets, List.getD_eq_default _ _ (by simpa using inside)]
      rfl
    rw [threeBuffer] at none
    rw [none]
    exact Nat.zero_le _

end Baseliner.IsFullVerify
