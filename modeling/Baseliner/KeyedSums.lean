import Mathlib.Algebra.BigOperators.Group.List.Basic
import Mathlib.Data.List.Dedup
import Mathlib.Data.List.Sort
import Mathlib.Data.Prod.Basic

/-! Sums of a relation by key. A relation is a list of rows with a key and a measure;
grouped, it has one row for each key, in ascending order, with the sum of the measures.
Two relations are the same here when they have the same keys and sum up alike over
every set of keys. -/

namespace Baseliner.KeyedSums

variable {K L M : Type*} [AddCommMonoid M]

def sumOver (P : K → Bool) (rows : List (K × M)) : M :=
  ((rows.filter fun r => P r.1).map Prod.snd).sum

section Sums

variable (P : K → Bool) (rows more : List (K × M))

@[simp] theorem sumOver_nil : sumOver P ([] : List (K × M)) = 0 := rfl

theorem sumOver_cons (r : K × M) :
    sumOver P (r :: rows) = (if P r.1 then r.2 else 0) + sumOver P rows := by
  cases h : P r.1 <;> simp [sumOver, h]

theorem sumOver_append : sumOver P (rows ++ more) = sumOver P rows + sumOver P more := by
  simp [sumOver]

theorem sumOver_perm {rows more : List (K × M)} (h : rows.Perm more) :
    sumOver P rows = sumOver P more :=
  ((h.filter _).map _).sum_eq

theorem sumOver_map (Q : L → Bool) (f : K → L) :
    sumOver Q (rows.map fun r => (f r.1, r.2)) = sumOver (fun k => Q (f k)) rows := by
  induction rows with
  | nil => rfl
  | cons r rows ih => rw [List.map_cons, sumOver_cons, sumOver_cons, ih]

end Sums

structure Same (rows more : List (K × M)) : Prop where
  sums : ∀ P : K → Bool, sumOver P rows = sumOver P more
  keys : ∀ k, k ∈ rows.map Prod.fst ↔ k ∈ more.map Prod.fst

namespace Same

variable {rows more rest front back : List (K × M)}

theorem refl (rows : List (K × M)) : Same rows rows := ⟨fun _ => rfl, fun _ => Iff.rfl⟩

theorem symm (h : Same rows more) : Same more rows :=
  ⟨fun P => (h.sums P).symm, fun k => (h.keys k).symm⟩

theorem trans (first : Same rows more) (second : Same more rest) : Same rows rest :=
  ⟨fun P => (first.sums P).trans (second.sums P), fun k => (first.keys k).trans (second.keys k)⟩

theorem of_perm (h : rows.Perm more) : Same rows more :=
  ⟨fun P => sumOver_perm P h, fun _ => (h.map _).mem_iff⟩

theorem append (first : Same rows more) (second : Same front back) :
    Same (rows ++ front) (more ++ back) := by
  constructor
  · intro P
    rw [sumOver_append, sumOver_append, first.sums, second.sums]
  · intro k
    rw [List.map_append, List.map_append, List.mem_append, List.mem_append, first.keys,
      second.keys]

theorem cons (r : K × M) (h : Same rows more) : Same (r :: rows) (r :: more) :=
  (refl [r]).append h

theorem map (h : Same rows more) (f : K → L) :
    Same (rows.map fun r => (f r.1, r.2)) (more.map fun r => (f r.1, r.2)) := by
  constructor
  · intro P
    rw [sumOver_map, sumOver_map, h.sums]
  · intro k
    have image (l : List (K × M)) : k ∈ (l.map fun r => (f r.1, r.2)).map Prod.fst ↔
        ∃ j ∈ l.map Prod.fst, f j = k := by
      simp
    rw [image, image]
    simp only [h.keys]

theorem nil_iff (h : Same rows more) : rows = [] ↔ more = [] := by
  have empty (l : List (K × M)) : l = [] ↔ ∀ k, k ∉ l.map Prod.fst := by
    cases l with
    | nil => simp
    | cons r l =>
        constructor
        · intro none
          cases none
        · intro absent
          exact absurd (List.mem_cons_self ..) (absent r.1)
  rw [empty, empty]
  simp only [h.keys]

end Same

variable [LinearOrder K] [LinearOrder L]

def Ascending (rows : List (K × M)) : Prop := rows.Pairwise fun x y => x.1 < y.1

def insertRow (r : K × M) : List (K × M) → List (K × M)
  | [] => [r]
  | x :: rows =>
      if r.1 < x.1 then r :: x :: rows
      else if x.1 < r.1 then x :: insertRow r rows
      else (x.1, x.2 + r.2) :: rows

def groupBy (rows : List (K × M)) : List (K × M) := rows.foldl (fun done r => insertRow r done) []

section Grouped

variable {rows more : List (K × M)}

theorem same_insertRow (r : K × M) (rows : List (K × M)) : Same (insertRow r rows) (r :: rows) := by
  induction rows with
  | nil => exact .refl _
  | cons x rows ih =>
      rw [insertRow]
      split_ifs with below above
      · exact .refl _
      · exact (ih.cons x).trans (.of_perm (.swap r x rows))
      · have key : r.1 = x.1 := le_antisymm (not_lt.mp above) (not_lt.mp below)
        constructor
        · intro P
          rw [sumOver_cons, sumOver_cons, sumOver_cons, key]
          cases P x.1
          · simp
          · simp only [if_true]
            rw [add_comm x.2 r.2, add_assoc]
        · intro k
          simp [key]

theorem mem_insertRow_key {r : K × M} {k : K} :
    k ∈ (insertRow r rows).map Prod.fst ↔ k = r.1 ∨ k ∈ rows.map Prod.fst := by
  rw [(same_insertRow r rows).keys, List.map_cons, List.mem_cons]

theorem length_insertRow_le (r : K × M) (rows : List (K × M)) :
    (insertRow r rows).length ≤ rows.length + 1 := by
  induction rows with
  | nil => exact le_rfl
  | cons x rows ih =>
      rw [insertRow]
      split_ifs
      · exact le_rfl
      · simpa using ih
      · exact Nat.le_succ _

theorem ascending_insertRow (r : K × M) (h : Ascending rows) : Ascending (insertRow r rows) := by
  induction rows with
  | nil => exact List.pairwise_singleton _ _
  | cons x rows ih =>
      have ordered := List.pairwise_cons.mp h
      rw [insertRow]
      split_ifs with below above
      · refine List.pairwise_cons.mpr ⟨?_, h⟩
        intro y hy
        rcases List.mem_cons.mp hy with rfl | later
        · exact below
        · exact below.trans (ordered.1 y later)
      · refine List.pairwise_cons.mpr ⟨?_, ih ordered.2⟩
        intro y hy
        rcases mem_insertRow_key.mp (List.mem_map_of_mem hy) with same | old
        · rw [same]
          exact above
        · obtain ⟨z, hz, key⟩ := List.mem_map.mp old
          rw [← key]
          exact ordered.1 z hz
      · exact List.pairwise_cons.mpr ⟨ordered.1, ordered.2⟩

theorem foldl_insertRow (rows done : List (K × M)) (h : Ascending done) :
    Ascending (rows.foldl (fun done r => insertRow r done) done) ∧
      Same (rows.foldl (fun done r => insertRow r done) done) (done ++ rows) := by
  induction rows generalizing done with
  | nil => exact ⟨h, by rw [List.append_nil]; exact .refl _⟩
  | cons r rows ih =>
      obtain ⟨ascending, same⟩ := ih (insertRow r done) (ascending_insertRow r h)
      refine ⟨ascending, same.trans ?_⟩
      refine ((same_insertRow r done).append (.refl rows)).trans (.of_perm ?_)
      exact List.perm_middle.symm

theorem ascending_groupBy (rows : List (K × M)) : Ascending (groupBy rows) :=
  (foldl_insertRow rows [] List.Pairwise.nil).1

theorem same_groupBy (rows : List (K × M)) : Same (groupBy rows) rows :=
  (foldl_insertRow rows [] List.Pairwise.nil).2

theorem Ascending.eq_map (h : Ascending rows) :
    rows = (rows.map Prod.fst).map fun k => (k, sumOver (fun j => decide (j = k)) rows) := by
  induction rows with
  | nil => rfl
  | cons r rows ih =>
      have ordered := List.pairwise_cons.mp h
      have absent : sumOver (fun j => decide (j = r.1)) rows = 0 := by
        have none : rows.filter (fun x => decide (x.1 = r.1)) = [] := by
          rw [List.filter_eq_nil_iff]
          intro x hx same
          exact (ordered.1 x hx).ne' (of_decide_eq_true same)
        rw [sumOver, none]
        rfl
      have others : rows.map (fun x => (x.1, sumOver (fun j => decide (j = x.1)) (r :: rows))) =
          rows.map fun x => (x.1, sumOver (fun j => decide (j = x.1)) rows) := by
        refine List.map_congr_left ?_
        intro x hx
        rw [sumOver_cons, decide_eq_false (ordered.1 x hx).ne]
        simp
      have rest := ih ordered.2
      rw [List.map_map] at rest
      rw [List.map_cons, List.map_cons, List.map_map, sumOver_cons, absent, decide_eq_true rfl,
        if_pos rfl, add_zero]
      refine congrArg (r :: ·) ?_
      rw [rest]
      simp only [Function.comp_def] at rest ⊢
      rw [← rest]
      exact rest.trans others.symm

theorem Ascending.sumOver_eq (h : Ascending rows) {r : K × M} (member : r ∈ rows) :
    sumOver (fun j => decide (j = r.1)) rows = r.2 := by
  rw [h.eq_map, List.map_map] at member
  obtain ⟨x, _, rfl⟩ := List.mem_map.mp member
  rfl

omit [AddCommMonoid M] in
theorem Ascending.keys (h : Ascending rows) : (rows.map Prod.fst).Pairwise (· < ·) := by
  rw [List.pairwise_map]
  exact h

omit [AddCommMonoid M] in
theorem Ascending.length_le (h : Ascending rows) (among : ∀ r ∈ rows, r.1 ∈ more.map Prod.fst) :
    rows.length ≤ more.length := by
  have keys : rows.map Prod.fst ⊆ more.map Prod.fst := by
    intro k hk
    obtain ⟨r, hr, rfl⟩ := List.mem_map.mp hk
    exact among r hr
  simpa using (List.subperm_of_subset (h.keys.imp ne_of_lt) keys).length_le

theorem Same.eq_of_ascending (h : Same rows more) (first : Ascending rows)
    (second : Ascending more) : rows = more := by
  have keys : rows.map Prod.fst = more.map Prod.fst := by
    refine List.Perm.eq_of_pairwise (fun a b _ _ ab ba => absurd ab (lt_asymm ba)) first.keys
      second.keys ?_
    exact (List.perm_ext_iff_of_nodup (first.keys.imp ne_of_lt) (second.keys.imp ne_of_lt)).mpr
      h.keys
  rw [first.eq_map, second.eq_map, keys]
  refine List.map_congr_left ?_
  intro k _
  rw [h.sums]

theorem eq_groupBy (ascending : Ascending rows) (same : Same rows more) : rows = groupBy more :=
  (same.trans (same_groupBy more).symm).eq_of_ascending ascending (ascending_groupBy more)

theorem map_insertRow (f : M → M) (add : ∀ x y, f (f x + y) = f (x + y))
    (again : ∀ x, f (f x) = f x) (r : K × M) (rows : List (K × M)) :
    (insertRow r (rows.map fun x => (x.1, f x.2))).map (fun x => (x.1, f x.2)) =
      (insertRow r rows).map fun x => (x.1, f x.2) := by
  have twice (l : List (K × M)) : (l.map fun x => (x.1, f x.2)).map (fun x => (x.1, f x.2)) =
      l.map fun x => (x.1, f x.2) := by simp [again]
  induction rows with
  | nil => rfl
  | cons x rows ih =>
      simp only [List.map_cons, insertRow]
      split_ifs with below above
      · rw [List.map_cons, List.map_cons, List.map_cons, List.map_cons, again, twice]
      · rw [List.map_cons, List.map_cons, again, ih]
      · rw [List.map_cons, List.map_cons, add, twice]

theorem groupBy_concat (rows : List (K × M)) (r : K × M) :
    groupBy (rows ++ [r]) = insertRow r (groupBy rows) := by
  rw [groupBy, List.foldl_append]
  rfl

theorem mem_groupBy_key {k : K} : k ∈ (groupBy rows).map Prod.fst ↔ k ∈ rows.map Prod.fst :=
  (same_groupBy rows).keys k

theorem length_groupBy [DecidableEq K] (rows : List (K × M)) :
    (groupBy rows).length = (rows.map Prod.fst).dedup.length := by
  have keys : ((groupBy rows).map Prod.fst).Perm (rows.map Prod.fst).dedup := by
    rw [List.perm_ext_iff_of_nodup ((ascending_groupBy rows).keys.imp ne_of_lt)
      (List.nodup_dedup _)]
    intro k
    rw [List.mem_dedup, mem_groupBy_key]
  rw [← keys.length_eq, List.length_map]

theorem groupBy_append (apart : ∀ x ∈ rows, ∀ y ∈ more, x.1 < y.1) :
    groupBy (rows ++ more) = groupBy rows ++ groupBy more := by
  refine (eq_groupBy (List.pairwise_append.mpr ⟨ascending_groupBy _, ascending_groupBy _, ?_⟩)
    ((same_groupBy rows).append (same_groupBy more))).symm
  intro x hx y hy
  obtain ⟨a, ha, first⟩ := List.mem_map.mp (mem_groupBy_key.mp (List.mem_map_of_mem hx))
  obtain ⟨b, hb, second⟩ := List.mem_map.mp (mem_groupBy_key.mp (List.mem_map_of_mem hy))
  rw [← first, ← second]
  exact apart a ha b hb

theorem Ascending.length_le_groupBy (h : Ascending rows)
    (among : ∀ r ∈ rows, r.1 ∈ more.map Prod.fst) : rows.length ≤ (groupBy more).length :=
  h.length_le fun r hr => mem_groupBy_key.mpr (among r hr)

omit [AddCommMonoid M] in
theorem Ascending.concat (h : Ascending rows) {last r : K × M} (ends : rows.getLast? = some last)
    (above : last.1 < r.1) : Ascending (rows ++ [r]) := by
  obtain ⟨front, rfl⟩ := List.getLast?_eq_some_iff.mp ends
  refine List.pairwise_append.mpr ⟨h, List.pairwise_singleton _ _, ?_⟩
  intro x hx y hy
  rw [List.mem_singleton.mp hy]
  rcases List.mem_append.mp hx with before | here
  · exact ((List.pairwise_append.mp h).2.2 x before last (List.mem_singleton_self last)).trans above
  · rw [List.mem_singleton.mp here]
    exact above

omit [AddCommMonoid M] in
theorem Ascending.replace_last {front : List (K × M)} {k : K} {m n : M}
    (h : Ascending (front ++ [(k, m)])) : Ascending (front ++ [(k, n)]) := by
  obtain ⟨before, _, below⟩ := List.pairwise_append.mp h
  refine List.pairwise_append.mpr ⟨before, List.pairwise_singleton _ _, ?_⟩
  intro x hx y hy
  rw [List.mem_singleton.mp hy]
  exact below x hx (k, m) (List.mem_singleton_self _)

omit [LinearOrder K] in
theorem same_add_last (front : List (K × M)) (k : K) (m n : M) :
    Same (front ++ [(k, m + n)]) (front ++ [(k, m)] ++ [(k, n)]) := by
  rw [List.append_assoc]
  refine (Same.refl front).append ⟨?_, by simp⟩
  intro P
  simp only [List.singleton_append, sumOver_cons, sumOver_nil, add_zero]
  cases P k <;> simp

end Grouped

end Baseliner.KeyedSums
