import Mathlib.Logic.Function.Basic
import Baseliner.KeyedSums

/-! Merging of sorted runs. The row with the least key is taken off its run and put
behind the output; when it has the key of the last row it adds to that row. -/

namespace Baseliner.RunMerge

open KeyedSums

variable {K M : Type*}

/-- The rows that are still in the first `n` runs. -/
def pending (n : Nat) (runs : Nat → List (K × M)) : List (K × M) := (List.range n).flatMap runs

section Pending

variable {n i : Nat} {runs : Nat → List (K × M)} {r : K × M} {rest : List (K × M)}

theorem mem_pending {x : K × M} : x ∈ pending n runs ↔ ∃ j < n, x ∈ runs j := by
  simp [pending]

theorem pending_eq_nil : pending n runs = [] ↔ ∀ j < n, runs j = [] := by
  simp [pending]

theorem pending_congr {others : Nat → List (K × M)} (h : ∀ j < n, runs j = others j) :
    pending n runs = pending n others := by
  refine List.flatMap_congr ?_
  intro j hj
  exact h j (List.mem_range.mp hj)

theorem pending_succ : pending (n + 1) runs = pending n runs ++ runs n := by
  simp [pending, List.range_succ, List.flatMap_append]

theorem perm_pending (here : i < n) (head : runs i = r :: rest) :
    (pending n runs).Perm (r :: pending n (Function.update runs i rest)) := by
  induction n with
  | zero => exact absurd here (Nat.not_lt_zero i)
  | succ n ih =>
      rw [pending_succ, pending_succ]
      rcases Nat.lt_succ_iff_lt_or_eq.mp here with earlier | rfl
      · rw [Function.update_of_ne (Nat.ne_of_gt earlier)]
        exact (ih earlier).append_right _
      · rw [Function.update_self, head]
        have others : pending i (Function.update runs i rest) = pending i runs :=
          pending_congr fun j hj => Function.update_of_ne (Nat.ne_of_lt hj) ..
        rw [others]
        exact List.perm_middle

theorem least_of_heads [LinearOrder K] {key : K}
    (sorted : ∀ j < n, (runs j).Pairwise fun x y => x.1 ≤ y.1)
    (heads : ∀ j < n, ∀ x ∈ (runs j).head?, key ≤ x.1) : ∀ x ∈ pending n runs, key ≤ x.1 := by
  intro x hx
  obtain ⟨j, hj, member⟩ := mem_pending.mp hx
  have order := sorted j hj
  have first := heads j hj
  cases run : runs j with
  | nil =>
      rw [run] at member
      cases member
  | cons y ys =>
      rw [run, List.pairwise_cons] at order
      rw [run] at member first
      have least := first y rfl
      rcases List.mem_cons.mp member with rfl | later
      · exact least
      · exact least.trans (order.1 x later)

end Pending

variable [AddCommMonoid M] [LinearOrder K]

structure Output (K M : Type*) where
  done : List (K × M)
  last : Option (K × M)

def Output.rows (out : Output K M) : List (K × M) := out.done ++ out.last.toList

def Output.put (out : Output K M) (r : K × M) : Output K M :=
  match out.last with
  | none => { out with last := some r }
  | some last =>
      if last.1 = r.1 then { out with last := some (last.1, last.2 + r.2) }
      else ⟨out.done ++ [last], some r⟩

theorem Output.last_put (out : Output K M) (r : K × M) : ∃ a, (out.put r).last = some (r.1, a) := by
  rw [Output.put]
  cases out.last with
  | none => exact ⟨r.2, rfl⟩
  | some last =>
      by_cases same : last.1 = r.1
      · exact ⟨last.2 + r.2, by simp only [same, if_true]⟩
      · exact ⟨r.2, by simp only [if_neg same]⟩

/-- The output and the rows still to come are the whole relation, and the output is
below all of them. -/
structure Merging (total rest : List (K × M)) (out : Output K M) : Prop where
  ascending : Ascending out.rows
  same : Same (out.rows ++ rest) total
  fresh : out.last = none → out.done = []
  below : ∀ last ∈ out.last, ∀ x ∈ rest, last.1 ≤ x.1

variable {total rest more : List (K × M)} {out : Output K M} {r : K × M}

theorem merging_start (total : List (K × M)) : Merging total total ⟨[], none⟩ where
  ascending := List.Pairwise.nil
  same := .refl _
  fresh := fun _ => rfl
  below := by simp

theorem Merging.perm (h : Merging total rest out) (order : rest.Perm more) :
    Merging total more out where
  ascending := h.ascending
  same := ((Same.refl out.rows).append (.of_perm order.symm)).trans h.same
  fresh := h.fresh
  below := fun last hl x hx => h.below last hl x (order.mem_iff.mpr hx)

theorem Merging.put (h : Merging total (r :: rest) out) (least : ∀ x ∈ rest, r.1 ≤ x.1) :
    Merging total rest (out.put r) := by
  have ascending := h.ascending
  have same := h.same
  rw [List.append_cons] at same
  have below := h.below
  have fresh := h.fresh
  rw [Output.put]
  rw [Output.rows] at ascending same
  cases open_ : out.last with
  | none =>
      rw [open_] at same
      rw [fresh open_] at same
      refine ⟨?_, ?_, ?_, ?_⟩
      · simp [Output.rows, fresh open_, Ascending]
      · simpa [Output.rows, fresh open_] using same
      · intro absent
        cases absent
      · intro last hl
        cases hl
        exact least
  | some last =>
      rw [open_] at ascending same
      have up : last.1 ≤ r.1 := below last open_ r (List.mem_cons_self ..)
      dsimp only
      split_ifs with key
      · refine ⟨?_, ?_, ?_, ?_⟩
        · exact Ascending.replace_last ascending
        · have grown : Same (out.done ++ [(last.1, last.2 + r.2)])
              (out.done ++ [last] ++ [r]) := by
            have := same_add_last out.done last.1 last.2 r.2
            rwa [show (last.1, r.2) = r by rw [key]] at this
          exact (grown.append (.refl rest)).trans same
        · intro absent
          cases absent
        · intro other hl
          cases hl
          dsimp only
          rw [key]
          exact least
      · refine ⟨?_, ?_, ?_, ?_⟩
        · exact Ascending.concat ascending (List.getLast?_append_of_ne_nil _ (by simp))
            (lt_of_le_of_ne up key)
        · exact same
        · intro absent
          cases absent
        · intro other hl
          cases hl
          exact least

theorem Merging.rows_eq (h : Merging total [] out) : out.rows = groupBy total := by
  refine eq_groupBy h.ascending ?_
  simpa using h.same

end Baseliner.RunMerge
