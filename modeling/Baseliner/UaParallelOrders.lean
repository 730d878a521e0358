import Mathlib.Data.List.Nodup
import Baseliner.BlockScan
import Baseliner.LoopEntries

/-! `parallel_add` of the UA benchmark: running sums by doubling, with the iterations of its two
parallel loops in any order, for entries of any kind that adds up: integers, or words that wrap
around. In each round the blocks are twice as long, and the second half of a block is raised by
the last sum of its first half. -/

namespace Baseliner.UaParallelOrders

open BlockScan LoopEntries

section Code

/-- `nellog`: `iel` is doubled until it is no longer below `nelt`. -/
def nellog (nelt : ℕ) : ℕ → ℕ → ℕ
  | 0, _ => 0
  | fuel + 1, iel => if iel * 2 < nelt then nellog nelt fuel (iel * 2) + 1 else 1

variable {M : Type*} [AddCommMonoid M]

/-- The entries `iel - ii` of the listed `ii`, one after the other, raised by `ahead`. -/
def raiseBack (iel : ℕ) (ahead : M) (shifts : List ℕ) (frontier : ℕ → M) : ℕ → M :=
  shifts.foldl (fun frontier ii =>
    Function.update frontier (iel - ii) (frontier (iel - ii) + ahead)) frontier

/-- One iteration of the first parallel loop; its inner loop runs from `ntemp - 1` down. -/
def addBack (ntemp iel : ℕ) (frontier : ℕ → M) : ℕ → M :=
  raiseBack iel (frontier (iel - ntemp)) (List.range ntemp).reverse frontier

/-- The orders in which a round runs the iterations of its loops:
`iel = n1, nelt, n1` and `ii = ntemp - 1, ntemp1, -1`. -/
structure Schedule (nelt ntemp : ℕ) where
  blocks : List ℕ
  tail : List ℕ
  blocks_perm : blocks.Perm (List.range' (ntemp * 2) (nelt / (ntemp * 2)) (ntemp * 2))
  tail_perm :
    let ntemp1 := (nelt / (ntemp * 2) + 1) * (ntemp * 2) - nelt
    tail.Perm (List.range' ntemp1 (ntemp - ntemp1))

def Schedule.sequential (nelt ntemp : ℕ) : Schedule nelt ntemp where
  blocks := List.range' (ntemp * 2) (nelt / (ntemp * 2)) (ntemp * 2)
  tail := (List.range' ((nelt / (ntemp * 2) + 1) * (ntemp * 2) - nelt)
    (ntemp - ((nelt / (ntemp * 2) + 1) * (ntemp * 2) - nelt))).reverse
  blocks_perm := .refl _
  tail_perm := List.reverse_perm _

def addRound {nelt ntemp : ℕ} (schedule : Schedule nelt ntemp) (frontier : ℕ → M) : ℕ → M :=
  let frontier := schedule.blocks.foldl (fun frontier iel => addBack ntemp iel frontier) frontier
  let iel := (nelt / (ntemp * 2) + 1) * (ntemp * 2)
  let ntemp1 := iel - nelt
  if ntemp1 < ntemp then raiseBack iel (frontier (iel - ntemp)) schedule.tail frontier
  else frontier

def addRounds {nelt : ℕ} (schedule : ∀ ntemp, Schedule nelt ntemp) :
    (left ntemp : ℕ) → (ℕ → M) → ℕ → M
  | 0, _, frontier => frontier
  | left + 1, ntemp, frontier =>
      addRounds schedule left (ntemp * 2) (addRound (schedule ntemp) frontier)

/-- `nelt` doublings of `iel` are more than enough to reach `nelt`. -/
def parallelAdd {nelt : ℕ} (schedule : ∀ ntemp, Schedule nelt ntemp) (frontier : ℕ → M) : ℕ → M :=
  addRounds schedule (nellog nelt (nelt + 1) 1) 1 frontier

end Code

theorem le_doubled (nelt fuel iel : ℕ) (pos : 1 ≤ iel) (enough : nelt ≤ iel + fuel) :
    nelt ≤ iel * 2 ^ nellog nelt fuel iel := by
  induction fuel generalizing iel with
  | zero => simpa [nellog] using enough
  | succ fuel ih =>
      rw [nellog]
      split_ifs with below
      · have rest := ih (iel * 2) (by omega) (by omega)
        rwa [pow_succ', ← Nat.mul_assoc]
      · rw [pow_one]
        omega

section Loops

variable {M : Type*} [AddCommMonoid M] {nelt ntemp iel : ℕ} {frontier : ℕ → M}

theorem raiseBack_apply (ahead : M) {shifts : List ℕ} (distinct : shifts.Nodup)
    (inside : ∀ ii ∈ shifts, ii < iel) (x : ℕ) :
    raiseBack iel ahead shifts frontier x =
      if x ≤ iel ∧ iel - x ∈ shifts then frontier x + ahead else frontier x := by
  induction shifts generalizing frontier with
  | nil => simp [raiseBack]
  | cons ii shifts ih =>
      rw [List.nodup_cons] at distinct
      rw [List.forall_mem_cons] at inside
      have step : raiseBack iel ahead (ii :: shifts) frontier =
          raiseBack iel ahead shifts
            (Function.update frontier (iel - ii) (frontier (iel - ii) + ahead)) := rfl
      rw [step, ih distinct.2 inside.2]
      by_cases here : x = iel - ii
      · have shift : iel - x = ii := by omega
        rw [here, Function.update_self, ← here, shift, if_neg fun h => distinct.1 h.2,
          if_pos ⟨by omega, List.mem_cons_self⟩]
      · rw [Function.update_of_ne here]
        have same : (x ≤ iel ∧ iel - x ∈ shifts) ↔ (x ≤ iel ∧ iel - x ∈ ii :: shifts) := by
          rw [List.mem_cons]
          constructor
          · exact fun h => ⟨h.1, .inr h.2⟩
          · rintro ⟨le, first | later⟩
            · omega
            · exact ⟨le, later⟩
        simp only [same]

theorem addBack_apply (fits : ntemp ≤ iel) (x : ℕ) :
    addBack ntemp iel frontier x =
      if iel - ntemp < x ∧ x ≤ iel then frontier x + frontier (iel - ntemp) else frontier x := by
  have distinct : (List.range ntemp).reverse.Nodup := List.nodup_reverse.mpr List.nodup_range
  have inside : ∀ ii ∈ (List.range ntemp).reverse, ii < iel := by
    intro ii hii
    have := List.mem_range.mp (List.mem_reverse.mp hii)
    omega
  have same : (x ≤ iel ∧ iel - x ∈ (List.range ntemp).reverse) ↔ (iel - ntemp < x ∧ x ≤ iel) := by
    rw [List.mem_reverse, List.mem_range]
    omega
  rw [addBack, raiseBack_apply _ distinct inside]
  simp only [same]

theorem addBack_other (pos : 1 ≤ ntemp) {b c : ℕ} (other : b ≠ c) {r : ℕ} (low : 1 ≤ r)
    (high : r ≤ ntemp * 2) :
    addBack ntemp ((c + 1) * (ntemp * 2)) frontier (b * (ntemp * 2) + r) =
      frontier (b * (ntemp * 2) + r) := by
  have ends : (c + 1) * (ntemp * 2) = c * (ntemp * 2) + ntemp * 2 := Nat.succ_mul ..
  rw [addBack_apply (by omega), if_neg]
  rcases Nat.lt_or_gt_of_ne other with before | behind
  · have le := Nat.mul_le_mul_right (ntemp * 2) before
    rw [Nat.succ_mul] at le
    omega
  · have le := Nat.mul_le_mul_right (ntemp * 2) behind
    rw [Nat.succ_mul] at le
    omega

theorem addBack_own (b : ℕ) {r : ℕ} (high : r ≤ ntemp * 2) :
    addBack ntemp ((b + 1) * (ntemp * 2)) frontier (b * (ntemp * 2) + r) =
      if ntemp < r then frontier (b * (ntemp * 2) + r) + frontier (b * (ntemp * 2) + ntemp)
      else frontier (b * (ntemp * 2) + r) := by
  have ends : (b + 1) * (ntemp * 2) = b * (ntemp * 2) + ntemp * 2 := Nat.succ_mul ..
  have half : (b + 1) * (ntemp * 2) - ntemp = b * (ntemp * 2) + ntemp := by omega
  have second : (b * (ntemp * 2) + ntemp < b * (ntemp * 2) + r ∧
      b * (ntemp * 2) + r ≤ b * (ntemp * 2) + ntemp * 2) ↔ ntemp < r := by omega
  rw [addBack_apply (by omega), half, ends]
  simp only [second]

theorem blocks_apply (frontier : ℕ → M) (pos : 1 ≤ ntemp) (b : ℕ) {r : ℕ} (low : 1 ≤ r)
    (high : r ≤ ntemp * 2) {order : List ℕ} (distinct : order.Nodup)
    (ends : ∀ e ∈ order, ∃ c, e = (c + 1) * (ntemp * 2)) :
    order.foldl (fun frontier iel => addBack ntemp iel frontier) frontier (b * (ntemp * 2) + r) =
      if (b + 1) * (ntemp * 2) ∈ order ∧ ntemp < r then
        frontier (b * (ntemp * 2) + r) + frontier (b * (ntemp * 2) + ntemp)
      else frontier (b * (ntemp * 2) + r) := by
  induction order generalizing frontier with
  | nil => simp
  | cons e order ih =>
      rw [List.nodup_cons] at distinct
      rw [List.forall_mem_cons] at ends
      obtain ⟨⟨c, rfl⟩, later⟩ := ends
      rw [List.foldl_cons, ih _ distinct.2 later]
      by_cases here : b = c
      · subst here
        rw [if_neg fun h => distinct.1 h.1, addBack_own b high]
        simp only [List.mem_cons_self, true_and]
      · have differ : (b + 1) * (ntemp * 2) ≠ (c + 1) * (ntemp * 2) := by
          intro same
          exact here (Nat.succ_inj.mp (Nat.eq_of_mul_eq_mul_right (by omega) same))
        rw [addBack_other pos here low high, addBack_other pos here pos (by omega)]
        simp only [List.mem_cons, differ, false_or]

theorem blocks_outside {order : List ℕ} {x : ℕ}
    (far : ∀ e ∈ order, ntemp ≤ e ∧ (x = 0 ∨ e < x)) :
    order.foldl (fun frontier iel => addBack ntemp iel frontier) frontier x = frontier x := by
  induction order generalizing frontier with
  | nil => rfl
  | cons e order ih =>
      rw [List.forall_mem_cons] at far
      rw [List.foldl_cons, ih far.2, addBack_apply far.1.1, if_neg (by omega)]

end Loops

section Rounds

variable {M : Type*} [AddCommMonoid M] {nelt ntemp : ℕ} {frontier : ℕ → M}

theorem Schedule.mem_blocks (schedule : Schedule nelt ntemp) {e : ℕ} :
    e ∈ schedule.blocks ↔ ∃ c < nelt / (ntemp * 2), e = (c + 1) * (ntemp * 2) := by
  rw [schedule.blocks_perm.mem_iff, List.mem_range']
  simp only [Nat.succ_mul, Nat.mul_comm (ntemp * 2), Nat.add_comm (ntemp * 2)]

theorem Schedule.blocks_nodup (schedule : Schedule nelt ntemp) (pos : 1 ≤ ntemp) :
    schedule.blocks.Nodup := by
  rw [schedule.blocks_perm.nodup_iff]
  exact List.nodup_range' _ (by omega)

theorem tail_apply (schedule : Schedule nelt ntemp) (pos : 1 ≤ ntemp) (ahead : M) (x : ℕ) :
    let iel := (nelt / (ntemp * 2) + 1) * (ntemp * 2)
    raiseBack iel ahead schedule.tail frontier x =
      if iel - ntemp < x ∧ x ≤ nelt then frontier x + ahead else frontier x := by
  intro iel
  have division := Nat.div_add_mod nelt (ntemp * 2)
  have rest := Nat.mod_lt nelt (show ntemp * 2 > 0 by omega)
  have ends : iel = ntemp * 2 * (nelt / (ntemp * 2)) + ntemp * 2 := by
    rw [← Nat.mul_succ, Nat.mul_comm]
  have distinct : schedule.tail.Nodup := by
    rw [schedule.tail_perm.nodup_iff]
    exact List.nodup_range'
  have mem (ii : ℕ) : ii ∈ schedule.tail ↔ iel - nelt ≤ ii ∧ ii < ntemp := by
    rw [schedule.tail_perm.mem_iff, List.mem_range'_1]
    omega
  have inside : ∀ ii ∈ schedule.tail, ii < iel := by
    intro ii hii
    have := (mem ii).mp hii
    omega
  rw [raiseBack_apply _ distinct inside]
  have same : (x ≤ iel ∧ iel - x ∈ schedule.tail) ↔ (iel - ntemp < x ∧ x ≤ nelt) := by
    rw [mem]
    omega
  simp only [same]

theorem addRound_eq (schedule : Schedule nelt ntemp) (pos : 1 ≤ ntemp) (x : ℕ) :
    let whole := schedule.blocks.foldl (fun frontier iel => addBack ntemp iel frontier) frontier
    let middle := nelt / (ntemp * 2) * (ntemp * 2) + ntemp
    addRound schedule frontier x =
      if middle < x ∧ x ≤ nelt then whole x + whole middle else whole x := by
  intro whole middle
  have ends : (nelt / (ntemp * 2) + 1) * (ntemp * 2) = middle + ntemp := by
    rw [Nat.succ_mul]
    omega
  have half : (nelt / (ntemp * 2) + 1) * (ntemp * 2) - ntemp = middle := by omega
  rw [addRound]
  by_cases cut : (nelt / (ntemp * 2) + 1) * (ntemp * 2) - nelt < ntemp
  · rw [if_pos cut, tail_apply schedule pos, half]
  · rw [if_neg cut, if_neg (by omega)]

/-- A round up to `nelt`, in whatever order; the last block may be cut off or lack its
second half. -/
theorem addRound_apply (schedule : Schedule nelt ntemp) (pos : 1 ≤ ntemp) (b : ℕ) {r : ℕ}
    (low : 1 ≤ r) (high : r ≤ ntemp * 2) (inside : b * (ntemp * 2) + r ≤ nelt) :
    addRound schedule frontier (b * (ntemp * 2) + r) =
      if ntemp < r then frontier (b * (ntemp * 2) + r) + frontier (b * (ntemp * 2) + ntemp)
      else frontier (b * (ntemp * 2) + r) := by
  have ends : ∀ e ∈ schedule.blocks, ∃ c, e = (c + 1) * (ntemp * 2) :=
    fun e he => (schedule.mem_blocks.mp he).imp fun _ h => h.2
  have blocks (b : ℕ) {r : ℕ} (low : 1 ≤ r) (high : r ≤ ntemp * 2) :=
    blocks_apply frontier pos b low high (schedule.blocks_nodup pos) ends
  have member (b : ℕ) : (b + 1) * (ntemp * 2) ∈ schedule.blocks ↔ b < nelt / (ntemp * 2) := by
    rw [schedule.mem_blocks]
    constructor
    · rintro ⟨c, below, same⟩
      have := Nat.eq_of_mul_eq_mul_right (show 0 < ntemp * 2 by omega) same
      omega
    · exact fun below => ⟨b, below, rfl⟩
  have division := Nat.div_add_mod nelt (ntemp * 2)
  have rest := Nat.mod_lt nelt (show ntemp * 2 > 0 by omega)
  have upTo : b ≤ nelt / (ntemp * 2) := (Nat.le_div_iff_mul_le (by omega)).mpr (by omega)
  rw [addRound_eq schedule pos]
  rw [Nat.mul_comm] at division
  rcases Nat.lt_or_eq_of_le upTo with before | here
  · -- a whole block, and the tail lies behind it
    have le := Nat.mul_le_mul_right (ntemp * 2) before
    rw [Nat.succ_mul] at le
    rw [if_neg (by omega), blocks b low high]
    simp only [member, before, true_and]
  · -- the cut off block, which no iteration of the first loop has touched
    have none : (b + 1) * (ntemp * 2) ∉ schedule.blocks := by
      rw [member]
      omega
    have untouched {s : ℕ} (low : 1 ≤ s) (high : s ≤ ntemp * 2) :=
      (blocks b low high).trans (if_neg fun h => none h.1)
    rw [← here, untouched low high, untouched pos (by omega)]
    have second : (b * (ntemp * 2) + ntemp < b * (ntemp * 2) + r ∧
        b * (ntemp * 2) + r ≤ nelt) ↔ ntemp < r := by omega
    simp only [second]

theorem addRound_outside (schedule : Schedule nelt ntemp) (pos : 1 ≤ ntemp) {x : ℕ}
    (far : x = 0 ∨ nelt < x) : addRound schedule frontier x = frontier x := by
  rw [addRound_eq schedule pos, if_neg (by omega), blocks_outside]
  intro e he
  obtain ⟨c, below, rfl⟩ := schedule.mem_blocks.mp he
  have le := (Nat.le_div_iff_mul_le (by omega)).mp (Nat.succ_le_of_lt below)
  rw [Nat.succ_mul] at le ⊢
  omega

theorem blockSums_addRounds (schedule : ∀ ntemp, Schedule nelt ntemp) {start : ℕ → M} (left : ℕ)
    (pos : 1 ≤ ntemp) (h : BlockSums nelt ntemp start frontier) :
    BlockSums nelt (ntemp * 2 ^ left) start (addRounds schedule left ntemp frontier) := by
  induction left generalizing ntemp frontier with
  | zero => simpa [addRounds] using h
  | succ left ih =>
      have level : Doubles nelt ntemp frontier (addRound (schedule ntemp) frontier) :=
        fun b r low high inside => addRound_apply (schedule ntemp) pos b low high inside
      rw [addRounds, pow_succ', ← Nat.mul_assoc]
      exact ih (by omega) (h.double pos level)

theorem addRounds_outside (schedule : ∀ ntemp, Schedule nelt ntemp) (left : ℕ) (pos : 1 ≤ ntemp)
    {x : ℕ} (far : x = 0 ∨ nelt < x) : addRounds schedule left ntemp frontier x = frontier x := by
  induction left generalizing ntemp frontier with
  | zero => rfl
  | succ left ih => rw [addRounds, ih (by omega), addRound_outside (schedule ntemp) pos far]

theorem parallelAdd_sum (schedule : ∀ ntemp, Schedule nelt ntemp) (frontier : ℕ → M) {x : ℕ}
    (low : 1 ≤ x) (high : x ≤ nelt) :
    parallelAdd schedule frontier x = ∑ y ∈ Finset.Ico 1 (x + 1), frontier y := by
  have sums := blockSums_addRounds schedule (nellog nelt (nelt + 1) 1) le_rfl
    (blockSums_one nelt frontier)
  exact sums.sum_upTo (le_doubled nelt (nelt + 1) 1 le_rfl (by omega)) low high

theorem parallelAdd_upTo (schedule : ∀ ntemp, Schedule nelt ntemp) (p : ℕ → Bool) {x : ℕ}
    (low : 1 ≤ x) (high : x ≤ nelt) :
    parallelAdd schedule (fun y => if p y then 1 else 0) x = upTo p x := by
  have counts (n : ℕ) : ∑ y ∈ Finset.Ico 1 (n + 1), (if p y then 1 else 0) = upTo p n := by
    induction n with
    | zero => rfl
    | succ n ih => rw [Finset.sum_Ico_succ_top (by omega), ih, upTo_succ]
  rw [parallelAdd_sum schedule _ low high, counts]

/-- `parallel_add` leaves the running sums, whatever order the iterations run in, and leaves
the other entries alone. -/
theorem runningSums_of_schedule {nelt : ℕ} (schedule : ∀ ntemp, Schedule nelt ntemp)
    (front : ℕ → M) (i : ℕ) :
    parallelAdd schedule front i =
      if 1 ≤ i ∧ i ≤ nelt then ∑ y ∈ Finset.Ico 1 (i + 1), front y else front i := by
  split_ifs with inside
  · exact parallelAdd_sum schedule front inside.1 inside.2
  · exact addRounds_outside schedule _ le_rfl (by omega)

example : (List.range 7).map (parallelAdd (Schedule.sequential 5) fun i => (2 * i : ℤ)) =
    [0, 2, 6, 12, 20, 30, 12] := by decide

end Rounds

end Baseliner.UaParallelOrders
