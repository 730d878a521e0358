import Mathlib.Data.Multiset.DershowitzManna
import Mathlib.Data.Multiset.Filter
import Mathlib.Order.WellFounded

/-! Sweeps over marked items that are repeated until one of them changes nothing. Items have
ranks in a well-founded order. A step may take the mark off an item and hand it down to any number
of items of lower rank, so that the multiset of the marked ranks falls in the Dershowitz-Manna
order. A sweep takes steps in some order, and is repeated as long as it has taken one. -/

namespace Baseliner.RepeatedSweeps

section Marks

variable {ι α : Type*} [Preorder α] (rank : ι → α) (items : Multiset ι)

def ranks (marked : ι → Prop) [DecidablePred marked] : Multiset α :=
  (items.filter marked).map rank

/-- The mark of `x` is handed down. -/
structure HandsDown (before after : ι → Prop) (x : ι) : Prop where
  member : x ∈ items
  marked : before x
  unmarked : ¬ after x
  lower : ∀ y ∈ items, after y → before y ∨ rank y < rank x

variable {rank items} {before after : ι → Prop} [DecidablePred before] [DecidablePred after]

theorem HandsDown.ranks_lt {x : ι} (h : HandsDown rank items before after x) :
    (ranks rank items after).IsDershowitzMannaLT (ranks rank items before) := by
  have taken : x ∈ (items.filter before).filter fun y => ¬ after y :=
    Multiset.mem_filter.mpr ⟨Multiset.mem_filter.mpr ⟨h.member, h.marked⟩, h.unmarked⟩
  refine ⟨((items.filter after).filter before).map rank,
    ((items.filter after).filter fun y => ¬ before y).map rank,
    ((items.filter before).filter fun y => ¬ after y).map rank, ?_, ?_, ?_, ?_⟩
  · intro none
    have member := Multiset.mem_map_of_mem rank taken
    rw [none] at member
    exact Multiset.notMem_zero _ member
  · rw [← Multiset.map_add, Multiset.filter_add_not]
    rfl
  · rw [← Multiset.map_add, Multiset.filter_comm, Multiset.filter_add_not]
    rfl
  · intro a member
    obtain ⟨y, hy, rfl⟩ := Multiset.mem_map.mp member
    obtain ⟨marked, fresh⟩ := Multiset.mem_filter.mp hy
    obtain ⟨there, marked⟩ := Multiset.mem_filter.mp marked
    refine ⟨rank x, Multiset.mem_map_of_mem rank taken, ?_⟩
    exact (h.lower y there marked).resolve_left fresh

end Marks

section Sweep

variable {σ β : Type*} {step : σ → β → σ} {todo : List β}

theorem foldl_rests {s : σ} (each : ∀ b ∈ todo, step s b = s) : todo.foldl step s = s := by
  induction todo with
  | nil => rfl
  | cons b todo ih =>
      rw [List.foldl_cons, each b (List.mem_cons_self ..)]
      exact ih fun c member => each c (List.mem_cons_of_mem b member)

theorem foldl_rests_or_drops {Drops : σ → σ → Prop} {Fine : σ → β → Prop}
    (trans : ∀ r s t, Drops t s → Drops s r → Drops t r)
    (each : ∀ b ∈ todo, ∀ s, step s b = s ∧ Fine s b ∨ Drops (step s b) s) (s : σ) :
    todo.foldl step s = s ∧ (∀ b ∈ todo, Fine s b) ∨ Drops (todo.foldl step s) s := by
  induction todo generalizing s with
  | nil => exact .inl ⟨rfl, fun b member => (List.not_mem_nil member).elim⟩
  | cons b todo ih =>
      have rest := ih (fun c member => each c (List.mem_cons_of_mem b member)) (step s b)
      rw [List.foldl_cons]
      rcases each b (List.mem_cons_self ..) s with ⟨same, fine⟩ | drop
      · rw [same] at rest ⊢
        rcases rest with ⟨still, others⟩ | drop
        · exact .inl ⟨still, List.forall_mem_cons.mpr ⟨fine, others⟩⟩
        · exact .inr drop
      · rcases rest with ⟨still, -⟩ | further
        · rw [still]
          exact .inr drop
        · exact .inr (trans _ _ _ further drop)

theorem foldl_reaches {P : σ → Prop} (keep : ∀ b ∈ todo, ∀ s, P s → P (step s b)) {b : β}
    (member : b ∈ todo) (reach : ∀ s, P (step s b)) (s : σ) : P (todo.foldl step s) := by
  induction todo generalizing s with
  | nil => exact (List.not_mem_nil member).elim
  | cons c todo ih =>
      have later (d : β) (member : d ∈ todo) := keep d (List.mem_cons_of_mem c member)
      rw [List.foldl_cons]
      rcases List.mem_cons.mp member with rfl | member
      · exact List.foldlRecOn todo step (reach s) fun t kept d member => later d member t kept
      · exact ih later member (step s c)

end Sweep

section Loop

variable {σ : Type*} (again : σ → Bool) (sweep : ℕ → σ → σ) (s : σ)

/-- The state when the loop has come to its test for the `n`-th time; where the test fails, the
loop has ended. -/
def repeated : ℕ → σ
  | 0 => s
  | n + 1 => if again (repeated n) then sweep n (repeated n) else repeated n

variable {again sweep s}

theorem repeated_induct {P : σ → Prop} (start : P s) (keep : ∀ n t, P t → P (sweep n t)) (n : ℕ) :
    P (repeated again sweep s n) := by
  induction n with
  | zero => exact start
  | succ n ih =>
      rw [repeated]
      split_ifs
      · exact keep n _ ih
      · exact ih

theorem repeated_ends {R : σ → σ → Prop} (founded : WellFounded R)
    (drops : ∀ n t, again (sweep n t) = true → R (sweep n t) t) :
    ∃ n, again (repeated again sweep s n) = false := by
  obtain ⟨n, stuck⟩ := @WellFounded.not_rel_apply_succ σ R ⟨founded⟩ (repeated again sweep s)
  cases test : again (repeated again sweep s n) with
  | false => exact ⟨n, test⟩
  | true =>
      refine ⟨n + 1, ?_⟩
      rw [repeated, if_pos test] at stuck ⊢
      exact Bool.eq_false_iff.mpr fun more => stuck (drops n _ more)

theorem repeated_last {n : ℕ} (start : again s = true)
    (ended : again (repeated again sweep s n) = false) :
    ∃ k t, sweep k t = repeated again sweep s n ∧ again (sweep k t) = false := by
  induction n with
  | zero =>
      rw [repeated, start] at ended
      cases ended
  | succ n ih =>
      rw [repeated] at ended ⊢
      split_ifs at ended ⊢ with test
      · exact ⟨n, _, rfl, ended⟩
      · exact ih ended

end Loop

end Baseliner.RepeatedSweeps
