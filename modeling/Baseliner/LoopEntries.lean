import Mathlib.Data.List.Nodup
import Mathlib.Data.Nat.Basic

/-! Loops that store to tables: what one entry holds behind a loop when at most one turn stores
to it, and tables that are laid out in blocks, one block for each turn. -/

namespace Baseliner.LoopEntries

section Views

variable {σ β κ : Type*} {S : κ → σ → σ} {l : List κ}

theorem view_untouched (view : σ → β) (others : ∀ j ∈ l, ∀ T, view (S j T) = view T) (T : σ) :
    view (l.foldl (fun T j => S j T) T) = view T := by
  induction l generalizing T with
  | nil => rfl
  | cons j l ih =>
      rw [List.foldl_cons, ih fun k hk => others k (List.mem_cons_of_mem _ hk),
        others j (List.mem_cons_self ..)]

theorem view_owner (view : σ → β) (once : l.Nodup) {k : κ} (member : k ∈ l)
    (settled : ∀ T T', view T = view T' → view (S k T) = view (S k T'))
    (others : ∀ j ∈ l, j ≠ k → ∀ T, view (S j T) = view T) (T : σ) :
    view (l.foldl (fun T j => S j T) T) = view (S k T) := by
  induction l generalizing T with
  | nil => cases member
  | cons j l ih =>
      rw [List.nodup_cons] at once
      rw [List.foldl_cons]
      by_cases here : j = k
      · subst here
        refine view_untouched view (fun i hi => others i (List.mem_cons_of_mem _ hi) ?_) _
        rintro rfl
        exact once.1 hi
      · have later : k ∈ l := (List.mem_cons.mp member).resolve_left (Ne.symm here)
        rw [ih once.2 later fun i hi => others i (List.mem_cons_of_mem _ hi)]
        exact settled _ _ (others j (List.mem_cons_self ..) here T)

theorem view_foldl (view : σ → β) {R : β → κ → β}
    (each : ∀ j ∈ l, ∀ T, view (S j T) = R (view T) j) (T : σ) :
    view (l.foldl (fun T j => S j T) T) = l.foldl R (view T) := by
  induction l generalizing T with
  | nil => rfl
  | cons j l ih =>
      rw [List.foldl_cons, List.foldl_cons, ih fun k hk => each k (List.mem_cons_of_mem _ hk),
        each j (List.mem_cons_self ..)]

end Views

section Updates

variable {κ α : Type*} {l : List κ}

theorem foldl_update_self (key : κ → ℕ) (val : κ → α) (f : ℕ → α) (once : l.Nodup) {k : κ}
    (member : k ∈ l) (apart : ∀ j ∈ l, key j = key k → j = k) :
    l.foldl (fun f j => Function.update f (key j) (val j)) f (key k) = val k := by
  refine (view_owner (fun f : ℕ → α => f (key k)) once member ?_ ?_ f).trans
    (Function.update_self ..)
  · intro T T' _
    rw [Function.update_self, Function.update_self]
  · intro j hj other T
    exact Function.update_of_ne (fun same => other (apart j hj same.symm)) ..

theorem foldl_update_other {key : κ → ℕ} {val : κ → α} {f : ℕ → α} {x : ℕ}
    (apart : ∀ j ∈ l, x ≠ key j) :
    l.foldl (fun f j => Function.update f (key j) (val j)) f x = f x :=
  view_untouched (fun f : ℕ → α => f x) (fun j hj _ => Function.update_of_ne (apart j hj) ..) f

end Updates

section Blocks

variable {β : Type*} (block : ℕ → List β)

/-- The blocks up to `n`, as one list. -/
def blocks (n : ℕ) : List β := (List.range' 1 n).flatMap block

theorem blocks_succ (n : ℕ) : blocks block (n + 1) = blocks block n ++ block (n + 1) := by
  rw [blocks, blocks, List.range'_concat, List.flatMap_append, List.flatMap_singleton,
    Nat.one_mul, Nat.add_comm 1 n]

theorem length_blocks_mono {n k : ℕ} (h : n ≤ k) :
    (blocks block n).length ≤ (blocks block k).length := by
  induction h with
  | refl => exact Nat.le_refl _
  | step _ ih =>
      rw [blocks_succ, List.length_append]
      exact Nat.le_trans ih (Nat.le_add_right ..)

theorem map_range'_blocks (g : ℕ → β) (n : ℕ)
    (held : ∀ x, x < n → ∀ j b, (block (x + 1))[j]? = some b →
      g (1 + (blocks block x).length + j) = b) :
    (List.range' 1 (blocks block n).length).map g = blocks block n := by
  induction n with
  | zero => rfl
  | succ n ih =>
      have last : (List.range' (1 + (blocks block n).length) (block (n + 1)).length).map g =
          block (n + 1) := by
        refine List.ext_getElem (by simp) fun j _ _ => ?_
        simp only [List.getElem_map, List.getElem_range', Nat.one_mul]
        exact held n (Nat.lt_succ_self n) j _ (List.getElem?_eq_getElem ..)
      rw [blocks_succ, List.length_append, ← List.range'_append_1, List.map_append, last,
        ih fun x hx => held x (Nat.lt_succ_of_lt hx)]

end Blocks

section Counts

variable (p : ℕ → Bool)

/-- How many of the first `n` are marked. -/
def upTo (n : ℕ) : ℕ := (List.range' 1 n).countP p

@[simp] theorem upTo_zero : upTo p 0 = 0 := rfl

theorem upTo_succ (n : ℕ) : upTo p (n + 1) = upTo p n + if p (n + 1) then 1 else 0 := by
  rw [upTo, List.range'_concat, List.countP_append, List.countP_singleton, Nat.one_mul,
    Nat.add_comm 1 n]
  rfl

theorem upTo_mono {n m : ℕ} (h : n ≤ m) : upTo p n ≤ upTo p m := by
  induction h with
  | refl => exact le_rfl
  | step _ ih =>
      rw [upTo_succ]
      exact Nat.le_trans ih (Nat.le_add_right ..)

theorem upTo_lt {n m : ℕ} (h : n < m) (marked : p m = true) : upTo p n < upTo p m := by
  obtain ⟨k, rfl⟩ : ∃ k, m = k + 1 := ⟨m - 1, by omega⟩
  have mono := upTo_mono p (Nat.lt_succ_iff.mp h)
  rw [upTo_succ, if_pos marked]
  omega

theorem map_action (action : ℕ → ℕ) (n : ℕ)
    (held : ∀ x, 1 ≤ x → x ≤ n → p x = true → action (upTo p x) = x) :
    (List.range' 1 (upTo p n)).map action = (List.range' 1 n).filter p := by
  induction n with
  | zero => rfl
  | succ n ih =>
      have before := ih fun x low high => held x low (Nat.le_succ_of_le high)
      rw [List.range'_concat, List.filter_append, Nat.one_mul, Nat.add_comm 1 n, ← before,
        upTo_succ]
      cases marked : p (n + 1) with
      | false => simp [marked]
      | true =>
          have here := held (n + 1) (by omega) le_rfl marked
          rw [upTo_succ, if_pos marked] at here
          simp only [if_true, List.range'_concat, List.map_append, Nat.one_mul,
            Nat.add_comm 1 (upTo p n), List.map_singleton, here, List.filter_singleton, marked]
          rfl

theorem map_foldl_action (front f : ℕ → ℕ) (n : ℕ)
    (counts : ∀ x, 1 ≤ x → x ≤ n → front x = upTo p x) :
    (List.range' 1 (upTo p n)).map ((List.range' 1 n).foldl
        (fun f x => if p x then Function.update f (front x) x else f) f) =
      (List.range' 1 n).filter p := by
  refine map_action p _ n fun x low high marked => ?_
  rw [← counts x low high]
  refine (view_owner (fun f : ℕ → ℕ => f (front x)) List.nodup_range'
    (List.mem_range'_1.mpr ⟨low, by omega⟩) ?_ ?_ f).trans ?_
  · intro T T' _
    rw [if_pos marked, if_pos marked, Function.update_self, Function.update_self]
  · intro j hj other T
    obtain ⟨low', high'⟩ := List.mem_range'_1.mp hj
    split_ifs with marked'
    · refine Function.update_of_ne ?_ ..
      rw [counts x low high, counts j low' (by omega)]
      rcases Nat.lt_or_gt_of_ne other with before | behind
      · exact Nat.ne_of_gt (upTo_lt p before marked)
      · exact Nat.ne_of_lt (upTo_lt p behind marked')
    · rfl
  · simp only [if_pos marked, Function.update_self]

end Counts

end Baseliner.LoopEntries
