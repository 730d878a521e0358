import Mathlib.Data.List.GetD
import Mathlib.Data.List.Sort

/-! Which entry of a list a stable sort puts first, and what an entry at the end of the list does
to the sorted one. -/

namespace Baseliner.StableSelection

variable {E : Type*} {le : E → E → Bool}

structure Ranks (le : E → E → Bool) : Prop where
  trans : ∀ a b c, le a b → le b c → le a c
  total : ∀ a b, le a b || le b a

theorem Ranks.of_not (h : Ranks le) {a b : E} (not : le a b = false) : le b a = true := by
  have either := h.total a b
  rwa [not, Bool.false_or] at either

theorem Ranks.refl (h : Ranks le) (a : E) : le a a = true := by
  have either := h.total a a
  rwa [Bool.or_self] at either

theorem mergeSort_cons (h : Ranks le) (a : E) (l : List E) :
    (a :: l).mergeSort le = (l.mergeSort le).orderedInsert (fun x y => le x y) a := by
  obtain ⟨front, back, sorted, rest, before⟩ := List.mergeSort_cons h.trans h.total a l
  have behind : ∀ b ∈ back, le a b = true := by
    have pairwise := List.pairwise_mergeSort h.trans h.total (a :: l)
    rw [sorted, List.pairwise_append, List.pairwise_cons] at pairwise
    exact pairwise.2.1.1
  rw [sorted, rest]
  clear sorted rest
  induction front with
  | nil =>
      cases back with
      | nil => rfl
      | cons b back =>
          refine Eq.symm (List.orderedInsert_cons_of_le _ _ ?_)
          exact behind b (List.mem_cons_self ..)
  | cons b front ih =>
      have first : le a b = false := by simpa using before b (List.mem_cons_self ..)
      rw [List.cons_append, List.cons_append, List.orderedInsert_of_not_le _ _ (by simp [first]),
        ih fun x member => before x (List.mem_cons_of_mem _ member)]

theorem mergeSort_middle (h : Ranks le) {front back : List E} {best : E}
    (before : ∀ a ∈ front, le a best = false) (behind : ∀ b ∈ back, le best b = true) :
    (front ++ best :: back).mergeSort le = best :: (front ++ back).mergeSort le := by
  induction front with
  | nil =>
      rw [List.nil_append, List.nil_append, mergeSort_cons h]
      cases rest : back.mergeSort le with
      | nil => rfl
      | cons b more =>
          refine List.orderedInsert_cons_of_le _ _ (behind b ?_)
          rw [← @List.mem_mergeSort _ le, rest]
          exact List.mem_cons_self ..
  | cons a front ih =>
      rw [List.forall_mem_cons] at before
      rw [List.cons_append, mergeSort_cons h, ih before.2, List.cons_append, mergeSort_cons h,
        List.orderedInsert_of_not_le _ _ (by simp [before.1])]

theorem exists_best (h : Ranks le) {l : List E} (some_ : l ≠ []) :
    ∃ front best back, l = front ++ best :: back ∧ (∀ a ∈ front, le a best = false) ∧
      ∀ b ∈ back, le best b = true := by
  induction l with
  | nil => exact absurd rfl some_
  | cons x l ih =>
      cases l with
      | nil => exact ⟨[], x, [], rfl, by simp, by simp⟩
      | cons y l =>
          obtain ⟨front, best, back, split, before, behind⟩ := ih (by simp)
          cases first : le x best with
          | true =>
              refine ⟨[], x, y :: l, rfl, by simp, fun b member => ?_⟩
              rw [split] at member
              rcases List.mem_append.mp member with early | late
              · exact h.trans _ _ _ first (h.of_not (before b early))
              · rcases List.mem_cons.mp late with rfl | later
                · exact first
                · exact h.trans _ _ _ first (behind b later)
          | false =>
              refine ⟨x :: front, best, back, by rw [split]; rfl, fun a member => ?_, behind⟩
              rcases List.mem_cons.mp member with rfl | early
              · exact first
              · exact before a early

theorem mergeSort_eq_cons (h : Ranks le) {l sorted : List E} {best : E}
    (sort : l.mergeSort le = best :: sorted) :
    ∃ front back, l = front ++ best :: back ∧ (∀ a ∈ front, le a best = false) ∧
      (∀ b ∈ back, le best b = true) ∧ (front ++ back).mergeSort le = sorted := by
  have some_ : l ≠ [] := by
    rintro rfl
    rw [List.mergeSort_nil] at sort
    cases sort
  obtain ⟨front, first, back, split, before, behind⟩ := exists_best h some_
  rw [split, mergeSort_middle h before behind] at sort
  cases sort
  exact ⟨front, back, split, before, behind, rfl⟩

theorem first_best (h : Ranks le) {l sorted : List E} {best : E}
    (sort : l.mergeSort le = best :: sorted) : ∀ p ∈ l, le best p = true := by
  intro p member
  have pairwise := List.pairwise_mergeSort h.trans h.total l
  rw [← @List.mem_mergeSort _ le, sort] at member
  rw [sort, List.pairwise_cons] at pairwise
  rcases List.mem_cons.mp member with rfl | later
  · exact h.refl p
  · exact pairwise.1 p later

theorem mergeSort_flatten (h : Ranks le) {lists : List (List E)} {t : ℕ}
    (inside : t < lists.length) {best : E} {sorted : List E}
    (sort : (lists.getD t []).mergeSort le = best :: sorted)
    (before : ∀ u < t, ∀ p ∈ lists.getD u [], le p best = false)
    (behind : ∀ u, t < u → ∀ p ∈ lists.getD u [], le best p = true) :
    ∃ l, l.mergeSort le = sorted ∧
      lists.flatten.mergeSort le = best :: (lists.set t l).flatten.mergeSort le := by
  obtain ⟨front, back, split, early, late, rest⟩ := mergeSort_eq_cons h sort
  refine ⟨front ++ back, rest, ?_⟩
  have here : lists.getD t [] = lists[t] := List.getD_eq_getElem _ _ inside
  have pieces : lists.flatten = (lists.take t).flatten ++ front ++ best ::
      (back ++ (lists.drop (t + 1)).flatten) := by
    conv_lhs => rw [← List.take_append_drop t lists, ← List.getElem_cons_drop inside, ← here, split]
    simp
  have others : (lists.set t (front ++ back)).flatten = (lists.take t).flatten ++ front ++
      (back ++ (lists.drop (t + 1)).flatten) := by
    rw [List.set_eq_take_append_cons_drop, if_pos inside]
    simp
  rw [pieces, others]
  refine mergeSort_middle h ?_ ?_
  · intro p member
    rcases List.mem_append.mp member with first | own
    · obtain ⟨l, listed, here⟩ := List.mem_flatten.mp first
      obtain ⟨u, less, rfl⟩ := List.mem_take_iff_getElem.mp listed
      refine before u (by omega) p ?_
      rwa [List.getD_eq_getElem _ _ (by omega)]
    · exact early p own
  · intro p member
    rcases List.mem_append.mp member with own | last
    · exact late p own
    · obtain ⟨l, listed, here⟩ := List.mem_flatten.mp last
      obtain ⟨u, less, rfl⟩ := List.mem_drop_iff_getElem.mp listed
      refine behind (t + 1 + u) (by omega) p ?_
      rwa [List.getD_eq_getElem _ _ (by omega)]

theorem mergeSort_concat (h : Ranks le) (l : List E) (x : E) :
    ∃ front back, l.mergeSort le = front ++ back ∧
      (l ++ [x]).mergeSort le = front ++ x :: back ∧
      (∀ a ∈ front, le a x = true) ∧ ∀ b ∈ back, le b x = false := by
  induction l with
  | nil => exact ⟨[], [], by simp, by simp, by simp, by simp⟩
  | cons a l ih =>
      obtain ⟨front, back, sort, sort', before, behind⟩ := ih
      rw [List.cons_append, mergeSort_cons h, mergeSort_cons h, sort, sort']
      clear sort sort'
      induction front with
      | nil =>
          cases first : le a x with
          | true =>
              refine ⟨[a], back, ?_, ?_, by simpa using first, behind⟩
              · cases back with
                | nil => rfl
                | cons b back =>
                    have later := h.of_not (behind b (List.mem_cons_self ..))
                    exact List.orderedInsert_cons_of_le _ _ (h.trans _ _ _ first later)
              · exact List.orderedInsert_cons_of_le _ _ first
          | false =>
              refine ⟨[], back.orderedInsert (fun x y => le x y) a, rfl, ?_, by simp,
                fun b member => ?_⟩
              · exact List.orderedInsert_of_not_le _ _ (by simp [first])
              · rcases (List.mem_orderedInsert _).mp member with rfl | old
                · exact first
                · exact behind b old
      | cons b front inner =>
          rw [List.forall_mem_cons] at before
          cases first : le a b with
          | true =>
              refine ⟨a :: b :: front, back, ?_, ?_, ?_, behind⟩
              · exact List.orderedInsert_cons_of_le _ _ first
              · exact List.orderedInsert_cons_of_le _ _ first
              · rw [List.forall_mem_cons, List.forall_mem_cons]
                exact ⟨h.trans _ _ _ first before.1, before⟩
          | false =>
              obtain ⟨front', back', sort, sort', before', behind'⟩ := inner before.2
              refine ⟨b :: front', back', ?_, ?_, ?_, behind'⟩
              · rw [List.cons_append, List.orderedInsert_of_not_le _ _ (by simp [first]), sort]
                rfl
              · rw [List.cons_append, List.orderedInsert_of_not_le _ _ (by simp [first]), sort']
                rfl
              · rw [List.forall_mem_cons]
                exact ⟨before.1, before'⟩

end Baseliner.StableSelection
