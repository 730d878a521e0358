import Mathlib.Data.List.Basic

/-! Linear searches that stop at the first match or keep the last one, with the
list around the match returned so that the match can be replaced in place. -/

namespace Baseliner.ListSearch

variable {α : Type*}

/-- The first element satisfying `p`, with what stands before and after it. -/
def splitFirst (p : α → Bool) : List α → Option (List α × α × List α)
  | [] => none
  | x :: xs =>
      if p x then some ([], x, xs)
      else match splitFirst p xs with
        | some (pre, y, post) => some (x :: pre, y, post)
        | none => none

/-- The last element satisfying `p`, with what stands before and after it. -/
def splitLast (p : α → Bool) : List α → Option (List α × α × List α)
  | [] => none
  | x :: xs =>
      match splitLast p xs with
      | some (pre, y, post) => some (x :: pre, y, post)
      | none => if p x then some ([], x, xs) else none

theorem splitFirst_spec {p : α → Bool} {l pre post : List α} {x : α}
    (h : splitFirst p l = some (pre, x, post)) :
    l = pre ++ x :: post ∧ p x = true ∧ ∀ y ∈ pre, p y = false := by
  induction l generalizing pre with
  | nil => simp [splitFirst] at h
  | cons a as ih =>
      by_cases ha : p a
      · simp only [splitFirst, ha, if_true, Option.some.injEq, Prod.mk.injEq] at h
        obtain ⟨rfl, rfl, rfl⟩ := h
        exact ⟨rfl, ha, by simp⟩
      · cases hs : splitFirst p as with
        | none => simp [splitFirst, ha, hs] at h
        | some t =>
            obtain ⟨u, y, w⟩ := t
            simp only [splitFirst, ha, hs, Bool.false_eq_true, if_false, Option.some.injEq,
              Prod.mk.injEq] at h
            obtain ⟨rfl, rfl, rfl⟩ := h
            obtain ⟨rfl, hx, hpre⟩ := ih hs
            exact ⟨rfl, hx, by simpa [ha] using hpre⟩

theorem splitFirst_append {p : α → Bool} {pre post : List α} {x : α}
    (hx : p x = true) (hpre : ∀ y ∈ pre, p y = false) :
    splitFirst p (pre ++ x :: post) = some (pre, x, post) := by
  induction pre with
  | nil => simp [splitFirst, hx]
  | cons a as ih =>
      simp only [List.mem_cons, forall_eq_or_imp] at hpre
      simp [splitFirst, hpre.1, ih hpre.2]

theorem splitFirst_mem_left {p : α → Bool} {l m pre post : List α} {x y : α}
    (hy : y ∈ l) (py : p y = true) (h : splitFirst p (l ++ m) = some (pre, x, post)) : x ∈ l := by
  obtain ⟨split, -, hpre⟩ := splitFirst_spec h
  rcases List.append_eq_append_iff.mp split with ⟨mid, rfl, -⟩ | ⟨mid, rfl, hmid⟩
  · have := hpre y (List.mem_append_left mid hy)
    rw [py] at this
    exact absurd this (by decide)
  · cases mid with
    | nil =>
        rw [List.append_nil] at hy
        have := hpre y hy
        rw [py] at this
        exact absurd this (by decide)
    | cons z mid =>
        rw [List.cons_append, List.cons.injEq] at hmid
        simp [hmid.1]

theorem splitFirst_eq_none {p : α → Bool} {l : List α} :
    splitFirst p l = none ↔ ∀ x ∈ l, p x = false := by
  induction l with
  | nil => simp [splitFirst]
  | cons x xs ih =>
      by_cases h : p x
      · simp [splitFirst, h]
      · cases hs : splitFirst p xs with
        | none => simpa [splitFirst, h, hs] using ih.mp hs
        | some t =>
            have found : ¬ ∀ x ∈ xs, p x = false := fun hall => by simp [ih.mpr hall] at hs
            simp only [splitFirst, h, hs, List.mem_cons, forall_eq_or_imp]
            exact ⟨by simp, fun hall => absurd hall.2 found⟩

theorem splitLast_eq_none {p : α → Bool} {l : List α} :
    splitLast p l = none ↔ ∀ x ∈ l, p x = false := by
  induction l with
  | nil => simp [splitLast]
  | cons x xs ih =>
      cases hs : splitLast p xs with
      | none =>
          have rest := ih.mp hs
          simp only [splitLast, hs, List.mem_cons, forall_eq_or_imp]
          by_cases h : p x
          · simp [h]
          · simpa [h] using rest
      | some t =>
          have found : ¬ ∀ x ∈ xs, p x = false := fun hall => by simp [ih.mpr hall] at hs
          simp only [splitLast, hs, List.mem_cons, forall_eq_or_imp]
          exact ⟨by simp, fun hall => absurd hall.2 found⟩

theorem splitLast_spec {p : α → Bool} {l pre post : List α} {x : α}
    (h : splitLast p l = some (pre, x, post)) :
    l = pre ++ x :: post ∧ p x = true ∧ ∀ y ∈ post, p y = false := by
  induction l generalizing pre with
  | nil => simp [splitLast] at h
  | cons a as ih =>
      cases hs : splitLast p as with
      | none =>
          by_cases ha : p a
          · simp only [splitLast, hs, ha, if_true, Option.some.injEq, Prod.mk.injEq] at h
            obtain ⟨rfl, rfl, rfl⟩ := h
            exact ⟨rfl, ha, splitLast_eq_none.mp hs⟩
          · simp [splitLast, hs, ha] at h
      | some t =>
          obtain ⟨u, y, w⟩ := t
          simp only [splitLast, hs, Option.some.injEq, Prod.mk.injEq] at h
          obtain ⟨rfl, rfl, rfl⟩ := h
          obtain ⟨rfl, hx, hpost⟩ := ih hs
          exact ⟨rfl, hx, hpost⟩

theorem map_set_of_eq {β : Type*} {f : α → β} {l : List α} {i : Nat} {x y : α}
    (h : l[i]? = some x) (same : f y = f x) : (l.set i y).map f = l.map f := by
  induction l generalizing i with
  | nil => simp at h
  | cons a as ih =>
      cases i with
      | zero =>
          rw [List.getElem?_cons_zero, Option.some.injEq] at h
          rw [List.set_cons_zero, List.map_cons, List.map_cons, same, h]
      | succ i =>
          rw [List.getElem?_cons_succ] at h
          rw [List.set_cons_succ, List.map_cons, List.map_cons, ih h]

theorem snoc_split {l u v : List α} {x y : α} (h : l ++ [x] = u ++ y :: v) :
    (u = l ∧ y = x) ∨ ∃ w, l = u ++ y :: w := by
  rcases List.append_eq_append_iff.mp h with ⟨mid, hu, hmid⟩ | ⟨mid, hl, hmid⟩
  · cases mid with
    | nil =>
        rw [List.nil_append, List.cons.injEq] at hmid
        rw [List.append_nil] at hu
        exact Or.inl ⟨hu, hmid.1.symm⟩
    | cons z mid => simp at hmid
  · cases mid with
    | nil =>
        rw [List.nil_append, List.cons.injEq] at hmid
        rw [List.append_nil] at hl
        exact Or.inl ⟨hl.symm, hmid.1⟩
    | cons z mid =>
        rw [List.cons_append, List.cons.injEq] at hmid
        exact Or.inr ⟨mid, by rw [hl, hmid.1]⟩

/-- A search finds the same element in every order of the list exactly when
that element is the only match. -/
theorem find_perm_iff {p : α → Bool} {l : List α} {x : α} :
    (∀ m : List α, m.Perm l → m.find? p = some x) ↔
      x ∈ l ∧ p x = true ∧ ∀ y ∈ l, p y = true → y = x := by
  constructor
  · intro h
    have here := h l (List.Perm.refl l)
    refine ⟨List.mem_of_find?_eq_some here, List.find?_some here, ?_⟩
    intro y hy py
    -- the order that lists `y` first
    obtain ⟨pre, post, rfl⟩ := List.append_of_mem hy
    have front := h (y :: (pre ++ post)) List.perm_middle.symm
    rw [List.find?_cons_of_pos py] at front
    exact Option.some.inj front
  · rintro ⟨hx, px, only⟩ m hm
    cases found : m.find? p with
    | none => exact absurd px (by simpa using List.find?_eq_none.mp found x (hm.mem_iff.mpr hx))
    | some y =>
        have hy := hm.mem_iff.mp (List.mem_of_find?_eq_some found)
        rw [only y hy (List.find?_some found)]

end Baseliner.ListSearch
