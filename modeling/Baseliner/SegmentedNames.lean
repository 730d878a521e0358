import Mathlib.Data.List.Infix

/-! Names made of segments with a separator between them. A string without the
separator that occurs in such a name occurs in one of its segments; one with a
single separator also straddles two neighbouring segments. -/

namespace Baseliner.SegmentedNames

variable {α : Type*} {a b u v x : List α} {c : α}

/-- The segments with `c` between them. -/
def joinSegments (c : α) : List (List α) → List α
  | [] => []
  | [s] => s
  | s :: t :: ss => s ++ c :: joinSegments c (t :: ss)

theorem joinSegments_append {front back : List (List α)} (some : front ≠ []) (more : back ≠ []) :
    joinSegments c (front ++ back) = joinSegments c front ++ c :: joinSegments c back := by
  induction front with
  | nil => exact absurd rfl some
  | cons first front ih =>
      cases front with
      | nil =>
          cases back with
          | nil => exact absurd rfl more
          | cons second back => rfl
      | cons second front =>
          have rest := ih (by simp)
          rw [List.cons_append, List.cons_append, joinSegments, joinSegments,
            ← List.cons_append, rest]
          simp

theorem prefix_append_sep (hc : c ∉ x) : x <+: a ++ c :: b ↔ x <+: a := by
  induction a generalizing x with
  | nil =>
      cases x with
      | nil => simp
      | cons y x =>
          simp only [List.mem_cons, not_or] at hc
          simp [List.cons_prefix_cons, Ne.symm hc.1]
  | cons d a ih =>
      cases x with
      | nil => simp
      | cons y x =>
          simp only [List.mem_cons, not_or] at hc
          simp [List.cons_prefix_cons, ih hc.2]

theorem suffix_append_sep (hc : c ∉ x) : x <:+ a ++ c :: b ↔ x <:+ b := by
  rw [← List.reverse_prefix, ← List.reverse_prefix, List.reverse_append, List.reverse_cons,
    List.append_assoc]
  exact prefix_append_sep (by simpa using hc)

theorem suffix_append_right_inj (s : List α) : a ++ s <:+ b ++ s ↔ a <:+ b := by
  rw [← List.reverse_prefix, ← List.reverse_prefix, List.reverse_append, List.reverse_append,
    List.prefix_append_right_inj]

theorem infix_append_sep (hc : c ∉ x) : x <:+: a ++ c :: b ↔ x <:+: a ∨ x <:+: b := by
  induction a with
  | nil =>
      have none : x <+: c :: b ↔ x <+: [] := prefix_append_sep (a := []) hc
      rw [List.nil_append, List.infix_cons_iff, none, List.prefix_nil, List.infix_nil]
  | cons d a ih =>
      have here : x <+: d :: (a ++ c :: b) ↔ x <+: d :: a := prefix_append_sep (a := d :: a) hc
      rw [List.cons_append, List.infix_cons_iff, here, ih, List.infix_cons_iff, or_assoc]

theorem pair_prefix_append_sep (hu : c ∉ u) (ha : c ∉ a) :
    u ++ c :: v <+: a ++ c :: b ↔ u = a ∧ v <+: b := by
  induction a generalizing u with
  | nil =>
      cases u with
      | nil => simp [List.cons_prefix_cons]
      | cons y u =>
          simp only [List.mem_cons, not_or] at hu
          simp [List.cons_prefix_cons, Ne.symm hu.1]
  | cons d a ih =>
      simp only [List.mem_cons, not_or] at ha
      cases u with
      | nil => simp [List.cons_prefix_cons, ha.1]
      | cons y u =>
          simp only [List.mem_cons, not_or] at hu
          simp [List.cons_prefix_cons, ih hu.2 ha.2, and_assoc]

theorem pair_infix_append_sep (hu : c ∉ u) (ha : c ∉ a) :
    u ++ c :: v <:+: a ++ c :: b ↔ (u <:+ a ∧ v <+: b) ∨ u ++ c :: v <:+: b := by
  induction a with
  | nil =>
      have here : u ++ c :: v <+: c :: b ↔ u = [] ∧ v <+: b :=
        pair_prefix_append_sep (a := []) hu (by simp)
      rw [List.nil_append, List.infix_cons_iff, here, List.suffix_nil]
  | cons d a ih =>
      have here : u ++ c :: v <+: d :: (a ++ c :: b) ↔ u = d :: a ∧ v <+: b :=
        pair_prefix_append_sep (a := d :: a) hu ha
      simp only [List.mem_cons, not_or] at ha
      rw [List.cons_append, List.infix_cons_iff, here, ih ha.2, List.suffix_cons_iff, ← or_assoc,
        or_and_right]

theorem last_suffix_joinSegments (s t : List α) (ss : List (List α)) :
    c :: t <:+ joinSegments c (s :: ss ++ [t]) := by
  induction ss generalizing s with
  | nil => exact List.suffix_append s (c :: t)
  | cons r ss ih => exact ((ih r).trans (List.suffix_cons c _)).trans (List.suffix_append s _)

theorem infix_joinSegments (hc : c ∉ x) (hx : x ≠ []) {segs : List (List α)} :
    x <:+: joinSegments c segs ↔ ∃ s ∈ segs, x <:+: s := by
  fun_induction joinSegments c segs with
  | case1 => simp [hx]
  | case2 s => simp
  | case3 s t ss ih => simp only [infix_append_sep hc, ih, List.exists_mem_cons_iff]

theorem pair_infix_joinSegments (hu : c ∉ u) {segs : List (List α)} (hs : ∀ s ∈ segs, c ∉ s)
    (h : u ++ c :: v <:+: joinSegments c segs) : ∃ s ∈ segs, u <:+ s := by
  fun_induction joinSegments c segs with
  | case1 => simp at h
  | case2 s => exact absurd (h.subset (by simp)) (hs s (by simp))
  | case3 s t ss ih =>
      rw [pair_infix_append_sep hu (hs s (by simp))] at h
      rcases h with ⟨first, -⟩ | later
      · exact ⟨s, by simp, first⟩
      · obtain ⟨r, hr, found⟩ := ih (fun r hr => hs r (List.mem_cons_of_mem s hr)) later
        exact ⟨r, List.mem_cons_of_mem s hr, found⟩

end Baseliner.SegmentedNames
