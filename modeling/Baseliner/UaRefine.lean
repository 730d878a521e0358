import Mathlib.Data.List.Nodup
import Mathlib.Tactic.FinCases
import Baseliner.UaLeaves

/-! `do_refine` on the face tables. The children of an element are told apart by their numbers;
each of their faces is stored to at one face of the parent, and so is the face of a neighbour
that looks at the parent. -/

namespace Baseliner.UaRefine

open LoopEntries OctreePaths UaAdapt UaLeaves

section Folds

variable {T : Tables} {e iel : ℕ} {f i : Face}

@[simp] theorem setFace_same (g : FaceEntry → FaceEntry) :
    setFace iel i g T iel i = g (T iel i) := if_pos ⟨rfl, rfl⟩

theorem setFace_other (g : FaceEntry → FaceEntry) (h : ¬ (e = iel ∧ f = i)) :
    setFace iel i g T e f = T e f := if_neg h

theorem setFace_congr {T' : Tables} (g : FaceEntry → FaceEntry) (h : T e f = T' e f) :
    setFace iel i g T e f = setFace iel i g T' e f := by
  rw [setFace, setFace, h]

variable {κ : Type*} {S : κ → Tables → Tables} {l : List κ}

theorem foldl_untouched (others : ∀ j ∈ l, ∀ T, S j T e f = T e f) :
    l.foldl (fun T j => S j T) T e f = T e f :=
  view_untouched (fun T : Tables => T e f) others T

theorem foldl_owner (once : l.Nodup) {k : κ} (member : k ∈ l)
    (settled : ∀ T T' : Tables, T e f = T' e f → S k T e f = S k T' e f)
    (others : ∀ j ∈ l, j ≠ k → ∀ T, S j T e f = T e f) :
    l.foldl (fun T j => S j T) T e f = S k T e f :=
  view_owner (fun T : Tables => T e f) once member settled others T

theorem foldl_accumulate (h : κ → FaceEntry → FaceEntry)
    (each : ∀ j ∈ l, ∀ T, S j T e f = h j (T e f)) :
    l.foldl (fun T j => S j T) T e f = l.foldl (fun entry j => h j entry) (T e f) :=
  view_foldl (fun T : Tables => T e f) each T

theorem foldl_congr_at {T' : Tables}
    (each : ∀ j ∈ l, ∀ T T' : Tables, T e f = T' e f → S j T e f = S j T' e f)
    (h : T e f = T' e f) :
    l.foldl (fun T j => S j T) T e f = l.foldl (fun T j => S j T) T' e f := by
  induction l generalizing T T' with
  | nil => exact h
  | cons j l ih =>
      exact ih (fun k hk => each k (List.mem_cons_of_mem _ hk))
        (each j (List.mem_cons_self ..) T T' h)

end Folds

section Kids

/-- The elements that an element is cut into. -/
def kid (refFrontId : ℕ → ℕ) (iel : ℕ) (c : Child) : ℕ :=
  if c = 0 then iel else refFrontId iel + c

variable {R : ℕ → ℕ} {iel : ℕ} {c d : Child}

@[simp] theorem kid_zero : kid R iel 0 = iel := if_pos rfl

theorem kid_of_ne (h : c ≠ 0) : kid R iel c = R iel + c := if_neg h

theorem kid_injective (below : iel ≤ R iel) (same : kid R iel c = kid R iel d) : c = d := by
  rw [kid, kid] at same
  split_ifs at same with first second second
  · rw [first, second]
  · have pos : 0 < d.val := Fin.pos_iff_ne_zero.mpr second
    omega
  · have pos : 0 < c.val := Fin.pos_iff_ne_zero.mpr first
    omega
  · exact Fin.ext (by omega)

theorem leArr_first (i : Face) (k : Fin 4) :
    (i.val % 2 = 0 ∧ k = 0 ↔ onFace (opposite i) k = 0) ∧
      (i.val % 2 = 1 ∧ k = 0 ↔ onFace i k = 0) := by
  revert i k
  decide

theorem axis_lt (i : Face) : i.val / 2 < 3 := by omega

theorem side_lt (i : Face) : i.val % 2 < 2 := by omega

theorem otherSide_lt (i : Face) : 1 - i.val % 2 < 2 := by omega

theorem leArr_other (i : Face) (k : Fin 4) :
    (onFace (opposite i) k ≠ 0 →
      leArr ⟨i.val / 2, axis_lt i⟩ ⟨i.val % 2, side_lt i⟩ k = onFace (opposite i) k) ∧
    (onFace i k ≠ 0 → leArr ⟨i.val / 2, axis_lt i⟩ ⟨1 - i.val % 2, otherSide_lt i⟩ k =
      onFace i k) ∧
    (leArr ⟨i.val / 2, axis_lt i⟩ ⟨i.val % 2, side_lt i⟩ k = 8 ↔
      onFace (opposite i) k = 0) := by
  revert i k
  decide

theorem le_eq (R : ℕ → ℕ) (iel : ℕ) (i : Face) (k : Fin 4) :
    le iel (R iel) i k = kid R iel (onFace (opposite i) k) := by
  rw [le, kid]
  by_cases first : onFace (opposite i) k = 0
  · rw [if_pos ((leArr_first i k).1.mpr first), if_pos first]
  · rw [if_neg (fun h => first ((leArr_first i k).1.mp h)), if_neg first,
      (leArr_other i k).1 first, Nat.add_comm]

theorem ne_eq (R : ℕ → ℕ) (iel : ℕ) (i : Face) (k : Fin 4) :
    ne iel (R iel) i k = kid R iel (onFace i k) := by
  rw [ne, kid]
  by_cases first : onFace i k = 0
  · rw [if_pos ((leArr_first i k).2.mpr first), if_pos first]
  · rw [if_neg (fun h => first ((leArr_first i k).2.mp h)), if_neg first,
      (leArr_other i k).2.1 first, Nat.add_comm]

theorem n2_eq (R : ℕ → ℕ) (ntemp : ℕ) (i : Face) (k : Fin 4) :
    n2 R ntemp i k = kid R ntemp (onFace (opposite i) k) := by
  rw [n2, kid]
  by_cases first : onFace (opposite i) k = 0
  · rw [if_pos first, (leArr_other i k).2.2.mpr first]
    exact if_pos rfl
  · have other : leArr ⟨i.val / 2, axis_lt i⟩ ⟨i.val % 2, side_lt i⟩ k ≠ 8 :=
      fun h => first ((leArr_other i k).2.2.mp h)
    rw [if_neg first, ← (leArr_other i k).1 first]
    exact if_neg fun h => other (Nat.add_left_cancel h)

theorem jjface_eq (i : Face) : jjface i = opposite i := rfl

end Kids

section Face

variable {ich R : ℕ → ℕ} {iel e : ℕ} {temp : Face → FaceEntry} {T T' : Tables} {i f : Face}

def betweenKids (R : ℕ → ℕ) (iel : ℕ) (T : Tables) (i : Face) : Tables :=
  (List.finRange 4).foldl (fun T k => setFace (kid R iel (onFace (opposite i) k)) i
    (fun e => { e.setSje (1, 1) (kid R iel (onFace i k)) with cbc := 2, ijel := (1, 1) }) T) T

def Target (ich : ℕ → ℕ) (temp : Face → FaceEntry) (i : Face) (e : ℕ) : Prop :=
  ((temp i).cbc = 2 ∧ ich ((temp i).sje 1 1) ≠ 4 ∧ e = (temp i).sje 1 1) ∨
    ((temp i).cbc = 3 ∧ ∃ k, e = (temp i).sje (iijj k).1 (iijj k).2)

theorem refineFace_zero (cb : (temp i).cbc = 0) :
    refineFace ich R iel (R iel) temp T i =
      (List.finRange 4).foldl (fun T k =>
        setFace (kid R iel (onFace i k)) i (fun e => { e with cbc := 0 }) T)
        (betweenKids R iel T i) := by
  simp only [refineFace, cb, le_eq, ne_eq]
  rfl

theorem refineFace_two (cb : (temp i).cbc = 2) (stays : ich ((temp i).sje 1 1) ≠ 4) :
    refineFace ich R iel (R iel) temp T i =
      (List.finRange 4).foldl (fun T k =>
        setFace ((temp i).sje 1 1) (opposite i)
          (FaceEntry.setSje (iijj k) (kid R iel (onFace i k)))
          (setFace (kid R iel (onFace i k)) i (fun e =>
            { e.setSje (1, 1) ((temp i).sje 1 1) with cbc := 1, ijel := iijj k }) T))
        (setFace ((temp i).sje 1 1) (opposite i) (fun e => { e with cbc := 3, ijel := (1, 1) })
          (betweenKids R iel T i)) := by
  simp only [refineFace, cb, if_pos stays, le_eq, ne_eq, jjface_eq]
  rfl

theorem refineFace_both (cb : (temp i).cbc = 2) (marked : ich ((temp i).sje 1 1) = 4) :
    refineFace ich R iel (R iel) temp T i =
      (List.finRange 4).foldl (fun T k =>
        setFace (kid R iel (onFace i k)) i (fun e =>
          { e.setSje (1, 1) (kid R ((temp i).sje 1 1) (onFace (opposite i) k)) with
            cbc := 2, ijel := (1, e.ijel.2) }) T) (betweenKids R iel T i) := by
  have refined : ¬ ich ((temp i).sje 1 1) ≠ 4 := fun stays => stays marked
  simp only [refineFace, cb, if_neg refined, le_eq, ne_eq, n2_eq]
  rfl

theorem refineFace_three (cb : (temp i).cbc = 3) :
    refineFace ich R iel (R iel) temp T i =
      (List.finRange 4).foldl (fun T k =>
        setFace ((temp i).sje (iijj k).1 (iijj k).2) (opposite i) (fun e =>
          { e.setSje (1, 1) (kid R iel (onFace i k)) with cbc := 2, ijel := (1, 1) })
          (setFace (kid R iel (onFace i k)) i (fun e =>
            { e.setSje (1, 1) ((temp i).sje (iijj k).1 (iijj k).2) with
              cbc := 2, ijel := (1, 1) }) T)) (betweenKids R iel T i) := by
  simp only [refineFace, cb, le_eq, ne_eq, jjface_eq]
  rfl

theorem betweenKids_other (other : f = i → ∀ c, e ≠ kid R iel c) :
    betweenKids R iel T i e f = T e f :=
  foldl_untouched fun _ _ _ => setFace_other _ fun h => other h.2 _ h.1

theorem betweenKids_outer (below : iel ≤ R iel) {c : Child} (out : outer i c = true) :
    betweenKids R iel T i (kid R iel c) i = T (kid R iel c) i := by
  refine foldl_untouched fun k _ T => setFace_other _ fun h => ?_
  rw [kid_injective below h.1, outer_opposite_onFace] at out
  cases out

theorem betweenKids_inner (below : iel ≤ R iel) {c : Child} (inner : outer i c = false) :
    betweenKids R iel T i (kid R iel c) i =
      { (T (kid R iel c) i).setSje (1, 1) (kid R iel (across i c)) with
        cbc := 2, ijel := (1, 1) } := by
  have side : outer (opposite i) c = true := by simp [inner]
  obtain ⟨k, rfl⟩ := exists_onFace side
  have partner : across i (onFace (opposite i) k) = onFace i k := by
    rw [← across_opposite, across_onFace, opposite_opposite]
  rw [partner]
  refine (foldl_owner (List.nodup_finRange 4) (List.mem_finRange k)
    (fun _ _ same => setFace_congr _ same) fun j _ other T => setFace_other _ fun h => ?_).trans
    (setFace_same _)
  exact other (onFace_injective (kid_injective below h.1)).symm

/-- A type that the code has no branch for. -/
theorem refineFace_else (zero : (temp i).cbc ≠ 0) (two : (temp i).cbc ≠ 2)
    (three : (temp i).cbc ≠ 3) :
    refineFace ich R iel (R iel) temp T i = betweenKids R iel T i := by
  rw [refineFace]
  simp only [le_eq, ne_eq]
  rfl

theorem refineFace_untouched (kids : f = i → ∀ c, e ≠ kid R iel c)
    (nbrs : f = opposite i → ¬ Target ich temp i e) :
    refineFace ich R iel (R iel) temp T i e f = T e f := by
  have between := betweenKids_other (T := T) kids
  by_cases zero : (temp i).cbc = 0
  · rw [refineFace_zero zero]
    exact (foldl_untouched fun _ _ _ => setFace_other _ fun h => kids h.2 _ h.1).trans between
  by_cases two : (temp i).cbc = 2
  · by_cases marked : ich ((temp i).sje 1 1) = 4
    · rw [refineFace_both two marked]
      exact (foldl_untouched fun _ _ _ => setFace_other _ fun h => kids h.2 _ h.1).trans between
    · have apart : ¬ (e = (temp i).sje 1 1 ∧ f = opposite i) := fun h =>
        nbrs h.2 (.inl ⟨two, marked, h.1⟩)
      rw [refineFace_two two marked]
      refine (foldl_untouched fun _ _ _ => ?_).trans ((setFace_other _ apart).trans between)
      exact (setFace_other _ apart).trans (setFace_other _ fun h => kids h.2 _ h.1)
  by_cases three : (temp i).cbc = 3
  · rw [refineFace_three three]
    refine (foldl_untouched fun k _ _ => ?_).trans between
    exact (setFace_other _ fun h => nbrs h.2 (.inr ⟨three, k, h.1⟩)).trans
      (setFace_other _ fun h => kids h.2 _ h.1)
  · rw [refineFace_else zero two three]
    exact between

theorem betweenKids_congr (R : ℕ → ℕ) (iel : ℕ) (i : Face) (h : T e f = T' e f) :
    betweenKids R iel T i e f = betweenKids R iel T' i e f :=
  foldl_congr_at (fun _ _ _ _ same => setFace_congr _ same) h

theorem refineFace_congr (h : T e f = T' e f) :
    refineFace ich R iel (R iel) temp T i e f = refineFace ich R iel (R iel) temp T' i e f := by
  have between := betweenKids_congr R iel i h
  by_cases zero : (temp i).cbc = 0
  · rw [refineFace_zero zero, refineFace_zero zero]
    exact foldl_congr_at (fun _ _ _ _ same => setFace_congr _ same) between
  by_cases two : (temp i).cbc = 2
  · by_cases marked : ich ((temp i).sje 1 1) = 4
    · rw [refineFace_both two marked, refineFace_both two marked]
      exact foldl_congr_at (fun _ _ _ _ same => setFace_congr _ same) between
    · rw [refineFace_two two marked, refineFace_two two marked]
      exact foldl_congr_at (fun _ _ _ _ same => setFace_congr _ (setFace_congr _ same))
        (setFace_congr _ between)
  by_cases three : (temp i).cbc = 3
  · rw [refineFace_three three, refineFace_three three]
    exact foldl_congr_at (fun _ _ _ _ same => setFace_congr _ (setFace_congr _ same)) between
  · rw [refineFace_else zero two three, refineFace_else zero two three]
    exact between

theorem refineFace_inner (below : iel ≤ R iel) {c : Child} (inner : outer i c = false) :
    refineFace ich R iel (R iel) temp T i (kid R iel c) i =
      { (T (kid R iel c) i).setSje (1, 1) (kid R iel (across i c)) with
        cbc := 2, ijel := (1, 1) } := by
  have between := betweenKids_inner (T := T) below inner
  have apart (k : Fin 4) : ¬ (kid R iel c = kid R iel (onFace i k) ∧ i = i) := by
    intro h
    rw [kid_injective below h.1, outer_onFace] at inner
    cases inner
  have side (n : ℕ) : ¬ (kid R iel c = n ∧ i = opposite i) := fun h => opposite_ne i h.2.symm
  by_cases zero : (temp i).cbc = 0
  · rw [refineFace_zero zero]
    exact (foldl_untouched fun k _ _ => setFace_other _ (apart k)).trans between
  by_cases two : (temp i).cbc = 2
  · by_cases marked : ich ((temp i).sje 1 1) = 4
    · rw [refineFace_both two marked]
      exact (foldl_untouched fun k _ _ => setFace_other _ (apart k)).trans between
    · rw [refineFace_two two marked]
      refine (foldl_untouched fun k _ _ => ?_).trans ((setFace_other _ (side _)).trans between)
      exact (setFace_other _ (side _)).trans (setFace_other _ (apart k))
  by_cases three : (temp i).cbc = 3
  · rw [refineFace_three three]
    refine (foldl_untouched fun k _ _ => ?_).trans between
    exact (setFace_other _ (side _)).trans (setFace_other _ (apart k))
  · rw [refineFace_else zero two three]
    exact between

theorem foldl_setSje (g : Fin 4 → ℕ) (e : FaceEntry) :
    ((List.finRange 4).foldl (fun e k => e.setSje (iijj k) (g k)) e).cbc = e.cbc ∧
      ∀ k, ((List.finRange 4).foldl (fun e k => e.setSje (iijj k) (g k)) e).sje
        (iijj k).1 (iijj k).2 = g k := by
  refine ⟨rfl, fun k => ?_⟩
  fin_cases k
  · rfl
  · rfl
  · rfl
  · rfl

section Outer

variable (below : iel ≤ R iel) (k : Fin 4)

include below

theorem refineFace_outer_zero (cb : (temp i).cbc = 0) :
    (refineFace ich R iel (R iel) temp T i (kid R iel (onFace i k)) i).cbc = 0 := by
  have own : refineFace ich R iel (R iel) temp T i (kid R iel (onFace i k)) i =
      { T (kid R iel (onFace i k)) i with cbc := 0 } := by
    rw [refineFace_zero cb, ← betweenKids_outer (T := T) below (outer_onFace i k)]
    refine (foldl_owner (List.nodup_finRange 4) (List.mem_finRange k)
      (fun _ _ same => setFace_congr _ same) fun j _ other T => setFace_other _ fun h => ?_).trans
      (setFace_same _)
    exact other (onFace_injective (kid_injective below h.1)).symm
  rw [own]

theorem refineFace_outer_two (cb : (temp i).cbc = 2) (stays : ich ((temp i).sje 1 1) ≠ 4) :
    (refineFace ich R iel (R iel) temp T i (kid R iel (onFace i k)) i).cbc = 1 ∧
      (refineFace ich R iel (R iel) temp T i (kid R iel (onFace i k)) i).sje 1 1 =
        (temp i).sje 1 1 ∧
      (refineFace ich R iel (R iel) temp T i (kid R iel (onFace i k)) i).ijel = iijj k := by
  have side : ¬ (kid R iel (onFace i k) = (temp i).sje 1 1 ∧ i = opposite i) :=
    fun h => opposite_ne i h.2.symm
  have own : refineFace ich R iel (R iel) temp T i (kid R iel (onFace i k)) i =
      { (T (kid R iel (onFace i k)) i).setSje (1, 1) ((temp i).sje 1 1) with
        cbc := 1, ijel := iijj k } := by
    rw [refineFace_two cb stays]
    refine (foldl_owner (List.nodup_finRange 4) (List.mem_finRange k)
      (fun _ _ same => setFace_congr _ (setFace_congr _ same)) fun j _ other T => ?_).trans
      ((setFace_other _ side).trans ?_)
    · refine (setFace_other _ side).trans (setFace_other _ fun h => ?_)
      exact other (onFace_injective (kid_injective below h.1)).symm
    · rw [setFace_same, setFace_other _ side, betweenKids_outer below (outer_onFace i k)]
  rw [own]
  exact ⟨rfl, rfl, rfl⟩

theorem refineFace_outer_both (cb : (temp i).cbc = 2) (marked : ich ((temp i).sje 1 1) = 4) :
    (refineFace ich R iel (R iel) temp T i (kid R iel (onFace i k)) i).cbc = 2 ∧
      (refineFace ich R iel (R iel) temp T i (kid R iel (onFace i k)) i).sje 1 1 =
        kid R ((temp i).sje 1 1) (onFace (opposite i) k) := by
  have own : refineFace ich R iel (R iel) temp T i (kid R iel (onFace i k)) i =
      { (T (kid R iel (onFace i k)) i).setSje (1, 1)
          (kid R ((temp i).sje 1 1) (onFace (opposite i) k)) with
        cbc := 2, ijel := (1, (T (kid R iel (onFace i k)) i).ijel.2) } := by
    rw [refineFace_both cb marked, ← betweenKids_outer (T := T) below (outer_onFace i k)]
    refine (foldl_owner (List.nodup_finRange 4) (List.mem_finRange k)
      (fun _ _ same => setFace_congr _ same) fun j _ other T => setFace_other _ fun h => ?_).trans
      (setFace_same _)
    exact other (onFace_injective (kid_injective below h.1)).symm
  rw [own]
  exact ⟨rfl, rfl⟩

theorem refineFace_outer_three (ich : ℕ → ℕ) (cb : (temp i).cbc = 3) :
    (refineFace ich R iel (R iel) temp T i (kid R iel (onFace i k)) i).cbc = 2 ∧
      (refineFace ich R iel (R iel) temp T i (kid R iel (onFace i k)) i).sje 1 1 =
        (temp i).sje (iijj k).1 (iijj k).2 := by
  have side (n : ℕ) : ¬ (kid R iel (onFace i k) = n ∧ i = opposite i) :=
    fun h => opposite_ne i h.2.symm
  have own : refineFace ich R iel (R iel) temp T i (kid R iel (onFace i k)) i =
      { (T (kid R iel (onFace i k)) i).setSje (1, 1) ((temp i).sje (iijj k).1 (iijj k).2) with
        cbc := 2, ijel := (1, 1) } := by
    rw [refineFace_three cb, ← betweenKids_outer (T := T) below (outer_onFace i k)]
    refine (foldl_owner (List.nodup_finRange 4) (List.mem_finRange k)
      (fun _ _ same => setFace_congr _ (setFace_congr _ same)) fun j _ other T => ?_).trans
      ((setFace_other _ (side _)).trans (setFace_same _))
    refine (setFace_other _ (side _)).trans (setFace_other _ fun h => ?_)
    exact other (onFace_injective (kid_injective below h.1)).symm
  rw [own]
  exact ⟨rfl, rfl⟩

end Outer

theorem refineFace_neighbor_two (R : ℕ → ℕ) (iel : ℕ) (T : Tables) (cb : (temp i).cbc = 2)
    (stays : ich ((temp i).sje 1 1) ≠ 4) :
    (refineFace ich R iel (R iel) temp T i ((temp i).sje 1 1) (opposite i)).cbc = 3 ∧
      ∀ k, (refineFace ich R iel (R iel) temp T i ((temp i).sje 1 1) (opposite i)).sje
        (iijj k).1 (iijj k).2 = kid R iel (onFace i k) := by
  have side (n : ℕ) : ¬ ((temp i).sje 1 1 = n ∧ opposite i = i) := fun h => opposite_ne i h.2
  rw [refineFace_two cb stays, foldl_accumulate
    (fun k => FaceEntry.setSje (iijj k) (kid R iel (onFace i k)))
    (fun k _ T => by rw [setFace_same, setFace_other _ (side _)]), setFace_same]
  exact ⟨(foldl_setSje _ _).1, (foldl_setSje _ _).2⟩

theorem refineFace_neighbor_three (ich R : ℕ → ℕ) (iel : ℕ) (T : Tables)
    (cb : (temp i).cbc = 3) (k : Fin 4)
    (apart : ∀ j, (temp i).sje (iijj j).1 (iijj j).2 = (temp i).sje (iijj k).1 (iijj k).2 → j = k) :
    (refineFace ich R iel (R iel) temp T i ((temp i).sje (iijj k).1 (iijj k).2)
      (opposite i)).cbc = 2 ∧
      (refineFace ich R iel (R iel) temp T i ((temp i).sje (iijj k).1 (iijj k).2)
        (opposite i)).sje 1 1 = kid R iel (onFace i k) := by
  have side (n : ℕ) : ¬ ((temp i).sje (iijj k).1 (iijj k).2 = n ∧ opposite i = i) :=
    fun h => opposite_ne i h.2
  have own : refineFace ich R iel (R iel) temp T i ((temp i).sje (iijj k).1 (iijj k).2)
      (opposite i) =
      { (betweenKids R iel T i ((temp i).sje (iijj k).1 (iijj k).2) (opposite i)).setSje (1, 1)
          (kid R iel (onFace i k)) with cbc := 2, ijel := (1, 1) } := by
    rw [refineFace_three cb]
    refine (foldl_owner (List.nodup_finRange 4) (List.mem_finRange k)
      (fun _ _ same => setFace_congr _ (setFace_congr _ same)) fun j _ other T => ?_).trans ?_
    · refine (setFace_other _ fun h => other ?_).trans (setFace_other _ (side _))
      exact apart j h.1.symm
    · rw [setFace_same, setFace_other _ (side _)]
  rw [own]
  exact ⟨rfl, rfl⟩

end Face

section Element

def refineTables (ich R : ℕ → ℕ) (iel : ℕ) (T : Tables) : Tables :=
  (List.finRange 6).foldl (refineFace ich R iel (R iel) (T iel)) (zeroFaces iel (R iel) T)

variable {ich R : ℕ → ℕ} {iel e : ℕ} {T : Tables} {f : Face}

theorem refineTables_kid {c : Child} (apart : ∀ i, ¬ Target ich (T iel) i (kid R iel c)) :
    refineTables ich R iel T (kid R iel c) f =
      refineFace ich R iel (R iel) (T iel) (zeroFaces iel (R iel) T) f (kid R iel c) f := by
  refine foldl_owner (List.nodup_finRange 6) (List.mem_finRange f)
    (fun _ _ same => refineFace_congr same) fun j _ other T' => ?_
  exact refineFace_untouched (fun same => absurd same.symm other) (fun _ => apart j)

theorem zeroFaces_other (other : ∀ c, e ≠ kid R iel c) : zeroFaces iel (R iel) T e f = T e f := by
  refine if_neg ?_
  rintro (rfl | ⟨low, high⟩)
  · exact other 0 kid_zero.symm
  · have pos : (⟨e - R iel, by omega⟩ : Child) ≠ 0 := by
      intro zero
      have value := congrArg Fin.val zero
      simp only [Fin.val_zero] at value
      omega
    refine other ⟨e - R iel, by omega⟩ ?_
    rw [kid_of_ne pos]
    simp only
    omega

theorem refineTables_other (other : ∀ c, e ≠ kid R iel c) :
    refineTables ich R iel T e f =
      refineFace ich R iel (R iel) (T iel) (zeroFaces iel (R iel) T) (opposite f) e f := by
  refine foldl_owner (List.nodup_finRange 6) (List.mem_finRange (opposite f))
    (fun _ _ same => refineFace_congr same) fun j _ apart T' => ?_
  refine refineFace_untouched (fun _ => other) fun same => absurd ?_ apart
  rw [same, opposite_opposite]

theorem refineTables_untouched (other : ∀ c, e ≠ kid R iel c)
    (apart : ¬ Target ich (T iel) (opposite f) e) : refineTables ich R iel T e f = T e f := by
  rw [refineTables_other other, refineFace_untouched (fun _ => other) (fun _ => apart),
    zeroFaces_other other]

end Element

section Pass

variable (l : Leaves) (ich R : ℕ → ℕ)

def newLeaves : Leaves :=
  l.flatMap fun x =>
    if ich x.1 = 4 then (List.finRange 8).map fun c => (kid R x.1 c, c :: x.2) else [x]

variable {l ich R}

theorem mem_newLeaves {y : ℕ × Path} :
    y ∈ newLeaves l ich R ↔ (∃ x ∈ l, ich x.1 = 4 ∧ ∃ c, y = (kid R x.1 c, c :: x.2)) ∨
      y ∈ l ∧ ich y.1 ≠ 4 := by
  rw [newLeaves, List.mem_flatMap]
  constructor
  · rintro ⟨x, hx, member⟩
    split_ifs at member with marked
    · obtain ⟨c, -, rfl⟩ := List.mem_map.mp member
      exact .inl ⟨x, hx, marked, c, rfl⟩
    · rw [List.mem_singleton.mp member]
      exact .inr ⟨hx, marked⟩
  · rintro (⟨x, hx, marked, c, rfl⟩ | ⟨hy, stays⟩)
    · refine ⟨x, hx, ?_⟩
      rw [if_pos marked]
      exact List.mem_map_of_mem (List.mem_finRange c)
    · refine ⟨y, hy, ?_⟩
      rw [if_neg stays]
      exact List.mem_singleton_self y

theorem kid_mem {n : ℕ} {p : Path} (there : (n, p) ∈ l) (marked : ich n = 4) (c : Child) :
    (kid R n c, c :: p) ∈ newLeaves l ich R :=
  mem_newLeaves.mpr (.inl ⟨(n, p), there, marked, c, rfl⟩)

theorem stays_mem {n : ℕ} {p : Path} (there : (n, p) ∈ l) (stays : ich n ≠ 4) :
    (n, p) ∈ newLeaves l ich R := mem_newLeaves.mpr (.inr ⟨there, stays⟩)

/-- What `do_refine` is called with: no marked element has a larger neighbour, and the new
elements are numbered from `nelt + 1` on, seven for each marked one. -/
structure Marked (l : Leaves) (ich R : ℕ → ℕ) (nelt : ℕ) (T : Tables) : Prop where
  mesh : IsMesh l
  faces : ∀ x ∈ l, ∀ f, FaceOk l x.2 f (T x.1 f)
  allowed : ∀ x ∈ l, ich x.1 = 4 → ∀ f, (T x.1 f).cbc ≠ 1
  known : ∀ x ∈ l, x.1 ≤ nelt
  fresh : ∀ x ∈ l, ich x.1 = 4 → nelt ≤ R x.1
  apart : ∀ x ∈ l, ∀ y ∈ l, ich x.1 = 4 → ich y.1 = 4 → x ≠ y → ∀ c d : Child, c ≠ 0 → d ≠ 0 →
    R x.1 + c ≠ R y.1 + d

namespace Marked

variable {nelt : ℕ} {T : Tables} (h : Marked l ich R nelt T) {x y : ℕ × Path}

include h

theorem kid_ne (hx : x ∈ l) (marked : ich x.1 = 4) (hy : y ∈ l) (other : x ≠ y) (c : Child) :
    y.1 ≠ kid R x.1 c := by
  rw [kid]
  split_ifs with first
  · intro same
    exact other (List.inj_on_of_nodup_map h.mesh.ids hx hy same.symm)
  · have pos : 0 < c.val := Fin.pos_iff_ne_zero.mpr first
    have fresh := h.fresh x hx marked
    have known := h.known y hy
    omega

theorem kid_ne_kid (hx : x ∈ l) (marked : ich x.1 = 4) (hy : y ∈ l) (marked' : ich y.1 = 4)
    (other : x ≠ y) (c d : Child) : kid R y.1 d ≠ kid R x.1 c := by
  by_cases first : d = 0
  · rw [first, kid_zero]
    exact h.kid_ne hx marked hy other c
  · by_cases second : c = 0
    · rw [second, kid_zero]
      exact (h.kid_ne hy marked' hx (Ne.symm other) d).symm
    · rw [kid_of_ne first, kid_of_ne second]
      exact h.apart y hy x hx marked' marked (Ne.symm other) d c first second

theorem target (hx : x ∈ l) (marked : ich x.1 = 4) {i : Face} {n : ℕ}
    (target : Target ich (T x.1) i n) : ∃ q, (n, q) ∈ l ∧ (n, q) ≠ x ∧ ich n ≠ 4 := by
  have ok := h.faces x hx i
  rcases target with ⟨two, stays, rfl⟩ | ⟨three, k, rfl⟩
  · obtain ⟨q, -, there⟩ := (faceOk_two two).mp ok
    refine ⟨q, there, fun same => stays ?_, stays⟩
    rw [← same] at marked
    exact marked
  · obtain ⟨q, found, smaller⟩ := (faceOk_three three).mp ok
    have stays : ich ((T x.1 i).sje (iijj k).1 (iijj k).2) ≠ 4 := by
      intro refined
      have back := neighbor_symm found
      have small := h.faces _ (smaller k) (opposite i)
      exact h.allowed _ (smaller k) refined (opposite i)
        (face_larger h.mesh small back (show (x.1, x.2) ∈ l from hx)).1
    refine ⟨_, smaller k, fun same => stays ?_, stays⟩
    rw [← same] at marked
    exact marked

end Marked

/-- A face that looks at an element of this size or at a larger one, among some elements. -/
def LooksAt (D : Leaves) (e : FaceEntry) : Prop :=
  (e.cbc = 1 ∨ e.cbc = 2) ∧ ∃ y ∈ D, y.1 = e.sje 1 1

/-- The main loop behind the elements `D`: the children have the faces of the refined mesh, and
so have the faces that look at one of `D`; all others are as before. -/
structure Refining (l : Leaves) (ich R : ℕ → ℕ) (T₀ : Tables) (D : Leaves) (T : Tables) :
    Prop where
  done : ∀ x ∈ D, x ∈ l ∧ ich x.1 = 4
  waiting : ∀ x ∈ l, ich x.1 = 4 → x ∉ D → ∀ f, T x.1 f = T₀ x.1 f
  kids : ∀ x ∈ D, ∀ c f, FaceOk (newLeaves l ich R) (c :: x.2) f (T (kid R x.1 c) f)
  looking : ∀ x ∈ l, ich x.1 ≠ 4 → ∀ f, LooksAt D (T₀ x.1 f) →
    FaceOk (newLeaves l ich R) x.2 f (T x.1 f)
  others : ∀ x ∈ l, ich x.1 ≠ 4 → ∀ f, ¬ LooksAt D (T₀ x.1 f) → T x.1 f = T₀ x.1 f

section Step

variable {nelt : ℕ} {T₀ T : Tables} {D : Leaves} {x y : ℕ × Path} {f : Face}
  (h : Marked l ich R nelt T₀)

include h

theorem kids_faceOk (hx : x ∈ l) (marked : ich x.1 = 4) (same : T x.1 = T₀ x.1) (c : Child) :
    FaceOk (newLeaves l ich R) (c :: x.2) f (refineTables ich R x.1 T (kid R x.1 c) f) := by
  have below : x.1 ≤ R x.1 := (h.known x hx).trans (h.fresh x hx marked)
  have apart : ∀ i, ¬ Target ich (T x.1) i (kid R x.1 c) := by
    intro i target
    rw [same] at target
    obtain ⟨q, there, other, -⟩ := h.target hx marked target
    exact h.kid_ne hx marked there (Ne.symm other) c rfl
  have ok := h.faces x hx f
  rw [refineTables_kid apart, same]
  cases side : outer f c with
  | false =>
      rw [refineFace_inner below side, faceOk_two rfl]
      exact ⟨across f c :: x.2, neighbor_cons_inner side, kid_mem hx marked _⟩
  | true =>
      obtain ⟨k, rfl⟩ := exists_onFace side
      rcases ok.types with zero | one | two | three
      · rw [faceOk_zero (refineFace_outer_zero below k zero), neighbor_onFace,
          (faceOk_zero zero).mp ok]
        rfl
      · exact absurd one (h.allowed x hx marked f)
      · obtain ⟨q, found, there⟩ := (faceOk_two two).mp ok
        by_cases refined : ich ((T₀ x.1 f).sje 1 1) = 4
        · obtain ⟨cb, id⟩ :=
            refineFace_outer_both (T := zeroFaces x.1 (R x.1) T) below k two refined
          rw [faceOk_two cb, id, neighbor_onFace, found]
          exact ⟨_, rfl, kid_mem there refined _⟩
        · obtain ⟨cb, id, position⟩ :=
            refineFace_outer_two (T := zeroFaces x.1 (R x.1) T) below k two refined
          rw [faceOk_one cb, id]
          exact ⟨k, x.2, q, rfl, found, stays_mem there refined, position⟩
      · obtain ⟨q, found, smaller⟩ := (faceOk_three three).mp ok
        obtain ⟨cb, id⟩ := refineFace_outer_three (T := zeroFaces x.1 (R x.1) T) below k
          ich three
        have target : Target ich (T₀ x.1) f ((T₀ x.1 f).sje (iijj k).1 (iijj k).2) :=
          .inr ⟨three, k, rfl⟩
        obtain ⟨-, -, -, stays⟩ := h.target hx marked target
        rw [faceOk_two cb, id, neighbor_onFace, found]
        exact ⟨_, rfl, stays_mem (smaller k) stays⟩

theorem target_of_looksAt (hx : x ∈ l) (hy : y ∈ l) (stays : ich y.1 ≠ 4)
    (type : (T₀ y.1 f).cbc = 1 ∨ (T₀ y.1 f).cbc = 2) (looks : x.1 = (T₀ y.1 f).sje 1 1) :
    Target ich (T₀ x.1) (opposite f) y.1 := by
  have ok := h.faces y hy f
  have mine := h.faces x hx (opposite f)
  rcases type with one | two
  · obtain ⟨k, q, r, path, found, there, -⟩ := (faceOk_one one).mp ok
    rw [← looks] at there
    have same : r = x.2 := h.mesh.eq_of_id there (show (x.1, x.2) ∈ l from hx)
    have small : (y.1, onFace (opposite (opposite f)) k :: q) ∈ l := by
      rw [opposite_opposite, ← path]
      exact hy
    rw [same] at found
    obtain ⟨three, id⟩ := face_smaller h.mesh mine (neighbor_symm found) small
    exact .inr ⟨three, k, id.symm⟩
  · obtain ⟨q, found, there⟩ := (faceOk_two two).mp ok
    rw [← looks] at there
    have same : q = x.2 := h.mesh.eq_of_id there (show (x.1, x.2) ∈ l from hx)
    rw [same] at found
    obtain ⟨cb, id⟩ := face_same h.mesh mine (neighbor_symm found) (show (y.1, y.2) ∈ l from hy)
    exact .inl ⟨cb, by rw [id]; exact stays, id.symm⟩

theorem target_faceOk (hx : x ∈ l) (marked : ich x.1 = 4) (same : T x.1 = T₀ x.1) (hy : y ∈ l)
    (target : Target ich (T₀ x.1) (opposite f) y.1) :
    FaceOk (newLeaves l ich R) y.2 f (refineTables ich R x.1 T y.1 f) ∧
      (((T₀ y.1 f).cbc = 1 ∨ (T₀ y.1 f).cbc = 2) ∧ x.1 = (T₀ y.1 f).sje 1 1) := by
  obtain ⟨q', there', apart, -⟩ := h.target hx marked target
  have other : x ≠ y := by
    intro equal
    have path : q' = y.2 := h.mesh.eq_of_id there' (show (y.1, y.2) ∈ l from hy)
    exact apart (by rw [path, equal])
  have mine := h.faces x hx (opposite f)
  have ok := h.faces y hy f
  have kids : ∀ c, y.1 ≠ kid R x.1 c := h.kid_ne hx marked hy other
  rw [refineTables_other kids, same]
  rcases target with ⟨two, stays, id⟩ | ⟨three, k, id⟩
  · obtain ⟨q, found, there⟩ := (faceOk_two two).mp mine
    rw [← id] at there
    have path : q = y.2 := h.mesh.eq_of_id there (show (y.1, y.2) ∈ l from hy)
    have back := neighbor_symm found
    rw [opposite_opposite, path] at back
    obtain ⟨cb, smaller⟩ := refineFace_neighbor_two R x.1 (zeroFaces x.1 (R x.1) T)
      two stays
    rw [opposite_opposite, ← id] at cb smaller
    obtain ⟨type, looks⟩ := face_same h.mesh ok back (show (x.1, x.2) ∈ l from hx)
    refine ⟨?_, .inr type, looks.symm⟩
    rw [faceOk_three cb]
    refine ⟨x.2, back, fun k => ?_⟩
    rw [smaller k]
    exact kid_mem hx marked _
  · obtain ⟨q, found, smaller⟩ := (faceOk_three three).mp mine
    have injective : ∀ j, (T₀ x.1 (opposite f)).sje (iijj j).1 (iijj j).2 =
        (T₀ x.1 (opposite f)).sje (iijj k).1 (iijj k).2 → j = k := by
      intro j equal
      have first := smaller j
      rw [equal] at first
      exact onFace_injective (List.cons.inj (h.mesh.eq_of_id first (smaller k))).1
    have there := smaller k
    rw [← id, opposite_opposite] at there
    have path : onFace f k :: q = y.2 := h.mesh.eq_of_id there (show (y.1, y.2) ∈ l from hy)
    have back := neighbor_symm found
    rw [opposite_opposite] at back
    obtain ⟨cb, larger⟩ := refineFace_neighbor_three ich R x.1
      (zeroFaces x.1 (R x.1) T) three k injective
    rw [opposite_opposite, ← id] at cb larger
    rw [← path] at ok
    obtain ⟨type, looks, -⟩ := face_larger h.mesh ok back (show (x.1, x.2) ∈ l from hx)
    refine ⟨?_, .inl type, looks.symm⟩
    rw [faceOk_two cb, larger, ← path, neighbor_onFace, back]
    exact ⟨_, rfl, kid_mem hx marked _⟩

theorem Refining.step (r : Refining l ich R T₀ D T) (hx : x ∈ l) (marked : ich x.1 = 4)
    (new : x ∉ D) : Refining l ich R T₀ (x :: D) (refineTables ich R x.1 T) := by
  have same : T x.1 = T₀ x.1 := funext (r.waiting x hx marked new)
  -- elements of the old mesh other than `x`
  have apart : ∀ y ∈ l, y ≠ x → ∀ c, y.1 ≠ kid R x.1 c := fun y hy other =>
    h.kid_ne hx marked hy (Ne.symm other)
  refine ⟨?_, ?_, ?_, ?_, ?_⟩
  · intro y hy
    rcases List.mem_cons.mp hy with rfl | old
    · exact ⟨hx, marked⟩
    · exact r.done y old
  · intro y hy marked' notYet f
    rw [List.mem_cons, not_or] at notYet
    obtain ⟨other, later⟩ := notYet
    rw [refineTables_untouched (apart y hy other), r.waiting y hy marked' later f]
    intro target
    rw [same] at target
    obtain ⟨-, -, -, stays⟩ := h.target hx marked target
    exact stays marked'
  · intro y hy c f
    rcases List.mem_cons.mp hy with rfl | old
    · exact kids_faceOk h hx marked same c
    · obtain ⟨hy', marked'⟩ := r.done y old
      have other : x ≠ y := fun equal => new (equal ▸ old)
      rw [refineTables_untouched (fun d => h.kid_ne_kid hx marked hy' marked' other d c)]
      · exact r.kids y old c f
      · intro target
        rw [same] at target
        obtain ⟨q, there, -, stays⟩ := h.target hx marked target
        by_cases first : c = 0
        · rw [first, kid_zero] at stays
          exact stays marked'
        · have pos : 0 < c.val := Fin.pos_iff_ne_zero.mpr first
          have known := h.known _ there
          have fresh := h.fresh y hy' marked'
          rw [kid_of_ne first] at known
          simp only at known
          omega
  · intro y hy stays f looks
    have other : y ≠ x := fun equal => stays (equal ▸ marked)
    by_cases target : Target ich (T₀ x.1) (opposite f) y.1
    · exact (target_faceOk h hx marked same hy target).1
    · rw [refineTables_untouched (apart y hy other) (by rwa [same])]
      obtain ⟨type, z, hz, id⟩ := looks
      rcases List.mem_cons.mp hz with rfl | old
      · exact absurd (target_of_looksAt h hx hy stays type id) target
      · exact r.looking y hy stays f ⟨type, z, old, id⟩
  · intro y hy stays f looks
    have other : y ≠ x := fun equal => stays (equal ▸ marked)
    have target : ¬ Target ich (T₀ x.1) (opposite f) y.1 := by
      intro target
      obtain ⟨type, id⟩ := (target_faceOk h hx marked same hy target).2
      exact looks ⟨type, x, List.mem_cons_self .., id⟩
    rw [refineTables_untouched (apart y hy other) (by rwa [same])]
    refine r.others y hy stays f fun before => looks ?_
    obtain ⟨type, z, hz, id⟩ := before
    exact ⟨type, z, List.mem_cons_of_mem _ hz, id⟩

theorem refining_foldl (todo : Leaves) (once : todo.Nodup)
    (among : ∀ x ∈ todo, x ∈ l ∧ ich x.1 = 4 ∧ x ∉ D) (r : Refining l ich R T₀ D T) :
    Refining l ich R T₀ (todo.reverse ++ D)
      (todo.foldl (fun T x => refineTables ich R x.1 T) T) := by
  induction todo generalizing D T with
  | nil => exact r
  | cons x todo ih =>
      obtain ⟨hx, marked, new⟩ := among x (List.mem_cons_self ..)
      rw [List.nodup_cons] at once
      rw [List.foldl_cons, List.reverse_cons, List.append_assoc]
      refine ih once.2 ?_ (r.step h hx marked new)
      intro y hy
      obtain ⟨hy', marked', later⟩ := among y (List.mem_cons_of_mem _ hy)
      refine ⟨hy', marked', fun member => ?_⟩
      rcases List.mem_cons.mp member with rfl | old
      · exact once.1 hy
      · exact later old

theorem faces_of_refined (r : Refining l ich R T₀ D T)
    (all : ∀ x ∈ l, ich x.1 = 4 → x ∈ D) :
    ∀ x ∈ newLeaves l ich R, ∀ f, FaceOk (newLeaves l ich R) x.2 f (T x.1 f) := by
  intro y hy f
  rcases mem_newLeaves.mp hy with ⟨x, hx, marked, c, rfl⟩ | ⟨hy', stays⟩
  · exact r.kids x (all x hx marked) c f
  · by_cases looks : LooksAt D (T₀ y.1 f)
    · exact r.looking y hy' stays f looks
    · have ok := h.faces y hy' f
      rw [r.others y hy' stays f looks]
      -- nothing that the face names is refined
      have kept : ∀ q, ((T₀ y.1 f).cbc = 1 ∨ (T₀ y.1 f).cbc = 2) →
          ((T₀ y.1 f).sje 1 1, q) ∈ l → ((T₀ y.1 f).sje 1 1, q) ∈ newLeaves l ich R := by
        intro q type there
        refine stays_mem there fun marked => looks ⟨type, _, all _ there marked, rfl⟩
      rcases ok.types with zero | one | two | three
      · rw [faceOk_zero zero] at ok ⊢
        exact ok
      · rw [faceOk_one one] at ok ⊢
        obtain ⟨k, q, r', path, found, there, position⟩ := ok
        exact ⟨k, q, r', path, found, kept _ (.inl one) there, position⟩
      · rw [faceOk_two two] at ok ⊢
        obtain ⟨q, found, there⟩ := ok
        exact ⟨q, found, kept _ (.inr two) there⟩
      · rw [faceOk_three three] at ok ⊢
        obtain ⟨q, found, smaller⟩ := ok
        refine ⟨q, found, fun k => stays_mem (smaller k) fun marked => ?_⟩
        have small := h.faces _ (smaller k) (opposite f)
        exact h.allowed _ (smaller k) marked (opposite f)
          (face_larger h.mesh small (neighbor_symm found) (show (y.1, y.2) ∈ l from hy')).1

end Step

end Pass

end Baseliner.UaRefine
